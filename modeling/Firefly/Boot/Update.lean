import Firefly.Lib.Blocks
import Firefly.Lib.Bytes
import Firefly.Lib.Result

/-!
# Firefly.Boot.Update

`fd_boot.c`: the boot loader checks the executable in flash and the update in its storage, and
installs the update when its version is newer or there is no valid executable.

The callbacks of `fd_boot_update_interface_t` are an `Interface` over three states: the device `Δ`,
the hash `H` and the decryption `C`. They may depend on the device, which only the flasher changes.
As the default callbacks do, those of the hash and of the decryption keep their state globally, from
their initialization on, and do not use the contexts passed to them. A call that returns false is an
error, with the code that was set, if any, and, where the flasher may have been used, the device as
it then is. The results with an issue in them are the inner `Except`. The watchdog and the progress
are left out.

`checkHash` also gives the bytes that it read, and a valid update those over which the hash of its
executable was computed: what is verified is a matter of the claims about the installation.
-/

namespace Firefly
namespace Boot

open Bytes Result

/-! ## Formats -/

structure Version where
  major : Nat
  minor : Nat
  patch : Nat
  deriving DecidableEq

structure Range where
  location : Nat
  length : Nat

structure ExecutableMetadata where
  version : Version
  length : Nat
  hash : List UInt8
  deriving DecidableEq

structure UpdateMetadata where
  executableMetadata : ExecutableMetadata
  hash : List UInt8
  flags : Nat
  initializationVector : List UInt8
  deriving DecidableEq

def executableMetadataHeaderMagic : Nat := 0xb001da1a
def executableMetadataHeaderVersion : Nat := 1
def executableTrailerMagic : Nat := 0xb001e00d
def updateMetadataHeaderMagic : Nat := 0xab09da1e
def updateMetadataHeaderVersion : Nat := 1
def updateTrailerMagic : Nat := 0xda1ee00d

def hashDataSize : Nat := 20
def hashBlockSize : Nat := 64
def decryptBlockSize : Nat := 16

/-- `metadata.flags & fd_boot_update_metadata_flag_encrypted`. -/
def UpdateMetadata.encrypted (m : UpdateMetadata) : Bool := m.flags.testBit 0

/-- The bytes of a field. -/
def field (data : List UInt8) (offset length : Nat) : List UInt8 := (data.drop offset).take length

def uint32 (data : List UInt8) (offset : Nat) : Nat := leNat (field data offset 4)

/-- The packed `fd_boot_executable_metadata_t`. -/
def ExecutableMetadata.unpack (data : List UInt8) : ExecutableMetadata where
  version := ⟨uint32 data 0, uint32 data 4, uint32 data 8⟩
  length := uint32 data 12
  hash := field data 16 20

/-- The packed `fd_boot_update_metadata_t`. -/
def UpdateMetadata.unpack (data : List UInt8) : UpdateMetadata where
  executableMetadata := .unpack data
  hash := field data 36 20
  flags := uint32 data 56
  initializationVector := field data 60 16

/-! ## Callbacks -/

/-- `fd_boot_error_t`: the code that was set, if any. -/
abbrev Error := Option Nat

structure InfoExecutable where
  location : Nat
  metadataOffset : Nat

structure Info where
  getExecutableStorage : Except Error Range
  getExecutable : Except Error InfoExecutable
  getUpdateStorage : Except Error Range
  getDecryption : Except Error (List UInt8)

/-- `initialize`, `update` and `finalize` of the hash. -/
structure Hash (H : Type) where
  init : Except Error H
  update : H → List UInt8 → Except Error H
  finalize : H → Except Error (List UInt8)

structure Decrypt (C : Type) where
  init : List UInt8 → List UInt8 → Except Error C
  update : C → List UInt8 → Except Error (List UInt8 × C)
  finalize : C → Except Error Unit

structure Flasher (Δ : Type) where
  /-- Gives the next location to erase at. -/
  erase : Δ → Nat → Nat → Except (Error × Δ) (Nat × Δ)
  write : Δ → Nat → List UInt8 → Except (Error × Δ) Δ
  finalize : Δ → Except (Error × Δ) Δ

structure Action where
  canUpgrade : Version → Version → Bool
  canDowngrade : Version → Version → Bool
  canInstall : Version → Bool

/-- `fd_boot_action_can_upgrade`, `fd_boot_action_can_downgrade` and `fd_boot_action_can_install`. -/
def Action.default : Action := ⟨fun _ _ => true, fun _ _ => false, fun _ => true⟩

structure Interface (Δ H C : Type) where
  info : Δ → Info
  hash : Δ → Hash H
  decrypt : Δ → Decrypt C
  executableRead : Δ → Nat → Nat → Except Error (List UInt8)
  executableFlasher : Flasher Δ
  updateRead : Δ → Nat → Nat → Except Error (List UInt8)
  action : Action

/-! ## Checks -/

def isValidSubrange (range subrange : Range) : Bool :=
  range.location ≤ subrange.location &&
    (subrange.location + subrange.length) % 2 ^ 32 ≤ (range.location + range.length) % 2 ^ 32

/-- The length that the executable must have, in 32 bits. -/
def executableLength (storage : Range) (encrypted : Bool) : Nat :=
  (storage.length + (2 ^ 32 - 64) + (2 ^ 32 - 128) + if encrypted then 2 ^ 32 - 128 else 0) % 2 ^ 32

/-- The start of the executable in the storage. -/
def executableLocation (storage : Range) (metadata : UpdateMetadata) : Nat :=
  (storage.location + storage.length + (2 ^ 32 - 64) + (2 ^ 32 - metadata.executableMetadata.length)) %
    2 ^ 32

/-- `memset` to 0. -/
def clear (data : List UInt8) (offset length : Nat) : List UInt8 :=
  data.take offset ++ List.replicate (min length (data.length - offset)) 0 ++ data.drop (offset + length)

section

variable {Δ H C ρ : Type}

/-- One block: read, with the range `zero` taken as zeros where the block has all of it. -/
def checkHashBlock (hash : Hash H) (read : ρ → Nat → Nat → Except Error (List UInt8 × ρ)) (zero : Range)
    (location length : Nat) (s : H × List UInt8 × ρ) : Except Error (H × List UInt8 × ρ) := do
  let (block, r) ← read s.2.2 location length
  let data :=
    if location ≤ zero.location ∧ (zero.location + zero.length) % 2 ^ 32 ≤ location + length then
      clear block (zero.location - location) zero.length
    else block
  let h ← hash.update s.1 data
  return (h, s.2.1 ++ block, r)

/-- Whether the hash of the range is the given one, the bytes read, and the state of the reader. -/
def checkHash (hash : Hash H) (read : ρ → Nat → Nat → Except Error (List UInt8 × ρ)) (r : ρ)
    (storageRange range zero : Range) (expected : List UInt8) :
    Except Error (Bool × List UInt8 × ρ) :=
  if !isValidSubrange storageRange range then .error (some 1)
  else do
    let h ← hash.init
    let (h, data, r) ← Blocks.run hashBlockSize (checkHashBlock hash read zero) range.location
      ((range.location + range.length) % 2 ^ 32) (h, [], r)
    let actual ← hash.finalize h
    return (actual = expected, data, r)

inductive ExecutableIssue where
  | trailerMagic
  | headerMagic
  | headerVersion
  | length
  | hash
  deriving DecidableEq

inductive UpdateIssue where
  | trailerMagic
  | headerMagic
  | headerVersion
  | length
  | hash
  | metadata
  deriving DecidableEq

namespace Interface

variable (i : Interface Δ H C) (d : Δ)

/-- A reader without a state of its own. -/
def reader (read : Δ → Nat → Nat → Except Error (List UInt8)) (_ : Unit) (location length : Nat) :
    Except Error (List UInt8 × Unit) := do
  let data ← read d location length
  return (data, ())

/-- What `fd_boot_get_executable_metadata` does once it has the metadata. -/
def checkExecutable (storage : Range) (executable : InfoExecutable) (metadata : ExecutableMetadata) :
    Except Error (Except ExecutableIssue ExecutableMetadata) :=
  if metadata.length % hashBlockSize ≠ 0 then
    -- the issue is set, and the call fails without a code
    .error none
  else
    let trailerRange : Range :=
      ⟨(executable.location + metadata.length + (2 ^ 32 - 4)) % 2 ^ 32, 4⟩
    if !isValidSubrange storage trailerRange then .ok (.error .length)
    else do
      let trailer ← i.executableRead d trailerRange.location trailerRange.length
      if uint32 trailer 0 ≠ executableTrailerMagic then return .error .trailerMagic
      let (isValid, _, _) ← checkHash (i.hash d) (reader d i.executableRead) () storage
        ⟨executable.location, metadata.length⟩
        ⟨(executable.location + executable.metadataOffset + 24) % 2 ^ 32, hashDataSize⟩ metadata.hash
      if !isValid then return .error .hash
      return .ok metadata

def getExecutableMetadata : Except Error (Except ExecutableIssue ExecutableMetadata) := do
  let storage ← (i.info d).getExecutableStorage
  let executable ← (i.info d).getExecutable
  let headerRange : Range := ⟨(executable.location + executable.metadataOffset) % 2 ^ 32, 8⟩
  if !isValidSubrange storage headerRange then throw (some 1)
  let header ← i.executableRead d headerRange.location headerRange.length
  if uint32 header 0 ≠ executableMetadataHeaderMagic then return .error .headerMagic
  if uint32 header 4 ≠ executableMetadataHeaderVersion then return .error .headerVersion
  let metadataRange : Range := ⟨(executable.location + executable.metadataOffset + 8) % 2 ^ 32, 36⟩
  if !isValidSubrange storage metadataRange then throw (some 1)
  let metadata ← i.executableRead d metadataRange.location metadataRange.length
  i.checkExecutable d storage executable (.unpack metadata)

/-- `fd_boot_read_and_decrypt`, with the state of the decryption. -/
def readAndDecrypt (c : C) (location length : Nat) : Except Error (List UInt8 × C) := do
  let data ← i.updateRead d location length
  if length ≠ hashBlockSize then throw (some 1)
  (i.decrypt d).update c data

def decryptBlock (location length : Nat) (s : C × List UInt8) : Except Error (C × List UInt8) := do
  let data ← i.updateRead d location length
  let (out, c) ← (i.decrypt d).update s.1 data
  return (c, s.2 ++ out)

def decryptRange (metadata : UpdateMetadata) (range : Range) : Except Error (List UInt8) := do
  let key ← (i.info d).getDecryption
  let c ← (i.decrypt d).init key metadata.initializationVector
  let (c, data) ← Blocks.run decryptBlockSize (i.decryptBlock d) range.location
    ((range.location + range.length) % 2 ^ 32) (c, [])
  (i.decrypt d).finalize c
  return data

/-- The rest of `fd_boot_get_update_metadata` for an update that is not encrypted. -/
def checkUnencrypted (storage : Range) (metadata : UpdateMetadata) :
    Except Error (Except UpdateIssue (UpdateMetadata × List UInt8)) := do
  let headerLength := 84
  let (isValid, data, _) ← checkHash (i.hash d) (reader d i.updateRead) () storage
    ⟨(storage.location + headerLength) % 2 ^ 32, metadata.executableMetadata.length⟩
    ⟨0, hashDataSize⟩ metadata.executableMetadata.hash
  if !isValid then return .error .hash
  return .ok (metadata, data)

/-- The rest of `fd_boot_get_update_metadata` for an encrypted update. -/
def checkEncrypted (storage : Range) (metadata : UpdateMetadata) :
    Except Error (Except UpdateIssue (UpdateMetadata × List UInt8)) := do
  let decrypted ← i.decryptRange d metadata ⟨128, 128⟩
  let expected := { metadata with hash := List.replicate hashDataSize 0 }
  if UpdateMetadata.unpack (decrypted.drop 8) ≠ expected then return .error .metadata
  let key ← (i.info d).getDecryption
  let c ← (i.decrypt d).init key metadata.initializationVector
  let location := executableLocation storage metadata
  let executable ← (i.info d).getExecutable
  let (isValid, data, c) ← checkHash (i.hash d) (i.readAndDecrypt d) c storage
    ⟨location, metadata.executableMetadata.length⟩
    ⟨(location + executable.metadataOffset + 24) % 2 ^ 32, hashDataSize⟩
    metadata.executableMetadata.hash
  (i.decrypt d).finalize c
  if !isValid then return .error .hash
  return .ok (metadata, data)

/-- `fd_boot_get_update_metadata` from the check of the trailer on. -/
def checkUpdate (storage : Range) (metadata : UpdateMetadata) :
    Except Error (Except UpdateIssue (UpdateMetadata × List UInt8)) :=
  let trailerRange : Range := ⟨(storage.location + storage.length + (2 ^ 32 - 4)) % 2 ^ 32, 4⟩
  if !isValidSubrange storage trailerRange then .ok (.error .length)
  else do
    let trailer ← i.updateRead d trailerRange.location trailerRange.length
    if uint32 trailer 0 ≠ updateTrailerMagic then return .error .trailerMagic
    let (isValid, _, _) ← checkHash (i.hash d) (reader d i.updateRead) () storage storage
      ⟨(storage.location + 44) % 2 ^ 32, hashDataSize⟩ metadata.hash
    if !isValid then return .error .hash
    if metadata.encrypted then i.checkEncrypted d storage metadata
    else i.checkUnencrypted d storage metadata

def getUpdateMetadata : Except Error (Except UpdateIssue (UpdateMetadata × List UInt8)) := do
  let storage ← (i.info d).getUpdateStorage
  let headerRange : Range := ⟨storage.location, 8⟩
  if !isValidSubrange storage headerRange then throw (some 1)
  let header ← match i.updateRead d headerRange.location headerRange.length with
    | .error _ => throw (some 1)
    | .ok header => pure header
  if uint32 header 0 ≠ updateMetadataHeaderMagic then return .error .headerMagic
  if uint32 header 4 ≠ updateMetadataHeaderVersion then return .error .headerVersion
  let metadataRange : Range := ⟨(storage.location + 8) % 2 ^ 32, 76⟩
  if !isValidSubrange storage metadataRange then throw (some 1)
  let metadata ← i.updateRead d metadataRange.location metadataRange.length
  let metadata := UpdateMetadata.unpack metadata
  if metadata.executableMetadata.length % hashBlockSize ≠ 0 then return .error .length
  if metadata.executableMetadata.length ≠ executableLength storage metadata.encrypted then
    return .error .length
  i.checkUpdate d storage metadata

end Interface

/-! ## Actions -/

def Version.isEq (a b : Version) : Bool :=
  a.major == b.major && a.minor == b.minor && a.patch == b.patch

def Version.isLt (a b : Version) : Bool :=
  if a.major < b.major then true
  else if a.major > b.major then false
  else if a.minor < b.minor then true
  else if a.minor > b.minor then false
  else a.patch < b.patch

inductive UpdateAction where
  | none
  | run
  | install
  deriving DecidableEq

def getAction (action : Action) (executable : Except ExecutableIssue ExecutableMetadata)
    (update : Except UpdateIssue UpdateMetadata) : UpdateAction :=
  match executable, update with
  | .ok executable, .ok update =>
    if update.executableMetadata.version.isEq executable.version then .run
    else if executable.version.isLt update.executableMetadata.version then
      if action.canUpgrade executable.version update.executableMetadata.version then .install
      else .run
    else
      if action.canDowngrade executable.version update.executableMetadata.version then .install
      else .run
  | .ok _, .error _ => .run
  | .error _, .ok update =>
    if action.canInstall update.executableMetadata.version then .install else .none
  | .error _, .error _ => .none

/-- The decryption, the device, and where to write and to erase next. -/
structure Installing (Δ C : Type) where
  decryption : C
  device : Δ
  flashLocation : Nat
  nextEraseLocation : Nat

namespace Interface

variable (i : Interface Δ H C) (d : Δ)

def installBlock (executableLength : Nat) (location length : Nat) (s : Installing Δ C) :
    Except (Error × Δ) (Installing Δ C) := do
  let data ← raise (·, s.device) (i.updateRead s.device location length)
  let (out, c) ← raise (·, s.device) ((i.decrypt s.device).update s.decryption data)
  let (next, d) ←
    if s.nextEraseLocation = s.flashLocation then
      i.executableFlasher.erase s.device s.flashLocation executableLength
    else pure (s.nextEraseLocation, s.device)
  let d ← i.executableFlasher.write d s.flashLocation out
  return ⟨c, d, (s.flashLocation + length) % 2 ^ 32, next⟩

/-- Before the first block. -/
def installStart (metadata : UpdateMetadata) : Except Error (Range × Installing Δ C) := do
  let key ← (i.info d).getDecryption
  let c ← (i.decrypt d).init key metadata.initializationVector
  let executable ← (i.info d).getExecutable
  let storage ← (i.info d).getUpdateStorage
  return (⟨executableLocation storage metadata, metadata.executableMetadata.length⟩,
    ⟨c, d, executable.location, executable.location⟩)

def install (metadata : UpdateMetadata) : Except (Error × Δ) Δ := do
  let (range, s) ← raise (·, d) (i.installStart d metadata)
  let s ← Blocks.run decryptBlockSize (i.installBlock metadata.executableMetadata.length)
    range.location ((range.location + range.length) % 2 ^ 32) s
  let d ← i.executableFlasher.finalize s.device
  raise (·, d) ((i.decrypt d).finalize s.decryption)
  return d

inductive Issue where
  | firmware
  | update
  deriving DecidableEq

/-- The two checks of `fd_boot_update` and the action that they lead to. -/
def choose : Except Error (UpdateAction × Except UpdateIssue (UpdateMetadata × List UInt8)) := do
  let executable ← i.getExecutableMetadata d
  let update ← i.getUpdateMetadata d
  return (getAction i.action executable (update.map (·.1)), update)

/-- `fd_boot_update`: valid or an issue, and the device. -/
def update : Except (Error × Δ) (Except Issue Unit × Δ) := do
  match ← raise (·, d) (i.choose d) with
  | (.none, _) => return (.error .firmware, d)
  | (.run, _) => return (.ok (), d)
  -- an action to install is for a valid update
  | (.install, .error _) => return (.error .update, d)
  | (.install, .ok (metadata, _)) =>
    let d ← i.install d metadata
    match ← raise (·, d) (i.getExecutableMetadata d) with
    | .error _ => return (.error .update, d)
    | .ok _ => return (.ok (), d)

end Interface

end

end Boot
end Firefly
