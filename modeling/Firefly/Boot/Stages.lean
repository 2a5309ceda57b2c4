import Firefly.Boot.Update

/-!
# Firefly.Boot.Stages

`fd_boot_get_update_metadata` in three stages: the checks in front of the executable (`frontUpdate`), for an
encrypted update the check of the encrypted metadata and the initialization of the decryption
(`openEncrypted`), and the check of the executable (`checkFrom`). The state that the decryption of the
executable starts with is a parameter, as the code does not pass the context that it initialized.
-/

namespace Firefly
namespace Boot

open Bytes Result

variable {Δ H C : Type}

namespace Interface

variable (i : Interface Δ H C) (d : Δ)

/-- The checks of `fd_boot_get_update_metadata` in front of the executable, and the rest. -/
def getUpdateMetadataWith {α : Type} (rest : Range → UpdateMetadata → Except Error (Except UpdateIssue α)) :
    Except Error (Except UpdateIssue α) := do
  let storage ← (i.info d).getUpdateStorage
  let headerRange : Range := ⟨storage.location, 8⟩
  if !isValidSubrange storage headerRange then .error (some 1)
  else match i.updateRead d headerRange.location headerRange.length with
  | .error _ => .error (some 1)
  | .ok header => do
    if uint32 header 0 ≠ updateMetadataHeaderMagic then return .error .headerMagic
    if uint32 header 4 ≠ updateMetadataHeaderVersion then return .error .headerVersion
    let metadataRange : Range := ⟨(storage.location + 8) % 2 ^ 32, 76⟩
    if !isValidSubrange storage metadataRange then .error (some 1)
    else do
      let metadata ← i.updateRead d metadataRange.location metadataRange.length
      let metadata := UpdateMetadata.unpack metadata
      if metadata.executableMetadata.length % hashBlockSize ≠ 0 then return .error .length
      if metadata.executableMetadata.length ≠ executableLength storage metadata.encrypted then
        return .error .length
      let trailerRange : Range := ⟨(storage.location + storage.length + (2 ^ 32 - 4)) % 2 ^ 32, 4⟩
      if !isValidSubrange storage trailerRange then return .error .length
      let trailer ← i.updateRead d trailerRange.location trailerRange.length
      if uint32 trailer 0 ≠ updateTrailerMagic then return .error .trailerMagic
      let (isValid, _, _) ← checkHash (i.hash d) (reader d i.updateRead) () storage storage
        ⟨(storage.location + 44) % 2 ^ 32, hashDataSize⟩ metadata.hash
      if !isValid then return .error .hash
      rest storage metadata

/-- The rest for an encrypted update, where the reader starts with `start c` when the initialization of
`decrypt_context` gave `c`. -/
def checkEncryptedFrom (start : C → C) (storage : Range) (metadata : UpdateMetadata) :
    Except Error (Except UpdateIssue (UpdateMetadata × List UInt8)) := do
  let decrypted ← i.decryptRange d metadata ⟨128, 128⟩
  let expected := { metadata with hash := List.replicate hashDataSize 0 }
  if UpdateMetadata.unpack (decrypted.drop 8) ≠ expected then return .error .metadata
  let key ← (i.info d).getDecryption
  let c ← (i.decrypt d).init key metadata.initializationVector
  let location := executableLocation storage metadata
  let executable ← (i.info d).getExecutable
  let (isValid, data, c) ← checkHash (i.hash d) (i.readAndDecrypt d) (start c) storage
    ⟨location, metadata.executableMetadata.length⟩
    ⟨(location + executable.metadataOffset + 24) % 2 ^ 32, hashDataSize⟩
    metadata.executableMetadata.hash
  (i.decrypt d).finalize c
  if !isValid then return .error .hash
  return .ok (metadata, data)

def getUpdateMetadataFrom (start : C → C) :
    Except Error (Except UpdateIssue (UpdateMetadata × List UInt8)) :=
  i.getUpdateMetadataWith d fun storage metadata =>
    if metadata.encrypted then i.checkEncryptedFrom d start storage metadata
    else i.checkUnencrypted d storage metadata

/-- Where the reader goes on with the state of the decryption it is the check of `fd_boot.c` with the
default callbacks. -/
theorem getUpdateMetadataFrom_id : i.getUpdateMetadataFrom d id = i.getUpdateMetadata d := by
  rw [getUpdateMetadataFrom, getUpdateMetadataWith, getUpdateMetadata]
  rfl

/-! ## Stages -/

/-- The checks in front of the executable. -/
def frontUpdate (i : Interface Δ H C) (d : Δ) : Except Error (Except UpdateIssue (Range × UpdateMetadata)) :=
  i.getUpdateMetadataWith d fun storage metadata => .ok (.ok (storage, metadata))

/-- Up to where the executable is read: the state of the decryption is initialized. -/
def openEncrypted (i : Interface Δ H C) (d : Δ) (metadata : UpdateMetadata) :
    Except Error (Except UpdateIssue (C × InfoExecutable)) := do
  let decrypted ← i.decryptRange d metadata ⟨128, 128⟩
  let expected := { metadata with hash := List.replicate hashDataSize 0 }
  if UpdateMetadata.unpack (decrypted.drop 8) ≠ expected then return .error .metadata
  let key ← (i.info d).getDecryption
  let c ← (i.decrypt d).init key metadata.initializationVector
  let executable ← (i.info d).getExecutable
  return .ok (c, executable)

/-- Whether the executable of an encrypted update is valid, when it is decrypted from this state on. -/
def checkFrom (i : Interface Δ H C) (d : Δ) (storage : Range) (metadata : UpdateMetadata)
    (executable : InfoExecutable) (c : C) : Except Error (Bool × List UInt8) := do
  let location := executableLocation storage metadata
  let (isValid, data, c) ← checkHash (i.hash d) (i.readAndDecrypt d) c storage
    ⟨location, metadata.executableMetadata.length⟩
    ⟨(location + executable.metadataOffset + 24) % 2 ^ 32, hashDataSize⟩
    metadata.executableMetadata.hash
  (i.decrypt d).finalize c
  return (isValid, data)

/-- The rest, after checks that passed. -/
def andThen {α β : Type} (r : Except Error (Except UpdateIssue α))
    (rest : α → Except Error (Except UpdateIssue β)) : Except Error (Except UpdateIssue β) :=
  match r with
  | .error e => .error e
  | .ok (.error issue) => .ok (.error issue)
  | .ok (.ok a) => rest a

section

variable {α β γ : Type} (rest : α → Except Error (Except UpdateIssue β))

theorem andThen_ok (a : α) : andThen (.ok (.ok a)) rest = rest a := rfl

theorem andThen_congr {r : Except Error (Except UpdateIssue α)}
    {rest rest' : α → Except Error (Except UpdateIssue β)}
    (h : ∀ a, r = .ok (.ok a) → rest a = rest' a) : andThen r rest = andThen r rest' := by
  cases r with
  | error e => rfl
  | ok r =>
    cases r with
    | error issue => rfl
    | ok a => exact h a rfl

theorem andThen_bind (x : Except Error γ) (k : γ → Except Error (Except UpdateIssue α)) :
    andThen (x >>= k) rest = x >>= fun a => andThen (k a) rest := by
  cases x <;> rfl

theorem andThen_ite (p : Prop) [Decidable p] (r s : Except Error (Except UpdateIssue α)) :
    andThen (if p then r else s) rest = if p then andThen r rest else andThen s rest :=
  apply_ite (andThen · rest) p r s

end

theorem getUpdateMetadataWith_eq {α : Type} (i : Interface Δ H C) (d : Δ)
    (rest : Range → UpdateMetadata → Except Error (Except UpdateIssue α)) :
    i.getUpdateMetadataWith d rest = andThen (i.frontUpdate d) fun x => rest x.1 x.2 := by
  rw [frontUpdate, getUpdateMetadataWith, getUpdateMetadataWith, andThen_bind]
  refine bind_congr fun storage => ?_
  dsimp only
  rw [andThen_ite]
  refine if_congr Iff.rfl rfl ?_
  cases i.updateRead d storage.location 8 with
  | error e => rfl
  | ok header =>
    dsimp only
    rw [andThen_ite]
    refine if_congr Iff.rfl rfl ?_
    rw [andThen_ite]
    refine if_congr Iff.rfl rfl ?_
    rw [andThen_ite]
    refine if_congr Iff.rfl rfl ?_
    rw [andThen_bind]
    refine bind_congr fun bytes => ?_
    rw [andThen_ite]
    refine if_congr Iff.rfl rfl ?_
    rw [andThen_ite]
    refine if_congr Iff.rfl rfl ?_
    rw [andThen_ite]
    refine if_congr Iff.rfl rfl ?_
    rw [andThen_bind]
    refine bind_congr fun trailer => ?_
    rw [andThen_ite]
    refine if_congr Iff.rfl rfl ?_
    rw [andThen_bind]
    refine bind_congr fun x => ?_
    rw [andThen_ite]
    exact if_congr Iff.rfl rfl rfl

/-- The end of the check of an encrypted update. -/
def conclude (metadata : UpdateMetadata) (x : Bool × List UInt8) :
    Except Error (Except UpdateIssue (UpdateMetadata × List UInt8)) :=
  if !x.1 then .ok (.error .hash) else .ok (.ok (metadata, x.2))

theorem checkEncryptedFrom_eq (i : Interface Δ H C) (d : Δ) (start : C → C) (storage : Range)
    (metadata : UpdateMetadata) :
    i.checkEncryptedFrom d start storage metadata =
      andThen (i.openEncrypted d metadata) fun x =>
        i.checkFrom d storage metadata x.2 (start x.1) >>= conclude metadata := by
  rw [checkEncryptedFrom, openEncrypted, andThen_bind]
  refine bind_congr fun decrypted => ?_
  dsimp only
  rw [andThen_ite]
  refine if_congr Iff.rfl rfl ?_
  rw [andThen_bind]
  refine bind_congr fun key => ?_
  rw [andThen_bind]
  refine bind_congr fun c => ?_
  rw [andThen_bind]
  refine bind_congr fun executable => ?_
  change _ = i.checkFrom d storage metadata executable (start c) >>= conclude metadata
  rw [checkFrom]
  cases checkHash (i.hash d) (i.readAndDecrypt d) (start c) storage
      ⟨executableLocation storage metadata, metadata.executableMetadata.length⟩
      ⟨(executableLocation storage metadata + executable.metadataOffset + 24) % 2 ^ 32, hashDataSize⟩
      metadata.executableMetadata.hash with
  | error e => rfl
  | ok x =>
    obtain ⟨isValid, data, c'⟩ := x
    rw [ok_bind, ok_bind]
    dsimp only
    cases (i.decrypt d).finalize c' with
    | error e => rfl
    | ok _ => rfl

end Interface

end Boot
end Firefly
