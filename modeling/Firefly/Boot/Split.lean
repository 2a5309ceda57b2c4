import Firefly.Base.Fields
import Firefly.Base.Gateway
import Firefly.Boot.Package

/-!
# Firefly.Boot.Split

The boot loader that is split between a peripheral and a controller (`fd_boot_split_peripheral.c`,
`fd_boot_split_controller.c` and `controller.py` with `gateway.py`): the handlers of the peripheral for
the five requests, and how both controllers read the responses.

A result is an error with its code, an issue that makes what was looked for invalid, or valid with its
metadata. Exceptions of the Python controller other than a failed operation are `none`. Its COBS
library is a parameter.
-/

namespace Firefly
namespace Boot
namespace Split

open Bytes

/-- What an operation ends with. -/
inductive Result (μ : Type) where
  | failed (code : UInt32)
  | notValid (issue : UInt8)
  | valid (metadata : μ)
  deriving DecidableEq

/-- `fd_system_identity_t`, whose identifier is a C string. -/
structure Identity where
  version : Version
  identifier : List UInt8
  noNul : 0 ∉ identifier

def operationGetIdentity : UInt16 := 0
def operationGetExecutableMetadata : UInt16 := 1
def operationGetUpdateMetadata : UInt16 := 2
def operationUpdate : UInt16 := 3
def operationExecute : UInt16 := 4
def operationGetUpdateStorage : UInt16 := 5
def operationUpdateRead : UInt16 := 6

/-! ## The peripheral -/

namespace Peripheral

/-- `fd_boot_split_peripheral_dispatch_respond`: the bytes that are transmitted, if any. -/
def dispatchRespond (queue : Memory) (message : Binary) (envelope : Envelope) :
    Option (Option (List UInt8)) := do
  let (encoded, message, _) ← Envelope.encode queue message envelope
  if encoded then
    let message := message.putUint8 0
    if message.errors ≠ 0 then some none else some (some message.contents)
  else some none

/-- The envelope of a response. -/
def responseEnvelope (envelope : Envelope) : Envelope :=
  { crc16 := 0
    length := 0
    target := envelope.source
    source := envelope.target
    system := envelope.system
    subsystem := envelope.subsystem
    type := Envelope.typeResponse
    reserved0 := 0 }

/-- A response begins with its operation, in a buffer that may hold anything before. -/
def begin (data : Memory) (operation : UInt16) : Binary :=
  (Binary.initializeWith data 64).putUint16 operation

def putVersion (b : Binary) (version : Version) : Binary :=
  ((b.putUint32 (UInt32.ofNat version.major)).putUint32 (UInt32.ofNat version.minor)).putUint32
    (UInt32.ofNat version.patch)

def putExecutableMetadata (b : Binary) (metadata : ExecutableMetadata) : Binary :=
  ((putVersion b metadata.version).putUint32 (UInt32.ofNat metadata.length)).putBytes metadata.hash

/-- The fields of a result in front of the metadata. -/
def putResult {μ : Type} (b : Binary) (putMetadata : Binary → μ → Binary) : Result μ → Binary
  | .failed code => (b.putUint8 0).putUint32 code
  | .notValid issue => ((b.putUint8 1).putUint8 0).putUint8 issue
  | .valid metadata => putMetadata ((b.putUint8 1).putUint8 1) metadata

def getIdentity (data : Memory) (identity : Identity) : Binary :=
  (putVersion (begin data operationGetIdentity) identity.version).putString identity.identifier

def getExecutableMetadata (data : Memory) (result : Result ExecutableMetadata) : Binary :=
  putResult (begin data operationGetExecutableMetadata) putExecutableMetadata result

def getUpdateMetadata (data : Memory) (result : Result UpdateMetadata) : Binary :=
  putResult (begin data operationGetUpdateMetadata)
    (fun b metadata =>
      (((putExecutableMetadata b metadata.executableMetadata).putBytes metadata.hash).putUint32
        (UInt32.ofNat metadata.flags)).putBytes metadata.initializationVector)
    result

def update (data : Memory) (result : Result Unit) : Binary :=
  putResult (begin data operationUpdate) (fun b _ => b) result

/-- What `fd_boot_split_peripheral_execute` obtains: a valid executable is executed, which only comes
back with an error. -/
def executed (result : Result ExecutableMetadata) (execution : Except UInt32 Unit) : Result Unit :=
  match result with
  | .failed code => .failed code
  | .notValid issue => .notValid issue
  | .valid _ =>
    match execution with
    | .error code => .failed code
    | .ok _ => .valid ()

def execute (data : Memory) (result : Result ExecutableMetadata) (execution : Except UInt32 Unit) : Binary :=
  match executed result execution with
  | .failed code => ((begin data operationExecute).putUint8 0).putUint32 code
  | _ => (begin data operationExecute).putUint8 1

end Peripheral

/-! ## The controller in C -/

namespace Controller

/-- `fd_boot_split_controller_poll`, with the bytes that come. -/
def poll (message : Binary) : List UInt8 → Option Binary
  | [] => none
  | byte :: data =>
    if byte = 0 then
      if message.putIndex ≠ 0 then some message else poll message data
    else poll (message.putUint8 byte) data

/-- `fd_boot_split_controller_rpc` behind the request, when only the given bytes come. Without a
response there is a timeout, which is error 1 too. -/
def rpc (buffer : Memory) (operation : UInt16) (bytes : List UInt8) : Except UInt32 Binary :=
  match poll (Binary.initializeWith buffer 64) bytes with
  | none => .error 1
  | some message =>
    match Envelope.decode message with
    | (_, none) => .error 1
    | (message, some envelope) =>
      if envelope.type = Envelope.typeResponse then
        let response := message.reset.getUint16
        if response.1 = operation then .ok response.2 else .error 1
      else .error 1

def getVersion (b : Binary) : Version × Binary :=
  let major := b.getUint32
  let minor := major.2.getUint32
  let patch := minor.2.getUint32
  (⟨major.1.toNat, minor.1.toNat, patch.1.toNat⟩, patch.2)

/-- `fd_boot_split_controller_get_identity`: the version, and the identifier without its terminator. -/
def getIdentity (buffer : Memory) (identifierSize : Nat) (bytes : List UInt8) :
    Except UInt32 (Version × List UInt8) :=
  match rpc buffer operationGetIdentity bytes with
  | .error code => .error code
  | .ok response =>
    let version := getVersion response
    let string := version.2.getString.1
    if string.length + 1 > identifierSize then .error 1 else .ok (version.1, string)

/-- What `fd_boot_split_controller_update` and `fd_boot_split_controller_execute` read. -/
def getResult (buffer : Memory) (operation : UInt16) (bytes : List UInt8) : Result Unit :=
  match rpc buffer operation bytes with
  | .error code => .failed code
  | .ok response =>
    let success := response.getUint8
    if success.1 = 0 then .failed success.2.getUint32.1
    else
      let isValid := success.2.getUint8
      if isValid.1 = 0 then .notValid isValid.2.getUint8.1 else .valid ()

def update (buffer : Memory) (bytes : List UInt8) : Result Unit := getResult buffer operationUpdate bytes

def execute (buffer : Memory) (bytes : List UInt8) : Result Unit := getResult buffer operationExecute bytes

end Controller

/-! ## The controller in Python -/

namespace Python

/-- `crc ^= byte << 8`, on integers without a bound. -/
def enter (crc : Nat) (byte : UInt8) : Nat := crc ^^^ byte.toNat <<< 8

def shift (crc : Nat) : Nat :=
  let temp := crc <<< 1
  if crc &&& 0x8000 ≠ 0 then temp ^^^ 0x1021 else temp

def crc16 (data : List UInt8) : Nat := data.foldl (fun crc byte => shift^[8] (enter crc byte)) 0 &&& 0xffff

/-- `get_envelope`. -/
def getEnvelope (message : List UInt8) : Option (List UInt8 × Envelope) :=
  match message.drop (message.length - 10) with
  | [reserved0, type, subsystem, system, source, target, length₀, length₁, crc₀, crc₁] =>
    if leNat [length₀, length₁] ≠ message.length - 10 then none
    else if leNat [crc₀, crc₁] ≠ crc16 (message.take (message.length - 2)) then none
    else some (message.take (leNat [length₀, length₁]),
      ⟨UInt16.ofNat (leNat [crc₀, crc₁]), UInt16.ofNat (leNat [length₀, length₁]), target, source, system,
        subsystem, type, reserved0⟩)
  | _ => none

/-- `rx` and `rx_waiting`, with the bytes that come. -/
def collect (message : List UInt8) : List UInt8 → Option (List UInt8)
  | [] => none
  | byte :: data =>
    if byte = 0 then
      if message.length > 0 then some message else collect message data
    else collect (message ++ [byte]) data

def rx (cobsDecode : List UInt8 → Option (List UInt8)) (bytes : List UInt8) :
    Option (List UInt8 × Envelope) := do
  let message ← collect [] bytes
  let decoded ← cobsDecode message
  getEnvelope decoded

/-- `struct.unpack` of numbers of the given widths, from just their bytes. -/
def unpack (widths : List Nat) (data : List UInt8) : Option (List Nat) :=
  match widths with
  | [] => if data = [] then some [] else none
  | w :: widths =>
    if data.length < w then none
    else (unpack widths (data.drop w)).map (leNat (data.take w) :: ·)

def getUint32 (data : List UInt8) (index : Nat) : Option Nat :=
  match unpack [4] (field data index 4) with
  | some [n] => some n
  | _ => none

/-- The fields of `GetExecutableMetadata.decode` from the index of the version on. -/
def executableMetadata (data : List UInt8) (index : Nat) : Option ExecutableMetadata := do
  let major ← getUint32 data index
  let minor ← getUint32 data (index + 4)
  let patch ← getUint32 data (index + 8)
  let length ← getUint32 data (index + 12)
  some ⟨⟨major, minor, patch⟩, length, field data (index + 16) 20⟩

def updateMetadata (data : List UInt8) (index : Nat) : Option UpdateMetadata := do
  let executableMetadata ← executableMetadata data index
  let flags ← getUint32 data (index + 56)
  some ⟨executableMetadata, field data (index + 36) 20, flags, field data (index + 60) 16⟩

/-- The `decode` of a response with a result. -/
def decode {μ : Type} (operation : UInt16) (metadata : List UInt8 → Nat → Option μ) (data : List UInt8) :
    Option (Result μ) :=
  match unpack [2, 1] (field data 0 3) with
  | some [responseOperation, success] =>
    if responseOperation ≠ operation.toNat then none
    else if success = 0 then (getUint32 data 3).map fun code => .failed (UInt32.ofNat code)
    else
      match data[3]? with
      | none => none
      | some isValid =>
        if isValid = 0 then data[4]?.map .notValid else (metadata data 4).map .valid
  | _ => none

def GetExecutableMetadata.decode : List UInt8 → Option (Result ExecutableMetadata) :=
  Python.decode operationGetExecutableMetadata executableMetadata

def GetUpdateMetadata.decode : List UInt8 → Option (Result UpdateMetadata) :=
  Python.decode operationGetUpdateMetadata updateMetadata

def Update.decode : List UInt8 → Option (Result Unit) := Python.decode operationUpdate fun _ _ => some ()

def Execute.decode : List UInt8 → Option (Result Unit) := Python.decode operationExecute fun _ _ => some ()

/-- `GetIdentity.decode`; the identifier is decoded as UTF-8. -/
def GetIdentity.decode (data : List UInt8) : Option (Version × String) :=
  match unpack [2, 4, 4, 4, 1] (field data 0 15) with
  | some [operation, major, minor, patch, length] =>
    if operation ≠ operationGetIdentity.toNat then none
    else (String.fromUTF8? ⟨(field data 15 length).toArray⟩).map fun identifier =>
      (⟨major, minor, patch⟩, identifier)
  | _ => none

end Python

end Split
end Boot
end Firefly
