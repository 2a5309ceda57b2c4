import Firefly.Boot.Split

/-!
# Firefly.Boot.Calls

The calls by which the peripheral asks the controller (`fd_boot_split_peripheral.c`):
`fd_boot_split_peripheral_get_update_storage` and `fd_boot_split_peripheral_update_read`. A call keeps
the record of its operation on the stack of the program, points `operation` to it, sends its request
and waits in `fd_boot_split_peripheral_io` for one message. The message can be a request, whose handler
may make such calls again.

The program takes a step for each byte that `poll` takes from the queue, for a timeout, for a call that
it makes and for a request that has been handled. What the handlers do besides is left open. A record is
known by the number of its call. The record of a call that has returned is taken to be still there.
-/

namespace Firefly
namespace Boot
namespace Split
namespace Peripheral

open Bytes

def errorGeneric : UInt32 := 1
def errorTimeout : UInt32 := 2

/-- `fd_boot_split_peripheral_message_limit`. -/
def messageLimit : UInt32 := 300

/-! ## Records -/

/-- `fd_boot_info_update_storage_t`. -/
structure UpdateStorage where
  location : UInt32
  length : UInt32

/-- `fd_boot_split_peripheral_update_read_operation_t`, with the bytes that have been copied to its
data. -/
structure UpdateRead where
  location : UInt32
  length : UInt32
  data : Option (List UInt8)
  result : Bool

/-- The record of an operation. That of `fd_boot_split_peripheral_get_update_storage_operation_t` points
to the storage, which is there once it has been filled. -/
inductive Record where
  | getUpdateStorage (storage : Option UpdateStorage)
  | updateRead (operation : UpdateRead)

/-- The record of a call and what has been put in its `error`. -/
structure Activation where
  record : Record
  error : Option UInt32

/-- What the responses do to a record of the other type, which the language leaves open: what is left of
the record, and for the response to an `update_read` whether the operation is over. -/
structure Mistaken where
  storage : UpdateRead → UpdateStorage → UpdateRead
  read : Option UpdateStorage → Binary → Option UpdateStorage × Bool

/-- What a response gives for the storage. -/
def getUpdateStorage (message : Binary) : UpdateStorage :=
  ⟨message.getUint32.1, message.getUint32.2.getUint32.1⟩

/-- `fd_boot_split_peripheral_update_read_response` on its record: the record, the error that is set and
whether the operation is over. -/
def UpdateRead.respond (operation : UpdateRead) (message : Binary) : UpdateRead × Option UInt32 × Bool :=
  let location := message.getUint32
  if location.1 ≠ operation.location then ({ operation with result := false }, some errorGeneric, false)
  else
    let length := location.2.getUint16
    if length.1.toNat ≠ operation.length.toNat then
      ({ operation with result := false }, some errorGeneric, false)
    else
      let result := length.2.getUint8
      if result.1 = 0 then ({ operation with result := false }, some result.2.getUint32.1, false)
      else if (2 ^ 32 - result.2.getIndex + result.2.size) % 2 ^ 32 ≠ length.1.toNat then
        ({ operation with result := false }, some errorGeneric, false)
      else
        ({ operation with
            data := some (result.2.buffer.read result.2.getIndex length.1.toNat)
            result := true }, none, true)

/-! ## Messages -/

/-- The fields of `fd_boot_split_peripheral_configuration_t` that are used here. -/
structure Configuration where
  target : UInt32
  source : UInt32
  system : UInt32
  subsystem : UInt32
  returnOnError : Bool

/-- What a message is to the program. -/
inductive Arrival where
  | refused
  | request
  | getUpdateStorage (message : Binary)
  | updateRead (message : Binary)

/-- `fd_boot_split_peripheral_dispatch_request`, as far as the choice of the handler. -/
def dispatchRequest (message : Binary) : Arrival :=
  let operation := message.getUint16
  if operation.1 ∈ [operationGetIdentity, operationGetExecutableMetadata, operationGetUpdateMetadata,
      operationUpdate, operationExecute] then .request
  else .refused

/-- `fd_boot_split_peripheral_dispatch_response`, likewise. -/
def dispatchResponse (message : Binary) : Arrival :=
  let operation := message.getUint16
  if operation.1 = operationGetUpdateStorage then .getUpdateStorage operation.2
  else if operation.1 = operationUpdateRead then .updateRead operation.2
  else .refused

/-- `fd_boot_split_peripheral_dispatch_process`. -/
def dispatchProcess (message : Binary) (envelope : Envelope) : Arrival :=
  if envelope.type = Envelope.typeRequest then dispatchRequest message
  else if envelope.type = Envelope.typeResponse then dispatchResponse message
  else .refused

/-- `fd_boot_split_peripheral_dispatch_filter`. -/
def DispatchFilter (configuration : Configuration) (envelope : Envelope) : Prop :=
  envelope.system.toUInt32 = configuration.system ∧ envelope.subsystem.toUInt32 = configuration.subsystem

instance (configuration : Configuration) (envelope : Envelope) :
    Decidable (DispatchFilter configuration envelope) := instDecidableAnd

/-- `fd_boot_split_peripheral_io` with the message that `poll` has put together. -/
def arrival (configuration : Configuration) (message : Binary) : Arrival :=
  match Envelope.decode message with
  | (_, none) => .refused
  | (message, some envelope) =>
    let message := { message with
      size := message.putIndex % 2 ^ 32
      size_lt := Nat.mod_lt _ (Nat.two_pow_pos 32) }
    if DispatchFilter configuration envelope then dispatchProcess message envelope else .refused

/-- `fd_boot_split_peripheral_tx`: the bytes that are transmitted, if any. -/
def tx (configuration : Configuration) (queue : Memory) (message : Binary) (type : UInt8) :
    Option (Option (List UInt8)) :=
  dispatchRespond queue message
    { crc16 := 0
      length := 0
      target := configuration.target.toUInt8
      source := configuration.source.toUInt8
      system := configuration.system.toUInt8
      subsystem := configuration.subsystem.toUInt8
      type := type
      reserved0 := 0 }

/-- The messages of `fd_boot_split_peripheral_get_update_storage_request` and
`fd_boot_split_peripheral_update_read_request`. -/
def request (buffer : Memory) : Record → Binary
  | .getUpdateStorage _ => (Binary.initializeWith buffer 32).putUint16 operationGetUpdateStorage
  | .updateRead operation =>
    (((Binary.initializeWith buffer 32).putUint16 operationUpdateRead).putUint32 operation.location).putUint16
      operation.length.toUInt16

/-! ## The program -/

/-- What is on the stack of the program: `fd_boot_split_peripheral_run`, a call with the messages that
have been dispatched since it began, or the handler of a request, and whether it has made a call. -/
inductive Frame where
  | run
  | call (id : Nat) (received : List Arrival)
  | request (called : Bool)

/-- A message that is dispatched while a call has not returned. -/
def Frame.receive (a : Arrival) : Frame → Frame
  | .call id received => .call id (received ++ [a])
  | frame => frame

/-- A call that has returned with `value`, its record, its error and the pointer as it was then, and the
messages that were dispatched during the call. -/
structure Returned where
  id : Nat
  record : Record
  value : Bool
  error : Option UInt32
  operation : Option Nat
  received : List Arrival

/-- `message` is that of the last `fd_boot_split_peripheral_io` that began. -/
structure State where
  operation : Option Nat
  activations : Nat → Activation
  next : Nat
  stack : List Frame
  message : Binary
  returned : List Returned

inductive Event where
  | run
  | getUpdateStorage
  | updateRead (location length : UInt32)
  | byte (byte : UInt8)
  | timeout
  | respond (result : Bool)

/-- The configuration, the memory on the stack before it is written to, and what the language leaves
open. -/
structure Setup where
  configuration : Configuration
  queue : Memory
  buffer : Memory
  mistaken : Mistaken

namespace State

variable (p : Setup)

/-- `fd_boot_split_peripheral_get_update_storage_response`. -/
def getUpdateStorageResponse (s : State) (message : Binary) : State :=
  match s.operation with
  | none => s
  | some id =>
    let storage := getUpdateStorage message
    let record := match (s.activations id).record with
      | .getUpdateStorage _ => Record.getUpdateStorage (some storage)
      | .updateRead operation => .updateRead (p.mistaken.storage operation storage)
    { s with
      activations := Function.update s.activations id { s.activations id with record := record }
      operation := none }

/-- `fd_boot_split_peripheral_update_read_response`. -/
def updateReadResponse (s : State) (message : Binary) : State :=
  match s.operation with
  | none => s
  | some id =>
    let (activation, ended) := match (s.activations id).record with
      | .getUpdateStorage storage =>
        let (storage, ended) := p.mistaken.read storage message
        ({ s.activations id with record := .getUpdateStorage storage }, ended)
      | .updateRead operation =>
        let (operation, error, ended) := operation.respond message
        (⟨.updateRead operation, error <|> (s.activations id).error⟩, ended)
    { s with
      activations := Function.update s.activations id activation
      operation := if ended then none else some id }

/-- What a call returns, if `fd_boot_split_peripheral_io` returned without an error or with the given
one. -/
def value (s : State) (id : Nat) (error : Option UInt32) : Bool :=
  if error ≠ none then false
  -- received an unexpected operation
  else if s.operation ≠ none then false
  else match (s.activations id).record with
    | .getUpdateStorage _ => true
    | .updateRead operation => operation.result

/-- An `fd_boot_split_peripheral_io` begins with an empty message. -/
def io (s : State) : State := { s with message := Binary.initializeWith p.buffer messageLimit }

/-- The return of `fd_boot_split_peripheral_io`, without an error or with the given one. -/
def ioReturn (s : State) (error : Option UInt32) : State :=
  match s.stack with
  | .call id received :: stack =>
    { s with
      stack := stack
      returned := ⟨id, (s.activations id).record, s.value id error, error <|> (s.activations id).error,
        s.operation, received⟩ :: s.returned }
  | .run :: stack =>
    if error ≠ none ∧ p.configuration.returnOnError then { s with stack := stack } else s.io p
  | _ => s

/-- `fd_dispatch_process`, and the return of `fd_boot_split_peripheral_io` unless a handler runs. -/
def dispatch (s : State) (a : Arrival) : State :=
  let s := { s with stack := s.stack.map (Frame.receive a) }
  match a with
  | .refused => s.ioReturn p (some errorGeneric)
  | .request => { s with stack := .request false :: s.stack }
  | .getUpdateStorage message => (s.getUpdateStorageResponse p message).ioReturn p none
  | .updateRead message => (s.updateReadResponse p message).ioReturn p none

/-- A handler makes a call. -/
def markCalled : List Frame → List Frame
  | .request _ :: stack => .request true :: stack
  | stack => stack

/-- The start of `fd_boot_split_peripheral_get_update_storage` or
`fd_boot_split_peripheral_update_read`, to where it waits. -/
def call (s : State) (record : Record) : State :=
  let s := { s with
    operation := some s.next
    activations := Function.update s.activations s.next ⟨record, none⟩
    next := s.next + 1
    stack := .call s.next [] :: markCalled s.stack }
  match tx p.configuration p.queue (request p.buffer record) Envelope.typeRequest with
  | some (some _) => s.io p
  | _ => s.ioReturn p (some errorGeneric)

/-- The program waits in `fd_boot_split_peripheral_io`. -/
def waits (s : State) : Bool :=
  match s.stack with
  | .run :: _ => true
  | .call _ _ :: _ => true
  | _ => false

/-- What arrives with the next byte, if it ends a message. -/
def arrives (s : State) (event : Event) : Option Arrival :=
  match event with
  | .byte byte =>
    if s.waits ∧ byte = 0 ∧ s.message.putIndex ≠ 0 then some (arrival p.configuration s.message) else none
  | _ => none

/-- A step of the program, if it can take it. -/
def step (s : State) (event : Event) : Option State :=
  match event with
  | .run => if s.stack = [] then some ({ s with stack := [.run] }.io p) else none
  | .getUpdateStorage => if s.waits then none else some (s.call p (.getUpdateStorage none))
  | .updateRead location length =>
    if s.waits then none else some (s.call p (.updateRead ⟨location, length, none, false⟩))
  | .byte byte =>
    if s.waits then
      if byte = 0 then
        if s.message.putIndex ≠ 0 then some (s.dispatch p (arrival p.configuration s.message)) else some s
      else some { s with message := s.message.putUint8 byte }
    else none
  | .timeout => if s.waits then some (s.ioReturn p (some errorTimeout)) else none
  | .respond result =>
    match s.stack with
    | .request _ :: stack =>
      some ({ s with stack := stack }.ioReturn p (if result then none else some errorGeneric))
    | _ => none

end State

/-- The states that can be reached by steps that meet a condition. -/
inductive Reached (p : Setup) (condition : State → Event → Prop) : State → Prop where
  | initialized (activations : Nat → Activation) (message : Binary) :
      Reached p condition ⟨none, activations, 0, [], message, []⟩
  | step {s s' : State} {event : Event} (h : Reached p condition s) (hcondition : condition s event)
      (hstep : s.step p event = some s') : Reached p condition s'

end Peripheral
end Split
end Boot
end Firefly
