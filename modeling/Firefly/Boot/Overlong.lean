import Firefly.Base.Receiver
import Firefly.Boot.Pending

/-!
# Firefly.Boot.Overlong

The three receivers of envelopes: the gateway, and the peripheral and the controller of the split boot
loader. None of them looks whether a message has overflowed, so of a frame that is too long the part
that fits is decoded, and dispatched if it is a frame itself. They drop frames that are too long only if
there is none (`dropped_iff`). What the program of the peripheral makes of its bytes, in whatever calls and
handlers it takes them, is what the loop alone makes of them (`run_arrivals`).
-/

namespace Firefly

variable {α : Type} {m : Binary} {size : Nat}

/-! ## The gateway -/

namespace Gateway

variable (g : Gateway α) (queue : Memory)

/-- What `fd_gateway_message_rx` does with a message that is complete. -/
def complete (message : Binary) : Outcome α × Binary :=
  match g.process queue message with
  | none => (.returned false, message.reset)
  | some (outcome, message) => (outcome, message.reset)

variable {g queue}

theorem clean_complete (hm : m.size = size) : Clean size (g.complete queue m).2 := by
  rw [complete]
  split
  · exact clean_reset hm
  · rename_i outcome r hprocess
    exact clean_reset ((process_size hprocess).trans hm)

theorem messageRx_eq (g : Gateway α) (queue : Memory) (m : Binary) (data : List UInt8) :
    (g.messageRx queue m data).map Prod.fst = some (receive (g.complete queue) m data) := by
  induction data generalizing m with
  | nil => rfl
  | cons byte data ih =>
    rw [messageRx, receive]
    by_cases hbyte : byte = 0
    · rw [if_pos hbyte, if_pos hbyte]
      by_cases hkept : m.putIndex ≠ 0
      · have hself : Alike m m := alike_of_contents rfl rfl rfl rfl
        obtain ⟨outcome, r, -, hprocess, -⟩ := process_alike g queue hself
        have hcomplete : g.complete queue m = (outcome, r.reset) := by
          rw [complete, hprocess]
        have hrest := ih r.reset
        rw [if_pos (Nat.pos_of_ne_zero hkept), if_pos hkept, hprocess, hcomplete]
        dsimp only [Option.bind_eq_bind, Option.bind_some]
        cases hrx : g.messageRx queue r.reset data with
        | none =>
          rw [hrx] at hrest
          cases hrest
        | some result =>
          rw [hrx, Option.map_some] at hrest
          rw [← Option.some.inj hrest]
          rfl
      · rw [if_neg (by omega), if_neg hkept]
        exact ih m
    · rw [if_neg hbyte, if_neg hbyte]
      exact ih (m.putUint8 byte)

theorem complete_alike (g : Gateway α) (queue : Memory) {m m' : Binary} (h : Alike m m') :
    (g.complete queue m').1 = (g.complete queue m).1 := by
  obtain ⟨outcome, r, r', hprocess, hprocess'⟩ := process_alike g queue h
  rw [complete, complete, hprocess, hprocess']

end Gateway

/-! ## The split boot loader -/

namespace Boot
namespace Split

namespace Peripheral

/-- What successive calls of `fd_boot_split_peripheral_io` dispatch. Each has a message of its own. -/
def arrivals (configuration : Configuration) (buffer : Memory) : List UInt8 → List Arrival :=
  receive (fun message => (arrival configuration message, Binary.initializeWith buffer messageLimit))
    (Binary.initializeWith buffer messageLimit)

/-! ### The program that receives -/

/-- The bytes that `poll` takes. -/
def bytes : List Event → List UInt8 :=
  List.filterMap fun event => match event with
    | .byte byte => some byte
    | _ => none

namespace State

variable {p : Setup} {s s' : State}

/-- The steps of the program for the events, with what arrives. -/
def run (p : Setup) (s : State) : List Event → Option (List Arrival × State)
  | [] => some ([], s)
  | event :: events => do
    let s' ← s.step p event
    let (arrivals, s'') ← s'.run p events
    return ((s.arrives p event).toList ++ arrivals, s'')

/-- The message that the next byte is put in. -/
def pending (p : Setup) (s : State) : Binary :=
  if s.waits then s.message else Binary.initializeWith p.buffer messageLimit

theorem pending_io (s : State) : (s.io p).pending p = Binary.initializeWith p.buffer messageLimit := by
  rw [pending]
  split
  · rfl
  · rfl

/-- Behind the return of `io` the next one begins with an empty message. -/
theorem pending_ioReturn (h : Stacked s.next s.stack) (error : Option UInt32) :
    (s.ioReturn p error).pending p = Binary.initializeWith p.buffer messageLimit := by
  have hidle {t : State} (ht : t.waits = false) : t.pending p = Binary.initializeWith p.buffer messageLimit := by
    rw [pending, ht]
    rfl
  cases hstack : s.stack with
  | nil =>
    rw [ioReturn, hstack]
    exact hidle (by rw [waits, hstack])
  | cons frame stack =>
    rw [hstack] at h
    cases frame with
    | run =>
      obtain rfl : stack = [] := h
      rw [ioReturn, hstack]
      dsimp only
      split
      · exact hidle rfl
      · exact pending_io s
    | call id received =>
      rw [ioReturn_call hstack]
      refine hidle ?_
      rcases h.2.1 with rfl | ⟨below, rfl⟩
      · rfl
      · rfl
    | request called =>
      rw [ioReturn, hstack]
      exact hidle (by rw [waits, hstack])

theorem pending_dispatch (h : s.Inv) (a : Arrival) :
    (s.dispatch p a).pending p = Binary.initializeWith p.buffer messageLimit := by
  have hstacked := (h.receive a).stacked
  unfold dispatch
  generalize ({ s with stack := s.stack.map (Frame.receive a) } : State) = t at hstacked ⊢
  cases a with
  | refused => exact pending_ioReturn hstacked _
  | request => rfl
  | getUpdateStorage message => exact pending_ioReturn (by simpa using hstacked) none
  | updateRead message => exact pending_ioReturn (by simpa using hstacked) none

theorem pending_of_not_waits (h : s.waits = false) :
    s.pending p = Binary.initializeWith p.buffer messageLimit := by
  rw [pending, h]
  rfl

/-- A step without a byte is one of a program that does not wait, and no byte has come in the message that
is put together next. -/
theorem pending_step (h : s.Inv) {event : Event} (hstep : s.step p event = some s')
    (hbyte : ∀ byte, event ≠ .byte byte) (hevent : event ≠ .timeout) :
    s.pending p = Binary.initializeWith p.buffer messageLimit ∧
      s'.pending p = Binary.initializeWith p.buffer messageLimit := by
  have hcall (record : Record) : (s.call p record).pending p = Binary.initializeWith p.buffer messageLimit := by
    rw [call_eq]
    rfl
  cases event with
  | byte byte => exact absurd rfl (hbyte byte)
  | timeout => exact absurd rfl hevent
  | run =>
    simp only [step] at hstep
    split at hstep
    · rename_i hstack
      cases hstep
      exact ⟨pending_of_not_waits (by rw [waits, hstack]), pending_io _⟩
    · cases hstep
  | getUpdateStorage =>
    simp only [step] at hstep
    split at hstep
    · cases hstep
    · rename_i hwaits
      rw [← Option.some.inj hstep]
      exact ⟨pending_of_not_waits (by simpa using hwaits), hcall (.getUpdateStorage none)⟩
  | updateRead location length =>
    simp only [step] at hstep
    split at hstep
    · cases hstep
    · rename_i hwaits
      rw [← Option.some.inj hstep]
      exact ⟨pending_of_not_waits (by simpa using hwaits), hcall (.updateRead ⟨location, length, none, false⟩)⟩
  | respond result =>
    simp only [step] at hstep
    split at hstep
    · rename_i called stack hstack
      cases hstep
      have hstacked := h.stacked
      rw [hstack] at hstacked
      exact ⟨pending_of_not_waits (by rw [waits, hstack]), pending_ioReturn hstacked.2 _⟩
    · cases hstep

/-- A step of the program is a pass of the loop with its byte, if it has one. -/
theorem receive_step (h : s.Inv) {event : Event} (hstep : s.step p event = some s') (hevent : event ≠ .timeout)
    (data : List UInt8) :
    receive (fun message => (arrival p.configuration message, Binary.initializeWith p.buffer messageLimit))
        (s.pending p) (bytes [event] ++ data) =
      (s.arrives p event).toList ++
        receive (fun message => (arrival p.configuration message, Binary.initializeWith p.buffer messageLimit))
          (s'.pending p) data := by
  by_cases hbyte : ∃ byte, event = .byte byte
  · obtain ⟨byte, rfl⟩ := hbyte
    have hwaits : s.waits = true := by
      by_contra hnot
      simp only [step, if_neg hnot] at hstep
      cases hstep
    have hpending : s.pending p = s.message := by
      rw [pending, if_pos hwaits]
    have hbytes : bytes [.byte byte] ++ data = byte :: data := rfl
    rw [hpending, hbytes, receive]
    simp only [step, if_pos hwaits] at hstep
    by_cases hzero : byte = 0
    · rw [if_pos hzero] at hstep ⊢
      by_cases hkept : s.message.putIndex ≠ 0
      · rw [if_pos hkept] at hstep ⊢
        cases hstep
        have harrives : s.arrives p (.byte byte) = some (arrival p.configuration s.message) :=
          if_pos ⟨hwaits, hzero, hkept⟩
        rw [harrives, pending_dispatch h]
        rfl
      · rw [if_neg hkept] at hstep ⊢
        cases hstep
        have harrives : s.arrives p (.byte byte) = none := if_neg fun hends => hkept hends.2.2
        rw [harrives, hpending]
        rfl
    · rw [if_neg hzero] at hstep ⊢
      cases hstep
      have harrives : s.arrives p (.byte byte) = none := if_neg fun hends => hzero hends.2.1
      have hput : State.pending p { s with message := s.message.putUint8 byte } = s.message.putUint8 byte := by
        rw [pending, if_pos (show State.waits { s with message := s.message.putUint8 byte } = true from hwaits)]
      rw [harrives, hput]
      rfl
  · have hno (byte : UInt8) (heq : event = .byte byte) : False := hbyte ⟨byte, heq⟩
    obtain ⟨hbefore, hbehind⟩ := pending_step h hstep hno hevent
    have hbytes : bytes [event] = [] := by
      cases event with
      | byte byte => exact (hno byte rfl).elim
      | run | getUpdateStorage | updateRead _ _ | timeout | respond _ => rfl
    have harrives : s.arrives p event = none := by
      cases event with
      | byte byte => exact (hno byte rfl).elim
      | run | getUpdateStorage | updateRead _ _ | timeout | respond _ => rfl
    rw [hbefore, hbehind, hbytes, harrives]
    rfl

/-- What arrives in a run without time-outs is what the loop makes of its bytes. -/
theorem run_receive (h : s.Inv) {events : List Event} (hevents : .timeout ∉ events) {as : List Arrival}
    (hrun : s.run p events = some (as, s')) :
    as = receive (fun message => (arrival p.configuration message, Binary.initializeWith p.buffer messageLimit))
      (s.pending p) (bytes events) := by
  induction events generalizing s as with
  | nil =>
    cases hrun
    rfl
  | cons event events ih =>
    rw [List.mem_cons, not_or] at hevents
    simp only [run, Option.bind_eq_bind, Option.bind_eq_some_iff] at hrun
    obtain ⟨s₁, hstep, ⟨bs, s₂⟩, hrest, heq⟩ := hrun
    cases heq
    have hbytes : bytes (event :: events) = bytes [event] ++ bytes events :=
      List.filterMap_append (l := [event]) ..
    rw [hbytes, receive_step h hstep (Ne.symm hevents.1), ih (h.step hstep) hevents.2 hrest]

/-- From the start of the program the messages are those of `arrivals`. -/
theorem run_arrivals {activations : Nat → Activation} {message : Binary} {events : List Event}
    (hevents : .timeout ∉ events) {as : List Arrival}
    (hrun : (⟨none, activations, 0, [], message, []⟩ : State).run p events = some (as, s')) :
    as = Peripheral.arrivals p.configuration p.buffer (bytes events) := by
  have hinv : Inv ⟨none, activations, 0, [], message, []⟩ :=
    ⟨trivial, .idle, fun _ hid => absurd hid List.not_mem_nil⟩
  exact run_receive hinv hevents hrun

end State

end Peripheral

namespace Controller

def operationStatusProgress : UInt16 := 7

/-- What a message is to the controller. Nothing is done with one that is `ignored`. A progress has the
bits of its number. -/
inductive Arrival where
  | refused
  | getUpdateStorage
  | updateRead (location : UInt32) (length : UInt16)
  | statusProgress (amount : UInt32)
  | ignored
  | response (message : Binary)

/-- `fd_boot_split_controller_request`, as far as the arguments of the handlers. -/
def request (message : Binary) : Arrival :=
  let operation := message.getUint16
  if operation.1 = operationGetUpdateStorage then .getUpdateStorage
  else if operation.1 = operationUpdateRead then
    let location := operation.2.getUint32
    .updateRead location.1 location.2.getUint16.1
  else .ignored

/-- `fd_boot_split_controller_event`, likewise. -/
def event (message : Binary) : Arrival :=
  let operation := message.getUint16
  if operation.1 = operationStatusProgress then .statusProgress operation.2.getUint32.1 else .ignored

/-- `fd_boot_split_controller_dispatch`. -/
def dispatch (message : Binary) (envelope : Envelope) : Arrival :=
  let response := Binary.initializeWith message.buffer (UInt32.ofNat message.putIndex)
  if envelope.type = Envelope.typeRequest then request response
  else if envelope.type = Envelope.typeEvent then event response
  else if envelope.type = Envelope.typeResponse then .response message.reset
  else .ignored

/-- `fd_boot_split_controller_io` with the message that `poll` has put together. -/
def io (message : Binary) : Arrival × Binary :=
  match Envelope.decode message with
  | (message, none) => (.refused, message)
  | (message, some envelope) => (dispatch message envelope, message.reset)

/-- With an error, and with a response, `fd_boot_split_controller_rpc` is over, and the next one has a new
message. -/
def rpcMessage : Arrival × Binary → Binary
  | (.refused, message) => Binary.initializeWith message.buffer 64
  | (.response _, message) => Binary.initializeWith message.buffer 64
  | (_, message) => message

/-- What successive calls of `fd_boot_split_controller_rpc` dispatch. -/
def arrivals (buffer : Memory) : List UInt8 → List Arrival :=
  receive (fun message => ((io message).1, rpcMessage (io message))) (Binary.initializeWith buffer 64)

theorem clean_rpcMessage (hm : m.size = 64) : Clean 64 (rpcMessage (io m)) := by
  have hdecoded := Envelope.decode_size m
  rw [io]
  generalize Envelope.decode m = decoded at hdecoded ⊢
  obtain ⟨m', found⟩ := decoded
  cases found with
  | none => exact clean_initializeWith m'.buffer 64
  | some envelope =>
    dsimp only at hdecoded ⊢
    unfold rpcMessage
    split
    · exact clean_initializeWith _ 64
    · exact clean_initializeWith _ 64
    · rename_i heq
      cases heq
      exact clean_reset (hdecoded.trans hm)

end Controller

/-- Each receiver does with a stream what it would do without the frames that are too long if and only if
there is none. In a gateway whose buffer has no byte nothing is kept of any frame, and with the largest
size a message is empty again after `2 ^ 32` bytes. -/
theorem dropped_iff (g : Gateway α) (queue buffer : Memory) (size : UInt32)
    (configuration : Peripheral.Configuration) (data : List UInt8) :
    ((g.messageRx queue (Binary.initializeWith buffer size) data).map Prod.fst =
        (g.messageRx queue (Binary.initializeWith buffer size) (dropOverlong size.toNat [] data)).map Prod.fst ↔
      ∀ f ∈ frames [] data, f.length ≤ size.toNat ∨ kept size.toNat f.length = 0) ∧
    (Peripheral.arrivals configuration buffer data =
        Peripheral.arrivals configuration buffer (dropOverlong 300 [] data) ↔
      ∀ f ∈ frames [] data, f.length ≤ 300) ∧
    (Controller.arrivals buffer data = Controller.arrivals buffer (dropOverlong 64 [] data) ↔
      ∀ f ∈ frames [] data, f.length ≤ 64) := by
  have hfits {size : Nat} (hpos : 0 < size) (hlt : size + 1 < 2 ^ 32) :
      (∀ f ∈ frames [] data, f.length ≤ size ∨ kept size f.length = 0) ↔
        ∀ f ∈ frames [] data, f.length ≤ size := by
    refine forall₂_congr fun f _ => ?_
    rw [kept, if_neg (Nat.ne_of_lt hlt)]
    omega
  refine ⟨?_, ?_, ?_⟩
  · rw [Gateway.messageRx_eq, Gateway.messageRx_eq, Option.some.injEq]
    exact receive_dropOverlong_iff (fun _ _ _ h => Gateway.complete_alike g queue h)
      (fun _ hm => Gateway.clean_complete hm) (clean_initializeWith buffer size) data
  · rw [← hfits (by decide) (by decide)]
    exact receive_dropOverlong_iff (fun h => absurd h (by decide))
      (fun _ _ => clean_initializeWith buffer Peripheral.messageLimit)
      (clean_initializeWith buffer Peripheral.messageLimit) data
  · rw [← hfits (by decide) (by decide)]
    exact receive_dropOverlong_iff (fun h => absurd h (by decide))
      (fun _ hm => Controller.clean_rpcMessage hm) (clean_initializeWith buffer 64) data

/-- A frame that fills the buffer of gateway `3`, and a byte behind it: the frame is dispatched. The
peripheral and the controller decode what they kept of a frame that is one byte too long. -/
theorem overlong_dispatched :
    let e : Envelope := ⟨0, 0, 3, 1, 0, 0, Envelope.typeRequest, 0⟩
    let g : Gateway String := ⟨3, []⟩
    let overlong := Gateway.frame [] e ++ [1, 0]
    let ones (n : Nat) : List UInt8 := List.replicate n 1 ++ [0]
    ((g.messageRx (fun _ => 0) (Binary.initializeWith (fun _ => 0) 11) overlong).map Prod.fst =
        some [.dispatched [] (Envelope.stamp [] e)] ∧
      (g.messageRx (fun _ => 0) (Binary.initializeWith (fun _ => 0) 11) (dropOverlong 11 [] overlong)).map
        Prod.fst = some []) ∧
      Peripheral.arrivals ⟨0, 0, 0, 0, true⟩ (fun _ => 0) (ones 301) ≠
        Peripheral.arrivals ⟨0, 0, 0, 0, true⟩ (fun _ => 0) (dropOverlong 300 [] (ones 301)) ∧
      Controller.arrivals (fun _ => 0) (ones 65) ≠
        Controller.arrivals (fun _ => 0) (dropOverlong 64 [] (ones 65)) := by
  refine ⟨by decide +kernel, ?_, ?_⟩
  · have hdropped : dropOverlong 300 [] (List.replicate 301 1 ++ [0]) = [] := by decide +kernel
    have hlength : (Peripheral.arrivals ⟨0, 0, 0, 0, true⟩ (fun _ => 0)
        (List.replicate 301 1 ++ [0])).length = 1 := by
      rw [Peripheral.arrivals, length_receive (fun _ _ => clean_initializeWith _ Peripheral.messageLimit)
        (begun_initializeWith _ Peripheral.messageLimit)]
      decide +kernel
    intro heq
    dsimp only at heq
    rw [hdropped] at heq
    rw [heq] at hlength
    cases hlength
  · have hdropped : dropOverlong 64 [] (List.replicate 65 1 ++ [0]) = [] := by decide +kernel
    have hlength : (Controller.arrivals (fun _ => 0) (List.replicate 65 1 ++ [0])).length = 1 := by
      rw [Controller.arrivals, length_receive (fun _ hm => Controller.clean_rpcMessage hm)
        (begun_initializeWith _ 64)]
      decide +kernel
    intro heq
    dsimp only at heq
    rw [hdropped] at heq
    rw [heq] at hlength
    cases hlength

end Split
end Boot
end Firefly
