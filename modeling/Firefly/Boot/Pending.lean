import Firefly.Boot.Calls
import Firefly.Boot.SplitAgreement

/-!
# Firefly.Boot.Pending

What the pointer to the pending operation refers to, in every order of messages, timeouts and nested
requests (`Boot/Calls.lean`). A call that waits has its own record pending, and no record of a call below
it is (`Inv`). `returning_of_step` says in which ways a step can end a call.
-/

namespace Firefly
namespace Boot
namespace Split
namespace Peripheral

open Bytes

variable {p : Setup}

/-! ## Requests -/

/-- The fields of a request. -/
def requestFields : Record → List (List UInt8)
  | .getUpdateStorage _ => [leBytes 2 operationGetUpdateStorage.toNat]
  | .updateRead operation => [leBytes 2 operationUpdateRead.toNat, leBytes 4 operation.location.toNat,
      leBytes 2 operation.length.toUInt16.toNat]

theorem written_request (buffer : Memory) (record : Record) :
    (request buffer record).Written 32 (requestFields record).flatten ∧
      (requestFields record).flatten.length ≤ 8 := by
  have hlength : (requestFields record).flatten.length ≤ 8 := by
    cases record <;> simp [requestFields]
  have heq : request buffer record = (Binary.initializeWith buffer 32).putAll (requestFields record) := by
    cases record <;> simp only [request, requestFields, Binary.putUint16, Binary.putUint32, Binary.putAll,
      List.foldl_cons, List.foldl_nil]
  have hput := (Binary.written_initializeWith buffer 32).putAll (show ([] : List UInt8).length +
    (requestFields record).flatten.length ≤ 32 by rw [List.length_nil]; omega)
  exact ⟨heq ▸ hput, hlength⟩

/-- Requests are short enough to be transmitted always. -/
theorem tx_request (p : Setup) (record : Record) :
    ∃ bytes, tx p.configuration p.queue (request p.buffer record) Envelope.typeRequest =
      some (some bytes) := by
  obtain ⟨hwritten, hle⟩ := written_request p.buffer record
  refine ⟨_, dispatchRespond_of_fits hwritten p.queue (by decide) ?_⟩
  rw [length_frame _ _ (by omega)]
  omega

namespace State

theorem call_eq (s : State) (record : Record) : s.call p record =
    { s with
      operation := some s.next
      activations := Function.update s.activations s.next ⟨record, none⟩
      next := s.next + 1
      stack := .call s.next [] :: markCalled s.stack
      message := Binary.initializeWith p.buffer messageLimit } := by
  obtain ⟨bytes, htx⟩ := tx_request p record
  unfold call
  rw [htx]
  rfl

/-! ## The stack -/

/-- Calls have the numbers below `next`, and later ones come above earlier ones; a call on top of a
handler is one that it has made. -/
def Stacked (next : Nat) : List Frame → Prop
  | [] => True
  | .run :: stack => stack = []
  | .call id _ :: stack =>
    id < next ∧ (stack = [] ∨ ∃ below, stack = .request true :: below) ∧ Stacked id stack
  | .request _ :: stack =>
    (stack = [.run] ∨ ∃ id received below, stack = .call id received :: below) ∧ Stacked next stack

/-- What can be pending. A call that waits has its own record pending, and so it is while a handler has
not made a call; after that, no record of a call below is pending any more. -/
inductive Pends : Option Nat → List Frame → Prop where
  | idle {operation : Option Nat} : Pends operation []
  | run {operation : Option Nat} : Pends operation [.run]
  | handler {operation : Option Nat} {called : Bool} : Pends operation [.request called, .run]
  | waiting {id : Nat} {received : List Arrival} {stack : List Frame} :
      Pends (some id) (.call id received :: stack)
  | uncalled {id : Nat} {received : List Arrival} {stack : List Frame} :
      Pends (some id) (.request false :: .call id received :: stack)
  | called {operation : Option Nat} {id : Nat} {received : List Arrival} {stack : List Frame}
      (h : ∀ i, operation = some i → id < i) : Pends operation (.request true :: .call id received :: stack)

/-- The calls that have not returned. -/
def live : List Frame → List Nat
  | [] => []
  | .call id _ :: stack => id :: live stack
  | _ :: stack => live stack

/-- Nothing has come for the operation. -/
def Unanswered : Record → Prop
  | .getUpdateStorage storage => storage = none
  | .updateRead operation => operation.data = none ∧ operation.result = false

structure Inv (s : State) : Prop where
  stacked : Stacked s.next s.stack
  pends : Pends s.operation s.stack
  unanswered : ∀ id ∈ live s.stack, Unanswered (s.activations id).record

variable {s s' : State} {next id : Nat} {stack : List Frame} {received : List Arrival}
  {operation : Option Nat}

theorem Stacked.mono {next' : Nat} (h : Stacked next stack) (hle : next ≤ next') : Stacked next' stack := by
  induction stack with
  | nil => trivial
  | cons frame stack ih =>
    cases frame with
    | run => exact h
    | call id received => exact ⟨Nat.lt_of_lt_of_le h.1 hle, h.2⟩
    | request called => exact ⟨h.1, ih h.2⟩

theorem Stacked.live_lt (h : Stacked next stack) : ∀ id ∈ live stack, id < next := by
  induction stack generalizing next with
  | nil => simp [live]
  | cons frame stack ih =>
    cases frame with
    | run => exact ih (by rw [show stack = [] from h]; trivial)
    | call id received =>
      intro i hi
      cases List.mem_cons.mp hi with
      | inl heq => exact heq ▸ h.1
      | inr hmem => exact Nat.lt_trans (ih h.2.2 i hmem) h.1
    | request called => exact ih h.2

theorem Stacked.receive (h : Stacked next stack) (a : Arrival) :
    Stacked next (stack.map (Frame.receive a)) := by
  induction stack generalizing next with
  | nil => trivial
  | cons frame stack ih =>
    cases frame with
    | run =>
      obtain rfl : stack = [] := h
      rfl
    | call id received =>
      obtain ⟨hlt, habove, hbelow⟩ := h
      refine ⟨hlt, ?_, ih hbelow⟩
      rcases habove with rfl | ⟨below, rfl⟩
      · exact Or.inl rfl
      · exact Or.inr ⟨_, rfl⟩
    | request called =>
      obtain ⟨habove, hbelow⟩ := h
      refine ⟨?_, ih hbelow⟩
      rcases habove with rfl | ⟨id, received, below, rfl⟩
      · exact Or.inl rfl
      · exact Or.inr ⟨id, _, _, rfl⟩

@[simp] theorem live_receive (a : Arrival) (stack : List Frame) :
    live (stack.map (Frame.receive a)) = live stack := by
  induction stack with
  | nil => rfl
  | cons frame stack ih => cases frame <;> simp [live, Frame.receive, ih]

theorem Pends.receive (h : Pends operation stack) (a : Arrival) :
    Pends operation (stack.map (Frame.receive a)) := by
  cases h with
  | idle => exact .idle
  | run => exact .run
  | handler => exact .handler
  | waiting => exact .waiting
  | uncalled => exact .uncalled
  | called h => exact .called h

/-! ## Steps -/

@[simp] theorem stack_getUpdateStorageResponse (s : State) (m : Binary) :
    (s.getUpdateStorageResponse p m).stack = s.stack := by
  unfold getUpdateStorageResponse
  split <;> rfl

@[simp] theorem next_getUpdateStorageResponse (s : State) (m : Binary) :
    (s.getUpdateStorageResponse p m).next = s.next := by
  unfold getUpdateStorageResponse
  split <;> rfl

@[simp] theorem returned_getUpdateStorageResponse (s : State) (m : Binary) :
    (s.getUpdateStorageResponse p m).returned = s.returned := by
  unfold getUpdateStorageResponse
  split <;> rfl

@[simp] theorem operation_getUpdateStorageResponse (s : State) (m : Binary) :
    (s.getUpdateStorageResponse p m).operation = none := by
  unfold getUpdateStorageResponse
  split <;> simp [*]

@[simp] theorem stack_updateReadResponse (s : State) (m : Binary) :
    (s.updateReadResponse p m).stack = s.stack := by
  unfold updateReadResponse
  split <;> rfl

@[simp] theorem next_updateReadResponse (s : State) (m : Binary) :
    (s.updateReadResponse p m).next = s.next := by
  unfold updateReadResponse
  split <;> rfl

@[simp] theorem returned_updateReadResponse (s : State) (m : Binary) :
    (s.updateReadResponse p m).returned = s.returned := by
  unfold updateReadResponse
  split <;> rfl

theorem operation_updateReadResponse (s : State) (m : Binary) :
    (s.updateReadResponse p m).operation = none ∨ (s.updateReadResponse p m).operation = s.operation := by
  unfold updateReadResponse
  split
  · exact Or.inr rfl
  · rename_i id hid
    rw [hid]
    exact ite_eq_or_eq _ _ _

/-- The responses write to the pending record only. -/
theorem activations_getUpdateStorageResponse (s : State) (m : Binary) {i : Nat} (h : s.operation ≠ some i) :
    (s.getUpdateStorageResponse p m).activations i = s.activations i := by
  unfold getUpdateStorageResponse
  split
  · rfl
  · rename_i id hid
    exact Function.update_of_ne (fun heq => h (by rw [heq]; exact hid)) _ _

theorem activations_updateReadResponse (s : State) (m : Binary) {i : Nat} (h : s.operation ≠ some i) :
    (s.updateReadResponse p m).activations i = s.activations i := by
  unfold updateReadResponse
  split
  · rfl
  · rename_i id hid
    exact Function.update_of_ne (fun heq => h (by rw [heq]; exact hid)) _ _

theorem ioReturn_call (h : s.stack = .call id received :: stack) (error : Option UInt32) :
    s.ioReturn p error =
      { s with
        stack := stack
        returned := ⟨id, (s.activations id).record, s.value id error, error <|> (s.activations id).error,
          s.operation, received⟩ :: s.returned } := by
  unfold ioReturn
  rw [h]

theorem ioReturn_run (h : s.stack = [.run]) (error : Option UInt32) :
    ∃ stack message, (stack = [] ∨ stack = [.run]) ∧
      s.ioReturn p error = { s with stack := stack, message := message } := by
  unfold ioReturn
  rw [h]
  simp only
  split
  · exact ⟨[], s.message, Or.inl rfl, rfl⟩
  · exact ⟨[.run], _, Or.inr rfl, by rw [← h]; rfl⟩

/-- The program waits in `fd_boot_split_peripheral_run` or in a call. -/
theorem Inv.waits (h : s.Inv) (hwaits : s.waits = true) :
    s.stack = [.run] ∨ ∃ id received stack, s.stack = .call id received :: stack ∧ s.operation = some id := by
  obtain ⟨hstacked, hpends, -⟩ := h
  unfold State.waits at hwaits
  cases hstack : s.stack with
  | nil => simp [hstack] at hwaits
  | cons frame stack =>
    rw [hstack] at hstacked hpends hwaits
    cases frame with
    | run =>
      obtain rfl : stack = [] := hstacked
      exact Or.inl rfl
    | call id received =>
      refine Or.inr ⟨id, received, stack, rfl, ?_⟩
      generalize s.operation = operation at hpends ⊢
      cases hpends
      rfl
    | request called => cases hwaits

/-- The call on top of the stack returns, with nothing pending or nothing but later records. -/
theorem inv_ioReturn (hstacked : Stacked s.next s.stack) (hwaits : s.waits = true)
    (hpending : ∀ id received stack, s.stack = .call id received :: stack →
      ∀ i, s.operation = some i → id ≤ i)
    (hunanswered : ∀ id ∈ live s.stack.tail, Unanswered (s.activations id).record) (error : Option UInt32) :
    (s.ioReturn p error).Inv := by
  cases hstack : s.stack with
  | nil => simp [State.waits, hstack] at hwaits
  | cons frame stack =>
    rw [hstack] at hstacked hunanswered
    cases frame with
    | request called => simp [State.waits, hstack] at hwaits
    | run =>
      obtain rfl : stack = [] := hstacked
      obtain ⟨stack', message, hstack', heq⟩ := ioReturn_run (p := p) hstack error
      rw [heq]
      rcases hstack' with rfl | rfl
      · exact ⟨trivial, .idle, by simp [live]⟩
      · exact ⟨rfl, .run, by simp [live]⟩
    | call id received =>
      obtain ⟨hlt, habove, hbelow⟩ := hstacked
      rw [ioReturn_call hstack]
      refine ⟨hbelow.mono (Nat.le_of_lt hlt), ?_, hunanswered⟩
      rcases habove with rfl | ⟨below, rfl⟩
      · exact .idle
      · obtain ⟨hcaller, hcalls⟩ := hbelow
        rcases hcaller with rfl | ⟨id', received', below', rfl⟩
        · exact .handler
        · refine .called fun i hi => ?_
          exact Nat.lt_of_lt_of_le hcalls.1 (hpending id received _ hstack i hi)

theorem waits_congr (h : s'.stack = s.stack) : s'.waits = s.waits := by
  unfold State.waits
  rw [h]

theorem Inv.receive (h : s.Inv) (a : Arrival) :
    State.Inv { s with stack := s.stack.map (Frame.receive a) } :=
  ⟨h.stacked.receive a, h.pends.receive a, by simpa using h.unanswered⟩

theorem waits_receive (hwaits : s.waits = true) (a : Arrival) :
    State.waits { s with stack := s.stack.map (Frame.receive a) } = true := by
  unfold State.waits at hwaits ⊢
  cases hstack : s.stack with
  | nil => simp [hstack] at hwaits
  | cons frame stack => cases frame <;> simp_all [Frame.receive]

/-- No record below the call that waits is pending. -/
theorem Inv.below (h : s.Inv) (hwaits : s.waits = true) :
    ∀ i ∈ live s.stack.tail, s.operation ≠ some i ∧ Unanswered (s.activations i).record := by
  intro i hi
  rcases h.waits hwaits with hstack | ⟨id, received, stack, hstack, hoperation⟩
  · simp [hstack, live] at hi
  · have hstacked := h.stacked
    have hunanswered := h.unanswered
    rw [hstack] at hi hstacked hunanswered
    have hlt := hstacked.2.2.live_lt i hi
    refine ⟨?_, hunanswered i (List.mem_cons_of_mem id hi)⟩
    rw [hoperation]
    intro heq
    exact Nat.lt_irrefl i (Option.some.inj heq ▸ hlt)

/-- What is pending while a call waits is its own record. -/
theorem Inv.le_of_waits (h : s.Inv) (hwaits : s.waits = true) :
    ∀ id received stack, s.stack = .call id received :: stack → ∀ i, s.operation = some i → id ≤ i := by
  intro id received stack hstack i hi
  rcases h.waits hwaits with hrun | ⟨id', received', stack', hstack', hoperation⟩
  · simp [hrun] at hstack
  · obtain ⟨⟨rfl, -⟩, -⟩ := List.cons.inj (hstack'.symm.trans hstack) |>.imp_left Frame.call.inj
    rw [hoperation] at hi
    exact Nat.le_of_eq (Option.some.inj hi)

theorem inv_call (h : s.Inv) (hwaits : s.waits = false) {record : Record} (hrecord : Unanswered record) :
    (s.call p record).Inv := by
  rw [call_eq]
  obtain ⟨hstacked, -, hunanswered⟩ := h
  have hmark : (markCalled s.stack = [] ∨ ∃ below, markCalled s.stack = .request true :: below) ∧
      Stacked s.next (markCalled s.stack) ∧ live (markCalled s.stack) = live s.stack := by
    unfold State.waits at hwaits
    cases hstack : s.stack with
    | nil => exact ⟨Or.inl rfl, trivial, rfl⟩
    | cons frame stack =>
      rw [hstack] at hstacked hwaits
      cases frame with
      | run => cases hwaits
      | call id received => cases hwaits
      | request called => exact ⟨Or.inr ⟨stack, rfl⟩, hstacked, rfl⟩
  obtain ⟨habove, hbelow, hlive⟩ := hmark
  refine ⟨⟨Nat.lt_succ_self _, habove, hbelow⟩, .waiting, ?_⟩
  intro i hi
  simp only [live, hlive] at hi
  cases List.mem_cons.mp hi with
  | inl heq =>
    subst heq
    simpa using hrecord
  | inr hmem =>
    have hlt := hstacked.live_lt i hmem
    simp only
    rw [Function.update_of_ne (by omega)]
    exact hunanswered i hmem

theorem inv_dispatch (h : s.Inv) (hwaits : s.waits = true) (a : Arrival) : (s.dispatch p a).Inv := by
  have hreceive := h.receive a
  have hwaits' := waits_receive hwaits a
  generalize hs₁ : ({ s with stack := s.stack.map (Frame.receive a) } : State) = s₁ at hreceive hwaits'
  have hbelow := hreceive.below hwaits'
  unfold dispatch
  rw [hs₁]
  cases a with
  | refused =>
    exact inv_ioReturn hreceive.stacked hwaits' (hreceive.le_of_waits hwaits') (fun i hi => (hbelow i hi).2) _
  | request =>
    rcases hreceive.waits hwaits' with hstack | ⟨id, received, stack, hstack, hoperation⟩
    · have hunanswered := hreceive.unanswered
      have hstacked := hreceive.stacked
      refine ⟨⟨Or.inl hstack, hstacked⟩, ?_, hunanswered⟩
      simp only [hstack]
      exact .handler
    · have hunanswered := hreceive.unanswered
      have hstacked := hreceive.stacked
      refine ⟨⟨Or.inr ⟨id, received, stack, hstack⟩, hstacked⟩, ?_, hunanswered⟩
      simp only [hstack, hoperation]
      exact .uncalled
  | getUpdateStorage m =>
    apply inv_ioReturn
    · simpa using hreceive.stacked
    · rwa [waits_congr (stack_getUpdateStorageResponse s₁ m)]
    · simp
    · intro i hi
      rw [stack_getUpdateStorageResponse] at hi
      rw [activations_getUpdateStorageResponse s₁ m (hbelow i hi).1]
      exact (hbelow i hi).2
  | updateRead m =>
    apply inv_ioReturn
    · simpa using hreceive.stacked
    · rwa [waits_congr (stack_updateReadResponse s₁ m)]
    · intro id received stack hstack i hi
      rw [stack_updateReadResponse] at hstack
      rcases operation_updateReadResponse (p := p) s₁ m with hnone | hsame
      · rw [hnone] at hi
        cases hi
      · rw [hsame] at hi
        exact hreceive.le_of_waits hwaits' id received stack hstack i hi
    · intro i hi
      rw [stack_updateReadResponse] at hi
      rw [activations_updateReadResponse s₁ m (hbelow i hi).1]
      exact (hbelow i hi).2

theorem Inv.step (h : s.Inv) {event : Event} (hstep : s.step p event = some s') : s'.Inv := by
  unfold State.step at hstep
  cases event with
  | run =>
    by_cases hstack : s.stack = []
    · simp only [hstack, if_true, Option.some.injEq] at hstep
      subst hstep
      exact ⟨rfl, .run, by simp [io, live]⟩
    · simp [hstack] at hstep
  | getUpdateStorage =>
    cases hwaits : s.waits with
    | true => simp [hwaits] at hstep
    | false =>
      simp only [hwaits, Bool.false_eq_true, if_false, Option.some.injEq] at hstep
      subst hstep
      exact inv_call h hwaits rfl
  | updateRead location length =>
    cases hwaits : s.waits with
    | true => simp [hwaits] at hstep
    | false =>
      simp only [hwaits, Bool.false_eq_true, if_false, Option.some.injEq] at hstep
      subst hstep
      exact inv_call h hwaits ⟨rfl, rfl⟩
  | byte byte =>
    cases hwaits : s.waits with
    | false => simp [hwaits] at hstep
    | true =>
      simp only [hwaits, if_true] at hstep
      split at hstep
      · split at hstep
        · obtain rfl := Option.some.inj hstep
          exact inv_dispatch h hwaits _
        · obtain rfl := Option.some.inj hstep
          exact h
      · obtain rfl := Option.some.inj hstep
        exact ⟨h.stacked, h.pends, h.unanswered⟩
  | timeout =>
    cases hwaits : s.waits with
    | false => simp [hwaits] at hstep
    | true =>
      simp only [hwaits, if_true, Option.some.injEq] at hstep
      subst hstep
      exact inv_ioReturn h.stacked hwaits (h.le_of_waits hwaits) (fun i hi => (h.below hwaits i hi).2) _
  | respond result =>
    obtain ⟨hstacked, hpends, hunanswered⟩ := h
    cases hstack : s.stack with
    | nil => simp [hstack] at hstep
    | cons frame stack =>
      rw [hstack] at hstacked hpends hunanswered
      cases frame with
      | run => simp [hstack] at hstep
      | call id received => simp [hstack] at hstep
      | request called =>
        simp only [hstack, Option.some.injEq] at hstep
        subst hstep
        obtain ⟨hcaller, hbelow⟩ := hstacked
        apply inv_ioReturn
        · exact hbelow
        · rcases hcaller with rfl | ⟨id, received, below, rfl⟩ <;> rfl
        · rintro id received below rfl i hi
          simp only at hi
          rw [hi] at hpends
          cases hpends with
          | uncalled => exact Nat.le_refl _
          | called hlt => exact Nat.le_of_lt (hlt i rfl)
        · intro i hi
          apply hunanswered i
          rcases hcaller with rfl | ⟨id, received, below, rfl⟩
          · cases hi
          · exact List.mem_cons_of_mem id hi

theorem inv_of_reached {condition : State → Event → Prop} (h : Reached p condition s) : s.Inv := by
  induction h with
  | initialized activations message => exact ⟨trivial, .idle, by simp [live]⟩
  | step _ _ hstep ih => exact ih.step hstep

/-! ## Returning -/

/-- The ways in which a step ends a call. -/
inductive Returning (p : Setup) (s : State) : Event → Returned → Prop where
  | timeout {id : Nat} {received : List Arrival} {stack : List Frame} {error : Option UInt32}
      (hstack : s.stack = .call id received :: stack) :
      Returning p s .timeout ⟨id, (s.activations id).record, false, error, some id, received⟩
  | refused {event : Event} {id : Nat} {received : List Arrival} {stack : List Frame} {error : Option UInt32}
      (hstack : s.stack = .call id received :: stack) (ha : s.arrives p event = some .refused) :
      Returning p s event
        ⟨id, (s.activations id).record, false, error, some id, received ++ [.refused]⟩
  | filled {event : Event} {id : Nat} {received : List Arrival} {stack : List Frame} {error : Option UInt32}
      {m : Binary} {storage : Option UpdateStorage} (hstack : s.stack = .call id received :: stack)
      (ha : s.arrives p event = some (.getUpdateStorage m))
      (hrecord : (s.activations id).record = .getUpdateStorage storage) :
      Returning p s event ⟨id, .getUpdateStorage (some (getUpdateStorage m)), true, error, none,
        received ++ [.getUpdateStorage m]⟩
  | answered {event : Event} {id : Nat} {received : List Arrival} {stack : List Frame} {error : Option UInt32}
      {m : Binary} {operation : UpdateRead} (hstack : s.stack = .call id received :: stack)
      (ha : s.arrives p event = some (.updateRead m))
      (hrecord : (s.activations id).record = .updateRead operation) :
      Returning p s event ⟨id, .updateRead (operation.respond m).1, (operation.respond m).2.2, error,
        if (operation.respond m).2.2 then none else some id, received ++ [.updateRead m]⟩
  | filledMistaken {event : Event} {id : Nat} {received : List Arrival} {stack : List Frame}
      {error : Option UInt32} {m : Binary} {operation : UpdateRead}
      (hstack : s.stack = .call id received :: stack) (ha : s.arrives p event = some (.getUpdateStorage m))
      (hrecord : (s.activations id).record = .updateRead operation) :
      Returning p s event ⟨id, .updateRead (p.mistaken.storage operation (getUpdateStorage m)),
        (p.mistaken.storage operation (getUpdateStorage m)).result, error, none,
        received ++ [.getUpdateStorage m]⟩
  | answeredMistaken {event : Event} {id : Nat} {received : List Arrival} {stack : List Frame}
      {error : Option UInt32} {m : Binary} {storage : Option UpdateStorage}
      (hstack : s.stack = .call id received :: stack) (ha : s.arrives p event = some (.updateRead m))
      (hrecord : (s.activations id).record = .getUpdateStorage storage) :
      Returning p s event ⟨id, .getUpdateStorage (p.mistaken.read storage m).1,
        (p.mistaken.read storage m).2, error, if (p.mistaken.read storage m).2 then none else some id,
        received ++ [.updateRead m]⟩
  | handled {called result : Bool} {id : Nat} {received : List Arrival} {stack : List Frame}
      {error : Option UInt32} (hstack : s.stack = .request called :: .call id received :: stack) :
      Returning p s (.respond result) ⟨id, (s.activations id).record,
        s.value id (if result then none else some errorGeneric), error, s.operation, received⟩

/-- The result that a response leaves is true if the operation is over. -/
theorem result_respond (operation : UpdateRead) (m : Binary) :
    (operation.respond m).1.result = (operation.respond m).2.2 := by
  unfold UpdateRead.respond
  simp only
  split_ifs <;> rfl

/-- The state in which a message is dispatched that ends the call on top of the stack. -/
structure Waiting (s : State) (id : Nat) (received : List Arrival) : Prop where
  stack : ∃ stack, s.stack = .call id received :: stack
  operation : s.operation = some id

theorem Waiting.receive (h : s.Waiting id received) (a : Arrival) :
    ∃ stack, s.stack.map (Frame.receive a) = .call id (received ++ [a]) :: stack := by
  obtain ⟨⟨stack, hstack⟩, -⟩ := h
  exact ⟨stack.map (Frame.receive a), by rw [hstack]; rfl⟩

theorem Waiting.refused (h : s.Waiting id received) : ∃ error,
    (s.dispatch p .refused).returned =
      ⟨id, (s.activations id).record, false, error, some id, received ++ [.refused]⟩ :: s.returned := by
  obtain ⟨stack, hstack⟩ := h.receive .refused
  have hreturn := ioReturn_call (p := p)
    (show State.stack { s with stack := s.stack.map (Frame.receive .refused) } = _ from hstack)
    (some errorGeneric)
  refine ⟨some errorGeneric <|> (s.activations id).error, ?_⟩
  unfold dispatch
  simp only [hreturn]
  simp [State.value, h.operation]

theorem Waiting.getUpdateStorage (h : s.Waiting id received) (m : Binary) : ∃ error value record,
    (s.dispatch p (.getUpdateStorage m)).returned =
      ⟨id, record, value, error, none, received ++ [.getUpdateStorage m]⟩ :: s.returned ∧
    match (s.activations id).record with
    | .getUpdateStorage _ => value = true ∧ record = .getUpdateStorage (some (Peripheral.getUpdateStorage m))
    | .updateRead operation =>
      value = (p.mistaken.storage operation (Peripheral.getUpdateStorage m)).result ∧
        record = .updateRead (p.mistaken.storage operation (Peripheral.getUpdateStorage m)) := by
  obtain ⟨stack, hstack⟩ := h.receive (.getUpdateStorage m)
  have hstack' := (stack_getUpdateStorageResponse (p := p)
    { s with stack := s.stack.map (Frame.receive (.getUpdateStorage m)) } m).trans hstack
  simp only [dispatch, ioReturn_call hstack', returned_getUpdateStorageResponse,
    operation_getUpdateStorageResponse]
  refine ⟨_, _, _, rfl, ?_⟩
  cases hrecord : (s.activations id).record with
  | getUpdateStorage storage => simp [State.value, getUpdateStorageResponse, h.operation, hrecord]
  | updateRead operation => simp [State.value, getUpdateStorageResponse, h.operation, hrecord]

theorem Waiting.updateRead (h : s.Waiting id received) (m : Binary) : ∃ error value record,
    (s.dispatch p (.updateRead m)).returned =
      ⟨id, record, value, error, if value then none else some id, received ++ [.updateRead m]⟩ :: s.returned ∧
    match (s.activations id).record with
    | .getUpdateStorage storage =>
      value = (p.mistaken.read storage m).2 ∧ record = .getUpdateStorage (p.mistaken.read storage m).1
    | .updateRead operation =>
      value = (operation.respond m).2.2 ∧ record = .updateRead (operation.respond m).1 := by
  obtain ⟨stack, hstack⟩ := h.receive (.updateRead m)
  have hstack' := (stack_updateReadResponse (p := p)
    { s with stack := s.stack.map (Frame.receive (.updateRead m)) } m).trans hstack
  simp only [dispatch, ioReturn_call hstack', returned_updateReadResponse]
  generalize (none <|> ((State.updateReadResponse p _ m).activations id).error) = error
  cases hrecord : (s.activations id).record with
  | getUpdateStorage storage =>
    refine ⟨error, (p.mistaken.read storage m).2, .getUpdateStorage (p.mistaken.read storage m).1, ?_, rfl,
      rfl⟩
    cases hover : (p.mistaken.read storage m).2 <;>
      simp only [State.value, updateReadResponse, h.operation, hrecord, hover, Function.update_self] <;> rfl
  | updateRead operation =>
    have hresult := result_respond operation m
    refine ⟨error, (operation.respond m).2.2, .updateRead (operation.respond m).1, ?_, rfl, rfl⟩
    cases hover : (operation.respond m).2.2 <;> rw [hover] at hresult <;>
      simp only [State.value, updateReadResponse, h.operation, hrecord, hover, hresult,
        Function.update_self] <;> rfl

/-- A message that arrives in `fd_boot_split_peripheral_run` ends no call. -/
theorem returned_dispatch_run (hstack : s.stack = [.run]) (a : Arrival) :
    (s.dispatch p a).returned = s.returned := by
  have hrun (s' : State) (hstack' : s'.stack = [.run]) (error : Option UInt32) :
      (s'.ioReturn p error).returned = s'.returned := by
    obtain ⟨stack, message, -, heq⟩ := ioReturn_run (p := p) hstack' error
    rw [heq]
  unfold dispatch
  cases a with
  | refused => exact hrun _ (by simp [hstack, Frame.receive]) _
  | request => rfl
  | getUpdateStorage m =>
    exact (hrun _ (by simp [hstack, Frame.receive]) _).trans (returned_getUpdateStorageResponse _ m)
  | updateRead m =>
    exact (hrun _ (by simp [hstack, Frame.receive]) _).trans (returned_updateReadResponse _ m)

theorem returning_of_dispatch (h : s.Inv) (hwaits : s.waits = true) {event : Event} {a : Arrival}
    (ha : s.arrives p event = some a) {r : Returned} (hr : r ∈ (s.dispatch p a).returned) :
    r ∈ s.returned ∨ Returning p s event r := by
  rcases h.waits hwaits with hstack | ⟨id, received, stack, hstack, hoperation⟩
  · rw [returned_dispatch_run hstack] at hr
    exact Or.inl hr
  · have hwaiting : s.Waiting id received := ⟨⟨stack, hstack⟩, hoperation⟩
    cases a with
    | refused =>
      obtain ⟨error, heq⟩ := hwaiting.refused (p := p)
      rw [heq] at hr
      rcases List.mem_cons.mp hr with rfl | hold
      · exact Or.inr (.refused hstack ha)
      · exact Or.inl hold
    | request => exact Or.inl hr
    | getUpdateStorage m =>
      obtain ⟨error, value, record, heq, hrecord'⟩ := hwaiting.getUpdateStorage (p := p) m
      rw [heq] at hr
      rcases List.mem_cons.mp hr with rfl | hold
      · right
        cases hrecord : (s.activations id).record with
        | getUpdateStorage storage =>
          rw [hrecord] at hrecord'
          obtain ⟨rfl, rfl⟩ := hrecord'
          exact .filled hstack ha hrecord
        | updateRead operation =>
          rw [hrecord] at hrecord'
          obtain ⟨rfl, rfl⟩ := hrecord'
          exact .filledMistaken hstack ha hrecord
      · exact Or.inl hold
    | updateRead m =>
      obtain ⟨error, value, record, heq, hrecord'⟩ := hwaiting.updateRead (p := p) m
      rw [heq] at hr
      rcases List.mem_cons.mp hr with rfl | hold
      · right
        cases hrecord : (s.activations id).record with
        | getUpdateStorage storage =>
          rw [hrecord] at hrecord'
          obtain ⟨rfl, rfl⟩ := hrecord'
          exact .answeredMistaken hstack ha hrecord
        | updateRead operation =>
          rw [hrecord] at hrecord'
          obtain ⟨rfl, rfl⟩ := hrecord'
          exact .answered hstack ha hrecord
      · exact Or.inl hold

theorem activations_ioReturn (s : State) (error : Option UInt32) :
    (s.ioReturn p error).activations = s.activations := by
  unfold ioReturn
  split
  · rfl
  · split <;> rfl
  · rfl

/-- A message modifies the pending record only. -/
theorem activations_dispatch (s : State) (a : Arrival) {i : Nat} (h : s.operation ≠ some i) :
    (s.dispatch p a).activations i = s.activations i := by
  unfold dispatch
  cases a with
  | refused => simp only [activations_ioReturn]
  | request => rfl
  | getUpdateStorage m =>
    simp only [activations_ioReturn]
    exact activations_getUpdateStorageResponse _ m h
  | updateRead m =>
    simp only [activations_ioReturn]
    exact activations_updateReadResponse _ m h

theorem step_of_arrives {event : Event} {a : Arrival} (ha : s.arrives p event = some a) :
    s.step p event = some (s.dispatch p a) := by
  unfold arrives at ha
  cases event with
  | byte byte =>
    dsimp only at ha
    split at ha
    · rename_i h
      obtain rfl := Option.some.inj ha
      obtain ⟨hwaits, hbyte, hindex⟩ := h
      simp [State.step, hwaits, hbyte, hindex]
    · cases ha
  | run | getUpdateStorage | updateRead location length | timeout | respond result => cases ha

theorem returned_call (s : State) (record : Record) : (s.call p record).returned = s.returned := by
  rw [call_eq]

/-- What has returned after a step had returned before it, or returns with the step. -/
theorem returning_of_step (h : s.Inv) {event : Event} (hstep : s.step p event = some s') {r : Returned}
    (hr : r ∈ s'.returned) : r ∈ s.returned ∨ Returning p s event r := by
  unfold State.step at hstep
  cases event with
  | run =>
    left
    dsimp only at hstep
    split at hstep
    · obtain rfl := Option.some.inj hstep
      exact hr
    · cases hstep
  | getUpdateStorage =>
    left
    dsimp only at hstep
    split at hstep
    · cases hstep
    · obtain rfl := Option.some.inj hstep
      rwa [returned_call] at hr
  | updateRead location length =>
    left
    dsimp only at hstep
    split at hstep
    · cases hstep
    · obtain rfl := Option.some.inj hstep
      rwa [returned_call] at hr
  | byte byte =>
    cases hwaits : s.waits with
    | false => simp [hwaits] at hstep
    | true =>
      simp only [hwaits, if_true] at hstep
      split at hstep
      · rename_i hbyte
        split at hstep
        · rename_i hindex
          obtain rfl := Option.some.inj hstep
          exact returning_of_dispatch h hwaits (by simp [arrives, hwaits, hbyte, hindex]) hr
        · obtain rfl := Option.some.inj hstep
          exact Or.inl hr
      · obtain rfl := Option.some.inj hstep
        exact Or.inl hr
  | timeout =>
    cases hwaits : s.waits with
    | false => simp [hwaits] at hstep
    | true =>
      simp only [hwaits, if_true, Option.some.injEq] at hstep
      subst hstep
      rcases h.waits hwaits with hstack | ⟨id, received, stack, hstack, hoperation⟩
      · obtain ⟨stack, message, -, heq⟩ := ioReturn_run (p := p) hstack (some errorTimeout)
        rw [heq] at hr
        exact Or.inl hr
      · simp only [ioReturn_call hstack, hoperation, value] at hr
        cases List.mem_cons.mp hr with
        | inl heq => exact Or.inr (heq ▸ .timeout hstack)
        | inr hmem => exact Or.inl hmem
  | respond result =>
    have hstacked := h.stacked
    cases hstack : s.stack with
    | nil => simp [hstack] at hstep
    | cons frame stack =>
      rw [hstack] at hstacked
      cases frame with
      | run => simp [hstack] at hstep
      | call id received => simp [hstack] at hstep
      | request called =>
        simp only [hstack, Option.some.injEq] at hstep
        subst hstep
        rcases hstacked.1 with rfl | ⟨id, received, below, rfl⟩
        · obtain ⟨stack, message, -, heq⟩ := ioReturn_run (p := p)
            (show State.stack { s with stack := [.run] } = [.run] from rfl)
            (if result = true then none else some errorGeneric)
          rw [heq] at hr
          exact Or.inl hr
        · rw [ioReturn_call (show State.stack { s with stack := .call id received :: below } =
            .call id received :: below from rfl)] at hr
          cases List.mem_cons.mp hr with
          | inl heq => exact Or.inr (heq ▸ .handled hstack)
          | inr hmem => exact Or.inl hmem

end State

end Peripheral
end Split
end Boot
end Firefly
