import Firefly.Boot.Pending
import Firefly.Boot.UpdateRead

/-!
# Firefly.Boot.Completion

How the calls of the peripheral end, in whole runs (`Boot/Calls.lean`).

A call leaves its record pending unless the one message it waits for is its response, or a request whose
handler makes calls of its own. With only such messages no record is pending behind its call
(`returned_clean`). The responses look at the pointer alone, so each also ends an operation of the other
type, and a handler that has ended calls of its own leaves nothing pending for the call around it.
Without that, a response modifies operations of its own type only, and a `get_update_storage` returns
true only with its storage (`returned_filled`).
-/

namespace Firefly
namespace Boot
namespace Split
namespace Peripheral

open Bytes

variable {p : Setup}

/-- The message, behind its operation, is the response with the data that an `update_read` asks for. -/
def IsAnswer (location length : UInt32) (data : List UInt8) (m : Binary) : Prop :=
  ∃ result, result ≠ 0 ∧ data.length = length.toNat ∧ data.length < 2 ^ 16 ∧
    m.Unread (leBytes 4 location.toNat ++ (leBytes 2 data.length ++ (result :: data))) ∧
    m.size = m.getIndex + (7 + data.length)

/-! ## Messages that come in -/

section

variable {condition : State → Event → Prop} {s : State} {payload bs : List UInt8} {e : Envelope}

theorem getIndex_putAll (b : Binary) (fields : List (List UInt8)) :
    (b.putAll fields).getIndex = b.getIndex := by
  induction fields generalizing b with
  | nil => rfl
  | cons cs fields ih =>
    refine (ih (b.putBytes cs)).trans ?_
    unfold Binary.putBytes
    split <;> rfl

theorem getIndex_decode (m : Binary) : (Envelope.decode m).1.getIndex = m.getIndex := by
  unfold Envelope.decode
  simp only
  split_ifs <;> rfl

/-- Bytes before a delimiter. -/
theorem Reached.bytes (h : Reached p condition s) (hwaits : s.waits = true)
    (hcondition : ∀ s b, b ≠ 0 → condition s (.byte b)) (hbs : 0 ∉ bs) :
    Reached p condition { s with message := s.message.putAll (bs.map fun b => [b]) } := by
  induction bs generalizing s with
  | nil => exact h
  | cons b bs ih =>
    rw [List.mem_cons, not_or] at hbs
    have hb : b ≠ 0 := Ne.symm hbs.1
    have hstep : s.step p (.byte b) = some { s with message := s.message.putUint8 b } := by
      simp [State.step, hwaits, hb]
    exact ih (h.step (hcondition s b hb) hstep) hwaits hbs.2

/-- A frame for the program is dispatched with its payload, once its delimiter comes. -/
theorem Reached.frame (h : Reached p condition s) (hwaits : s.waits = true)
    (hmessage : s.message = Binary.initializeWith p.buffer messageLimit)
    (hcondition : ∀ s b, b ≠ 0 → condition s (.byte b))
    (hfits : (Gateway.frame payload e).length ≤ 300) (hfilter : DispatchFilter p.configuration e) :
    ∃ m m' : Binary, Reached p condition { s with message := m } ∧
      State.arrives p { s with message := m } (.byte 0) =
        some (dispatchProcess m' (Envelope.stamp payload e)) ∧
      m'.Unread payload ∧ m'.size = payload.length ∧ m'.getIndex = 0 := by
  have hencodes : Cobs.Encodes (Gateway.frame payload e) (Envelope.message payload e) :=
    Cobs.encodes_encode _
  have hflatten : ((Gateway.frame payload e).map fun b => [b]).flatten = Gateway.frame payload e := by
    rw [← List.flatMap_def, List.flatMap_singleton']
  have hreached := h.bytes hwaits hcondition hencodes.zero_notMem
  have hput := @Binary.Written.putAll _ _ _ ((Gateway.frame payload e).map fun b => [b])
    (Binary.written_initializeWith p.buffer messageLimit)
    (by rw [hflatten, List.length_nil, Nat.zero_add]; exact hfits)
  have hget := getIndex_putAll (Binary.initializeWith p.buffer messageLimit)
    ((Gateway.frame payload e).map fun b => [b])
  rw [hflatten, List.nil_append] at hput
  rw [hmessage] at hreached
  generalize (Binary.initializeWith p.buffer messageLimit).putAll
    ((Gateway.frame payload e).map fun b => [b]) = m at *
  obtain ⟨henvelope, hdecoded⟩ := Envelope.Written.decode hput (Gateway.decode_frame payload e)
  have hindex : m.putIndex ≠ 0 := by
    rw [Binary.putIndex_eq hput.contents]
    exact (List.length_pos_of_ne_nil hencodes.ne_nil).ne'
  have hlength : (Envelope.decode m).1.putIndex = payload.length := Binary.putIndex_eq hdecoded.contents
  have hlt : payload.length < 2 ^ 32 := by
    have hle := hdecoded.fits
    exact Nat.lt_of_le_of_lt hle (by decide)
  have hdecode : Envelope.decode m = ((Envelope.decode m).1, some (Envelope.stamp payload e)) := by
    rw [← henvelope]
  have hfilter' : DispatchFilter p.configuration (Envelope.stamp payload e) := hfilter
  have hzero : (Envelope.decode m).1.getIndex = 0 := (getIndex_decode m).trans hget
  refine ⟨m, { (Envelope.decode m).1 with
      size := (Envelope.decode m).1.putIndex % 2 ^ 32
      size_lt := Nat.mod_lt _ (Nat.two_pow_pos 32) }, hreached, ?_, ⟨?_, ?_⟩, ?_, hzero⟩
  · have hwaits' : State.waits { s with message := m } = true := hwaits
    simp only [State.arrives, hwaits', hindex, ne_eq, not_false_eq_true, and_self, if_true]
    rw [arrival, hdecode]
    simp only [if_pos hfilter']
  · have hcontents := hdecoded.contents
    rw [Binary.contents, hlength] at hcontents
    simp only [hzero]
    exact hcontents
  · simp only [hzero, hlength, Nat.mod_eq_of_lt hlt]
    omega
  · simp only [hlength, Nat.mod_eq_of_lt hlt]

/-- A response to an `update_read`. -/
theorem dispatchProcess_updateRead {m : Binary} (htype : e.type = Envelope.typeResponse)
    (h : m.Unread (leBytes 2 operationUpdateRead.toNat ++ bs)) :
    dispatchProcess m e = .updateRead m.getUint16.2 := by
  have hne : e.type ≠ Envelope.typeRequest := by rw [htype]; decide
  rw [dispatchProcess, if_neg hne, if_pos htype, dispatchResponse]
  simp only [h.getUint16.1]
  rw [if_neg (by decide), if_pos trivial]

theorem dispatchProcess_getUpdateStorage {m : Binary} (htype : e.type = Envelope.typeResponse)
    (h : m.Unread (leBytes 2 operationGetUpdateStorage.toNat ++ bs)) :
    dispatchProcess m e = .getUpdateStorage m.getUint16.2 := by
  have hne : e.type ≠ Envelope.typeRequest := by rw [htype]; decide
  rw [dispatchProcess, if_neg hne, if_pos htype, dispatchResponse]
  simp only [h.getUint16.1, if_true]

theorem dispatchProcess_request {m : Binary} (htype : e.type = Envelope.typeRequest)
    (h : m.Unread (leBytes 2 operationGetUpdateMetadata.toNat ++ bs)) : dispatchProcess m e = .request := by
  rw [dispatchProcess, if_pos htype, dispatchRequest]
  simp only [h.getUint16.1]
  rw [if_pos (by simp)]

/-- The response of the controller to a request for data is the answer to the `update_read`. -/
theorem Reached.answer (h : Reached p condition s) (hwaits : s.waits = true)
    (hmessage : s.message = Binary.initializeWith p.buffer messageLimit)
    (hcondition : ∀ s b, b ≠ 0 → condition s (.byte b)) (r : Controller.Request) {data : List UInt8}
    (hlength : data.length = r.length.toNat) {addresses : Controller.Addresses}
    (hfits : Controller.Fits (Controller.answer r data) (Controller.responseEnvelope addresses))
    (hfilter : DispatchFilter p.configuration (Controller.responseEnvelope addresses)) :
    ∃ m₀ m : Binary, Reached p condition { s with message := m₀ } ∧
      State.arrives p { s with message := m₀ } (.byte 0) = some (.updateRead m) ∧
      IsAnswer r.location r.length.toUInt32 data m := by
  have hanswer : Controller.answer r data = leBytes 2 operationUpdateRead.toNat ++
      (leBytes 4 r.location.toNat ++ (leBytes 2 data.length ++ (1 :: data))) := by
    simp [Controller.answer, Controller.header, Controller.headerFields, hlength]
  obtain ⟨m₀, m, hreached, harrives, hunread, hsize, hindex⟩ :=
    h.frame hwaits hmessage hcondition (Nat.le_of_succ_le hfits) hfilter
  rw [hanswer] at hunread
  have hpayload := congrArg List.length hanswer
  obtain ⟨-, hrest, hstate⟩ := hunread.getUint16
  refine ⟨m₀, m.getUint16.2, hreached, ?_, 1, by decide, ?_, ?_, hrest, ?_⟩
  · rw [harrives, dispatchProcess_updateRead rfl hunread]
  · simpa using hlength
  · rw [hlength]
    exact r.length.toNat_lt
  · rw [hstate]
    simp only [List.length_append, length_leBytes, List.length_cons] at hpayload
    simp only [hsize, hindex, hpayload]
    omega

/-- The response with the range of the storage. -/
theorem Reached.storage (h : Reached p condition s) (hwaits : s.waits = true)
    (hmessage : s.message = Binary.initializeWith p.buffer messageLimit)
    (hcondition : ∀ s b, b ≠ 0 → condition s (.byte b)) (storage : UpdateStorage)
    {addresses : Controller.Addresses}
    (hfilter : DispatchFilter p.configuration (Controller.responseEnvelope addresses)) :
    ∃ m₀ m : Binary, Reached p condition { s with message := m₀ } ∧
      State.arrives p { s with message := m₀ } (.byte 0) = some (.getUpdateStorage m) ∧
      getUpdateStorage m = storage := by
  have hfits : Controller.Fits (leBytes 2 operationGetUpdateStorage.toNat ++
      (leBytes 4 storage.location.toNat ++ (leBytes 4 storage.length.toNat ++ [])))
      (Controller.responseEnvelope addresses) := Controller.fits_of_le (by simp) _
  obtain ⟨m₀, m, hreached, harrives, hunread, -, -⟩ :=
    h.frame hwaits hmessage hcondition (Nat.le_of_succ_le hfits) hfilter
  obtain ⟨-, hrest, -⟩ := hunread.getUint16
  obtain ⟨hlocation, hrest', -⟩ := hrest.getUint32
  obtain ⟨hlength, -, -⟩ := hrest'.getUint32
  refine ⟨m₀, m.getUint16.2, hreached, ?_, ?_⟩
  · rw [harrives, dispatchProcess_getUpdateStorage rfl hunread]
  · rw [getUpdateStorage, hlocation, hlength]

/-- What a call waits with. -/
theorem waiting_call (s : State) (record : Record) : (s.call p record).Waiting s.next [] ∧
    (s.call p record).waits = true ∧
    (s.call p record).message = Binary.initializeWith p.buffer messageLimit ∧
    ((s.call p record).activations s.next).record = record := by
  rw [State.call_eq]
  exact ⟨⟨⟨_, rfl⟩, rfl⟩, rfl, rfl, by simp⟩

end

/-! ## No record pending behind its call -/

/-- The message is the response to the operation, or a request. -/
def Completes : Record → Arrival → Prop
  | .getUpdateStorage _, .getUpdateStorage _ => True
  | .updateRead operation, .updateRead m => ∃ data, IsAnswer operation.location operation.length data m
  | _, .request => True
  | _, _ => False

/-- A call that waits has no timeout, and the message that it gets completes it; a handler that it then
runs has made a call before it responds. -/
def Completing (p : Setup) (s : State) (event : Event) : Prop :=
  match s.stack with
  | .call id _ :: _ =>
    event ≠ .timeout ∧ ∀ a, s.arrives p event = some a → Completes (s.activations id).record a
  | .request called :: .call _ _ :: _ => ∀ result, event = .respond result → called = true
  | _ => True

/-- A call that returns does not leave its record pending, and an `update_read` returns true only with
the data of a response to it that was received during the call. -/
structure Returned.Clean (r : Returned) : Prop where
  operation : r.operation ≠ some r.id
  answered : ∀ operation, r.record = .updateRead operation → r.value = true →
    ∃ m data, Arrival.updateRead m ∈ r.received ∧ IsAnswer operation.location operation.length data m ∧
      operation.data = some data

/-- A response to an `update_read` ends it, with the data. -/
theorem UpdateRead.respond_of_isAnswer {operation : UpdateRead} {data : List UInt8} {m : Binary}
    (h : IsAnswer operation.location operation.length data m) :
    operation.respond m = ({ operation with data := some data, result := true }, none, true) := by
  obtain ⟨result, hresult, hlength, hlt, hunread, hsize⟩ := h
  have hcast : (UInt16.ofNat data.length).toNat = data.length := UInt16.toNat_ofNat_of_lt' hlt
  rw [← hcast] at hunread
  obtain ⟨hlocation, hunread, hstate⟩ := hunread.getUint32
  obtain ⟨hlength', hunread, hstate'⟩ := hunread.getUint16
  obtain ⟨hresult', hunread, hstate''⟩ := hunread.getUint8
  have hindex : m.getUint32.2.getUint16.2.getUint8.2.getIndex = m.getIndex + 7 := by
    rw [hstate'', hstate', hstate]
  have hsize' : m.getUint32.2.getUint16.2.getUint8.2.size = m.size := by
    rw [hstate'', hstate', hstate]
  have hremaining : (2 ^ 32 - m.getUint32.2.getUint16.2.getUint8.2.getIndex +
      m.getUint32.2.getUint16.2.getUint8.2.size) % 2 ^ 32 = data.length := by
    rw [hindex, hsize']
    have hsize_lt := m.size_lt
    omega
  have hdata : m.getUint32.2.getUint16.2.getUint8.2.buffer.read
      m.getUint32.2.getUint16.2.getUint8.2.getIndex data.length = data := hunread.bytes
  unfold UpdateRead.respond
  simp only [hlocation, hlength', hlength, hresult', hresult, ne_eq, not_true_eq_false, if_false]
  rw [← hlength, hremaining, hcast, hdata]
  simp

/-- In every run in which the calls are completed, no call that returns leaves its record pending, and no
`update_read` returns true without its data. -/
theorem returned_clean {s : State} (h : Reached p (Completing p) s) : ∀ r ∈ s.returned, r.Clean := by
  induction h with
  | initialized activations message => simp
  | @step s s' event hreached hcondition hstep ih =>
    have hinv := State.inv_of_reached hreached
    intro r hr
    rcases State.returning_of_step hinv hstep hr with hold | hreturning
    · exact ih r hold
    · unfold Completing at hcondition
      cases hreturning with
      | timeout hstack => simp [hstack] at hcondition
      | @refused _ id received stack error hstack ha =>
        simp only [hstack] at hcondition
        have hcompletes := hcondition.2 _ ha
        cases hrecord : (s.activations id).record <;> simp [hrecord, Completes] at hcompletes
      | filled hstack ha hrecord => exact ⟨by simp, by simp⟩
      | @answered _ id received stack error m operation hstack ha hrecord =>
        simp only [hstack] at hcondition
        have hcompletes := hcondition.2 _ ha
        rw [hrecord] at hcompletes
        obtain ⟨data, hanswer⟩ := hcompletes
        have hrespond := UpdateRead.respond_of_isAnswer hanswer
        refine ⟨by simp [hrespond], ?_⟩
        intro operation' heq _
        simp only [hrespond] at heq
        cases heq
        exact ⟨m, data, by simp, hanswer, rfl⟩
      | filledMistaken hstack ha hrecord =>
        simp only [hstack] at hcondition
        have hcompletes := hcondition.2 _ ha
        simp [hrecord, Completes] at hcompletes
      | answeredMistaken hstack ha hrecord =>
        simp only [hstack] at hcondition
        have hcompletes := hcondition.2 _ ha
        simp [hrecord, Completes] at hcompletes
      | @handled called result id received stack error hstack =>
        simp only [hstack] at hcondition
        have hcalled := hcondition result rfl
        have hpends := hinv.pends
        have hunanswered := hinv.unanswered id (by simp [hstack, State.live])
        rw [hstack, hcalled] at hpends
        refine ⟨?_, ?_⟩
        · intro (hpending : s.operation = some id)
          rw [hpending] at hpends
          cases hpends with
          | called hlt => exact Nat.lt_irrefl id (hlt id rfl)
        · intro operation hrecord hvalue
          simp only at hrecord
          rw [hrecord] at hunanswered
          have hresult := hunanswered.2
          cases result <;> cases hpending : s.operation <;>
            simp [State.value, hrecord, hpending, hresult] at hvalue

/-- The configuration of `fd_boot_split_peripheral_set_configuration_defaults`, on memory that is clear. -/
def Setup.defaults : Setup where
  configuration := ⟨1, 0, 0, 0, false⟩
  queue := fun _ => 0
  buffer := fun _ => 0
  mistaken := ⟨fun operation _ => operation, fun storage _ => (storage, false)⟩

theorem dispatchFilter_defaults :
    DispatchFilter Setup.defaults.configuration (Controller.responseEnvelope ⟨0, 1, 0, 0⟩) := by
  decide

/-- The program after `fd_boot_split_peripheral_initialize`. -/
def State.start : State :=
  ⟨none, fun _ => ⟨.getUpdateStorage none, none⟩, 0, [], Binary.initializeWith (fun _ => 0) messageLimit, []⟩

/-- Two bytes that are answered. -/
theorem returned_clean_sample : ∃ s r, Reached Setup.defaults (Completing Setup.defaults) s ∧
    s.returned = [r] ∧ r.value = true ∧ r.Clean := by
  obtain ⟨hwaiting, hwaits, hmessage, hrecord⟩ :=
    waiting_call (p := Setup.defaults) State.start (.updateRead ⟨0, 2, none, false⟩)
  have hcall : Reached Setup.defaults (Completing Setup.defaults)
      (State.start.call Setup.defaults (.updateRead ⟨0, 2, none, false⟩)) :=
    @Reached.step _ _ _ _ (.updateRead 0 2) (.initialized _ _) trivial rfl
  have hbyte : ∀ s b, b ≠ 0 → Completing Setup.defaults s (.byte b) := by
    intro s b hb
    unfold Completing
    split <;> simp [State.arrives, hb]
  obtain ⟨m₀, m, hreached, harrives, hanswer⟩ := hcall.answer hwaits hmessage hbyte ⟨0, 2⟩
    (show [7, 8].length = _ from rfl) (Controller.fits_of_le (by decide) _) dispatchFilter_defaults
  have hreturned : (State.start.call Setup.defaults (.updateRead ⟨0, 2, none, false⟩)).returned = [] :=
    State.returned_call _ _
  generalize State.start.call Setup.defaults (.updateRead ⟨0, 2, none, false⟩) = s at *
  have hwaiting' : State.Waiting { s with message := m₀ } 0 [] := ⟨hwaiting.stack, hwaiting.operation⟩
  have hrecord' : (State.activations { s with message := m₀ } 0).record = .updateRead ⟨0, 2, none, false⟩ :=
    hrecord
  have hreturned' : State.returned { s with message := m₀ } = [] := hreturned
  generalize ({ s with message := m₀ } : State) = s₁ at *
  obtain ⟨error, value, record, heq, hvalue⟩ := hwaiting'.updateRead (p := Setup.defaults) m
  rw [hrecord'] at hvalue
  rw [hreturned'] at heq
  obtain ⟨stack, hstack⟩ := hwaiting'.stack
  have hcompleting : Completing Setup.defaults s₁ (.byte 0) := by
    unfold Completing
    rw [hstack]
    refine ⟨Event.noConfusion, fun a ha => ?_⟩
    rw [harrives] at ha
    obtain rfl := Option.some.inj ha
    rw [hrecord']
    exact ⟨_, hanswer⟩
  have hlast := hreached.step hcompleting (State.step_of_arrives harrives)
  have hrespond : (UpdateRead.respond ⟨0, 2, none, false⟩ m).2.2 = true := by
    rw [UpdateRead.respond_of_isAnswer hanswer]
  refine ⟨_, _, hlast, heq, hvalue.1.trans hrespond, returned_clean hlast _ ?_⟩
  rw [heq]
  exact List.mem_singleton_self _

/-- A call that times out. -/
theorem not_returned_clean :
    ¬ ∀ s, Reached Setup.defaults (fun _ _ => True) s → ∀ r ∈ s.returned, r.Clean := by
  intro h
  obtain ⟨hwaiting, hwaits, -, -⟩ :=
    waiting_call (p := Setup.defaults) State.start (.updateRead ⟨0, 16, none, false⟩)
  have hcall : Reached Setup.defaults (fun _ _ => True)
      (State.start.call Setup.defaults (.updateRead ⟨0, 16, none, false⟩)) :=
    @Reached.step _ _ _ _ (.updateRead 0 16) (.initialized _ _) trivial rfl
  generalize State.start.call Setup.defaults (.updateRead ⟨0, 16, none, false⟩) = s at *
  obtain ⟨⟨stack, hstack⟩, hoperation⟩ := hwaiting
  have hstep : s.step Setup.defaults .timeout = some (s.ioReturn Setup.defaults (some errorTimeout)) := by
    simp [State.step, hwaits]
  have hclean := h _ (@Reached.step _ _ _ _ .timeout hcall trivial hstep)
  rw [State.ioReturn_call hstack] at hclean
  exact (hclean _ List.mem_cons_self).operation hoperation

/-! ## Operations of their own type -/

/-- A response is for the operation that is pending, if one is. -/
def Matches : Record → Arrival → Prop
  | .getUpdateStorage _, .updateRead _ => False
  | .updateRead _, .getUpdateStorage _ => False
  | _, _ => True

/-- No response arrives while an operation of the other type is pending, and a handler that runs while a
`get_update_storage` waits does not respond with nothing pending. -/
structure Matching (p : Setup) (s : State) (event : Event) : Prop where
  arrives : ∀ id a, s.operation = some id → s.arrives p event = some a → Matches (s.activations id).record a
  handled : ∀ called id received stack storage, s.stack = .request called :: .call id received :: stack →
    (s.activations id).record = .getUpdateStorage storage → event = .respond true → s.operation ≠ none

/-- A `get_update_storage` that returns true has its storage from a response to it that was received
during the call. -/
def Returned.Filled (r : Returned) : Prop :=
  ∀ storage, r.record = .getUpdateStorage storage → r.value = true →
    ∃ m, Arrival.getUpdateStorage m ∈ r.received ∧ storage = some (getUpdateStorage m)

/-- A response leaves the operation of a call that has not returned as it is, and pending if it was, if it
is of the other type. -/
def Spares (p : Setup) (s : State) (event : Event) (s' : State) : Prop :=
  ∀ id ∈ State.live s.stack, ∀ a, s.arrives p event = some a → ¬ Matches (s.activations id).record a →
    (s'.activations id).record = (s.activations id).record ∧
      (s.operation = some id → s'.operation = some id)

/-- In every run in which the responses are for what is pending, they modify nothing else, and no
`get_update_storage` returns true without its storage. -/
theorem returned_filled {s : State} (h : Reached p (Matching p) s) : (∀ r ∈ s.returned, r.Filled) ∧
    ∀ event s', Matching p s event → s.step p event = some s' → Spares p s event s' := by
  have hspares : ∀ event s', Matching p s event → s.step p event = some s' → Spares p s event s' := by
    intro event s' hcondition hstep id _ a ha hno
    have hother : s.operation ≠ some id := fun hpending => hno (hcondition.arrives id a hpending ha)
    rw [State.step_of_arrives ha] at hstep
    obtain rfl := Option.some.inj hstep
    exact ⟨by rw [State.activations_dispatch s a hother], fun hpending => absurd hpending hother⟩
  refine ⟨?_, hspares⟩
  clear hspares
  induction h with
  | initialized activations message => simp
  | @step s s' event hreached hcondition hstep ih =>
    have hinv := State.inv_of_reached hreached
    intro r hr
    rcases State.returning_of_step hinv hstep hr with hold | hreturning
    · exact ih r hold
    · intro storage hrecord' hvalue
      cases hreturning with
      | timeout hstack => cases hvalue
      | refused hstack ha => cases hvalue
      | @filled _ id received stack error m storage' hstack ha hrecord =>
        cases hrecord'
        exact ⟨m, by simp, rfl⟩
      | answered hstack ha hrecord => cases hrecord'
      | filledMistaken hstack ha hrecord => cases hrecord'
      | @answeredMistaken _ id received stack error m storage' hstack ha hrecord =>
        have hpending := hinv.pends
        rw [hstack] at hpending
        generalize hoperation : s.operation = operation at hpending
        cases hpending
        have hmatches := hcondition.arrives id _ hoperation ha
        rw [hrecord] at hmatches
        exact hmatches.elim
      | @handled called result id received stack error hstack =>
        simp only at hrecord' hvalue
        cases result with
        | false => simp [State.value] at hvalue
        | true =>
          have hpending := hcondition.handled called id received stack storage hstack hrecord' rfl
          simp [State.value, hpending] at hvalue

theorem matching_byte (s : State) (b : UInt8) (hb : b ≠ 0) : Matching p s (.byte b) where
  arrives := by simp [State.arrives, hb]
  handled := nofun

/-- A storage that is filled. -/
theorem returned_filled_sample : ∃ s r, Reached Setup.defaults (Matching Setup.defaults) s ∧
    s.returned = [r] ∧ r.value = true ∧ r.record = .getUpdateStorage (some ⟨4096, 256⟩) ∧ r.Filled := by
  obtain ⟨hwaiting, hwaits, hmessage, hrecord⟩ :=
    waiting_call (p := Setup.defaults) State.start (.getUpdateStorage none)
  have hcall : Reached Setup.defaults (Matching Setup.defaults)
      (State.start.call Setup.defaults (.getUpdateStorage none)) :=
    @Reached.step _ _ _ _ .getUpdateStorage (.initialized _ _) ⟨nofun, nofun⟩ rfl
  obtain ⟨m₀, m, hreached, harrives, hstorage⟩ :=
    hcall.storage hwaits hmessage matching_byte ⟨4096, 256⟩ dispatchFilter_defaults
  have hreturned : (State.start.call Setup.defaults (.getUpdateStorage none)).returned = [] :=
    State.returned_call _ _
  generalize State.start.call Setup.defaults (.getUpdateStorage none) = s at *
  have hwaiting' : State.Waiting { s with message := m₀ } 0 [] := ⟨hwaiting.stack, hwaiting.operation⟩
  have hrecord' : (State.activations { s with message := m₀ } 0).record = .getUpdateStorage none := hrecord
  have hreturned' : State.returned { s with message := m₀ } = [] := hreturned
  generalize ({ s with message := m₀ } : State) = s₁ at *
  obtain ⟨error, value, record, heq, hvalue⟩ := hwaiting'.getUpdateStorage (p := Setup.defaults) m
  rw [hrecord'] at hvalue
  rw [hreturned'] at heq
  obtain ⟨stack, hstack⟩ := hwaiting'.stack
  have hmatching : Matching Setup.defaults s₁ (.byte 0) := by
    refine ⟨fun id a hid ha => ?_, nofun⟩
    rw [hwaiting'.operation] at hid
    rw [harrives] at ha
    obtain rfl := Option.some.inj hid
    obtain rfl := Option.some.inj ha
    rw [hrecord']
    trivial
  have hlast := hreached.step hmatching (State.step_of_arrives harrives)
  refine ⟨_, _, hlast, heq, hvalue.1, ?_, (returned_filled hlast).1 _ ?_⟩
  · rw [hvalue.2, hstorage]
  · rw [heq]
    exact List.mem_singleton_self _

/-- The response to an `update_read` ends it. -/
theorem State.dispatch_answer {s : State} {id : Nat} {received : List Arrival} {stack : List Frame}
    {operation : UpdateRead} {data : List UInt8} {m : Binary} (hstack : s.stack = .call id received :: stack)
    (hoperation : s.operation = some id) (hrecord : (s.activations id).record = .updateRead operation)
    (hanswer : IsAnswer operation.location operation.length data m) :
    (s.dispatch p (.updateRead m)).stack = stack.map (Frame.receive (.updateRead m)) ∧
      (s.dispatch p (.updateRead m)).operation = none := by
  have hstack' : (State.updateReadResponse p
      { s with stack := s.stack.map (Frame.receive (.updateRead m)) } m).stack =
      .call id (received ++ [.updateRead m]) :: stack.map (Frame.receive (.updateRead m)) := by
    simp [hstack, Frame.receive]
  simp only [State.dispatch, State.ioReturn_call hstack']
  refine ⟨trivial, ?_⟩
  simp [State.updateReadResponse, hoperation, hrecord, UpdateRead.respond_of_isAnswer hanswer]

/-- A request that comes while a call waits. -/
theorem State.dispatch_request {s : State} {id : Nat} (hstack : s.stack = [.call id []]) :
    s.dispatch p .request = { s with stack := [.request false, .call id [.request]] } := by
  simp [State.dispatch, hstack, Frame.receive]

/-- The response to a `get_update_storage` comes while an `update_read` waits. -/
theorem not_spares : ∃ s event s', Reached Setup.defaults (fun _ _ => True) s ∧
    s.step Setup.defaults event = some s' ∧ ¬ Spares Setup.defaults s event s' := by
  obtain ⟨hwaiting, hwaits, hmessage, hrecord⟩ :=
    waiting_call (p := Setup.defaults) State.start (.updateRead ⟨0, 2, none, false⟩)
  have hcall : Reached Setup.defaults (fun _ _ => True)
      (State.start.call Setup.defaults (.updateRead ⟨0, 2, none, false⟩)) :=
    @Reached.step _ _ _ _ (.updateRead 0 2) (.initialized _ _) trivial rfl
  obtain ⟨m₀, m, hreached, harrives, -⟩ :=
    hcall.storage hwaits hmessage (fun _ _ _ => trivial) ⟨4096, 256⟩ dispatchFilter_defaults
  generalize State.start.call Setup.defaults (.updateRead ⟨0, 2, none, false⟩) = s at *
  obtain ⟨⟨stack, hstack⟩, hoperation⟩ := hwaiting
  refine ⟨_, _, _, hreached, State.step_of_arrives harrives, ?_⟩
  intro hspares
  have hlive : State.start.next ∈ State.live s.stack := by
    rw [hstack]
    exact List.mem_cons_self
  have hpending := (hspares State.start.next hlive _ harrives
    (by simp [show (s.activations State.start.next).record = _ from hrecord, Matches])).2 hoperation
  have hstack' : (State.getUpdateStorageResponse Setup.defaults { s with
      message := m₀, stack := s.stack.map (Frame.receive (.getUpdateStorage m)) } m).stack =
      .call State.start.next ([] ++ [.getUpdateStorage m]) ::
        stack.map (Frame.receive (.getUpdateStorage m)) := by
    simp [hstack, Frame.receive]
  simp [State.dispatch, State.ioReturn_call hstack'] at hpending

/-- A request comes while a `get_update_storage` waits, and its handler makes an `update_read` of its own
before it responds. -/
theorem not_filled : ∃ s, Reached Setup.defaults (fun _ _ => True) s ∧ ∃ r ∈ s.returned, ¬ r.Filled := by
  obtain ⟨hwaiting, hwaits, hmessage, hrecord⟩ :=
    waiting_call (p := Setup.defaults) State.start (.getUpdateStorage none)
  have hcall : Reached Setup.defaults (fun _ _ => True)
      (State.start.call Setup.defaults (.getUpdateStorage none)) :=
    @Reached.step _ _ _ _ .getUpdateStorage (.initialized _ _) trivial rfl
  have hstack : (State.start.call Setup.defaults (.getUpdateStorage none)).stack = [.call 0 []] := by
    rw [State.call_eq]
    rfl
  generalize State.start.call Setup.defaults (.getUpdateStorage none) = s at *
  -- the request for the metadata of the update
  obtain ⟨m₀, m, hreached, harrives, hunread, -, -⟩ := @Reached.frame _ _ s
    (leBytes 2 operationGetUpdateMetadata.toNat ++ []) ⟨0, 0, 0, 1, 0, 0, Envelope.typeRequest, 0⟩ hcall
    hwaits hmessage (fun _ _ _ => trivial) (Nat.le_of_succ_le (Controller.fits_of_le (by simp) _)) (by decide)
  rw [dispatchProcess_request rfl hunread] at harrives
  have hrequest := @Reached.step _ _ _ _ (.byte 0) hreached trivial (State.step_of_arrives harrives)
  rw [State.dispatch_request (show State.stack { s with message := m₀ } = [.call 0 []] from hstack)]
    at hrequest
  have hrecord₁ : (State.activations { s with
      message := m₀, stack := [.request false, .call 0 [.request]] } 0).record = .getUpdateStorage none :=
    hrecord
  have hstack₁ : State.stack { s with message := m₀, stack := [.request false, .call 0 [.request]] } =
      [.request false, .call 0 [.request]] := rfl
  generalize ({ s with message := m₀, stack := [.request false, .call 0 [.request]] } : State) = s₁ at *
  have hnext : 0 < s₁.next := by
    have hstacked := (State.inv_of_reached hrequest).stacked
    rw [hstack₁] at hstacked
    exact hstacked.2.1
  -- the call of the handler, and its answer
  obtain ⟨hwaiting₂, hwaits₂, hmessage₂, hrecord₂⟩ :=
    waiting_call (p := Setup.defaults) s₁ (.updateRead ⟨0, 2, none, false⟩)
  have hstep₂ : s₁.step Setup.defaults (.updateRead 0 2) =
      some (s₁.call Setup.defaults (.updateRead ⟨0, 2, none, false⟩)) := by
    simp [State.step, State.waits, hstack₁]
  have hcall₂ := @Reached.step _ _ _ _ (.updateRead 0 2) hrequest trivial hstep₂
  have hstack₂ : (s₁.call Setup.defaults (.updateRead ⟨0, 2, none, false⟩)).stack =
      [.call s₁.next [], .request true, .call 0 [.request]] := by
    rw [State.call_eq, hstack₁]
    rfl
  have houter : ((s₁.call Setup.defaults (.updateRead ⟨0, 2, none, false⟩)).activations 0).record =
      .getUpdateStorage none := by
    rw [State.call_eq]
    simp only
    rw [Function.update_of_ne (Nat.ne_of_lt hnext), hrecord₁]
  generalize s₁.call Setup.defaults (.updateRead ⟨0, 2, none, false⟩) = s₂ at *
  obtain ⟨m₂, m₃, hreached₂, harrives₂, hanswer⟩ := hcall₂.answer hwaits₂ hmessage₂ (fun _ _ _ => trivial)
    ⟨0, 2⟩ (show [7, 8].length = _ from rfl) (Controller.fits_of_le (by decide) _) dispatchFilter_defaults
  have hanswered := @Reached.step _ _ _ _ (.byte 0) hreached₂ trivial (State.step_of_arrives harrives₂)
  have hdispatch := State.dispatch_answer (p := Setup.defaults)
    (show State.stack { s₂ with message := m₂ } = _ from hstack₂) hwaiting₂.operation hrecord₂ hanswer
  have houter' : (State.activations (State.dispatch Setup.defaults { s₂ with message := m₂ } (.updateRead m₃))
      0).record = .getUpdateStorage none := by
    rw [State.activations_dispatch _ _ (show State.operation { s₂ with message := m₂ } ≠ some 0 by
      rw [show State.operation { s₂ with message := m₂ } = _ from hwaiting₂.operation]
      simpa using hnext.ne')]
    exact houter
  generalize State.dispatch Setup.defaults { s₂ with message := m₂ } (.updateRead m₃) = s₃ at *
  obtain ⟨hstack₃, hoperation₃⟩ := hdispatch
  simp only [List.map_cons, List.map_nil, Frame.receive] at hstack₃
  -- the response of the handler
  have hstep₃ : s₃.step Setup.defaults (.respond true) = some (State.ioReturn Setup.defaults
      { s₃ with stack := [.call 0 ([.request] ++ [.updateRead m₃])] } none) := by
    simp [State.step, hstack₃]
  refine ⟨_, @Reached.step _ _ _ _ (.respond true) hanswered trivial hstep₃, ?_⟩
  rw [State.ioReturn_call (show State.stack { s₃ with stack := [.call 0 ([.request] ++ [.updateRead m₃])] } =
    _ from rfl)]
  refine ⟨_, List.mem_cons_self, ?_⟩
  intro hfilled
  obtain ⟨m, -, hnone⟩ := hfilled none houter' (by simp [State.value, hoperation₃, houter'])
  cases hnone

theorem not_returned_filled :
    (¬ ∀ s event s', Reached Setup.defaults (fun _ _ => True) s → s.step Setup.defaults event = some s' →
      Spares Setup.defaults s event s') ∧
    ¬ ∀ s, Reached Setup.defaults (fun _ _ => True) s → ∀ r ∈ s.returned, r.Filled := by
  obtain ⟨s, event, s', hreached, hstep, hspares⟩ := not_spares
  obtain ⟨s₁, hreached₁, r, hr, hfilled⟩ := not_filled
  exact ⟨fun h => hspares (h s event s' hreached hstep), fun h => hfilled (h s₁ hreached₁ r hr)⟩

end Peripheral
end Split
end Boot
end Firefly
