import Mathlib.Data.List.Basic
import Mathlib.Data.List.Infix

/-!
# Firefly.Base.Event

`fd_event.c`: events that are set, also from interrupts, and the callbacks of their consumers.
`fd_event_process` takes a snapshot of the events that are set and clears them while interrupts are
disabled, and then calls the consumers of those. An event may be set at any other point, between two
consumers and in a callback too, and a callback may process events itself.

* `Step`: one step of the program or of an interrupt, with the labels of what can be seen of it.
* `Run`: the history of labels that leads to a state.

Every consumer of an event that was set is called once by the call of `fd_event_process` that takes
the next snapshot, and no other consumer is (`Event.run_calls`).
-/

namespace Firefly

structure EventItem where
  name : String
  identifier : Nat
  isSet : Bool

structure EventConsumer (α : Type) where
  identifier : Nat
  callback : α

structure Event (α : Type) where
  items : List EventItem
  consumers : List (EventConsumer α)

namespace Event

variable {α : Type}

def itemLimit : Nat := 32
def consumerLimit : Nat := 32

/-! ## Registration -/

/-- `fd_event_initialize`. -/
def initializeWith (α : Type) : Event α := ⟨[], []⟩

/-- `fd_event_get_identifier`. -/
def getIdentifier (ev : Event α) (name : String) : Nat × Event α :=
  match ev.items.find? fun item => item.name == name with
  | some item => (item.identifier, ev)
  | none => (ev.items.length, { ev with items := ev.items ++ [⟨name, ev.items.length, false⟩] })

/-- `fd_event_add_callback`. -/
def addCallback (ev : Event α) (identifier : Nat) (callback : α) : Event α :=
  { ev with consumers := ev.consumers ++ [⟨identifier, callback⟩] }

/-- What calls of the two functions lead to, as long as their assertions hold. -/
inductive Registered : Event α → Prop where
  | start : Registered (initializeWith α)
  | item {ev : Event α} (name : String) : Registered ev →
      (ev.getIdentifier name).2.items.length ≤ itemLimit → Registered (ev.getIdentifier name).2
  | consumer {ev : Event α} (identifier : Nat) (callback : α) : Registered ev →
      identifier < ev.items.length → ev.consumers.length < consumerLimit →
      Registered (ev.addCallback identifier callback)

/-! ## Setting and processing -/

/-- `fd_event_set`, and `fd_event_set_from_interrupt`, which only calls it. -/
def set (ev : Event α) (identifier : Nat) : Event α :=
  { ev with items := ev.items.modify identifier fun item => { item with isSet := true } }

/-- The local variables of `fd_event_process` when the interrupts are enabled again. -/
structure Snapshot where
  isSet : List Bool
  anySet : Bool

/-- The loop of `fd_event_process` over the items. -/
def snapshot : List EventItem → Snapshot × List EventItem
  | [] => (⟨[], false⟩, [])
  | item :: items =>
    let rest := snapshot items
    if item.isSet then
      (⟨true :: rest.1.isSet, true⟩, { item with isSet := false } :: rest.2)
    else
      (⟨false :: rest.1.isSet, rest.1.anySet⟩, item :: rest.2)

/-- A call of `fd_event_process` behind its snapshot, at the consumer with the given index. The number
tells the calls apart. -/
structure Frame where
  number : Nat
  taken : Snapshot
  index : Nat
  inCallback : Bool

/-- The calls of `fd_event_process` that have not returned, the innermost one first. -/
structure State (α : Type) where
  event : Event α
  snapshots : Nat
  frames : List Frame

inductive Label (α : Type) where
  | set (identifier : Nat)
  | snapshot (number : Nat)
  | call (number : Nat) (consumer : EventConsumer α)

/-- The main program, or a callback, is about to run code that is not shown here. -/
def State.Idle (s : State α) : Prop := ∀ f ∈ s.frames.head?, f.inCallback = true

/-- The snapshot that a call of `fd_event_process` begins with. Nothing comes between its parts, as
the interrupts are disabled; with `FD_EVENT_WAIT` it may end later. -/
def State.process (s : State α) : State α :=
  let taken := Event.snapshot s.event.items
  { event := { s.event with items := taken.2 }
    snapshots := s.snapshots + 1
    frames := ⟨s.snapshots, taken.1, 0, false⟩ :: s.frames }

/-- The next step of the innermost call: to call a consumer or to pass it, to come back from a
callback, or to return. -/
def State.advance (s : State α) : Option (List (Label α) × State α) :=
  match s.frames with
  | [] => none
  | f :: frames =>
    if f.inCallback then
      some ([], { s with frames := { f with index := f.index + 1, inCallback := false } :: frames })
    else if f.taken.anySet then
      match s.event.consumers[f.index]? with
      | some consumer =>
        if f.taken.isSet.getD consumer.identifier false then
          some ([.call f.number consumer], { s with frames := { f with inCallback := true } :: frames })
        else some ([], { s with frames := { f with index := f.index + 1 } :: frames })
      | none => some ([], { s with frames := frames })
    else some ([], { s with frames := frames })

inductive Step : State α → List (Label α) → State α → Prop where
  | set {s : State α} (identifier : Nat) : identifier < s.event.items.length →
      Step s [.set identifier] { s with event := s.event.set identifier }
  | process {s : State α} : s.Idle → Step s [.snapshot s.snapshots] s.process
  | advance {s s' : State α} {labels : List (Label α)} : s.advance = some (labels, s') →
      Step s labels s'

def start (ev : Event α) : State α := ⟨ev, 0, []⟩

inductive Run (ev : Event α) : List (Label α) → State α → Prop where
  | start : Run ev [] (start ev)
  | step {history labels : List (Label α)} {s s' : State α} : Run ev history s → Step s labels s' →
      Run ev (history ++ labels) s'

/-! ## What a history says -/

def Label.isSnapshot : Label α → Bool
  | .snapshot _ => true
  | _ => false

def Label.sets (identifier : Nat) : Label α → Bool
  | .set i => i == identifier
  | _ => false

def Label.calls (number : Nat) : Label α → Option (EventConsumer α)
  | .call n consumer => if n = number then some consumer else none
  | _ => none

/-- The event has been set since the latest snapshot. -/
def setSince (history : List (Label α)) (identifier : Nat) : Bool :=
  (history.reverse.takeWhile fun l => !l.isSnapshot).any (Label.sets identifier)

/-- The consumers that a snapshot at the end of the history is to call. -/
def due (ev : Event α) (history : List (Label α)) : List (EventConsumer α) :=
  ev.consumers.filter fun consumer => setSince history consumer.identifier

/-- The consumers that a call of `fd_event_process` has called. -/
def callsOf (number : Nat) (history : List (Label α)) : List (EventConsumer α) :=
  history.filterMap (Label.calls number)

/-! ## The flags -/

variable {ev : Event α} {history labels : List (Label α)} {s s' : State α}

def flag (items : List EventItem) (identifier : Nat) : Bool := items[identifier]?.any EventItem.isSet

theorem flag_modify {items : List EventItem} {i : Nat} (hi : i < items.length) (e : Nat) :
    flag (items.modify i fun item => { item with isSet := true }) e = (i == e || flag items e) := by
  rw [flag, flag, List.getElem?_modify]
  by_cases heq : i = e
  · subst heq
    simp [List.getElem?_eq_getElem hi]
  · simp [heq]

theorem snapshot_isSet (items : List EventItem) (e : Nat) :
    (snapshot items).1.isSet.getD e false = flag items e := by
  induction items generalizing e with
  | nil => rfl
  | cons item items ih =>
    cases hset : item.isSet with
    | true =>
      cases e with
      | zero => simp [snapshot, flag, hset]
      | succ e => simpa [snapshot, flag, hset] using ih e
    | false =>
      cases e with
      | zero => simp [snapshot, flag, hset]
      | succ e => simpa [snapshot, flag, hset] using ih e

theorem snapshot_anySet {items : List EventItem} (h : (snapshot items).1.anySet = false) (e : Nat) :
    flag items e = false := by
  induction items generalizing e with
  | nil => rfl
  | cons item items ih =>
    cases hset : item.isSet with
    | true => simp [snapshot, hset] at h
    | false =>
      cases e with
      | zero => simp [flag, hset]
      | succ e =>
        have hrest : (snapshot items).1.anySet = false := by simpa [snapshot, hset] using h
        simpa [flag] using ih hrest e

theorem flag_snapshot (items : List EventItem) (e : Nat) : flag (snapshot items).2 e = false := by
  induction items generalizing e with
  | nil => rfl
  | cons item items ih =>
    cases hset : item.isSet with
    | true =>
      cases e with
      | zero => simp [snapshot, flag, hset]
      | succ e => simpa [snapshot, flag, hset] using ih e
    | false =>
      cases e with
      | zero => simp [snapshot, flag, hset]
      | succ e => simpa [snapshot, flag, hset] using ih e

/-! ## Histories -/

theorem setSince_set (history : List (Label α)) (i e : Nat) :
    setSince (history ++ [.set i]) e = (i == e || setSince history e) := by
  simp [setSince, Label.isSnapshot, Label.sets]

theorem setSince_snapshot (history : List (Label α)) (k e : Nat) :
    setSince (history ++ [.snapshot k]) e = false := by
  simp [setSince, Label.isSnapshot]

theorem setSince_call (history : List (Label α)) (k : Nat) (c : EventConsumer α) (e : Nat) :
    setSince (history ++ [.call k c]) e = setSince history e := by
  simp [setSince, Label.isSnapshot, Label.sets]

theorem callsOf_append (k : Nat) (h h' : List (Label α)) :
    callsOf k (h ++ h') = callsOf k h ++ callsOf k h' := List.filterMap_append

theorem mem_callsOf {k : Nat} {c : EventConsumer α} :
    c ∈ callsOf k history ↔ .call k c ∈ history := by
  rw [callsOf, List.mem_filterMap]
  constructor
  · rintro ⟨l, hl, hcalls⟩
    cases l with
    | set i => cases hcalls
    | snapshot n => cases hcalls
    | call n d =>
      rw [Label.calls] at hcalls
      split at hcalls
      · rename_i hn
        cases hcalls
        exact hn ▸ hl
      · cases hcalls
  · intro hl
    exact ⟨_, hl, by simp [Label.calls]⟩

/-- A label in a history that is one longer. -/
theorem append_eq_split {h earlier later : List (Label α)} {l x : Label α}
    (heq : h ++ [l] = earlier ++ x :: later) :
    (later = [] ∧ l = x ∧ h = earlier) ∨ ∃ later', later = later' ++ [l] ∧ h = earlier ++ x :: later' := by
  rcases List.eq_nil_or_concat later with rfl | ⟨later', y, rfl⟩
  · obtain ⟨rfl, hx⟩ := List.append_inj' heq rfl
    cases hx
    exact Or.inl ⟨rfl, rfl, rfl⟩
  · rw [List.concat_eq_append, ← List.cons_append, ← List.append_assoc] at heq
    obtain ⟨rfl, hx⟩ := List.append_inj' heq rfl
    cases hx
    exact Or.inr ⟨later', List.concat_eq_append, rfl⟩

/-! ## Registered events -/

/-- The identifiers are the indices of the items, and no event has been set. -/
structure WellFormed (ev : Event α) : Prop where
  identifier : ∀ (i : Nat) (item : EventItem), ev.items[i]? = some item → item.identifier = i
  clear : ∀ e, flag ev.items e = false
  consumers : ∀ c ∈ ev.consumers, c.identifier < ev.items.length

theorem WellFormed.getIdentifier (h : WellFormed ev) (name : String) :
    WellFormed (ev.getIdentifier name).2 := by
  rw [Event.getIdentifier]
  cases ev.items.find? fun item => item.name == name with
  | some item => exact h
  | none =>
    refine ⟨?_, ?_, ?_⟩
    · intro i item hi
      rw [List.getElem?_append] at hi
      split at hi
      · exact h.identifier i item hi
      · obtain ⟨hlt, hitem⟩ := List.getElem?_eq_some_iff.mp hi
        rw [← hitem]
        simp only [List.length_singleton] at hlt
        simp only [List.getElem_singleton]
        omega
    · intro e
      rw [flag, List.getElem?_append]
      split
      · exact h.clear e
      · cases e - ev.items.length <;> rfl
    · intro c hc
      rw [List.length_append]
      exact Nat.lt_add_right _ (h.consumers c hc)

theorem Registered.wellFormed (h : Registered ev) : WellFormed ev := by
  induction h with
  | start =>
    refine ⟨?_, fun _ => rfl, ?_⟩
    · intro i item hi
      cases hi
    · intro c hc
      cases hc
  | item name _ _ ih => exact ih.getIdentifier name
  | consumer identifier callback _ hlt _ ih =>
    refine ⟨ih.identifier, ih.clear, ?_⟩
    intro c hc
    rcases List.mem_append.mp hc with hold | hnew
    · exact ih.consumers c hold
    · cases List.mem_singleton.mp hnew
      exact hlt

/-! ## The invariant -/

/-- The number of consumers that a call has come to. -/
def Frame.reached (f : Frame) : Nat := if f.inCallback then f.index + 1 else f.index

/-- A call whose snapshot was taken behind the labels `earlier` has called those that are due among the
consumers it has come to. -/
structure Dispatching (ev : Event α) (history earlier : List (Label α)) (f : Frame) : Prop where
  isSet : ∀ e, f.taken.isSet.getD e false = setSince earlier e
  anySet : f.taken.anySet = false → ∀ e, setSince earlier e = false
  calls : callsOf f.number history =
    (ev.consumers.take f.reached).filter fun consumer => setSince earlier consumer.identifier

/-- The call with the given number is under way, or it has called all that were due. -/
def Accounted (ev : Event α) (history earlier : List (Label α)) (frames : List Frame) (k : Nat) : Prop :=
  (∃ f ∈ frames, f.number = k ∧ Dispatching ev history earlier f) ∨
    ((∀ f ∈ frames, f.number ≠ k) ∧ callsOf k history = due ev earlier)

structure Inv (ev : Event α) (history : List (Label α)) (s : State α) : Prop where
  consumers : s.event.consumers = ev.consumers
  flags : ∀ e, flag s.event.items e = setSince history e
  count : history.countP Label.isSnapshot = s.snapshots
  distinct : (s.frames.map Frame.number).Nodup
  frames : ∀ f ∈ s.frames, .snapshot f.number ∈ history
  calls : ∀ k c, .call k c ∈ history → .snapshot k ∈ history
  accounted : ∀ earlier later k, history = earlier ++ .snapshot k :: later →
    k = earlier.countP Label.isSnapshot ∧ callsOf k earlier = [] ∧ Accounted ev history earlier s.frames k

theorem inv_start (h : WellFormed ev) : Inv ev [] (start ev) := by
  refine ⟨rfl, h.clear, rfl, List.nodup_nil, ?_, ?_, ?_⟩
  · intro f hf
    cases hf
  · intro k c hc
    cases hc
  · intro earlier later k h0
    exact absurd h0 (by simp)

theorem Inv.number_lt (h : Inv ev history s) {k : Nat} (hk : .snapshot k ∈ history) : k < s.snapshots := by
  obtain ⟨earlier, later, heq⟩ := List.append_of_mem hk
  have hnumber := (h.accounted earlier later k heq).1
  rw [← h.count, heq, List.countP_append, hnumber]
  simp [Label.isSnapshot]

/-- What is seen of a step that is not a call of the given number. -/
theorem Accounted.append {earlier : List (Label α)} {frames : List Frame} {k : Nat}
    (h : Accounted ev history earlier frames k) (hcalls : callsOf k (history ++ labels) = callsOf k history) :
    Accounted ev (history ++ labels) earlier frames k := by
  rcases h with ⟨f, hf, hk, hd⟩ | ⟨hno, hdue⟩
  · refine Or.inl ⟨f, hf, hk, hd.isSet, hd.anySet, ?_⟩
    rw [hk, hcalls, ← hk, hd.calls]
  · exact Or.inr ⟨hno, hcalls.trans hdue⟩

theorem callsOf_set (k i : Nat) : callsOf k (history ++ [.set i]) = callsOf k history := by
  rw [callsOf_append]
  exact List.append_nil _

theorem callsOf_snapshot (k n : Nat) : callsOf k (history ++ [.snapshot n]) = callsOf k history := by
  rw [callsOf_append]
  exact List.append_nil _

theorem callsOf_call_self (k : Nat) (c : EventConsumer α) :
    callsOf k (history ++ [.call k c]) = callsOf k history ++ [c] := by
  rw [callsOf_append]
  simp [callsOf, Label.calls]

theorem callsOf_call_of_ne {k n : Nat} (hne : n ≠ k) (c : EventConsumer α) :
    callsOf k (history ++ [.call n c]) = callsOf k history := by
  rw [callsOf_append]
  simp [callsOf, Label.calls, hne]

theorem Inv.set (h : Inv ev history s) {i : Nat} (hi : i < s.event.items.length) :
    Inv ev (history ++ [.set i]) { s with event := s.event.set i } := by
  refine ⟨h.consumers, ?_, ?_, h.distinct, ?_, ?_, ?_⟩
  · intro e
    rw [setSince_set, ← h.flags e]
    exact flag_modify hi e
  · rw [List.countP_append, h.count]
    rfl
  · intro f hf
    exact List.mem_append_left _ (h.frames f hf)
  · intro k c hc
    rcases List.mem_append.mp hc with hc | hc
    · exact List.mem_append_left _ (h.calls k c hc)
    · cases List.mem_singleton.mp hc
  · intro earlier later k heq
    rcases append_eq_split heq with ⟨_, hl, _⟩ | ⟨later', _, heq'⟩
    · cases hl
    · obtain ⟨hnumber, hearlier, hacc⟩ := h.accounted earlier later' k heq'
      exact ⟨hnumber, hearlier, hacc.append (callsOf_set k i)⟩

/-- No call has the number of the next snapshot. -/
theorem Inv.callsOf_next (h : Inv ev history s) : callsOf s.snapshots history = [] := by
  rw [List.eq_nil_iff_forall_not_mem]
  intro c hc
  have hlt := h.number_lt (h.calls _ c (mem_callsOf.mp hc))
  exact absurd hlt (Nat.lt_irrefl _)

theorem Inv.process (h : Inv ev history s) : Inv ev (history ++ [.snapshot s.snapshots]) s.process := by
  have hnew : ∀ f ∈ s.frames, f.number ≠ s.snapshots := by
    intro f hf
    exact Nat.ne_of_lt (h.number_lt (h.frames f hf))
  refine ⟨h.consumers, ?_, ?_, ?_, ?_, ?_, ?_⟩
  · intro e
    rw [setSince_snapshot]
    exact flag_snapshot s.event.items e
  · rw [List.countP_append, h.count]
    rfl
  · rw [State.process, List.map_cons, List.nodup_cons]
    refine ⟨?_, h.distinct⟩
    intro hmem
    obtain ⟨f, hf, hnumber⟩ := List.mem_map.mp hmem
    exact hnew f hf hnumber
  · intro f hf
    cases hf with
    | head => exact List.mem_append_right _ (List.mem_singleton_self _)
    | tail _ hf => exact List.mem_append_left _ (h.frames f hf)
  · intro k c hc
    rcases List.mem_append.mp hc with hc | hc
    · exact List.mem_append_left _ (h.calls k c hc)
    · cases List.mem_singleton.mp hc
  · intro earlier later k heq
    rcases append_eq_split heq with ⟨_, hl, rfl⟩ | ⟨later', _, heq'⟩
    · cases hl
      refine ⟨h.count.symm, h.callsOf_next, Or.inl ⟨_, List.mem_cons_self, rfl, ?_, ?_, ?_⟩⟩
      · intro e
        rw [← h.flags e]
        exact snapshot_isSet s.event.items e
      · intro hany e
        rw [← h.flags e]
        exact snapshot_anySet hany e
      · exact (callsOf_snapshot _ _).trans h.callsOf_next
    · obtain ⟨hnumber, hearlier, hacc⟩ := h.accounted earlier later' k heq'
      have hlt : k < s.snapshots := h.number_lt (heq' ▸ List.mem_append_right _ List.mem_cons_self)
      refine ⟨hnumber, hearlier, ?_⟩
      rcases hacc.append (callsOf_snapshot k s.snapshots) with ⟨f, hf, hk, hd⟩ | ⟨hno, hdue⟩
      · exact Or.inl ⟨f, List.mem_cons_of_mem _ hf, hk, hd⟩
      · refine Or.inr ⟨?_, hdue⟩
        intro f hf
        cases hf with
        | head => exact Nat.ne_of_gt hlt
        | tail _ hf => exact hno f hf

variable {f : Frame} {frames : List Frame}

/-- The innermost call goes on. -/
theorem Inv.moved (h : Inv ev history s) (hs : s.frames = f :: frames) {f' : Frame}
    (hnumber : f'.number = f.number) (hlabels : labels = [] ∨ ∃ c, labels = [.call f.number c])
    (hd : ∀ earlier, Dispatching ev history earlier f → Dispatching ev (history ++ labels) earlier f') :
    Inv ev (history ++ labels) { s with frames := f' :: frames } := by
  have hdistinct := h.distinct
  rw [hs, List.map_cons, List.nodup_cons] at hdistinct
  have hf : f ∈ s.frames := hs ▸ List.mem_cons_self
  have hother : ∀ k, k ≠ f.number → callsOf k (history ++ labels) = callsOf k history := by
    intro k hk
    rcases hlabels with rfl | ⟨c, rfl⟩
    · rw [List.append_nil]
    · exact callsOf_call_of_ne (Ne.symm hk) c
  refine ⟨h.consumers, ?_, ?_, ?_, ?_, ?_, ?_⟩
  · intro e
    rcases hlabels with rfl | ⟨c, rfl⟩
    · rw [List.append_nil]
      exact h.flags e
    · rw [setSince_call]
      exact h.flags e
  · rcases hlabels with rfl | ⟨c, rfl⟩
    · rw [List.append_nil]
      exact h.count
    · rw [List.countP_append, h.count]
      rfl
  · rw [List.map_cons, hnumber, List.nodup_cons]
    exact hdistinct
  · intro g hg
    cases hg with
    | head =>
      rw [hnumber]
      exact List.mem_append_left _ (h.frames f hf)
    | tail _ hg => exact List.mem_append_left _ (h.frames g (hs ▸ List.mem_cons_of_mem _ hg))
  · intro k c hc
    rcases List.mem_append.mp hc with hc | hc
    · exact List.mem_append_left _ (h.calls k c hc)
    · rcases hlabels with rfl | ⟨d, rfl⟩
      · cases hc
      · cases List.mem_singleton.mp hc
        exact List.mem_append_left _ (h.frames f hf)
  · intro earlier later k heq
    have hold : ∃ later', history = earlier ++ .snapshot k :: later' := by
      rcases hlabels with rfl | ⟨c, rfl⟩
      · exact ⟨later, by rw [← heq, List.append_nil]⟩
      · rcases append_eq_split heq with ⟨_, hl, _⟩ | ⟨later', _, heq'⟩
        · cases hl
        · exact ⟨later', heq'⟩
    obtain ⟨later', heq'⟩ := hold
    obtain ⟨hcount, hearlier, hacc⟩ := h.accounted earlier later' k heq'
    refine ⟨hcount, hearlier, ?_⟩
    rw [hs] at hacc
    by_cases hk : k = f.number
    · rcases hacc with ⟨g, hg, hgk, hgd⟩ | ⟨hno, _⟩
      · cases hg with
        | head => exact Or.inl ⟨f', List.mem_cons_self, hnumber.trans hgk, hd earlier hgd⟩
        | tail _ hg => exact absurd (List.mem_map.mpr ⟨g, hg, hgk.trans hk⟩) hdistinct.1
      · exact absurd hk.symm (hno f List.mem_cons_self)
    · rcases hacc.append (hother k hk) with ⟨g, hg, hgk, hgd⟩ | ⟨hno, hdue⟩
      · cases hg with
        | head => exact absurd hgk.symm hk
        | tail _ hg => exact Or.inl ⟨g, List.mem_cons_of_mem _ hg, hgk, hgd⟩
      · refine Or.inr ⟨?_, hdue⟩
        intro g hg
        cases hg with
        | head => rw [hnumber]; exact Ne.symm hk
        | tail _ hg => exact hno g (List.mem_cons_of_mem _ hg)

/-- The innermost call returns. -/
theorem Inv.returned (h : Inv ev history s) (hs : s.frames = f :: frames)
    (hd : ∀ earlier, Dispatching ev history earlier f → callsOf f.number history = due ev earlier) :
    Inv ev history { s with frames := frames } := by
  have hdistinct := h.distinct
  rw [hs, List.map_cons, List.nodup_cons] at hdistinct
  refine ⟨h.consumers, h.flags, h.count, hdistinct.2, ?_, h.calls, ?_⟩
  · intro g hg
    exact h.frames g (hs ▸ List.mem_cons_of_mem _ hg)
  · intro earlier later k heq
    obtain ⟨hcount, hearlier, hacc⟩ := h.accounted earlier later k heq
    refine ⟨hcount, hearlier, ?_⟩
    rw [hs] at hacc
    rcases hacc with ⟨g, hg, hgk, hgd⟩ | ⟨hno, hdue⟩
    · cases hg with
      | head =>
        refine Or.inr ⟨?_, hgk ▸ hd earlier hgd⟩
        intro g hg hnumber
        exact hdistinct.1 (List.mem_map.mpr ⟨g, hg, hnumber.trans hgk.symm⟩)
      | tail _ hg => exact Or.inl ⟨g, hg, hgk, hgd⟩
    · exact Or.inr ⟨fun g hg => hno g (List.mem_cons_of_mem _ hg), hdue⟩

theorem Dispatching.back {earlier : List (Label α)} (hd : Dispatching ev history earlier f)
    (hin : f.inCallback = true) :
    Dispatching ev history earlier { f with index := f.index + 1, inCallback := false } := by
  refine ⟨hd.isSet, hd.anySet, hd.calls.trans ?_⟩
  simp [Frame.reached, hin]

theorem Dispatching.skip {earlier : List (Label α)} (hd : Dispatching ev history earlier f)
    (hout : f.inCallback = false) {c : EventConsumer α} (hc : ev.consumers[f.index]? = some c)
    (hset : f.taken.isSet.getD c.identifier false = false) :
    Dispatching ev history earlier { f with index := f.index + 1 } := by
  refine ⟨hd.isSet, hd.anySet, hd.calls.trans ?_⟩
  rw [hd.isSet] at hset
  simp [Frame.reached, hout, List.take_add_one, hc, hset]

theorem Dispatching.call {earlier : List (Label α)} (hd : Dispatching ev history earlier f)
    (hout : f.inCallback = false) {c : EventConsumer α} (hc : ev.consumers[f.index]? = some c)
    (hset : f.taken.isSet.getD c.identifier false = true) :
    Dispatching ev (history ++ [.call f.number c]) earlier { f with inCallback := true } := by
  refine ⟨hd.isSet, hd.anySet, ?_⟩
  rw [hd.isSet] at hset
  rw [callsOf_call_self, hd.calls]
  simp [Frame.reached, hout, List.take_add_one, hc, hset]

theorem Dispatching.all {earlier : List (Label α)} (hd : Dispatching ev history earlier f)
    (hout : f.inCallback = false) (hend : ev.consumers[f.index]? = none) :
    callsOf f.number history = due ev earlier := by
  rw [hd.calls, Frame.reached, if_neg (by simp [hout]),
    List.take_of_length_le (List.getElem?_eq_none_iff.mp hend), due]

/-- Without an event that was set no consumer is due. -/
theorem Dispatching.none {earlier : List (Label α)} (hd : Dispatching ev history earlier f)
    (hany : f.taken.anySet = false) : callsOf f.number history = due ev earlier := by
  have hno : ∀ l : List (EventConsumer α), (l.filter fun c => setSince earlier c.identifier) = [] := by
    intro l
    rw [List.filter_eq_nil_iff]
    intro c _
    simp [hd.anySet hany]
  rw [hd.calls, due, hno, hno]

theorem Inv.advance (h : Inv ev history s) (hadvance : s.advance = some (labels, s')) :
    Inv ev (history ++ labels) s' := by
  rw [State.advance] at hadvance
  split at hadvance
  · cases hadvance
  · rename_i f frames hs
    split at hadvance
    · rename_i hin
      cases hadvance
      exact h.moved hs rfl (Or.inl rfl) fun earlier hd => by
        rw [List.append_nil]
        exact hd.back hin
    · rename_i hin
      have hout : f.inCallback = false := by simpa using hin
      split at hadvance
      · split at hadvance
        · rename_i c hc
          rw [h.consumers] at hc
          split at hadvance
          · rename_i hset
            cases hadvance
            exact h.moved hs rfl (Or.inr ⟨c, rfl⟩) fun earlier hd => hd.call hout hc hset
          · rename_i hset
            cases hadvance
            exact h.moved hs rfl (Or.inl rfl) fun earlier hd => by
              rw [List.append_nil]
              exact hd.skip hout hc (by simpa using hset)
        · rename_i hend
          rw [h.consumers] at hend
          cases hadvance
          rw [List.append_nil]
          exact h.returned hs fun earlier hd => hd.all hout hend
      · rename_i hany
        cases hadvance
        rw [List.append_nil]
        exact h.returned hs fun earlier hd => hd.none (by simpa using hany)

theorem Inv.step (h : Inv ev history s) (hstep : Step s labels s') : Inv ev (history ++ labels) s' := by
  cases hstep with
  | set i hi => exact h.set hi
  | process _ => exact h.process
  | advance hadvance => exact h.advance hadvance

theorem Run.inv (hreg : Registered ev) (hrun : Run ev history s) : Inv ev history s := by
  induction hrun with
  | start => exact inv_start hreg.wellFormed
  | step _ hstep ih => exact ih.step hstep

/-! ## Returning -/

def Label.IsCall (l : Label α) : Prop := ∃ k c, l = .call k c

/-- What the labels of a call under way lead to when each callback returns. -/
def Ends (ev : Event α) (history : List (Label α)) (event : Event α) (frames : List Frame) : Prop :=
  ∃ rest s', Run ev (history ++ rest) s' ∧ s'.frames = frames ∧ s'.event = event ∧
    ∀ l ∈ rest, Label.IsCall l

theorem Run.pop (hrun : Run ev history s) (h : s.advance = some ([], { s with frames := frames })) :
    Ends ev history s.event frames :=
  ⟨[], _, hrun.step (.advance h), rfl, rfl, fun l hl => by cases hl⟩

/-- From outside a callback the innermost call gets to its end. -/
theorem Run.returns_of_out {n : Nat} (hrun : Run ev history s) (hs : s.frames = f :: frames)
    (hout : f.inCallback = false) (hn : s.event.consumers.length - f.index = n) :
    Ends ev history s.event frames := by
  induction n generalizing history s f with
  | zero =>
    have hend : s.event.consumers[f.index]? = none := List.getElem?_eq_none_iff.mpr (by omega)
    apply hrun.pop
    cases hany : f.taken.anySet <;> simp [State.advance, hs, hout, hany, hend]
  | succ n ih =>
    cases hany : f.taken.anySet with
    | false => exact hrun.pop (by simp [State.advance, hs, hout, hany])
    | true =>
      have hlt : f.index < s.event.consumers.length := by omega
      have hc := List.getElem?_eq_getElem hlt
      generalize s.event.consumers[f.index] = c at hc
      cases hset : f.taken.isSet[c.identifier]?.getD false with
      | false =>
        have hskip : s.advance = some ([],
            { s with frames := { f with index := f.index + 1 } :: frames }) := by
          simp [State.advance, hs, hout, hany, hc, hset]
        have hrun₁ := hrun.step (.advance hskip)
        rw [List.append_nil] at hrun₁
        have hends := ih hrun₁ rfl hout (by simp only; omega)
        exact hends
      | true =>
        have hcall : s.advance = some ([.call f.number c],
            { s with frames := { f with inCallback := true } :: frames }) := by
          simp [State.advance, hs, hout, hany, hc, hset]
        have hrun₁ := hrun.step (.advance hcall)
        have hrun₂ := hrun₁.step (.advance rfl)
        rw [List.append_nil] at hrun₂
        obtain ⟨rest, s', hrun', hs', hevent, hrest⟩ := ih hrun₂ rfl rfl (by simp only; omega)
        refine ⟨.call f.number c :: rest, s', ?_, hs', hevent, ?_⟩
        · rw [List.append_cons]
          exact hrun'
        · intro l hl
          cases hl with
          | head => exact ⟨_, _, rfl⟩
          | tail _ hl => exact hrest l hl

/-- The innermost call returns, when each callback does. -/
theorem Run.returns (hrun : Run ev history s) (hs : s.frames = f :: frames) :
    Ends ev history s.event frames := by
  cases hin : f.inCallback with
  | false => exact hrun.returns_of_out hs hin rfl
  | true =>
    have hback : s.advance = some ([],
        { s with frames := { f with index := f.index + 1, inCallback := false } :: frames }) := by
      simp [State.advance, hs, hin]
    have hrun' := hrun.step (.advance hback)
    rw [List.append_nil] at hrun'
    exact hrun'.returns_of_out rfl rfl rfl

/-- All calls under way return, when each callback does. -/
theorem Run.returns_all (hrun : Run ev history s) :
    ∃ rest s', Run ev (history ++ rest) s' ∧ s'.frames = [] ∧ ∀ l ∈ rest, Label.IsCall l := by
  generalize hs : s.frames = frames
  induction frames generalizing history s with
  | nil => exact ⟨[], s, by rw [List.append_nil]; exact hrun, hs, fun l hl => by cases hl⟩
  | cons f frames ih =>
    obtain ⟨rest₁, s₁, hrun₁, hs₁, _, hrest₁⟩ := hrun.returns hs
    obtain ⟨rest₂, s₂, hrun₂, hs₂, hrest₂⟩ := ih hrun₁ hs₁
    refine ⟨rest₁ ++ rest₂, s₂, by rw [← List.append_assoc]; exact hrun₂, hs₂, ?_⟩
    intro l hl
    rcases List.mem_append.mp hl with hl | hl
    · exact hrest₁ l hl
    · exact hrest₂ l hl

/-! ## No lost and no phantom events -/

/-- In every run, the call of `fd_event_process` with the `k`-th snapshot calls in their order the
consumers of the events that have been set since the snapshot before, each one once: some of them as
long as it is under way, and all of them when it has returned, which only a callback can keep it from. -/
theorem run_calls (hreg : Registered ev) (hrun : Run ev history s) :
    (∀ k c, .call k c ∈ history → ∃ earlier later, history = earlier ++ .snapshot k :: later ∧
      .call k c ∈ later ∧ c ∈ ev.consumers ∧ setSince earlier c.identifier = true) ∧
    (∀ earlier later k, history = earlier ++ .snapshot k :: later →
      k = earlier.countP Label.isSnapshot ∧ callsOf k earlier = [] ∧ callsOf k later <+: due ev earlier ∧
        ((∀ f ∈ s.frames, f.number ≠ k) → callsOf k later = due ev earlier)) ∧
    ∃ rest s', Run ev (history ++ rest) s' ∧ s'.frames = [] ∧ ∀ l ∈ rest, Label.IsCall l := by
  have hinv := hrun.inv hreg
  have hcalls : ∀ earlier later k, history = earlier ++ .snapshot k :: later →
      k = earlier.countP Label.isSnapshot ∧ callsOf k earlier = [] ∧ callsOf k later <+: due ev earlier ∧
        ((∀ f ∈ s.frames, f.number ≠ k) → callsOf k later = due ev earlier) := by
    intro earlier later k heq
    obtain ⟨hcount, hearlier, hacc⟩ := hinv.accounted earlier later k heq
    have hlater : callsOf k history = callsOf k later := by
      rw [heq, ← List.singleton_append, ← List.append_assoc, callsOf_append, callsOf_snapshot, hearlier,
        List.nil_append]
    refine ⟨hcount, hearlier, ?_⟩
    rw [← hlater]
    rcases hacc with ⟨f, hf, rfl, hd⟩ | ⟨_, hdue⟩
    · refine ⟨?_, fun hno => absurd rfl (hno f hf)⟩
      rw [hd.calls]
      exact (List.take_prefix _ _).filter _
    · exact ⟨hdue ▸ List.prefix_rfl, fun _ => hdue⟩
  refine ⟨?_, hcalls, hrun.returns_all⟩
  intro k c hc
  obtain ⟨earlier, later, heq⟩ := List.append_of_mem (hinv.calls k c hc)
  obtain ⟨_, hearlier, hcalled, _⟩ := hcalls earlier later k heq
  have hlater : .call k c ∈ later := by
    rw [heq, List.mem_append, List.mem_cons] at hc
    rcases hc with hc | hc | hc
    · have hmem := mem_callsOf.mpr hc
      rw [hearlier] at hmem
      cases hmem
    · cases hc
    · exact hc
  have hdue := List.mem_filter.mp (hcalled.subset (mem_callsOf.mpr hlater))
  exact ⟨earlier, later, heq, hlater, hdue.1, hdue.2⟩

/-- One event with one consumer. -/
def ticking : Event Unit := ((initializeWith Unit).getIdentifier "tick").2.addCallback 0 ()

/-- Set twice, and processed by one call. -/
theorem run_calls_sample :
    due ticking [.set 0, .set 0] = [⟨0, ()⟩] ∧
      callsOf 0 [.call 0 (⟨0, ()⟩ : EventConsumer Unit)] = due ticking [.set 0, .set 0] := by
  have hreg : Registered ticking :=
    .consumer 0 () (.item "tick" .start (by decide)) (by decide) (by decide)
  have hrun := (((((@Run.start _ ticking).step (.set 0 (by decide))).step
    (.set 0 (by decide))).step (.process (fun f hf => by cases hf))).step (.advance rfl)).step (.advance rfl)
      |>.step (.advance rfl)
  refine ⟨rfl, ?_⟩
  exact ((run_calls hreg hrun).2.1 [.set 0, .set 0] [.call 0 ⟨0, ()⟩] 0 rfl).2.2.2
    (fun f hf => by cases hf)

end Event
end Firefly
