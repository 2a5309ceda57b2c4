import Firefly.Lib.Words
import Firefly.Ux.Button

/-!
# Firefly.Ux.Debounce

Which events the debouncing sends. What happens to one button depends on its own bit of the samples
only: it is an automaton of four flags (`Lane`), and the code runs one for each button (`lane_check`,
`lane_timeout`, `eventsOf_timeout`). Between two cycles of a debounced sequence its state is `up`,
`held` or `bounced`, unless a button that bounced is down at both samples of the next cycle
(`HeldBounce`). The release that was noted during the bounce is then sent although the button is
down, and one more when it is let go.

* `wellFormed_iff`: the events of each button are well formed if and only if that does not happen.
-/

namespace Firefly.Ux

open Words

/-- What the automaton of a button knows of it: whether it is down in the latest sample, has a press,
has a release, and whether the press was sent. -/
structure Lane where
  down : Bool
  press : Bool
  release : Bool
  sent : Bool
  deriving Repr, DecidableEq

namespace Lane

def up : Lane := ⟨false, false, false, false⟩

def held : Lane := ⟨true, true, false, true⟩

/-- Up at a change and down again when its timer expired. -/
def bounced : Lane := ⟨true, true, true, true⟩

def change (l : Lane) (b : Bool) : Lane :=
  ⟨b, l.press || (b && !l.down), l.release || (!b && l.down), l.sent⟩

def timeout (l : Lane) (b : Bool) : Lane × List Action :=
  let v := l.change b
  if v.press && v.sent && (b && !l.down) then (v, [])
  else
    let sent := if v.press && !v.sent then [Action.pressed] else []
    if v.release then (⟨b, false, false, false⟩, sent ++ [.released])
    else ({ v with sent := v.sent || v.press }, sent)

end Lane

def ButtonState.lane (state : ButtonState) (down : Bool) : Lane :=
  ⟨down, decide (state.pressTimestamp ≠ 0), decide (state.releaseTimestamp ≠ 0), state.pressSent⟩

theorem getLsbD_and_not (x y : BitVec 32) (i : Nat) :
    (x &&& ~~~y).getLsbD i = (x.getLsbD i && !y.getLsbD i) := by
  rw [BitVec.getLsbD_and, BitVec.getLsbD_not]
  by_cases hi : i < 32
  · rw [decide_eq_true hi, Bool.true_and]
  · rw [BitVec.getLsbD_of_ge x i (by omega), Bool.false_and, Bool.false_and]

namespace UxButton

variable {limit : Nat} {u : UxButton limit} {i : Nat}

def lane (u : UxButton limit) (i : Nat) (hi : i < limit) : Lane :=
  u.states[i].lane (u.buttons.getLsbD i)

/-- The events of button `i`. -/
def eventsOf (i : Nat) (events : List ButtonEvent) : List Action :=
  (events.filter fun e => e.buttons = bit i).map ButtonEvent.action

/-! ## The automaton of a button -/

theorem lane_stamp {button pressed released buttons : BitVec 32} {timestamp : ℚ} (ht : 0 < timestamp)
    {state : ButtonState} {l : Lane} {b down : Bool} (hs : state.lane down = l)
    (hpressed : button &&& pressed ≠ 0 ↔ (b && !down) = true)
    (hreleased : button &&& released ≠ 0 ↔ (!b && down) = true) :
    (chord buttons (stamp button pressed released timestamp state)).lane b = l.change b := by
  subst hs
  have hne : timestamp ≠ 0 := ne_of_gt ht
  have hpress : (decide ((if button &&& pressed ≠ 0 then timestamp else state.pressTimestamp) ≠ 0)) =
      (decide (state.pressTimestamp ≠ 0) || (b && !down)) := by
    by_cases h : button &&& pressed ≠ 0
    · rw [if_pos h, hpressed.mp h, Bool.or_true, decide_eq_true hne]
    · rw [if_neg h, Bool.eq_false_iff.mpr (mt hpressed.mpr h), Bool.or_false]
  have hrelease : (decide ((if button &&& released ≠ 0 then timestamp else state.releaseTimestamp) ≠ 0)) =
      (decide (state.releaseTimestamp ≠ 0) || (!b && down)) := by
    by_cases h : button &&& released ≠ 0
    · rw [if_pos h, hreleased.mp h, Bool.or_true, decide_eq_true hne]
    · rw [if_neg h, Bool.eq_false_iff.mpr (mt hreleased.mpr h), Bool.or_false]
  rw [ButtonState.lane, Lane.change, ButtonState.lane]
  exact congrArg₂ (fun p r => Lane.mk b p r state.pressSent) hpress hrelease

theorem lane_check (u : UxButton limit) (hi : i < limit) (buttons : BitVec 32) {timestamp : ℚ}
    (ht : 0 < timestamp) :
    ((u.check buttons timestamp).states[i]).lane (buttons.getLsbD i) =
      (u.lane i hi).change (buttons.getLsbD i) := by
  have hpressed : bit i &&& (buttons &&& ~~~u.buttons) ≠ 0 ↔
      (buttons.getLsbD i && !u.buttons.getLsbD i) = true := by
    rw [bit_and_ne_zero, getLsbD_and_not]
  have hreleased : bit i &&& (~~~buttons &&& u.buttons) ≠ 0 ↔
      (!buttons.getLsbD i && u.buttons.getLsbD i) = true := by
    rw [bit_and_ne_zero, BitVec.and_comm, getLsbD_and_not, Bool.and_comm]
  simp only [check, Vector.getElem_map, Vector.getElem_mapIdx]
  exact lane_stamp ht rfl hpressed hreleased

theorem lane_timeoutState {state : ButtonState} {l : Lane} {b : Bool} {button pressed : BitVec 32}
    (holds : BitVec 32) (hs : state.lane b = l.change b)
    (hp : button &&& pressed ≠ 0 ↔ (b && !l.down) = true) :
    (timeoutState button holds pressed state).1.lane b = (l.timeout b).1 ∧
      (timeoutState button holds pressed state).2.map ButtonEvent.action = (l.timeout b).2 := by
  obtain ⟨press, release, chords, sent⟩ := state
  simp only [Lane.timeout, timeoutState, ← hs, hp, ButtonState.lane]
  by_cases hpress : press = 0 <;> by_cases hrelease : release = 0 <;> cases sent <;>
    cases b && !l.down <;> simp [hpress, hrelease, ButtonState.zero]

theorem buttons_of_mem_timeoutState {state : ButtonState} {button holds pressed : BitVec 32}
    {e : ButtonEvent} (he : e ∈ (timeoutState button holds pressed state).2) : e.buttons = button := by
  rw [timeoutState] at he
  split at he
  · cases he
  · dsimp only at he
    split at he <;> split at he <;> simp at he
    · cases he with
      | inl h => rw [h]
      | inr h => rw [h]
    · rw [he]
    · rw [he]

theorem flatMap_eq_of_forall_ne {α β : Type} {f : α → List β} {l : List α} {i : Nat} (hi : i < l.length)
    (h : ∀ j (hj : j < l.length), j ≠ i → f l[j] = []) : l.flatMap f = f l[i] := by
  induction l generalizing i with
  | nil => cases hi
  | cons a l ih =>
    rw [List.flatMap_cons]
    cases i with
    | zero =>
      have hrest : l.flatMap f = [] := by
        rw [List.flatMap_eq_nil_iff]
        intro x hx
        obtain ⟨j, hj, rfl⟩ := List.getElem_of_mem hx
        exact h (j + 1) (Nat.succ_lt_succ hj) (Nat.succ_ne_zero j)
      rw [hrest, List.append_nil, List.getElem_cons_zero]
    | succ i =>
      rw [show f a = [] from h 0 (Nat.succ_pos _) (Nat.succ_ne_zero i).symm, List.nil_append,
        List.getElem_cons_succ]
      apply ih (Nat.lt_of_succ_lt_succ hi)
      intro j hj hne
      exact h (j + 1) (Nat.succ_lt_succ hj) (mt Nat.succ.inj hne)

/-- A button without a bit in the mask never leaves the state `up`. -/
def Idle (u : UxButton limit) : Prop :=
  ∀ i (hi : i < limit), 32 ≤ i → u.lane i hi = Lane.up

theorem lane_timeout (u : UxButton limit) (hi : i < limit) (buttons : BitVec 32) {timestamp : ℚ}
    (ht : 0 < timestamp) :
    (u.timeoutLogic buttons timestamp).1.lane i hi = ((u.lane i hi).timeout (buttons.getLsbD i)).1 ∧
      (timeoutState (bit i) (buttons ||| u.buttons) (buttons &&& ~~~u.buttons)
        ((u.check buttons timestamp).states[i])).2.map ButtonEvent.action =
        ((u.lane i hi).timeout (buttons.getLsbD i)).2 := by
  have hp : bit i &&& (buttons &&& ~~~u.buttons) ≠ 0 ↔
      (buttons.getLsbD i && !(u.lane i hi).down) = true := by
    rw [bit_and_ne_zero, getLsbD_and_not, lane, ButtonState.lane]
  have h := lane_timeoutState (buttons ||| u.buttons) (lane_check u hi buttons ht) hp
  refine ⟨?_, h.2⟩
  rw [← h.1, lane, timeoutLogic]
  simp only [Vector.getElem_map, Vector.getElem_mapIdx]

theorem eventsOf_timeout (hidle : u.Idle) (hi : i < limit) (buttons : BitVec 32) {timestamp : ℚ}
    (ht : 0 < timestamp) :
    eventsOf i (u.timeoutLogic buttons timestamp).2 = ((u.lane i hi).timeout (buttons.getLsbD i)).2 := by
  have hother : ∀ j (hj : j < limit), j ≠ i →
      (timeoutState (bit j) (buttons ||| u.buttons) (buttons &&& ~~~u.buttons)
        ((u.check buttons timestamp).states[j])).2.filter (fun e => e.buttons = bit i) = [] := by
    intro j hj hne
    by_cases hbit : bit j = bit i
    · have hj32 : 32 ≤ j := Nat.le_of_not_lt fun h => hne (bit_inj h hbit)
      have hnone := (lane_timeout u hj buttons ht).2
      rw [hidle j hj hj32, BitVec.getLsbD_of_ge _ _ hj32] at hnone
      rw [List.map_eq_nil_iff.mp hnone, List.filter_nil]
    · rw [List.filter_eq_nil_iff]
      intro e he
      rw [buttons_of_mem_timeoutState he]
      simpa using hbit
  have hown : (timeoutState (bit i) (buttons ||| u.buttons) (buttons &&& ~~~u.buttons)
      ((u.check buttons timestamp).states[i])).2.filter (fun e => e.buttons = bit i) =
      (timeoutState (bit i) (buttons ||| u.buttons) (buttons &&& ~~~u.buttons)
        ((u.check buttons timestamp).states[i])).2 := by
    rw [List.filter_eq_self]
    intro e he
    exact decide_eq_true (buttons_of_mem_timeoutState he)
  rw [← (lane_timeout u hi buttons ht).2, ← hown, eventsOf, timeoutLogic]
  dsimp only
  rw [List.filter_flatMap]
  have hi' : i < ((u.check buttons timestamp).states.mapIdx fun i state =>
      timeoutState (bit i) (buttons ||| u.buttons) (buttons &&& ~~~u.buttons) state).toList.length := by
    rw [Vector.length_toList]
    exact hi
  rw [flatMap_eq_of_forall_ne hi']
  · rw [Vector.getElem_toList, Vector.getElem_mapIdx]
  · intro j hj hne
    rw [Vector.length_toList] at hj
    rw [Vector.getElem_toList, Vector.getElem_mapIdx]
    exact hother j hj hne

end UxButton

/-! ## Debounced sequences -/

/-- What the two calls of each cycle sample. -/
def cycles : List Call → List (BitVec 32 × BitVec 32)
  | .change buttons _ :: .timeout buttons' _ :: calls => (buttons, buttons') :: cycles calls
  | _ => []

def samples (i : Nat) (calls : List Call) : List (Bool × Bool) :=
  (cycles calls).map fun c => (c.1.getLsbD i, c.2.getLsbD i)

theorem samples_nil (i : Nat) : samples i [] = [] := rfl

theorem samples_pending (i : Nat) (buttons : BitVec 32) (timestamp : ℚ) :
    samples i [.change buttons timestamp] = [] := rfl

theorem samples_cycle (i : Nat) (buttons buttons' : BitVec 32) (timestamp timestamp' : ℚ)
    (calls : List Call) :
    samples i (.change buttons timestamp :: .timeout buttons' timestamp' :: calls) =
      (buttons.getLsbD i, buttons'.getLsbD i) :: samples i calls := rfl

/-- Three cycles in a row: the button ends down, is up at the change and down at the timeout, and is
down at both. -/
def Bounces (samples : List (Bool × Bool)) : Prop :=
  ∃ b, [(b, true), (false, true), (true, true)] <:+: samples

def HeldBounce (i : Nat) (calls : List Call) : Prop := Bounces (samples i calls)

instance instDecidableBounces (l : List (Bool × Bool)) : Decidable (Bounces l) :=
  inferInstanceAs (Decidable (∃ _, _))

instance instDecidableHeldBounce (i : Nat) (calls : List Call) : Decidable (HeldBounce i calls) :=
  instDecidableBounces (samples i calls)

theorem bounces_cons {b c : Bool} {l : List (Bool × Bool)} :
    Bounces ((b, c) :: l) ↔ (c = true ∧ [(false, true), (true, true)] <+: l) ∨ Bounces l := by
  constructor
  · intro h
    obtain ⟨b', h⟩ := h
    rw [List.infix_cons_iff, List.cons_prefix_cons] at h
    cases h with
    | inl h =>
      injection h.1 with _ hc
      exact Or.inl ⟨hc.symm, h.2⟩
    | inr h => exact Or.inr ⟨b', h⟩
  · intro h
    cases h with
    | inl h =>
      obtain ⟨rfl, h⟩ := h
      exact ⟨b, List.infix_cons_iff.mpr (Or.inl (List.cons_prefix_cons.mpr ⟨rfl, h⟩))⟩
    | inr h =>
      obtain ⟨b', h⟩ := h
      exact ⟨b', List.infix_cons_iff.mpr (Or.inr h)⟩

theorem Bounces.length {l : List (Bool × Bool)} (h : Bounces l) : 3 ≤ l.length := by
  obtain ⟨b, h⟩ := h
  exact h.length_le

namespace Lane

/-- The states between two cycles. -/
def Steady (l : Lane) : Prop := l = up ∨ l = held ∨ l = bounced

/-- Cycles that lead to a steady state. -/
def past (l : Lane) : List (Bool × Bool) :=
  if l.release then [(false, true), (false, true)] else if l.down then [(false, true)] else []

theorem not_bounces_past {l : Lane} (hl : l.Steady) : ¬ Bounces l.past := by
  intro h
  have hlen := h.length
  rcases hl with rfl | rfl | rfl <;> simp [past, up, held, bounced] at hlen

/-- A cycle from a steady state, except for the one that sends the release of a bounce. -/
structure CycleSpec (l l' : Lane) (b b' : Bool) (sent : List Action) : Prop where
  steady : l'.Steady
  alternates : Alternates l.down (sent.map Action.isPressed)
  last : (sent.map Action.isPressed).getLast?.getD l.down = l'.down
  released : Action.released ∈ sent → b' = false
  bounces : ∀ s, Bounces (l.past ++ (b, b') :: s) ↔ Bounces (l'.past ++ s)

theorem cycle {l : Lane} (hl : l.Steady) {b b' : Bool} (h : ¬ (l = bounced ∧ b = true ∧ b' = true)) :
    CycleSpec l ((l.change b).timeout b').1 b b' ((l.change b).timeout b').2 := by
  rcases hl with rfl | rfl | rfl <;> cases b <;> cases b'
  all_goals first
    | exact absurd ⟨rfl, rfl, rfl⟩ h
    | constructor
      · unfold Steady
        decide
      · simp [change, timeout, up, held, bounced, Alternates, Action.isPressed]
      · rfl
      · decide
      · intro s
        simp [change, timeout, up, held, bounced, past, bounces_cons]

theorem cycle_bounced :
    (bounced.change true).timeout true = (⟨true, false, false, false⟩, [.released]) := rfl

end Lane

namespace UxButton

variable {limit : Nat}

/-- The calls send a release of button `i` only in a timeout that samples it up. -/
def ReleasedUp (i : Nat) : UxButton limit → List Call → Prop
  | _, [] => True
  | u, .change buttons timestamp :: calls => ReleasedUp i (u.changeLogic buttons timestamp) calls
  | u, .timeout buttons timestamp :: calls =>
    (∀ e ∈ (u.timeoutLogic buttons timestamp).2, e.buttons = bit i → e.action = .released →
      bit i &&& buttons = 0) ∧ ReleasedUp i (u.timeoutLogic buttons timestamp).1 calls

/-- The events of button `i`, where the first argument tells whether it is taken to be pressed. -/
def WellFormed (down : Bool) (i : Nat) (u : UxButton limit) (calls : List Call) : Prop :=
  Alternates down ((eventsOf i (u.events calls)).map Action.isPressed) ∧ u.ReleasedUp i calls

variable {u : UxButton limit} {i : Nat}

theorem releasedUp_iff {events : List ButtonEvent} {buttons : BitVec 32} :
    (∀ e ∈ events, e.buttons = bit i → e.action = .released → bit i &&& buttons = 0) ↔
      (.released ∈ eventsOf i events → buttons.getLsbD i = false) := by
  have hzero : bit i &&& buttons = 0 ↔ buttons.getLsbD i = false := by
    rw [← Bool.not_eq_true, ← bit_and_ne_zero, not_not]
  rw [hzero, eventsOf, List.mem_map]
  constructor
  · rintro h ⟨e, he, haction⟩
    rw [List.mem_filter] at he
    exact h e he.1 (of_decide_eq_true he.2) haction
  · intro h e he hbuttons haction
    exact h ⟨e, List.mem_filter.mpr ⟨he, decide_eq_true hbuttons⟩, haction⟩

theorem Idle.changeLogic (h : u.Idle) (buttons : BitVec 32) {timestamp : ℚ} (ht : 0 < timestamp) :
    (u.changeLogic buttons timestamp).Idle := by
  intro i hi h32
  have hlane := lane_check u hi buttons ht
  rw [h i hi h32, BitVec.getLsbD_of_ge _ _ h32] at hlane
  rw [lane, UxButton.changeLogic, BitVec.getLsbD_of_ge _ _ h32]
  exact hlane

theorem Idle.timeoutLogic (h : u.Idle) (buttons : BitVec 32) {timestamp : ℚ} (ht : 0 < timestamp) :
    (u.timeoutLogic buttons timestamp).1.Idle := by
  intro i hi h32
  rw [(lane_timeout u hi buttons ht).1, h i hi h32, BitVec.getLsbD_of_ge _ _ h32]
  rfl

theorem eventsOf_append (i : Nat) (as bs : List ButtonEvent) :
    eventsOf i (as ++ bs) = eventsOf i as ++ eventsOf i bs := by
  rw [eventsOf, List.filter_append, List.map_append]
  rfl

theorem wellFormed_cycle {isOpen : Bool} {buttons buttons' : BitVec 32} {timestamp timestamp' : ℚ}
    {calls : List Call} {sent : List Action}
    (hsent : eventsOf i ((u.changeLogic buttons timestamp).timeoutLogic buttons' timestamp').2 = sent) :
    u.WellFormed isOpen i (.change buttons timestamp :: .timeout buttons' timestamp' :: calls) ↔
      (Alternates isOpen (sent.map Action.isPressed) ∧ (.released ∈ sent → buttons'.getLsbD i = false)) ∧
        ((u.changeLogic buttons timestamp).timeoutLogic buttons' timestamp').1.WellFormed
          ((sent.map Action.isPressed).getLast?.getD isOpen) i calls := by
  have hevents : eventsOf i (u.events (.change buttons timestamp :: .timeout buttons' timestamp' :: calls)) =
      sent ++ eventsOf i
        (((u.changeLogic buttons timestamp).timeoutLogic buttons' timestamp').1.events calls) := by
    rw [events, events, eventsOf_append, eventsOf_append, ← hsent]
    rfl
  rw [WellFormed, WellFormed, hevents, List.map_append, alternates_append, ReleasedUp, ReleasedUp,
    releasedUp_iff, hsent]
  exact and_and_and_comm

theorem wellFormed_lane (hi : i < limit) {calls : List Call} (h : Debounced calls)
    (ht : ∀ c ∈ calls, 0 < c.timestamp) (hidle : u.Idle) (hl : (u.lane i hi).Steady) :
    u.WellFormed (u.lane i hi).down i calls ↔ ¬ Bounces ((u.lane i hi).past ++ samples i calls) := by
  induction h generalizing u with
  | none =>
    rw [samples_nil, List.append_nil]
    exact ⟨fun _ => Lane.not_bounces_past hl, fun _ => ⟨trivial, trivial⟩⟩
  | pending buttons timestamp =>
    rw [samples_pending, List.append_nil]
    exact ⟨fun _ => Lane.not_bounces_past hl, fun _ => ⟨trivial, trivial⟩⟩
  | @cycle buttons buttons' timestamp timestamp' calls h ih =>
    have hchange : 0 < timestamp := ht _ List.mem_cons_self
    have htimeout : 0 < timestamp' := ht _ (List.mem_cons_of_mem _ List.mem_cons_self)
    have hrest : ∀ c ∈ calls, 0 < c.timestamp := fun c hc =>
      ht c (List.mem_cons_of_mem _ (List.mem_cons_of_mem _ hc))
    have hidleChange := hidle.changeLogic buttons hchange
    have hlane := (lane_timeout (u.changeLogic buttons timestamp) hi buttons' htimeout).1
    have hsent := eventsOf_timeout hidleChange hi buttons' htimeout
    rw [show (u.changeLogic buttons timestamp).lane i hi = (u.lane i hi).change (buttons.getLsbD i) from
      lane_check u hi buttons hchange] at hlane hsent
    rw [wellFormed_cycle hsent, samples_cycle]
    by_cases hbounced : u.lane i hi = Lane.bounced ∧ buttons.getLsbD i = true ∧ buttons'.getLsbD i = true
    · obtain ⟨hbounced, hb, hb'⟩ := hbounced
      rw [hbounced, hb, hb', Lane.cycle_bounced]
      constructor
      · intro hformed
        cases hformed.1.2 List.mem_cons_self
      · intro hnone
        exact absurd ⟨false, [], samples i calls, rfl⟩ hnone
    · have hcycle := Lane.cycle hl hbounced
      rw [hcycle.last, hcycle.bounces, ← hlane, and_iff_right ⟨hcycle.alternates, hcycle.released⟩]
      apply ih hrest (hidleChange.timeoutLogic buttons' htimeout)
      rw [hlane]
      exact hcycle.steady

theorem lane_init (hi : i < limit) : (init limit).lane i hi = Lane.up := by
  simp [lane, init, ButtonState.lane, ButtonState.zero, Lane.up]

/-- The events of every button are well formed if and only if no button that bounced is still down
in the next cycle. -/
theorem wellFormed_iff (limit : Nat) {calls : List Call} (h : Debounced calls)
    (ht : ∀ c ∈ calls, 0 < c.timestamp) :
    (∀ i < limit, (init limit).WellFormed false i calls) ↔ ∀ i < limit, ¬ HeldBounce i calls := by
  have hlane : ∀ i < limit, (init limit).WellFormed false i calls ↔ ¬ HeldBounce i calls := by
    intro i hi
    have hsteady : ((init limit).lane i hi).Steady := Or.inl (lane_init hi)
    have hiff := wellFormed_lane hi h ht (fun j hj _ => lane_init hj) hsteady
    rw [lane_init hi] at hiff
    exact hiff
  exact forall₂_congr hlane

end UxButton

/-! ## Samples -/

/-- A press that bounces once and is let go in the next cycle. -/
def bouncedPress : List Call :=
  [.change 1 1, .timeout 1 2, .change 0 3, .timeout 1 4, .change 0 5, .timeout 0 6]

/-- The same press, held for one more cycle. -/
def bouncedHold : List Call :=
  [.change 1 1, .timeout 1 2, .change 0 3, .timeout 1 4, .change 1 5, .timeout 1 6, .change 0 7, .timeout 0 8]

theorem wellFormed_bouncedPress : (UxButton.init 2).WellFormed false 0 bouncedPress ∧
    (UxButton.init 2).WellFormed false 1 bouncedPress := by
  have hdebounced : Debounced bouncedPress :=
    .cycle _ _ _ _ (.cycle _ _ _ _ (.cycle _ _ _ _ .none))
  have hpositive : ∀ c ∈ bouncedPress, 0 < c.timestamp := by decide +kernel
  have hformed := (UxButton.wellFormed_iff 2 hdebounced hpositive).mpr (by decide)
  exact ⟨hformed 0 (by decide), hformed 1 (by decide)⟩

/-- The release of the bounce is sent while the button is down, and its own release without a press. -/
theorem not_wellFormed_bouncedHold :
    ¬ ∀ calls, Debounced calls → (∀ c ∈ calls, 0 < c.timestamp) →
      (calls.map Call.timestamp).Pairwise (· < ·) →
        ∀ i < 2, (UxButton.init 2).WellFormed false i calls := by
  intro h
  have hdebounced : Debounced bouncedHold :=
    .cycle _ _ _ _ (.cycle _ _ _ _ (.cycle _ _ _ _ (.cycle _ _ _ _ .none)))
  have hformed := h bouncedHold hdebounced (by decide +kernel) (by decide +kernel) 0 Nat.two_pos
  have hevents : UxButton.eventsOf 0 ((UxButton.init 2).events bouncedHold) =
      [.pressed, .released, .released] := by decide +kernel
  have halternates := hformed.1
  rw [hevents] at halternates
  cases halternates.2.2.1

end Firefly.Ux
