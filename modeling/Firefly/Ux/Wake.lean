import Mathlib.Data.List.Induction
import Firefly.Lib.Words
import Firefly.Ux.Button

/-!
# Firefly.Ux.Wake

Which events the active screen gets. A press that comes while the user interface is not on wakes it
and is kept from the screen, and so shall its release be, for which `consumeRelease` is set. The flag
does not say whose release it stands for: the first release of any button spends it, and the release
of the press that woke the user interface then reaches the screen (`Stolen`).

* `consumeRelease_iff`: what the flag says about the inputs so far.
* `matched`: without a stolen release, the screen gets no release without its press.
-/

namespace Firefly.Ux

open Words

inductive Input where
  | event (e : ButtonEvent)
  | setState (state : UxState)

namespace Input

def events : List Input → List ButtonEvent
  | [] => []
  | .event e :: inputs => e :: events inputs
  | .setState _ :: inputs => events inputs

end Input

structure Receiver (limit : Nat) where
  ux : Ux
  button : UxButton limit
  delivered : List ButtonEvent

namespace Receiver

variable {limit : Nat}

def step (r : Receiver limit) : Input → Receiver limit
  | .event e =>
    let (ux, button, delivered) := r.button.event r.ux e
    ⟨ux, button, r.delivered ++ delivered.toList⟩
  | .setState state => { r with ux := r.ux.setState state }

def run (r : Receiver limit) (inputs : List Input) : Receiver limit := inputs.foldl step r

/-- Before the first input. -/
def init (limit : Nat) (ux : Ux) : Receiver limit := ⟨ux, .init limit, []⟩

end Receiver

/-! ## What the inputs say -/

/-- The state of the user interface after inputs that it gets in the state `s`. -/
def stateAfter (s : UxState) (inputs : List Input) : UxState :=
  inputs.foldl (fun s x => match x with
    | .event e => if e.action = .pressed then .on else s
    | .setState state => state) s

/-- The event `e` after the inputs `p` wakes the user interface. -/
def Wakes (s : UxState) (p : List Input) (e : ButtonEvent) : Prop :=
  e.action = .pressed ∧ stateAfter s p ≠ .on

/-- The last event of the button woke the user interface. -/
def Woken (s : UxState) (p : List Input) (buttons : BitVec 32) : Prop :=
  ∃ l₁ e l₂, p = l₁ ++ .event e :: l₂ ∧ Wakes s l₁ e ∧ e.buttons = buttons ∧
    ∀ e', .event e' ∈ l₂ → e'.buttons ≠ buttons

/-- A press woke the user interface, and no release of any button came since then while it was on. -/
def Awaits (s : UxState) (p : List Input) : Prop :=
  ∃ l₁ e l₂, p = l₁ ++ .event e :: l₂ ∧ Wakes s l₁ e ∧
    ∀ m e' n, l₂ = m ++ .event e' :: n → e'.action = .released → stateAfter s (l₁ ++ .event e :: m) ≠ .on

/-- The release of a press that woke the user interface comes while it is on, and another release
came while it was on since the last press that woke it. -/
def Stolen (s : UxState) (inputs : List Input) : Prop :=
  ∃ p e q, inputs = p ++ .event e :: q ∧ e.action = .released ∧ stateAfter s p = .on ∧
    Woken s p e.buttons ∧ ¬ Awaits s p

theorem stateAfter_snoc (s : UxState) (p : List Input) (x : Input) :
    stateAfter s (p ++ [x]) = stateAfter (stateAfter s p) [x] := List.foldl_append

theorem woken_snoc {s : UxState} {p : List Input} {x : Input} {buttons : BitVec 32} :
    Woken s (p ++ [x]) buttons ↔ (∃ e, x = .event e ∧ Wakes s p e ∧ e.buttons = buttons) ∨
      (Woken s p buttons ∧ ∀ e, x = .event e → e.buttons ≠ buttons) := by
  constructor
  · rintro ⟨l₁, e, l₂, heq, hwakes, hbuttons, hnone⟩
    cases snoc_eq_append_cons heq with
    | inl hlast =>
      obtain ⟨rfl, hx, -⟩ := hlast
      exact Or.inl ⟨e, hx.symm, hwakes, hbuttons⟩
    | inr hinner =>
      obtain ⟨l, rfl, hp⟩ := hinner
      refine Or.inr ⟨⟨l₁, e, l, hp, hwakes, hbuttons, fun e' he' => ?_⟩, fun e' he' => ?_⟩
      · exact hnone e' (List.mem_append_left _ he')
      · exact hnone e' (List.mem_append_right _ (List.mem_singleton.mpr he'.symm))
  · rintro (⟨e, rfl, hwakes, hbuttons⟩ | ⟨⟨l₁, e, l₂, rfl, hwakes, hbuttons, hnone⟩, hx⟩)
    · exact ⟨p, e, [], rfl, hwakes, hbuttons, fun e' he' => absurd he' List.not_mem_nil⟩
    · refine ⟨l₁, e, l₂ ++ [x], by simp, hwakes, hbuttons, fun e' he' => ?_⟩
      cases List.mem_append.mp he' with
      | inl hmem => exact hnone e' hmem
      | inr hmem => exact hx e' (List.mem_singleton.mp hmem).symm

theorem awaits_snoc {s : UxState} {p : List Input} {x : Input} :
    Awaits s (p ++ [x]) ↔ (∃ e, x = .event e ∧ Wakes s p e) ∨
      (Awaits s p ∧ ∀ e, x = .event e → e.action = .released → stateAfter s p ≠ .on) := by
  constructor
  · rintro ⟨l₁, e, l₂, heq, hwakes, hnone⟩
    cases snoc_eq_append_cons heq with
    | inl hlast =>
      obtain ⟨rfl, hx, -⟩ := hlast
      exact Or.inl ⟨e, hx.symm, hwakes⟩
    | inr hinner =>
      obtain ⟨l, rfl, rfl⟩ := hinner
      refine Or.inr ⟨⟨l₁, e, l, rfl, hwakes, fun m e' n hl haction => ?_⟩, fun e' he' haction => ?_⟩
      · exact hnone m e' (n ++ [x]) (by rw [hl]; simp) haction
      · exact hnone l e' [] (by rw [he']) haction
  · rintro (⟨e, rfl, hwakes⟩ | ⟨⟨l₁, e, l₂, rfl, hwakes, hnone⟩, hx⟩)
    · refine ⟨p, e, [], rfl, hwakes, fun m e' n hl => ?_⟩
      cases m <;> cases hl
    · refine ⟨l₁, e, l₂ ++ [x], by simp, hwakes, fun m e' n hl haction => ?_⟩
      cases snoc_eq_append_cons hl with
      | inl hlast =>
        obtain ⟨rfl, he', -⟩ := hlast
        exact hx e' he'.symm haction
      | inr hinner =>
        obtain ⟨l, -, rfl⟩ := hinner
        exact hnone m e' l rfl haction

theorem Stolen.append {s : UxState} {p : List Input} (h : Stolen s p) (q : List Input) : Stolen s (p ++ q) := by
  obtain ⟨l, e, n, rfl, h⟩ := h
  exact ⟨l, e, n ++ q, by simp, h⟩

/-! ## What the screen gets -/

/-- The events of a button, `true` for a press. -/
def word (buttons : BitVec 32) (events : List ButtonEvent) : List Bool :=
  (events.filter fun e => e.buttons = buttons).map fun e => e.action.isPressed

theorem word_append (buttons : BitVec 32) (as bs : List ButtonEvent) :
    word buttons (as ++ bs) = word buttons as ++ word buttons bs := by
  rw [word, List.filter_append, List.map_append]
  rfl

theorem word_own {e : ButtonEvent} {buttons : BitVec 32} (h : e.buttons = buttons) :
    word buttons [e] = [e.action.isPressed] := by
  simp [word, h]

theorem word_other {e : ButtonEvent} {buttons : BitVec 32} (h : e.buttons ≠ buttons) :
    word buttons [e] = [] := by
  simp [word, h]

theorem getLast?_eq_of_open {bs : List Bool} (h : false = !bs.getLast?.getD false) :
    bs.getLast? = some true := by
  cases hlast : bs.getLast? with
  | none => simp [hlast] at h
  | some b => simpa [hlast] using h.symm

theorem Input.events_append (p q : List Input) : events (p ++ q) = events p ++ events q := by
  induction p with
  | nil => rfl
  | cons x p ih =>
    cases x with
    | event e => exact congrArg (e :: ·) ih
    | setState state => exact ih

namespace Receiver

variable {limit : Nat} {r : Receiver limit} {e : ButtonEvent}

theorem step_wakes (hstate : r.ux.state ≠ .on) (haction : e.action = .pressed) :
    r.step (.event e) = ⟨r.ux.setState .on, { r.button with consumeRelease := true }, r.delivered⟩ := by
  simp [step, UxButton.event, hstate, haction]

theorem step_ignored (hstate : r.ux.state ≠ .on) (haction : e.action = .released) :
    r.step (.event e) = r := by
  simp [step, UxButton.event, hstate, haction]

theorem step_consumed (hstate : r.ux.state = .on) (hflag : r.button.consumeRelease = true)
    (haction : e.action = .released) :
    r.step (.event e) = ⟨r.ux, { r.button with consumeRelease := false }, r.delivered⟩ := by
  simp [step, UxButton.event, hstate, haction, hflag]

theorem step_delivered (hstate : r.ux.state = .on)
    (h : ¬ (r.button.consumeRelease = true ∧ e.action = .released)) :
    r.step (.event e) = ⟨r.ux.active, r.button, r.delivered ++ if r.ux.screenButton then [e] else []⟩ := by
  cases hscreen : r.ux.screenButton <;> simp [step, UxButton.event, hstate, h, hscreen]

theorem run_snoc (r : Receiver limit) (p : List Input) (x : Input) : r.run (p ++ [x]) = (r.run p).step x := by
  rw [run, run, List.foldl_append, List.foldl_cons, List.foldl_nil]

end Receiver

theorem setState_state (ux : Ux) (state : UxState) : (ux.setState state).state = state := by
  rw [setState]
  split
  · rename_i h
    exact h.symm
  · rfl

theorem setState_screenButton (ux : Ux) (state : UxState) :
    (ux.setState state).screenButton = ux.screenButton := by
  rw [setState]
  split <;> rfl

theorem active_of_on {ux : Ux} (h : ux.state = .on) : ux.active = { ux with idleTicks := 0 } := by
  rw [active, h]

namespace Receiver

variable {limit : Nat} {r : Receiver limit} {e : ButtonEvent}

theorem step_ux (r : Receiver limit) (x : Input) :
    (r.step x).ux.state = stateAfter r.ux.state [x] ∧ (r.step x).ux.screenButton = r.ux.screenButton := by
  cases x with
  | setState state => exact ⟨setState_state _ _, setState_screenButton _ _⟩
  | event e =>
    by_cases hstate : r.ux.state = .on
    · have hafter : stateAfter r.ux.state [.event e] = .on := by
        simp [stateAfter, hstate]
      rw [hafter]
      by_cases hconsumed : r.button.consumeRelease = true ∧ e.action = .released
      · rw [step_consumed hstate hconsumed.1 hconsumed.2]
        exact ⟨hstate, rfl⟩
      · rw [step_delivered hstate hconsumed]
        dsimp only
        rw [active_of_on hstate]
        exact ⟨hstate, rfl⟩
    · cases haction : e.action with
      | pressed =>
        rw [step_wakes hstate haction]
        refine ⟨?_, setState_screenButton _ _⟩
        simp [stateAfter, haction, setState_state]
      | released =>
        rw [step_ignored hstate haction]
        simp [stateAfter, haction]

theorem run_ux (r : Receiver limit) (p : List Input) :
    (r.run p).ux.state = stateAfter r.ux.state p ∧ (r.run p).ux.screenButton = r.ux.screenButton := by
  induction p using List.reverseRecOn with
  | nil => exact ⟨rfl, rfl⟩
  | append_singleton p x ih =>
    rw [run_snoc, (step_ux _ x).1, (step_ux _ x).2, stateAfter_snoc, ih.1, ih.2]
    exact ⟨rfl, rfl⟩

variable {ux : Ux}

/-- The flag is set as long as the release of a press that woke the user interface is awaited. -/
theorem consumeRelease_iff (limit : Nat) (ux : Ux) (p : List Input) :
    ((init limit ux).run p).button.consumeRelease = true ↔ Awaits ux.state p := by
  induction p using List.reverseRecOn with
  | nil =>
    constructor
    · intro h
      cases h
    · rintro ⟨l₁, e, l₂, h, -⟩
      cases l₁ <;> cases h
  | append_singleton p x ih =>
    have hstate : ((init limit ux).run p).ux.state = stateAfter ux.state p := (run_ux _ p).1
    rw [run_snoc, awaits_snoc, ← ih, ← hstate]
    cases x with
    | setState state =>
      constructor
      · intro h
        exact Or.inr ⟨h, fun e he => by cases he⟩
      · rintro (⟨e, he, -⟩ | h)
        · cases he
        · exact h.1
    | event e =>
      by_cases hon : ((init limit ux).run p).ux.state = .on
      · by_cases hconsumed : ((init limit ux).run p).button.consumeRelease = true ∧ e.action = .released
        · rw [step_consumed hon hconsumed.1 hconsumed.2]
          constructor
          · intro h
            cases h
          · rintro (⟨e', he, hwakes⟩ | h)
            · exact absurd (hstate ▸ hon) hwakes.2
            · exact absurd hon (h.2 e rfl hconsumed.2)
        · rw [step_delivered hon hconsumed]
          constructor
          · intro h
            refine Or.inr ⟨h, fun e' he haction => ?_⟩
            injection he with he
            exact absurd ⟨h, he ▸ haction⟩ hconsumed
          · rintro (⟨e', he, hwakes⟩ | h)
            · exact absurd (hstate ▸ hon) hwakes.2
            · exact h.1
      · cases haction : e.action with
        | pressed =>
          rw [step_wakes hon haction]
          exact ⟨fun _ => Or.inl ⟨e, rfl, haction, hstate ▸ hon⟩, fun _ => rfl⟩
        | released =>
          rw [step_ignored hon haction]
          constructor
          · intro h
            exact Or.inr ⟨h, fun _ _ _ => hon⟩
          · rintro (⟨e', he, hwakes⟩ | h)
            · injection he with he
              rw [← he, Wakes, haction] at hwakes
              cases hwakes.1
            · exact h.1

theorem word_step_other (r : Receiver limit) {buttons : BitVec 32} (h : e.buttons ≠ buttons) :
    word buttons (r.step (.event e)).delivered = word buttons r.delivered := by
  by_cases hon : r.ux.state = .on
  · by_cases hconsumed : r.button.consumeRelease = true ∧ e.action = .released
    · rw [step_consumed hon hconsumed.1 hconsumed.2]
    · rw [step_delivered hon hconsumed, word_append]
      cases r.ux.screenButton with
      | false => exact List.append_nil _
      | true => rw [if_pos rfl, word_other h, List.append_nil]
  · cases haction : e.action with
    | pressed => rw [step_wakes hon haction]
    | released => rw [step_ignored hon haction]

/-- What the screen got of a button, after the inputs `p`. -/
structure Sound (ux : Ux) (p : List Input) (buttons : BitVec 32) (delivered : List ButtonEvent) : Prop where
  matched : Matched (word buttons delivered)
  last : ux.screenButton = true → (word buttons (Input.events p)).getLast? = some true →
    ¬ Woken ux.state p buttons → (word buttons delivered).getLast? = some true

theorem sound (limit : Nat) {ux : Ux} {p : List Input} {buttons : BitVec 32}
    (halternates : Alternates false (word buttons (Input.events p))) (hstolen : ¬ Stolen ux.state p) :
    Sound ux p buttons ((init limit ux).run p).delivered := by
  induction p using List.reverseRecOn with
  | nil => exact ⟨matched_nil, fun _ h => by cases h⟩
  | append_singleton p x ih =>
    rw [Input.events_append, word_append] at halternates
    have ih := ih (alternates_append.mp halternates).1 (fun h => hstolen (h.append [x]))
    have hstate : ((init limit ux).run p).ux.state = stateAfter ux.state p := (run_ux _ p).1
    have hscreen : ((init limit ux).run p).ux.screenButton = ux.screenButton := (run_ux _ p).2
    have hflag := consumeRelease_iff limit ux p
    rw [run_snoc]
    cases x with
    | setState state =>
      refine ⟨ih.matched, fun hbutton hlast hwoken => ih.last hbutton ?_ ?_⟩
      · rwa [Input.events_append, Input.events, Input.events, List.append_nil] at hlast
      · intro h
        exact hwoken (woken_snoc.mpr (Or.inr ⟨h, fun e he => by cases he⟩))
    | event e =>
      by_cases hown : e.buttons = buttons
      · have hevents : word buttons (Input.events [.event e]) = [e.action.isPressed] := word_own hown
        rw [hevents] at halternates
        cases haction : e.action with
        | pressed =>
          by_cases hon : ((init limit ux).run p).ux.state = .on
          · rw [step_delivered hon (by rw [haction]; simp), hscreen]
            cases hbutton : ux.screenButton with
            | false =>
              refine ⟨?_, fun h => by rw [hbutton] at h; cases h⟩
              simpa using ih.matched
            | true =>
              rw [if_pos rfl]
              constructor
              · rw [word_append, word_own hown, haction]
                exact ih.matched.snoc fun h => by cases h
              · intro _ _ _
                rw [word_append, word_own hown, haction, List.getLast?_concat]
                rfl
          · rw [step_wakes hon haction]
            refine ⟨ih.matched, fun _ _ hwoken => ?_⟩
            exact absurd (woken_snoc.mpr (Or.inl ⟨e, rfl, ⟨haction, hstate ▸ hon⟩, hown⟩)) hwoken
        | released =>
          have hlast : (word buttons (Input.events (p ++ [.event e]))).getLast? ≠ some true := by
            rw [Input.events_append, word_append, hevents, haction, List.getLast?_concat]
            intro h
            cases h
          refine ⟨?_, fun _ h => absurd h hlast⟩
          by_cases hon : ((init limit ux).run p).ux.state = .on
          · by_cases hconsume : ((init limit ux).run p).button.consumeRelease = true
            · rw [step_consumed hon hconsume haction]
              exact ih.matched
            · rw [step_delivered hon fun h => hconsume h.1, hscreen]
              cases hbutton : ux.screenButton with
              | false => simpa using ih.matched
              | true =>
                rw [if_pos rfl, word_append, word_own hown]
                refine ih.matched.snoc fun _ => ih.last hbutton ?_ ?_
                · have hopen : e.action.isPressed = _ := halternates.of_snoc
                  rw [haction] at hopen
                  exact getLast?_eq_of_open hopen
                · intro hwoken
                  exact hstolen ⟨p, e, [], rfl, haction, hstate ▸ hon, hown ▸ hwoken, mt hflag.mpr hconsume⟩
          · rw [step_ignored hon haction]
            exact ih.matched
      · have hwoken : Woken ux.state p buttons → Woken ux.state (p ++ [.event e]) buttons := by
          intro h
          refine woken_snoc.mpr (Or.inr ⟨h, fun e' he' => ?_⟩)
          injection he' with he'
          rwa [← he']
        have hword := word_step_other ((init limit ux).run p) hown
        constructor
        · rw [hword]
          exact ih.matched
        · intro hbutton hlast hnot
          rw [Input.events_append, word_append, Input.events, Input.events, word_other hown,
            List.append_nil] at hlast
          rw [hword]
          exact ih.last hbutton hlast (mt hwoken hnot)

/-- Without a stolen release, every release that the screen gets comes after a press of the same
button that it got, with no release of it in between. -/
theorem matched (limit : Nat) (ux : Ux) {inputs : List Input}
    (halternates : ∀ buttons, Alternates false (word buttons (Input.events inputs)))
    (hstolen : ¬ Stolen ux.state inputs) (buttons : BitVec 32) :
    Matched (word buttons ((init limit ux).run inputs).delivered) :=
  (sound limit (halternates buttons) hstolen).matched

end Receiver

/-- The release of the only button there is is not stolen. -/
theorem not_stolen_of_single {s : UxState} {inputs : List Input} {buttons : BitVec 32}
    (h : ∀ e, .event e ∈ inputs → e.buttons = buttons) : ¬ Stolen s inputs := by
  rintro ⟨p, e, q, rfl, -, -, ⟨l₁, e₀, l₂, rfl, hwakes, -, hnone⟩, hawaits⟩
  refine hawaits ⟨l₁, e₀, l₂, rfl, hwakes, fun m e' n hl => ?_⟩
  have hmem : Input.event e' ∈ l₂ := by
    rw [hl]
    exact List.mem_append_right _ List.mem_cons_self
  have hsame : e'.buttons = e.buttons := by
    rw [h e' (by simp [hmem]), h e (by simp)]
  exact absurd hsame (hnone e' hmem)

/-! ## Samples -/

def press (buttons : BitVec 32) : Input := .event ⟨.pressed, buttons, 0, 0, 0, 0⟩

def release (buttons : BitVec 32) : Input := .event ⟨.released, buttons, 0, 0, 0, 0⟩

/-- One button is pressed twice, first to wake the user interface. -/
def pressedTwice : List Input := [press 1#32, release 1#32, press 1#32, release 1#32]

/-- Button 2 is pressed and released while button 1, which woke the user interface, is down. -/
def overlapping : List Input := [press 1#32, press 2#32, release 2#32, release 1#32]

theorem matched_pressedTwice :
    ((Receiver.init 2 ⟨.idle, 0, true⟩).run pressedTwice).delivered.length = 2 ∧
      Matched (word 1#32 ((Receiver.init 2 ⟨.idle, 0, true⟩).run pressedTwice).delivered) := by
  have hsingle : ∀ e, Input.event e ∈ pressedTwice → e.buttons = 1#32 := by
    simp [pressedTwice, press, release]
  refine ⟨rfl, Receiver.matched 2 _ (fun buttons => ?_) (not_stolen_of_single hsingle) 1#32⟩
  by_cases h : 1#32 = buttons <;>
    simp [pressedTwice, word, Input.events, press, release, h, Alternates, Action.isPressed]

/-- The release of button 2 spends the flag that button 1 set. -/
theorem not_matched_overlapping :
    ¬ ∀ (limit : Nat) (ux : Ux) (inputs : List Input),
      (∀ buttons, Alternates false (word buttons (Input.events inputs))) →
        ∀ buttons, Matched (word buttons ((Receiver.init limit ux).run inputs).delivered) := by
  intro h
  have halternates : ∀ buttons, Alternates false (word buttons (Input.events overlapping)) := by
    intro buttons
    by_cases h1 : 1#32 = buttons
    · subst h1
      simp [overlapping, word, Input.events, press, release, Alternates, Action.isPressed]
    · by_cases h2 : 2#32 = buttons <;>
        simp [overlapping, word, Input.events, press, release, h1, h2, Alternates, Action.isPressed]
  cases h 2 ⟨.idle, 0, true⟩ overlapping halternates 1#32 [] [] rfl

end Firefly.Ux
