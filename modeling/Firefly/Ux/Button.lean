import Mathlib.Algebra.Order.Ring.Rat
import Mathlib.Data.List.Basic

/-!
# Firefly.Ux.Button

`fd_ux_button.c`: the buttons of a user interface. `UxButton limit` is `fd_ux_button_t` for
`CONFIG_FIREFLY_SUBSYS_UX_BUTTON_LIMIT = limit`, without the configuration, and timestamps are exact
numbers. A function that sends events returns them in the order of the calls of `send`.

* `changeLogic` and `timeoutLogic`: the debouncing. A change of a pin is taken at once and starts a
  timer, during which changes are ignored; the pins are sampled again when it expires (`Debounced`).
* `event`: what an event does to the user interface, and whether the active screen gets it.
-/

namespace Firefly.Ux

inductive Action where
  | released
  | pressed
  deriving Repr, DecidableEq

def Action.isPressed (a : Action) : Bool := a = .pressed

structure ButtonEvent where
  action : Action
  buttons : BitVec 32
  holds : BitVec 32
  chords : BitVec 32
  timestamp : ℚ
  duration : ℚ
  deriving Repr, DecidableEq

/-- `fd_ux_button_state_t`. A timestamp of zero means that there is none. -/
structure ButtonState where
  pressTimestamp : ℚ
  releaseTimestamp : ℚ
  chords : BitVec 32
  pressSent : Bool
  deriving Repr, DecidableEq

def ButtonState.zero : ButtonState := ⟨0, 0, 0, false⟩

structure UxButton (limit : Nat) where
  buttons : BitVec 32
  states : Vector ButtonState limit
  consumeRelease : Bool

/-- The mask of button `i`. -/
def bit (i : Nat) : BitVec 32 := 1#32 <<< i

theorem getLsbD_bit (i k : Nat) : (bit i).getLsbD k = (decide (i < 32) && decide (i = k)) := by
  rw [bit, ← BitVec.twoPow_eq, BitVec.getLsbD_twoPow]

theorem bit_and_ne_zero (i : Nat) (x : BitVec 32) : bit i &&& x ≠ 0 ↔ x.getLsbD i = true := by
  rw [BitVec.and_comm, bit, ← BitVec.twoPow_eq, BitVec.and_twoPow]
  cases hx : x.getLsbD i with
  | false => simp
  | true =>
    rw [if_pos rfl]
    have hi : i < 32 := BitVec.lt_of_getLsbD hx
    constructor
    · intro _
      rfl
    · intro _ hzero
      have hbit := congrArg (fun y => BitVec.getLsbD y i) hzero
      simp [hi] at hbit

theorem bit_inj {i j : Nat} (hi : i < 32) (h : bit i = bit j) : i = j := by
  have hbit := getLsbD_bit j i
  rw [← h, getLsbD_bit, decide_eq_true hi, decide_eq_true (rfl : i = i)] at hbit
  have hand := Bool.and_eq_true_iff.mp hbit.symm
  exact (of_decide_eq_true hand.2).symm

namespace UxButton

variable {limit : Nat}

/-- After `fd_ux_button_initialize`. -/
def init (limit : Nat) : UxButton limit := ⟨0, Vector.replicate limit .zero, false⟩

/-- One pass of the first loop of `fd_ux_button_check`. -/
def stamp (button pressed released : BitVec 32) (timestamp : ℚ) (state : ButtonState) : ButtonState :=
  { state with
    pressTimestamp := if button &&& pressed ≠ 0 then timestamp else state.pressTimestamp
    releaseTimestamp := if button &&& released ≠ 0 then timestamp else state.releaseTimestamp }

/-- One pass of the second loop of `fd_ux_button_check`. -/
def chord (buttons : BitVec 32) (state : ButtonState) : ButtonState :=
  { state with chords := if state.pressTimestamp ≠ 0 then state.chords ||| buttons else state.chords }

def check (u : UxButton limit) (buttons : BitVec 32) (timestamp : ℚ) : UxButton limit :=
  let pressed := buttons &&& ~~~u.buttons
  let released := ~~~buttons &&& u.buttons
  let stamped := u.states.mapIdx fun i state => stamp (bit i) pressed released timestamp state
  { u with states := stamped.map (chord buttons) }

/-- One pass of the loop of `fd_ux_button_timeout_logic`. -/
def timeoutState (button holds pressed : BitVec 32) (state : ButtonState) : ButtonState × List ButtonEvent :=
  let chords := state.chords &&& ~~~button
  if state.pressTimestamp ≠ 0 ∧ state.pressSent = true ∧ button &&& pressed ≠ 0 then
    (state, [])
  else
    let (state, sent) :=
      if state.pressTimestamp ≠ 0 ∧ state.pressSent = false then
        ({ state with pressSent := true },
          [⟨.pressed, button, holds &&& ~~~button, chords, state.pressTimestamp, 0⟩])
      else (state, [])
    if state.releaseTimestamp ≠ 0 then
      (.zero, sent ++ [⟨.released, button, holds &&& ~~~button, chords, state.releaseTimestamp,
        state.releaseTimestamp - state.pressTimestamp⟩])
    else (state, sent)

def timeoutLogic (u : UxButton limit) (buttons : BitVec 32) (timestamp : ℚ) :
    UxButton limit × List ButtonEvent :=
  let holds := buttons ||| u.buttons
  let pressed := buttons &&& ~~~u.buttons
  let v := { u.check buttons timestamp with buttons := buttons }
  let passes := v.states.mapIdx fun i state => timeoutState (bit i) holds pressed state
  ({ v with states := passes.map Prod.fst }, passes.toList.flatMap Prod.snd)

def changeLogic (u : UxButton limit) (buttons : BitVec 32) (timestamp : ℚ) : UxButton limit :=
  { u.check buttons timestamp with buttons := buttons }

end UxButton

/-- A call of `changeLogic` or of `timeoutLogic`, with what it samples. -/
inductive Call where
  | change (buttons : BitVec 32) (timestamp : ℚ)
  | timeout (buttons : BitVec 32) (timestamp : ℚ)

def Call.timestamp : Call → ℚ
  | .change _ timestamp => timestamp
  | .timeout _ timestamp => timestamp

/-- Each change is followed by the timeout of its timer before the next change. -/
inductive Debounced : List Call → Prop
  | none : Debounced []
  | pending (buttons : BitVec 32) (timestamp : ℚ) : Debounced [.change buttons timestamp]
  | cycle (buttons buttons' : BitVec 32) (timestamp timestamp' : ℚ) {calls : List Call} :
      Debounced calls → Debounced (.change buttons timestamp :: .timeout buttons' timestamp' :: calls)

namespace UxButton

variable {limit : Nat}

def call (u : UxButton limit) : Call → UxButton limit × List ButtonEvent
  | .change buttons timestamp => (u.changeLogic buttons timestamp, [])
  | .timeout buttons timestamp => u.timeoutLogic buttons timestamp

def events (u : UxButton limit) : List Call → List ButtonEvent
  | [] => []
  | c :: calls => (u.call c).2 ++ (u.call c).1.events calls

end UxButton

/-! ## Events and the user interface -/

inductive UxState where
  | on
  | idle
  | off
  deriving Repr, DecidableEq

end Ux

/-- The part of `fd_ux_t` that events reach. `screenButton` tells whether the active screen has a
button callback. -/
structure Ux where
  state : Ux.UxState
  idleTicks : Nat
  screenButton : Bool
  deriving Repr, DecidableEq

namespace Ux

def setState (ux : Ux) (state : UxState) : Ux :=
  if state = ux.state then ux else { ux with idleTicks := 0, state := state }

def active (ux : Ux) : Ux :=
  match ux.state with
  | .on => { ux with idleTicks := 0 }
  | .idle => ux.setState .on
  | .off => ux

/-- `fd_ux_button_event`, with the event that the screen gets. -/
def UxButton.event {limit : Nat} (ux : Ux) (u : UxButton limit) (e : ButtonEvent) :
    Ux × UxButton limit × Option ButtonEvent :=
  if ux.state ≠ .on then
    if e.action = .pressed then (ux.setState .on, { u with consumeRelease := true }, none)
    else (ux, u, none)
  else if u.consumeRelease = true ∧ e.action = .released then
    (ux, { u with consumeRelease := false }, none)
  else (ux.active, u, if ux.screenButton then some e else none)

end Firefly.Ux
