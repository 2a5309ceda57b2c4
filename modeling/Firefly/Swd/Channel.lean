import Firefly.Lib.Effect
import Mathlib.Data.List.Basic

/-!
# Firefly.Swd.Channel

The two wires of a debug port (`fd_swd_channel.c`). The data wire is shared: the host drives it in
write direction and lets the target drive it in read direction. What the target answers is any stream
of bits; the state keeps the shifts that were made, each with the direction in which it was made.
-/

namespace Firefly
namespace Swd

structure Error where
  code : UInt64
  detail : UInt64
  deriving DecidableEq

/-- `fd_swd_channel_debug_port_access_t`, the first bit field in the lowest bits. -/
structure DebugPortAccess where
  debugPortBankSelect : BitVec 4
  accessPortBankSelect : BitVec 4
  reserved : BitVec 16
  accessPortId : BitVec 8
  deriving DecidableEq

def DebugPortAccess.value (a : DebugPortAccess) : UInt32 :=
  .ofBitVec (a.accessPortId ++ a.reserved ++ a.accessPortBankSelect ++ a.debugPortBankSelect)

structure Channel where
  overrunDetectionEnabled : Bool
  ackWaitRetryCount : Nat
  halfBitDelayNs : Nat
  debugPortAccess : DebugPortAccess
  deriving DecidableEq

/-- How the data wire is set up: the mode of its pin and, where the board has one, the pin that turns
the level shifter. -/
structure Line where
  output : Bool
  direction : Option Bool
  deriving DecidableEq

def Line.IsWrite (line : Line) : Prop := line.output = true ∧ line.direction ≠ some false

def Line.IsRead (line : Line) : Prop := line.output = false ∧ line.direction ≠ some true

instance (line : Line) : Decidable line.IsWrite := inferInstanceAs (Decidable (_ ∧ _))

instance (line : Line) : Decidable line.IsRead := inferInstanceAs (Decidable (_ ∧ _))

theorem Line.IsRead.not_isWrite {line : Line} (h : line.IsRead) : ¬ line.IsWrite := by
  intro hw
  rw [Line.IsWrite, h.1] at hw
  cases hw.1

inductive Event where
  | shiftOut (bits : List Bool) (line : Line)
  | shiftIn (byte : UInt8) (line : Line)
  deriving DecidableEq

/-- The host drives the wire in write direction, and samples it in read direction. -/
def Event.Orderly : Event → Prop
  | .shiftOut _ line => line.IsWrite
  | .shiftIn _ line => line.IsRead

instance : (e : Event) → Decidable e.Orderly
  | .shiftOut _ line => inferInstanceAs (Decidable line.IsWrite)
  | .shiftIn _ line => inferInstanceAs (Decidable line.IsRead)

/-- What a request is the start of. A port read has the data behind any answer when overruns are
detected. -/
inductive Kind where
  | readPort (overrun : Bool)
  | writePort
  | requestWrite
  | requestRead
  deriving DecidableEq

/-- A request, with the place in the target's bits where its answer starts and what the word to be
read held before. -/
structure Request where
  kind : Kind
  position : Nat
  value : UInt32
  deriving DecidableEq

/-- The channel and its wires. `requests` is history that no function reads. -/
structure Bus where
  channel : Channel
  line : Line
  answers : Nat → Bool
  position : Nat
  events : List Event
  requests : List Request

/-- Before a call, with nothing shifted yet. -/
def Bus.init (channel : Channel) (line : Line) (answers : Nat → Bool) : Bus :=
  ⟨channel, line, answers, 0, [], []⟩

abbrev Operation (α : Type) := Effect Bus Error α

/-- The bits of a byte on the wire, the lowest first. -/
def outBits : Nat → UInt8 → List Bool
  | 0, _ => []
  | n + 1, byte => (byte &&& 1 != 0) :: outBits n (byte >>> 1)

def shiftOut (byte : UInt8) (bitCount : Nat) : Operation Unit :=
  Effect.update fun b => { b with events := b.events ++ [.shiftOut (outBits bitCount byte) b.line] }

/-- The bits of the target from a place on, each shifted in at the top of the byte. -/
def inByte (answers : Nat → Bool) : Nat → Nat → UInt8 → UInt8
  | 0, _, byte => byte
  | n + 1, p, byte =>
    inByte answers n (p + 1) (if answers p then byte >>> 1 ||| 0b10000000 else byte >>> 1)

def shiftIn (bitCount : Nat) : Operation UInt8 := do
  let byte ← Effect.read fun b => inByte b.answers bitCount b.position 0
  Effect.update fun b =>
    { b with position := b.position + bitCount, events := b.events ++ [.shiftIn byte b.line] }
  pure byte

/-- `fd_swd_channel_debug_out`: the body is compiled out. -/
def debugOut (_data : List UInt8) : Operation Unit := pure ()

/-- `fd_swd_channel_debug_in`: the body is compiled out, and the bytes stay as they were. -/
def debugIn (data : List UInt8) : Operation (List UInt8) := pure data

def delayNs : Operation Nat := Effect.read fun b => b.channel.halfBitDelayNs

def shiftOutAll : List UInt8 → Operation Unit
  | [] => pure ()
  | byte :: data => do
    shiftOut byte 8
    shiftOutAll data

def shiftOutBytes (data : List UInt8) : Operation Unit := do
  if 0 < (← delayNs) then
    shiftOutAll data
  else
    debugOut data

def shiftInAll : List UInt8 → Operation (List UInt8)
  | [] => pure []
  | _ :: data => do
    let byte ← shiftIn 8
    let bytes ← shiftInAll data
    pure (byte :: bytes)

def shiftInBytes (data : List UInt8) : Operation (List UInt8) := do
  if 0 < (← delayNs) then
    shiftInAll data
  else
    debugIn data

def setDirectionToRead : Operation Unit :=
  Effect.update fun b => { b with line := ⟨false, b.line.direction.map fun _ => false⟩ }

def setDirectionToWrite : Operation Unit :=
  Effect.update fun b => { b with line := ⟨true, b.line.direction.map fun _ => true⟩ }

open Effect

@[simp] theorem exec_shiftOut (byte : UInt8) (n : Nat) (b : Bus) :
    exec (shiftOut byte n) b =
      (.ok (), { b with events := b.events ++ [.shiftOut (outBits n byte) b.line] }) := rfl

@[simp] theorem exec_shiftIn (n : Nat) (b : Bus) :
    exec (shiftIn n) b = (.ok (inByte b.answers n b.position 0),
      { b with position := b.position + n, events := b.events ++
        [.shiftIn (inByte b.answers n b.position 0) b.line] }) := rfl

@[simp] theorem exec_delayNs (b : Bus) : exec delayNs b = (.ok b.channel.halfBitDelayNs, b) := rfl

@[simp] theorem exec_setDirectionToRead (b : Bus) :
    exec setDirectionToRead b =
      (.ok (), { b with line := ⟨false, b.line.direction.map fun _ => false⟩ }) := rfl

@[simp] theorem exec_setDirectionToWrite (b : Bus) :
    exec setDirectionToWrite b =
      (.ok (), { b with line := ⟨true, b.line.direction.map fun _ => true⟩ }) := rfl

theorem Line.isRead_read (d : Option Bool) : (⟨false, d.map fun _ => false⟩ : Line).IsRead := by
  cases d <;> simp [Line.IsRead]

theorem Line.isWrite_write (d : Option Bool) : (⟨true, d.map fun _ => true⟩ : Line).IsWrite := by
  cases d <;> simp [Line.IsWrite]

/-- The shifts of some bytes, none of them when there is no delay between bits. -/
def outEvents (delay : Nat) (data : List UInt8) (line : Line) : List Event :=
  if 0 < delay then data.map fun byte => .shiftOut (outBits 8 byte) line else []

theorem exec_shiftOutAll (data : List UInt8) (b : Bus) :
    exec (shiftOutAll data) b = (.ok (), { b with events := b.events ++
      (data.map fun byte => .shiftOut (outBits 8 byte) b.line) }) := by
  induction data generalizing b with
  | nil => simp [shiftOutAll]
  | cons byte data ih => simp [shiftOutAll, exec_bind, ih]

@[simp] theorem exec_shiftOutBytes (data : List UInt8) (b : Bus) :
    exec (shiftOutBytes data) b = (.ok (),
      { b with events := b.events ++ outEvents b.channel.halfBitDelayNs data b.line }) := by
  rw [shiftOutBytes, exec_bind, exec_delayNs]
  by_cases h : 0 < b.channel.halfBitDelayNs
  · simp only [if_pos h, exec_shiftOutAll, outEvents]
  · simp only [if_neg h, debugOut, exec_pure, outEvents, List.append_nil]

/-- Every shift so far was made in its own direction. -/
def Bus.Orderly (b : Bus) : Prop := ∀ e ∈ b.events, e.Orderly

instance (b : Bus) : Decidable b.Orderly := inferInstanceAs (Decidable (∀ e ∈ b.events, e.Orderly))

theorem orderly_outEvents {delay : Nat} {data : List UInt8} {line : Line} (hdata : data ≠ []) :
    (∀ e ∈ outEvents delay data line, e.Orderly) ↔ (0 < delay → line.IsWrite) := by
  obtain ⟨byte, data, rfl⟩ := List.exists_cons_of_ne_nil hdata
  by_cases h : 0 < delay
  · simpa [outEvents, h, Event.Orderly] using fun hw _ _ => hw
  · simp [outEvents, h]

end Swd
end Firefly
