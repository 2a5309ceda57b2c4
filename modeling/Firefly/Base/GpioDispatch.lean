import Firefly.Base.Envelope

/-!
# Firefly.Base.GpioDispatch

The requests that configure, set and read pins (`fd_gpio_dispatch.c`). A command is carried out as soon as it is
read, with zero for the operands that are not there, and whether the message was whole is looked at behind the
last command only. So a message that is cut off is rejected when its commands have been carried out
(`io_malformed`).
-/

namespace Firefly
namespace GpioDispatch

structure Gpio where
  port : UInt8
  pin : UInt8
  deriving DecidableEq

/-- The calls that change a pin. -/
inductive Action where
  | configureDefault (gpio : Gpio)
  | configureOutput (gpio : Gpio) (value : Bool)
  | configureOutputOpenDrain (gpio : Gpio) (value : Bool)
  | configureOutputOpenDrainPullUp (gpio : Gpio) (value : Bool)
  | configureInput (gpio : Gpio)
  | configureInputPullUp (gpio : Gpio)
  | set (gpio : Gpio) (value : Bool)
  deriving DecidableEq

def operationIo : UInt8 := 0

def opcodeConfigure : UInt8 := 0
def opcodeSet : UInt8 := 1
def opcodeGet : UInt8 := 2

def directionNone : UInt8 := 0b00
def directionInput : UInt8 := 0b01
def directionOutput : UInt8 := 0b10

def pullNone : UInt8 := 0b00
def pullUp : UInt8 := 0b10

def levelLow : UInt8 := 0b0
def levelHigh : UInt8 := 0b1

def driveNone : UInt8 := 0b00
def driveLow : UInt8 := 0b01
def driveBoth : UInt8 := 0b11

/-- `fd_gpio_dispatch_configure` -/
def configure (direction pull level drive : UInt8) : UInt8 :=
  drive <<< 5 ||| level <<< 4 ||| pull <<< 2 ||| direction

def configureDefault : UInt8 := configure directionNone pullNone levelLow driveNone
def configureOutputLow : UInt8 := configure directionOutput pullNone levelLow driveBoth
def configureOutputHigh : UInt8 := configure directionOutput pullNone levelHigh driveBoth
def configureOutputOpenDrainLow : UInt8 := configure directionOutput pullNone levelLow driveLow
def configureOutputOpenDrainHigh : UInt8 := configure directionOutput pullNone levelHigh driveLow
def configureOutputOpenDrainPullUpLow : UInt8 := configure directionOutput pullUp levelLow driveLow
def configureOutputOpenDrainPullUpHigh : UInt8 := configure directionOutput pullUp levelHigh driveLow
def configureInput : UInt8 := configure directionInput pullNone levelLow driveNone
def configureInputPullUp : UInt8 := configure directionInput pullUp levelLow driveNone

def responseLimit : UInt32 := 64

/-- The switch of `fd_gpio_dispatch_io_configure`. -/
def configureActions (gpio : Gpio) (value : UInt8) : List Action :=
  if value = configureDefault then [.configureDefault gpio]
  else if value = configureOutputLow then [.configureOutput gpio false]
  else if value = configureOutputHigh then [.configureOutput gpio true]
  else if value = configureOutputOpenDrainLow then [.configureOutputOpenDrain gpio false]
  else if value = configureOutputOpenDrainHigh then [.configureOutputOpenDrain gpio true]
  else if value = configureOutputOpenDrainPullUpLow then [.configureOutputOpenDrainPullUp gpio false]
  else if value = configureOutputOpenDrainPullUpHigh then [.configureOutputOpenDrainPullUp gpio true]
  else if value = configureInput then [.configureInput gpio]
  else if value = configureInputPullUp then [.configureInputPullUp gpio]
  else []

/-- The locals of `fd_gpio_dispatch_io`, and what was done to the pins. -/
structure Io where
  message : Binary
  response : Binary
  actions : List Action

def ioConfigure (s : Io) : Io :=
  let (port, message) := s.message.getUint8
  let (pin, message) := message.getUint8
  let (value, message) := message.getUint8
  { s with message := message, actions := s.actions ++ configureActions ⟨port, pin⟩ value }

def ioSet (s : Io) : Io :=
  let (port, message) := s.message.getUint8
  let (pin, message) := message.getUint8
  let (value, message) := message.getUint8
  { s with message := message, actions := s.actions ++ [.set ⟨port, pin⟩ (value != 0)] }

/-- `level` is the level of a pin after some actions. -/
def ioGet (level : List Action → Gpio → Bool) (s : Io) : Io :=
  let (port, message) := s.message.getUint8
  let (pin, message) := message.getUint8
  let value := level s.actions ⟨port, pin⟩
  let response := s.response.putUint8 opcodeGet
  let response := response.putUint8 port
  let response := response.putUint8 pin
  let response := response.putUint8 (if value then 1 else 0)
  { s with message := message, response := response }

/-- One pass of the loop of `fd_gpio_dispatch_io`. -/
def command (level : List Action → Gpio → Bool) (s : Io) : Io :=
  let (opcode, message) := s.message.getUint8
  let s := { s with message := message }
  if opcode = opcodeConfigure then ioConfigure s
  else if opcode = opcodeSet then ioSet s
  else if opcode = opcodeGet then ioGet level s
  else s

/-- The loop, in at most so many passes. -/
def commands (level : List Action → Gpio → Bool) : Nat → Io → Option Io
  | 0, s => if s.message.getIndex < s.message.size then none else some s
  | n + 1, s => if s.message.getIndex < s.message.size then commands level n (command level s) else some s

/-- What was done to the pins, and the response of a request that was not rejected. -/
structure Outcome where
  actions : List Action
  response : Option (List UInt8 × Envelope)
  deriving DecidableEq

/-- `fd_gpio_dispatch_io`. A pass takes a byte of the message at least. -/
def io (level : List Action → Gpio → Bool) (buffer : Memory) (message : Binary) (envelope : Envelope) :
    Option Outcome := do
  let response := (Binary.initializeWith buffer responseLimit).putUint8 operationIo
  let s ← commands level (message.size - message.getIndex) ⟨message, response, []⟩
  if s.message.errors ≠ 0 then some ⟨s.actions, none⟩
  else some ⟨s.actions, some (s.response.contents, envelope.response)⟩

/-! ## Messages -/

/-- The bytes that belong to an opcode. -/
def operands (opcode : UInt8) : Nat :=
  if opcode = opcodeConfigure ∨ opcode = opcodeSet then 3 else if opcode = opcodeGet then 2 else 0

/-- Every opcode has its operands. -/
def Complete : List UInt8 → Prop
  | [] => True
  | opcode :: bytes => operands opcode ≤ bytes.length ∧ Complete (bytes.drop (operands opcode))
  termination_by bytes => bytes.length
  decreasing_by rw [List.length_drop, List.length_cons]; omega

/-- The values that `fd_gpio_dispatch_io_configure` has a case for. -/
def configurations : List UInt8 :=
  [configureDefault, configureOutputLow, configureOutputHigh, configureOutputOpenDrainLow,
    configureOutputOpenDrainHigh, configureOutputOpenDrainPullUpLow, configureOutputOpenDrainPullUpHigh,
    configureInput, configureInputPullUp]

/-- Nothing is set, and what is configured has a value of its own that is no configuration. -/
def Inert : List UInt8 → Prop
  | [] => True
  | opcode :: bytes =>
    opcode ≠ opcodeSet ∧ (opcode = opcodeConfigure → ∃ value, bytes[2]? = some value ∧ value ∉ configurations) ∧
      Inert (bytes.drop (operands opcode))
  termination_by bytes => bytes.length
  decreasing_by rw [List.length_drop, List.length_cons]; omega

/-! ## Reading -/

/-- The bytes `bs` are all that is left of a message of `size` bytes. -/
structure Left (size : Nat) (bs : List UInt8) (m : Binary) : Prop where
  size_eq : m.size = size
  unread : m.Unread bs
  all : m.getIndex + bs.length = size

variable {size : Nat} {bs : List UInt8} {m : Binary}

theorem left_rest (h : m.getIndex ≤ m.size) : Left m.size (m.buffer.read m.getIndex (m.size - m.getIndex)) m := by
  refine ⟨rfl, ⟨?_, ?_⟩, ?_⟩
  · rw [Memory.length_read]
  · rw [Memory.length_read]
    omega
  · rw [Memory.length_read]
    omega

/-- A byte is the next one, or zero with an error when there is none. -/
theorem Left.getUint8 (h : Left size bs m) (hsize : size + 1 < 2 ^ 32) :
    m.getUint8.1 = bs.headD 0 ∧ Left size bs.tail m.getUint8.2 ∧
      (m.getUint8.2.errors = 0 ↔ m.errors = 0 ∧ 0 < bs.length) := by
  have hall := h.all
  cases bs with
  | nil =>
    rw [List.length_nil, Nat.add_zero] at hall
    have hcheck : ¬ m.GetCheck 1 := by
      rw [Binary.GetCheck, h.size_eq, hall, Nat.mod_eq_of_lt hsize]
      omega
    have hget : m.getUint8 = (0, { m with errors := m.errors ||| Binary.errorUnderflow }) := by
      rw [Binary.getUint8, Binary.getBytes, if_neg hcheck]
      rfl
    rw [hget]
    refine ⟨rfl, ⟨h.size_eq, ⟨h.unread.bytes, h.unread.fits⟩, h.all⟩, fun herrors => ?_, fun hnone => ?_⟩
    · exact absurd (Nat.or_eq_zero_iff.mp herrors).2 (by decide)
    · exact absurd hnone.2 (Nat.lt_irrefl 0)
  | cons b bs =>
    obtain ⟨hvalue, hunread, hstate⟩ := h.unread.getUint8
    rw [List.length_cons] at hall
    refine ⟨hvalue, ⟨?_, hunread, ?_⟩, ?_⟩
    · rw [hstate]
      exact h.size_eq
    · rw [hstate, List.tail_cons]
      dsimp only
      omega
    · rw [hstate, List.length_cons]
      exact ⟨fun herrors => ⟨herrors, Nat.succ_pos _⟩, fun hboth => hboth.1⟩

/-- The operands of a command. -/
structure Operands (size : Nat) (bs : List UInt8) (count : Nat) (m m' : Binary) : Prop where
  left : Left size (bs.drop count) m'
  errors : m'.errors = 0 ↔ m.errors = 0 ∧ count ≤ bs.length

theorem Operands.getUint8 {count : Nat} {m' : Binary} (h : Operands size bs count m m')
    (hsize : size + 1 < 2 ^ 32) :
    m'.getUint8.1 = (bs.drop count).headD 0 ∧ Operands size bs (count + 1) m m'.getUint8.2 := by
  obtain ⟨hvalue, hleft, herrors⟩ := h.left.getUint8 hsize
  refine ⟨hvalue, ?_, ?_⟩
  · rwa [List.tail_drop] at hleft
  · rw [herrors, h.errors, List.length_drop]
    omega

/-! ## Commands -/

/-- What a command does to the pins, with the bytes behind its opcode. -/
def acted (opcode : UInt8) (bs : List UInt8) : List Action :=
  let gpio : Gpio := ⟨bs.headD 0, (bs.drop 1).headD 0⟩
  if opcode = opcodeConfigure then configureActions gpio ((bs.drop 2).headD 0)
  else if opcode = opcodeSet then [.set gpio ((bs.drop 2).headD 0 != 0)]
  else []

variable {level : List Action → Gpio → Bool} {s : Io} {opcode : UInt8}

theorem command_eq (level : List Action → Gpio → Bool) (s : Io) :
    command level s =
      if s.message.getUint8.1 = opcodeConfigure then ioConfigure { s with message := s.message.getUint8.2 }
      else if s.message.getUint8.1 = opcodeSet then ioSet { s with message := s.message.getUint8.2 }
      else if s.message.getUint8.1 = opcodeGet then ioGet level { s with message := s.message.getUint8.2 }
      else { s with message := s.message.getUint8.2 } := by
  rw [command]

theorem ioConfigure_eq (s : Io) :
    ioConfigure s =
      { s with
        message := s.message.getUint8.2.getUint8.2.getUint8.2
        actions := s.actions ++ configureActions ⟨s.message.getUint8.1, s.message.getUint8.2.getUint8.1⟩
          s.message.getUint8.2.getUint8.2.getUint8.1 } := by
  rw [ioConfigure]

theorem ioSet_eq (s : Io) :
    ioSet s =
      { s with
        message := s.message.getUint8.2.getUint8.2.getUint8.2
        actions := s.actions ++ [.set ⟨s.message.getUint8.1, s.message.getUint8.2.getUint8.1⟩
          (s.message.getUint8.2.getUint8.2.getUint8.1 != 0)] } := by
  rw [ioSet]

theorem ioGet_message (level : List Action → Gpio → Bool) (s : Io) :
    (ioGet level s).message = s.message.getUint8.2.getUint8.2 ∧ (ioGet level s).actions = s.actions := by
  rw [ioGet]
  dsimp only
  exact ⟨rfl, rfl⟩

/-- By cases on the opcode. -/
theorem command_spec (h : Left size (opcode :: bs) s.message) (hsize : size + 1 < 2 ^ 32) :
    Operands size bs (operands opcode) s.message (command level s).message ∧
      (command level s).actions = s.actions ++ acted opcode bs := by
  obtain ⟨hopcode, hleft, herrors⟩ := h.getUint8 hsize
  rw [List.headD_cons] at hopcode
  rw [List.tail_cons] at hleft
  have hstart : Operands size bs 0 s.message s.message.getUint8.2 := by
    refine ⟨hleft, herrors.trans ?_⟩
    rw [List.length_cons]
    omega
  obtain ⟨hport, hfirst⟩ := hstart.getUint8 hsize
  obtain ⟨hpin, hsecond⟩ := hfirst.getUint8 hsize
  obtain ⟨hvalue, hthird⟩ := hsecond.getUint8 hsize
  rw [List.drop_zero] at hport
  rw [command_eq, hopcode]
  by_cases hconfigure : opcode = opcodeConfigure
  · rw [if_pos hconfigure, ioConfigure_eq, operands, if_pos (.inl hconfigure), acted, if_pos hconfigure,
      ← hport, ← hpin, ← hvalue]
    dsimp only
    exact ⟨hthird, rfl⟩
  · by_cases hset : opcode = opcodeSet
    · rw [if_neg hconfigure, if_pos hset, ioSet_eq, operands, if_pos (.inr hset), acted, if_neg hconfigure,
        if_pos hset, ← hport, ← hpin, ← hvalue]
      dsimp only
      exact ⟨hthird, rfl⟩
    · rw [if_neg hconfigure, if_neg hset, operands, if_neg (not_or.mpr ⟨hconfigure, hset⟩), acted,
        if_neg hconfigure, if_neg hset, List.append_nil]
      by_cases hget : opcode = opcodeGet
      · rw [if_pos hget, if_pos hget, (ioGet_message level _).1, (ioGet_message level _).2]
        exact ⟨hsecond, rfl⟩
      · rw [if_neg hget, if_neg hget]
        exact ⟨hstart, rfl⟩

/-- What the commands of a message do to the pins. -/
def actedAll : List UInt8 → List Action
  | [] => []
  | opcode :: bytes => acted opcode bytes ++ actedAll (bytes.drop (operands opcode))
  termination_by bytes => bytes.length
  decreasing_by rw [List.length_drop, List.length_cons]; omega

theorem configureActions_eq_nil {gpio : Gpio} {value : UInt8} :
    configureActions gpio value = [] ↔ value ∉ configurations := by
  simp only [configurations, List.mem_cons, List.not_mem_nil, or_false, not_or]
  unfold configureActions
  repeat' split
  all_goals simp_all

/-- A command does nothing exactly when it sets nothing and configures nothing. -/
theorem acted_eq_nil (opcode : UInt8) (bs : List UInt8) :
    acted opcode bs = [] ↔ opcode ≠ opcodeSet ∧
      (opcode = opcodeConfigure → ∃ value, bs[2]? = some value ∧ value ∉ configurations) := by
  have hhead : (bs.drop 2).headD 0 = bs[2]?.getD 0 := by
    rw [List.headD_eq_head?_getD, List.head?_drop]
  rw [acted, hhead]
  by_cases hconfigure : opcode = opcodeConfigure
  · rw [if_pos hconfigure, configureActions_eq_nil]
    constructor
    · intro hvalue
      refine ⟨fun hset => absurd (hconfigure.symm.trans hset) (by decide), fun _ => ?_⟩
      cases hbyte : bs[2]? with
      | none =>
        -- the operand that is not there is the default configuration
        rw [hbyte] at hvalue
        exact absurd (by decide) hvalue
      | some value =>
        rw [hbyte] at hvalue
        exact ⟨value, rfl, hvalue⟩
    · rintro ⟨-, hvalue⟩
      obtain ⟨value, hbyte, hnone⟩ := hvalue hconfigure
      rw [hbyte]
      exact hnone
  · rw [if_neg hconfigure]
    by_cases hset : opcode = opcodeSet
    · rw [if_pos hset]
      exact ⟨fun h => absurd h (List.cons_ne_nil _ _), fun h => absurd hset h.1⟩
    · rw [if_neg hset]
      exact ⟨fun _ => ⟨hset, fun h => absurd h hconfigure⟩, fun _ => rfl⟩

theorem actedAll_eq_nil (bs : List UInt8) : actedAll bs = [] ↔ Inert bs := by
  fun_induction actedAll bs with
  | case1 => simp [Inert]
  | case2 opcode bs ih => rw [List.append_eq_nil_iff, acted_eq_nil, ih, Inert, and_assoc]

/-- By induction on the passes; each takes the opcode at least. -/
theorem commands_spec {n : Nat} (h : Left size bs s.message) (hsize : size + 1 < 2 ^ 32) (hn : bs.length ≤ n) :
    ∃ s', commands level n s = some s' ∧ s'.actions = s.actions ++ actedAll bs ∧
      (s'.message.errors = 0 ↔ s.message.errors = 0 ∧ Complete bs) := by
  induction n generalizing s bs with
  | zero =>
    obtain rfl : bs = [] := List.eq_nil_of_length_eq_zero (Nat.le_zero.mp hn)
    have hall := h.all
    rw [List.length_nil, Nat.add_zero, ← h.size_eq] at hall
    refine ⟨s, by rw [commands, if_neg (by omega)], by rw [actedAll, List.append_nil], by simp [Complete]⟩
  | succ n ih =>
    have hall := h.all
    have hsame := h.size_eq
    cases bs with
    | nil =>
      rw [List.length_nil, Nat.add_zero, ← h.size_eq] at hall
      refine ⟨s, by rw [commands, if_neg (by omega)], by rw [actedAll, List.append_nil], by simp [Complete]⟩
    | cons opcode bs =>
      rw [List.length_cons] at hall hn
      obtain ⟨hoperands, hactions⟩ := @command_spec _ _ level _ _ h hsize
      obtain ⟨s', hrun, hactions', herrors'⟩ := ih hoperands.left (by rw [List.length_drop]; omega)
      refine ⟨s', by rw [commands, if_pos (by omega), hrun], ?_, ?_⟩
      · rw [hactions', hactions, actedAll, List.append_assoc]
      · rw [herrors', hoperands.errors, Complete, and_assoc]

/-- A message that is rejected has changed no pin exactly when it was whole, or when nothing in it changes a pin. -/
theorem io_malformed (level : List Action → Gpio → Bool) (buffer : Memory) (message : Binary) (envelope : Envelope)
    (hposition : message.getIndex ≤ message.size) (haddress : message.size + responseLimit.toNat ≤ 2 ^ 32) :
    ∃ outcome, io level buffer message envelope = some outcome ∧
      ((outcome.response = none → outcome.actions = []) ↔
        (message.errors = 0 ∧ Complete (message.buffer.read message.getIndex (message.size - message.getIndex))) ∨
          Inert (message.buffer.read message.getIndex (message.size - message.getIndex))) := by
  have hlimit : responseLimit.toNat = 64 := rfl
  generalize hs : (⟨message, (Binary.initializeWith buffer responseLimit).putUint8 operationIo, []⟩ : Io) = s
  have hmessage : s.message = message := by rw [← hs]
  have hnone : s.actions = [] := by rw [← hs]
  have hleft : Left message.size (message.buffer.read message.getIndex (message.size - message.getIndex))
      s.message := by
    rw [hmessage]
    exact left_rest hposition
  obtain ⟨s', hrun, hactions, herrors⟩ := @commands_spec _ _ level _ (message.size - message.getIndex) hleft
    (by omega) (Nat.le_of_eq (Memory.length_read _ _ _))
  rw [hnone, List.nil_append] at hactions
  rw [hmessage] at herrors
  have hio : io level buffer message envelope =
      if s'.message.errors ≠ 0 then some ⟨s'.actions, none⟩
      else some ⟨s'.actions, some (s'.response.contents, envelope.response)⟩ := by
    rw [io, hs, hrun]
    rfl
  rw [hio, ← herrors, ← actedAll_eq_nil, ← hactions]
  by_cases hzero : s'.message.errors = 0
  · rw [if_neg (not_not.mpr hzero)]
    exact ⟨_, rfl, fun _ => .inl hzero, fun _ hresponse => nomatch hresponse⟩
  · rw [if_pos hzero]
    exact ⟨_, rfl, fun h => .inr (h rfl), fun h _ => h.resolve_left hzero⟩

/-- A request to pin 3 of port 5, of which some bytes came. -/
def setRequest (bytes : List UInt8) : Binary :=
  .initializeWith (Memory.write (fun _ => 0) 0 bytes) bytes.length.toUInt32

def gatewayEnvelope : Envelope := ⟨0, 0, 1, 2, 0, 3, 1, 0⟩

/-- Without its last byte the command sets the pin low and the request is rejected. -/
theorem cut_set_drives :
    ¬ ∀ outcome, io (fun _ _ => false) (fun _ => 0) (setRequest [1, 5, 3]) gatewayEnvelope = some outcome →
      outcome.response = none → outcome.actions = [] := by
  intro h
  have hrun : io (fun _ _ => false) (fun _ => 0) (setRequest [1, 5, 3]) gatewayEnvelope =
      some ⟨[.set ⟨5, 3⟩ false], none⟩ := rfl
  exact absurd (h _ hrun rfl) (List.cons_ne_nil _ _)

/-- The whole command. -/
theorem io_malformed_whole :
    ∃ outcome, io (fun _ _ => false) (fun _ => 0) (setRequest [1, 5, 3, 1]) gatewayEnvelope = some outcome ∧
      (outcome.response = none → outcome.actions = []) := by
  obtain ⟨outcome, hrun, hiff⟩ := io_malformed (fun _ _ => false) (fun _ => 0) (setRequest [1, 5, 3, 1])
    gatewayEnvelope (by decide) (by decide)
  refine ⟨outcome, hrun, hiff.mpr (.inl ⟨rfl, ?_⟩)⟩
  show Complete [1, 5, 3, 1]
  simp [Complete, operands, opcodeConfigure, opcodeSet]

end GpioDispatch
end Firefly
