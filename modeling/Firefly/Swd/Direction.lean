import Firefly.Swd.Port

/-!
# Firefly.Swd.Direction

The data wire has one driver at a time: the host shifts out in write direction and in in read
direction, and it gives the wire back in write direction.

`Status` is what holds between two transactions, `Reading` between a request and the turn behind its
answer. A port read whose data has the wrong parity, and a request of a memory transfer that is not
acknowledged or has the wrong parity, do not turn the wire; the next request then drives it while it
is in read direction. With no delay between bits no byte is shifted at all, and only the last
transaction matters.
-/

namespace Firefly
namespace Swd

open Effect

section Answers

variable (delay : Nat) (answers : Nat → Bool)

/-- What the four bytes from a place on make of a word. -/
def word (p : Nat) (value : UInt32) : UInt32 :=
  if delay = 0 then
    unpackLittleEndianUint32 (packLittleEndianUint32 value)
  else
    (inByte answers 8 (p + 8 + 8 + 8) 0).toUInt32 <<< 24 ||| (inByte answers 8 (p + 8 + 8) 0).toUInt32 <<< 16 |||
      (inByte answers 8 (p + 8) 0).toUInt32 <<< 8 ||| (inByte answers 8 p 0).toUInt32

/-- The place behind a word. -/
def wordEnd (p : Nat) : Nat := if delay = 0 then p else p + 8 + 8 + 8 + 8

def Request.ack (r : Request) : UInt8 := inByte answers 4 r.position 0 >>> 5

/-- The parity bit behind the data is the parity of the data. -/
def Request.parityRight (r : Request) : Bool :=
  inByte answers 1 (wordEnd delay (r.position + 4)) 0 >>> 7 ==
    getParityUint32 (word delay answers (r.position + 4) r.value)

/-- The answers to a request after which the wire is turned back. -/
def Request.Turns (r : Request) : Prop :=
  match r.kind with
  | .readPort overrun => overrun = true ∨ r.ack answers = ackOk → r.parityRight delay answers = true
  | .writePort => True
  | .requestWrite => r.ack answers = ackOk
  | .requestRead => r.ack answers = ackOk ∧ r.parityRight delay answers = true

instance (r : Request) : Decidable (r.Turns delay answers) := by
  unfold Request.Turns
  cases r.kind <;> infer_instance

structure Status (b : Bus) : Prop where
  delay_eq : b.channel.halfBitDelayNs = delay
  answers_eq : b.answers = answers
  orderly_iff : b.Orderly ↔ (0 < delay → ∀ r ∈ b.requests.dropLast, r.Turns delay answers)
  write_iff : b.line.IsWrite ↔ ∀ r ∈ b.requests.getLast?, r.Turns delay answers

/-- The wire is the host's. -/
structure Ready (b : Bus) : Prop extends Status delay answers b where
  isWrite : b.line.IsWrite

/-- A request was begun and nothing shifted yet. -/
structure Begun (r : Request) (b : Bus) : Prop where
  delay_eq : b.channel.halfBitDelayNs = delay
  answers_eq : b.answers = answers
  position_eq : b.position = r.position
  last : b.requests.getLast? = some r
  orderly_iff : b.Orderly ∧ (0 < delay → b.line.IsWrite) ↔
    (0 < delay → ∀ r ∈ b.requests.dropLast, r.Turns delay answers)

/-- The target answers the last request, and the next bit is at the given place. -/
structure Reading (r : Request) (p : Nat) (b : Bus) : Prop where
  delay_eq : b.channel.halfBitDelayNs = delay
  answers_eq : b.answers = answers
  position_eq : b.position = p
  last : b.requests.getLast? = some r
  isRead : b.line.IsRead
  orderly_iff : b.Orderly ↔ (0 < delay → ∀ r ∈ b.requests.dropLast, r.Turns delay answers)

end Answers

variable {delay : Nat} {answers : Nat → Bool}

theorem forall_dropLast_getLast {α : Type} {P : α → Prop} {l : List α} :
    (∀ a ∈ l, P a) ↔ (∀ a ∈ l.dropLast, P a) ∧ ∀ a ∈ l.getLast?, P a := by
  rcases List.eq_nil_or_concat l with rfl | ⟨l, a, rfl⟩
  · simp
  · simp [or_imp, forall_and]

theorem Status.congr {b b' : Bus} (h : Status delay answers b)
    (hdelay : b'.channel.halfBitDelayNs = b.channel.halfBitDelayNs) (hanswers : b'.answers = b.answers)
    (hline : b'.line = b.line) (hevents : b'.events = b.events) (hrequests : b'.requests = b.requests) :
    Status delay answers b' := by
  refine ⟨hdelay.trans h.delay_eq, hanswers.trans h.answers_eq, ?_, ?_⟩
  · rw [Bus.Orderly, hevents, hrequests]
    exact h.orderly_iff
  · rw [hline, hrequests]
    exact h.write_iff

theorem begin_spec (kind : Kind) (value : UInt32) {R : Error → Bus → Prop} :
    Triple (Status delay answers) (begin kind value)
      (fun _ b => ∃ p, Begun delay answers ⟨kind, p, value⟩ b) R := by
  refine Triple.update ?_
  intro b h
  refine ⟨b.position, h.delay_eq, h.answers_eq, rfl, by simp, ?_⟩
  show b.Orderly ∧ (0 < delay → b.line.IsWrite) ↔ _
  rw [h.orderly_iff, h.write_iff, List.dropLast_concat, forall_dropLast_getLast (l := b.requests)]
  constructor
  · rintro ⟨h₁, h₂⟩ hd
    exact ⟨h₁ hd, h₂ hd⟩
  · intro h
    exact ⟨fun hd => (h hd).1, fun hd => (h hd).2⟩

theorem request_spec (r : Request) (byte : UInt8) {R : Error → Bus → Prop} :
    Triple (Begun delay answers r) (request byte)
      (fun ack b => ack = r.ack answers ∧ Reading delay answers r (r.position + 4) b) R := by
  intro b h
  simp only [request, exec_bind, exec_shiftOutBytes, exec_setDirectionToRead, exec_shiftIn, exec_pure]
  refine ⟨by rw [h.answers_eq, h.position_eq]; rfl, h.delay_eq, h.answers_eq, ?_, h.last,
    Line.isRead_read _, ?_⟩
  · simp only [h.position_eq]
  · rw [← h.orderly_iff, Bus.Orderly, h.delay_eq]
    simp only [List.forall_mem_append, List.forall_mem_singleton,
      orderly_outEvents (List.cons_ne_nil _ _)]
    simp [Event.Orderly, Line.isRead_read, Bus.Orderly]

theorem readUint32_spec (r : Request) {R : Error → Bus → Prop} :
    Triple (Reading delay answers r (r.position + 4)) (readUint32 r.value)
      (fun a b => a.1 = r.parityRight delay answers ∧
        Reading delay answers r (wordEnd delay (r.position + 4) + 1) b) R := by
  intro b h
  by_cases hd : delay = 0
  · subst hd
    simp only [readUint32, exec_bind, exec_delayNs, h.delay_eq, if_true, shiftInBytes, debugIn,
      Nat.lt_irrefl, if_false, exec_pure, exec_shiftIn]
    refine ⟨by rw [h.answers_eq, h.position_eq]; rfl, h.delay_eq, h.answers_eq, ?_, h.last, h.isRead, ?_⟩
    · simp [h.position_eq, wordEnd]
    · rw [← h.orderly_iff]
      simp [Bus.Orderly, Event.Orderly, h.isRead, or_imp, forall_and]
  · simp only [readUint32, exec_bind, exec_delayNs, h.delay_eq, if_neg hd, exec_pure, exec_shiftIn]
    refine ⟨?_, h.delay_eq, h.answers_eq, ?_, h.last, h.isRead, ?_⟩
    · simp only [Request.parityRight, word, wordEnd, if_neg hd, h.answers_eq, h.position_eq]
    · simp [h.position_eq, wordEnd, hd]
    · rw [← h.orderly_iff]
      simp [Bus.Orderly, Event.Orderly, h.isRead, or_imp, forall_and]

theorem turnToWriteAndSkip_spec {r : Request} {p : Nat} (hr : r.Turns delay answers)
    {R : Error → Bus → Prop} :
    Triple (Reading delay answers r p) turnToWriteAndSkip (fun _ => Ready delay answers) R := by
  intro b h
  simp only [turnToWriteAndSkip, exec_bind, exec_shiftIn, exec_setDirectionToWrite]
  have hw := Line.isWrite_write b.line.direction
  refine ⟨⟨h.delay_eq, h.answers_eq, ?_, ?_⟩, hw⟩
  · rw [← h.orderly_iff]
    simp [Bus.Orderly, Event.Orderly, h.isRead, or_imp, forall_and]
  · simp [h.last, hw, hr]

theorem turnToWriteAndSkip_status {r : Request} {p : Nat} (hr : r.Turns delay answers)
    {R : Error → Bus → Prop} :
    Triple (Reading delay answers r p) turnToWriteAndSkip (fun _ => Status delay answers) R :=
  (turnToWriteAndSkip_spec hr).weaken (fun _ h => h) fun _ _ h => h.toStatus

theorem Reading.status {r : Request} {p : Nat} {b : Bus} (h : Reading delay answers r p b)
    (hr : ¬ r.Turns delay answers) : Status delay answers b := by
  refine ⟨h.delay_eq, h.answers_eq, h.orderly_iff, ?_⟩
  simp [h.last, hr, h.isRead.not_isWrite]

/-- Shifts out while the wire is the host's. -/
theorem Ready.shifts {b : Bus} (h : Ready delay answers b) {events : List Event}
    (hevents : ∀ e ∈ events, e.Orderly) :
    Ready delay answers { b with events := b.events ++ events } := by
  refine ⟨⟨h.delay_eq, h.answers_eq, ?_, h.write_iff⟩, h.isWrite⟩
  rw [← h.orderly_iff, Bus.Orderly, List.forall_mem_append]
  exact and_iff_left hevents

theorem shiftOut_spec (byte : UInt8) (n : Nat) {R : Error → Bus → Prop} :
    Triple (Ready delay answers) (shiftOut byte n) (fun _ => Ready delay answers) R := by
  intro b h
  refine h.shifts ?_
  simpa [Event.Orderly] using h.isWrite

theorem shiftOutBytes_spec (data : List UInt8) {R : Error → Bus → Prop} :
    Triple (Ready delay answers) (shiftOutBytes data) (fun _ => Ready delay answers) R := by
  intro b h
  rw [exec_shiftOutBytes]
  refine h.shifts ?_
  cases data with
  | nil => simp [outEvents]
  | cons byte data => exact (orderly_outEvents (List.cons_ne_nil _ _)).2 fun _ => h.isWrite

theorem writeUint32_spec (value : UInt32) {R : Error → Bus → Prop} :
    Triple (Ready delay answers) (writeUint32 value) (fun _ => Ready delay answers) R := by
  refine Triple.bind_read fun d => ?_
  by_cases hd : d = 0
  · simp only [if_pos hd]
    exact (shiftOutBytes_spec _).bind fun _ => shiftOut_spec _ _
  · simp only [if_neg hd]
    exact (shiftOut_spec _ _).bind fun _ => (shiftOut_spec _ _).bind fun _ =>
      (shiftOut_spec _ _).bind fun _ => (shiftOut_spec _ _).bind fun _ => shiftOut_spec _ _

theorem readPortLoop_spec (overrun : Bool) (byte : UInt8) (tries : Nat) (ack : UInt8) (value : UInt32) :
    Triple (Status delay answers) (readPortLoop overrun byte tries ack value)
      (fun _ => Status delay answers) fun _ => Status delay answers := by
  induction tries generalizing ack value with
  | zero => exact Triple.throw fun _ h => h
  | succ tries ih =>
    rw [readPortLoop]
    refine Triple.bind (begin_spec _ _) fun _ => Triple.exists fun p => ?_
    let r : Request := ⟨.readPort overrun, p, value⟩
    refine Triple.bind (request_spec r byte) fun ack => Triple.assume fun hack => ?_
    cases overrun with
    | true =>
      rw [if_pos rfl]
      refine Triple.bind (readUint32_spec r) fun ⟨right, value⟩ => Triple.assume fun hright => ?_
      cases right with
      | false =>
        have hr : ¬ r.Turns delay answers := fun h => by
          have := h (Or.inl rfl)
          rw [← hright] at this
          cases this
        exact (ih ack value).weaken (fun _ h => h.status hr) fun _ _ h => h
      | true =>
        have hr : r.Turns delay answers := fun _ => hright.symm
        refine Triple.bind (turnToWriteAndSkip_status hr) fun _ => ?_
        split
        · exact Triple.pure fun _ h => h
        · split
          · exact Triple.throw fun _ h => h
          · exact ih ack value
    | false =>
      rw [if_neg Bool.false_ne_true]
      by_cases hok : ack = ackOk
      · rw [if_pos hok]
        refine Triple.bind (readUint32_spec r) fun ⟨right, value⟩ => Triple.assume fun hright => ?_
        cases right with
        | false =>
          have hr : ¬ r.Turns delay answers := fun h => by
            have := h (Or.inr (hack ▸ hok))
            rw [← hright] at this
            cases this
          exact (ih ack value).weaken (fun _ h => h.status hr) fun _ _ h => h
        | true =>
          have hr : r.Turns delay answers := fun _ => hright.symm
          refine Triple.bind (turnToWriteAndSkip_status hr) fun _ => ?_
          exact Triple.pure fun _ h => h
      · rw [if_neg hok]
        have hr : r.Turns delay answers := by
          rintro (h | h)
          · cases h
          · exact absurd (hack.trans h) hok
        refine Triple.bind (turnToWriteAndSkip_status hr) fun _ => ?_
        split
        · exact Triple.throw fun _ h => h
        · exact ih ack value

theorem readPort_spec (port : Port) (offset : UInt8) (value : UInt32) :
    Triple (Status delay answers) (readPort port offset value)
      (fun _ => Status delay answers) fun _ => Status delay answers :=
  Triple.bind_read fun _ => Triple.bind_read fun _ => readPortLoop_spec _ _ _ _ _

theorem writePortLoop_spec (overrun : Bool) (byte : UInt8) (value : UInt32) (tries : Nat) (ack : UInt8) :
    Triple (Status delay answers) (writePortLoop overrun byte value tries ack)
      (fun _ => Ready delay answers) fun _ => Status delay answers := by
  induction tries generalizing ack with
  | zero => exact Triple.throw fun _ h => h
  | succ tries ih =>
    rw [writePortLoop]
    refine Triple.bind (begin_spec _ _) fun _ => Triple.exists fun p => ?_
    let r : Request := ⟨.writePort, p, value⟩
    refine Triple.bind (request_spec r byte) fun ack => Triple.assume fun _ => ?_
    have hr : r.Turns delay answers := trivial
    refine Triple.bind (turnToWriteAndSkip_spec hr) fun _ => ?_
    have hrest : Triple (Ready delay answers) (if ack ≠ ackWait then
        throw ⟨errorUnexpectedAck, ack.toUInt64⟩ else writePortLoop overrun byte value tries ack)
        (fun _ => Ready delay answers) fun _ => Status delay answers := by
      split
      · exact Triple.throw fun _ h => h.toStatus
      · exact (ih ack).weaken (fun _ h => h.toStatus) fun _ _ h => h
    cases overrun with
    | true =>
      simp only [if_true]
      refine Triple.bind (writeUint32_spec value) fun _ => ?_
      by_cases hok : ack = ackOk
      · simp only [hok, Bool.not_true, Bool.false_eq_true, if_true, if_false]
        exact Triple.pure fun _ h => h
      · simpa only [if_neg hok] using hrest
    | false =>
      by_cases hok : ack = ackOk
      · simpa [hok] using writeUint32_spec value
      · simpa [if_neg hok] using hrest

theorem writePort_spec (port : Port) (offset : UInt8) (value : UInt32) :
    Triple (Status delay answers) (writePort port offset value)
      (fun _ => Ready delay answers) fun _ => Status delay answers :=
  Triple.bind_read fun _ => Triple.bind_read fun _ => writePortLoop_spec _ _ _ _ _

theorem selectAccessPortRegister_spec (accessPortRegister : UInt8) {R : Error → Bus → Prop} :
    Triple (Status delay answers) (selectAccessPortRegister accessPortRegister)
      (fun _ => Status delay answers) R :=
  Triple.update fun _ h => h.congr rfl rfl rfl rfl rfl

theorem portSelect_spec : Triple (Status delay answers) portSelect
    (fun _ => Ready delay answers) fun _ => Status delay answers :=
  Triple.bind_read fun _ => writePort_spec _ _ _

theorem selectAndWriteAccessPort_spec (accessPortRegister : UInt8) (value : UInt32) :
    Triple (Status delay answers) (selectAndWriteAccessPort accessPortRegister value)
      (fun _ => Ready delay answers) fun _ => Status delay answers := by
  refine Triple.bind (selectAccessPortRegister_spec _) fun _ => ?_
  refine Triple.bind portSelect_spec fun _ => ?_
  refine Triple.bind ((writePort_spec _ _ _).weaken (fun _ h => h.toStatus) fun _ _ h => h) fun _ => ?_
  exact shiftOutBytes_spec [0]

theorem setOverrunDetection_spec (enabled : Bool) :
    Triple (Status delay answers) (setOverrunDetection enabled)
      (fun _ => Status delay answers) fun _ => Status delay answers := by
  refine Triple.bind (writePort_spec _ _ _) fun _ => ?_
  refine Triple.bind ((writePort_spec _ _ _).weaken (fun _ h => h.toStatus) fun _ _ h => h) fun _ => ?_
  exact Triple.update fun _ h => h.toStatus.congr rfl rfl rfl rfl rfl

theorem beforeMemoryTransfer_spec (address length : UInt32) :
    Triple (Status delay answers) (beforeMemoryTransfer address length)
      (fun _ => Status delay answers) fun _ => Status delay answers := by
  rw [beforeMemoryTransfer]
  split
  · exact Triple.throw fun _ h => h
  split
  · exact Triple.throw fun _ h => h
  split
  · exact Triple.throw fun _ h => h
  refine Triple.bind (selectAndWriteAccessPort_spec _ _) fun _ => ?_
  refine Triple.bind ((selectAccessPortRegister_spec _).weaken (fun _ h => h.toStatus) fun _ _ h => h)
    fun _ => ?_
  refine Triple.bind portSelect_spec fun _ => ?_
  exact (setOverrunDetection_spec true).weaken (fun _ h => h.toStatus) fun _ _ h => h

theorem afterMemoryTransfer_spec (status : UInt32) :
    Triple (Status delay answers) (afterMemoryTransfer status)
      (fun _ => Status delay answers) fun _ => Status delay answers := by
  refine Triple.bind (readPort_spec _ _ _) fun status => ?_
  refine Triple.bind (setOverrunDetection_spec false) fun _ => ?_
  split
  · exact Triple.throw fun _ h => h
  · exact Triple.pure fun _ h => h

theorem requestWrite_spec (byte : UInt8) (value : UInt32) :
    Triple (Status delay answers) (requestWrite byte value)
      (fun _ => Status delay answers) fun _ => Status delay answers := by
  refine Triple.bind (begin_spec _ _) fun _ => Triple.exists fun p => ?_
  let r : Request := ⟨.requestWrite, p, value⟩
  refine Triple.bind (request_spec r byte) fun ack => Triple.assume fun hack => ?_
  subst hack
  by_cases hok : r.ack answers = ackOk
  · rw [if_neg (not_not_intro hok)]
    have hr : r.Turns delay answers := hok
    refine Triple.bind (turnToWriteAndSkip_spec hr) fun _ => ?_
    exact (writeUint32_spec value).weaken (fun _ h => h) fun _ _ h => h.toStatus
  · rw [if_pos hok]
    have hr : ¬ r.Turns delay answers := hok
    exact Triple.throw fun _ h => h.status hr

theorem requestRead_spec (byte : UInt8) (value : UInt32) :
    Triple (Status delay answers) (requestRead byte value)
      (fun _ => Status delay answers) fun _ => Status delay answers := by
  refine Triple.bind (begin_spec _ _) fun _ => Triple.exists fun p => ?_
  let r : Request := ⟨.requestRead, p, value⟩
  refine Triple.bind (request_spec r byte) fun ack => Triple.assume fun hack => ?_
  subst hack
  by_cases hok : r.ack answers = ackOk
  · rw [if_neg (not_not_intro hok)]
    refine Triple.bind (readUint32_spec r) fun ⟨right, value⟩ => Triple.assume fun hright => ?_
    cases right with
    | false =>
      have hr : ¬ r.Turns delay answers := fun h => Bool.false_ne_true (hright.trans h.2)
      exact Triple.throw fun _ h => h.status hr
    | true =>
      have hr : r.Turns delay answers := ⟨hok, hright.symm⟩
      exact Triple.bind (turnToWriteAndSkip_status hr) fun _ => Triple.pure fun _ h => h
  · rw [if_pos hok]
    have hr : ¬ r.Turns delay answers := fun h => hok h.1
    exact Triple.throw fun _ h => h.status hr

theorem requestWrites_spec (byte : UInt8) (data : Nat → UInt8) (words i : Nat) :
    Triple (Status delay answers) (requestWrites byte data words i)
      (fun _ => Status delay answers) fun _ => Status delay answers := by
  induction words generalizing i with
  | zero => exact Triple.pure fun _ h => h
  | succ words ih => exact Triple.bind (requestWrite_spec _ _) fun _ => ih (i + 4)

theorem requestReads_spec (byte : UInt8) (words : Nat) (value : UInt32) :
    Triple (Status delay answers) (requestReads byte words value)
      (fun _ => Status delay answers) fun _ => Status delay answers := by
  induction words generalizing value with
  | zero => exact Triple.pure fun _ h => h
  | succ words ih =>
    refine Triple.bind (requestRead_spec _ _) fun value => ?_
    exact Triple.bind (ih value) fun _ => Triple.pure fun _ h => h

theorem writeMemoryTransfer_spec (address : UInt32) (data : Nat → UInt8) (length status : UInt32) :
    Triple (Status delay answers) (writeMemoryTransfer address data length status)
      (fun _ => Status delay answers) fun _ => Status delay answers := by
  refine Triple.bind (beforeMemoryTransfer_spec _ _) fun _ => ?_
  refine Triple.bind (requestWrites_spec _ _ _ _).attempt fun success => ?_
  exact Triple.bind (afterMemoryTransfer_spec _) fun _ => Triple.ofExcept

theorem readMemoryTransfer_spec (address length value status : UInt32) :
    Triple (Status delay answers) (readMemoryTransfer address length value status)
      (fun _ => Status delay answers) fun _ => Status delay answers := by
  refine Triple.bind (beforeMemoryTransfer_spec _ _) fun _ => ?_
  refine Triple.bind (Triple.attempt (S := Status delay answers) ?_) fun success => ?_
  · exact Triple.bind (requestRead_spec _ _) fun value => requestReads_spec _ _ value
  exact Triple.bind (afterMemoryTransfer_spec _) fun _ => Triple.ofExcept

/-- A call of a function that makes transactions. -/
inductive Call where
  | readPort (port : Port) (registerOffset : UInt8) (value : UInt32)
  | writePort (port : Port) (registerOffset : UInt8) (value : UInt32)
  | writeMemoryTransfer (address : UInt32) (data : Nat → UInt8) (length status : UInt32)
  | readMemoryTransfer (address length value status : UInt32)

def Call.run : Call → Operation (List UInt8)
  | .readPort port registerOffset value => do
    let value ← Swd.readPort port registerOffset value
    pure (packLittleEndianUint32 value)
  | .writePort port registerOffset value => do
    Swd.writePort port registerOffset value
    pure []
  | .writeMemoryTransfer address data length status => do
    Swd.writeMemoryTransfer address data length status
    pure []
  | .readMemoryTransfer address length value status =>
    Swd.readMemoryTransfer address length value status

theorem Call.run_spec (call : Call) : Triple (Status delay answers) call.run
    (fun _ => Status delay answers) fun _ => Status delay answers := by
  cases call with
  | readPort => exact Triple.bind (readPort_spec _ _ _) fun _ => Triple.pure fun _ h => h
  | writePort =>
    exact Triple.bind (writePort_spec _ _ _) fun _ => Triple.pure fun _ h => h.toStatus
  | writeMemoryTransfer =>
    exact Triple.bind (writeMemoryTransfer_spec _ _ _ _) fun _ => Triple.pure fun _ h => h
  | readMemoryTransfer => exact readMemoryTransfer_spec _ _ _ _

/-- The bus when a call returns. -/
def Call.bus (call : Call) (channel : Channel) (line : Line) (answers : Nat → Bool) : Bus :=
  (exec call.run (.init channel line answers)).2

/-- Every shift was made in its own direction, and the wire is the host's again. -/
def Bus.Disciplined (b : Bus) : Prop := b.Orderly ∧ b.line.IsWrite

instance (b : Bus) : Decidable b.Disciplined :=
  inferInstanceAs (Decidable (b.Orderly ∧ b.line.IsWrite))

/-- The answers to the requests of a call: with a delay between bits the wire is turned after each of
them, and with none after the last. -/
def Call.Turned (call : Call) (channel : Channel) (line : Line) (answers : Nat → Bool) : Prop :=
  let requests := (call.bus channel line answers).requests
  if 0 < channel.halfBitDelayNs then
    ∀ r ∈ requests, r.Turns channel.halfBitDelayNs answers
  else
    ∀ r ∈ requests.getLast?, r.Turns channel.halfBitDelayNs answers

instance (call : Call) (channel : Channel) (line : Line) (answers : Nat → Bool) :
    Decidable (call.Turned channel line answers) := by
  unfold Call.Turned
  infer_instance

theorem Status.init (channel : Channel) {line : Line} (answers : Nat → Bool) (hline : line.IsWrite) :
    Status channel.halfBitDelayNs answers (.init channel line answers) := by
  refine ⟨rfl, rfl, ?_, ?_⟩
  · simp [Bus.init, Bus.Orderly]
  · simpa [Bus.init] using hline

theorem Call.disciplined_iff (call : Call) (channel : Channel) (line : Line) (answers : Nat → Bool)
    (hline : line.IsWrite) :
    (call.bus channel line answers).Disciplined ↔ call.Turned channel line answers := by
  have h : Status channel.halfBitDelayNs answers (call.bus channel line answers) :=
    call.run_spec.final (.init channel answers hline)
  rw [Bus.Disciplined, h.orderly_iff, h.write_iff, Call.Turned]
  by_cases hd : 0 < channel.halfBitDelayNs
  · rw [if_pos hd, forall_dropLast_getLast (l := (call.bus channel line answers).requests)]
    exact and_congr_left fun _ => forall_prop_of_true hd
  · rw [if_neg hd]
    exact and_iff_right fun h => absurd h hd

def sampleChannel (delay : Nat) : Channel := ⟨false, 2, delay, ⟨0, 0, 0, 0⟩⟩

def sampleLine : Line := ⟨true, some true⟩

/-- The answer OK with a word of zeros and the right parity. -/
theorem disciplined_sample : ((Call.readPort .debug dpStat 0).bus (sampleChannel 1) sampleLine
    (fun p => p == 1)).Disciplined :=
  (Call.disciplined_iff (.readPort .debug dpStat 0) (sampleChannel 1) sampleLine (fun p => p == 1)
    (by decide)).2 (by decide +kernel)

/-- The answer OK with a word of zeros and the wrong parity: the second request is shifted out in read
direction. -/
theorem not_disciplined_parity : sampleLine.IsWrite ∧
    ¬ ((Call.readPort .debug dpStat 0).bus (sampleChannel 1) sampleLine
      (fun p => p == 1 || p == 36)).Orderly := by
  decide +kernel

end Swd
end Firefly
