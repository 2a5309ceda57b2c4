import Firefly.Rpc.Transport

/-!
# Firefly.Rpc.Verdict

What `fd_rpc_channel_received_data` says of a chunk. The handlers keep a state here, so that the same
packet may be taken once and refused the next time. A frame ends with its delimiter, and has a
`Verdict`; only that of a frame which did not fit the buffer comes into the result (`reports_iff`).
-/

namespace Firefly
namespace Rpc

/-- The handlers of the packets, and what they work on. -/
abbrev Handler (σ : Type) := PacketType → List UInt8 → σ → Bool × σ

/-- What becomes of a frame. One is `unkept` if the buffer had no room for a single byte of it. -/
inductive Verdict where
  | accepted
  | rejected
  | overflowed
  | unkept
  deriving DecidableEq

namespace Nanopb

open Bytes Packet

variable {σ : Type} (pb : Nanopb) (handler : Handler σ)

/-- `fd_rpc_channel_received_packet`. -/
def receivedPacketIn (packet : Binary) (s : σ) : Bool × σ :=
  let data := packet.buffer
  let size := packet.putIndex
  if size < headerSize then (false, s)
  else
    let crc16 := UInt16.ofNat (leNat (data.read 0 2))
    let length := leNat (data.read 2 2)
    let lengthActual := size - headerSize
    let crc16Actual := Crc16.update (data.read 2 (size - 2))
    if crc16Actual ≠ crc16 then (false, s)
    else if lengthActual ≠ length then (false, s)
    else
      let (type, rest) := pb.decodeVarint32 (data.read headerSize (size - headerSize))
      match PacketType.ofValue type with
      | none => (true, s)
      | some type => handler type rest s

/-- A byte of the stream. The result of a packet is stored in a variable that hides the one that is
returned. -/
def receivedByteIn (packet : Binary) (s : σ) (byte : UInt8) : Bool × Binary × σ × Option Verdict :=
  if byte ≠ delimiter then (true, packet.putUint8 byte, s, none)
  else if packet.putIndex = 0 then (true, packet, s, if packet.errors ≠ 0 then some .unkept else none)
  else if packet.errors ≠ 0 then (false, packet.reset, s, some .overflowed)
  else
    let (buffer, size) := InPlace.decode packet.buffer packet.putIndex
    let packet := { packet with buffer := buffer, putIndex := size }
    let (result, s) := pb.receivedPacketIn handler packet s
    (true, packet.reset, s, some (if result then .accepted else .rejected))

/-- `fd_rpc_channel_received_data`, with the verdicts on the frames that end in the chunk. -/
def receivedDataIn (packet : Binary) (s : σ) : List UInt8 → Bool × Binary × σ × List Verdict
  | [] => (true, packet, s, [])
  | byte :: data =>
    let (result, packet, s, verdict) := pb.receivedByteIn handler packet s byte
    let (result', packet, s, verdicts) := receivedDataIn packet s data
    (result && result', packet, s, verdict.toList ++ verdicts)

/-- False is returned for a chunk in which a frame was refused, and for no other. -/
def Reports (packet : Binary) (s : σ) (data : List UInt8) : Prop :=
  (pb.receivedDataIn handler packet s data).1 = false ↔
    ∃ verdict ∈ (pb.receivedDataIn handler packet s data).2.2.2, verdict ≠ .accepted

variable {pb handler}

/-- Handlers without a state are those of `receivedData`. -/
theorem receivedDataIn_eq (handler : PacketType → List UInt8 → Bool) (p : Binary) (data : List UInt8) :
    (pb.receivedDataIn (fun type rest (_ : Unit) => (handler type rest, ())) p () data).1 =
        (pb.receivedData handler p data).1 ∧
      (pb.receivedDataIn (fun type rest (_ : Unit) => (handler type rest, ())) p () data).2.1 =
        (pb.receivedData handler p data).2.1 := by
  induction data generalizing p with
  | nil => exact ⟨rfl, rfl⟩
  | cons byte data ih =>
    have hbyte : (pb.receivedByteIn (fun type rest (_ : Unit) => (handler type rest, ())) p () byte).1 =
          (pb.receivedByte handler p byte).1 ∧
        (pb.receivedByteIn (fun type rest (_ : Unit) => (handler type rest, ())) p () byte).2.1 =
          (pb.receivedByte handler p byte).2.1 := by
      rw [receivedByteIn, receivedByte]
      split
      · exact ⟨rfl, rfl⟩
      · split
        · exact ⟨rfl, rfl⟩
        · split
          · exact ⟨rfl, rfl⟩
          · exact ⟨rfl, rfl⟩
    obtain ⟨hresult, hpacket⟩ := hbyte
    obtain ⟨hrest, hlast⟩ := ih (pb.receivedByte handler p byte).2.1
    rw [← hpacket] at hrest hlast
    simp only [receivedDataIn, receivedData, hresult, ← hpacket]
    exact ⟨congrArg _ hrest, hlast⟩

theorem receivedByteIn_eq_false_iff (p : Binary) (s : σ) (byte : UInt8) :
    (pb.receivedByteIn handler p s byte).1 = false ↔
      (pb.receivedByteIn handler p s byte).2.2.2 = some .overflowed := by
  rw [receivedByteIn]
  split
  · simp
  · split
    · split <;> simp
    · split
      · simp
      · simp only [Bool.true_eq_false, Option.some.injEq, false_iff]
        split <;> simp

/-- Only a frame that did not fit makes the result false. -/
theorem receivedDataIn_eq_false_iff (p : Binary) (s : σ) (data : List UInt8) :
    (pb.receivedDataIn handler p s data).1 = false ↔
      .overflowed ∈ (pb.receivedDataIn handler p s data).2.2.2 := by
  induction data generalizing p s with
  | nil => simp [receivedDataIn]
  | cons byte data ih =>
    have hrest := ih (pb.receivedByteIn handler p s byte).2.1 (pb.receivedByteIn handler p s byte).2.2.1
    have hbyte := @receivedByteIn_eq_false_iff _ pb handler p s byte
    simp only [receivedDataIn, Bool.and_eq_false_iff, List.mem_append, Option.mem_toList]
    exact or_congr hbyte hrest

/-- The result tells of the frames that were refused if and only if one of them did not fit the buffer,
or none was refused at all. -/
theorem reports_iff (pb : Nanopb) (handler : Handler σ) (p : Binary) (s : σ) (data : List UInt8) :
    pb.Reports handler p s data ↔
      .overflowed ∈ (pb.receivedDataIn handler p s data).2.2.2 ∨
        .rejected ∉ (pb.receivedDataIn handler p s data).2.2.2 ∧
          .unkept ∉ (pb.receivedDataIn handler p s data).2.2.2 := by
  rw [Reports, receivedDataIn_eq_false_iff]
  generalize (pb.receivedDataIn handler p s data).2.2.2 = verdicts
  by_cases hover : .overflowed ∈ verdicts
  · exact iff_of_true (iff_of_true hover ⟨.overflowed, hover, by simp⟩) (Or.inl hover)
  · rw [or_iff_right hover]
    constructor
    · intro h
      have hnone : ∀ verdict ∈ verdicts, verdict = .accepted := by
        intro verdict hmem
        by_contra hne
        exact hover (h.mpr ⟨verdict, hmem, hne⟩)
      exact ⟨fun hmem => absurd (hnone _ hmem) (by simp), fun hmem => absurd (hnone _ hmem) (by simp)⟩
    · rintro ⟨hrejected, hunkept⟩
      refine iff_of_false hover ?_
      rintro ⟨verdict, hmem, hne⟩
      cases verdict with
      | accepted => exact hne rfl
      | rejected => exact hrejected hmem
      | overflowed => exact hover hmem
      | unkept => exact hunkept hmem

/-- A frame of a single code, in which there is no header. -/
theorem not_reports : ¬ ∀ (σ : Type) (handler : Handler σ) (p : Binary) (s : σ) (data : List UInt8),
    Sample.nanopb.Reports handler p s data := by
  intro h
  have hreports := h Unit (fun _ _ _ => (true, ())) (Binary.initializeWith (fun _ => 0) 64) () [1, 0]
  have hresult : (Sample.nanopb.receivedDataIn (fun _ _ (_ : Unit) => (true, ()))
      (Binary.initializeWith (fun _ => 0) 64) () [1, 0]).1 = true := by decide +kernel
  have hverdicts : (Sample.nanopb.receivedDataIn (fun _ _ (_ : Unit) => (true, ()))
      (Binary.initializeWith (fun _ => 0) 64) () [1, 0]).2.2.2 = [.rejected] := by decide +kernel
  rw [Reports, hresult, hverdicts] at hreports
  exact absurd (hreports.mpr ⟨.rejected, List.mem_singleton_self _, by simp⟩) (by simp)

end Nanopb
end Rpc
end Firefly
