import Firefly.Rpc.Packet

/-!
# Firefly.Rpc.Framing

Packets on a stream arrive as they were sent. What the sender writes is an encoding of
`Packet.bytes` and the delimiter (`sendPacket_eq`); the receiver calls the handler for it, if it
starts clean (`receivedData_frame`); and it is clean after every delimiter, whatever came before
(`clean_receivedData`). Chunks do not matter (`receivedChunks_eq`).
-/

namespace Firefly
namespace Rpc

open Bytes Packet

variable {pb : Nanopb} {handler : PacketType → List UInt8 → Bool}
variable {type : PacketType} {payload : List UInt8} {limit : Nat} {p : Binary}

/-! ## Packets -/

namespace Packet

theorem encodeVarint_eq (h : pb.Documented) (type : PacketType) :
    pb.encodeVarint type.value = Varint.encode type.value :=
  h.encodeVarint _ (Nat.lt_of_lt_of_le type.value_lt (by decide))

theorem length_encode_value (type : PacketType) : (Varint.encode type.value).length = 1 := by
  cases type <;> rfl

theorem length_checked (type : PacketType) (payload : List UInt8) :
    (checked type payload).length = payload.length + 3 := by
  rw [checked, List.length_append, length_leBytes, List.length_append, length_encode_value]
  omega

theorem length_bytes (type : PacketType) (payload : List UInt8) :
    (bytes type payload).length = payload.length + 5 := by
  rw [bytes, List.length_append, length_leBytes, length_checked]
  omega

end Packet

/-! ## Sending -/

namespace Nanopb

theorem putHeader_eq (h : pb.Documented) (type : PacketType) (hp : p.contents = payload)
    (hlen : payload.length + 1 < 2 ^ 16) :
    (pb.putHeader type.value p).2 = (bytes type payload).length ∧
      (pb.putHeader type.value p).1.read 0 (bytes type payload).length = bytes type payload := by
  have htype := encodeVarint_eq h type
  have hone := length_encode_value type
  have hn := Binary.putIndex_eq hp
  have hcontents : p.buffer.read 0 payload.length = payload := by rw [← hn]; exact hp
  have hchecked := length_checked type payload
  have hbytes := length_bytes type payload
  -- The payload makes room, and each field is written in front of what is there.
  let data := p.buffer.move (headerSize + 1) 0 payload.length
  have hdata : data.read (headerSize + 1) payload.length = payload := by
    rw [Memory.read_move, hcontents]
  let rest := Varint.encode type.value ++ payload
  let data₁ := data.write headerSize (Varint.encode type.value)
  have hrest : data₁.read headerSize rest.length = rest :=
    Memory.read_write_front (by rw [hone, hdata])
  have hrestLength : rest.length = payload.length + 1 := by
    rw [List.length_append, hone, Nat.add_comm]
  let data₂ := data₁.write 2 (leBytes 2 rest.length)
  have hcheck : data₂.read 2 (checked type payload).length = checked type payload :=
    Memory.read_write_front (by rw [length_leBytes]; exact hrest)
  have hall : (data₂.write 0 (leBytes 2 (Crc16.update (checked type payload)).toNat)).read 0
      (bytes type payload).length = bytes type payload :=
    Memory.read_write_front (by rw [length_leBytes]; exact hcheck)
  have hindex : payload.length + (headerSize + 1) = (bytes type payload).length := by
    rw [hbytes, headerSize]
  have hfield : (UInt16.ofNat (payload.length + (headerSize + 1) - headerSize)).toNat = rest.length := by
    rw [UInt16.toNat_ofNat', Nat.mod_eq_of_lt (by omega)]
    omega
  have hover : payload.length + (headerSize + 1) - 2 = (checked type payload).length := by
    rw [hchecked, headerSize]
    omega
  simp only [putHeader, htype, hone, hn, hfield, hover]
  refine ⟨hindex, ?_⟩
  show (data₂.write 0 (leBytes 2 (Crc16.update (data₂.read 2 (checked type payload).length)).toNat)).read 0
    (bytes type payload).length = bytes type payload
  rw [hcheck, hall]

/-- What the sender writes, if it does. -/
theorem sendPacket_eq (h : pb.Documented) {buffer : Memory} {w : List UInt8}
    (hp : p.contents = payload) (hsize : p.size ≤ Cobs.fullLength * (lookahead - 1))
    (hsent : pb.sendPacket buffer type.value p = some (.written w)) :
    w = Cobs.encode (bytes type payload) ++ [delimiter] ∧
      (Cobs.encode (bytes type payload)).length < p.size := by
  have hbytes := length_bytes type payload
  have hn := Binary.putIndex_eq hp
  have hbound : Cobs.fullLength * (lookahead - 1) < 2 ^ 16 := by decide
  rw [sendPacket, encodeVarint_eq h, length_encode_value, hn] at hsent
  by_cases hroom : headerSize + 1 + payload.length > p.size
  · rw [if_pos hroom] at hsent
    cases hsent
  · rw [headerSize] at hroom
    obtain ⟨hindex, hdata⟩ := putHeader_eq h type hp (by omega)
    obtain ⟨data, hencode, hread⟩ := InPlace.encode_eq hdata (by decide : 2 ≤ lookahead)
      (by omega) buffer
    rw [if_neg (by rw [headerSize]; exact hroom)] at hsent
    rw [← hindex] at hencode
    simp only [hencode, Option.bind_eq_bind, Option.bind_some] at hsent
    by_cases hempty : (Cobs.encode (bytes type payload)).length = 0
    · rw [if_pos hempty] at hsent
      cases hsent
    · by_cases hfull : (Cobs.encode (bytes type payload)).length ≥ p.size
      · rw [if_neg hempty, if_pos hfull] at hsent
        cases hsent
      · rw [if_neg hempty, if_neg hfull] at hsent
        injection hsent with hsent
        injection hsent with hwritten
        have happend := Memory.read_write_append hread [delimiter]
        rw [Nat.zero_add, List.length_singleton] at happend
        exact ⟨by rw [← hwritten, happend], Nat.lt_of_not_le hfull⟩

/-! ## Receiving -/

/-- A packet is taken apart as it was put together. -/
theorem receivedPacket_eq (h : pb.Documented) (hp : p.contents = bytes type payload)
    (hlen : payload.length + 1 < 2 ^ 16) :
    pb.receivedPacket handler p = (handler type payload, some (type, payload)) := by
  have hone := length_encode_value type
  have hchecked := length_checked type payload
  have hbytes := length_bytes type payload
  have hn := Binary.putIndex_eq hp
  have hrestLength : (Varint.encode type.value ++ payload).length = payload.length + 1 := by
    rw [List.length_append, hone, Nat.add_comm]
  rw [Binary.contents, hn] at hp
  obtain ⟨hcrc, hcheck⟩ := Memory.read_eq_append hp
  obtain ⟨hlength, hrest⟩ := Memory.read_eq_append hcheck
  simp only [length_leBytes, Nat.zero_add] at hcrc hcheck hlength hrest
  have hcrc' : UInt16.ofNat (leNat (p.buffer.read 0 2)) = Crc16.update (checked type payload) := by
    rw [hcrc, leNat_leBytes_of_lt (by exact UInt16.toNat_lt _), UInt16.ofNat_toNat]
  have hlength' : leNat (p.buffer.read 2 2) = payload.length + 1 := by
    rw [hlength, hrestLength]
    exact leNat_leBytes_of_lt (by exact hlen)
  have hsize : p.putIndex - headerSize = payload.length + 1 := by
    rw [hn, hbytes, headerSize]
    omega
  have hover : p.putIndex - 2 = (checked type payload).length := by
    rw [hn, hbytes, hchecked]
    omega
  have hactual : Crc16.update (p.buffer.read 2 (p.putIndex - 2)) = Crc16.update (checked type payload) := by
    rw [hover, hcheck]
  have hdecode : pb.decodeVarint32 (p.buffer.read headerSize (payload.length + 1)) =
      (type.value, payload) := by
    rw [← hrestLength]
    have hread : p.buffer.read headerSize (Varint.encode type.value ++ payload).length =
        Varint.encode type.value ++ payload := hrest
    rw [hread]
    exact h.decodeVarint32 _ (Nat.lt_of_lt_of_le type.value_lt (by decide)) payload
  have hlong : ¬ p.putIndex < headerSize := by
    rw [hn, hbytes, headerSize]
    omega
  simp only [receivedPacket, if_neg hlong, hcrc', hlength', hactual, hdecode, hsize,
    PacketType.ofValue_value, ne_eq, not_true_eq_false, if_false]

/-- Nothing of a packet is there, and no error. -/
structure Clean (limit : Nat) (p : Binary) : Prop where
  size : p.size = limit
  putIndex : p.putIndex = 0
  getIndex : p.getIndex = 0
  errors : p.errors = 0

/-- A state of the receiver, with a buffer that is not empty. -/
structure Receiving (limit : Nat) (p : Binary) : Prop where
  size : p.size = limit
  getIndex : p.getIndex = 0
  errors : p.putIndex = 0 → p.errors = 0
  fits : p.putIndex ≤ limit
  pos : 0 < limit
  lt : limit < 2 ^ 16

theorem clean_reset (h : p.size = limit) : Clean limit p.reset := ⟨h, rfl, rfl, rfl⟩

theorem Clean.receiving (h : Clean limit p) (hpos : 0 < limit) (hlt : limit < 2 ^ 16) :
    Receiving limit p :=
  ⟨h.size, h.getIndex, fun _ => h.errors, by rw [h.putIndex]; exact Nat.zero_le limit, hpos, hlt⟩

theorem Clean.written (h : Clean limit p) : p.Written limit [] := by
  refine ⟨h.size, ?_, h.errors, Nat.zero_le _⟩
  rw [Binary.contents, h.putIndex, Memory.read_zero]

theorem Receiving.putUint8 (h : Receiving limit p) (b : UInt8) : Receiving limit (p.putUint8 b) := by
  have hsize := h.size
  have hpos := h.pos
  have hlt := h.lt
  have hfits := h.fits
  have hmod : (p.putIndex + 1) % 2 ^ 32 = p.putIndex + 1 := Nat.mod_eq_of_lt (by omega)
  rw [Binary.putUint8, Binary.putBytes, List.length_singleton]
  by_cases hroom : p.PutCheck 1
  · have hle : p.putIndex + 1 ≤ limit := by rwa [Binary.PutCheck, hmod, hsize] at hroom
    rw [if_pos hroom, Binary.append, List.length_singleton, hmod]
    exact ⟨h.size, h.getIndex, fun h0 => absurd h0 (Nat.succ_ne_zero p.putIndex), hle, h.pos, h.lt⟩
  · have hfull : p.putIndex ≠ 0 := by
      intro h0
      rw [Binary.PutCheck, hmod, h0, hsize] at hroom
      exact hroom hpos
    rw [if_neg hroom]
    exact ⟨h.size, h.getIndex, fun h0 => absurd h0 hfull, h.fits, h.pos, h.lt⟩

/-- A delimiter leaves the receiver clean, whatever came before it. -/
theorem Receiving.delimiter (h : Receiving limit p) :
    Clean limit (pb.receivedByte handler p delimiter).2.1 := by
  rw [receivedByte, if_neg (not_not.mpr rfl)]
  by_cases hempty : p.putIndex = 0
  · rw [if_pos hempty]
    exact ⟨h.size, hempty, h.getIndex, h.errors hempty⟩
  · rw [if_neg hempty]
    by_cases herrors : p.errors ≠ 0
    · rw [if_pos herrors]
      exact clean_reset h.size
    · rw [if_neg herrors]
      exact clean_reset h.size

theorem Receiving.receivedByte (h : Receiving limit p) (byte : UInt8) :
    Receiving limit (pb.receivedByte handler p byte).2.1 := by
  by_cases hbyte : byte = Packet.delimiter
  · subst hbyte
    exact h.delimiter.receiving h.pos h.lt
  · rw [Nanopb.receivedByte, if_pos hbyte]
    exact h.putUint8 byte

theorem Receiving.receivedData (h : Receiving limit p) (data : List UInt8) :
    Receiving limit (pb.receivedData handler p data).2.1 := by
  induction data generalizing p with
  | nil => exact h
  | cons byte data ih => exact ih (h.receivedByte byte)

theorem receivedData_append (p : Binary) (xs ys : List UInt8) :
    (pb.receivedData handler p (xs ++ ys)).2 =
      ((pb.receivedData handler (pb.receivedData handler p xs).2.1 ys).2.1,
        (pb.receivedData handler p xs).2.2 ++
          (pb.receivedData handler (pb.receivedData handler p xs).2.1 ys).2.2) := by
  induction xs generalizing p with
  | nil => rfl
  | cons byte xs ih =>
    have hrest := ih (pb.receivedByte handler p byte).2.1
    simp only [List.cons_append, Nanopb.receivedData, hrest, List.append_assoc]

/-- How the stream is cut into chunks makes no difference. -/
theorem receivedChunks_eq (p : Binary) (chunks : List (List UInt8)) :
    pb.receivedChunks handler p chunks = (pb.receivedData handler p chunks.flatten).2 := by
  induction chunks generalizing p with
  | nil => rfl
  | cons chunk chunks ih =>
    simp only [receivedChunks, List.flatten_cons, receivedData_append, ih]

/-- A stream that begins when the receiver is clean, and is empty or ends with a delimiter. -/
def Delimited (data : List UInt8) : Prop := data = [] ∨ ∃ front, data = front ++ [delimiter]

theorem Clean.receivedData (h : Clean limit p) (hpos : 0 < limit) (hlt : limit < 2 ^ 16) {data : List UInt8}
    (hdata : Delimited data) : Clean limit (pb.receivedData handler p data).2.1 := by
  cases hdata with
  | inl hnil =>
    subst hnil
    exact h
  | inr hfront =>
    obtain ⟨front, rfl⟩ := hfront
    rw [receivedData_append]
    exact ((h.receiving hpos hlt).receivedData front).delimiter

/-- Bytes that are not the delimiter are collected. -/
theorem receivedData_bytes {bs cs : List UInt8} (h : p.Written limit cs) (hbs : delimiter ∉ bs)
    (hfit : cs.length + bs.length ≤ limit) :
    (pb.receivedData handler p bs).2.1.Written limit (cs ++ bs) ∧
      (pb.receivedData handler p bs).2.2 = [] := by
  induction bs generalizing p cs with
  | nil => exact ⟨by rwa [List.append_nil], rfl⟩
  | cons b bs ih =>
    have hb : b ≠ delimiter := by
      intro h0
      exact hbs (h0 ▸ List.mem_cons_self)
    rw [List.length_cons] at hfit
    have hput : (p.putUint8 b).Written limit (cs ++ [b]) :=
      h.putBytes (by rw [List.length_singleton]; omega)
    have hrest := ih hput (fun hmem => hbs (List.mem_cons_of_mem b hmem))
      (by rw [List.length_append, List.length_singleton]; omega)
    rw [List.append_assoc, List.singleton_append] at hrest
    simp only [Nanopb.receivedData, Nanopb.receivedByte, if_pos hb, Option.toList_none, List.nil_append]
    exact hrest

/-- The end of an encoding of a packet. -/
theorem receivedByte_frame (h : pb.Documented) {bs : List UInt8} (hp : p.Written limit bs)
    (hbs : Cobs.Encodes bs (bytes type payload)) (hlimit : limit < 2 ^ 16) :
    (pb.receivedByte handler p delimiter).2.2 = some (type, payload) := by
  have hlt := hbs.length_lt
  rw [length_bytes] at hlt
  have hfits := hp.fits
  have hne : p.putIndex ≠ 0 := by
    rw [Binary.putIndex_eq hp.contents]
    omega
  obtain ⟨-, hdecode⟩ := InPlace.decode_eq hp.contents
  rw [hbs.decode] at hdecode
  have hpacket : pb.receivedPacket handler
      { p with
        buffer := (InPlace.decode p.buffer p.putIndex).1
        putIndex := (InPlace.decode p.buffer p.putIndex).2 } =
      (handler type payload, some (type, payload)) :=
    receivedPacket_eq h hdecode (by omega)
  rw [receivedByte, if_neg (not_not.mpr rfl), if_neg hne, if_neg (not_not.mpr hp.errors)]
  exact congrArg Prod.snd hpacket

/-- Any encoding of a packet, and the delimiter. -/
theorem receivedData_frame (h : pb.Documented) (hp : Clean limit p) {bs : List UInt8}
    (hbs : Cobs.Encodes bs (bytes type payload)) (hfit : bs.length ≤ limit) (hlimit : limit < 2 ^ 16) :
    (pb.receivedData handler p (bs ++ [delimiter])).2.2 = [(type, payload)] := by
  have hbytes : (pb.receivedData handler p bs).2.1.Written limit ([] ++ bs) ∧
      (pb.receivedData handler p bs).2.2 = [] :=
    receivedData_bytes hp.written hbs.zero_notMem (by rwa [List.length_nil, Nat.zero_add])
  obtain ⟨hwritten, hnone⟩ := hbytes
  rw [List.nil_append] at hwritten
  have hlast : (pb.receivedByte handler (pb.receivedData handler p bs).2.1 delimiter).2.2 =
      some (type, payload) :=
    receivedByte_frame h hwritten hbs hlimit
  rw [receivedData_append, hnone, List.nil_append]
  simp only [Nanopb.receivedData, hlast, Option.toList_some, List.append_nil]

/-- A packet after a stream that is delimited, however they are cut into chunks. -/
theorem receivedChunks_frame (h : pb.Documented) (hp : Clean limit p) (hlimit : limit < 2 ^ 16)
    {earlier bs : List UInt8} (hearlier : Delimited earlier) (hbs : Cobs.Encodes bs (bytes type payload))
    (hfit : bs.length ≤ limit) {chunks : List (List UInt8)}
    (hchunks : chunks.flatten = earlier ++ (bs ++ [delimiter])) :
    (pb.receivedChunks handler p chunks).2 =
        (pb.receivedData handler p earlier).2.2 ++ [(type, payload)] ∧
      Clean limit (pb.receivedChunks handler p chunks).1 := by
  have hpos : 0 < limit := by
    have hlt := hbs.length_lt
    omega
  let r := (pb.receivedData handler p earlier).2.1
  have hclean : Clean limit r := hp.receivedData hpos hlimit hearlier
  have hframe : (pb.receivedData handler r (bs ++ [delimiter])).2.2 = [(type, payload)] :=
    receivedData_frame h hclean hbs hfit hlimit
  have hafter : Clean limit (pb.receivedData handler r (bs ++ [delimiter])).2.1 :=
    hclean.receivedData hpos hlimit (Or.inr ⟨bs, rfl⟩)
  rw [receivedChunks_eq, hchunks, receivedData_append, hframe]
  exact ⟨rfl, hafter⟩

end Nanopb
end Rpc
end Firefly
