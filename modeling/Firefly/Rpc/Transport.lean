import Firefly.Rpc.Framing

/-!
# Firefly.Rpc.Transport

`Transport` and its `StreamChannel` in `api/python/rpc.py`: the same packets at the other end of the
stream. The byte stuffing, the check and the varints come from packages, of which the code relies on
what `Packages.Documented` says. An exception is its message.
-/

namespace Firefly
namespace Rpc
namespace Python

open Bytes Packet

structure Packages where
  cobsEncode : List UInt8 → List UInt8
  cobsDecode : List UInt8 → Option (List UInt8)
  crc16 : List UInt8 → Nat
  encodeVarint : Nat → List UInt8
  /-- The number that the bytes begin with, and where it ends. -/
  decodeVarint : List UInt8 → Option (Nat × Nat)

/-- `cobs` is the standard byte stuffing, `crcmod.mkCrcFun` a check with the polynomial that it is
given, and the varints are those of protocol buffers. -/
structure Packages.Documented (py : Packages) : Prop where
  cobsEncode : ∀ data, Cobs.Encodes (py.cobsEncode data) data
  cobsDecode : ∀ bs data, Cobs.Encodes bs data → py.cobsDecode bs = some data
  crc16 : ∀ data, py.crc16 data = (Crc.crc Crc16.polynomial data).toNat
  encodeVarint : ∀ n < 2 ^ 32, py.encodeVarint n = Varint.encode n
  decodeVarint : ∀ n < 2 ^ 32, ∀ rest,
    py.decodeVarint (Varint.encode n ++ rest) = some (n, (Varint.encode n).length)

/-- The types for which `RPC.__init__` sets a handler. -/
def handlers : List Nat :=
  [PacketType.serverInitialize.value, PacketType.serverRequest.value, PacketType.serverFinalize.value,
    PacketType.clientResponse.value, PacketType.clientFinalize.value]

namespace Packages

variable (py : Packages)

/-- `StreamChannel.packet_write`. -/
def packetWrite (packet : List UInt8) : List UInt8 := py.cobsEncode packet ++ [delimiter]

def write (type : PacketType) (data : List UInt8) : List UInt8 :=
  let typeData := py.encodeVarint type.value
  let length := typeData.length + data.length
  let lengthData := [UInt8.ofNat (length &&& 0xff), UInt8.ofNat (length >>> 8 &&& 0xff)]
  let crc16 := py.crc16 (lengthData ++ typeData ++ data)
  let crc16Data := [UInt8.ofNat (crc16 &&& 0xff), UInt8.ofNat (crc16 >>> 8 &&& 0xff)]
  py.packetWrite (crc16Data ++ lengthData ++ typeData ++ data)

/-- `Transport.receive`: the handler that is called, by its type, and the payload. -/
def receive (data : List UInt8) : Except String (Nat × List UInt8) :=
  let size := data.length
  if size < headerSize then .error "missing header"
  else
    let crc16 := leNat (data.take 2)
    let length := leNat ((data.drop 2).take 2)
    let lengthActual := size - headerSize
    if lengthActual ≠ length then .error "length mismatch"
    else
      let crc16Actual := py.crc16 (data.drop 2)
      if crc16Actual ≠ crc16 then .error "crc mismatch"
      else match py.decodeVarint (data.drop 4) with
        | none => .error "index out of range"
        | some (type, offset) =>
          if type ≥ PacketType.count then .error "unknown transport packet type"
          else if type ∉ handlers then .error "transport packet type handler not found"
          else .ok (type, data.drop (4 + offset))

/-- `StreamChannel.packet_read`, where an exception is logged. -/
def packetRead (data : List UInt8) : Except String (Nat × List UInt8) :=
  match py.cobsDecode data with
  | none => .error "decode"
  | some packet => py.receive packet

/-- `StreamChannel.read`: the buffer afterwards, and what became of each packet. -/
def read (buffer : List UInt8) : List UInt8 → List UInt8 × List (Except String (Nat × List UInt8))
  | [] => (buffer, [])
  | byte :: data =>
    if byte ≠ delimiter then read (buffer ++ [byte]) data
    else if buffer.length = 0 then read buffer data
    else
      let (rest, outcomes) := read [] data
      (rest, py.packetRead buffer :: outcomes)

variable {py} {type : PacketType} {payload : List UInt8}

theorem leBytes_two (n : Nat) :
    [UInt8.ofNat (n &&& 0xff), UInt8.ofNat (n >>> 8 &&& 0xff)] = leBytes 2 n := by
  have hmask (k : Nat) : UInt8.ofNat (k &&& 0xff) = UInt8.ofNat k := by
    have hand : k &&& 0xff = k % 2 ^ 8 := Nat.and_two_pow_sub_one_eq_mod k 8
    apply UInt8.toNat_inj.mp
    rw [UInt8.toNat_ofNat', UInt8.toNat_ofNat', hand, Nat.mod_mod]
  rw [hmask, hmask, Nat.shiftRight_eq_div_pow]
  rfl

theorem crc16_eq (h : py.Documented) (data : List UInt8) : py.crc16 data = (Crc16.update data).toNat := by
  rw [h.crc16, ← Crc16.toBitVec_update, UInt16.toNat_toBitVec]

/-- The tools write the packet that the sender writes, in some encoding. -/
theorem write_eq (h : py.Documented) (type : PacketType) (payload : List UInt8) :
    py.write type payload = py.cobsEncode (bytes type payload) ++ [delimiter] := by
  have htype : py.encodeVarint type.value = Varint.encode type.value :=
    h.encodeVarint _ (Nat.lt_of_lt_of_le type.value_lt (by decide))
  simp only [write, packetWrite, htype, leBytes_two, crc16_eq h, bytes, checked, List.length_append,
    List.append_assoc]

theorem mem_handlers (type : PacketType) : type.value ∈ handlers := by
  cases type <;> decide

theorem receive_eq (h : py.Documented) (hlen : payload.length + 1 < 2 ^ 16) :
    py.receive (bytes type payload) = .ok (type.value, payload) := by
  have hone := length_encode_value type
  have hlt := type.value_lt
  have hrestLength : (Varint.encode type.value ++ payload).length = payload.length + 1 := by
    rw [List.length_append, hone, Nat.add_comm]
  have hcheck : (bytes type payload).drop 2 = checked type payload :=
    List.drop_left' (length_leBytes 2 _)
  have hcrc : leNat ((bytes type payload).take 2) = (Crc16.update (checked type payload)).toNat := by
    have htake : (bytes type payload).take 2 = leBytes 2 (Crc16.update (checked type payload)).toNat :=
      List.take_left' (length_leBytes 2 _)
    rw [htake]
    exact leNat_leBytes_of_lt (by exact UInt16.toNat_lt _)
  have hlength : leNat ((checked type payload).take 2) = payload.length + 1 := by
    have htake : (checked type payload).take 2 = leBytes 2 (Varint.encode type.value ++ payload).length :=
      List.take_left' (length_leBytes 2 _)
    rw [htake, hrestLength]
    exact leNat_leBytes_of_lt (by exact hlen)
  have hrest : (bytes type payload).drop 4 = Varint.encode type.value ++ payload := by
    rw [show 4 = 2 + 2 by rfl, ← List.drop_drop, hcheck]
    exact List.drop_left' (length_leBytes 2 _)
  have hpayload : (bytes type payload).drop (4 + 1) = payload := by
    rw [← List.drop_drop, hrest]
    exact List.drop_left' hone
  have hdecode : py.decodeVarint ((bytes type payload).drop 4) = some (type.value, 1) := by
    rw [hrest, ← hone]
    exact h.decodeVarint _ (Nat.lt_of_lt_of_le hlt (by decide)) payload
  have hlong : ¬ payload.length + 5 < headerSize := by
    rw [headerSize]
    omega
  have hactual : payload.length + 5 - headerSize = payload.length + 1 := by
    rw [headerSize]
    omega
  simp only [receive, length_bytes, if_neg hlong, hactual, hcheck, hlength, hcrc, crc16_eq h, hdecode,
    hpayload, ne_eq, not_true_eq_false, if_false, if_neg (Nat.not_le.mpr hlt), not_not.mpr (mem_handlers type)]

/-- Bytes that are not the delimiter are collected. -/
theorem read_bytes {bs : List UInt8} (hbs : delimiter ∉ bs) (buffer data : List UInt8) :
    py.read buffer (bs ++ data) = py.read (buffer ++ bs) data := by
  induction bs generalizing buffer with
  | nil => rw [List.nil_append, List.append_nil]
  | cons b bs ih =>
    have hb : b ≠ delimiter := by
      intro h0
      exact hbs (h0 ▸ List.mem_cons_self)
    rw [List.cons_append, read, if_pos hb, ih (fun hmem => hbs (List.mem_cons_of_mem b hmem)),
      List.append_assoc, List.singleton_append]

theorem read_frame (h : py.Documented) (hlen : payload.length + 1 < 2 ^ 16) {bs : List UInt8}
    (hbs : Cobs.Encodes bs (bytes type payload)) :
    py.read [] (bs ++ [delimiter]) = ([], [.ok (type.value, payload)]) := by
  have hne : ¬ bs.length = 0 := mt List.eq_nil_of_length_eq_zero hbs.ne_nil
  have hpacket : py.packetRead bs = .ok (type.value, payload) := by
    simp only [packetRead, h.cobsDecode bs _ hbs, receive_eq h hlen]
  rw [read_bytes hbs.zero_notMem, List.nil_append, read, if_neg (not_not.mpr rfl), if_neg hne]
  simp only [read, hpacket]

end Packages
end Python

/-! ## Both ends -/

open Packet

/-- What a receiver makes of the bytes `w`, after a delimited stream and in any chunks: the one call
for them, after those of the stream. After every delimiter it is clean. -/
structure Delivers (pb : Nanopb) (handler : PacketType → List UInt8 → Bool) (size : Nat)
    (w : List UInt8) (call : HandlerCall) : Prop where
  calls : ∀ (r : Binary) (earlier : List UInt8) (chunks : List (List UInt8)), Nanopb.Clean size r →
    Nanopb.Delimited earlier → chunks.flatten = earlier ++ w →
    (pb.receivedChunks handler r chunks).2 = (pb.receivedData handler r earlier).2.2 ++ [call]
  clean : ∀ (r : Binary) (front : List UInt8) (chunks : List (List UInt8)), Nanopb.Clean size r →
    chunks.flatten = front ++ [delimiter] → Nanopb.Clean size (pb.receivedChunks handler r chunks).1

variable {pb : Nanopb} {py : Python.Packages} {handler : PacketType → List UInt8 → Bool}

theorem delivers_frame (h : pb.Documented) {size : Nat} {type : PacketType} {payload bs : List UInt8}
    (hbs : Cobs.Encodes bs (bytes type payload)) (hfit : bs.length ≤ size) (hsize : size < 2 ^ 16) :
    Delivers pb handler size (bs ++ [delimiter]) (type, payload) where
  calls := by
    intro r earlier chunks hr hearlier hchunks
    exact (Nanopb.receivedChunks_frame h hr hsize hearlier hbs hfit hchunks).1
  clean := by
    intro r front chunks hr hchunks
    have hpos : 0 < size := by
      have hlt := hbs.length_lt
      omega
    rw [Nanopb.receivedChunks_eq, hchunks]
    exact hr.receivedData hpos hsize (Or.inr ⟨front, rfl⟩)

/-- Packets arrive: what the sender writes at a receiver with a buffer of the same size and at the
tools, and what the tools write at a receiver whose buffer it fits. -/
theorem packets_arrive (hpb : pb.Documented) (hpy : py.Documented)
    (handler : PacketType → List UInt8 → Bool) (size : Nat) (hsize : size ≤ 1024) (type : PacketType) :
    (∀ (buffer : Memory) (packet : Binary) (w : List UInt8), packet.size = size →
      pb.sendPacket buffer type.value packet = some (.written w) →
      Delivers pb handler size w (type, packet.contents) ∧
        py.read [] w = ([], [.ok (type.value, packet.contents)])) ∧
      ∀ payload : List UInt8, (py.write type payload).length ≤ size + 1 →
        Delivers pb handler size (py.write type payload) (type, payload) := by
  have hbound : size ≤ Cobs.fullLength * (lookahead - 1) := Nat.le_trans hsize (by decide)
  constructor
  · intro buffer packet w hpacket hsent
    obtain ⟨rfl, hlt⟩ := Nanopb.sendPacket_eq hpb rfl (hpacket ▸ hbound) hsent
    have hencodes := Cobs.encodes_encode (bytes type packet.contents)
    have hshort := hencodes.length_lt
    rw [length_bytes] at hshort
    exact ⟨delivers_frame hpb hencodes (by omega) (by omega),
      Python.Packages.read_frame hpy (by omega) hencodes⟩
  · intro payload hfit
    rw [Python.Packages.write_eq hpy] at hfit ⊢
    rw [List.length_append, List.length_singleton] at hfit
    exact delivers_frame hpb (hpy.cobsEncode _) (by omega) (by omega)

/-! ## An example -/

namespace Sample

def nanopb : Nanopb where
  encodeVarint := Varint.encode
  decodeVarint32 bs := (Varint.decode bs).getD (0, [])

def packages : Python.Packages where
  cobsEncode := Cobs.encode
  cobsDecode bs := some (Cobs.decode bs)
  crc16 data := (Crc.crc Crc16.polynomial data).toNat
  encodeVarint := Varint.encode
  decodeVarint bs := (Varint.decode bs).map fun r => (r.1, bs.length - r.2.length)

theorem documented_nanopb : nanopb.Documented where
  encodeVarint := fun _ _ => rfl
  decodeVarint32 := by
    intro n _ rest
    simp only [nanopb, Varint.decode_encode, Option.getD_some]

theorem documented_packages : packages.Documented where
  cobsEncode := Cobs.encodes_encode
  cobsDecode := fun _ _ h => congrArg some h.decode
  crc16 := fun _ => rfl
  encodeVarint := fun _ _ => rfl
  decodeVarint := by
    intro n _ rest
    simp only [packages, Varint.decode_encode, Option.map_some, List.length_append, Nat.add_sub_cancel]

/-- A request with a zero in it. -/
def packet : Binary := (Binary.initializeWith (fun _ => 0) 64).putBytes [8, 0, 16]

def receiver : Binary := Binary.initializeWith (fun _ => 0) 64

end Sample

/-- After two bytes of a damaged packet, and in two chunks. -/
theorem packets_arrive_request :
    (Sample.nanopb.receivedChunks (fun _ _ => true) Sample.receiver
        [[1, 7, 0, 4, 133], [203, 4, 3, 1, 8, 2, 16, 0]]).2 =
      (Sample.nanopb.receivedData (fun _ _ => true) Sample.receiver [1, 7, 0]).2.2 ++
        [(.serverRequest, [8, 0, 16])] ∧
      Sample.packages.read [] [4, 133, 203, 4, 3, 1, 8, 2, 16, 0] =
        ([], [.ok (PacketType.serverRequest.value, [8, 0, 16])]) := by
  have hsent : Sample.nanopb.sendPacket (fun _ => 0) PacketType.serverRequest.value Sample.packet =
      some (.written [4, 133, 203, 4, 3, 1, 8, 2, 16, 0]) := by decide +kernel
  have hcontents : Sample.packet.contents = [8, 0, 16] := by decide
  obtain ⟨hdelivers, hread⟩ := (packets_arrive Sample.documented_nanopb Sample.documented_packages
    (fun _ _ => true) 64 (by decide) .serverRequest).1 (fun _ => 0) Sample.packet _ rfl hsent
  rw [hcontents] at hdelivers hread
  exact ⟨hdelivers.calls Sample.receiver [1, 7, 0] _ ⟨rfl, rfl, rfl, rfl⟩ (Or.inr ⟨[1, 7], rfl⟩) rfl, hread⟩

end Rpc
end Firefly
