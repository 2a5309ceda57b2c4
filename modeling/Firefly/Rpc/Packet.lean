import Firefly.Base.Binary
import Firefly.Base.Cobs
import Firefly.Base.Crc16
import Firefly.Lib.Varint

/-!
# Firefly.Rpc.Packet

The packets of `fd_rpc.c` on a stream of bytes: a check, a length, the type and the payload, byte
stuffed, and a delimiter. The sender builds a packet in the buffer of the payload. The receiver takes
the stream byte by byte, and what arrives may be damaged or too long for its buffer.

Varints are left to nanopb. Its decoder gives the value it leaves in the variable, which is not
initialized if there is no varint, and the rest of the stream. Assertions that fail are counted by
the program, and it goes on; one in the byte stuffing is `none`.
-/

namespace Firefly
namespace Rpc

open Bytes

/-- `fd_rpc_channel_packet_type_t`. -/
inductive PacketType where
  | serverInitialize
  | serverRequest
  | serverFinalize
  | clientResponse
  | clientFinalize
  deriving DecidableEq

namespace PacketType

def value : PacketType → Nat
  | serverInitialize => 0
  | serverRequest => 1
  | serverFinalize => 2
  | clientResponse => 3
  | clientFinalize => 4

/-- `fd_rpc_channel_packet_type_count`. -/
def count : Nat := 5

/-- The entry of `fd_rpc_channel_handlers`. -/
def ofValue : Nat → Option PacketType
  | 0 => some serverInitialize
  | 1 => some serverRequest
  | 2 => some serverFinalize
  | 3 => some clientResponse
  | 4 => some clientFinalize
  | _ => none

theorem value_lt (t : PacketType) : t.value < count := by
  cases t <;> decide

theorem ofValue_value (t : PacketType) : ofValue t.value = some t := by
  cases t <;> rfl

end PacketType

structure Nanopb where
  encodeVarint : Nat → List UInt8
  decodeVarint32 : List UInt8 → Nat × List UInt8

/-- Both functions are about the varints of protocol buffers. -/
structure Nanopb.Documented (pb : Nanopb) : Prop where
  encodeVarint : ∀ n < 2 ^ 32, pb.encodeVarint n = Varint.encode n
  decodeVarint32 : ∀ n < 2 ^ 32, ∀ rest, pb.decodeVarint32 (Varint.encode n ++ rest) = (n, rest)

namespace Packet

def delimiter : UInt8 := 0
def headerSize : Nat := 4

/-- The bytes of the queue that the byte stuffing uses. -/
def lookahead : Nat := 32

/-- What the check is over: the length of the rest, the type and the payload. -/
def checked (type : PacketType) (payload : List UInt8) : List UInt8 :=
  let rest := Varint.encode type.value ++ payload
  leBytes 2 rest.length ++ rest

/-- A packet before it is byte stuffed. -/
def bytes (type : PacketType) (payload : List UInt8) : List UInt8 :=
  leBytes 2 (Crc16.update (checked type payload)).toNat ++ checked type payload

end Packet

open Packet

/-- What becomes of a packet: false is returned, or its bytes are handed to `packet_write`. -/
inductive Sent where
  | refused
  | written (data : List UInt8)
  deriving DecidableEq

abbrev HandlerCall := PacketType × List UInt8

namespace Nanopb

variable (pb : Nanopb)

/-- The packet in front of its payload: the type, then the length, then the check. -/
def putHeader (type : Nat) (packet : Binary) : Memory × Nat :=
  let typeData := pb.encodeVarint type
  let frontSize := headerSize + typeData.length
  let data := packet.buffer.move frontSize 0 packet.putIndex
  let putIndex := packet.putIndex + frontSize
  let data := data.write headerSize typeData
  let length := UInt16.ofNat (putIndex - headerSize)
  let data := data.write 2 (leBytes 2 length.toNat)
  let crc16 := Crc16.update (data.read 2 (putIndex - 2))
  (data.write 0 (leBytes 2 crc16.toNat), putIndex)

/-- `fd_rpc_channel_send_packet`. The memory of the queue is not initialized. -/
def sendPacket (buffer : Memory) (type : Nat) (packet : Binary) : Option Sent :=
  if headerSize + (pb.encodeVarint type).length + packet.putIndex > packet.size then some .refused
  else do
    let (data, putIndex) := pb.putHeader type packet
    let (data, encodedLength) ← InPlace.encode data putIndex buffer lookahead
    if encodedLength = 0 then some .refused
    else if encodedLength ≥ packet.size then some .refused
    else some (.written ((data.write encodedLength [delimiter]).read 0 (encodedLength + 1)))

variable (handler : PacketType → List UInt8 → Bool)

/-- `fd_rpc_channel_received_packet`, with the call of the handler if there is one. -/
def receivedPacket (packet : Binary) : Bool × Option HandlerCall :=
  let data := packet.buffer
  let size := packet.putIndex
  if size < headerSize then (false, none)
  else
    let crc16 := UInt16.ofNat (leNat (data.read 0 2))
    let length := leNat (data.read 2 2)
    let lengthActual := size - headerSize
    let crc16Actual := Crc16.update (data.read 2 (size - 2))
    if crc16Actual ≠ crc16 then (false, none)
    else if lengthActual ≠ length then (false, none)
    else
      let (type, rest) := pb.decodeVarint32 (data.read headerSize (size - headerSize))
      match PacketType.ofValue type with
      | none => (true, none)
      | some type => (handler type rest, some (type, rest))

/-- A byte of the stream. The result of a packet does not count: the variable that it is stored in
hides the one that is returned. -/
def receivedByte (packet : Binary) (byte : UInt8) : Bool × Binary × Option HandlerCall :=
  if byte ≠ delimiter then (true, packet.putUint8 byte, none)
  else if packet.putIndex = 0 then (true, packet, none)
  else if packet.errors ≠ 0 then (false, packet.reset, none)
  else
    let (buffer, size) := InPlace.decode packet.buffer packet.putIndex
    let packet := { packet with buffer := buffer, putIndex := size }
    (true, packet.reset, (pb.receivedPacket handler packet).2)

/-- `fd_rpc_channel_received_data`. -/
def receivedData (packet : Binary) : List UInt8 → Bool × Binary × List HandlerCall
  | [] => (true, packet, [])
  | byte :: data =>
    let (result, packet, call) := pb.receivedByte handler packet byte
    let (result', packet, calls) := receivedData packet data
    (result && result', packet, call.toList ++ calls)

/-- The stream as it comes, in chunks. -/
def receivedChunks (packet : Binary) : List (List UInt8) → Binary × List HandlerCall
  | [] => (packet, [])
  | chunk :: chunks =>
    let (_, packet, calls) := pb.receivedData handler packet chunk
    let (packet, calls') := receivedChunks packet chunks
    (packet, calls ++ calls')

end Nanopb
end Rpc
end Firefly
