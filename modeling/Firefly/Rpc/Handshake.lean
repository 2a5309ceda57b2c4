import Firefly.Base.Varuint
import Firefly.Rpc.Stream

/-!
# Firefly.Rpc.Handshake

The packets that open a connection, on both sides: the client (`rpc.py`) writes a request and reads
the response, the device (`fd_rpc_stream.c`) reads the request and writes the response. Up to version
1 both hold two fixed fields, from version 2 on a protobuf `ConnectionConfiguration`. The two protobuf
libraries are a parameter.

The client always writes its own version, whatever the fields behind it, and it reads the two fixed
fields from two bytes instead of three; the device has 58 bytes for a configuration that may take 65.
The sides agree if and only if the version is the client's own and the configuration is short enough
(`Handshake.agree_iff`).
-/

namespace Firefly
namespace Rpc
namespace Handshake

open Bytes

/-- `firefly.stream.v1.Value`. A signed number and a float are their 32 bits. -/
inductive Value where
  | unset
  | bool (value : Bool)
  | uint32 (value : UInt32)
  | int32 (bits : UInt32)
  | float (bits : UInt32)
  deriving DecidableEq

/-- `firefly.stream.v1.ConnectionConfiguration`. -/
structure ConnectionConfiguration where
  maximumFlowWindow : Option Value
  maximumTransmissionUnit : Option Value
  receiveKeepAlive : Option Value
  sendKeepAlive : Option Value
  sendRetryTimeout : Option Value
  deriving DecidableEq

def ConnectionConfiguration.empty : ConnectionConfiguration := ⟨none, none, none, none, none⟩

/-- nanopb on the device and the protobuf library of the client. -/
structure Protobuf where
  /-- The encoding that `pb_encode` makes in a stream that is long enough. -/
  encoding : ConnectionConfiguration → List UInt8
  /-- `pb_encode` to a stream of the given size: its result, and the bytes written. -/
  pbEncode : Nat → ConnectionConfiguration → Bool × List UInt8
  pbDecode : List UInt8 → Bool × ConnectionConfiguration
  serializeToString : ConnectionConfiguration → List UInt8
  /-- `ParseFromString`, which may raise an exception. -/
  parseFromString : List UInt8 → Option ConnectionConfiguration

/-- The libraries are inverse to each other at a configuration. An encoding takes at most the size
that the generated header gives; where the stream is too short, the encoder stops in front of it, and
an encoding that is cut short is not the one of the same configuration. -/
structure Protobuf.Inverse (p : Protobuf) (c : ConnectionConfiguration) : Prop where
  decode_serialize : p.pbDecode (p.serializeToString c) = (true, c)
  serialize_size : (p.serializeToString c).length ≤ 65
  parse_encoding : p.parseFromString (p.encoding c) = some c
  encode_fits : ∀ n, (p.encoding c).length ≤ n → p.pbEncode n c = (true, p.encoding c)
  encode_full : ∀ n, n < (p.encoding c).length → (p.pbEncode n c).1 = false ∧
    (p.pbEncode n c).2 <+: p.encoding c ∧ (p.pbEncode n c).2.length ≤ n
  parse_cut : ∀ bs, bs <+: p.encoding c → bs ≠ p.encoding c → p.parseFromString bs ≠ some c

/-! ## The client -/

/-- `Stream.version`. -/
def streamVersion : UInt8 := 2

/-- `send_connect_request`. -/
def sendConnectRequest (p : Protobuf) (version : UInt8) (c : ConnectionConfiguration) : List UInt8 :=
  if version ≤ 1 then
    Stream.commandHeader commandConnectRequest ++ streamVersion :: 1 :: leBytes 2 1024
  else Stream.commandHeader commandConnectRequest ++ streamVersion :: p.serializeToString c

/-- `struct.unpack` of `"<BB"` and of `"<BH"`. -/
def unpackBB : List UInt8 → Option (UInt8 × UInt8)
  | [a, b] => some (a, b)
  | _ => none

def unpackBH : List UInt8 → Option (UInt8 × UInt16)
  | [a, b, c] => some (a, UInt16.ofNat (leNat [b, c]))
  | _ => none

inductive Outcome where
  | disconnected
  | connected (version : UInt8) (configuration : ConnectionConfiguration)
  deriving DecidableEq

/-- `receive_connect_response`; an exception is `none`. -/
def receiveConnectResponse (p : Protobuf) (data : List UInt8) : Option Outcome :=
  match unpackBB (data.take 2) with
  | none => none
  | some (result, version) =>
    if result ≠ 0 then some .disconnected
    else if version ≤ 1 then
      match unpackBH ((data.drop 2).take 2) with
      | none => none
      | some (maximumFlowWindow, maximumTransmissionUnit) =>
        some (.connected version
          { maximumFlowWindow := some (.uint32 maximumFlowWindow.toUInt32)
            maximumTransmissionUnit := some (.uint32 maximumTransmissionUnit.toUInt32)
            receiveKeepAlive := some (.float 0x40a00000)
            sendKeepAlive := some (.float 0x40000000)
            sendRetryTimeout := some (.float 0x41200000) })
    else (p.parseFromString (data.drop 2)).map (.connected version)

/-! ## The device -/

/-- `fd_rpc_stream_put_connection_configuration`. Assertions that fail are only counted. -/
def putConnectionConfiguration (p : Protobuf) (b : Binary) (version : UInt8)
    (c : ConnectionConfiguration) : Binary :=
  if version ≤ 1 then (b.putUint8 1).putUint16 1024
  else b.putBytes (p.pbEncode 64 c).2

/-- `fd_rpc_stream_get_connection_configuration`. -/
def getConnectionConfiguration (p : Protobuf) (b : Binary) (version : UInt8) : ConnectionConfiguration :=
  if version ≤ 1 then
    let maximumFlowWindow := b.getUint8
    let maximumTransmissionUnit := maximumFlowWindow.2.getUint16
    { maximumFlowWindow := some (.uint32 maximumFlowWindow.1.toUInt32)
      maximumTransmissionUnit := some (.uint32 maximumTransmissionUnit.1.toUInt32)
      receiveKeepAlive := some (.float 0x40a00000)
      sendKeepAlive := some (.float 0x40000000)
      sendRetryTimeout := some (.float 0x3f000000) }
  else (p.pbDecode (b.buffer.read b.getIndex (b.size - b.getIndex))).2

/-- What `fd_rpc_stream_receive_connect_request` reads. -/
def receiveConnectRequest (p : Protobuf) (b : Binary) : UInt8 × ConnectionConfiguration :=
  (b.getUint8.1, getConnectionConfiguration p b.getUint8.2 b.getUint8.1)

/-- The packet of `fd_rpc_stream_send_connect_response`, whose buffer may hold anything before. -/
def sendConnectResponse (p : Protobuf) (data : Memory) (result version : UInt8)
    (c : ConnectionConfiguration) : List UInt8 :=
  let b := Binary.initializeWith data 64
  let b := b.putBytes (Stream.commandHeader commandConnectResponse)
  let b := (b.putUint8 result).putUint8 version
  (putConnectionConfiguration p b version c).contents

/-- A packet that has been received, behind its header. -/
def received (packet : List UInt8) : Binary :=
  (Binary.initializeWith (Memory.write (fun _ => 0) 0 packet) (UInt32.ofNat packet.length)).getUint32.2

/-! ## Agreement -/

/-- The fixed fields as a configuration. -/
def legacyConfiguration (sendRetryTimeout : UInt32) : ConnectionConfiguration :=
  { maximumFlowWindow := some (.uint32 1)
    maximumTransmissionUnit := some (.uint32 1024)
    receiveKeepAlive := some (.float 0x40a00000)
    sendKeepAlive := some (.float 0x40000000)
    sendRetryTimeout := some (.float sendRetryTimeout) }

/-- The device reads what the client has written for this version. -/
def RequestAgrees (p : Protobuf) (version : UInt8) (c : ConnectionConfiguration) : Prop :=
  receiveConnectRequest p (received (sendConnectRequest p version c)) =
    (version, if version ≤ 1 then legacyConfiguration 0x3f000000 else c)

/-- The client reads what the device has written for this version, behind the header. -/
def ResponseAgrees (p : Protobuf) (data : Memory) (version : UInt8) (c : ConnectionConfiguration) : Prop :=
  receiveConnectResponse p ((sendConnectResponse p data 0 version c).drop 4) =
    some (.connected version (if version ≤ 1 then legacyConfiguration 0x41200000 else c))

variable {p : Protobuf} {c : ConnectionConfiguration} {version : UInt8} {bs : List UInt8}

/-! ### The request -/

theorem length_commandHeader (command : Nat) : (Stream.commandHeader command).length = 4 :=
  length_leBytes 4 _

theorem unread_received (bs : List UInt8) (hlt : 4 + bs.length < 2 ^ 32) :
    (received (Stream.commandHeader commandConnectRequest ++ bs)).Unread bs ∧
      (received (Stream.commandHeader commandConnectRequest ++ bs)).size -
        (received (Stream.commandHeader commandConnectRequest ++ bs)).getIndex = bs.length := by
  have hheader : Stream.commandHeader commandConnectRequest = leBytes 4 (0x80000000 : UInt32).toNat := rfl
  have hlength : (leBytes 4 (0x80000000 : UInt32).toNat ++ bs).length = 4 + bs.length := by
    rw [List.length_append, length_leBytes]
  have hpacket : (Binary.initializeWith
      (Memory.write (fun _ => 0) 0 (leBytes 4 (0x80000000 : UInt32).toNat ++ bs))
      (UInt32.ofNat (leBytes 4 (0x80000000 : UInt32).toNat ++ bs).length)).Unread
        (leBytes 4 (0x80000000 : UInt32).toNat ++ bs) := by
    refine ⟨Memory.read_write _ 0 _, ?_⟩
    rw [Binary.initializeWith]
    simp only [Nat.zero_add]
    rw [UInt32.toNat_ofNat_of_lt' (by rw [hlength]; exact hlt)]
  obtain ⟨_, hrest, hstate⟩ := hpacket.getUint32
  rw [hheader, received]
  refine ⟨hrest, ?_⟩
  rw [hstate]
  simp only [Binary.initializeWith]
  rw [UInt32.toNat_ofNat_of_lt' (by rw [hlength]; exact hlt), hlength]
  omega

theorem receiveConnectRequest_version (hlt : 5 + bs.length < 2 ^ 32) :
    (receiveConnectRequest p
      (received (Stream.commandHeader commandConnectRequest ++ version :: bs))).1 = version := by
  obtain ⟨hunread, _⟩ := unread_received (version :: bs) (by rw [List.length_cons]; omega)
  exact hunread.getUint8.1

/-- From version 2 on what follows the version is decoded. -/
theorem receiveConnectRequest_decode (hlt : 5 + bs.length < 2 ^ 32) (hversion : ¬ version ≤ 1) :
    receiveConnectRequest p (received (Stream.commandHeader commandConnectRequest ++ version :: bs)) =
      (version, (p.pbDecode bs).2) := by
  obtain ⟨hunread, hsize⟩ := unread_received (version :: bs) (by rw [List.length_cons]; omega)
  obtain ⟨hread, hrest, hstate⟩ := hunread.getUint8
  generalize received (Stream.commandHeader commandConnectRequest ++ version :: bs) = b at *
  have hleft : b.getUint8.2.size - b.getUint8.2.getIndex = bs.length := by
    rw [hstate]
    simp only
    rw [List.length_cons] at hsize
    omega
  rw [receiveConnectRequest, getConnectionConfiguration, hread, if_neg hversion, hleft, hrest.bytes]

theorem requestAgrees_iff (h : p.Inverse c) (version : UInt8) :
    RequestAgrees p version c ↔ version = 2 := by
  have hsize := h.serialize_size
  rw [RequestAgrees]
  constructor
  · intro hagree
    have hversion : (receiveConnectRequest p (received (sendConnectRequest p version c))).1 = version :=
      congrArg Prod.fst hagree
    rw [← hversion, sendConnectRequest]
    split
    · exact receiveConnectRequest_version (by decide)
    · exact receiveConnectRequest_version (by omega)
  · rintro rfl
    rw [sendConnectRequest, if_neg (by decide), if_neg (by decide)]
    have hdecode := @receiveConnectRequest_decode p streamVersion (p.serializeToString c) (by omega)
      (by decide)
    rw [h.decode_serialize] at hdecode
    exact hdecode

/-! ### The response -/

/-- What is put is there as a whole, or not at all if there is no room for it. -/
theorem contents_putBytes {b : Binary} {limit : Nat} {cs : List UInt8} (h : b.Written limit bs)
    (hlt : bs.length + cs.length < 2 ^ 32) :
    (b.putBytes cs).contents = bs ++ (if bs.length + cs.length ≤ limit then cs else []) := by
  by_cases hfit : bs.length + cs.length ≤ limit
  · rw [if_pos hfit]
    exact (h.putBytes hfit).contents
  · have hindex := Binary.putIndex_eq h.contents
    rw [if_neg hfit, List.append_nil, Binary.putBytes, if_neg]
    · exact h.contents
    · apply Binary.not_putCheck
      · rw [h.size, hindex]
        omega
      · rw [hindex]
        exact hlt

/-- The packet in front of the configuration. -/
theorem written_response (data : Memory) (result version : UInt8) :
    ((((Binary.initializeWith data 64).putBytes (Stream.commandHeader commandConnectResponse)).putUint8
      result).putUint8 version).Written 64
        (Stream.commandHeader commandConnectResponse ++ [result, version]) := by
  have hheader := @Binary.Written.putBytes _ _ _ (Stream.commandHeader commandConnectResponse)
    (Binary.written_initializeWith data 64) (by rw [length_commandHeader]; decide)
  have hresult := @Binary.Written.putBytes _ _ _ [result] hheader
    (by rw [List.nil_append, length_commandHeader]; exact (by decide : 4 + 1 ≤ 64))
  have hversion := @Binary.Written.putBytes _ _ _ [version] hresult
    (by rw [List.nil_append, List.length_append, length_commandHeader]; exact (by decide : 4 + 1 + 1 ≤ 64))
  rw [List.nil_append, List.append_assoc] at hversion
  exact hversion

/-- The body that the client is given from version 2 on. -/
theorem sendConnectResponse_drop (data : Memory) (result : UInt8) (hversion : ¬ version ≤ 1)
    (hlt : (p.pbEncode 64 c).2.length ≤ 64) :
    (sendConnectResponse p data result version c).drop 4 =
      result :: version :: (if (p.pbEncode 64 c).2.length ≤ 58 then (p.pbEncode 64 c).2 else []) := by
  have hlength : (Stream.commandHeader commandConnectResponse ++ [result, version]).length = 6 := by
    rw [List.length_append, length_commandHeader]
    rfl
  have hput := @contents_putBytes _ _ _ (p.pbEncode 64 c).2 (written_response data result version)
    (by rw [hlength]; omega)
  rw [hlength] at hput
  have hif : (if 6 + (p.pbEncode 64 c).2.length ≤ 64 then (p.pbEncode 64 c).2 else []) =
      if (p.pbEncode 64 c).2.length ≤ 58 then (p.pbEncode 64 c).2 else [] := by
    by_cases hfit : (p.pbEncode 64 c).2.length ≤ 58
    · rw [if_pos hfit, if_pos (by omega)]
    · rw [if_neg hfit, if_neg (by omega)]
  rw [hif, List.append_assoc] at hput
  rw [sendConnectResponse, putConnectionConfiguration, if_neg hversion, hput,
    List.drop_left' (length_commandHeader _)]
  rfl

/-- The body is the encoding or it is cut. -/
theorem responseAgrees_iff_of_two_le (h : p.Inverse c) (data : Memory) (hversion : ¬ version ≤ 1) :
    ResponseAgrees p data version c ↔ (p.encoding c).length ≤ 58 := by
  have hle : (p.pbEncode 64 c).2.length ≤ 64 := by
    by_cases hfits : (p.encoding c).length ≤ 64
    · rw [h.encode_fits 64 hfits]
      exact hfits
    · exact (h.encode_full 64 (by omega)).2.2
  have hbody : ResponseAgrees p data version c ↔ p.parseFromString
      (if (p.pbEncode 64 c).2.length ≤ 58 then (p.pbEncode 64 c).2 else []) = some c := by
    rw [ResponseAgrees, sendConnectResponse_drop data 0 hversion hle, if_neg hversion]
    simp only [receiveConnectResponse, List.take_succ_cons, List.take_zero, unpackBB, ne_eq,
      not_true_eq_false, if_false, hversion, List.drop_succ_cons, List.drop_zero]
    cases p.parseFromString (if (p.pbEncode 64 c).2.length ≤ 58 then (p.pbEncode 64 c).2 else []) with
    | none => simp
    | some d => simp
  rw [hbody]
  constructor
  · intro hparse
    by_contra hlong
    have hcut : ∀ bs, bs <+: p.encoding c → bs.length ≤ 58 → p.parseFromString bs ≠ some c := by
      intro bs hbs hlength
      apply h.parse_cut bs hbs
      rintro rfl
      exact hlong hlength
    have hbegin : (p.pbEncode 64 c).2 <+: p.encoding c := by
      by_cases hfits : (p.encoding c).length ≤ 64
      · rw [h.encode_fits 64 hfits]
      · exact (h.encode_full 64 (by omega)).2.1
    by_cases hroom : (p.pbEncode 64 c).2.length ≤ 58
    · rw [if_pos hroom] at hparse
      exact hcut _ hbegin hroom hparse
    · rw [if_neg hroom] at hparse
      exact hcut [] List.nil_prefix (by decide) hparse
  · intro hshort
    rw [h.encode_fits 64 (by omega), if_pos hshort]
    exact h.parse_encoding

/-- Up to version 1 the client takes two bytes for the two fields, and unpacking them raises an
exception. -/
theorem not_responseAgrees_of_le_one (data : Memory) (hversion : version ≤ 1) :
    ¬ ResponseAgrees p data version c := by
  have hlength := written_response data 0 version
  have hwindow := @Binary.Written.putBytes _ _ _ [1] hlength (by
    rw [List.length_append, length_commandHeader]
    exact (by decide : 4 + 2 + 1 ≤ 64))
  have hunit := @Binary.Written.putBytes _ _ _ (leBytes 2 (1024 : UInt16).toNat) hwindow (by
    rw [List.length_append, List.length_append, length_commandHeader]
    exact (by decide : 4 + 2 + 1 + 2 ≤ 64))
  have hpacket : (sendConnectResponse p data 0 version c).drop 4 = [0, version, 1, 0, 4] := by
    rw [sendConnectResponse, putConnectionConfiguration, if_pos hversion, Binary.putUint16,
      Binary.putUint8, hunit.contents, List.append_assoc, List.append_assoc,
      List.drop_left' (length_commandHeader _)]
    rfl
  rw [ResponseAgrees, hpacket]
  simp [receiveConnectResponse, unpackBB, unpackBH, hversion]

/-- The two handshake packets agree, at the client's own version only, and for a configuration for
which the response of the device has room. -/
theorem agree_iff (h : p.Inverse c) (data : Memory) (version : UInt8) :
    RequestAgrees p version c ∧ ResponseAgrees p data version c ↔
      version = streamVersion ∧ (p.encoding c).length ≤ 58 := by
  rw [requestAgrees_iff h]
  constructor
  · rintro ⟨rfl, hresponse⟩
    exact ⟨rfl, (responseAgrees_iff_of_two_le h data (by decide)).mp hresponse⟩
  · rintro ⟨rfl, hshort⟩
    exact ⟨rfl, (responseAgrees_iff_of_two_le h data (by decide)).mpr hshort⟩

/-- A configuration with the window and the transmission unit of the client, and its encoding. -/
def sampleConfiguration : ConnectionConfiguration :=
  { ConnectionConfiguration.empty with
    maximumFlowWindow := some (.uint32 1)
    maximumTransmissionUnit := some (.uint32 1024) }

def sampleEncoding : List UInt8 := [0x0a, 0x02, 0x10, 0x01, 0x12, 0x03, 0x10, 0x80, 0x08]

def sampleProtobuf : Protobuf where
  encoding _ := sampleEncoding
  pbEncode n _ := if sampleEncoding.length ≤ n then (true, sampleEncoding) else (false, sampleEncoding.take n)
  pbDecode bs := if bs = sampleEncoding then (true, sampleConfiguration) else (false, .empty)
  serializeToString _ := sampleEncoding
  parseFromString bs := if bs = sampleEncoding then some sampleConfiguration else none

theorem sample_inverse : sampleProtobuf.Inverse sampleConfiguration where
  decode_serialize := rfl
  serialize_size := by decide
  parse_encoding := rfl
  encode_fits n hn := if_pos hn
  encode_full n hn := by
    have hno : ¬ sampleEncoding.length ≤ n := Nat.not_le.mpr hn
    have hencode : sampleProtobuf.pbEncode n sampleConfiguration = (false, sampleEncoding.take n) := if_neg hno
    rw [hencode]
    exact ⟨rfl, List.take_prefix n _, List.length_take_le n _⟩
  parse_cut bs _ hne := by
    have hparse : sampleProtobuf.parseFromString bs = none := if_neg hne
    rw [hparse]
    exact Option.some_ne_none _ |>.symm

theorem agree_sample : RequestAgrees sampleProtobuf 2 sampleConfiguration ∧
    ResponseAgrees sampleProtobuf (fun _ => 0) 2 sampleConfiguration :=
  (agree_iff sample_inverse (fun _ => 0) 2).mpr ⟨rfl, by decide⟩

/-- A client without a configuration asks for version 1, and the device reads version 2. -/
theorem not_agree_version_one : sampleProtobuf.Inverse sampleConfiguration ∧
    (receiveConnectRequest sampleProtobuf
      (received (sendConnectRequest sampleProtobuf 1 sampleConfiguration))).1 = 2 ∧
    ¬ (RequestAgrees sampleProtobuf 1 sampleConfiguration ∧
      ResponseAgrees sampleProtobuf (fun _ => 0) 1 sampleConfiguration) := by
  have hread : (receiveConnectRequest sampleProtobuf
      (received (sendConnectRequest sampleProtobuf 1 sampleConfiguration))).1 = 2 := by decide +kernel
  refine ⟨sample_inverse, hread, ?_⟩
  rintro ⟨hrequest, _⟩
  rw [RequestAgrees] at hrequest
  rw [hrequest] at hread
  exact absurd hread (by decide)

end Handshake
end Rpc
end Firefly
