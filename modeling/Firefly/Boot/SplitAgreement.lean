import Firefly.Boot.Split

/-!
# Firefly.Boot.SplitAgreement

What the controllers make of the responses of the peripheral. A response of up to 52 bytes is
transmitted, and both controllers get it back (`Reaches`).
-/

namespace Firefly
namespace Boot
namespace Split

open Bytes

/-! ## The check of the Python gateway -/

namespace Python

theorem ofNat_enter (crc : Nat) (byte : UInt8) :
    BitVec.ofNat 16 (enter crc byte) = Crc.enter (BitVec.ofNat 16 crc) byte := by
  apply BitVec.eq_of_getLsbD_eq
  intro i hi
  have hbyte : byte.toBitVec.getLsbD (i - 8) = byte.toNat.testBit (i - 8) := rfl
  simp only [enter, Crc.enter, BitVec.getLsbD_xor, BitVec.getLsbD_shiftLeft, BitVec.getLsbD_setWidth,
    BitVec.getLsbD_ofNat, Nat.testBit_xor, Nat.testBit_shiftLeft, hbyte, decide_eq_true hi, Bool.true_and]
  by_cases h8 : 8 ≤ i
  · simp [h8, show i - 8 < 16 by omega, show ¬ i < 8 by omega]
  · simp [h8, show i < 8 by omega]

theorem top_iff (crc : Nat) : crc &&& 0x8000 ≠ 0 ↔ (BitVec.ofNat 16 crc).msb = true := by
  have hmask : (0x8000 : Nat) = 2 ^ 15 := rfl
  rw [hmask, Nat.and_two_pow, BitVec.msb_eq_getLsbD_last, BitVec.getLsbD_ofNat]
  cases crc.testBit 15 <;> simp

theorem ofNat_shift (crc : Nat) :
    BitVec.ofNat 16 (shift crc) = Crc.shift Crc16.polynomial (BitVec.ofNat 16 crc) := by
  have hleft : BitVec.ofNat 16 (crc <<< 1) = BitVec.ofNat 16 crc <<< 1 := by
    apply BitVec.eq_of_getLsbD_eq
    intro i hi
    simp only [BitVec.getLsbD_shiftLeft, BitVec.getLsbD_ofNat, Nat.testBit_shiftLeft,
      decide_eq_true hi, Bool.true_and]
    by_cases h1 : 1 ≤ i
    · simp [h1, show i - 1 < 16 by omega, show i ≠ 0 by omega]
    · simp [show i = 0 by omega]
  rw [shift, Crc.shift]
  by_cases hmsb : (BitVec.ofNat 16 crc).msb = true
  · rw [if_pos ((top_iff crc).mpr hmsb), if_pos hmsb, BitVec.ofNat_xor, hleft]
    rfl
  · rw [if_neg (mt (top_iff crc).mp hmsb), if_neg hmsb, hleft]

theorem crc16_eq (data : List UInt8) : crc16 data = (Crc16.update data).toNat := by
  have hcrc := Crc.crc_eq_of_image (BitVec.ofNat 16) rfl ofNat_enter ofNat_shift data
  rw [← Crc16.toBitVec_update] at hcrc
  have hnat := congrArg BitVec.toNat hcrc
  rw [BitVec.toNat_ofNat] at hnat
  rw [crc16, show (0xffff : Nat) = 2 ^ 16 - 1 from rfl, Nat.and_two_pow_sub_one_eq_mod, hnat]
  rfl

theorem exists_leBytes_two (n : UInt16) : ∃ a b, leBytes 2 n.toNat = [a, b] ∧ leNat [a, b] = n.toNat :=
  ⟨_, _, rfl, leNat_leBytes_of_lt (w := 2) n.toNat_lt⟩

theorem getEnvelope_message {payload : List UInt8} (e : Envelope) (hlt : payload.length < 2 ^ 16) :
    getEnvelope (Envelope.message payload e) = some (payload, Envelope.stamp payload e) := by
  have hlength : (Envelope.message payload e).length - 10 = payload.length := by
    rw [Envelope.length_message, Envelope.trailerSize, Nat.add_sub_cancel]
  have hfields : (Envelope.message payload e).take ((Envelope.message payload e).length - 2) =
      payload ++ Envelope.fields (Envelope.stamp payload e) := by
    rw [Envelope.length_message, Envelope.message, Envelope.trailer, ← List.append_assoc]
    exact List.take_left' (by rw [List.length_append, Envelope.length_fields, Envelope.trailerSize]; omega)
  have htrailer : (Envelope.message payload e).drop ((Envelope.message payload e).length - 10) =
      Envelope.trailer (Envelope.stamp payload e) := by
    rw [hlength, Envelope.message]
    exact List.drop_left' rfl
  have hcrc : crc16 (payload ++ Envelope.fields (Envelope.stamp payload e)) =
      (Envelope.stamp payload e).crc16.toNat := crc16_eq _
  have hpayload : (Envelope.message payload e).take payload.length = payload := by
    rw [Envelope.message]
    exact List.take_left' rfl
  have hnat : (Envelope.stamp payload e).length.toNat = payload.length :=
    UInt16.toNat_ofNat_of_lt' hlt
  obtain ⟨l₀, l₁, hl, hlNat⟩ := exists_leBytes_two (Envelope.stamp payload e).length
  obtain ⟨c₀, c₁, hc, hcNat⟩ := exists_leBytes_two (Envelope.stamp payload e).crc16
  rw [getEnvelope, htrailer, hfields, hlength, hcrc, Envelope.trailer, Envelope.fields, hl, hc]
  simp only [List.cons_append, List.nil_append, hlNat, hcNat, hnat, ne_eq, not_true_eq_false, if_false,
    hpayload, UInt16.ofNat_toNat]
  rw [← hnat, UInt16.ofNat_toNat]

theorem collect_append {bs : List UInt8} (hbs : 0 ∉ bs) (message data : List UInt8) :
    collect message (bs ++ data) = collect (message ++ bs) data := by
  induction bs generalizing message with
  | nil => rw [List.nil_append, List.append_nil]
  | cons b bs ih =>
    rw [List.mem_cons, not_or] at hbs
    rw [List.cons_append, collect, if_neg (Ne.symm hbs.1), ih hbs.2, List.append_assoc,
      List.singleton_append]

/-- A frame gives its payload. -/
theorem rx_frame {cobsDecode : List UInt8 → Option (List UInt8)}
    (hcobs : ∀ bs data, Cobs.Encodes bs data → cobsDecode bs = some data) {payload : List UInt8}
    (e : Envelope) (hlt : payload.length < 2 ^ 16) :
    rx cobsDecode (Gateway.frame payload e ++ [0]) = some (payload, Envelope.stamp payload e) := by
  have hencodes : Cobs.Encodes (Gateway.frame payload e) (Envelope.message payload e) :=
    Cobs.encodes_encode _
  have hpos : (Gateway.frame payload e).length > 0 := List.length_pos_of_ne_nil hencodes.ne_nil
  have hcollect : collect [] (Gateway.frame payload e ++ [0]) = some (Gateway.frame payload e) := by
    rw [collect_append hencodes.zero_notMem, List.nil_append, collect, if_pos rfl, if_pos hpos]
  simp only [rx, hcollect, Option.bind_eq_bind, Option.bind_some]
  rw [hcobs _ _ hencodes, Option.bind_some]
  exact getEnvelope_message e hlt

end Python

/-! ## The controller in C -/

namespace Controller

variable {m : Binary} {bs payload : List UInt8} {e : Envelope}

theorem poll_append (hbs : 0 ∉ bs) (m : Binary) (data : List UInt8) :
    poll m (bs ++ data) = poll (m.putAll (bs.map fun b => [b])) data := by
  induction bs generalizing m with
  | nil => rfl
  | cons b bs ih =>
    rw [List.mem_cons, not_or] at hbs
    rw [List.cons_append, poll, if_neg (Ne.symm hbs.1), ih hbs.2]
    rfl

/-- A response that fits the buffer is there to be read behind its operation. -/
theorem rpc_frame (buffer : Memory) {operation : UInt16}
    (hpayload : payload = leBytes 2 operation.toNat ++ bs) (htype : e.type = Envelope.typeResponse)
    (hfits : (Gateway.frame payload e).length ≤ 64) :
    ∃ b, rpc buffer operation (Gateway.frame payload e ++ [0]) = .ok b ∧ b.Unread bs ∧
      b.remainingLength = 64 := by
  have hencodes : Cobs.Encodes (Gateway.frame payload e) (Envelope.message payload e) :=
    Cobs.encodes_encode _
  have hflatten : ((Gateway.frame payload e).map fun b => [b]).flatten = Gateway.frame payload e := by
    rw [← List.flatMap_def, List.flatMap_singleton']
  have hput := @Binary.Written.putAll _ _ _ ((Gateway.frame payload e).map fun b => [b])
    (Binary.written_initializeWith buffer 64)
    (by rw [hflatten, List.length_nil, Nat.zero_add]; exact hfits)
  rw [hflatten, List.nil_append] at hput
  have hne : ((Binary.initializeWith buffer 64).putAll
      ((Gateway.frame payload e).map fun b => [b])).putIndex ≠ 0 := by
    rw [Binary.putIndex_eq hput.contents]
    exact (List.length_pos_of_ne_nil hencodes.ne_nil).ne'
  obtain ⟨henvelope, hdecoded⟩ := Envelope.Written.decode hput (Gateway.decode_frame payload e)
  have hpoll : poll (Binary.initializeWith buffer 64) (Gateway.frame payload e ++ [0]) =
      some ((Binary.initializeWith buffer 64).putAll ((Gateway.frame payload e).map fun b => [b])) := by
    rw [poll_append hencodes.zero_notMem, poll, if_pos rfl, if_pos hne]
  generalize (Binary.initializeWith buffer 64).putAll
    ((Gateway.frame payload e).map fun b => [b]) = m at *
  have hunread : (Envelope.decode m).1.reset.Unread (leBytes 2 operation.toNat ++ bs) := by
    rw [← hpayload]
    refine ⟨?_, ?_⟩
    · have hcontents := hdecoded.contents
      rw [Binary.contents, Binary.putIndex_eq hcontents] at hcontents
      exact hcontents
    · have hle := hdecoded.fits
      rw [← hdecoded.size] at hle
      exact (Nat.zero_add _).trans_le hle
  obtain ⟨hoperation, hrest, hstate⟩ := hunread.getUint16
  refine ⟨(Envelope.decode m).1.reset.getUint16.2, ?_, hrest, ?_⟩
  · have hdecode : Envelope.decode m = ((Envelope.decode m).1, some (Envelope.stamp payload e)) := by
      rw [← henvelope]
    have hresponse : (Envelope.stamp payload e).type = Envelope.typeResponse := htype
    rw [rpc, hpoll]
    simp only
    rw [hdecode]
    simp only [hresponse, hoperation, if_true]
  · rw [hstate, Binary.remainingLength]
    simp only [Binary.reset, hdecoded.size]
    rfl

end Controller

/-! ## The peripheral -/

namespace Peripheral

variable {m : Binary} {payload : List UInt8} {e : Envelope}

theorem length_frame (payload : List UInt8) (e : Envelope) (hlt : payload.length + 10 < 254) :
    (Gateway.frame payload e).length = payload.length + 11 := by
  have hlength := Envelope.length_message payload e
  rw [Envelope.trailerSize] at hlength
  rw [Gateway.frame, Cobs.length_encode_of_lt (by rw [hlength]; exact hlt), hlength]

/-- A frame that leaves room for the delimiter is transmitted. -/
theorem dispatchRespond_of_fits {limit : Nat} (h : m.Written limit payload) (queue : Memory)
    (hlimit : limit ≤ 254 * 31) (hfits : (Gateway.frame payload e).length + 1 ≤ limit) :
    dispatchRespond queue m e = some (some (Gateway.frame payload e ++ [0])) := by
  obtain ⟨m', hencode, hframe⟩ := Envelope.encode_eq h queue e hlimit (Nat.le_of_succ_le hfits)
  have hdelimited : (m'.putUint8 0).Written limit (Gateway.frame payload e ++ [0]) := hframe.putBytes hfits
  simp only [dispatchRespond, hencode, Option.bind_eq_bind, Option.bind_some, if_true]
  rw [if_neg (not_not.mpr hdelimited.errors), hdelimited.contents]

/-- Up to 52 bytes there is room for the trailer, the stuffing and the delimiter. -/
theorem dispatchRespond_of_le (h : m.Written 64 payload) (queue : Memory) (hle : payload.length ≤ 52) :
    dispatchRespond queue m e = some (some (Gateway.frame payload e ++ [0])) := by
  have hlength := length_frame payload e (by omega)
  exact dispatchRespond_of_fits h queue (by decide) (by omega)

/-- With 53 bytes the delimiter is one too many. -/
theorem dispatchRespond_of_eq (h : m.Written 64 payload) (queue : Memory) (heq : payload.length = 53) :
    dispatchRespond queue m e = some none := by
  have hlength := length_frame payload e (by omega)
  obtain ⟨m', hencode, hframe⟩ := Envelope.encode_eq h queue e (by decide)
    (show (Gateway.frame payload e).length ≤ 64 by omega)
  have hindex : m'.putIndex = 64 := by
    rw [Binary.putIndex_eq hframe.contents]
    exact (show (Gateway.frame payload e).length = 64 by omega)
  have herrors : (m'.putUint8 0).errors ≠ 0 :=
    Binary.putBytes_errors (by rw [hframe.size, hindex]; decide) (by rw [hindex]; decide)
  simp only [dispatchRespond, hencode, Option.bind_eq_bind, Option.bind_some, if_true]
  rw [if_pos herrors]

theorem errors_putTrailer (h : m.errors ≠ 0) (e : Envelope) : (Envelope.putTrailer m e).1.errors ≠ 0 := by
  have hput : ∀ e' : Envelope, (Envelope.put m e').errors ≠ 0 := by
    intro e'
    simp only [Envelope.put, Binary.putUint8, Binary.putUint16]
    repeat apply Binary.errors_putBytes
    exact h
  simp only [Envelope.putTrailer, Binary.putUint16]
  exact Binary.errors_putBytes (hput _) _

/-- After an overflow nothing is transmitted. -/
theorem dispatchRespond_errors (h : m.errors ≠ 0) (queue : Memory) (e : Envelope) (frame : List UInt8) :
    dispatchRespond queue m e ≠ some (some frame) := by
  have herrors := errors_putTrailer h e
  simp only [dispatchRespond, Envelope.encode, Option.bind_eq_bind]
  cases InPlace.encode (Envelope.putTrailer m e).1.buffer (Envelope.putTrailer m e).1.putIndex queue
      Envelope.lookahead with
  | none => simp
  | some r =>
    have hor : (if r.2 = 0 then (Envelope.putTrailer m e).1.errors ||| Binary.errorOverflow
        else (Envelope.putTrailer m e).1.errors) ≠ 0 := by
      split
      · intro h0
        exact herrors (Nat.or_eq_zero_iff.mp h0).1
      · exact herrors
    simp [hor]

end Peripheral

/-! ## The fields of the responses -/

structure ExecutableMetadata.Fits (m : ExecutableMetadata) : Prop where
  version : m.version.Fits
  length : m.length < 2 ^ 32
  hash : m.hash.length = 20

theorem executable_fits {m : UpdateMetadata} (h : m.Fits) :
    ExecutableMetadata.Fits m.executableMetadata := ⟨h.version, h.length, h.executableHash⟩

def versionFields (v : Version) : List (List UInt8) :=
  [leBytes 4 v.major, leBytes 4 v.minor, leBytes 4 v.patch]

def executableFields (m : ExecutableMetadata) : List (List UInt8) :=
  versionFields m.version ++ [leBytes 4 m.length, m.hash]

def updateFields (m : UpdateMetadata) : List (List UInt8) :=
  executableFields m.executableMetadata ++ [m.hash, leBytes 4 m.flags, m.initializationVector]

def resultFields {μ : Type} (metadata : μ → List (List UInt8)) : Result μ → List (List UInt8)
  | .failed code => [[0], leBytes 4 code.toNat]
  | .notValid issue => [[1], [0], [issue]]
  | .valid m => [1] :: [1] :: metadata m

/-- The bytes of a response. -/
def payload (operation : UInt16) (fields : List (List UInt8)) : List UInt8 :=
  leBytes 2 operation.toNat ++ fields.flatten

theorem length_payload (operation : UInt16) (fields : List (List UInt8)) :
    (payload operation fields).length = 2 + fields.flatten.length := by
  rw [payload, List.length_append, length_leBytes]

namespace Peripheral

variable {b : Binary} {μ : Type}

theorem putAll_append (b : Binary) (fields rest : List (List UInt8)) :
    b.putAll (fields ++ rest) = (b.putAll fields).putAll rest := List.foldl_append

theorem putVersion_eq {v : Version} (h : v.Fits) (b : Binary) :
    putVersion b v = b.putAll (versionFields v) := by
  simp only [putVersion, Binary.putUint32, UInt32.toNat_ofNat_of_lt' h.major,
    UInt32.toNat_ofNat_of_lt' h.minor, UInt32.toNat_ofNat_of_lt' h.patch, versionFields, Binary.putAll,
    List.foldl_cons, List.foldl_nil]

theorem putExecutableMetadata_eq {m : ExecutableMetadata} (h : ExecutableMetadata.Fits m) (b : Binary) :
    putExecutableMetadata b m = b.putAll (executableFields m) := by
  rw [putExecutableMetadata, putVersion_eq h.version, Binary.putUint32,
    UInt32.toNat_ofNat_of_lt' h.length, executableFields, putAll_append]
  rfl

theorem putResult_eq {putMetadata : Binary → μ → Binary} {metadata : μ → List (List UInt8)} {r : Result μ}
    (h : ∀ m, r = .valid m → ∀ b, putMetadata b m = b.putAll (metadata m)) (b : Binary) :
    putResult b putMetadata r = b.putAll (resultFields metadata r) := by
  cases r with
  | failed code => rfl
  | notValid issue =>
    simp only [putResult, resultFields, Binary.putAll, List.foldl_cons, List.foldl_nil]
    rfl
  | valid m =>
    rw [putResult, h m rfl]
    rfl

theorem begin_putAll (data : Memory) (operation : UInt16) (fields : List (List UInt8)) :
    (begin data operation).putAll fields =
      (Binary.initializeWith data 64).putAll (leBytes 2 operation.toNat :: fields) := by
  rw [begin, Binary.putUint16, Binary.putAll, Binary.putAll, List.foldl_cons]

theorem written_payload (data : Memory) (operation : UInt16) (fields : List (List UInt8))
    (hle : (payload operation fields).length ≤ 64) :
    ((begin data operation).putAll fields).Written 64 (payload operation fields) := by
  have hput := @Binary.Written.putAll _ _ _ (leBytes 2 operation.toNat :: fields)
    (Binary.written_initializeWith data 64)
    (by rw [List.flatten_cons, List.length_nil, Nat.zero_add]; exact hle)
  rw [List.flatten_cons, List.nil_append] at hput
  rw [begin_putAll]
  exact hput

theorem errors_payload (data : Memory) {operation : UInt16} {fields : List (List UInt8)}
    (hfull : 64 < (payload operation fields).length) (hlt : (payload operation fields).length < 2 ^ 32) :
    ((begin data operation).putAll fields).errors ≠ 0 := by
  have herrors := @Binary.Written.putAll_errors _ _ _ (leBytes 2 operation.toNat :: fields)
    (Binary.written_initializeWith data 64)
    (by rw [List.flatten_cons, List.length_nil, Nat.zero_add]; exact hfull)
    (by rw [List.flatten_cons, List.length_nil, Nat.zero_add]; exact hlt)
  rw [begin_putAll]
  exact herrors

end Peripheral

/-! ## Reading the responses -/

namespace Controller

variable {e : Envelope}

theorem getResult_frame (buffer : Memory) (operation : UInt16) (htype : e.type = Envelope.typeResponse)
    (r : Result Unit) :
    getResult buffer operation
      (Gateway.frame (payload operation (resultFields (fun _ => []) r)) e ++ [0]) = r := by
  have hlength : (payload operation (resultFields (fun _ => []) r)).length ≤ 7 := by
    rw [length_payload]
    cases r <;> simp [resultFields]
  have hframe := Peripheral.length_frame (payload operation (resultFields (fun _ => []) r)) e
    (by omega)
  obtain ⟨b, hrpc, hunread, _⟩ := @rpc_frame (resultFields (fun _ => []) r).flatten
    (payload operation (resultFields (fun _ => []) r)) e buffer operation rfl htype (by omega)
  rw [getResult, hrpc]
  cases r with
  | failed code =>
    have hflatten : (resultFields (fun _ : Unit => []) (.failed code)).flatten =
        0 :: (leBytes 4 code.toNat ++ []) := rfl
    rw [hflatten] at hunread
    obtain ⟨hsuccess, hrest, _⟩ := hunread.getUint8
    simp only [hsuccess, if_true, hrest.getUint32.1]
  | notValid issue =>
    have hflatten : (resultFields (fun _ : Unit => []) (.notValid issue)).flatten = [1, 0, issue] := rfl
    rw [hflatten] at hunread
    obtain ⟨hsuccess, hrest, _⟩ := hunread.getUint8
    obtain ⟨hvalid, hlast, _⟩ := hrest.getUint8
    have hone : ¬ (1 : UInt8) = 0 := by decide
    simp only [hsuccess, if_neg hone, hvalid, if_true, hlast.getUint8.1]
  | valid m =>
    have hflatten : (resultFields (fun _ : Unit => []) (.valid m)).flatten = [1, 1] := rfl
    rw [hflatten] at hunread
    obtain ⟨hsuccess, hrest, _⟩ := hunread.getUint8
    have hone : ¬ (1 : UInt8) = 0 := by decide
    simp only [hsuccess, if_neg hone, hrest.getUint8.1]

theorem getVersion_eq {b : Binary} {v : Version} {bs : List UInt8} (hfits : v.Fits)
    (h : b.Unread ((versionFields v).flatten ++ bs)) :
    (getVersion b).1 = v ∧ (getVersion b).2.Unread bs ∧
      (getVersion b).2.remainingLength = b.remainingLength := by
  obtain ⟨major, minor, patch⟩ := v
  have hmajor : (UInt32.ofNat major).toNat = major := UInt32.toNat_ofNat_of_lt' hfits.major
  have hminor : (UInt32.ofNat minor).toNat = minor := UInt32.toNat_ofNat_of_lt' hfits.minor
  have hpatch : (UInt32.ofNat patch).toNat = patch := UInt32.toNat_ofNat_of_lt' hfits.patch
  have hunread : b.Unread (leBytes 4 (UInt32.ofNat major).toNat ++ (leBytes 4 (UInt32.ofNat minor).toNat ++
      (leBytes 4 (UInt32.ofNat patch).toNat ++ bs))) := by
    rw [hmajor, hminor, hpatch]
    simpa [versionFields] using h
  obtain ⟨hmajor', hunread, hstate₁⟩ := hunread.getUint32
  obtain ⟨hminor', hunread, hstate₂⟩ := hunread.getUint32
  obtain ⟨hpatch', hunread, hstate₃⟩ := hunread.getUint32
  have hstate : (getVersion b).2 = b.getUint32.2.getUint32.2.getUint32.2 := by rw [getVersion]
  rw [hstate]
  refine ⟨?_, hunread, ?_⟩
  · rw [getVersion]
    simp only [hmajor', hminor', hpatch', hmajor, hminor, hpatch]
  · have hsame : ∀ (b : Binary) (i : Nat), { b with getIndex := i }.remainingLength = b.remainingLength :=
      fun _ _ => rfl
    rw [hstate₃, hsame, hstate₂, hsame, hstate₁, hsame]

theorem getIdentity_frame (buffer : Memory) (htype : e.type = Envelope.typeResponse) {identity : Identity}
    (hversion : identity.version.Fits) {identifierSize : Nat}
    (hsize : identity.identifier.length + 1 ≤ identifierSize) (hle : identity.identifier.length ≤ 38) :
    getIdentity buffer identifierSize (Gateway.frame (payload operationGetIdentity
      (versionFields identity.version ++ [[UInt8.ofNat identity.identifier.length], identity.identifier])) e
        ++ [0]) = .ok (identity.version, identity.identifier) := by
  obtain ⟨version, identifier, _⟩ := identity
  have hlength : (payload operationGetIdentity (versionFields version ++
      [[UInt8.ofNat identifier.length], identifier])).length = 15 + identifier.length := by
    rw [length_payload]
    simp [versionFields]
    omega
  have hframe := Peripheral.length_frame (payload operationGetIdentity
    (versionFields version ++ [[UInt8.ofNat identifier.length], identifier])) e (by simp only at hle; omega)
  obtain ⟨b, hrpc, hunread, hremaining⟩ := @rpc_frame _ (payload operationGetIdentity
    (versionFields version ++ [[UInt8.ofNat identifier.length], identifier])) e buffer _
    rfl htype (by simp only at hle; omega)
  rw [List.flatten_append] at hunread
  obtain ⟨hversion', hrest, hremaining'⟩ := getVersion_eq hversion hunread
  have hstring : (getVersion b).2.Unread (Varint.encode identifier.length ++ identifier ++ []) := by
    rw [Varint.encode_of_lt (by simp only at hle; omega), List.append_nil]
    simpa using hrest
  have hget := hstring.getString_eq (by simp only at hle; omega)
    (by rw [hremaining', hremaining]; simp only at hle; omega)
  rw [getIdentity, hrpc]
  simp only [hget, hversion']
  rw [if_neg (Nat.not_lt.mpr hsize)]

end Controller

namespace Python

variable {μ : Type} {data rest : List UInt8} {n i : Nat}

theorem unpack_cons {w : Nat} (hn : n < 256 ^ w) (widths : List Nat) (rest : List UInt8) :
    unpack (w :: widths) (leBytes w n ++ rest) = (unpack widths rest).map (n :: ·) := by
  have hlength : (leBytes w n).length = w := length_leBytes w n
  rw [unpack, if_neg (by rw [List.length_append, hlength]; omega), List.drop_left' hlength,
    List.take_left' hlength, leNat_leBytes_of_lt hn]

theorem getUint32_eq (h : field data i 4 = leBytes 4 n) (hn : n < 2 ^ 32) : getUint32 data i = some n := by
  have hunpack : unpack [4] (leBytes 4 n) = some [n] := by
    have hcons := unpack_cons (w := 4) hn [] []
    rwa [List.append_nil] at hcons
  rw [getUint32, h, hunpack]

/-- The operation and the success flag. -/
theorem unpack_payload (operation : UInt16) (success : UInt8) (rest : List UInt8) :
    unpack [2, 1] (field (leBytes 2 operation.toNat ++ success :: rest) 0 3) =
      some [operation.toNat, success.toNat] := by
  have hfield : field (leBytes 2 operation.toNat ++ success :: rest) 0 3 =
      leBytes 2 operation.toNat ++ (leBytes 1 success.toNat ++ []) := by
    have hsuccess : leBytes 1 success.toNat = [success] := by
      simp [leBytes]
    rw [hsuccess]
    rfl
  rw [hfield, unpack_cons operation.toNat_lt, unpack_cons success.toNat_lt]
  rfl

theorem decode_eq (operation : UInt16) {parse : List UInt8 → Nat → Option μ}
    {metadata : μ → List (List UInt8)} {r : Result μ}
    (hparse : ∀ m, r = .valid m →
      parse (payload operation (resultFields metadata r)) 4 = some m) :
    Python.decode operation parse (payload operation (resultFields metadata r)) = some r := by
  cases r with
  | failed code =>
    have hpayload : payload operation (resultFields metadata (.failed code)) =
        leBytes 2 operation.toNat ++ 0 :: (leBytes 4 code.toNat ++ []) := rfl
    have hfield : field (leBytes 2 operation.toNat ++ 0 :: (leBytes 4 code.toNat ++ [])) 3 4 =
        leBytes 4 code.toNat := rfl
    rw [hpayload, decode, unpack_payload]
    simp only [ne_eq, not_true_eq_false, if_false, UInt8.toNat_zero, if_true]
    rw [getUint32_eq hfield code.toNat_lt, Option.map_some, UInt32.ofNat_toNat]
  | notValid issue =>
    have hpayload : payload operation (resultFields metadata (.notValid issue)) =
        leBytes 2 operation.toNat ++ 1 :: [0, issue] := rfl
    have hvalid : (leBytes 2 operation.toNat ++ 1 :: [0, issue])[3]? = some 0 := rfl
    have hissue : (leBytes 2 operation.toNat ++ 1 :: [0, issue])[4]? = some issue := rfl
    rw [hpayload, decode, unpack_payload, hvalid, hissue]
    simp
  | valid m =>
    have hpayload : payload operation (resultFields metadata (.valid m)) =
        leBytes 2 operation.toNat ++ 1 :: 1 :: (metadata m).flatten := rfl
    have hone : (leBytes 2 operation.toNat ++ 1 :: 1 :: (metadata m).flatten)[3]? = some 1 := rfl
    have hvalue := hparse m rfl
    rw [hpayload] at hvalue
    rw [hpayload, decode, unpack_payload, hone, hvalue]
    simp

theorem field_drop (data : List UInt8) (i k n : Nat) : field data (i + k) n = field (data.drop i) k n := by
  rw [field, field, List.drop_drop]

theorem executableMetadata_eq {m : ExecutableMetadata} (h : ExecutableMetadata.Fits m)
    (hdrop : data.drop i = (executableFields m).flatten ++ rest) :
    executableMetadata data i = some m := by
  obtain ⟨⟨major, minor, patch⟩, length, hash⟩ := m
  have hfields : data.drop i = leBytes 4 major ++ (leBytes 4 minor ++ (leBytes 4 patch ++
      (leBytes 4 length ++ (hash ++ rest)))) := by
    rw [hdrop]
    simp [executableFields, versionFields]
  have hmajor : getUint32 data i = some major :=
    getUint32_eq (by rw [← Nat.add_zero i, field_drop, hfields]; simp [field_append_left, field_all])
      h.version.major
  have hminor : getUint32 data (i + 4) = some minor :=
    getUint32_eq (by
      rw [field_drop, hfields]
      simp [field_append_left, field_append_right, field_all]) h.version.minor
  have hpatch : getUint32 data (i + 8) = some patch :=
    getUint32_eq (by
      rw [field_drop, hfields]
      simp [field_append_left, field_append_right, field_all]) h.version.patch
  have hlength : getUint32 data (i + 12) = some length :=
    getUint32_eq (by
      rw [field_drop, hfields]
      simp [field_append_left, field_append_right, field_all]) h.length
  have hhash : field data (i + 16) 20 = hash := by
    have hsize : hash.length = 20 := h.hash
    rw [field_drop, hfields]
    simp [field_append_left, field_append_right, field_all, hsize]
  simp only [executableMetadata, hmajor, hminor, hpatch, hlength, hhash, Option.bind_eq_bind,
    Option.bind_some]

theorem GetIdentity.decode_eq {identity : Identity} (h : identity.version.Fits)
    (hlength : identity.identifier.length < 128) :
    GetIdentity.decode (payload operationGetIdentity (versionFields identity.version ++
      [[UInt8.ofNat identity.identifier.length], identity.identifier])) =
      (String.fromUTF8? ⟨identity.identifier.toArray⟩).map fun identifier =>
        (identity.version, identifier) := by
  obtain ⟨⟨major, minor, patch⟩, identifier, _⟩ := identity
  have hbyte : leBytes 1 identifier.length = [UInt8.ofNat identifier.length] := by
    simp [leBytes]
  have hpayload : payload operationGetIdentity (versionFields ⟨major, minor, patch⟩ ++
      [[UInt8.ofNat identifier.length], identifier]) =
      (leBytes 2 operationGetIdentity.toNat ++ (leBytes 4 major ++ (leBytes 4 minor ++
        (leBytes 4 patch ++ (leBytes 1 identifier.length ++ []))))) ++ identifier := by
    rw [hbyte]
    simp [payload, versionFields]
  generalize hfront : leBytes 2 operationGetIdentity.toNat ++ (leBytes 4 major ++ (leBytes 4 minor ++
    (leBytes 4 patch ++ (leBytes 1 identifier.length ++ [])))) = front at hpayload
  have hsize : front.length = 15 := by
    rw [← hfront]
    simp
  have hunpack : unpack [2, 4, 4, 4, 1] front =
      some [operationGetIdentity.toNat, major, minor, patch, identifier.length] := by
    rw [← hfront, unpack_cons operationGetIdentity.toNat_lt, unpack_cons (w := 4) h.major,
      unpack_cons (w := 4) h.minor, unpack_cons (w := 4) h.patch,
      unpack_cons (w := 1) (Nat.lt_trans hlength (by decide))]
    rfl
  have hhead : field (front ++ identifier) 0 15 = front := by
    rw [field_append_left _ (by omega), field_all hsize]
  have htail : field (front ++ identifier) 15 identifier.length = identifier := by
    rw [field_append_right _ (by omega), hsize, Nat.sub_self, field_all rfl]
  rw [hpayload, decode, hhead, hunpack]
  simp only [htail, ne_eq, not_true_eq_false, if_false]

end Python

/-! ## Agreement -/

/-- A request, with what its handler obtains. -/
inductive Request where
  | getIdentity (identity : Identity) (identifierSize : Nat)
  | getExecutableMetadata (result : Result ExecutableMetadata)
  | getUpdateMetadata (result : Result UpdateMetadata)
  | update (result : Result Unit)
  | execute (result : Result ExecutableMetadata) (execution : Except UInt32 Unit)

namespace Request

/-- The handler of the request. -/
def response (data : Memory) : Request → Binary
  | getIdentity identity _ => Peripheral.getIdentity data identity
  | getExecutableMetadata result => Peripheral.getExecutableMetadata data result
  | getUpdateMetadata result => Peripheral.getUpdateMetadata data result
  | update result => Peripheral.update data result
  | execute result execution => Peripheral.execute data result execution

/-- The metadata is of the sizes of its fields. An identifier fits the buffers of the controller, the
one of 64 bytes for the stuffed message and that of the caller for the string and its terminator. -/
def Fits : Request → Prop
  | getIdentity identity identifierSize => identity.version.Fits ∧
      identity.identifier.length + 1 ≤ identifierSize ∧ identity.identifier.length + 26 ≤ 64
  | getExecutableMetadata result => ∀ m, result = .valid m → ExecutableMetadata.Fits m
  | getUpdateMetadata result => ∀ m, result = .valid m → m.Fits
  | update _ => True
  | execute _ _ => True

/-- What Python reads from the bytes of a response. -/
def read {α : Type} (cobsDecode : List UInt8 → Option (List UInt8)) (decode : List UInt8 → Option α)
    (bytes : List UInt8) : Option α :=
  (Python.rx cobsDecode bytes).bind fun r => decode r.1

/-- Both controllers read what the handler obtained, as far as they know the request. -/
def Decoded (cobsDecode : List UInt8 → Option (List UInt8)) (buffer : Memory) (bytes : List UInt8) :
    Request → Prop
  | getIdentity identity identifierSize =>
    Controller.getIdentity buffer identifierSize bytes = .ok (identity.version, identity.identifier) ∧
      ∃ text, read cobsDecode Python.GetIdentity.decode bytes = some (identity.version, text) ∧
        text.toUTF8.data.toList = identity.identifier
  | getExecutableMetadata result =>
    read cobsDecode Python.GetExecutableMetadata.decode bytes = some result
  | getUpdateMetadata result => read cobsDecode Python.GetUpdateMetadata.decode bytes = some result
  | update result =>
    Controller.update buffer bytes = result ∧ read cobsDecode Python.Update.decode bytes = some result
  | execute result execution =>
    Controller.execute buffer bytes = Peripheral.executed result execution ∧
      read cobsDecode Python.Execute.decode bytes = some (Peripheral.executed result execution)

/-- The response is transmitted, and read as it was meant. -/
def Agrees (cobsDecode : List UInt8 → Option (List UInt8)) (queue data buffer : Memory)
    (envelope : Envelope) (r : Request) : Prop :=
  ∃ bytes, Peripheral.dispatchRespond queue (r.response data) (Peripheral.responseEnvelope envelope) =
    some (some bytes) ∧ r.Decoded cobsDecode buffer bytes

/-- The condition for the two sides to agree. -/
def Safe : Request → Prop
  | getIdentity identity _ => identity.identifier.length ≤ 37 ∧
      (ByteArray.mk identity.identifier.toArray).IsValidUTF8
  | getExecutableMetadata _ => True
  | getUpdateMetadata result => ∀ m, result ≠ .valid m
  | update _ => True
  | execute result execution => ∃ code, Peripheral.executed result execution = .failed code

variable {cobsDecode : List UInt8 → Option (List UInt8)} {queue data buffer : Memory} {envelope : Envelope}

theorem read_frame (hcobs : ∀ bs data, Cobs.Encodes bs data → cobsDecode bs = some data) {α : Type}
    (decode : List UInt8 → Option α) {payload : List UInt8} (e : Envelope) (hlt : payload.length < 2 ^ 16) :
    read cobsDecode decode (Gateway.frame payload e ++ [0]) = decode payload := by
  rw [read, Python.rx_frame hcobs e hlt, Option.bind_some]

/-- A short response is transmitted. -/
theorem agrees_of_le {r : Request} {operation : UInt16} {fields : List (List UInt8)}
    (hresponse : r.response data = (Peripheral.begin data operation).putAll fields)
    (hle : (payload operation fields).length ≤ 52) :
    r.Agrees cobsDecode queue data buffer envelope ↔ r.Decoded cobsDecode buffer
      (Gateway.frame (payload operation fields) (Peripheral.responseEnvelope envelope) ++ [0]) := by
  have hwritten := Peripheral.written_payload data operation fields (by omega)
  have hrespond := Peripheral.dispatchRespond_of_le hwritten queue hle
    (e := Peripheral.responseEnvelope envelope)
  rw [Agrees, hresponse, hrespond]
  constructor
  · rintro ⟨bytes, heq, hdecoded⟩
    cases heq
    exact hdecoded
  · exact fun hdecoded => ⟨_, rfl, hdecoded⟩

theorem getExecutableMetadata_agrees (hcobs : ∀ bs data, Cobs.Encodes bs data → cobsDecode bs = some data)
    {result : Result ExecutableMetadata} (hfits : (getExecutableMetadata result).Fits) :
    (getExecutableMetadata result).Agrees cobsDecode queue data buffer envelope := by
  have hresponse : (getExecutableMetadata result).response data =
      (Peripheral.begin data operationGetExecutableMetadata).putAll (resultFields executableFields result) := by
    rw [response, Peripheral.getExecutableMetadata]
    exact Peripheral.putResult_eq (fun m hm b => Peripheral.putExecutableMetadata_eq (hfits m hm) b) _
  have hle : (payload operationGetExecutableMetadata (resultFields executableFields result)).length ≤ 52 := by
    rw [length_payload]
    cases result with
    | failed code => simp [resultFields]
    | notValid issue => simp [resultFields]
    | valid m => simp [resultFields, executableFields, versionFields, (hfits m rfl).hash]
  rw [agrees_of_le hresponse hle, Decoded, read_frame hcobs _ _ (by omega)]
  apply Python.decode_eq
  rintro m rfl
  exact @Python.executableMetadata_eq _ [] _ _ (hfits m rfl) (by rw [List.append_nil]; rfl)

theorem update_agrees (hcobs : ∀ bs data, Cobs.Encodes bs data → cobsDecode bs = some data)
    (result : Result Unit) : (update result).Agrees cobsDecode queue data buffer envelope := by
  have hresponse : (update result).response data =
      (Peripheral.begin data operationUpdate).putAll (resultFields (fun _ => []) result) := by
    rw [response, Peripheral.update]
    exact @Peripheral.putResult_eq Unit (fun b _ => b) (fun _ => []) result (fun _ _ _ => rfl) _
  have hle : (payload operationUpdate (resultFields (fun _ => []) result)).length ≤ 52 := by
    rw [length_payload]
    cases result <;> simp [resultFields]
  rw [agrees_of_le hresponse hle, Decoded, read_frame hcobs _ _ (by omega)]
  refine ⟨Controller.getResult_frame buffer operationUpdate rfl result, ?_⟩
  apply Python.decode_eq
  rintro m rfl
  rfl

/-- The metadata of an update is longer than the buffer of the response. -/
theorem getUpdateMetadata_agrees_iff (hcobs : ∀ bs data, Cobs.Encodes bs data → cobsDecode bs = some data)
    {result : Result UpdateMetadata} (hfits : (getUpdateMetadata result).Fits) :
    (getUpdateMetadata result).Agrees cobsDecode queue data buffer envelope ↔
      ∀ m, result ≠ .valid m := by
  have hresponse : (getUpdateMetadata result).response data =
      (Peripheral.begin data operationGetUpdateMetadata).putAll (resultFields updateFields result) := by
    rw [response, Peripheral.getUpdateMetadata]
    refine Peripheral.putResult_eq (fun m hm b => ?_) _
    rw [Peripheral.putExecutableMetadata_eq (executable_fits (hfits m hm)), updateFields,
      Peripheral.putAll_append, Binary.putUint32, UInt32.toNat_ofNat_of_lt' (hfits m hm).flags]
    rfl
  cases result with
  | valid m =>
    have hlength : (payload operationGetUpdateMetadata (resultFields updateFields (.valid m))).length = 80 := by
      have h := hfits m rfl
      rw [length_payload]
      simp [resultFields, updateFields, executableFields, versionFields, h.executableHash, h.hash,
        h.initializationVector]
    have herrors := Peripheral.errors_payload data (by rw [hlength]; decide) (by rw [hlength]; decide)
    constructor
    · rintro ⟨bytes, hrespond, _⟩
      rw [hresponse] at hrespond
      exact absurd hrespond (Peripheral.dispatchRespond_errors herrors _ _ _)
    · intro h
      exact absurd rfl (h m)
  | failed code =>
    have hagrees : (getUpdateMetadata (.failed code)).Agrees cobsDecode queue data buffer envelope := by
      rw [agrees_of_le hresponse (by rw [length_payload]; simp [resultFields]), Decoded,
        read_frame hcobs _ _ (by rw [length_payload]; simp [resultFields])]
      apply Python.decode_eq
      intro m hm
      cases hm
    exact ⟨fun _ m => nofun, fun _ => hagrees⟩
  | notValid issue =>
    have hagrees : (getUpdateMetadata (.notValid issue)).Agrees cobsDecode queue data buffer envelope := by
      rw [agrees_of_le hresponse (by rw [length_payload]; simp [resultFields]), Decoded,
        read_frame hcobs _ _ (by rw [length_payload]; simp [resultFields])]
      apply Python.decode_eq
      intro m hm
      cases hm
    exact ⟨fun _ m => nofun, fun _ => hagrees⟩

/-- A success flag alone is too short for the Python controller. -/
theorem not_execute_decode : Python.Execute.decode (payload operationExecute [[1]]) = none := by decide

theorem execute_agrees_iff (hcobs : ∀ bs data, Cobs.Encodes bs data → cobsDecode bs = some data)
    (result : Result ExecutableMetadata) (execution : Except UInt32 Unit) :
    (execute result execution).Agrees cobsDecode queue data buffer envelope ↔
      ∃ code, Peripheral.executed result execution = .failed code := by
  have hsuccess : (∀ code, Peripheral.executed result execution ≠ .failed code) →
      ¬ (execute result execution).Agrees cobsDecode queue data buffer envelope := by
    intro hno
    have hresponse : (execute result execution).response data =
        (Peripheral.begin data operationExecute).putAll [[1]] := by
      rw [response, Peripheral.execute]
      cases hexecuted : Peripheral.executed result execution with
      | failed code => exact absurd hexecuted (hno code)
      | notValid issue => rfl
      | valid m => rfl
    rw [agrees_of_le hresponse (by decide), Decoded, read_frame hcobs _ _ (by decide), not_execute_decode]
    rintro ⟨_, hnone⟩
    cases hnone
  cases hexecuted : Peripheral.executed result execution with
  | failed code =>
    have hresponse : (execute result execution).response data = (Peripheral.begin data operationExecute).putAll
        (resultFields (fun _ : Unit => []) (.failed code)) := by
      rw [response, Peripheral.execute, hexecuted]
      rfl
    have hagrees : (execute result execution).Agrees cobsDecode queue data buffer envelope := by
      rw [agrees_of_le hresponse (by rw [length_payload]; simp [resultFields]), Decoded, hexecuted,
        read_frame hcobs _ _ (by rw [length_payload]; simp [resultFields])]
      refine ⟨Controller.getResult_frame buffer operationExecute rfl _, ?_⟩
      exact Python.decode_eq operationExecute (fun m => nofun)
    exact ⟨fun _ => ⟨code, rfl⟩, fun _ => hagrees⟩
  | notValid issue =>
    have hno := hsuccess (by rw [hexecuted]; exact nofun)
    exact ⟨fun h => absurd h hno, nofun⟩
  | valid m =>
    have hno := hsuccess (by rw [hexecuted]; exact nofun)
    exact ⟨fun h => absurd h hno, nofun⟩

/-- An identifier of 38 bytes, or one that is not text. -/
theorem getIdentity_agrees_iff (hcobs : ∀ bs data, Cobs.Encodes bs data → cobsDecode bs = some data)
    {identity : Identity} {identifierSize : Nat} (hfits : (getIdentity identity identifierSize).Fits) :
    (getIdentity identity identifierSize).Agrees cobsDecode queue data buffer envelope ↔
      identity.identifier.length ≤ 37 ∧ (ByteArray.mk identity.identifier.toArray).IsValidUTF8 := by
  obtain ⟨hversion, hsize, hfit⟩ := hfits
  have hresponse : (getIdentity identity identifierSize).response data =
      (Peripheral.begin data operationGetIdentity).putAll (versionFields identity.version ++
        [[UInt8.ofNat identity.identifier.length], identity.identifier]) := by
    rw [response, Peripheral.getIdentity, Peripheral.putVersion_eq hversion, Binary.putString,
      Binary.putVaruint_of_le (by omega), Peripheral.putAll_append]
    rfl
  have hlength : (payload operationGetIdentity (versionFields identity.version ++
      [[UInt8.ofNat identity.identifier.length], identity.identifier])).length =
        15 + identity.identifier.length := by
    rw [length_payload]
    simp [versionFields]
    omega
  by_cases hle : identity.identifier.length ≤ 37
  · rw [agrees_of_le hresponse (by omega), Decoded, read_frame hcobs _ _ (by omega),
      Python.GetIdentity.decode_eq hversion (by omega), String.fromUTF8?]
    constructor
    · rintro ⟨_, text, htext, _⟩
      refine ⟨hle, ?_⟩
      by_contra hutf
      rw [dif_neg hutf] at htext
      cases htext
    · rintro ⟨_, hutf⟩
      rw [dif_pos hutf]
      exact ⟨Controller.getIdentity_frame buffer rfl hversion hsize (by omega), _, rfl, rfl⟩
  · constructor
    · rintro ⟨bytes, hrespond, _⟩
      have hwritten := Peripheral.written_payload data operationGetIdentity
        (versionFields identity.version ++
          [[UInt8.ofNat identity.identifier.length], identity.identifier]) (by omega)
      rw [hresponse, Peripheral.dispatchRespond_of_eq hwritten queue (by omega)] at hrespond
      cases hrespond
    · exact fun h => absurd h.1 hle

/-- The two sides agree on a response of the peripheral if and only if it is not the metadata of an
update, an execution that came back without an error, or an identity whose identifier is one byte too
long for the buffer or is not text. -/
theorem agrees_iff (hcobs : ∀ bs data, Cobs.Encodes bs data → cobsDecode bs = some data)
    (queue data buffer : Memory) (envelope : Envelope) {r : Request} (hfits : r.Fits) :
    r.Agrees cobsDecode queue data buffer envelope ↔ r.Safe := by
  cases r with
  | getIdentity identity identifierSize => exact getIdentity_agrees_iff hcobs hfits
  | getExecutableMetadata result =>
    exact ⟨fun _ => trivial, fun _ => getExecutableMetadata_agrees hcobs hfits⟩
  | getUpdateMetadata result => exact getUpdateMetadata_agrees_iff hcobs hfits
  | update result => exact ⟨fun _ => trivial, fun _ => update_agrees hcobs result⟩
  | execute result execution => exact execute_agrees_iff hcobs result execution

/-- An update that came to an issue. -/
theorem update_agrees_sample : (update (.notValid 1)).Agrees (fun bs => some (Cobs.decode bs)) (fun _ => 0)
    (fun _ => 0) (fun _ => 0) ⟨0, 0, 1, 2, 3, 4, Envelope.typeRequest, 0⟩ := by
  have hfits : (update (.notValid 1)).Fits := trivial
  exact (agrees_iff (fun _ _ h => congrArg some h.decode) _ _ _ _ hfits).mpr trivial

/-- An execution for which there is no valid executable: the issue is not sent. -/
theorem execute_not_agrees : ¬ (execute (.notValid 1) (.ok ())).Agrees (fun bs => some (Cobs.decode bs))
    (fun _ => 0) (fun _ => 0) (fun _ => 0) ⟨0, 0, 1, 2, 3, 4, Envelope.typeRequest, 0⟩ := by
  rw [execute_agrees_iff fun _ _ h => congrArg some h.decode]
  exact nofun

end Request

end Split
end Boot
end Firefly
