import Firefly.Base.Echo
import Firefly.Base.Gateway

/-!
# Firefly.Base.Alike

Messages with the same bytes in memories that differ elsewhere. What a gateway does with a message
depends on its bytes alone (`process_alike`). It comes to an end with any message, and leaves its size
(`process_size`).
-/

namespace Firefly

/-- Messages with the same bytes, in memories that may differ elsewhere. -/
structure Alike (m m' : Binary) : Prop where
  size : m'.size = m.size
  putIndex : m'.putIndex = m.putIndex
  getIndex : m'.getIndex = m.getIndex
  errors : m'.errors = m.errors
  buffer : ∀ x < m.putIndex, m'.buffer x = m.buffer x

variable {m m' : Binary}

theorem alike_of_contents (hsize : m'.size = m.size) (hget : m'.getIndex = m.getIndex)
    (herrors : m'.errors = m.errors) (h : m'.contents = m.contents) : Alike m m' := by
  have hindex : m'.putIndex = m.putIndex := by
    rw [Binary.putIndex_eq h, Binary.contents, Memory.length_read]
  refine ⟨hsize, hindex, hget, herrors, ?_⟩
  intro x hx
  have hread := congrArg (fun bs : List UInt8 => bs[x]?) h
  simp only [Binary.contents, Memory.getElem?_read, hindex, if_pos hx, Nat.zero_add] at hread
  exact Option.some.inj hread

theorem Alike.contents (h : Alike m m') : m'.contents = m.contents := by
  rw [Binary.contents, Binary.contents, h.putIndex]
  refine Memory.read_congr ?_
  intro x hx
  rw [Nat.zero_add]
  exact h.buffer x hx

theorem Alike.putBytes (h : Alike m m') (bs : List UInt8) : Alike (m.putBytes bs) (m'.putBytes bs) := by
  have hcheck : m'.PutCheck bs.length ↔ m.PutCheck bs.length := by
    rw [Binary.PutCheck, Binary.PutCheck, h.putIndex, h.size]
  rw [Binary.putBytes, Binary.putBytes]
  by_cases hroom : m.PutCheck bs.length
  · rw [if_pos hroom, if_pos (hcheck.mpr hroom)]
    refine ⟨h.size, ?_, h.getIndex, h.errors, ?_⟩
    · simp only [Binary.append, h.putIndex]
    · intro x hx
      simp only [Binary.append] at hx ⊢
      rw [h.putIndex]
      exact Memory.write_congr (h.buffer x) (Nat.lt_of_lt_of_le hx (Nat.mod_le _ _))
  · rw [if_neg hroom, if_neg (mt hcheck.mp hroom)]
    refine ⟨h.size, h.putIndex, h.getIndex, ?_, h.buffer⟩
    simp only [Binary.overflow, h.errors]

theorem Binary.putBytes_size (b : Binary) (bs : List UInt8) : (b.putBytes bs).size = b.size := by
  rw [Binary.putBytes]
  split
  · rfl
  · rfl

/-! ## The encoder -/

namespace InPlace

variable {data data' : Memory} {ahead n : Nat}

theorem drawn_congr {x : Nat} (h : data' x = data x) (p : List UInt8 × List UInt8) :
    drawn data' p x = drawn data p x := by
  simp only [drawn, Memory.write, h]

/-- The encoder reads nothing behind the string. -/
theorem echo_congr (h : ∀ x < n, data' x = data x) : echo data' ahead n = echo data ahead n := by
  induction n with
  | zero => rfl
  | succ n ih =>
    have hrest := ih fun x hx => h x (Nat.lt_succ_of_lt hx)
    rw [echo, echo, hrest, drawn_congr (h n (Nat.lt_succ_self n))]

end InPlace

namespace Envelope

open Bytes

/-- The trailer is read from the bytes of the message. -/
theorem decode_alike (h : Alike m m') : (decode m').2 = (decode m).2 ∧
    ((decode m).2 ≠ none → (decode m').1.contents = (decode m).1.contents ∧
      Alike (decode m).1 (decode m').1) := by
  have hcontents := h.contents
  have hunstuffed : Alike (unstuffed m) (unstuffed m') := by
    refine alike_of_contents h.size h.getIndex h.errors ?_
    rw [contents_unstuffed hcontents, contents_unstuffed rfl]
  by_cases hshort : (Cobs.decode m.contents).length < trailerSize
  · rw [decode_short hcontents hshort, decode_short rfl hshort]
    exact ⟨rfl, fun hne => absurd rfl hne⟩
  · obtain ⟨payload, e, hsplit⟩ := exists_payload (Nat.le_of_not_lt hshort)
    rw [decode_eq hcontents hsplit, decode_eq rfl hsplit]
    split
    · have hpayload : Alike { unstuffed m with putIndex := payload.length }
          { unstuffed m' with putIndex := payload.length } := by
        refine ⟨h.size, rfl, h.getIndex, h.errors, ?_⟩
        intro x hx
        refine hunstuffed.buffer x (Nat.lt_of_lt_of_le hx ?_)
        have hlen := Binary.putIndex_eq (contents_unstuffed (rfl : m.contents = m.contents))
        rw [hsplit, List.length_append] at hlen
        dsimp only
        omega
      exact ⟨rfl, fun _ => ⟨hpayload.contents, hpayload⟩⟩
    · exact ⟨rfl, fun hne => absurd rfl hne⟩

theorem put_alike (h : Alike m m') (e : Envelope) : Alike (put m e) (put m' e) := by
  have hbyte {r r' : Binary} (h : Alike r r') (value : UInt8) : Alike (r.putUint8 value) (r'.putUint8 value) :=
    h.putBytes [value]
  unfold put
  refine Alike.putBytes ?_ (leBytes 2 e.length.toNat)
  iterate 6 refine hbyte ?_ _
  exact h

theorem putTrailer_alike (h : Alike m m') (e : Envelope) : (putTrailer m' e).2 = (putTrailer m e).2 ∧
    Alike (putTrailer m e).1 (putTrailer m' e).1 := by
  have hfields := put_alike h { e with length := UInt16.ofNat m.putIndex }
  have hcrc := hfields.contents
  rw [Binary.contents, Binary.contents] at hcrc
  have hlast : (putTrailer m' e).2 = (putTrailer m e).2 := by
    simp only [putTrailer, h.putIndex, hcrc]
  refine ⟨hlast, ?_⟩
  have hseal := hfields.putBytes (leBytes 2 (putTrailer m e).2.crc16.toNat)
  simp only [putTrailer, Binary.putUint16, h.putIndex, hcrc] at hseal ⊢
  exact hseal

/-- No assertion of the encoder fails. -/
theorem encode_alike (h : Alike m m') (queue : Memory) (e : Envelope) : ∃ encoded e' r r',
    encode queue m e = some (encoded, r, e') ∧ encode queue m' e = some (encoded, r', e') ∧ Alike r r' := by
  obtain ⟨hlast, hsealed⟩ := putTrailer_alike h e
  have hstuffed : ∃ bs, InPlace.encode (putTrailer m e).1.buffer (putTrailer m e).1.putIndex queue lookahead =
        some ((putTrailer m e).1.buffer.write 0 bs, bs.length) ∧
      InPlace.encode (putTrailer m' e).1.buffer (putTrailer m' e).1.putIndex queue lookahead =
        some ((putTrailer m' e).1.buffer.write 0 bs, bs.length) := by
    have hencode (data : Memory) (n : Nat) :=
      InPlace.encode_echo (show 0 < lookahead - 1 by decide) data queue n
    refine ⟨_, hencode _ _, ?_⟩
    rw [hsealed.putIndex, ← InPlace.echo_congr hsealed.buffer]
    exact hencode _ _
  obtain ⟨bs, hencode, hencode'⟩ := hstuffed
  simp only [encode, Option.bind_eq_bind, hencode, hencode', Option.bind_some]
  generalize putTrailer m e = sealed at hlast hsealed ⊢
  generalize putTrailer m' e = sealed' at hlast hsealed ⊢
  rw [hlast, hsealed.errors]
  refine ⟨_, _, _, _, rfl, rfl, hsealed.size, rfl, hsealed.getIndex, rfl, ?_⟩
  intro x hx
  exact Memory.write_congr (fun hneg => absurd hneg (Nat.not_lt_zero x)) (by rwa [Nat.zero_add])

theorem decode_size (m : Binary) : (decode m).1.size = m.size := by
  rw [decode]
  dsimp only
  split
  · rfl
  · split
    · rfl
    · split
      · rfl
      · rfl

theorem putTrailer_size (m : Binary) (e : Envelope) : (putTrailer m e).1.size = m.size := by
  simp only [putTrailer, put, Binary.putUint8, Binary.putUint16, Binary.putBytes_size]

theorem encode_size {queue : Memory} {encoded : Bool} {e e' : Envelope} {r : Binary}
    (h : encode queue m e = some (encoded, r, e')) : r.size = m.size := by
  have hsize := putTrailer_size m e
  rw [encode] at h
  generalize putTrailer m e = sealed at h hsize
  obtain ⟨m', e₁⟩ := sealed
  dsimp only at h hsize
  cases hstuff : InPlace.encode m'.buffer m'.putIndex queue lookahead with
  | none =>
    rw [hstuff] at h
    cases h
  | some stuffed =>
    rw [hstuff] at h
    cases h
    exact hsize

end Envelope

namespace Gateway

variable {α : Type}

theorem send_alike (g : Gateway α) (h : Alike m m') (target : UInt8) :
    (g.send m' target).1 = (g.send m target).1 := by
  have hput : Alike (m.putUint8 0) (m'.putUint8 0) := h.putBytes [0]
  rw [send, send, hput.errors]
  split
  · rfl
  · split
    · rfl
    · exact congrArg (Outcome.transmitted _) hput.contents

/-- A gateway comes to an end with every message, and its outcome depends on the bytes alone. -/
theorem process_alike (g : Gateway α) (queue : Memory) (h : Alike m m') : ∃ outcome r r',
    g.process queue m = some (outcome, r) ∧ g.process queue m' = some (outcome, r') := by
  obtain ⟨henvelope, hrest⟩ := Envelope.decode_alike h
  rw [process, process]
  cases hdecode : Envelope.decode m with
  | mk r found =>
    cases hdecode' : Envelope.decode m' with
    | mk r' found' =>
      rw [hdecode, hdecode'] at henvelope hrest
      dsimp only at henvelope hrest
      subst henvelope
      cases found' with
      | none => exact ⟨_, r, r', rfl, rfl⟩
      | some e =>
        obtain ⟨hcontents, halike⟩ := hrest (Option.some_ne_none e)
        dsimp only
        by_cases htarget : e.target = g.target
        · rw [if_pos htarget, if_pos htarget, hcontents]
          exact ⟨_, r, r', rfl, rfl⟩
        · rw [if_neg htarget, if_neg htarget]
          obtain ⟨encoded, e', s, s', hencode, hencode', hs⟩ := Envelope.encode_alike halike queue e
          simp only [transmit, hencode, hencode', Option.bind_eq_bind, Option.bind_some]
          cases encoded with
          | false => exact ⟨_, s, s', rfl, rfl⟩
          | true =>
            refine ⟨(g.send s e'.target).1, (g.send s e'.target).2, (g.send s' e'.target).2, rfl, ?_⟩
            rw [if_pos rfl, ← send_alike g hs e'.target]

theorem send_size (g : Gateway α) (m : Binary) (target : UInt8) : (g.send m target).2.size = m.size := by
  have hput : (m.putUint8 0).size = m.size := Binary.putBytes_size m [0]
  rw [send]
  split
  · exact hput
  · split
    · exact hput
    · exact hput

theorem process_size {g : Gateway α} {queue : Memory} {outcome : Outcome α} {r : Binary}
    (h : g.process queue m = some (outcome, r)) :
    r.size = m.size := by
  have hdecoded := Envelope.decode_size m
  rw [process] at h
  generalize Envelope.decode m = decoded at h hdecoded
  obtain ⟨m', found⟩ := decoded
  cases found with
  | none =>
    cases h
    exact hdecoded
  | some e =>
    dsimp only at h hdecoded
    split at h
    · cases h
      exact hdecoded
    · rw [transmit] at h
      cases hencode : Envelope.encode queue m' e with
      | none =>
        rw [hencode] at h
        cases h
      | some result =>
        obtain ⟨encoded, sealed, e'⟩ := result
        have hsealed := (Envelope.encode_size hencode).trans hdecoded
        have hsent := send_size g sealed e'.target
        rw [hencode] at h
        dsimp only [Option.bind_eq_bind, Option.bind_some] at h
        cases encoded with
        | false =>
          cases h
          exact hsealed
        | true =>
          rw [if_pos rfl, Option.some.injEq] at h
          rw [h] at hsent
          exact hsent.trans hsealed

end Gateway

end Firefly
