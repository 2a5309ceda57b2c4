import Mathlib.Data.List.Infix

/-!
# Firefly.Lib.StopAndWait

The stop-and-wait protocol between two peers over a network that loses, duplicates, delays and
reorders packets. A peer is what it sent, how many of its messages were acknowledged, and what it
delivered. `Honest x y` relates the sending side of `x` to the receiving side of `y`, and `Carries x`
are the packets that `x` may ever have put into the network, a condition that only grows.

From `Honest` alone nothing old or reordered can do harm: data is never ahead of what was
delivered (`Honest.data_le`) and an acknowledgement is never ahead of what is awaited
(`Honest.ack_le`). The rules `send`, `deliver` and `acknowledge` keep it.
-/

namespace StopAndWait

structure Peer (M : Type) where
  sent : List M
  acked : Nat
  delivered : List M

inductive Packet (M : Type) where
  | data (i : Nat) (m : M)
  | ack (i : Nat)

variable {M : Type}

namespace Peer

def idle : Peer M := ⟨[], 0, []⟩

def send (x : Peer M) (m : M) : Peer M := { x with sent := x.sent ++ [m] }

def deliver (x : Peer M) (m : M) : Peer M := { x with delivered := x.delivered ++ [m] }

def acknowledge (x : Peer M) : Peer M := { x with acked := x.acked + 1 }

end Peer

/-- The packets a peer can have sent so far. -/
def Carries (x : Peer M) : Packet M → Prop
  | .data i m => x.sent[i]? = some m
  | .ack i => i < x.delivered.length

/-- What `x` sent arrives at `y` in order, and at most one message is underway. -/
structure Honest (x y : Peer M) : Prop where
  prefix_sent : y.delivered <+: x.sent
  acked_le : x.acked ≤ y.delivered.length
  sent_le : x.sent.length ≤ x.acked + 1

/-- A peer is as far as another or farther. -/
structure Extends (x x' : Peer M) : Prop where
  sent : x.sent <+: x'.sent
  delivered : x.delivered <+: x'.delivered

namespace Extends

theorem send (x : Peer M) (m : M) : Extends x (x.send m) := ⟨⟨[m], rfl⟩, List.prefix_rfl⟩

theorem deliver (x : Peer M) (m : M) : Extends x (x.deliver m) := ⟨List.prefix_rfl, ⟨[m], rfl⟩⟩

theorem acknowledge (x : Peer M) : Extends x x.acknowledge := ⟨List.prefix_rfl, List.prefix_rfl⟩

end Extends

theorem Carries.mono {x x' : Peer M} (h : Extends x x') {p : Packet M} (hp : Carries x p) :
    Carries x' p := by
  cases p with
  | data i m =>
    obtain ⟨ts, hts⟩ := h.sent
    have hi : i < x.sent.length := (List.getElem?_eq_some_iff.mp hp).1
    show x'.sent[i]? = some m
    rw [← hts, List.getElem?_append_left hi]
    exact hp
  | ack i => exact Nat.lt_of_lt_of_le hp h.delivered.length_le

namespace Honest

variable {x y : Peer M}

theorem idle : Honest (Peer.idle : Peer M) Peer.idle :=
  ⟨List.prefix_rfl, Nat.le_refl 0, by simp [Peer.idle]⟩

theorem delivered_le (h : Honest x y) : y.delivered.length ≤ x.sent.length :=
  h.prefix_sent.length_le

/-- A data packet is the next one or an old one. -/
theorem data_le (h : Honest x y) {i : Nat} {m : M} (hp : Carries x (.data i m)) :
    i ≤ y.delivered.length := by
  have hi : i < x.sent.length := (List.getElem?_eq_some_iff.mp hp).1
  have := h.sent_le
  have := h.acked_le
  omega

/-- An acknowledgement is the one awaited or an old one. -/
theorem ack_le (h : Honest x y) {i : Nat} (hp : Carries y (.ack i)) : i ≤ x.acked := by
  have hi : i < y.delivered.length := hp
  have := h.sent_le
  have := h.delivered_le
  omega

/-- The acknowledgement awaited is for a message that is underway. -/
theorem sent_eq_of_ack (h : Honest x y) (hp : Carries y (.ack x.acked)) :
    x.sent.length = x.acked + 1 := by
  have hi : x.acked < y.delivered.length := hp
  have := h.sent_le
  have := h.delivered_le
  omega

theorem send (h : Honest x y) (hidle : x.sent.length = x.acked) (m : M) : Honest (x.send m) y where
  prefix_sent := h.prefix_sent.trans ⟨[m], rfl⟩
  acked_le := h.acked_le
  sent_le := by simp [Peer.send, hidle]

theorem deliver (h : Honest x y) {m : M} (hp : Carries x (.data y.delivered.length m)) :
    Honest x (y.deliver m) where
  prefix_sent := by
    obtain ⟨ts, hts⟩ := h.prefix_sent
    have hm : x.sent[y.delivered.length]? = some m := hp
    rw [← hts, List.getElem?_append_right (Nat.le_refl _), Nat.sub_self] at hm
    cases ts with
    | nil => simp at hm
    | cons t ts =>
      obtain rfl : t = m := by simpa using hm
      exact ⟨ts, by rw [← hts]; simp [Peer.deliver]⟩
  acked_le := by
    have := h.acked_le
    simp only [Peer.deliver, List.length_append]
    omega
  sent_le := h.sent_le

theorem acknowledge (h : Honest x y) (hp : Carries y (.ack x.acked)) : Honest x.acknowledge y where
  prefix_sent := h.prefix_sent
  acked_le := hp
  sent_le := by
    have := h.sent_le
    simp only [Peer.acknowledge]
    omega

/-- What the other direction does is of no concern. -/
theorem congr {x' y' : Peer M} (h : Honest x y) (hs : x'.sent = x.sent) (ha : x'.acked = x.acked)
    (hd : y'.delivered = y.delivered) : Honest x' y' :=
  ⟨by rw [hd, hs]; exact h.prefix_sent, by rw [ha, hd]; exact h.acked_le,
    by rw [hs, ha]; exact h.sent_le⟩

end Honest

end StopAndWait
