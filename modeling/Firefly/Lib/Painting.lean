import Firefly.Lib.Accesses

/-!
# Firefly.Lib.Painting

Programs that bring a state to a goal place by place. What is at a place is given by `look`. `Toward`
says that in a set of places the goal is reached, and that every other place is at the goal or as it was,
so that the order in which the places are painted, and how often, does not matter.

* `forInt_toward`: a loop reaches the goal where one of its iterations does.
-/

namespace Accesses

variable {σ κ α : Type}

/-- From `s` to `t` the goal is reached at the places of `S`. -/
structure Toward (look : σ → κ → α) (goal : κ → α) (S : κ → Prop) (s t : σ) : Prop where
  reached : ∀ k, S k → look t k = goal k
  other : ∀ k, look t k = goal k ∨ look t k = look s k

variable {look : σ → κ → α} {goal : κ → α} {S T : κ → Prop} {s t u : σ}

theorem Toward.refl (look : σ → κ → α) (goal : κ → α) (s : σ) : Toward look goal (fun _ => False) s s :=
  ⟨fun _ h => h.elim, fun _ => .inr rfl⟩

theorem Toward.mono (h : Toward look goal S s t) (hst : ∀ k, T k → S k) : Toward look goal T s t :=
  ⟨fun k hk => h.reached k (hst k hk), h.other⟩

theorem Toward.trans (h : Toward look goal S s t) (h' : Toward look goal T t u) :
    Toward look goal (fun k => S k ∨ T k) s u := by
  constructor
  · rintro k (hs | ht)
    · rcases h'.other k with hgoal | hkept
      · exact hgoal
      · rw [hkept, h.reached k hs]
    · exact h'.reached k ht
  · intro k
    rcases h'.other k with hgoal | hkept
    · exact .inl hgoal
    · rw [hkept]
      exact h.other k

/-- The places that the iterations of a loop paint. -/
theorem forInt_toward {lo hi : Int} {body : Int → σ → Option σ} {P : σ → Prop} (T : Int → κ → Prop) (h : P s)
    (hstep : ∀ i s, lo ≤ i → i < hi → P s → ∃ t, body i s = some t ∧ P t ∧ Toward look goal (T i) s t) :
    ∃ t, forInt lo hi body s = some t ∧ P t ∧
      Toward look goal (fun k => ∃ i, lo ≤ i ∧ i < hi ∧ T i k) s t := by
  rcases Int.lt_or_le hi lo with hlt | hle
  · refine ⟨s, forInt_of_le (by omega), h, (Toward.refl look goal s).mono ?_⟩
    rintro k ⟨i, hi, hi', -⟩
    omega
  · refine forInt_invariant
      (fun j t => P t ∧ Toward look goal (fun k => ∃ i, lo ≤ i ∧ i < j ∧ T i k) s t) hle ?_ ?_
    · refine ⟨h, (Toward.refl look goal s).mono ?_⟩
      rintro k ⟨i, hi, hi', -⟩
      omega
    · rintro j t hj hj' ⟨ht, htoward⟩
      obtain ⟨u, hbody, hu, htoward'⟩ := hstep j t hj hj' ht
      refine ⟨u, hbody, hu, (htoward.trans htoward').mono ?_⟩
      rintro k ⟨i, hi, hi', hk⟩
      rcases Int.lt_or_eq_of_le (Int.le_of_lt_add_one hi') with hlt | rfl
      · exact .inl ⟨i, hi, hlt, hk⟩
      · exact .inr hk

section

variable {bs cs : List UInt8} {goal : Nat → Option UInt8} {S : Nat → Prop} {i : Int} {b : UInt8}

theorem write_toward (h : 0 ≤ i) (h' : i < bs.length) (hgoal : goal i.toNat = some b) :
    ∃ cs, write bs i b = some cs ∧ cs.length = bs.length ∧
      Toward (fun bs k => bs[k]?) goal (fun k => k = i.toNat) bs cs := by
  refine ⟨bs.set i.toNat b, write_eq h h' b, List.length_set, ?_, ?_⟩
  · rintro k rfl
    rw [List.getElem?_set_self (by omega), hgoal]
  · intro k
    by_cases hk : i.toNat = k
    · subst hk
      exact .inl (by rw [List.getElem?_set_self (by omega), hgoal])
    · exact .inr (List.getElem?_set_ne hk)

theorem writeAll_toward (xs : List UInt8) (h : 0 ≤ i) (hlen : i + xs.length ≤ bs.length)
    (hgoal : ∀ j : Nat, j < xs.length → goal (i.toNat + j) = xs[j]?) :
    ∃ cs, writeAll bs i xs = some cs ∧ cs.length = bs.length ∧
      Toward (fun bs k => bs[k]?) goal (fun k => i.toNat ≤ k ∧ k < i.toNat + xs.length) bs cs := by
  induction xs generalizing bs i with
  | nil =>
    refine ⟨bs, rfl, rfl, (Toward.refl _ _ _).mono ?_⟩
    rintro k ⟨hk, hk'⟩
    rw [List.length_nil] at hk'
    omega
  | cons x xs ih =>
    rw [List.length_cons] at hlen hgoal
    obtain ⟨cs, hcs, hlen₁, htoward⟩ := write_toward h (show i < bs.length by omega)
      (show goal i.toNat = some x from hgoal 0 (by omega))
    have hend : i + 1 + xs.length ≤ cs.length := by omega
    obtain ⟨ds, hds, hlen₂, htoward'⟩ := ih (by omega) hend
      (fun j hj => by
        have hnext := hgoal (j + 1) (by omega)
        rw [List.getElem?_cons_succ] at hnext
        rw [show (i + 1).toNat + j = i.toNat + (j + 1) by omega, hnext])
    refine ⟨ds, by rw [writeAll, hcs, Option.bind_some, hds], by omega, (htoward.trans htoward').mono ?_⟩
    rintro k ⟨hk, hk'⟩
    rw [List.length_cons] at hk'
    omega

/-- Bytes that reach the goal at every place are the same. -/
theorem eq_of_toward {S' : Nat → Prop} {bs' ds : List UInt8} (h : Toward (fun bs k => bs[k]?) goal S bs cs)
    (h' : Toward (fun bs k => bs[k]?) goal S' bs' ds) (hlen : cs.length = ds.length)
    (hs : ∀ k, k < cs.length → S k) (hs' : ∀ k, k < cs.length → S' k) : cs = ds := by
  apply List.ext_getElem?
  intro k
  rcases Nat.lt_or_ge k cs.length with hk | hk
  · exact (h.reached k (hs k hk)).trans (h'.reached k (hs' k hk)).symm
  · rw [List.getElem?_eq_none hk, List.getElem?_eq_none (by omega)]

theorem forInt_split {lo mid hi : Int} {body : Int → σ → Option σ} {s : σ} (h : lo ≤ mid) (h' : mid ≤ hi) :
    forInt lo hi body s = (forInt lo mid body s).bind (forInt mid hi body) := by
  obtain ⟨n, hn⟩ : ∃ n : Nat, mid - lo = n := ⟨(mid - lo).toNat, by omega⟩
  induction n generalizing lo s with
  | zero =>
    obtain rfl : mid = lo := by omega
    rw [forInt_of_le (Int.le_refl mid), Option.bind_some]
  | succ n ih =>
    rw [forInt_of_lt (show lo < hi by omega), forInt_of_lt (show lo < mid by omega), Option.bind_assoc]
    congr 1
    funext s
    exact ih (by omega) (by omega)

theorem fill_eq {n : Nat} (hn : n ≤ bs.length) (b : UInt8) :
    fill bs 0 n b = some (List.replicate n b ++ bs.drop n) := by
  obtain ⟨cs, hcs, rfl⟩ : ∃ cs, forInt 0 n (fun i bs => write bs i b) bs = some cs ∧
      cs = List.replicate (n : Int).toNat b ++ bs.drop (n : Int).toNat :=
    forInt_invariant (fun i cs => cs = List.replicate i.toNat b ++ bs.drop i.toNat) (by omega) (by simp) (by
      rintro i _ hi hi' rfl
      refine ⟨_, write_eq hi (by simp; omega) b, ?_⟩
      rw [List.set_append, if_neg (by simp), List.length_replicate, Nat.sub_self,
        List.drop_eq_getElem_cons (by omega), List.set_cons_zero,
        show (i + 1).toNat = i.toNat + 1 by omega, List.replicate_succ', List.append_assoc,
        List.singleton_append])
  rw [fill, Int.zero_add, hcs, Int.toNat_natCast]

/-- `memset` past the end of the bytes. -/
theorem fill_eq_none {n : Nat} (hn : bs.length < n) (b : UInt8) : fill bs 0 n b = none := by
  have hstart := fill_eq (Nat.le_refl bs.length) b
  rw [fill, Int.zero_add] at hstart ⊢
  rw [forInt_split (show (0 : Int) ≤ bs.length by omega) (by omega), hstart, Option.bind_some, forInt_of_lt (by omega),
    write, if_neg (by simp), Option.bind_none]

end

end Accesses
