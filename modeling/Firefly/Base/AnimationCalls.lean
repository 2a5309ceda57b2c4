import Mathlib.Data.List.Induction
import Firefly.Base.Animation

/-!
# Firefly.Base.AnimationCalls

Every step of a sequence is started and stopped once, in order, and a sequence is finalized after its last step
(`calls_followed_iff`), unless a sequence that `finalize` has started is replaced by one that was waiting.
-/

namespace Firefly
namespace Animation

variable {F : Type} (a : Arithmetic F) (sequences : Nat → Sequence F) (count : Nat)

/-- What a player has told its callbacks: nothing is open, or a step is open or was closed. -/
inductive Phase where
  | rest
  | opened (q i : Nat)
  | closed (q i : Nat)

/-- The calls that may follow. -/
def follow : Phase → Call F → Option Phase
  | .rest, .start q i => if i = 0 then some (.opened q 0) else none
  | .opened q i, .waypoint q' i' _ => if q' = q ∧ i' = i then some (.opened q i) else none
  | .opened q i, .stop q' i' => if q' = q ∧ i' = i then some (.closed q i) else none
  | .closed q i, .start q' i' =>
    if q' = q ∧ (i' = i + 1 ∧ i + 1 < length sequences q ∨
      i' = 0 ∧ i + 1 = length sequences q ∧ (sequences q).repeating = true) then some (.opened q i') else none
  | .closed q i, .finalize q' => if q' = q ∧ i + 1 = length sequences q then some .rest else none
  | _, _ => none

/-- The work item goes on after `finalize` has started a sequence while another one waits. -/
def Abandons (s : Animation F) (p : Nat) : Prop :=
  (∃ q, s.pc = .finalized p q) ∧ (s.players p).sequence ≠ none ∧ (s.players p).next ≠ none

/-- The events give a state in which the work item goes on so. -/
def Abandoned (events : List Event) (p : Nat) : Prop :=
  ∃ front back s, events = front ++ .resume :: back ∧
    Events.run (step a sequences count) (initializeWith a) front = some s ∧ Abandons s p

def phase (s : Animation F) (p : Nat) : Phase :=
  match (s.players p).sequence with
  | none => .rest
  | some q => if s.pc = .stopped p q then .closed q (s.players p).step else .opened q (s.players p).step

structure Inv (s : Animation F) (p : Nat) : Prop where
  followed : Events.run (follow sequences) .rest (s.players p).calls = some (phase s p)
  bound : ∀ q, (s.players p).sequence = some q → (s.players p).step < length sequences q
  stopped : ∀ q, s.pc = .stopped p q → (s.players p).sequence = some q
  finalized : ∀ q, s.pc = .finalized p q → (s.players p).step = 0

variable {a sequences count} {s s' : Animation F} {p p' q : Nat}

theorem run_follow_concat {calls : List (Call F)} {before : Phase} {c : Call F}
    (h : Events.run (follow sequences) .rest calls = some before) :
    Events.run (follow sequences) .rest (calls ++ [c]) = follow sequences before c := by
  rw [Events.run_concat, h]
  rfl

theorem phase_rest (h : (s.players p).sequence = none) : phase s p = .rest := by
  rw [phase, h]

theorem phase_opened (h : (s.players p).sequence = some q) (hpc : s.pc ≠ .stopped p q) :
    phase s p = .opened q (s.players p).step := by
  rw [phase, h]
  exact if_neg hpc

theorem phase_closed (h : (s.players p).sequence = some q) (hpc : s.pc = .stopped p q) :
    phase s p = .closed q (s.players p).step := by
  rw [phase, h]
  exact if_pos hpc

theorem inv_initializeWith (p : Nat) : Inv sequences (initializeWith a) p where
  followed := rfl
  bound := nofun
  stopped := nofun
  finalized := nofun

/-- A step of the sequence is open. -/
theorem Inv.of_opened (hsequence : (s.players p).sequence = some q) (hpc : ∀ q, s.pc ≠ .stopped p q)
    (hfinalized : ∀ q, s.pc = .finalized p q → (s.players p).step = 0)
    (hlt : (s.players p).step < length sequences q)
    (hcalls : Events.run (follow sequences) .rest (s.players p).calls = some (.opened q (s.players p).step)) :
    Inv sequences s p where
  followed := by rw [phase_opened hsequence (hpc q), hcalls]
  bound := by
    rw [hsequence]
    rintro _ ⟨⟩
    exact hlt
  stopped := fun q' hq' => absurd hq' (hpc q')
  finalized := hfinalized

/-- A step that does nothing to what a player plays. -/
theorem Inv.frame (h : Inv sequences s p) (hsequence : (s'.players p).sequence = (s.players p).sequence)
    (hstep : (s'.players p).step = (s.players p).step) (hcalls : (s'.players p).calls = (s.players p).calls)
    (hstopped : ∀ q, s'.pc = .stopped p q ↔ s.pc = .stopped p q)
    (hfinalized : ∀ q, s'.pc = .finalized p q → s.pc = .finalized p q) : Inv sequences s' p := by
  have hphase : phase s' p = phase s p := by
    simp only [phase, hsequence, hstep, hstopped]
  refine ⟨?_, ?_, ?_, ?_⟩
  · rw [hcalls, hphase]
    exact h.followed
  · intro q hq
    rw [hstep]
    exact h.bound q (hsequence ▸ hq)
  · intro q hq
    rw [hsequence]
    exact h.stopped q ((hstopped q).1 hq)
  · intro q hq
    rw [hstep]
    exact h.finalized q (hfinalized q hq)

/-- A step of another player. -/
theorem Inv.other (h : Inv sequences s p) (hplayer : s'.players p = s.players p)
    (hpc : ∀ q, s.pc ≠ .stopped p q) (hpc' : ∀ q, s'.pc ≠ .stopped p q ∧ s'.pc ≠ .finalized p q) :
    Inv sequences s' p := by
  refine h.frame (by rw [hplayer]) (by rw [hplayer]) (by rw [hplayer]) ?_ ?_
  · intro q
    exact ⟨fun hq => absurd hq (hpc' q).1, fun hq => absurd hq (hpc q)⟩
  · intro q hq
    exact absurd hq (hpc' q).2

theorem Inv.start (h : Inv sequences s p) (p' q : Nat) :
    Inv sequences { s.set p' ((s.players p').start a q) s.pc with active := true } p := by
  by_cases hp : p = p'
  · subst hp
    cases hsequence : (s.players p).sequence with
    | none =>
      have hpc (q : Nat) : s.pc ≠ .stopped p q := by
        intro hq
        rw [h.stopped q hq] at hsequence
        cases hsequence
      have hstart : (s.players p).start a q =
          { s.players p with
            sequence := some q
            step := 0
            elapsed := a.zero
            stop := false
            cancel := false
            calls := (s.players p).calls ++ [.start q 0] } := by
        simp only [Player.start, hsequence]
      have hrest := h.followed
      rw [phase_rest hsequence] at hrest
      refine Inv.of_opened (q := q) ?_ hpc ?_ ?_ ?_
      · simp [hstart]
      · simp [hstart]
      · simp only [set_self, hstart]
        exact length_pos q
      · simp only [set_self, hstart]
        exact run_follow_concat hrest
    | some q' =>
      have hstart : (s.players p).start a q = { s.players p with stop := true, next := some q } := by
        simp only [Player.start, hsequence]
      exact h.frame (by simp [hstart]) (by simp [hstart]) (by simp [hstart]) (fun _ => Iff.rfl) fun _ hq => hq
  · have hplayer := set_of_ne (s := s) hp ((s.players p').start a q) s.pc
    refine h.frame ?_ ?_ ?_ (fun _ => Iff.rfl) fun _ hq => hq
    · exact congrArg Player.sequence hplayer
    · exact congrArg Player.step hplayer
    · exact congrArg Player.calls hplayer

/-- A step that changes only the flags of a player, or what is next. -/
theorem Inv.flags (h : Inv sequences s p) {player : Player F}
    (hsequence : player.sequence = (s.players p').sequence) (hstep : player.step = (s.players p').step)
    (hcalls : player.calls = (s.players p').calls) : Inv sequences (s.set p' player s.pc) p := by
  by_cases hp : p = p'
  · subst hp
    exact h.frame (by rw [set_self, hsequence]) (by rw [set_self, hstep]) (by rw [set_self, hcalls])
      (fun _ => Iff.rfl) fun _ hq => hq
  · have hplayer := set_of_ne (s := s) hp player s.pc
    exact h.frame (by rw [hplayer]) (by rw [hplayer]) (by rw [hplayer]) (fun _ => Iff.rfl) fun _ hq => hq

theorem Inv.tick (h : Inv sequences s p) (hpc : s.pc = .tick p') : Inv sequences (s.tick a sequences p') p := by
  have hnot (q : Nat) : s.pc ≠ .stopped p q := by simp [hpc]
  by_cases hp : p = p'
  · subst hp
    cases hsequence : (s.players p).sequence with
    | none =>
      have htick : s.tick a sequences p = { s with pc := .tick (p + 1) } := by
        simp only [tick, hsequence]
      rw [htick]
      exact h.other rfl hnot fun q => ⟨nofun, nofun⟩
    | some q =>
      have hopened := h.followed
      rw [phase_opened hsequence (hnot q)] at hopened
      have hstep := h.bound q hsequence
      simp only [tick, hsequence]
      split
      · refine Inv.of_opened (q := q) ?_ nofun nofun ?_ ?_
        · simp
        · rw [set_self]
          exact hstep
        · simp only [set_self]
          rw [run_follow_concat hopened]
          exact if_pos ⟨rfl, rfl⟩
      · have hclosed := run_follow_concat (c := .stop q (s.players p).step) hopened
        refine ⟨?_, ?_, ?_, nofun⟩
        · refine Eq.trans ?_ (congrArg some (phase_closed (q := q) ?_ rfl).symm)
          · simp only [set_self]
            rw [hclosed]
            exact if_pos ⟨rfl, rfl⟩
          · simp
        · simp only [set_self, Option.some.injEq]
          rintro q' rfl
          exact hstep
        · simp only [pc_set, Pc.stopped.injEq, true_and, set_self, Option.some.injEq]
          exact fun _ hq => hq
  · unfold Animation.tick
    dsimp only
    split
    · exact h.other rfl hnot fun q => ⟨nofun, nofun⟩
    · split
      · exact h.other (set_of_ne hp _ _) hnot fun q => ⟨nofun, nofun⟩
      · refine h.other (set_of_ne hp _ _) hnot fun q => ⟨?_, nofun⟩
        intro hq
        cases hq
        exact hp rfl

theorem Inv.advance (h : Inv sequences s p) (hpc : s.pc = .stopped p' q) :
    Inv sequences (s.advance a sequences p' q) p := by
  by_cases hp : p = p'
  · subst hp
    have hsequence := h.stopped q hpc
    have hclosed := h.followed
    rw [phase_closed hsequence hpc] at hclosed
    have hlt := h.bound q hsequence
    simp only [advance, hsequence, Option.getD_some]
    split
    · rename_i hlast
      have hend : (s.players p).step + 1 = length sequences q := by omega
      split
      · refine ⟨?_, ?_, nofun, fun _ _ => by rw [set_self]⟩
        · refine Eq.trans ?_ (congrArg some (phase_rest ?_).symm)
          · simp only [set_self]
            rw [run_follow_concat hclosed]
            exact if_pos ⟨rfl, hend⟩
          · simp
        · simp
      · rename_i hagain
        have hrepeating : (sequences q).repeating = true := by
          cases hrep : (sequences q).repeating with
          | true => rfl
          | false => exact absurd (Or.inl hrep) hagain
        refine Inv.of_opened (q := q) ?_ nofun nofun ?_ ?_
        · simp
        · rw [set_self]
          exact length_pos q
        · simp only [set_self]
          rw [run_follow_concat hclosed]
          exact if_pos ⟨rfl, Or.inr ⟨rfl, hend, hrepeating⟩⟩
    · rename_i hmore
      have hnext : (s.players p).step + 1 < length sequences q := Nat.lt_of_not_le hmore
      refine Inv.of_opened (q := q) ?_ nofun nofun ?_ ?_
      · simp
      · rw [set_self]
        exact hnext
      · simp only [set_self]
        rw [run_follow_concat hclosed]
        exact if_pos ⟨rfl, Or.inl ⟨rfl, hnext⟩⟩
  · have hnot (q : Nat) : s.pc ≠ .stopped p q := by
      intro hq
      rw [hpc] at hq
      cases hq
      exact hp rfl
    unfold Animation.advance
    dsimp only
    split
    · split
      · refine h.other (set_of_ne hp _ _) hnot fun q => ⟨nofun, ?_⟩
        intro hq
        cases hq
        exact hp rfl
      · exact h.other (set_of_ne hp _ _) hnot fun q => ⟨nofun, nofun⟩
    · exact h.other (set_of_ne hp _ _) hnot fun q => ⟨nofun, nofun⟩

theorem Inv.chain (h : Inv sequences s p) (hpc : s.pc = .finalized p' q) (hkept : ¬ Abandons s p) :
    Inv sequences (s.chain p') p := by
  have hnot (q : Nat) : s.pc ≠ .stopped p q := by simp [hpc]
  by_cases hp : p = p'
  · subst hp
    cases hnext : (s.players p).next with
    | none =>
      simp only [chain, hnext]
      exact h.other rfl hnot fun q => ⟨nofun, nofun⟩
    | some q' =>
      have hsequence : (s.players p).sequence = none := by
        by_contra hne
        exact hkept ⟨⟨q, hpc⟩, hne, by simp [hnext]⟩
      have hzero := h.finalized q hpc
      have hrest := h.followed
      rw [phase_rest hsequence] at hrest
      simp only [chain, hnext]
      refine Inv.of_opened (q := q') ?_ nofun nofun ?_ ?_
      · simp
      · simp only [set_self, hzero]
        exact length_pos q'
      · simp only [set_self, hzero]
        exact run_follow_concat hrest
  · unfold Animation.chain
    dsimp only
    split
    · exact h.other rfl hnot fun q => ⟨nofun, nofun⟩
    · exact h.other (set_of_ne hp _ _) hnot fun q => ⟨nofun, nofun⟩

theorem Inv.next (h : Inv sequences s p) {e : Event} (hstep : step a sequences count s e = some s')
    (hkept : e = .resume → ¬ Abandons s p) : Inv sequences s' p := by
  cases moves_of_step hstep with
  | start q => exact h.start _ q
  | stop => exact h.flags rfl rfl rfl
  | cancel => exact h.flags rfl rfl rfl
  | work hpc => exact h.other rfl (by simp [hpc]) (by simp)
  | tick hpc => exact h.tick hpc
  | finish hpc => exact h.other rfl (by simp [hpc]) (by simp [finish])
  | advance hpc => exact h.advance hpc
  | chain hpc => exact h.chain hpc (hkept rfl)

theorem grows_set {player : Player F} (pc : Pc) {new : List (Call F)}
    (hplayer : player.calls = (s.players p').calls ++ new) (p : Nat) :
    ∃ new, ((s.set p' player pc).players p).calls = (s.players p).calls ++ new := by
  by_cases hp : p = p'
  · subst hp
    exact ⟨new, by rw [set_self, hplayer]⟩
  · exact ⟨[], by rw [set_of_ne hp, List.append_nil]⟩

theorem calls_start (player : Player F) (q : Nat) : ∃ new, (player.start a q).calls = player.calls ++ new := by
  unfold Player.start
  split
  · exact ⟨[], (List.append_nil _).symm⟩
  · exact ⟨_, rfl⟩

/-- Calls are never taken back. -/
theorem calls_grow {e : Event} (hstep : step a sequences count s e = some s') (p : Nat) :
    ∃ new, (s'.players p).calls = (s.players p).calls ++ new := by
  have hsame : ∃ new, (s.players p).calls = (s.players p).calls ++ new := ⟨[], (List.append_nil _).symm⟩
  cases moves_of_step hstep with
  | @start p' q =>
    obtain ⟨new, hnew⟩ := calls_start (a := a) (s.players p') q
    exact grows_set s.pc hnew p
  | stop p' =>
    have hstop : (s.players p').requestStop.calls = (s.players p').calls ++ [] := (List.append_nil _).symm
    exact grows_set s.pc hstop p
  | cancel p' =>
    have hcancel : (s.players p').requestCancel.calls = (s.players p').calls ++ [] := (List.append_nil _).symm
    exact grows_set s.pc hcancel p
  | work => exact hsame
  | tick =>
    unfold Animation.tick
    dsimp only
    split
    · exact hsame
    · split
      · exact grows_set _ rfl p
      · exact grows_set _ rfl p
  | finish => exact hsame
  | advance =>
    unfold Animation.advance
    dsimp only
    split
    · split
      · exact grows_set _ rfl p
      · exact grows_set _ rfl p
    · exact grows_set _ rfl p
  | chain =>
    unfold Animation.chain
    dsimp only
    split
    · exact hsame
    · exact grows_set _ rfl p

/-- The step that `finalize` started is left open. -/
theorem Inv.abandons (h : Inv sequences s p) (habandons : Abandons s p)
    (hstep : step a sequences count s .resume = some s') :
    Events.run (follow sequences) .rest (s'.players p).calls = none := by
  obtain ⟨⟨q, hpc⟩, hsequence, hnext⟩ := habandons
  obtain ⟨q', hsequence⟩ := Option.ne_none_iff_exists'.1 hsequence
  obtain ⟨q'', hnext⟩ := Option.ne_none_iff_exists'.1 hnext
  have hopened := h.followed
  rw [phase_opened hsequence (by simp [hpc])] at hopened
  simp only [Animation.step, hpc, Animation.chain, hnext, Option.some.injEq] at hstep
  subst hstep
  simp only [set_self]
  exact run_follow_concat hopened

theorem abandoned_concat {events : List Event} {e : Event} :
    Abandoned a sequences count (events ++ [e]) p ↔ Abandoned a sequences count events p ∨ e = .resume ∧
      ∃ c, Events.run (step a sequences count) (initializeWith a) events = some c ∧ Abandons c p := by
  constructor
  · rintro ⟨front, back, c, hsplit, hfront, habandons⟩
    rcases List.eq_nil_or_concat back with rfl | ⟨back, e', rfl⟩
    · obtain ⟨rfl, hlast⟩ := List.append_inj' hsplit rfl
      cases hlast
      exact Or.inr ⟨rfl, c, hfront, habandons⟩
    · have hsplit' : events ++ [e] = (front ++ .resume :: back) ++ [e'] := by
        rw [hsplit]
        simp
      obtain ⟨rfl, -⟩ := List.append_inj' hsplit' rfl
      exact Or.inl ⟨front, back, c, rfl, hfront, habandons⟩
  · rintro (⟨front, back, c, rfl, hfront, habandons⟩ | ⟨rfl, c, hrun, habandons⟩)
    · exact ⟨front, back ++ [e], c, by simp, hfront, habandons⟩
    · exact ⟨events, [], c, rfl, hrun, habandons⟩

theorem not_abandoned_nil : ¬ Abandoned a sequences count [] p := by
  rintro ⟨front, back, c, hnil, -⟩
  exact absurd hnil.symm (List.append_ne_nil_of_right_ne_nil front (List.cons_ne_nil _ _))

/-- The invariant holds until a sequence is abandoned, and from then on the calls are out of order. -/
theorem inv_or_abandoned {events : List Event}
    (hrun : Events.run (step a sequences count) (initializeWith a) events = some s) (p : Nat) :
    ¬ Abandoned a sequences count events p ∧ Inv sequences s p ∨
      Abandoned a sequences count events p ∧
        Events.run (follow sequences) .rest (s.players p).calls = none := by
  induction events using List.reverseRecOn generalizing s with
  | nil =>
    cases hrun
    exact Or.inl ⟨not_abandoned_nil, inv_initializeWith p⟩
  | append_singleton events e ih =>
    rw [Events.run_concat] at hrun
    obtain ⟨c, hbefore, hstep⟩ := Option.bind_eq_some_iff.1 hrun
    rw [abandoned_concat]
    rcases ih hbefore with ⟨hearlier, hinv⟩ | ⟨hearlier, hlost⟩
    · by_cases hnow : e = .resume ∧ Abandons c p
      · obtain ⟨rfl, habandons⟩ := hnow
        exact Or.inr ⟨Or.inr ⟨rfl, c, hbefore, habandons⟩, hinv.abandons habandons hstep⟩
      · refine Or.inl ⟨?_, hinv.next hstep fun he habandons => hnow ⟨he, habandons⟩⟩
        rintro (hyes | ⟨he, c', hrun', habandons⟩)
        · exact hearlier hyes
        · rw [hbefore] at hrun'
          cases hrun'
          exact hnow ⟨he, habandons⟩
    · obtain ⟨new, hnew⟩ := calls_grow hstep p
      refine Or.inr ⟨Or.inl hearlier, ?_⟩
      rw [hnew]
      exact Events.run_append_eq_none hlost new

/-- Every step is started and stopped once and in its order, and a sequence is finalized after its last step and
before the next sequence, in every run in which no sequence is abandoned, and in no other. -/
theorem calls_followed_iff {events : List Event}
    (hrun : Events.run (step a sequences count) (initializeWith a) events = some s) (p : Nat) :
    (Events.run (follow sequences) .rest (s.players p).calls).isSome ↔
      ¬ Abandoned a sequences count events p := by
  rcases inv_or_abandoned hrun p with ⟨hkept, hinv⟩ | ⟨habandoned, hlost⟩
  · rw [hinv.followed]
    exact ⟨fun _ => hkept, fun _ => rfl⟩
  · rw [hlost]
    refine ⟨?_, fun hkept => absurd habandoned hkept⟩
    intro hsome
    cases hsome

/-! ## Examples -/

/-- The callback `finalize` of the first sequence starts a third one, while the second one waits. -/
def Sample.events : List Event := [.start 0 0, .start 0 1, .work, .resume, .resume, .start 0 2]

theorem calls_followed_iff_sample : ∃ s, Events.run (step Sample.arithmetic Sample.once 1)
      (initializeWith Sample.arithmetic) (Sample.events ++ [.resume]) = some s ∧
    ¬ (Events.run (follow Sample.once) .rest (s.players 0).calls).isSome := by
  have hsome : ((Events.run (step Sample.arithmetic Sample.once 1)
      (initializeWith Sample.arithmetic) (Sample.events ++ [.resume])).isSome) = true := by decide
  have hbefore : (Events.run (step Sample.arithmetic Sample.once 1)
      (initializeWith Sample.arithmetic) Sample.events).map
      (fun s => (s.pc, (s.players 0).sequence, (s.players 0).next)) = some (.finalized 0 0, some 2, some 1) := by
    decide
  obtain ⟨s, hrun⟩ := Option.isSome_iff_exists.1 hsome
  obtain ⟨c, hc, hfields⟩ := Option.map_eq_some_iff.1 hbefore
  simp only [Prod.mk.injEq] at hfields
  obtain ⟨hpc, hsequence, hnext⟩ := hfields
  refine ⟨s, hrun, fun hfollowed => (calls_followed_iff hrun 0).1 hfollowed ?_⟩
  exact ⟨Sample.events, [], c, rfl, hc, ⟨0, hpc⟩, by simp [hsequence], by simp [hnext]⟩

end Animation
end Firefly
