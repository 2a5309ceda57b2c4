import Firefly.Base.Animation

/-!
# Firefly.Base.AnimationTimer

The timer of the animations runs while there is something to play (`active_iff`).
-/

namespace Firefly
namespace Animation

variable {F : Type}
variable {a sequences count} {s s' : Animation F} {p p' q : Nat}

/-- What holds of the timer in every state. -/
structure Timed (count : Nat) (s : Animation F) : Prop where
  playing : ∀ p < count, (s.players p).sequence ≠ none ∨ (s.players p).next ≠ none → s.active = true
  waiting : ∀ p, (s.players p).sequence = none → (∀ q, s.pc ≠ .finalized p q) → (s.players p).next = none
  idle : s.pc = .idle → s.active = true → ∃ p < count, (s.players p).sequence ≠ none
  stopped : ∀ p q, s.pc = .stopped p q → (s.players p).sequence = some q

theorem Timed.set (h : Timed count s) {player : Player F} {pc : Pc}
    (hplaying : player.sequence ≠ none ∨ player.next ≠ none →
      (s.players p').sequence ≠ none ∨ (s.players p').next ≠ none)
    (hwaiting : player.sequence = none → (∀ q, pc ≠ .finalized p' q) → player.next = none)
    (hother : ∀ p q, p ≠ p' → s.pc ≠ .finalized p q) (hidle : pc ≠ .idle)
    (hstopped : ∀ p q, pc = .stopped p q → p = p' ∧ player.sequence = some q) :
    Timed count (s.set p' player pc) := by
  refine ⟨?_, ?_, fun hpc => absurd hpc hidle, ?_⟩
  · intro p hp
    by_cases heq : p = p'
    · subst heq
      rw [set_self]
      exact fun hsome => h.playing p hp (hplaying hsome)
    · rw [set_of_ne heq]
      exact h.playing p hp
  · intro p hnone hpc
    by_cases heq : p = p'
    · subst heq
      rw [set_self] at hnone ⊢
      exact hwaiting hnone hpc
    · rw [set_of_ne heq] at hnone ⊢
      exact h.waiting p hnone fun q => hother p q heq
  · intro p q hpc
    obtain ⟨rfl, hsequence⟩ := hstopped p q hpc
    rw [set_self, hsequence]

theorem Timed.start (h : Timed count s) (hp : p' < count) (q : Nat) :
    Timed count { s.set p' ((s.players p').start a q) s.pc with active := true } := by
  have hself := set_self (s := s) (p := p') ((s.players p').start a q) s.pc
  have hsequence : ((s.players p').start a q).sequence ≠ none ∧
      ∀ q', (s.players p').sequence = some q' → ((s.players p').start a q).sequence = some q' := by
    cases hcases : (s.players p').sequence with
    | none => simp [Player.start, hcases]
    | some q' => simp [Player.start, hcases]
  refine ⟨fun _ _ _ => rfl, ?_, ?_, ?_⟩
  · intro p hnone hpc
    by_cases heq : p = p'
    · subst heq
      exact absurd ((congrArg Player.sequence hself).symm.trans hnone) hsequence.1
    · have hplayer := set_of_ne (s := s) heq ((s.players p').start a q) s.pc
      have hbefore := (congrArg Player.sequence hplayer).symm.trans hnone
      exact (congrArg Player.next hplayer).trans (h.waiting p hbefore hpc)
  · intro _ _
    exact ⟨p', hp, fun hnone => hsequence.1 ((congrArg Player.sequence hself).symm.trans hnone)⟩
  · intro p q' hpc
    have hbefore := h.stopped p q' hpc
    by_cases heq : p = p'
    · subst heq
      exact (congrArg Player.sequence hself).trans (hsequence.2 q' hbefore)
    · have hplayer := set_of_ne (s := s) heq ((s.players p').start a q) s.pc
      exact (congrArg Player.sequence hplayer).trans hbefore

/-- A step that changes only the flags of a player, or makes nothing next. -/
theorem Timed.flags (h : Timed count s) {player : Player F} (hsequence : player.sequence = (s.players p').sequence)
    (hnext : player.next = none ∨ player.next = (s.players p').next) : Timed count (s.set p' player s.pc) := by
  have hkept (p : Nat) : ((s.set p' player s.pc).players p).sequence = (s.players p).sequence := by
    by_cases heq : p = p'
    · subst heq
      rw [set_self, hsequence]
    · rw [set_of_ne heq]
  refine ⟨?_, ?_, ?_, ?_⟩
  · intro p hp
    by_cases heq : p = p'
    · subst heq
      rw [set_self, hsequence]
      rintro (hsome | hsome)
      · exact h.playing p hp (Or.inl hsome)
      · exact h.playing p hp (Or.inr fun hnone => hsome (hnext.elim id fun hsame => hsame.trans hnone))
    · rw [set_of_ne heq]
      exact h.playing p hp
  · intro p hnone hpc
    by_cases heq : p = p'
    · subst heq
      rw [set_self] at hnone ⊢
      cases hnext with
      | inl hnothing => exact hnothing
      | inr hsame => exact hsame.trans (h.waiting p (hsequence ▸ hnone) hpc)
    · rw [set_of_ne heq] at hnone ⊢
      exact h.waiting p hnone hpc
  · intro hpc hactive
    obtain ⟨p, hp, hsome⟩ := h.idle hpc hactive
    exact ⟨p, hp, by rw [hkept]; exact hsome⟩
  · intro p q hpc
    rw [hkept]
    exact h.stopped p q hpc

theorem Timed.moved (h : Timed count s) {pc : Pc} (hpc : ∀ p q, s.pc = .finalized p q → (s.players p).next = none)
    (hidle : pc ≠ .idle) (hstopped : ∀ p q, pc ≠ .stopped p q) : Timed count { s with pc := pc } := by
  refine ⟨h.playing, ?_, fun hnot => absurd hnot hidle, fun p q hnot => absurd hnot (hstopped p q)⟩
  intro p hnone _
  by_cases hfinalized : ∃ q, s.pc = .finalized p q
  · obtain ⟨q, hq⟩ := hfinalized
    exact hpc p q hq
  · exact h.waiting p hnone fun q hq => hfinalized ⟨q, hq⟩

theorem Timed.tick (h : Timed count s) (hpc : s.pc = .tick p') : Timed count (s.tick a sequences p') := by
  have hnot (p q : Nat) : s.pc ≠ .finalized p q := by simp [hpc]
  unfold Animation.tick
  dsimp only
  split
  · exact h.moved (fun p q hq => absurd hq (hnot p q)) nofun nofun
  · rename_i q hsequence
    have hsome : (s.players p').sequence ≠ none := by simp [hsequence]
    split
    · exact h.set (fun _ => Or.inl hsome) (fun hnone => absurd hnone hsome) (fun p q _ => hnot p q) nofun nofun
    · refine h.set (fun _ => Or.inl hsome) (fun hnone => absurd hnone hsome) (fun p q _ => hnot p q) nofun ?_
      rintro p q' ⟨⟩
      exact ⟨rfl, hsequence⟩

theorem Timed.advance (h : Timed count s) (hpc : s.pc = .stopped p' q) :
    Timed count (s.advance a sequences p' q) := by
  have hnot (p q : Nat) : s.pc ≠ .finalized p q := by simp [hpc]
  have hsome : (s.players p').sequence ≠ none := by simp [h.stopped p' q hpc]
  unfold Animation.advance
  dsimp only
  split
  · split
    · exact h.set (fun _ => Or.inl hsome) (fun _ hfinalized => absurd rfl (hfinalized q))
        (fun p q _ => hnot p q) nofun nofun
    · exact h.set (fun _ => Or.inl hsome) (fun hnone => absurd hnone hsome) (fun p q _ => hnot p q) nofun nofun
  · exact h.set (fun _ => Or.inl hsome) (fun hnone => absurd hnone hsome) (fun p q _ => hnot p q) nofun nofun

theorem Timed.chain (h : Timed count s) (hpc : s.pc = .finalized p' q) : Timed count (s.chain p') := by
  have hother (p q' : Nat) (hp : p ≠ p') : s.pc ≠ .finalized p q' := by
    rw [hpc]
    rintro ⟨⟩
    exact hp rfl
  unfold Animation.chain
  dsimp only
  split
  · rename_i hnext
    refine h.moved ?_ nofun nofun
    intro p q' hq'
    by_cases hp : p = p'
    · subst hp
      exact hnext
    · exact absurd hq' (hother p q' hp)
  · rename_i q' hnext
    exact h.set (fun _ => Or.inr (by simp [hnext])) nofun hother nofun nofun

theorem Timed.finish (h : Timed count s) (hpc : s.pc = .tick p') : Timed count (s.finish count) := by
  have hnot (p q : Nat) : s.pc ≠ .finalized p q := by simp [hpc]
  have hany (p : Nat) (hp : p < count) (hsome : (s.players p).sequence ≠ none) :
      ((List.range count).any fun p => (s.players p).sequence.isSome) = true := by
    refine List.any_eq_true.2 ⟨p, List.mem_range.2 hp, ?_⟩
    exact Option.isSome_iff_ne_none.2 hsome
  refine ⟨?_, fun p hnone _ => h.waiting p hnone fun q => hnot p q, ?_, nofun⟩
  · intro p hp hplays
    have hsome : (s.players p).sequence ≠ none := by
      intro hnone
      cases hplays with
      | inl hsome => exact hsome hnone
      | inr hnext => exact hnext (h.waiting p hnone fun q => hnot p q)
    simp only [Animation.finish, hany p hp hsome, if_true]
    exact h.playing p hp (Or.inl hsome)
  · intro _ hactive
    by_contra hnone
    have hfalse : ((List.range count).any fun p => (s.players p).sequence.isSome) = false := by
      refine List.any_eq_false.2 ?_
      intro p hp hsome
      exact hnone ⟨p, List.mem_range.1 hp, Option.isSome_iff_ne_none.1 hsome⟩
    simp [Animation.finish, hfalse] at hactive

theorem Timed.next (h : Timed count s) (hstep : Events.Step (step a sequences count) s s') : Timed count s' := by
  obtain ⟨e, hstep⟩ := hstep
  cases moves_of_step hstep with
  | start q hp => exact h.start hp q
  | stop => exact h.flags rfl (Or.inr rfl)
  | cancel => exact h.flags rfl (Or.inl rfl)
  | work hpc => exact h.moved (by simp [hpc]) nofun nofun
  | tick hpc => exact h.tick hpc
  | finish hpc => exact h.finish hpc
  | advance hpc => exact h.advance hpc
  | chain hpc => exact h.chain hpc

/-- Between two runs of the work item the timer runs while there is a sequence to play, and only then; and a sequence
only waits for another one that is played. -/
theorem active_iff (hrun : Events.Reaches (step a sequences count) (initializeWith a) s) (hidle : s.pc = .idle) :
    (s.active = true ↔ ∃ p < count, (s.players p).sequence ≠ none) ∧
      ∀ p, (s.players p).next ≠ none → (s.players p).sequence ≠ none := by
  have hstart : Timed count (initializeWith a) := ⟨by simp [initializeWith], fun _ _ _ => rfl, nofun, nofun⟩
  have h : Timed count s := hrun.invariant hstart fun _ _ h hstep => h.next hstep
  refine ⟨⟨h.idle hidle, ?_⟩, ?_⟩
  · rintro ⟨p, hp, hsome⟩
    exact h.playing p hp (Or.inl hsome)
  · intro p hnext hnone
    exact hnext (h.waiting p hnone (by simp [hidle]))

/-- A sequence is started, and played to its end in a run of the work item. -/
theorem active_iff_sample : ∃ s, Events.Reaches (step Sample.arithmetic Sample.once 1)
    (initializeWith Sample.arithmetic) s ∧ s.active = false ∧ (s.players 0).sequence = none := by
  have hend : (Events.run (step Sample.arithmetic Sample.once 1) (initializeWith Sample.arithmetic)
      [.start 0 0, .work, .resume, .resume, .resume, .resume]).map (fun s => (s.pc, s.active)) =
      some (.idle, false) := by decide
  obtain ⟨s, hrun, hfields⟩ := Option.map_eq_some_iff.1 hend
  simp only [Prod.mk.injEq] at hfields
  obtain ⟨hidle, hactive⟩ := hfields
  have hreach := Events.reaches_of_run hrun
  have hiff := (active_iff hreach hidle).1
  refine ⟨s, hreach, hactive, ?_⟩
  by_contra hsome
  have hrunning := hiff.2 ⟨0, Nat.one_pos, hsome⟩
  rw [hactive] at hrunning
  cases hrunning

end Animation
end Firefly
