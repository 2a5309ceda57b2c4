import Firefly.Rpc.Server

/-!
# Firefly.Rpc.Contexts

How many server contexts there are for a call. Everything that a packet or the closing of a channel
does to the server contexts is freeing some of them (`Frees`), after at most one allocation
(`step_cases`). The code that allocates does not look for a context that the call already has.

* `unique_iff`: over a whole run there is at most one for each channel, method and invocation, and
  none after it was finalized, if and only if each packet that allocates finds none.
-/

namespace Firefly
namespace Rpc
namespace Server

open Slots

variable {χ σ κ α ε ρ : Type} {s s' s'' : State χ σ κ α}

/-- From `s` to `s'` server contexts are freed, and none is allocated. -/
inductive Frees (s : State χ σ κ α) : State χ σ κ α → Prop where
  | refl : Frees s s
  | free {s' : State χ σ κ α} (i : Nat) : Frees s s' → Frees s (s'.contextFree i)
  | app {s' : State χ σ κ α} (a : α) : Frees s s' → Frees s { s' with app := a }
  | clients {s' : State χ σ κ α} (table : List (Option (Context χ κ))) :
      Frees s s' → Frees s { s' with clientContexts := table }

namespace Frees

theorem trans (h : Frees s s') (h' : Frees s' s'') : Frees s s'' := by
  induction h' with
  | refl => exact h
  | free i _ ih => exact ih.free i
  | app a _ ih => exact ih.app a
  | clients table _ ih => exact ih.clients table

theorem foldl (h : Frees s s') (freed : List Nat) : Frees s (freed.foldl State.contextFree s') := by
  induction freed generalizing s' with
  | nil => exact h
  | cons i freed ih => exact ih (h.free i)

theorem at_of_at {i : Nat} {c : Context χ σ} (h : Frees s s') (hat : At s'.serverContexts i c) :
    At s.serverContexts i c := by
  induction h with
  | refl => exact hat
  | free j _ ih => exact ih (at_free.mp hat).2
  | app a _ ih => exact ih hat
  | clients table _ ih => exact ih hat

theorem tables_isPrefix (h : Frees s s') : s.tables <+: s'.tables := by
  induction h with
  | refl => exact List.prefix_rfl
  | free j _ ih => exact ih.trans (List.prefix_append _ _)
  | app a _ ih => exact ih
  | clients table _ ih => exact ih

end Frees

/-- The table of server contexts never had two for one call. -/
structure Distinct (s : State χ σ κ α) : Prop where
  tables : ∀ t ∈ s.tables, Unique Context.key t
  current : s.serverContexts ∈ s.tables

theorem Distinct.unique (h : Distinct s) : Unique Context.key s.serverContexts := h.tables _ h.current

theorem distinct_setContexts (h : Distinct s) {t : List (Option (Context χ σ))} (ht : Unique Context.key t) :
    Distinct (s.setContexts t) := by
  constructor
  · intro t' ht'
    cases List.mem_append.mp ht' with
    | inl hold => exact h.tables t' hold
    | inr hnew =>
      rw [List.mem_singleton.mp hnew]
      exact ht
  · exact List.mem_append_right _ (List.mem_singleton.mpr rfl)

theorem Frees.distinct (h : Frees s s') (hs : Distinct s) : Distinct s' := by
  induction h with
  | refl => exact hs
  | free j _ ih => exact distinct_setContexts ih (ih.unique.free j)
  | app a _ ih => exact ⟨ih.tables, ih.current⟩
  | clients table _ ih => exact ⟨ih.tables, ih.current⟩

theorem distinct_init (serverLimit clientLimit : Nat) (a : α) :
    Distinct (State.init serverLimit clientLimit a : State χ σ κ α) := by
  constructor
  · intro t ht
    rw [List.mem_singleton.mp ht]
    exact unique_replicate _ _
  · exact List.mem_singleton.mpr rfl

theorem allocate_of_contextAllocate {c : Context χ σ} {s₁ : State χ σ κ α} {i : Nat}
    (h : s.contextAllocate c = some (s₁, i)) :
    ∃ t, allocate s.serverContexts c = some (t, i) ∧ s₁ = s.setContexts t := by
  rw [State.contextAllocate, Option.map_eq_some_iff] at h
  obtain ⟨⟨t, j⟩, ht, heq⟩ := h
  injection heq with hs hi
  exact ⟨t, by rw [ht, hi], hs.symm⟩

/-! ## What the functions do -/

theorem invoke_frees (s : State χ σ κ α) (callback : Option (Callback χ σ α ε)) (e : ε) (i : Nat) :
    Frees s (s.invoke callback e i).2 := by
  cases callback with
  | none => exact .refl
  | some f => exact (Frees.refl.app _).foldl _

namespace Platform

variable (p : Platform χ σ α ε ρ)

theorem serverRequestIn_frees (s : State χ σ κ α) (association : Association σ) (context : Context χ σ)
    (i : Nat) (data : List UInt8) (e : ε) (buffer : Bool) :
    Frees s (p.serverRequestIn s association context i data e buffer).2 := by
  rw [serverRequestIn]
  split
  · exact .refl
  · split
    · exact .refl
    · cases hdecode : p.decodeRequest context.method data with
      | none =>
        dsimp only
        split
        · exact Frees.refl.free i
        · exact .refl
      | some request =>
        dsimp only
        split
        · exact (invoke_frees _ _ _ _).free i
        · exact invoke_frees _ _ _ _

variable [DecidableEq χ]

theorem serverFinalize_frees (s : State χ σ κ α) (channel : χ) (data : List UInt8) (e : ε) :
    Frees s (p.serverFinalize s channel data e).2 := by
  rw [serverFinalize]
  split
  · exact .refl
  · split
    · exact .refl
    · split
      · exact (invoke_frees _ _ _ _).free _
      · exact .refl

theorem closeContext_frees (channel : χ) (e : ε) (s : State χ σ κ α) (i : Nat) :
    Frees s (p.closeContext channel e s i) := by
  rw [closeContext]
  split
  · split
    · exact (invoke_frees _ _ _ _).free i
    · exact .refl
  · exact .refl

theorem foldl_closeContext_frees (channel : χ) (e : ε) (s : State χ σ κ α) (is : List Nat) :
    Frees s (is.foldl (p.closeContext channel e) s) := by
  induction is generalizing s with
  | nil => exact .refl
  | cons i is ih => exact (p.closeContext_frees channel e s i).trans (ih _)

theorem channelClosed_frees (s : State χ σ κ α) (channel : χ) (e : ε) :
    Frees s (p.channelClosed s channel e) :=
  (Frees.refl.clients _).trans (p.foldl_closeContext_frees channel e _ _)

/-- The context that the packet allocates, if there is a free slot. -/
def asks : Input χ κ ε → Option (Context χ σ)
  | .serverInitialize channel data _ =>
    (p.decodeCall data).bind fun (call, _) =>
      (p.getMethodServerAssociation call).map fun a => ⟨channel, call.invocation, a.method, a.server⟩
  | .serverRequest channel data _ _ =>
    (p.decodeCall data).bind fun (call, _) =>
      (p.getMethodServerAssociation call).bind fun a =>
        if a.method.serverStreaming then none else some ⟨channel, call.invocation, a.method, a.server⟩
  | _ => none

/-- Everything a step can do to the server contexts. -/
theorem step_cases (s : State χ σ κ α) (x : Input χ κ ε) :
    (Frees s (p.step s x) ∧ ∀ c, p.asks x = some c → s.contextAllocate c = none) ∨
      ∃ c s₁ i, p.asks x = some c ∧ s.contextAllocate c = some (s₁, i) ∧ Frees s₁ (p.step s x) := by
  cases x with
  | serverInitialize channel data e =>
    simp only [step, serverInitialize, asks]
    cases hcall : p.decodeCall data with
    | none => exact Or.inl ⟨.refl, fun c hc => by cases hc⟩
    | some decoded =>
      dsimp only [Option.bind_some]
      cases hassociation : p.getMethodServerAssociation decoded.1 with
      | none => exact Or.inl ⟨.refl, fun c hc => by cases hc⟩
      | some association =>
        dsimp only [Option.map_some]
        cases hallocate : s.contextAllocate
            ⟨channel, decoded.1.invocation, association.method, association.server⟩ with
        | none =>
          refine Or.inl ⟨.refl, fun c hc => ?_⟩
          injection hc with hc
          rw [← hc, hallocate]
        | some allocated =>
          refine Or.inr ⟨_, allocated.1, allocated.2, rfl, hallocate, ?_⟩
          dsimp only
          split
          · exact invoke_frees _ _ _ _
          · exact (invoke_frees _ _ _ _).free _
  | serverRequest channel data e buffer =>
    simp only [step, serverRequest, asks]
    cases hcall : p.decodeCall data with
    | none => exact Or.inl ⟨.refl, fun c hc => by cases hc⟩
    | some decoded =>
      dsimp only [Option.bind_some]
      cases hassociation : p.getMethodServerAssociation decoded.1 with
      | none => exact Or.inl ⟨.refl, fun c hc => by cases hc⟩
      | some association =>
        dsimp only [Option.bind_some]
        cases hstreaming : association.method.serverStreaming with
        | true =>
          refine Or.inl ⟨?_, fun c hc => by cases hc⟩
          rw [if_pos rfl]
          split
          · exact .refl
          · split
            · exact p.serverRequestIn_frees _ _ _ _ _ _ _
            · exact .refl
        | false =>
          rw [if_neg Bool.false_ne_true, if_neg Bool.false_ne_true]
          cases hallocate : s.contextAllocate
              ⟨channel, decoded.1.invocation, association.method, association.server⟩ with
          | none =>
            refine Or.inl ⟨.refl, fun c hc => ?_⟩
            injection hc with hc
            rw [← hc, hallocate]
          | some allocated =>
            refine Or.inr ⟨_, allocated.1, allocated.2, rfl, hallocate, ?_⟩
            exact p.serverRequestIn_frees _ _ _ _ _ _ _
  | serverFinalize channel data e =>
    exact Or.inl ⟨p.serverFinalize_frees s channel data e, fun c hc => by cases hc⟩
  | channelClosed channel e =>
    exact Or.inl ⟨p.channelClosed_frees s channel e, fun c hc => by cases hc⟩
  | work e => exact Or.inl ⟨(Frees.refl.app _).foldl _, fun c hc => by cases hc⟩
  | clients table => exact Or.inl ⟨Frees.refl.clients table, fun c hc => by cases hc⟩

/-! ## Runs -/

/-- A packet that allocates a context finds none for its call. -/
def Fresh (s : State χ σ κ α) (x : Input χ κ ε) : Prop :=
  ∀ c, p.asks x = some c → (∃ i : Nat, s.serverContexts[i]? = some none) → s.contextGet c.key.1 c.key.2 = none

/-- After it was finalized, no context is found for a call. -/
def Settled (s : State χ σ κ α) : Input χ κ ε → Prop
  | .serverFinalize channel data e => ∀ call rest, p.decodeCall data = some (call, rest) →
    (p.serverFinalize s channel data e).2.contextGet channel call = none
  | _ => True

/-- `P` holds of every input and the state that it finds. -/
def Along (P : State χ σ κ α → Input χ κ ε → Prop) : State χ σ κ α → List (Input χ κ ε) → Prop
  | _, [] => True
  | s, x :: xs => P s x ∧ Along P (p.step s x) xs

theorem contextGet_eq_none_iff {c : Context χ σ} :
    s.contextGet c.key.1 c.key.2 = none ↔ ∀ i b, At s.serverContexts i b → b.key ≠ c.key := by
  rw [State.contextGet, get_eq_none_iff]
  simp only [decide_eq_false_iff_not]

theorem step_tables (s : State χ σ κ α) (x : Input χ κ ε) : s.tables <+: (p.step s x).tables := by
  cases p.step_cases s x with
  | inl h => exact h.1.tables_isPrefix
  | inr h =>
    obtain ⟨c, s₁, i, -, hallocate, hfrees⟩ := h
    obtain ⟨t, -, rfl⟩ := allocate_of_contextAllocate hallocate
    exact (List.prefix_append _ _).trans hfrees.tables_isPrefix

theorem run_tables (s : State χ σ κ α) (xs : List (Input χ κ ε)) : s.tables <+: (p.run s xs).tables := by
  induction xs generalizing s with
  | nil => exact List.prefix_rfl
  | cons x xs ih => exact (p.step_tables s x).trans (ih _)

theorem step_distinct {x : Input χ κ ε} (h : Distinct s) (hfresh : p.Fresh s x) : Distinct (p.step s x) := by
  cases p.step_cases s x with
  | inl hnone => exact hnone.1.distinct h
  | inr hsome =>
    obtain ⟨c, s₁, i, hasks, hallocate, hfrees⟩ := hsome
    obtain ⟨t, ht, rfl⟩ := allocate_of_contextAllocate hallocate
    have hnone := contextGet_eq_none_iff.mp (hfresh c hasks ⟨i, allocate_free ht⟩)
    exact hfrees.distinct (distinct_setContexts h ((unique_allocate_iff ht h.unique).mpr hnone))

theorem fresh_of_step {x : Input χ κ ε} (h : Distinct s)
    (hunique : ∀ t ∈ (p.step s x).tables, Unique Context.key t) : p.Fresh s x := by
  intro c hasks hfree
  cases p.step_cases s x with
  | inl hnone =>
    have hfull := hnone.2 c hasks
    rw [State.contextAllocate, Option.map_eq_none_iff, allocate_eq_none_iff] at hfull
    obtain ⟨i, hi⟩ := hfree
    exact absurd hi (hfull i)
  | inr hsome =>
    obtain ⟨c', s₁, i, hasks', hallocate, hfrees⟩ := hsome
    obtain ⟨t, ht, rfl⟩ := allocate_of_contextAllocate hallocate
    have hc : c' = c := Option.some.inj (hasks'.symm.trans hasks)
    subst hc
    have hmem : t ∈ (p.step s x).tables :=
      hfrees.tables_isPrefix.subset (List.mem_append_right _ (List.mem_singleton.mpr rfl))
    exact contextGet_eq_none_iff.mpr ((unique_allocate_iff ht h.unique).mp (hunique t hmem))

theorem settled (h : Distinct s) (x : Input χ κ ε) : p.Settled s x := by
  cases x with
  | serverFinalize channel data e =>
    intro call rest hcall
    simp only [serverFinalize, hcall]
    cases hget : s.contextGet channel call with
    | none => exact hget
    | some i =>
      obtain ⟨c, hat, hkey⟩ := get_eq_some hget
      dsimp only
      rw [show s.serverContexts[i]? = some (some c) from hat, State.contextGet, get_eq_none_iff]
      intro j b hb
      have hfrees := invoke_frees s (p.server c.server).finalize e i
      rw [decide_eq_false_iff_not]
      intro hkey'
      obtain ⟨hne, hb⟩ := at_free.mp hb
      exact hne (h.unique j i b c (hfrees.at_of_at hb) hat (hkey'.trans (of_decide_eq_true hkey).symm))
  | serverInitialize channel data e => trivial
  | serverRequest channel data e buffer => trivial
  | channelClosed channel e => trivial
  | work e => trivial
  | clients table => trivial

theorem run_distinct_iff (h : Distinct s) (xs : List (Input χ κ ε)) :
    (∀ t ∈ (p.run s xs).tables, Unique Context.key t) ∧ p.Along p.Settled s xs ↔ p.Along p.Fresh s xs := by
  induction xs generalizing s with
  | nil => exact ⟨fun _ => trivial, fun _ => ⟨h.tables, trivial⟩⟩
  | cons x xs ih =>
    constructor
    · rintro ⟨hunique, hsettled⟩
      have hstep : ∀ t ∈ (p.step s x).tables, Unique Context.key t := fun t ht =>
        hunique t ((p.run_tables (p.step s x) xs).subset ht)
      have hfresh := p.fresh_of_step h hstep
      exact ⟨hfresh, (ih (p.step_distinct h hfresh)).mp ⟨hunique, hsettled.2⟩⟩
    · rintro ⟨hfresh, hrest⟩
      obtain ⟨hunique, hsettled⟩ := (ih (p.step_distinct h hfresh)).mpr hrest
      exact ⟨hunique, p.settled h x, hsettled⟩

/-- From the start on, there is never more than one server context for a channel, method and
invocation, and none after it was finalized, if and only if each packet that allocates one finds
none. -/
theorem unique_iff (serverLimit clientLimit : Nat) (a : α) (xs : List (Input χ κ ε)) :
    (∀ t ∈ (p.run (State.init serverLimit clientLimit a) xs).tables, Unique Context.key t) ∧
        p.Along p.Settled (State.init serverLimit clientLimit a) xs ↔
      p.Along p.Fresh (State.init serverLimit clientLimit a) xs :=
  p.run_distinct_iff (distinct_init serverLimit clientLimit a) xs

end Platform

/-! ## Samples -/

/-- One method that streams, without callbacks. -/
def samplePlatform : Platform Nat Unit Unit Unit Unit where
  decodeCall
    | packageId :: serviceId :: methodId :: invocation :: rest =>
      some (⟨packageId.toNat, serviceId.toNat, methodId.toNat, invocation.toNat⟩, rest)
    | _ => none
  decodeRequest _ _ := some ()
  associations := [⟨⟨9, 1, 2, 32, true, false⟩, ()⟩]
  server _ := ⟨none, none, none⟩
  work _ a _ := ⟨a, []⟩
  bufferSize := 1024

def sampleCall : List UInt8 := [9, 1, 2, 7]

/-- The call is initialized twice. One of its contexts is still found after it was finalized. -/
theorem not_unique_initialized_twice :
    ¬ ∀ xs : List (Platform.Input Nat Unit Unit),
      (∀ t ∈ (samplePlatform.run (State.init 4 4 ()) xs).tables, Unique Context.key t) ∧
        samplePlatform.Along samplePlatform.Settled (State.init 4 4 ()) xs := by
  intro h
  have hsettled := (h [.serverInitialize 0 sampleCall (), .serverInitialize 0 sampleCall (),
    .serverFinalize 0 sampleCall ()]).2.2.2.1 ⟨9, 1, 2, 7⟩ [] rfl
  cases hsettled

end Server
end Rpc
end Firefly
