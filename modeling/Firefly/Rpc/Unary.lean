import Firefly.Rpc.Close

/-!
# Firefly.Rpc.Unary

The contexts of requests that do not stream. `fd_rpc_channel_server_request` allocates one for the
packet and frees it at its end, but two of its returns are in between: `sameContexts_iff` says when the
contexts are afterwards as they were before.
-/

namespace Firefly
namespace Rpc
namespace Server

open Slots

variable {χ σ κ α ε ρ : Type} {s s₁ s' : State χ σ κ α}

/-- The allocated server contexts of `s'` are those of `s`. -/
def SameContexts (s s' : State χ σ κ α) : Prop :=
  ∀ i c, At s'.serverContexts i c ↔ At s.serverContexts i c

theorem at_foldl_contextFree (freed : List Nat) (s : State χ σ κ α) (i : Nat) (c : Context χ σ) :
    At (freed.foldl State.contextFree s).serverContexts i c ↔ i ∉ freed ∧ At s.serverContexts i c := by
  induction freed generalizing s with
  | nil => simp
  | cons j freed ih =>
    have hfree : At (s.contextFree j).serverContexts i c ↔ i ≠ j ∧ At s.serverContexts i c := at_free
    rw [List.foldl_cons, ih, hfree, List.mem_cons, not_or]
    tauto

namespace Platform

variable (p : Platform χ σ α ε ρ)

/-- The context that is allocated for a request. -/
def requestContext (channel : χ) (call : Call) (association : Association σ) : Context χ σ :=
  ⟨channel, call.invocation, association.method, association.server⟩

/-- The slots that the callback of a request frees, if it is called. -/
def requestFrees (s : State χ σ κ α) (association : Association σ) (i : Nat) (data : List UInt8) (e : ε) :
    List Nat :=
  match p.decodeRequest association.method data, (p.server association.server).request with
  | some request, some callback => (callback request e s.app s.serverContexts i).2.freed
  | _, _ => []

variable {p} {association : Association σ} {call : Call} {channel : χ} {data rest : List UInt8} {e : ε}
  {buffer : Bool} {i : Nat}

/-- With room for the request the context is freed, and what its callback frees. -/
theorem at_serverRequestIn (hstreaming : association.method.serverStreaming = false)
    (hroom : association.method.requestSize ≤ p.bufferSize) (j : Nat) (c : Context χ σ) :
    At (p.serverRequestIn s association (requestContext channel call association) i rest e
        true).2.serverContexts j c ↔
      j ≠ i ∧ j ∉ p.requestFrees s association i rest e ∧ At s.serverContexts j c := by
  have hfree (s' : State χ σ κ α) : At (s'.contextFree i).serverContexts j c ↔
      j ≠ i ∧ At s'.serverContexts j c := at_free
  rw [serverRequestIn, requestFrees]
  simp only [requestContext, if_neg (Nat.not_lt.mpr hroom), hstreaming, Bool.not_true, Bool.not_false,
    Bool.and_self, Bool.false_eq_true, if_false, if_true]
  rw [hfree]
  cases p.decodeRequest association.method rest with
  | none => simp
  | some request =>
    cases (p.server association.server).request with
    | none => simp [State.invoke]
    | some callback =>
      simp only [Option.map_some, State.invoke]
      rw [at_foldl_contextFree]

/-- Without it, or without a buffer, the context stays. -/
theorem serverRequestIn_unserved (h : ¬ (association.method.requestSize ≤ p.bufferSize ∧ buffer = true)) :
    (p.serverRequestIn s association (requestContext channel call association) i rest e buffer).2 = s := by
  rw [serverRequestIn]
  split
  · rfl
  · rename_i hroom
    split
    · rfl
    · rename_i hbuffer
      exact absurd ⟨Nat.le_of_not_lt hroom, by simpa using hbuffer⟩ h

variable [DecidableEq χ]

/-- A request without server streaming leaves the server contexts as they were if and only if, when a slot
is free, it is not too large, there is a buffer for it and its callback frees no other context. -/
theorem sameContexts_iff (hcall : p.decodeCall data = some (call, rest))
    (hassociation : p.getMethodServerAssociation call = some association)
    (hstreaming : association.method.serverStreaming = false) :
    SameContexts s (p.serverRequest s channel data e buffer).2 ↔
      ∀ s₁ i, s.contextAllocate (requestContext channel call association) = some (s₁, i) →
        association.method.requestSize ≤ p.bufferSize ∧ buffer = true ∧
          ∀ j ∈ p.requestFrees s₁ association i rest e, ∀ c, ¬ At s.serverContexts j c := by
  cases hallocate : s.contextAllocate (requestContext channel call association) with
  | none =>
    have hrequest : p.serverRequest s channel data e buffer = (false, s) := by
      rw [requestContext] at hallocate
      simp only [serverRequest, hcall, hassociation, hstreaming, hallocate]
      rfl
    rw [hrequest]
    refine ⟨fun _ s₁ i h => ?_, fun _ _ _ => Iff.rfl⟩
    cases h
  | some result =>
    obtain ⟨s₁, i⟩ := result
    have hrequest : p.serverRequest s channel data e buffer =
        p.serverRequestIn s₁ association (requestContext channel call association) i rest e buffer := by
      have hcontext := hallocate
      rw [requestContext] at hcontext
      simp only [serverRequest, hcall, hassociation, hstreaming, hcontext, requestContext]
      rfl
    rw [hrequest]
    obtain ⟨t, ht, rfl⟩ := allocate_of_contextAllocate hallocate
    have hfree := allocate_free ht
    have hnew : At (s.setContexts t).serverContexts i (requestContext channel call association) :=
      (at_allocate ht).mpr (Or.inl ⟨rfl, rfl⟩)
    have hold (c : Context χ σ) : ¬ At s.serverContexts i c := by
      intro hat
      rw [At, hfree] at hat
      cases hat
    constructor
    · intro hsame s₁ i' h
      cases h
      by_cases hserved : association.method.requestSize ≤ p.bufferSize ∧ buffer = true
      · obtain ⟨hroom, rfl⟩ := hserved
        refine ⟨hroom, rfl, ?_⟩
        intro j hj c hat
        have hafter := (at_serverRequestIn hstreaming hroom j c).mp ((hsame j c).mpr hat)
        exact hafter.2.1 hj
      · rw [serverRequestIn_unserved hserved] at hsame
        exact absurd ((hsame i _).mp hnew) (hold _)
    · intro h j c
      obtain ⟨hroom, rfl, hspares⟩ := h _ _ rfl
      rw [at_serverRequestIn hstreaming hroom]
      constructor
      · rintro ⟨hne, -, hat⟩
        cases (at_allocate ht).mp hat with
        | inl hself => exact absurd hself.1 hne
        | inr hbefore => exact hbefore
      · intro hat
        refine ⟨?_, ?_, (at_allocate ht).mpr (Or.inr hat)⟩
        · rintro rfl
          exact hold c hat
        · intro hj
          exact hspares j hj c hat

end Platform
end Server

namespace ServerUx

open Server Slots

/-- None of the callbacks of the services frees a context, but for the method that streams. -/
theorem requestFrees_platform {χ κ : Type} (decodeCall : List UInt8 → Option (Server.Call × List UInt8))
    (decodeRequest : Method → List UInt8 → Option Nat) (others : List Method) (bufferSize : Nat)
    (s : Server.State χ MethodKind κ Ux) {association : Association MethodKind}
    (h : association.server = .responder) (i : Nat) (data : List UInt8) (e : Env) :
    (platform decodeCall decodeRequest others bufferSize).requestFrees s association i data e = [] := by
  rw [Server.Platform.requestFrees, h]
  cases (platform decodeCall decodeRequest others bufferSize).decodeRequest association.method data with
  | none => rfl
  | some request => rfl

/-! ## Samples -/

/-- A request that is too large for the buffer, with the default size, and one for which there is none. -/
theorem not_sameContexts_sample :
    let p : Server.Platform Bool MethodKind Ux Env Nat := platform sampleDecodeCall (fun _ _ => some 0) [] 1024
    let s : Server.State Bool MethodKind Unit Ux := Server.State.init 4 4 Ux.init
    ¬ SameContexts s (p.serverRequest s true [9, 1, 12, 1, 0] fullChannel true).2 ∧
      ¬ SameContexts s (p.serverRequest s true [9, 1, 1, 1, 0] fullChannel false).2 := by
  refine ⟨fun h => ?_, fun h => ?_⟩
  · exact at_replicate 4 ((h 0 ⟨true, 1, ⟨9, 1, 12, 5929, false, false⟩, .responder⟩).mp rfl)
  · exact at_replicate 4 ((h 0 ⟨true, 1, ⟨9, 1, 1, 6, false, false⟩, .responder⟩).mp rfl)

/-- A request that fits. -/
theorem sameContexts_sample :
    let p : Server.Platform Bool MethodKind Ux Env Nat := platform sampleDecodeCall (fun _ _ => some 0) [] 1024
    let s : Server.State Bool MethodKind Unit Ux := Server.State.init 4 4 Ux.init
    SameContexts s (p.serverRequest s true [9, 1, 1, 1, 0] fullChannel true).2 := by
  intro p s
  have hcall : p.decodeCall [9, 1, 1, 1, 0] = some (⟨9, 1, 1, 1⟩, [0]) := rfl
  have hassociation : p.getMethodServerAssociation ⟨9, 1, 1, 1⟩ =
      some ⟨⟨9, 1, 1, 6, false, false⟩, .responder⟩ := rfl
  refine (Server.Platform.sameContexts_iff hcall hassociation rfl).mpr ?_
  intro s₁ i _
  refine ⟨by decide, rfl, ?_⟩
  intro j hj
  rw [requestFrees_platform _ _ _ _ _ rfl] at hj
  cases hj

end ServerUx
end Rpc
end Firefly
