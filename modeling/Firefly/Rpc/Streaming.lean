import Firefly.Rpc.Unary

/-!
# Firefly.Rpc.Streaming

The requests of an invocation that was initialized. `fd_rpc_channel_server_request` looks for the context
of the invocation if its method has `server_streaming`, and allocates another one if it has not.
`delivery` is the callback that a packet leads to. In a run in which nobody else frees the context of the
invocation or puts another one for it in front, its requests come to that context if and only if the
method has `server_streaming` and the callback can be called at all (`delivered_iff`).
-/

namespace Firefly
namespace Rpc
namespace Server

open Slots

variable {χ σ κ α ε ρ : Type} {s s₁ s' : State χ σ κ α}

/-- The contexts that a callback frees. -/
def State.invokeFrees (s : State χ σ κ α) (callback : Option (Callback χ σ α ε)) (e : ε) (i : Nat) : List Nat :=
  match callback with
  | none => []
  | some f => (f e s.app s.serverContexts i).2.freed

theorem at_invoke (s : State χ σ κ α) (callback : Option (Callback χ σ α ε)) (e : ε) (k i : Nat)
    (c : Context χ σ) :
    At (s.invoke callback e k).2.serverContexts i c ↔
      i ∉ s.invokeFrees callback e k ∧ At s.serverContexts i c := by
  cases callback with
  | none => simp [State.invoke, State.invokeFrees]
  | some f => exact at_foldl_contextFree _ _ i c

theorem at_contextFree (s : State χ σ κ α) (k i : Nat) (c : Context χ σ) :
    At (s.contextFree k).serverContexts i c ↔ i ≠ k ∧ At s.serverContexts i c := at_free

/-- What is allocated leaves the other contexts. -/
theorem contextAllocate_at {b c : Context χ σ} {i k : Nat} (h : At s.serverContexts i c)
    (hallocate : s.contextAllocate b = some (s₁, k)) : i ≠ k ∧ At s₁.serverContexts i c := by
  obtain ⟨t, ht, rfl⟩ := allocate_of_contextAllocate hallocate
  refine ⟨?_, (at_allocate ht).mpr (Or.inr h)⟩
  rintro rfl
  rw [At, allocate_free ht] at h
  cases h

variable [DecidableEq χ]

/-- The context that a request is for, with the state in which it is allocated. -/
def State.requestTarget (s : State χ σ κ α) (channel : χ) (call : Call) (association : Association σ) :
    Option (State χ σ κ α × Nat × Context χ σ) :=
  if association.method.serverStreaming then
    match s.contextGet channel call with
    | none => none
    | some i =>
      match s.serverContexts[i]? with
      | some (some context) => some (s, i, context)
      | _ => none
  else
    (s.contextAllocate (Platform.requestContext channel call association)).map fun (s, i) =>
      (s, i, Platform.requestContext channel call association)

namespace Platform

variable (p : Platform χ σ α ε ρ)

/-- The callback of a request, if it comes to that. -/
def requestCallback (context : Context χ σ) (data : List UInt8) (buffer : Bool) : Option (Callback χ σ α ε) :=
  if p.bufferSize < context.method.requestSize then none
  else if !buffer then none
  else
    match p.decodeRequest context.method data, (p.server context.server).request with
    | some request, some callback => some (callback request)
    | _, _ => none

/-- The callback that a packet leads to, the state in which it is called and the slot of its context. -/
def delivery (s : State χ σ κ α) (channel : χ) (data : List UInt8) (buffer : Bool) :
    Option (State χ σ κ α × Nat × Callback χ σ α ε) :=
  match p.decodeCall data with
  | none => none
  | some (call, rest) =>
    match p.getMethodServerAssociation call with
    | none => none
    | some association =>
      match s.requestTarget channel call association with
      | none => none
      | some (s, i, context) => (p.requestCallback context rest buffer).map fun callback => (s, i, callback)

/-- What the callbacks free that are called for the contexts of a channel which is closed. -/
def closeFrees (channel : χ) (e : ε) (s : State χ σ κ α) : List Nat → List Nat
  | [] => []
  | i :: is =>
    (match s.serverContexts[i]? with
      | some (some context) =>
        if context.channel = channel then s.invokeFrees (p.server context.server).finalize e i else []
      | _ => []) ++ closeFrees channel e (p.closeContext channel e s i) is

/-- What the application frees in a step, in the callbacks that are called and in its own work. -/
def applicationFrees (s : State χ σ κ α) : Input χ κ ε → List Nat
  | .serverInitialize channel data e =>
    match p.decodeCall data with
    | none => []
    | some (call, _) =>
      match p.getMethodServerAssociation call with
      | none => []
      | some association =>
        match s.contextAllocate (requestContext channel call association) with
        | none => []
        | some (s, i) => s.invokeFrees (p.server association.server).contextInitialize e i
  | .serverRequest channel data e buffer =>
    match p.delivery s channel data buffer with
    | none => []
    | some (s, i, callback) => s.invokeFrees (some callback) e i
  | .serverFinalize channel data e =>
    match p.decodeCall data with
    | none => []
    | some (call, _) =>
      match s.contextGet channel call with
      | none => []
      | some i =>
        match s.serverContexts[i]? with
        | some (some context) => s.invokeFrees (p.server context.server).finalize e i
        | _ => []
  | .channelClosed channel e =>
    p.closeFrees channel e
      { s with clientContexts := s.clientContexts.map fun slot => slot.filter fun c => decide (c.channel ≠ channel) }
      (List.range s.serverContexts.length)
  | .work e => (p.work e s.app s.serverContexts).freed
  | .clients _ => []

/-- The packet, or the closing of the channel, that finalizes an invocation. -/
def Ends (channel : χ) (call : Call) : Input χ κ ε → Prop
  | .serverFinalize channel' data _ => channel' = channel ∧ ∃ rest, p.decodeCall data = some (call, rest)
  | .channelClosed channel' _ => channel' = channel
  | _ => False

variable {p}

theorem serverRequest_eq (s : State χ σ κ α) (channel : χ) (data : List UInt8) (e : ε) (buffer : Bool) :
    p.serverRequest s channel data e buffer =
      match p.decodeCall data with
      | none => (false, s)
      | some (call, rest) =>
        match p.getMethodServerAssociation call with
        | none => (false, s)
        | some association =>
          match s.requestTarget channel call association with
          | none => (false, s)
          | some (s, i, context) => p.serverRequestIn s association context i rest e buffer := by
  rw [serverRequest]
  cases p.decodeCall data with
  | none => rfl
  | some decoded =>
    dsimp only
    cases p.getMethodServerAssociation decoded.1 with
    | none => rfl
    | some association =>
      dsimp only
      rw [State.requestTarget]
      cases association.method.serverStreaming with
      | true =>
        rw [if_pos rfl, if_pos rfl]
        cases s.contextGet channel decoded.1 with
        | none => rfl
        | some i =>
          dsimp only
          cases s.serverContexts[i]? with
          | none => rfl
          | some slot =>
            cases slot with
            | none => rfl
            | some context => rfl
      | false =>
        rw [if_neg Bool.false_ne_true, if_neg Bool.false_ne_true]
        rw [requestContext]
        cases s.contextAllocate ⟨channel, decoded.1.invocation, association.method, association.server⟩ with
        | none => rfl
        | some allocated => rfl

omit [DecidableEq χ] in
theorem requestCallback_eq_some_iff {context : Context χ σ} {data : List UInt8} {buffer : Bool}
    {f : Callback χ σ α ε} : p.requestCallback context data buffer = some f ↔
      context.method.requestSize ≤ p.bufferSize ∧ buffer = true ∧ ∃ request callback,
        p.decodeRequest context.method data = some request ∧
        (p.server context.server).request = some callback ∧ f = callback request := by
  rw [requestCallback]
  by_cases hroom : p.bufferSize < context.method.requestSize
  · rw [if_pos hroom]
    constructor
    · intro h
      cases h
    · rintro ⟨hle, -⟩
      omega
  · rw [if_neg hroom]
    cases buffer with
    | false => simp
    | true =>
      cases p.decodeRequest context.method data with
      | none => simp
      | some request =>
        cases (p.server context.server).request with
        | none => simp
        | some callback =>
          simp only [Bool.not_true, Bool.false_eq_true, if_false, Option.some.injEq, true_and]
          constructor
          · rintro rfl
            exact ⟨Nat.le_of_not_lt hroom, request, callback, rfl, rfl, rfl⟩
          · rintro ⟨-, _, _, rfl, rfl, rfl⟩
            rfl

/-! ## What stays -/

variable {b c : Context χ σ} {channel : χ} {call : Call} {association : Association σ} {i k : Nat} {e : ε}

omit [DecidableEq χ] in
theorem serverRequestIn_at {data : List UInt8} {buffer : Bool} (h : At s.serverContexts i c)
    (hspares : ∀ callback, p.requestCallback b data buffer = some callback →
      i ∉ s.invokeFrees (some callback) e k)
    (hother : association.method.serverStreaming = true ∨ i ≠ k) :
    At (p.serverRequestIn s association b k data e buffer).2.serverContexts i c := by
  rw [Platform.serverRequestIn]
  rw [requestCallback] at hspares
  by_cases hroom : p.bufferSize < b.method.requestSize
  · rwa [if_pos hroom]
  · rw [if_neg hroom] at hspares ⊢
    cases buffer with
    | false => exact h
    | true =>
      rw [if_neg (by decide)] at hspares ⊢
      have hends (r : Bool × State χ σ κ α) (hcalled : At r.2.serverContexts i c) :
          At (if !association.method.serverStreaming && !association.method.serverStreaming then
            (r.1, r.2.contextFree k) else (r.1, r.2)).2.serverContexts i c := by
        split
        · rename_i hunary
          refine (at_contextFree _ _ _ _).mpr ⟨hother.resolve_left ?_, hcalled⟩
          intro hstreaming
          rw [hstreaming] at hunary
          exact absurd hunary (by decide)
        · exact hcalled
      cases hdecode : p.decodeRequest b.method data with
      | none => exact hends (false, s) h
      | some request =>
        cases hrequest : (p.server b.server).request with
        | none => exact hends (s.invoke none e k) h
        | some callback =>
          rw [hdecode, hrequest] at hspares
          exact hends _ ((at_invoke _ _ _ _ _ _).mpr ⟨hspares _ rfl, h⟩)

theorem closeContexts_at (hchannel : c.channel ≠ channel) {ks : List Nat} (h : At s.serverContexts i c)
    (hspares : i ∉ p.closeFrees channel e s ks) :
    At (ks.foldl (p.closeContext channel e) s).serverContexts i c := by
  induction ks generalizing s with
  | nil => exact h
  | cons k ks ih =>
    rw [closeFrees, List.mem_append, not_or] at hspares
    refine ih ?_ hspares.2
    have hcallback := hspares.1
    rw [closeContext]
    split
    · rename_i b hb
      rw [hb] at hcallback
      dsimp only at hcallback
      by_cases hclosed : b.channel = channel
      · rw [if_pos hclosed] at hcallback ⊢
        refine (at_contextFree _ _ _ _).mpr ⟨?_, (at_invoke _ _ _ _ _ _).mpr ⟨hcallback, h⟩⟩
        rintro rfl
        exact hchannel (h.inj hb ▸ hclosed)
      · rwa [if_neg hclosed]
    · exact h

theorem requestTarget_at (h : At s.serverContexts i c)
    (htarget : s.requestTarget channel call association = some (s₁, k, b)) :
    At s₁.serverContexts i c ∧ (association.method.serverStreaming = true ∨ i ≠ k) := by
  rw [State.requestTarget] at htarget
  cases hstreaming : association.method.serverStreaming with
  | true =>
    rw [if_pos hstreaming] at htarget
    split at htarget
    · cases htarget
    · split at htarget
      · cases htarget
        exact ⟨h, Or.inl rfl⟩
      · cases htarget
  | false =>
    rw [hstreaming, if_neg Bool.false_ne_true, Option.map_eq_some_iff] at htarget
    obtain ⟨allocated, hallocate, heq⟩ := htarget
    cases heq
    obtain ⟨hne, hkept⟩ := contextAllocate_at h hallocate
    exact ⟨hkept, Or.inr hne⟩

/-- A context stays if it is neither finalized nor freed by the application. -/
theorem step_at (h : At s.serverContexts i c) (hkey : c.key = (channel, call)) {x : Input χ κ ε}
    (hends : ¬ p.Ends channel call x) (hspares : i ∉ p.applicationFrees s x) :
    At (p.step s x).serverContexts i c := by
  cases x with
  | serverInitialize channel' data e =>
    rw [applicationFrees] at hspares
    rw [Platform.step, serverInitialize]
    cases hcall : p.decodeCall data with
    | none => exact h
    | some decoded =>
      rw [hcall] at hspares
      dsimp only at hspares ⊢
      cases hassociation : p.getMethodServerAssociation decoded.1 with
      | none => exact h
      | some association =>
        rw [hassociation] at hspares
        dsimp only at hspares ⊢
        cases hallocate : s.contextAllocate (requestContext channel' decoded.1 association) with
        | none =>
          rw [requestContext] at hallocate
          rwa [hallocate]
        | some allocated =>
          rw [hallocate] at hspares
          obtain ⟨hne, hkept⟩ := contextAllocate_at h hallocate
          have hcalled := (at_invoke _ _ e allocated.2 _ _).mpr ⟨hspares, hkept⟩
          rw [requestContext] at hallocate
          rw [hallocate]
          dsimp only
          split
          · exact hcalled
          · exact (at_contextFree _ _ _ _).mpr ⟨hne, hcalled⟩
  | serverRequest channel' data e buffer =>
    rw [applicationFrees, delivery] at hspares
    rw [Platform.step, serverRequest_eq]
    cases hcall : p.decodeCall data with
    | none => exact h
    | some decoded =>
      rw [hcall] at hspares
      dsimp only at hspares ⊢
      cases hassociation : p.getMethodServerAssociation decoded.1 with
      | none => exact h
      | some association =>
        rw [hassociation] at hspares
        dsimp only at hspares ⊢
        cases htarget : s.requestTarget channel' decoded.1 association with
        | none => exact h
        | some target =>
          obtain ⟨s₁, k, b⟩ := target
          rw [htarget] at hspares
          dsimp only at hspares ⊢
          obtain ⟨hkept, hother⟩ := requestTarget_at h htarget
          refine serverRequestIn_at hkept ?_ hother
          intro callback hcallback
          rw [hcallback] at hspares
          exact hspares
  | serverFinalize channel' data e =>
    rw [applicationFrees] at hspares
    rw [Platform.step, serverFinalize]
    cases hcall : p.decodeCall data with
    | none => exact h
    | some decoded =>
      rw [hcall] at hspares
      dsimp only at hspares ⊢
      cases hget : s.contextGet channel' decoded.1 with
      | none => exact h
      | some k =>
        rw [hget] at hspares
        obtain ⟨b, hb, hbkey⟩ := get_eq_some hget
        rw [At] at hb
        dsimp only at hspares ⊢
        rw [hb] at hspares ⊢
        refine (at_contextFree _ _ _ _).mpr ⟨?_, (at_invoke _ _ _ _ _ _).mpr ⟨hspares, h⟩⟩
        rintro rfl
        rw [At, hb] at h
        cases h
        have hsame := (of_decide_eq_true hbkey).symm.trans hkey
        rw [Prod.mk.injEq] at hsame
        obtain ⟨hchannel, hdecoded⟩ := hsame
        exact hends ⟨hchannel, decoded.2, by rw [← hdecoded, hcall]⟩
  | channelClosed channel' e =>
    have hchannel : c.channel = channel := congrArg Prod.fst hkey
    refine closeContexts_at ?_ h hspares
    intro hclosed
    exact hends (hclosed.symm.trans hchannel)
  | work e => exact (at_foldl_contextFree _ _ i c).mpr ⟨hspares, h⟩
  | clients table => exact h

/-! ## Invocations -/

variable (p)

/-- An invocation is initialized: the packet is accepted, and slot `i` has its context. No context of the
invocation is in front of it, and the callback does not free it. -/
structure Opens (s : State χ σ κ α) (channel : χ) (data : List UInt8) (e : ε) (call : Call)
    (association : Association σ) (i : Nat) : Prop where
  decodes : ∃ rest, p.decodeCall data = some (call, rest)
  associates : p.getMethodServerAssociation call = some association
  allocates : ∃ s₁, s.contextAllocate (requestContext channel call association) = some (s₁, i)
  accepted : (p.serverInitialize s channel data e).1 = true
  first : ∀ j < i, ∀ c, At s.serverContexts j c → c.key ≠ (channel, call)
  spares : i ∉ p.applicationFrees s (.serverInitialize channel data e : Input χ κ ε)

/-- The step does not end the invocation, the application does not free its context, and no other context
is put in front of it. -/
structure Calm (channel : χ) (call : Call) (i : Nat) (s : State χ σ κ α) (x : Input χ κ ε) : Prop where
  lasts : ¬ p.Ends channel call x
  spares : i ∉ p.applicationFrees s x
  first : ∀ c s₁ j, p.asks x = some c → c.key = (channel, call) → s.contextAllocate c = some (s₁, j) → i < j

/-- The method of a request has `server_streaming`, and its callback can be called. -/
def Serves (channel : χ) (call : Call) (association : Association σ) : Input χ κ ε → Prop
  | .serverRequest channel' data _ buffer => ∀ rest, channel' = channel → p.decodeCall data = some (call, rest) →
    association.method.serverStreaming = true ∧ association.method.requestSize ≤ p.bufferSize ∧ buffer = true ∧
      (p.decodeRequest association.method rest).isSome ∧ (p.server association.server).request.isSome
  | _ => True

/-- A request of the invocation comes to the callback with the context in slot `i`, which stays. -/
def Reaches (channel : χ) (call : Call) (association : Association σ) (i : Nat) (s : State χ σ κ α) :
    Input χ κ ε → Prop
  | .serverRequest channel' data e buffer => ∀ rest, channel' = channel →
    p.decodeCall data = some (call, rest) →
    (∃ request callback, p.decodeRequest association.method rest = some request ∧
      (p.server association.server).request = some callback ∧
      p.delivery s channel data buffer = some (s, i, callback request)) ∧
    At s.serverContexts i (requestContext channel call association) ∧
    At (p.serverRequest s channel' data e buffer).2.serverContexts i (requestContext channel call association)
  | _ => True

/-- Slot `i` has the context, and no other of its key is in front of it. -/
structure Own (c : Context χ σ) (i : Nat) (s : State χ σ κ α) : Prop where
  at_slot : At s.serverContexts i c
  first : ∀ j < i, ∀ b, At s.serverContexts j b → b.key ≠ c.key

variable {p}

omit [DecidableEq χ] in
theorem key_requestContext (h : p.getMethodServerAssociation call = some association) (channel : χ) :
    (requestContext channel call association).key = (channel, call) := by
  have hfound := List.find?_some h
  simp only [decide_eq_true_eq] at hfound
  obtain ⟨hpackage, hservice, hmethod⟩ := hfound
  rw [requestContext, Context.key]
  dsimp only
  rw [← hpackage, ← hservice, ← hmethod]

theorem Own.contextGet (h : Own c i s) (hkey : c.key = (channel, call)) :
    s.contextGet channel call = some i := by
  refine get_eq_of_first h.at_slot (decide_eq_true hkey) ?_
  intro j hj b hb
  rw [← hkey]
  exact decide_eq_false (h.first j hj b hb)

theorem Own.step (h : Own c i s) (hkey : c.key = (channel, call)) {x : Input χ κ ε}
    (hcalm : p.Calm channel call i s x) : Own c i (p.step s x) := by
  refine ⟨step_at h.at_slot hkey hcalm.lasts hcalm.spares, ?_⟩
  intro j hj b hb hsame
  cases p.step_cases s x with
  | inl hfrees => exact h.first j hj b (hfrees.1.at_of_at hb) hsame
  | inr hallocates =>
    obtain ⟨b', s₁, k, hasks, hallocate, hfrees⟩ := hallocates
    obtain ⟨t, ht, rfl⟩ := allocate_of_contextAllocate hallocate
    cases (at_allocate ht).mp (hfrees.at_of_at hb) with
    | inl hnew =>
      obtain ⟨rfl, rfl⟩ := hnew
      have hlt := hcalm.first b _ j hasks (hsame.trans hkey) hallocate
      omega
    | inr hold => exact h.first j hj b hold hsame

theorem Opens.own {data : List UInt8} (h : p.Opens s channel data e call association i) :
    Own (requestContext channel call association) i (p.step s (.serverInitialize channel data e)) := by
  have hkey := key_requestContext h.associates channel
  obtain ⟨rest, hcall⟩ := h.decodes
  obtain ⟨s₁, hallocate⟩ := h.allocates
  have haccepted := h.accepted
  have hspares := h.spares
  have hassociation := h.associates
  constructor
  · have hnew : At s₁.serverContexts i (requestContext channel call association) := by
      obtain ⟨t, ht, rfl⟩ := allocate_of_contextAllocate hallocate
      exact (at_allocate ht).mpr (Or.inl ⟨rfl, rfl⟩)
    simp only [applicationFrees, hcall, hassociation, hallocate] at hspares
    have hcalled := (at_invoke s₁ _ e i i _).mpr ⟨hspares, hnew⟩
    rw [requestContext] at hallocate
    simp only [serverInitialize, hcall, hassociation, hallocate] at haccepted
    simp only [Platform.step, serverInitialize, hcall, hassociation, hallocate]
    split
    · exact hcalled
    · rename_i hrefused
      rw [if_neg hrefused] at haccepted
      cases haccepted
  · intro j hj b hb hsame
    cases p.step_cases s (.serverInitialize channel data e) with
    | inl hfrees => exact h.first j hj b (hfrees.1.at_of_at hb) (hsame.trans hkey)
    | inr hallocates =>
      obtain ⟨b', s', k, hasks, hallocate', hfrees⟩ := hallocates
      simp only [asks, hcall, hassociation, Option.bind_some, Option.map_some, Option.some.injEq] at hasks
      subst hasks
      obtain ⟨t, ht, rfl⟩ := allocate_of_contextAllocate hallocate'
      rw [requestContext] at hallocate
      have hslot := hallocate.symm.trans hallocate'
      cases (at_allocate ht).mp (hfrees.at_of_at hb) with
      | inl hnew =>
        cases hslot
        omega
      | inr hold => exact h.first j hj b hold (hsame.trans hkey)

/-- A request comes to the context of its invocation if and only if its method has `server_streaming` and
its callback can be called. -/
theorem reaches_iff {x : Input χ κ ε} (h : Own (requestContext channel call association) i s)
    (hassociation : p.getMethodServerAssociation call = some association)
    (hcalm : p.Calm channel call i s x) :
    p.Reaches channel call association i s x ↔ p.Serves channel call association x := by
  have hkey := key_requestContext hassociation channel
  cases x with
  | serverRequest channel' data e buffer =>
    rw [Reaches, Serves]
    refine forall₃_congr fun rest hchannel hcall => ?_
    subst hchannel
    have hstays : At (p.serverRequest s channel' data e buffer).2.serverContexts i
        (requestContext channel' call association) := step_at h.at_slot hkey hcalm.lasts hcalm.spares
    have hslot : s.serverContexts[i]? = some (some (requestContext channel' call association)) := h.at_slot
    have hdelivery : p.delivery s channel' data buffer =
        match s.requestTarget channel' call association with
        | none => none
        | some (s, i, context) => (p.requestCallback context rest buffer).map fun callback => (s, i, callback) := by
      rw [delivery, hcall]
      dsimp only
      rw [hassociation]
    rw [hdelivery]
    cases hstreaming : association.method.serverStreaming with
    | true =>
      have htarget : s.requestTarget channel' call association =
          some (s, i, requestContext channel' call association) := by
        rw [State.requestTarget, if_pos hstreaming, h.contextGet hkey]
        dsimp only
        rw [hslot]
      rw [htarget]
      dsimp only
      constructor
      · rintro ⟨⟨request, callback, hdecode, hrequest, hmap⟩, -, -⟩
        obtain ⟨f, hf, -⟩ := Option.map_eq_some_iff.mp hmap
        obtain ⟨hroom, hbuffer, -⟩ := requestCallback_eq_some_iff.mp hf
        exact ⟨rfl, hroom, hbuffer, Option.isSome_iff_exists.mpr ⟨request, hdecode⟩,
          Option.isSome_iff_exists.mpr ⟨callback, hrequest⟩⟩
      · rintro ⟨-, hroom, hbuffer, hdecoded, hserved⟩
        obtain ⟨request, hdecode⟩ := Option.isSome_iff_exists.mp hdecoded
        obtain ⟨callback, hrequest⟩ := Option.isSome_iff_exists.mp hserved
        have hcallback : p.requestCallback (requestContext channel' call association) rest buffer =
            some (callback request) :=
          requestCallback_eq_some_iff.mpr ⟨hroom, hbuffer, request, callback, hdecode, hrequest, rfl⟩
        refine ⟨⟨request, callback, hdecode, hrequest, ?_⟩, h.at_slot, hstays⟩
        rw [hcallback, Option.map_some]
    | false =>
      constructor
      · rintro ⟨⟨request, callback, -, -, hsome⟩, -, -⟩
        cases htarget : s.requestTarget channel' call association with
        | none =>
          rw [htarget] at hsome
          cases hsome
        | some target =>
          obtain ⟨s₁, k, b⟩ := target
          rw [htarget] at hsome
          obtain ⟨f, -, heq⟩ := Option.map_eq_some_iff.mp hsome
          have hk : k = i := congrArg (fun r => r.2.1) heq
          have hother := (requestTarget_at h.at_slot htarget).2
          rw [hstreaming] at hother
          exact absurd hk.symm (hother.resolve_left Bool.false_ne_true)
      · rintro ⟨hneg, -⟩
        cases hneg
  | serverInitialize channel' data e => exact Iff.rfl
  | serverFinalize channel' data e => exact Iff.rfl
  | channelClosed channel' e => exact Iff.rfl
  | work e => exact Iff.rfl
  | clients table => exact Iff.rfl

theorem along_iff {xs : List (Input χ κ ε)} (h : Own (requestContext channel call association) i s)
    (hassociation : p.getMethodServerAssociation call = some association)
    (hcalm : p.Along (p.Calm channel call i) s xs) :
    p.Along (p.Reaches channel call association i) s xs ↔ ∀ x ∈ xs, p.Serves channel call association x := by
  induction xs generalizing s with
  | nil => simp [Along]
  | cons x xs ih =>
    have hnext := h.step (key_requestContext hassociation channel) hcalm.1
    rw [Along, reaches_iff h hassociation hcalm.1, ih hnext hcalm.2, List.forall_mem_cons]

/-- In a run from the start, after an invocation was initialized and as long as each step is calm: its
requests come to its context, which stays, if and only if its method has `server_streaming` and their
callbacks can be called. -/
theorem delivered_iff (serverLimit clientLimit : Nat) (a : α) (before between : List (Input χ κ ε))
    {data : List UInt8}
    (hopens : p.Opens (p.run (State.init serverLimit clientLimit a) before) channel data e call association i)
    (hcalm : p.Along (p.Calm channel call i)
      (p.run (State.init serverLimit clientLimit a) (before ++ [.serverInitialize channel data e])) between) :
    p.Along (p.Reaches channel call association i)
        (p.run (State.init serverLimit clientLimit a) (before ++ [.serverInitialize channel data e])) between ↔
      ∀ x ∈ between, p.Serves channel call association x := by
  have hrun : p.run (State.init serverLimit clientLimit a) (before ++ [.serverInitialize channel data e]) =
      p.step (p.run (State.init serverLimit clientLimit a) before) (.serverInitialize channel data e) := by
    rw [run, List.foldl_append]
    rfl
  rw [hrun] at hcalm ⊢
  exact along_iff hopens.own hopens.associates hcalm

end Platform

/-! ## Samples -/

open Server.Platform

/-- A server whose method streams from the server, from the client or both, and that takes every
request. -/
def streamingPlatform (serverStreaming clientStreaming : Bool) : Platform Nat Unit Unit Unit Unit where
  decodeCall := samplePlatform.decodeCall
  decodeRequest _ _ := some ()
  associations := [⟨⟨9, 1, 2, 32, serverStreaming, clientStreaming⟩, ()⟩]
  server _ := ⟨none, some fun _ _ _ _ _ => (true, ⟨(), []⟩), none⟩
  work _ a _ := ⟨a, []⟩
  bufferSize := 1024

variable (serverStreaming clientStreaming : Bool)

/-- The invocation is initialized at the start. -/
theorem opens_sample : (streamingPlatform serverStreaming clientStreaming).Opens
    (State.init 4 4 () : State Nat Unit Unit Unit) 0 sampleCall () ⟨9, 1, 2, 7⟩
    ⟨⟨9, 1, 2, 32, serverStreaming, clientStreaming⟩, ()⟩ 0 where
  decodes := ⟨[], rfl⟩
  associates := rfl
  allocates := ⟨_, rfl⟩
  accepted := rfl
  first j hj := absurd hj (Nat.not_lt_zero j)
  spares := List.not_mem_nil

/-- A request follows. -/
theorem calm_sample : (streamingPlatform serverStreaming clientStreaming).Calm 0 ⟨9, 1, 2, 7⟩ 0
    ((streamingPlatform serverStreaming clientStreaming).run (State.init 4 4 () : State Nat Unit Unit Unit)
      [.serverInitialize 0 sampleCall ()])
    (.serverRequest 0 sampleCall () true) where
  lasts := id
  spares := by cases serverStreaming <;> exact List.not_mem_nil
  first c s₁ j hasks _ hallocate := by
    cases serverStreaming with
    | true => cases hasks
    | false =>
      cases hasks
      cases hallocate
      exact Nat.one_pos

/-- The request of a method that only the client streams comes with another context. -/
theorem not_reaches_client :
    (streamingPlatform false true).Opens (State.init 4 4 () : State Nat Unit Unit Unit) 0 sampleCall ()
        ⟨9, 1, 2, 7⟩ ⟨⟨9, 1, 2, 32, false, true⟩, ()⟩ 0 ∧
      (streamingPlatform false true).Along ((streamingPlatform false true).Calm 0 ⟨9, 1, 2, 7⟩ 0)
        ((streamingPlatform false true).run (State.init 4 4 () : State Nat Unit Unit Unit)
          [.serverInitialize 0 sampleCall ()]) [.serverRequest 0 sampleCall () true] ∧
      ¬ (streamingPlatform false true).Along
        ((streamingPlatform false true).Reaches 0 ⟨9, 1, 2, 7⟩ ⟨⟨9, 1, 2, 32, false, true⟩, ()⟩ 0)
        ((streamingPlatform false true).run (State.init 4 4 () : State Nat Unit Unit Unit)
          [.serverInitialize 0 sampleCall ()]) [.serverRequest 0 sampleCall () true] := by
  refine ⟨opens_sample false true, ⟨calm_sample false true, trivial⟩, ?_⟩
  intro h
  obtain ⟨⟨request, callback, -, -, hdelivery⟩, -⟩ := h.1 [] rfl rfl
  have hslot : some 1 = some 0 := congrArg
    (Option.map fun d : State Nat Unit Unit Unit × Nat × Callback Nat Unit Unit Unit => d.2.1) hdelivery
  cases hslot

/-- That of a method that the server streams comes with the context of its invocation. -/
theorem reaches_server : (streamingPlatform true false).Along
    ((streamingPlatform true false).Reaches 0 ⟨9, 1, 2, 7⟩ ⟨⟨9, 1, 2, 32, true, false⟩, ()⟩ 0)
    ((streamingPlatform true false).run (State.init 4 4 () : State Nat Unit Unit Unit)
      [.serverInitialize 0 sampleCall ()]) [.serverRequest 0 sampleCall () true] := by
  refine (delivered_iff 4 4 () [] [.serverRequest 0 sampleCall () true] (opens_sample true false)
    ⟨calm_sample true false, trivial⟩).mpr ?_
  rw [List.forall_mem_singleton]
  intro rest _ _
  exact ⟨rfl, by decide, rfl, rfl, rfl⟩

end Server
end Rpc
end Firefly
