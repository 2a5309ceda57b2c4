import Firefly.Rpc.Contexts
import Firefly.Rpc.ServerUx

/-!
# Firefly.Rpc.Close

What closing a channel leaves of the other channels. The contexts of the channel are finalized and
freed. Finalizing one of the frame buffer read method closes the one frame buffer read there is, and
frees its context, whichever channel that belongs to (`Interferes`).

* `reads_context`: the frame buffer read is always that of an allocated context of its method.
* `isolated_iff`: in every state that is reached, closing a channel leaves the others alone if and
  only if it does not finalize a frame buffer read method while another channel reads.
-/

namespace Firefly
namespace Rpc
namespace ServerUx

open Server Slots

variable {χ κ : Type}

/-- The state of the calls with the server of the user interface. -/
abbrev Calls (χ κ : Type) := State χ MethodKind κ Ux

/-- The frame buffer read is that of a context of its method. -/
def ReadsContext (s : Calls χ κ) : Prop :=
  ∀ i, s.app.frameBufferRead.context = some i → ∃ c, At s.serverContexts i c ∧ c.server = .frameBufferRead

/-- The context `i` of channel `channel'` reads the frame buffer. -/
def Reads (s : Calls χ κ) (i : Nat) (c : Context χ MethodKind) : Prop :=
  s.app.frameBufferRead.context = some i ∧ At s.serverContexts i c

/-- Another channel reads the frame buffer, and this channel has a context of that method. -/
def Interferes (s : Calls χ κ) (channel : χ) : Prop :=
  (∃ i c, Reads s i c ∧ c.channel ≠ channel) ∧
    ∃ j c, At s.serverContexts j c ∧ c.channel = channel ∧ c.server = .frameBufferRead

/-- What closing the channel, from `s` to `s'`, shall do. -/
structure Isolated (s s' : Calls χ κ) (channel : χ) : Prop where
  server : ∀ i c, At s'.serverContexts i c → c.channel ≠ channel
  client : ∀ i c, At s'.clientContexts i c → c.channel ≠ channel
  otherServer : ∀ i c, At s.serverContexts i c → c.channel ≠ channel → At s'.serverContexts i c
  otherClient : ∀ i c, At s.clientContexts i c → c.channel ≠ channel → At s'.clientContexts i c
  read : ∀ i c, Reads s i c → c.channel ≠ channel → Reads s' i c ∧ s'.app.frameBufferRead = s.app.frameBufferRead

/-! ## The loop -/

/-- The loop either leaves the read as it is, or closes it. -/
theorem readSendLoop_context (e : Env) (fuel k : Nat) (a : Ux) :
    ((Ux.readSendLoop e fuel k a).2.app.frameBufferRead.context = a.frameBufferRead.context ∧
        (Ux.readSendLoop e fuel k a).2.freed = []) ∨
      ((Ux.readSendLoop e fuel k a).2.app.frameBufferRead.context = none ∧
        (Ux.readSendLoop e fuel k a).2.freed = a.frameBufferRead.context.toList) := by
  induction fuel generalizing k a with
  | zero => exact Or.inl ⟨rfl, rfl⟩
  | succ fuel ih =>
    rw [Ux.readSendLoop]
    split
    · exact Or.inl ⟨rfl, rfl⟩
    · split
      · exact Or.inr ⟨rfl, rfl⟩
      · split
        · exact Or.inl ⟨rfl, rfl⟩
        · exact ih (k + 1) (a.sendChunk e k)

theorem frameBufferReadSend_context (e : Env) (a : Ux) :
    ((a.frameBufferReadSend e).2.app.frameBufferRead.context = a.frameBufferRead.context ∧
        (a.frameBufferReadSend e).2.freed = []) ∨
      ((a.frameBufferReadSend e).2.app.frameBufferRead.context = none ∧
        (a.frameBufferReadSend e).2.freed = a.frameBufferRead.context.toList) := by
  rw [Ux.frameBufferReadSend]
  split
  · exact Or.inl ⟨rfl, rfl⟩
  · exact readSendLoop_context e _ 0 a

/-! ## The context of the read -/

variable {s : Calls χ κ} {i : Nat} {c : Context χ MethodKind}

theorem ReadsContext.of_none (h : s.app.frameBufferRead.context = none) : ReadsContext s := by
  intro i hi
  rw [h] at hi
  cases hi

theorem foldl_contextFree_app (s : Calls χ κ) (freed : List Nat) :
    (freed.foldl State.contextFree s).app = s.app := by
  induction freed generalizing s with
  | nil => rfl
  | cons i freed ih => exact ih (s.contextFree i)

/-- A context that does not read can be freed. -/
theorem ReadsContext.contextFree (h : ReadsContext s) (hat : At s.serverContexts i c)
    (hserver : c.server = .responder) : ReadsContext (s.contextFree i) := by
  intro k hk
  obtain ⟨d, hd, hdserver⟩ := h k hk
  refine ⟨d, at_free.mpr ⟨fun heq => ?_, hd⟩, hdserver⟩
  rw [heq] at hd
  rw [hd.inj hat, hserver] at hdserver
  cases hdserver

/-- Sending responses of a read whose context is allocated. -/
theorem ReadsContext.send (h : ReadsContext s) (e : Env) :
    ReadsContext ((s.app.frameBufferReadSend e).2.freed.foldl State.contextFree
      { s with app := (s.app.frameBufferReadSend e).2.app }) := by
  cases frameBufferReadSend_context e s.app with
  | inl hgoes =>
    rw [hgoes.2]
    intro k hk
    rw [List.foldl_nil, hgoes.1] at hk
    exact h k hk
  | inr hclosed =>
    apply ReadsContext.of_none
    rw [foldl_contextFree_app]
    exact hclosed.1

/-- The state of a context that is finalized and freed. -/
def finalized (s : Calls χ κ) (c : Context χ MethodKind) (e : Env) (i : Nat) : Calls χ κ :=
  (s.invoke (methodServer c.server).finalize e i).2.contextFree i

theorem finalized_responder (hserver : c.server = .responder) (e : Env) :
    finalized s c e i = s.contextFree i := by
  rw [finalized, hserver]
  rfl

theorem finalized_frameBufferRead (hserver : c.server = .frameBufferRead) (e : Env) :
    finalized s c e i =
      ((s.app.frameBufferRead.context.toList.foldl State.contextFree
        { s with app := s.app.frameBufferClose.app }).contextFree i) := by
  rw [finalized, hserver]
  rfl

theorem ReadsContext.finalized (h : ReadsContext s) (hat : At s.serverContexts i c) (e : Env) :
    ReadsContext (finalized s c e i) := by
  cases hserver : c.server with
  | responder =>
    rw [finalized_responder hserver]
    exact h.contextFree hat hserver
  | frameBufferRead =>
    rw [finalized_frameBufferRead hserver]
    apply ReadsContext.of_none
    rw [State.contextFree, State.setContexts, foldl_contextFree_app]
    rfl

/-- The callbacks are those of the server of the user interface. -/
structure Serves (p : Platform χ MethodKind Ux Env Nat) : Prop where
  server : p.server = methodServer
  work : p.work = fun e a _ => (a.frameBufferReadSend e).2
  unary : ∀ association ∈ p.associations, association.method.serverStreaming = false →
    association.server = .responder

theorem platform_serves (decodeCall : List UInt8 → Option (Call × List UInt8))
    (decodeRequest : Method → List UInt8 → Option Nat) (others : List Method) (bufferSize : Nat) :
    Serves (platform decodeCall decodeRequest others bufferSize : Platform χ _ _ _ _) := by
  refine ⟨rfl, rfl, fun association hmem hstreaming => ?_⟩
  cases List.mem_append.mp hmem with
  | inl hux =>
    simp only [associations, List.mem_cons, List.not_mem_nil, or_false] at hux
    rcases hux with rfl | rfl | rfl | rfl | rfl | rfl | rfl | rfl | rfl | rfl | rfl | rfl <;>
      first
      | rfl
      | cases hstreaming
  | inr hother =>
    obtain ⟨method, -, rfl⟩ := List.mem_map.mp hother
    rfl

variable {p : Platform χ MethodKind Ux Env Nat}

theorem ReadsContext.serverRequestIn (h : ReadsContext s) (hp : Serves p) {association : Association MethodKind}
    (hat : At s.serverContexts i c)
    (hunary : association.method.serverStreaming = false → c.server = .responder)
    (data : List UInt8) (e : Env) (buffer : Bool) :
    ReadsContext (p.serverRequestIn s association c i data e buffer).2 := by
  rw [Platform.serverRequestIn, hp.server]
  split
  · exact h
  · split
    · exact h
    · cases p.decodeRequest c.method data with
      | none =>
        cases hstreaming : association.method.serverStreaming with
        | true => exact h
        | false => exact h.contextFree hat (hunary hstreaming)
      | some userInterfaceIdentifier =>
        cases hserver : c.server with
        | responder =>
          cases association.method.serverStreaming with
          | true => exact h
          | false => exact h.contextFree hat hserver
        | frameBufferRead =>
          cases hstreaming : association.method.serverStreaming with
          | false =>
            rw [hunary hstreaming] at hserver
            cases hserver
          | true =>
            have hstart : ReadsContext
                ({ s with app := ⟨⟨0, some i, some userInterfaceIdentifier⟩, []⟩ } : Calls χ κ) := by
              intro k hk
              injection hk with hk
              exact ⟨c, hk ▸ hat, hserver⟩
            exact hstart.send e

theorem ReadsContext.allocate {s₁ : Calls χ κ} (h : ReadsContext s) (hallocate : s.contextAllocate c = some (s₁, i)) :
    ReadsContext s₁ ∧ At s₁.serverContexts i c := by
  obtain ⟨t, ht, rfl⟩ := allocate_of_contextAllocate hallocate
  refine ⟨fun k hk => ?_, (at_allocate ht).mpr (Or.inl ⟨rfl, rfl⟩)⟩
  obtain ⟨d, hd, hdserver⟩ := h k hk
  exact ⟨d, (at_allocate ht).mpr (Or.inr hd), hdserver⟩

variable [DecidableEq χ]

theorem ReadsContext.closeContext (h : ReadsContext s) (hp : Serves p) (channel : χ) (e : Env) (i : Nat) :
    ReadsContext (p.closeContext channel e s i) := by
  rw [Platform.closeContext, hp.server]
  split
  · rename_i c hat
    split
    · exact h.finalized hat e
    · exact h
  · exact h

theorem ReadsContext.foldl_closeContext (h : ReadsContext s) (hp : Serves p) (channel : χ) (e : Env)
    (is : List Nat) : ReadsContext (is.foldl (p.closeContext channel e) s) := by
  induction is generalizing s with
  | nil => exact h
  | cons i is ih => exact ih (h.closeContext hp channel e i)

theorem ReadsContext.step (h : ReadsContext s) (hp : Serves p) (x : Platform.Input χ κ Env) :
    ReadsContext (p.step s x) := by
  cases x with
  | serverInitialize channel data e =>
    simp only [Platform.step, Platform.serverInitialize, hp.server]
    split
    · exact h
    · split
      · exact h
      · rename_i association _
        split
        · exact h
        · rename_i s₁ i hallocate
          cases hserver : association.server <;> exact (h.allocate hallocate).1
  | serverRequest channel data e buffer =>
    simp only [Platform.step, Platform.serverRequest]
    split
    · exact h
    · split
      · exact h
      · rename_i association hassociation
        have hunary := hp.unary association (List.mem_of_find?_eq_some hassociation)
        split
        · rename_i hstreaming
          split
          · exact h
          · split
            · rename_i c hat
              exact h.serverRequestIn hp hat (fun hno => by rw [hstreaming] at hno; cases hno) _ e buffer
            · exact h
        · split
          · exact h
          · rename_i s₁ i hallocate
            exact (h.allocate hallocate).1.serverRequestIn hp (h.allocate hallocate).2 hunary _ e buffer
  | serverFinalize channel data e =>
    simp only [Platform.step, Platform.serverFinalize, hp.server]
    split
    · exact h
    · split
      · exact h
      · split
        · rename_i c hat
          exact h.finalized hat e
        · exact h
  | channelClosed channel e =>
    have hclients : ReadsContext { s with
        clientContexts := s.clientContexts.map fun slot => slot.filter fun c => decide (c.channel ≠ channel) } := h
    exact hclients.foldl_closeContext hp channel e _
  | work e =>
    simp only [Platform.step, hp.work]
    exact h.send e
  | clients table => exact h

theorem reads_context (hp : Serves p) (serverLimit clientLimit : Nat) (xs : List (Platform.Input χ κ Env)) :
    ReadsContext (p.run (State.init serverLimit clientLimit Ux.init) xs) := by
  have hinit : ReadsContext (State.init serverLimit clientLimit Ux.init : Calls χ κ) := ReadsContext.of_none rfl
  rw [Platform.run]
  generalize State.init serverLimit clientLimit Ux.init = s at hinit
  induction xs generalizing s with
  | nil => exact hinit
  | cons x xs ih => exact ih _ (hinit.step hp x)

/-! ## Closing a channel -/

omit [DecidableEq χ] in
theorem at_foldl_contextFree {freed : List Nat} :
    At (freed.foldl State.contextFree s).serverContexts i c ↔ i ∉ freed ∧ At s.serverContexts i c := by
  induction freed generalizing s with
  | nil => simp
  | cons j freed ih =>
    rw [List.foldl_cons, ih, State.contextFree, State.setContexts, at_free, List.mem_cons, not_or]
    constructor
    · rintro ⟨hfreed, hj, hat⟩
      exact ⟨⟨hj, hfreed⟩, hat⟩
    · rintro ⟨⟨hj, hfreed⟩, hat⟩
      exact ⟨hfreed, hj, hat⟩

omit [DecidableEq χ] in
theorem foldl_contextFree_clients (s : Calls χ κ) (freed : List Nat) :
    (freed.foldl State.contextFree s).clientContexts = s.clientContexts := by
  induction freed generalizing s with
  | nil => rfl
  | cons i freed ih => exact ih (s.contextFree i)

theorem closeContext_cases (hp : Serves p) (channel : χ) (e : Env) (s : Calls χ κ) (k : Nat) :
    (p.closeContext channel e s k = s ∧ ∀ d, At s.serverContexts k d → d.channel ≠ channel) ∨
      ∃ d, At s.serverContexts k d ∧ d.channel = channel ∧
        p.closeContext channel e s k = finalized s d e k := by
  rw [Platform.closeContext, hp.server]
  split
  · rename_i d hat
    by_cases hchannel : d.channel = channel
    · rw [if_pos hchannel]
      exact Or.inr ⟨d, hat, hchannel, rfl⟩
    · rw [if_neg hchannel]
      refine Or.inl ⟨rfl, fun d' hat' => ?_⟩
      rw [hat'.inj hat]
      exact hchannel
  · rename_i hnone
    exact Or.inl ⟨rfl, fun d hat => absurd hat (hnone d)⟩

theorem closeContext_channel (hp : Serves p) (channel : χ) (e : Env)
    (h : At (p.closeContext channel e s i).serverContexts i c) : c.channel ≠ channel := by
  rcases closeContext_cases hp channel e s i with ⟨heq, hother⟩ | ⟨d, -, -, heq⟩
  · rw [heq] at h
    exact hother c h
  · rw [heq, finalized] at h
    exact absurd rfl (at_free.mp h).1

theorem foldl_closeContext_channel (hp : Serves p) (channel : χ) (e : Env) {is : List Nat} (hi : i ∈ is)
    (h : At (is.foldl (p.closeContext channel e) s).serverContexts i c) : c.channel ≠ channel := by
  induction is generalizing s with
  | nil => cases hi
  | cons k is ih =>
    cases List.mem_cons.mp hi with
    | inl heq =>
      subst heq
      exact closeContext_channel hp channel e ((p.foldl_closeContext_frees channel e _ is).at_of_at h)
    | inr hmem => exact ih hmem h

/-- What closing leaves alone as long as it does not interfere. -/
structure Keeps (s s' : Calls χ κ) (channel : χ) : Prop where
  quiet : ¬ Interferes s' channel
  server : ∀ i c, At s.serverContexts i c → c.channel ≠ channel → At s'.serverContexts i c
  client : s'.clientContexts = s.clientContexts
  read : ∀ i c, Reads s i c → c.channel ≠ channel → s'.app.frameBufferRead = s.app.frameBufferRead

theorem keeps_closeContext (hp : Serves p) {channel : χ} (e : Env) (hquiet : ¬ Interferes s channel) (k : Nat) :
    Keeps s (p.closeContext channel e s k) channel := by
  have hfrees := p.closeContext_frees channel e s k
  rcases closeContext_cases hp channel e s k with ⟨heq, -⟩ | ⟨d, hat, hchannel, heq⟩
  · rw [heq]
    exact ⟨hquiet, fun _ _ h _ => h, rfl, fun _ _ _ _ => rfl⟩
  · rw [heq] at hfrees ⊢
    have hne : ∀ i c, At s.serverContexts i c → c.channel ≠ channel → i ≠ k := by
      intro i c hc hother hik
      rw [hik] at hc
      rw [hc.inj hat] at hother
      exact hother hchannel
    cases hserver : d.server with
    | responder =>
      rw [finalized_responder hserver] at hfrees ⊢
      refine ⟨?_, fun i c hc hother => at_free.mpr ⟨hne i c hc hother, hc⟩, rfl, fun _ _ _ _ => rfl⟩
      rintro ⟨⟨i, c, hreads, hother⟩, j, c', hc', hj⟩
      exact hquiet ⟨⟨i, c, ⟨hreads.1, hfrees.at_of_at hreads.2⟩, hother⟩, j, c', hfrees.at_of_at hc', hj⟩
    | frameBufferRead =>
      have hnone : ∀ i c, Reads s i c → c.channel = channel := by
        intro i c hreads
        by_contra hother
        exact hquiet ⟨⟨i, c, hreads, hother⟩, k, d, hat, hchannel, hserver⟩
      have happ : (finalized s d e k).app = s.app.frameBufferClose.app := by
        rw [finalized_frameBufferRead hserver, State.contextFree, State.setContexts, foldl_contextFree_app]
      refine ⟨?_, fun i c hc hother => ?_, ?_, fun i c hreads hother => absurd (hnone i c hreads) hother⟩
      · rintro ⟨⟨i, c, hreads, -⟩, -⟩
        have hread := hreads.1
        rw [happ] at hread
        cases hread
      · rw [finalized_frameBufferRead hserver]
        refine at_free.mpr ⟨hne i c hc hother, at_foldl_contextFree.mpr ⟨fun hmem => ?_, hc⟩⟩
        rw [Option.mem_toList] at hmem
        exact hother (hnone i c ⟨hmem, hc⟩)
      · rw [finalized_frameBufferRead hserver, State.contextFree, State.setContexts, foldl_contextFree_clients]

theorem keeps_foldl (hp : Serves p) {channel : χ} (e : Env) (is : List Nat) (hquiet : ¬ Interferes s channel) :
    Keeps s (is.foldl (p.closeContext channel e) s) channel := by
  induction is generalizing s with
  | nil => exact ⟨hquiet, fun _ _ h _ => h, rfl, fun _ _ _ _ => rfl⟩
  | cons k is ih =>
    have hstep := keeps_closeContext hp e hquiet k
    have hrest := ih hstep.quiet
    refine ⟨hrest.quiet, fun i c hc hother => ?_, hrest.client.trans hstep.client, fun i c hreads hother => ?_⟩
    · exact hrest.server i c (hstep.server i c hc hother) hother
    · have hread := hstep.read i c hreads hother
      refine (hrest.read i c ⟨?_, hstep.server i c hreads.2 hother⟩ hother).trans hread
      rw [hread]
      exact hreads.1

/-- The context that reads is lost when a context of the channel has the same method. -/
theorem lost_foldl (hp : Serves p) {channel : χ} (e : Env) {is : List Nat} {j : Nat} {d : Context χ MethodKind}
    (hreads : Reads s i c) (hother : c.channel ≠ channel) (hat : At s.serverContexts j d)
    (hchannel : d.channel = channel) (hserver : d.server = .frameBufferRead) (hj : j ∈ is) :
    ¬ At (is.foldl (p.closeContext channel e) s).serverContexts i c := by
  induction is generalizing s with
  | nil => cases hj
  | cons k is ih =>
    rw [List.foldl_cons]
    rcases closeContext_cases hp channel e s k with ⟨heq, hnone⟩ | ⟨d', hat', hchannel', heq⟩
    · rw [heq]
      refine ih hreads hat ?_
      cases List.mem_cons.mp hj with
      | inl hjk =>
        rw [← hjk] at hnone
        exact absurd hchannel (hnone d hat)
      | inr hmem => exact hmem
    · cases hserver' : d'.server with
      | responder =>
        rw [heq, finalized_responder hserver']
        have hne : j ≠ k := by
          intro hjk
          rw [← hjk] at hat'
          rw [hat'.inj hat, hserver] at hserver'
          cases hserver'
        have hik : i ≠ k := by
          intro hik
          rw [← hik] at hat'
          exact hother ((hreads.2.inj hat').symm ▸ hchannel')
        refine ih ⟨hreads.1, at_free.mpr ⟨hik, hreads.2⟩⟩ (at_free.mpr ⟨hne, hat⟩) ?_
        cases List.mem_cons.mp hj with
        | inl hjk => exact absurd hjk hne
        | inr hmem => exact hmem
      | frameBufferRead =>
        rw [heq]
        intro hat''
        have hlost := (p.foldl_closeContext_frees channel e _ is).at_of_at hat''
        rw [finalized_frameBufferRead hserver'] at hlost
        have hnot := (at_foldl_contextFree.mp (at_free.mp hlost).2).1
        rw [Option.mem_toList] at hnot
        exact hnot hreads.1

omit [DecidableEq χ] in
theorem at_map_filter {σ : Type} {t : List (Option (Context χ σ))} {f : Context χ σ → Bool} {c : Context χ σ} :
    At (t.map fun slot => slot.filter f) i c ↔ At t i c ∧ f c = true := by
  rw [At, At, List.getElem?_map, Option.map_eq_some_iff]
  constructor
  · rintro ⟨slot, hslot, hfilter⟩
    rw [Option.filter_eq_some_iff] at hfilter
    exact ⟨by rw [hslot, hfilter.1], hfilter.2⟩
  · rintro ⟨hat, hf⟩
    exact ⟨some c, hat, Option.filter_eq_some_iff.mpr ⟨rfl, hf⟩⟩

/-- After the loop over the client contexts. -/
def clientsFreed (s : Calls χ κ) (channel : χ) : Calls χ κ :=
  { s with clientContexts := s.clientContexts.map fun slot => slot.filter fun c => decide (c.channel ≠ channel) }

theorem channelClosed_iff (hp : Serves p) (s : Calls χ κ) (channel : χ) (e : Env) :
    Isolated s (p.channelClosed s channel e) channel ↔ ¬ Interferes s channel := by
  have hfrees := p.channelClosed_frees s channel e
  constructor
  · rintro hisolated ⟨⟨i, c, hreads, hother⟩, j, d, hat, hchannel, hserver⟩
    have hj : j ∈ List.range s.serverContexts.length := List.mem_range.mpr (List.getElem?_eq_some_iff.mp hat).1
    have hlost := lost_foldl (s := clientsFreed s channel) hp e hreads hother hat hchannel hserver hj
    exact hlost (hisolated.otherServer i c hreads.2 hother)
  · intro hquiet
    have hkeeps : Keeps (clientsFreed s channel) (p.channelClosed s channel e) channel :=
      keeps_foldl hp e (List.range s.serverContexts.length) hquiet
    constructor
    · intro i c hat
      have hi : i < s.serverContexts.length := (List.getElem?_eq_some_iff.mp (hfrees.at_of_at hat)).1
      exact foldl_closeContext_channel hp channel e (List.mem_range.mpr hi) hat
    · intro i c hat
      rw [hkeeps.client, clientsFreed, at_map_filter] at hat
      exact of_decide_eq_true hat.2
    · exact hkeeps.server
    · intro i c hat hother
      rw [hkeeps.client, clientsFreed, at_map_filter]
      exact ⟨hat, decide_eq_true hother⟩
    · intro i c hreads hother
      have hread := hkeeps.read i c hreads hother
      refine ⟨⟨?_, hkeeps.server i c hreads.2 hother⟩, hread⟩
      rw [hread]
      exact hreads.1

/-- In every state that is reached the read is that of an allocated context, and closing a channel
leaves the others alone if and only if no other channel reads the frame buffer or the channel has no
context of that method. -/
theorem isolated_iff (decodeCall : List UInt8 → Option (Call × List UInt8))
    (decodeRequest : Method → List UInt8 → Option Nat) (others : List Method)
    (bufferSize serverLimit clientLimit : Nat) (xs : List (Platform.Input χ κ Env)) (channel : χ) (e : Env) :
    let p := platform decodeCall decodeRequest others bufferSize
    let s := p.run (State.init serverLimit clientLimit Ux.init) xs
    (∀ i, s.app.frameBufferRead.context = some i → ∃ c, Reads s i c) ∧
      (Isolated s (p.channelClosed s channel e) channel ↔ ¬ Interferes s channel) := by
  have hp := platform_serves (χ := χ) decodeCall decodeRequest others bufferSize
  refine ⟨fun i hi => ?_, channelClosed_iff hp _ channel e⟩
  obtain ⟨c, hat, -⟩ := reads_context hp serverLimit clientLimit xs i hi
  exact ⟨c, hi, hat⟩

/-! ## Samples -/

def sampleDecodeCall : List UInt8 → Option (Call × List UInt8)
  | packageId :: serviceId :: methodId :: invocation :: rest =>
    some (⟨packageId.toNat, serviceId.toNat, methodId.toNat, invocation.toNat⟩, rest)
  | _ => none

/-- A channel without space, so that the read is left in progress. -/
def fullChannel : Env := ⟨fun _ => [1, 2, 3], fun _ => 0, fun _ => true⟩

def sampleInputs : List (Platform.Input Bool Unit Env) :=
  [.serverInitialize true [9, 1, 2, 1] fullChannel, .serverInitialize false [9, 1, 2, 1] fullChannel,
    .serverRequest true [9, 1, 2, 1, 0] fullChannel true]

/-- Both channels initialized the method, and one reads. The other is closed. -/
theorem not_isolated_sample :
    ¬ ∀ (xs : List (Platform.Input Bool Unit Env)) (channel : Bool) (e : Env),
      Isolated ((platform sampleDecodeCall (fun _ _ => some 0) [] 1024).run (State.init 4 4 Ux.init) xs)
        ((platform sampleDecodeCall (fun _ _ => some 0) [] 1024).channelClosed
          ((platform sampleDecodeCall (fun _ _ => some 0) [] 1024).run (State.init 4 4 Ux.init) xs) channel e)
        channel := by
  intro h
  have hother := (h sampleInputs false fullChannel).otherServer 0 ⟨true, 1, frameBufferRead, .frameBufferRead⟩
    rfl (by decide)
  cases hother

end ServerUx
end Rpc
end Firefly
