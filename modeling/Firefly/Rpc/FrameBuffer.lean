import Mathlib.Logic.Relation
import Firefly.Lib.Words
import Firefly.Rpc.ServerUx

/-!
# Firefly.Rpc.FrameBuffer

What the responses to one frame buffer read request are. Each pass of the loop sends the chunk at the
offset, or that the read is completed (`Pass`). The offset moves on before the chunk is sent, so that
a chunk that could not be sent is skipped when the read is resumed.

* `lossless`: the client gets the frame buffer from the start on without a gap, and a completed
  response after all of it, as long as no response is sent after one with a chunk that was not.
-/

namespace Firefly
namespace Rpc
namespace ServerUx

open Server

/-- The bytes in responses that were sent. -/
def received : List (Response × Bool) → List UInt8
  | [] => []
  | (.read data, true) :: attempts => data ++ received attempts
  | _ :: attempts => received attempts

structure Lossless (fb : List UInt8) (attempts : List (Response × Bool)) : Prop where
  data : ∀ l, l <+: attempts → received l <+: fb
  completed : ∀ l l', attempts = l ++ (.completed, true) :: l' → received l = fb

/-- Once a chunk could not be sent, no response of the read is sent any more. -/
def StopsAtFailure (attempts : List (Response × Bool)) : Prop :=
  ∀ l data l', attempts = l ++ (.read data, false) :: l' → ∀ x ∈ l', x.2 = false

theorem received_append (l l' : List (Response × Bool)) : received (l ++ l') = received l ++ received l' := by
  induction l with
  | nil => rfl
  | cons x l ih =>
    obtain ⟨response, ok⟩ := x
    cases response with
    | read data =>
      cases ok with
      | true => rw [List.cons_append, received, received, ih, List.append_assoc]
      | false => exact ih
    | completed => exact ih

/-- One pass of the loop that sends something, while `fb` is read. -/
inductive Pass (fb : List UInt8) (a : Ux) : Ux → Prop where
  | chunk (ok : Bool) (hcontext : a.frameBufferRead.context.isSome = true)
      (hoffset : a.frameBufferRead.offset < fb.length) :
      Pass fb a
        { frameBufferRead :=
            { a.frameBufferRead with
              offset := a.frameBufferRead.offset +
                ((fb.drop a.frameBufferRead.offset).take readDataSize).length }
          attempts := a.attempts ++ [(.read ((fb.drop a.frameBufferRead.offset).take readDataSize), ok)] }
  | completed (ok : Bool) (hcontext : a.frameBufferRead.context.isSome = true)
      (hoffset : fb.length ≤ a.frameBufferRead.offset) :
      Pass fb a
        { frameBufferRead := ⟨0, none, none⟩
          attempts := a.attempts ++ [(.completed, ok)] }

/-- What holds after each pass, while the read of `userInterfaceIdentifier` goes on. -/
structure Streams (fb : List UInt8) (userInterfaceIdentifier : Nat) (a : Ux) : Prop where
  ux : a.frameBufferRead.context.isSome = true → a.frameBufferRead.ux = some userInterfaceIdentifier
  progress : a.frameBufferRead.context.isSome = true → (∀ data, (.read data, false) ∉ a.attempts) →
    received a.attempts = fb.take a.frameBufferRead.offset
  lossless : StopsAtFailure a.attempts → Lossless fb a.attempts

namespace StopsAtFailure

variable {attempts : List (Response × Bool)} {x : Response × Bool}

theorem init (h : StopsAtFailure (attempts ++ [x])) : StopsAtFailure attempts := by
  intro l data l' heq y hy
  refine h l data (l' ++ [x]) ?_ y (List.mem_append_left _ hy)
  rw [heq, List.append_assoc, List.cons_append]

/-- A response is sent only if none before it failed. -/
theorem none_failed (h : StopsAtFailure (attempts ++ [x])) (hx : x.2 = true) :
    ∀ data, (.read data, false) ∉ attempts := by
  intro data hmem
  obtain ⟨l, l', rfl⟩ := List.append_of_mem hmem
  have hfailed := h l data (l' ++ [x]) (by rw [List.append_assoc, List.cons_append]) x
    (List.mem_append_right _ (List.mem_singleton.mpr rfl))
  rw [hx] at hfailed
  cases hfailed

end StopsAtFailure

/-- One more response keeps what the client gets lossless if it continues it. -/
theorem Lossless.snoc {fb : List UInt8} {attempts : List (Response × Bool)} {x : Response × Bool}
    (h : Lossless fb attempts) (hdata : received (attempts ++ [x]) <+: fb)
    (hcompleted : x = (.completed, true) → received attempts = fb) : Lossless fb (attempts ++ [x]) := by
  constructor
  · intro l hl
    cases List.prefix_concat_iff.mp hl with
    | inl heq =>
      rw [heq]
      exact hdata
    | inr hinit => exact h.data l hinit
  · intro l l' heq
    cases Words.snoc_eq_append_cons heq with
    | inl hlast =>
      obtain ⟨rfl, hx, -⟩ := hlast
      exact hcompleted hx.symm
    | inr hinner =>
      obtain ⟨l'', -, hattempts⟩ := hinner
      exact h.completed l l'' hattempts

theorem received_failed (attempts : List (Response × Bool)) (response : Response) :
    received (attempts ++ [(response, false)]) = received attempts := by
  rw [received_append]
  cases response <;> exact List.append_nil _

theorem received_read (attempts : List (Response × Bool)) (data : List UInt8) :
    received (attempts ++ [(.read data, true)]) = received attempts ++ data := by
  rw [received_append, received, received, List.append_nil]

theorem take_chunk (fb : List UInt8) (offset : Nat) :
    fb.take offset ++ (fb.drop offset).take readDataSize =
      fb.take (offset + ((fb.drop offset).take readDataSize).length) := by
  rw [← List.take_add, List.take_eq_take_iff, List.length_take, List.length_drop]
  omega

theorem Streams.pass {fb : List UInt8} {userInterfaceIdentifier : Nat} {a a' : Ux}
    (h : Streams fb userInterfaceIdentifier a) (hpass : Pass fb a a') : Streams fb userInterfaceIdentifier a' := by
  cases hpass with
  | chunk ok hcontext hoffset =>
    refine ⟨h.ux, fun _ hnone => ?_, fun hstops => ?_⟩
    · cases ok with
      | false => exact absurd (List.mem_append_right _ (List.mem_singleton.mpr rfl)) (hnone _)
      | true =>
        dsimp only at hnone ⊢
        rw [received_read, h.progress hcontext fun data hmem => hnone data (List.mem_append_left _ hmem)]
        exact take_chunk fb _
    · refine (h.lossless hstops.init).snoc ?_ fun hx => by cases hx
      cases ok with
      | false =>
        rw [received_failed]
        exact (h.lossless hstops.init).data _ List.prefix_rfl
      | true =>
        rw [received_read, h.progress hcontext (hstops.none_failed rfl), take_chunk]
        exact List.take_prefix _ _
  | completed ok hcontext hoffset =>
    refine ⟨fun hsome => (by cases hsome), fun hsome => (by cases hsome), fun hstops => ?_⟩
    have hlossless := h.lossless hstops.init
    apply hlossless.snoc
    · rw [received_append]
      cases ok <;> exact (List.append_nil _).symm ▸ hlossless.data _ List.prefix_rfl
    · intro hx
      injection hx with _ hok
      subst hok
      rw [h.progress hcontext (hstops.none_failed rfl), List.take_of_length_le hoffset]

/-! ## The code -/

open Relation

theorem readSendLoop_pass {fb : List UInt8} {e : Env} (fuel k : Nat) {a : Ux} (hfb : a.frameBuffer e = fb)
    (hcontext : a.frameBufferRead.context.isSome = true) :
    ReflTransGen (Pass fb) a (Ux.readSendLoop e fuel k a).2.app := by
  induction fuel generalizing k a with
  | zero => exact .refl
  | succ fuel ih =>
    subst hfb
    rw [Ux.readSendLoop]
    split
    · exact .refl
    · split
      · rename_i hoffset
        exact .single (.completed _ hcontext hoffset)
      · rename_i hoffset
        have hchunk : Pass (a.frameBuffer e) a (a.sendChunk e k) :=
          .chunk (e.send k) hcontext (Nat.lt_of_not_le hoffset)
        split
        · exact .single hchunk
        · exact .head hchunk (ih (k + 1) rfl hcontext)

theorem Streams.passes {fb : List UInt8} {userInterfaceIdentifier : Nat} {a a' : Ux}
    (h : Streams fb userInterfaceIdentifier a) (hpasses : ReflTransGen (Pass fb) a a') :
    Streams fb userInterfaceIdentifier a' := by
  induction hpasses with
  | refl => exact h
  | tail _ hpass ih => exact ih.pass hpass

theorem Streams.frameBufferReadSend {fb : List UInt8} {userInterfaceIdentifier : Nat} {a : Ux} {e : Env}
    (h : Streams fb userInterfaceIdentifier a) (hfb : e.frameBuffer userInterfaceIdentifier = fb) :
    Streams fb userInterfaceIdentifier (a.frameBufferReadSend e).2.app := by
  rw [Ux.frameBufferReadSend]
  cases hcontext : a.frameBufferRead.context with
  | none => exact h
  | some i =>
    have hsome : a.frameBufferRead.context.isSome = true := by rw [hcontext, Option.isSome_some]
    have hframeBuffer : a.frameBuffer e = fb := by
      rw [Ux.frameBuffer, h.ux hsome, Option.map_some, Option.getD_some, hfb]
    exact h.passes (readSendLoop_pass _ 0 hframeBuffer hsome)

/-- A frame buffer read request, and the work items that resume it. -/
def served (userInterfaceIdentifier context : Nat) (e : Env) (es : List Env) : Ux :=
  es.foldl (fun a e => (a.frameBufferReadSend e).2.app)
    (Ux.frameBufferReadRequest userInterfaceIdentifier e context).2.app

theorem Streams.foldl {fb : List UInt8} {userInterfaceIdentifier : Nat} {a : Ux} {es : List Env}
    (h : Streams fb userInterfaceIdentifier a) (hfb : ∀ e ∈ es, e.frameBuffer userInterfaceIdentifier = fb) :
    Streams fb userInterfaceIdentifier (es.foldl (fun a e => (a.frameBufferReadSend e).2.app) a) := by
  induction es generalizing a with
  | nil => exact h
  | cons e es ih =>
    have hnext := h.frameBufferReadSend (hfb e List.mem_cons_self)
    exact ih hnext fun e' he' => hfb e' (List.mem_cons_of_mem _ he')

theorem streams_start (fb : List UInt8) (userInterfaceIdentifier context : Nat) :
    Streams fb userInterfaceIdentifier ⟨⟨0, some context, some userInterfaceIdentifier⟩, []⟩ := by
  refine ⟨fun _ => rfl, fun _ _ => rfl, fun _ => ⟨fun l hl => ?_, fun l l' heq => ?_⟩⟩
  · rw [List.prefix_nil.mp hl]
    exact List.nil_prefix
  · cases l <;> cases heq

/-- At every moment the client got a prefix of the frame buffer, and a completed response only after
all of it, unless a response was sent after a chunk that was not. -/
theorem lossless {fb : List UInt8} {userInterfaceIdentifier : Nat} (context : Nat) {e : Env} {es : List Env}
    (hfb : ∀ e' ∈ e :: es, e'.frameBuffer userInterfaceIdentifier = fb)
    (hstops : StopsAtFailure (served userInterfaceIdentifier context e es).attempts) :
    Lossless fb (served userInterfaceIdentifier context e es).attempts := by
  have hrequest := (streams_start fb userInterfaceIdentifier context).frameBufferReadSend
    (hfb e List.mem_cons_self)
  have hserved := hrequest.foldl fun e' he' => hfb e' (List.mem_cons_of_mem _ he')
  exact hserved.lossless hstops

/-! ## Samples -/

/-- A user interface with a frame buffer of one pixel, and a channel with space. -/
def sampleEnv (send : Nat → Bool) : Env := ⟨fun _ => [1, 2, 3], fun _ => 1024, send⟩

theorem lossless_sample :
    (served 0 0 (sampleEnv fun _ => true) []).attempts = [(.read [1, 2, 3], true), (.completed, true)] ∧
      Lossless [1, 2, 3] (served 0 0 (sampleEnv fun _ => true) []).attempts := by
  have hattempts : (served 0 0 (sampleEnv fun _ => true) []).attempts =
      [(.read [1, 2, 3], true), (.completed, true)] := rfl
  refine ⟨hattempts, lossless 0 (by simp [sampleEnv]) ?_⟩
  intro l data l' heq
  rw [hattempts] at heq
  have hmem : (Response.read data, false) ∈ [(Response.read [1, 2, 3], true), (Response.completed, true)] := by
    rw [heq]
    exact List.mem_append_right _ List.mem_cons_self
  simp at hmem

/-- The only chunk cannot be sent. The next time there is space the read is completed. -/
theorem not_lossless_failed_chunk :
    ¬ ∀ (fb : List UInt8) (userInterfaceIdentifier context : Nat) (e : Env) (es : List Env),
      (∀ e' ∈ e :: es, e'.frameBuffer userInterfaceIdentifier = fb) →
        Lossless fb (served userInterfaceIdentifier context e es).attempts := by
  intro h
  have hlossless := h [1, 2, 3] 0 0 (sampleEnv fun _ => false) [sampleEnv fun _ => true] (by simp [sampleEnv])
  cases hlossless.completed [(.read [1, 2, 3], false)] [] rfl

end ServerUx
end Rpc
end Firefly
