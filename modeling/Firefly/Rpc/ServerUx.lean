import Firefly.Rpc.Server

/-!
# Firefly.Rpc.ServerUx

`fd_rpc_server_ux.c`: the server of the methods of a user interface. There is one frame buffer read
for all channels, `frameBufferRead`, which is resumed by a work item when a channel has space again.
All other methods answer their request with one response, and neither free contexts nor touch the
frame buffer read (`responder`); what they do to the user interface is left out.

A channel and the user interface are given by an `Env`: what the calls of `get_free_space` and of
`fd_rpc_server_send_client_response` in one run of the loop return, in this order. `attempts` is
history: the responses sent for the latest request, each with what the call returned.
-/

namespace Firefly
namespace Rpc
namespace ServerUx

open Server

inductive Response where
  | read (data : List UInt8)
  | completed
  deriving Repr, DecidableEq

/-- `sizeof(response.message.read.data.bytes)` -/
def readDataSize : Nat := 256

/-- The size of the largest response, and 32 bytes for the packet around it. -/
def frameBufferReadMinFreeSpace : Nat := 262 + 32

structure FrameBufferRead where
  offset : Nat
  context : Option Nat
  ux : Option Nat
  deriving Repr, DecidableEq

structure Ux where
  frameBufferRead : FrameBufferRead
  attempts : List (Response × Bool)
  deriving Repr, DecidableEq

structure Env where
  frameBuffer : Nat → List UInt8
  freeSpace : Nat → Nat
  send : Nat → Bool

namespace Ux

def init : Ux := ⟨⟨0, none, none⟩, []⟩

/-- The frame buffer that is read. -/
def frameBuffer (a : Ux) (e : Env) : List UInt8 := (a.frameBufferRead.ux.map e.frameBuffer).getD []

def frameBufferClose (a : Ux) : Effect Ux :=
  ⟨{ a with frameBufferRead := ⟨0, none, none⟩ }, a.frameBufferRead.context.toList⟩

/-- The chunk at the offset of the read. -/
def chunk (a : Ux) (e : Env) : List UInt8 :=
  ((a.frameBuffer e).drop a.frameBufferRead.offset).take readDataSize

/-- Send a chunk. The offset moves on before it is known whether the chunk was sent. -/
def sendChunk (a : Ux) (e : Env) (k : Nat) : Ux :=
  { frameBufferRead := { a.frameBufferRead with offset := a.frameBufferRead.offset + (a.chunk e).length }
    attempts := a.attempts ++ [(.read (a.chunk e), e.send k)] }

def sendCompleted (a : Ux) (e : Env) (k : Nat) : Ux :=
  { a with attempts := a.attempts ++ [(.completed, e.send k)] }

/-- The loop of `fd_rpc_server_ux_frame_buffer_read_send` from its pass `k` on. -/
def readSendLoop (e : Env) : Nat → Nat → Ux → Bool × Effect Ux
  | 0, _, a => (true, ⟨a, []⟩)
  | fuel + 1, k, a =>
    if e.freeSpace k < frameBufferReadMinFreeSpace then (true, ⟨a, []⟩)
    else if (a.frameBuffer e).length ≤ a.frameBufferRead.offset then
      (e.send k, (a.sendCompleted e k).frameBufferClose)
    else if !e.send k then (false, ⟨a.sendChunk e k, []⟩)
    else readSendLoop e fuel (k + 1) (a.sendChunk e k)

/-- The passes that the loop has at most. -/
def passes (a : Ux) (e : Env) : Nat := (a.frameBuffer e).length - a.frameBufferRead.offset + 1

def frameBufferReadSend (a : Ux) (e : Env) : Bool × Effect Ux :=
  match a.frameBufferRead.context with
  | none => (true, ⟨a, []⟩)
  | some _ => readSendLoop e (a.passes e) 0 a

def frameBufferReadRequest (userInterfaceIdentifier : Nat) (e : Env) (context : Nat) : Bool × Effect Ux :=
  (true, (frameBufferReadSend ⟨⟨0, some context, some userInterfaceIdentifier⟩, []⟩ e).2)

def frameBufferReadFinalize (a : Ux) : Bool × Effect Ux := (true, a.frameBufferClose)

theorem frameBuffer_sendChunk (a : Ux) (e : Env) (k : Nat) :
    (a.sendChunk e k).frameBuffer e = a.frameBuffer e := rfl

theorem length_chunk_pos {a : Ux} {e : Env} (h : a.frameBufferRead.offset < (a.frameBuffer e).length) :
    0 < (a.chunk e).length := by
  rw [chunk, List.length_take, List.length_drop, readDataSize]
  omega

/-- The loop ends on its own: more passes make no difference. -/
theorem readSendLoop_passes {e : Env} {fuel fuel' k : Nat} {a : Ux} (h : a.passes e ≤ fuel)
    (h' : a.passes e ≤ fuel') : readSendLoop e fuel k a = readSendLoop e fuel' k a := by
  induction fuel generalizing fuel' k a with
  | zero => cases h
  | succ fuel ih =>
    cases fuel' with
    | zero => cases h'
    | succ fuel' =>
      rw [readSendLoop, readSendLoop]
      split
      · rfl
      · split
        · rfl
        · rename_i hoffset
          split
          · rfl
          · have hpos := length_chunk_pos (Nat.lt_of_not_le hoffset)
            have hpasses : (a.sendChunk e k).passes e < a.passes e := by
              rw [passes, passes, frameBuffer_sendChunk, sendChunk]
              dsimp only
              omega
            exact ih (by omega) (by omega)

end Ux

/-- Whose callbacks a registered method has. -/
inductive MethodKind where
  | frameBufferRead
  | responder
  deriving Repr, DecidableEq

variable {χ : Type}

/-- Requests are decoded to their user interface identifier. -/
def methodServer : MethodKind → MethodServer χ MethodKind Ux Env Nat
  | .frameBufferRead =>
    { contextInitialize := none
      request := some fun userInterfaceIdentifier e _ _ context =>
        Ux.frameBufferReadRequest userInterfaceIdentifier e context
      finalize := some fun _ a _ _ => a.frameBufferReadFinalize }
  | .responder =>
    { contextInitialize := none
      request := some fun _ e a _ _ => (e.send 0, ⟨a, []⟩)
      finalize := none }

def frameBufferRead : Method := ⟨9, 1, 2, 32, true, false⟩

/-- What `fd_rpc_server_ux_initialize` registers. -/
def associations : List (Association MethodKind) :=
  [⟨⟨9, 1, 1, 6, false, false⟩, .responder⟩,
   ⟨frameBufferRead, .frameBufferRead⟩,
   ⟨⟨9, 1, 3, 6, false, false⟩, .responder⟩,
   ⟨⟨9, 1, 4, 12, false, false⟩, .responder⟩,
   ⟨⟨9, 1, 5, 352, false, false⟩, .responder⟩,
   ⟨⟨9, 1, 6, 6, false, false⟩, .responder⟩,
   ⟨⟨9, 1, 8, 6, false, false⟩, .responder⟩,
   ⟨⟨9, 1, 7, 8, false, false⟩, .responder⟩,
   ⟨⟨9, 1, 10, 6, false, false⟩, .responder⟩,
   ⟨⟨9, 1, 9, 14, false, false⟩, .responder⟩,
   ⟨⟨9, 1, 11, 6, false, false⟩, .responder⟩,
   ⟨⟨9, 1, 12, 5929, false, false⟩, .responder⟩]

/-- The calls with these methods and `others`, that answer their requests as well. -/
def platform (decodeCall : List UInt8 → Option (Call × List UInt8))
    (decodeRequest : Method → List UInt8 → Option Nat) (others : List Method) (bufferSize : Nat) :
    Platform χ MethodKind Ux Env Nat where
  decodeCall := decodeCall
  decodeRequest := decodeRequest
  associations := associations ++ others.map fun method => ⟨method, .responder⟩
  server := methodServer
  work e a _ := (a.frameBufferReadSend e).2
  bufferSize := bufferSize

end ServerUx
end Rpc
end Firefly
