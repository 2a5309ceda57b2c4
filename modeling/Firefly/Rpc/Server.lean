import Firefly.Lib.Slots

/-!
# Firefly.Rpc.Server

The calls of `fd_rpc.c`: the tables of server and client contexts, and what the packets of a channel
and its closing do to them. A pointer to a context is the index of its slot, and a slot that is not
allocated is `none` (static memory starts as zeros, and freeing is a `memset`).

A `Platform` is what the file is linked with: nanopb, the registered methods with the callbacks of
their servers, and work that the application runs on its own. Callbacks may use the state of the
application and free contexts, which they return; no server of the repository allocates one. `ε` is
what the callbacks ask the hardware and the channels, given with each input. `tables` keeps all
contents that the table of server contexts has had.
-/

namespace Firefly
namespace Rpc
namespace Server

structure Call where
  packageId : Nat
  serviceId : Nat
  methodId : Nat
  invocation : Nat
  deriving Repr, DecidableEq

/-- `fd_rpc_method_t`, without the message descriptors. -/
structure Method where
  packageId : Nat
  serviceId : Nat
  methodId : Nat
  requestSize : Nat
  serverStreaming : Bool
  clientStreaming : Bool
  deriving Repr, DecidableEq

/-- A context of a server or, with `σ` the type of clients, of a client. -/
structure Context (χ σ : Type) where
  channel : χ
  invocation : Nat
  method : Method
  server : σ
  deriving Repr, DecidableEq

structure Association (σ : Type) where
  method : Method
  server : σ

/-- The state of the application after a callback, and the contexts that it freed. -/
structure Effect (α : Type) where
  app : α
  freed : List Nat

abbrev Callback (χ σ α ε : Type) := ε → α → List (Option (Context χ σ)) → Nat → Bool × Effect α

/-- `fd_rpc_method_server_t`; `ρ` is the type of decoded requests. -/
structure MethodServer (χ σ α ε ρ : Type) where
  contextInitialize : Option (Callback χ σ α ε)
  request : Option (ρ → Callback χ σ α ε)
  finalize : Option (Callback χ σ α ε)

structure Platform (χ σ α ε ρ : Type) where
  decodeCall : List UInt8 → Option (Call × List UInt8)
  decodeRequest : Method → List UInt8 → Option ρ
  associations : List (Association σ)
  server : σ → MethodServer χ σ α ε ρ
  work : ε → α → List (Option (Context χ σ)) → Effect α
  bufferSize : Nat

structure State (χ σ κ α : Type) where
  serverContexts : List (Option (Context χ σ))
  clientContexts : List (Option (Context χ κ))
  app : α
  tables : List (List (Option (Context χ σ)))

namespace State

variable {χ σ κ α ε ρ : Type}

def init (serverLimit clientLimit : Nat) (app : α) : State χ σ κ α :=
  ⟨List.replicate serverLimit none, List.replicate clientLimit none, app, [List.replicate serverLimit none]⟩

def setContexts (s : State χ σ κ α) (t : List (Option (Context χ σ))) : State χ σ κ α :=
  { s with serverContexts := t, tables := s.tables ++ [t] }

/-- `fd_rpc_server_context_free` -/
def contextFree (s : State χ σ κ α) (i : Nat) : State χ σ κ α :=
  s.setContexts (Slots.free s.serverContexts i)

def contextAllocate (s : State χ σ κ α) (context : Context χ σ) : Option (State χ σ κ α × Nat) :=
  (Slots.allocate s.serverContexts context).map fun (t, i) => (s.setContexts t, i)

end State

/-- What `fd_rpc_server_context_get` compares. -/
def Context.key {χ σ : Type} (c : Context χ σ) : χ × Call :=
  (c.channel, ⟨c.method.packageId, c.method.serviceId, c.method.methodId, c.invocation⟩)

variable {χ σ κ α ε ρ : Type} [DecidableEq χ]

def State.contextGet (s : State χ σ κ α) (channel : χ) (call : Call) : Option Nat :=
  Slots.get (fun c => decide (c.key = (channel, call))) s.serverContexts

def State.invoke (s : State χ σ κ α) (callback : Option (Callback χ σ α ε)) (e : ε) (i : Nat) :
    Bool × State χ σ κ α :=
  match callback with
  | none => (true, s)
  | some f =>
    let (result, effect) := f e s.app s.serverContexts i
    (result, effect.freed.foldl State.contextFree { s with app := effect.app })

namespace Platform

variable (p : Platform χ σ α ε ρ)

def getMethodServerAssociation (call : Call) : Option (Association σ) :=
  p.associations.find? fun a =>
    call.packageId = a.method.packageId ∧ call.serviceId = a.method.serviceId ∧ call.methodId = a.method.methodId

def serverInitialize (s : State χ σ κ α) (channel : χ) (data : List UInt8) (e : ε) : Bool × State χ σ κ α :=
  match p.decodeCall data with
  | none => (false, s)
  | some (call, _) =>
    match p.getMethodServerAssociation call with
    | none => (false, s)
    | some association =>
      match s.contextAllocate ⟨channel, call.invocation, association.method, association.server⟩ with
      | none => (false, s)
      | some (s, i) =>
        let (result, s) := s.invoke (p.server association.server).contextInitialize e i
        if result then (true, s) else (false, s.contextFree i)

/-- From the context on. `buffer` tells whether a buffer for the request could be allocated. -/
def serverRequestIn (s : State χ σ κ α) (association : Association σ) (context : Context χ σ) (i : Nat)
    (data : List UInt8) (e : ε) (buffer : Bool) : Bool × State χ σ κ α :=
  if p.bufferSize < context.method.requestSize then (false, s)
  else if !buffer then (false, s)
  else
    let (result, s) :=
      match p.decodeRequest context.method data with
      | none => (false, s)
      | some request => s.invoke ((p.server context.server).request.map (fun f : ρ → Callback χ σ α ε => f request)) e i
    if !association.method.serverStreaming && !association.method.serverStreaming then
      (result, s.contextFree i)
    else (result, s)

def serverRequest (s : State χ σ κ α) (channel : χ) (data : List UInt8) (e : ε) (buffer : Bool) :
    Bool × State χ σ κ α :=
  match p.decodeCall data with
  | none => (false, s)
  | some (call, data) =>
    match p.getMethodServerAssociation call with
    | none => (false, s)
    | some association =>
      if association.method.serverStreaming then
        match s.contextGet channel call with
        | none => (false, s)
        | some i =>
          match s.serverContexts[i]? with
          | some (some context) => p.serverRequestIn s association context i data e buffer
          | _ => (false, s)
      else
        let context : Context χ σ := ⟨channel, call.invocation, association.method, association.server⟩
        match s.contextAllocate context with
        | none => (false, s)
        | some (s, i) => p.serverRequestIn s association context i data e buffer

def serverFinalize (s : State χ σ κ α) (channel : χ) (data : List UInt8) (e : ε) : Bool × State χ σ κ α :=
  match p.decodeCall data with
  | none => (false, s)
  | some (call, _) =>
    match s.contextGet channel call with
    | none => (false, s)
    | some i =>
      match s.serverContexts[i]? with
      | some (some context) =>
        let (result, s) := s.invoke (p.server context.server).finalize e i
        (result, s.contextFree i)
      | _ => (false, s)

/-- One pass of the loop over the server contexts in `fd_rpc_channel_closed`. -/
def closeContext (channel : χ) (e : ε) (s : State χ σ κ α) (i : Nat) : State χ σ κ α :=
  match s.serverContexts[i]? with
  | some (some context) =>
    if context.channel = channel then
      (s.invoke (p.server context.server).finalize e i).2.contextFree i
    else s
  | _ => s

def channelClosed (s : State χ σ κ α) (channel : χ) (e : ε) : State χ σ κ α :=
  let clients := s.clientContexts.map fun slot => slot.filter fun c => decide (c.channel ≠ channel)
  (List.range s.serverContexts.length).foldl (p.closeContext channel e) { s with clientContexts := clients }

/-- What happens to the tables. `work` is a work item of the application, and `clients` what the
client side does with its own contexts. -/
inductive Input (χ κ ε : Type) where
  | serverInitialize (channel : χ) (data : List UInt8) (e : ε)
  | serverRequest (channel : χ) (data : List UInt8) (e : ε) (buffer : Bool)
  | serverFinalize (channel : χ) (data : List UInt8) (e : ε)
  | channelClosed (channel : χ) (e : ε)
  | work (e : ε)
  | clients (table : List (Option (Context χ κ)))

def step (s : State χ σ κ α) : Input χ κ ε → State χ σ κ α
  | .serverInitialize channel data e => (p.serverInitialize s channel data e).2
  | .serverRequest channel data e buffer => (p.serverRequest s channel data e buffer).2
  | .serverFinalize channel data e => (p.serverFinalize s channel data e).2
  | .channelClosed channel e => p.channelClosed s channel e
  | .work e =>
    let effect := p.work e s.app s.serverContexts
    effect.freed.foldl State.contextFree { s with app := effect.app }
  | .clients table => { s with clientContexts := table }

def run (s : State χ σ κ α) (inputs : List (Input χ κ ε)) : State χ σ κ α := inputs.foldl p.step s

end Platform

end Server
end Rpc
end Firefly
