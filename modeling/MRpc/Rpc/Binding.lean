import MRpc.Codec.Sending
import MRpc.Rpc.Dispatch

/-!
# Binding a channel to a connection

A client constructs its channel before it has a connection, and binds it with `setConnection` when
the connection is there (`test/client.cpp`). The parameter of `setConnection` hides the member, so
the member keeps the value that the default constructor left: none. The first `CallMethod` then
sends through a pointer that was never initialised, which ends the run of the model.

## Main definitions

* `BindOp`, `Client`, `Client.step`: a channel, the write buffers of the connections, and the
  operations on them.
* `lastBound`: the connection given to the last `setConnection`.
* `Client.SendsToBound`: a call appends its frame there, and nowhere else.

## Main results

* `Client.step_callMethod_of_some`, `Client.step_callMethod_of_none`: a call of a channel that was
  bound by its constructor is sent there, and a call of an unbound channel fails.
* `Client.sendsToBound_iff_no_call`: the calls of a channel that was constructed unbound are never
  sent where they should.
-/

namespace MRpc

open FixedWidth History Machine

variable {Msg : Type}

/-- An operation on the channel of a client. -/
inductive BindOp (Msg : Type)
  | setConnection (conn : Ptr)
  | callMethod (call : Call Msg)

/-- The connection that the operation binds. -/
def BindOp.conn? : BindOp Msg → Option Ptr
  | .setConnection conn => some conn
  | .callMethod _ => none

/-- The connection given to the last `setConnection`. -/
def lastBound (ops : List (BindOp Msg)) : Option Ptr := (ops.filterMap BindOp.conn?).getLast?

/-- A channel, with the write buffers of the connections by their addresses. -/
structure Client (Msg : Type) where
  process : Process Msg
  writeBufs : Ptr → Bytes

namespace Client

/-- A channel from the default constructor, in a process that has issued calls before. -/
def newDefault (lastId : Int) (writeBufs : Ptr → Bytes) : Client Msg :=
  ⟨⟨lastId, .newDefault⟩, writeBufs⟩

variable (c : Codec RpcMessage) (L : ChainLayout)

/-- What an effect of the channel does to the write buffers. A `send` through a pointer that was
never initialised has no result. -/
def perform (writeBufs : Ptr → Bytes) : Effect Msg → Option (Ptr → Bytes)
  | .send (some conn) m =>
    (c.send L .allOk (writeBufs conn) m).map (Function.update writeBufs conn)
  | .send none _ => none
  | _ => some writeBufs

/-- One operation. -/
def step (s : Client Msg) : BindOp Msg → Option (Client Msg)
  | .setConnection conn =>
    some { s with process := { s.process with
      channel := s.process.channel.setConnection (some conn) } }
  | .callMethod call =>
    let (process, effects) := s.process.callMethod call
    (effects.foldlM (perform c L) s.writeBufs).map (⟨process, ·⟩)

/-! ### Statement -/

/-- After the operations `before`, a `CallMethod` appends the frame of its request to the write
buffer of the connection that was bound last, and leaves the other write buffers alone. -/
def SendsToBound (s₀ : Client Msg) (before : List (BindOp Msg)) (op : BindOp Msg) : Prop :=
  ∀ call conn, op = .callMethod call → lastBound before = some conn →
    ∃ s t fr, run (step c L) s₀ before = some s ∧ s.step c L op = some t ∧
      c.IsFrame (requestMessage t.process.lastId call) fr ∧
      t.writeBufs = Function.update s.writeBufs conn (s.writeBufs conn ++ fr)

variable {c L}

/-! ### Bound and unbound channels -/

/-- A call of a channel that was constructed with a connection appends its frame to the write buffer
of this connection. -/
theorem step_callMethod_of_some (hproto : c.proto.Lawful) {s : Client Msg} {conn : Ptr}
    {call : Call Msg} {m : RpcMessage} (h : s.process.channel.conn = some conn)
    (hm : requestMessage (int32 (s.process.lastId + 1)) call = m)
    (hlen : (c.wireBody m).length ≤ maxMessageLen) :
    s.step c L (.callMethod call) = some ⟨(s.process.callMethod call).1,
      Function.update s.writeBufs conn (s.writeBufs conn ++ c.wireFrame m)⟩ := by
  have hsend : c.send L .allOk (s.writeBufs conn) m =
      some (s.writeBufs conn ++ c.wireFrame m) := by
    rw [Codec.send, Codec.isFrame_wireFrame hproto hlen]
    rfl
  simp only [step, Process.callMethod, h, hm, List.foldlM_cons, List.foldlM_nil, perform,
    Option.bind_eq_bind, Option.bind_some, hsend, Option.map_some, Option.pure_def]

/-- A call of a channel whose `conn` was never initialised has no result. -/
theorem step_callMethod_of_none {s : Client Msg} (h : s.process.channel.conn = none)
    (call : Call Msg) : s.step c L (.callMethod call) = none := by
  simp only [step, Process.callMethod, h, List.foldlM_cons, perform, Option.bind_eq_bind,
    Option.bind_some, Option.bind_none, Option.map_none]

/-- No operation initialises `conn`. -/
theorem conn_of_run {s s' : Client Msg} {ops : List (BindOp Msg)}
    (hs : s.process.channel.conn = none) (h : run (step c L) s ops = some s') :
    s'.process.channel.conn = none := by
  refine run_invariant (P := fun s : Client Msg => s.process.channel.conn = none)
    (fun u op v hu huv => ?_) hs h
  rcases op with ⟨conn⟩ | ⟨call⟩
  · obtain rfl := Option.some.inj huv
    exact hu
  · rw [step_callMethod_of_none hu] at huv
    cases huv

theorem lastBound_cons_isSome (conn : Ptr) (ops : List (BindOp Msg)) :
    ∃ conn', lastBound (.setConnection conn :: ops) = some conn' := by
  have hcons : (BindOp.setConnection conn :: ops).filterMap BindOp.conn? =
      conn :: ops.filterMap BindOp.conn? := rfl
  rw [lastBound, hcons]
  exact ⟨_, List.getLast?_eq_some_getLast (List.cons_ne_nil _ _)⟩

/-- **The calls of a channel that was constructed unbound are not sent.** For every codec and every
sequence of operations on a default-constructed channel that starts with a `setConnection`, each
call appends its frame to the write buffer of the connection bound last, and to no other, exactly
when the sequence has no call at all. -/
theorem sendsToBound_iff_no_call (c : Codec RpcMessage) (L : ChainLayout) (lastId : Int)
    (writeBufs : Ptr → Bytes) (conn : Ptr) (ops : List (BindOp Msg)) :
    Always (SendsToBound c L (newDefault lastId writeBufs)) (.setConnection conn :: ops) ↔
      ∀ call, .callMethod call ∉ ops := by
  constructor
  · intro H call hmem
    obtain ⟨before, after, rfl⟩ := List.append_of_mem hmem
    obtain ⟨conn', hlast⟩ := lastBound_cons_isSome conn before
    obtain ⟨s, t, -, hs, ht, -⟩ :=
      H (.setConnection conn :: before) _ after rfl call conn' rfl hlast
    rw [step_callMethod_of_none (conn_of_run rfl hs)] at ht
    cases ht
  · rintro hno before op after heq call conn' rfl -
    rcases before with _ | ⟨op', before⟩
    · cases heq
    · obtain ⟨-, rfl⟩ := List.cons.inj heq
      exact absurd (by simp) (hno call)

end Client

/-- The client of `test/client.cpp` when its connection is there: bind, then `Put`. -/
theorem not_sendsToBound_putCall :
    ¬ Always (Client.SendsToBound rpcCodec .single (Client.newDefault 0 fun _ => []))
      [.setConnection 1, .callMethod (putCall 10 11)] := by
  intro H
  obtain ⟨s, t, -, hs, ht, -⟩ := H [.setConnection 1] _ [] rfl (putCall 10 11) 1 rfl rfl
  rw [Client.step_callMethod_of_none (Client.conn_of_run rfl hs)] at ht
  cases ht

end MRpc
