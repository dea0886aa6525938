import MRpc.Codec.Decode
import MRpc.Message.Wire
import MRpc.Tcp.Client
import MRpc.Tcp.Conservation

/-!
# The error callback of the codec and its two owners

`ProtobufCodecLite::defaultErrorCallback` passes the `Conn` of the stream to `deleteConn` of the
queue of its thread. The `Conn` belongs to a `TcpServer`, where `notifyHandler` has linked it, or it
is the member `conn_` of a `TcpClient`, which nothing links. The callback is the same for both.

Here `read_cb` is `RpcChannel::onMessage`, on either owner and on every content of the read buffer.
The services and the done callbacks that it runs have a state of their own, and may call `quit` of
the owner.

## Main definitions

* `Owner`, `Owner.Links`: a server or a client, and the `Conn`s that its queues link.
* `ErrorCall`, `ErrorCall.Valid`: a call of the error callback, and that `deleteConn` does what it
  is for.
* `Reads`: the owners and `Conn`s that `read_cb` is called with.
* `readCallbacks`: the callbacks of the codec on an owner.

## Main results

* `TcpServer.Invariant.errorCall`, `TcpClient.Unlinked.errorCall`: the callback on either owner.
* `errorCalls_valid_iff`: the error path is valid exactly for the connections of a server.
-/

namespace MRpc

open FixedWidth Machine

/-! ### Owners -/

/-- What a `Conn` belongs to. -/
inductive Owner
  | server (s : TcpServer)
  | client (s : TcpClient)

namespace Owner

/-- The owner is a server. -/
def isServer : Owner → Bool
  | .server _ => true
  | .client _ => false

/-- Where the `Conn`s of the owner live. -/
def heap : Owner → ConnHeap
  | .server s => s.heap
  | .client s => s.heap

/-- `connect_queue` of a thread; `main_base` is the only thread of a client. -/
def connectQueue : Owner → Nat → Option ConnQueue
  | .server s, i => (s.threads[i]?).map fun t => t.queue
  | .client s, i => if i = 0 then some s.queue else none

/-- The user calls `quit` of the owner `n` times. -/
def quits (n : Nat) : Owner → Owner
  | .server s => .server (TcpServer.quit^[n] s)
  | .client s => .client (TcpClient.quit^[n] s)

/-- `defaultErrorCallback`; `none` is a fault, after which a client has ended. -/
def defaultErrorCallback (conn : Ptr) : Owner → Option Owner
  | .server s => (s.defaultErrorCallback conn).map .server
  | .client s => some (.client s.defaultErrorCallback)

/-- The queues of the threads link `conns`, in this order. -/
def Links (o : Owner) (conns : Nat → List Ptr) : Prop :=
  ∀ i q, o.connectQueue i = some q → q.Holds o.heap (conns i)

end Owner

/-! ### Calls of the error callback -/

/-- A call of the error callback: the owner before it and after it. -/
structure ErrorCall where
  before : Owner
  after : Option Owner

/-- The `Conn` that `deleteConn` is given has neighbours and is linked in the queue of its thread,
the queue counts at least one `Conn` and counts one less afterwards, and all the others stay linked
in the same order. -/
def ErrorCall.Valid (conn : Ptr) (call : ErrorCall) : Prop :=
  ∃ after c i q q' conns, call.after = some after ∧
    call.before.heap conn = some c ∧ c.pre ≠ none ∧ c.next ≠ none ∧ c.thread = some i ∧
    call.before.connectQueue i = some q ∧ after.connectQueue i = some q' ∧
    1 ≤ q.total ∧ q'.total = q.total - 1 ∧
    call.before.Links conns ∧ conn ∈ conns i ∧
    after.Links (Function.update conns i ((conns i).erase conn))

/-- The neighbours of a `Conn` of a queue. -/
theorem ConnQueue.Holds.ends_ne_none {q : ConnQueue} {h : ConnHeap} {conns : List Ptr} {x : Ptr}
    {c : Conn} (H : q.Holds h conns) (hx : x ∈ conns) (hc : h x = some c) :
    c.pre ≠ none ∧ c.next ≠ none := by
  obtain ⟨xs, p, n, ys, hnodes, -⟩ := H.exists_neighbours hx
  obtain ⟨hpre, hnext⟩ := (hnodes ▸ H.linked : DoublyLinked.Linked h.links _).neighbours
  simp only [ConnHeap.links, hc, Option.bind_some] at hpre hnext
  simp [hpre, hnext]

/-- **The error callback on a connection of a server.** -/
theorem TcpServer.Invariant.errorCall {count : Nat} {s : TcpServer} {conns : Nat → List Ptr}
    (H : Invariant count s conns) {bev : Ptr} {e : BufferEvent} (he : s.bevs bev = some e) :
    ErrorCall.Valid e.data ⟨.server s, Owner.defaultErrorCallback e.data (.server s)⟩ := by
  obtain ⟨c, -, hc, -, hthread, -⟩ := H.wired.exists_conn he
  obtain ⟨t, h, ht, -, hafter, H'⟩ := H.defaultErrorCallback he
  have hmem := (H.wired.bevs_owned bev e he).1
  obtain ⟨hpre, hnext⟩ := (H.wired.holds e.base t ht).ends_ne_none hmem hc
  have hthreads : (s.closed e.base t bev e.fd h
      (s.log ++ [.freeBufferevent bev, .deleteConn e.data])).threads[e.base]? =
        some { t with queue := { t.queue with total := uint64 (t.queue.total - 1) } } :=
    (getElem?_set_some ht _ _).trans (if_pos rfl)
  -- The counters are the numbers of connections, so the subtraction does not wrap.
  have htotal := H.total_eq ht
  have htotal' := H'.total_eq hthreads
  rw [Function.update_self, List.length_erase_of_mem hmem, ← htotal] at htotal'
  have hpos := List.length_pos_of_mem hmem
  refine ⟨.server _, c, e.base, t.queue, { t.queue with total := uint64 (t.queue.total - 1) },
    conns, congrArg (Option.map Owner.server) hafter, hc, hpre, hnext, hthread,
    congrArg (Option.map LibeventThread.queue) ht,
    congrArg (Option.map LibeventThread.queue) hthreads,
    by omega, htotal', ?_, hmem, ?_⟩
  · intro i q hq
    obtain ⟨u, hu, rfl⟩ := Option.map_eq_some_iff.mp hq
    exact H.wired.holds i u hu
  · intro i q hq
    obtain ⟨u, hu, rfl⟩ := Option.map_eq_some_iff.mp hq
    exact H'.wired.holds i u hu

/-- **The error callback on the connection of a client.** -/
theorem TcpClient.Unlinked.errorCall {s : TcpClient} (H : s.Unlinked) (after : Option Owner) :
    ¬ ErrorCall.Valid s.conn ⟨.client s, after⟩ := by
  rintro ⟨-, c, -, -, -, -, -, hc, hpre, -⟩
  exact hpre (H c hc)

/-! ### Reading -/

/-- `read_cb` of the owner is called with this `Conn`: in a state that the owner reaches, and for a
bufferevent that is allocated. -/
inductive Reads : Owner → Ptr → Prop
  | server {count : Nat} {s t : TcpServer} {bev : Ptr} {e : BufferEvent}
      (hreach : Reachable TcpServer.next (TcpServer.new count) s) (hlive : s.live bev = true)
      (he : s.bevs bev = some e) (hread : s.bufferReadCb bev = some t) :
      Reads (.server t) e.data
  | client {s : TcpClient} {bev : Ptr} (hreach : Reachable TcpClient.next TcpClient.new s)
      (hlive : s.enabled (.read bev 0 true) = true) : Reads (.client (s.bufferCb bev 0)) s.conn

/-- What the callbacks of the codec act on: the owner, the state of the user's code, and the calls
of the error callback. After a fault there is no owner. -/
structure Endpoint (τ : Type) where
  owner : Option Owner
  user : τ
  errors : List ErrorCall

/-- The callbacks that `RpcChannel` gives to its codec. `user` is what `RpcChannel::onRpcMessage`
and the code it calls do with a message, and how often they call `quit`. -/
def readCallbacks {τ : Type} (conn : Ptr) (user : τ → Bytes → RpcMessage → τ × Nat) :
    Callbacks (Endpoint τ) RpcMessage where
  rawCb := none
  messageCallback env buf m :=
    { env with
      owner := env.owner.map (Owner.quits (user env.user buf m).2)
      user := (user env.user buf m).1 }
  errorCallback env _ :=
    match env.owner with
    | none => env
    | some o =>
      { env with
        owner := o.defaultErrorCallback conn
        errors := env.errors ++ [⟨o, o.defaultErrorCallback conn⟩] }

section Reading

variable {c : Codec RpcMessage} {τ : Type} {o : Owner} {conn : Ptr}
  {user : τ → Bytes → RpcMessage → τ × Nat} {x : τ} {buf : Bytes}
  {r : ReadState (Endpoint τ) RpcMessage} {code : ErrorCode}

/-- An error is reported once, in a state that calls of `quit` have led to. -/
theorem errors_of_onMessage {R : Owner → Prop} (hquits : ∀ n o, R o → R (o.quits n)) (ho : R o)
    (hr : c.onMessage (readCallbacks conn user) ⟨buf, ⟨some o, x, []⟩, []⟩ = some r)
    (herror : .errorCallback code ∈ r.trace) :
    ∃ o', R o' ∧ r.env.errors = [⟨o', o'.defaultErrorCallback conn⟩] := by
  have hraw : ∀ (env : Endpoint τ) (buf : Bytes) (len : Int),
      ((readCallbacks conn user).callRaw env buf len).2.1 = env := fun _ _ _ => rfl
  obtain ⟨env, code, ⟨hnone, o', ho', hR⟩, henv⟩ := Codec.onMessage_errorCallback
    (P := fun env => env.errors = [] ∧ ∃ o', env.owner = some o' ∧ R o')
    (fun env buf len h => hraw env buf len ▸ h)
    (fun env buf m h => by
      obtain ⟨hnone, o', ho', hR⟩ := h
      exact ⟨hnone, o'.quits (user env.user buf m).2, by simp [readCallbacks, ho'], hquits _ _ hR⟩)
    ⟨rfl, o, rfl, ho⟩ (by simp) hr herror
  exact ⟨o', hR, by simp [henv, readCallbacks, ho', hnone]⟩

theorem TcpServer.Invariant.quits {count : Nat} {s : TcpServer} {conns : Nat → List Ptr}
    (H : Invariant count s conns) (n : Nat) : Invariant count (TcpServer.quit^[n] s) conns := by
  induction n generalizing s with
  | zero => exact H
  | succ n ih => exact ih H.quit

theorem TcpServer.bevs_quits (s : TcpServer) (n : Nat) : (TcpServer.quit^[n] s).bevs = s.bevs := by
  induction n generalizing s with
  | zero => rfl
  | succ n ih => exact ih s.quit

/-- **The error path is valid exactly for the connections of a server.** For every codec and every
content of the read buffer on which `onMessage` reports an error, whatever the user's code does with
the messages before it, the error callback is called once, and there `deleteConn` is given a `Conn`
that its queue links and takes it out of the queue if and only if the `Conn` belongs to a server. -/
theorem errorCalls_valid_iff (h : Reads o conn)
    (hr : c.onMessage (readCallbacks conn user) ⟨buf, ⟨some o, x, []⟩, []⟩ = some r)
    (herror : .errorCallback code ∈ r.trace) :
    ∃ call, r.env.errors = [call] ∧ (call.Valid conn ↔ o.isServer = true) := by
  cases h with
  | @server count s t bev e hreach hlive he hread =>
    obtain ⟨conns, H⟩ := TcpServer.Invariant.of_reachable hreach
    obtain ⟨heap, hread', H'⟩ := H.bufferCb he .readCb (by simp)
    obtain rfl := Option.some.inj (hread'.symm.trans hread)
    obtain ⟨o', ⟨u, rfl, Hu, heu⟩, herrors⟩ := errors_of_onMessage
      (R := fun o => ∃ u, o = .server u ∧ TcpServer.Invariant count u conns ∧ u.bevs bev = some e)
      (by
        rintro n o ⟨u, rfl, Hu, heu⟩
        exact ⟨_, rfl, Hu.quits n, by rw [TcpServer.bevs_quits, heu]⟩)
      ⟨_, rfl, H', he⟩ hr herror
    exact ⟨_, herrors, iff_of_true (Hu.errorCall heu) rfl⟩
  | @client s bev hreach hlive =>
    obtain ⟨o', ⟨u, rfl, hu, hconn⟩, herrors⟩ := errors_of_onMessage
      (R := fun o => ∃ u, o = .client u ∧ u.Unlinked ∧ u.conn = s.conn)
      (by
        rintro n o ⟨u, rfl, hu, hconn⟩
        exact ⟨_, rfl, TcpClient.stable_unlinked.quits hu n,
          (TcpClient.stable_conn s.conn).quits hconn n⟩)
      ⟨_, rfl, TcpClient.stable_unlinked.bufferCb (.of_reachable hreach) bev 0, rfl⟩ hr herror
    exact ⟨_, herrors, iff_of_false (hconn ▸ hu.errorCall _) Bool.false_ne_true⟩

end Reading

/-- Twelve zero bytes are no frame: the length is below its minimum. -/
theorem onMessage_zeros {σ : Type} (cb : Callbacks σ RpcMessage) (env : σ) :
    rpcCodec.onMessage cb ⟨List.replicate 12 0, env, []⟩ =
      some ⟨List.replicate 8 0, cb.errorCallback env .invalidLength,
        [.errorCallback .invalidLength]⟩ := by
  have hguard : rpcCodec.minFrameLen ≤ getReadBufferLen (List.replicate 12 0) := by
    decide +kernel
  have hshort : uint32 (asInt32 ((List.replicate 12 0).take headerLen)) <
      rpcCodec.minMessageLen := by
    decide +kernel
  refine Codec.onMessage_done ?_
  rw [Codec.onMessageRound, if_pos hguard, Codec.onMessageBody, if_pos (Or.inr hshort)]
  rfl

/-- A server with one connection, on which twelve zero bytes arrive. -/
theorem errorCalls_valid_server :
    ∃ t r, Reads (.server t) 3 ∧
      rpcCodec.onMessage (readCallbacks 3 fun x _ _ => (x, 0))
        ⟨List.replicate 12 0, ⟨some (.server t), (), []⟩, []⟩ = some r ∧
      .errorCallback .invalidLength ∈ r.trace ∧ ∃ call, r.env.errors = [call] ∧ call.Valid 3 := by
  have hreach : ∃ s, Machine.run TcpServer.next (TcpServer.new 1) [.accept 7, .notify 0] = some s ∧
      s.live 2 = true ∧ s.bevs 2 = some ⟨7, 3, 0⟩ ∧ ∃ t, s.bufferReadCb 2 = some t :=
    ⟨_, rfl, rfl, rfl, _, rfl⟩
  obtain ⟨s, hrun, hlive, he, t, hread⟩ := hreach
  have hreads : Reads (.server t) 3 := .server ⟨_, hrun⟩ hlive he hread
  refine ⟨t, _, hreads, onMessage_zeros _ _, by simp, ?_⟩
  obtain ⟨call, herrors, hvalid⟩ := errorCalls_valid_iff hreads (onMessage_zeros _ _)
    (List.mem_singleton_self (Event.errorCallback .invalidLength))
  exact ⟨call, herrors, hvalid.mpr rfl⟩

/-- A client that is connecting, to which twelve zero bytes arrive: `conn_` is not linked. -/
theorem not_errorCalls_valid_client :
    ∃ s r, Reads (.client s) 2 ∧
      rpcCodec.onMessage (readCallbacks 2 fun x _ _ => (x, 0))
        ⟨List.replicate 12 0, ⟨some (.client s), (), []⟩, []⟩ = some r ∧
      .errorCallback .invalidLength ∈ r.trace ∧ ¬ ∀ call ∈ r.env.errors, call.Valid 2 := by
  have hreach : Reachable TcpClient.next TcpClient.new (TcpClient.new.startRun (.connecting 5)) :=
    ⟨[.startRun (.connecting 5)], rfl⟩
  have hlive : (TcpClient.new.startRun (.connecting 5)).enabled (.read 3 0 true) = true := rfl
  refine ⟨_, _, .client hreach hlive, onMessage_zeros _ _, by simp, fun hvalid => ?_⟩
  have hcall := hvalid _ List.mem_cons_self
  exact (TcpClient.stable_unlinked.bufferCb (.of_reachable hreach) 3 0).errorCall _ hcall

end MRpc
