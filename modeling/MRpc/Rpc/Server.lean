import MRpc.Rpc.Dispatch
import MRpc.Tcp.Conservation

/-!
# The RPC server and the channels of its connections

`RpcServer` of `src/rpcServer.cpp`, on top of the TCP server. For each connection `onConnection`
makes a channel, hands it the table of services, and makes its `onMessage` the read callback of the
TCP server. There is one read callback for all connections, it holds a plain pointer, and the only
`shared_ptr` to the channel goes out of scope at the end of `onConnection`.

A channel that was destroyed is marked so, and is left with the fields it had; what a program finds
there is undefined.

## Main definitions

* `ChannelObject`, `Invocation`, `RpcServer`: the state.
* `RpcServer.registerService`, `RpcServer.onConnection`, `RpcServer.onRead`: the functions of the
  server.
* `RpcServer.next`: the server together with the TCP server that calls it.
* `Invocation.Own`: a connection is served by its own channel.
* `RpcServer.Dangling`: the invariant of the channels.

## Main results

* `RpcServer.Dangling.handler_madeFor`: the read callback is that of the last connection.
* `RpcServer.own_iff_noRead`: connections are served by their own channels exactly as long as
  nothing is read.
-/

namespace MRpc

open FixedWidth Machine

variable {Msg : Type}

/-! ### The server -/

/-- A channel that `onConnection` has made. -/
structure ChannelObject (Msg : Type) where
  /-- The connection that it was made for. -/
  madeFor : Ptr
  channel : RpcChannel Msg
  /-- It was not destroyed. -/
  alive : Bool

/-- A call of `RpcChannel::onMessage`, with the object that it is called on. -/
structure Invocation (Msg : Type) where
  conn : Ptr
  object : Option (ChannelObject Msg)

/-- `RpcServer`. -/
structure RpcServer (Msg : Type) where
  /-- `server`. -/
  tcp : TcpServer
  services : ServiceTable Msg
  /-- The channels that were made, by address. -/
  channels : List (ChannelObject Msg)
  /-- The channel that the read callback of `server` is bound to. -/
  readCb : Option Nat
  /-- The calls of `onMessage`, in order. -/
  invoked : List (Invocation Msg)

namespace RpcServer

/-- The constructor. -/
def new (threads : Nat) : RpcServer Msg := ⟨TcpServer.new threads, ∅, [], none, []⟩

/-- `registerService`. -/
def registerService (s : RpcServer Msg) : Option (Service Msg) → RpcServer Msg
  | none => s
  | some service => { s with services := s.services.insert service.fullName (some service) }

/-- The last `shared_ptr` to the channel at this address is gone. -/
def destroy (s : RpcServer Msg) (address : Nat) : RpcServer Msg :=
  { s with channels := s.channels.modify address fun o => { o with alive := false } }

/-- `onConnection`. -/
def onConnection (s : RpcServer Msg) : Option Ptr → RpcServer Msg
  | none => s
  | some conn =>
    let address := s.channels.length
    let channel := (RpcChannel.new conn).setServices (some s.services)
    let s : RpcServer Msg := { s with
      channels := s.channels ++ [⟨conn, channel, true⟩]
      readCb := some address }
    s.destroy address

/-- `read_cb(conn)`, if it was set. -/
def onRead (s : RpcServer Msg) (conn : Ptr) : RpcServer Msg :=
  match s.readCb with
  | none => s
  | some address => { s with invoked := s.invoked ++ [⟨conn, s.channels[address]?⟩] }

/-- What the TCP server calls the user for. -/
def callback (s : RpcServer Msg) : TcpEvent → RpcServer Msg
  | .connected conn _ => s.onConnection (some conn)
  | .readCb conn => s.onRead conn
  | .handed _ _ | .fired _ _ | .writeCb _ | .eventCb _ | .deleteConn _ | .freeBufferevent _ => s

end RpcServer

/-- A service is registered, or a callback of the TCP server comes. -/
inductive RpcAction (Msg : Type)
  | register (service : Option (Service Msg))
  | tcp (a : TcpAction)

namespace RpcServer

/-- The next state, if the action may come. -/
def next (s : RpcServer Msg) : RpcAction Msg → Option (RpcServer Msg)
  | .register service => some (s.registerService service)
  | .tcp a => do
    let tcp ← s.tcp.next a
    return (tcp.log.drop s.tcp.log.length).foldl callback { s with tcp := tcp }

/-- The channel that the read callback leads to. -/
def handler (s : RpcServer Msg) : Option (ChannelObject Msg) :=
  s.readCb.bind fun address => s.channels[address]?

end RpcServer

/-! ### Who serves a connection -/

/-- Whatever request comes in on `conn`, the error that answers it and the response that completes
it go out on `conn`. -/
def RpcChannel.RepliesTo (ch : RpcChannel Msg) (conn : Ptr) : Prop :=
  (∀ m fresh effects dest reply, ch.onRequest (some conn) m fresh = .ok effects →
    .send dest reply ∈ effects → dest = some conn) ∧
  ∀ closure data effects dest reply, ch.doneCallback closure data = .ok effects →
    .send dest reply ∈ effects → dest = some conn

/-- Errors go out on the connection that was passed, responses on the one that the channel is bound
to. -/
theorem RpcChannel.repliesTo_iff {ch : RpcChannel Msg} {conn : Ptr} :
    ch.RepliesTo conn ↔ ch.conn = some conn := by
  constructor
  · rintro ⟨-, hdone⟩
    exact hdone ⟨some 0, 1⟩ [] _ _ _ (doneCallback_of_ne_zero (by decide) []) List.mem_cons_self
  · intro hconn
    refine ⟨fun m fresh effects dest reply h hmem => ?_,
      fun closure data effects dest reply h hmem => ?_⟩
    · rcases ch.dispatch_cases m fresh with ⟨error, herror, hdisp, -⟩ |
        ⟨services, service, method, request, -, -, hdisp⟩ | ⟨services, -, -, hdisp⟩
      · rw [onRequest_of_error herror hdisp] at h
        cases h
        simp only [List.mem_singleton, Effect.send.injEq] at hmem
        exact hmem.1
      · rw [onRequest_of_noError hdisp] at h
        cases h
        simp at hmem
      · rw [onRequest_of_assertion hdisp] at h
        cases h
    · rcases closure with ⟨_ | response, id⟩
      · cases h
      · by_cases hid : id = 0
        · rw [hid, doneCallback_zero] at h
          cases h
        · rw [doneCallback_of_ne_zero hid] at h
          cases h
          simp only [List.mem_cons, Effect.send.injEq, reduceCtorEq, List.not_mem_nil, or_false]
            at hmem
          rw [hmem.1, hconn]

/-- `onMessage` is called on the channel that was made for the connection, which is not destroyed,
is bound to the connection and replies to it. -/
def Invocation.Own (i : Invocation Msg) : Prop :=
  ∃ o, i.object = some o ∧ o.madeFor = i.conn ∧ o.alive = true ∧ o.channel.conn = some i.conn ∧
    o.channel.RepliesTo i.conn

/-! ### The channels dangle -/

/-- The connection that was set up, if the event is that of one. -/
def connectedConn : TcpEvent → Option Ptr
  | .connected conn _ => some conn
  | .handed _ _ | .fired _ _ | .readCb _ | .writeCb _ | .eventCb _ | .deleteConn _
  | .freeBufferevent _ => none

namespace RpcServer

/-- After the events `log`, each connection has had its channel, every one of them is destroyed and
has no services, and the read callback points to the last. -/
structure Dangling (s : RpcServer Msg) (log : List TcpEvent) : Prop where
  objects : ∀ o ∈ s.channels, o.alive = false ∧ o.channel = .new o.madeFor
  made : s.channels.map ChannelObject.madeFor = log.filterMap connectedConn
  slot : s.channels = [] ∧ s.readCb = none ∨
    ∃ address, s.readCb = some address ∧ address + 1 = s.channels.length
  invoked : ∀ i ∈ s.invoked, ∃ o, i.object = some o ∧ o.alive = false

variable {s : RpcServer Msg} {log : List TcpEvent}

/-- **The read callback is that of the last connection**, whichever connection is read. -/
theorem Dangling.handler_madeFor (H : Dangling s log) :
    s.handler.map ChannelObject.madeFor = (log.filterMap connectedConn).getLast? := by
  rw [← H.made, List.getLast?_map]
  refine congrArg _ ?_
  rcases H.slot with ⟨hnil, hcb⟩ | ⟨address, hcb, hlen⟩
  · rw [handler, hcb, hnil]
    rfl
  · rw [handler, hcb, Option.bind_some, List.getLast?_eq_getElem?, ← hlen, Nat.add_sub_cancel]

theorem Dangling.exists_handler (H : Dangling s log) {conn bev : Ptr}
    (h : .connected conn bev ∈ log) :
    ∃ address o, s.readCb = some address ∧ s.channels[address]? = some o ∧ o.alive = false ∧
      o.channel = .new o.madeFor := by
  rcases H.slot with ⟨hnil, -⟩ | ⟨address, hcb, hlen⟩
  · have hmem : conn ∈ log.filterMap connectedConn := List.mem_filterMap.mpr ⟨_, h, rfl⟩
    rw [← H.made, hnil] at hmem
    cases hmem
  · obtain ⟨o, ho⟩ : ∃ o, s.channels[address]? = some o :=
      ⟨_, List.getElem?_eq_getElem (by omega)⟩
    exact ⟨address, o, hcb, ho, H.objects o (List.mem_of_getElem? ho)⟩

/-- The channel of a new connection is destroyed before `onConnection` returns, and has no
services. -/
theorem onConnection_channels (s : RpcServer Msg) (conn : Ptr) :
    (s.onConnection (some conn)).channels = s.channels ++ [⟨conn, .new conn, false⟩] := by
  simp only [onConnection, destroy, RpcChannel.setServices]
  rw [List.modify_eq_take_cons_drop (by simp)]
  simp

theorem Dangling.callback (H : Dangling s log) (e : TcpEvent) :
    Dangling (s.callback e) (log ++ [e]) := by
  cases e with
  | connected conn bev =>
    refine ⟨fun o ho => ?_, ?_, Or.inr ⟨s.channels.length, rfl, ?_⟩, H.invoked⟩
    · rw [RpcServer.callback, onConnection_channels, List.mem_append, List.mem_singleton] at ho
      rcases ho with ho | rfl
      · exact H.objects o ho
      · exact ⟨rfl, rfl⟩
    · rw [RpcServer.callback, onConnection_channels, List.map_append, H.made, List.filterMap_append]
      rfl
    · rw [RpcServer.callback, onConnection_channels, List.length_append, List.length_singleton]
  | readCb conn =>
    rw [RpcServer.callback, onRead]
    have hmade : s.channels.map ChannelObject.madeFor =
        (log ++ [TcpEvent.readCb conn]).filterMap connectedConn := by
      rw [List.filterMap_append, H.made]
      simp [connectedConn]
    rcases H.slot with ⟨hnil, hcb⟩ | ⟨address, hcb, hlen⟩
    · rw [hcb]
      exact ⟨H.objects, hmade, H.slot, H.invoked⟩
    · rw [hcb]
      refine ⟨H.objects, hmade, Or.inr ⟨address, rfl, hlen⟩, fun i hi => ?_⟩
      rcases List.mem_append.mp hi with hi | hi
      · exact H.invoked i hi
      · obtain ⟨o, ho⟩ : ∃ o, s.channels[address]? = some o :=
          ⟨_, List.getElem?_eq_getElem (by omega)⟩
        rw [List.mem_singleton.mp hi]
        exact ⟨o, ho, (H.objects o (List.mem_of_getElem? ho)).1⟩
  | handed | fired | writeCb | eventCb | deleteConn | freeBufferevent =>
    refine ⟨H.objects, ?_, H.slot, H.invoked⟩
    rw [List.filterMap_append, RpcServer.callback, H.made]
    simp [connectedConn]

theorem Dangling.callbacks (H : Dangling s log) (events : List TcpEvent) :
    Dangling (events.foldl RpcServer.callback s) (log ++ events) := by
  induction events generalizing s log with
  | nil => simpa using H
  | cons e events ih =>
    rw [List.append_cons]
    exact ih (H.callback e)

/-! ### What is invoked -/

/-- The callbacks touch neither the TCP server nor the table of services. -/
theorem tcp_services_callback (s : RpcServer Msg) (e : TcpEvent) :
    (s.callback e).tcp = s.tcp ∧ (s.callback e).services = s.services := by
  cases e with
  | readCb conn =>
    rw [RpcServer.callback, onRead]
    split <;> exact ⟨rfl, rfl⟩
  | connected | handed | fired | writeCb | eventCb | deleteConn | freeBufferevent =>
    exact ⟨rfl, rfl⟩

theorem tcp_services_callbacks (s : RpcServer Msg) (events : List TcpEvent) :
    (events.foldl RpcServer.callback s).tcp = s.tcp ∧
      (events.foldl RpcServer.callback s).services = s.services := by
  induction events generalizing s with
  | nil => exact ⟨rfl, rfl⟩
  | cons e events ih =>
    obtain ⟨htcp, hservices⟩ := tcp_services_callback s e
    rw [List.foldl_cons, ← htcp, ← hservices]
    exact ih _

/-- Without a `read_cb`, nothing is invoked. -/
theorem invoked_callbacks_of_notMem (s : RpcServer Msg) {events : List TcpEvent}
    (h : ∀ conn, .readCb conn ∉ events) :
    (events.foldl RpcServer.callback s).invoked = s.invoked := by
  induction events generalizing s with
  | nil => rfl
  | cons e events ih =>
    rw [List.foldl_cons, ih _ fun conn hmem => h conn (List.mem_cons_of_mem _ hmem)]
    cases e with
    | readCb conn => exact absurd List.mem_cons_self (h conn)
    | connected | handed | fired | writeCb | eventCb | deleteConn | freeBufferevent => rfl

/-- Where the read callback is set, a `read_cb` invokes a channel. -/
theorem invoked_callbacks_ne_nil {events : List TcpEvent} (hcb : s.readCb ≠ none)
    (h : s.invoked ≠ [] ∨ ∃ conn, .readCb conn ∈ events) :
    (events.foldl RpcServer.callback s).invoked ≠ [] := by
  induction events generalizing s with
  | nil => simpa using h
  | cons e events ih =>
    rw [List.foldl_cons]
    obtain ⟨address, haddress⟩ := Option.ne_none_iff_exists'.mp hcb
    cases e with
    | connected conn bev =>
      refine ih (by simp [RpcServer.callback, onConnection, destroy]) ?_
      simpa [RpcServer.callback, onConnection, destroy] using h
    | readCb conn =>
      refine ih ?_ (Or.inl ?_)
      · simp [RpcServer.callback, onRead, haddress]
      · simp [RpcServer.callback, onRead, haddress]
    | handed | fired | writeCb | eventCb | deleteConn | freeBufferevent =>
      exact ih hcb (by simpa [RpcServer.callback] using h)

/-! ### Runs of the server -/

/-- The invariant of a run: the TCP server below has run too, and the channels dangle. -/
structure Invariant (threads : Nat) (s : RpcServer Msg) : Prop where
  tcp : Reachable TcpServer.next (TcpServer.new threads) s.tcp
  dangling : Dangling s s.tcp.log

theorem log_new (threads : Nat) : (TcpServer.new threads).log = [] := by
  induction threads with
  | zero => rfl
  | succ threads ih => exact ih

theorem Invariant.new (threads : Nat) :
    Invariant threads (RpcServer.new threads : RpcServer Msg) := by
  refine ⟨Reachable.refl _, ?_⟩
  rw [RpcServer.new, log_new]
  constructor <;> simp

/-- What an action of the TCP server does: events come, and the callbacks for them are called. -/
theorem next_tcp {s t : RpcServer Msg} {a : TcpAction} (h : s.next (.tcp a) = some t) :
    ∃ tcp events, s.tcp.enabled a = true ∧ s.tcp.next a = some tcp ∧
      tcp.log = s.tcp.log ++ events ∧ (a.isRead = true ↔ ∃ conn, .readCb conn ∈ events) ∧
      t = events.foldl RpcServer.callback { s with tcp := tcp } := by
  simp only [next, Option.bind_eq_bind, Option.bind_eq_some_iff, Option.pure_def,
    Option.some.injEq] at h
  obtain ⟨tcp, htcp, rfl⟩ := h
  have henabled : s.tcp.enabled a = true := by
    by_contra hne
    rw [TcpServer.next, if_neg hne] at htcp
    cases htcp
  have hstep := htcp
  rw [TcpServer.next, if_pos henabled] at hstep
  obtain ⟨events, hlog, hread⟩ := TcpServer.log_of_step hstep
  refine ⟨tcp, events, henabled, htcp, hlog, hread, ?_⟩
  rw [hlog, List.drop_left]

theorem Invariant.next {threads : Nat} {s t : RpcServer Msg} {a : RpcAction Msg}
    (H : Invariant threads s) (h : s.next a = some t) : Invariant threads t := by
  cases a with
  | register service =>
    obtain rfl := Option.some.inj h
    cases service with
    | none => exact H
    | some service =>
      exact ⟨H.tcp, H.dangling.objects, H.dangling.made, H.dangling.slot, H.dangling.invoked⟩
  | tcp a =>
    obtain ⟨tcp, events, -, htcp, hlog, -, rfl⟩ := next_tcp h
    obtain ⟨as, hrun⟩ := H.tcp
    have hdangling : Dangling { s with tcp := tcp } s.tcp.log :=
      ⟨H.dangling.objects, H.dangling.made, H.dangling.slot, H.dangling.invoked⟩
    refine ⟨⟨as ++ [a], ?_⟩, ?_⟩
    · rw [run_concat, hrun, (tcp_services_callbacks _ _).1]
      exact htcp
    · rw [(tcp_services_callbacks _ _).1, hlog]
      exact hdangling.callbacks events

theorem Invariant.of_run {threads : Nat} {s : RpcServer Msg} {actions : List (RpcAction Msg)}
    (h : run RpcServer.next (RpcServer.new threads) actions = some s) : Invariant threads s :=
  run_invariant (fun _ _ _ H hst => Invariant.next H hst) (Invariant.new threads) h

/-- A connection that is read was set up, so that the read callback is set. -/
theorem Invariant.readCb_ne_none {threads : Nat} (H : Invariant threads s) {bev : Ptr}
    {e : BufferEvent} (he : s.tcp.bevs bev = some e) :
    ∃ address o, s.readCb = some address ∧ s.channels[address]? = some o ∧ o.alive = false ∧
      o.channel = .new o.madeFor := by
  obtain ⟨conns, Htcp⟩ := TcpServer.Invariant.of_reachable H.tcp
  exact H.dangling.exists_handler (Htcp.logged.connected_of_bevs bev e he)

theorem exists_bev_of_isRead {tcp : TcpServer} {a : TcpAction} (h : tcp.enabled a = true)
    (hread : a.isRead = true) : ∃ bev e, tcp.bevs bev = some e := by
  cases a with
  | read bev => exact ⟨bev, TcpServer.exists_bev_of_live h⟩
  | readError bev => exact ⟨bev, TcpServer.exists_bev_of_live h⟩
  | accept | notify | write | event | quit => cases hread

/-- A run invokes no channel exactly when it reads nothing. -/
theorem invoked_eq_nil_iff {threads : Nat} {s : RpcServer Msg} {actions : List (RpcAction Msg)}
    (h : run RpcServer.next (RpcServer.new threads) actions = some s) :
    s.invoked = [] ↔ ∀ a, .tcp a ∈ actions → a.isRead = false := by
  -- The induction is on the run from its end, where the state before the last action is known.
  induction actions using List.reverseRecOn generalizing s with
  | nil =>
    obtain rfl := Option.some.inj h
    simp [RpcServer.new]
  | append_singleton actions a ih =>
    rw [run_concat] at h
    obtain ⟨u, hu, hst⟩ := Option.bind_eq_some_iff.mp h
    have ih := ih hu
    cases a with
    | register service =>
      have hinvoked : s.invoked = u.invoked := by
        obtain rfl := Option.some.inj hst
        cases service <;> rfl
      rw [hinvoked, ih]
      simp
    | tcp a =>
      obtain ⟨tcp, events, henabled, -, -, hread, rfl⟩ := next_tcp hst
      by_cases ha : a.isRead = true
      · obtain ⟨bev, e, he⟩ := exists_bev_of_isRead henabled ha
        obtain ⟨address, -, hcb, -⟩ := (Invariant.of_run hu).readCb_ne_none he
        have hne := invoked_callbacks_ne_nil (s := { u with tcp := tcp }) (by simp [hcb])
          (Or.inr (hread.mp ha))
        refine iff_of_false hne fun hall => ?_
        rw [hall a (by simp)] at ha
        cases ha
      · have hnot : ∀ conn, .readCb conn ∉ events := fun conn hmem => ha (hread.mpr ⟨conn, hmem⟩)
        rw [invoked_callbacks_of_notMem _ hnot, ih]
        simp only [List.mem_append, List.mem_singleton, RpcAction.tcp.injEq]
        refine ⟨fun hall b hb => ?_, fun hall b hb => hall b (Or.inl hb)⟩
        rcases hb with hb | rfl
        · exact hall b hb
        · simpa using ha

/-- **Connections are served by their own channels as long as nothing is read.** In a run of the
server, every call of `onMessage` is on the channel of its connection, alive and bound to it,
exactly when the run has no read event. -/
theorem own_iff_noRead {threads : Nat} {s : RpcServer Msg} {actions : List (RpcAction Msg)}
    (h : run RpcServer.next (RpcServer.new threads) actions = some s) :
    (∀ i ∈ s.invoked, i.Own) ↔ ∀ a, .tcp a ∈ actions → a.isRead = false := by
  rw [← invoked_eq_nil_iff h]
  constructor
  · intro hown
    rw [List.eq_nil_iff_forall_not_mem]
    intro i hi
    obtain ⟨o, ho, hdead⟩ := (Invariant.of_run h).dangling.invoked i hi
    obtain ⟨o', ho', -, halive, -⟩ := hown i hi
    rw [ho] at ho'
    cases ho'
    rw [hdead] at halive
    cases halive
  · intro hnil
    simp [hnil]

/-- Two connections, and a read on the first. -/
def crossedRun : List (RpcAction Bytes) :=
  [.register (some testMessage), .tcp (.accept 5), .tcp (.notify 0), .tcp (.accept 6),
    .tcp (.notify 1), .tcp (.read 4)]

theorem exists_read_crossedRun :
    ∃ s, run RpcServer.next (RpcServer.new 2) crossedRun = some s ∧
      .tcp (.read 4) ∈ crossedRun ∧ ¬ ∀ i ∈ s.invoked, i.Own := by
  obtain ⟨s, hs⟩ := Option.isSome_iff_exists.mp (by decide +kernel :
    (run RpcServer.next (RpcServer.new 2) crossedRun).isSome = true)
  refine ⟨s, hs, by simp [crossedRun], fun hown => ?_⟩
  cases (own_iff_noRead hs).mp hown (.read 4) (by simp [crossedRun])

/-- The read on the first of two connections calls `onMessage` on the channel of the second, which
is destroyed and would send the response to the second. -/
theorem not_own_crossedRun :
    ∃ (s : RpcServer Bytes) (i : Invocation Bytes) (o : ChannelObject Bytes),
      run RpcServer.next (RpcServer.new 2) crossedRun = some s ∧ s.invoked = [i] ∧
      i.conn = 5 ∧ i.object = some o ∧ o.madeFor = 7 ∧ o.alive = false ∧ o.channel.conn = some 7 ∧
      ¬ o.channel.RepliesTo i.conn ∧ ¬ i.Own := by
  have hobjects : (run RpcServer.next (RpcServer.new 2) crossedRun).map (fun s =>
      s.invoked.map fun i => i.object.map fun o => (o.madeFor, o.alive)) =
        some [some (7, false)] := by
    decide +kernel
  have hconns : (run RpcServer.next (RpcServer.new 2) crossedRun).map (fun s =>
      s.invoked.map fun i => (i.conn, i.object.bind fun o => o.channel.conn)) =
        some [(5, some 7)] := by
    decide +kernel
  obtain ⟨s, hs, hinvoked⟩ := Option.map_eq_some_iff.mp hobjects
  obtain ⟨i, rest, hi, hobject, hrest⟩ := List.map_eq_cons_iff.mp hinvoked
  obtain rfl := List.map_eq_nil_iff.mp hrest
  obtain ⟨o, ho, hfields⟩ := Option.map_eq_some_iff.mp hobject
  obtain ⟨hmade, halive⟩ := Prod.mk.inj hfields
  obtain ⟨hconn, hbound⟩ : i.conn = 5 ∧ o.channel.conn = some 7 := by
    simpa [hs, hi, ho] using hconns
  refine ⟨s, i, o, hs, hi, hconn, ho, hmade, halive, hbound, ?_, ?_⟩
  · rw [RpcChannel.repliesTo_iff, hbound, hconn]
    decide
  · rintro ⟨o', ho', -, halive', -⟩
    rw [ho] at ho'
    cases ho'
    rw [halive] at halive'
    cases halive'

end RpcServer

end MRpc
