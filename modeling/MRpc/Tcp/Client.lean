import MRpc.Tcp.Server
import Mathlib.Logic.Function.Iterate

/-!
# The TCP client

`TcpClient` of `src/tcpClient.cpp`, one callback at a time. A client has one connection, its member
`conn_`, which no queue links, and one bufferevent, which `startRun` makes. Five places pass the
bufferevent to `bufferevent_free`: `startRun` where connecting fails at once, `bufferEventCb`,
`quit`, the destructor through `quit`, and the error callback of the codec. None of them resets
`conn_.bev`.

The calls of `bufferevent_free` are recorded with what was allocated when they were made. A call
that is not proper has no defined meaning; here it changes nothing, and the run goes on. A fault
ends the process.

A client serves `quit` calls of the user at any time, also inside the callbacks, where their number
is a parameter. Whether the codec reports an error on what was read is a parameter as well.

## Main definitions

* `TcpClient`, with its callbacks.
* `ClientAction`, `TcpClient.enabled`, `TcpClient.next`: which of them may come next.
* `TcpClient.ReleasedOnce`: every call of `bufferevent_free` was proper.
* `TcpClient.Stable`: the properties that every callback preserves because its parts do.

## Main results

* `TcpClient.Stable.step`, `TcpClient.Stable.of_reachable`: the rule for such properties.
* `TcpClient.Unlinked.of_reachable`: no queue ever links `conn_`.
* `TcpClient.Live.step`, `TcpClient.Spoiled.step`: what an action does to a client whose bufferevent
  is allocated, and to one that cannot end well any more.
* `TcpClient.releasedOnce_iff`: the runs in which every call is proper.
-/

namespace MRpc

open FixedWidth

/-! ### The events of a bufferevent -/

/-- `BEV_EVENT_READING`. -/
def bevEventReading : UInt16 := 0x01

/-- `BEV_EVENT_WRITING`. -/
def bevEventWriting : UInt16 := 0x02

/-- `BEV_EVENT_EOF`. -/
def bevEventEof : UInt16 := 0x10

/-- `BEV_EVENT_ERROR`. -/
def bevEventError : UInt16 := 0x20

/-- `BEV_EVENT_TIMEOUT`. -/
def bevEventTimeout : UInt16 := 0x40

/-- `BEV_EVENT_CONNECTED`. -/
def bevEventConnected : UInt16 := 0x80

/-- The events for which `bufferEventCb` returns early; the other branches only log. -/
def connects (events : UInt16) : Bool :=
  if events &&& bevEventEof ≠ 0 then false
  else if events &&& bevEventReading ≠ 0 then false
  else if events &&& bevEventWriting ≠ 0 then false
  else if events &&& bevEventTimeout ≠ 0 then false
  else if events &&& bevEventError ≠ 0 then false
  else if events &&& bevEventConnected ≠ 0 then true
  else false

/-! ### The state -/

/-- A call of `bufferevent_free`: the argument, `conn_.bev` at the time of the call, and whether the
argument was allocated. -/
structure FreeCall where
  bev : Option Ptr
  connBev : Option Ptr
  allocated : Bool
  deriving DecidableEq, Repr

/-- The call frees `conn_.bev`, which is allocated. -/
def FreeCall.proper (f : FreeCall) : Bool := f.allocated && f.bev == f.connBev

/-- How far `startRun` comes. -/
inductive StartOutcome
  /-- `inet_pton` does not accept the address. -/
  | badAddress
  | noBufferevent
  /-- `bufferevent_socket_connect` fails. Where it reports that to `bufferEventCb` before it
  returns, `event_cb` calls `quit` this often. -/
  | refused (reported : Option Nat)
  | connecting (fd : Int)
  deriving DecidableEq, Repr

/-- The client and the bufferevents that are allocated, and what has been freed. -/
structure TcpClient where
  heap : ConnHeap
  /-- `main_base.connect_queue`. -/
  queue : ConnQueue
  /-- The address of the member `conn_`. -/
  conn : Ptr
  bevs : Ptr → Option BufferEvent
  /-- The next address. -/
  fresh : Nat
  started : Bool
  /-- The destructor has returned, or the process has died. -/
  ended : Bool
  frees : List FreeCall

namespace TcpClient

/-- The constructor: `main_base` has an empty queue, and `conn_` is its own `Conn`. -/
def new : TcpClient :=
  let (heap, queue) := ConnQueue.new (fun _ => none) 0 1
  ⟨heap.set 2 (some { Conn.new 0 with thread := some 0 }), queue, 2, fun _ => none, 3, false, false,
    []⟩

/-- `conn_.bev`. -/
def connBev (s : TcpClient) : Option Ptr := (s.heap s.conn).bind fun c => c.bev

/-- An assignment to fields of `conn_`. -/
def setConn (s : TcpClient) (f : Conn → Conn) : TcpClient :=
  { s with heap := s.heap.set s.conn ((s.heap s.conn).map f) }

/-! ### The callbacks -/

/-- `bufferevent_free`. -/
def buffereventFree (s : TcpClient) (bev : Option Ptr) : TcpClient :=
  { s with
    bevs := fun b => if some b = bev then none else s.bevs b
    frees := s.frees ++ [⟨bev, s.connBev, (bev.bind s.bevs).isSome⟩] }

/-- `quit`, without the call of `event_base_loopexit`. -/
def quit (s : TcpClient) : TcpClient := s.buffereventFree s.connBev

/-- `bufferEventCb`; `connect_cb` or `event_cb` calls `quit` this often. -/
def bufferEventCb (s : TcpClient) (bev : Ptr) (events : UInt16) (quits : Nat) : TcpClient :=
  if connects events then
    let fd := ((s.bevs bev).map fun e => e.fd).getD (-1)
    quit^[quits] (s.setConn fun c => { c with fd := fd, readBuf := some bev, writeBuf := some bev })
  else
    (quit^[quits] s).buffereventFree (some bev)

/-- `conn_.bev = bufferevent_socket_new(..)`, and the descriptor that the bufferevent gets when it
is connected. -/
def buffereventSocketNew (s : TcpClient) (fd : Int) : TcpClient :=
  { s.setConn fun c => { c with bev := some s.fresh } with
    bevs := fun b => if b = s.fresh then some ⟨fd, s.conn, 0⟩ else s.bevs b
    fresh := s.fresh + 1
    started := true }

/-- `startRun`, up to the loop. The first two outcomes are exceptions. -/
def startRun (s : TcpClient) : StartOutcome → TcpClient
  | .badAddress => { s with started := true }
  | .noBufferevent => { s.setConn fun c => { c with bev := none } with started := true }
  | .refused none =>
    let s := s.buffereventSocketNew (-1)
    s.buffereventFree s.connBev
  | .refused (some quits) =>
    let s := (s.buffereventSocketNew (-1)).bufferEventCb s.fresh bevEventError quits
    s.buffereventFree s.connBev
  | .connecting fd => s.buffereventSocketNew fd

/-- `conn->getThread()->connect_queue.deleteConn(conn)`. -/
def deleteConn (s : TcpClient) : Option TcpClient := do
  let _ ← (← s.heap s.conn).thread
  let (heap, queue) ← s.queue.deleteConn s.heap s.conn
  return { s with heap := heap, queue := queue }

/-- `ProtobufCodecLite::defaultErrorCallback`. -/
def defaultErrorCallback (s : TcpClient) : TcpClient :=
  let s := s.buffereventFree s.connBev
  s.deleteConn.getD { s with ended := true }

/-- What `bufferReadCb` and `bufferWriteCb` do before they call the user, who calls `quit` this
often. -/
def bufferCb (s : TcpClient) (bev : Ptr) (quits : Nat) : TcpClient :=
  quit^[quits] (s.setConn fun c => { c with readBuf := some bev, writeBuf := some bev })

/-- `bufferReadCb`, where `read_cb` is `RpcChannel::onMessage`: the messages come first, with the
`quit` calls of their done callbacks, and at most one error comes last. -/
def bufferReadCb (s : TcpClient) (bev : Ptr) (quits : Nat) (error : Bool) : TcpClient :=
  let s := s.bufferCb bev quits
  if error then s.defaultErrorCallback else s

/-- `bufferWriteCb`. -/
def bufferWriteCb (s : TcpClient) (bev : Ptr) (quits : Nat) : TcpClient := s.bufferCb bev quits

/-- The destructor. -/
def destructor (s : TcpClient) : TcpClient := { s.quit with ended := true }

end TcpClient

/-! ### Which callback may come next -/

/-- What the user and libevent do with a client. -/
inductive ClientAction
  | startRun (outcome : StartOutcome)
  | event (bev : Ptr) (events : UInt16) (quits : Nat)
  | read (bev : Ptr) (quits : Nat) (error : Bool)
  | write (bev : Ptr) (quits : Nat)
  | quit
  | destructor
  deriving DecidableEq, Repr

namespace ClientAction

/-- The actions of libevent in which nothing is freed. -/
def harmless : ClientAction → Bool
  | .event _ events quits => connects events && quits == 0
  | .read _ quits error => quits == 0 && !error
  | .write _ quits => quits == 0
  | .startRun _ | .quit | .destructor => false

/-- The actions that free once and end the process or the client. -/
def final : ClientAction → Bool
  | .destructor => true
  | .read _ quits error => quits == 0 && error
  | .startRun _ | .event .. | .write .. | .quit => false

end ClientAction

namespace TcpClient

/-- `startRun` is called at most once, nothing is called for a bufferevent that is not allocated,
and nothing happens after the end. -/
def enabled (s : TcpClient) : ClientAction → Bool
  | .startRun _ => !s.ended && !s.started
  | .event bev .. | .read bev .. | .write bev .. => !s.ended && (s.bevs bev).isSome
  | .quit | .destructor => !s.ended

/-- One call. -/
def step (s : TcpClient) : ClientAction → TcpClient
  | .startRun outcome => s.startRun outcome
  | .event bev events quits => s.bufferEventCb bev events quits
  | .read bev quits error => s.bufferReadCb bev quits error
  | .write bev quits => s.bufferWriteCb bev quits
  | .quit => s.quit
  | .destructor => s.destructor

/-- The next state, if the call may come. -/
def next (s : TcpClient) (a : ClientAction) : Option TcpClient :=
  if s.enabled a then some (s.step a) else none

/-- Every call of `bufferevent_free` got `conn_.bev` while it was allocated, and none of them got
`NULL` or what another one got. -/
def ReleasedOnce (s : TcpClient) : Prop :=
  (∀ f ∈ s.frees, f.proper = true) ∧ none ∉ s.frees.map FreeCall.bev ∧
    (s.frees.map FreeCall.bev).Nodup

/-! ### What the callbacks preserve -/

/-- The parts that the callbacks are made of preserve `P`: assignments to `conn_` that leave its
links alone, `bufferevent_free` and `deleteConn`; and `P` does not depend on the rest of the
state. -/
structure Stable (P : TcpClient → Prop) : Prop where
  setConn : ∀ (s : TcpClient) (f : Conn → Conn), (∀ c, (f c).pre = c.pre) → P s → P (s.setConn f)
  buffereventFree : ∀ (s : TcpClient) (bev : Option Ptr), P s → P (s.buffereventFree bev)
  deleteConn : ∀ s t : TcpClient, P s → s.deleteConn = some t → P t
  congr : ∀ s t : TcpClient, t.heap = s.heap → t.conn = s.conn → t.frees = s.frees → P s → P t

section Stable

variable {P : TcpClient → Prop} {s t : TcpClient}

theorem Stable.quits (S : Stable P) (H : P s) (n : Nat) : P (quit^[n] s) := by
  induction n generalizing s with
  | zero => exact H
  | succ n ih => exact ih (S.buffereventFree s s.connBev H)

theorem Stable.bufferCb (S : Stable P) (H : P s) (bev : Ptr) (quits : Nat) :
    P (s.bufferCb bev quits) :=
  S.quits (S.setConn s _ (by simp) H) quits

theorem Stable.bufferEventCb (S : Stable P) (H : P s) (bev : Ptr) (events : UInt16) (quits : Nat) :
    P (s.bufferEventCb bev events quits) := by
  rw [TcpClient.bufferEventCb]
  split
  · exact S.quits (S.setConn s _ (by simp) H) quits
  · exact S.buffereventFree _ _ (S.quits H quits)

theorem Stable.buffereventSocketNew (S : Stable P) (H : P s) (fd : Int) :
    P (s.buffereventSocketNew fd) :=
  S.congr (s.setConn fun c => { c with bev := some s.fresh }) _ rfl rfl rfl
    (S.setConn s _ (by simp) H)

theorem Stable.startRun (S : Stable P) (H : P s) (outcome : StartOutcome) :
    P (s.startRun outcome) := by
  cases outcome with
  | badAddress => exact S.congr s _ rfl rfl rfl H
  | noBufferevent =>
    exact S.congr (s.setConn fun c => { c with bev := none }) _ rfl rfl rfl
      (S.setConn s _ (by simp) H)
  | connecting fd => exact S.buffereventSocketNew H fd
  | refused reported =>
    have hnew := S.buffereventSocketNew H (-1)
    cases reported with
    | none => exact S.buffereventFree _ _ hnew
    | some quits => exact S.buffereventFree _ _ (S.bufferEventCb hnew s.fresh bevEventError quits)

theorem Stable.defaultErrorCallback (S : Stable P) (H : P (s.buffereventFree s.connBev)) :
    P s.defaultErrorCallback := by
  cases hdelete : (s.buffereventFree s.connBev).deleteConn with
  | none =>
    rw [TcpClient.defaultErrorCallback, hdelete, Option.getD_none]
    exact S.congr (s.buffereventFree s.connBev) _ rfl rfl rfl H
  | some t =>
    rw [TcpClient.defaultErrorCallback, hdelete, Option.getD_some]
    exact S.deleteConn _ t H hdelete

/-- **What the parts preserve, the callbacks preserve.** -/
theorem Stable.step (S : Stable P) (H : P s) (a : ClientAction) : P (s.step a) := by
  cases a with
  | startRun outcome => exact S.startRun H outcome
  | event bev events quits => exact S.bufferEventCb H bev events quits
  | read bev quits error =>
    cases error with
    | false => exact S.bufferCb H bev quits
    | true => exact S.defaultErrorCallback (S.buffereventFree _ _ (S.bufferCb H bev quits))
  | write bev quits => exact S.bufferCb H bev quits
  | quit => exact S.buffereventFree s _ H
  | destructor => exact S.congr s.quit _ rfl rfl rfl (S.buffereventFree s _ H)

theorem step_of_next {a : ClientAction} (h : s.next a = some t) :
    s.enabled a = true ∧ s.step a = t := by
  rw [next] at h
  split at h
  · exact ⟨‹_›, Option.some.inj h⟩
  · cases h

theorem Stable.of_reachable (S : Stable P) (hnew : P new) (h : Machine.Reachable next new s) :
    P s := by
  refine h.invariant (fun s a t H hstep => ?_) hnew
  obtain ⟨-, rfl⟩ := step_of_next hstep
  exact S.step H a

theorem frees_of_deleteConn (h : s.deleteConn = some t) : t.frees = s.frees ∧ t.conn = s.conn := by
  simp only [deleteConn, Option.bind_eq_bind, Option.bind_eq_some_iff, Option.pure_def,
    Option.some.injEq] at h
  obtain ⟨c, -, i, -, r, -, rfl⟩ := h
  exact ⟨rfl, rfl⟩

end Stable

/-! ### The connection of a client -/

/-- `conn_` has no neighbour before it. -/
def Unlinked (s : TcpClient) : Prop := ∀ c, s.heap s.conn = some c → c.pre = none

variable {s t : TcpClient} {b : Ptr}

theorem Unlinked.setConn (H : s.Unlinked) {f : Conn → Conn} (hf : ∀ c, (f c).pre = c.pre) :
    (s.setConn f).Unlinked := by
  intro c hc
  obtain ⟨d, hd, rfl⟩ := Option.map_eq_some_iff.mp ((ConnHeap.set_self _).symm.trans hc)
  rw [hf d]
  exact H d hd

/-- `deleteConn` writes to the neighbours. -/
theorem Unlinked.deleteConn (H : s.Unlinked) : s.deleteConn = none := by
  cases hc : s.heap s.conn with
  | none => simp [TcpClient.deleteConn, hc]
  | some c =>
    simp [TcpClient.deleteConn, hc, ConnQueue.deleteConn, ConnHeap.update, H c hc]

theorem stable_unlinked : Stable Unlinked where
  setConn _ _ hf H := H.setConn hf
  buffereventFree _ _ H := H
  deleteConn s t H h := by
    rw [H.deleteConn] at h
    cases h
  congr s t hheap hconn _ H := by
    intro c hc
    rw [hheap, hconn] at hc
    exact H c hc

theorem stable_conn (p : Ptr) : Stable fun s => s.conn = p where
  setConn _ _ _ H := H
  buffereventFree _ _ H := H
  deleteConn _ _ H h := (frees_of_deleteConn h).2.trans H
  congr _ _ _ hconn _ H := hconn.trans H

/-- The error callback frees the bufferevent and dies. -/
theorem Unlinked.defaultErrorCallback (H : s.Unlinked) :
    s.defaultErrorCallback = { s.buffereventFree s.connBev with ended := true } := by
  have hunlinked := stable_unlinked.buffereventFree s s.connBev H
  rw [TcpClient.defaultErrorCallback, hunlinked.deleteConn, Option.getD_none]

theorem unlinked_new : new.Unlinked := by
  intro c hc
  obtain rfl := Option.some.inj hc
  rfl

/-- **No queue ever links the connection of a client.** -/
theorem Unlinked.of_reachable (h : Machine.Reachable next new s) : s.Unlinked :=
  stable_unlinked.of_reachable unlinked_new h

/-! ### Clients that cannot end well -/

/-- A call of `bufferevent_free` was not proper. -/
def Tainted (s : TcpClient) : Prop := ∃ f ∈ s.frees, f.proper = false

/-- No bufferevent is allocated or will be, and the destructor is still to come. -/
structure Spent (s : TcpClient) : Prop where
  bevs : ∀ p, s.bevs p = none
  started : s.started = true
  ended : s.ended = false

/-- The client cannot end without a call of `bufferevent_free` that is not proper. -/
def Spoiled (s : TcpClient) : Prop := s.Tainted ∨ s.Spent

theorem Tainted.of_frees (H : s.Tainted) (h : s.frees <+: t.frees) : t.Tainted := by
  obtain ⟨f, hf, hproper⟩ := H
  exact ⟨f, h.subset hf, hproper⟩

/-- What was freed stays freed. -/
theorem stable_tainted : Stable Tainted where
  setConn _ _ _ H := H
  buffereventFree _ _ H := H.of_frees (List.prefix_append _ _)
  deleteConn _ _ H h := H.of_frees ((frees_of_deleteConn h).1 ▸ List.prefix_rfl)
  congr _ _ _ _ hfrees H := H.of_frees (hfrees ▸ List.prefix_rfl)

theorem Spent.buffereventFree (H : s.Spent) (bev : Option Ptr) :
    (s.buffereventFree bev).Tainted := by
  refine ⟨⟨bev, s.connBev, (bev.bind s.bevs).isSome⟩, by simp [TcpClient.buffereventFree], ?_⟩
  cases bev <;> simp [FreeCall.proper, H.bevs]

theorem Spoiled.buffereventFree (H : s.Spoiled) (bev : Option Ptr) :
    (s.buffereventFree bev).Tainted :=
  H.elim (stable_tainted.buffereventFree s bev) fun h => h.buffereventFree bev

theorem Spoiled.quits (H : s.Spoiled) (n : Nat) : (quit^[n] s).Spoiled := by
  cases n with
  | zero => exact H
  | succ n => exact .inl (stable_tainted.quits (H.buffereventFree _) n)

theorem Spoiled.defaultErrorCallback (H : s.Spoiled) : s.defaultErrorCallback.Tainted :=
  stable_tainted.defaultErrorCallback (H.buffereventFree s.connBev)

/-- **A client that cannot end well stays so.** -/
theorem Spoiled.step {a : ClientAction} (H : s.Spoiled) (h : s.next a = some t) : t.Spoiled := by
  obtain ⟨henabled, rfl⟩ := step_of_next h
  rcases H with H | H
  · exact .inl (stable_tainted.step H a)
  · cases a with
    | startRun outcome => simp [enabled, H.started] at henabled
    | event bev events quits => simp [enabled, H.bevs] at henabled
    | read bev quits error => simp [enabled, H.bevs] at henabled
    | write bev quits => simp [enabled, H.bevs] at henabled
    | quit => exact .inl (H.buffereventFree _)
    | destructor => exact .inl (H.buffereventFree _)

theorem Spoiled.not_releasedOnce (H : s.Spoiled) (hended : s.ended = true) : ¬ s.ReleasedOnce := by
  rintro ⟨hproper, -⟩
  rcases H with ⟨f, hf, hnot⟩ | H
  · simp [hproper f hf] at hnot
  · simp [H.ended] at hended

/-! ### Clients whose bufferevent is allocated -/

/-- The bufferevent `b` of `conn_` is the only one, and no queue links `conn_`. -/
structure Live (s : TcpClient) (b : Ptr) : Prop where
  bevs : ∀ p, (s.bevs p).isSome = true ↔ p = b
  connBev : s.connBev = some b
  unlinked : s.Unlinked
  frees : s.frees = []
  started : s.started = true
  ended : s.ended = false

theorem Live.setConn (H : s.Live b) {f : Conn → Conn}
    (hf : ∀ c, (f c).bev = c.bev ∧ (f c).pre = c.pre) : (s.setConn f).Live b where
  bevs := H.bevs
  connBev := by
    have hbev := H.connBev
    cases hc : s.heap s.conn with
    | none => simp [TcpClient.connBev, hc] at hbev
    | some c => simpa [TcpClient.connBev, TcpClient.setConn, hc, (hf c).1] using hbev
  unlinked := H.unlinked.setConn fun c => (hf c).2
  frees := H.frees
  started := H.started
  ended := H.ended

theorem Live.frees_buffereventFree (H : s.Live b) :
    (s.buffereventFree (some b)).frees = [⟨some b, some b, true⟩] := by
  simp [TcpClient.buffereventFree, H.frees, H.connBev, H.bevs]

theorem Live.buffereventFree (H : s.Live b) : (s.buffereventFree (some b)).Spent where
  bevs := by
    intro p
    by_cases hp : p = b
    · simp [TcpClient.buffereventFree, hp]
    · have hnone : (s.bevs p).isSome ≠ true := fun h => hp ((H.bevs p).mp h)
      simpa [TcpClient.buffereventFree, hp] using hnone
  started := H.started
  ended := H.ended

theorem Live.quit (H : s.Live b) : s.quit.Spent := by
  rw [TcpClient.quit, H.connBev]
  exact H.buffereventFree

theorem Live.quits (H : s.Live b) {n : Nat} (hn : n ≠ 0) : (TcpClient.quit^[n] s).Spoiled := by
  obtain ⟨n, rfl⟩ := Nat.exists_eq_succ_of_ne_zero hn
  exact Spoiled.quits (.inr H.quit) n

/-- A state that has ended with one proper call. -/
theorem releasedOnce_of_frees (h : s.frees = [⟨some b, some b, true⟩]) : s.ReleasedOnce := by
  simp [ReleasedOnce, h, FreeCall.proper]

theorem Live.destructor (H : s.Live b) : s.destructor.ReleasedOnce :=
  releasedOnce_of_frees (b := b) (by
    rw [← H.frees_buffereventFree, TcpClient.destructor, TcpClient.quit, H.connBev])

theorem Live.defaultErrorCallback (H : s.Live b) :
    s.defaultErrorCallback.ended = true ∧ s.defaultErrorCallback.ReleasedOnce := by
  rw [H.unlinked.defaultErrorCallback, H.connBev]
  exact ⟨rfl, releasedOnce_of_frees (b := b) H.frees_buffereventFree⟩

theorem Live.bufferCb (H : s.Live b) (bev : Ptr) {n : Nat} (hn : n ≠ 0) :
    (s.bufferCb bev n).Spoiled :=
  (H.setConn (by simp)).quits hn

theorem Live.bufferCb_zero (H : s.Live b) (bev : Ptr) : (s.bufferCb bev 0).Live b :=
  H.setConn (by simp)

theorem Live.bufferEventCb (H : s.Live b) {events : UInt16} (h : connects events = false)
    (quits : Nat) : (s.bufferEventCb b events quits).Spoiled := by
  rw [TcpClient.bufferEventCb, h, if_neg Bool.false_ne_true]
  by_cases hquits : quits = 0
  · subst hquits
    exact .inr H.buffereventFree
  · exact .inl ((H.quits hquits).buffereventFree _)

theorem Live.bufferEventCb_of_connects (H : s.Live b) {events : UInt16}
    (h : connects events = true) {quits : Nat} (hquits : quits ≠ 0) :
    (s.bufferEventCb b events quits).Spoiled := by
  rw [TcpClient.bufferEventCb, if_pos h]
  exact Live.quits (H.setConn (by simp)) hquits

theorem Live.bufferEventCb_zero (H : s.Live b) {events : UInt16} (h : connects events = true) :
    (s.bufferEventCb b events 0).Live b := by
  rw [TcpClient.bufferEventCb, if_pos h]
  exact H.setConn (by simp)

/-- **What an action does to a client whose bufferevent is allocated.** It leaves the bufferevent
alone, it ends the client with one proper call, or the client cannot end well any more. -/
theorem Live.step {a : ClientAction} (H : s.Live b) (h : s.next a = some t) :
    (a.harmless = true ∧ a.final = false ∧ t.Live b) ∨
      (a.harmless = false ∧ a.final = true ∧ t.ended = true ∧ t.ReleasedOnce) ∨
      (a.harmless = false ∧ a.final = false ∧ t.Spoiled) := by
  obtain ⟨henabled, rfl⟩ := step_of_next h
  cases a with
  | startRun outcome => simp [enabled, H.started] at henabled
  | event bev events quits =>
    obtain rfl : bev = b := by simpa [enabled, H.ended, H.bevs] using henabled
    cases hconnects : connects events with
    | false =>
      exact .inr (.inr ⟨by simp [ClientAction.harmless, hconnects], rfl,
        H.bufferEventCb hconnects quits⟩)
    | true =>
      by_cases hquits : quits = 0
      · subst hquits
        exact .inl ⟨by simp [ClientAction.harmless, hconnects], rfl,
          H.bufferEventCb_zero hconnects⟩
      · exact .inr (.inr ⟨by simp [ClientAction.harmless, hquits], rfl,
          H.bufferEventCb_of_connects hconnects hquits⟩)
  | read bev quits error =>
    by_cases hquits : quits = 0
    · subst hquits
      cases error with
      | false => exact .inl ⟨rfl, rfl, H.bufferCb_zero bev⟩
      | true => exact .inr (.inl ⟨rfl, rfl, (H.bufferCb_zero bev).defaultErrorCallback⟩)
    · refine .inr (.inr ⟨by simp [ClientAction.harmless, hquits],
        by simp [ClientAction.final, hquits], ?_⟩)
      cases error with
      | false => exact H.bufferCb bev hquits
      | true => exact .inl (H.bufferCb bev hquits).defaultErrorCallback
  | write bev quits =>
    by_cases hquits : quits = 0
    · subst hquits
      exact .inl ⟨rfl, rfl, H.bufferCb_zero bev⟩
    · exact .inr (.inr ⟨by simp [ClientAction.harmless, hquits], rfl, H.bufferCb bev hquits⟩)
  | quit => exact .inr (.inr ⟨rfl, rfl, .inr H.quit⟩)
  | destructor => exact .inr (.inl ⟨rfl, rfl, rfl, H.destructor⟩)

/-! ### Whole runs -/

theorem not_enabled_of_ended {a : ClientAction} (h : s.ended = true) : s.next a = none := by
  cases a <;> simp [next, enabled, h]

theorem run_of_ended {as : List ClientAction} (h : s.ended = true)
    (hrun : Machine.run next s as = some t) : as = [] ∧ s = t := by
  cases as with
  | nil => exact ⟨rfl, Option.some.inj hrun⟩
  | cons a as =>
    rw [Machine.run, not_enabled_of_ended h] at hrun
    cases hrun

theorem Spoiled.run {as : List ClientAction} (H : s.Spoiled) (hrun : Machine.run next s as = some t)
    (hended : t.ended = true) : ¬ t.ReleasedOnce :=
  (Machine.run_invariant (fun _ _ _ h hstep => h.step hstep) H hrun).not_releasedOnce hended

/-- The runs of a client whose bufferevent is allocated. -/
theorem Live.run {as : List ClientAction} (H : s.Live b) (hrun : Machine.run next s as = some t)
    (hended : t.ended = true) :
    t.ReleasedOnce ↔
      ∃ mid last, as = mid ++ [last] ∧ (∀ a ∈ mid, a.harmless = true) ∧ last.final = true := by
  induction as generalizing s with
  | nil =>
    obtain rfl : s = t := Option.some.inj hrun
    simp [H.ended] at hended
  | cons a as ih =>
    obtain ⟨u, hu, hrun⟩ := Option.bind_eq_some_iff.mp hrun
    rcases H.step hu with ⟨hharmless, hfinal, hlive⟩ | ⟨hharmless, hfinal, hend, hreleased⟩ |
      ⟨hharmless, hfinal, hspoiled⟩
    · rw [ih hlive hrun]
      constructor
      · rintro ⟨mid, last, rfl, hmid, hlast⟩
        exact ⟨a :: mid, last, rfl, by simpa [hharmless] using hmid, hlast⟩
      · rintro ⟨_ | ⟨a', mid⟩, last, heq, hmid, hlast⟩
        · obtain ⟨rfl, rfl⟩ := List.cons.inj heq
          simp [hfinal] at hlast
        · obtain ⟨rfl, rfl⟩ := List.cons.inj heq
          exact ⟨mid, last, rfl, fun x hx => hmid x (List.mem_cons_of_mem _ hx), hlast⟩
    · obtain ⟨rfl, rfl⟩ := run_of_ended hend hrun
      exact iff_of_true hreleased ⟨[], a, rfl, by simp, hfinal⟩
    · refine iff_of_false (hspoiled.run hrun hended) ?_
      rintro ⟨_ | ⟨a', mid⟩, last, heq, hmid, hlast⟩
      · obtain ⟨rfl, rfl⟩ := List.cons.inj heq
        simp [hfinal] at hlast
      · obtain ⟨rfl, rfl⟩ := List.cons.inj heq
        simp [hharmless] at hmid

theorem live_buffereventSocketNew (fd : Int) : (new.buffereventSocketNew fd).Live 3 where
  bevs p := by
    by_cases hp : p = 3 <;> simp [buffereventSocketNew, new, hp]
  connBev := rfl
  unlinked := stable_unlinked.buffereventSocketNew unlinked_new fd
  frees := rfl
  started := rfl
  ended := rfl

/-- Before `startRun`, `conn_.bev` is `NULL`. -/
theorem tainted_quit_new : new.quit.Tainted := ⟨⟨none, none, false⟩, by decide, rfl⟩

theorem spoiled_startRun_new {outcome : StartOutcome} (h : ∀ fd, outcome ≠ .connecting fd) :
    (new.startRun outcome).Spoiled := by
  cases outcome with
  | badAddress => exact .inr ⟨fun _ => rfl, rfl, rfl⟩
  | noBufferevent => exact .inr ⟨fun _ => rfl, rfl, rfl⟩
  | refused reported =>
    have hlive := live_buffereventSocketNew (-1)
    cases reported with
    | none => exact .inr hlive.quit
    | some quits =>
      exact .inl ((hlive.bufferEventCb (by decide) quits).buffereventFree _)
  | connecting fd => exact absurd rfl (h fd)

/-- The first action of a run. -/
theorem next_new {a : ClientAction} (h : new.next a = some t) :
    (∃ fd, a = .startRun (.connecting fd) ∧ t.Live 3) ∨
      (∀ fd, a ≠ .startRun (.connecting fd)) ∧ t.Spoiled := by
  obtain ⟨henabled, rfl⟩ := step_of_next h
  cases a with
  | startRun outcome =>
    by_cases houtcome : ∃ fd, outcome = .connecting fd
    · obtain ⟨fd, rfl⟩ := houtcome
      exact .inl ⟨fd, rfl, live_buffereventSocketNew fd⟩
    · refine .inr ⟨?_, spoiled_startRun_new fun fd heq => houtcome ⟨fd, heq⟩⟩
      rintro fd heq
      exact houtcome ⟨fd, ClientAction.startRun.inj heq⟩
  | event bev events quits => simp [enabled, new] at henabled
  | read bev quits error => simp [enabled, new] at henabled
  | write bev quits => simp [enabled, new] at henabled
  | quit => exact .inr ⟨nofun, .inl tainted_quit_new⟩
  | destructor => exact .inr ⟨nofun, .inl tainted_quit_new⟩

/-- **When the bufferevent is released properly.** In a run of a client from its constructor to its
end, every call of `bufferevent_free` gets `conn_.bev` while it is allocated exactly if the run
starts with a `startRun` that comes as far as connecting, then consists of reads, writes and
successful connections in which nobody calls `quit` and the codec reports no error, and ends with
the destructor (or in the error callback of the codec, whose second half is a fault). -/
theorem releasedOnce_iff {as : List ClientAction} (hrun : Machine.run next new as = some s)
    (hended : s.ended = true) :
    s.ReleasedOnce ↔ ∃ fd mid last, as = .startRun (.connecting fd) :: (mid ++ [last]) ∧
      (∀ a ∈ mid, a.harmless = true) ∧ last.final = true := by
  cases as with
  | nil =>
    obtain rfl : new = s := Option.some.inj hrun
    simp [new] at hended
  | cons a as =>
    obtain ⟨u, hu, hrest⟩ := Option.bind_eq_some_iff.mp hrun
    rcases next_new hu with ⟨fd, rfl, hlive⟩ | ⟨hne, hspoiled⟩
    · simp [hlive.run hrest hended]
    · refine iff_of_false (hspoiled.run hrest hended) ?_
      rintro ⟨fd, mid, last, heq, -⟩
      exact hne fd (List.cons.inj heq).1

/-- A client that connects and is destroyed. -/
theorem releasedOnce_connect_destructor :
    ∃ s, Machine.run next new
        [.startRun (.connecting 5), .event 3 bevEventConnected 0, .destructor] = some s ∧
      s.ended = true ∧ s.ReleasedOnce := by
  have hrun : ∃ s, Machine.run next new
      [.startRun (.connecting 5), .event 3 bevEventConnected 0, .destructor] = some s ∧
        s.ended = true := ⟨_, rfl, rfl⟩
  obtain ⟨s, hrun, hended⟩ := hrun
  exact ⟨s, hrun, hended, (releasedOnce_iff hrun hended).mpr
    ⟨5, [.event 3 bevEventConnected 0], .destructor, rfl, by decide, rfl⟩⟩

/-- A client whose done callback calls `quit`, as in `test/client.cpp`: the destructor frees the
bufferevent again. -/
theorem not_releasedOnce_quit_destructor :
    ∃ s, Machine.run next new
        [.startRun (.connecting 5), .event 3 bevEventConnected 0, .read 3 1 false, .destructor] =
          some s ∧
      s.ended = true ∧ s.frees = [⟨some 3, some 3, true⟩, ⟨some 3, some 3, false⟩] ∧
      ¬ s.ReleasedOnce :=
  ⟨_, rfl, rfl, by decide, fun h => absurd (h.1 ⟨some 3, some 3, false⟩ (by decide)) (by decide)⟩

end TcpClient

end MRpc
