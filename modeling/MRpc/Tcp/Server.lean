import MRpc.Lib.Machine
import MRpc.Tcp.ConnQueue

/-!
# The TCP server

The callbacks of `TcpServer` (`src/tcpServer.cpp`) and the error callback of the codec, one callback
at a time. The main thread accepts connections and writes each file descriptor into the notify pipe
of a worker; the worker takes it from there, makes a bufferevent and a `Conn`, and links the `Conn`
in its queue. A connection ends in `bufferEventCb` or in `defaultErrorCallback`, which free the
`Conn` and the bufferevent in different orders.

Calls into libevent and the kernel succeed. A pipe is a queue of `int`s. Freeing a bufferevent
closes its descriptor, and nothing is called for a bufferevent that was freed. Objects on the heap
get a new address each time, so that a `Conn` that was deleted is not taken for a later one;
reaching for it, or for anything that is not there, is a fault (`none`).

The user callbacks (`connect_cb`, `read_cb`, `write_cb`, `event_cb`) leave the state of the server
alone; where they are called is an event. `main_base` has a queue too, which nothing uses.

## Main definitions

* `LibeventThread`, `BufferEvent`, `TcpServer`: the state.
* `TcpServer.acceptCb`, `TcpServer.notifyHandler`, `TcpServer.bufferReadCb`,
  `TcpServer.bufferWriteCb`, `TcpServer.bufferEventCb`, `TcpServer.defaultErrorCallback`,
  `TcpServer.quit`: the callbacks.
* `TcpAction`, `TcpServer.enabled`, `TcpServer.step`: which callback may come next.

## Main results

* `TcpServer.leastLoaded_lt`, `TcpServer.getCount_leastLoaded_le`: the loop of `acceptCb` finds a
  worker with the fewest connections.
-/

namespace MRpc

open FixedWidth

/-! ### The state -/

/-- A bufferevent: its descriptor, the argument of its callbacks, and the thread of its base. -/
structure BufferEvent where
  fd : Int
  data : Ptr
  base : Nat
  deriving DecidableEq, Repr

/-- `LibeventThread`: what waits in the notify pipe, the connections, and whether the loop of the
event base runs. -/
structure LibeventThread where
  pipe : List Int
  queue : ConnQueue
  looping : Bool
  deriving DecidableEq, Repr

/-- What the callbacks do, in order. -/
inductive TcpEvent
  /-- `acceptCb` writes a descriptor to the pipe of a worker. -/
  | handed (fd : Int) (thread : Nat)
  /-- A `Conn` and its bufferevent are set up, and `connect_cb` is called. -/
  | connected (conn bev : Ptr)
  /-- A callback of a bufferevent is called with this `Conn`. -/
  | fired (bev conn : Ptr)
  | readCb (conn : Ptr)
  | writeCb (conn : Ptr)
  | eventCb (conn : Ptr)
  | deleteConn (conn : Ptr)
  | freeBufferevent (bev : Ptr)
  deriving DecidableEq, Repr

/-- The server, the heap and the open descriptors, and what has happened. -/
structure TcpServer where
  /-- The workers; `thread_count` is their number. -/
  threads : List LibeventThread
  heap : ConnHeap
  /-- The bufferevents that are allocated. -/
  bevs : Ptr → Option BufferEvent
  /-- The next address. -/
  fresh : Nat
  /-- The descriptors that were accepted and not closed. -/
  openFds : List Int
  log : List TcpEvent

/-- `EXIT_CODE`. -/
def exitCode : Int := -1

namespace TcpServer

/-- One more worker, with an empty queue. -/
def addThread (s : TcpServer) : TcpServer :=
  let (heap, queue) := ConnQueue.new s.heap s.fresh (s.fresh + 1)
  { s with
    threads := s.threads ++ [⟨[], queue, true⟩]
    heap := heap
    fresh := s.fresh + 2 }

/-- A server with `count` workers that has accepted nothing. -/
def new : Nat → TcpServer
  | 0 => ⟨[], fun _ => none, fun _ => none, 0, [], []⟩
  | count + 1 => (new count).addThread

/-- `threads[i].connect_queue.getCount()`. -/
def getCount (s : TcpServer) (i : Nat) : Nat :=
  match s.threads[i]? with
  | none => 0
  | some t => t.queue.total

/-! ### The callbacks -/

/-- The loop of `acceptCb`. -/
def leastLoaded (s : TcpServer) : Nat :=
  (List.range s.threads.length).foldl
    (fun num i => if s.getCount num > s.getCount i then i else num) 0

/-- `acceptCb`. -/
def acceptCb (s : TcpServer) (fd : Int) : Option TcpServer := do
  let num := s.leastLoaded
  let t ← s.threads[num]?
  return { s with
    threads := s.threads.set num { t with pipe := t.pipe ++ [fd] }
    log := s.log ++ [.handed fd num] }

/-- `notifyHandler` on the worker `i`; reading from an empty pipe blocks. -/
def notifyHandler (s : TcpServer) (i : Nat) : Option TcpServer := do
  let t ← s.threads[i]?
  match t.pipe with
  | [] => none
  | confd :: pipe =>
    if confd = exitCode then
      return { s with threads := s.threads.set i { t with pipe := pipe, looping := false } }
    else
      let bev := s.fresh
      let conn := s.fresh + 1
      let (heap, queue) ← t.queue.insertConn s.heap confd i conn
      let heap ← heap.update (some conn) fun c => { c with bev := some bev, thread := some i }
      return { s with
        threads := s.threads.set i { t with pipe := pipe, queue := queue }
        heap := heap
        bevs := fun b => if b = bev then some ⟨confd, conn, i⟩ else s.bevs b
        fresh := s.fresh + 2
        log := s.log ++ [.connected conn bev] }

/-- `bufferevent_free`, with `BEV_OPT_CLOSE_ON_FREE`. -/
def buffereventFree (s : TcpServer) (bev : Ptr) : Option TcpServer := do
  let e ← s.bevs bev
  return { s with
    bevs := fun b => if b = bev then none else s.bevs b
    openFds := s.openFds.erase e.fd
    log := s.log ++ [.freeBufferevent bev] }

/-- `conn->getThread()->connect_queue.deleteConn(conn)`. -/
def deleteConn (s : TcpServer) (conn : Ptr) : Option TcpServer := do
  let i ← (← s.heap conn).thread
  let t ← s.threads[i]?
  let (heap, queue) ← t.queue.deleteConn s.heap conn
  return { s with
    threads := s.threads.set i { t with queue := queue }
    heap := heap
    log := s.log ++ [.deleteConn conn] }

/-- What `bufferReadCb` and `bufferWriteCb` do before they call the user. -/
def bufferCb (s : TcpServer) (bev : Ptr) (user : Ptr → TcpEvent) : Option TcpServer := do
  let conn := (← s.bevs bev).data
  let heap ← s.heap.update (some conn) fun c =>
    { c with readBuf := some bev, writeBuf := some bev }
  let _ ← (← heap conn).thread
  return { s with heap := heap, log := s.log ++ [.fired bev conn, user conn] }

/-- `bufferReadCb`. -/
def bufferReadCb (s : TcpServer) (bev : Ptr) : Option TcpServer := s.bufferCb bev .readCb

/-- `bufferWriteCb`; its arguments are never `NULL`, which it tests. -/
def bufferWriteCb (s : TcpServer) (bev : Ptr) : Option TcpServer := s.bufferCb bev .writeCb

/-- `bufferEventCb`: the `Conn` goes first, then the bufferevent. -/
def bufferEventCb (s : TcpServer) (bev : Ptr) : Option TcpServer := do
  let conn := (← s.bevs bev).data
  let _ ← (← s.heap conn).thread
  let s : TcpServer := { s with log := s.log ++ [.fired bev conn, .eventCb conn] }
  let s ← s.deleteConn conn
  s.buffereventFree bev

/-- `ProtobufCodecLite::defaultErrorCallback`: the bufferevent goes first, then the `Conn`. -/
def defaultErrorCallback (s : TcpServer) (conn : Ptr) : Option TcpServer := do
  let bev ← (← s.heap conn).bev
  let s ← s.buffereventFree bev
  s.deleteConn conn

/-- A read callback in which the codec reports an error. -/
def readError (s : TcpServer) (bev : Ptr) : Option TcpServer := do
  let conn := (← s.bevs bev).data
  let s ← s.bufferReadCb bev
  s.defaultErrorCallback conn

/-- `quit`, as far as the workers see it. -/
def quit (s : TcpServer) : TcpServer :=
  { s with threads := s.threads.map fun t => { t with pipe := t.pipe ++ [exitCode] } }

end TcpServer

/-! ### Which callback may come next -/

/-- The callbacks that libevent calls, and `quit`. -/
inductive TcpAction
  | accept (fd : Int)
  | notify (thread : Nat)
  | read (bev : Ptr)
  | write (bev : Ptr)
  | event (bev : Ptr)
  | readError (bev : Ptr)
  | quit
  deriving DecidableEq, Repr

/-- The actions in which `read_cb` is called. -/
def TcpAction.isRead : TcpAction → Bool
  | .read _ | .readError _ => true
  | .accept _ | .notify _ | .write _ | .event _ | .quit => false

namespace TcpServer

/-- A worker that runs its loop. -/
def loops (s : TcpServer) (i : Nat) : Bool := (s.threads[i]?).any fun t => t.looping

/-- A bufferevent that is allocated, on a worker that runs its loop. -/
def live (s : TcpServer) (bev : Ptr) : Bool := (s.bevs bev).any fun e => s.loops e.base

/-- What the kernel and libevent promise: a descriptor that is accepted is a non-negative `int` that
was not open, a pipe is read when there is something in it, and nothing is called for a bufferevent
that was freed. -/
def enabled (s : TcpServer) : TcpAction → Bool
  | .accept fd => 0 ≤ fd && fd < 2147483648 && !s.openFds.contains fd
  | .notify i => s.loops i && (s.threads[i]?).any fun t => !t.pipe.isEmpty
  | .read bev | .write bev | .event bev | .readError bev => s.live bev
  | .quit => true

/-- One callback; `none` is a fault. -/
def step (s : TcpServer) : TcpAction → Option TcpServer
  | .accept fd => { s with openFds := fd :: s.openFds }.acceptCb fd
  | .notify i => s.notifyHandler i
  | .read bev => s.bufferReadCb bev
  | .write bev => s.bufferWriteCb bev
  | .event bev => s.bufferEventCb bev
  | .readError bev => s.readError bev
  | .quit => some s.quit

/-- The next state, if the callback may come. -/
def next (s : TcpServer) (a : TcpAction) : Option TcpServer :=
  if s.enabled a then s.step a else none

/-! ### The choice of a worker -/

/-- The loop of `acceptCb` over any range of indices: the result is one of them or the start, and
has no more connections than any of them. -/
theorem foldl_least (s : TcpServer) (is : List Nat) (num : Nat) :
    let r := is.foldl (fun num i => if s.getCount num > s.getCount i then i else num) num
    (r = num ∨ r ∈ is) ∧ s.getCount r ≤ s.getCount num ∧ ∀ i ∈ is, s.getCount r ≤ s.getCount i := by
  induction is generalizing num with
  | nil => simp
  | cons i is ih =>
    simp only [List.foldl_cons]
    obtain ⟨hmem, hnum, hall⟩ := ih (if s.getCount num > s.getCount i then i else num)
    split_ifs at hmem hnum hall ⊢ with hlt
    · refine ⟨?_, by omega, ?_⟩
      · rcases hmem with hmem | hmem <;> simp [hmem]
      · intro j hj
        rcases List.mem_cons.mp hj with rfl | hj
        · exact hnum
        · exact hall j hj
    · refine ⟨?_, hnum, ?_⟩
      · rcases hmem with hmem | hmem <;> simp [hmem]
      · intro j hj
        rcases List.mem_cons.mp hj with rfl | hj
        · omega
        · exact hall j hj

theorem leastLoaded_lt {s : TcpServer} (h : 0 < s.threads.length) :
    s.leastLoaded < s.threads.length := by
  rcases (s.foldl_least (List.range s.threads.length) 0).1 with hr | hr
  · rw [leastLoaded, hr]
    exact h
  · exact List.mem_range.mp hr

theorem getCount_leastLoaded_le {s : TcpServer} {i : Nat} (h : i < s.threads.length) :
    s.getCount s.leastLoaded ≤ s.getCount i :=
  (s.foldl_least (List.range s.threads.length) 0).2.2 i (List.mem_range.mpr h)

/-! ### What a callback adds to the history -/

theorem log_of_buffereventFree {s t : TcpServer} {bev : Ptr} (h : s.buffereventFree bev = some t) :
    t.log = s.log ++ [.freeBufferevent bev] := by
  simp only [buffereventFree, Option.bind_eq_bind, Option.bind_eq_some_iff, Option.pure_def,
    Option.some.injEq] at h
  obtain ⟨e, -, rfl⟩ := h
  rfl

theorem log_of_deleteConn {s t : TcpServer} {conn : Ptr} (h : s.deleteConn conn = some t) :
    t.log = s.log ++ [.deleteConn conn] := by
  simp only [deleteConn, Option.bind_eq_bind, Option.bind_eq_some_iff, Option.pure_def,
    Option.some.injEq] at h
  obtain ⟨c, -, i, -, u, -, r, -, rfl⟩ := h
  rfl

theorem log_of_bufferCb {s t : TcpServer} {bev : Ptr} {user : Ptr → TcpEvent}
    (h : s.bufferCb bev user = some t) :
    ∃ conn, t.log = s.log ++ [.fired bev conn, user conn] := by
  simp only [bufferCb, Option.bind_eq_bind, Option.bind_eq_some_iff, Option.pure_def,
    Option.some.injEq] at h
  obtain ⟨e, -, heap, -, c, -, i, -, rfl⟩ := h
  exact ⟨e.data, rfl⟩

/-- `bufferEventCb` up to the deletions that it makes. -/
theorem exists_of_bufferEventCb {s t : TcpServer} {bev : Ptr} (h : s.bufferEventCb bev = some t) :
    ∃ conn u,
      TcpServer.deleteConn { s with log := s.log ++ [.fired bev conn, .eventCb conn] } conn =
        some u ∧ u.buffereventFree bev = some t := by
  simp only [bufferEventCb, Option.bind_eq_bind, Option.bind_eq_some_iff] at h
  obtain ⟨e, -, c, -, i, -, u, hdelete, hfree⟩ := h
  exact ⟨e.data, u, hdelete, hfree⟩

/-- A read callback with an error up to the deletions that it makes. -/
theorem exists_of_readError {s t : TcpServer} {bev : Ptr} (h : s.readError bev = some t) :
    ∃ u conn b v, s.bufferReadCb bev = some u ∧ u.buffereventFree b = some v ∧
      v.deleteConn conn = some t := by
  simp only [readError, defaultErrorCallback, Option.bind_eq_bind, Option.bind_eq_some_iff] at h
  obtain ⟨e, -, u, hread, c, -, b, -, v, hfree, hdelete⟩ := h
  exact ⟨u, e.data, b, v, hread, hfree, hdelete⟩

/-- What the callbacks of an action have added to the history, and that `read_cb` is called in those
that read. -/
theorem log_of_step {s t : TcpServer} {a : TcpAction} (h : s.step a = some t) :
    ∃ events, t.log = s.log ++ events ∧ (a.isRead = true ↔ ∃ conn, .readCb conn ∈ events) := by
  cases a with
  | accept fd =>
    simp only [step, acceptCb, Option.bind_eq_bind, Option.bind_eq_some_iff, Option.pure_def,
      Option.some.injEq] at h
    obtain ⟨u, -, rfl⟩ := h
    exact ⟨_, rfl, by simp [TcpAction.isRead]⟩
  | notify i =>
    simp only [step, notifyHandler, Option.bind_eq_bind, Option.bind_eq_some_iff] at h
    obtain ⟨u, -, h⟩ := h
    split at h
    · cases h
    · split_ifs at h
      · obtain rfl := Option.some.inj h
        exact ⟨[], by simp, by simp [TcpAction.isRead]⟩
      · simp only [Option.bind_eq_some_iff, Option.pure_def, Option.some.injEq] at h
        obtain ⟨r, -, heap, -, rfl⟩ := h
        exact ⟨_, rfl, by simp [TcpAction.isRead]⟩
  | read bev =>
    obtain ⟨conn, hlog⟩ := log_of_bufferCb h
    exact ⟨_, hlog, by simp [TcpAction.isRead]⟩
  | write bev =>
    obtain ⟨conn, hlog⟩ := log_of_bufferCb h
    exact ⟨_, hlog, by simp [TcpAction.isRead]⟩
  | event bev =>
    obtain ⟨conn, u, hdelete, hfree⟩ := exists_of_bufferEventCb h
    refine ⟨[.fired bev conn, .eventCb conn, .deleteConn conn, .freeBufferevent bev], ?_,
      by simp [TcpAction.isRead]⟩
    rw [log_of_buffereventFree hfree, log_of_deleteConn hdelete]
    simp
  | readError bev =>
    obtain ⟨u, deleted, b, v, hread, hfree, hdelete⟩ := exists_of_readError h
    obtain ⟨conn, hlog⟩ := log_of_bufferCb hread
    refine ⟨[.fired bev conn, .readCb conn, .freeBufferevent b, .deleteConn deleted], ?_,
      by simp [TcpAction.isRead]⟩
    rw [log_of_deleteConn hdelete, log_of_buffereventFree hfree, hlog]
    simp
  | quit =>
    obtain rfl := Option.some.inj h
    exact ⟨[], by simp [quit], by simp [TcpAction.isRead]⟩

end TcpServer

end MRpc
