import MRpc.Lib.Simulation
import MRpc.Tcp.Workers

/-!
# The end of the server

`~TcpServer` tells the workers to leave, and then frees them without waiting for them; with each
worker goes its queue, and with the queue every `Conn` that is still linked. A worker that still
runs its loop would go on with a base and a queue that are freed under it: nothing can be said of
that, and it counts as a fault. Once no worker runs its loop, the destructor is alone. The callbacks
have deleted the `Conn`s of the connections that have ended, and lost none on the way: a `Conn` that
is allocated is a sentinel of a queue or the argument of a bufferevent. So the destructor finds all
that are left, and each `Conn` is deleted once, by a callback or by the destructor.

Nothing frees the bufferevents of the connections that are still there. They stay allocated, their
descriptors stay open, and their callbacks would be given a `Conn` that was deleted.

The queue of `main_base`, which is always empty, is not part of the state.

## Main definitions

* `TcpServer.deleteThreads`, `TcpServer.destructor`: `delete[] threads` and `~TcpServer`.
* `TcpServer.Accounted`: every `Conn` is a sentinel or belongs to a bufferevent.

## Main results

* `TcpServer.accounted_of_step`: no callback loses a `Conn`.
* `TcpServer.deleteThreads_eq`: the destructors of the workers delete the nodes of their queues.
* `TcpServer.destructor_of_reachable`: once no worker runs its loop, the destructor deletes what the
  callbacks have left.
-/

namespace MRpc

open FixedWidth Machine

namespace TcpServer

/-! ### The destructor -/

/-- `delete[] threads`, the last worker first, with at most `n` rounds for each queue. -/
def deleteThreads (n : Nat) (h : ConnHeap) :
    List LibeventThread → Option (Option ConnQueue.Deletion)
  | [] => some (some ⟨h, none, []⟩)
  | t :: threads => match deleteThreads n h threads with
    | some (some s) =>
      (t.queue.destructor s.heap n).map
        (Option.map fun r => { r with deleted := s.deleted ++ r.deleted })
    | r => r

/-- `~TcpServer`, and the `Conn`s that it deletes. `quit` only writes into the pipes, so a worker
that runs its loop may do so while it is freed, which is a fault (`some none`). What is left in the
pipes is lost with them. -/
def destructor (s : TcpServer) (n : Nat) : Option (Option (TcpServer × List Ptr)) :=
  if s.threads.any fun t => t.looping then some none
  else
    let s := s.quit
    (deleteThreads n s.heap s.threads).map
      (Option.map fun r => ({ s with threads := [], heap := r.heap }, r.deleted))

theorem free_append (h : ConnHeap) (ps qs : List Ptr) :
    (h.free ps).free qs = h.free (ps ++ qs) := by
  funext p
  simp only [ConnHeap.free, List.mem_append]
  by_cases hp : p ∈ ps <;> by_cases hq : p ∈ qs <;> simp [hp, hq]

/-- The destructors of the workers delete the nodes of their queues, each node once. -/
theorem deleteThreads_eq {h : ConnHeap} {threads : List LibeventThread} {conns : Nat → List Ptr}
    {n : Nat}
    (hholds : ∀ (i : Nat) (t : LibeventThread), threads[i]? = some t → t.queue.Holds h (conns i))
    (hdisjoint : ∀ (i j : Nat) (p : Ptr) (t u : LibeventThread), threads[i]? = some t →
      threads[j]? = some u → p ∈ t.queue.nodes (conns i) → p ∈ u.queue.nodes (conns j) → i = j)
    (hn : ∀ (i : Nat) (t : LibeventThread), threads[i]? = some t → (conns i).length + 3 ≤ n) :
    ∃ deleted, deleteThreads n h threads = some (some ⟨h.free deleted, none, deleted⟩) ∧
      deleted.Nodup ∧ ∀ p, p ∈ deleted ↔
        ∃ (i : Nat) (t : LibeventThread), threads[i]? = some t ∧ p ∈ t.queue.nodes (conns i) := by
  induction threads generalizing conns with
  | nil => exact ⟨[], by simp [deleteThreads], List.nodup_nil, by simp⟩
  | cons t threads ih =>
    have hrest : ∀ (i : Nat) (u : LibeventThread), threads[i]? = some u →
        u.queue.Holds h ((fun i => conns (i + 1)) i) := fun i u hu => hholds (i + 1) u hu
    obtain ⟨deleted, heq, hnodup, hmem⟩ := ih hrest
      (fun i j p u v hu hv hp hq => Nat.succ.inj (hdisjoint (i + 1) (j + 1) p u v hu hv hp hq))
      (fun i u hu => hn (i + 1) u hu)
    -- The nodes of this worker are none of those that were deleted with the others.
    have hnot : ∀ p ∈ t.queue.nodes (conns 0), p ∉ deleted := by
      intro p hp hdel
      obtain ⟨i, u, hu, hpu⟩ := (hmem p).mp hdel
      have := hdisjoint 0 (i + 1) p t u rfl hu hp hpu
      omega
    have hqueue : t.queue.Holds (h.free deleted) (conns 0) :=
      (hholds 0 t rfl).congr fun p hp => by rw [ConnHeap.free, if_neg (hnot p hp)]
    refine ⟨deleted ++ t.queue.nodes (conns 0), ?_, ?_, fun p => ?_⟩
    · simp only [deleteThreads, heq]
      rw [hqueue.destructor (hn 0 t rfl), free_append]
      rfl
    · exact hnodup.append hqueue.linked.nodup fun p hdel hp => hnot p hp hdel
    · rw [List.mem_append, hmem]
      constructor
      · rintro (⟨i, u, hu, hp⟩ | hp)
        · exact ⟨i + 1, u, hu, hp⟩
        · exact ⟨0, t, rfl, hp⟩
      · rintro ⟨i, u, hu, hp⟩
        cases i with
        | zero =>
          obtain rfl := Option.some.inj hu
          exact Or.inr hp
        | succ i => exact Or.inl ⟨i, u, hu, hp⟩

/-! ### No `Conn` is lost -/

/-- The sentinels of the worker `i`. -/
def sentinels (s : TcpServer) (i : Nat) : Option (Ptr × Ptr) :=
  (s.threads[i]?).map fun t => (t.queue.head, t.queue.tail)

/-- A `Conn` that is allocated is a sentinel of a worker, or the argument of a bufferevent. -/
def Accounted (s : TcpServer) : Prop :=
  ∀ p, s.heap p ≠ none →
    (∃ i ends, s.sentinels i = some ends ∧ (p = ends.1 ∨ p = ends.2)) ∨
      ∃ bev e, s.bevs bev = some e ∧ e.data = p

/-- What does not change where `Conn`s are allocated, and does not touch sentinels and
bufferevents. -/
structure SameAllocation (s t : TcpServer) : Prop where
  heap : ∀ p, t.heap p ≠ none → s.heap p ≠ none
  sentinels : ∀ i, t.sentinels i = s.sentinels i
  bevs : t.bevs = s.bevs

variable {s t : TcpServer}

theorem SameAllocation.accounted (H : SameAllocation s t) (h : Accounted s) : Accounted t := by
  intro p hp
  simp only [H.sentinels, H.bevs]
  exact h p (H.heap p hp)

theorem ne_none_of_update {h h' : ConnHeap} {q : Option Ptr} {f : Conn → Conn}
    (hupdate : h.update q f = some h') {p : Ptr} (hp : h' p ≠ none) : h p ≠ none := by
  simp only [ConnHeap.update, Option.bind_eq_bind, Option.bind_eq_some_iff, Option.pure_def,
    Option.some.injEq] at hupdate
  obtain ⟨q, -, c, hc, rfl⟩ := hupdate
  by_cases hpq : p = q
  · rw [hpq, hc]
    exact Option.some_ne_none c
  · rwa [ConnHeap.set_of_ne hpq] at hp

theorem ne_none_of_insertConn {q q' : ConnQueue} {h h' : ConnHeap} {fd : Int} {i : Nat}
    {c p : Ptr} (hinsert : q.insertConn h fd i c = some (h', q')) (hp : h' p ≠ none) (hpc : p ≠ c) :
    h p ≠ none := by
  simp only [ConnQueue.insertConn, Option.bind_eq_bind, Option.bind_eq_some_iff, Option.pure_def,
    Option.some.injEq, Prod.mk.injEq] at hinsert
  obtain ⟨_, -, h₁, hpre, _, -, h₂, hnext, h₃, hhead, h₄, hlast, rfl, -⟩ := hinsert
  have hset := ne_none_of_update hpre (ne_none_of_update hnext (ne_none_of_update hhead
    (ne_none_of_update hlast hp)))
  rwa [ConnHeap.set_of_ne hpc] at hset

theorem ne_none_of_deleteConn {q q' : ConnQueue} {h h' : ConnHeap} {conn p : Ptr}
    (hdelete : q.deleteConn h conn = some (h', q')) (hp : h' p ≠ none) :
    p ≠ conn ∧ h p ≠ none := by
  simp only [ConnQueue.deleteConn, Option.bind_eq_bind, Option.bind_eq_some_iff, Option.pure_def,
    Option.some.injEq, Prod.mk.injEq] at hdelete
  obtain ⟨_, -, h₁, hpre, _, -, h₂, hnext, _, -, rfl, -⟩ := hdelete
  have hne : p ≠ conn := by
    rintro rfl
    exact hp (ConnHeap.set_self none)
  rw [ConnHeap.set_of_ne hne] at hp
  exact ⟨hne, ne_none_of_update hpre (ne_none_of_update hnext hp)⟩

theorem queue_of_deleteConn {q q' : ConnQueue} {h h' : ConnHeap} {conn : Ptr}
    (hdelete : q.deleteConn h conn = some (h', q')) :
    q' = { q with total := uint64 (q.total - 1) } := by
  simp only [ConnQueue.deleteConn, Option.bind_eq_bind, Option.bind_eq_some_iff, Option.pure_def,
    Option.some.injEq, Prod.mk.injEq] at hdelete
  obtain ⟨-, -, -, -, -, -, -, -, -, -, -, rfl⟩ := hdelete
  rfl

theorem sentinels_congr (h : t.threads = s.threads) (i : Nat) : t.sentinels i = s.sentinels i := by
  rw [sentinels, sentinels, h]

theorem sentinels_set {i : Nat} {u v : LibeventThread} (hu : s.threads[i]? = some u)
    (ht : t.threads = s.threads.set i v) (hhead : v.queue.head = u.queue.head)
    (htail : v.queue.tail = u.queue.tail) (j : Nat) : t.sentinels j = s.sentinels j := by
  rw [sentinels, sentinels, ht]
  exact map_getElem?_set hu (by rw [hhead, htail]) j

/-- The callbacks for reading and writing allocate nothing. -/
theorem sameAllocation_bufferCb {bev : Ptr} {user : Ptr → TcpEvent}
    (h : s.bufferCb bev user = some t) : SameAllocation s t := by
  have hthreads := threads_of_bufferCb h
  simp only [bufferCb, Option.bind_eq_bind, Option.bind_eq_some_iff, Option.pure_def,
    Option.some.injEq] at h
  obtain ⟨_, -, heap, hupdate, _, -, _, -, rfl⟩ := h
  exact ⟨fun p hp => ne_none_of_update hupdate hp, sentinels_congr hthreads, rfl⟩

/-- `deleteConn` frees this one `Conn`. -/
theorem allocation_deleteConn {conn : Ptr} (h : s.deleteConn conn = some t) :
    (∀ p, t.heap p ≠ none → p ≠ conn) ∧ SameAllocation s t := by
  simp only [deleteConn, Option.bind_eq_bind, Option.bind_eq_some_iff, Option.pure_def,
    Option.some.injEq] at h
  obtain ⟨-, -, i, -, u, hu, ⟨heap, queue⟩, hdelete, rfl⟩ := h
  refine ⟨fun p hp => (ne_none_of_deleteConn hdelete hp).1,
    fun p hp => (ne_none_of_deleteConn hdelete hp).2, fun j => ?_, rfl⟩
  obtain rfl := queue_of_deleteConn hdelete
  exact sentinels_set hu rfl (by rfl) (by rfl) j

/-- A bufferevent goes, and the `Conn` that is its argument goes with it. -/
theorem Accounted.close {bev : Ptr} {e : BufferEvent} (H : Accounted s) (he : s.bevs bev = some e)
    (hheap : ∀ p, t.heap p ≠ none → p ≠ e.data ∧ s.heap p ≠ none)
    (hsentinels : ∀ i, t.sentinels i = s.sentinels i)
    (hbevs : ∀ b, b ≠ bev → t.bevs b = s.bevs b) : Accounted t := by
  intro p hp
  obtain ⟨hne, hp⟩ := hheap p hp
  simp only [hsentinels]
  refine (H p hp).imp id ?_
  rintro ⟨b, x, hx, rfl⟩
  have hb : b ≠ bev := by
    rintro rfl
    exact hne (congrArg BufferEvent.data (Option.some.inj (hx.symm.trans he)))
  exact ⟨b, x, (hbevs b hb).trans hx, rfl⟩

/-- What `buffereventFree` leaves. -/
theorem allocation_buffereventFree {bev : Ptr} (h : s.buffereventFree bev = some t) :
    t.heap = s.heap ∧ ∀ b, b ≠ bev → t.bevs b = s.bevs b := by
  simp only [buffereventFree, Option.bind_eq_bind, Option.bind_eq_some_iff, Option.pure_def,
    Option.some.injEq] at h
  obtain ⟨-, -, rfl⟩ := h
  exact ⟨rfl, fun b hb => if_neg hb⟩

theorem Accounted.event {bev : Ptr} (H : Accounted s) (h : s.bufferEventCb bev = some t) :
    Accounted t := by
  simp only [bufferEventCb, Option.bind_eq_bind, Option.bind_eq_some_iff] at h
  obtain ⟨e, he, -, -, -, -, u, hdelete, hfree⟩ := h
  obtain ⟨hne, hsame⟩ := allocation_deleteConn hdelete
  obtain ⟨hheap, hbevs⟩ := allocation_buffereventFree hfree
  refine H.close he (fun p hp => ?_) (fun i => ?_) fun b hb => ?_
  · rw [hheap] at hp
    exact ⟨hne p hp, hsame.heap p hp⟩
  · rw [sentinels_congr (threads_of_buffereventFree hfree), hsame.sentinels]
    rfl
  · rw [hbevs b hb, hsame.bevs]

/-- The error callback frees the bufferevent that it finds in the `Conn`, which is the one that was
called. -/
theorem Accounted.readError {count : Nat} {conns : Nat → List Ptr} {bev : Ptr} (H : Accounted s)
    (I : Invariant count s conns) (h : s.readError bev = some t) : Accounted t := by
  simp only [TcpServer.readError, defaultErrorCallback, Option.bind_eq_bind,
    Option.bind_eq_some_iff] at h
  obtain ⟨e, he, u, hread, c, hc, b, hb, v, hfree, hdelete⟩ := h
  obtain ⟨heap, hread', I'⟩ := I.bufferCb he .readCb (by simp)
  obtain rfl := Option.some.inj (hread'.symm.trans hread)
  obtain ⟨c', -, hc', -, -, hbev, -⟩ := I'.wired.exists_conn he
  obtain rfl := Option.some.inj (hc.symm.trans hc')
  obtain rfl := Option.some.inj (hbev.symm.trans hb)
  obtain ⟨hne, hsame⟩ := allocation_deleteConn hdelete
  obtain ⟨hheap, hbevs⟩ := allocation_buffereventFree hfree
  refine ((sameAllocation_bufferCb hread).accounted H).close he (fun p hp => ?_) (fun i => ?_)
    fun b hb => ?_
  · exact ⟨hne p hp, hheap ▸ hsame.heap p hp⟩
  · rw [hsame.sentinels, sentinels_congr (threads_of_buffereventFree hfree)]
  · rw [hsame.bevs, hbevs b hb]

/-- A worker that takes a descriptor makes a `Conn` and the bufferevent it belongs to. -/
theorem Accounted.notify {i : Nat} (H : Accounted s) (hbevs : s.bevs s.fresh = none)
    (h : s.notifyHandler i = some t) : Accounted t := by
  simp only [notifyHandler, Option.bind_eq_bind, Option.bind_eq_some_iff] at h
  obtain ⟨u, hu, h⟩ := h
  split at h
  case h_1 => cases h
  case h_2 value pipe hpipe =>
    split_ifs at h
    · obtain rfl := Option.some.inj h
      exact SameAllocation.accounted (s := s)
        ⟨fun _ hp => hp, fun j => sentinels_set hu rfl (by rfl) (by rfl) j, rfl⟩ H
    · simp only [Option.bind_eq_some_iff, Option.pure_def, Option.some.injEq] at h
      obtain ⟨⟨heap, queue⟩, hinsert, heap', hupdate, rfl⟩ := h
      intro p hp
      by_cases hpc : p = s.fresh + 1
      · exact Or.inr ⟨s.fresh, ⟨value, s.fresh + 1, i⟩, if_pos rfl, hpc.symm⟩
      · have hold := ne_none_of_insertConn hinsert (ne_none_of_update hupdate hp) hpc
        obtain rfl := queue_of_insertConn hinsert
        refine (H p hold).imp ?_ ?_
        · rintro ⟨j, ends, hends, hpe⟩
          exact ⟨j, ends, (sentinels_set hu rfl (by rfl) (by rfl) j).trans hends, hpe⟩
        · rintro ⟨bev, e, he, rfl⟩
          have hne : bev ≠ s.fresh := by
            rintro rfl
            rw [hbevs] at he
            cases he
          exact ⟨bev, e, (if_neg hne).trans he, rfl⟩

/-- No callback loses a `Conn`. -/
theorem accounted_of_step {count : Nat} {conns : Nat → List Ptr} {a : TcpAction} (H : Accounted s)
    (I : Invariant count s conns) (h : s.step a = some t) : Accounted t := by
  cases a with
  | accept fd =>
    simp only [step, acceptCb, Option.bind_eq_bind, Option.bind_eq_some_iff, Option.pure_def,
      Option.some.injEq] at h
    obtain ⟨u, hu, rfl⟩ := h
    exact SameAllocation.accounted (s := s)
      ⟨fun _ hp => hp, fun j => sentinels_set hu rfl (by rfl) (by rfl) j, rfl⟩ H
  | notify i => exact H.notify (I.wired.bevs_none _ (Nat.le_refl _)) h
  | read bev => exact (sameAllocation_bufferCb h).accounted H
  | write bev => exact (sameAllocation_bufferCb h).accounted H
  | event bev => exact H.event h
  | readError bev => exact H.readError I h
  | quit =>
    obtain rfl := Option.some.inj h
    refine SameAllocation.accounted (s := s) ⟨fun _ hp => hp, fun j => ?_, rfl⟩ H
    simp [sentinels, quit, Function.comp_def]

theorem Accounted.new (count : Nat) : Accounted (TcpServer.new count) := by
  induction count with
  | zero => exact fun p hp => absurd rfl hp
  | succ count ih =>
    have hlast : (TcpServer.new (count + 1)).sentinels (TcpServer.new count).threads.length =
        some ((TcpServer.new count).fresh, (TcpServer.new count).fresh + 1) := by
      simp [sentinels, TcpServer.new, addThread, ConnQueue.new]
    intro p hp
    by_cases h0 : p = (TcpServer.new count).fresh
    · exact Or.inl ⟨_, _, hlast, Or.inl h0⟩
    · by_cases h1 : p = (TcpServer.new count).fresh + 1
      · exact Or.inl ⟨_, _, hlast, Or.inr h1⟩
      · have hold : (TcpServer.new count).heap p ≠ none := by
          rwa [TcpServer.new, heap_addThread h0 h1] at hp
        refine (ih p hold).imp ?_ id
        rintro ⟨i, ends, hends, hpe⟩
        obtain ⟨u, hu, -⟩ := Option.map_eq_some_iff.mp hends
        have hlt := (List.getElem?_eq_some_iff.mp hu).1
        refine ⟨i, ends, Eq.trans ?_ hends, hpe⟩
        simp [sentinels, TcpServer.new, addThread, List.getElem?_append_left hlt]

theorem accounted_of_reachable {count : Nat}
    (h : Reachable TcpServer.next (TcpServer.new count) s) : Accounted s := by
  refine (h.invariant (P := fun s => Reachable TcpServer.next (TcpServer.new count) s ∧ Accounted s)
    ?_ ⟨.refl _, Accounted.new count⟩).2
  rintro s a t ⟨hs, H⟩ hst
  obtain ⟨conns, I⟩ := Invariant.of_reachable hs
  exact ⟨hs.trans (.of_step hst), accounted_of_step H I (step_of_next hst).2⟩

/-! ### What the destructor does -/

/-- A `Conn` is allocated exactly if a queue links it. -/
theorem Accounted.ne_none_iff {count : Nat} {conns : Nat → List Ptr} (H : Accounted s)
    (I : Invariant count s conns) (p : Ptr) :
    s.heap p ≠ none ↔ ∃ (i : Nat) (t : LibeventThread), s.threads[i]? = some t ∧
      p ∈ t.queue.nodes (conns i) := by
  constructor
  · intro hp
    rcases H p hp with ⟨i, ends, hends, hpe⟩ | ⟨bev, e, he, rfl⟩
    · obtain ⟨t, ht, rfl⟩ := Option.map_eq_some_iff.mp hends
      refine ⟨i, t, ht, ?_⟩
      rcases hpe with rfl | rfl <;> simp [ConnQueue.nodes]
    · obtain ⟨-, t, -, -, -, -, ht⟩ := I.wired.exists_conn he
      have hmem := (I.wired.bevs_owned bev e he).1
      exact ⟨e.base, t, ht, by simp [ConnQueue.nodes, hmem]⟩
  · rintro ⟨i, t, ht, hp⟩ hnone
    exact I.wired.notMem_nodes hnone ht hp

/-- A queue is not longer than the number of objects that were made. -/
theorem Invariant.conns_length_lt {count : Nat} {conns : Nat → List Ptr}
    (I : Invariant count s conns) {i : Nat} {t : LibeventThread} (ht : s.threads[i]? = some t) :
    (conns i).length + 2 ≤ s.fresh := by
  have hsub : t.queue.nodes (conns i) ⊆ List.range s.fresh :=
    fun p hp => List.mem_range.mpr (I.wired.lt_fresh ht hp)
  have hle := (List.subperm_of_subset (I.wired.holds i t ht).linked.nodup hsub).length_le
  rw [List.length_range, ConnQueue.nodes, List.length_cons, List.length_append,
    List.length_singleton] at hle
  exact hle

/-- **The destructor deletes what the callbacks have left.** In every state that is reached and in
which no worker runs its loop any more, it does not fault, and ends; it deletes every `Conn` that is
allocated, and none twice. So each `Conn` that was ever set up is deleted once, by a callback or
here. The bufferevents of the connections that are left stay allocated, with their descriptors open,
and lead to `Conn`s that are deleted. -/
theorem destructor_of_reachable {count : Nat}
    (h : Reachable TcpServer.next (TcpServer.new count) s)
    (hquiet : ∀ t ∈ s.threads, t.looping = false) {n : Nat} (hn : s.fresh < n) :
    ∃ t deleted, s.destructor n = some (some (t, deleted)) ∧ deleted.Nodup ∧
      (∀ p, p ∈ deleted ↔ s.heap p ≠ none) ∧ (∀ p, t.heap p = none) ∧
      (∀ conn bev, .connected conn bev ∈ s.log →
        s.log.count (.deleteConn conn) + deleted.count conn = 1) ∧
      ∀ bev e, s.bevs bev = some e →
        t.bevs bev = some e ∧ e.fd ∈ t.openFds ∧ e.data ∈ deleted := by
  obtain ⟨conns, I⟩ := Invariant.of_reachable h
  have Q := I.quit
  have hquit : Accounted s.quit :=
    accounted_of_step (a := .quit) (accounted_of_reachable h) I rfl
  obtain ⟨deleted, heq, hnodup, hmem⟩ := deleteThreads_eq (n := n) Q.wired.holds Q.wired.disjoint
    fun i t ht => (Nat.succ_le_succ (Q.conns_length_lt ht)).trans hn
  have hdeleted : ∀ p, p ∈ deleted ↔ s.heap p ≠ none :=
    fun p => (hmem p).trans (hquit.ne_none_iff Q p).symm
  have halone : ¬ (s.threads.any fun t => t.looping) = true := by simpa using hquiet
  refine ⟨_, deleted, by simp only [destructor, halone, heq]; rfl, hnodup, hdeleted, ?_, ?_, ?_⟩
  · intro p
    simp only [ConnHeap.free]
    split_ifs with hp
    · rfl
    · exact not_not.mp fun hne => hp ((hdeleted p).mpr hne)
  · intro conn bev hlog
    rcases I.freed_once hlog with ⟨⟨i, hi⟩, hnot, -⟩ | ⟨-, hnone, -, honce, -⟩
    · have hsome : s.heap conn ≠ none := fun hnone => I.wired.ne_of_mem_conns hnone hi rfl
      rw [hnot, List.count_eq_one_of_mem hnodup ((hdeleted conn).mpr hsome)]
    · have hnot : conn ∉ deleted := fun hmem => (hdeleted conn).mp hmem hnone
      rw [honce, List.count_eq_zero.mpr hnot]
  · intro bev e he
    obtain ⟨c, -, hc, hfd, -⟩ := I.wired.exists_conn he
    have hplace : s.IsAt conns e.fd (.conn e.base e.data) :=
      ⟨(I.wired.bevs_owned bev e he).1, by rw [hc, Option.map_some, hfd]⟩
    refine ⟨he, I.placed.mem_open _ _ hplace, (hdeleted _).mpr ?_⟩
    rw [hc]
    exact Option.some_ne_none c

/-- Two connections on two workers, one of which has ended; after `quit` both workers leave their
loops, and then the destructor comes. -/
theorem destructor_twoConnections :
    ∃ s t deleted, run TcpServer.next (TcpServer.new 2) [.accept 5, .notify 0, .accept 6, .notify 1,
        .event 4, .quit, .notify 0, .notify 1] = some s ∧
      s.destructor 9 = some (some (t, deleted)) ∧ deleted.Nodup ∧ 7 ∈ deleted ∧ 5 ∉ deleted ∧
      ∀ p, t.heap p = none := by
  have hrun : (run TcpServer.next (TcpServer.new 2) [.accept 5, .notify 0, .accept 6, .notify 1,
      .event 4, .quit, .notify 0, .notify 1]).any (fun s => s.fresh < 9 &&
        (s.threads.all fun t => !t.looping) && (s.heap 7).isSome && (s.heap 5).isNone) = true := by
    decide +kernel
  obtain ⟨s, hs, hview⟩ := (Option.any_eq_true _ _).mp hrun
  simp only [Bool.and_eq_true, decide_eq_true_eq, List.all_eq_true, Bool.not_eq_true',
    Option.isSome_iff_ne_none, Option.isNone_iff_eq_none] at hview
  obtain ⟨⟨⟨hfresh, hquiet⟩, hseven⟩, hfive⟩ := hview
  obtain ⟨t, deleted, hdestructor, hnodup, hmem, hnone, -⟩ :=
    destructor_of_reachable ⟨_, hs⟩ hquiet hfresh
  exact ⟨s, t, deleted, hs, hdestructor, hnodup, (hmem 7).mpr hseven,
    fun h => (hmem 5).mp h hfive, hnone⟩

end TcpServer

end MRpc
