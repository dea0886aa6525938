import MRpc.Tcp.Server

/-!
# Who owns a connection

From `accept` to `close` a descriptor passes through the main thread, a pipe, and a worker, and
workers take their steps in any order. Two invariants of the server say where a descriptor is and
which worker links its `Conn`, and here is how they move when a connection comes and when it goes.

The lists that the queues link are not part of the state; they are an argument of the invariants
(`conns`), and each step says how they change.

## Main definitions

* `Place`, `TcpServer.IsAt`: where a descriptor can be.
* `TcpServer.Wired`: the invariant of queues, bufferevents and `Conn`s.
* `TcpServer.Placed`: the invariant of descriptors.

## Main results

* `TcpServer.Wired.notify`, `TcpServer.Placed.notify`: a connection comes.
* `TcpServer.Wired.teardown`, `TcpServer.Placed.teardown`: a connection goes.
-/

namespace MRpc

open FixedWidth

/-- Where a descriptor can be: in the pipe of a worker, or with a `Conn` in the queue of one. -/
inductive Place
  | pipe (thread : Nat)
  | conn (thread : Nat) (conn : Ptr)

/-- The descriptors that wait in the pipe. -/
def LibeventThread.pending (t : LibeventThread) : List Int := t.pipe.filter (· ≠ exitCode)

theorem LibeventThread.pending_concat (t : LibeventThread) {fd : Int} (hfd : fd ≠ exitCode) :
    { t with pipe := t.pipe ++ [fd] }.pending = t.pending ++ [fd] := by
  simp [pending, hfd]

theorem LibeventThread.pending_exit (t : LibeventThread) :
    { t with pipe := t.pipe ++ [exitCode] }.pending = t.pending := by
  simp [pending]

/-- What a `Conn` is for: its descriptor, its worker and its bufferevent. -/
def Conn.key (c : Conn) : Int × Option Nat × Option Ptr := (c.fd, c.thread, c.bev)

theorem key_eq_of_content {o o' : Option Conn} (h : o'.map Conn.content = o.map Conn.content) :
    o'.map Conn.key = o.map Conn.key := by
  have hkey := congrArg (Option.map Conn.key) h
  rwa [Option.map_map, Option.map_map] at hkey

theorem map_fd_eq (o : Option Conn) : o.map Conn.fd = (o.map Conn.key).map Prod.fst := by
  rw [Option.map_map]
  rfl

namespace TcpServer

/-- The descriptor `fd` is at this place. -/
def IsAt (s : TcpServer) (conns : Nat → List Ptr) (fd : Int) : Place → Prop
  | .pipe i => ∃ t : LibeventThread, s.threads[i]? = some t ∧ fd ∈ t.pending
  | .conn i p => p ∈ conns i ∧ (s.heap p).map Conn.fd = some fd

/-- The queues link `conns`, and each `Conn` of a queue and its bufferevent belong to each other and
to the worker. -/
structure Wired (s : TcpServer) (conns : Nat → List Ptr) : Prop where
  holds : ∀ (i : Nat) (t : LibeventThread), s.threads[i]? = some t →
    t.queue.Holds s.heap (conns i)
  conns_nil : ∀ i : Nat, s.threads[i]? = none → conns i = []
  disjoint : ∀ (i j : Nat) (p : Ptr) (t u : LibeventThread),
    s.threads[i]? = some t → s.threads[j]? = some u →
    p ∈ t.queue.nodes (conns i) → p ∈ u.queue.nodes (conns j) → i = j
  owned : ∀ i p, p ∈ conns i → ∃ fd bev, (s.heap p).map Conn.key = some (fd, some i, some bev) ∧
    s.bevs bev = some ⟨fd, p, i⟩
  bevs_owned : ∀ bev e, s.bevs bev = some e → e.data ∈ conns e.base ∧
    (s.heap e.data).map Conn.key = some (e.fd, some e.base, some bev)
  heap_none : ∀ p : Nat, s.fresh ≤ p → s.heap p = none
  bevs_none : ∀ bev : Nat, s.fresh ≤ bev → s.bevs bev = none

/-- Each open descriptor is in one place, and no other descriptor is anywhere. -/
structure Placed (s : TcpServer) (conns : Nat → List Ptr) : Prop where
  mem_open : ∀ fd place, s.IsAt conns fd place → fd ∈ s.openFds
  exists_place : ∀ fd ∈ s.openFds, ∃ place, s.IsAt conns fd place
  place_unique : ∀ fd p q, s.IsAt conns fd p → s.IsAt conns fd q → p = q
  nodup_pipe : ∀ (i : Nat) (t : LibeventThread), s.threads[i]? = some t →
    t.pending.Nodup
  nodup_open : s.openFds.Nodup
  fd_bounds : ∀ fd ∈ s.openFds, 0 ≤ fd ∧ fd < 2147483648

variable {s : TcpServer} {conns : Nat → List Ptr}

/-! ### A new server -/

theorem heap_addThread {p : Nat} (h0 : p ≠ s.fresh) (h1 : p ≠ s.fresh + 1) :
    s.addThread.heap p = s.heap p := by
  simp only [TcpServer.addThread, ConnQueue.new]
  rw [ConnHeap.set_of_ne h1, ConnHeap.set_of_ne h0]

theorem threads_addThread {i : Nat} {t : LibeventThread} (ht : s.addThread.threads[i]? = some t) :
    s.threads[i]? = some t ∨ i = s.threads.length ∧
      t = ⟨[], (ConnQueue.new s.heap s.fresh (s.fresh + 1)).2, true⟩ := by
  simp only [TcpServer.addThread, List.getElem?_append, List.getElem?_singleton] at ht
  split_ifs at ht with h1 h2
  · exact Or.inl ht
  · exact Or.inr ⟨by omega, (Option.some.inj ht).symm⟩

/-- The addresses of the nodes are behind the next one. -/
theorem Wired.lt_fresh (H : Wired s conns) {i : Nat} {t : LibeventThread}
    (ht : s.threads[i]? = some t) {p : Nat} (hp : p ∈ t.queue.nodes (conns i)) : p < s.fresh := by
  obtain ⟨c, hc⟩ := (H.holds i t ht).allocated p hp
  by_contra hge
  rw [H.heap_none p (by omega)] at hc
  cases hc

/-- A worker with an empty queue is added. -/
theorem Wired.addThread (H : Wired s conns) (hconns : ∀ i, conns i = []) :
    Wired s.addThread conns := by
  have hnodes : (ConnQueue.new s.heap s.fresh (s.fresh + 1)).2.nodes [] = [s.fresh, s.fresh + 1] :=
    rfl
  refine ⟨?_, fun i _ => hconns i, ?_, ?_, ?_, ?_, ?_⟩
  · intro i t ht
    rcases threads_addThread ht with ht | ⟨-, rfl⟩
    · refine (H.holds i t ht).congr fun p hp => ?_
      have hlt := H.lt_fresh ht hp
      rw [heap_addThread (Nat.ne_of_lt hlt) (Nat.ne_of_lt (Nat.lt_succ_of_lt hlt))]
    · rw [hconns i]
      exact ConnQueue.holds_new s.heap (Nat.ne_of_lt (Nat.lt_succ_self _))
  · intro i j p t u ht hu hpt hpu
    rcases threads_addThread ht with ht | ⟨hi, rfl⟩ <;>
      rcases threads_addThread hu with hu | ⟨hj, rfl⟩
    · exact H.disjoint i j p t u ht hu hpt hpu
    · have := H.lt_fresh ht hpt
      rw [hconns j, hnodes] at hpu
      rcases List.mem_pair.mp hpu with rfl | rfl <;> omega
    · have := H.lt_fresh hu hpu
      rw [hconns i, hnodes] at hpt
      rcases List.mem_pair.mp hpt with rfl | rfl <;> omega
    · omega
  · intro i p hp
    simp [hconns] at hp
  · intro bev e he
    have := (H.bevs_owned bev e he).1
    simp [hconns] at this
  · intro p hp
    simp only [TcpServer.addThread] at hp
    rw [heap_addThread (by omega) (by omega)]
    exact H.heap_none p (by omega)
  · intro bev hbev
    simp only [TcpServer.addThread] at hbev
    exact H.bevs_none bev (by omega)

theorem Wired.new (count : Nat) : Wired (TcpServer.new count) fun _ => [] := by
  induction count with
  | zero => constructor <;> simp [TcpServer.new]
  | succ count ih => exact ih.addThread fun _ => rfl

theorem pipe_new {count i : Nat} {t : LibeventThread}
    (ht : (TcpServer.new count).threads[i]? = some t) : t.pipe = [] := by
  induction count with
  | zero => simp [TcpServer.new] at ht
  | succ count ih =>
    simp only [TcpServer.new, TcpServer.addThread, List.getElem?_append,
      List.getElem?_singleton] at ht
    split_ifs at ht
    · exact ih ht
    · cases ht
      rfl

theorem openFds_new (count : Nat) : (TcpServer.new count).openFds = [] := by
  induction count with
  | zero => rfl
  | succ count ih => exact ih

theorem Placed.new (count : Nat) : Placed (TcpServer.new count) fun _ => [] := by
  have hnot : ∀ fd place, ¬ (TcpServer.new count).IsAt (fun _ => []) fd place := by
    rintro fd (i | ⟨i, p⟩)
    · rintro ⟨t, ht, hfd⟩
      rw [LibeventThread.pending, pipe_new ht] at hfd
      cases hfd
    · simp [IsAt]
  refine ⟨fun fd place h => absurd h (hnot fd place), ?_, fun fd p _ h => absurd h (hnot fd p),
    fun i t ht => ?_, ?_, ?_⟩
  · simp [openFds_new]
  · rw [LibeventThread.pending, pipe_new ht]
    exact List.nodup_nil
  · simp [openFds_new]
  · simp [openFds_new]

/-! ### How the invariants move -/

/-- Queues, bufferevents and what the `Conn`s are for are the same: pipes may have changed. -/
theorem Wired.congr {s' : TcpServer} (H : Wired s conns)
    (hqueues : ∀ j : Nat, (s'.threads[j]?).map LibeventThread.queue =
      (s.threads[j]?).map LibeventThread.queue)
    (hends : ∀ p, (s'.heap p).map Conn.ends = (s.heap p).map Conn.ends)
    (hkey : ∀ p, (s'.heap p).map Conn.key = (s.heap p).map Conn.key)
    (hbevs : s'.bevs = s.bevs) (hfresh : s'.fresh = s.fresh) : Wired s' conns := by
  have hthread : ∀ (j : Nat) (t' : LibeventThread), s'.threads[j]? = some t' →
      ∃ t : LibeventThread, s.threads[j]? = some t ∧ t.queue = t'.queue := by
    intro j t' ht'
    have hj := hqueues j
    rw [ht', Option.map_some] at hj
    exact Option.map_eq_some_iff.mp hj.symm
  refine ⟨fun i t' ht' => ?_, fun i hi => ?_, fun i j p t' u' ht' hu' hp hq => ?_, fun i p hp => ?_,
    fun bev e he => ?_, fun p hp => ?_, fun bev hbev => ?_⟩
  · obtain ⟨t, ht, hqueue⟩ := hthread i t' ht'
    rw [← hqueue]
    exact (H.holds i t ht).congr fun p _ => hends p
  · have hi' := hqueues i
    rw [hi, Option.map_none, eq_comm, Option.map_eq_none_iff] at hi'
    exact H.conns_nil i hi'
  · obtain ⟨t, ht, htq⟩ := hthread i t' ht'
    obtain ⟨u, hu, huq⟩ := hthread j u' hu'
    rw [← htq] at hp
    rw [← huq] at hq
    exact H.disjoint i j p t u ht hu hp hq
  · rw [hkey, hbevs]
    exact H.owned i p hp
  · rw [hbevs] at he
    rw [hkey]
    exact H.bevs_owned bev e he
  · rw [hfresh] at hp
    have hnone := hends p
    rwa [H.heap_none p hp, Option.map_none, Option.map_eq_none_iff] at hnone
  · rw [hfresh] at hbev
    rw [hbevs]
    exact H.bevs_none bev hbev

theorem isAt_pipe_iff {fd : Int} (i : Nat) :
    s.IsAt conns fd (.pipe i) ↔
      ∃ fds, (s.threads[i]?).map LibeventThread.pending = some fds ∧ fd ∈ fds := by
  constructor
  · rintro ⟨t, ht, hmem⟩
    exact ⟨t.pending, by rw [ht, Option.map_some], hmem⟩
  · rintro ⟨fds, hfds, hmem⟩
    obtain ⟨t, ht, rfl⟩ := Option.map_eq_some_iff.mp hfds
    exact ⟨t, ht, hmem⟩

/-- The descriptors are where they were. -/
theorem Placed.congr {s' : TcpServer} (H : Placed s conns)
    (hpending : ∀ j : Nat, (s'.threads[j]?).map LibeventThread.pending =
      (s.threads[j]?).map LibeventThread.pending)
    (hkey : ∀ p, (s'.heap p).map Conn.key = (s.heap p).map Conn.key)
    (hopen : s'.openFds = s.openFds) : Placed s' conns := by
  have hat : ∀ fd place, s'.IsAt conns fd place ↔ s.IsAt conns fd place := by
    rintro fd (i | ⟨i, p⟩)
    · rw [isAt_pipe_iff, isAt_pipe_iff, hpending]
    · simp only [IsAt]
      rw [map_fd_eq, map_fd_eq, hkey]
  refine ⟨fun fd place h => ?_, fun fd hfd => ?_, fun fd p q hp hq => ?_, fun i t' ht' => ?_,
    hopen ▸ H.nodup_open, hopen ▸ H.fd_bounds⟩
  · rw [hopen]
    exact H.mem_open fd place ((hat fd place).mp h)
  · rw [hopen] at hfd
    obtain ⟨place, hplace⟩ := H.exists_place fd hfd
    exact ⟨place, (hat fd place).mpr hplace⟩
  · exact H.place_unique fd p q ((hat fd p).mp hp) ((hat fd q).mp hq)
  · have hi := hpending i
    rw [ht', Option.map_some] at hi
    obtain ⟨t, ht, heq⟩ := Option.map_eq_some_iff.mp hi.symm
    rw [← heq]
    exact H.nodup_pipe i t ht

/-- A descriptor, new or not, is put at a place, and is at no other. -/
theorem Placed.put {s' : TcpServer} {conns' : Nat → List Ptr} (H : Placed s conns) (fd : Int)
    (place : Place) (hfd : 0 ≤ fd ∧ fd < 2147483648)
    (hat : ∀ fd' place', s'.IsAt conns' fd' place' ↔
      fd' = fd ∧ place' = place ∨ fd' ≠ fd ∧ s.IsAt conns fd' place')
    (hopen : ∀ fd', fd' ∈ s'.openFds ↔ fd' = fd ∨ fd' ∈ s.openFds) (hnodup : s'.openFds.Nodup)
    (hpipe : ∀ (i : Nat) (t : LibeventThread), s'.threads[i]? = some t →
      t.pending.Nodup) : Placed s' conns' := by
  refine ⟨fun fd' place' h => ?_, fun fd' hfd' => ?_, fun fd' p q hp hq => ?_, hpipe, hnodup,
    fun fd' hfd' => ?_⟩
  · rw [hopen]
    rcases (hat fd' place').mp h with ⟨rfl, -⟩ | ⟨-, h⟩
    · exact Or.inl rfl
    · exact Or.inr (H.mem_open fd' place' h)
  · by_cases heq : fd' = fd
    · subst heq
      exact ⟨place, (hat fd' place).mpr (Or.inl ⟨rfl, rfl⟩)⟩
    · have hmem := ((hopen fd').mp hfd').resolve_left heq
      obtain ⟨place', hplace'⟩ := H.exists_place fd' hmem
      exact ⟨place', (hat fd' place').mpr (Or.inr ⟨heq, hplace'⟩)⟩
  · rcases (hat fd' p).mp hp with ⟨h1, rfl⟩ | ⟨h1, hp⟩ <;>
      rcases (hat fd' q).mp hq with ⟨h2, rfl⟩ | ⟨h2, hq⟩
    · rfl
    · exact absurd h1 h2
    · exact absurd h2 h1
    · exact H.place_unique fd' p q hp hq
  · rcases (hopen fd').mp hfd' with rfl | hfd'
    · exact hfd
    · exact H.fd_bounds fd' hfd'

/-- A descriptor is closed, and is nowhere. -/
theorem Placed.close {s' : TcpServer} {conns' : Nat → List Ptr} (H : Placed s conns) {fd : Int}
    (hat : ∀ fd' place', s'.IsAt conns' fd' place' ↔ fd' ≠ fd ∧ s.IsAt conns fd' place')
    (hopen : s'.openFds = s.openFds.erase fd)
    (hpipe : ∀ (i : Nat) (t : LibeventThread), s'.threads[i]? = some t →
      t.pending.Nodup) : Placed s' conns' := by
  have hmem : ∀ fd', fd' ∈ s'.openFds ↔ fd' ≠ fd ∧ fd' ∈ s.openFds := by
    intro fd'
    rw [hopen]
    exact H.nodup_open.mem_erase_iff
  refine ⟨fun fd' place' h => ?_, fun fd' hfd' => ?_, fun fd' p q hp hq => ?_, hpipe, ?_,
    fun fd' hfd' => H.fd_bounds fd' ((hmem fd').mp hfd').2⟩
  · obtain ⟨hne, h⟩ := (hat fd' place').mp h
    exact (hmem fd').mpr ⟨hne, H.mem_open fd' place' h⟩
  · obtain ⟨hne, hfd'⟩ := (hmem fd').mp hfd'
    obtain ⟨place', hplace'⟩ := H.exists_place fd' hfd'
    exact ⟨place', (hat fd' place').mpr ⟨hne, hplace'⟩⟩
  · exact H.place_unique fd' p q ((hat fd' p).mp hp).2 ((hat fd' q).mp hq).2
  · rw [hopen]
    exact H.nodup_open.erase fd

/-! ### A connection comes -/

theorem getElem?_set_some {l : List LibeventThread} {i : Nat} {t : LibeventThread}
    (ht : l[i]? = some t) (u : LibeventThread) (j : Nat) :
    (l.set i u)[j]? = if i = j then some u else l[j]? := by
  rw [List.getElem?_set]
  split_ifs with hij hlt
  · rfl
  · exact absurd (List.getElem?_eq_some_iff.mp ht).1 hlt
  · rfl

/-- A worker of a server in which the worker `i` was replaced. -/
theorem getElem?_set_cases {l : List LibeventThread} {i j : Nat} {t u v : LibeventThread}
    (ht : l[i]? = some t) (hv : (l.set i u)[j]? = some v) :
    j = i ∧ v = u ∨ j ≠ i ∧ l[j]? = some v := by
  rw [getElem?_set_some ht] at hv
  split_ifs at hv with hij
  · exact Or.inl ⟨hij.symm, (Option.some.inj hv).symm⟩
  · exact Or.inr ⟨Ne.symm hij, hv⟩

/-- What the workers are asked for is the same if it is the same for the one that was replaced. -/
theorem map_getElem?_set {β : Type} {l : List LibeventThread} {i : Nat} {t u : LibeventThread}
    {f : LibeventThread → β} (ht : l[i]? = some t) (hf : f u = f t) (j : Nat) :
    ((l.set i u)[j]?).map f = (l[j]?).map f := by
  rw [getElem?_set_some ht]
  split_ifs with hij
  · rw [← hij, ht, Option.map_some, Option.map_some, hf]
  · rfl

/-- The descriptors in the pipes after the worker `i` was replaced by `u`. -/
theorem isAt_pipe_set (conns : Nat → List Ptr) {s' : TcpServer} {conns' : Nat → List Ptr}
    {i j : Nat} {t u : LibeventThread} {fd : Int} (ht : s.threads[i]? = some t)
    (hs' : s'.threads = s.threads.set i u) :
    s'.IsAt conns' fd (.pipe j) ↔
      j = i ∧ fd ∈ u.pending ∨ j ≠ i ∧ s.IsAt conns fd (.pipe j) := by
  simp only [IsAt, hs', getElem?_set_some ht]
  by_cases hij : i = j
  · simp [hij]
  · simp [hij, Ne.symm hij]

theorem Placed.nodup_pipe_set (H : Placed s conns) {i : Nat} {t u : LibeventThread}
    (ht : s.threads[i]? = some t) (hu : u.pending.Nodup) (j : Nat) (v : LibeventThread)
    (hv : (s.threads.set i u)[j]? = some v) : v.pending.Nodup := by
  rcases getElem?_set_cases ht hv with ⟨-, rfl⟩ | ⟨-, hv⟩
  · exact hu
  · exact H.nodup_pipe j v hv

/-- The connections after one was put in front of those of the worker `i`. -/
theorem mem_update_cons {i j : Nat} {p c : Ptr} :
    p ∈ Function.update conns i (c :: conns i) j ↔ j = i ∧ p = c ∨ p ∈ conns j := by
  by_cases hji : j = i
  · subst hji
    simp
  · simp [hji]

/-- The nodes with a new connection. -/
theorem mem_nodes_cons {q : ConnQueue} {l : List Ptr} {p c : Ptr} {total : Nat}
    (h : p ∈ ConnQueue.nodes { q with total := total } (c :: l)) : p = c ∨ p ∈ q.nodes l := by
  rw [ConnQueue.nodes_cons] at h
  simp only [List.mem_cons] at h
  rcases h with rfl | rfl | h
  · exact Or.inr List.mem_cons_self
  · exact Or.inl rfl
  · exact Or.inr (List.mem_cons_of_mem _ h)

/-- A node of a queue is allocated, so an address that is free belongs to no queue. -/
theorem Wired.notMem_nodes (H : Wired s conns) {p : Ptr} (hp : s.heap p = none) {i : Nat}
    {t : LibeventThread} (ht : s.threads[i]? = some t) : p ∉ t.queue.nodes (conns i) :=
  fun hmem => (H.holds i t ht).ne_of_eq_none hp hmem rfl

/-- An address that is free is no connection. -/
theorem Wired.ne_of_mem_conns (H : Wired s conns) {p c : Ptr} (hc : s.heap c = none) {i : Nat}
    (hp : p ∈ conns i) : p ≠ c := by
  rintro rfl
  obtain ⟨fd, bev, hkey, -⟩ := H.owned i p hp
  rw [hc] at hkey
  cases hkey

/-- The queues after one worker has changed its own, and no node of another. -/
theorem Wired.replace (H : Wired s conns) {i : Nat} {t : LibeventThread}
    (ht : s.threads[i]? = some t) (t' : LibeventThread) {h : ConnHeap} {l : List Ptr}
    (hholds : t'.queue.Holds h l)
    (hnodes : ∀ p ∈ t'.queue.nodes l, p ∈ t.queue.nodes (conns i) ∨ s.heap p = none)
    (hframe : ∀ p, s.heap p ≠ none → p ∉ t.queue.nodes (conns i) → h p = s.heap p) :
    (∀ (j : Nat) (u : LibeventThread), (s.threads.set i t')[j]? = some u →
      u.queue.Holds h (Function.update conns i l j)) ∧
    (∀ j : Nat, (s.threads.set i t')[j]? = none → Function.update conns i l j = []) ∧
    ∀ (j k : Nat) (p : Ptr) (u v : LibeventThread),
      (s.threads.set i t')[j]? = some u → (s.threads.set i t')[k]? = some v →
      p ∈ u.queue.nodes (Function.update conns i l j) →
      p ∈ v.queue.nodes (Function.update conns i l k) → j = k := by
  -- A node of the changed queue is no node of another.
  have hother : ∀ {k : Nat} {p : Ptr} {v : LibeventThread}, k ≠ i → s.threads[k]? = some v →
      p ∈ t'.queue.nodes l → p ∉ v.queue.nodes (conns k) := by
    intro k p v hk hv hp hq
    rcases hnodes p hp with hp | hp
    · exact hk (H.disjoint k i p v t hv ht hq hp)
    · exact H.notMem_nodes hp hv hq
  refine ⟨fun j u hu => ?_, fun j hj => ?_, fun j k p u v hu hv hp hq => ?_⟩
  · rcases getElem?_set_cases ht hu with ⟨rfl, rfl⟩ | ⟨hne, hu⟩
    · rw [Function.update_self]
      exact hholds
    · rw [Function.update_of_ne hne]
      refine (H.holds j u hu).congr fun p hp => ?_
      have hsome : s.heap p ≠ none := fun hnone => H.notMem_nodes hnone hu hp
      have hnot : p ∉ t.queue.nodes (conns i) := fun hp' => hne (H.disjoint j i p u t hu ht hp hp')
      exact congrArg _ (hframe p hsome hnot)
  · rw [getElem?_set_some ht] at hj
    split_ifs at hj with hij
    rw [Function.update_of_ne (Ne.symm hij)]
    exact H.conns_nil j hj
  · rcases getElem?_set_cases ht hu with ⟨rfl, rfl⟩ | ⟨hj, hu'⟩ <;>
      rcases getElem?_set_cases ht hv with ⟨rfl, rfl⟩ | ⟨hk, hv'⟩
    · rfl
    · rw [Function.update_self] at hp
      rw [Function.update_of_ne hk] at hq
      exact absurd hq (hother hk hv' hp)
    · rw [Function.update_self] at hq
      rw [Function.update_of_ne hj] at hp
      exact absurd hp (hother hj hu' hq)
    · rw [Function.update_of_ne hj] at hp
      rw [Function.update_of_ne hk] at hq
      exact H.disjoint j k p u v hu' hv' hp hq

/-- What `notifyHandler` makes of the heap. -/
theorem Wired.exists_insertConn (H : Wired s conns) {i : Nat} {t : LibeventThread}
    (ht : s.threads[i]? = some t) {c : Ptr} (hc : s.heap c = none) (fd : Int) (bev : Ptr) :
    ∃ h₁ h₂, t.queue.insertConn s.heap fd i c =
        some (h₁, { t.queue with total := uint64 (t.queue.total + 1) }) ∧
      h₁.update (some c) (fun conn => { conn with bev := some bev, thread := some i }) = some h₂ ∧
      ConnQueue.Holds { t.queue with total := uint64 (t.queue.total + 1) } h₂ (c :: conns i) ∧
      (h₂ c).map Conn.key = some (fd, some i, some bev) ∧
      (∀ p, p ≠ c → (h₂ p).map Conn.key = (s.heap p).map Conn.key) ∧
      ∀ p, p ≠ c → p ∉ t.queue.nodes (conns i) → h₂ p = s.heap p := by
  obtain ⟨h₁, hinsert, hholds, hnew, hcontent, hframe⟩ := (H.holds i t ht).insertConn hc fd i
  obtain ⟨conn, hconn, hfields⟩ := Option.map_eq_some_iff.mp hnew
  have hfd : conn.fd = fd := congrArg Conn.fd hfields
  refine ⟨h₁, _, hinsert, ConnHeap.update_of_some hconn _, ?_, ?_, fun p hp => ?_,
    fun p hp hnot => ?_⟩
  · refine hholds.congr fun p _ => ?_
    by_cases hp : p = c
    · subst hp
      rw [ConnHeap.set_self, hconn]
      rfl
    · rw [ConnHeap.set_of_ne hp]
  · rw [ConnHeap.set_self, Option.map_some, Conn.key, hfd]
  · rw [ConnHeap.set_of_ne hp, key_eq_of_content (hcontent p hp)]
  · rw [ConnHeap.set_of_ne hp, hframe p hp hnot]

/-- The server after a worker has set up the connection of `fd`. -/
def connected (s : TcpServer) (i : Nat) (t : LibeventThread) (pipe : List Int) (fd : Int)
    (heap : ConnHeap) : TcpServer :=
  { s with
    threads := s.threads.set i
      ⟨pipe, { t.queue with total := uint64 (t.queue.total + 1) }, t.looping⟩
    heap := heap
    bevs := fun b => if b = s.fresh then some ⟨fd, s.fresh + 1, i⟩ else s.bevs b
    fresh := s.fresh + 2
    log := s.log ++ [.connected (s.fresh + 1) s.fresh] }

theorem Wired.notify (H : Wired s conns) {i : Nat} {t : LibeventThread}
    (ht : s.threads[i]? = some t) {fd : Int} {pipe : List Int} {h : ConnHeap}
    (hholds : ConnQueue.Holds { t.queue with total := uint64 (t.queue.total + 1) } h
      ((s.fresh + 1) :: conns i))
    (hnew : (h (s.fresh + 1)).map Conn.key = some (fd, some i, some s.fresh))
    (hkey : ∀ p, p ≠ s.fresh + 1 → (h p).map Conn.key = (s.heap p).map Conn.key)
    (hframe : ∀ p, p ≠ s.fresh + 1 → p ∉ t.queue.nodes (conns i) → h p = s.heap p) :
    Wired (s.connected i t pipe fd h) (Function.update conns i ((s.fresh + 1) :: conns i)) := by
  have hc : s.heap (s.fresh + 1) = none := H.heap_none _ (by omega)
  have hmem : ∀ p, p ∈ ConnQueue.nodes { t.queue with total := uint64 (t.queue.total + 1) }
      ((s.fresh + 1) :: conns i) → p ∈ t.queue.nodes (conns i) ∨ s.heap p = none := by
    intro p hp
    rcases mem_nodes_cons hp with rfl | hp
    · exact Or.inr hc
    · exact Or.inl hp
  have hframe' : ∀ p, s.heap p ≠ none → p ∉ t.queue.nodes (conns i) → h p = s.heap p := by
    intro p hp
    refine hframe p ?_
    rintro rfl
    exact hp hc
  obtain ⟨hqueues, hnil, hdisjoint⟩ := H.replace ht
    ⟨pipe, { t.queue with total := uint64 (t.queue.total + 1) }, t.looping⟩ hholds hmem hframe'
  refine ⟨hqueues, hnil, hdisjoint, fun j p hp => ?_, fun bev e he => ?_, fun p hp => ?_,
    fun bev hbev => ?_⟩
  · rcases mem_update_cons.mp hp with ⟨rfl, rfl⟩ | hp
    · exact ⟨fd, s.fresh, hnew, if_pos rfl⟩
    · obtain ⟨fd', bev, hpk, hbev⟩ := H.owned j p hp
      have hne : bev ≠ s.fresh := by
        rintro rfl
        rw [H.bevs_none _ (Nat.le_refl _)] at hbev
        cases hbev
      exact ⟨fd', bev, (hkey p (H.ne_of_mem_conns hc hp)).trans hpk, (if_neg hne).trans hbev⟩
  · simp only [connected] at he
    split_ifs at he with hb
    · obtain rfl := Option.some.inj he
      rw [hb]
      exact ⟨mem_update_cons.mpr (Or.inl ⟨rfl, rfl⟩), hnew⟩
    · obtain ⟨hdata, hk⟩ := H.bevs_owned bev e he
      exact ⟨mem_update_cons.mpr (Or.inr hdata),
        (hkey _ (H.ne_of_mem_conns hc hdata)).trans hk⟩
  · simp only [connected] at hp ⊢
    have hnone := H.heap_none p (by omega)
    have hne : p ≠ s.fresh + 1 := by omega
    rw [hframe p hne (H.notMem_nodes hnone ht), hnone]
  · simp only [connected] at hbev ⊢
    have hne : bev ≠ s.fresh := by omega
    rw [if_neg hne]
    exact H.bevs_none bev (by omega)

section Notify

variable {i : Nat} {t : LibeventThread} {fd : Int} {pipe : List Int} {h : ConnHeap}

/-- The descriptor leaves the front of the pipe. -/
theorem isAt_pipe_connected (H : Placed s conns) (ht : s.threads[i]? = some t)
    (hpipe : t.pipe = fd :: pipe) (hfd : fd ≠ exitCode) (fd' : Int) (j : Nat) :
    (s.connected i t pipe fd h).IsAt (Function.update conns i ((s.fresh + 1) :: conns i)) fd'
        (.pipe j) ↔ fd' ≠ fd ∧ s.IsAt conns fd' (.pipe j) := by
  let t' : LibeventThread :=
    ⟨pipe, { t.queue with total := uint64 (t.queue.total + 1) }, t.looping⟩
  have hpending : t.pending = fd :: t'.pending := by
    simp [LibeventThread.pending, hpipe, hfd, t']
  have hatfd : s.IsAt conns fd (.pipe i) := ⟨t, ht, by simp [hpending]⟩
  have hnodup := H.nodup_pipe i t ht
  rw [hpending, List.nodup_cons] at hnodup
  rw [isAt_pipe_set conns (u := t') ht rfl]
  constructor
  · rintro (⟨rfl, hmem⟩ | ⟨hji, hat⟩)
    · refine ⟨fun heq => hnodup.1 (heq ▸ hmem), t, ht, ?_⟩
      rw [hpending]
      exact List.mem_cons_of_mem _ hmem
    · refine ⟨?_, hat⟩
      rintro rfl
      exact hji (Place.pipe.inj (H.place_unique fd' _ _ hatfd hat)).symm
  · rintro ⟨hne, hat⟩
    by_cases hji : j = i
    · subst hji
      obtain ⟨u, hu, hmem⟩ := hat
      obtain rfl := Option.some.inj (ht.symm.trans hu)
      rw [hpending] at hmem
      exact Or.inl ⟨rfl, (List.mem_cons.mp hmem).resolve_left hne⟩
    · exact Or.inr ⟨hji, hat⟩

/-- The descriptor is in the new `Conn`. -/
theorem isAt_conn_connected (H : Placed s conns) (W : Wired s conns)
    (hatfd : s.IsAt conns fd (.pipe i))
    (hnew : (h (s.fresh + 1)).map Conn.key = some (fd, some i, some s.fresh))
    (hkey : ∀ p, p ≠ s.fresh + 1 → (h p).map Conn.key = (s.heap p).map Conn.key)
    (fd' : Int) (j : Nat) (p : Ptr) :
    (s.connected i t pipe fd h).IsAt (Function.update conns i ((s.fresh + 1) :: conns i)) fd'
        (.conn j p) ↔
      fd' = fd ∧ Place.conn j p = .conn i (s.fresh + 1) ∨
        fd' ≠ fd ∧ s.IsAt conns fd' (.conn j p) := by
  have hc : s.heap (s.fresh + 1) = none := W.heap_none _ (by omega)
  have hnewfd : (h (s.fresh + 1)).map Conn.fd = some fd := by
    rw [map_fd_eq, hnew]
    rfl
  have hconns : s.IsAt conns fd' (.conn j p) ↔ p ∈ conns j ∧ (h p).map Conn.fd = some fd' := by
    refine and_congr_right fun hp => ?_
    rw [map_fd_eq, map_fd_eq, hkey p (W.ne_of_mem_conns hc hp)]
  constructor
  · rintro ⟨hp, hfd'⟩
    rcases mem_update_cons.mp hp with ⟨rfl, rfl⟩ | hp
    · exact Or.inl ⟨(Option.some.inj (hnewfd.symm.trans hfd')).symm, rfl⟩
    · have hat := hconns.mpr ⟨hp, hfd'⟩
      refine Or.inr ⟨?_, hat⟩
      rintro rfl
      cases H.place_unique fd' _ _ hatfd hat
  · rintro (⟨rfl, hplace⟩ | ⟨-, hat⟩)
    · obtain ⟨rfl, rfl⟩ := Place.conn.inj hplace
      exact ⟨mem_update_cons.mpr (Or.inl ⟨rfl, rfl⟩), hnewfd⟩
    · obtain ⟨hp, hfd'⟩ := hconns.mp hat
      exact ⟨mem_update_cons.mpr (Or.inr hp), hfd'⟩

theorem Placed.notify (H : Placed s conns) (W : Wired s conns) (ht : s.threads[i]? = some t)
    (hpipe : t.pipe = fd :: pipe) (hfd : fd ≠ exitCode)
    (hnew : (h (s.fresh + 1)).map Conn.key = some (fd, some i, some s.fresh))
    (hkey : ∀ p, p ≠ s.fresh + 1 → (h p).map Conn.key = (s.heap p).map Conn.key) :
    Placed (s.connected i t pipe fd h) (Function.update conns i ((s.fresh + 1) :: conns i)) := by
  have hatfd : s.IsAt conns fd (.pipe i) := by
    refine ⟨t, ht, ?_⟩
    simp [LibeventThread.pending, hpipe, hfd]
  have hopen : fd ∈ s.openFds := H.mem_open fd _ hatfd
  refine H.put fd (.conn i (s.fresh + 1)) (H.fd_bounds fd hopen) (fun fd' place => ?_)
    (fun fd' => ⟨Or.inr, ?_⟩) H.nodup_open (H.nodup_pipe_set ht ?_)
  · cases place with
    | pipe j =>
      rw [isAt_pipe_connected H ht hpipe hfd]
      simp
    | conn j p => exact isAt_conn_connected H W hatfd hnew hkey fd' j p
  · rintro (rfl | hmem)
    · exact hopen
    · exact hmem
  · have hnodup := H.nodup_pipe i t ht
    rw [LibeventThread.pending, hpipe] at hnodup
    exact hnodup.sublist (List.Sublist.filter _ (List.sublist_cons_self _ _))

end Notify

/-! ### A connection goes -/

/-- The server after a connection of the worker `i` has ended. -/
def closed (s : TcpServer) (i : Nat) (t : LibeventThread) (bev : Ptr) (fd : Int) (heap : ConnHeap)
    (log : List TcpEvent) : TcpServer :=
  { s with
    threads := s.threads.set i { t with
      queue := { t.queue with total := uint64 (t.queue.total - 1) } }
    heap := heap
    bevs := fun b => if b = bev then none else s.bevs b
    openFds := s.openFds.erase fd
    log := log }

/-- The nodes that are left are among those that were there. -/
theorem mem_nodes_erase {q : ConnQueue} {l : List Ptr} {p x : Ptr} {total : Nat}
    (h : p ∈ ConnQueue.nodes { q with total := total } (l.erase x)) : p ∈ q.nodes l := by
  simp only [ConnQueue.nodes, List.mem_cons, List.mem_append] at h ⊢
  rcases h with h | h | h
  · exact Or.inl h
  · exact Or.inr (Or.inl (List.mem_of_mem_erase h))
  · exact Or.inr (Or.inr h)

theorem Wired.nodup_conns (H : Wired s conns) (i : Nat) : (conns i).Nodup := by
  cases ht : s.threads[i]? with
  | none =>
    rw [H.conns_nil i ht]
    exact List.nodup_nil
  | some t =>
    have hnodup := (H.holds i t ht).linked.nodup
    exact (List.nodup_append.mp (List.nodup_cons.mp hnodup).2).1

/-- A connection is in the queue of one worker. -/
theorem Wired.thread_unique (H : Wired s conns) {i j : Nat} {p : Ptr} (hi : p ∈ conns i)
    (hj : p ∈ conns j) : i = j := by
  obtain ⟨fd, bev, hkey, -⟩ := H.owned i p hi
  obtain ⟨fd', bev', hkey', -⟩ := H.owned j p hj
  rw [hkey] at hkey'
  cases hkey'
  rfl

/-- The connections after one of them has been taken out. -/
theorem Wired.mem_update_erase (H : Wired s conns) {i : Nat} {x : Ptr} (hx : x ∈ conns i) {j : Nat}
    {p : Ptr} : p ∈ Function.update conns i ((conns i).erase x) j ↔ p ∈ conns j ∧ p ≠ x := by
  by_cases hji : j = i
  · subst hji
    rw [Function.update_self, (H.nodup_conns j).mem_erase_iff, and_comm]
  · rw [Function.update_of_ne hji]
    refine ⟨fun hp => ⟨hp, ?_⟩, And.left⟩
    rintro rfl
    exact hji (H.thread_unique hp hx)

theorem Wired.teardown (H : Wired s conns) {i : Nat} {t : LibeventThread}
    (ht : s.threads[i]? = some t) {x bev : Ptr} {fd : Int} {h : ConnHeap} {log : List TcpEvent}
    (hbev : s.bevs bev = some ⟨fd, x, i⟩)
    (hholds : ConnQueue.Holds { t.queue with total := uint64 (t.queue.total - 1) } h
      ((conns i).erase x))
    (hnone : h x = none)
    (hkey : ∀ p, p ≠ x → (h p).map Conn.key = (s.heap p).map Conn.key)
    (hframe : ∀ p, p ∉ t.queue.nodes (conns i) → h p = s.heap p) :
    Wired (s.closed i t bev fd h log) (Function.update conns i ((conns i).erase x)) := by
  obtain ⟨hx, hxkey⟩ := H.bevs_owned bev _ hbev
  obtain ⟨hqueues, hnil, hdisjoint⟩ := H.replace ht
    { t with queue := { t.queue with total := uint64 (t.queue.total - 1) } } hholds
    (fun p hp => Or.inl (mem_nodes_erase hp)) fun p _ => hframe p
  refine ⟨hqueues, hnil, hdisjoint, fun j p hp => ?_, fun b e he => ?_, fun p hp => ?_,
    fun b hb => ?_⟩
  · obtain ⟨hp, hne⟩ := (H.mem_update_erase hx).mp hp
    obtain ⟨fd', b, hpk, hb⟩ := H.owned j p hp
    refine ⟨fd', b, (hkey p hne).trans hpk, (if_neg ?_).trans hb⟩
    rintro rfl
    rw [hbev] at hb
    cases hb
    exact hne rfl
  · simp only [closed] at he
    split_ifs at he with hb
    obtain ⟨hdata, hk⟩ := H.bevs_owned b e he
    have hne : e.data ≠ x := by
      intro heq
      rw [heq, hxkey] at hk
      cases hk
      exact hb rfl
    exact ⟨(H.mem_update_erase hx).mpr ⟨hdata, hne⟩, (hkey _ hne).trans hk⟩
  · by_cases hpx : p = x
    · rw [hpx]
      exact hnone
    · have hp' := hkey p hpx
      rwa [H.heap_none p hp, Option.map_none, Option.map_eq_none_iff] at hp'
  · simp only [closed]
    split_ifs
    · rfl
    · exact H.bevs_none b hb

theorem Placed.teardown (H : Placed s conns) (W : Wired s conns) {i : Nat} {t : LibeventThread}
    (ht : s.threads[i]? = some t) {x bev : Ptr} {fd : Int} {h : ConnHeap} {log : List TcpEvent}
    (hbev : s.bevs bev = some ⟨fd, x, i⟩)
    (hkey : ∀ p, p ≠ x → (h p).map Conn.key = (s.heap p).map Conn.key) :
    Placed (s.closed i t bev fd h log) (Function.update conns i ((conns i).erase x)) := by
  obtain ⟨hx, hxkey⟩ := W.bevs_owned bev _ hbev
  have hxfd : (s.heap x).map Conn.fd = some fd := by
    rw [map_fd_eq, hxkey]
    rfl
  refine H.close (fun fd' place => ?_) rfl (H.nodup_pipe_set ht (H.nodup_pipe i t ht))
  · cases place with
    | pipe j =>
      have hpending : ((s.closed i t bev fd h log).threads[j]?).map LibeventThread.pending =
          (s.threads[j]?).map LibeventThread.pending := by
        rw [closed, map_getElem?_set ht]
        rfl
      have hat : (s.closed i t bev fd h log).IsAt (Function.update conns i ((conns i).erase x)) fd'
          (.pipe j) ↔ s.IsAt conns fd' (.pipe j) := by
        rw [isAt_pipe_iff, isAt_pipe_iff, hpending]
      rw [hat, iff_and_self]
      rintro hplace rfl
      cases H.place_unique fd' _ (.conn i x) hplace ⟨hx, hxfd⟩
    | conn j p =>
      have hfds : p ≠ x → (h p).map Conn.fd = (s.heap p).map Conn.fd := fun hne => by
        rw [map_fd_eq, map_fd_eq, hkey p hne]
      constructor
      · rintro ⟨hp, hfd'⟩
        obtain ⟨hp, hne⟩ := (W.mem_update_erase hx).mp hp
        have hat : s.IsAt conns fd' (.conn j p) := ⟨hp, (hfds hne).symm.trans hfd'⟩
        refine ⟨?_, hat⟩
        rintro rfl
        exact hne (Place.conn.inj (H.place_unique fd' _ (.conn i x) hat ⟨hx, hxfd⟩)).2
      · rintro ⟨hne', hp, hfd'⟩
        have hne : p ≠ x := by
          rintro rfl
          exact hne' (Option.some.inj (hfd'.symm.trans hxfd))
        exact ⟨(W.mem_update_erase hx).mpr ⟨hp, hne⟩, (hfds hne).trans hfd'⟩

end TcpServer

end MRpc
