import MRpc.Tcp.Conservation

/-!
# What a step does to the workers

The pipe of a worker, whether it runs its loop, and how many connections it counts: each callback
changes these for one worker at most, and `quit` writes to every pipe. The lemmas here say this once
for every callback; what holds of pipes and counters over whole runs is derived from them.

## Main definitions

* `TcpServer.view`, `TcpServer.duty`: pipe, loop and counter of a worker, and the first two.

## Main results

* `TcpServer.view_accept`, `TcpServer.view_notify`: what the callbacks that move a descriptor do.
* `TcpServer.duty_of_step`, `TcpServer.duty_cases`: what any callback does to pipes and loops.
-/

namespace MRpc

open FixedWidth

/-- The pipe of a worker, whether its loop runs, and the counter of its queue. -/
def LibeventThread.view (t : LibeventThread) : List Int × Bool × Nat :=
  (t.pipe, t.looping, t.queue.total)

namespace TcpServer

variable {s t : TcpServer}

/-- The view of the worker `i`. -/
def view (s : TcpServer) (i : Nat) : Option (List Int × Bool × Nat) :=
  (s.threads[i]?).map LibeventThread.view

/-- The pipe of the worker `i`, and whether its loop runs. -/
def duty (s : TcpServer) (i : Nat) : Option (List Int × Bool) :=
  (s.threads[i]?).map fun u => (u.pipe, u.looping)

theorem duty_eq_view (s : TcpServer) (i : Nat) :
    s.duty i = (s.view i).map fun v => (v.1, v.2.1) := by
  rw [duty, view, Option.map_map]
  rfl

theorem step_of_next {a : TcpAction} (h : s.next a = some t) :
    s.enabled a = true ∧ s.step a = some t := by
  rw [next] at h
  split_ifs at h with ha
  exact ⟨ha, h⟩

theorem ne_exitCode_of_enabled {fd : Int} (h : s.enabled (.accept fd) = true) :
    fd ≠ exitCode := by
  simp only [enabled, Bool.and_eq_true, decide_eq_true_eq] at h
  simp only [exitCode]
  omega

theorem view_set {i : Nat} {u v : LibeventThread} (hu : s.threads[i]? = some u)
    (ht : t.threads = s.threads.set i v) (j : Nat) :
    t.view j = if j = i then some v.view else s.view j := by
  rw [view, ht, List.getElem?_set, view]
  have hlt := (List.getElem?_eq_some_iff.mp hu).1
  by_cases hj : i = j
  · simp [hj, hj ▸ hlt]
  · simp [hj, Ne.symm hj]

/-- The workers of a new server have empty pipes and queues, and run. -/
theorem view_new {count i : Nat} {v : List Int × Bool × Nat}
    (h : (TcpServer.new count).view i = some v) : v = ([], true, 0) := by
  induction count with
  | zero => simp [TcpServer.new, TcpServer.view] at h
  | succ count ih =>
    obtain ⟨u, hu, rfl⟩ := Option.map_eq_some_iff.mp h
    rcases threads_addThread hu with hu | ⟨-, rfl⟩
    · exact ih (by rw [TcpServer.view, hu]; rfl)
    · rfl

/-- `acceptCb` writes the descriptor to the pipe of the worker it has chosen. -/
theorem view_accept {fd : Int} (h : s.step (.accept fd) = some t) :
    ∃ u : LibeventThread, s.threads[s.leastLoaded]? = some u ∧ ∀ j, t.view j =
      if j = s.leastLoaded then some (u.pipe ++ [fd], u.looping, u.queue.total) else s.view j := by
  have hleast : { s with openFds := fd :: s.openFds }.leastLoaded = s.leastLoaded := rfl
  simp only [step, acceptCb, hleast, Option.bind_eq_bind, Option.bind_eq_some_iff, Option.pure_def,
    Option.some.injEq] at h
  obtain ⟨u, hu, rfl⟩ := h
  exact ⟨u, hu, fun j => view_set (v := { u with pipe := u.pipe ++ [fd] }) hu rfl j⟩

theorem queue_of_insertConn {q q' : ConnQueue} {heap heap' : ConnHeap} {fd : Int} {i : Nat}
    {conn : Ptr} (h : q.insertConn heap fd i conn = some (heap', q')) :
    q' = { q with total := uint64 (q.total + 1) } := by
  simp only [ConnQueue.insertConn, Option.bind_eq_bind, Option.bind_eq_some_iff, Option.pure_def,
    Option.some.injEq, Prod.mk.injEq] at h
  obtain ⟨-, -, -, -, -, -, -, -, -, -, -, -, -, rfl⟩ := h
  rfl

/-- `notifyHandler` takes the first value from the pipe: a worker that finds `EXIT_CODE` leaves its
loop, and any other value is a connection that it links. -/
theorem view_notify {i : Nat} (h : s.step (.notify i) = some t) :
    ∃ (u : LibeventThread) (value : Int) (pipe : List Int), s.threads[i]? = some u ∧
      u.pipe = value :: pipe ∧ ∀ j, t.view j =
        if j = i then
          some (if value = exitCode then (pipe, false, u.queue.total)
            else (pipe, u.looping, uint64 (u.queue.total + 1)))
        else s.view j := by
  simp only [step, notifyHandler, Option.bind_eq_bind, Option.bind_eq_some_iff] at h
  obtain ⟨u, hu, h⟩ := h
  split at h
  case h_1 => cases h
  case h_2 value pipe hpipe =>
    refine ⟨u, value, pipe, hu, hpipe, ?_⟩
    split_ifs at h ⊢ with hexit
    · obtain rfl := Option.some.inj h
      exact fun j => view_set (v := { u with pipe := pipe, looping := false }) hu rfl j
    · simp only [Option.bind_eq_some_iff, Option.pure_def, Option.some.injEq] at h
      obtain ⟨⟨heap, queue⟩, hinsert, heap', -, rfl⟩ := h
      obtain rfl := queue_of_insertConn hinsert
      exact fun j => view_set (v := { u with
        pipe := pipe, queue := { u.queue with total := uint64 (u.queue.total + 1) } }) hu rfl j

/-- `quit` writes `EXIT_CODE` to every pipe. -/
theorem view_quit (s : TcpServer) (j : Nat) :
    s.quit.view j = (s.view j).map fun v => (v.1 ++ [exitCode], v.2) := by
  simp only [view, quit, List.getElem?_map, Option.map_map]
  rfl

/-- The callbacks for reading and writing leave the workers alone. -/
theorem threads_of_bufferCb {bev : Ptr} {user : Ptr → TcpEvent}
    (h : s.bufferCb bev user = some t) : t.threads = s.threads := by
  simp only [bufferCb, Option.bind_eq_bind, Option.bind_eq_some_iff, Option.pure_def,
    Option.some.injEq] at h
  obtain ⟨-, -, -, -, -, -, -, -, rfl⟩ := h
  rfl

theorem threads_of_buffereventFree {bev : Ptr} (h : s.buffereventFree bev = some t) :
    t.threads = s.threads := by
  simp only [buffereventFree, Option.bind_eq_bind, Option.bind_eq_some_iff, Option.pure_def,
    Option.some.injEq] at h
  obtain ⟨-, -, rfl⟩ := h
  rfl

/-- Deleting a `Conn` changes neither pipe nor loop of a worker. -/
theorem duty_of_deleteConn {conn : Ptr} (h : s.deleteConn conn = some t) (j : Nat) :
    t.duty j = s.duty j := by
  simp only [deleteConn, Option.bind_eq_bind, Option.bind_eq_some_iff, Option.pure_def,
    Option.some.injEq] at h
  obtain ⟨-, -, i, -, u, hu, r, -, rfl⟩ := h
  exact map_getElem?_set (u := { u with queue := r.2 }) hu rfl j

theorem duty_congr (h : t.threads = s.threads) (j : Nat) : t.duty j = s.duty j := by
  rw [duty, duty, h]

/-- What a callback can do to pipe and loop of a worker. -/
theorem duty_of_step {a : TcpAction} (h : s.step a = some t) :
    (∃ fd u, a = .accept fd ∧ s.threads[s.leastLoaded]? = some u ∧ ∀ j, t.duty j =
      if j = s.leastLoaded then some (u.pipe ++ [fd], u.looping) else s.duty j) ∨
    (∃ (i : Nat) (u : LibeventThread) (value : Int) (pipe : List Int), a = .notify i ∧
      s.threads[i]? = some u ∧ u.pipe = value :: pipe ∧ ∀ j, t.duty j =
        if j = i then some (pipe, if value = exitCode then false else u.looping) else s.duty j) ∨
    (a = .quit ∧ ∀ j, t.duty j = (s.duty j).map fun d => (d.1 ++ [exitCode], d.2)) ∨
    (a ≠ .quit ∧ (∀ fd, a ≠ .accept fd) ∧ ∀ j, t.duty j = s.duty j) := by
  cases a with
  | accept fd =>
    obtain ⟨u, hu, hview⟩ := view_accept h
    refine Or.inl ⟨fd, u, rfl, hu, fun j => ?_⟩
    rw [duty_eq_view, hview, duty_eq_view]
    split_ifs <;> rfl
  | notify i =>
    obtain ⟨u, value, pipe, hu, hpipe, hview⟩ := view_notify h
    refine Or.inr (Or.inl ⟨i, u, value, pipe, rfl, hu, hpipe, fun j => ?_⟩)
    rw [duty_eq_view, hview, duty_eq_view]
    split_ifs <;> rfl
  | quit =>
    obtain rfl := Option.some.inj h
    refine Or.inr (Or.inr (Or.inl ⟨rfl, fun j => ?_⟩))
    rw [duty_eq_view, view_quit, duty_eq_view, Option.map_map, Option.map_map]
    rfl
  | read bev =>
    exact Or.inr (Or.inr (Or.inr ⟨by simp, by simp, duty_congr (threads_of_bufferCb h)⟩))
  | write bev =>
    exact Or.inr (Or.inr (Or.inr ⟨by simp, by simp, duty_congr (threads_of_bufferCb h)⟩))
  | event bev =>
    obtain ⟨conn, u, hdelete, hfree⟩ := exists_of_bufferEventCb h
    refine Or.inr (Or.inr (Or.inr ⟨by simp, by simp, fun j => ?_⟩))
    rw [duty_congr (threads_of_buffereventFree hfree), duty_of_deleteConn hdelete]
    rfl
  | readError bev =>
    obtain ⟨u, conn, b, v, hread, hfree, hdelete⟩ := exists_of_readError h
    refine Or.inr (Or.inr (Or.inr ⟨by simp, by simp, fun j => ?_⟩))
    rw [duty_of_deleteConn hdelete, duty_congr (threads_of_buffereventFree hfree),
      duty_congr (threads_of_bufferCb hread)]

/-- Where pipe and loop of a worker come from. -/
theorem duty_cases {a : TcpAction} (h : s.step a = some t) {j : Nat} {new : List Int × Bool}
    (hnew : t.duty j = some new) :
    ∃ old, s.duty j = some old ∧
      ((∃ fd, a = .accept fd ∧ j = s.leastLoaded ∧ new = (old.1 ++ [fd], old.2)) ∨
        (∃ value pipe, a = .notify j ∧ old.1 = value :: pipe ∧
          new = (pipe, if value = exitCode then false else old.2)) ∨
        (a = .quit ∧ new = (old.1 ++ [exitCode], old.2)) ∨ (a ≠ .quit ∧ new = old)) := by
  rcases duty_of_step h with ⟨fd, u, rfl, hu, hduty⟩ |
    ⟨i, u, value, pipe, rfl, hu, hpipe, hduty⟩ | ⟨rfl, hduty⟩ | ⟨hquit, -, hduty⟩ <;>
    rw [hduty] at hnew
  · by_cases hj : j = s.leastLoaded
    · rw [if_pos hj] at hnew
      refine ⟨(u.pipe, u.looping), by rw [duty, hj, hu]; rfl, Or.inl ⟨fd, rfl, hj, ?_⟩⟩
      exact (Option.some.inj hnew).symm
    · rw [if_neg hj] at hnew
      exact ⟨new, hnew, Or.inr (Or.inr (Or.inr ⟨by simp, rfl⟩))⟩
  · by_cases hj : j = i
    · rw [if_pos hj] at hnew
      refine ⟨(u.pipe, u.looping), by rw [duty, hj, hu]; rfl,
        Or.inr (Or.inl ⟨value, pipe, by rw [hj], hpipe, (Option.some.inj hnew).symm⟩)⟩
    · rw [if_neg hj] at hnew
      exact ⟨new, hnew, Or.inr (Or.inr (Or.inr ⟨by simp, rfl⟩))⟩
  · obtain ⟨old, hold, rfl⟩ := Option.map_eq_some_iff.mp hnew
    exact ⟨old, hold, Or.inr (Or.inr (Or.inl ⟨rfl, rfl⟩))⟩
  · exact ⟨new, hnew, Or.inr (Or.inr (Or.inr ⟨hquit, rfl⟩))⟩

end TcpServer

end MRpc
