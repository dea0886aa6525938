import MRpc.Tcp.Workers

/-!
# Balancing the load

`acceptCb` gives a connection to the first of the workers with the fewest linked connections. A
worker links a connection only when it reads its pipe, so the connections that wait in pipes are not
counted, and a burst of accepts goes to one worker. As long as no connection closes, the numbers of
connections handed to any two workers differ by at most one at every moment of a run exactly when
the worker that `acceptCb` finds also has the fewest connections with its pipe counted in.

## Main definitions

* `TcpServer.assigned`: the connections handed to a worker, waiting or linked.
* `TcpServer.Balanced`: the numbers of any two workers differ by at most one.
* `TcpServer.FirstFewest`, `TcpServer.AcceptsForFewest`: the first worker with the fewest linked
  connections, and the accepts at which it has the fewest in all.

## Main results

* `TcpServer.firstFewest_leastLoaded`: what the loop of `acceptCb` finds.
* `TcpServer.assigned_accept`, `TcpServer.assigned_notify`: an accept adds one connection, a
  notification none.
* `TcpServer.throughout_balanced_iff`: the runs in which the load is balanced.
-/

namespace MRpc

open FixedWidth Machine

namespace TcpServer

/-- The number of connections handed to the worker `i`: those that wait in its pipe and those that
it links. -/
def assigned (s : TcpServer) (i : Nat) : Nat :=
  match s.threads[i]? with
  | none => 0
  | some t => t.pending.length + t.queue.total

/-- The numbers of connections handed to any two workers differ by at most one. -/
def Balanced (s : TcpServer) : Prop :=
  ∀ i j, i < s.threads.length → j < s.threads.length → s.assigned i ≤ s.assigned j + 1

/-- The first of the workers with the fewest linked connections. -/
structure FirstFewest (s : TcpServer) (i : Nat) : Prop where
  lt : i < s.threads.length
  fewest : ∀ j < s.threads.length, s.getCount i ≤ s.getCount j
  first : ∀ j < i, s.getCount i < s.getCount j

/-- At an accept, the first of the workers with the fewest linked connections has been handed no
more connections than any other. -/
def AcceptsForFewest (s : TcpServer) (a : TcpAction) : Prop :=
  ∀ fd, a = .accept fd → ∀ i, s.FirstFewest i → ∀ j < s.threads.length, s.assigned i ≤ s.assigned j

variable {s t : TcpServer}

/-! ### The choice of a worker -/

theorem FirstFewest.unique {i j : Nat} (hi : s.FirstFewest i) (hj : s.FirstFewest j) : i = j := by
  have hij := hi.fewest j hj.lt
  have hji := hj.fewest i hi.lt
  rcases Nat.lt_trichotomy i j with hlt | heq | hlt
  · have := hj.first i hlt
    omega
  · exact heq
  · have := hi.first j hlt
    omega

/-- The loop of `acceptCb` over the first `n` workers keeps the first of those with the fewest
connections. -/
theorem foldl_first (s : TcpServer) (n : Nat) :
    let r := (List.range n).foldl (fun num i => if s.getCount num > s.getCount i then i else num) 0
    (∀ j < n, s.getCount r ≤ s.getCount j) ∧ ∀ j < r, s.getCount r < s.getCount j := by
  induction n with
  | zero => simp
  | succ n ih =>
    rw [List.range_succ, List.foldl_append, List.foldl_cons, List.foldl_nil]
    generalize (List.range n).foldl
      (fun num i => if s.getCount num > s.getCount i then i else num) 0 = r at ih
    obtain ⟨hfewest, hfirst⟩ := ih
    split_ifs with hless
    · refine ⟨fun j hj => ?_, fun j hj => ?_⟩
      · rcases Nat.lt_succ_iff_lt_or_eq.mp hj with hj | rfl
        · exact hless.le.trans (hfewest j hj)
        · exact Nat.le_refl _
      · exact hless.trans_le (hfewest j hj)
    · refine ⟨fun j hj => ?_, hfirst⟩
      rcases Nat.lt_succ_iff_lt_or_eq.mp hj with hj | rfl
      · exact hfewest j hj
      · exact Nat.le_of_not_lt hless

theorem firstFewest_leastLoaded (h : 0 < s.threads.length) : s.FirstFewest s.leastLoaded :=
  ⟨leastLoaded_lt h, (s.foldl_first s.threads.length).1, (s.foldl_first s.threads.length).2⟩

/-- The worker that an accept chooses decides whether it goes to one with no more connections than
any other. -/
theorem acceptsForFewest_accept_iff (h : 0 < s.threads.length) (fd : Int) :
    s.AcceptsForFewest (.accept fd) ↔
      ∀ j < s.threads.length, s.assigned s.leastLoaded ≤ s.assigned j := by
  have hfirst := firstFewest_leastLoaded h
  constructor
  · exact fun hfewest => hfewest fd rfl _ hfirst
  · rintro hfewest _ - i hi
    rw [hi.unique hfirst]
    exact hfewest

/-! ### The number of connections handed to a worker -/

theorem assigned_eq_view (s : TcpServer) (i : Nat) :
    s.assigned i = match s.view i with
      | none => 0
      | some v => (v.1.filter (· ≠ exitCode)).length + v.2.2 := by
  rw [assigned, view]
  cases s.threads[i]? <;> rfl

/-- `acceptCb` hands one connection to the worker that it has chosen. -/
theorem assigned_accept {fd : Int} (hfd : fd ≠ exitCode) (h : s.step (.accept fd) = some t)
    (j : Nat) : t.assigned j = s.assigned j + if j = s.leastLoaded then 1 else 0 := by
  obtain ⟨u, hu, hview⟩ := view_accept h
  rw [assigned_eq_view, hview, assigned_eq_view]
  split_ifs with hj
  · have hold : s.view j = some u.view := by rw [hj, view, hu]; rfl
    rw [hold]
    simp only [List.filter_append, List.length_append, LibeventThread.view]
    simp [hfd]
    omega
  · rfl

/-- A worker that reads its pipe has as many connections as before. -/
theorem assigned_notify {count : Nat} {conns : Nat → List Ptr} (H : Invariant count s conns)
    {i : Nat} (h : s.step (.notify i) = some t) (j : Nat) : t.assigned j = s.assigned j := by
  obtain ⟨u, value, pipe, hu, hpipe, hview⟩ := view_notify h
  rw [assigned_eq_view, hview, assigned_eq_view]
  by_cases hj : j = i
  · have hold : s.view j = some u.view := by rw [hj, view, hu]; rfl
    rw [hold, if_pos hj]
    have htotal : uint64 (u.queue.total + 1) = u.queue.total + 1 := by
      have hle := (H.conns_length_le i).trans H.placed.openFds_length_le
      rw [← H.total_eq hu] at hle
      exact uint64_natCast_of_lt (n := u.queue.total + 1) (by omega)
    by_cases hexit : value = exitCode
    · simp [LibeventThread.view, hpipe, hexit]
    · simp [LibeventThread.view, hpipe, hexit, htotal]
      omega
  · rw [if_neg hj]

/-! ### Whole runs -/

theorem length_of_reachable {count : Nat} (h : Reachable TcpServer.next (TcpServer.new count) s) :
    s.threads.length = count := by
  obtain ⟨conns, H⟩ := Invariant.of_reachable h
  exact H.threads_length

theorem assigned_new (count i : Nat) : (TcpServer.new count).assigned i = 0 := by
  rw [assigned_eq_view]
  cases hv : (TcpServer.new count).view i with
  | none => rfl
  | some v => rw [view_new hv]; rfl

/-- An accept keeps the load balanced exactly when it is for a worker with no more connections than
any other. -/
theorem balanced_accept_iff {fd : Int} (hfd : fd ≠ exitCode) (h : s.step (.accept fd) = some t)
    (hlen : t.threads.length = s.threads.length) (H : s.Balanced) :
    t.Balanced ↔ ∀ j < s.threads.length, s.assigned s.leastLoaded ≤ s.assigned j := by
  obtain ⟨u, hu, -⟩ := view_accept h
  have hlt := (List.getElem?_eq_some_iff.mp hu).1
  simp only [Balanced, hlen, assigned_accept hfd h]
  constructor
  · intro H' j hj
    by_cases hleast : j = s.leastLoaded
    · rw [hleast]
    · have hle := H' s.leastLoaded j hlt hj
      rw [if_pos rfl, if_neg hleast] at hle
      omega
  · intro hfewest i j hi hj
    have hij := H i j hi hj
    split_ifs with h1 h2 h2
    · omega
    · have := hfewest j hj
      rw [← h1] at this
      omega
    · omega
    · exact hij

/-- **The runs in which the load is balanced.** In a run of accepts and notifications, the numbers
of connections handed to any two workers differ by at most one at every moment exactly when, at
every accept, the first of the workers with the fewest linked connections has been handed no more
connections than any other. -/
theorem throughout_balanced_iff {count : Nat} {as : List TcpAction}
    (hopen : ∀ a ∈ as, (∃ fd, a = .accept fd) ∨ ∃ i, a = .notify i) :
    Throughout TcpServer.next Balanced (TcpServer.new count) as ↔
      EachStep TcpServer.next (fun s a _ => s.AcceptsForFewest a) (TcpServer.new count) as := by
  refine throughout_iff_eachStep ?_ fun s a t ha hs H hst => ?_
  · intro i j _ _
    simp [assigned_new]
  have hlen : t.threads.length = s.threads.length := by
    obtain ⟨before, hbefore⟩ := hs
    have ht : Reachable TcpServer.next (TcpServer.new count) t :=
      ⟨before ++ [a], by rw [run_concat, hbefore]; exact hst⟩
    rw [length_of_reachable ht, length_of_reachable ⟨before, hbefore⟩]
  obtain ⟨hen, hstep⟩ := step_of_next hst
  rcases hopen a ha with ⟨fd, rfl⟩ | ⟨i, rfl⟩
  · rw [balanced_accept_iff (ne_exitCode_of_enabled hen) hstep hlen H]
    obtain ⟨u, hu, -⟩ := view_accept hstep
    have hpos : 0 < s.threads.length :=
      (Nat.zero_le _).trans_lt (List.getElem?_eq_some_iff.mp hu).1
    exact (acceptsForFewest_accept_iff hpos fd).symm
  · refine iff_of_true (fun i' j hi hj => ?_) (by simp [AcceptsForFewest])
    obtain ⟨conns, Hs⟩ := Invariant.of_reachable hs
    rw [assigned_notify Hs hstep, assigned_notify Hs hstep]
    rw [hlen] at hi hj
    exact H i' j hi hj

/-- Four connections for two workers, each of which reads its pipe before the next one comes. -/
def alternatingActions : List TcpAction :=
  [.accept 5, .notify 0, .accept 6, .notify 1, .accept 7, .notify 0, .accept 8, .notify 1]

theorem balanced_alternating :
    (run TcpServer.next (TcpServer.new 2) alternatingActions).map (fun s =>
        (s.assigned 0, s.assigned 1)) = some (2, 2) ∧
      Throughout TcpServer.next Balanced (TcpServer.new 2) alternatingActions := by
  refine ⟨by decide +kernel, (throughout_balanced_iff (by simp [alternatingActions])).mpr ?_⟩
  rintro before a after s t heq hrun -
  have hbefore : before = alternatingActions.take before.length := by
    rw [heq, List.take_left]
  have hnext : alternatingActions[before.length]? = some a := by simp [heq]
  have hlt : before.length < 8 := by
    have hlen := congrArg List.length heq
    simp only [alternatingActions, List.length_cons, List.length_nil, List.length_append] at hlen
    omega
  rw [hbefore] at hrun
  -- The state before each of the four accepts.
  have hcheck : ∀ n ∈ [0, 2, 4, 6], (run TcpServer.next (TcpServer.new 2)
      (alternatingActions.take n)).all (fun s => decide (0 < s.threads.length) &&
        decide (∀ j < s.threads.length, s.assigned s.leastLoaded ≤ s.assigned j)) = true := by
    decide +kernel
  have hodd : ∀ n ∈ [1, 3, 5, 7], ∀ fd, alternatingActions[n]? ≠ some (.accept fd) := by
    simp [alternatingActions]
  intro fd ha
  subst ha
  have hmem : before.length ∈ [0, 2, 4, 6] := by
    by_contra hnot
    refine hodd before.length ?_ fd hnext
    simp only [List.mem_cons, List.not_mem_nil, or_false] at hnot ⊢
    omega
  have hs := hcheck _ hmem
  rw [hrun, Option.all_some, Bool.and_eq_true, decide_eq_true_eq, decide_eq_true_eq] at hs
  exact (acceptsForFewest_accept_iff hs.1 fd).mpr hs.2 fd rfl

/-- Two connections that come before the first worker reads its pipe both go to it. -/
theorem not_balanced_burst :
    ∃ s, run TcpServer.next (TcpServer.new 2) [.accept 5, .accept 6] = some s ∧ ¬ s.Balanced :=
  ⟨_, rfl, fun H => absurd (H 0 1 (by decide) (by decide)) (by decide)⟩

end TcpServer

end MRpc
