import MRpc.Lib.Machine
import MRpc.Tcp.ConnQueue
import Mathlib.Data.List.Perm.Subperm

/-!
# The life of a connection queue

A `ConnQueue` from its constructor through any sequence of `insertConn` and `deleteConn` to its
destructor. The caller deletes only connections that are in the queue, and `new` returns addresses
that are free, which may be those of connections deleted before. The list stays well formed all the
time, and the destructor leaves the heap as the constructor found it.

## Main definitions

* `ConnHeap.CanAllocate`: the addresses that `new` can return.
* `ConnQueue.QueueOp`, `ConnQueue.step`: the operations.
* `ConnQueue.liveConns`: the connections that were inserted and not deleted, the newest first.
* `ConnQueue.Legal`: what the callers of an operation and `new` promise.
* `ConnQueue.WellFormed`: what is meant by a well-formed doubly linked list.

## Main results

* `ConnQueue.Reached.step`: a legal operation does not fault, and its effect on the list and on the
  rest of the heap.
* `ConnQueue.wellFormed_run`: the whole life of a queue.
-/

namespace MRpc

open FixedWidth DoublyLinked History

/-- `new` can return `p`: no `Conn` is there, and it is an address of the machine. -/
def ConnHeap.CanAllocate (h : ConnHeap) (p : Ptr) : Prop := h p = none ∧ p < 18446744073709551616

instance (h : ConnHeap) (p : Ptr) : Decidable (h.CanAllocate p) :=
  inferInstanceAs (Decidable (_ ∧ _))

namespace ConnQueue

/-! ### Operations -/

/-- An operation of the queue; `c` in `insertConn` is the address that `new` returns. -/
inductive QueueOp
  | insertConn (fd : Int) (t : Nat) (c : Ptr)
  | deleteConn (conn : Ptr)
  deriving DecidableEq, Repr

/-- An operation on heap and queue, `none` if it faults. -/
def step (s : ConnHeap × ConnQueue) : QueueOp → Option (ConnHeap × ConnQueue)
  | .insertConn fd t c => s.2.insertConn s.1 fd t c
  | .deleteConn conn => s.2.deleteConn s.1 conn

/-- The live connections after an operation. -/
def liveAfter (live : List Ptr) : QueueOp → List Ptr
  | .insertConn _ _ c => c :: live
  | .deleteConn conn => live.erase conn

/-- The connections inserted and not yet deleted, in reverse order of insertion. -/
def liveConns (ops : List QueueOp) : List Ptr := ops.foldl liveAfter []

theorem liveConns_concat (ops : List QueueOp) (op : QueueOp) :
    liveConns (ops ++ [op]) = liveAfter (liveConns ops) op := by
  rw [liveConns, List.foldl_append]
  rfl

/-- An operation that may come after `before`, for a queue whose sentinels were allocated on the
heap `h₀`: a new connection is at an address that is free, and a connection that is deleted is
live. -/
def Legal (h₀ : ConnHeap) (head tail : Ptr) (before : List QueueOp) : QueueOp → Prop
  | .insertConn _ _ c => h₀.CanAllocate c ∧ c ∉ head :: (liveConns before ++ [tail])
  | .deleteConn conn => conn ∈ liveConns before

instance (h₀ : ConnHeap) (head tail : Ptr) (before : List QueueOp) :
    (op : QueueOp) → Decidable (Legal h₀ head tail before op)
  | .insertConn _ _ _ => inferInstanceAs (Decidable (_ ∧ _))
  | .deleteConn _ => inferInstanceAs (Decidable (_ ∈ _))

/-- The queue is a well-formed doubly linked list of the connections `live`. -/
structure WellFormed (q : ConnQueue) (h : ConnHeap) (live : List Ptr) : Prop where
  forward : Traverses h.links.next (some q.head) (q.head :: (live ++ [q.tail]))
  backward : Traverses h.links.pre (some q.tail) (q.head :: (live ++ [q.tail])).reverse
  nodup : (q.head :: (live ++ [q.tail])).Nodup
  head_pre : (h q.head).map Conn.pre = some none
  tail_next : (h q.tail).map Conn.next = some none
  total_eq : q.total = live.length

/-! ### One operation -/

/-- What a sequence of operations leads to: the queue holds the live connections, and the heap is
`h₀` apart from its nodes. -/
structure Reached (h₀ : ConnHeap) (head tail : Ptr) (live : List Ptr) (s : ConnHeap × ConnQueue) :
    Prop where
  holds : s.2.Holds s.1 live
  head_eq : s.2.head = head
  tail_eq : s.2.tail = tail
  frame : ∀ p ∉ head :: (live ++ [tail]), s.1 p = h₀ p
  canAllocate : ∀ p ∈ head :: (live ++ [tail]), h₀.CanAllocate p

variable {h₀ : ConnHeap} {head tail : Ptr} {live : List Ptr} {s : ConnHeap × ConnQueue}

theorem Reached.nodes_eq (R : Reached h₀ head tail live s) :
    s.2.nodes live = head :: (live ++ [tail]) := by
  rw [nodes, R.head_eq, R.tail_eq]

theorem reached_new (hhead : h₀.CanAllocate head) (htail : h₀.CanAllocate tail)
    (hne : head ≠ tail) : Reached h₀ head tail [] (new h₀ head tail) where
  holds := holds_new h₀ hne
  head_eq := rfl
  tail_eq := rfl
  frame p hp := by
    simp only [List.nil_append, List.mem_cons, List.not_mem_nil, or_false, not_or] at hp
    simp only [new, ConnHeap.set_of_ne hp.2, ConnHeap.set_of_ne hp.1]
  canAllocate p hp := by
    simp only [List.nil_append, List.mem_cons, List.not_mem_nil, or_false] at hp
    rcases hp with rfl | rfl
    · exact hhead
    · exact htail

theorem Reached.insertConn (R : Reached h₀ head tail live s) {c : Ptr} (hc : h₀.CanAllocate c)
    (hfree : c ∉ head :: (live ++ [tail])) (fd : Int) (t : Nat) :
    ∃ u, s.2.insertConn s.1 fd t c = some u ∧ Reached h₀ head tail (c :: live) u := by
  have hnone : s.1 c = none := by
    rw [R.frame c hfree]
    exact hc.1
  obtain ⟨h', heq, hholds, -, -, hframe⟩ := R.holds.insertConn hnone fd t
  refine ⟨_, heq, hholds, R.head_eq, R.tail_eq, ?_, ?_⟩
  · intro p hp
    have hpc : p ≠ c := by grind
    have hold : p ∉ head :: (live ++ [tail]) := by grind
    exact (hframe p hpc (R.nodes_eq ▸ hold)).trans (R.frame p hold)
  · intro p hp
    by_cases hpc : p = c
    · exact hpc ▸ hc
    · exact R.canAllocate p (by grind)

theorem Reached.deleteConn (R : Reached h₀ head tail live s) {conn : Ptr} (hconn : conn ∈ live) :
    ∃ u, s.2.deleteConn s.1 conn = some u ∧ Reached h₀ head tail (live.erase conn) u := by
  obtain ⟨h', heq, hholds, hgone, -, hframe⟩ := R.holds.deleteConn hconn
  refine ⟨_, heq, hholds, R.head_eq, R.tail_eq, ?_, ?_⟩
  · intro p hp
    by_cases hpc : p = conn
    · subst hpc
      exact hgone.trans (R.canAllocate p (by simp [hconn])).1.symm
    · have hold : p ∉ head :: (live ++ [tail]) := by
        simpa only [List.mem_cons, List.mem_append, List.mem_erase_of_ne hpc] using hp
      exact (hframe p (R.nodes_eq ▸ hold)).trans (R.frame p hold)
  · intro p hp
    have hsub := (List.erase_subset : live.erase conn ⊆ live)
    exact R.canAllocate p (by grind)

/-- A legal operation does not fault, and has the effect on the live connections that it is for. -/
theorem Reached.step {before : List QueueOp} {op : QueueOp}
    (R : Reached h₀ head tail (liveConns before) s) (hop : Legal h₀ head tail before op) :
    ∃ u, ConnQueue.step s op = some u ∧ Reached h₀ head tail (liveConns (before ++ [op])) u := by
  rw [liveConns_concat]
  cases op with
  | insertConn fd t c => exact R.insertConn hop.1 hop.2 fd t
  | deleteConn conn => exact R.deleteConn hop

/-! ### Whole runs -/

/-- The counter has not wrapped around: there are no more connections than addresses. -/
theorem Reached.total_eq (R : Reached h₀ head tail live s) : s.2.total = live.length := by
  have hnodup := R.holds.linked.nodup
  rw [R.nodes_eq] at hnodup
  have hsub : head :: (live ++ [tail]) ⊆ List.range 18446744073709551616 := fun p hp =>
    List.mem_range.mpr (R.canAllocate p hp).2
  have hle := (List.subperm_of_subset hnodup hsub).length_le
  rw [List.length_range, List.length_cons, List.length_append] at hle
  rw [R.holds.total_eq, uint64_natCast_of_lt (by omega)]

theorem Reached.wellFormed (R : Reached h₀ head tail live s) : s.2.WellFormed s.1 live where
  forward := R.holds.traverses.1
  backward := R.holds.traverses.2
  nodup := R.holds.linked.nodup
  head_pre := by
    obtain ⟨c, hc⟩ := R.holds.allocated s.2.head (by simp [nodes])
    simpa [ConnHeap.links, hc] using R.holds.head_pre
  tail_next := by
    obtain ⟨c, hc⟩ := R.holds.allocated s.2.tail (by simp [nodes])
    simpa [ConnHeap.links, hc] using R.holds.tail_next
  total_eq := R.total_eq

/-- What is left when the nodes of the queue are deleted is the heap from before the constructor. -/
theorem Reached.free_nodes (R : Reached h₀ head tail live s) :
    s.1.free (head :: (live ++ [tail])) = h₀ := by
  funext p
  rw [ConnHeap.free]
  split_ifs with hp
  · exact (R.canAllocate p hp).1.symm
  · exact R.frame p hp

/-- **The life of a queue.** Every sequence of `insertConn` and `deleteConn` in which only live
connections are deleted succeeds on a new queue, and leaves it a well-formed doubly linked list of
the live connections, the newest first. The destructor then ends, having deleted both sentinels and
every live connection once and in this order, and nothing else: the heap is again that from before
the constructor. -/
theorem wellFormed_run (hhead : h₀.CanAllocate head) (htail : h₀.CanAllocate tail)
    (hne : head ≠ tail) {ops : List QueueOp} (hops : Always (Legal h₀ head tail) ops) :
    ∃ h q, Machine.run step (new h₀ head tail) ops = some (h, q) ∧
      q.head = head ∧ q.tail = tail ∧ q.WellFormed h (liveConns ops) ∧
      ∀ n, (liveConns ops).length + 3 ≤ n →
        q.destructor h n = some (some ⟨h₀, none, head :: (liveConns ops ++ [tail])⟩) := by
  obtain ⟨⟨h, q⟩, hrun, R⟩ := Machine.exists_run_of_always
    (P := fun before s => Reached h₀ head tail (liveConns before) s)
    (reached_new hhead htail hne) (fun _ _ _ R hop => R.step hop) hops
  refine ⟨h, q, hrun, R.head_eq, R.tail_eq, R.wellFormed, fun n hn => ?_⟩
  rw [R.holds.destructor hn, R.nodes_eq, R.free_nodes]

/-- Two connections come, the first goes, a third one gets its address, and the second goes. -/
def reuseOps : List QueueOp :=
  [.insertConn 5 0 3, .insertConn 6 1 4, .deleteConn 3, .insertConn 7 0 3, .deleteConn 4]

theorem wellFormed_run_reuse :
    ∃ h q, Machine.run step (new (fun _ => none) 1 2) reuseOps = some (h, q) ∧
      q.WellFormed h [3] ∧ q.total = 1 ∧
      q.destructor h 4 = some (some ⟨fun _ => none, none, [1, 3, 2]⟩) := by
  have hops : Always (Legal (fun _ => none) 1 2) reuseOps := by
    change Always _ ([] ++ [_] ++ [_] ++ [_] ++ [_] ++ [_])
    iterate 5 refine always_concat.mpr ⟨?_, by decide⟩
    exact always_nil
  obtain ⟨h, q, hrun, -, -, hwf, hdestr⟩ :=
    wellFormed_run (by decide) (by decide) (by decide) hops
  exact ⟨h, q, hrun, hwf, hwf.total_eq, hdestr 4 (by decide)⟩

end ConnQueue

end MRpc
