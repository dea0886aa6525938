import Mathlib.Data.List.Chain
import Mathlib.Data.List.Nodup

/-!
# Doubly linked lists

Nodes of an arbitrary type, each with an optional link to the next node and one to the node before.
`Linked L l` says that the links `L` run through the nodes of `l` in order, forward and backward,
and that no node occurs twice. The two operations change links in place: a node is put between two
neighbours, and a node is taken out from between its neighbours.

## Main definitions

* `DoublyLinked.Links`, `DoublyLinked.Linked`: links, and the lists they run through.
* `DoublyLinked.Traverses`: the nodes that one of the two links leads to from a node.
* `DoublyLinked.Links.insert`, `DoublyLinked.Links.unlink`: the operations.

## Main results

* `DoublyLinked.Linked.insert`, `DoublyLinked.Linked.unlink`: what the operations do to a list.
* `DoublyLinked.Linked.traverses_next`, `DoublyLinked.Linked.traverses_pre`: both links traverse the
  list, from either end.
* `DoublyLinked.Linked.congr`: a list depends on the links of its own nodes only.
-/

namespace DoublyLinked

variable {α : Type*}

/-- The links of every node. -/
structure Links (α : Type*) where
  next : α → Option α
  pre : α → Option α

/-- The nodes `a` and `b` are linked to each other, in this order. -/
def Links.Neighbours (L : Links α) (a b : α) : Prop := L.next a = some b ∧ L.pre b = some a

/-- The links run through `l`, which has no node twice. -/
structure Linked (L : Links α) (l : List α) : Prop where
  nodup : l.Nodup
  chain : l.IsChain L.Neighbours

variable {L L' : Links α} {l xs ys : List α} {a b c : α}

theorem Linked.congr (h : Linked L l) (heq : ∀ x ∈ l, L'.next x = L.next x ∧ L'.pre x = L.pre x) :
    Linked L' l := by
  refine ⟨h.nodup, h.chain.imp_of_mem_imp ?_⟩
  intro x y hx hy hxy
  rw [Links.Neighbours, (heq x hx).1, (heq y hy).2]
  exact hxy

/-- The first of the two neighbours has one successor, so a list that ends in it stays linked when
its link to the next node is changed. -/
theorem chain_left (hchain : (xs ++ [a]).IsChain L.Neighbours) (hab : L.next a = some b)
    (hb : b ∉ xs ++ [a])
    (hnext : ∀ x ∈ xs ++ [a], x ≠ a → L'.next x = L.next x)
    (hpre : ∀ x ∈ xs ++ [a], L'.pre x = L.pre x) : (xs ++ [a]).IsChain L'.Neighbours := by
  refine hchain.imp_of_mem_imp fun x y hx hy hxy => ?_
  have hxa : x ≠ a := by
    rintro rfl
    obtain rfl : b = y := Option.some.inj (hab.symm.trans hxy.1)
    exact hb hy
  rw [Links.Neighbours, hnext x hx hxa, hpre y hy]
  exact hxy

/-- The same for a list that starts in the second neighbour, and its link backward. -/
theorem chain_right (hchain : (b :: ys).IsChain L.Neighbours) (hab : L.pre b = some a)
    (ha : a ∉ b :: ys)
    (hnext : ∀ x ∈ b :: ys, L'.next x = L.next x)
    (hpre : ∀ x ∈ b :: ys, x ≠ b → L'.pre x = L.pre x) : (b :: ys).IsChain L'.Neighbours := by
  refine hchain.imp_of_mem_imp fun x y hx hy hxy => ?_
  have hyb : y ≠ b := by
    rintro rfl
    obtain rfl : a = x := Option.some.inj (hab.symm.trans hxy.2)
    exact ha hx
  rw [Links.Neighbours, hnext x hx, hpre y hy hyb]
  exact hxy

/-- The neighbours of an inner node. -/
theorem Linked.neighbours (h : Linked L (xs ++ a :: c :: b :: ys)) :
    L.pre c = some a ∧ L.next c = some b := by
  obtain ⟨-, hac, hright⟩ := List.isChain_append_cons_cons.mp h.chain
  exact ⟨hac.2, (List.isChain_cons_cons.mp hright).1.1⟩

/-! ### Following the links -/

/-- Following `link` from `start` visits the nodes of `l`, in this order, and then ends. -/
def Traverses (link : α → Option α) : Option α → List α → Prop
  | start, [] => start = none
  | start, a :: l => start = some a ∧ Traverses link (link a) l

section Traverses

variable {link link' : α → Option α}

theorem Traverses.congr {start : Option α} (h : Traverses link start l)
    (heq : ∀ x ∈ l, link' x = link x) : Traverses link' start l := by
  induction l generalizing start with
  | nil => exact h
  | cons a l ih =>
    obtain ⟨rfl, h⟩ := h
    refine ⟨rfl, ?_⟩
    rw [heq a (by simp)]
    exact ih h fun x hx => heq x (by simp [hx])

/-- A chain of links is traversed from its first node to a node without a link. -/
theorem traverses_of_isChain (hchain : (xs ++ [a]).IsChain fun x y => link x = some y)
    (hend : link a = none) : Traverses link (xs ++ [a]).head? (xs ++ [a]) := by
  induction xs with
  | nil => exact ⟨rfl, hend⟩
  | cons x xs ih =>
    rw [List.cons_append] at hchain ⊢
    have hrest := ih hchain.tail
    cases hxs : xs ++ [a] with
    | nil => simp at hxs
    | cons y ys =>
      rw [hxs] at hchain hrest
      refine ⟨rfl, ?_⟩
      rw [(List.isChain_cons_cons.mp hchain).1]
      exact hrest

/-- From the first node, the links forward visit the whole list. -/
theorem Linked.traverses_next (h : Linked L (xs ++ [a])) (hend : L.next a = none) :
    Traverses L.next (xs ++ [a]).head? (xs ++ [a]) :=
  traverses_of_isChain (h.chain.imp fun _ _ hxy => hxy.1) hend

/-- From the last node, the links backward visit the whole list in the opposite order. -/
theorem Linked.traverses_pre (h : Linked L (a :: xs)) (hend : L.pre a = none) :
    Traverses L.pre (a :: xs).getLast? (a :: xs).reverse := by
  have hchain : (a :: xs).reverse.IsChain fun x y => L.pre x = some y :=
    List.isChain_reverse.mpr (h.chain.imp fun _ _ hxy => hxy.2)
  rw [← List.head?_reverse]
  rw [List.reverse_cons] at hchain ⊢
  exact traverses_of_isChain hchain hend

end Traverses

/-! ### Changing the links -/

variable [DecidableEq α]

/-- `c` is put between `a` and `b`. -/
def Links.insert (L : Links α) (a c b : α) : Links α where
  next x := if x = a then some c else if x = c then some b else L.next x
  pre x := if x = b then some c else if x = c then some a else L.pre x

/-- `a` and `b` become neighbours. -/
def Links.unlink (L : Links α) (a b : α) : Links α where
  next x := if x = a then some b else L.next x
  pre x := if x = b then some a else L.pre x

/-- Putting a new node between two neighbours. -/
theorem Linked.insert (h : Linked L (xs ++ a :: b :: ys)) (hc : c ∉ xs ++ a :: b :: ys) :
    Linked (L.insert a c b) (xs ++ a :: c :: b :: ys) := by
  obtain ⟨hleft, hab, hright⟩ := List.isChain_append_cons_cons.mp h.chain
  have hnodup : (xs ++ a :: c :: b :: ys).Nodup := by
    have := h.nodup
    grind
  refine ⟨hnodup, List.isChain_append_cons_cons.mpr ⟨?_, ?_, List.isChain_cons_cons.mpr ⟨?_, ?_⟩⟩⟩
  · refine chain_left hleft hab.1 (by grind) (fun x hx hxa => ?_) fun x hx => ?_
    · have hxc : x ≠ c := by grind
      simp [Links.insert, hxa, hxc]
    · have hxb : x ≠ b := by grind
      have hxc : x ≠ c := by grind
      simp [Links.insert, hxb, hxc]
  · have hcb : c ≠ b := by grind
    simp [Links.Neighbours, Links.insert, hcb]
  · have hca : c ≠ a := by grind
    simp [Links.Neighbours, Links.insert, hca]
  · refine chain_right hright hab.2 (by grind) (fun x hx => ?_) fun x hx hxb => ?_
    · have hxa : x ≠ a := by grind
      have hxc : x ≠ c := by grind
      simp [Links.insert, hxa, hxc]
    · have hxc : x ≠ c := by grind
      simp [Links.insert, hxb, hxc]

/-- Taking a node out from between its neighbours. -/
theorem Linked.unlink (h : Linked L (xs ++ a :: c :: b :: ys)) :
    Linked (L.unlink a b) (xs ++ a :: b :: ys) := by
  obtain ⟨hleft, hac, hright⟩ := List.isChain_append_cons_cons.mp h.chain
  obtain ⟨hcb, hright⟩ := List.isChain_cons_cons.mp hright
  have hnodup' := h.nodup
  have hnodup : (xs ++ a :: b :: ys).Nodup := by grind
  refine ⟨hnodup, List.isChain_append_cons_cons.mpr ⟨?_, ?_, ?_⟩⟩
  · refine chain_left hleft hac.1 (by grind) (fun x hx hxa => ?_) fun x hx => ?_
    · simp [Links.unlink, hxa]
    · have hxb : x ≠ b := by grind
      simp [Links.unlink, hxb]
  · simp [Links.Neighbours, Links.unlink]
  · refine chain_right hright hcb.2 (by grind) (fun x hx => ?_) fun x hx hxb => ?_
    · have hxa : x ≠ a := by grind
      simp [Links.unlink, hxa]
    · simp [Links.unlink, hxb]

end DoublyLinked
