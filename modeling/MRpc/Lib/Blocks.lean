import Mathlib.Tactic.Common

/-!
# Cutting a concatenation of blocks

A string that is a concatenation of blocks is cut at some position. The cut falls into one of
the blocks, or between two: the blocks before it are complete, and the block it falls into has
`cutOffset` elements before the cut.

## Main definitions

* `Blocks.cutOffset`: the elements of the unfinished block before a position.

## Main results

* `Blocks.exists_cut`: the blocks before a cut, the unfinished one and the others.
* `Blocks.cutOffset_append`: positions behind complete blocks.
-/

namespace Blocks

variable {α : Type*}

/-- How many elements of the block that position `p` falls into lie before it. -/
def cutOffset : List (List α) → Nat → Nat
  | [], p => p
  | b :: bs, p => if p < b.length then p else cutOffset bs (p - b.length)

theorem cutOffset_append (done todo : List (List α)) (q : Nat) :
    cutOffset (done ++ todo) (done.flatten.length + q) = cutOffset todo q := by
  induction done with
  | nil => simp
  | cons b done ih =>
    have hsub : b.length + done.flatten.length + q - b.length = done.flatten.length + q := by
      omega
    rw [List.cons_append, cutOffset, List.flatten_cons, List.length_append,
      if_neg (by omega), hsub, ih]

/-- A cut of a concatenation: the complete blocks before it, and the part `g` of the next one. -/
theorem exists_cut (blocks : List (List α)) {x y : List α} (h : x ++ y = blocks.flatten) :
    ∃ done todo g, blocks = done ++ todo ∧ x = done.flatten ++ g ∧ g ++ y = todo.flatten ∧
      ((todo = [] ∧ g = []) ∨ ∃ b bs, todo = b :: bs ∧ g.length < b.length) ∧
      g.length = cutOffset blocks x.length := by
  induction blocks generalizing x with
  | nil =>
    obtain ⟨rfl, rfl⟩ := List.append_eq_nil_iff.mp h
    exact ⟨[], [], [], rfl, rfl, rfl, Or.inl ⟨rfl, rfl⟩, rfl⟩
  | cons b blocks ih =>
    by_cases hlt : x.length < b.length
    · exact ⟨[], b :: blocks, x, rfl, rfl, h, Or.inr ⟨b, blocks, rfl, hlt⟩,
        (if_pos hlt).symm⟩
    · -- The first block is complete: it is a prefix of `x`.
      obtain ⟨x', rfl⟩ : b <+: x := by
        have hb : b <+: x ++ y := ⟨blocks.flatten, h.symm⟩
        exact List.prefix_of_prefix_length_le hb (List.prefix_append x y) (by omega)
      rw [List.flatten_cons, List.append_assoc, List.append_cancel_left_eq] at h
      obtain ⟨done, todo, g, rfl, rfl, hy, hg, hoff⟩ := ih h
      refine ⟨b :: done, todo, g, rfl, by rw [List.flatten_cons, List.append_assoc], hy, hg, ?_⟩
      have hsub : (b ++ (done.flatten ++ g)).length - b.length = (done.flatten ++ g).length := by
        rw [List.length_append, Nat.add_sub_cancel_left]
      rw [hoff, cutOffset, if_neg hlt, hsub]

end Blocks
