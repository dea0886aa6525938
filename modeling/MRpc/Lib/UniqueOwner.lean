import Mathlib.Logic.Function.Basic

/-!
# Cells with one owner

A heap whose allocated cells have one owner each: there is no cell without an owner (no leak), and
no cell with two (nothing is freed twice). The relation between owners and cells is a parameter; the
lemmas say how it may change when a cell is written, allocated, freed or handed over.

## Main definitions

* `UniqueOwner.Owned`: each allocated cell has one owner, and only these have.

## Main results

* `UniqueOwner.Owned.write`, `UniqueOwner.Owned.alloc`, `UniqueOwner.Owned.free`,
  `UniqueOwner.Owned.transfer`, `UniqueOwner.Owned.rename`: the operations on a cell.
* `UniqueOwner.Owned.frame`: a cell of another owner is another cell.
-/

namespace UniqueOwner

variable {P V W : Type*}

/-- Each cell that is allocated has one owner, and no other cell has one. -/
structure Owned (heap : P → Option V) (owns : W → P → Prop) : Prop where
  allocated_iff : ∀ p, heap p ≠ none ↔ ∃ w, owns w p
  unique : ∀ p w w', owns w p → owns w' p → w = w'

namespace Owned

variable {heap : P → Option V} {owns owns' : W → P → Prop} {w : W} {p : P}

theorem exists_of_owns (H : Owned heap owns) (hp : owns w p) : ∃ v, heap p = some v :=
  Option.ne_none_iff_exists'.mp ((H.allocated_iff p).mpr ⟨w, hp⟩)

/-- A cell of another owner is another cell. -/
theorem frame (H : Owned heap owns) {w' : W} {q : P} (hp : owns w p) (hq : owns w' q)
    (hne : w ≠ w') : p ≠ q := by
  rintro rfl
  exact hne (H.unique p w w' hp hq)

/-- The owners are known by other names. -/
theorem rename (H : Owned heap owns) {e : W → W} (he : Function.Bijective e)
    (h : ∀ w p, owns' w p ↔ owns (e w) p) : Owned heap owns' := by
  refine ⟨fun p => ?_, fun p w w' hw hw' => ?_⟩
  · rw [H.allocated_iff]
    constructor
    · rintro ⟨w, hw⟩
      obtain ⟨u, rfl⟩ := he.2 w
      exact ⟨u, (h u p).mpr hw⟩
    · rintro ⟨w, hw⟩
      exact ⟨e w, (h w p).mp hw⟩
  · exact he.1 (H.unique p _ _ ((h w p).mp hw) ((h w' p).mp hw'))

/-- A cell is handed over to another owner. -/
theorem transfer (H : Owned heap owns) {v : W} (hp : owns w p)
    (h : ∀ u q, owns' u q ↔ u = v ∧ q = p ∨ q ≠ p ∧ owns u q) : Owned heap owns' := by
  refine ⟨fun q => ?_, fun q u u' hu hu' => ?_⟩
  · rw [H.allocated_iff]
    by_cases hq : q = p
    · subst hq
      exact iff_of_true ⟨w, hp⟩ ⟨v, (h v q).mpr (Or.inl ⟨rfl, rfl⟩)⟩
    · simp only [h, hq, and_false, ne_eq, not_false_eq_true, true_and, false_or]
  · rcases (h u q).mp hu with ⟨rfl, rfl⟩ | ⟨hq, hu⟩ <;>
      rcases (h u' q).mp hu' with ⟨rfl, hq'⟩ | ⟨hq', hu'⟩
    · rfl
    · exact absurd rfl hq'
    · exact absurd hq' hq
    · exact H.unique q u u' hu hu'

/-- The cells in `S` are freed. -/
theorem free (H : Owned heap owns) (S : P → Prop) {heap' : P → Option V}
    (hfree : ∀ p, S p → heap' p = none) (hkeep : ∀ p, ¬ S p → heap' p = heap p)
    (h : ∀ u p, owns' u p ↔ ¬ S p ∧ owns u p) : Owned heap' owns' := by
  refine ⟨fun p => ?_, fun p u u' hu hu' => ?_⟩
  · by_cases hp : S p
    · simp [h, hfree p hp, hp]
    · simp [h, hkeep p hp, hp, H.allocated_iff]
  · exact H.unique p u u' ((h u p).mp hu).2 ((h u' p).mp hu').2

variable [DecidableEq P]

/-- A cell that is allocated is written. -/
theorem write (H : Owned heap owns) (hp : heap p ≠ none) (v : V) :
    Owned (Function.update heap p (some v)) owns := by
  refine ⟨fun q => ?_, H.unique⟩
  rw [← H.allocated_iff]
  by_cases hq : q = p
  · subst hq
    simp [hp]
  · simp [hq]

/-- A cell is allocated for an owner. -/
theorem alloc (H : Owned heap owns) (hp : heap p = none) (v : V)
    (h : ∀ u q, owns' u q ↔ u = w ∧ q = p ∨ owns u q) :
    Owned (Function.update heap p (some v)) owns' := by
  have hnot : ∀ u, ¬ owns u p := fun u hu => (H.allocated_iff p).mpr ⟨u, hu⟩ hp
  refine ⟨fun q => ?_, fun q u u' hu hu' => ?_⟩
  · by_cases hq : q = p
    · subst hq
      simp [h, hnot]
    · simp [h, hq, H.allocated_iff]
  · rcases (h u q).mp hu with ⟨rfl, rfl⟩ | hu <;> rcases (h u' q).mp hu' with ⟨rfl, hq⟩ | hu'
    · rfl
    · exact absurd hu' (hnot u')
    · exact absurd (hq ▸ hu) (hnot u)
    · exact H.unique q u u' hu hu'

end Owned

end UniqueOwner
