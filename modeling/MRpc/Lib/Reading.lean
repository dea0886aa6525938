import Mathlib.Tactic.Common

/-!
# Reading words from the front of an input

A reader takes a value from the front of its input and moves on, or fails. The strings that stand
for a value are a language of words, and a reader of the language succeeds exactly where a word
stands at the front, takes this word and leaves what follows. Such a reader can depend on nothing
but what is left of the input.

## Main definitions

* `Reading.Takes`: a reader takes the words of a language.
* `Reading.Splits`: a function takes them from the front of a string.

## Main results

* `Reading.Takes.transfer`, `Reading.Takes.transfer_none`: a reader does the same on two states with
  the same input left.
* `Reading.Splits.takes`: a reader made of such a function.
-/

namespace Reading

variable {σ α β : Type*} {left : σ → List α} {read : σ → Option β × σ} {Word : β → List α → Prop}

/-- The reader succeeds exactly where a word of the language stands at the front of what is left,
and takes it. -/
structure Takes (left : σ → List α) (read : σ → Option β × σ) (Word : β → List α → Prop) :
    Prop where
  exists_word : ∀ {s b s'}, read s = (some b, s') → ∃ w, Word b w ∧ left s = w ++ left s'
  read_word : ∀ {s b w rest}, Word b w → left s = w ++ rest →
    ∃ s', read s = (some b, s') ∧ left s' = rest

namespace Takes

variable {s t s' : σ}

/-- What is read from one state is read from any other one with the same input left. -/
theorem transfer (H : Takes left read Word) (h : left s = left t) {b : β}
    (hs : read s = (some b, s')) : ∃ t', read t = (some b, t') ∧ left s' = left t' := by
  obtain ⟨w, hw, hleft⟩ := H.exists_word hs
  obtain ⟨t', ht', hrest⟩ := H.read_word hw (h.symm.trans hleft)
  exact ⟨t', ht', hrest.symm⟩

theorem transfer_none (H : Takes left read Word) (h : left s = left t) (hs : (read s).1 = none) :
    (read t).1 = none := by
  cases ht : (read t).1 with
  | none => rfl
  | some b =>
    obtain ⟨s', hs', -⟩ := H.transfer h.symm (Prod.ext ht rfl : read t = (some b, (read t).2))
    rw [hs'] at hs
    cases hs

/-- A reader moves forward. -/
theorem length_le (H : Takes left read Word) {b : β} (hs : read s = (some b, s')) :
    (left s').length ≤ (left s).length := by
  obtain ⟨w, -, hleft⟩ := H.exists_word hs
  rw [hleft, List.length_append]
  exact Nat.le_add_left _ _

end Takes

/-- The function takes a word of the language from the front of a string, and there only. -/
def Splits (split : List α → Option (β × List α)) (Word : β → List α → Prop) : Prop :=
  ∀ input b rest, split input = some (b, rest) ↔ ∃ w, Word b w ∧ input = w ++ rest

/-- A reader that applies such a function to the input that is left. -/
theorem Splits.takes {γ : Type*} {split : List α → Option (β × List α)} (H : Splits split Word)
    (left : σ → List α) (read : σ → Option γ × σ) (f : β → γ)
    (hnone : ∀ s, split (left s) = none → (read s).1 = none)
    (hsome : ∀ s b rest, split (left s) = some (b, rest) →
      ∃ s', read s = (some (f b), s') ∧ left s' = rest) :
    Takes left read fun c w => ∃ b, c = f b ∧ Word b w where
  exists_word {s c s'} h := by
    rcases hs : split (left s) with _ | ⟨b, rest⟩
    · have hread := hnone s hs
      rw [h] at hread
      cases hread
    · obtain ⟨t, ht, rfl⟩ := hsome s b rest hs
      obtain ⟨hc, rfl⟩ := Prod.mk.inj (h.symm.trans ht)
      obtain ⟨w, hw, hleft⟩ := (H _ _ _).mp hs
      exact ⟨w, ⟨b, Option.some.inj hc, hw⟩, hleft⟩
  read_word {s c w rest} hw hs := by
    obtain ⟨b, rfl, hw⟩ := hw
    exact hsome s b rest ((H _ _ _).mpr ⟨w, hw, hs⟩)

/-- The words of a language, where the values do not matter. -/
theorem Splits.ignore {split : List α → Option (β × List α)} (H : Splits split Word) :
    Splits (fun input => (split input).map fun r => ((), r.2)) fun _ w => ∃ b, Word b w := by
  intro input u rest
  rw [Option.map_eq_some_iff]
  constructor
  · rintro ⟨⟨b, r⟩, hsplit, hr⟩
    obtain ⟨-, rfl⟩ := Prod.mk.inj hr
    obtain ⟨w, hw, hinput⟩ := (H _ _ _).mp hsplit
    exact ⟨w, ⟨b, hw⟩, hinput⟩
  · rintro ⟨w, ⟨b, hw⟩, hinput⟩
    exact ⟨(b, rest), (H _ _ _).mpr ⟨w, hw, hinput⟩, rfl⟩

end Reading
