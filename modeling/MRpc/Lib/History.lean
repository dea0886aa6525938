import Mathlib.Data.List.Basic
import Mathlib.Data.List.Induction

/-!
# Histories

A history is the list of the events of a run, the oldest first. Two past-time operators speak about
it: `Always Q` requires `Q` of every event and the events before it, and `Since p q` says that an
event with `p` has happened and that every event after it has `q`.

## Main results

* `History.always_concat`, `History.since_concat`: how the operators grow with the history.
-/

namespace History

variable {α : Type*} {p q : α → Prop} {Q : List α → α → Prop}

/-- Every event satisfies `Q` with the events before it. -/
def Always (Q : List α → α → Prop) (h : List α) : Prop :=
  ∀ before e after, h = before ++ e :: after → Q before e

/-- An event with `p` has happened, and every event after it has `q`. -/
def Since (p q : α → Prop) (h : List α) : Prop :=
  ∃ before e after, h = before ++ e :: after ∧ p e ∧ ∀ x ∈ after, q x

/-- An event of a history that ends in `e` is this `e` or an earlier one. -/
theorem concat_eq_append_cons {h before after : List α} {e x : α}
    (heq : h ++ [e] = before ++ x :: after) :
    (before = h ∧ x = e ∧ after = []) ∨ ∃ mid, after = mid ++ [e] ∧ h = before ++ x :: mid := by
  rcases List.eq_nil_or_concat' after with rfl | ⟨mid, y, rfl⟩
  · obtain ⟨rfl, hx⟩ := List.append_inj' heq rfl
    exact Or.inl ⟨rfl, by simpa using hx.symm, rfl⟩
  · rw [← List.cons_append, ← List.append_assoc] at heq
    obtain ⟨rfl, hy⟩ := List.append_inj' heq rfl
    obtain rfl : e = y := by simpa using hy
    exact Or.inr ⟨mid, rfl, rfl⟩

theorem always_nil : Always Q [] := by
  intro before e after h
  simp at h

theorem always_concat {h : List α} {e : α} : Always Q (h ++ [e]) ↔ Always Q h ∧ Q h e := by
  constructor
  · refine fun H => ⟨?_, H h e [] rfl⟩
    rintro before x after rfl
    exact H before x (after ++ [e]) (by simp)
  · rintro ⟨hh, he⟩ before x after heq
    rcases concat_eq_append_cons heq with ⟨rfl, rfl, -⟩ | ⟨mid, -, rfl⟩
    · exact he
    · exact hh before x mid rfl

theorem always_iff_forall {h : List α} : Always (fun _ e => p e) h ↔ ∀ e ∈ h, p e := by
  constructor
  · intro H e he
    obtain ⟨before, after, rfl⟩ := List.append_of_mem he
    exact H before e after rfl
  · rintro H before e after rfl
    exact H e (by simp)

/-- Events that satisfy `Q` after whatever history can be appended. -/
theorem Always.append {h t : List α} (H : Always Q h) (ht : ∀ e ∈ t, ∀ before, Q before e) :
    Always Q (h ++ t) := by
  induction t using List.reverseRecOn with
  | nil => simpa using H
  | append_singleton t e ih =>
    rw [← List.append_assoc, always_concat]
    exact ⟨ih fun x hx => ht x (by simp [hx]), ht e (by simp) _⟩

theorem not_since_nil : ¬ Since p q [] := by
  rintro ⟨before, e, after, h, -⟩
  simp at h

theorem since_concat {h : List α} {e : α} : Since p q (h ++ [e]) ↔ p e ∨ Since p q h ∧ q e := by
  constructor
  · rintro ⟨before, x, after, heq, hp, hq⟩
    rcases concat_eq_append_cons heq with ⟨rfl, rfl, -⟩ | ⟨mid, rfl, rfl⟩
    · exact Or.inl hp
    · exact Or.inr ⟨⟨before, x, mid, rfl, hp, fun z hz => hq z (by simp [hz])⟩, hq e (by simp)⟩
  · rintro (hp | ⟨⟨before, x, after, rfl, hp, hq⟩, hqe⟩)
    · exact ⟨h, e, [], rfl, hp, by simp⟩
    · refine ⟨before, x, after ++ [e], by simp, hp, fun z hz => ?_⟩
      rcases List.mem_append.mp hz with hz | hz
      · exact hq z hz
      · rwa [List.mem_singleton.mp hz]

theorem Since.exists_mem {h : List α} (H : Since p q h) : ∃ e ∈ h, p e := by
  obtain ⟨before, e, after, rfl, hp, -⟩ := H
  exact ⟨e, by simp, hp⟩

end History
