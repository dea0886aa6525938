import Mathlib.Tactic.Linarith

/-!
# The entries of an ordered map

How the list of the entries of a `Std.TreeMap` changes, up to their order, when a fresh key is
inserted and when a key is erased.
-/

namespace Entries

variable {α β : Type} [Ord α] [Std.TransOrd α] [Std.LawfulEqOrd α] {t : Std.TreeMap α β}

theorem nodup_toList (t : Std.TreeMap α β) : t.toList.Nodup := by
  refine t.distinct_keys_toList.imp fun hne heq => hne ?_
  rw [heq]
  exact Std.ReflCmp.compare_self

theorem getElem?_insert (t : Std.TreeMap α β) (k a : α) (v : β) [DecidableEq α] :
    (t.insert k v)[a]? = if k = a then some v else t[a]? := by
  rw [Std.TreeMap.getElem?_insert]
  simp only [Std.LawfulEqCmp.compare_eq_iff_eq]

theorem getElem?_erase (t : Std.TreeMap α β) (k a : α) [DecidableEq α] :
    (t.erase k)[a]? = if k = a then none else t[a]? := by
  rw [Std.TreeMap.getElem?_erase]
  simp only [Std.LawfulEqCmp.compare_eq_iff_eq]

theorem toList_insert_perm {k : α} (h : t[k]? = none) (v : β) :
    (t.insert k v).toList.Perm ((k, v) :: t.toList) := by
  classical
  have hnot : (k, v) ∉ t.toList := by
    rw [Std.TreeMap.mem_toList_iff_getElem?_eq_some, h]
    simp
  refine (List.perm_ext_iff_of_nodup (nodup_toList _)
    (List.nodup_cons.mpr ⟨hnot, nodup_toList t⟩)).mpr ?_
  rintro ⟨a, b⟩
  rw [List.mem_cons, Std.TreeMap.mem_toList_iff_getElem?_eq_some,
    Std.TreeMap.mem_toList_iff_getElem?_eq_some, getElem?_insert]
  by_cases hk : k = a
  · subst hk
    simp [h, eq_comm]
  · simp [hk, Ne.symm hk]

theorem toList_perm_erase {k : α} {v : β} (h : t[k]? = some v) :
    t.toList.Perm ((k, v) :: (t.erase k).toList) := by
  classical
  have hnot : (k, v) ∉ (t.erase k).toList := by
    rw [Std.TreeMap.mem_toList_iff_getElem?_eq_some, getElem?_erase, if_pos rfl]
    simp
  refine (List.perm_ext_iff_of_nodup (nodup_toList t)
    (List.nodup_cons.mpr ⟨hnot, nodup_toList _⟩)).mpr ?_
  rintro ⟨a, b⟩
  rw [List.mem_cons, Std.TreeMap.mem_toList_iff_getElem?_eq_some,
    Std.TreeMap.mem_toList_iff_getElem?_eq_some, getElem?_erase]
  by_cases hk : k = a
  · subst hk
    simp [h, eq_comm]
  · simp [hk, Ne.symm hk]

end Entries
