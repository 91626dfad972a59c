/-
# Lists as tables

A table is a list whose rows are named by their position: a new row goes to the end, and a row is
replaced in place.  These lemmas say which row a name has afterwards, and how many rows have a
property when one is replaced or taken out, and compare tables with the same rows.
-/
import Mathlib.Data.List.Basic
import Mathlib.Data.List.Pairwise
import Mathlib.Data.List.Perm.Basic

namespace Lookup

variable {α : Type*} {l : List α} {x y : α} {i j : Nat}

theorem getElem?_concat (h : (l ++ [x])[i]? = some y) :
    l[i]? = some y ∨ (i = l.length ∧ y = x) := by
  rw [List.getElem?_append] at h
  split at h
  · exact Or.inl h
  · rename_i hi
    rw [List.getElem?_singleton] at h
    split at h
    · exact Or.inr ⟨by omega, (Option.some.inj h).symm⟩
    · exact absurd h (by simp)

theorem getElem?_concat_left (h : l[i]? = some y) : (l ++ [x])[i]? = some y := by
  obtain ⟨hi, -⟩ := List.getElem?_eq_some_iff.mp h
  rw [List.getElem?_append_left hi, h]

theorem getElem?_set_cases (h : (l.set i x)[j]? = some y) :
    (j = i ∧ y = x) ∨ (j ≠ i ∧ l[j]? = some y) := by
  rw [List.getElem?_set] at h
  split at h
  · split at h
    · exact Or.inl ⟨by omega, (Option.some.inj h).symm⟩
    · exact absurd h (by simp)
  · exact Or.inr ⟨by omega, h⟩

theorem getElem?_set_self_of_some (h : l[i]? = some y) : (l.set i x)[i]? = some x := by
  obtain ⟨hi, -⟩ := List.getElem?_eq_some_iff.mp h
  rw [List.getElem?_set, if_pos rfl, if_pos hi]

theorem countP_set_add (p : α → Bool) (h : l[i]? = some x) :
    (l.set i y).countP p + (if p x then 1 else 0) = l.countP p + (if p y then 1 else 0) := by
  obtain ⟨hi, hx⟩ := List.getElem?_eq_some_iff.mp h
  have hle := List.boole_getElem_le_countP (p := p) hi
  rw [hx] at hle
  rw [List.countP_set hi, hx]
  omega

theorem countP_eraseIdx_add (p : α → Bool) (h : l[i]? = some x) :
    (l.eraseIdx i).countP p + (if p x then 1 else 0) = l.countP p := by
  obtain ⟨hi, hx⟩ := List.getElem?_eq_some_iff.mp h
  rw [← (List.getElem_cons_eraseIdx_perm hi).countP_eq p, List.countP_cons, hx]

/-- Taking one row out leaves the others. -/
theorem mem_eraseIdx_of_ne (hx : x ∈ l) (h : l[i]? = some y) (hne : x ≠ y) : x ∈ l.eraseIdx i := by
  obtain ⟨hi, rfl⟩ := List.getElem?_eq_some_iff.mp h
  have hmem := (List.getElem_cons_eraseIdx_perm hi).mem_iff.mpr hx
  exact (List.mem_cons.mp hmem).resolve_left hne

section Perm

variable {l' : List α}

/-- One row taken out of two tables with the same rows. -/
theorem perm_eraseIdx (hp : l.Perm l') (hi : l[i]? = some x) (hj : l'[j]? = some x) :
    (l.eraseIdx i).Perm (l'.eraseIdx j) := by
  obtain ⟨hlt, rfl⟩ := List.getElem?_eq_some_iff.mp hi
  obtain ⟨hlt', heq⟩ := List.getElem?_eq_some_iff.mp hj
  have hcons : (l[i] :: l.eraseIdx i).Perm (l[i] :: l'.eraseIdx j) :=
    ((List.getElem_cons_eraseIdx_perm hlt).trans hp).trans
      (heq ▸ (List.getElem_cons_eraseIdx_perm hlt').symm)
  exact (List.perm_cons _).mp hcons

/-- A row moved to the end of one, and replaced in the other. -/
theorem perm_replace (y : α) (hp : l.Perm l') (hi : l[i]? = some x) (hj : l'[j]? = some x) :
    (l.eraseIdx i ++ [y]).Perm (l'.set j y) := by
  have hlt := (List.getElem?_eq_some_iff.mp hj).1
  refine (List.perm_append_singleton y _).trans ?_
  refine ((perm_eraseIdx hp hi hj).cons y).trans ?_
  exact (List.set_perm_cons_eraseIdx hlt y).symm

end Perm

section Names

variable {β : Type*} {f g : α → Option β}

/-- Rows of different names are different under any names that agree with these. -/
theorem nodup_filterMap (h : (l.filterMap g).Nodup) (hfg : ∀ a b, f a = some b → g a = some b) :
    (l.filterMap f).Nodup := by
  rw [List.Nodup, List.pairwise_filterMap] at h ⊢
  exact h.imp fun hab b hb b' hb' => hab b (hfg _ b hb) b' (hfg _ b' hb')

/-- Where no name occurs twice, rows of one name are equal. -/
theorem eq_of_nodup_filterMap (h : (l.filterMap f).Nodup) {b : β} (hx : x ∈ l) (hy : y ∈ l)
    (hfx : f x = some b) (hfy : f y = some b) : x = y := by
  rw [List.Nodup, List.pairwise_filterMap] at h
  by_contra hne
  have hsymm : Std.Symm fun a a' => ∀ b, f a = some b → ∀ b', f a' = some b' → b ≠ b' :=
    ⟨fun a a' haa' b hb b' hb' => (haa' b' hb' b hb).symm⟩
  exact h.forall hx hy hne b hfx b hfy rfl

end Names

end Lookup
