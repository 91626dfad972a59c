/-
# Association lists in insertion order

A list of keys with values, as a map: `put` replaces the value of a key where it stands, and
appends a key that is not there; `lookup` takes the first entry of a key.  The keys stay in the
order in which they came (`keys_put`).

The lemmas come in pairs for the two ways a key can stand to a list (`split`): it is not there, or
the list is `pre ++ (k, v) :: post` with `k` not in `pre`.
-/
import Mathlib.Data.List.Basic

namespace AssocList

variable {κ ν : Type*}

def keys (l : List (κ × ν)) : List κ := l.map Prod.fst

@[simp] theorem keys_nil : keys ([] : List (κ × ν)) = [] := rfl

@[simp] theorem keys_cons (e : κ × ν) (l : List (κ × ν)) : keys (e :: l) = e.1 :: keys l := rfl

theorem not_mem_keys_cons {e : κ × ν} {l : List (κ × ν)} {k : κ} :
    k ∉ keys (e :: l) ↔ e.1 ≠ k ∧ k ∉ keys l := by
  rw [keys_cons, List.mem_cons, not_or]
  exact and_congr_left' ne_comm

variable [DecidableEq κ] {l pre post : List (κ × ν)} {k k' : κ} {v old : ν}

def lookup (k : κ) : List (κ × ν) → Option ν
  | [] => none
  | e :: l => if e.1 = k then some e.2 else lookup k l

def put (k : κ) (v : ν) : List (κ × ν) → List (κ × ν)
  | [] => [(k, v)]
  | e :: l => if e.1 = k then (k, v) :: l else e :: put k v l

/-- **Where a key is.** -/
theorem split (k : κ) : ∀ l : List (κ × ν),
    k ∉ keys l ∨ ∃ pre old post, l = pre ++ (k, old) :: post ∧ k ∉ keys pre
  | [] => Or.inl List.not_mem_nil
  | e :: l => by
    by_cases he : e.1 = k
    · refine Or.inr ⟨[], e.2, l, ?_, List.not_mem_nil⟩
      rw [List.nil_append, ← he]
    · rcases split k l with hnot | ⟨pre, old, post, rfl, hpre⟩
      · exact Or.inl (not_mem_keys_cons.mpr ⟨he, hnot⟩)
      · exact Or.inr ⟨e :: pre, old, post, rfl, not_mem_keys_cons.mpr ⟨he, hpre⟩⟩

/-! ## 1. `lookup` -/

theorem lookup_eq_none_iff : lookup k l = none ↔ k ∉ keys l := by
  induction l with
  | nil => simp [lookup]
  | cons e l ih =>
    rw [lookup, not_mem_keys_cons]
    by_cases he : e.1 = k
    · simp [he]
    · rw [if_neg he, ih]
      exact (and_iff_right he).symm

theorem lookup_append (hpre : k ∉ keys pre) : lookup k (pre ++ l) = lookup k l := by
  induction pre with
  | nil => rfl
  | cons e pre ih =>
    obtain ⟨he, hpre⟩ := not_mem_keys_cons.mp hpre
    rw [List.cons_append, lookup, if_neg he, ih hpre]

theorem lookup_split (hpre : k ∉ keys pre) : lookup k (pre ++ (k, v) :: post) = some v := by
  rw [lookup_append hpre, lookup, if_pos rfl]

/-! ## 2. `put` -/

theorem put_of_not_mem (h : k ∉ keys l) : put k v l = l ++ [(k, v)] := by
  induction l with
  | nil => rfl
  | cons e l ih =>
    obtain ⟨he, h⟩ := not_mem_keys_cons.mp h
    rw [put, if_neg he, ih h, List.cons_append]

theorem put_split (hpre : k ∉ keys pre) :
    put k v (pre ++ (k, old) :: post) = pre ++ (k, v) :: post := by
  induction pre with
  | nil => rw [List.nil_append, List.nil_append, put, if_pos rfl]
  | cons e pre ih =>
    obtain ⟨he, hpre⟩ := not_mem_keys_cons.mp hpre
    rw [List.cons_append, List.cons_append, put, if_neg he, ih hpre]

@[simp] theorem lookup_put_self : lookup k (put k v l) = some v := by
  rcases split k l with h | ⟨pre, old, post, rfl, hpre⟩
  · rw [put_of_not_mem h, lookup_split h]
  · rw [put_split hpre, lookup_split hpre]

theorem lookup_put_of_ne (hne : k' ≠ k) : lookup k' (put k v l) = lookup k' l := by
  induction l with
  | nil => simp [put, lookup, hne.symm]
  | cons e l ih =>
    by_cases he : e.1 = k
    · rw [put, if_pos he, lookup, lookup, if_neg hne.symm, if_neg fun h => hne (h.symm.trans he)]
    · rw [put, if_neg he, lookup, lookup, ih]

theorem eq_or_mem_of_mem_put {e : κ × ν} (h : e ∈ put k v l) : e = (k, v) ∨ e ∈ l := by
  rcases split k l with hnot | ⟨pre, old, post, rfl, hpre⟩
  · rw [put_of_not_mem hnot, List.mem_append, List.mem_singleton] at h
    exact h.symm
  · rw [put_split hpre, List.mem_append, List.mem_cons] at h
    rcases h with h | h | h
    · exact Or.inr (List.mem_append_left _ h)
    · exact Or.inl h
    · exact Or.inr (List.mem_append_right _ (List.mem_cons_of_mem _ h))

/-- **The keys stay in order**, and a new one goes to the end. -/
theorem keys_put : keys (put k v l) = if k ∈ keys l then keys l else keys l ++ [k] := by
  rcases split k l with h | ⟨pre, old, post, rfl, hpre⟩
  · rw [put_of_not_mem h, if_neg h]
    simp [keys]
  · rw [put_split hpre, if_pos (by simp [keys])]
    simp [keys]

end AssocList
