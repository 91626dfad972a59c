/-
# Sorting by a key, and lexicographic order

The place of an element in a list that is sorted by a key is the number of smaller keys
(`idxOf_eq_countP`), and a list has one sorting by a key that tells its elements apart
(`sortBy_congr`).

Lists themselves are ordered lexicographically.  What lies between a list and one of its
extensions is an extension too (`prefix_of_between`).  The last two lemmas are about texts with
fields, where a separator ends a field.
-/
import Mathlib.Data.List.Lex
import Mathlib.Data.List.Sort

namespace Sorted

/-! ## 1. Sorting by a key -/

section Key

variable {α β : Type*} [LinearOrder β] {key key' : α → β} {l l' : List α} {x : α}

/-- `l`, sorted by a key. -/
def sortBy (key : α → β) (l : List α) : List α := l.insertionSort fun a b => key a ≤ key b

theorem sortBy_perm (key : α → β) (l : List α) : (sortBy key l).Perm l :=
  List.perm_insertionSort _ l

theorem pairwise_sortBy (key : α → β) (l : List α) :
    (sortBy key l).Pairwise fun a b => key a ≤ key b := by
  have htotal : Std.Total fun a b => key a ≤ key b := ⟨fun a b => le_total (key a) (key b)⟩
  have htrans : IsTrans α fun a b => key a ≤ key b := ⟨fun _ _ _ => le_trans⟩
  exact List.pairwise_insertionSort _ l

/-- The keys of a sorting increase, when they are different. -/
theorem pairwise_lt_sortBy (hnd : (l.map key).Nodup) :
    (sortBy key l).Pairwise fun a b => key a < key b := by
  have hnd' : ((sortBy key l).map key).Nodup := ((sortBy_perm key l).map key).nodup_iff.mpr hnd
  rw [List.nodup_iff_pairwise_ne, List.pairwise_map] at hnd'
  exact (pairwise_sortBy key l).imp₂ (fun _ _ hle hne => lt_of_le_of_ne hle hne) hnd'

/-- **A list has one sorting**: two permutations of it that are sorted by one key are equal. -/
theorem eq_of_perm_of_sorted (hinj : ∀ a ∈ l, ∀ b ∈ l, key a = key b → a = b) (hperm : l.Perm l')
    (hl : l.Pairwise fun a b => key a ≤ key b) (hl' : l'.Pairwise fun a b => key a ≤ key b) :
    l = l' :=
  List.Perm.eq_of_pairwise
    (fun a b ha hb hab hba => hinj a ha b (hperm.mem_iff.mpr hb) (le_antisymm hab hba)) hl hl' hperm

/-- Keys that order a list in one way sort it in one way. -/
theorem sortBy_congr (hinj : ∀ a ∈ l, ∀ b ∈ l, key a = key b → a = b)
    (h : ∀ a ∈ l, ∀ b ∈ l, key' a ≤ key' b → key a ≤ key b) : sortBy key' l = sortBy key l := by
  have hmem : ∀ {a}, a ∈ sortBy key' l → a ∈ l := (sortBy_perm key' l).mem_iff.mp
  refine eq_of_perm_of_sorted (fun a ha b hb => hinj a (hmem ha) b (hmem hb))
    ((sortBy_perm key' l).trans (sortBy_perm key l).symm) ?_ (pairwise_sortBy key l)
  exact (pairwise_sortBy key' l).imp_of_mem fun ha hb hle => h _ (hmem ha) _ (hmem hb) hle

/-- **The place of an element** is the number of smaller keys. -/
theorem idxOf_eq_countP [DecidableEq α] (hl : l.Pairwise fun a b => key a < key b) (hx : x ∈ l) :
    l.idxOf x = l.countP fun y => decide (key y < key x) := by
  induction l with
  | nil => exact absurd hx List.not_mem_nil
  | cons a l ih =>
    obtain ⟨ha, hl⟩ := List.pairwise_cons.mp hl
    by_cases heq : a = x
    · subst heq
      have hzero : l.countP (fun y => decide (key y < key a)) = 0 := by
        rw [List.countP_eq_zero]
        intro y hy hlt
        exact absurd (of_decide_eq_true hlt) (not_lt_of_gt (ha y hy))
      rw [List.idxOf_cons_self, List.countP_cons, hzero]
      simp
    · have hx' : x ∈ l := (List.mem_cons.mp hx).resolve_left (Ne.symm heq)
      rw [List.idxOf_cons_ne l heq, ih hl hx', List.countP_cons]
      simp [ha x hx']

omit [LinearOrder β] in
/-- The places of the elements of a list that has none twice. -/
theorem zipIdx_eq_map_idxOf [BEq α] [LawfulBEq α] (hnd : l.Nodup) :
    l.zipIdx = l.map fun a => (a, l.idxOf a) := by
  refine List.ext_getElem (by simp) fun i hi hi' => ?_
  rw [List.length_zipIdx] at hi
  rw [List.getElem_zipIdx, List.getElem_map, hnd.idxOf_getElem i hi, Nat.zero_add]

end Key

/-! ## 2. Lexicographic order -/

section Lex

variable {α : Type*} [LinearOrder α] {p q r s w : List α}

theorem append_lt_append (p : List α) (h : q < r) : p ++ q < p ++ r := by
  induction p with
  | nil => exact h
  | cons a p ih => exact List.cons_lt_cons_iff.mpr (Or.inr ⟨rfl, ih⟩)

theorem lt_append (p : List α) (c : α) (w : List α) : p < p ++ c :: w := by
  have h := append_lt_append p (List.nil_lt_cons c w)
  rwa [List.append_nil] at h

theorem prefix_le (h : p <+: s) : p ≤ s := by
  obtain ⟨w, rfl⟩ := h
  cases w with
  | nil => rw [List.append_nil]
  | cons c w => exact le_of_lt (lt_append p c w)

/-- **What lies between a list and an extension of it** is an extension of it. -/
theorem prefix_of_between (h : p < s) (h' : s < p ++ w) : p <+: s := by
  induction p generalizing s with
  | nil => exact List.nil_prefix
  | cons a p ih =>
    cases s with
    | nil => exact absurd h (List.not_lt_nil _)
    | cons b s =>
      rw [List.cons_lt_cons_iff] at h
      rw [List.cons_append, List.cons_lt_cons_iff] at h'
      rcases h with hab | ⟨rfl, hlt⟩
      · rcases h' with hba | ⟨rfl, -⟩
        · exact absurd (lt_trans hab hba) (lt_irrefl a)
        · exact absurd hab (lt_irrefl _)
      · rcases h' with hlt' | ⟨-, hlt'⟩
        · exact absurd hlt' (lt_irrefl a)
        · exact List.cons_prefix_cons.mpr ⟨rfl, ih hlt hlt'⟩

end Lex

/-! ## 3. Fields -/

section Field

variable {α : Type*} {p q r t : List α} {c : α}

/-- A text without the separator that begins a text begins its first field. -/
theorem prefix_field (hq : c ∉ q) (h : q <+: p ++ c :: t) : q <+: p := by
  rcases List.prefix_or_prefix_of_prefix h (List.prefix_append p (c :: t)) with hqp | ⟨r, rfl⟩
  · exact hqp
  · cases r with
    | nil => simp
    | cons d r =>
      have hd : d :: r <+: c :: t := (List.prefix_append_right_inj p).mp h
      rw [(List.cons_prefix_cons.mp hd).1] at hq
      exact absurd (List.mem_append_right _ List.mem_cons_self) hq

/-- Two texts that begin alike have the same first field. -/
theorem field_eq (hp : c ∉ p) (hq : c ∉ q) (h : q ++ c :: r <+: p ++ c :: t) : q = p ∧ r <+: t := by
  obtain ⟨w, rfl⟩ := prefix_field hq ((List.prefix_append q (c :: r)).trans h)
  cases w with
  | nil =>
    rw [List.append_nil, List.prefix_append_right_inj, List.cons_prefix_cons] at h
    exact ⟨(List.append_nil q).symm, h.2⟩
  | cons d w =>
    rw [List.append_assoc, List.prefix_append_right_inj, List.cons_append,
      List.cons_prefix_cons] at h
    rw [← h.1] at hp
    exact absurd (List.mem_append_right _ List.mem_cons_self) hp

end Field

end Sorted
