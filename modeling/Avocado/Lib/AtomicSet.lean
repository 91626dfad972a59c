/-
# Atomic sets ordered by a strict weak order

The interface of a concurrent ordered set whose two operations are atomic: look an element up, or
add it unless an equivalent one is there (`AtomicSet`).  Two elements are the same to the set when
neither is less than the other, Mathlib's `IncompRel`.  `Lawful` says what the operations do, in
terms of the elements alone, so a client of it does not depend on how the set is represented.

An ordered list meets the interface for every strict order that can be decided
(`sorted_lawful`).
-/
import Mathlib.Order.Comparable
import Mathlib.Data.Set.Insert

/-- The operations of an atomic set, and the elements of each of its states. -/
structure AtomicSet (α : Type) where
  Rep : Type
  empty : Rep
  elems : Rep → Set α
  addOrGetData : Rep → α → Rep × α × Bool
  find : Rep → α → Option α

namespace AtomicSet

variable {α : Type}

/-- What the operations of a set that is ordered by `lt` do. -/
structure Lawful (S : AtomicSet α) (lt : α → α → Prop) : Prop where
  elems_empty : S.elems S.empty = ∅
  find_some : ∀ {s x y}, S.find s x = some y → y ∈ S.elems s ∧ IncompRel lt y x
  find_none : ∀ {s x}, S.find s x = none → ∀ y ∈ S.elems s, ¬ IncompRel lt y x
  /-- Either nothing equivalent was there and `x` was added, or an equivalent element is
  returned. -/
  add_cases : ∀ s x,
    (∃ s', S.addOrGetData s x = (s', x, true) ∧ S.elems s' = insert x (S.elems s) ∧
      ∀ y ∈ S.elems s, ¬ IncompRel lt y x) ∨
    (∃ s' y, S.addOrGetData s x = (s', y, false) ∧ S.elems s' = S.elems s ∧
      y ∈ S.elems s ∧ IncompRel lt y x)

/-! ## Ordered lists -/

section Sorted

variable (lt : α → α → Prop) [DecidableRel lt]

/-- Look `x` up in an ordered list. -/
def findSorted (x : α) : List α → Option α
  | [] => none
  | y :: l => if lt y x then findSorted x l else if lt x y then none else some y

/-- Add `x` to an ordered list at its place, or return the equivalent element that is there. -/
def addSorted (x : α) : List α → List α × α × Bool
  | [] => ([x], x, true)
  | y :: l =>
    if lt y x then
      let (l', z, added) := addSorted x l
      (y :: l', z, added)
    else if lt x y then (x :: y :: l, x, true)
    else (y :: l, y, false)

variable {lt} {x y : α} {l : List α}

theorem findSorted_some (h : findSorted lt x l = some y) : y ∈ l ∧ IncompRel lt y x := by
  induction l with
  | nil => exact absurd h (by simp [findSorted])
  | cons z l ih =>
    unfold findSorted at h
    split at h
    · exact ⟨List.mem_cons_of_mem _ (ih h).1, (ih h).2⟩
    · rename_i hzx
      split at h
      · exact absurd h (by simp)
      · rename_i hxz
        rw [Option.some.injEq] at h
        exact h ▸ ⟨List.mem_cons_self, hzx, hxz⟩

theorem findSorted_none [IsStrictOrder α lt] (hl : l.Pairwise lt) (h : findSorted lt x l = none) :
    ∀ y ∈ l, ¬ IncompRel lt y x := by
  induction l with
  | nil => exact fun y hy => absurd hy List.not_mem_nil
  | cons z l ih =>
    obtain ⟨hz, hl⟩ := List.pairwise_cons.mp hl
    unfold findSorted at h
    split at h
    · rename_i hzx
      intro y hy
      rcases List.mem_cons.mp hy with rfl | hy
      · exact fun hinc => hinc.1 hzx
      · exact ih hl h y hy
    · split at h
      · rename_i hxz
        intro y hy
        rcases List.mem_cons.mp hy with rfl | hy
        · exact fun hinc => hinc.2 hxz
        · exact fun hinc => hinc.2 (IsTrans.trans _ _ _ hxz (hz y hy))
      · exact absurd h (by simp)

/-- What `addSorted` does to an ordered list. -/
theorem addSorted_cases [IsStrictOrder α lt] (x : α) (hl : l.Pairwise lt) :
    (∃ l', addSorted lt x l = (l', x, true) ∧ l'.Pairwise lt ∧ (∀ z, z ∈ l' ↔ z = x ∨ z ∈ l) ∧
      ∀ y ∈ l, ¬ IncompRel lt y x) ∨
    (∃ y, addSorted lt x l = (l, y, false) ∧ y ∈ l ∧ IncompRel lt y x) := by
  induction l with
  | nil =>
    exact Or.inl ⟨[x], rfl, List.pairwise_singleton _ _, by simp, by simp⟩
  | cons z l ih =>
    obtain ⟨hz, hl⟩ := List.pairwise_cons.mp hl
    unfold addSorted
    by_cases hzx : lt z x
    · rcases ih hl with ⟨l', he, hl', hmem, hnew⟩ | ⟨y, he, hy, hinc⟩
      · refine Or.inl ⟨z :: l', by simp [hzx, he], List.pairwise_cons.mpr ⟨?_, hl'⟩, ?_, ?_⟩
        · intro w hw
          rcases (hmem w).mp hw with rfl | hw
          · exact hzx
          · exact hz w hw
        · intro w
          simp only [List.mem_cons, hmem]
          tauto
        · intro w hw
          rcases List.mem_cons.mp hw with rfl | hw
          · exact fun hinc => hinc.1 hzx
          · exact hnew w hw
      · exact Or.inr ⟨y, by simp [hzx, he], List.mem_cons_of_mem _ hy, hinc⟩
    · by_cases hxz : lt x z
      · have hall : ∀ w ∈ z :: l, lt x w := by
          intro w hw
          rcases List.mem_cons.mp hw with rfl | hw
          · exact hxz
          · exact IsTrans.trans _ _ _ hxz (hz w hw)
        refine Or.inl ⟨x :: z :: l, by simp [hzx, hxz], ?_, by simp, ?_⟩
        · exact List.pairwise_cons.mpr ⟨hall, List.pairwise_cons.mpr ⟨hz, hl⟩⟩
        · exact fun w hw hinc => hinc.2 (hall w hw)
      · exact Or.inr ⟨z, by simp [hzx, hxz], List.mem_cons_self, hzx, hxz⟩

variable (lt) [IsStrictOrder α lt]

/-- The atomic set whose states are the lists that are ordered by `lt`. -/
def sorted : AtomicSet α where
  Rep := { l : List α // l.Pairwise lt }
  empty := ⟨[], List.Pairwise.nil⟩
  elems l := { x | x ∈ l.1 }
  addOrGetData l x :=
    (⟨(addSorted lt x l.1).1, by
      rcases addSorted_cases x l.2 with ⟨l', he, hl', -⟩ | ⟨y, he, -⟩
      · rw [he]; exact hl'
      · rw [he]; exact l.2⟩, (addSorted lt x l.1).2)
  find l x := findSorted lt x l.1

/-- **An ordered list is an atomic set.** -/
theorem sorted_lawful : (sorted lt).Lawful lt where
  elems_empty := by simp [sorted]
  find_some := fun h => findSorted_some h
  find_none := fun {s} {_} h => findSorted_none s.2 h
  add_cases := by
    intro s x
    rcases addSorted_cases x s.2 with ⟨l', he, hl', hmem, hnew⟩ | ⟨y, he, hy, hinc⟩
    · refine Or.inl ⟨⟨l', hl'⟩, ?_, ?_, hnew⟩
      · simp [sorted, he]
      · ext z
        exact hmem z
    · refine Or.inr ⟨s, y, ?_, rfl, hy, hinc⟩
      simp only [sorted, he]
      rfl

end Sorted

end AtomicSet
