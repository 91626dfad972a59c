/-
# Tallies

Sums that change in one place: over a finite set of names of which one gets a new value
(`sum_add_of_ne`), over a list that loses one row (`sum_map_eraseIdx`), and over a list of which
some rows cost one more (`sum_map_le_add`).  `sum_count` counts a list name by name.
-/
import Mathlib.Algebra.BigOperators.Group.Finset.Piecewise
import Mathlib.Algebra.GroupWithZero.Nat
import Mathlib.Algebra.Order.BigOperators.Group.List

namespace Tally

variable {α : Type*}

/-- Two tallies that differ in one place. -/
theorem sum_add_of_ne [DecidableEq α] {s : Finset α} {f g : α → ℕ} {c : α} (hc : c ∈ s)
    (h : ∀ d ∈ s, d ≠ c → f d = g d) : ∑ d ∈ s, f d + g c = ∑ d ∈ s, g d + f c := by
  have hrest : ∑ d ∈ s.erase c, f d = ∑ d ∈ s.erase c, g d :=
    Finset.sum_congr rfl fun d hd =>
      h d (Finset.mem_of_mem_erase hd) (Finset.ne_of_mem_erase hd)
  rw [← Finset.add_sum_erase s f hc, ← Finset.add_sum_erase s g hc, hrest]
  omega

theorem sum_map_eraseIdx {l : List α} {i : ℕ} {x : α} (f : α → ℕ) (h : l[i]? = some x) :
    ((l.eraseIdx i).map f).sum + f x = (l.map f).sum := by
  obtain ⟨hi, rfl⟩ := List.getElem?_eq_some_iff.mp h
  have hperm := ((List.getElem_cons_eraseIdx_perm hi).map f).sum_nat
  rw [List.map_cons, List.sum_cons] at hperm
  omega

theorem sum_map_ite (p : α → Bool) (l : List α) :
    (l.map fun a => if p a then 1 else 0).sum = l.countP p := by
  induction l with
  | nil => rfl
  | cons a l ih => rw [List.map_cons, List.sum_cons, ih, List.countP_cons, Nat.add_comm]

/-- The rows with the property cost at most one more. -/
theorem sum_map_le_add {f g : α → ℕ} (p : α → Bool) (l : List α)
    (h : ∀ a, f a ≤ g a + if p a then 1 else 0) :
    (l.map f).sum ≤ (l.map g).sum + l.countP p := by
  induction l with
  | nil => exact Nat.le_refl _
  | cons a l ih =>
    have ha := h a
    simp only [List.map_cons, List.sum_cons, List.countP_cons]
    omega

/-- The rows of a list that are named in `s`. -/
theorem sum_count [DecidableEq α] (s : Finset α) (l : List α) :
    ∑ a ∈ s, l.count a = l.countP (· ∈ s) := by
  induction l with
  | nil => simp
  | cons b l ih =>
    simp only [List.count_cons, Finset.sum_add_distrib, ih, List.countP_cons, beq_iff_eq,
      decide_eq_true_eq]
    congr 1
    exact Finset.sum_ite_eq s b fun _ => 1

/-- A list has at most as many rows of these names as it has rows, and fewer if there is another
name in it. -/
theorem sum_count_le [DecidableEq α] (s : Finset α) (l : List α) :
    ∑ a ∈ s, l.count a ≤ l.length := by
  rw [sum_count]
  exact List.countP_le_length

theorem mem_of_sum_count [DecidableEq α] {s : Finset α} {l : List α}
    (h : ∑ a ∈ s, l.count a = l.length) : ∀ a ∈ l, a ∈ s := by
  rw [sum_count, List.countP_eq_length] at h
  exact fun a ha => decide_eq_true_eq.mp (h a ha)

end Tally
