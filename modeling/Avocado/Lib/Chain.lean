/-
# Chains of cells

A singly linked list in memory: cells with a value and the address of the next cell.  The heap is a
list of cells, an address is a place in it, and new cells go to the end.

`Linked heap p l` says that the cells from `p` on are `l`, with their addresses.  The heap alone
determines them (`Linked.unique`), so no address comes twice (`Linked.nodup`) and the chain ends
within the length of the heap (`Linked.length_le`).  What is written elsewhere does not matter
(`Linked.set_of_not_mem`, `Linked.append`), and a cell that gets another successor joins the part in
front of it to whatever hangs on that successor (`Linked.redirect`).
-/
import Mathlib.Data.Finset.Card

namespace Chain

/-! ## 1. Cells -/

/-- A cell. -/
structure Cell (α : Type*) where
  val : α
  next : Option Nat
  deriving DecidableEq, Repr

variable {α : Type*} {heap heap' : List (Cell α)} {p q : Option Nat} {a b : Nat} {x y : α}
  {c : Cell α} {l l' pre post : List (Nat × α)}

/-- **The cells from an address on**, with their addresses. -/
inductive Linked (heap : List (Cell α)) : Option Nat → List (Nat × α) → Prop
  | nil : Linked heap none []
  | cons {a : Nat} {c : Cell α} {l : List (Nat × α)} (cell : heap[a]? = some c)
      (rest : Linked heap c.next l) : Linked heap (some a) ((a, c.val) :: l)

/-- The addresses. -/
def addrs (l : List (Nat × α)) : List Nat := l.map Prod.fst

@[simp] theorem addrs_nil : addrs ([] : List (Nat × α)) = [] := rfl

@[simp] theorem addrs_cons : addrs ((a, x) :: l) = a :: addrs l := rfl

@[simp] theorem addrs_append : addrs (pre ++ post) = addrs pre ++ addrs post := List.map_append

namespace Linked

/-! ## 2. One heap, one chain -/

theorem unique (h : Linked heap p l) (h' : Linked heap p l') : l = l' := by
  induction h generalizing l' with
  | nil =>
    cases h'
    rfl
  | cons cell _ ih =>
    cases h' with
    | cons cell' rest' =>
      obtain rfl := Option.some.inj (cell.symm.trans cell')
      rw [ih rest']

/-- The first cell is at the address. -/
theorem head_eq (h : Linked heap p ((a, x) :: l)) : p = some a := by
  cases h
  rfl

/-- A chain goes on from each of its cells. -/
theorem split (h : Linked heap p (pre ++ (a, x) :: post)) :
    ∃ c, heap[a]? = some c ∧ c.val = x ∧ Linked heap c.next post := by
  induction pre generalizing p with
  | nil =>
    cases h with
    | cons cell rest => exact ⟨_, cell, rfl, rest⟩
  | cons e pre ih =>
    cases h with
    | cons _ rest => exact ih rest

/-- **No address comes twice**: the chain behind the first occurrence would be its own part. -/
theorem nodup (h : Linked heap p l) : (addrs l).Nodup := by
  induction h with
  | nil => exact List.nodup_nil
  | @cons a c l cell rest ih =>
    rw [addrs_cons, List.nodup_cons]
    refine ⟨fun hmem => ?_, ih⟩
    obtain ⟨⟨b, x⟩, hb, rfl⟩ := List.mem_map.mp hmem
    obtain ⟨pre, post, rfl⟩ := List.append_of_mem hb
    obtain ⟨c', cell', -, rest'⟩ := rest.split
    obtain rfl := Option.some.inj (cell.symm.trans cell')
    have hlen := congrArg List.length (rest.unique rest')
    simp only [List.length_append, List.length_cons] at hlen
    omega

theorem lt_length (h : Linked heap p l) : ∀ a ∈ addrs l, a < heap.length := by
  induction h with
  | nil => exact fun a ha => absurd ha List.not_mem_nil
  | cons cell _ ih =>
    intro b hb
    rcases List.mem_cons.mp hb with rfl | hb
    · exact (List.getElem?_eq_some_iff.mp cell).1
    · exact ih b hb

/-- A chain is not longer than its heap. -/
theorem length_le (h : Linked heap p l) : l.length ≤ heap.length := by
  have hsub : (addrs l).toFinset ⊆ Finset.range heap.length := by
    intro a ha
    exact Finset.mem_range.mpr (h.lt_length a (List.mem_toFinset.mp ha))
  have hcard := Finset.card_le_card hsub
  rwa [List.toFinset_card_of_nodup h.nodup, Finset.card_range, addrs, List.length_map] at hcard

/-! ## 3. Writing to the heap -/

/-- New cells change nothing. -/
theorem append (h : Linked heap p l) (new : List (Cell α)) : Linked (heap ++ new) p l := by
  induction h with
  | nil => exact .nil
  | cons cell _ ih =>
    have hlt := (List.getElem?_eq_some_iff.mp cell).1
    exact .cons ((List.getElem?_append_left hlt).trans cell) ih

/-- **Cells outside of the chain do not matter.** -/
theorem set_of_not_mem (h : Linked heap p l) (ha : a ∉ addrs l) (c : Cell α) :
    Linked (heap.set a c) p l := by
  induction h with
  | nil => exact .nil
  | cons cell _ ih =>
    rw [addrs_cons, List.mem_cons, not_or] at ha
    exact .cons ((List.getElem?_set_ne ha.1).trans cell) (ih ha.2)

/-- **A cell with another successor**: the part in front of it stays, and what follows is what hangs
on the successor. -/
theorem redirect (h : Linked heap p (pre ++ (a, x) :: post))
    (hpost : Linked (heap.set a ⟨x, q⟩) q l) :
    Linked (heap.set a ⟨x, q⟩) p (pre ++ (a, x) :: l) := by
  induction pre generalizing p with
  | nil =>
    cases h with
    | cons cell _ =>
      have hlt := (List.getElem?_eq_some_iff.mp cell).1
      exact .cons (c := ⟨_, q⟩) (List.getElem?_set_self hlt) hpost
  | cons e pre ih =>
    have hnd := h.nodup
    cases h with
    | @cons b _ _ cell rest =>
      rw [List.cons_append, addrs_cons, addrs_append, addrs_cons, List.nodup_cons] at hnd
      have hne : a ≠ b := by
        rintro rfl
        exact hnd.1 (List.mem_append_right _ List.mem_cons_self)
      exact .cons ((List.getElem?_set_ne hne).trans cell) (ih rest)

end Linked

end Chain
