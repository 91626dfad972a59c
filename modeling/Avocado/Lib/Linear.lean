/-
# Linearizable histories

A sequential object is a state with operations that are applied one at a time (`Object`).  Calls
on a concurrent implementation of it are recorded as a history of three kinds of events: the call,
its linearization point, and its return.  A history is linearizable (`Object.Linear`) when a point
lies between its call and its return, a return reports the result of its point, and the result of
a point is that of the sequential operation on the state that the points before it have led to
(`Object.after`).

`linear_concat` is the rule to establish linearizability event by event along a run.
`Linear.between` is the rule to use it: what a call returned is what the sequential operation
returns at one moment during the call.
-/
import Mathlib.Data.List.Induction
import Mathlib.Order.Defs.PartialOrder

namespace History

/-- A sequential object: its initial state, and the new state and the result of an operation. -/
structure Object (σ ω ρ : Type*) where
  init : σ
  apply : σ → ω → σ × ρ

/-- The events of call `i` of an operation. -/
inductive Event (ω ρ : Type*)
  | call (i : Nat) (o : ω)
  | point (i : Nat) (o : ω) (r : ρ)
  | ret (i : Nat) (o : ω) (r : ρ)
  deriving DecidableEq

variable {σ ω ρ : Type*}

/-- The call that an event belongs to. -/
def Event.id : Event ω ρ → Nat
  | .call i _ => i
  | .point i _ _ => i
  | .ret i _ _ => i

namespace Object

variable {O : Object σ ω ρ} {h h₁ h₂ : List (Event ω ρ)} {e : Event ω ρ} {i j : Nat} {o : ω} {r : ρ}

/-- The state after one more event: points apply their operation. -/
def next (O : Object σ ω ρ) (x : σ) : Event ω ρ → σ
  | .call _ _ => x
  | .point _ o _ => (O.apply x o).1
  | .ret _ _ _ => x

/-- The state that the points of a history lead to. -/
def after (O : Object σ ω ρ) (h : List (Event ω ρ)) : σ := h.foldl O.next O.init

@[simp] theorem after_nil : O.after ([] : List (Event ω ρ)) = O.init := rfl

@[simp] theorem after_concat : O.after (h ++ [e]) = O.next (O.after h) e := by
  rw [after, List.foldl_append]
  rfl

/-- **A quantity that no operation lowers** is not lowered by more events. -/
theorem after_mono {β : Type*} [Preorder β] {f : σ → β} (hf : ∀ x o, f x ≤ f (O.apply x o).1) :
    f (O.after h₁) ≤ f (O.after (h₁ ++ h₂)) := by
  induction h₂ using List.reverseRecOn with
  | nil => rw [List.append_nil]
  | append_singleton h₂ e ih =>
    rw [← List.append_assoc, after_concat]
    refine le_trans ih ?_
    cases e with
    | call i o => exact le_refl _
    | point i o r => exact hf _ _
    | ret i o r => exact le_refl _

/-- When an event may follow a history. -/
def Allowed (O : Object σ ω ρ) (h : List (Event ω ρ)) : Event ω ρ → Prop
  | .call i _ => ∀ e ∈ h, e.id ≠ i
  | .point i o r =>
    .call i o ∈ h ∧ (∀ o' r', .point i o' r' ∉ h) ∧ (O.apply (O.after h) o).2 = r
  | .ret i o r => .point i o r ∈ h ∧ ∀ o' r', .ret i o' r' ∉ h

/-- **A linearizable history**: each event may follow the events before it. -/
def Linear (O : Object σ ω ρ) (h : List (Event ω ρ)) : Prop :=
  ∀ h₁ e h₂, h = h₁ ++ e :: h₂ → O.Allowed h₁ e

theorem linear_nil : O.Linear ([] : List (Event ω ρ)) := by
  intro h₁ e h₂ he
  exact absurd he.symm (by simp)

theorem Linear.left (hl : O.Linear (h₁ ++ h₂)) : O.Linear h₁ := by
  rintro a e b rfl
  exact hl a e (b ++ h₂) (by simp)

theorem linear_concat : O.Linear (h ++ [e]) ↔ O.Linear h ∧ O.Allowed h e := by
  constructor
  · intro hl
    exact ⟨hl.left, hl h e [] rfl⟩
  · rintro ⟨hl, he⟩ h₁ e' h₂ heq
    rcases List.eq_nil_or_concat h₂ with rfl | ⟨b, x, rfl⟩
    · obtain ⟨rfl, h1⟩ := List.append_inj' heq rfl
      rw [List.singleton_inj] at h1
      exact h1 ▸ he
    · have heq' : h ++ [e] = (h₁ ++ e' :: b) ++ [x] := by simpa using heq
      exact hl h₁ e' b (List.append_inj' heq' rfl).1

/-- An event of a linearizable history may follow the events before it. -/
theorem Linear.split (hl : O.Linear h) (he : e ∈ h) :
    ∃ h₁ h₂, h = h₁ ++ e :: h₂ ∧ O.Allowed h₁ e := by
  obtain ⟨h₁, h₂, heq⟩ := List.append_of_mem he
  exact ⟨h₁, h₂, heq, hl h₁ e h₂ heq⟩

/-- **A call takes effect at a moment between its call and its return**, and returns what the
sequential operation returns at that moment. -/
theorem Linear.between (hl : O.Linear h) (he : .ret i o r ∈ h) :
    ∃ h₁ h₂, h = h₁ ++ .point i o r :: h₂ ∧ .call i o ∈ h₁ ∧ .ret i o r ∈ h₂ ∧
      (O.apply (O.after h₁) o).2 = r := by
  obtain ⟨a, b, rfl, hpoint, -⟩ := hl.split he
  obtain ⟨h₁, h₂, rfl, hcall, -, hres⟩ := hl.left.split hpoint
  exact ⟨h₁, h₂ ++ .ret i o r :: b, by simp, hcall, by simp, hres⟩

/-- A call takes effect once. -/
theorem Linear.point_unique {o' : ω} {r' : ρ} (hl : O.Linear h) (he : .point i o r ∈ h)
    (he' : .point i o' r' ∈ h) : o' = o ∧ r' = r := by
  obtain ⟨a, b, rfl, -, hnew, -⟩ := hl.split he
  rcases List.mem_append.mp he' with hin | hin
  · exact absurd hin (hnew _ _)
  · rcases List.mem_cons.mp hin with heq | hin
    · cases heq
      exact ⟨rfl, rfl⟩
    · obtain ⟨c, d, rfl⟩ := List.append_of_mem hin
      have hnew' := hl (a ++ .point i o r :: c) (.point i o' r') d (by simp)
      exact absurd (by simp) (hnew'.2.1 o r)

theorem Linear.point_of_ret (hl : O.Linear h) (he : .ret i o r ∈ h) : .point i o r ∈ h := by
  obtain ⟨a, b, rfl, hpoint, -⟩ := hl.split he
  exact List.mem_append_left _ hpoint

/-- A call returns once. -/
theorem Linear.ret_unique {o' : ω} {r' : ρ} (hl : O.Linear h) (he : .ret i o r ∈ h)
    (he' : .ret i o' r' ∈ h) : o' = o ∧ r' = r :=
  hl.point_unique (hl.point_of_ret he) (hl.point_of_ret he')

end Object

end History
