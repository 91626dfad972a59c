/-
# Loops that need not end

One pass of a loop gives the next state, or leaves the loop with a result.  `run` makes a bounded
number of passes, and `Returns` forgets the bound, so that a loop that never leaves is one that
returns nothing.

`run_of_variant` is the rule of total correctness, an invariant with a variant;
`Returns.invariant` is the one of partial correctness; and `not_returns` shows that a loop does not
end, by an invariant under which no pass leaves it.
-/
import Mathlib.Data.Nat.Notation

namespace Loop

variable {α β : Type*} {pass : α → α ⊕ β} {a a' : α} {b b' : β}

/-- The result, if at most `n` passes reach it. -/
def run (pass : α → α ⊕ β) : ℕ → α → Option β
  | 0, _ => none
  | n + 1, a =>
    match pass a with
    | .inl a' => run pass n a'
    | .inr b => some b

/-- The loop leaves with `b` when it is started in `a`. -/
def Returns (pass : α → α ⊕ β) (a : α) (b : β) : Prop := ∃ n, run pass n a = some b

theorem returns_of_inr (h : pass a = .inr b) : Returns pass a b := ⟨1, by rw [run, h]⟩

theorem returns_of_inl (h : pass a = .inl a') (h' : Returns pass a' b) : Returns pass a b := by
  obtain ⟨n, hn⟩ := h'
  exact ⟨n + 1, by rw [run, h]; exact hn⟩

/-- A loop leaves in its first pass or goes on. -/
theorem Returns.cases (h : Returns pass a b) :
    pass a = .inr b ∨ ∃ a', pass a = .inl a' ∧ Returns pass a' b := by
  obtain ⟨n, hn⟩ := h
  cases n with
  | zero => exact absurd hn (by simp [run])
  | succ n =>
    rw [run] at hn
    cases hp : pass a with
    | inl a' =>
      rw [hp] at hn
      exact Or.inr ⟨a', rfl, n, hn⟩
    | inr b' =>
      rw [hp] at hn
      exact Or.inl (congrArg Sum.inr (Option.some.inj hn))

/-- **Partial correctness.**  What every pass keeps, and what follows from it when a pass leaves. -/
theorem Returns.invariant {I : α → Prop} {Q : β → Prop} (h : Returns pass a b) (ha : I a)
    (hstep : ∀ x y, I x → pass x = .inl y → I y) (hout : ∀ x y, I x → pass x = .inr y → Q y) :
    Q b := by
  obtain ⟨n, hn⟩ := h
  induction n generalizing a with
  | zero => exact absurd hn (by simp [run])
  | succ n ih =>
    rw [run] at hn
    cases hp : pass a with
    | inl a' =>
      rw [hp] at hn
      exact ih (hstep _ _ ha hp) hn
    | inr b' =>
      rw [hp] at hn
      exact Option.some.inj hn ▸ hout _ _ ha hp

/-- A loop has one result. -/
theorem Returns.unique (h : Returns pass a b) (h' : Returns pass a b') : b = b' := by
  obtain ⟨n, hn⟩ := h'
  induction n generalizing a with
  | zero => exact absurd hn (by simp [run])
  | succ n ih =>
    rw [run] at hn
    rcases h.cases with hp | ⟨a', hp, h⟩
    · rw [hp] at hn
      exact Option.some.inj hn
    · rw [hp] at hn
      exact ih h hn

theorem returns_iff_of_inr (h : pass a = .inr b) : Returns pass a b' ↔ b' = b :=
  ⟨fun h' => h'.unique (returns_of_inr h), fun h' => h' ▸ returns_of_inr h⟩

/-- **Total correctness.**  An invariant, and a variant that every pass lowers and that bounds the
number of passes. -/
theorem run_of_variant {I : α → Prop} {Q : β → Prop} (v : α → ℕ) (ha : I a)
    (hstep : ∀ x y, I x → pass x = .inl y → I y ∧ v y < v x)
    (hout : ∀ x y, I x → pass x = .inr y → Q y) {n : ℕ} (hn : v a < n) :
    ∃ b, run pass n a = some b ∧ Q b := by
  induction n generalizing a with
  | zero => exact absurd hn (Nat.not_lt_zero _)
  | succ n ih =>
    cases hp : pass a with
    | inl a' =>
      obtain ⟨ha', hlt⟩ := hstep _ _ ha hp
      obtain ⟨b, hb, hQ⟩ := ih ha' (Nat.lt_of_lt_of_le hlt (Nat.le_of_lt_succ hn))
      exact ⟨b, by rw [run, hp]; exact hb, hQ⟩
    | inr b => exact ⟨b, by rw [run, hp], hout _ _ ha hp⟩

/-- **Divergence.**  An invariant under which no pass leaves the loop. -/
theorem not_returns {I : α → Prop} (ha : I a) (hstep : ∀ x, I x → ∃ y, pass x = .inl y ∧ I y) :
    ¬ Returns pass a b := by
  intro h
  refine h.invariant (Q := fun _ => False) ha ?_ ?_
  · intro x y hx hp
    obtain ⟨z, hz, hI⟩ := hstep x hx
    rw [hz] at hp
    exact Sum.inl.inj hp ▸ hI
  · intro x y hx hp
    obtain ⟨z, hz, -⟩ := hstep x hx
    rw [hz] at hp
    exact absurd hp (by simp)

end Loop
