/-
# Runs of a transition relation

A run is a chain of steps, `Relation.ReflTransGen`.  Three rules turn facts about one step into
facts about a run: a property that every step keeps holds in every state that is reached
(`invariant`), a quantity that no step lowers is not lowered by a run (`monotone`), and a system
that can follow every step of another one can follow its runs (`simulation`).

A machine is given by a partial step function on states and actions.  `Moves` is its transition
relation, `guard` keeps the steps that meet a condition, and `exec` computes a run, so that a
concrete run is found by evaluation (`of_exec`).
-/
import Mathlib.Algebra.GroupWithZero.Nat
import Mathlib.Logic.Relation
import Mathlib.Order.Defs.PartialOrder

namespace Run

open Relation

variable {α : Type*} {R : α → α → Prop} {a b : α}

/-- **The invariant rule.** -/
theorem invariant {I : α → Prop} (hstep : ∀ x y, I x → R x y → I y) (h : ReflTransGen R a b)
    (h0 : I a) : I b := by
  induction h with
  | refl => exact h0
  | tail _ hlast ih => exact hstep _ _ ih hlast

/-- The invariant rule, with an invariant that is already known. -/
theorem invariant_with {J I : α → Prop} (hJ : ∀ x y, J x → R x y → J y)
    (hstep : ∀ x y, J x → J y → I x → R x y → I y) (h : ReflTransGen R a b) (hJ0 : J a) (h0 : I a) :
    I b := by
  have hboth : J b ∧ I b :=
    invariant (I := fun x => J x ∧ I x)
      (fun x y hx hr => ⟨hJ x y hx.1 hr, hstep x y hx.1 (hJ x y hx.1 hr) hx.2 hr⟩) h ⟨hJ0, h0⟩
  exact hboth.2

/-- **A quantity that no step lowers** is not lowered by a run. -/
theorem monotone {β : Type*} [Preorder β] {f : α → β} (hstep : ∀ x y, R x y → f x ≤ f y)
    (h : ReflTransGen R a b) : f a ≤ f b :=
  invariant (I := fun x => f a ≤ f x) (fun x y hx hr => le_trans hx (hstep x y hr)) h (le_refl _)

/-- **The simulation rule.**  When every step of one system can be followed by steps of another one,
so that the two states stay related, a run of the first is followed by a run of the second. -/
theorem simulation {β : Type*} {T : β → β → Prop} {I : α → β → Prop} {u : β}
    (hstep : ∀ x y v, I x v → R x y → ∃ w, ReflTransGen T v w ∧ I y w) (h : ReflTransGen R a b)
    (h0 : I a u) : ∃ v, ReflTransGen T u v ∧ I b v := by
  refine invariant (I := fun x => ∃ v, ReflTransGen T u v ∧ I x v) ?_ h ⟨u, .refl, h0⟩
  rintro x y ⟨v, hv, hx⟩ hxy
  obtain ⟨w, hw, hy⟩ := hstep x y v hx hxy
  exact ⟨w, hv.trans hw, hy⟩

/-- **The step that wrote an entry.**  Where every step appends to a log, each entry of the log was
appended by one step of the run. -/
theorem exists_step_of_log {β : Type*} (log : α → List β)
    (hstep : ∀ x y, R x y → ∃ es, log y = log x ++ es) (h : ReflTransGen R a b) (h0 : log a = [])
    {l₁ l₂ : List β} {e : β} (he : log b = l₁ ++ e :: l₂) :
    ∃ x y es₁ es₂, ReflTransGen R a x ∧ R x y ∧ ReflTransGen R y b ∧
      log y = log x ++ (es₁ ++ e :: es₂) ∧ l₁ = log x ++ es₁ := by
  induction h generalizing l₂ with
  | refl => exact absurd (h0.symm.trans he) (by simp)
  | @tail x y hrun hlast ih =>
    obtain ⟨es, hes⟩ := hstep x y hlast
    rw [hes] at he
    rcases List.append_eq_append_iff.mp he with ⟨es₁, rfl, hes₁⟩ | ⟨l, hl, hcons⟩
    · exact ⟨x, y, es₁, l₂, hrun, hlast, .refl, by rw [hes, hes₁], rfl⟩
    · rcases List.cons_eq_append_iff.mp hcons with ⟨rfl, hl₂⟩ | ⟨l', rfl, -⟩
      · rw [List.append_nil] at hl
        exact ⟨x, y, [], l₂, hrun, hlast, .refl, by rw [hes, hl₂]; rfl, by rw [hl, List.append_nil]⟩
      · obtain ⟨x', y', es₁, es₂, hx, hxy, hy, hlog, hl₁⟩ := ih hl
        exact ⟨x', y', es₁, es₂, hx, hxy, hy.tail hlast, hlog, hl₁⟩

variable {ε : Type*} {step : α → ε → Option α}

/-- The transition relation of a machine. -/
def Moves (step : α → ε → Option α) (x y : α) : Prop := ∃ e, step x e = some y

/-- The machine that takes only the steps that meet the condition `ok`. -/
def guard (ok : α → ε → Bool) (step : α → ε → Option α) (x : α) (e : ε) : Option α :=
  if ok x e then step x e else none

theorem guard_eq_some {ok : α → ε → Bool} {e : ε} :
    guard ok step a e = some b ↔ ok a e = true ∧ step a e = some b := by
  unfold guard
  constructor
  · intro h
    split at h
    · rename_i hok; exact ⟨hok, h⟩
    · exact absurd h (by simp)
  · rintro ⟨hok, h⟩
    rw [if_pos hok, h]

/-- A run that meets a condition meets a weaker one. -/
theorem guard_mono {ok ok' : α → ε → Bool} (hok : ∀ x e, ok x e = true → ok' x e = true)
    (h : ReflTransGen (Moves (guard ok step)) a b) : ReflTransGen (Moves (guard ok' step)) a b := by
  refine ReflTransGen.mono (fun x y hxy => ?_) _ _ h
  obtain ⟨e, he⟩ := hxy
  obtain ⟨hoke, hstep⟩ := guard_eq_some.mp he
  exact ⟨e, guard_eq_some.mpr ⟨hok x e hoke, hstep⟩⟩

/-- The state that a list of actions leads to, if each is enabled. -/
def exec (step : α → ε → Option α) (x : α) : List ε → Option α
  | [] => some x
  | e :: es => (step x e).bind fun y => exec step y es

theorem exec_append (step : α → ε → Option α) (x : α) (es fs : List ε) :
    exec step x (es ++ fs) = (exec step x es).bind fun y => exec step y fs := by
  induction es generalizing x with
  | nil => rfl
  | cons e es ih =>
    rw [List.cons_append, exec, exec]
    cases step x e with
    | none => rfl
    | some y => exact ih y

theorem exec_concat {es : List ε} {e : ε} :
    exec step a (es ++ [e]) = some b ↔ ∃ y, exec step a es = some y ∧ step y e = some b := by
  simp [exec_append, exec, Option.bind_eq_some_iff]

theorem exec_of_guard {ok : α → ε → Bool} {es : List ε} (h : exec (guard ok step) a es = some b) :
    exec step a es = some b := by
  induction es generalizing a with
  | nil => exact h
  | cons e es ih =>
    rw [exec, Option.bind_eq_some_iff] at h ⊢
    obtain ⟨x, hx, h⟩ := h
    exact ⟨x, (guard_eq_some.mp hx).2, ih h⟩

/-- A quantity that no step lowers is not lowered by a list of actions. -/
theorem exec_monotone {g : α → Nat} (hg : ∀ x e y, step x e = some y → g x ≤ g y) {es : List ε}
    (h : exec step a es = some b) : g a ≤ g b := by
  induction es generalizing a with
  | nil =>
    rw [exec, Option.some.injEq] at h
    exact h ▸ Nat.le_refl _
  | cons e es ih =>
    rw [exec, Option.bind_eq_some_iff] at h
    obtain ⟨x, hx, h⟩ := h
    exact Nat.le_trans (hg a e x hx) (ih h)

/-- **The accounting rule.**  When every step is paid for, by what it brings or by the potential it
lowers, a run pays no more than it brings and the potential it starts with.  The prices may depend
on how far a quantity grows that no step lowers. -/
theorem exec_potential_of_le {I : α → Prop} {f g : α → Nat} {pay bring : ε → Nat} {n : Nat}
    (hg : ∀ x e y, step x e = some y → g x ≤ g y)
    (hstep : ∀ x e y, I x → g y ≤ n → step x e = some y → I y ∧ f y + pay e ≤ f x + bring e)
    {es : List ε} (h : exec step a es = some b) (ha : I a) (hn : g b ≤ n) :
    f b + (es.map pay).sum ≤ f a + (es.map bring).sum := by
  induction es generalizing a with
  | nil =>
    rw [exec, Option.some.injEq] at h
    subst h
    exact Nat.le_refl _
  | cons e es ih =>
    rw [exec, Option.bind_eq_some_iff] at h
    obtain ⟨x, hx, h⟩ := h
    have hle : g x ≤ n := Nat.le_trans (exec_monotone hg h) hn
    obtain ⟨hI, hpay⟩ := hstep a e x ha hle hx
    have hrest := ih h hI
    simp only [List.map_cons, List.sum_cons]
    omega

/-- The accounting rule, with fixed prices. -/
theorem exec_potential {I : α → Prop} {f : α → Nat} {pay bring : ε → Nat}
    (hstep : ∀ x e y, I x → step x e = some y → I y ∧ f y + pay e ≤ f x + bring e) {es : List ε}
    (h : exec step a es = some b) (ha : I a) :
    f b + (es.map pay).sum ≤ f a + (es.map bring).sum :=
  exec_potential_of_le (g := fun _ => 0) (fun _ _ _ _ => Nat.le_refl _)
    (fun x e y hx _ hxy => hstep x e y hx hxy) h ha (Nat.le_refl 0)

section Variant

variable {I : α → Prop} {f : α → Nat}

/-- **The variant rule.**  When every step lowers a measure, a run has no more steps than the
measure it starts with. -/
theorem length_le (hstep : ∀ x e y, I x → step x e = some y → I y ∧ f y < f x) {es : List ε}
    (h : exec step a es = some b) (ha : I a) : I b ∧ es.length + f b ≤ f a := by
  induction es generalizing a with
  | nil =>
    rw [exec, Option.some.injEq] at h
    subst h
    exact ⟨ha, by simp⟩
  | cons e es ih =>
    rw [exec, Option.bind_eq_some_iff] at h
    obtain ⟨x, hx, h⟩ := h
    obtain ⟨hI, hlt⟩ := hstep a e x ha hx
    obtain ⟨hb, hle⟩ := ih h hI
    exact ⟨hb, by rw [List.length_cons]; omega⟩

/-- And every state leads to one in which no step can be taken. -/
theorem exists_stuck (hstep : ∀ x e y, I x → step x e = some y → I y ∧ f y < f x) (ha : I a) :
    ∃ es b, exec step a es = some b ∧ ∀ e, step b e = none := by
  generalize hn : f a = n
  induction n using Nat.strongRecOn generalizing a with
  | _ n ih =>
    by_cases hstuck : ∀ e, step a e = none
    · exact ⟨[], a, rfl, hstuck⟩
    · obtain ⟨e, he⟩ := Classical.not_forall.mp hstuck
      obtain ⟨x, hx⟩ := Option.ne_none_iff_exists'.mp he
      obtain ⟨hI, hlt⟩ := hstep a e x ha hx
      obtain ⟨es, b, hes, hb⟩ := ih (f x) (hn ▸ hlt) hI rfl
      exact ⟨e :: es, b, by rw [exec, hx, Option.bind_some, hes], hb⟩

end Variant

theorem of_exec {es : List ε} (h : exec step a es = some b) : ReflTransGen (Moves step) a b := by
  induction es generalizing a with
  | nil =>
    rw [exec, Option.some.injEq] at h
    exact h ▸ .refl
  | cons e es ih =>
    rw [exec, Option.bind_eq_some_iff] at h
    obtain ⟨x, hx, h⟩ := h
    exact .head ⟨e, hx⟩ (ih h)

end Run
