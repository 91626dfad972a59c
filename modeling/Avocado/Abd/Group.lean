/-
# A key's group of three servers

`replica_ordering` gives every key a group: each of its three members contacts the other two, and
a server outside the group has an empty vector for the key and skips its operations.  Two pairs of
members always share one (`GroupOfThree.meet`), which is all that the quorum arguments need.

`trio` is the smallest configuration there is, three servers that serve every key.
-/
import Avocado.Abd.Invariant
import Mathlib.Data.Fintype.Card

namespace Avocado

/-! ## 1. Groups -/

variable {Srv : Type} {cfg : Cfg Srv} {k : List UInt8} {g : Finset Srv} {x y z w : Srv}

/-- The group of a key. -/
structure GroupOfThree (cfg : Cfg Srv) (k : List UInt8) (g : Finset Srv) : Prop where
  card : g.card = 3
  member : ∀ x ∈ g, ∃ reps, cfg.reps x k = some reps ∧ reps.Nodup ∧ ∀ y, y ∈ reps ↔ y ∈ g ∧ y ≠ x
  other : ∀ x ∉ g, cfg.reps x k = some []

/-- Only members contact anyone, and only members are contacted. -/
theorem GroupOfThree.of_contacts (h : GroupOfThree cfg k g) (hc : Contacts cfg x k y) :
    x ∈ g ∧ y ∈ g ∧ y ≠ x := by
  obtain ⟨reps, hreps, hy⟩ := hc
  by_cases hx : x ∈ g
  · obtain ⟨reps', hreps', -, hiff⟩ := h.member x hx
    rw [hreps, Option.some.injEq] at hreps'
    subst hreps'
    exact ⟨hx, (hiff y).mp hy⟩
  · have hnone := h.other x hx
    rw [hreps, Option.some.injEq] at hnone
    rw [hnone] at hy
    exact absurd hy (by simp)

/-- **Any two pairs of members share a server.** -/
theorem GroupOfThree.meet [DecidableEq Srv] (h : GroupOfThree cfg k g) (hx : x ∈ g) (hy : y ∈ g)
    (hxy : y ≠ x) (hz : z ∈ g) (hw : w ∈ g) (hzw : w ≠ z) :
    z = x ∨ z = y ∨ w = x ∨ w = y := by
  have hsub : ∀ {a b : Srv}, a ∈ g → b ∈ g → ({a, b} : Finset Srv) ⊆ g := by
    intro a b ha hb c hc
    rcases Finset.mem_insert.mp hc with rfl | hc
    · exact ha
    · rw [Finset.mem_singleton.mp hc]; exact hb
  have hcard : g.card < ({x, y} : Finset Srv).card + ({z, w} : Finset Srv).card := by
    rw [h.card, Finset.card_pair hxy.symm, Finset.card_pair hzw.symm]
    omega
  obtain ⟨c, hc⟩ := Finset.inter_nonempty_of_card_lt_card_add_card (hsub hx hy) (hsub hz hw) hcard
  simp only [Finset.mem_inter, Finset.mem_insert, Finset.mem_singleton] at hc
  obtain ⟨rfl | rfl, rfl | rfl⟩ := hc <;> simp

/-! ## 2. Three servers -/

/-- Three servers. -/
inductive Trio
  | first
  | second
  | third
  deriving DecidableEq

instance : Fintype Trio where
  elems := {.first, .second, .third}
  complete x := by cases x <;> decide

/-- The machine id of a server. -/
def Trio.mId : Trio → BitVec 32
  | .first => 1
  | .second => 2
  | .third => 3

/-- The servers that a server contacts. -/
def Trio.others : Trio → List Trio
  | .first => [.second, .third]
  | .second => [.third, .first]
  | .third => [.first, .second]

/-- Three servers, one group. -/
def trio : Cfg Trio where
  maxValueSize := 16
  mId := Trio.mId
  replicas x := [x.others]

def trioKey : List UInt8 := [1, 2, 3, 4, 5, 6, 7, 8]

def trioValue : List UInt8 := [16, 15, 14, 13, 12, 11, 10, 9, 8, 7, 6, 5, 4, 3, 2, 1]

/-- All three are the group of every key. -/
theorem groupOfThree_trio : GroupOfThree trio trioKey Finset.univ where
  card := rfl
  member x _ := by
    have hreps : ∀ x, trio.reps x trioKey = some x.others := by decide +kernel
    have hothers : ∀ x : Trio, x.others.Nodup ∧
        ∀ y, y ∈ x.others ↔ y ∈ Finset.univ ∧ y ≠ x := by decide
    exact ⟨x.others, hreps x, hothers x⟩
  other x hx := absurd (Finset.mem_univ x) hx

/-- The state after the given actions. -/
def trioAfter (ok : State Trio → Action Trio → Bool) (as : List (Action Trio)) :
    State Trio := (Run.exec (Run.guard ok (step trio)) (State.init _) as).getD (State.init _)

theorem run_trioAfter (ok : State Trio → Action Trio → Bool) (as : List (Action Trio))
    (h : (Run.exec (Run.guard ok (step trio)) (State.init _) as).isSome) :
    Run trio ok (State.init _) (trioAfter ok as) := by
  obtain ⟨s, hs⟩ := Option.isSome_iff_exists.mp h
  rw [trioAfter, hs, Option.getD_some]
  exact Run.of_exec hs

/-- The run that goes on with further actions. -/
theorem run_trioAfter_append (ok : State Trio → Action Trio → Bool)
    (as bs : List (Action Trio))
    (h : (Run.exec (Run.guard ok (step trio)) (State.init _) (as ++ bs)).isSome) :
    Run trio ok (trioAfter ok as) (trioAfter ok (as ++ bs)) := by
  obtain ⟨s, hs⟩ := Option.isSome_iff_exists.mp h
  have happ := hs
  rw [Run.exec_append, Option.bind_eq_some_iff] at happ
  obtain ⟨s₁, hs₁, hrest⟩ := happ
  rw [trioAfter, trioAfter, hs₁, hs, Option.getD_some, Option.getD_some]
  exact Run.of_exec hrest

end Avocado
