/-
# Opened and closed

A ledger is two lists of names, those that were opened and those that were closed.  When a name is
opened once, closed at most once, and closed only if it was opened, the ones still open are as
many as the difference.  A counter of `w` bits that goes up for each opening and down for each
closing then shows their number, modulo `2 ^ w`.
-/
import Mathlib.Data.List.Perm.Basic
import Mathlib.Data.List.Perm.Lattice
import Mathlib.Data.List.Nodup

namespace Ledger

variable {α : Type*} [DecidableEq α]

/-- The names that are still open. -/
def outstanding (opened closed : List α) : List α := opened.filter fun a => !decide (a ∈ closed)

variable {opened closed : List α}

theorem outstanding_eq_nil_iff : outstanding opened closed = [] ↔ ∀ a ∈ opened, a ∈ closed := by
  simp [outstanding, List.filter_eq_nil_iff]

/-- **The open ones and the closed ones** are all that were opened. -/
theorem length_outstanding_add (ho : opened.Nodup) (hc : closed.Nodup) (hsub : closed ⊆ opened) :
    (outstanding opened closed).length + closed.length = opened.length := by
  have hperm : (opened.filter fun a => decide (a ∈ closed)).Perm closed := by
    refine (List.perm_ext_iff_of_nodup (ho.filter _) hc).mpr fun a => ?_
    simp only [List.mem_filter, decide_eq_true_eq]
    exact ⟨fun h => h.2, fun h => ⟨hsub h, h⟩⟩
  have hsplit := (List.filter_append_perm (fun a => decide (a ∈ closed)) opened).length_eq
  rw [List.length_append, hperm.length_eq] at hsplit
  rw [outstanding, Nat.add_comm]
  exact hsplit

/-- **What the counter shows.** -/
theorem counter_eq {w : Nat} {counter : BitVec w} (ho : opened.Nodup) (hc : closed.Nodup)
    (hsub : closed ⊆ opened)
    (hcount : counter + BitVec.ofNat w closed.length = BitVec.ofNat w opened.length) :
    counter = BitVec.ofNat w (outstanding opened closed).length := by
  rw [← length_outstanding_add ho hc hsub, BitVec.ofNat_add] at hcount
  exact (BitVec.add_left_inj _).mp hcount

end Ledger
