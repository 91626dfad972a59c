/-
# The two orders of clocks (`protocol/abd/lamport.h`)

Which comparisons `Lamport` has depends on the compiler.  An older one gets the six operators of
`LAMPORT_OPERATOR`, each a comparison of `to_int`.  A newer one gets `operator<=>`, defaulted: the
members are compared in the order of their declaration, the count and then the machine id, and the
six operators are read off the result.

Servers of both kinds may talk to each other, so the two have to be one order.  They are, because
the count is in the high half of `to_int` and no machine id reaches into it
(`spaceship_eq_compare`).
-/
import Avocado.Lamport

namespace Avocado.Lamport

/-! ## 1. The operators -/

/-- `Lamport::max()`. -/
def max : Lamport := ⟨BitVec.allOnes 32, BitVec.allOnes 32⟩

/-- The arguments of `LAMPORT_OPERATOR`. -/
inductive Operator
  | lt
  | gt
  | le
  | ge
  | eq
  | ne
  deriving DecidableEq, Repr

/-- `lhs OP rhs` for unsigned integers. -/
def Operator.onInt : Operator → BitVec 64 → BitVec 64 → Bool
  | .lt, lhs, rhs => decide (lhs < rhs)
  | .gt, lhs, rhs => decide (rhs < lhs)
  | .le, lhs, rhs => decide (lhs ≤ rhs)
  | .ge, lhs, rhs => decide (rhs ≤ lhs)
  | .eq, lhs, rhs => lhs == rhs
  | .ne, lhs, rhs => lhs != rhs

/-- `LAMPORT_OPERATOR(OP)`. -/
def lamportOperator (op : Operator) (lhs rhs : Lamport) : Bool := op.onInt lhs.toInt rhs.toInt

/-- The defaulted `operator<=>`: the first member that differs decides. -/
def spaceship (lhs rhs : Lamport) : Ordering :=
  (compareOfLessAndEq lhs.count rhs.count).then (compareOfLessAndEq lhs.mId rhs.mId)

/-- The operator that a compiler derives from the default: `(lhs <=> rhs) OP 0`, and for the
equalities the defaulted `operator==`, which compares the members as well. -/
def Operator.derived : Operator → Lamport → Lamport → Bool
  | .lt, lhs, rhs => (spaceship lhs rhs).isLT
  | .gt, lhs, rhs => (spaceship lhs rhs).isGT
  | .le, lhs, rhs => (spaceship lhs rhs).isLE
  | .ge, lhs, rhs => (spaceship lhs rhs).isGE
  | .eq, lhs, rhs => lhs.count == rhs.count && lhs.mId == rhs.mId
  | .ne, lhs, rhs => !(lhs.count == rhs.count && lhs.mId == rhs.mId)

/-! ## 2. `to_int` and back -/

theorem toInt_injective : Function.Injective toInt :=
  fun _ _ h => toInt_toNat_injective (congrArg BitVec.toNat h)

theorem toInt_inj {a b : Lamport} : a.toInt = b.toInt ↔ a.count = b.count ∧ a.mId = b.mId := by
  constructor
  · intro h
    obtain rfl := toInt_injective h
    exact ⟨rfl, rfl⟩
  · obtain ⟨c, m⟩ := a
    obtain ⟨c', m'⟩ := b
    rintro ⟨rfl, rfl⟩
    rfl

theorem toNat_count_ofInt (x : BitVec 64) : (ofInt x).count.toNat = x.toNat / 2 ^ 32 := by
  have hx := x.isLt
  rw [ofInt, BitVec.toNat_setWidth, BitVec.toNat_ushiftRight, Nat.shiftRight_eq_div_pow]
  exact Nat.mod_eq_of_lt (by omega)

theorem toNat_mId_ofInt (x : BitVec 64) : (ofInt x).mId.toNat = x.toNat % 2 ^ 32 := by
  have hand : (0xFFFFFFFF#64 &&& x).toNat = x.toNat % 2 ^ 32 := by
    rw [BitVec.toNat_and, Nat.and_comm]
    exact Nat.and_two_pow_sub_one_eq_mod x.toNat 32
  rw [ofInt, BitVec.toNat_setWidth, hand, Nat.mod_mod]

theorem toInt_ofInt (x : BitVec 64) : (ofInt x).toInt = x := by
  refine BitVec.eq_of_toNat_eq ?_
  rw [toNat_toInt, toNat_count_ofInt, toNat_mId_ofInt]
  omega

theorem ofInt_toInt (a : Lamport) : ofInt a.toInt = a := toInt_injective (toInt_ofInt a.toInt)

/-! ## 3. One order -/

theorem toInt_lt_iff {a b : Lamport} :
    a.toInt < b.toInt ↔ a.count < b.count ∨ a.count = b.count ∧ a.mId < b.mId := by
  have hm := a.mId.isLt
  have hm' := b.mId.isLt
  simp only [BitVec.lt_def, BitVec.toNat_eq, toNat_toInt]
  omega

/-- **The default compares `to_int`.** -/
theorem spaceship_eq_compare (a b : Lamport) :
    spaceship a b = compareOfLessAndEq a.toInt b.toInt := by
  simp only [spaceship, compareOfLessAndEq, toInt_lt_iff, toInt_inj]
  by_cases hlt : a.count < b.count
  · simp [hlt]
  · by_cases heq : a.count = b.count
    · simp [heq]
    · simp [hlt, heq]

theorem compare_cases (x y : BitVec 64) :
    (x < y ∧ compareOfLessAndEq x y = .lt) ∨ (x = y ∧ compareOfLessAndEq x y = .eq) ∨
      (y < x ∧ compareOfLessAndEq x y = .gt) := by
  unfold compareOfLessAndEq
  by_cases hlt : x < y
  · exact Or.inl ⟨hlt, if_pos hlt⟩
  · by_cases heq : x = y
    · exact Or.inr (Or.inl ⟨heq, by rw [if_neg hlt, if_pos heq]⟩)
    · have hgt : y < x := BitVec.lt_of_le_ne (BitVec.not_lt.mp hlt) (Ne.symm heq)
      exact Or.inr (Or.inr ⟨hgt, by rw [if_neg hlt, if_neg heq]⟩)

/-- Both compilers give the same answer. -/
theorem lamportOperator_eq_derived (op : Operator) (a b : Lamport) :
    lamportOperator op a b = op.derived a b := by
  have heq : (a.toInt == b.toInt) = (a.count == b.count && a.mId == b.mId) := by
    rw [Bool.eq_iff_iff, beq_iff_eq, Bool.and_eq_true, beq_iff_eq, beq_iff_eq]
    exact toInt_inj
  cases op with
  | eq => exact heq
  | ne => exact congrArg (!·) heq
  | _ =>
    simp only [lamportOperator, Operator.onInt, Operator.derived, spaceship_eq_compare]
    rcases compare_cases a.toInt b.toInt with ⟨h, hc⟩ | ⟨h, hc⟩ | ⟨h, hc⟩
    · rw [hc]
      simp [h, BitVec.le_of_lt h, BitVec.not_lt.mpr (BitVec.le_of_lt h), BitVec.not_le.mpr h]
    · rw [hc, h]
      simp
    · rw [hc]
      simp [h, BitVec.le_of_lt h, BitVec.not_lt.mpr (BitVec.le_of_lt h), BitVec.not_le.mpr h]

/-- `operator<` is the order of `Lamport.lean`. -/
theorem lamportOperator_lt {a b : Lamport} : lamportOperator .lt a b = true ↔ a < b :=
  decide_eq_true_iff

theorem lamportOperator_le {a b : Lamport} : lamportOperator .le a b = true ↔ a ≤ b :=
  decide_eq_true_iff

theorem le_max (a : Lamport) : a ≤ max := by
  have hmax : max.toInt.toNat = 2 ^ 64 - 1 := rfl
  have hlt := a.toInt.isLt
  rw [le_iff, hmax]
  omega

/-- A machine id with its top bit set does not reach the count. -/
example : lamportOperator .lt ⟨0, 0x80000000⟩ ⟨1, 0⟩ = true ∧
    spaceship ⟨0, 0x80000000⟩ ⟨1, 0⟩ = .lt := by decide

/-- What servers of both compilers rely on, together. -/
structure OneOrder : Prop where
  agree : ∀ op a b, lamportOperator op a b = Operator.derived op a b
  total : IsStrictTotalOrder Lamport fun a b => lamportOperator .lt a b = true
  equal : ∀ a b, lamportOperator .eq a b = true ↔ a.count = b.count ∧ a.mId = b.mId
  equivalent : ∀ a b, spaceship a b = .eq ↔ a.count = b.count ∧ a.mId = b.mId
  restored : ∀ a, ofInt a.toInt = a
  kept : ∀ x, (ofInt x).toInt = x
  least : ∀ a, lamportOperator .le min a = true
  greatest : ∀ a, lamportOperator .le a max = true

theorem lt_isStrictTotalOrder :
    IsStrictTotalOrder Lamport fun a b => lamportOperator .lt a b = true where
  trichotomous := by
    intro a b hab hba
    rw [lamportOperator_lt, not_lt] at hab hba
    exact le_antisymm hba hab
  irrefl := by
    intro a ha
    rw [lamportOperator_lt] at ha
    exact lt_irrefl a ha
  trans := by
    intro a b c hab hbc
    rw [lamportOperator_lt] at hab hbc ⊢
    exact lt_trans hab hbc

theorem spaceship_eq_iff {a b : Lamport} :
    spaceship a b = .eq ↔ a.count = b.count ∧ a.mId = b.mId := by
  rw [← toInt_inj, spaceship_eq_compare]
  rcases compare_cases a.toInt b.toInt with ⟨h, hc⟩ | ⟨h, hc⟩ | ⟨h, hc⟩
  · simp [hc, BitVec.ne_of_lt h]
  · exact iff_of_true hc h
  · simp [hc, (BitVec.ne_of_lt h).symm]

/-- **The two clock orders are one total order**, and `to_int` loses nothing. -/
theorem oneOrder : OneOrder where
  agree := lamportOperator_eq_derived
  total := lt_isStrictTotalOrder
  equal _ _ := beq_iff_eq.trans toInt_inj
  equivalent _ _ := spaceship_eq_iff
  restored := ofInt_toInt
  kept := toInt_ofInt
  least a := lamportOperator_le.mpr (min_le a)
  greatest a := lamportOperator_le.mpr (le_max a)

end Avocado.Lamport
