/-
# Lamport clocks (`protocol/abd/lamport.h`)

A clock is a 32-bit count and a 32-bit machine id.  The six comparison operators of the source
all compare `to_int`, the 64-bit number `count << 32 | m_id`; the order of this file is that one.

`toNat_toInt` is the only place where the shift and the bitwise or are opened: everything after
it is arithmetic on `count.toNat * 2 ^ 32 + m_id.toNat`.  A clock also has a memory image, eight
bytes with the count first (`toBytes`), because messages carry clocks as raw struct copies.
-/
import Avocado.Lib.Bytes
import Mathlib.Order.Lattice

namespace Avocado

open Bytes

/-! ## 1. The clock and its order -/

/-- `class Lamport`. -/
structure Lamport where
  count : BitVec 32
  mId : BitVec 32
  deriving DecidableEq, Repr

namespace Lamport

/-- `to_int`: the count in the high half, the machine id in the low half. -/
def toInt (l : Lamport) : BitVec 64 := (l.count.setWidth 64 <<< 32) ||| l.mId.setWidth 64

/-- `explicit Lamport(Int_t l)`. -/
def ofInt (l : BitVec 64) : Lamport := ⟨(l >>> 32).setWidth 32, (0xFFFFFFFF#64 &&& l).setWidth 32⟩

/-- `Lamport::min()`. -/
def min : Lamport := ⟨0, 0⟩

theorem toNat_toInt (l : Lamport) : l.toInt.toNat = l.count.toNat * 2 ^ 32 + l.mId.toNat := by
  have hc := l.count.isLt
  have hm := l.mId.isLt
  rw [toInt, BitVec.toNat_or, BitVec.toNat_shiftLeft, BitVec.toNat_setWidth_of_le (by omega),
    BitVec.toNat_setWidth_of_le (by omega), Nat.mod_eq_of_lt (by rw [Nat.shiftLeft_eq]; omega),
    ← Nat.shiftLeft_add_eq_or_of_lt hm, Nat.shiftLeft_eq]

theorem toInt_toNat_injective : Function.Injective fun l : Lamport => l.toInt.toNat := by
  rintro ⟨c, m⟩ ⟨c', m'⟩ h
  simp only [toNat_toInt] at h
  have hm := m.isLt
  have hm' := m'.isLt
  have hc : c.toNat = c'.toNat := by omega
  have hmm : m.toNat = m'.toNat := by omega
  rw [BitVec.eq_of_toNat_eq hc, BitVec.eq_of_toNat_eq hmm]

/-- The order of the `LAMPORT_OPERATOR`s: `to_int(*this) OP to_int(rhs)`. -/
instance : LinearOrder Lamport := LinearOrder.lift' (fun l => l.toInt.toNat) toInt_toNat_injective

theorem lt_iff {a b : Lamport} : a < b ↔ a.toInt.toNat < b.toInt.toNat := Iff.rfl

theorem le_iff {a b : Lamport} : a ≤ b ↔ a.toInt.toNat ≤ b.toInt.toNat := Iff.rfl

theorem min_le (a : Lamport) : min ≤ a := by
  rw [le_iff, toNat_toInt, toNat_toInt]
  simp [min]

/-- The count decides first. -/
theorem lt_of_count_lt {a b : Lamport} (h : a.count.toNat < b.count.toNat) : a < b := by
  rw [lt_iff, toNat_toInt, toNat_toInt]
  have hm := a.mId.isLt
  omega

theorem count_le_of_le {a b : Lamport} (h : a ≤ b) : a.count.toNat ≤ b.count.toNat := by
  rw [le_iff, toNat_toInt, toNat_toInt] at h
  have hm := b.mId.isLt
  omega

/-! ## 2. The memory image -/

/-- The eight bytes of the struct: the count, then the machine id. -/
def toBytes (l : Lamport) : List UInt8 := leBytes 4 l.count.toNat ++ leBytes 4 l.mId.toNat

/-- `*reinterpret_cast<Lamport *>(bs)`. -/
def ofBytes (bs : List UInt8) : Lamport :=
  ⟨BitVec.ofNat 32 (leNat (bs.take 4)), BitVec.ofNat 32 (leNat ((bs.drop 4).take 4))⟩

@[simp] theorem length_toBytes (l : Lamport) : l.toBytes.length = 8 := by simp [toBytes]

@[simp] theorem ofBytes_toBytes (l : Lamport) : ofBytes l.toBytes = l := by
  obtain ⟨c, m⟩ := l
  have hc : leNat (leBytes 4 c.toNat) = c.toNat := leNat_leBytes_of_lt c.isLt
  have hm : leNat (leBytes 4 m.toNat) = m.toNat := leNat_leBytes_of_lt m.isLt
  have htake : (leBytes 4 c.toNat ++ leBytes 4 m.toNat).take 4 = leBytes 4 c.toNat :=
    List.take_left' (length_leBytes _ _)
  have hdrop : ((leBytes 4 c.toNat ++ leBytes 4 m.toNat).drop 4).take 4 = leBytes 4 m.toNat := by
    rw [List.drop_left' (length_leBytes _ _), List.take_of_length_le (by simp)]
  simp only [ofBytes, toBytes, htake, hdrop, hc, hm, BitVec.ofNat_toNat, BitVec.setWidth_eq]

end Lamport

end Avocado
