/-
# Bounded string copies (`copy_utility.c`)

`strlcpy` and `strlcat` are given the size of `dst` and should write into it as much of the string
as there is room for, and a NUL.

Each of them counts wrongly once.  `strlcpy` computes `--size` without asking whether there is a
byte at all, so for a size of zero the bound is the largest number there is.  `strlcat` takes what
is left behind the old string as the number of characters to copy, where it should leave one byte
for the NUL: when `src` does not fit, the NUL is written behind `dst` (`strlcat_iff`).

A string in memory is shorter than `2 ^ 64`, so lengths are natural numbers here; what wraps is
`size`.
-/
import Avocado.Lib.CString

namespace Avocado.CopyUtility

open Bytes

/-! ## 1. The code -/

/-- `strlcpy`: what it returns, and `dst` afterwards. -/
def strlcpy (dst src : List UInt8) (size : BitVec 64) : Option (Nat × List UInt8) := do
  let srclen ← strlen src
  let size := size - 1
  let srclen := if srclen > size.toNat then size.toNat else srclen
  let dst ← putString dst 0 src srclen
  some (srclen, dst)

/-- `strlcat`: what it returns, and `dst` afterwards. -/
def strlcat (dst src : List UInt8) (size : BitVec 64) : Option (Nat × List UInt8) := do
  let dstlen ← strlen dst
  if size.toNat ≤ dstlen + 1 then
    some (dstlen, dst)
  else
    let size := size - BitVec.ofNat 64 dstlen
    let srclen ← strlen src
    let srclen := if srclen > size.toNat then size.toNat else srclen
    let dst ← putString dst dstlen src srclen
    some (dstlen + srclen, dst)

/-! ## 2. When they stay in bounds -/

/-- **A bounded copy.**  No access leaves the arrays, and when `dst` is not empty it holds the
longest prefix of the string that leaves a byte for the NUL. -/
def BoundedCopy (size : BitVec 64) (text : CString) (res : Option (Nat × List UInt8)) : Prop :=
  ∃ ret dst, res = some (ret, dst) ∧ dst.length = size.toNat ∧
    (size ≠ 0 → Holds dst (text.cut (size.toNat - 1)))

variable {dst src : List UInt8} {size : BitVec 64} {s old : CString}

theorem ite_gt_eq_min (a b : Nat) : (if a > b then b else a) = min a b := by
  split <;> omega

/-- What `putString` puts is a bounded copy, if that is where the string is to be cut. -/
theorem boundedCopy_of_put {ret off n : Nat} (hdst : dst.length = size.toNat) (hsrc : Holds src s)
    (hn : n ≤ s.chars.length) (hlt : off + n < dst.length) {text : CString}
    (htext : (text.cut (size.toNat - 1)).chars = dst.take off ++ s.chars.take n) :
    BoundedCopy size text ((putString dst off src n).bind fun dst => some (ret, dst)) := by
  have hput := putString_of_lt hsrc hn hlt
  rw [hput, Option.bind_some]
  exact ⟨ret, _, rfl, (putString_length hput).trans hdst, fun _ => ⟨_, by rw [htext]⟩⟩

/-- **`strlcpy`** stays inside `dst` unless `dst` is empty. -/
theorem strlcpy_iff (hsrc : Holds src s) (hdst : dst.length = size.toNat) :
    BoundedCopy size s (strlcpy dst src size) ↔ size ≠ 0 := by
  have heq : strlcpy dst src size = (putString dst 0 src
      (min s.chars.length (size - 1).toNat)).bind fun dst =>
        some (min s.chars.length (size - 1).toNat, dst) := by
    rw [strlcpy, hsrc.strlen]
    simp only [Option.bind_eq_bind, Option.bind_some, ite_gt_eq_min]
  rw [heq]
  constructor
  · rintro ⟨ret, dst', hres, -⟩ rfl
    have hempty : dst.length ≤ 0 := Nat.le_of_eq hdst
    rw [putString_of_le hsrc (Nat.min_le_left _ _) (Nat.le_trans hempty (Nat.zero_le _))] at hres
    exact absurd hres (by simp)
  · intro h
    have hpos : 1 ≤ size.toNat := BitVec.toNat_pos_of_ne_zero h
    have hpred : (size - 1).toNat = size.toNat - 1 := BitVec.toNat_sub_of_le hpos
    rw [hpred]
    refine boundedCopy_of_put hdst hsrc (Nat.min_le_left _ _) (by omega) ?_
    rw [List.take_zero, List.nil_append]
    exact List.take_eq_take_iff.mpr (by omega)

/-- **`strlcat`** stays inside `dst` if the string fits behind the old one, and if there is no room
for a single character. -/
theorem strlcat_iff (hsrc : Holds src s) (hdst : dst.length = size.toNat) (hold : Holds dst old) :
    BoundedCopy size (old.append s) (strlcat dst src size) ↔
      size.toNat = old.chars.length + 1 ∨
        old.chars.length + s.chars.length < size.toNat := by
  have hlt := hold.lt_length
  have hsize := size.isLt
  by_cases hfull : size.toNat ≤ old.chars.length + 1
  · have heq : strlcat dst src size = some (old.chars.length, dst) := by
      rw [strlcat, hold.strlen, Option.bind_eq_bind, Option.bind_some, if_pos hfull]
    refine iff_of_true ⟨_, dst, heq, hdst, fun _ => ?_⟩ (Or.inl (by omega))
    have hcut : ((old.append s).cut (size.toNat - 1)).chars = old.chars := by
      rw [show size.toNat - 1 = old.chars.length by omega]
      exact List.take_left
    rw [Holds, hcut]
    exact hold
  · have hsub : (size - BitVec.ofNat 64 old.chars.length).toNat =
        size.toNat - old.chars.length := by
      rw [BitVec.toNat_sub, BitVec.toNat_ofNat]
      omega
    have heq : strlcat dst src size = (putString dst old.chars.length src
        (min s.chars.length (size.toNat - old.chars.length))).bind
          fun dst => some (old.chars.length +
            min s.chars.length (size.toNat - old.chars.length), dst) := by
      rw [strlcat, hold.strlen, Option.bind_eq_bind, Option.bind_some, if_neg hfull, hsrc.strlen]
      simp only [Option.bind_eq_bind, Option.bind_some, hsub, ite_gt_eq_min]
    rw [heq]
    constructor
    · rintro ⟨ret, dst', hres, -⟩
      refine Or.inr (Nat.lt_of_not_le fun hle => ?_)
      -- the NUL goes behind the last byte
      rw [putString_of_le hsrc (Nat.min_le_left _ _) (by omega)] at hres
      exact absurd hres (by simp)
    · rintro (h | h)
      · omega
      · refine boundedCopy_of_put hdst hsrc (Nat.min_le_left _ _) (by omega) ?_
        rw [hold.take, List.take_of_length_le (by omega)]
        refine List.take_of_length_le ?_
        rw [CString.append, List.length_append]
        omega

/-- **When the copies stay in bounds**: `strlcpy` if there is a byte at all, and `strlcat` if the
string fits or if there is no room for one character. -/
theorem boundedCopies_iff (hsrc : Holds src s) (hdst : dst.length = size.toNat) :
    (BoundedCopy size s (strlcpy dst src size) ↔ size ≠ 0) ∧
      ∀ old, Holds dst old → (BoundedCopy size (old.append s) (strlcat dst src size) ↔
        size.toNat = old.chars.length + 1 ∨
          old.chars.length + s.chars.length < size.toNat) :=
  ⟨strlcpy_iff hsrc hdst, fun _ hold => strlcat_iff hsrc hdst hold⟩

/-- `"a"`, `"b"` and `"bc"`. -/
def strA : CString := ⟨[97], by decide⟩
def strB : CString := ⟨[98], by decide⟩
def strBC : CString := ⟨[98, 99], by decide⟩

/-- `"b"` fits behind `"a"` in three bytes. -/
theorem boundedCopies_iff_three :
    (BoundedCopy 3 strB (strlcpy [97, 0, 0] [98, 0] 3) ↔ (3 : BitVec 64) ≠ 0) ∧
      ∀ old, Holds [97, 0, 0] old →
        (BoundedCopy 3 (old.append strB) (strlcat [97, 0, 0] [98, 0] 3) ↔
          (3 : BitVec 64).toNat = old.chars.length + 1 ∨
            old.chars.length + strB.chars.length < (3 : BitVec 64).toNat) :=
  boundedCopies_iff ⟨[], rfl⟩ rfl

/-- **A byte too far**: `"b"` is copied into no bytes, and `"bc"` behind `"a"` into three. -/
theorem not_boundedCopies :
    ¬ BoundedCopy 0 strB (strlcpy [] [98, 0] 0) ∧ Holds [97, 0, 0] strA ∧
      ¬ BoundedCopy 3 (strA.append strBC) (strlcat [97, 0, 0] [98, 99, 0] 3) := by
  refine ⟨?_, ⟨[0], rfl⟩, ?_⟩
  · rintro ⟨ret, dst, h, -⟩
    have hnone : strlcpy [] [98, 0] 0 = none := rfl
    rw [hnone] at h
    exact absurd h (by simp)
  · rintro ⟨ret, dst, h, -⟩
    have hnone : strlcat [97, 0, 0] [98, 99, 0] 3 = none := rfl
    rw [hnone] at h
    exact absurd h (by simp)

end Avocado.CopyUtility
