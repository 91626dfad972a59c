/-
# Byte arrays: little-endian numbers, and loads and stores that may not leave the array

Support for programs that keep their data in raw memory.  An array is a list of bytes; a number
is laid out with its least significant byte first (`leBytes`, read back by `leNat`).  `load` and
`store` are the two accesses, and both are PARTIAL: an access that would leave the array is
`none`, so a result that exists is a proof that every access stayed inside.

The lemmas are about arrays written as `a ++ b ++ c`, because that is how a caller who knows the
layout sees one: a load at the boundary returns `b`, a store there replaces `b`
(`load_middle`, `store_middle`).  The first bytes and the whole array are the cases with nothing in
front (`load_front`, `load_whole`, `store_whole`).
-/
import Mathlib.Algebra.Group.Nat.Defs
import Mathlib.Data.List.Basic

namespace Bytes

/-! ## 1. Little-endian numbers -/

/-- The number an array denotes, least significant byte first. -/
def leNat : List UInt8 → Nat
  | [] => 0
  | b :: bs => b.toNat + 256 * leNat bs

/-- The `w` low bytes of `n`, least significant byte first. -/
def leBytes : Nat → Nat → List UInt8
  | 0, _ => []
  | w + 1, n => UInt8.ofNat n :: leBytes w (n / 256)

@[simp] theorem length_leBytes : ∀ w n : Nat, (leBytes w n).length = w
  | 0, _ => rfl
  | w + 1, n => by simp [leBytes, length_leBytes w]

theorem leNat_append : ∀ a b : List UInt8, leNat (a ++ b) = leNat a + 256 ^ a.length * leNat b
  | [], b => by simp [leNat]
  | x :: a, b => by
    rw [List.cons_append, leNat, leNat, leNat_append a b, List.length_cons, Nat.pow_succ',
      Nat.mul_assoc]
    omega

theorem leNat_leBytes : ∀ w n : Nat, leNat (leBytes w n) = n % 256 ^ w
  | 0, n => by simp [leBytes, leNat, Nat.mod_one]
  | w + 1, n => by
    have hmod : n % 256 ^ (w + 1) = n % 256 + 256 * (n / 256 % 256 ^ w) := by
      rw [Nat.pow_succ', Nat.mod_mul]
    rw [leBytes, leNat, leNat_leBytes w, UInt8.toNat_ofNat', hmod]

/-- A number that fits is read back unchanged. -/
theorem leNat_leBytes_of_lt {w n : Nat} (h : n < 256 ^ w) : leNat (leBytes w n) = n := by
  rw [leNat_leBytes, Nat.mod_eq_of_lt h]

/-! ## 2. Loads and stores -/

/-- The `len` bytes at offset `off`; `none` when the read leaves the array. -/
def load (mem : List UInt8) (off len : Nat) : Option (List UInt8) :=
  if off + len ≤ mem.length then some ((mem.drop off).take len) else none

/-- `memcpy(mem + off, bs, bs.size())`; `none` when the write leaves the array. -/
def store (mem : List UInt8) (off : Nat) (bs : List UInt8) : Option (List UInt8) :=
  if off + bs.length ≤ mem.length then
    some (mem.take off ++ bs ++ mem.drop (off + bs.length))
  else none

theorem load_isSome_iff {mem : List UInt8} {off len : Nat} :
    (load mem off len).isSome ↔ off + len ≤ mem.length := by
  rw [load, Option.isSome_ite]

/-- A load that has a result stayed inside. -/
theorem le_of_load {mem bs : List UInt8} {off len : Nat} (h : load mem off len = some bs) :
    off + len ≤ mem.length :=
  load_isSome_iff.mp (by rw [h]; rfl)

theorem load_middle {a b c : List UInt8} {off len : Nat} (ho : off = a.length)
    (hl : len = b.length) : load (a ++ b ++ c) off len = some b := by
  subst ho hl
  rw [load, if_pos (by simp), List.append_assoc, List.drop_left, List.take_left]

/-- The bytes at the front. -/
theorem load_front (a b : List UInt8) : load (a ++ b) 0 a.length = some a := by
  rw [load, if_pos (by simp), List.drop_zero, List.take_left]

/-- What is behind the load does not count. -/
theorem load_append {a : List UInt8} {off len : Nat} (h : off + len ≤ a.length) (b : List UInt8) :
    load (a ++ b) off len = load a off len := by
  have hlen : off + len ≤ (a ++ b).length := by
    rw [List.length_append]
    omega
  rw [load, load, if_pos hlen, if_pos h, List.drop_append_of_le_length (by omega),
    List.take_append_of_le_length (by rw [List.length_drop]; omega)]

/-- The whole array. -/
theorem load_whole (bs : List UInt8) : load bs 0 bs.length = some bs := by
  rw [load, if_pos (by simp), List.drop_zero, List.take_length]

theorem load_length {mem bs : List UInt8} {off len : Nat} (h : load mem off len = some bs) :
    bs.length = len := by
  unfold load at h
  split at h
  · injection h with h
    subst h
    simp only [List.length_take, List.length_drop]
    omega
  · exact absurd h (by simp)

theorem store_middle {a b c d : List UInt8} {o : Nat} (ho : o = a.length)
    (hl : d.length = b.length) : store (a ++ b ++ c) o d = some (a ++ d ++ c) := by
  subst ho
  have htake : (a ++ b ++ c).take a.length = a := by rw [List.append_assoc, List.take_left]
  have hdrop : (a ++ b ++ c).drop (a.length + d.length) = c := by
    rw [hl, ← List.length_append, List.drop_left]
  rw [store, if_pos (by simp [hl]), htake, hdrop]

/-- What was stored is there. -/
theorem load_store {mem bs mem' : List UInt8} {off : Nat} (h : store mem off bs = some mem') :
    load mem' off bs.length = some bs := by
  unfold store at h
  split at h
  · rw [← Option.some.inj h]
    exact load_middle (List.length_take_of_le (by omega)).symm rfl
  · exact absurd h (by simp)

/-- The whole array is replaced. -/
theorem store_whole {mem bs : List UInt8} (h : mem.length = bs.length) :
    store mem 0 bs = some bs := by
  simpa using store_middle (a := []) (b := mem) (c := []) rfl h.symm

theorem store_length {mem bs mem' : List UInt8} {off : Nat} (h : store mem off bs = some mem') :
    mem'.length = mem.length := by
  unfold store at h
  split at h
  · injection h with h
    subst h
    simp only [List.length_append, List.length_take, List.length_drop]
    omega
  · exact absurd h (by simp)

end Bytes
