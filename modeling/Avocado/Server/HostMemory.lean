/-
# The memory of the store (`server.cpp`, `memtables/create_allocator.cpp`)

The slab of the store lives in one region that the server maps at its start.  `Args` computes its
size from the number of keys and the size of a value, unless the command line gives one, and
`create_allocator` rounds it up to pages.

It does not round it up.  Where the size is not a multiple of the page size it adds
`size - remainder`, and not `pagesize - remainder`: the result is almost twice the size, and never a
multiple (`mappedSize_isLeast_iff`).  And nothing in `Args` keeps the product below `2 ^ 64`: it
refuses no numbers, and `mmap`, which may refuse a size, is given the one that is left of the
product.

Whatever was mapped, it is what the deleter unmaps (`unmapped_eq`).

`sizeof(ABD::KV_store)` and the page size are those of the machine.
-/
import Mathlib.Data.BitVec
import Mathlib.Order.Bounds.Defs

namespace Avocado.HostMemory

/-! ## 1. The code -/

/-- `host_memory` in `Args::Args`. -/
def hostMemory (sizeofKVStore nDistinctKeys hostMemory maxValueSize : BitVec 64) : BitVec 64 :=
  if hostMemory = 0 then
    let hostMemory := nDistinctKeys * (maxValueSize + sizeofKVStore)
    hostMemory * 2
  else hostMemory

/-- The size that `create_allocator` maps. -/
def mappedSize (pagesize size : BitVec 64) : BitVec 64 :=
  let remainder := size % pagesize
  if remainder ≠ 0 then size + (size - remainder) else size

/-- What the allocator is given: `ptr`, `ptr + size` and the size of an element. -/
structure Region where
  start : BitVec 64
  stop : BitVec 64
  elementSize : BitVec 64
  deriving DecidableEq, Repr

/-- `create_allocator`; `mmap` may fail. -/
def createAllocator (mmap : BitVec 64 → Option (BitVec 64))
    (pagesize size elementSize : BitVec 64) : Option Region := do
  let size := mappedSize pagesize size
  let ptr ← mmap size
  some ⟨ptr, ptr + size, elementSize⟩

/-- The arguments of `munmap` in `AllocatorDeleter`. -/
def Region.unmapped (r : Region) : BitVec 64 × BitVec 64 := (r.start, r.stop - r.start)

/-! ## 2. When the region is right -/

variable {sizeofKVStore pagesize size nDistinctKeys maxValueSize : BitVec 64}

/-- **The region is sized for the keys and rounded to pages.**  It is the smallest multiple of the
page size that is not below the requested size; and the requested size is the one that was meant,
which has room for the values. -/
structure Sized (sizeofKVStore pagesize nDistinctKeys maxValueSize : BitVec 64) : Prop where
  rounded : IsLeast
    {m : ℕ | pagesize.toNat ∣ m ∧
      (hostMemory sizeofKVStore nDistinctKeys 0 maxValueSize).toNat ≤ m}
    (mappedSize pagesize (hostMemory sizeofKVStore nDistinctKeys 0 maxValueSize)).toNat
  noWrap : (hostMemory sizeofKVStore nDistinctKeys 0 maxValueSize).toNat =
    2 * (nDistinctKeys.toNat * (maxValueSize.toNat + sizeofKVStore.toNat))
  enough : nDistinctKeys.toNat * maxValueSize.toNat ≤
    (hostMemory sizeofKVStore nDistinctKeys 0 maxValueSize).toNat

/-- **The deleter unmaps what was mapped.** -/
theorem unmapped_eq {mmap : BitVec 64 → Option (BitVec 64)} {elementSize : BitVec 64} {r : Region}
    (h : createAllocator mmap pagesize size elementSize = some r) :
    mmap (mappedSize pagesize size) = some r.unmapped.1 ∧
      r.unmapped.2 = mappedSize pagesize size := by
  obtain ⟨ptr, hptr, hr⟩ := Option.bind_eq_some_iff.mp h
  rw [← Option.some.inj hr]
  exact ⟨hptr, add_sub_cancel_left _ _⟩

/-- **The rounding is right only where there is nothing to round.** -/
theorem mappedSize_isLeast_iff :
    IsLeast {m : ℕ | pagesize.toNat ∣ m ∧ size.toNat ≤ m} (mappedSize pagesize size).toNat ↔
      pagesize.toNat ∣ size.toNat := by
  have hrem : (size % pagesize).toNat = size.toNat % pagesize.toNat := BitVec.toNat_umod
  by_cases hdvd : pagesize.toNat ∣ size.toNat
  · have hzero : size % pagesize = 0 :=
      BitVec.eq_of_toNat_eq (hrem.trans (Nat.mod_eq_zero_of_dvd hdvd))
    rw [mappedSize, hzero, if_neg (not_not.mpr rfl)]
    exact iff_of_true ⟨⟨hdvd, le_refl _⟩, fun m hm => hm.2⟩ hdvd
  · refine iff_of_false ?_ hdvd
    rintro ⟨⟨hmul, hle⟩, -⟩
    have hne : size % pagesize ≠ 0 := by
      intro h0
      rw [h0] at hrem
      exact hdvd (Nat.dvd_of_mod_eq_zero hrem.symm)
    have hmod : size.toNat % pagesize.toNat ≤ size.toNat := Nat.mod_le _ _
    have hlt := size.isLt
    have hsize : (size + (size - size % pagesize)).toNat =
        (size.toNat + (size.toNat - size.toNat % pagesize.toNat)) % 2 ^ 64 := by
      rw [BitVec.toNat_add, BitVec.toNat_sub, hrem]
      omega
    rw [mappedSize, if_pos hne, hsize] at hmul hle
    by_cases hwrap : size.toNat + (size.toNat - size.toNat % pagesize.toNat) < 2 ^ 64
    · -- what is added is a multiple, so the sum is none
      rw [Nat.mod_eq_of_lt hwrap] at hmul
      exact hdvd ((Nat.dvd_add_left (Nat.dvd_sub_mod size.toNat)).mp hmul)
    · omega

theorem toNat_hostMemory (sizeofKVStore nDistinctKeys maxValueSize : BitVec 64) :
    (hostMemory sizeofKVStore nDistinctKeys 0 maxValueSize).toNat =
      2 * (nDistinctKeys.toNat * (maxValueSize.toNat + sizeofKVStore.toNat)) % 2 ^ 64 := by
  rw [hostMemory, if_pos rfl, BitVec.toNat_mul, BitVec.toNat_mul, BitVec.toNat_add,
    Nat.mul_mod_mod, Nat.mod_mul_mod, Nat.mul_comm 2]
  rfl

/-- **When the region is sized for the keys and rounded to pages**: the size that was meant is below
`2 ^ 64`, and it is a multiple of the page size to begin with. -/
theorem sized_iff :
    Sized sizeofKVStore pagesize nDistinctKeys maxValueSize ↔
      2 * (nDistinctKeys.toNat * (maxValueSize.toNat + sizeofKVStore.toNat)) < 2 ^ 64 ∧
        pagesize.toNat ∣
          2 * (nDistinctKeys.toNat * (maxValueSize.toNat + sizeofKVStore.toNat)) := by
  constructor
  · intro h
    have hdvd := mappedSize_isLeast_iff.mp h.rounded
    refine ⟨?_, h.noWrap ▸ hdvd⟩
    rw [← h.noWrap]
    exact (hostMemory _ _ _ _).isLt
  · rintro ⟨hlt, hdvd⟩
    have hexact : (hostMemory sizeofKVStore nDistinctKeys 0 maxValueSize).toNat =
        2 * (nDistinctKeys.toNat * (maxValueSize.toNat + sizeofKVStore.toNat)) :=
      (toNat_hostMemory _ _ _).trans (Nat.mod_eq_of_lt hlt)
    refine ⟨mappedSize_isLeast_iff.mpr (hexact ▸ hdvd), hexact, ?_⟩
    have hle : nDistinctKeys.toNat * maxValueSize.toNat ≤
        nDistinctKeys.toNat * (maxValueSize.toNat + sizeofKVStore.toNat) :=
      Nat.mul_le_mul_left _ (Nat.le_add_right _ _)
    omega

/-- **Rounded the wrong way**: 1000 keys of 64 bytes, with a `KV_store` of 64, ask for 256000 bytes,
for which 63 pages would do; what is mapped is 509952 bytes, which is no number of pages. -/
theorem not_sized_thousand :
    mappedSize 4096 (hostMemory 64 1000 0 64) = 509952 ∧ ¬ 4096 ∣ 509952 ∧
      ¬ Sized 64 4096 1000 64 := by
  refine ⟨by decide, by decide, fun h => ?_⟩
  exact absurd h.rounded.1.1 (by decide)

end Avocado.HostMemory
