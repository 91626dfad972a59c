/-
# An allocator

What an allocator has handed out (`live`) and taken back (`freed`, in order).  Buffers have numbers,
and a new one has a number that was never used, so a number stands for one allocation.

`free` of a buffer that is not live has no result, which is a double free, and so has `use`.  A pool
carries the rest in its fields: a buffer that was freed is not live, and was freed once
(`count_freed`).
-/
import Mathlib.Data.Finset.Card
import Mathlib.Data.Finset.Image

/-- An allocator. -/
@[ext] structure Pool where
  next : Nat
  live : Finset Nat
  freed : List Nat
  live_lt : ∀ b ∈ live, b < next
  freed_lt : ∀ b ∈ freed, b < next
  dead : ∀ b ∈ freed, b ∉ live
  nodup : freed.Nodup

namespace Pool

/-! ## 1. The calls -/

/-- An allocator that was not used yet. -/
def new : Pool where
  next := 0
  live := ∅
  freed := []
  live_lt := fun _ hb => absurd hb (Finset.notMem_empty _)
  freed_lt := fun _ hb => absurd hb List.not_mem_nil
  dead := fun _ hb => absurd hb List.not_mem_nil
  nodup := List.nodup_nil

/-- A new buffer. -/
def alloc (p : Pool) : Nat × Pool :=
  (p.next,
    { next := p.next + 1
      live := insert p.next p.live
      freed := p.freed
      live_lt := by
        intro b hb
        rcases Finset.mem_insert.mp hb with rfl | hb
        · omega
        · exact Nat.lt_succ_of_lt (p.live_lt b hb)
      freed_lt := fun b hb => Nat.lt_succ_of_lt (p.freed_lt b hb)
      dead := by
        intro b hb hlive
        rcases Finset.mem_insert.mp hlive with rfl | hlive
        · exact absurd (p.freed_lt _ hb) (by omega)
        · exact p.dead b hb hlive
      nodup := p.nodup })

/-- Giving a buffer back. -/
def free (p : Pool) (b : Nat) : Option Pool :=
  if h : b ∈ p.live then
    some
      { next := p.next
        live := p.live.erase b
        freed := p.freed ++ [b]
        live_lt := fun a ha => p.live_lt a (Finset.mem_of_mem_erase ha)
        freed_lt := by
          intro a ha
          rcases List.mem_append.mp ha with ha | ha
          · exact p.freed_lt a ha
          · exact List.mem_singleton.mp ha ▸ p.live_lt b h
        dead := by
          intro a ha hlive
          rcases List.mem_append.mp ha with ha | ha
          · exact p.dead a ha (Finset.mem_of_mem_erase hlive)
          · exact Finset.ne_of_mem_erase hlive (List.mem_singleton.mp ha)
        nodup := by
          refine List.nodup_append.mpr ⟨p.nodup, List.nodup_singleton b, ?_⟩
          intro a ha a' ha' heq
          rw [heq, List.mem_singleton.mp ha'] at ha
          exact p.dead b ha h }
  else none

/-- Giving back one buffer after the other. -/
def freeAll (p : Pool) : List Nat → Option Pool
  | [] => some p
  | b :: bs => do (← p.free b).freeAll bs

/-- Reading or writing buffers. -/
def use (p : Pool) (bs : List Nat) : Option Unit := if ∀ b ∈ bs, b ∈ p.live then some () else none

variable {p p' : Pool} {b : Nat} {bs : List Nat}

/-! ## 2. What they do -/

@[simp] theorem alloc_fst (p : Pool) : p.alloc.1 = p.next := rfl

@[simp] theorem alloc_next (p : Pool) : p.alloc.2.next = p.next + 1 := rfl

@[simp] theorem alloc_freed (p : Pool) : p.alloc.2.freed = p.freed := rfl

@[simp] theorem mem_alloc_live : b ∈ p.alloc.2.live ↔ b = p.next ∨ b ∈ p.live :=
  Finset.mem_insert

theorem use_eq (h : ∀ b ∈ bs, b ∈ p.live) : p.use bs = some () := if_pos h

/-- **A live buffer can be freed**, and nothing else changes. -/
theorem exists_free (h : b ∈ p.live) :
    ∃ p', p.free b = some p' ∧ p'.next = p.next ∧ p'.live = p.live.erase b ∧
      p'.freed = p.freed ++ [b] :=
  ⟨_, dif_pos h, rfl, rfl, rfl⟩

theorem free_spec (h : p.free b = some p') :
    p'.next = p.next ∧ p'.live = p.live.erase b ∧ p'.freed = p.freed ++ [b] := by
  simp only [free] at h
  split at h
  · rw [← Option.some.inj h]
    exact ⟨rfl, rfl, rfl⟩
  · exact absurd h (by simp)

/-- **Live buffers can be freed one after the other**, each once. -/
theorem exists_freeAll (hlive : ∀ b ∈ bs, b ∈ p.live) (hnd : bs.Nodup) :
    ∃ p', p.freeAll bs = some p' ∧ p'.next = p.next ∧ p'.live = p.live \ bs.toFinset ∧
      p'.freed = p.freed ++ bs := by
  induction bs generalizing p with
  | nil => exact ⟨p, rfl, rfl, by simp, by simp⟩
  | cons b bs ih =>
    obtain ⟨hb, hnd⟩ := List.nodup_cons.mp hnd
    obtain ⟨p₁, hfree, hnext₁, hlive₁, hfreed₁⟩ := exists_free (hlive b List.mem_cons_self)
    obtain ⟨p₂, hall, hnext₂, hlive₂, hfreed₂⟩ := ih (p := p₁) (by
      intro a ha
      rw [hlive₁]
      refine Finset.mem_erase.mpr ⟨?_, hlive a (List.mem_cons_of_mem b ha)⟩
      rintro rfl
      exact hb ha) hnd
    refine ⟨p₂, ?_, hnext₂.trans hnext₁, ?_, ?_⟩
    · simp only [freeAll, hfree, Option.bind_eq_bind, Option.bind_some, hall]
    · rw [hlive₂, hlive₁, List.toFinset_cons, Finset.erase_sdiff_comm, ← Finset.sdiff_insert]
    · rw [hfreed₂, hfreed₁, List.append_assoc, List.singleton_append]

/-- **No buffer is freed twice.** -/
theorem count_freed (h : b ∈ p.freed) : p.freed.count b = 1 := List.count_eq_one_of_mem p.nodup h

end Pool
