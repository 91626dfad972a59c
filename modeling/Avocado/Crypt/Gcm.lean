/-
# AES-128-GCM as the EVP calls give it

The cipher itself is not part of the repository: `Gcm` has its calls for one key, and `Lawful` is
what a caller may rely on.  Decryption is two calls.  `EVP_CipherUpdate` writes the text before
anything is known about the tag, and `EVP_CipherFinal_ex` says whether the tag was right; a caller
that ignores the second one has the text all the same.

The lengths are `size_t` where the repository keeps them and `int` where EVP takes them
(`evpLen`).
-/
import Avocado.Lib.Bytes
import Mathlib.Data.List.Basic

namespace Avocado

/-! ## 1. The calls -/

/-- `CipherSsl::IvSize`. -/
def ivSize : Nat := 12

/-- `CipherSsl::MacSize`. -/
def macSize : Nat := 16

/-- The calls under one key: `encrypt` gives the cipher text and the tag. -/
structure Gcm where
  encrypt : (iv text : List UInt8) → List UInt8 × List UInt8
  decryptUpdate : (iv text : List UInt8) → List UInt8
  decryptFinal : (iv text tag : List UInt8) → Bool

namespace Gcm

/-- Decryption with the same key, IV and tag inverts encryption; a text and its cipher text have
the same length, and a tag has `MacSize` bytes. -/
structure Lawful (gcm : Gcm) : Prop where
  length_encrypt : ∀ iv text, (gcm.encrypt iv text).1.length = text.length
  length_tag : ∀ iv text, (gcm.encrypt iv text).2.length = macSize
  length_update : ∀ iv text, (gcm.decryptUpdate iv text).length = text.length
  update_encrypt : ∀ iv text, gcm.decryptUpdate iv (gcm.encrypt iv text).1 = text
  final_encrypt : ∀ iv text,
    gcm.decryptFinal iv (gcm.encrypt iv text).1 (gcm.encrypt iv text).2 = true

/-- The text comes byte by byte: the first `n` bytes of a cipher text give the first `n` bytes of
the text. -/
def Streams (gcm : Gcm) : Prop :=
  ∀ iv text n, gcm.decryptUpdate iv (text.take n) = (gcm.decryptUpdate iv text).take n

end Gcm

/-- A `size_t` as the `int inl` of `EVP_CipherUpdate`: the low 32 bits, as a signed number.  The
call fails when that is negative. -/
def evpLen (size : Nat) : Option Nat :=
  if size % 2 ^ 32 < 2 ^ 31 then some (size % 2 ^ 32) else none

theorem evpLen_of_lt {size : Nat} (h : size < 2 ^ 31) : evpLen size = some size := by
  have hmod : size % 2 ^ 32 = size := Nat.mod_eq_of_lt (by omega)
  rw [evpLen, hmod, if_pos h]

/-- A length that the call takes is below 2 ^ 31, so from there on it is not the one given. -/
theorem evpLen_eq_some {size inl : Nat} (h : evpLen size = some inl) :
    inl < 2 ^ 31 ∧ inl ≤ size := by
  unfold evpLen at h
  split at h
  · injection h with h
    omega
  · exact absurd h (by simp)

/-! ## 2. Counter mode -/

/-- The text from its `i`-th byte on, with the key stream added. -/
def mask (stream : Nat → UInt8) : Nat → List UInt8 → List UInt8
  | _, [] => []
  | i, b :: bs => (b ^^^ stream i) :: mask stream (i + 1) bs

theorem length_mask (stream : Nat → UInt8) :
    ∀ (i : Nat) (bs : List UInt8), (mask stream i bs).length = bs.length
  | _, [] => rfl
  | i, b :: bs => by rw [mask, List.length_cons, List.length_cons, length_mask stream (i + 1) bs]

theorem mask_mask (stream : Nat → UInt8) :
    ∀ (i : Nat) (bs : List UInt8), mask stream i (mask stream i bs) = bs
  | _, [] => rfl
  | i, b :: bs => by
    rw [mask, mask, mask_mask stream (i + 1) bs, UInt8.xor_assoc, UInt8.xor_self, UInt8.xor_zero]

theorem mask_take (stream : Nat → UInt8) :
    ∀ (i n : Nat) (bs : List UInt8), mask stream i (bs.take n) = (mask stream i bs).take n
  | _, 0, _ => by rw [List.take_zero, List.take_zero, mask]
  | _, n + 1, [] => rfl
  | i, n + 1, b :: bs => by
    rw [List.take_succ_cons, mask, mask, List.take_succ_cons, mask_take stream (i + 1) n bs]

/-- A counter-mode cipher with a tag on the text, as GCM is one. -/
def Gcm.counterMode (stream : List UInt8 → Nat → UInt8)
    (tag : (iv text : List UInt8) → List UInt8) : Gcm where
  encrypt iv text := (mask (stream iv) 0 text, tag iv text)
  decryptUpdate iv text := mask (stream iv) 0 text
  decryptFinal iv text t := tag iv (mask (stream iv) 0 text) == t

theorem Gcm.counterMode_lawful {stream : List UInt8 → Nat → UInt8}
    {tag : (iv text : List UInt8) → List UInt8} (h : ∀ iv text, (tag iv text).length = macSize) :
    (counterMode stream tag).Lawful where
  length_encrypt _ _ := length_mask _ _ _
  length_tag := h
  length_update _ _ := length_mask _ _ _
  update_encrypt _ _ := mask_mask _ _ _
  final_encrypt iv text := by
    simp only [counterMode, mask_mask, beq_self_eq_true]

theorem Gcm.counterMode_streams (stream : List UInt8 → Nat → UInt8)
    (tag : (iv text : List UInt8) → List UInt8) : (counterMode stream tag).Streams :=
  fun _ text n => mask_take _ 0 n text

end Avocado
