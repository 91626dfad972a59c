/-
# The order of the skip list (`meta_data.h`)

The nodes of the skip list are ordered by `VarKeySizeNode::operator<`: shorter keys first, keys
of one length by `memcmp`.  The skip list takes two nodes for the same when neither is less than
the other, so the store is a map from byte keys only because that happens exactly for equal keys
(`incompRel_iff`).

`rank` carries the proof: `operator<` compares the pairs of a length and a list of byte values,
lexicographically, and Mathlib has that order's laws.
-/
import Avocado.Lib.AtomicSet
import Mathlib.Data.Prod.Lex
import Mathlib.Data.List.Lex

namespace Avocado

/-- `memcmp`: the difference of the first bytes that differ. -/
def memcmp : List UInt8 → List UInt8 → Nat → Int
  | a :: as, b :: bs, n + 1 => if a = b then memcmp as bs n else a.toNat - b.toNat
  | _, _, _ => 0

/-- `VarKeySizeNode::operator<`, which reads the keys only; `key_size` is the key's length. -/
def keyLt (key other : List UInt8) : Bool :=
  if key.length < other.length then true
  else if key.length > other.length then false
  else memcmp key other key.length < 0

theorem memcmp_neg_iff {a b : List UInt8} (h : a.length = b.length) :
    memcmp a b a.length < 0 ↔ a.map UInt8.toNat < b.map UInt8.toNat := by
  induction a generalizing b with
  | nil =>
    rw [List.length_nil, eq_comm, List.length_eq_zero_iff] at h
    subst h
    simp [memcmp]
  | cons x a ih =>
    cases b with
    | nil => exact absurd h (by simp)
    | cons y b =>
      rw [List.length_cons, List.length_cons, Nat.add_right_cancel_iff] at h
      rw [List.length_cons, memcmp, List.map_cons, List.map_cons, List.cons_lt_cons_iff]
      by_cases hxy : x = y
      · subst hxy
        rw [if_pos rfl, ih h]
        simp
      · have hne : x.toNat ≠ y.toNat := fun he => hxy (UInt8.toNat.inj he)
        rw [if_neg hxy]
        constructor
        · intro hlt
          exact Or.inl (by omega)
        · rintro (hlt | ⟨he, -⟩)
          · omega
          · exact absurd he hne

/-- What `operator<` compares. -/
def rank (key : List UInt8) : ℕ ×ₗ List ℕ := toLex (key.length, key.map UInt8.toNat)

theorem rank_injective : Function.Injective rank := by
  intro a b h
  have hmap : a.map UInt8.toNat = b.map UInt8.toNat := (Prod.mk.inj (toLex.injective h)).2
  exact List.map_injective_iff.mpr (fun _ _ he => UInt8.toNat.inj he) hmap

theorem keyLt_iff {a b : List UInt8} : keyLt a b = true ↔ rank a < rank b := by
  rw [rank, rank, Prod.Lex.toLex_lt_toLex]
  unfold keyLt
  by_cases hlt : a.length < b.length
  · simp [hlt]
  · by_cases hgt : a.length > b.length
    · simp [hlt, hgt]
      omega
    · have he : a.length = b.length := by omega
      rw [if_neg hlt, if_neg hgt, decide_eq_true_iff, memcmp_neg_iff he]
      simp [he]

/-- **`operator<` is a strict total order on byte keys.** -/
theorem keyLt_isStrictTotalOrder : IsStrictTotalOrder (List UInt8) (keyLt · ·) where
  trichotomous := by
    intro a b hab hba
    rw [keyLt_iff] at hab hba
    exact rank_injective (le_antisymm (not_lt.mp hba) (not_lt.mp hab))
  irrefl := by
    intro a ha
    rw [keyLt_iff] at ha
    exact lt_irrefl _ ha
  trans := by
    intro a b c hab hbc
    rw [keyLt_iff] at hab hbc ⊢
    exact lt_trans hab hbc

/-- A node of the skip list, `struct VarKeySizeNode`.  `cell` is where its atomic `meta` is. -/
structure VarKeySizeNode where
  key : List UInt8
  cell : Nat
  deriving DecidableEq, Repr

namespace VarKeySizeNode

/-- `operator<` on nodes. -/
def lt (node other : VarKeySizeNode) : Prop := keyLt node.key other.key = true

instance : DecidableRel lt := fun a b => inferInstanceAs (Decidable (keyLt a.key b.key = true))

instance : IsStrictWeakOrder VarKeySizeNode lt where
  irrefl := by
    intro a
    exact keyLt_isStrictTotalOrder.irrefl a.key
  trans := by
    intro a b c
    exact keyLt_isStrictTotalOrder.trans a.key b.key c.key
  incomp_trans := by
    rintro a b c ⟨hab, hba⟩ ⟨hbc, hcb⟩
    have h1 : a.key = b.key := keyLt_isStrictTotalOrder.trichotomous a.key b.key hab hba
    have h2 : b.key = c.key := keyLt_isStrictTotalOrder.trichotomous b.key c.key hbc hcb
    have hirr := keyLt_isStrictTotalOrder.irrefl c.key
    exact ⟨fun h => hirr (by rw [lt, h1, h2] at h; exact h),
      fun h => hirr (by rw [lt, h1, h2] at h; exact h)⟩

/-- **The skip list identifies exactly the nodes with equal keys.** -/
theorem incompRel_iff {node other : VarKeySizeNode} :
    IncompRel lt node other ↔ node.key = other.key := by
  constructor
  · rintro ⟨h1, h2⟩
    exact keyLt_isStrictTotalOrder.trichotomous _ _ h1 h2
  · intro h
    have hirr := keyLt_isStrictTotalOrder.irrefl other.key
    exact ⟨fun hlt => hirr (by rw [lt, h] at hlt; exact hlt),
      fun hlt => hirr (by rw [lt, h] at hlt; exact hlt)⟩

end VarKeySizeNode

end Avocado
