/-
# The zipfian trace (`generate_traces.cpp`)

The benchmark draws its keys by inversion: `sum_probs` is the table of the cumulative
probabilities, a random number `z` is drawn from the interval from zero to one, and a binary search
looks for the entry where the table passes it.

The search runs over the indices from 1 to `n_keys`, and the table is filled up to `n_keys - 1`
only; the last entry stays zero.  The search does not mind: a probe of the last entry needs a window
that starts there, and the entry in front of it is one (`Window.Inv`).  What it misses are the two
cases without such an entry.  No entry is negative, so nothing is found for `z = 0`; and with a
single key the table is zero throughout.  Then the loop ends and `zip_value` was never assigned.  So
a whole trace is drawn exactly if `rand` is never zero where a key is drawn (`manufacture_iff`).

All numbers are exact here, and `pow` takes a natural exponent.
-/
import Avocado.Lib.Loop
import Mathlib.Algebra.Order.Field.Rat
import Mathlib.Algebra.Order.Field.Basic
import Mathlib.Tactic.Linarith
import Mathlib.Tactic.Positivity

namespace Avocado.Zipf

/-! ## 1. The table -/

/-- `sum_probs[i] = p`. -/
def write (sumProbs : List ℚ) (i : ℕ) (p : ℚ) : Option (List ℚ) :=
  if i < sumProbs.length then some (sumProbs.set i p) else none

/-- The loop that sums up the weights. -/
def total (alpha : ℕ) (nKeys : ℕ) : ℚ :=
  (List.range' 1 (nKeys - 1)).foldl (fun c (i : ℕ) => c + 1 / (i : ℚ) ^ alpha) 0

/-- The loop that fills the table. -/
def fill (alpha : ℕ) (c : ℚ) (nKeys : ℕ) (sumProbs : List ℚ) : Option (List ℚ) :=
  (List.range' 1 (nKeys - 1)).foldlM (fun (s : List ℚ) (i : ℕ) => do
    let p ← s[i - 1]?
    write s i (p + c / (i : ℚ) ^ alpha)) sumProbs

/-- `sum_probs`: `(n_keys + 1) * sizeof(size_t)` bytes of zeros, filled. -/
def sumProbs (alpha : ℕ) (nKeys : BitVec 64) : Option (List ℚ) := do
  let s := List.replicate (((nKeys + 1) * 8).toNat / 8) 0
  let c := 1 / total alpha nKeys.toNat
  let s ← write s 0 0
  fill alpha c nKeys.toNat s

/-! ## 2. The search -/

/-- `low` and `high`. -/
structure Window where
  low : BitVec 64
  high : BitVec 64
  deriving DecidableEq, Repr

/-- How the search ends: with a read outside the table, with `zip_value` unassigned, or with its
value. -/
inductive Outcome
  | outOfBounds
  | unassigned
  | assigned (zipValue : BitVec 64)
  deriving DecidableEq, Repr

/-- `while (low <= high)`. -/
def again (low high : BitVec 64) : Window ⊕ Outcome :=
  if low ≤ high then .inl ⟨low, high⟩ else .inr .unassigned

/-- One pass of the loop. -/
def pass (sumProbs : List ℚ) (z : ℚ) (w : Window) : Window ⊕ Outcome :=
  let mid := (w.low + w.high) / 2
  match sumProbs[mid.toNat]? with
  | none => .inr .outOfBounds
  | some p =>
    if p ≥ z then
      match sumProbs[(mid - 1).toNat]? with
      | none => .inr .outOfBounds
      | some q => if q < z then .inr (.assigned mid) else again w.low (mid - 1)
    else again (mid + 1) w.high

/-! ## 3. What the table holds -/

/-- The first `k` weights together. -/
def weights (alpha : ℕ) : ℕ → ℚ
  | 0 => 0
  | k + 1 => weights alpha k + 1 / ((k + 1 : ℕ) : ℚ) ^ alpha

/-- The table with the entries up to `m` filled. -/
def filled (alpha : ℕ) (c : ℚ) (len m : ℕ) : List ℚ :=
  (List.range len).map fun k => if k ≤ m then c * weights alpha k else 0

variable {alpha n m len : ℕ} {c : ℚ} {s s' : List ℚ}

theorem weights_lt_succ (alpha k : ℕ) : weights alpha k < weights alpha (k + 1) := by
  have hpos : 0 < 1 / ((k + 1 : ℕ) : ℚ) ^ alpha := by positivity
  rw [weights]
  linarith

theorem weights_mono (alpha : ℕ) : Monotone (weights alpha) :=
  monotone_nat_of_le_succ fun k => (weights_lt_succ alpha k).le

theorem weights_pos {k : ℕ} (h : 0 < k) : 0 < weights alpha k :=
  (weights_lt_succ alpha 0).trans_le (weights_mono alpha h)

theorem total_eq (alpha n : ℕ) : total alpha n = weights alpha (n - 1) := by
  unfold total
  induction n - 1 with
  | zero => rfl
  | succ m ih =>
    rw [List.range'_1_concat, List.foldl_append, ih, List.foldl_cons, List.foldl_nil, weights,
      Nat.add_comm 1 m]

theorem length_write {i : ℕ} {p : ℚ} (h : write s i p = some s') : s'.length = s.length := by
  unfold write at h
  split at h
  · rw [← Option.some.inj h, List.length_set]
  · exact absurd h (by simp)

theorem getElem?_filled (alpha : ℕ) (c : ℚ) (m : ℕ) {k : ℕ} (h : k < len) :
    (filled alpha c len m)[k]? = some (if k ≤ m then c * weights alpha k else 0) := by
  rw [filled, List.getElem?_map, List.getElem?_range h, Option.map_some]

theorem filled_zero (alpha : ℕ) (c : ℚ) (len : ℕ) :
    filled alpha c len 0 = List.replicate len 0 := by
  refine List.eq_replicate_iff.mpr ⟨by simp [filled], ?_⟩
  intro p hp
  obtain ⟨k, -, rfl⟩ := List.mem_map.mp hp
  split
  · rename_i hk
    rw [Nat.le_zero.mp hk, weights, mul_zero]
  · rfl

theorem set_filled (alpha : ℕ) (c : ℚ) (len m : ℕ) :
    (filled alpha c len m).set (m + 1) (c * weights alpha (m + 1)) =
      filled alpha c len (m + 1) := by
  refine List.ext_getElem? fun k => ?_
  rw [List.getElem?_set]
  by_cases hk : k < len
  · rw [getElem?_filled alpha c (m + 1) hk, getElem?_filled alpha c m hk]
    by_cases hkm : m + 1 = k
    · subst hkm
      rw [if_pos rfl, if_pos (by simpa [filled] using hk), if_pos (Nat.le_refl _)]
    · rw [if_neg hkm]
      congr 2
      exact propext ⟨fun h => by omega, fun h => by omega⟩
  · have hnone : ∀ m, (filled alpha c len m)[k]? = none := by
      intro m
      exact List.getElem?_eq_none (by simp [filled]; omega)
    rw [hnone, hnone]
    split
    · rw [if_neg (by simp [filled]; omega)]
    · rfl

/-- The loop fills one entry after the other. -/
theorem fill_eq (alpha : ℕ) (c : ℚ) (h : n - 1 < len) :
    fill alpha c n (filled alpha c len 0) = some (filled alpha c len (n - 1)) := by
  unfold fill
  generalize n - 1 = m at h
  induction m with
  | zero => rfl
  | succ m ih =>
    have hprev : (filled alpha c len m)[1 + m - 1]? = some (c * weights alpha m) := by
      rw [Nat.add_sub_cancel_left, getElem?_filled alpha c m (by omega), if_pos (Nat.le_refl m)]
    have hnext : c * weights alpha m + c / ((m + 1 : ℕ) : ℚ) ^ alpha =
        c * weights alpha (m + 1) := by
      rw [weights, mul_add, mul_one_div]
    have hlen : m + 1 < (filled alpha c len m).length := by simpa [filled] using h
    rw [List.range'_1_concat, List.foldlM_append, ih (by omega)]
    simp only [Option.bind_eq_bind, Option.bind_some, List.foldlM_cons, List.foldlM_nil, hprev,
      write]
    rw [Nat.add_comm 1 m, if_pos hlen, hnext, set_filled]
    rfl

theorem length_fill (h : fill alpha c n s = some s') : s'.length = s.length := by
  unfold fill at h
  generalize List.range' 1 (n - 1) = is at h
  induction is generalizing s with
  | nil =>
    rw [List.foldlM_nil] at h
    rw [Option.some.inj h]
  | cons i is ih =>
    simp only [List.foldlM_cons, Option.bind_eq_bind, Option.bind_eq_some_iff] at h
    obtain ⟨t, ⟨p, -, ht⟩, h⟩ := h
    rw [ih h, length_write ht]

theorem entries_eq (nKeys : BitVec 64) :
    ((nKeys + 1) * 8).toNat / 8 = (nKeys.toNat + 1) % 2 ^ 61 := by
  have h : ((nKeys + 1) * 8).toNat = (nKeys.toNat + 1) % 2 ^ 64 * 8 % 2 ^ 64 := by
    rw [BitVec.toNat_mul, BitVec.toNat_add]
    rfl
  omega

theorem write_zero (h : 0 < len) :
    write (List.replicate len 0) 0 0 = some (List.replicate len 0) := by
  rw [write, List.length_replicate, if_pos h]
  cases len with
  | zero => rfl
  | succ len => rfl

/-- **The table**, where the entries that were asked for fit the memory. -/
theorem sumProbs_eq {nKeys : BitVec 64} (h : nKeys.toNat + 1 < 2 ^ 61) :
    sumProbs alpha nKeys = some (filled alpha (1 / weights alpha (nKeys.toNat - 1))
      (nKeys.toNat + 1) (nKeys.toNat - 1)) := by
  simp only [sumProbs, entries_eq, Nat.mod_eq_of_lt h, write_zero (Nat.succ_pos _), total_eq,
    Option.bind_eq_bind, Option.bind_some]
  rw [← filled_zero alpha (1 / weights alpha (nKeys.toNat - 1))]
  exact fill_eq alpha _ (by omega)

theorem length_sumProbs {nKeys : BitVec 64} (h : sumProbs alpha nKeys = some s) :
    s.length = (nKeys.toNat + 1) % 2 ^ 61 := by
  simp only [sumProbs, entries_eq, Option.bind_eq_bind, Option.bind_eq_some_iff] at h
  obtain ⟨t, ht, h⟩ := h
  rw [length_fill h, length_write ht, List.length_replicate]

/-! ## 4. What the search finds -/

/-- `i` is the index where the table passes `z`. -/
def Passes (sumProbs : List ℚ) (z : ℚ) (i : ℕ) : Prop :=
  ∃ q p, sumProbs[i - 1]? = some q ∧ sumProbs[i]? = some p ∧ q < z ∧ z ≤ p

/-- **The sampler draws a key**: the `n_keys + 1` entries are there, the loop ends without leaving
them, and `zip_value` is the only index where the table passes `z`; for zero it is the first one. -/
def Draws (alpha : ℕ) (nKeys : BitVec 64) (z : ℚ) : Prop :=
  ∃ s i, sumProbs alpha nKeys = some s ∧ s.length = nKeys.toNat + 1 ∧
    Loop.Returns (pass s z) ⟨1, nKeys⟩ (.assigned i) ∧
    if z = 0 then i = 1 else
      ∀ j, (1 ≤ j ∧ j ≤ nKeys.toNat ∧ Passes s z j) ↔ j = i.toNat

variable {z : ℚ}

theorem again_cases (low high : BitVec 64) :
    (low ≤ high ∧ again low high = .inl ⟨low, high⟩) ∨ again low high = .inr .unassigned := by
  unfold again
  by_cases h : low ≤ high
  · exact Or.inl ⟨h, if_pos h⟩
  · exact Or.inr (if_neg h)

/-- What the loop assigns is such an index, whatever the table. -/
theorem passes_of_returns {w : Window} {i : BitVec 64}
    (h : Loop.Returns (pass s z) w (.assigned i)) :
    ∃ q p, s[(i - 1).toNat]? = some q ∧ s[i.toNat]? = some p ∧ q < z ∧ z ≤ p := by
  refine h.invariant (I := fun _ => True) (Q := fun o => ∀ i, o = .assigned i → ∃ q p,
    s[(i - 1).toNat]? = some q ∧ s[i.toNat]? = some p ∧ q < z ∧ z ≤ p) trivial
    (fun _ _ _ _ => trivial) ?_ i rfl
  rintro w o - ho i rfl
  have hagain : ∀ low high, again low high ≠ .inr (.assigned i) := by
    intro low high
    rcases again_cases low high with ⟨-, ha⟩ | ha
    · simp [ha]
    · simp [ha]
  simp only [pass] at ho
  split at ho
  · exact absurd ho (by simp)
  · rename_i p hp
    split at ho
    · rename_i hz
      split at ho
      · exact absurd ho (by simp)
      · rename_i q hq
        split at ho
        · rename_i hlt
          obtain rfl : (w.low + w.high) / 2 = i := by simpa using ho
          exact ⟨q, p, hq, hp, hlt, hz⟩
        · exact absurd ho (hagain _ _)
    · exact absurd ho (hagain _ _)

section Search

variable {F : ℕ → ℚ} {nKeys : BitVec 64}

/-- The window holds the index.  Its lower end is an index with an entry of its own; its upper end
may be the last index, which has none. -/
structure Window.Inv (F : ℕ → ℚ) (nKeys : BitVec 64) (z : ℚ) (w : Window) : Prop where
  pos : 0 < w.low.toNat
  low_lt : w.low.toNat < nKeys.toNat
  low_le : w.low.toNat ≤ w.high.toNat
  high_le : w.high.toNat ≤ nKeys.toNat
  below : F (w.low.toNat - 1) < z
  above : w.high.toNat < nKeys.toNat → z ≤ F w.high.toNat

theorem toNat_mid {low high : BitVec 64} (h : low.toNat + high.toNat < 2 ^ 64) :
    ((low + high) / 2).toNat = (low.toNat + high.toNat) / 2 := by
  rw [BitVec.toNat_udiv, BitVec.toNat_add_of_lt h]
  rfl

/-- A pass that reads inside the table. -/
theorem pass_eq {w : Window} {mid : BitVec 64} {p q : ℚ} (hmid : (w.low + w.high) / 2 = mid)
    (hp : s[mid.toNat]? = some p) (hq : s[(mid - 1).toNat]? = some q) :
    pass s z w = if p ≥ z then if q < z then .inr (.assigned mid) else again w.low (mid - 1)
      else again (mid + 1) w.high := by
  subst hmid
  simp only [pass, hp, hq]

theorem again_of_le {low high : BitVec 64} (h : low.toNat ≤ high.toNat) :
    again low high = .inl ⟨low, high⟩ := if_pos h

/-- The lower half: the table has passed `z` in front of the middle, and not in front of the
window. -/
theorem Window.Inv.left {w : Window} {mid : BitVec 64} (hI : w.Inv F nKeys z) (hmono : Monotone F)
    (hmid : mid.toNat = (w.low.toNat + w.high.toNat) / 2) (hz : z ≤ F (mid.toNat - 1)) :
    Window.Inv F nKeys z ⟨w.low, mid - 1⟩ ∧
      (mid - 1).toNat - w.low.toNat < w.high.toNat - w.low.toNat := by
  have hpos := hI.pos
  have hle := hI.low_le
  have hhigh := hI.high_le
  have hpred : (mid - 1).toNat = mid.toNat - 1 :=
    BitVec.toNat_sub_of_le (show 1 ≤ mid.toNat by omega)
  have hlow : w.low.toNat ≤ mid.toNat - 1 := by
    by_contra hgt
    have hF : F (mid.toNat - 1) ≤ F (w.low.toNat - 1) := hmono (by omega)
    exact absurd (hz.trans hF) (not_le.mpr hI.below)
  refine ⟨⟨hpos, hI.low_lt, ?_, ?_, hI.below, fun _ => ?_⟩, by omega⟩
  · exact hpred ▸ hlow
  · simp only [hpred]
    omega
  · exact hpred ▸ hz

/-- The upper half: the entry in front of the last one is one, so the middle is in front of it. -/
theorem Window.Inv.right {w : Window} {mid : BitVec 64} (hI : w.Inv F nKeys z) (hmono : Monotone F)
    (htop : z ≤ F (nKeys.toNat - 1)) (hmid : mid.toNat = (w.low.toNat + w.high.toNat) / 2)
    (hz : F mid.toNat < z) :
    Window.Inv F nKeys z ⟨mid + 1, w.high⟩ ∧
      w.high.toNat - (mid + 1).toNat < w.high.toNat - w.low.toNat := by
  have hlow := hI.low_lt
  have hle := hI.low_le
  have hhigh := hI.high_le
  have hsize := nKeys.isLt
  have hsucc : (mid + 1).toNat = mid.toNat + 1 :=
    BitVec.toNat_add_of_lt (show mid.toNat + 1 < 2 ^ 64 by omega)
  have hlt : mid.toNat < nKeys.toNat - 1 := by
    by_contra hge
    rw [show mid.toNat = nKeys.toNat - 1 by omega] at hz
    exact absurd htop (not_le.mpr hz)
  have hup : mid.toNat + 1 ≤ w.high.toNat := by
    by_contra hgt
    have hF : F w.high.toNat ≤ F mid.toNat := hmono (by omega)
    exact absurd ((hI.above (by omega)).trans hF) (not_le.mpr hz)
  refine ⟨⟨?_, ?_, ?_, hhigh, ?_, hI.above⟩, by omega⟩
  · simp only [hsucc]
    omega
  · simp only [hsucc]
    omega
  · exact hsucc ▸ hup
  · rw [hsucc, Nat.add_sub_cancel]
    exact hz

/-- **A pass of the search** finds the index, or goes on with a smaller window that holds it. -/
theorem Window.Inv.pass {w : Window} (hI : w.Inv F nKeys z) (hmono : Monotone F)
    (hs : ∀ k, k < nKeys.toNat → s[k]? = some (F k)) (hN : nKeys.toNat < 2 ^ 63)
    (htop : z ≤ F (nKeys.toNat - 1)) :
    (∃ i : BitVec 64, Zipf.pass s z w = .inr (.assigned i) ∧ 0 < i.toNat ∧
        i.toNat < nKeys.toNat) ∨
      ∃ w', Zipf.pass s z w = .inl w' ∧ w'.Inv F nKeys z ∧
        w'.high.toNat - w'.low.toNat < w.high.toNat - w.low.toNat := by
  have hpos := hI.pos
  have hlow := hI.low_lt
  have hle := hI.low_le
  have hhigh := hI.high_le
  have hmid : ((w.low + w.high) / 2).toNat = (w.low.toNat + w.high.toNat) / 2 :=
    toNat_mid (by omega)
  generalize hw : (w.low + w.high) / 2 = mid at hmid
  have hpred : (mid - 1).toNat = mid.toNat - 1 :=
    BitVec.toNat_sub_of_le (show 1 ≤ mid.toNat by omega)
  have hp : s[mid.toNat]? = some (F mid.toNat) := hs _ (by omega)
  have hq : s[(mid - 1).toNat]? = some (F (mid.toNat - 1)) := by
    rw [hpred]
    exact hs _ (by omega)
  rw [pass_eq hw hp hq]
  by_cases hz : z ≤ F mid.toNat
  · rw [if_pos hz]
    by_cases hprev : F (mid.toNat - 1) < z
    · rw [if_pos hprev]
      exact Or.inl ⟨mid, rfl, by omega, by omega⟩
    · obtain ⟨hnext, hv⟩ := hI.left hmono hmid (not_lt.mp hprev)
      rw [if_neg hprev, again_of_le hnext.low_le]
      exact Or.inr ⟨_, rfl, hnext, hv⟩
  · obtain ⟨hnext, hv⟩ := hI.right hmono htop hmid (not_le.mp hz)
    rw [if_neg hz, again_of_le hnext.low_le]
    exact Or.inr ⟨_, rfl, hnext, hv⟩

/-- **The search finds the index** in a table that passes `z` in front of its last entry. -/
theorem exists_run (hmono : Monotone F) (hs : ∀ k, k < nKeys.toNat → s[k]? = some (F k))
    (hN : nKeys.toNat < 2 ^ 63) (h0 : F 0 < z) (htop : z ≤ F (nKeys.toNat - 1)) :
    ∃ i, Loop.run (pass s z) nKeys.toNat ⟨1, nKeys⟩ = some (.assigned i) ∧ 0 < i.toNat ∧
      i.toNat < nKeys.toNat := by
  have hlt : 1 < nKeys.toNat := by
    by_contra hle
    rw [show nKeys.toNat - 1 = 0 by omega] at htop
    exact absurd h0 (not_lt.mpr htop)
  have hinit : Window.Inv F nKeys z ⟨1, nKeys⟩ :=
    ⟨Nat.zero_lt_one, hlt, hlt.le, le_refl _, h0, fun h => absurd h (lt_irrefl _)⟩
  have hfound : ∃ o, Loop.run (pass s z) nKeys.toNat ⟨1, nKeys⟩ = some o ∧
      ∃ i : BitVec 64, o = .assigned i ∧ 0 < i.toNat ∧ i.toNat < nKeys.toNat := by
    refine Loop.run_of_variant (fun w : Window => w.high.toNat - w.low.toNat) hinit ?_ ?_
      (show nKeys.toNat - 1 < nKeys.toNat by omega)
    · intro w w' hI hw
      rcases hI.pass hmono hs hN htop with ⟨i, hp, -⟩ | ⟨w'', hp, hI', hv⟩
      · rw [hp] at hw
        exact absurd hw (by simp)
      · rw [hp] at hw
        exact Sum.inl.inj hw ▸ ⟨hI', hv⟩
    · intro w o hI hw
      rcases hI.pass hmono hs hN htop with ⟨i, hp, hi, hi'⟩ | ⟨w'', hp, -⟩
      · rw [hp] at hw
        exact ⟨i, (Sum.inr.inj hw).symm, hi, hi'⟩
      · rw [hp] at hw
        exact absurd hw (by simp)
  obtain ⟨o, ho, i, rfl, hi⟩ := hfound
  exact ⟨i, ho, hi⟩

end Search

/-! ## 5. When a key is drawn -/

variable {nKeys : BitVec 64}

theorem entry_filled {k : ℕ} {p : ℚ} (h : (filled alpha c len m)[k]? = some p) :
    p = if k ≤ m then c * weights alpha k else 0 := by
  have hk : k < len := by simpa [filled] using (List.getElem?_eq_some_iff.mp h).1
  rw [getElem?_filled alpha c m hk] at h
  exact (Option.some.inj h).symm

theorem weights_nonneg (alpha k : ℕ) : 0 ≤ weights alpha k := weights_mono alpha (Nat.zero_le k)

/-- **The table is a distribution** of the indices below `n_keys`, with a zero behind it. -/
theorem exists_table (alpha : ℕ) (htwo : 2 ≤ nKeys.toNat) (hfit : nKeys.toNat + 1 < 2 ^ 61) :
    ∃ s F, sumProbs alpha nKeys = some s ∧ s.length = nKeys.toNat + 1 ∧ Monotone F ∧ F 0 = 0 ∧
      F (nKeys.toNat - 1) = 1 ∧ (∀ k, k < nKeys.toNat → s[k]? = some (F k)) ∧
        s[nKeys.toNat]? = some 0 := by
  have hW : 0 < weights alpha (nKeys.toNat - 1) := weights_pos (by omega)
  refine ⟨_, fun k => 1 / weights alpha (nKeys.toNat - 1) * weights alpha k, sumProbs_eq hfit,
    by simp [filled], ?_, mul_zero _, one_div_mul_cancel hW.ne', ?_, ?_⟩
  · exact fun j k h => mul_le_mul_of_nonneg_left (weights_mono alpha h) (one_div_nonneg.mpr hW.le)
  · intro k hk
    rw [getElem?_filled _ _ _ (by omega), if_pos (by omega)]
  · rw [getElem?_filled _ _ _ (by omega), if_neg (by omega)]

/-- No entry is negative, so nothing is found for zero. -/
theorem pos_of_returns {w : Window} {i : BitVec 64} (hs : sumProbs alpha nKeys = some s)
    (hfit : nKeys.toNat + 1 < 2 ^ 61) (h : Loop.Returns (pass s z) w (.assigned i)) : 0 < z := by
  rw [sumProbs_eq hfit, Option.some.injEq] at hs
  subst hs
  obtain ⟨q, -, hq, -, hlt, -⟩ := passes_of_returns h
  refine lt_of_le_of_lt ?_ hlt
  rw [entry_filled hq]
  split
  · exact mul_nonneg (one_div_nonneg.mpr (weights_nonneg alpha _)) (weights_nonneg alpha _)
  · exact le_refl _

/-- A table passes `z` once. -/
theorem passes_le {F : ℕ → ℚ} (hmono : Monotone F)
    (hs : ∀ k, k < nKeys.toNat → s[k]? = some (F k)) (hlast : s[nKeys.toNat]? = some 0)
    (hz : 0 < z) {i j : ℕ} (hi : i ≤ nKeys.toNat) (hj : j ≤ nKeys.toNat) (h : Passes s z i)
    (h' : Passes s z j) : j ≤ i := by
  obtain ⟨-, p, -, hp, -, hle⟩ := h
  obtain ⟨q, -, hq, -, hlt, -⟩ := h'
  have hi' : i < nKeys.toNat := by
    refine lt_of_le_of_ne hi ?_
    rintro rfl
    rw [hlast, Option.some.injEq] at hp
    exact absurd (hz.trans_le hle) (by simp [← hp])
  by_contra hlt'
  rw [hs i hi', Option.some.injEq] at hp
  rw [hs (j - 1) (by omega), Option.some.injEq] at hq
  have hFle : F i ≤ F (j - 1) := hmono (by omega)
  rw [← hp] at hle
  rw [← hq] at hlt
  exact absurd (hle.trans hFle) (not_le.mpr hlt)

/-- **When the sampler draws a key**: `z` is not zero, there are two keys, and the size of the table
is a `size_t`. -/
theorem draws_iff_of_le (alpha : ℕ) (h1 : z ≤ 1) :
    Draws alpha nKeys z ↔ 0 < z ∧ 2 ≤ nKeys.toNat ∧ nKeys.toNat + 1 < 2 ^ 61 := by
  constructor
  · rintro ⟨s, i, hs, hlen, hret, -⟩
    have hfit : nKeys.toNat + 1 < 2 ^ 61 := by
      rw [length_sumProbs hs] at hlen
      omega
    have hz : 0 < z := pos_of_returns hs hfit hret
    rw [sumProbs_eq hfit, Option.some.injEq] at hs
    subst hs
    obtain ⟨-, p, -, hp, -, hle⟩ := passes_of_returns hret
    -- an entry that is not zero was filled
    have hp0 : p ≠ 0 := (hz.trans_le hle).ne'
    refine ⟨hz, ?_, hfit⟩
    by_contra hsmall
    refine hp0 ((entry_filled hp).trans ?_)
    rw [show nKeys.toNat - 1 = 0 by omega]
    split
    · rename_i hi
      rw [Nat.le_zero.mp hi, weights, mul_zero]
    · rfl
  · rintro ⟨hz, htwo, hfit⟩
    obtain ⟨s, F, hs, hlen, hmono, hbot, htop, hent, hlast⟩ := exists_table alpha htwo hfit
    obtain ⟨i, hi, hpos, hlt⟩ := exists_run hmono hent (by omega) (hbot ▸ hz) (htop ▸ h1)
    have hpass : Passes s z i.toNat := by
      have hpred : (i - 1).toNat = i.toNat - 1 := BitVec.toNat_sub_of_le hpos
      have h := passes_of_returns ⟨_, hi⟩
      rwa [hpred] at h
    refine ⟨s, i, hs, hlen, ⟨_, hi⟩, ?_⟩
    rw [if_neg hz.ne']
    intro j
    constructor
    · rintro ⟨-, hj, hjpass⟩
      exact le_antisymm (passes_le hmono hent hlast hz hlt.le hj hpass hjpass)
        (passes_le hmono hent hlast hz hj hlt.le hjpass hpass)
    · rintro rfl
      exact ⟨hpos, hlt.le, hpass⟩

theorem uniform_le_one {r randMax : ℕ} (hr : r ≤ randMax) : (r : ℚ) / randMax ≤ 1 :=
  div_le_one_of_le₀ (by exact_mod_cast hr) (by positivity)

theorem uniform_pos_iff {r randMax : ℕ} (hpos : 0 < randMax) :
    0 < (r : ℚ) / randMax ↔ 0 < r := by
  have hmax : (0 : ℚ) < randMax := by exact_mod_cast hpos
  rw [div_pos_iff_of_pos_right hmax]
  exact_mod_cast Iff.rfl

/-- **When the zipfian sampler draws a key**, for the number `r` that `rand` returns. -/
theorem draws_iff {r randMax : ℕ} (hpos : 0 < randMax) (hr : r ≤ randMax) :
    Draws 1 nKeys ((r : ℚ) / randMax) ↔
      0 < r ∧ 2 ≤ nKeys.toNat ∧ nKeys.toNat + 1 < 2 ^ 61 := by
  rw [draws_iff_of_le 1 (uniform_le_one hr), uniform_pos_iff hpos]

/-- Four keys, and the middle of the interval. -/
theorem draws_iff_four :
    Draws 1 4 (((2 : ℕ) : ℚ) / (4 : ℕ)) ↔ 0 < 2 ∧ 2 ≤ (4 : BitVec 64).toNat ∧
      (4 : BitVec 64).toNat + 1 < 2 ^ 61 :=
  draws_iff (by decide) (by decide)

/-- **Zero draws nothing**: with four keys the loop ends, and `zip_value` was not assigned. -/
theorem not_draws_zero :
    sumProbs 1 4 = some [0, 6 / 11, 9 / 11, 1, 0] ∧
      Loop.Returns (pass [0, 6 / 11, 9 / 11, 1, 0] (((0 : ℕ) : ℚ) / (2147483647 : ℕ))) ⟨1, 4⟩
        .unassigned ∧
      ¬ Draws 1 4 (((0 : ℕ) : ℚ) / (2147483647 : ℕ)) := by
  have htable : sumProbs 1 4 = some [0, 6 / 11, 9 / 11, 1, 0] := by decide +kernel
  have hret : Loop.Returns (pass [0, 6 / 11, 9 / 11, 1, 0] (((0 : ℕ) : ℚ) / (2147483647 : ℕ)))
      ⟨1, 4⟩ .unassigned := ⟨2, by decide +kernel⟩
  refine ⟨htable, hret, ?_⟩
  rintro ⟨s, i, hs, -, hi, -⟩
  rw [htable, Option.some.injEq] at hs
  subst hs
  exact absurd (hret.unique hi) (by simp)

/-! ## 6. The trace -/

/-- `op` of a command. -/
inductive Op
  | put
  | get
  deriving DecidableEq, Repr

/-- `struct Trace_cmd`. -/
structure TraceCmd where
  op : Op
  keyHash : List UInt8
  deriving DecidableEq, Repr

/-- `Trace_cmd::init`, with the number that `rand` returns in it. -/
def TraceCmd.init (cityHash128 : BitVec 32 → List UInt8) (keyId : BitVec 32) (readPermille : ℤ)
    (r : ℕ) : TraceCmd where
  op := if ((r % 1000 : ℕ) : ℤ) < readPermille then .get else .put
  keyHash := (cityHash128 keyId).take 8

/-- The value of `zip_value` behind the loop. -/
def zipValue (s : List ℚ) (nKeys : BitVec 64) (z : ℚ) : Option (BitVec 64) :=
  match Loop.run (pass s z) nKeys.toNat ⟨1, nKeys⟩ with
  | some (.assigned i) => some i
  | _ => none

/-- `manufacture_trace_zipfian`.  Each command takes two numbers from `rand`, the first for the key
and the second for the operation. -/
def manufactureTraceZipfian (cityHash128 : BitVec 32 → List UInt8) (randMax : ℕ) (rand : ℕ → ℕ)
    (traceSize nKeys : BitVec 64) (readPermille : ℤ) (alpha : ℕ) : Option (List TraceCmd) := do
  let s ← sumProbs alpha nKeys
  (List.range traceSize.toNat).mapM fun i => do
    let zipValue ← zipValue s nKeys ((rand (2 * i) : ℚ) / randMax)
    some (TraceCmd.init cityHash128 (zipValue.setWidth 32) readPermille (rand (2 * i + 1)))

section Trace

variable {cityHash128 : BitVec 32 → List UInt8} {randMax : ℕ} {rand : ℕ → ℕ}
  {traceSize : BitVec 64} {readPermille : ℤ}

theorem exists_zipValue (hs : sumProbs alpha nKeys = some s) (htwo : 2 ≤ nKeys.toNat)
    (hfit : nKeys.toNat + 1 < 2 ^ 61) (h0 : 0 < z) (h1 : z ≤ 1) :
    ∃ i, zipValue s nKeys z = some i ∧ 0 < i.toNat ∧ i.toNat < nKeys.toNat := by
  obtain ⟨t, F, ht, -, hmono, hbot, htop, hent, -⟩ := exists_table alpha htwo hfit
  rw [hs, Option.some.injEq] at ht
  subst ht
  obtain ⟨i, hi, hpos, hlt⟩ := exists_run hmono hent (by omega) (hbot ▸ h0) (htop ▸ h1)
  exact ⟨i, by rw [zipValue, hi], hpos, hlt⟩

theorem pos_of_zipValue {i : BitVec 64} (hs : sumProbs alpha nKeys = some s)
    (hfit : nKeys.toNat + 1 < 2 ^ 61) (h : zipValue s nKeys z = some i) : 0 < z := by
  unfold zipValue at h
  split at h
  · rename_i j hj
    exact pos_of_returns hs hfit ⟨_, hj⟩
  · exact absurd h (by simp)

theorem exists_mapM {α β : Type*} {f : α → Option β} {P : β → Prop} {l : List α}
    (h : ∀ a ∈ l, ∃ b, f a = some b ∧ P b) :
    ∃ bs, l.mapM f = some bs ∧ bs.length = l.length ∧ ∀ b ∈ bs, P b := by
  induction l with
  | nil => exact ⟨[], rfl, rfl, fun _ hb => absurd hb List.not_mem_nil⟩
  | cons a l ih =>
    obtain ⟨b, hb, hP⟩ := h a List.mem_cons_self
    obtain ⟨bs, hbs, hlen, hPs⟩ := ih fun a ha => h a (List.mem_cons_of_mem _ ha)
    refine ⟨b :: bs, by simp [List.mapM_cons, hb, hbs], by simp [hlen], ?_⟩
    intro x hx
    rcases List.mem_cons.mp hx with rfl | hx
    · exact hP
    · exact hPs x hx

theorem isSome_of_mapM {α β : Type*} {f : α → Option β} {bs : List β} {l : List α} {a : α}
    (h : l.mapM f = some bs) (ha : a ∈ l) : ∃ b, f a = some b := by
  induction l generalizing bs with
  | nil => exact absurd ha List.not_mem_nil
  | cons x l ih =>
    simp only [List.mapM_cons, Option.bind_eq_bind, Option.bind_eq_some_iff] at h
    obtain ⟨b, hb, cs, hcs, -⟩ := h
    rcases List.mem_cons.mp ha with rfl | ha
    · exact ⟨b, hb⟩
    · exact ih hcs ha

/-- **The trace is drawn** if `rand` is not zero where a key is drawn, and then every command has
one of the keys below `n_keys`. -/
theorem manufacture_iff (hpos : 0 < randMax) (hrand : ∀ i, rand i ≤ randMax)
    (htwo : 2 ≤ nKeys.toNat) (hfit : nKeys.toNat + 1 < 2 ^ 61) :
    (∃ cmds, manufactureTraceZipfian cityHash128 randMax rand traceSize nKeys readPermille alpha =
        some cmds ∧ cmds.length = traceSize.toNat ∧ ∀ cmd ∈ cmds, ∃ k : BitVec 64,
          0 < k.toNat ∧ k.toNat < nKeys.toNat ∧
            cmd.keyHash = (cityHash128 (k.setWidth 32)).take 8) ↔
      ∀ i < traceSize.toNat, 0 < rand (2 * i) := by
  obtain ⟨s, -, hs, -⟩ := exists_table alpha htwo hfit
  simp only [manufactureTraceZipfian, hs, Option.bind_eq_bind, Option.bind_some]
  constructor
  · rintro ⟨cmds, hcmds, -⟩ i hi
    obtain ⟨cmd, hcmd⟩ := isSome_of_mapM hcmds (List.mem_range.mpr hi)
    obtain ⟨k, hk, -⟩ := Option.bind_eq_some_iff.mp hcmd
    exact (uniform_pos_iff hpos).mp (pos_of_zipValue hs hfit hk)
  · intro h
    obtain ⟨cmds, hcmds, hlen, hkeys⟩ := exists_mapM (l := List.range traceSize.toNat)
      (f := fun i => (zipValue s nKeys ((rand (2 * i) : ℚ) / randMax)).bind fun zipValue =>
        some (TraceCmd.init cityHash128 (zipValue.setWidth 32) readPermille (rand (2 * i + 1))))
      (P := fun cmd => ∃ k : BitVec 64, 0 < k.toNat ∧ k.toNat < nKeys.toNat ∧
        cmd.keyHash = (cityHash128 (k.setWidth 32)).take 8)
      (by
        intro i hi
        obtain ⟨k, hk, hk0, hklt⟩ := exists_zipValue hs htwo hfit
          ((uniform_pos_iff hpos).mpr (h i (List.mem_range.mp hi))) (uniform_le_one (hrand _))
        exact ⟨_, by rw [hk, Option.bind_some], k, hk0, hklt, rfl⟩)
    exact ⟨cmds, hcmds, by rw [hlen, List.length_range], hkeys⟩

end Trace

end Avocado.Zipf
