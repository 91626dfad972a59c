/-
# Three nested loops

`triples n` is what the loops `for i, for j > i, for k > j` over `0, …, n - 1` visit, in their
order.  They visit every set of three indices exactly once (`exists_mem_triples`,
`toSet_injOn`), so there are `n * (n - 1) * (n - 2) / 6` of them (`length_triples`).
-/
import Mathlib.Data.Finset.Sort
import Mathlib.Data.Finset.Powerset
import Mathlib.Data.Nat.Choose.Basic
import Mathlib.Tactic.FinCases

namespace Triples

/-- The index triples, in the order of the loops. -/
def triples (n : Nat) : List (Nat × Nat × Nat) :=
  (List.range n).flatMap fun i =>
    (List.range' (i + 1) (n - (i + 1))).flatMap fun j =>
      (List.range' (j + 1) (n - (j + 1))).map fun k => (i, j, k)

/-- The three indices. -/
def toSet (t : Nat × Nat × Nat) : Finset Nat := {t.1, t.2.1, t.2.2}

variable {n i j k : Nat}

theorem mem_triples : (i, j, k) ∈ triples n ↔ i < j ∧ j < k ∧ k < n := by
  simp only [triples, List.mem_flatMap, List.mem_range, List.mem_range'_1, List.mem_map,
    Prod.mk.injEq]
  constructor
  · rintro ⟨i', hi, j', hj, k', hk, rfl, rfl, rfl⟩
    omega
  · rintro ⟨h1, h2, h3⟩
    exact ⟨i, by omega, j, by omega, k, by omega, rfl, rfl, rfl⟩

theorem nodup_triples (n : Nat) : (triples n).Nodup := by
  refine List.nodup_flatMap.mpr ⟨fun i _ => List.nodup_flatMap.mpr ⟨fun j _ => ?_, ?_⟩, ?_⟩
  · refine List.Nodup.map (fun k k' h => ?_) List.nodup_range'
    simpa using h
  · refine List.Pairwise.imp ?_ (List.nodup_range' (s := i + 1) (n := n - (i + 1)))
    intro j j' hne t ht ht'
    obtain ⟨k, -, rfl⟩ := List.mem_map.mp ht
    obtain ⟨k', -, heq⟩ := List.mem_map.mp ht'
    simp only [Prod.mk.injEq] at heq
    exact hne heq.2.1.symm
  · refine List.Pairwise.imp ?_ (List.nodup_range (n := n))
    intro i i' hne t ht ht'
    obtain ⟨j, -, ht⟩ := List.mem_flatMap.mp ht
    obtain ⟨k, -, rfl⟩ := List.mem_map.mp ht
    obtain ⟨j', -, ht'⟩ := List.mem_flatMap.mp ht'
    obtain ⟨k', -, heq⟩ := List.mem_map.mp ht'
    simp only [Prod.mk.injEq] at heq
    exact hne heq.1.symm

theorem card_toSet {t : Nat × Nat × Nat} (ht : t ∈ triples n) : (toSet t).card = 3 := by
  obtain ⟨i, j, k⟩ := t
  obtain ⟨hij, hjk, -⟩ := mem_triples.mp ht
  exact Finset.card_eq_three.mpr ⟨i, j, k, by omega, by omega, by omega, rfl⟩

theorem toSet_subset {t : Nat × Nat × Nat} (ht : t ∈ triples n) : toSet t ⊆ Finset.range n := by
  obtain ⟨i, j, k⟩ := t
  obtain ⟨hij, hjk, hk⟩ := mem_triples.mp ht
  intro x hx
  simp only [toSet, Finset.mem_insert, Finset.mem_singleton] at hx
  rw [Finset.mem_range]
  omega

/-- **No set of indices is visited twice.** -/
theorem toSet_injOn {t t' : Nat × Nat × Nat} (ht : t ∈ triples n) (ht' : t' ∈ triples n)
    (h : toSet t = toSet t') : t = t' := by
  obtain ⟨i, j, k⟩ := t
  obtain ⟨i', j', k'⟩ := t'
  obtain ⟨hij, hjk, -⟩ := mem_triples.mp ht
  obtain ⟨hij', hjk', -⟩ := mem_triples.mp ht'
  have hmem : ∀ x, (x = i ∨ x = j ∨ x = k) ↔ (x = i' ∨ x = j' ∨ x = k') := by
    intro x
    have hx := Finset.ext_iff.mp h x
    simpa [toSet] using hx
  have hi := (hmem i).mp (Or.inl rfl)
  have hj := (hmem j).mp (Or.inr (Or.inl rfl))
  have hk := (hmem k).mp (Or.inr (Or.inr rfl))
  have hi' := (hmem i').mpr (Or.inl rfl)
  have hk' := (hmem k').mpr (Or.inr (Or.inr rfl))
  simp only [Prod.mk.injEq]
  omega

/-- **Every set of three indices is visited.** -/
theorem exists_mem_triples {s : Finset Nat} (hs : s ⊆ Finset.range n) (hcard : s.card = 3) :
    ∃ t ∈ triples n, toSet t = s := by
  obtain ⟨e, he⟩ : ∃ e : Fin 3 ↪o ℕ, Set.range e = ↑s :=
    ⟨s.orderEmbOfFin hcard, s.range_orderEmbOfFin hcard⟩
  have hset : toSet (e 0, e 1, e 2) = s := by
    ext x
    have hx : x ∈ s ↔ x ∈ Set.range e := by rw [he, Finset.mem_coe]
    rw [hx, Set.mem_range]
    simp only [toSet, Finset.mem_insert, Finset.mem_singleton]
    constructor
    · rintro (rfl | rfl | rfl)
      · exact ⟨0, rfl⟩
      · exact ⟨1, rfl⟩
      · exact ⟨2, rfl⟩
    · rintro ⟨a, rfl⟩
      fin_cases a <;> simp
  refine ⟨(e 0, e 1, e 2), mem_triples.mpr ⟨?_, ?_, ?_⟩, hset⟩
  · exact e.strictMono (by decide)
  · exact e.strictMono (by decide)
  · have h2 : e 2 ∈ s := by
      rw [← hset]
      simp [toSet]
    exact Finset.mem_range.mp (hs h2)

theorem length_triples (n : Nat) : (triples n).length = n * (n - 1) * (n - 2) / 6 := by
  have himage : (triples n).toFinset.image toSet = Finset.powersetCard 3 (Finset.range n) := by
    ext s
    rw [Finset.mem_image, Finset.mem_powersetCard]
    constructor
    · rintro ⟨t, ht, rfl⟩
      rw [List.mem_toFinset] at ht
      exact ⟨toSet_subset ht, card_toSet ht⟩
    · rintro ⟨hs, hcard⟩
      obtain ⟨t, ht, heq⟩ := exists_mem_triples hs hcard
      exact ⟨t, List.mem_toFinset.mpr ht, heq⟩
  have hinj : Set.InjOn toSet ((triples n).toFinset : Set (Nat × Nat × Nat)) := by
    intro t ht t' ht' h
    rw [Finset.mem_coe, List.mem_toFinset] at ht ht'
    exact toSet_injOn ht ht' h
  have hcard := Finset.card_image_of_injOn hinj
  rw [himage, Finset.card_powersetCard, Finset.card_range,
    List.toFinset_card_of_nodup (nodup_triples n), Nat.choose_eq_descFactorial_div_factorial] at hcard
  rw [← hcard]
  have hdesc : n.descFactorial 3 = n * (n - 1) * (n - 2) := by
    simp only [Nat.descFactorial, Nat.mul_one, Nat.sub_zero]
    rw [Nat.mul_comm, Nat.mul_comm (n - 1) n]
  rw [hdesc]
  rfl

end Triples
