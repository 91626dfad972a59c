/-
# Which threads are told how often (`server.cpp`)

Thread `i` of a server is connected to thread `i % n` of every other one.  The number `n` is meant
to be how many threads that server has, and is the one that `get_n_threads_from_svr_info` reads out
of its address.  Each thread of each server has to be told as often as it tells
(`Finish.allReturn_iff`), so it comes down to this: all servers have the same number of threads, and
no number that is read is smaller (`allReturn_iff_sameThreads`).  There are three servers or more:
with fewer there is no group, and no thread gets to the end of its commands.
-/
import Avocado.Server.Finish
import Avocado.Server.Address

namespace Avocado.Finish

/-! ## 1. Deployments -/

/-- The servers of a benchmark: how many threads each is started with, the text that the others are
given for it with `-a`, and what it is given itself, sorted. -/
structure Deployment (S : Type) where
  nThread : S → BitVec 64
  info : S → List Char
  others : S → List S
  /-- `create_threads` divides by the number of threads, -/
  nThread_ne_zero : ∀ x, nThread x ≠ 0
  /-- and `server_thread` by the number that is read out of the text. -/
  divisor_ne_zero : ∀ x, getNThreadsFromSvrInfo (info x) ≠ 0
  others_nodup : ∀ x, (others x).Nodup
  mem_others : ∀ x y, y ∈ others x ↔ y ≠ x

variable {S : Type} [Fintype S] [DecidableEq S]

/-- The threads of all servers, and `replicas` of `server_thread`. -/
def Deployment.cfg (d : Deployment S) : Cfg (Σ _ : S, ℕ) where
  threads := Finset.univ.sigma fun x => Finset.range (d.nThread x).toNat
  replicasInfos p := (d.others p.1).filterMap fun r =>
    (replicaInfo (BitVec.ofNat 64 p.2) (d.info r)).map fun info => ⟨r, info.baseId.toNat⟩

/-- The number of threads that the others take server `r` to have. -/
def Deployment.divisor (d : Deployment S) (r : S) : ℕ := (getNThreadsFromSvrInfo (d.info r)).toNat

/-- The threads of server `x` that tell thread `j` of server `r`. -/
def Deployment.tell (d : Deployment S) (r : S) (j : ℕ) (x : S) : ℕ :=
  ((Finset.range (d.nThread x).toNat).filter fun i => i % d.divisor r = j).card

variable (d : Deployment S)

theorem toNat_pos {n : BitVec 64} (h : n ≠ 0) : 0 < n.toNat :=
  Nat.pos_of_ne_zero fun hzero => h (BitVec.eq_of_toNat_eq hzero)

omit [Fintype S] [DecidableEq S] in
theorem nThread_pos (x : S) : 0 < (d.nThread x).toNat := toNat_pos (d.nThread_ne_zero x)

omit [Fintype S] [DecidableEq S] in
theorem divisor_pos (x : S) : 0 < d.divisor x := toNat_pos (d.divisor_ne_zero x)

omit [DecidableEq S] in
theorem mem_threads {x : S} {i : ℕ} :
    (⟨x, i⟩ : Σ _ : S, ℕ) ∈ d.cfg.threads ↔ i < (d.nThread x).toNat := by
  simp [Deployment.cfg]

omit [DecidableEq S] in
/-- **Thread `i` is connected to thread `i % n`** of every other server. -/
theorem replicasInfos_eq {x : S} {i : ℕ} (hi : i < (d.nThread x).toNat) :
    d.cfg.replicasInfos ⟨x, i⟩ = (d.others x).map fun r => ⟨r, i % d.divisor r⟩ := by
  have hlt : i < 2 ^ 64 := hi.trans (d.nThread x).isLt
  rw [Deployment.cfg, ← List.filterMap_eq_map]
  refine List.filterMap_congr fun r _ => ?_
  simp only [replicaInfo, if_neg (d.divisor_ne_zero r), Option.map_some, Function.comp_apply,
    Deployment.divisor, BitVec.toNat_umod, BitVec.toNat_ofNat, Nat.mod_eq_of_lt hlt]

theorem length_others (x : S) : (d.others x).length = (Finset.univ.erase x).card := by
  rw [← List.toFinset_card_of_nodup (d.others_nodup x)]
  congr 1
  ext y
  simp [d.mem_others]

/-- How often a thread is told. -/
theorem indeg_eq (r : S) (j : ℕ) :
    d.cfg.indeg ⟨r, j⟩ = ∑ x ∈ Finset.univ.erase r, d.tell r j x := by
  have hcount : ∀ x i, i < (d.nThread x).toNat →
      (d.cfg.replicasInfos ⟨x, i⟩).count ⟨r, j⟩ = if r ≠ x ∧ i % d.divisor r = j then 1 else 0 := by
    intro x i hi
    rw [replicasInfos_eq d hi]
    have hnodup : ((d.others x).map fun r => (⟨r, i % d.divisor r⟩ : Σ _ : S, ℕ)).Nodup :=
      (d.others_nodup x).map fun a b hab => congrArg Sigma.fst hab
    rw [hnodup.count]
    refine if_congr ?_ rfl rfl
    simp only [List.mem_map, d.mem_others]
    constructor
    · rintro ⟨r', hr', heq⟩
      injection heq with h1 h2
      subst h1
      exact ⟨hr', h2⟩
    · rintro ⟨hr, rfl⟩
      exact ⟨r, hr, rfl⟩
  have hsum : d.cfg.indeg ⟨r, j⟩ = ∑ x, ∑ i ∈ Finset.range (d.nThread x).toNat,
      if r ≠ x ∧ i % d.divisor r = j then 1 else 0 := by
    rw [Cfg.indeg, Deployment.cfg, Finset.sum_sigma]
    exact Finset.sum_congr rfl fun x _ => Finset.sum_congr rfl fun i hi =>
      hcount x i (Finset.mem_range.mp hi)
  rw [hsum, ← Finset.add_sum_erase _ _ (Finset.mem_univ r)]
  simp only [ne_eq, not_true_eq_false, false_and, if_false, Finset.sum_const_zero, Nat.zero_add]
  refine Finset.sum_congr rfl fun x hx => ?_
  have hne : r ≠ x := (Finset.ne_of_mem_erase hx).symm
  rw [Deployment.tell, Finset.card_filter]
  exact Finset.sum_congr rfl fun i _ => if_congr (and_iff_right hne) rfl rfl

/-! ## 2. Balanced deployments -/

variable {d}

omit [Fintype S] [DecidableEq S] in
/-- Where no number that is read is smaller, a thread tells the one of its own number. -/
theorem tell_eq {r x : S} {j : ℕ} (h : (d.nThread x).toNat ≤ d.divisor r) :
    d.tell r j x = if j < (d.nThread x).toNat then 1 else 0 := by
  have hfilter : ((Finset.range (d.nThread x).toNat).filter fun i => i % d.divisor r = j)
      = (Finset.range (d.nThread x).toNat).filter fun i => i = j := by
    refine Finset.filter_congr fun i hi => ?_
    rw [Nat.mod_eq_of_lt (lt_of_lt_of_le (Finset.mem_range.mp hi) h)]
  rw [Deployment.tell, hfilter, Finset.filter_eq']
  simp only [Finset.mem_range]
  split
  · exact Finset.card_singleton _
  · rfl

omit [Fintype S] [DecidableEq S] in
/-- Where a smaller number is read, thread 0 is told twice. -/
theorem one_lt_tell {r x : S} (h : d.divisor r < (d.nThread x).toNat) : 1 < d.tell r 0 x := by
  have hpos := divisor_pos d r
  refine Finset.one_lt_card.mpr ⟨0, ?_, d.divisor r, ?_, hpos.ne⟩
  · simp [hpos.trans h]
  · simp [h]

omit [Fintype S] [DecidableEq S] in
theorem tell_pos (r x : S) : 0 < d.tell r 0 x :=
  Finset.card_pos.mpr ⟨0, by simp [nThread_pos d x]⟩

/-- **All servers have the same number of threads**, and no smaller one is read. -/
def Deployment.SameThreads (d : Deployment S) : Prop :=
  ∃ n, ∀ x, (d.nThread x).toNat = n ∧ n ≤ d.divisor x

/-- The threads of a server are told once by each other server. -/
theorem tell_of_balanced (h : d.cfg.Balanced) {r : S} {j : ℕ} (hj : j < (d.nThread r).toNat) :
    ∑ x ∈ Finset.univ.erase r, d.tell r j x = ∑ _x ∈ Finset.univ.erase r, 1 := by
  rw [← indeg_eq, h _ ((mem_threads d).mpr hj), replicasInfos_eq d hj, List.length_map,
    length_others, Finset.card_eq_sum_ones]

theorem nThread_le_divisor (h : d.cfg.Balanced) {r x : S} (hx : x ≠ r) :
    (d.nThread x).toNat ≤ d.divisor r := by
  by_contra hlt
  have hall := (Finset.sum_eq_sum_iff_of_le fun y _ => tell_pos r y).mp
    (tell_of_balanced h (nThread_pos d r)).symm x (Finset.mem_erase.mpr ⟨hx, Finset.mem_univ x⟩)
  have htwice := one_lt_tell (Nat.lt_of_not_le hlt)
  omega

theorem nThread_le_nThread (h : d.cfg.Balanced) {r x : S} (hx : x ≠ r) :
    (d.nThread r).toNat ≤ (d.nThread x).toNat := by
  have hpos := nThread_pos d r
  have hone : ∀ x ∈ Finset.univ.erase r, d.tell r ((d.nThread r).toNat - 1) x ≤ 1 := by
    intro y hy
    rw [tell_eq (nThread_le_divisor h (Finset.ne_of_mem_erase hy))]
    split <;> omega
  have hall := (Finset.sum_eq_sum_iff_of_le hone).mp (tell_of_balanced h (by omega)) x
    (Finset.mem_erase.mpr ⟨hx, Finset.mem_univ x⟩)
  rw [tell_eq (nThread_le_divisor h hx)] at hall
  split at hall
  · omega
  · exact absurd hall (by simp)

theorem balanced_iff [Nontrivial S] : d.cfg.Balanced ↔ d.SameThreads := by
  constructor
  · intro h
    obtain ⟨x₀, -⟩ := exists_pair_ne S
    have hsame : ∀ x, (d.nThread x).toNat = (d.nThread x₀).toNat := by
      intro x
      by_cases hx : x = x₀
      · rw [hx]
      · exact Nat.le_antisymm (nThread_le_nThread h (Ne.symm hx)) (nThread_le_nThread h hx)
    refine ⟨(d.nThread x₀).toNat, fun x => ⟨hsame x, ?_⟩⟩
    obtain ⟨y, hy⟩ := exists_ne x
    rw [← hsame y]
    exact nThread_le_divisor h hy
  · rintro ⟨n, hn⟩ ⟨r, j⟩ hj
    rw [mem_threads] at hj
    rw [indeg_eq, replicasInfos_eq d hj, List.length_map, length_others,
      Finset.card_eq_sum_ones]
    refine Finset.sum_congr rfl fun x _ => ?_
    rw [tell_eq (by rw [(hn x).1]; exact (hn r).2), if_pos (by rw [(hn x).1, ← (hn r).1]; exact hj)]

/-- **All threads of all servers return exactly when** the servers have the same number of threads
and no smaller number is read out of an address. -/
theorem allReturn_iff_sameThreads (h3 : 3 ≤ Fintype.card S) (d : Deployment S) :
    AllReturn d.cfg ↔ d.SameThreads := by
  have : Nontrivial S := Fintype.one_lt_card_iff_nontrivial.mp (by omega)
  rw [← balanced_iff]
  refine allReturn_iff fun p hp => ?_
  obtain ⟨x, i⟩ := p
  rw [mem_threads] at hp
  obtain ⟨y, hy⟩ := exists_ne x
  rw [replicasInfos_eq d hp]
  exact List.ne_nil_of_mem (List.mem_map_of_mem ((d.mem_others x y).mpr hy))

/-- Three servers with two threads each. -/
def threeServers (hosts : Fin 3 → String) (h : ∀ x, getNThreadsFromSvrInfo (hosts x).toList ≠ 0) :
    Deployment (Fin 3) where
  nThread _ := 2
  info x := (hosts x).toList
  others x := (List.finRange 3).filter (· ≠ x)
  nThread_ne_zero _ := by decide
  divisor_ne_zero := h
  others_nodup := by decide
  mem_others := by decide

/-- The threads of `10.0.0.2` to `10.0.0.4` return, those of `10.0.0.1` to `10.0.0.3` do not. -/
theorem allReturn_iff_sameThreads_threeServers :
    AllReturn (threeServers (fun
      | 0 => "10.0.0.2:31850:2"
      | 1 => "10.0.0.3:31850:2"
      | 2 => "10.0.0.4:31850:2") (by decide)).cfg ∧
    ¬ AllReturn (threeServers (fun
      | 0 => "10.0.0.1:31850:2"
      | 1 => "10.0.0.2:31850:2"
      | 2 => "10.0.0.3:31850:2") (by decide)).cfg := by
  rw [allReturn_iff_sameThreads (by decide), allReturn_iff_sameThreads (by decide)]
  refine ⟨⟨2, by decide⟩, ?_⟩
  rintro ⟨n, hn⟩
  obtain ⟨rfl, hle⟩ := hn 0
  exact absurd hle (by decide)

end Avocado.Finish
