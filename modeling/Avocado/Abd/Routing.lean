/-
# Routing a key (`protocol.h`, `replica_ordering` and `get_idx`)

`replica_ordering` turns the vector of `permutations` into the groups of `ABD`, one for each three
servers, and `get_idx` selects a group by the end of the key.  All servers have the same number of
groups (`length_permutations_eq`), so they select the same position, in every phase, as long as the
position depends on the bytes of the key alone.

Two inputs are left out.  With one other server there are no three servers and no group, and the
remainder is by zero, although the command line asks for no more than one `-a`.  The last of the
four reads is for keys of one byte; an empty key gets there too and is routed by the byte behind it.
`routed_iff` says that nothing else goes wrong.
-/
import Avocado.Abd.Bounds
import Avocado.Abd.ReplicaGroups
import Avocado.Server.Address

namespace Avocado

open Bytes Sorted Triples

/-! ## 1. The code -/

/-- `ABD::replica_ordering`: the sessions of the other two servers of a group, and an empty group
where this server is not a member.  There is no result when an index is too large. -/
def replicaOrdering (infos : List ReplicaInfo) :
    List (Bool × Nat × Nat) → Option (List (List (BitVec 32)))
  | [] => some []
  | (us, a, b) :: order => do
    let group ← if us then do
        let idA ← infos[a]?
        let idB ← infos[b]?
        some [idA.sessionId, idB.sessionId]
      else some []
    let groups ← replicaOrdering infos order
    some (group :: groups)

/-- `get_idx`, with `groups` elements in `replicas`.  There is no result when it divides by zero or
reads outside the array. -/
def getIdxAt (groups : Nat) (key : Span) : Option Nat :=
  if groups = 0 then none else (idxBytes key).map fun bs => leNat bs % groups

/-- **A key has one place** on all servers with as many others as this one: the groups exist, the
place is one of them, and `get_idx` finds it whatever is behind the key, nothing included. -/
def Routed (args : Args) (key : List UInt8) : Prop :=
  ∃ i, ∀ (args' : Args) (infos : List ReplicaInfo),
    args'.replicaInfo.length = args.replicaInfo.length →
    infos.length = args'.replicaInfo.length →
    ∃ replicas, replicaOrdering infos (permutations args') = some replicas ∧
      i < replicas.length ∧
      ∀ rest, getIdxAt replicas.length ⟨key.length, some (key ++ rest)⟩ = some i

/-! ## 2. The groups -/

section Groups

variable {args : Args} {infos : List ReplicaInfo}

/-- The marks in `tmp`: this server's, and the places of the others. -/
theorem tmp_marks_perm (args : Args) : (args.tmp.map Prod.fst).Perm
    (-1 :: (List.range args.replicaInfo.length).map fun i : Nat => (i : Int)) := by
  have hsorted : args.sortedInfo.length = args.replicaInfo.length :=
    (sortBy_perm _ _).length_eq
  have hplaces : (args.sortedInfo.zipIdx.map fun q => ((q.2 : Int), q.1)).map Prod.fst =
      (List.range args.replicaInfo.length).map fun i : Nat => (i : Int) := by
    rw [List.map_map, ← hsorted, List.range_eq_range', ← List.zipIdx_map_snd, List.map_map]
    rfl
  rw [← hplaces]
  exact (sortBy_perm _ _).map Prod.fst

theorem length_tmp_eq (args : Args) : args.tmp.length = args.replicaInfo.length + 1 := by
  rw [← List.length_map Prod.fst, (tmp_marks_perm args).length_eq]
  simp

/-- **The number of groups** depends on the number of servers only. -/
theorem length_permutations_eq (args : Args) : (permutations args).length =
    (args.replicaInfo.length + 1) * args.replicaInfo.length * (args.replicaInfo.length - 1) / 6 := by
  rw [permutations, List.length_map, length_tmp_eq, length_triples]
  congr 1

/-- With two others there is a group, and without there is none. -/
theorem length_permutations_pos_iff (args : Args) :
    0 < (permutations args).length ↔ 2 ≤ args.replicaInfo.length := by
  rw [permutations, List.length_map, length_tmp_eq, List.length_pos_iff_exists_mem]
  constructor
  · rintro ⟨⟨i, j, k⟩, ht⟩
    obtain ⟨hij, hjk, hk⟩ := mem_triples.mp ht
    omega
  · intro h
    exact ⟨(0, 1, 2), mem_triples.mpr ⟨by omega, by omega, by omega⟩⟩

theorem mark_bounds {i : Nat} (hi : i < args.tmp.length) :
    -1 ≤ (args.tmp.getD i (0, [])).1 ∧
      (args.tmp.getD i (0, [])).1 < (args.replicaInfo.length : Int) := by
  have hmem : (args.tmp.getD i (0, [])).1 ∈ args.tmp.map Prod.fst := by
    rw [List.getD_eq_getElem _ _ hi]
    exact List.mem_map_of_mem (List.getElem_mem hi)
  rw [(tmp_marks_perm args).mem_iff, List.mem_cons, List.mem_map] at hmem
  rcases hmem with hself | ⟨m, hm, heq⟩
  · omega
  · rw [List.mem_range] at hm
    omega

/-- No two elements of `tmp` have one mark. -/
theorem mark_ne {i j : Nat} (hij : i < j) (hj : j < args.tmp.length) :
    (args.tmp.getD i (0, [])).1 ≠ (args.tmp.getD j (0, [])).1 := by
  have hnd : (args.tmp.map Prod.fst).Nodup := by
    rw [(tmp_marks_perm args).nodup_iff, List.nodup_cons]
    refine ⟨fun hmem => ?_, List.Nodup.map (fun m m' h => by exact_mod_cast h) List.nodup_range⟩
    obtain ⟨m, -, heq⟩ := List.mem_map.mp hmem
    omega
  rw [List.getD_eq_getElem _ _ (hij.trans hj), List.getD_eq_getElem _ _ hj]
  intro h
  have hi' : i < (args.tmp.map Prod.fst).length := by simpa using hij.trans hj
  have hj' : j < (args.tmp.map Prod.fst).length := by simpa using hj
  have hsame : (args.tmp.map Prod.fst)[i] = (args.tmp.map Prod.fst)[j] := by
    rw [List.getElem_map, List.getElem_map, h]
  exact absurd (hnd.getElem_inj_iff.mp hsame) (by omega)

/-- Of three different marks, those that are written down are places: no -1 is. -/
theorem groupEntry_marks {a b c : Int} (ha : -1 ≤ a) (hb : -1 ≤ b) (hc : -1 ≤ c) (hab : a ≠ b)
    (hac : a ≠ c) (hbc : b ≠ c) :
    let e := groupEntry a b c
    ((e.2.1 : Int) = a ∨ (e.2.1 : Int) = b ∨ (e.2.1 : Int) = c) ∧
      ((e.2.2 : Int) = a ∨ (e.2.2 : Int) = b ∨ (e.2.2 : Int) = c) := by
  unfold groupEntry
  split_ifs
  · simp only
    omega
  · simp only
    omega
  · simp only
    omega
  · simp only
    omega

/-- **Every group names two entries of `replica_info`.** -/
theorem permutations_lt {e : Bool × Nat × Nat} (he : e ∈ permutations args) :
    e.2.1 < args.replicaInfo.length ∧ e.2.2 < args.replicaInfo.length := by
  obtain ⟨⟨i, j, k⟩, ht, rfl⟩ := List.mem_map.mp he
  obtain ⟨hij, hjk, hk⟩ := mem_triples.mp ht
  obtain ⟨ha, ha'⟩ := mark_bounds (show i < args.tmp.length by omega)
  obtain ⟨hb, hb'⟩ := mark_bounds (show j < args.tmp.length by omega)
  obtain ⟨hc, hc'⟩ := mark_bounds hk
  have hmarks := groupEntry_marks ha hb hc (mark_ne hij (by omega)) (mark_ne (hij.trans hjk) hk)
    (mark_ne hjk hk)
  simp only at hmarks ⊢
  omega

/-- `replica_ordering` is total where the places are, and keeps the positions. -/
theorem replicaOrdering_eq_some {order : List (Bool × Nat × Nat)}
    (h : ∀ e ∈ order, e.2.1 < infos.length ∧ e.2.2 < infos.length) :
    ∃ groups, replicaOrdering infos order = some groups ∧ groups.length = order.length := by
  induction order with
  | nil => exact ⟨[], rfl, rfl⟩
  | cons e order ih =>
    obtain ⟨us, a, b⟩ := e
    obtain ⟨ha, hb⟩ := h _ List.mem_cons_self
    obtain ⟨groups, hgroups, hlen⟩ := ih fun e he => h e (List.mem_cons_of_mem _ he)
    cases us with
    | false => exact ⟨[] :: groups, by simp [replicaOrdering, hgroups], by simp [hlen]⟩
    | true =>
      refine ⟨[infos[a].sessionId, infos[b].sessionId] :: groups, ?_, by simp [hlen]⟩
      simp [replicaOrdering, hgroups, List.getElem?_eq_getElem ha, List.getElem?_eq_getElem hb]

/-- **`replica_ordering` makes a group of every entry of `permutations`.** -/
theorem replicaOrdering_permutations (args : Args) (infos : List ReplicaInfo)
    (hlen : infos.length = args.replicaInfo.length) :
    ∃ groups, replicaOrdering infos (permutations args) = some groups ∧
      groups.length = (permutations args).length := by
  refine replicaOrdering_eq_some fun e he => ?_
  rw [hlen]
  exact permutations_lt he

end Groups

/-! ## 3. The place of a key -/

section Key

variable {key : List UInt8} {groups : Nat}

/-- What is behind a key that is not empty does not count. -/
theorem getIdxAt_append (hkey : key ≠ []) (rest : List UInt8) :
    getIdxAt groups ⟨key.length, some (key ++ rest)⟩ = getIdx groups key := by
  have hpos : 0 < key.length := List.length_pos_iff.mpr hkey
  unfold getIdxAt getIdx idxBytes
  simp only [Ptr.read]
  by_cases hgroups : groups = 0
  · simp only [if_pos hgroups, ite_self]
  · simp only [if_neg hgroups]
    split_ifs
    · rw [load_append]
      omega
    · rw [load_append]
      omega
    · rw [load_append]
      omega
    · rw [load_append]
      omega

/-- **`get_idx` is total** where there is a group and a byte. -/
theorem getIdx_eq_some (hgroups : 0 < groups) (hkey : key ≠ []) :
    ∃ i, getIdx groups key = some i ∧ i < groups := by
  have hpos : 0 < key.length := List.length_pos_iff.mpr hkey
  have hload : ∀ {w off : Nat}, off + w ≤ key.length →
      ∃ i, ((load key off w).map fun bs => leNat bs % groups) = some i ∧ i < groups := by
    intro w off hle
    rw [load, if_pos hle]
    exact ⟨_, rfl, Nat.mod_lt _ hgroups⟩
  unfold getIdx
  simp only [if_neg hgroups.ne']
  split_ifs
  · exact hload (by omega)
  · exact hload (by omega)
  · exact hload (by omega)
  · exact hload (by omega)

/-- The empty key has no byte. -/
theorem getIdxAt_nil : getIdxAt groups ⟨0, some []⟩ = none := by
  unfold getIdxAt idxBytes
  simp [Ptr.read, load]

end Key

/-! ## 4. Routing -/

/-- The empty key has no place, however many groups there are. -/
theorem not_routed_nil (args : Args) : ¬ Routed args [] := by
  rintro ⟨i, h⟩
  obtain ⟨groups, -, -, hidx⟩ :=
    h args (List.replicate args.replicaInfo.length ⟨0, 0, []⟩) rfl (List.length_replicate ..)
  have hnone := hidx []
  rw [List.append_nil, List.length_nil, getIdxAt_nil] at hnone
  exact absurd hnone (by simp)

/-- **Every key is routed** as soon as there are two other servers, but for the empty key. -/
theorem routed_iff (args : Args) (key : List UInt8) :
    Routed args key ↔ 2 ≤ args.replicaInfo.length ∧ key ≠ [] := by
  constructor
  · rintro ⟨i, h⟩
    obtain ⟨groups, hgroups, hi, -⟩ :=
      h args (List.replicate args.replicaInfo.length ⟨0, 0, []⟩) rfl (List.length_replicate ..)
    obtain ⟨groups', hgroups', hlen⟩ := replicaOrdering_permutations args
      (List.replicate args.replicaInfo.length ⟨0, 0, []⟩) (List.length_replicate ..)
    rw [hgroups, Option.some.injEq] at hgroups'
    refine ⟨(length_permutations_pos_iff args).mp (by rw [← hlen, ← hgroups']; omega), ?_⟩
    rintro rfl
    exact not_routed_nil args ⟨i, h⟩
  · rintro ⟨hargs, hkey⟩
    obtain ⟨i, hi, hlt⟩ := getIdx_eq_some ((length_permutations_pos_iff args).mpr hargs) hkey
    refine ⟨i, fun args' infos hsame hinfos => ?_⟩
    obtain ⟨groups, hgroups, hlen⟩ := replicaOrdering_permutations args' infos hinfos
    rw [length_permutations_eq, hsame, ← length_permutations_eq] at hlen
    refine ⟨groups, hgroups, hlen ▸ hlt, fun rest => ?_⟩
    rw [getIdxAt_append hkey, hlen, hi]

/-- A server with one other server. -/
def oneOther : Args := ⟨['a', ':', '1'], [['b', ':', '1', ':', '8']]⟩

/-- **No group for two servers**, and four groups for an empty key that goes where the byte behind
it says. -/
theorem oneOther_not_routed : permutations oneOther = [] ∧ (∀ key, getIdxAt 0 key = none) ∧
    (∀ key, ¬ Routed oneOther key) ∧ getIdxAt 4 ⟨0, some [0x0]⟩ = some 0 ∧
    getIdxAt 4 ⟨0, some [0x1]⟩ = some 1 ∧ ∀ args, ¬ Routed args [] := by
  have hperm : permutations oneOther = [] := by decide +kernel
  have hdiv : ∀ key, getIdxAt 0 key = none := fun key => if_pos rfl
  refine ⟨hperm, hdiv, ?_, by decide, by decide, not_routed_nil⟩
  rintro key ⟨i, h⟩
  obtain ⟨groups, hgroups, hi, -⟩ := h oneOther [⟨0, 0, []⟩] rfl rfl
  rw [hperm, replicaOrdering, Option.some.injEq] at hgroups
  rw [← hgroups, List.length_nil] at hi
  omega

end Avocado
