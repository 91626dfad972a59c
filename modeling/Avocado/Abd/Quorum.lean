/-
# Which sets of servers let a phase go on

A phase goes on with the first response that passes `2 * n_resp + 1 >= n_msgs`.  The coordinator
counts as well, so the servers that have taken part are then the coordinator and `n_resp`
responders, out of `n_msgs + 1` (`Quorum`).

For an even `n_msgs` this is a majority, and two such sets share a server.  For an odd `n_msgs`
from 3 on it is exactly half: the threshold lets a phase go on with one response less than half of
`n_msgs`, and the servers then split into two sets that both do (`quorum_iff`).
-/
import Avocado.Abd.Replica
import Mathlib.Algebra.Ring.Parity
import Mathlib.Data.Fintype.Card

namespace Avocado

/-! ## 1. When the continuation runs -/

/-- The last of these responses runs the continuation. -/
def ReplicaContext.runsAt (ctx : ReplicaContext) : List MsgBuffer → Bool
  | [] => false
  | resp :: rest =>
    match ctx.reqConts resp, rest with
    | some (_, run), [] => run
    | some (ctx', _), _ :: _ => runsAt ctx' rest
    | none, _ => false

theorem ReplicaContext.runsAt_single {ctx ctx' : ReplicaContext} {resp : MsgBuffer} {run : Bool}
    (h : ctx.reqConts resp = some (ctx', run)) : ctx.runsAt [resp] = run := by
  simp only [runsAt, h]

theorem ReplicaContext.runsAt_cons {ctx ctx' : ReplicaContext} {resp r : MsgBuffer} {run : Bool}
    {rest : List MsgBuffer} (h : ctx.reqConts resp = some (ctx', run)) :
    ctx.runsAt (resp :: r :: rest) = ctx'.runsAt (r :: rest) := by
  simp only [runsAt, h]

theorem ReplicaContext.reqConts_of_done {ctx : ReplicaContext} {resp : MsgBuffer}
    (hb : 0 < resp.text.ptr.length) (hd : ctx.done = true) :
    ∃ ctx', ctx.reqConts resp = some (ctx', false) ∧ ctx'.done = true := by
  simp only [reqConts, addToCache, if_pos hb, Option.bind_eq_bind, Option.bind_some, hd]
  split
  · exact ⟨_, rfl, rfl⟩
  · exact ⟨_, rfl, rfl⟩

/-- The continuation runs once. -/
theorem ReplicaContext.runsAt_of_done {ctx : ReplicaContext} {resps : List MsgBuffer}
    (hd : ctx.done = true) : ctx.runsAt resps = false := by
  induction resps generalizing ctx with
  | nil => rfl
  | cons resp rest ih =>
    by_cases hb : 0 < resp.text.ptr.length
    · obtain ⟨ctx', hr, hd'⟩ := reqConts_of_done hb hd
      cases rest with
      | nil => exact runsAt_single hr
      | cons r rest => rw [runsAt_cons hr]; exact ih hd'
    · simp [runsAt, reqConts, addToCache, hb]

/-- **When the continuation runs**: with the first response that passes the threshold. -/
theorem ReplicaContext.runsAt_iff {ctx : ReplicaContext} {resps : List MsgBuffer}
    (hb : ∀ resp ∈ resps, 0 < resp.text.ptr.length) (hd : ctx.done = false) :
    ctx.runsAt resps = true ↔ resps ≠ [] ∧ ctx.nMsgs ≤ 2 * (ctx.nResp + resps.length) + 1 ∧
      (resps.length = 1 ∨ 2 * (ctx.nResp + resps.length) < ctx.nMsgs + 1) := by
  induction resps generalizing ctx with
  | nil => simp [runsAt]
  | cons resp rest ih =>
    have hresp := hb resp List.mem_cons_self
    have hrest := fun r hr => hb r (List.mem_cons_of_mem resp hr)
    by_cases hlt : 2 * (ctx.nResp + 1) + 1 < ctx.nMsgs
    · have hr : ∃ ctx', ctx.reqConts resp = some (ctx', false) ∧ ctx'.done = false ∧
          ctx'.nMsgs = ctx.nMsgs ∧ ctx'.nResp = ctx.nResp + 1 := by
        simp only [reqConts, addToCache, if_pos hresp, Option.bind_eq_bind, Option.bind_some,
          if_pos hlt]
        exact ⟨_, rfl, hd, rfl, rfl⟩
      obtain ⟨ctx', hr, hd', hn, hresps⟩ := hr
      cases rest with
      | nil =>
        rw [runsAt_single hr]
        simp only [List.length_cons, List.length_nil]
        constructor
        · intro h
          exact absurd h (by simp)
        · rintro ⟨-, hle, -⟩
          omega
      | cons r rest =>
        rw [runsAt_cons hr, ih hrest hd', hn, hresps]
        simp only [List.length_cons, ne_eq, reduceCtorEq, not_false_eq_true, true_and]
        omega
    · have hr : ∃ ctx', ctx.reqConts resp = some (ctx', true) ∧ ctx'.done = true := by
        simp only [reqConts, addToCache, if_pos hresp, Option.bind_eq_bind, Option.bind_some,
          if_neg hlt, hd, Bool.false_eq_true, if_false]
        exact ⟨_, rfl, rfl⟩
      obtain ⟨ctx', hr, hd'⟩ := hr
      cases rest with
      | nil =>
        rw [runsAt_single hr]
        simp only [List.length_cons, List.length_nil, true_iff]
        exact ⟨by simp, by omega, Or.inl trivial⟩
      | cons r rest =>
        rw [runsAt_cons hr, runsAt_of_done hd']
        simp only [List.length_cons]
        constructor
        · intro h
          exact absurd h (by simp)
        · rintro ⟨-, -, hone | hmore⟩
          · omega
          · omega

/-! ## 2. Quorums -/

section Quorums

variable {Srv : Type} [DecidableEq Srv]

/-- `Q` is the coordinator `x` of the group `g` with the responders that a phase has counted when
its continuation runs. -/
def Quorum (g : Finset Srv) (x : Srv) (Q : Finset Srv) : Prop :=
  ∃ (replicas : List Srv) (resps : List (Srv × MsgBuffer)),
    replicas.Nodup ∧ replicas.toFinset = g.erase x ∧
    (resps.map Prod.fst).Nodup ∧ (∀ r ∈ resps, r.1 ∈ replicas ∧ 0 < r.2.text.ptr.length) ∧
    (ReplicaContext.sendAndEncryptMsg {} replicas).runsAt (resps.map Prod.snd) = true ∧
    Q = insert x (resps.map Prod.fst).toFinset

variable {g Q R : Finset Srv} {x y : Srv} {n : Nat}

/-- **The size of a quorum** in a group of `n + 1` servers. -/
theorem Quorum.card (h : Quorum g x Q) (hg : g.card = n + 1) (hx : x ∈ g) :
    Q ⊆ g ∧ 2 ≤ Q.card ∧ n + 1 ≤ 2 * Q.card := by
  obtain ⟨replicas, resps, hnd, hset, hrnd, hmem, hrun, rfl⟩ := h
  have hlen : replicas.length = n := by
    rw [← List.toFinset_card_of_nodup hnd, hset, Finset.card_erase_of_mem hx, hg]
    rfl
  have hin : ∀ r ∈ resps, r.1 ∈ g.erase x := fun r hr => by
    rw [← hset]
    exact List.mem_toFinset.mpr (hmem r hr).1
  have hxr : x ∉ (resps.map Prod.fst).toFinset := by
    intro hin'
    obtain ⟨r, hr, hrx⟩ := List.mem_map.mp (List.mem_toFinset.mp hin')
    exact (Finset.mem_erase.mp (hin r hr)).1 hrx
  have hcard : (insert x (resps.map Prod.fst).toFinset).card = resps.length + 1 := by
    rw [Finset.card_insert_of_notMem hxr, List.toFinset_card_of_nodup hrnd, List.length_map]
  rw [ReplicaContext.runsAt_iff (fun b hb => by
    obtain ⟨r, hr, rfl⟩ := List.mem_map.mp hb
    exact (hmem r hr).2) rfl] at hrun
  obtain ⟨hne, hle, -⟩ := hrun
  have hpos : 0 < resps.length := by
    rw [← List.length_map (f := Prod.snd)]
    exact List.length_pos_iff.mpr hne
  simp only [ReplicaContext.sendAndEncryptMsg, hlen, List.length_map, Nat.zero_add] at hle
  refine ⟨?_, by omega, by omega⟩
  intro z hz
  rcases Finset.mem_insert.mp hz with rfl | hz
  · exact hx
  · obtain ⟨r, hr, rfl⟩ := List.mem_map.mp (List.mem_toFinset.mp hz)
    exact Finset.mem_of_mem_erase (hin r hr)

/-- A buffer that counts as a response. -/
def someResponse : MsgBuffer := ⟨true, ⟨[0], by decide⟩⟩

/-- Any `m` members, `m` at the threshold, make a quorum with a coordinator that is not one of
them. -/
theorem quorum_of_list {l : List Srv} (hg : g.card = n + 1) (hx : x ∈ g) (hnd : l.Nodup)
    (hl : ∀ z ∈ l, z ∈ g ∧ z ≠ x) (hm : n = 2 * l.length + 1) (hpos : 0 < l.length) :
    Quorum g x (insert x l.toFinset) := by
  have hfst : (l.map fun z => (z, someResponse)).map Prod.fst = l := by
    rw [List.map_map]
    exact List.map_id l
  refine ⟨(g.erase x).toList, l.map fun z => (z, someResponse), Finset.nodup_toList _,
    Finset.toList_toFinset _, by rwa [hfst], ?_, ?_, by rw [hfst]⟩
  · intro r hr
    obtain ⟨z, hz, rfl⟩ := List.mem_map.mp hr
    obtain ⟨hzg, hzx⟩ := hl z hz
    exact ⟨Finset.mem_toList.mpr (Finset.mem_erase.mpr ⟨hzx, hzg⟩), by simp [someResponse]⟩
  · have hlen : (g.erase x).toList.length = n := by
      rw [Finset.length_toList, Finset.card_erase_of_mem hx, hg]
      rfl
    rw [ReplicaContext.runsAt_iff (by simp [someResponse]) rfl]
    simp only [ReplicaContext.sendAndEncryptMsg, hlen, List.length_map, Nat.zero_add, ne_eq,
      List.map_eq_nil_iff]
    exact ⟨List.length_pos_iff.mp hpos, by omega, Or.inr (by omega)⟩

/-- **The servers split in two quorums** when `n_msgs` is odd and at least 3. -/
theorem exists_disjoint_quorums (hg : g.card = n + 1) (hn : ¬ (Even n ∨ n = 1)) :
    ∃ x ∈ g, ∃ y ∈ g, ∃ Q R, Quorum g x Q ∧ Quorum g y R ∧ Disjoint Q R := by
  rw [not_or, Nat.not_even_iff_odd] at hn
  obtain ⟨⟨m, hm⟩, hone⟩ := hn
  have hpos : 0 < m := by omega
  -- two coordinators, and half of the others for each
  match hl : g.toList with
  | [] | [_] =>
    have hlen := congrArg List.length hl
    rw [Finset.length_toList, hg] at hlen
    simp only [List.length_nil, List.length_cons] at hlen
    omega
  | x :: y :: rest =>
    have hlen := congrArg List.length hl
    rw [Finset.length_toList, hg] at hlen
    simp only [List.length_cons] at hlen
    have hnd : (x :: y :: rest).Nodup := hl ▸ Finset.nodup_toList g
    have hmem : ∀ z, z ∈ g ↔ z = x ∨ z = y ∨ z ∈ rest := by
      intro z
      rw [← Finset.mem_toList, hl]
      simp
    simp only [List.nodup_cons, List.mem_cons, not_or] at hnd
    obtain ⟨⟨hxy, hxr⟩, hyr, hrest⟩ := hnd
    have htake : ∀ z ∈ rest.take m, z ∈ rest := fun z hz => List.mem_of_mem_take hz
    have hdrop : ∀ z ∈ rest.drop m, z ∈ rest := fun z hz => List.mem_of_mem_drop hz
    have hdisj : ∀ z ∈ rest.take m, z ∉ rest.drop m := by
      have hnd' := hrest
      rw [← List.take_append_drop m rest, List.nodup_append] at hnd'
      exact fun z hz hz' => hnd'.2.2 z hz z hz' rfl
    refine ⟨x, (hmem x).mpr (Or.inl rfl), y, (hmem y).mpr (Or.inr (Or.inl rfl)),
      insert x (rest.take m).toFinset, insert y (rest.drop m).toFinset, ?_, ?_, ?_⟩
    · refine quorum_of_list hg ((hmem x).mpr (Or.inl rfl)) (hrest.sublist (List.take_sublist _ _))
        ?_ (by rw [List.length_take]; omega) (by rw [List.length_take]; omega)
      intro z hz
      exact ⟨(hmem z).mpr (Or.inr (Or.inr (htake z hz))), fun h => hxr (h ▸ htake z hz)⟩
    · refine quorum_of_list hg ((hmem y).mpr (Or.inr (Or.inl rfl)))
        (hrest.sublist (List.drop_sublist _ _)) ?_ (by rw [List.length_drop]; omega)
        (by rw [List.length_drop]; omega)
      intro z hz
      exact ⟨(hmem z).mpr (Or.inr (Or.inr (hdrop z hz))), fun h => hyr (h ▸ hdrop z hz)⟩
    · rw [Finset.disjoint_left]
      intro z hz hz'
      simp only [Finset.mem_insert, List.mem_toFinset] at hz hz'
      rcases hz with rfl | hz
      · rcases hz' with rfl | hz'
        · exact hxy rfl
        · exact hxr (hdrop _ hz')
      · rcases hz' with rfl | hz'
        · exact hyr (htake _ hz)
        · exact hdisj z hz hz'

/-- Two majorities of a group share a member. -/
theorem exists_mem_of_majorities (hQ : Q ⊆ g) (hR : R ⊆ g) (hQm : g.card < 2 * Q.card)
    (hRm : g.card < 2 * R.card) : ∃ z, z ∈ Q ∧ z ∈ R := by
  obtain ⟨z, hz⟩ := Finset.inter_nonempty_of_card_lt_card_add_card hQ hR (by omega)
  exact ⟨z, Finset.mem_inter.mp hz⟩

/-- **When quorums are majorities, and when they meet**: for an even number of replicas, and for a
single one. -/
theorem quorum_iff (hg : g.card = n + 1) (hn : 1 ≤ n) :
    ((∀ x ∈ g, ∀ Q, Quorum g x Q → g.card < 2 * Q.card) ↔ Even n ∨ n = 1) ∧
    ((∀ x ∈ g, ∀ y ∈ g, ∀ Q R, Quorum g x Q → Quorum g y R → ∃ z, z ∈ Q ∧ z ∈ R) ↔
      Even n ∨ n = 1) := by
  have hmaj : Even n ∨ n = 1 → ∀ x ∈ g, ∀ Q, Quorum g x Q → g.card < 2 * Q.card := by
    intro hcond x hx Q hQ
    obtain ⟨-, htwo, hhalf⟩ := hQ.card hg hx
    rcases hcond with ⟨m, rfl⟩ | rfl
    · omega
    · omega
  have hmeet : (∀ x ∈ g, ∀ Q, Quorum g x Q → g.card < 2 * Q.card) →
      ∀ x ∈ g, ∀ y ∈ g, ∀ Q R, Quorum g x Q → Quorum g y R → ∃ z, z ∈ Q ∧ z ∈ R :=
    fun h x hx y hy Q R hQ hR => exists_mem_of_majorities (hQ.card hg hx).1 (hR.card hg hy).1
      (h x hx Q hQ) (h y hy R hR)
  have hcond : (∀ x ∈ g, ∀ y ∈ g, ∀ Q R, Quorum g x Q → Quorum g y R → ∃ z, z ∈ Q ∧ z ∈ R) →
      Even n ∨ n = 1 := by
    intro h
    by_contra hne
    obtain ⟨x, hx, y, hy, Q, R, hQ, hR, hdisj⟩ := exists_disjoint_quorums hg hne
    obtain ⟨z, hzQ, hzR⟩ := h x hx y hy Q R hQ hR
    exact Finset.disjoint_left.mp hdisj hzQ hzR
  exact ⟨⟨fun h => hcond (hmeet h), hmaj⟩, ⟨hcond, fun h => hmeet (hmaj h)⟩⟩

end Quorums

theorem quorum_iff_three :
    ((∀ x ∈ (Finset.univ : Finset (Fin 3)), ∀ Q, Quorum Finset.univ x Q → 3 < 2 * Q.card) ↔
      Even 2 ∨ 2 = 1) ∧
    ((∀ x ∈ (Finset.univ : Finset (Fin 3)), ∀ y ∈ (Finset.univ : Finset (Fin 3)), ∀ Q R,
      Quorum Finset.univ x Q → Quorum Finset.univ y R → ∃ z, z ∈ Q ∧ z ∈ R) ↔ Even 2 ∨ 2 = 1) :=
  quorum_iff (g := (Finset.univ : Finset (Fin 3))) rfl (by decide)

/-- **Four servers, two disjoint quorums**: servers 0 and 2 each go on with one response. -/
theorem disjoint_quorums_four :
    Quorum (Finset.univ : Finset (Fin 4)) 0 {0, 1} ∧ Quorum (Finset.univ : Finset (Fin 4)) 2 {2, 3} ∧
      ¬ 4 < 2 * ({0, 1} : Finset (Fin 4)).card ∧ Disjoint ({0, 1} : Finset (Fin 4)) {2, 3} := by
  refine ⟨⟨[1, 2, 3], [(1, someResponse)], by decide, by decide, by decide, by decide, by decide,
    by decide⟩, ⟨[0, 1, 3], [(3, someResponse)], by decide, by decide, by decide, by decide,
    by decide, by decide⟩, by decide, by decide⟩

end Avocado
