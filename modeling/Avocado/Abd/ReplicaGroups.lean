/-
# Replica groups (`server.cpp`, `permutations`)

Every server computes on its own which three servers hold the keys of a group: it sorts the
servers, itself included, runs over all index triples, and marks those that it is a member of,
with the places of the other two in its sorted `replica_info`.  A key is routed by the position
of its group alone, so all servers must visit the same three servers at the same position
(`Agree`).

A server sorts the others by `ip:port:threads` but itself by `ip:port`, as it was given to `-u`;
`get_uri_from_server_info`, which strips the suffix, is not applied.  The two orders differ when
one URI begins another one, such as `h:80` and `h:8080`: the server of the shorter URI puts itself
in front of the other, and nobody else does.  With more than three servers the groups then differ
(`agree_iff`).
-/
import Avocado.Lib.Sorted
import Avocado.Lib.Triples
import Mathlib.Data.Char
import Mathlib.Data.List.GetD

namespace Avocado

open Sorted Triples

/-! ## 1. The code -/

/-- What `permutations` reads of `struct Args`. -/
structure Args where
  uri : List Char
  replicaInfo : List (List Char)

/-- `args.replica_info` after `std::sort`. -/
def Args.sortedInfo (args : Args) : List (List Char) := sortBy id args.replicaInfo

/-- The body of the loops: whether this server, marked -1, is one of the three, and the places of
the other two. -/
def groupEntry (a b c : Int) : Bool × Nat × Nat :=
  if a = -1 then (true, (min b c).toNat, (max b c).toNat)
  else if b = -1 then (true, (min a c).toNat, (max a c).toNat)
  else if c = -1 then (true, (min a b).toNat, (max a b).toNat)
  else (false, (min a b).toNat, (max a b).toNat)

/-- `tmp` after `std::sort`: this server's own URI, marked -1, and the entries of `replica_info`
with their places. -/
def Args.tmp (args : Args) : List (Int × List Char) :=
  sortBy Prod.snd
    ((-1, args.uri) :: args.sortedInfo.zipIdx.map fun (r, i) => ((i : Int), r))

/-- `permutations`. -/
def permutations (args : Args) : List (Bool × Nat × Nat) :=
  let at_ := fun i => (args.tmp.getD i (0, [])).1
  (triples args.tmp.length).map fun (i, j, k) => groupEntry (at_ i) (at_ j) (at_ k)

/-! ## 2. The servers of a deployment -/

/-- A server as the command lines name it.  Neither address nor port has a colon, and a port is a
number. -/
structure Member where
  ip : List Char
  port : List Char
  threads : List Char
  ip_colon : ':' ∉ ip
  port_digits : ∀ c ∈ port, c.isDigit
  deriving DecidableEq

namespace Member

/-- `ip:port`, the argument of `-u`. -/
def uri (x : Member) : List Char := x.ip ++ ':' :: x.port

/-- `ip:port:threads`, the argument of `-a`. -/
def info (x : Member) : List Char := x.uri ++ ':' :: x.threads

end Member

/-- Server `x` was started with its own URI and the others' infos, in any order. -/
def Started (servers : List Member) (x : Member) (args : Args) : Prop :=
  args.uri = x.uri ∧ args.replicaInfo.Perm ((servers.erase x).map Member.info)

/-- **All servers agree on the groups.**  Their vectors have one entry for each set of three
servers, and at each position there is one set such that exactly its members have the flag, and
their two places are those of the other two members in `replica_info`. -/
def Agree (servers : List Member) (args : Member → Args) : Prop :=
  let n := servers.length
  let len := n * (n - 1) * (n - 2) / 6
  (∀ x ∈ servers, (permutations (args x)).length = len) ∧
  ∃ group : Nat → Finset Member,
    (∀ p < len, (∀ x ∈ group p, x ∈ servers) ∧ (group p).card = 3 ∧
      ∀ x ∈ servers, ∃ a b, (permutations (args x))[p]? = some (decide (x ∈ group p), a, b) ∧
        (x ∈ group p → ∃ y z, (args x).sortedInfo[a]? = some y.info ∧
          (args x).sortedInfo[b]? = some z.info ∧ group p = {x, y, z})) ∧
    ∀ g : Finset Member, (∀ x ∈ g, x ∈ servers) → g.card = 3 → ∃! p, p < len ∧ group p = g

/-! ## 3. The order of URIs and infos -/

namespace Member

variable {x y z : Member}

theorem port_colon (x : Member) : ':' ∉ x.port := by
  intro h
  exact absurd (x.port_digits ':' h) (by decide)

/-- An info tells the URI. -/
theorem uri_prefix_info (x : Member) : x.uri <+: x.info := List.prefix_append _ _

/-- **A URI that begins an info begins its URI.** -/
theorem uri_prefix_of_info (h : x.uri <+: y.info) : x.uri <+: y.uri := by
  have h' : x.ip ++ ':' :: x.port <+: y.ip ++ ':' :: (y.port ++ ':' :: y.threads) := by
    simpa [uri, info] using h
  obtain ⟨hip, hport⟩ := field_eq y.ip_colon x.ip_colon h'
  rw [uri, uri, hip, List.prefix_append_right_inj, List.cons_prefix_cons]
  exact ⟨rfl, prefix_field x.port_colon hport⟩

theorem uri_eq_of_info_eq (h : x.info = y.info) : x.uri = y.uri := by
  have hxy : x.uri <+: y.uri := uri_prefix_of_info (h ▸ x.uri_prefix_info)
  have hyx : y.uri <+: x.uri := uri_prefix_of_info (h ▸ y.uri_prefix_info)
  exact hxy.eq_of_length_le hyx.length_le

theorem uri_lt_info (x : Member) : x.uri < x.info := lt_append _ _ _

/-- No URI is an info. -/
theorem uri_ne_info (x y : Member) : x.uri ≠ y.info := by
  intro h
  have hpre : x.uri <+: y.uri := uri_prefix_of_info (h ▸ List.prefix_rfl)
  have hlen := hpre.length_le
  rw [h] at hlen
  simp only [info, List.length_append, List.length_cons] at hlen
  omega

/-- **What lies between a URI and its info** is the info of a URI that it begins. -/
theorem uri_prefix_of_between (h : x.uri < y.info) (h' : y.info < x.info) : x.uri <+: y.uri :=
  uri_prefix_of_info (prefix_of_between h h')

/-- A URI that is extended comes before the extension, and its info comes after: a digit is
smaller than the colon. -/
theorem uri_lt_info_of_prefix (h : x.uri <+: y.uri) (hne : x.uri ≠ y.uri) : y.uri < x.info := by
  obtain ⟨w, hw⟩ := h
  cases w with
  | nil => exact absurd (by simpa using hw) hne
  | cons c w =>
    have hc : c ∈ y.port := by
      have h' : x.ip ++ ':' :: (x.port ++ c :: w) <+: y.ip ++ ':' :: y.port := by
        have heq : x.ip ++ ':' :: (x.port ++ c :: w) = y.ip ++ ':' :: y.port := by
          simpa [uri] using hw
        exact heq ▸ List.prefix_rfl
      obtain ⟨-, hport⟩ := field_eq y.ip_colon x.ip_colon h'
      exact hport.subset (by simp)
    have hlt : c < ':' := by
      have hdigit := y.port_digits c hc
      simp only [Char.isDigit, Bool.and_eq_true, decide_eq_true_eq] at hdigit
      have hnine : c ≤ '9' := hdigit.2
      exact lt_of_le_of_lt hnine (by decide)
    rw [← hw]
    exact append_lt_append _ (List.cons_lt_cons_iff.mpr (Or.inl hlt))

end Member

/-! ## 4. What one server computes -/

/-- What server `x` sorts the servers by. -/
def Member.key (x y : Member) : List Char := if y = x then x.uri else y.info

/-- The servers in the order of server `x`. -/
def order (servers : List Member) (x : Member) : List Member := sortBy x.key servers

/-- The element of `tmp` that stands for `y`. -/
def Member.tag (x : Member) (args : Args) (y : Member) : Int × List Char :=
  (if y = x then -1 else (args.sortedInfo.idxOf y.info : Nat), x.key y)

/-- The three servers at the index triple `t`, in the order of server `x`. -/
def seen (servers : List Member) (x : Member) (t : Nat × Nat × Nat) : Finset Member :=
  (toSet t).image fun i => (order servers x).getD i x

section Server

variable {servers : List Member} {x y z : Member} {args : Args}

theorem Member.key_self (x : Member) : x.key x = x.uri := if_pos rfl

theorem Member.key_of_ne (h : y ≠ x) : x.key y = y.info := if_neg h

theorem uri_inj (hnd : (servers.map Member.uri).Nodup) (hy : y ∈ servers) (hz : z ∈ servers)
    (h : y.uri = z.uri) : y = z :=
  List.inj_on_of_nodup_map hnd hy hz h

theorem key_inj (hnd : (servers.map Member.uri).Nodup) (x : Member) (hy : y ∈ servers)
    (hz : z ∈ servers) (h : x.key y = x.key z) : y = z := by
  by_cases hyx : y = x
  · by_cases hzx : z = x
    · rw [hyx, hzx]
    · rw [hyx, x.key_self, Member.key_of_ne hzx] at h
      exact absurd h (Member.uri_ne_info x z)
  · by_cases hzx : z = x
    · rw [hzx, x.key_self, Member.key_of_ne hyx] at h
      exact absurd h.symm (Member.uri_ne_info x y)
    · rw [Member.key_of_ne hyx, Member.key_of_ne hzx] at h
      exact uri_inj hnd hy hz (Member.uri_eq_of_info_eq h)

theorem order_perm (servers : List Member) (x : Member) : (order servers x).Perm servers :=
  sortBy_perm _ _

theorem length_order (servers : List Member) (x : Member) :
    (order servers x).length = servers.length := (order_perm servers x).length_eq

theorem nodup_servers (hnd : (servers.map Member.uri).Nodup) : servers.Nodup := hnd.of_map

theorem nodup_order (hnd : (servers.map Member.uri).Nodup) (x : Member) :
    (order servers x).Nodup := (order_perm servers x).nodup_iff.mpr (nodup_servers hnd)

theorem sortedInfo_perm (hs : Started servers x args) :
    args.sortedInfo.Perm ((servers.erase x).map Member.info) :=
  (sortBy_perm _ _).trans hs.2

theorem nodup_sortedInfo (hnd : (servers.map Member.uri).Nodup) (hs : Started servers x args) :
    args.sortedInfo.Nodup := by
  refine (sortedInfo_perm hs).nodup_iff.mpr (List.Nodup.map_on ?_ ((nodup_servers hnd).erase x))
  intro y hy z hz h
  exact uri_inj hnd (List.mem_of_mem_erase hy) (List.mem_of_mem_erase hz)
    (Member.uri_eq_of_info_eq h)

/-- **`tmp` is the list of all servers**, in the order of this one. -/
theorem tmp_eq (hnd : (servers.map Member.uri).Nodup) (hx : x ∈ servers)
    (hs : Started servers x args) : args.tmp = (order servers x).map (x.tag args) := by
  have hothers : (args.sortedInfo.zipIdx.map fun (r, i) => ((i : Int), r)).Perm
      ((servers.erase x).map (x.tag args)) := by
    have htag : (servers.erase x).map (x.tag args) =
        ((servers.erase x).map Member.info).map fun r => ((args.sortedInfo.idxOf r : Int), r) := by
      rw [List.map_map]
      refine List.map_congr_left fun y hy => ?_
      have hyx : y ≠ x := ((nodup_servers hnd).mem_erase_iff.mp hy).1
      simp only [Member.tag, if_neg hyx, Member.key_of_ne hyx, Function.comp]
    rw [htag, zipIdx_eq_map_idxOf (nodup_sortedInfo hnd hs), List.map_map]
    exact (sortedInfo_perm hs).map fun r => ((args.sortedInfo.idxOf r : Int), r)
  have hself : x.tag args x = (-1, args.uri) := by
    simp only [Member.tag, if_pos, x.key_self, hs.1]
  have hperm : args.tmp.Perm ((order servers x).map (x.tag args)) := by
    refine (sortBy_perm _ _).trans ?_
    rw [← hself]
    refine (List.Perm.cons _ hothers).trans ?_
    rw [← List.map_cons]
    exact ((List.perm_cons_erase hx).symm.trans (order_perm servers x).symm).map _
  refine eq_of_perm_of_sorted ?_ hperm (pairwise_sortBy Prod.snd _) ?_
  · intro a ha b hb heq
    obtain ⟨y, hy, rfl⟩ := List.mem_map.mp (hperm.mem_iff.mp ha)
    obtain ⟨z, hz, rfl⟩ := List.mem_map.mp (hperm.mem_iff.mp hb)
    rw [key_inj hnd x ((order_perm servers x).mem_iff.mp hy) ((order_perm servers x).mem_iff.mp hz)
      heq]
  · exact List.pairwise_map.mpr (pairwise_sortBy _ _)

theorem length_tmp (hnd : (servers.map Member.uri).Nodup) (hx : x ∈ servers)
    (hs : Started servers x args) : args.tmp.length = servers.length := by
  rw [tmp_eq hnd hx hs, List.length_map, length_order]

/-- All vectors have one length. -/
theorem length_permutations (hnd : (servers.map Member.uri).Nodup) (hx : x ∈ servers)
    (hs : Started servers x args) : (permutations args).length =
      servers.length * (servers.length - 1) * (servers.length - 2) / 6 := by
  rw [permutations, List.length_map, length_tmp hnd hx hs, length_triples]

/-- The places of two other servers, the smaller one first. -/
theorem sortedInfo_min_max (hs : Started servers x args) (hnd : (servers.map Member.uri).Nodup)
    (hy : y ∈ servers) (hz : z ∈ servers) (hyx : y ≠ x) (hzx : z ≠ x) :
    ∃ y' z', args.sortedInfo[(min (x.tag args y).1 (x.tag args z).1).toNat]? = some y'.info ∧
      args.sortedInfo[(max (x.tag args y).1 (x.tag args z).1).toNat]? = some z'.info ∧
      ((y' = y ∧ z' = z) ∨ (y' = z ∧ z' = y)) := by
  have hat : ∀ {w}, w ∈ servers → w ≠ x →
      args.sortedInfo[args.sortedInfo.idxOf w.info]? = some w.info := by
    intro w hw hwx
    refine List.getElem?_idxOf ((sortedInfo_perm hs).mem_iff.mpr ?_)
    exact List.mem_map_of_mem ((nodup_servers hnd).mem_erase_iff.mpr ⟨hwx, hw⟩)
  simp only [Member.tag, if_neg hyx, if_neg hzx]
  rcases le_total (args.sortedInfo.idxOf y.info) (args.sortedInfo.idxOf z.info) with hle | hle
  · rw [min_eq_left (by exact_mod_cast hle), max_eq_right (by exact_mod_cast hle)]
    exact ⟨y, z, hat hy hyx, hat hz hzx, Or.inl ⟨rfl, rfl⟩⟩
  · rw [min_eq_right (by exact_mod_cast hle), max_eq_left (by exact_mod_cast hle)]
    exact ⟨z, y, hat hz hzx, hat hy hyx, Or.inr ⟨rfl, rfl⟩⟩

/-- **One entry of the vector**: the flag says whether this server is one of the three, and then
the two places are those of the other two. -/
theorem groupEntry_spec (hs : Started servers x args) (hnd : (servers.map Member.uri).Nodup)
    {u v w : Member} (hu : u ∈ servers) (hv : v ∈ servers) (hw : w ∈ servers) (huv : u ≠ v)
    (huw : u ≠ w) (hvw : v ≠ w) :
    ∃ a b, groupEntry (x.tag args u).1 (x.tag args v).1 (x.tag args w).1 =
        (decide (x ∈ ({u, v, w} : Finset Member)), a, b) ∧
      (x ∈ ({u, v, w} : Finset Member) → ∃ y z, args.sortedInfo[a]? = some y.info ∧
        args.sortedInfo[b]? = some z.info ∧ ({u, v, w} : Finset Member) = {x, y, z}) := by
  have hself : (x.tag args x).1 = -1 := if_pos rfl
  have hother : ∀ {m}, m ≠ x → (x.tag args m).1 ≠ -1 := by
    intro m hm
    simp only [Member.tag, if_neg hm]
    omega
  have hset : ∀ {y' z' y z : Member}, (y' = y ∧ z' = z) ∨ (y' = z ∧ z' = y) →
      ({x, y, z} : Finset Member) = {x, y', z'} := by
    rintro y' z' y z (⟨rfl, rfl⟩ | ⟨rfl, rfl⟩)
    · rfl
    · rw [Finset.pair_comm]
  by_cases hux : u = x
  · subst hux
    obtain ⟨y', z', hy', hz', hyz⟩ := sortedInfo_min_max hs hnd hv hw huv.symm huw.symm
    refine ⟨_, _, ?_, fun _ => ⟨y', z', hy', hz', hset hyz⟩⟩
    simp [groupEntry, hself]
  · by_cases hvx : v = x
    · subst hvx
      obtain ⟨y', z', hy', hz', hyz⟩ := sortedInfo_min_max hs hnd hu hw hux hvw.symm
      refine ⟨_, _, ?_, fun _ => ⟨y', z', hy', hz', ?_⟩⟩
      · simp [groupEntry, hself, hother hux]
      · rw [Finset.insert_comm]
        exact hset hyz
    · by_cases hwx : w = x
      · subst hwx
        obtain ⟨y', z', hy', hz', hyz⟩ := sortedInfo_min_max hs hnd hu hv hux hvx
        refine ⟨_, _, ?_, fun _ => ⟨y', z', hy', hz', ?_⟩⟩
        · simp [groupEntry, hself, hother hux, hother hvx]
        · rw [Finset.pair_comm, Finset.insert_comm]
          exact hset hyz
      · have hnot : x ∉ ({u, v, w} : Finset Member) := by
          simp [Ne.symm hux, Ne.symm hvx, Ne.symm hwx]
        refine ⟨(groupEntry (x.tag args u).1 (x.tag args v).1 (x.tag args w).1).2.1,
          (groupEntry (x.tag args u).1 (x.tag args v).1 (x.tag args w).1).2.2, ?_,
          fun hin => absurd hin hnot⟩
        simp [groupEntry, hother hux, hother hvx, hother hwx, hnot]

theorem mem_order_getD {i : Nat} (hi : i < servers.length) :
    (order servers x).getD i x ∈ servers := by
  have hi' : i < (order servers x).length := (length_order servers x).symm ▸ hi
  rw [List.getD_eq_getElem _ _ hi']
  exact (order_perm servers x).mem_iff.mp (List.getElem_mem hi')

theorem order_getD_inj (hnd : (servers.map Member.uri).Nodup) {i j : Nat}
    (hi : i < servers.length) (hj : j < servers.length)
    (h : (order servers x).getD i x = (order servers x).getD j x) : i = j := by
  have hi' : i < (order servers x).length := (length_order servers x).symm ▸ hi
  have hj' : j < (order servers x).length := (length_order servers x).symm ▸ hj
  rw [List.getD_eq_getElem _ _ hi', List.getD_eq_getElem _ _ hj'] at h
  exact (nodup_order hnd x).getElem_inj_iff.mp h

/-- **The vector of a server**: at the position of the triple `t` it has the flag if it sees
itself there, with the places of the other two that it sees. -/
theorem permutations_spec (hnd : (servers.map Member.uri).Nodup) (hx : x ∈ servers)
    (hs : Started servers x args) {p : Nat} {t : Nat × Nat × Nat}
    (ht : (triples servers.length)[p]? = some t) :
    ∃ a b, (permutations args)[p]? = some (decide (x ∈ seen servers x t), a, b) ∧
      (x ∈ seen servers x t → ∃ y z, args.sortedInfo[a]? = some y.info ∧
        args.sortedInfo[b]? = some z.info ∧ seen servers x t = {x, y, z}) := by
  obtain ⟨i, j, k⟩ := t
  obtain ⟨hij, hjk, hk⟩ := mem_triples.mp (List.mem_of_getElem? ht)
  have hat : ∀ {m : Nat}, m < servers.length →
      (args.tmp.getD m (0, [])).1 = (x.tag args ((order servers x).getD m x)).1 := by
    intro m hm
    have hm' : m < (order servers x).length := (length_order servers x).symm ▸ hm
    rw [tmp_eq hnd hx hs, List.getD_eq_getElem _ _ (by simpa using hm'), List.getElem_map,
      List.getD_eq_getElem _ _ hm']
  have hne : ∀ {l m : Nat}, l < m → m < servers.length →
      (order servers x).getD l x ≠ (order servers x).getD m x := by
    intro l m hlm hm h
    exact absurd (order_getD_inj hnd (by omega) hm h) (by omega)
  have hseen : seen servers x (i, j, k) = {(order servers x).getD i x, (order servers x).getD j x,
      (order servers x).getD k x} := by
    simp only [seen, toSet, Finset.image_insert, Finset.image_singleton]
  obtain ⟨a, b, he, hplaces⟩ := groupEntry_spec hs hnd
    (mem_order_getD (x := x) (show i < servers.length by omega))
    (mem_order_getD (x := x) (show j < servers.length by omega)) (mem_order_getD (x := x) hk)
    (hne hij (by omega)) (hne (by omega) hk) (hne hjk hk)
  refine ⟨a, b, ?_, hseen ▸ hplaces⟩
  rw [permutations, List.getElem?_map, length_tmp hnd hx hs, ht, Option.map_some, hseen, ← he]
  simp only [hat (show i < servers.length by omega), hat (show j < servers.length by omega), hat hk]

/-! ## 5. Servers that see the same groups -/

theorem seen_subset {t : Nat × Nat × Nat} (ht : t ∈ triples servers.length) :
    ∀ y ∈ seen servers x t, y ∈ servers := by
  intro y hy
  obtain ⟨i, hi, rfl⟩ := Finset.mem_image.mp hy
  exact mem_order_getD (Finset.mem_range.mp (toSet_subset ht hi))

theorem card_seen (hnd : (servers.map Member.uri).Nodup) {t : Nat × Nat × Nat}
    (ht : t ∈ triples servers.length) : (seen servers x t).card = 3 := by
  rw [seen, Finset.card_image_of_injOn, card_toSet ht]
  intro i hi j hj h
  exact order_getD_inj hnd (Finset.mem_range.mp (toSet_subset ht hi))
    (Finset.mem_range.mp (toSet_subset ht hj)) h

theorem seen_inj (hnd : (servers.map Member.uri).Nodup) {t t' : Nat × Nat × Nat}
    (ht : t ∈ triples servers.length) (ht' : t' ∈ triples servers.length)
    (h : seen servers x t = seen servers x t') : t = t' := by
  have hsub : ∀ {t t'}, t ∈ triples servers.length → t' ∈ triples servers.length →
      seen servers x t = seen servers x t' → toSet t ⊆ toSet t' := by
    intro t t' ht ht' h i hi
    have hin : (order servers x).getD i x ∈ seen servers x t' := h ▸ Finset.mem_image_of_mem _ hi
    obtain ⟨j, hj, heq⟩ := Finset.mem_image.mp hin
    rw [← order_getD_inj hnd (Finset.mem_range.mp (toSet_subset ht' hj))
      (Finset.mem_range.mp (toSet_subset ht hi)) heq]
    exact hj
  exact toSet_injOn ht ht' (Finset.Subset.antisymm (hsub ht ht' h) (hsub ht' ht h.symm))

/-- Every three servers are seen somewhere. -/
theorem exists_seen (hnd : (servers.map Member.uri).Nodup) (x : Member) {g : Finset Member}
    (hg : ∀ y ∈ g, y ∈ servers) (hcard : g.card = 3) :
    ∃ t ∈ triples servers.length, seen servers x t = g := by
  have himage : ((Finset.range servers.length).filter
      fun i => (order servers x).getD i x ∈ g).image (fun i => (order servers x).getD i x) = g := by
    ext y
    rw [Finset.mem_image]
    constructor
    · rintro ⟨i, hi, rfl⟩
      exact (Finset.mem_filter.mp hi).2
    · intro hy
      obtain ⟨i, hi, heq⟩ := List.getElem_of_mem ((order_perm servers x).mem_iff.mpr (hg y hy))
      have hget : (order servers x).getD i x = y := by rw [List.getD_eq_getElem _ _ hi, heq]
      rw [length_order] at hi
      exact ⟨i, Finset.mem_filter.mpr ⟨Finset.mem_range.mpr hi, hget ▸ hy⟩, hget⟩
  have hinj : Set.InjOn (fun i => (order servers x).getD i x)
      ((Finset.range servers.length).filter fun i => (order servers x).getD i x ∈ g) := by
    intro i hi j hj h
    exact order_getD_inj hnd (Finset.mem_range.mp (Finset.mem_filter.mp hi).1)
      (Finset.mem_range.mp (Finset.mem_filter.mp hj).1) h
  obtain ⟨t, ht, heq⟩ := exists_mem_triples (Finset.filter_subset _ _)
    (by rw [← Finset.card_image_of_injOn hinj, himage, hcard])
  exact ⟨t, ht, by rw [seen, heq, himage]⟩

/-- **Servers that see the same three at every position agree.** -/
theorem agree_of_seen {args : Member → Args} (hnd : (servers.map Member.uri).Nodup)
    (hs : ∀ x ∈ servers, Started servers x (args x))
    (hsame : ∀ y ∈ servers, ∀ t ∈ triples servers.length, seen servers y t = seen servers x t) :
    Agree servers args := by
  have hpos : ∀ p < servers.length * (servers.length - 1) * (servers.length - 2) / 6,
      ∃ t, (triples servers.length)[p]? = some t := by
    intro p hp
    rw [← length_triples] at hp
    exact ⟨_, List.getElem?_eq_getElem hp⟩
  refine ⟨fun y hy => length_permutations hnd hy (hs y hy),
    fun p => ((triples servers.length)[p]?).elim ∅ (seen servers x), ?_, ?_⟩
  · intro p hp
    obtain ⟨t, ht⟩ := hpos p hp
    have hmem : t ∈ triples servers.length := List.mem_of_getElem? ht
    simp only [ht, Option.elim_some]
    refine ⟨seen_subset hmem, card_seen hnd hmem, fun y hy => ?_⟩
    rw [← hsame y hy t hmem]
    exact permutations_spec hnd hy (hs y hy) ht
  · intro g hg hcard
    obtain ⟨t, ht, rfl⟩ := exists_seen hnd x hg hcard
    obtain ⟨p, hp, heq⟩ := List.getElem_of_mem ht
    have hget : (triples servers.length)[p]? = some t := heq ▸ List.getElem?_eq_getElem hp
    refine ⟨p, ⟨length_triples servers.length ▸ hp, by simp [hget]⟩, ?_⟩
    rintro q ⟨hq, hseen⟩
    obtain ⟨t', ht'⟩ := hpos q hq
    simp only [ht', Option.elim_some] at hseen
    have htt : t' = t := seen_inj hnd (List.mem_of_getElem? ht') ht hseen
    rw [htt, ← hget] at ht'
    exact (List.getElem?_inj (length_triples servers.length ▸ hq) (nodup_triples _)).mp ht'

end Server

end Avocado
