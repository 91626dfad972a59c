/-
# When the servers agree on the groups

If no URI begins another one then every server has the servers in one order, that of the infos,
and all see the same groups (`order_eq`).  If `x`'s URI begins `y`'s, and `y` is the first of the
servers with such a URI, then `x` and `y` both put themselves at the same place of their order
(`place_eq_of_prefix`).  Some other place then has no server that puts itself there, and with
more than three servers there are positions that differ in these two places only, so they cannot
both be flagged by three servers.
-/
import Avocado.Abd.ReplicaGroups
import Mathlib.Data.Finset.Max

namespace Avocado

open Sorted Triples

variable {servers : List Member} {x y : Member} {args : Member → Args}

/-! ## 1. One order -/

/-- Without URIs that begin others, every server has the order of the infos. -/
theorem order_eq (hnd : (servers.map Member.uri).Nodup) (hx : x ∈ servers)
    (hfree : ∀ x ∈ servers, ∀ y ∈ servers, x.uri <+: y.uri → x = y) :
    order servers x = sortBy Member.info servers := by
  refine sortBy_congr (fun a ha b hb h => uri_inj hnd ha hb (Member.uri_eq_of_info_eq h)) ?_
  intro a ha b hb hle
  by_cases hax : a = x
  · by_cases hbx : b = x
    · rw [hax, hbx]
    · rw [hax, x.key_self, Member.key_of_ne hbx] at hle
      rw [hax]
      by_contra hlt
      have hpre := Member.uri_prefix_of_between (lt_of_le_of_ne hle (Member.uri_ne_info x b))
        (not_le.mp hlt)
      exact hbx (hfree x hx b hb hpre).symm
  · by_cases hbx : b = x
    · rw [hbx, x.key_self, Member.key_of_ne hax] at hle
      rw [hbx]
      exact le_trans hle (le_of_lt x.uri_lt_info)
    · rw [Member.key_of_ne hax, Member.key_of_ne hbx] at hle
      exact hle

theorem seen_congr (h : order servers x = order servers y) {t : Nat × Nat × Nat}
    (ht : t ∈ triples servers.length) : seen servers x t = seen servers y t := by
  refine Finset.image_congr fun i hi => ?_
  have hi' : i < (order servers y).length := by
    rw [length_order]
    exact Finset.mem_range.mp (toSet_subset ht hi)
  simp only [h]
  rw [List.getD_eq_getElem _ _ hi', List.getD_eq_getElem _ _ hi']

/-- Three servers see themselves. -/
theorem seen_eq_of_three (hnd : (servers.map Member.uri).Nodup) (h3 : servers.length = 3)
    (x : Member) {t : Nat × Nat × Nat} (ht : t ∈ triples servers.length) :
    seen servers x t = servers.toFinset := by
  refine Finset.eq_of_subset_of_card_le (fun y hy => ?_) ?_
  · exact List.mem_toFinset.mpr (seen_subset ht y hy)
  · rw [card_seen hnd ht, List.toFinset_card_of_nodup (nodup_servers hnd), h3]

/-! ## 2. The place of a server in its own order -/

/-- Where a server puts itself. -/
def place (servers : List Member) (x : Member) : Nat := (order servers x).idxOf x

theorem place_lt (hx : x ∈ servers) : place servers x < servers.length := by
  rw [← length_order servers x]
  exact List.idxOf_lt_length_of_mem ((order_perm servers x).mem_iff.mpr hx)

/-- A server sees itself where its place is one of the three. -/
theorem mem_seen_iff (hnd : (servers.map Member.uri).Nodup) (hx : x ∈ servers)
    {t : Nat × Nat × Nat} (ht : t ∈ triples servers.length) :
    x ∈ seen servers x t ↔ place servers x ∈ toSet t := by
  have hplace : (order servers x).getD (place servers x) x = x := by
    have hlt : place servers x < (order servers x).length := by
      rw [length_order]
      exact place_lt hx
    rw [List.getD_eq_getElem _ _ hlt]
    exact List.getElem_idxOf hlt
  constructor
  · intro hin
    obtain ⟨i, hi, heq⟩ := Finset.mem_image.mp hin
    have hilt := Finset.mem_range.mp (toSet_subset ht hi)
    rw [← order_getD_inj hnd hilt (place_lt hx) (heq.trans hplace.symm)]
    exact hi
  · intro hin
    exact Finset.mem_image.mpr ⟨_, hin, hplace⟩

/-- **A server's place** is the number of infos before its URI. -/
theorem place_eq_countP (hnd : (servers.map Member.uri).Nodup) (hx : x ∈ servers) :
    place servers x = servers.countP fun y => decide (y ≠ x ∧ y.info < x.uri) := by
  have hkeys : (servers.map x.key).Nodup :=
    List.Nodup.map_on (fun y hy z hz h => key_inj hnd x hy hz h) (nodup_servers hnd)
  rw [place, order, idxOf_eq_countP (pairwise_lt_sortBy hkeys)
    ((sortBy_perm x.key servers).mem_iff.mpr hx), (sortBy_perm x.key servers).countP_eq]
  refine List.countP_congr fun y _ => ?_
  simp only [decide_eq_true_eq, x.key_self]
  by_cases hyx : y = x
  · subst hyx
    simp [Member.key_self]
  · rw [Member.key_of_ne hyx]
    exact ⟨fun h => ⟨hyx, h⟩, fun h => h.2⟩

/-- **Two servers at one place**: `x` and the first server whose URI it begins. -/
theorem place_eq_of_prefix (hnd : (servers.map Member.uri).Nodup) (hx : x ∈ servers)
    (hy : y ∈ servers) (hne : x ≠ y) (hpre : x.uri <+: y.uri)
    (hmin : ∀ z ∈ servers, z ≠ x → x.uri <+: z.uri → y.info ≤ z.info) :
    place servers x = place servers y := by
  have huri : x.uri ≠ y.uri := fun h => hne (uri_inj hnd hx hy h)
  rw [place_eq_countP hnd hx, place_eq_countP hnd hy]
  refine List.countP_congr fun z hz => ?_
  rw [decide_eq_true_iff, decide_eq_true_iff]
  constructor
  · rintro ⟨-, hlt⟩
    refine ⟨?_, lt_of_lt_of_le hlt (prefix_le hpre)⟩
    rintro rfl
    exact absurd (lt_of_lt_of_le hlt (prefix_le hpre)) (not_lt_of_gt z.uri_lt_info)
  · rintro ⟨-, hlt⟩
    have hzx : z ≠ x := by
      rintro rfl
      exact absurd hlt (not_lt_of_gt (Member.uri_lt_info_of_prefix hpre huri))
    refine ⟨hzx, ?_⟩
    by_contra hge
    -- `z` would be an earlier server whose URI `x` begins
    obtain ⟨w, hw⟩ := hpre
    have hbetween : x.uri <+: z.info := prefix_of_between
      (lt_of_le_of_ne (not_lt.mp hge) (Member.uri_ne_info x z)) (hw.symm ▸ hlt)
    have hle := hmin z hz hzx (Member.uri_prefix_of_info hbetween)
    exact absurd (lt_of_lt_of_le (lt_trans hlt y.uri_lt_info) hle) (lt_irrefl _)

/-! ## 3. Flags -/

/-- The servers whose place is one of the three: those that set the flag. -/
def flagged (servers : List Member) (s : Finset Nat) : Finset Member :=
  servers.toFinset.filter fun x => place servers x ∈ s

theorem card_flagged (hnd : (servers.map Member.uri).Nodup)
    (hs : ∀ x ∈ servers, Started servers x (args x)) (h : Agree servers args)
    {s : Finset Nat} (hsub : s ⊆ Finset.range servers.length) (hcard : s.card = 3) :
    (flagged servers s).card = 3 := by
  obtain ⟨t, ht, rfl⟩ := exists_mem_triples hsub hcard
  obtain ⟨-, group, hgroup, -⟩ := h
  obtain ⟨p, hp, heq⟩ := List.getElem_of_mem ht
  have hget : (triples servers.length)[p]? = some t := heq ▸ List.getElem?_eq_getElem hp
  obtain ⟨hsubset, hthree, hentry⟩ := hgroup p (length_triples servers.length ▸ hp)
  have hset : flagged servers (toSet t) = group p := by
    ext x
    rw [flagged, Finset.mem_filter, List.mem_toFinset]
    have hiff : x ∈ servers → (x ∈ group p ↔ place servers x ∈ toSet t) := by
      intro hx
      obtain ⟨a, b, he, -⟩ := hentry x hx
      obtain ⟨a', b', he', -⟩ := permutations_spec hnd hx (hs x hx) hget
      rw [he, Option.some.injEq, Prod.mk.injEq, decide_eq_decide] at he'
      rw [he'.1, mem_seen_iff hnd hx ht]
    constructor
    · rintro ⟨hx, hin⟩
      exact (hiff hx).mpr hin
    · intro hin
      exact ⟨hsubset x hin, (hiff (hsubset x hin)).mp hin⟩
  rw [hset, hthree]

/-- When two servers have one place, some place has no server. -/
theorem exists_free_place (hx : x ∈ servers) (hy : y ∈ servers) (hne : x ≠ y)
    (hplace : place servers x = place servers y) :
    ∃ m < servers.length, ∀ z ∈ servers, place servers z ≠ m := by
  by_contra hall
  have hsub : Finset.range servers.length ⊆
      (servers.toFinset.erase x).image (place servers) := by
    intro m hm
    obtain ⟨z, hz, hzm⟩ : ∃ z ∈ servers, place servers z = m := by
      by_contra hno
      exact hall ⟨m, Finset.mem_range.mp hm, fun z hz hzm => hno ⟨z, hz, hzm⟩⟩
    by_cases hzx : z = x
    · exact Finset.mem_image.mpr ⟨y, Finset.mem_erase.mpr ⟨hne.symm, List.mem_toFinset.mpr hy⟩,
        by rw [← hplace, ← hzx, hzm]⟩
    · exact Finset.mem_image.mpr ⟨z, Finset.mem_erase.mpr ⟨hzx, List.mem_toFinset.mpr hz⟩, hzm⟩
  have hle := (Finset.card_le_card hsub).trans Finset.card_image_le
  have hlen := List.toFinset_card_le servers
  rw [Finset.card_range, Finset.card_erase_of_mem (List.mem_toFinset.mpr hx)] at hle
  have hpos : 0 < servers.toFinset.card := Finset.card_pos.mpr ⟨x, List.mem_toFinset.mpr hx⟩
  omega

/-- **Two servers at one place cannot agree**, if there are more than three. -/
theorem not_agree_of_place_eq (hnd : (servers.map Member.uri).Nodup)
    (hs : ∀ x ∈ servers, Started servers x (args x)) (hn : 4 ≤ servers.length) (hx : x ∈ servers)
    (hy : y ∈ servers) (hne : x ≠ y) (hplace : place servers x = place servers y) :
    ¬ Agree servers args := by
  intro hagree
  obtain ⟨m, hm, hfree⟩ := exists_free_place hx hy hne hplace
  have hmx : place servers x ≠ m := hfree x hx
  -- two more places
  have hrest : 1 < (Finset.range servers.length \ {place servers x, m}).card := by
    have hle := Finset.le_card_sdiff ({place servers x, m} : Finset Nat)
      (Finset.range servers.length)
    rw [Finset.card_range, Finset.card_pair hmx] at hle
    omega
  obtain ⟨a, ha, b, hb, hab⟩ := Finset.one_lt_card.mp hrest
  simp only [Finset.mem_sdiff, Finset.mem_range, Finset.mem_insert, Finset.mem_singleton,
    not_or] at ha hb
  have hthree : ∀ {c}, c < servers.length → c ≠ a → c ≠ b →
      (flagged servers {c, a, b}).card = 3 := by
    intro c hc hca hcb
    refine card_flagged hnd hs hagree ?_ (Finset.card_eq_three.mpr ⟨c, a, b, hca, hcb, hab, rfl⟩)
    intro i hi
    simp only [Finset.mem_insert, Finset.mem_singleton] at hi
    rw [Finset.mem_range]
    omega
  have h1 := hthree (place_lt hx) (Ne.symm ha.2.1) (Ne.symm hb.2.1)
  have h2 := hthree hm (Ne.symm ha.2.2) (Ne.symm hb.2.2)
  -- nobody is at `m`, two are at the place of `x`
  have hsub : insert x (insert y (flagged servers {m, a, b})) ⊆
      flagged servers {place servers x, a, b} := by
    intro z hz
    rw [flagged, Finset.mem_filter, List.mem_toFinset]
    rcases Finset.mem_insert.mp hz with rfl | hz
    · exact ⟨hx, by simp⟩
    · rcases Finset.mem_insert.mp hz with rfl | hz
      · exact ⟨hy, by simp [hplace]⟩
      · rw [flagged, Finset.mem_filter, List.mem_toFinset] at hz
        refine ⟨hz.1, ?_⟩
        have hzm := hfree z hz.1
        simp only [Finset.mem_insert, Finset.mem_singleton] at hz ⊢
        tauto
  have hout : ∀ {z}, place servers z = place servers x → z ∉ flagged servers {m, a, b} := by
    intro z hz hin
    have hin' := (Finset.mem_filter.mp hin).2
    rw [hz] at hin'
    simp only [Finset.mem_insert, Finset.mem_singleton] at hin'
    rcases hin' with h | h | h
    · exact hmx h
    · exact ha.2.1 h.symm
    · exact hb.2.1 h.symm
  have hcard := Finset.card_le_card hsub
  rw [Finset.card_insert_of_notMem, Finset.card_insert_of_notMem (hout hplace.symm), h1, h2] at hcard
  · omega
  · rw [Finset.mem_insert, not_or]
    exact ⟨hne, hout rfl⟩

/-! ## 4. Agreement -/

/-- **When the servers agree on the groups.**  For at least three servers with different URIs:
if and only if there are exactly three, or no server's URI begins another's. -/
theorem agree_iff (hn : 3 ≤ servers.length) (hnd : (servers.map Member.uri).Nodup)
    (hs : ∀ x ∈ servers, Started servers x (args x)) :
    Agree servers args ↔
      servers.length = 3 ∨ ∀ x ∈ servers, ∀ y ∈ servers, x.uri <+: y.uri → x = y := by
  constructor
  · intro hagree
    by_contra hnot
    rw [not_or] at hnot
    obtain ⟨h3, hnot⟩ := hnot
    obtain ⟨x, hx, y, hy, hpre, hne⟩ : ∃ x ∈ servers, ∃ y ∈ servers, x.uri <+: y.uri ∧ x ≠ y := by
      by_contra hno
      exact hnot fun x hx y hy hpre => by
        by_contra hne
        exact hno ⟨x, hx, y, hy, hpre, hne⟩
    obtain ⟨z, hz, hmin⟩ := Finset.exists_min_image
      (servers.toFinset.filter fun z => z ≠ x ∧ x.uri <+: z.uri) Member.info
      ⟨y, Finset.mem_filter.mpr ⟨List.mem_toFinset.mpr hy, hne.symm, hpre⟩⟩
    obtain ⟨hz, hzx, hzpre⟩ := Finset.mem_filter.mp hz
    rw [List.mem_toFinset] at hz
    have hplace := place_eq_of_prefix hnd hx hz hzx.symm hzpre fun w hw hwx hwpre =>
      hmin w (Finset.mem_filter.mpr ⟨List.mem_toFinset.mpr hw, hwx, hwpre⟩)
    exact not_agree_of_place_eq hnd hs (by omega) hx hz hzx.symm hplace hagree
  · intro hcond
    obtain ⟨x, hx⟩ := List.exists_mem_of_length_pos (show 0 < servers.length by omega)
    refine agree_of_seen hnd hs (x := x) fun y hy t ht => ?_
    rcases hcond with h3 | hfree
    · rw [seen_eq_of_three hnd h3 y ht, seen_eq_of_three hnd h3 x ht]
    · exact seen_congr (by rw [order_eq hnd hy hfree, order_eq hnd hx hfree]) ht

/-! ## 5. Two deployments -/

/-- `ip:80:1`. -/
def port80 (ip : List Char) (h : ':' ∉ ip) : Member := ⟨ip, ['8', '0'], ['1'], h, by simp⟩

/-- `ip:8080:1`. -/
def port8080 (ip : List Char) (h : ':' ∉ ip) : Member :=
  ⟨ip, ['8', '0', '8', '0'], ['1'], h, by simp⟩

/-- The command line of a server, with the others in the order of the deployment. -/
def argsOf (servers : List Member) (x : Member) : Args :=
  ⟨x.uri, (servers.erase x).map Member.info⟩

/-- Four hosts, each with one server. -/
def fourHosts : List Member :=
  [port8080 ['a'] (by decide), port80 ['b'] (by decide), port80 ['c'] (by decide),
    port80 ['d'] (by decide)]

theorem agree_iff_fourHosts : Agree fourHosts (argsOf fourHosts) :=
  (agree_iff (by decide) (by decide +kernel) fun _ _ => ⟨rfl, .refl _⟩).mpr
    (Or.inr (by decide +kernel))

/-- Three hosts; the first has two servers, on ports 80 and 8080. -/
def twoPorts : List Member :=
  [port80 ['a'] (by decide), port8080 ['a'] (by decide), port80 ['b'] (by decide),
    port80 ['c'] (by decide)]

/-- **The servers disagree.**  At the last of the four positions only two of them have the
flag. -/
theorem not_agree_twoPorts :
    (twoPorts.map Member.uri).Nodup ∧ (∀ x ∈ twoPorts, Started twoPorts x (argsOf twoPorts x)) ∧
      ¬ Agree twoPorts (argsOf twoPorts) := by
  refine ⟨by decide +kernel, fun _ _ => ⟨rfl, .refl _⟩, ?_⟩
  rintro ⟨-, group, hgroup, -⟩
  obtain ⟨hsub, hcard, hentry⟩ := hgroup 3 (by decide)
  have hflags : twoPorts.map (fun x => ((permutations (argsOf twoPorts x))[3]?).map Prod.fst) =
      [some false, some false, some true, some true] := by decide +kernel
  have hpair : group 3 ⊆ {port80 ['b'] (by decide), port80 ['c'] (by decide)} := by
    intro x hx
    obtain ⟨a, b, he, -⟩ := hentry x (hsub x hx)
    have hflag : ((permutations (argsOf twoPorts x))[3]?).map Prod.fst = some true := by
      simp [he, hx]
    have hmem := hsub x hx
    simp only [twoPorts, List.map_cons, List.map_nil, List.cons.injEq] at hflags
    simp only [twoPorts, List.mem_cons, List.not_mem_nil, or_false] at hmem
    rcases hmem with rfl | rfl | rfl | rfl
    · exact absurd (hflags.1.symm.trans hflag) (by decide)
    · exact absurd (hflags.2.1.symm.trans hflag) (by decide)
    · simp
    · simp
  have hle := Finset.card_le_card hpair
  rw [hcard, Finset.card_pair (by decide)] at hle
  omega

end Avocado
