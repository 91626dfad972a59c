/-
# Skipping the write-back

`RetValue` writes back what it returns unless some clock was reported more than `n_msgs / 2` times.
The continuation runs with the first response that passes the threshold, and there are then at
most `n_msgs / 2` responses: the exception never applies, but for `n_msgs = 1`, where the single
response is more than `1 / 2 = 0`.

With one replica it always applies, whatever the clocks are.  The value that is returned is the
newer of two entries, and the other server has it only if the clocks are equal.

A get can only be safe if it comes to a result.  It copies every newer response into `tmp`, and
writes back the key range of the last copy; with more than one replica the copies have to fit
(`NewerFit`), and that is all (`safeSkip_iff`).  With one replica a newer response is wrong whether
it fits or not.
-/
import Avocado.Abd.Newest
import Avocado.Abd.Quorum

namespace Avocado

open Bytes Records

/-! ## 1. The property -/

/-- A get that returns a value and does not write it back: more than half of the `n + 1` servers,
the coordinator with its own entry and those that responded, have a clock as great as the value's. -/
def SafeSkip (n : Nat) (loc : RetValue) (ts : List Lamport) (r : ReadResult) : Prop :=
  r.writeBack = none → 0 < r.buf.size → n + 1 < 2 * (loc.lamport :: ts).countP (r.clock ≤ ·)

/-- The newer responses fit: each one that is newer than the local entry and than all responses
before it can be copied into `tmp`, the key range that is read of the copy is inside `tmp`, and the
size of the message that it is written back with does not wrap. -/
def NewerFit (maxPackageSize : Nat) (key : List UInt8) (t : Lamport)
    (es : List (Lamport × List UInt8)) : Prop :=
  ∀ e ∈ records Prod.fst t es, key.length + 8 + e.2.length ≤ maxPackageSize ∧
    24 + key.length ≤ maxPackageSize ∧ 32 + 2 * key.length < 2 ^ 64

/-! ## 2. The counts -/

theorem bump_le {counts : List (Lamport × Nat)} {m : Nat} (h : ∀ c ∈ counts, c.2 ≤ m)
    (t : Lamport) : ∀ c ∈ bump counts t, c.2 ≤ m + 1 := by
  induction counts with
  | nil => simp [bump]
  | cons d counts ih =>
    obtain ⟨hd, hrest⟩ := List.forall_mem_cons.mp h
    unfold bump
    split
    · exact List.forall_mem_cons.mpr
        ⟨Nat.succ_le_succ hd, fun c hc => Nat.le_succ_of_le (hrest c hc)⟩
    · exact List.forall_mem_cons.mpr ⟨Nat.le_succ_of_le hd, ih hrest⟩

/-- No clock is counted more often than there are responses. -/
theorem foldl_bump_le {counts : List (Lamport × Nat)} {m : Nat} (h : ∀ c ∈ counts, c.2 ≤ m)
    (ts : List Lamport) : ∀ c ∈ ts.foldl bump counts, c.2 ≤ m + ts.length := by
  induction ts generalizing counts m with
  | nil => exact h
  | cons t ts ih =>
    intro c hc
    have hle := ih (bump_le h t) c hc
    rw [List.length_cons]
    omega

theorem consens_eq_false {st : ReadState} (ts : List Lamport) {n : Nat}
    (hc : st.counts = ts.foldl bump []) (hle : ts.length ≤ n / 2) : consens st n = false := by
  rw [consens, List.any_eq_false, hc]
  intro c hmem
  have hnil : ∀ c ∈ ([] : List (Lamport × Nat)), c.2 ≤ 0 := by simp
  have hcount := foldl_bump_le hnil ts c hmem
  simp only [decide_eq_true_eq, not_lt]
  omega

/-! ## 3. More than one replica -/

section Contexts

variable {ctx : ReplicaContext} {maxPackageSize n : Nat} {node : Node} {kv : KVStore}
  {e : Lamport × List UInt8} {es : List (Lamport × List UInt8)}

/-- A value is written back. -/
theorem safeSkip_of_ne_one {loc : RetValue} (hs : ctx.Sized)
    (hform : List.Forall₂ (ValueFor node.key) ctx.cache es)
    (hle : es.length ≤ ctx.nMsgs / 2) {r : ReadResult}
    (h : retValue ctx maxPackageSize node loc = some r) : SafeSkip n loc (es.map Prod.fst) r := by
  simp only [retValue, readResponses_eq maxPackageSize loc hs hform, Option.bind_eq_bind,
    Option.bind_eq_some_iff, Option.map_eq_some_iff] at h
  obtain ⟨st, ⟨tmp, -, hst⟩, h⟩ := h
  have hcons : consens st ctx.nMsgs = false :=
    consens_eq_false (es.map Prod.fst) (by rw [← hst]) (by rwa [List.length_map])
  intro hwb hsize
  split at h
  · simp only [Option.bind_eq_some_iff, Option.some.injEq] at h
    obtain ⟨_, _, _, _, rfl⟩ := h
    exact absurd hwb (by simp)
  · rename_i hno
    injection h with h
    subst h
    exact absurd (by simpa [hcons] using hsize) hno

/-- The key range of `tmp`, where it can be read, is inside. -/
theorem le_of_keySpan_bytes {key v : List UInt8} {tmp : Msg}
    (h : (keySpan key tmp).bytes = some v) : 24 + key.length ≤ tmp.ptr.length := by
  have hsome : (keySpan key tmp).bytes.isSome := by rw [h]; rfl
  simp only [keySpan, Span.bytes, Ptr.read, load_isSome_iff, List.length_drop,
    encodedMsgSize] at hsome
  omega

/-- What a get has copied when it has come to a result, and read for its write-back. -/
theorem newerFit_of_retValue (hs : ctx.Sized)
    (hform : List.Forall₂ (ValueFor node.key) ctx.cache es) (hle : es.length ≤ ctx.nMsgs / 2)
    (hmax : maxPackageSize < 2 ^ 64) {r : ReadResult}
    (h : retValue ctx maxPackageSize node (kv.get node.key) = some r) :
    NewerFit maxPackageSize node.key (kv.clockOf node.key) es := by
  simp only [retValue, readResponses_eq maxPackageSize (kv.get node.key) hs hform,
    KVStore.get_lamport, Msg.alloc_eq hmax, Option.bind_some, Option.bind_eq_bind,
    Option.bind_eq_some_iff, Option.map_eq_some_iff] at h
  obtain ⟨st, ⟨tmp, htmp, hst⟩, h⟩ := h
  obtain ⟨hfit, hlen⟩ := fits_of_lay htmp
  rw [List.length_replicate] at hfit hlen
  intro e he
  refine ⟨hfit e he, ?_⟩
  -- the last copy is what is written back
  obtain ⟨last, hlast⟩ : ∃ last,
      (records Prod.fst (kv.clockOf node.key) es).getLast? = some last :=
    ⟨_, List.getLast?_eq_some_getLast (List.ne_nil_of_mem he)⟩
  simp only [kept, hlast] at hst
  have hcons : consens st ctx.nMsgs = false :=
    consens_eq_false (es.map Prod.fst) (by rw [← hst]) (by rwa [List.length_map])
  have hsize : 0 < st.max.2.size := by
    rw [← hst]
    exact Nat.succ_pos _
  rw [if_pos (by simp [hcons, hsize]), Option.bind_eq_some_iff] at h
  obtain ⟨msg, hmsg, -⟩ := h
  obtain ⟨v, hv, henc⟩ := writeBackMsg_eq_some hmsg
  rw [← hst] at hv
  have hroom := le_of_keySpan_bytes hv
  have hwire : msg.ptr.length = 16 + (node.key.length + 8 + v.length) := by
    rw [encode_eq_some henc, length_image]
    simp
  have hread : v.length = node.key.length + 8 := span_read_all hv
  have hfits := msg.fits
  omega

/-- **With more than one replica** a get comes to a result exactly if the newer responses fit. -/
theorem exists_retValue_iff (hs : ctx.Sized)
    (hform : List.Forall₂ (ValueFor node.key) ctx.cache es) (hle : es.length ≤ ctx.nMsgs / 2)
    (hmax : maxPackageSize < 2 ^ 64)
    (hfits : 24 + (node.key.length + (kv.valueOf node.key).length) < 2 ^ 64) :
    (∃ r, retValue ctx maxPackageSize node (kv.get node.key) = some r) ↔
      NewerFit maxPackageSize node.key (kv.clockOf node.key) es := by
  refine ⟨fun ⟨r, hr⟩ => newerFit_of_retValue hs hform hle hmax hr, fun hnew => ?_⟩
  have hread := readResponses_eq maxPackageSize (kv.get node.key) hs hform
  rw [Msg.alloc_eq hmax, Option.bind_some, KVStore.get_lamport] at hread
  obtain ⟨tmp, htmp, hlen⟩ := exists_lay (records Prod.fst (kv.clockOf node.key) es)
    ⟨List.replicate maxPackageSize 0, by simpa using hmax⟩ fun e he => by
      simpa only [List.length_replicate] using (hnew e he).1
  rw [htmp, Option.map_some] at hread
  rw [List.length_replicate] at hlen
  cases hlast : (records Prod.fst (kv.clockOf node.key) es).getLast? with
  | none =>
    simp only [kept, hlast] at hread
    obtain ⟨wb, hr, -⟩ := exists_retValue hread (KVStore.get_bytes kv node.key) hfits
    exact ⟨_, hr⟩
  | some e =>
    obtain ⟨-, hroom, hwire⟩ := hnew e (List.mem_of_getLast? hlast)
    obtain ⟨v, hv, hvlen⟩ := exists_keySpan_bytes node.key tmp (by omega)
    simp only [kept, hlast] at hread
    obtain ⟨wb, hr, -⟩ := exists_retValue hread hv (by omega)
    exact ⟨_, hr⟩

/-! ## 4. One replica -/

/-- Where some clock was reported often enough, nothing is written back. -/
theorem retValue_of_consens {loc : RetValue} {st : ReadState} (hn : ctx.nMsgs = n)
    (h : readResponses ctx maxPackageSize node loc = some st) (hc : consens st n = true) :
    retValue ctx maxPackageSize node loc = some ⟨st.max.1, st.max.2, none⟩ := by
  simp only [retValue, h, Option.bind_eq_bind, Option.bind_some, hn, hc]
  rfl

theorem consens_single (max : Lamport × Span) (t : Lamport) (tmp : Msg) :
    consens ⟨max, [(t, 1)], tmp⟩ 1 = true := rfl

/-- The one replica has nothing newer. -/
theorem retValue_older {loc : RetValue} (hs : ctx.Sized)
    (hform : List.Forall₂ (ValueFor node.key) ctx.cache [e]) (hn : ctx.nMsgs = 1)
    (hmax : maxPackageSize < 2 ^ 64) (hle : e.1 ≤ loc.lamport) :
    retValue ctx maxPackageSize node loc = some ⟨loc.lamport, loc.toSpan, none⟩ := by
  have halloc := Msg.alloc_eq hmax
  have hnil : records Prod.fst loc.lamport [e] = [] := records_eq_nil_iff.mpr (by simpa using hle)
  have hread := readResponses_eq maxPackageSize loc hs hform
  rw [hnil, halloc] at hread
  exact retValue_of_consens hn hread (consens_single _ e.1 _)

/-- The one replica has something newer: if the get returns, then with its clock. -/
theorem retValue_newer {loc : RetValue} (hs : ctx.Sized)
    (hform : List.Forall₂ (ValueFor node.key) ctx.cache [e]) (hn : ctx.nMsgs = 1)
    (hlt : loc.lamport < e.1) {r : ReadResult}
    (h : retValue ctx maxPackageSize node loc = some r) :
    ∃ tmp, r = ⟨e.1, keySpan node.key tmp, none⟩ := by
  have hread := readResponses_eq maxPackageSize loc hs hform
  rw [records_cons_of_lt hlt] at hread
  cases hlay : (Msg.alloc maxPackageSize).bind
      (lay node.key (e :: records Prod.fst e.1 [])) with
  | none =>
    rw [hlay, Option.map_none] at hread
    simp [retValue, hread] at h
  | some tmp =>
    rw [hlay, Option.map_some] at hread
    rw [retValue_of_consens hn hread (consens_single _ e.1 _), Option.some.injEq] at h
    exact ⟨tmp, h.symm⟩

/-- Two servers: the majority is both of them. -/
theorem majority_two {t t' clock : Lamport} :
    1 + 1 < 2 * [t, t'].countP (clock ≤ ·) ↔ clock ≤ t ∧ clock ≤ t' := by
  by_cases ht : clock ≤ t
  · by_cases ht' : clock ≤ t'
    · simp [ht, ht']
    · simp [ht, ht']
  · by_cases ht' : clock ≤ t'
    · simp [ht, ht']
    · simp [ht, ht']

/-- **With one replica** a skip is safe if the clocks are the same, or the local entry is newer and
there is no value in it. -/
theorem safeSkip_one_iff (hs : ctx.Sized)
    (hform : List.Forall₂ (ValueFor node.key) ctx.cache [e]) (hn : ctx.nMsgs = 1)
    (hmax : maxPackageSize < 2 ^ 64) :
    (∃ r, retValue ctx maxPackageSize node (kv.get node.key) = some r ∧
        SafeSkip 1 (kv.get node.key) [e.1] r) ↔
      e.1 = kv.clockOf node.key ∨ (e.1 < kv.clockOf node.key ∧ kv.valueOf node.key = []) := by
  rcases lt_or_ge (kv.clockOf node.key) e.1 with hlt | hle
  · constructor
    · rintro ⟨r, hr, hsafe⟩
      obtain ⟨tmp, rfl⟩ := retValue_newer hs hform hn hlt hr
      have hboth := majority_two.mp (hsafe rfl (Nat.succ_pos _))
      exact absurd hboth.1 (not_le.mpr hlt)
    · rintro (heq | ⟨hgt, -⟩)
      · exact absurd heq hlt.ne'
      · exact absurd hgt hlt.asymm
  · have hr := retValue_older hs hform hn hmax hle
    have hsafe : SafeSkip 1 (kv.get node.key) [e.1]
        ⟨(kv.get node.key).lamport, (kv.get node.key).toSpan, none⟩ ↔
          (0 < (kv.valueOf node.key).length → kv.clockOf node.key ≤ e.1) := by
      unfold SafeSkip
      rw [majority_two, ← KVStore.get_size]
      exact ⟨fun h h0 => (h rfl h0).2, fun h _ h0 => ⟨le_refl _, h h0⟩⟩
    simp only [hr, Option.some.injEq, exists_eq_left', hsafe]
    constructor
    · intro h
      by_cases h0 : kv.valueOf node.key = []
      · exact hle.eq_or_lt.imp_right fun hlt => ⟨hlt, h0⟩
      · exact Or.inl (le_antisymm hle (h (List.length_pos_iff.mpr h0)))
    · rintro (heq | ⟨-, h0⟩) hpos
      · exact heq.ge
      · exact absurd h0 (List.length_pos_iff.mp hpos)

/-! ## 5. When it is safe -/

/-- **When a get returns, and skips its write-back only where it is safe**: with one replica, if the
replica's clock is the local one, or is older and the local value is empty; with more replicas, as
long as the newer responses fit in `tmp`. -/
theorem safeSkip_iff {resps : List MsgBuffer} (hn : 1 ≤ n)
    (hform : List.Forall₂ (ValueFor node.key) resps es)
    (hrun : ReplicaContext.runsAt { nMsgs := n, data := some node } resps = true)
    (hctx : ReplicaContext.received { nMsgs := n, data := some node } resps = some ctx)
    (hmax : maxPackageSize < 2 ^ 64)
    (hfits : 24 + (node.key.length + (kv.valueOf node.key).length) < 2 ^ 64) :
    (∃ r, retValue ctx maxPackageSize node (kv.get node.key) = some r ∧
        SafeSkip n (kv.get node.key) (es.map Prod.fst) r) ↔
      (n = 1 → ∀ e ∈ es, e.1 = kv.clockOf node.key ∨
        (e.1 < kv.clockOf node.key ∧ kv.valueOf node.key = [])) ∧
      (n ≠ 1 → NewerFit maxPackageSize node.key (kv.clockOf node.key) es) := by
  obtain ⟨hs, hcache, hmsgs, -⟩ :=
    ReplicaContext.received_spec (ReplicaContext.sized_new n (some node)) hctx
  rw [List.nil_append] at hcache
  have hform' : List.Forall₂ (ValueFor node.key) ctx.cache es := hcache ▸ hform
  have hctxn : ctx.nMsgs = n := hmsgs
  rw [ReplicaContext.runsAt_iff (nonempty_of_valueFor hform) rfl] at hrun
  obtain ⟨hne, -, hlen⟩ := hrun
  have hlenes : resps.length = es.length := hform.length_eq
  have hsome : 0 < resps.length := List.length_pos_iff.mpr hne
  simp only [Nat.zero_add] at hlen
  by_cases hone : n = 1
  · subst hone
    obtain ⟨e, rfl⟩ : ∃ e, es = [e] := List.length_eq_one_iff.mp (by omega)
    rw [List.map_cons, List.map_nil, safeSkip_one_iff hs hform' hctxn hmax]
    simp
  · have hle : es.length ≤ ctx.nMsgs / 2 := by
      rw [hctxn]
      omega
    simp only [hone, false_imp_iff, true_and, ne_eq, not_false_eq_true, true_imp_iff]
    rw [← exists_retValue_iff hs hform' hle hmax hfits]
    exact ⟨fun ⟨r, hr, _⟩ => ⟨r, hr⟩,
      fun ⟨r, hr⟩ => ⟨r, hr, safeSkip_of_ne_one hs hform' hle hr⟩⟩

end Contexts

/-- The response of a server that has the key `[1]` with count 2. -/
def valueTwo : MsgBuffer := ⟨true, ⟨image ([1] ++ Lamport.toBytes ⟨2, 2⟩) [9] [], by decide⟩⟩

theorem safeSkip_iff_two :
    (∃ r, retValue ⟨1, 1, true, [valueTwo], 26, some ⟨[1], ⟨Lamport.min, []⟩⟩⟩ 64
        ⟨[1], ⟨Lamport.min, []⟩⟩ ((KVStore.empty.set [1] ⟨⟨2, 2⟩, [9]⟩).get [1]) = some r ∧
        SafeSkip 1 ((KVStore.empty.set [1] ⟨⟨2, 2⟩, [9]⟩).get [1]) [⟨2, 2⟩] r) ↔
      (1 = 1 → ∀ e ∈ [((⟨2, 2⟩ : Lamport), ([9] : List UInt8))],
        e.1 = (KVStore.empty.set [1] ⟨⟨2, 2⟩, [9]⟩).clockOf [1] ∨
          (e.1 < (KVStore.empty.set [1] ⟨⟨2, 2⟩, [9]⟩).clockOf [1] ∧
            (KVStore.empty.set [1] ⟨⟨2, 2⟩, [9]⟩).valueOf [1] = [])) ∧
      (1 ≠ 1 → NewerFit 64 [1] ((KVStore.empty.set [1] ⟨⟨2, 2⟩, [9]⟩).clockOf [1])
        [((⟨2, 2⟩ : Lamport), ([9] : List UInt8))]) :=
  @safeSkip_iff _ _ 1 ⟨[1], ⟨Lamport.min, []⟩⟩ (KVStore.empty.set [1] ⟨⟨2, 2⟩, [9]⟩) _ _ (by decide)
    (List.Forall₂.cons (show ValueFor [1] valueTwo (⟨2, 2⟩, [9]) from rfl) .nil)
    (by decide) (by decide) (by decide) (by decide)

/-- **An unsafe skip.**  One replica, which has the key with count 2; the coordinator has it with
count 3, returns that value, writes nothing back, and is the only server that has it. -/
theorem unsafe_skip_two :
    ReplicaContext.runsAt { nMsgs := 1, data := some ⟨[1], ⟨Lamport.min, []⟩⟩ } [valueTwo] = true ∧
      ReplicaContext.received { nMsgs := 1, data := some ⟨[1], ⟨Lamport.min, []⟩⟩ } [valueTwo] =
        some ⟨1, 1, true, [valueTwo], 26, some ⟨[1], ⟨Lamport.min, []⟩⟩⟩ ∧
      ∃ r, retValue ⟨1, 1, true, [valueTwo], 26, some ⟨[1], ⟨Lamport.min, []⟩⟩⟩ 64
          ⟨[1], ⟨Lamport.min, []⟩⟩ ((KVStore.empty.set [1] ⟨⟨3, 1⟩, [5]⟩).get [1]) = some r ∧
        r.writeBack = none ∧ r.buf.bytes = some [5] ∧ r.clock = ⟨3, 1⟩ ∧
        ¬ 1 + 1 < 2 * [(⟨3, 1⟩ : Lamport), ⟨2, 2⟩].countP (r.clock ≤ ·) ∧
        ¬ SafeSkip 1 ((KVStore.empty.set [1] ⟨⟨3, 1⟩, [5]⟩).get [1]) [⟨2, 2⟩] r := by
  refine ⟨by decide, by decide, _, rfl, rfl, by decide, rfl, by decide, fun h => ?_⟩
  exact absurd (h rfl (by decide)) (by decide)

end Avocado
