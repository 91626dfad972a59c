/-
# Does a get return the newest value it saw?

`ReturnsNewest` says that `RetValue` selects the greatest clock, passes a value that came with it,
and that its write-back carries the same.  The clock is always right, in any order of the responses
(`Records.isGreatest_top`).  The value is right as long as it is the local one: a response with a
greater clock makes `RetValue` pass the KEY range of `tmp`, key_size + 8 bytes that start with the
key, and these are the response's value only by accident (`Accident`).  `returnsNewest_iff` says
that there is no other case.
-/
import Avocado.Abd.ReadResult

namespace Avocado

open Bytes Records

/-! ## 1. The property -/

/-- The entries that `RetValue` sees: the local one, and those that were reported.  A response with
the least clock and no value reports that the key is absent. -/
def entriesSeen (kv : KVStore) (key : List UInt8) (es : List (Lamport × List UInt8)) :
    List (Lamport × List UInt8) :=
  (match kv.find key with
    | none => []
    | some m => [(m.clock, m.data)]) ++ es.filter (· ≠ (Lamport.min, []))

/-- The get selects the greatest clock and returns the value of an entry with this clock, or nothing
where every entry is absent; and a write-back decodes to the key, this value and this clock. -/
structure ReturnsNewest (kv : KVStore) (key : List UInt8) (es : List (Lamport × List UInt8))
    (r : ReadResult) : Prop where
  clock : IsGreatest {t | t ∈ kv.clockOf key :: es.map Prod.fst} r.clock
  value : ∃ v, r.buf.bytes = some v ∧
    ((r.clock, v) ∈ entriesSeen kv key es ∨ entriesSeen kv key es = [] ∧ v = [])
  writeBack : ∀ wire, r.writeBack = some wire →
    ∃ v, r.buf.bytes = some v ∧ replicaEntry wire = some (key, v, r.clock)

/-- No response is newer than the local entry; without a local entry every response says the same. -/
def LocalNewest (kv : KVStore) (key : List UInt8) (es : List (Lamport × List UInt8)) : Prop :=
  ∀ e ∈ es, e.1 ≤ kv.clockOf key ∧ (kv.find key = none → e.2 = [])

/-- Some response is newer, and the bytes behind the header of `tmp`, after each response that is
newer than everything before it has been copied there, are the value of a newest response. -/
def Accident (maxPackageSize : Nat) (kv : KVStore) (key : List UInt8)
    (es : List (Lamport × List UInt8)) : Prop :=
  let recs := records Prod.fst (kv.clockOf key) es
  ∃ e v tmp, recs.getLast? = some e ∧ (e.1, v) ∈ es ∧
    (Msg.alloc maxPackageSize).bind (lay key recs) = some tmp ∧
    (keySpan key tmp).bytes = some v

/-! ## 2. What is passed on -/

variable {ctx : ReplicaContext} {maxPackageSize : Nat} {node : Node} {loc : RetValue}
  {st : ReadState} {r : ReadResult} {k v : List UInt8}

theorem readResponses_of_retValue (h : retValue ctx maxPackageSize node loc = some r) :
    ∃ st, readResponses ctx maxPackageSize node loc = some st ∧ r.clock = st.max.1 ∧
      r.buf = st.max.2 := by
  simp only [retValue, Option.bind_eq_bind, Option.bind_eq_some_iff] at h
  obtain ⟨st, hst, h⟩ := h
  refine ⟨st, hst, ?_⟩
  split at h
  · simp only [Option.bind_eq_some_iff, Option.some.injEq] at h
    obtain ⟨msg, -, wire, -, rfl⟩ := h
    exact ⟨rfl, rfl⟩
  · injection h with h
    subst h
    exact ⟨rfl, rfl⟩

/-- The write-back carries what is passed on. -/
theorem exists_retValue (hst : readResponses ctx maxPackageSize node loc = some st)
    (hv : st.max.2.bytes = some v) (hfits : 24 + (node.key.length + v.length) < 2 ^ 64) :
    ∃ wb, retValue ctx maxPackageSize node loc = some ⟨st.max.1, st.max.2, wb⟩ ∧
      ∀ wire, wb = some wire → replicaEntry wire = some (node.key, v, st.max.1) := by
  obtain ⟨m, hm⟩ := exists_encode_clock hfits st.max.1
  have hmsg : writeBackMsg node st.max = some m := (writeBackMsg_eq hv).trans hm
  have hframe := Msg.frame_of_encode hm
  by_cases hwb : (!consens st ctx.nMsgs && st.max.2.size > 0) = true
  · refine ⟨some m, ?_, ?_⟩
    · simp only [retValue, hst, Option.bind_eq_bind, Option.bind_some, if_pos hwb, hmsg, hframe]
    · intro wire hwire
      rw [Option.some.injEq] at hwire
      exact hwire ▸ replicaEntry_image (encode_eq_some hm)
  · refine ⟨none, ?_, by simp⟩
    simp only [retValue, hst, Option.bind_eq_bind, Option.bind_some, if_neg hwb]

/-! ## 3. The local entry -/

namespace KVStore

variable (kv : KVStore) (key : List UInt8)

theorem get_bytes : (kv.get key).toSpan.bytes = some (kv.valueOf key) := by
  unfold valueOf
  cases hf : kv.find key with
  | none =>
    rw [get_of_none hf]
    rfl
  | some m =>
    rw [get_of_some hf]
    simpa [Span.bytes, RetValue.toSpan] using
      Msg.read_key_image (a := m.data) (b := []) (c := [])

theorem get_size : (kv.get key).size = (kv.valueOf key).length := by
  unfold valueOf
  cases hf : kv.find key with
  | none =>
    rw [get_of_none hf]
    rfl
  | some m => rw [get_of_some hf]

end KVStore

/-- The greatest entry is the local one. -/
theorem mem_entriesSeen_local {kv : KVStore} {key : List UInt8}
    {es : List (Lamport × List UInt8)} (h : LocalNewest kv key es) :
    (kv.clockOf key, kv.valueOf key) ∈ entriesSeen kv key es ∨
      entriesSeen kv key es = [] ∧ kv.valueOf key = [] := by
  unfold entriesSeen KVStore.valueOf
  cases hf : kv.find key with
  | none =>
    refine Or.inr ⟨?_, rfl⟩
    rw [List.nil_append, List.filter_eq_nil_iff]
    intro e he
    obtain ⟨hle, hv⟩ := h e he
    rw [KVStore.clockOf_of_none hf] at hle
    have hmin : e.1 = Lamport.min := le_antisymm hle (Lamport.min_le _)
    simp [← hmin, ← hv hf]
  | some m =>
    rw [KVStore.clockOf_of_some hf]
    exact Or.inl (by simp)

/-- Where the local value is passed on and no response is newer, no response says more. -/
theorem localNewest_of_value {kv : KVStore} {key v : List UInt8}
    {es : List (Lamport × List UInt8)} (hle : ∀ e ∈ es, e.1 ≤ kv.clockOf key)
    (hv : kv.valueOf key = v)
    (h : (kv.clockOf key, v) ∈ entriesSeen kv key es ∨ entriesSeen kv key es = [] ∧ v = []) :
    LocalNewest kv key es := by
  refine fun e he => ⟨hle e he, fun hf => ?_⟩
  simp only [entriesSeen, hf, List.nil_append, KVStore.clockOf_of_none hf] at h
  rw [KVStore.valueOf, hf] at hv
  subst hv
  rcases h with h | ⟨h, -⟩
  · simp at h
  · have hmin : e = (Lamport.min, []) := by
      by_contra hne
      exact List.filter_eq_nil_iff.mp h e he (by simpa using hne)
    rw [hmin]

/-! ## 4. A newer response -/

section Newer

variable {kv : KVStore} {key : List UInt8} {es : List (Lamport × List UInt8)} {t : Lamport}

theorem mem_entriesSeen_reported (h : (t, v) ∈ es) (hlt : kv.clockOf key < t) :
    (t, v) ∈ entriesSeen kv key es := by
  refine List.mem_append_right _ (List.mem_filter.mpr ⟨h, ?_⟩)
  simp [((Lamport.min_le _).trans_lt hlt).ne']

theorem mem_of_entriesSeen {e : Lamport × List UInt8} (he : e ∈ es) (hlt : kv.clockOf key < e.1)
    (h : (e.1, v) ∈ entriesSeen kv key es ∨ entriesSeen kv key es = [] ∧ v = []) :
    (e.1, v) ∈ es := by
  rcases h with h | ⟨h, -⟩
  · rcases List.mem_append.mp h with h | h
    · cases hf : kv.find key with
      | none => simp [hf] at h
      | some m =>
        rw [hf, List.mem_singleton, Prod.mk.injEq] at h
        rw [KVStore.clockOf_of_some hf, ← h.1] at hlt
        exact absurd hlt (lt_irrefl _)
    · exact (List.mem_filter.mp h).1
  · exact absurd (mem_entriesSeen_reported he hlt) (by simp [h])

end Newer

/-! ## 5. When the newest value is returned -/

section Cases

variable {kv : KVStore} {es : List (Lamport × List UInt8)}

/-- No response is newer: the local value is passed on. -/
theorem returnsNewest_local (hs : ctx.Sized)
    (hform : List.Forall₂ (ValueFor node.key) ctx.cache es) (hmax : maxPackageSize < 2 ^ 64)
    (hfits : 24 + (node.key.length + (kv.valueOf node.key).length) < 2 ^ 64)
    (hlast : (records Prod.fst (kv.clockOf node.key) es).getLast? = none) :
    (∃ r, retValue ctx maxPackageSize node (kv.get node.key) = some r ∧
        ReturnsNewest kv node.key es r) ↔ LocalNewest kv node.key es := by
  have hread := readResponses_eq maxPackageSize (kv.get node.key) hs hform
  have hnil := List.getLast?_eq_none_iff.mp hlast
  have hle := records_eq_nil_iff.mp hnil
  have hgreat : IsGreatest {t | t ∈ kv.clockOf node.key :: es.map Prod.fst}
      (top Prod.fst (kv.clockOf node.key) es) := isGreatest_top
  rw [top, hlast] at hgreat
  simp only [KVStore.get_lamport, hnil, Msg.alloc_eq hmax, Option.bind_some, lay,
    List.foldlM_nil, kept, List.getLast?_nil] at hread
  have hbytes := KVStore.get_bytes kv node.key
  obtain ⟨wb, hr, hwb⟩ := exists_retValue hread hbytes hfits
  constructor
  · rintro ⟨r, hr', hnew⟩
    rw [hr, Option.some.injEq] at hr'
    subst hr'
    obtain ⟨v, hv, hmem⟩ := hnew.value
    exact localNewest_of_value hle (Option.some.inj (hbytes.symm.trans hv)) hmem
  · intro hloc
    exact ⟨_, hr, hgreat, ⟨_, hbytes, mem_entriesSeen_local hloc⟩,
      fun wire hwire => ⟨_, hbytes, hwb wire hwire⟩⟩

/-- Some response is newer: the key range of `tmp` is passed on. -/
theorem returnsNewest_newer {e : Lamport × List UInt8} (hs : ctx.Sized)
    (hform : List.Forall₂ (ValueFor node.key) ctx.cache es)
    (hlast : (records Prod.fst (kv.clockOf node.key) es).getLast? = some e) :
    (∃ r, retValue ctx maxPackageSize node (kv.get node.key) = some r ∧
        ReturnsNewest kv node.key es r) ↔ Accident maxPackageSize kv node.key es := by
  have hread := readResponses_eq maxPackageSize (kv.get node.key) hs hform
  have hgreat : IsGreatest {t | t ∈ kv.clockOf node.key :: es.map Prod.fst}
      (top Prod.fst (kv.clockOf node.key) es) := isGreatest_top
  obtain ⟨hmem, hlt, -⟩ := getLast?_records hlast
  rw [top, hlast] at hgreat
  simp only [KVStore.get_lamport] at hread
  constructor
  · rintro ⟨r, hr, hnew⟩
    obtain ⟨st, hst, hclock, hbuf⟩ := readResponses_of_retValue hr
    rw [hread, Option.map_eq_some_iff] at hst
    obtain ⟨tmp, htmp, rfl⟩ := hst
    simp only [kept, hlast] at hclock hbuf
    obtain ⟨v, hv, hseen⟩ := hnew.value
    rw [hbuf] at hv
    rw [hclock] at hseen
    exact ⟨e, v, tmp, hlast, mem_of_entriesSeen hmem hlt hseen, htmp, hv⟩
  · rintro ⟨e', v, tmp, he', hv, htmp, hbytes⟩
    rw [hlast, Option.some.injEq] at he'
    subst he'
    rw [htmp, Option.map_some] at hread
    simp only [kept, hlast] at hread
    obtain ⟨wb, hr, hwb⟩ := exists_retValue hread hbytes (fits_of_valueFor hform _ hv)
    exact ⟨_, hr, hgreat, ⟨v, hbytes, Or.inl (mem_entriesSeen_reported hv hlt)⟩,
      fun wire hwire => ⟨v, hbytes, hwb wire hwire⟩⟩

end Cases

/-- **A get returns the newest value it saw** if and only if no response is newer than the local
entry, or the key range of `tmp` happens to hold a newest value. -/
theorem returnsNewest_iff {kv : KVStore} {resps : List MsgBuffer}
    {es : List (Lamport × List UInt8)} {n : Nat}
    (hform : List.Forall₂ (ValueFor node.key) resps es)
    (hctx : ReplicaContext.received { nMsgs := n, data := some node } resps = some ctx)
    (hmax : maxPackageSize < 2 ^ 64)
    (hfits : 24 + (node.key.length + (kv.valueOf node.key).length) < 2 ^ 64) :
    (∃ r, retValue ctx maxPackageSize node (kv.get node.key) = some r ∧
        ReturnsNewest kv node.key es r) ↔
      LocalNewest kv node.key es ∨ Accident maxPackageSize kv node.key es := by
  obtain ⟨hs, hcache, -, -⟩ :=
    ReplicaContext.received_spec (ReplicaContext.sized_new n (some node)) hctx
  rw [List.nil_append] at hcache
  have hform' : List.Forall₂ (ValueFor node.key) ctx.cache es := hcache ▸ hform
  cases hlast : (records Prod.fst (kv.clockOf node.key) es).getLast? with
  | none =>
    rw [returnsNewest_local hs hform' hmax hfits hlast]
    have hnot : ¬ Accident maxPackageSize kv node.key es := by
      rintro ⟨e, v, tmp, he, -⟩
      exact absurd (hlast.symm.trans he) (by simp)
    exact (or_iff_left hnot).symm
  | some e =>
    rw [returnsNewest_newer hs hform' hlast]
    obtain ⟨hmem, hlt, -⟩ := getLast?_records hlast
    have hnot : ¬ LocalNewest kv node.key es :=
      fun hloc => absurd (hloc e hmem).1 (not_le.mpr hlt)
    exact (or_iff_right hnot).symm

/-- The response of a server that has the key `[1]` with a value of 24 bytes. -/
def valueSevens : MsgBuffer :=
  ⟨true, ⟨image ([1] ++ Lamport.toBytes ⟨1, 2⟩) (List.replicate 24 7) [], by decide⟩⟩

theorem returnsNewest_iff_sevens :
    (∃ r, retValue ⟨2, 1, true, [valueSevens], 49, some ⟨[1], ⟨Lamport.min, []⟩⟩⟩ 64
        ⟨[1], ⟨Lamport.min, []⟩⟩ ((KVStore.empty.set [1] ⟨⟨1, 3⟩, [5]⟩).get [1]) = some r ∧
        ReturnsNewest (KVStore.empty.set [1] ⟨⟨1, 3⟩, [5]⟩) [1]
          [(⟨1, 2⟩, List.replicate 24 7)] r) ↔
      LocalNewest (KVStore.empty.set [1] ⟨⟨1, 3⟩, [5]⟩) [1] [(⟨1, 2⟩, List.replicate 24 7)] ∨
        Accident 64 (KVStore.empty.set [1] ⟨⟨1, 3⟩, [5]⟩) [1] [(⟨1, 2⟩, List.replicate 24 7)] :=
  @returnsNewest_iff _ _ ⟨[1], ⟨Lamport.min, []⟩⟩ _ _ _ 2
    (List.Forall₂.cons (show ValueFor [1] valueSevens (⟨1, 2⟩, List.replicate 24 7) from rfl) .nil)
    (by decide) (by decide) (by decide)

/-- **A get that returns its key.**  The server does not have the key, another one has it with 24
bytes: the get answers with nine bytes, the key and the clock, and writes these back as the value. -/
theorem returns_key_sevens :
    ReplicaContext.received { nMsgs := 2, data := some ⟨[1], ⟨Lamport.min, []⟩⟩ } [valueSevens] =
        some ⟨2, 1, true, [valueSevens], 49, some ⟨[1], ⟨Lamport.min, []⟩⟩⟩ ∧
      ∃ r wire, retValue ⟨2, 1, true, [valueSevens], 49, some ⟨[1], ⟨Lamport.min, []⟩⟩⟩ 64
          ⟨[1], ⟨Lamport.min, []⟩⟩ (KVStore.empty.get [1]) = some r ∧
        r.buf.bytes = some ([1] ++ Lamport.toBytes ⟨1, 2⟩) ∧ r.writeBack = some wire ∧
        replicaEntry wire = some ([1], [1] ++ Lamport.toBytes ⟨1, 2⟩, ⟨1, 2⟩) ∧
        ¬ ReturnsNewest KVStore.empty [1] [(⟨1, 2⟩, List.replicate 24 7)] r := by
  refine ⟨by decide, _, _, rfl, by decide, rfl, by decide, fun h => ?_⟩
  obtain ⟨v, hv, hmem⟩ := h.value
  have hbytes : v = [1] ++ Lamport.toBytes ⟨1, 2⟩ := Option.some.inj (hv.symm.trans (by decide))
  subst hbytes
  revert hmem
  decide

end Avocado
