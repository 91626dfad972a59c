/-
# Messages, from the builder to the reader

`RoundTrips` is what the protocol needs of its messages for one key, clock and value: each builder
sequence stays inside the array it asked for, and whoever reads the message finds what was put in.
All of it holds but one part.  The answer to `GetValueTimeStamp` is well formed
(`reqGetValueTimeStamp_image`), but `RetValue` does not read it with `get_value`: it copies it to
`tmp` and takes `tmp.get_key()`.  What it then has in place of the value is the key, its clock, and
zeros where the copy was too short (`readAnswer_eq`).
-/
import Avocado.Abd.Newest

namespace Avocado

open Bytes Records

/-! ## 1. Readers -/

/-- The answer to `GetValueTimeStamp` as `RetValue` reads it: the clock and the bytes that it has
after this response, when its own server does not have the key. -/
def readAnswer (maxPackageSize : Nat) (key : List UInt8) (answer : Msg) :
    Option (Lamport × List UInt8) := do
  let node : Node := ⟨key, ⟨Lamport.min, []⟩⟩
  let ctx ← ReplicaContext.received { nMsgs := 1, data := some node } [⟨true, answer⟩]
  let st ← readResponses ctx maxPackageSize node .absent
  let value ← st.max.2.bytes
  some (st.max.1, value)

/-- Messages that carry `key`, `t` and `v` decode to what was encoded. -/
structure RoundTrips (maxPackageSize : Nat) (key : List UInt8) (t : Lamport) (v : List UInt8) :
    Prop where
  /-- `benchmark_put`'s request, read by `GetTimeStamp` and `GetValueTimeStamp`. -/
  request : ∃ msg k, (MsgBuilder.new key.length).bind (MsgBuilder.addKey · key) = some msg ∧
    msg.getKey = some k ∧ k.bytes = some key
  /-- `GetTime`'s message, handled by `PutReplica`; the acknowledgement is built as well. -/
  putReplica : ∃ msg a, putMsg ⟨key, ⟨Lamport.min, v⟩⟩ t (decryptNode ⟨Lamport.min, v⟩ true) = some msg ∧
    msg.frame = some msg ∧ replicaEntry msg = some (key, v, t) ∧
    ∀ kv, reqPutReplica ⟨kv, none⟩ msg = some ⟨(kv.put key v t).1, some a, none⟩
  /-- `GetTime`'s message when the node does not decrypt. -/
  putEmpty : ∃ msg, putMsg ⟨key, ⟨Lamport.min, v⟩⟩ t (decryptNode ⟨Lamport.min, v⟩ false) = some msg
  /-- `RetValue`'s write-back. -/
  writeBack : ∃ msg, writeBackMsg ⟨key, ⟨Lamport.min, []⟩⟩ (t, ⟨v.length, some v⟩) = some msg ∧
    replicaEntry msg = some (key, v, t)
  /-- The answer of `GetTimeStamp`, read by `GetTime`. -/
  stamp : ∀ data kv, encode key [] = some data → ∃ a,
    reqGetTimeStamp ⟨kv, none⟩ data = some ⟨kv, some a, none⟩ ∧
    stampClock a = some (kv.clockOf key) ∧
    ∀ prior, maxCount prior a =
      some (if prior ≥ (kv.clockOf key).count then prior else (kv.clockOf key).count)
  /-- The answer of `GetValueTimeStamp` for a stored entry, read by `RetValue`. -/
  value : ∀ data kv, encode key [] = some data → kv.find key = some ⟨t, v⟩ → ∃ a,
    reqGetValueTimeStamp ⟨kv, none⟩ data = some ⟨kv, some a, none⟩ ∧
    readAnswer maxPackageSize key a = some (t, v)
  /-- The answer of `GetValueTimeStamp` for an absent key. -/
  absent : ∀ data kv, encode key [] = some data → kv.find key = none → ∃ a,
    reqGetValueTimeStamp ⟨kv, none⟩ data = some ⟨kv, some a, none⟩ ∧
    readAnswer maxPackageSize key a = some (Lamport.min, [])

/-! ## 2. What `RetValue` reads -/

/-- What lies in `tmp.get_key()` after one message was copied to an array of zeros. -/
def keyRange (key : List UInt8) (t : Lamport) : List UInt8 :=
  (key ++ t.toBytes).take (2 * key.length) ++ List.replicate (8 - key.length) 0

theorem length_keyRange (key : List UInt8) (t : Lamport) :
    (keyRange key t).length = key.length + 8 := by
  simp only [keyRange, List.length_append, List.length_take, Lamport.length_toBytes,
    List.length_replicate]
  omega

/-- Where the value is as long as the key range, this is what the copy leaves there. -/
theorem take_copied {key v : List UInt8} {t : Lamport} {m : Nat}
    (hv : v.length = key.length + 8) (hm : 8 - key.length ≤ m) :
    ((copied key (t, v) ++ List.replicate m 0).drop encodedMsgSize).take (key.length + 8) =
      keyRange key t := by
  have hlen : (copied key (t, v)).length = 16 + 2 * key.length := by
    rw [length_copied]
    simp only
    omega
  have hdrop : (copied key (t, v)).drop encodedMsgSize =
      (key ++ t.toBytes ++ v).take (2 * key.length) := by
    rw [copied, List.drop_take, Msg.drop_header_image, List.append_nil]
    congr 1
    simp only [encodedMsgSize]
    omega
  have htake : (key ++ t.toBytes ++ v).take (2 * key.length) =
      (key ++ t.toBytes).take (2 * key.length) ++ v.take (key.length - 8) := by
    rw [List.take_append, List.length_append, Lamport.length_toBytes]
    congr 2
    omega
  have hk : ((key ++ t.toBytes).take (2 * key.length)).length = min (2 * key.length) (key.length + 8) := by
    rw [List.length_take, List.length_append, Lamport.length_toBytes]
  rw [List.drop_append_of_le_length (by rw [hlen, encodedMsgSize]; omega), hdrop, htake,
    List.append_assoc, List.take_append, List.take_of_length_le (by rw [hk]; omega), keyRange]
  congr 1
  rw [hk]
  rcases le_or_gt 8 key.length with hle | hlt
  · rw [Nat.sub_eq_zero_of_le (show 8 ≤ key.length from hle), min_eq_right (by omega), Nat.sub_self,
      List.take_zero, List.replicate_zero]
  · rw [Nat.sub_eq_zero_of_le hlt.le, List.take_zero, List.nil_append, List.take_replicate,
      min_eq_left (by omega)]
    congr 1
    omega

section ReadAnswer

variable {maxPackageSize : Nat} {key v : List UInt8} {t : Lamport} {answer : Msg}

/-- One response, for a key that the reader does not have. -/
theorem readAnswer_eq (h : answer.ptr = image (key ++ t.toBytes) v []) :
    readAnswer maxPackageSize key answer =
      (((Msg.alloc maxPackageSize).bind (lay key (records Prod.fst Lamport.min [(t, v)]))).map
        (kept key (Lamport.min, ⟨0, none⟩) (records Prod.fst Lamport.min [(t, v)]))).bind
          fun max => max.2.bytes.map fun value => (max.1, value) := by
  have hform : ValueFor key ⟨true, answer⟩ (t, v) := h
  obtain ⟨ctx, hctx⟩ : ∃ ctx, ReplicaContext.received
      { nMsgs := 1, data := some ⟨key, ⟨Lamport.min, []⟩⟩ } [⟨true, answer⟩] = some ctx :=
    ReplicaContext.exists_received (by simpa using hform.nonempty)
  obtain ⟨hs, hcache, -, -⟩ := ReplicaContext.received_spec
    (ReplicaContext.sized_new 1 (some ⟨key, ⟨Lamport.min, []⟩⟩)) hctx
  rw [List.nil_append] at hcache
  have hcached : List.Forall₂ (ValueFor key) ctx.cache [(t, v)] :=
    hcache ▸ List.Forall₂.cons hform .nil
  have hread := @readResponses_eq ctx maxPackageSize ⟨key, ⟨Lamport.min, []⟩⟩ .absent _ hs hcached
  simp only [readAnswer, hctx, hread, Option.bind_eq_bind, Option.bind_some, Option.map_eq_bind,
    Option.bind_assoc, Function.comp_def]
  rfl

/-- The least clock is no record. -/
theorem readAnswer_min (hmax : maxPackageSize < 2 ^ 64)
    (h : answer.ptr = image (key ++ Lamport.min.toBytes) v []) :
    readAnswer maxPackageSize key answer = some (Lamport.min, []) := by
  have halloc := Msg.alloc_eq hmax
  have hnil : records Prod.fst Lamport.min [(Lamport.min, v)] = [] :=
    records_eq_nil_iff.mpr (by simp)
  rw [readAnswer_eq h, hnil, halloc]
  rfl

/-- **What is read of an answer with a clock**: the value, if it is the key range of the copy. -/
theorem readAnswer_iff (hmax : maxPackageSize < 2 ^ 64) (hsize : 36 ≤ maxPackageSize)
    (ht : Lamport.min < t) (h : answer.ptr = image (key ++ t.toBytes) v []) :
    readAnswer maxPackageSize key answer = some (t, v) ↔
      key.length + 8 + v.length ≤ maxPackageSize ∧ v = keyRange key t := by
  have halloc := Msg.alloc_eq hmax
  have hrec : records Prod.fst Lamport.min [(t, v)] = [(t, v)] := records_cons_of_lt ht
  have hlen := length_copied key (t, v)
  rw [readAnswer_eq h, hrec, halloc, Option.bind_some, lay, List.foldlM_cons]
  by_cases hfit : key.length + 8 + v.length ≤ maxPackageSize
  · have hin : 0 + (copied key (t, v)).length ≤
        (List.replicate maxPackageSize (0 : UInt8)).length := by
      simpa [hlen] using hfit
    obtain ⟨tmp, htmp, hptr⟩ := Msg.exists_store ⟨_, by simpa using hmax⟩ hin
    have htmpptr : tmp.ptr = copied key (t, v) ++
        List.replicate (maxPackageSize - (key.length + 8 + v.length)) 0 := by
      simpa [hlen] using hptr
    have hlentmp : tmp.ptr.length = maxPackageSize := by
      rw [htmpptr, List.length_append, hlen, List.length_replicate]
      simp only
      omega
    have hdrop : (tmp.ptr.drop encodedMsgSize).length = maxPackageSize - 16 := by
      rw [List.length_drop, hlentmp, encodedMsgSize]
    simp only [htmp, Option.bind_eq_bind, Option.bind_some, List.foldlM_nil, Option.pure_def,
      Option.map_some, kept, List.getLast?_singleton, Option.map_eq_some_iff, Prod.mk.injEq,
      true_and, exists_eq_right]
    simp only [keySpan, Span.bytes, Ptr.read, load, hdrop, Nat.zero_add, List.drop_zero, hfit,
      true_and]
    constructor
    · intro hv
      split at hv
      · injection hv with hv
        have hvlen : v.length = key.length + 8 := by
          rw [← hv, List.length_take, hdrop]
          omega
        rw [htmpptr, take_copied hvlen (by omega)] at hv
        exact hv.symm
      · exact absurd hv (by simp)
    · intro hv
      have hvlen : v.length = key.length + 8 := by rw [hv, length_keyRange]
      rw [if_pos (by omega), htmpptr, take_copied hvlen (by omega), ← hv]
  · have hnone : Msg.store ⟨List.replicate maxPackageSize 0, by simpa using hmax⟩ 0
        (copied key (t, v)) = none := by
      simp [Msg.store, Bytes.store, hlen, hfit]
    simp only [hnone, Option.bind_eq_bind, Option.bind_none, Option.map_none, hfit, false_and]
    simp

end ReadAnswer

/-! ## 3. The messages -/

section Messages

variable {maxPackageSize : Nat} {key v : List UInt8} {t : Lamport}

/-- The key of a request. -/
theorem request_roundTrips (hfits : 16 + key.length < 2 ^ 64) :
    ∃ msg k, (MsgBuilder.new key.length).bind (MsgBuilder.addKey · key) = some msg ∧
      msg.getKey = some k ∧ k.bytes = some key := by
  obtain ⟨m, hm⟩ := exists_encode (k := key) (v := []) (by simpa using hfits)
  have hb := MsgBuilder.build_key (k := key) rfl some
  simp only [Option.bind_fun_some] at hb
  obtain ⟨k, hk, -, hkb, -⟩ := getKey_bytes_image (encode_eq_some hm)
  exact ⟨m, k, hb.trans hm, hk, hkb⟩

theorem putReplica_roundTrips (hfits : 24 + (key.length + v.length) < 2 ^ 64) (t : Lamport) :
    ∃ msg a, putMsg ⟨key, ⟨Lamport.min, v⟩⟩ t (decryptNode ⟨Lamport.min, v⟩ true) = some msg ∧
      msg.frame = some msg ∧ replicaEntry msg = some (key, v, t) ∧
      ∀ kv, reqPutReplica ⟨kv, none⟩ msg = some ⟨(kv.put key v t).1, some a, none⟩ := by
  obtain ⟨m, hm⟩ := exists_encode_clock hfits t
  obtain ⟨a, ha⟩ := exists_ack
  have himg := encode_eq_some hm
  refine ⟨m, a, (putMsg_eq ⟨key, ⟨Lamport.min, v⟩⟩ t).trans hm, by rw [Msg.frame_image himg, hm],
    replicaEntry_image himg, fun kv => ?_⟩
  rw [reqPutReplica_image himg, ha]
  rfl

/-- `decrypt_node` answers a failure with no value: the message is built in the larger array. -/
theorem exists_putMsg_absent (hfits : 24 + (key.length + v.length) < 2 ^ 64) (t : Lamport) :
    ∃ msg rest, putMsg ⟨key, ⟨Lamport.min, v⟩⟩ t (decryptNode ⟨Lamport.min, v⟩ false) = some msg ∧
      msg.ptr = image (key ++ t.toBytes) [] rest := by
  have hn : KeyAccess.addMetaSize key.length + v.length = key.length + 8 + v.length := rfl
  obtain ⟨m1, h1, e1⟩ := MsgBuilder.new_image (n := KeyAccess.addMetaSize key.length + v.length)
    (by omega)
  obtain ⟨m2, h2, e2⟩ := MsgBuilder.addKey_image (d := key) e1 (by simp [hn]; omega)
  obtain ⟨m3, h3, e3⟩ := MsgBuilder.addKey_image (d := t.toBytes) e2 (by simp [hn]; omega)
  obtain ⟨m4, h4, e4⟩ := MsgBuilder.addValue_image (d := []) e3 (by simp)
  refine ⟨m4, _, ?_, by simpa using e4⟩
  simp only [putMsg, h1, h2, h3, decryptNode, RetValue.absent, Ptr.read, Option.bind_eq_bind,
    Option.bind_some]
  exact h4

theorem writeBack_roundTrips (hfits : 24 + (key.length + v.length) < 2 ^ 64) (t : Lamport) :
    ∃ msg, writeBackMsg ⟨key, ⟨Lamport.min, []⟩⟩ (t, ⟨v.length, some v⟩) = some msg ∧
      replicaEntry msg = some (key, v, t) := by
  obtain ⟨m, hm⟩ := exists_encode_clock hfits t
  have hv : (⟨v.length, some v⟩ : Span).bytes = some v := by
    simpa [Span.bytes] using Msg.read_key_image (a := v) (b := []) (c := [])
  exact ⟨m, (writeBackMsg_eq hv).trans hm, replicaEntry_image (encode_eq_some hm)⟩

/-- The clock of `GetTimeStamp`, as `GetTime` reads it. -/
theorem stamp_roundTrips {data : Msg} (kv : KVStore) (hdata : encode key [] = some data) :
    ∃ a, reqGetTimeStamp ⟨kv, none⟩ data = some ⟨kv, some a, none⟩ ∧
      stampClock a = some (kv.clockOf key) ∧
      ∀ prior, maxCount prior a =
        some (if prior ≥ (kv.clockOf key).count then prior else (kv.clockOf key).count) := by
  obtain ⟨a, ha⟩ := exists_stamp (kv.clockOf key)
  have himg := encode_eq_some ha
  refine ⟨a, ?_, stampClock_image himg, fun prior => maxCount_image himg⟩
  rw [reqGetTimeStamp_image (encode_eq_some hdata), ha]
  rfl

/-- The answer of `GetValueTimeStamp`, well formed whatever the store has. -/
theorem exists_valueAnswer (kv : KVStore) {data : Msg} (hdata : encode key [] = some data)
    (hfits : 24 + (key.length + (kv.valueOf key).length) < 2 ^ 64) :
    ∃ a, reqGetValueTimeStamp ⟨kv, none⟩ data = some ⟨kv, some a, none⟩ ∧
      a.ptr = image (key ++ (kv.clockOf key).toBytes) (kv.valueOf key) [] := by
  obtain ⟨a, ha⟩ := exists_encode_clock hfits (kv.clockOf key)
  refine ⟨a, ?_, encode_eq_some ha⟩
  rw [reqGetValueTimeStamp_image (encode_eq_some hdata), ha]
  rfl

/-- **When the messages decode to what was encoded**: if the clock is the least one and the value is
empty, or the value is what lies in the key range of the copy. -/
theorem roundTrips_iff (hmax : maxPackageSize < 2 ^ 64) (hsize : 36 ≤ maxPackageSize)
    (hfits : 24 + (key.length + v.length) < 2 ^ 64) :
    RoundTrips maxPackageSize key t v ↔
      (t = Lamport.min ∧ v = []) ∨
        (Lamport.min < t ∧ key.length + 8 + v.length ≤ maxPackageSize ∧ v = keyRange key t) := by
  obtain ⟨data, hdata⟩ := exists_encode (k := key) (v := []) (by simp; omega)
  have hstore : ∀ kv : KVStore, kv.find key = some ⟨t, v⟩ → kv.clockOf key = t ∧ kv.valueOf key = v :=
    fun kv hf => ⟨KVStore.clockOf_of_some hf, by rw [KVStore.valueOf, hf]⟩
  constructor
  · intro h
    obtain ⟨a, ha, hread⟩ := h.value data (KVStore.empty.set key ⟨t, v⟩) hdata
      (KVStore.find_set_self _ _ _)
    obtain ⟨hc, hv⟩ := hstore _ (KVStore.find_set_self KVStore.empty key ⟨t, v⟩)
    obtain ⟨a', ha', himg⟩ := exists_valueAnswer (KVStore.empty.set key ⟨t, v⟩) hdata
      (by rwa [hv])
    obtain rfl : a = a' := by
      rw [ha, Option.some.injEq, Handled.mk.injEq, Option.some.injEq] at ha'
      exact ha'.2.1
    rw [hc, hv] at himg
    rcases eq_or_lt_of_le (Lamport.min_le t) with heq | hlt
    · subst heq
      rw [readAnswer_min hmax himg, Option.some.injEq, Prod.mk.injEq] at hread
      exact Or.inl ⟨rfl, hread.2.symm⟩
    · exact Or.inr ⟨hlt, (readAnswer_iff hmax hsize hlt himg).mp hread⟩
  · intro hcond
    refine ⟨request_roundTrips (by omega), putReplica_roundTrips hfits t,
      (exists_putMsg_absent hfits t).imp fun _ h => h.choose_spec.1, writeBack_roundTrips hfits t,
      fun data kv hdata => stamp_roundTrips kv hdata, fun data kv hdata hf => ?_,
      fun data kv hdata hf => ?_⟩
    · obtain ⟨hc, hv⟩ := hstore kv hf
      obtain ⟨a, ha, himg⟩ := exists_valueAnswer kv hdata (by rwa [hv])
      rw [hc, hv] at himg
      refine ⟨a, ha, ?_⟩
      rcases hcond with ⟨rfl, rfl⟩ | ⟨hlt, hcond⟩
      · exact readAnswer_min hmax himg
      · exact (readAnswer_iff hmax hsize hlt himg).mpr hcond
    · have hv : kv.valueOf key = [] := by rw [KVStore.valueOf, hf]
      obtain ⟨a, ha, himg⟩ := exists_valueAnswer kv hdata (by rw [hv]; simp; omega)
      rw [KVStore.clockOf_of_none hf, hv] at himg
      exact ⟨a, ha, readAnswer_min hmax himg⟩

end Messages

theorem roundTrips_iff_empty :
    RoundTrips 64 [1] Lamport.min [] ↔
      (Lamport.min = Lamport.min ∧ ([] : List UInt8) = []) ∨
        (Lamport.min < Lamport.min ∧ 1 + 8 + 0 ≤ 64 ∧ [] = keyRange [1] Lamport.min) :=
  roundTrips_iff (by decide) (by decide) (by decide)

/-- **A value that does not come back**: 24 bytes stored under the key `[1]` are read as nine, the
key and its clock. -/
theorem not_roundTrips_sevens :
    (∃ a, encode ([1] ++ Lamport.toBytes ⟨1, 2⟩) (List.replicate 24 7) = some a ∧
      readAnswer 64 [1] a = some (⟨1, 2⟩, [1] ++ Lamport.toBytes ⟨1, 2⟩)) ∧
    ¬ RoundTrips 64 [1] ⟨1, 2⟩ (List.replicate 24 7) := by
  have hread : ∃ a, encode ([1] ++ Lamport.toBytes ⟨1, 2⟩) (List.replicate 24 7) = some a ∧
      readAnswer 64 [1] a = some (⟨1, 2⟩, [1] ++ Lamport.toBytes ⟨1, 2⟩) :=
    ⟨_, dif_pos (by decide), by decide⟩
  refine ⟨hread, fun h => ?_⟩
  obtain ⟨data, hdata⟩ := exists_encode (k := [1]) (v := []) (by decide)
  obtain ⟨a, ha, hval⟩ := h.value data (KVStore.empty.set [1] ⟨⟨1, 2⟩, List.replicate 24 7⟩) hdata rfl
  obtain ⟨a', ha', himg⟩ := exists_valueAnswer
    (KVStore.empty.set [1] ⟨⟨1, 2⟩, List.replicate 24 7⟩) hdata (by decide)
  obtain rfl : a = a' := by
    rw [ha, Option.some.injEq, Handled.mk.injEq, Option.some.injEq] at ha'
    exact ha'.2.1
  obtain ⟨b, hb, hbread⟩ := hread
  have hab : encode ([1] ++ Lamport.toBytes ⟨1, 2⟩) (List.replicate 24 7) = some a :=
    MsgBuilder.encode_of_ptr himg
  rw [hab, Option.some.injEq] at hb
  rw [← hb, hval] at hbread
  exact absurd hbread (by decide)

end Avocado
