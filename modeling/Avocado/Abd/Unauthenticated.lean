/-
# Packets that do not authenticate

`PacketSsl::decrypt` returns false for a packet whose tag does not verify, and the output array may
then hold anything.  `get_data` and `reduce_resp` drop that status, so the bytes of such a packet
go where an authentic packet's bytes go.

`IgnoresRequest` says that a handler leaves the store alone, starts nothing, and answers nothing
that depends on the packet; `IgnoresResponse` that a response is not counted and changes nothing
that `GetTime` and `RetValue` compute.  `ignores_iff` says exactly when they hold: for a request
only where the handler happens not to use what it has read (`harmless`), for a response never.
-/
import Avocado.Abd.Replica

namespace Avocado

/-! ## 1. The property -/

/-- The stores a server can come to: handlers run on any packet, and `GetTime` stores its node once
its message is built. -/
inductive StoreReached (cmd : Option (Msg → Msg)) : KVStore → Prop
  | empty : StoreReached cmd .empty
  | request {kv type buf h} (hkv : StoreReached cmd kv)
      (hh : reqHandlers ⟨kv, cmd⟩ type buf = some h) : StoreReached cmd h.kv
  | store {kv node clock msg} (hkv : StoreReached cmd kv)
      (hmsg : putMsg node clock (decryptNode node.metaData true) = some msg) :
      StoreReached cmd (kv.put node.key node.metaData.data clock).1

/-- The handler runs to its end, leaves the store as it was and starts nothing, and what it answers
it answers to every packet that does not authenticate. -/
def IgnoresRequest (srv : Server) (type : ReqType) (buf : MsgBuffer) : Prop :=
  ∃ h, reqHandlers srv type buf = some h ∧ h.kv = srv.kv ∧ h.start = none ∧
    ∀ a, h.answer = some a → ∀ text h', reqHandlers srv type ⟨false, text⟩ = some h' →
      h'.answer = some a

/-- The response is not counted, runs nothing, and changes no clock or value that is computed. -/
def IgnoresResponse (ctx : ReplicaContext) (resp : MsgBuffer) : Prop :=
  ∃ ctx' run, ctx.reqConts resp = some (ctx', run) ∧ ctx'.nResp = ctx.nResp ∧ run = false ∧
    (∀ count, ctx'.reduceResp maxCount count = ctx.reduceResp maxCount count) ∧
    ∀ size node res, readResponses ctx' size node res = readResponses ctx size node res

/-! ## 2. What the handlers read -/

/-- The key that `GetTimeStamp` and `GetValueTimeStamp` look up. -/
def requestKey (data : Msg) : Option (List UInt8) := do
  let key ← data.getKey
  key.bytes

theorem getKey_of_requestKey {data : Msg} {k : List UInt8} (h : requestKey data = some k) :
    ∃ key, data.getKey = some key ∧ key.size = k.length ∧ key.bytes = some k := by
  simp only [requestKey, Option.bind_eq_bind, Option.bind_eq_some_iff] at h
  obtain ⟨key, hkey, hk⟩ := h
  refine ⟨key, hkey, ?_, hk⟩
  unfold Msg.getKey at hkey
  simp only [Option.bind_eq_bind, Option.bind_eq_some_iff, Option.some.injEq] at hkey
  obtain ⟨n, -, rfl⟩ := hkey
  exact (Bytes.load_length hk).symm

theorem requestKey_image {data : Msg} {k v rest : List UInt8} (h : data.ptr = image k v rest) :
    requestKey data = some k := by
  obtain ⟨key, hkey, -, hk, -⟩ := getKey_bytes_image h
  simp only [requestKey, hkey, Option.bind_eq_bind, Option.bind_some, hk]

/-- The condition: the handler does not read the packet, or reads nothing from it that matters. -/
def Harmless (srv : Server) (buf : MsgBuffer) : ReqType → Prop
  | .put | .get | .getValueTimeStamp => False
  | .getTimeStamp => ∃ k, requestKey buf.text = some k ∧
      ∀ text k', requestKey text = some k' → srv.kv.clockOf k' = srv.kv.clockOf k
  | .putReplica => ∃ k v t old, replicaEntry buf.text = some (k, v, t) ∧
      srv.kv.find k = some old ∧ t ≤ old.clock
  | .cmd => srv.cmd = none ∨ ∃ cmd data a, srv.cmd = some cmd ∧ getData buf = some data ∧
      (cmd data).frame = some a ∧
      ∀ text data' a', getData ⟨false, text⟩ = some data' → (cmd data').frame = some a' → a' = a

/-! ## 3. Stored entries fit in a message -/

theorem encode_isSome {k v : List UInt8} :
    (encode k v).isSome ↔ 16 + (k.length + v.length) < 2 ^ 64 := by
  constructor
  · intro h
    by_contra hlt
    rw [MsgBuilder.encode_eq_none hlt] at h
    exact absurd h (by simp)
  · intro h
    obtain ⟨m, hm⟩ := exists_encode h
    rw [hm]
    rfl

/-- What a `PutReplica` request carries was in one array. -/
theorem replicaEntry_fits {data : Msg} {k v : List UInt8} {t : Lamport}
    (h : replicaEntry data = some (k, v, t)) : (encode (k ++ t.toBytes) v).isSome := by
  simp only [replicaEntry, Msg.getKey, Msg.getValueSize, Msg.getValue, Option.bind_eq_bind,
    Option.bind_eq_some_iff, Option.some.injEq, Prod.mk.injEq] at h
  obtain ⟨n, hn, key, ⟨n', hn', rfl⟩, clock, hclock, k', hk, vs, ⟨size, hsize, n₂, hn₂, hvs⟩, value,
    ⟨size', hsize', n₃, hn₃, hvalue⟩, v', hv, rfl, rfl, rfl⟩ := h
  rw [hn, Option.some.injEq] at hn' hn₂ hn₃
  subst hn' hn₂ hn₃
  rw [hsize, Option.some.injEq] at hsize'
  subst hsize'
  have hfit := data.fits
  have hkl := Bytes.load_length hk
  have hmeta : 8 ≤ n ∧ n ≤ data.ptr.length - 16 := by
    unfold KeyAccess.getLamport at hclock
    split at hclock
    · rename_i hm
      simp only [KeyAccess.metaSize, Option.map_eq_some_iff] at hclock hm
      obtain ⟨bs, hbs, -⟩ := hclock
      have hl := Bytes.le_of_load hbs
      simp only [List.length_drop, encodedMsgSize] at hl
      omega
    · exact absurd hclock (by simp)
  have hvl : v'.length + n ≤ data.ptr.length - 16 := by
    by_cases hlt : size > n
    · rw [if_pos hlt, Option.some.injEq] at hvs hvalue
      subst hvs hvalue
      simp only [Ptr.read] at hv
      have hlen := Bytes.load_length hv
      have hl := Bytes.le_of_load hv
      simp only [List.length_drop, encodedMsgSize] at hl
      omega
    · rw [if_neg hlt, Option.some.injEq] at hvs hvalue
      subst hvs hvalue
      simp only [Ptr.read, if_true, Option.some.injEq] at hv
      subst hv
      simpa using hmeta.2
  rw [encode_isSome]
  simp only [KeyAccess.subMetaSize, KeyAccess.metaSize] at hkl
  simp only [List.length_append, Lamport.length_toBytes]
  omega

theorem StoreReached.fits {cmd : Option (Msg → Msg)} {kv : KVStore} (h : StoreReached cmd kv)
    {k : List UInt8} {m : MetaData} (hf : kv.find k = some m) :
    (encode (k ++ m.clock.toBytes) m.data).isSome := by
  induction h generalizing k m with
  | empty => exact absurd hf (by simp [KVStore.empty])
  | @request kv type buf h hkv hh ih =>
    rcases reqHandlers_kv hh with hsame | ⟨⟨k', v, t⟩, he, hput⟩
    · rw [hsame] at hf
      exact ih hf
    · rw [hput] at hf
      rcases KVStore.put_some hf with hold | ⟨rfl, rfl⟩
      · exact ih hold
      · exact replicaEntry_fits he
  | @store kv node clock msg hkv hmsg ih =>
    rcases KVStore.put_some hf with hold | ⟨rfl, rfl⟩
    · exact ih hold
    · rw [putMsg_eq] at hmsg
      rw [hmsg]
      rfl

/-- So every key that itself fits can be asked for. -/
theorem StoreReached.answers {cmd : Option (Msg → Msg)} {kv : KVStore} (h : StoreReached cmd kv)
    {k : List UInt8} (hk : k.length ≤ 1) :
    (encode (k ++ (kv.clockOf k).toBytes) (kv.valueOf k)).isSome := by
  cases hf : kv.find k with
  | none =>
    rw [encode_isSome, KVStore.valueOf, hf]
    simp only [List.length_append, Lamport.length_toBytes, List.length_nil]
    omega
  | some m =>
    rw [KVStore.valueOf, hf, KVStore.clockOf_of_some hf]
    exact h.fits hf

/-! ## 4. When a packet is ignored -/

section Ignored

variable {srv : Server} {buf : MsgBuffer} {h : Handled}

theorem getData_eq_some {data : Msg} (hd : getData buf = some data) : data = buf.text := by
  unfold getData at hd
  split at hd
  · exact (Option.some.inj hd).symm
  · exact absurd hd (by simp)

/-- A message whose header can be read is not empty. -/
theorem getData_of_keySize {n : Nat} (hn : buf.text.getKeySize = some n) :
    getData buf = some buf.text := by
  simp only [Msg.getKeySize, Option.map_eq_some_iff] at hn
  obtain ⟨bs, hbs, -⟩ := hn
  have hl := Bytes.le_of_load hbs
  exact if_pos (by omega)

/-- A message with a key range has a header. -/
theorem keySize_of_getKey {m : Msg} {key : Span} (h : m.getKey = some key) :
    ∃ n, m.getKeySize = some n := by
  simp only [Msg.getKey, Option.bind_eq_bind, Option.bind_eq_some_iff] at h
  obtain ⟨n, hn, -⟩ := h
  exact ⟨n, hn⟩

theorem handled_getTimeStamp : reqHandlers srv .getTimeStamp buf = some h ↔
    ∃ k a, requestKey buf.text = some k ∧ encode (srv.kv.clockOf k).toBytes [] = some a ∧
      h = ⟨srv.kv, some a, none⟩ := by
  constructor
  · intro hh
    simp only [reqHandlers, Option.bind_eq_bind, Option.bind_eq_some_iff] at hh
    obtain ⟨data, hd, hh⟩ := hh
    rw [getData_eq_some hd] at hh
    obtain ⟨k, hk⟩ : ∃ k, requestKey buf.text = some k := by
      simp only [reqGetTimeStamp, Option.bind_eq_bind, Option.bind_eq_some_iff] at hh
      obtain ⟨key, hkey, k, hk, -⟩ := hh
      exact ⟨k, by simp only [requestKey, hkey, Option.bind_eq_bind, Option.bind_some, hk]⟩
    obtain ⟨key, hkey, -, hkb⟩ := getKey_of_requestKey hk
    rw [reqGetTimeStamp_key hkey hkb, Option.bind_eq_some_iff] at hh
    obtain ⟨a, ha, hh⟩ := hh
    exact ⟨k, a, hk, ha, (Option.some.inj hh).symm⟩
  · rintro ⟨k, a, hk, ha, rfl⟩
    obtain ⟨key, hkey, -, hkb⟩ := getKey_of_requestKey hk
    obtain ⟨n, hn⟩ := keySize_of_getKey hkey
    simp only [reqHandlers, getData_of_keySize hn, Option.bind_eq_bind, Option.bind_some,
      reqGetTimeStamp_key hkey hkb, ha]

theorem handled_getValueTimeStamp : reqHandlers srv .getValueTimeStamp buf = some h ↔
    ∃ k a, requestKey buf.text = some k ∧
      encode (k ++ (srv.kv.clockOf k).toBytes) (srv.kv.valueOf k) = some a ∧
      h = ⟨srv.kv, some a, none⟩ := by
  constructor
  · intro hh
    simp only [reqHandlers, Option.bind_eq_bind, Option.bind_eq_some_iff] at hh
    obtain ⟨data, hd, hh⟩ := hh
    rw [getData_eq_some hd] at hh
    obtain ⟨k, hk⟩ : ∃ k, requestKey buf.text = some k := by
      simp only [reqGetValueTimeStamp, Option.bind_eq_bind, Option.bind_eq_some_iff] at hh
      obtain ⟨key, hkey, k, hk, -⟩ := hh
      exact ⟨k, by simp only [requestKey, hkey, Option.bind_eq_bind, Option.bind_some, hk]⟩
    obtain ⟨key, hkey, hsize, hkb⟩ := getKey_of_requestKey hk
    rw [reqGetValueTimeStamp_key hkey hsize hkb, Option.bind_eq_some_iff] at hh
    obtain ⟨a, ha, hh⟩ := hh
    exact ⟨k, a, hk, ha, (Option.some.inj hh).symm⟩
  · rintro ⟨k, a, hk, ha, rfl⟩
    obtain ⟨key, hkey, hsize, hkb⟩ := getKey_of_requestKey hk
    obtain ⟨n, hn⟩ := keySize_of_getKey hkey
    simp only [reqHandlers, getData_of_keySize hn, Option.bind_eq_bind, Option.bind_some,
      reqGetValueTimeStamp_key hkey hsize hkb, ha]

theorem handled_putReplica : reqHandlers srv .putReplica buf = some h ↔
    ∃ e a, replicaEntry buf.text = some e ∧ encode ack [] = some a ∧
      h = ⟨(srv.kv.put e.1 e.2.1 e.2.2).1, some a, none⟩ := by
  constructor
  · intro hh
    simp only [reqHandlers, Option.bind_eq_bind, Option.bind_eq_some_iff, reqPutReplica_eq] at hh
    obtain ⟨data, hd, e, he, a, ha, hh⟩ := hh
    rw [getData_eq_some hd] at he
    exact ⟨e, a, he, ha, (Option.some.inj hh).symm⟩
  · rintro ⟨e, a, he, ha, rfl⟩
    obtain ⟨n, hn⟩ : ∃ n, buf.text.getKeySize = some n := by
      simp only [replicaEntry, Option.bind_eq_bind, Option.bind_eq_some_iff] at he
      obtain ⟨n, hn, -⟩ := he
      exact ⟨n, hn⟩
    simp only [reqHandlers, getData_of_keySize hn, Option.bind_eq_bind, Option.bind_some,
      reqPutReplica_eq, he, ha]

/-- A put changes the store exactly when it is not refused. -/
theorem KVStore.put_eq_self_iff {kv : KVStore} {k v : List UInt8} {t : Lamport} :
    (kv.put k v t).1 = kv ↔ ∃ old, kv.find k = some old ∧ t ≤ old.clock := by
  constructor
  · intro hsame
    rcases KVStore.put_cases kv k v t with ⟨-, hsome, hle⟩ | ⟨hput, hold⟩
    · obtain ⟨old, hf⟩ := Option.isSome_iff_exists.mp hsome
      rw [KVStore.clockOf_of_some hf] at hle
      exact ⟨old, hf, hle⟩
    · -- the new entry is in place, so the old one was neither absent nor older
      have hf : kv.find k = some ⟨t, v⟩ := by
        rw [← hsame, hput]
        exact KVStore.find_set_self _ _ _
      exact ⟨_, hf, le_refl _⟩
  · rintro ⟨old, hf, hle⟩
    rcases KVStore.put_cases kv k v t with ⟨hput, -⟩ | ⟨-, hnone | hlt⟩
    · rw [hput]
    · rw [hf] at hnone
      exact absurd hnone (by simp)
    · rw [KVStore.clockOf_of_some hf] at hlt
      exact absurd hle (not_le.mpr hlt)

theorem encode_stamp_inj {t t' : Lamport} {a : Msg} (h : encode t.toBytes [] = some a)
    (h' : encode t'.toBytes [] = some a) : t = t' := by
  have hc := stampClock_image (encode_eq_some h)
  rw [stampClock_image (encode_eq_some h'), Option.some.injEq] at hc
  exact hc.symm

theorem ignoresRequest_getTimeStamp :
    IgnoresRequest srv .getTimeStamp buf ↔ Harmless srv buf .getTimeStamp := by
  constructor
  · rintro ⟨h, hh, -, -, hans⟩
    obtain ⟨k, a, hk, ha, rfl⟩ := handled_getTimeStamp.mp hh
    refine ⟨k, hk, fun text k' hk' => ?_⟩
    obtain ⟨a', ha'⟩ := exists_stamp (srv.kv.clockOf k')
    have hh' : reqHandlers srv .getTimeStamp ⟨false, text⟩ = some ⟨srv.kv, some a', none⟩ :=
      handled_getTimeStamp.mpr ⟨k', a', hk', ha', rfl⟩
    have hother := hans a rfl text _ hh'
    rw [Option.some.injEq] at hother
    exact encode_stamp_inj (hother ▸ ha') ha
  · rintro ⟨k, hk, hall⟩
    obtain ⟨a, ha⟩ := exists_stamp (srv.kv.clockOf k)
    refine ⟨_, handled_getTimeStamp.mpr ⟨k, a, hk, ha, rfl⟩, rfl, rfl, ?_⟩
    intro a₀ ha₀ text h' hh'
    obtain ⟨k', a', hk', ha', rfl⟩ := handled_getTimeStamp.mp hh'
    rw [hall text k' hk', ha] at ha'
    rw [← ha₀, ← ha']

theorem ignoresRequest_putReplica :
    IgnoresRequest srv .putReplica buf ↔ Harmless srv buf .putReplica := by
  constructor
  · rintro ⟨h, hh, hkv, -, -⟩
    obtain ⟨⟨k, v, t⟩, a, he, -, rfl⟩ := handled_putReplica.mp hh
    obtain ⟨old, hf, hle⟩ := KVStore.put_eq_self_iff.mp hkv
    exact ⟨k, v, t, old, he, hf, hle⟩
  · rintro ⟨k, v, t, old, he, hf, hle⟩
    obtain ⟨a, ha⟩ := exists_ack
    refine ⟨_, handled_putReplica.mpr ⟨_, a, he, ha, rfl⟩,
      KVStore.put_eq_self_iff.mpr ⟨old, hf, hle⟩, rfl, ?_⟩
    intro a₀ ha₀ text h' hh'
    obtain ⟨e', a', -, ha', rfl⟩ := handled_putReplica.mp hh'
    rw [ha] at ha'
    rw [← ha₀, ← ha']

/-- Two keys of different lengths get different answers. -/
theorem not_ignoresRequest_getValueTimeStamp (hr : StoreReached srv.cmd srv.kv) :
    ¬ IgnoresRequest srv .getValueTimeStamp buf := by
  rintro ⟨h, hh, -, -, hans⟩
  obtain ⟨k, a, hk, ha, rfl⟩ := handled_getValueTimeStamp.mp hh
  obtain ⟨k', hlen, hne⟩ : ∃ k' : List UInt8, k'.length ≤ 1 ∧ k'.length ≠ k.length := by
    by_cases hk0 : k.length = 0
    · exact ⟨[0], by simp, by simp [hk0]⟩
    · exact ⟨[], by simp, fun h => hk0 (by simpa using h.symm)⟩
  obtain ⟨a', ha'⟩ := Option.isSome_iff_exists.mp (hr.answers hlen)
  have hsmall : 16 + (k'.length + ([] : List UInt8).length) < 2 ^ 64 := by
    rw [List.length_nil]
    omega
  obtain ⟨text, htext⟩ := exists_encode hsmall
  have hk' := requestKey_image (encode_eq_some htext)
  have hh' : reqHandlers srv .getValueTimeStamp ⟨false, text⟩ = some ⟨srv.kv, some a', none⟩ :=
    handled_getValueTimeStamp.mpr ⟨k', a', hk', ha', rfl⟩
  have hother := hans a rfl text _ hh'
  rw [Option.some.injEq] at hother
  have hsize := Msg.getKeySize_image (encode_eq_some ha)
  rw [← hother, Msg.getKeySize_image (encode_eq_some ha'), Option.some.injEq] at hsize
  simp only [List.length_append, Lamport.length_toBytes] at hsize
  omega

theorem ignoresRequest_cmd : IgnoresRequest srv .cmd buf ↔ Harmless srv buf .cmd := by
  constructor
  · rintro ⟨h, hh, -, -, hans⟩
    cases hcmd : srv.cmd with
    | none => exact Or.inl hcmd
    | some cmd =>
      simp only [reqHandlers, reqCmd, hcmd, Option.bind_eq_bind, Option.bind_eq_some_iff,
        Option.some.injEq] at hh
      obtain ⟨data, hd, a, ha, rfl⟩ := hh
      refine Or.inr ⟨cmd, data, a, hcmd, hd, ha, fun text data' a' hd' ha' => ?_⟩
      have hother := hans a rfl text ⟨srv.kv, some a', none⟩
        (by simp only [reqHandlers, reqCmd, hcmd, hd', ha', Option.bind_eq_bind, Option.bind_some])
      exact Option.some.inj hother
  · rintro (hcmd | ⟨cmd, data, a, hcmd, hd, ha, hall⟩)
    · refine ⟨⟨srv.kv, none, none⟩, by simp only [reqHandlers, reqCmd, hcmd], rfl, rfl, ?_⟩
      intro a ha
      exact absurd ha (by simp)
    · refine ⟨⟨srv.kv, some a, none⟩,
        by simp only [reqHandlers, reqCmd, hcmd, hd, ha, Option.bind_eq_bind, Option.bind_some],
        rfl, rfl, ?_⟩
      intro a₀ ha₀ text h' hh'
      simp only [reqHandlers, reqCmd, hcmd, Option.bind_eq_bind, Option.bind_eq_some_iff,
        Option.some.injEq] at hh'
      obtain ⟨data', hd', a', ha', rfl⟩ := hh'
      rw [← ha₀, hall text data' a' hd' ha']

/-- A client's request starts an operation whatever its packet is. -/
theorem not_ignoresRequest_client {type : ReqType} (ht : type = .put ∨ type = .get) :
    ¬ IgnoresRequest srv type buf := by
  rintro ⟨h, hh, -, hstart, -⟩
  rcases ht with rfl | rfl
  · simp only [reqHandlers, reqPut, Option.bind_eq_bind, Option.bind_eq_some_iff,
      Option.some.injEq] at hh
    obtain ⟨_, _, _, _, _, _, _, _, rfl⟩ := hh
    exact absurd hstart (by simp)
  · simp only [reqHandlers, reqGet, Option.bind_eq_bind, Option.bind_eq_some_iff,
      Option.some.injEq] at hh
    obtain ⟨_, _, _, _, _, _, rfl⟩ := hh
    exact absurd hstart (by simp)

/-- A response is counted whatever its packet is. -/
theorem not_ignoresResponse (ctx : ReplicaContext) (resp : MsgBuffer) :
    ¬ IgnoresResponse ctx resp := by
  rintro ⟨ctx', run, hr, hn, -⟩
  simp only [ReplicaContext.reqConts, ReplicaContext.addToCache] at hr
  split at hr
  · simp only [Option.bind_eq_bind, Option.bind_some] at hr
    split at hr
    · rw [Option.some.injEq, Prod.mk.injEq] at hr
      rw [← hr.1] at hn
      simp at hn
    · split at hr
      · rw [Option.some.injEq, Prod.mk.injEq] at hr
        rw [← hr.1] at hn
        simp at hn
      · rw [Option.some.injEq, Prod.mk.injEq] at hr
        rw [← hr.1] at hn
        simp at hn
  · exact absurd hr (by simp)

end Ignored

/-- **When a packet that does not authenticate has no effect**: a request exactly when it is
harmless, a response never. -/
theorem ignores_iff (text : Msg) :
    (∀ srv type, StoreReached srv.cmd srv.kv →
      (IgnoresRequest srv type ⟨false, text⟩ ↔ Harmless srv ⟨false, text⟩ type)) ∧
    ∀ ctx, ¬ IgnoresResponse ctx ⟨false, text⟩ := by
  refine ⟨fun srv type hr => ?_, fun ctx => not_ignoresResponse ctx _⟩
  cases type with
  | put => exact iff_of_false (not_ignoresRequest_client (Or.inl rfl)) id
  | get => exact iff_of_false (not_ignoresRequest_client (Or.inr rfl)) id
  | getTimeStamp => exact ignoresRequest_getTimeStamp
  | putReplica => exact ignoresRequest_putReplica
  | getValueTimeStamp => exact iff_of_false (not_ignoresRequest_getValueTimeStamp hr) id
  | cmd => exact ignoresRequest_cmd

/-- The text of a `PutReplica` request: value `[6]` for key `[1, 2, 3]` with clock `(9, 9)`. -/
def forgedPut : Msg := ⟨image ([1, 2, 3] ++ (⟨9, 9⟩ : Lamport).toBytes) [6] [], by decide⟩

/-- The text of a timestamp response: clock `(9, 9)`. -/
def forgedStamp : Msg := ⟨image (⟨9, 9⟩ : Lamport).toBytes [] [], by decide⟩

theorem ignores_iff_empty :
    (IgnoresRequest ⟨.empty, none⟩ .getTimeStamp ⟨false, forgedPut⟩ ↔
      Harmless ⟨.empty, none⟩ ⟨false, forgedPut⟩ .getTimeStamp) ∧
    ¬ IgnoresResponse {} ⟨false, forgedPut⟩ :=
  ⟨(ignores_iff forgedPut).1 ⟨.empty, none⟩ .getTimeStamp .empty, (ignores_iff forgedPut).2 {}⟩

/-- **Forged packets take effect.**  A request that does not authenticate puts its entry into an
empty store, and a response that does not authenticate runs `GetTime`, which then computes the
forged count. -/
theorem forged_take_effect :
    StoreReached none .empty ∧
    ((reqHandlers ⟨.empty, none⟩ .putReplica ⟨false, forgedPut⟩).map
      fun h => (h.kv.find [1, 2, 3], h.answer.isSome)) = some (some ⟨⟨9, 9⟩, [6]⟩, true) ∧
    ¬ IgnoresRequest ⟨.empty, none⟩ .putReplica ⟨false, forgedPut⟩ ∧
    (ReplicaContext.reqConts { nMsgs := 2 } ⟨false, forgedStamp⟩).map
      (fun r => (r.1.nResp, r.2, r.1.reduceResp maxCount 0)) = some (1, true, some 9) := by
  refine ⟨.empty, by decide +kernel, ?_, by decide +kernel⟩
  rw [ignoresRequest_putReplica]
  rintro ⟨k, v, t, old, -, hf, -⟩
  exact absurd hf (by simp [KVStore.empty])

end Avocado
