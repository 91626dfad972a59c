/-
# Replica contexts and continuations (`replica_context.h`, `protocol.h`, `req_conts`)

A `ReplicaContext` is one request sent to every replica of a key's group and the responses that
have come back.  `reqConts` is what every response goes through: it is cached and counted, and the
continuation runs for the first response that passes the threshold `2 * n_resp + 1 >= n_msgs`.

The two continuations that compute something are `GetTime`, which takes the largest count of the
responses and its own store and adds one (`maxCount`, `putMsg`), and `RetValue`, which takes the
largest clock and the value that came with it (`pickMax`, `writeBackMsg`).  Both run through
`reduceResp`, which decrypts the responses one after the other into ONE array: a response shorter
than an earlier one leaves the earlier one's tail behind it, and `RetValue` keeps the winner in a
second array, `tmp`, that it copies into whenever a larger clock appears.
-/
import Avocado.Abd.Handlers

namespace Avocado

/-! ## 1. The context, and the path of a response -/

/-- `class ReplicaContext`; the message buffers and their nodes are left out. -/
structure ReplicaContext where
  nMsgs : Nat := 0
  nResp : Nat := 0
  done : Bool := false
  cache : List MsgBuffer := []
  maxRespSize : Nat := 0
  data : Option Node := none
  deriving DecidableEq, Repr

namespace ReplicaContext

/-- `send_and_encrypt_msg`: one request for each replica. -/
def sendAndEncryptMsg {Srv : Type} (ctx : ReplicaContext) (replicas : List Srv) : ReplicaContext :=
  { ctx with nMsgs := replicas.length }

/-- `add_to_cache`. -/
def addToCache (ctx : ReplicaContext) (resp : MsgBuffer) : Option ReplicaContext :=
  let size := resp.text.ptr.length
  if 0 < size then
    some { ctx with
      cache := ctx.cache ++ [resp]
      maxRespSize := if size > ctx.maxRespSize then size else ctx.maxRespSize }
  else none

/-- `ABD::req_conts`: the context after one response, and whether the continuation runs. -/
def reqConts (ctx : ReplicaContext) (resp : MsgBuffer) : Option (ReplicaContext × Bool) := do
  let ctx ← ctx.addToCache resp
  let ctx := { ctx with nResp := ctx.nResp + 1 }
  if 2 * ctx.nResp + 1 < ctx.nMsgs then some (ctx, false)
  else if ctx.done then some (ctx, false)
  else some ({ ctx with done := true }, true)

/-- `reduce_resp`, over the cache from `c` on: each response is decrypted into `msg`. -/
def reduceFrom {T : Type} (f : T → Msg → Option T) : List MsgBuffer → T → Msg → Option T
  | [], res, _ => some res
  | c :: cache, res, msg => do
    let msg ← msg.store 0 c.text.ptr
    let res ← f res msg
    reduceFrom f cache res msg

/-- `reduce_resp`. -/
def reduceResp {T : Type} (ctx : ReplicaContext) (f : T → Msg → Option T) (init : T) : Option T := do
  let msg ← Msg.alloc ctx.maxRespSize
  reduceFrom f ctx.cache init msg

end ReplicaContext

/-! ## 2. `GetTime`: the clock of a put, and the message that carries it -/

/-- The lambda of `GetTime`: the larger count. -/
def maxCount (prior : BitVec 32) (buf : Msg) : Option (BitVec 32) := do
  let size ← buf.getSize
  if size < 8 then some prior
  else
    let key ← buf.getKey
    let clock ← KeyAccess.getLamport key.size key.buf
    some (if prior ≥ clock.count then prior else clock.count)

/-- The `PutReplica` message of `GetTime`; `res` is what `decrypt_node` returned for the node. -/
def putMsg (node : Node) (clock : Lamport) (res : RetValue) : Option Msg := do
  let msg ← MsgBuilder.new (KeyAccess.addMetaSize node.key.length + node.metaData.data.length)
  let msg ← MsgBuilder.addKey msg node.key
  let msg ← MsgBuilder.addKey msg clock.toBytes
  let value ← res.value.read 0 res.size
  MsgBuilder.addValue msg value

/-! ## 3. `RetValue`: the largest clock, its value, and the write-back -/

/-- What `RetValue` folds over the responses: `max_clock_value`, `counts` and the array `tmp`. -/
structure ReadState where
  max : Lamport × Span
  counts : List (Lamport × Nat)
  tmp : Msg
  deriving DecidableEq, Repr

/-- `counts[clock]++`. -/
def bump (counts : List (Lamport × Nat)) (clock : Lamport) : List (Lamport × Nat) :=
  match counts with
  | [] => [(clock, 1)]
  | (c, n) :: rest => if c = clock then (c, n + 1) :: rest else (c, n) :: bump rest clock

/-- The lambda of `RetValue`.  A larger clock copies `buf.get_size()` bytes of the response, from
its header on, into `tmp`, and the span handed on is `tmp.get_key()`. -/
def pickMax (keySize : Nat) (st : ReadState) (buf : Msg) : Option ReadState := do
  let key ← buf.getKey
  let clock ← KeyAccess.getLamport keySize key.buf
  let counts := bump st.counts clock
  if clock > st.max.1 then
    let size ← buf.getSize
    let bytes ← Bytes.load buf.ptr 0 size
    let tmp ← st.tmp.store 0 bytes
    let span ← tmp.getKey
    some ⟨(clock, span), counts, tmp⟩
  else some { st with counts := counts }

/-- Some clock was reported by more than half of the replicas. -/
def consens (st : ReadState) (nMsgs : Nat) : Bool := st.counts.any fun c => c.2 > nMsgs / 2

/-- The reduction of `RetValue`, from the local entry on. -/
def readResponses (ctx : ReplicaContext) (maxPackageSize : Nat) (node : Node) (res : RetValue) :
    Option ReadState := do
  let tmp ← Msg.alloc maxPackageSize
  ctx.reduceResp (pickMax (KeyAccess.addMetaSize node.key.length)) ⟨(res.lamport, res.toSpan), [], tmp⟩

/-- The `PutReplica` message of `RetValue`. -/
def writeBackMsg (node : Node) (max : Lamport × Span) : Option Msg := do
  let msg ← MsgBuilder.new (KeyAccess.addMetaSize node.key.length + max.2.size)
  let msg ← MsgBuilder.addKey msg node.key
  let msg ← MsgBuilder.addKey msg max.1.toBytes
  let value ← max.2.buf.read 0 max.2.size
  MsgBuilder.addValue msg value

/-! ## 4. What the reductions compute -/

theorem putMsg_eq (node : Node) (clock : Lamport) :
    putMsg node clock (decryptNode node.metaData true)
      = encode (node.key ++ clock.toBytes) node.metaData.data := by
  have hv : Ptr.read (some node.metaData.data) 0 node.metaData.data.length
      = some node.metaData.data := by
    simpa using Msg.read_key_image (a := node.metaData.data) (b := []) (c := [])
  have hb := MsgBuilder.build_key₂_value (k := node.key) (l := clock.toBytes)
    (v := node.metaData.data) (f := some)
    (n := KeyAccess.addMetaSize node.key.length + node.metaData.data.length)
    (by simp [KeyAccess.addMetaSize, KeyAccess.metaSize])
  simp only [Option.bind_fun_some] at hb
  simp only [putMsg, decryptNode, if_true, Option.bind_eq_bind, hv, Option.bind_some, hb]

/-- **The rule for `reduce_resp`.**  A property of the responses read so far and the result so
far, which `f` carries from one response to the next, holds of the whole cache.  The array `f`
looks at starts with the response and ends with whatever was there. -/
theorem ReplicaContext.reduceResp_induct {T : Type} {ctx : ReplicaContext} {f : T → Msg → Option T}
    {init res : T} {P : List MsgBuffer → T → Prop} (h0 : P [] init)
    (hstep : ∀ (seen : List MsgBuffer) (c : MsgBuffer) (r r' : T) (msg : Msg) (junk : List UInt8),
      c ∈ ctx.cache → P seen r → msg.ptr = c.text.ptr ++ junk → f r msg = some r' →
      P (seen ++ [c]) r')
    (h : ctx.reduceResp f init = some res) : P ctx.cache res := by
  have main : ∀ (todo seen : List MsgBuffer) (r : T) (msg : Msg), (∀ c ∈ todo, c ∈ ctx.cache) →
      P seen r → reduceFrom f todo r msg = some res → P (seen ++ todo) res := by
    intro todo
    induction todo with
    | nil =>
      intro seen r msg _ hP hr
      rw [reduceFrom, Option.some.injEq] at hr
      rw [List.append_nil, ← hr]
      exact hP
    | cons c todo ih =>
      intro seen r msg hmem hP hr
      simp only [reduceFrom, Option.bind_eq_bind, Option.bind_eq_some_iff] at hr
      obtain ⟨msg', hm, r', hf, hrest⟩ := hr
      have hc : c ∈ ctx.cache := hmem c List.mem_cons_self
      obtain ⟨junk, hjunk⟩ : ∃ junk, msg'.ptr = c.text.ptr ++ junk := by
        simp only [Msg.store, Option.pmap_eq_some_iff] at hm
        obtain ⟨p, hp, hs, rfl⟩ := hm
        unfold Bytes.store at hs
        split at hs
        · exact ⟨_, (by simpa using hs.symm)⟩
        · exact absurd hs (by simp)
      have := ih (seen ++ [c]) r' msg' (fun d hd => hmem d (List.mem_cons_of_mem _ hd))
        (hstep seen c r r' msg' junk hc hP hjunk hf) hrest
      simpa using this
  simp only [reduceResp, Option.bind_eq_bind, Option.bind_eq_some_iff] at h
  obtain ⟨msg, -, hr⟩ := h
  simpa using main ctx.cache [] init msg (fun c hc => hc) h0 hr

/-- A response in an array that is longer than it. -/
theorem image_append_junk {k v rest junk : List UInt8} {p : List UInt8} (h : p = image k v rest) :
    p ++ junk = image k v (rest ++ junk) := by
  rw [h, image, image]
  simp

/-- One step of `GetTime` on a well-formed timestamp response. -/
theorem maxCount_image {prior : BitVec 32} {buf : Msg} {t : Lamport} {v rest : List UInt8}
    (h : buf.ptr = image t.toBytes v rest) :
    maxCount prior buf = some (if prior ≥ t.count then prior else t.count) := by
  have hclock : KeyAccess.getLamport t.toBytes.length (some (t.toBytes ++ v ++ rest)) = some t := by
    simpa using KeyAccess.getLamport_key (k := []) (v := v) (r := rest) (t := t)
      (n := t.toBytes.length) (by simp)
  have hsize : ¬ t.toBytes.length + v.length < 8 := by simp
  simp only [maxCount, Msg.getSize_image h, Msg.getKey_image h, Option.bind_eq_bind,
    Option.bind_some, if_neg hsize, hclock]

/-- `KeyAccess::get_lamport(key.size, key.buf)`, the clock of a timestamp response. -/
def stampClock (buf : Msg) : Option Lamport := do
  let key ← buf.getKey
  KeyAccess.getLamport key.size key.buf

theorem stampClock_image {buf : Msg} {t : Lamport} {v rest : List UInt8}
    (h : buf.ptr = image t.toBytes v rest) : stampClock buf = some t := by
  have hclock : KeyAccess.getLamport t.toBytes.length (some (t.toBytes ++ v ++ rest)) = some t := by
    simpa using KeyAccess.getLamport_key (k := []) (v := v) (r := rest) (t := t)
      (n := t.toBytes.length) (by simp)
  simp only [stampClock, Msg.getKey_image h, Option.bind_eq_bind, Option.bind_some, hclock]

/-- **What `GetTime` computes**: a count that is at least the local one and every response's. -/
theorem maxCount_spec {ctx : ReplicaContext} {init max : BitVec 32}
    (hform : ∀ buf ∈ ctx.cache, ∃ t : Lamport, buf.text.ptr = image t.toBytes [] [])
    (h : ctx.reduceResp maxCount init = some max) :
    init ≤ max ∧ ∀ buf ∈ ctx.cache, ∀ t, stampClock buf.text = some t → t.count ≤ max := by
  refine ReplicaContext.reduceResp_induct (P := fun seen (r : BitVec 32) => init ≤ r ∧
      ∀ buf ∈ seen, ∀ t, stampClock buf.text = some t → t.count ≤ r)
    ⟨BitVec.le_refl _, by simp⟩ ?_ h
  rintro seen c r r' msg junk hc ⟨hinit, hseen⟩ hmsg hr
  obtain ⟨t, himg⟩ := hform c hc
  have hclock := stampClock_image himg
  rw [maxCount_image (hmsg.trans (image_append_junk himg)), Option.some.injEq] at hr
  have hle : r ≤ r' ∧ t.count ≤ r' := by
    rw [← hr]
    split
    · rename_i hge
      exact ⟨BitVec.le_refl _, hge⟩
    · rename_i hlt
      exact ⟨BitVec.le_of_lt (BitVec.not_le.mp hlt), BitVec.le_refl _⟩
  refine ⟨BitVec.le_trans hinit hle.1, fun buf hbuf t' ht' => ?_⟩
  rcases List.mem_append.mp hbuf with hbuf | hbuf
  · exact BitVec.le_trans (hseen buf hbuf t' ht') hle.1
  · rw [List.mem_singleton.mp hbuf, hclock, Option.some.injEq] at ht'
    exact ht' ▸ hle.2

/-- `KeyAccess::get_lamport(key_size, buf.get_key().buf)`, the clock of a value response. -/
def respClock (keySize : Nat) (buf : Msg) : Option Lamport := do
  let key ← buf.getKey
  KeyAccess.getLamport keySize key.buf

theorem respClock_image {keySize : Nat} {buf : Msg} {k v rest : List UInt8} {t : Lamport}
    (hk : keySize = k.length + 8) (h : buf.ptr = image (k ++ t.toBytes) v rest) :
    respClock keySize buf = some t := by
  simp only [respClock, Msg.getKey_image h, Option.bind_eq_bind, Option.bind_some]
  exact KeyAccess.getLamport_key hk

/-- One step of `RetValue` on a well-formed value response. -/
theorem pickMax_image {keySize : Nat} {st st' : ReadState} {buf : Msg} {k v rest : List UInt8}
    {t : Lamport} (hk : keySize = k.length + 8) (h : buf.ptr = image (k ++ t.toBytes) v rest)
    (hst : pickMax keySize st buf = some st') :
    st'.counts = bump st.counts t ∧
      ((t ≤ st.max.1 ∧ st'.max = st.max) ∨ (st.max.1 < t ∧ st'.max.1 = t)) := by
  have hclock : KeyAccess.getLamport keySize (some (k ++ t.toBytes ++ v ++ rest)) = some t :=
    KeyAccess.getLamport_key hk
  simp only [pickMax, Msg.getKey_image h, Option.bind_eq_bind, Option.bind_some, hclock] at hst
  split at hst
  · rename_i hgt
    simp only [Option.bind_eq_some_iff] at hst
    obtain ⟨size, -, bytes, -, tmp, -, span, -, hst⟩ := hst
    injection hst with hst
    subst hst
    exact ⟨rfl, Or.inr ⟨hgt, rfl⟩⟩
  · rename_i hle
    injection hst with hst
    subst hst
    exact ⟨rfl, Or.inl ⟨not_lt.mp hle, rfl⟩⟩

/-- **What `RetValue` selects.**  The clock is at least the local one and every response's; and it
comes with the local entry, or it is a response's that is greater than the local one. -/
theorem readResponses_spec {ctx : ReplicaContext} {size : Nat} {node : Node} {res : RetValue}
    {st : ReadState}
    (hform : ∀ buf ∈ ctx.cache, ∃ (t : Lamport) (v : List UInt8),
      buf.text.ptr = image (node.key ++ t.toBytes) v [])
    (h : readResponses ctx size node res = some st) :
    res.lamport ≤ st.max.1 ∧
      (∀ buf ∈ ctx.cache, ∀ t, respClock (KeyAccess.addMetaSize node.key.length) buf.text = some t →
        t ≤ st.max.1) ∧
      (st.max = (res.lamport, res.toSpan) ∨ ∃ buf ∈ ctx.cache, res.lamport < st.max.1 ∧
        respClock (KeyAccess.addMetaSize node.key.length) buf.text = some st.max.1) := by
  simp only [readResponses, Option.bind_eq_bind, Option.bind_eq_some_iff] at h
  obtain ⟨tmp, -, h⟩ := h
  refine ReplicaContext.reduceResp_induct (P := fun seen (r : ReadState) => res.lamport ≤ r.max.1 ∧
      (∀ buf ∈ seen, ∀ t, respClock (KeyAccess.addMetaSize node.key.length) buf.text = some t →
        t ≤ r.max.1) ∧
      (r.max = (res.lamport, res.toSpan) ∨ ∃ buf ∈ seen, res.lamport < r.max.1 ∧
        respClock (KeyAccess.addMetaSize node.key.length) buf.text = some r.max.1))
    ⟨le_refl _, by simp, Or.inl rfl⟩ ?_ h
  rintro seen c r r' msg junk hc ⟨hloc, hseen, hfrom⟩ hmsg hr
  obtain ⟨t, v, himg⟩ := hform c hc
  have hsize : KeyAccess.addMetaSize node.key.length = node.key.length + 8 := rfl
  have hclock := respClock_image hsize himg
  obtain ⟨-, hpick⟩ := pickMax_image hsize (hmsg.trans (image_append_junk himg)) hr
  have hle : r.max.1 ≤ r'.max.1 ∧ t ≤ r'.max.1 := by
    rcases hpick with ⟨hle, he⟩ | ⟨hlt, he⟩
    · rw [he]; exact ⟨le_refl _, hle⟩
    · rw [he]; exact ⟨hlt.le, le_refl _⟩
  refine ⟨hloc.trans hle.1, fun buf hbuf t' ht' => ?_, ?_⟩
  · rcases List.mem_append.mp hbuf with hbuf | hbuf
    · exact (hseen buf hbuf t' ht').trans hle.1
    · rw [List.mem_singleton.mp hbuf, hclock, Option.some.injEq] at ht'
      exact ht' ▸ hle.2
  · rcases hpick with ⟨-, he⟩ | ⟨hlt, he⟩
    · rw [he]
      rcases hfrom with hfrom | ⟨buf, hbuf, hfrom⟩
      · exact Or.inl hfrom
      · exact Or.inr ⟨buf, List.mem_append_left _ hbuf, hfrom⟩
    · refine Or.inr ⟨c, by simp, ?_, ?_⟩
      · rw [he]; exact hloc.trans_lt hlt
      · rw [he]; exact hclock

end Avocado
