/-
# Nothing gets stuck

As long as every message fits in a buffer of `max_package_size` bytes (`Fits`), each step of a
continuation has a result: `GetTime` finds its largest count, `RetValue` its greatest clock, and the
messages they build can be sent.
-/
import Avocado.Abd.Pending
import Avocado.Abd.Dominance
import Avocado.Abd.Newest

namespace Avocado

open Bytes Lookup Records

/-! ## 1. Sizes -/

variable {Srv : Type}

/-- What the operations carry is small enough for the message buffers, which `create_buffers` makes
`max_package_size` bytes long. -/
structure Fits (cfg : Cfg Srv) (s : State Srv) : Prop where
  package : cfg.maxPackageSize < 2 ^ 62
  response : ∀ ctx ∈ s.ctxs, ∀ buf ∈ ctx.rep.cache, buf.text.ptr.length ≤ cfg.maxPackageSize
  call : ∀ ctx ∈ s.ctxs, ∀ node, ctx.rep.data = some node →
    node.key.length + node.metaData.data.length ≤ cfg.maxPackageSize
  read : ∀ x th r, (s.pc x th).localResp = some r → r.size ≤ cfg.maxPackageSize
  stored : ∀ x k m, (s.kv x).find k = some m → k.length + m.data.length ≤ cfg.maxPackageSize

/-! ## 2. The reductions -/

/-- **`GetTime` finds its count.** -/
theorem exists_reduceCount {ctx : ReplicaContext} (hs : ctx.Sized)
    (hform : ∀ buf ∈ ctx.cache, ∃ t, StampFor buf t) (init : BitVec 32) :
    ∃ max, ctx.reduceResp maxCount init = some max := by
  have : Nonempty Lamport := ⟨Lamport.min⟩
  choose! clock hclock using hform
  have hts : List.Forall₂ StampFor ctx.cache (ctx.cache.map clock) :=
    List.forall₂_map_right_iff.mpr (List.forall₂_same.mpr hclock)
  obtain ⟨max, hmax, -⟩ := exists_largest hs hts init
  exact ⟨max, hmax⟩

variable {maxPackageSize : Nat}

/-- **`RetValue` finds its result**, and the bytes it names can be read. -/
theorem exists_readResponses {ctx : ReplicaContext} (node : Node) {loc : RetValue}
    {v : List UInt8} (hs : ctx.Sized) (hmax : maxPackageSize < 2 ^ 64)
    (hform : ∀ buf ∈ ctx.cache, ∃ e, ValueFor node.key buf e)
    (hfits : ∀ buf ∈ ctx.cache, buf.text.ptr.length ≤ maxPackageSize)
    (hloc : loc.toSpan.bytes = some v) :
    ∃ st v', readResponses ctx maxPackageSize node loc = some st ∧ st.max.2.bytes = some v' ∧
      (v' = v ∨ v'.length = node.key.length + 8 ∧ 24 + node.key.length ≤ maxPackageSize) := by
  have : Nonempty (Lamport × List UInt8) := ⟨(Lamport.min, [])⟩
  choose! entry hentry using hform
  have hes : List.Forall₂ (ValueFor node.key) ctx.cache (ctx.cache.map entry) :=
    List.forall₂_map_right_iff.mpr (List.forall₂_same.mpr hentry)
  have hsmall : ∀ e ∈ ctx.cache.map entry, 24 + node.key.length + e.2.length ≤ maxPackageSize := by
    intro e he
    obtain ⟨buf, hbuf, rfl⟩ := List.mem_map.mp he
    have hle := hfits buf hbuf
    rw [hentry buf hbuf, length_image, List.length_append, Lamport.length_toBytes,
      List.length_nil] at hle
    omega
  have hread := readResponses_eq maxPackageSize loc hs hes
  rw [Msg.alloc_eq hmax, Option.bind_some] at hread
  obtain ⟨tmp, hlay, hlen⟩ := exists_lay (records Prod.fst loc.lamport (ctx.cache.map entry))
    ⟨List.replicate maxPackageSize 0, by simpa using hmax⟩ fun e he => by
      have hle := hsmall e (mem_of_mem_records he)
      have hfit : node.key.length + 8 + e.2.length ≤ maxPackageSize := by omega
      simpa only [List.length_replicate] using hfit
  rw [hlay, Option.map_some] at hread
  rw [List.length_replicate] at hlen
  cases hlast : (records Prod.fst loc.lamport (ctx.cache.map entry)).getLast? with
  | none =>
    refine ⟨_, v, hread, ?_, Or.inl rfl⟩
    simpa only [kept, hlast] using hloc
  | some e =>
    have hle := hsmall e (getLast?_records hlast).1
    obtain ⟨v', hv', hl'⟩ := exists_keySpan_bytes node.key tmp (by omega)
    refine ⟨_, v', hread, ?_, Or.inr ⟨hl', by omega⟩⟩
    simpa only [kept, hlast] using hv'

/-! ## 3. Handlers -/

variable {cfg : Cfg Srv} {s s' : State Srv}

/-- **What a handler answers to a well-formed request** is one message. -/
theorem reqHandlers_of_reqOk (srv : Server) {ctx : Ctx Srv} {dst : Srv} {type : ReqType}
    {buf : MsgBuffer} (h : ReqOk cfg ctx dst type buf) :
    ∃ kv k v, (reqHandlers srv type buf = (encode k v).bind fun a => some ⟨kv, some a, none⟩) ∧
      (k.length + v.length ≤ 8 ∨ ctx.cont = .retValue ∧
        k.length + v.length = 8 + (ctx.key.length + (srv.kv.valueOf ctx.key).length)) := by
  have hf := h.form
  split at hf
  · obtain ⟨rfl, himg⟩ := hf
    have hans : reqHandlers srv .getTimeStamp buf = reqGetTimeStamp srv buf.text := by
      simp only [reqHandlers, getData_image himg, Option.bind_eq_bind, Option.bind_some]
    exact ⟨_, _, _, hans.trans (reqGetTimeStamp_image himg), Or.inl (by simp)⟩
  · rename_i hcont
    obtain ⟨rfl, v, himg⟩ := hf
    have hans : reqHandlers srv .getValueTimeStamp buf = reqGetValueTimeStamp srv buf.text := by
      simp only [reqHandlers, getData_image himg, Option.bind_eq_bind, Option.bind_some]
    refine ⟨_, _, _, hans.trans (reqGetValueTimeStamp_image himg), Or.inr ⟨hcont, ?_⟩⟩
    rw [List.length_append, Lamport.length_toBytes]
    omega
  all_goals
    obtain ⟨rfl, t, v, himg⟩ := hf
    have hans : reqHandlers srv .putReplica buf = reqPutReplica srv buf.text := by
      simp only [reqHandlers, getData_image himg, Option.bind_eq_bind, Option.bind_some]
    exact ⟨_, _, _, hans.trans (reqPutReplica_image himg), Or.inl (by simp [ack])⟩

/-- A stored value is that of an entry, or there is none. -/
theorem Fits.valueOf (h : Fits cfg s) (x : Srv) {k : List UInt8}
    (hk : k.length ≤ cfg.maxPackageSize) :
    k.length + ((s.kv x).valueOf k).length ≤ cfg.maxPackageSize := by
  unfold KVStore.valueOf
  split
  · simpa using hk
  · rename_i m hm
    exact h.stored x k m hm

/-! ## 4. What the steps rely on -/

section Steps

variable [DecidableEq Srv]

/-- What a thread has read is some store's answer, and an answer in flight is not empty. -/
structure Intact (s : State Srv) : Prop where
  read : ∀ x th r, (s.pc x th).localResp = some r → ∃ (kv : KVStore) (k : List UInt8), r = kv.get k
  answer : ∀ c src buf, Packet.response c src buf ∈ s.net → 0 < buf.text.ptr.length

omit [DecidableEq Srv] in
theorem Intact.init : Intact (State.init Srv) where
  read x th r h := absurd h (by simp [State.init, Pc.localResp])
  answer c src buf h := absurd h (by simp [State.init])

theorem Intact.step {a : Action Srv} (h : Intact s) (hinv : Inv cfg anyLow s)
    (hm : Moved cfg s a s') : Intact s' where
  read x th r hr := by
    rcases turns_of_moved hm x th with hsame | hturn
    · exact h.read x th r (hsame ▸ hr)
    · generalize s'.pc x th = q at hturn hr
      cases hturn with
      | enter hi hc hpc hrc hcont =>
        rcases hcont with ⟨-, rfl⟩ | ⟨-, rfl⟩ <;> simp [Pc.localResp] at hr
      | @kvGet _ _ c ctx node _ hpc hc hd =>
        rcases hpc with ⟨-, rfl⟩ | ⟨-, rfl⟩
        · exact ⟨s.kv x, node.key, (Option.some.inj hr).symm⟩
        · exact ⟨s.kv x, node.key, (Option.some.inj hr).symm⟩
      | choose | send | store | report => simp [Pc.localResp] at hr
  answer c src buf hp := by
    rcases posts_of_moved hm hp with hold | hnew
    · exact h.answer c src buf hold
    · cases hnew with
      | answer hi hh =>
        obtain ⟨ctx, hc, hreq⟩ := hinv.net _ (List.mem_of_getElem? hi)
        obtain ⟨kv, k, v, heq, -⟩ := reqHandlers_of_reqOk ⟨s.kv src, none⟩ hreq
        rw [heq, Option.bind_eq_some_iff] at hh
        obtain ⟨m, hm, hh⟩ := hh
        simp only [Option.some.injEq, Handled.mk.injEq, and_true] at hh
        rw [← hh.2, encode_eq_some hm, length_image]
        omega

/-! ## 5. Every step has a result -/

/-- A context with replicas or without can be opened, and its message sent. -/
theorem exists_send (s : State Srv) (ctx : Ctx Srv) (type : ReqType) {reps : List Srv}
    {k v : List UInt8} {msg : Msg}
    (hreps : cfg.reps ctx.srv ctx.key = some reps) (hmsg : encode k v = some msg) :
    ∃ s', s.send cfg ctx type msg = some s' := by
  simp only [State.send, hreps, Msg.frame_of_encode hmsg, Option.bind_eq_bind, Option.bind_some]
  split
  · exact ⟨_, rfl⟩
  · exact ⟨_, rfl⟩

/-- A request in flight can be handled. -/
theorem exists_request {i c : Nat} {dst : Srv} {type : ReqType} {buf : MsgBuffer} (hf : Fits cfg s)
    (hinv : Inv cfg anyLow s) (hi : s.net[i]? = some (.request c dst type buf)) :
    ∃ s', step cfg s (.request i) = some s' := by
  obtain ⟨ctx, hc, hreq⟩ := hinv.net _ (List.mem_of_getElem? hi)
  obtain ⟨kv, k, v, heq, hsize⟩ := reqHandlers_of_reqOk ⟨s.kv dst, none⟩ hreq
  have hsmall : 16 + (k.length + v.length) < 2 ^ 64 := by
    rcases hsize with hsize | ⟨hcont, hsize⟩
    · omega
    · have hform := (hinv.ctx c ctx hc).form
      rw [hcont] at hform
      have hkey := hf.call ctx (List.mem_of_getElem? hc) _ hform.2.1
      have hval := hf.valueOf dst (k := ctx.key) (by simpa using hkey)
      have hpkg := hf.package
      simp only at hsize
      omega
  obtain ⟨a, ha⟩ := exists_encode hsmall
  simp only [step, State.request, hi, heq, ha, Option.bind_eq_bind, Option.bind_some]
  exact ⟨_, rfl⟩

/-- A response in flight can be dealt with when its thread is in its event loop. -/
theorem exists_response {i c : Nat} {src : Srv} {buf : MsgBuffer} {ctx : Ctx Srv} (h : Intact s)
    (hi : s.net[i]? = some (.response c src buf)) (hc : s.ctxs[c]? = some ctx)
    (hpc : s.pc ctx.srv ctx.thread = .idle) : ∃ s', step cfg s (.response i) = some s' := by
  obtain ⟨⟨rep, run⟩, hr⟩ := ReplicaContext.exists_reqConts ctx.rep
    (h.answer c src buf (List.mem_of_getElem? hi))
  simp only [step, State.response, hi, hc, hr, if_pos hpc, Option.bind_eq_bind, Option.bind_some]
  split
  · split <;> exact ⟨_, rfl⟩
  · exact ⟨_, rfl⟩

/-- **A continuation can be taken on.** -/
theorem exists_advance {x : Srv} {th : Nat} (hf : Fits cfg s) (hinv : Inv cfg anyLow s)
    (hcount : Counted cfg s.ctxs s.net) (hint : Intact s) (hpc : s.pc x th ≠ .idle) :
    ∃ s', step cfg s (.advance x th) = some s' := by
  have hpkg := hf.package
  cases hp : s.pc x th with
  | idle => exact absurd hp hpc
  | getTime c =>
    obtain ⟨ctx, hc, -⟩ := hinv.pc x th c .getTime (by rw [hp]; rfl)
    obtain ⟨-, -, -, -, -, v, hdata, -⟩ := hinv.getTime_ctx (by rw [hp]; rfl) hc
    simp only [step, State.advance, hp, hc, hdata, Option.bind_eq_bind, Option.bind_some]
    exact ⟨_, rfl⟩
  | getTimeGot c loc =>
    obtain ⟨ctx, hc, -, -, hcont, -⟩ := hinv.pc x th c .getTime (by rw [hp]; rfl)
    obtain ⟨max, hmax⟩ := exists_reduceCount (hcount.ctx c ctx hc).sized (hinv.stamp_form hc hcont)
      loc.lamport.count
    simp only [step, State.advance, hp, hc, hmax, Option.bind_eq_bind, Option.bind_some]
    exact ⟨_, rfl⟩
  | getTimeChosen c clock =>
    obtain ⟨ctx, hc, -⟩ := hinv.pc x th c .getTime (by rw [hp]; rfl)
    obtain ⟨hx, -, -, -, -, v, hdata, -⟩ := hinv.getTime_ctx (by rw [hp]; rfl) hc
    obtain ⟨reps, hreps, -⟩ := (hcount.ctx c ctx hc).group
    have hsize := hf.call ctx (List.mem_of_getElem? hc) _ hdata
    simp only at hsize
    obtain ⟨msg, hmsg⟩ := exists_encode_clock (k := ctx.key) (v := v) (by omega) clock
    obtain ⟨s₁, hs⟩ := exists_send s ⟨x, th, .ackPutTime, ctx.key, ctx.op, {}⟩
      .putReplica (hx ▸ hreps) hmsg
    simp only [step, State.advance, hp, hc, hdata, putMsg_eq, hmsg, hs, Option.bind_eq_bind,
      Option.bind_some]
    exact ⟨_, rfl⟩
  | getTimeSent c clock =>
    obtain ⟨ctx, hc, -⟩ := hinv.pc x th c .getTime (by rw [hp]; rfl)
    obtain ⟨-, -, -, -, -, v, hdata, -⟩ := hinv.getTime_ctx (by rw [hp]; rfl) hc
    simp only [step, State.advance, hp, hc, hdata, Option.bind_eq_bind, Option.bind_some]
    exact ⟨_, rfl⟩
  | retValue c =>
    obtain ⟨ctx, hc, -⟩ := hinv.pc x th c .retValue (by rw [hp]; rfl)
    obtain ⟨-, -, -, -, hdata, -⟩ := hinv.retValue_ctx (by rw [hp]; rfl) hc
    simp only [step, State.advance, hp, hc, hdata, Option.bind_eq_bind, Option.bind_some]
    exact ⟨_, rfl⟩
  | retValueGot c loc =>
    obtain ⟨ctx, hc, -⟩ := hinv.pc x th c .retValue (by rw [hp]; rfl)
    obtain ⟨hx, -, hcont, -, hdata, -⟩ := hinv.retValue_ctx (by rw [hp]; rfl) hc
    obtain ⟨reps, hreps, -⟩ := (hcount.ctx c ctx hc).group
    have hmem := List.mem_of_getElem? hc
    have hsize := hf.call ctx hmem _ hdata
    simp only [List.length_nil] at hsize
    obtain ⟨kv, k, hloc⟩ := hint.read x th loc (by rw [hp]; rfl)
    have hread := hf.read x th loc (by rw [hp]; rfl)
    have hbytes : loc.toSpan.bytes = some (kv.valueOf k) := hloc ▸ KVStore.get_bytes kv k
    have hlen : (kv.valueOf k).length = loc.size := span_read_all hbytes
    obtain ⟨st, v, hst, hv, hvlen⟩ := exists_readResponses ⟨ctx.key, ⟨Lamport.min, []⟩⟩
      (hcount.ctx c ctx hc).sized (by omega)
      (fun buf hbuf => by
        obtain ⟨t, w, himg⟩ := hinv.value_form hc hcont buf hbuf
        exact ⟨(t, w), himg⟩)
      (hf.response ctx hmem) hbytes
    have hvle : v.length ≤ cfg.maxPackageSize + 8 := by
      simp only at hvlen
      rcases hvlen with rfl | ⟨hvlen, -⟩ <;> omega
    obtain ⟨msg, hmsg⟩ := exists_encode_clock (k := ctx.key) (v := v) (by omega) st.max.1
    have hback : writeBackMsg ⟨ctx.key, ⟨Lamport.min, []⟩⟩ st.max = some msg :=
      (writeBackMsg_eq hv).trans hmsg
    obtain ⟨s₁, hs⟩ := exists_send s ⟨x, th, .retGetPutUpdate, ctx.key, ctx.op, {}⟩
      .putReplica (hx ▸ hreps) hmsg
    by_cases hwb : (!consens st ctx.rep.nMsgs && decide (st.max.2.size > 0)) = true
    · simp only [step, State.advance, hp, hc, hdata, hst, if_pos hwb, hback, hs,
        Option.bind_eq_bind, Option.bind_some]
      exact ⟨_, rfl⟩
    · simp only [step, State.advance, hp, hc, hdata, hst, if_neg hwb, Option.bind_eq_bind,
        Option.bind_some]
      exact ⟨_, rfl⟩

end Steps

end Avocado
