/-
# The shape of a reachable state

`Inv` says that every message in flight and every cached response is one that the handlers and
continuations of the source build, that every thread inside a continuation is inside one of its
own contexts, and that every context belongs to an operation that was called.

It carries a parameter `low`, a property of (operation, key, server, clock) that every server's
clock has NOW and that every clock some server reported to an operation shall have had.  With
`low` true it is plain well-formedness; the regularity proofs use it with "at least `T`, on the
servers that held `T` when the operation started".  `Inv.step` is proved once for both.
-/
import Avocado.Abd.Frame

namespace Avocado

open Lookup

variable {Srv : Type}

/-! ## 1. The invariant -/

/-- A property of the clock that a server reports to an operation on a key. -/
abbrev Low (Srv : Type) := Nat → List UInt8 → Srv → Lamport → Prop

/-- Server `x` contacts server `y` for key `k`. -/
def Contacts (cfg : Cfg Srv) (x : Srv) (k : List UInt8) (y : Srv) : Prop :=
  ∃ reps, cfg.reps x k = some reps ∧ y ∈ reps

/-- A request of a context: it goes to a replica of the key and has the form its type wants. -/
structure ReqOk (cfg : Cfg Srv) (ctx : Ctx Srv) (dst : Srv) (type : ReqType) (buf : MsgBuffer) :
    Prop where
  contacts : Contacts cfg ctx.srv ctx.key dst
  form : match ctx.cont with
    | .getTime => type = .getTimeStamp ∧ buf.text.ptr = image ctx.key [] []
    | .retValue => type = .getValueTimeStamp ∧ ∃ v, buf.text.ptr = image ctx.key v []
    | .ackPutTime | .retGetPutUpdate =>
      type = .putReplica ∧ ∃ (t : Lamport) (v : List UInt8),
        buf.text.ptr = image (ctx.key ++ t.toBytes) v []

/-- A response to a context. -/
structure RespOk (cfg : Cfg Srv) (low : Low Srv) (ctx : Ctx Srv) (src : Srv) (buf : MsgBuffer) :
    Prop where
  contacts : Contacts cfg ctx.srv ctx.key src
  form : match ctx.cont with
    | .getTime => ∃ t, buf.text.ptr = image t.toBytes [] [] ∧ low ctx.op ctx.key src t
    | .retValue => ∃ t v, buf.text.ptr = image (ctx.key ++ t.toBytes) v [] ∧
        low ctx.op ctx.key src t
    | .ackPutTime | .retGetPutUpdate => True

/-- A packet. -/
def PacketOk (cfg : Cfg Srv) (low : Low Srv) (s : State Srv) : Packet Srv → Prop
  | .request c dst type buf => ∃ ctx, s.ctxs[c]? = some ctx ∧ ReqOk cfg ctx dst type buf
  | .response c src buf => ∃ ctx, s.ctxs[c]? = some ctx ∧ RespOk cfg low ctx src buf

/-- A context in place `c`: `GetTime` and `RetValue` contexts name their own operation and hold
its key and value; the others point back to one of these. -/
structure CtxOk (cfg : Cfg Srv) (low : Low Srv) (s : State Srv) (c : Nat) (ctx : Ctx Srv) :
    Prop where
  op_le : ctx.op ≤ c
  form : match ctx.cont with
    | .getTime => ctx.op = c ∧ ∃ v, ctx.rep.data = some ⟨ctx.key, ⟨Lamport.min, v⟩⟩ ∧
        .invokePut c ctx.srv ctx.key v ∈ s.log
    | .retValue => ctx.op = c ∧ ctx.rep.data = some ⟨ctx.key, ⟨Lamport.min, []⟩⟩ ∧
        .invokeGet c ctx.srv ctx.key ∈ s.log
    | .ackPutTime => ∃ ctx₀, s.ctxs[ctx.op]? = some ctx₀ ∧ ctx₀.cont = .getTime ∧
        ctx₀.srv = ctx.srv ∧ ctx₀.thread = ctx.thread ∧ ctx₀.key = ctx.key
    | .retGetPutUpdate => True
  cache : ∀ buf ∈ ctx.rep.cache, ∃ src, RespOk cfg low ctx src buf

/-- The context and continuation a thread is inside. -/
def Pc.inside : Pc → Option (Nat × ContType)
  | .idle => none
  | .getTime c | .getTimeGot c _ | .getTimeChosen c _ | .getTimeSent c _ => some (c, .getTime)
  | .retValue c | .retValueGot c _ => some (c, .retValue)

/-- The answer of the thread's own store, once it has read it. -/
def Pc.localResp : Pc → Option RetValue
  | .getTimeGot _ r | .retValueGot _ r => some r
  | _ => none

/-- A thread inside a continuation: the context is its own, is `done`, and has a response. -/
def PcOk (low : Low Srv) (s : State Srv) (x : Srv) (th : Nat) (pc : Pc) : Prop :=
  ∀ c cont, pc.inside = some (c, cont) → ∃ ctx, s.ctxs[c]? = some ctx ∧ ctx.srv = x ∧
    ctx.thread = th ∧ ctx.cont = cont ∧ ctx.rep.done = true ∧ ctx.rep.cache ≠ [] ∧
    ∀ r, pc.localResp = some r → low ctx.op ctx.key x r.lamport

/-- The shape of a reachable state. -/
structure Inv (cfg : Cfg Srv) (low : Low Srv) (s : State Srv) : Prop where
  ctx : ∀ (c : Nat) (ctx : Ctx Srv), s.ctxs[c]? = some ctx → CtxOk cfg low s c ctx
  pc : ∀ x th, PcOk low s x th (s.pc x th)
  net : ∀ p ∈ s.net, PacketOk cfg low s p

/-! ## 2. Carrying the parts along a step -/

variable {cfg : Cfg Srv} {low : Low Srv} {s s' : State Srv} {a b : Ctx Srv}

theorem ReqOk.same {dst : Srv} {type : ReqType} {buf : MsgBuffer} (h : ReqOk cfg a dst type buf)
    (hs : a.Same b) : ReqOk cfg b dst type buf where
  contacts := by rw [hs.srv, hs.key]; exact h.contacts
  form := by rw [hs.cont, hs.key]; exact h.form

theorem RespOk.same {src : Srv} {buf : MsgBuffer} (h : RespOk cfg low a src buf)
    (hs : a.Same b) : RespOk cfg low b src buf where
  contacts := by rw [hs.srv, hs.key]; exact h.contacts
  form := by rw [hs.cont, hs.key, hs.op]; exact h.form

theorem PacketOk.table {p : Packet Srv} (h : PacketOk cfg low s p) (ht : Table s s') :
    PacketOk cfg low s' p := by
  cases p with
  | request c dst type buf =>
    obtain ⟨ctx, hc, hr⟩ := h
    obtain ⟨ctx', hc', hs⟩ := ht.fwd c ctx hc
    exact ⟨ctx', hc', hr.same hs⟩
  | response c src buf =>
    obtain ⟨ctx, hc, hr⟩ := h
    obtain ⟨ctx', hc', hs⟩ := ht.fwd c ctx hc
    exact ⟨ctx', hc', hr.same hs⟩

theorem PcOk.table {x : Srv} {th : Nat} {pc : Pc} (h : PcOk low s x th pc) (ht : Table s s') :
    PcOk low s' x th pc := by
  intro c cont hin
  obtain ⟨ctx, hc, hx, hth, hcont, hd, hne, hr⟩ := h c cont hin
  obtain ⟨ctx', hc', hs⟩ := ht.fwd c ctx hc
  refine ⟨ctx', hc', hs.srv.trans hx, hs.thread.trans hth, hs.cont.trans hcont, hs.done hd, ?_, ?_⟩
  · obtain ⟨r, hr⟩ := List.exists_mem_of_ne_nil _ hne
    exact List.ne_nil_of_mem (hs.cache r hr)
  · rw [hs.op, hs.key]
    exact hr

theorem CtxOk.table {c : Nat} {ctx ctx' : Ctx Srv} (h : CtxOk cfg low s c ctx) (ht : Table s s')
    (hs : ctx.Same ctx') (hlog : ∀ e ∈ s.log, e ∈ s'.log)
    (hcache : ∀ buf ∈ ctx'.rep.cache, buf ∈ ctx.rep.cache ∨ ∃ src, RespOk cfg low ctx' src buf) :
    CtxOk cfg low s' c ctx' where
  op_le := hs.op ▸ h.op_le
  form := by
    have hf := h.form
    rw [hs.cont, hs.op, hs.data, hs.key, hs.srv, hs.thread]
    split at hf
    · obtain ⟨h1, v, h2, h3⟩ := hf
      exact ⟨h1, v, h2, hlog _ h3⟩
    · obtain ⟨h1, h2, h3⟩ := hf
      exact ⟨h1, h2, hlog _ h3⟩
    · obtain ⟨ctx₀, h0, h1, h2, h3, h4⟩ := hf
      obtain ⟨ctx₁, h0', hs'⟩ := ht.fwd _ _ h0
      exact ⟨ctx₁, h0', hs'.cont.trans h1, hs'.srv.trans h2, hs'.thread.trans h3,
        hs'.key.trans h4⟩
    · trivial
  cache buf hbuf := by
    rcases hcache buf hbuf with hold | hnew
    · obtain ⟨src, hr⟩ := h.cache buf hold
      exact ⟨src, hr.same hs⟩
    · exact hnew

/-- **What a step has to show.**  Everything that was there is carried along; left are the packets,
threads, responses and contexts the step adds. -/
theorem Inv.carry (h : Inv cfg low s) (ht : Table s s') (hlog : ∀ e ∈ s.log, e ∈ s'.log)
    (hctx : ∀ (c : Nat) (ctx' : Ctx Srv), s'.ctxs[c]? = some ctx' → CtxOk cfg low s' c ctx' ∨
      ∃ ctx, s.ctxs[c]? = some ctx ∧ ctx.Same ctx' ∧
        ∀ buf ∈ ctx'.rep.cache, buf ∈ ctx.rep.cache ∨ ∃ src, RespOk cfg low ctx' src buf)
    (hpc : ∀ x th, s'.pc x th = s.pc x th ∨ PcOk low s' x th (s'.pc x th))
    (hnet : ∀ p ∈ s'.net, p ∈ s.net ∨ PacketOk cfg low s' p) : Inv cfg low s' where
  ctx c ctx' hc := by
    rcases hctx c ctx' hc with hok | ⟨ctx, hold, hs, hcache⟩
    · exact hok
    · exact (h.ctx c ctx hold).table ht hs hlog hcache
  pc x th := by
    rcases hpc x th with he | hok
    · rw [he]; exact (h.pc x th).table ht
    · exact hok
  net p hp := (hnet p hp).elim (fun hold => (h.net p hold).table ht) id

/-! ## 3. Sending -/

/-- Sending keeps the invariant, when the new context and its message are in order. -/
theorem Inv.sent {ctx : Ctx Srv} {type : ReqType} {msg : Msg} (h : Inv cfg low s)
    (hs : Sent cfg s ctx type msg s')
    (hctx : ∀ n, CtxOk cfg low s' s.ctxs.length
      { ctx with rep := { ctx.rep with nMsgs := n } })
    (hmsg : ∀ dst wire, Contacts cfg ctx.srv ctx.key dst → msg.frame = some wire →
      ReqOk cfg ctx dst type ⟨true, wire⟩) : Inv cfg low s' := by
  obtain ⟨n, hn⟩ := hs.ctxs
  have ht : Table s s' := .of_concat hn
  have hlog : ∀ e ∈ s.log, e ∈ s'.log := by
    obtain ⟨es, he, -⟩ := hs.log
    exact fun e hmem => he ▸ List.mem_append_left _ hmem
  refine h.carry ht hlog ?_ (fun x th => Or.inl (by rw [hs.pc])) ?_
  · intro c ctx' hc
    rw [hn] at hc
    rcases getElem?_concat hc with hc | ⟨rfl, rfl⟩
    · exact Or.inr ⟨ctx', hc, .refl ctx', fun buf hb => Or.inl hb⟩
    · exact Or.inl (hctx n)
  · intro p hp
    rcases hs.net p hp with hp | ⟨r, reps, wire, hreps, hr, hw, rfl⟩
    · exact Or.inl hp
    · refine Or.inr ⟨{ ctx with rep := { ctx.rep with nMsgs := n } }, ?_, ?_⟩
      · rw [hn, List.getElem?_append_right (Nat.le_refl _)]
        simp
      · have hreq := hmsg r wire ⟨reps, hreps, hr⟩ hw
        exact ⟨hreq.contacts, hreq.form⟩

/-! ## 4. Handling a request, caching a response -/

/-- **What a handler does with a well-formed request**: the two reads are answered from the
server's entry, and a `PutReplica` puts the entry it carries. -/
theorem handled_of_reqOk {ctx : Ctx Srv} {dst : Srv} {type : ReqType} {buf : MsgBuffer}
    {srv : Server} {kv : KVStore} {answer : Msg} (h : ReqOk cfg ctx dst type buf)
    (hh : reqHandlers srv type buf = some ⟨kv, some answer, none⟩) :
    match ctx.cont with
    | .getTime => kv = srv.kv ∧ answer.ptr = image (srv.kv.clockOf ctx.key).toBytes [] []
    | .retValue => kv = srv.kv ∧ answer.ptr =
        image (ctx.key ++ (srv.kv.clockOf ctx.key).toBytes) (srv.kv.valueOf ctx.key) []
    | .ackPutTime | .retGetPutUpdate => ∀ (t : Lamport) (v : List UInt8),
        buf.text.ptr = image (ctx.key ++ t.toBytes) v [] → kv = (srv.kv.put ctx.key v t).1 := by
  have hf := h.form
  split at hf
  · obtain ⟨rfl, himg⟩ := hf
    simp only [reqHandlers, getData_image himg, Option.bind_eq_bind, Option.bind_some,
      reqGetTimeStamp_image himg, Option.bind_eq_some_iff, Option.some.injEq, Handled.mk.injEq,
      and_true] at hh
    obtain ⟨a, ha, rfl, rfl⟩ := hh
    exact ⟨rfl, encode_eq_some ha⟩
  · obtain ⟨rfl, v, himg⟩ := hf
    simp only [reqHandlers, getData_image himg, Option.bind_eq_bind, Option.bind_some,
      reqGetValueTimeStamp_image himg, Option.bind_eq_some_iff, Option.some.injEq,
      Handled.mk.injEq, and_true] at hh
    obtain ⟨a, ha, rfl, rfl⟩ := hh
    exact ⟨rfl, encode_eq_some ha⟩
  all_goals
    obtain ⟨rfl, -⟩ := hf
    intro t v himg
    simp only [reqHandlers, getData_image himg, Option.bind_eq_bind, Option.bind_some,
      reqPutReplica_image himg, Option.bind_eq_some_iff, Option.some.injEq, Handled.mk.injEq,
      and_true] at hh
    obtain ⟨a, -, rfl, -⟩ := hh
    rfl

/-- The answer to a well-formed request is a well-formed response. -/
theorem RespOk.of_handled {ctx : Ctx Srv} {dst : Srv} {type : ReqType} {buf : MsgBuffer}
    {srv : Server} {kv : KVStore} {answer : Msg} (h : ReqOk cfg ctx dst type buf)
    (hh : reqHandlers srv type buf = some ⟨kv, some answer, none⟩)
    (hlow : low ctx.op ctx.key dst (srv.kv.clockOf ctx.key)) :
    RespOk cfg low ctx dst ⟨true, answer⟩ where
  contacts := h.contacts
  form := by
    have hd := handled_of_reqOk h hh
    split at hd
    · exact ⟨_, hd.2, hlow⟩
    · exact ⟨_, _, hd.2, hlow⟩
    · trivial
    · trivial

/-- Caching a response, whatever the thread does then. -/
theorem Inv.cached {i c : Nat} {src : Srv} {buf : MsgBuffer} {ctx : Ctx Srv} {rep : ReplicaContext}
    {run : Bool} (h : Inv cfg low s) (hi : s.net[i]? = some (.response c src buf))
    (hc : s.ctxs[c]? = some ctx) (hr : ctx.rep.reqConts buf = some (rep, run))
    (hctxs : s'.ctxs = s.ctxs.set c { ctx with rep := rep }) (hnet : s'.net = s.net.eraseIdx i)
    (hlog : ∀ e ∈ s.log, e ∈ s'.log)
    (hpc : ∀ x th, s'.pc x th = s.pc x th ∨ PcOk low s' x th (s'.pc x th)) : Inv cfg low s' := by
  have hsame : ctx.Same { ctx with rep := rep } := same_of_reqConts hr
  obtain ⟨hcache, -⟩ := reqConts_cases hr
  refine h.carry (.of_set hc hsame hctxs) hlog ?_ hpc ?_
  · intro d ctx' hd
    rw [hctxs] at hd
    rcases getElem?_set_cases hd with ⟨rfl, rfl⟩ | ⟨-, hd⟩
    · refine Or.inr ⟨ctx, hc, hsame, fun b hb => ?_⟩
      simp only [hcache, List.mem_append, List.mem_singleton] at hb
      rcases hb with hb | rfl
      · exact Or.inl hb
      · obtain ⟨ctx₁, hc₁, hok⟩ := h.net _ (List.mem_of_getElem? hi)
        rw [hc, Option.some.injEq] at hc₁
        exact Or.inr ⟨src, hc₁ ▸ hok.same (hc₁ ▸ hsame)⟩
    · exact Or.inr ⟨ctx', hd, .refl ctx', fun b hb => Or.inl hb⟩
  · intro p hp
    exact Or.inl (List.mem_of_mem_eraseIdx (hnet ▸ hp))

theorem pcOk_idle (x : Srv) (th : Nat) : PcOk low s x th .idle := by
  intro c cont hin
  exact absurd hin (by simp [Pc.inside])

/-- The same context, further on in its continuation. -/
theorem PcOk.next {x : Srv} {th : Nat} {pc pc' : Pc} (h : PcOk low s x th pc)
    (hin : pc'.inside = pc.inside) (hloc : pc'.localResp = none) : PcOk low s x th pc' := by
  intro c cont hin'
  obtain ⟨ctx, hc, hx, hth, hcont, hd, hne, -⟩ := h c cont (hin ▸ hin')
  exact ⟨ctx, hc, hx, hth, hcont, hd, hne, fun r hr => absurd hr (by simp [hloc])⟩

/-- Nothing but the history and the counters changes. -/
theorem Inv.noted (h : Inv cfg low s) (hctxs : s'.ctxs = s.ctxs) (hpc : s'.pc = s.pc)
    (hnet : s'.net = s.net) (hlog : ∀ e ∈ s.log, e ∈ s'.log) : Inv cfg low s' :=
  h.carry (.of_eq hctxs) hlog
    (fun _ ctx' hc => Or.inr ⟨ctx', hctxs ▸ hc, .refl ctx', fun _ hb => Or.inl hb⟩)
    (fun _ _ => Or.inl (by rw [hpc])) (fun _ hp => Or.inl (hnet ▸ hp))

/-- A thread inside `GetTime`: the context is that of the put it works for. -/
theorem Inv.getTime_ctx {x : Srv} {th c : Nat} {ctx : Ctx Srv} (h : Inv cfg low s)
    (hpc : (s.pc x th).inside = some (c, .getTime)) (hc : s.ctxs[c]? = some ctx) :
    ctx.srv = x ∧ ctx.thread = th ∧ ctx.cont = .getTime ∧ ctx.rep.done = true ∧ ctx.op = c ∧
      ∃ v, ctx.rep.data = some ⟨ctx.key, ⟨Lamport.min, v⟩⟩ ∧ .invokePut c x ctx.key v ∈ s.log := by
  obtain ⟨ctx', hc', hx, hth, hcont, hdone, -⟩ := h.pc x th c _ hpc
  rw [hc, Option.some.injEq] at hc'
  subst hc'
  have hf := (h.ctx c ctx hc).form
  rw [hcont] at hf
  obtain ⟨hop, v, hdata, hev⟩ := hf
  exact ⟨hx, hth, hcont, hdone, hop, v, hdata, hx ▸ hev⟩

/-- A thread inside `RetValue`: the context is that of the get it works for. -/
theorem Inv.retValue_ctx {x : Srv} {th c : Nat} {ctx : Ctx Srv} (h : Inv cfg low s)
    (hpc : (s.pc x th).inside = some (c, .retValue)) (hc : s.ctxs[c]? = some ctx) :
    ctx.srv = x ∧ ctx.thread = th ∧ ctx.cont = .retValue ∧ ctx.op = c ∧
      ctx.rep.data = some ⟨ctx.key, ⟨Lamport.min, []⟩⟩ ∧ .invokeGet c x ctx.key ∈ s.log := by
  obtain ⟨ctx', hc', hx, hth, hcont, -⟩ := h.pc x th c _ hpc
  rw [hc, Option.some.injEq] at hc'
  subst hc'
  have hf := (h.ctx c ctx hc).form
  rw [hcont] at hf
  obtain ⟨hop, hdata, hev⟩ := hf
  exact ⟨hx, hth, hcont, hop, hdata, hx ▸ hev⟩

/-- The responses of a put's first phase are timestamps. -/
theorem Inv.stamp_form {c : Nat} {ctx : Ctx Srv} (h : Inv cfg low s) (hc : s.ctxs[c]? = some ctx)
    (hcont : ctx.cont = .getTime) :
    ∀ buf ∈ ctx.rep.cache, ∃ t : Lamport, buf.text.ptr = image t.toBytes [] [] := by
  intro buf hbuf
  obtain ⟨src, hr⟩ := (h.ctx c ctx hc).cache buf hbuf
  have hf := hr.form
  rw [hcont] at hf
  obtain ⟨t, himg, -⟩ := hf
  exact ⟨t, himg⟩

/-- The responses of a get are the key with a clock, and a value. -/
theorem Inv.value_form {c : Nat} {ctx : Ctx Srv} (h : Inv cfg low s) (hc : s.ctxs[c]? = some ctx)
    (hcont : ctx.cont = .retValue) : ∀ buf ∈ ctx.rep.cache, ∃ (t : Lamport) (v : List UInt8),
      buf.text.ptr = image (ctx.key ++ t.toBytes) v [] := by
  intro buf hbuf
  obtain ⟨src, hr⟩ := (h.ctx c ctx hc).cache buf hbuf
  have hf := hr.form
  rw [hcont] at hf
  obtain ⟨t, v, himg, -⟩ := hf
  exact ⟨t, v, himg⟩

/-- The node that a continuation reads its own store for has the operation's key. -/
theorem Inv.node_key {x : Srv} {th c : Nat} {ctx : Ctx Srv} {node : Node} (h : Inv cfg low s)
    (hpc : s.pc x th = .getTime c ∨ s.pc x th = .retValue c) (hc : s.ctxs[c]? = some ctx)
    (hd : ctx.rep.data = some node) : node.key = ctx.key := by
  rcases hpc with hpc | hpc
  · obtain ⟨-, -, -, -, -, v, hdata, -⟩ := h.getTime_ctx (by rw [hpc]; rfl) hc
    rw [hd, Option.some.injEq] at hdata
    rw [hdata]
  · obtain ⟨-, -, -, -, hdata, -⟩ := h.retValue_ctx (by rw [hpc]; rfl) hc
    rw [hd, Option.some.injEq] at hdata
    rw [hdata]

theorem Inv.init : Inv cfg low (State.init Srv) where
  ctx c ctx hc := absurd hc (by simp [State.init])
  pc x th := pcOk_idle x th
  net p hp := absurd hp (by simp [State.init])

/-! ## 5. What a step writes down -/

/-- A step that assigns a clock is the one of the put's thread that has reduced its responses. -/
theorem Inv.assigns {a : Action Srv} {op : Nat} {t : Lamport} (h : Inv cfg low s)
    (he : Emits cfg s s' a (.assign op t)) :
    ∃ loc ctx max, a = .advance ctx.srv ctx.thread ∧
      s.pc ctx.srv ctx.thread = .getTimeGot op loc ∧ s.ctxs[op]? = some ctx ∧
      ctx.cont = .getTime ∧ ctx.rep.done = true ∧
      ctx.rep.reduceResp maxCount loc.lamport.count = some max ∧
      t = ⟨max + 1, cfg.mId ctx.srv⟩ ∧ s'.pc ctx.srv ctx.thread = .getTimeChosen op t ∧
      ctx.op = op := by
  cases he with
  | @assign x th c loc ctx max hpc hc hm hpc' =>
    obtain ⟨rfl, rfl, hcont, hdone, rfl, -⟩ := h.getTime_ctx (by rw [hpc]; rfl) hc
    exact ⟨loc, ctx, max, rfl, hpc, hc, hcont, hdone, hm, rfl, hpc', rfl⟩

/-- A step that selects a clock is the one of the get's thread that has read the local entry. -/
theorem Inv.selects {a : Action Srv} {op : Nat} {t : Lamport} (h : Inv cfg low s)
    (he : Emits cfg s s' a (.select op t)) :
    ∃ loc ctx st, a = .advance ctx.srv ctx.thread ∧
      s.pc ctx.srv ctx.thread = .retValueGot op loc ∧ s.ctxs[op]? = some ctx ∧
      ctx.cont = .retValue ∧ ctx.rep.data = some ⟨ctx.key, ⟨Lamport.min, []⟩⟩ ∧
      readResponses ctx.rep cfg.maxPackageSize ⟨ctx.key, ⟨Lamport.min, []⟩⟩ loc = some st ∧
      t = st.max.1 ∧ ctx.op = op := by
  cases he with
  | @select x th c loc ctx node st hpc hc hd hst =>
    obtain ⟨rfl, rfl, hcont, rfl, hdata, -⟩ := h.retValue_ctx (by rw [hpc]; rfl) hc
    obtain rfl : node = ⟨ctx.key, ⟨Lamport.min, []⟩⟩ := Option.some.inj (hd.symm.trans hdata)
    exact ⟨loc, ctx, st, rfl, hpc, hc, hcont, hdata, hst, rfl, rfl⟩

/-! ## 6. The step and the run -/

section Step

variable [DecidableEq Srv]

/-- A thread that moves inside a continuation, or leaves it. -/
theorem Inv.moved {x : Srv} {th : Nat} {pc : Pc} (h : Inv cfg low s) (hctxs : s'.ctxs = s.ctxs)
    (hnet : s'.net = s.net) (hlog : ∀ e ∈ s.log, e ∈ s'.log)
    (hpcs : s'.pc = (s.setPc x th pc).pc) (hpc : PcOk low s x th pc) : Inv cfg low s' := by
  have ht : Table s s' := .of_eq hctxs
  refine h.carry ht hlog (fun c ctx' hc => Or.inr ⟨ctx', hctxs ▸ hc, .refl ctx',
    fun b hb => Or.inl hb⟩) ?_ (fun p hp => Or.inl (hnet ▸ hp))
  intro y t
  rw [hpcs]
  by_cases hy : y = x ∧ t = th
  · obtain ⟨rfl, rfl⟩ := hy
    rw [State.setPc_pc_self]
    exact Or.inr (hpc.table ht)
  · exact Or.inl (State.setPc_pc_of_ne _ _ _ hy)

/-- **One step keeps the shape**, whatever `low` is, as long as it holds of the clocks that the
stores have now. -/
theorem Inv.step {a : Action Srv} (h : Inv cfg low s)
    (hlow : ∀ op key x, low op key x ((s.kv x).clockOf key)) (hm : Moved cfg s a s') :
    Inv cfg low s' := by
  have hall := fun e he => mem_log_of_moved hm (e := e) he
  cases hm with
  | @put x th key value msg _ hpc hmsg hs =>
    have hs := sent_of_send hs
    have h0 : Inv cfg low ((s.addTraces x th 1).note (.invokePut s.ctxs.length x key value)) :=
      h.noted rfl rfl rfl (fun e he => List.mem_append_left _ he)
    have hev : .invokePut s.ctxs.length x key value ∈ s'.log := by
      obtain ⟨es, he, -⟩ := hs.log
      simp [he]
    refine h0.sent hs (fun n => ⟨le_refl _, ⟨rfl, value, rfl, hev⟩, by simp⟩) ?_
    exact fun dst wire hcon hw => ⟨hcon, rfl, frame_of_image (encode_eq_some hmsg) hw⟩
  | @get x th key value msg _ hpc hmsg hs =>
    have hs := sent_of_send hs
    have h0 : Inv cfg low ((s.addTraces x th 1).note (.invokeGet s.ctxs.length x key)) :=
      h.noted rfl rfl rfl (fun e he => List.mem_append_left _ he)
    have hev : .invokeGet s.ctxs.length x key ∈ s'.log := by
      obtain ⟨es, he, -⟩ := hs.log
      simp [he]
    refine h0.sent hs (fun n => ⟨le_refl _, ⟨rfl, rfl, hev⟩, by simp⟩) ?_
    exact fun dst wire hcon hw => ⟨hcon, rfl, value, frame_of_image hmsg hw⟩
  | @request i c dst type buf kv answer hi hh =>
    obtain ⟨ctx, hc, hreq⟩ := h.net _ (List.mem_of_getElem? hi)
    refine h.carry (.of_eq rfl) hall (fun d ctx' hd => Or.inr ⟨ctx', hd, .refl ctx',
      fun b hb => Or.inl hb⟩) (fun _ _ => Or.inl rfl) ?_
    intro p hp
    rcases List.mem_append.mp hp with hp | hp
    · exact Or.inl (List.mem_of_mem_eraseIdx hp)
    · rw [List.mem_singleton] at hp
      subst hp
      exact Or.inr ⟨ctx, hc, .of_handled hreq hh (hlow _ _ _)⟩
  | absorb hi hc hpc hr => exact h.cached hi hc hr rfl rfl hall (fun _ _ => Or.inl rfl)
  | @enter i c src buf ctx rep pc hi hc hpc hr hcont =>
    refine h.cached hi hc hr rfl rfl hall ?_
    intro y t
    by_cases hy : y = ctx.srv ∧ t = ctx.thread
    · obtain ⟨rfl, rfl⟩ := hy
      rw [State.setPc_pc_self]
      obtain ⟨hcache, -, -, -, hdone, -⟩ := reqConts_cases hr
      obtain ⟨hinside, hlocal⟩ : pc.inside = some (c, ctx.cont) ∧ pc.localResp = none := by
        rcases hcont with ⟨hcont, rfl⟩ | ⟨hcont, rfl⟩ <;> rw [hcont] <;> exact ⟨rfl, rfl⟩
      refine Or.inr fun d cont hin => ?_
      rw [hinside, Option.some.injEq, Prod.mk.injEq] at hin
      obtain ⟨rfl, rfl⟩ := hin
      have hctx : (s.ctxs.set c { ctx with rep := rep })[c]? = some { ctx with rep := rep } :=
        getElem?_set_self_of_some hc
      have hne : rep.cache ≠ [] := by simp [hcache]
      exact ⟨_, hctx, rfl, rfl, rfl, by simp [hdone], hne,
        fun r hr => absurd (hlocal.symm.trans hr) (by simp)⟩
    · exact Or.inl (State.setPc_pc_of_ne _ _ _ hy)
  | acked hi hc hpc hr => exact h.cached hi hc hr rfl rfl hall (fun _ _ => Or.inl rfl)
  | @kvGet x th c ctx node pc hpc hc hd =>
    refine h.moved rfl rfl hall rfl ?_
    intro d cont hin
    have hkey : node.key = ctx.key := h.node_key (hpc.imp (·.1) (·.1)) hc hd
    rcases hpc with ⟨hpc, rfl⟩ | ⟨hpc, rfl⟩
    all_goals
      simp only [Pc.inside, Option.some.injEq, Prod.mk.injEq] at hin
      obtain ⟨rfl, rfl⟩ := hin
      obtain ⟨ctx', hc', hx, hth, hcont, hdone, hne, -⟩ := h.pc x th c _ (by rw [hpc]; rfl)
      rw [hc, Option.some.injEq] at hc'
      subst hc'
      refine ⟨ctx, hc, hx, hth, hcont, hdone, hne, fun r hr => ?_⟩
      simp only [Pc.localResp, Option.some.injEq] at hr
      subst hr
      rw [KVStore.get_lamport, hkey]
      exact hlow _ _ _
  | @choose x th c loc ctx max hpc hc hm =>
    refine h.moved rfl rfl hall rfl ?_
    exact (h.pc x th).next (by rw [hpc]; rfl) rfl
  | @send x th c clock ctx node msg s₁ hpc hc hd hmsg hs =>
    obtain ⟨hx, hth, hcont, -, hop, v, hdata, -⟩ := h.getTime_ctx (by rw [hpc]; rfl) hc
    have hkey : node.key = ctx.key := by
      rw [hd, Option.some.injEq] at hdata
      rw [hdata]
    have hs := sent_of_send hs
    obtain ⟨n, hn⟩ := hs.ctxs
    have h1 : Inv cfg low s₁ := by
      refine h.sent hs (fun n => ⟨?_, ⟨ctx, ?_, hcont, hx, hth, hkey.symm⟩, by simp⟩) ?_
      · exact (h.ctx c ctx hc).op_le.trans (List.getElem?_eq_some_iff.mp hc).1.le
      · rw [hn]
        exact getElem?_concat_left (hop.symm ▸ hc)
      · exact fun dst wire hcon hw =>
          ⟨hcon, rfl, clock, _, frame_of_image (encode_eq_some hmsg) hw⟩
    refine h1.moved rfl rfl (fun e he => he) rfl ?_
    exact ((h1.pc x th)).next (by rw [hs.pc, hpc]; rfl) rfl
  | @store x th c clock ctx node hpc hc hd => exact h.moved rfl rfl hall rfl (pcOk_idle x th)
  | @report x th c loc ctx node st s₁ hpc hc hd hst hs =>
    have h1 : Inv cfg low s₁ := by
      rcases hs with rfl | ⟨msg, v, -, -, hmsg, hs⟩
      · exact h
      · refine h.sent (sent_of_send hs) (fun n => ⟨?_, trivial, by simp⟩) ?_
        · exact (h.ctx c ctx hc).op_le.trans (List.getElem?_eq_some_iff.mp hc).1.le
        · exact fun dst wire hcon hw =>
            ⟨hcon, rfl, st.max.1, v, frame_of_image (encode_eq_some hmsg) hw⟩
    refine h1.moved rfl rfl (fun e he => ?_) rfl (pcOk_idle x th)
    exact List.mem_append_left _ (List.mem_append_left _ he)

/-- How a step changes a server's store: a replica handles a `PutReplica`, or a put stores its own
entry. -/
inductive Writes (s s' : State Srv) : Action Srv → Srv → Prop
  | replica {i c dst type buf ctx} (hi : s.net[i]? = some (.request c dst type buf))
      (hc : s.ctxs[c]? = some ctx) (hcont : ctx.cont = .ackPutTime ∨ ctx.cont = .retGetPutUpdate)
      (hkv : ∀ (t : Lamport) (v : List UInt8), buf.text.ptr = image (ctx.key ++ t.toBytes) v [] →
        s'.kv dst = ((s.kv dst).put ctx.key v t).1) : Writes s s' (.request i) dst
  | own {x th c clock ctx v} (hpc : s.pc x th = .getTimeSent c clock) (hc : s.ctxs[c]? = some ctx)
      (hev : .invokePut c x ctx.key v ∈ s.log)
      (hkv : s'.kv x = ((s.kv x).put ctx.key v clock).1) : Writes s s' (.advance x th) x

theorem Inv.writes {a : Action Srv} (h : Inv cfg low s) (hm : Moved cfg s a s') (x : Srv) :
    s'.kv x = s.kv x ∨ Writes s s' a x := by
  rcases stored_of_moved hm x with hkv | ⟨i, c, type, buf, answer, rfl, hi, hh⟩ |
    ⟨th, c, clock, ctx, node, rfl, hpc, hc, hd, hkv⟩
  · exact Or.inl hkv
  · obtain ⟨ctx, hc, hreq⟩ := h.net _ (List.mem_of_getElem? hi)
    have hd := handled_of_reqOk hreq hh
    split at hd
    · exact Or.inl hd.1
    · exact Or.inl hd.1
    · rename_i hcont
      exact Or.inr (.replica hi hc (Or.inl hcont) hd)
    · rename_i hcont
      exact Or.inr (.replica hi hc (Or.inr hcont) hd)
  · obtain ⟨-, -, -, -, -, v, hdata, hev⟩ := h.getTime_ctx (by rw [hpc]; rfl) hc
    rw [hd, Option.some.injEq] at hdata
    subst hdata
    exact Or.inr (.own hpc hc hev hkv)

/-- **The shape of every state a run reaches**, with nothing asked of the clocks. -/
theorem inv_of_run {ok : State Srv → Action Srv → Bool}
    (h : Run cfg ok (State.init Srv) s) :
    Inv cfg (fun _ _ _ _ => True) s := by
  refine Run.invariant (fun x y hx hr => ?_) h .init
  obtain ⟨a, ha⟩ := hr
  exact hx.step (fun _ _ _ => trivial) (step_cases (Run.guard_eq_some.mp ha).2)

end Step

end Avocado
