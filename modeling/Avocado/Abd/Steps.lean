/-
# What a step can do

The inversion of `step`: `step_cases` lists the ten shapes a step has, each with its guards and
its result written out.  The files after this one argue by cases on `Moved` and do not open `step`,
`send` or a handler again.

-/
import Avocado.Abd.System

namespace Avocado

variable {Srv : Type} [DecidableEq Srv] {cfg : Cfg Srv} {s s' : State Srv}

/-! ## 1. The pieces -/

theorem getMsg_eq_some {key value : List UInt8} {msg : Msg}
    (h : State.getMsg key value = some msg) : msg.ptr = image key value [] := by
  have ha : Msg.alloc (key.length + value.length + encodedMsgSize)
      = if h : key.length + value.length + encodedMsgSize < 2 ^ 64 then
          some ⟨List.replicate _ 0, by simpa using h⟩ else none := rfl
  rw [State.getMsg, ha] at h
  split at h
  · rename_i hn
    have hp : List.replicate (key.length + value.length + encodedMsgSize) (0 : UInt8)
        = List.replicate 8 0 ++ List.replicate 8 0
          ++ List.replicate (key.length + value.length) 0 := by
      rw [List.replicate_append_replicate, List.replicate_append_replicate, encodedMsgSize,
        Nat.add_comm]
    obtain ⟨m1, h1, e1⟩ := MsgBuilder.store_keySize
      (m := ⟨List.replicate (key.length + value.length + encodedMsgSize) 0, by simpa using hn⟩) hp
      (by simp) key.length
    obtain ⟨m2, h2, e2⟩ := MsgBuilder.store_size e1 (by simp) (by simp)
      (key.length + value.length)
    obtain ⟨m3, h3, e3⟩ := MsgBuilder.store_payload (k := []) (d := key) e2 (by simp) (by simp)
      (by simp)
    obtain ⟨m4, h4, e4⟩ := MsgBuilder.store_payload (k := key) (d := value)
      (by simpa using e3) (by simp) (by simp) (by simp)
    simp only [List.length_nil, Nat.add_zero] at h3
    simp only [Option.bind_eq_bind, Option.bind_some, h1, h2, h3, h4, Option.some.injEq] at h
    rw [← h, e4, image]
    simp
  · exact absurd h (by simp)

/-- **What sending does.**  The context enters the table; with a group the message goes to every
replica, without one the operation is skipped. -/
theorem send_cases {ctx : Ctx Srv} {type : ReqType} {msg : Msg}
    (h : s.send cfg ctx type msg = some s') :
    (∃ reps wire, cfg.reps ctx.srv ctx.key = some reps ∧ msg.frame = some wire ∧
      s' = { s with
        ctxs := s.ctxs ++ [{ ctx with rep := { ctx.rep with nMsgs := reps.length } }]
        net := s.net ++ reps.map fun r => .request s.ctxs.length r type ⟨true, wire⟩ }) ∨
    (cfg.reps ctx.srv ctx.key = some [] ∧
      s' = ({ s with ctxs := s.ctxs ++ [ctx] }.addTraces ctx.srv ctx.thread (-1)).note
        (.skipRet ctx.op)) := by
  simp only [State.send, Option.bind_eq_bind, Option.bind_eq_some_iff] at h
  obtain ⟨reps, hreps, h⟩ := h
  split at h
  · simp only [Option.bind_eq_some_iff, Option.some.injEq] at h
    obtain ⟨wire, hw, rfl⟩ := h
    exact Or.inl ⟨reps, wire, hreps, hw, rfl⟩
  · rename_i hl
    rw [Option.some.injEq] at h
    have hnil : reps = [] := List.length_eq_zero_iff.mp (by omega)
    exact Or.inr ⟨hnil ▸ hreps, h.symm⟩

/-- **What `req_conts` does** with a response: cache it and count it; the flag is set when this is
the response that runs the continuation. -/
theorem reqConts_cases {ctx ctx' : ReplicaContext} {resp : MsgBuffer} {run : Bool}
    (h : ctx.reqConts resp = some (ctx', run)) :
    ctx'.cache = ctx.cache ++ [resp] ∧ ctx'.data = ctx.data ∧ ctx'.nMsgs = ctx.nMsgs ∧
      ctx'.nResp = ctx.nResp + 1 ∧ ctx'.done = (ctx.done || run) ∧
      (run = true → ctx.done = false ∧ ctx.nMsgs ≤ 2 * ctx'.nResp + 1) := by
  simp only [ReplicaContext.reqConts, ReplicaContext.addToCache] at h
  split at h
  · simp only [Option.bind_eq_bind, Option.bind_some] at h
    split at h
    · rw [Option.some.injEq, Prod.mk.injEq] at h
      obtain ⟨rfl, rfl⟩ := h
      simp
    · split at h
      · rename_i hd
        rw [Option.some.injEq, Prod.mk.injEq] at h
        obtain ⟨rfl, rfl⟩ := h
        simp
      · rename_i hlt hd
        rw [Option.some.injEq, Prod.mk.injEq] at h
        obtain ⟨rfl, rfl⟩ := h
        simp only [Bool.not_eq_true] at hd
        exact ⟨rfl, rfl, rfl, rfl, by simp, fun _ => ⟨hd, by simpa using hlt⟩⟩
  · exact absurd h (by simp)

/-! ## 2. The shapes of a step -/

/-- The steps of `step`, one constructor for each shape. -/
inductive Moved (cfg : Cfg Srv) (s : State Srv) : Action Srv → State Srv → Prop
  /-- A put starts. -/
  | put {x th key value msg s'} (hpc : s.pc x th = .idle) (hmsg : encode key [] = some msg)
      (hs : ((s.addTraces x th 1).note (.invokePut s.ctxs.length x key value)).send cfg
        ⟨x, th, .getTime, key, s.ctxs.length, { data := some ⟨key, ⟨Lamport.min, value⟩⟩ }⟩
        .getTimeStamp msg = some s') : Moved cfg s (.put x th key value) s'
  /-- A get starts. -/
  | get {x th key value msg s'} (hpc : s.pc x th = .idle) (hmsg : msg.ptr = image key value [])
      (hs : ((s.addTraces x th 1).note (.invokeGet s.ctxs.length x key)).send cfg
        ⟨x, th, .retValue, key, s.ctxs.length, { data := some ⟨key, ⟨Lamport.min, []⟩⟩ }⟩
        .getValueTimeStamp msg = some s') : Moved cfg s (.get x th key value) s'
  /-- A request is handled. -/
  | request {i c dst type buf kv answer} (hi : s.net[i]? = some (.request c dst type buf))
      (hh : reqHandlers ⟨s.kv dst, none⟩ type buf = some ⟨kv, some answer, none⟩) :
      Moved cfg s (.request i)
        ({ s with net := s.net.eraseIdx i ++ [Packet.response c dst ⟨true, answer⟩] }.setKv dst kv)
  /-- A response is cached and nothing else happens. -/
  | absorb {i c src buf ctx rep run} (hi : s.net[i]? = some (.response c src buf))
      (hc : s.ctxs[c]? = some ctx) (hpc : s.pc ctx.srv ctx.thread = .idle)
      (hr : ctx.rep.reqConts buf = some (rep, run))
      (hrun : run = true → ctx.cont = .retGetPutUpdate) :
      Moved cfg s (.response i)
        { s with net := s.net.eraseIdx i, ctxs := s.ctxs.set c { ctx with rep := rep } }
  /-- A response enters `GetTime` or `RetValue`. -/
  | enter {i c src buf ctx rep pc} (hi : s.net[i]? = some (.response c src buf))
      (hc : s.ctxs[c]? = some ctx) (hpc : s.pc ctx.srv ctx.thread = .idle)
      (hr : ctx.rep.reqConts buf = some (rep, true))
      (hcont : (ctx.cont = .getTime ∧ pc = .getTime c) ∨ (ctx.cont = .retValue ∧ pc = .retValue c)) :
      Moved cfg s (.response i)
        ({ s with net := s.net.eraseIdx i, ctxs := s.ctxs.set c { ctx with rep := rep } }.setPc
          ctx.srv ctx.thread pc)
  /-- A response runs `AckPutTime`: the put is done. -/
  | acked {i c src buf ctx rep} (hi : s.net[i]? = some (.response c src buf))
      (hc : s.ctxs[c]? = some ctx) (hpc : s.pc ctx.srv ctx.thread = .idle)
      (hr : ctx.rep.reqConts buf = some (rep, true)) (hcont : ctx.cont = .ackPutTime) :
      Moved cfg s (.response i)
        (({ s with net := s.net.eraseIdx i, ctxs := s.ctxs.set c { ctx with rep := rep } }.addTraces
          ctx.srv ctx.thread (-1)).note (.putRet ctx.op))
  /-- A continuation reads its server's store. -/
  | kvGet {x th c ctx node pc}
      (hpc : (s.pc x th = .getTime c ∧ pc = .getTimeGot c ((s.kv x).get node.key)) ∨
        (s.pc x th = .retValue c ∧ pc = .retValueGot c ((s.kv x).get node.key)))
      (hc : s.ctxs[c]? = some ctx) (hd : ctx.rep.data = some node) :
      Moved cfg s (.advance x th) (s.setPc x th pc)
  /-- `GetTime` chooses the clock. -/
  | choose {x th c loc ctx max} (hpc : s.pc x th = .getTimeGot c loc)
      (hc : s.ctxs[c]? = some ctx)
      (hm : ctx.rep.reduceResp maxCount loc.lamport.count = some max) :
      Moved cfg s (.advance x th)
        ((s.setPc x th (.getTimeChosen c ⟨max + 1, cfg.mId x⟩)).note
          (.assign ctx.op ⟨max + 1, cfg.mId x⟩))
  /-- `GetTime` sends its `PutReplica` requests. -/
  | send {x th c clock ctx node msg s'} (hpc : s.pc x th = .getTimeChosen c clock)
      (hc : s.ctxs[c]? = some ctx) (hd : ctx.rep.data = some node)
      (hmsg : encode (node.key ++ clock.toBytes) node.metaData.data = some msg)
      (hs : s.send cfg ⟨x, th, .ackPutTime, node.key, ctx.op, {}⟩ .putReplica msg = some s') :
      Moved cfg s (.advance x th) (s'.setPc x th (.getTimeSent c clock))
  /-- `GetTime` stores its entry and returns. -/
  | store {x th c clock ctx node} (hpc : s.pc x th = .getTimeSent c clock)
      (hc : s.ctxs[c]? = some ctx) (hd : ctx.rep.data = some node) :
      Moved cfg s (.advance x th)
        ((s.setKv x ((s.kv x).put node.key node.metaData.data clock).1).setPc x th .idle)
  /-- `RetValue` reports its result, after a write-back where it makes one. -/
  | report {x th c loc ctx node st s₁} (hpc : s.pc x th = .retValueGot c loc)
      (hc : s.ctxs[c]? = some ctx) (hd : ctx.rep.data = some node)
      (hst : readResponses ctx.rep cfg.maxPackageSize node loc = some st)
      (hs : s₁ = s ∨ ∃ msg v, 0 < st.max.2.size ∧ st.max.2.bytes = some v ∧
        encode (node.key ++ st.max.1.toBytes) v = some msg ∧
        s.send cfg ⟨x, th, .retGetPutUpdate, node.key, ctx.op, {}⟩ .putReplica msg = some s₁) :
      Moved cfg s (.advance x th)
        ((((s₁.addTraces x th (-1)).note (.select ctx.op st.max.1)).note
          (.getRet ctx.op st.max.2)).setPc x th .idle)

/-! ## 3. The inversion -/

theorem span_read_all {s : Span} {v : List UInt8} (h : s.bytes = some v) : v.length = s.size := by
  unfold Span.bytes Ptr.read at h
  split at h
  · exact Bytes.load_length h
  · split at h
    · injection h with h
      subst h
      simp_all
    · exact absurd h (by simp)

/-- The write-back message of a value that can be read. -/
theorem writeBackMsg_eq {node : Node} {max : Lamport × Span} {v : List UInt8} (hv : max.2.bytes = some v) :
    writeBackMsg node max = encode (node.key ++ max.1.toBytes) v := by
  have hb := MsgBuilder.build_key₂_value (k := node.key) (l := max.1.toBytes) (v := v)
    (f := some) (n := KeyAccess.addMetaSize node.key.length + max.2.size)
    (by simp [KeyAccess.addMetaSize, KeyAccess.metaSize, span_read_all hv])
  simp only [Option.bind_fun_some] at hb
  rw [Span.bytes] at hv
  simp only [writeBackMsg, hv, Option.bind_eq_bind, Option.bind_some]
  exact hb

theorem writeBackMsg_eq_some {node : Node} {max : Lamport × Span} {msg : Msg}
    (h : writeBackMsg node max = some msg) :
    ∃ v, max.2.bytes = some v ∧ encode (node.key ++ max.1.toBytes) v = some msg := by
  cases hv : max.2.bytes with
  | none =>
    rw [Span.bytes] at hv
    simp only [writeBackMsg, hv, Option.bind_eq_bind, Option.bind_none] at h
    simp at h
  | some v => exact ⟨v, rfl, (writeBackMsg_eq hv).symm.trans h⟩

theorem read_value_image {key value : List UInt8} {msg : Msg} {sp : Span}
    (h : msg.ptr = image key value []) (hs : msg.getValue = some sp) : sp.bytes = some value := by
  obtain ⟨sp', h1, h2, h3⟩ := Msg.getValue_image h
  rw [hs, Option.some.injEq] at h1
  subst h1
  rw [Span.bytes, h2, h3]

theorem benchmarkPut_cases {x : Srv} {th : Nat} {key value : List UInt8} {msg : Msg}
    (hm : State.getMsg key value = some msg) (hpc : s.pc x th = .idle)
    (h : s.benchmarkPut cfg x th msg = some s') : Moved cfg s (.put x th key value) s' := by
  have himg := getMsg_eq_some hm
  obtain ⟨ks, hks, hsz, hkb, -⟩ := getKey_bytes_image himg
  obtain ⟨vs, hvs, -⟩ := Msg.getValue_image himg
  have hvb := read_value_image himg hvs
  simp only [State.benchmarkPut, hks, hkb, Option.bind_eq_bind, Option.bind_some] at h
  rw [MsgBuilder.build_key hsz, Option.bind_eq_some_iff] at h
  obtain ⟨m, hm, h⟩ := h
  simp only [hvs, createNode, hkb, hvb, Option.bind_eq_bind, Option.bind_some] at h
  exact .put hpc hm h

theorem benchmarkGet_cases {x : Srv} {th : Nat} {key value : List UInt8} {msg : Msg}
    (hm : State.getMsg key value = some msg) (hpc : s.pc x th = .idle)
    (h : s.benchmarkGet cfg x th msg = some s') : Moved cfg s (.get x th key value) s' := by
  have himg := getMsg_eq_some hm
  obtain ⟨ks, hks, hsz, hkb, -⟩ := getKey_bytes_image himg
  have hvb : Span.bytes ⟨0, none⟩ = some [] := rfl
  simp only [State.benchmarkGet, hks, hkb, createNode, hvb, Option.bind_eq_bind,
    Option.bind_some] at h
  exact .get hpc himg h

theorem request_cases {i : Nat} (h : s.request i = some s') : Moved cfg s (.request i) s' := by
  unfold State.request at h
  split at h
  · rename_i c dst type buf hi
    simp only [Option.bind_eq_bind, Option.bind_eq_some_iff] at h
    obtain ⟨⟨kv, answer, start⟩, hh, h⟩ := h
    split at h
    · rename_i a ha hs
      simp only at ha hs
      subst ha hs
      injection h with h
      subst h
      exact .request hi hh
    · exact absurd h (by simp)
  · exact absurd h (by simp)

theorem response_cases {i : Nat} (h : s.response i = some s') : Moved cfg s (.response i) s' := by
  unfold State.response at h
  split at h
  · rename_i c src buf hi
    simp only [Option.bind_eq_bind, Option.bind_eq_some_iff] at h
    obtain ⟨ctx, hc, h⟩ := h
    split at h
    · rename_i hpc
      simp only [Option.bind_eq_some_iff] at h
      obtain ⟨⟨rep, run⟩, hr, h⟩ := h
      cases run with
      | false =>
        simp only [Bool.false_eq_true, if_false, Option.some.injEq] at h
        exact h ▸ .absorb hi hc hpc hr (by simp)
      | true =>
        simp only [if_true] at h
        split at h
        · rename_i hcont
          exact Option.some.inj h ▸ .enter hi hc hpc hr (Or.inl ⟨hcont, rfl⟩)
        · rename_i hcont
          exact Option.some.inj h ▸ .enter hi hc hpc hr (Or.inr ⟨hcont, rfl⟩)
        · rename_i hcont
          exact Option.some.inj h ▸ .acked hi hc hpc hr hcont
        · rename_i hcont
          exact Option.some.inj h ▸ .absorb hi hc hpc hr (fun _ => hcont)
    · exact absurd h (by simp)
  · exact absurd h (by simp)

theorem advance_cases {x : Srv} {th : Nat} (h : s.advance cfg x th = some s') :
    Moved cfg s (.advance x th) s' := by
  unfold State.advance at h
  split at h
  · exact absurd h (by simp)
  · rename_i c hpc
    simp only [Option.bind_eq_bind, Option.bind_eq_some_iff, Option.some.injEq] at h
    obtain ⟨ctx, hc, node, hd, rfl⟩ := h
    exact .kvGet (Or.inl ⟨hpc, rfl⟩) hc hd
  · rename_i c loc hpc
    simp only [Option.bind_eq_bind, Option.bind_eq_some_iff, Option.some.injEq] at h
    obtain ⟨ctx, hc, max, hm, rfl⟩ := h
    exact .choose hpc hc hm
  · rename_i c clock hpc
    simp only [Option.bind_eq_bind, Option.bind_eq_some_iff, Option.some.injEq] at h
    obtain ⟨ctx, hc, node, hd, msg, hmsg, s₁, hs, rfl⟩ := h
    exact .send hpc hc hd ((putMsg_eq node clock).symm.trans hmsg) hs
  · rename_i c clock hpc
    simp only [Option.bind_eq_bind, Option.bind_eq_some_iff, Option.some.injEq] at h
    obtain ⟨ctx, hc, node, hd, rfl⟩ := h
    exact .store hpc hc hd
  · rename_i c hpc
    simp only [Option.bind_eq_bind, Option.bind_eq_some_iff, Option.some.injEq] at h
    obtain ⟨ctx, hc, node, hd, rfl⟩ := h
    exact .kvGet (Or.inr ⟨hpc, rfl⟩) hc hd
  · rename_i c loc hpc
    simp only [Option.bind_eq_bind, Option.bind_eq_some_iff] at h
    obtain ⟨ctx, hc, node, hd, st, hst, h⟩ := h
    split at h
    · rename_i hsize
      simp only [Bool.and_eq_true, decide_eq_true_eq] at hsize
      simp only [Option.bind_eq_some_iff, Option.some.injEq] at h
      obtain ⟨msg, hmsg, s₁, hs, rfl⟩ := h
      obtain ⟨v, hv, he⟩ := writeBackMsg_eq_some hmsg
      exact .report hpc hc hd hst (Or.inr ⟨msg, v, hsize.2, hv, he, hs⟩)
    · rw [Option.bind_some, Option.some.injEq] at h
      exact h ▸ .report hpc hc hd hst (Or.inl rfl)

/-- **Every step has one of the shapes of `Moved`.** -/
theorem step_cases {a : Action Srv} (h : step cfg s a = some s') : Moved cfg s a s' := by
  cases a with
  | put x th key value =>
    simp only [step] at h
    split at h
    · rename_i hpc
      simp only [Option.bind_eq_bind, Option.bind_eq_some_iff] at h
      obtain ⟨msg, hm, h⟩ := h
      exact benchmarkPut_cases hm hpc h
    · exact absurd h (by simp)
  | get x th key value =>
    simp only [step] at h
    split at h
    · rename_i hpc
      simp only [Option.bind_eq_bind, Option.bind_eq_some_iff] at h
      obtain ⟨msg, hm, h⟩ := h
      exact benchmarkGet_cases hm hpc h
    · exact absurd h (by simp)
  | request i => exact request_cases h
  | response i => exact response_cases h
  | advance x th => exact advance_cases h

end Avocado
