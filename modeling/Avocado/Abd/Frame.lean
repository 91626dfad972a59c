/-
# Frame facts: stores, history and contexts along a step

Three facts hold of every step without any invariant.  No step lowers the clock of a key on a
server (`clockOf_le_of_moved`).  The history only grows (`mem_log_of_moved`).  And a context keeps
its server, thread, continuation, key, operation and data, and loses no response
(`table_of_moved`).
-/
import Avocado.Lib.Lookup
import Avocado.Abd.Steps

namespace Avocado

open Lookup

/-! ## 1. What a context keeps -/

variable {Srv : Type} {cfg : Cfg Srv} {s s' : State Srv}

/-- What a context keeps for its whole life, and what it only gains. -/
structure Ctx.Same (a b : Ctx Srv) : Prop where
  srv : b.srv = a.srv
  thread : b.thread = a.thread
  cont : b.cont = a.cont
  key : b.key = a.key
  op : b.op = a.op
  data : b.rep.data = a.rep.data
  done : a.rep.done = true → b.rep.done = true
  cache : ∀ r ∈ a.rep.cache, r ∈ b.rep.cache

theorem Ctx.Same.refl (a : Ctx Srv) : a.Same a :=
  ⟨rfl, rfl, rfl, rfl, rfl, rfl, id, fun _ h => h⟩

theorem Ctx.Same.trans {a b c : Ctx Srv} (h : a.Same b) (h' : b.Same c) : a.Same c :=
  ⟨h'.srv.trans h.srv, h'.thread.trans h.thread, h'.cont.trans h.cont, h'.key.trans h.key,
    h'.op.trans h.op, h'.data.trans h.data, fun hd => h'.done (h.done hd),
    fun r hr => h'.cache r (h.cache r hr)⟩

theorem same_of_reqConts {ctx : Ctx Srv} {resp : MsgBuffer} {rep : ReplicaContext} {run : Bool}
    (h : ctx.rep.reqConts resp = some (rep, run)) : ctx.Same { ctx with rep := rep } := by
  obtain ⟨hcache, hdata, -, -, hdone, -⟩ := reqConts_cases h
  refine ⟨rfl, rfl, rfl, rfl, rfl, hdata, ?_, ?_⟩
  · intro hd
    simp [hdone, hd]
  · intro r hr
    simp [hcache, hr]

/-- The context table after a step: every old context is there, and every context is an old one
with perhaps one more response, or the new one at the end. -/
structure Table (s s' : State Srv) : Prop where
  fwd : ∀ (c : Nat) (ctx : Ctx Srv), s.ctxs[c]? = some ctx →
    ∃ ctx', s'.ctxs[c]? = some ctx' ∧ ctx.Same ctx'
  bwd : ∀ (c : Nat) (ctx' : Ctx Srv), s'.ctxs[c]? = some ctx' →
    (∃ ctx, s.ctxs[c]? = some ctx ∧ ctx.Same ctx') ∨ c = s.ctxs.length

theorem Table.of_eq (h : s'.ctxs = s.ctxs) : Table s s' where
  fwd _ ctx hc := ⟨ctx, h ▸ hc, .refl ctx⟩
  bwd _ ctx hc := Or.inl ⟨ctx, h ▸ hc, .refl ctx⟩

theorem Table.of_concat {ctx : Ctx Srv} (h : s'.ctxs = s.ctxs ++ [ctx]) : Table s s' where
  fwd c ctx' hc := ⟨ctx', by rw [h]; exact getElem?_concat_left hc, .refl ctx'⟩
  bwd c ctx' hc := by
    rw [h] at hc
    rcases getElem?_concat hc with hc | ⟨hc, -⟩
    · exact Or.inl ⟨ctx', hc, .refl ctx'⟩
    · exact Or.inr hc

theorem Table.of_set {c : Nat} {ctx ctx' : Ctx Srv} (hc : s.ctxs[c]? = some ctx)
    (hsame : ctx.Same ctx') (h : s'.ctxs = s.ctxs.set c ctx') : Table s s' where
  fwd d ctxd hd := by
    by_cases hdc : d = c
    · subst hdc
      rw [hc, Option.some.injEq] at hd
      exact ⟨ctx', by rw [h]; exact getElem?_set_self_of_some hc, hd ▸ hsame⟩
    · exact ⟨ctxd, by rw [h, List.getElem?_set_ne (Ne.symm hdc)]; exact hd, .refl ctxd⟩
  bwd d ctxd hd := by
    rw [h] at hd
    rcases getElem?_set_cases hd with ⟨rfl, rfl⟩ | ⟨-, hd⟩
    · exact Or.inl ⟨ctx, hc, hsame⟩
    · exact Or.inl ⟨ctxd, hd, .refl ctxd⟩

/-- A context that was in the table before. -/
theorem Table.same {c : Nat} {a b : Ctx Srv} (h : Table s s') (ha : s.ctxs[c]? = some a)
    (hb : s'.ctxs[c]? = some b) : a.Same b := by
  obtain ⟨b', hb', hsame⟩ := h.fwd c a ha
  rw [hb, Option.some.injEq] at hb'
  exact hb' ▸ hsame

/-! ## 2. Stores and history -/

section Steps

variable [DecidableEq Srv]

/-- A sent message changes no store and no thread. -/
structure Sent (cfg : Cfg Srv) (s : State Srv) (ctx : Ctx Srv) (type : ReqType) (msg : Msg)
    (s' : State Srv) : Prop where
  kv : s'.kv = s.kv
  pc : s'.pc = s.pc
  ctxs : ∃ n, s'.ctxs = s.ctxs ++ [{ ctx with rep := { ctx.rep with nMsgs := n } }]
  net : ∀ p ∈ s'.net, p ∈ s.net ∨ ∃ r reps wire, cfg.reps ctx.srv ctx.key = some reps ∧ r ∈ reps ∧
    msg.frame = some wire ∧ p = .request s.ctxs.length r type ⟨true, wire⟩
  log : ∃ es, s'.log = s.log ++ es ∧ ∀ e ∈ es, e = .skipRet ctx.op

theorem sent_of_send {ctx : Ctx Srv} {type : ReqType} {msg : Msg}
    (h : s.send cfg ctx type msg = some s') : Sent cfg s ctx type msg s' := by
  rcases send_cases h with ⟨reps, wire, hreps, hw, rfl⟩ | ⟨-, rfl⟩
  · refine ⟨rfl, rfl, ⟨_, rfl⟩, ?_, ⟨[], by simp, by simp⟩⟩
    intro p hp
    rcases List.mem_append.mp hp with hp | hp
    · exact Or.inl hp
    · obtain ⟨r, hr, rfl⟩ := List.mem_map.mp hp
      exact Or.inr ⟨r, reps, wire, hreps, hr, hw, rfl⟩
  · exact ⟨rfl, rfl, ⟨ctx.rep.nMsgs, rfl⟩, fun p hp => Or.inl hp, ⟨_, rfl, by simp⟩⟩

/-- A step leaves a store alone, or its server handles a request, or a put stores its own entry. -/
theorem stored_of_moved {a : Action Srv} (h : Moved cfg s a s') (x : Srv) :
    s'.kv x = s.kv x ∨
    (∃ i c type buf answer, a = .request i ∧ s.net[i]? = some (.request c x type buf) ∧
      reqHandlers ⟨s.kv x, none⟩ type buf = some ⟨s'.kv x, some answer, none⟩) ∨
    (∃ th c clock ctx node, a = .advance x th ∧ s.pc x th = .getTimeSent c clock ∧
      s.ctxs[c]? = some ctx ∧ ctx.rep.data = some node ∧
      s'.kv x = ((s.kv x).put node.key node.metaData.data clock).1) := by
  cases h with
  | put hpc hmsg hs => exact Or.inl (by rw [(sent_of_send hs).kv]; rfl)
  | get hpc hmsg hs => exact Or.inl (by rw [(sent_of_send hs).kv]; rfl)
  | @request i c dst type buf kv answer hi hh =>
    by_cases hx : x = dst
    · subst hx
      rw [State.setKv_kv_self]
      exact Or.inr (Or.inl ⟨i, c, type, buf, answer, rfl, hi, hh⟩)
    · exact Or.inl (State.setKv_kv_of_ne _ _ hx)
  | absorb => exact Or.inl rfl
  | enter => exact Or.inl rfl
  | acked => exact Or.inl rfl
  | kvGet => exact Or.inl rfl
  | choose => exact Or.inl rfl
  | send hpc hc hd hmsg hs => exact Or.inl (by rw [State.setPc_kv, (sent_of_send hs).kv])
  | @store y th c clock ctx node hpc hc hd =>
    by_cases hx : x = y
    · subst hx
      exact Or.inr (Or.inr ⟨th, c, clock, ctx, node, rfl, hpc, hc, hd, by simp⟩)
    · exact Or.inl (by rw [State.setPc_kv, State.setKv_kv_of_ne _ _ hx])
  | report hpc hc hd hst hs =>
    rcases hs with rfl | ⟨msg, v, -, -, -, hs⟩
    · exact Or.inl rfl
    · exact Or.inl (by simp [(sent_of_send hs).kv])

/-- Along a step every store stays or takes one `put`. -/
theorem kv_of_moved {a : Action Srv} (h : Moved cfg s a s') (x : Srv) :
    s'.kv x = s.kv x ∨ ∃ k v t, s'.kv x = ((s.kv x).put k v t).1 := by
  rcases stored_of_moved h x with hkv | ⟨i, c, type, buf, answer, -, -, hh⟩ |
    ⟨th, c, clock, ctx, node, -, -, -, -, hkv⟩
  · exact Or.inl hkv
  · rcases reqHandlers_kv hh with hkv | ⟨e, -, hkv⟩
    · exact Or.inl hkv
    · exact Or.inr ⟨e.1, e.2.1, e.2.2, hkv⟩
  · exact Or.inr ⟨node.key, node.metaData.data, clock, hkv⟩

/-- **No step lowers a key's clock on a server.** -/
theorem clockOf_le_of_moved {a : Action Srv} (h : Moved cfg s a s') (x : Srv) (k : List UInt8) :
    (s.kv x).clockOf k ≤ (s'.kv x).clockOf k := by
  rcases kv_of_moved h x with h | ⟨k', v, t, h⟩
  · rw [h]
  · rw [h]; exact KVStore.clockOf_le_put _ _ _ _ _

theorem table_of_moved {a : Action Srv} (h : Moved cfg s a s') : Table s s' := by
  cases h with
  | put hpc hmsg hs => obtain ⟨n, hn⟩ := (sent_of_send hs).ctxs; exact .of_concat hn
  | get hpc hmsg hs => obtain ⟨n, hn⟩ := (sent_of_send hs).ctxs; exact .of_concat hn
  | request => exact .of_eq rfl
  | absorb hi hc hpc hr => exact .of_set hc (same_of_reqConts hr) rfl
  | enter hi hc hpc hr => exact .of_set hc (same_of_reqConts hr) rfl
  | acked hi hc hpc hr => exact .of_set hc (same_of_reqConts hr) rfl
  | kvGet => exact .of_eq rfl
  | choose => exact .of_eq rfl
  | send hpc hc hd hmsg hs => obtain ⟨n, hn⟩ := (sent_of_send hs).ctxs; exact .of_concat hn
  | store => exact .of_eq rfl
  | report hpc hc hd hst hs =>
    rcases hs with rfl | ⟨msg, v, -, -, -, hs⟩
    · exact .of_eq rfl
    · obtain ⟨n, hn⟩ := (sent_of_send hs).ctxs
      exact .of_concat hn

/-! ## 3. What a step adds -/

/-- The events a step can record, with the state it records them in. -/
inductive Emits (cfg : Cfg Srv) (s s' : State Srv) : Action Srv → Event Srv → Prop
  | invokePut {x th key value} :
      Emits cfg s s' (.put x th key value) (.invokePut s.ctxs.length x key value)
  | invokeGet {x th key value} :
      Emits cfg s s' (.get x th key value) (.invokeGet s.ctxs.length x key)
  | skipRet {a op} : Emits cfg s s' a (.skipRet op)
  | assign {x th c loc ctx max} (hpc : s.pc x th = .getTimeGot c loc) (hc : s.ctxs[c]? = some ctx)
      (hm : ctx.rep.reduceResp maxCount loc.lamport.count = some max)
      (hpc' : s'.pc x th = .getTimeChosen c ⟨max + 1, cfg.mId x⟩) :
      Emits cfg s s' (.advance x th) (.assign ctx.op ⟨max + 1, cfg.mId x⟩)
  | putRet {i c src buf ctx rep} (hi : s.net[i]? = some (.response c src buf))
      (hc : s.ctxs[c]? = some ctx) (hpc : s.pc ctx.srv ctx.thread = .idle)
      (hr : ctx.rep.reqConts buf = some (rep, true)) (hcont : ctx.cont = .ackPutTime) :
      Emits cfg s s' (.response i) (.putRet ctx.op)
  | select {x th c loc ctx node st} (hpc : s.pc x th = .retValueGot c loc)
      (hc : s.ctxs[c]? = some ctx) (hd : ctx.rep.data = some node)
      (hst : readResponses ctx.rep cfg.maxPackageSize node loc = some st) :
      Emits cfg s s' (.advance x th) (.select ctx.op st.max.1)
  | getRet {x th op buf} : Emits cfg s s' (.advance x th) (.getRet op buf)

theorem emits_of_moved {a : Action Srv} (h : Moved cfg s a s') :
    ∃ es, s'.log = s.log ++ es ∧ ∀ e ∈ es, Emits cfg s s' a e := by
  have hskip : ∀ {op : Nat} {es : List (Event Srv)}, (∀ e ∈ es, e = Event.skipRet op) →
      ∀ e ∈ es, Emits cfg s s' a e := by
    intro op es hes e he
    rw [hes e he]
    exact .skipRet
  cases h with
  | put hpc hmsg hs =>
    obtain ⟨es, he, hes⟩ := (sent_of_send hs).log
    refine ⟨_, by rw [he]; exact List.append_assoc _ _ _, fun e hmem => ?_⟩
    rcases List.mem_append.mp hmem with hmem | hmem
    · rw [List.mem_singleton.mp hmem]; exact .invokePut
    · exact hskip hes e hmem
  | get hpc hmsg hs =>
    obtain ⟨es, he, hes⟩ := (sent_of_send hs).log
    refine ⟨_, by rw [he]; exact List.append_assoc _ _ _, fun e hmem => ?_⟩
    rcases List.mem_append.mp hmem with hmem | hmem
    · rw [List.mem_singleton.mp hmem]; exact .invokeGet
    · exact hskip hes e hmem
  | request => exact ⟨[], (List.append_nil _).symm, by simp⟩
  | absorb => exact ⟨[], (List.append_nil _).symm, by simp⟩
  | enter => exact ⟨[], (List.append_nil _).symm, by simp⟩
  | acked hi hc hpc hr hcont =>
    refine ⟨_, rfl, fun e he => ?_⟩
    rw [List.mem_singleton] at he
    subst he
    exact .putRet hi hc hpc hr hcont
  | kvGet => exact ⟨[], (List.append_nil _).symm, by simp⟩
  | choose hpc hc hm =>
    refine ⟨_, rfl, fun e he => ?_⟩
    rw [List.mem_singleton] at he
    subst he
    exact .assign hpc hc hm (State.setPc_pc_self _ _ _ _)
  | send hpc hc hd hmsg hs =>
    obtain ⟨es, he, hes⟩ := (sent_of_send hs).log
    exact ⟨es, he, hskip hes⟩
  | store => exact ⟨[], (List.append_nil _).symm, by simp⟩
  | @report x th c loc ctx node st s₁ hpc hc hd hst hs =>
    obtain ⟨es, he, hes⟩ : ∃ es, s₁.log = s.log ++ es ∧ ∀ e ∈ es, e = .skipRet ctx.op := by
      rcases hs with rfl | ⟨msg, v, -, -, -, hs⟩
      · exact ⟨[], (List.append_nil _).symm, by simp⟩
      · exact (sent_of_send hs).log
    refine ⟨es ++ [.select ctx.op st.max.1] ++ [.getRet ctx.op st.max.2], ?_, fun e hmem => ?_⟩
    · simp only [State.setPc_log, State.note_log, State.addTraces_log, he, List.append_assoc]
    · rcases List.mem_append.mp hmem with hmem | hmem
      · rcases List.mem_append.mp hmem with hmem | hmem
        · exact hskip hes e hmem
        · rw [List.mem_singleton.mp hmem]; exact .select hpc hc hd hst
      · rw [List.mem_singleton.mp hmem]; exact .getRet

/-- The history only grows. -/
theorem mem_log_of_moved {a : Action Srv} (h : Moved cfg s a s') {e : Event Srv}
    (he : e ∈ s.log) : e ∈ s'.log := by
  obtain ⟨es, hes, -⟩ := emits_of_moved h
  exact hes ▸ List.mem_append_left _ he

/-- An event in the history is an old one, or the step records it. -/
theorem mem_log_cases {a : Action Srv} (h : Moved cfg s a s') {e : Event Srv} (he : e ∈ s'.log) :
    e ∈ s.log ∨ Emits cfg s s' a e := by
  obtain ⟨es, hes, hall⟩ := emits_of_moved h
  rw [hes] at he
  exact (List.mem_append.mp he).imp id (hall e)

/-- Where the thread that a step moves is afterwards. -/
inductive Turns (cfg : Cfg Srv) (s s' : State Srv) : Action Srv → Srv → Nat → Pc → Prop
  | enter {i c src buf ctx rep pc} (hi : s.net[i]? = some (.response c src buf))
      (hc : s.ctxs[c]? = some ctx) (hpc : s.pc ctx.srv ctx.thread = .idle)
      (hr : ctx.rep.reqConts buf = some (rep, true))
      (hcont : (ctx.cont = .getTime ∧ pc = .getTime c) ∨ (ctx.cont = .retValue ∧ pc = .retValue c)) :
      Turns cfg s s' (.response i) ctx.srv ctx.thread pc
  | kvGet {x th c ctx node pc}
      (hpc : (s.pc x th = .getTime c ∧ pc = .getTimeGot c ((s.kv x).get node.key)) ∨
        (s.pc x th = .retValue c ∧ pc = .retValueGot c ((s.kv x).get node.key)))
      (hc : s.ctxs[c]? = some ctx) (hd : ctx.rep.data = some node) :
      Turns cfg s s' (.advance x th) x th pc
  | choose {x th c loc ctx max} (hpc : s.pc x th = .getTimeGot c loc)
      (hc : s.ctxs[c]? = some ctx)
      (hm : ctx.rep.reduceResp maxCount loc.lamport.count = some max)
      (hev : .assign ctx.op ⟨max + 1, cfg.mId x⟩ ∈ s'.log) :
      Turns cfg s s' (.advance x th) x th (.getTimeChosen c ⟨max + 1, cfg.mId x⟩)
  | send {x th c clock} (hpc : s.pc x th = .getTimeChosen c clock) :
      Turns cfg s s' (.advance x th) x th (.getTimeSent c clock)
  | store {x th c clock ctx node} (hpc : s.pc x th = .getTimeSent c clock)
      (hc : s.ctxs[c]? = some ctx) (hd : ctx.rep.data = some node)
      (hkv : s'.kv x = ((s.kv x).put node.key node.metaData.data clock).1) :
      Turns cfg s s' (.advance x th) x th .idle
  | report {x th c loc} (hpc : s.pc x th = .retValueGot c loc) :
      Turns cfg s s' (.advance x th) x th .idle

theorem turns_of_setPc {a : Action Srv} {x : Srv} {th : Nat} {pc : Pc}
    (h : Turns cfg s s' a x th pc) (y : Srv) (t : Nat) (hs : s'.pc = (s.setPc x th pc).pc) :
    s'.pc y t = s.pc y t ∨ Turns cfg s s' a y t (s'.pc y t) := by
  rw [hs]
  by_cases hy : y = x ∧ t = th
  · obtain ⟨rfl, rfl⟩ := hy
    rw [State.setPc_pc_self]
    exact Or.inr h
  · exact Or.inl (State.setPc_pc_of_ne _ _ _ hy)

/-- A thread is where it was, or the step moves it. -/
theorem turns_of_moved {a : Action Srv} (h : Moved cfg s a s') (y : Srv) (t : Nat) :
    s'.pc y t = s.pc y t ∨ Turns cfg s s' a y t (s'.pc y t) := by
  have hset : ∀ (s₁ : State Srv) (x : Srv) (th : Nat) (pc : Pc), s₁.pc = s.pc →
      (s₁.setPc x th pc).pc = (s.setPc x th pc).pc := by
    intro s₁ x th pc h₁
    simp only [State.setPc, h₁]
  cases h with
  | put hpc hmsg hs => rw [(sent_of_send hs).pc]; exact Or.inl rfl
  | get hpc hmsg hs => rw [(sent_of_send hs).pc]; exact Or.inl rfl
  | request => exact Or.inl rfl
  | absorb => exact Or.inl rfl
  | enter hi hc hpc hr hcont => exact turns_of_setPc (.enter hi hc hpc hr hcont) y t (by rfl)
  | acked => exact Or.inl rfl
  | kvGet hpc hc hd => exact turns_of_setPc (.kvGet hpc hc hd) y t (by rfl)
  | choose hpc hc hm =>
    exact turns_of_setPc (.choose hpc hc hm (by simp)) y t (by rfl)
  | send hpc hc hd hmsg hs =>
    exact turns_of_setPc (.send hpc) y t (hset _ _ _ _ (sent_of_send hs).pc)
  | store hpc hc hd =>
    exact turns_of_setPc (.store hpc hc hd (by rw [State.setPc_kv, State.setKv_kv_self])) y t
      (by rfl)
  | report hpc hc hd hst hs =>
    refine turns_of_setPc (.report hpc) y t (hset _ _ _ _ ?_)
    rcases hs with rfl | ⟨msg, v, -, -, -, hs⟩
    · rfl
    · exact (sent_of_send hs).pc

/-- A context that a step adds starts an operation, writes back, or is the second phase of a put. -/
theorem opened_of_moved {a : Action Srv} (h : Moved cfg s a s') {ctx : Ctx Srv}
    (hc : s'.ctxs[s.ctxs.length]? = some ctx) :
    ctx.cont ≠ .ackPutTime ∨ ∃ x th c clock ctx₀, s.pc x th = .getTimeChosen c clock ∧
      s.ctxs[c]? = some ctx₀ ∧ ctx.op = ctx₀.op := by
  have hlast : ∀ {l : List (Ctx Srv)} {y : Ctx Srv}, l = s.ctxs ++ [y] →
      l[s.ctxs.length]? = some ctx → ctx = y := by
    rintro l y rfl hl
    rw [List.getElem?_concat_length, Option.some.injEq] at hl
    exact hl.symm
  have hnone : s.ctxs[s.ctxs.length]? = none := List.getElem?_eq_none (Nat.le_refl _)
  have hset : ∀ (c : Nat) (y : Ctx Srv), (s.ctxs.set c y)[s.ctxs.length]? = none := by
    intro c y
    exact List.getElem?_eq_none (by rw [List.length_set])
  cases h with
  | put hpc hmsg hs =>
    obtain ⟨n, hn⟩ := (sent_of_send hs).ctxs
    rw [hlast hn hc]
    exact Or.inl (by simp)
  | get hpc hmsg hs =>
    obtain ⟨n, hn⟩ := (sent_of_send hs).ctxs
    rw [hlast hn hc]
    exact Or.inl (by simp)
  | request => exact absurd hc (by rw [State.setKv_ctxs, hnone]; simp)
  | absorb => exact absurd hc (by rw [hset]; simp)
  | enter => exact absurd hc (by rw [State.setPc_ctxs, hset]; simp)
  | acked => exact absurd hc (by rw [State.note_ctxs, State.addTraces_ctxs, hset]; simp)
  | kvGet => exact absurd hc (by rw [State.setPc_ctxs, hnone]; simp)
  | choose => exact absurd hc (by rw [State.note_ctxs, State.setPc_ctxs, hnone]; simp)
  | send hpc hc₀ hd hmsg hs =>
    obtain ⟨n, hn⟩ := (sent_of_send hs).ctxs
    rw [hlast hn hc]
    exact Or.inr ⟨_, _, _, _, _, hpc, hc₀, rfl⟩
  | store => exact absurd hc (by rw [State.setPc_ctxs, State.setKv_ctxs, hnone]; simp)
  | report hpc hc₀ hd hst hs =>
    simp only [State.setPc_ctxs, State.note_ctxs, State.addTraces_ctxs] at hc
    rcases hs with rfl | ⟨msg, v, -, -, -, hs⟩
    · exact absurd hc (by rw [hnone]; simp)
    · obtain ⟨n, hn⟩ := (sent_of_send hs).ctxs
      rw [hlast hn hc]
      exact Or.inl (by simp)

/-- The packets a step can send. -/
inductive Posts (s s' : State Srv) : Action Srv → Packet Srv → Prop
  /-- The first phase of a put or a get. -/
  | query {a c dst type buf ctx} (hctx : s'.ctxs[c]? = some ctx)
      (hcont : ctx.cont = .getTime ∨ ctx.cont = .retValue) : Posts s s' a (.request c dst type buf)
  /-- The second phase of a put. -/
  | write {x th c clock ctx node d dst ctx' buf} (hpc : s.pc x th = .getTimeChosen c clock)
      (hc : s.ctxs[c]? = some ctx) (hd : ctx.rep.data = some node)
      (hctx : s'.ctxs[d]? = some ctx') (hcont : ctx'.cont = .ackPutTime) (hop : ctx'.op = ctx.op)
      (hkey : ctx'.key = node.key)
      (himg : buf.text.ptr = image (node.key ++ clock.toBytes) node.metaData.data []) :
      Posts s s' (.advance x th) (.request d dst .putReplica buf)
  /-- The write-back of a get. -/
  | writeBack {x th c loc ctx node size st v d dst ctx' buf} (hpc : s.pc x th = .retValueGot c loc)
      (hc : s.ctxs[c]? = some ctx) (hd : ctx.rep.data = some node)
      (hst : readResponses ctx.rep size node loc = some st)
      (hsize : 0 < st.max.2.size) (hv : st.max.2.bytes = some v)
      (hctx : s'.ctxs[d]? = some ctx') (hcont : ctx'.cont = .retGetPutUpdate)
      (hkey : ctx'.key = node.key)
      (himg : buf.text.ptr = image (node.key ++ st.max.1.toBytes) v []) :
      Posts s s' (.advance x th) (.request d dst .putReplica buf)
  | answer {i c dst type buf kv answer} (hi : s.net[i]? = some (.request c dst type buf))
      (hh : reqHandlers ⟨s.kv dst, none⟩ type buf = some ⟨kv, some answer, none⟩) :
      Posts s s' (.request i) (.response c dst ⟨true, answer⟩)

/-- The frame of a finished message is the message. -/
theorem frame_of_image {msg wire : Msg} {k v : List UInt8} (h : msg.ptr = image k v [])
    (hw : msg.frame = some wire) : wire.ptr = image k v [] := by
  rw [Msg.frame_image h] at hw
  exact encode_eq_some hw

omit [DecidableEq Srv] in
/-- After a message was sent, a packet was in flight before, or is a request of the new context. -/
theorem Sent.packet {ctx : Ctx Srv} {type : ReqType} {msg : Msg} (hs : Sent cfg s ctx type msg s')
    {p : Packet Srv} (hp : p ∈ s'.net) :
    p ∈ s.net ∨ ∃ dst wire n, msg.frame = some wire ∧
      s'.ctxs[s.ctxs.length]? = some { ctx with rep := { ctx.rep with nMsgs := n } } ∧
      p = .request s.ctxs.length dst type ⟨true, wire⟩ := by
  obtain ⟨n, hn⟩ := hs.ctxs
  rcases hs.net p hp with hp | ⟨dst, reps, wire, -, -, hw, rfl⟩
  · exact Or.inl hp
  · refine Or.inr ⟨dst, wire, n, hw, ?_, rfl⟩
    rw [hn]
    exact List.getElem?_concat_length

/-- A packet in flight was there before, or the step sends it. -/
theorem posts_of_moved {a : Action Srv} (h : Moved cfg s a s') {p : Packet Srv} (hp : p ∈ s'.net) :
    p ∈ s.net ∨ Posts s s' a p := by
  cases h with
  | put hpc hmsg hs =>
    rcases (sent_of_send hs).packet hp with hp | ⟨dst, wire, n, -, hctx, rfl⟩
    · exact Or.inl hp
    · exact Or.inr (.query hctx (Or.inl rfl))
  | get hpc hmsg hs =>
    rcases (sent_of_send hs).packet hp with hp | ⟨dst, wire, n, -, hctx, rfl⟩
    · exact Or.inl hp
    · exact Or.inr (.query hctx (Or.inr rfl))
  | request hi hh =>
    rcases List.mem_append.mp hp with hp | hp
    · exact Or.inl (List.mem_of_mem_eraseIdx hp)
    · rw [List.mem_singleton.mp hp]
      exact Or.inr (.answer hi hh)
  | absorb => exact Or.inl (List.mem_of_mem_eraseIdx hp)
  | enter => exact Or.inl (List.mem_of_mem_eraseIdx hp)
  | acked => exact Or.inl (List.mem_of_mem_eraseIdx hp)
  | kvGet => exact Or.inl hp
  | choose => exact Or.inl hp
  | send hpc hc hd hmsg hs =>
    rcases (sent_of_send hs).packet hp with hp | ⟨dst, wire, n, hw, hctx, rfl⟩
    · exact Or.inl hp
    · exact Or.inr (.write hpc hc hd hctx rfl rfl rfl (frame_of_image (encode_eq_some hmsg) hw))
  | store => exact Or.inl hp
  | report hpc hc hd hst hs =>
    rcases hs with rfl | ⟨msg, v, hsize, hv, hmsg, hs⟩
    · exact Or.inl hp
    · rcases (sent_of_send hs).packet hp with hp | ⟨dst, wire, n, hw, hctx, rfl⟩
      · exact Or.inl hp
      · exact Or.inr (.writeBack hpc hc hd hst hsize hv hctx rfl rfl
          (frame_of_image (encode_eq_some hmsg) hw))

end Steps

end Avocado
