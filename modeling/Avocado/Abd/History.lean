/-
# What the history says about the state

An operation that was called has its context in the table (`Calls`).  A put enters `GetTime` once,
chooses ONE clock there, and from then on everything that carries its context carries that clock:
the thread that works for it, its `PutReplica` requests, and the entry it stores (`Puts`).  Both
hold in every state a run reaches.
-/
import Avocado.Abd.Invariant

namespace Avocado

variable {Srv : Type} [DecidableEq Srv] {cfg : Cfg Srv} {s s' : State Srv}

/-! ## 1. Calls -/

/-- No condition on the clocks: plain well-formedness. -/
abbrev anyLow : Low Srv := fun _ _ _ _ => True

/-- A called operation has the context it was called with. -/
structure Calls (s : State Srv) : Prop where
  put : ∀ op x k v, .invokePut op x k v ∈ s.log → ∃ ctx, s.ctxs[op]? = some ctx ∧
    ctx.cont = .getTime ∧ ctx.srv = x ∧ ctx.key = k
  get : ∀ op x k, .invokeGet op x k ∈ s.log → ∃ ctx, s.ctxs[op]? = some ctx ∧
    ctx.cont = .retValue ∧ ctx.srv = x ∧ ctx.key = k
  /-- So does a get that has selected a clock. -/
  select : ∀ op t, .select op t ∈ s.log → ∃ ctx, s.ctxs[op]? = some ctx

theorem Calls.step {a : Action Srv} (h : Calls s) (hinv : Inv cfg anyLow s)
    (hm : Moved cfg s a s') : Calls s' where
  put op x k v hev := by
    rcases mem_log_cases hm hev with hold | hnew
    · obtain ⟨ctx, hc, hcont, hx, hk⟩ := h.put op x k v hold
      obtain ⟨ctx', hc', hs⟩ := (table_of_moved hm).fwd op ctx hc
      exact ⟨ctx', hc', hs.cont.trans hcont, hs.srv.trans hx, hs.key.trans hk⟩
    · cases hnew with
      | invokePut =>
        cases hm with
        | put hpc hmsg hs =>
          obtain ⟨n, hn⟩ := (sent_of_send hs).ctxs
          exact ⟨_, by rw [hn]; exact List.getElem?_concat_length, rfl, rfl, rfl⟩
  get op x k hev := by
    rcases mem_log_cases hm hev with hold | hnew
    · obtain ⟨ctx, hc, hcont, hx, hk⟩ := h.get op x k hold
      obtain ⟨ctx', hc', hs⟩ := (table_of_moved hm).fwd op ctx hc
      exact ⟨ctx', hc', hs.cont.trans hcont, hs.srv.trans hx, hs.key.trans hk⟩
    · cases hnew with
      | invokeGet =>
        cases hm with
        | get hpc hmsg hs =>
          obtain ⟨n, hn⟩ := (sent_of_send hs).ctxs
          exact ⟨_, by rw [hn]; exact List.getElem?_concat_length, rfl, rfl, rfl⟩

  select op t hev := by
    have ht := table_of_moved hm
    rcases mem_log_cases hm hev with hold | hnew
    · obtain ⟨ctx, hc⟩ := h.select op t hold
      obtain ⟨ctx', hc', -⟩ := ht.fwd op ctx hc
      exact ⟨ctx', hc'⟩
    · obtain ⟨loc, ctx, st, -, -, hc, -⟩ := hinv.selects hnew
      obtain ⟨ctx', hc', -⟩ := ht.fwd op ctx hc
      exact ⟨ctx', hc'⟩

omit [DecidableEq Srv] in
theorem Calls.init : Calls (State.init Srv) where
  put op x k v h := absurd h (by simp [State.init])
  get op x k h := absurd h (by simp [State.init])
  select op t h := absurd h (by simp [State.init])

/-! ## 2. Puts and their clocks -/

/-- The put `op` writes `v` under `k` and has chosen clock `t`. -/
def WrittenBy (log : List (Event Srv)) (op : Nat) (k : List UInt8) (t : Lamport)
    (v : List UInt8) : Prop :=
  (∃ x, .invokePut op x k v ∈ log) ∧ .assign op t ∈ log

omit [DecidableEq Srv] in
theorem WrittenBy.mono {log log' : List (Event Srv)} {op : Nat} {k v : List UInt8} {t : Lamport}
    (h : WrittenBy log op k t v) (hsub : ∀ e ∈ log, e ∈ log') : WrittenBy log' op k t v := by
  obtain ⟨⟨x, hx⟩, ht⟩ := h
  exact ⟨⟨x, hsub _ hx⟩, hsub _ ht⟩

/-- What the history says about the puts is true of the state. -/
structure Puts (cfg : Cfg Srv) (s : State Srv) : Prop where
  /-- A put that has its clock is past the point where the clock is chosen, for good. -/
  assigned : ∀ op t, .assign op t ∈ s.log → ∃ ctx, s.ctxs[op]? = some ctx ∧
    ctx.cont = .getTime ∧ ctx.rep.done = true ∧ s.pc ctx.srv ctx.thread ≠ .getTime op ∧
    ∀ r, s.pc ctx.srv ctx.thread ≠ .getTimeGot op r
  /-- A put has one clock. -/
  unique : ∀ op t t', .assign op t ∈ s.log → .assign op t' ∈ s.log → t = t'
  /-- Its machine id is its server's. -/
  mId : ∀ op t ctx, .assign op t ∈ s.log → s.ctxs[op]? = some ctx → t.mId = cfg.mId ctx.srv
  /-- Its server has an entry that is at least as new, unless its thread is still to store it. -/
  settled : ∀ op t ctx, .assign op t ∈ s.log → s.ctxs[op]? = some ctx →
    t ≤ (s.kv ctx.srv).clockOf ctx.key ∨ s.pc ctx.srv ctx.thread = .getTimeChosen op t ∨
      s.pc ctx.srv ctx.thread = .getTimeSent op t
  chosen : ∀ x th c t, (s.pc x th = .getTimeChosen c t ∨ s.pc x th = .getTimeSent c t) →
    .assign c t ∈ s.log
  write : ∀ c dst type buf ctx, .request c dst type buf ∈ s.net → s.ctxs[c]? = some ctx →
    ctx.cont = .ackPutTime → ∃ (t : Lamport) (v : List UInt8),
      buf.text.ptr = image (ctx.key ++ t.toBytes) v [] ∧ WrittenBy s.log ctx.op ctx.key t v

omit [DecidableEq Srv] in
/-- A clock that a step assigns goes to a put that had none. -/
theorem Puts.fresh {x : Srv} {th op : Nat} {loc : RetValue} {t : Lamport} (h : Puts cfg s)
    (hinv : Inv cfg anyLow s) (hpc : s.pc x th = .getTimeGot op loc) : .assign op t ∉ s.log := by
  intro hmem
  obtain ⟨ctx, hc, -, -, -, hgot⟩ := h.assigned op t hmem
  obtain ⟨rfl, rfl, -⟩ := hinv.getTime_ctx (by rw [hpc]; rfl) hc
  exact hgot loc hpc

theorem Puts.step_assigned {a : Action Srv} (h : Puts cfg s) (hinv : Inv cfg anyLow s)
    (hm : Moved cfg s a s') (op : Nat) (t : Lamport) (hev : .assign op t ∈ s'.log) :
    ∃ ctx, s'.ctxs[op]? = some ctx ∧ ctx.cont = .getTime ∧ ctx.rep.done = true ∧
      s'.pc ctx.srv ctx.thread ≠ .getTime op ∧ ∀ r, s'.pc ctx.srv ctx.thread ≠ .getTimeGot op r := by
  rcases mem_log_cases hm hev with hold | hnew
  · obtain ⟨ctx, hc, hcont, hdone, hne, hngot⟩ := h.assigned op t hold
    obtain ⟨ctx', hc', hsame⟩ := (table_of_moved hm).fwd op ctx hc
    refine ⟨ctx', hc', hsame.cont.trans hcont, hsame.done hdone, ?_⟩
    rw [hsame.srv, hsame.thread]
    rcases turns_of_moved hm ctx.srv ctx.thread with hsame | hturn
    · rw [hsame]; exact ⟨hne, hngot⟩
    · -- a `done` context is not entered again, and only its own thread moves on inside it
      generalize hq : s'.pc ctx.srv ctx.thread = q at hturn ⊢
      generalize hx : ctx.srv = x at hturn hne hngot hq
      generalize hth : ctx.thread = th at hturn hne hngot hq
      cases hturn with
      | @enter i c src buf ctx₁ rep pc hi hc₁ hpc hr hcont₁ =>
        have hne' : c ≠ op := by
          rintro rfl
          rw [hc, Option.some.injEq] at hc₁
          obtain ⟨-, -, -, -, -, hrun⟩ := reqConts_cases hr
          rw [← hc₁, hdone] at hrun
          exact absurd (hrun rfl).1 (by simp)
        rcases hcont₁ with ⟨-, rfl⟩ | ⟨-, rfl⟩ <;> simp [hne']
      | @kvGet _ _ c ctx₁ node pc hpc hc₁ hd =>
        rcases hpc with ⟨hpc, rfl⟩ | ⟨hpc, rfl⟩
        · have hne' : c ≠ op := by
            rintro rfl
            exact hne hpc
          simp [hne']
        · simp
      | choose => simp
      | send => simp
      | store => simp
      | report => simp
  · obtain ⟨loc, ctx, max, -, -, hc, hcont, hdone, -, -, hpc', -⟩ := hinv.assigns hnew
    obtain ⟨ctx', hc', hsame⟩ := (table_of_moved hm).fwd op ctx hc
    refine ⟨ctx', hc', hsame.cont.trans hcont, hsame.done hdone, ?_⟩
    rw [hsame.srv, hsame.thread, hpc']
    simp

theorem Puts.step_unique {a : Action Srv} (h : Puts cfg s) (hinv : Inv cfg anyLow s)
    (hm : Moved cfg s a s') (op : Nat) (t t' : Lamport) (ht : .assign op t ∈ s'.log)
    (ht' : .assign op t' ∈ s'.log) : t = t' := by
  -- two new ones come from the same thread and the same responses
  rcases mem_log_cases hm ht with hold | hnew
  · rcases mem_log_cases hm ht' with hold' | hnew'
    · exact h.unique op t t' hold hold'
    · obtain ⟨loc, ctx, max, -, hpc, -⟩ := hinv.assigns hnew'
      exact absurd hold (h.fresh hinv hpc)
  · obtain ⟨loc, ctx, max, -, hpc, hc, -, -, hmax, rfl, -⟩ := hinv.assigns hnew
    rcases mem_log_cases hm ht' with hold' | hnew'
    · exact absurd hold' (h.fresh hinv hpc)
    · obtain ⟨loc', ctx', max', -, hpc', hc', -, -, hmax', rfl, -⟩ := hinv.assigns hnew'
      rw [hc, Option.some.injEq] at hc'
      subst hc'
      rw [hpc, Pc.getTimeGot.injEq] at hpc'
      rw [← hpc'.2, hmax, Option.some.injEq] at hmax'
      rw [hmax']

theorem Puts.step_mId {a : Action Srv} (h : Puts cfg s) (hinv : Inv cfg anyLow s)
    (hm : Moved cfg s a s') (op : Nat) (t : Lamport) (ctx : Ctx Srv) (hev : .assign op t ∈ s'.log)
    (hc : s'.ctxs[op]? = some ctx) : t.mId = cfg.mId ctx.srv := by
  rcases mem_log_cases hm hev with hold | hnew
  · obtain ⟨ctx₀, hc₀, -⟩ := h.assigned op t hold
    rw [((table_of_moved hm).same hc₀ hc).srv]
    exact h.mId op t ctx₀ hold hc₀
  · obtain ⟨loc, ctx₀, max, -, -, hc₀, -, -, -, rfl, -⟩ := hinv.assigns hnew
    rw [((table_of_moved hm).same hc₀ hc).srv]

theorem Puts.step_settled {a : Action Srv} (h : Puts cfg s) (hinv : Inv cfg anyLow s)
    (hm : Moved cfg s a s') (op : Nat) (t : Lamport) (ctx : Ctx Srv) (hev : .assign op t ∈ s'.log)
    (hc : s'.ctxs[op]? = some ctx) :
    t ≤ (s'.kv ctx.srv).clockOf ctx.key ∨ s'.pc ctx.srv ctx.thread = .getTimeChosen op t ∨
      s'.pc ctx.srv ctx.thread = .getTimeSent op t := by
  rcases mem_log_cases hm hev with hold | hnew
  · obtain ⟨ctx₀, hc₀, -⟩ := h.assigned op t hold
    have hsame := (table_of_moved hm).same hc₀ hc
    rw [hsame.srv, hsame.thread, hsame.key]
    rcases h.settled op t ctx₀ hold hc₀ with hle | hpc
    · exact Or.inl (hle.trans (clockOf_le_of_moved hm _ _))
    · rcases turns_of_moved hm ctx₀.srv ctx₀.thread with hpc' | hturn
      · rw [hpc']
        exact Or.inr hpc
      · -- the thread is past the choice: it sends, or it stores the entry
        generalize hq : s'.pc ctx₀.srv ctx₀.thread = q at hturn
        generalize hx : ctx₀.srv = x at hturn hpc hq
        generalize hth : ctx₀.thread = th at hturn hpc hq
        cases hturn with
        | enter _ _ hidle => rw [hidle] at hpc; simp at hpc
        | kvGet hget => rcases hget with ⟨hget, -⟩ | ⟨hget, -⟩ <;> (rw [hget] at hpc; simp at hpc)
        | choose hgot => rw [hgot] at hpc; simp at hpc
        | send hchosen =>
          rw [hchosen] at hpc
          simp only [Pc.getTimeChosen.injEq, reduceCtorEq, or_false] at hpc
          obtain ⟨rfl, rfl⟩ := hpc
          exact Or.inr (Or.inr rfl)
        | store hsent hc₁ hd hkv =>
          rw [hsent] at hpc
          simp only [Pc.getTimeSent.injEq, reduceCtorEq, false_or] at hpc
          obtain ⟨rfl, rfl⟩ := hpc
          obtain ⟨-, -, -, -, -, v, hdata, -⟩ := hinv.getTime_ctx (by rw [hsent]; rfl) hc₁
          rw [hc₀, Option.some.injEq] at hc₁
          subst hc₁
          rw [hd, Option.some.injEq] at hdata
          subst hdata
          rw [hkv]
          exact Or.inl (KVStore.le_clockOf_put _ _ _ _)
        | report hgot => rw [hgot] at hpc; simp at hpc
  · obtain ⟨loc, ctx₀, max, -, -, hc₀, -, -, -, -, hpc', -⟩ := hinv.assigns hnew
    have hsame := (table_of_moved hm).same hc₀ hc
    rw [hsame.srv, hsame.thread]
    exact Or.inr (Or.inl hpc')

theorem Puts.step_chosen {a : Action Srv} (h : Puts cfg s) (hinv : Inv cfg anyLow s)
    (hm : Moved cfg s a s') (x : Srv) (th c : Nat) (t : Lamport)
    (hpc : s'.pc x th = .getTimeChosen c t ∨ s'.pc x th = .getTimeSent c t) :
    .assign c t ∈ s'.log := by
  rcases turns_of_moved hm x th with hsame | hturn
  · rw [hsame] at hpc
    exact mem_log_of_moved hm (h.chosen x th c t hpc)
  · generalize hq : s'.pc x th = q at hturn hpc
    cases hturn with
    | enter hi hc hp hr hcont => rcases hcont with ⟨-, rfl⟩ | ⟨-, rfl⟩ <;> simp at hpc
    | kvGet hp hc hd => rcases hp with ⟨-, rfl⟩ | ⟨-, rfl⟩ <;> simp at hpc
    | choose hp hc hmax hev =>
      simp only [Pc.getTimeChosen.injEq, reduceCtorEq, or_false] at hpc
      obtain ⟨rfl, rfl⟩ := hpc
      obtain ⟨-, -, -, -, hop, -⟩ := hinv.getTime_ctx (by rw [hp]; rfl) hc
      exact hop ▸ hev
    | send hp =>
      simp only [Pc.getTimeSent.injEq, reduceCtorEq, false_or] at hpc
      obtain ⟨rfl, rfl⟩ := hpc
      exact mem_log_of_moved hm (h.chosen x th _ _ (Or.inl hp))
    | store => simp at hpc
    | report => simp at hpc

theorem Puts.step_write {a : Action Srv} (h : Puts cfg s) (hinv : Inv cfg anyLow s)
    (hm : Moved cfg s a s') (c : Nat) (dst : Srv) (type : ReqType) (buf : MsgBuffer)
    (ctx : Ctx Srv) (hp : .request c dst type buf ∈ s'.net) (hc : s'.ctxs[c]? = some ctx)
    (hcont : ctx.cont = .ackPutTime) :
    ∃ (t : Lamport) (v : List UInt8), buf.text.ptr = image (ctx.key ++ t.toBytes) v [] ∧
      WrittenBy s'.log ctx.op ctx.key t v := by
  rcases posts_of_moved hm hp with hold | hnew
  · obtain ⟨ctx₀, hc₀, -⟩ := hinv.net _ hold
    obtain ⟨ctx', hc', hsame⟩ := (table_of_moved hm).fwd c ctx₀ hc₀
    rw [hc, Option.some.injEq] at hc'
    subst hc'
    obtain ⟨t, v, himg, hw⟩ := h.write c dst type buf ctx₀ hold hc₀ (hsame.cont ▸ hcont)
    rw [hsame.key, hsame.op]
    exact ⟨t, v, himg, hw.mono fun e => mem_log_of_moved hm⟩
  · generalize hq : Packet.request c dst type buf = p at hnew
    cases hnew with
    | query hctx hq' =>
      injection hq with h1
      rw [← h1, hc, Option.some.injEq] at hctx
      rw [← hctx, hcont] at hq'
      simp at hq'
    | @write x th c₁ clock ctx₁ node d dst ctx' buf hpc hc₁ hd hctx hcont' hop hkey himg =>
      injection hq with h1 h2 h3 h4
      rw [← h1, hc, Option.some.injEq] at hctx
      subst hctx
      obtain ⟨-, -, -, -, hop', v, hdata, hev⟩ := hinv.getTime_ctx (by rw [hpc]; rfl) hc₁
      rw [hd, Option.some.injEq] at hdata
      subst hdata
      refine ⟨clock, v, by rw [h4, himg, hkey], ?_⟩
      rw [hop, hop', hkey]
      exact WrittenBy.mono ⟨⟨x, hev⟩, h.chosen x th c₁ clock (Or.inl hpc)⟩
        fun e => mem_log_of_moved hm
    | writeBack _ _ _ _ _ _ hctx hcont' =>
      injection hq with h1
      rw [← h1, hc, Option.some.injEq] at hctx
      rw [← hctx, hcont] at hcont'
      simp at hcont'
    | answer => exact absurd hq (by simp)

theorem Puts.step {a : Action Srv} (h : Puts cfg s) (hinv : Inv cfg anyLow s) (hm : Moved cfg s a s') :
    Puts cfg s' where
  assigned := h.step_assigned hinv hm
  unique := h.step_unique hinv hm
  mId := h.step_mId hinv hm
  settled := h.step_settled hinv hm
  chosen := h.step_chosen hinv hm
  write := h.step_write hinv hm

omit [DecidableEq Srv] in
theorem Puts.init : Puts cfg (State.init Srv) where
  assigned op t h := absurd h (by simp [State.init])
  unique op t t' h := absurd h (by simp [State.init])
  mId op t ctx h := absurd h (by simp [State.init])
  settled op t ctx h := absurd h (by simp [State.init])
  chosen x th c t h := absurd h (by simp [State.init])
  write c dst type buf ctx h := absurd h (by simp [State.init])

/-! ## 3. Reachable states -/

/-- What holds in every state that a run reaches, whatever its conditions are. -/
structure Sound (cfg : Cfg Srv) (s : State Srv) : Prop where
  inv : Inv cfg anyLow s
  calls : Calls s
  puts : Puts cfg s

theorem Sound.step {a : Action Srv} (h : Sound cfg s) (hm : Moved cfg s a s') : Sound cfg s' where
  inv := h.inv.step (fun _ _ _ => trivial) hm
  calls := h.calls.step h.inv hm
  puts := h.puts.step h.inv hm

omit [DecidableEq Srv] in
theorem Sound.init : Sound cfg (State.init Srv) := ⟨.init, .init, .init⟩

theorem Sound.run {ok : State Srv → Action Srv → Bool} (h : Sound cfg s) (hr : Run cfg ok s s') :
    Sound cfg s' :=
  Run.invariant (fun _ _ hs ⟨_, ha⟩ => hs.step (step_cases (Run.guard_eq_some.mp ha).2)) hr h

theorem sound_of_run {ok : State Srv → Action Srv → Bool} (h : Run cfg ok (State.init Srv) s) :
    Sound cfg s := Sound.init.run h

/-- A context keeps what it is for the whole run. -/
theorem same_of_run {ok : State Srv → Action Srv → Bool} (hr : Run cfg ok s s') {c : Nat}
    {ctx : Ctx Srv} (hc : s.ctxs[c]? = some ctx) :
    ∃ ctx', s'.ctxs[c]? = some ctx' ∧ ctx.Same ctx' := by
  refine Run.invariant (I := fun s => ∃ ctx', s.ctxs[c]? = some ctx' ∧ ctx.Same ctx') ?_ hr
    ⟨ctx, hc, .refl ctx⟩
  rintro x y ⟨ctx₁, hc₁, hs₁⟩ ⟨a, ha⟩
  obtain ⟨-, ha⟩ := Run.guard_eq_some.mp ha
  obtain ⟨ctx₂, hc₂, hs₂⟩ := (table_of_moved (step_cases ha)).fwd c ctx₁ hc₁
  exact ⟨ctx₂, hc₂, hs₁.trans hs₂⟩

/-- A context in a place that was taken before the run was there before it. -/
theorem old_of_run {ok : State Srv → Action Srv → Bool} (hr : Run cfg ok s s') {c : Nat}
    {ctx : Ctx Srv} (hc : s'.ctxs[c]? = some ctx) (hlt : c < s.ctxs.length) :
    ∃ ctx₀, s.ctxs[c]? = some ctx₀ ∧ ctx₀.Same ctx := by
  have hc₀ : s.ctxs[c]? = some s.ctxs[c] := List.getElem?_eq_getElem hlt
  obtain ⟨ctx', hc', hsame⟩ := same_of_run hr hc₀
  rw [hc, Option.some.injEq] at hc'
  exact ⟨_, hc₀, hc' ▸ hsame⟩

/-- **The run rule.**  What holds at first and is kept by every step that meets the condition holds
in every state reached. -/
theorem invariant_of_run {ok : State Srv → Action Srv → Bool} {I : State Srv → Prop}
    (hstep : ∀ (s s' : State Srv) (a : Action Srv), Sound cfg s → Sound cfg s' → ok s a = true →
      Moved cfg s a s' → I s → I s')
    (hr : Run cfg ok s s') (hs : Sound cfg s) (h : I s) : I s' := by
  refine Run.invariant_with (J := Sound cfg) ?_ ?_ hr hs h
  · rintro x y hx ⟨a, ha⟩
    exact hx.step (step_cases (Run.guard_eq_some.mp ha).2)
  · rintro x y hx hy hI ⟨a, ha⟩
    obtain ⟨hok, ha⟩ := Run.guard_eq_some.mp ha
    exact hstep x y a hx hy hok (step_cases ha) hI

end Avocado
