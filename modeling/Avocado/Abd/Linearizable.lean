/-
# The replicated store as a map of registers

What callers see of a run is its history of calls and returns (`State.history`): a put returns
nothing, a get returns the bytes under its key or nothing.  The history is linearizable when no
step breaks one of four conditions: `localNewest`, so that what is stored under a clock is what the
put with that clock wrote; `alone` and `noWrap`, so that the clocks of a key are different and grow;
and `confirmed`, so that no get is overtaken by a later one.

The order is by clock.  A put has the clock it chose and a get the clock it selected, and what a
returned operation leaves behind is seen by every operation on the key that is called later
(`seen_of_held`), which is what the timestamp rule asks for.  Since every key has its own group of
servers, the rule also joins the orders of the keys into one.
-/
import Avocado.Lib.Register
import Avocado.Abd.Atomicity
import Avocado.Abd.Completion
import Avocado.Abd.Provenance

namespace Avocado

open History

variable {Srv : Type} {cfg : Cfg Srv} {s s' : State Srv}

/-! ## 1. What callers see -/

/-- The bytes of an answer; nothing for the null pointer. -/
def Span.answer (buf : Span) : Option (List UInt8) := buf.buf.bind fun _ => buf.bytes

/-- The operations of callers. -/
abbrev KvOp := RegisterOp (List UInt8) (List UInt8)

def Event.mark : Event Srv → Option (Mark KvOp (Option (List UInt8)))
  | .invokePut op _ k v => some (.call op (.write k v))
  | .invokeGet op _ k => some (.call op (.read k))
  | .putRet op => some (.ret op none)
  | .getRet op buf => some (.ret op buf.answer)
  | .assign _ _ | .select _ _ | .skipRet _ => none

/-- The history of calls and returns. -/
def State.history (s : State Srv) : List (Mark KvOp (Option (List UInt8))) :=
  s.log.filterMap Event.mark

theorem answer_absent : RetValue.absent.toSpan.answer = none := rfl

theorem answer_some (t : Lamport) (v : List UInt8) :
    (RetValue.toSpan ⟨t, v.length, some v⟩).answer = some v := by
  have hread : Ptr.read (some v) 0 v.length = some v := by
    simpa using Msg.read_key_image (a := v) (b := []) (c := [])
  exact hread

/-! ## 2. Gets -/

section Gets

variable [DecidableEq Srv]

/-- A new answer of a get is what the end of its `RetValue` selects. -/
theorem getRet_cases {a : Action Srv} {op : Nat} {buf : Span} (hm : Moved cfg s a s')
    (h : .getRet op buf ∈ s'.log) : .getRet op buf ∈ s.log ∨
      ∃ x th c loc ctx node st, a = .advance x th ∧ s.pc x th = .retValueGot c loc ∧
        s.ctxs[c]? = some ctx ∧ ctx.rep.data = some node ∧
        readResponses ctx.rep cfg.maxPackageSize node loc = some st ∧ ctx.op = op ∧
        st.max.2 = buf ∧ .select op st.max.1 ∈ s'.log := by
  rcases mem_log_cases hm h with hold | hnew
  · exact Or.inl hold
  · generalize he : Event.getRet op buf = e at hnew h
    cases hnew with
    | @getRet x th _ _ =>
      cases hm with
      | kvGet => exact Or.inl h
      | choose => exact Or.inl (by simpa using h)
      | send hpc hc hd hmsg hs =>
        obtain ⟨es, hes, hall⟩ := (sent_of_send hs).log
        rw [State.setPc_log, hes] at h
        rcases List.mem_append.mp h with h | h
        · exact Or.inl h
        · exact absurd (hall _ h) (by simp)
      | store => exact Or.inl h
      | @report _ _ c loc ctx node st s₁ hpc hc hd hst hs =>
        have hlog : ∀ {e : Event Srv}, e ∈ s₁.log → e ∈ s.log ∨ e = .skipRet ctx.op := by
          intro e hmem
          rcases hs with rfl | ⟨msg, v, -, -, -, hs⟩
          · exact Or.inl hmem
          · obtain ⟨es, hes, hall⟩ := (sent_of_send hs).log
            rw [hes] at hmem
            exact (List.mem_append.mp hmem).imp id (hall e)
        simp only [State.setPc_log, State.note_log, State.addTraces_log, List.mem_append,
          List.mem_singleton, reduceCtorEq, or_false, Event.getRet.injEq] at h
        injection he with hop hbuf
        subst hop hbuf
        rcases h with h | ⟨rfl, rfl⟩
        · rcases hlog h with h | h
          · exact Or.inl h
          · exact absurd h (by simp)
        · exact Or.inr ⟨x, th, c, loc, ctx, node, st, rfl, hpc, hc, hd, hst, rfl, rfl, by simp⟩
    | _ => exact absurd he (by simp)

/-- A get that has selected a clock is past the point where the clock is selected, for good, and
an answer comes with a selected clock. -/
structure Gets (s : State Srv) : Prop where
  selected : ∀ op t, .select op t ∈ s.log → ∃ ctx, s.ctxs[op]? = some ctx ∧
    ctx.cont = .retValue ∧ ctx.rep.done = true ∧ s.pc ctx.srv ctx.thread ≠ .retValue op ∧
    ∀ r, s.pc ctx.srv ctx.thread ≠ .retValueGot op r
  unique : ∀ op t t', .select op t ∈ s.log → .select op t' ∈ s.log → t = t'
  ret : ∀ op buf, .getRet op buf ∈ s.log → ∃ t, .select op t ∈ s.log

theorem idle_of_report {x : Srv} {th c : Nat} {loc : RetValue} (hm : Moved cfg s (.advance x th) s')
    (hpc : s.pc x th = .retValueGot c loc) : s'.pc x th = .idle := by
  cases hm with
  | kvGet hp => rcases hp with ⟨hp, -⟩ | ⟨hp, -⟩ <;> exact absurd (hpc.symm.trans hp) (by simp)
  | choose hp => exact absurd (hpc.symm.trans hp) (by simp)
  | send hp => exact absurd (hpc.symm.trans hp) (by simp)
  | store hp => exact absurd (hpc.symm.trans hp) (by simp)
  | report => exact State.setPc_pc_self _ _ _ _

theorem Gets.step_selected {a : Action Srv} (h : Gets s) (hinv : Inv cfg anyLow s)
    (hm : Moved cfg s a s') (op : Nat) (t : Lamport) (hev : .select op t ∈ s'.log) :
    ∃ ctx, s'.ctxs[op]? = some ctx ∧ ctx.cont = .retValue ∧ ctx.rep.done = true ∧
      s'.pc ctx.srv ctx.thread ≠ .retValue op ∧
      ∀ r, s'.pc ctx.srv ctx.thread ≠ .retValueGot op r := by
  rcases mem_log_cases hm hev with hold | hnew
  · obtain ⟨ctx, hc, hcont, hdone, hne, hngot⟩ := h.selected op t hold
    obtain ⟨ctx', hc', hsame⟩ := (table_of_moved hm).fwd op ctx hc
    refine ⟨ctx', hc', hsame.cont.trans hcont, hsame.done hdone, ?_⟩
    rw [hsame.srv, hsame.thread]
    rcases turns_of_moved hm ctx.srv ctx.thread with hstay | hturn
    · rw [hstay]; exact ⟨hne, hngot⟩
    · -- a `done` context is not entered again
      generalize hq : s'.pc ctx.srv ctx.thread = q at hturn ⊢
      generalize hx : ctx.srv = x at hturn hne hngot hq
      generalize hth : ctx.thread = th at hturn hne hngot hq
      cases hturn with
      | @enter i c src buf ctx₁ rep pc hi hc₁ hpc hr hcont₁ =>
        have hne' : c ≠ op := by
          rintro rfl
          rw [hc, Option.some.injEq] at hc₁
          obtain ⟨-, -, -, -, -, hrun⟩ := reqConts_cases hr
          rw [← hc₁, hdone] at hrun
          exact absurd (hrun rfl).1 (by simp)
        rcases hcont₁ with ⟨-, rfl⟩ | ⟨-, rfl⟩ <;> simp [hne']
      | @kvGet _ _ c ctx₁ node pc hpc hc₁ hd =>
        rcases hpc with ⟨hpc, rfl⟩ | ⟨hpc, rfl⟩
        · simp
        · have hne' : c ≠ op := by
            rintro rfl
            exact hne hpc
          simp [hne']
      | choose => simp
      | send => simp
      | store => simp
      | report => simp
  · obtain ⟨loc, ctx, st, rfl, hpc, hc, hcont, -, -, -, -⟩ := hinv.selects hnew
    obtain ⟨ctx₁, hc₁, -, -, -, hdone, -⟩ := hinv.pc _ _ op .retValue (by rw [hpc]; rfl)
    rw [hc, Option.some.injEq] at hc₁
    subst hc₁
    obtain ⟨ctx', hc', hsame⟩ := (table_of_moved hm).fwd op ctx hc
    refine ⟨ctx', hc', hsame.cont.trans hcont, hsame.done hdone, ?_⟩
    rw [hsame.srv, hsame.thread, idle_of_report hm hpc]
    simp

theorem Gets.step_unique {a : Action Srv} (h : Gets s) (hinv : Inv cfg anyLow s)
    (hm : Moved cfg s a s') (op : Nat) (t t' : Lamport) (ht : .select op t ∈ s'.log)
    (ht' : .select op t' ∈ s'.log) : t = t' := by
  have hfresh : ∀ {t₁ t₂ : Lamport}, Emits cfg s s' a (.select op t₁) → .select op t₂ ∉ s.log := by
    intro t₁ t₂ hnew hold
    obtain ⟨loc, ctx, st, -, hpc, hc, -⟩ := hinv.selects hnew
    obtain ⟨ctx', hc', -, -, -, hngot⟩ := h.selected op t₂ hold
    rw [hc, Option.some.injEq] at hc'
    subst hc'
    exact hngot loc hpc
  rcases mem_log_cases hm ht with hold | hnew
  · rcases mem_log_cases hm ht' with hold' | hnew'
    · exact h.unique op t t' hold hold'
    · exact absurd hold (hfresh hnew')
  · rcases mem_log_cases hm ht' with hold' | hnew'
    · exact absurd hold' (hfresh hnew)
    · obtain ⟨loc, ctx, st, -, hpc, hc, -, -, hst, rfl, -⟩ := hinv.selects hnew
      obtain ⟨loc', ctx', st', -, hpc', hc', -, -, hst', rfl, -⟩ := hinv.selects hnew'
      rw [hc, Option.some.injEq] at hc'
      subst hc'
      rw [hpc, Pc.retValueGot.injEq] at hpc'
      rw [← hpc'.2, hst, Option.some.injEq] at hst'
      rw [hst']

theorem Gets.step {a : Action Srv} (h : Gets s) (hinv : Inv cfg anyLow s) (hm : Moved cfg s a s') :
    Gets s' where
  selected := h.step_selected hinv hm
  unique := h.step_unique hinv hm
  ret op buf hev := by
    rcases getRet_cases hm hev with hold | ⟨-, -, -, -, -, -, st, -, -, -, -, -, -, -, hsel⟩
    · obtain ⟨t, ht⟩ := h.ret op buf hold
      exact ⟨t, mem_log_of_moved hm ht⟩
    · exact ⟨st.max.1, hsel⟩

theorem gets_of_run {ok : State Srv → Action Srv → Bool} (hr : Run cfg ok (State.init Srv) s) :
    Gets s := by
  refine invariant_of_run (fun s s' a hs _ _ hm h => h.step hs.inv hm) hr .init ⟨?_, ?_, ?_⟩
  · intro op t hev
    exact absurd hev (by simp [State.init])
  · intro op t t' hev
    exact absurd hev (by simp [State.init])
  · intro op buf hev
    exact absurd hev (by simp [State.init])

/-- What a get of `k` that selects clock `t` should answer: nothing under the least clock, else the
value of the put with that clock. -/
def Answers (log : List (Event Srv)) (k : List UInt8) (t : Lamport) (r : Option (List UInt8)) :
    Prop :=
  (t = Lamport.min ∧ r = none) ∨ ∃ p v, WrittenBy log p k t v ∧ r = some v

/-- Every get so far has answered with the value of the clock it selected. -/
def Answered (s : State Srv) : Prop :=
  ∀ op buf, .getRet op buf ∈ s.log → ∃ t ctx, .select op t ∈ s.log ∧ s.ctxs[op]? = some ctx ∧
    ctx.cont = .retValue ∧ Answers s.log ctx.key t buf.answer

theorem Answered.step {a : Action Srv} (h : Answered s) (htr : Traced s) (hinv : Inv cfg anyLow s)
    (hok : localNewest s a = true) (hm : Moved cfg s a s') : Answered s' := by
  intro op buf hev
  have hmono : ∀ {k t r}, Answers s.log k t r → Answers s'.log k t r := fun ha =>
    ha.imp id fun ⟨p, v, hw, hr⟩ => ⟨p, v, hw.mono fun e => mem_log_of_moved hm, hr⟩
  rcases getRet_cases hm hev with hold |
    ⟨x, th, c, loc, ctx, node, st, rfl, hpc, hc, hd, hst, hop, rfl, hsel⟩
  · obtain ⟨t, ctx, hsel, hc, hcont, ha⟩ := h op buf hold
    obtain ⟨ctx', hc', hsame⟩ := (table_of_moved hm).fwd op ctx hc
    exact ⟨t, ctx', mem_log_of_moved hm hsel, hc', hsame.cont.trans hcont, hsame.key ▸ hmono ha⟩
  · obtain ⟨-, -, hcont, hself, -⟩ := hinv.retValue_ctx (by rw [hpc]; rfl) hc
    obtain rfl : c = op := hself.symm.trans hop
    obtain ⟨ctx', hc', hsame⟩ := (table_of_moved hm).fwd c ctx hc
    refine ⟨st.max.1, ctx', hsel, hc', hsame.cont.trans hcont, ?_⟩
    rw [max_of_localNewest hinv hok hpc hc hd hst, hsame.key]
    refine hmono ?_
    rcases htr.loc x th c loc ctx hpc hc with rfl | ⟨p, t, v, rfl, hw⟩
    · exact Or.inl ⟨rfl, answer_absent⟩
    · exact Or.inr ⟨p, v, hw, answer_some t v⟩

theorem answered_of_run {ok : State Srv → Action Srv → Bool}
    (hok : ∀ s a, ok s a = true → localNewest s a = true)
    (hr : Run cfg ok (State.init Srv) s) : Answered s := by
  refine (invariant_of_run (I := fun s => Traced s ∧ Answered s) (fun s s' a hs _ ha hm h => ?_) hr
    .init ⟨.init, ?_⟩).2
  · exact ⟨h.1.step hs (hok s a ha) hm, h.2.step h.1 hs.inv (hok s a ha) hm⟩
  · intro op buf hev
    exact absurd hev (by simp [State.init])

end Gets

/-! ## 3. The history along a run -/

/-- A split of the history is one of the log. -/
theorem log_of_history {h₁ h₂ : List (Mark KvOp (Option (List UInt8)))}
    {m : Mark KvOp (Option (List UInt8))} (h : s.history = h₁ ++ m :: h₂) :
    ∃ l₁ e l₂, s.log = l₁ ++ e :: l₂ ∧ e.mark = some m ∧ l₁.filterMap Event.mark = h₁ := by
  obtain ⟨l, l', hl, rfl, hrest⟩ := List.filterMap_eq_append_iff.mp h
  obtain ⟨l₁, e, l₂, rfl, hnone, he, -⟩ := List.filterMap_eq_cons_iff.mp hrest
  refine ⟨l ++ l₁, e, l₂, by rw [hl, List.append_assoc], he, ?_⟩
  rw [List.filterMap_append, List.filterMap_eq_nil_iff.mpr hnone, List.append_nil]

theorem mem_history {m : Mark KvOp (Option (List UInt8))} :
    m ∈ s.history ↔ ∃ e ∈ s.log, e.mark = some m := List.mem_filterMap

theorem opens_of_call {e : Event Srv} {i : Nat} {o : KvOp} (h : e.mark = some (.call i o)) :
    e.opens = some i := by
  cases e <;> simp_all [Event.mark, Event.opens]

/-- An operation that took effect, with its result: a put has chosen its clock, a get has
answered. -/
inductive Took (s : State Srv) : Done KvOp (Option (List UInt8)) → Prop
  | put {op x k v t} (hcall : .invokePut op x k v ∈ s.log) (ht : .assign op t ∈ s.log) :
      Took s (op, .write k v, none)
  | get {op x k buf} (hcall : .invokeGet op x k ∈ s.log) (hret : .getRet op buf ∈ s.log) :
      Took s (op, .read k, buf.answer)

theorem Took.called {e : Done KvOp (Option (List UInt8))} (h : Took s e) :
    ∃ c ∈ s.log, c.mark = some (.call e.1 e.2.1) := by
  cases h with
  | put hcall => exact ⟨_, hcall, rfl⟩
  | get hcall => exact ⟨_, hcall, rfl⟩

section Runs

variable [DecidableEq Srv] {ok : State Srv → Action Srv → Bool}

/-- A new event of a split log. -/
theorem emits_of_split {a : Action Srv} {es₁ es₂ : List (Event Srv)} {e : Event Srv}
    (hm : Moved cfg s a s') (hlog : s'.log = s.log ++ (es₁ ++ e :: es₂)) :
    ∀ e' ∈ es₁ ++ e :: es₂, Emits cfg s s' a e' := by
  obtain ⟨es, hes, hall⟩ := emits_of_moved hm
  rw [hes] at hlog
  exact List.append_cancel_left hlog ▸ hall

/-- A call is the first event of its step, and is named by the next place. -/
theorem opens_first {a : Action Srv} {es₁ es₂ : List (Event Srv)} {e : Event Srv} {j : Nat}
    (hm : Moved cfg s a s') (hlog : s'.log = s.log ++ (es₁ ++ e :: es₂)) (he : e.opens = some j) :
    es₁ = [] ∧ j = s.ctxs.length := by
  have hem := emits_of_split hm hlog e (by simp)
  -- behind the call there is at most a `skipRet`
  have hhead : ∀ {e₀ : Event Srv} {es : List (Event Srv)} {op : Nat},
      s'.log = s.log ++ [e₀] ++ es → (∀ e ∈ es, e = .skipRet op) → es₁ = [] := by
    intro e₀ es op hes hall
    rw [hes, List.append_assoc] at hlog
    have hcons := List.append_cancel_left hlog
    cases es₁ with
    | nil => rfl
    | cons e₁ es₁ =>
      rw [List.singleton_append, List.cons_append, List.cons.injEq] at hcons
      have hskip := hall e (by rw [hcons.2]; simp)
      rw [hskip] at he
      exact absurd he (by simp [Event.opens])
  cases hem with
  | invokePut =>
    cases hm with
    | put hpc hmsg hs =>
      obtain ⟨es, hes, hall⟩ := (sent_of_send hs).log
      exact ⟨hhead hes hall, (Option.some.inj he).symm⟩
  | invokeGet =>
    cases hm with
    | get hpc hmsg hs =>
      obtain ⟨es, hes, hall⟩ := (sent_of_send hs).log
      exact ⟨hhead hes hall, (Option.some.inj he).symm⟩
  | _ => exact absurd he (by simp [Event.opens])

theorem exists_append_of_moves {x y : State Srv} (h : Run.Moves (Run.guard ok (step cfg)) x y) :
    ∃ es, y.log = x.log ++ es := by
  obtain ⟨a, ha⟩ := h
  obtain ⟨es, hes, -⟩ := emits_of_moved (step_cases (Run.guard_eq_some.mp ha).2)
  exact ⟨es, hes⟩

/-- **The state at a call**: the run passes through it, and its log is what was recorded before. -/
theorem state_at_call (hr : Run cfg ok (State.init Srv) s) {l₁ l₂ : List (Event Srv)}
    {e : Event Srv} {j : Nat} (hlog : s.log = l₁ ++ e :: l₂) (he : e.opens = some j) :
    ∃ s₁, Run cfg ok (State.init Srv) s₁ ∧ Run cfg ok s₁ s ∧ s₁.log = l₁ ∧ j = s₁.ctxs.length := by
  obtain ⟨x, y, es₁, es₂, hx, hxy, hy, hes, hl₁⟩ :=
    Run.exists_step_of_log State.log (fun x y h => exists_append_of_moves h) hr rfl hlog
  obtain ⟨a, ha⟩ := hxy
  obtain ⟨rfl, hj⟩ := opens_first (step_cases (Run.guard_eq_some.mp ha).2) hes he
  exact ⟨x, hx, .head ⟨a, ha⟩ hy, by rw [hl₁, List.append_nil], hj⟩

/-- An operation that returned took effect. -/
theorem took_of_ret (hr : Run cfg ok (State.init Srv) s) {e : Event Srv} {i : Nat}
    {r : Option (List UInt8)} (he : e ∈ s.log) (hret : e.mark = some (.ret i r)) :
    ∃ o, Took s (i, o, r) := by
  have hs := sound_of_run hr
  cases e with
  | putRet op =>
    simp only [Event.mark, Option.some.injEq, Mark.ret.injEq] at hret
    obtain ⟨rfl, rfl⟩ := hret
    obtain ⟨ctx₀, y, t, hc₀, -, ht, -⟩ := (acks_of_run hr).ret op he
    obtain ⟨ctx, hc, hcont, -⟩ := hs.puts.assigned op t ht
    have hf := (hs.inv.ctx op ctx hc).form
    rw [hcont] at hf
    obtain ⟨-, v, -, hev⟩ := hf
    exact ⟨_, .put hev ht⟩
  | getRet op buf =>
    simp only [Event.mark, Option.some.injEq, Mark.ret.injEq] at hret
    obtain ⟨rfl, rfl⟩ := hret
    have hgets := gets_of_run hr
    obtain ⟨t, ht⟩ := hgets.ret op buf he
    obtain ⟨ctx, hc, hcont, -⟩ := hgets.selected op t ht
    have hf := (hs.inv.ctx op ctx hc).form
    rw [hcont] at hf
    exact ⟨_, .get hf.2.2 he⟩
  | _ => exact absurd hret (by simp [Event.mark])

/-- **The history is well formed.** -/
theorem wellFormed_of_run (hr : Run cfg ok (State.init Srv) s) : WellFormed s.history where
  once h₁ h₂ i o hh o' hmem := by
    obtain ⟨l₁, e, l₂, hlog, he, rfl⟩ := log_of_history hh
    obtain ⟨s₁, hr₁, -, rfl, rfl⟩ := state_at_call hr hlog (opens_of_call he)
    obtain ⟨e', he', hmark⟩ := mem_history.mp hmem
    have hissued : s₁.ctxs.length ∈ s₁.issued :=
      List.mem_filterMap.mpr ⟨e', he', opens_of_call hmark⟩
    obtain ⟨ctx, hc⟩ := (accounts_of_run hr₁).known _ hissued
    exact absurd (List.getElem?_eq_some_iff.mp hc).1 (lt_irrefl _)
  called h₁ h₂ i r hh := by
    obtain ⟨l₁, e, l₂, hlog, he, rfl⟩ := log_of_history hh
    obtain ⟨x, y, es₁, es₂, hx, hxy, hy, hes, rfl⟩ :=
      Run.exists_step_of_log State.log (fun x y h => exists_append_of_moves h) hr rfl hlog
    have hrun : Run cfg ok (State.init Srv) y := hx.tail hxy
    obtain ⟨a, ha⟩ := hxy
    have hm := step_cases (Run.guard_eq_some.mp ha).2
    obtain ⟨o, htook⟩ := took_of_ret hrun (by rw [hes]; simp) he
    obtain ⟨c, hc, ho⟩ := htook.called
    -- a step that records a return records no call
    have hold : c ∈ x.log := by
      rw [hes] at hc
      rcases List.mem_append.mp hc with hc | hc
      · exact hc
      · have hem := emits_of_split hm hes e (by simp)
        have hcall := emits_of_split hm hes c hc
        cases hcall with
        | invokePut => cases hem <;> exact absurd he (by simp [Event.mark])
        | invokeGet => cases hem <;> exact absurd he (by simp [Event.mark])
        | _ => exact absurd ho (by simp [Event.mark])
    exact ⟨o, List.mem_filterMap.mpr ⟨c, List.mem_append_left _ hold, ho⟩⟩

end Runs

/-! ## 4. Operations that took effect -/

/-- The clock that the event gives to put `op`. -/
def Event.assigned (op : Nat) : Event Srv → Option Lamport
  | .assign op' t => if op' = op then some t else none
  | _ => none

/-- The answer that the event gives to get `op`. -/
def Event.answered (op : Nat) : Event Srv → Option (Option (List UInt8))
  | .getRet op' buf => if op' = op then some buf.answer else none
  | _ => none

/-- The operation of a call, once it has taken effect: a put when it has chosen its clock, a get
when it has answered. -/
def State.effect (s : State Srv) : Event Srv → Option (Done KvOp (Option (List UInt8)))
  | .invokePut op _ k v => (s.log.findSome? (Event.assigned op)).map fun _ => (op, .write k v, none)
  | .invokeGet op _ k => (s.log.findSome? (Event.answered op)).map fun r => (op, .read k, r)
  | _ => none

/-- The operations that took effect, in the order of their calls. -/
def State.effects (s : State Srv) : List (Done KvOp (Option (List UInt8))) :=
  s.log.filterMap s.effect

theorem assigned_eq_some {op : Nat} {e : Event Srv} {t : Lamport} :
    e.assigned op = some t ↔ e = .assign op t := by
  cases e <;> simp [Event.assigned]

theorem answered_eq_some {op : Nat} {e : Event Srv} {r : Option (List UInt8)} :
    e.answered op = some r ↔ ∃ buf, e = .getRet op buf ∧ buf.answer = r := by
  cases e <;> simp [Event.answered]

theorem took_of_effects {e : Done KvOp (Option (List UInt8))} (h : e ∈ s.effects) : Took s e := by
  obtain ⟨c, hc, he⟩ := List.mem_filterMap.mp h
  cases c with
  | invokePut op x k v =>
    obtain ⟨t, ht, rfl⟩ := Option.map_eq_some_iff.mp he
    obtain ⟨d, hd, hassign⟩ := List.exists_of_findSome?_eq_some ht
    exact .put hc (assigned_eq_some.mp hassign ▸ hd)
  | invokeGet op x k =>
    obtain ⟨r, hr, rfl⟩ := Option.map_eq_some_iff.mp he
    obtain ⟨d, hd, hans⟩ := List.exists_of_findSome?_eq_some hr
    obtain ⟨buf, rfl, rfl⟩ := answered_eq_some.mp hans
    exact .get hc hd
  | _ => exact absurd he (by simp [State.effect])

/-- An operation answers once. -/
theorem effects_of_took (hnd : s.completed.Nodup) {e : Done KvOp (Option (List UInt8))}
    (h : Took s e) : e ∈ s.effects := by
  cases h with
  | @put op x k v t hcall ht =>
    refine List.mem_filterMap.mpr ⟨_, hcall, ?_⟩
    cases hf : s.log.findSome? (Event.assigned op) with
    | none => exact absurd (List.findSome?_eq_none_iff.mp hf _ ht) (by simp [Event.assigned])
    | some t' => simp [State.effect, hf]
  | @get op x k buf hcall hret =>
    refine List.mem_filterMap.mpr ⟨_, hcall, ?_⟩
    cases hf : s.log.findSome? (Event.answered op) with
    | none => exact absurd (List.findSome?_eq_none_iff.mp hf _ hret) (by simp [Event.answered])
    | some r =>
      obtain ⟨d, hd, hans⟩ := List.exists_of_findSome?_eq_some hf
      obtain ⟨buf', rfl, rfl⟩ := answered_eq_some.mp hans
      have hsame := Lookup.eq_of_nodup_filterMap (b := op) hnd hd hret rfl rfl
      injection hsame with _ hbuf
      simp [State.effect, hf, hbuf]

theorem nodup_effects (hnd : s.issued.Nodup) : (s.effects.map Prod.fst).Nodup := by
  rw [State.effects, List.map_filterMap]
  refine Lookup.nodup_filterMap hnd fun e op he => ?_
  obtain ⟨d, hd, rfl⟩ := Option.map_eq_some_iff.mp he
  cases e with
  | invokePut op x k v =>
    obtain ⟨t, -, rfl⟩ := Option.map_eq_some_iff.mp hd
    rfl
  | invokeGet op x k =>
    obtain ⟨r, -, rfl⟩ := Option.map_eq_some_iff.mp hd
    rfl
  | _ => exact absurd hd (by simp [State.effect])

/-- The clock of an operation that took effect: the one its put chose, or the one its get selected,
which says what it answered. -/
def StampOf (s : State Srv) (e : Done KvOp (Option (List UInt8))) (t : Lamport) : Prop :=
  match e.2.1 with
  | .write _ _ => .assign e.1 t ∈ s.log
  | .read k => .select e.1 t ∈ s.log ∧ Answers s.log k t e.2.2

/-! ## 5. Runs -/

/-- The step breaks none of the four conditions. -/
def harmless [DecidableEq Srv] (cfg : Cfg Srv) (s : State Srv) (a : Action Srv) : Bool :=
  localNewest s a && alone s a && noWrap s a && confirmed cfg s a

section Harmless

variable [DecidableEq Srv]

theorem harmless_eq_true {a : Action Srv} : harmless cfg s a = true ↔ localNewest s a = true ∧
    alone s a = true ∧ noWrap s a = true ∧ confirmed cfg s a = true := by
  simp only [harmless, Bool.and_eq_true, and_assoc]

theorem reported_of_run {ok : State Srv → Action Srv → Bool} {k : List UInt8} {g : Finset Srv}
    (hg : GroupOfThree cfg k g) (hok : ∀ s a, ok s a = true → confirmed cfg s a = true)
    (hr : Run cfg ok (State.init Srv) s) : Reported k g s := by
  refine invariant_of_run (fun s s' a hs _ ha hm h => h.step hg hs (hok s a ha) hm) hr .init ?_
  intro op t ctx hev
  exact absurd hev (by simp [State.init])

/-- Only keys with a group are in the table. -/
theorem key_ne_nil (ha : Accounts cfg s) {c : Nat} {ctx : Ctx Srv} (hc : s.ctxs[c]? = some ctx) :
    ctx.key ≠ [] := by
  intro hnil
  obtain ⟨reps, hreps, -⟩ := (ha.counted.ctx c ctx hc).group
  rw [hnil] at hreps
  exact absurd hreps (by simp [Cfg.reps, getIdx, Bytes.load])

omit [DecidableEq Srv] in
/-- The context of an operation that took effect. -/
theorem ctx_of_took (hs : Sound cfg s) {e : Done KvOp (Option (List UInt8))} (h : Took s e) :
    ∃ ctx, s.ctxs[e.1]? = some ctx ∧ ctx.key = e.2.1.key := by
  cases h with
  | @put op x k v t hcall ht =>
    obtain ⟨ctx, hc, -, -, hk⟩ := hs.calls.put op x k v hcall
    exact ⟨ctx, hc, hk⟩
  | @get op x k buf hcall hret =>
    obtain ⟨ctx, hc, -, -, hk⟩ := hs.calls.get op x k hcall
    exact ⟨ctx, hc, hk⟩

omit [DecidableEq Srv] in
theorem exists_stampOf (hs : Sound cfg s) (hans : Answered s) {e : Done KvOp (Option (List UInt8))}
    (h : Took s e) : ∃ t, StampOf s e t := by
  cases h with
  | @put op x k v t hcall ht => exact ⟨t, ht⟩
  | @get op x k buf hcall hret =>
    obtain ⟨t, ctx, hsel, hc, -, ha⟩ := hans op buf hret
    obtain ⟨ctx', hc', -, -, hk⟩ := hs.calls.get op x k hcall
    rw [hc, Option.some.injEq] at hc'
    subst hc'
    exact ⟨t, hsel, hk ▸ ha⟩

/-- **What a returned operation leaves behind**: two servers of the group hold its clock. -/
theorem held_of_ret {s₁ : State Srv} {g : Finset Srv} {e : Done KvOp (Option (List UInt8))}
    {t : Lamport} (hg : GroupOfThree cfg e.2.1.key g)
    (hr₁ : Run cfg (harmless cfg) (State.init Srv) s₁) (hr₂ : Run cfg (harmless cfg) s₁ s)
    (he : Took s e) (hstamp : StampOf s e t) {c : Event Srv} {r : Option (List UInt8)}
    (hc : c ∈ s₁.log) (hret : c.mark = some (.ret e.1 r)) :
    ∃ y ∈ g, ∃ z ∈ g, z ≠ y ∧ Held s₁ e.2.1.key t y z := by
  have hs₁ := sound_of_run hr₁
  have hs := hs₁.run hr₂
  have hmono : ∀ {d : Event Srv}, d ∈ s₁.log → d ∈ s.log := by
    intro d hd
    refine Run.invariant (I := fun s => d ∈ s.log) (fun x y hx hxy => ?_) hr₂ hd
    obtain ⟨es, hes⟩ := exists_append_of_moves hxy
    rw [hes]
    exact List.mem_append_left _ hx
  obtain ⟨ctx, hctx, hkey⟩ := ctx_of_took hs he
  have hsame : ∀ {ctx₁ : Ctx Srv}, s₁.ctxs[e.1]? = some ctx₁ → ctx₁.Same ctx := by
    intro ctx₁ hc₁
    obtain ⟨ctx', hc', hsame⟩ := same_of_run hr₂ hc₁
    rw [hctx, Option.some.injEq] at hc'
    exact hc' ▸ hsame
  have hgets := gets_of_run (hr₁.trans hr₂)
  cases c with
  | putRet op =>
    simp only [Event.mark, Option.some.injEq, Mark.ret.injEq] at hret
    obtain ⟨rfl, -⟩ := hret
    obtain ⟨ctx₁, y, t₁, hc₁, hcontacts, ht₁, hheld⟩ := (acks_of_run hr₁).ret e.1 hc
    obtain ⟨hxg, hyg, hxy⟩ := hg.of_contacts (((hsame hc₁).key.symm.trans hkey) ▸ hcontacts)
    rw [← (hsame hc₁).key, hkey] at hheld
    cases he with
    | put hcall ht =>
      obtain rfl := hs.puts.unique _ t₁ t (hmono ht₁) hstamp
      exact ⟨_, hxg, y, hyg, hxy, hheld⟩
    | @get op x k buf hcall hgret =>
      -- a get chooses no clock
      obtain ⟨ctx₂, hc₂, hcont₂, -⟩ := hs.puts.assigned op t₁ (hmono ht₁)
      obtain ⟨ctx₃, hc₃, hcont₃, -⟩ := hs.calls.get op x k hcall
      rw [hc₂, Option.some.injEq] at hc₃
      rw [hc₃, hcont₃] at hcont₂
      exact absurd hcont₂ (by simp)
  | getRet op buf =>
    simp only [Event.mark, Option.some.injEq, Mark.ret.injEq] at hret
    obtain ⟨rfl, -⟩ := hret
    obtain ⟨t₁, ht₁⟩ := (gets_of_run hr₁).ret e.1 buf hc
    obtain ⟨ctx₁, hc₁⟩ := hs₁.calls.select e.1 t₁ ht₁
    obtain ⟨y, hy, z, hz, hne, hheld⟩ := reported_of_run hg
      (fun _ _ h => (harmless_eq_true.mp h).2.2.2) hr₁ e.1 t₁ ctx₁ ht₁ hc₁
      ((hsame hc₁).key.symm.trans hkey)
    cases he with
    | @put op x k v t' hcall ht =>
      -- a put selects no clock
      obtain ⟨ctx₂, hc₂, hcont₂, -⟩ := hgets.selected op t₁ (hmono ht₁)
      obtain ⟨ctx₃, hc₃, hcont₃, -⟩ := hs.puts.assigned op t' ht
      rw [hc₂, Option.some.injEq] at hc₃
      rw [hc₃, hcont₃] at hcont₂
      exact absurd hcont₂ (by simp)
    | get hcall hgret =>
      obtain rfl := hgets.unique _ t₁ t (hmono ht₁) hstamp.1
      exact ⟨y, hy, z, hz, hne, hheld⟩
  | _ => exact absurd hret (by simp [Event.mark])

end Harmless

/-! ## 6. The theorem -/

section Linearizes

variable [DecidableEq Srv]

theorem noWrap_of_harmless (s : State Srv) (a : Action Srv) (h : harmless cfg s a = true) :
    noWrap s a = true := (harmless_eq_true.mp h).2.2.1

/-- **Clocks do not go against real time.**  An operation called after another one on its key has
returned has no smaller clock, and a put has a greater one. -/
theorem stamp_le_of_precedes (hr : Run cfg (harmless cfg) (State.init Srv) s) {g : Finset Srv}
    {a b : Done KvOp (Option (List UInt8))} {t u : Lamport} (hg : GroupOfThree cfg a.2.1.key g)
    (ha : Took s a) (hb : Took s b) (hta : StampOf s a t) (htb : StampOf s b u)
    (hk : a.2.1.key = b.2.1.key) (hp : Precedes s.history a.1 b.1) :
    t ≤ u ∧ (b.2.1.isRead = false → t < u) := by
  obtain ⟨h₁, h₂, o, r, hhist, hret⟩ := hp
  obtain ⟨l₁, e, l₂, hlog, he, rfl⟩ := log_of_history hhist
  obtain ⟨s₁, hr₁, hr₂, rfl, hplace⟩ := state_at_call hr hlog (opens_of_call he)
  obtain ⟨c, hc, hmark⟩ := mem_history.mp hret
  obtain ⟨y, hy, z, hz, hne, hheld⟩ := held_of_ret hg hr₁ hr₂ ha hta hc hmark
  have hseen := seen_of_held hg hy hz hne (sound_of_run hr₁) hheld noWrap_of_harmless hr₂
  obtain ⟨ctx, hctx, hkey⟩ := ctx_of_took (sound_of_run hr) hb
  cases hb with
  | put hcall ht =>
    have hlt := hseen.assign _ u ctx htb hctx hplace.ge (hkey.trans hk.symm)
    exact ⟨hlt.le, fun _ => hlt⟩
  | get hcall hgret =>
    have hle := hseen.select _ u ctx htb.1 hctx hplace.ge (hkey.trans hk.symm)
    exact ⟨hle, fun hread => absurd hread (by simp [RegisterOp.isRead])⟩

/-- **The clocks follow the timestamp rule.** -/
theorem stamped_of_run (hg : ∀ k, k ≠ [] → ∃ g, GroupOfThree cfg k g)
    (hid : Function.Injective cfg.mId) (hr : Run cfg (harmless cfg) (State.init Srv) s) :
    ∃ time : Done KvOp (Option (List UInt8)) → Lamport, Stamped s.history s.effects time := by
  have hs := sound_of_run hr
  have hacc := accounts_of_run hr
  have hdistinct := distinct_of_run hid
    (fun s a h => ⟨(harmless_eq_true.mp h).2.1, noWrap_of_harmless s a h⟩) hr
  have hans := answered_of_run (fun _ _ h => (harmless_eq_true.mp h).1) hr
  have hgroup : ∀ {e : Done KvOp (Option (List UInt8))}, Took s e →
      ∃ g, GroupOfThree cfg e.2.1.key g := by
    intro e he
    obtain ⟨ctx, hc, hkey⟩ := ctx_of_took hs he
    exact hg _ (hkey ▸ key_ne_nil hacc hc)
  have hstamps : ∀ e, ∃ t, e ∈ s.effects → StampOf s e t := by
    intro e
    by_cases he : e ∈ s.effects
    · obtain ⟨t, ht⟩ := exists_stampOf hs hans (took_of_effects he)
      exact ⟨t, fun _ => ht⟩
    · exact ⟨.min, fun h => absurd h he⟩
  choose time htime using hstamps
  have hclosed : s.completed.Nodup := hacc.conserved.completed_nodup hacc.nodup
  have hassign : ∀ e ∈ s.effects, ∀ {k v}, e.2.1 = .write k v → .assign e.1 (time e) ∈ s.log := by
    intro e he k v hw
    have hstamp := htime e he
    rw [StampOf, hw] at hstamp
    exact hstamp
  refine ⟨time, nodup_effects hacc.nodup, fun e he => ?_, fun i r hret => ?_,
    fun a ha b hb hk hp => ?_, fun a ha b hb k v v' hw hw' heq => ?_, fun e he k v hw => ?_,
    fun e he k hread => ?_⟩
  · exact mem_history.mpr (took_of_effects he).called
  · obtain ⟨c, hc, hmark⟩ := mem_history.mp hret
    obtain ⟨o, ho⟩ := took_of_ret hr hc hmark
    exact ⟨o, effects_of_took hclosed ho⟩
  · obtain ⟨g, hgk⟩ := hgroup (took_of_effects ha)
    exact stamp_le_of_precedes hr hgk (took_of_effects ha) (took_of_effects hb) (htime a ha)
      (htime b hb) hk hp
  · obtain ⟨ctx, hc, hkey⟩ := ctx_of_took hs (took_of_effects ha)
    obtain ⟨ctx', hc', hkey'⟩ := ctx_of_took hs (took_of_effects hb)
    rw [hw] at hkey
    rw [hw'] at hkey'
    exact hdistinct.distinct a.1 b.1 (time a) ctx ctx' (hassign a ha hw)
      (heq ▸ hassign b hb hw') hc hc' (hkey.trans hkey'.symm)
  · cases took_of_effects he with
    | put => rfl
    | get => exact absurd hw (by simp)
  · have hstamp := htime e he
    rw [StampOf, hread] at hstamp
    rcases hstamp.2 with ⟨hmin, hnone⟩ | ⟨p, v, ⟨⟨x, hcall⟩, ht⟩, hval⟩
    · refine Or.inl ⟨hnone, fun w hw v hwrite => ?_⟩
      rw [hmin]
      exact min_lt_of_assign noWrap_of_harmless hr (hassign w hw hwrite)
    · have hw : (p, .write k v, none) ∈ s.effects := effects_of_took hclosed (.put hcall ht)
      exact Or.inr ⟨_, hw, v, rfl, hval, hs.puts.unique p _ _ (hassign _ hw rfl) ht⟩

/-- **The replicated store is a linearizable map of registers**, in every run whose steps break none
of the four conditions, when every key has a group of three and the machine ids differ. -/
theorem linearizes_of_run (hg : ∀ k, k ≠ [] → ∃ g, GroupOfThree cfg k g)
    (hid : Function.Injective cfg.mId) (hr : Run cfg (harmless cfg) (State.init Srv) s) :
    ∃ l, l.Perm s.effects ∧
      (registers (List UInt8) (List UInt8)).Linearizes s.history l := by
  obtain ⟨time, hstamped⟩ := stamped_of_run hg hid hr
  exact linearizes_of_stamps (wellFormed_of_run hr) hstamped

end Linearizes

/-- All three are the group of every key. -/
theorem groups_trio (k : List UInt8) (hk : k ≠ []) : ∃ g, GroupOfThree trio k g := by
  have hpos : 0 < k.length := List.length_pos_iff.mpr hk
  have hidx : getIdx 1 k = some 0 := by
    simp only [getIdx, Bytes.load, Nat.mod_one]
    split_ifs <;> simp_all
  have hreps : ∀ x, trio.reps x k = some x.others := by
    intro x
    simp [Cfg.reps, trio, hidx]
  have hothers : ∀ x : Trio, x.others.Nodup ∧
      ∀ y, y ∈ x.others ↔ y ∈ Finset.univ ∧ y ≠ x := by decide
  exact ⟨Finset.univ, rfl, fun x _ => ⟨x.others, hreps x, hothers x⟩,
    fun x hx => absurd (Finset.mem_univ x) hx⟩

/-- After a completed put, a get at the same server. -/
def putThenGetFirst : List (Action Trio) :=
  putDone ++ [.get .first 0 trioKey [], .request 2, .response 3, .advance .first 0,
    .advance .first 0]

theorem linearizes_of_run_putThenGetFirst : ∃ l,
    l.Perm [(0, .write trioKey trioValue, none), (2, .read trioKey, some trioValue)] ∧
      (registers (List UInt8) (List UInt8)).Linearizes
        [.call 0 (.write trioKey trioValue), .ret 0 none, .call 2 (.read trioKey),
          .ret 2 (some trioValue)] l := by
  have hr := run_trioAfter (harmless trio) putThenGetFirst (by decide +kernel)
  have hhist : (trioAfter (harmless trio) putThenGetFirst).history
      = [.call 0 (.write trioKey trioValue), .ret 0 none, .call 2 (.read trioKey),
        .ret 2 (some trioValue)] := by decide +kernel
  have heffects : (trioAfter (harmless trio) putThenGetFirst).effects
      = [(0, .write trioKey trioValue, none), (2, .read trioKey, some trioValue)] := by
    decide +kernel
  have h := linearizes_of_run groups_trio injective_mId_trio hr
  rw [hhist, heffects] at h
  exact h

end Avocado
