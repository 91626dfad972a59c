/-
# Clocks of different puts

A put's clock is one more than the largest count it has seen, with the machine id of its server.
Two servers cannot choose the same clock, since their ids differ.  Two puts of ONE server can: all
its threads pass the same machine id, and between a put's `kv.get` and its `kv.put` nothing stops
another put from reading the same old clock.  The other put may be one of another thread, and it
may be one of the SAME thread: the message is sent inside the section, and when no buffer is left
for it `alloc_msg_buffer` runs the event loop, where the other put's `GetTime` may be next.

`alone` says of a step that it does not start this read-choose-store section while another put of
the server, of whichever thread, is in it for the same key, nor while another put of the thread on
the key still waits for its `GetTime`.  In every run whose steps all satisfy it, and in which no
count wraps around, the clocks of the puts on a key are pairwise different (`assign_ne_of_run`).
-/
import Avocado.Abd.History
import Avocado.Abd.Group

namespace Avocado

variable {Srv : Type} [DecidableEq Srv] {cfg : Cfg Srv} {s s' : State Srv}

/-! ## 1. The conditions -/

/-- The context whose read-choose-store section the thread is in. -/
def Pc.critical : Pc → Option Nat
  | .getTimeGot c _ | .getTimeChosen c _ | .getTimeSent c _ => some c
  | _ => none

/-- The key of the put whose read-choose-store section the thread is in. -/
def State.criticalKey (s : State Srv) (x : Srv) (th : Nat) : Option (List UInt8) := do
  let ctx ← s.ctxs[← (s.pc x th).critical]?
  some ctx.key

/-- A put of thread `th` on the key that waits for its `GetTime`.  An event loop that is run while
the thread is inside another continuation may run it there. -/
def Ctx.waiting (ctx : Ctx Srv) (x : Srv) (th : Nat) (key : List UInt8) : Bool :=
  decide (ctx.srv = x ∧ ctx.thread = th ∧ ctx.cont = .getTime ∧ ctx.key = key) && !ctx.rep.done

/-- The step does not enter the section for a key while another put of the server is in it, or while
the thread has another put on the key that waits. -/
def alone (s : State Srv) : Action Srv → Bool
  | .advance x th =>
    match s.pc x th with
    | .getTime c =>
      match s.ctxs[c]? with
      | some ctx => s.ctxs.all fun other =>
          !(decide (other.srv = x) && decide (s.criticalKey x other.thread = some ctx.key)) &&
            !other.waiting x th ctx.key
      | none => true
    | _ => true
  | _ => true

/-- The step does not choose a count that wraps around to zero. -/
def noWrap (s : State Srv) : Action Srv → Bool
  | .advance x th =>
    match s.pc x th with
    | .getTimeGot c loc =>
      match s.ctxs[c]? with
      | some ctx =>
        match ctx.rep.reduceResp maxCount loc.lamport.count with
        | some max => decide (max.toNat + 1 < 2 ^ 32)
        | none => true
      | none => true
    | _ => true
  | _ => true

omit [DecidableEq Srv] in
theorem lt_of_noWrap {x : Srv} {th c : Nat} {loc : RetValue} {ctx : Ctx Srv} {max : BitVec 32}
    (h : noWrap s (.advance x th) = true) (hpc : s.pc x th = .getTimeGot c loc)
    (hc : s.ctxs[c]? = some ctx) (hm : ctx.rep.reduceResp maxCount loc.lamport.count = some max) :
    (max + 1).toNat = max.toNat + 1 := by
  simp only [noWrap, hpc, hc, hm, decide_eq_true_eq] at h
  have hone : (1 : BitVec 32).toNat = 1 := rfl
  rw [BitVec.toNat_add, hone, Nat.mod_eq_of_lt h]

omit [DecidableEq Srv] in
theorem criticalKey_eq_some {x : Srv} {th : Nat} {k : List UInt8} (h : s.criticalKey x th = some k) :
    ∃ c ctx, (s.pc x th).critical = some c ∧ s.ctxs[c]? = some ctx ∧ ctx.key = k := by
  simp only [State.criticalKey, Option.bind_eq_bind, Option.bind_eq_some_iff, Option.some.injEq] at h
  obtain ⟨c, hc, ctx, hctx, hk⟩ := h
  exact ⟨c, ctx, hc, hctx, hk⟩

theorem Pc.inside_of_critical {pc : Pc} {c : Nat} (h : pc.critical = some c) :
    pc.inside = some (c, .getTime) := by
  cases pc with
  | getTimeGot | getTimeChosen | getTimeSent =>
    simp only [Pc.critical, Option.some.injEq] at h
    simp [Pc.inside, h]
  | idle | getTime | retValue | retValueGot => exact absurd h (by simp [Pc.critical])

/-- When a put enters the section alone, nobody else is in it. -/
theorem not_critical_of_alone {x : Srv} {th c : Nat} {ctx : Ctx Srv} (hinv : Inv cfg anyLow s)
    (h : alone s (.advance x th) = true) (hpc : s.pc x th = .getTime c)
    (hc : s.ctxs[c]? = some ctx) (th' : Nat) : s.criticalKey x th' ≠ some ctx.key := by
  intro hsec
  obtain ⟨c', ctx', hin, hc', -⟩ := criticalKey_eq_some hsec
  obtain ⟨hx, hth, -⟩ := hinv.getTime_ctx (Pc.inside_of_critical hin) hc'
  simp only [alone, hpc, hc, List.all_eq_true, Bool.and_eq_true] at h
  have hother := (h ctx' (List.mem_of_getElem? hc')).1
  rw [hx, hth, hsec] at hother
  simp at hother

/-! ## 2. The invariant -/

/-- Every clock chosen so far for key `k` on server `x` is at most `t`. -/
def Covers (s : State Srv) (x : Srv) (k : List UInt8) (t : Lamport) : Prop :=
  ∀ op t' ctx, .assign op t' ∈ s.log → s.ctxs[op]? = some ctx → ctx.srv = x → ctx.key = k → t' ≤ t

/-- One put of a server and key at a time is in the section; what it has read covers all the clocks
chosen on its server; and no two clocks chosen for a key are equal. -/
structure Distinct (s : State Srv) : Prop where
  excl : ∀ x th th' k, s.criticalKey x th = some k → s.criticalKey x th' = some k → th = th'
  newer : ∀ x th c loc ctx, s.pc x th = .getTimeGot c loc → s.ctxs[c]? = some ctx →
    Covers s x ctx.key loc.lamport
  distinct : ∀ op op' t ctx ctx', .assign op t ∈ s.log → .assign op' t ∈ s.log →
    s.ctxs[op]? = some ctx → s.ctxs[op']? = some ctx' → ctx.key = ctx'.key → op = op'

theorem criticalKey_of_moved {a : Action Srv} (hinv : Inv cfg anyLow s) (hm : Moved cfg s a s')
    {x : Srv} {th : Nat} {k : List UInt8} (h : s'.criticalKey x th = some k) :
    s.criticalKey x th = some k ∨
      ∃ c ctx, a = .advance x th ∧ s.pc x th = .getTime c ∧ s.ctxs[c]? = some ctx ∧ ctx.key = k := by
  obtain ⟨c, ctx, hin, hc, hk⟩ := criticalKey_eq_some h
  have hstay : (s.pc x th).critical = some c → s.criticalKey x th = some k := by
    intro hold
    obtain ⟨ctx₀, hc₀, -⟩ := hinv.pc x th c _ (Pc.inside_of_critical hold)
    have hkey := ((table_of_moved hm).same hc₀ hc).key
    simp [State.criticalKey, hold, hc₀, ← hkey, hk]
  rcases turns_of_moved hm x th with hsame | hturn
  · exact Or.inl (hstay (hsame ▸ hin))
  · generalize hq : s'.pc x th = q at hturn hin
    cases hturn with
    | enter hi hc hp hr hcont => rcases hcont with ⟨-, rfl⟩ | ⟨-, rfl⟩ <;> simp [Pc.critical] at hin
    | @kvGet _ _ c₀ ctx₀ node _ hp hc₀ hd =>
      rcases hp with ⟨hp, rfl⟩ | ⟨hp, rfl⟩
      · simp only [Pc.critical, Option.some.injEq] at hin
        subst hin
        have hkey := ((table_of_moved hm).same hc₀ hc).key
        exact Or.inr ⟨c₀, ctx₀, rfl, hp, hc₀, hkey.symm.trans hk⟩
      · simp [Pc.critical] at hin
    | choose hp => exact Or.inl (hstay (by rw [hp]; exact hin))
    | send hp => exact Or.inl (hstay (by rw [hp]; exact hin))
    | store => simp [Pc.critical] at hin
    | report => simp [Pc.critical] at hin

theorem Distinct.step_excl {a : Action Srv} (h : Distinct s) (hinv : Inv cfg anyLow s)
    (hok : alone s a = true) (hm : Moved cfg s a s') (x : Srv) (th th' : Nat) (k : List UInt8)
    (hsec : s'.criticalKey x th = some k) (hsec' : s'.criticalKey x th' = some k) : th = th' := by
  rcases criticalKey_of_moved hinv hm hsec with hold | ⟨c, ctx, ha, hpc, hc, hk⟩
  · rcases criticalKey_of_moved hinv hm hsec' with hold' | ⟨c, ctx, ha, hpc, hc, hk⟩
    · exact h.excl x th th' k hold hold'
    · exact absurd (hk ▸ hold) (not_critical_of_alone hinv (ha ▸ hok) hpc hc th)
  · rcases criticalKey_of_moved hinv hm hsec' with hold' | ⟨c', ctx', ha', -⟩
    · exact absurd (hk ▸ hold') (not_critical_of_alone hinv (ha ▸ hok) hpc hc th')
    · rw [ha, Action.advance.injEq] at ha'
      exact ha'.2

theorem Distinct.step_newer {a : Action Srv} (h : Distinct s) (hs : Sound cfg s)
    (hok : alone s a = true) (hm : Moved cfg s a s') (x : Srv) (th c : Nat) (loc : RetValue)
    (ctx : Ctx Srv) (hpc : s'.pc x th = .getTimeGot c loc) (hc : s'.ctxs[c]? = some ctx) :
    Covers s' x ctx.key loc.lamport := by
  intro op t ctx' hev hop hx hk
  have ht := table_of_moved hm
  rcases turns_of_moved hm x th with hsame | hturn
  · rw [hsame] at hpc
    obtain ⟨ctx₀, hc₀, -⟩ := hs.inv.pc x th c _ (by rw [hpc]; rfl)
    have hkey := (ht.same hc₀ hc).key
    rcases mem_log_cases hm hev with hold | hnew
    · obtain ⟨ctx₁, hop₁, -⟩ := hs.puts.assigned op t hold
      have hs₁ := ht.same hop₁ hop
      exact h.newer x th c loc ctx₀ hpc hc₀ op t ctx₁ hold hop₁ (hs₁.srv ▸ hx)
        (hs₁.key ▸ hk.trans hkey)
    · -- the new clock's thread is in the section for the same key, so it is this thread
      obtain ⟨loc₁, ctx₁, max, -, hpc₁, hc₁, -, -, -, -, hpc', -⟩ := hs.inv.assigns hnew
      have hs₁ := ht.same hc₁ hop
      have hxx : ctx₁.srv = x := by rw [← hx, hs₁.srv]
      rw [hxx] at hpc₁ hpc'
      have hth : th = ctx₁.thread := by
        refine h.excl x th ctx₁.thread ctx₀.key ?_ ?_
        · simp [State.criticalKey, hpc, Pc.critical, hc₀]
        · simp [State.criticalKey, hpc₁, Pc.critical, hc₁, ← hs₁.key, hk, hkey]
      rw [← hth, hsame, hpc] at hpc'
      simp at hpc'
  · generalize hq : s'.pc x th = q at hturn hpc
    cases hturn with
    | enter hi hc hp hr hcont => rcases hcont with ⟨-, rfl⟩ | ⟨-, rfl⟩ <;> simp at hpc
    | @kvGet _ _ c₀ ctx₀ node _ hp hc₀ hd =>
      have hnode := hs.inv.node_key (hp.imp (·.1) (·.1)) hc₀ hd
      rcases hp with ⟨hp, rfl⟩ | ⟨hp, rfl⟩
      · simp only [Pc.getTimeGot.injEq] at hpc
        obtain ⟨rfl, rfl⟩ := hpc
        have hkey := (ht.same hc₀ hc).key
        have hold : .assign op t ∈ s.log := by
          rcases mem_log_cases hm hev with hold | hnew
          · exact hold
          · cases hnew with
            | assign hgot => rw [hp] at hgot; simp at hgot
        obtain ⟨ctx₁, hop₁, -⟩ := hs.puts.assigned op t hold
        have hs₁ := ht.same hop₁ hop
        have hx₁ : ctx₁.srv = x := hs₁.srv ▸ hx
        have hk₁ : ctx₁.key = ctx₀.key := by rw [← hs₁.key, hk, hkey]
        rw [KVStore.get_lamport, hnode]
        rcases hs.puts.settled op t ctx₁ hold hop₁ with hle | hin
        · rw [hx₁, hk₁] at hle
          exact hle
        · refine absurd ?_ (not_critical_of_alone hs.inv hok hp hc₀ ctx₁.thread)
          rw [← hx₁]
          rcases hin with hin | hin <;> simp [State.criticalKey, hin, Pc.critical, hop₁, hk₁]
      · simp at hpc
    | choose => simp at hpc
    | send => simp at hpc
    | store => simp at hpc
    | report => simp at hpc

omit [DecidableEq Srv] in
/-- The clock that a put chooses is greater than the local one it has read. -/
theorem lt_of_choose {x : Srv} {th c : Nat} {loc : RetValue} {ctx : Ctx Srv} {max : BitVec 32}
    (hinv : Inv cfg anyLow s) (hok : noWrap s (.advance x th) = true)
    (hpc : s.pc x th = .getTimeGot c loc) (hc : s.ctxs[c]? = some ctx)
    (hm : ctx.rep.reduceResp maxCount loc.lamport.count = some max) (m : BitVec 32) :
    loc.lamport < ⟨max + 1, m⟩ := by
  obtain ⟨-, -, hcont, -⟩ := hinv.getTime_ctx (by rw [hpc]; rfl) hc
  have hform := hinv.stamp_form hc hcont
  have hle := (maxCount_spec hform hm).1
  refine Lamport.lt_of_count_lt ?_
  rw [lt_of_noWrap hok hpc hc hm]
  have : loc.lamport.count.toNat ≤ max.toNat := hle
  omega

theorem Distinct.step_distinct {a : Action Srv} (h : Distinct s) (hs : Sound cfg s)
    (hs' : Sound cfg s') (hid : Function.Injective cfg.mId) (hok : noWrap s a = true)
    (hm : Moved cfg s a s') (op op' : Nat) (t : Lamport) (ctx ctx' : Ctx Srv)
    (hev : .assign op t ∈ s'.log) (hev' : .assign op' t ∈ s'.log) (hc : s'.ctxs[op]? = some ctx)
    (hc' : s'.ctxs[op']? = some ctx') (hk : ctx.key = ctx'.key) : op = op' := by
  have hsrv : ctx.srv = ctx'.srv :=
    hid ((hs'.puts.mId op t ctx hev hc).symm.trans (hs'.puts.mId op' t ctx' hev' hc'))
  have ht := table_of_moved hm
  -- a new clock is greater than what its put has read, which covers the old ones
  have hnew : ∀ {o o' : Nat} {b b' : Ctx Srv}, Emits cfg s s' a (.assign o t) →
      .assign o' t ∈ s.log → s'.ctxs[o]? = some b → s'.ctxs[o']? = some b' → b.srv = b'.srv →
      b.key = b'.key → False := by
    intro o o' b b' hnew hold hb hb' hsrv hkey
    obtain ⟨loc, ctx₀, max, rfl, hpc, hc₀, -, -, hmax, rfl, -⟩ := hs.inv.assigns hnew
    have hsb := ht.same hc₀ hb
    obtain ⟨ctx₁, hc₁, -⟩ := hs.puts.assigned o' _ hold
    have hsb' := ht.same hc₁ hb'
    have hle := h.newer _ _ o loc ctx₀ hpc hc₀ o' _ ctx₁ hold hc₁
      (by rw [← hsb'.srv, ← hsrv, hsb.srv]) (by rw [← hsb'.key, ← hkey, hsb.key])
    have hlt := lt_of_choose hs.inv hok hpc hc₀ hmax (cfg.mId ctx₀.srv)
    exact absurd hle (not_le.mpr hlt)
  rcases mem_log_cases hm hev with hold | hn
  · rcases mem_log_cases hm hev' with hold' | hn'
    · obtain ⟨ctx₀, hc₀, -⟩ := hs.puts.assigned op t hold
      obtain ⟨ctx₀', hc₀', -⟩ := hs.puts.assigned op' t hold'
      refine h.distinct op op' t ctx₀ ctx₀' hold hold' hc₀ hc₀' ?_
      rw [← (ht.same hc₀ hc).key, ← (ht.same hc₀' hc').key, hk]
    · exact (hnew hn' hold hc' hc hsrv.symm hk.symm).elim
  · rcases mem_log_cases hm hev' with hold' | hn'
    · exact (hnew hn hold' hc hc' hsrv hk).elim
    · obtain ⟨loc, ctx₀, max, rfl, hpc, -⟩ := hs.inv.assigns hn
      obtain ⟨loc', ctx₀', max', hsame, hpc', -⟩ := hs.inv.assigns hn'
      injection hsame with hx hth
      rw [hx, hth, hpc', Pc.getTimeGot.injEq] at hpc
      exact hpc.1.symm

/-! ## 3. Runs -/

theorem distinct_of_run {ok : State Srv → Action Srv → Bool} (hid : Function.Injective cfg.mId)
    (hok : ∀ s a, ok s a = true → alone s a = true ∧ noWrap s a = true)
    (hr : Run cfg ok (State.init Srv) s) : Distinct s := by
  refine invariant_of_run (fun s s' a hs hs' ha hm h => ?_) hr .init ⟨?_, ?_, ?_⟩
  · obtain ⟨halone, hwrap⟩ := hok s a ha
    exact ⟨h.step_excl hs.inv halone hm, h.step_newer hs halone hm,
      h.step_distinct hs hs' hid hwrap hm⟩
  · intro x th th' k hsec
    exact absurd hsec (by simp [State.criticalKey, State.init, Pc.critical])
  · intro x th c loc ctx hpc
    exact absurd hpc (by simp [State.init])
  · intro op op' t ctx ctx' hev
    exact absurd hev (by simp [State.init])

/-- A put's clock is not the least one. -/
theorem min_lt_of_assign {ok : State Srv → Action Srv → Bool}
    (hok : ∀ s a, ok s a = true → noWrap s a = true) (hr : Run cfg ok (State.init Srv) s) {op : Nat}
    {t : Lamport} (ht : .assign op t ∈ s.log) : Lamport.min < t := by
  refine invariant_of_run (I := fun s => ∀ op t, .assign op t ∈ s.log → Lamport.min < t)
    (fun s s' a hs _ ha hm h op t hev => ?_) hr .init (fun op t hev => ?_) op t ht
  · rcases mem_log_cases hm hev with hold | hnew
    · exact h op t hold
    · obtain ⟨loc, ctx, max, rfl, hpc, hc, -, -, hmax, rfl, -⟩ := hs.inv.assigns hnew
      exact (Lamport.min_le _).trans_lt (lt_of_choose hs.inv (hok _ _ ha) hpc hc hmax _)
  · exact absurd hev (by simp [State.init])

/-- **No two puts on a key have the same clock**, on servers with different machine ids, as long as
no count wraps around and the puts of one server on the key take turns. -/
theorem assign_ne_of_run (hid : Function.Injective cfg.mId)
    (hr : Run cfg (fun s a => alone s a && noWrap s a) (State.init Srv) s)
    {op op' : Nat} (hne : op ≠ op') {x x' : Srv} {k v v' : List UInt8} {t t' : Lamport}
    (hput : .invokePut op x k v ∈ s.log) (hput' : .invokePut op' x' k v' ∈ s.log)
    (ht : .assign op t ∈ s.log) (ht' : .assign op' t' ∈ s.log) : t ≠ t' := by
  have hd : Distinct s := distinct_of_run hid (fun s a hok => Bool.and_eq_true_iff.mp hok) hr
  have hs := sound_of_run hr
  obtain ⟨ctx, hc, -, -, hk⟩ := hs.calls.put op x k v hput
  obtain ⟨ctx', hc', -, -, hk'⟩ := hs.calls.put op' x' k v' hput'
  rintro rfl
  exact hne (hd.distinct op op' t ctx ctx' ht ht' hc hc' (hk.trans hk'.symm))

theorem injective_mId_trio : Function.Injective trio.mId := by
  intro x y
  revert x y
  decide

/-- Two threads of the first server put under one key, one after the other. -/
def putsInTurn : List (Action Trio) :=
  [.put .first 0 trioKey trioValue, .request 0, .response 1, .advance .first 0, .advance .first 0, .advance .first 0,
    .advance .first 0, .put .first 1 trioKey [1], .request 3, .response 4, .advance .first 1, .advance .first 1]

theorem assign_ne_of_run_putsInTurn :
    ∃ s, Run trio (fun s a => alone s a && noWrap s a) (State.init _) s ∧
      .invokePut 0 .first trioKey trioValue ∈ s.log ∧ .invokePut 2 .first trioKey [1] ∈ s.log ∧
      .assign 0 ⟨1, 1⟩ ∈ s.log ∧ .assign 2 ⟨2, 1⟩ ∈ s.log ∧ (⟨1, 1⟩ : Lamport) ≠ ⟨2, 1⟩ := by
  have hrun := run_trioAfter (fun s a => alone s a && noWrap s a) putsInTurn (by decide +kernel)
  have hput : Event.invokePut 0 .first trioKey trioValue ∈
      (trioAfter (fun s a => alone s a && noWrap s a) putsInTurn).log := by decide +kernel
  have hput' : Event.invokePut 2 .first trioKey [1] ∈
      (trioAfter (fun s a => alone s a && noWrap s a) putsInTurn).log := by decide +kernel
  have ht : Event.assign 0 ⟨1, 1⟩ ∈
      (trioAfter (fun s a => alone s a && noWrap s a) putsInTurn).log := by decide +kernel
  have ht' : Event.assign 2 ⟨2, 1⟩ ∈
      (trioAfter (fun s a => alone s a && noWrap s a) putsInTurn).log := by decide +kernel
  exact ⟨_, hrun, hput, hput', ht, ht',
    assign_ne_of_run injective_mId_trio hrun (by decide) hput hput' ht ht'⟩

/-- Two threads of the first server put under one key, and both read the store before either
chooses. -/
def putsAtOnce : List (Action Trio) :=
  [.put .first 0 trioKey trioValue, .put .first 1 trioKey [1], .request 0, .request 1, .response 2,
    .response 2, .advance .first 0, .advance .first 1, .advance .first 0, .advance .first 1]

/-- **Two threads of one server choose the same clock** when nothing makes them take turns. -/
theorem assign_eq_trio : Function.Injective trio.mId ∧
    ∃ s, Run trio noWrap (State.init _) s ∧
      .invokePut 0 .first trioKey trioValue ∈ s.log ∧ .invokePut 1 .first trioKey [1] ∈ s.log ∧
      .assign 0 ⟨1, 1⟩ ∈ s.log ∧ .assign 1 ⟨1, 1⟩ ∈ s.log :=
  ⟨injective_mId_trio, _, run_trioAfter _ putsAtOnce (by decide +kernel),
    by decide +kernel, by decide +kernel, by decide +kernel, by decide +kernel⟩

end Avocado
