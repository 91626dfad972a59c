/-
# Quiet keys

The servers of a group come to agree on a key by themselves: when no `PutReplica` request for it is
in flight and no put is between choosing its clock and storing its entry (`Settled`), all three have
the same clock for it (`clockOf_eq_of_settled`).

The clocks that go round are those of puts (`Known`): what a server stores, reports or writes back
was chosen by a put or is the least clock.  And the clock of a put goes everywhere (`Spread`): its
coordinator stores it, and every other server of the group has it, or has its request on the way, or
the put has not sent its requests yet.

Equal clocks are equal entries when the values are those of the puts and different puts have
different clocks (`find_eq_of_settled`).
-/
import Avocado.Abd.Regularity
import Avocado.Abd.Provenance
import Avocado.Abd.Completion

namespace Avocado

open Lookup

variable {Srv : Type} [DecidableEq Srv] {cfg : Cfg Srv} {s s' : State Srv}

/-- Nothing that could change an entry for `k` is under way, other than a put that has not chosen
its clock and a get. -/
structure Settled (s : State Srv) (k : List UInt8) : Prop where
  net : ∀ c dst buf ctx, .request c dst .putReplica buf ∈ s.net → s.ctxs[c]? = some ctx →
    ctx.key ≠ k
  pc : ∀ x th c t ctx, (s.pc x th = .getTimeChosen c t ∨ s.pc x th = .getTimeSent c t) →
    s.ctxs[c]? = some ctx → ctx.key ≠ k

omit [DecidableEq Srv] in
/-- No `PutReplica` request at all, and every thread in its event loop. -/
theorem settled_of_idle {k : List UInt8} (hinv : Inv cfg anyLow s)
    (hnet : ∀ c dst buf, .request c dst .putReplica buf ∉ s.net)
    (hpc : ∀ ctx ∈ s.ctxs, s.pc ctx.srv ctx.thread = .idle) : Settled s k where
  net c dst buf _ hp _ := absurd hp (hnet c dst buf)
  pc x th c t ctx hin hc := by
    have hinside : (s.pc x th).inside = some (c, .getTime) := by
      rcases hin with hin | hin <;> rw [hin] <;> rfl
    obtain ⟨rfl, rfl, -⟩ := hinv.getTime_ctx hinside hc
    rw [hpc ctx (List.mem_of_getElem? hc)] at hinside
    exact absurd hinside (by simp [Pc.inside])

/-! ## 1. Where clocks come from -/

/-- All clocks that go round for a key have the property `D`. -/
structure Known (cfg : Cfg Srv) (D : List UInt8 → Lamport → Prop) (s : State Srv) : Prop where
  inv : Inv cfg (fun _ k _ t => D k t) s
  stored : ∀ x k, D k ((s.kv x).clockOf k)
  writeBack : ∀ c dst type buf ctx, .request c dst type buf ∈ s.net → s.ctxs[c]? = some ctx →
    ctx.cont = .retGetPutUpdate → ∃ (t : Lamport) (v : List UInt8),
      buf.text.ptr = image (ctx.key ++ t.toBytes) v [] ∧ D ctx.key t

/-- The clocks chosen so far have the property. -/
def Chosen (D : List UInt8 → Lamport → Prop) (s : State Srv) : Prop :=
  ∀ op t ctx, .assign op t ∈ s.log → s.ctxs[op]? = some ctx → D ctx.key t

variable {D : List UInt8 → Lamport → Prop}

theorem Chosen.before {a : Action Srv} (h : Chosen D s') (hm : Moved cfg s a s') : Chosen D s := by
  intro op t ctx hev hc
  obtain ⟨ctx', hc', hsame⟩ := (table_of_moved hm).fwd op ctx hc
  exact hsame.key ▸ h op t ctx' (mem_log_of_moved hm hev) hc'

omit [DecidableEq Srv] in
theorem Chosen.written (h : Chosen D s) (hcalls : Calls s) {op : Nat} {k v : List UInt8}
    {t : Lamport} (hw : WrittenBy s.log op k t v) : D k t := by
  obtain ⟨⟨x, hcall⟩, ht⟩ := hw
  obtain ⟨ctx, hc, -, -, rfl⟩ := hcalls.put op x k v hcall
  exact h op t ctx ht hc

theorem Known.step_stored {a : Action Srv} (h : Known cfg D s) (hs : Sound cfg s)
    (hD : Chosen D s) (hm : Moved cfg s a s') (x : Srv) (k : List UInt8) :
    D k ((s'.kv x).clockOf k) := by
  have hput : ∀ {key v : List UInt8} {t : Lamport}, D key t →
      s'.kv x = ((s.kv x).put key v t).1 → D k ((s'.kv x).clockOf k) := by
    intro key v t ht hkv
    rw [hkv]
    rcases KVStore.clockOf_put_cases (s.kv x) key v t k with heq | ⟨rfl, heq⟩
    · rw [heq]
      exact h.stored x k
    · rw [heq]
      exact ht
  rcases hs.inv.writes hm x with hsame | hwrite
  · rw [hsame]
    exact h.stored x k
  · cases hwrite with
    | @replica i c dst type buf ctx hi hc hcont hkv =>
      have hmem := List.mem_of_getElem? hi
      rcases hcont with hcont | hcont
      · obtain ⟨t, v, himg, hw⟩ := hs.puts.write c x type buf ctx hmem hc hcont
        exact hput (hD.written hs.calls hw) (hkv t v himg)
      · obtain ⟨t, v, himg, ht⟩ := h.writeBack c x type buf ctx hmem hc hcont
        exact hput ht (hkv t v himg)
    | @own _ th c clock ctx v hpc hc hev hkv =>
      exact hput (hD c clock ctx (hs.puts.chosen x th c clock (Or.inr hpc)) hc) hkv

theorem Known.step_writeBack {a : Action Srv} (h : Known cfg D s) (hm : Moved cfg s a s') (c : Nat)
    (dst : Srv) (type : ReqType) (buf : MsgBuffer) (ctx : Ctx Srv)
    (hp : .request c dst type buf ∈ s'.net) (hc : s'.ctxs[c]? = some ctx)
    (hcont : ctx.cont = .retGetPutUpdate) : ∃ (t : Lamport) (v : List UInt8),
      buf.text.ptr = image (ctx.key ++ t.toBytes) v [] ∧ D ctx.key t := by
  rcases posts_of_moved hm hp with hold | hnew
  · obtain ⟨ctx₀, hc₀, -⟩ := h.inv.net _ hold
    have hsame := (table_of_moved hm).same hc₀ hc
    obtain ⟨t, v, himg, ht⟩ := h.writeBack c dst type buf ctx₀ hold hc₀ (hsame.cont ▸ hcont)
    rw [hsame.key]
    exact ⟨t, v, himg, ht⟩
  · generalize hq : Packet.request c dst type buf = p at hnew
    cases hnew with
    | query hctx hq' =>
      injection hq with h1
      rw [← h1, hc, Option.some.injEq] at hctx
      rw [← hctx, hcont] at hq'
      simp at hq'
    | write _ _ _ hctx hcont' =>
      injection hq with h1
      rw [← h1, hc, Option.some.injEq] at hctx
      rw [← hctx, hcont] at hcont'
      simp at hcont'
    | @writeBack x th c₁ loc ctx₁ node size st v d dst ctx' buf hpc hc₁ hd hst hsize hv hctx hcont'
        hkey himg =>
      injection hq with h1 h2 h3 h4
      rw [← h1, hc, Option.some.injEq] at hctx
      subst hctx
      obtain ⟨-, -, hcont₁, -, hdata, -⟩ := h.inv.retValue_ctx (by rw [hpc]; rfl) hc₁
      obtain rfl : node = ⟨ctx₁.key, ⟨Lamport.min, []⟩⟩ := Option.some.inj (hd.symm.trans hdata)
      refine ⟨st.max.1, v, by rw [h4, himg, hkey], ?_⟩
      rw [hkey]
      -- the clock that is written back is the local one or one that a response carries
      obtain ⟨-, -, hfrom⟩ := readResponses_spec (h.inv.value_form hc₁ hcont₁) hst
      rcases hfrom with hfrom | ⟨buf', hbuf', -, hclock⟩
      · obtain ⟨ctx₂, hc₂, -, -, -, -, -, hlow⟩ := h.inv.pc x th c₁ .retValue (by rw [hpc]; rfl)
        rw [hc₁, Option.some.injEq] at hc₂
        subst hc₂
        rw [hfrom]
        exact hlow loc (by rw [hpc]; rfl)
      · obtain ⟨src, hr⟩ := (h.inv.ctx c₁ ctx₁ hc₁).cache buf' hbuf'
        have hf := hr.form
        rw [hcont₁] at hf
        obtain ⟨t, v', himg', ht⟩ := hf
        obtain rfl : t = st.max.1 := Option.some.inj ((respClock_image rfl himg').symm.trans hclock)
        exact ht
    | answer => exact absurd hq (by simp)

theorem Known.step {a : Action Srv} (h : Known cfg D s) (hs : Sound cfg s) (hD : Chosen D s)
    (hm : Moved cfg s a s') : Known cfg D s' where
  inv := h.inv.step (fun _ k x => h.stored x k) hm
  stored := h.step_stored hs hD hm
  writeBack := h.step_writeBack hm

/-- **The clocks that go round were chosen**, in every run. -/
theorem known_of_run {ok : State Srv → Action Srv → Bool} (hmin : ∀ k, D k Lamport.min)
    (hr : Run cfg ok (State.init Srv) s) (hD : Chosen D s) : Known cfg D s := by
  induction hr with
  | refl =>
    refine ⟨.init, fun x k => hmin k, fun c dst type buf ctx hp => ?_⟩
    exact absurd hp (by simp [State.init])
  | tail hrun hlast ih =>
    obtain ⟨a, ha⟩ := hlast
    have hm := step_cases (Run.guard_eq_some.mp ha).2
    exact (ih (hD.before hm)).step (sound_of_run hrun) (hD.before hm) hm

/-! ## 2. Where they go -/

/-- The clock of a put is on every server its coordinator contacts, or still on its way there. -/
def Spread (cfg : Cfg Srv) (s : State Srv) : Prop :=
  ∀ op t ctx y, .assign op t ∈ s.log → s.ctxs[op]? = some ctx → Contacts cfg ctx.srv ctx.key y →
    t ≤ (s.kv y).clockOf ctx.key ∨ s.pc ctx.srv ctx.thread = .getTimeChosen op t ∨
    ∃ c buf ctx', .request c y .putReplica buf ∈ s.net ∧ s.ctxs[c]? = some ctx' ∧
      ctx'.cont = .ackPutTime ∧ ctx'.op = op ∧ ctx'.key = ctx.key

/-- A request stays in flight until it is handled. -/
theorem request_stays {a : Action Srv} (hm : Moved cfg s a s') {c : Nat} {dst : Srv}
    {type : ReqType} {buf : MsgBuffer} (hp : .request c dst type buf ∈ s.net) :
    .request c dst type buf ∈ s'.net ∨
      ∃ i, a = .request i ∧ s.net[i]? = some (.request c dst type buf) := by
  have hsend : ∀ {s₁ s₂ : State Srv} {ctx : Ctx Srv} {type' : ReqType} {msg : Msg},
      s₁.send cfg ctx type' msg = some s₂ → s₁.net = s.net →
      .request c dst type buf ∈ s₂.net := by
    intro s₁ s₂ ctx type' msg hs hnet
    rcases send_cases hs with ⟨reps, wire, -, -, rfl⟩ | ⟨-, rfl⟩
    · exact List.mem_append_left _ (hnet ▸ hp)
    · exact hnet ▸ hp
  have hresp : ∀ {i c' : Nat} {src : Srv} {buf' : MsgBuffer},
      s.net[i]? = some (.response c' src buf') → .request c dst type buf ∈ s.net.eraseIdx i :=
    fun hi => mem_eraseIdx_of_ne hp hi (by simp)
  cases hm with
  | put _ _ hs => exact Or.inl (hsend hs rfl)
  | get _ _ hs => exact Or.inl (hsend hs rfl)
  | @request i c₁ dst₁ type₁ buf₁ _ _ hi =>
    by_cases heq : Packet.request c dst type buf = .request c₁ dst₁ type₁ buf₁
    · exact Or.inr ⟨i, rfl, heq ▸ hi⟩
    · exact Or.inl (List.mem_append_left _ (mem_eraseIdx_of_ne hp hi heq))
  | absorb hi => exact Or.inl (hresp hi)
  | enter hi => exact Or.inl (hresp hi)
  | acked hi => exact Or.inl (hresp hi)
  | kvGet => exact Or.inl hp
  | choose => exact Or.inl hp
  | send _ _ _ _ hs =>
    have hin := hsend hs rfl
    exact Or.inl hin
  | store => exact Or.inl hp
  | report _ _ _ _ hs =>
    rcases hs with rfl | ⟨msg, v, -, -, -, hs⟩
    · exact Or.inl hp
    · have hin := hsend hs rfl
      exact Or.inl hin

/-- The thread of a put that has chosen its clock sends its requests to all replicas. -/
theorem requests_of_send {x : Srv} {th op : Nat} {t : Lamport} {ctx : Ctx Srv} {y : Srv}
    (hinv : Inv cfg anyLow s) (hm : Moved cfg s (.advance x th) s')
    (hpc : s.pc x th = .getTimeChosen op t) (hc : s.ctxs[op]? = some ctx)
    (hy : Contacts cfg ctx.srv ctx.key y) :
    ∃ c buf ctx', .request c y .putReplica buf ∈ s'.net ∧ s'.ctxs[c]? = some ctx' ∧
      ctx'.cont = .ackPutTime ∧ ctx'.op = op ∧ ctx'.key = ctx.key := by
  obtain ⟨rfl, -, -, -, hop, v, hdata, -⟩ := hinv.getTime_ctx (by rw [hpc]; rfl) hc
  obtain ⟨reps, hreps, hyr⟩ := hy
  cases hm with
  | send hpc' hc' hd hmsg hs =>
    rw [hpc, Pc.getTimeChosen.injEq] at hpc'
    obtain ⟨rfl, rfl⟩ := hpc'
    obtain rfl := Option.some.inj (hc.symm.trans hc')
    obtain rfl := Option.some.inj (hdata.symm.trans hd)
    rcases send_cases hs with ⟨reps', wire, hreps', -, rfl⟩ | ⟨hnil, -⟩
    · obtain rfl := Option.some.inj (hreps.symm.trans hreps')
      refine ⟨s.ctxs.length, ⟨true, wire⟩, _, ?_, List.getElem?_concat_length, rfl, hop, rfl⟩
      exact List.mem_append_right _ (List.mem_map_of_mem hyr)
    · obtain rfl := Option.some.inj (hreps.symm.trans hnil)
      exact absurd hyr (by simp)
  | kvGet hp => rcases hp with ⟨hp, -⟩ | ⟨hp, -⟩ <;> exact absurd (hpc.symm.trans hp) (by simp)
  | choose hp => exact absurd (hpc.symm.trans hp) (by simp)
  | store hp => exact absurd (hpc.symm.trans hp) (by simp)
  | report hp => exact absurd (hpc.symm.trans hp) (by simp)

/-- A server that handles a put's request has its clock. -/
theorem le_clockOf_of_request {i c op : Nat} {y : Srv} {buf : MsgBuffer} {t : Lamport}
    {ctx' : Ctx Srv} (hs : Sound cfg s) (hm : Moved cfg s (.request i) s')
    (hi : s.net[i]? = some (.request c y .putReplica buf)) (hc : s.ctxs[c]? = some ctx')
    (hcont : ctx'.cont = .ackPutTime) (hop : ctx'.op = op) (ht : .assign op t ∈ s.log) :
    t ≤ (s'.kv y).clockOf ctx'.key := by
  have hmem := List.mem_of_getElem? hi
  obtain ⟨t', v, himg, -, ht'⟩ := hs.puts.write c y _ buf ctx' hmem hc hcont
  obtain rfl := hs.puts.unique op t t' ht (hop ▸ ht')
  obtain ⟨ctx₁, hc₁, hreq⟩ := hs.inv.net _ hmem
  obtain rfl := Option.some.inj (hc.symm.trans hc₁)
  cases hm with
  | @request _ _ _ _ _ kv answer hi' hh =>
    rw [hi, Option.some.injEq, Packet.request.injEq] at hi'
    obtain ⟨rfl, rfl, rfl, rfl⟩ := hi'
    have hput := handled_of_reqOk hreq hh
    rw [hcont] at hput
    rw [State.setKv_kv_self, hput t v himg]
    exact KVStore.le_clockOf_put _ _ _ _

theorem Spread.step {a : Action Srv} (h : Spread cfg s) (hs : Sound cfg s) (hm : Moved cfg s a s') :
    Spread cfg s' := by
  intro op t ctx y hev hc hy
  have ht := table_of_moved hm
  rcases mem_log_cases hm hev with hold | hnew
  · obtain ⟨ctx₀, hc₀, -⟩ := hs.puts.assigned op t hold
    have hsame := ht.same hc₀ hc
    rw [hsame.srv, hsame.key] at hy
    rw [hsame.srv, hsame.thread, hsame.key]
    rcases h op t ctx₀ y hold hc₀ hy with hle | hpc | ⟨c, buf, ctx', hp, hc', hcont, hop, hkey⟩
    · exact Or.inl (hle.trans (clockOf_le_of_moved hm _ _))
    · rcases turns_of_moved hm ctx₀.srv ctx₀.thread with hstay | hturn
      · exact Or.inr (Or.inl (hstay.trans hpc))
      · have ha : a = .advance ctx₀.srv ctx₀.thread := by
          generalize s'.pc ctx₀.srv ctx₀.thread = q at hturn
          generalize ctx₀.srv = x at hturn hpc
          generalize ctx₀.thread = th at hturn hpc
          cases hturn with
          | enter _ _ hidle => exact absurd (hidle.symm.trans hpc) (by simp)
          | _ => rfl
        subst ha
        exact Or.inr (Or.inr (requests_of_send hs.inv hm hpc hc₀ hy))
    · rcases request_stays hm hp with hstay | ⟨i, rfl, hi⟩
      · obtain ⟨ctx₂, hc₂, hsame'⟩ := ht.fwd c ctx' hc'
        exact Or.inr (Or.inr ⟨c, buf, ctx₂, hstay, hc₂, hsame'.cont.trans hcont,
          hsame'.op.trans hop, hsame'.key.trans hkey⟩)
      · exact Or.inl (hkey ▸ le_clockOf_of_request hs hm hi hc' hcont hop hold)
  · obtain ⟨loc, ctx₀, max, -, -, hc₀, -, -, -, -, hpc', -⟩ := hs.inv.assigns hnew
    have hsame := ht.same hc₀ hc
    rw [hsame.srv, hsame.thread]
    exact Or.inr (Or.inl hpc')

theorem spread_of_run {ok : State Srv → Action Srv → Bool} (hr : Run cfg ok (State.init Srv) s) :
    Spread cfg s := by
  refine invariant_of_run (fun s s' a hs _ _ hm h => h.step hs hm) hr .init ?_
  intro op t ctx y hev
  exact absurd hev (by simp [State.init])

/-- A put that has its clock was answered by a server it contacts. -/
theorem contacts_of_assign {ok : State Srv → Action Srv → Bool}
    (hr : Run cfg ok (State.init Srv) s) {op : Nat} {t : Lamport} {ctx : Ctx Srv}
    (ht : .assign op t ∈ s.log) (hc : s.ctxs[op]? = some ctx) :
    ∃ y, Contacts cfg ctx.srv ctx.key y := by
  refine invariant_of_run (I := fun s => ∀ op t ctx, .assign op t ∈ s.log →
    s.ctxs[op]? = some ctx → ∃ y, Contacts cfg ctx.srv ctx.key y)
    (fun s s' a hs _ _ hm h op t ctx hev hc => ?_) hr .init ?_ op t ctx ht hc
  · have htable := table_of_moved hm
    rcases mem_log_cases hm hev with hold | hnew
    · obtain ⟨ctx₀, hc₀, -⟩ := hs.puts.assigned op t hold
      have hsame := htable.same hc₀ hc
      rw [hsame.srv, hsame.key]
      exact h op t ctx₀ hold hc₀
    · obtain ⟨loc, ctx₀, max, -, hpc, hc₀, -⟩ := hs.inv.assigns hnew
      obtain ⟨ctx₁, hc₁, -, -, -, -, hne, -⟩ := hs.inv.pc _ _ op .getTime (by rw [hpc]; rfl)
      obtain rfl := Option.some.inj (hc₀.symm.trans hc₁)
      obtain ⟨buf, hbuf⟩ := List.exists_mem_of_ne_nil _ hne
      obtain ⟨src, hresp⟩ := (hs.inv.ctx op ctx₀ hc₀).cache buf hbuf
      have hsame := htable.same hc₀ hc
      rw [hsame.srv, hsame.key]
      exact ⟨src, hresp.contacts⟩
  · intro op t ctx hev
    exact absurd hev (by simp [State.init])

/-! ## 3. Agreement -/

section Agreement

variable {ok : State Srv → Action Srv → Bool} {k : List UInt8} {g : Finset Srv} {x y : Srv}

/-- **Every clock chosen for a settled key has arrived everywhere.** -/
theorem le_clockOf_of_settled (hg : GroupOfThree cfg k g) (hr : Run cfg ok (State.init Srv) s)
    (hq : Settled s k) {op : Nat} {t : Lamport} {ctx : Ctx Srv} (ht : .assign op t ∈ s.log)
    (hc : s.ctxs[op]? = some ctx) (hk : ctx.key = k) (hy : y ∈ g) : t ≤ (s.kv y).clockOf k := by
  by_cases hyx : y = ctx.srv
  · rcases (sound_of_run hr).puts.settled op t ctx ht hc with hle | hpc
    · rw [hyx, ← hk]
      exact hle
    · exact absurd hk (hq.pc _ _ op t ctx hpc hc)
  · have hcontacts : Contacts cfg ctx.srv ctx.key y := by
      obtain ⟨z, hz⟩ := contacts_of_assign hr ht hc
      rw [hk] at hz ⊢
      obtain ⟨reps, hreps, -, hmem⟩ := hg.member _ (hg.of_contacts hz).1
      exact ⟨reps, hreps, (hmem y).mpr ⟨hy, hyx⟩⟩
    rcases spread_of_run hr op t ctx y ht hc hcontacts with
      hle | hpc | ⟨c, buf, ctx', hp, hc', -, -, hkey⟩
    · exact hk ▸ hle
    · exact absurd hk (hq.pc _ _ op t ctx (Or.inl hpc) hc)
    · exact absurd (hkey.trans hk) (hq.net c y buf ctx' hp hc')

/-- **The servers of a group agree on the clock of a settled key**, in every state that any run
reaches. -/
theorem clockOf_eq_of_settled (hg : GroupOfThree cfg k g) (hr : Run cfg ok (State.init Srv) s)
    (hq : Settled s k) (hx : x ∈ g) (hy : y ∈ g) : (s.kv x).clockOf k = (s.kv y).clockOf k := by
  have hknown : Known cfg (fun k t => t = .min ∨ ∃ op ctx, .assign op t ∈ s.log ∧
      s.ctxs[op]? = some ctx ∧ ctx.key = k) s :=
    known_of_run (fun _ => Or.inl rfl) hr fun op t ctx hev hc => Or.inr ⟨op, ctx, hev, hc, rfl⟩
  have hle : ∀ {x y : Srv}, y ∈ g → (s.kv x).clockOf k ≤ (s.kv y).clockOf k := by
    intro x y hy
    rcases hknown.stored x k with hmin | ⟨op, ctx, ht, hc, hk⟩
    · rw [hmin]
      exact Lamport.min_le _
    · exact le_clockOf_of_settled hg hr hq ht hc hk hy
  exact le_antisymm (hle hy) (hle hx)

/-- A put that has reached all three servers. -/
def putEverywhere : List (Action Trio) := putDone ++ [.request 1]

/-- No request to store anything. -/
def Packet.quiet {Srv : Type} : Packet Srv → Bool
  | .request _ _ .putReplica _ => false
  | _ => true

theorem settled_trioAfter {ok : State Trio → Action Trio → Bool} {as : List (Action Trio)}
    (hr : Run trio ok (State.init _) (trioAfter ok as))
    (hnet : (trioAfter ok as).net.all Packet.quiet = true)
    (hpc : ∀ ctx ∈ (trioAfter ok as).ctxs, (trioAfter ok as).pc ctx.srv ctx.thread = .idle)
    (k : List UInt8) : Settled (trioAfter ok as) k := by
  refine settled_of_idle (sound_of_run hr).inv (fun c dst buf hp => ?_) hpc
  have hquiet := List.all_eq_true.mp hnet _ hp
  exact absurd hquiet (by simp [Packet.quiet])

theorem clockOf_eq_of_settled_trio :
    ((trioAfter noWrap putEverywhere).kv .first).clockOf trioKey
      = ((trioAfter noWrap putEverywhere).kv .third).clockOf trioKey := by
  have hr := run_trioAfter noWrap putEverywhere (by decide +kernel)
  exact clockOf_eq_of_settled groupOfThree_trio hr
    (settled_trioAfter hr (by decide +kernel) (by decide +kernel) _) (Finset.mem_univ _)
    (Finset.mem_univ _)

/-- **They agree on its entry** as well, when the machine ids differ, what is stored comes from
puts, no two puts of a server on a key choose their clocks at once, and no count wraps around. -/
theorem find_eq_of_settled (hid : Function.Injective cfg.mId) (hg : GroupOfThree cfg k g)
    (hr : Run cfg (fun s a => alone s a && noWrap s a) (State.init Srv) s) (hstored : Provenance s)
    (hq : Settled s k) (hx : x ∈ g) (hy : y ∈ g) : (s.kv x).find k = (s.kv y).find k := by
  have hall : ∀ (s : State Srv) (a : Action Srv), (alone s a && noWrap s a) = true →
      alone s a = true ∧ noWrap s a = true := fun _ _ => Bool.and_eq_true_iff.mp
  have hs := sound_of_run hr
  have hdistinct := distinct_of_run hid hall hr
  have hle : ∀ {x y : Srv} {m : MetaData}, (s.kv x).clockOf k = (s.kv y).clockOf k →
      (s.kv x).find k = some m → (s.kv y).find k = some m := by
    intro x y m hclock hf
    rw [KVStore.clockOf_of_some hf] at hclock
    obtain ⟨op, ⟨z, hcall⟩, ht⟩ := hstored x k m hf
    cases hf' : (s.kv y).find k with
    | none =>
      -- the clock of an entry is not the least one
      rw [KVStore.clockOf_of_none hf'] at hclock
      have hmin := min_lt_of_assign (fun s a h => (hall s a h).2) hr ht
      exact absurd hclock hmin.ne'
    | some m' =>
      rw [KVStore.clockOf_of_some hf'] at hclock
      obtain ⟨op', ⟨z', hcall'⟩, ht'⟩ := hstored y k m' hf'
      obtain ⟨ctx, hc, -, -, hk⟩ := hs.calls.put op z k m.data hcall
      obtain ⟨ctx', hc', -, -, hk'⟩ := hs.calls.put op' z' k m'.data hcall'
      obtain rfl := hdistinct.distinct op op' m.clock ctx ctx' ht (hclock ▸ ht') hc hc'
        (hk.trans hk'.symm)
      have hsame := eq_of_nodup_filterMap (b := op) (accounts_of_run hr).nodup hcall hcall' rfl rfl
      rw [Event.invokePut.injEq] at hsame
      obtain ⟨c, d⟩ := m
      obtain ⟨c', d'⟩ := m'
      simp only at hclock hsame
      rw [hclock, hsame.2.2.2]
  have hclock := clockOf_eq_of_settled hg hr hq hx hy
  cases hf : (s.kv x).find k with
  | some m => exact (hle hclock hf).symm
  | none =>
    cases hf' : (s.kv y).find k with
    | some m => exact absurd (hle hclock.symm hf') (by rw [hf]; simp)
    | none => rfl

end Agreement

theorem find_eq_of_settled_trio :
    ∃ s, Run trio (fun s a => alone s a && noWrap s a) (State.init _) s ∧ Provenance s ∧
      Settled s trioKey ∧ (s.kv .first).find trioKey = some ⟨⟨1, 1⟩, trioValue⟩ ∧
      (s.kv .first).find trioKey = (s.kv .third).find trioKey := by
  have hr := run_trioAfter (fun s a => localNewest s a && (alone s a && noWrap s a)) putEverywhere
    (by decide +kernel)
  have hrun : Run trio (fun s a => alone s a && noWrap s a) (State.init _) _ :=
    Run.guard_mono (fun _ _ h => (Bool.and_eq_true_iff.mp h).2) hr
  have hstored : Provenance _ := (invariant_of_run (I := Traced) (fun _ _ _ hs _ hok hm h =>
    h.step hs (Bool.and_eq_true_iff.mp hok).1 hm) hr .init .init).stored
  have hq := settled_trioAfter hr (by decide +kernel) (by decide +kernel) trioKey
  exact ⟨_, hrun, hstored, hq, by decide +kernel,
    find_eq_of_settled injective_mId_trio groupOfThree_trio hrun hstored hq (Finset.mem_univ _)
      (Finset.mem_univ _)⟩

/-- The write-back of `putThenGetElsewhere` reaches the third server before the put does. -/
def overtaken : List (Action Trio) :=
  putThenGetElsewhere ++ [.request 1, .request 1, .request 2]

/-- **Without the conditions the entries can differ for good**: the third server has the clock of
the put, so it refuses the put's value, and nothing is under way that would repair it. -/
theorem find_ne_of_settled_trio : ∃ s, Run trio (fun _ _ => true) (State.init _) s ∧
    (∀ k, Settled s k) ∧ (s.kv .first).find trioKey = some ⟨⟨1, 1⟩, trioValue⟩ ∧
    (s.kv .third).find trioKey = some ⟨⟨1, 1⟩, trioKey ++ (⟨1, 1⟩ : Lamport).toBytes⟩ := by
  have hr := run_trioAfter (fun _ _ => true) overtaken (by decide +kernel)
  exact ⟨_, hr, settled_trioAfter hr (by decide +kernel) (by decide +kernel), by decide +kernel,
    by decide +kernel⟩

end Avocado
