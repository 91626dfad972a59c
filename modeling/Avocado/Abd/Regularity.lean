/-
# Completed writes are seen

When a put has run `AckPutTime`, its coordinator and at least one replica have an entry for the key
that is as new as the put's clock (`Acks`).  These are two of the group's three servers, and every
later operation on the key hears from two of them as well, its own server among them, so it hears
of the clock from one that holds it (`seen_of_held`): a get selects no older clock, and a put
chooses a newer one.

The argument for later operations does not say where the clock comes from, only that two servers
hold it, so `Abd/Atomicity.lean` uses it too.
-/
import Avocado.Abd.Uniqueness

namespace Avocado

variable {Srv : Type} [DecidableEq Srv] {cfg : Cfg Srv} {s s' : State Srv}

/-! ## 1. A clock that two servers hold -/

/-- Servers `x` and `y` both have an entry for `k` that is at least as new as `T`. -/
def Held (s : State Srv) (k : List UInt8) (T : Lamport) (x y : Srv) : Prop :=
  T ≤ (s.kv x).clockOf k ∧ T ≤ (s.kv y).clockOf k

theorem Held.moved {a : Action Srv} {k : List UInt8} {T : Lamport} {x y : Srv}
    (h : Held s k T x y) (hm : Moved cfg s a s') : Held s' k T x y :=
  ⟨h.1.trans (clockOf_le_of_moved hm x k), h.2.trans (clockOf_le_of_moved hm y k)⟩

/-- What an operation on `k` from place `n` on has heard from `x` and from `y`: nothing older than
`T`. -/
def heardLow (n : Nat) (k : List UInt8) (T : Lamport) (x y : Srv) : Low Srv :=
  fun op key z t => n ≤ op → key = k → (z = x ∨ z = y) → T ≤ t

omit [DecidableEq Srv] in
/-- Operations that start later than `s` meet `heardLow`, since there are none yet. -/
theorem Inv.heardLow {k : List UInt8} {T : Lamport} {x y : Srv} (h : Inv cfg anyLow s) :
    Inv cfg (heardLow s.ctxs.length k T x y) s := by
  have hlt : ∀ {c : Nat} {ctx : Ctx Srv}, s.ctxs[c]? = some ctx → ctx.op < s.ctxs.length :=
    fun {c ctx} hc => (h.ctx c ctx hc).op_le.trans_lt (List.getElem?_eq_some_iff.mp hc).1
  have hlow : ∀ {c : Nat} {ctx : Ctx Srv} {key : List UInt8} {z : Srv} {t : Lamport},
      s.ctxs[c]? = some ctx → Avocado.heardLow s.ctxs.length k T x y ctx.op key z t :=
    fun hc hn => absurd (hlt hc) (not_lt.mpr hn)
  have hresp : ∀ {c : Nat} {ctx : Ctx Srv} {src : Srv} {buf : MsgBuffer},
      s.ctxs[c]? = some ctx → RespOk cfg anyLow ctx src buf →
      RespOk cfg (Avocado.heardLow s.ctxs.length k T x y) ctx src buf := by
    intro c ctx src buf hc hr
    refine ⟨hr.contacts, ?_⟩
    have hf := hr.form
    split at hf
    · obtain ⟨t, himg, -⟩ := hf
      exact ⟨t, himg, hlow hc⟩
    · obtain ⟨t, v, himg, -⟩ := hf
      exact ⟨t, v, himg, hlow hc⟩
    · trivial
    · trivial
  refine ⟨fun c ctx hc => ?_, fun z th c cont hin => ?_, fun p hp => ?_⟩
  · have hok := h.ctx c ctx hc
    refine ⟨hok.op_le, hok.form, fun buf hbuf => ?_⟩
    obtain ⟨src, hr⟩ := hok.cache buf hbuf
    exact ⟨src, hresp hc hr⟩
  · obtain ⟨ctx, hc, hz, hth, hcont, hdone, hne, -⟩ := h.pc z th c cont hin
    exact ⟨ctx, hc, hz, hth, hcont, hdone, hne, fun r _ => hlow hc⟩
  · have hok := h.net p hp
    cases p with
    | request => exact hok
    | response c src buf =>
      obtain ⟨ctx, hc, hr⟩ := hok
      exact ⟨ctx, hc, hresp hc hr⟩

variable {k : List UInt8} {g : Finset Srv} {T : Lamport} {x y : Srv} {n : Nat}

/-- **A later operation has heard `T`** from itself or from a replica. -/
theorem heard_of_group (hg : GroupOfThree cfg k g) (hx : x ∈ g) (hy : y ∈ g) (hxy : y ≠ x)
    (hinv : Inv cfg (heardLow n k T x y) s) {z : Srv} {th c : Nat} {cont : ContType}
    {loc : RetValue} {ctx : Ctx Srv} (hin : (s.pc z th).inside = some (c, cont))
    (hloc : (s.pc z th).localResp = some loc) (hc : s.ctxs[c]? = some ctx) (hn : n ≤ ctx.op)
    (hk : ctx.key = k) :
    T ≤ loc.lamport ∨ ∃ buf ∈ ctx.rep.cache, ∃ src, RespOk cfg (heardLow n k T x y) ctx src buf ∧
      (src = x ∨ src = y) := by
  obtain ⟨ctx', hc', hz, -, -, -, hne, hlow⟩ := hinv.pc z th c cont hin
  rw [hc, Option.some.injEq] at hc'
  subst hc'
  obtain ⟨buf, hbuf⟩ := List.exists_mem_of_ne_nil _ hne
  obtain ⟨src, hr⟩ := (hinv.ctx c ctx hc).cache buf hbuf
  have hcontacts := hr.contacts
  rw [hk] at hcontacts
  obtain ⟨hzg, hsg, hzs⟩ := hg.of_contacts hcontacts
  have hmeet := hg.meet hx hy hxy hzg hsg hzs
  rw [hz] at hmeet
  rcases hmeet with hzx | hzy | hsx | hsy
  · exact Or.inl (hlow loc hloc hn hk (Or.inl hzx))
  · exact Or.inl (hlow loc hloc hn hk (Or.inr hzy))
  · exact Or.inr ⟨buf, hbuf, src, hr, Or.inl hsx⟩
  · exact Or.inr ⟨buf, hbuf, src, hr, Or.inr hsy⟩

/-- What later operations on `k` came to: gets selected no older clock than `T`, and puts chose a
newer one. -/
structure Seen (cfg : Cfg Srv) (n : Nat) (k : List UInt8) (T : Lamport) (x y : Srv)
    (s : State Srv) : Prop where
  inv : Inv cfg (heardLow n k T x y) s
  held : Held s k T x y
  select : ∀ op t ctx, .select op t ∈ s.log → s.ctxs[op]? = some ctx → n ≤ op → ctx.key = k → T ≤ t
  assign : ∀ op t ctx, .assign op t ∈ s.log → s.ctxs[op]? = some ctx → n ≤ op → ctx.key = k → T < t

/-- The fields of `Seen` that every step is shown to keep. -/
theorem Seen.step_select (hg : GroupOfThree cfg k g) (hx : x ∈ g) (hy : y ∈ g) (hxy : y ≠ x)
    (hs : Sound cfg s) {a : Action Srv} (h : Seen cfg n k T x y s) (hm : Moved cfg s a s') (op : Nat)
    (t : Lamport) (ctx : Ctx Srv) (hev : .select op t ∈ s'.log) (hc : s'.ctxs[op]? = some ctx)
    (hn : n ≤ op) (hk : ctx.key = k) : T ≤ t := by
  have ht := table_of_moved hm
  rcases mem_log_cases hm hev with hold | hnew
  · obtain ⟨ctx₀, hc₀⟩ := hs.calls.select op t hold
    exact h.select op t ctx₀ hold hc₀ hn ((ht.same hc₀ hc).key ▸ hk)
  · obtain ⟨loc, ctx₀, st, -, hpc, hc₀, hcont, -, hst, rfl, hop⟩ := h.inv.selects hnew
    have hno : n ≤ ctx₀.op := hop ▸ hn
    have hkey : ctx₀.key = k := (ht.same hc₀ hc).key ▸ hk
    have hform := h.inv.value_form hc₀ hcont
    obtain ⟨hmax, hmaxr, -⟩ := readResponses_spec hform hst
    rcases heard_of_group hg hx hy hxy h.inv (by rw [hpc]; rfl) (by rw [hpc]; rfl) hc₀ hno hkey with
      hle | ⟨buf, hbuf, src, hr, hsrc⟩
    · exact hle.trans hmax
    · have hf := hr.form
      rw [hcont] at hf
      obtain ⟨t', v, himg, hlow⟩ := hf
      exact (hlow hno hkey hsrc).trans (hmaxr buf hbuf t' (respClock_image rfl himg))

theorem Seen.step_assign (hg : GroupOfThree cfg k g) (hx : x ∈ g) (hy : y ∈ g) (hxy : y ≠ x)
    (hs : Sound cfg s) {a : Action Srv} (h : Seen cfg n k T x y s) (hok : noWrap s a = true)
    (hm : Moved cfg s a s') (op : Nat) (t : Lamport) (ctx : Ctx Srv) (hev : .assign op t ∈ s'.log)
    (hc : s'.ctxs[op]? = some ctx) (hn : n ≤ op) (hk : ctx.key = k) : T < t := by
  have ht := table_of_moved hm
  rcases mem_log_cases hm hev with hold | hnew
  · obtain ⟨ctx₀, hc₀, -⟩ := hs.puts.assigned op t hold
    exact h.assign op t ctx₀ hold hc₀ hn ((ht.same hc₀ hc).key ▸ hk)
  · obtain ⟨loc, ctx₀, max, rfl, hpc, hc₀, hcont, -, hmax, rfl, -, hop⟩ := h.inv.assigns hnew
    have hno : n ≤ ctx₀.op := hop ▸ hn
    have hkey : ctx₀.key = k := (ht.same hc₀ hc).key ▸ hk
    obtain ⟨hloc, hresp⟩ := maxCount_spec (h.inv.stamp_form hc₀ hcont) hmax
    -- a clock whose count is at most `max` is less than the new one
    have hlt : ∀ {t' : Lamport}, t'.count ≤ max → t' < ⟨max + 1, cfg.mId ctx₀.srv⟩ := by
      intro t' hle
      refine Lamport.lt_of_count_lt ?_
      rw [lt_of_noWrap hok hpc hc₀ hmax]
      have : t'.count.toNat ≤ max.toNat := hle
      omega
    rcases heard_of_group hg hx hy hxy h.inv (by rw [hpc]; rfl) (by rw [hpc]; rfl) hc₀ hno hkey with
      hle | ⟨buf, hbuf, src, hr, hsrc⟩
    · exact hle.trans_lt (hlt hloc)
    · have hf := hr.form
      rw [hcont] at hf
      obtain ⟨t', himg, hlow⟩ := hf
      exact (hlow hno hkey hsrc).trans_lt (hlt (hresp buf hbuf t' (stampClock_image himg)))

theorem Seen.step (hg : GroupOfThree cfg k g) (hx : x ∈ g) (hy : y ∈ g) (hxy : y ≠ x)
    {a : Action Srv} (h : Seen cfg n k T x y s) (hs : Sound cfg s) (hok : noWrap s a = true)
    (hm : Moved cfg s a s') : Seen cfg n k T x y s' where
  inv := by
    refine h.inv.step (fun op key z hn hk hz => ?_) hm
    subst hk
    rcases hz with rfl | rfl
    · exact h.held.1
    · exact h.held.2
  held := h.held.moved hm
  select := h.step_select hg hx hy hxy hs hm
  assign := h.step_assign hg hx hy hxy hs hok hm

/-- **A clock that two servers of the group hold is seen** by every operation that starts later. -/
theorem seen_of_held (hg : GroupOfThree cfg k g) (hx : x ∈ g) (hy : y ∈ g) (hxy : y ≠ x)
    (hs : Sound cfg s) (hheld : Held s k T x y) {ok : State Srv → Action Srv → Bool}
    (hok : ∀ s a, ok s a = true → noWrap s a = true) (hr : Run cfg ok s s') :
    Seen cfg s.ctxs.length k T x y s' := by
  refine invariant_of_run (fun s₁ s₂ a hs₁ _ hok₁ hm h => h.step hg hx hy hxy hs₁ (hok _ _ hok₁) hm)
    hr hs ⟨hs.inv.heardLow, hheld, ?_, ?_⟩
  · intro op t ctx _ hc hn
    exact absurd (List.getElem?_eq_some_iff.mp hc).1 (not_lt.mpr hn)
  · intro op t ctx _ hc hn
    exact absurd (List.getElem?_eq_some_iff.mp hc).1 (not_lt.mpr hn)

/-- A get that was not called before `s` has a later place. -/
theorem place_of_invokeGet {ok : State Srv → Action Srv → Bool} {op : Nat} {z : Srv}
    (hs : Sound cfg s) (hr : Run cfg ok s s') (hnew : .invokeGet op z k ∉ s.log)
    (hget : .invokeGet op z k ∈ s'.log) :
    ∃ ctx, s'.ctxs[op]? = some ctx ∧ s.ctxs.length ≤ op ∧ ctx.key = k := by
  obtain ⟨ctx, hc, hcont, hz, hk⟩ := (hs.run hr).calls.get op z k hget
  refine ⟨ctx, hc, ?_, hk⟩
  by_contra hlt
  obtain ⟨ctx₀, hc₀, hsame⟩ := old_of_run hr hc (not_le.mp hlt)
  have hf := (hs.inv.ctx op ctx₀ hc₀).form
  rw [← hsame.cont, hcont] at hf
  obtain ⟨-, -, hev⟩ := hf
  rw [← hsame.srv, ← hsame.key, hz, hk] at hev
  exact hnew hev

/-- A put that was not called before `s` has a later place. -/
theorem place_of_invokePut {ok : State Srv → Action Srv → Bool} {op : Nat} {z : Srv}
    {v : List UInt8} (hs : Sound cfg s) (hr : Run cfg ok s s')
    (hnew : ∀ v, .invokePut op z k v ∉ s.log) (hput : .invokePut op z k v ∈ s'.log) :
    ∃ ctx, s'.ctxs[op]? = some ctx ∧ s.ctxs.length ≤ op ∧ ctx.key = k := by
  obtain ⟨ctx, hc, hcont, hz, hk⟩ := (hs.run hr).calls.put op z k v hput
  refine ⟨ctx, hc, ?_, hk⟩
  by_contra hlt
  obtain ⟨ctx₀, hc₀, hsame⟩ := old_of_run hr hc (not_le.mp hlt)
  have hf := (hs.inv.ctx op ctx₀ hc₀).form
  rw [← hsame.cont, hcont] at hf
  obtain ⟨-, v', -, hev⟩ := hf
  rw [← hsame.srv, ← hsame.key, hz, hk] at hev
  exact hnew v' hev

/-! ## 2. What a completed put leaves behind -/

/-- The second phase of a put: it starts with the clock chosen, a server that has acknowledged
holds the clock, and when the put is done its coordinator and a replica hold it. -/
structure Acks (cfg : Cfg Srv) (s : State Srv) : Prop where
  second : ∀ (c : Nat) (ctx : Ctx Srv), s.ctxs[c]? = some ctx → ctx.cont = .ackPutTime →
    ∃ t, .assign ctx.op t ∈ s.log
  held : ∀ c src buf ctx, .response c src buf ∈ s.net → s.ctxs[c]? = some ctx →
    ctx.cont = .ackPutTime → ∀ t, .assign ctx.op t ∈ s.log → t ≤ (s.kv src).clockOf ctx.key
  ret : ∀ op, .putRet op ∈ s.log → ∃ ctx y t, s.ctxs[op]? = some ctx ∧
    Contacts cfg ctx.srv ctx.key y ∧ .assign op t ∈ s.log ∧ Held s ctx.key t ctx.srv y

theorem Acks.step_second {a : Action Srv} (h : Acks cfg s) (hs : Sound cfg s)
    (hm : Moved cfg s a s') (c : Nat) (ctx : Ctx Srv) (hc : s'.ctxs[c]? = some ctx)
    (hcont : ctx.cont = .ackPutTime) : ∃ t, .assign ctx.op t ∈ s'.log := by
  rcases (table_of_moved hm).bwd c ctx hc with ⟨ctx₀, hc₀, hsame⟩ | rfl
  · obtain ⟨t, ht⟩ := h.second c ctx₀ hc₀ (hsame.cont ▸ hcont)
    exact ⟨t, hsame.op ▸ mem_log_of_moved hm ht⟩
  · rcases opened_of_moved hm hc with hne | ⟨x, th, c, clock, ctx₀, hpc, hc₀, hop⟩
    · exact absurd hcont hne
    · obtain ⟨-, -, -, -, hop', -⟩ := hs.inv.getTime_ctx (by rw [hpc]; rfl) hc₀
      refine ⟨clock, ?_⟩
      rw [hop, hop']
      exact mem_log_of_moved hm (hs.puts.chosen x th c clock (Or.inl hpc))

/-- A put in its second phase has no new clock. -/
theorem Acks.assigned {a : Action Srv} (h : Acks cfg s) (hs' : Sound cfg s') (hm : Moved cfg s a s')
    {c : Nat} {ctx : Ctx Srv} {t : Lamport} (hc : s.ctxs[c]? = some ctx)
    (hcont : ctx.cont = .ackPutTime) (ht : .assign ctx.op t ∈ s'.log) : .assign ctx.op t ∈ s.log := by
  obtain ⟨t', ht'⟩ := h.second c ctx hc hcont
  rw [hs'.puts.unique ctx.op t t' ht (mem_log_of_moved hm ht')]
  exact ht'

theorem Acks.step_held {a : Action Srv} (h : Acks cfg s) (hs : Sound cfg s) (hs' : Sound cfg s')
    (hm : Moved cfg s a s') (c : Nat) (src : Srv) (buf : MsgBuffer) (ctx : Ctx Srv)
    (hp : .response c src buf ∈ s'.net) (hc : s'.ctxs[c]? = some ctx)
    (hcont : ctx.cont = .ackPutTime) (t : Lamport) (ht : .assign ctx.op t ∈ s'.log) :
    t ≤ (s'.kv src).clockOf ctx.key := by
  have htable := table_of_moved hm
  rcases posts_of_moved hm hp with hold | hnew
  · obtain ⟨ctx₀, hc₀, -⟩ := hs.inv.net _ hold
    have hsame := htable.same hc₀ hc
    have hcont₀ : ctx₀.cont = .ackPutTime := hsame.cont ▸ hcont
    have ht₀ := h.assigned hs' hm hc₀ hcont₀ (hsame.op ▸ ht)
    rw [hsame.key]
    exact (h.held c src buf ctx₀ hold hc₀ hcont₀ t ht₀).trans (clockOf_le_of_moved hm _ _)
  · generalize hq : Packet.response c src buf = p at hnew
    cases hnew with
    | @answer i c₁ dst type buf₁ kv answer hi hh =>
      injection hq with h1 h2
      subst h1 h2
      obtain ⟨ctx₀, hc₀, hreq⟩ := hs.inv.net _ (List.mem_of_getElem? hi)
      have hsame := htable.same hc₀ hc
      have hcont₀ : ctx₀.cont = .ackPutTime := hsame.cont ▸ hcont
      obtain ⟨t', v, himg, -, ht'⟩ :=
        hs.puts.write c src type buf₁ ctx₀ (List.mem_of_getElem? hi) hc₀ hcont₀
      have hput := handled_of_reqOk hreq hh
      rw [hcont₀] at hput
      cases hm with
      | request hi' hh' =>
        rw [hi, Option.some.injEq, Packet.request.injEq] at hi'
        obtain ⟨rfl, rfl, rfl, rfl⟩ := hi'
        rw [hh, Option.some.injEq, Handled.mk.injEq] at hh'
        rw [State.setKv_kv_self, ← hh'.1, hput t' v himg, hsame.key,
          hs'.puts.unique ctx.op t t' ht (by rw [hsame.op]; exact ht')]
        exact KVStore.le_clockOf_put _ _ _ _
    | _ => exact absurd hq (by simp)

theorem Acks.step_ret {a : Action Srv} (h : Acks cfg s) (hs : Sound cfg s) (hm : Moved cfg s a s')
    (op : Nat) (hev : .putRet op ∈ s'.log) :
    ∃ ctx y t, s'.ctxs[op]? = some ctx ∧ Contacts cfg ctx.srv ctx.key y ∧ .assign op t ∈ s'.log ∧
      Held s' ctx.key t ctx.srv y := by
  have htable := table_of_moved hm
  rcases mem_log_cases hm hev with hold | hnew
  · obtain ⟨ctx, y, t, hc, hcontacts, ht, hheld⟩ := h.ret op hold
    obtain ⟨ctx', hc', hsame⟩ := htable.fwd op ctx hc
    refine ⟨ctx', y, t, hc', ?_, mem_log_of_moved hm ht, ?_⟩
    · rw [hsame.srv, hsame.key]; exact hcontacts
    · rw [hsame.srv, hsame.key]; exact hheld.moved hm
  · generalize he : Event.putRet op = e at hnew
    cases hnew with
    | @putRet i c src buf ctx rep hi hc hpc hr hcont =>
      injection he with he
      obtain ⟨t, ht⟩ := h.second c ctx hc hcont
      obtain ⟨ctx₁, hc₁, hresp⟩ := hs.inv.net _ (List.mem_of_getElem? hi)
      rw [hc, Option.some.injEq] at hc₁
      subst hc₁
      have hreplica := h.held c src buf ctx (List.mem_of_getElem? hi) hc hcont t ht
      have hf := (hs.inv.ctx c ctx hc).form
      rw [hcont] at hf
      obtain ⟨ctx₀, hc₀, -, hsrv, hthread, hkey⟩ := hf
      -- the put's thread is back in its event loop, so its own entry is stored
      have hown : t ≤ (s.kv ctx.srv).clockOf ctx.key := by
        rcases hs.puts.settled ctx.op t ctx₀ ht hc₀ with hle | hin
        · rw [hsrv, hkey] at hle
          exact hle
        · rw [hsrv, hthread, hpc] at hin
          simp at hin
      obtain ⟨ctx', hc', hsame⟩ := htable.fwd ctx.op ctx₀ hc₀
      have hheld : Held s ctx.key t ctx.srv src := ⟨hown, hreplica⟩
      refine ⟨ctx', src, t, he ▸ hc', ?_, he ▸ mem_log_of_moved hm ht, ?_⟩
      · rw [hsame.srv, hsame.key, hsrv, hkey]; exact hresp.contacts
      · rw [hsame.srv, hsame.key, hsrv, hkey]; exact hheld.moved hm
    | _ => exact absurd he (by simp)

theorem acks_of_run {ok : State Srv → Action Srv → Bool} (hr : Run cfg ok (State.init Srv) s) :
    Acks cfg s := by
  refine invariant_of_run (fun s s' a hs hs' _ hm h => ?_) hr .init ⟨?_, ?_, ?_⟩
  · exact ⟨h.step_second hs hm, h.step_held hs hs' hm, h.step_ret hs hm⟩
  · intro c ctx hc
    exact absurd hc (by simp [State.init])
  · intro c src buf ctx hp
    exact absurd hp (by simp [State.init])
  · intro op hev
    exact absurd hev (by simp [State.init])

/-! ## 3. Runs -/

/-- **Completed writes are seen.**  After a put on `k` has completed with clock `t`, every get on
`k` that starts later selects a clock of at least `t`, and every put on `k` that starts later
chooses a greater one. -/
theorem regularity_of_run (hg : GroupOfThree cfg k g) {s₁ s₂ : State Srv}
    (hr₁ : Run cfg noWrap (State.init Srv) s₁)
    (hr₂ : Run cfg noWrap s₁ s₂) {op : Nat} {x : Srv} {v : List UInt8}
    {t : Lamport} (hput : .invokePut op x k v ∈ s₁.log) (ht : .assign op t ∈ s₁.log)
    (hret : .putRet op ∈ s₁.log) :
    (∀ op' z t', .invokeGet op' z k ∉ s₁.log → .invokeGet op' z k ∈ s₂.log →
      .select op' t' ∈ s₂.log → t ≤ t') ∧
    (∀ op' z v' t', (∀ v, .invokePut op' z k v ∉ s₁.log) → .invokePut op' z k v' ∈ s₂.log →
      .assign op' t' ∈ s₂.log → t < t') := by
  have hs₁ := sound_of_run hr₁
  obtain ⟨ctx, y, t₀, hc, hcontacts, ht₀, hheld⟩ := (acks_of_run hr₁).ret op hret
  obtain ⟨ctx₀, hc₀, -, -, hk⟩ := hs₁.calls.put op x k v hput
  rw [hc, Option.some.injEq] at hc₀
  subst hc₀
  rw [hk] at hcontacts hheld
  rw [hs₁.puts.unique op t₀ t ht₀ ht] at hheld
  obtain ⟨hxg, hyg, hxy⟩ := hg.of_contacts hcontacts
  have hseen := seen_of_held hg hxg hyg hxy hs₁ hheld (fun _ _ h => h) hr₂
  constructor
  · intro op' z t' hnew hget hsel
    obtain ⟨ctx', hc', hn, hk'⟩ := place_of_invokeGet hs₁ hr₂ hnew hget
    exact hseen.select op' t' ctx' hsel hc' hn hk'
  · intro op' z v' t' hnew hput' ht'
    obtain ⟨ctx', hc', hn, hk'⟩ := place_of_invokePut hs₁ hr₂ hnew hput'
    exact hseen.assign op' t' ctx' ht' hc' hn hk'

/-- A put at the first server, completed. -/
def putDone : List (Action Trio) :=
  [.put .first 0 trioKey trioValue, .request 0, .response 1, .advance .first 0, .advance .first 0, .advance .first 0,
    .advance .first 0, .request 1, .response 2]

/-- A get at the third server that asks the first, and a put at the second that asks the third. -/
def getAndPut : List (Action Trio) :=
  [.get .third 0 trioKey [], .request 2, .response 3, .advance .third 0, .advance .third 0, .put .second 0 trioKey [7],
    .request 5, .response 6, .advance .second 0, .advance .second 0]

theorem regularity_of_run_trio :
    ∃ s₁ s₂, Run trio noWrap (State.init _) s₁ ∧ Run trio noWrap s₁ s₂ ∧
      .invokePut 0 .first trioKey trioValue ∈ s₁.log ∧ .assign 0 ⟨1, 1⟩ ∈ s₁.log ∧
      .putRet 0 ∈ s₁.log ∧
      (.invokeGet 2 .third trioKey ∈ s₂.log ∧ .select 2 ⟨1, 1⟩ ∈ s₂.log ∧
        (⟨1, 1⟩ : Lamport) ≤ ⟨1, 1⟩) ∧
      .invokePut 4 .second trioKey [7] ∈ s₂.log ∧ .assign 4 ⟨2, 2⟩ ∈ s₂.log ∧
      (⟨1, 1⟩ : Lamport) < ⟨2, 2⟩ := by
  have hr₁ := run_trioAfter noWrap putDone (by decide +kernel)
  have hr₂ := run_trioAfter_append noWrap putDone getAndPut (by decide +kernel)
  have hput : Event.invokePut 0 .first trioKey trioValue ∈ (trioAfter noWrap putDone).log := by
    decide +kernel
  have ht : Event.assign 0 ⟨1, 1⟩ ∈ (trioAfter noWrap putDone).log := by decide +kernel
  have hret : Event.putRet 0 ∈ (trioAfter noWrap putDone).log := by decide +kernel
  have h := regularity_of_run groupOfThree_trio hr₁ hr₂ hput ht hret
  have hnew : ∀ e ∈ (trioAfter noWrap putDone).log, ∀ v, e ≠ Event.invokePut 4 .second trioKey v := by
    have hlog : (trioAfter noWrap putDone).log
        = [.invokePut 0 .first trioKey trioValue, .assign 0 ⟨1, 1⟩, .putRet 0] := by decide +kernel
    rw [hlog]
    simp
  have hget : Event.invokeGet 2 .third trioKey ∈ (trioAfter noWrap (putDone ++ getAndPut)).log := by
    decide +kernel
  have hsel : Event.select 2 ⟨1, 1⟩ ∈ (trioAfter noWrap (putDone ++ getAndPut)).log := by
    decide +kernel
  have hput' : Event.invokePut 4 .second trioKey [7] ∈
      (trioAfter noWrap (putDone ++ getAndPut)).log := by decide +kernel
  have ht' : Event.assign 4 ⟨2, 2⟩ ∈ (trioAfter noWrap (putDone ++ getAndPut)).log := by
    decide +kernel
  exact ⟨_, _, hr₁, hr₂, hput, ht, hret,
    ⟨hget, hsel, h.1 2 .third ⟨1, 1⟩ (by decide +kernel) hget hsel⟩, hput', ht',
    h.2 4 .second [7] ⟨2, 2⟩ (fun v hv => hnew _ hv v rfl) hput' ht'⟩

end Avocado
