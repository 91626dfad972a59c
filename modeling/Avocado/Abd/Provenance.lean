/-
# Where stored values come from

Every entry a replica holds should be what ONE put wrote: its key, its value and the clock it
chose.  `Provenance` says so of a state.

A put keeps this: all it sends carries the client's value and its own clock (`Puts.write`).  A get
keeps it as long as it hands on its OWN entry.  When a response carries a newer clock, `RetValue`
copies the response into `tmp` and then takes `tmp.get_key()` for its value, so what it writes back
under the newer clock is the key with the clock behind it, not the value.  `localNewest` says that
this does not happen at a step; in every run whose steps all satisfy it the entries are those of
puts (`provenance_of_run`), and without it they need not be.
-/
import Avocado.Abd.History
import Avocado.Abd.Group

namespace Avocado

variable {Srv : Type} [DecidableEq Srv] {cfg : Cfg Srv} {s s' : State Srv}

/-! ## 1. The property and the condition -/

/-- Every stored entry has the clock and the value of one put on its key. -/
def Provenance (s : State Srv) : Prop :=
  ∀ x k m, (s.kv x).find k = some m → ∃ op, WrittenBy s.log op k m.clock m.data

/-- The step is not the end of a `RetValue` with a response newer than the local entry. -/
def localNewest (s : State Srv) : Action Srv → Bool
  | .advance x th =>
    match s.pc x th with
    | .retValueGot c loc =>
      match s.ctxs[c]? with
      | some ctx => ctx.rep.cache.all fun buf =>
          match respClock (KeyAccess.addMetaSize ctx.key.length) buf.text with
          | some t => decide (t ≤ loc.lamport)
          | none => true
      | none => true
    | _ => true
  | _ => true

omit [DecidableEq Srv] in
theorem le_of_localNewest {x : Srv} {th c : Nat} {loc : RetValue} {ctx : Ctx Srv} {buf : MsgBuffer}
    {t : Lamport} (h : localNewest s (.advance x th) = true) (hpc : s.pc x th = .retValueGot c loc)
    (hc : s.ctxs[c]? = some ctx) (hbuf : buf ∈ ctx.rep.cache)
    (ht : respClock (KeyAccess.addMetaSize ctx.key.length) buf.text = some t) : t ≤ loc.lamport := by
  simp only [localNewest, hpc, hc, List.all_eq_true] at h
  simpa [ht] using h buf hbuf

/-! ## 2. The invariant -/

/-- An answer of a store: nothing, or the entry of a put. -/
def Genuine (log : List (Event Srv)) (k : List UInt8) (r : RetValue) : Prop :=
  r = .absent ∨ ∃ op t v, r = ⟨t, v.length, some v⟩ ∧ WrittenBy log op k t v

/-- Stored entries, local answers and write-backs all come from puts. -/
structure Traced (s : State Srv) : Prop where
  stored : Provenance s
  loc : ∀ x th c r ctx, s.pc x th = .retValueGot c r → s.ctxs[c]? = some ctx →
    Genuine s.log ctx.key r
  writeBack : ∀ c dst type buf ctx, .request c dst type buf ∈ s.net → s.ctxs[c]? = some ctx →
    ctx.cont = .retGetPutUpdate → ∃ (op : Nat) (t : Lamport) (v : List UInt8),
      buf.text.ptr = image (ctx.key ++ t.toBytes) v [] ∧ WrittenBy s.log op ctx.key t v

omit [DecidableEq Srv] in
theorem Provenance.genuine (h : Provenance s) (x : Srv) (k : List UInt8) :
    Genuine s.log k ((s.kv x).get k) := by
  cases hf : (s.kv x).find k with
  | none => exact Or.inl (KVStore.get_of_none hf)
  | some m =>
    obtain ⟨op, hw⟩ := h x k m hf
    exact Or.inr ⟨op, m.clock, m.data, KVStore.get_of_some hf, hw⟩

omit [DecidableEq Srv] in
/-- A `put` of a put's entry keeps the property. -/
theorem Provenance.put {log : List (Event Srv)} {kv : KVStore} {k v : List UInt8} {t : Lamport}
    (h : ∀ k m, kv.find k = some m → ∃ op, WrittenBy log op k m.clock m.data)
    (hw : ∃ op, WrittenBy log op k t v) {k' : List UInt8} {m : MetaData}
    (hf : (kv.put k v t).1.find k' = some m) : ∃ op, WrittenBy log op k' m.clock m.data := by
  rcases KVStore.put_some hf with hold | ⟨rfl, rfl⟩
  · exact h k' m hold
  · exact hw

theorem Traced.step_stored {a : Action Srv} (h : Traced s) (hputs : Puts cfg s)
    (hinv : Inv cfg anyLow s) (hm : Moved cfg s a s') : Provenance s' := by
  intro x k m hf
  have hmono : ∀ {k m}, (∃ op, WrittenBy s.log op k m.clock m.data) →
      ∃ op, WrittenBy s'.log op k (m : MetaData).clock m.data :=
    fun ⟨op, hw⟩ => ⟨op, hw.mono fun e => mem_log_of_moved hm⟩
  rcases hinv.writes hm x with hsame | hwrite
  · exact hmono (h.stored x k m (hsame ▸ hf))
  · cases hwrite with
    | @replica i c dst type buf ctx hi hc hcont hkv =>
      have hmem := List.mem_of_getElem? hi
      rcases hcont with hcont | hcont
      · obtain ⟨t, v, himg, hw⟩ := hputs.write c x type buf ctx hmem hc hcont
        rw [hkv t v himg] at hf
        exact hmono (Provenance.put (h.stored x) ⟨_, hw⟩ hf)
      · obtain ⟨op, t, v, himg, hw⟩ := h.writeBack c x type buf ctx hmem hc hcont
        rw [hkv t v himg] at hf
        exact hmono (Provenance.put (h.stored x) ⟨op, hw⟩ hf)
    | @own _ th c clock ctx v hpc hc hev hkv =>
      rw [hkv] at hf
      exact hmono (Provenance.put (h.stored x)
        ⟨c, ⟨x, hev⟩, hputs.chosen x th c clock (Or.inr hpc)⟩ hf)

theorem Traced.step_loc {a : Action Srv} (h : Traced s) (hinv : Inv cfg anyLow s)
    (hm : Moved cfg s a s') (x : Srv) (th c : Nat) (r : RetValue) (ctx : Ctx Srv)
    (hpc : s'.pc x th = .retValueGot c r) (hc : s'.ctxs[c]? = some ctx) :
    Genuine s'.log ctx.key r := by
  have hmono : ∀ {k}, Genuine s.log k r → Genuine s'.log k r := fun hg =>
    hg.imp id fun ⟨op, t, v, hr, hw⟩ => ⟨op, t, v, hr, hw.mono fun e => mem_log_of_moved hm⟩
  rcases turns_of_moved hm x th with hsame | hturn
  · rw [hsame] at hpc
    obtain ⟨ctx₀, hc₀, -⟩ := hinv.pc x th c .retValue (by rw [hpc]; rfl)
    obtain ⟨ctx', hc', hs⟩ := (table_of_moved hm).fwd c ctx₀ hc₀
    rw [hc, Option.some.injEq] at hc'
    subst hc'
    rw [hs.key]
    exact hmono (h.loc x th c r ctx₀ hpc hc₀)
  · generalize hq : s'.pc x th = q at hturn hpc
    cases hturn with
    | enter hi hc hp hr hcont => rcases hcont with ⟨-, rfl⟩ | ⟨-, rfl⟩ <;> simp at hpc
    | @kvGet _ _ c₀ ctx₀ node _ hp hc₀ hd =>
      have hkey := hinv.node_key (hp.imp (·.1) (·.1)) hc₀ hd
      rcases hp with ⟨-, rfl⟩ | ⟨-, rfl⟩
      · simp at hpc
      · simp only [Pc.retValueGot.injEq] at hpc
        obtain ⟨rfl, rfl⟩ := hpc
        obtain ⟨ctx', hc', hs⟩ := (table_of_moved hm).fwd _ ctx₀ hc₀
        rw [hc, Option.some.injEq] at hc'
        subst hc'
        rw [hs.key, ← hkey]
        exact hmono (h.stored.genuine x node.key)
    | choose => simp at hpc
    | send => simp at hpc
    | store => simp at hpc
    | report => simp at hpc

omit [DecidableEq Srv] in
/-- A `RetValue` whose own entry is the newest hands that entry on. -/
theorem max_of_localNewest {x : Srv} {th c size : Nat} {loc : RetValue} {ctx : Ctx Srv} {node : Node}
    {st : ReadState} (hinv : Inv cfg anyLow s) (hok : localNewest s (.advance x th) = true)
    (hpc : s.pc x th = .retValueGot c loc) (hc : s.ctxs[c]? = some ctx)
    (hd : ctx.rep.data = some node) (hst : readResponses ctx.rep size node loc = some st) :
    st.max = (loc.lamport, loc.toSpan) := by
  obtain ⟨-, -, hcont, -, hdata, -⟩ := hinv.retValue_ctx (by rw [hpc]; rfl) hc
  rw [hd, Option.some.injEq] at hdata
  subst hdata
  obtain ⟨-, -, hfrom⟩ := readResponses_spec (hinv.value_form hc hcont) hst
  rcases hfrom with hfrom | ⟨buf, hbuf, hlt, hclock⟩
  · exact hfrom
  · exact absurd (le_of_localNewest hok hpc hc hbuf hclock) (not_le.mpr hlt)

theorem Traced.step_writeBack {a : Action Srv} (h : Traced s) (hinv : Inv cfg anyLow s)
    (hok : localNewest s a = true) (hm : Moved cfg s a s') (c : Nat) (dst : Srv) (type : ReqType)
    (buf : MsgBuffer) (ctx : Ctx Srv) (hp : .request c dst type buf ∈ s'.net)
    (hc : s'.ctxs[c]? = some ctx) (hcont : ctx.cont = .retGetPutUpdate) :
    ∃ (op : Nat) (t : Lamport) (v : List UInt8),
      buf.text.ptr = image (ctx.key ++ t.toBytes) v [] ∧ WrittenBy s'.log op ctx.key t v := by
  rcases posts_of_moved hm hp with hold | hnew
  · obtain ⟨ctx₀, hc₀, -⟩ := hinv.net _ hold
    obtain ⟨ctx', hc', hsame⟩ := (table_of_moved hm).fwd c ctx₀ hc₀
    rw [hc, Option.some.injEq] at hc'
    subst hc'
    obtain ⟨op, t, v, himg, hw⟩ := h.writeBack c dst type buf ctx₀ hold hc₀ (hsame.cont ▸ hcont)
    rw [hsame.key]
    exact ⟨op, t, v, himg, hw.mono fun e => mem_log_of_moved hm⟩
  · generalize hq : Packet.request c dst type buf = p at hnew
    cases hnew with
    | query hctx hq' =>
      injection hq with h1
      rw [← h1, hc, Option.some.injEq] at hctx
      rw [← hctx, hcont] at hq'
      simp at hq'
    | write _ _ _ hctx hcont' =>
      injection hq with h1
      rw [← h1, hc, Option.some.injEq] at hctx
      rw [← hctx, hcont] at hcont'
      simp at hcont'
    | @writeBack x th c₁ loc ctx₁ node size st v d dst ctx' buf hpc hc₁ hd hst hsize hv hctx hcont'
        hkey himg =>
      injection hq with h1 h2 h3 h4
      rw [← h1, hc, Option.some.injEq] at hctx
      subst hctx
      have hmax := max_of_localNewest hinv hok hpc hc₁ hd hst
      obtain ⟨-, -, -, -, hdata, -⟩ := hinv.retValue_ctx (by rw [hpc]; rfl) hc₁
      rw [hd, Option.some.injEq] at hdata
      rw [hmax] at hsize hv himg
      rcases h.loc x th c₁ loc ctx₁ hpc hc₁ with hnone | ⟨op, t, v', hloc, hw⟩
      · rw [hnone] at hsize
        exact absurd hsize (by simp [RetValue.absent, RetValue.toSpan])
      · have hv' : v = v' := by
          have hread : Ptr.read (some v') 0 v'.length = some v' := by
            simpa using Msg.read_key_image (a := v') (b := []) (c := [])
          simpa [hloc, RetValue.toSpan, Span.bytes, hread] using hv.symm
        have hnode : node.key = ctx₁.key := by rw [hdata]
        refine ⟨op, t, v, by rw [h4, himg, hkey, hloc], ?_⟩
        rw [hkey, hnode, hv']
        exact hw.mono fun e => mem_log_of_moved hm
    | answer => exact absurd hq (by simp)

theorem Traced.step {a : Action Srv} (h : Traced s) (hs : Sound cfg s)
    (hok : localNewest s a = true) (hm : Moved cfg s a s') : Traced s' where
  stored := h.step_stored hs.puts hs.inv hm
  loc := h.step_loc hs.inv hm
  writeBack := h.step_writeBack hs.inv hok hm

omit [DecidableEq Srv] in
theorem Traced.init : Traced (State.init Srv) where
  stored x k m h := absurd h (by simp [State.init, KVStore.empty])
  loc x th c r ctx h := absurd h (by simp [State.init])
  writeBack c dst type buf ctx h := absurd h (by simp [State.init])

/-! ## 3. Runs -/

/-- **Stored entries come from puts**, in every run in which no `RetValue` hands on a response. -/
theorem provenance_of_run
    (h : Run cfg localNewest (State.init Srv) s) :
    Provenance s :=
  (invariant_of_run (I := Traced) (fun _ _ _ hs _ hok hm ht => ht.step hs hok hm) h .init
    .init).stored

/-- The put has reached the first server only; it reads the key, hands on its own entry, and the
second server gets the write-back. -/
def putThenGet : List (Action Trio) :=
  [.put .first 0 trioKey trioValue, .request 0, .response 1, .advance .first 0, .advance .first 0, .advance .first 0,
    .advance .first 0, .get .first 0 trioKey [], .request 3, .response 4, .advance .first 0, .advance .first 0,
    .request 4]

theorem provenance_of_run_putThenGet : Provenance (trioAfter localNewest putThenGet) :=
  provenance_of_run (run_trioAfter _ _ (by decide +kernel))

/-- The put reaches the first server only; the second server reads the key, gets the first one's
newer entry, and writes it back. -/
def putThenGetElsewhere : List (Action Trio) :=
  [.put .first 0 trioKey trioValue, .request 0, .response 1, .advance .first 0, .advance .first 0, .advance .first 0,
    .advance .first 0, .get .second 0 trioKey [], .request 4, .response 4, .advance .second 0, .advance .second 0,
    .request 4]

/-- **Without the condition provenance fails.**  The third server ends up with the key and the clock of the
put, but its value is the key with the clock behind it, which no client wrote. -/
theorem not_provenance_trio : GroupOfThree trio trioKey Finset.univ ∧
    ∃ s, Run trio (fun _ _ => true) (State.init _) s ∧
      (s.kv .third).find trioKey = some ⟨⟨1, 1⟩, trioKey ++ (⟨1, 1⟩ : Lamport).toBytes⟩ ∧
      ¬ Provenance s := by
  have hrun := run_trioAfter (fun _ _ => true) putThenGetElsewhere (by decide +kernel)
  have hfind : ((trioAfter (fun _ _ => true) putThenGetElsewhere).kv .third).find trioKey
      = some ⟨⟨1, 1⟩, trioKey ++ (⟨1, 1⟩ : Lamport).toBytes⟩ := by decide +kernel
  have hput : ∀ e ∈ (trioAfter (fun _ _ => true) putThenGetElsewhere).log,
      ∀ op x, e ≠ .invokePut op x trioKey (trioKey ++ (⟨1, 1⟩ : Lamport).toBytes) := by
    have hlog : (trioAfter (fun _ _ => true) putThenGetElsewhere).log
        = [.invokePut 0 .first trioKey trioValue, .assign 0 ⟨1, 1⟩, .invokeGet 2 .second trioKey,
          .select 2 ⟨1, 1⟩, .getRet 2 ⟨16, some (trioKey ++ (⟨1, 1⟩ : Lamport).toBytes
            ++ List.replicate 20 0)⟩] := by decide +kernel
    rw [hlog]
    simp [trioKey, trioValue]
  refine ⟨groupOfThree_trio, _, hrun, hfind, fun h => ?_⟩
  obtain ⟨op, ⟨x, hev⟩, -⟩ := h .third trioKey _ hfind
  exact hput _ hev op x rfl

end Avocado
