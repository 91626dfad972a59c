/-
# Reads after reads

A get reports its result in `RetValue`, in the same step that sends its write-back; nothing waits
for the write-back to arrive (`RetGetPutUpdate` is empty), where a put waits for its second phase
(`AckPutTime`).  So a get that has heard of a put still in flight reports the new clock while only
one server holds it, and a later get can hear from two others and report the old one.

`confirmed` says of a step that it does not report before a majority of the key's group holds
everything the get has heard of.  In every run whose steps all satisfy it no later get selects an
older clock (`atomicity_of_run`).
-/
import Avocado.Abd.Regularity

namespace Avocado

variable {Srv : Type} [DecidableEq Srv] {cfg : Cfg Srv} {s s' : State Srv}

/-! ## 1. The condition -/

/-- The clocks that `RetValue` selects from: the local one and the responses'. -/
def candidates (ctx : Ctx Srv) (loc : RetValue) : List Lamport :=
  loc.lamport :: ctx.rep.cache.filterMap fun buf =>
    respClock (KeyAccess.addMetaSize ctx.key.length) buf.text

/-- Those of the servers `ws` that have an entry for `k` as new as all of `clocks`. -/
def State.holders (s : State Srv) (k : List UInt8) (clocks : List Lamport) (ws : List Srv) :
    List Srv :=
  ws.filter fun w => clocks.all fun t => decide (t ≤ (s.kv w).clockOf k)

/-- The step is not the end of a `RetValue` before a majority of the group holds all candidates. -/
def confirmed (cfg : Cfg Srv) (s : State Srv) : Action Srv → Bool
  | .advance x th =>
    match s.pc x th with
    | .retValueGot c loc =>
      match s.ctxs[c]? with
      | some ctx =>
        match cfg.reps x ctx.key with
        | some reps => decide ((x :: reps).length <
            2 * (s.holders ctx.key (candidates ctx loc) (x :: reps)).length)
        | none => true
      | none => true
    | _ => true
  | _ => true

/-! ## 2. What a reported clock leaves behind -/

/-- Two of a majority are different. -/
theorem exists_pair_of_filter {α : Type} {l : List α} {p : α → Bool} (hnd : l.Nodup)
    (h : 2 ≤ (l.filter p).length) :
    ∃ a b, a ∈ l ∧ b ∈ l ∧ b ≠ a ∧ p a = true ∧ p b = true := by
  have hnd' : (l.filter p).Nodup := hnd.filter p
  have hmem : ∀ c ∈ l.filter p, c ∈ l ∧ p c = true := fun c hc => List.mem_filter.mp hc
  match hl : l.filter p with
  | [] => rw [hl] at h; simp at h
  | [a] => rw [hl] at h; simp at h
  | a :: b :: rest =>
    rw [hl] at hnd' hmem
    have ha := hmem a (by simp)
    have hb := hmem b (by simp)
    have hne : b ≠ a := by
      rintro rfl
      simp at hnd'
    exact ⟨a, b, ha.1, hb.1, hne, ha.2, hb.2⟩

/-- **A confirmed get is held by two servers of its group**, whichever candidate it selects. -/
theorem held_of_confirmed {k : List UInt8} {g : Finset Srv} (hg : GroupOfThree cfg k g) {x : Srv}
    {th c : Nat} {loc : RetValue} {ctx : Ctx Srv} (hok : confirmed cfg s (.advance x th) = true)
    (hpc : s.pc x th = .retValueGot c loc) (hc : s.ctxs[c]? = some ctx) (hk : ctx.key = k)
    (hx : x ∈ g) {t : Lamport} (ht : t ∈ candidates ctx loc) :
    ∃ y ∈ g, ∃ z ∈ g, z ≠ y ∧ Held s k t y z := by
  obtain ⟨reps, hreps, hnd, hmem⟩ := hg.member x hx
  simp only [confirmed, hpc, hc, hk, hreps, decide_eq_true_eq] at hok
  have hnd' : (x :: reps).Nodup := by
    rw [List.nodup_cons]
    exact ⟨fun hin => ((hmem x).mp hin).2 rfl, hnd⟩
  have hset : (x :: reps).toFinset = g := by
    ext w
    simp only [List.toFinset_cons, Finset.mem_insert, List.mem_toFinset, hmem w]
    constructor
    · rintro (rfl | ⟨hw, -⟩)
      · exact hx
      · exact hw
    · intro hw
      by_cases hwx : w = x
      · exact Or.inl hwx
      · exact Or.inr ⟨hw, hwx⟩
  have hlen : (x :: reps).length = 3 := by
    rw [← List.toFinset_card_of_nodup hnd', hset, hg.card]
  obtain ⟨y, z, hy, hz, hne, hpy, hpz⟩ := exists_pair_of_filter hnd'
    (p := fun w => (candidates ctx loc).all fun t => decide (t ≤ (s.kv w).clockOf k)) (by
      rw [State.holders, hlen] at hok
      omega)
  rw [List.all_eq_true] at hpy hpz
  refine ⟨y, ?_, z, ?_, hne, ?_, ?_⟩
  · rw [← hset]; exact List.mem_toFinset.mpr hy
  · rw [← hset]; exact List.mem_toFinset.mpr hz
  · simpa using hpy t ht
  · simpa using hpz t ht

omit [DecidableEq Srv] in
/-- What `RetValue` selects is a candidate. -/
theorem mem_candidates {x : Srv} {th c size : Nat} {loc : RetValue} {ctx : Ctx Srv} {node : Node}
    {st : ReadState} (hinv : Inv cfg anyLow s) (hpc : s.pc x th = .retValueGot c loc)
    (hc : s.ctxs[c]? = some ctx) (hd : ctx.rep.data = some node)
    (hst : readResponses ctx.rep size node loc = some st) : st.max.1 ∈ candidates ctx loc := by
  obtain ⟨-, -, hcont, -, hdata, -⟩ := hinv.retValue_ctx (by rw [hpc]; rfl) hc
  rw [hd, Option.some.injEq] at hdata
  subst hdata
  obtain ⟨-, -, hfrom⟩ := readResponses_spec (hinv.value_form hc hcont) hst
  rcases hfrom with hfrom | ⟨buf, hbuf, -, hclock⟩
  · rw [hfrom]
    exact List.mem_cons_self
  · exact List.mem_cons_of_mem _ (List.mem_filterMap.mpr ⟨buf, hbuf, hclock⟩)

/-- Every clock that a get of the group has reported is held by two of its servers. -/
def Reported (k : List UInt8) (g : Finset Srv) (s : State Srv) : Prop :=
  ∀ op t ctx, .select op t ∈ s.log → s.ctxs[op]? = some ctx → ctx.key = k →
    ∃ y ∈ g, ∃ z ∈ g, z ≠ y ∧ Held s k t y z

theorem Reported.step {k : List UInt8} {g : Finset Srv} (hg : GroupOfThree cfg k g) {a : Action Srv}
    (h : Reported k g s) (hs : Sound cfg s) (hok : confirmed cfg s a = true)
    (hm : Moved cfg s a s') : Reported k g s' := by
  intro op t ctx hev hc hk
  have ht := table_of_moved hm
  rcases mem_log_cases hm hev with hold | hnew
  · obtain ⟨ctx₀, hc₀⟩ := hs.calls.select op t hold
    obtain ⟨y, hy, z, hz, hne, hheld⟩ := h op t ctx₀ hold hc₀ ((ht.same hc₀ hc).key ▸ hk)
    exact ⟨y, hy, z, hz, hne, hheld.moved hm⟩
  · obtain ⟨loc, ctx₀, st, rfl, hpc, hc₀, -, hd, hst, rfl, -⟩ := hs.inv.selects hnew
    have hkey : ctx₀.key = k := (ht.same hc₀ hc).key ▸ hk
    have hxg : ctx₀.srv ∈ g := by
      obtain ⟨ctx₁, hc₁, -, -, -, -, hne, -⟩ := hs.inv.pc _ _ op .retValue (by rw [hpc]; rfl)
      rw [hc₀, Option.some.injEq] at hc₁
      subst hc₁
      obtain ⟨buf, hbuf⟩ := List.exists_mem_of_ne_nil _ hne
      obtain ⟨src, hr⟩ := (hs.inv.ctx op ctx₀ hc₀).cache buf hbuf
      have hcontacts := hr.contacts
      rw [hkey] at hcontacts
      exact (hg.of_contacts hcontacts).1
    obtain ⟨y, hy, z, hz, hne, hheld⟩ := held_of_confirmed hg hok hpc hc₀ hkey hxg
      (mem_candidates hs.inv hpc hc₀ hd hst)
    exact ⟨y, hy, z, hz, hne, hheld.moved hm⟩

/-! ## 3. Runs -/

/-- **No new-old inversion**, in every run in which gets report only what a majority holds: after a
get on `k` has reported clock `t`, every get on `k` that starts later selects at least `t`. -/
theorem atomicity_of_run {k : List UInt8} {g : Finset Srv} (hg : GroupOfThree cfg k g)
    {s₁ s₂ : State Srv}
    (hr₁ : Run cfg (fun s a => confirmed cfg s a && noWrap s a) (State.init Srv) s₁)
    (hr₂ : Run cfg (fun s a => confirmed cfg s a && noWrap s a) s₁ s₂) {op : Nat} {x : Srv}
    {t : Lamport} (hget : .invokeGet op x k ∈ s₁.log) (hsel : .select op t ∈ s₁.log)
    {op' : Nat} {z : Srv} {t' : Lamport} (hnew : .invokeGet op' z k ∉ s₁.log)
    (hget' : .invokeGet op' z k ∈ s₂.log) (hsel' : .select op' t' ∈ s₂.log) : t ≤ t' := by
  have hs₁ := sound_of_run hr₁
  have hrep : Reported k g s₁ := by
    refine invariant_of_run (fun s s' a hs _ hok hm h => ?_) hr₁ .init ?_
    · rw [Bool.and_eq_true] at hok
      exact h.step hg hs hok.1 hm
    · intro op t ctx hev
      exact absurd hev (by simp [State.init])
  obtain ⟨ctx, hc, -, -, hk⟩ := hs₁.calls.get op x k hget
  obtain ⟨y, hy, w, hw, hne, hheld⟩ := hrep op t ctx hsel hc hk
  have hseen := seen_of_held hg hy hw hne hs₁ hheld (fun s a hok => by
    rw [Bool.and_eq_true] at hok
    exact hok.2) hr₂
  obtain ⟨ctx', hc', hn, hk'⟩ := place_of_invokeGet hs₁ hr₂ hnew hget'
  exact hseen.select op' t' ctx' hsel' hc' hn hk'

/-- After a completed put, a get at the third server hears from the first server. -/
def putThenRead : List (Action Trio) :=
  putDone ++ [.get .third 0 trioKey [], .request 2, .response 3, .advance .third 0, .advance .third 0]

/-- A get at the second server hears from the third server. -/
def readAgain : List (Action Trio) :=
  [.get .second 0 trioKey [], .request 5, .response 6, .advance .second 0, .advance .second 0]

theorem atomicity_of_run_trio :
    ∃ s₁ s₂, Run trio (fun s a => confirmed trio s a && noWrap s a) (State.init _) s₁ ∧
      Run trio (fun s a => confirmed trio s a && noWrap s a) s₁ s₂ ∧
      .invokeGet 2 .third trioKey ∈ s₁.log ∧ .select 2 ⟨1, 1⟩ ∈ s₁.log ∧
      .invokeGet 4 .second trioKey ∉ s₁.log ∧ .invokeGet 4 .second trioKey ∈ s₂.log ∧
      .select 4 ⟨1, 1⟩ ∈ s₂.log ∧ (⟨1, 1⟩ : Lamport) ≤ ⟨1, 1⟩ := by
  have hr₁ := run_trioAfter (fun s a => confirmed trio s a && noWrap s a) putThenRead
    (by decide +kernel)
  have hr₂ := run_trioAfter_append (fun s a => confirmed trio s a && noWrap s a) putThenRead
    readAgain (by decide +kernel)
  have hget : Event.invokeGet 2 .third trioKey ∈
      (trioAfter (fun s a => confirmed trio s a && noWrap s a) putThenRead).log := by
    decide +kernel
  have hsel : Event.select 2 ⟨1, 1⟩ ∈
      (trioAfter (fun s a => confirmed trio s a && noWrap s a) putThenRead).log := by
    decide +kernel
  have hnew : Event.invokeGet 4 .second trioKey ∉
      (trioAfter (fun s a => confirmed trio s a && noWrap s a) putThenRead).log := by
    decide +kernel
  have hget' : Event.invokeGet 4 .second trioKey ∈
      (trioAfter (fun s a => confirmed trio s a && noWrap s a) (putThenRead ++ readAgain)).log := by
    decide +kernel
  have hsel' : Event.select 4 ⟨1, 1⟩ ∈
      (trioAfter (fun s a => confirmed trio s a && noWrap s a) (putThenRead ++ readAgain)).log := by
    decide +kernel
  exact ⟨_, _, hr₁, hr₂, hget, hsel, hnew, hget', hsel',
    atomicity_of_run groupOfThree_trio hr₁ hr₂ hget hsel hnew hget' hsel'⟩

/-- A put reaches its own server only; a get at the second server hears of it from there and
reports it. -/
def readInFlight : List (Action Trio) :=
  [.put .first 0 trioKey trioValue, .request 0, .response 1, .advance .first 0, .advance .first 0, .advance .first 0,
    .advance .first 0, .get .second 0 trioKey [], .request 4, .response 4, .advance .second 0, .advance .second 0]

/-- A get at the third server hears from the second server, which has not seen the put. -/
def readOld : List (Action Trio) :=
  [.get .third 0 trioKey [], .request 7, .response 7, .advance .third 0, .advance .third 0]

/-- **A later get selects an older clock**: the first get reports the put's clock before anyone but
the writer holds it, and the second selects the least clock. -/
theorem not_atomicity_trio : GroupOfThree trio trioKey Finset.univ ∧
    ∃ s₁ s₂, Run trio noWrap (State.init _) s₁ ∧
      Run trio noWrap s₁ s₂ ∧
      .invokeGet 2 .second trioKey ∈ s₁.log ∧ .select 2 ⟨1, 1⟩ ∈ s₁.log ∧
      (∃ buf, .getRet 2 buf ∈ s₁.log) ∧ .invokeGet 4 .third trioKey ∉ s₁.log ∧
      .invokeGet 4 .third trioKey ∈ s₂.log ∧ .select 4 Lamport.min ∈ s₂.log ∧
      ¬ (⟨1, 1⟩ : Lamport) ≤ Lamport.min := by
  have hr₁ := run_trioAfter noWrap readInFlight (by decide +kernel)
  have hr₂ := run_trioAfter_append noWrap readInFlight readOld (by decide +kernel)
  have hlog : (trioAfter noWrap readInFlight).log
      = [.invokePut 0 .first trioKey trioValue, .assign 0 ⟨1, 1⟩, .invokeGet 2 .second trioKey,
        .select 2 ⟨1, 1⟩, .getRet 2 ⟨16, some (trioKey ++ (⟨1, 1⟩ : Lamport).toBytes
          ++ List.replicate 20 0)⟩] := by decide +kernel
  refine ⟨groupOfThree_trio, _, _, hr₁, hr₂, ?_, ?_, ?_, ?_, by decide +kernel,
    by decide +kernel, by decide⟩
  · rw [hlog]; simp
  · rw [hlog]; simp
  · rw [hlog]; exact ⟨_, List.mem_of_getElem? (i := 4) rfl⟩
  · rw [hlog]; simp

end Avocado
