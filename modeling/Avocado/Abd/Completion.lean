/-
# Every operation completes exactly once

`benchmark_put` and `benchmark_get` increment `current_traces`; `put_ret`, `get_ret` and `skip_ret`
are each called right after a decrement.  `CompletesOnce` says that an operation is ended at most
once, that it has been ended when its responses have arrived, and that the counter shows how many
operations of the thread have not been ended yet.

Two invariants carry it.  `Conserved` (in the module before this one) says where an operation is.
`Books` says what a step writes down: the operations that it opens and ends belong to one thread,
and the counter of this thread moves with them.
-/
import Avocado.Abd.Progress
import Avocado.Abd.Group
import Avocado.Lib.Ledger

namespace Avocado

open Lookup

variable {Srv : Type} {cfg : Cfg Srv} {s s' : State Srv}

/-! ## 1. The books -/

/-- Thread `th` of server `x` issued the operation. -/
def State.owns [DecidableEq Srv] (s : State Srv) (x : Srv) (th op : Nat) : Bool :=
  match s.ctxs[op]? with
  | some ctx => decide (ctx.srv = x ∧ ctx.thread = th)
  | none => false

variable [DecidableEq Srv]

theorem owns_of_getElem? {op : Nat} {ctx : Ctx Srv} (hc : s.ctxs[op]? = some ctx) :
    s.owns ctx.srv ctx.thread op = true := by
  simp [State.owns, hc]

theorem owns_eq_true {x : Srv} {th op : Nat} : s.owns x th op = true ↔
    ∃ ctx, s.ctxs[op]? = some ctx ∧ ctx.srv = x ∧ ctx.thread = th := by
  unfold State.owns
  cases s.ctxs[op]? <;> simp

theorem owner_unique {x y : Srv} {th t op : Nat} (h : s.owns y t op = true)
    (h' : s.owns x th op = true) : y = x ∧ t = th := by
  obtain ⟨ctx, hc, rfl, rfl⟩ := owns_eq_true.mp h
  obtain ⟨ctx', hc', rfl, rfl⟩ := owns_eq_true.mp h'
  rw [hc, Option.some.injEq] at hc'
  rw [hc']
  exact ⟨rfl, rfl⟩

theorem owns_of_table (ht : Table s s') {op : Nat} {ctx : Ctx Srv} (hc : s.ctxs[op]? = some ctx)
    (x : Srv) (th : Nat) : s'.owns x th op = s.owns x th op := by
  obtain ⟨ctx', hc', hsame⟩ := ht.fwd op ctx hc
  simp only [State.owns, hc, hc', hsame.srv, hsame.thread]

/-- What a step writes down for thread `th` of server `x`: the operations it opens and ends, and
what that does to `current_traces`. -/
structure Books (s s' : State Srv) (x : Srv) (th : Nat) (opened ended : List Nat) : Prop where
  issued : s'.issued = s.issued ++ opened
  completed : s'.completed = s.completed ++ ended
  traces : s'.traces x th + BitVec.ofNat 64 ended.length
    = s.traces x th + BitVec.ofNat 64 opened.length
  other : ∀ y t, ¬ (y = x ∧ t = th) → s'.traces y t = s.traces y t

omit [DecidableEq Srv] in
theorem Books.trans {t : State Srv} {x : Srv} {th : Nat} {o o' e e' : List Nat}
    (h : Books s s' x th o e) (h' : Books s' t x th o' e') : Books s t x th (o ++ o') (e ++ e') where
  issued := by rw [h'.issued, h.issued, List.append_assoc]
  completed := by rw [h'.completed, h.completed, List.append_assoc]
  traces := by
    have h1 := h.traces
    have h2 := h'.traces
    rw [List.length_append, List.length_append, BitVec.ofNat_add, BitVec.ofNat_add]
    grind
  other y u hne := (h'.other y u hne).trans (h.other y u hne)

omit [DecidableEq Srv] in
/-- The history and the counters stay. -/
theorem Books.same (x : Srv) (th : Nat) (hlog : s'.log = s.log) (ht : s'.traces = s.traces) :
    Books s s' x th [] [] where
  issued := by rw [State.issued, hlog, List.append_nil]; rfl
  completed := by rw [State.completed, hlog, List.append_nil]; rfl
  traces := by rw [ht]
  other _ _ _ := by rw [ht]

omit [DecidableEq Srv] in
/-- An event that neither opens nor ends an operation. -/
theorem Books.note (x : Srv) (th : Nat) {e : Event Srv} (ho : e.opens = none) (he : e.ends = none) :
    Books s (s.note e) x th [] [] where
  issued := by simp [State.issued, ho]
  completed := by simp [State.completed, he]
  traces := rfl
  other _ _ _ := rfl

/-- `increment_traces` and the call it belongs to. -/
theorem Books.call (x : Srv) (th op : Nat) {e : Event Srv} (ho : e.opens = some op)
    (he : e.ends = none) :
    Books s ((s.addTraces x th 1).note e) x th [op] [] where
  issued := by simp [State.issued, ho]
  completed := by simp [State.completed, he]
  traces := by simp [State.note, State.addTraces]
  other y t hne := by simp [State.note, State.addTraces, hne]

/-- `decrement_traces` and the end it belongs to. -/
theorem Books.finish (x : Srv) (th op : Nat) {e : Event Srv} (ho : e.opens = none)
    (he : e.ends = some op) :
    Books s ((s.addTraces x th (-1)).note e) x th [] [op] where
  issued := by simp [State.issued, ho]
  completed := by simp [State.completed, he]
  traces := by
    have hone : (-1 : BitVec 64) + BitVec.ofNat 64 [op].length = 0 := by
      rw [List.length_singleton]
      decide
    have hself : ((s.addTraces x th (-1)).note e).traces x th = s.traces x th + -1 :=
      if_pos ⟨rfl, rfl⟩
    rw [hself, BitVec.add_assoc, hone, List.length_nil]
    rfl
  other y t hne := if_neg hne

/-- Sending ends the operation or does not. -/
theorem books_of_send {ctx : Ctx Srv} {type : ReqType} {msg : Msg}
    (h : s.send cfg ctx type msg = some s') :
    ∃ ended, Books s s' ctx.srv ctx.thread [] ended ∧ ∀ op ∈ ended, op = ctx.op := by
  rcases send_cases h with ⟨reps, wire, -, -, rfl⟩ | ⟨-, rfl⟩
  · exact ⟨[], .same _ _ rfl rfl, by simp⟩
  · have hopen : Books s { s with ctxs := s.ctxs ++ [ctx] } ctx.srv ctx.thread [] [] :=
      .same _ _ rfl rfl
    exact ⟨[ctx.op], hopen.trans (.finish _ _ ctx.op rfl rfl), by simp⟩

/-- A call opens the operation that its context is named by, and its thread owns it. -/
theorem books_of_call {ctx : Ctx Srv} {type : ReqType} {msg : Msg} {e : Event Srv}
    (ho : e.opens = some s.ctxs.length) (he : e.ends = none) (hop : ctx.op = s.ctxs.length)
    (hs : ((s.addTraces ctx.srv ctx.thread 1).note e).send cfg ctx type msg = some s') :
    ∃ ended, Books s s' ctx.srv ctx.thread [s.ctxs.length] ended ∧
      ∀ op ∈ [s.ctxs.length] ++ ended, s'.owns ctx.srv ctx.thread op = true := by
  obtain ⟨n, hn⟩ := (sent_of_send hs).ctxs
  obtain ⟨ended, hsent, hall⟩ := books_of_send hs
  refine ⟨ended, (Books.call _ _ s.ctxs.length ho he).trans hsent, fun op hmem => ?_⟩
  have hnew : op = s.ctxs.length := by
    rcases List.mem_append.mp hmem with hmem | hmem
    · exact List.mem_singleton.mp hmem
    · exact (hall op hmem).trans hop
  have hget : s'.ctxs[s.ctxs.length]? =
      some { ctx with rep := { ctx.rep with nMsgs := n } } := by
    rw [hn]
    exact List.getElem?_concat_length
  have hown := owns_of_getElem? hget
  rw [hnew]
  exact hown

/-- **What a step writes down**: for one thread, which owns the operations it opens and ends. -/
theorem books_of_moved {a : Action Srv} (hinv : Inv cfg anyLow s) (hm : Moved cfg s a s') :
    ∃ x th opened ended, Books s s' x th opened ended ∧
      (opened = [] ∨ opened = [s.ctxs.length]) ∧
      ∀ op ∈ opened ++ ended, s'.owns x th op = true := by
  have ht := table_of_moved hm
  have hmine : ∀ {x : Srv} {th op : Nat} {ctx : Ctx Srv}, s.ctxs[op]? = some ctx → ctx.srv = x →
      ctx.thread = th → s'.owns x th op = true := by
    rintro x th op ctx hc rfl rfl
    rw [owns_of_table ht hc]
    exact owns_of_getElem? hc
  cases hm with
  | @put x th key value msg _ hpc hmsg hs =>
    obtain ⟨ended, hb, hown⟩ := books_of_call rfl rfl rfl hs
    exact ⟨x, th, _, ended, hb, Or.inr rfl, hown⟩
  | @get x th key value msg _ hpc hmsg hs =>
    obtain ⟨ended, hb, hown⟩ := books_of_call rfl rfl rfl hs
    exact ⟨x, th, _, ended, hb, Or.inr rfl, hown⟩
  | @request i c dst type buf kv answer hi hh =>
    exact ⟨dst, 0, [], [], .same _ _ rfl rfl, Or.inl rfl, by simp⟩
  | @absorb i c src buf ctx rep run hi hc hpc hr hrun =>
    exact ⟨ctx.srv, ctx.thread, [], [], .same _ _ rfl rfl, Or.inl rfl, by simp⟩
  | @enter i c src buf ctx rep pc hi hc hpc hr hcont =>
    exact ⟨ctx.srv, ctx.thread, [], [], .same _ _ rfl rfl, Or.inl rfl, by simp⟩
  | @acked i c src buf ctx rep hi hc hpc hr hcont =>
    have hcached : Books s
        { s with net := s.net.eraseIdx i, ctxs := s.ctxs.set c { ctx with rep := rep } }
        ctx.srv ctx.thread [] [] := .same _ _ rfl rfl
    refine ⟨ctx.srv, ctx.thread, _, _, hcached.trans (.finish _ _ ctx.op rfl rfl), Or.inl rfl, ?_⟩
    intro op hop
    rw [List.mem_singleton.mp hop]
    have hform := (hinv.ctx c ctx hc).form
    rw [hcont] at hform
    obtain ⟨ctx₀, hc₀, -, hx, hth, -⟩ := hform
    exact hmine hc₀ hx hth
  | @kvGet x th c ctx node pc hpc hc hd =>
    exact ⟨x, th, [], [], .same _ _ rfl rfl, Or.inl rfl, by simp⟩
  | @choose x th c loc ctx max hpc hc hm =>
    have hturn : Books s (s.setPc x th (.getTimeChosen c ⟨max + 1, cfg.mId x⟩)) x th [] [] :=
      .same _ _ rfl rfl
    exact ⟨x, th, _, _, hturn.trans (.note x th rfl rfl), Or.inl rfl, by simp⟩
  | @send x th c clock ctx node msg s₁ hpc hc hd hmsg hs =>
    obtain ⟨hx, hth, -, -, hop, -⟩ := hinv.getTime_ctx (by rw [hpc]; rfl) hc
    obtain ⟨ended, hsent, hall⟩ := books_of_send hs
    refine ⟨x, th, _, _, hsent.trans (.same x th rfl rfl), Or.inl rfl, fun op hmem => ?_⟩
    have hended : op = c := by
      rw [List.append_nil, List.append_nil, List.nil_append] at hmem
      exact (hall op hmem).trans hop
    rw [hended]
    exact hmine hc hx hth
  | @store x th c clock ctx node hpc hc hd =>
    exact ⟨x, th, [], [], .same _ _ rfl rfl, Or.inl rfl, by simp⟩
  | @report x th c loc ctx node st s₁ hpc hc hd hst hs =>
    obtain ⟨hx, hth, -, hop, -⟩ := hinv.retValue_ctx (by rw [hpc]; rfl) hc
    obtain ⟨ended, hback, hall⟩ : ∃ ended, Books s s₁ x th [] ended ∧ ∀ op ∈ ended, op = ctx.op := by
      rcases hs with rfl | ⟨msg, v, -, -, -, hs⟩
      · exact ⟨[], .same _ _ rfl rfl, by simp⟩
      · exact books_of_send hs
    have hnoted := hback.trans (.note (e := .select ctx.op st.max.1) x th rfl rfl)
    have hended := hnoted.trans (.finish (e := .getRet ctx.op st.max.2) x th ctx.op rfl rfl)
    refine ⟨x, th, _, _, hended.trans (.same x th rfl rfl), Or.inl rfl, fun op hmem => ?_⟩
    have hthis : op = c := by
      simp only [List.append_nil, List.nil_append, List.mem_append, List.mem_singleton] at hmem
      exact (hmem.elim (hall op) id).trans hop
    rw [hthis]
    exact hmine hc hx hth

/-! ## 2. The counter -/

/-- The operations a thread has issued. -/
def State.issuedBy (s : State Srv) (x : Srv) (th : Nat) : List Nat := s.issued.filter (s.owns x th)

/-- The operations of a thread that have ended. -/
def State.completedBy (s : State Srv) (x : Srv) (th : Nat) : List Nat :=
  s.completed.filter (s.owns x th)

/-- The operations of a thread that have not ended. -/
def State.outstanding (s : State Srv) (x : Srv) (th : Nat) : List Nat :=
  Ledger.outstanding (s.issuedBy x th) (s.completedBy x th)

/-- What holds of the places and the books in every state a run reaches. -/
structure Accounts (cfg : Cfg Srv) (s : State Srv) : Prop where
  inv : Inv cfg anyLow s
  intact : Intact s
  counted : Counted cfg s.ctxs s.net
  conserved : Conserved s
  /-- An operation is named by its first context. -/
  known : ∀ op ∈ s.issued, ∃ ctx, s.ctxs[op]? = some ctx
  nodup : s.issued.Nodup
  traces : ∀ x th, s.traces x th + BitVec.ofNat 64 (s.completedBy x th).length
    = BitVec.ofNat 64 (s.issuedBy x th).length

omit [DecidableEq Srv] in
/-- Only an issued operation ends. -/
theorem Conserved.completed_subset (h : Conserved s) : s.completed ⊆ s.issued := by
  intro op hop
  have hpos := List.count_pos_iff.mpr hop
  have hcount := h op
  exact List.count_pos_iff.mp (by omega)

omit [DecidableEq Srv] in
/-- An operation ends at most once. -/
theorem Conserved.completed_nodup (h : Conserved s) (hnd : s.issued.Nodup) : s.completed.Nodup := by
  rw [List.nodup_iff_count_le_one] at hnd ⊢
  intro op
  have hone := hnd op
  have hcount := h op
  omega

/-- The operations of a thread that are in a list, after a step. -/
theorem filter_owns {l new : List Nat} {x y : Srv} {th t : Nat} (ht : Table s s')
    (hl : ∀ op ∈ l, ∃ ctx, s.ctxs[op]? = some ctx) (hnew : ∀ op ∈ new, s'.owns x th op = true) :
    (l ++ new).filter (s'.owns y t)
      = l.filter (s.owns y t) ++ (if y = x ∧ t = th then new else []) := by
  have hold : l.filter (s'.owns y t) = l.filter (s.owns y t) := by
    refine List.filter_congr fun op hop => ?_
    obtain ⟨ctx, hc⟩ := hl op hop
    exact owns_of_table ht hc y t
  rw [List.filter_append, hold]
  congr 1
  by_cases hy : y = x ∧ t = th
  · rw [if_pos hy, hy.1, hy.2]
    exact List.filter_eq_self.mpr hnew
  · rw [if_neg hy, List.filter_eq_nil_iff]
    intro op hop hmine
    exact hy (owner_unique hmine (hnew op hop))

theorem Accounts.step {a : Action Srv} (h : Accounts cfg s) (hm : Moved cfg s a s') :
    Accounts cfg s' := by
  have ht := table_of_moved hm
  have hinv' : Inv cfg anyLow s' := h.inv.step (fun _ _ _ => trivial) hm
  obtain ⟨x, th, opened, ended, hb, hfresh, hown⟩ := books_of_moved h.inv hm
  have hopened : ∀ op ∈ opened, s'.owns x th op = true :=
    fun op hop => hown op (List.mem_append_left _ hop)
  have hended : ∀ op ∈ ended, s'.owns x th op = true :=
    fun op hop => hown op (List.mem_append_right _ hop)
  refine ⟨hinv', h.intact.step h.inv hm, h.counted.step (touches_of_moved hm),
    h.conserved.step h.inv h.counted hm, ?_, ?_, ?_⟩
  · intro op hop
    rw [hb.issued] at hop
    rcases List.mem_append.mp hop with hop | hop
    · obtain ⟨ctx, hc⟩ := h.known op hop
      obtain ⟨ctx', hc', -⟩ := ht.fwd op ctx hc
      exact ⟨ctx', hc'⟩
    · obtain ⟨ctx, hc, -⟩ := owns_eq_true.mp (hopened op hop)
      exact ⟨ctx, hc⟩
  · rw [hb.issued]
    rcases hfresh with rfl | rfl
    · rw [List.append_nil]
      exact h.nodup
    · refine List.nodup_append.mpr ⟨h.nodup, List.nodup_singleton _, ?_⟩
      intro op hop op' hop' heq
      obtain ⟨ctx, hc⟩ := h.known op hop
      rw [heq, List.mem_singleton.mp hop', List.getElem?_eq_none (Nat.le_refl _)] at hc
      exact absurd hc (by simp)
  · intro y t
    have hclosed : ∀ op ∈ s.completed, ∃ ctx, s.ctxs[op]? = some ctx :=
      fun op hop => h.known op (h.conserved.completed_subset hop)
    rw [State.completedBy, State.issuedBy, hb.completed, hb.issued, filter_owns ht hclosed hended,
      filter_owns ht h.known hopened]
    have hold := h.traces y t
    rw [State.completedBy, State.issuedBy] at hold
    by_cases hy : y = x ∧ t = th
    · obtain ⟨rfl, rfl⟩ := hy
      have hmoved := hb.traces
      rw [if_pos ⟨rfl, rfl⟩, if_pos ⟨rfl, rfl⟩, List.length_append, List.length_append,
        BitVec.ofNat_add, BitVec.ofNat_add, ← hold]
      grind
    · rw [if_neg hy, if_neg hy, List.append_nil, List.append_nil, hb.other y t hy]
      exact hold

omit [DecidableEq Srv] in
theorem Accounts.init [DecidableEq Srv] : Accounts cfg (State.init Srv) where
  inv := .init
  intact := .init
  counted := .init
  conserved op := rfl
  known op hop := absurd hop (by simp [State.issued, State.init])
  nodup := List.nodup_nil
  traces x th := rfl

theorem accounts_of_run {ok : State Srv → Action Srv → Bool} (h : Run cfg ok (State.init Srv) s) :
    Accounts cfg s := by
  refine Run.invariant (fun x y hx hr => ?_) h .init
  obtain ⟨a, ha⟩ := hr
  exact hx.step (step_cases (Run.guard_eq_some.mp ha).2)

/-! ## 3. Arrived responses -/

/-- All the responses that `op` goes on with have arrived, and its thread has dealt with them. -/
def Arrived (s : State Srv) (op : Nat) : Prop :=
  ∀ (c : Nat) (ctx : Ctx Srv), s.ctxs[c]? = some ctx → ctx.op = op → ctx.cont ≠ .retGetPutUpdate →
    ctx.rep.nResp = ctx.rep.nMsgs ∧ ∀ cont, (s.pc ctx.srv ctx.thread).inside ≠ some (c, cont)

omit [DecidableEq Srv] in
theorem waiting_of_arrived {op : Nat} (h : Counted cfg s.ctxs s.net) (ha : Arrived s op) :
    s.waiting op = 0 := by
  rw [State.waiting, List.countP_eq_zero]
  intro ctx hctx hw
  obtain ⟨c, hc, hget⟩ := List.mem_iff_getElem.mp hctx
  have hctx : s.ctxs[c]? = some ctx := List.getElem?_eq_some_iff.mpr ⟨hc, hget⟩
  simp only [Ctx.waits, Bool.and_eq_true, beq_iff_eq, bne_iff_ne, Bool.not_eq_true'] at hw
  obtain ⟨⟨⟨hop, hcont⟩, hdone⟩, hn⟩ := hw
  obtain ⟨hall, -⟩ := ha c ctx hctx hop hcont
  have hlt := (h.ctx c ctx hctx).threshold hdone
  omega

omit [DecidableEq Srv] in
/-- A thread works inside the context that its operation is named by. -/
theorem Inv.named_of_works {x : Srv} {th op : Nat} {ctx : Ctx Srv} (h : Inv cfg anyLow s)
    (hw : (s.pc x th).works = some op) (hc : s.ctxs[op]? = some ctx) :
    ctx.op = op ∧ ctx.cont ≠ .retGetPutUpdate := by
  obtain ⟨cont, hin⟩ := Pc.inside_of_works hw
  have hcont : cont = .getTime ∨ cont = .retValue := by
    cases hp : s.pc x th with
    | getTime | getTimeGot | getTimeChosen | getTimeSent =>
      rw [hp, Pc.inside, Option.some.injEq, Prod.mk.injEq] at hin
      exact Or.inl hin.2.symm
    | retValue | retValueGot =>
      rw [hp, Pc.inside, Option.some.injEq, Prod.mk.injEq] at hin
      exact Or.inr hin.2.symm
    | idle => rw [hp] at hw; exact absurd hw (by simp [Pc.works])
  rcases hcont with rfl | rfl
  · obtain ⟨-, -, hcont, -, hop, -⟩ := h.getTime_ctx hin hc
    exact ⟨hop, by simp [hcont]⟩
  · obtain ⟨-, -, hcont, hop, -⟩ := h.retValue_ctx hin hc
    exact ⟨hop, by simp [hcont]⟩

omit [DecidableEq Srv] in
theorem running_of_arrived {op : Nat} (h : Inv cfg anyLow s) (ha : Arrived s op) :
    s.running op = 0 := by
  unfold State.running
  split
  · rename_i ctx hc
    refine if_neg fun hw => ?_
    obtain ⟨hop, hcont⟩ := h.named_of_works hw hc
    obtain ⟨cont, hin⟩ := Pc.inside_of_works hw
    exact (ha op ctx hc hop hcont).2 cont hin
  · rfl

/-! ## 4. Runs -/

/-- Nothing is stuck: a continuation can be taken on, a request can be handled, and a response can be
dealt with as soon as its thread is in its event loop. -/
structure Live (cfg : Cfg Srv) (s : State Srv) : Prop where
  advance : ∀ x th, s.pc x th ≠ .idle → ∃ s', step cfg s (.advance x th) = some s'
  request : ∀ i c dst type buf, s.net[i]? = some (.request c dst type buf) →
    ∃ s', step cfg s (.request i) = some s'
  response : ∀ i c src buf ctx, s.net[i]? = some (.response c src buf) → s.ctxs[c]? = some ctx →
    s.pc ctx.srv ctx.thread = .idle → ∃ s', step cfg s (.response i) = some s'

/-- Each operation completes exactly once, and `current_traces` counts those that have not. -/
structure CompletesOnce (cfg : Cfg Srv) (s : State Srv) : Prop where
  /-- Every call is an operation of its own, and nothing else is ended. -/
  issued : s.issued.Nodup ∧ s.completed ⊆ s.issued
  /-- `put_ret`, `get_ret` and `skip_ret` are called at most once for it, together. -/
  atMostOnce : ∀ op, s.completed.count op ≤ 1
  /-- They have been called once when its responses have arrived, -/
  arrived : ∀ op ∈ s.issued, Arrived s op → s.completed.count op = 1
  /-- which every response does that has not been counted yet and every request's answer, -/
  inFlight : ∀ (c : Nat) (ctx : Ctx Srv), s.ctxs[c]? = some ctx →
    ctx.rep.nResp + inFlight s.net c = ctx.rep.nMsgs
  /-- and nothing stops. -/
  live : Fits cfg s → Live cfg s
  /-- The counter is the number of the operations that have not ended.  It is a `size_t`; `Rate`
  lets no more than `max_request` of them, a `size_t` as well, be outstanding. -/
  traces : ∀ x th, s.traces x th = BitVec.ofNat 64 (s.outstanding x th).length
  /-- It has not gone below zero, and at zero all have ended. -/
  zero : ∀ x th, (s.outstanding x th).length < 2 ^ 64 →
    (s.traces x th).toNat = (s.outstanding x th).length ∧
      (s.traces x th = 0 ↔ ∀ op ∈ s.issuedBy x th, op ∈ s.completed)

theorem Accounts.traces_eq (h : Accounts cfg s) (x : Srv) (th : Nat) :
    s.traces x th = BitVec.ofNat 64 (s.outstanding x th).length := by
  have hsub : s.completedBy x th ⊆ s.issuedBy x th := by
    intro op hop
    rw [State.completedBy, List.mem_filter] at hop
    exact List.mem_filter.mpr ⟨h.conserved.completed_subset hop.1, hop.2⟩
  exact Ledger.counter_eq (h.nodup.filter _)
    ((h.conserved.completed_nodup h.nodup).filter _) hsub (h.traces x th)

theorem outstanding_eq_nil_iff {x : Srv} {th : Nat} :
    s.outstanding x th = [] ↔ ∀ op ∈ s.issuedBy x th, op ∈ s.completed := by
  rw [State.outstanding, Ledger.outstanding_eq_nil_iff]
  refine forall₂_congr fun op hop => ?_
  rw [State.completedBy, List.mem_filter]
  exact and_iff_left (List.mem_filter.mp hop).2

/-- **Every operation completes exactly once**, in every run. -/
theorem completesOnce_of_run {ok : State Srv → Action Srv → Bool}
    (h : Run cfg ok (State.init Srv) s) : CompletesOnce cfg s := by
  have ha := accounts_of_run h
  have hsub := ha.conserved.completed_subset
  have hended := List.nodup_iff_count_le_one.mp (ha.conserved.completed_nodup ha.nodup)
  refine ⟨⟨ha.nodup, hsub⟩, hended, fun op hop harr => ?_,
    fun c ctx hc => (ha.counted.ctx c ctx hc).flight,
    fun hf => ⟨?_, ?_, ?_⟩, ha.traces_eq, fun x th hlt => ?_⟩
  · have hcons := ha.conserved op
    rw [List.count_eq_one_of_mem ha.nodup hop, waiting_of_arrived ha.counted harr,
      running_of_arrived ha.inv harr] at hcons
    omega
  · exact fun x th hpc => exists_advance hf ha.inv ha.counted ha.intact hpc
  · exact fun i c dst type buf hi => exists_request hf ha.inv hi
  · exact fun i c src buf ctx hi hc hpc => exists_response ha.intact hi hc hpc
  · have htraces := ha.traces_eq x th
    have hnat : (s.traces x th).toNat = (s.outstanding x th).length := by
      rw [htraces, BitVec.toNat_ofNat, Nat.mod_eq_of_lt hlt]
    refine ⟨hnat, ?_⟩
    rw [← outstanding_eq_nil_iff, ← List.length_eq_zero_iff, ← hnat]
    exact BitVec.toNat_eq

/-- The second response to either phase of the put is late, and so are those to the get. -/
def putThenGetLate : List (Action Trio) :=
  [.put .first 0 trioKey trioValue, .request 0, .response 1, .advance .first 0, .advance .first 0,
    .advance .first 0, .advance .first 0, .request 0, .response 2, .request 0, .response 1,
    .request 0, .response 0, .get .first 0 trioKey [], .request 0, .response 1, .advance .first 0,
    .advance .first 0]

theorem completesOnce_of_run_putThenGetLate :
    CompletesOnce trio (trioAfter (fun _ _ => true) putThenGetLate) :=
  completesOnce_of_run (run_trioAfter _ _ (by decide +kernel))

end Avocado
