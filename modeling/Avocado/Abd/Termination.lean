/-
# Every schedule ends

Calls bring work, and every other step does some of it.  `State.work` prices what is under way: two
steps for a request in flight, one for a response, and for an operation that has not got its
responses the steps of its continuation and the messages of its second phase or write-back.  Every
request handled, response dealt with and step of a continuation lowers it (`work_step`), so the
steps of a run are at most what its calls bring (`steps_le_calls`): with a group of three, 12 for a
put and 10 for a get.  When the calls stop, every schedule ends.
-/
import Avocado.Abd.Completion
import Avocado.Lib.Tally

namespace Avocado

open Lookup

variable {Srv : Type} {cfg : Cfg Srv} {s s' : State Srv}

/-! ## 1. The work -/

/-- `benchmark_put` or `benchmark_get`. -/
def Action.isCall : Action Srv → Bool
  | .put _ _ _ _ | .get _ _ _ _ => true
  | .request _ | .response _ | .advance _ _ => false

/-- What is to be done for a packet: a request is handled and its response dealt with. -/
def Packet.work : Packet Srv → Nat
  | .request _ _ _ _ => 2
  | .response _ _ _ => 1

/-- What a thread has to do before it is back in its event loop, with `n` servers to send to. -/
def Pc.work (n : Nat) : Pc → Nat
  | .idle => 0
  | .getTime _ => 4 + 2 * n
  | .getTimeGot _ _ => 3 + 2 * n
  | .getTimeChosen _ _ => 2 + 2 * n
  | .getTimeSent _ _ => 1
  | .retValue _ => 2 + 2 * n
  | .retValueGot _ _ => 1 + 2 * n

/-- What the continuation of a context will bring. -/
def ContType.work (n : Nat) : ContType → Nat
  | .getTime => 4 + 2 * n
  | .retValue => 2 + 2 * n
  | .ackPutTime | .retGetPutUpdate => 0

/-- What is to be done for a context: its continuation, before it has run or while its thread is in
it. -/
def State.ctxWork (s : State Srv) (c : Nat) : Nat :=
  match s.ctxs[c]? with
  | none => 0
  | some ctx =>
    (if ctx.rep.done then 0 else ctx.cont.work ctx.rep.nMsgs) +
      if (s.pc ctx.srv ctx.thread).inside.map Prod.fst = some c then
        (s.pc ctx.srv ctx.thread).work ctx.rep.nMsgs
      else 0

/-- All that is to be done. -/
def State.work (s : State Srv) : Nat :=
  ∑ c ∈ Finset.range s.ctxs.length, s.ctxWork c + (s.net.map Packet.work).sum

/-- What a call brings. -/
def Action.brings (cfg : Cfg Srv) : Action Srv → Nat
  | .put x _ k _ => 4 + 4 * ((cfg.reps x k).getD []).length
  | .get x _ k _ => 2 + 4 * ((cfg.reps x k).getD []).length
  | .request _ | .response _ | .advance _ _ => 0

/-! ## 2. Frames -/

/-- Work is the same for a context that stays, whose thread is not in it before or after. -/
theorem ctxWork_congr {c : Nat} (hc : s'.ctxs[c]? = s.ctxs[c]?)
    (hpc : ∀ x th, s'.pc x th = s.pc x th ∨ (s.pc x th).inside.map Prod.fst ≠ some c ∧
      (s'.pc x th).inside.map Prod.fst ≠ some c) : s'.ctxWork c = s.ctxWork c := by
  unfold State.ctxWork
  rw [hc]
  cases s.ctxs[c]? with
  | none => rfl
  | some ctx =>
    rcases hpc ctx.srv ctx.thread with heq | ⟨hne, hne'⟩
    · simp only [heq]
    · simp only [if_neg hne, if_neg hne']

theorem sum_ctxWork_congr (hctxs : s'.ctxs = s.ctxs) (hpc : s'.pc = s.pc) :
    ∑ d ∈ Finset.range s'.ctxs.length, s'.ctxWork d
      = ∑ d ∈ Finset.range s.ctxs.length, s.ctxWork d := by
  rw [hctxs]
  exact Finset.sum_congr rfl fun d _ =>
    ctxWork_congr (by rw [hctxs]) fun x th => Or.inl (by rw [hpc])

/-- Two tables of one length that differ in one place. -/
theorem sum_ctxWork_of_place {c : Nat} (hlt : c < s.ctxs.length)
    (hlen : s'.ctxs.length = s.ctxs.length) (h : ∀ d, d ≠ c → s'.ctxWork d = s.ctxWork d) :
    ∑ d ∈ Finset.range s'.ctxs.length, s'.ctxWork d + s.ctxWork c
      = ∑ d ∈ Finset.range s.ctxs.length, s.ctxWork d + s'.ctxWork c := by
  rw [hlen]
  exact Tally.sum_add_of_ne (Finset.mem_range.mpr hlt) fun d _ hne => h d hne

/-! ## 3. Contexts along a step -/

section Places

variable {c : Nat} {ctx : Ctx Srv}

/-- A thread is inside a context of the table. -/
theorem lt_of_inside (hinv : Inv cfg anyLow s) {x : Srv} {th : Nat}
    (hin : (s.pc x th).inside.map Prod.fst = some c) : c < s.ctxs.length := by
  obtain ⟨⟨d, cont⟩, hinside, rfl⟩ := Option.map_eq_some_iff.mp hin
  obtain ⟨ctx, hc, -⟩ := hinv.pc x th d cont hinside
  exact (List.getElem?_eq_some_iff.mp hc).1

/-- The context that a thread is inside has its responses. -/
theorem done_of_inside (hinv : Inv cfg anyLow s) {x : Srv} {th : Nat} {cont : ContType}
    (hin : (s.pc x th).inside = some (c, cont)) (hc : s.ctxs[c]? = some ctx) :
    ctx.rep.done = true := by
  obtain ⟨ctx', hc', -, -, -, hdone, -⟩ := hinv.pc x th c cont hin
  obtain rfl := Option.some.inj (hc.symm.trans hc')
  exact hdone

theorem ctxWork_outside (hc : s.ctxs[c]? = some ctx)
    (hin : (s.pc ctx.srv ctx.thread).inside.map Prod.fst ≠ some c) :
    s.ctxWork c = if ctx.rep.done then 0 else ctx.cont.work ctx.rep.nMsgs := by
  simp only [State.ctxWork, hc, if_neg hin, Nat.add_zero]

theorem ctxWork_inside (hc : s.ctxs[c]? = some ctx) (hd : ctx.rep.done = true)
    (hin : (s.pc ctx.srv ctx.thread).inside.map Prod.fst = some c) :
    s.ctxWork c = (s.pc ctx.srv ctx.thread).work ctx.rep.nMsgs := by
  simp only [State.ctxWork, hc, if_pos hin, hd, if_true, Nat.zero_add]

variable [DecidableEq Srv]

/-- A thread inside a context moves on in it, or leaves it. -/
theorem work_of_turn (hc : s.ctxs[c]? = some ctx) (hd : ctx.rep.done = true) {pc : Pc}
    (hin : (s.pc ctx.srv ctx.thread).inside.map Prod.fst = some c)
    (hpc : pc.inside.map Prod.fst = some c ∨ pc = .idle) (hctxs : s'.ctxs = s.ctxs)
    (hnet : s'.net = s.net) (hpcs : s'.pc = (s.setPc ctx.srv ctx.thread pc).pc) :
    s'.work + (s.pc ctx.srv ctx.thread).work ctx.rep.nMsgs
      = s.work + pc.work ctx.rep.nMsgs := by
  have hself : s'.pc ctx.srv ctx.thread = pc := by rw [hpcs, State.setPc_pc_self]
  have hc' : s'.ctxs[c]? = some ctx := by rw [hctxs, hc]
  have hnew : s'.ctxWork c = pc.work ctx.rep.nMsgs := by
    rcases hpc with hpc | rfl
    · rw [ctxWork_inside hc' hd (by rw [hself, hpc]), hself]
    · rw [ctxWork_outside hc' (by rw [hself]; simp [Pc.inside]), if_pos hd]
      rfl
  have hplace := sum_ctxWork_of_place (List.getElem?_eq_some_iff.mp hc).1
    (congrArg List.length hctxs) fun d hne => ctxWork_congr (by rw [hctxs]) fun y t => ?_
  · rw [hnew, ctxWork_inside hc hd hin] at hplace
    rw [State.work, State.work, hnet]
    omega
  · rw [hpcs]
    by_cases hy : y = ctx.srv ∧ t = ctx.thread
    · obtain ⟨rfl, rfl⟩ := hy
      rw [State.setPc_pc_self, hin]
      refine Or.inr ⟨fun h => hne (Option.some.inj h).symm, ?_⟩
      rcases hpc with hpc | rfl
      · rw [hpc]
        exact fun h => hne (Option.some.inj h).symm
      · simp [Pc.inside]
    · exact Or.inl (State.setPc_pc_of_ne _ _ _ hy)

/-- A new context brings its continuation and its requests. -/
theorem work_of_send {ctx : Ctx Srv} {type : ReqType} {msg : Msg} {reps : List Srv}
    (hs : s.send cfg ctx type msg = some s') (hreps : cfg.reps ctx.srv ctx.key = some reps)
    (hrep : ∃ data, ctx.rep = { data })
    (hfresh : ∀ x th, (s.pc x th).inside.map Prod.fst ≠ some s.ctxs.length) :
    s'.work = s.work + ctx.cont.work reps.length + 2 * reps.length := by
  obtain ⟨data, hrep⟩ := hrep
  -- the old contexts keep their work, the new one has that of its continuation
  have hsum : ∀ {s₁ : State Srv} {n : Nat}, s₁.pc = s.pc →
      s₁.ctxs = s.ctxs ++ [{ ctx with rep := { ctx.rep with nMsgs := n } }] →
      ∑ d ∈ Finset.range s₁.ctxs.length, s₁.ctxWork d
        = ∑ d ∈ Finset.range s.ctxs.length, s.ctxWork d + ctx.cont.work n := by
    intro s₁ n hpc hctxs
    have hlast : s₁.ctxs[s.ctxs.length]?
        = some { ctx with rep := { ctx.rep with nMsgs := n } } := by
      rw [hctxs, List.getElem?_concat_length]
    have hnew : s₁.ctxWork s.ctxs.length = ctx.cont.work n := by
      rw [ctxWork_outside hlast (by rw [hpc]; exact hfresh _ _), hrep]
      rfl
    rw [hctxs, List.length_append, List.length_singleton, Finset.sum_range_succ, hnew]
    congr 1
    refine Finset.sum_congr rfl fun d hd => ctxWork_congr ?_ fun x th => Or.inl (by rw [hpc])
    rw [hctxs, List.getElem?_append_left (Finset.mem_range.mp hd)]
  rcases send_cases hs with ⟨reps', wire, hreps', -, rfl⟩ | ⟨hnil, rfl⟩
  · obtain rfl := Option.some.inj (hreps.symm.trans hreps')
    rw [State.work, hsum (by rfl) (by rfl)]
    have hnet : ∀ l : List Srv,
        ((l.map fun r => Packet.request s.ctxs.length r type ⟨true, wire⟩).map Packet.work).sum
          = 2 * l.length := by
      intro l
      induction l with
      | nil => rfl
      | cons r l ih =>
        simp only [List.map_cons, List.sum_cons, ih, Packet.work, List.length_cons]
        omega
    simp only [List.map_append, List.sum_append, hnet, State.work]
    omega
  · obtain rfl := Option.some.inj (hreps.symm.trans hnil)
    have hzero : ctx.rep = { ctx.rep with nMsgs := 0 } := by rw [hrep]
    have hctxs : s.ctxs ++ [ctx]
        = s.ctxs ++ [{ ctx with rep := { ctx.rep with nMsgs := 0 } }] := by rw [← hzero]
    rw [State.work, hsum (by rfl) hctxs]
    simp only [State.work, State.note_net, State.addTraces_net, List.length_nil]
    omega

theorem work_of_advance (hc : s.ctxs[c]? = some ctx) (hd : ctx.rep.done = true) {pc : Pc}
    (hin : (s.pc ctx.srv ctx.thread).inside.map Prod.fst = some c)
    (hpc : pc.inside.map Prod.fst = some c ∨ pc = .idle)
    (hlt : pc.work ctx.rep.nMsgs + 1 ≤ (s.pc ctx.srv ctx.thread).work ctx.rep.nMsgs)
    (hctxs : s'.ctxs = s.ctxs) (hnet : s'.net = s.net)
    (hpcs : s'.pc = (s.setPc ctx.srv ctx.thread pc).pc) : s'.work + 1 ≤ s.work := by
  have hturn := work_of_turn hc hd hin hpc hctxs hnet hpcs
  omega

omit [DecidableEq Srv] in
/-- A request is handled. -/
theorem work_of_request {i : Nat} {dst : Srv} {type : ReqType} {buf answer : MsgBuffer}
    (hi : s.net[i]? = some (.request c dst type buf)) (hctxs : s'.ctxs = s.ctxs)
    (hnet : s'.net = s.net.eraseIdx i ++ [.response c dst answer]) (hpcs : s'.pc = s.pc) :
    s'.work + 1 ≤ s.work := by
  have herase := Tally.sum_map_eraseIdx Packet.work hi
  simp only [Packet.work] at herase
  rw [State.work, State.work, sum_ctxWork_congr hctxs hpcs, hnet, List.map_append, List.sum_append]
  simp only [List.map_singleton, List.sum_singleton, Packet.work]
  omega

theorem setPc_idle {x : Srv} {th : Nat} (h : s.pc x th = .idle) :
    (s.setPc x th .idle).pc = s.pc := by
  funext y t
  by_cases hy : y = x ∧ t = th
  · obtain ⟨rfl, rfl⟩ := hy
    rw [State.setPc_pc_self, h]
  · exact State.setPc_pc_of_ne _ _ _ hy

/-- A response is dealt with. -/
theorem work_of_response {i : Nat} {src : Srv} {buf : MsgBuffer} {rep : ReplicaContext}
    {run : Bool} {pc : Pc} (hi : s.net[i]? = some (.response c src buf))
    (hc : s.ctxs[c]? = some ctx) (hidle : s.pc ctx.srv ctx.thread = .idle)
    (hr : ctx.rep.reqConts buf = some (rep, run))
    (hctxs : s'.ctxs = s.ctxs.set c { ctx with rep := rep }) (hnet : s'.net = s.net.eraseIdx i)
    (hpcs : s'.pc = (s.setPc ctx.srv ctx.thread pc).pc)
    (hpc : (run = true ∧ pc.inside.map Prod.fst = some c ∧
      pc.work ctx.rep.nMsgs = ctx.cont.work ctx.rep.nMsgs) ∨
      (pc = .idle ∧ (run = true → ctx.cont.work ctx.rep.nMsgs = 0))) : s'.work + 1 ≤ s.work := by
  obtain ⟨-, -, hn, -, hdone, hrun⟩ := reqConts_cases hr
  have hc' : s'.ctxs[c]? = some { ctx with rep := rep } := by
    rw [hctxs, getElem?_set_self_of_some hc]
  have hself : s'.pc ctx.srv ctx.thread = pc := by rw [hpcs, State.setPc_pc_self]
  have hold : s.ctxWork c = if ctx.rep.done then 0 else ctx.cont.work ctx.rep.nMsgs :=
    ctxWork_outside hc (by rw [hidle]; simp [Pc.inside])
  have hle : s'.ctxWork c ≤ s.ctxWork c := by
    rw [hold]
    rcases hpc with ⟨rfl, hin, hwork⟩ | ⟨rfl, hzero⟩
    · rw [ctxWork_inside hc' (by simp [hdone]) (by rw [hself, hin]), hself, if_neg (by
        rw [(hrun rfl).1]
        simp)]
      simp only [hn]
      exact hwork.le
    · rw [ctxWork_outside hc' (by simp only [hself]; simp [Pc.inside])]
      simp only [hdone, hn]
      cases run with
      | false => simp
      | true => simp [hzero rfl]
  have hlen : s'.ctxs.length = s.ctxs.length := by rw [hctxs, List.length_set]
  have hplace := sum_ctxWork_of_place (List.getElem?_eq_some_iff.mp hc).1 hlen
    fun d hne => ctxWork_congr (by rw [hctxs, List.getElem?_set_ne (Ne.symm hne)]) fun y t => ?_
  · have herase := Tally.sum_map_eraseIdx Packet.work hi
    simp only [Packet.work] at herase
    rw [State.work, State.work, hnet]
    omega
  · rw [hpcs]
    by_cases hy : y = ctx.srv ∧ t = ctx.thread
    · obtain ⟨rfl, rfl⟩ := hy
      rw [State.setPc_pc_self, hidle]
      rcases hpc with ⟨-, hin, -⟩ | ⟨rfl, -⟩
      · refine Or.inr ⟨by simp [Pc.inside], ?_⟩
        rw [hin]
        exact fun h => hne (Option.some.inj h).symm
      · exact Or.inl rfl
    · exact Or.inl (State.setPc_pc_of_ne _ _ _ hy)

end Places

/-! ## 4. Steps and runs -/

section Steps

variable [DecidableEq Srv]

/-- **Every step but a call does some of the work.** -/
theorem work_step {a : Action Srv} (hinv : Inv cfg anyLow s) (hcount : Counted cfg s.ctxs s.net)
    (hm : Moved cfg s a s') :
    s'.work + (if a.isCall then 0 else 1) ≤ s.work + a.brings cfg := by
  have hfresh : ∀ x th, (s.pc x th).inside.map Prod.fst ≠ some s.ctxs.length :=
    fun x th hin => absurd (lt_of_inside hinv hin) (lt_irrefl _)
  have hreps_of : ∀ {s₁ s₂ : State Srv} {ctx : Ctx Srv} {type : ReqType} {msg : Msg},
      s₁.send cfg ctx type msg = some s₂ → ∃ reps, cfg.reps ctx.srv ctx.key = some reps := by
    intro s₁ s₂ ctx type msg hs
    rcases send_cases hs with ⟨reps, -, hreps, -⟩ | ⟨hnil, -⟩
    · exact ⟨reps, hreps⟩
    · exact ⟨[], hnil⟩
  cases hm with
  | @put x th key value msg _ hpc hmsg hs =>
    obtain ⟨reps, hreps⟩ := hreps_of hs
    have hwork := work_of_send hs hreps ⟨_, rfl⟩ hfresh
    simp only at hreps
    have hsame : ((s.addTraces x th 1).note (.invokePut s.ctxs.length x key value)).work
      = s.work := rfl
    simp only [Action.isCall, Action.brings, hreps, Option.getD_some, if_true]
    rw [hwork, hsame]
    simp only [ContType.work]
    omega
  | @get x th key value msg _ hpc hmsg hs =>
    obtain ⟨reps, hreps⟩ := hreps_of hs
    have hwork := work_of_send hs hreps ⟨_, rfl⟩ hfresh
    simp only at hreps
    have hsame : ((s.addTraces x th 1).note (.invokeGet s.ctxs.length x key)).work
      = s.work := rfl
    simp only [Action.isCall, Action.brings, hreps, Option.getD_some, if_true]
    rw [hwork, hsame]
    simp only [ContType.work]
    omega
  | @request i c dst type buf kv answer hi hh => exact work_of_request hi rfl rfl rfl
  | @absorb i c src buf ctx rep run hi hc hpc hr hrun =>
    exact work_of_response hi hc hpc hr rfl rfl (setPc_idle hpc).symm
      (Or.inr ⟨rfl, fun h => by rw [hrun h]; rfl⟩)
  | @enter i c src buf ctx rep pc hi hc hpc hr hcont =>
    refine work_of_response hi hc hpc hr rfl rfl rfl (Or.inl ⟨rfl, ?_⟩)
    rcases hcont with ⟨hcont, rfl⟩ | ⟨hcont, rfl⟩ <;> (rw [hcont]; exact ⟨rfl, rfl⟩)
  | acked hi hc hpc hr hcont =>
    exact work_of_response hi hc hpc hr rfl rfl (setPc_idle hpc).symm
      (Or.inr ⟨rfl, fun _ => by rw [hcont]; rfl⟩)
  | @kvGet x th c ctx node pc hpc hc hd =>
    rcases hpc with ⟨hpc, rfl⟩ | ⟨hpc, rfl⟩
    · obtain ⟨rfl, rfl, -, hdone, -⟩ := hinv.getTime_ctx (by rw [hpc]; rfl) hc
      refine work_of_advance hc hdone (by rw [hpc]; rfl) (Or.inl rfl) ?_ rfl rfl rfl
      rw [hpc, Pc.work, Pc.work]
      omega
    · have hin : (s.pc x th).inside = some (c, .retValue) := by rw [hpc]; rfl
      have hdone := done_of_inside hinv hin hc
      obtain ⟨rfl, rfl, -⟩ := hinv.retValue_ctx hin hc
      refine work_of_advance hc hdone (by rw [hpc]; rfl) (Or.inl rfl) ?_ rfl rfl rfl
      rw [hpc, Pc.work, Pc.work]
      omega
  | @choose x th c loc ctx max hpc hc hmax =>
    obtain ⟨rfl, rfl, -, hdone, -⟩ := hinv.getTime_ctx (by rw [hpc]; rfl) hc
    refine work_of_advance hc hdone (by rw [hpc]; rfl) (Or.inl rfl) ?_ rfl rfl rfl
    rw [hpc, Pc.work, Pc.work]
    omega
  | @send x th c clock ctx node msg s₁ hpc hc hd hmsg hs =>
    obtain ⟨rfl, rfl, -, hdone, -, v, hdata, -⟩ := hinv.getTime_ctx (by rw [hpc]; rfl) hc
    obtain ⟨reps, hreps, hn⟩ := (hcount.ctx c ctx hc).group
    obtain ⟨n, hctxs⟩ := (sent_of_send hs).ctxs
    have hpc₁ := (sent_of_send hs).pc
    have hc₁ : s₁.ctxs[c]? = some ctx := by rw [hctxs, getElem?_concat_left hc]
    have hkey : node.key = ctx.key := by
      obtain rfl := Option.some.inj (hdata.symm.trans hd)
      rfl
    -- the second phase brings two steps for each server, and the thread goes on
    have hwork := work_of_send hs (hkey ▸ hreps) ⟨_, rfl⟩ hfresh
    have hturn : (s₁.setPc ctx.srv ctx.thread (.getTimeSent c clock)).work
        + (s₁.pc ctx.srv ctx.thread).work ctx.rep.nMsgs
        = s₁.work + (Pc.getTimeSent c clock).work ctx.rep.nMsgs :=
      work_of_turn hc₁ hdone (by rw [hpc₁, hpc]; rfl) (Or.inl rfl) rfl rfl rfl
    rw [hpc₁, hpc] at hturn
    simp only [Pc.work, ContType.work, hn] at hturn hwork
    simp only [Action.isCall, Action.brings, Bool.false_eq_true, if_false]
    omega
  | @store x th c clock ctx node hpc hc hd =>
    obtain ⟨rfl, rfl, -, hdone, -⟩ := hinv.getTime_ctx (by rw [hpc]; rfl) hc
    refine work_of_advance hc hdone (by rw [hpc]; rfl) (Or.inr rfl) ?_ rfl rfl rfl
    rw [hpc, Pc.work, Pc.work]
  | @report x th c loc ctx node st s₁ hpc hc hd hst hs =>
    have hin : (s.pc x th).inside = some (c, .retValue) := by rw [hpc]; rfl
    have hdone := done_of_inside hinv hin hc
    obtain ⟨rfl, rfl, -, -, hdata, -⟩ := hinv.retValue_ctx hin hc
    obtain ⟨reps, hreps, hn⟩ := (hcount.ctx c ctx hc).group
    -- a write-back brings two steps for each server
    have hsent : s₁.work ≤ s.work + 2 * ctx.rep.nMsgs ∧ s₁.pc = s.pc ∧ s₁.ctxs[c]? = some ctx := by
      rcases hs with rfl | ⟨msg, v, -, -, -, hs⟩
      · exact ⟨Nat.le_add_right _ _, rfl, hc⟩
      · obtain ⟨n, hctxs⟩ := (sent_of_send hs).ctxs
        have hkey : node.key = ctx.key := by
          obtain rfl := Option.some.inj (hdata.symm.trans hd)
          rfl
        have hwork := work_of_send hs (hkey ▸ hreps) ⟨_, rfl⟩ hfresh
        refine ⟨?_, (sent_of_send hs).pc, by rw [hctxs, getElem?_concat_left hc]⟩
        simp only [ContType.work] at hwork
        omega
    obtain ⟨hwork, hpc₁, hc₁⟩ := hsent
    have hturn : ((((s₁.addTraces ctx.srv ctx.thread (-1)).note (.select ctx.op st.max.1)).note
        (.getRet ctx.op st.max.2)).setPc ctx.srv ctx.thread .idle).work
        + (s₁.pc ctx.srv ctx.thread).work ctx.rep.nMsgs
        = s₁.work + Pc.idle.work ctx.rep.nMsgs :=
      work_of_turn hc₁ hdone (by rw [hpc₁, hpc]; rfl) (Or.inr rfl) rfl rfl rfl
    rw [hpc₁, hpc] at hturn
    simp only [Pc.work] at hturn
    simp only [Action.isCall, Action.brings, Bool.false_eq_true, if_false]
    omega

/-- What a schedule does and what it leaves is no more than what there was and what its calls
bring. -/
theorem work_of_exec {as : List (Action Srv)} (ha : Accounts cfg s)
    (h : Run.exec (step cfg) s as = some s') :
    s'.work + as.countP (fun a => !a.isCall) ≤ s.work + (as.map (Action.brings cfg)).sum := by
  have hpay : (as.map fun a : Action Srv => if a.isCall then 0 else 1).sum
      = as.countP fun a => !a.isCall := by
    rw [← Tally.sum_map_ite]
    exact congrArg List.sum (List.map_congr_left fun a _ => by cases a.isCall <;> rfl)
  rw [← hpay]
  refine Run.exec_potential (I := Accounts cfg) (f := State.work) (fun x a y hx hxy => ?_) h ha
  have hm := step_cases hxy
  exact ⟨hx.step hm, work_step hx.inv hx.counted hm⟩

/-- **Every schedule ends.**  However the steps of a run are ordered, they are at most what its
calls bring, less what is still to be done. -/
theorem steps_le_calls {as : List (Action Srv)}
    (h : Run.exec (step cfg) (State.init Srv) as = some s) :
    s.work + as.countP (fun a => !a.isCall) ≤ (as.map (Action.brings cfg)).sum := by
  have hle := work_of_exec .init h
  have hinit : (State.init Srv).work = 0 := rfl
  omega

end Steps

/-- `putThenGetLate` takes all 12 steps of its put, and 4 of the 10 that a get can bring. -/
theorem steps_le_calls_putThenGetLate : ∃ s : State Trio,
    Run.exec (step trio) (State.init Trio) putThenGetLate = some s ∧ s.work + 16 ≤ 22 := by
  obtain ⟨s, hs⟩ := Option.isSome_iff_exists.mp
    (show (Run.exec (step trio) (State.init Trio) putThenGetLate).isSome = true by decide +kernel)
  have hcount : putThenGetLate.countP (fun a => !a.isCall) = 16 := by decide +kernel
  have hbrings : (putThenGetLate.map (Action.brings trio)).sum = 22 := by decide +kernel
  have hle := steps_le_calls hs
  rw [hcount, hbrings] at hle
  exact ⟨s, hs, hle⟩

end Avocado
