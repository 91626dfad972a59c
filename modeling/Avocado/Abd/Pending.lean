/-
# Where an operation is

Between its call and its end an operation is in exactly one place: it waits for the responses of a
context, or a thread works for it inside `GetTime` or `RetValue`.  A put moves from its first
context to the thread, from the thread to its `AckPutTime` context and from there to `put_ret`; a
get moves from its context to the thread and from there to `get_ret`; and what has no replicas goes
from its call straight to `skip_ret`.  The write-back of a get is in none of these places, and no
response to it moves anything.

`Counted` follows the responses of each context: those that have arrived and those in flight are
`n_msgs` together.  `Conserved` says that the calls of an operation are as many as its places and
its ends.
-/
import Avocado.Abd.History
import Avocado.Abd.Responses

namespace Avocado

open Lookup

variable {Srv : Type}

/-! ## 1. Contexts and packets along a step -/

/-- The context a packet belongs to. -/
def Packet.ctx : Packet Srv → Nat
  | .request c _ _ _ | .response c _ _ => c

/-- The packets of a context that are in flight. -/
def inFlight (net : List (Packet Srv)) (c : Nat) : Nat := net.countP fun p => p.ctx == c

/-- What a step does to the context table and the network. -/
inductive Touches (cfg : Cfg Srv) (ctxs : List (Ctx Srv)) (net : List (Packet Srv)) :
    List (Ctx Srv) → List (Packet Srv) → Prop
  /-- A context is opened and its requests are sent; without replicas there are none. -/
  | opens {ctx reps data type buf} (hreps : cfg.reps ctx.srv ctx.key = some reps)
      (hrep : ctx.rep = { nMsgs := reps.length, data }) :
      Touches cfg ctxs net (ctxs ++ [ctx])
        (net ++ reps.map fun r => .request ctxs.length r type buf)
  /-- A request is answered. -/
  | answers {i c dst type buf buf'} (hi : net[i]? = some (.request c dst type buf)) :
      Touches cfg ctxs net ctxs (net.eraseIdx i ++ [.response c dst buf'])
  /-- A response arrives. -/
  | receives {i c src buf ctx rep run} (hi : net[i]? = some (.response c src buf))
      (hc : ctxs[c]? = some ctx) (hr : ctx.rep.reqConts buf = some (rep, run)) :
      Touches cfg ctxs net (ctxs.set c { ctx with rep := rep }) (net.eraseIdx i)
  | keeps : Touches cfg ctxs net ctxs net

section Step

variable [DecidableEq Srv] {cfg : Cfg Srv} {s s' : State Srv}

theorem touches_of_send {ctx : Ctx Srv} {type : ReqType} {msg : Msg}
    (h : s.send cfg ctx type msg = some s') (hrep : ∃ data, ctx.rep = { data }) :
    Touches cfg s.ctxs s.net s'.ctxs s'.net := by
  obtain ⟨data, hrep⟩ := hrep
  rcases send_cases h with ⟨reps, wire, hreps, -, rfl⟩ | ⟨hnil, rfl⟩
  · exact .opens hreps (by rw [hrep])
  · have ht : Touches cfg s.ctxs s.net (s.ctxs ++ [ctx]) (s.net ++ [].map _) :=
      @Touches.opens _ _ _ _ _ _ _ type ⟨true, msg⟩ hnil hrep
    rw [List.map_nil, List.append_nil] at ht
    exact ht

theorem touches_of_moved {a : Action Srv} (h : Moved cfg s a s') :
    Touches cfg s.ctxs s.net s'.ctxs s'.net := by
  cases h with
  | put hpc hmsg hs =>
    have ht := touches_of_send hs ⟨_, rfl⟩
    exact ht
  | get hpc hmsg hs =>
    have ht := touches_of_send hs ⟨_, rfl⟩
    exact ht
  | request hi hh => exact .answers hi
  | absorb hi hc hpc hr => exact .receives hi hc hr
  | enter hi hc hpc hr => exact .receives hi hc hr
  | acked hi hc hpc hr => exact .receives hi hc hr
  | kvGet => exact .keeps
  | choose => exact .keeps
  | send hpc hc hd hmsg hs =>
    have ht := touches_of_send hs ⟨_, rfl⟩
    exact ht
  | store => exact .keeps
  | report hpc hc hd hst hs =>
    rcases hs with rfl | ⟨msg, v, -, -, -, hs⟩
    · exact .keeps
    · have ht := touches_of_send hs ⟨_, rfl⟩
      exact ht

end Step

/-! ## 2. The responses of a context -/

/-- The responses of the context in place `c`: it waits for one from each replica, those that have
not arrived are in flight, and until it is `done` they are below the threshold. -/
structure CtxCounted (cfg : Cfg Srv) (net : List (Packet Srv)) (c : Nat) (ctx : Ctx Srv) : Prop where
  group : ∃ reps, cfg.reps ctx.srv ctx.key = some reps ∧ ctx.rep.nMsgs = reps.length
  flight : ctx.rep.nResp + inFlight net c = ctx.rep.nMsgs
  threshold : ctx.rep.done = false → ctx.rep.nResp = 0 ∨ 2 * ctx.rep.nResp + 1 < ctx.rep.nMsgs
  sized : ctx.rep.Sized

/-- Every response is accounted for. -/
structure Counted (cfg : Cfg Srv) (ctxs : List (Ctx Srv)) (net : List (Packet Srv)) : Prop where
  known : ∀ p ∈ net, p.ctx < ctxs.length
  ctx : ∀ (c : Nat) (ctx : Ctx Srv), ctxs[c]? = some ctx → CtxCounted cfg net c ctx

/-- A context that is not `done` after a response is below the threshold. -/
theorem ReplicaContext.lt_of_reqConts {ctx ctx' : ReplicaContext} {resp : MsgBuffer} {run : Bool}
    (h : ctx.reqConts resp = some (ctx', run)) (hd : ctx'.done = false) :
    2 * ctx'.nResp + 1 < ctx'.nMsgs := by
  simp only [ReplicaContext.reqConts, ReplicaContext.addToCache] at h
  split at h
  · simp only [Option.bind_eq_bind, Option.bind_some] at h
    split at h
    · rename_i hlt
      rw [Option.some.injEq, Prod.mk.injEq] at h
      rw [← h.1]
      exact hlt
    · split at h
      · rename_i hdone
        rw [Option.some.injEq, Prod.mk.injEq] at h
        rw [← h.1] at hd
        exact absurd hdone (by rw [hd]; decide)
      · rw [Option.some.injEq, Prod.mk.injEq] at h
        rw [← h.1] at hd
        exact absurd hd (by simp)
  · exact absurd h (by simp)

theorem inFlight_append (net net' : List (Packet Srv)) (c : Nat) :
    inFlight (net ++ net') c = inFlight net c + inFlight net' c := List.countP_append

theorem inFlight_eraseIdx {net : List (Packet Srv)} {i : Nat} {p : Packet Srv}
    (h : net[i]? = some p) (c : Nat) :
    inFlight (net.eraseIdx i) c + (if p.ctx = c then 1 else 0) = inFlight net c := by
  simpa [inFlight] using countP_eraseIdx_add (fun p => p.ctx == c) h

theorem inFlight_requests (reps : List Srv) (type : ReqType) (buf : MsgBuffer) (c d : Nat) :
    inFlight (reps.map fun r => Packet.request c r type buf) d
      = if c = d then reps.length else 0 := by
  by_cases hcd : c = d
  · simp [inFlight, List.countP_map, Function.comp_def, Packet.ctx, hcd]
  · simp [inFlight, List.countP_map, Function.comp_def, Packet.ctx, hcd]

theorem inFlight_unknown {cfg : Cfg Srv} {ctxs : List (Ctx Srv)} {net : List (Packet Srv)}
    (h : Counted cfg ctxs net) : inFlight net ctxs.length = 0 := by
  rw [inFlight, List.countP_eq_zero]
  intro p hp
  have hlt := h.known p hp
  simp only [beq_iff_eq]
  omega

variable {cfg : Cfg Srv} {ctxs ctxs' : List (Ctx Srv)} {net net' : List (Packet Srv)}

theorem CtxCounted.of_inFlight {c : Nat} {ctx : Ctx Srv} (h : CtxCounted cfg net c ctx)
    (he : inFlight net' c = inFlight net c) : CtxCounted cfg net' c ctx :=
  ⟨h.group, by rw [he]; exact h.flight, h.threshold, h.sized⟩

/-- **One step keeps the count.** -/
theorem Counted.step (h : Counted cfg ctxs net) (ht : Touches cfg ctxs net ctxs' net') :
    Counted cfg ctxs' net' := by
  cases ht with
  | @opens ctx reps data type buf hreps hrep =>
    refine ⟨fun p hp => ?_, fun c ctx' hc => ?_⟩
    · rw [List.length_append, List.length_singleton]
      rcases List.mem_append.mp hp with hp | hp
      · exact Nat.lt_succ_of_lt (h.known p hp)
      · obtain ⟨r, -, rfl⟩ := List.mem_map.mp hp
        exact Nat.lt_succ_self _
    · rcases getElem?_concat hc with hold | ⟨rfl, rfl⟩
      · refine (h.ctx c ctx' hold).of_inFlight ?_
        have hlt := (List.getElem?_eq_some_iff.mp hold).1
        rw [inFlight_append, inFlight_requests, if_neg (by omega), Nat.add_zero]
      · constructor
        · exact ⟨reps, hreps, by rw [hrep]⟩
        · rw [inFlight_append, inFlight_requests, if_pos rfl, inFlight_unknown h, hrep]
          simp
        · exact fun _ => Or.inl (by rw [hrep])
        · rw [hrep]
          exact ReplicaContext.sized_new _ _
  | @answers i c dst type buf buf' hi =>
    refine ⟨fun p hp => ?_, fun d ctx' hd => (h.ctx d ctx' hd).of_inFlight ?_⟩
    · rcases List.mem_append.mp hp with hp | hp
      · exact h.known p (List.mem_of_mem_eraseIdx hp)
      · rw [List.mem_singleton.mp hp]
        exact h.known (.request c dst type buf) (List.mem_of_getElem? hi)
    · have he := inFlight_eraseIdx hi d
      have hone : inFlight [Packet.response c dst buf'] d = if c = d then 1 else 0 := by
        by_cases hcd : c = d <;> simp [inFlight, Packet.ctx, hcd]
      rw [inFlight_append, hone]
      exact he
  | @receives i c src buf ctx rep run hi hc hr =>
    refine ⟨fun p hp => ?_, fun d ctx' hd => ?_⟩
    · rw [List.length_set]
      exact h.known p (List.mem_of_mem_eraseIdx hp)
    · have he := inFlight_eraseIdx hi d
      rcases getElem?_set_cases hd with ⟨rfl, rfl⟩ | ⟨hne, hold⟩
      · have hold := h.ctx d ctx hc
        obtain ⟨-, -, hn, hresp, -, -⟩ := reqConts_cases hr
        constructor
        · rw [hn]
          exact hold.group
        · have hflight := hold.flight
          have hctx : (Packet.response d src buf : Packet Srv).ctx = d := rfl
          rw [if_pos hctx] at he
          simp only [hn, hresp]
          omega
        · exact fun hdone => Or.inr (ReplicaContext.lt_of_reqConts hr hdone)
        · exact hold.sized.reqConts hr
      · refine (h.ctx d ctx' hold).of_inFlight ?_
        have hctx : ¬ (Packet.response c src buf : Packet Srv).ctx = d := Ne.symm hne
        rw [if_neg hctx] at he
        exact he
  | keeps => exact h

theorem Counted.init : Counted cfg (State.init Srv).ctxs (State.init Srv).net where
  known p hp := absurd hp (by simp [State.init])
  ctx c ctx hc := absurd hc (by simp [State.init])

/-- A context with a packet in flight has replicas. -/
theorem Counted.nMsgs_ne_zero (h : Counted cfg ctxs net) {p : Packet Srv} {ctx : Ctx Srv}
    (hp : p ∈ net) (hc : ctxs[p.ctx]? = some ctx) : ctx.rep.nMsgs ≠ 0 := by
  have hflight := (h.ctx _ _ hc).flight
  have hpos : 0 < inFlight net p.ctx := List.countP_pos_iff.mpr ⟨p, hp, by simp⟩
  omega

/-! ## 3. The places of an operation -/

/-- The operation that a call opens. -/
def Event.opens : Event Srv → Option Nat
  | .invokePut op _ _ _ | .invokeGet op _ _ => some op
  | _ => none

/-- The operation that a call to `put_ret`, `get_ret` or `skip_ret` ends. -/
def Event.ends : Event Srv → Option Nat
  | .putRet op | .getRet op _ | .skipRet op => some op
  | _ => none

/-- The operations that were called. -/
def State.issued (s : State Srv) : List Nat := s.log.filterMap Event.opens

/-- One entry for every call to `put_ret`, `get_ret` or `skip_ret`. -/
def State.completed (s : State Srv) : List Nat := s.log.filterMap Event.ends

/-- The context waits for the responses that `op` goes on with. -/
def Ctx.waits (op : Nat) (ctx : Ctx Srv) : Bool :=
  ctx.op == op && ctx.cont != .retGetPutUpdate && !ctx.rep.done && ctx.rep.nMsgs != 0

def State.waiting (s : State Srv) (op : Nat) : Nat := s.ctxs.countP (Ctx.waits op)

/-- The operation that the thread has yet to send or report something for. -/
def Pc.works : Pc → Option Nat
  | .getTime c | .getTimeGot c _ | .getTimeChosen c _ | .retValue c | .retValueGot c _ => some c
  | .idle | .getTimeSent _ _ => none

/-- Whether the thread of `op` works for it. -/
def State.running (s : State Srv) (op : Nat) : Nat :=
  match s.ctxs[op]? with
  | some ctx => if (s.pc ctx.srv ctx.thread).works = some op then 1 else 0
  | none => 0

/-- **The calls of an operation are as many as its places and its ends.** -/
def Conserved (s : State Srv) : Prop :=
  ∀ op, s.issued.count op = s.waiting op + s.running op + s.completed.count op

section Step

variable [DecidableEq Srv] {s s' : State Srv}

/-! ## 4. What a step moves -/

theorem Pc.inside_of_works {pc : Pc} {c : Nat} (h : pc.works = some c) :
    ∃ cont, pc.inside = some (c, cont) := by
  cases pc with
  | getTime | getTimeGot | getTimeChosen | retValue | retValueGot =>
    simp only [Pc.works, Option.some.injEq] at h
    exact ⟨_, by rw [h]; rfl⟩
  | idle | getTimeSent => exact absurd h (by simp [Pc.works])

omit [DecidableEq Srv] in
theorem Inv.owner_of_works {x : Srv} {th c : Nat} (h : Inv cfg anyLow s)
    (hw : (s.pc x th).works = some c) :
    ∃ ctx, s.ctxs[c]? = some ctx ∧ ctx.srv = x ∧ ctx.thread = th := by
  obtain ⟨cont, hin⟩ := Pc.inside_of_works hw
  obtain ⟨ctx, hc, hx, hth, -⟩ := h.pc x th c cont hin
  exact ⟨ctx, hc, hx, hth⟩

omit [DecidableEq Srv] in
/-- A thread works for its own operations only. -/
theorem Inv.works_ne {x : Srv} {th op : Nat} {ctx : Ctx Srv} (h : Inv cfg anyLow s)
    (hc : s.ctxs[op]? = some ctx) (hown : ¬ (ctx.srv = x ∧ ctx.thread = th)) :
    (s.pc x th).works ≠ some op := by
  intro hw
  obtain ⟨ctx₁, hc₁, hx₁, hth₁⟩ := h.owner_of_works hw
  rw [hc, Option.some.injEq] at hc₁
  subst hc₁
  exact hown ⟨hx₁, hth₁⟩

omit [DecidableEq Srv] in
theorem Inv.works_ne_of_none {x : Srv} {th op : Nat} (h : Inv cfg anyLow s)
    (hop : s.ctxs[op]? = none) : (s.pc x th).works ≠ some op := by
  intro hw
  obtain ⟨ctx, hc, -⟩ := h.owner_of_works hw
  exact absurd (hop.symm.trans hc) (by simp)

omit [DecidableEq Srv] in
/-- A continuation runs only for a key with replicas: a response has arrived. -/
theorem Inv.reps_ne_nil {x : Srv} {th c : Nat} {cont : ContType} {ctx : Ctx Srv}
    (h : Inv cfg anyLow s) (hin : (s.pc x th).inside = some (c, cont))
    (hc : s.ctxs[c]? = some ctx) : cfg.reps ctx.srv ctx.key ≠ some [] := by
  obtain ⟨ctx', hc', -, -, -, -, hne, -⟩ := h.pc x th c cont hin
  rw [hc, Option.some.injEq] at hc'
  subst hc'
  obtain ⟨buf, hbuf⟩ := List.exists_mem_of_ne_nil _ hne
  obtain ⟨src, hresp⟩ := (h.ctx c ctx hc).cache buf hbuf
  obtain ⟨reps, hreps, hsrc⟩ := hresp.contacts
  rw [hreps]
  rintro ⟨rfl⟩
  exact absurd hsrc List.not_mem_nil

/-- Only the thread that moves changes what it works for. -/
theorem running_of_setPc {x : Srv} {th : Nat} {pc : Pc} (h : Inv cfg anyLow s)
    (h' : Inv cfg anyLow s') (ht : Table s s') (hpc : s'.pc = (s.setPc x th pc).pc) (op : Nat) :
    s'.running op + (if (s.pc x th).works = some op then 1 else 0)
      = s.running op + (if pc.works = some op then 1 else 0) := by
  have hmine : s'.pc x th = pc := by rw [hpc, State.setPc_pc_self]
  have hother : ∀ y t, ¬ (y = x ∧ t = th) → s'.pc y t = s.pc y t := fun y t hne => by
    rw [hpc, State.setPc_pc_of_ne _ _ _ hne]
  cases hop : s.ctxs[op]? with
  | some ctx =>
    obtain ⟨ctx', hop', hsame⟩ := ht.fwd op ctx hop
    simp only [State.running, hop, hop', hsame.srv, hsame.thread]
    by_cases hown : ctx.srv = x ∧ ctx.thread = th
    · rw [hown.1, hown.2, hmine]
      omega
    · have hown' : ¬ (ctx'.srv = x ∧ ctx'.thread = th) := by
        rwa [← hsame.srv, ← hsame.thread] at hown
      rw [hother _ _ hown, if_neg (h.works_ne hop hown), ← hmine, if_neg (h'.works_ne hop' hown')]
  | none =>
    rw [if_neg (h.works_ne_of_none hop)]
    simp only [State.running, hop, Nat.add_zero, Nat.zero_add]
    split
    · rename_i ctx' hop'
      by_cases hown : ctx'.srv = x ∧ ctx'.thread = th
      · rw [hown.1, hown.2, hmine]
      · have hnot := h'.works_ne hop' hown
        rw [hmine] at hnot
        rw [hother _ _ hown, if_neg (h.works_ne_of_none hop), if_neg hnot]
    · rename_i hop'
      have hnot : (s'.pc x th).works ≠ some op := h'.works_ne_of_none hop'
      rw [hmine] at hnot
      rw [if_neg hnot]

/-- Nobody moves. -/
theorem running_of_pc (x : Srv) (th : Nat) (h : Inv cfg anyLow s) (h' : Inv cfg anyLow s')
    (ht : Table s s') (hpc : s'.pc = s.pc) (op : Nat) : s'.running op = s.running op := by
  have hsame : (s.setPc x th (s.pc x th)).pc = s.pc := by
    funext y t
    by_cases hy : y = x ∧ t = th
    · rw [hy.1, hy.2, State.setPc_pc_self]
    · exact State.setPc_pc_of_ne _ _ _ hy
  have hrun := running_of_setPc h h' ht (hpc.trans hsame.symm) op
  omega

omit [DecidableEq Srv] in
/-- Nothing is recorded. -/
theorem counts_of_log_eq (s s' : State Srv) (h : s'.log = s.log) (op : Nat) :
    s'.issued.count op = s.issued.count op ∧ s'.completed.count op = s.completed.count op := by
  simp only [State.issued, State.completed, h, and_self]

omit [DecidableEq Srv] in
/-- One event is recorded. -/
theorem counts_of_log_concat (s s' : State Srv) {e : Event Srv} (h : s'.log = s.log ++ [e])
    (op : Nat) :
    s'.issued.count op = s.issued.count op + (if e.opens = some op then 1 else 0) ∧
      s'.completed.count op = s.completed.count op + (if e.ends = some op then 1 else 0) := by
  constructor
  · cases he : e.opens with
    | none => simp [State.issued, h, he]
    | some o => simp [State.issued, h, he, List.count_singleton]
  · cases he : e.ends with
    | none => simp [State.completed, h, he]
    | some o => simp [State.completed, h, he, List.count_singleton]

/-- Something is sent only to somebody. -/
theorem ne_nil_of_sent {ctx : Ctx Srv} {type : ReqType} {msg : Msg} {reps : List Srv}
    (h : s.send cfg ctx type msg = some s') (hreps : cfg.reps ctx.srv ctx.key = some reps)
    (hlog : s'.log = s.log) : reps ≠ [] := by
  rintro rfl
  simp only [State.send, hreps, Option.bind_eq_bind, Option.bind_some, List.length_nil,
    gt_iff_lt, Nat.lt_irrefl, if_false, Option.some.injEq] at h
  rw [← h] at hlog
  simp at hlog

/-- **What sending does for an operation.**  With replicas the new context waits, unless it is a
write-back; without replicas the operation ends. -/
theorem places_of_send {ctx : Ctx Srv} {type : ReqType} {msg : Msg}
    (h : s.send cfg ctx type msg = some s') (hrep : ∃ data, ctx.rep = { data })
    (hback : ctx.cont = .retGetPutUpdate → cfg.reps ctx.srv ctx.key ≠ some []) (op : Nat) :
    s'.issued.count op = s.issued.count op ∧ s'.waiting op + s'.completed.count op
      = s.waiting op + s.completed.count op +
        (if ctx.op = op ∧ ctx.cont ≠ .retGetPutUpdate then 1 else 0) := by
  obtain ⟨data, hrep⟩ := hrep
  rcases send_cases h with ⟨reps, wire, hreps, -, hs⟩ | ⟨hnil, hs⟩
  · have hlog : s'.log = s.log := by rw [hs]
    have hctxs : s'.ctxs = s.ctxs ++ [{ ctx with rep := { nMsgs := reps.length, data } }] := by
      rw [hs, hrep]
    have hne : reps ≠ [] := ne_nil_of_sent h hreps hlog
    have hwaits : ({ ctx with rep := { nMsgs := reps.length, data } } : Ctx Srv).waits op
        = (ctx.op == op && ctx.cont != .retGetPutUpdate) := by
      simp [Ctx.waits, hne]
    obtain ⟨hissued, hended⟩ := counts_of_log_eq s s' hlog op
    refine ⟨hissued, ?_⟩
    rw [hended, State.waiting, hctxs, List.countP_append, List.countP_singleton, hwaits]
    simp only [State.waiting, Bool.and_eq_true, beq_iff_eq, bne_iff_ne]
    omega
  · have hcont : ctx.cont ≠ .retGetPutUpdate := fun hc => hback hc hnil
    have hctxs : s'.ctxs = s.ctxs ++ [ctx] := by rw [hs]; rfl
    have hwaits : ctx.waits op = false := by simp [Ctx.waits, hrep]
    have hwait : s'.waiting op = s.waiting op := by
      rw [State.waiting, hctxs, List.countP_append, List.countP_singleton, hwaits]
      rfl
    have hlog : s'.log = s.log ++ [.skipRet ctx.op] := by rw [hs]; rfl
    obtain ⟨hissued, hended⟩ := counts_of_log_concat s s' hlog op
    rw [hwait, hissued, hended]
    simp only [Event.opens, Event.ends, Option.some.injEq, hcont, ne_eq, not_false_eq_true,
      and_true, reduceCtorEq, if_false]
    exact ⟨rfl, (Nat.add_assoc _ _ _).symm⟩

omit [DecidableEq Srv] in
/-- **What a response does for an operation.**  When it runs the continuation of a context that is
no write-back, the operation leaves the context. -/
theorem waiting_of_reqConts {c : Nat} {ctx : Ctx Srv} {resp : MsgBuffer} {rep : ReplicaContext}
    {run : Bool} (hc : s.ctxs[c]? = some ctx) (hn : ctx.rep.nMsgs ≠ 0)
    (h : ctx.rep.reqConts resp = some (rep, run))
    (hs : s'.ctxs = s.ctxs.set c { ctx with rep := rep }) (op : Nat) :
    s'.waiting op + (if ctx.op = op ∧ ctx.cont ≠ .retGetPutUpdate ∧ run = true then 1 else 0)
      = s.waiting op := by
  obtain ⟨-, -, hn', -, hdone, hrun⟩ := reqConts_cases h
  have hset := countP_set_add (y := { ctx with rep := rep }) (Ctx.waits op) hc
  simp only [State.waiting, hs]
  cases run with
  | false =>
    have hsame : ({ ctx with rep := rep } : Ctx Srv).waits op = ctx.waits op := by
      simp [Ctx.waits, hn', hdone]
    rw [hsame] at hset
    simp only [Bool.false_eq_true, and_false, if_false]
    omega
  | true =>
    have hout : ({ ctx with rep := rep } : Ctx Srv).waits op = false := by
      simp [Ctx.waits, hdone]
    have hin : (ctx.waits op = true) = (ctx.op = op ∧ ctx.cont ≠ .retGetPutUpdate) := by
      simp [Ctx.waits, (hrun rfl).1, hn]
    simp only [hout, hin, Bool.false_eq_true, if_false] at hset
    simp only [and_true]
    omega

/-! ## 5. The step and the run -/

/-- A call opens one operation and puts it in one place. -/
theorem Conserved.call {e : Event Srv} {x : Srv} {th : Nat} {ctx : Ctx Srv} {type : ReqType}
    {msg : Msg} (h : Conserved s) (hs : ((s.addTraces x th 1).note e).send cfg ctx type msg = some s')
    (hopens : e.opens = some ctx.op) (hends : e.ends = none) (hrep : ∃ data, ctx.rep = { data })
    (hcont : ctx.cont ≠ .retGetPutUpdate) (hrun : ∀ op, s'.running op = s.running op) :
    Conserved s' := by
  intro op
  obtain ⟨hissued, hplaces⟩ := places_of_send hs hrep (fun hc => absurd hc hcont) op
  obtain ⟨hcalled, hended⟩ := counts_of_log_concat s ((s.addTraces x th 1).note e) rfl op
  have hw : ((s.addTraces x th 1).note e).waiting op = s.waiting op := rfl
  simp only [hopens, hends, Option.some.injEq, reduceCtorEq, if_false] at hcalled hended
  simp only [hw, hended, hcont, ne_eq, not_false_eq_true, and_true] at hplaces
  have hold := h op
  have hrun := hrun op
  omega

/-- A thread goes on with the same operation. -/
theorem Conserved.turn {x : Srv} {th : Nat} {pc : Pc} (h : Conserved s) (hinv : Inv cfg anyLow s)
    (hinv' : Inv cfg anyLow s') (ht : Table s s') (hpcs : s'.pc = (s.setPc x th pc).pc)
    (hworks : pc.works = (s.pc x th).works) (hctxs : s'.ctxs = s.ctxs)
    (hissued : s'.issued = s.issued) (hended : s'.completed = s.completed) : Conserved s' := by
  intro op
  have hrun := running_of_setPc hinv hinv' ht hpcs op
  have hwait : s'.waiting op = s.waiting op := by rw [State.waiting, hctxs, State.waiting]
  have hold := h op
  rw [hworks] at hrun
  rw [hissued, hended]
  omega

/-- **One step moves each operation from place to place.** -/
theorem Conserved.step {a : Action Srv} (h : Conserved s) (hinv : Inv cfg anyLow s)
    (hcount : Counted cfg s.ctxs s.net) (hm : Moved cfg s a s') : Conserved s' := by
  have hinv' : Inv cfg anyLow s' := hinv.step (fun _ _ _ => trivial) hm
  have ht := table_of_moved hm
  have hrecv : ∀ {i c src buf} {ctx : Ctx Srv}, s.net[i]? = some (Packet.response c src buf) →
      s.ctxs[c]? = some ctx → ctx.rep.nMsgs ≠ 0 := fun hi hc =>
    hcount.nMsgs_ne_zero (List.mem_of_getElem? hi) hc
  obtain ⟨t, hst⟩ : ∃ t, s' = t := ⟨s', rfl⟩
  rw [hst] at hm
  cases hm with
  | @put x th key value msg _ hpc hmsg hs =>
    subst hst
    exact h.call hs rfl rfl ⟨_, rfl⟩ (by simp)
      (running_of_pc x th hinv hinv' ht (sent_of_send hs).pc)
  | @get x th key value msg _ hpc hmsg hs =>
    subst hst
    exact h.call hs rfl rfl ⟨_, rfl⟩ (by simp)
      (running_of_pc x th hinv hinv' ht (sent_of_send hs).pc)
  | request hi hh =>
    rw [hst]
    exact h
  | @absorb i c src buf ctx rep run hi hc hpc hr hback =>
    intro op
    have hctxs : s'.ctxs = s.ctxs.set c { ctx with rep := rep } := by rw [hst]
    have hwait := waiting_of_reqConts hc (hrecv hi hc) hr hctxs op
    have hrun := running_of_pc ctx.srv ctx.thread hinv hinv' ht (by rw [hst]) op
    obtain ⟨hissued, hended⟩ := counts_of_log_eq s s' (by rw [hst]) op
    have hnot : ¬ (ctx.op = op ∧ ctx.cont ≠ .retGetPutUpdate ∧ run = true) :=
      fun hall => hall.2.1 (hback hall.2.2)
    rw [if_neg hnot] at hwait
    have hold := h op
    omega
  | @enter i c src buf ctx rep pc hi hc hpc hr hcont =>
    intro op
    have hctxs : s'.ctxs = s.ctxs.set c { ctx with rep := rep } := by rw [hst]; rfl
    have hpcs : s'.pc = (s.setPc ctx.srv ctx.thread pc).pc := by rw [hst]; rfl
    have hwait := waiting_of_reqConts hc (hrecv hi hc) hr hctxs op
    have hrun := running_of_setPc hinv hinv' ht hpcs op
    obtain ⟨hissued, hended⟩ := counts_of_log_eq s s' (by rw [hst]; rfl) op
    have hentered : ctx.op = c ∧ ctx.cont ≠ .retGetPutUpdate ∧ pc.works = some c := by
      have hform := (hinv.ctx c ctx hc).form
      rcases hcont with ⟨hcont, rfl⟩ | ⟨hcont, rfl⟩
      · rw [hcont] at hform
        exact ⟨hform.1, by rw [hcont]; simp, rfl⟩
      · rw [hcont] at hform
        exact ⟨hform.1, by rw [hcont]; simp, rfl⟩
    obtain ⟨hop, hne, hworks⟩ := hentered
    simp only [hop, hne, ne_eq, not_false_eq_true, and_true] at hwait
    rw [hpc, hworks] at hrun
    simp only [Pc.works, reduceCtorEq, if_false, Option.some.injEq] at hrun
    have hold := h op
    omega
  | @acked i c src buf ctx rep hi hc hpc hr hcont =>
    intro op
    have hctxs : s'.ctxs = s.ctxs.set c { ctx with rep := rep } := by rw [hst]; rfl
    have hlog : s'.log = s.log ++ [.putRet ctx.op] := by rw [hst]; rfl
    have hwait := waiting_of_reqConts hc (hrecv hi hc) hr hctxs op
    have hrun := running_of_pc ctx.srv ctx.thread hinv hinv' ht (by rw [hst]; rfl) op
    obtain ⟨hissued, hended⟩ := counts_of_log_concat s s' hlog op
    simp only [hcont, ne_eq, reduceCtorEq, not_false_eq_true, and_true] at hwait
    simp only [Event.opens, Event.ends, reduceCtorEq, if_false, Option.some.injEq] at hissued hended
    have hold := h op
    omega
  | @kvGet x th c ctx node pc hpc hc hd =>
    subst hst
    have hworks : pc.works = (s.pc x th).works := by
      rcases hpc with ⟨hpc, rfl⟩ | ⟨hpc, rfl⟩ <;> rw [hpc] <;> rfl
    exact h.turn hinv hinv' ht rfl hworks rfl rfl rfl
  | @choose x th c loc ctx max hpc hc hm =>
    subst hst
    have hworks : (Pc.getTimeChosen c ⟨max + 1, cfg.mId x⟩).works = (s.pc x th).works := by
      rw [hpc]
      rfl
    exact h.turn hinv hinv' ht rfl hworks rfl (by simp [State.issued, Event.opens])
      (by simp [State.completed, Event.ends])
  | @send x th c clock ctx node msg s₁ hpc hc hd hmsg hs =>
    intro op
    have hpcs : s'.pc = (s.setPc x th (.getTimeSent c clock)).pc := by
      rw [hst]; simp only [State.setPc, (sent_of_send hs).pc]
    have hrun := running_of_setPc hinv hinv' ht hpcs op
    obtain ⟨hissued, hplaces⟩ := places_of_send hs ⟨_, rfl⟩ (fun hc => absurd hc (by simp)) op
    have hw : s'.waiting op = s₁.waiting op := by rw [hst]; rfl
    obtain ⟨hissued', hended'⟩ := counts_of_log_eq s₁ s' (by rw [hst]; rfl) op
    obtain ⟨-, -, -, -, hop, -⟩ := hinv.getTime_ctx (by rw [hpc]; rfl) hc
    simp only [hpc, Pc.works, Option.some.injEq, reduceCtorEq, if_false] at hrun
    simp only [hop, ne_eq, reduceCtorEq, not_false_eq_true, and_true] at hplaces
    have hold := h op
    omega
  | @store x th c clock ctx node hpc hc hd =>
    subst hst
    have hworks : Pc.idle.works = (s.pc x th).works := by
      rw [hpc]
      rfl
    exact h.turn hinv hinv' ht rfl hworks rfl rfl rfl
  | @report x th c loc ctx node st s₁ hpc hc hd hst' hs =>
    intro op
    have hpcs : s'.pc = (s.setPc x th .idle).pc := by
      rw [hst]
      rcases hs with rfl | ⟨msg, v, -, -, -, hs⟩
      · rfl
      · simp only [State.setPc, State.note_pc, State.addTraces_pc, (sent_of_send hs).pc]
    have hrun := running_of_setPc hinv hinv' ht hpcs op
    obtain ⟨hx, hth, hcont, hop, hdata, -⟩ := hinv.retValue_ctx (by rw [hpc]; rfl) hc
    have hback : s₁.issued.count op = s.issued.count op ∧ s₁.waiting op + s₁.completed.count op
        = s.waiting op + s.completed.count op := by
      rcases hs with rfl | ⟨msg, v, -, -, -, hs⟩
      · exact ⟨rfl, rfl⟩
      · rw [hd, Option.some.injEq] at hdata
        have hne := hinv.reps_ne_nil (by rw [hpc]; rfl) hc
        rw [hx] at hne
        simpa using places_of_send hs ⟨_, rfl⟩ (fun _ => by rw [hdata]; exact hne) op
    have hw : s'.waiting op = s₁.waiting op := by rw [hst]; rfl
    have hsel := counts_of_log_concat s₁ (s₁.note (.select ctx.op st.max.1)) rfl op
    have hlog : s'.log = (s₁.note (.select ctx.op st.max.1)).log ++
        [.getRet ctx.op st.max.2] := by rw [hst]; rfl
    have hget := counts_of_log_concat (s₁.note (.select ctx.op st.max.1)) s' hlog op
    simp only [Event.opens, Event.ends, reduceCtorEq, if_false, Option.some.injEq, hop]
      at hsel hget
    simp only [hpc, Pc.works, Option.some.injEq, reduceCtorEq, if_false] at hrun
    have hold := h op
    omega

end Step

end Avocado
