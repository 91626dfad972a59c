/-
# The benchmark comes to its end (`server.cpp`, `run_event_loop`)

A thread takes its commands one by one.  In front of each it has to get past `rate.aquire`, which
lets no more than `max_request` operations of its server be under way, and while it waits there it
runs its event loop.  `put_ret`, `get_ret` and `skip_ret` release.  When it has issued all its
commands it runs the event loop until `load_traces` is 0.

So a thread waits twice for operations to end, its own and those of the other threads, and they end
only if the event loops of other servers go on.  `drains_of_schedule` says that nobody waits for
ever: until all threads are past their traces something can be done, and there is not more to do
than 14 steps for each command.  What comes behind the traces is in `Server/Finish.lean`.

That is proved where the groups have three servers, the package size is below `2 ^ 62` and has room
for the keys and values of the traces, and `max_request` is not 0 (`Cfg.Ok`).

A call of `aquire` is one step here, the exchange that succeeds (`Server/RateLimit.lean` has the
others), and so is everything between two event loops.  A response waits until its own thread is in
the event loop.  A request does not wait for a thread: here the servers go on handling requests
whatever their threads do, also when they are all behind their traces.  What it takes for a thread
to be there is in `Server/RunEventLoop.lean`.
-/
import Avocado.Abd.Availability
import Avocado.Server.RateLimit
import Avocado.Server.Zipf
import Mathlib.Algebra.BigOperators.Ring.Finset

namespace Avocado.Benchmark

open Zipf (TraceCmd)

variable {Srv : Type}

/-! ## 1. The code -/

/-- What the servers are started with. -/
structure Cfg (Srv : Type) where
  abd : Avocado.Cfg Srv
  /-- `begin` to `end` of each thread of a server. -/
  traces : Srv → List (List TraceCmd)
  /-- `args.value_size`. -/
  valueSize : Nat
  maxRequest : BitVec 64

/-- The commands of a thread. -/
def Cfg.commands (cfg : Cfg Srv) (x : Srv) (th : Nat) : List TraceCmd := (cfg.traces x)[th]?.getD []

/-- The benchmark. -/
structure State (Srv : Type) where
  abd : Avocado.State Srv
  /-- `rate`: all threads of a server share it. -/
  rate : Srv → RateLimit
  /-- The commands of a thread from `begin` on. -/
  todo : Srv → Nat → List TraceCmd
  /-- The thread is behind `aquire`, in front of its operation. -/
  aquired : Srv → Nat → Bool

/-- A thread gets past `aquire`, or calls its operation; or an event loop does something. -/
inductive Action (Srv : Type)
  | aquire (x : Srv) (th : Nat)
  | issue (x : Srv) (th : Nat)
  | deliver (a : Avocado.Action Srv)
  deriving DecidableEq

/-- `RateLimit::aquire`, for a thread whose exchange succeeds. -/
def aquire (l : RateLimit) : RateLimit := { l.addRequest 1 with nAquire := l.nAquire + 1 }

/-- `RateLimit::release`. -/
def release (l : RateLimit) : RateLimit := { l.addRequest (-1) with nRelease := l.nRelease + 1 }

/-- The call of the operation.  `get_msg` makes room for a value of `value_size` bytes, and only the
key is copied into the message. -/
def call (cfg : Cfg Srv) (x : Srv) (th : Nat) (cmd : TraceCmd) : Avocado.Action Srv :=
  match cmd.op with
  | .put => .put x th cmd.keyHash (List.replicate cfg.valueSize 0)
  | .get => .get x th cmd.keyHash (List.replicate cfg.valueSize 0)

namespace State

def init (cfg : Cfg Srv) : State Srv where
  abd := .init Srv
  rate _ := { maxRequest := cfg.maxRequest }
  todo := cfg.commands
  aquired _ _ := false

variable [DecidableEq Srv]

/-- The server has called the operation. -/
def called (s : Avocado.State Srv) (x : Srv) (op : Nat) : Bool :=
  s.ctxs[op]?.any fun ctx => ctx.srv = x

/-- The calls of `put_ret`, `get_ret` and `skip_ret` on server `x` between two states. -/
def rets (s t : Avocado.State Srv) (x : Srv) : Nat :=
  (t.completed.drop s.completed.length).countP (called t x)

/-- The state after the servers came to `abd`: each of those calls releases. -/
def settle (s : State Srv) (abd : Avocado.State Srv) : State Srv :=
  { s with abd, rate := fun x => release^[rets s.abd abd x] (s.rate x) }

/-- The thread that the response is for is behind `aquire`, and not in its event loop. -/
def busy (s : State Srv) : Avocado.Action Srv → Bool
  | .response i => match s.abd.net[i]? with
    | some (.response c _ _) => s.abd.ctxs[c]?.any fun ctx => s.aquired ctx.srv ctx.thread
    | _ => false
  | _ => false

def setRate (s : State Srv) (x : Srv) (rate : RateLimit) : State Srv :=
  { s with rate := Function.update s.rate x rate }

def setTodo (s : State Srv) (x : Srv) (th : Nat) (cmds : List TraceCmd) : State Srv :=
  { s with todo := fun y t => if y = x ∧ t = th then cmds else s.todo y t }

def setAquired (s : State Srv) (x : Srv) (th : Nat) (aquired : Bool) : State Srv :=
  { s with aquired := fun y t => if y = x ∧ t = th then aquired else s.aquired y t }

end State

variable [DecidableEq Srv]

/-- One step; `none` when the action is not enabled. -/
def step (cfg : Cfg Srv) (s : State Srv) : Action Srv → Option (State Srv)
  | .aquire x th =>
    if s.abd.pc x th = .idle ∧ s.aquired x th = false ∧ s.todo x th ≠ [] ∧
        (s.rate x).request < (s.rate x).maxRequest then
      some ((s.setRate x (aquire (s.rate x))).setAquired x th true)
    else none
  | .issue x th =>
    match s.aquired x th, s.todo x th with
    | true, cmd :: rest => do
      let abd ← Avocado.step cfg.abd s.abd (call cfg x th cmd)
      some (((s.settle abd).setTodo x th rest).setAquired x th false)
    | _, _ => none
  | .deliver a =>
    if a.isCall = false ∧ s.busy a = false then do
      some (s.settle (← Avocado.step cfg.abd s.abd a))
    else none

/-- **What a step can do.** -/
theorem step_cases {cfg : Cfg Srv} {s s' : State Srv} {a : Action Srv}
    (h : step cfg s a = some s') :
    (∃ x th, a = .aquire x th ∧ s.abd.pc x th = .idle ∧ s.aquired x th = false ∧ s.todo x th ≠ [] ∧
      (s.rate x).request < (s.rate x).maxRequest ∧
      s' = (s.setRate x (aquire (s.rate x))).setAquired x th true) ∨
    (∃ x th cmd rest abd, a = .issue x th ∧ s.aquired x th = true ∧ s.todo x th = cmd :: rest ∧
      Moved cfg.abd s.abd (call cfg x th cmd) abd ∧
      s' = ((s.settle abd).setTodo x th rest).setAquired x th false) ∨
    (∃ b abd, a = .deliver b ∧ b.isCall = false ∧ s.busy b = false ∧ Moved cfg.abd s.abd b abd ∧
      s' = s.settle abd) := by
  cases a with
  | aquire x th =>
    simp only [step] at h
    split at h
    · rename_i hok
      obtain ⟨hidle, haq, htodo, hlt⟩ := hok
      exact Or.inl ⟨x, th, rfl, hidle, haq, htodo, hlt, (Option.some.inj h).symm⟩
    · exact absurd h (by simp)
  | issue x th =>
    simp only [step] at h
    split at h
    · rename_i cmd rest haq htodo
      simp only [Option.bind_eq_bind, Option.bind_eq_some_iff, Option.some.injEq] at h
      obtain ⟨abd, habd, rfl⟩ := h
      exact Or.inr (Or.inl ⟨x, th, cmd, rest, abd, rfl, haq, htodo, Avocado.step_cases habd, rfl⟩)
    · exact absurd h (by simp)
  | deliver b =>
    simp only [step] at h
    split at h
    · rename_i hok
      simp only [Option.bind_eq_bind, Option.bind_eq_some_iff, Option.some.injEq] at h
      obtain ⟨abd, habd, rfl⟩ := h
      exact Or.inr (Or.inr ⟨b, abd, rfl, hok.1, hok.2, Avocado.step_cases habd, rfl⟩)
    · exact absurd h (by simp)

/-! ## 2. Operations can be called -/

section Calls

variable {cfg : Avocado.Cfg Srv} {s : Avocado.State Srv} {x : Srv} {th : Nat}
  {key value : List UInt8} {reps : List Srv}

omit [DecidableEq Srv] in
theorem exists_getMsg (h : 16 + (key.length + value.length) < 2 ^ 64) :
    ∃ msg, Avocado.State.getMsg key value = some msg := by
  have hn : key.length + value.length + encodedMsgSize < 2 ^ 64 := by
    rw [encodedMsgSize]
    omega
  have hstore : ∀ (m : Msg) (off : Nat) (bs : List UInt8),
      m.ptr.length = key.length + value.length + encodedMsgSize →
      off + bs.length ≤ key.length + value.length + encodedMsgSize →
      ∃ m', m.store off bs = some m' ∧
        m'.ptr.length = key.length + value.length + encodedMsgSize := by
    intro m off bs hm hle
    obtain ⟨m', hm', hptr⟩ := Msg.exists_store m (hm ▸ hle)
    refine ⟨m', hm', ?_⟩
    rw [hptr]
    simp only [List.length_append, List.length_take, List.length_drop, hm]
    omega
  obtain ⟨m₁, h₁, e₁⟩ := hstore ⟨List.replicate _ 0, by simpa using hn⟩ 0
    (Bytes.leBytes 8 key.length) (by simp) (by simp [encodedMsgSize])
  obtain ⟨m₂, h₂, e₂⟩ := hstore m₁ 8 (Bytes.leBytes 8 (key.length + value.length)) e₁
    (by simp [encodedMsgSize])
  obtain ⟨m₃, h₃, e₃⟩ := hstore m₂ encodedMsgSize key e₂ (by omega)
  obtain ⟨m₄, h₄, -⟩ := hstore m₃ (encodedMsgSize + key.length) value e₃ (by omega)
  refine ⟨m₄, ?_⟩
  simp only [Avocado.State.getMsg, Msg.alloc_eq hn, h₁, h₂, h₃, h₄, Option.bind_eq_bind,
    Option.bind_some]

theorem exists_put (hpc : s.pc x th = .idle) (hreps : cfg.reps x key = some reps)
    (hsize : 16 + (key.length + value.length) < 2 ^ 64) :
    ∃ s', Avocado.step cfg s (.put x th key value) = some s' := by
  obtain ⟨msg, hmsg⟩ := exists_getMsg hsize
  have himg := getMsg_eq_some hmsg
  obtain ⟨ks, hks, hsz, hkb, -⟩ := getKey_bytes_image himg
  obtain ⟨vs, hvs, -⟩ := Msg.getValue_image himg
  have hvb := read_value_image himg hvs
  obtain ⟨m, hm⟩ : ∃ m, encode key [] = some m :=
    exists_encode (by rw [List.length_nil]; omega)
  obtain ⟨s', hs'⟩ := exists_send ((s.addTraces x th 1).note (.invokePut s.ctxs.length x key value))
    ⟨x, th, .getTime, key, s.ctxs.length, { data := some ⟨key, ⟨Lamport.min, value⟩⟩ }⟩
    .getTimeStamp hreps hm
  refine ⟨s', ?_⟩
  simp only [Avocado.step, if_pos hpc, hmsg, Avocado.State.benchmarkPut, hks, hkb, createNode, hvs,
    hvb, Option.bind_eq_bind, Option.bind_some]
  rw [MsgBuilder.build_key hsz, hm, Option.bind_some]
  exact hs'

theorem exists_get (hpc : s.pc x th = .idle) (hreps : cfg.reps x key = some reps)
    (hsize : 16 + (key.length + value.length) < 2 ^ 64) :
    ∃ s', Avocado.step cfg s (.get x th key value) = some s' := by
  obtain ⟨msg, hmsg⟩ := exists_getMsg hsize
  have himg := getMsg_eq_some hmsg
  obtain ⟨ks, hks, hsz, hkb, -⟩ := getKey_bytes_image himg
  have hvb : Span.bytes ⟨0, none⟩ = some [] := rfl
  obtain ⟨s', hs'⟩ := exists_send ((s.addTraces x th 1).note (.invokeGet s.ctxs.length x key))
    ⟨x, th, .retValue, key, s.ctxs.length, { data := some ⟨key, ⟨Lamport.min, []⟩⟩ }⟩
    .getValueTimeStamp hreps (MsgBuilder.encode_of_ptr himg)
  refine ⟨s', ?_⟩
  simp only [Avocado.step, if_pos hpc, hmsg, Avocado.State.benchmarkGet, hks, hkb, createNode, hvb,
    Option.bind_eq_bind, Option.bind_some]
  exact hs'

theorem exists_call {cfg : Cfg Srv} {cmd : TraceCmd} (hpc : s.pc x th = .idle)
    (hreps : cfg.abd.reps x cmd.keyHash = some reps)
    (hsize : 16 + (cmd.keyHash.length + cfg.valueSize) < 2 ^ 64) :
    ∃ s', Avocado.step cfg.abd s (call cfg x th cmd) = some s' := by
  unfold call
  cases cmd.op with
  | put => exact exists_put hpc hreps (by rw [List.length_replicate]; exact hsize)
  | get => exact exists_get hpc hreps (by rw [List.length_replicate]; exact hsize)

end Calls

/-! ## 3. What the steps of the servers do to the books -/

section Servers

variable {cfg : Cfg Srv} {s s' : Avocado.State Srv} {a : Avocado.Action Srv}

/-- Only a call opens an operation. -/
theorem issued_of_moved (hm : Moved cfg.abd s a s') (ha : a.isCall = false) :
    s'.issued = s.issued := by
  obtain ⟨es, hlog, hes⟩ := emits_of_moved hm
  have hnone : es.filterMap Event.opens = [] := by
    refine List.filterMap_eq_nil_iff.mpr fun e he => ?_
    cases hes e he with
    | invokePut | invokeGet => exact absurd ha (by simp [Action.isCall])
    | skipRet | assign | putRet | select | getRet => rfl
  rw [State.issued, hlog, List.filterMap_append, hnone, List.append_nil]
  rfl

/-- The books of a step that is not a call, -/
theorem books_of_deliver (hinv : Inv cfg.abd anyLow s) (hm : Moved cfg.abd s a s')
    (ha : a.isCall = false) : ∃ y t ended, Books s s' y t [] ended ∧
      ∀ op ∈ ended, s'.owns y t op = true := by
  obtain ⟨y, t, opened, ended, hb, -, hown⟩ := books_of_moved hinv hm
  have hnil : opened = [] := by
    have hissued := hb.issued
    rw [issued_of_moved hm ha] at hissued
    exact List.self_eq_append_right.mp hissued
  subst hnil
  exact ⟨y, t, ended, hb, hown⟩

/-- and those of a call. -/
theorem books_of_issue {x : Srv} {th : Nat} {cmd : TraceCmd}
    (hm : Moved cfg.abd s (call cfg x th cmd) s') : ∃ ended,
      Books s s' x th [s.ctxs.length] ended ∧
      ∀ op ∈ [s.ctxs.length] ++ ended, s'.owns x th op = true := by
  obtain ⟨op, key⟩ := cmd
  cases op with
  | put =>
    cases hm with
    | put hpc hmsg hs => exact books_of_call rfl rfl rfl hs
  | get =>
    cases hm with
    | get hpc hmsg hs => exact books_of_call rfl rfl rfl hs

theorem called_of_owns {x y : Srv} {t op : Nat} (h : s.owns y t op = true) :
    State.called s x op = decide (y = x) := by
  obtain ⟨ctx, hc, rfl, -⟩ := owns_eq_true.mp h
  rw [State.called, hc, Option.any_some]

theorem called_of_table (ht : Table s s') {op : Nat} {ctx : Ctx Srv} (hc : s.ctxs[op]? = some ctx)
    (x : Srv) : State.called s' x op = State.called s x op := by
  obtain ⟨ctx', hc', hsame⟩ := ht.fwd op ctx hc
  simp only [State.called, hc, hc', Option.any_some, hsame.srv]

theorem countP_called_new {new : List Nat} {y : Srv} {t : Nat}
    (hnew : ∀ op ∈ new, s'.owns y t op = true) (x : Srv) :
    new.countP (State.called s' x) = if y = x then new.length else 0 := by
  have hsame : ∀ op ∈ new, State.called s' x op = decide (y = x) :=
    fun op hop => called_of_owns (hnew op hop)
  split
  · rename_i hy
    exact List.countP_eq_length.mpr fun op hop => (hsame op hop).trans (decide_eq_true hy)
  · rename_i hy
    refine List.countP_eq_zero.mpr fun op hop => ?_
    rw [hsame op hop, decide_eq_false hy]
    simp

/-- The operations of a server that are in a list, after a step. -/
theorem countP_called {l new : List Nat} {y : Srv} {t : Nat} (ht : Table s s')
    (hl : ∀ op ∈ l, ∃ ctx, s.ctxs[op]? = some ctx) (hnew : ∀ op ∈ new, s'.owns y t op = true)
    (x : Srv) : (l ++ new).countP (State.called s' x)
      = l.countP (State.called s x) + if y = x then new.length else 0 := by
  rw [List.countP_append, countP_called_new hnew]
  congr 1
  refine List.countP_congr fun op hop => ?_
  obtain ⟨ctx, hc⟩ := hl op hop
  rw [called_of_table ht hc]

theorem rets_of_books {y : Srv} {t : Nat} {opened ended : List Nat}
    (hb : Books s s' y t opened ended) (hown : ∀ op ∈ ended, s'.owns y t op = true) (x : Srv) :
    State.rets s s' x = if y = x then ended.length else 0 := by
  rw [State.rets, hb.completed, List.drop_left, countP_called_new hown]

/-- No more operations of a server have ended than were called. -/
theorem ended_le_called (h : Accounts cfg.abd s) (x : Srv) :
    s.completed.countP (State.called s x) ≤ s.issued.countP (State.called s x) :=
  ((h.conserved.completed_nodup h.nodup).subperm h.conserved.completed_subset).countP_le _

/-- And those of a thread that have not ended are still to come. -/
theorem outstanding_add_ended_le (h : Accounts cfg.abd s) (x : Srv) (th : Nat) :
    (s.outstanding x th).length + s.completed.countP (State.called s x)
      ≤ s.issued.countP (State.called s x) := by
  have hsub : (s.outstanding x th ++ s.completed.filter (State.called s x)).Subperm
      (s.issued.filter (State.called s x)) := by
    refine List.Nodup.subperm (List.nodup_append.mpr ⟨(h.nodup.filter _).filter _,
      (h.conserved.completed_nodup h.nodup).filter _, ?_⟩) fun op hop => ?_
    · rintro op hop op' hop' rfl
      simp only [State.outstanding, Ledger.outstanding, State.completedBy, List.mem_filter,
        State.issuedBy, Bool.not_eq_true', decide_eq_false_iff_not] at hop hop'
      exact hop.2 ⟨hop'.1, hop.1.2⟩
    · rcases List.mem_append.mp hop with hop | hop
      · simp only [State.outstanding, Ledger.outstanding, State.issuedBy, List.mem_filter] at hop
        exact List.mem_filter.mpr ⟨hop.1.1, (called_of_owns hop.1.2).trans (decide_eq_true rfl)⟩
      · obtain ⟨hmem, hcalled⟩ := List.mem_filter.mp hop
        exact List.mem_filter.mpr ⟨h.conserved.completed_subset hmem, hcalled⟩
  have hlen := hsub.length_le
  rwa [List.length_append, ← List.countP_eq_length_filter, ← List.countP_eq_length_filter] at hlen

end Servers

/-! ## 4. The limiter -/

section Limiter

@[simp] theorem aquire_maxRequest (l : RateLimit) : (aquire l).maxRequest = l.maxRequest := by
  rw [aquire, RateLimit.addRequest_maxRequest]

@[simp] theorem aquire_request (l : RateLimit) : (aquire l).request = l.request + 1 := rfl

@[simp] theorem release_maxRequest (l : RateLimit) : (release l).maxRequest = l.maxRequest := by
  rw [release, RateLimit.addRequest_maxRequest]

@[simp] theorem release_request (l : RateLimit) : (release l).request = l.request + -1 := rfl

@[simp] theorem maxRequest_iterate (n : Nat) (l : RateLimit) :
    (release^[n] l).maxRequest = l.maxRequest := by
  induction n with
  | zero => rfl
  | succ n ih => rw [Function.iterate_succ_apply', release_maxRequest, ih]

/-- As many releases as the counter shows, or fewer. -/
theorem request_iterate {n : Nat} {l : RateLimit} (h : n ≤ l.request.toNat) :
    (release^[n] l).request.toNat + n = l.request.toNat := by
  induction n with
  | zero => exact Nat.add_zero _
  | succ n ih =>
    have hle := ih (by omega)
    rw [Function.iterate_succ_apply', release_request, RateLimit.toNat_pred (by omega)]
    omega

variable {cfg : Cfg Srv} {s s' : Avocado.State Srv}

/-- The counter shows the operations of the server that are under way, and its threads that are
behind `aquire` (`held`). -/
def Balanced (s : Avocado.State Srv) (x : Srv) (l : RateLimit) (held : Nat) : Prop :=
  l.request.toNat + s.completed.countP (State.called s x)
    = held + s.issued.countP (State.called s x)

/-- **A step of the servers keeps the balance**: an operation that is called was held, and one that
ends is released. -/
theorem Balanced.settle {x y : Srv} {t held : Nat} {l : RateLimit} {opened ended : List Nat}
    (h : Balanced s x l (held + if y = x then opened.length else 0)) (ha : Accounts cfg.abd s)
    (ha' : Accounts cfg.abd s') (ht : Table s s') (hb : Books s s' y t opened ended)
    (hown : ∀ op ∈ opened ++ ended, s'.owns y t op = true) :
    Balanced s' x (release^[State.rets s s' x] l) held ∧
      (release^[State.rets s s' x] l).request.toNat ≤ l.request.toNat := by
  have hopened := fun op hop => hown op (List.mem_append_left _ hop)
  have hended := fun op hop => hown op (List.mem_append_right _ hop)
  have hissued : s'.issued.countP (State.called s' x)
      = s.issued.countP (State.called s x) + if y = x then opened.length else 0 := by
    rw [hb.issued]
    exact countP_called ht ha.known hopened x
  have hcompleted : s'.completed.countP (State.called s' x)
      = s.completed.countP (State.called s x) + State.rets s s' x := by
    rw [hb.completed, rets_of_books hb hended]
    exact countP_called ht (fun op hop => ha.known op (ha.conserved.completed_subset hop)) hended x
  have hle := ended_le_called ha' x
  rw [Balanced] at h ⊢
  have hreleased := request_iterate (n := State.rets s s' x) (l := l) (by omega)
  constructor <;> omega

end Limiter

/-! ## 5. The invariant -/

section Frames

variable {cfg : Cfg Srv} {s : State Srv} {abd : Avocado.State Srv} {x : Srv} {th : Nat}

omit [DecidableEq Srv] in
theorem lt_of_commands (h : cfg.commands x th ≠ []) : th < (cfg.traces x).length := by
  by_contra hle
  refine h ?_
  rw [Cfg.commands, List.getElem?_eq_none (Nat.le_of_not_lt hle), Option.getD_none]

/-- The threads of a server that are behind `aquire`. -/
def State.held (cfg : Cfg Srv) (s : State Srv) (x : Srv) : Nat :=
  ∑ th ∈ Finset.range (cfg.traces x).length, if s.aquired x th then 1 else 0

theorem held_setAquired (hlt : th < (cfg.traces x).length) (b : Bool) (y : Srv) :
    (s.setAquired x th b).held cfg y + (if y = x ∧ s.aquired x th then 1 else 0)
      = s.held cfg y + if y = x ∧ b then 1 else 0 := by
  by_cases hy : y = x
  · subst hy
    have hplace := Tally.sum_add_of_ne (f := fun t => if (s.setAquired y th b).aquired y t then 1
      else 0) (g := fun t => if s.aquired y t then 1 else 0) (Finset.mem_range.mpr hlt)
      fun d _ hne => by simp [State.setAquired, hne]
    have hself : (s.setAquired y th b).aquired y th = b := if_pos ⟨rfl, rfl⟩
    simp only [hself] at hplace
    simp only [true_and]
    exact hplace
  · have hsame : (s.setAquired x th b).held cfg y = s.held cfg y := by
      simp [State.held, State.setAquired, hy]
    simp [hsame, hy]

/-- The operations that a thread has called, after a step. -/
theorem issuedBy_of_books {s s' : Avocado.State Srv} {y : Srv} {t : Nat} {opened ended : List Nat}
    (ha : Accounts cfg.abd s) (ht : Table s s') (hb : Books s s' y t opened ended)
    (hown : ∀ op ∈ opened ++ ended, s'.owns y t op = true) (x : Srv) (th : Nat) :
    s'.issuedBy x th = s.issuedBy x th ++ if x = y ∧ th = t then opened else [] := by
  rw [State.issuedBy, hb.issued, filter_owns ht ha.known fun op hop =>
    hown op (List.mem_append_left _ hop), State.issuedBy]

theorem length_issuedBy {s s' : Avocado.State Srv} {y : Srv} {t : Nat} {opened ended : List Nat}
    (ha : Accounts cfg.abd s) (ht : Table s s') (hb : Books s s' y t opened ended)
    (hown : ∀ op ∈ opened ++ ended, s'.owns y t op = true) (x : Srv) (th : Nat) :
    (s'.issuedBy x th).length
      = (s.issuedBy x th).length + if x = y ∧ th = t then opened.length else 0 := by
  rw [issuedBy_of_books ha ht hb hown, List.length_append]
  split <;> rfl

/-- No call moves a thread. -/
theorem pc_of_issue {cmd : TraceCmd} (hm : Moved cfg.abd s.abd (call cfg x th cmd) abd) (y : Srv)
    (t : Nat) : abd.pc y t = s.abd.pc y t := by
  rcases turns_of_moved hm y t with hsame | hturn
  · exact hsame
  · obtain ⟨op, key⟩ := cmd
    generalize abd.pc y t = q at hturn
    cases op <;> cases hturn

/-- A thread that is behind `aquire` stays out of the continuations. -/
theorem pc_of_deliver {b : Avocado.Action Srv} (hm : Moved cfg.abd s.abd b abd)
    (hbusy : s.busy b = false) (haq : s.aquired x th = true) (hidle : s.abd.pc x th = .idle) :
    abd.pc x th = .idle := by
  rcases turns_of_moved hm x th with hsame | hturn
  · rw [hsame, hidle]
  · generalize abd.pc x th = q at hturn ⊢
    cases hturn with
    | enter hi hc hpc hr hcont =>
      simp only [State.busy, hi, hc, Option.any_some] at hbusy
      exact absurd (haq.symm.trans hbusy) (by simp)
    | kvGet hpc hc hd =>
      rcases hpc with ⟨hpc, -⟩ | ⟨hpc, -⟩ <;> exact absurd (hidle.symm.trans hpc) (by simp)
    | choose hpc | send hpc => exact absurd (hidle.symm.trans hpc) (by simp)
    | store hpc | report hpc => rfl

end Frames

/-- What the benchmark is started with, for the operations to end. -/
structure Cfg.Ok (cfg : Cfg Srv) : Prop where
  package : cfg.abd.maxPackageSize < 2 ^ 62
  limit : 0 < cfg.maxRequest
  groups : ∀ k ≠ [], ∃ g, GroupOfThree cfg.abd k g
  keys : ∀ x th, ∀ cmd ∈ cfg.commands x th,
    cmd.keyHash ≠ [] ∧ cfg.abd.holds cmd.keyHash cfg.valueSize = true

/-- What holds in every state of a benchmark. -/
structure Sound (cfg : Cfg Srv) (s : State Srv) : Prop where
  sturdy : Sturdy cfg.abd s.abd
  idle : ∀ x th, s.aquired x th = true → s.abd.pc x th = .idle ∧ s.todo x th ≠ []
  suffix : ∀ x th, s.todo x th <:+ cfg.commands x th
  issued : ∀ x th,
    (s.abd.issuedBy x th).length + (s.todo x th).length = (cfg.commands x th).length
  max : ∀ x, (s.rate x).maxRequest = cfg.maxRequest
  le_max : ∀ x, (s.rate x).request.toNat ≤ cfg.maxRequest.toNat
  balanced : ∀ x, Balanced s.abd x (s.rate x) (s.held cfg x)

section Steps

variable {cfg : Cfg Srv} {s s' : State Srv} {abd : Avocado.State Srv} {x : Srv} {th : Nat}

theorem Sound.init (cfg : Cfg Srv) : Sound cfg (State.init cfg) where
  sturdy := sturdy_of_run .refl
  idle _ _ h := absurd h (by simp [State.init])
  suffix _ _ := List.suffix_refl _
  issued x th := Nat.zero_add _
  max _ := rfl
  le_max _ := Nat.zero_le _
  balanced x := by
    have hheld : (State.init cfg).held cfg x = 0 := Finset.sum_const_zero
    rw [hheld]
    rfl

/-- A thread with commands to go is one of its server's. -/
theorem Sound.lt_of_todo (h : Sound cfg s) (hne : s.todo x th ≠ []) :
    th < (cfg.traces x).length := by
  refine lt_of_commands fun hnil => hne ?_
  have hsuffix := h.suffix x th
  rw [hnil, List.suffix_nil] at hsuffix
  exact hsuffix

theorem Sound.aquire (h : Sound cfg s) (hidle : s.abd.pc x th = .idle)
    (haq : s.aquired x th = false) (htodo : s.todo x th ≠ [])
    (hlt : (s.rate x).request < (s.rate x).maxRequest) :
    Sound cfg ((s.setRate x (aquire (s.rate x))).setAquired x th true) := by
  have hsucc := RateLimit.toNat_succ hlt
  have hlt' : (s.rate x).request.toNat < cfg.maxRequest.toNat := h.max x ▸ hlt
  refine ⟨h.sturdy, fun y t hy => ?_, h.suffix, h.issued, fun y => ?_, fun y => ?_, fun y => ?_⟩
  · simp only [State.setAquired] at hy
    split at hy
    · rename_i heq
      rw [heq.1, heq.2]
      exact ⟨hidle, htodo⟩
    · exact h.idle y t hy
  · by_cases hy : y = x
    · subst hy
      simp [State.setAquired, State.setRate, h.max]
    · simp [State.setAquired, State.setRate, hy, h.max]
  · by_cases hy : y = x
    · subst hy
      simp only [State.setAquired, State.setRate, Function.update_self, aquire_request]
      omega
    · simpa [State.setAquired, State.setRate, hy] using h.le_max y
  · have hheld : ((s.setRate x (Benchmark.aquire (s.rate x))).setAquired x th true).held cfg y
        = s.held cfg y + if y = x then 1 else 0 := by
      have hplace := held_setAquired (s := s.setRate x (Benchmark.aquire (s.rate x)))
        (h.lt_of_todo htodo) true y
      have haq' : (s.setRate x (Benchmark.aquire (s.rate x))).aquired x th = false := haq
      simp only [haq', Bool.false_eq_true, and_false, if_false, and_true] at hplace
      exact hplace
    have hbal := h.balanced y
    rw [hheld]
    by_cases hy : y = x
    · subst hy
      simp only [Balanced, State.setAquired, State.setRate, Function.update_self, aquire_request,
        hsucc, if_true] at hbal ⊢
      omega
    · simpa [Balanced, State.setAquired, State.setRate, hy] using hbal

omit [DecidableEq Srv] in
theorem small_of_deliver {b : Avocado.Action Srv} (h : b.isCall = false) :
    small cfg.abd s.abd b = true := by
  cases b with
  | put | get => exact absurd h (by simp [Action.isCall])
  | request | response | advance => rfl

/-- The limiters after a step of the servers. -/
theorem Sound.settle (h : Sound cfg s) {b : Avocado.Action Srv} {z y : Srv} {u held : Nat}
    {opened ended : List Nat} (hm : Moved cfg.abd s.abd b abd) (hs : Sturdy cfg.abd abd)
    (hb : Books s.abd abd z u opened ended)
    (hown : ∀ op ∈ opened ++ ended, abd.owns z u op = true)
    (hheld : s.held cfg y = held + if z = y then opened.length else 0) :
    ((s.settle abd).rate y).maxRequest = cfg.maxRequest ∧
      ((s.settle abd).rate y).request.toNat ≤ cfg.maxRequest.toNat ∧
      Balanced abd y ((s.settle abd).rate y) held := by
  have hbal := h.balanced y
  rw [hheld] at hbal
  obtain ⟨hbal', hle⟩ := hbal.settle h.sturdy.accounts hs.accounts (table_of_moved hm) hb hown
  exact ⟨(maxRequest_iterate _ _).trans (h.max y), hle.trans (h.le_max y), hbal'⟩

theorem Sound.deliver (h : Sound cfg s) {b : Avocado.Action Srv} (hb : b.isCall = false)
    (hbusy : s.busy b = false) (hm : Moved cfg.abd s.abd b abd) : Sound cfg (s.settle abd) := by
  have hs := h.sturdy.step (small_of_deliver hb) hm
  obtain ⟨z, u, ended, hbooks, hown⟩ := books_of_deliver h.sturdy.accounts.inv hm hb
  have hheld : ∀ y, s.held cfg y
      = s.held cfg y + if z = y then ([] : List Nat).length else 0 := by simp
  have hrate := fun y => h.settle hm hs hbooks hown (hheld y)
  refine ⟨hs, fun y t hy => ?_, h.suffix, fun y t => ?_, fun y => (hrate y).1,
    fun y => (hrate y).2.1, fun y => (hrate y).2.2⟩
  · obtain ⟨hidle, htodo⟩ := h.idle y t hy
    exact ⟨pc_of_deliver hm hbusy hy hidle, htodo⟩
  · have hlen := length_issuedBy h.sturdy.accounts (table_of_moved hm) hbooks hown y t
    rw [List.length_nil, ite_self, Nat.add_zero] at hlen
    have hold := h.issued y t
    rw [← hlen] at hold
    exact hold

omit [DecidableEq Srv] in
theorem small_of_issue {cmd : TraceCmd} (h : cfg.abd.holds cmd.keyHash cfg.valueSize = true) :
    small cfg.abd s.abd (call cfg x th cmd) = true := by
  have hle := holds_iff.mp h
  unfold call
  cases cmd.op with
  | put => rwa [small, List.length_replicate]
  | get => exact holds_iff.mpr ⟨by omega, hle.2⟩

theorem Sound.issue (h : Sound cfg s) (hok : cfg.Ok) {cmd : TraceCmd} {rest : List TraceCmd}
    (haq : s.aquired x th = true) (htodo : s.todo x th = cmd :: rest)
    (hm : Moved cfg.abd s.abd (call cfg x th cmd) abd) :
    Sound cfg (((s.settle abd).setTodo x th rest).setAquired x th false) := by
  have hsuffix := h.suffix x th
  rw [htodo] at hsuffix
  have hholds := (hok.keys x th cmd (hsuffix.mem List.mem_cons_self)).2
  have hs := h.sturdy.step (small_of_issue hholds) hm
  obtain ⟨ended, hbooks, hown⟩ := books_of_issue hm
  have hheld : ∀ y, s.held cfg y
      = (((s.settle abd).setTodo x th rest).setAquired x th false).held cfg y
        + if x = y then [s.abd.ctxs.length].length else 0 := by
    intro y
    have hplace := held_setAquired (s := (s.settle abd).setTodo x th rest)
      (h.lt_of_todo (by rw [htodo]; simp)) false y
    have haq' : ((s.settle abd).setTodo x th rest).aquired x th = true := haq
    simp only [haq', Bool.false_eq_true, and_false, if_false, and_true, Nat.add_zero] at hplace
    rw [List.length_singleton, if_congr eq_comm rfl rfl]
    exact hplace.symm
  have hrate := fun y => h.settle hm hs hbooks hown (hheld y)
  refine ⟨hs, fun y t hy => ?_, fun y t => ?_, fun y t => ?_, fun y => (hrate y).1,
    fun y => (hrate y).2.1, fun y => (hrate y).2.2⟩
  · simp only [State.setAquired, State.setTodo] at hy ⊢
    split at hy
    · exact absurd hy (by simp)
    · rename_i hne
      rw [if_neg hne]
      obtain ⟨hidle, hcmds⟩ := h.idle y t hy
      exact ⟨(pc_of_issue hm y t).trans hidle, hcmds⟩
  · simp only [State.setAquired, State.setTodo]
    split
    · rename_i hy
      rw [hy.1, hy.2]
      exact (List.suffix_cons cmd rest).trans hsuffix
    · exact h.suffix y t
  · have hlen := length_issuedBy h.sturdy.accounts (table_of_moved hm) hbooks hown y t
    have hold := h.issued y t
    simp only [State.setAquired, State.setTodo]
    split at hlen
    · rename_i hy
      obtain ⟨rfl, rfl⟩ := hy
      rw [if_pos ⟨rfl, rfl⟩]
      rw [htodo, List.length_cons] at hold
      simp only [State.settle, hlen, List.length_singleton]
      omega
    · rename_i hne
      rw [if_neg hne]
      simp only [State.settle, hlen, Nat.add_zero]
      exact hold

theorem Sound.step {a : Action Srv} (h : Sound cfg s) (hok : cfg.Ok)
    (hstep : step cfg s a = some s') : Sound cfg s' := by
  rcases step_cases hstep with ⟨x, th, -, hidle, haq, htodo, hlt, rfl⟩ |
    ⟨x, th, cmd, rest, abd, -, haq, htodo, hm, rfl⟩ | ⟨b, abd, -, hb, hbusy, hm, rfl⟩
  · exact h.aquire hidle haq htodo hlt
  · exact h.issue hok haq htodo hm
  · exact h.deliver hb hbusy hm

/-- The thread is past its traces: it has called all its operations, and they have ended. -/
structure Past (s : State Srv) (x : Srv) (th : Nat) : Prop where
  todo : s.todo x th = []
  completed : ∀ op ∈ s.abd.issuedBy x th, op ∈ s.abd.completed

/-- **A thread without commands whose `load_traces` is 0 is past its traces**: the limiter keeps the
operations below the `2 ^ 64` at which the counter is 0 again. -/
theorem Sound.past_of_traces (h : Sound cfg s) (htodo : s.todo x th = [])
    (htraces : s.abd.traces x th = 0) : Past s x th := by
  have hacc := h.sturdy.accounts
  refine ⟨htodo, outstanding_eq_nil_iff.mp ?_⟩
  have hle := outstanding_add_ended_le hacc x th
  have hbal := h.balanced x
  have hmax := h.le_max x
  have hbound := cfg.maxRequest.isLt
  have hheld : s.abd.issued.countP (State.called s.abd x) ≤
      (s.rate x).request.toNat + s.abd.completed.countP (State.called s.abd x) := by
    rw [Balanced] at hbal
    omega
  have hzero : (s.abd.outstanding x th).length % 2 ^ 64 = 0 := by
    rw [hacc.traces_eq] at htraces
    simpa using congrArg BitVec.toNat htraces
  rw [Nat.mod_eq_of_lt (by omega)] at hzero
  exact List.length_eq_zero_iff.mp hzero

/-- And stays so. -/
theorem Past.step {a : Action Srv} (hpast : Past s x th) (h : Sound cfg s)
    (hstep : step cfg s a = some s') : Past s' x th := by
  have hacc := h.sturdy.accounts
  have hsettle : ∀ {abd : Avocado.State Srv} {y : Srv} {t : Nat} {opened ended : List Nat},
      Table s.abd abd → Books s.abd abd y t opened ended →
      (∀ op ∈ opened ++ ended, abd.owns y t op = true) → (x = y ∧ th = t → opened = []) →
      ∀ op ∈ abd.issuedBy x th, op ∈ abd.completed := by
    intro abd y t opened ended ht hb hown hnone op hop
    have hsame : abd.issuedBy x th = s.abd.issuedBy x th := by
      rw [issuedBy_of_books hacc ht hb hown]
      split
      · rename_i hy
        rw [hnone hy, List.append_nil]
      · exact List.append_nil _
    rw [hb.completed]
    exact List.mem_append_left _ (hpast.completed op (hsame ▸ hop))
  rcases step_cases hstep with ⟨y, t, -, -, -, -, -, rfl⟩ |
    ⟨y, t, cmd, rest, abd, -, haq, htodo, hm, rfl⟩ | ⟨b, abd, -, hb, hbusy, hm, rfl⟩
  · exact ⟨hpast.todo, hpast.completed⟩
  · obtain ⟨ended, hbooks, hown⟩ := books_of_issue hm
    -- the thread that calls has a command
    have hne : ¬ (x = y ∧ th = t) := by
      rintro ⟨rfl, rfl⟩
      exact absurd (hpast.todo.symm.trans htodo) (by simp)
    exact ⟨(if_neg hne).trans hpast.todo,
      hsettle (table_of_moved hm) hbooks hown fun hy => absurd hy hne⟩
  · obtain ⟨y, t, ended, hbooks, hown⟩ := books_of_deliver hacc.inv hm hb
    exact ⟨hpast.todo, hsettle (table_of_moved hm) hbooks hown fun _ => rfl⟩

/-! ## 6. What is left to do -/

/-- What a thread has to do: for each command one step to get past `aquire`, one to call the
operation, and the 12 that a call brings. -/
def State.leftOf (s : State Srv) (x : Srv) (th : Nat) : Nat :=
  14 * (s.todo x th).length - if s.aquired x th then 1 else 0

/-- What there is to do. -/
def State.left [Fintype Srv] (cfg : Cfg Srv) (s : State Srv) : Nat :=
  s.abd.work + ∑ x, ∑ th ∈ Finset.range (cfg.traces x).length, s.leftOf x th

/-- All commands of all threads. -/
def Cfg.nCommands [Fintype Srv] (cfg : Cfg Srv) : Nat :=
  ∑ x, ∑ th ∈ Finset.range (cfg.traces x).length, (cfg.commands x th).length

variable [Fintype Srv]

omit [DecidableEq Srv] in
theorem left_init : (State.init cfg).left cfg = 14 * cfg.nCommands := by
  have hwork : (State.init cfg).abd.work = 0 := rfl
  rw [State.left, hwork, Nat.zero_add, Cfg.nCommands, Finset.mul_sum]
  refine Finset.sum_congr rfl fun x _ => ?_
  rw [Finset.mul_sum]
  exact Finset.sum_congr rfl fun th _ => rfl

/-- One thread has less to do, with what the servers have to do for it. -/
theorem left_of_thread (hlt : th < (cfg.traces x).length)
    (h : ∀ y t, ¬ (y = x ∧ t = th) → s'.leftOf y t = s.leftOf y t)
    (hless : s'.abd.work + s'.leftOf x th < s.abd.work + s.leftOf x th) :
    s'.left cfg < s.left cfg := by
  have hthread := Tally.sum_add_of_ne (f := fun t => s'.leftOf x t) (g := fun t => s.leftOf x t)
    (Finset.mem_range.mpr hlt) fun t _ hne => h x t fun heq => hne heq.2
  have hserver := Tally.sum_add_of_ne
    (f := fun y => ∑ t ∈ Finset.range (cfg.traces y).length, s'.leftOf y t)
    (g := fun y => ∑ t ∈ Finset.range (cfg.traces y).length, s.leftOf y t)
    (Finset.mem_univ x) fun y _ hne => Finset.sum_congr rfl fun t _ => h y t fun heq => hne heq.1
  rw [State.left, State.left]
  omega

omit [Fintype Srv] in
theorem brings_le (hok : cfg.Ok) {cmd : TraceCmd} (hkey : cmd.keyHash ≠ []) :
    (call cfg x th cmd).brings cfg.abd ≤ 12 := by
  obtain ⟨g, hg⟩ := hok.groups _ hkey
  obtain ⟨reps, hreps, -, hsize⟩ := hg.exists_reps x
  have hle : reps.length ≤ 2 := by
    split at hsize <;> omega
  unfold call
  cases cmd.op with
  | put | get =>
    simp only [Action.brings, hreps, Option.getD_some]
    omega

/-- **Every step leaves less to do.** -/
theorem left_step {a : Action Srv} (h : Sound cfg s) (hok : cfg.Ok)
    (hstep : step cfg s a = some s') : s'.left cfg < s.left cfg := by
  have hacc := h.sturdy.accounts
  rcases step_cases hstep with ⟨x, th, -, -, haq, htodo, -, rfl⟩ |
    ⟨x, th, cmd, rest, abd, -, haq, htodo, hm, rfl⟩ | ⟨b, abd, -, hb, hbusy, hm, rfl⟩
  · refine left_of_thread (h.lt_of_todo htodo) (fun y t hne => ?_) (Nat.add_lt_add_left ?_ _)
    · simp only [State.leftOf, State.setAquired, State.setRate, if_neg hne]
    · have hpos := List.length_pos_iff.mpr htodo
      simp only [State.leftOf, State.setAquired, State.setRate, haq, and_self, if_true,
        Bool.false_eq_true, if_false]
      omega
  · have hsuffix := h.suffix x th
    rw [htodo] at hsuffix
    have hkey := (hok.keys x th cmd (hsuffix.mem List.mem_cons_self)).1
    have hbrings : (call cfg x th cmd).brings cfg.abd ≤ 12 := brings_le hok hkey
    have hwork := work_step hacc.inv hacc.counted hm
    have hcall : (call cfg x th cmd).isCall = true := by
      unfold call
      cases cmd.op <;> rfl
    rw [if_pos hcall] at hwork
    refine left_of_thread (h.lt_of_todo (by rw [htodo]; simp)) (fun y t hne => ?_) ?_
    · simp only [State.leftOf, State.setAquired, State.setTodo, State.settle, if_neg hne]
    · simp only [State.leftOf, State.setAquired, State.setTodo, State.settle, haq, and_self,
        if_true, htodo, List.length_cons, Bool.false_eq_true, if_false]
      omega
  · have hwork := work_step hacc.inv hacc.counted hm
    have hbrings : b.brings cfg.abd = 0 := by
      cases b with
      | put | get => exact absurd hb (by simp [Action.isCall])
      | request | response | advance => rfl
    rw [hb, hbrings, if_neg Bool.false_ne_true] at hwork
    exact Nat.add_lt_add_right hwork _

/-! ## 7. Nobody waits for ever -/

/-- All threads have issued all their commands, and `load_traces` is 0. -/
structure Drained (cfg : Cfg Srv) (s : State Srv) : Prop where
  todo : ∀ x th, s.todo x th = []
  issued : ∀ x th, (s.abd.issuedBy x th).length = (cfg.commands x th).length
  completed : ∀ op ∈ s.abd.issued, op ∈ s.abd.completed
  traces : ∀ x th, s.abd.traces x th = 0

omit [Fintype Srv] in
theorem Sound.drained_of_todo (h : Sound cfg s)
    (hcompleted : ∀ op ∈ s.abd.issued, op ∈ s.abd.completed) (htodo : ∀ x th, s.todo x th = []) :
    Drained cfg s where
  todo := htodo
  issued x th := by
    have hissued := h.issued x th
    rw [htodo, List.length_nil, Nat.add_zero] at hissued
    exact hissued
  completed := hcompleted
  traces x th := by
    rw [h.sturdy.accounts.traces_eq, outstanding_eq_nil_iff.mpr fun op hop =>
      hcompleted op (List.mem_filter.mp hop).1]
    rfl

omit [Fintype Srv] in
/-- A thread that is behind `aquire` can call its operation. -/
theorem Sound.exists_issue (h : Sound cfg s) (hok : cfg.Ok) (haq : s.aquired x th = true) :
    ∃ t, Benchmark.step cfg s (.issue x th) = some t := by
  obtain ⟨hidle, hne⟩ := h.idle x th haq
  obtain ⟨cmd, rest, htodo⟩ := List.exists_cons_of_ne_nil hne
  have hsuffix := h.suffix x th
  rw [htodo] at hsuffix
  obtain ⟨hkey, hholds⟩ := hok.keys x th cmd (hsuffix.mem List.mem_cons_self)
  obtain ⟨g, hg⟩ := hok.groups _ hkey
  obtain ⟨reps, hreps, -⟩ := hg.exists_reps x
  have hroom := (holds_iff.mp hholds).1
  have hpkg := hok.package
  obtain ⟨abd, habd⟩ : ∃ abd, Avocado.step cfg.abd s.abd (call cfg x th cmd) = some abd :=
    exists_call hidle hreps (by omega)
  simp only [Benchmark.step, haq, htodo, habd, Option.bind_eq_bind, Option.bind_some]
  exact ⟨_, rfl⟩

omit [Fintype Srv] in
/-- An event loop can do what the servers can, when no thread is behind `aquire`. -/
theorem exists_deliver {b : Avocado.Action Srv} (haq : ∀ x th, s.aquired x th = false)
    (hcall : b.isCall = false) (hb : ∃ abd, Avocado.step cfg.abd s.abd b = some abd) :
    ∃ t, step cfg s (.deliver b) = some t := by
  have hbusy : s.busy b = false := by
    unfold State.busy
    split
    · split
      · simp [haq]
      · rfl
    · rfl
  obtain ⟨abd, habd⟩ := hb
  simp only [step, hcall, hbusy, and_self, if_true, habd, Option.bind_eq_bind, Option.bind_some]
  exact ⟨_, rfl⟩

omit [Fintype Srv] in
/-- When all operations have ended the counter is 0, and a thread can get past `aquire`. -/
theorem Sound.exists_aquire (h : Sound cfg s) (hok : cfg.Ok) (haq : ∀ x th, s.aquired x th = false)
    (hcompleted : ∀ op ∈ s.abd.issued, op ∈ s.abd.completed) (hidle : s.abd.pc x th = .idle)
    (htodo : s.todo x th ≠ []) : ∃ t, Benchmark.step cfg s (.aquire x th) = some t := by
  have hheld : s.held cfg x = 0 := by
    simp [State.held, haq]
  have hbal := h.balanced x
  have hle : s.abd.issued.countP (State.called s.abd x)
      ≤ s.abd.completed.countP (State.called s.abd x) :=
    (h.sturdy.accounts.nodup.subperm hcompleted).countP_le _
  rw [Balanced, hheld] at hbal
  have hlt : (s.rate x).request < (s.rate x).maxRequest := by
    have hpos : 0 < cfg.maxRequest.toNat := hok.limit
    have hzero : (s.rate x).request.toNat = 0 := by omega
    rw [BitVec.lt_def, h.max, hzero]
    exact hpos
  exact ⟨_, if_pos ⟨hidle, haq x th, htodo, hlt⟩⟩

omit [Fintype Srv] in
/-- **When nothing can be done, all is done.** -/
theorem Sound.drained (h : Sound cfg s) (hok : cfg.Ok)
    (hstuck : ∀ a, Benchmark.step cfg s a = none) : Drained cfg s := by
  have hacc := h.sturdy.accounts
  have hnone : ∀ {a}, ¬ ∃ t, Benchmark.step cfg s a = some t := by
    rintro a ⟨t, ht⟩
    exact absurd ((hstuck a).symm.trans ht) (by simp)
  have haq : ∀ x th, s.aquired x th = false := by
    intro x th
    by_contra haq
    exact hnone (h.exists_issue hok (Bool.not_eq_false _ ▸ haq))
  have hstalled : Stalled cfg.abd (fun _ => true) s.abd := by
    intro b hlive
    have hcall : b.isCall = false := by
      simp only [live, Bool.and_eq_true, Bool.not_eq_true'] at hlive
      exact hlive.1
    by_contra hb
    exact hnone (exists_deliver haq hcall (Option.ne_none_iff_exists'.mp hb))
  have hcompleted : ∀ op ∈ s.abd.issued, op ∈ s.abd.completed := by
    intro op hop
    obtain ⟨ctx, hc⟩ := hacc.known op hop
    refine hstalled.completed h.sturdy hok.package (fun k hk => ?_) hop hc rfl
    obtain ⟨g, hg⟩ := hok.groups k hk
    exact ⟨g, hg, by simp⟩
  refine h.drained_of_todo hcompleted fun x th => ?_
  by_contra hne
  exact hnone (h.exists_aquire hok haq hcompleted
    (hstalled.idle h.sturdy hok.package (x := x) rfl th) hne)

/-- **The benchmark comes to its end.**  However the threads of all servers are scheduled, there is
not more to do than 14 steps for each command, no server has more than `max_request` operations
under way, and something can be done until all threads are past their traces. -/
theorem drains_of_schedule (hok : cfg.Ok) {as : List (Action Srv)}
    (h : Run.exec (step cfg) (State.init cfg) as = some s) :
    as.length ≤ 14 * cfg.nCommands ∧
      (∀ x, s.abd.issued.countP (State.called s.abd x)
        ≤ s.abd.completed.countP (State.called s.abd x) + cfg.maxRequest.toNat) ∧
      ((∃ a t, step cfg s a = some t) ∨ Drained cfg s) := by
  obtain ⟨hs, hle⟩ := Run.length_le (I := Sound cfg) (f := State.left cfg)
    (fun x a y hx hxy => ⟨hx.step hok hxy, left_step hx hok hxy⟩) h (.init cfg)
  rw [left_init] at hle
  refine ⟨by omega, fun x => ?_, ?_⟩
  · have hbal := hs.balanced x
    have hmax := hs.le_max x
    rw [Balanced] at hbal
    omega
  · by_cases hstuck : ∀ a, step cfg s a = none
    · exact Or.inr (hs.drained hok hstuck)
    · obtain ⟨a, ha⟩ := Classical.not_forall.mp hstuck
      obtain ⟨t, ht⟩ := Option.ne_none_iff_exists'.mp ha
      exact Or.inl ⟨a, t, ht⟩

end Steps

/-- Three servers: one with two commands, one with one, one with none.  One operation of a server
may be under way. -/
def trio : Cfg Trio where
  abd := Avocado.trio
  traces
    | .first => [[⟨.put, trioKey⟩, ⟨.get, trioKey⟩]]
    | .second => [[⟨.get, trioKey⟩]]
    | .third => []
  valueSize := 16
  maxRequest := 1

theorem ok_trio : trio.Ok where
  package := by decide
  limit := by decide
  groups := groups_trio
  keys x th cmd hcmd := by
    have hall : ∀ x, ∀ cmds ∈ trio.traces x, ∀ cmd ∈ cmds, cmd.keyHash = trioKey := by decide
    have hkey : cmd.keyHash = trioKey := by
      unfold Cfg.commands at hcmd
      cases hcmds : (trio.traces x)[th]? with
      | none => exact absurd hcmd (by simp [hcmds])
      | some cmds =>
        rw [hcmds, Option.getD_some] at hcmd
        exact hall x cmds (List.mem_of_getElem? hcmds) cmd hcmd
    rw [hkey]
    decide

/-- The first server puts and then gets, when the put has ended; the second one is about to get. -/
def putThenGets : List (Action Trio) :=
  [.aquire .first 0, .issue .first 0] ++
    [.request 0, .response 1, .advance .first 0, .advance .first 0, .advance .first 0,
      .advance .first 0, .request 1, .response 2].map .deliver ++
    [.aquire .first 0, .issue .first 0, .aquire .second 0]

theorem drains_of_schedule_trio : ∃ s, Run.exec (step trio) (State.init trio) putThenGets = some s ∧
    13 ≤ 14 * trio.nCommands ∧
      (∀ x, s.abd.issued.countP (State.called s.abd x)
        ≤ s.abd.completed.countP (State.called s.abd x) + 1) ∧
      ((∃ a t, step trio s a = some t) ∨ Drained trio s) := by
  obtain ⟨s, hs⟩ := Option.isSome_iff_exists.mp
    (show (Run.exec (step trio) (State.init trio) putThenGets).isSome = true by decide +kernel)
  exact ⟨s, hs, drains_of_schedule ok_trio hs⟩

end Avocado.Benchmark
