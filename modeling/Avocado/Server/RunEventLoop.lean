/-
# The whole of `run_event_loop` (`server.cpp`)

`Server/Benchmark.lean` has the commands of all threads and takes it for granted that a request
finds somebody to handle it.  `Server/Finish.lean` has the DONE that a thread sends when its
commands have come back, and takes it for granted that they do.  Here the two run together, and
neither is taken for granted: a thread handles requests, DONEs and responses in its event loop only,
so not while it is inside a continuation or between `aquire` and its operation, and not when it has
returned; and it sends DONE when it has no commands left and `load_traces` is 0.

The halves need each other.  Operations end because nobody leaves whom a thread with operations
still needs (`past_of_left_of_exec`), which is what the DONEs are for; and a thread gets to send
DONE because its operations end.  So a benchmark runs to its end, every command issued, every
operation ended and every thread returned, exactly when the servers have the same number of threads
and no smaller number is read out of an address (`runsToEnd_iff`).

A request of thread `i` goes to the thread that `i` has its session with.  The two parts do not
share packets: DONE and its answer carry no key, and the operations know nothing of phases.
-/
import Avocado.Server.Benchmark
import Avocado.Server.Deployment

namespace Avocado.RunEventLoop

open Benchmark (Drained Past)
open Finish (Deployment)

/-! ## 1. The code -/

/-- What the servers are started with. -/
structure Cfg (S : Type) where
  bench : Benchmark.Cfg S
  deployment : Deployment S
  /-- `create_threads` has commands for each thread, -/
  length_traces : ∀ x, (bench.traces x).length = (deployment.nThread x).toNat
  /-- and `run_event_loop` asserts that there are some. -/
  traces_ne_nil : ∀ x, [] ∉ bench.traces x

/-- A thread: its server and its `local_id`. -/
abbrev Thread (S : Type) := Σ _ : S, ℕ

structure State (S : Type) where
  bench : Benchmark.State S
  finish : Finish.State (Thread S)

/-- A step with a command or an operation, or one of `init`, DONE and the return. -/
inductive Action (S : Type)
  | bench (a : Benchmark.Action S)
  | finish (a : Finish.Action (Thread S))

def State.init {S : Type} (cfg : Cfg S) : State S := ⟨.init cfg.bench, .init _⟩

/-- The thread that takes the step. -/
def actor {P : Type} (s : Finish.State P) : Finish.Action P → Option P
  | .connect p | .start p | .finish p | .leave p | .ret p => some p
  | .request i => match s.net[i]? with
    | some (.request _ dst _) => some dst
    | _ => none
  | .response i => match s.net[i]? with
    | some (.response src _ _) => some src
    | _ => none

variable {S : Type} [Fintype S] [DecidableEq S]

/-- The threads and who they have sessions with. -/
def Cfg.finish (cfg : Cfg S) : Finish.Cfg (Thread S) := cfg.deployment.cfg

/-- The thread of server `dst` that `p` has a session with. -/
def Cfg.handler (cfg : Cfg S) (p : Thread S) (dst : S) : Option (Thread S) :=
  (cfg.finish.replicasInfos p).find? fun q => q.1 = dst

namespace State

/-- The thread is where it can get into its event loop. -/
def inLoop (s : State S) (p : Thread S) : Bool :=
  s.bench.abd.pc p.1 p.2 = .idle && !s.bench.aquired p.1 p.2

/-- The event loop of the thread runs. -/
def polls (cfg : Cfg S) (s : State S) (p : Thread S) : Bool :=
  cfg.finish.serves s.finish p && s.inLoop p

/-- Whether the threads are where they can take the step. -/
def allows (cfg : Cfg S) (s : State S) : Action S → Bool
  | .bench (.aquire x th) => (s.finish.thread ⟨x, th⟩).phase = .working
  | .bench (.deliver (.request i)) => match s.bench.abd.net[i]? with
    | some (.request c dst _ _) => s.bench.abd.ctxs[c]?.any fun ctx =>
      (cfg.handler ⟨ctx.srv, ctx.thread⟩ dst).any (s.polls cfg)
    | _ => false
  | .bench (.deliver (.response i)) => match s.bench.abd.net[i]? with
    | some (.response c _ _) => s.bench.abd.ctxs[c]?.any fun ctx =>
      s.polls cfg ⟨ctx.srv, ctx.thread⟩
    | _ => false
  -- a thread that is behind `aquire` or inside a continuation goes on
  | .bench (.issue _ _) | .bench (.deliver _) => true
  | .finish a => (actor s.finish a).any s.inLoop && match a with
    | .finish p => (s.bench.todo p.1 p.2).isEmpty && s.bench.abd.traces p.1 p.2 == 0
    | _ => true

end State

/-- A step of one of the two parts. -/
def move (cfg : Cfg S) (s : State S) : Action S → Option (State S)
  | .bench a => (Benchmark.step cfg.bench s.bench a).map fun bench => { s with bench }
  | .finish a => (Finish.step cfg.finish s.finish a).map fun finish => { s with finish }

/-- One step; `none` when the action is not enabled. -/
def step (cfg : Cfg S) : State S → Action S → Option (State S) :=
  Run.guard (State.allows cfg) (move cfg)

variable {cfg : Cfg S} {s s' : State S}

/-- **What a step can do**: one of the parts moves, and a thread that sends DONE has no commands
left and sees `load_traces` at 0. -/
theorem step_cases {a : Action S} (h : step cfg s a = some s') :
    (∃ b t, a = .bench b ∧ s.allows cfg (.bench b) = true ∧
      Benchmark.step cfg.bench s.bench b = some t ∧ s' = { s with bench := t }) ∨
    (∃ b t, a = .finish b ∧ Finish.Moved cfg.finish s.finish b t ∧
      (∀ p, b = .finish p → s.bench.todo p.1 p.2 = [] ∧ s.bench.abd.traces p.1 p.2 = 0) ∧
      s' = { s with finish := t }) := by
  obtain ⟨hallows, hmove⟩ := Run.guard_eq_some.mp h
  cases a with
  | bench b =>
    obtain ⟨t, ht, rfl⟩ := Option.map_eq_some_iff.mp hmove
    exact Or.inl ⟨b, t, rfl, hallows, ht, rfl⟩
  | finish b =>
    obtain ⟨t, ht, rfl⟩ := Option.map_eq_some_iff.mp hmove
    refine Or.inr ⟨b, t, rfl, Finish.step_cases ht, ?_, rfl⟩
    rintro p rfl
    simp only [State.allows, Bool.and_eq_true, List.isEmpty_iff, beq_iff_eq] at hallows
    exact hallows.2

/-! ## 2. The invariant -/

/-- What holds in every state. -/
structure Inv (cfg : Cfg S) (s : State S) : Prop where
  sound : Benchmark.Sound cfg.bench s.bench
  finish : Finish.Inv cfg.finish s.finish
  /-- A thread that has sent DONE is past its traces. -/
  past : ∀ p, (s.finish.thread p).phase.told = true → Past s.bench p.1 p.2

theorem Inv.init : Inv cfg (State.init cfg) where
  sound := .init cfg.bench
  finish := .init
  past p h := absurd h (by simp [State.init, Finish.State.init, Finish.Phase.told])

theorem Inv.step {a : Action S} (h : Inv cfg s) (hok : cfg.bench.Ok)
    (hstep : step cfg s a = some s') : Inv cfg s' := by
  rcases step_cases hstep with ⟨b, t, -, -, ht, rfl⟩ | ⟨b, t, -, hm, hready, rfl⟩
  · exact ⟨h.sound.step hok ht, h.finish, fun p hp => (h.past p hp).step h.sound ht⟩
  · refine ⟨h.sound, h.finish.step hm, fun p hp => ?_⟩
    rcases Finish.told_of_moved hm hp with htold | rfl
    · exact h.past p htold
    · obtain ⟨htodo, htraces⟩ := hready p rfl
      exact h.sound.past_of_traces htodo htraces

/-! ## 3. What is left to do -/

/-- What there is to do: for the commands and operations, and from `init` to the return. -/
def State.left (cfg : Cfg S) (s : State S) : ℕ := s.bench.left cfg.bench + s.finish.work cfg.finish

/-- What a benchmark starts with: 14 steps for each command; and for each thread 4, and 3 for each
other server. -/
def Cfg.work (cfg : Cfg S) : ℕ :=
  14 * cfg.bench.nCommands +
    ∑ p ∈ cfg.finish.threads, (3 * (cfg.finish.replicasInfos p).length + 4)

omit [DecidableEq S] in
theorem left_init : (State.init cfg).left cfg = cfg.work := by
  have hbench : (State.init cfg).bench.left cfg.bench = 14 * cfg.bench.nCommands :=
    Benchmark.left_init
  rw [State.left, hbench]
  rfl

theorem inv_and_left_step (hok : cfg.bench.Ok) (s : State S) (a : Action S) (s' : State S)
    (h : Inv cfg s) (hstep : step cfg s a = some s') : Inv cfg s' ∧ s'.left cfg < s.left cfg := by
  refine ⟨h.step hok hstep, ?_⟩
  rcases step_cases hstep with ⟨b, t, -, -, ht, rfl⟩ | ⟨b, t, -, hm, -, rfl⟩
  · exact Nat.add_lt_add_right (Benchmark.left_step h.sound hok ht) _
  · exact Nat.add_lt_add_left (Finish.work_step h.finish hm) _

theorem inv_of_exec (hok : cfg.bench.Ok) {as : List (Action S)}
    (h : Run.exec (step cfg) (State.init cfg) as = some s) : Inv cfg s :=
  (Run.length_le (inv_and_left_step hok) h .init).1

/-! ## 4. Who handles a request -/

omit [DecidableEq S] in
theorem mem_threads {x : S} {th : ℕ} :
    (⟨x, th⟩ : Thread S) ∈ cfg.finish.threads ↔ th < (cfg.bench.traces x).length := by
  rw [Cfg.finish, Finish.mem_threads, cfg.length_traces]

omit [Fintype S] in
/-- A thread that has called an operation is one of its server's. -/
theorem lt_of_issued {cfg : Benchmark.Cfg S} {s : Benchmark.State S} (h : Benchmark.Sound cfg s)
    {x : S} {th op : ℕ} (hop : op ∈ s.abd.issuedBy x th) : th < (cfg.traces x).length := by
  refine Benchmark.lt_of_commands fun hnil => ?_
  have hissued := h.issued x th
  have hpos := List.length_pos_of_mem hop
  rw [hnil, List.length_nil] at hissued
  omega

/-- **A thread has a session with every other server.** -/
theorem exists_handler {p : Thread S} (hp : p ∈ cfg.finish.threads) {dst : S} (hne : dst ≠ p.1) :
    ∃ q, cfg.handler p dst = some q ∧ q ∈ cfg.finish.replicasInfos p := by
  obtain ⟨x, th⟩ := p
  have hlt : th < (cfg.deployment.nThread x).toNat := (Finish.mem_threads _).mp hp
  have hmem : (⟨dst, th % cfg.deployment.divisor dst⟩ : Thread S)
      ∈ cfg.finish.replicasInfos ⟨x, th⟩ := by
    rw [Cfg.finish, Finish.replicasInfos_eq _ hlt]
    exact List.mem_map_of_mem ((cfg.deployment.mem_others x dst).mpr hne)
  obtain ⟨q, hq⟩ := Option.isSome_iff_exists.mp
    (List.find?_isSome.mpr ⟨_, hmem, decide_eq_true rfl⟩ : (cfg.handler ⟨x, th⟩ dst).isSome = true)
  exact ⟨q, hq, List.mem_of_find?_eq_some hq⟩

/-! ## 5. Nobody waits for ever -/

/-- No thread can take a step. -/
def Stuck (cfg : Cfg S) (s : State S) : Prop := ∀ a, step cfg s a = none

section Stuck

variable (hstuck : Stuck cfg s) (h : Inv cfg s) (hok : cfg.bench.Ok)

include hstuck

theorem Stuck.not_bench {b : Benchmark.Action S} (hallows : s.allows cfg (.bench b) = true) :
    ¬ ∃ t, Benchmark.step cfg.bench s.bench b = some t := by
  rintro ⟨t, ht⟩
  have hsome : step cfg s (.bench b) = some { s with bench := t } :=
    Run.guard_eq_some.mpr ⟨hallows, by rw [move, ht, Option.map_some]⟩
  exact absurd ((hstuck _).symm.trans hsome) (by simp)

include h hok

theorem Stuck.aquired (x : S) (th : ℕ) : s.bench.aquired x th = false := by
  by_contra haq
  exact hstuck.not_bench rfl (h.sound.exists_issue hok (Bool.not_eq_false _ ▸ haq))

theorem Stuck.not_deliver {b : Avocado.Action S} (hcall : b.isCall = false)
    (hallows : s.allows cfg (.bench (.deliver b)) = true) :
    ¬ ∃ abd, Avocado.step cfg.bench.abd s.bench.abd b = some abd := fun hb =>
  hstuck.not_bench hallows (Benchmark.exists_deliver (hstuck.aquired h hok) hcall hb)

theorem Stuck.idle (x : S) (th : ℕ) : s.bench.abd.pc x th = .idle := by
  have hs := h.sound.sturdy
  by_contra hpc
  exact hstuck.not_deliver h hok (b := .advance x th) rfl rfl
    (exists_advance (hs.sizes.fits hs.accounts.inv hok.package) hs.accounts.inv
      hs.accounts.counted hs.accounts.intact hpc)

theorem Stuck.inLoop (p : Thread S) : s.inLoop p = true := by
  simp [State.inLoop, hstuck.idle h hok, hstuck.aquired h hok]

theorem Stuck.polls {p : Thread S} (hp : p ∈ cfg.finish.threads)
    (hleft : (s.finish.thread p).phase.left ≠ true) : s.polls cfg p = true := by
  have hret : (s.finish.thread p).phase ≠ .returned := by
    intro hph
    rw [hph] at hleft
    exact hleft rfl
  simp [State.polls, Finish.Cfg.serves, hp, hret, hstuck.inLoop h hok]

variable (hdeg : cfg.finish.Balanced)

include hdeg

/-- **The threads that one with operations needs are there**, so nothing is in flight for it. -/
theorem Stuck.told_of_packet {p : Packet S} {ctx : Ctx S} (hp : p ∈ s.bench.abd.net)
    (hc : s.bench.abd.ctxs[p.ctx]? = some ctx)
    (howner : ⟨ctx.srv, ctx.thread⟩ ∈ cfg.finish.threads) :
    (s.finish.thread ⟨ctx.srv, ctx.thread⟩).phase.told = true := by
  have hs := h.sound.sturdy
  obtain ⟨i, hlt, hget⟩ := List.mem_iff_getElem.mp hp
  have hi : s.bench.abd.net[i]? = some p := List.getElem?_eq_some_iff.mpr ⟨hlt, hget⟩
  by_contra htold
  cases p with
  | request c dst type buf =>
    have hc' : s.bench.abd.ctxs[c]? = some ctx := hc
    -- the request goes to another server
    have hne : dst ≠ ctx.srv := by
      obtain ⟨ctx', hctx', hreq⟩ := hs.accounts.inv.net _ hp
      obtain rfl := Option.some.inj (hc'.symm.trans hctx')
      obtain ⟨g, hg⟩ := hok.groups ctx.key (key_ne_nil hs.accounts hc)
      exact (hg.of_contacts hreq.contacts).2.2
    obtain ⟨q, hq, hmem⟩ := exists_handler howner hne
    have hqt := Finish.mem_threads_of_balanced hdeg howner hmem
    have hpolls := hstuck.polls h hok hqt fun hleft =>
      htold ((h.finish.told_of_left hleft (hdeg q hqt).le).2 _ howner hmem)
    refine hstuck.not_deliver h hok (b := .request i) rfl ?_
      (exists_request (hs.sizes.fits hs.accounts.inv hok.package) hs.accounts.inv hi)
    simp [State.allows, hi, hc', hq, hpolls]
  | response c src buf =>
    have hc' : s.bench.abd.ctxs[c]? = some ctx := hc
    have hpolls := hstuck.polls h hok howner fun hleft => htold (Finish.Phase.told_of_left hleft)
    refine hstuck.not_deliver h hok (b := .response i) rfl ?_
      (exists_response hs.accounts.intact hi hc' (hstuck.idle h hok _ _))
    simp [State.allows, hi, hc', hpolls]

/-- **All operations have ended**: those of a thread that has sent DONE, by the time it did, and
those of another, whose responses have all arrived. -/
theorem Stuck.completed : ∀ op ∈ s.bench.abd.issued, op ∈ s.bench.abd.completed := by
  have hacc := h.sound.sturdy.accounts
  intro op hop
  obtain ⟨ctx, hc⟩ := hacc.known op hop
  have hmine : op ∈ s.bench.abd.issuedBy ctx.srv ctx.thread :=
    List.mem_filter.mpr ⟨hop, owns_of_getElem? hc⟩
  by_cases htold : (s.finish.thread ⟨ctx.srv, ctx.thread⟩).phase.told = true
  · exact (h.past _ htold).completed op hmine
  · have harrived : Arrived s.bench.abd op := by
      intro d ctx' hd hop' hcont
      obtain ⟨ctx₀, hc₀, hsrv, hthread⟩ := hacc.inv.caller_of_ctx hd hcont
      rw [hop', hc, Option.some.injEq] at hc₀
      subst hc₀
      refine ⟨?_, fun cont hin => ?_⟩
      · have hnone : inFlight s.bench.abd.net d = 0 := by
          refine List.countP_eq_zero.mpr fun p hp hpd => htold ?_
          rw [beq_iff_eq] at hpd
          rw [hsrv, hthread]
          refine hstuck.told_of_packet h hok hdeg hp (hpd ▸ hd) (mem_threads.mpr ?_)
          rw [← hsrv, ← hthread]
          exact lt_of_issued h.sound hmine
        have hflight := (hacc.counted.ctx d ctx' hd).flight
        omega
      · rw [hstuck.idle h hok] at hin
        exact absurd hin (by simp [Pc.inside])
    have hcons := hacc.conserved op
    rw [List.count_eq_one_of_mem hacc.nodup hop, waiting_of_arrived hacc.counted harrived,
      running_of_arrived hacc.inv harrived] at hcons
    exact List.count_pos_iff.mp (by omega)

/-- So the threads can send DONE, and nothing is left to do for that part either. -/
theorem Stuck.stalled : Finish.Stalled cfg.finish s.finish := by
  have hcompleted := hstuck.completed h hok hdeg
  intro b
  rw [← Option.not_isSome_iff_eq_none, Option.isSome_iff_exists]
  rintro ⟨t, ht⟩
  have hallows : s.allows cfg (.finish b) = true := by
    have hloop := hstuck.inLoop h hok
    cases Finish.step_cases ht with
    | @finish p text hp hph htext =>
      have htodo : s.bench.todo p.1 p.2 = [] := by
        by_contra hne
        exact hstuck.not_bench (b := .aquire p.1 p.2) (decide_eq_true hph)
          (h.sound.exists_aquire hok (hstuck.aquired h hok) hcompleted
            (hstuck.idle h hok p.1 p.2) hne)
      have htraces : s.bench.abd.traces p.1 p.2 = 0 := by
        rw [h.sound.sturdy.accounts.traces_eq, outstanding_eq_nil_iff.mpr fun op hop =>
          hcompleted op (List.mem_filter.mp hop).1]
        rfl
      simp [State.allows, actor, hloop, htodo, htraces]
    | connect | start | leave | ret => simp [State.allows, actor, hloop]
    | request hi | response hi => simp [State.allows, actor, hi, hloop]
  have hsome : step cfg s (.finish b) = some { s with finish := t } :=
    Run.guard_eq_some.mpr ⟨hallows, by rw [move, ht, Option.map_some]⟩
  exact absurd ((hstuck _).symm.trans hsome) (by simp)

end Stuck

/-! ## 6. The benchmark runs to its end -/

/-- However the threads are scheduled, there is an end to it, and then every command has been
issued, every operation has ended and every thread has returned. -/
def RunsToEnd (cfg : Cfg S) : Prop :=
  ∀ (as : List (Action S)) (s : State S), Run.exec (step cfg) (State.init cfg) as = some s →
    as.length ≤ cfg.work ∧ (Stuck cfg s → Drained cfg.bench s.bench ∧
      ∀ p ∈ cfg.finish.threads, (s.finish.thread p).phase = .returned)

omit [Fintype S] [DecidableEq S] in
theorem nontrivial_of_ok (hok : cfg.bench.Ok) : Nontrivial S := by
  obtain ⟨g, hg⟩ := hok.groups [0] (by simp)
  obtain ⟨x, -, y, -, hne⟩ := Finset.one_lt_card.mp (by rw [hg.card]; decide : 1 < g.card)
  exact ⟨x, y, hne⟩

theorem replicasInfos_ne_nil (hok : cfg.bench.Ok) {p : Thread S} (hp : p ∈ cfg.finish.threads) :
    cfg.finish.replicasInfos p ≠ [] := by
  have := nontrivial_of_ok hok
  obtain ⟨y, hy⟩ := exists_ne p.1
  obtain ⟨q, -, hq⟩ := exists_handler hp hy
  exact List.ne_nil_of_mem hq

theorem balanced_iff_sameThreads (hok : cfg.bench.Ok) :
    cfg.finish.Balanced ↔ cfg.deployment.SameThreads := by
  have := nontrivial_of_ok hok
  exact Finish.balanced_iff

/-- **The benchmark runs to its end exactly when** the servers have the same number of threads and
no smaller number is read out of an address. -/
theorem runsToEnd_iff (hok : cfg.bench.Ok) : RunsToEnd cfg ↔ cfg.deployment.SameThreads := by
  rw [← balanced_iff_sameThreads hok]
  constructor
  · intro hall
    by_contra hnot
    obtain ⟨q, hq, hlt⟩ := Finish.exists_lt_of_not_balanced hnot
    obtain ⟨as, s, hs, hstuck⟩ := Run.exists_stuck (inv_and_left_step hok) (.init : Inv cfg _)
    have hreturned := ((hall as s hs).2 hstuck).2 q hq
    have hstays := (inv_of_exec hok hs).finish.not_left hlt
    rw [hreturned] at hstays
    exact absurd hstays (by simp [Finish.Phase.left])
  · intro hdeg as s hs
    obtain ⟨h, hle⟩ := Run.length_le (inv_and_left_step hok) hs .init
    rw [left_init] at hle
    refine ⟨by omega, fun hstuck => ?_⟩
    have hcompleted := hstuck.completed h hok hdeg
    have hreturned := h.finish.returned_of_stalled hdeg
      (fun p hp => replicasInfos_ne_nil hok hp) (hstuck.stalled h hok hdeg)
    refine ⟨h.sound.drained_of_todo hcompleted fun x th => ?_, hreturned⟩
    by_contra hne
    have hp := mem_threads.mpr (h.sound.lt_of_todo hne)
    exact hne (h.past ⟨x, th⟩ (by rw [hreturned _ hp]; rfl)).todo

/-- **Nobody leaves too early**: when a thread is behind its last loop, the threads with a session
to it have no commands left, and all their operations have ended. -/
theorem past_of_left_of_exec (hok : cfg.bench.Ok) (hsame : cfg.deployment.SameThreads)
    {as : List (Action S)} (hs : Run.exec (step cfg) (State.init cfg) as = some s)
    {p q : Thread S} (hp : p ∈ cfg.finish.threads) (hq : q ∈ cfg.finish.replicasInfos p)
    (hleft : (s.finish.thread q).phase.left = true) : Past s.bench p.1 p.2 := by
  have h := inv_of_exec hok hs
  have hdeg := (balanced_iff_sameThreads hok).mpr hsame
  have hqt := Finish.mem_threads_of_balanced hdeg hp hq
  exact h.past p ((h.finish.told_of_left hleft (hdeg q hqt).le).2 p hp hq)

/-- `n` threads on each of three servers, which all have the same key to get. -/
def oneGetEach (n : ℕ) : Benchmark.Cfg Trio where
  abd := trio
  traces _ := List.replicate n [⟨.get, trioKey⟩]
  valueSize := 16
  maxRequest := 1

theorem ok_oneGetEach (n : ℕ) : (oneGetEach n).Ok where
  package := (by decide : trio.maxPackageSize < 2 ^ 62)
  limit := (by decide : (0 : BitVec 64) < 1)
  groups := groups_trio
  keys x th cmd hcmd := by
    have hkey : cmd = ⟨.get, trioKey⟩ := by
      unfold Benchmark.Cfg.commands at hcmd
      cases hcmds : ((oneGetEach n).traces x)[th]? with
      | none => exact absurd hcmd (by simp [hcmds])
      | some cmds =>
        rw [hcmds, Option.getD_some,
          List.eq_of_mem_replicate (List.mem_of_getElem? hcmds)] at hcmd
        exact List.mem_singleton.mp hcmd
    rw [hkey]
    exact ⟨by decide, (by decide : trio.holds trioKey 16 = true)⟩

/-- These threads, on servers with the given addresses. -/
def threeServers (n : ℕ) (hpos : 0 < n) (hlt : n < 2 ^ 64) (hosts : Trio → String)
    (h : ∀ x, getNThreadsFromSvrInfo (hosts x).toList ≠ 0) : Cfg Trio where
  bench := oneGetEach n
  deployment :=
    { nThread := fun _ => BitVec.ofNat 64 n
      info := fun x => (hosts x).toList
      others := Trio.others
      nThread_ne_zero := fun _ hzero => by
        have hnat := congrArg BitVec.toNat hzero
        rw [BitVec.toNat_ofNat, Nat.mod_eq_of_lt hlt] at hnat
        exact absurd hnat hpos.ne'
      divisor_ne_zero := h
      others_nodup := by decide
      mem_others := by decide }
  length_traces _ := by
    rw [BitVec.toNat_ofNat, Nat.mod_eq_of_lt hlt]
    exact List.length_replicate
  traces_ne_nil _ hmem := absurd (List.eq_of_mem_replicate hmem) (by simp)

/-- Addresses from `.1` and from `.2` on. -/
def fromOne : Trio → String
  | .first => "10.0.0.1:31850:2"
  | .second => "10.0.0.2:31850:2"
  | .third => "10.0.0.3:31850:2"

def fromTwo : Trio → String
  | .first => "10.0.0.2:31850:2"
  | .second => "10.0.0.3:31850:2"
  | .third => "10.0.0.4:31850:2"

/-- Two threads on each of `10.0.0.2` to `10.0.0.4` run to their end, and on each of `10.0.0.1` to
`10.0.0.3` they do not. -/
theorem runsToEnd_iff_threeServers :
    RunsToEnd (threeServers 2 (by decide) (by decide) fromTwo (by decide)) ∧
      ¬ RunsToEnd (threeServers 2 (by decide) (by decide) fromOne (by decide)) := by
  rw [runsToEnd_iff (ok_oneGetEach 2), runsToEnd_iff (ok_oneGetEach 2)]
  refine ⟨⟨2, by decide⟩, ?_⟩
  rintro ⟨n, hn⟩
  obtain ⟨rfl, hle⟩ := hn .first
  exact absurd hle (by decide)

def oneThreadEach : Cfg Trio := threeServers 1 (by decide) (by decide) fromOne (by decide)

/-- A thread gets, and does not wait for the second answer. -/
def gets (x : Trio) (i : ℕ) : List (Action Trio) :=
  [.aquire x 0, .issue x 0, .deliver (.request i), .deliver (.response (i + 1)),
    .deliver (.advance x 0), .deliver (.advance x 0)].map .bench

/-- The first of three threads leaves, and a request of each is still in flight. -/
def firstLeaves : List (Action Trio) :=
  [Trio.first, .second, .third].flatMap (fun x =>
    [.finish (.connect ⟨x, 0⟩), .finish (.connect ⟨x, 0⟩), .finish (.start ⟨x, 0⟩)]) ++
  gets .first 0 ++ gets .second 1 ++ gets .third 2 ++
  [.finish ⟨.first, 0⟩, .finish ⟨.second, 0⟩, .finish ⟨.third, 0⟩, .request 3, .request 3,
    .request 0, .request 0, .response 4, .response 4, .leave ⟨.first, 0⟩].map .finish

theorem past_of_left_of_exec_firstLeaves : ∃ s,
    Run.exec (step oneThreadEach) (State.init oneThreadEach) firstLeaves = some s ∧
      Past s.bench .second 0 := by
  have hleft : ((Run.exec (step oneThreadEach) (State.init oneThreadEach) firstLeaves).any
      fun s => (s.finish.thread ⟨.first, 0⟩).phase.left) = true := by decide +kernel
  cases hs : Run.exec (step oneThreadEach) (State.init oneThreadEach) firstLeaves with
  | none => exact absurd hleft (by rw [hs]; simp)
  | some s =>
    rw [hs, Option.any_some] at hleft
    exact ⟨s, rfl, past_of_left_of_exec (ok_oneGetEach 1) ⟨1, by decide⟩ hs
      (p := ⟨.second, 0⟩) (q := ⟨.first, 0⟩) (by decide) (by decide) hleft⟩

end Avocado.RunEventLoop
