/-
# The threads leave together (`server.cpp`)

A thread of the benchmark whose commands have all come back must not leave: the others still send
it requests.  So it tells the threads it is connected to that it is done, with the command `DONE`,
and stays in its event loop until it has been told as often as it tells and has as many answers.

It does not look at who tells it, only at how often.  So the threads all leave when each is told as
often as it tells, and otherwise some thread waits forever (`allReturn_iff`).

The loop over the commands is not modelled here: it is taken to end, so a thread in it can finish.
(It does with at least three servers.  With two there are no groups, and `get_idx` divides by zero.)

Session management is not in the source.  A session to a thread is taken to be established when the
thread exists and runs its event loop, as `retry_connect_on_invalid_rpc_id` asks for.
-/
import Avocado.Abd.AnswerSize
import Avocado.Lib.Lookup
import Avocado.Lib.Run
import Avocado.Lib.Tally
import Mathlib.Algebra.Order.BigOperators.Group.Finset

namespace Avocado.Finish

open Bytes

/-! ## 1. The code -/

/-- Where a thread is in `run_event_loop`. -/
inductive Phase
  /-- In `init`, with `n` sessions; `sm_handler` has counted them in `connected`. -/
  | connecting (n : ℕ)
  /-- In the loop over its commands, or in the one behind it, with `load_traces() > 0`. -/
  | working
  /-- In `while (other_finished < others || others_ack < others)`. -/
  | waiting
  /-- Behind it, in `rpc.run_event_loop(10)`. -/
  | leaving
  | returned
  deriving DecidableEq, Repr

/-- A thread.  `nResp` belongs to the `ReplicaContext` of its only command. -/
structure Thread where
  phase : Phase := .connecting 0
  otherFinished : ℕ := 0
  nResp : ℕ := 0
  othersAck : ℕ := 0
  deriving DecidableEq, Repr

variable {P : Type}

/-- What is in flight: `src` tells `dst`, and `dst` answers `src`. -/
inductive Packet (P : Type)
  | request (src dst : P) (text : Msg)
  | response (src dst : P) (text : Msg)

structure State (P : Type) where
  thread : P → Thread
  net : List (Packet P)

def State.init (P : Type) : State P := ⟨fun _ => {}, []⟩

inductive Action (P : Type)
  | connect (p : P)
  | start (p : P)
  | finish (p : P)
  | request (i : ℕ)
  | response (i : ℕ)
  | leave (p : P)
  | ret (p : P)

/-- The message of `send_cmd`: the command as a key, with its zero. -/
def cmdMsg (command : List UInt8) : Option Msg := do
  let builder ← MsgBuilder.new (command.length + 1)
  let msg ← MsgBuilder.addKey builder (command ++ [0])
  msg.frame

/-- `"DONE"`. -/
def done : List UInt8 := [68, 79, 78, 69]

/-- The threads that were created, and `replicas_infos` of each. -/
structure Cfg (P : Type) where
  threads : Finset P
  replicasInfos : P → List P

variable [DecidableEq P]

def State.set (s : State P) (p : P) (t : Thread) : State P :=
  { s with thread := Function.update s.thread p t }

/-- The thread exists and its event loop runs. -/
def Cfg.serves (cfg : Cfg P) (s : State P) (p : P) : Bool :=
  decide (p ∈ cfg.threads) && (s.thread p).phase != .returned

/-- One step of the threads and the network. -/
def step (cfg : Cfg P) (s : State P) : Action P → Option (State P)
  -- `init`: the sessions are created one after the other
  | .connect p =>
    match (s.thread p).phase with
    | .connecting n => do
      let q ← (cfg.replicasInfos p)[n]?
      if p ∈ cfg.threads ∧ cfg.serves s q then
        some (s.set p { s.thread p with phase := .connecting (n + 1) })
      else none
    | _ => none
  | .start p =>
    if p ∈ cfg.threads ∧ (s.thread p).phase = .connecting (cfg.replicasInfos p).length then
      some (s.set p { s.thread p with phase := .working })
    else none
  -- the last operation has ended: `send_cmd("DONE")`, which looks at `nodes[0]`
  | .finish p => do
    let text ← cmdMsg done
    if p ∈ cfg.threads ∧ (s.thread p).phase = .working ∧ cfg.replicasInfos p ≠ [] then
      some { s.set p { s.thread p with phase := .waiting } with
        net := s.net ++ (cfg.replicasInfos p).map fun q => .request p q text }
    else none
  -- the callback `cmd`
  | .request i =>
    match s.net[i]? with
    | some (.request src dst text) => do
      let told ← isDone text
      let answer ← (cmdCallback text).bind Msg.frame
      let t := s.thread dst
      if cfg.serves s dst then
        some { s.set dst { t with
            otherFinished := if told then t.otherFinished + 1 else t.otherFinished } with
          net := s.net.eraseIdx i ++ [.response src dst answer] }
      else none
    | _ => none
  -- `req_conts<CmdRet>` and the callback `cmd_ret`
  | .response i =>
    match s.net[i]? with
    | some (.response src _ _) =>
      let t := s.thread src
      if cfg.serves s src then
        some { s.set src { t with nResp := t.nResp + 1, othersAck := t.nResp + 1 } with
          net := s.net.eraseIdx i }
      else none
    | _ => none
  | .leave p =>
    let t := s.thread p
    let others := (cfg.replicasInfos p).length
    if t.phase = .waiting ∧ ¬ (t.otherFinished < others ∨ t.othersAck < others) then
      some (s.set p { t with phase := .leaving })
    else none
  | .ret p =>
    if (s.thread p).phase = .leaving then some (s.set p { s.thread p with phase := .returned })
    else none

/-! ## 2. The steps -/

/-- The message that a thread sends. -/
def IsDone (text : Msg) : Prop :=
  isDone text = some true ∧ ((cmdCallback text).bind Msg.frame).isSome = true

theorem exists_cmdMsg_done : ∃ text, cmdMsg done = some text ∧ IsDone text := by
  have hall : (cmdMsg done).any (fun text =>
      (isDone text == some true) && ((cmdCallback text).bind Msg.frame).isSome) = true := by
    decide +kernel
  cases htext : cmdMsg done with
  | none => exact absurd hall (by rw [htext]; simp)
  | some text =>
    rw [htext, Option.any_some] at hall
    obtain ⟨hdone, hanswer⟩ := Bool.and_eq_true_iff.mp hall
    exact ⟨text, rfl, eq_of_beq hdone, hanswer⟩

variable {cfg : Cfg P} {s s' : State P}

@[simp] theorem set_net (s : State P) (p : P) (t : Thread) : (s.set p t).net = s.net := rfl

@[simp] theorem set_thread_self (s : State P) (p : P) (t : Thread) : (s.set p t).thread p = t :=
  Function.update_self _ _ _

theorem set_thread_of_ne (s : State P) {p q : P} (t : Thread) (h : q ≠ p) :
    (s.set p t).thread q = s.thread q := Function.update_of_ne h _ _

/-- What a step can do. -/
inductive Moved (cfg : Cfg P) (s : State P) : Action P → State P → Prop
  | connect {p n q} (hp : p ∈ cfg.threads) (hph : (s.thread p).phase = .connecting n)
      (hq : (cfg.replicasInfos p)[n]? = some q) :
      Moved cfg s (.connect p) (s.set p { s.thread p with phase := .connecting (n + 1) })
  | start {p} (hp : p ∈ cfg.threads)
      (hph : (s.thread p).phase = .connecting (cfg.replicasInfos p).length) :
      Moved cfg s (.start p) (s.set p { s.thread p with phase := .working })
  | finish {p text} (hp : p ∈ cfg.threads) (hph : (s.thread p).phase = .working)
      (htext : IsDone text) :
      Moved cfg s (.finish p) { s.set p { s.thread p with phase := .waiting } with
        net := s.net ++ (cfg.replicasInfos p).map fun q => .request p q text }
  | request {i src dst text told answer} (hi : s.net[i]? = some (.request src dst text))
      (htold : isDone text = some told) (hdst : cfg.serves s dst = true) :
      Moved cfg s (.request i) { s.set dst { s.thread dst with
          otherFinished := if told then (s.thread dst).otherFinished + 1
            else (s.thread dst).otherFinished } with
        net := s.net.eraseIdx i ++ [.response src dst answer] }
  | response {i src dst text} (hi : s.net[i]? = some (.response src dst text))
      (hsrc : cfg.serves s src = true) :
      Moved cfg s (.response i) { s.set src { s.thread src with
          nResp := (s.thread src).nResp + 1, othersAck := (s.thread src).nResp + 1 } with
        net := s.net.eraseIdx i }
  | leave {p} (hph : (s.thread p).phase = .waiting)
      (hfin : (cfg.replicasInfos p).length ≤ (s.thread p).otherFinished)
      (hack : (cfg.replicasInfos p).length ≤ (s.thread p).othersAck) :
      Moved cfg s (.leave p) (s.set p { s.thread p with phase := .leaving })
  | ret {p} (hph : (s.thread p).phase = .leaving) :
      Moved cfg s (.ret p) (s.set p { s.thread p with phase := .returned })

theorem step_cases {a : Action P} (h : step cfg s a = some s') : Moved cfg s a s' := by
  cases a with
  | connect p =>
    simp only [step] at h
    split at h
    · rename_i n hph
      obtain ⟨q, hq, h⟩ := Option.bind_eq_some_iff.mp h
      split at h
      · rename_i hp
        obtain rfl := Option.some.inj h
        exact .connect hp.1 hph hq
      · exact absurd h (by simp)
    · exact absurd h (by simp)
  | start p =>
    simp only [step] at h
    split at h
    · rename_i hp
      obtain rfl := Option.some.inj h
      exact .start hp.1 hp.2
    · exact absurd h (by simp)
  | finish p =>
    simp only [step] at h
    obtain ⟨text, htext, h⟩ := Option.bind_eq_some_iff.mp h
    obtain ⟨text', htext', hdone⟩ := exists_cmdMsg_done
    obtain rfl := Option.some.inj (htext.symm.trans htext')
    split at h
    · rename_i hp
      obtain rfl := Option.some.inj h
      exact .finish hp.1 hp.2.1 hdone
    · exact absurd h (by simp)
  | request i =>
    simp only [step] at h
    split at h
    · rename_i src dst text hi
      obtain ⟨told, htold, h⟩ := Option.bind_eq_some_iff.mp h
      obtain ⟨answer, -, h⟩ := Option.bind_eq_some_iff.mp h
      split at h
      · rename_i hdst
        obtain rfl := Option.some.inj h
        exact .request hi htold hdst
      · exact absurd h (by simp)
    · exact absurd h (by simp)
  | response i =>
    simp only [step] at h
    split at h
    · rename_i src dst text hi
      split at h
      · rename_i hsrc
        obtain rfl := Option.some.inj h
        exact .response hi hsrc
      · exact absurd h (by simp)
    · exact absurd h (by simp)
  | leave p =>
    simp only [step] at h
    split at h
    · rename_i hp
      obtain rfl := Option.some.inj h
      exact .leave hp.1 (by omega) (by omega)
    · exact absurd h (by simp)
  | ret p =>
    simp only [step] at h
    split at h
    · rename_i hp
      obtain rfl := Option.some.inj h
      exact .ret hp
    · exact absurd h (by simp)

/-! ## 3. The counters -/

/-- The thread has told the others. -/
def Phase.told : Phase → Bool
  | .connecting _ | .working => false
  | .waiting | .leaving | .returned => true

/-- The thread is behind the loop. -/
def Phase.left : Phase → Bool
  | .leaving | .returned => true
  | .connecting _ | .working | .waiting => false

theorem Phase.told_of_left {ph : Phase} (h : ph.left = true) : ph.told = true := by
  cases ph with
  | leaving | returned => rfl
  | connecting | working | waiting => exact absurd h (by simp [Phase.left])

/-- Only DONE makes a thread one that has told the others. -/
theorem told_of_moved {a : Action P} (h : Moved cfg s a s') {p : P}
    (htold : (s'.thread p).phase.told = true) :
    (s.thread p).phase.told = true ∨ a = .finish p := by
  have hset : ∀ {q : P} {t : Thread}, ((s.set q t).thread p).phase.told = true →
      (t.phase.told = true → (s.thread q).phase.told = true) →
      (s.thread p).phase.told = true := by
    intro q t h hq
    by_cases hp : p = q
    · rw [hp, set_thread_self] at h
      rw [hp]
      exact hq h
    · rwa [set_thread_of_ne _ _ hp] at h
  cases h with
  | connect hp hph hq => exact Or.inl (hset htold (by simp [Phase.told]))
  | start hp hph => exact Or.inl (hset htold (by simp [Phase.told]))
  | @finish q text hp hph htext =>
    by_cases hpq : p = q
    · exact Or.inr (hpq ▸ rfl)
    · simp only [set_thread_of_ne _ _ hpq] at htold
      exact Or.inl htold
  | request hi hdst => exact Or.inl (hset htold id)
  | response hi hsrc => exact Or.inl (hset htold id)
  | leave hph hfin hack => exact Or.inl (hset htold fun _ => by rw [hph]; rfl)
  | ret hph => exact Or.inl (hset htold fun _ => by rw [hph]; rfl)

/-- Who asked. -/
def Packet.src : Packet P → P
  | .request src _ _ | .response src _ _ => src

/-- The packet is a request to `q`. -/
def Packet.asks (q : P) : Packet P → Bool
  | .request _ dst _ => decide (dst = q)
  | .response _ _ _ => false

omit [DecidableEq P] in
@[simp] theorem src_request (p q : P) (text : Msg) : (Packet.request p q text).src = p := rfl

omit [DecidableEq P] in
@[simp] theorem src_response (p q : P) (text : Msg) : (Packet.response p q text).src = p := rfl

@[simp] theorem asks_request (p q r : P) (text : Msg) :
    (Packet.request p q text).asks r = decide (q = r) := rfl

@[simp] theorem asks_response (p q r : P) (text : Msg) :
    (Packet.response p q text).asks r = false := rfl

/-- How often the thread is told in the end. -/
def Cfg.indeg (cfg : Cfg P) (q : P) : ℕ := ∑ p ∈ cfg.threads, (cfg.replicasInfos p).count q

/-- How often the others have told it so far. -/
def State.told (cfg : Cfg P) (s : State P) (q : P) : ℕ :=
  ∑ p ∈ cfg.threads, if (s.thread p).phase.told then (cfg.replicasInfos p).count q else 0

/-- What holds of the counters in every state. -/
structure Inv (cfg : Cfg P) (s : State P) : Prop where
  /-- What a thread has been told it has counted, or it is on its way. -/
  finished : ∀ q, (s.thread q).otherFinished + s.net.countP (·.asks q) = s.told cfg q
  /-- Every answer has been counted, or something is on its way. -/
  answered : ∀ p, (s.thread p).nResp + s.net.countP (fun pkt => decide (pkt.src = p))
    = if (s.thread p).phase.told then (cfg.replicasInfos p).length else 0
  acks : ∀ p, (s.thread p).othersAck = (s.thread p).nResp
  left : ∀ p, (s.thread p).phase.left = true →
    (cfg.replicasInfos p).length ≤ (s.thread p).otherFinished ∧
      (cfg.replicasInfos p).length ≤ (s.thread p).nResp
  text : ∀ src dst text, .request src dst text ∈ s.net → IsDone text
  sessions : ∀ p n, (s.thread p).phase = .connecting n → n ≤ (cfg.replicasInfos p).length
  /-- Threads that do not exist do nothing. -/
  created : ∀ p, p ∉ cfg.threads → (s.thread p).phase = .connecting 0

theorem Inv.init : Inv cfg (State.init P) where
  finished q := by simp [State.told, State.init, Phase.told]
  answered p := by simp [State.init, Phase.told]
  acks p := rfl
  left p h := absurd h (by simp [State.init, Phase.left])
  text src dst text h := absurd h (by simp [State.init])
  sessions p n h := by
    obtain rfl : 0 = n := Phase.connecting.inj h
    exact Nat.zero_le _
  created p _ := rfl

/-- Nobody but `p` has moved. -/
theorem told_eq {p : P}
    (hother : ∀ q, q ≠ p → (s'.thread q).phase = (s.thread q).phase)
    (hself : (s'.thread p).phase.told = (s.thread p).phase.told) (q : P) :
    s'.told cfg q = s.told cfg q := by
  refine Finset.sum_congr rfl fun r _ => ?_
  by_cases hr : r = p
  · rw [hr, hself]
  · rw [hother r hr]

/-- A thread goes to a phase in which it has told the others as much as before. -/
theorem Inv.phase {p : P} {ph : Phase} (h : Inv cfg s) (hp : p ∈ cfg.threads)
    (htold : ph.told = (s.thread p).phase.told)
    (hleft : ph.left = true → (cfg.replicasInfos p).length ≤ (s.thread p).otherFinished ∧
      (cfg.replicasInfos p).length ≤ (s.thread p).nResp)
    (hsess : ∀ n, ph = .connecting n → n ≤ (cfg.replicasInfos p).length) :
    Inv cfg (s.set p { s.thread p with phase := ph }) := by
  have hsum : ∀ q, (s.set p { s.thread p with phase := ph }).told cfg q = s.told cfg q :=
    told_eq (fun q hq => by rw [set_thread_of_ne _ _ hq]) (by rw [set_thread_self]; exact htold)
  constructor
  · intro q
    rw [hsum, ← h.finished q]
    by_cases hq : q = p
    · rw [hq, set_thread_self, set_net]
    · rw [set_thread_of_ne _ _ hq, set_net]
  · intro q
    by_cases hq : q = p
    · rw [hq, set_thread_self, set_net]
      simp only [htold]
      exact h.answered p
    · rw [set_thread_of_ne _ _ hq, set_net]
      exact h.answered q
  · intro q
    by_cases hq : q = p
    · rw [hq, set_thread_self]
      exact h.acks p
    · rw [set_thread_of_ne _ _ hq]
      exact h.acks q
  · intro q
    by_cases hq : q = p
    · rw [hq, set_thread_self]
      exact hleft
    · rw [set_thread_of_ne _ _ hq]
      exact h.left q
  · exact h.text
  · intro q n
    by_cases hq : q = p
    · rw [hq, set_thread_self]
      exact hsess n
    · rw [set_thread_of_ne _ _ hq]
      exact h.sessions q n
  · intro q hq
    have hne : q ≠ p := fun hqp => hq (hqp ▸ hp)
    rw [set_thread_of_ne _ _ hne]
    exact h.created q hq

theorem countP_asks (l : List P) (p q : P) (text : Msg) :
    (l.map fun r => Packet.request p r text).countP (·.asks q) = l.count q := by
  rw [List.countP_map, List.count]
  exact List.countP_congr fun r _ => by simp

/-- A thread that tells the others. -/
theorem Inv.step_finish {p : P} {text : Msg} (h : Inv cfg s) (hp : p ∈ cfg.threads)
    (hph : (s.thread p).phase = .working) (htext : IsDone text) :
    Inv cfg { s.set p { s.thread p with phase := .waiting } with
      net := s.net ++ (cfg.replicasInfos p).map fun q => .request p q text } := by
  have htold : (s.thread p).phase.told = false := by rw [hph]; rfl
  have hsrc : ∀ q, ((cfg.replicasInfos p).map fun r => Packet.request p r text).countP
      (fun pkt => decide (pkt.src = q)) = if p = q then (cfg.replicasInfos p).length else 0 := by
    intro q
    rw [List.countP_map]
    by_cases hq : p = q
    · simp [Function.comp_def, hq]
    · simp [Function.comp_def, hq]
  constructor
  · intro q
    -- only the summand of `p` changes
    have hsum := Tally.sum_add_of_ne (s := cfg.threads)
      (f := fun r => if ((s.set p { s.thread p with phase := .waiting }).thread r).phase.told
        then (cfg.replicasInfos r).count q else 0)
      (g := fun r => if (s.thread r).phase.told then (cfg.replicasInfos r).count q else 0) hp
      fun r _ hr => by rw [set_thread_of_ne _ _ hr]
    have hwaits : Phase.waiting.told = true := rfl
    simp only [set_thread_self, htold, hwaits, if_true, Bool.false_eq_true, if_false,
      Nat.add_zero] at hsum
    have hold := h.finished q
    rw [List.countP_append, countP_asks]
    rw [State.told] at hold ⊢
    by_cases hq : q = p
    · simp only [hq, set_thread_self] at hsum hold ⊢
      omega
    · simp only [set_thread_of_ne _ _ hq] at hsum hold ⊢
      omega
  · intro q
    have hold := h.answered q
    rw [List.countP_append, hsrc]
    by_cases hq : q = p
    · rw [hq] at hold ⊢
      rw [htold] at hold
      simp only [Bool.false_eq_true, if_false, Nat.add_eq_zero_iff] at hold
      simp only [set_thread_self, Phase.told, if_true]
      omega
    · rw [if_neg (Ne.symm hq)]
      simp only [set_thread_of_ne _ _ hq, Nat.add_zero]
      exact hold
  · intro q
    by_cases hq : q = p
    · simp only [hq, set_thread_self]
      exact h.acks p
    · simp only [set_thread_of_ne _ _ hq]
      exact h.acks q
  · intro q
    by_cases hq : q = p
    · simp [hq, Phase.left]
    · simp only [set_thread_of_ne _ _ hq]
      exact h.left q
  · intro src dst text' hmem
    rcases List.mem_append.mp hmem with hmem | hmem
    · exact h.text src dst text' hmem
    · obtain ⟨r, -, hr⟩ := List.mem_map.mp hmem
      injection hr with h1 h2 h3
      exact h3 ▸ htext
  · intro q n
    by_cases hq : q = p
    · simp [hq]
    · simp only [set_thread_of_ne _ _ hq]
      exact h.sessions q n
  · intro q hq
    have hne : q ≠ p := fun hqp => hq (hqp ▸ hp)
    simp only [set_thread_of_ne _ _ hne]
    exact h.created q hq

/-- A thread whose counters change and whose phase does not. -/
theorem Inv.counters {p : P} {t : Thread} {net : List (Packet P)} (h : Inv cfg s)
    (hph : t.phase = (s.thread p).phase)
    (hfinished : ∀ q, ((s.set p t).thread q).otherFinished + net.countP (·.asks q)
      = (s.thread q).otherFinished + s.net.countP (·.asks q))
    (hanswered : ∀ q, ((s.set p t).thread q).nResp
        + net.countP (fun pkt => decide (pkt.src = q))
      = (s.thread q).nResp + s.net.countP fun pkt => decide (pkt.src = q))
    (hacks : t.othersAck = t.nResp)
    (hmono : (s.thread p).otherFinished ≤ t.otherFinished ∧ (s.thread p).nResp ≤ t.nResp)
    (htext : ∀ src dst text, .request src dst text ∈ net → .request src dst text ∈ s.net) :
    Inv cfg { s.set p t with net := net } := by
  have hphase : ∀ q, ((s.set p t).thread q).phase = (s.thread q).phase := by
    intro q
    by_cases hq : q = p
    · rw [hq, set_thread_self, hph]
    · rw [set_thread_of_ne _ _ hq]
  constructor
  · intro q
    have hsum : State.told cfg { s.set p t with net := net } q = s.told cfg q :=
      told_eq (p := p) (fun r _ => hphase r) (congrArg Phase.told (hphase p)) q
    rw [hsum, ← h.finished q]
    exact hfinished q
  · intro q
    simp only [hphase]
    rw [← h.answered q]
    exact hanswered q
  · intro q
    by_cases hq : q = p
    · simp only [hq, set_thread_self]
      exact hacks
    · simp only [set_thread_of_ne _ _ hq]
      exact h.acks q
  · intro q hq'
    have hold := h.left q (by rw [← hphase]; exact hq')
    by_cases hq : q = p
    · rw [hq] at hold ⊢
      simp only [set_thread_self]
      omega
    · simp only [set_thread_of_ne _ _ hq]
      exact hold
  · exact fun src dst text hmem => h.text src dst text (htext src dst text hmem)
  · intro q n hq
    exact h.sessions q n (by rw [← hphase]; exact hq)
  · exact fun q hq => (hphase q).trans (h.created q hq)

/-- The threads that have got further exist. -/
theorem Inv.exists_of_told {p : P} (h : Inv cfg s) (hph : (s.thread p).phase.told = true) :
    p ∈ cfg.threads := by
  by_contra hp
  rw [h.created p hp] at hph
  exact absurd hph (by simp [Phase.told])

theorem Inv.step {a : Action P} (h : Inv cfg s) (hm : Moved cfg s a s') : Inv cfg s' := by
  cases hm with
  | @connect p n q hp hph hq =>
    refine h.phase hp (by rw [hph]; rfl) (fun hl => absurd hl (by simp [Phase.left]))
      fun m hm => ?_
    obtain rfl := Phase.connecting.inj hm
    exact (List.getElem?_eq_some_iff.mp hq).1
  | @start p hp hph =>
    exact h.phase hp (by rw [hph]; rfl) (fun hl => absurd hl (by simp [Phase.left])) (by simp)
  | finish hp hph htext => exact h.step_finish hp hph htext
  | @request i src dst text told answer hi htold hdst =>
    have hdone := h.text src dst text (List.mem_of_getElem? hi)
    rw [IsDone, htold, Option.some.injEq] at hdone
    rw [if_pos hdone.1]
    refine h.counters rfl (fun q => ?_) (fun q => ?_) (h.acks dst) ⟨by simp, by simp⟩ ?_
    · have herase := Lookup.countP_eraseIdx_add (·.asks q) hi
      rw [List.countP_append]
      by_cases hq : q = dst
      · simp only [hq, set_thread_self, asks_request, asks_response, decide_true, if_true,
          List.countP_singleton, Bool.false_eq_true, if_false] at herase ⊢
        omega
      · have hne : ¬ dst = q := Ne.symm hq
        simp only [set_thread_of_ne _ _ hq, asks_request, asks_response, hne, decide_false,
          Bool.false_eq_true, if_false, List.countP_singleton] at herase ⊢
        omega
    · have herase := Lookup.countP_eraseIdx_add (fun pkt => decide (pkt.src = q)) hi
      have hresp : ((s.set dst { s.thread dst with
          otherFinished := (s.thread dst).otherFinished + 1 }).thread q).nResp
          = (s.thread q).nResp := by
        by_cases hq : q = dst
        · rw [hq, set_thread_self]
        · rw [set_thread_of_ne _ _ hq]
      rw [List.countP_append, List.countP_singleton, hresp]
      by_cases hsrc : src = q
      · simp only [src_request, src_response, hsrc, decide_true, if_true] at herase ⊢
        omega
      · simp only [src_request, src_response, hsrc, decide_false, Bool.false_eq_true, if_false]
          at herase ⊢
        omega
    · intro src' dst' text' hmem
      rcases List.mem_append.mp hmem with hmem | hmem
      · exact List.mem_of_mem_eraseIdx hmem
      · exact absurd (List.mem_singleton.mp hmem) (by simp)
  | @response i src dst text hi hsrc =>
    refine h.counters rfl (fun q => ?_) (fun q => ?_) rfl ⟨by simp, by simp⟩ ?_
    · have herase := Lookup.countP_eraseIdx_add (·.asks q) hi
      have hsame : ((s.set src { s.thread src with
          nResp := (s.thread src).nResp + 1
          othersAck := (s.thread src).nResp + 1 }).thread q).otherFinished
          = (s.thread q).otherFinished := by
        by_cases hq : q = src
        · rw [hq, set_thread_self]
        · rw [set_thread_of_ne _ _ hq]
      rw [hsame]
      simp only [asks_response, Bool.false_eq_true, if_false, Nat.add_zero] at herase
      rw [herase]
    · have herase := Lookup.countP_eraseIdx_add (fun pkt => decide (pkt.src = q)) hi
      by_cases hq : q = src
      · simp only [hq, set_thread_self, src_response, decide_true, if_true] at herase ⊢
        omega
      · have hne : ¬ src = q := Ne.symm hq
        simp only [set_thread_of_ne _ _ hq, src_response, hne, decide_false, Bool.false_eq_true,
          if_false, Nat.add_zero] at herase ⊢
        rw [herase]
    · exact fun src' dst' text' hmem => List.mem_of_mem_eraseIdx hmem
  | @leave p hph hfin hack =>
    have hp := h.exists_of_told (p := p) (by rw [hph]; rfl)
    refine h.phase hp (by rw [hph]; rfl) (fun _ => ⟨hfin, ?_⟩) (by simp)
    rw [← h.acks p]
    exact hack
  | @ret p hph =>
    have hp := h.exists_of_told (p := p) (by rw [hph]; rfl)
    exact h.phase hp (by rw [hph]; rfl) (fun _ => h.left p (by rw [hph]; rfl)) (by simp)

/-! ## 4. Nobody leaves too early -/

theorem told_le_indeg (cfg : Cfg P) (s : State P) (q : P) : s.told cfg q ≤ cfg.indeg q := by
  refine Finset.sum_le_sum fun p _ => ?_
  split
  · exact le_refl _
  · exact Nat.zero_le _

/-- **A thread that has left was told by all** that ever tell it, when it is told at most as often
as it tells, and nothing is on its way to it. -/
theorem Inv.told_of_left {q : P} (h : Inv cfg s) (hleft : (s.thread q).phase.left = true)
    (hdeg : cfg.indeg q ≤ (cfg.replicasInfos q).length) :
    s.net.countP (·.asks q) = 0 ∧
      ∀ p ∈ cfg.threads, q ∈ cfg.replicasInfos p → (s.thread p).phase.told = true := by
  have hfinished := h.finished q
  have hcount := (h.left q hleft).1
  have hle := told_le_indeg cfg s q
  refine ⟨by omega, fun p hp hq => ?_⟩
  have heq : s.told cfg q = cfg.indeg q := by omega
  have hall := (Finset.sum_eq_sum_iff_of_le fun r _ => ?_).mp heq p hp
  · by_contra hnot
    rw [if_neg hnot] at hall
    exact absurd (List.count_pos_iff.mpr hq) (by omega)
  · split
    · exact le_refl _
    · exact Nat.zero_le _

/-- **A thread that is told less often than it tells** never leaves. -/
theorem Inv.not_left {q : P} (h : Inv cfg s)
    (hdeg : cfg.indeg q < (cfg.replicasInfos q).length) : (s.thread q).phase.left = false := by
  rw [← Bool.not_eq_true]
  intro hleft
  have hfinished := h.finished q
  have hcount := (h.left q hleft).1
  have hle := told_le_indeg cfg s q
  omega

/-! ## 5. Every schedule ends -/

/-- What a thread has to do; `n` is how many it tells. -/
def Phase.work (n : ℕ) : Phase → ℕ
  | .connecting m => 3 * n + 4 - m
  | .working => 2 * n + 3
  | .waiting => 2
  | .leaving => 1
  | .returned => 0

def Packet.work : Packet P → ℕ
  | .request _ _ _ => 2
  | .response _ _ _ => 1

def State.work (cfg : Cfg P) (s : State P) : ℕ :=
  ∑ p ∈ cfg.threads, (s.thread p).phase.work (cfg.replicasInfos p).length
    + (s.net.map Packet.work).sum

/-- Only one thread moves. -/
theorem work_lt {p : P} {t : Thread} (hp : p ∈ cfg.threads)
    (hs : s'.thread = (s.set p t).thread)
    (hlt : t.phase.work (cfg.replicasInfos p).length + (s'.net.map Packet.work).sum
      < (s.thread p).phase.work (cfg.replicasInfos p).length + (s.net.map Packet.work).sum) :
    s'.work cfg < s.work cfg := by
  have hsum := Tally.sum_add_of_ne (s := cfg.threads)
    (f := fun q => (s'.thread q).phase.work (cfg.replicasInfos q).length)
    (g := fun q => (s.thread q).phase.work (cfg.replicasInfos q).length) hp
    fun q _ hq => by rw [hs, set_thread_of_ne _ _ hq]
  have hself : s'.thread p = t := by rw [hs, set_thread_self]
  simp only [hself] at hsum
  rw [State.work, State.work]
  omega

omit [DecidableEq P] in
theorem sum_work_requests (p : P) (l : List P) (text : Msg) :
    ((l.map fun q => Packet.request p q text).map Packet.work).sum = 2 * l.length := by
  simp [Function.comp_def, Packet.work, Nat.mul_comm]

/-- **Every step does some of the work.** -/
theorem work_step {a : Action P} (h : Inv cfg s) (hm : Moved cfg s a s') :
    s'.work cfg < s.work cfg := by
  cases hm with
  | @connect p n q hp hph hq =>
    have hlt := (List.getElem?_eq_some_iff.mp hq).1
    refine work_lt hp rfl (Nat.add_lt_add_right ?_ _)
    rw [hph, Phase.work, Phase.work]
    omega
  | @start p hp hph =>
    refine work_lt hp rfl (Nat.add_lt_add_right ?_ _)
    rw [hph, Phase.work, Phase.work]
    omega
  | @finish p text hp hph htext =>
    refine work_lt hp rfl ?_
    simp only [hph, Phase.work, List.map_append, List.sum_append, sum_work_requests]
    omega
  | @request i src dst text told answer hi htold hdst =>
    have herase := Tally.sum_map_eraseIdx Packet.work hi
    simp only [Packet.work] at herase
    refine work_lt (decide_eq_true_eq.mp (Bool.and_eq_true_iff.mp hdst).1) rfl
      (Nat.add_lt_add_left ?_ _)
    simp only [List.map_append, List.sum_append, List.map_singleton, List.sum_singleton,
      Packet.work]
    omega
  | @response i src dst text hi hsrc =>
    have herase := Tally.sum_map_eraseIdx Packet.work hi
    simp only [Packet.work] at herase
    refine work_lt (decide_eq_true_eq.mp (Bool.and_eq_true_iff.mp hsrc).1) rfl
      (Nat.add_lt_add_left ?_ _)
    show ((s.net.eraseIdx i).map Packet.work).sum < _
    omega
  | @leave p hph hfin hack =>
    refine work_lt (h.exists_of_told (by rw [hph]; rfl)) rfl (Nat.add_lt_add_right ?_ _)
    rw [hph, Phase.work, Phase.work]
    omega
  | @ret p hph =>
    refine work_lt (h.exists_of_told (by rw [hph]; rfl)) rfl (Nat.add_lt_add_right ?_ _)
    rw [hph, Phase.work, Phase.work]
    omega

theorem inv_and_work_step (cfg : Cfg P) (s : State P) (a : Action P) (s' : State P) (h : Inv cfg s)
    (ha : step cfg s a = some s') : Inv cfg s' ∧ s'.work cfg < s.work cfg :=
  ⟨h.step (step_cases ha), work_step h (step_cases ha)⟩

theorem inv_of_exec {as : List (Action P)}
    (hs : Run.exec (step cfg) (State.init P) as = some s) : Inv cfg s :=
  (Run.length_le (inv_and_work_step cfg) hs .init).1

/-! ## 6. When all of them return -/

/-- No thread can take a step. -/
def Stalled (cfg : Cfg P) (s : State P) : Prop := ∀ a, step cfg s a = none

/-- Every thread is told as often as it tells. -/
def Cfg.Balanced (cfg : Cfg P) : Prop :=
  ∀ q ∈ cfg.threads, cfg.indeg q = (cfg.replicasInfos q).length

instance (cfg : Cfg P) : Decidable cfg.Balanced :=
  inferInstanceAs (Decidable (∀ q ∈ cfg.threads, cfg.indeg q = (cfg.replicasInfos q).length))

section Balanced

variable (hdeg : cfg.Balanced)

include hdeg

/-- Then they are connected to threads that exist. -/
theorem mem_threads_of_balanced {p q : P} (hp : p ∈ cfg.threads)
    (hq : q ∈ cfg.replicasInfos p) : q ∈ cfg.threads := by
  have hsum : ∑ r ∈ cfg.threads, ∑ a ∈ cfg.threads, (cfg.replicasInfos r).count a
      = ∑ r ∈ cfg.threads, (cfg.replicasInfos r).length := by
    rw [Finset.sum_comm]
    exact Finset.sum_congr rfl hdeg
  have hall := (Finset.sum_eq_sum_iff_of_le fun r _ => Tally.sum_count_le _ _).mp hsum p hp
  exact Tally.mem_of_sum_count hall q hq

/-- When everybody waits or has returned, nothing is in flight. -/
theorem Inv.net_of_stalled (h : Inv cfg s) (hstalled : Stalled cfg s)
    (htold : ∀ p ∈ cfg.threads, (s.thread p).phase = .waiting ∨ (s.thread p).phase = .returned) :
    s.net = [] := by
  have hserves : ∀ {q : P}, q ∈ cfg.threads → (s.thread q).phase = .waiting →
      cfg.serves s q = true := by
    intro q hq hph
    simp [Cfg.serves, hq, hph]
  rw [List.eq_nil_iff_forall_not_mem]
  intro pkt hmem
  obtain ⟨i, hlt, hget⟩ := List.mem_iff_getElem.mp hmem
  have hi : s.net[i]? = some pkt := List.getElem?_eq_some_iff.mpr ⟨hlt, hget⟩
  cases pkt with
  | request src dst text =>
    have hpos : 0 < s.net.countP (·.asks dst) :=
      List.countP_pos_iff.mpr ⟨_, hmem, by simp⟩
    have hfinished := h.finished dst
    -- somebody tells `dst`, so it exists
    obtain ⟨p, hp, hcount⟩ : ∃ p ∈ cfg.threads, 0 < (cfg.replicasInfos p).count dst := by
      by_contra hnone
      push Not at hnone
      have hle := told_le_indeg cfg s dst
      have hzero : cfg.indeg dst = 0 :=
        Finset.sum_eq_zero fun p hp => Nat.le_zero.mp (hnone p hp)
      omega
    have hdst := mem_threads_of_balanced hdeg hp (List.count_pos_iff.mp hcount)
    rcases htold dst hdst with hph | hph
    · obtain ⟨hdone, hsome⟩ := h.text src dst text hmem
      obtain ⟨answer, hanswer⟩ := Option.isSome_iff_exists.mp hsome
      have hnone := hstalled (.request i)
      simp [Finish.step, hi, hdone, hanswer, hserves hdst hph] at hnone
    · have hzero := (h.told_of_left (by rw [hph]; rfl) (hdeg dst hdst).le).1
      omega
  | response src dst text =>
    have hpos : 0 < s.net.countP fun pkt => decide (pkt.src = src) :=
      List.countP_pos_iff.mpr ⟨_, hmem, by simp⟩
    have hanswered := h.answered src
    have hsrc : (s.thread src).phase.told = true := by
      by_contra hnot
      rw [if_neg hnot] at hanswered
      omega
    rcases htold src (h.exists_of_told hsrc) with hph | hph
    · have hnone := hstalled (.response i)
      simp [Finish.step, hi, hserves (h.exists_of_told hsrc) hph] at hnone
    · have hleft := (h.left src (by rw [hph]; rfl)).2
      rw [if_pos hsrc] at hanswered
      omega

/-- **Nobody waits in vain.** -/
theorem Inv.returned_of_stalled (h : Inv cfg s)
    (hne : ∀ p ∈ cfg.threads, cfg.replicasInfos p ≠ []) (hstalled : Stalled cfg s) :
    ∀ p ∈ cfg.threads, (s.thread p).phase = .returned := by
  have hserves : ∀ {q : P}, q ∈ cfg.threads → (s.thread q).phase ≠ .returned →
      cfg.serves s q = true := by
    intro q hq hph
    simp [Cfg.serves, hq, hph]
  -- nobody has left whom a thread has yet to tell
  have hearly : ∀ {p q : P}, p ∈ cfg.threads → q ∈ cfg.replicasInfos p →
      (s.thread p).phase.told = false → (s.thread q).phase ≠ .returned := by
    intro p q hp hq htold hret
    have hqt := mem_threads_of_balanced hdeg hp hq
    have hall := (h.told_of_left (by rw [hret]; rfl) (hdeg q hqt).le).2 p hp hq
    rw [htold] at hall
    exact absurd hall (by simp)
  obtain ⟨text, htext, hdone⟩ := exists_cmdMsg_done
  have htold : ∀ p ∈ cfg.threads, (s.thread p).phase = .waiting ∨
      (s.thread p).phase = .returned := by
    intro p hp
    cases hph : (s.thread p).phase with
    | connecting n =>
      rcases Nat.lt_or_ge n (cfg.replicasInfos p).length with hlt | hge
      · have hmem := List.getElem_mem hlt
        have hq := hserves (mem_threads_of_balanced hdeg hp hmem)
          (hearly hp hmem (by rw [hph]; rfl))
        have hnone := hstalled (.connect p)
        simp [Finish.step, hph, List.getElem?_eq_getElem hlt, hp, hq] at hnone
      · obtain rfl : n = (cfg.replicasInfos p).length :=
          Nat.le_antisymm (h.sessions p n hph) hge
        have hnone := hstalled (.start p)
        simp [Finish.step, hph, hp] at hnone
    | working =>
      have hnone := hstalled (.finish p)
      simp [Finish.step, htext, hph, hp, hne p hp] at hnone
    | waiting => exact Or.inl rfl
    | leaving =>
      have hnone := hstalled (.ret p)
      simp [Finish.step, hph] at hnone
    | returned => exact Or.inr rfl
  have hnet : s.net = [] := h.net_of_stalled hdeg hstalled htold
  intro p hp
  refine (htold p hp).resolve_left fun hwaiting => ?_
  -- all have told it, and all that is told has been counted
  have hfinished := h.finished p
  have hanswered := h.answered p
  have htotal : s.told cfg p = cfg.indeg p := by
    refine Finset.sum_congr rfl fun q hq => if_pos ?_
    rcases htold q hq with hph | hph <;> (rw [hph]; rfl)
  rw [hnet, List.countP_nil, Nat.add_zero, htotal, hdeg p hp] at hfinished
  rw [hnet, List.countP_nil, Nat.add_zero, hwaiting, Phase.told, if_pos rfl] at hanswered
  have hnone := hstalled (.leave p)
  have hacks := h.acks p
  simp only [Finish.step, hwaiting, hfinished, hacks, hanswered, Nat.lt_irrefl, or_self,
    not_false_eq_true, and_self, if_true] at hnone
  exact absurd hnone (by simp)

/-- **No thread leaves before those that are connected to it are done**: a thread that has left the
loop is one that nobody needs. -/
theorem told_of_left_of_exec {as : List (Action P)}
    (hs : Run.exec (step cfg) (State.init P) as = some s) {p q : P} (hp : p ∈ cfg.threads)
    (hq : q ∈ cfg.replicasInfos p) (hleft : (s.thread q).phase.left = true) :
    (s.thread p).phase.told = true :=
  ((inv_of_exec hs).told_of_left hleft
    (hdeg q (mem_threads_of_balanced hdeg hp hq)).le).2 p hp hq

end Balanced

/-- However the steps of the threads are ordered, there is an end to them, and then all threads have
returned. -/
def AllReturn (cfg : Cfg P) : Prop :=
  ∀ (as : List (Action P)) (s : State P), Run.exec (step cfg) (State.init P) as = some s →
    as.length ≤ ∑ p ∈ cfg.threads, (3 * (cfg.replicasInfos p).length + 4) ∧
      (Stalled cfg s → ∀ p ∈ cfg.threads, (s.thread p).phase = .returned)

/-- There is a thread that is told less often than it tells, unless all are told as often. -/
theorem exists_lt_of_not_balanced (h : ¬ cfg.Balanced) :
    ∃ q ∈ cfg.threads, cfg.indeg q < (cfg.replicasInfos q).length := by
  by_contra hnone
  push Not at hnone
  have hle : ∑ q ∈ cfg.threads, cfg.indeg q
      ≤ ∑ q ∈ cfg.threads, (cfg.replicasInfos q).length := by
    have hswap : ∑ q ∈ cfg.threads, cfg.indeg q
        = ∑ p ∈ cfg.threads, ∑ q ∈ cfg.threads, (cfg.replicasInfos p).count q :=
      Finset.sum_comm
    rw [hswap]
    exact Finset.sum_le_sum fun p _ => Tally.sum_count_le _ _
  have heq := (Finset.sum_eq_sum_iff_of_le hnone).mp
    (Nat.le_antisymm (Finset.sum_le_sum hnone) hle)
  exact h fun q hq => (heq q hq).symm

/-- **All threads return exactly when each is told as often as it tells.** -/
theorem allReturn_iff (hne : ∀ p ∈ cfg.threads, cfg.replicasInfos p ≠ []) :
    AllReturn cfg ↔ cfg.Balanced := by
  constructor
  · intro hall
    by_contra hnot
    obtain ⟨q, hq, hlt⟩ := exists_lt_of_not_balanced hnot
    obtain ⟨as, s, hs, hstalled⟩ := Run.exists_stuck (inv_and_work_step cfg) .init
    have hreturned := (hall as s hs).2 hstalled q hq
    have hstays := (inv_of_exec hs).not_left hlt
    rw [hreturned] at hstays
    exact absurd hstays (by simp [Phase.left])
  · intro hdeg as s hs
    obtain ⟨hinv, hle⟩ := Run.length_le (inv_and_work_step cfg) hs .init
    refine ⟨?_, hinv.returned_of_stalled hdeg hne⟩
    have hinit : (State.init P).work cfg
        = ∑ p ∈ cfg.threads, (3 * (cfg.replicasInfos p).length + 4) := rfl
    omega

/-- Three threads, connected to each other. -/
def threeThreads : Cfg (Fin 3) := ⟨Finset.univ, fun p => [p + 1, p + 2]⟩

/-- The first of them leaves. -/
def firstLeaves : List (Action (Fin 3)) :=
  [.connect 0, .connect 0, .connect 1, .connect 1, .connect 2, .connect 2, .start 0, .start 1,
    .start 2, .finish 0, .request 0, .request 0, .finish 1, .finish 2, .response 0, .response 0,
    .request 1, .request 1, .leave 0]

theorem told_of_left_of_exec_firstLeaves : ∃ s,
    Run.exec (step threeThreads) (State.init (Fin 3)) firstLeaves = some s ∧
      (s.thread 1).phase.told = true := by
  have hleft : ((Run.exec (step threeThreads) (State.init (Fin 3)) firstLeaves).any
      fun s => (s.thread 0).phase.left) = true := by decide +kernel
  cases hs : Run.exec (step threeThreads) (State.init (Fin 3)) firstLeaves with
  | none => exact absurd hleft (by rw [hs]; simp)
  | some s =>
    rw [hs, Option.any_some] at hleft
    have hdeg : threeThreads.Balanced := by decide
    exact ⟨s, rfl, told_of_left_of_exec hdeg hs (Finset.mem_univ 1) (by decide) hleft⟩

/-- All threads of this configuration return. -/
theorem allReturn_iff_threeThreads : AllReturn threeThreads :=
  (allReturn_iff (by decide)).mpr (by decide)

end Avocado.Finish
