/-
# The replicated store as a transition system

The servers run `benchmark_put` and `benchmark_get` operations over an honest network: a packet
stays in flight until it is delivered and is delivered at most once, a response goes to the
continuation of the context that sent the request, and everything decrypts.  Delivery order and
delays are arbitrary.

A thread of a server owns one `ABD` object and everything it does runs in its event loop.  All
threads of a server share the store, so the continuations of different threads interleave.  `Pc`
says where inside a continuation a thread is, and `advance` takes it one step further: `GetTime` is
the five steps `kv.get`, reduce and choose the clock, send, `kv.put`, and `RetValue` is `kv.get` and
then the rest.  A request handler touches the shared state once and is one step.

There is one event loop inside another: while no buffer is left for a packet, `alloc_msg_buffer`
runs the loop in the middle of a send, and with it continuations of other operations of the thread.
Such an operation is one of a thread of its own here.  No step reads a thread's number, and there
are as many threads as the operations need, so these runs are among the ones below.  What depends on
which operations share an event loop has to say so (`alone`).

`log` is a history variable: no step reads it.  An operation is named by its first context.
-/
import Avocado.Abd.Replica
import Avocado.Lib.Run

namespace Avocado

/-! ## 1. Configuration and state -/

/-- What a group of servers is started with. -/
structure Cfg (Srv : Type) where
  /-- `MaxValueSize`. -/
  maxValueSize : Nat
  /-- The machine id each server passes to its `ABD` objects. -/
  mId : Srv → BitVec 32
  /-- `replicas`: the vector built by `replica_ordering` on each server. -/
  replicas : Srv → List (List Srv)

/-- `max_package_size`: the value, a clock and `PacketSsl::MetaDataSize`. -/
def Cfg.maxPackageSize {Srv : Type} (cfg : Cfg Srv) : Nat := cfg.maxValueSize + 8 + 28

/-- `get_idx`: the last 8, 4, 2 bytes of the key or its first byte, modulo the number of groups. -/
def getIdx (n : Nat) (key : List UInt8) : Option Nat :=
  let idx (w off : Nat) : Option Nat :=
    if n = 0 then none else (Bytes.load key off w).map fun bs => Bytes.leNat bs % n
  if key.length ≥ 8 then idx 8 (key.length - 8)
  else if key.length ≥ 4 then idx 4 (key.length - 4)
  else if key.length ≥ 2 then idx 2 (key.length - 2)
  else idx 1 0

/-- `replicas[get_idx(key)]`: the servers that server `x` contacts for a key. -/
def Cfg.reps {Srv : Type} (cfg : Cfg Srv) (x : Srv) (key : List UInt8) : Option (List Srv) := do
  (cfg.replicas x)[← getIdx (cfg.replicas x).length key]?

/-- A context in the table: the source's context, the thread whose event loop handles its
responses, its continuation, the key it was routed by, and the operation it belongs to. -/
structure Ctx (Srv : Type) where
  srv : Srv
  thread : Nat
  cont : ContType
  key : List UInt8
  op : Nat
  rep : ReplicaContext
  deriving DecidableEq

/-- Packets in flight. -/
inductive Packet (Srv : Type)
  | request (ctx : Nat) (dst : Srv) (type : ReqType) (buf : MsgBuffer)
  | response (ctx : Nat) (src : Srv) (buf : MsgBuffer)
  deriving DecidableEq

/-- Where a thread is: in its event loop, or inside the continuation of a context. -/
inductive Pc
  | idle
  | getTime (ctx : Nat)
  | getTimeGot (ctx : Nat) (localResp : RetValue)
  | getTimeChosen (ctx : Nat) (clock : Lamport)
  | getTimeSent (ctx : Nat) (clock : Lamport)
  | retValue (ctx : Nat)
  | retValueGot (ctx : Nat) (localResp : RetValue)
  deriving DecidableEq

/-- What happened. -/
inductive Event (Srv : Type)
  /-- `benchmark_put` was called. -/
  | invokePut (op : Nat) (srv : Srv) (key value : List UInt8)
  /-- `benchmark_get` was called. -/
  | invokeGet (op : Nat) (srv : Srv) (key : List UInt8)
  /-- `GetTime` chose the put's clock. -/
  | assign (op : Nat) (clock : Lamport)
  /-- `RetValue` selected `max_clock_value.first`. -/
  | select (op : Nat) (clock : Lamport)
  | putRet (op : Nat)
  | getRet (op : Nat) (buf : Span)
  | skipRet (op : Nat)
  deriving DecidableEq

/-- The state of the group. -/
structure State (Srv : Type) where
  kv : Srv → KVStore
  pc : Srv → Nat → Pc
  /-- `current_traces` of each thread's `ABD` object. -/
  traces : Srv → Nat → BitVec 64
  ctxs : List (Ctx Srv)
  net : List (Packet Srv)
  log : List (Event Srv)

/-- Every store empty, nothing in flight. -/
def State.init (Srv : Type) : State Srv :=
  ⟨fun _ => .empty, fun _ _ => .idle, fun _ _ => 0, [], [], []⟩

/-! ## 2. Pieces of a step -/

section Note

namespace State

variable {Srv : Type} (s : State Srv)

/-- Add to the history. -/
def note (e : Event Srv) : State Srv := { s with log := s.log ++ [e] }

@[simp] theorem note_kv (e : Event Srv) : (s.note e).kv = s.kv := rfl
@[simp] theorem note_pc (e : Event Srv) : (s.note e).pc = s.pc := rfl
@[simp] theorem note_ctxs (e : Event Srv) : (s.note e).ctxs = s.ctxs := rfl
@[simp] theorem note_net (e : Event Srv) : (s.note e).net = s.net := rfl
@[simp] theorem note_log (e : Event Srv) : (s.note e).log = s.log ++ [e] := rfl

end State

end Note

section Steps

variable {Srv : Type} [DecidableEq Srv]

namespace State

def setPc (s : State Srv) (x : Srv) (th : Nat) (pc : Pc) : State Srv :=
  { s with pc := fun y t => if y = x ∧ t = th then pc else s.pc y t }

def setKv (s : State Srv) (x : Srv) (kv : KVStore) : State Srv :=
  { s with kv := fun y => if y = x then kv else s.kv y }

/-- `add_traces`. -/
def addTraces (s : State Srv) (x : Srv) (th : Nat) (i : BitVec 64) : State Srv :=
  { s with traces := fun y t => if y = x ∧ t = th then s.traces y t + i else s.traces y t }

section Fields

variable (s : State Srv) (x : Srv) (th : Nat)

@[simp] theorem setPc_kv (pc : Pc) : (s.setPc x th pc).kv = s.kv := rfl
@[simp] theorem setPc_ctxs (pc : Pc) : (s.setPc x th pc).ctxs = s.ctxs := rfl
@[simp] theorem setPc_net (pc : Pc) : (s.setPc x th pc).net = s.net := rfl
@[simp] theorem setPc_log (pc : Pc) : (s.setPc x th pc).log = s.log := rfl

@[simp] theorem setPc_pc_self (pc : Pc) : (s.setPc x th pc).pc x th = pc :=
  if_pos ⟨rfl, rfl⟩

theorem setPc_pc_of_ne {pc : Pc} {y : Srv} {t : Nat} (h : ¬ (y = x ∧ t = th)) :
    (s.setPc x th pc).pc y t = s.pc y t := if_neg h

@[simp] theorem setKv_pc (kv : KVStore) : (s.setKv x kv).pc = s.pc := rfl
@[simp] theorem setKv_ctxs (kv : KVStore) : (s.setKv x kv).ctxs = s.ctxs := rfl
@[simp] theorem setKv_net (kv : KVStore) : (s.setKv x kv).net = s.net := rfl
@[simp] theorem setKv_log (kv : KVStore) : (s.setKv x kv).log = s.log := rfl
@[simp] theorem setKv_kv_self (kv : KVStore) : (s.setKv x kv).kv x = kv := if_pos rfl

theorem setKv_kv_of_ne {kv : KVStore} {y : Srv} (h : y ≠ x) : (s.setKv x kv).kv y = s.kv y :=
  if_neg h

@[simp] theorem addTraces_kv (i : BitVec 64) : (s.addTraces x th i).kv = s.kv := rfl
@[simp] theorem addTraces_pc (i : BitVec 64) : (s.addTraces x th i).pc = s.pc := rfl
@[simp] theorem addTraces_ctxs (i : BitVec 64) : (s.addTraces x th i).ctxs = s.ctxs := rfl
@[simp] theorem addTraces_net (i : BitVec 64) : (s.addTraces x th i).net = s.net := rfl
@[simp] theorem addTraces_log (i : BitVec 64) : (s.addTraces x th i).log = s.log := rfl

end Fields

/-- `create_rep_context` and `ABD::send_and_encrypt_msg`: the context enters the table and the
message goes to every replica of the key's group.  Without a group the operation is skipped. -/
def send (cfg : Cfg Srv) (s : State Srv) (ctx : Ctx Srv) (type : ReqType) (msg : Msg) :
    Option (State Srv) := do
  let reps ← cfg.reps ctx.srv ctx.key
  if reps.length > 0 then
    let wire ← msg.frame
    some { s with
      ctxs := s.ctxs ++ [{ ctx with rep := ctx.rep.sendAndEncryptMsg reps }]
      net := s.net ++ reps.map fun r => .request s.ctxs.length r type ⟨true, wire⟩ }
  else
    some (({ s with ctxs := s.ctxs ++ [ctx] }.addTraces ctx.srv ctx.thread (-1)).note
      (.skipRet ctx.op))

/-! ## 3. The steps -/

/-- `get_msg` with a key and a value copied into it, as the caller of an operation builds it. -/
def getMsg (key value : List UInt8) : Option Msg := do
  let msg ← Msg.alloc (key.length + value.length + encodedMsgSize)
  let msg ← msg.store 0 (Bytes.leBytes 8 key.length)
  let msg ← msg.store 8 (Bytes.leBytes 8 (key.length + value.length))
  let msg ← msg.store encodedMsgSize key
  msg.store (encodedMsgSize + key.length) value

/-- `benchmark_put`. -/
def benchmarkPut (cfg : Cfg Srv) (s : State Srv) (x : Srv) (th : Nat) (msg : Msg) :
    Option (State Srv) := do
  let s := s.addTraces x th 1
  let key ← msg.getKey
  let k ← key.bytes
  let replicaMsg ← MsgBuilder.new key.size
  let replicaMsg ← MsgBuilder.addKey replicaMsg k
  let value ← msg.getValue
  let node ← createNode key value Lamport.min
  let op := s.ctxs.length
  send cfg (s.note (.invokePut op x k node.metaData.data))
    ⟨x, th, .getTime, k, op, { data := some node }⟩ .getTimeStamp replicaMsg

/-- `benchmark_get`. -/
def benchmarkGet (cfg : Cfg Srv) (s : State Srv) (x : Srv) (th : Nat) (msg : Msg) :
    Option (State Srv) := do
  let s := s.addTraces x th 1
  let key ← msg.getKey
  let k ← key.bytes
  let node ← createNode key ⟨0, none⟩ Lamport.min
  let op := s.ctxs.length
  send cfg (s.note (.invokeGet op x k))
    ⟨x, th, .retValue, k, op, { data := some node }⟩ .getValueTimeStamp msg

/-- A request reaches its handler.  Requests of clients, which would start an operation of their
own, do not occur here. -/
def request (s : State Srv) (i : Nat) : Option (State Srv) :=
  match s.net[i]? with
  | some (.request c dst type buf) => do
    let h ← reqHandlers ⟨s.kv dst, none⟩ type buf
    match h.answer, h.start with
    | some answer, none =>
      some ({ s with net := s.net.eraseIdx i ++ [Packet.response c dst ⟨true, answer⟩] }.setKv dst h.kv)
    | _, _ => none
  | _ => none

/-- A response reaches `req_conts`, on an idle thread.  `AckPutTime` and `RetGetPutUpdate` are done
at once; `GetTime` and `RetValue` are entered. -/
def response (s : State Srv) (i : Nat) : Option (State Srv) :=
  match s.net[i]? with
  | some (.response c _ buf) => do
    let ctx ← s.ctxs[c]?
    if s.pc ctx.srv ctx.thread = .idle then
      let (rep, run) ← ctx.rep.reqConts buf
      let s := { s with net := s.net.eraseIdx i, ctxs := s.ctxs.set c { ctx with rep := rep } }
      if run then
        match ctx.cont with
        | .getTime => some (s.setPc ctx.srv ctx.thread (.getTime c))
        | .retValue => some (s.setPc ctx.srv ctx.thread (.retValue c))
        | .ackPutTime => some ((s.addTraces ctx.srv ctx.thread (-1)).note (.putRet ctx.op))
        | .retGetPutUpdate => some s
      else some s
    else none
  | _ => none

/-- The next step of the continuation that thread `th` of server `x` is in. -/
def advance (cfg : Cfg Srv) (s : State Srv) (x : Srv) (th : Nat) : Option (State Srv) :=
  match s.pc x th with
  | .idle => none
  | .getTime c => do
    let ctx ← s.ctxs[c]?
    let node ← ctx.rep.data
    some (s.setPc x th (.getTimeGot c ((s.kv x).get node.key)))
  | .getTimeGot c localResp => do
    let ctx ← s.ctxs[c]?
    let max ← ctx.rep.reduceResp maxCount localResp.lamport.count
    let clock : Lamport := ⟨max + 1, cfg.mId x⟩
    some ((s.setPc x th (.getTimeChosen c clock)).note (.assign ctx.op clock))
  | .getTimeChosen c clock => do
    let ctx ← s.ctxs[c]?
    let node ← ctx.rep.data
    let msg ← putMsg node clock (decryptNode node.metaData true)
    let s ← send cfg s ⟨x, th, .ackPutTime, node.key, ctx.op, {}⟩ .putReplica msg
    some (s.setPc x th (.getTimeSent c clock))
  | .getTimeSent c clock => do
    let ctx ← s.ctxs[c]?
    let node ← ctx.rep.data
    -- `node.meta->clock = clock` and `kv.put(node)`; the result of the put is not used
    some ((s.setKv x ((s.kv x).put node.key node.metaData.data clock).1).setPc x th .idle)
  | .retValue c => do
    let ctx ← s.ctxs[c]?
    let node ← ctx.rep.data
    some (s.setPc x th (.retValueGot c ((s.kv x).get node.key)))
  | .retValueGot c localResp => do
    let ctx ← s.ctxs[c]?
    let node ← ctx.rep.data
    let st ← readResponses ctx.rep cfg.maxPackageSize node localResp
    let s ←
      if !consens st ctx.rep.nMsgs && st.max.2.size > 0 then do
        let msg ← writeBackMsg node st.max
        send cfg s ⟨x, th, .retGetPutUpdate, node.key, ctx.op, {}⟩ .putReplica msg
      else some s
    some ((((s.addTraces x th (-1)).note (.select ctx.op st.max.1)).note
      (.getRet ctx.op st.max.2)).setPc x th .idle)

end State

/-- The steps of the system. -/
inductive Action (Srv : Type)
  | put (x : Srv) (th : Nat) (key value : List UInt8)
  | get (x : Srv) (th : Nat) (key value : List UInt8)
  | request (i : Nat)
  | response (i : Nat)
  | advance (x : Srv) (th : Nat)
  deriving DecidableEq

/-- One step; `none` when the action is not enabled. -/
def step (cfg : Cfg Srv) (s : State Srv) : Action Srv → Option (State Srv)
  | .put x th key value =>
    if s.pc x th = .idle then do s.benchmarkPut cfg x th (← State.getMsg key value) else none
  | .get x th key value =>
    if s.pc x th = .idle then do s.benchmarkGet cfg x th (← State.getMsg key value) else none
  | .request i => s.request i
  | .response i => s.response i
  | .advance x th => s.advance cfg x th

/-- A run of steps that meet the condition `ok`. -/
abbrev Run (cfg : Cfg Srv) (ok : State Srv → Action Srv → Bool) : State Srv → State Srv → Prop :=
  Relation.ReflTransGen (Run.Moves (Run.guard ok (step cfg)))

end Steps

end Avocado
