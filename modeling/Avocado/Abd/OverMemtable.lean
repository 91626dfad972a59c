/-
# The replicated store over the memtables

`Abd/System.lean` takes each call of a server's `KV_store` as one step.  The store is the lock-free
memtable, whose `put` and `get` take many: the other threads of the server work on it in between,
a compare-exchange fails and is tried again, and the values lie encrypted in memory that belongs to
the host (`Memtable/Concurrent.lean`).  Here the servers run over it.  A handler takes its request,
calls the store, and answers when the call has returned; the continuations `GetTime` and `RetValue`
do the same inside their thread.  Any number of handlers of a server are at work at a time, as if
each had a thread of its own.

The steps that do not touch a store are those of `Abd/System.lean`.  A put makes its node when it
calls the store; the source makes that of `GetTime` earlier, in `benchmark_put`, and decrypts it
once for the message to the replicas.
-/
import Avocado.Abd.Frame
import Avocado.Memtable.Trace

namespace Avocado.OverMemtable

open Memtable (Mem Op Res kvObject)

/-! ## 1. The parts of a handler and of a continuation -/

section Parts

variable {Srv : Type}

/-- The call of the store that the handler of a request makes. -/
def handlerCall (type : ReqType) (data : Msg) : Option Op :=
  match type with
  | .getTimeStamp | .getValueTimeStamp => do
    let key ← data.getKey
    let k ← key.bytes
    some (.get k)
  | .putReplica => (replicaEntry data).map fun e => .put e.1 e.2.1 e.2.2
  | .put | .get | .cmd => none

/-- The answer that it builds from the result. -/
def answer (type : ReqType) (data : Msg) (res : Res) : Option Msg :=
  match type, res with
  | .getTimeStamp, .get res => do
    let msg ← MsgBuilder.new 8
    let msg ← MsgBuilder.addKey msg res.lamport.toBytes
    msg.frame
  | .putReplica, .put _ => do
    let msg ← MsgBuilder.new ackSz
    let msg ← MsgBuilder.addKey msg ack
    msg.frame
  | .getValueTimeStamp, .get res => do
    let key ← data.getKey
    let k ← key.bytes
    match res.value with
    | some _ =>
      let v ← res.value.read 0 res.size
      let msg ← MsgBuilder.new (KeyAccess.addMetaSize key.size + res.size)
      let msg ← MsgBuilder.addKey msg k
      let msg ← MsgBuilder.addKey msg res.lamport.toBytes
      let msg ← MsgBuilder.addValue msg v
      msg.frame
    | none =>
      let msg ← MsgBuilder.new (KeyAccess.addMetaSize key.size)
      let msg ← MsgBuilder.addKey msg k
      let msg ← MsgBuilder.addKey msg Lamport.min.toBytes
      msg.frame
  | _, _ => none

/-- **A handler is its call and its answer.** -/
theorem reqHandlers_eq (kv : KVStore) {type : ReqType} {buf : MsgBuffer} {data : Msg} {op : Op}
    (hdata : getData buf = some data) (hop : handlerCall type data = some op) :
    reqHandlers ⟨kv, none⟩ type buf = (answer type data (kvObject.apply kv op).2).map
      fun a => ⟨(kvObject.apply kv op).1, some a, none⟩ := by
  cases type with
  | put | get | cmd => exact absurd hop (by simp [handlerCall])
  | getTimeStamp =>
    simp only [handlerCall, Option.bind_eq_bind, Option.bind_eq_some_iff, Option.some.injEq] at hop
    obtain ⟨key, hkey, k, hk, rfl⟩ := hop
    simp only [reqHandlers, reqGetTimeStamp, answer, hdata, hkey, hk, Option.bind_eq_bind,
      Option.bind_some, Memtable.kvObject_get, Option.bind_assoc, Option.map_eq_bind,
      Function.comp_def]
  | putReplica =>
    obtain ⟨e, he, rfl⟩ := Option.map_eq_some_iff.mp hop
    simp only [reqHandlers, reqPutReplica_eq, answer, hdata, he, Option.bind_eq_bind,
      Option.bind_some, Memtable.kvObject_put]
    rw [← frame_ack]
    simp only [Option.bind_assoc, Option.map_eq_bind, Function.comp_def]
  | getValueTimeStamp =>
    simp only [handlerCall, Option.bind_eq_bind, Option.bind_eq_some_iff, Option.some.injEq] at hop
    obtain ⟨key, hkey, k, hk, rfl⟩ := hop
    simp only [reqHandlers, reqGetValueTimeStamp, answer, hdata, hkey, hk, Option.bind_eq_bind,
      Option.bind_some, Memtable.kvObject_get]
    cases (kv.get k).value <;>
      simp only [Option.bind_assoc, Option.map_eq_bind, Function.comp_def]

/-- The call of the store that a thread is in front of. -/
def threadCall (s : Avocado.State Srv) (x : Srv) (th : Nat) : Option Op :=
  match s.pc x th with
  | .getTime c | .retValue c => do
    let ctx ← s.ctxs[c]?
    let node ← ctx.rep.data
    some (.get node.key)
  | .getTimeSent c clock => do
    let ctx ← s.ctxs[c]?
    let node ← ctx.rep.data
    some (.put node.key node.metaData.data clock)
  | _ => none

/-- Where the continuation is when the call has returned. -/
def resume (pc : Pc) (res : Res) : Pc :=
  match pc, res with
  | .getTime c, .get r => .getTimeGot c r
  | .retValue c, .get r => .retValueGot c r
  | .getTimeSent _ _, .put _ => .idle
  | pc, _ => pc

/-- The continuation calls the store here. -/
def atStore : Pc → Bool
  | .getTime _ | .retValue _ | .getTimeSent _ _ => true
  | .idle | .getTimeGot _ _ | .getTimeChosen _ _ | .retValueGot _ _ => false

/-- The step does not touch a store. -/
def quiet (s : Avocado.State Srv) : Avocado.Action Srv → Bool
  | .put _ _ _ _ | .get _ _ _ _ | .response _ => true
  | .advance x th => !atStore (s.pc x th)
  | .request _ => false

end Parts

/-! ## 2. Calls of the store -/

section Calls

variable {S : AtomicSet VarKeySizeNode} (cipher : CipherSsl) (m : Mem S)

/-- The call of `KV_store::put`, which makes its node, or `KV_store::get`. -/
def enter (op : Op) : Mem S × Memtable.Call :=
  match op with
  | .put _ value clock =>
    let (m, new) := m.createNode cipher value clock
    (m, ⟨op, .add new⟩)
  | .get _ => (m, ⟨op, .find⟩)

/-- One step of a call. -/
def advance (spurious : Bool) (call : Memtable.Call) : Option (Mem S × Memtable.Call) :=
  (m.next cipher spurious call.op call.pc).map fun e => (e.mem, { call with pc := e.pc })

/-- What a call has returned. -/
def result (call : Memtable.Call) : Option Res :=
  match call.pc with
  | .done r => some r
  | _ => none

/-- A call that is about to decrypt finds what was encrypted. -/
def intact (call : Memtable.Call) : Bool :=
  match call.pc with
  | .decrypt p => m.intact cipher p
  | _ => true

/-- The next step of the call is the one that it takes effect with. -/
def takesEffect (spurious : Bool) (call : Memtable.Call) : Bool :=
  match (m.next cipher spurious call.op call.pc).map Memtable.Effect.note with
  | some (.point _) => true
  | _ => false

end Calls

/-! ## 3. The system -/

/-- A handler at work: its request, and its call of the store. -/
structure Handler (Srv : Type) where
  ctx : Nat
  dst : Srv
  type : ReqType
  buf : MsgBuffer
  call : Memtable.Call

/-- What the handler answers. -/
def Handler.reply {Srv : Type} (h : Handler Srv) (res : Res) : Option Msg := do
  OverMemtable.answer h.type (← getData h.buf) res

structure State (S : AtomicSet VarKeySizeNode) (Srv : Type) where
  /-- Threads, contexts, packets and history; the `kv` of it is not used. -/
  abd : Avocado.State Srv
  mem : Srv → Mem S
  handlers : List (Handler Srv)
  /-- The call of the store that a thread is in. -/
  inside : Srv → Nat → Option Memtable.Call

def State.init (S : AtomicSet VarKeySizeNode) (Srv : Type) : State S Srv :=
  ⟨.init Srv, fun _ => ⟨S.empty, [], [], []⟩, [], fun _ _ => none⟩

inductive Action (Srv : Type)
  /-- A step that does not touch a store. -/
  | abd (a : Avocado.Action Srv)
  /-- A request gets to its handler, which calls the store; its call; its answer. -/
  | take (i : Nat)
  | handler (j : Nat) (spurious : Bool)
  | answer (j : Nat)
  /-- A continuation calls the store; its call; its return. -/
  | call (x : Srv) (th : Nat)
  | thread (x : Srv) (th : Nat) (spurious : Bool)
  | ret (x : Srv) (th : Nat)
  /-- The host overwrites a chunk of the slab. -/
  | overwrite (x : Srv) (p : Nat) (bytes : List UInt8)

variable {S : AtomicSet VarKeySizeNode} {Srv : Type} [DecidableEq Srv]

def State.setInside (f : State S Srv) (x : Srv) (th : Nat) (call : Option Memtable.Call) :
    State S Srv :=
  { f with inside := fun y t => if y = x ∧ t = th then call else f.inside y t }

def State.setMem (f : State S Srv) (x : Srv) (m : Mem S) : State S Srv :=
  { f with mem := Function.update f.mem x m }

/-- One step; `none` when the action is not enabled. -/
def step (cfg : Cfg Srv) (cipher : CipherSsl) (f : State S Srv) : Action Srv → Option (State S Srv)
  | .abd a =>
    if quiet f.abd a then (Avocado.step cfg f.abd a).map fun abd => { f with abd } else none
  | .take i =>
    match f.abd.net[i]? with
    | some (.request c dst type buf) => do
      let op ← handlerCall type (← getData buf)
      let (m, call) := enter cipher (f.mem dst) op
      some { f.setMem dst m with
        abd := { f.abd with net := f.abd.net.eraseIdx i }
        handlers := f.handlers ++ [⟨c, dst, type, buf, call⟩] }
    | _ => none
  | .handler j spurious => do
    let h ← f.handlers[j]?
    let (m, call) ← advance cipher (f.mem h.dst) spurious h.call
    some { f.setMem h.dst m with handlers := f.handlers.set j { h with call } }
  | .answer j => do
    let h ← f.handlers[j]?
    let a ← h.reply (← result h.call)
    some { f with
      abd := { f.abd with net := f.abd.net ++ [.response h.ctx h.dst ⟨true, a⟩] }
      handlers := f.handlers.eraseIdx j }
  | .call x th =>
    if f.inside x th = none then do
      let op ← threadCall f.abd x th
      let (m, call) := enter cipher (f.mem x) op
      some ((f.setMem x m).setInside x th (some call))
    else none
  | .thread x th spurious => do
    let call ← f.inside x th
    let (m, call) ← advance cipher (f.mem x) spurious call
    some ((f.setMem x m).setInside x th (some call))
  | .ret x th => do
    let res ← result (← f.inside x th)
    some { f.setInside x th none with
      abd := f.abd.setPc x th (resume (f.abd.pc x th) res) }
  | .overwrite x p bytes => do
    let chunk ← (f.mem x).slab[p]?
    if bytes.length = chunk.length then
      some (f.setMem x { f.mem x with slab := (f.mem x).slab.set p bytes })
    else none

/-! ## 4. The system seen from its stores -/

section Whole

variable {S : AtomicSet VarKeySizeNode} {Srv : Type}

/-- The request, while the call has not taken effect; then the answer. -/
def Handler.packet (m : Mem S) (h : Handler Srv) : Packet Srv :=
  match (m.took h.call.pc).bind h.reply with
  | some a => .response h.ctx h.dst ⟨true, a⟩
  | none => .request h.ctx h.dst h.type h.buf

namespace State

variable (f : State S Srv)

/-- Where a thread is, when each call returns at once. -/
def pc (x : Srv) (th : Nat) : Pc :=
  ((f.inside x th).bind fun call => (f.mem x).took call.pc).elim (f.abd.pc x th)
    (resume (f.abd.pc x th))

def packets : List (Packet Srv) :=
  f.abd.net ++ f.handlers.map fun h => h.packet (f.mem h.dst)

/-- **The state of `Abd/System.lean`** in which each call is made when it takes effect. -/
def whole : Avocado.State Srv :=
  { f.abd with kv := fun x => (f.mem x).kv, pc := f.pc, net := f.packets }

end State

/-- What a run keeps to: no call decrypts a chunk that was changed, and the steps meet the
condition `ok`, those of a call of the store when it takes effect. -/
def permits (cipher : CipherSsl) (ok : Avocado.State Srv → Avocado.Action Srv → Bool)
    (f : State S Srv) : Action Srv → Bool
  | .abd a => ok f.whole a
  | .handler j _ =>
    match f.handlers[j]? with
    | some h => intact cipher (f.mem h.dst) h.call
    | none => true
  | .thread x th spurious =>
    match f.inside x th with
    | some call => intact cipher (f.mem x) call &&
        (!takesEffect cipher (f.mem x) spurious call || ok f.whole (.advance x th))
    | none => true
  | .take _ | .answer _ | .call _ _ | .ret _ _ | .overwrite _ _ _ => true

end Whole

/-- A run with intact chunks. -/
abbrev IntactRun (cfg : Cfg Srv) (cipher : CipherSsl)
    (ok : Avocado.State Srv → Avocado.Action Srv → Bool) : State S Srv → State S Srv → Prop :=
  Relation.ReflTransGen (Run.Moves (Run.guard (permits cipher ok) (step cfg cipher)))

end Avocado.OverMemtable
