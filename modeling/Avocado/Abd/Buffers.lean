/-
# Message buffers (`replica_context.h`, `req_conts`)

`send_and_encrypt_msg` allocates a request and a response buffer for each replica.  A node owns its
two buffers until its response arrives; then `add_to_cache` moves the response buffer to the
context, and `NodeDeleter` frees the request buffer and gives up the node's reference to the
context.  The context frees the responses when the last reference is gone: it is destroyed by the
response that is handled last, and the node of that response lies inside it.

Here a buffer is the number its allocation has, a pointer to one is an `Option`, and `refs` is the
count of the `shared_ptr`s.  A buffer that is freed twice, or read or written when it is not live,
leaves the step without a result.  `alloc_msg_buffer` waits for a buffer as long as there is none, so
that here there always is one.  The rest of the process uses the same allocator between any two
responses, which is also where the buffers of the requests belong that a continuation sends.
-/
import Avocado.Abd.Steps
import Avocado.Lib.Pool
import Avocado.Lib.Run

namespace Avocado

/-! ## 1. Nodes -/

/-- `struct NodeReplicaContext`; `parent` is whether the reference is still there. -/
structure NodeReplicaContext where
  parent : Bool
  req : Option Nat
  resp : Option Nat
  deriving DecidableEq, Repr

/-- `free_msg_buffer`. -/
def freeMsgBuffer (p : Pool) : Option Nat → Option Pool
  | none => some p
  | some b => p.free b

namespace NodeReplicaContext

/-- The buffers of a node. -/
def buffers (node : NodeReplicaContext) : List Nat := node.req.toList ++ node.resp.toList

/-- `~NodeReplicaContext`, and what `remove` frees. -/
def destroy (p : Pool) (node : NodeReplicaContext) : Option Pool := do
  if node.parent then
    let p ← freeMsgBuffer p node.req
    freeMsgBuffer p node.resp
  else some p

/-- A node that `remove` has left. -/
def removed : NodeReplicaContext := ⟨false, none, none⟩

end NodeReplicaContext

/-- The destructor of the vector `nodes`. -/
def destroyNodes (p : Pool) : List NodeReplicaContext → Option Pool
  | [] => some p
  | node :: nodes => do destroyNodes (← node.destroy p) nodes

/-- `create_buffers`, for `n` nodes. -/
def createBuffers (p : Pool) : Nat → Pool × List NodeReplicaContext
  | 0 => (p, [])
  | n + 1 =>
    let (req, p) := p.alloc
    let (resp, p) := p.alloc
    let (p, nodes) := createBuffers p n
    (p, ⟨true, some req, some resp⟩ :: nodes)

/-- `fill_req_buffers`: the message is encrypted into the first request buffer, and copied to the
others. -/
def fillReqBuffers (p : Pool) (nodes : List NodeReplicaContext) : Option Unit := do
  if nodes.all fun node => node.req.isSome && node.resp.isSome then
    let _ ← nodes[0]?
    p.use (nodes.flatMap fun node => node.req.toList)
  else none

/-! ## 2. The context -/

/-- The part of `class ReplicaContext` that owns buffers, and the number of references to it. -/
structure BufferContext where
  nMsgs : Nat
  nResp : Nat := 0
  done : Bool := false
  cache : List Nat := []
  nodes : List NodeReplicaContext
  refs : Nat
  deriving DecidableEq, Repr

namespace BufferContext

/-- `~ReplicaContext`. -/
def destroy (p : Pool) (ctx : BufferContext) : Option Pool := do
  let p ← p.freeAll ctx.cache
  destroyNodes p ctx.nodes

/-- `n_resp`, the threshold and `done` in `req_conts`, and whether the continuation runs.  `call` is
its template argument, and `none` is `CmdRet`. -/
def count (call : Option ContType) (ctx : BufferContext) : BufferContext × Bool :=
  let ctx := { ctx with nResp := ctx.nResp + 1 }
  if call = none then (ctx, true)
  else if 2 * ctx.nResp + 1 < ctx.nMsgs then (ctx, false)
  else if ctx.done then (ctx, false)
  else ({ ctx with done := true }, true)

/-- The responses that `req_conts_impl` decrypts: `reduce_resp` reads all that are cached, and
`map_last`, of `CmdRet`, the last. -/
def reads (call : Option ContType) (ctx : BufferContext) : List Nat :=
  match call with
  | some .getTime | some .retValue => ctx.cache
  | some .ackPutTime | some .retGetPutUpdate => []
  | none => ctx.cache.getLast?.toList

/-- The allocator, what the rest of the process has allocated with it, the tags of the requests that
are not answered yet, and the context while it exists. -/
structure State where
  pool : Pool
  others : Finset Nat
  inFlight : List Nat
  ctx : Option BufferContext

namespace State

/-- A `shared_ptr` to the context is given up. -/
def release (s : State) : Option State := do
  let ctx ← s.ctx
  if ctx.refs = 1 then
    let pool ← ctx.destroy s.pool
    some { s with pool, ctx := none }
  else some { s with ctx := some { ctx with refs := ctx.refs - 1 } }

/-- `send_and_encrypt_msg`, and the end of the function that created the context.  eRPC gets both
buffers of each node. -/
def sendAndEncryptMsg (p : Pool) (n : Nat) : Option State := do
  let (pool, nodes) := createBuffers p n
  fillReqBuffers pool nodes
  pool.use (nodes.flatMap NodeReplicaContext.buffers)
  release ⟨pool, p.live, List.range n, some { nMsgs := n, nodes, refs := n + 1 }⟩

/-- `NodeReplicaContext::decrypt` for the `i`-th node, that is `add_to_cache`.  The library has
read the request and written the response until now. -/
def addToCache (s : State) (i : Nat) : Option State := do
  let ctx ← s.ctx
  let node ← ctx.nodes[i]?
  if node.parent then
    s.pool.use node.buffers
    let resp ← node.resp
    some { s with ctx := some { ctx with
      cache := ctx.cache ++ [resp]
      nodes := ctx.nodes.set i { node with resp := none } } }
  else none

/-- The response is counted, and the continuation runs or does not. -/
def runConts (call : Option ContType) (s : State) : Option State := do
  let ctx ← s.ctx
  let (ctx, runs) := ctx.count call
  if runs then s.pool.use (ctx.reads call)
  some { s with ctx := some ctx }

/-- `NodeReplicaContext::remove`, for the `i`-th node. -/
def remove (s : State) (i : Nat) : Option State := do
  let ctx ← s.ctx
  let node ← ctx.nodes[i]?
  if node.parent then
    let pool ← node.destroy s.pool
    release { s with pool, ctx := some { ctx with nodes := ctx.nodes.set i .removed } }
  else some s

/-- `ABD::req_conts`, with the `NodeDeleter` that runs when it returns. -/
def reqConts (call : Option ContType) (s : State) (i : Nat) : Option State := do
  let s ← s.addToCache i
  let s ← s.runConts call
  s.remove i

end State

/-- A response to the request with tag `i`, or a call of the allocator from somewhere else. -/
inductive Action
  | respond (i : Nat)
  | alloc
  | free (b : Nat)

/-- One step.  A request is answered once. -/
def step (call : Option ContType) (s : State) : Action → Option State
  | .respond i =>
    if i ∈ s.inFlight then State.reqConts call { s with inFlight := s.inFlight.erase i } i else none
  | .alloc => some { s with pool := s.pool.alloc.2, others := insert s.pool.alloc.1 s.others }
  | .free b => do
    if b ∈ s.others then
      let pool ← s.pool.free b
      some { s with pool, others := s.others.erase b }
    else none

/-- A run: the responses arrive in any order. -/
abbrev Run (call : Option ContType) : State → State → Prop :=
  Relation.ReflTransGen (Run.Moves (step call))

/-! ## 3. What the functions do -/

/-- The request buffer of the `i`-th node, where `m` is the first number that was free. -/
def reqOf (m i : Nat) : Nat := m + 2 * i

/-- The response buffer of the `i`-th node. -/
def respOf (m i : Nat) : Nat := m + 2 * i + 1

theorem reqOf_bounds {m n i : Nat} (hi : i < n) : m ≤ reqOf m i ∧ reqOf m i < m + 2 * n := by
  simp only [reqOf]
  omega

theorem respOf_bounds {m n i : Nat} (hi : i < n) : m ≤ respOf m i ∧ respOf m i < m + 2 * n := by
  simp only [respOf]
  omega

theorem reqOf_ne_respOf (m i j : Nat) : reqOf m i ≠ respOf m j := by
  simp only [reqOf, respOf]
  omega

theorem reqOf_inj {m i j : Nat} : reqOf m i = reqOf m j ↔ i = j := by
  simp only [reqOf]
  omega

theorem respOf_inj {m i j : Nat} : respOf m i = respOf m j ↔ i = j := by
  simp only [respOf]
  omega

/-- The `i`-th node, as `create_buffers` makes it. -/
def nodeOf (m i : Nat) : NodeReplicaContext := ⟨true, some (reqOf m i), some (respOf m i)⟩

/-- The nodes when the requests with the tags `inFlight` are not answered yet. -/
def nodesOf (m n : Nat) (inFlight : List Nat) : List NodeReplicaContext :=
  (List.range n).map fun i => if i ∈ inFlight then nodeOf m i else .removed

theorem createBuffers_spec (p : Pool) (n : Nat) :
    (createBuffers p n).2 = (List.range n).map (nodeOf p.next) ∧
      (createBuffers p n).1.next = p.next + 2 * n ∧
      (createBuffers p n).1.freed = p.freed ∧
      ∀ b, b ∈ (createBuffers p n).1.live ↔ b ∈ p.live ∨ p.next ≤ b ∧ b < p.next + 2 * n := by
  induction n generalizing p with
  | zero =>
    refine ⟨rfl, rfl, rfl, fun b => ⟨Or.inl, ?_⟩⟩
    rintro (hb | hb)
    · exact hb
    · omega
  | succ n ih =>
    obtain ⟨hnodes, hnext, hfreed, hlive⟩ := ih p.alloc.2.alloc.2
    refine ⟨?_, ?_, hfreed, fun b => ?_⟩
    · rw [List.range_succ_eq_map, List.map_cons, List.map_map]
      refine congrArg (List.cons _) (hnodes.trans (List.map_congr_left fun i _ => ?_))
      have hreq : reqOf p.alloc.2.alloc.2.next i = reqOf p.next (i + 1) := by
        simp only [Pool.alloc_next, reqOf]
        omega
      have hresp : respOf p.alloc.2.alloc.2.next i = respOf p.next (i + 1) := by
        simp only [Pool.alloc_next, respOf]
        omega
      simp only [nodeOf, hreq, hresp, Function.comp_apply]
    · refine hnext.trans ?_
      simp only [Pool.alloc_next]
      omega
    · refine (hlive b).trans ?_
      simp only [Pool.mem_alloc_live, Pool.alloc_next]
      by_cases hb : b ∈ p.live
      · simp only [hb, or_true, true_or]
      · simp only [hb, or_false, false_or]
        omega

/-- The nodes after one more response. -/
theorem nodesOf_set {m n i : Nat} {inFlight : List Nat} (hnd : inFlight.Nodup) :
    (nodesOf m n inFlight).set i .removed = nodesOf m n (inFlight.erase i) := by
  refine List.ext_getElem (by simp [nodesOf]) fun j hj hj' => ?_
  simp only [nodesOf, List.getElem_set, List.getElem_map, List.getElem_range, hnd.mem_erase_iff]
  by_cases hij : i = j
  · simp [hij]
  · simp [hij, Ne.symm hij]

/-- No buffer is freed with the nodes that `remove` has left. -/
theorem destroyNodes_removed {p : Pool} {nodes : List NodeReplicaContext}
    (h : ∀ node ∈ nodes, node = .removed) : destroyNodes p nodes = some p := by
  induction nodes with
  | nil => rfl
  | cons node nodes ih =>
    rw [h node List.mem_cons_self]
    exact ih fun a ha => h a (List.mem_cons_of_mem _ ha)

/-- Counting changes the counters. -/
theorem count_spec (call : Option ContType) (ctx : BufferContext) :
    (ctx.count call).1 =
      { ctx with nResp := ctx.nResp + 1, done := (ctx.count call).1.done } := by
  simp only [count]
  split
  · rfl
  · split
    · rfl
    · split
      · rfl
      · rfl

/-- The counters are those of `rep`. -/
def CountsAs (ctx : BufferContext) (rep : ReplicaContext) : Prop :=
  ctx.nMsgs = rep.nMsgs ∧ ctx.nResp = rep.nResp ∧ ctx.done = rep.done

/-- **A response is counted as by `ReplicaContext`**, and the continuation runs for the same one. -/
theorem count_eq_reqConts {call : ContType} {ctx : BufferContext} {rep rep' : ReplicaContext}
    {resp : MsgBuffer} {runs : Bool} (hsame : ctx.CountsAs rep)
    (h : rep.reqConts resp = some (rep', runs)) :
    (ctx.count call).2 = runs ∧ (ctx.count call).1.CountsAs rep' := by
  obtain ⟨hn, hr, hd⟩ := hsame
  simp only [ReplicaContext.reqConts, ReplicaContext.addToCache] at h
  split at h
  · simp only [Option.bind_eq_bind, Option.bind_some] at h
    simp only [count, hn, hr, hd, reduceCtorEq, if_false]
    split at h
    · rename_i hlt
      obtain ⟨rfl, rfl⟩ := Prod.mk.inj (Option.some.inj h)
      rw [if_pos hlt]
      exact ⟨rfl, rfl, rfl, rfl⟩
    · rename_i hlt
      rw [if_neg hlt]
      split at h
      · rename_i hdone
        obtain ⟨rfl, rfl⟩ := Prod.mk.inj (Option.some.inj h)
        rw [if_pos hdone]
        exact ⟨rfl, rfl, rfl, rfl⟩
      · rename_i hdone
        obtain ⟨rfl, rfl⟩ := Prod.mk.inj (Option.some.inj h)
        rw [if_neg hdone]
        exact ⟨rfl, rfl, rfl, rfl⟩
  · exact absurd h (by simp)

theorem reads_subset (call : Option ContType) (ctx : BufferContext) :
    ∀ b ∈ ctx.reads call, b ∈ ctx.cache := by
  intro b hb
  match call with
  | some .getTime | some .retValue => exact hb
  | some .ackPutTime | some .retGetPutUpdate => exact absurd hb List.not_mem_nil
  | none => exact List.mem_of_getLast? (Option.mem_toList.mp hb)

/-! ## 4. The invariant -/

/-- **The response of request `i` is handled**: `s` becomes `s'`, and `t` is the state in between in
which the response is cached and `ctx` holds it.  The buffers that the continuation would read are
live then; and the response is counted, and the continuation runs, as `ReplicaContext` has it. -/
structure Handled (call : Option ContType) (i : Nat) (s t : State) (ctx : BufferContext)
    (s' : State) : Prop where
  step : BufferContext.step call s (.respond i) = some s'
  cached : State.addToCache { s with inFlight := s.inFlight.erase i } i = some t
  held : t.ctx = some ctx
  live : ∀ b ∈ (ctx.count call).1.reads call, b ∈ t.pool.live
  counts : ∀ c rep rep' resp runs, call = some c → ctx.CountsAs rep →
    rep.reqConts resp = some (rep', runs) →
    (ctx.count call).2 = runs ∧ ∀ ctx', s'.ctx = some ctx' → ctx'.CountsAs rep'

namespace State

/-- Who owns which buffer.  The numbers from `m` to `m + 2 * n` are those of the context, and the
requests of its nodes are freed as they are answered. -/
structure Owns (m n : Nat) (s : State) : Prop where
  nodup : s.inFlight.Nodup
  lt : ∀ i ∈ s.inFlight, i < n
  next : m + 2 * n ≤ s.pool.next
  others : ∀ b ∈ s.others, b < m ∨ m + 2 * n ≤ b
  pending : ∀ i ∈ s.inFlight, reqOf m i ∈ s.pool.live ∧ respOf m i ∈ s.pool.live
  handled : ∀ i < n, i ∉ s.inFlight → reqOf m i ∈ s.pool.freed

/-- What the context holds: the responses that have arrived.  There is a reference to it for each
request that is not answered, and `extra` more. -/
structure Holds (m n extra : Nat) (s : State) (ctx : BufferContext) : Prop where
  refs : ctx.refs = s.inFlight.length + extra
  nodes : ctx.nodes = nodesOf m n s.inFlight
  nodup : ctx.cache.Nodup
  cache : ∀ b, b ∈ ctx.cache ↔ ∃ i < n, i ∉ s.inFlight ∧ b = respOf m i
  live : ∀ b ∈ ctx.cache, b ∈ s.pool.live

/-- Between two steps the references are those of the nodes, and without one there is no context. -/
structure Inv (m n : Nat) (s : State) : Prop extends Owns m n s where
  ended : s.inFlight = [] → s.ctx = none ∧ ∀ i < n, respOf m i ∈ s.pool.freed
  holds : s.inFlight ≠ [] → ∃ ctx, s.ctx = some ctx ∧ Holds m n 0 s ctx

variable {m n i : Nat} {s s' : State} {ctx : BufferContext}

/-- The context frees what it has cached. -/
theorem exists_destroy {p : Pool} {c : BufferContext} (hnodes : ∀ node ∈ c.nodes, node = .removed)
    (hlive : ∀ b ∈ c.cache, b ∈ p.live) (hnd : c.cache.Nodup) :
    ∃ p', c.destroy p = some p' ∧ p'.next = p.next ∧ p'.live = p.live \ c.cache.toFinset ∧
      p'.freed = p.freed ++ c.cache := by
  obtain ⟨p', hall, hnext, hlive', hfreed⟩ := Pool.exists_freeAll hlive hnd
  refine ⟨p', ?_, hnext, hlive', hfreed⟩
  simp only [destroy, hall, Option.bind_eq_bind, Option.bind_some, destroyNodes_removed hnodes]

/-- **A reference is given up**, that of the function that created the context or of the node whose
response is handled.  The last one destroys the context. -/
theorem Owns.exists_release (h : Owns m n s) (hctx : s.ctx = some ctx) (hh : Holds m n 1 s ctx) :
    ∃ s', s.release = some s' ∧ s'.inFlight = s.inFlight ∧ Inv m n s' ∧
      ∀ c, s'.ctx = some c → c = { ctx with refs := c.refs } := by
  by_cases hlast : s.inFlight = []
  case pos =>
    have hrefs : ctx.refs = 1 := by rw [hh.refs, hlast, List.length_nil]
    have hnodes : ∀ node ∈ ctx.nodes, node = .removed := by
      rw [hh.nodes, hlast]
      simp [nodesOf]
    obtain ⟨pool, hdestroy, hnext, -, hfreed⟩ := exists_destroy hnodes hh.live hh.nodup
    refine ⟨{ s with pool, ctx := none }, ?_, rfl, ?_, fun c hc => absurd hc (by simp)⟩
    · simp only [release, hctx, Option.bind_eq_bind, Option.bind_some, if_pos hrefs, hdestroy]
    · exact
        { nodup := h.nodup
          lt := h.lt
          next := hnext ▸ h.next
          others := h.others
          pending := fun i hi => absurd (hlast ▸ hi) List.not_mem_nil
          handled := fun i hi hout => hfreed ▸ List.mem_append_left _ (h.handled i hi hout)
          ended := fun _ => ⟨rfl, fun i hi => hfreed ▸ List.mem_append_right _
            ((hh.cache _).mpr ⟨i, hi, hlast ▸ List.not_mem_nil, rfl⟩)⟩
          holds := fun hne => absurd hlast hne }
  case neg =>
    have hpos := List.length_pos_of_ne_nil hlast
    have hrefs : ctx.refs ≠ 1 := by
      rw [hh.refs]
      omega
    refine ⟨{ s with ctx := some { ctx with refs := ctx.refs - 1 } }, ?_, rfl, ?_, ?_⟩
    · simp only [release, hctx, Option.bind_eq_bind, Option.bind_some, if_neg hrefs]
    · exact
        { nodup := h.nodup
          lt := h.lt
          next := h.next
          others := h.others
          pending := h.pending
          handled := h.handled
          ended := fun hnil => absurd hnil hlast
          holds := fun _ => ⟨_, rfl, by rw [hh.refs]; rfl, hh.nodes, hh.nodup, hh.cache, hh.live⟩ }
    · rintro c hc
      obtain rfl := Option.some.inj hc
      rfl

/-- The node of a request that is not answered. -/
theorem Holds.getElem? (h : Holds m n 0 s ctx) (hi : i ∈ s.inFlight) (hlt : i < n) :
    ctx.nodes[i]? = some (nodeOf m i) := by
  rw [h.nodes, nodesOf, List.getElem?_map, List.getElem?_range hlt, Option.map_some, if_pos hi]

/-- The cache after one more response. -/
theorem Holds.cache_append (h : Holds m n 0 s ctx) (hnd : s.inFlight.Nodup) (hi : i ∈ s.inFlight)
    (hlt : i < n) :
    (ctx.cache ++ [respOf m i]).Nodup ∧
      ∀ b, b ∈ ctx.cache ++ [respOf m i] ↔ ∃ j < n, j ∉ s.inFlight.erase i ∧ b = respOf m j := by
  constructor
  · refine List.nodup_append.mpr ⟨h.nodup, List.nodup_singleton _, ?_⟩
    intro b hb b' hb' heq
    obtain ⟨j, -, hj, hbj⟩ := (h.cache b).mp hb
    rw [heq, List.mem_singleton.mp hb'] at hbj
    exact hj (respOf_inj.mp hbj ▸ hi)
  · intro b
    rw [List.mem_append, List.mem_singleton, h.cache]
    constructor
    · rintro (⟨j, hjn, hj, rfl⟩ | rfl)
      · exact ⟨j, hjn, fun hmem => hj (List.mem_of_mem_erase hmem), rfl⟩
      · exact ⟨i, hlt, hnd.not_mem_erase, rfl⟩
    · rintro ⟨j, hjn, hj, rfl⟩
      by_cases hij : j = i
      · exact Or.inr (hij ▸ rfl)
      · exact Or.inl ⟨j, hjn, fun hmem => hj ((List.mem_erase_of_ne hij).mpr hmem), rfl⟩

/-- The response of a request moves from its node to the cache. -/
theorem addToCache_eq {req resp : Nat} (hctx : s.ctx = some ctx)
    (hnode : ctx.nodes[i]? = some ⟨true, some req, some resp⟩) (hreq : req ∈ s.pool.live)
    (hresp : resp ∈ s.pool.live) :
    s.addToCache i = some { s with ctx := some { ctx with
      cache := ctx.cache ++ [resp], nodes := ctx.nodes.set i ⟨true, some req, none⟩ } } := by
  have huse : s.pool.use (NodeReplicaContext.buffers ⟨true, some req, some resp⟩) = some () := by
    refine Pool.use_eq fun b hb => ?_
    rcases List.mem_pair.mp hb with rfl | rfl
    · exact hreq
    · exact hresp
  simp only [addToCache, hctx, Option.bind_eq_bind, Option.bind_some, hnode, if_true, huse]

/-- The continuation reads responses that are cached. -/
theorem runConts_eq (call : Option ContType) (hctx : s.ctx = some ctx)
    (hlive : ∀ b ∈ ctx.cache, b ∈ s.pool.live) :
    (∀ b ∈ (ctx.count call).1.reads call, b ∈ s.pool.live) ∧
      s.runConts call = some { s with ctx := some (ctx.count call).1 } := by
  have hreads : ∀ b ∈ (ctx.count call).1.reads call, b ∈ s.pool.live := by
    intro b hb
    have hmem := reads_subset call _ b hb
    rw [count_spec] at hmem
    exact hlive b hmem
  refine ⟨hreads, ?_⟩
  simp only [runConts, hctx, Option.bind_eq_bind, Option.bind_some]
  split
  · rw [Pool.use_eq hreads, Option.bind_some]
  · rfl

/-- The request buffer of a node is freed, and the node's reference given up. -/
theorem exists_remove {req : Nat} (hctx : s.ctx = some ctx)
    (hnode : ctx.nodes[i]? = some ⟨true, some req, none⟩) (hreq : req ∈ s.pool.live) :
    ∃ pool, pool.next = s.pool.next ∧ pool.live = s.pool.live.erase req ∧
      pool.freed = s.pool.freed ++ [req] ∧
      s.remove i =
        release { s with pool, ctx := some { ctx with nodes := ctx.nodes.set i .removed } } := by
  obtain ⟨pool, hfree, hnext, hlive, hfreed⟩ := Pool.exists_free hreq
  refine ⟨pool, hnext, hlive, hfreed, ?_⟩
  simp only [remove, hctx, Option.bind_eq_bind, Option.bind_some, hnode, if_true,
    NodeReplicaContext.destroy, freeMsgBuffer, hfree]

/-- **What `req_conts` does with the response of a pending request**: it caches the response, runs
the continuation or does not, frees the request, and gives up a reference. -/
theorem exists_reqConts_eq_release (call : Option ContType) (h : Inv m n s) (hi : i ∈ s.inFlight) :
    ∃ t c u ctx, addToCache { s with inFlight := s.inFlight.erase i } i = some t ∧
      t.ctx = some c ∧ (∀ b ∈ (c.count call).1.reads call, b ∈ t.pool.live) ∧
      reqConts call { s with inFlight := s.inFlight.erase i } i = u.release ∧
      u.inFlight = s.inFlight.erase i ∧ Owns m n u ∧ u.ctx = some ctx ∧ Holds m n 1 u ctx ∧
      ctx = { (c.count call).1 with nodes := ctx.nodes } := by
  obtain ⟨ctx, hctx, hh⟩ := h.holds (List.ne_nil_of_mem hi)
  obtain ⟨hreq, hresp⟩ := h.pending i hi
  obtain ⟨hnd, hcache⟩ := hh.cache_append h.nodup hi (h.lt i hi)
  have hlive : ∀ b ∈ ctx.cache ++ [respOf m i], b ∈ s.pool.live := by
    intro b hb
    rcases List.mem_append.mp hb with hb | hb
    · exact hh.live b hb
    · exact List.mem_singleton.mp hb ▸ hresp
  have hnode := hh.getElem? hi (h.lt i hi)
  have hlt : i < ctx.nodes.length := (List.getElem?_eq_some_iff.mp hnode).1
  -- the context when the response is cached, and when it is counted
  let c : BufferContext := { ctx with
    cache := ctx.cache ++ [respOf m i]
    nodes := ctx.nodes.set i ⟨true, some (reqOf m i), none⟩ }
  have hspec : (c.count call).1 = { c with nResp := c.nResp + 1, done := (c.count call).1.done } :=
    count_spec call c
  have hnode' : (c.count call).1.nodes[i]? = some ⟨true, some (reqOf m i), none⟩ := by
    rw [hspec]
    exact List.getElem?_set_self hlt
  -- the three parts of the call
  have hadd := addToCache_eq (s := { s with inFlight := s.inFlight.erase i }) hctx hnode hreq hresp
  obtain ⟨hreads, hrun⟩ := runConts_eq
    (s := { s with inFlight := s.inFlight.erase i, ctx := some c }) call rfl hlive
  obtain ⟨pool, hnext, hplive, hfreed, hrem⟩ := exists_remove
    (s := { s with inFlight := s.inFlight.erase i, ctx := some (c.count call).1 }) rfl hnode' hreq
  have hmem : ∀ j, j ∈ s.inFlight.erase i ↔ j ≠ i ∧ j ∈ s.inFlight := fun j => h.nodup.mem_erase_iff
  refine ⟨_, c, ⟨pool, s.others, s.inFlight.erase i, some { (c.count call).1 with
    nodes := (c.count call).1.nodes.set i .removed }⟩, _, hadd, rfl, hreads, ?_, rfl, ?_, rfl, ?_,
    rfl⟩
  · simp only [reqConts, hadd, Option.bind_eq_bind, Option.bind_some]
    exact (congrArg (Option.bind · (State.remove · i)) hrun).trans hrem
  · exact
      { nodup := h.nodup.erase i
        lt := fun j hj => h.lt j ((hmem j).mp hj).2
        next := hnext ▸ h.next
        others := h.others
        pending := by
          intro j hj
          obtain ⟨hne, hin⟩ := (hmem j).mp hj
          obtain ⟨hq, hp⟩ := h.pending j hin
          rw [hplive]
          exact ⟨Finset.mem_erase.mpr ⟨fun heq => hne (reqOf_inj.mp heq), hq⟩,
            Finset.mem_erase.mpr ⟨(reqOf_ne_respOf m i j).symm, hp⟩⟩
        handled := by
          intro j hj hout
          rw [hfreed, List.mem_append, List.mem_singleton]
          by_cases hij : j = i
          · exact Or.inr (hij ▸ rfl)
          · exact Or.inl (h.handled j hj fun hin => hout ((hmem j).mpr ⟨hij, hin⟩)) }
  · rw [hspec]
    exact
      { refs := by
          rw [hh.refs, List.length_erase_of_mem hi]
          have := List.length_pos_of_mem hi
          omega
        nodes := by
          rw [List.set_set, hh.nodes]
          exact nodesOf_set h.nodup
        nodup := hnd
        cache := hcache
        live := by
          intro b hb
          obtain ⟨j, -, -, rfl⟩ := (hcache b).mp hb
          rw [hplive]
          exact Finset.mem_erase.mpr ⟨(reqOf_ne_respOf m i j).symm, hlive _ hb⟩ }

/-- **A response is handled, and the invariant kept.** -/
theorem exists_handled (call : Option ContType) (h : Inv m n s) (hi : i ∈ s.inFlight) :
    ∃ t ctx s', Handled call i s t ctx s' ∧ s'.inFlight = s.inFlight.erase i ∧ Inv m n s' := by
  obtain ⟨t, c, u, ctx, hadd, hc, hreads, hreq, hflight, howns, hctx, hh, hsame⟩ :=
    exists_reqConts_eq_release call h hi
  obtain ⟨s', hrel, hflight', hinv, hkeep⟩ := howns.exists_release hctx hh
  refine ⟨t, c, s', ⟨(if_pos hi).trans (hreq.trans hrel), hadd, hc, hreads, ?_⟩,
    hflight'.trans hflight, hinv⟩
  rintro call rep rep' resp runs rfl hcounts hrep
  obtain ⟨hruns, hcounts'⟩ := count_eq_reqConts hcounts hrep
  refine ⟨hruns, fun ctx' hctx' => ?_⟩
  rw [hkeep ctx' hctx', hsame]
  exact hcounts'

/-- The rest of the process does not touch the buffers of the context. -/
theorem Inv.frame {pool : Pool} {others : Finset Nat} (h : Inv m n s)
    (hnext : s.pool.next ≤ pool.next) (hothers : ∀ b ∈ others, b < m ∨ m + 2 * n ≤ b)
    (hlive : ∀ b ∈ s.pool.live, m ≤ b → b < m + 2 * n → b ∈ pool.live)
    (hfreed : ∀ b ∈ s.pool.freed, b ∈ pool.freed) : Inv m n { s with pool, others } where
  nodup := h.nodup
  lt := h.lt
  next := h.next.trans hnext
  others := hothers
  pending := by
    intro i hi
    obtain ⟨hreq, hresp⟩ := h.pending i hi
    have hq := reqOf_bounds (m := m) (h.lt i hi)
    have hp := respOf_bounds (m := m) (h.lt i hi)
    exact ⟨hlive _ hreq hq.1 hq.2, hlive _ hresp hp.1 hp.2⟩
  handled := fun i hi hout => hfreed _ (h.handled i hi hout)
  ended := fun hnil => ⟨(h.ended hnil).1, fun i hi => hfreed _ ((h.ended hnil).2 i hi)⟩
  holds := by
    intro hne
    obtain ⟨ctx, hctx, hh⟩ := h.holds hne
    refine ⟨ctx, hctx, hh.refs, hh.nodes, hh.nodup, hh.cache, fun b hb => ?_⟩
    obtain ⟨i, hi, -, rfl⟩ := (hh.cache b).mp hb
    exact hlive _ (hh.live _ hb) (respOf_bounds hi).1 (respOf_bounds hi).2

/-- **The invariant is kept by every step.** -/
theorem Inv.step {call : Option ContType} {a : Action} (h : Inv m n s)
    (hstep : BufferContext.step call s a = some s') : Inv m n s' := by
  cases a with
  | respond i =>
    simp only [BufferContext.step] at hstep
    split at hstep
    · rename_i hi
      obtain ⟨t, ctx, s'', hhandled, -, hinv⟩ := exists_handled call h hi
      have heq : s'' = s' := Option.some.inj (hhandled.step.symm.trans ((if_pos hi).trans hstep))
      exact heq ▸ hinv
    · exact absurd hstep (by simp)
  | alloc =>
    rw [BufferContext.step, Option.some.injEq] at hstep
    subst hstep
    refine h.frame (Nat.le_succ _) ?_ ?_ fun b hb => hb
    · intro b hb
      rcases Finset.mem_insert.mp hb with rfl | hb
      · exact Or.inr h.next
      · exact h.others b hb
    · exact fun b hb _ _ => Pool.mem_alloc_live.mpr (Or.inr hb)
  | free b =>
    simp only [BufferContext.step] at hstep
    split at hstep
    · rename_i hb
      simp only [Option.bind_eq_bind, Option.bind_eq_some_iff, Option.some.injEq] at hstep
      obtain ⟨pool, hfree, rfl⟩ := hstep
      obtain ⟨hnext, hlive, hfreed⟩ := Pool.free_spec hfree
      refine h.frame (le_of_eq hnext.symm) ?_ ?_ ?_
      · exact fun a ha => h.others a (Finset.mem_of_mem_erase ha)
      · intro a ha hlo hhi
        rw [hlive]
        refine Finset.mem_erase.mpr ⟨?_, ha⟩
        rintro rfl
        rcases h.others a hb with hlt | hle
        · omega
        · omega
      · exact fun a ha => hfreed ▸ List.mem_append_left _ ha
    · exact absurd hstep (by simp)

/-- **The requests are sent**, and the context owns its buffers. -/
theorem exists_send (p : Pool) (hn : 0 < n) :
    ∃ s, sendAndEncryptMsg p n = some s ∧ s.inFlight = List.range n ∧ Inv p.next n s := by
  obtain ⟨hnodes, hnext, hfreed, hlive⟩ := createBuffers_spec p n
  have hown : ∀ i < n, reqOf p.next i ∈ (createBuffers p n).1.live ∧
      respOf p.next i ∈ (createBuffers p n).1.live := fun i hi =>
    ⟨(hlive _).mpr (Or.inr (reqOf_bounds hi)), (hlive _).mpr (Or.inr (respOf_bounds hi))⟩
  have hbuffers : ∀ node ∈ (createBuffers p n).2, ∀ b ∈ node.buffers,
      b ∈ (createBuffers p n).1.live := by
    intro node hnode b hb
    rw [hnodes] at hnode
    obtain ⟨i, hi, rfl⟩ := List.mem_map.mp hnode
    rcases List.mem_pair.mp hb with rfl | rfl
    · exact (hown i (List.mem_range.mp hi)).1
    · exact (hown i (List.mem_range.mp hi)).2
  have hfill : fillReqBuffers (createBuffers p n).1 (createBuffers p n).2 = some () := by
    have hall : ((createBuffers p n).2.all fun node => node.req.isSome && node.resp.isSome)
        = true := by
      rw [hnodes]
      simp [nodeOf]
    have hfirst : (createBuffers p n).2[0]? = some (nodeOf p.next 0) := by
      rw [hnodes, List.getElem?_map, List.getElem?_range hn, Option.map_some]
    have huse : (createBuffers p n).1.use ((createBuffers p n).2.flatMap fun node =>
        node.req.toList) = some () := by
      refine Pool.use_eq fun b hb => ?_
      obtain ⟨node, hnode, hb⟩ := List.mem_flatMap.mp hb
      exact hbuffers node hnode b (List.mem_append_left _ hb)
    simp only [fillReqBuffers, hall, if_true, hfirst, Option.bind_eq_bind, Option.bind_some, huse]
  have huse : (createBuffers p n).1.use ((createBuffers p n).2.flatMap
      NodeReplicaContext.buffers) = some () := by
    refine Pool.use_eq fun b hb => ?_
    obtain ⟨node, hnode, hb⟩ := List.mem_flatMap.mp hb
    exact hbuffers node hnode b hb
  have hall : (createBuffers p n).2 = nodesOf p.next n (List.range n) := by
    rw [hnodes, nodesOf]
    exact List.map_congr_left fun i hi => (if_pos hi).symm
  have howns : Owns p.next n ⟨(createBuffers p n).1, p.live, List.range n, some
      { nMsgs := n, nodes := (createBuffers p n).2, refs := n + 1 }⟩ :=
    { nodup := List.nodup_range
      lt := fun i hi => List.mem_range.mp hi
      next := hnext.ge
      others := fun b hb => Or.inl (p.live_lt b hb)
      pending := fun i hi => hown i (List.mem_range.mp hi)
      handled := fun i hi hout => absurd (List.mem_range.mpr hi) hout }
  obtain ⟨s, hrel, hflight, hinv, -⟩ := howns.exists_release rfl
    { refs := by rw [List.length_range]
      nodes := hall
      nodup := List.nodup_nil
      cache := fun b => ⟨fun hb => absurd hb List.not_mem_nil, fun ⟨i, hi, hout, _⟩ =>
        absurd (List.mem_range.mpr hi) hout⟩
      live := fun b hb => absurd hb List.not_mem_nil }
  refine ⟨s, ?_, hflight, hinv⟩
  simp only [sendAndEncryptMsg, hfill, huse, Option.bind_eq_bind, Option.bind_some]
  exact hrel

/-- Every order of the responses can happen, and the last one destroys the context. -/
theorem exists_respondAll (call : Option ContType) {order : List Nat} (h : Inv m n s)
    (hperm : order.Perm s.inFlight) :
    ∃ s', order.foldlM (fun s i => BufferContext.step call s (.respond i)) s = some s' ∧
      s'.ctx = none := by
  induction order generalizing s with
  | nil =>
    have hnil : s.inFlight = [] := List.nil_perm.mp hperm
    exact ⟨s, rfl, (h.ended hnil).1⟩
  | cons i order ih =>
    obtain ⟨hi, hrest⟩ := List.cons_perm_iff_perm_erase.mp hperm
    obtain ⟨t, ctx, s₁, hhandled, hflight, hinv⟩ := exists_handled call h hi
    obtain ⟨s', hs', hnone⟩ := ih hinv (hflight ▸ hrest)
    refine ⟨s', ?_, hnone⟩
    simp only [List.foldlM_cons, hhandled.step, Option.bind_eq_bind, Option.bind_some]
    exact hs'

end State

/-! ## 5. Every buffer is released once -/

/-- A state that a run reaches; `nodes` are those that `create_buffers` has made.

A response that is awaited can be handled: no step frees a buffer that is not live, or uses one, and
the continuation reads live ones.  What has arrived is cached and live as long as the context
exists, and it exists until the last response is handled.  Then every buffer has been freed,
once. -/
structure Sound (call : Option ContType) (nodes : List NodeReplicaContext) (s : State) : Prop where
  handled : ∀ i ∈ s.inFlight, ∃ t ctx s', Handled call i s t ctx s'
  cached : ∀ ctx, s.ctx = some ctx → (∀ b ∈ ctx.cache, b ∈ s.pool.live) ∧
    ∀ i node, nodes[i]? = some node → i ∉ s.inFlight → ∀ b ∈ node.resp, b ∈ ctx.cache
  alive : s.ctx.isSome ↔ s.inFlight ≠ []
  atMostOnce : ∀ b, s.pool.freed.count b ≤ 1
  once : s.inFlight = [] → ∀ node ∈ nodes, ∀ b ∈ node.buffers,
    b ∉ s.pool.live ∧ s.pool.freed.count b = 1

theorem State.Inv.sound {call : Option ContType} {p : Pool} {n : Nat} {s : State}
    (h : State.Inv p.next n s) : Sound call (createBuffers p n).2 s where
  handled := by
    intro i hi
    obtain ⟨t, ctx, s', hhandled, -⟩ := State.exists_handled call h hi
    exact ⟨t, ctx, s', hhandled⟩
  cached := by
    intro ctx hctx
    have hne : s.inFlight ≠ [] := by
      intro hnil
      rw [(h.ended hnil).1] at hctx
      exact absurd hctx (by simp)
    obtain ⟨ctx', hctx', hh⟩ := h.holds hne
    obtain rfl : ctx' = ctx := Option.some.inj (hctx'.symm.trans hctx)
    refine ⟨hh.live, fun i node hnode hout b hb => (hh.cache b).mpr ?_⟩
    rw [(createBuffers_spec p n).1, List.getElem?_map, Option.map_eq_some_iff] at hnode
    obtain ⟨j, hj, rfl⟩ := hnode
    obtain ⟨hlt, rfl⟩ := List.getElem?_eq_some_iff.mp hj
    rw [List.getElem_range] at hb
    exact ⟨i, by simpa using hlt, hout, (Option.some.inj hb).symm⟩
  alive := by
    constructor
    · intro hsome hnil
      rw [(h.ended hnil).1] at hsome
      exact absurd hsome (by simp)
    · intro hne
      obtain ⟨ctx, hctx, -⟩ := h.holds hne
      exact hctx ▸ rfl
  atMostOnce := fun b => List.nodup_iff_count_le_one.mp s.pool.nodup b
  once := by
    intro hnil node hnode b hb
    rw [(createBuffers_spec p n).1] at hnode
    obtain ⟨i, hi, rfl⟩ := List.mem_map.mp hnode
    have hfreed : b ∈ s.pool.freed := by
      rcases List.mem_pair.mp hb with rfl | rfl
      · exact h.handled i (List.mem_range.mp hi) (hnil ▸ List.not_mem_nil)
      · exact (h.ended hnil).2 i (List.mem_range.mp hi)
    exact ⟨s.pool.dead b hfreed, Pool.count_freed hfreed⟩

/-- The buffers that `create_buffers` makes are new, and different. -/
theorem nodup_createBuffers (p : Pool) (n : Nat) :
    ((createBuffers p n).2.flatMap NodeReplicaContext.buffers).Nodup ∧
      ((createBuffers p n).2.flatMap NodeReplicaContext.buffers).length = 2 * n ∧
      ∀ b ∈ (createBuffers p n).2.flatMap NodeReplicaContext.buffers, b ∉ p.live := by
  rw [(createBuffers_spec p n).1]
  refine ⟨List.nodup_flatMap.mpr ⟨?_, ?_⟩, ?_, ?_⟩
  · intro node hnode
    obtain ⟨i, -, rfl⟩ := List.mem_map.mp hnode
    exact List.nodup_cons.mpr ⟨fun hmem => reqOf_ne_respOf p.next i i (List.mem_singleton.mp hmem),
      List.nodup_singleton _⟩
  · refine List.pairwise_map.mpr (List.nodup_range.imp fun {i j} hij b hb hb' => ?_)
    rcases List.mem_pair.mp hb with rfl | rfl
    · rcases List.mem_pair.mp hb' with heq | heq
      · exact hij (reqOf_inj.mp heq)
      · exact reqOf_ne_respOf _ _ _ heq
    · rcases List.mem_pair.mp hb' with heq | heq
      · exact reqOf_ne_respOf _ _ _ heq.symm
      · exact hij (respOf_inj.mp heq)
  · simp [List.length_flatMap, NodeReplicaContext.buffers, nodeOf, Function.comp_def,
      Nat.mul_comm]
  · intro b hb hlive
    obtain ⟨node, hnode, hb⟩ := List.mem_flatMap.mp hb
    obtain ⟨i, hi, rfl⟩ := List.mem_map.mp hnode
    have hlt := p.live_lt b hlive
    rcases List.mem_pair.mp hb with rfl | rfl
    · exact absurd (reqOf_bounds (m := p.next) (List.mem_range.mp hi)).1 (by omega)
    · exact absurd (respOf_bounds (m := p.next) (List.mem_range.mp hi)).1 (by omega)

/-- Message buffers are released exactly once: `n` nodes with two new buffers each are sent, every
order of the responses can happen, and every state that is reached is sound. -/
def Releases (call : Option ContType) (p : Pool) (n : Nat) : Prop :=
  ∃ s₀, State.sendAndEncryptMsg p n = some s₀ ∧ s₀.inFlight = List.range n ∧
    ((createBuffers p n).2.flatMap NodeReplicaContext.buffers).Nodup ∧
    ((createBuffers p n).2.flatMap NodeReplicaContext.buffers).length = 2 * n ∧
    (∀ b ∈ (createBuffers p n).2.flatMap NodeReplicaContext.buffers, b ∉ p.live) ∧
    (∀ order : List Nat, order.Perm (List.range n) → ∃ s,
      order.foldlM (fun s i => step call s (.respond i)) s₀ = some s ∧ s.ctx = none) ∧
    ∀ s, Run call s₀ s → Sound call (createBuffers p n).2 s

/-- **Every message buffer is released exactly once**, for any number of replicas and every
continuation. -/
theorem releases_of_pos (call : Option ContType) (p : Pool) {n : Nat} (hn : 0 < n) :
    Releases call p n := by
  obtain ⟨s₀, hsend, hflight, hinv⟩ := State.exists_send p hn
  obtain ⟨hnd, hlen, hnew⟩ := nodup_createBuffers p n
  refine ⟨s₀, hsend, hflight, hnd, hlen, hnew, ?_, ?_⟩
  · exact fun order hperm => State.exists_respondAll call hinv (hflight.symm ▸ hperm)
  · intro s hrun
    have hinv' : State.Inv p.next n s :=
      Run.invariant (fun x y hx ⟨_, he⟩ => hx.step he) hrun hinv
    exact hinv'.sound

theorem releases_three : 0 < 3 ∧ Releases (some .getTime) Pool.new 3 :=
  ⟨by decide, releases_of_pos (some .getTime) Pool.new (by decide)⟩

end BufferContext

end Avocado
