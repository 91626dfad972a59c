/-
# The concurrent memtable (`memtable.cpp`, `memtable.h`, `meta_data.h`)

`KV_store` as concurrent calls of `put` and `get` see it.  Trusted memory holds the skip list, the
`meta` pointer of each of its nodes (`cells`) and the `MetaData` objects (`metas`); the encrypted
values are in the slab, which belongs to the host.  A call is a small program (`Mem.next`) whose
steps are the atomic operations of the source: `addOrGetData`, the load of `node->meta`, the weak
compare-exchange, `find`, and the reading of the slab by `decrypt`.  The host may overwrite a
chunk of the slab between any two steps.

The skip list and the cipher are parameters: the first is an `AtomicSet`, the second a `CipherSsl`.
The chunks are numbered, and a new object has a new chunk that holds its value.  That this is what
the slab allocator gives, although it hands out an element again once nothing points to it, is
`Memtable/Slab.lean`, where the allocator is a parameter too.

Each step also writes a history: the call, the point at which it takes effect, its return.
`step_cases` and `next_cases` say what a step can do; the later files derive everything from them.
-/
import Avocado.Lib.Run
import Avocado.Lib.Linear
import Avocado.Memtable.Store
import Avocado.Memtable.KeyOrder

namespace Avocado

/-! ## 1. The cipher -/

/-- `class CipherSsl`, for one key and IV: `encrypt` gives the cipher text and the tag, `decrypt`
takes both and may fail. -/
structure CipherSsl where
  encrypt : List UInt8 → List UInt8 × List UInt8
  decrypt : List UInt8 → List UInt8 → Option (List UInt8)

/-- The cipher text is as long as the text, and decryption undoes encryption. -/
structure CipherSsl.Lawful (cipher : CipherSsl) : Prop where
  length_encrypt : ∀ p, (cipher.encrypt p).1.length = p.length
  decrypt_encrypt : ∀ p, cipher.decrypt (cipher.encrypt p).1 (cipher.encrypt p).2 = some p

/-- Decryption fails on a cipher text that was changed. -/
def CipherSsl.Authenticates (cipher : CipherSsl) : Prop :=
  ∀ p x, x ≠ (cipher.encrypt p).1 → cipher.decrypt x (cipher.encrypt p).2 = none

namespace Memtable

/-! ## 2. The memory, and one step of a call -/

/-- `struct MetaData`, in trusted memory.  Its `data` is the chunk of the slab with the same
index.  `value` is what the constructor encrypted: no step reads it. -/
structure SealedMeta where
  mac : List UInt8
  dataSize : Nat
  clock : Lamport
  value : List UInt8
  deriving DecidableEq, Repr

/-- The entry as the sequential store has it. -/
def SealedMeta.entry (md : SealedMeta) : MetaData := ⟨md.clock, md.value⟩

/-- What `get` returns for the entry when its chunk decrypts to what was encrypted. -/
def SealedMeta.ret (md : SealedMeta) : RetValue := ⟨md.clock, md.value.length, some md.value⟩

/-- The memory of the store.  A node's `meta` is `cells[node.cell]`, an index into `metas`. -/
structure Mem (S : AtomicSet VarKeySizeNode) where
  list : S.Rep
  cells : List Nat
  metas : List SealedMeta
  slab : List (List UInt8)

/-- An operation and its arguments. -/
inductive Op
  | put (key value : List UInt8) (clock : Lamport)
  | get (key : List UInt8)
  deriving DecidableEq

/-- What an operation returns. -/
inductive Res
  | put (b : Bool)
  | get (r : RetValue)
  deriving DecidableEq

/-- Where a call is.  `new` is `new_node.meta`, `old` is `old_meta`; `exit` is in front of the
`return`. -/
inductive Pc
  | add (new : Nat)
  | load (new cell : Nat)
  | loop (new cell old : Nat)
  | find
  | loadMeta (cell : Nat)
  | decrypt (p : Nat)
  | exit (r : Res)
  | done (r : Res)
  deriving DecidableEq

/-- What a step means for the history of its call. -/
inductive Note
  | silent
  | point (r : Res)
  | ret (r : Res)
  deriving DecidableEq

/-- What one step of a call does.  `installs` is set by the two steps that store a new entry. -/
structure Effect (S : AtomicSet VarKeySizeNode) where
  mem : Mem S
  pc : Pc
  note : Note
  installs : Bool

namespace Mem

variable {S : AtomicSet VarKeySizeNode}

/-- `KV_store::create_node`, and the address of the new `MetaData`. -/
def createNode (cipher : CipherSsl) (m : Mem S) (value : List UInt8) (clock : Lamport) :
    Mem S × Nat :=
  let (data, mac) := cipher.encrypt value
  ({ m with
      metas := m.metas ++ [⟨mac, value.length, clock, value⟩],
      slab := m.slab ++ [data] }, m.metas.length)

/-- `std::atomic_compare_exchange_weak` on a node's `meta`: whether it succeeded, the cells, and
what the expected value is afterwards.  It may fail although the values agree. -/
def casWeak (m : Mem S) (cell expected desired : Nat) (spurious : Bool) :
    Option (Bool × List Nat × Nat) := do
  let cur ← m.cells[cell]?
  if cur = expected ∧ spurious = false then some (true, m.cells.set cell desired, expected)
  else some (false, m.cells, cur)

/-- `KV_store::decrypt_node`, after the load of `node.meta`. -/
def decryptNode (cipher : CipherSsl) (m : Mem S) (p : Nat) : Option RetValue := do
  let md ← m.metas[p]?
  let chunk ← m.slab[p]?
  match cipher.decrypt (chunk.take md.dataSize) md.mac with
  | none => some .absent
  | some value => some ⟨md.clock, md.dataSize, some value⟩

/-- One step of a call of `KV_store::put` or `KV_store::get`.  A probe, and a node that is not in
the list yet, has the address of no other node. -/
def next (cipher : CipherSsl) (m : Mem S) (spurious : Bool) : Op → Pc → Option (Effect S)
  | .put key _ _, .add new =>
    let (list, node, found) := S.addOrGetData m.list ⟨key, m.cells.length⟩
    if found then
      some ⟨{ m with list, cells := m.cells ++ [new] }, .exit (.put true), .point (.put true), true⟩
    else some ⟨{ m with list }, .load new node.cell, .silent, false⟩
  | .put _ _ _, .load new cell => do
    let old ← m.cells[cell]?
    some ⟨m, .loop new cell old, .silent, false⟩
  | .put _ _ clock, .loop new cell old => do
    let oldMeta ← m.metas[old]?
    -- `return old_meta->clock < clock`, where the loop is left
    let result := Res.put (oldMeta.clock < clock)
    if oldMeta.clock < clock then
      match ← m.casWeak cell old new spurious with
      | (true, cells, _) => some ⟨{ m with cells }, .exit result, .point result, true⟩
      | (false, cells, old) => some ⟨{ m with cells }, .loop new cell old, .silent, false⟩
    else some ⟨m, .exit result, .point result, false⟩
  | .get key, .find =>
    match S.find m.list ⟨key, m.cells.length⟩ with
    | none => some ⟨m, .exit (.get .absent), .point (.get .absent), false⟩
    | some node => some ⟨m, .loadMeta node.cell, .silent, false⟩
  | .get _, .loadMeta cell => do
    let p ← m.cells[cell]?
    let md ← m.metas[p]?
    some ⟨m, .decrypt p, .point (.get md.ret), false⟩
  | .get _, .decrypt p => do
    let r ← m.decryptNode cipher p
    some ⟨m, .done (.get r), .ret (.get r), false⟩
  | _, .exit r => some ⟨m, .done r, .ret r, false⟩
  | _, _ => none

end Mem

/-! ## 3. Concurrent calls and the host -/

/-- A call that was made. -/
structure Call where
  op : Op
  pc : Pc
  deriving DecidableEq

/-- The store with all calls on it; a call's number is its index.  `hist` and `installed` record
the run. -/
structure State (S : AtomicSet VarKeySizeNode) where
  mem : Mem S
  calls : List Call
  hist : List (History.Event Op Res)
  installed : List Nat

/-- A call of `put` (which creates its node) or of `get`, the next step of call `i`, or the host
overwriting the chunk of `metas[p]`. -/
inductive Action
  | put (key value : List UInt8) (clock : Lamport)
  | get (key : List UInt8)
  | advance (i : Nat) (spurious : Bool)
  | overwrite (p : Nat) (bytes : List UInt8)
  deriving DecidableEq

/-- The events of a step of call `i`. -/
def Note.events (i : Nat) (op : Op) : Note → List (History.Event Op Res)
  | .silent => []
  | .point r => [.point i op r]
  | .ret r => [.ret i op r]

namespace State

variable {S : AtomicSet VarKeySizeNode}

/-- The empty store. -/
def init (S : AtomicSet VarKeySizeNode) : State S := ⟨⟨S.empty, [], [], []⟩, [], [], []⟩

/-- A new call. -/
def invoke (s : State S) (mem : Mem S) (op : Op) (pc : Pc) : State S :=
  { s with mem, calls := s.calls ++ [⟨op, pc⟩], hist := s.hist ++ [.call s.calls.length op] }

/-- The state after a step of call `i`. -/
def apply (s : State S) (i : Nat) (op : Op) (e : Effect S) : State S where
  mem := e.mem
  calls := s.calls.set i ⟨op, e.pc⟩
  hist := s.hist ++ e.note.events i op
  installed := if e.installs then s.installed ++ [i] else s.installed

/-- The state after the host wrote the chunk of `metas[p]`. -/
def overwrite (s : State S) (p : Nat) (bytes : List UInt8) : State S :=
  { s with mem := { s.mem with slab := s.mem.slab.set p bytes } }

end State

variable {S : AtomicSet VarKeySizeNode}

def step (cipher : CipherSsl) (s : State S) : Action → Option (State S)
  | .put key value clock =>
    let (mem, new) := s.mem.createNode cipher value clock
    some (s.invoke mem (.put key value clock) (.add new))
  | .get key => some (s.invoke s.mem (.get key) .find)
  | .advance i spurious => do
    let c ← s.calls[i]?
    let e ← s.mem.next cipher spurious c.op c.pc
    some (s.apply i c.op e)
  | .overwrite p bytes => do
    let chunk ← s.mem.slab[p]?
    if bytes.length = chunk.length then some (s.overwrite p bytes) else none

/-- A step other than the host's. -/
def honest (_ : State S) : Action → Bool
  | .overwrite _ _ => false
  | _ => true

/-- **What a step can do.** -/
theorem step_cases {cipher : CipherSsl} {s s' : State S} {a : Action}
    (h : step cipher s a = some s') :
    (∃ key value clock, a = .put key value clock ∧
      s' = s.invoke (s.mem.createNode cipher value clock).1 (.put key value clock)
        (.add s.mem.metas.length)) ∨
    (∃ key, a = .get key ∧ s' = s.invoke s.mem (.get key) .find) ∨
    (∃ i spurious c e, a = .advance i spurious ∧ s.calls[i]? = some c ∧
      s.mem.next cipher spurious c.op c.pc = some e ∧ s' = s.apply i c.op e) ∨
    (∃ p bytes, a = .overwrite p bytes ∧ s' = s.overwrite p bytes) := by
  cases a with
  | put key value clock =>
    simp only [step, Option.some.injEq] at h
    exact Or.inl ⟨key, value, clock, rfl, h.symm⟩
  | get key =>
    simp only [step, Option.some.injEq] at h
    exact Or.inr (Or.inl ⟨key, rfl, h.symm⟩)
  | advance i spurious =>
    simp only [step, Option.bind_eq_bind, Option.bind_eq_some_iff, Option.some.injEq] at h
    obtain ⟨c, hc, e, he, h⟩ := h
    exact Or.inr (Or.inr (Or.inl ⟨i, spurious, c, e, rfl, hc, he, h.symm⟩))
  | overwrite p bytes =>
    simp only [step, Option.bind_eq_bind, Option.bind_eq_some_iff] at h
    obtain ⟨chunk, -, h⟩ := h
    split at h
    · rw [Option.some.injEq] at h
      exact Or.inr (Or.inr (Or.inr ⟨p, bytes, rfl, h.symm⟩))
    · exact absurd h (by simp)

/-! ## 4. What one step of a call does -/

/-- The steps of a call, in terms of the elements of the skip list. -/
inductive Next (cipher : CipherSsl) (m : Mem S) : Op → Pc → Effect S → Prop
  | inserted {key value clock new list} (hnew : ∀ n ∈ S.elems m.list, n.key ≠ key)
      (helems : S.elems list = insert ⟨key, m.cells.length⟩ (S.elems m.list)) :
      Next cipher m (.put key value clock) (.add new)
        ⟨{ m with list, cells := m.cells ++ [new] }, .exit (.put true), .point (.put true), true⟩
  | found {key value clock new list node} (hmem : node ∈ S.elems m.list) (hkey : node.key = key)
      (helems : S.elems list = S.elems m.list) :
      Next cipher m (.put key value clock) (.add new)
        ⟨{ m with list }, .load new node.cell, .silent, false⟩
  | loaded {key value clock new cell old} (hold : m.cells[cell]? = some old) :
      Next cipher m (.put key value clock) (.load new cell) ⟨m, .loop new cell old, .silent, false⟩
  | swapped {key value clock new cell old oldMeta} (hmeta : m.metas[old]? = some oldMeta)
      (hlt : oldMeta.clock < clock) (hcur : m.cells[cell]? = some old) :
      Next cipher m (.put key value clock) (.loop new cell old)
        ⟨{ m with cells := m.cells.set cell new }, .exit (.put true), .point (.put true), true⟩
  | reloaded {key value clock new cell old cur} (hcur : m.cells[cell]? = some cur) :
      Next cipher m (.put key value clock) (.loop new cell old)
        ⟨m, .loop new cell cur, .silent, false⟩
  | refused {key value clock new cell old oldMeta} (hmeta : m.metas[old]? = some oldMeta)
      (hle : clock ≤ oldMeta.clock) :
      Next cipher m (.put key value clock) (.loop new cell old)
        ⟨m, .exit (.put false), .point (.put false), false⟩
  | missing {key} (hnone : ∀ n ∈ S.elems m.list, n.key ≠ key) :
      Next cipher m (.get key) .find
        ⟨m, .exit (.get .absent), .point (.get .absent), false⟩
  | located {key node} (hmem : node ∈ S.elems m.list) (hkey : node.key = key) :
      Next cipher m (.get key) .find ⟨m, .loadMeta node.cell, .silent, false⟩
  | read {key cell p md} (hp : m.cells[cell]? = some p) (hmd : m.metas[p]? = some md) :
      Next cipher m (.get key) (.loadMeta cell)
        ⟨m, .decrypt p, .point (.get md.ret), false⟩
  | opened {key p r} (hr : m.decryptNode cipher p = some r) :
      Next cipher m (.get key) (.decrypt p) ⟨m, .done (.get r), .ret (.get r), false⟩
  | left {op r} : Next cipher m op (.exit r) ⟨m, .done r, .ret r, false⟩

theorem casWeak_cases {m : Mem S} {cell expected desired : Nat} {spurious : Bool}
    {x : Bool × List Nat × Nat} (h : m.casWeak cell expected desired spurious = some x) :
    (m.cells[cell]? = some expected ∧ x = (true, m.cells.set cell desired, expected)) ∨
    (∃ cur, m.cells[cell]? = some cur ∧ x = (false, m.cells, cur)) := by
  simp only [Mem.casWeak, Option.bind_eq_bind, Option.bind_eq_some_iff] at h
  obtain ⟨cur, hcur, h⟩ := h
  split at h
  · rename_i heq
    rw [Option.some.injEq] at h
    exact Or.inl ⟨heq.1 ▸ hcur, h.symm⟩
  · rw [Option.some.injEq] at h
    exact Or.inr ⟨cur, hcur, h.symm⟩

/-- **The steps of a call, inverted.** -/
theorem next_cases {cipher : CipherSsl} {m : Mem S} {spurious : Bool} {op : Op} {pc : Pc}
    {e : Effect S} (hS : S.Lawful VarKeySizeNode.lt)
    (h : m.next cipher spurious op pc = some e) : Next cipher m op pc e := by
  cases op with
  | put key value clock =>
    cases pc with
    | add new =>
      rcases hS.add_cases m.list ⟨key, m.cells.length⟩ with
        ⟨list, heq, helems, hnew⟩ | ⟨list, node, heq, helems, hmem, hinc⟩
      · simp only [Mem.next, heq, if_true, Option.some.injEq] at h
        subst h
        refine .inserted (fun n hn hk => hnew n hn ?_) helems
        exact VarKeySizeNode.incompRel_iff.mpr hk
      · simp only [Mem.next, heq, Bool.false_eq_true, if_false, Option.some.injEq] at h
        subst h
        exact .found hmem (VarKeySizeNode.incompRel_iff.mp hinc) helems
    | load new cell =>
      simp only [Mem.next, Option.bind_eq_bind, Option.bind_eq_some_iff, Option.some.injEq] at h
      obtain ⟨old, hold, rfl⟩ := h
      exact .loaded hold
    | loop new cell old =>
      simp only [Mem.next, Option.bind_eq_bind, Option.bind_eq_some_iff] at h
      obtain ⟨oldMeta, hmeta, h⟩ := h
      by_cases hlt : oldMeta.clock < clock
      · rw [if_pos hlt, Option.bind_eq_some_iff] at h
        obtain ⟨x, hx, h⟩ := h
        rcases casWeak_cases hx with ⟨hcur, rfl⟩ | ⟨cur, hcur, rfl⟩
        · simp only [hlt, decide_true, Option.some.injEq] at h
          subst h
          exact .swapped hmeta hlt hcur
        · simp only [Option.some.injEq] at h
          subst h
          exact .reloaded hcur
      · simp only [hlt, if_false, decide_false, Option.some.injEq] at h
        subst h
        exact .refused hmeta (not_lt.mp hlt)
    | exit r =>
      simp only [Mem.next, Option.some.injEq] at h
      subst h
      exact .left
    | find => exact absurd h (by simp [Mem.next])
    | loadMeta cell => exact absurd h (by simp [Mem.next])
    | decrypt p => exact absurd h (by simp [Mem.next])
    | done r => exact absurd h (by simp [Mem.next])
  | get key =>
    cases pc with
    | find =>
      cases hf : S.find m.list ⟨key, m.cells.length⟩ with
      | none =>
        simp only [Mem.next, hf, Option.some.injEq] at h
        subst h
        refine .missing fun n hn hk => hS.find_none hf n hn ?_
        exact VarKeySizeNode.incompRel_iff.mpr hk
      | some node =>
        simp only [Mem.next, hf, Option.some.injEq] at h
        subst h
        obtain ⟨hmem, hinc⟩ := hS.find_some hf
        exact .located hmem (VarKeySizeNode.incompRel_iff.mp hinc)
    | loadMeta cell =>
      simp only [Mem.next, Option.bind_eq_bind, Option.bind_eq_some_iff, Option.some.injEq] at h
      obtain ⟨p, hp, md, hmd, rfl⟩ := h
      exact .read hp hmd
    | decrypt p =>
      simp only [Mem.next, Option.bind_eq_bind, Option.bind_eq_some_iff, Option.some.injEq] at h
      obtain ⟨r, hr, rfl⟩ := h
      exact .opened hr
    | exit r =>
      simp only [Mem.next, Option.some.injEq] at h
      subst h
      exact .left
    | add new => exact absurd h (by simp [Mem.next])
    | load new cell => exact absurd h (by simp [Mem.next])
    | loop new cell old => exact absurd h (by simp [Mem.next])
    | done r => exact absurd h (by simp [Mem.next])

end Memtable

end Avocado
