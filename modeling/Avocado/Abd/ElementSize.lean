/-
# The element size of the slab (`server.cpp`, `meta_data.h`, `memtable.h`)

`main` creates the allocator of the store with elements of `max_value_size` bytes, and each call of
`create_node` takes one of them and lets the constructor of `MetaData` encrypt the value into it.
The value has as many bytes as the message it comes from says: those of `get_msg` are sized by
`value_size`, an option of its own, and those of a request by the peer that sent it.  Nobody
compares them with `max_value_size`.

This file is about one server: its store, with the calls on it and the host, and everything that
makes nodes.  `sizes_run` says which sizes a run has written.
-/
import Avocado.Abd.ParkedValue

namespace Avocado.Memtable

/-! ## 1. The server -/

/-- `struct Args`: the element size of the allocator, and the size of the values of the benchmark. -/
structure StoreArgs where
  maxValueSize : BitVec 64
  valueSize : BitVec 64
  deriving DecidableEq, Repr

/-- `Args::Args`.  `asLong` gives a `long`, which is stored in a `size_t`. -/
def StoreArgs.new (maxValueSize valueSize : Int) : StoreArgs where
  maxValueSize := BitVec.ofInt 64 maxValueSize
  valueSize := BitVec.ofInt 64 valueSize

/-- What happens at a server: an operation of the benchmark, a request, the calls of `kv.get` and
`kv.put(node)` in the continuations, a step of a call, or a write of the host. -/
inductive ServerAction
  | benchmarkPut (key : List UInt8)
  | benchmarkGet (key : List UInt8)
  | request (type : ReqType) (buf : MsgBuffer)
  | get (key : List UInt8)
  | putNode (key : List UInt8) (p : Nat) (clock : Lamport)
  | advance (i : Nat) (spurious : Bool)
  | overwrite (p : Nat) (bytes : List UInt8)
  deriving DecidableEq

section Server

variable {S : AtomicSet VarKeySizeNode}

/-- `ABD::req_handlers<TYPE>`, as far as it uses the store. -/
def State.handle (cipher : CipherSsl) (s : State S) (type : ReqType) (buf : MsgBuffer) :
    Option (State S) := do
  match type with
  | .put =>
    let data ← getData buf
    let key ← data.getKey
    let value ← data.getValue
    let node ← createNode key value Lamport.min
    some (s.park cipher node.metaData.data)
  | .get =>
    let data ← getData buf
    let key ← data.getKey
    let node ← createNode key ⟨0, none⟩ Lamport.min
    some (s.park cipher node.metaData.data)
  | .putReplica =>
    let data ← getData buf
    let (k, v, clock) ← replicaEntry data
    step cipher s (.put k v clock)
  | .getTimeStamp | .getValueTimeStamp =>
    let data ← getData buf
    let key ← data.getKey
    let k ← key.bytes
    step cipher s (.get k)
  | .cmd => some s

/-- One step of a server.  `run_event_loop` leaves the value in the message of `get_msg` as it is,
zero. -/
def serverStep (cipher : CipherSsl) (args : StoreArgs) (s : State S) : ServerAction → Option (State S)
  | .benchmarkPut key => do
    let msg ← State.getMsg key (List.replicate args.valueSize.toNat 0)
    let key ← msg.getKey
    let value ← msg.getValue
    let node ← createNode key value Lamport.min
    some (s.park cipher node.metaData.data)
  | .benchmarkGet key => do
    let msg ← State.getMsg key (List.replicate args.valueSize.toNat 0)
    let key ← msg.getKey
    let node ← createNode key ⟨0, none⟩ Lamport.min
    some (s.park cipher node.metaData.data)
  | .request type buf => s.handle cipher type buf
  | .get key => step cipher s (.get key)
  | .putNode key p clock => s.putNode key p clock
  | .advance i spurious => step cipher s (.advance i spurious)
  | .overwrite p bytes => step cipher s (.overwrite p bytes)

end Server

/-! ## 2. The sizes that are written -/

/-- The action makes a node. -/
def ServerAction.creates : ServerAction → Bool
  | .benchmarkPut _ | .benchmarkGet _ => true
  | .request type _ => type = .put || type = .get || type = .putReplica
  | _ => false

/-- The size of the value that the action brings: `value_size`, or `get_value_size()` of the
request. -/
def ServerAction.valueSize (args : StoreArgs) : ServerAction → Nat
  | .benchmarkPut _ => args.valueSize.toNat
  | .request .put buf | .request .putReplica buf => buf.text.getValueSize.getD 0
  | _ => 0

/-- The sizes of all values that the constructor of `MetaData` has written. -/
def State.sizes {S : AtomicSet VarKeySizeNode} (s : State S) : List Nat :=
  s.mem.metas.map SealedMeta.dataSize

section Sizes

variable {S : AtomicSet VarKeySizeNode} {cipher : CipherSsl} {args : StoreArgs} {s s' : State S}

@[simp] theorem sizes_park (s : State S) (cipher : CipherSsl) (value : List UInt8) :
    (s.park cipher value).sizes = s.sizes ++ [value.length] := by
  simp [State.sizes, State.park, Mem.createNode]

theorem sizes_get (cipher : CipherSsl) {key : List UInt8}
    (h : step cipher s (.get key) = some s') :
    s'.sizes = s.sizes ++ [] := by
  rw [step, Option.some.injEq] at h
  rw [← h, List.append_nil]
  rfl

/-- A step of a call makes no `MetaData`. -/
theorem metas_next {m : Mem S} {spurious : Bool} {op : Op} {pc : Pc} {e : Effect S}
    (h : m.next cipher spurious op pc = some e) : e.mem.metas = m.metas := by
  have hinj : ∀ {x : Effect S}, some x = some e → x.mem.metas = m.metas → e.mem.metas = m.metas := by
    intro x hx hm
    exact Option.some.inj hx ▸ hm
  unfold Mem.next at h
  split at h
  case h_1 =>
    split at h
    split at h
    · exact hinj h rfl
    · exact hinj h rfl
  case h_2 =>
    obtain ⟨old, -, h⟩ := Option.bind_eq_some_iff.mp h
    exact hinj h rfl
  case h_3 =>
    obtain ⟨oldMeta, -, h⟩ := Option.bind_eq_some_iff.mp h
    split at h
    · obtain ⟨⟨swapped, cells, old⟩, -, h⟩ := Option.bind_eq_some_iff.mp h
      cases swapped with
      | true => exact hinj h rfl
      | false => exact hinj h rfl
    · exact hinj h rfl
  case h_4 =>
    split at h
    · exact hinj h rfl
    · exact hinj h rfl
  case h_5 =>
    obtain ⟨p, -, h⟩ := Option.bind_eq_some_iff.mp h
    obtain ⟨md, -, h⟩ := Option.bind_eq_some_iff.mp h
    exact hinj h rfl
  case h_6 =>
    obtain ⟨r, -, h⟩ := Option.bind_eq_some_iff.mp h
    exact hinj h rfl
  case h_7 => exact hinj h rfl
  case h_8 => exact absurd h (by simp)

theorem sizes_put {key value : List UInt8} {clock : Lamport}
    (h : step cipher s (.put key value clock) = some s') :
    s'.sizes = s.sizes ++ [value.length] := by
  rw [step, Option.some.injEq] at h
  subst h
  simp [State.sizes, State.invoke, Mem.createNode]

/-- The value of a node is as long as the span it was made from says. -/
theorem length_createNode {key value : Span} {clock : Lamport} {node : Node}
    (h : createNode key value clock = some node) : node.metaData.data.length = value.size := by
  simp only [createNode, Option.bind_eq_bind, Option.bind_eq_some_iff, Option.some.injEq] at h
  obtain ⟨k, -, v, hv, rfl⟩ := h
  exact Ptr.length_read hv

/-- `get_value` and `get_value_size` agree. -/
theorem size_getValue {msg : Msg} {value : Span} (h : msg.getValue = some value) :
    msg.getValueSize = some value.size := by
  simp only [Msg.getValue, Option.bind_eq_bind, Option.bind_eq_some_iff] at h
  obtain ⟨size, hsize, keySize, hkeySize, h⟩ := h
  simp only [Msg.getValueSize, hsize, hkeySize, Option.bind_eq_bind, Option.bind_some]
  split at h
  · rename_i hlt
    rw [if_pos hlt, ← Option.some.inj h]
  · rename_i hle
    rw [if_neg hle, ← Option.some.inj h]

/-- The value that a `PutReplica` request puts. -/
theorem length_replicaEntry {msg : Msg} {e : List UInt8 × List UInt8 × Lamport}
    (h : replicaEntry msg = some e) : msg.getValueSize = some e.2.1.length := by
  simp only [replicaEntry, Option.bind_eq_bind, Option.bind_eq_some_iff, Option.some.injEq] at h
  obtain ⟨_, -, _, -, _, -, _, -, size, hsize, value, -, v, hv, rfl⟩ := h
  rw [hsize]
  exact congrArg some (Ptr.length_read hv).symm

theorem sizes_handle {type : ReqType} {buf : MsgBuffer}
    (h : s.handle cipher type buf = some s') :
    s'.sizes = s.sizes ++ if (ServerAction.request type buf).creates then
      [(ServerAction.request type buf).valueSize args] else [] := by
  have hdata : ∀ {data : Msg}, getData buf = some data → data = buf.text := by
    intro data hd
    simp only [getData] at hd
    split at hd
    · exact (Option.some.inj hd).symm
    · exact absurd hd (by simp)
  cases type with
  | put =>
    simp only [State.handle, Option.bind_eq_bind, Option.bind_eq_some_iff, Option.some.injEq] at h
    obtain ⟨data, hd, key, -, value, hv, node, hnode, rfl⟩ := h
    rw [hdata hd] at hv
    rw [sizes_park, length_createNode hnode]
    simp [ServerAction.creates, ServerAction.valueSize, size_getValue hv]
  | get =>
    simp only [State.handle, Option.bind_eq_bind, Option.bind_eq_some_iff, Option.some.injEq] at h
    obtain ⟨data, -, key, -, node, hnode, rfl⟩ := h
    rw [sizes_park, length_createNode hnode]
    simp [ServerAction.creates, ServerAction.valueSize]
  | putReplica =>
    simp only [State.handle, Option.bind_eq_bind, Option.bind_eq_some_iff] at h
    obtain ⟨data, hd, e, he, h⟩ := h
    rw [hdata hd] at he
    rw [sizes_put h]
    simp [ServerAction.creates, ServerAction.valueSize, length_replicaEntry he]
  | getTimeStamp =>
    simp only [State.handle, Option.bind_eq_bind, Option.bind_eq_some_iff] at h
    obtain ⟨data, -, key, -, k, -, h⟩ := h
    exact sizes_get cipher h
  | getValueTimeStamp =>
    simp only [State.handle, Option.bind_eq_bind, Option.bind_eq_some_iff] at h
    obtain ⟨data, -, key, -, k, -, h⟩ := h
    exact sizes_get cipher h
  | cmd =>
    rw [State.handle, Option.some.injEq] at h
    rw [← h]
    exact (List.append_nil _).symm

/-- **A step writes the value that the action brings**, if it makes a node, and none otherwise. -/
theorem sizes_step {a : ServerAction} (h : serverStep cipher args s a = some s') :
    s'.sizes = s.sizes ++ if a.creates then [a.valueSize args] else [] := by
  cases a with
  | benchmarkPut key =>
    simp only [serverStep, Option.bind_eq_bind, Option.bind_eq_some_iff, Option.some.injEq] at h
    obtain ⟨msg, hmsg, _, -, value, hv, node, hnode, rfl⟩ := h
    have himg := getMsg_eq_some hmsg
    have hsize := size_getValue hv
    rw [Msg.getValueSize_image himg, List.length_replicate, Option.some.injEq] at hsize
    rw [sizes_park, length_createNode hnode, ← hsize]
    rfl
  | benchmarkGet key =>
    simp only [serverStep, Option.bind_eq_bind, Option.bind_eq_some_iff, Option.some.injEq] at h
    obtain ⟨msg, -, _, -, node, hnode, rfl⟩ := h
    rw [sizes_park, length_createNode hnode]
    rfl
  | request type buf => exact sizes_handle h
  | get key => exact sizes_get cipher h
  | putNode key p clock =>
    simp only [serverStep, State.putNode, Option.bind_eq_bind, Option.bind_eq_some_iff,
      Option.some.injEq] at h
    obtain ⟨md, hmd, rfl⟩ := h
    refine Eq.trans ?_ (List.append_nil _).symm
    refine List.ext_getElem? fun q => ?_
    simp only [State.sizes, State.invoke, List.getElem?_map, List.getElem?_set]
    split
    · rename_i hq
      subst hq
      rw [if_pos (List.getElem?_eq_some_iff.mp hmd).1, hmd]
      rfl
    · rfl
  | advance i spurious =>
    simp only [serverStep, step, Option.bind_eq_bind, Option.bind_eq_some_iff,
      Option.some.injEq] at h
    obtain ⟨c, -, e, he, rfl⟩ := h
    refine Eq.trans ?_ (List.append_nil _).symm
    exact congrArg (List.map SealedMeta.dataSize) (metas_next he)
  | overwrite p bytes =>
    simp only [serverStep, step, Option.bind_eq_bind, Option.bind_eq_some_iff] at h
    obtain ⟨chunk, -, h⟩ := h
    split at h
    · rw [← Option.some.inj h]
      exact (List.append_nil _).symm
    · exact absurd h (by simp)

/-- **The sizes that a run has written** are those that its actions have brought. -/
theorem sizes_run {as : List ServerAction} (h : Run.exec (serverStep cipher args) s as = some s') :
    s'.sizes = s.sizes ++ (as.filter ServerAction.creates).map (ServerAction.valueSize args) := by
  induction as generalizing s with
  | nil =>
    rw [Run.exec, Option.some.injEq] at h
    rw [h, List.filter_nil, List.map_nil, List.append_nil]
  | cons a as ih =>
    rw [Run.exec, Option.bind_eq_some_iff] at h
    obtain ⟨t, ht, h⟩ := h
    rw [ih h, sizes_step ht, List.append_assoc]
    cases hc : a.creates with
    | true => rw [List.filter_cons_of_pos hc]; rfl
    | false => rw [List.filter_cons_of_neg (by simp [hc])]; rfl

end Sizes

/-! ## 3. When the values fit -/

/-- **Stored values fit their element**, in the run `as` from `s₀` on: no state that it passes
through has a value that is longer than `max_value_size`, and a step that brings a longer one leaves
the store as it is. -/
structure ValuesFit {S : AtomicSet VarKeySizeNode} (cipher : CipherSsl) (args : StoreArgs) (s₀ : State S)
    (as : List ServerAction) : Prop where
  fits : ∀ pre s, pre <+: as → Run.exec (serverStep cipher args) s₀ pre = some s →
    ∀ n ∈ s.sizes, n ≤ args.maxValueSize.toNat
  refuses : ∀ pre a s s', pre ++ [a] <+: as → Run.exec (serverStep cipher args) s₀ pre = some s →
    serverStep cipher args s a = some s' → args.maxValueSize.toNat < a.valueSize args →
    s'.mem = s.mem

section Fit

variable {S : AtomicSet VarKeySizeNode} {cipher : CipherSsl} {args : StoreArgs} {s : State S}
  {as : List ServerAction}

/-- An action without a value of its own brings nothing. -/
theorem valueSize_eq_zero {a : ServerAction} (h : a.creates = false) : a.valueSize args = 0 := by
  cases a with
  | request type buf =>
    cases type with
    | put | putReplica => exact absurd h (by simp [ServerAction.creates])
    | _ => rfl
  | benchmarkPut key => exact absurd h (by simp [ServerAction.creates])
  | _ => rfl

/-- **When the values of a run fit**: if no put of the benchmark, and no request, brings a value that
is longer than `max_value_size`. -/
theorem valuesFit_iff (hrun : Run.exec (serverStep cipher args) (State.init S) as = some s) :
    ValuesFit cipher args (State.init S) as ↔
      ∀ a ∈ as, a.valueSize args ≤ args.maxValueSize.toNat := by
  constructor
  · intro h a ha
    cases hc : a.creates with
    | false =>
      rw [valueSize_eq_zero hc]
      exact Nat.zero_le _
    | true =>
      refine h.fits as s List.prefix_rfl hrun _ ?_
      rw [sizes_run hrun]
      exact List.mem_append_right _ (List.mem_map_of_mem (List.mem_filter.mpr ⟨ha, hc⟩))
  · intro h
    constructor
    · intro pre t hpre ht n hn
      rw [sizes_run ht] at hn
      rcases List.mem_append.mp hn with hn | hn
      · exact absurd hn List.not_mem_nil
      · obtain ⟨a, ha, rfl⟩ := List.mem_map.mp hn
        exact h a (hpre.subset (List.mem_filter.mp ha).1)
    · intro pre a t t' hpre _ _ hlt
      have := h a (hpre.subset (List.mem_append_right _ (List.mem_singleton_self a)))
      omega

end Fit

/-- A peer's request to put `value` under the key `[1]`. -/
def replicaRequest (value : List UInt8) (h : value.length < 2 ^ 32) : ServerAction :=
  .request .putReplica ⟨true, ⟨image ([1] ++ (⟨1, 1⟩ : Lamport).toBytes) value [], by
    simp only [length_image, List.length_append, Lamport.length_toBytes, List.length_nil,
      List.length_singleton]
    omega⟩⟩

/-- The command line `-v 4 --value_size 4`, with a put and a peer's request. -/
theorem valuesFit_iff_four :
    (∃ s, Run.exec (serverStep maskCipher (StoreArgs.new 4 4))
      (State.init (AtomicSet.sorted VarKeySizeNode.lt))
      [.benchmarkPut [0, 0, 0, 0, 0, 0, 0, 7], replicaRequest [1, 2, 3] (by decide)] = some s) ∧
    (ValuesFit maskCipher (StoreArgs.new 4 4) (State.init (AtomicSet.sorted VarKeySizeNode.lt))
        [.benchmarkPut [0, 0, 0, 0, 0, 0, 0, 7], replicaRequest [1, 2, 3] (by decide)] ↔
      ∀ a ∈ [.benchmarkPut [0, 0, 0, 0, 0, 0, 0, 7], replicaRequest [1, 2, 3] (by decide)],
        a.valueSize (StoreArgs.new 4 4) ≤ (StoreArgs.new 4 4).maxValueSize.toNat) :=
  ⟨⟨_, rfl⟩, valuesFit_iff rfl⟩

/-- **A longer value is stored**: of five bytes where the elements have four. -/
theorem longValue_not_valuesFit :
    ∃ s, Run.exec (serverStep maskCipher (StoreArgs.new 4 4))
        (State.init (AtomicSet.sorted VarKeySizeNode.lt))
        [replicaRequest [1, 2, 3, 4, 5] (by decide)] = some s ∧ s.sizes = [5] ∧
      ¬ ValuesFit maskCipher (StoreArgs.new 4 4) (State.init (AtomicSet.sorted VarKeySizeNode.lt))
        [replicaRequest [1, 2, 3, 4, 5] (by decide)] := by
  refine ⟨_, rfl, rfl, fun h => ?_⟩
  have := h.fits _ _ List.prefix_rfl rfl 5 List.mem_cons_self
  exact absurd this (by decide)

end Avocado.Memtable
