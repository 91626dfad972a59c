/-
# The concurrent memory refines the sequential store

`Mem.kv` reads the memory as the map of `Memtable/Store.lean`: a key's entry is the `MetaData`
that the node with this key points to.  Three facts hold along every run, whatever the host does
to the slab.  The memory stays well formed (`Mem.Ok`): one node for a key, one cell for a node.
It only grows (`Mem.Le`): nodes stay, `MetaData` objects do not change, and the clock in a cell is
never lowered.  And a call's program counter fits the memory (`Mem.CallOk`).

`Next.refines` is the simulation: a step that is the point of its call changes the map as the
sequential operation does and has its result; every other step leaves the map alone.
-/
import Avocado.Memtable.Concurrent

namespace Avocado.Memtable

variable {S : AtomicSet VarKeySizeNode} {cipher : CipherSsl} {m m' : Mem S}

/-- The sequential store as an object. -/
def kvObject : History.Object KVStore Op Res where
  init := .empty
  apply kv
    | .put key value clock => ((kv.put key value clock).1, .put (kv.put key value clock).2)
    | .get key => (kv, .get (kv.get key))

@[simp] theorem kvObject_put (kv : KVStore) (key value : List UInt8) (clock : Lamport) :
    kvObject.apply kv (.put key value clock) =
      ((kv.put key value clock).1, .put (kv.put key value clock).2) := rfl

@[simp] theorem kvObject_get (kv : KVStore) (key : List UInt8) :
    kvObject.apply kv (.get key) = (kv, .get (kv.get key)) := rfl

/-! ## 1. Well-formed memory -/

namespace Mem

/-- The entry that a cell points to. -/
def metaOf (m : Mem S) (cell : Nat) : Option SealedMeta := do m.metas[← m.cells[cell]?]?

/-- The memory as a map from keys to entries. -/
def kv (m : Mem S) : KVStore where
  find key := do
    let node ← S.find m.list ⟨key, m.cells.length⟩
    let md ← m.metaOf node.cell
    some md.entry

/-- Well-formed memory. -/
structure Ok (m : Mem S) : Prop where
  cell : ∀ n ∈ S.elems m.list, n.cell < m.cells.length
  ptr : ∀ p ∈ m.cells, p < m.metas.length
  cell_inj : ∀ n ∈ S.elems m.list, ∀ n' ∈ S.elems m.list, n.cell = n'.cell → n = n'
  key_inj : ∀ n ∈ S.elems m.list, ∀ n' ∈ S.elems m.list, n.key = n'.key → n = n'

theorem metaOf_eq_some {cell : Nat} {md : SealedMeta} :
    m.metaOf cell = some md ↔ ∃ p, m.cells[cell]? = some p ∧ m.metas[p]? = some md := by
  simp [metaOf, Option.bind_eq_some_iff]

/-- Every node has an entry. -/
theorem Ok.metaOf_isSome (hok : m.Ok) {n : VarKeySizeNode} (hn : n ∈ S.elems m.list) :
    ∃ md, m.metaOf n.cell = some md := by
  have hcell := hok.cell n hn
  have hptr : m.cells[n.cell] < m.metas.length := hok.ptr _ (List.getElem_mem hcell)
  exact ⟨m.metas[m.cells[n.cell]], metaOf_eq_some.mpr
    ⟨m.cells[n.cell], List.getElem?_eq_getElem hcell, List.getElem?_eq_getElem hptr⟩⟩

/-- **The entry of a key** is that of its node. -/
theorem Ok.kv_find (hok : m.Ok) (hS : S.Lawful VarKeySizeNode.lt) {n : VarKeySizeNode}
    (hn : n ∈ S.elems m.list) : m.kv.find n.key = (m.metaOf n.cell).map SealedMeta.entry := by
  have hfind : S.find m.list ⟨n.key, m.cells.length⟩ = some n := by
    cases hf : S.find m.list ⟨n.key, m.cells.length⟩ with
    | none => exact absurd (VarKeySizeNode.incompRel_iff.mpr rfl) (hS.find_none hf n hn)
    | some n' =>
      obtain ⟨hmem, hinc⟩ := hS.find_some hf
      rw [hok.key_inj n' hmem n hn (VarKeySizeNode.incompRel_iff.mp hinc)]
  simp only [kv, hfind, Option.bind_eq_bind, Option.bind_some]
  cases m.metaOf n.cell <;> rfl

theorem kv_find_none (hS : S.Lawful VarKeySizeNode.lt) {key : List UInt8}
    (h : ∀ n ∈ S.elems m.list, n.key ≠ key) : m.kv.find key = none := by
  have hfind : S.find m.list ⟨key, m.cells.length⟩ = none := by
    cases hf : S.find m.list ⟨key, m.cells.length⟩ with
    | none => rfl
    | some n =>
      obtain ⟨hmem, hinc⟩ := hS.find_some hf
      exact absurd (VarKeySizeNode.incompRel_iff.mp hinc) (h n hmem)
  simp only [kv, hfind, Option.bind_eq_bind, Option.bind_none]

theorem Ok.kv_find_eq_some (hok : m.Ok) (hS : S.Lawful VarKeySizeNode.lt) {key : List UInt8}
    {en : MetaData} (h : m.kv.find key = some en) :
    ∃ n ∈ S.elems m.list, n.key = key ∧ ∃ md, m.metaOf n.cell = some md ∧ md.entry = en := by
  by_cases hn : ∃ n ∈ S.elems m.list, n.key = key
  · obtain ⟨n, hmem, rfl⟩ := hn
    obtain ⟨md, hmd⟩ := hok.metaOf_isSome hmem
    rw [hok.kv_find hS hmem, hmd] at h
    exact ⟨n, hmem, rfl, md, hmd, Option.some.inj h⟩
  · rw [kv_find_none hS fun n hmem hkey => hn ⟨n, hmem, hkey⟩] at h
    exact absurd h (by simp)

/-- Two memories with the same nodes and the same entries are the same map. -/
theorem Ok.kv_congr (hok : m.Ok) (hok' : m'.Ok) (hS : S.Lawful VarKeySizeNode.lt)
    (helems : S.elems m'.list = S.elems m.list)
    (hmeta : ∀ n ∈ S.elems m.list, m'.metaOf n.cell = m.metaOf n.cell) : m'.kv = m.kv := by
  ext1
  funext key
  by_cases hn : ∃ n ∈ S.elems m.list, n.key = key
  · obtain ⟨n, hmem, rfl⟩ := hn
    rw [hok.kv_find hS hmem, hok'.kv_find hS (helems ▸ hmem), hmeta n hmem]
  · have hnone : ∀ n ∈ S.elems m.list, n.key ≠ key := fun n hmem hkey => hn ⟨n, hmem, hkey⟩
    rw [kv_find_none hS hnone, kv_find_none hS (helems ▸ hnone)]

/-- A memory that differs in the entry of one key. -/
theorem Ok.kv_set (hok : m.Ok) (hok' : m'.Ok) (hS : S.Lawful VarKeySizeNode.lt)
    {node : VarKeySizeNode} {md : SealedMeta}
    (helems : S.elems m'.list = insert node (S.elems m.list))
    (hnode : m'.metaOf node.cell = some md)
    (hmeta : ∀ n ∈ S.elems m.list, n.key ≠ node.key → m'.metaOf n.cell = m.metaOf n.cell) :
    m'.kv = m.kv.set node.key md.entry := by
  ext1
  funext key
  have hmem' : node ∈ S.elems m'.list := helems ▸ Set.mem_insert _ _
  by_cases hk : key = node.key
  · subst hk
    rw [KVStore.find_set_self, hok'.kv_find hS hmem', hnode]
    rfl
  · rw [KVStore.find_set_of_ne hk]
    by_cases hn : ∃ n ∈ S.elems m.list, n.key = key
    · obtain ⟨n, hmem, rfl⟩ := hn
      rw [hok.kv_find hS hmem, hok'.kv_find hS (helems ▸ Set.mem_insert_of_mem _ hmem),
        hmeta n hmem hk]
    · have hnone : ∀ n ∈ S.elems m.list, n.key ≠ key := fun n hmem hkey => hn ⟨n, hmem, hkey⟩
      rw [kv_find_none hS hnone, kv_find_none hS]
      intro n hmem
      rw [helems] at hmem
      rcases Set.mem_insert_iff.mp hmem with rfl | hmem
      · exact fun hkey => hk hkey.symm
      · exact hnone n hmem

/-! ## 2. The memory only grows -/

/-- `m'` is a later state of `m`. -/
structure Le (m m' : Mem S) : Prop where
  elems : S.elems m.list ⊆ S.elems m'.list
  metas : ∀ {p : Nat} {md}, m.metas[p]? = some md → m'.metas[p]? = some md
  clocks : ∀ {cell md}, m.metaOf cell = some md →
    ∃ md', m'.metaOf cell = some md' ∧ md.clock ≤ md'.clock

theorem Le.refl (m : Mem S) : m.Le m where
  elems := subset_rfl
  metas := id
  clocks := fun h => ⟨_, h, le_refl _⟩

theorem Le.trans {m'' : Mem S} (h : m.Le m') (h' : m'.Le m'') : m.Le m'' where
  elems := h.elems.trans h'.elems
  metas := fun hp => h'.metas (h.metas hp)
  clocks := by
    intro cell md hmd
    obtain ⟨md', hmd', hle⟩ := h.clocks hmd
    obtain ⟨md'', hmd'', hle'⟩ := h'.clocks hmd'
    exact ⟨md'', hmd'', le_trans hle hle'⟩

/-- The entries of a growing memory keep their keys, and their clocks do not go back. -/
theorem Le.kv_find (h : m.Le m') (hok : m.Ok) (hok' : m'.Ok) (hS : S.Lawful VarKeySizeNode.lt)
    {key : List UInt8} {en : MetaData} (hen : m.kv.find key = some en) :
    ∃ en', m'.kv.find key = some en' ∧ en.clock ≤ en'.clock := by
  obtain ⟨n, hn, rfl, md, hmd, rfl⟩ := hok.kv_find_eq_some hS hen
  obtain ⟨md', hmd', hle⟩ := h.clocks hmd
  refine ⟨md'.entry, ?_, hle⟩
  rw [hok'.kv_find hS (h.elems hn), hmd']
  rfl

/-! ## 3. Calls that fit the memory -/

/-- `new` is the node's new `MetaData` of a put. -/
def Holds (m : Mem S) (new : Nat) (value : List UInt8) (clock : Lamport) : Prop :=
  ∃ md, m.metas[new]? = some md ∧ md.clock = clock ∧ md.value = value

/-- `cell` is that of the key's node. -/
def Has (m : Mem S) (key : List UInt8) (cell : Nat) : Prop :=
  ∃ n ∈ S.elems m.list, n.key = key ∧ n.cell = cell

/-- A call fits the memory.  In the loop, the expected entry is not newer than the present
one. -/
def CallOk (m : Mem S) : Op → Pc → Prop
  | .put _ value clock, .add new => m.Holds new value clock
  | .put key value clock, .load new cell => m.Holds new value clock ∧ m.Has key cell
  | .put key value clock, .loop new cell old =>
    m.Holds new value clock ∧ m.Has key cell ∧
      ∃ mo md, m.metas[old]? = some mo ∧ m.metaOf cell = some md ∧ mo.clock ≤ md.clock
  | .get _, .find => True
  | .get key, .loadMeta cell => m.Has key cell
  | .get _, .decrypt p => ∃ md, m.metas[p]? = some md
  | _, .exit _ => True
  | _, .done _ => True
  | _, _ => False

theorem Holds.mono {new : Nat} {value : List UInt8} {clock : Lamport} (hle : m.Le m')
    (h : m.Holds new value clock) : m'.Holds new value clock := by
  obtain ⟨md, hmd, hc, hv⟩ := h
  exact ⟨md, hle.metas hmd, hc, hv⟩

theorem Has.mono {key : List UInt8} {cell : Nat} (hle : m.Le m') (h : m.Has key cell) :
    m'.Has key cell := by
  obtain ⟨n, hn, hk, hc⟩ := h
  exact ⟨n, hle.elems hn, hk, hc⟩

/-- Other steps do not disturb a call. -/
theorem CallOk.mono {op : Op} {pc : Pc} (hle : m.Le m') (h : m.CallOk op pc) : m'.CallOk op pc := by
  cases op with
  | put key value clock =>
    cases pc with
    | add new => exact Holds.mono hle h
    | load new cell => exact ⟨Holds.mono hle h.1, Has.mono hle h.2⟩
    | loop new cell old =>
      obtain ⟨hnew, hcell, mo, md, hmo, hmd, hclock⟩ := h
      obtain ⟨md', hmd', hle'⟩ := hle.clocks hmd
      exact ⟨hnew.mono hle, hcell.mono hle, mo, md', hle.metas hmo, hmd', le_trans hclock hle'⟩
    | _ => exact h
  | get key =>
    cases pc with
    | loadMeta cell => exact Has.mono hle h
    | decrypt p =>
      obtain ⟨md, hmd⟩ := h
      exact ⟨md, hle.metas hmd⟩
    | _ => exact h

end Mem

/-! ## 4. The steps of a call -/

namespace Next

variable {op : Op} {pc : Pc} {e : Effect S}

theorem ok (h : Next cipher m op pc e) (hok : m.Ok) (hcall : m.CallOk op pc) : e.mem.Ok := by
  cases h with
  | @inserted key value clock new list hnew helems =>
    obtain ⟨md, hmd, -, -⟩ := hcall
    have hlt := (List.getElem?_eq_some_iff.mp hmd).1
    have hne : ∀ n ∈ S.elems m.list, n.cell ≠ m.cells.length := by
      intro n hn heq
      exact absurd (hok.cell n hn) (by omega)
    constructor
    · intro n hn
      simp only [List.length_append, List.length_singleton]
      rcases Set.mem_insert_iff.mp (helems ▸ hn) with rfl | hn
      · exact Nat.lt_succ_self _
      · exact Nat.lt_succ_of_lt (hok.cell n hn)
    · intro p hp
      rcases List.mem_append.mp hp with hp | hp
      · exact hok.ptr p hp
      · rw [List.mem_singleton.mp hp]
        exact hlt
    · intro n hn n' hn' heq
      rcases Set.mem_insert_iff.mp (helems ▸ hn) with rfl | hn <;>
        rcases Set.mem_insert_iff.mp (helems ▸ hn') with rfl | hn'
      · rfl
      · exact absurd heq.symm (hne n' hn')
      · exact absurd heq (hne n hn)
      · exact hok.cell_inj n hn n' hn' heq
    · intro n hn n' hn' heq
      rcases Set.mem_insert_iff.mp (helems ▸ hn) with rfl | hn <;>
        rcases Set.mem_insert_iff.mp (helems ▸ hn') with rfl | hn'
      · rfl
      · exact absurd heq.symm (hnew n' hn')
      · exact absurd heq (hnew n hn)
      · exact hok.key_inj n hn n' hn' heq
  | found hmem hkey helems =>
    exact ⟨helems ▸ hok.cell, hok.ptr, helems ▸ hok.cell_inj, helems ▸ hok.key_inj⟩
  | swapped hmeta hlt hcur =>
    obtain ⟨⟨md, hmd, -, -⟩, -⟩ := hcall
    refine ⟨?_, ?_, hok.cell_inj, hok.key_inj⟩
    · simpa using hok.cell
    · intro p hp
      rcases List.mem_or_eq_of_mem_set hp with hp | rfl
      · exact hok.ptr p hp
      · exact (List.getElem?_eq_some_iff.mp hmd).1
  | _ => exact hok

/-- `MetaData` objects are made by `create_node` only. -/
theorem metas_eq (h : Next cipher m op pc e) : e.mem.metas = m.metas := by
  cases h <;> rfl

/-- A step of a call does not write the slab. -/
theorem slab_eq (h : Next cipher m op pc e) : e.mem.slab = m.slab := by
  cases h <;> rfl

/-- The entries after a compare-exchange that succeeded. -/
theorem metaOf_set {cell cell' old new : Nat} (hcur : m.cells[cell]? = some old) :
    Mem.metaOf { m with cells := m.cells.set cell new } cell' =
      if cell' = cell then m.metas[new]? else m.metaOf cell' := by
  have hlt := (List.getElem?_eq_some_iff.mp hcur).1
  unfold Mem.metaOf
  by_cases hc : cell' = cell
  · subst hc
    simp [List.getElem?_set_self hlt]
  · simp [List.getElem?_set_ne (Ne.symm hc), hc]

/-- The entries after an insertion. -/
theorem metaOf_append {cell new : Nat} {list : S.Rep} (hcell : cell < m.cells.length) :
    Mem.metaOf { m with list, cells := m.cells ++ [new] } cell = m.metaOf cell := by
  unfold Mem.metaOf
  rw [List.getElem?_append_left hcell]

theorem metaOf_lt {cell : Nat} {md : SealedMeta} (h : m.metaOf cell = some md) :
    cell < m.cells.length := by
  obtain ⟨p, hp, -⟩ := Mem.metaOf_eq_some.mp h
  exact (List.getElem?_eq_some_iff.mp hp).1

theorem le (h : Next cipher m op pc e) (hcall : m.CallOk op pc) : m.Le e.mem := by
  cases h with
  | inserted hnew helems =>
    refine ⟨helems ▸ Set.subset_insert _ _, id, ?_⟩
    intro cell md hmd
    exact ⟨md, (metaOf_append (metaOf_lt hmd)).trans hmd, le_refl _⟩
  | found hmem hkey helems =>
    exact ⟨helems ▸ subset_rfl, id, fun h => ⟨_, h, le_refl _⟩⟩
  | @swapped key value clock new cell old oldMeta hmeta hlt hcur =>
    obtain ⟨⟨mn, hmn, hclock, -⟩, -⟩ := hcall
    refine ⟨subset_rfl, id, ?_⟩
    intro cell' md hmd
    rw [metaOf_set hcur]
    by_cases hc : cell' = cell
    · subst hc
      rw [if_pos rfl]
      -- the entry that is replaced is the expected one, which is older
      have hmd' : m.metaOf cell' = some oldMeta := Mem.metaOf_eq_some.mpr ⟨old, hcur, hmeta⟩
      rw [hmd', Option.some.injEq] at hmd
      exact ⟨mn, hmn, hmd ▸ hclock ▸ le_of_lt hlt⟩
    · rw [if_neg hc]
      exact ⟨md, hmd, le_refl _⟩
  | _ => exact Mem.Le.refl _

theorem callOk (h : Next cipher m op pc e) (hok : m.Ok) (hcall : m.CallOk op pc) :
    e.mem.CallOk op e.pc := by
  cases h with
  | found hmem hkey helems =>
    exact ⟨hcall, _, helems ▸ hmem, hkey, rfl⟩
  | loaded hold =>
    obtain ⟨hnew, hcell⟩ := hcall
    obtain ⟨n, hn, hk, rfl⟩ := hcell
    obtain ⟨md, hmd⟩ := hok.metaOf_isSome hn
    obtain ⟨p, hp, hmd'⟩ := Mem.metaOf_eq_some.mp hmd
    rw [hold, Option.some.injEq] at hp
    exact ⟨hnew, ⟨n, hn, hk, rfl⟩, md, md, hp ▸ hmd', hmd, le_refl _⟩
  | reloaded hcur =>
    obtain ⟨hnew, hcell, -⟩ := hcall
    obtain ⟨n, hn, hk, rfl⟩ := hcell
    obtain ⟨md, hmd⟩ := hok.metaOf_isSome hn
    obtain ⟨p, hp, hmd'⟩ := Mem.metaOf_eq_some.mp hmd
    rw [hcur, Option.some.injEq] at hp
    exact ⟨hnew, ⟨n, hn, hk, rfl⟩, md, md, hp ▸ hmd', hmd, le_refl _⟩
  | located hmem hkey => exact ⟨_, hmem, hkey, rfl⟩
  | read hp hmd => exact ⟨_, hmd⟩
  | inserted => trivial
  | swapped => trivial
  | refused => trivial
  | missing => trivial
  | opened => trivial
  | left => cases op <;> trivial

/-- **The simulation.**  A point has the effect and the result of the sequential operation; the
other steps do not change the map. -/
theorem refines (h : Next cipher m op pc e) (hS : S.Lawful VarKeySizeNode.lt) (hok : m.Ok)
    (hcall : m.CallOk op pc) :
    match e.note with
    | .point r => kvObject.apply m.kv op = (e.mem.kv, r)
    | _ => e.mem.kv = m.kv := by
  have hok' : e.mem.Ok := h.ok hok hcall
  cases h with
  | @inserted key value clock new list hnew helems =>
    obtain ⟨md, hmd, rfl, rfl⟩ := hcall
    have hnode : Mem.metaOf { m with cells := m.cells ++ [new], list } m.cells.length = some md :=
      Mem.metaOf_eq_some.mpr ⟨new, List.getElem?_concat_length, hmd⟩
    have hkv := hok.kv_set hok' hS helems hnode fun n hn _ => metaOf_append (hok.cell n hn)
    simp only [kvObject_put, KVStore.put, Mem.kv_find_none hS hnew]
    rw [hkv]
    rfl
  | found hmem hkey helems => exact hok.kv_congr hok' hS helems fun _ _ => rfl
  | loaded => rfl
  | @swapped key value clock new cell old oldMeta hmeta hlt hcur =>
    obtain ⟨⟨md, hmd, rfl, rfl⟩, ⟨n, hn, rfl, rfl⟩, -⟩ := hcall
    have hnode : Mem.metaOf { m with cells := m.cells.set n.cell new } n.cell = some md := by
      rw [metaOf_set hcur, if_pos rfl, hmd]
    have hkv := hok.kv_set hok' hS (Set.insert_eq_of_mem hn).symm hnode fun n' hn' hne => by
      rw [metaOf_set hcur, if_neg]
      exact fun heq => hne (by rw [hok.cell_inj n' hn' n hn heq])
    have hfind : m.kv.find n.key = some oldMeta.entry := by
      rw [hok.kv_find hS hn, Mem.metaOf_eq_some.mpr ⟨old, hcur, hmeta⟩]
      rfl
    have hlt' : oldMeta.entry.clock < md.clock := hlt
    simp only [kvObject_put, KVStore.put, hfind, if_pos hlt']
    rw [hkv]
    rfl
  | reloaded => rfl
  | @refused key value clock new cell old oldMeta hmeta hle =>
    obtain ⟨-, ⟨n, hn, rfl, rfl⟩, mo, md, hmo, hmd, hclock⟩ := hcall
    rw [hmeta, Option.some.injEq] at hmo
    have hfind : m.kv.find n.key = some md.entry := by
      rw [hok.kv_find hS hn, hmd]
      rfl
    have hlt' : ¬ md.entry.clock < clock := not_lt.mpr (le_trans hle (hmo ▸ hclock))
    simp only [kvObject_put, KVStore.put, hfind, if_neg hlt']
  | missing hnone =>
    simp only [kvObject_get, KVStore.get, Mem.kv_find_none hS hnone]
  | located => rfl
  | read hp hmd =>
    obtain ⟨n, hn, rfl, rfl⟩ := hcall
    have hfind := hok.kv_find hS hn
    rw [Mem.metaOf_eq_some.mpr ⟨_, hp, hmd⟩, Option.map_some] at hfind
    simp only [kvObject_get, KVStore.get_of_some hfind]
    rfl
  | opened => rfl
  | left => rfl

end Next

end Avocado.Memtable
