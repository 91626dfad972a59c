/-
# The memtable over its slab allocator (`memtable.h`, `meta_data.h`)

`Memtable/Concurrent.lean` numbers the encrypted values and never uses a number twice.  The code
asks `alloc->alloc()` for an element of the slab, and the element goes back when the last reference
to its `MetaData` is dropped, so that one element holds many values in the course of a run.

The allocator is not part of this repository.  What is assumed of it is `SlabAlloc.Fresh`: an
element that it hands out is not one that a `MetaData` in use has.  In use are the objects that a
node of the skip list or a call on its way points to (`Hosted.refs`); that is fewer than the
reference counts keep alive, so the allocator may give an element back even earlier than it does.
A value is at most as long as an element (which options promise this is `Abd/ElementSize.lean`).

Every run over the slab is a run of the numbered store with the same calls, results and history
(`exists_run_of_hostedRun`), and no get decrypts a changed chunk in the one if none does in the
other.  So the store over the slab is the linearizable map as well (`highestClockWins_of_hosted`).
-/
import Mathlib.Logic.Function.Basic
import Avocado.Memtable.Linearizable

namespace Avocado.Memtable

open Lookup

variable {S : AtomicSet VarKeySizeNode} {Addr : Type} {cipher : CipherSsl}

/-! ## 1. The allocator and the store over it -/

/-- `slab::DynamicLockLessAllocator`, for elements of `elementSize` bytes: which elements `alloc`
may return while those of the list are in use. -/
structure SlabAlloc (Addr : Type) where
  elementSize : Nat
  mayReturn : List Addr → Addr → Bool

/-- An element that is in use is not handed out again. -/
def SlabAlloc.Fresh (alloc : SlabAlloc Addr) : Prop :=
  ∀ used a, alloc.mayReturn used a = true → a ∉ used

/-- The `MetaData` objects that a call points to. -/
def Pc.refs : Pc → List Nat
  | .add new => [new]
  | .load new _ => [new]
  | .loop new _ old => [new, old]
  | .decrypt p => [p]
  | _ => []

/-- The store with its values in the host's memory.  `place[p]` is `metas[p].data.get()`. -/
structure Hosted (S : AtomicSet VarKeySizeNode) (Addr : Type) where
  list : S.Rep
  cells : List Nat
  metas : List SealedMeta
  place : List Addr
  memory : Addr → List UInt8
  calls : List Call
  hist : List (History.Event Op Res)
  installed : List Nat

/-- As `Action`; a put is given the element `a`, and the host writes elements. -/
inductive SlabAction (Addr : Type)
  | put (key value : List UInt8) (clock : Lamport) (a : Addr)
  | get (key : List UInt8)
  | advance (i : Nat) (spurious : Bool)
  | overwrite (a : Addr) (bytes : List UInt8)
  deriving DecidableEq

namespace Hosted

/-- The empty store. -/
def init (S : AtomicSet VarKeySizeNode) (memory : Addr → List UInt8) : Hosted S Addr :=
  ⟨S.empty, [], [], [], memory, [], [], []⟩

/-- The numbered store with these chunks. -/
def state (x : Hosted S Addr) (slab : List (List UInt8)) : State S where
  mem := ⟨x.list, x.cells, x.metas, slab⟩
  calls := x.calls
  hist := x.hist
  installed := x.installed

/-- The numbered store in which each object's chunk is what its element holds now. -/
def view (x : Hosted S Addr) : State S := x.state (x.place.map x.memory)

/-- What a step of the numbered store does to the trusted memory, the calls and the history. -/
def update (x : Hosted S Addr) (s : State S) : Hosted S Addr :=
  { x with
    list := s.mem.list, cells := s.mem.cells, metas := s.mem.metas
    calls := s.calls, hist := s.hist, installed := s.installed }

/-- The objects that a node or a call points to. -/
def refs (x : Hosted S Addr) : List Nat := x.cells ++ x.calls.flatMap (·.pc.refs)

/-- Their elements. -/
def used (x : Hosted S Addr) : List Addr := x.refs.filterMap (x.place[·]?)

section Step

variable [DecidableEq Addr]

/-- The memory with `data` at the front of the element `a`. -/
def write (x : Hosted S Addr) (a : Addr) (data : List UInt8) : Addr → List UInt8 :=
  Function.update x.memory a (data ++ (x.memory a).drop data.length)

/-- A new object, with `a` as its `data`. -/
def create (cipher : CipherSsl) (x : Hosted S Addr) (value : List UInt8) (a : Addr) (s : State S) :
    Hosted S Addr :=
  { x.update s with place := x.place ++ [a], memory := x.write a (cipher.encrypt value).1 }

/-- A value that is longer than an element would run into the next one; there is no step for it. -/
def step (alloc : SlabAlloc Addr) (cipher : CipherSsl) (x : Hosted S Addr) :
    SlabAction Addr → Option (Hosted S Addr)
  | .put key value clock a =>
    if alloc.mayReturn x.used a ∧ value.length ≤ alloc.elementSize then
      (Memtable.step cipher x.view (.put key value clock)).map (x.create cipher value a)
    else none
  | .get key => (Memtable.step cipher x.view (.get key)).map x.update
  | .advance i spurious => (Memtable.step cipher x.view (.advance i spurious)).map x.update
  | .overwrite a bytes =>
    if bytes.length = (x.memory a).length then
      some { x with memory := Function.update x.memory a bytes }
    else none

end Step

/-- The step does not decrypt an element that was changed. -/
def authentic (cipher : CipherSsl) (x : Hosted S Addr) : SlabAction Addr → Bool
  | .advance i spurious => Memtable.authentic cipher x.view (.advance i spurious)
  | _ => true

end Hosted

/-! ## 2. A step reads no chunk that nothing points to -/

variable {m : Mem S} {slab : List (List UInt8)} {op : Op} {pc : Pc} {e : Effect S}

/-- A step of a call depends on the slab through the chunk that it decrypts. -/
theorem next_slab {spurious : Bool} (h : m.next cipher spurious op pc = some e)
    (hdec : ∀ p, pc = .decrypt p →
      Mem.decryptNode cipher { m with slab } p = m.decryptNode cipher p) :
    Mem.next cipher { m with slab } spurious op pc =
      some { e with mem := { e.mem with slab } } := by
  cases op with
  | put key value clock =>
    cases pc with
    | add new =>
      simp only [Mem.next] at h ⊢
      split at h <;> rename_i hf <;> rw [Option.some.injEq] at h <;> subst h
      · rw [if_pos hf]
      · rw [if_neg hf]
    | load new cell =>
      simp only [Mem.next, Option.bind_eq_bind, Option.bind_eq_some_iff, Option.some.injEq] at h ⊢
      obtain ⟨old, hold, rfl⟩ := h
      exact ⟨old, hold, rfl⟩
    | loop new cell old =>
      simp only [Mem.next, Option.bind_eq_bind, Option.bind_eq_some_iff] at h ⊢
      obtain ⟨oldMeta, hmeta, h⟩ := h
      refine ⟨oldMeta, hmeta, ?_⟩
      by_cases hlt : oldMeta.clock < clock
      · rw [if_pos hlt, Option.bind_eq_some_iff] at h ⊢
        obtain ⟨⟨b, cells, cur⟩, hx, h⟩ := h
        refine ⟨(b, cells, cur), hx, ?_⟩
        cases b <;> simp only [Option.some.injEq] at h ⊢ <;> subst h <;> rfl
      · rw [if_neg hlt, Option.some.injEq] at h ⊢
        subst h
        rfl
    | exit r =>
      simp only [Mem.next, Option.some.injEq] at h ⊢
      subst h
      rfl
    | _ => exact absurd h (by simp [Mem.next])
  | get key =>
    cases pc with
    | find =>
      simp only [Mem.next] at h ⊢
      split at h <;> rw [Option.some.injEq] at h <;> subst h <;> rfl
    | loadMeta cell =>
      simp only [Mem.next, Option.bind_eq_bind, Option.bind_eq_some_iff, Option.some.injEq] at h ⊢
      obtain ⟨p, hp, md, hmd, rfl⟩ := h
      exact ⟨p, hp, md, hmd, rfl⟩
    | decrypt p =>
      simp only [Mem.next, Option.bind_eq_bind, Option.bind_eq_some_iff, Option.some.injEq] at h ⊢
      obtain ⟨r, hr, rfl⟩ := h
      exact ⟨r, (hdec p rfl).trans hr, rfl⟩
    | exit r =>
      simp only [Mem.next, Option.some.injEq] at h ⊢
      subst h
      rfl
    | _ => exact absurd h (by simp [Mem.next])

/-- A step of a call makes nothing be pointed to that was not. -/
theorem Next.refs_subset (h : Next cipher m op pc e) :
    e.mem.cells ⊆ m.cells ++ pc.refs ∧ e.pc.refs ⊆ m.cells ++ pc.refs := by
  cases h with
  | inserted => simp [Pc.refs]
  | found => simp [Pc.refs]
  | loaded hold => simp [Pc.refs, List.mem_of_getElem? hold]
  | swapped =>
    refine ⟨fun p hp => ?_, by simp [Pc.refs]⟩
    rcases List.mem_or_eq_of_mem_set hp with hp | rfl
    · exact List.mem_append_left _ hp
    · simp [Pc.refs]
  | reloaded hcur => simp [Pc.refs, List.mem_of_getElem? hcur]
  | read hp => simp [Pc.refs, List.mem_of_getElem? hp]
  | _ => simp [Pc.refs]

/-! ## 3. The numbered store beside it -/

namespace Hosted

variable {alloc : SlabAlloc Addr} {x y : Hosted S Addr}

/-- The chunks of the numbered store are, where something points to them, what their elements
hold; no two such objects have the same element. -/
structure Agrees (alloc : SlabAlloc Addr) (x : Hosted S Addr) (slab : List (List UInt8)) :
    Prop where
  size : ∀ a, (x.memory a).length = alloc.elementSize
  placed : x.place.length = x.metas.length
  numbered : slab.length = x.metas.length
  apart : ∀ p ∈ x.refs, ∀ q ∈ x.refs, ∀ a, x.place[p]? = some a → x.place[q]? = some a → p = q
  chunk : ∀ p ∈ x.refs, ∀ a md, x.place[p]? = some a → x.metas[p]? = some md →
    slab[p]? = some ((x.memory a).take md.dataSize)

theorem agrees_init {memory : Addr → List UInt8}
    (hsize : ∀ a, (memory a).length = alloc.elementSize) : Agrees alloc (init S memory) [] where
  size := hsize
  placed := rfl
  numbered := rfl
  apart := by simp [init, refs]
  chunk := by simp [init, refs]

theorem mem_refs {p : Nat} :
    p ∈ x.refs ↔ p ∈ x.cells ∨ ∃ c ∈ x.calls, p ∈ c.pc.refs := by
  simp [refs]

theorem refs_of_call {i : Nat} {c : Call} (hi : x.calls[i]? = some c) {p : Nat}
    (hp : p ∈ x.cells ++ c.pc.refs) : p ∈ x.refs := by
  rcases List.mem_append.mp hp with hp | hp
  · exact mem_refs.mpr (Or.inl hp)
  · exact mem_refs.mpr (Or.inr ⟨c, List.mem_of_getElem? hi, hp⟩)

theorem mem_used {p : Nat} {a : Addr} (hp : p ∈ x.refs) (ha : x.place[p]? = some a) :
    a ∈ x.used :=
  List.mem_filterMap.mpr ⟨p, hp, ha⟩

/-- An element keeps its size. -/
theorem length_write [DecidableEq Addr] {n : Nat} (hsize : ∀ a, (x.memory a).length = n)
    {data : List UInt8} (hfit : data.length ≤ n) (a b : Addr) : (x.write a data b).length = n := by
  unfold write
  by_cases hb : b = a
  · subst hb
    simp only [Function.update_self, List.length_append, List.length_drop, hsize]
    omega
  · rw [Function.update_of_ne hb, hsize]

/-- What was written is at the front. -/
theorem take_write [DecidableEq Addr] (a : Addr) (data : List UInt8) :
    (x.write a data a).take data.length = data := by
  rw [write, Function.update_self, List.take_left]

theorem write_of_ne [DecidableEq Addr] {a b : Addr} (hb : b ≠ a) (data : List UInt8) :
    x.write a data b = x.memory b :=
  Function.update_of_ne hb _ _

namespace Agrees

/-- Fewer objects are pointed to, and the memory and the objects are as before. -/
theorem mono (h : Agrees alloc x slab) (hrefs : y.refs ⊆ x.refs) (hmemory : y.memory = x.memory)
    (hplace : y.place = x.place) (hmetas : y.metas = x.metas) : Agrees alloc y slab where
  size := hmemory ▸ h.size
  placed := by rw [hplace, hmetas, h.placed]
  numbered := by rw [hmetas, h.numbered]
  apart p hp q hq := hplace ▸ h.apart p (hrefs hp) q (hrefs hq)
  chunk p hp := by
    rw [hplace, hmetas, hmemory]
    exact h.chunk p (hrefs hp)

/-- The chunk of an object that is pointed to, in the numbered store and in memory. -/
theorem chunks (h : Agrees alloc x slab) {p : Nat} {md : SealedMeta} (hp : p ∈ x.refs)
    (hmd : x.metas[p]? = some md) :
    ∃ a, slab[p]? = some ((x.memory a).take md.dataSize) ∧
      (x.place.map x.memory)[p]? = some (x.memory a) := by
  have hlt : p < x.place.length := h.placed ▸ (List.getElem?_eq_some_iff.mp hmd).1
  have ha : x.place[p]? = some x.place[p] := List.getElem?_eq_getElem hlt
  exact ⟨x.place[p], h.chunk p hp _ md ha hmd, by rw [List.getElem?_map, ha, Option.map_some]⟩

theorem decryptNode_eq (h : Agrees alloc x slab) {p : Nat} (hp : p ∈ x.refs) :
    (x.state slab).mem.decryptNode cipher p = x.view.mem.decryptNode cipher p := by
  simp only [Mem.decryptNode, state, view]
  cases hmd : x.metas[p]? with
  | none => rfl
  | some md =>
    obtain ⟨a, hslab, hview⟩ := h.chunks hp hmd
    simp only [hslab, hview, Option.bind_eq_bind, Option.bind_some, List.take_take, min_self]

theorem intact_eq (h : Agrees alloc x slab) {p : Nat} (hp : p ∈ x.refs) :
    (x.state slab).mem.intact cipher p = x.view.mem.intact cipher p := by
  simp only [Mem.intact, state, view]
  cases hmd : x.metas[p]? with
  | none => rfl
  | some md =>
    obtain ⟨a, hslab, hview⟩ := h.chunks hp hmd
    simp only [hslab, hview, List.take_take, min_self]

theorem authentic_eq (h : Agrees alloc x slab) (i : Nat) (spurious : Bool) :
    Memtable.authentic cipher (x.state slab) (.advance i spurious) =
      Memtable.authentic cipher x.view (.advance i spurious) := by
  simp only [Memtable.authentic]
  cases hi : x.calls[i]? with
  | none => simp only [state, view, hi]
  | some c =>
    obtain ⟨op, pc⟩ := c
    simp only [state, view, hi]
    cases pc with
    | decrypt p => exact h.intact_eq (refs_of_call hi (by simp [Pc.refs]))
    | _ => rfl

/-- The step of a call. -/
theorem advance (hS : S.Lawful VarKeySizeNode.lt) (h : Agrees alloc x slab) {i : Nat}
    {spurious : Bool} {s : State S}
    (hs : Memtable.step cipher x.view (.advance i spurious) = some s) :
    Agrees alloc (x.update s) slab ∧ Memtable.step cipher (x.state slab) (.advance i spurious) =
      some ((x.update s).state slab) := by
  simp only [Memtable.step, Option.bind_eq_bind, Option.bind_eq_some_iff, Option.some.injEq] at hs ⊢
  obtain ⟨c, hi, e, he, rfl⟩ := hs
  have hnext := next_cases hS he
  constructor
  · refine h.mono (fun p hp => ?_) rfl rfl hnext.metas_eq
    obtain ⟨hcells, hpc⟩ := hnext.refs_subset
    rcases mem_refs.mp hp with hp | ⟨d, hd, hp⟩
    · exact refs_of_call hi (hcells hp)
    · rcases List.mem_or_eq_of_mem_set hd with hd | rfl
      · exact mem_refs.mpr (Or.inr ⟨d, hd, hp⟩)
      · exact refs_of_call hi (hpc hp)
  · refine ⟨c, hi, _, next_slab he fun p hp => ?_, rfl⟩
    exact h.decryptNode_eq (refs_of_call hi (by simp [hp, Pc.refs]))

section Writes

variable [DecidableEq Addr]

/-- **A new object** gets an element that no object in use has. -/
theorem put (hfresh : alloc.Fresh) (hc : cipher.Lawful) (h : Agrees alloc x slab)
    {key value : List UInt8} {clock : Lamport} {a : Addr} {s : State S}
    (ha : alloc.mayReturn x.used a = true) (hfit : value.length ≤ alloc.elementSize)
    (hs : Memtable.step cipher x.view (.put key value clock) = some s) :
    Agrees alloc (x.create cipher value a s) (slab ++ [(cipher.encrypt value).1]) ∧
      Memtable.step cipher (x.state slab) (.put key value clock) =
        some ((x.create cipher value a s).state (slab ++ [(cipher.encrypt value).1])) := by
  simp only [Memtable.step, Option.some.injEq] at hs
  subst hs
  have hlen := hc.length_encrypt value
  have hnew : ∀ p ∈ x.refs, x.place[p]? ≠ some a := fun p hp hpa =>
    hfresh _ _ ha (mem_used hp hpa)
  -- what is pointed to was so before, or is the new object
  have hrefs : ∀ p ∈ (x.create cipher value a (x.view.invoke
      (x.view.mem.createNode cipher value clock).1 (.put key value clock)
      (.add x.metas.length))).refs, p ∈ x.refs ∨ p = x.metas.length := by
    intro p hp
    rcases mem_refs.mp hp with hp | ⟨c, hcall, hp⟩
    · exact Or.inl (mem_refs.mpr (Or.inl hp))
    · rcases List.mem_append.mp hcall with hcall | hcall
      · exact Or.inl (mem_refs.mpr (Or.inr ⟨c, hcall, hp⟩))
      · rw [List.mem_singleton.mp hcall] at hp
        exact Or.inr (by simpa [Pc.refs] using hp)
  -- the place of an object is an old one, or `a` for the new object
  have hplace : ∀ p b, (x.place ++ [a])[p]? = some b → p ∈ x.refs ∨ p = x.metas.length →
      (p ∈ x.refs ∧ x.place[p]? = some b ∧ b ≠ a) ∨ (p = x.metas.length ∧ b = a) := by
    intro p b hb hp
    rcases getElem?_concat hb with hb | ⟨rfl, rfl⟩
    · rcases hp with hp | rfl
      · exact Or.inl ⟨hp, hb, fun hba => hnew p hp (hba ▸ hb)⟩
      · exact absurd (List.getElem?_eq_some_iff.mp hb).1 (by rw [h.placed]; exact lt_irrefl _)
    · exact Or.inr ⟨h.placed, rfl⟩
  refine ⟨⟨length_write h.size (by rw [hlen]; exact hfit) a, ?_, ?_, ?_, ?_⟩, rfl⟩
  · simp [create, update, State.invoke, Mem.createNode, view, state, h.placed]
  · simp [create, update, State.invoke, Mem.createNode, view, state, h.numbered]
  · intro p hp q hq b hpb hqb
    rcases hplace p b hpb (hrefs p hp) with ⟨hp, hpb, hba⟩ | ⟨rfl, rfl⟩ <;>
      rcases hplace q b hqb (hrefs q hq) with ⟨hq, hqb, hba'⟩ | ⟨rfl, hba'⟩
    · exact h.apart p hp q hq b hpb hqb
    · exact absurd hba' hba
    · exact absurd rfl hba'
    · rfl
  · intro p hp b md hpb hmd
    rcases hplace p b hpb (hrefs p hp) with ⟨hp, hpb, hba⟩ | ⟨rfl, rfl⟩
    · rcases getElem?_concat hmd with hmd | ⟨rfl, -⟩
      · simp only [create, write_of_ne hba]
        exact getElem?_concat_left (h.chunk p hp b md hpb hmd)
      · exact absurd (List.getElem?_eq_some_iff.mp hpb).1 (by rw [h.placed]; exact lt_irrefl _)
    · rcases getElem?_concat hmd with hmd | ⟨-, rfl⟩
      · exact absurd (List.getElem?_eq_some_iff.mp hmd).1 (lt_irrefl _)
      · rw [← h.numbered, List.getElem?_concat_length]
        simp only [create]
        rw [← hlen, take_write]

/-- **The host writes an element**: that is the chunk of the object in use that has it, if any. -/
theorem overwrite (cipher : CipherSsl) (h : Agrees alloc x slab) {a : Addr} {bytes : List UInt8}
    (hlen : bytes.length = (x.memory a).length) :
    ∃ slab', Agrees alloc { x with memory := Function.update x.memory a bytes } slab' ∧
      (slab' = slab ∨ ∃ p chunk,
        Memtable.step cipher (x.state slab) (.overwrite p chunk) = some (x.state slab')) := by
  have hsize : ∀ b, (Function.update x.memory a bytes b).length = alloc.elementSize := by
    intro b
    by_cases hb : b = a
    · rw [hb, Function.update_self, hlen, h.size]
    · rw [Function.update_of_ne hb, h.size]
  by_cases hp : ∃ p ∈ x.refs, x.place[p]? = some a
  · obtain ⟨p, hp, hpa⟩ := hp
    have hlt : p < x.metas.length := h.placed ▸ (List.getElem?_eq_some_iff.mp hpa).1
    obtain ⟨md, hmd⟩ : ∃ md, x.metas[p]? = some md := ⟨_, List.getElem?_eq_getElem hlt⟩
    have hold := h.chunk p hp a md hpa hmd
    refine ⟨slab.set p (bytes.take md.dataSize),
      ⟨hsize, h.placed, by rw [List.length_set, h.numbered], h.apart, ?_⟩,
      Or.inr ⟨p, bytes.take md.dataSize, ?_⟩⟩
    · intro q hq b md' hqb hmd'
      by_cases hqp : q = p
      · subst hqp
        obtain rfl : b = a := Option.some.inj (hqb.symm.trans hpa)
        obtain rfl : md' = md := Option.some.inj (hmd'.symm.trans hmd)
        simp only [Function.update_self]
        exact getElem?_set_self_of_some hold
      · have hba : b ≠ a := fun hba => hqp (h.apart q hq p hp a (hba ▸ hqb) hpa)
        rw [List.getElem?_set_ne (Ne.symm hqp)]
        simp only [Function.update_of_ne hba]
        exact h.chunk q hq b md' hqb hmd'
    · simp only [Memtable.step, state, hold, Option.bind_eq_bind, Option.bind_some]
      rw [if_pos (by rw [List.length_take, List.length_take, hlen])]
      rfl
  · refine ⟨slab, ⟨hsize, h.placed, h.numbered, h.apart, ?_⟩, Or.inl rfl⟩
    intro q hq b md hqb hmd
    have hba : b ≠ a := fun hba => hp ⟨q, hq, hba ▸ hqb⟩
    simp only [Function.update_of_ne hba]
    exact h.chunk q hq b md hqb hmd

/-- **One step** over the slab is one step of the numbered store, or none. -/
theorem step (hS : S.Lawful VarKeySizeNode.lt) (hc : cipher.Lawful) (hfresh : alloc.Fresh)
    (h : Agrees alloc x slab) {a : SlabAction Addr} (hstep : x.step alloc cipher a = some y) :
    ∃ slab', Agrees alloc y slab' ∧ (x.state slab = y.state slab' ∨ ∃ b,
      Memtable.step cipher (x.state slab) b = some (y.state slab') ∧
      (x.authentic cipher a = true → Memtable.authentic cipher (x.state slab) b = true)) := by
  cases a with
  | put key value clock a =>
    simp only [Hosted.step] at hstep
    split at hstep
    · rename_i hok
      obtain ⟨s, hs, rfl⟩ := Option.map_eq_some_iff.mp hstep
      obtain ⟨hagrees, hput⟩ := h.put hfresh hc hok.1 hok.2 hs
      exact ⟨_, hagrees, Or.inr ⟨_, hput, fun _ => rfl⟩⟩
    · exact absurd hstep (by simp)
  | get key =>
    simp only [Hosted.step] at hstep
    obtain ⟨s, hs, rfl⟩ := Option.map_eq_some_iff.mp hstep
    simp only [Memtable.step, Option.some.injEq] at hs
    subst hs
    refine ⟨slab, h.mono (fun p hp => ?_) rfl rfl rfl, Or.inr ⟨.get key, rfl, fun _ => rfl⟩⟩
    rcases mem_refs.mp hp with hp | ⟨c, hcall, hp⟩
    · exact mem_refs.mpr (Or.inl hp)
    · rcases List.mem_append.mp hcall with hcall | hcall
      · exact mem_refs.mpr (Or.inr ⟨c, hcall, hp⟩)
      · rw [List.mem_singleton.mp hcall] at hp
        exact absurd hp (by simp [Pc.refs])
  | advance i spurious =>
    simp only [Hosted.step] at hstep
    obtain ⟨s, hs, rfl⟩ := Option.map_eq_some_iff.mp hstep
    obtain ⟨hagrees, hadvance⟩ := h.advance hS hs
    refine ⟨slab, hagrees, Or.inr ⟨_, hadvance, fun hauth => ?_⟩⟩
    exact (h.authentic_eq i spurious).trans hauth
  | overwrite a bytes =>
    simp only [Hosted.step] at hstep
    split at hstep
    · rename_i hlen
      rw [Option.some.injEq] at hstep
      subst hstep
      obtain ⟨slab', hagrees, rfl | ⟨p, chunk, hwrite⟩⟩ :=
        h.overwrite cipher hlen
      · exact ⟨slab', hagrees, Or.inl rfl⟩
      · exact ⟨slab', hagrees, Or.inr ⟨_, hwrite, fun _ => rfl⟩⟩
    · exact absurd hstep (by simp)

end Writes

end Agrees

/-! ## 4. Runs -/

section Runs

variable [DecidableEq Addr] {memory : Addr → List UInt8}

/-- The state of the numbered store, with some chunks. -/
def Numbered (alloc : SlabAlloc Addr) (x : Hosted S Addr) (s : State S) : Prop :=
  ∃ slab, s = x.state slab ∧ Agrees alloc x slab

/-- **Every run over the slab is a run of the numbered store** with the same trusted memory, calls
and history. -/
theorem exists_run_of_hostedRun (hS : S.Lawful VarKeySizeNode.lt) (hc : cipher.Lawful)
    (hfresh : alloc.Fresh) (hsize : ∀ a, (memory a).length = alloc.elementSize)
    (h : Relation.ReflTransGen (Run.Moves (Hosted.step alloc cipher)) (init S memory) x) :
    ∃ s, Memtable.Run cipher (State.init S) s ∧ Numbered alloc x s := by
  refine Run.simulation ?_ h ⟨[], rfl, agrees_init hsize⟩
  rintro y z _ ⟨slab, rfl, hagrees⟩ ⟨a, hstep⟩
  obtain ⟨slab', hagrees', heq | ⟨b, hb, -⟩⟩ := hagrees.step hS hc hfresh hstep
  · exact ⟨_, .refl, slab', heq, hagrees'⟩
  · exact ⟨_, .single ⟨b, hb⟩, slab', rfl, hagrees'⟩

/-- And an authentic one of an authentic one. -/
theorem exists_authenticRun_of_hostedRun (hS : S.Lawful VarKeySizeNode.lt) (hc : cipher.Lawful)
    (hfresh : alloc.Fresh) (hsize : ∀ a, (memory a).length = alloc.elementSize)
    (h : Relation.ReflTransGen (Run.Moves (Run.guard (authentic cipher) (Hosted.step alloc cipher)))
      (init S memory) x) :
    ∃ s, AuthenticRun cipher (State.init S) s ∧ Numbered alloc x s := by
  refine Run.simulation ?_ h ⟨[], rfl, agrees_init hsize⟩
  rintro y z _ ⟨slab, rfl, hagrees⟩ ⟨a, ha⟩
  obtain ⟨hauth, hstep⟩ := Run.guard_eq_some.mp ha
  obtain ⟨slab', hagrees', heq | ⟨b, hb, hauth'⟩⟩ := hagrees.step hS hc hfresh hstep
  · exact ⟨_, .refl, slab', heq, hagrees'⟩
  · exact ⟨_, .single ⟨b, Run.guard_eq_some.mpr ⟨hauth' hauth, hb⟩⟩, slab', rfl, hagrees'⟩

/-- **The store over the slab is a linearizable highest-clock-wins map.** -/
theorem highestClockWins_of_hosted (hS : S.Lawful VarKeySizeNode.lt) (hc : cipher.Lawful)
    (hfresh : alloc.Fresh) (hsize : ∀ a, (memory a).length = alloc.elementSize)
    (h : Relation.ReflTransGen (Run.Moves (Run.guard (authentic cipher) (Hosted.step alloc cipher)))
      (init S memory) x) : HighestClockWins x.view := by
  obtain ⟨_, hrun, slab, rfl, -⟩ := exists_authenticRun_of_hostedRun hS hc hfresh hsize h
  have hwins := (inv_of_run hS hc (inv_init hS) hrun).highestClockWins
  exact ⟨hwins.linear, hwins.kv, hwins.put_true, hwins.newest, hwins.get_ret⟩

end Runs

end Hosted

/-- An allocator that returns any element that is not in use. -/
def SlabAlloc.anyFree [DecidableEq Addr] (elementSize : Nat) : SlabAlloc Addr :=
  ⟨elementSize, fun used a => decide (a ∉ used)⟩

theorem SlabAlloc.anyFree_fresh [DecidableEq Addr] (elementSize : Nat) :
    (SlabAlloc.anyFree elementSize : SlabAlloc Addr).Fresh :=
  fun _ _ h => of_decide_eq_true h

/-- The second put replaces the entry of the first, whose element the third one is given. -/
def reusing : List (SlabAction Bool) :=
  [.put [1] [7] ⟨1, 1⟩ false, .advance 0 false, .advance 0 false, .put [1] [8, 9] ⟨2, 1⟩ true,
    .advance 1 false, .advance 1 false, .advance 1 false, .advance 1 false,
    .put [2] [5] ⟨1, 1⟩ false, .advance 2 false, .advance 2 false]

theorem highestClockWins_of_hosted_reusing :
    ∃ x : Hosted (AtomicSet.sorted VarKeySizeNode.lt) Bool,
      x.place = [false, true, false] ∧ x.installed = [0, 1, 2] ∧ HighestClockWins x.view := by
  let run := Run.exec (Run.guard (Hosted.authentic maskCipher)
    (Hosted.step (SlabAlloc.anyFree 2) maskCipher))
    (Hosted.init (AtomicSet.sorted VarKeySizeNode.lt) fun _ => [0, 0]) reusing
  have hreused : (run.map fun x => decide (x.place = [false, true, false] ∧
      x.installed = [0, 1, 2])) = some true := by decide +kernel
  obtain ⟨x, hx, hres⟩ := Option.map_eq_some_iff.mp hreused
  obtain ⟨hplace, hinst⟩ := of_decide_eq_true hres
  exact ⟨x, hplace, hinst, Hosted.highestClockWins_of_hosted (AtomicSet.sorted_lawful _)
    maskCipher_lawful (SlabAlloc.anyFree_fresh 2) (fun _ => rfl) (Run.of_exec hx)⟩

end Avocado.Memtable
