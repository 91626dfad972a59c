/-
# The list of a bucket (`list.h`)

`List` is a chain of nodes that own each other.  An iterator has the node it is at, and a flag for
the place in front of the first node, for which it has that node as well.  `Table.lean` uses the
list as a sequence with positions; here are the nodes and the pointers that the operations move.

Each operation has a branch for the place in front.  `erase_after` and `emplace_front` relink the
chain there, and so does every operation behind a node.  `emplace_after` does not: it moves the new
node into `head`, which lets go of the chain that was there (`emplaceAfter_holds` is about
`Hashtable.emplaceAfter`, which does the same to a sequence).  So a list follows the edits of a
plain sequence as long as nothing is inserted in front of the first element (`follows_iff`).
-/
import Avocado.Hashtable.Bucket
import Avocado.Lib.Chain

namespace Avocado.Hashtable

open Chain

/-! ## 1. The code -/

/-- `class ConstIterator`. -/
structure ConstIterator where
  ptr : Option Nat
  beforeHead : Bool
  deriving DecidableEq, Repr

/-- `class List`: the nodes that have been allocated, a `List_node` being a cell, and `head`. -/
structure NodeList (α : Type) where
  heap : List (Cell α)
  head : Option Nat
  deriving DecidableEq, Repr

variable {α : Type}

namespace ConstIterator

/-- `operator++`. -/
def next (heap : List (Cell α)) (it : ConstIterator) : Option ConstIterator :=
  if it.beforeHead then some { it with beforeHead := false }
  else match it.ptr with
  | none => some it
  | some p => (heap[p]?).map fun node => { it with ptr := node.next }

/-- `operator==`. -/
def equal (it other : ConstIterator) : Bool :=
  (it.beforeHead && other.beforeHead) ||
    (!it.beforeHead && !other.beforeHead && it.ptr == other.ptr)

/-- `operator*`. -/
def deref (heap : List (Cell α)) (it : ConstIterator) : Option α := do
  let p ← it.ptr
  let node ← heap[p]?
  some node.val

/-- `get_ptr`. -/
def getPtr (it : ConstIterator) : Option Nat := if it.beforeHead then none else it.ptr

/-- `cend`. -/
def cend : ConstIterator := ⟨none, false⟩

/-- `operator++`, a number of times. -/
def advance (heap : List (Cell α)) : Nat → ConstIterator → Option ConstIterator
  | 0, it => some it
  | n + 1, it => do advance heap n (← it.next heap)

/-- The values from an iterator up to `cend`.  There is no result when a node is not there, or when
the end is not reached. -/
def walk (heap : List (Cell α)) : Nat → ConstIterator → Option (List α)
  | 0, _ => none
  | n + 1, it =>
    if it.equal cend then some []
    else do
      let x ← it.deref heap
      let xs ← walk heap n (← it.next heap)
      some (x :: xs)

end ConstIterator

namespace NodeList

/-- `cbegin`. -/
def cbegin (l : NodeList α) : ConstIterator := ⟨l.head, false⟩

/-- `cbefore_begin`. -/
def cbeforeBegin (l : NodeList α) : ConstIterator := ⟨l.head, true⟩

/-- `emplace_after`. -/
def emplaceAfter (l : NodeList α) (pos : ConstIterator) (x : α) :
    Option (NodeList α × ConstIterator) :=
  let newNode := l.heap.length
  let heap := l.heap ++ [⟨x, none⟩]
  if !pos.equal l.cbeforeBegin then do
    let p ← pos.getPtr
    let node ← heap[p]?
    let heap := heap.set newNode ⟨x, node.next⟩
    let heap := heap.set p ⟨node.val, some newNode⟩
    let it ← pos.next heap
    some (⟨heap, l.head⟩, it)
  else
    -- nothing owns the old head any more
    let l : NodeList α := ⟨heap, some newNode⟩
    some (l, l.cbegin)

/-- `insert_after`. -/
def insertAfter (l : NodeList α) (pos : ConstIterator) (x : α) :
    Option (NodeList α × ConstIterator) := l.emplaceAfter pos x

/-- `erase_after`.  What is moved out of a node leaves the null pointer there. -/
def eraseAfter (l : NodeList α) (pos : ConstIterator) : Option (NodeList α × ConstIterator) :=
  if !pos.equal l.cbeforeBegin then do
    let p ← pos.getPtr
    let node ← l.heap[p]?
    let q ← node.next
    let after ← l.heap[q]?
    let heap := l.heap.set q ⟨after.val, none⟩
    some (⟨heap.set p ⟨node.val, after.next⟩, l.head⟩, pos)
  else do
    let q ← l.head
    let first ← l.heap[q]?
    let l : NodeList α := ⟨l.heap.set q ⟨first.val, none⟩, first.next⟩
    some (l, l.cbeforeBegin)

/-- `emplace_front`. -/
def emplaceFront (l : NodeList α) (x : α) : NodeList α :=
  ⟨l.heap ++ [⟨x, l.head⟩], some l.heap.length⟩

/-- `push_front`. -/
def pushFront (l : NodeList α) (x : α) : NodeList α := l.emplaceFront x

/-- The values from `cbegin` to `cend`; a chain is not longer than the heap. -/
def traversal (l : NodeList α) : Option (List α) :=
  ConstIterator.walk l.heap (l.heap.length + 1) l.cbegin

/-- The iterator to a position: `cbefore_begin`, or a number of steps behind `cbegin`. -/
def iter (l : NodeList α) : Pos → Option ConstIterator
  | .beforeBegin => some l.cbeforeBegin
  | .at i => ConstIterator.advance l.heap i l.cbegin

/-- **The list holds a sequence**: its nodes are a chain with these values. -/
def Holds (l : NodeList α) (s : List α) : Prop :=
  ∃ cells, Linked l.heap l.head cells ∧ cells.map Prod.snd = s

/-! ## 2. Traversals -/

section Iterators

variable {heap : List (Cell α)} {p : Option Nat} {cells pre post : List (Nat × α)} {a : Nat}
  {x y : α} {l : NodeList α} {s s' : List α}

theorem advance_linked (h : Linked heap p cells) {i : Nat} (hi : i ≤ cells.length) :
    ConstIterator.advance heap i ⟨p, false⟩ = some ⟨(cells[i]?).map Prod.fst, false⟩ := by
  induction i generalizing p cells with
  | zero =>
    cases h with
    | nil => rfl
    | cons _ _ => rfl
  | succ i ih =>
    cases h with
    | nil => exact absurd hi (by simp)
    | cons cell rest =>
      have hnext := ih rest (by simpa using hi)
      simp only [ConstIterator.advance, ConstIterator.next, cell, Option.map_some,
        Bool.false_eq_true, if_false, Option.bind_eq_bind, Option.bind_some]
      exact hnext

theorem walk_linked (h : Linked heap p cells) {n : Nat} (hn : cells.length < n) :
    ConstIterator.walk heap n ⟨p, false⟩ = some (cells.map Prod.snd) := by
  induction h generalizing n with
  | nil =>
    obtain ⟨n, rfl⟩ := Nat.exists_eq_succ_of_ne_zero (show n ≠ 0 by omega)
    rfl
  | cons cell _ ih =>
    obtain ⟨n, rfl⟩ := Nat.exists_eq_succ_of_ne_zero (show n ≠ 0 by omega)
    have hrest := ih (n := n) (by simpa using hn)
    simp [ConstIterator.walk, ConstIterator.equal, ConstIterator.cend, ConstIterator.deref,
      ConstIterator.next, cell, hrest]

/-- **The traversal** of a list that holds a sequence is the sequence. -/
theorem traversal_of_holds (h : l.Holds s) : l.traversal = some s := by
  obtain ⟨cells, hlinked, rfl⟩ := h
  exact walk_linked hlinked (by have hle := hlinked.length_le; omega)

/-- The iterator to an element has its node. -/
theorem iter_linked (h : Linked l.heap l.head (pre ++ (a, x) :: post)) :
    l.iter (.at pre.length) = some ⟨some a, false⟩ := by
  have hadvance := advance_linked h (i := pre.length) (by simp)
  rw [iter, cbegin, hadvance]
  simp

/-! ## 3. The operations on sequences that lists hold -/

/-- The element at a position. -/
theorem exists_at {β : Type} {cells : List β} {i : Nat} (hi : i < cells.length) :
    ∃ pre e post, cells = pre ++ e :: post ∧ pre.length = i := by
  refine ⟨cells.take i, cells[i], cells.drop (i + 1), ?_, by simp; omega⟩
  rw [List.getElem_cons_drop, List.take_append_drop]

/-- A new cell behind a cell. -/
theorem emplaceAfter_linked (h : Linked l.heap l.head (pre ++ (a, y) :: post)) (x : α) :
    ∃ l', l.emplaceAfter ⟨some a, false⟩ x = some (l', ⟨some l.heap.length, false⟩) ∧
      Linked l'.heap l'.head (pre ++ (a, y) :: (l.heap.length, x) :: post) := by
  obtain ⟨⟨y, next⟩, hcell, rfl, hrest⟩ := h.split
  have hlt : a < l.heap.length := (List.getElem?_eq_some_iff.mp hcell).1
  have hnd := h.nodup
  rw [addrs_append, addrs_cons, List.nodup_append, List.nodup_cons] at hnd
  have hheap : (l.heap ++ [Cell.mk x none]).set l.heap.length ⟨x, next⟩ =
      l.heap ++ [Cell.mk x next] := by
    rw [List.set_append_right _ _ (Nat.le_refl _), Nat.sub_self, List.set_cons_zero]
  have hnode : (l.heap ++ [Cell.mk x none])[a]? = some ⟨y, next⟩ :=
    (List.getElem?_append_left hlt).trans hcell
  have hself : ((l.heap ++ [Cell.mk x next]).set a ⟨y, some l.heap.length⟩)[a]? =
      some ⟨y, some l.heap.length⟩ := List.getElem?_set_self (by simp; omega)
  refine ⟨⟨(l.heap ++ [Cell.mk x next]).set a ⟨y, some l.heap.length⟩, l.head⟩, ?_, ?_⟩
  · simp [emplaceAfter, ConstIterator.equal, cbeforeBegin, ConstIterator.getPtr, hnode,
      ConstIterator.next, hself]
  · refine (h.append [⟨x, next⟩]).redirect ?_
    refine .cons (c := ⟨x, next⟩) ?_ ((hrest.append _).set_of_not_mem hnd.2.1.1 _)
    rw [List.getElem?_set_ne (by omega), List.getElem?_append_right (Nat.le_refl _), Nat.sub_self]
    rfl

/-- `emplace_after` does to the nodes what it does to the sequence. -/
theorem emplaceAfter_holds {pos : Pos} {i : Nat} (h : l.Holds s)
    (hs : Hashtable.emplaceAfter s pos x = some (s', i)) :
    ∃ it l' r, l.iter pos = some it ∧ l.emplaceAfter it x = some (l', r) ∧ l'.Holds s' ∧
      l'.iter (.at i) = some r := by
  obtain ⟨cells, hlinked, rfl⟩ := h
  cases pos with
  | beforeBegin =>
    simp only [Hashtable.emplaceAfter, Option.some.injEq, Prod.mk.injEq] at hs
    obtain ⟨rfl, rfl⟩ := hs
    refine ⟨_, _, _, rfl, rfl, ⟨[(l.heap.length, x)], ?_, rfl⟩, rfl⟩
    exact .cons (c := ⟨x, none⟩) (by simp) .nil
  | «at» j =>
    have hj : j < cells.length := by
      by_contra hj
      rw [Hashtable.emplaceAfter, List.length_map, if_neg hj] at hs
      exact absurd hs (by simp)
    obtain ⟨pre, ⟨a, y⟩, post, rfl, rfl⟩ := exists_at hj
    have hplain := emplaceAfter_prev (p := pre.map Prod.snd ++ [y]) (q := post.map Prod.snd)
      (x := x) (by simp)
    simp only [List.length_append, List.length_map, List.length_singleton, Pos.prev,
      List.append_assoc, List.singleton_append] at hplain
    rw [List.map_append, List.map_cons, hplain, Option.some.injEq, Prod.mk.injEq] at hs
    obtain ⟨rfl, rfl⟩ := hs
    obtain ⟨l', hl', hlinked'⟩ := emplaceAfter_linked hlinked x
    refine ⟨_, _, _, iter_linked hlinked, hl', ⟨_, hlinked', by simp⟩, ?_⟩
    rw [List.append_cons] at hlinked'
    have hiter := iter_linked hlinked'
    rwa [List.length_append, List.length_singleton] at hiter

/-- Erasing the cell behind a cell. -/
theorem eraseAfter_linked {b : Nat} (h : Linked l.heap l.head (pre ++ (a, y) :: (b, x) :: post)) :
    ∃ l' r, l.eraseAfter ⟨some a, false⟩ = some (l', r) ∧
      Linked l'.heap l'.head (pre ++ (a, y) :: post) := by
  obtain ⟨⟨y, next⟩, hcell, rfl, hrest⟩ := h.split
  cases hrest with
  | @cons _ after _ hafter hrest =>
    have hnd := h.nodup
    rw [addrs_append, addrs_cons, addrs_cons, List.nodup_append, List.nodup_cons,
      List.nodup_cons, List.mem_cons, not_or] at hnd
    obtain ⟨-, ⟨⟨hab, ha⟩, hb, -⟩, hpre⟩ := hnd
    refine ⟨⟨(l.heap.set b ⟨after.val, none⟩).set a ⟨y, after.next⟩, l.head⟩, ⟨some a, false⟩,
      ?_, ?_⟩
    · simp [eraseAfter, ConstIterator.equal, cbeforeBegin, ConstIterator.getPtr, hcell, hafter]
    · rw [List.set_comm _ _ (Ne.symm hab)]
      refine (h.redirect (hrest.set_of_not_mem ha _)).set_of_not_mem ?_ _
      rw [addrs_append, addrs_cons, List.mem_append, List.mem_cons, not_or, not_or]
      exact ⟨fun hmem => hpre b hmem b (by simp) rfl, Ne.symm hab, hb⟩

/-- `erase_after` does to the nodes what it does to the sequence. -/
theorem eraseAfter_holds {pos : Pos} (h : l.Holds s) (hs : Hashtable.eraseAfter s pos = some s') :
    ∃ it l' r, l.iter pos = some it ∧ l.eraseAfter it = some (l', r) ∧ l'.Holds s' := by
  obtain ⟨cells, hlinked, rfl⟩ := h
  cases pos with
  | beforeBegin =>
    cases cells with
    | nil => exact absurd hs (by simp [Hashtable.eraseAfter])
    | cons e cells =>
      obtain ⟨b, x⟩ := e
      have hnd := hlinked.nodup
      rw [addrs_cons, List.nodup_cons] at hnd
      obtain ⟨first, hfirst, -, hrest⟩ :=
        (show Linked l.heap l.head ([] ++ (b, x) :: cells) from hlinked).split
      have hhead := hlinked.head_eq
      have hs' : cells.map Prod.snd = s' := by
        simpa [Hashtable.eraseAfter] using hs
      have herase : l.eraseAfter l.cbeforeBegin =
          some (⟨l.heap.set b ⟨first.val, none⟩, first.next⟩, ⟨first.next, true⟩) := by
        simp [eraseAfter, ConstIterator.equal, cbeforeBegin, hhead, hfirst]
      exact ⟨_, _, _, rfl, herase, cells, hrest.set_of_not_mem hnd.1 _, hs'⟩
  | «at» j =>
    have hj : j + 1 < cells.length := by
      by_contra hj
      rw [Hashtable.eraseAfter, List.length_map, if_neg hj] at hs
      exact absurd hs (by simp)
    obtain ⟨pre, ⟨a, y⟩, post, rfl, rfl⟩ := exists_at (show j < cells.length by omega)
    cases post with
    | nil => exact absurd hj (by simp)
    | cons e post =>
      obtain ⟨b, x⟩ := e
      have hplain := eraseAfter_prev (p := pre.map Prod.snd ++ [y]) (q := post.map Prod.snd)
        (x := x)
      simp only [List.length_append, List.length_map, List.length_singleton, Pos.prev,
        List.append_assoc, List.singleton_append] at hplain
      rw [List.map_append, List.map_cons, List.map_cons, hplain, Option.some.injEq] at hs
      obtain ⟨l', r, hl', hlinked'⟩ := eraseAfter_linked hlinked
      exact ⟨_, l', r, iter_linked hlinked, hl', _, hlinked', by simp [← hs]⟩

/-- `emplace_front` prepends. -/
theorem emplaceFront_holds (h : l.Holds s) (x : α) : (l.emplaceFront x).Holds (x :: s) := by
  obtain ⟨cells, hlinked, rfl⟩ := h
  refine ⟨(l.heap.length, x) :: cells, ?_, rfl⟩
  exact .cons (c := ⟨x, l.head⟩) (by simp [emplaceFront]) (hlinked.append _)

end Iterators

end NodeList

/-! ## 4. Edits -/

/-- The number of elements up to a position. -/
def Pos.index : Pos → Nat
  | .beforeBegin => 0
  | .at i => i + 1

/-- The operations that change a list. -/
inductive Edit (α : Type)
  | emplaceAfter (pos : Pos) (x : α)
  | insertAfter (pos : Pos) (x : α)
  | eraseAfter (pos : Pos)
  | emplaceFront (x : α)
  | pushFront (x : α)
  deriving DecidableEq, Repr

namespace Edit

/-- The position is `before_begin` or an element, and there is an element to erase. -/
def Valid (s : List α) : Edit α → Prop
  | emplaceAfter pos _ | insertAfter pos _ => pos.index ≤ s.length
  | eraseAfter pos => pos.index < s.length
  | emplaceFront _ | pushFront _ => True

/-- The edit of a plain sequence. -/
def plain (s : List α) : Edit α → List α
  | emplaceAfter pos x | insertAfter pos x => s.take pos.index ++ x :: s.drop pos.index
  | eraseAfter pos => s.take pos.index ++ s.drop (pos.index + 1)
  | emplaceFront x | pushFront x => x :: s

/-- The call, and the iterator that it returns. -/
def apply (l : NodeList α) : Edit α → Option (NodeList α × Option ConstIterator)
  | emplaceAfter pos x => do
    let (l, it) ← l.emplaceAfter (← l.iter pos) x
    some (l, some it)
  | insertAfter pos x => do
    let (l, it) ← l.insertAfter (← l.iter pos) x
    some (l, some it)
  | eraseAfter pos => do
    let (l, it) ← l.eraseAfter (← l.iter pos)
    some (l, some it)
  | emplaceFront x => some (l.emplaceFront x, none)
  | pushFront x => some (l.pushFront x, none)

/-- An insertion returns the iterator to the new element, which is directly behind the position. -/
def Returns (l : NodeList α) (r : Option ConstIterator) : Edit α → Prop
  | emplaceAfter pos x | insertAfter pos x =>
    ∃ it, r = some it ∧ l.iter (.at pos.index) = some it ∧ it.deref l.heap = some x
  | eraseAfter _ | emplaceFront _ | pushFront _ => True

/-- An insertion in front of the first element. -/
def InFront (s : List α) : Edit α → Prop
  | emplaceAfter .beforeBegin _ | insertAfter .beforeBegin _ => s ≠ []
  | _ => False

/-- The edits are valid, one after the other. -/
def AllValid (s : List α) : List (Edit α) → Prop
  | [] => True
  | e :: es => e.Valid s ∧ AllValid (e.plain s) es

/-- None of the edits is an insertion in front of the first element. -/
def NoneInFront (s : List α) : List (Edit α) → Prop
  | [] => True
  | e :: es => ¬ e.InFront s ∧ NoneInFront (e.plain s) es

/-- **The list follows the sequence**: after every edit the traversal is what the same edits make of
the sequence, and every insertion returns the iterator to its element. -/
def Follows (l : NodeList α) (s : List α) : List (Edit α) → Prop
  | [] => l.traversal = some s
  | e :: es => l.traversal = some s ∧
      ∃ l' r, e.apply l = some (l', r) ∧ e.Returns l' r ∧ Follows l' (e.plain s) es

variable {l : NodeList α} {s : List α} {e : Edit α} {es : List (Edit α)} {pos : Pos} {x : α}

/-- On sequences an insertion is the plain one, where something is in front of it or nothing
behind. -/
theorem emplaceAfter_plain (hvalid : pos.index ≤ s.length) (hfront : pos = .beforeBegin → s = []) :
    Hashtable.emplaceAfter s pos x =
      some (s.take pos.index ++ x :: s.drop pos.index, pos.index) := by
  cases pos with
  | beforeBegin =>
    rw [hfront rfl]
    rfl
  | «at» i => exact if_pos hvalid

theorem eraseAfter_plain (hvalid : pos.index < s.length) :
    Hashtable.eraseAfter s pos = some (s.take pos.index ++ s.drop (pos.index + 1)) := by
  cases pos with
  | beforeBegin =>
    cases s with
    | nil => exact absurd hvalid (by simp)
    | cons y s => rfl
  | «at» i => exact if_pos hvalid

/-- The iterator to an element dereferences to it. -/
theorem deref_of_iter {i : Nat} {it : ConstIterator} {pre post : List α}
    (h : l.Holds (pre ++ x :: post)) (hi : i = pre.length) (hit : l.iter (.at i) = some it) :
    it.deref l.heap = some x := by
  obtain ⟨cells, hlinked, hcells⟩ := h
  have hlen := congrArg List.length hcells
  simp only [List.length_map, List.length_append, List.length_cons] at hlen
  obtain ⟨pre', ⟨a, y⟩, post', rfl, hpre'⟩ := NodeList.exists_at (show i < cells.length by omega)
  rw [← hpre', NodeList.iter_linked hlinked, Option.some.injEq] at hit
  rw [List.map_append, List.map_cons] at hcells
  obtain ⟨-, htail⟩ := List.append_inj hcells (by rw [List.length_map, hpre', hi])
  obtain ⟨c, hcell, hval, -⟩ := hlinked.split
  rw [← hit, ConstIterator.deref]
  simp only [Option.bind_eq_bind, Option.bind_some, hcell, hval]
  exact congrArg some (List.cons.inj htail).1

/-- An insertion that is not in front, by either name. -/
theorem insert_holds (h : l.Holds s) (hvalid : pos.index ≤ s.length)
    (hfront : pos = .beforeBegin → s = []) :
    ∃ it l' r, l.iter pos = some it ∧ l.emplaceAfter it x = some (l', r) ∧
      (l'.iter (.at pos.index) = some r ∧ r.deref l'.heap = some x) ∧
      l'.Holds (s.take pos.index ++ x :: s.drop pos.index) := by
  obtain ⟨it, l', r, hit, hl', hholds, hr⟩ :=
    NodeList.emplaceAfter_holds h (emplaceAfter_plain (x := x) hvalid hfront)
  refine ⟨it, l', r, hit, hl', ⟨hr, deref_of_iter hholds ?_ hr⟩, hholds⟩
  rw [List.length_take, Nat.min_eq_left hvalid]

/-- **An edit that is not in front** of the first element follows the plain one. -/
theorem apply_holds (h : l.Holds s) (hvalid : e.Valid s) (hfront : ¬ e.InFront s) :
    ∃ l' r, e.apply l = some (l', r) ∧ e.Returns l' r ∧ l'.Holds (e.plain s) := by
  have hempty : ∀ {pos : Pos}, (pos = .beforeBegin → ¬ s ≠ []) → pos = .beforeBegin → s = [] :=
    fun hne hpos => not_not.mp (hne hpos)
  cases e with
  | emplaceAfter pos x =>
    obtain ⟨it, l', r, hit, hl', hr, hholds⟩ :=
      insert_holds (x := x) h hvalid (hempty fun hpos hne => hfront (hpos ▸ hne))
    exact ⟨l', some r, by simp [apply, hit, hl'], ⟨r, rfl, hr⟩, hholds⟩
  | insertAfter pos x =>
    obtain ⟨it, l', r, hit, hl', hr, hholds⟩ :=
      insert_holds (x := x) h hvalid (hempty fun hpos hne => hfront (hpos ▸ hne))
    exact ⟨l', some r, by simp [apply, NodeList.insertAfter, hit, hl'], ⟨r, rfl, hr⟩, hholds⟩
  | eraseAfter pos =>
    obtain ⟨it, l', r, hit, hl', hholds⟩ := NodeList.eraseAfter_holds h (eraseAfter_plain hvalid)
    exact ⟨l', some r, by simp [apply, hit, hl'], trivial, hholds⟩
  | emplaceFront x => exact ⟨_, _, rfl, trivial, NodeList.emplaceFront_holds h x⟩
  | pushFront x => exact ⟨_, _, rfl, trivial, NodeList.emplaceFront_holds h x⟩

/-- **An insertion in front** of the first element leaves the new element only. -/
theorem traversal_of_inFront {l' : NodeList α} {r : Option ConstIterator} (hfront : e.InFront s)
    (happly : e.apply l = some (l', r)) : l'.traversal ≠ some (e.plain s) := by
  have hone : ∀ {x : α}, l' = ⟨l.heap ++ [⟨x, none⟩], some l.heap.length⟩ → s ≠ [] →
      l'.traversal ≠ some (x :: s) := by
    rintro x rfl hne heq
    have hholds : NodeList.Holds ⟨l.heap ++ [⟨x, none⟩], some l.heap.length⟩ [x] :=
      ⟨[(l.heap.length, x)], .cons (c := ⟨x, none⟩) (by simp) .nil, rfl⟩
    rw [NodeList.traversal_of_holds hholds, Option.some.injEq] at heq
    exact hne (List.cons.inj heq).2.symm
  cases e with
  | emplaceAfter pos x =>
    cases pos with
    | beforeBegin => exact hone (congrArg Prod.fst (Option.some.inj happly)).symm hfront
    | «at» i => exact absurd hfront (by simp [InFront])
  | insertAfter pos x =>
    cases pos with
    | beforeBegin => exact hone (congrArg Prod.fst (Option.some.inj happly)).symm hfront
    | «at» i => exact absurd hfront (by simp [InFront])
  | eraseAfter pos => exact absurd hfront (by simp [InFront])
  | emplaceFront x => exact absurd hfront (by simp [InFront])
  | pushFront x => exact absurd hfront (by simp [InFront])

/-- What a list follows starts with its traversal. -/
theorem Follows.traversal (h : Follows l s es) : l.traversal = some s := by
  cases es with
  | nil => exact h
  | cons e es => exact h.1

/-- **When a list follows a sequence**: as long as nothing is inserted in front of the first
element. -/
theorem follows_iff (h : l.Holds s) (hvalid : AllValid s es) :
    Follows l s es ↔ NoneInFront s es := by
  induction es generalizing l s with
  | nil => exact ⟨fun _ => trivial, fun _ => NodeList.traversal_of_holds h⟩
  | cons e es ih =>
    constructor
    · rintro ⟨-, l', r, happly, -, hrest⟩
      have hfront : ¬ e.InFront s := fun hin => traversal_of_inFront hin happly hrest.traversal
      obtain ⟨l'', r', happly', -, hholds⟩ := apply_holds h hvalid.1 hfront
      obtain rfl : l' = l'' := congrArg Prod.fst (Option.some.inj (happly.symm.trans happly'))
      exact ⟨hfront, (ih hholds hvalid.2).mp hrest⟩
    · rintro ⟨hfront, hrest⟩
      obtain ⟨l', r, happly, hreturns, hholds⟩ := apply_holds h hvalid.1 hfront
      exact ⟨NodeList.traversal_of_holds h, l', r, happly, hreturns,
        (ih hholds hvalid.2).mpr hrest⟩

/-- A list of one element. -/
def one : NodeList Nat := ⟨[⟨1, none⟩], some 0⟩

theorem one_holds : one.Holds [1] := ⟨[(0, 1)], .cons (c := ⟨1, none⟩) rfl .nil, rfl⟩

/-- Behind the element, with `push_front` in front of it, and erasing the element again. -/
theorem one_follows :
    Follows one [1] [.insertAfter (.at 0) 2, .pushFront 0, .eraseAfter (.at 0)] := by
  have hvalid : AllValid [1] [.insertAfter (.at 0) 2, .pushFront 0, .eraseAfter (.at 0)] := by
    simp [AllValid, Valid, plain, Pos.index]
  exact (follows_iff one_holds hvalid).mpr (by simp [NoneInFront, InFront])

/-- **With `insert_after` in front of it**, the element is lost. -/
theorem one_not_follows : (Edit.insertAfter .beforeBegin 0).Valid [1] ∧
    ((Edit.insertAfter .beforeBegin 0).apply one).bind (fun p => p.1.traversal) = some [0] ∧
    (Edit.insertAfter .beforeBegin 0).plain [1] = [0, 1] ∧
    ¬ Follows one [1] [.insertAfter .beforeBegin 0] := by
  have hfront : (Edit.insertAfter .beforeBegin 0).InFront [1] := List.cons_ne_nil 1 []
  refine ⟨Nat.zero_le _, by decide, by decide, ?_⟩
  rintro ⟨-, l', r, happly, -, hend⟩
  exact traversal_of_inFront hfront happly hend

end Edit

end Avocado.Hashtable
