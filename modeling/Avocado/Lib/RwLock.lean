/-
# Cells behind readers–writer locks

Each cell has a lock.  A call takes the lock of its cell, shared with other readers or for itself
alone, works on the cell in steps of its own, lets go of the lock and returns.  The calls of any
number of threads interleave in all of these (`step`), so a cell may be half written while other
cells are read.

`Code.Ends` is what a call does when nobody else is there.  `linear_of_run` says that this is what
it does in every interleaving: if each call, alone, is the operation of a sequential object
(`Code.Means`), the history is linearizable with respect to this object, and while no call is at
work the cells are what its operations leave behind (`rel_of_run`).  `returns_of_exec` bounds the
number of steps, and says that nobody waits for ever.
-/
import Avocado.Lib.Linear
import Avocado.Lib.Lookup
import Avocado.Lib.Run
import Avocado.Lib.Tally
import Mathlib.Logic.Function.Basic

namespace RwLock

open History Lookup

/-! ## 1. Calls -/

/-- What the calls of operations `ω` do. -/
structure Code (κ β ω ρ L : Type) where
  /-- The cell that a call works on. -/
  cell : ω → Option κ
  /-- The calls that take the lock shared. -/
  shared : ω → Bool
  start : ω → L
  /-- One step on the cell: to another local state, or to the result. -/
  next : ω → β → L → Option (β × (L ⊕ ρ))

/-- Where a call is: not called, in front of the lock, behind it, in front of the unlock, behind it,
or returned. -/
inductive Pc (ρ L : Type)
  | idle
  | waiting
  | inside (l : L)
  | leaving (r : ρ)
  | unlocked (r : ρ)
  | returned (r : ρ)

/-- The call has the lock. -/
def Pc.holds {ρ L : Type} : Pc ρ L → Bool
  | .inside _ | .leaving _ => true
  | .idle | .waiting | .unlocked _ | .returned _ => false

structure Call (ω ρ L : Type) where
  op : ω
  pc : Pc ρ L

structure State (κ β ω ρ L : Type) where
  cells : κ → β
  calls : List (Call ω ρ L)
  hist : List (Event ω ρ)

/-- The next step of call `i`. -/
inductive Action
  | call (i : Nat)
  | lock (i : Nat)
  | advance (i : Nat)
  | unlock (i : Nat)
  | ret (i : Nat)
  deriving DecidableEq

variable {κ β ω ρ L σ : Type}

namespace State

/-- All calls that will be made. -/
def init (cells : κ → β) (ops : List ω) : State κ β ω ρ L := ⟨cells, ops.map (⟨·, .idle⟩), []⟩

/-- Call `i` goes on. -/
def goto (s : State κ β ω ρ L) (i : Nat) (c : Call ω ρ L) (pc : Pc ρ L)
    (es : List (Event ω ρ)) : State κ β ω ρ L :=
  { s with calls := s.calls.set i { c with pc }, hist := s.hist ++ es }

variable [DecidableEq κ]

def setCell (s : State κ β ω ρ L) (k : κ) (b : β) : State κ β ω ρ L :=
  { s with cells := Function.update s.cells k b }

/-- The lock can be taken: nobody has it, or readers have it and this is a reader. -/
def free (M : Code κ β ω ρ L) (s : State κ β ω ρ L) (o : ω) : Bool :=
  s.calls.all fun c => !c.pc.holds || M.cell c.op != M.cell o || (M.shared c.op && M.shared o)

end State

variable [DecidableEq κ]

/-- One step; `none` when it is not enabled. -/
def step (M : Code κ β ω ρ L) (s : State κ β ω ρ L) : Action → Option (State κ β ω ρ L)
  | .call i => do
    let c ← s.calls[i]?
    match c.pc with
    | .idle => some (s.goto i c .waiting [.call i c.op])
    | _ => none
  | .lock i => do
    let c ← s.calls[i]?
    match c.pc with
    | .waiting =>
      if (M.cell c.op).isSome && s.free M c.op then
        some (s.goto i c (.inside (M.start c.op)) [])
      else none
    | _ => none
  | .advance i => do
    let c ← s.calls[i]?
    match c.pc with
    | .inside l => do
      let k ← M.cell c.op
      match ← M.next c.op (s.cells k) l with
      | (b, .inl l) => some ((s.setCell k b).goto i c (.inside l) [])
      | (b, .inr r) => some ((s.setCell k b).goto i c (.leaving r) [.point i c.op r])
    | _ => none
  | .unlock i => do
    let c ← s.calls[i]?
    match c.pc with
    | .leaving r => some (s.goto i c (.unlocked r) [])
    | _ => none
  | .ret i => do
    let c ← s.calls[i]?
    match c.pc with
    | .unlocked r => some (s.goto i c (.returned r) [.ret i c.op r])
    | _ => none

/-- The shapes of a step. -/
inductive Moved (M : Code κ β ω ρ L) (s : State κ β ω ρ L) (i : Nat) (c : Call ω ρ L) :
    State κ β ω ρ L → Prop
  | call (hpc : c.pc = .idle) : Moved M s i c (s.goto i c .waiting [.call i c.op])
  | lock {k} (hpc : c.pc = .waiting) (hk : M.cell c.op = some k) (hfree : s.free M c.op = true) :
      Moved M s i c (s.goto i c (.inside (M.start c.op)) [])
  | goes {l k b l'} (hpc : c.pc = .inside l) (hk : M.cell c.op = some k)
      (hnext : M.next c.op (s.cells k) l = some (b, .inl l')) :
      Moved M s i c ((s.setCell k b).goto i c (.inside l') [])
  | ends {l k b r} (hpc : c.pc = .inside l) (hk : M.cell c.op = some k)
      (hnext : M.next c.op (s.cells k) l = some (b, .inr r)) :
      Moved M s i c ((s.setCell k b).goto i c (.leaving r) [.point i c.op r])
  | unlock {r} (hpc : c.pc = .leaving r) : Moved M s i c (s.goto i c (.unlocked r) [])
  | ret {r} (hpc : c.pc = .unlocked r) :
      Moved M s i c (s.goto i c (.returned r) [.ret i c.op r])

variable {M : Code κ β ω ρ L} {s s' : State κ β ω ρ L} {a : Action}

/-- **What a step can do.** -/
theorem step_cases (h : step M s a = some s') :
    ∃ i c, s.calls[i]? = some c ∧ Moved M s i c s' := by
  cases a with
  | call i =>
    simp only [step, Option.bind_eq_bind, Option.bind_eq_some_iff] at h
    obtain ⟨c, hi, h⟩ := h
    split at h
    · rename_i hpc
      exact ⟨i, c, hi, Option.some.inj h ▸ .call hpc⟩
    · exact absurd h (by simp)
  | lock i =>
    simp only [step, Option.bind_eq_bind, Option.bind_eq_some_iff] at h
    obtain ⟨c, hi, h⟩ := h
    split at h
    · rename_i hpc
      split at h
      · rename_i hok
        obtain ⟨hk, hfree⟩ := Bool.and_eq_true_iff.mp hok
        obtain ⟨k, hk⟩ := Option.isSome_iff_exists.mp hk
        exact ⟨i, c, hi, Option.some.inj h ▸ .lock hpc hk hfree⟩
      · exact absurd h (by simp)
    · exact absurd h (by simp)
  | advance i =>
    simp only [step, Option.bind_eq_bind, Option.bind_eq_some_iff] at h
    obtain ⟨c, hi, h⟩ := h
    split at h
    · rename_i hpc
      simp only [Option.bind_eq_some_iff] at h
      obtain ⟨k, hk, ⟨b, x⟩, hnext, h⟩ := h
      cases x with
      | inl l => exact ⟨i, c, hi, Option.some.inj h ▸ .goes hpc hk hnext⟩
      | inr r => exact ⟨i, c, hi, Option.some.inj h ▸ .ends hpc hk hnext⟩
    · exact absurd h (by simp)
  | unlock i =>
    simp only [step, Option.bind_eq_bind, Option.bind_eq_some_iff] at h
    obtain ⟨c, hi, h⟩ := h
    split at h
    · rename_i hpc
      exact ⟨i, c, hi, Option.some.inj h ▸ .unlock hpc⟩
    · exact absurd h (by simp)
  | ret i =>
    simp only [step, Option.bind_eq_bind, Option.bind_eq_some_iff] at h
    obtain ⟨c, hi, h⟩ := h
    split at h
    · rename_i hpc
      exact ⟨i, c, hi, Option.some.inj h ▸ .ret hpc⟩
    · exact absurd h (by simp)

/-! ## 2. A call alone -/

/-- Where a call can be when it found `b` in its cell. -/
inductive Code.Reaches (M : Code κ β ω ρ L) (o : ω) (b : β) : β → L → Prop
  | start : M.Reaches o b b (M.start o)
  | next {b' l b'' l'} (h : M.Reaches o b b' l) (hnext : M.next o b' l = some (b'', .inl l')) :
      M.Reaches o b b'' l'

/-- What a call that found `b` leaves behind, and its result. -/
def Code.Ends (M : Code κ β ω ρ L) (o : ω) (b b' : β) (r : ρ) : Prop :=
  ∃ b₁ l, M.Reaches o b b₁ l ∧ M.next o b₁ l = some (b', .inr r)

/-- **The calls, alone, are the operations of `O`.**  `R` relates what the cells hold to the
history; the calls are those of `ops`. -/
structure Code.Means (M : Code κ β ω ρ L) (O : Object σ ω ρ) (ops : List ω)
    (R : (κ → β) → List (Event ω ρ) → Prop) : Prop where
  /-- A call that shares its lock writes nothing. -/
  reads : ∀ {o b l b' x}, M.shared o = true → M.next o b l = some (b', x) → b' = b
  frame : ∀ {b h e}, R b h → (∀ i o r, e ≠ .point i o r) → R b (h ++ [e])
  point : ∀ {b h i o k b' r}, R b h → ops[i]? = some o → (∀ o' r', .point i o' r' ∉ h) →
    M.cell o = some k → M.Ends o (b k) b' r →
    R (Function.update b k b') (h ++ [.point i o r]) ∧ (O.apply (O.after h) o).2 = r

/-! ## 3. The invariant -/

/-- What the history says about call `i`. -/
def Placed (h : List (Event ω ρ)) (i : Nat) (o : ω) : Pc ρ L → Prop
  | .idle => ∀ e ∈ h, e.id ≠ i
  | .waiting | .inside _ =>
    .call i o ∈ h ∧ (∀ o' r', .point i o' r' ∉ h) ∧ ∀ o' r', .ret i o' r' ∉ h
  | .leaving r | .unlocked r => .point i o r ∈ h ∧ ∀ o' r', .ret i o' r' ∉ h
  | .returned _ => True

omit [DecidableEq κ] in
theorem Placed.frame {h : List (Event ω ρ)} {e : Event ω ρ} {i : Nat} {o : ω} {pc : Pc ρ L}
    (hp : Placed h i o pc) (he : e.id ≠ i) : Placed (h ++ [e]) i o pc := by
  have hmem : ∀ {e' : Event ω ρ}, e' ∉ h → e'.id = i → e' ∉ h ++ [e] := by
    intro e' hnot hid hin
    rcases List.mem_append.mp hin with hin | hin
    · exact hnot hin
    · exact he (List.mem_singleton.mp hin ▸ hid)
  cases pc with
  | idle =>
    intro e' hin
    rcases List.mem_append.mp hin with hin | hin
    · exact hp e' hin
    · exact List.mem_singleton.mp hin ▸ he
  | waiting | inside =>
    exact ⟨List.mem_append_left _ hp.1, fun o' r' => hmem (hp.2.1 o' r') rfl,
      fun o' r' => hmem (hp.2.2 o' r') rfl⟩
  | leaving | unlocked =>
    exact ⟨List.mem_append_left _ hp.1, fun o' r' => hmem (hp.2 o' r') rfl⟩
  | returned => trivial

/-- **The invariant.**  `b` is what the calls that have ended left in the cells. -/
structure Inv (M : Code κ β ω ρ L) (O : Object σ ω ρ) (ops : List ω)
    (R : (κ → β) → List (Event ω ρ) → Prop) (b : κ → β) (s : State κ β ω ρ L) : Prop where
  ops : s.calls.map Call.op = ops
  rel : R b s.hist
  linear : O.Linear s.hist
  /-- Only a call that has the lock for itself changes a cell, -/
  still : ∀ k, (∀ (i : Nat) (c : Call ω ρ L) (l : L), s.calls[i]? = some c → c.pc = .inside l →
    M.cell c.op = some k → M.shared c.op = true) → s.cells k = b k
  /-- and it finds there what it left there. -/
  inside : ∀ (i : Nat) (c : Call ω ρ L) (l : L) (k : κ), s.calls[i]? = some c → c.pc = .inside l →
    M.cell c.op = some k → M.Reaches c.op (b k) (s.cells k) l
  excl : ∀ (i j : Nat) (c d : Call ω ρ L), s.calls[i]? = some c → s.calls[j]? = some d → i ≠ j →
    c.pc.holds = true → d.pc.holds = true → M.cell c.op = M.cell d.op →
    M.shared c.op = true ∧ M.shared d.op = true
  placed : ∀ (i : Nat) (c : Call ω ρ L), s.calls[i]? = some c → Placed s.hist i c.op c.pc

variable {O : Object σ ω ρ} {ops : List ω} {R : (κ → β) → List (Event ω ρ) → Prop} {b : κ → β}
  {i : Nat} {c : Call ω ρ L} {pc : Pc ρ L} {es : List (Event ω ρ)}

omit [DecidableEq κ] in
theorem Inv.init {cells : κ → β} (h : R cells []) :
    Inv M O ops R cells (State.init cells ops) where
  ops := by simp [State.init, Function.comp_def]
  rel := h
  linear := Object.linear_nil
  still _ _ := rfl
  inside i c l k hi hpc := by
    simp only [State.init, List.getElem?_map, Option.map_eq_some_iff] at hi
    obtain ⟨o, -, rfl⟩ := hi
    exact absurd hpc (by simp)
  excl i j c d hi _ _ hpc := by
    simp only [State.init, List.getElem?_map, Option.map_eq_some_iff] at hi
    obtain ⟨o, -, rfl⟩ := hi
    exact absurd hpc (by simp [Pc.holds])
  placed i c hi := by
    simp only [State.init, List.getElem?_map, Option.map_eq_some_iff] at hi
    obtain ⟨o, -, rfl⟩ := hi
    exact fun e he => absurd he List.not_mem_nil

omit [DecidableEq κ] in
theorem Inv.ops_goto (h : Inv M O ops R b s) (hi : s.calls[i]? = some c) :
    (s.calls.set i { c with pc }).map Call.op = ops := by
  obtain ⟨hlt, rfl⟩ := List.getElem?_eq_some_iff.mp hi
  have hlt' : i < (s.calls.map Call.op).length := by rwa [List.length_map]
  have hsame := List.set_getElem_self hlt'
  rw [List.getElem_map] at hsame
  rw [List.map_set, hsame, h.ops]

omit [DecidableEq κ] in
theorem Inv.placed_goto (h : Inv M O ops R b s) (hes : ∀ e ∈ es, e.id = i) (hle : es.length ≤ 1)
    (hp : Placed (s.hist ++ es) i c.op pc) (j : Nat) (d : Call ω ρ L)
    (hj : (s.calls.set i { c with pc })[j]? = some d) : Placed (s.hist ++ es) j d.op d.pc := by
  rcases getElem?_set_cases hj with ⟨rfl, rfl⟩ | ⟨hne, hj⟩
  · exact hp
  · cases es with
    | nil =>
      rw [List.append_nil]
      exact h.placed j d hj
    | cons e es =>
      obtain rfl : es = [] := List.length_eq_zero_iff.mp (by simpa using hle)
      exact (h.placed j d hj).frame fun hid => hne (hid.symm.trans (hes e List.mem_cons_self))

omit [DecidableEq κ] in
/-- A call that does not take the lock excludes nobody. -/
theorem Inv.excl_goto (h : Inv M O ops R b s) (hi : s.calls[i]? = some c)
    (hnew : pc.holds = true → c.pc.holds = true ∨ ∀ (j : Nat) (d : Call ω ρ L),
      s.calls[j]? = some d → d.pc.holds = true → M.cell d.op = M.cell c.op →
      M.shared d.op = true ∧ M.shared c.op = true)
    (j k : Nat) (d e : Call ω ρ L) (hj : (s.calls.set i { c with pc })[j]? = some d)
    (hk : (s.calls.set i { c with pc })[k]? = some e) (hne : j ≠ k) (hd : d.pc.holds = true)
    (he : e.pc.holds = true) (hcell : M.cell d.op = M.cell e.op) :
    M.shared d.op = true ∧ M.shared e.op = true := by
  have hboth : ∀ {j : Nat} {d : Call ω ρ L}, j ≠ i → s.calls[j]? = some d → d.pc.holds = true →
      pc.holds = true → M.cell d.op = M.cell c.op →
        M.shared d.op = true ∧ M.shared c.op = true := by
    intro j d hne hj hd hpc hcell
    rcases hnew hpc with hc | hfree
    · exact h.excl j i d c hj hi hne hd hc hcell
    · exact hfree j d hj hd hcell
  rcases getElem?_set_cases hj with ⟨rfl, rfl⟩ | ⟨hji, hj'⟩
  · rcases getElem?_set_cases hk with ⟨rfl, rfl⟩ | ⟨hki, hk'⟩
    · exact absurd rfl hne
    · exact (hboth hki hk' he hd hcell.symm).symm
  · rcases getElem?_set_cases hk with ⟨rfl, rfl⟩ | ⟨hki, hk'⟩
    · exact hboth hji hj' hd he hcell
    · exact h.excl j k d e hj' hk' hne hd he hcell

omit [DecidableEq κ] in
/-- Behind a shared lock, nobody writes. -/
theorem Inv.still_of_shared (h : Inv M O ops R b s) (hi : s.calls[i]? = some c)
    (hc : c.pc.holds = true) {k : κ} (hk : M.cell c.op = some k) (hshared : M.shared c.op = true) :
    s.cells k = b k := by
  refine h.still k fun j d l hj hd hdk => ?_
  by_cases hji : j = i
  · subst hji
    obtain rfl := Option.some.inj (hi.symm.trans hj)
    exact hshared
  · exact (h.excl j i d c hj hi hji (by rw [hd]; rfl) hc (hdk.trans hk.symm)).1

omit [DecidableEq κ] in
/-- A step that is not one on the cell. -/
theorem Inv.turn (h : Inv M O ops R b s) (hi : s.calls[i]? = some c)
    (hrel : R b (s.hist ++ es)) (hlin : O.Linear (s.hist ++ es)) (hes : ∀ e ∈ es, e.id = i)
    (hle : es.length ≤ 1) (hp : Placed (s.hist ++ es) i c.op pc)
    (hout : ∀ l, c.pc ≠ .inside l)
    (hin : ∀ l, pc = .inside l → l = M.start c.op ∧ ∀ k, M.cell c.op = some k → s.cells k = b k)
    (hnew : pc.holds = true → c.pc.holds = true ∨ ∀ (j : Nat) (d : Call ω ρ L),
      s.calls[j]? = some d → d.pc.holds = true → M.cell d.op = M.cell c.op →
      M.shared d.op = true ∧ M.shared c.op = true) :
    Inv M O ops R b (s.goto i c pc es) where
  ops := h.ops_goto hi
  rel := hrel
  linear := hlin
  still k hk := by
    refine h.still k fun j d l hj hd hdk => ?_
    have hji : j ≠ i := by
      rintro rfl
      obtain rfl := Option.some.inj (hi.symm.trans hj)
      exact hout l hd
    exact hk j d l (by rw [State.goto, List.getElem?_set_ne (Ne.symm hji)]; exact hj) hd hdk
  inside j d l k hj hd hdk := by
    rcases getElem?_set_cases hj with ⟨rfl, rfl⟩ | ⟨-, hj⟩
    · obtain ⟨rfl, hstill⟩ := hin l hd
      have hsame : s.cells k = b k := hstill k hdk
      show M.Reaches c.op (b k) (s.cells k) _
      rw [hsame]
      exact .start
    · exact h.inside j d l k hj hd hdk
  excl := h.excl_goto hi hnew
  placed := h.placed_goto hes hle hp

/-- A step on the cell, after which the calls that have ended left `b'`. -/
theorem Inv.work (h : Inv M O ops R b s) (hM : M.Means O ops R) (hi : s.calls[i]? = some c) {l : L}
    {k : κ} {x : β} {y : L ⊕ ρ} {b' : κ → β} (hpc : c.pc = .inside l) (hk : M.cell c.op = some k)
    (hnext : M.next c.op (s.cells k) l = some (x, y)) (hrel : R b' (s.hist ++ es))
    (hlin : O.Linear (s.hist ++ es)) (hes : ∀ e ∈ es, e.id = i) (hle : es.length ≤ 1)
    (hp : Placed (s.hist ++ es) i c.op pc)
    (hpc' : (∃ l', y = .inl l' ∧ pc = .inside l' ∧ b' = b) ∨
      (∃ r, y = .inr r ∧ pc = .leaving r ∧ b' = Function.update b k x)) :
    Inv M O ops R b' ((s.setCell k x).goto i c pc es) := by
  have hc : c.pc.holds = true := by
    rw [hpc]
    rfl
  have hother : ∀ {j : κ}, j ≠ k → b' j = b j := by
    intro j hj
    rcases hpc' with ⟨l', -, -, rfl⟩ | ⟨r, -, -, rfl⟩
    · rfl
    · exact Function.update_of_ne hj _ _
  -- behind a shared lock the cell is, and stays, as the last writer left it
  have hshared : M.shared c.op = true → x = s.cells k ∧ s.cells k = b k ∧ b' k = b k := by
    intro hsh
    have hx := hM.reads hsh hnext
    have hb := h.still_of_shared hi hc hk hsh
    refine ⟨hx, hb, ?_⟩
    rcases hpc' with ⟨l', -, -, rfl⟩ | ⟨r, -, -, rfl⟩
    · rfl
    · rw [Function.update_self, hx, hb]
  refine ⟨h.ops_goto hi, hrel, hlin, fun j hj => ?_, fun j d l₁ m hj hd hdm => ?_,
    h.excl_goto hi fun _ => Or.inl hc, h.placed_goto hes hle hp⟩
  · by_cases hjk : j = k
    · subst hjk
      show Function.update s.cells j x j = b' j
      rw [Function.update_self]
      rcases hpc' with ⟨l', -, rfl, rfl⟩ | ⟨r, -, -, rfl⟩
      · obtain ⟨hx, hb, -⟩ := hshared
          (hj i ⟨c.op, .inside l'⟩ l' (getElem?_set_self_of_some hi) rfl hk)
        rw [hx, hb]
      · rw [Function.update_self]
    · show Function.update s.cells k x j = b' j
      rw [Function.update_of_ne hjk, hother hjk]
      refine h.still j fun m d l₁ hm hd hdj => ?_
      by_cases hmi : m = i
      · subst hmi
        obtain rfl := Option.some.inj (hi.symm.trans hm)
        exact absurd (Option.some.inj (hdj.symm.trans hk)) hjk
      · exact hj m d l₁ (by rw [State.goto, List.getElem?_set_ne (Ne.symm hmi)]; exact hm) hd hdj
  · show M.Reaches d.op (b' m) (Function.update s.cells k x m) l₁
    rcases getElem?_set_cases hj with ⟨rfl, rfl⟩ | ⟨hji, hj'⟩
    · obtain rfl := Option.some.inj (hdm.symm.trans hk)
      rcases hpc' with ⟨l', rfl, rfl, rfl⟩ | ⟨r, -, rfl, -⟩
      · injection hd with hd
        subst hd
        rw [Function.update_self]
        exact (h.inside j c l m hi hpc hk).next hnext
      · exact absurd hd (by simp)
    · by_cases hmk : m = k
      · subst hmk
        have hsh := h.excl i j c d hi hj' (Ne.symm hji) hc (by rw [hd]; rfl) (hk.trans hdm.symm)
        obtain ⟨hx, hb, hb'⟩ := hshared hsh.1
        rw [Function.update_self, hx, hb']
        exact h.inside j d l₁ m hj' hd hdm
      · rw [Function.update_of_ne hmk, hother hmk]
        exact h.inside j d l₁ m hj' hd hdm

/-- **Every step keeps the invariant.** -/
theorem Inv.step (h : Inv M O ops R b s) (hM : M.Means O ops R) (hs : step M s a = some s') :
    ∃ b', Inv M O ops R b' s' := by
  obtain ⟨i, c, hi, hm⟩ := step_cases hs
  have hp := h.placed i c hi
  have hrel : R b (s.hist ++ []) := by
    rw [List.append_nil]
    exact h.rel
  have hlin : O.Linear (s.hist ++ []) := by
    rw [List.append_nil]
    exact h.linear
  cases hm with
  | call hpc =>
    rw [hpc] at hp
    refine ⟨b, h.turn hi (hM.frame h.rel (by simp)) (Object.linear_concat.mpr ⟨h.linear, hp⟩)
      (by simp [Event.id]) (by simp) ⟨by simp, fun o' r' hin => ?_, fun o' r' hin => ?_⟩
      (by simp [hpc]) (by simp) (by simp [Pc.holds])⟩
    · exact hp _ ((List.mem_append.mp hin).resolve_right (by simp)) rfl
    · exact hp _ ((List.mem_append.mp hin).resolve_right (by simp)) rfl
  | @lock k hpc hk hfree =>
    rw [hpc] at hp
    have hothers : ∀ (j : Nat) (d : Call ω ρ L), s.calls[j]? = some d → d.pc.holds = true →
        M.cell d.op = M.cell c.op → M.shared d.op = true ∧ M.shared c.op = true := by
      intro j d hj hd hcell
      have hall := List.all_eq_true.mp hfree d (List.mem_of_getElem? hj)
      simpa [hd, hcell] using hall
    refine ⟨b, h.turn hi hrel hlin (by simp) (by simp) (by rw [List.append_nil]; exact hp)
      (by simp [hpc]) (fun l hl => ⟨(Pc.inside.inj hl).symm, fun k' hk' => ?_⟩)
      fun _ => Or.inr hothers⟩
    exact h.still k' fun j d l' hj hd hdk =>
      (hothers j d hj (by rw [hd]; rfl) (hdk.trans hk'.symm)).1
  | @goes l k x l' hpc hk hnext =>
    rw [hpc] at hp
    exact ⟨b, h.work hM hi hpc hk hnext hrel hlin (by simp) (by simp)
      (by rw [List.append_nil]; exact hp) (Or.inl ⟨l', rfl, rfl, rfl⟩)⟩
  | @ends l k x r hpc hk hnext =>
    rw [hpc] at hp
    obtain ⟨hcall, hnew, hret⟩ := hp
    have hop : ops[i]? = some c.op := by
      rw [← h.ops, List.getElem?_map, hi]
      rfl
    obtain ⟨hrel', happly⟩ := hM.point h.rel hop hnew hk
      ⟨_, l, h.inside i c l k hi hpc hk, hnext⟩
    refine ⟨_, h.work hM hi hpc hk hnext hrel'
      (Object.linear_concat.mpr ⟨h.linear, hcall, hnew, happly⟩) (by simp [Event.id]) (by simp)
      ⟨by simp, fun o' r' hin => ?_⟩ (Or.inr ⟨r, rfl, rfl, rfl⟩)⟩
    exact hret o' r' ((List.mem_append.mp hin).resolve_right (by simp))
  | @unlock r hpc =>
    rw [hpc] at hp
    exact ⟨b, h.turn hi hrel hlin (by simp) (by simp) (by rw [List.append_nil]; exact hp)
      (by simp [hpc]) (by simp) (by simp [Pc.holds])⟩
  | @ret r hpc =>
    rw [hpc] at hp
    exact ⟨b, h.turn hi (hM.frame h.rel (by simp)) (Object.linear_concat.mpr ⟨h.linear, hp⟩)
      (by simp [Event.id]) (by simp) trivial (by simp [hpc]) (by simp) (by simp [Pc.holds])⟩

/-! ## 4. Runs -/

/-- A run: the calls, in any interleaving of their steps. -/
abbrev Run (M : Code κ β ω ρ L) : State κ β ω ρ L → State κ β ω ρ L → Prop :=
  Relation.ReflTransGen (Run.Moves (step M))

theorem inv_of_run {cells : κ → β} (hM : M.Means O ops R) (h0 : R cells [])
    (h : RwLock.Run M (State.init cells ops) s) : ∃ b, Inv M O ops R b s :=
  Run.invariant (I := fun s => ∃ b, Inv M O ops R b s)
    (fun _ _ ⟨_, hb⟩ ⟨_, ha⟩ => hb.step hM ha) h ⟨cells, .init h0⟩

/-- **Behind the locks, each call is its operation**: the history of every run is linearizable. -/
theorem linear_of_run {cells : κ → β} (hM : M.Means O ops R) (h0 : R cells [])
    (h : RwLock.Run M (State.init cells ops) s) : O.Linear s.hist := by
  obtain ⟨b, hb⟩ := inv_of_run hM h0 h
  exact hb.linear

/-- **No call is at work on its cell.** -/
def State.Quiet (s : State κ β ω ρ L) : Prop := ∀ c ∈ s.calls, ∀ l, c.pc ≠ .inside l

/-- While no call is at work, the cells are what the history says. -/
theorem rel_of_run {cells : κ → β} (hM : M.Means O ops R) (h0 : R cells [])
    (h : RwLock.Run M (State.init cells ops) s) (hq : s.Quiet) : R s.cells s.hist := by
  obtain ⟨b, hb⟩ := inv_of_run hM h0 h
  have hcells : s.cells = b := by
    funext k
    exact hb.still k fun i c l hi hpc => absurd hpc (hq c (List.mem_of_getElem? hi) l)
  rw [hcells]
  exact hb.rel

/-! ## 5. Every call returns -/

/-- **No call is stuck on its cell**, and `v` counts the steps that it has to take there: at most
`n` for a call that has just got the lock. -/
structure Code.Goes (M : Code κ β ω ρ L) (ops : List ω) (R : (κ → β) → List (Event ω ρ) → Prop)
    (v : ω → β → L → Nat) (n : Nat) : Prop where
  cell : ∀ o ∈ ops, ∃ k, M.cell o = some k
  next : ∀ {b h o k b₁ l}, R b h → o ∈ ops → M.cell o = some k → M.Reaches o (b k) b₁ l →
    ∃ y, M.next o b₁ l = some y
  lowers : ∀ {o b l b' l'}, M.next o b l = some (b', .inl l') → v o b' l' < v o b l
  start : ∀ {b h o k}, R b h → o ∈ ops → M.cell o = some k → v o (b k) (M.start o) ≤ n

variable {v : ω → β → L → Nat} {n : Nat}

omit [DecidableEq κ] in
theorem Inv.mem_ops (h : Inv M O ops R b s) (hi : s.calls[i]? = some c) : c.op ∈ ops := by
  rw [← h.ops]
  exact List.mem_map_of_mem (List.mem_of_getElem? hi)

/-- **Nobody waits for ever**: until all calls have returned, one of them can go on. -/
theorem Inv.exists_step (h : Inv M O ops R b s) (hM : M.Goes ops R v n) :
    (∀ c ∈ s.calls, ∃ r, c.pc = .returned r) ∨ ∃ a t, RwLock.step M s a = some t := by
  by_cases hstuck : ∀ a, RwLock.step M s a = none
  · refine Or.inl fun c hc => ?_
    have hwaits : ∀ d ∈ s.calls, d.pc = .waiting ∨ ∃ r, d.pc = .returned r := by
      intro d hd
      obtain ⟨i, hlt, hget⟩ := List.mem_iff_getElem.mp hd
      have hi : s.calls[i]? = some d := List.getElem?_eq_some_iff.mpr ⟨hlt, hget⟩
      cases hpc : d.pc with
      | waiting => exact Or.inl rfl
      | returned r => exact Or.inr ⟨r, rfl⟩
      | idle => exact absurd (hstuck (.call i)) (by simp [RwLock.step, hi, hpc])
      | leaving r => exact absurd (hstuck (.unlock i)) (by simp [RwLock.step, hi, hpc])
      | unlocked r => exact absurd (hstuck (.ret i)) (by simp [RwLock.step, hi, hpc])
      | inside l =>
        obtain ⟨k, hk⟩ := hM.cell d.op (h.mem_ops hi)
        obtain ⟨⟨x, y⟩, hy⟩ := hM.next h.rel (h.mem_ops hi) hk (h.inside i d l k hi hpc hk)
        cases y with
        | inl l' => exact absurd (hstuck (.advance i)) (by simp [RwLock.step, hi, hpc, hk, hy])
        | inr r => exact absurd (hstuck (.advance i)) (by simp [RwLock.step, hi, hpc, hk, hy])
    rcases hwaits c hc with hpc | hret
    · -- nobody has a lock, so this one could take its own
      have hfree : s.free M c.op = true := by
        refine List.all_eq_true.mpr fun d hd => ?_
        rcases hwaits d hd with hd | ⟨r, hd⟩ <;> simp [hd, Pc.holds]
      obtain ⟨i, hlt, hget⟩ := List.mem_iff_getElem.mp hc
      have hi : s.calls[i]? = some c := List.getElem?_eq_some_iff.mpr ⟨hlt, hget⟩
      obtain ⟨k, hk⟩ := hM.cell c.op (h.mem_ops hi)
      exact absurd (hstuck (.lock i)) (by simp [RwLock.step, hi, hpc, hk, hfree])
    · exact hret
  · obtain ⟨a, ha⟩ := Classical.not_forall.mp hstuck
    obtain ⟨t, ht⟩ := Option.ne_none_iff_exists'.mp ha
    exact Or.inr ⟨a, t, ht⟩

/-- The steps that a call has to take. -/
def Call.left (M : Code κ β ω ρ L) (v : ω → β → L → Nat) (n : Nat) (cells : κ → β)
    (c : Call ω ρ L) : Nat :=
  match c.pc with
  | .idle => n + 5
  | .waiting => n + 4
  | .inside l => (M.cell c.op).elim 0 fun k => v c.op (cells k) l + 3
  | .leaving _ => 2
  | .unlocked _ => 1
  | .returned _ => 0

def State.leftAt (M : Code κ β ω ρ L) (v : ω → β → L → Nat) (n : Nat) (s : State κ β ω ρ L)
    (i : Nat) : Nat := (s.calls[i]?).elim 0 (Call.left M v n s.cells)

/-- The steps that all calls have to take. -/
def State.left (M : Code κ β ω ρ L) (v : ω → β → L → Nat) (n : Nat) (s : State κ β ω ρ L) : Nat :=
  ∑ i ∈ Finset.range s.calls.length, s.leftAt M v n i

omit [DecidableEq κ] in
theorem leftAt_eq (hi : s.calls[i]? = some c) : s.leftAt M v n i = c.left M v n s.cells := by
  rw [State.leftAt, hi, Option.elim_some]

omit [DecidableEq κ] in
/-- The other calls have to take the steps that they had to take. -/
theorem left_goto (hi : s.calls[i]? = some c) {cells : κ → β}
    (hother : ∀ (j : Nat) (d : Call ω ρ L) (l : L) (k : κ), j ≠ i → s.calls[j]? = some d →
      d.pc = .inside l → M.cell d.op = some k → cells k = s.cells k)
    (hlt : Call.left M v n cells { c with pc } < c.left M v n s.cells) :
    ({ s with cells }.goto i c pc es).left M v n < s.left M v n := by
  have hlen : ({ s with cells }.goto i c pc es).calls.length = s.calls.length := List.length_set
  have hself : ({ s with cells }.goto i c pc es).leftAt M v n i
      = Call.left M v n cells { c with pc } := leftAt_eq (getElem?_set_self_of_some hi)
  have hplace := Tally.sum_add_of_ne (f := ({ s with cells }.goto i c pc es).leftAt M v n)
    (g := s.leftAt M v n) (Finset.mem_range.mpr (List.getElem?_eq_some_iff.mp hi).1)
    fun j _ hne => ?_
  · rw [hself, leftAt_eq hi] at hplace
    rw [State.left, State.left, hlen]
    omega
  · have hsame : ({ s with cells }.goto i c pc es).calls[j]? = s.calls[j]? :=
      List.getElem?_set_ne (Ne.symm hne)
    rw [State.leftAt, State.leftAt, hsame]
    cases hj : s.calls[j]? with
    | none => rfl
    | some d =>
      simp only [Option.elim_some, Call.left]
      cases hpc : d.pc with
      | inside l =>
        cases hk : M.cell d.op with
        | none => rfl
        | some k =>
          have hcell := hother j d l k hne hj hpc hk
          simp only [Option.elim_some, State.goto, hcell]
      | idle | waiting | leaving | unlocked | returned => rfl

/-- **Every step leaves fewer.** -/
theorem Inv.left_step (h : Inv M O ops R b s) (hM : M.Means O ops R) (hG : M.Goes ops R v n)
    (hs : RwLock.step M s a = some s') : s'.left M v n < s.left M v n := by
  obtain ⟨i, c, hi, hm⟩ := step_cases hs
  -- a step on a cell that somebody else is on is one behind a shared lock
  have hwork : ∀ {l k x y}, c.pc = .inside l → M.cell c.op = some k →
      M.next c.op (s.cells k) l = some (x, y) → ∀ (j : Nat) (d : Call ω ρ L) (l : L) (k' : κ),
      j ≠ i → s.calls[j]? = some d → d.pc = .inside l → M.cell d.op = some k' →
      Function.update s.cells k x k' = s.cells k' := by
    intro l k x y hpc hk hnext j d l' k' hne hj hd hdk
    by_cases hkk : k' = k
    · subst hkk
      have hsh := h.excl i j c d hi hj (Ne.symm hne) (by rw [hpc]; rfl) (by rw [hd]; rfl)
        (hk.trans hdk.symm)
      rw [Function.update_self, hM.reads hsh.1 hnext]
    · exact Function.update_of_ne hkk _ _
  cases hm with
  | call hpc =>
    refine left_goto hi (fun _ _ _ _ _ _ _ _ => rfl) ?_
    simp only [Call.left, hpc]
    omega
  | @lock k hpc hk hfree =>
    refine left_goto hi (fun _ _ _ _ _ _ _ _ => rfl) ?_
    have hstill : s.cells k = b k := by
      refine h.still k fun j d l hj hd hdk => ?_
      have hall := List.all_eq_true.mp hfree d (List.mem_of_getElem? hj)
      have hboth : M.shared d.op = true ∧ M.shared c.op = true := by
        simpa [hd, Pc.holds, hdk, hk] using hall
      exact hboth.1
    have hle := hG.start h.rel (h.mem_ops hi) hk
    simp only [Call.left, hpc, hk, Option.elim_some, hstill]
    omega
  | @goes l k x l' hpc hk hnext =>
    refine left_goto hi (hwork hpc hk hnext) ?_
    have hlt := hG.lowers hnext
    simp only [Call.left, hpc, hk, Option.elim_some, Function.update_self]
    omega
  | @ends l k x r hpc hk hnext =>
    refine left_goto hi (hwork hpc hk hnext) ?_
    simp only [Call.left, hpc, hk, Option.elim_some]
    omega
  | unlock hpc =>
    refine left_goto hi (fun _ _ _ _ _ _ _ _ => rfl) ?_
    simp only [Call.left, hpc]
    omega
  | ret hpc =>
    refine left_goto hi (fun _ _ _ _ _ _ _ _ => rfl) ?_
    simp only [Call.left, hpc]
    omega

omit [DecidableEq κ] in
theorem left_init (cells : κ → β) (ops : List ω) :
    (State.init cells ops : State κ β ω ρ L).left M v n = (n + 5) * ops.length := by
  have hall : ∀ i ∈ Finset.range ops.length,
      (State.init cells ops : State κ β ω ρ L).leftAt M v n i = n + 5 := by
    intro i hi
    have hlt := Finset.mem_range.mp hi
    simp [State.leftAt, State.init, hlt, Call.left]
  have hlen : (State.init cells ops : State κ β ω ρ L).calls.length = ops.length :=
    List.length_map _
  rw [State.left, hlen, Finset.sum_const_nat hall, Finset.card_range, Nat.mul_comm]

/-- **Every schedule ends, with all calls returned.** -/
theorem returns_of_exec {cells : κ → β} (hM : M.Means O ops R) (hG : M.Goes ops R v n)
    (h0 : R cells []) {as : List Action}
    (h : Run.exec (step M) (State.init cells ops) as = some s) :
    as.length ≤ (n + 5) * ops.length ∧
      ((∀ c ∈ s.calls, ∃ r, c.pc = .returned r) ∨ ∃ a t, step M s a = some t) := by
  obtain ⟨⟨b, hb⟩, hle⟩ := Run.length_le (I := fun s => ∃ b, Inv M O ops R b s)
    (f := State.left M v n)
    (fun x a y ⟨b, hb⟩ hxy => ⟨hb.step hM hxy, hb.left_step hM hG hxy⟩) h ⟨cells, .init h0⟩
  rw [left_init] at hle
  exact ⟨by omega, hb.exists_step hG⟩

end RwLock
