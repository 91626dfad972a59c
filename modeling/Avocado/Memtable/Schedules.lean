/-
# What the schedule of the memtable's calls does not matter for

The calls of `KV_store::put` and `get` are scheduled by the system, a weak compare-exchange may
fail for no reason, and the skip list is somebody else's.  This file says what none of that
changes.

**The contents.**  When the puts on a key have returned, its entry depends only on which puts were
made (`find_eq_of_samePuts`), if no two of them have one clock and different values.

**That calls return.**  `put` has a loop, and another put can make its compare-exchange fail.  A
failure needs a success: the put that swapped a cell makes the others on this cell stale, and it
does so once.  So `n` puts need at most `n + 3` steps each, `get` needs 3, and beyond that there are
only the failures for no reason (`returns_of_schedule`).  No call is ever stuck, whatever the host
writes.
-/
import Mathlib.Algebra.BigOperators.Ring.List
import Mathlib.Algebra.Order.Ring.Nat
import Avocado.Lib.Tally
import Avocado.Memtable.Linearizable

namespace Avocado.Memtable

open Lookup

variable {S S' : AtomicSet VarKeySizeNode} {cipher cipher' : CipherSsl} {s s' : State S}
  {m : Mem S}

/-! ## 1. The contents -/

/-- The put was called. -/
def State.Puts (s : State S) (key value : List UInt8) (clock : Lamport) : Prop :=
  ∃ i, .call i (.put key value clock) ∈ s.hist

/-- All puts on the key have returned. -/
def State.PutsDone (s : State S) (key : List UInt8) : Prop :=
  ∀ i value clock, .call i (.put key value clock) ∈ s.hist →
    ∃ b, .ret i (.put key value clock) (.put b) ∈ s.hist

/-- `o` is one of the entries `P` with the greatest clock, or there is none. -/
def Latest (P : List UInt8 → Lamport → Prop) : Option MetaData → Prop
  | none => ∀ value clock, ¬ P value clock
  | some en => P en.data en.clock ∧ ∀ value clock, P value clock → clock ≤ en.clock

/-- There is one such entry, if entries with one clock have one value. -/
theorem Latest.unique {P : List UInt8 → Lamport → Prop} {o o' : Option MetaData}
    (hone : ∀ value value' clock, P value clock → P value' clock → value = value')
    (h : Latest P o) (h' : Latest P o') : o = o' := by
  cases o with
  | none =>
    cases o' with
    | none => rfl
    | some en' => exact absurd h'.1 (h _ _)
  | some en =>
    cases o' with
    | none => exact absurd h.1 (h' _ _)
    | some en' =>
      obtain ⟨clock, value⟩ := en
      obtain ⟨clock', value'⟩ := en'
      obtain rfl : clock = clock' := le_antisymm (h'.2 _ _ h.1) (h.2 _ _ h'.1)
      obtain rfl : value = value' := hone _ _ _ h.1 h'.1
      rfl

theorem Latest.congr {P P' : List UInt8 → Lamport → Prop} {o : Option MetaData}
    (hP : ∀ value clock, P value clock ↔ P' value clock) (h : Latest P' o) : Latest P o := by
  cases o with
  | none => exact fun value clock hp => h value clock ((hP _ _).mp hp)
  | some en => exact ⟨(hP _ _).mpr h.1, fun value clock hp => h.2 value clock ((hP _ _).mp hp)⟩

/-- **When the puts on a key have returned, its entry is the latest of them.** -/
theorem Inv.latest (h : Inv cipher s) {key : List UInt8} (hdone : s.PutsDone key) :
    Latest (s.Puts key) (s.mem.kv.find key) := by
  by_cases hput : ∃ i value clock, .call i (.put key value clock) ∈ s.hist
  · obtain ⟨i, en, hfind, hret, hmax, -⟩ := h.newest hput hdone
    rw [hfind]
    obtain ⟨h₁, h₂, heq, hcall, -⟩ := h.linear.split (h.linear.point_of_ret hret)
    refine ⟨⟨i, heq ▸ List.mem_append_left _ hcall⟩, ?_⟩
    rintro value clock ⟨j, hj⟩
    exact hmax j value clock hj
  · have hnone : ∀ value clock, ¬ s.Puts key value clock :=
      fun value clock ⟨i, hi⟩ => hput ⟨i, value, clock, hi⟩
    have hnew := newest_of_linear h.linear key
    rw [← h.kv] at hnew
    cases hfind : s.mem.kv.find key with
    | none => exact hnone
    | some en =>
      -- an entry is that of a put that has taken effect, which was called before
      rw [hfind] at hnew
      obtain ⟨i, hi, -⟩ := hnew
      obtain ⟨h₁, h₂, heq, hcall, -⟩ := h.linear.split hi
      exact absurd ⟨i, heq ▸ List.mem_append_left _ hcall⟩ (hnone en.data en.clock)

theorem inv_of_honest (hS : S.Lawful VarKeySizeNode.lt) (hc : cipher.Lawful)
    (h : HonestRun cipher (State.init S) s) : Inv cipher s :=
  inv_of_run hS hc (inv_init hS) (authentic_of_honest hS hc (inv_init hS) clean_init h).1

/-- **The entry of a key does not depend on the schedule.**  On two stores, with any skip lists and
ciphers, the same puts on a key were called (any number of times, in any order, interleaved in any
way with each other and with other calls) and have returned.  Then the key has the same entry in
both, if puts with one clock have one value. -/
theorem find_eq_of_samePuts
    (hS : IsStrictWeakOrder VarKeySizeNode VarKeySizeNode.lt → S.Lawful VarKeySizeNode.lt)
    (hS' : IsStrictWeakOrder VarKeySizeNode VarKeySizeNode.lt → S'.Lawful VarKeySizeNode.lt)
    (hc : cipher.Lawful) (hc' : cipher'.Lawful) {t : State S'} {key : List UInt8}
    (h : HonestRun cipher (State.init S) s) (h' : HonestRun cipher' (State.init S') t)
    (hsame : ∀ value clock, s.Puts key value clock ↔ t.Puts key value clock)
    (hone : ∀ value value' clock, s.Puts key value clock → s.Puts key value' clock → value = value')
    (hdone : s.PutsDone key) (hdone' : t.PutsDone key) :
    s.mem.kv.find key = t.mem.kv.find key := by
  have hs : Latest (s.Puts key) (s.mem.kv.find key) :=
    (inv_of_honest (hS inferInstance) hc h).latest hdone
  have ht : Latest (t.Puts key) (t.mem.kv.find key) :=
    (inv_of_honest (hS' inferInstance) hc' h').latest hdone'
  exact hs.unique hone (ht.congr hsame)

/-- The puts of `overtaking`, the newer one first, and the older one twice. -/
def sequential : List Action :=
  [.put [1] [8, 9] ⟨2, 1⟩, .advance 0 false, .advance 0 false,
    .put [1] [7] ⟨1, 1⟩, .advance 1 false, .advance 1 false, .advance 1 false, .advance 1 false,
    .put [1] [7] ⟨1, 1⟩, .advance 2 false, .advance 2 false, .advance 2 false, .advance 2 false]

theorem find_eq_of_samePuts_overtaking :
    ∃ s t, HonestRun maskCipher (State.init (AtomicSet.sorted VarKeySizeNode.lt)) s ∧
      HonestRun maskCipher (State.init (AtomicSet.sorted VarKeySizeNode.lt)) t ∧
      s.installed = [0, 1] ∧ t.installed = [0] ∧ s.mem.kv.find [1] = t.mem.kv.find [1] := by
  let run := Run.exec (Run.guard honest (step maskCipher))
    (State.init (AtomicSet.sorted VarKeySizeNode.lt))
  let old : Op := .put [1] [7] ⟨1, 1⟩
  let new : Op := .put [1] [8, 9] ⟨2, 1⟩
  let get : Res := .get ⟨⟨2, 1⟩, 2, some [8, 9]⟩
  have hs : ((run overtaking).map fun s => (s.hist, s.installed)) =
      some ([.call 0 old, .call 1 new, .point 0 old (.put true), .point 1 new (.put true),
        .ret 1 new (.put true), .ret 0 old (.put true), .call 2 (.get [1]), .point 2 (.get [1]) get,
        .ret 2 (.get [1]) get], [0, 1]) := by decide +kernel
  have ht : ((run sequential).map fun s => (s.hist, s.installed)) =
      some ([.call 0 new, .point 0 new (.put true), .ret 0 new (.put true), .call 1 old,
        .point 1 old (.put false), .ret 1 old (.put false), .call 2 old,
        .point 2 old (.put false), .ret 2 old (.put false)], [0]) := by decide +kernel
  obtain ⟨s, hs, hseq⟩ := Option.map_eq_some_iff.mp hs
  obtain ⟨t, ht, hteq⟩ := Option.map_eq_some_iff.mp ht
  obtain ⟨hsh, hsi⟩ := Prod.mk.inj hseq
  obtain ⟨hth, hti⟩ := Prod.mk.inj hteq
  let puts (value : List UInt8) (clock : Lamport) : Prop :=
    (value = [7] ∧ clock = ⟨1, 1⟩) ∨ (value = [8, 9] ∧ clock = ⟨2, 1⟩)
  have hsp : ∀ value clock, s.Puts [1] value clock ↔ puts value clock := by
    intro value clock
    rw [State.Puts, hsh]
    simp [old, new, puts, exists_or]
  have htp : ∀ value clock, t.Puts [1] value clock ↔ puts value clock := by
    intro value clock
    rw [State.Puts, hth]
    simp [old, new, puts, exists_or, or_comm]
  refine ⟨s, t, Run.of_exec hs, Run.of_exec ht, hsi, hti, ?_⟩
  refine find_eq_of_samePuts (fun _ => AtomicSet.sorted_lawful _)
    (fun _ => AtomicSet.sorted_lawful _) maskCipher_lawful maskCipher_lawful (Run.of_exec hs)
    (Run.of_exec ht) (fun value clock => (hsp value clock).trans (htp value clock).symm) ?_ ?_ ?_
  · intro value value' clock hv hv'
    rw [hsp] at hv hv'
    rcases hv with ⟨rfl, rfl⟩ | ⟨rfl, rfl⟩ <;> rcases hv' with ⟨rfl, hc⟩ | ⟨rfl, hc⟩
    · rfl
    · exact absurd hc (by decide)
    · exact absurd hc (by decide)
    · rfl
  · intro i value clock hin
    rw [hsh] at hin ⊢
    simp only [old, new, List.mem_cons, History.Event.call.injEq, Op.put.injEq, reduceCtorEq,
      List.not_mem_nil, or_false, and_false] at hin
    rcases hin with ⟨rfl, -, rfl, rfl⟩ | ⟨rfl, -, rfl, rfl⟩
    · exact ⟨true, by decide⟩
    · exact ⟨true, by decide⟩
  · intro i value clock hin
    rw [hth] at hin ⊢
    simp only [old, new, List.mem_cons, History.Event.call.injEq, Op.put.injEq, reduceCtorEq,
      List.not_mem_nil, false_or, or_false] at hin
    rcases hin with ⟨rfl, -, rfl, rfl⟩ | ⟨rfl, -, rfl, rfl⟩ | ⟨rfl, -, rfl, rfl⟩
    · exact ⟨true, by decide⟩
    · exact ⟨false, by decide⟩
    · exact ⟨false, by decide⟩

/-! ## 2. The steps that are left -/

def Op.isPut : Op → Bool
  | .put _ _ _ => true
  | .get _ => false

/-- A put that expects another entry than its cell has: its next compare-exchange fails. -/
def Call.stale (m : Mem S) (c : Call) : Bool :=
  match c.op, c.pc with
  | .put _ _ _, .loop _ cell old => m.cells[cell]? != some old
  | _, _ => false

/-- The steps that a call takes from here, where `n` puts are made: its own, and for a put that has
not swapped yet one failure for each other put. -/
def Pc.left (n : Nat) : Pc → Nat
  | .add _ => n + 3
  | .load _ _ => n + 2
  | .loop _ _ _ => n + 1
  | .find => 3
  | .loadMeta _ => 2
  | .decrypt _ => 1
  | .exit _ => 1
  | .done _ => 0

def Call.left (n : Nat) (m : Mem S) (c : Call) : Nat := c.pc.left n + if c.stale m then 1 else 0

/-- The steps that are left to all calls. -/
def State.left (n : Nat) (s : State S) : Nat := (s.calls.map (Call.left n s.mem)).sum

def State.nPuts (s : State S) : Nat := s.calls.countP fun c => c.op.isPut

namespace Action

def isPut : Action → Bool
  | .put _ _ _ => true
  | _ => false

def isGet : Action → Bool
  | .get _ => true
  | _ => false

/-- A step of a call. -/
def isAdvance : Action → Bool
  | .advance _ _ => true
  | _ => false

/-- A step of a call in which a compare-exchange would fail for no reason. -/
def isSpurious : Action → Bool
  | .advance _ spurious => spurious
  | _ => false

/-- The steps that an action allows. -/
def brings (n : Nat) (a : Action) : Nat :=
  (if a.isSpurious then 1 else 0) + (if a.isPut then 1 else 0) * (n + 3) +
    (if a.isGet then 1 else 0) * 3

section

variable (n : Nat) (key value bytes : List UInt8) (clock : Lamport) (i p : Nat) (spurious : Bool)

@[simp] theorem brings_put : (Action.put key value clock).brings n = n + 3 := by
  simp [brings, isSpurious, isPut, isGet]

@[simp] theorem brings_get : (Action.get key).brings n = 3 := by
  simp [brings, isSpurious, isPut, isGet]

@[simp] theorem brings_advance :
    (Action.advance i spurious).brings n = if spurious then 1 else 0 := by
  cases spurious <;> simp [brings, isSpurious, isPut, isGet]

@[simp] theorem brings_overwrite : (Action.overwrite p bytes).brings n = 0 := by
  simp [brings, isSpurious, isPut, isGet]

end

end Action

theorem sum_brings (n : Nat) (as : List Action) :
    (as.map (Action.brings n)).sum =
      as.countP Action.isSpurious + as.countP Action.isPut * (n + 3) +
        as.countP Action.isGet * 3 := by
  unfold Action.brings
  simp only [List.sum_map_add, List.sum_map_mul_right, Tally.sum_map_ite]

section Left

variable (n : Nat) (m : Mem S) (op : Op)

@[simp] theorem Call.left_exit (r : Res) : Call.left n m ⟨op, .exit r⟩ = 1 := by cases op <;> rfl

@[simp] theorem Call.left_done (r : Res) : Call.left n m ⟨op, .done r⟩ = 0 := by cases op <;> rfl

@[simp] theorem Call.left_get (key : List UInt8) (pc : Pc) :
    Call.left n m ⟨.get key, pc⟩ = pc.left n := rfl

variable (key value : List UInt8) (clock : Lamport)

@[simp] theorem Call.left_add (new : Nat) :
    Call.left n m ⟨.put key value clock, .add new⟩ = n + 3 := rfl

@[simp] theorem Call.left_load (new cell : Nat) :
    Call.left n m ⟨.put key value clock, .load new cell⟩ = n + 2 := rfl

variable {n m key value clock} {new cell old : Nat}

theorem Call.left_loop_of_eq (h : m.cells[cell]? = some old) :
    Call.left n m ⟨.put key value clock, .loop new cell old⟩ = n + 1 := by
  simp [Call.left, Call.stale, Pc.left, h]

theorem Call.left_loop_of_ne (h : m.cells[cell]? ≠ some old) :
    Call.left n m ⟨.put key value clock, .loop new cell old⟩ = n + 2 := by
  simp [Call.left, Call.stale, Pc.left, h]

end Left

/-! ## 3. What a step does to them -/

theorem Call.left_le (n : Nat) (m m' : Mem S) (c : Call) :
    c.left n m' ≤ c.left n m + if c.op.isPut then 1 else 0 := by
  obtain ⟨op, pc⟩ := c
  cases op with
  | put key value clock => simp only [Call.left, Op.isPut, if_true]; split <;> omega
  | get key => simp [Call.left, Call.stale]

/-- Calls that do not share a cell that changes. -/
theorem Call.left_mono {m' : Mem S} (n : Nat) (c : Call)
    (h : ∀ {cell old : Nat}, m.cells[cell]? = some old → m'.cells[cell]? = some old) :
    c.left n m' ≤ c.left n m := by
  have hstale : c.stale m' = true → c.stale m = true := by
    unfold Call.stale
    split
    · simp only [bne_iff_ne, ne_eq]
      exact fun hne heq => hne (h heq)
    · exact id
  unfold Call.left
  split <;> split
  · exact Nat.le_refl _
  · exact absurd (hstale ‹_›) ‹_›
  · exact Nat.le_succ _
  · exact Nat.le_refl _

/-- A compare-exchange that fails not for no reason has a stale value. -/
theorem ne_of_reloaded {key value : List UInt8} {clock : Lamport} {new cell old : Nat}
    {e : Effect S} {cur : Nat}
    (h : m.next cipher false (.put key value clock) (.loop new cell old) = some e)
    (hpc : e.pc = .loop new cell cur) : m.cells[cell]? ≠ some old := by
  intro hcur
  simp only [Mem.next, Mem.casWeak, hcur, Option.bind_eq_bind, Option.bind_eq_some_iff] at h
  obtain ⟨oldMeta, -, h⟩ := h
  split at h
  · simp only [and_self, if_true, Option.bind_some, Option.some.injEq] at h
    subst h
    exact absurd hpc (by simp)
  · rw [Option.some.injEq] at h
    subst h
    exact absurd hpc (by simp)

/-- **A step of a call, in steps that are left.**  Either it takes one off and none is added to
another call, or it is the swap of a put, which adds one to each other put at most. -/
theorem left_of_next (hS : S.Lawful VarKeySizeNode.lt) {spurious : Bool} {op : Op} {pc : Pc}
    {e : Effect S} {n : Nat} (hn : op.isPut = true → 0 < n)
    (h : m.next cipher spurious op pc = some e) :
    ((∀ c, Call.left n e.mem c ≤ Call.left n m c) ∧
      Call.left n e.mem ⟨op, e.pc⟩ + 1 ≤
        Call.left n m ⟨op, pc⟩ + if spurious then 1 else 0) ∨
    op.isPut = true ∧ Call.left n e.mem ⟨op, e.pc⟩ + n ≤ Call.left n m ⟨op, pc⟩ := by
  cases next_cases hS h with
  | inserted =>
    refine Or.inl ⟨fun c => c.left_mono n getElem?_concat_left, ?_⟩
    simp only [Call.left_exit, Call.left_add]
    omega
  | found =>
    refine Or.inl ⟨fun c => c.left_mono n id, ?_⟩
    simp only [Call.left_load, Call.left_add]
    omega
  | loaded hold =>
    refine Or.inl ⟨fun c => Nat.le_refl _, ?_⟩
    rw [Call.left_loop_of_eq hold, Call.left_load]
    omega
  | swapped hmeta hlt hcur =>
    refine Or.inr ⟨rfl, ?_⟩
    rw [Call.left_exit, Call.left_loop_of_eq hcur]
    omega
  | reloaded hcur =>
    refine Or.inl ⟨fun c => Nat.le_refl _, ?_⟩
    rw [Call.left_loop_of_eq hcur]
    cases spurious with
    | true => rw [if_pos rfl]; simp only [Call.left, Pc.left]; omega
    | false => rw [Call.left_loop_of_ne (ne_of_reloaded h rfl)]; omega
  | refused =>
    refine Or.inl ⟨fun c => Nat.le_refl _, ?_⟩
    have := hn rfl
    rw [Call.left_exit]
    simp only [Call.left, Pc.left]
    omega
  | missing =>
    refine Or.inl ⟨fun c => Nat.le_refl _, ?_⟩
    simp only [Call.left_exit, Call.left_get, Pc.left]
    omega
  | located =>
    refine Or.inl ⟨fun c => Nat.le_refl _, ?_⟩
    simp only [Call.left_get, Pc.left]
    omega
  | read =>
    refine Or.inl ⟨fun c => Nat.le_refl _, ?_⟩
    simp only [Call.left_get, Pc.left]
    omega
  | opened =>
    refine Or.inl ⟨fun c => Nat.le_refl _, ?_⟩
    simp only [Call.left_get, Pc.left]
    omega
  | left =>
    refine Or.inl ⟨fun c => Nat.le_refl _, ?_⟩
    rw [Call.left_exit, Call.left_done]
    omega

/-! ## 4. Every schedule ends -/

theorem nPuts_of_step {a : Action} (hstep : step cipher s a = some s') :
    s'.nPuts = s.nPuts + if a.isPut then 1 else 0 := by
  rcases step_cases hstep with ⟨key, value, clock, rfl, rfl⟩ | ⟨key, rfl, rfl⟩ |
    ⟨i, spurious, c, e, rfl, hi, -, rfl⟩ | ⟨p, bytes, rfl, rfl⟩
  · simp [State.nPuts, State.invoke, Op.isPut, Action.isPut]
  · simp [State.nPuts, State.invoke, Op.isPut, Action.isPut]
  · obtain ⟨op, pc⟩ := c
    have hset := countP_set_add (fun c : Call => c.op.isPut) (y := ⟨op, e.pc⟩) hi
    simp only [State.nPuts, State.apply, Action.isPut, Bool.false_eq_true, if_false]
    exact Nat.add_right_cancel hset
  · rfl

/-- The puts of a schedule. -/
theorem nPuts_of_exec {as : List Action}
    (h : Run.exec (step cipher) (State.init S) as = some s) :
    s.nPuts ≤ as.countP Action.isPut := by
  have hle : s.nPuts + (as.map fun _ => 0).sum ≤
      (State.init S).nPuts + (as.map fun a => if a.isPut then 1 else 0).sum :=
    Run.exec_potential (I := fun _ => True) (f := State.nPuts)
      (fun x a y _ hxy => ⟨trivial, Nat.le_of_eq (nPuts_of_step hxy)⟩) h trivial
  have hinit : (State.init S).nPuts = 0 := rfl
  rw [Tally.sum_map_ite] at hle
  omega

/-- A step of call `i` takes a step off. -/
theorem left_of_apply (hS : S.Lawful VarKeySizeNode.lt) {i : Nat} {spurious : Bool} {op : Op}
    {pc : Pc} {e : Effect S} {n : Nat} (hn : s.nPuts ≤ n) (hi : s.calls[i]? = some ⟨op, pc⟩)
    (he : s.mem.next cipher spurious op pc = some e) :
    (s.apply i op e).left n + 1 ≤ s.left n + if spurious then 1 else 0 := by
  have hput : op.isPut = true → 0 < n := by
    intro hput
    have hpos : 0 < s.nPuts := List.countP_pos_iff.mpr ⟨_, List.mem_of_getElem? hi, hput⟩
    omega
  have hold := Tally.sum_map_eraseIdx (Call.left n s.mem) hi
  have hnew := Tally.sum_map_eraseIdx (Call.left n e.mem)
    (getElem?_set_self_of_some (x := ⟨op, e.pc⟩) hi)
  rw [List.eraseIdx_set_eq] at hnew
  have hcount := countP_eraseIdx_add (fun c : Call => c.op.isPut) hi
  simp only [State.left, State.apply, State.nPuts] at hn ⊢
  rcases left_of_next hS hput he with ⟨hothers, hself⟩ | ⟨hp, hself⟩
  · have hle : ((s.calls.eraseIdx i).map (Call.left n e.mem)).sum ≤
        ((s.calls.eraseIdx i).map (Call.left n s.mem)).sum :=
      List.sum_le_sum fun d _ => hothers d
    omega
  · have hle := Tally.sum_map_le_add (fun c : Call => c.op.isPut) (s.calls.eraseIdx i)
      (Call.left_le n s.mem e.mem)
    rw [if_pos hp] at hcount
    omega

theorem left_of_step (hS : S.Lawful VarKeySizeNode.lt) {a : Action} {n : Nat}
    (hn : s'.nPuts ≤ n) (hstep : step cipher s a = some s') :
    s'.left n + (if a.isAdvance then 1 else 0) ≤ s.left n + a.brings n := by
  have hle : s.nPuts ≤ n := by
    rw [nPuts_of_step hstep] at hn
    omega
  rcases step_cases hstep with ⟨key, value, clock, rfl, rfl⟩ | ⟨key, rfl, rfl⟩ |
    ⟨i, spurious, c, e, rfl, hi, he, rfl⟩ | ⟨p, bytes, rfl, rfl⟩
  · -- a new node changes no cell
    have hcells : Call.left n (s.mem.createNode cipher value clock).1 = Call.left n s.mem := rfl
    simp [State.left, State.invoke, Action.isAdvance, hcells]
  · simp [State.left, State.invoke, Action.isAdvance, Pc.left]
  · simp only [Action.isAdvance, if_true, Action.brings_advance]
    exact left_of_apply hS hle hi he
  · have hcells : Call.left n (s.overwrite p bytes).mem = Call.left n s.mem := rfl
    simp [State.left, State.overwrite, Action.isAdvance, ← hcells]

/-- What every run keeps, whatever the host writes. -/
structure Fits (s : State S) : Prop where
  mem : s.mem.Ok
  slab : s.mem.slab.length = s.mem.metas.length
  call : ∀ {i : Nat} {c}, s.calls[i]? = some c → s.mem.CallOk c.op c.pc

theorem Fits.init (hS : S.Lawful VarKeySizeNode.lt) : Fits (State.init S) where
  mem := by
    have hempty : ∀ n : VarKeySizeNode, n ∉ S.elems S.empty := by
      rw [hS.elems_empty]
      exact Set.notMem_empty
    exact ⟨fun n hn => absurd hn (hempty n), fun p hp => absurd hp List.not_mem_nil,
      fun n hn => absurd hn (hempty n), fun n hn => absurd hn (hempty n)⟩
  slab := rfl
  call := fun hc => absurd hc (by simp [State.init])

theorem Fits.step (h : Fits s) (hS : S.Lawful VarKeySizeNode.lt) {a : Action}
    (hstep : step cipher s a = some s') : Fits s' := by
  rcases step_cases hstep with ⟨key, value, clock, -, rfl⟩ | ⟨key, -, rfl⟩ |
    ⟨i, spurious, c, e, -, hi, he, rfl⟩ | ⟨p, bytes, -, rfl⟩
  · have hle := Mem.le_createNode cipher s.mem value clock
    refine ⟨⟨h.mem.cell, fun p hp => ?_, h.mem.cell_inj, h.mem.key_inj⟩, ?_, fun hc => ?_⟩
    · exact lt_trans (h.mem.ptr p hp) (by simp [State.invoke, Mem.createNode])
    · simp [State.invoke, Mem.createNode, h.slab]
    · rcases getElem?_concat hc with hc | ⟨rfl, rfl⟩
      · exact (h.call hc).mono hle
      · exact ⟨_, List.getElem?_concat_length, rfl, rfl⟩
  · refine ⟨h.mem, h.slab, fun hc => ?_⟩
    rcases getElem?_concat hc with hc | ⟨rfl, rfl⟩
    · exact h.call hc
    · trivial
  · have hnext := next_cases hS he
    refine ⟨hnext.ok h.mem (h.call hi), ?_, fun hd => ?_⟩
    · simp only [State.apply]
      rw [hnext.slab_eq, hnext.metas_eq, h.slab]
    · rcases getElem?_set_cases hd with ⟨rfl, rfl⟩ | ⟨-, hd⟩
      · exact hnext.callOk h.mem (h.call hi)
      · exact (h.call hd).mono (hnext.le (h.call hi))
  · have hle : s.mem.Le (s.overwrite p bytes).mem :=
      ⟨subset_rfl, id, fun hmd => ⟨_, hmd, le_refl _⟩⟩
    refine ⟨⟨h.mem.cell, h.mem.ptr, h.mem.cell_inj, h.mem.key_inj⟩, ?_,
      fun hc => (h.call hc).mono hle⟩
    simp [State.overwrite, h.slab]

/-- **No call is stuck.** -/
theorem next_isSome (hok : m.Ok) (hslab : m.slab.length = m.metas.length) {op : Op} {pc : Pc}
    (hcall : m.CallOk op pc) (hdone : ∀ r, pc ≠ .done r) (spurious : Bool) :
    ∃ e, m.next cipher spurious op pc = some e := by
  cases op with
  | put key value clock =>
    cases pc with
    | add new =>
      simp only [Mem.next]
      split <;> exact ⟨_, rfl⟩
    | load new cell =>
      obtain ⟨-, n, hn, -, rfl⟩ := hcall
      exact ⟨_, by rw [Mem.next, List.getElem?_eq_getElem (hok.cell n hn)]; rfl⟩
    | loop new cell old =>
      obtain ⟨-, -, mo, md, hmo, hmd, -⟩ := hcall
      obtain ⟨p, hp, -⟩ := Mem.metaOf_eq_some.mp hmd
      simp only [Mem.next, hmo, Mem.casWeak, hp, Option.bind_eq_bind, Option.bind_some]
      split
      · split <;> exact ⟨_, rfl⟩
      · exact ⟨_, rfl⟩
    | exit r => exact ⟨_, rfl⟩
    | done r => exact absurd rfl (hdone r)
    | find | loadMeta | decrypt => exact absurd hcall id
  | get key =>
    cases pc with
    | find =>
      simp only [Mem.next]
      split <;> exact ⟨_, rfl⟩
    | loadMeta cell =>
      obtain ⟨n, hn, -, rfl⟩ := hcall
      obtain ⟨md, hmd⟩ := hok.metaOf_isSome hn
      obtain ⟨p, hp, hmd'⟩ := Mem.metaOf_eq_some.mp hmd
      exact ⟨_, by rw [Mem.next, hp, Option.bind_eq_bind, Option.bind_some, hmd']; rfl⟩
    | decrypt p =>
      obtain ⟨md, hmd⟩ := hcall
      have hlt : p < m.slab.length := hslab ▸ (List.getElem?_eq_some_iff.mp hmd).1
      simp only [Mem.next, Mem.decryptNode, hmd, List.getElem?_eq_getElem hlt, Option.bind_eq_bind,
        Option.bind_some]
      split <;> exact ⟨_, rfl⟩
    | exit r => exact ⟨_, rfl⟩
    | done r => exact absurd rfl (hdone r)
    | add | load | loop => exact absurd hcall id

/-- **Puts and gets return.**  In every schedule, with a host that may overwrite the slab at any
time, the calls take at most `n + 3` steps for each of the `n` puts and 3 for each get, and one more
for each compare-exchange that fails for no reason.  A call that has not returned has a next
step. -/
theorem returns_of_schedule
    (hS : IsStrictWeakOrder VarKeySizeNode VarKeySizeNode.lt → S.Lawful VarKeySizeNode.lt)
    {as : List Action} (h : Run.exec (step cipher) (State.init S) as = some s) :
    as.countP Action.isAdvance ≤
        as.countP Action.isSpurious + as.countP Action.isPut * (as.countP Action.isPut + 3) +
          as.countP Action.isGet * 3 ∧
      ∀ i c, s.calls[i]? = some c → (∃ r, c.pc = .done r) ∨
        ∀ spurious, ∃ s', step cipher s (.advance i spurious) = some s' := by
  have hL := hS inferInstance
  have hnPuts : s.nPuts ≤ as.countP Action.isPut := nPuts_of_exec h
  constructor
  · have hle := Run.exec_potential_of_le (I := fun _ => True) (f := State.left _)
      (fun x a y hxy => (nPuts_of_step hxy).symm ▸ Nat.le_add_right _ _)
      (fun x a y _ hn hxy => ⟨trivial, left_of_step hL hn hxy⟩) h trivial hnPuts
    rw [Tally.sum_map_ite, sum_brings] at hle
    have hinit : (State.init S).left (as.countP Action.isPut) = 0 := rfl
    omega
  · intro i c hc
    have hfits : Fits s := Run.invariant
      (fun x y hx ⟨a, ha⟩ => hx.step hL ha) (Run.of_exec h) (Fits.init hL)
    by_cases hdone : ∃ r, c.pc = .done r
    · exact Or.inl hdone
    · refine Or.inr fun spurious => ?_
      have hdone' : ∀ r, c.pc ≠ .done r := fun r hr => hdone ⟨r, hr⟩
      obtain ⟨e, he⟩ : ∃ e, s.mem.next cipher spurious c.op c.pc = some e :=
        next_isSome hfits.mem hfits.slab (hfits.call hc) hdone' spurious
      exact ⟨s.apply i c.op e, by simp [step, hc, he]⟩

/-- Two puts race for a cell: one swaps it, the other one fails, fails again for no reason, and then
swaps it.  Meanwhile the host overwrites the first entry. -/
def racing : List Action :=
  [.put [1] [7] ⟨1, 1⟩, .advance 0 false, .advance 0 false,
    .put [1] [8] ⟨2, 1⟩, .put [1] [9] ⟨3, 1⟩, .advance 1 false, .advance 2 false, .advance 1 false,
    .advance 2 false, .advance 1 false, .overwrite 0 [0], .advance 2 false, .advance 2 true,
    .advance 2 false, .advance 1 false]

theorem returns_of_schedule_racing :
    ∃ s, Run.exec (step maskCipher) (State.init (AtomicSet.sorted VarKeySizeNode.lt)) racing =
        some s ∧
      s.installed = [0, 1, 2] ∧ 11 ≤ 1 + 3 * 6 + 0 * 3 ∧
      ∃ s', step maskCipher s (.advance 2 false) = some s' := by
  let run := Run.exec (step maskCipher) (State.init (AtomicSet.sorted VarKeySizeNode.lt)) racing
  have hsome : (run.map fun s => (s.installed, s.calls[2]?.map fun c => c.pc)) =
      some ([0, 1, 2], some (.exit (.put true))) := by decide +kernel
  obtain ⟨s, hs, heq⟩ := Option.map_eq_some_iff.mp hsome
  obtain ⟨hinst, hcall⟩ := Prod.mk.inj heq
  obtain ⟨c, hc, hpc⟩ := Option.map_eq_some_iff.mp hcall
  obtain ⟨hle, hnext⟩ := returns_of_schedule (fun _ => AtomicSet.sorted_lawful _) hs
  refine ⟨s, hs, hinst, hle, ?_⟩
  · rcases hnext 2 c hc with ⟨r, hr⟩ | hnext
    · exact absurd (hpc.symm.trans hr) (by simp)
    · exact hnext false

end Avocado.Memtable
