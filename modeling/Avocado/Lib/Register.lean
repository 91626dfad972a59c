/-
# Linearizability from timestamps

A history of calls and returns, with no points in it, is linearizable when some of its calls, all
that returned among them, can be put in one order that respects real time and is a run of the
sequential object (`Object.Linearizes`).

Two rules find such an order.  `exists_order` is for several objects whose operations each have an
order of their own: every operation takes effect at the last call among the operations that come
no later on its object, which is a moment between its own call and its return.
`linearizes_of_stamps` is for registers whose operations carry timestamps: the order of one
register is by timestamp, a write before the reads with its stamp, and reads of one stamp as they
were called.
-/
import Avocado.Lib.Linear
import Mathlib.Data.List.MinMax
import Mathlib.Data.Prod.Lex
import Mathlib.Order.Nat

namespace History

/-! ## 1. Histories of calls and returns -/

/-- Call `i` of an operation, or its return. -/
inductive Mark (ω ρ : Type*)
  | call (i : Nat) (o : ω)
  | ret (i : Nat) (r : ρ)
  deriving DecidableEq

variable {σ ω ρ : Type*}

/-- Call `i` returned before call `j` was made. -/
def Precedes (h : List (Mark ω ρ)) (i j : Nat) : Prop :=
  ∃ h₁ h₂ o r, h = h₁ ++ .call j o :: h₂ ∧ .ret i r ∈ h₁

/-- Calls are made once, and only what was called returns. -/
structure WellFormed (h : List (Mark ω ρ)) : Prop where
  once : ∀ h₁ h₂ i o, h = h₁ ++ .call i o :: h₂ → ∀ o', .call i o' ∉ h₁
  called : ∀ h₁ h₂ i r, h = h₁ ++ .ret i r :: h₂ → ∃ o, .call i o ∈ h₁

/-- The mark is the call `i`. -/
def Mark.isCall (i : Nat) : Mark ω ρ → Bool
  | .call j _ => j == i
  | .ret _ _ => false

/-- The place of call `i` in a history. -/
def start (h : List (Mark ω ρ)) (i : Nat) : Nat := h.findIdx (Mark.isCall i)

theorem WellFormed.start_eq {h h₁ h₂ : List (Mark ω ρ)} {i : Nat} {o : ω} (hw : WellFormed h)
    (he : h = h₁ ++ .call i o :: h₂) : start h i = h₁.length := by
  have hnone : ∀ m ∈ h₁, Mark.isCall i m = false := by
    intro m hm
    cases m with
    | ret => rfl
    | call j o' =>
      by_contra hcall
      simp only [Mark.isCall, Bool.not_eq_false, beq_iff_eq] at hcall
      exact hw.once h₁ h₂ i o he o' (hcall ▸ hm)
  rw [start, he, List.findIdx_append, List.findIdx_eq_length.mpr hnone, if_neg (lt_irrefl _)]
  simp [List.findIdx_cons, Mark.isCall]

/-- **Calls and returns are ordered as intervals**: what returned before a call returned before
every later call. -/
theorem WellFormed.precedes_of_start_le {h : List (Mark ω ρ)} {i j k : Nat} {o : ω}
    (hw : WellFormed h) (hp : Precedes h i j) (hk : .call k o ∈ h) (hle : start h j ≤ start h k) :
    Precedes h i k := by
  obtain ⟨h₁, h₂, oj, r, he, hret⟩ := hp
  obtain ⟨g₁, g₂, hg⟩ := List.append_of_mem hk
  rw [hw.start_eq he, hw.start_eq hg] at hle
  have hpre : h₁ <+: g₁ :=
    List.prefix_of_prefix_length_le ⟨_, he.symm⟩ ⟨_, hg.symm⟩ hle
  exact ⟨g₁, g₂, o, r, hg, hpre.subset hret⟩

theorem WellFormed.start_lt_of_precedes {h : List (Mark ω ρ)} {i j : Nat} (hw : WellFormed h)
    (hp : Precedes h i j) : start h i < start h j := by
  obtain ⟨h₁, h₂, oj, r, he, hret⟩ := hp
  obtain ⟨g₁, g₂, hg⟩ := List.append_of_mem hret
  obtain ⟨o, ho⟩ := hw.called g₁ (g₂ ++ .call j oj :: h₂) i r (by rw [he, hg]; simp)
  obtain ⟨f₁, f₂, hf⟩ := List.append_of_mem ho
  have hi : h = f₁ ++ .call i o :: (f₂ ++ .ret i r :: g₂ ++ .call j oj :: h₂) := by
    rw [he, hg, hf]
    simp
  rw [hw.start_eq he, hw.start_eq hi, hg, hf]
  simp only [List.length_append, List.length_cons]
  omega

/-- An operation with its call and its result. -/
abbrev Done (ω ρ : Type*) := Nat × ω × ρ

namespace Object

/-- The operations, one after the other, give their results. -/
def Legal (O : Object σ ω ρ) : σ → List (Done ω ρ) → Prop
  | _, [] => True
  | x, e :: l => (O.apply x e.2.1).2 = e.2.2 ∧ O.Legal (O.apply x e.2.1).1 l

/-- The state that the operations lead to. -/
def run (O : Object σ ω ρ) (x : σ) (l : List (Done ω ρ)) : σ :=
  l.foldl (fun x e => (O.apply x e.2.1).1) x

/-- A list is legal when every operation in it gives its result after those before it. -/
theorem legal_of_split {O : Object σ ω ρ} {x : σ} {l : List (Done ω ρ)}
    (h : ∀ p e q, l = p ++ e :: q → (O.apply (O.run x p) e.2.1).2 = e.2.2) : O.Legal x l := by
  induction l generalizing x with
  | nil => trivial
  | cons e l ih =>
    refine ⟨h [] e l rfl, ih fun p e' q he => ?_⟩
    exact h (e :: p) e' q (by rw [he]; rfl)

/-- **A linearization**: an order of operations that were called, all that returned among them,
which respects real time and is legal.  An operation that has not returned may take effect. -/
structure Linearizes (O : Object σ ω ρ) (h : List (Mark ω ρ)) (l : List (Done ω ρ)) : Prop where
  nodup : (l.map Prod.fst).Nodup
  called : ∀ e ∈ l, .call e.1 e.2.1 ∈ h
  returned : ∀ i r, .ret i r ∈ h → ∃ o, (i, o, r) ∈ l
  order : l.Pairwise fun a b => ¬ Precedes h b.1 a.1
  legal : O.Legal O.init l

end Object

/-! ## 2. One order for several objects -/

section Order

variable {ε κ α : Type*} [DecidableEq κ] [LinearOrder α]

/-- The operations of `l` that come no later than `e` on its object. -/
def upTo (obj : ε → κ) (rank : ε → α) (l : List ε) (e : ε) : List ε :=
  l.filter fun d => decide (obj d = obj e ∧ rank d ≤ rank e)

/-- The moment an operation takes effect: the last call among those of `upTo`. -/
def moment (obj : ε → κ) (rank : ε → α) (call : ε → Nat) (l : List ε) (e : ε) : Nat :=
  ((upTo obj rank l e).map call).foldr max ⊥

variable (obj : ε → κ) (rank : ε → α) (call : ε → Nat) {l : List ε} {a b : ε}

variable {obj rank} in
theorem mem_upTo {d e : ε} : d ∈ upTo obj rank l e ↔ d ∈ l ∧ obj d = obj e ∧ rank d ≤ rank e := by
  rw [upTo, List.mem_filter, decide_eq_true_eq]

variable {obj rank} in
theorem call_le_moment {d e : ε} (hd : d ∈ l) (ho : obj d = obj e) (hr : rank d ≤ rank e) :
    call d ≤ moment obj rank call l e :=
  List.le_max_of_le (List.mem_map_of_mem (mem_upTo.mpr ⟨hd, ho, hr⟩)) (le_refl _)

theorem exists_moment_eq {e : ε} (he : e ∈ l) :
    ∃ d ∈ l, obj d = obj e ∧ rank d ≤ rank e ∧ moment obj rank call l e = call d := by
  have hself : e ∈ upTo obj rank l e := mem_upTo.mpr ⟨he, rfl, le_refl _⟩
  have hne : (upTo obj rank l e).map call ≠ [] := by
    intro hnil
    rw [List.map_eq_nil_iff] at hnil
    exact absurd hself (by rw [hnil]; simp)
  obtain ⟨d, hd, heq⟩ := List.mem_map.mp
    (List.maximum_mem (List.foldr_max_of_ne_nil hne).symm)
  obtain ⟨hdl, ho, hr⟩ := mem_upTo.mp hd
  exact ⟨d, hdl, ho, hr, heq.symm⟩

theorem moment_mono (hb : a ∈ l) (ho : obj a = obj b) (hr : rank a ≤ rank b) :
    moment obj rank call l a ≤ moment obj rank call l b := by
  obtain ⟨d, hd, hod, hrd, heq⟩ := exists_moment_eq obj rank call hb
  rw [heq]
  exact call_le_moment call hd (hod.trans ho) (hrd.trans hr)

/-- **One order for all objects.**  `before` is an order of intervals, and on each object it agrees
with `rank`; then the operations have an order that agrees with `before` and with every `rank`. -/
theorem exists_order (before : ε → ε → Prop)
    (hinterval : ∀ a ∈ l, ∀ b ∈ l, ∀ c ∈ l, before a b → call b ≤ call c → before a c)
    (hobj : ∀ a ∈ l, ∀ b ∈ l, obj a = obj b → before a b → rank a < rank b) :
    ∃ l' : List ε, l'.Perm l ∧ l'.Pairwise (fun a b => ¬ before b a) ∧
      l'.Pairwise fun a b => obj a = obj b → rank a ≤ rank b := by
  set key : ε → ℕ ×ₗ α := fun e => toLex (moment obj rank call l e, rank e) with hkey
  have hperm : (l.mergeSort fun a b => decide (key a ≤ key b)).Perm l := List.mergeSort_perm _ _
  have hsorted : (l.mergeSort fun a b => decide (key a ≤ key b)).Pairwise fun a b =>
      key a ≤ key b := by
    have h := @List.pairwise_mergeSort _ (fun a b => decide (key a ≤ key b))
      (fun a b c hab hbc => by
        rw [decide_eq_true_eq] at hab hbc ⊢
        exact le_trans hab hbc)
      (fun a b => by simpa using le_total (key a) (key b)) l
    exact h.imp fun hab => by simpa using hab
  refine ⟨_, hperm, ?_, ?_⟩
  · refine hsorted.imp_of_mem fun {a b} ha hb hab hbefore => ?_
    have ha := hperm.mem_iff.mp ha
    have hb := hperm.mem_iff.mp hb
    -- the call at which `b` takes effect comes after that of `a`, so what `b` precedes it precedes
    obtain ⟨d, hd, ho, hr, heq⟩ := exists_moment_eq obj rank call hb
    have hle : call a ≤ call d := by
      rw [← heq]
      have hfst : (key a).1 ≤ (key b).1 := Prod.Lex.monotone_fst _ _ hab
      exact (call_le_moment call ha rfl (le_refl _)).trans hfst
    exact absurd (hobj b hb d hd ho.symm (hinterval b hb a ha d hd hbefore hle)) (not_lt.mpr hr)
  · refine hsorted.imp_of_mem fun {a b} ha hb hab ho => ?_
    have hb := hperm.mem_iff.mp hb
    by_contra hlt
    have hlt := not_le.mp hlt
    have hmono := moment_mono obj rank call hb ho.symm hlt.le
    rcases Prod.Lex.toLex_le_toLex.mp hab with hfst | ⟨-, hsnd⟩
    · exact absurd hmono (not_le.mpr hfst)
    · exact absurd hsnd (not_le.mpr hlt)

end Order

/-! ## 3. Registers with timestamps -/

/-- The operations on a map of registers. -/
inductive RegisterOp (κ β : Type*)
  | write (k : κ) (v : β)
  | read (k : κ)
  deriving DecidableEq

section Registers

variable {κ β τ : Type*}

def RegisterOp.key : RegisterOp κ β → κ
  | .write k _ => k
  | .read k => k

def RegisterOp.isRead : RegisterOp κ β → Bool
  | .write _ _ => false
  | .read _ => true

variable [DecidableEq κ]

/-- A map of registers, all empty at first.  A read gives the value; a write gives nothing. -/
def registers (κ β : Type*) [DecidableEq κ] :
    Object (κ → Option β) (RegisterOp κ β) (Option β) where
  init := fun _ => none
  apply x
    | .write k v => (Function.update x k (some v), none)
    | .read k => (x, x k)

/-- Operations that do not write a register leave it alone. -/
theorem run_of_no_write {x : κ → Option β} {p : List (Done (RegisterOp κ β) (Option β))} {k : κ}
    (h : ∀ e ∈ p, ∀ v, e.2.1 ≠ .write k v) : (registers κ β).run x p k = x k := by
  induction p generalizing x with
  | nil => rfl
  | cons e p ih =>
    have hrest := ih (x := ((registers κ β).apply x e.2.1).1)
      fun d hd => h d (List.mem_cons_of_mem _ hd)
    rw [Object.run, List.foldl_cons]
    refine hrest.trans ?_
    cases he : e.2.1 with
    | read => rfl
    | write k' v =>
      have hne : k ≠ k' := by
        rintro rfl
        exact h e List.mem_cons_self v he
      exact Function.update_of_ne hne _ _

/-- A register has the value of the last write to it. -/
theorem run_of_last_write {x : κ → Option β} {p q : List (Done (RegisterOp κ β) (Option β))}
    {w : Done (RegisterOp κ β) (Option β)} {k : κ} {v : β} (hw : w.2.1 = .write k v)
    (h : ∀ e ∈ q, ∀ v, e.2.1 ≠ .write k v) : (registers κ β).run x (p ++ w :: q) k = some v := by
  have hrun : (registers κ β).run x (p ++ w :: q)
      = (registers κ β).run ((registers κ β).apply ((registers κ β).run x p) w.2.1).1 q := by
    rw [Object.run, List.foldl_append, List.foldl_cons]
    rfl
  rw [hrun, run_of_no_write h, hw]
  exact Function.update_self _ _ _

variable [LinearOrder τ]

/-- Operations of a history with timestamps.  Timestamps do not go against real time, and a write
gets a greater one than everything that returned before its call.  Writes to one register have
different timestamps, and a read has that of the write it reads from. -/
structure Stamped (h : List (Mark (RegisterOp κ β) (Option β)))
    (l : List (Done (RegisterOp κ β) (Option β))) (time : Done (RegisterOp κ β) (Option β) → τ) :
    Prop where
  nodup : (l.map Prod.fst).Nodup
  called : ∀ e ∈ l, .call e.1 e.2.1 ∈ h
  returned : ∀ i r, .ret i r ∈ h → ∃ o, (i, o, r) ∈ l
  order : ∀ a ∈ l, ∀ b ∈ l, a.2.1.key = b.2.1.key → Precedes h a.1 b.1 →
    time a ≤ time b ∧ (b.2.1.isRead = false → time a < time b)
  distinct : ∀ a ∈ l, ∀ b ∈ l, ∀ k v v', a.2.1 = .write k v → b.2.1 = .write k v' →
    time a = time b → a.1 = b.1
  write : ∀ e ∈ l, ∀ k v, e.2.1 = .write k v → e.2.2 = none
  read : ∀ e ∈ l, ∀ k, e.2.1 = .read k →
    (e.2.2 = none ∧ ∀ w ∈ l, ∀ v, w.2.1 = .write k v → time e < time w) ∨
    ∃ w ∈ l, ∃ v, w.2.1 = .write k v ∧ e.2.2 = some v ∧ time w = time e

variable {h : List (Mark (RegisterOp κ β) (Option β))}
  {l : List (Done (RegisterOp κ β) (Option β))} {time : Done (RegisterOp κ β) (Option β) → τ}

/-- The order of one register: by timestamp, a write before the reads with its stamp, and reads of
one stamp as they were called. -/
def rank (h : List (Mark (RegisterOp κ β) (Option β))) (time : Done (RegisterOp κ β) (Option β) → τ)
    (e : Done (RegisterOp κ β) (Option β)) : τ ×ₗ Bool ×ₗ Nat :=
  toLex (time e, toLex (e.2.1.isRead, start h e.1))

omit [DecidableEq κ] in
theorem time_le_of_rank_le {a b : Done (RegisterOp κ β) (Option β)}
    (hab : rank h time a ≤ rank h time b) : time a ≤ time b :=
  Prod.Lex.monotone_fst _ _ hab

omit [DecidableEq κ] in
/-- A write comes before a read of no smaller timestamp. -/
theorem rank_lt_of_write {w e : Done (RegisterOp κ β) (Option β)} (hw : w.2.1.isRead = false)
    (he : e.2.1.isRead = true) (hle : time w ≤ time e) : rank h time w < rank h time e := by
  refine Prod.Lex.toLex_lt_toLex.mpr ?_
  rcases hle.lt_or_eq with hlt | heq
  · exact Or.inl hlt
  · refine Or.inr ⟨heq, Prod.Lex.toLex_lt_toLex.mpr (Or.inl ?_)⟩
    rw [hw, he]
    exact Bool.false_lt_true

omit [DecidableEq κ] in
theorem Stamped.rank_lt (hs : Stamped h l time) (hw : WellFormed h)
    {a b : Done (RegisterOp κ β) (Option β)} (ha : a ∈ l) (hb : b ∈ l)
    (hk : a.2.1.key = b.2.1.key) (hp : Precedes h a.1 b.1) : rank h time a < rank h time b := by
  obtain ⟨hle, hlt⟩ := hs.order a ha b hb hk hp
  cases hread : b.2.1.isRead with
  | false => exact Prod.Lex.toLex_lt_toLex.mpr (Or.inl (hlt hread))
  | true =>
    cases hread' : a.2.1.isRead with
    | false => exact rank_lt_of_write hread' hread hle
    | true =>
      rcases hle.lt_or_eq with hlt | heq
      · exact Prod.Lex.toLex_lt_toLex.mpr (Or.inl hlt)
      · refine Prod.Lex.toLex_lt_toLex.mpr (Or.inr ⟨heq, Prod.Lex.toLex_lt_toLex.mpr (Or.inr ?_)⟩)
        exact ⟨by rw [hread, hread'], hw.start_lt_of_precedes hp⟩

/-- A list in the order of every register is a run of the registers. -/
theorem Stamped.legal (hs : Stamped h l time) {l' : List (Done (RegisterOp κ β) (Option β))}
    (hperm : l'.Perm l)
    (horder : l'.Pairwise fun a b => a.2.1.key = b.2.1.key → rank h time a ≤ rank h time b) :
    (registers κ β).Legal (registers κ β).init l' := by
  refine Object.legal_of_split fun p e q heq => ?_
  have hin : ∀ d, d ∈ p ∨ d = e ∨ d ∈ q → d ∈ l := by
    intro d hd
    refine hperm.mem_iff.mp ?_
    rw [heq]
    simpa using hd
  have hel := hin e (Or.inr (Or.inl rfl))
  rw [heq, List.pairwise_append] at horder
  obtain ⟨hp, hq, hcross⟩ := horder
  rw [List.pairwise_cons] at hq
  cases hop : e.2.1 with
  | write k v => exact (hs.write e hel k v hop).symm
  | read k =>
    have hek : e.2.1.key = k := by rw [hop]; rfl
    have hwk : ∀ {w : Done (RegisterOp κ β) (Option β)} {v : β}, w.2.1 = .write k v →
        w.2.1.key = k := fun hw => by rw [hw]; rfl
    change (registers κ β).run _ p k = e.2.2
    rcases hs.read e hel k hop with ⟨hnone, hlate⟩ | ⟨w, hw, v, hwrite, hval, htime⟩
    · -- every write has a greater timestamp than the read, so none stands before it
      rw [hnone]
      refine run_of_no_write fun d hd v hwrite => ?_
      have hle := hcross d hd e List.mem_cons_self ((hwk hwrite).trans hek.symm)
      exact absurd (time_le_of_rank_le hle) (not_le.mpr (hlate d (hin d (Or.inl hd)) v hwrite))
    · have hlt : rank h time w < rank h time e :=
        rank_lt_of_write (by rw [hwrite]; rfl) (by rw [hop]; rfl) htime.le
      have hwp : w ∈ p := by
        have hmem := hperm.mem_iff.mpr hw
        rw [heq] at hmem
        rcases List.mem_append.mp hmem with hmem | hmem
        · exact hmem
        · rcases List.mem_cons.mp hmem with rfl | hmem
          · exact absurd hlt (lt_irrefl _)
          · exact absurd (hq.1 w hmem (hek.trans (hwk hwrite).symm)) (not_le.mpr hlt)
      obtain ⟨p₁, p₂, rfl⟩ := List.append_of_mem hwp
      rw [hval]
      refine run_of_last_write hwrite fun d hd v' hwrite' => ?_
      -- a write in between has the timestamp of `w`, so it is `w`
      have hkd := hwk hwrite'
      rw [List.pairwise_append, List.pairwise_cons] at hp
      have hwd := time_le_of_rank_le (hp.2.1.1 d hd ((hwk hwrite).trans hkd.symm))
      have hde := time_le_of_rank_le
        (hcross d (by simp [hd]) e List.mem_cons_self (hkd.trans hek.symm))
      have hid := hs.distinct w hw d (hin d (Or.inl (by simp [hd]))) k v v' hwrite hwrite'
        (le_antisymm hwd (hde.trans htime.ge))
      have hnd := (hperm.map Prod.fst).nodup_iff.mpr hs.nodup
      rw [heq] at hnd
      simp only [List.map_append, List.map_cons, List.append_assoc, List.cons_append,
        List.nodup_append, List.nodup_cons] at hnd
      exact hnd.2.1.1 (List.mem_append_left _ (hid ▸ List.mem_map_of_mem hd))

/-- **The timestamp rule.**  A history whose operations have timestamps is linearizable. -/
theorem linearizes_of_stamps (hw : WellFormed h) (hs : Stamped h l time) :
    ∃ l', l'.Perm l ∧ (registers κ β).Linearizes h l' := by
  obtain ⟨l', hperm, hreal, horder⟩ := exists_order (fun e => e.2.1.key) (rank h time)
    (fun e => start h e.1) (fun a b => Precedes h a.1 b.1)
    (fun a _ b _ c hc hp hle => hw.precedes_of_start_le hp (hs.called c hc) hle)
    (fun a ha b hb hk hp => hs.rank_lt hw ha hb hk hp)
  refine ⟨l', hperm, (hperm.map Prod.fst).nodup_iff.mpr hs.nodup, ?_, ?_, hreal,
    hs.legal hperm horder⟩
  · exact fun e he => hs.called e (hperm.mem_iff.mp he)
  · intro i r hret
    obtain ⟨o, ho⟩ := hs.returned i r hret
    exact ⟨o, hperm.mem_iff.mpr ho⟩

end Registers

end History
