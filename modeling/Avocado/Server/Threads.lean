/-
# The threads of the benchmark (`server.cpp`)

`main` generates one trace for all threads, and `create_threads` gives each of them a range of it:
`step_size = n_cmds / n_thread` commands, one range behind the other.  A thread runs the commands of
its range in order.

The ranges lie behind each other inside the trace, so no command is run twice.  They end at
`n_thread * step_size`, and the commands behind that, the remainder of the division, are run by
nobody.  The `end > max ? max : end` at the end looks like the place where the last range should be
fitted to the trace, but with a step that is rounded down no range reaches beyond it
(`threadRange_eq`), and nothing makes the last one longer.

A position in the trace is its index.
-/
import Avocado.Server.Zipf
import Mathlib.Data.List.Forall2

namespace Avocado.Threads

open Zipf (TraceCmd)

/-! ## 1. The code -/

/-- `struct Args`, as far as the threads need it. -/
structure Args where
  nThread : BitVec 64
  nCmds : BitVec 64
  deriving DecidableEq, Repr

/-- `begin` and `end` of a thread. -/
structure Range where
  first : ℕ
  last : ℕ
  deriving DecidableEq, Repr

/-- The `i`-th pass of the loop in `create_threads`; `main` has set `trace_size` to `n_cmds`. -/
def threadRange (args : Args) (i : BitVec 64) : Range :=
  let traceSize := args.nCmds
  let stepSize := args.nCmds / args.nThread
  let max := traceSize.toNat
  let first := (i * stepSize).toNat
  let last := first + stepSize.toNat
  ⟨first, if last > max then max else last⟩

/-- `create_threads`: the ranges of the threads.  The division by zero traps. -/
def createThreads (args : Args) : Option (List Range) :=
  if args.nThread = 0 then none
  else some ((List.range args.nThread.toNat).map fun i => threadRange args (BitVec.ofNat 64 i))

/-- How `run_event_loop` ends: with a read behind the trace, or with the commands that it has
issued. -/
inductive Outcome
  | outOfBounds
  | issued (cmds : List TraceCmd)
  deriving DecidableEq, Repr

/-- One pass of `while (begin != end)`, at the position `s.1`.  `s.2` has the commands so far, the
last one first. -/
def pass (traces : List TraceCmd) (last : ℕ) (s : ℕ × List TraceCmd) :
    (ℕ × List TraceCmd) ⊕ Outcome :=
  if s.1 = last then .inr (.issued s.2.reverse)
  else
    match traces[s.1]? with
    | none => .inr .outOfBounds
    | some trace => .inl (s.1 + 1, trace :: s.2)

/-- `run_event_loop` issues these commands.  It asserts that there are any. -/
def Issues (traces : List TraceCmd) (r : Range) (cmds : List TraceCmd) : Prop :=
  r.first ≠ r.last ∧ Loop.Returns (pass traces r.last) (r.first, []) (.issued cmds)

/-! ## 2. The share of a thread -/

variable {args : Args} {ranges : List Range} {traces : List TraceCmd} {r : Range} {i k : ℕ}

/-- `step_size`. -/
def Args.step (args : Args) : ℕ := args.nCmds.toNat / args.nThread.toNat

theorem mul_step_le (args : Args) : args.nThread.toNat * args.step ≤ args.nCmds.toNat :=
  Nat.mul_div_le _ _

theorem share_le (h : i < args.nThread.toNat) : (i + 1) * args.step ≤ args.nCmds.toNat :=
  (Nat.mul_le_mul_right _ h).trans (mul_step_le args)

/-- **The end is never clamped**, and nothing wraps. -/
theorem threadRange_eq (h : i < args.nThread.toNat) :
    threadRange args (BitVec.ofNat 64 i) = ⟨i * args.step, (i + 1) * args.step⟩ := by
  have hle := share_le h
  have hsucc : (i + 1) * args.step = i * args.step + args.step := Nat.succ_mul _ _
  have hlt := args.nCmds.isLt
  have hlt' := args.nThread.isLt
  have hi : i % 2 ^ 64 = i := Nat.mod_eq_of_lt (by omega)
  have hfirst : (BitVec.ofNat 64 i * (args.nCmds / args.nThread)).toNat = i * args.step := by
    rw [BitVec.toNat_mul, BitVec.toNat_udiv, BitVec.toNat_ofNat, hi]
    exact Nat.mod_eq_of_lt (show i * args.step < 2 ^ 64 by omega)
  have hstep : (args.nCmds / args.nThread).toNat = args.step := BitVec.toNat_udiv
  simp only [threadRange, hfirst, hstep]
  rw [if_neg (by omega), hsucc]

theorem createThreads_eq (h : 0 < args.nThread.toNat) :
    createThreads args = some ((List.range args.nThread.toNat).map fun i =>
      ⟨i * args.step, (i + 1) * args.step⟩) := by
  have hne : args.nThread ≠ 0 := by
    rintro h0
    rw [h0] at h
    exact absurd h (Nat.lt_irrefl 0)
  rw [createThreads, if_neg hne, Option.some.injEq]
  exact List.map_congr_left fun i hi => threadRange_eq (List.mem_range.mp hi)

/-- The loop from a position on, with `n` commands to go. -/
theorem returns_from (n pos : ℕ) (cmds : List TraceCmd) (h : pos + n ≤ traces.length) :
    Loop.Returns (pass traces (pos + n)) (pos, cmds)
      (.issued (cmds.reverse ++ (traces.drop pos).take n)) := by
  induction n generalizing pos cmds with
  | zero =>
    refine Loop.returns_of_inr ?_
    simp only [pass, Nat.add_zero, if_true, List.take_zero, List.append_nil]
  | succ n ih =>
    have hlt : pos < traces.length := by omega
    have hpass : pass traces (pos + (n + 1)) (pos, cmds) = .inl (pos + 1, traces[pos] :: cmds) := by
      have hne : pos ≠ pos + (n + 1) := by omega
      simp only [pass, if_neg hne, List.getElem?_eq_getElem hlt]
    have hshare : cmds.reverse ++ (traces.drop pos).take (n + 1) =
        (traces[pos] :: cmds).reverse ++ (traces.drop (pos + 1)).take n := by
      rw [List.drop_eq_getElem_cons hlt, List.take_succ_cons, List.reverse_cons, List.append_assoc]
      rfl
    have hnext := ih (pos + 1) (traces[pos] :: cmds) (by omega)
    rw [show pos + 1 + n = pos + (n + 1) by omega] at hnext
    exact hshare ▸ Loop.returns_of_inl hpass hnext

/-- **A thread runs its range**, the whole of it and in order. -/
theorem issues_range (hlt : r.first < r.last) (hlen : r.last ≤ traces.length) :
    Issues traces r ((traces.drop r.first).take (r.last - r.first)) := by
  have hadd : r.first + (r.last - r.first) = r.last := Nat.add_sub_cancel' hlt.le
  have hret := returns_from (r.last - r.first) r.first [] (hadd.symm ▸ hlen)
  rw [hadd, List.reverse_nil, List.nil_append] at hret
  exact ⟨hlt.ne, hret⟩

/-- The shares of the first `n` threads are the first commands. -/
theorem flatten_shares (traces : List TraceCmd) (step n : ℕ) :
    ((List.range n).map fun i => (traces.drop (i * step)).take step).flatten =
      traces.take (n * step) := by
  induction n with
  | zero => simp
  | succ n ih =>
    rw [List.range_succ, List.map_append, List.flatten_append, ih, Nat.succ_mul, List.take_add]
    simp

/-! ## 3. When the trace is shared out -/

/-- The range has the `k`-th command. -/
def Range.Has (r : Range) (k : ℕ) : Prop := r.first ≤ k ∧ k < r.last

/-- **The trace is shared out.**  No command is in two ranges, every range lies in the trace, none
is empty if there are as many commands as threads, and every command is in a range; and so what the
threads issue is the trace, each command once. -/
structure SharedOut (args : Args) (ranges : List Range) : Prop where
  disjoint : ranges.Pairwise fun r r' => ∀ k, ¬ (r.Has k ∧ r'.Has k)
  inside : ∀ r ∈ ranges, r.first ≤ r.last ∧ r.last ≤ args.nCmds.toNat
  nonempty : args.nThread ≤ args.nCmds → ∀ r ∈ ranges, r.first ≠ r.last
  complete : ∀ k < args.nCmds.toNat, ∃ r ∈ ranges, r.Has k
  issued : ∀ traces : List TraceCmd, traces.length = args.nCmds.toNat →
    ∃ cmds, List.Forall₂ (Issues traces) ranges cmds ∧ cmds.flatten = traces

theorem share_lt (hstep : 0 < args.step) (i : ℕ) : i * args.step < (i + 1) * args.step :=
  (Nat.mul_lt_mul_right hstep).mpr (Nat.lt_succ_self i)

/-- **What the threads issue**: the commands in front of the remainder. -/
theorem exists_issued (hstep : 0 < args.step) (hlen : traces.length = args.nCmds.toNat) :
    ∃ cmds, List.Forall₂ (Issues traces) ((List.range args.nThread.toNat).map fun i =>
        ⟨i * args.step, (i + 1) * args.step⟩) cmds ∧
      cmds.flatten = traces.take (args.nThread.toNat * args.step) := by
  refine ⟨_, ?_, flatten_shares traces args.step args.nThread.toNat⟩
  rw [List.forall₂_map_left_iff, List.forall₂_map_right_iff, List.forall₂_same]
  intro i hi
  have hshare : Issues traces ⟨i * args.step, (i + 1) * args.step⟩
      ((traces.drop (i * args.step)).take ((i + 1) * args.step - i * args.step)) :=
    issues_range (share_lt hstep i) (hlen ▸ share_le (List.mem_range.mp hi))
  have hsub : (i + 1) * args.step - i * args.step = args.step := by
    rw [Nat.succ_mul, Nat.add_sub_cancel_left]
  rwa [hsub] at hshare

/-- **When the trace is shared out**: when the number of threads divides the number of commands. -/
theorem sharedOut_iff (h : 0 < args.nThread.toNat) (hcmds : 0 < args.nCmds.toNat) :
    (∃ ranges, createThreads args = some ranges ∧ SharedOut args ranges) ↔
      args.nThread.toNat ∣ args.nCmds.toNat := by
  rw [createThreads_eq h]
  constructor
  · rintro ⟨ranges, hranges, hS⟩
    rw [Option.some.injEq] at hranges
    subst hranges
    refine Dvd.intro args.step (Nat.le_antisymm (mul_step_le args) ?_)
    by_contra hlt
    -- the first command of the remainder
    obtain ⟨r, hr, hfirst, hlast⟩ := hS.complete _ (Nat.lt_of_not_le hlt)
    obtain ⟨i, hi, rfl⟩ := List.mem_map.mp hr
    have hle := Nat.mul_le_mul_right args.step (List.mem_range.mp hi)
    exact absurd hlast (Nat.not_lt.mpr hle)
  · intro hdvd
    have hall : args.nThread.toNat * args.step = args.nCmds.toNat := Nat.mul_div_cancel' hdvd
    have hstep : 0 < args.step := Nat.div_pos (Nat.le_of_dvd hcmds hdvd) h
    refine ⟨_, rfl, ?_, ?_, ?_, ?_, ?_⟩
    · rw [List.pairwise_map]
      refine List.pairwise_lt_range.imp ?_
      rintro i j hij k ⟨⟨-, hk⟩, hk', -⟩
      have hle : (i + 1) * args.step ≤ j * args.step := Nat.mul_le_mul_right _ hij
      exact absurd hk (Nat.not_lt.mpr (hle.trans hk'))
    · intro r hr
      obtain ⟨i, hi, rfl⟩ := List.mem_map.mp hr
      exact ⟨(share_lt hstep i).le, share_le (List.mem_range.mp hi)⟩
    · intro _ r hr
      obtain ⟨i, -, rfl⟩ := List.mem_map.mp hr
      exact (share_lt hstep i).ne
    · intro k hk
      have hlt : k / args.step < args.nThread.toNat := by
        rw [Nat.div_lt_iff_lt_mul hstep, hall]
        exact hk
      exact ⟨_, List.mem_map_of_mem (List.mem_range.mpr hlt), Nat.div_mul_le_self _ _,
        (Nat.div_lt_iff_lt_mul hstep).mp (Nat.lt_succ_self _)⟩
    · intro traces hlen
      obtain ⟨cmds, hissued, hflat⟩ := exists_issued hstep hlen
      exact ⟨cmds, hissued, by rw [hflat, hall, ← hlen, List.take_length]⟩

/-- Six commands for three threads. -/
theorem sharedOut_iff_three :
    (∃ ranges, createThreads ⟨3, 6⟩ = some ranges ∧ SharedOut ⟨3, 6⟩ ranges) ↔ 3 ∣ 6 :=
  sharedOut_iff (by decide) (by decide)

/-- **The remainder is lost**: of five commands, two threads run four. -/
theorem not_sharedOut_five :
    createThreads ⟨2, 5⟩ = some [⟨0, 2⟩, ⟨2, 4⟩] ∧
      ¬ ∃ ranges, createThreads ⟨2, 5⟩ = some ranges ∧ SharedOut ⟨2, 5⟩ ranges := by
  have hranges : createThreads ⟨2, 5⟩ = some [⟨0, 2⟩, ⟨2, 4⟩] := by decide
  refine ⟨hranges, ?_⟩
  rintro ⟨ranges, h, hS⟩
  rw [hranges, Option.some.injEq] at h
  subst h
  obtain ⟨r, hr, hfirst, hlast⟩ := hS.complete 4 (by decide)
  simp only [List.mem_cons, List.not_mem_nil, or_false] at hr
  rcases hr with rfl | rfl
  · exact absurd hlast (by decide)
  · exact absurd hlast (by decide)

end Avocado.Threads
