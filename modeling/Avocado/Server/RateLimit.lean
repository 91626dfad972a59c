/-
# The rate limiter (`server.cpp`, `struct RateLimit`)

Every benchmark operation is preceded by `aquire`, and `put_ret`, `get_ret` and `skip_ret` call
`release`.  All threads share one counter, `request`.  `aquire` reads it, and tries to raise it by
one for as long as it reads less than `max_request`; when it reads `max_request` it runs the event
loop (`f`), in which releases happen, and starts again.

The loop is left in two ways, because the exchange succeeded or because the value it reloaded is
too large, and the test behind the loop looks at `r` only.  It can: an exchange that succeeds leaves
`r` alone, and was tried because `r` was small enough (`State.Inv.below`).

A call is a list of atomic steps, and the calls of any number of threads interleave.  What is
between two atomic operations is local to the call and belongs to the step in front of it.
-/
import Avocado.Lib.Lookup
import Avocado.Lib.Run
import Mathlib.Data.BitVec

namespace Avocado

/-! ## 1. The steps of a call -/

/-- `struct RateLimit`. -/
structure RateLimit where
  nAquire : BitVec 64 := 0
  nRelease : BitVec 64 := 0
  request : BitVec 64 := 0
  maxRequest : BitVec 64 := 1024
  deriving DecidableEq, Repr

namespace RateLimit

/-- `request.fetch_add(i)`. -/
def addRequest (l : RateLimit) (i : BitVec 64) : RateLimit := { l with request := l.request + i }

@[simp] theorem addRequest_request (l : RateLimit) (i : BitVec 64) :
    (l.addRequest i).request = l.request + i := rfl

@[simp] theorem addRequest_maxRequest (l : RateLimit) (i : BitVec 64) :
    (l.addRequest i).maxRequest = l.maxRequest := rfl

/-- Where a call of `aquire` is, or the `release` that follows it: in front of the increment of
`n_aquire`, the load, an exchange or the call of `f`; outside; in front of the increment of
`n_release`; or released. -/
inductive Pc
  | enter
  | load
  | exchange (r : BitVec 64)
  | retry
  | returned
  | releasing
  | released
  deriving DecidableEq, Repr

/-- `aquire` has returned. -/
def Pc.finished : Pc → Bool
  | .returned | .releasing | .released => true
  | _ => false

/-- `release` has lowered the counter. -/
def Pc.lowered : Pc → Bool
  | .releasing | .released => true
  | _ => false

/-- `compare_exchange_weak`: the flag, and what the object and the expected value are afterwards.
It may fail although they agree. -/
def compareExchangeWeak (obj expected desired : BitVec 64) (spurious : Bool) :
    Bool × BitVec 64 × BitVec 64 :=
  if obj = expected ∧ spurious = false then (true, desired, expected) else (false, obj, obj)

/-- `if (r < max_request) return;`, and `f()` otherwise. -/
def afterLoop (maxRequest r : BitVec 64) : Pc :=
  if r < maxRequest then .returned else .retry

/-- `while (r < max_request && ...`: the next exchange, or the end of the loop. -/
def loop (maxRequest r : BitVec 64) : Pc :=
  if r < maxRequest then .exchange r else afterLoop maxRequest r

/-- The next step of a call of `aquire`, and the end of `release`.  `f` is the event loop: what it
does to the counter are releases, and these are steps of their own. -/
def next (l : RateLimit) (spurious : Bool) : Pc → Option (RateLimit × Pc)
  | .enter => some ({ l with nAquire := l.nAquire + 1 }, .load)
  | .load => some (l, loop l.maxRequest l.request)
  | .exchange r =>
    match compareExchangeWeak l.request r (r + 1) spurious with
    | (true, request, r) => some ({ l with request }, afterLoop l.maxRequest r)
    | (false, request, r) => some ({ l with request }, loop l.maxRequest r)
  | .retry => some (l, .load)
  | .releasing => some ({ l with nRelease := l.nRelease + 1 }, .released)
  | .returned | .released => none

/-! ## 2. All calls -/

/-- A call.  `raised` records what its steps have added to `request`: no step reads it. -/
structure Call where
  pc : Pc
  raised : BitVec 64
  deriving DecidableEq, Repr

/-- The limiter with the calls that were made, of all threads. -/
structure State where
  limit : RateLimit
  calls : List Call
  deriving DecidableEq, Repr

/-- A call of `aquire`, its next step, or the `release` of the `i`-th one. -/
inductive Action
  | aquire
  | advance (i : Nat) (spurious : Bool)
  | release (i : Nat)
  deriving DecidableEq

namespace State

/-- The limiter before the first call. -/
def init (maxRequest : BitVec 64) : State := ⟨{ maxRequest }, []⟩

end State

/-- One step.  A release follows a finished `aquire` of its own. -/
def step (s : State) : Action → Option State
  | .aquire => some { s with calls := s.calls ++ [⟨.enter, 0⟩] }
  | .advance i spurious => do
    let c ← s.calls[i]?
    let (limit, pc) ← next s.limit spurious c.pc
    some ⟨limit, s.calls.set i ⟨pc, c.raised + (limit.request - s.limit.request)⟩⟩
  | .release i => do
    let c ← s.calls[i]?
    if c.pc = .returned then
      some ⟨s.limit.addRequest (-1), s.calls.set i { c with pc := .releasing }⟩
    else none

/-- A run: any calls, in any interleaving of their steps. -/
abbrev Run : State → State → Prop := Relation.ReflTransGen (Run.Moves step)

namespace State

/-- How many calls of `aquire` have returned. -/
def finished (s : State) : Nat := s.calls.countP fun c => c.pc.finished

/-- How many of them were released. -/
def releases (s : State) : Nat := s.calls.countP fun c => c.pc.lowered

/-- **The limiter bounds what is outstanding.**  The counter is the number of finished calls less
the number of releases, as a natural number, and at most `max_request`; a call that has returned has
raised it by one, and a call that has not returned has not raised it. -/
structure Bounded (maxRequest : BitVec 64) (s : State) : Prop where
  balance : s.limit.request.toNat + s.releases = s.finished
  le_max : s.limit.request.toNat ≤ maxRequest.toNat
  raised : ∀ c ∈ s.calls, c.raised = if c.pc.finished then 1 else 0

end State

/-! ## 3. What a step can do -/

variable {l l' : RateLimit} {spurious : Bool} {pc pc' : Pc} {s s' : State} {maxRequest : BitVec 64}

theorem toNat_succ {a b : BitVec 64} (h : a < b) : (a + 1).toNat = a.toNat + 1 := by
  have hle := b.isLt
  have hlt : a.toNat < b.toNat := h
  rw [BitVec.toNat_add, show (1 : BitVec 64).toNat = 1 from rfl]
  omega

theorem toNat_pred {a : BitVec 64} (h : 0 < a.toNat) : (a + (-1)).toNat = a.toNat - 1 := by
  have hlt := a.isLt
  rw [BitVec.toNat_add, show (-1 : BitVec 64).toNat = 2 ^ 64 - 1 from rfl]
  omega

theorem compareExchangeWeak_cases (obj expected desired : BitVec 64) (spurious : Bool) :
    (obj = expected ∧ compareExchangeWeak obj expected desired spurious =
      (true, desired, expected)) ∨
    compareExchangeWeak obj expected desired spurious = (false, obj, obj) := by
  unfold compareExchangeWeak
  split
  · rename_i h
    exact Or.inl ⟨h.1, rfl⟩
  · exact Or.inr rfl

/-- The loop is entered with a small value, or `f` is run. -/
theorem loop_cases (maxRequest r : BitVec 64) :
    (r < maxRequest ∧ loop maxRequest r = .exchange r) ∨ loop maxRequest r = .retry := by
  unfold loop afterLoop
  by_cases h : r < maxRequest
  · exact Or.inl ⟨h, if_pos h⟩
  · rw [if_neg h, if_neg h]
    exact Or.inr rfl

/-- **The steps of a call.**  It goes on, in front of an exchange with a value below the limit if in
front of one, and the counter stays; or its exchange succeeds, and it returns; or the `release`
ends. -/
theorem next_cases (h : next l spurious pc = some (l', pc'))
    (hlt : ∀ r, pc = .exchange r → r < l.maxRequest) :
    (pc.finished = false ∧ pc'.finished = false ∧ l'.request = l.request ∧
      l'.maxRequest = l.maxRequest ∧ ∀ r, pc' = .exchange r → r < l.maxRequest) ∨
    (pc = .exchange l.request ∧ l.request < l.maxRequest ∧ pc' = .returned ∧
      l' = { l with request := l.request + 1 }) ∨
    (pc = .releasing ∧ pc' = .released ∧ l' = { l with nRelease := l.nRelease + 1 }) := by
  have hloop : ∀ r, (loop l.maxRequest r).finished = false ∧
      ∀ r', loop l.maxRequest r = .exchange r' → r' < l.maxRequest := by
    intro r
    rcases loop_cases l.maxRequest r with ⟨hr, heq⟩ | heq
    · rw [heq]
      exact ⟨rfl, fun r' h' => by injection h' with h'; exact h' ▸ hr⟩
    · rw [heq]
      exact ⟨rfl, fun r' h' => absurd h' (by simp)⟩
  cases pc with
  | enter =>
    simp only [next, Option.some.injEq, Prod.mk.injEq] at h
    obtain ⟨rfl, rfl⟩ := h
    exact Or.inl ⟨rfl, rfl, rfl, rfl, fun r h' => absurd h' (by simp)⟩
  | load =>
    simp only [next, Option.some.injEq, Prod.mk.injEq] at h
    obtain ⟨rfl, rfl⟩ := h
    exact Or.inl ⟨rfl, (hloop _).1, rfl, rfl, (hloop _).2⟩
  | exchange r =>
    rcases compareExchangeWeak_cases l.request r (r + 1) spurious with ⟨rfl, hx⟩ | hx
    · have hr := hlt _ rfl
      simp only [next, hx, afterLoop, if_pos hr, Option.some.injEq, Prod.mk.injEq] at h
      obtain ⟨rfl, rfl⟩ := h
      exact Or.inr (Or.inl ⟨rfl, hr, rfl, rfl⟩)
    · simp only [next, hx, Option.some.injEq, Prod.mk.injEq] at h
      obtain ⟨rfl, rfl⟩ := h
      exact Or.inl ⟨rfl, (hloop _).1, rfl, rfl, (hloop _).2⟩
  | retry =>
    simp only [next, Option.some.injEq, Prod.mk.injEq] at h
    obtain ⟨rfl, rfl⟩ := h
    exact Or.inl ⟨rfl, rfl, rfl, rfl, fun r h' => absurd h' (by simp)⟩
  | releasing =>
    simp only [next, Option.some.injEq, Prod.mk.injEq] at h
    obtain ⟨rfl, rfl⟩ := h
    exact Or.inr (Or.inr ⟨rfl, rfl, rfl⟩)
  | returned => exact absurd h (by simp [next])
  | released => exact absurd h (by simp [next])

namespace State

/-! ## 4. The invariant -/

/-- **The invariant.**  The counter is the number of calls that are between their two ends, and a
call in front of an exchange expects a value below the limit. -/
structure Inv (maxRequest : BitVec 64) (s : State) : Prop where
  max : s.limit.maxRequest = maxRequest
  count : s.limit.request.toNat = s.calls.countP fun c => c.pc = .returned
  le_max : s.limit.request.toNat ≤ maxRequest.toNat
  raised : ∀ c ∈ s.calls, c.raised = if c.pc.finished then 1 else 0
  below : ∀ c ∈ s.calls, ∀ r, c.pc = .exchange r → r < maxRequest

theorem Inv.init (maxRequest : BitVec 64) : Inv maxRequest (init maxRequest) where
  max := rfl
  count := rfl
  le_max := Nat.zero_le _
  raised := fun _ hc => absurd hc List.not_mem_nil
  below := fun _ hc => absurd hc List.not_mem_nil

/-- The calls after one of them has taken a step: what held of all holds of all, if it holds of the
new one. -/
theorem forall_mem_set {P : Call → Prop} {calls : List Call} {i : Nat} {c : Call}
    (h : ∀ d ∈ calls, P d) (hc : P c) : ∀ d ∈ calls.set i c, P d := by
  intro d hd
  rcases List.mem_or_eq_of_mem_set hd with hd | rfl
  · exact h d hd
  · exact hc

theorem Inv.step (hI : Inv maxRequest s) (h : Run.Moves step s s') : Inv maxRequest s' := by
  obtain ⟨a, h⟩ := h
  cases a with
  | aquire =>
    simp only [RateLimit.step, Option.some.injEq] at h
    subst h
    refine ⟨hI.max, ?_, hI.le_max, ?_, ?_⟩
    · simp only [List.countP_append, List.countP_singleton]
      exact hI.count
    · intro c hc
      rcases List.mem_append.mp hc with hc | hc
      · exact hI.raised c hc
      · rw [List.mem_singleton.mp hc]
        rfl
    · intro c hc r hr
      rcases List.mem_append.mp hc with hc | hc
      · exact hI.below c hc r hr
      · rw [List.mem_singleton.mp hc] at hr
        exact absurd hr (by simp)
  | advance i spurious =>
    simp only [RateLimit.step, Option.bind_eq_bind, Option.bind_eq_some_iff, Option.some.injEq] at h
    obtain ⟨c, hc, ⟨limit, pc⟩, hnext, rfl⟩ := h
    have hmem : c ∈ s.calls := List.mem_of_getElem? hc
    have hraised := hI.raised c hmem
    have hcount := Lookup.countP_set_add (fun c : Call => decide (c.pc = .returned))
      (y := ⟨pc, c.raised + (limit.request - s.limit.request)⟩) hc
    rcases next_cases hnext (fun r hr => hI.max ▸ hI.below c hmem r hr) with
      ⟨hopen, hopen', hreq, hmax, hexp⟩ | ⟨hpc, hlt, rfl, rfl⟩ | ⟨hpc, rfl, rfl⟩
    · -- nothing happened to the counter, and the call is still inside
      have hne : ∀ {p : Pc}, p.finished = false → p ≠ .returned := by
        rintro p hp rfl
        exact absurd hp (by simp [Pc.finished])
      simp only [hne hopen, hne hopen', decide_false, Bool.false_eq_true, if_false,
        Nat.add_zero] at hcount
      refine ⟨hmax.trans hI.max, ?_, ?_, forall_mem_set hI.raised ?_, forall_mem_set hI.below ?_⟩
      · exact (congrArg BitVec.toNat hreq).trans (hI.count.trans hcount.symm)
      · exact (congrArg BitVec.toNat hreq).trans_le hI.le_max
      · rw [hraised, hreq, hopen, hopen']
        simp
      · exact fun r hr => hI.max ▸ hexp r hr
    · -- the exchange: one more call is outside, and the value it expected was below the limit
      have hreq := toNat_succ hlt
      simp only [hpc, decide_true, if_true] at hcount
      refine ⟨hI.max, ?_, ?_, forall_mem_set hI.raised ?_, forall_mem_set hI.below ?_⟩
      · simp only [hreq, hI.count]
        simpa using hcount.symm
      · have hlt' : s.limit.request.toNat < maxRequest.toNat := hI.max ▸ hlt
        simp only [hreq]
        omega
      · have hone : s.limit.request + 1 - s.limit.request = 1 := add_sub_cancel_left _ _
        rw [hraised, hpc, hone]
        simp [Pc.finished]
      · exact fun r hr => absurd hr (by simp)
    · simp only [hpc] at hcount
      refine ⟨hI.max, ?_, hI.le_max, forall_mem_set hI.raised ?_, forall_mem_set hI.below ?_⟩
      · simp only [hI.count]
        simpa using hcount.symm
      · rw [hraised, hpc]
        simp [Pc.finished]
      · exact fun r hr => absurd hr (by simp)
  | release i =>
    simp only [RateLimit.step, Option.bind_eq_bind, Option.bind_eq_some_iff] at h
    obtain ⟨c, hc, h⟩ := h
    split at h
    · rename_i hpc
      rw [Option.some.injEq] at h
      subst h
      have hmem : c ∈ s.calls := List.mem_of_getElem? hc
      have hcount := Lookup.countP_set_add (fun c : Call => decide (c.pc = .returned))
        (y := { c with pc := .releasing }) hc
      have hcount' : s.limit.request.toNat =
          (s.calls.set i { c with pc := .releasing }).countP (fun c => c.pc = .returned) + 1 := by
        rw [hI.count]
        simpa [hpc] using hcount.symm
      -- the call itself was counted, so the counter is not zero
      have hreq := toNat_pred (show 0 < s.limit.request.toNat by omega)
      have hle := hI.le_max
      constructor
      · exact (addRequest_maxRequest _ _).trans hI.max
      · simp only [addRequest_request, hreq]
        omega
      · simp only [addRequest_request, hreq]
        omega
      · refine forall_mem_set hI.raised ?_
        rw [hI.raised c hmem, hpc]
        simp [Pc.finished]
      · exact forall_mem_set hI.below fun r hr => absurd hr (by simp)
    · exact absurd h (by simp)

theorem inv_of_run (h : Run (init maxRequest) s) : Inv maxRequest s :=
  Run.invariant (I := Inv maxRequest) (fun _ _ hI hs => hI.step hs) h (Inv.init maxRequest)

/-- A finished call is outside, or it was released. -/
theorem finished_eq (calls : List Call) :
    calls.countP (fun c => c.pc = .returned) + calls.countP (fun c => c.pc.lowered) =
      calls.countP fun c => c.pc.finished := by
  have hpc : ∀ pc : Pc, (if decide (pc = .returned) then 1 else 0) +
      (if pc.lowered then 1 else 0) = if pc.finished then 1 else 0 := by
    intro pc
    cases pc <;> rfl
  induction calls with
  | nil => rfl
  | cons c calls ih =>
    have hc := hpc c.pc
    rw [List.countP_cons, List.countP_cons, List.countP_cons]
    omega

/-- **The rate limiter bounds outstanding requests**, in every state that any number of threads
reach. -/
theorem bounded_of_run (h : Run (init maxRequest) s) : Bounded maxRequest s := by
  have hI := inv_of_run h
  refine ⟨?_, hI.le_max, hI.raised⟩
  rw [hI.count]
  exact finished_eq s.calls

/-- With a limit of one: the first call has raised the counter and the second one waits, until the
event loop that it runs releases the first. -/
def oneByOne : List Action :=
  [.aquire, .aquire, .advance 0 false, .advance 1 false, .advance 0 false, .advance 1 false,
    .advance 0 true, .advance 0 false, .advance 1 false, .release 0, .advance 1 false,
    .advance 1 false, .advance 1 false]

theorem bounded_of_run_oneByOne :
    ∃ s, Run (init 1) s ∧ s.finished = 2 ∧ s.releases = 1 ∧ Bounded 1 s := by
  have h : Run.exec RateLimit.step (init 1) oneByOne =
      some ⟨⟨2, 0, 1, 1⟩, [⟨.releasing, 1⟩, ⟨.returned, 1⟩]⟩ := by rfl
  exact ⟨_, Run.of_exec h, rfl, rfl, bounded_of_run (Run.of_exec h)⟩

end State

end RateLimit

end Avocado
