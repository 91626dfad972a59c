/-
# The clock that `GetTime` chooses

`GetTime` takes the largest COUNT of its own store's clock and the responses' and adds one, in 32
bits; the machine id is its own.  Clocks are ordered by the packed 64-bit number, the count first,
so one more than the largest count is more than every clock that was read, whatever the machine
ids are: a `put` with it replaces each of these entries (`Dominates`).

The sum is not checked.  At the largest count it is zero, and the new clock is then below the one
it was made from (`dominates_iff`): the put is sent, acknowledged and reported, and no server
stores it.
-/
import Avocado.Abd.Responses
import Mathlib.Data.List.Induction

namespace Avocado

/-! ## 1. The clock -/

/-- The clock of `GetTime`; `localResp` is what `kv.get` returned. -/
def newClock (ctx : ReplicaContext) (mId : BitVec 32) (localResp : RetValue) : Option Lamport := do
  let max ← ctx.reduceResp maxCount localResp.lamport.count
  some ⟨max + 1, mId⟩

/-- `GetTime` puts with that clock. -/
theorem advance_getTimeGot {Srv : Type} [DecidableEq Srv] {cfg : Cfg Srv} {s s' : State Srv}
    {x : Srv} {th c : Nat} {loc : RetValue} (hpc : s.pc x th = .getTimeGot c loc)
    (h : step cfg s (.advance x th) = some s') :
    ∃ ctx clock, s.ctxs[c]? = some ctx ∧ newClock ctx.rep (cfg.mId x) loc = some clock ∧
      s'.pc x th = .getTimeChosen c clock := by
  simp only [step, State.advance, hpc, Option.bind_eq_bind, Option.bind_eq_some_iff,
    Option.some.injEq] at h
  obtain ⟨ctx, hc, max, hm, rfl⟩ := h
  refine ⟨ctx, ⟨max + 1, cfg.mId x⟩, hc, ?_, ?_⟩
  · simp only [newClock, hm, Option.bind_eq_bind, Option.bind_some]
  · rw [State.note_pc, State.setPc_pc_self]

/-- The clock is greater than the local one and every one that was reported, and a `put` with it
replaces the entry of every store that holds one of these. -/
structure Dominates (loc : Lamport) (ts : List Lamport) (clock : Lamport) : Prop where
  own : loc < clock
  reported : ∀ t ∈ ts, t < clock
  put : ∀ (kv : KVStore) (key value : List UInt8),
    kv.clockOf key = loc ∨ kv.clockOf key ∈ ts →
    kv.put key value clock = (kv.set key ⟨clock, value⟩, true)

theorem dominates_of_lt {loc clock : Lamport} {ts : List Lamport} (hown : loc < clock)
    (hts : ∀ t ∈ ts, t < clock) : Dominates loc ts clock where
  own := hown
  reported := hts
  put kv key value h := by
    have hlt : kv.clockOf key < clock := by
      rcases h with h | h
      · rw [h]; exact hown
      · exact hts _ h
    rcases KVStore.put_cases kv key value clock with ⟨-, -, hle⟩ | ⟨hput, -⟩
    · exact absurd hle (not_le.mpr hlt)
    · exact hput

/-! ## 2. The largest count -/

/-- The count that `GetTime` has after some responses is the local one or a reported one, and at
least each of these. -/
structure Largest (init : BitVec 32) (ts : List Lamport) (max : BitVec 32) : Prop where
  init_le : init ≤ max
  le : ∀ t ∈ ts, t.count ≤ max
  mem : max = init ∨ ∃ t ∈ ts, t.count = max

theorem Largest.next {init max : BitVec 32} {ts : List Lamport} (h : Largest init ts max)
    (t : Lamport) : Largest init (ts ++ [t]) (if max ≥ t.count then max else t.count) := by
  have hle : max ≤ (if max ≥ t.count then max else t.count) ∧
      t.count ≤ (if max ≥ t.count then max else t.count) := by
    split
    · rename_i hge
      exact ⟨BitVec.le_refl _, hge⟩
    · rename_i hlt
      exact ⟨BitVec.le_of_lt (BitVec.not_le.mp hlt), BitVec.le_refl _⟩
  constructor
  · exact BitVec.le_trans h.init_le hle.1
  · intro t' ht'
    rcases List.mem_append.mp ht' with ht' | ht'
    · exact BitVec.le_trans (h.le t' ht') hle.1
    · rw [List.mem_singleton.mp ht']
      exact hle.2
  · split
    · rcases h.mem with rfl | ⟨t', ht', heq⟩
      · exact Or.inl rfl
      · exact Or.inr ⟨t', List.mem_append_left _ ht', heq⟩
    · exact Or.inr ⟨t, by simp, rfl⟩

/-- One response. -/
def maxOf (prior : BitVec 32) (t : Lamport) : Option (BitVec 32) :=
  some (if prior ≥ t.count then prior else t.count)

/-- **`GetTime` finds the largest count**, in any order of the responses. -/
theorem exists_largest {ctx : ReplicaContext} {ts : List Lamport} (hs : ctx.Sized)
    (hform : List.Forall₂ StampFor ctx.cache ts) (init : BitVec 32) :
    ∃ max, ctx.reduceResp maxCount init = some max ∧ Largest init ts max := by
  have hfold : ctx.reduceResp maxCount init = ts.foldlM maxOf init :=
    ReplicaContext.reduceResp_eq (f := maxCount) (g := maxOf) hs hform
      (fun _ _ _ _ _ ht hmsg => maxCount_image (hmsg.trans (image_append_junk ht))) init
  rw [hfold]
  clear hform hfold
  induction ts using List.reverseRecOn with
  | nil => exact ⟨init, rfl, BitVec.le_refl _, by simp, Or.inl rfl⟩
  | append_singleton ts t ih =>
    obtain ⟨max, hmax, hl⟩ := ih
    rw [List.foldlM_append, hmax]
    exact ⟨_, rfl, hl.next t⟩

/-! ## 3. When the clock dominates -/

/-- **A put's clock dominates what it read** if and only if no count that it read is the largest
32-bit number. -/
theorem dominates_iff (mId : BitVec 32) (loc : RetValue) {ctx : ReplicaContext}
    {resps : List MsgBuffer} {ts : List Lamport} {n : Nat} {data : Option Node}
    (hform : List.Forall₂ StampFor resps ts)
    (hctx : ReplicaContext.received { nMsgs := n, data } resps = some ctx) :
    (∃ clock, newClock ctx mId loc = some clock ∧ Dominates loc.lamport ts clock) ↔
      ∀ t ∈ loc.lamport :: ts, t.count.toNat < 2 ^ 32 - 1 := by
  obtain ⟨hs, hcache, -, -⟩ :=
    ReplicaContext.received_spec (ReplicaContext.sized_new n data) hctx
  rw [List.nil_append] at hcache
  obtain ⟨max, hmax, hl⟩ := exists_largest hs (hcache ▸ hform) loc.lamport.count
  have hclock : newClock ctx mId loc = some ⟨max + 1, mId⟩ := by
    simp only [newClock, hmax, Option.bind_eq_bind, Option.bind_some]
  obtain ⟨top, htop, hcount⟩ : ∃ t ∈ loc.lamport :: ts, t.count = max := by
    rcases hl.mem with heq | ⟨t, ht, heq⟩
    · exact ⟨_, List.mem_cons_self, heq.symm⟩
    · exact ⟨t, List.mem_cons_of_mem _ ht, heq⟩
  have hle : ∀ t ∈ loc.lamport :: ts, t.count ≤ max := by
    intro t ht
    rcases List.mem_cons.mp ht with rfl | ht
    · exact hl.init_le
    · exact hl.le t ht
  have hsum : (max + 1).toNat = (max.toNat + 1) % 2 ^ 32 := BitVec.toNat_add _ _
  constructor
  · rintro ⟨clock, hc, hd⟩ t ht
    rw [hclock, Option.some.injEq] at hc
    subst hc
    have htn : t.count.toNat ≤ max.toNat := hle t ht
    have hless : top < ⟨max + 1, mId⟩ := by
      rcases List.mem_cons.mp htop with rfl | htop
      · exact hd.own
      · exact hd.reported top htop
    have hnat : top.count.toNat ≤ (max + 1).toNat := Lamport.count_le_of_le hless.le
    -- the largest count is not all ones, where the sum would be zero
    rw [hcount, hsum] at hnat
    have hlt := max.isLt
    omega
  · intro hall
    have hbound : max.toNat < 2 ^ 32 - 1 := hcount ▸ hall top htop
    have hless : ∀ t ∈ loc.lamport :: ts, t < ⟨max + 1, mId⟩ := by
      intro t ht
      have htn : t.count.toNat ≤ max.toNat := hle t ht
      exact Lamport.lt_of_count_lt (by rw [hsum]; omega)
    exact ⟨_, hclock, dominates_of_lt (hless _ List.mem_cons_self)
      fun t ht => hless t (List.mem_cons_of_mem _ ht)⟩

/-- The response of a server that has the key with count 7. -/
def stampSeven : MsgBuffer := ⟨true, ⟨image (Lamport.toBytes ⟨7, 1⟩) [] [], by decide⟩⟩

theorem dominates_iff_seven :
    (∃ clock, newClock ⟨2, 1, true, [stampSeven], 24, none⟩ 4 .absent = some clock ∧
      Dominates Lamport.min [⟨7, 1⟩] clock) ↔
      ∀ t ∈ [Lamport.min, ⟨7, 1⟩], t.count.toNat < 2 ^ 32 - 1 :=
  @dominates_iff 4 .absent _ _ _ 2 none
    (List.Forall₂.cons (show StampFor stampSeven ⟨7, 1⟩ from rfl) .nil) (by decide)

/-- **A wrapped clock.**  The coordinator holds an entry with the largest count, another server has
the key with count 7: the put gets count 0, and the coordinator's store does not take it. -/
theorem newClock_wraps :
    let loc : Lamport := ⟨0xFFFFFFFF, 1⟩
    let kv : KVStore := KVStore.empty.set [1] ⟨loc, [5]⟩
    ReplicaContext.received { nMsgs := 2 } [stampSeven] =
        some ⟨2, 1, true, [stampSeven], 24, none⟩ ∧
      newClock ⟨2, 1, true, [stampSeven], 24, none⟩ 4 (kv.get [1]) = some ⟨0, 4⟩ ∧
      ¬ loc < ⟨0, 4⟩ ∧ ¬ (⟨7, 1⟩ : Lamport) < ⟨0, 4⟩ ∧ kv.put [1] [9] ⟨0, 4⟩ = (kv, false) := by
  refine ⟨by decide, by decide, by decide, by decide, rfl⟩

end Avocado
