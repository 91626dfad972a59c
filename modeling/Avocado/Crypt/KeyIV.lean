/-
# Packet IVs (`encrypt_package.h`, `utility.h`)

`KeyIV` hands out the IVs of one AES-GCM key.  Its counter is 16 bytes that are read and advanced
by a 128-bit compare-exchange: a call increments the expected value into a scratch block `raw`
and swaps `raw` in, and on failure the expected value is reloaded and the swap is tried again.
Concurrent calls interleave at the compare-exchange; everything else a call does is on memory of
its own.

The increment stands in a plain block in front of the loop, `{ inc(raw, dst, 1); } while(...)`,
where a `do` is missing.  It runs once, on the bytes the destination held before the call, and is
not repeated after a reload.  So the counter after a call is the call's garbage plus one
(`Chain`), and the IVs are distinct exactly when the garbage is (`ivs_nodup_iff`).
-/
import Avocado.Lib.Run
import Mathlib.Algebra.Group.Nat.Defs
import Mathlib.Data.List.Nodup

namespace Avocado

/-! ## 1. The 16 bytes and their atomic exchange -/

/-- 16 bytes as `struct Val { uint64_t low; uint32_t high; }` lies over them; `pad` is the four
bytes behind the structure. -/
structure Block where
  low : BitVec 64
  high : BitVec 32
  pad : BitVec 32
  deriving DecidableEq, Repr

namespace Block

/-- The first `IvSize` bytes. -/
def iv (b : Block) : BitVec 96 := b.high ++ b.low

theorem iv_toNat (b : Block) : b.iv.toNat = b.high.toNat * 2 ^ 64 + b.low.toNat := by
  rw [iv, BitVec.toNat_append, ← Nat.shiftLeft_add_eq_or_of_lt b.low.isLt, Nat.shiftLeft_eq]

end Block

/-- `KeyIV::inc`: `add a, low; adc 0, high`.  The padding of `dst` is not written. -/
def inc (dst src : Block) (a : BitVec 64) : Block :=
  let carry : BitVec 32 := if src.low.uaddOverflow a then 1 else 0
  { dst with low := src.low + a, high := src.high + 0 + carry }

/-- **`inc` is the successor of the 96-bit IV**, whatever the destination held. -/
theorem iv_inc (dst src : Block) : (inc dst src 1).iv = src.iv + 1 := by
  apply BitVec.eq_of_toNat_eq
  have hlow := src.low.isLt
  have hhigh := src.high.isLt
  have h64 : (1 : BitVec 64).toNat = 1 := rfl
  have h32 : (1 : BitVec 32).toNat = 1 := rfl
  have h96 : (1 : BitVec 96).toNat = 1 := rfl
  have h0 : (0 : BitVec 32).toNat = 0 := rfl
  rw [Block.iv_toNat, BitVec.toNat_add, Block.iv_toNat]
  unfold inc
  by_cases hc : src.low.toNat + 1 < 2 ^ 64
  · have hcarry : src.low.uaddOverflow 1 = false := by
      simpa [BitVec.uaddOverflow] using Nat.lt_sub_of_add_lt hc
    simp only [hcarry, Bool.false_eq_true, if_false, BitVec.toNat_add, h64, h96, h0]
    omega
  · have hcarry : src.low.uaddOverflow 1 = true := by
      simpa [BitVec.uaddOverflow] using hc
    simp only [hcarry, if_true, BitVec.toNat_add, h64, h32, h96, h0]
    omega

/-- `compare_exchange_128(dst, src, old)`, one `lock cmpxchg16b`: the flag, and what `dst` and
`old` hold afterwards.  All 16 bytes are compared, the padding included. -/
def compareExchange128 (dst src old : Block) : Bool × Block × Block :=
  if dst = old then (true, src, old) else (false, dst, dst)

theorem compareExchange128_cases (dst src old : Block) :
    (dst = old ∧ compareExchange128 dst src old = (true, src, old)) ∨
    (dst ≠ old ∧ compareExchange128 dst src old = (false, dst, dst)) := by
  by_cases h : dst = old
  · exact Or.inl ⟨h, if_pos h⟩
  · exact Or.inr ⟨h, if_neg h⟩

/-! ## 2. Calls of `get_packet_iv` -/

/-- A call of `get_packet_iv`.  `buf` is the block that `get_packet_iv_aligned` works on: the
destination itself when that is aligned, else the local `iv`.  `found` is what `buf` held when the
call began. -/
structure Call where
  aligned : Bool
  dst : Block
  buf : Block
  raw : Block
  found : Block
  deriving DecidableEq, Repr

namespace Call

/-- The call up to its first compare-exchange.  `dst`, the local `iv` and the local `raw` are not
initialised: they hold any bytes. -/
def start (aligned : Bool) (dst iv raw : Block) : Call :=
  let buf := if aligned then dst else iv
  { aligned, dst, buf, raw := inc raw buf 1, found := buf }

/-- The call after a compare-exchange that reloaded the expected value. -/
def reload (c : Call) (old : Block) : Call := { c with buf := old }

/-- The end of the call: an aligned destination is `buf` itself, the other one gets a copy. -/
def ret (c : Call) : Call := { c with dst := c.buf }

end Call

/-! ## 3. Concurrent calls on one object -/

/-- A `KeyIV` object, the calls that are running on it, and those that returned, in the order of
their successful compare-exchanges.  The key is constant. -/
structure KeyIV where
  iv : Block
  calls : List Call
  returned : List Call
  deriving Repr

namespace KeyIV

/-- The constructor copies the first `IvSize` bytes of `iv`; the four behind them stay what the
memory held, or are zero in a debug build. -/
def create (iv : Block) : KeyIV := ⟨iv, [], []⟩

/-- A thread enters `get_packet_iv`, or the `i`-th running call does its next compare-exchange. -/
inductive Action
  | getPacketIv (aligned : Bool) (dst iv raw : Block)
  | compareExchange (i : Nat)
  deriving DecidableEq

def step (k : KeyIV) : Action → Option KeyIV
  | .getPacketIv aligned dst iv raw =>
    some { k with calls := k.calls ++ [Call.start aligned dst iv raw] }
  | .compareExchange i => do
    let c ← k.calls[i]?
    match compareExchange128 k.iv c.raw c.buf with
    | (true, iv, _) => some ⟨iv, k.calls.eraseIdx i, k.returned ++ [c.ret]⟩
    | (false, iv, old) => some { k with iv := iv, calls := k.calls.set i (c.reload old) }

/-- A run of the object: any calls, in any interleaving of their compare-exchanges. -/
abbrev Run : KeyIV → KeyIV → Prop := Relation.ReflTransGen (Run.Moves step)

/-- The IVs that the calls wrote. -/
def ivs (k : KeyIV) : List (BitVec 96) := k.returned.map fun c => c.dst.iv

variable {k k' : KeyIV} {iv : Block}

/-- **What a step can do**: a call begins; a compare-exchange fails and reloads the counter; or
it succeeds, the counter becomes the call's `raw`, and the call returns the counter's old
value. -/
theorem step_cases (h : Run.Moves step k k') :
    (∃ aligned dst loc raw,
      k' = { k with calls := k.calls ++ [Call.start aligned dst loc raw] }) ∨
    (∃ i c, c ∈ k.calls ∧ k' = { k with calls := k.calls.set i (c.reload k.iv) }) ∨
    (∃ i c, c ∈ k.calls ∧ c.buf = k.iv ∧
      k' = ⟨c.raw, k.calls.eraseIdx i, k.returned ++ [c.ret]⟩) := by
  obtain ⟨a, h⟩ := h
  cases a with
  | getPacketIv aligned dst loc raw =>
    simp only [step, Option.some.injEq] at h
    exact Or.inl ⟨aligned, dst, loc, raw, h.symm⟩
  | compareExchange i =>
    simp only [step, Option.bind_eq_bind, Option.bind_eq_some_iff] at h
    obtain ⟨c, hc, h⟩ := h
    have hmem : c ∈ k.calls := List.mem_of_getElem? hc
    rcases compareExchange128_cases k.iv c.raw c.buf with ⟨heq, hx⟩ | ⟨-, hx⟩
    · simp only [hx, Option.some.injEq] at h
      exact Or.inr (Or.inr ⟨i, c, hmem, heq.symm, h.symm⟩)
    · simp only [hx, Option.some.injEq] at h
      exact Or.inr (Or.inl ⟨i, c, hmem, h.symm⟩)

/-! ## 4. The counter is a chain of garbage -/

/-- **The invariant.**  A running call will install the successor of what it found; and the
values that the counter has had are the IVs handed out, in order, with the present one last. -/
structure Chain (iv : Block) (k : KeyIV) : Prop where
  raw : ∀ c ∈ k.calls, c.raw.iv = c.found.iv + 1
  values : k.ivs ++ [k.iv.iv] = iv.iv :: k.returned.map fun c => c.found.iv + 1

theorem Chain.create (iv : Block) : Chain iv (create iv) where
  raw := by
    intro c hc
    exact absurd hc List.not_mem_nil
  values := rfl

theorem Chain.step (hI : Chain iv k) (h : Run.Moves step k k') : Chain iv k' := by
  rcases step_cases h with ⟨aligned, dst, loc, raw, rfl⟩ | ⟨i, c, hc, rfl⟩ | ⟨i, c, hc, hbuf, rfl⟩
  · refine ⟨?_, hI.values⟩
    intro c hc
    rcases List.mem_append.mp hc with hc | hc
    · exact hI.raw c hc
    · rw [List.mem_singleton.mp hc]
      exact iv_inc _ _
  · refine ⟨?_, hI.values⟩
    intro d hd
    rcases List.mem_or_eq_of_mem_set hd with hd | rfl
    · exact hI.raw d hd
    · exact hI.raw c hc
  · constructor
    · intro d hd
      exact hI.raw d (List.mem_of_mem_eraseIdx hd)
    · have hivs : k.ivs ++ [c.buf.iv] = iv.iv :: k.returned.map fun c => c.found.iv + 1 := by
        rw [hbuf, hI.values]
      have hraw : c.raw.iv = c.found.iv + 1 := hI.raw c hc
      simp only [ivs, List.map_append, List.map_cons, List.map_nil, Call.ret]
      rw [hraw, ← List.cons_append, ← hivs]
      rfl

theorem chain_of_run (h : Run (create iv) k) : Chain iv k :=
  Run.invariant (I := Chain iv) (fun _ _ hI hs => hI.step hs) h (Chain.create iv)

/-- The IVs, in order: the initial one, then the successor of what the call before found. -/
theorem Chain.ivs_eq (hI : Chain iv k) (hne : k.returned ≠ []) :
    k.ivs = iv.iv :: k.returned.dropLast.map fun c => c.found.iv + 1 := by
  have h := congrArg List.dropLast hI.values
  rw [List.dropLast_concat] at h
  rw [h, List.dropLast_cons_of_ne_nil (by simpa using hne), List.map_dropLast]

/-- **When packet IVs are distinct.**  In every state that concurrent calls reach, the IVs that
were written differ pairwise if and only if the calls that returned, but for the last, found
pairwise different IVs in their buffers, and none of them found the predecessor of the initial
one. -/
theorem ivs_nodup_iff (h : Run (create iv) k) :
    k.ivs.Nodup ↔
      (k.returned.dropLast.map fun c => c.found.iv).Nodup ∧
        ∀ c ∈ k.returned.dropLast, c.found.iv + 1 ≠ iv.iv := by
  by_cases hne : k.returned = []
  · simp [ivs, hne]
  · rw [(chain_of_run h).ivs_eq hne, List.nodup_cons]
    have hmap : (k.returned.dropLast.map fun c => c.found.iv + 1) =
        (k.returned.dropLast.map fun c => c.found.iv).map (· + 1) := by
      rw [List.map_map]
      rfl
    have hinj : Function.Injective fun x : BitVec 96 => x + 1 := by
      intro x y hxy
      exact (BitVec.add_left_inj 1).mp hxy
    rw [hmap, List.nodup_map_iff hinj, and_comm]
    refine and_congr_right fun _ => ?_
    constructor
    · intro hnot c hc heq
      exact hnot (List.mem_map.mpr ⟨_, List.mem_map.mpr ⟨c, hc, rfl⟩, heq⟩)
    · rintro hall hmem
      obtain ⟨x, hx, heq⟩ := List.mem_map.mp hmem
      obtain ⟨c, hc, rfl⟩ := List.mem_map.mp hx
      exact hall c hc heq

/-! ## 5. Two runs -/

/-- A call alone on the object, with the same bytes in every buffer: its first compare-exchange
reloads, its second one succeeds. -/
def alone (b : Block) : List Action :=
  [.getPacketIv true b b b, .compareExchange 0, .compareExchange 0]

/-- Two calls that find zero: the object hands out its initial IV 5, then 1. -/
theorem ivs_nodup_iff_twoCalls :
    ∃ k, Run (create ⟨5, 0, 0⟩) k ∧ k.ivs = [5, 1] ∧ (k.ivs.Nodup ↔
      (k.returned.dropLast.map fun c => c.found.iv).Nodup ∧
        ∀ c ∈ k.returned.dropLast, c.found.iv + 1 ≠ (⟨5, 0, 0⟩ : Block).iv) := by
  have h : Run.exec step (create ⟨5, 0, 0⟩) (alone ⟨0, 0, 0⟩ ++ alone ⟨0, 0, 0⟩) =
      some ⟨⟨1, 0, 0⟩, [], [⟨true, ⟨5, 0, 0⟩, ⟨5, 0, 0⟩, ⟨1, 0, 0⟩, ⟨0, 0, 0⟩⟩,
        ⟨true, ⟨1, 0, 0⟩, ⟨1, 0, 0⟩, ⟨1, 0, 0⟩, ⟨0, 0, 0⟩⟩]⟩ := by rfl
  exact ⟨_, Run.of_exec h, by rfl, ivs_nodup_iff (Run.of_exec h)⟩

/-- **An IV repeats.**  Three calls one after the other, each with a zeroed aligned destination:
the second and the third write the same IV. -/
theorem not_ivs_nodup_zeroed :
    ∃ k, Run (create ⟨5, 0, 0⟩) k ∧ k.returned.length = 3 ∧ ¬ k.ivs.Nodup := by
  have h : Run.exec step (create ⟨5, 0, 0⟩)
        (alone ⟨0, 0, 0⟩ ++ alone ⟨0, 0, 0⟩ ++ alone ⟨0, 0, 0⟩) =
      some ⟨⟨1, 0, 0⟩, [], [⟨true, ⟨5, 0, 0⟩, ⟨5, 0, 0⟩, ⟨1, 0, 0⟩, ⟨0, 0, 0⟩⟩,
        ⟨true, ⟨1, 0, 0⟩, ⟨1, 0, 0⟩, ⟨1, 0, 0⟩, ⟨0, 0, 0⟩⟩,
        ⟨true, ⟨1, 0, 0⟩, ⟨1, 0, 0⟩, ⟨1, 0, 0⟩, ⟨0, 0, 0⟩⟩]⟩ := by rfl
  exact ⟨_, Run.of_exec h, rfl, by decide⟩

end KeyIV

end Avocado
