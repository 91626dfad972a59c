/-
# The loop of `SplitCipherSsl::update_` (`encrypt_openssl.h`)

`update_` hands a text to `crypt_update` and counts in `dst_pos` how much of it was taken; it goes
on until that is all of it, or a call takes nothing or fails.  Nothing adds to `dst_pos`.  A call
that succeeds on a text that is not empty is followed by the same call again, without end
(`not_returns`), and where the loop does end it returns zero.

What is left are the empty text, and the text that `crypt_update` refuses at the first call
(`streams_iff`).  No caller sees any of this today, because no `SplitCipherSsl` is ever valid
(`HashSsl.lean`).  The `update` that is modelled there in one step is this loop
(`hash_update_iff`).

`crypt_update` is a parameter.  It takes its length as an `int`, and a length that is negative as an
`int` gives it no text (`none`).
-/
import Avocado.Crypt.HashSsl
import Avocado.Lib.Loop

namespace Avocado

open Bytes

/-! ## 1. The code -/

/-- `struct SplitCipherSsl`, with a context. -/
structure SplitCipherSsl (Ctx : Type) where
  valid : Bool
  final : Bool
  pState : Ctx

namespace SplitCipherSsl

variable {Ctx : Type}

/-- What a call of `crypt_update` does: its value, `*outl`, what it writes at `out`, and the context
afterwards. -/
structure UpdateRes (Ctx : Type) where
  ret : Bool
  outl : Int
  out : List UInt8
  ctx : Ctx

/-- `crypt_update`. -/
abbrev CryptUpdate (Ctx : Type) := Ctx → Option (List UInt8) → UpdateRes Ctx

/-- A call that was made: `dst_pos`, the bytes it was given and those it wrote there, and whether it
succeeded. -/
structure Call where
  offset : BitVec 64
  input : List UInt8
  out : List UInt8
  ok : Bool
  deriving DecidableEq, Repr

/-- The variables of the loop, with `dst`.  `calls` records the calls: nothing reads it. -/
structure State (Ctx : Type) where
  pState : Ctx
  valid : Bool
  len : Int
  dstPos : BitVec 64
  dst : List UInt8
  calls : List Call

/-- How the loop ends: with an access outside the arrays, or with `return dst_pos`. -/
inductive Outcome (Ctx : Type)
  | outOfBounds
  | returned (ret : BitVec 64) (s : State Ctx)

/-- The text of a call with the length `size - dst_pos`; `none` when it is not all in `src`. -/
def inputAt (src : List UInt8) (size dstPos : BitVec 64) : Option (Option (List UInt8)) :=
  match evpLen (size - dstPos).toNat with
  | none => some none
  | some inl => (load src dstPos.toNat inl).map some

/-- The variables after a call. -/
def State.called (s : State Ctx) (input : Option (List UInt8)) (r : UpdateRes Ctx)
    (dst : List UInt8) : State Ctx :=
  { s with
    pState := r.ctx
    valid := r.ret
    len := r.outl
    dst := dst
    calls := s.calls ++ [⟨s.dstPos, input.getD [], r.out, r.ret⟩] }

/-- One pass of the loop. -/
def pass (cryptUpdate : CryptUpdate Ctx) (src : List UInt8) (size : BitVec 64)
    (s : State Ctx) : State Ctx ⊕ Outcome Ctx :=
  match inputAt src size s.dstPos with
  | none => .inr .outOfBounds
  | some input =>
    let r := cryptUpdate s.pState input
    match store s.dst s.dstPos.toNat r.out with
    | none => .inr .outOfBounds
    | some dst =>
      let s := s.called input r dst
      if s.len ≠ 0 ∧ s.dstPos < size ∧ s.valid = true then .inl s else .inr (.returned s.dstPos s)

/-- The loop before its first pass. -/
def init (c : SplitCipherSsl Ctx) (dst : List UInt8) : State Ctx :=
  ⟨c.pState, c.valid, 0, 0, dst, []⟩

@[simp] theorem init_pState (c : SplitCipherSsl Ctx) (dst : List UInt8) :
    (c.init dst).pState = c.pState := rfl

/-- `update` ends in this way.  The text is `n` elements of a type of `sizeofSrc` bytes. -/
def Updates (cryptUpdate : CryptUpdate Ctx) (c : SplitCipherSsl Ctx)
    (dst src : List UInt8) (n sizeofSrc : BitVec 64) (o : Outcome Ctx) : Prop :=
  if c.valid && !c.final then
    Loop.Returns (pass cryptUpdate src (n * sizeofSrc)) (c.init dst) o
  else o = .returned 0 (c.init dst)

/-! ## 2. What a call and the loop should do -/

/-- `crypt_update` takes all the text it is given, and says so in `*outl`. -/
def Consumes (cryptUpdate : CryptUpdate Ctx) : Prop :=
  ∀ ctx input, (cryptUpdate ctx (some input)).outl = input.length ∧
    (cryptUpdate ctx (some input)).out.length = input.length

/-- The places in the text that a call is given. -/
def Call.places (c : Call) : List Nat := List.range' c.offset.toNat c.input.length

/-- **The text is streamed**: `update` ends; its calls are given each byte once and in order; what a
call writes is found at the offset of what it was given; and if no call fails all bytes are
counted. -/
def Streams (cryptUpdate : CryptUpdate Ctx) (c : SplitCipherSsl Ctx)
    (dst src : List UInt8) (n sizeofSrc : BitVec 64) : Prop :=
  ∃ ret s, c.Updates cryptUpdate dst src n sizeofSrc (.returned ret s) ∧
    s.calls.flatMap Call.places = List.range src.length ∧
    (∀ call ∈ s.calls, load src call.offset.toNat call.input.length = some call.input ∧
      call.out.length = call.input.length ∧
      load s.dst call.offset.toNat call.out.length = some call.out) ∧
    ((∀ call ∈ s.calls, call.ok = true) → ret.toNat = src.length)

/-! ## 3. What the loop does -/

variable {cryptUpdate : CryptUpdate Ctx} {c : SplitCipherSsl Ctx} {dst src : List UInt8}
  {size n sizeofSrc : BitVec 64} {s s' : State Ctx} {o : Outcome Ctx} {k : Nat}

theorem pass_eq {input : Option (List UInt8)} {dst : List UInt8}
    (hin : inputAt src size s.dstPos = some input)
    (hst : store s.dst s.dstPos.toNat (cryptUpdate s.pState input).out = some dst) :
    pass cryptUpdate src size s =
      if (cryptUpdate s.pState input).outl ≠ 0 ∧ s.dstPos < size ∧
          (cryptUpdate s.pState input).ret = true then
        .inl (s.called input (cryptUpdate s.pState input) dst)
      else .inr (.returned s.dstPos (s.called input (cryptUpdate s.pState input) dst)) := by
  simp only [pass, hin, hst]
  rfl

/-- **A pass** makes one call, and goes on or returns. -/
theorem pass_cases (cryptUpdate : CryptUpdate Ctx) (src : List UInt8) (size : BitVec 64)
    (s : State Ctx) :
    pass cryptUpdate src size s = .inr .outOfBounds ∨
    ∃ input dst, inputAt src size s.dstPos = some input ∧
      pass cryptUpdate src size s =
        if (cryptUpdate s.pState input).outl ≠ 0 ∧ s.dstPos < size ∧
            (cryptUpdate s.pState input).ret = true then
          .inl (s.called input (cryptUpdate s.pState input) dst)
        else .inr (.returned s.dstPos (s.called input (cryptUpdate s.pState input) dst)) := by
  cases hin : inputAt src size s.dstPos with
  | none =>
    left
    simp only [pass, hin]
  | some input =>
    cases hst : store s.dst s.dstPos.toNat (cryptUpdate s.pState input).out with
    | none =>
      left
      simp only [pass, hin, hst]
    | some dst => exact Or.inr ⟨input, dst, rfl, pass_eq hin hst⟩

/-- The text of every call: `dst_pos` is zero, so it is the one of the first. -/
theorem inputAt_zero (h : size.toNat ≤ src.length) :
    inputAt src size 0 = some ((evpLen size.toNat).map fun inl => src.take inl) := by
  have hsub : size - 0 = size := BitVec.sub_zero size
  unfold inputAt
  rw [hsub]
  cases hlen : evpLen size.toNat with
  | none => rfl
  | some inl =>
    have hle := (evpLen_eq_some hlen).2
    have hload : load src 0 inl = some (src.take inl) := by
      rw [load, if_pos (by omega), List.drop_zero]
    exact congrArg (Option.map some) hload

/-- The length of every call. -/
def callLen (size : BitVec 64) : Nat := (evpLen size.toNat).getD 0

theorem length_input (h : size.toNat ≤ src.length) :
    (((evpLen size.toNat).map fun inl => src.take inl).getD []).length = callLen size := by
  unfold callLen
  cases hlen : evpLen size.toNat with
  | none => rfl
  | some inl =>
    have hle := (evpLen_eq_some hlen).2
    exact List.length_take_of_le (by omega)

theorem evpLen_eq_callLen (h : 0 < callLen size) : evpLen size.toNat = some (callLen size) := by
  unfold callLen at h ⊢
  cases hlen : evpLen size.toNat with
  | none =>
    rw [hlen] at h
    exact absurd h (Nat.lt_irrefl 0)
  | some inl => rfl

/-- At the start of the text, with at least `m` calls, and all of them there. -/
structure Stuck (size : BitVec 64) (m : Nat) (s : State Ctx) : Prop where
  pos : s.dstPos = 0
  le : m ≤ s.calls.length
  calls : ∀ call ∈ s.calls, call.offset = 0 ∧ call.input.length = callLen size

theorem Stuck.called {m : Nat} (hS : Stuck size m s) (hsize : size.toNat ≤ src.length)
    {input : Option (List UInt8)} (hin : inputAt src size s.dstPos = some input)
    (r : UpdateRes Ctx) (dst : List UInt8) : Stuck size (m + 1) (s.called input r dst) := by
  rw [hS.pos, inputAt_zero hsize, Option.some.injEq] at hin
  refine ⟨hS.pos, ?_, ?_⟩
  · simp only [State.called, List.length_append, List.length_singleton]
    exact Nat.succ_le_succ hS.le
  · intro call hcall
    rcases List.mem_append.mp hcall with hcall | hcall
    · exact hS.calls call hcall
    · rw [List.mem_singleton.mp hcall]
      exact ⟨hS.pos, hin ▸ length_input hsize⟩

/-- **A pass that goes on** has made one more of these calls. -/
theorem Stuck.pass {m : Nat} (hS : Stuck size m s) (hsize : size.toNat ≤ src.length)
    (hp : pass cryptUpdate src size s = .inl s') : Stuck size (m + 1) s' := by
  rcases pass_cases cryptUpdate src size s with hfault | ⟨input, dst, hin, hpass⟩
  · rw [hfault] at hp
    exact absurd hp (by simp)
  · rw [hpass] at hp
    split at hp
    · exact Sum.inl.inj hp ▸ hS.called hsize hin (cryptUpdate s.pState input) dst
    · exact absurd hp (by simp)

/-- **The loop is stuck**: it returns zero, and all its calls were at the start of the text. -/
theorem Stuck.returns {m : Nat} {ret : BitVec 64} (hS : Stuck size m s)
    (hsize : size.toNat ≤ src.length)
    (h : Loop.Returns (SplitCipherSsl.pass cryptUpdate src size) s (.returned ret s')) :
    ret = 0 ∧ Stuck size (m + 1) s' := by
  refine h.invariant (I := Stuck size m) (Q := fun o => ∀ ret s', o = .returned ret s' →
    ret = 0 ∧ Stuck size (m + 1) s') hS ?_ ?_ ret s' rfl
  · intro t t' hT hp
    have hnext := hT.pass hsize hp
    exact ⟨hnext.pos, Nat.le_of_succ_le hnext.le, hnext.calls⟩
  · rintro t o hT hp ret s' rfl
    rcases pass_cases cryptUpdate src size t with hfault | ⟨input, dst, hin, hpass⟩
    · rw [hfault] at hp
      exact absurd hp (by simp)
    · have hnext := hT.called hsize hin (cryptUpdate t.pState input) dst
      rw [hpass] at hp
      split at hp
      · exact absurd hp (by simp)
      · injection Sum.inr.inj hp with hret hs
        exact ⟨hret ▸ hT.pos, hs ▸ hnext⟩

theorem stuck_init (c : SplitCipherSsl Ctx) (dst : List UInt8) : Stuck size 0 (c.init dst) :=
  ⟨rfl, Nat.zero_le _, fun _ h => absurd h List.not_mem_nil⟩

/-- The call at the start of the text, if its length is positive as an `int` or zero. -/
theorem first_call (hconsumes : Consumes cryptUpdate) (hlen : evpLen size.toNat = some k)
    (hsize : size.toNat ≤ src.length) (hdst : size.toNat ≤ s.dst.length) (hpos : s.dstPos = 0) :
    ∃ dst, store s.dst 0 (cryptUpdate s.pState (some (src.take k))).out = some dst ∧
      pass cryptUpdate src size s =
        if k ≠ 0 ∧ 0 < size ∧ (cryptUpdate s.pState (some (src.take k))).ret = true then
          .inl (s.called (some (src.take k)) (cryptUpdate s.pState (some (src.take k))) dst)
        else .inr (.returned 0
          (s.called (some (src.take k)) (cryptUpdate s.pState (some (src.take k))) dst)) := by
  have hle := (evpLen_eq_some hlen).2
  have htake : (src.take k).length = k := List.length_take_of_le (by omega)
  obtain ⟨houtl, hout⟩ := hconsumes s.pState (src.take k)
  rw [htake] at houtl hout
  have hin : inputAt src size s.dstPos = some (some (src.take k)) := by
    rw [hpos, inputAt_zero hsize, hlen, Option.map_some]
  have hst : ∃ dst, store s.dst 0 (cryptUpdate s.pState (some (src.take k))).out = some dst :=
    ⟨_, by rw [store, if_pos (by omega)]⟩
  obtain ⟨dst, hst⟩ := hst
  have hzero : (k : Int) ≠ 0 ↔ k ≠ 0 := by omega
  refine ⟨dst, hst, ?_⟩
  rw [pass_eq hin (by rw [hpos]; exact hst), houtl, hpos]
  simp only [hzero]

/-- **Without end.**  A `crypt_update` that never fails is called again and again. -/
theorem not_returns (hconsumes : Consumes cryptUpdate)
    (hok : ∀ ctx input, (cryptUpdate ctx (some input)).ret = true) (hpos : 0 < callLen size)
    (hsize : size.toNat ≤ src.length) (hdst : size.toNat ≤ dst.length) :
    ¬ Loop.Returns (pass cryptUpdate src size) (c.init dst) o := by
  have hlen := evpLen_eq_callLen hpos
  have hsize0 : (0 : BitVec 64) < size := Nat.lt_of_lt_of_le hpos (evpLen_eq_some hlen).2
  refine Loop.not_returns (I := fun t => t.dstPos = 0 ∧ t.dst.length = dst.length) ⟨rfl, rfl⟩ ?_
  rintro t ⟨ht, htdst⟩
  obtain ⟨d, hd, hpass⟩ := first_call hconsumes hlen hsize (htdst ▸ hdst) ht
  rw [if_pos ⟨Nat.ne_of_gt hpos, hsize0, hok _ _⟩] at hpass
  exact ⟨_, hpass, ht, (store_length hd).trans htdst⟩

/-- Calls at the start of the text that give each byte once are a single call. -/
theorem single_call {calls : List Call} {len : Nat} (hlen : 0 < len)
    (hcalls : ∀ call ∈ calls, call.offset = 0 ∧ call.input.length = k)
    (h : calls.flatMap Call.places = List.range len) : calls.length = 1 ∧ k = len := by
  have hplaces : ∀ call ∈ calls, call.places = List.range' 0 k := by
    intro call hcall
    obtain ⟨hoff, hk⟩ := hcalls call hcall
    rw [Call.places, hoff, hk]
    rfl
  cases calls with
  | nil =>
    rw [List.flatMap_nil] at h
    exact absurd (congrArg List.length h) (by simpa using Nat.ne_of_lt hlen)
  | cons call calls =>
    have hk : 0 < k := by
      by_contra h0
      have hempty : (call :: calls).flatMap Call.places = [] := by
        refine List.flatMap_eq_nil_iff.mpr fun x hx => ?_
        rw [hplaces x hx, Nat.eq_zero_of_not_pos h0, List.range'_zero]
      rw [hempty] at h
      exact absurd (congrArg List.length h) (by simpa using Nat.ne_of_lt hlen)
    cases calls with
    | nil =>
      refine ⟨rfl, ?_⟩
      have hlength := congrArg List.length h
      rwa [List.flatMap_cons, List.flatMap_nil, List.append_nil, hplaces call List.mem_cons_self,
        List.length_range', List.length_range] at hlength
    | cons call' calls =>
      -- the first byte would be given twice
      have hnodup : ((call :: call' :: calls).flatMap Call.places).Nodup := h ▸ List.nodup_range
      rw [List.flatMap_cons, List.flatMap_cons, hplaces call List.mem_cons_self,
        hplaces call' (List.mem_cons_of_mem _ List.mem_cons_self)] at hnodup
      have hmem : 0 ∈ List.range' 0 k := List.mem_range'_1.mpr ⟨Nat.le_refl _, by omega⟩
      exact absurd rfl ((List.nodup_append.mp hnodup).2.2 0 hmem 0 (List.mem_append_left _ hmem))

/-! ## 4. When the text is streamed -/

theorem updates_iff (hvalid : c.valid = true) (hfinal : c.final = false) :
    c.Updates cryptUpdate dst src n sizeofSrc o ↔
      Loop.Returns (pass cryptUpdate src (n * sizeofSrc)) (c.init dst) o := by
  rw [Updates, hvalid, hfinal]
  exact Iff.rfl

/-- **A text that is given once is refused.**  Had the first call taken it, a second one would have
followed. -/
theorem refused_of_once {ret : BitVec 64} (hconsumes : Consumes cryptUpdate)
    (hpos : 0 < src.length) (hsize : size.toNat ≤ src.length) (hdst : src.length ≤ dst.length)
    (hret : Loop.Returns (pass cryptUpdate src size) (c.init dst) (.returned ret s))
    (honce : s.calls.flatMap Call.places = List.range src.length) :
    src.length < 2 ^ 31 ∧ (cryptUpdate c.pState (some src)).ret = false := by
  have hinit : Stuck size 0 (c.init dst) := stuck_init c dst
  obtain ⟨hone, hlen⟩ := single_call hpos (hinit.returns hsize hret).2.calls honce
  have hevp : evpLen size.toNat = some src.length := hlen ▸ evpLen_eq_callLen (hlen.symm ▸ hpos)
  obtain ⟨hlt, hle⟩ := evpLen_eq_some hevp
  refine ⟨hlt, ?_⟩
  obtain ⟨d, -, hpass⟩ := first_call (s := c.init dst) hconsumes hevp hsize
    (Nat.le_trans hsize hdst) rfl
  rw [List.take_length, init_pState] at hpass
  by_contra hret'
  have hgo : src.length ≠ 0 ∧ 0 < size ∧ (cryptUpdate c.pState (some src)).ret = true :=
    ⟨Nat.ne_of_gt hpos, Nat.lt_of_lt_of_le hpos hle, by simpa using hret'⟩
  rw [if_pos hgo] at hpass
  rcases hret.cases with hp | ⟨s₁, hp, hret₁⟩
  · rw [hpass] at hp
    exact absurd hp (by simp)
  · have htwo := ((hinit.pass hsize hp).returns hsize hret₁).2.le
    omega

/-- **A first call that does not go on** returns zero, and is the only one. -/
theorem returns_first (hconsumes : Consumes cryptUpdate) (hlt : src.length < 2 ^ 31)
    (hsize : size.toNat = src.length) (hdst : src.length ≤ dst.length)
    (hend : src.length = 0 ∨ (cryptUpdate c.pState (some src)).ret = false) :
    ∃ s, Loop.Returns (pass cryptUpdate src size) (c.init dst) (.returned 0 s) ∧
      s.calls = [⟨0, src, (cryptUpdate c.pState (some src)).out,
        (cryptUpdate c.pState (some src)).ret⟩] ∧
      store dst 0 (cryptUpdate c.pState (some src)).out = some s.dst := by
  have hlen : evpLen size.toNat = some src.length := by
    rw [hsize]
    exact evpLen_of_lt hlt
  obtain ⟨d, hd, hpass⟩ := first_call (s := c.init dst) hconsumes hlen (Nat.le_of_eq hsize)
    (hsize ▸ hdst) rfl
  rw [List.take_length, init_pState] at hd hpass
  have hstop : ¬ (src.length ≠ 0 ∧ 0 < size ∧ (cryptUpdate c.pState (some src)).ret = true) := by
    rintro ⟨hne, -, hret⟩
    rcases hend with h0 | hfail
    · exact hne h0
    · exact absurd (hret.symm.trans hfail) (by simp)
  rw [if_neg hstop] at hpass
  exact ⟨_, Loop.returns_of_inr hpass, rfl, hd⟩

/-- **When `update` streams its text**, on a valid object that is not finalised: it has no elements,
or it is refused at the first call. -/
theorem streams_iff (hconsumes : Consumes cryptUpdate) (hvalid : c.valid = true)
    (hfinal : c.final = false) (htype : 0 < sizeofSrc.toNat)
    (hsrc : src.length = n.toNat * sizeofSrc.toNat) (hdst : src.length ≤ dst.length) :
    Streams cryptUpdate c dst src n sizeofSrc ↔
      n = 0 ∨ src.length < 2 ^ 31 ∧ (cryptUpdate c.pState (some src)).ret = false := by
  have hmod : (n * sizeofSrc).toNat = src.length % 2 ^ 64 := by rw [BitVec.toNat_mul, hsrc]
  constructor
  · rintro ⟨ret, s, hret, honce, -, -⟩
    rw [updates_iff hvalid hfinal] at hret
    refine or_iff_not_imp_left.mpr fun hn => ?_
    have hpos : 0 < src.length := by
      have hn0 : n.toNat ≠ 0 := fun h0 => hn (BitVec.eq_of_toNat_eq h0)
      rw [hsrc]
      exact Nat.mul_pos (Nat.pos_of_ne_zero hn0) htype
    exact refused_of_once hconsumes hpos (hmod ▸ Nat.mod_le _ _) hdst hret honce
  · intro h
    have hend : src.length < 2 ^ 31 ∧
        (src.length = 0 ∨ (cryptUpdate c.pState (some src)).ret = false) := by
      rcases h with rfl | ⟨hlt, hret⟩
      · have hzero : src.length = 0 := by rw [hsrc]; exact Nat.zero_mul _
        exact ⟨by omega, Or.inl hzero⟩
      · exact ⟨hlt, Or.inr hret⟩
    obtain ⟨hlt, hend⟩ := hend
    have hsize : (n * sizeofSrc).toNat = src.length := by rw [hmod, Nat.mod_eq_of_lt (by omega)]
    obtain ⟨s, hret, hcalls, hst⟩ := returns_first hconsumes hlt hsize hdst hend
    obtain ⟨-, hout⟩ := hconsumes c.pState src
    refine ⟨0, s, (updates_iff hvalid hfinal).mpr hret, ?_, ?_, ?_⟩
    · rw [hcalls, List.flatMap_singleton, List.range_eq_range']
      rfl
    · intro call hcall
      rw [hcalls] at hcall
      rw [List.mem_singleton.mp hcall]
      exact ⟨load_whole src, hout, load_store hst⟩
    · intro hok
      rw [hcalls] at hok
      have hret := hok _ (List.mem_singleton_self _)
      rcases hend with h0 | hfail
      · exact h0.symm
      · exact absurd (hret.symm.trans hfail) (by simp)

/-! ## 5. `HashSsl` -/

/-- `EVP_EncryptUpdate`.  The context has the text it was given so far. -/
def evpEncryptUpdate (c : Cipher) : CryptUpdate (List UInt8)
  | text, none => ⟨false, 0, [], text⟩
  | text, some input =>
    ⟨true, input.length, (c.gcm.encrypt c.iv (text ++ input)).1.drop text.length, text ++ input⟩

theorem evpEncryptUpdate_consumes {c : Cipher} (hc : c.gcm.Lawful) :
    Consumes (evpEncryptUpdate c) := by
  intro text input
  refine ⟨rfl, ?_⟩
  rw [evpEncryptUpdate, List.length_drop, hc.length_encrypt, List.length_append,
    Nat.add_sub_cancel_left]

/-- A loop that returns in its first pass, with the context that it had. -/
theorem ends_iff (h : HashSsl) {h' : HashSsl} {upd : CryptUpdate (List UInt8)}
    {s s' : State (List UInt8)} (hp : h.pState = some s'.pState)
    (hpass : pass upd src size s = .inr (.returned 0 s')) :
    (∃ ret t, Loop.Returns (pass upd src size) s (.returned ret t) ∧
        h' = { h with valid := t.valid, pState := some t.pState }) ↔
      { h with valid := s'.valid } = h' := by
  simp only [Loop.returns_iff_of_inr hpass, Outcome.returned.injEq]
  constructor
  · rintro ⟨ret, t, ⟨-, rfl⟩, rfl⟩
    rw [← hp]
  · rintro rfl
    exact ⟨0, s', ⟨rfl, rfl⟩, by rw [← hp]⟩

/-- **`HashSsl::update` is this loop**, with a buffer as large as the text for what EVP writes. -/
theorem hash_update_iff {c : Cipher} (hc : c.gcm.Lawful) {h h' : HashSsl} {text src : List UInt8}
    (hp : h.pState = some text) (hvalid : h.valid = true) (hfinal : h.final = false)
    (hsrc : src.length < 2 ^ 64) :
    h.update src = some h' ↔ ∃ ret s, Updates (evpEncryptUpdate c) ⟨h.valid, h.final, text⟩
      (zeros src.length) src (BitVec.ofNat 64 src.length) 1 (.returned ret s) ∧
        h' = { h with valid := s.valid, pState := some s.pState } := by
  have hsize : (BitVec.ofNat 64 src.length * 1).toNat = src.length := by
    rw [BitVec.toNat_mul, BitVec.toNat_ofNat, Nat.mod_eq_of_lt hsrc]
    change src.length * 1 % 2 ^ 64 = src.length
    omega
  have hzeros : src.length ≤ (zeros src.length).length := Nat.le_of_eq (length_zeros _).symm
  obtain ⟨pState, valid, final, mac⟩ := h
  subst hp hvalid hfinal
  simp only [Updates, Bool.not_false, Bool.and_self, if_true]
  generalize BitVec.ofNat 64 src.length * 1 = size at hsize
  have hle : size.toNat ≤ src.length := Nat.le_of_eq hsize
  cases hlen : evpLen src.length with
  | none =>
    have hupd : HashSsl.update ⟨some text, true, false, mac⟩ src =
        some ⟨some text, false, false, mac⟩ := by
      rw [HashSsl.update, hlen]
      rfl
    have hin : inputAt src size 0 = some none := by
      rw [inputAt_zero hle, hsize, hlen, Option.map_none]
    have hstore : store (zeros src.length) 0 [] = some (zeros src.length) := by
      simp [store]
    have hpass : pass (evpEncryptUpdate c) src size (init ⟨true, false, text⟩ (zeros src.length)) =
        _ := pass_eq hin hstore
    rw [if_neg (fun hgo => hgo.1 rfl)] at hpass
    rw [hupd, Option.some.injEq]
    exact (ends_iff ⟨some text, true, false, mac⟩ rfl hpass).symm
  | some k =>
    have hlen' : evpLen size.toNat = some k := by rw [hsize, hlen]
    cases k with
    | zero =>
      have hupd : HashSsl.update ⟨some text, true, false, mac⟩ src =
          some ⟨some text, true, false, mac⟩ := by
        rw [HashSsl.update, hlen]
        rfl
      obtain ⟨d, -, hpass⟩ := first_call (s := init ⟨true, false, text⟩ (zeros src.length))
        (evpEncryptUpdate_consumes hc) hlen' hle (Nat.le_trans hle hzeros) rfl
      rw [if_neg (fun hgo => hgo.1 rfl)] at hpass
      have htext : some text = some (text ++ src.take 0) := by
        rw [List.take_zero, List.append_nil]
      rw [hupd, Option.some.injEq]
      exact (ends_iff ⟨some text, true, false, mac⟩ htext hpass).symm
    | succ k =>
      have hupd : HashSsl.update ⟨some text, true, false, mac⟩ src = none := by
        rw [HashSsl.update, hlen]
        rfl
      refine iff_of_false (by simp [hupd]) ?_
      rintro ⟨ret, s, hret, -⟩
      refine not_returns (evpEncryptUpdate_consumes hc) (fun _ _ => rfl) ?_ hle
        (Nat.le_trans hle hzeros) hret
      rw [callLen, hlen']
      exact Nat.succ_pos k

/-- A cipher without a key stream, and no tag. -/
def plainCipher : Cipher := ⟨.counterMode (fun _ _ => 0) (fun _ _ => zeros macSize), []⟩

theorem plainCipher_lawful : plainCipher.gcm.Lawful :=
  Gcm.counterMode_lawful fun _ _ => length_zeros _

/-- Two elements of two bytes. -/
theorem streams_iff_pairs :
    Streams (evpEncryptUpdate plainCipher) ⟨true, false, []⟩ [0, 0, 0, 0] [1, 2, 3, 4] 2 2 ↔
      (2 : BitVec 64) = 0 ∨ [1, 2, 3, 4].length < 2 ^ 31 ∧
        (evpEncryptUpdate plainCipher [] (some [1, 2, 3, 4])).ret = false :=
  streams_iff (evpEncryptUpdate_consumes plainCipher_lawful) rfl rfl (by decide) rfl
    (Nat.le_refl _)

/-- **One byte is encrypted without end.** -/
theorem not_streams_byte :
    (∀ o, ¬ Updates (evpEncryptUpdate plainCipher) ⟨true, false, []⟩ [0] [7] 1 1 o) ∧
      ¬ Streams (evpEncryptUpdate plainCipher) ⟨true, false, []⟩ [0] [7] 1 1 := by
  have hloop : ∀ o, ¬ Updates (evpEncryptUpdate plainCipher) ⟨true, false, []⟩ [0] [7] 1 1 o :=
    fun o => not_returns (evpEncryptUpdate_consumes plainCipher_lawful) (fun _ _ => rfl)
      (by decide) (by decide) (by decide)
  exact ⟨hloop, fun ⟨_, _, hret, _⟩ => hloop _ hret⟩

end SplitCipherSsl

end Avocado
