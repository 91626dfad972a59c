/-
# Hashing in pieces (`encrypt_openssl.h`, `SplitCipherSsl` and `HashSsl`)

A `HashSsl` may be given its text in pieces, and copied, moved or assigned in between; at the end
`mac` should be the tag that `CipherSsl::encrypt` computes for the text in one call
(`OneShot`).

No sequence of these operations does it, because none starts (`HashSsl.lean`): `init` compares
where it should assign, the object is invalid from the constructor on, and copies, moves and
assignments keep it so.  Every `update` returns false, `finalize` returns false, and `mac` stays
zero (`run_new`).

The first piece would not do better on an object that has a context: `update_` returns `dst_pos`,
which nothing advances, so the loop does not end on a piece that EVP takes bytes of, and where it
does end it returns zero, which is false (`Stream.lean`).  The copy constructor and the copy
assignment hand the null pointer to `EVP_CIPHER_CTX_copy`.
-/
import Avocado.Crypt.HashSsl
import Avocado.Crypt.Packet

namespace Avocado

namespace HashSsl

/-! ## 1. The code -/

/-- What `update` returns, and the object afterwards: `dst_pos` as a truth value, and nothing
advances it. -/
def updateRet (h : HashSsl) (src : List UInt8) : Option (Bool × HashSsl) :=
  (h.update src).map fun h => (false, h)

/-- What `finalize` returns.  EVP succeeds on a context. -/
def finalizeRet (c : Cipher) (h : HashSsl) : Option (Bool × HashSsl) :=
  (h.finalize c).map fun h' => (h.valid && !h.final, h')

/-- The move constructor: the new object, and what is left of the old one. -/
def move (h : HashSsl) : HashSsl × HashSsl :=
  ({ h with mac := if h.final then h.mac else zeros macSize },
    { h with valid := false, pState := none })

/-- The copy assignment.  The context of `target` is freed, and as in the copy constructor nothing
takes its place. -/
def copyAssign (_target other : HashSsl) : HashSsl :=
  { pState := none, valid := other.valid, final := other.final, mac := other.mac }

/-- The move assignment: `target`, and what is left of the other object. -/
def moveAssign (_target other : HashSsl) : HashSsl × HashSsl :=
  ({ pState := other.pState, valid := other.valid, final := other.final, mac := other.mac },
    { other with valid := false, pState := none })

/-- What is done with the object between its construction and `finalize`.  Whenever another object
takes its place, the other one is used from then on. -/
inductive Use
  | update (src : List UInt8)
  | copy
  | move
  | copyAssign (target : HashSsl)
  | moveAssign (target : HashSsl)
  deriving DecidableEq, Repr

/-- One use: what an `update` returned, and the object that is used from then on. -/
def use (h : HashSsl) : Use → Option (List Bool × HashSsl)
  | .update src => (h.updateRet src).map fun (ok, h) => ([ok], h)
  | .copy => some ([], h.copy)
  | .move => some ([], h.move.1)
  | .copyAssign target => some ([], target.copyAssign h)
  | .moveAssign target => some ([], (target.moveAssign h).1)

/-- One use after the other. -/
def run (h : HashSsl) : List Use → Option (List Bool × HashSsl)
  | [] => some ([], h)
  | u :: us => do
    let (oks, h) ← h.use u
    let (oks', h) ← h.run us
    some (oks ++ oks', h)

/-! ## 2. One text, in pieces or whole -/

/-- The piece of the text that a use adds. -/
def Use.piece : Use → List UInt8
  | .update src => src
  | _ => []

/-- The whole text. -/
def text (us : List Use) : List UInt8 := us.flatMap Use.piece

/-- **Hashing in pieces is hashing in one call**: every update and `finalize` succeed, the object is
valid, and `mac` is the tag of the whole text, which is the one of `CipherSsl::encrypt`. -/
def OneShot (c : Cipher) (us : List Use) : Prop :=
  ∃ oks h h', run new us = some (oks, h) ∧ (∀ ok ∈ oks, ok = true) ∧
    h.finalizeRet c = some (true, h') ∧ h'.valid = true ∧
    h'.mac = (c.gcm.encrypt c.iv (text us)).2 ∧
    ∀ ok dst mac, c.encrypt (zeros (text us).length) (text us) (text us).length (zeros macSize) =
      some (ok, dst, mac) → ok = true → mac = h'.mac

/-- A use leaves a new object new. -/
theorem use_new (u : Use) :
    ∃ oks, new.use u = some (oks, new) ∧ ∀ ok ∈ oks, ok = false := by
  cases u with
  | update src => exact ⟨[false], rfl, by simp⟩
  | copy => exact ⟨[], rfl, by simp⟩
  | move => exact ⟨[], rfl, by simp⟩
  | copyAssign target => exact ⟨[], rfl, by simp⟩
  | moveAssign target => exact ⟨[], rfl, by simp⟩

/-- **So does any number of uses**, and every `update` among them returns false. -/
theorem run_new (us : List Use) :
    ∃ oks, run new us = some (oks, new) ∧ ∀ ok ∈ oks, ok = false := by
  induction us with
  | nil => exact ⟨[], rfl, by simp⟩
  | cons u us ih =>
    obtain ⟨oks, hu, hoks⟩ := use_new u
    obtain ⟨oks', hus, hoks'⟩ := ih
    refine ⟨oks ++ oks', ?_, ?_⟩
    · rw [run, hu, Option.bind_eq_bind, Option.bind_some]
      simp only [hus, Option.bind_some]
    · intro ok hok
      rcases List.mem_append.mp hok with hok | hok
      · exact hoks ok hok
      · exact hoks' ok hok

/-- **Never**: `finalize` has nothing to finish, whatever was done before. -/
theorem not_oneShot (c : Cipher) (us : List Use) : ¬ OneShot c us := by
  rintro ⟨oks, h, h', hrun, -, hfinal, -⟩
  obtain ⟨oks', hnew, -⟩ := run_new us
  rw [hnew, Option.some.injEq, Prod.mk.injEq] at hrun
  rw [← hrun.2, finalizeRet, finalize_new, Option.map_some, Option.some.injEq] at hfinal
  have hret : (new.valid && !new.final) = true := congrArg Prod.fst hfinal
  exact absurd hret (by decide)

end HashSsl

/-- The key and IV of `package_test.cpp`. -/
def packageCipher : Cipher := ⟨PacketSsl.packageGcm, (List.range 12).map UInt8.ofNat⟩

open HashSsl in
/-- **A text in two pieces**, the object copied in between: both updates and `finalize` return
false, and `mac` is zero, which is not the tag. -/
theorem not_oneShot_twoPieces :
    run new [.update (PacketSsl.packageMsg.take 5), .copy, .update (PacketSsl.packageMsg.drop 5)] =
        some ([false, false], new) ∧
      new.finalizeRet packageCipher = some (false, new) ∧ new.mac = zeros macSize ∧
      (packageCipher.gcm.encrypt packageCipher.iv PacketSsl.packageMsg).2 ≠ zeros macSize ∧
      ¬ OneShot packageCipher
        [.update (PacketSsl.packageMsg.take 5), .copy, .update (PacketSsl.packageMsg.drop 5)] := by
  have hfinal : new.finalizeRet packageCipher = some (false, new) := rfl
  refine ⟨rfl, hfinal, rfl, by decide +kernel, ?_⟩
  rintro ⟨oks, h, h', hrun, -, hfinal', -⟩
  obtain rfl : new = h := congrArg Prod.snd (Option.some.inj hrun)
  rw [hfinal] at hfinal'
  have hret : false = true := congrArg Prod.fst (Option.some.inj hfinal')
  exact absurd hret (by decide)

end Avocado
