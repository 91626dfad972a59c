/-
# A put that fails (`store.h`, the private `put`)

`put` returns false when the caller's predicate refuses, and when the hash of the bucket is not the
one that is stored.  Where the key is new, both are looked at before anything changes.  Where it is
not, the entry is replaced on the way to the hash, and behind the comparison stands `assert(ok)`,
followed by the new hash being stored, whatever `ok` is.

With the assertion the program ends there.  A build with `NDEBUG` has none: the bucket whose hash
was found to be wrong gets the new entry, the right hash for it, and the result false.

`Bucket.putBuild` is `put` in both builds.  `HashSsl` never starts (`HashSsl.lean`), so that the
hash of every list is zero, and a stored hash is wrong when it is not zero.
-/
import Avocado.Hashtable.Tamper

namespace Avocado.Hashtable

open Bytes

/-! ## 1. The property -/

/-- **A failed put changes nothing.** -/
def Bucket.Keeps (ndebug : Bool) (c : Cipher) (key value : List UInt8) (whereP : RetValue → Bool)
    (b : Bucket) : Prop :=
  ∀ b', b.putBuild ndebug c key.length value.length (key ++ value) whereP = some (false, b') →
    b' = b

/-! ## 2. What `find` finds -/

/-- The first entry of a list that is the key's, as `find` hands it to the predicate. -/
def FirstHit (c : Cipher) (keyHash : BitVec 8) (keySize : Nat) (key : List UInt8) (l : List Entry)
    (ret : RetValue) : Prop :=
  ∃ pre e post kv, l = pre ++ e :: post ∧
    (∀ x ∈ pre, x.plain c keyHash keySize key = some none) ∧
    e.plain c keyHash keySize key = some (some kv) ∧ ret = ⟨.prev pre.length, e.size, some kv⟩

section Find

variable {c : Cipher} {keyHash : BitVec 8} {keySize : Nat} {key : List UInt8} {l : List Entry}

theorem find_of_append {pre : List Entry} (post : List Entry) {e : Entry} {kv : List UInt8}
    (hpre : ∀ x ∈ pre, x.plain c keyHash keySize key = some none)
    (he : e.plain c keyHash keySize key = some (some kv)) (i : Nat) :
    find c keyHash keySize key .new (.prev i) i (pre ++ e :: post) =
      some (some (i + pre.length), ⟨.prev (i + pre.length), e.size, some kv⟩, .new) := by
  induction pre generalizing i with
  | nil => simp only [List.nil_append, find, he, Option.bind_eq_bind, Option.bind_some,
      List.length_nil, Nat.add_zero]
  | cons x pre ih =>
    have hx := hpre x List.mem_cons_self
    simp only [List.cons_append, find, hx, HashSsl.update_new, Option.bind_eq_bind,
      Option.bind_some, Pos.next_prev]
    rw [ih fun y hy => hpre y (List.mem_cons_of_mem _ hy)]
    simp only [List.length_cons, Nat.add_assoc, Nat.add_comm 1]

/-- What `find` reports is a first hit. -/
theorem append_of_find {i j : Nat} {ret : RetValue} {hash : HashSsl}
    (h : find c keyHash keySize key .new (.prev i) i l = some (some j, ret, hash)) :
    ∃ pre e post kv, l = pre ++ e :: post ∧
      (∀ x ∈ pre, x.plain c keyHash keySize key = some none) ∧
      e.plain c keyHash keySize key = some (some kv) ∧
      ret = ⟨.prev (i + pre.length), e.size, some kv⟩ := by
  induction l generalizing i with
  | nil => exact absurd (congrArg (Option.map Prod.fst) h) (by simp [find])
  | cons x l ih =>
    simp only [find, HashSsl.update_new, Option.bind_eq_bind, Option.bind_some,
      Option.bind_eq_some_iff] at h
    obtain ⟨found, hx, h⟩ := h
    cases found with
    | none =>
      rw [Pos.next_prev] at h
      obtain ⟨pre, e, post, kv, rfl, hpre, he, rfl⟩ := ih h
      refine ⟨x :: pre, e, post, kv, rfl, ?_, he, ?_⟩
      · intro y hy
        rcases List.mem_cons.mp hy with rfl | hy
        · exact hx
        · exact hpre y hy
      · rw [List.length_cons, Nat.add_assoc, Nat.add_comm 1]
    | some kv =>
      simp only [Option.some.injEq, Prod.mk.injEq] at h
      exact ⟨[], x, l, kv, rfl, fun y hy => absurd hy List.not_mem_nil, hx, h.2.1.symm⟩

end Find

/-! ## 3. When nothing is kept -/

section Keeps

variable {c : Cipher} {key value : List UInt8} {whereP : RetValue → Bool} {b : Bucket}
  {ndebug : Bool}

/-- The constructor always makes an entry: a text that is too large for EVP is left zero. -/
theorem Entry.exists_create (hc : c.gcm.Lawful) (hkey : key.length < 2 ^ 32)
    (value : List UInt8) :
    ∃ e, Entry.create c key.length value.length (key ++ value) = some e := by
  have hsize : (BitVec.ofNat 32 key.length).toNat = key.length := by
    rw [BitVec.toNat_ofNat, Nat.mod_eq_of_lt hkey]
  have hle : (BitVec.ofNat 32 key.length + BitVec.ofNat 32 value.length).toNat ≤
      (key ++ value).length := by
    rw [BitVec.toNat_add, BitVec.toNat_ofNat, BitVec.toNat_ofNat, List.length_append]
    omega
  simp only [create, hsize, entryHash_eq key value hkey, Cipher.encrypt, Option.bind_eq_bind,
    Option.bind_some]
  cases hlen : evpLen (BitVec.ofNat 32 key.length + BitVec.ofNat 32 value.length).toNat with
  | none => exact ⟨_, rfl⟩
  | some inl =>
    have hinl := (evpLen_eq_some hlen).2
    obtain ⟨text, htext⟩ := Option.isSome_iff_exists.mp
      (load_isSome_iff.mpr (show 0 + inl ≤ (key ++ value).length by omega))
    have hroom : 0 + (c.gcm.encrypt c.iv text).1.length ≤
        (zeros (BitVec.ofNat 32 key.length + BitVec.ofNat 32 value.length).toNat).length := by
      rw [hc.length_encrypt, load_length htext, length_zeros]
      omega
    simp only [htext, store, if_pos hroom, Option.bind_some]
    exact ⟨_, rfl⟩

/-- Some list is left by every insertion where an entry was. -/
theorem exists_emplaceAfter {α : Type*} (p q : List α) (x : α) :
    ∃ list i, emplaceAfter (p ++ q) (.prev p.length) x = some (list, i) := by
  cases p with
  | nil => exact ⟨_, _, emplaceAfter_beforeBegin⟩
  | cons a p => exact ⟨_, _, emplaceAfter_prev (List.cons_ne_nil a p)⟩

/-- **The replacement goes through**, wherever the entry is, and with it the hash. -/
theorem Bucket.putBuild_of_hit (hc : c.gcm.Lawful) (hkey : key.length < 2 ^ 32) {ret : RetValue}
    (hhit : FirstHit c (keyHashOf key) key.length (key ++ value) b.list ret)
    (hwhere : whereP ret = true) (hhash : b.hash ≠ zeros macSize) :
    ∃ list, b.putBuild true c key.length value.length (key ++ value) whereP =
      some (false, ⟨list, zeros macSize⟩) := by
  obtain ⟨pre, e, post, kv, hlist, hpre, he, rfl⟩ := hhit
  have hfind := find_of_append post hpre he 0
  rw [Nat.zero_add] at hfind
  obtain ⟨new, hnew⟩ := Entry.exists_create hc hkey value
  obtain ⟨list, i, hins⟩ := exists_emplaceAfter pre post new
  have hold : (pre ++ e :: post)[pre.length]? = some e := by simp
  have hwrong : (HashSsl.new.equal b.hash) = false := by
    rw [HashSsl.equal, beq_eq_false_iff_ne]
    exact fun h => hhash h.symm
  refine ⟨list, ?_⟩
  rw [putBuild, hlist, entryHash_eq key value hkey]
  simp only [Option.bind_eq_bind, Option.bind_some]
  rw [show find c (keyHashOf key) key.length (key ++ value) .new .beforeBegin 0
    (pre ++ e :: post) = _ from hfind]
  simp only [putFound, putRest, Option.bind_eq_bind, Option.bind_some, hwhere, Bool.not_true,
    Bool.false_eq_true, if_false, hnew, hlist, hold, eraseAfter_prev, hins, HashSsl.copy_new,
    HashSsl.update_new, HashSsl.updates_new, HashSsl.finalize_new, hwrong, Bool.and_false]
  rfl

/-- A failed put that changed something has replaced an entry. -/
theorem Bucket.hit_of_putBuild {b' : Bucket}
    (h : b.putBuild ndebug c key.length value.length (key ++ value) whereP = some (false, b'))
    (hne : b' ≠ b) : ndebug = true ∧ b.hash ≠ zeros macSize ∧ key.length < 2 ^ 32 ∧ ∃ ret,
      FirstHit c (keyHashOf key) key.length (key ++ value) b.list ret ∧ whereP ret = true := by
  have hkey : key.length < 2 ^ 32 := by
    by_contra hlong
    rw [putBuild, Entry.hash, hash_, if_neg hlong] at h
    exact absurd h (by simp)
  rw [putBuild, entryHash_eq key value hkey] at h
  simp only [Option.bind_eq_bind, Option.bind_some, Option.bind_eq_some_iff] at h
  obtain ⟨⟨entry, ret, hash⟩, hfind, h⟩ := h
  obtain rfl := find_new hfind
  cases hwhere : whereP ret with
  | false =>
    simp only [hwhere, Bool.not_false, if_true, Option.some.injEq, Prod.mk.injEq] at h
    exact absurd h.2.symm hne
  | true =>
    cases hequal : HashSsl.new.equal b.hash with
    | true =>
      -- the hash is right, so that the result is true
      cases entry with
      | none =>
        simp only [putFound, Option.bind_eq_bind, hwhere, hequal, HashSsl.finalize_new,
          Bool.not_true, Bool.false_eq_true, if_false, Option.bind_some, Option.bind_eq_some_iff,
          Option.some.injEq, Prod.mk.injEq] at h
        obtain ⟨_, -, _, -, _, -, _, -, hok, -⟩ := h
        exact absurd hok (by simp)
      | some i =>
        simp only [putFound, putRest, Option.bind_eq_bind, hwhere, hequal, HashSsl.copy_new,
          HashSsl.update_new, HashSsl.updates_new, HashSsl.finalize_new, Bool.not_true,
          Bool.false_and, Bool.false_eq_true, if_false, Option.bind_some, Option.bind_eq_some_iff,
          Option.some.injEq, Prod.mk.injEq] at h
        obtain ⟨_, -, _, -, _, -, _, -, hok, -⟩ := h
        exact absurd hok (by simp)
    | false =>
      have hhash : b.hash ≠ zeros macSize := by
        intro hzero
        rw [hzero, HashSsl.equal_new] at hequal
        exact absurd hequal (by simp)
      cases entry with
      | none =>
        simp only [putFound, Option.bind_eq_bind, hwhere, hequal, HashSsl.finalize_new,
          Bool.not_true, Bool.not_false, Bool.false_eq_true, if_false, if_true, Option.bind_some,
          Option.some.injEq, Prod.mk.injEq] at h
        exact absurd h.2.symm hne
      | some i =>
        obtain ⟨pre, e, post, kv, hlist, hpre, he, rfl⟩ := append_of_find (i := 0) hfind
        rw [Nat.zero_add] at hwhere
        refine ⟨?_, hhash, hkey, _, ⟨pre, e, post, kv, hlist, hpre, he, rfl⟩, hwhere⟩
        cases ndebug with
        | true => rfl
        | false =>
          simp only [putFound, putRest, Option.bind_eq_bind, Nat.zero_add, hwhere, hequal,
            HashSsl.copy_new, HashSsl.update_new, HashSsl.updates_new, HashSsl.finalize_new,
            Bool.not_true, Bool.not_false, Bool.and_true, Bool.false_eq_true, if_false, if_true, Option.bind_some,
            Option.bind_eq_some_iff, reduceCtorEq, and_false, exists_false] at h

/-- **When a failed put changes nothing**: with the assertion always, and without it as long as no
entry of the key, which the predicate accepts, is in a bucket with a wrong hash. -/
theorem Bucket.keeps_iff (hc : c.gcm.Lawful) : b.Keeps ndebug c key value whereP ↔
    ¬ (ndebug = true ∧ b.hash ≠ zeros macSize ∧ key.length < 2 ^ 32 ∧ ∃ ret,
      FirstHit c (keyHashOf key) key.length (key ++ value) b.list ret ∧ whereP ret = true) := by
  constructor
  · rintro h ⟨rfl, hhash, hkey, ret, hhit, hwhere⟩
    obtain ⟨list, hput⟩ := putBuild_of_hit hc hkey hhit hwhere hhash
    exact hhash (congrArg Bucket.hash (h _ hput)).symm
  · intro h b' hput
    by_contra hne
    exact h (hit_of_putBuild hput hne)

/-- A bucket with the right hash, without the assertion. -/
theorem bucketSeven_keeps : bucketSeven.Keeps true zeroCipher [1] [9] (fun _ => true) :=
  (Bucket.keeps_iff zeroCipher_lawful).mpr fun h => h.2.1 rfl

/-- The bucket of key 1 with the value 7, and a hash that is not the bucket's. -/
def wrongHash : Bucket := ⟨bucketSeven.list, 1 :: zeros 15⟩

/-- **A detected attack is accepted from then on.**  The put returns false, but the value is
replaced and the hash is right; with the assertion there is no result. -/
theorem wrongHash_not_keeps :
    wrongHash.putBuild true zeroCipher 1 1 [1, 9] (fun _ => true) = some (false, bucketNine) ∧
      wrongHash.putBuild false zeroCipher 1 1 [1, 9] (fun _ => true) = none ∧
      ¬ wrongHash.Keeps true zeroCipher [1] [9] (fun _ => true) := by
  have hput : wrongHash.putBuild true zeroCipher 1 1 [1, 9] (fun _ => true) =
      some (false, bucketNine) := by decide +kernel
  refine ⟨hput, by decide +kernel, fun h => ?_⟩
  exact absurd (h _ hput) (by decide +kernel)

end Keeps

end Avocado.Hashtable
