/-
# The bucket hash

The lists of a table lie in memory that the host can write; each bucket has a hash over the tags of
its entries, in the order of the list, and `get` and `put` compute it again and compare.

The comparison is always one of zeros with zeros: `HashSsl` never starts, the hash of every list is
zero, and so is the one that is stored (`Table.reached_cases`).  Buckets that nobody touched
pass, as they should; and so does every other list that the host may put in place of a bucket's
(`Bucket.ok_of_get`, `Bucket.ok_of_put`).
-/
import Avocado.Hashtable.Map

namespace Avocado.Hashtable

variable {c : Cipher} {n : Nat} {key value : List UInt8} {t t' : Table}

/-! ## 1. The check never fails -/

theorem getLoop_new {keyHash : BitVec 8} {keySize : Nat} {es : List Entry} {last : Pos}
    {r : RetValue} {hash : HashSsl}
    (h : getLoop c keyHash keySize key .new last es = some (r, hash)) : hash = .new := by
  induction es generalizing last with
  | nil =>
    simp only [getLoop, Option.some.injEq, Prod.mk.injEq] at h
    exact h.2.symm
  | cons e es ih =>
    simp only [getLoop, HashSsl.update_new, HashSsl.updates_new, Option.bind_eq_bind,
      Option.bind_some, Option.bind_eq_some_iff] at h
    obtain ⟨found, -, h⟩ := h
    cases found with
    | none => exact ih h
    | some kv =>
      simp only [Option.some.injEq, Prod.mk.injEq] at h
      exact h.2.symm

theorem find_new {keyHash : BitVec 8} {keySize : Nat} {es : List Entry} {last : Pos} {i : Nat}
    {entry : Option Nat} {r : RetValue} {hash : HashSsl}
    (h : find c keyHash keySize key .new last i es = some (entry, r, hash)) : hash = .new := by
  induction es generalizing last i with
  | nil =>
    simp only [find, Option.some.injEq, Prod.mk.injEq] at h
    exact h.2.2.symm
  | cons e es ih =>
    simp only [find, HashSsl.update_new, Option.bind_eq_bind, Option.bind_some,
      Option.bind_eq_some_iff] at h
    obtain ⟨found, -, h⟩ := h
    cases found with
    | none => exact ih h
    | some kv =>
      simp only [Option.some.injEq, Prod.mk.injEq] at h
      exact h.2.2.symm

variable {b b' : Bucket} {keySize valueSize : Nat} {keyValue : List UInt8} {ok : Bool}

/-- **Whatever the list is, `get` accepts it.** -/
theorem Bucket.ok_of_get {r : RetValue} (hb : b.hash = zeros macSize)
    (h : b.get c keySize key = some (r, ok)) : ok = true := by
  simp only [get, hb, Option.bind_eq_bind, Option.bind_eq_some_iff, Option.some.injEq,
    Prod.mk.injEq] at h
  obtain ⟨_, -, ⟨res, hash⟩, hloop, -, rfl⟩ := h
  obtain rfl := getLoop_new hloop
  exact HashSsl.equal_new

/-- **And so does `put`.** -/
theorem Bucket.ok_of_put (hb : b.hash = zeros macSize)
    (h : b.put c keySize valueSize keyValue (fun _ => true) = some (ok, b')) : ok = true := by
  simp only [put, putBuild, Option.bind_eq_bind, Option.bind_eq_some_iff] at h
  obtain ⟨_, -, ⟨entry, ret, hash⟩, hfind, h⟩ := h
  obtain rfl := find_new hfind
  cases entry with
  | none =>
    simp only [putFound, hb, Option.bind_eq_bind, Bool.not_true, Bool.false_eq_true, if_false,
      HashSsl.finalize_new, HashSsl.equal_new, Option.bind_some, Option.bind_eq_some_iff, Option.some.injEq,
      Prod.mk.injEq] at h
    obtain ⟨_, -, _, -, _, -, _, -, rfl, -⟩ := h
    rfl
  | some i =>
    simp only [putFound, putRest, hb, Option.bind_eq_bind, Bool.not_true, Bool.false_and,
      Bool.false_eq_true, if_false, HashSsl.copy_new, HashSsl.update_new, HashSsl.updates_new,
      HashSsl.finalize_new, HashSsl.equal_new, Option.bind_some, Option.bind_eq_some_iff,
      Option.some.injEq, Prod.mk.injEq] at h
    obtain ⟨_, -, _, -, _, -, _, -, rfl, -⟩ := h
    rfl

/-! ## 2. Tables that puts have made -/

/-- A successful `put` of a key and a value that EVP handles. -/
def Puts (c : Cipher) (t t' : Table) : Prop :=
  ∃ key value, Fits key value ∧
    t.put c key.length value.length (key ++ value) (fun _ => true) = some (true, t')

/-- A table after any number of them. -/
def Table.Reached (c : Cipher) (n : Nat) (t : Table) : Prop :=
  ∃ t₀, Table.create n = some t₀ ∧ Relation.ReflTransGen (Puts c) t₀ t

/-- **The invariant**: the table is one of association lists, and every bucket's hash is zero. -/
theorem Table.reached_cases (hc : c.gcm.Lawful) (hs : c.gcm.Streams) (h : Table.Reached c n t) :
    ∃ f, t = tableOf c n f ∧ ∀ i, AllFit (f i) := by
  obtain ⟨t₀, hcreate, h⟩ := h
  induction h with
  | refl =>
    have hlt : n < 2 ^ 32 := by
      unfold Table.create at hcreate
      split at hcreate
      · assumption
      · exact absurd hcreate (by simp)
    refine ⟨bucketOf n [], Option.some.inj (hcreate.symm.trans (create_eq hlt)), ?_⟩
    exact fun i e he => absurd he List.not_mem_nil
  | tail _ hput ih =>
    obtain ⟨f, rfl, hf⟩ := ih
    obtain ⟨key, value, hfits, hput⟩ := hput
    have hn : 1 ≤ n := by
      simp only [put, length_tableOf, Option.bind_eq_bind, Option.bind_eq_some_iff] at hput
      obtain ⟨_, hhash, _⟩ := hput
      exact pos_of_tableHash hhash
    have heq := put_tableOf hc hs hn (hf (index n key)) hfits
    rw [heq] at hput
    refine ⟨_, (congrArg Prod.snd (Option.some.inj hput)).symm, ?_⟩
    intro i
    by_cases hi : i = index n key
    · subst hi
      rw [Function.update_self]
      exact (hf _).overwrite hfits
    · rw [Function.update_of_ne hi]
      exact hf i

/-! ## 3. When tampering is reported -/

/-- The tags of a list. -/
def macs (l : List Entry) : List (List UInt8) := l.map Entry.mac

/-- The table after the host has put another list in the place of a bucket's. -/
def Table.withList (t : Table) (i : Nat) (b : Bucket) (list : List Entry) : Table :=
  t.set i { b with list }

/-- The `ok` that `get` computes for a key. -/
def Table.getOk (c : Cipher) (t : Table) (key : List UInt8) : Option Bool := do
  let i ← hash t.length key.length key
  let b ← t[i]?
  let (_, ok) ← b.get c key.length key
  some ok

/-- What `put` returns for a key and a value. -/
def Table.putOk (c : Cipher) (t : Table) (key value : List UInt8) : Option Bool :=
  (t.put c key.length value.length (key ++ value) fun _ => true).map Prod.fst

/-- **The bucket shows what the host did**: where the sequence of tags has changed, the next `get`
and the next `put` fail; where nothing has, they pass. -/
structure TamperEvident (c : Cipher) (t : Table) (i : Nat) (b : Bucket) (list : List Entry)
    (key value : List UInt8) : Prop where
  reported : macs list ≠ macs b.list →
    (t.withList i b list).getOk c key = some false ∧
      (t.withList i b list).putOk c key value = some false
  passes : list = b.list →
    (t.withList i b list).getOk c key = some true ∧
      (t.withList i b list).putOk c key value = some true

/-- **Tampering is never reported**: whatever list the host leaves, the checks of `get` and `put`
pass if they are reached. -/
theorem Table.ok_of_withList (value : List UInt8) {i : Nat} {list : List Entry} (hi : i < t.length)
    (hb : b.hash = zeros macSize) (hkey : ∀ rest, hash t.length key.length (key ++ rest) = some i) :
    (∀ ok, (t.withList i b list).getOk c key = some ok → ok = true) ∧
      ∀ ok, (t.withList i b list).putOk c key value = some ok → ok = true := by
  have hlen : (t.withList i b list).length = t.length := List.length_set
  have hget : (t.withList i b list)[i]? = some { b with list } := by
    rw [withList, List.getElem?_set, if_pos rfl, if_pos hi]
  have hkey' := hkey []
  rw [List.append_nil] at hkey'
  constructor
  · intro ok h
    simp only [getOk, hlen, hkey', hget, Option.bind_eq_bind, Option.bind_some,
      Option.bind_eq_some_iff, Option.some.injEq] at h
    obtain ⟨⟨r, ok'⟩, hr, rfl⟩ := h
    exact Bucket.ok_of_get (b := { b with list }) hb hr
  · intro ok h
    simp only [putOk, put, hlen, hkey value, hget, Option.bind_eq_bind, Option.bind_some,
      Option.map_eq_some_iff, Option.bind_eq_some_iff, Option.some.injEq] at h
    obtain ⟨_, ⟨⟨ok', b'⟩, hput, rfl⟩, rfl⟩ := h
    exact Bucket.ok_of_put (b := { b with list }) hb hput

/-- **When tampering is reported**: when there is nothing to report. -/
theorem tamperEvident_iff (hc : c.gcm.Lawful) (hs : c.gcm.Streams) (h : Table.Reached c n t)
    {i : Nat} (hkey : Table.hash t.length key.length key = some i) (hb : t[i]? = some b)
    (hfits : Fits key value) (list : List Entry) :
    TamperEvident c t i b list key value ↔ macs list = macs b.list := by
  obtain ⟨f, rfl, hf⟩ := Table.reached_cases hc hs h
  have hlt : key.length + value.length < 2 ^ 31 := hfits
  rw [length_tableOf] at hkey
  have hn : 1 ≤ n := pos_of_tableHash hkey
  have hhash : ∀ rest, Table.hash n key.length (key ++ rest) = some (index n key) :=
    fun rest => tableHash_eq key rest hn (by omega)
  have hi : i = index n key := by
    have heq := hhash []
    rw [List.append_nil, hkey] at heq
    exact Option.some.inj heq
  subst hi
  obtain rfl : Bucket.sealed c (f (index n key)) = b :=
    Option.some.inj ((getElem?_tableOf (index_lt hn)).symm.trans hb)
  constructor
  · intro hevident
    by_contra hne
    obtain ⟨hfalse, -⟩ := hevident.reported hne
    have hpass := (Table.ok_of_withList value
      (by rw [length_tableOf]; exact index_lt hn) rfl (by rwa [length_tableOf])).1 false hfalse
    exact absurd hpass (by simp)
  · intro hmacs
    refine ⟨fun hne => absurd hmacs hne, ?_⟩
    rintro rfl
    have hsame : (tableOf c n f).withList (index n key) (Bucket.sealed c (f (index n key)))
        (Bucket.sealed c (f (index n key))).list = tableOf c n f := by
      refine (set_tableOf (f (index n key))).trans ?_
      rw [Function.update_eq_self]
    have hkey32 : key.length < 2 ^ 32 := by omega
    obtain ⟨r, hget, -⟩ := Bucket.get_sealed hc hs (hf (index n key)) hkey32
    have hput := Table.put_tableOf hc hs hn (hf (index n key)) hfits
    rw [hsame]
    constructor
    · simp only [Table.getOk, length_tableOf, hkey, hb, hget, Option.bind_eq_bind,
        Option.bind_some]
    · rw [Table.putOk, hput, Option.map_some]

/-! ## 4. A bucket taken back -/

/-- The bucket of a table with one bucket when key 1 has the value 7. -/
def bucketSeven : Bucket := Bucket.sealed zeroCipher [([1], [7])]

/-- And when it has then got the value 9. -/
def bucketNine : Bucket := Bucket.sealed zeroCipher [([1], [9])]

theorem put_seven : Table.put zeroCipher [⟨[], zeros macSize⟩] 1 1 [1, 7] (fun _ => true) =
    some (true, [bucketSeven]) := by decide +kernel

theorem put_nine : Table.put zeroCipher [bucketSeven] 1 1 [1, 9] (fun _ => true) =
    some (true, [bucketNine]) := by decide +kernel

theorem reached_nine : Table.Reached zeroCipher 1 [bucketNine] := by
  have hfits : ∀ v : UInt8, Fits [1] [v] := by
    intro v
    simp [Fits]
  refine ⟨[⟨[], zeros macSize⟩], rfl, ?_⟩
  exact (Relation.ReflTransGen.single ⟨[1], [7], hfits 7, put_seven⟩).tail
    ⟨[1], [9], hfits 9, put_nine⟩

theorem tamperEvident_iff_nine :
    TamperEvident zeroCipher [bucketNine] 0 bucketNine bucketNine.list [1] [2] ↔
      macs bucketNine.list = macs bucketNine.list :=
  tamperEvident_iff zeroCipher_lawful zeroCipher_streams reached_nine rfl rfl
    (by simp [Fits]) bucketNine.list

/-- **A rollback that nobody notices.**  The host puts the older list back: its tags are others, and
`get` returns the older value. -/
theorem not_tamperEvident_rollback :
    Table.Reached zeroCipher 1 [bucketNine] ∧ macs bucketSeven.list ≠ macs bucketNine.list ∧
      (step zeroCipher (Table.withList [bucketNine] 0 bucketNine bucketSeven.list)
        (.get [1])).map Prod.snd = some (.get 2 (some [1, 7])) ∧
      ¬ TamperEvident zeroCipher [bucketNine] 0 bucketNine bucketSeven.list [1] [2] := by
  have hne : macs bucketSeven.list ≠ macs bucketNine.list := by decide +kernel
  have hget : (step zeroCipher (Table.withList [bucketNine] 0 bucketNine bucketSeven.list)
      (.get [1])).map Prod.snd = some (.get 2 (some [1, 7])) := by decide +kernel
  have hok : (Table.withList [bucketNine] 0 bucketNine bucketSeven.list).getOk zeroCipher [1] =
      some true := by decide +kernel
  refine ⟨reached_nine, hne, hget, ?_⟩
  intro hevident
  exact absurd (hok.symm.trans (hevident.reported hne).1) (by decide)

end Avocado.Hashtable
