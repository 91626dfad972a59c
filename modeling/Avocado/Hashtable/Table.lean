/-
# The encrypted hash table (`store.h`, `list.h`)

`EHashtable` keeps its entries encrypted, in lists that may lie in memory the host can write.  An
entry has the sizes of its key and its value, one byte of a hash of its key, the cipher text of the
key and the value together, and the tag; a bucket has a list of entries and a hash over their tags.

`put` and `get` walk the bucket with two iterators, `entry` and the one before it, `last`.  An entry
whose size and hash byte fit is decrypted up to the end of its key, and then whole.  `put` erases
what is after `last` and inserts there.  In front of the first entry `last` is `before_begin`, and
there `emplace_after` does not insert: it makes the new node the whole list
(`emplaceAfter`, its `beforeBegin` branch).

A result `none` stands for an access outside an array, a failed assertion, or a loop without end.
The build without `PUSH_FRONT` is modelled; the list's nodes and the mutexes are not.
-/
import Avocado.Crypt.HashSsl

namespace Avocado.Hashtable

open Bytes

/-! ## 1. `list.h` -/

/-- An iterator: `before_begin`, or the node of a position.  `at l.length` is the null pointer,
which is `cend`. -/
inductive Pos
  | beforeBegin
  | at (i : Nat)
  deriving DecidableEq, Repr

/-- `operator++`. -/
def Pos.next : Pos → Pos
  | .beforeBegin => .at 0
  | .at i => .at (i + 1)

variable {α : Type*}

/-- `List::emplace_after`: the list, and the position of the new node.  In front of the list, `head`
is overwritten. -/
def emplaceAfter (l : List α) (pos : Pos) (x : α) : Option (List α × Nat) :=
  match pos with
  | .beforeBegin => some ([x], 0)
  | .at i => if i < l.length then some (l.take (i + 1) ++ x :: l.drop (i + 1), i + 1) else none

/-- `List::erase_after`. -/
def eraseAfter (l : List α) (pos : Pos) : Option (List α) :=
  match pos with
  | .beforeBegin => if l.isEmpty then none else some l.tail
  | .at i => if i + 1 < l.length then some (l.take (i + 1) ++ l.drop (i + 2)) else none

/-! ## 2. Hash values -/

/-- `hash_<INIT, MULT>`.  The index is an `unsigned`, which never reaches a size of 2 ^ 32. -/
def hash_ (init mult : BitVec 64) (size : Nat) (buf : List UInt8) : Option (BitVec 64) :=
  if size < 2 ^ 32 then
    (load buf 0 size).map (List.foldl (fun h b => h * mult + BitVec.ofNat 64 b.toNat) init)
  else none

/-- `Entry::hash`. -/
def Entry.hash (keySize : Nat) (key : List UInt8) : Option (BitVec 8) :=
  (hash_ 7 11 keySize key).map (BitVec.setWidth 8)

/-! ## 3. Entries -/

/-- `struct Entry`; `keyVal` is `none` for a null pointer. -/
structure Entry where
  keySize : BitVec 32
  valSize : BitVec 32
  keyHash : BitVec 8
  keyVal : Option (List UInt8)
  mac : List UInt8
  deriving DecidableEq, Repr

namespace Entry

/-- The sum of the two sizes, an `uint32_t`. -/
def size (e : Entry) : Nat := (e.keySize + e.valSize).toNat

/-- The constructor.  What `encrypt` returns is not looked at. -/
def create (c : Cipher) (keySize valSize : Nat) (plainKeyVal : List UInt8) : Option Entry := do
  let keySize := BitVec.ofNat 32 keySize
  let valSize := BitVec.ofNat 32 valSize
  let keyHash ← hash keySize.toNat plainKeyVal
  let size := (keySize + valSize).toNat
  let (_, keyVal, mac) ← c.encrypt (zeros size) plainKeyVal size (zeros macSize)
  some { keySize, valSize, keyHash, keyVal := some keyVal, mac }

/-- `get`: the key and the value; `none` inside for a null pointer. -/
def get (c : Cipher) (e : Entry) (keyVal : List UInt8) : Option (Option (List UInt8)) := do
  let (ok, res) ← c.decrypt (zeros e.size) keyVal e.size e.mac
  some (if ok then some res else none)

/-- `compare`.  The key is decrypted against a tag that is not initialised, and what `decrypt`
returns is not looked at. -/
def compare (c : Cipher) (e : Entry) (keyVal key : List UInt8) : Option (Option (List UInt8)) := do
  let (_, res) ← c.decrypt (zeros e.keySize.toNat) keyVal e.keySize.toNat (zeros macSize)
  let key ← load key 0 e.keySize.toNat
  if res = key then e.get c keyVal else some none

/-- The test of both loops: the plain key and value, if the entry is the key's. -/
def plain (c : Cipher) (keyHash : BitVec 8) (keySize : Nat) (key : List UInt8) (e : Entry) :
    Option (Option (List UInt8)) :=
  match e.keyVal with
  | none => some none
  | some keyVal =>
    if e.keySize.toNat = keySize ∧ e.keyHash = keyHash then e.compare c keyVal key else some none

end Entry

/-! ## 4. Buckets -/

/-- `struct Bucket`. -/
structure Bucket where
  list : List Entry
  hash : List UInt8
  deriving DecidableEq, Repr

/-- `struct Ret_value`. -/
structure RetValue where
  idx : Pos
  size : Nat
  kv : Option (List UInt8)
  deriving DecidableEq, Repr

/-- The loop of the private `get`; `last` is behind `entry` by one.  Each step adds a tag to the
hash, and so does the destructor of `SafeIter` for the rest of the bucket. -/
def getLoop (c : Cipher) (keyHash : BitVec 8) (keySize : Nat) (key : List UInt8) :
    HashSsl → Pos → List Entry → Option (RetValue × HashSsl)
  | hash, last, [] => some (⟨last.next, 0, none⟩, hash)
  | hash, last, e :: es => do
    match ← e.plain c keyHash keySize key with
    | some kv =>
      let hash ← hash.updates ((e :: es).map Entry.mac)
      some (⟨last, e.size, some kv⟩, hash)
    | none =>
      let hash ← hash.update e.mac
      getLoop c keyHash keySize key hash last.next es

/-- The private `get`: the result, and `ok`. -/
def Bucket.get (c : Cipher) (keySize : Nat) (key : List UInt8) (b : Bucket) :
    Option (RetValue × Bool) := do
  let keyHash ← Entry.hash keySize key
  let (res, hash) ← getLoop c keyHash keySize key .new .beforeBegin b.list
  some (res, hash.equal b.hash)

/-- `find`: the position of the entry or `none` for `cend`, the `Ret_value`, and the hash of the
tags in front of it. -/
def find (c : Cipher) (keyHash : BitVec 8) (keySize : Nat) (key : List UInt8) :
    HashSsl → (last : Pos) → (i : Nat) → List Entry → Option (Option Nat × RetValue × HashSsl)
  | hash, last, _, [] => some (none, ⟨last, 0, none⟩, hash)
  | hash, last, i, e :: es => do
    match ← e.plain c keyHash keySize key with
    | some kv => some (some i, ⟨last, e.size, some kv⟩, hash)
    | none =>
      let hash ← hash.update e.mac
      find c keyHash keySize key hash last.next (i + 1) es

/-- The end of the private `put` where an entry has been replaced: both hashes get the tags from
entry `i` on, and the new one is copied.  The assertion is not there in a build with `NDEBUG`. -/
def putRest (ndebug : Bool) (c : Cipher) (b : Bucket) (hash newHash : HashSsl) (i : Nat) :
    Option (Bool × Bucket) := do
  let hash ← hash.updates ((b.list.drop i).map Entry.mac)
  let newHash ← newHash.updates ((b.list.drop i).map Entry.mac)
  let hash ← hash.finalize c
  let newHash ← newHash.finalize c
  let ok := hash.equal b.hash
  -- the assertion, and then the copy
  if !ok && !ndebug then none
  else some (ok, ⟨b.list, newHash.mac⟩)

/-- The private `put` behind `find`. -/
def putFound (ndebug : Bool) (c : Cipher) (keySize valueSize : Nat) (keyValue : List UInt8)
    (b : Bucket) (entry : Option Nat) (ret : RetValue) (hash : HashSsl) :
    Option (Bool × Bucket) :=
  match entry with
  | none => do
    let newHash := hash.copy
    let hash ← hash.finalize c
    if !hash.equal b.hash then some (false, b)
    else
      let newEntry ← Entry.create c keySize valueSize keyValue
      let newHash ← newHash.update newEntry.mac
      let (list, _) ← emplaceAfter b.list ret.idx newEntry
      let newHash ← newHash.finalize c
      -- one byte is copied
      some (true, ⟨list, newHash.mac.take 1 ++ b.hash.drop 1⟩)
  | some i => do
    let newHash := hash.copy
    let newEntry ← Entry.create c keySize valueSize keyValue
    let newHash ← newHash.update newEntry.mac
    let old ← b.list[i]?
    let hash ← hash.update old.mac
    let list ← eraseAfter b.list ret.idx
    let (list, i) ← emplaceAfter list ret.idx newEntry
    putRest ndebug c ⟨list, b.hash⟩ hash newHash (i + 1)

/-- The private `put` in a build with or without `NDEBUG`: `ok`, and the bucket afterwards. -/
def Bucket.putBuild (ndebug : Bool) (c : Cipher) (keySize valueSize : Nat) (keyValue : List UInt8)
    (b : Bucket) (whereP : RetValue → Bool) : Option (Bool × Bucket) := do
  let keyHash ← Entry.hash keySize keyValue
  let (entry, ret, hash) ← find c keyHash keySize keyValue .new .beforeBegin 0 b.list
  if !whereP ret then some (false, b)
  else putFound ndebug c keySize valueSize keyValue b entry ret hash

/-- The private `put`, with the assertion. -/
def Bucket.put (c : Cipher) (keySize valueSize : Nat) (keyValue : List UInt8) (b : Bucket)
    (whereP : RetValue → Bool) : Option (Bool × Bucket) :=
  b.putBuild false c keySize valueSize keyValue whereP

/-! ## 5. The table -/

/-- The `table` of an `EHashtable`. -/
abbrev Table := List Bucket

namespace Table

/-- The constructor.  Its index is an `unsigned` too. -/
def create (size : Nat) : Option Table :=
  if size < 2 ^ 32 then some (List.replicate size ⟨[], zeros macSize⟩) else none

/-- `hash`: the index of a key's bucket; `none` when the assertion fails. -/
def hash (size : Nat) (keySize : Nat) (key : List UInt8) : Option Nat :=
  if size > 0 then (hash_ 7 61 keySize key).map fun h => h.toNat % size else none

/-- The public `get`. -/
def get (c : Cipher) (t : Table) (keySize : Nat) (key : List UInt8) : Option RetValue := do
  let i ← hash t.length keySize key
  let b ← t[i]?
  let (res, ok) ← b.get c keySize key
  some (if ok then res else ⟨.at b.list.length, 0, none⟩)

/-- The public `put`: its result, and the table afterwards. -/
def put (c : Cipher) (t : Table) (keySize valueSize : Nat) (keyValue : List UInt8)
    (whereP : RetValue → Bool) : Option (Bool × Table) := do
  let i ← hash t.length keySize keyValue
  let b ← t[i]?
  let (ok, b) ← b.put c keySize valueSize keyValue whereP
  some (ok, t.set i b)

end Table

end Avocado.Hashtable
