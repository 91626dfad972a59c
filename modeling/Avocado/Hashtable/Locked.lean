/-
# The hash table behind its locks (`store.h`, `EHashtable::get` and `EHashtable::put`)

Each bucket has a `shared_mutex`.  `get` takes it shared and `put` for itself, and both walk the
bucket's list behind it, one entry after the other; `put` then takes an entry out and puts one in,
and writes the hash.  Calls of any number of threads interleave in all of these steps (`next`).

Behind the locks each call is the function of `Hashtable/Table.lean` (`finish_next`), so what is
known of a bucket that one call after the other works on is true of the concurrent table: it is a
map (`isMap_of_run`), and in a quiet moment it is the table that the plain functions make
(`exec_effects_of_run`), as long as no bucket loses its keys.  The order of the calls is not fixed
here, so the condition for that has no order in it (`Fine`): where two keys share a bucket, neither
is put twice.
-/
import Avocado.Hashtable.Map
import Avocado.Lib.RwLock

namespace Avocado.Hashtable.Locked

open Bytes AssocList History

/-! ## 1. The code -/

/-- Where a call is behind its lock. -/
inductive Local
  | enter
  /-- In the loop of the private `get`, in front of entry `i`. -/
  | get (keyHash : BitVec 8) (hash : HashSsl) (last : Pos) (i : Nat)
  /-- In the destructor of `SafeIter`. -/
  | rest (res : RetValue) (hash : HashSsl) (i : Nat)
  /-- In the loop of `find`. -/
  | find (keyHash : BitVec 8) (hash : HashSsl) (last : Pos) (i : Nat)
  | found (entry : Option Nat) (ret : RetValue) (hash : HashSsl)
  /-- In front of the `insert_after` for a new key, and of the `memcpy` of one byte. -/
  | append (idx : Pos) (newEntry : Entry) (newHash : HashSsl)
  | copyByte (newHash : HashSsl)
  /-- In front of `erase_after`, and of the `insert_after` behind it. -/
  | erase (idx : Pos) (newEntry : Entry) (hash newHash : HashSsl)
  | insert (idx : Pos) (newEntry : Entry) (hash newHash : HashSsl)
  /-- In the loop over the rest of the list. -/
  | hashRest (hash newHash : HashSsl) (i : Nat)

/-- What the public `get` makes of the private one's result. -/
def getRes (b : Bucket) (res : RetValue) (ok : Bool) : Res :=
  let res := if ok then res else ⟨.at b.list.length, 0, none⟩
  .get res.size res.kv

/-- One step of a call on its bucket: the bucket, and where the call is afterwards or what it
returns. -/
def next (c : Cipher) (op : Op) (b : Bucket) (l : Local) : Option (Bucket × (Local ⊕ Res)) :=
  match op, l with
  | .get key, .enter => do
    let keyHash ← Entry.hash key.length key
    some (b, .inl (.get keyHash .new .beforeBegin 0))
  | .get key, .get keyHash hash last i =>
    match b.list[i]? with
    | none => some (b, .inl (.rest ⟨last.next, 0, none⟩ hash i))
    | some e => do
      match ← e.plain c keyHash key.length key with
      | some kv => some (b, .inl (.rest ⟨last, e.size, some kv⟩ hash i))
      | none =>
        let hash ← hash.update e.mac
        some (b, .inl (.get keyHash hash last.next (i + 1)))
  | .get _, .rest res hash i =>
    match b.list[i]? with
    | none => some (b, .inr (getRes b res (hash.equal b.hash)))
    | some e => do
      let hash ← hash.update e.mac
      some (b, .inl (.rest res hash (i + 1)))
  | .put key value, .enter => do
    let keyHash ← Entry.hash key.length (key ++ value)
    some (b, .inl (.find keyHash .new .beforeBegin 0))
  | .put key value, .find keyHash hash last i =>
    match b.list[i]? with
    | none => some (b, .inl (.found none ⟨last, 0, none⟩ hash))
    | some e => do
      match ← e.plain c keyHash key.length (key ++ value) with
      | some kv => some (b, .inl (.found (some i) ⟨last, e.size, some kv⟩ hash))
      | none =>
        let hash ← hash.update e.mac
        some (b, .inl (.find keyHash hash last.next (i + 1)))
  | .put key value, .found none ret hash => do
    let newHash := hash.copy
    let hash ← hash.finalize c
    if !hash.equal b.hash then some (b, .inr (.put false))
    else
      let newEntry ← Entry.create c key.length value.length (key ++ value)
      let newHash ← newHash.update newEntry.mac
      some (b, .inl (.append ret.idx newEntry newHash))
  | .put _ _, .append idx newEntry newHash => do
    let (list, _) ← emplaceAfter b.list idx newEntry
    some (⟨list, b.hash⟩, .inl (.copyByte newHash))
  | .put _ _, .copyByte newHash => do
    let newHash ← newHash.finalize c
    some (⟨b.list, newHash.mac.take 1 ++ b.hash.drop 1⟩, .inr (.put true))
  | .put key value, .found (some i) ret hash => do
    let newHash := hash.copy
    let newEntry ← Entry.create c key.length value.length (key ++ value)
    let newHash ← newHash.update newEntry.mac
    let old ← b.list[i]?
    let hash ← hash.update old.mac
    some (b, .inl (.erase ret.idx newEntry hash newHash))
  | .put _ _, .erase idx newEntry hash newHash => do
    let list ← eraseAfter b.list idx
    some (⟨list, b.hash⟩, .inl (.insert idx newEntry hash newHash))
  | .put _ _, .insert idx newEntry hash newHash => do
    let (list, i) ← emplaceAfter b.list idx newEntry
    some (⟨list, b.hash⟩, .inl (.hashRest hash newHash (i + 1)))
  | .put _ _, .hashRest hash newHash i =>
    match b.list[i]? with
    | some e => do
      let hash ← hash.update e.mac
      let newHash ← newHash.update e.mac
      some (b, .inl (.hashRest hash newHash (i + 1)))
    | none => do
      let hash ← hash.finalize c
      let newHash ← newHash.finalize c
      -- the assertion
      if !hash.equal b.hash then none
      else some (⟨b.list, newHash.mac⟩, .inr (.put true))
  | _, _ => none

/-- The bucket that a call works on, in a table of `n`. -/
def cell (n : Nat) : Op → Option Nat
  | .get key => Table.hash n key.length key
  | .put key value => Table.hash n key.length (key ++ value)

/-- The calls on a table of `n` buckets. -/
def code (c : Cipher) (n : Nat) : RwLock.Code Nat Bucket Op Res Local where
  cell := cell n
  shared
    | .get _ => true
    | .put _ _ => false
  start _ := .enter
  next := next c

/-- A table, and the calls that will be made on it. -/
def init (t : Table) (ops : List Op) : RwLock.State Nat Bucket Op Res Local :=
  .init (fun i => t[i]?.getD ⟨[], zeros macSize⟩) ops

/-! ## 2. A call alone -/

/-- What is left of a call: the bucket it leaves, and its result. -/
def finish (c : Cipher) (op : Op) (b : Bucket) (l : Local) : Option (Bucket × Res) :=
  match op, l with
  | .get key, .enter => do
    let (res, ok) ← b.get c key.length key
    some (b, getRes b res ok)
  | .get key, .get keyHash hash last i => do
    let (res, hash) ← getLoop c keyHash key.length key hash last (b.list.drop i)
    some (b, getRes b res (hash.equal b.hash))
  | .get _, .rest res hash i => do
    let hash ← hash.updates ((b.list.drop i).map Entry.mac)
    some (b, getRes b res (hash.equal b.hash))
  | .put key value, .enter => do
    let (ok, b) ← b.put c key.length value.length (key ++ value) fun _ => true
    some (b, .put ok)
  | .put key value, .find keyHash hash last i => do
    let (entry, ret, hash) ← Hashtable.find c keyHash key.length (key ++ value) hash last i
      (b.list.drop i)
    let (ok, b) ← putFound false c key.length value.length (key ++ value) b entry ret hash
    some (b, .put ok)
  | .put key value, .found entry ret hash => do
    let (ok, b) ← putFound false c key.length value.length (key ++ value) b entry ret hash
    some (b, .put ok)
  | .put _ _, .append idx newEntry newHash => do
    let (list, _) ← emplaceAfter b.list idx newEntry
    let newHash ← newHash.finalize c
    some (⟨list, newHash.mac.take 1 ++ b.hash.drop 1⟩, .put true)
  | .put _ _, .copyByte newHash => do
    let newHash ← newHash.finalize c
    some (⟨b.list, newHash.mac.take 1 ++ b.hash.drop 1⟩, .put true)
  | .put _ _, .erase idx newEntry hash newHash => do
    let list ← eraseAfter b.list idx
    let (list, i) ← emplaceAfter list idx newEntry
    let (ok, b) ← putRest false c ⟨list, b.hash⟩ hash newHash (i + 1)
    some (b, .put ok)
  | .put _ _, .insert idx newEntry hash newHash => do
    let (list, i) ← emplaceAfter b.list idx newEntry
    let (ok, b) ← putRest false c ⟨list, b.hash⟩ hash newHash (i + 1)
    some (b, .put ok)
  | .put _ _, .hashRest hash newHash i => do
    let (ok, b) ← putRest false c b hash newHash i
    some (b, .put ok)
  | _, _ => none

variable {c : Cipher} {op : Op} {b b' : Bucket} {l : Local} {x : Local ⊕ Res}

/-- What is left of a call after a step. -/
def finishOf (c : Cipher) (op : Op) (b : Bucket) : Local ⊕ Res → Option (Bucket × Res)
  | .inl l => finish c op b l
  | .inr r => some (b, r)

/-- `put` is `find` and what is behind it. -/
theorem put_eq (c : Cipher) (key value : List UInt8) (b : Bucket) :
    b.put c key.length value.length (key ++ value) (fun _ => true) =
      (Entry.hash key.length (key ++ value)).bind fun keyHash =>
        (Hashtable.find c keyHash key.length (key ++ value) .new .beforeBegin 0 b.list).bind
          fun p => putFound false c key.length value.length (key ++ value) b p.1 p.2.1 p.2.2 := rfl

theorem updates_nil (h : HashSsl) : h.updates [] = some h := rfl

theorem updates_cons (h : HashSsl) (mac : List UInt8) (macs : List (List UInt8)) :
    h.updates (mac :: macs) = (h.update mac).bind fun h => h.updates macs := by
  rw [HashSsl.updates, List.foldlM_cons]
  rfl

theorem drop_of_some {α : Type} {l : List α} {i : Nat} {e : α} (h : l[i]? = some e) :
    l.drop i = e :: l.drop (i + 1) := by
  obtain ⟨hi, rfl⟩ := List.getElem?_eq_some_iff.mp h
  exact List.drop_eq_getElem_cons hi

theorem drop_of_none {α : Type} {l : List α} {i : Nat} (h : l[i]? = none) : l.drop i = [] :=
  List.drop_eq_nil_of_le (List.getElem?_eq_none_iff.mp h)

/-! ## 3. The shapes of a step -/

/-- The steps of a `get`. -/
inductive GetStep (c : Cipher) (key : List UInt8) (b : Bucket) : Local → Local ⊕ Res → Prop
  | enter {keyHash} (hhash : Entry.hash key.length key = some keyHash) :
      GetStep c key b .enter (.inl (.get keyHash .new .beforeBegin 0))
  | absent {keyHash hash last i} (hi : b.list[i]? = none) :
      GetStep c key b (.get keyHash hash last i) (.inl (.rest ⟨last.next, 0, none⟩ hash i))
  | hit {keyHash hash last i e kv} (hi : b.list[i]? = some e)
      (hfound : e.plain c keyHash key.length key = some (some kv)) :
      GetStep c key b (.get keyHash hash last i) (.inl (.rest ⟨last, e.size, some kv⟩ hash i))
  | miss {keyHash hash last i e hash'} (hi : b.list[i]? = some e)
      (hfound : e.plain c keyHash key.length key = some none)
      (hhash : hash.update e.mac = some hash') :
      GetStep c key b (.get keyHash hash last i) (.inl (.get keyHash hash' last.next (i + 1)))
  | rest {res hash i e hash'} (hi : b.list[i]? = some e) (hhash : hash.update e.mac = some hash') :
      GetStep c key b (.rest res hash i) (.inl (.rest res hash' (i + 1)))
  | done {res hash i} (hi : b.list[i]? = none) :
      GetStep c key b (.rest res hash i) (.inr (getRes b res (hash.equal b.hash)))

/-- The steps of a `put`. -/
inductive PutStep (c : Cipher) (key value : List UInt8) (b : Bucket) :
    Local → Bucket → Local ⊕ Res → Prop
  | enter {keyHash} (hhash : Entry.hash key.length (key ++ value) = some keyHash) :
      PutStep c key value b .enter b (.inl (.find keyHash .new .beforeBegin 0))
  | absent {keyHash hash last i} (hi : b.list[i]? = none) :
      PutStep c key value b (.find keyHash hash last i) b (.inl (.found none ⟨last, 0, none⟩ hash))
  | hit {keyHash hash last i e kv} (hi : b.list[i]? = some e)
      (hfound : e.plain c keyHash key.length (key ++ value) = some (some kv)) :
      PutStep c key value b (.find keyHash hash last i) b
        (.inl (.found (some i) ⟨last, e.size, some kv⟩ hash))
  | miss {keyHash hash last i e hash'} (hi : b.list[i]? = some e)
      (hfound : e.plain c keyHash key.length (key ++ value) = some none)
      (hhash : hash.update e.mac = some hash') :
      PutStep c key value b (.find keyHash hash last i) b
        (.inl (.find keyHash hash' last.next (i + 1)))
  | refuse {ret hash hash'} (hhash : hash.finalize c = some hash')
      (hne : hash'.equal b.hash = false) :
      PutStep c key value b (.found none ret hash) b (.inr (.put false))
  | new {ret hash hash' newEntry newHash} (hhash : hash.finalize c = some hash')
      (heq : hash'.equal b.hash = true)
      (hnew : Entry.create c key.length value.length (key ++ value) = some newEntry)
      (hupd : hash.copy.update newEntry.mac = some newHash) :
      PutStep c key value b (.found none ret hash) b (.inl (.append ret.idx newEntry newHash))
  | append {idx newEntry newHash list i}
      (hlist : emplaceAfter b.list idx newEntry = some (list, i)) :
      PutStep c key value b (.append idx newEntry newHash) ⟨list, b.hash⟩
        (.inl (.copyByte newHash))
  | copyByte {newHash newHash'} (hnew : newHash.finalize c = some newHash') :
      PutStep c key value b (.copyByte newHash)
        ⟨b.list, newHash'.mac.take 1 ++ b.hash.drop 1⟩ (.inr (.put true))
  | replace {i ret hash newEntry newHash old hash'}
      (hnew : Entry.create c key.length value.length (key ++ value) = some newEntry)
      (hupd : hash.copy.update newEntry.mac = some newHash) (hold : b.list[i]? = some old)
      (hhash : hash.update old.mac = some hash') :
      PutStep c key value b (.found (some i) ret hash) b
        (.inl (.erase ret.idx newEntry hash' newHash))
  | erase {idx newEntry hash newHash list} (hlist : eraseAfter b.list idx = some list) :
      PutStep c key value b (.erase idx newEntry hash newHash) ⟨list, b.hash⟩
        (.inl (.insert idx newEntry hash newHash))
  | insert {idx newEntry hash newHash list i}
      (hlist : emplaceAfter b.list idx newEntry = some (list, i)) :
      PutStep c key value b (.insert idx newEntry hash newHash) ⟨list, b.hash⟩
        (.inl (.hashRest hash newHash (i + 1)))
  | rest {hash newHash i e hash' newHash'} (hi : b.list[i]? = some e)
      (hhash : hash.update e.mac = some hash') (hnew : newHash.update e.mac = some newHash') :
      PutStep c key value b (.hashRest hash newHash i) b (.inl (.hashRest hash' newHash' (i + 1)))
  | done {hash newHash i hash' newHash'} (hi : b.list[i]? = none)
      (hhash : hash.finalize c = some hash') (hnew : newHash.finalize c = some newHash')
      (heq : hash'.equal b.hash = true) :
      PutStep c key value b (.hashRest hash newHash i) ⟨b.list, newHash'.mac⟩ (.inr (.put true))

/-- **What a step of `get` can do**; it leaves the bucket as it is. -/
theorem get_cases {key : List UInt8} (h : next c (.get key) b l = some (b', x)) :
    b' = b ∧ GetStep c key b l x := by
  cases l with
  | enter =>
    simp only [next, Option.bind_eq_bind, Option.bind_eq_some_iff, Option.some.injEq,
      Prod.mk.injEq] at h
    obtain ⟨keyHash, hhash, rfl, rfl⟩ := h
    exact ⟨rfl, .enter hhash⟩
  | get keyHash hash last i =>
    simp only [next] at h
    cases hi : b.list[i]? with
    | none =>
      rw [hi] at h
      simp only [Option.some.injEq, Prod.mk.injEq] at h
      obtain ⟨rfl, rfl⟩ := h
      exact ⟨rfl, .absent hi⟩
    | some e =>
      rw [hi] at h
      simp only [Option.bind_eq_bind, Option.bind_eq_some_iff] at h
      obtain ⟨found, hfound, h⟩ := h
      cases found with
      | some kv =>
        simp only [Option.some.injEq, Prod.mk.injEq] at h
        obtain ⟨rfl, rfl⟩ := h
        exact ⟨rfl, .hit hi hfound⟩
      | none =>
        simp only [Option.bind_eq_some_iff, Option.some.injEq, Prod.mk.injEq] at h
        obtain ⟨hash', hhash, rfl, rfl⟩ := h
        exact ⟨rfl, .miss hi hfound hhash⟩
  | rest res hash i =>
    simp only [next] at h
    cases hi : b.list[i]? with
    | none =>
      rw [hi] at h
      simp only [Option.some.injEq, Prod.mk.injEq] at h
      obtain ⟨rfl, rfl⟩ := h
      exact ⟨rfl, .done hi⟩
    | some e =>
      rw [hi] at h
      simp only [Option.bind_eq_bind, Option.bind_eq_some_iff, Option.some.injEq,
        Prod.mk.injEq] at h
      obtain ⟨hash', hhash, rfl, rfl⟩ := h
      exact ⟨rfl, .rest hi hhash⟩
  | find | found | append | copyByte | erase | insert | hashRest =>
    exact absurd h (by simp [next])

/-- **What a step of `put` can do.** -/
theorem put_cases {key value : List UInt8} (h : next c (.put key value) b l = some (b', x)) :
    PutStep c key value b l b' x := by
  cases l with
  | enter =>
    simp only [next, Option.bind_eq_bind, Option.bind_eq_some_iff, Option.some.injEq,
      Prod.mk.injEq] at h
    obtain ⟨keyHash, hhash, rfl, rfl⟩ := h
    exact .enter hhash
  | find keyHash hash last i =>
    simp only [next] at h
    cases hi : b.list[i]? with
    | none =>
      rw [hi] at h
      simp only [Option.some.injEq, Prod.mk.injEq] at h
      obtain ⟨rfl, rfl⟩ := h
      exact .absent hi
    | some e =>
      rw [hi] at h
      simp only [Option.bind_eq_bind, Option.bind_eq_some_iff] at h
      obtain ⟨found, hfound, h⟩ := h
      cases found with
      | some kv =>
        simp only [Option.some.injEq, Prod.mk.injEq] at h
        obtain ⟨rfl, rfl⟩ := h
        exact .hit hi hfound
      | none =>
        simp only [Option.bind_eq_some_iff, Option.some.injEq, Prod.mk.injEq] at h
        obtain ⟨hash', hhash, rfl, rfl⟩ := h
        exact .miss hi hfound hhash
  | found entry ret hash =>
    cases entry with
    | none =>
      simp only [next, Option.bind_eq_bind, Option.bind_eq_some_iff] at h
      obtain ⟨hash', hhash, h⟩ := h
      cases heq : hash'.equal b.hash with
      | false =>
        simp only [heq, Bool.not_false, if_true, Option.some.injEq, Prod.mk.injEq] at h
        obtain ⟨rfl, rfl⟩ := h
        exact .refuse hhash heq
      | true =>
        simp only [heq, Bool.not_true, Bool.false_eq_true, if_false, Option.bind_eq_some_iff,
          Option.some.injEq, Prod.mk.injEq] at h
        obtain ⟨newEntry, hnew, newHash, hupd, rfl, rfl⟩ := h
        exact .new hhash heq hnew hupd
    | some i =>
      simp only [next, Option.bind_eq_bind, Option.bind_eq_some_iff, Option.some.injEq,
        Prod.mk.injEq] at h
      obtain ⟨newEntry, hnew, newHash, hupd, old, hold, hash', hhash, rfl, rfl⟩ := h
      exact .replace hnew hupd hold hhash
  | append idx newEntry newHash =>
    simp only [next, Option.bind_eq_bind, Option.bind_eq_some_iff, Option.some.injEq,
      Prod.mk.injEq, Prod.exists] at h
    obtain ⟨list, i, hlist, rfl, rfl⟩ := h
    exact .append hlist
  | copyByte newHash =>
    simp only [next, Option.bind_eq_bind, Option.bind_eq_some_iff, Option.some.injEq,
      Prod.mk.injEq] at h
    obtain ⟨newHash', hnew, rfl, rfl⟩ := h
    exact .copyByte hnew
  | erase idx newEntry hash newHash =>
    simp only [next, Option.bind_eq_bind, Option.bind_eq_some_iff, Option.some.injEq,
      Prod.mk.injEq] at h
    obtain ⟨list, hlist, rfl, rfl⟩ := h
    exact .erase hlist
  | insert idx newEntry hash newHash =>
    simp only [next, Option.bind_eq_bind, Option.bind_eq_some_iff, Option.some.injEq,
      Prod.mk.injEq, Prod.exists] at h
    obtain ⟨list, i, hlist, rfl, rfl⟩ := h
    exact .insert hlist
  | hashRest hash newHash i =>
    simp only [next] at h
    cases hi : b.list[i]? with
    | none =>
      rw [hi] at h
      simp only [Option.bind_eq_bind, Option.bind_eq_some_iff] at h
      obtain ⟨hash', hhash, newHash', hnew, h⟩ := h
      cases heq : hash'.equal b.hash with
      | false => exact absurd h (by simp [heq])
      | true =>
        simp only [heq, Bool.not_true, Bool.false_eq_true, if_false, Option.some.injEq,
          Prod.mk.injEq] at h
        obtain ⟨rfl, rfl⟩ := h
        exact .done hi hhash hnew heq
    | some e =>
      rw [hi] at h
      simp only [Option.bind_eq_bind, Option.bind_eq_some_iff, Option.some.injEq,
        Prod.mk.injEq] at h
      obtain ⟨hash', hhash, newHash', hnew, rfl, rfl⟩ := h
      exact .rest hi hhash hnew
  | get | rest => exact absurd h (by simp [next])

/-- **A step takes nothing from what is left of a call.** -/
theorem finish_get {key : List UInt8} (h : GetStep c key b l x) :
    finish c (.get key) b l = finishOf c (.get key) b x := by
  cases h with
  | enter hhash =>
    simp only [finish, finishOf, Bucket.get, hhash, Option.bind_eq_bind, Option.bind_some,
      List.drop_zero, Option.bind_assoc]
  | absent hi =>
    simp only [finish, finishOf, drop_of_none hi, getLoop, List.map_nil, updates_nil,
      Option.bind_eq_bind, Option.bind_some]
  | hit hi hfound =>
    simp only [finish, finishOf, drop_of_some hi, getLoop, hfound, Option.bind_eq_bind,
      Option.bind_some, Option.bind_assoc]
  | miss hi hfound hhash =>
    simp only [finish, finishOf, drop_of_some hi, getLoop, hfound, hhash, Option.bind_eq_bind,
      Option.bind_some]
  | rest hi hhash =>
    simp only [finish, finishOf, drop_of_some hi, List.map_cons, updates_cons, hhash,
      Option.bind_eq_bind, Option.bind_some]
  | done hi =>
    simp only [finish, finishOf, drop_of_none hi, List.map_nil, updates_nil, Option.bind_eq_bind,
      Option.bind_some]

theorem finish_put {key value : List UInt8} (h : PutStep c key value b l b' x) :
    finish c (.put key value) b l = finishOf c (.put key value) b' x := by
  cases h with
  | enter hhash =>
    simp only [finish, finishOf, put_eq, hhash, Option.bind_eq_bind, Option.bind_some,
      List.drop_zero, Option.bind_assoc]
  | absent hi =>
    simp only [finish, finishOf, drop_of_none hi, Hashtable.find, Option.bind_eq_bind,
      Option.bind_some]
  | hit hi hfound =>
    simp only [finish, finishOf, drop_of_some hi, Hashtable.find, hfound, Option.bind_eq_bind,
      Option.bind_some]
  | miss hi hfound hhash =>
    simp only [finish, finishOf, drop_of_some hi, Hashtable.find, hfound, hhash,
      Option.bind_eq_bind, Option.bind_some]
  | refuse hhash hne =>
    simp only [finish, finishOf, putFound, hhash, hne, Option.bind_eq_bind, Option.bind_some,
      Bool.not_false, if_true]
  | new hhash heq hnew hupd =>
    simp only [finish, finishOf, putFound, hhash, heq, hnew, hupd, Option.bind_eq_bind,
      Option.bind_some, Option.bind_assoc, Bool.not_true, Bool.false_eq_true, if_false]
  | append hlist => simp only [finish, finishOf, hlist, Option.bind_eq_bind, Option.bind_some]
  | copyByte hnew => simp only [finish, finishOf, hnew, Option.bind_eq_bind, Option.bind_some]
  | replace hnew hupd hold hhash =>
    simp only [finish, finishOf, putFound, hnew, hupd, hold, hhash, Option.bind_eq_bind,
      Option.bind_some, Option.bind_assoc]
  | erase hlist => simp only [finish, finishOf, hlist, Option.bind_eq_bind, Option.bind_some]
  | insert hlist => simp only [finish, finishOf, hlist, Option.bind_eq_bind, Option.bind_some]
  | rest hi hhash hnew =>
    simp only [finish, finishOf, putRest, drop_of_some hi, List.map_cons, updates_cons, hhash,
      hnew, Option.bind_eq_bind, Option.bind_some]
  | done hi hhash hnew heq =>
    simp only [finish, finishOf, putRest, drop_of_none hi, List.map_nil, updates_nil, hhash, hnew,
      heq, Option.bind_eq_bind, Option.bind_some, Bool.not_true, Bool.false_and, Bool.false_eq_true,
      if_false]

theorem finish_next (h : next c op b l = some (b', x)) : finish c op b l = finishOf c op b' x := by
  cases op with
  | get key =>
    obtain ⟨rfl, hstep⟩ := get_cases h
    exact finish_get hstep
  | put key value => exact finish_put (put_cases h)

/-- A call that has an end has a next step. -/
theorem exists_next {y : Bucket × Res} (h : finish c op b l = some y) :
    ∃ z, next c op b l = some z := by
  cases op with
  | get key =>
    cases l with
    | enter =>
      simp only [finish, Bucket.get, Option.bind_eq_bind, Option.bind_eq_some_iff] at h
      obtain ⟨_, ⟨keyHash, hhash, _⟩, _⟩ := h
      exact ⟨_, by simp only [next, hhash, Option.bind_eq_bind, Option.bind_some]; rfl⟩
    | get keyHash hash last i =>
      simp only [finish, Option.bind_eq_bind, Option.bind_eq_some_iff] at h
      obtain ⟨p, hloop, -⟩ := h
      cases hi : b.list[i]? with
      | none => exact ⟨_, by simp only [next, hi]; rfl⟩
      | some e =>
        simp only [drop_of_some hi, getLoop, Option.bind_eq_bind, Option.bind_eq_some_iff] at hloop
        obtain ⟨found, hfound, hloop⟩ := hloop
        cases found with
        | some kv =>
          exact ⟨_, by simp only [next, hi, hfound, Option.bind_eq_bind, Option.bind_some]; rfl⟩
        | none =>
          simp only [Option.bind_eq_some_iff] at hloop
          obtain ⟨hash', hhash, -⟩ := hloop
          exact ⟨_, by
            simp only [next, hi, hfound, hhash, Option.bind_eq_bind, Option.bind_some]; rfl⟩
    | rest res hash i =>
      simp only [finish, Option.bind_eq_bind, Option.bind_eq_some_iff] at h
      obtain ⟨p, hloop, -⟩ := h
      cases hi : b.list[i]? with
      | none => exact ⟨_, by simp only [next, hi]; rfl⟩
      | some e =>
        simp only [drop_of_some hi, List.map_cons, updates_cons, Option.bind_eq_some_iff] at hloop
        obtain ⟨hash', hhash, -⟩ := hloop
        exact ⟨_, by simp only [next, hi, hhash, Option.bind_eq_bind, Option.bind_some]; rfl⟩
    | find | found | append | copyByte | erase | insert | hashRest =>
      exact absurd h (by simp [finish])
  | put key value =>
    cases l with
    | enter =>
      simp only [finish, put_eq, Option.bind_eq_bind, Option.bind_eq_some_iff] at h
      obtain ⟨_, ⟨keyHash, hhash, _⟩, _⟩ := h
      exact ⟨_, by simp only [next, hhash, Option.bind_eq_bind, Option.bind_some]; rfl⟩
    | find keyHash hash last i =>
      simp only [finish, Option.bind_eq_bind, Option.bind_eq_some_iff] at h
      obtain ⟨p, hloop, -⟩ := h
      cases hi : b.list[i]? with
      | none => exact ⟨_, by simp only [next, hi]; rfl⟩
      | some e =>
        simp only [drop_of_some hi, Hashtable.find, Option.bind_eq_bind,
          Option.bind_eq_some_iff] at hloop
        obtain ⟨found, hfound, hloop⟩ := hloop
        cases found with
        | some kv =>
          exact ⟨_, by simp only [next, hi, hfound, Option.bind_eq_bind, Option.bind_some]; rfl⟩
        | none =>
          simp only [Option.bind_eq_some_iff] at hloop
          obtain ⟨hash', hhash, -⟩ := hloop
          exact ⟨_, by
            simp only [next, hi, hfound, hhash, Option.bind_eq_bind, Option.bind_some]; rfl⟩
    | found entry ret hash =>
      simp only [finish, Option.bind_eq_bind, Option.bind_eq_some_iff] at h
      obtain ⟨p, hfound, -⟩ := h
      cases entry with
      | none =>
        simp only [putFound, Option.bind_eq_bind, Option.bind_eq_some_iff] at hfound
        obtain ⟨hash', hhash, hfound⟩ := hfound
        cases hne : hash'.equal b.hash with
        | false =>
          exact ⟨_, by simp only [next, hhash, hne, Option.bind_eq_bind, Option.bind_some]; rfl⟩
        | true =>
          simp only [hne, Bool.not_true, Bool.false_eq_true, if_false,
            Option.bind_eq_some_iff] at hfound
          obtain ⟨newEntry, hnew, newHash, hupd, -⟩ := hfound
          exact ⟨_, by
            simp only [next, hhash, hne, hnew, hupd, Option.bind_eq_bind, Option.bind_some]; rfl⟩
      | some i =>
        simp only [putFound, Option.bind_eq_bind, Option.bind_eq_some_iff] at hfound
        obtain ⟨newEntry, hnew, newHash, hupd, old, hold, hash', hhash, -⟩ := hfound
        exact ⟨_, by
          simp only [next, hnew, hupd, hold, hhash, Option.bind_eq_bind, Option.bind_some]; rfl⟩
    | append idx newEntry newHash =>
      simp only [finish, Option.bind_eq_bind, Option.bind_eq_some_iff] at h
      obtain ⟨p, hlist, -⟩ := h
      exact ⟨_, by simp only [next, hlist, Option.bind_eq_bind, Option.bind_some]; rfl⟩
    | copyByte newHash =>
      simp only [finish, Option.bind_eq_bind, Option.bind_eq_some_iff] at h
      obtain ⟨newHash', hnew, -⟩ := h
      exact ⟨_, by simp only [next, hnew, Option.bind_eq_bind, Option.bind_some]; rfl⟩
    | erase idx newEntry hash newHash =>
      simp only [finish, Option.bind_eq_bind, Option.bind_eq_some_iff] at h
      obtain ⟨list, hlist, -⟩ := h
      exact ⟨_, by simp only [next, hlist, Option.bind_eq_bind, Option.bind_some]; rfl⟩
    | insert idx newEntry hash newHash =>
      simp only [finish, Option.bind_eq_bind, Option.bind_eq_some_iff] at h
      obtain ⟨p, hlist, -⟩ := h
      exact ⟨_, by simp only [next, hlist, Option.bind_eq_bind, Option.bind_some]; rfl⟩
    | hashRest hash newHash i =>
      simp only [finish, putRest, Option.bind_eq_bind, Option.bind_eq_some_iff] at h
      obtain ⟨_, ⟨hash₁, hhash, newHash₁, hnew, hash₂, hfin, newHash₂, hfin', h⟩, -⟩ := h
      cases hi : b.list[i]? with
      | none =>
        rw [drop_of_none hi, List.map_nil, updates_nil, Option.some.injEq] at hhash hnew
        subst hhash hnew
        cases hne : hash₂.equal b.hash with
        | false => exact absurd h (by simp [hne])
        | true =>
          exact ⟨_, by
            simp only [next, hi, hfin, hfin', hne, Option.bind_eq_bind, Option.bind_some]; rfl⟩
      | some e =>
        simp only [drop_of_some hi, List.map_cons, updates_cons,
          Option.bind_eq_some_iff] at hhash hnew
        obtain ⟨hash', hhash, -⟩ := hhash
        obtain ⟨newHash', hnew, -⟩ := hnew
        exact ⟨_, by simp only [next, hi, hhash, hnew, Option.bind_eq_bind, Option.bind_some]; rfl⟩
    | get | rest => exact absurd h (by simp [finish])

/-- Where a call can be, and what is left of it then. -/
theorem finish_of_reaches {n : Nat} {b₀ : Bucket} (h : (code c n).Reaches op b₀ b l) :
    finish c op b l = finish c op b₀ .enter := by
  induction h with
  | start => rfl
  | next _ hnext ih => exact (finish_next hnext).symm.trans ih

/-- **A call alone is the function of the table.** -/
theorem finish_of_ends {n : Nat} {r : Res} (h : (code c n).Ends op b b' r) :
    finish c op b .enter = some (b', r) := by
  obtain ⟨b₁, l, hreach, hnext⟩ := h
  rw [← finish_of_reaches hreach]
  exact finish_next hnext

/-! ## 4. Steps to the end -/

/-- The steps that a call can still take behind its lock. -/
def stepsLeft (_ : Op) (b : Bucket) : Local → Nat
  | .enter => 2 * b.list.length + 7
  | .get _ _ _ i => 2 * (b.list.length - i) + 2
  | .rest _ _ i => b.list.length - i + 1
  | .find _ _ _ i => b.list.length - i + b.list.length + 6
  | .found _ _ _ => b.list.length + 5
  | .append _ _ _ => 2
  | .copyByte _ => 1
  | .erase _ _ _ _ | .insert _ _ _ _ => b.list.length + 4
  | .hashRest _ _ i => b.list.length - i + 1

theorem length_of_eraseAfter {α : Type} {l l' : List α} {pos : Pos}
    (h : eraseAfter l pos = some l') : l'.length + 1 = l.length := by
  unfold eraseAfter at h
  split at h
  · split at h
    · exact absurd h (by simp)
    · rename_i hne
      obtain rfl := Option.some.inj h
      have hpos : l ≠ [] := fun hnil => hne (by rw [hnil]; rfl)
      have hlt := List.length_pos_iff.mpr hpos
      rw [List.length_tail]
      omega
  · split at h
    · obtain rfl := Option.some.inj h
      simp only [List.length_append, List.length_take, List.length_drop]
      omega
    · exact absurd h (by simp)

theorem length_of_emplaceAfter {α : Type} {l l' : List α} {pos : Pos} {x : α} {i : Nat}
    (h : emplaceAfter l pos x = some (l', i)) : l'.length ≤ l.length + 1 := by
  unfold emplaceAfter at h
  split at h
  · simp only [Option.some.injEq, Prod.mk.injEq] at h
    rw [← h.1, List.length_singleton]
    omega
  · split at h
    · simp only [Option.some.injEq, Prod.mk.injEq] at h
      rw [← h.1]
      simp only [List.length_append, List.length_take, List.length_cons, List.length_drop]
      omega
    · exact absurd h (by simp)

/-- **Every step brings a call closer to its end.** -/
theorem stepsLeft_lt {l' : Local} (h : next c op b l = some (b', .inl l')) :
    stepsLeft op b' l' < stepsLeft op b l := by
  have hlt : ∀ {i : Nat} {e : Entry}, b.list[i]? = some e → i < b.list.length :=
    fun hi => (List.getElem?_eq_some_iff.mp hi).1
  cases op with
  | get key =>
    obtain ⟨rfl, hstep⟩ := get_cases h
    cases hstep with
    | enter | absent | hit =>
      simp only [stepsLeft]
      omega
    | miss hi | rest hi =>
      have hi' := hlt hi
      simp only [stepsLeft]
      omega
  | put key value =>
    cases put_cases h with
    | enter | absent | hit | new | append | replace =>
      simp only [stepsLeft]
      omega
    | miss hi | rest hi =>
      have hi' := hlt hi
      simp only [stepsLeft]
      omega
    | erase hlist =>
      have hlen := length_of_eraseAfter hlist
      simp only [stepsLeft]
      omega
    | insert hlist =>
      have hlen := length_of_emplaceAfter hlist
      simp only [stepsLeft]
      omega

/-! ## 5. The map -/

/-- The map: `put` sets the value of a key, and `get` finds it. -/
def map : Object (List UInt8 → Option (List UInt8)) Op Res where
  init _ := none
  apply m
    | .put key value => (Function.update m key (some value), .put true)
    | .get key =>
      (m, match m key with
        | some value => .get (key ++ value).length (some (key ++ value))
        | none => .get 0 none)

/-- Calls, in any order, for which a bucket loses no key: the bytes are few enough, and where two
keys share a bucket neither is put twice. -/
structure Fine (n : Nat) (ops : List Op) : Prop where
  get : ∀ key, .get key ∈ ops → key.length < 2 ^ 32
  put : ∀ key value, .put key value ∈ ops → Fits key value
  apart : ∀ (i j : Nat) (key v w k u : List UInt8), i ≠ j → ops[i]? = some (.put key v) →
    ops[j]? = some (.put key w) → .put k u ∈ ops → index n k = index n key → k = key

/-- Two keys of different buckets, and a `get` of the first one. -/
def threeCalls : List Op := [.put [1] [7], .put [2] [8], .get [1]]

theorem fine_threeCalls : Fine 2 threeCalls where
  get key hkey := by
    obtain rfl : key = [1] := by simpa [threeCalls] using hkey
    decide
  put key value hput := by
    have hcases : key = [1] ∧ value = [7] ∨ key = [2] ∧ value = [8] := by
      simpa [threeCalls] using hput
    rcases hcases with ⟨rfl, rfl⟩ | ⟨rfl, rfl⟩ <;> simp [Fits]
  apart i j key v w k u hij hi hj _ _ := by
    have hone : ∀ {m : Nat} {x : List UInt8}, threeCalls[m]? = some (.put key x) →
        m = 0 ∧ key = [1] ∨ m = 1 ∧ key = [2] := by
      intro m x hm
      match m with
      | 0 => exact Or.inl ⟨rfl, (Op.put.inj (Option.some.inj hm)).1.symm⟩
      | 1 => exact Or.inr ⟨rfl, (Op.put.inj (Option.some.inj hm)).1.symm⟩
      | 2 => exact absurd hm (by simp [threeCalls])
      | m + 3 => exact absurd hm (by simp [threeCalls])
    rcases hone hi with ⟨rfl, hk⟩ | ⟨rfl, hk⟩ <;> rcases hone hj with ⟨rfl, hk'⟩ | ⟨rfl, hk'⟩
    · exact absurd rfl hij
    · exact absurd (hk.symm.trans hk') (by decide)
    · exact absurd (hk.symm.trans hk') (by decide)
    · exact absurd rfl hij

/-- The operations that have taken effect, with their calls. -/
def points (h : List (Event Op Res)) : List (Nat × Op) :=
  h.filterMap fun
    | .point i o _ => some (i, o)
    | .call _ _ | .ret _ _ _ => none

/-- The operations that have taken effect. -/
def effects (h : List (Event Op Res)) : List Op := (points h).map Prod.snd

variable {h : List (Event Op Res)} {n i : Nat} {o : Op} {r : Res} {ops : List Op}

@[simp] theorem points_concat_point :
    points (h ++ [.point i o r]) = points h ++ [(i, o)] := by
  simp [points]

@[simp] theorem effects_concat_point :
    effects (h ++ [.point i o r]) = effects h ++ [o] := by
  simp [effects]

theorem points_concat {e : Event Op Res} (he : ∀ i o r, e ≠ .point i o r) :
    points (h ++ [e]) = points h := by
  cases e with
  | point i o r => exact absurd rfl (he i o r)
  | call | ret => simp [points]

theorem mem_points : (i, o) ∈ points h ↔ ∃ r, .point i o r ∈ h := by
  simp only [points, List.mem_filterMap]
  constructor
  · rintro ⟨e, he, heq⟩
    cases e with
    | point j o' r =>
      simp only [Option.some.injEq, Prod.mk.injEq] at heq
      obtain ⟨rfl, rfl⟩ := heq
      exact ⟨r, he⟩
    | call | ret => exact absurd heq (by simp)
  · rintro ⟨r, he⟩
    exact ⟨_, he, rfl⟩

/-- The map after a history has the values that were put last. -/
theorem after_map (h : List (Event Op Res)) : map.after h = lastPut (effects h) := by
  induction h using List.reverseRecOn with
  | nil => rfl
  | append_singleton h e ih =>
    rw [Object.after_concat, ih]
    cases e with
    | call | ret => simp [Object.next, effects, points]
    | point i o r =>
      rw [effects_concat_point]
      cases o with
      | get key =>
        funext k
        simp [Object.next, map, lastPut]
      | put key value =>
        funext k
        rw [lastPut_put]
        by_cases hk : key = k
        · subst hk
          simp [Object.next, map]
        · simp [Object.next, map, hk, Function.update_of_ne (Ne.symm hk)]

theorem answer_eq (h : List (Event Op Res)) (o : Op) :
    (map.apply (map.after h) o).2 = answer (effects h) o := by
  rw [after_map]
  cases o with
  | put => rfl
  | get key => rfl

theorem allOk_concat {pre : List Op} (hpre : AllOk n pre) (ho : OpOk n pre o) :
    AllOk n (pre ++ [o]) := by
  intro p o' hp
  rcases List.prefix_concat_iff.mp hp with heq | hp
  · obtain ⟨rfl, hop⟩ := List.append_inj' heq rfl
    obtain rfl : o' = o := by simpa using hop
    exact ho
  · exact hpre p o' hp

/-- What the buckets hold after a history. -/
structure Holds (c : Cipher) (n : Nat) (ops : List Op) (b : Nat → Bucket)
    (h : List (Event Op Res)) : Prop where
  bucket : ∀ i < n, b i = Bucket.sealed c (bucketOf n (effects h) i)
  ok : AllOk n (effects h)
  called : ∀ p ∈ points h, ops[p.1]? = some p.2
  nodup : ((points h).map Prod.fst).Nodup

theorem Holds.small (hc : c.gcm.Lawful) (hs : c.gcm.Streams) (hn : 1 ≤ n) {b : Nat → Bucket}
    (hh : Holds c n ops b h) : Small n (effects h) :=
  (exec_of_allOk hc hs hn hh.ok).2

/-- **An operation loses no key**, whatever came before it. -/
theorem opOk_of_fine (hfine : Fine n ops) {b : Nat → Bucket} (hh : Holds c n ops b h)
    (hi : ops[i]? = some o) (hnew : ∀ o' r', .point i o' r' ∉ h) : OpOk n (effects h) o := by
  have hmem : o ∈ ops := List.mem_of_getElem? hi
  cases o with
  | get key => exact hfine.get key hmem
  | put key value =>
    refine ⟨hfine.put key value hmem, ?_⟩
    rintro ⟨hhead, k, hk, hne⟩
    -- both keys were put by other calls
    have hput : ∀ {k : List UInt8}, k ∈ keysIn n (index n key) (effects h) →
        index n k = index n key ∧ ∃ j u, j ≠ i ∧ ops[j]? = some (.put k u) := by
      intro k hk
      simp only [keysIn, puts, List.mem_filter, List.mem_map, List.mem_filterMap, effects,
        decide_eq_true_eq] at hk
      obtain ⟨⟨⟨k', u⟩, ⟨o', ⟨⟨j, o''⟩, hj, rfl⟩, ho⟩, rfl⟩, hidx⟩ := hk
      refine ⟨hidx, j, u, ?_, ?_⟩
      · rintro rfl
        obtain ⟨r, hr⟩ := mem_points.mp hj
        exact hnew _ r hr
      · cases o'' with
        | get => exact absurd ho (by simp)
        | put =>
          simp only [Option.some.injEq, Prod.mk.injEq] at ho
          obtain ⟨rfl, rfl⟩ := ho
          exact hh.called _ hj
    obtain ⟨-, j, w, hji, hj⟩ := hput (List.mem_of_mem_head? hhead)
    obtain ⟨hidx, m, u, -, hm⟩ := hput hk
    exact hne (hfine.apart i j key value w k u (Ne.symm hji) hi hj (List.mem_of_getElem? hm) hidx)

theorem cell_eq (hn : 1 ≤ n) (hfine : Fine n ops) (ho : o ∈ ops) :
    cell n o = some (index n (match o with | .put key _ => key | .get key => key)) := by
  cases o with
  | get key =>
    have hhash := tableHash_eq key [] hn (hfine.get key ho)
    rwa [List.append_nil] at hhash
  | put key value =>
    have hfits : key.length + value.length < 2 ^ 31 := hfine.put key value ho
    exact tableHash_eq key value hn (by omega)

theorem cell_lt (hn : 1 ≤ n) (hfine : Fine n ops) (ho : o ∈ ops) {k : Nat}
    (hk : cell n o = some k) : k < n := by
  rw [cell_eq hn hfine ho, Option.some.injEq] at hk
  exact hk ▸ index_lt hn

/-- A call alone, on its bucket. -/
theorem finish_eq (hc : c.gcm.Lawful) (hs : c.gcm.Streams) (hn : 1 ≤ n) (hfine : Fine n ops)
    {b : Nat → Bucket} (hh : Holds c n ops b h) (hi : ops[i]? = some o)
    (hnew : ∀ o' r', .point i o' r' ∉ h) {k : Nat} (hk : cell n o = some k) :
    finish c o (b k) .enter =
      some (Bucket.sealed c (bucketOf n (effects h ++ [o]) k), answer (effects h) o) := by
  have hmem : o ∈ ops := List.mem_of_getElem? hi
  have hok := opOk_of_fine hfine hh hi hnew
  rw [cell_eq hn hfine hmem, Option.some.injEq] at hk
  subst hk
  cases o with
  | get key =>
    obtain ⟨r, hget, hr⟩ := Bucket.get_sealed hc hs (hh.small hc hs hn (index n key)) hok
    rw [lookup_bucketOf] at hr
    rw [hh.bucket _ (index_lt hn), bucketOf_get]
    simp only [finish, hget, Option.bind_eq_bind, Option.bind_some, getRes, if_true]
    cases hlast : lastPut (effects h) key with
    | none =>
      rw [hlast] at hr
      rw [answer_none hlast, hr.1, hr.2]
    | some value =>
      rw [hlast] at hr
      rw [answer_some hlast, hr.1, hr.2]
  | put key value =>
    have hput := Bucket.put_sealed hc hs (hh.small hc hs hn (index n key)) hok.1
    rw [hh.bucket _ (index_lt hn), bucketOf_put, Function.update_self]
    simp only [finish, hput, overwrite_of_ok hok, Option.bind_eq_bind, Option.bind_some]
    rfl

/-! ## 6. Every interleaving -/

theorem eq_of_create {t : Table} (ht : Table.create n = some t) :
    t = tableOf c n (bucketOf n []) := by
  have hlt : n < 2 ^ 32 := by
    unfold Table.create at ht
    split at ht
    · assumption
    · exact absurd ht (by simp)
  exact Option.some.inj (ht.symm.trans (create_eq hlt))

theorem Holds.init {t : Table} (ht : Table.create n = some t) :
    Holds c n ops (fun i => t[i]?.getD ⟨[], zeros macSize⟩) [] where
  bucket i hi := by
    rw [eq_of_create (c := c) ht, getElem?_tableOf hi, Option.getD_some]
    rfl
  ok pre op hpre := absurd (List.prefix_nil.mp hpre) (by simp)
  called _ hp := absurd hp List.not_mem_nil
  nodup := List.nodup_nil

theorem Holds.frame {b : Nat → Bucket} {e : Event Op Res} (hh : Holds c n ops b h)
    (he : ∀ i o r, e ≠ .point i o r) : Holds c n ops b (h ++ [e]) := by
  have hpoints := points_concat (h := h) he
  have heffects : effects (h ++ [e]) = effects h := congrArg (List.map Prod.snd) hpoints
  constructor
  · rw [heffects]
    exact hh.bucket
  · rw [heffects]
    exact hh.ok
  · rw [hpoints]
    exact hh.called
  · rw [hpoints]
    exact hh.nodup

/-- An operation leaves the other buckets as they are. -/
theorem bucketOf_of_cell (hn : 1 ≤ n) (hfine : Fine n ops) (ho : o ∈ ops) {pre : List Op}
    {j k : Nat} (hk : cell n o = some k) (hjk : j ≠ k) :
    bucketOf n (pre ++ [o]) j = bucketOf n pre j := by
  rw [cell_eq hn hfine ho, Option.some.injEq] at hk
  subst hk
  cases o with
  | get key => rw [bucketOf_get]
  | put key value => rw [bucketOf_put, Function.update_of_ne hjk]

/-- **An operation takes effect.** -/
theorem Holds.point (hn : 1 ≤ n) (hfine : Fine n ops)
    {b : Nat → Bucket} (hh : Holds c n ops b h) (hi : ops[i]? = some o)
    (hnew : ∀ o' r', .point i o' r' ∉ h) {k : Nat} (hk : cell n o = some k) :
    Holds c n ops (Function.update b k (Bucket.sealed c (bucketOf n (effects h ++ [o]) k)))
      (h ++ [.point i o r]) where
  bucket j hj := by
    rw [effects_concat_point]
    by_cases hjk : j = k
    · subst hjk
      rw [Function.update_self]
    · rw [Function.update_of_ne hjk, hh.bucket j hj,
        bucketOf_of_cell hn hfine (List.mem_of_getElem? hi) hk hjk]
  ok := by
    rw [effects_concat_point]
    exact allOk_concat hh.ok (opOk_of_fine hfine hh hi hnew)
  called p hp := by
    rw [points_concat_point] at hp
    rcases List.mem_append.mp hp with hp | hp
    · exact hh.called p hp
    · rwa [List.mem_singleton.mp hp]
  nodup := by
    rw [points_concat_point, List.map_append, List.nodup_append]
    refine ⟨hh.nodup, List.nodup_singleton _, ?_⟩
    rintro a ha _ hb rfl
    obtain ⟨⟨j, o'⟩, hp, rfl⟩ := List.mem_map.mp ha
    obtain rfl : j = i := List.mem_singleton.mp hb
    obtain ⟨r', hr'⟩ := mem_points.mp hp
    exact hnew o' r' hr'

/-- **Behind the locks**, the calls are the operations of the map. -/
theorem means (hc : c.gcm.Lawful) (hs : c.gcm.Streams) (hn : 1 ≤ n) (hfine : Fine n ops) :
    (code c n).Means map ops (Holds c n ops) where
  reads := by
    intro o b l b' x hshared hnext
    cases o with
    | get key => exact (get_cases hnext).1
    | put key value => exact absurd hshared (by simp [code])
  frame := Holds.frame
  point := by
    intro b h i o k b' r hh hi hnew hk hends
    have hfinish := (finish_of_ends hends).symm.trans (finish_eq hc hs hn hfine hh hi hnew hk)
    simp only [Option.some.injEq, Prod.mk.injEq] at hfinish
    obtain ⟨rfl, rfl⟩ := hfinish
    exact ⟨hh.point hn hfine hi hnew hk, answer_eq h o⟩

/-- The two `put`s take turns, and `get` waits for the first one. -/
def turns : List RwLock.Action :=
  [.call 0, .call 1, .lock 0, .lock 1, .advance 0, .advance 1, .advance 0, .advance 1, .call 2,
    .advance 1, .advance 0, .advance 0, .advance 1, .advance 0, .unlock 0, .lock 2, .advance 2,
    .advance 1, .advance 2, .unlock 1, .advance 2, .ret 1, .advance 2, .ret 0, .unlock 2, .ret 2]

/-- Where they lead. -/
theorem exists_turns : ∃ t s, Table.create 2 = some t ∧
    Run.exec (RwLock.step (code zeroCipher 2)) (init t threeCalls) turns = some s ∧ s.Quiet := by
  let t : Table := [⟨[], zeros macSize⟩, ⟨[], zeros macSize⟩]
  have ht : Table.create 2 = some t := rfl
  have hturns : (Run.exec (RwLock.step (code zeroCipher 2)) (init t threeCalls) turns).any
      (fun s => s.calls.all fun d => !d.pc.holds) = true := by decide +kernel
  obtain ⟨s, hs, hfree⟩ := (Option.any_eq_true _ _).mp hturns
  refine ⟨t, s, ht, hs, ?_⟩
  intro d hd l hl
  have hd' := List.all_eq_true.mp hfree d hd
  rw [hl] at hd'
  exact absurd hd' (by simp [RwLock.Pc.holds])

/-- **The concurrent table is a map**: in every interleaving of the calls' steps, the history is
linearizable, as long as no bucket loses a key. -/
theorem isMap_of_run (hc : c.gcm.Lawful) (hs : c.gcm.Streams) (hn : 1 ≤ n) (hfine : Fine n ops)
    {t : Table} {s : RwLock.State Nat Bucket Op Res Local} (ht : Table.create n = some t)
    (h : RwLock.Run (code c n) (init t ops) s) : map.Linear s.hist :=
  RwLock.linear_of_run (means hc hs hn hfine) (.init ht) h

theorem isMap_of_run_threeCalls : ∃ t s, Table.create 2 = some t ∧
    RwLock.Run (code zeroCipher 2) (init t threeCalls) s ∧ map.Linear s.hist := by
  obtain ⟨t, s, ht, hs, -⟩ := exists_turns
  have hrun := Run.of_exec hs
  exact ⟨t, s, ht, hrun, isMap_of_run zeroCipher_lawful zeroCipher_streams (by decide)
    fine_threeCalls ht hrun⟩

/-- **While no call is at work, the table is the one that the operations leave behind one after the
other**, in the order in which they took effect. -/
theorem exec_effects_of_run (hc : c.gcm.Lawful) (hs : c.gcm.Streams) (hn : 1 ≤ n)
    (hfine : Fine n ops) {t : Table} {s : RwLock.State Nat Bucket Op Res Local}
    (ht : Table.create n = some t) (h : RwLock.Run (code c n) (init t ops) s) (hq : s.Quiet) :
    ∃ t', Run.exec (Hashtable.next c) t (effects s.hist) = some t' ∧ t'.length = n ∧
      ∀ i < n, t'[i]? = some (s.cells i) := by
  have hh := RwLock.rel_of_run (means hc hs hn hfine) (.init ht) h hq
  refine ⟨tableOf c n (bucketOf n (effects s.hist)), ?_, length_tableOf, ?_⟩
  · rw [eq_of_create (c := c) ht]
    exact (exec_of_allOk hc hs hn hh.ok).1
  · intro i hi
    rw [getElem?_tableOf hi, hh.bucket i hi]

theorem exec_effects_of_run_threeCalls : ∃ t s t', Table.create 2 = some t ∧
    RwLock.Run (code zeroCipher 2) (init t threeCalls) s ∧
      Run.exec (Hashtable.next zeroCipher) t (effects s.hist) = some t' ∧ t'.length = 2 ∧
      ∀ i < 2, t'[i]? = some (s.cells i) := by
  obtain ⟨t, s, ht, hs, hq⟩ := exists_turns
  have hrun := Run.of_exec hs
  obtain ⟨t', h⟩ := exec_effects_of_run zeroCipher_lawful zeroCipher_streams (by decide)
    fine_threeCalls ht hrun hq
  exact ⟨t, s, t', ht, hrun, h⟩

/-! ## 7. Every call returns -/

/-- A call of the list has an end, wherever the others are. -/
theorem exists_finish (hc : c.gcm.Lawful) (hs : c.gcm.Streams) (hn : 1 ≤ n) (hfine : Fine n ops)
    {b : Nat → Bucket} (hh : Holds c n ops b h) (ho : o ∈ ops) {k : Nat} (hk : cell n o = some k) :
    ∃ y, finish c o (b k) .enter = some y := by
  rw [cell_eq hn hfine ho, Option.some.injEq] at hk
  subst hk
  rw [hh.bucket _ (index_lt hn)]
  cases o with
  | get key =>
    have hsmall := hh.small hc hs hn (index n key)
    obtain ⟨r, hget, -⟩ := Bucket.get_sealed hc hs hsmall (hfine.get key ho)
    exact ⟨_, by simp only [finish, hget, Option.bind_eq_bind, Option.bind_some]; rfl⟩
  | put key value =>
    have hput := Bucket.put_sealed hc hs (hh.small hc hs hn (index n key)) (hfine.put key value ho)
    exact ⟨_, by simp only [finish, hput, Option.bind_eq_bind, Option.bind_some]; rfl⟩

/-- A bucket has no more entries than there were operations. -/
theorem length_bucketOf_le (n : Nat) (pre : List Op) (i : Nat) :
    (bucketOf n pre i).length ≤ pre.length := by
  have hkeys := keysOf_bucketOf n pre i
  have hsub : keys (bucketOf n pre i) ⊆ keysIn n i pre := fun k hk => (hkeys.mem k).mp hk
  calc (bucketOf n pre i).length = (keys (bucketOf n pre i)).length := (List.length_map _).symm
    _ ≤ (keysIn n i pre).length := (List.subperm_of_subset hkeys.nodup hsub).length_le
    _ ≤ ((puts pre).map Prod.fst).length := List.length_filter_le _ _
    _ = (puts pre).length := List.length_map _
    _ ≤ pre.length := List.length_filterMap_le _ _

/-- Each call takes effect once. -/
theorem Holds.length_le {b : Nat → Bucket} (hh : Holds c n ops b h) :
    (effects h).length ≤ ops.length := by
  have hsub : (points h).map Prod.fst ⊆ List.range ops.length := by
    intro i hi
    obtain ⟨p, hp, rfl⟩ := List.mem_map.mp hi
    exact List.mem_range.mpr (List.getElem?_eq_some_iff.mp (hh.called p hp)).1
  have hle := (List.subperm_of_subset hh.nodup hsub).length_le
  rwa [List.length_map, List.length_range, ← List.length_map (f := Prod.snd)] at hle

theorem goes (hc : c.gcm.Lawful) (hs : c.gcm.Streams) (hn : 1 ≤ n) (hfine : Fine n ops) :
    (code c n).Goes ops (Holds c n ops) stepsLeft (2 * ops.length + 7) where
  cell o ho := ⟨_, cell_eq hn hfine ho⟩
  next := by
    intro b h o k b₁ l hh ho hk hreach
    obtain ⟨y, hy⟩ := exists_finish hc hs hn hfine hh ho hk
    exact exists_next ((finish_of_reaches hreach).trans hy)
  lowers := stepsLeft_lt
  start := by
    intro b h o k hh ho hk
    have hlt : k < n := cell_lt hn hfine ho hk
    have hlen := length_bucketOf_le n (effects h) k
    have hle := hh.length_le
    simp only [code, stepsLeft, hh.bucket k hlt, Bucket.sealed, length_sealAll]
    omega

/-- **Every schedule of the table ends, with all calls returned**: `ops.length` calls take at most
`2 * ops.length + 12` steps each, and until the last one has returned, one of them can go on. -/
theorem callsReturn_of_exec (hc : c.gcm.Lawful) (hs : c.gcm.Streams) (hn : 1 ≤ n)
    (hfine : Fine n ops) {t : Table} {s : RwLock.State Nat Bucket Op Res Local}
    (ht : Table.create n = some t) {as : List RwLock.Action}
    (h : Run.exec (RwLock.step (code c n)) (init t ops) as = some s) :
    as.length ≤ (2 * ops.length + 12) * ops.length ∧
      ((∀ d ∈ s.calls, ∃ r, d.pc = .returned r) ∨ ∃ a u, RwLock.step (code c n) s a = some u) :=
  RwLock.returns_of_exec (means hc hs hn hfine) (goes hc hs hn hfine) (.init ht) h

theorem callsReturn_of_exec_threeCalls : ∃ t s, Table.create 2 = some t ∧
    Run.exec (RwLock.step (code zeroCipher 2)) (init t threeCalls) turns = some s ∧
    turns.length ≤ 54 ∧
      ((∀ d ∈ s.calls, ∃ r, d.pc = .returned r) ∨
        ∃ a u, RwLock.step (code zeroCipher 2) s a = some u) := by
  obtain ⟨t, s, ht, hs, -⟩ := exists_turns
  exact ⟨t, s, ht, hs, callsReturn_of_exec zeroCipher_lawful zeroCipher_streams (by decide)
    fine_threeCalls ht hs⟩

end Avocado.Hashtable.Locked
