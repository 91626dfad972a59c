/-
# The memtable as its callers see it (`memtable.h`, `memtable.cpp`)

`KV_store` is a map from byte keys to `MetaData` in which the entry with the highest clock wins.
This file is the SEQUENTIAL store: `put` and `get` take effect at once and the slab memory is
honest, so a value that was encrypted decrypts.  The protocol is stated over it.  The concurrent
store, with its skip list, its compare-exchange loop and a host that may tamper with the slab, is
`Memtable/Concurrent.lean`; `Memtable/Linearizable.lean` proves that it takes effect as this one
does.

Two facts carry the protocol proofs: `put` never lowers the clock of any key (`clockOf_le_put`),
and after `put` with clock `t` the key's clock is at least `t` (`le_clockOf_put`).
-/
import Avocado.Msg

namespace Avocado

/-- `struct MetaData`: the clock, and the value that the slab chunk holds in encrypted form.
`data_size` is the value's length. -/
structure MetaData where
  clock : Lamport
  data : List UInt8
  deriving DecidableEq, Repr

/-- `struct VarKeySizeNode`; `key_size` is the key's length. -/
structure Node where
  key : List UInt8
  metaData : MetaData
  deriving DecidableEq, Repr

/-- `KV_store::Ret_value`. -/
structure RetValue where
  lamport : Lamport
  size : Nat
  value : Ptr
  deriving DecidableEq, Repr

/-- The answer for an absent key: `{Lamport{0}, 0, nullptr}`. -/
def RetValue.absent : RetValue := ⟨Lamport.min, 0, none⟩

/-- `Span(KV_BUF const & msg)`. -/
def RetValue.toSpan (r : RetValue) : Span := ⟨r.size, r.value⟩

/-- `KV_store::decrypt_node`; `decrypts` is what `cipher.decrypt` returns for the chunk. -/
def decryptNode (m : MetaData) (decrypts : Bool) : RetValue :=
  if decrypts then ⟨m.clock, m.data.length, some m.data⟩ else .absent

/-- `KV_store::create_node`. -/
def createNode (key value : Span) (clock : Lamport) : Option Node := do
  let k ← key.bytes
  let v ← value.bytes
  some ⟨k, ⟨clock, v⟩⟩

/-- `class KV_store`: `find` is the skip list, as the map it represents. -/
@[ext] structure KVStore where
  find : List UInt8 → Option MetaData

namespace KVStore

/-- The store a server starts with. -/
def empty : KVStore := ⟨fun _ => none⟩

/-- The store with `m` under `key`. -/
def set (kv : KVStore) (key : List UInt8) (m : MetaData) : KVStore :=
  ⟨fun k => if k = key then some m else kv.find k⟩

/-- `KV_store::put`: insert an absent key, replace an entry with an older clock. -/
def put (kv : KVStore) (key value : List UInt8) (clock : Lamport) : KVStore × Bool :=
  match kv.find key with
  | none => (kv.set key ⟨clock, value⟩, true)
  | some old => if old.clock < clock then (kv.set key ⟨clock, value⟩, true) else (kv, false)

/-- `KV_store::get`. -/
def get (kv : KVStore) (key : List UInt8) : RetValue :=
  match kv.find key with
  | none => .absent
  | some m => decryptNode m true

/-- The clock the store reports for a key. -/
def clockOf (kv : KVStore) (key : List UInt8) : Lamport := (kv.get key).lamport

variable {kv : KVStore} {key key' value : List UInt8} {clock : Lamport} {m : MetaData}

@[simp] theorem find_set_self (kv : KVStore) (key : List UInt8) (m : MetaData) :
    (kv.set key m).find key = some m := if_pos rfl

theorem find_set_of_ne (h : key' ≠ key) : (kv.set key m).find key' = kv.find key' := if_neg h

theorem get_of_some (h : kv.find key = some m) :
    kv.get key = ⟨m.clock, m.data.length, some m.data⟩ := by
  rw [get, h]
  rfl

theorem get_of_none (h : kv.find key = none) : kv.get key = .absent := by
  rw [get, h]

theorem clockOf_of_some (h : kv.find key = some m) : kv.clockOf key = m.clock := by
  rw [clockOf, get_of_some h]

theorem clockOf_of_none (h : kv.find key = none) : kv.clockOf key = Lamport.min := by
  rw [clockOf, get_of_none h]
  rfl

theorem clockOf_congr {kv' : KVStore} (h : kv'.find key = kv.find key) :
    kv'.clockOf key = kv.clockOf key := by
  rw [clockOf, clockOf, get, get, h]

@[simp] theorem get_lamport : (kv.get key).lamport = kv.clockOf key := rfl

/-- **What `put` can do**: nothing, when the key's entry is at least as new; or store the new
entry under the key, when it is absent or older. -/
theorem put_cases (kv : KVStore) (key value : List UInt8) (clock : Lamport) :
    (kv.put key value clock = (kv, false) ∧ (kv.find key).isSome ∧ clock ≤ kv.clockOf key) ∨
    (kv.put key value clock = (kv.set key ⟨clock, value⟩, true) ∧
      (kv.find key = none ∨ kv.clockOf key < clock)) := by
  cases hk : kv.find key with
  | none => exact Or.inr ⟨by simp [put, hk], Or.inl rfl⟩
  | some old =>
    rw [clockOf_of_some hk]
    by_cases h : old.clock < clock
    · exact Or.inr ⟨by simp [put, hk, h], Or.inr h⟩
    · exact Or.inl ⟨by simp [put, hk, h], rfl, not_lt.mp h⟩

/-- After a `put` the key's clock is at least the one that was put. -/
theorem le_clockOf_put (kv : KVStore) (key value : List UInt8) (clock : Lamport) :
    clock ≤ (kv.put key value clock).1.clockOf key := by
  rcases put_cases kv key value clock with ⟨h, -, hle⟩ | ⟨h, -⟩
  · rw [h]; exact hle
  · rw [h, clockOf_of_some (find_set_self _ _ _)]

/-- **`put` never lowers a clock**, of its own key or any other. -/
theorem clockOf_le_put (kv : KVStore) (key value : List UInt8) (clock : Lamport)
    (key' : List UInt8) : kv.clockOf key' ≤ (kv.put key value clock).1.clockOf key' := by
  rcases put_cases kv key value clock with ⟨h, -, -⟩ | ⟨h, hold⟩
  · rw [h]
  · rw [h]
    by_cases hk : key' = key
    · subst hk
      rw [clockOf_of_some (find_set_self _ _ _)]
      rcases hold with hnone | hlt
      · rw [clockOf_of_none hnone]; exact Lamport.min_le _
      · exact le_of_lt hlt
    · rw [clockOf_congr (find_set_of_ne hk)]

/-- An entry after a `put` was there before or is the one that was put. -/
theorem put_some (h : (kv.put key value clock).1.find key' = some m) :
    kv.find key' = some m ∨ (key' = key ∧ m = ⟨clock, value⟩) := by
  rcases put_cases kv key value clock with ⟨he, -, -⟩ | ⟨he, -⟩
  · rw [he] at h; exact Or.inl h
  · rw [he] at h
    by_cases hk : key' = key
    · subst hk
      rw [find_set_self] at h
      exact Or.inr ⟨rfl, (Option.some.inj h).symm⟩
    · rw [find_set_of_ne hk] at h
      exact Or.inl h

/-- A key's clock after a `put` is the one before or the one that was put under it. -/
theorem clockOf_put_cases (kv : KVStore) (key value : List UInt8) (clock : Lamport)
    (key' : List UInt8) : (kv.put key value clock).1.clockOf key' = kv.clockOf key' ∨
      (key' = key ∧ (kv.put key value clock).1.clockOf key' = clock) := by
  rcases put_cases kv key value clock with ⟨he, -⟩ | ⟨he, -⟩
  · rw [he]
    exact Or.inl rfl
  · rw [he]
    by_cases hk : key' = key
    · subst hk
      exact Or.inr ⟨rfl, clockOf_of_some (find_set_self _ _ _)⟩
    · exact Or.inl (clockOf_congr (find_set_of_ne hk))

end KVStore

end Avocado
