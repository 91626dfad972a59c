/-
# The hash table as a map

A table that only `put` has written is a family of association lists, one for each bucket
(`tableOf`), and the bucket of a key is fixed by the key and the number of buckets.  So the table is
a map as long as each bucket is one, and a bucket is one until its FIRST key is put again while
others are in it: `overwrite` then leaves that key alone in the bucket, and the others are gone.

`isMap_iff` says that this, with the lengths that `unsigned` loops and EVP can handle, is all that
goes wrong: the table answers every operation of a sequence as the map does, and holds what the map
holds in between, if and only if no `put` of the sequence is of that kind.
-/
import Avocado.Hashtable.Bucket
import Avocado.Lib.Run
import Mathlib.Data.List.Induction
import Mathlib.Data.List.Infix
import Mathlib.Data.List.Nodup
import Mathlib.Logic.Function.Basic

namespace Avocado.Hashtable

open Bytes AssocList

/-! ## 1. Tables of association lists -/

/-- The bucket of a key, among `n`. -/
def index (n : Nat) (key : List UInt8) : Nat := (hashBytes 7 61 key).toNat % n

/-- The table whose buckets have the entries of these lists. -/
def tableOf (c : Cipher) (n : Nat) (f : Nat → List (List UInt8 × List UInt8)) : Table :=
  (List.range n).map fun i => Bucket.sealed c (f i)

variable {c : Cipher} {n : Nat} {key value : List UInt8}
  {f : Nat → List (List UInt8 × List UInt8)}

theorem length_tableOf : (tableOf c n f).length = n := by
  rw [tableOf, List.length_map, List.length_range]

theorem getElem?_tableOf {i : Nat} (hi : i < n) :
    (tableOf c n f)[i]? = some (Bucket.sealed c (f i)) := by
  rw [tableOf, List.getElem?_map, List.getElem?_range hi, Option.map_some]

theorem set_tableOf {i : Nat} (l : List (List UInt8 × List UInt8)) :
    (tableOf c n f).set i (Bucket.sealed c l) = tableOf c n (Function.update f i l) := by
  apply List.ext_getElem?
  intro j
  by_cases hj : j < n
  · rw [List.getElem?_set, length_tableOf, getElem?_tableOf hj, getElem?_tableOf hj]
    by_cases hij : i = j
    · subst hij
      rw [if_pos rfl, if_pos hj, Function.update_self]
    · rw [if_neg hij, Function.update_of_ne (Ne.symm hij)]
  · have hlen : ∀ t : Table, t.length = n → t[j]? = none :=
      fun t ht => List.getElem?_eq_none (by omega)
    rw [hlen _ (by rw [List.length_set, length_tableOf]), hlen _ length_tableOf]

theorem index_lt (hn : 1 ≤ n) : index n key < n := Nat.mod_lt _ hn

theorem tableHash_eq (key rest : List UInt8) (hn : 1 ≤ n) (hkey : key.length < 2 ^ 32) :
    Table.hash n key.length (key ++ rest) = some (index n key) := by
  have hpos : n > 0 := hn
  rw [Table.hash, if_pos hpos, hash_eq 7 61 rest hkey]
  rfl

theorem pos_of_tableHash {i keySize : Nat} {buf : List UInt8}
    (h : Table.hash n keySize buf = some i) : 1 ≤ n := by
  unfold Table.hash at h
  split at h
  · assumption
  · exact absurd h (by simp)

/-- A key that is too long is not hashed. -/
theorem key_lt_of_tableHash {i keySize : Nat} {buf : List UInt8}
    (h : Table.hash n keySize buf = some i) : keySize < 2 ^ 32 := by
  unfold Table.hash hash_ at h
  split at h
  · split at h
    · assumption
    · exact absurd h (by simp)
  · exact absurd h (by simp)

/-- **`get` looks in the key's list.** -/
theorem Table.get_tableOf (hc : c.gcm.Lawful) (hs : c.gcm.Streams) (hn : 1 ≤ n)
    (hf : AllFit (f (index n key))) (hkey : key.length < 2 ^ 32) :
    ∃ r, (tableOf c n f).get c key.length key = some r ∧ r.Is key (lookup key (f (index n key))) := by
  have hhash := tableHash_eq key [] hn hkey
  rw [List.append_nil] at hhash
  obtain ⟨r, hget, hr⟩ := Bucket.get_sealed hc hs hf hkey
  refine ⟨r, ?_, hr⟩
  simp only [get, length_tableOf, hhash, getElem?_tableOf (index_lt hn), hget, Option.bind_eq_bind,
    Option.bind_some, if_true]

/-- **`put` changes the key's list**, and no other. -/
theorem Table.put_tableOf (hc : c.gcm.Lawful) (hs : c.gcm.Streams) (hn : 1 ≤ n)
    (hf : AllFit (f (index n key))) (hfits : Fits key value) :
    (tableOf c n f).put c key.length value.length (key ++ value) (fun _ => true) =
      some (true, tableOf c n
        (Function.update f (index n key) (overwrite key value (f (index n key))))) := by
  have hlt : key.length + value.length < 2 ^ 31 := hfits
  have hhash := tableHash_eq key value hn (by omega)
  have hput := Bucket.put_sealed hc hs hf hfits
  simp only [put, length_tableOf, hhash, getElem?_tableOf (index_lt hn), hput, Option.bind_eq_bind,
    Option.bind_some, set_tableOf]

/-! ## 2. What `get` can return at all -/

/-- A key and value that is returned was decrypted in one call. -/
theorem Entry.length_lt_of_plain {e : Entry} {keyHash : BitVec 8} {keySize : Nat}
    {kv : List UInt8} (h : e.plain c keyHash keySize key = some (some kv)) :
    kv.length < 2 ^ 31 := by
  unfold plain at h
  split at h
  · exact absurd h (by simp)
  · split at h
    · simp only [compare, Option.bind_eq_bind, Option.bind_eq_some_iff] at h
      obtain ⟨_, _, _, _, h⟩ := h
      split at h
      · simp only [get, Option.bind_eq_bind, Option.bind_eq_some_iff, Option.some.injEq] at h
        obtain ⟨⟨ok, res⟩, hdec, h⟩ := h
        cases ok with
        | false => exact absurd h (by simp)
        | true =>
          obtain ⟨hsize, hres⟩ := Cipher.decrypt_size hdec
          have hlt : e.size < 2 ^ 32 := (e.keySize + e.valSize).isLt
          have hkv : kv = res := by simpa using h.symm
          rw [hkv, hres, length_zeros]
          omega
      · exact absurd h (by simp)
    · exact absurd h (by simp)

theorem length_lt_of_getLoop {keyHash : BitVec 8} {keySize : Nat} {es : List Entry}
    {hash hash' : HashSsl} {last : Pos} {r : RetValue} {kv : List UInt8}
    (h : getLoop c keyHash keySize key hash last es = some (r, hash')) (hkv : r.kv = some kv) :
    kv.length < 2 ^ 31 := by
  induction es generalizing hash last with
  | nil =>
    simp only [getLoop, Option.some.injEq, Prod.mk.injEq] at h
    obtain ⟨rfl, -⟩ := h
    exact absurd hkv (by simp)
  | cons e es ih =>
    simp only [getLoop, Option.bind_eq_bind, Option.bind_eq_some_iff] at h
    obtain ⟨found, hfound, h⟩ := h
    cases found with
    | none =>
      simp only [Option.bind_eq_some_iff] at h
      obtain ⟨_, _, h⟩ := h
      exact ih h
    | some kv' =>
      simp only [Option.bind_eq_some_iff, Option.some.injEq, Prod.mk.injEq] at h
      obtain ⟨_, _, rfl, -⟩ := h
      rw [Option.some.injEq] at hkv
      subst hkv
      exact Entry.length_lt_of_plain hfound

theorem Table.length_lt_of_get {t : Table} {keySize : Nat} {r : RetValue} {kv : List UInt8}
    (h : t.get c keySize key = some r) (hkv : r.kv = some kv) : kv.length < 2 ^ 31 := by
  simp only [get, Bucket.get, Option.bind_eq_bind, Option.bind_eq_some_iff, Option.some.injEq,
    Prod.exists, Prod.mk.injEq] at h
  obtain ⟨_, -, b, -, res, ok, ⟨_, -, res', hash, hloop, rfl, -⟩, rfl⟩ := h
  cases ok with
  | false => exact absurd hkv (by simp)
  | true => exact length_lt_of_getLoop hloop hkv

/-! ## 3. Operations and what they should answer -/

/-- `put` with the default predicate, or `get`. -/
inductive Op
  | put (key value : List UInt8)
  | get (key : List UInt8)
  deriving DecidableEq

/-- What an operation returns; of a `Ret_value`, the bytes and their number. -/
inductive Res
  | put (ok : Bool)
  | get (size : Nat) (kv : Option (List UInt8))
  deriving DecidableEq

def step (c : Cipher) (t : Table) : Op → Option (Table × Res)
  | .put key value => do
    let (ok, t) ← t.put c key.length value.length (key ++ value) fun _ => true
    some (t, .put ok)
  | .get key => do
    let r ← t.get c key.length key
    some (t, .get r.size r.kv)

def next (c : Cipher) (t : Table) (op : Op) : Option Table := (step c t op).map Prod.fst

/-- The keys and values that were put, in order. -/
def puts : List Op → List (List UInt8 × List UInt8) :=
  List.filterMap fun
    | .put key value => some (key, value)
    | .get _ => none

/-- The value of the last `put` of a key. -/
def lastPut (ops : List Op) (key : List UInt8) : Option (List UInt8) :=
  ((puts ops).reverse.find? fun e => e.1 = key).map Prod.snd

/-- The answer of the map after some operations. -/
def answer (ops : List Op) : Op → Res
  | .put _ _ => .put true
  | .get key =>
    match lastPut ops key with
    | some value => .get (key ++ value).length (some (key ++ value))
    | none => .get 0 none

/-- **The table is a map** during a sequence of operations: each of them gets the map's answer, and
between them the table has the map's answer for every key. -/
def IsMap (c : Cipher) (n : Nat) (ops : List Op) : Prop :=
  ∃ t₀, Table.create n = some t₀ ∧ ∀ pre, pre <+: ops →
    ∃ t, Run.exec (next c) t₀ pre = some t ∧
      (∀ op, pre ++ [op] <+: ops → (step c t op).map Prod.snd = some (answer pre op)) ∧
      ∀ key : List UInt8, key.length < 2 ^ 32 →
        (step c t (.get key)).map Prod.snd = some (answer pre (.get key))

/-- The keys that were put into a bucket, in order. -/
def keysIn (n i : Nat) (ops : List Op) : List (List UInt8) :=
  ((puts ops).map Prod.fst).filter fun key => index n key = i

/-- An operation that the table can do: the bytes are few enough; and a `put` is not one of the
bucket's first key when another key is in the bucket. -/
def OpOk (n : Nat) (pre : List Op) : Op → Prop
  | .put key value => Fits key value ∧
      ¬((keysIn n (index n key) pre).head? = some key ∧
        ∃ k ∈ keysIn n (index n key) pre, k ≠ key)
  | .get key => key.length < 2 ^ 32

/-- All operations of a sequence are of that kind. -/
def AllOk (n : Nat) (ops : List Op) : Prop := ∀ pre op, pre ++ [op] <+: ops → OpOk n pre op

theorem AllOk.of_le {pre ops : List Op} (h : AllOk n ops) (hpre : pre <+: ops) : AllOk n pre :=
  fun p op hp => h p op (hp.trans hpre)

/-! ## 4. The lists that the puts make -/

/-- The map's entries in one bucket. -/
def bucketOf (n : Nat) (ops : List Op) (i : Nat) : List (List UInt8 × List UInt8) :=
  (puts ops).foldl (fun l e => if index n e.1 = i then AssocList.put e.1 e.2 l else l) []

variable {ops : List Op}

@[simp] theorem puts_put : puts (ops ++ [.put key value]) = puts ops ++ [(key, value)] := by
  simp [puts]

@[simp] theorem puts_get : puts (ops ++ [.get key]) = puts ops := by
  simp [puts]

theorem bucketOf_put : bucketOf n (ops ++ [.put key value]) =
    Function.update (bucketOf n ops) (index n key)
      (AssocList.put key value (bucketOf n ops (index n key))) := by
  funext i
  rw [bucketOf, puts_put, List.foldl_append, List.foldl_cons, List.foldl_nil]
  by_cases hi : index n key = i
  · subst hi
    rw [if_pos rfl, Function.update_self, bucketOf]
  · rw [if_neg hi, Function.update_of_ne (Ne.symm hi), bucketOf]

theorem bucketOf_get : bucketOf n (ops ++ [.get key]) = bucketOf n ops := by
  funext i
  rw [bucketOf, puts_get, bucketOf]

theorem keysIn_put (i : Nat) : keysIn n i (ops ++ [.put key value]) =
    if index n key = i then keysIn n i ops ++ [key] else keysIn n i ops := by
  simp only [keysIn, puts_put, List.map_append, List.filter_append, List.map_cons, List.map_nil]
  by_cases hi : index n key = i <;> simp [hi]

theorem keysIn_get (i : Nat) : keysIn n i (ops ++ [.get key]) = keysIn n i ops := by
  rw [keysIn, puts_get, keysIn]

/-- **A bucket's keys** are those that were put into it, each once, and the first one stays in
front. -/
structure KeysOf (ks : List (List UInt8)) (l : List (List UInt8 × List UInt8)) : Prop where
  nodup : (keys l).Nodup
  head : (keys l).head? = ks.head?
  mem : ∀ k, k ∈ keys l ↔ k ∈ ks

theorem KeysOf.put {ks : List (List UInt8)} {l : List (List UInt8 × List UInt8)}
    (h : KeysOf ks l) : KeysOf (ks ++ [key]) (AssocList.put key value l) := by
  by_cases hkey : key ∈ keys l
  · have hne : ks ≠ [] := List.ne_nil_of_mem ((h.mem key).mp hkey)
    refine ⟨?_, ?_, ?_⟩
    · rw [keys_put, if_pos hkey]
      exact h.nodup
    · rw [keys_put, if_pos hkey, h.head, List.head?_append_of_ne_nil _ hne]
    · intro k
      rw [keys_put, if_pos hkey, h.mem, List.mem_append, List.mem_singleton]
      constructor
      · exact Or.inl
      · rintro (hk | rfl)
        · exact hk
        · exact (h.mem k).mp hkey
  · refine ⟨?_, ?_, ?_⟩
    · rw [keys_put, if_neg hkey, List.nodup_append]
      refine ⟨h.nodup, List.nodup_singleton _, ?_⟩
      intro a ha b hb hab
      rw [List.mem_singleton] at hb
      exact hkey (hb ▸ hab ▸ ha)
    · rw [keys_put, if_neg hkey, List.head?_append, List.head?_append, h.head]
    · intro k
      rw [keys_put, if_neg hkey, List.mem_append, List.mem_append, h.mem]

theorem keysOf_bucketOf (n : Nat) (ops : List Op) (i : Nat) :
    KeysOf (keysIn n i ops) (bucketOf n ops i) := by
  induction ops using List.reverseRecOn with
  | nil => exact ⟨List.nodup_nil, rfl, fun _ => Iff.rfl⟩
  | append_singleton ops op ih =>
    cases op with
    | get key => rwa [keysIn_get, bucketOf_get]
    | put key value =>
      rw [keysIn_put, bucketOf_put]
      by_cases hi : index n key = i
      · subst hi
        rw [if_pos rfl, Function.update_self]
        exact ih.put
      · rwa [if_neg hi, Function.update_of_ne (Ne.symm hi)]

theorem lastPut_put (k : List UInt8) : lastPut (ops ++ [.put key value]) k =
    if key = k then some value else lastPut ops k := by
  rw [lastPut, puts_put, List.reverse_append, List.reverse_singleton, List.singleton_append,
    List.find?_cons]
  by_cases hk : key = k <;> simp [hk, lastPut]

/-- **The bucket of a key has the last value that was put.** -/
theorem lookup_bucketOf (ops : List Op) :
    lookup key (bucketOf n ops (index n key)) = lastPut ops key := by
  induction ops using List.reverseRecOn with
  | nil => rfl
  | append_singleton ops op ih =>
    cases op with
    | get k => rw [bucketOf_get, ih, lastPut, lastPut, puts_get]
    | put k v =>
      rw [lastPut_put, bucketOf_put]
      by_cases hk : k = key
      · subst hk
        rw [if_pos rfl, Function.update_self, lookup_put_self]
      · rw [if_neg hk]
        by_cases hi : index n key = index n k
        · rw [hi, Function.update_self, lookup_put_of_ne (Ne.symm hk), ← hi, ih]
        · rw [Function.update_of_ne hi, ih]

/-! ## 5. When the table is a map -/

/-- In front of other keys, a bucket's first key takes their place; everywhere else `put` is the
map's. -/
theorem overwrite_of_ok (hok : OpOk n ops (.put key value)) :
    overwrite key value (bucketOf n ops (index n key)) =
      AssocList.put key value (bucketOf n ops (index n key)) := by
  obtain ⟨-, hfirst⟩ := hok
  have hk := keysOf_bucketOf n ops (index n key)
  unfold overwrite
  split
  · rename_i hhead
    have halone : ∀ k ∈ keys (bucketOf n ops (index n key)), k = key := by
      intro k hmem
      by_contra hne
      exact hfirst ⟨hk.head ▸ hhead, k, (hk.mem k).mp hmem, hne⟩
    have hnodup := hk.nodup
    generalize bucketOf n ops (index n key) = l at *
    cases l with
    | nil => rfl
    | cons e l =>
      have he : e.1 = key := halone _ List.mem_cons_self
      have hnil : l = [] := by
        cases l with
        | nil => rfl
        | cons e' l =>
          have he' : e'.1 = key := halone _ (List.mem_cons_of_mem _ List.mem_cons_self)
          exact absurd (he'.trans he.symm ▸ List.mem_cons_self) (List.nodup_cons.mp hnodup).1
      rw [hnil, AssocList.put, if_pos he]
  · rfl

/-- Every entry of the buckets fits. -/
def Small (n : Nat) (ops : List Op) : Prop := ∀ i, AllFit (bucketOf n ops i)

theorem Small.put (h : Small n ops) (hfits : Fits key value) :
    Small n (ops ++ [.put key value]) := by
  intro i
  rw [bucketOf_put]
  by_cases hi : i = index n key
  · subst hi
    rw [Function.update_self]
    exact (h _).put hfits
  · rw [Function.update_of_ne hi]
    exact h i

theorem answer_none (h : lastPut ops key = none) : answer ops (.get key) = .get 0 none := by
  simp only [answer, h]

theorem answer_some (h : lastPut ops key = some value) :
    answer ops (.get key) = .get (key ++ value).length (some (key ++ value)) := by
  simp only [answer, h]

/-- `get` gets the map's answer. -/
theorem step_get (hc : c.gcm.Lawful) (hs : c.gcm.Streams) (hn : 1 ≤ n) (hsmall : Small n ops)
    (hkey : key.length < 2 ^ 32) :
    step c (tableOf c n (bucketOf n ops)) (.get key) =
      some (tableOf c n (bucketOf n ops), answer ops (.get key)) := by
  obtain ⟨r, hget, hr⟩ := Table.get_tableOf hc hs hn (hsmall (index n key)) hkey
  rw [lookup_bucketOf] at hr
  have hres : Res.get r.size r.kv = answer ops (.get key) := by
    cases hlast : lastPut ops key with
    | none =>
      rw [hlast] at hr
      rw [answer_none hlast, hr.1, hr.2]
    | some value =>
      rw [hlast] at hr
      rw [answer_some hlast, hr.1, hr.2]
  simp only [step, hget, hres, Option.bind_eq_bind, Option.bind_some]

/-- `put` succeeds. -/
theorem step_put (hc : c.gcm.Lawful) (hs : c.gcm.Streams) (hn : 1 ≤ n) (hsmall : Small n ops)
    (hfits : Fits key value) :
    step c (tableOf c n (bucketOf n ops)) (.put key value) =
      some (tableOf c n (Function.update (bucketOf n ops) (index n key)
        (overwrite key value (bucketOf n ops (index n key)))), .put true) := by
  have hput := Table.put_tableOf hc hs hn (hsmall (index n key)) hfits
  simp only [step, hput, Option.bind_eq_bind, Option.bind_some]

/-- An operation that is ok gets the map's answer, and the table becomes the map's. -/
theorem step_of_ok (hc : c.gcm.Lawful) (hs : c.gcm.Streams) (hn : 1 ≤ n) (hsmall : Small n ops)
    {op : Op} (hok : OpOk n ops op) :
    step c (tableOf c n (bucketOf n ops)) op =
        some (tableOf c n (bucketOf n (ops ++ [op])), answer ops op) ∧
      Small n (ops ++ [op]) := by
  cases op with
  | get key =>
    have hb : bucketOf n (ops ++ [.get key]) = bucketOf n ops := bucketOf_get
    refine ⟨?_, ?_⟩
    · rw [step_get hc hs hn hsmall hok, hb]
    · intro i
      rw [hb]
      exact hsmall i
  | put key value =>
    refine ⟨?_, hsmall.put hok.1⟩
    rw [step_put hc hs hn hsmall hok.1, overwrite_of_ok hok, ← bucketOf_put]
    rfl

/-- **A run of such operations** leads to the map's table. -/
theorem exec_of_allOk (hc : c.gcm.Lawful) (hs : c.gcm.Streams) (hn : 1 ≤ n) (hok : AllOk n ops) :
    Run.exec (next c) (tableOf c n (bucketOf n [])) ops = some (tableOf c n (bucketOf n ops)) ∧
      Small n ops := by
  induction ops using List.reverseRecOn with
  | nil => exact ⟨rfl, fun _ _ he => absurd he List.not_mem_nil⟩
  | append_singleton ops op ih =>
    obtain ⟨hexec, hsmall⟩ := ih (hok.of_le (List.prefix_append _ _))
    obtain ⟨hstep, hsmall'⟩ := step_of_ok hc hs hn hsmall (hok ops op List.prefix_rfl)
    refine ⟨Run.exec_concat.mpr ⟨_, hexec, ?_⟩, hsmall'⟩
    rw [next, hstep, Option.map_some]

theorem create_eq (h : n < 2 ^ 32) : Table.create n = some (tableOf c n (bucketOf n [])) := by
  have hmap : (List.range n).map (fun _ => Bucket.sealed c []) =
      List.replicate n (Bucket.sealed c []) := by
    rw [List.map_const', List.length_range]
  rw [Table.create, if_pos h]
  exact congrArg some hmap.symm

theorem key_lt_of_step {t : Table} {p : Table × Res} {op : Op} (h : step c t op = some p) :
    match op with
    | .put key _ => key.length < 2 ^ 32
    | .get key => key.length < 2 ^ 32 := by
  cases op with
  | get key =>
    simp only [step, Table.get, Option.bind_eq_bind, Option.bind_eq_some_iff] at h
    obtain ⟨_, ⟨_, hhash, _⟩, _⟩ := h
    exact key_lt_of_tableHash hhash
  | put key value =>
    simp only [step, Table.put, Option.bind_eq_bind, Option.bind_eq_some_iff] at h
    obtain ⟨_, ⟨_, hhash, _⟩, _⟩ := h
    exact key_lt_of_tableHash hhash

/-- A key and value that `get` gave back are few enough bytes. -/
theorem fits_of_answer {t : Table}
    (h : (step c t (.get key)).map Prod.snd =
      some (.get (key ++ value).length (some (key ++ value)))) : Fits key value := by
  simp only [step, Option.bind_eq_bind, Option.map_eq_some_iff, Option.bind_eq_some_iff] at h
  obtain ⟨_, ⟨r, hget, hr⟩, h⟩ := h
  rw [← Option.some.inj hr] at h
  have hkv : r.kv = some (key ++ value) := (Res.get.inj h).2
  have hlt := Table.length_lt_of_get hget hkv
  rwa [List.length_append] at hlt

/-- **A `put` of the first key loses the others.** -/
theorem lost_of_first (hc : c.gcm.Lawful) (hs : c.gcm.Streams) (hn : 1 ≤ n) (hsmall : Small n ops)
    (hfits : Fits key value) {k : List UInt8}
    (hhead : (keysIn n (index n key) ops).head? = some key)
    (hk : k ∈ keysIn n (index n key) ops) (hne : k ≠ key) :
    k.length < 2 ^ 32 ∧ ∃ t, step c (tableOf c n (bucketOf n ops)) (.put key value) =
      some (t, .put true) ∧
      (step c t (.get k)).map Prod.snd = some (.get 0 none) ∧
      ∃ v, lastPut (ops ++ [.put key value]) k = some v := by
  have hkeys := keysOf_bucketOf n ops (index n key)
  have hmem : k ∈ keys (bucketOf n ops (index n key)) := (hkeys.mem k).mpr hk
  have hindex : index n k = index n key := of_decide_eq_true (List.mem_filter.mp hk).2
  have hlt : k.length < 2 ^ 32 := by
    obtain ⟨e, he, rfl⟩ := List.mem_map.mp hmem
    have hfit : e.1.length + e.2.length < 2 ^ 31 := hsmall _ e he
    omega
  have hover : overwrite key value (bucketOf n ops (index n key)) = [(key, value)] :=
    if_pos (hkeys.head.trans hhead)
  have hstep := step_put hc hs hn hsmall hfits
  rw [hover] at hstep
  refine ⟨hlt, _, hstep, ?_, ?_⟩
  · have hf : Function.update (bucketOf n ops) (index n key) [(key, value)] (index n k) =
        [(key, value)] := by rw [hindex, Function.update_self]
    have hfit : AllFit (Function.update (bucketOf n ops) (index n key) [(key, value)]
        (index n k)) := by
      rw [hf]
      intro e he
      rw [List.mem_singleton.mp he]
      exact hfits
    obtain ⟨r, hget, hr⟩ := Table.get_tableOf hc hs hn hfit hlt
    have hnone : lookup k [(key, value)] = none :=
      lookup_eq_none_iff.mpr (not_mem_keys_cons.mpr ⟨hne.symm, List.not_mem_nil⟩)
    rw [hf, hnone] at hr
    simp only [step, hget, hr.1, hr.2, Option.bind_eq_bind, Option.bind_some, Option.map_some]
  · rw [lastPut_put, if_neg hne.symm, ← lookup_bucketOf (n := n), hindex]
    cases hlook : lookup k (bucketOf n ops (index n key)) with
    | none => exact absurd hmem (lookup_eq_none_iff.mp hlook)
    | some v => exact ⟨v, rfl⟩

/-- An operation is ok if the table has the map's answers after it. -/
theorem opOk_of_step (hc : c.gcm.Lawful) (hs : c.gcm.Streams) (hn : 1 ≤ n) (hsmall : Small n ops)
    {op : Op} {t : Table} {r : Res}
    (hstep : step c (tableOf c n (bucketOf n ops)) op = some (t, r))
    (hall : ∀ key : List UInt8, key.length < 2 ^ 32 →
      (step c t (.get key)).map Prod.snd = some (answer (ops ++ [op]) (.get key))) :
    OpOk n ops op := by
  cases op with
  | get key => exact key_lt_of_step hstep
  | put key value =>
    have hkey : key.length < 2 ^ 32 := key_lt_of_step hstep
    have hlast : lastPut (ops ++ [.put key value]) key = some value := by
      rw [lastPut_put, if_pos rfl]
    have hfits : Fits key value := fits_of_answer (answer_some hlast ▸ hall key hkey)
    refine ⟨hfits, ?_⟩
    rintro ⟨hhead, k, hk, hne⟩
    obtain ⟨hlt, t', hstep', hget, v, hv⟩ := lost_of_first hc hs hn hsmall hfits hhead hk hne
    have ht : t = t' := congrArg Prod.fst (Option.some.inj (hstep.symm.trans hstep'))
    have hans := hall k hlt
    rw [ht, hget, answer_some hv, Option.some.injEq] at hans
    exact absurd (Res.get.inj hans).2 (by simp)

/-- **When the table is a map**: there are fewer than 2 ^ 32 buckets, and every operation of the
sequence is ok. -/
theorem isMap_iff (hc : c.gcm.Lawful) (hs : c.gcm.Streams) (hn : 1 ≤ n) :
    IsMap c n ops ↔ n < 2 ^ 32 ∧ AllOk n ops := by
  constructor
  · rintro ⟨t₀, hcreate, hall⟩
    have hlt : n < 2 ^ 32 := by
      unfold Table.create at hcreate
      split at hcreate
      · assumption
      · exact absurd hcreate (by simp)
    obtain rfl : tableOf c n (bucketOf n []) = t₀ :=
      Option.some.inj ((create_eq hlt).symm.trans hcreate)
    refine ⟨hlt, ?_⟩
    -- by induction on the prefixes: up to an operation the table is the map's
    have hpre : ∀ pre, pre <+: ops → AllOk n pre := by
      intro pre
      induction pre using List.reverseRecOn with
      | nil => exact fun _ p op hp => absurd (List.prefix_nil.mp hp) (by simp)
      | append_singleton pre op ih =>
        intro hle p op' hp
        have hok := ih ((List.prefix_append _ _).trans hle)
        rcases List.prefix_concat_iff.mp hp with heq | hp
        · obtain ⟨rfl, hop⟩ := List.append_inj' heq rfl
          obtain rfl : op' = op := by simpa using hop
          obtain ⟨hexec, hsmall⟩ := exec_of_allOk hc hs hn hok
          obtain ⟨t, ht, -, hget⟩ := hall _ hle
          obtain ⟨t₁, ht₁, hnext⟩ := Run.exec_concat.mp ht
          obtain rfl : tableOf c n (bucketOf n p) = t₁ := Option.some.inj (hexec.symm.trans ht₁)
          obtain ⟨⟨t', r⟩, hstep, rfl⟩ := Option.map_eq_some_iff.mp hnext
          exact opOk_of_step hc hs hn hsmall hstep hget
        · exact hok p op' hp
    exact hpre ops List.prefix_rfl
  · rintro ⟨hlt, hok⟩
    refine ⟨_, create_eq (c := c) hlt, ?_⟩
    intro pre hpre
    obtain ⟨hexec, hsmall⟩ := exec_of_allOk hc hs hn (hok.of_le hpre)
    refine ⟨_, hexec, ?_, ?_⟩
    · intro op hop
      rw [(step_of_ok hc hs hn hsmall (hok pre op hop)).1]
      rfl
    · intro key hkey
      rw [step_get hc hs hn hsmall hkey]
      rfl

/-! ## 6. Two keys in one bucket -/

/-- AES-128-GCM with a zero key and a zero IV: the first block of the key stream, and the tags of
the three texts below. -/
def zeroCipher : Cipher where
  gcm := Gcm.counterMode
    (fun _ i => [3, 136, 218, 206, 96, 182, 163, 146, 243, 40, 194, 185, 113, 178, 254, 120].getD i 0)
    (fun _ text =>
      if text = [1, 7] then
        [201, 55, 246, 63, 32, 115, 188, 230, 232, 52, 202, 43, 162, 236, 45, 250]
      else if text = [2, 8] then
        [181, 174, 141, 255, 152, 247, 76, 225, 16, 68, 17, 13, 14, 198, 36, 125]
      else if text = [1, 9] then
        [93, 28, 6, 76, 225, 123, 128, 180, 20, 119, 230, 72, 237, 27, 99, 165]
      else zeros macSize)
  iv := zeros ivSize

theorem zeroCipher_lawful : zeroCipher.gcm.Lawful :=
  Gcm.counterMode_lawful fun _ text => by
    split
    · rfl
    · split
      · rfl
      · split <;> rfl

theorem zeroCipher_streams : zeroCipher.gcm.Streams := Gcm.counterMode_streams _ _

/-- Key 1, then key 2, then key 1 again, in a table with one bucket. -/
def firstAgain : List Op := [.put [1] [7], .put [2] [8], .put [1] [9]]

theorem isMap_iff_firstAgain :
    IsMap zeroCipher 1 firstAgain ↔ 1 < 2 ^ 32 ∧ AllOk 1 firstAgain :=
  isMap_iff zeroCipher_lawful zeroCipher_streams (le_refl 1)

/-- **Key 2 is lost.**  All three calls of `put` return true, and `get` does not find it. -/
theorem not_isMap_firstAgain :
    (∃ t t', Table.create 1 = some t ∧ Run.exec (next zeroCipher) t firstAgain = some t' ∧
      (step zeroCipher t' (.get [2])).map Prod.snd = some (.get 0 none) ∧
      answer firstAgain (.get [2]) = .get 2 (some [2, 8])) ∧
    ¬ IsMap zeroCipher 1 firstAgain := by
  let t : Table := [⟨[], zeros macSize⟩]
  have ht : Table.create 1 = some t := rfl
  have hget : (Run.exec (next zeroCipher) t firstAgain).map (fun t' =>
      (step zeroCipher t' (.get [2])).map Prod.snd) = some (some (.get 0 none)) := by
    decide +kernel
  obtain ⟨t', hexec, hget⟩ := Option.map_eq_some_iff.mp hget
  have hans : answer firstAgain (.get [2]) = .get 2 (some [2, 8]) := by decide
  refine ⟨⟨t, t', ht, hexec, hget, hans⟩, ?_⟩
  rintro ⟨t₀, hcreate, hall⟩
  obtain rfl : t = t₀ := Option.some.inj (ht.symm.trans hcreate)
  obtain ⟨t₁, hexec₁, -, hkeys⟩ := hall firstAgain List.prefix_rfl
  obtain rfl : t' = t₁ := Option.some.inj (hexec.symm.trans hexec₁)
  have h := hkeys [2] (by decide)
  rw [hget, hans] at h
  exact absurd h (by decide)

end Avocado.Hashtable
