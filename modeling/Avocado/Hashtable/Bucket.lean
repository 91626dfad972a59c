/-
# One bucket

A bucket that the table itself filled is the encryption of an association list (`Bucket.sealed`).
On such a bucket `get` is `lookup`, and `put` is the map's `put` in every place but one: it replaces
or appends the entry, except that a key which is FIRST in the list takes the place of the whole
list (`overwrite`, `Bucket.put_seal`).

The one-byte hash of the key only saves decryptions: an entry that passes it is decrypted, and
another key is recognised then (`Entry.plain_sealed`).
-/
import Avocado.Hashtable.Table
import Avocado.Lib.AssocList

namespace Avocado.Hashtable

open Bytes AssocList

/-! ## 1. Hash values of whole keys -/

/-- The hash value of a key. -/
def hashBytes (init mult : BitVec 64) (key : List UInt8) : BitVec 64 :=
  key.foldl (fun h b => h * mult + BitVec.ofNat 64 b.toNat) init

variable {c : Cipher} {key value : List UInt8} {l pre post : List (List UInt8 × List UInt8)}

theorem hash_eq (init mult : BitVec 64) (rest : List UInt8) (h : key.length < 2 ^ 32) :
    hash_ init mult key.length (key ++ rest) = some (hashBytes init mult key) := by
  have hload : load (key ++ rest) 0 key.length = some key := load_front key rest
  rw [hash_, if_pos h, hload]
  rfl

/-- `Entry::hash` of a key. -/
def keyHashOf (key : List UInt8) : BitVec 8 := (hashBytes 7 11 key).setWidth 8

theorem entryHash_eq (key rest : List UInt8) (h : key.length < 2 ^ 32) :
    Entry.hash key.length (key ++ rest) = some (keyHashOf key) := by
  rw [Entry.hash, hash_eq 7 11 rest h]
  rfl

/-! ## 2. Sealed entries -/

/-- An entry's sizes are below what EVP handles in one call. -/
def Fits (key value : List UInt8) : Prop := key.length + value.length < 2 ^ 31

/-- The entry of a key and a value. -/
def Entry.sealed (c : Cipher) (e : List UInt8 × List UInt8) : Entry where
  keySize := BitVec.ofNat 32 e.1.length
  valSize := BitVec.ofNat 32 e.2.length
  keyHash := keyHashOf e.1
  keyVal := some (c.gcm.encrypt c.iv (e.1 ++ e.2)).1
  mac := (c.gcm.encrypt c.iv (e.1 ++ e.2)).2

theorem Entry.keySize_sealed (h : Fits key value) :
    (Entry.sealed c (key, value)).keySize.toNat = key.length := by
  unfold Fits at h
  simp only [sealed, BitVec.toNat_ofNat]
  omega

theorem Entry.size_sealed (h : Fits key value) :
    (Entry.sealed c (key, value)).size = (key ++ value).length := by
  unfold Fits at h
  simp only [size, sealed, BitVec.toNat_add, BitVec.toNat_ofNat, List.length_append]
  omega

/-- The constructor makes it. -/
theorem Entry.create_eq (hc : c.gcm.Lawful) (h : Fits key value) :
    Entry.create c key.length value.length (key ++ value) = some (Entry.sealed c (key, value)) := by
  have hkey : (BitVec.ofNat 32 key.length).toNat = key.length := keySize_sealed (c := c) h
  have hsize : (BitVec.ofNat 32 key.length + BitVec.ofNat 32 value.length).toNat =
      (key ++ value).length := size_sealed (c := c) h
  have hlt : (key ++ value).length < 2 ^ 31 := by rwa [List.length_append]
  have hhash := entryHash_eq key value (by rw [List.length_append] at hlt; omega)
  simp only [create, hkey, hhash, hsize, Cipher.encrypt_eq hc hlt, Option.bind_eq_bind,
    Option.bind_some]
  rfl

/-- `get` gives the key and the value. -/
theorem Entry.get_sealed (hc : c.gcm.Lawful) (h : Fits key value) :
    (Entry.sealed c (key, value)).get c (c.gcm.encrypt c.iv (key ++ value)).1 =
      some (some (key ++ value)) := by
  have hlt : (key ++ value).length < 2 ^ 31 := by rwa [List.length_append]
  have hdec : c.decrypt (zeros (key ++ value).length) (c.gcm.encrypt c.iv (key ++ value)).1
      (key ++ value).length (Entry.sealed c (key, value)).mac = some (true, key ++ value) :=
    Cipher.decrypt_encrypt hc hlt
  simp only [get, size_sealed h, hdec, Option.bind_eq_bind, Option.bind_some, if_true]

/-- `compare` decrypts as many bytes as the entry's key has, and these are its key. -/
theorem Entry.compare_sealed (rest : List UInt8) (hc : c.gcm.Lawful) (hs : c.gcm.Streams)
    {k v : List UInt8} (h : Fits k v) (hlen : k.length = key.length) :
    (Entry.sealed c (k, v)).compare c (c.gcm.encrypt c.iv (k ++ v)).1 (key ++ rest) =
      some (if k = key then some (k ++ v) else none) := by
  have hlt : k.length + v.length < 2 ^ 31 := h
  have hle : k.length ≤ (k ++ v).length := by
    rw [List.length_append]
    omega
  obtain ⟨ok, hdec⟩ := Cipher.decrypt_take (zeros macSize) hc hs hle (by omega)
  rw [List.take_left] at hdec
  have hload : load (key ++ rest) 0 k.length = some key := by
    rw [hlen]
    exact load_front key rest
  simp only [compare, keySize_sealed h, hdec, hload, Option.bind_eq_bind, Option.bind_some]
  by_cases heq : k = key
  · rw [if_pos heq, if_pos heq, get_sealed hc h]
  · rw [if_neg heq, if_neg heq]

/-- **The test of the loops finds the key's entry and no other**, whatever the hash bytes are. -/
theorem Entry.plain_sealed (key rest : List UInt8) (hc : c.gcm.Lawful) (hs : c.gcm.Streams)
    {k v : List UInt8} (h : Fits k v) :
    (Entry.sealed c (k, v)).plain c (keyHashOf key) key.length (key ++ rest) =
      some (if k = key then some (k ++ v) else none) := by
  have htest : (Entry.sealed c (k, v)).plain c (keyHashOf key) key.length (key ++ rest) =
      if (Entry.sealed c (k, v)).keySize.toNat = key.length ∧ keyHashOf k = keyHashOf key then
        (Entry.sealed c (k, v)).compare c (c.gcm.encrypt c.iv (k ++ v)).1 (key ++ rest)
      else some none := rfl
  rw [htest, keySize_sealed h]
  split
  · rename_i hboth
    exact compare_sealed rest hc hs h hboth.1
  · rename_i hnot
    have hne : k ≠ key := by
      rintro rfl
      exact hnot ⟨rfl, rfl⟩
    rw [if_neg hne]

/-! ## 3. The loops -/

/-- The iterator in front of a position. -/
def Pos.prev : Nat → Pos
  | 0 => .beforeBegin
  | i + 1 => .at i

theorem Pos.next_prev : ∀ i : Nat, (Pos.prev i).next = Pos.prev (i + 1)
  | 0 => rfl
  | _ + 1 => rfl

/-- The entries of a list. -/
def sealAll (c : Cipher) (l : List (List UInt8 × List UInt8)) : List Entry :=
  l.map (Entry.sealed c)

@[simp] theorem length_sealAll : (sealAll c l).length = l.length := List.length_map _

@[simp] theorem sealAll_append : sealAll c (pre ++ l) = sealAll c pre ++ sealAll c l :=
  List.map_append

@[simp] theorem sealAll_cons (e : List UInt8 × List UInt8) :
    sealAll c (e :: l) = Entry.sealed c e :: sealAll c l := rfl

/-- Every entry fits. -/
def AllFit (l : List (List UInt8 × List UInt8)) : Prop := ∀ e ∈ l, Fits e.1 e.2

theorem AllFit.append_left (h : AllFit (pre ++ l)) : AllFit pre :=
  fun e he => h e (List.mem_append_left _ he)

theorem AllFit.append_right (h : AllFit (pre ++ l)) : AllFit l :=
  fun e he => h e (List.mem_append_right _ he)

/-- `find` walks over entries of other keys. -/
theorem find_append (rest : List UInt8) (l : List (List UInt8 × List UInt8)) (hc : c.gcm.Lawful)
    (hs : c.gcm.Streams) (hpre : AllFit pre) (hkey : key ∉ keys pre) (i : Nat) :
    find c (keyHashOf key) key.length (key ++ rest) .new (.prev i) i (sealAll c (pre ++ l)) =
      find c (keyHashOf key) key.length (key ++ rest) .new (.prev (i + pre.length))
        (i + pre.length) (sealAll c l) := by
  induction pre generalizing i with
  | nil => rfl
  | cons e pre ih =>
    obtain ⟨hne, hkey⟩ := not_mem_keys_cons.mp hkey
    have htest := Entry.plain_sealed key rest hc hs (hpre e List.mem_cons_self)
    rw [if_neg hne] at htest
    rw [List.cons_append, sealAll_cons, find, htest]
    simp only [Option.bind_eq_bind, Option.bind_some, HashSsl.update_new, Pos.next_prev]
    rw [ih (fun e he => hpre e (List.mem_cons_of_mem _ he)) hkey, List.length_cons,
      Nat.add_right_comm, Nat.add_assoc]

theorem find_hit (rest : List UInt8) (hc : c.gcm.Lawful) (hs : c.gcm.Streams)
    (hl : AllFit (pre ++ (key, value) :: post)) (hkey : key ∉ keys pre) :
    find c (keyHashOf key) key.length (key ++ rest) .new .beforeBegin 0
        (sealAll c (pre ++ (key, value) :: post)) =
      some (some pre.length,
        ⟨.prev pre.length, (key ++ value).length, some (key ++ value)⟩, .new) := by
  have hfits : Fits key value := hl.append_right _ List.mem_cons_self
  have htest := Entry.plain_sealed key rest hc hs hfits
  rw [if_pos rfl] at htest
  have h := find_append rest ((key, value) :: post) hc hs hl.append_left hkey 0
  rw [Nat.zero_add] at h
  refine h.trans ?_
  rw [sealAll_cons, find, htest]
  simp only [Option.bind_eq_bind, Option.bind_some, Entry.size_sealed hfits]

theorem find_miss (rest : List UInt8) (hc : c.gcm.Lawful) (hs : c.gcm.Streams) (hl : AllFit l)
    (hkey : key ∉ keys l) :
    find c (keyHashOf key) key.length (key ++ rest) .new .beforeBegin 0 (sealAll c l) =
      some (none, ⟨.prev l.length, 0, none⟩, .new) := by
  have h := find_append rest [] hc hs hl hkey 0
  rw [Nat.zero_add, List.append_nil] at h
  exact h

/-- So does the loop of `get`. -/
theorem getLoop_append (rest : List UInt8) (l : List (List UInt8 × List UInt8))
    (hc : c.gcm.Lawful) (hs : c.gcm.Streams) (hpre : AllFit pre) (hkey : key ∉ keys pre) (i : Nat) :
    getLoop c (keyHashOf key) key.length (key ++ rest) .new (.prev i) (sealAll c (pre ++ l)) =
      getLoop c (keyHashOf key) key.length (key ++ rest) .new (.prev (i + pre.length))
        (sealAll c l) := by
  induction pre generalizing i with
  | nil => rfl
  | cons e pre ih =>
    obtain ⟨hne, hkey⟩ := not_mem_keys_cons.mp hkey
    have htest := Entry.plain_sealed key rest hc hs (hpre e List.mem_cons_self)
    rw [if_neg hne] at htest
    rw [List.cons_append, sealAll_cons, getLoop, htest]
    simp only [Option.bind_eq_bind, Option.bind_some, HashSsl.update_new, Pos.next_prev]
    rw [ih (fun e he => hpre e (List.mem_cons_of_mem _ he)) hkey, List.length_cons,
      Nat.add_right_comm, Nat.add_assoc]

/-! ## 4. The list operations -/

variable {α : Type*} {p q : List α} {x y : α}

/-- Whatever is in front, the node behind the iterator is erased. -/
theorem eraseAfter_prev : eraseAfter (p ++ x :: q) (.prev p.length) = some (p ++ q) := by
  cases p with
  | nil => rfl
  | cons a p =>
    have htake : (a :: p ++ x :: q).take (p.length + 1) = a :: p := List.take_left' rfl
    have hdrop : (a :: p ++ x :: q).drop (p.length + 2) = q := by
      rw [← List.drop_drop (i := 1), List.drop_left' (by rfl), List.drop_succ_cons, List.drop_zero]
    have hlt : p.length + 1 < (a :: p ++ x :: q).length := by
      simp only [List.length_append, List.length_cons]
      omega
    rw [List.length_cons, Pos.prev, eraseAfter, if_pos hlt, htake, hdrop]

/-- Behind a node, the new one is inserted. -/
theorem emplaceAfter_prev (hp : p ≠ []) :
    emplaceAfter (p ++ q) (.prev p.length) x = some (p ++ x :: q, p.length) := by
  obtain ⟨a, p, rfl⟩ := List.exists_cons_of_ne_nil hp
  have htake : (a :: p ++ q).take (p.length + 1) = a :: p := List.take_left' rfl
  have hdrop : (a :: p ++ q).drop (p.length + 1) = q := List.drop_left' rfl
  have hlt : p.length < (a :: p ++ q).length := by
    simp only [List.length_append, List.length_cons]
    omega
  rw [List.length_cons, Pos.prev, emplaceAfter, if_pos hlt, htake, hdrop]

/-- **In front of the first node**, the new one is all that is left. -/
theorem emplaceAfter_beforeBegin : emplaceAfter p .beforeBegin x = some ([x], 0) := rfl

/-- At the end of the list both are the same. -/
theorem emplaceAfter_end : ∃ i, emplaceAfter p (.prev p.length) x = some (p ++ [x], i) := by
  by_cases hp : p = []
  · subst hp
    exact ⟨0, rfl⟩
  · have h := emplaceAfter_prev (q := []) (x := x) hp
    rw [List.append_nil] at h
    exact ⟨p.length, h⟩

/-! ## 5. `get` and `put` -/

/-- The bucket with the entries of a list. -/
def Bucket.sealed (c : Cipher) (l : List (List UInt8 × List UInt8)) : Bucket :=
  ⟨sealAll c l, zeros macSize⟩

/-- A `Ret_value` that reports the key's value, or that there is none. -/
def RetValue.Is (r : RetValue) (key : List UInt8) : Option (List UInt8) → Prop
  | some value => r.kv = some (key ++ value) ∧ r.size = (key ++ value).length
  | none => r.kv = none ∧ r.size = 0

/-- **`get` is `lookup`**, and its check passes. -/
theorem Bucket.get_sealed (hc : c.gcm.Lawful) (hs : c.gcm.Streams) (hl : AllFit l)
    (hkey : key.length < 2 ^ 32) :
    ∃ r, (Bucket.sealed c l).get c key.length key = some (r, true) ∧ r.Is key (lookup key l) := by
  have hhash := entryHash_eq key [] hkey
  rw [List.append_nil] at hhash
  rcases split key l with hnot | ⟨pre, value, post, rfl, hpre⟩
  · have h := getLoop_append [] [] hc hs hl hnot 0
    rw [List.append_nil, List.append_nil, Nat.zero_add] at h
    refine ⟨⟨(Pos.prev l.length).next, 0, none⟩, ?_, ?_⟩
    · have hloop : getLoop c (keyHashOf key) key.length key .new .beforeBegin (sealAll c l) =
          some (⟨(Pos.prev l.length).next, 0, none⟩, .new) := h
      simp only [get, sealed, hhash, hloop, Option.bind_eq_bind, Option.bind_some,
        HashSsl.equal_new]
    · rw [lookup_eq_none_iff.mpr hnot]
      exact ⟨rfl, rfl⟩
  · have hfits : Fits key value := hl.append_right _ List.mem_cons_self
    have htest := Entry.plain_sealed key [] hc hs hfits
    rw [if_pos rfl, List.append_nil] at htest
    have h := getLoop_append [] ((key, value) :: post) hc hs hl.append_left hpre 0
    rw [List.append_nil, Nat.zero_add] at h
    refine ⟨⟨.prev pre.length, (key ++ value).length, some (key ++ value)⟩, ?_, ?_⟩
    · have hloop : getLoop c (keyHashOf key) key.length key .new .beforeBegin
          (sealAll c (pre ++ (key, value) :: post)) =
            some (⟨.prev pre.length, (key ++ value).length, some (key ++ value)⟩, .new) := by
        refine h.trans ?_
        rw [sealAll_cons, getLoop, htest]
        simp only [Option.bind_eq_bind, Option.bind_some, HashSsl.updates_new,
          Entry.size_sealed hfits]
      simp only [get, sealed, hhash, hloop, Option.bind_eq_bind, Option.bind_some,
        HashSsl.equal_new]
    · rw [lookup_split hpre]
      exact ⟨rfl, rfl⟩

/-- What `put` makes of a list: a key that is first in it is all that is left. -/
def overwrite (key value : List UInt8) (l : List (List UInt8 × List UInt8)) :
    List (List UInt8 × List UInt8) :=
  if (keys l).head? = some key then [(key, value)] else AssocList.put key value l

theorem AllFit.put (hl : AllFit l) (hfits : Fits key value) :
    AllFit (AssocList.put key value l) := by
  intro e he
  rcases eq_or_mem_of_mem_put he with rfl | he
  · exact hfits
  · exact hl e he

theorem AllFit.overwrite (hl : AllFit l) (hfits : Fits key value) :
    AllFit (overwrite key value l) := by
  unfold Hashtable.overwrite
  split
  · intro e he
    rw [List.mem_singleton.mp he]
    exact hfits
  · exact hl.put hfits

theorem overwrite_of_not_mem (h : key ∉ keys l) : overwrite key value l = l ++ [(key, value)] := by
  have hhead : (keys l).head? ≠ some key := fun hk => h (List.mem_of_mem_head? hk)
  rw [overwrite, if_neg hhead, put_of_not_mem h]

theorem overwrite_first {old : List UInt8} :
    overwrite key value ((key, old) :: l) = [(key, value)] := if_pos rfl

theorem overwrite_later {old : List UInt8} (hne : pre ≠ []) (h : key ∉ keys pre) :
    overwrite key value (pre ++ (key, old) :: post) = pre ++ (key, value) :: post := by
  obtain ⟨e, pre, rfl⟩ := List.exists_cons_of_ne_nil hne
  have hhead : (keys (e :: pre ++ (key, old) :: post)).head? ≠ some key := by
    intro hk
    exact (not_mem_keys_cons.mp h).1 (Option.some.inj hk)
  rw [overwrite, if_neg hhead, put_split h]

/-- The first branch of `put` appends. -/
theorem Bucket.put_append (hc : c.gcm.Lawful) (hs : c.gcm.Streams) (hl : AllFit l)
    (hfits : Fits key value) (hnot : key ∉ keys l) :
    (Bucket.sealed c l).put c key.length value.length (key ++ value) (fun _ => true) =
      some (true, Bucket.sealed c (l ++ [(key, value)])) := by
  have hlt : key.length + value.length < 2 ^ 31 := hfits
  have hhash := entryHash_eq key value (by omega)
  have hnew := Entry.create_eq hc hfits
  have hfind := find_miss value hc hs hl hnot
  obtain ⟨i, hins⟩ := emplaceAfter_end (p := sealAll c l) (x := Entry.sealed c (key, value))
  rw [length_sealAll] at hins
  simp only [put, putBuild, putFound, sealed, hhash, hfind, hnew, hins, Option.bind_eq_bind,
    Option.bind_some, Bool.not_true, Bool.false_eq_true, if_false, HashSsl.copy_new,
    HashSsl.finalize_new, HashSsl.equal_new, HashSsl.update_new, sealAll_append]
  rfl

/-- The second one erases the entry and inserts the new one; in front of the first entry that
leaves the new one only. -/
theorem Bucket.put_update (hc : c.gcm.Lawful) (hs : c.gcm.Streams) {old : List UInt8}
    (hl : AllFit (pre ++ (key, old) :: post)) (hfits : Fits key value) (hpre : key ∉ keys pre) :
    (Bucket.sealed c (pre ++ (key, old) :: post)).put c key.length value.length (key ++ value)
        (fun _ => true) =
      some (true, Bucket.sealed c
        (if pre = [] then [(key, value)] else pre ++ (key, value) :: post)) := by
  have hlt : key.length + value.length < 2 ^ 31 := hfits
  have hhash := entryHash_eq key value (by omega)
  have hnew := Entry.create_eq hc hfits
  have hfind := find_hit value hc hs hl hpre
  have hold : (sealAll c (pre ++ (key, old) :: post))[pre.length]? =
      some (Entry.sealed c (key, old)) := by
    simp
  have herase : eraseAfter (sealAll c (pre ++ (key, old) :: post)) (.prev pre.length) =
      some (sealAll c (pre ++ post)) := by
    have h := eraseAfter_prev (p := sealAll c pre) (q := sealAll c post)
      (x := Entry.sealed c (key, old))
    rwa [length_sealAll, ← sealAll_cons, ← sealAll_append, ← sealAll_append] at h
  have hins : ∃ i, emplaceAfter (sealAll c (pre ++ post)) (.prev pre.length)
      (Entry.sealed c (key, value)) =
        some (sealAll c (if pre = [] then [(key, value)] else pre ++ (key, value) :: post), i) := by
    by_cases hnil : pre = []
    · subst hnil
      exact ⟨0, emplaceAfter_beforeBegin⟩
    · have h := emplaceAfter_prev (p := sealAll c pre) (q := sealAll c post)
        (x := Entry.sealed c (key, value)) (by simpa [sealAll] using hnil)
      rw [length_sealAll, ← sealAll_cons, ← sealAll_append, ← sealAll_append] at h
      exact ⟨pre.length, by rw [if_neg hnil, h]⟩
  obtain ⟨i, hins⟩ := hins
  simp only [put, putBuild, putFound, putRest, sealed, hhash, hfind, hnew, hold, herase, hins,
    Option.bind_eq_bind, Option.bind_some, Bool.not_true, Bool.false_and, Bool.false_eq_true,
    if_false, HashSsl.copy_new, HashSsl.finalize_new, HashSsl.equal_new, HashSsl.update_new,
    HashSsl.updates_new]
  rfl

/-- **`put` on a sealed bucket.**  It succeeds, and the bucket is `overwrite` of the list. -/
theorem Bucket.put_sealed (hc : c.gcm.Lawful) (hs : c.gcm.Streams) (hl : AllFit l)
    (hfits : Fits key value) :
    (Bucket.sealed c l).put c key.length value.length (key ++ value) (fun _ => true) =
      some (true, Bucket.sealed c (overwrite key value l)) := by
  rcases split key l with hnot | ⟨pre, old, post, rfl, hpre⟩
  · rw [put_append hc hs hl hfits hnot, overwrite_of_not_mem hnot]
  · rw [put_update hc hs hl hfits hpre]
    by_cases hnil : pre = []
    · subst hnil
      rw [if_pos rfl, List.nil_append, overwrite_first]
    · rw [if_neg hnil, overwrite_later hnil hpre]

end Avocado.Hashtable
