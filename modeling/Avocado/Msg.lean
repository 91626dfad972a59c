/-
# Messages (`msg.h`, `span.h`, `key_access.h`)

A `Msg` owns one heap array.  The array starts with `struct Encoded_msg`, two `size_t` fields
`key_size` and `size`, and the key bytes and the value bytes follow the header without a gap:

    | key_size : 8 | size : 8 | key ... | value ... |

`size` counts the key and the value together.  Everything in the source that reads or writes a
message goes through raw pointers, so here every access is a `Bytes.load` or `Bytes.store` and the
functions are partial: `none` is an access outside the array, a failed assertion, or an allocation
that does not fit in a `size_t`.

`image k v rest` is the array that holds key `k` and value `v`, with `rest` unused bytes behind
them.  Section 3 says what each accessor returns on an image and what each builder call does to
one; `encode k v` is the finished message, and the builder sequences of the protocol all produce
it (`build_key`, `build_key₂`, `build_key₂_value`).
-/
import Avocado.Lamport

namespace Avocado

open Bytes

/-! ## 1. Pointers, spans and messages -/

/-- A `uint8_t *`: the bytes from there to the end of its array, `none` for `nullptr`. -/
abbrev Ptr := Option (List UInt8)

/-- Reading `len` bytes at `p + off`.  Reading nothing from `nullptr` is fine. -/
def Ptr.read (p : Ptr) (off len : Nat) : Option (List UInt8) :=
  match p with
  | some mem => load mem off len
  | none => if len = 0 then some [] else none

theorem Ptr.length_read {p : Ptr} {off len : Nat} {bs : List UInt8} (h : p.read off len = some bs) :
    bs.length = len := by
  cases p with
  | some mem => exact load_length h
  | none =>
    simp only [Ptr.read] at h
    split at h
    · rename_i hlen
      rw [← Option.some.inj h, List.length_nil, hlen]
    · exact absurd h (by simp)

/-- `struct Span`. -/
structure Span where
  size : Nat
  buf : Ptr
  deriving DecidableEq, Repr

/-- The bytes a span names. -/
def Span.bytes (s : Span) : Option (List UInt8) := s.buf.read 0 s.size

/-- `class Msg`: its array, which like every array has a `size_t` length. -/
@[ext] structure Msg where
  ptr : List UInt8
  fits : ptr.length < 2 ^ 64
  deriving DecidableEq, Repr

/-- `sizeof(Encoded_msg)`. -/
def encodedMsgSize : Nat := 16

/-- `Msg::adjust_size`. -/
def adjustSize (size : Nat) : Nat := size + encodedMsgSize

namespace Msg

/-- `Msg(size_t size)`: a zeroed array. -/
def alloc (size : Nat) : Option Msg :=
  if h : size < 2 ^ 64 then some ⟨List.replicate size 0, by simpa using h⟩ else none

/-- `memcpy(ptr + off, bs, bs.size())` into the message's array. -/
def store (m : Msg) (off : Nat) (bs : List UInt8) : Option Msg :=
  (Bytes.store m.ptr off bs).pmap (fun p h => ⟨p, h⟩)
    (fun p h => by rw [store_length h]; exact m.fits)

/-- `get_key_size()`. -/
def getKeySize (m : Msg) : Option Nat := (load m.ptr 0 8).map leNat

/-- `get_size()`. -/
def getSize (m : Msg) : Option Nat := (load m.ptr 8 8).map leNat

/-- `get_value_size()`. -/
def getValueSize (m : Msg) : Option Nat := do
  let size ← m.getSize
  let keySize ← m.getKeySize
  if size > keySize then some (size - keySize) else some 0

/-- `get_key()`: the whole key range, whatever the array's length is. -/
def getKey (m : Msg) : Option Span := do
  let keySize ← m.getKeySize
  some ⟨keySize, some (m.ptr.drop encodedMsgSize)⟩

/-- `get_value()`. -/
def getValue (m : Msg) : Option Span := do
  let size ← m.getSize
  let keySize ← m.getKeySize
  if size > keySize then
    some ⟨size - keySize, some ((m.ptr.drop encodedMsgSize).drop keySize)⟩
  else some ⟨0, none⟩

/-- The bytes that are encrypted and sent: `msg.buf()` with `adjust_size(msg.get_size())`. -/
def frame (m : Msg) : Option Msg := do
  let size ← m.getSize
  if adjustSize size ≤ m.ptr.length then
    some ⟨m.ptr.take (adjustSize size), by have := m.fits; simp only [List.length_take]; omega⟩
  else none

end Msg

/-! ## 2. Keys with a clock, and the builder -/

namespace KeyAccess

/-- `meta_size()`. -/
def metaSize : Nat := 8

/-- `get_lamport(size, key)`: the clock is the last `sizeof(Lamport)` bytes of the key. -/
def getLamport (size : Nat) (key : Ptr) : Option Lamport :=
  if metaSize ≤ size then
    match key with
    | some mem => (load mem (size - metaSize) 8).map Lamport.ofBytes
    | none => some ⟨0, 0xFFFFFFFF⟩
  else none

/-- `add_meta_size`. -/
def addMetaSize (size : Nat) : Nat := size + metaSize

/-- `sub_meta_size`, on the sizes that `getLamport` lets through. -/
def subMetaSize (size : Nat) : Nat := size - metaSize

end KeyAccess

namespace MsgBuilder

/-- `MsgBuilder(max_size)`. -/
def new (maxSize : Nat) : Option Msg := do
  let m ← Msg.alloc (adjustSize maxSize)
  let m ← m.store 0 (leBytes 8 0)
  m.store 8 (leBytes 8 0)

/-- `add_key`: behind the key so far. -/
def addKey (m : Msg) (key : List UInt8) : Option Msg := do
  let keySize ← m.getKeySize
  let m ← m.store (encodedMsgSize + keySize) key
  let m ← m.store 0 (leBytes 8 (keySize + key.length))
  let size ← m.getSize
  m.store 8 (leBytes 8 (size + key.length))

/-- `add_value`: behind everything so far. -/
def addValue (m : Msg) (buf : List UInt8) : Option Msg := do
  let size ← m.getSize
  let m ← m.store (encodedMsgSize + size) buf
  m.store 8 (leBytes 8 (size + buf.length))

end MsgBuilder

/-! ## 3. Images: what the accessors and the builder do on a well-formed array -/

/-- The array with key `k`, value `v` and `rest` unused bytes. -/
def image (k v rest : List UInt8) : List UInt8 :=
  leBytes 8 k.length ++ leBytes 8 (k.length + v.length) ++ (k ++ v ++ rest)

/-- The finished message with key `k` and value `v`, if it fits in memory. -/
def encode (k v : List UInt8) : Option Msg :=
  if h : (image k v []).length < 2 ^ 64 then some ⟨image k v [], h⟩ else none

theorem length_image (k v rest : List UInt8) :
    (image k v rest).length = 16 + (k.length + v.length + rest.length) := by
  simp only [image, List.length_append, length_leBytes]

theorem encode_eq_some {k v : List UInt8} {m : Msg} (h : encode k v = some m) :
    m.ptr = image k v [] := by
  unfold encode at h
  split at h
  · injection h with h
    rw [← h]
  · exact absurd h (by simp)

theorem exists_encode {k v : List UInt8} (h : 16 + (k.length + v.length) < 2 ^ 64) :
    ∃ m, encode k v = some m :=
  ⟨_, dif_pos (by rw [length_image]; simpa using h)⟩

/-- A key with a clock behind it, and a value. -/
theorem exists_encode_clock {k v : List UInt8} (h : 24 + (k.length + v.length) < 2 ^ 64)
    (t : Lamport) : ∃ m, encode (k ++ t.toBytes) v = some m :=
  exists_encode (by rw [List.length_append, Lamport.length_toBytes]; omega)

namespace Msg

variable {m : Msg} {k v rest : List UInt8}

theorem alloc_eq {n : Nat} (h : n < 2 ^ 64) :
    alloc n = some ⟨List.replicate n 0, by simpa using h⟩ := dif_pos h

theorem store_eq_some {off : Nat} {bs p : List UInt8} (h : Bytes.store m.ptr off bs = some p) :
    ∃ m', m.store off bs = some m' ∧ m'.ptr = p := by
  have hp : p.length < 2 ^ 64 := by rw [store_length h]; exact m.fits
  exact ⟨⟨p, hp⟩, by simp [store, h], rfl⟩

/-- A store that stays inside. -/
theorem exists_store (m : Msg) {off : Nat} {bs : List UInt8} (h : off + bs.length ≤ m.ptr.length) :
    ∃ m', m.store off bs = some m' ∧
      m'.ptr = m.ptr.take off ++ bs ++ m.ptr.drop (off + bs.length) :=
  store_eq_some (if_pos h)

/-- An image's sizes fit in the header fields, because the array fits in memory. -/
theorem image_fits (h : m.ptr = image k v rest) : k.length + v.length < 2 ^ 64 := by
  have hf := m.fits
  rw [h, length_image] at hf
  omega

theorem getKeySize_image (h : m.ptr = image k v rest) : m.getKeySize = some k.length := by
  have hb := image_fits h
  have hl : load m.ptr 0 8 = some (leBytes 8 k.length) := by
    rw [h, image, List.append_assoc, ← List.nil_append (leBytes 8 k.length), List.append_assoc,
      ← List.append_assoc]
    exact load_middle rfl (by simp)
  rw [getKeySize, hl, Option.map_some, leNat_leBytes_of_lt (by omega)]

theorem getSize_image (h : m.ptr = image k v rest) :
    m.getSize = some (k.length + v.length) := by
  have hb := image_fits h
  have hl : load m.ptr 8 8 = some (leBytes 8 (k.length + v.length)) := by
    rw [h, image]
    exact load_middle (by simp) (by simp)
  rw [getSize, hl, Option.map_some, leNat_leBytes_of_lt hb]

theorem drop_header_image : (image k v rest).drop encodedMsgSize = k ++ v ++ rest :=
  List.drop_left' (by simp [encodedMsgSize])

theorem getKey_image (h : m.ptr = image k v rest) :
    m.getKey = some ⟨k.length, some (k ++ v ++ rest)⟩ := by
  rw [getKey, getKeySize_image h, h, drop_header_image]
  rfl

theorem getValueSize_image (h : m.ptr = image k v rest) : m.getValueSize = some v.length := by
  rw [getValueSize, getKeySize_image h, getSize_image h]
  simp only [Option.bind_eq_bind, Option.bind_some]
  split
  · congr 1; omega
  · congr 1; omega

/-- The value's bytes, whether `get_value` answers with a pointer or with `nullptr`. -/
theorem getValue_image (h : m.ptr = image k v rest) :
    ∃ s, m.getValue = some s ∧ s.size = v.length ∧ s.buf.read 0 v.length = some v := by
  rw [getValue, getKeySize_image h, getSize_image h]
  simp only [Option.bind_eq_bind, Option.bind_some]
  split
  · refine ⟨_, rfl, by simp, ?_⟩
    rw [h, drop_header_image, List.append_assoc, List.drop_left, ← List.nil_append (v ++ rest),
      ← List.append_assoc]
    exact load_middle rfl rfl
  · have hv : v = [] := List.length_eq_zero_iff.mp (by omega)
    subst hv
    exact ⟨_, rfl, rfl, rfl⟩

theorem frame_image (h : m.ptr = image k v rest) : m.frame = encode k v := by
  have hf := m.fits
  have htake : m.ptr.take (adjustSize (k.length + v.length)) = image k v [] := by
    rw [h, image, image, List.append_nil, ← List.append_assoc]
    exact List.take_left' (by simp [adjustSize, encodedMsgSize]; omega)
  have hlen : adjustSize (k.length + v.length) ≤ m.ptr.length := by
    rw [h, length_image, adjustSize, encodedMsgSize]
    omega
  rw [h, length_image] at hf
  rw [frame, getSize_image h]
  simp only [Option.bind_eq_bind, Option.bind_some, if_pos hlen, htake]
  rw [encode, dif_pos (by rw [length_image]; simp only [List.length_nil]; omega)]

/-- A message is sent as it is. -/
theorem frame_of_encode (h : encode k v = some m) : m.frame = some m := by
  rw [frame_image (encode_eq_some h), h]

/-- Reading a first part of an array. -/
theorem read_key_image {a b c : List UInt8} : Ptr.read (some (a ++ b ++ c)) 0 a.length = some a := by
  rw [Ptr.read, ← List.nil_append (a ++ b ++ c), List.append_assoc a, ← List.append_assoc]
  exact load_middle rfl rfl

end Msg

/-- A clock that ends the key is the one `get_lamport` reads. -/
theorem KeyAccess.getLamport_key {k v r : List UInt8} {t : Lamport} {n : Nat}
    (hs : n = k.length + 8) : getLamport n (some (k ++ t.toBytes ++ v ++ r)) = some t := by
  have hl : load (k ++ t.toBytes ++ v ++ r) (n - metaSize) 8 = some t.toBytes := by
    rw [List.append_assoc _ v r]
    exact load_middle (by simp [hs, metaSize]) (by simp)
  rw [getLamport, if_pos (by simp [hs, metaSize])]
  simp only [hl, Option.map_some, Lamport.ofBytes_toBytes]

namespace MsgBuilder

variable {m : Msg} {k l v rest d : List UInt8}

/-- Overwriting the `key_size` field of any array with a header. -/
theorem store_keySize {a b c : List UInt8} (h : m.ptr = a ++ b ++ c) (ha : a.length = 8)
    (n : Nat) : ∃ m', m.store 0 (leBytes 8 n) = some m' ∧ m'.ptr = leBytes 8 n ++ b ++ c := by
  have hs := store_middle (a := []) (b := a) (c := b ++ c) (d := leBytes 8 n) (o := 0) rfl
    (by simp [ha])
  obtain ⟨m', h1, h2⟩ := Msg.store_eq_some (m := m) (by rw [h]; simpa using hs)
  exact ⟨m', h1, by simpa using h2⟩

/-- Overwriting the `size` field. -/
theorem store_size {a b c : List UInt8} (h : m.ptr = a ++ b ++ c) (ha : a.length = 8)
    (hb : b.length = 8) (n : Nat) :
    ∃ m', m.store 8 (leBytes 8 n) = some m' ∧ m'.ptr = a ++ leBytes 8 n ++ c := by
  refine Msg.store_eq_some ?_
  rw [h]
  exact store_middle ha.symm (by simp [hb])

/-- Copying `d` behind the first `k` bytes of the payload. -/
theorem store_payload {a b : List UInt8} (h : m.ptr = a ++ b ++ (k ++ rest))
    (ha : a.length = 8) (hb : b.length = 8) (hd : d.length ≤ rest.length) :
    ∃ m', m.store (encodedMsgSize + k.length) d = some m' ∧
      m'.ptr = a ++ b ++ (k ++ d ++ rest.drop d.length) := by
  have hs := store_middle (a := a ++ b ++ k) (b := rest.take d.length) (c := rest.drop d.length)
    (d := d) (o := encodedMsgSize + k.length)
    (by simp [ha, hb, encodedMsgSize]; omega) (by simp [hd])
  have hm : m.ptr = a ++ b ++ k ++ rest.take d.length ++ rest.drop d.length := by
    rw [h, List.append_assoc _ (rest.take _), List.take_append_drop]
    simp
  obtain ⟨m', h1, h2⟩ := Msg.store_eq_some (m := m) (by rw [hm]; exact hs)
  exact ⟨m', h1, by simpa using h2⟩

theorem new_image {n : Nat} (h : 16 + n < 2 ^ 64) :
    ∃ m, new n = some m ∧ m.ptr = image [] [] (List.replicate n 0) := by
  have hn : adjustSize n < 2 ^ 64 := by rw [adjustSize, encodedMsgSize]; omega
  have ha := Msg.alloc_eq hn
  have hp : List.replicate (adjustSize n) (0 : UInt8)
      = List.replicate 8 0 ++ List.replicate 8 0 ++ List.replicate n 0 := by
    rw [List.replicate_append_replicate, List.replicate_append_replicate, adjustSize,
      encodedMsgSize, Nat.add_comm]
  obtain ⟨m1, h1, e1⟩ := store_keySize
    (m := ⟨List.replicate (adjustSize n) 0, by simpa using hn⟩) hp (by simp) 0
  obtain ⟨m2, h2, e2⟩ := store_size e1 (by simp) (by simp) 0
  refine ⟨m2, ?_, by simpa [image] using e2⟩
  simp only [new, ha, Option.bind_eq_bind, Option.bind_some, h1, h2]

/-- `add_key` on a message that has no value yet. -/
theorem addKey_image (h : m.ptr = image k [] rest) (hd : d.length ≤ rest.length) :
    ∃ m', addKey m d = some m' ∧ m'.ptr = image (k ++ d) [] (rest.drop d.length) := by
  have h' : m.ptr = leBytes 8 k.length ++ leBytes 8 k.length ++ (k ++ rest) := by
    simpa [image] using h
  obtain ⟨m1, h1, e1⟩ := store_payload h' (by simp) (by simp) hd
  obtain ⟨m2, h2, e2⟩ := store_keySize e1 (by simp) (k.length + d.length)
  have hsz : m2.getSize = some k.length := by
    have hb := Msg.image_fits h
    have hl : load m2.ptr 8 8 = some (leBytes 8 k.length) := by
      rw [e2]
      exact load_middle (by simp) (by simp)
    rw [Msg.getSize, hl, Option.map_some, leNat_leBytes_of_lt (by simp at hb; omega)]
  obtain ⟨m3, h3, e3⟩ := store_size e2 (by simp) (by simp) (k.length + d.length)
  refine ⟨m3, ?_, by simpa [image] using e3⟩
  simp only [addKey, Msg.getKeySize_image h, Option.bind_eq_bind, Option.bind_some, h1, h2, hsz, h3]

/-- `add_value` appends to the value. -/
theorem addValue_image (h : m.ptr = image k v rest) (hd : d.length ≤ rest.length) :
    ∃ m', addValue m d = some m' ∧ m'.ptr = image k (v ++ d) (rest.drop d.length) := by
  obtain ⟨m1, h1, e1⟩ := store_payload (k := k ++ v) (by rw [h, image]) (by simp) (by simp) hd
  obtain ⟨m2, h2, e2⟩ := store_size e1 (by simp) (by simp) (k.length + v.length + d.length)
  refine ⟨m2, ?_, by simpa [image, Nat.add_assoc] using e2⟩
  rw [List.length_append] at h1
  simp only [addValue, Msg.getSize_image h, Option.bind_eq_bind, Option.bind_some, h1, h2]

/-! ### The builder sequences of the protocol -/

/-- A message too large for memory is refused by the allocation. -/
theorem new_eq_none {n : Nat} (h : ¬ 16 + n < 2 ^ 64) : new n = none := by
  rw [new, Msg.alloc, dif_neg (by simp [adjustSize, encodedMsgSize]; omega)]
  rfl

theorem encode_of_ptr {m : Msg} (h : m.ptr = image k v []) : encode k v = some m := by
  rw [encode, dif_pos (by rw [← h]; exact m.fits)]
  congr 1
  ext1
  exact h.symm

theorem encode_eq_none (h : ¬ 16 + (k.length + v.length) < 2 ^ 64) : encode k v = none := by
  rw [encode, dif_neg (by rw [length_image]; simpa using h)]

/-- One key. -/
theorem build_key {β : Type} {n : Nat} (hn : n = k.length) (f : Msg → Option β) :
    ((new n).bind fun m => (addKey m k).bind f) = (encode k []).bind f := by
  by_cases h : 16 + n < 2 ^ 64
  · obtain ⟨m, h1, e1⟩ := new_image h
    obtain ⟨m2, h2, e2⟩ := addKey_image (d := k) e1 (by simp [hn])
    rw [encode_of_ptr (m := m2) (by simpa [hn] using e2), h1, Option.bind_some, h2]
  · rw [new_eq_none h, encode_eq_none (by simpa [hn] using h)]
    rfl

/-- A key in two pieces: the key and its clock. -/
theorem build_key₂ {β : Type} {n : Nat} (hn : n = k.length + l.length)
    (f : Msg → Option β) :
    ((new n).bind fun m => (addKey m k).bind fun m => (addKey m l).bind f)
      = (encode (k ++ l) []).bind f := by
  by_cases h : 16 + n < 2 ^ 64
  · obtain ⟨m, h1, e1⟩ := new_image h
    obtain ⟨m2, h2, e2⟩ := addKey_image (d := k) e1 (by simp [hn])
    obtain ⟨m3, h3, e3⟩ := addKey_image (d := l) e2 (by simp [hn])
    rw [encode_of_ptr (m := m3) (by simpa [hn] using e3)]
    simp only [h1, Option.bind_some, h2, h3]
  · rw [new_eq_none h, encode_eq_none (by simpa [hn] using h)]
    rfl

/-- A key in two pieces and a value. -/
theorem build_key₂_value {β : Type} {n : Nat} {k l : List UInt8}
    (hn : n = k.length + l.length + v.length) (f : Msg → Option β) :
    ((new n).bind fun m => (addKey m k).bind fun m => (addKey m l).bind fun m =>
        (addValue m v).bind f)
      = (encode (k ++ l) v).bind f := by
  by_cases h : 16 + n < 2 ^ 64
  · obtain ⟨m, h1, e1⟩ := new_image h
    obtain ⟨m2, h2, e2⟩ := addKey_image (d := k) e1 (by simp [hn]; omega)
    obtain ⟨m3, h3, e3⟩ := addKey_image (d := l) e2 (by simp [hn]; omega)
    obtain ⟨m4, h4, e4⟩ := addValue_image (d := v) e3 (by simp [hn]; omega)
    have hrest : n - k.length - l.length - v.length = 0 := by omega
    rw [encode_of_ptr (m := m4) (by simpa [hrest] using e4)]
    simp only [h1, Option.bind_some, h2, h3, h4]
  · rw [new_eq_none h, encode_eq_none (by simpa [hn, Nat.add_assoc] using h)]
    rfl

/-- A finished message is sent as it is. -/
theorem encode_bind_frame {β : Type} (k v : List UInt8) (f : Msg → Option β) :
    ((encode k v).bind fun m => m.frame.bind f) = (encode k v).bind f := by
  cases h : encode k v with
  | none => rfl
  | some m => rw [Option.bind_some, Msg.frame_of_encode h]

end MsgBuilder

end Avocado
