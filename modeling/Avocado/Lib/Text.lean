/-
# C++ strings

Searching a character from either end, and reading a number, as `std::string` and `atoll` do.  A
string is the list of its characters; a position is an `Option`, and `none` is `npos`.

`afterLast` says without positions what a search from the end is for: the text behind the last
separator.  The lemmas lead from the positions to it (`drop_next_lastIdx`), and to the place of a
separator that occurs once (`find_append`, `lastIdx_append`).
-/
import Mathlib.Algebra.Ring.Int.Defs
import Mathlib.Data.List.Basic

namespace Text

/-! ## 1. Searching -/

/-- The last place of a character. -/
def lastIdx (c : Char) : List Char → Option Nat
  | [] => none
  | x :: s =>
    match lastIdx c s with
    | some i => some (i + 1)
    | none => if x = c then some 0 else none

/-- `s.find(c)`. -/
def find (s : List Char) (c : Char) : Option Nat := s.findIdx? fun x => x = c

/-- `s.rfind(c, pos)`: the last place that is not behind `pos`. -/
def rfind (s : List Char) (c : Char) (pos : Option Nat) : Option Nat :=
  match pos with
  | none => lastIdx c s
  | some p => lastIdx c (s.take (p + 1))

/-- `pos + 1`, in a `size_t`: `npos + 1` is zero. -/
def next : Option Nat → Nat
  | none => 0
  | some p => p + 1

/-- `s.substr(0, pos)`. -/
def prefixTo (s : List Char) : Option Nat → List Char
  | none => s
  | some p => s.take p

/-- What is behind the last `c`, or all of it. -/
def afterLast (c : Char) : List Char → List Char
  | [] => []
  | x :: s => if c ∈ s then afterLast c s else if x = c then s else x :: s

variable {c : Char} {s a b : List Char}

theorem lastIdx_eq_none_iff (c : Char) (s : List Char) : lastIdx c s = none ↔ c ∉ s := by
  induction s with
  | nil => simp [lastIdx]
  | cons x s ih =>
    cases h : lastIdx c s with
    | none =>
      have hs : c ∉ s := ih.mp h
      by_cases hx : x = c
      · simp [lastIdx, h, hx]
      · simp [lastIdx, h, hx, hs, Ne.symm hx]
    | some i =>
      have hs : c ∈ s := by
        by_contra hs
        rw [ih.mpr hs] at h
        exact absurd h (by simp)
      simp [lastIdx, h, hs]

/-- **Behind the last place** is what is behind the last separator. -/
theorem drop_next_lastIdx (c : Char) (s : List Char) :
    s.drop (next (lastIdx c s)) = afterLast c s := by
  induction s with
  | nil => rfl
  | cons x s ih =>
    have hmem := lastIdx_eq_none_iff c s
    cases h : lastIdx c s with
    | none =>
      have hs : c ∉ s := hmem.mp h
      by_cases hx : x = c
      · simp [lastIdx, h, hx, afterLast, hs, next]
      · simp [lastIdx, h, hx, afterLast, hs, next]
    | some i =>
      have hs : c ∈ s := by
        by_contra hs
        rw [hmem.mpr hs] at h
        exact absurd h (by simp)
      rw [h] at ih
      simpa [lastIdx, h, afterLast, hs, next] using ih

theorem next_lastIdx_le (c : Char) (s : List Char) : next (lastIdx c s) ≤ s.length := by
  induction s with
  | nil => exact Nat.le_refl _
  | cons x s ih =>
    cases h : lastIdx c s with
    | none =>
      by_cases hx : x = c
      · simp [lastIdx, h, hx, next]
      · simp [lastIdx, h, hx, next]
    | some i =>
      rw [h] at ih
      simpa [lastIdx, h, next] using ih

/-- What is behind every occurrence does not count. -/
theorem lastIdx_append_right (hb : c ∉ b) (a : List Char) : lastIdx c (a ++ b) = lastIdx c a := by
  induction a with
  | nil => rw [List.nil_append, (lastIdx_eq_none_iff c b).mpr hb, lastIdx]
  | cons x a ih => rw [List.cons_append, lastIdx, lastIdx, ih]

theorem lastIdx_append (hb : c ∉ b) (a : List Char) : lastIdx c (a ++ c :: b) = some a.length := by
  induction a with
  | nil =>
    rw [List.nil_append, lastIdx, (lastIdx_eq_none_iff c b).mpr hb]
    exact if_pos rfl
  | cons x a ih => rw [List.cons_append, lastIdx, ih, List.length_cons]

theorem find_append (ha : c ∉ a) (b : List Char) : find (a ++ c :: b) c = some a.length := by
  induction a with
  | nil => simp [find, List.findIdx?_cons]
  | cons x a ih =>
    rw [List.mem_cons, not_or] at ha
    have hx : ¬ x = c := fun h => ha.1 h.symm
    have htail := ih ha.2
    simp only [find] at htail
    simp only [find, List.cons_append, List.findIdx?_cons, hx, decide_false, Bool.false_eq_true,
      if_false, htail, Option.map_some, List.length_cons]

/-! ## 2. Numbers -/

/-- `isspace`. -/
def isspace (c : Char) : Bool := c = ' ' ∨ '\t' ≤ c ∧ c ≤ '\r'

/-- The digits at the front, behind a number read so far. -/
def digits : Nat → List Char → Nat
  | n, [] => n
  | n, c :: s => if c.isDigit then digits (10 * n + (c.toNat - '0'.toNat)) s else n

/-- The decimal number at the front of a text; zero when there is none. -/
def decimal (s : List Char) : Nat := digits 0 s

/-- `atoll`, which is `strtoll` to the base ten: white space, a sign, and digits, up to the first
character that is none; a number that is too large is the largest of its sign. -/
def atoll (s : List Char) : Int :=
  match s.dropWhile isspace with
  | '-' :: t => max (-(2 ^ 63)) (-(decimal t : Int))
  | '+' :: t => min (2 ^ 63 - 1) (decimal t)
  | t => min (2 ^ 63 - 1) (decimal t)

theorem digits_append (hc : c.isDigit = false) (b : List Char) :
    ∀ (n : Nat) (a : List Char), digits n (a ++ c :: b) = digits n a
  | n, [] => by simp [digits, hc]
  | n, x :: a => by
    rw [List.cons_append, digits, digits]
    split
    · exact digits_append hc b _ a
    · rfl

theorem dropWhile_append (hc : isspace c = false) (b : List Char) :
    ∀ a : List Char, (a ++ c :: b).dropWhile isspace = a.dropWhile isspace ++ c :: b
  | [] => by simp [hc]
  | x :: a => by
    rw [List.cons_append, List.dropWhile_cons, List.dropWhile_cons]
    split
    · exact dropWhile_append hc b a
    · rfl

/-- **The number ends where its text does.** -/
theorem atoll_append (hspace : isspace c = false) (hdigit : c.isDigit = false) (hminus : c ≠ '-')
    (hplus : c ≠ '+') (a b : List Char) : atoll (a ++ c :: b) = atoll a := by
  have hstop : decimal (c :: b) = decimal [] := digits_append hdigit b 0 []
  rw [atoll, atoll, dropWhile_append hspace]
  cases a.dropWhile isspace with
  | nil =>
    simp only [List.nil_append]
    split
    · rename_i heq
      exact absurd (List.cons.inj heq).1 hminus
    · rename_i heq
      exact absurd (List.cons.inj heq).1 hplus
    · rw [hstop]
  | cons x t =>
    have hcut : ∀ t : List Char, decimal (t ++ c :: b) = decimal t := digits_append hdigit b 0
    rw [List.cons_append]
    by_cases hx : x = '-'
    · subst hx
      simp only [hcut]
    · by_cases hx' : x = '+'
      · subst hx'
        simp only [hcut]
      · have hall := hcut (x :: t)
        rw [List.cons_append] at hall
        split
        · rename_i heq
          exact absurd (List.cons.inj heq).1 hx
        · rename_i heq
          exact absurd (List.cons.inj heq).1 hx'
        · split
          · rename_i heq
            exact absurd (List.cons.inj heq).1 hx
          · rename_i heq
            exact absurd (List.cons.inj heq).1 hx'
          · rw [hall]

end Text
