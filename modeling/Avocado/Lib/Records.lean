/-
# The records of a list

Reading a list from the left, a RECORD is an element whose rank is above the bound and above every
rank before it.  A loop that keeps the best element so far, and does something whenever a better
one turns up, does it for the records and for nothing else; and the last record is the best element
of the list, the first one of its rank.
-/
import Mathlib.Data.List.Basic
import Mathlib.Order.Bounds.Basic

namespace Records

variable {α β : Type*} [LinearOrder β] {rank : α → β} {b : β} {l : List α} {e : α}

/-- The elements that are above everything before them and above `b`. -/
def records (rank : α → β) (b : β) : List α → List α
  | [] => []
  | a :: l => if b < rank a then a :: records rank (rank a) l else records rank b l

/-- The rank of the last record, or the bound. -/
def top (rank : α → β) (b : β) (l : List α) : β :=
  match (records rank b l).getLast? with
  | none => b
  | some e => rank e

theorem records_cons_of_lt {a : α} (h : b < rank a) :
    records rank b (a :: l) = a :: records rank (rank a) l := if_pos h

theorem records_cons_of_le {a : α} (h : rank a ≤ b) :
    records rank b (a :: l) = records rank b l := if_neg (not_lt.mpr h)

theorem records_eq_nil_iff : records rank b l = [] ↔ ∀ a ∈ l, rank a ≤ b := by
  induction l generalizing b with
  | nil => simp [records]
  | cons a l ih =>
    rcases lt_or_ge b (rank a) with h | h
    · rw [records_cons_of_lt h]
      simp [h]
    · rw [records_cons_of_le h, ih, List.forall_mem_cons]
      exact (and_iff_right h).symm

theorem mem_of_mem_records (h : e ∈ records rank b l) : e ∈ l := by
  induction l generalizing b with
  | nil => exact absurd h (by simp [records])
  | cons a l ih =>
    rcases lt_or_ge b (rank a) with hlt | hle
    · rw [records_cons_of_lt hlt] at h
      rcases List.mem_cons.mp h with rfl | h
      · exact List.mem_cons_self
      · exact List.mem_cons_of_mem _ (ih h)
    · rw [records_cons_of_le hle] at h
      exact List.mem_cons_of_mem _ (ih h)

/-- **The last record** is an element above the bound, and nothing is above it. -/
theorem getLast?_records (h : (records rank b l).getLast? = some e) :
    e ∈ l ∧ b < rank e ∧ ∀ a ∈ l, rank a ≤ rank e := by
  induction l generalizing b with
  | nil => exact absurd h (by simp [records])
  | cons a l ih =>
    rcases lt_or_ge b (rank a) with hlt | hle
    · rw [records_cons_of_lt hlt] at h
      by_cases hnil : records rank (rank a) l = []
      · rw [hnil, List.getLast?_singleton, Option.some.injEq] at h
        subst h
        exact ⟨List.mem_cons_self, hlt,
          List.forall_mem_cons.mpr ⟨le_refl _, records_eq_nil_iff.mp hnil⟩⟩
      · obtain ⟨c, cs, hcs⟩ := List.exists_cons_of_ne_nil hnil
        rw [hcs, List.getLast?_cons_cons, ← hcs] at h
        obtain ⟨hmem, ha, hall⟩ := ih h
        exact ⟨List.mem_cons_of_mem _ hmem, hlt.trans ha,
          List.forall_mem_cons.mpr ⟨ha.le, hall⟩⟩
    · rw [records_cons_of_le hle] at h
      obtain ⟨hmem, hb, hall⟩ := ih h
      exact ⟨List.mem_cons_of_mem _ hmem, hb, List.forall_mem_cons.mpr ⟨hle.trans hb.le, hall⟩⟩

/-- **The top rank is the greatest**, so it does not depend on the order of the list. -/
theorem isGreatest_top : IsGreatest {r | r ∈ b :: l.map rank} (top rank b l) := by
  unfold top
  cases hlast : (records rank b l).getLast? with
  | none =>
    have hnil := records_eq_nil_iff.mp (List.getLast?_eq_none_iff.mp hlast)
    refine ⟨List.mem_cons_self, fun r hr => ?_⟩
    rcases List.mem_cons.mp hr with rfl | hr
    · exact le_refl _
    · obtain ⟨a, ha, rfl⟩ := List.mem_map.mp hr
      exact hnil a ha
  | some e =>
    obtain ⟨hmem, hlt, hall⟩ := getLast?_records hlast
    refine ⟨List.mem_cons_of_mem _ (List.mem_map_of_mem hmem), fun r hr => ?_⟩
    rcases List.mem_cons.mp hr with rfl | hr
    · exact hlt.le
    · obtain ⟨a, ha, rfl⟩ := List.mem_map.mp hr
      exact hall a ha

end Records
