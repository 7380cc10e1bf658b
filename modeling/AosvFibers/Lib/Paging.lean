import Mathlib.Tactic

/-!
# Handing out a list in pages

A reader asks for a list in pages of limited room. Every element costs some
room, and a page ends before the first element that does not fit.

* `takeFits cost room l` is the page: the longest prefix of `l` whose elements
  fit one after the other.
* `takeFits_eq_self_iff`: the page holds all of `l` exactly if the total cost
  is within the room.
* `take_append_takeFits`: a page that resumes where the last one ended
  continues it.
-/

namespace AosvFibers.Lib

variable {α : Type*} (cost : α → ℕ)

/-- The elements at the front of the list that fit in `room`. -/
def takeFits : ℕ → List α → List α
  | _, [] => []
  | room, a :: l => if cost a ≤ room then a :: takeFits (room - cost a) l else []

/-- The room a list needs. -/
def totalCost (l : List α) : ℕ := (l.map cost).sum

variable {cost} {room : ℕ} {a : α} {l : List α}

@[simp] theorem totalCost_nil : totalCost cost [] = 0 := rfl

@[simp] theorem totalCost_cons : totalCost cost (a :: l) = cost a + totalCost cost l := by
  simp [totalCost]

@[simp] theorem takeFits_nil : takeFits cost room [] = [] := rfl

theorem takeFits_cons_of_le (h : cost a ≤ room) :
    takeFits cost room (a :: l) = a :: takeFits cost (room - cost a) l := by
  rw [takeFits, if_pos h]

theorem takeFits_cons_of_lt (h : room < cost a) : takeFits cost room (a :: l) = [] := by
  rw [takeFits, if_neg (by omega)]

theorem takeFits_isPrefix (room : ℕ) (l : List α) : takeFits cost room l <+: l := by
  induction l generalizing room with
  | nil => exact List.prefix_rfl
  | cons a l ih =>
    by_cases h : cost a ≤ room
    · rw [takeFits_cons_of_le h]
      exact (List.prefix_cons_inj a).mpr (ih _)
    · rw [takeFits_cons_of_lt (by omega)]
      exact List.nil_prefix

theorem takeFits_eq_take (room : ℕ) (l : List α) :
    takeFits cost room l = l.take (takeFits cost room l).length :=
  List.prefix_iff_eq_take.mp (takeFits_isPrefix room l)

theorem length_takeFits_le (room : ℕ) (l : List α) :
    (takeFits cost room l).length ≤ l.length := (takeFits_isPrefix room l).length_le

theorem takeFits_eq_self_iff : takeFits cost room l = l ↔ totalCost cost l ≤ room := by
  induction l generalizing room with
  | nil => simp
  | cons a l ih =>
    rw [totalCost_cons]
    by_cases h : cost a ≤ room
    · rw [takeFits_cons_of_le h, List.cons_inj_right, ih]
      omega
    · rw [takeFits_cons_of_lt (by omega)]
      constructor
      · intro hnil
        cases hnil
      · omega

/-- A page is shorter than the list exactly if something was left out. -/
theorem length_takeFits_lt_iff :
    (takeFits cost room l).length < l.length ↔ room < totalCost cost l := by
  have hpre : takeFits cost room l <+: l := takeFits_isPrefix room l
  have hiff : l.length ≤ (takeFits cost room l).length ↔ totalCost cost l ≤ room := by
    rw [← takeFits_eq_self_iff]
    exact ⟨hpre.eq_of_length_le, fun heq => by rw [heq]⟩
  omega

/-- Resuming at position `n`, the next page continues the first `n` elements. -/
theorem take_append_takeFits (n room : ℕ) (l : List α) :
    l.take n ++ takeFits cost room (l.drop n) =
      l.take (n + (takeFits cost room (l.drop n)).length) := by
  rw [List.take_add, ← takeFits_eq_take]

end AosvFibers.Lib
