import Mathlib.Algebra.BigOperators.Group.Finset.Basic
import Mathlib.Algebra.Order.BigOperators.Group.Finset
import Mathlib.Tactic

/-!
# Arrays of buckets

A function `a : ℕ → List α` is an array of lists. `contents a base n` is what the
`n` lists from `base` on hold together, as a multiset: `contents_update` says what
becomes of it when one of them changes, `contents_congr` that it depends on no
other list.
-/

namespace AosvFibers.Lib

variable {α : Type*}

/-- What the lists `base`, …, `base + n - 1` hold. -/
def contents (a : ℕ → List α) (base n : ℕ) : Multiset α :=
  ∑ i ∈ Finset.range n, (a (base + i) : Multiset α)

variable {a b : ℕ → List α} {base n i : ℕ} {x : α} {l : List α}

theorem contents_congr (h : ∀ i, i < n → a (base + i) = b (base + i)) :
    contents a base n = contents b base n := by
  refine Finset.sum_congr rfl fun i hi => ?_
  rw [h i (Finset.mem_range.mp hi)]

theorem contents_of_nil (h : ∀ i, i < n → a (base + i) = []) : contents a base n = 0 := by
  refine Finset.sum_eq_zero fun i hi => ?_
  rw [h i (Finset.mem_range.mp hi)]
  rfl

theorem mem_contents : x ∈ contents a base n ↔ ∃ i, i < n ∧ x ∈ a (base + i) := by
  rw [contents, Multiset.mem_sum]
  simp only [Finset.mem_range, Multiset.mem_coe]

/-- One of the lists is replaced. -/
theorem contents_update (hi : i < n) :
    contents (Function.update a (base + i) l) base n + (a (base + i) : Multiset α) =
      contents a base n + (l : Multiset α) := by
  have hmem : i ∈ Finset.range n := Finset.mem_range.mpr hi
  have hrest :
      ∑ j ∈ (Finset.range n).erase i, (Function.update a (base + i) l (base + j) : Multiset α) =
      ∑ j ∈ (Finset.range n).erase i, (a (base + j) : Multiset α) := by
    refine Finset.sum_congr rfl fun j hj => ?_
    have hne : j ≠ i := Finset.ne_of_mem_erase hj
    rw [Function.update_of_ne (show base + j ≠ base + i by omega)]
  unfold contents
  rw [← Finset.sum_erase_add _ _ hmem, hrest, Function.update_self,
    ← Finset.sum_erase_add (Finset.range n) (fun j => (a (base + j) : Multiset α)) hmem]
  exact add_right_comm _ _ _

/-- One of the lists gains an element. -/
theorem contents_insert (hi : i < n) (hl : l.Perm (x :: a (base + i))) :
    contents (Function.update a (base + i) l) base n = x ::ₘ contents a base n := by
  have h := (contents_update hi : contents (Function.update a (base + i) l) base n + _ = _)
  rw [Multiset.coe_eq_coe.mpr hl, ← Multiset.cons_coe, Multiset.add_cons, ← Multiset.cons_add] at h
  exact add_right_cancel h

/-- One of the lists loses its head. -/
theorem contents_tail (hi : i < n) (hl : a (base + i) = x :: l) :
    x ::ₘ contents (Function.update a (base + i) l) base n = contents a base n := by
  have h := (contents_update hi : contents (Function.update a (base + i) l) base n + _ = _)
  rw [hl, ← Multiset.cons_coe, Multiset.add_cons, ← Multiset.cons_add] at h
  exact add_right_cancel h

end AosvFibers.Lib
