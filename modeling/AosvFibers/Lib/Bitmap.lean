import Mathlib.Tactic

/-!
# Bitmaps in arrays of words

A bitmap is an array of words of `w` bits; bit `i` is bit `i % w` of word `i / w`. The operations
shift a one to the bit and combine it with the word.

* `test_set`, `test_reset`: what a bit is after one of the bits was set or reset.
-/

namespace AosvFibers.Lib.Bitmap

variable {w : ℕ}

/-- The word with a one at bit `i`, within its word. -/
def mask (w i : ℕ) : BitVec w := 1#w <<< (i % w)

def test (a : ℕ → BitVec w) (i : ℕ) : Bool := a (i / w) &&& mask w i != 0#w

def set (a : ℕ → BitVec w) (i : ℕ) : ℕ → BitVec w :=
  Function.update a (i / w) (a (i / w) ||| mask w i)

def reset (a : ℕ → BitVec w) (i : ℕ) : ℕ → BitVec w :=
  Function.update a (i / w) (a (i / w) &&& ~~~ mask w i)

theorem getLsbD_mask (hw : 0 < w) (i k : ℕ) : (mask w i).getLsbD k = decide (k = i % w) := by
  have hi : i % w < w := Nat.mod_lt i hw
  rw [mask, BitVec.getLsbD_shiftLeft]
  by_cases hk : k < w
  · by_cases hlt : k < i % w
    · simp [hlt]
      omega
    · rw [BitVec.getLsbD_one]
      simp only [hk, hlt, decide_true, decide_false, Bool.not_false, Bool.true_and]
      rw [Bool.eq_iff_iff]
      simp only [Bool.and_eq_true, decide_eq_true_eq]
      omega
  · simp only [hk, decide_false, Bool.false_and]
    rw [eq_comm, decide_eq_false_iff_not]
    omega

theorem test_eq (hw : 0 < w) (a : ℕ → BitVec w) (i : ℕ) :
    test a i = (a (i / w)).getLsbD (i % w) := by
  rw [test, Bool.eq_iff_iff, bne_iff_ne]
  constructor
  · intro hne
    by_contra hbit
    refine hne (BitVec.eq_of_getLsbD_eq fun k _ => ?_)
    rw [BitVec.getLsbD_and, getLsbD_mask hw, BitVec.getLsbD_zero]
    by_cases hk : k = i % w
    · subst hk
      simpa using hbit
    · simp [hk]
  · intro hbit heq
    have h := congrArg (fun v => v.getLsbD (i % w)) heq
    simp only [BitVec.getLsbD_and, getLsbD_mask hw, hbit, BitVec.getLsbD_zero] at h
    simp at h

/-- Two bits are in one place of one word only if they are the same bit. -/
theorem eq_of_place {i j : ℕ} (hword : i / w = j / w) (hbit : i % w = j % w) : i = j := by
  rw [← Nat.div_add_mod i w, ← Nat.div_add_mod j w, hword, hbit]

theorem test_set (hw : 0 < w) (a : ℕ → BitVec w) (i j : ℕ) :
    test (set a i) j = (decide (j = i) || test a j) := by
  rw [test_eq hw, test_eq hw, set]
  by_cases hword : j / w = i / w
  · rw [hword, Function.update_self, BitVec.getLsbD_or, getLsbD_mask hw, Bool.or_comm]
    congr 1
    rw [Bool.eq_iff_iff, decide_eq_true_eq, decide_eq_true_eq]
    exact ⟨fun hbit => eq_of_place hword hbit, fun h => h ▸ rfl⟩
  · have hne : j ≠ i := fun h => hword (h ▸ rfl)
    rw [Function.update_of_ne hword, decide_eq_false hne, Bool.false_or]

theorem test_reset (hw : 0 < w) (a : ℕ → BitVec w) (i j : ℕ) :
    test (reset a i) j = (!decide (j = i) && test a j) := by
  rw [test_eq hw, test_eq hw, reset]
  by_cases hword : j / w = i / w
  · have hj : j % w < w := Nat.mod_lt j hw
    rw [hword, Function.update_self, BitVec.getLsbD_and, BitVec.getLsbD_not, getLsbD_mask hw,
      Bool.and_comm]
    congr 1
    rw [decide_eq_true hj, Bool.true_and]
    congr 1
    rw [Bool.eq_iff_iff, decide_eq_true_eq, decide_eq_true_eq]
    exact ⟨fun hbit => eq_of_place hword hbit, fun h => h ▸ rfl⟩
  · have hne : j ≠ i := fun h => hword (h ▸ rfl)
    rw [Function.update_of_ne hword, decide_eq_false hne, Bool.not_false, Bool.true_and]

end AosvFibers.Lib.Bitmap
