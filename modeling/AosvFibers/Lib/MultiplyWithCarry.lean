import Mathlib.Tactic

/-!
# Multiply with carry

The generator with the multiplier `a` for words of base `b`: a state `x` is a word `x % b` and a
carry `x / b`. A step multiplies by `a` modulo `a * b - 1`.

* `next_modEq`: what a step is modulo `a * b - 1`.
* `next_pos`, `next_lt`: the states between zero and the modulus are kept.
* `iterate_next`: the state after any number of steps.
-/

namespace AosvFibers.Lib.MultiplyWithCarry

variable {a b x : ℕ}

/-- The next state. -/
def next (a b x : ℕ) : ℕ := a * (x % b) + x / b

/-- The modulus of the generator. -/
def modulus (a b : ℕ) : ℕ := a * b - 1

theorem mul_eq (hab : 0 < a * b) : a * x = modulus a b * (x / b) + next a b x := by
  have hx := Nat.div_add_mod x b
  calc a * x = a * (b * (x / b) + x % b) := by rw [hx]
    _ = (modulus a b + 1) * (x / b) + a * (x % b) := by
      rw [show modulus a b + 1 = a * b from Nat.sub_add_cancel hab]
      ring
    _ = modulus a b * (x / b) + next a b x := by
      unfold next
      ring

theorem next_modEq (hab : 0 < a * b) : next a b x ≡ a * x [MOD modulus a b] := by
  rw [mul_eq hab, Nat.ModEq, Nat.mul_add_mod]

theorem next_pos (hab : 0 < a * b) (hx : 0 < x) : 0 < next a b x := by
  by_contra h0
  obtain ⟨hmul, hdiv⟩ := Nat.add_eq_zero_iff.mp (Nat.eq_zero_of_not_pos h0)
  have ha : a ≠ 0 := (Nat.pos_of_mul_pos_right hab).ne'
  have hmod := (Nat.mul_eq_zero.mp hmul).resolve_left ha
  have := Nat.div_add_mod x b
  rw [hdiv, hmod] at this
  omega

/-- The largest state is the modulus itself, which only a step from the modulus leads to. -/
theorem next_lt (hab : 0 < a * b) (hx : x < modulus a b) : next a b x < modulus a b := by
  have ha : 0 < a := Nat.pos_of_mul_pos_right hab
  have hb : 0 < b := Nat.pos_of_mul_pos_left hab
  have hmod : x % b < b := Nat.mod_lt x hb
  have hdiv : x / b < a := by
    refine Nat.div_lt_of_lt_mul ?_
    unfold modulus at hx
    rw [mul_comm]
    omega
  have hsplit := Nat.div_add_mod x b
  unfold next modulus at *
  by_cases hlast : x % b + 1 = b
  · have hlt : b * (x / b + 1) < b * a := by
      rw [mul_add, mul_comm b a]
      omega
    have hdiv' : x / b + 1 < a := Nat.lt_of_mul_lt_mul_left hlt
    have hab' : a * b = a * (x % b) + a := by
      rw [← mul_add_one, hlast]
    omega
  · have hab' : a * (x % b + 1) + a ≤ a * b := by
      rw [← mul_add_one]
      exact Nat.mul_le_mul_left a (by omega)
    rw [mul_add_one] at hab'
    omega

theorem iterate_next (hab : 0 < a * b) (hx : x < modulus a b) (n : ℕ) :
    (next a b)^[n] x = x * a ^ n % modulus a b := by
  induction n with
  | zero => rw [pow_zero, mul_one, Nat.mod_eq_of_lt hx, Function.iterate_zero_apply]
  | succ n ih =>
    have hpos : 0 < modulus a b := by omega
    rw [Function.iterate_succ_apply', ih]
    have hlt := next_lt hab (Nat.mod_lt (x * a ^ n) hpos)
    rw [← Nat.mod_eq_of_lt hlt, next_modEq hab, pow_succ, Nat.mul_mod_mod]
    congr 1
    ring

end AosvFibers.Lib.MultiplyWithCarry
