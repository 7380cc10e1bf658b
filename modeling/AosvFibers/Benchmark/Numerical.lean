import AosvFibers.Benchmark.Channel
import AosvFibers.Lib.MultiplyWithCarry

/-!
# The random numbers of the benchmark

`Random` of `src/benchmark/2018-fibers/src/numerical.c`. The 64 bits of `master_seed` are two
generators of 32 bits, `seed1` being the low half. What `random` of the C library returns is a
parameter.

Main result: `random_sequence`, the states of the generator over all calls. The second generator
is zero throughout, and the first one multiplies by 36969 modulo 2422800383.
-/

namespace AosvFibers.Benchmark

open Lib

/-- `master_seed`, and what the C library keeps for `random`. -/
structure Seed (L : Type) where
  master : BitVec 64
  libc : L

variable {L : Type} (libc : L → BitVec 64 × L)

namespace Seed

/-- `*seed1`, the low half of `master_seed`. -/
def seed1 (s : Seed L) : BitVec 32 := s.master.setWidth 32

/-- `*seed2`, the high half. -/
def seed2 (s : Seed L) : BitVec 32 := (s.master >>> 32).setWidth 32

/-- A seed that is zero is drawn from the C library (lines 15-17). -/
def seeded (s : Seed L) : Seed L :=
  if s.master = 0 then { master := (libc s.libc).1, libc := (libc s.libc).2 } else s

/-- `k * (seed & 0xFFFF) + (seed >> 16)` (lines 22-23). -/
def carry (k seed : BitVec 32) : BitVec 32 := k * (seed &&& 0xFFFF#32) + seed >>> 16

/-- The seed after a call of `Random` (lines 15-23). -/
def advance (s : Seed L) : Seed L :=
  let s := s.seeded libc
  { s with master := carry 18000#32 s.seed2 ++ carry 36969#32 s.seed1 }

/-- `(*seed1 << 16u) + (*seed1 >> 16u) + *seed2` (line 26). -/
def sum (s : Seed L) : BitVec 32 := s.seed1 <<< 16 + s.seed1 >>> 16 + s.seed2

end Seed

/-- `Random` (lines 11-27). -/
def random {D : Type} (A : Arith D) (lit : ℚ → D) (s : Seed L) : D × Seed L :=
  let s := s.advance libc
  (A.mul (A.add (A.ofInt s.sum.toNat) (A.ofInt 1)) (lit 2.328306435454494e-10), s)

/-! ## The two generators -/

namespace Seed

theorem carry_toNat {k : BitVec 32} (hk : k.toNat < 65536) (seed : BitVec 32) :
    (carry k seed).toNat = MultiplyWithCarry.next k.toNat 65536 seed.toNat := by
  have hand : (seed &&& 0xFFFF#32).toNat = seed.toNat % 65536 := by
    rw [BitVec.toNat_and]
    exact Nat.and_two_pow_sub_one_eq_mod seed.toNat 16
  have hshift : (seed >>> 16).toNat = seed.toNat / 65536 := by
    rw [BitVec.toNat_ushiftRight, Nat.shiftRight_eq_div_pow]
  have hmul : k.toNat * (seed.toNat % 65536) ≤ 65535 * 65535 :=
    Nat.mul_le_mul (by omega) (by omega)
  have hseed := seed.isLt
  unfold carry MultiplyWithCarry.next
  rw [BitVec.toNat_add, BitVec.toNat_mul, hand, hshift]
  omega

@[simp] theorem seed1_append (hi lo : BitVec 32) (l : L) :
    ({ master := hi ++ lo, libc := l } : Seed L).seed1 = lo := BitVec.setWidth_append_eq_right

@[simp] theorem seed2_append (hi lo : BitVec 32) (l : L) :
    ({ master := hi ++ lo, libc := l } : Seed L).seed2 = hi := by
  unfold seed2
  ext i hlt
  rw [BitVec.getElem_setWidth, BitVec.getLsbD_ushiftRight]
  refine BitVec.getLsbD_append.trans ?_
  rw [if_neg (by omega), Nat.add_sub_cancel_left, BitVec.getLsbD_eq_getElem]

variable {libc : L → BitVec 64 × L} {s : Seed L}

theorem seeded_of_zero (h : s.master = 0) :
    s.seeded libc = { master := (libc s.libc).1, libc := (libc s.libc).2 } := if_pos h

theorem seeded_of_seed1 (h : s.seed1 ≠ 0) : s.seeded libc = s := by
  refine if_neg fun h0 => h ?_
  unfold seed1
  rw [h0]
  rfl

/-- A seed that `random` returned is in the low half. -/
theorem halves_of_small (h : s.master.toNat < 2 ^ 31) :
    s.seed1.toNat = s.master.toNat ∧ s.seed2 = 0 := by
  constructor
  · unfold seed1
    rw [BitVec.toNat_setWidth]
    omega
  · unfold seed2
    refine BitVec.eq_of_toNat_eq ?_
    rw [BitVec.toNat_setWidth, BitVec.toNat_ushiftRight, Nat.shiftRight_eq_div_pow,
      Nat.div_eq_of_lt (by omega)]
    rfl

/-- The first generator moves, and the second one stays zero. -/
theorem advance_halves (h2 : (s.seeded libc).seed2 = 0) :
    (s.advance libc).seed2 = 0 ∧ (s.advance libc).libc = (s.seeded libc).libc ∧
    (s.advance libc).seed1.toNat =
      MultiplyWithCarry.next 36969 65536 (s.seeded libc).seed1.toNat := by
  unfold advance
  dsimp only
  rw [seed1_append, seed2_append, h2]
  exact ⟨by decide, rfl, carry_toNat (by decide) _⟩

/-- The C library after `k` calls of `random`. -/
def after (libc : L → BitVec 64 × L) (l : L) (k : ℕ) : L := (fun l => (libc l).2)^[k] l

/-- What the call `k` of `random` returns. -/
def drawn (libc : L → BitVec 64 × L) (l : L) (k : ℕ) : ℕ := (libc (after libc l k)).1.toNat

/-- The seed after `n` calls: `random` returned zero so far, or its first other value `drawn k` has
    been multiplied by 36969 modulo 2422800383 in each call since. -/
def Sequence (libc : L → BitVec 64 × L) (l : L) (n : ℕ) (s : Seed L) : Prop :=
  (s.master = 0 ∧ s.libc = after libc l n ∧ ∀ k, k < n → drawn libc l k = 0) ∨
  ∃ k, k < n ∧ (∀ j, j < k → drawn libc l j = 0) ∧ drawn libc l k ≠ 0 ∧
    s.libc = after libc l (k + 1) ∧ s.seed2 = 0 ∧ 0 < s.seed1.toNat ∧
    s.seed1.toNat = drawn libc l k * 36969 ^ (n - k) % 2422800383

theorem Sequence.step (hlibc : ∀ l, (libc l).1.toNat < 2 ^ 31) {l : L} {n : ℕ}
    (h : Sequence libc l n s) : Sequence libc l (n + 1) (s.advance libc) := by
  have hmod : MultiplyWithCarry.modulus 36969 65536 = 2422800383 := rfl
  obtain ⟨h0, hl, hzero⟩ | ⟨k, hk, hzero, hne, hl, h2, hpos, hval⟩ := h
  · have hsmall : (s.seeded libc).master.toNat < 2 ^ 31 := by
      rw [seeded_of_zero h0]
      exact hlibc s.libc
    have hdrawn : (s.seeded libc).master.toNat = drawn libc l n := by
      rw [seeded_of_zero h0, hl]
      rfl
    have hafter : (s.seeded libc).libc = after libc l (n + 1) := by
      rw [seeded_of_zero h0, hl]
      unfold after
      rw [Function.iterate_succ_apply']
    obtain ⟨h1, h2⟩ := halves_of_small hsmall
    obtain ⟨h2', hl', h1'⟩ := advance_halves h2
    rw [h1, hdrawn] at h1'
    rw [hdrawn] at hsmall
    by_cases hd : drawn libc l n = 0
    · refine .inl ⟨?_, hl'.trans hafter, fun k hk => ?_⟩
      · have hm : (s.seeded libc).master = 0 := BitVec.eq_of_toNat_eq (hdrawn.trans hd)
        show (carry 18000#32 (s.seeded libc).seed2 ++ carry 36969#32 (s.seeded libc).seed1 :
          BitVec (32 + 32)) = 0
        unfold seed1 seed2
        rw [hm]
        decide
      · obtain hlt | rfl := Nat.lt_succ_iff_lt_or_eq.mp hk
        · exact hzero k hlt
        · exact hd
    · refine .inr ⟨n, n.lt_succ_self, hzero, hd, hl'.trans hafter, h2', ?_, ?_⟩
      · rw [h1']
        exact MultiplyWithCarry.next_pos (by decide) (by omega)
      · rw [h1', Nat.add_sub_cancel_left, ← hmod]
        exact MultiplyWithCarry.iterate_next (a := 36969) (b := 65536) (by decide)
          (by rw [hmod]; omega) 1
  · have hs : s.seeded libc = s := by
      refine seeded_of_seed1 fun h1 => ?_
      rw [h1] at hpos
      exact absurd hpos (by decide)
    have hseed2 : (s.seeded libc).seed2 = 0 := by
      rw [hs]
      exact h2
    obtain ⟨h2', hl', h1'⟩ := advance_halves hseed2
    rw [hs] at hl' h1'
    refine .inr ⟨k, by omega, hzero, hne, hl'.trans hl, h2', ?_, ?_⟩
    · rw [h1']
      exact MultiplyWithCarry.next_pos (by decide) hpos
    · have hlt : s.seed1.toNat < MultiplyWithCarry.modulus 36969 65536 := by
        rw [hval, hmod]
        exact Nat.mod_lt _ (by decide)
      have hnext := MultiplyWithCarry.iterate_next (a := 36969) (b := 65536) (by decide) hlt 1
      rw [h1', show n + 1 - k = n - k + 1 by omega, pow_succ, ← mul_assoc, Nat.mul_mod, ← hval]
      refine hnext.trans ?_
      rw [pow_one, hmod, Nat.mul_mod]

end Seed

/-- A random number is strictly between 0 and 1. -/
theorem random_bounds {K : Type} [Field K] [LinearOrder K] [IsStrictOrderedRing K] [FloorRing K]
    (s : Seed L) : 0 < (random libc (Arith.exact K) (fun x => (x : K)) s).1 ∧
      (random libc (Arith.exact K) (fun x => (x : K)) s).1 < 1 := by
  have hsum : ((s.advance libc).sum.toNat : K) + 1 ≤ 2 ^ 32 := by
    exact_mod_cast (s.advance libc).sum.isLt
  have hnonneg : (0 : K) ≤ (s.advance libc).sum.toNat := Nat.cast_nonneg _
  have hval : (random libc (Arith.exact K) (fun x => (x : K)) s).1 =
      ((s.advance libc).sum.toNat + 1) * ((2.328306435454494e-10 : ℚ) : K) := by
    show (((s.advance libc).sum.toNat : ℤ) + ((1 : ℤ) : K)) * _ = _
    rw [Int.cast_one, Int.cast_natCast]
  have hlit : ((2.328306435454494e-10 : ℚ) : K) = 2328306435454494 / 10 ^ 25 := by
    norm_num
  rw [hval, hlit]
  constructor
  · positivity
  · calc ((s.advance libc).sum.toNat + 1 : K) * (2328306435454494 / 10 ^ 25)
        ≤ 2 ^ 32 * (2328306435454494 / 10 ^ 25) := by gcongr
      _ < 1 := by norm_num

/-- Over all calls of `Random` in a thread, from the zero seed of a new thread on: as long as
    `random` returns zero it is called again; from its first other value on it is not called any
    more, the second generator stays zero, and the first one multiplies by 36969 modulo 2422800383
    and never becomes zero. Each number returned is strictly between 0 and 1. -/
theorem random_sequence {K : Type} [Field K] [LinearOrder K] [IsStrictOrderedRing K]
    [FloorRing K] (libc : L → BitVec 64 × L) (hlibc : ∀ l, (libc l).1.toNat < 2 ^ 31) (l : L)
    (n : ℕ) :
    Seed.Sequence libc l n ((Seed.advance libc)^[n] { master := 0, libc := l }) ∧
    0 < (random libc (Arith.exact K) (fun x => (x : K))
      ((Seed.advance libc)^[n] { master := 0, libc := l })).1 ∧
    (random libc (Arith.exact K) (fun x => (x : K))
      ((Seed.advance libc)^[n] { master := 0, libc := l })).1 < 1 := by
  refine ⟨?_, random_bounds libc _⟩
  induction n with
  | zero => exact .inl ⟨rfl, rfl, fun k hk => absurd hk (Nat.not_lt_zero k)⟩
  | succ n ih =>
    rw [Function.iterate_succ_apply']
    exact ih.step hlibc

/-- A generator that counts, in place of that of the C library. -/
def counter (l : ℕ) : BitVec 64 × ℕ := (BitVec.ofNat 64 (l % 2 ^ 31), l + 1)

/-- The second call finds the seed that `random` left zero in the first one. -/
theorem random_sequence_three :
    Seed.Sequence counter 0 3 ((Seed.advance counter)^[3] { master := 0, libc := 0 }) := by
  refine (random_sequence (K := ℚ) counter (fun l => ?_) 0 3).1
  unfold counter
  rw [BitVec.toNat_ofNat]
  omega

/-! ## Rational numbers -/

/-- The logarithm of a number between 0 and 1, by the first terms of its series. -/
def logSeries (x : ℚ) : ℚ :=
  -((List.range 6).map fun k : ℕ => (1 - x) ^ (k + 1) / ((k + 1 : ℕ) : ℚ)).sum

/-- The powers of ten with an exponent between 0 and 1, by the first terms of the series. -/
def tenPow (x : ℚ) : ℚ :=
  ((List.range 9).map fun k : ℕ => (2.302585 * x) ^ k / (k.factorial : ℚ)).sum

/-- Rational numbers in place of `double`, with the generator of `Random`. -/
def Numerics.rational : Numerics ℚ (Seed ℕ) where
  toArith := Arith.exact ℚ
  lit x := x
  eq a b := decide (a = b)
  neg a := -a
  log := logSeries
  pow _ := tenPow
  random := Benchmark.random counter (Arith.exact ℚ) id
  raw := 0
  rawInt := 0
  rawWords _ := 0

end AosvFibers.Benchmark
