import Mathlib.Tactic
import Mathlib.Data.Nat.Digits.Lemmas

/-!
# C strings and decimal numbers

Text in C is a stretch of bytes in memory that ends at the first NUL. Memory
from some address on is a list of bytes here, and an address a position in it;
beyond the end of the list every byte reads as NUL.

* `decimal n` is the text `%lu` prints for `n`, most significant digit first;
  `ofDecimal` reads it back (`ofDecimal_decimal`).
* `snprintf`, `strnlen`, `strtok` (with one set of delimiters) and `strtol` in
  base 10 follow their specification in the C standard.
* `strtok_of_token` and `strtol_decimal`: a token that is a decimal number is
  found, cut off and read back, whatever stands behind it in memory.
-/

namespace AosvFibers.Lib

/-- A `char`. -/
abbrev Byte := BitVec 8

/-! ## Decimal numbers -/

/-- The character of a digit. -/
def digitByte (d : ℕ) : Byte := BitVec.ofNat 8 (48 + d)

/-- `isdigit` -/
def isDigit (b : Byte) : Bool := 48 ≤ b.toNat && b.toNat ≤ 57

/-- The decimal text of a number. -/
def decimal (n : ℕ) : List Byte :=
  if n = 0 then [digitByte 0] else ((Nat.digits 10 n).reverse.map digitByte)

/-- The value of a sequence of digits. -/
def ofDecimal (ds : List Byte) : ℕ := ds.foldl (fun n b => 10 * n + (b.toNat - 48)) 0

theorem toNat_digitByte {d : ℕ} (h : d < 10) : (digitByte d).toNat = 48 + d := by
  unfold digitByte
  rw [BitVec.toNat_ofNat]
  omega

theorem isDigit_digitByte {d : ℕ} (h : d < 10) : isDigit (digitByte d) = true := by
  unfold isDigit
  rw [toNat_digitByte h]
  simp
  omega

theorem isDigit_of_mem_decimal {n : ℕ} {b : Byte} (h : b ∈ decimal n) : isDigit b = true := by
  unfold decimal at h
  split at h
  · rw [List.mem_singleton.mp h]
    decide
  · obtain ⟨d, hd, rfl⟩ := List.mem_map.mp h
    exact isDigit_digitByte (Nat.digits_lt_base (by omega) (List.mem_reverse.mp hd))

theorem decimal_ne_nil (n : ℕ) : decimal n ≠ [] := by
  unfold decimal
  split
  · simp
  next h =>
    have hnil : Nat.digits 10 n ≠ [] := Nat.digits_ne_nil_iff_ne_zero.mpr h
    simpa using hnil

theorem ofDecimal_decimal (n : ℕ) : ofDecimal (decimal n) = n := by
  unfold decimal
  split
  next h =>
    rw [h]
    decide
  · have hval : ∀ ds : List ℕ, (∀ d ∈ ds, d < 10) →
        ofDecimal (ds.reverse.map digitByte) = Nat.ofDigits 10 ds := by
      intro ds
      induction ds with
      | nil => intro _; rfl
      | cons d ds ih =>
        intro hlt
        have hd := hlt d (by simp)
        rw [Nat.ofDigits_cons, ← ih fun x hx => hlt x (by simp [hx])]
        simp only [ofDecimal, List.reverse_cons, List.map_append, List.map_cons, List.map_nil,
          List.foldl_append, List.foldl_cons, List.foldl_nil, toNat_digitByte hd]
        simp
        omega
    rw [hval _ fun d hd => Nat.digits_lt_base (by omega) hd, Nat.ofDigits_digits]

theorem length_decimal_le {n k : ℕ} (hk : 0 < k) (h : n < 10 ^ k) : (decimal n).length ≤ k := by
  unfold decimal
  split
  · exact hk
  · rw [List.length_map, List.length_reverse]
    exact (Nat.digits_length_le_iff (by omega) n).mpr h

/-! ## Functions of the C library -/

/-- `strnlen` -/
def strnlen (s : List Byte) (maxlen : ℕ) : ℕ := ((s.take maxlen).takeWhile (· ≠ 0)).length

/-- Put `bs` into memory at position `pos`. -/
def writeAt (mem : List Byte) (pos : ℕ) (bs : List Byte) : List Byte :=
  mem.take pos ++ bs ++ mem.drop (pos + bs.length)

/-- `snprintf(buf, size, ...)` of a given text, `buf` being the front of `mem`. -/
def snprintf (mem : List Byte) (size : ℕ) (text : List Byte) : List Byte :=
  writeAt mem 0 (text.take (size - 1) ++ [0])

/-- `isspace` -/
def isSpace (b : Byte) : Bool := b.toNat = 32 || (9 ≤ b.toNat && b.toNat ≤ 13)

/-- The optional sign of a number, and what follows it. -/
def signOf : List Byte → Bool × List Byte
  | [] => (false, [])
  | b :: s => if b = 45 then (true, s) else if b = 43 then (false, s) else (false, b :: s)

/-- `strtol(s, &ptr, 10)` -/
def strtol (s : List Byte) : ℤ :=
  let (neg, s) := signOf (s.dropWhile isSpace)
  let n : ℤ := ofDecimal (s.takeWhile isDigit)
  max (-2 ^ 63) (min (2 ^ 63 - 1) (if neg then -n else n))

/-- `strtok` from the saved position `pos` on: the token, the position to go on
    from, and memory with the delimiter after the token overwritten. -/
def strtok (delim : List Byte) (mem : List Byte) (pos : ℕ) : Option ℕ × ℕ × List Byte :=
  let start := pos + ((mem.drop pos).takeWhile (· ∈ delim)).length
  if mem.getD start 0 = 0 then (none, start, mem)
  else
    let stop := start + ((mem.drop start).takeWhile fun b => b ∉ delim ∧ b ≠ 0).length
    if mem.getD stop 0 = 0 then (some start, stop, mem)
    else (some start, stop + 1, mem.set stop 0)

/-! ## What they do -/

theorem takeWhile_append_cons {α : Type*} {q : α → Bool} {l r : List α} {a : α}
    (hl : ∀ x ∈ l, q x = true) (ha : q a = false) : (l ++ a :: r).takeWhile q = l := by
  rw [List.takeWhile_append_of_pos hl, List.takeWhile_cons, ha]
  simp

theorem strnlen_append_nul {s r : List Byte} {maxlen : ℕ} (hs : ∀ b ∈ s, b ≠ 0)
    (hlen : s.length < maxlen) : strnlen (s ++ 0 :: r) maxlen = s.length := by
  unfold strnlen
  rw [List.take_append, List.take_of_length_le (by omega)]
  obtain ⟨m, hm⟩ : ∃ m, maxlen - s.length = m + 1 := ⟨maxlen - s.length - 1, by omega⟩
  rw [hm, List.take_succ_cons, takeWhile_append_cons (by simpa using hs) (by simp)]

/-- A text shorter than the buffer comes out whole. -/
theorem snprintf_eq {mem text : List Byte} {size : ℕ} (h : text.length < size) :
    snprintf mem size text = text ++ 0 :: mem.drop (text.length + 1) := by
  have htake : text.take (size - 1) = text := List.take_of_length_le (by omega)
  unfold snprintf writeAt
  rw [htake]
  simp

/-- A number that is followed by something else than a digit is read back. -/
theorem strtol_decimal {n : ℕ} (hn : n < 2 ^ 63) {b : Byte} (hb : isDigit b = false)
    (r : List Byte) : strtol (decimal n ++ b :: r) = n := by
  obtain ⟨d, ds, hds⟩ := List.exists_cons_of_ne_nil (decimal_ne_nil n)
  have hd : isDigit d = true := isDigit_of_mem_decimal (hds ▸ List.mem_cons_self)
  have hrange : 48 ≤ d.toNat ∧ d.toNat ≤ 57 := by simpa [isDigit] using hd
  have hspace : isSpace d = false := by
    simp [isSpace]
    omega
  have hdrop : (decimal n ++ b :: r).dropWhile isSpace = decimal n ++ b :: r := by
    rw [hds, List.cons_append, List.dropWhile_cons_of_neg (by simp [hspace])]
  have hsign : signOf (decimal n ++ b :: r) = (false, decimal n ++ b :: r) := by
    have h45 : d ≠ 45 := fun h => by rw [h] at hrange; simp at hrange
    have h43 : d ≠ 43 := fun h => by rw [h] at hrange; simp at hrange
    rw [hds, List.cons_append, signOf, if_neg h45, if_neg h43]
  have hdigits : (decimal n ++ b :: r).takeWhile isDigit = decimal n :=
    takeWhile_append_cons (fun x hx => isDigit_of_mem_decimal hx) hb
  simp only [strtol, hdrop, hsign, hdigits, ofDecimal_decimal, Bool.false_eq_true, if_false]
  omega

/-- A token at the saved position, ended by a delimiter: it is cut off there. -/
theorem strtok_of_token {delim l tok r : List Byte} {b : Byte} (htok : tok ≠ [])
    (hin : ∀ c ∈ tok, c ∉ delim ∧ c ≠ 0) (hb : b ∈ delim) (hb0 : b ≠ 0) :
    strtok delim (l ++ (tok ++ b :: r)) l.length =
      (some l.length, l.length + tok.length + 1, l ++ (tok ++ 0 :: r)) := by
  obtain ⟨c, cs, hc⟩ := List.exists_cons_of_ne_nil htok
  have hfirst := hin c (hc ▸ List.mem_cons_self)
  have hstart : (((l ++ (tok ++ b :: r)).drop l.length).takeWhile (· ∈ delim)).length = 0 := by
    rw [List.drop_left, hc, List.cons_append, List.takeWhile_cons]
    simp [hfirst.1]
  have hstop : (((l ++ (tok ++ b :: r)).drop l.length).takeWhile
      fun x => x ∉ delim ∧ x ≠ 0) = tok := by
    rw [List.drop_left]
    exact takeWhile_append_cons (by simpa using hin) (by simp [hb])
  have hget0 : (l ++ (tok ++ b :: r)).getD l.length 0 ≠ 0 := by
    rw [hc]
    simpa using hfirst.2
  have hgetb : (l ++ (tok ++ b :: r)).getD (l.length + tok.length) 0 = b := by
    simp
  have hset : (l ++ (tok ++ b :: r)).set (l.length + tok.length) 0 = l ++ (tok ++ 0 :: r) := by
    rw [List.set_append_right _ _ (by omega), Nat.add_sub_cancel_left,
      List.set_append_right _ _ (by omega), Nat.sub_self, List.set_cons_zero]
  unfold strtok
  simp only [hstart, Nat.add_zero, hget0, if_false, hstop, hgetb, hb0, hset]

end AosvFibers.Lib
