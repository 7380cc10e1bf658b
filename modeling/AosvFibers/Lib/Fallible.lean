import Mathlib.Tactic

/-!
# Postconditions of computations that can fail

`Ends F r Q` says of the outcome `r` of a computation that it is a value with the
property `Q`, or one of the errors `F`. Where `F` is never true it says that the
computation does not fail.

* `bind_eq_ok`: what a sequence of two computations has as its value.
* `Ends.bind`, `Ends.mono`: the rules of sequence and consequence.
* `Ends.foldlM`: the rule of the loop over a list, with an invariant that speaks of
  the elements passed so far.
-/

namespace AosvFibers.Lib

universe u

variable {ε : Type*} {α β : Type u}

/-- A sequence of two computations has a value if both have. -/
theorem bind_eq_ok {r : Except ε α} {f : α → Except ε β} {b : β} :
    r >>= f = .ok b ↔ ∃ a, r = .ok a ∧ f a = .ok b := by
  cases r with
  | ok a =>
    constructor
    · exact fun h => ⟨a, rfl, h⟩
    · rintro ⟨a', ⟨⟩, h⟩
      exact h
  | error e =>
    constructor
    · rintro ⟨⟩
    · rintro ⟨a, ⟨⟩, -⟩

/-- The outcome is a value with the property `Q` or an error with the property `F`. -/
def Ends (F : ε → Prop) (r : Except ε α) (Q : α → Prop) : Prop :=
  match r with
  | .ok a => Q a
  | .error e => F e

namespace Ends

variable {F : ε → Prop} {r : Except ε α} {Q R : α → Prop} {a : α}

theorem ok (h : Q a) : Ends F (.ok a) Q := h

theorem pure (h : Q a) : Ends F (Pure.pure a) Q := h

theorem error {e : ε} (h : F e) : Ends F (.error e : Except ε α) Q := h

/-- What the value of a computation that succeeds satisfies. -/
theorem value (h : Ends F r Q) (hr : r = .ok a) : Q a := by
  rw [hr] at h
  exact h

/-- A computation that fails fails with one of the errors. -/
theorem fault {e : ε} (h : Ends F r Q) (hr : r = .error e) : F e := by
  rw [hr] at h
  exact h

theorem mono (h : Ends F r Q) (hQ : ∀ a, Q a → R a) : Ends F r R := by
  cases r with
  | ok a => exact hQ a h
  | error e => exact h

theorem bind {f : α → Except ε β} {R : β → Prop} (h : Ends F r Q)
    (hf : ∀ a, Q a → Ends F (f a) R) : Ends F (r >>= f) R := by
  cases r with
  | ok a => exact hf a h
  | error e => exact h

theorem and (h : Ends F r Q) (h' : Ends F r R) : Ends F r fun a => Q a ∧ R a := by
  cases r with
  | ok a => exact ⟨h, h'⟩
  | error e => exact h

/-- Without errors there is a value. -/
theorem exists_ok (h : Ends (fun _ : ε => False) r Q) : ∃ a, r = .ok a ∧ Q a := by
  cases r with
  | ok a => exact ⟨a, rfl, h⟩
  | error e => exact h.elim

/-- The rule of the loop over a list. -/
theorem foldlM {f : α → β → Except ε α} {I : List β → α → Prop} {l : List β} (h0 : I [] a)
    (hstep : ∀ done b a, done ++ [b] <+: l → I done a → Ends F (f a b) (I (done ++ [b]))) :
    Ends F (l.foldlM f a) (I l) := by
  suffices h : ∀ rest done a, done ++ rest = l → I done a → Ends F (rest.foldlM f a) (I l) from
    h l [] a rfl h0
  intro rest
  induction rest with
  | nil =>
    intro done a hl hI
    rw [List.append_nil] at hl
    exact hl ▸ hI
  | cons b rest ih =>
    intro done a hl hI
    have hl' : (done ++ [b]) ++ rest = l := by simpa using hl
    rw [List.foldlM_cons]
    exact Ends.bind (hstep done b a ⟨rest, hl'⟩ hI) fun a' ha' => ih _ a' hl' ha'

end Ends

end AosvFibers.Lib
