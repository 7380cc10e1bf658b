import Mathlib.Algebra.BigOperators.Group.Finset.Basic
import Mathlib.Algebra.Order.BigOperators.Group.Finset
import Mathlib.Tactic

/-!
# Ledgers of a growing counter

Users `u` have a counter that only grows, and what it grows by is due to the
account the user works for at the time. From time to time a user is settled:
what it has used since it was settled last is entered into the accounts.

* `since u f`: what `u` has used for `f` and has not been entered yet;
* `accrued f`: what has been entered for `f`;
* `mark u`: the counter of `u` when it was settled last, or when it started.

`Covered` says that what was entered for the accounts of a group is covered by
the marks of the users of that group. It holds as long as a user is settled only
while its mark is 0 (`Covered.settle`).
-/

namespace AosvFibers.Lib

variable {U F G : Type*}

/-- The accounts of a growing counter. -/
structure Ledger (U F : Type*) where
  since : U → F → ℕ
  accrued : F → ℕ
  mark : U → ℕ

namespace Ledger

/-- Nothing used, nothing entered. -/
def empty : Ledger U F := ⟨fun _ _ => 0, fun _ => 0, fun _ => 0⟩

/-- The accounts of a group are covered by the marks of its users. -/
def Covered (userGroup : U → G) (group : F → G) (L : Ledger U F) : Prop :=
  ∀ g (fs : Finset F) (us : Finset U), (∀ f ∈ fs, group f = g) →
    (∀ u, userGroup u = g → L.mark u ≠ 0 → u ∈ us) →
    ∑ f ∈ fs, L.accrued f ≤ ∑ u ∈ us, L.mark u

variable {userGroup : U → G} {group : F → G} {L : Ledger U F} {u : U} {f : F} {m : ℕ}

theorem Covered.empty : Covered userGroup group (empty : Ledger U F) := by
  intro g fs us _ _
  simp [Ledger.empty]

variable [DecidableEq U]

/-- `u` has used `d` more for `f`. -/
def elapse [DecidableEq F] (L : Ledger U F) (u : U) (f : F) (d : ℕ) : Ledger U F :=
  { L with since := Function.update L.since u (Function.update (L.since u) f (L.since u f + d)) }

/-- `u` starts with its counter at `m`. -/
def start (L : Ledger U F) (u : U) (m : ℕ) : Ledger U F :=
  { L with mark := Function.update L.mark u m }

/-- What `u` has used is entered; its counter is at `m`. -/
def settle (L : Ledger U F) (u : U) (m : ℕ) : Ledger U F where
  since := Function.update L.since u fun _ => 0
  accrued f := L.accrued f + L.since u f
  mark := Function.update L.mark u m

theorem elapse_since [DecidableEq F] (d : ℕ) (v : U) (x : F) :
    (L.elapse u f d).since v x = L.since v x + if v = u ∧ x = f then d else 0 := by
  by_cases hv : v = u
  · subst hv
    by_cases hx : x = f
    · subst hx
      simp [elapse]
    · simp [elapse, hx]
  · simp [elapse, hv]

theorem settle_since_self (x : F) : (L.settle u m).since u x = 0 := by
  simp [settle]

theorem settle_since_of_ne {v : U} (hv : v ≠ u) (x : F) :
    (L.settle u m).since v x = L.since v x := by
  simp [settle, hv]

/-- Time that is not entered yet is covered by nothing and covers nothing. -/
theorem Covered.elapse [DecidableEq F] (h : Covered userGroup group L) (d : ℕ) :
    Covered userGroup group (L.elapse u f d) := h

/-- A mark that is set to `m` was not among the marks to cover before. -/
theorem mem_of_update_mark {g : G} {us : Finset U} (hmark : L.mark u = 0)
    (hus : ∀ v, userGroup v = g → Function.update L.mark u m v ≠ 0 → v ∈ us) :
    ∀ v, userGroup v = g → L.mark v ≠ 0 → v ∈ us := by
  intro v hv hne
  have hvu : v ≠ u := by
    intro he
    rw [he] at hne
    exact hne hmark
  exact hus v hv (by rwa [Function.update_of_ne hvu])

theorem sum_update_mark (us : Finset U) (hmark : L.mark u = 0) :
    ∑ v ∈ us, Function.update L.mark u m v = (if u ∈ us then m else 0) + ∑ v ∈ us, L.mark v := by
  split_ifs with hu
  · have hsplit := Finset.sum_eq_sum_sdiff_singleton_add hu L.mark
    rw [Finset.sum_update_of_mem hu]
    omega
  · rw [Finset.sum_update_of_notMem hu, Nat.zero_add]

theorem Covered.start (h : Covered userGroup group L) (hmark : L.mark u = 0) :
    Covered userGroup group (L.start u m) := by
  intro g fs us hfs hus
  have hle := h g fs us hfs (mem_of_update_mark hmark hus)
  have hsum := sum_update_mark (m := m) us hmark
  show ∑ x ∈ fs, L.accrued x ≤ ∑ v ∈ us, Function.update L.mark u m v
  omega

/-- A user whose mark is 0 is settled for the one account it has worked for. -/
theorem Covered.settle [DecidableEq F] (h : Covered userGroup group L) (hmark : L.mark u = 0)
    (hgroup : group f = userGroup u) (hone : ∀ x, x ≠ f → L.since u x = 0) (hm : L.since u f = m) :
    Covered userGroup group (L.settle u m) := by
  intro g fs us hfs hus
  have hle := h g fs us hfs (mem_of_update_mark hmark hus)
  have hsum := sum_update_mark (m := m) us hmark
  have hsince : ∑ x ∈ fs, L.since u x = if f ∈ fs then m else 0 := by
    rw [Finset.sum_congr rfl fun x _ => show L.since u x = if x = f then m else 0 by
      split_ifs with hx
      · rw [hx, hm]
      · exact hone x hx]
    exact Finset.sum_ite_eq' fs f _
  show ∑ x ∈ fs, (L.accrued x + L.since u x) ≤ ∑ v ∈ us, Function.update L.mark u m v
  rw [Finset.sum_add_distrib, hsince, hsum]
  by_cases hf : f ∈ fs
  · -- what is entered is covered by the new mark
    have hug : userGroup u = g := by rw [← hgroup, hfs f hf]
    rw [if_pos hf]
    by_cases hm0 : m = 0
    · omega
    · rw [if_pos (hus u hug (by simpa [Ledger.settle] using hm0))]
      omega
  · rw [if_neg hf]
    omega

end Ledger

end AosvFibers.Lib
