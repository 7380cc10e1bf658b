import Mathlib.Tactic

/-!
# Doubly linked lists

A store has the two links of every node that is allocated. `Doubly m back head xs` says that `xs`
are the nodes from `head` on along the `prev` links, that `next` leads back from each of them to
the one before it, and from the first one to `back`.

* `Doubly.push`: a new node in front.
* `Doubly.unlink`: a node anywhere in the list is taken out by its two neighbours.
* `seek_eq`: the loop along the `prev` links finds the first node with a property.
-/

namespace AosvFibers.Lib

variable {α : Type*}

/-- The links of a node. -/
structure Links (α : Type*) where
  next : Option α
  prev : Option α

/-- `xs` are linked from `head` on; the node before them is `back`. -/
def Doubly (m : α → Option (Links α)) (back head : Option α) : List α → Prop
  | [] => head = none
  | x :: xs => head = some x ∧ ∃ prev, m x = some ⟨back, prev⟩ ∧ Doubly m (some x) prev xs

/-- The loop along the `prev` links up to a node with the property `p`: `none` if it reads a node
    that is not allocated, or still runs when the fuel is used up. -/
def seek (m : α → Option (Links α)) (p : α → Bool) : ℕ → Option α → Option (Option α)
  | _, none => some none
  | 0, some _ => none
  | fuel + 1, some x =>
    match m x with
    | none => none
    | some l => if p x then some (some x) else seek m p fuel l.prev

section Update

variable [DecidableEq α]

/-- `x->next = v`, if there is a node `x`. -/
def setNext (m : α → Option (Links α)) (x v : Option α) : α → Option (Links α) := fun y =>
  if x = some y then (m y).map fun l => { l with next := v } else m y

/-- `x->prev = v`, if there is a node `x`. -/
def setPrev (m : α → Option (Links α)) (x v : Option α) : α → Option (Links α) := fun y =>
  if x = some y then (m y).map fun l => { l with prev := v } else m y

end Update

variable {m m' : α → Option (Links α)} {back back' head : Option α} {x : α} {xs ys : List α}

namespace Doubly

theorem congr (h : Doubly m back head xs) (hm : ∀ x ∈ xs, m' x = m x) :
    Doubly m' back head xs := by
  induction xs generalizing back head with
  | nil => exact h
  | cons x xs ih =>
    obtain ⟨hhead, prev, hx, hrest⟩ := h
    refine ⟨hhead, prev, ?_, ih hrest fun y hy => hm y (List.mem_cons_of_mem x hy)⟩
    rw [hm x List.mem_cons_self, hx]

theorem head_eq (h : Doubly m back head xs) : head = xs.head? := by
  cases xs with
  | nil => exact h
  | cons x xs => exact h.1

/-- What the loop along the `prev` links finds. -/
theorem seek_eq (h : Doubly m back head xs) (p : α → Bool) {fuel : ℕ} (hfuel : xs.length ≤ fuel) :
    seek m p fuel head = some (xs.find? p) := by
  induction xs generalizing back head fuel with
  | nil =>
    obtain rfl : head = none := h
    cases fuel <;> rfl
  | cons x xs ih =>
    obtain ⟨rfl, prev, hx, hrest⟩ := h
    obtain ⟨fuel, rfl⟩ := Nat.exists_eq_add_of_le' (show 1 ≤ fuel by
      rw [List.length_cons] at hfuel
      omega)
    rw [seek, hx, List.find?_cons]
    dsimp only
    cases p x with
    | true => rfl
    | false => exact ih hrest (by rw [List.length_cons] at hfuel; omega)

variable [DecidableEq α]

/-- The first node gets another node before it. -/
theorem rehead (h : Doubly m back head xs) (hnd : xs.Nodup) :
    Doubly (setNext m head back') back' head xs := by
  cases xs with
  | nil => exact h
  | cons x xs =>
    obtain ⟨rfl, prev, hx, hrest⟩ := h
    obtain ⟨hnot, -⟩ := List.nodup_cons.mp hnd
    refine ⟨rfl, prev, ?_, hrest.congr fun y hy => if_neg ?_⟩
    · rw [setNext, if_pos rfl, hx]
      rfl
    · rintro ⟨⟩
      exact hnot hy

/-- A new node in front of the list. -/
theorem push (h : Doubly m none head xs) (hnd : xs.Nodup) (hx : x ∉ xs) :
    Doubly (setNext (Function.update m x (some ⟨none, head⟩)) head (some x)) none (some x)
      (x :: xs) := by
  have hne : head ≠ some x := by
    intro heq
    rw [h.head_eq] at heq
    exact hx (List.mem_of_head? heq)
  refine ⟨rfl, head, ?_, ?_⟩
  · rw [setNext, if_neg hne, Function.update_self]
  · refine (h.congr fun y hy => ?_).rehead hnd
    refine Function.update_of_ne ?_ _ _
    rintro rfl
    exact hx hy

/-- A node is taken out: the one before it and the one behind it are linked. -/
theorem unlink (h : Doubly m back head (xs ++ x :: ys)) (hnd : (xs ++ x :: ys).Nodup)
    (hback : ∀ b, back = some b → b ∉ xs ++ x :: ys) :
    ∃ next prev, m x = some ⟨next, prev⟩ ∧ next = (xs.getLast?).or back ∧ prev = ys.head? ∧
      Doubly (setNext (setPrev m next prev) prev next) back (if xs = [] then prev else head)
        (xs ++ ys) := by
  induction xs generalizing back head with
  | nil =>
    obtain ⟨rfl, prev, hx, hrest⟩ := h
    obtain ⟨-, hys⟩ := List.nodup_cons.mp hnd
    refine ⟨back, prev, hx, rfl, hrest.head_eq, ?_⟩
    refine (hrest.congr fun y hy => if_neg ?_).rehead hys
    exact fun hb => hback y hb (List.mem_cons_of_mem x hy)
  | cons z xs ih =>
    obtain ⟨rfl, p, hz, hrest⟩ := h
    obtain ⟨hnot, hnd'⟩ := List.nodup_cons.mp hnd
    have hz' : ∀ b, some z = some b → b ∉ xs ++ x :: ys := by
      rintro b ⟨⟩
      exact hnot
    obtain ⟨next, prev, hx, hnext, hprev, hnew⟩ := ih hrest hnd' hz'
    refine ⟨next, prev, hx, ?_, hprev, ?_⟩
    · rw [hnext, List.getLast?_cons]
      cases xs.getLast? <;> rfl
    · have hzprev : prev ≠ some z := by
        intro heq
        rw [hprev] at heq
        exact hnot (List.mem_append_right _ (List.mem_cons_of_mem x (List.mem_of_head? heq)))
      refine ⟨rfl, _, ?_, hnew⟩
      rw [setNext, if_neg hzprev, setPrev]
      split_ifs with hlast hnil hnil
      · rw [hz]
        rfl
      · -- the node before `x` is not the first one
        rw [hnext] at hlast
        have hl := List.getLast?_eq_some_getLast hnil
        rw [hl] at hlast
        cases hlast
        exact absurd (List.mem_append_left _ (List.getLast_mem hnil)) hnot
      · rw [hnext, hnil] at hlast
        exact absurd rfl hlast
      · exact hz

end Doubly

end AosvFibers.Lib
