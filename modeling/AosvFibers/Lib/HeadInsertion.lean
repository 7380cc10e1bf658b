import AosvFibers.Lib.Chain

/-!
# Nodes put at the head of a list without a lock

Several threads put nodes at the head of one list, each in three steps: it reads the
head, stores what it read in the `next` field of its node and makes its node the head.
Between the read and the last step other nodes may have become the head.

`pub` lists the nodes that were made the head, the last one first, so that the head is
`pub.head?`. No node is made the head twice, and the `next` field of a node is not
written any more after that.

* `Layered`: the `next` field of every node of `pub` leads to a node that was the head
  before it.
* `Layered.exists_walk`: a walk from the head ends, and visits some of the nodes, the
  last one first.
* `Layered.listed_iff`: it visits all of them exactly if `pub` itself is linked, and
  `walk_pub_cons_iff` says that `pub` stays linked if the node that is made the head has
  the old head as its `next`.
-/

namespace AosvFibers.Lib

variable {α : Type*} {next next' : α → Option α} {pos : Option α} {xs ys pub : List α} {n : α}

/-- A chain in a store from which nothing is freed. -/
abbrev Walk (next : α → Option α) : Option α → List α → Prop := Linked fun x => some (next x)

/-- The `next` field of every node leads to a node that was the head before it. -/
def Layered (next : α → Option α) : List α → Prop
  | [] => True
  | n :: pub => n ∉ pub ∧ (∀ m, next n = some m → m ∈ pub) ∧ Layered next pub

/-! ## Walks -/

theorem walk_cons_iff : Walk next pos (n :: xs) ↔ pos = some n ∧ Walk next (next n) xs := by
  constructor
  · rintro ⟨hpos, q, hq, hrest⟩
    exact ⟨hpos, Option.some.inj hq ▸ hrest⟩
  · rintro ⟨hpos, hrest⟩
    exact ⟨hpos, _, rfl, hrest⟩

/-- There is one walk from a place. -/
theorem Walk.unique (h : Walk next pos xs) (h' : Walk next pos ys) : xs = ys := by
  induction xs generalizing pos ys with
  | nil =>
    have hpos : pos = none := h
    have hhead := h'.head_eq
    cases ys with
    | nil => rfl
    | cons y ys => simp [hpos] at hhead
  | cons x xs ih =>
    obtain ⟨rfl, hrest⟩ := walk_cons_iff.mp h
    cases ys with
    | nil => exact absurd h'.head_eq (by simp)
    | cons y ys =>
      obtain ⟨hpos, hrest'⟩ := walk_cons_iff.mp h'
      obtain rfl := Option.some.inj hpos
      rw [ih hrest hrest']

theorem Walk.congr (h : Walk next pos xs) (hnext : ∀ x ∈ xs, next' x = next x) :
    Walk next' pos xs :=
  Linked.congr h fun x hx => congrArg some (hnext x hx)

/-! ## Layers -/

theorem Layered.congr (h : Layered next pub) (hnext : ∀ x ∈ pub, next' x = next x) :
    Layered next' pub := by
  induction pub with
  | nil => trivial
  | cons n pub ih =>
    obtain ⟨hn, hm, hrest⟩ := h
    refine ⟨hn, ?_, ih hrest fun x hx => hnext x (List.mem_cons_of_mem _ hx)⟩
    rw [hnext n List.mem_cons_self]
    exact hm

theorem Layered.nodup (h : Layered next pub) : pub.Nodup := by
  induction pub with
  | nil => exact List.nodup_nil
  | cons n pub ih => exact List.nodup_cons.mpr ⟨h.1, ih h.2.2⟩

/-- A chain without repetitions. -/
theorem Walk.layered (h : Walk next pos xs) (hnodup : xs.Nodup) : Layered next xs := by
  induction xs generalizing pos with
  | nil => trivial
  | cons x xs ih =>
    obtain ⟨-, hrest⟩ := walk_cons_iff.mp h
    obtain ⟨hx, hnodup⟩ := List.nodup_cons.mp hnodup
    refine ⟨hx, fun m hm => ?_, ih hrest hnodup⟩
    rw [hm] at hrest
    exact List.mem_of_mem_head? hrest.head_eq.symm

/-- A walk from a node that was the head once. -/
theorem Layered.exists_walk (h : Layered next pub) (hpos : ∀ m, pos = some m → m ∈ pub) :
    ∃ xs, Walk next pos xs ∧ xs.Sublist pub := by
  induction pub generalizing pos with
  | nil =>
    cases pos with
    | none => exact ⟨[], rfl, .slnil⟩
    | some m => exact absurd (hpos m rfl) List.not_mem_nil
  | cons n pub ih =>
    obtain ⟨-, hlink, hrest⟩ := h
    by_cases hn : pos = some n
    · obtain ⟨xs, hwalk, hsub⟩ := ih hrest hlink
      exact ⟨n :: xs, walk_cons_iff.mpr ⟨hn, hwalk⟩, hsub.cons_cons n⟩
    · have hpub : ∀ m, pos = some m → m ∈ pub := by
        rintro m rfl
        refine (List.mem_cons.mp (hpos m rfl)).resolve_left ?_
        rintro rfl
        exact hn rfl
      obtain ⟨xs, hwalk, hsub⟩ := ih hrest hpub
      exact ⟨xs, hwalk, hsub.cons n⟩

theorem Layered.sublist (h : Layered next pub) (hpos : ∀ m, pos = some m → m ∈ pub)
    (hwalk : Walk next pos xs) : xs.Sublist pub := by
  obtain ⟨ys, hwalk', hsub⟩ := h.exists_walk hpos
  rwa [hwalk.unique hwalk']

/-- The head's walk visits every node that was ever the head exactly if each of them
    has the node before it as its `next`. -/
theorem Layered.listed_iff (h : Layered next pub) (hwalk : Walk next pub.head? xs) :
    (∀ n ∈ pub, n ∈ xs) ↔ Walk next pub.head? pub := by
  constructor
  · intro hall
    have hsub := h.sublist (fun m hm => List.mem_of_mem_head? hm) hwalk
    have hle : pub.length ≤ xs.length := (List.subperm_of_subset h.nodup hall).length_le
    rwa [hsub.eq_of_length_le hle] at hwalk
  · intro hpub n hn
    rwa [hwalk.unique hpub]

/-- A node that is made the head keeps the nodes linked exactly if its `next` is the old
    head. -/
theorem walk_pub_cons_iff :
    Walk next (n :: pub).head? (n :: pub) ↔ next n = pub.head? ∧ Walk next pub.head? pub := by
  rw [List.head?_cons, walk_cons_iff]
  constructor
  · rintro ⟨-, h⟩
    exact ⟨h.head_eq, h.head_eq ▸ h⟩
  · rintro ⟨hnext, h⟩
    exact ⟨rfl, hnext ▸ h⟩

end AosvFibers.Lib
