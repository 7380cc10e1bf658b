import AosvFibers.Lib.HashTable

/-!
# Loops over chains of linked nodes

The chains of a hash table as they are in memory: every node has a `next` field, and a
node that was freed has none that may be read. A loop over a chain runs its body on a
node and reads the node's `next` field afterwards, in the state the body left.

A loop gives `none` if it is still running when the fuel is used up, and `some none` if
it, or its body, touched a freed node.

* `Linked`: a chain, from its first node on, is linked by the `next` fields.
* `forEachBucket_keeps`: a body that keeps the `next` fields is run on every node of
  every bucket in order.
* `forEachBucket_frees`, `forEachBucket_faults`: a body that frees the node it is run on
  lets the loop end only if there is no node, and otherwise a freed node is touched.
* `linked_nextOf`: `next` fields for the chains of a well-formed table.
-/

namespace AosvFibers.Lib

variable {α β σ : Type*}

/-- The `next` field of every node that is allocated. -/
abbrev Store (α : Type*) := α → Option (Option α)

/-- `head` is the first node of the chain `xs`, linked by `next` fields up to the end. -/
def Linked (m : Store α) (head : Option α) : List α → Prop
  | [] => head = none
  | x :: xs => head = some x ∧ ∃ next, m x = some next ∧ Linked m next xs

/-- The body on every node from `pos` on; the node's `next` field is read when the body
    is done with the node. -/
def forEachEntry (next : σ → Store α) (body : α → σ → Option σ) :
    ℕ → Option α → σ → Option (Option σ)
  | _, none, s => some (some s)
  | 0, some _, _ => none
  | fuel + 1, some x, s =>
    match body x s with
    | none => some none
    | some s' =>
      match next s' x with
      | none => some none
      | some pos => forEachEntry next body fuel pos s'

/-- The body on every node of the buckets, one bucket after the other. -/
def forEachBucket (next : σ → Store α) (body : α → σ → Option σ) (head : β → Option α) (fuel : ℕ) :
    List β → σ → Option (Option σ)
  | [], s => some (some s)
  | b :: bs, s =>
    match forEachEntry next body fuel (head b) s with
    | some (some s') => forEachBucket next body head fuel bs s'
    | r => r

variable {next : σ → Store α} {body : α → σ → Option σ} {head : β → Option α} {fuel : ℕ}
  {pos : Option α} {s s' : σ} {x : α} {xs : List α} {bs : List β} {T : HashTable β α}
  {m m' : Store α}

theorem Linked.congr (h : Linked m pos xs) (hm : ∀ x ∈ xs, m' x = m x) : Linked m' pos xs := by
  induction xs generalizing pos with
  | nil => exact h
  | cons x xs ih =>
    obtain ⟨hpos, q, hq, hrest⟩ := h
    refine ⟨hpos, q, ?_, ih hrest fun y hy => hm y (List.mem_cons_of_mem _ hy)⟩
    rw [hm x List.mem_cons_self, hq]

theorem Linked.head_eq (h : Linked m pos xs) : pos = xs.head? := by
  cases xs with
  | nil => exact h
  | cons x xs => exact h.1

/-! ## Bodies that keep the links -/

theorem forEachEntry_keeps (hkeep : ∀ x s s', body x s = some s' → next s' = next s)
    (h : Linked (next s) pos xs) (hfuel : xs.length ≤ fuel) :
    forEachEntry next body fuel pos s = some (xs.foldlM (fun s x => body x s) s) := by
  induction xs generalizing pos s fuel with
  | nil =>
    have hpos : pos = none := h
    subst hpos
    cases fuel <;> rfl
  | cons x xs ih =>
    obtain ⟨hpos, q, hq, hrest⟩ := h
    subst hpos
    rw [List.length_cons] at hfuel
    obtain ⟨n, rfl⟩ : ∃ n, fuel = n + 1 := ⟨fuel - 1, by omega⟩
    rw [forEachEntry, List.foldlM_cons]
    cases hbody : body x s with
    | none => rfl
    | some s₁ =>
      have hnext := hkeep x s s₁ hbody
      simp only [hnext, hq]
      exact ih (by rwa [hnext]) (by omega)

theorem foldlM_keeps (hkeep : ∀ x s s', body x s = some s' → next s' = next s)
    (h : xs.foldlM (fun s x => body x s) s = some s') : next s' = next s := by
  induction xs generalizing s with
  | nil =>
    obtain rfl : s = s' := by simpa using h
    rfl
  | cons x xs ih =>
    rw [List.foldlM_cons] at h
    obtain ⟨s₁, hbody, hrest⟩ := Option.bind_eq_some_iff.mp h
    rw [ih hrest, hkeep x s s₁ hbody]

theorem forEachBucket_keeps (hkeep : ∀ x s s', body x s = some s' → next s' = next s)
    (h : ∀ b ∈ bs, Linked (next s) (head b) (T.chain b))
    (hfuel : ∀ b ∈ bs, (T.chain b).length ≤ fuel) :
    forEachBucket next body head fuel bs s =
      some ((bs.flatMap T.chain).foldlM (fun s x => body x s) s) := by
  induction bs generalizing s with
  | nil => rfl
  | cons b bs ih =>
    have hentry := forEachEntry_keeps hkeep (h b List.mem_cons_self) (hfuel b List.mem_cons_self)
    rw [forEachBucket, hentry, List.flatMap_cons, List.foldlM_append]
    cases hchain : (T.chain b).foldlM (fun s x => body x s) s with
    | none => rfl
    | some s₁ =>
      have hnext := foldlM_keeps hkeep hchain
      exact ih (fun c hc => by rw [hnext]; exact h c (List.mem_cons_of_mem _ hc))
        fun c hc => hfuel c (List.mem_cons_of_mem _ hc)

/-! ## Bodies that free the node -/

/-- The body frees the node it is run on, and a freed node cannot be read. -/
def Frees (next : σ → Store α) (body : α → σ → Option σ) : Prop :=
  ∀ x s s', body x s = some s' → next s' x = none

theorem forEachEntry_frees (hfree : Frees next body)
    (h : forEachEntry next body fuel pos s = some (some s')) : pos = none ∧ s' = s := by
  cases pos with
  | none =>
    cases fuel <;> exact ⟨rfl, (Option.some.inj (Option.some.inj h)).symm⟩
  | some x =>
    cases fuel with
    | zero => cases h
    | succ n =>
      rw [forEachEntry] at h
      cases hbody : body x s with
      | none => simp [hbody] at h
      | some s₁ => simp [hbody, hfree x s s₁ hbody] at h

theorem forEachBucket_frees (hfree : Frees next body) :
    forEachBucket next body head fuel bs s = some (some s') ↔
      (∀ b ∈ bs, head b = none) ∧ s' = s := by
  induction bs generalizing s with
  | nil => simp [forEachBucket, eq_comm]
  | cons b bs ih =>
    rw [forEachBucket, List.forall_mem_cons]
    constructor
    · intro h
      split at h
      · next s₁ hentry =>
        obtain ⟨hhead, rfl⟩ := forEachEntry_frees hfree hentry
        obtain ⟨hrest, hs⟩ := ih.mp h
        exact ⟨⟨hhead, hrest⟩, hs⟩
      · next hnot => exact absurd h (hnot s')
    · rintro ⟨⟨hhead, hrest⟩, rfl⟩
      have hentry : forEachEntry next body fuel none s' = some (some s') := by
        cases fuel <;> rfl
      rw [hhead, hentry]
      exact ih.mpr ⟨hrest, rfl⟩

/-- The fault is there as soon as the loop has started on a node. -/
theorem forEachEntry_faults (hfree : Frees next body) (fuel : ℕ) (x : α) (s : σ) :
    forEachEntry next body (fuel + 1) (some x) s = some none := by
  rw [forEachEntry]
  cases hbody : body x s with
  | none => rfl
  | some s₁ => simp only [hfree x s s₁ hbody]

theorem forEachBucket_faults (hfree : Frees next body) (fuel : ℕ) (s : σ)
    (h : ∃ b ∈ bs, head b ≠ none) : forEachBucket next body head (fuel + 1) bs s = some none := by
  induction bs with
  | nil => simp at h
  | cons b bs ih =>
    rw [forEachBucket]
    cases hhead : head b with
    | some x => rw [forEachEntry_faults hfree]
    | none =>
      obtain ⟨c, hc, hne⟩ := h
      have hcb : c ≠ b := by
        rintro rfl
        exact hne hhead
      have hmem := (List.mem_cons.mp hc).resolve_left hcb
      exact ih ⟨c, hmem, hne⟩

/-! ## Laying out a table -/

/-- The `next` field of a node of a chain. -/
def nextIn [DecidableEq α] : List α → Store α
  | [], _ => none
  | x :: xs, y => if y = x then some xs.head? else nextIn xs y

theorem linked_of_nextIn [DecidableEq α] (hnodup : xs.Nodup) (hm : ∀ x ∈ xs, m x = nextIn xs x) :
    Linked m xs.head? xs := by
  induction xs with
  | nil => rfl
  | cons x xs ih =>
    obtain ⟨hx, hnodup⟩ := List.nodup_cons.mp hnodup
    refine ⟨rfl, xs.head?, ?_, ih hnodup ?_⟩
    · rw [hm x List.mem_cons_self, nextIn, if_pos rfl]
    · intro y hy
      have hne : y ≠ x := by
        rintro rfl
        exact hx hy
      rw [hm y (List.mem_cons_of_mem _ hy), nextIn, if_neg hne]

/-- The `next` fields of a table whose nodes have keys. -/
def HashTable.nextOf {κ : Type*} [DecidableEq α] (hash : κ → β) (key : α → Option κ)
    (T : HashTable β α) : Store α := fun x => (key x).bind fun k => nextIn (T.chain (hash k)) x

theorem HashTable.WF.linked_nextOf {κ : Type*} [DecidableEq α] {hash : κ → β} {key : α → Option κ}
    (h : T.WF hash key) (b : β) : Linked (T.nextOf hash key) (T.chain b).head? (T.chain b) := by
  refine linked_of_nextIn (h.nodup b) ?_
  intro x hx
  obtain ⟨k, hk, rfl⟩ := h.placed hx
  simp [HashTable.nextOf, hk]

end AosvFibers.Lib
