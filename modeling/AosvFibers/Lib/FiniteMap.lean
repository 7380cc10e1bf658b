import AosvFibers.Lib.HashTable

/-!
# Chained hash tables as finite maps

A table changes by insertions of a node under a key and by deletions of a node,
and `MapOp.onTable` is what such a change does to the chains. `Held ops k x` says
of a sequence of changes that `x` was inserted under `k` and not deleted since,
which is what a map from keys to nodes has at `k`.

`IsMap` says that a table is what some changes made of the empty table, and the
map of these changes: a lookup returns the node held under its key
(`IsMap.find_eq`) and no two linked nodes have the same key. A table does not look
whether a key is taken, so that the keys of the table after an insertion are for
the caller to know (`IsMap.insert`).
-/

namespace AosvFibers.Lib

variable {α β κ : Type*}

/-- A change to a table. -/
inductive MapOp (κ α : Type*)
  | insert (key : κ) (x : α)
  | delete (x : α)

namespace MapOp

/-- The change to the chains: at the head of the key's bucket, or out of its chain. -/
def onTable [DecidableEq β] [DecidableEq α] (hash : κ → β) (T : HashTable β α) :
    MapOp κ α → HashTable β α
  | insert key x => T.add (hash key) x
  | delete x => T.del x

/-- `x` was inserted under `key` and not deleted since. -/
def Held (ops : List (MapOp κ α)) (key : κ) (x : α) : Prop :=
  ∃ before since, ops = before ++ insert key x :: since ∧ delete x ∉ since

variable {ops : List (MapOp κ α)} {key k : κ} {x y : α}

theorem not_held_nil : ¬ Held ([] : List (MapOp κ α)) key x := by
  rintro ⟨before, since, h, -⟩
  simp at h

/-- What is held after one more change: what was held before and not deleted by
    it, and what it inserted. -/
theorem held_snoc {op : MapOp κ α} :
    Held (ops ++ [op]) key x ↔ op = insert key x ∨ Held ops key x ∧ op ≠ delete x := by
  constructor
  · rintro ⟨before, since, h, hdel⟩
    rcases List.eq_nil_or_concat since with rfl | ⟨since, last, rfl⟩
    · obtain ⟨-, hop⟩ := List.append_inj' h rfl
      exact .inl (List.singleton_inj.mp hop)
    · rw [List.concat_eq_append] at h hdel
      rw [← List.cons_append, ← List.append_assoc] at h
      obtain ⟨hops, hop⟩ := List.append_inj' h rfl
      obtain rfl := List.singleton_inj.mp hop
      rw [List.mem_append, not_or, List.mem_singleton] at hdel
      exact .inr ⟨⟨before, since, hops, hdel.1⟩, Ne.symm hdel.2⟩
  · rintro (rfl | ⟨⟨before, since, rfl, hdel⟩, hop⟩)
    · exact ⟨ops, [], rfl, List.not_mem_nil⟩
    · refine ⟨before, since ++ [op], by simp, ?_⟩
      rw [List.mem_append, not_or, List.mem_singleton]
      exact ⟨hdel, Ne.symm hop⟩

theorem held_insert : Held (ops ++ [insert k y]) key x ↔ key = k ∧ x = y ∨ Held ops key x := by
  rw [held_snoc]
  simp [eq_comm]

theorem held_delete : Held (ops ++ [delete y]) key x ↔ Held ops key x ∧ x ≠ y := by
  rw [held_snoc]
  simp [eq_comm]

end MapOp

namespace HashTable

/-- The table is what the changes `ops` made, and their map. -/
structure IsMap [DecidableEq β] [DecidableEq α] (hash : κ → β) (key : α → Option κ)
    (T : HashTable β α) (ops : List (MapOp κ α)) : Prop where
  replay : T = ops.foldl (MapOp.onTable hash) .empty
  wf : WF hash key T
  inj : InjKeys key T
  held_iff : ∀ k x, MapOp.Held ops k x ↔ x ∈ T ∧ key x = some k

namespace IsMap

variable [DecidableEq β] [DecidableEq α] {hash : κ → β} {key key' : α → Option κ}
  {T : HashTable β α} {ops : List (MapOp κ α)} {k : κ} {x : α}

theorem empty (hash : κ → β) (key : α → Option κ) :
    IsMap hash key (HashTable.empty : HashTable β α) [] := by
  refine ⟨rfl, .empty hash key, ?_, ?_⟩
  · intro x hx
    exact absurd hx (not_mem_empty x)
  · intro k x
    simp [MapOp.not_held_nil]

theorem congr (h : IsMap hash key T ops) (hkey : ∀ x ∈ T, key' x = key x) :
    IsMap hash key' T ops := by
  refine ⟨h.replay, h.wf.congr hkey, h.inj.congr hkey, ?_⟩
  intro k x
  rw [h.held_iff, and_congr_right_iff]
  intro hx
  rw [hkey x hx]

/-- A lookup returns the node held under the key, if there is one. -/
theorem find_eq [DecidableEq κ] (h : IsMap hash key T ops) (k : κ) :
    ∃ r, find hash key T k = some r ∧ ∀ x, r = some x ↔ MapOp.Held ops k x := by
  obtain ⟨r, hr⟩ := h.wf.find_isSome k
  refine ⟨r, hr, ?_⟩
  intro x
  rw [h.held_iff]
  constructor
  · rintro rfl
    exact find_eq_some hr
  · rintro ⟨hx, hk⟩
    rw [h.inj.find_of_mem h.wf hx hk] at hr
    exact (Option.some.inj hr).symm

/-- An insertion after which the nodes are under their keys and these distinct. -/
theorem insert (h : IsMap hash key T ops) (hkey : ∀ y ∈ T, key' y = key y) (hx : key' x = some k)
    (hwf : WF hash key' (T.add (hash k) x)) (hinj : InjKeys key' (T.add (hash k) x)) :
    IsMap hash key' (T.add (hash k) x) (ops ++ [.insert k x]) := by
  refine ⟨?_, hwf, hinj, ?_⟩
  · rw [List.foldl_append, ← h.replay]
    rfl
  · intro k' y
    rw [MapOp.held_insert, (h.congr hkey).held_iff, mem_add]
    constructor
    · rintro (⟨rfl, rfl⟩ | ⟨hy, hk⟩)
      · exact ⟨.inl rfl, hx⟩
      · exact ⟨.inr hy, hk⟩
    · rintro ⟨rfl | hy, hk⟩
      · exact .inl ⟨Option.some.inj (hk.symm.trans hx), rfl⟩
      · exact .inr ⟨hy, hk⟩

theorem delete (h : IsMap hash key T ops) (hkey : ∀ y ∈ T.del x, key' y = key y) :
    IsMap hash key' (T.del x) (ops ++ [.delete x]) := by
  refine ⟨?_, h.wf.del.congr hkey, h.inj.del.congr hkey, ?_⟩
  · rw [List.foldl_append, ← h.replay]
    rfl
  · intro k y
    rw [MapOp.held_delete, h.held_iff, h.wf.mem_del]
    constructor
    · rintro ⟨⟨hy, hk⟩, hne⟩
      exact ⟨⟨hy, hne⟩, (hkey y (h.wf.mem_del.mpr ⟨hy, hne⟩)).trans hk⟩
    · rintro ⟨⟨hy, hne⟩, hk⟩
      exact ⟨⟨hy, (hkey y (h.wf.mem_del.mpr ⟨hy, hne⟩)).symm.trans hk⟩, hne⟩

end IsMap

end HashTable

end AosvFibers.Lib
