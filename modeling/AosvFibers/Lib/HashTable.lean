import Mathlib.Algebra.BigOperators.Fin
import Mathlib.Tactic

/-!
# Chained hash tables of nodes

A table keeps one chain of nodes for each bucket. Nodes are added at the head
of the chain of their key's bucket and a lookup walks one chain until the
first node with the wanted key. The table does not own the keys: a node's key
is read from the node's record through `key`, which is `none` when the record
is not there to be read, and then the walk has no result at all.

* `WF`: every node sits in the bucket of its key, and no chain repeats a node.
* `find_eq_some`, `find_none`, `find_of_mem`: what a walk returns.
* `WF.add`, `WF.del`, `size_add`, `size_del`: insertion and deletion.
* `InjKeys`: no two nodes have the same key, under which a lookup is that of a
  finite map (`InjKeys.find_of_mem`).
-/

namespace AosvFibers.Lib

/-- One chain of nodes for each bucket, the most recently added node first. -/
@[ext] structure HashTable (β α : Type*) where
  chain : β → List α

namespace HashTable

variable {β α κ : Type*}

/-- Every chain is empty. -/
def empty : HashTable β α := ⟨fun _ => []⟩

instance : Membership α (HashTable β α) := ⟨fun T x => ∃ b, x ∈ T.chain b⟩

theorem mem_def {T : HashTable β α} {x : α} : x ∈ T ↔ ∃ b, x ∈ T.chain b := Iff.rfl

@[simp] theorem not_mem_empty (x : α) : x ∉ (empty : HashTable β α) := by
  simp [mem_def, empty]

/-- Add a node at the head of a bucket's chain. -/
def add [DecidableEq β] (T : HashTable β α) (b : β) (x : α) : HashTable β α :=
  ⟨Function.update T.chain b (x :: T.chain b)⟩

/-- Unlink a node from the chain it is on. -/
def del [DecidableEq α] (T : HashTable β α) (x : α) : HashTable β α :=
  ⟨fun b => (T.chain b).erase x⟩

/-- The number of linked nodes. -/
def size [Fintype β] (T : HashTable β α) : ℕ := ∑ b, (T.chain b).length

/-- Walk a chain to the first node with key `k`. The outer `none` is a node
    whose record cannot be read. -/
def walk [DecidableEq κ] (key : α → Option κ) (k : κ) : List α → Option (Option α)
  | [] => some none
  | x :: xs =>
    match key x with
    | none => none
    | some k' => if k' = k then some (some x) else walk key k xs

/-- Look a key up: walk the chain of its bucket. -/
def find [DecidableEq κ] (hash : κ → β) (key : α → Option κ) (T : HashTable β α) (k : κ) :
    Option (Option α) :=
  walk key k (T.chain (hash k))

/-! ## Walks -/

section Walk

variable [DecidableEq κ] {key key' : α → Option κ} {k : κ} {xs : List α} {x : α}

theorem walk_eq_find? (h : ∀ x ∈ xs, (key x).isSome) :
    walk key k xs = some (xs.find? fun x => key x = some k) := by
  induction xs with
  | nil => rfl
  | cons x xs ih =>
    obtain ⟨k', hk'⟩ := Option.isSome_iff_exists.mp (h x (by simp))
    have ih := ih fun y hy => h y (by simp [hy])
    by_cases hkk : k' = k <;> simp [walk, hk', hkk, ih]

theorem walk_some (h : walk key k xs = some (some x)) : x ∈ xs ∧ key x = some k := by
  induction xs with
  | nil => simp [walk] at h
  | cons y ys ih =>
    unfold walk at h
    split at h
    · cases h
    · next k' hk' =>
      split_ifs at h with hkk
      · obtain rfl : y = x := by simpa using h
        exact ⟨by simp, hkk ▸ hk'⟩
      · exact ⟨by simp [(ih h).1], (ih h).2⟩

theorem walk_none (h : walk key k xs = some none) : ∀ x ∈ xs, key x ≠ some k := by
  induction xs with
  | nil => simp
  | cons y ys ih =>
    unfold walk at h
    split at h
    · cases h
    · next k' hk' =>
      split_ifs at h with hkk
      · simp at h
      · intro x hx
        rcases List.mem_cons.mp hx with rfl | hx
        · rw [hk']; simpa using hkk
        · exact ih h x hx

theorem walk_congr (h : ∀ x ∈ xs, key x = key' x) : walk key k xs = walk key' k xs := by
  induction xs with
  | nil => rfl
  | cons y ys ih =>
    rw [walk, walk, h y (by simp), ih fun x hx => h x (by simp [hx])]

end Walk

/-! ## Membership -/

section Mem

variable {T : HashTable β α} {b : β} {x y : α}

@[simp] theorem chain_empty (b : β) : (empty : HashTable β α).chain b = [] := rfl

@[simp] theorem chain_add [DecidableEq β] (T : HashTable β α) (b : β) (x : α) (c : β) :
    (T.add b x).chain c = if c = b then x :: T.chain b else T.chain c := by
  simp [add, Function.update_apply]

@[simp] theorem chain_del [DecidableEq α] (T : HashTable β α) (x : α) (c : β) :
    (T.del x).chain c = (T.chain c).erase x := rfl

@[simp] theorem mem_add [DecidableEq β] : y ∈ T.add b x ↔ y = x ∨ y ∈ T := by
  simp only [mem_def, chain_add]
  constructor
  · rintro ⟨c, hc⟩
    split_ifs at hc with h
    · rcases List.mem_cons.mp hc with rfl | hc
      · exact .inl rfl
      · exact .inr ⟨b, hc⟩
    · exact .inr ⟨c, hc⟩
  · rintro (rfl | ⟨c, hc⟩)
    · exact ⟨b, by simp⟩
    · by_cases h : c = b
      · subst h; exact ⟨c, by simp [hc]⟩
      · exact ⟨c, by simpa [h] using hc⟩

theorem mem_of_mem_del [DecidableEq α] (h : y ∈ T.del x) : y ∈ T := by
  obtain ⟨c, hc⟩ := h
  exact ⟨c, List.mem_of_mem_erase hc⟩

end Mem

/-! ## Well-formed tables -/

/-- Every node sits in the bucket of its key and no chain repeats a node. -/
structure WF (hash : κ → β) (key : α → Option κ) (T : HashTable β α) : Prop where
  placed : ∀ {b x}, x ∈ T.chain b → ∃ k, key x = some k ∧ hash k = b
  nodup : ∀ b, (T.chain b).Nodup

/-- No two nodes have the same key. -/
def InjKeys (key : α → Option κ) (T : HashTable β α) : Prop :=
  ∀ x ∈ T, ∀ y ∈ T, key x = key y → x = y

section WF

variable {hash : κ → β} {key key' : α → Option κ} {T : HashTable β α} {b : β} {x y : α} {k : κ}

theorem WF.empty (hash : κ → β) (key : α → Option κ) : WF hash key (empty : HashTable β α) :=
  ⟨by simp, by simp⟩

theorem WF.key_isSome (h : WF hash key T) (hx : x ∈ T) : (key x).isSome := by
  obtain ⟨b, hb⟩ := hx
  obtain ⟨k, hk, -⟩ := h.placed hb
  simp [hk]

theorem WF.mem_chain (h : WF hash key T) (hx : x ∈ T) (hk : key x = some k) :
    x ∈ T.chain (hash k) := by
  obtain ⟨b, hb⟩ := hx
  obtain ⟨k', hk', rfl⟩ := h.placed hb
  obtain rfl : k' = k := by simpa [hk'] using hk
  exact hb

theorem WF.congr (h : WF hash key T) (hkey : ∀ x ∈ T, key' x = key x) : WF hash key' T where
  placed {b x} hx := by
    rw [hkey x ⟨b, hx⟩]
    exact h.placed hx
  nodup := h.nodup

theorem WF.mem_del [DecidableEq α] (h : WF hash key T) : y ∈ T.del x ↔ y ∈ T ∧ y ≠ x := by
  simp only [mem_def, chain_del]
  constructor
  · rintro ⟨c, hc⟩
    exact ⟨⟨c, List.mem_of_mem_erase hc⟩, ((h.nodup c).mem_erase_iff.mp hc).1⟩
  · rintro ⟨⟨c, hc⟩, hne⟩
    exact ⟨c, (List.mem_erase_of_ne hne).mpr hc⟩

theorem WF.add [DecidableEq β] (h : WF hash key T) (hx : x ∉ T) (hk : key x = some k) :
    WF hash key (T.add (hash k) x) where
  placed {c y} hy := by
    rw [chain_add] at hy
    split_ifs at hy with hc
    · rcases List.mem_cons.mp hy with rfl | hy
      · exact ⟨k, hk, hc.symm⟩
      · rw [hc]; exact h.placed hy
    · exact h.placed hy
  nodup c := by
    rw [chain_add]
    split_ifs with hc
    · exact List.nodup_cons.mpr ⟨fun hm => hx ⟨_, hm⟩, h.nodup _⟩
    · exact h.nodup c

theorem WF.del [DecidableEq α] (h : WF hash key T) : WF hash key (T.del x) where
  placed hy := h.placed (List.mem_of_mem_erase hy)
  nodup c := (h.nodup c).erase x

/-! ## Sizes -/

/-- Walking buckets that the new node is not in. -/
theorem flatMap_chain_add_of_not_mem [DecidableEq β] {bs : List β} (hbs : b ∉ bs) :
    bs.flatMap (T.add b x).chain = bs.flatMap T.chain := by
  apply List.flatMap_congr
  intro c hc
  have hne : c ≠ b := by
    rintro rfl
    exact hbs hc
  rw [chain_add, if_neg hne]

/-- Walking the buckets in some order, a new node is met where its bucket
    begins. -/
theorem flatMap_chain_add [DecidableEq β] {bs cs : List β} (hbs : b ∉ bs) (hcs : b ∉ cs) :
    (bs ++ b :: cs).flatMap (T.add b x).chain =
      bs.flatMap T.chain ++ x :: (b :: cs).flatMap T.chain := by
  rw [List.flatMap_append, flatMap_chain_add_of_not_mem hbs, List.flatMap_cons,
    flatMap_chain_add_of_not_mem hcs, chain_add, if_pos rfl, List.flatMap_cons]
  rfl

/-- The number of nodes in some buckets after one was added. -/
theorem length_flatMap_chain_add [DecidableEq β] {bs : List β} (hbs : bs.Nodup) :
    (bs.flatMap (T.add b x).chain).length =
      (bs.flatMap T.chain).length + if b ∈ bs then 1 else 0 := by
  by_cases h : b ∈ bs
  · obtain ⟨cs, ds, rfl⟩ := List.append_of_mem h
    rw [List.nodup_append, List.nodup_cons] at hbs
    have hcs : b ∉ cs := fun hc => hbs.2.2 b hc b (by simp) rfl
    rw [if_pos h, flatMap_chain_add hcs hbs.2.1.1, List.flatMap_append]
    simp only [List.length_append, List.length_cons]
    omega
  · rw [if_neg h, flatMap_chain_add_of_not_mem h, Nat.add_zero]

theorem size_empty [Fintype β] : (HashTable.empty : HashTable β α).size = 0 := by simp [size]

theorem size_add [Fintype β] [DecidableEq β] (T : HashTable β α) (b : β) (x : α) :
    (T.add b x).size = T.size + 1 := by
  have hlen : ∀ c, ((T.add b x).chain c).length = (T.chain c).length + if c = b then 1 else 0 := by
    intro c
    rw [chain_add]
    split_ifs with h
    · subst h; simp
    · simp
  simp only [size, hlen, Finset.sum_add_distrib]
  simp

theorem WF.size_del [Fintype β] [DecidableEq β] [DecidableEq α] (h : WF hash key T) (hx : x ∈ T) :
    (T.del x).size + 1 = T.size := by
  obtain ⟨b, hb⟩ := hx
  obtain ⟨k, hk, rfl⟩ := h.placed hb
  -- the node is on one chain only, the one of its key
  have hlen : ∀ c, ((T.del x).chain c).length + (if c = hash k then 1 else 0) =
      (T.chain c).length := by
    intro c
    rw [chain_del]
    split_ifs with hc
    · subst hc
      rw [List.length_erase_of_mem hb]
      have := List.length_pos_of_mem hb
      omega
    · have hnm : x ∉ T.chain c := by
        intro hm
        obtain ⟨k', hk', hc'⟩ := h.placed hm
        obtain rfl : k = k' := by simpa [hk] using hk'
        exact hc hc'.symm
      rw [List.erase_of_not_mem hnm]; rfl
  calc (T.del x).size + 1 = ∑ c, (((T.del x).chain c).length + if c = hash k then 1 else 0) := by
        simp [size, Finset.sum_add_distrib]
    _ = T.size := Finset.sum_congr rfl fun c _ => hlen c

theorem size_pos_of_mem [Fintype β] (hx : x ∈ T) : 0 < T.size := by
  obtain ⟨b, hb⟩ := hx
  exact Finset.sum_pos' (by simp) ⟨b, by simp, List.length_pos_of_mem hb⟩

theorem exists_mem_of_size_pos [Fintype β] (h : 0 < T.size) : ∃ x, x ∈ T := by
  obtain ⟨b, -, hb⟩ := Finset.exists_ne_zero_of_sum_ne_zero (Nat.pos_iff_ne_zero.mp h)
  obtain ⟨x, hx⟩ := List.exists_mem_of_ne_nil (T.chain b) fun hn => hb (by simp [hn])
  exact ⟨x, b, hx⟩

/-! ## Distinct keys -/

theorem InjKeys.congr (hinj : InjKeys key T) (hkey : ∀ x ∈ T, key' x = key x) :
    InjKeys key' T := fun x hx y hy hxy =>
  hinj x hx y hy (by rw [← hkey x hx, ← hkey y hy, hxy])

theorem InjKeys.add [DecidableEq β] (hinj : InjKeys key T) (hk : key x = some k)
    (hn : ∀ y ∈ T, key y ≠ some k) : InjKeys key (T.add b x) := by
  intro y hy z hz hyz
  rcases mem_add.mp hy with rfl | hy' <;> rcases mem_add.mp hz with rfl | hz'
  · rfl
  · exact absurd (hyz.symm.trans hk) (hn z hz')
  · exact absurd (hyz.trans hk) (hn y hy')
  · exact hinj y hy' z hz' hyz

theorem InjKeys.del [DecidableEq α] (hinj : InjKeys key T) : InjKeys key (T.del x) :=
  fun y hy z hz => hinj y (mem_of_mem_del hy) z (mem_of_mem_del hz)

/-! ## Lookups -/

variable [DecidableEq κ]

theorem find_eq_some (h : find hash key T k = some (some x)) : x ∈ T ∧ key x = some k :=
  ⟨⟨_, (walk_some h).1⟩, (walk_some h).2⟩

theorem WF.find_isSome (h : WF hash key T) (k : κ) : ∃ r, find hash key T k = some r :=
  ⟨_, walk_eq_find? fun _ hx => h.key_isSome ⟨_, hx⟩⟩

theorem WF.find_none (h : WF hash key T) (hf : find hash key T k = some none) (hx : x ∈ T) :
    key x ≠ some k := fun hk => walk_none hf x (h.mem_chain hx hk) hk

theorem WF.find_of_not_mem (h : WF hash key T) (hn : ∀ x ∈ T, key x ≠ some k) :
    find hash key T k = some none := by
  obtain ⟨r, hr⟩ := h.find_isSome k
  cases r with
  | none => exact hr
  | some x => exact absurd (find_eq_some hr).2 (hn x (find_eq_some hr).1)

theorem WF.find_of_mem (h : WF hash key T) (hx : x ∈ T) (hk : key x = some k) :
    ∃ y, find hash key T k = some (some y) := by
  obtain ⟨r, hr⟩ := h.find_isSome k
  cases r with
  | none => exact absurd hk (h.find_none hr hx)
  | some y => exact ⟨y, hr⟩

theorem InjKeys.find_of_mem (hinj : InjKeys key T) (h : WF hash key T) (hx : x ∈ T)
    (hk : key x = some k) : find hash key T k = some (some x) := by
  obtain ⟨y, hy⟩ := h.find_of_mem hx hk
  rw [hy, hinj y (find_eq_some hy).1 x hx ((find_eq_some hy).2.trans hk.symm)]

theorem find_congr (h : ∀ x ∈ T, key x = key' x) : find hash key T k = find hash key' T k :=
  walk_congr fun x hx => h x ⟨_, hx⟩

/-- A node just added under its key is found: the walk meets it first. -/
theorem find_add_self [DecidableEq β] (hk : key x = some k) :
    find hash key (T.add (hash k) x) k = some (some x) := by
  simp [find, walk, hk]

end WF

end HashTable

end AosvFibers.Lib
