import AosvFibers.Lib.Chain
import AosvFibers.Atomic.Ownership

/-!
# The teardown loops on linked nodes

`process_cleanup` and the last part of `exit_cleanup` free the records of a table
inside `hash_for_each_rcu`, which reads `next` of the current record to go on. Here the
tables of a process record are nodes in memory: `Layout` holds, for each table, the
heads of its 1024 chains and the `next` fields that link them. `hashForEach`, by which
the rest of the development walks a table, is the order of these chains
(`Layout.visits`).

Results: `teardown_safe_iff`, and `teardown_unsafe` for the processes there are.
-/

namespace AosvFibers

open Lib

variable {E : Env} {k : Kernel} {p : Process} {m : Store Ptr} {T : Table}

/-! ## The loops -/

/-- The two tables of a process record in memory. -/
structure Layout (p : Process) where
  threadHead : Bucket → Option Ptr
  fiberHead : Bucket → Option Ptr
  threadNode : Store Ptr
  fiberNode : Store Ptr
  threads : ∀ b, Linked threadNode (threadHead b) (p.threads.chain b)
  fibers : ∀ b, Linked fiberNode (fiberHead b) (p.fibers.chain b)

/-- The nodes that are left, and the ones freed so far in order. -/
structure Freeing where
  node : Store Ptr
  freed : List Ptr

/-- `kfree` of the record with the node at `x`. -/
def kfreeNode (x : Ptr) (s : Freeing) : Option Freeing :=
  if (s.node x).isSome then some ⟨Function.update s.node x none, s.freed ++ [x]⟩ else none

/-- `hash_for_each_rcu(table, i, x, node) kfree(x)`. The `if (f == NULL) break` in
    `exit_cleanup` never applies: the body is only run on nodes. -/
def freeAll (head : Bucket → Option Ptr) (fuel : ℕ) (m : Store Ptr) : Option (Option Freeing) :=
  forEachBucket Freeing.node kfreeNode head fuel (List.finRange hSz) ⟨m, []⟩

namespace Layout

variable (L : Layout p)

/-- The two loops of `process_cleanup` (module/fibers.c:319-324). -/
def processCleanupLoops (fuel : ℕ) : Option (Option (Freeing × Freeing)) :=
  match freeAll L.threadHead fuel L.threadNode with
  | some (some t) => (freeAll L.fiberHead fuel L.fiberNode).map (Option.map fun f => (t, f))
  | some none => some none
  | none => none

/-- The loop of `exit_cleanup` for the last thread (module/kprobes.c:189-193). -/
def exitCleanupLoop (fuel : ℕ) : Option (Option Freeing) := freeAll L.fiberHead fuel L.fiberNode

/-- The loops of `process_cleanup` end without touching a freed node, and free every
    record once. -/
def ProcessCleanupSafe : Prop := ∃ fuel t f, L.processCleanupLoops fuel = some (some (t, f)) ∧
  t.freed.Perm (hashForEach p.threads) ∧ f.freed.Perm (hashForEach p.fibers)

/-- The loop of `exit_cleanup` does. -/
def ExitCleanupSafe : Prop := ∃ fuel f, L.exitCleanupLoop fuel = some (some f) ∧
  f.freed.Perm (hashForEach p.fibers)

end Layout

/-! ## When they are safe -/

theorem kfreeNode_frees : Frees Freeing.node kfreeNode := by
  intro x s s' h
  unfold kfreeNode at h
  split_ifs at h
  obtain rfl := Option.some.inj h
  exact Function.update_self x none s.node

/-- Whether there is a first node tells whether there is a node. -/
theorem heads_none_iff {head : Bucket → Option Ptr} (h : ∀ b, Linked m (head b) (T.chain b)) :
    (∀ b ∈ List.finRange hSz, head b = none) ↔ ∀ x, x ∉ T := by
  constructor
  · rintro hnone x ⟨b, hb⟩
    have hhead := (h b).head_eq
    rw [hnone b (List.mem_finRange b)] at hhead
    rw [List.head?_eq_none_iff.mp hhead.symm] at hb
    cases hb
  · intro hempty b _
    rw [(h b).head_eq, List.head?_eq_none_iff, List.eq_nil_iff_forall_not_mem]
    exact fun x hx => hempty x ⟨b, hx⟩

/-- The loop gets through just if it has nothing to do. -/
theorem freeAll_eq_some {head : Bucket → Option Ptr} {fuel : ℕ} {s : Freeing}
    (h : ∀ b, Linked m (head b) (T.chain b)) :
    freeAll head fuel m = some (some s) ↔ (∀ x, x ∉ T) ∧ s = ⟨m, []⟩ := by
  unfold freeAll
  rw [forEachBucket_frees kfreeNode_frees, heads_none_iff h]

/-- Otherwise it reads the `next` field of a record it has freed. -/
theorem freeAll_faults {head : Bucket → Option Ptr} {x : Ptr}
    (h : ∀ b, Linked m (head b) (T.chain b)) (hx : x ∈ T) (fuel : ℕ) :
    freeAll head (fuel + 1) m = some none := by
  refine forEachBucket_faults kfreeNode_frees fuel _ ?_
  by_contra hnot
  refine (heads_none_iff h).mp ?_ x hx
  intro b hb
  by_contra hne
  exact hnot ⟨b, hb, hne⟩

theorem hashForEach_eq_nil : hashForEach T = [] ↔ ∀ x, x ∉ T := by
  rw [List.eq_nil_iff_forall_not_mem]
  simp only [mem_hashForEach]

/-- A table is freed safely just if it is empty. -/
theorem freeAll_safe_iff {head : Bucket → Option Ptr} (h : ∀ b, Linked m (head b) (T.chain b)) :
    (∃ fuel s, freeAll head fuel m = some (some s) ∧ s.freed.Perm (hashForEach T)) ↔
      ∀ x, x ∉ T := by
  constructor
  · rintro ⟨fuel, s, hs, -⟩
    exact ((freeAll_eq_some h).mp hs).1
  · intro hempty
    refine ⟨0, ⟨m, []⟩, (freeAll_eq_some h).mpr ⟨hempty, rfl⟩, ?_⟩
    rw [hashForEach_eq_nil.mpr hempty]

namespace Layout

variable (L : Layout p)

theorem processCleanupLoops_eq_some {fuel : ℕ} {t f : Freeing} :
    L.processCleanupLoops fuel = some (some (t, f)) ↔
      freeAll L.threadHead fuel L.threadNode = some (some t) ∧
        freeAll L.fiberHead fuel L.fiberNode = some (some f) := by
  unfold processCleanupLoops
  cases freeAll L.threadHead fuel L.threadNode with
  | none => simp
  | some r =>
    cases r with
    | none => simp
    | some t' => simp [Option.map_eq_some_iff, and_comm]

/-- The teardown loops are safe just for a process without records. -/
theorem teardown_safe_iff :
    (L.ProcessCleanupSafe ↔ (∀ x, x ∉ p.threads) ∧ ∀ x, x ∉ p.fibers) ∧
    (L.ExitCleanupSafe ↔ ∀ x, x ∉ p.fibers) := by
  refine ⟨?_, freeAll_safe_iff L.fibers⟩
  constructor
  · rintro ⟨fuel, t, f, hrun, -, -⟩
    obtain ⟨ht, hf⟩ := L.processCleanupLoops_eq_some.mp hrun
    exact ⟨((freeAll_eq_some L.threads).mp ht).1, ((freeAll_eq_some L.fibers).mp hf).1⟩
  · rintro ⟨hthreads, hfibers⟩
    refine ⟨0, ⟨L.threadNode, []⟩, ⟨L.fiberNode, []⟩, ?_, ?_, ?_⟩
    · exact L.processCleanupLoops_eq_some.mpr ⟨(freeAll_eq_some L.threads).mpr ⟨hthreads, rfl⟩,
        (freeAll_eq_some L.fibers).mpr ⟨hfibers, rfl⟩⟩
    · rw [hashForEach_eq_nil.mpr hthreads]
    · rw [hashForEach_eq_nil.mpr hfibers]

end Layout

/-- A process with one fiber, in bucket 0, and no thread. -/
def oneFiber : Process where
  processId := 7
  lastFiberId := 1
  activeThreads := 0
  threads := .empty
  fibers := HashTable.empty.add 0 ⟨7, 1⟩

/-- Its fiber is alone on its chain. -/
def oneFiberLayout : Layout oneFiber where
  threadHead _ := none
  fiberHead b := if b = 0 then some ⟨7, 1⟩ else none
  threadNode _ := none
  fiberNode _ := some none
  threads _ := rfl
  fibers b := by
    rw [oneFiber, HashTable.chain_add]
    split_ifs with hb
    · exact ⟨rfl, none, rfl, rfl⟩
    · rfl

/-- The fiber is freed and its `next` field is read. -/
theorem teardown_not_safe :
    ¬ oneFiberLayout.ProcessCleanupSafe ∧ ¬ oneFiberLayout.ExitCleanupSafe := by
  have hmem : (⟨7, 1⟩ : Ptr) ∈ oneFiber.fibers := HashTable.mem_add.mpr (.inl rfl)
  constructor
  · rintro ⟨fuel, t, f, hrun, -, -⟩
    obtain ⟨-, hf⟩ := oneFiberLayout.processCleanupLoops_eq_some.mp hrun
    exact ((freeAll_eq_some oneFiberLayout.fibers).mp hf).1 _ hmem
  · rintro ⟨fuel, f, hf, -⟩
    exact ((freeAll_eq_some oneFiberLayout.fibers).mp hf).1 _ hmem

/-! ## The processes there are -/

/-- The tables of a well-formed process record can be laid out. -/
theorem ProcOk.exists_layout {pp : Ptr} (h : ProcOk E k pp p) : Nonempty (Layout p) :=
  ⟨{ threadHead := fun b => (p.threads.chain b).head?
     fiberHead := fun b => (p.fibers.chain b).head?
     threadNode := p.threads.nextOf E.hash k.threadKey
     fiberNode := p.fibers.nextOf E.hash k.fiberKey
     threads := h.threadsWF.linked_nextOf
     fibers := h.fibersWF.linked_nextOf }⟩

/-- However the records of a process lie in memory, tearing it down reads the `next`
    field of a record that was freed. -/
theorem teardown_unsafe {g : PidT} {pp : Ptr} (hk : Reachable E k)
    (hpp : k.processOf E g = some (some pp)) (hp : k.process pp = some p) (L : Layout p)
    (fuel : ℕ) : L.processCleanupLoops (fuel + 1) = some none ∧
      L.exitCleanupLoop (fuel + 1) = some none := by
  obtain ⟨hmem, hok, -⟩ := hk.inv.toShape.processOf_found hpp hp
  obtain ⟨t, ht⟩ := hk.inv.populated pp hmem p hp
  obtain ⟨f, hf, -⟩ := hok.selected t ht
  constructor
  · unfold Layout.processCleanupLoops
    rw [freeAll_faults L.threads ht]
  · exact freeAll_faults L.fibers hf fuel

theorem foldlM_collect (seen xs : List Ptr) :
    xs.foldlM (fun seen x => some (seen ++ [x])) seen = some (seen ++ xs) := by
  induction xs generalizing seen with
  | nil => simp
  | cons x xs ih =>
    rw [List.foldlM_cons]
    show xs.foldlM _ (seen ++ [x]) = _
    rw [ih, List.append_assoc, List.singleton_append]

/-- A loop that only looks at the records meets them bucket by bucket, -/
theorem Layout.visits_buckets (L : Layout p) {fuel : ℕ}
    (hfuel : ∀ b, (p.fibers.chain b).length ≤ fuel) (bs : List Bucket) :
    forEachBucket (fun _ => L.fiberNode) (fun x seen => some (seen ++ [x])) L.fiberHead fuel bs [] =
      some (some (bs.flatMap p.fibers.chain)) := by
  refine (forEachBucket_keeps (T := p.fibers) ?_ ?_ ?_).trans ?_
  · intro _ _ _ _
    rfl
  · exact fun b _ => L.fibers b
  · exact fun b _ => hfuel b
  · exact congrArg some (foldlM_collect [] (bs.flatMap p.fibers.chain))

/-- which is the order of `hashForEach`. -/
theorem Layout.visits (L : Layout p) {fuel : ℕ} (hfuel : ∀ b, (p.fibers.chain b).length ≤ fuel) :
    forEachBucket (fun _ => L.fiberNode) (fun x seen => some (seen ++ [x])) L.fiberHead fuel
      (List.finRange hSz) [] = some (some (hashForEach p.fibers)) :=
  L.visits_buckets hfuel (List.finRange hSz)

end AosvFibers
