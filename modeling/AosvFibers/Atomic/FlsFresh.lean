import AosvFibers.Atomic.Fls

/-!
# What a freshly allocated index reads as

`init_fiber` clears the values of a fiber once. `do_FlsFree` and `do_FlsAlloc` only
change the bitmap, so an index that is allocated again still holds the value it was
left with.

A trace is the list of FLS calls made on one fiber, with their results. `lastStored`
reads off a trace the value last stored at an index while it was allocated, and
`FlsStore.fresh_get` says that this is what a get behind a new allocation returns.

Result: `fls_fresh_iff`.
-/

namespace AosvFibers

open Lib

/-! ## Traces -/

/-- The call stores at the index or gives it up. -/
def Call.disturbs (i : ℤ) : Call → Prop
  | .flsSetValue j _ | .flsFree j => j = i
  | _ => False

/-- Whether the index `i` is allocated and the value last stored at it, after one
    more call. -/
def slotStep (i : ℤ) (s : Bool × Word) : Call × ℤ → Bool × Word
  | (.flsAlloc, res) => (s.1 || decide (res = i), s.2)
  | (.flsFree j, _) => (s.1 && decide (j ≠ i), s.2)
  | (.flsSetValue j v, _) => (s.1, if j = i ∧ s.1 = true then v else s.2)
  | _ => s

/-- The value last stored at `i` while it was allocated, or 0. -/
def lastStored (i : ℤ) (tr : List (Call × ℤ)) : Word := (tr.foldl (slotStep i) (false, 0)).2

/-- In the trace, a get of `i` with result `v` comes after an allocation that
    returned `i` and made behind `pre`, and nothing in between touches the index. -/
def GetsFresh (tr pre : List (Call × ℤ)) (i v : ℤ) : Prop :=
  0 ≤ i ∧ ∃ mid post, tr = pre ++ (.flsAlloc, i) :: (mid ++ (.flsGetValue i, v) :: post) ∧
    ∀ c ∈ mid, ¬ c.1.disturbs i

/-! ## The store along a trace -/

namespace FlsStore

variable {s : FlsStore} {i v : ℤ} {tr tr' mid : List (Call × ℤ)}

/-- The store after the calls of a trace. -/
noncomputable def after (s : FlsStore) (tr : List (Call × ℤ)) : FlsStore :=
  tr.foldl (fun s c => (s.step c.1).2) s

/-- Every call returned what it returns on the store. -/
def Follows : FlsStore → List (Call × ℤ) → Prop
  | _, [] => True
  | s, (c, res) :: tr => res = (s.step c).1 ∧ Follows (s.step c).2 tr

theorem follows_of_replay (h : tr.map Prod.snd = (s.replay (tr.map Prod.fst)).1) : Follows s tr := by
  induction tr generalizing s with
  | nil => trivial
  | cons c tr ih =>
    obtain ⟨c, res⟩ := c
    simp only [List.map_cons, replay, List.cons.injEq] at h
    exact ⟨h.1, ih h.2⟩

theorem Follows.append (h : Follows s (tr ++ tr')) : Follows s tr ∧ Follows (s.after tr) tr' := by
  induction tr generalizing s with
  | nil => exact ⟨trivial, h⟩
  | cons c tr ih =>
    obtain ⟨hres, hrest⟩ := h
    obtain ⟨h1, h2⟩ := ih hrest
    exact ⟨⟨hres, h1⟩, h2⟩

theorem step_alloc (h : s.free.Nonempty) : s.step .flsAlloc =
    (s.free.min' h, s.alloc (s.free.min' h) (s.free.min'_mem h)) := dif_pos h

theorem step_alloc_full (h : ¬ s.free.Nonempty) : s.step .flsAlloc = (-1, s) := dif_neg h

theorem step_free {j : ℤ} (h : j ∈ s.allocated) : s.step (.flsFree j) = (1, s.dealloc j) := if_pos h

theorem step_free_of_not_mem {j : ℤ} (h : j ∉ s.allocated) : s.step (.flsFree j) = (0, s) := if_neg h

theorem step_get {j : ℤ} (h : j ∈ s.allocated) :
    s.step (.flsGetValue j) = ((s.value j).toInt, s) := by
  show (if j ∈ s.allocated then (s.value j).toInt else -1, s) = _
  rw [if_pos h]

theorem step_set {j : ℤ} {w : Word} (h : j ∈ s.allocated) : s.step (.flsSetValue j w) =
    (0, { s with value := Function.update s.value j w }) := by
  show (0, if j ∈ s.allocated then { s with value := Function.update s.value j w } else s) = _
  rw [if_pos h]

theorem step_set_of_not_mem {j : ℤ} {w : Word} (h : j ∉ s.allocated) :
    s.step (.flsSetValue j w) = (0, s) := by
  show (0, if j ∈ s.allocated then { s with value := Function.update s.value j w } else s) = _
  rw [if_neg h]

/-- What `slotStep` reads off a call is what the store does. -/
theorem slotStep_eq (hi : 0 ≤ i) (c : Call) :
    slotStep i (decide (i ∈ s.allocated), s.value i) (c, (s.step c).1) =
      (decide (i ∈ (s.step c).2.allocated), (s.step c).2.value i) := by
  cases c with
  | flsAlloc =>
    by_cases hfree : s.free.Nonempty
    · rw [step_alloc hfree]
      simp [slotStep, alloc, eq_comm, Bool.or_comm]
    · have hne : ¬ (-1 : ℤ) = i := by omega
      rw [step_alloc_full hfree]
      simp [slotStep, hne]
  | flsFree j =>
    by_cases hj : j ∈ s.allocated
    · rw [step_free hj]
      simp [slotStep, dealloc, Bool.and_comm, eq_comm]
    · have hne : i ∈ s.allocated → ¬ j = i := by
        rintro hi rfl
        exact hj hi
      rw [step_free_of_not_mem hj]
      simpa [slotStep] using hne
  | flsSetValue j w =>
    by_cases hj : j ∈ s.allocated
    · rw [step_set hj]
      by_cases hij : j = i
      · subst hij
        simp [slotStep, hj]
      · have hne : i ≠ j := fun h => hij h.symm
        simp [slotStep, hij, Function.update_of_ne hne]
    · have hne : j = i → i ∉ s.allocated := by
        rintro rfl
        exact hj
      rw [step_set_of_not_mem hj]
      simp only [slotStep, decide_eq_true_eq, Prod.mk.injEq, true_and, ite_eq_right_iff]
      rintro ⟨hij, hin⟩
      exact absurd hin (hne hij)
  | _ => rfl

theorem Follows.slot_eq (h : Follows s tr) (hi : 0 ≤ i) :
    tr.foldl (slotStep i) (decide (i ∈ s.allocated), s.value i) =
      (decide (i ∈ (s.after tr).allocated), (s.after tr).value i) := by
  induction tr generalizing s with
  | nil => rfl
  | cons c tr ih =>
    obtain ⟨c, res⟩ := c
    obtain ⟨rfl, hrest⟩ := h
    rw [List.foldl_cons, slotStep_eq hi]
    exact ih hrest

theorem lastStored_eq (h : Follows init tr) (hi : 0 ≤ i) :
    lastStored i tr = (init.after tr).value i := by
  have hslot := h.slot_eq hi
  unfold lastStored
  rw [show (false, (0 : Word)) = (decide (i ∈ init.allocated), init.value i) by simp [init], hslot]

/-- An index in use stays in use with its value when it is left alone. -/
theorem step_undisturbed {c : Call} (hin : i ∈ s.allocated) (hc : ¬ c.disturbs i) :
    i ∈ (s.step c).2.allocated ∧ (s.step c).2.value i = s.value i := by
  cases c with
  | flsAlloc =>
    by_cases hfree : s.free.Nonempty
    · rw [step_alloc hfree]
      exact ⟨Finset.mem_insert_of_mem hin, rfl⟩
    · rw [step_alloc_full hfree]
      exact ⟨hin, rfl⟩
  | flsFree j =>
    have hne : i ≠ j := fun h => hc h.symm
    by_cases hj : j ∈ s.allocated
    · rw [step_free hj]
      exact ⟨Finset.mem_erase.mpr ⟨hne, hin⟩, rfl⟩
    · rw [step_free_of_not_mem hj]
      exact ⟨hin, rfl⟩
  | flsSetValue j w =>
    have hne : i ≠ j := fun h => hc h.symm
    by_cases hj : j ∈ s.allocated
    · rw [step_set hj]
      exact ⟨hin, Function.update_of_ne hne w s.value⟩
    · rw [step_set_of_not_mem hj]
      exact ⟨hin, rfl⟩
  | _ => exact ⟨hin, rfl⟩

theorem after_undisturbed (hin : i ∈ s.allocated) (hmid : ∀ c ∈ mid, ¬ c.1.disturbs i) :
    i ∈ (s.after mid).allocated ∧ (s.after mid).value i = s.value i := by
  induction mid generalizing s with
  | nil => exact ⟨hin, rfl⟩
  | cons c mid ih =>
    obtain ⟨hin', hval⟩ := step_undisturbed hin (hmid c List.mem_cons_self)
    obtain ⟨h1, h2⟩ := ih hin' fun c hc => hmid c (List.mem_cons_of_mem _ hc)
    exact ⟨h1, h2.trans hval⟩

/-- A get of a freshly allocated index returns what was last stored there. -/
theorem fresh_get {pre : List (Call × ℤ)} (h : Follows init tr) (hget : GetsFresh tr pre i v) :
    v = (lastStored i pre).toInt := by
  obtain ⟨hi, mid, post, rfl, hmid⟩ := hget
  obtain ⟨hpre, halloc, hrest⟩ := h.append
  set s := init.after pre with hs
  have hin : i ∈ (s.step .flsAlloc).2.allocated ∧ (s.step .flsAlloc).2.value i = s.value i := by
    by_cases hfree : s.free.Nonempty
    · rw [step_alloc hfree] at halloc ⊢
      replace halloc : i = s.free.min' hfree := halloc
      rw [halloc]
      exact ⟨Finset.mem_insert_self _ _, rfl⟩
    · rw [step_alloc_full hfree] at halloc
      replace halloc : i = -1 := halloc
      omega
  obtain ⟨-, hv, -⟩ := hrest.append
  obtain ⟨h1, h2⟩ := after_undisturbed hin.1 hmid
  rw [lastStored_eq hpre hi, ← hs, ← hin.2, ← h2, hv, step_get h1]

end FlsStore

/-! ## The code -/

variable {E : Env} {k : Kernel} {cpu : Task → Cpu} {es : List Event}

/-- In every history, a freshly allocated index reads as 0 exactly if the value last
    stored at it under earlier allocations is 0, or none was stored. -/
theorem fls_fresh_iff (h : History E cpu es k) (f : Ptr) :
    (∀ pre i v, GetsFresh (flsTrace E f es) pre i v → v = 0) ↔
      ∀ pre i v, GetsFresh (flsTrace E f es) pre i v → lastStored i pre = 0 := by
  have hfollows := FlsStore.follows_of_replay (h.flsInv f).results
  have hzero : ∀ pre i v, GetsFresh (flsTrace E f es) pre i v → (v = 0 ↔ lastStored i pre = 0) := by
    intro pre i v hget
    rw [FlsStore.fresh_get hfollows hget]
    exact ⟨fun h => BitVec.toInt_inj.mp (h.trans rfl), fun h => by rw [h]; rfl⟩
  constructor
  · intro hall pre i v hget
    exact (hzero pre i v hget).mp (hall pre i v hget)
  · intro hall pre i v hget
    exact (hzero pre i v hget).mpr (hall pre i v hget)

/-! ## Histories of FLS calls -/

/-- The results of FLS calls made one after the other on the fiber `r`. -/
def flsRun : List Call → Fiber → List (Call × ℤ)
  | [], _ => []
  | c :: cs, r => (c, (flsEffect c r).1) :: flsRun cs (flsEffect c r).2

/-- The thread that runs `f` makes these calls. -/
theorem exists_history_fls {cur : Task} {ep tp f : Ptr} {p : Process} {t : Thread} {r : Fiber}
    {cs : List Call} (h : History E cpu es k) (hcaller : Caller E k cur ep p tp t)
    (hsel : t.selectedFiber = some f) (hr : k.fiber f = some r) (hcs : ∀ c ∈ cs, c.isFls) :
    ∃ es' k', History E cpu es' k' ∧ flsTrace E f es' = flsTrace E f es ++ flsRun cs r := by
  induction cs generalizing es k r with
  | nil => exact ⟨es, k, h, by simp [flsRun]⟩
  | cons c cs ih =>
    have hc : c.isFls := hcs c List.mem_cons_self
    have hrun : k.running E cur = some f := by
      simp [Kernel.running, hcaller.process, hcaller.process_eq, hcaller.thread, Kernel.selected,
        hcaller.thread_eq, hsel]
    have hist := h.step (o := .call cur c) (fls_run hcaller hsel hr hc)
    -- the records by which the caller finds its fiber are the same
    obtain ⟨es', k', hes', htrace⟩ := ih hist
      ⟨hcaller.process, hcaller.process_eq, hcaller.thread, hcaller.thread_eq⟩
      (Function.update_self ..) fun c hc => hcs c (List.mem_cons_of_mem _ hc)
    refine ⟨es', k', hes', ?_⟩
    rw [htrace, flsTrace_snoc, Event.flsOf_of_running rfl hc hrun, flsRun, Option.toList_some,
      List.append_assoc]
    rfl

/-- FLS calls after the first conversion in process 7. -/
theorem exists_history_firstFiber (cs : List Call) (hcs : ∀ c ∈ cs, c.isFls) : ∃ es k r,
    (Kernel.firstConverted (.linux 240) ⟨7, 7⟩ fun _ => .zero).fiber ⟨7, 2⟩ = some r ∧
    History (.linux 240) (fun _ => .zero) es k ∧
    flsTrace (.linux 240) ⟨7, 2⟩ es = flsRun cs r := by
  have hcaller := firstConverted_caller (.linux 240) ⟨7, 7⟩ fun _ => .zero
  have hconv : (Op.call ⟨7, 7⟩ .convert).run (.linux 240) (Kernel.boot fun _ => .zero) = _ :=
    firstConverted_run (.linux 240) ⟨7, 7⟩ fun _ => .zero
  have hsome : ((Kernel.firstConverted (.linux 240) ⟨7, 7⟩ fun _ => .zero).fiber ⟨7, 2⟩).isSome := by
    decide +kernel
  obtain ⟨r, hr⟩ := Option.isSome_iff_exists.mp hsome
  obtain ⟨es, k, hist, htrace⟩ :=
    exists_history_fls (History.step .nil hconv) hcaller rfl hr hcs
  exact ⟨es, k, r, hr, hist, htrace⟩

/-- An index is allocated and read. -/
theorem fls_fresh_firstAlloc : ∃ es k,
    History (.linux 240) (fun _ => .zero) es k ∧
    flsTrace (.linux 240) ⟨7, 2⟩ es = [(.flsAlloc, 0), (.flsGetValue 0, 0)] ∧
    ∀ pre i v, GetsFresh (flsTrace (.linux 240) ⟨7, 2⟩ es) pre i v → v = 0 := by
  obtain ⟨es, k, r, hr, hist, htrace⟩ := exists_history_firstFiber [.flsAlloc, .flsGetValue 0] (by decide)
  have hrun : ((Kernel.firstConverted (.linux 240) ⟨7, 7⟩ fun _ => .zero).fiber ⟨7, 2⟩).map
      (flsRun [.flsAlloc, .flsGetValue 0]) = some [(.flsAlloc, 0), (.flsGetValue 0, 0)] := by
    decide +kernel
  rw [hr, Option.map_some, ← htrace] at hrun
  replace hrun := Option.some.inj hrun
  refine ⟨es, k, hist, hrun, (fls_fresh_iff hist ⟨7, 2⟩).mpr ?_⟩
  rw [hrun]
  rintro pre i v ⟨-, mid, post, htr, -⟩
  cases pre with
  | nil => rfl
  | cons c pre => cases pre <;> simp at htr

/-- The index is given up holding 7 and allocated again: it reads as 7. -/
theorem fls_fresh_stale : ∃ es k,
    History (.linux 240) (fun _ => .zero) es k ∧
    ∃ pre, GetsFresh (flsTrace (.linux 240) ⟨7, 2⟩ es) pre 0 7 := by
  obtain ⟨es, k, r, hr, hist, htrace⟩ := exists_history_firstFiber
    [.flsAlloc, .flsSetValue 0 7, .flsFree 0, .flsAlloc, .flsGetValue 0] (by decide)
  have hrun : ((Kernel.firstConverted (.linux 240) ⟨7, 7⟩ fun _ => .zero).fiber ⟨7, 2⟩).map
      (flsRun [.flsAlloc, .flsSetValue 0 7, .flsFree 0, .flsAlloc, .flsGetValue 0]) =
        some [(.flsAlloc, 0), (.flsSetValue 0 7, 0), (.flsFree 0, 1), (.flsAlloc, 0),
          (.flsGetValue 0, 7)] := by
    decide +kernel
  rw [hr, Option.map_some, ← htrace] at hrun
  refine ⟨es, k, hist, [(.flsAlloc, 0), (.flsSetValue 0 7, 0), (.flsFree 0, 1)], ?_⟩
  rw [Option.some.inj hrun]
  exact ⟨le_rfl, [], [], rfl, by simp⟩

end AosvFibers
