import AosvFibers.Atomic.Context

/-!
# Fiber local storage follows the fiber

`FlsStore` is what the FLS of one fiber is for: a set of allocated indices and
a value for every index, with the four operations on it. It knows nothing of
bitmaps, threads or lookups.

Results:
* `flsEffect_represents`: on a fiber that represents a store, the code does to
  the record what the operation does to the store.
* `fls_private_store`: along every history, the results of the FLS calls made
  by whoever ran the fiber `f` are those of one store fed these calls only.
-/

namespace AosvFibers

open Lib

variable {E : Env} {cur : Task} {k k' : Kernel}

/-! ## The private store -/

/-- The indices in use and the value last stored at each index. -/
structure FlsStore where
  allocated : Finset ℤ
  bounded : allocated ⊆ Finset.Ico 0 (maxFlsPointers : ℤ)
  value : ℤ → Word

namespace FlsStore

/-- Nothing is allocated and all values are 0. -/
def init : FlsStore := ⟨∅, by simp, fun _ => 0⟩

/-- The indices that can be allocated. -/
noncomputable def free (s : FlsStore) : Finset ℤ := Finset.Ico 0 (maxFlsPointers : ℤ) \ s.allocated

/-- Allocate an index that is free. -/
def alloc (s : FlsStore) (i : ℤ) (h : i ∈ s.free) : FlsStore where
  allocated := insert i s.allocated
  bounded := Finset.insert_subset (Finset.mem_sdiff.mp h).1 s.bounded
  value := s.value

/-- Deallocate an index; its value stays. -/
def dealloc (s : FlsStore) (i : ℤ) : FlsStore where
  allocated := s.allocated.erase i
  bounded := (Finset.erase_subset i s.allocated).trans s.bounded
  value := s.value

/-- The result of an FLS operation and the store after it. -/
noncomputable def step (s : FlsStore) : Call → ℤ × FlsStore
  | .flsAlloc =>
    if h : s.free.Nonempty then (s.free.min' h, s.alloc (s.free.min' h) (s.free.min'_mem h))
    else (-1, s)
  | .flsFree i => if i ∈ s.allocated then (1, s.dealloc i) else (0, s)
  | .flsGetValue i => (if i ∈ s.allocated then (s.value i).toInt else -1, s)
  | .flsSetValue i v =>
    (0, if i ∈ s.allocated then { s with value := Function.update s.value i v } else s)
  | _ => (0, s)

/-- The results of a list of operations and the store after them. -/
noncomputable def replay : FlsStore → List Call → List ℤ × FlsStore
  | s, [] => ([], s)
  | s, c :: cs => ((s.step c).1 :: ((s.step c).2.replay cs).1, ((s.step c).2.replay cs).2)

theorem replay_snoc (s : FlsStore) (cs : List Call) (c : Call) :
    s.replay (cs ++ [c]) =
      ((s.replay cs).1 ++ [((s.replay cs).2.step c).1], ((s.replay cs).2.step c).2) := by
  induction cs generalizing s with
  | nil => rfl
  | cons c' cs ih => simp [replay, ih]

end FlsStore

/-! ## The record of a fiber represents a store -/

/-- The bitmap and the values of a fiber are those of the store. -/
def Represents (r : Fiber) (s : FlsStore) : Prop :=
  (∀ i : FlsIndex, r.flsBitmap i = true ↔ (i.val : ℤ) ∈ s.allocated) ∧
    ∀ i : FlsIndex, r.fls i = s.value i.val

theorem flsIndex?_eq_some {index : ℤ} {i : FlsIndex} (h : flsIndex? index = some i) :
    (i.val : ℤ) = index := by
  unfold flsIndex? at h
  split_ifs at h with hi
  obtain rfl : _ = i := by simpa using h
  simp only
  omega

theorem flsIndex?_eq_none {index : ℤ} (h : flsIndex? index = none) :
    index ∉ Finset.Ico 0 (maxFlsPointers : ℤ) := by
  unfold flsIndex? at h
  split_ifs at h with hi
  rw [Finset.mem_Ico]
  omega

/-- `find_first_zero_bit` stops at the first clear bit of those it looks at. -/
theorem findZeroBitFrom_spec (bitmap : FlsIndex → Bool) (n i : ℕ) (hn : i + n = maxFlsPointers) :
    let m := findZeroBitFrom bitmap n i
    i ≤ m ∧ m ≤ maxFlsPointers ∧ (∀ j : FlsIndex, i ≤ j.val → j.val < m → bitmap j = true) ∧
      ∀ h : m < maxFlsPointers, bitmap ⟨m, h⟩ = false := by
  induction n generalizing i with
  | zero =>
    refine ⟨le_rfl, by simp [findZeroBitFrom]; omega, ?_, ?_⟩
    · intro j h1 h2
      simp only [findZeroBitFrom] at h2
      omega
    · intro h
      simp only [findZeroBitFrom] at h
      omega
  | succ n ih =>
    have hi : i < maxFlsPointers := by omega
    by_cases hb : bitmap ⟨i, hi⟩ = true
    · have hstep : findZeroBitFrom bitmap (n + 1) i = findZeroBitFrom bitmap n (i + 1) := by
        rw [findZeroBitFrom, dif_pos hi, if_pos hb]
      obtain ⟨h1, h2, h3, h4⟩ := ih (i + 1) (by omega)
      rw [hstep]
      refine ⟨by omega, h2, fun j hij hj => ?_, h4⟩
      rcases Nat.eq_or_lt_of_le hij with heq | hlt
      · subst heq; exact hb
      · exact h3 j hlt hj
    · have hstep : findZeroBitFrom bitmap (n + 1) i = i := by
        rw [findZeroBitFrom, dif_pos hi, if_neg hb]
      rw [hstep]
      exact ⟨le_rfl, hi.le, fun j h1 h2 => by omega, fun _ => by simpa using hb⟩

theorem findFirstZeroBit_spec (bitmap : FlsIndex → Bool) :
    findFirstZeroBit bitmap ≤ maxFlsPointers ∧
      (∀ j : FlsIndex, j.val < findFirstZeroBit bitmap → bitmap j = true) ∧
      ∀ h : findFirstZeroBit bitmap < maxFlsPointers, bitmap ⟨findFirstZeroBit bitmap, h⟩ = false := by
  obtain ⟨-, h2, h3, h4⟩ := findZeroBitFrom_spec bitmap maxFlsPointers 0 (by simp)
  exact ⟨h2, fun j hj => h3 j (Nat.zero_le _) hj, h4⟩

/-- The least index without its bit set is the least free index of the store. -/
theorem Represents.min'_free {r : Fiber} {s : FlsStore} (h : Represents r s)
    (hn : findFirstZeroBit r.flsBitmap < maxFlsPointers) : ∃ hfree : s.free.Nonempty,
      s.free.min' hfree = findFirstZeroBit r.flsBitmap := by
  obtain ⟨-, hset, hclear⟩ := findFirstZeroBit_spec r.flsBitmap
  set m := findFirstZeroBit r.flsBitmap with hm
  have hmem : (m : ℤ) ∈ s.free := by
    have hnot : (m : ℤ) ∉ s.allocated := fun hin => by
      have hbit := (h.1 ⟨m, hn⟩).mpr hin
      simp [hclear hn] at hbit
    exact Finset.mem_sdiff.mpr ⟨Finset.mem_Ico.mpr ⟨by omega, by omega⟩, hnot⟩
  refine ⟨⟨m, hmem⟩, le_antisymm (Finset.min'_le _ _ hmem) (Finset.le_min' _ _ _ fun i hi => ?_)⟩
  -- an index below the first clear bit has its bit set
  obtain ⟨hico, hnot⟩ := Finset.mem_sdiff.mp hi
  obtain ⟨h0, h1⟩ := Finset.mem_Ico.mp hico
  by_contra hlt
  have hlt' : i.toNat < maxFlsPointers := by omega
  have hbit := hset ⟨i.toNat, hlt'⟩ (by simp only; omega)
  have hin := (h.1 ⟨i.toNat, hlt'⟩).mp hbit
  rw [show ((i.toNat : ℕ) : ℤ) = i by omega] at hin
  exact hnot hin

/-- With every bit set nothing is free. -/
theorem Represents.free_empty {r : Fiber} {s : FlsStore} (h : Represents r s)
    (hn : ¬ findFirstZeroBit r.flsBitmap < maxFlsPointers) : ¬ s.free.Nonempty := by
  obtain ⟨hle, hset, -⟩ := findFirstZeroBit_spec r.flsBitmap
  rintro ⟨i, hi⟩
  obtain ⟨hico, hnot⟩ := Finset.mem_sdiff.mp hi
  obtain ⟨h0, h1⟩ := Finset.mem_Ico.mp hico
  have hlt' : i.toNat < maxFlsPointers := by omega
  have hin := (h.1 ⟨i.toNat, hlt'⟩).mp (hset ⟨i.toNat, hlt'⟩ (by simp only; omega))
  rw [show ((i.toNat : ℕ) : ℤ) = i by omega] at hin
  exact hnot hin

theorem flsEffect_represents {c : Call} {r : Fiber} {s : FlsStore} (h : Represents r s)
    (hc : c.isFls) :
    (flsEffect c r).1 = (s.step c).1 ∧ Represents (flsEffect c r).2 (s.step c).2 := by
  have hbit : ∀ {index : ℤ} {i : FlsIndex}, flsIndex? index = some i →
      (index ∈ s.allocated ↔ r.flsBitmap i = true) := fun {index i} hi => by
    rw [h.1 i, flsIndex?_eq_some hi]
  have hout : ∀ {index : ℤ}, flsIndex? index = none → index ∉ s.allocated := fun hi hin =>
    flsIndex?_eq_none hi (s.bounded hin)
  cases c with
  | flsAlloc =>
    simp only [flsEffect, FlsStore.step]
    by_cases hn : findFirstZeroBit r.flsBitmap < maxFlsPointers
    · obtain ⟨hfree, hmin⟩ := h.min'_free hn
      have hclear := (findFirstZeroBit_spec r.flsBitmap).2.2 hn
      rw [dif_pos hn, dif_pos hfree]
      refine ⟨hmin.symm, fun j => ?_, h.2⟩
      simp only [FlsStore.alloc, Finset.mem_insert, hmin, hclear]
      by_cases hj : j = ⟨findFirstZeroBit r.flsBitmap, hn⟩
      · simp [hj]
      · have hne : (j.val : ℤ) ≠ findFirstZeroBit r.flsBitmap := fun he =>
          hj (Fin.ext (by exact_mod_cast he))
        simpa [hj, hne] using h.1 j
    · rw [dif_neg hn, dif_neg (h.free_empty hn)]
      exact ⟨rfl, h⟩
  | flsFree index =>
    simp only [flsEffect, FlsStore.step]
    cases hi : flsIndex? index with
    | none => simpa [hout hi] using h
    | some i =>
      by_cases hb : r.flsBitmap i = true
      · have hin := (hbit hi).mpr hb
        simp only [hb, hin, if_true, if_neg (show ¬ true = false by decide), true_and]
        refine ⟨fun j => ?_, h.2⟩
        simp only [FlsStore.dealloc, Finset.mem_erase, ← h.1 j, Function.update_apply]
        have hij : j = i ↔ (j.val : ℤ) = index := by
          rw [← flsIndex?_eq_some hi, Fin.ext_iff]
          exact_mod_cast Iff.rfl
        by_cases hj : j = i
        · simp [hj, hb, flsIndex?_eq_some hi]
        · have hne : (j.val : ℤ) ≠ index := fun he => hj (hij.mpr he)
          simp [hj, hne]
      · have hnin : index ∉ s.allocated := fun hin => hb ((hbit hi).mp hin)
        simpa [hb, hnin] using h
  | flsGetValue index =>
    simp only [flsEffect, FlsStore.step]
    cases hi : flsIndex? index with
    | none => simpa [hout hi] using h
    | some i =>
      by_cases hb : r.flsBitmap i = true
      · have hin := (hbit hi).mpr hb
        simpa [hb, hin, h.2 i, flsIndex?_eq_some hi] using h
      · have hnin : index ∉ s.allocated := fun hin => hb ((hbit hi).mp hin)
        simpa [hb, hnin] using h
  | flsSetValue index value =>
    simp only [flsEffect, FlsStore.step]
    cases hi : flsIndex? index with
    | none => simpa [hout hi] using h
    | some i =>
      by_cases hb : r.flsBitmap i = true
      · have hin := (hbit hi).mpr hb
        simp only [hb, hin, if_true, if_neg (show ¬ true = false by decide), true_and]
        refine ⟨h.1, fun j => ?_⟩
        simp only [Function.update_apply, h.2 j]
        have hij : j = i ↔ (j.val : ℤ) = index := by
          rw [← flsIndex?_eq_some hi, Fin.ext_iff]
          exact_mod_cast Iff.rfl
        simp [hij]
      · have hnin : index ∉ s.allocated := fun hin => hb ((hbit hi).mp hin)
        simpa [hb, hnin] using h
  | _ => simp [Call.isFls] at hc

/-! ## The calls made by whoever runs a fiber -/

/-- The FLS call an event is, with its result, if `f` is the caller's selected
    fiber. -/
def Event.flsOf (E : Env) (f : Ptr) (e : Event) : Option (Call × ℤ) :=
  match e.op with
  | .call cur c => if c.isFls ∧ e.pre.running E cur = some f then some (c, e.result) else none
  | _ => none

/-- The FLS calls made by whoever ran `f`, with their results. -/
def flsTrace (E : Env) (f : Ptr) (es : List Event) : List (Call × ℤ) :=
  es.filterMap (Event.flsOf E f)

/-- The store of `f` after a history. -/
noncomputable def storeOf (E : Env) (f : Ptr) (es : List Event) : FlsStore :=
  (FlsStore.init.replay ((flsTrace E f es).map Prod.fst)).2

theorem flsTrace_snoc (f : Ptr) (es : List Event) (e : Event) :
    flsTrace E f (es ++ [e]) = flsTrace E f es ++ (e.flsOf E f).toList := by
  simp only [flsTrace, List.filterMap_append]
  cases he : e.flsOf E f <;> simp [he]

theorem storeOf_snoc_some {f : Ptr} {es : List Event} {e : Event} {c : Call} {res : ℤ}
    (he : e.flsOf E f = some (c, res)) :
    storeOf E f (es ++ [e]) = ((storeOf E f es).step c).2 := by
  simp [storeOf, flsTrace_snoc, he, FlsStore.replay_snoc]

theorem storeOf_snoc_none {f : Ptr} {es : List Event} {e : Event} (he : e.flsOf E f = none) :
    storeOf E f (es ++ [e]) = storeOf E f es := by
  simp [storeOf, flsTrace_snoc, he]

/-- A cleared fiber represents the empty store. -/
theorem represents_init {r : Fiber} (hbitmap : r.flsBitmap = fun _ => false)
    (hfls : r.fls = fun _ => 0) : Represents r .init :=
  ⟨fun i => by simp [hbitmap, FlsStore.init], fun i => by rw [hfls]; rfl⟩

theorem Event.flsOf_of_running {f : Ptr} {e : Event} {c : Call} (hop : e.op = .call cur c)
    (hc : c.isFls) (hrun : e.pre.running E cur = some f) : e.flsOf E f = some (c, e.result) := by
  simp [Event.flsOf, hop, hc, hrun]

/-- An FLS call is made by the thread that runs the fiber. -/
theorem Event.flsOf_eq_some {f : Ptr} {e : Event} {c : Call} {res : ℤ}
    (h : e.flsOf E f = some (c, res)) : ∃ cur, e.op = .call cur c ∧ e.result = res ∧ c.isFls ∧
      e.pre.running E cur = some f := by
  unfold Event.flsOf at h
  split at h
  · next cur c' hop =>
    split_ifs at h with hc
    obtain ⟨rfl, rfl⟩ : c' = c ∧ e.result = res := by simpa using h
    exact ⟨cur, hop, rfl, hc.1, hc.2⟩
  · simp at h

/-- What the history of `f` says about the state it leads to: the results so
    far are those of the store, the record represents the store, and a fiber
    that is not yet made made no calls. -/
structure FlsInv (E : Env) (f : Ptr) (es : List Event) (k : Kernel) : Prop where
  results : (flsTrace E f es).map Prod.snd =
    (FlsStore.init.replay ((flsTrace E f es).map Prod.fst)).1
  represents : ∀ r, k.fiber f = some r → Represents r (storeOf E f es)
  unborn : k.brk f.tgid ≤ f.serial → flsTrace E f es = []

/-- A thread that runs a fiber is converted. -/
theorem Shape.running_of_eq {f : Ptr} (h : Shape E k) (hrun : k.running E cur = some f) :
    ∃ ep p tp t r, Running E k cur ep p tp t f r := by
  rcases h.running_or cur with hn | ⟨ep, p, tp, t, f', r, hr⟩
  · simp [hn.running_eq] at hrun
  · obtain rfl : f' = f := by simpa [hr.running_eq] using hrun
    exact ⟨ep, p, tp, t, r, hr⟩

/-- A step keeps `FlsInv`: if it is an FLS call of `f`, the store makes the
    same step; if not, nothing `FlsInv` speaks about changes. -/
theorem FlsInv.step {f : Ptr} {es : List Event} {e : Event} (hk : Shape E e.pre)
    (h : FlsInv E f es e.pre) (hs : Step E e.pre (e.op, e.result) e.post) :
    FlsInv E f (es ++ [e]) e.post := by
  have hout := hk.outcome_of_run hs
  cases he : e.flsOf E f with
  | some cr =>
    obtain ⟨c, res⟩ := cr
    obtain ⟨cur, hop, rfl, hc, hrun⟩ := Event.flsOf_eq_some he
    obtain ⟨ep, p, tp, t, r, hr⟩ := hk.running_of_eq hrun
    have hstep := fls_run hr.toCaller hr.selected hr.fiber_eq hc
    have hres : e.result = (flsEffect c r).1 ∧ e.post = { e.pre with
        fiber := Function.update e.pre.fiber f (some (flsEffect c r).2) } := by
      have hs' : c.run E cur e.pre = some (e.result, e.post) := by rw [hop] at hs; exact hs
      simpa [hs'] using hstep
    obtain ⟨hval, hrep⟩ := flsEffect_represents (h.represents r hr.fiber_eq) hc
    refine ⟨?_, ?_, ?_⟩
    · simp only [flsTrace_snoc, he, Option.toList_some, List.map_append, List.map_cons, List.map_nil,
        FlsStore.replay_snoc, h.results]
      rw [hres.1, hval]
      rfl
    · intro r' hr'
      rw [hres.2] at hr'
      obtain rfl : _ = r' := by simpa using hr'
      rw [storeOf_snoc_some he]
      exact hrep
    · intro hbrk
      have hlt := hk.freshFiber f (by simp [hr.fiber_eq])
      have := hout.brk_le f.tgid
      omega
  | none =>
    have htrace : flsTrace E f (es ++ [e]) = flsTrace E f es := by simp [flsTrace_snoc, he]
    refine ⟨by rw [htrace]; exact h.results, ?_, fun hbrk => ?_⟩
    · intro r' hr'
      rw [storeOf_snoc_none he]
      have hfresh : e.pre.brk f.tgid ≤ f.serial → storeOf E f es = .init := fun hnew => by
        simp [storeOf, h.unborn hnew, FlsStore.replay]
      have hchange := hout.fiberChange hr'
      generalize hop : e.op = op at hchange
      generalize e.result = res at hchange
      cases hchange with
      | same hold => exact h.represents r' hold
      | bumped hold | left _ hold | taken _ hold | orphaned _ hold =>
        have hold := h.represents _ hold
        exact hold
      | fls hr hold hc => simp [Event.flsOf_of_running hop hc hr] at he
      | converted hnew | created hnew =>
        rw [hfresh hnew]
        exact represents_init rfl rfl
    · rw [htrace]
      exact h.unborn ((hout.brk_le f.tgid).trans hbrk)

theorem History.flsInv {cpu : Task → Cpu} {es : List Event} (h : History E cpu es k) (f : Ptr) :
    FlsInv E f es k := by
  induction h with
  | nil => exact ⟨rfl, fun r hr => by simp [Kernel.boot] at hr, fun _ => rfl⟩
  | snoc hist hs ih =>
    obtain ⟨rfl, rfl, hrun⟩ := hs
    exact ih.step (History.reachable hist).inv.toShape hrun

/-- The FLS calls made by whoever runs `f` have the results of one private
    store that is fed these calls only. -/
theorem fls_private_store {cpu : Task → Cpu} {es : List Event} (h : History E cpu es k) (f : Ptr) :
    (flsTrace E f es).map Prod.snd =
      (FlsStore.init.replay ((flsTrace E f es).map Prod.fst)).1 :=
  (h.flsInv f).results

/-- A converted thread allocates an index: one call in the trace of its fiber. -/
theorem fls_private_store_firstFiber : ∃ es k res,
    History (.linux 240) (fun _ => .zero) es k ∧
      flsTrace (.linux 240) ⟨7, 2⟩ es = [(.flsAlloc, res)] ∧
      (flsTrace (.linux 240) ⟨7, 2⟩ es).map Prod.snd =
        (FlsStore.init.replay ((flsTrace (.linux 240) ⟨7, 2⟩ es).map Prod.fst)).1 := by
  have hshape := (Reachable.firstConverted (.linux 240) ⟨7, 7⟩ fun _ => .zero).inv.toShape
  obtain ⟨f, r, hr⟩ :=
    hshape.running_of_caller (firstConverted_caller (.linux 240) ⟨7, 7⟩ fun _ => .zero)
  obtain rfl : (⟨7, 2⟩ : Ptr) = f := by simpa using hr.selected
  have hconv : (Op.call ⟨7, 7⟩ .convert).run (.linux 240) (Kernel.boot fun _ => .zero) = _ :=
    firstConverted_run (.linux 240) ⟨7, 7⟩ fun _ => .zero
  have halloc := fls_run (c := .flsAlloc) hr.toCaller hr.selected hr.fiber_eq rfl
  have hist := History.step (o := .call ⟨7, 7⟩ .flsAlloc) (History.step .nil hconv) halloc
  refine ⟨_, _, (flsEffect .flsAlloc r).1, hist, ?_, fls_private_store hist ⟨7, 2⟩⟩
  rw [flsTrace_snoc, Event.flsOf_of_running rfl rfl hr.running_eq]
  rfl

end AosvFibers
