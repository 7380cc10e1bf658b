import AosvFibers.Interleaved.Machine
import AosvFibers.Atomic.Ownership

/-!
# Pending statements

A thread that has passed the point at which its call takes effect still has
statements to run. As long as these are private (`Stmt.isPrivate`: they write
fibers the thread owns, its own thread record or its own CPU) they can be run
early or late:

* `SameOn.applyAll`: what they do depends only on the fibers they mention and on
  the thread's own CPU state;
* `applyAll_fiber_of_not_mem` and its kin: they leave everything else alone;
* `applyAll_bumped`: they commute with other threads' failed attempts.

`View` relates the state of the interleaved run to the state in which every
thread has run its pending statements already, and `View.exec`, `View.bumped`,
`View.of_idle` and `View.extend` say how the two move together.
-/

namespace AosvFibers

open Lib

namespace Stmt

variable {E : Env} {cur : Task} {k k' : Kernel} {ss : List Stmt} {s : Stmt} {x t : Ptr}

/-- A statement on the thread's own things; counting a failed attempt is not,
    since any thread may do that to any fiber. -/
def isPrivate : Stmt → Bool
  | fiber _ .countFailed | fiber _ .zeroFailed => false
  | fiber _ _ | select _ _ | loadRegs _ | loadFx _ => true
  | _ => false

/-- The fiber a private statement reads or writes. -/
def mention : Stmt → Option Ptr
  | fiber f _ | loadRegs f | loadFx f => some f
  | _ => none

/-- The thread record a private statement writes. -/
def selects : Stmt → Option Ptr
  | select t _ => some t
  | _ => none

/-- The fibers that the statements mention. -/
def mentions (ss : List Stmt) (x : Ptr) : Prop := ∃ s ∈ ss, s.mention = some x

theorem mentions_cons : mentions (s :: ss) x ↔ s.mention = some x ∨ mentions ss x := by
  simp [mentions]

@[simp] theorem not_mentions_nil : ¬ mentions [] x := by simp [mentions]

/-! ## What one private statement does -/

theorem apply_fiber_of_ne (hs : s.isPrivate) (hx : s.mention ≠ some x) :
    (s.apply E cur k).fiber x = k.fiber x := by
  cases s with
  | fiber f a =>
    have hne : x ≠ f := fun he => hx (by simp [mention, he])
    simp [apply, hne]
  | loadRegs f | loadFx f => cases hf : k.fiber f <;> simp [apply, hf]
  | select => rfl
  | _ => simp [isPrivate] at hs

theorem apply_thread_of_ne (hs : s.isPrivate) (ht : s.selects ≠ some t) :
    (s.apply E cur k).thread t = k.thread t := by
  cases s with
  | select t' f =>
    have hne : t ≠ t' := fun he => ht (by simp [selects, he])
    simp [apply, hne]
  | loadRegs f | loadFx f => cases hf : k.fiber f <;> simp [apply, hf]
  | fiber => rfl
  | _ => simp [isPrivate] at hs

theorem apply_cpu_of_ne {v : Task} (hs : s.isPrivate) (hv : v ≠ cur) :
    (s.apply E cur k).cpu v = k.cpu v := by
  cases s with
  | loadRegs f | loadFx f => cases hf : k.fiber f <;> simp [apply, hf, hv]
  | fiber | select => rfl
  | _ => simp [isPrivate] at hs

/-- A private statement changes fibers, thread records and CPU states only. -/
theorem apply_rest (hs : s.isPrivate) : (s.apply E cur k).processes = k.processes ∧
    (s.apply E cur k).process = k.process ∧ (s.apply E cur k).brk = k.brk := by
  cases s with
  | loadRegs f | loadFx f => cases hf : k.fiber f <;> simp [apply, hf]
  | fiber | select => exact ⟨rfl, rfl, rfl⟩
  | _ => simp [isPrivate] at hs

theorem apply_fiberKey (hs : s.isPrivate) (x : Ptr) :
    (s.apply E cur k).fiberKey x = k.fiberKey x := by
  cases s with
  | fiber f a =>
    by_cases hx : x = f
    · subst hx
      simp only [Kernel.fiberKey, apply, Kernel.modFiber_fiber, if_pos]
      cases k.fiber x with
      | none => rfl
      | some r => cases a <;> rfl
    · simp [Kernel.fiberKey, apply, hx]
  | loadRegs f | loadFx f => cases hf : k.fiber f <;> simp [Kernel.fiberKey, apply, hf]
  | select => rfl
  | _ => simp [isPrivate] at hs

theorem apply_threadKey (hs : s.isPrivate) (t : Ptr) :
    (s.apply E cur k).threadKey t = k.threadKey t := by
  cases s with
  | select t' f =>
    by_cases ht : t = t'
    · subst ht
      simp only [Kernel.threadKey, apply, Kernel.modThread_thread, if_pos]
      cases k.thread t <;> rfl
    · simp [Kernel.threadKey, apply, ht]
  | loadRegs f | loadFx f => cases hf : k.fiber f <;> simp [Kernel.threadKey, apply, hf]
  | fiber => rfl
  | _ => simp [isPrivate] at hs

theorem apply_bumped (hs : s.isPrivate) (f : Ptr) :
    s.apply E cur (k.bumped f) = (s.apply E cur k).bumped f := by
  cases s with
  | fiber g a =>
    by_cases hg : f = g
    · subst hg
      simp only [apply, Kernel.bumped, Kernel.modFiber_cpu, Kernel.modFiber_modFiber]
      congr 1
      funext r
      cases a <;> first | rfl | simp [isPrivate] at hs
    · ext1 <;> try rfl
      funext x
      by_cases hxf : x = f <;> by_cases hxg : x = g <;>
        simp_all [apply, Kernel.bumped]
  | loadRegs g | loadFx g =>
    by_cases hg : g = f
    · subst hg
      cases hf : k.fiber g with
      | none => simp [apply, Kernel.bumped, hf]
      | some r => simp [apply, Kernel.bumped, hf]; rfl
    · cases hf : k.fiber g with
      | none => simp [apply, Kernel.bumped, hf, hg]
      | some r => simp [apply, Kernel.bumped, hf, hg]; rfl
  | select => rfl
  | _ => simp [isPrivate] at hs

/-! ## What a list of private statements does -/

/-- All statements are private. -/
def AllPrivate (ss : List Stmt) : Prop := ∀ s ∈ ss, s.isPrivate

theorem AllPrivate.head (h : AllPrivate (s :: ss)) : s.isPrivate := h s (by simp)

theorem AllPrivate.tail (h : AllPrivate (s :: ss)) : AllPrivate ss := fun s' hs' => h s' (by simp [hs'])

theorem applyAll_fiber_of_not_mem (hs : AllPrivate ss) (hx : ¬ mentions ss x) :
    (applyAll E cur ss k).fiber x = k.fiber x := by
  induction ss generalizing k with
  | nil => rfl
  | cons s ss ih =>
    rw [mentions_cons, not_or] at hx
    rw [applyAll_cons, ih hs.tail hx.2, apply_fiber_of_ne hs.head hx.1]

theorem applyAll_thread_of_not_mem (hs : AllPrivate ss) (ht : ∀ s ∈ ss, s.selects ≠ some t) :
    (applyAll E cur ss k).thread t = k.thread t := by
  induction ss generalizing k with
  | nil => rfl
  | cons s ss ih =>
    rw [applyAll_cons, ih hs.tail fun s' hs' => ht s' (by simp [hs']),
      apply_thread_of_ne hs.head (ht s (by simp))]

theorem applyAll_cpu_of_ne {v : Task} (hs : AllPrivate ss) (hv : v ≠ cur) :
    (applyAll E cur ss k).cpu v = k.cpu v := by
  induction ss generalizing k with
  | nil => rfl
  | cons s ss ih => rw [applyAll_cons, ih hs.tail, apply_cpu_of_ne hs.head hv]

theorem applyAll_fiberKey (hs : AllPrivate ss) (x : Ptr) :
    (applyAll E cur ss k).fiberKey x = k.fiberKey x := by
  induction ss generalizing k with
  | nil => rfl
  | cons s ss ih => rw [applyAll_cons, ih hs.tail, apply_fiberKey hs.head]

theorem applyAll_threadKey (hs : AllPrivate ss) (t : Ptr) :
    (applyAll E cur ss k).threadKey t = k.threadKey t := by
  induction ss generalizing k with
  | nil => rfl
  | cons s ss ih => rw [applyAll_cons, ih hs.tail, apply_threadKey hs.head]

theorem applyAll_bumped (hs : AllPrivate ss) (f : Ptr) :
    applyAll E cur ss (k.bumped f) = (applyAll E cur ss k).bumped f := by
  induction ss generalizing k with
  | nil => rfl
  | cons s ss ih => rw [applyAll_cons, applyAll_cons, apply_bumped hs.head, ih hs.tail]

/-- The two states agree on the fibers in `F` and on the CPU of `cur`. -/
structure SameOn (F : Ptr → Prop) (cur : Task) (k k' : Kernel) : Prop where
  fiber : ∀ x, F x → k.fiber x = k'.fiber x
  cpu : k.cpu cur = k'.cpu cur

theorem SameOn.apply {F : Ptr → Prop} (hs : s.isPrivate) (hm : ∀ x, s.mention = some x → F x)
    (h : SameOn F cur k k') : SameOn F cur (s.apply E cur k) (s.apply E cur k') := by
  cases s with
  | fiber f a =>
    refine ⟨fun x hx => ?_, h.cpu⟩
    by_cases hxf : x = f
    · subst hxf; simp [Stmt.apply, h.fiber x hx, h.cpu]
    · simp [Stmt.apply, hxf, h.fiber x hx]
  | loadRegs f | loadFx f =>
    have hf := h.fiber f (hm f rfl)
    cases hr : k.fiber f with
    | none =>
      have hr' : k'.fiber f = none := by rw [← hf, hr]
      simpa [Stmt.apply, hr, hr'] using h
    | some r =>
      have hr' : k'.fiber f = some r := by rw [← hf, hr]
      exact ⟨fun x hx => by simpa [Stmt.apply, hr, hr'] using h.fiber x hx,
        by simp [Stmt.apply, hr, hr', h.cpu]⟩
  | select => exact ⟨h.fiber, h.cpu⟩
  | _ => simp [isPrivate] at hs

theorem SameOn.applyAll {F : Ptr → Prop} (hs : AllPrivate ss) (hm : ∀ x, mentions ss x → F x)
    (h : SameOn F cur k k') : SameOn F cur (applyAll E cur ss k) (applyAll E cur ss k') := by
  induction ss generalizing k k' with
  | nil => exact h
  | cons s ss ih =>
    rw [applyAll_cons, applyAll_cons]
    exact ih hs.tail (fun x hx => hm x (mentions_cons.mpr (.inr hx)))
      (h.apply hs.head fun x hx => hm x (mentions_cons.mpr (.inl hx)))

theorem applyAll_thread_congr (hs : AllPrivate ss) (h : k.thread t = k'.thread t) :
    (applyAll E cur ss k).thread t = (applyAll E cur ss k').thread t := by
  induction ss generalizing k k' with
  | nil => exact h
  | cons s ss ih =>
    refine ih hs.tail ?_
    have hs := hs.head
    cases s with
    | select t' f =>
      by_cases ht : t = t'
      · subst ht; simp [apply, h]
      · simp [apply, ht, h]
    | loadRegs f | loadFx f =>
      rw [apply_thread_of_ne hs (by simp [selects]), apply_thread_of_ne hs (by simp [selects]), h]
    | fiber => exact h
    | _ => simp [isPrivate] at hs

/-! ## Locks -/

/-- No private statement takes a lock. -/
theorem apply_locked (hs : s.isPrivate) (h : k.locked x = false) :
    (s.apply E cur k).locked x = false := by
  cases s with
  | fiber f a =>
    by_cases hx : x = f
    · subst hx
      simp only [Kernel.locked, apply, Kernel.modFiber_fiber, if_pos] at h ⊢
      cases hf : k.fiber x with
      | none => rfl
      | some r =>
        simp only [hf, Option.any_some, Option.map_some] at h ⊢
        cases a <;> first | exact h | rfl
    · simpa [Kernel.locked, apply, hx] using h
  | loadRegs f | loadFx f => cases hf : k.fiber f <;> simpa [Kernel.locked, apply, hf] using h
  | select => exact h
  | _ => simp [isPrivate] at hs

/-- Only an unlocking changes a lock. -/
theorem apply_locked_of_ne (hs : s.isPrivate) (h : s ≠ fiber x .unlock) :
    (s.apply E cur k).locked x = k.locked x := by
  cases s with
  | fiber f a =>
    by_cases hx : x = f
    · subst hx
      simp only [Kernel.locked, apply, Kernel.modFiber_fiber, if_pos]
      cases k.fiber x with
      | none => rfl
      | some r =>
        cases a <;> first | rfl | exact absurd rfl h
    · simp [Kernel.locked, apply, hx]
  | loadRegs f | loadFx f => cases hf : k.fiber f <;> simp [Kernel.locked, apply, hf]
  | select => rfl
  | _ => simp [isPrivate] at hs

theorem applyAll_locked (hs : AllPrivate ss) (h : k.locked x = false) :
    (applyAll E cur ss k).locked x = false := by
  induction ss generalizing k with
  | nil => exact h
  | cons s ss ih => exact ih hs.tail (apply_locked hs.head h)

/-- A fiber that is to be unlocked ends up unlocked. -/
theorem applyAll_locked_of_unlock (hs : AllPrivate ss) (h : fiber x .unlock ∈ ss) :
    (applyAll E cur ss k).locked x = false := by
  induction ss generalizing k with
  | nil => simp at h
  | cons s ss ih =>
    rw [applyAll_cons]
    rcases List.mem_cons.mp h with rfl | h
    · refine applyAll_locked hs.tail ?_
      cases hf : k.fiber x <;> simp [Kernel.locked, apply, hf, Assign.run]
    · exact ih hs.tail h

/-- After a fiber is unlocked it is not mentioned any more. -/
def Tidy : List Stmt → Prop
  | [] => True
  | s :: ss => (∀ x, s = fiber x .unlock → ¬ mentions ss x) ∧ Tidy ss

/-! ## The statements of a switch and of a death -/

theorem allPrivate_switch (t f prev : Ptr) :
    AllPrivate (switchAttach t f ++ switchTail t f prev) := by
  simp [AllPrivate, switchAttach, switchTail, assigns, isPrivate]

theorem eq_of_mentions_switch {t f prev : Ptr}
    (h : mentions (switchAttach t f ++ switchTail t f prev) x) : x = f ∨ x = prev := by
  simp only [switchAttach, switchTail, assigns, List.map_cons, List.map_nil, List.cons_append,
    List.nil_append, mentions_cons, mention, not_mentions_nil, Option.some.injEq, reduceCtorEq,
    false_or, or_false] at h
  grind

theorem selects_switch {t f prev t' : Ptr} (h : s ∈ switchAttach t f ++ switchTail t f prev)
    (ht : s.selects = some t') : t' = t := by
  simp only [switchAttach, switchTail, assigns, List.map_cons, List.map_nil, List.cons_append,
    List.nil_append, List.mem_cons, List.not_mem_nil, or_false] at h
  rcases h with rfl | rfl | rfl | rfl | rfl | rfl | rfl | rfl | rfl | rfl <;>
    simp_all [selects]

theorem tidy_switch {t f prev : Ptr} (hne : f ≠ prev) :
    Tidy (switchAttach t f ++ switchTail t f prev) := by
  simp [switchAttach, switchTail, assigns, Tidy, mentions_cons, mention, hne]

section Detach

variable {r : ℤ} {prev : Ptr}

theorem exitDetach_eq (hr : r ≠ 0) : exitDetach (some prev) r =
    assigns prev [.saveRegs, .saveFx, .attach none, .unlock] := if_pos hr

theorem allPrivate_exitDetach (hr : r ≠ 0) : AllPrivate (exitDetach (some prev) r) := by
  simp [exitDetach_eq hr, AllPrivate, assigns, isPrivate]

theorem eq_of_mentions_exitDetach (hr : r ≠ 0) (h : mentions (exitDetach (some prev) r) x) :
    x = prev := by
  simpa [exitDetach_eq hr, assigns, mentions_cons, mention, eq_comm] using h

theorem selects_exitDetach (hr : r ≠ 0) (h : s ∈ exitDetach (some prev) r) : s.selects = none := by
  rw [exitDetach_eq hr] at h
  obtain ⟨a, -, rfl⟩ := List.mem_map.mp h
  rfl

theorem tidy_exitDetach (hr : r ≠ 0) : Tidy (exitDetach (some prev) r) := by
  simp [exitDetach_eq hr, assigns, Tidy]

end Detach

end Stmt

/-! ## Two views of the state -/

open Stmt

/-- `a` is the state `k` with every thread's pending statements run, where no
    fiber is mentioned by two threads. -/
structure View (E : Env) (g : PidT) (P : PidT → List Stmt) (k a : Kernel) : Prop where
  priv : ∀ u, AllPrivate (P u)
  excl : ∀ u v x, mentions (P u) x → mentions (P v) x → u = v
  fiber : ∀ u x, mentions (P u) x → a.fiber x = (applyAll E ⟨g, u⟩ (P u) k).fiber x
  idle : ∀ x, (∀ u, ¬ mentions (P u) x) → a.fiber x = k.fiber x
  cpu : ∀ u, a.cpu ⟨g, u⟩ = (applyAll E ⟨g, u⟩ (P u) k).cpu ⟨g, u⟩
  cpu_ne : ∀ v, v.tgid ≠ g → a.cpu v = k.cpu v

namespace View

variable {E : Env} {g u : PidT} {P : PidT → List Stmt} {k a k' a' : Kernel} {ss : List Stmt}
  {s : Stmt}

theorem fiberKey_eq (h : View E g P k a) (x : Ptr) : a.fiberKey x = k.fiberKey x := by
  by_cases hx : ∃ u, mentions (P u) x
  · obtain ⟨u, hu⟩ := hx
    rw [Kernel.fiberKey, h.fiber u x hu]
    exact applyAll_fiberKey (h.priv u) x
  · rw [Kernel.fiberKey, h.idle x (not_exists.mp hx), Kernel.fiberKey]

/-- A thread with nothing pending. -/
theorem cpu_of_nil (h : View E g P k a) (hu : P u = []) : a.cpu ⟨g, u⟩ = k.cpu ⟨g, u⟩ := by
  have := h.cpu u
  rwa [hu, applyAll_nil] at this

/-- A thread runs the first of its pending statements. -/
theorem exec (h : View E g P k a) (hu : P u = s :: ss) :
    View E g (Function.update P u ss) (s.apply E ⟨g, u⟩ k) a := by
  have hpriv : AllPrivate (s :: ss) := hu ▸ h.priv u
  have hsub : ∀ x, mentions ss x → mentions (P u) x := fun x hx => by
    rw [hu, mentions_cons]; exact .inr hx
  -- the statement is out of sight for the other threads
  have hsame : ∀ v, v ≠ u → SameOn (mentions (P v)) ⟨g, v⟩ k (s.apply E ⟨g, u⟩ k) := fun v hv => by
    refine ⟨fun x hx => (apply_fiber_of_ne hpriv.head fun hs => hv ?_).symm,
      (apply_cpu_of_ne hpriv.head (by simpa using hv)).symm⟩
    exact h.excl v u x hx (by rw [hu, mentions_cons]; exact .inl hs)
  refine ⟨fun v => ?_, fun v w x hv hw => ?_, fun v x hx => ?_, fun x hx => ?_, fun v => ?_,
    fun v hv => ?_⟩
  · by_cases hvu : v = u
    · subst hvu; simpa using hpriv.tail
    · simpa [hvu] using h.priv v
  · refine h.excl v w x ?_ ?_
    · by_cases hvu : v = u
      · subst hvu; exact hsub x (by simpa using hv)
      · simpa [hvu] using hv
    · by_cases hwu : w = u
      · subst hwu; exact hsub x (by simpa using hw)
      · simpa [hwu] using hw
  · by_cases hvu : v = u
    · subst hvu
      rw [Function.update_self] at hx ⊢
      rw [h.fiber v x (hsub x hx), hu, applyAll_cons]
    · rw [Function.update_of_ne hvu] at hx ⊢
      rw [h.fiber v x hx]
      exact ((hsame v hvu).applyAll (h.priv v) fun _ hy => hy).fiber x hx
  · have hss : ¬ mentions ss x := by simpa using hx u
    by_cases hs : s.mention = some x
    · rw [h.fiber u x (by rw [hu, mentions_cons]; exact .inl hs), hu, applyAll_cons,
        applyAll_fiber_of_not_mem hpriv.tail hss]
    · rw [apply_fiber_of_ne hpriv.head hs]
      refine h.idle x fun v hv => ?_
      by_cases hvu : v = u
      · subst hvu
        rw [hu, mentions_cons] at hv
        exact hv.elim hs hss
      · exact hx v (by simpa [hvu] using hv)
  · by_cases hvu : v = u
    · subst hvu
      rw [Function.update_self, h.cpu v, hu, applyAll_cons]
    · rw [Function.update_of_ne hvu, h.cpu v]
      exact ((hsame v hvu).applyAll (h.priv v) fun _ hy => hy).cpu
  · rw [h.cpu_ne v hv, apply_cpu_of_ne hpriv.head (by rintro rfl; exact hv rfl)]

/-- A failed attempt is counted in both. -/
theorem bumped (h : View E g P k a) (f : Ptr) : View E g P (k.bumped f) (a.bumped f) := by
  have hcongr : ∀ k₁ k₂ : Kernel, ∀ x, k₁.fiber x = k₂.fiber x →
      (k₁.bumped f).fiber x = (k₂.bumped f).fiber x := fun k₁ k₂ x hx => by
    by_cases hxf : x = f
    · subst hxf; simp [Kernel.bumped, hx]
    · simp [Kernel.bumped, hxf, hx]
  refine ⟨h.priv, h.excl, fun u x hx => ?_, fun x hx => hcongr _ _ x (h.idle x hx), fun u => ?_,
    h.cpu_ne⟩
  · rw [applyAll_bumped (h.priv u)]
    exact hcongr _ _ x (h.fiber u x hx)
  · rw [applyAll_bumped (h.priv u)]
    exact h.cpu u

/-- A thread with nothing pending changes both states, out of sight of the
    pending statements of the others. -/
theorem of_idle (h : View E g P k a) (hu : P u = [])
    (hk : ∀ v x, mentions (P v) x → k'.fiber x = k.fiber x ∧ a'.fiber x = a.fiber x)
    (hx : ∀ x, (∀ v, ¬ mentions (P v) x) → a'.fiber x = k'.fiber x)
    (hcpu : ∀ v, v ≠ ⟨g, u⟩ → k'.cpu v = k.cpu v ∧ a'.cpu v = a.cpu v)
    (hself : a'.cpu ⟨g, u⟩ = k'.cpu ⟨g, u⟩) : View E g P k' a' := by
  have hsame : ∀ v, v ≠ u → SameOn (mentions (P v)) ⟨g, v⟩ k k' := fun v hv =>
    ⟨fun x hx => (hk v x hx).1.symm, (hcpu ⟨g, v⟩ (by simpa using hv)).1.symm⟩
  refine ⟨h.priv, h.excl, fun v x hv => ?_, hx, fun v => ?_, fun v hv => ?_⟩
  · have hvu : v ≠ u := by rintro rfl; simp [hu] at hv
    rw [(hk v x hv).2, h.fiber v x hv]
    exact ((hsame v hvu).applyAll (h.priv v) fun _ hy => hy).fiber x hv
  · by_cases hvu : v = u
    · subst hvu; rw [hu]; exact hself
    · rw [(hcpu ⟨g, v⟩ (by simpa using hvu)).2, h.cpu v]
      exact ((hsame v hvu).applyAll (h.priv v) fun _ hy => hy).cpu
  · have hne : v ≠ ⟨g, u⟩ := by rintro rfl; exact hv rfl
    rw [(hcpu v hne).1, (hcpu v hne).2, h.cpu_ne v hv]

/-- A thread with nothing pending takes on the statements `ss`, which count as
    run at once. -/
theorem extend (h : View E g P k a) (hu : P u = []) (hss : AllPrivate ss)
    (hm : ∀ v x, mentions ss x → ¬ mentions (P v) x) :
    View E g (Function.update P u ss) k (applyAll E ⟨g, u⟩ ss a) := by
  have hsame : SameOn (mentions ss) ⟨g, u⟩ a k :=
    ⟨fun x hx => h.idle x fun v => hm v x hx, h.cpu_of_nil hu⟩
  have hall := hsame.applyAll (E := E) hss fun _ hy => hy
  have hold : ∀ v x, mentions (P v) x → ¬ mentions ss x := fun v x hv hx => hm v x hx hv
  refine ⟨fun v => ?_, fun v w x hv hw => ?_, fun v x hx => ?_, fun x hx => ?_, fun v => ?_,
    fun v hv => ?_⟩
  · by_cases hvu : v = u
    · subst hvu; simpa using hss
    · simpa [hvu] using h.priv v
  · by_cases hvu : v = u <;> by_cases hwu : w = u
    · rw [hvu, hwu]
    · subst hvu
      simp only [Function.update_self, Function.update_of_ne hwu] at hv hw
      exact absurd hw (hm w x hv)
    · subst hwu
      simp only [Function.update_self, Function.update_of_ne hvu] at hv hw
      exact absurd hv (hm v x hw)
    · simp only [Function.update_of_ne hvu, Function.update_of_ne hwu] at hv hw
      exact h.excl v w x hv hw
  · by_cases hvu : v = u
    · subst hvu
      rw [Function.update_self] at hx ⊢
      exact hall.fiber x hx
    · rw [Function.update_of_ne hvu] at hx ⊢
      rw [applyAll_fiber_of_not_mem hss (hold v x hx), h.fiber v x hx]
  · rw [applyAll_fiber_of_not_mem hss (by simpa using hx u)]
    refine h.idle x fun v hv => ?_
    by_cases hvu : v = u
    · subst hvu; simp [hu] at hv
    · exact hx v (by simpa [hvu] using hv)
  · by_cases hvu : v = u
    · subst hvu
      rw [Function.update_self]
      exact hall.cpu
    · rw [Function.update_of_ne hvu, applyAll_cpu_of_ne hss (by simpa using hvu), h.cpu v]
  · rw [applyAll_cpu_of_ne hss (by rintro rfl; exact hv rfl), h.cpu_ne v hv]

end View

end AosvFibers
