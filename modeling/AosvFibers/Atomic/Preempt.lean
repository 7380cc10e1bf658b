import AosvFibers.Atomic.Time

/-!
# The preemption depth across scheduler events

`fiber_timer` takes the per-CPU variable `prev_task` with `get_cpu_var`, which
disables preemption, and has five ways to the label `end_not_our_fiber`. On two of
them there is no `put_cpu_var`: the previous task has no thread record in the
process record of its process, or its thread record selects no fiber.

Between two invocations the rest of the module may do anything to the tables, so an
invocation starts from any kernel state.

Results: `timer_balanced_iff`, and `preempt_after_run`, which counts the levels that
are left behind.
-/

namespace AosvFibers

open Lib Stmt

variable {E : Env} {cur u : Task} {k k' : Kernel} {s s' : Sched} {c : CpuId}

/-! ## Runs of invocations -/

/-- One invocation of `fiber_timer`: the state it starts in, its CPU, the task that
    runs there now and the state it returns in. -/
structure Invocation where
  pre : Sched
  cpu : CpuId
  next : Task
  post : Sched

/-- One invocation after another: only the tables may have changed in between. -/
structure Invokes (E : Env) (s : Sched) (i : Invocation) (s' : Sched) : Prop where
  prevTask : i.pre.prevTask = s.prevTask
  preempt : i.pre.preempt = s.preempt
  run : fiberTimer E i.cpu i.next i.pre = some i.post
  post : s' = i.post

/-- Every `get_cpu_var` of the invocation had its `put_cpu_var`, and `prev_task` is
    the task that runs now. -/
structure Invocation.Balanced (i : Invocation) : Prop where
  preempt : i.post.preempt = i.pre.preempt
  current : i.post.prevTask i.cpu = some i.next

/-- The task is not in a fiberized process, or runs a fiber. -/
def Kernel.answers (E : Env) (k : Kernel) (u : Task) : Bool :=
  k.processOf E u.tgid = some none || (k.running E u).isSome

/-- There is no previous task or it is one that is answered for. -/
def Invocation.answered (E : Env) (i : Invocation) : Bool :=
  (i.pre.prevTask i.cpu).all (i.pre.kernel.answers E)

/-! ## What one invocation does -/

/-- `chargePrev` gets to a `put_cpu_var` for these tasks. -/
theorem chargePrev_put {put : Bool} (h : chargePrev E u k = some (put, k')) :
    put = k.answers E u := by
  simp only [chargePrev, K.bind_eq_some, findProcessByTgid_eq_some] at h
  obtain ⟨ep, k₁, ⟨hep, rfl⟩, h⟩ := h
  cases ep with
  | none =>
    obtain ⟨rfl, -⟩ : true = put ∧ k₁ = k' := by simpa using h
    simp [Kernel.answers, hep]
  | some ep =>
    simp only [K.bind_eq_some, findThreadByPid_eq_some] at h
    obtain ⟨tp, k₂, ⟨p, hp, ht, rfl⟩, h⟩ := h
    cases tp with
    | none =>
      obtain ⟨rfl, -⟩ : false = put ∧ k₂ = k' := by simpa using h
      simp [Kernel.answers, Kernel.running, hep, hp, ht]
    | some tp =>
      simp only [K.bind_eq_some, readThread_eq_some] at h
      obtain ⟨t, k₃, ⟨hread, rfl⟩, h⟩ := h
      have hanswers : k₃.answers E u = t.selectedFiber.isSome := by
        simp [Kernel.answers, Kernel.running, hep, hp, ht, Kernel.selected, hread]
      rw [hanswers]
      cases hf : t.selectedFiber with
      | none =>
        rw [hf] at h
        obtain ⟨rfl, -⟩ : false = put ∧ k₃ = k' := by simpa using h
        rfl
      | some f =>
        rw [hf] at h
        simp only [K.bind_eq_some] at h
        obtain ⟨-, k₄, -, h⟩ := h
        obtain ⟨rfl, -⟩ : true = put ∧ k₄ = k' := by simpa using h
        rfl

/-- A `get_cpu_var` and its `put_cpu_var`, whatever is done to the tables in between. -/
theorem Sched.putCpuVar_getCpuVar (s : Sched) (c : CpuId) (k : Kernel) :
    ({ s.getCpuVar c with kernel := k }.putCpuVar c).preempt = s.preempt := by
  simp [Sched.putCpuVar, Sched.getCpuVar]

/-- The tail of `fiber_timer` keeps the depth. -/
theorem Sched.tail_preempt (s : Sched) (c : CpuId) (cur : Task) :
    (((s.getCpuVar c).writePrevTask c cur).putCpuVar c).preempt = s.preempt := by
  simp [Sched.putCpuVar, Sched.getCpuVar, Sched.writePrevTask]

/-- The depth before the label `end_not_our_fiber`. -/
theorem timePrev_preempt (h : timePrev E c s = some s') : s'.prevTask = s.prevTask ∧
    s'.preempt = if (s.prevTask c).all (s.kernel.answers E) then s.preempt
      else Function.update s.preempt c (s.preempt c + 1) := by
  unfold timePrev at h
  cases hprev : s.prevTask c with
  | none =>
    rw [hprev] at h
    obtain rfl := Option.some.inj h
    exact ⟨rfl, s.putCpuVar_getCpuVar c s.kernel⟩
  | some u =>
    simp only [hprev, Option.map_eq_some_iff] at h
    obtain ⟨⟨put, k'⟩, hcharge, rfl⟩ := h
    rw [Option.all_some, ← chargePrev_put hcharge]
    cases put with
    | true => exact ⟨rfl, s.putCpuVar_getCpuVar c k'⟩
    | false => exact ⟨rfl, rfl⟩

/-- What `fiber_timer` leaves in the per-CPU variable and of the depth. -/
theorem fiberTimer_preempt (h : fiberTimer E c cur s = some s') :
    s'.prevTask = Function.update s.prevTask c (some cur) ∧
    s'.preempt = if (s.prevTask c).all (s.kernel.answers E) then s.preempt
      else Function.update s.preempt c (s.preempt c + 1) := by
  unfold fiberTimer at h
  obtain ⟨s₁, h₁, rfl⟩ := Option.map_eq_some_iff.mp h
  obtain ⟨htask, hdepth⟩ := timePrev_preempt h₁
  constructor
  · show Function.update s₁.prevTask c (some cur) = _
    rw [htask]
  · rw [s₁.tail_preempt]
    exact hdepth

namespace Invokes

variable {i : Invocation}

/-- An invocation is balanced just if the previous task is answered for. -/
theorem balanced_iff (h : Invokes E s i s') : i.Balanced ↔ i.answered E = true := by
  obtain ⟨htask, hdepth⟩ := fiberTimer_preempt h.run
  unfold Invocation.answered
  constructor
  · intro hb
    by_contra hne
    rw [if_neg hne] at hdepth
    have hlevel := congrFun (hdepth.symm.trans hb.preempt) i.cpu
    rw [Function.update_self] at hlevel
    omega
  · intro hanswered
    rw [if_pos hanswered] at hdepth
    refine ⟨hdepth, ?_⟩
    rw [htask, Function.update_self]

/-- The depth of a CPU after an invocation somewhere. -/
theorem preempt_eq (h : Invokes E s i s') (c : CpuId) :
    s'.preempt c = s.preempt c + if i.cpu = c ∧ i.answered E = false then 1 else 0 := by
  obtain ⟨-, hdepth⟩ := fiberTimer_preempt h.run
  rw [h.post, hdepth, h.preempt]
  unfold Invocation.answered
  by_cases hanswered : (i.pre.prevTask i.cpu).all (i.pre.kernel.answers E) = true
  · rw [if_pos hanswered, if_neg (by simp [hanswered]), add_zero]
  · rw [if_neg hanswered]
    by_cases hc : i.cpu = c
    · subst hc
      rw [Function.update_self, if_pos ⟨rfl, Bool.eq_false_iff.mpr hanswered⟩]
    · rw [Function.update_of_ne (Ne.symm hc), if_neg fun hn => hc hn.1, add_zero]

end Invokes

/-! ## Results -/

variable {is : List Invocation}

/-- Every invocation of a run gives back what it took just if every previous task is
    answered for. -/
theorem timer_balanced_iff (h : Run (Invokes E) s is s') :
    (∀ i ∈ is, i.Balanced) ↔ ∀ i ∈ is, i.answered E = true := by
  have hstep : ∀ i ∈ is, (i.Balanced ↔ i.answered E = true) :=
    h.forall_label fun _ _ _ hs => hs.balanced_iff
  exact ⟨fun hb i hi => (hstep i hi).mp (hb i hi), fun ha i hi => (hstep i hi).mpr (ha i hi)⟩

/-- A CPU is left with one level more for every invocation there whose previous task
    was not answered for. -/
theorem preempt_after_run (h : Run (Invokes E) s is s') (c : CpuId) :
    s'.preempt c = s.preempt c + is.countP fun i => i.cpu = c && !i.answered E := by
  induction h with
  | nil => simp
  | snoc _ hs ih =>
    rw [hs.preempt_eq c, ih, List.countP_append, List.countP_singleton]
    push_cast
    simp [add_assoc]

/-- Two scheduler events on CPU 0, which switch it to `u` and then away from it. -/
theorem exists_invocations (hk : Inv E k) (u v : Task) : ∃ i j s',
    Run (Invokes E) ⟨k, fun _ => none, fun _ => 0⟩ [i, j] s' ∧ i.answered E = true ∧
      j.answered E = k.answers E u := by
  set s : Sched := ⟨k, fun _ => none, fun _ => 0⟩
  obtain ⟨s₁, hrun₁, htask₁, -⟩ := exists_fiberTimer (E := E) (c := 0) (s := s) u hk
  -- by the second event the tables are the same again
  obtain ⟨s₂, hrun₂, -⟩ := exists_fiberTimer (E := E) (c := 0) (s := { s₁ with kernel := k }) v hk
  have h₁ : Invokes E s ⟨s, 0, u, s₁⟩ s₁ := ⟨rfl, rfl, hrun₁, rfl⟩
  have h₂ : Invokes E s₁ ⟨{ s₁ with kernel := k }, 0, v, s₂⟩ s₂ := ⟨rfl, rfl, hrun₂, rfl⟩
  refine ⟨_, _, s₂, (Run.single h₁).snoc h₂, rfl, ?_⟩
  show (s₁.prevTask 0).all (k.answers E) = _
  rw [htask₁, Function.update_self, Option.all_some]

/-- The converted thread ran before: both events are balanced. -/
theorem timer_balanced_converted : ∃ i j s', Run (Invokes (.linux 240))
    ⟨Kernel.firstConverted (.linux 240) ⟨7, 7⟩ fun _ => .zero, fun _ => none, fun _ => 0⟩
    [i, j] s' ∧ ∀ e ∈ [i, j], e.Balanced := by
  have hinv := (Reachable.firstConverted (.linux 240) ⟨7, 7⟩ fun _ => .zero).inv
  obtain ⟨i, j, s', hrun, hi, hj⟩ := exists_invocations hinv ⟨7, 7⟩ ⟨8, 8⟩
  refine ⟨i, j, s', hrun, (timer_balanced_iff hrun).mpr ?_⟩
  intro e he
  obtain rfl | rfl : e = i ∨ e = j := by simpa using he
  · exact hi
  · rw [hj]
    decide +kernel

/-- A thread of its process that is not converted ran before: preemption stays
    disabled. -/
theorem timer_not_balanced : ∃ is s', Run (Invokes (.linux 240))
    ⟨Kernel.firstConverted (.linux 240) ⟨7, 7⟩ fun _ => .zero, fun _ => none, fun _ => 0⟩ is s' ∧
    ¬ ∀ i ∈ is, i.Balanced := by
  have hinv := (Reachable.firstConverted (.linux 240) ⟨7, 7⟩ fun _ => .zero).inv
  obtain ⟨i, j, s', hrun, -, hj⟩ := exists_invocations hinv ⟨7, 8⟩ ⟨8, 8⟩
  have hnot : (Kernel.firstConverted (.linux 240) ⟨7, 7⟩ fun _ => .zero).answers (.linux 240) ⟨7, 8⟩ =
      false := by
    decide +kernel
  have hiff : j.Balanced ↔ j.answered (.linux 240) = true :=
    hrun.forall_label (fun _ _ _ hs => hs.balanced_iff) j (by simp)
  refine ⟨[i, j], s', hrun, ?_⟩
  intro hall
  have hanswered := hiff.mp (hall j (by simp))
  rw [hj, hnot] at hanswered
  cases hanswered

end AosvFibers
