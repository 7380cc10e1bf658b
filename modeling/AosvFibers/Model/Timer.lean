import AosvFibers.Model.Fibers

/-!
# The scheduler probe

`fiber_timer` (module/kprobes.c:205-246) runs on a CPU each time that CPU has
switched to another task. It charges the `utime` of the task that ran there
before to the fiber that task has selected, and remembers the task that runs
now in the per-CPU variable `prev_task`.

`get_cpu_var` disables preemption on the CPU and `put_cpu_var` enables it again.
Two of the jumps to `end_not_our_fiber` have no `put_cpu_var` before them.
-/

namespace AosvFibers

open Lib Stmt

/-- The number of a CPU. -/
abbrev CpuId := ℕ

/-- The module's state with, for every CPU, `prev_task` (module/kprobes.c:202) and
    how many times preemption is disabled there. -/
structure Sched where
  kernel : Kernel
  prevTask : CpuId → Option Task
  preempt : CpuId → ℤ

namespace Sched

variable (s : Sched) (c : CpuId)

/-- `get_cpu_var(prev_task)`, whose value is `s.prevTask c`. -/
def getCpuVar : Sched := { s with preempt := Function.update s.preempt c (s.preempt c + 1) }

/-- `put_cpu_var(prev_task)`. -/
def putCpuVar : Sched := { s with preempt := Function.update s.preempt c (s.preempt c - 1) }

/-- `this_cpu_write(prev_task, current)`. -/
def writePrevTask (cur : Task) : Sched :=
  { s with prevTask := Function.update s.prevTask c (some cur) }

end Sched

/-- The part of `fiber_timer` for a previous task that is not `NULL`
    (module/kprobes.c:219-238), and whether it gets to a `put_cpu_var`. -/
def chargePrev (E : Env) (prev : Task) : K Bool := do
  match ← findProcessByTgid E prev.tgid with
  | none => return true
  | some prevP =>
    match ← findThreadByPid E prev.pid prevP with
    | none => return false
    | some prevTh =>
      match (← readThread prevTh).selectedFiber with
      | none => return false
      | some prevF =>
        execAll E prev (assigns prevF [.chargeTime])
        return true

/-- `fiber_timer` before the label `end_not_our_fiber` (module/kprobes.c:212-238). -/
def timePrev (E : Env) (c : CpuId) (s : Sched) : Option Sched :=
  match s.prevTask c with
  | none => some ((s.getCpuVar c).putCpuVar c)
  | some prev => (chargePrev E prev s.kernel).map fun (put, k) =>
    let s₁ := { s.getCpuVar c with kernel := k }
    if put then s₁.putCpuVar c else s₁

/-- `fiber_timer` (module/kprobes.c:205-246) on CPU `c`, which runs `cur` now. -/
def fiberTimer (E : Env) (c : CpuId) (cur : Task) (s : Sched) : Option Sched :=
  (timePrev E c s).map fun s₁ => ((s₁.getCpuVar c).writePrevTask c cur).putCpuVar c

end AosvFibers
