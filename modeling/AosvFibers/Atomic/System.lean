import AosvFibers.Lib.Transition
import AosvFibers.Model.Fibers

/-!
# The module with every call atomic

Threads of any number of processes make calls in any order, each call one
step. A step is labelled with what was done and what it returned.

* `Call`: what a thread can ask for, `thread_id` being `current->pid` as
  `fibers_ioctl` passes it (module/ioctl.c:25), and the death of a thread,
  seen by `exit_cleanup`.
* `Op.release`: the descriptor is released (`fiber_close`, module/device.c:30).
* `Op.user`: a thread runs user code, which changes its own registers and
  its `utime`.
-/

namespace AosvFibers

open Lib

/-- A call made by one thread. -/
inductive Call
  | convert
  | create (stackPointer stackSize fiberFunction parameters : Word)
  | switchTo (fiberId : PidT)
  | flsAlloc
  | flsFree (index : ℤ)
  | flsGetValue (index : ℤ)
  | flsSetValue (index : ℤ) (value : Word)
  | exit
  deriving DecidableEq

/-- The call is one of the four FLS operations. -/
def Call.isFls : Call → Bool
  | .flsAlloc | .flsFree _ | .flsGetValue _ | .flsSetValue _ _ => true
  | _ => false

/-- What a call other than a conversion returns to a thread that is not
    converted. -/
def Call.refused : Call → ℤ
  | .flsFree _ | .flsSetValue _ _ | .exit => 0
  | _ => -1

/-- The call run by `cur` to its end, with its result as a `long`. -/
def Call.run (E : Env) (cur : Task) : Call → K ℤ
  | convert => doConvertThreadToFiber E cur cur.pid
  | create sp sz fn arg => doCreateFiber E cur sp sz fn arg cur.pid
  | switchTo id => doSwitchToFiber E cur id cur.pid
  | flsAlloc => doFlsAlloc E cur cur.pid
  | flsFree i => do return if ← doFlsFree E cur i cur.pid then 1 else 0
  | flsGetValue i => do return (← doFlsGetValue E cur i cur.pid).toInt
  | flsSetValue i v => do
    doFlsSetValue E cur i v cur.pid
    return 0
  | exit => exitCleanup E cur

/-- What can happen in one step. -/
inductive Op
  | call (cur : Task) (c : Call)
  | release (cur : Task)
  | user (cur : Task) (cpu : Cpu)

/-- The step as code. -/
def Op.run (E : Env) : Op → K ℤ
  | call cur c => c.run E cur
  | release cur => processCleanup E cur
  | user cur cpu => fun k => some (0, k.modCpu cur fun _ => cpu)

/-- One step with its result. -/
def Step (E : Env) (k : Kernel) (l : Op × ℤ) (k' : Kernel) : Prop :=
  l.1.run E k = some (l.2, k')

/-- The module just loaded: no records, threads with any CPU state. -/
def Kernel.boot (cpu : Task → Cpu) : Kernel where
  processes := .empty
  process _ := none
  thread _ := none
  fiber _ := none
  brk _ := 0
  cpu := cpu

/-- The states some run of calls leads to. -/
def Reachable (E : Env) (k : Kernel) : Prop := ∃ cpu, Reaches (Step E) (Kernel.boot cpu) k

namespace Reachable

variable {E : Env} {k k' : Kernel}

theorem boot (cpu : Task → Cpu) : Reachable E (Kernel.boot cpu) := ⟨cpu, .refl _⟩

theorem step {op : Op} {r : ℤ} (h : Reachable E k) (hs : op.run E k = some (r, k')) :
    Reachable E k' := by
  obtain ⟨cpu, hr⟩ := h
  exact ⟨cpu, hr.step (l := (op, r)) hs⟩

theorem invariant {I : Kernel → Prop} (h0 : ∀ cpu, I (Kernel.boot cpu))
    (hstep : ∀ k (op : Op) r k', I k → op.run E k = some (r, k') → I k') (h : Reachable E k) : I k := by
  obtain ⟨cpu, hr⟩ := h
  exact hr.invariant (h0 cpu) fun k l k' hk hs => hstep k l.1 l.2 k' hk hs

end Reachable

end AosvFibers
