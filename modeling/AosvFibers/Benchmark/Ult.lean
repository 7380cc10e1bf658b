import AosvFibers.Lib.Transition

/-!
# User-level threads

The fibers that `src/benchmark/2018-fibers/src/ult.c` implements in user space, for any number of
kernel threads that take turns at every access to what they share. A fiber is locked while a thread
runs it, and a saved context says how much of its code it has run.

A step is an access of `ult_convert`, `ult_creat` or `ult_switch_to`, or a step of the code of a
fiber. The instructions of `set_jmp` and `long_jmp` are one step each, the stack that a thread is on
being that of the fiber `on`, and a `set_jmp` that is jumped to does not return zero.
-/

namespace AosvFibers.Benchmark.Ult

open Lib

/-- Where a context was saved. -/
inductive Point
  /-- In `context_create_trampoline` (line 105). -/
  | boot
  /-- In the code of the fiber, after so many of its steps. -/
  | code (progress : ℕ)
deriving DecidableEq

/-- What a thread does next. `old` and `new` are `from` and `to` of `ult_switch_to`, and `n` is a
    fiber that is being created. -/
inductive Pc
  /-- It has not called `ult_convert`. -/
  | outside
  /-- `ult_convert` locks its fiber (line 176), saves the context (line 179) and makes it the
      current one (line 181). -/
  | allocated (f : ℕ)
  | lockedSelf (f : ℕ)
  | savedSelf (f : ℕ)
  /-- The code of the fiber. -/
  | code
  /-- `ult_switch_to` reads `completed_fibers` (lines 214 and 217), saves the context of `old`,
      unlocks it and jumps to `new` (line 220). -/
  | tried (old new : ℕ)
  | chosen (old new : ℕ)
  | switching (old new : ℕ)
  | saved (old new : ℕ)
  | released (old new : ℕ)
  /-- `context_create` locks the new fiber, saves the context of the current one, unlocks it and
      jumps to the new one (line 140). -/
  | created (n : ℕ)
  | lockedNew (n : ℕ)
  | savedOld (n : ℕ)
  | releasedOld (n : ℕ)
  /-- `context_create_boot` locks the current fiber (line 89), saves the context of the new one,
      unlocks it and jumps back (line 90). -/
  | boot (n : ℕ)
  | booted (n : ℕ)
  | savedNew (n : ℕ)
  | releasedNew (n : ℕ)
  /-- After a jump to a context that was never saved. -/
  | wild
deriving DecidableEq

/-- A thread: the fiber whose stack it is on, the variable `current`, and how much of the code of
    the fiber it has run. -/
structure Thread where
  pc : Pc
  on : ℕ
  current : ℕ
  progress : ℕ
deriving DecidableEq

/-- The fibers, of which `known` says whether a thread can have a pointer to it and `next` is the
    next address, `completed_fibers`, and the threads. What the fiber has really run is `done`. -/
structure State where
  running : ℕ → Bool
  context : ℕ → Option Point
  known : ℕ → Bool
  next : ℕ
  completed : ℕ
  thread : ℕ → Thread
  done : ℕ → ℕ

/-- Nothing has been called yet. -/
def init (completed : ℕ) : State where
  running _ := false
  context _ := none
  known _ := false
  next := 0
  completed := completed
  thread _ := { pc := .outside, on := 0, current := 0, progress := 0 }
  done _ := 0

/-- The next state of a thread. -/
def State.put (s : State) (t : ℕ) (th : Thread) : State :=
  { s with thread := Function.update s.thread t th }

/-- `__atomic_test_and_set` on a fiber that is not locked. -/
def State.lock (s : State) (f : ℕ) : State :=
  { s with running := Function.update s.running f true, known := Function.update s.known f true }

/-- `ult_unlock` (lines 51-54). -/
def State.unlock (s : State) (f : ℕ) : State :=
  { s with running := Function.update s.running f false }

/-- `set_jmp`. -/
def State.save (s : State) (f : ℕ) (p : Point) : State :=
  { s with context := Function.update s.context f (some p) }

/-- The thread after `long_jmp` to the context of `f`. -/
def State.jump (s : State) (th : Thread) (f : ℕ) : Thread :=
  match s.context f with
  | none => { th with pc := .wild }
  | some .boot => { th with pc := .boot f, on := f, progress := 0 }
  | some (.code n) => { th with pc := .code, on := f, progress := n }

/-- What a thread can do: call `ult_convert`, go on in a call, or, in the code of its fiber, run it,
    count it as completed, or call `ult_switch_to` or `ult_creat`. -/
inductive Act
  | convert
  | go
  | work
  | count
  | switchTo (f : Option ℕ)
  | creat
deriving DecidableEq

/-- The next access of a call. -/
def go (s : State) (t : ℕ) : Option State :=
  let th := s.thread t
  match th.pc with
  | .outside | .code | .wild => none
  | .allocated f =>
    if s.running f then none else some ((s.lock f).put t { th with pc := .lockedSelf f })
  | .lockedSelf f => some ((s.save f (.code th.progress)).put t { th with pc := .savedSelf f })
  | .savedSelf f => some (s.put t { th with pc := .code, on := f, current := f })
  | .tried old new =>
    some (s.put t { th with
      pc := .chosen old new
      current := if 0 < s.completed then new else th.current })
  | .chosen old new =>
    some (s.put t { th with pc := if 0 < s.completed then .switching old new else .code })
  | .switching old new =>
    some ((s.save old (.code th.progress)).put t { th with pc := .saved old new })
  | .saved old new => some ((s.unlock old).put t { th with pc := .released old new })
  | .released _ new => some (s.put t (s.jump th new))
  | .created n =>
    if s.running n then none else some ((s.lock n).put t { th with pc := .lockedNew n })
  | .lockedNew n =>
    some ((s.save th.current (.code th.progress)).put t { th with pc := .savedOld n })
  | .savedOld n => some ((s.unlock th.current).put t { th with pc := .releasedOld n })
  | .releasedOld n => some (s.put t (s.jump th n))
  | .boot n =>
    if s.running th.current then none
    else some ((s.lock th.current).put t { th with pc := .booted n })
  | .booted n => some ((s.save n (.code th.progress)).put t { th with pc := .savedNew n })
  | .savedNew n => some ((s.unlock n).put t { th with pc := .releasedNew n })
  | .releasedNew _ => some (s.put t (s.jump th th.current))

/-- A step of the thread `t`. A fiber is created while `completed_fibers` is positive, since it is
    itself one of those that have not completed. -/
def step (s : State) (t : ℕ) (act : Act) : Option State :=
  let th := s.thread t
  match act with
  | .convert =>
    if th.pc = .outside then
      some ({ s with next := s.next + 1 }.put t { th with pc := .allocated s.next, progress := 0 })
    else none
  | .go => go s t
  | .work =>
    if th.pc = .code then
      some ({ s with done := Function.update s.done th.on (th.progress + 1) }.put t
        { th with progress := th.progress + 1 })
    else none
  | .count =>
    if th.pc = .code ∧ 0 < s.completed then some { s with completed := s.completed - 1 } else none
  | .switchTo none => if th.pc = .code then some s else none
  | .switchTo (some f) =>
    if th.pc = .code ∧ s.known f then
      if s.running f then some s
      else some ((s.lock f).put t { th with pc := .tried th.current f })
    else none
  | .creat =>
    if th.pc = .code ∧ 0 < s.completed then
      some (({ s with next := s.next + 1 }.save s.next .boot).put t
        { th with pc := .created s.next })
    else none

/-- The transition system, with the thread and what it does as the label. -/
def UltStep (s : State) (l : ℕ × Act) (s' : State) : Prop := step s l.1 l.2 = some s'

/-- A step is one of its thread. -/
theorem step_other {s s' : State} {t u : ℕ} {act : Act} (h : step s t act = some s') (hu : u ≠ t) :
    s'.thread u = s.thread u := by
  have hput : ∀ (s : State) (th : Thread), (s.put t th).thread u = s.thread u :=
    fun s th => Function.update_of_ne hu ..
  unfold step go at h
  dsimp only at h
  split at h <;> (try split at h) <;> (try split_ifs at h) <;> cases h <;>
    first | rfl | exact hput ..

/-- The other threads are as they were. -/
theorem run_other {s s' : State} {ls : List (ℕ × Act)} {u : ℕ} (h : Run UltStep s ls s')
    (hls : ∀ l ∈ ls, u ≠ l.1) : s'.thread u = s.thread u := by
  induction h with
  | nil => rfl
  | @snoc ls s₁ s₂ l _ hs ih =>
    rw [step_other hs (hls l (List.mem_append_right _ List.mem_cons_self)),
      ih fun m hm => hls m (List.mem_append_left _ hm)]

/-- The state after some steps one after the other. -/
def steps (ls : List (ℕ × Act)) (s : State) : Option State :=
  ls.foldlM (fun s l => step s l.1 l.2) s

theorem run_steps {s s' : State} {ls : List (ℕ × Act)} (h : steps ls s = some s') :
    Run UltStep s ls s' := Run.of_foldlM h

/-- The first thread has a fiber of its own, and creates the fiber 1. -/
def started : List (ℕ × Act) :=
  (0, .convert) :: List.replicate 3 (0, .go) ++ (0, .creat) :: List.replicate 8 (0, .go)

end AosvFibers.Benchmark.Ult
