import AosvFibers.Model.Types

/-!
# Statements of the module's C code

`K α` is a piece of kernel code that returns an `α`. It has no result when it
dereferences a pointer to no record (`NULL` or a freed record) or frees one.

`Stmt` lists the C statements that change the shared records, each with the
pointers it acts on. `Stmt.apply` is its effect and `Stmt.ok` says that every
pointer it dereferences names a record; `Stmt.exec` is the statement as code.
The functions of the module are written with these statements, both when a
call is one step and when calls interleave statement by statement, so the two
views of a function cannot drift apart.
-/

namespace AosvFibers

open Lib

/-- Kernel code. -/
abbrev K := StateT Kernel Option

namespace K

variable {α β : Type}

theorem bind_apply (x : K α) (f : α → K β) (k : Kernel) :
    (x >>= f) k = (x k).bind fun r => f r.1 r.2 := rfl

@[simp] theorem pure_apply (a : α) (k : Kernel) : (pure a : K α) k = some (a, k) := rfl

/-- What a two-part piece of code did: the first part returned, then the
    second. -/
theorem bind_eq_some {x : K α} {f : α → K β} {k k' : Kernel} {b : β} :
    (x >>= f) k = some (b, k') ↔ ∃ a k₁, x k = some (a, k₁) ∧ f a k₁ = some (b, k') := by
  rw [bind_apply, Option.bind_eq_some_iff]
  constructor
  · rintro ⟨r, h1, h2⟩
    exact ⟨r.1, r.2, h1, h2⟩
  · rintro ⟨a, k₁, h1, h2⟩
    exact ⟨(a, k₁), h1, h2⟩

end K

/-! ## Dereferencing -/

/-- `*p` for a `struct process *`. -/
def readProcess (p : Ptr) : K Process := fun k => (k.process p).map fun r => (r, k)

/-- `*t` for a `struct thread *`. -/
def readThread (t : Ptr) : K Thread := fun k => (k.thread t).map fun r => (r, k)

/-- `*f` for a `struct fiber *`. -/
def readFiber (f : Ptr) : K Fiber := fun k => (k.fiber f).map fun r => (r, k)

/-- Dereferencing `NULL` has no result. -/
def nonNull (p : Option Ptr) : K Ptr := fun k => p.map fun p => (p, k)

@[simp] theorem readProcess_eq_some {p : Ptr} {k k' : Kernel} {r : Process} :
    readProcess p k = some (r, k') ↔ k.process p = some r ∧ k' = k := by
  simp [readProcess, eq_comm]

@[simp] theorem readThread_eq_some {t : Ptr} {k k' : Kernel} {r : Thread} :
    readThread t k = some (r, k') ↔ k.thread t = some r ∧ k' = k := by
  simp [readThread, eq_comm]

@[simp] theorem readFiber_eq_some {f : Ptr} {k k' : Kernel} {r : Fiber} :
    readFiber f k = some (r, k') ↔ k.fiber f = some r ∧ k' = k := by
  simp [readFiber, eq_comm]

@[simp] theorem nonNull_eq_some {p : Option Ptr} {k k' : Kernel} {q : Ptr} :
    nonNull p k = some (q, k') ↔ p = some q ∧ k' = k := by
  simp [nonNull, eq_comm]

/-! ## Assignments to the fields of a fiber -/

/-- The statements that write one field of a `struct fiber`. -/
inductive Assign
  /-- `f->attached_thread = t` -/
  | attach (t : Option Ptr)
  /-- `f->activation_counter++` -/
  | countActivation
  /-- `atomic64_inc(&(f->failed_activation_counter))` -/
  | countFailed
  /-- `f->total_time += current->utime` -/
  | chargeTime
  /-- `memcpy(&f->registers, task_pt_regs(current), sizeof(struct pt_regs))` -/
  | saveRegs
  /-- `copy_fxregs_to_kernel(&(f->fpu))` -/
  | saveFx
  /-- `spin_unlock(&f->fiber_lock)` -/
  | unlock
  /-- `change_bit(index, f->fls_bitmap)` -/
  | changeBit (index : FlsIndex)
  /-- `f->fls[index] = value` -/
  | setFls (index : FlsIndex) (value : Word)
  /-- `f->start_address = (void*) task_pt_regs(current)->ip` -/
  | startAtIp
  /-- `f->start_address = (void*) function` -/
  | startAt (function : Word)
  /-- `f->creator_thread = current->pid` -/
  | setCreator
  /-- `f->activation_counter = 0` -/
  | zeroActivation
  /-- `atomic64_set(&(f->failed_activation_counter), 0)` -/
  | zeroFailed
  /-- `f->total_time = 0` -/
  | zeroTime
  /-- `snprintf(f->name, 256, "%d", f->fiber_id)` -/
  | setName
  /-- `f->registers.sp = task_pt_regs(current)->sp` -/
  | copySp
  /-- `f->registers.bp = task_pt_regs(current)->bp` -/
  | copyBp
  /-- `f->registers.ip = (long) function` -/
  | setIp (function : Word)
  /-- `f->registers.di = (long) parameters` -/
  | setDi (parameters : Word)

/-- The fiber after the statement, run by `cur` with CPU state `cpu`. -/
def Assign.run (cur : Task) (cpu : Cpu) (f : Fiber) : Assign → Fiber
  | attach t => { f with attachedThread := t }
  | countActivation => { f with activationCounter := f.activationCounter + 1 }
  | countFailed => { f with failedActivationCounter := f.failedActivationCounter + 1 }
  | chargeTime => { f with totalTime := f.totalTime + cpu.utime }
  | saveRegs => { f with registers := cpu.regs }
  | saveFx => { f with fpu := cpu.fxregs }
  | unlock => { f with fiberLock := false }
  | changeBit i => { f with flsBitmap := Function.update f.flsBitmap i (!f.flsBitmap i) }
  | setFls i v => { f with fls := Function.update f.fls i v }
  | startAtIp => { f with startAddress := cpu.regs.ip }
  | startAt a => { f with startAddress := a }
  | setCreator => { f with creatorThread := cur.pid }
  | zeroActivation => { f with activationCounter := 0 }
  | zeroFailed => { f with failedActivationCounter := 0 }
  | zeroTime => { f with totalTime := 0 }
  | setName => { f with name := toString f.fiberId.toInt }
  | copySp => { f with registers := { f.registers with sp := cpu.regs.sp } }
  | copyBp => { f with registers := { f.registers with bp := cpu.regs.bp } }
  | setIp a => { f with registers := { f.registers with ip := a } }
  | setDi a => { f with registers := { f.registers with di := a } }

/-! ## Statements -/

/-- The statements that write shared records or the CPU. -/
inductive Stmt
  /-- a write to one field of the fiber `f` -/
  | fiber (f : Ptr) (a : Assign)
  /-- `t->selected_fiber = f` -/
  | select (t f : Ptr)
  /-- `memcpy(task_pt_regs(current), &f->registers, sizeof(struct pt_regs))` -/
  | loadRegs (f : Ptr)
  /-- `copy_kernel_to_fxregs(&(f->fpu.state.fxsave))` -/
  | loadFx (f : Ptr)
  /-- `atomic64_inc(&(p->active_threads))` -/
  | incActive (p : Ptr)
  /-- `hash_add_rcu(p->threads, &(t->node), t->thread_id)` -/
  | addThread (p t : Ptr)
  /-- `hash_add_rcu(p->fibers, &(f->node), f->fiber_id)` -/
  | addFiber (p f : Ptr)
  /-- `hash_del_rcu(&(t->node))` for a thread on `p->threads` -/
  | delThread (p t : Ptr)
  /-- `hash_del_rcu(&(p->node))` -/
  | delProcess (p : Ptr)
  /-- `kfree(t)` -/
  | freeThread (t : Ptr)
  /-- `kfree(f)` -/
  | freeFiber (f : Ptr)
  /-- `kfree(p)` -/
  | freeProcess (p : Ptr)

namespace Stmt

variable (E : Env) (cur : Task)

/-- The effect of a statement run by `cur`. -/
def apply : Stmt → Kernel → Kernel
  | fiber f a, k => k.modFiber f fun r => a.run cur (k.cpu cur) r
  | select t f, k => k.modThread t fun r => { r with selectedFiber := some f }
  | loadRegs f, k =>
    (k.fiber f).elim k fun r => k.modCpu cur fun c => { c with regs := r.registers }
  | loadFx f, k => (k.fiber f).elim k fun r => k.modCpu cur fun c => { c with fxregs := r.fpu }
  | incActive p, k => k.modProcess p fun r => { r with activeThreads := r.activeThreads + 1 }
  | addThread p t, k =>
    (k.thread t).elim k fun r =>
      k.modProcess p fun q => { q with threads := q.threads.add (E.hash r.threadId) t }
  | addFiber p f, k =>
    (k.fiber f).elim k fun r =>
      k.modProcess p fun q => { q with fibers := q.fibers.add (E.hash r.fiberId) f }
  | delThread p t, k => k.modProcess p fun r => { r with threads := r.threads.del t }
  | delProcess p, k => { k with processes := k.processes.del p }
  | freeThread t, k => { k with thread := Function.update k.thread t none }
  | freeFiber f, k => { k with fiber := Function.update k.fiber f none }
  | freeProcess p, k => { k with process := Function.update k.process p none }

/-- The records a statement dereferences exist. -/
def ok : Stmt → Kernel → Bool
  | fiber f _, k | loadRegs f, k | loadFx f, k | freeFiber f, k => (k.fiber f).isSome
  | select t _, k | freeThread t, k => (k.thread t).isSome
  | incActive p, k | delProcess p, k | freeProcess p, k => (k.process p).isSome
  | addThread p t, k | delThread p t, k => (k.process p).isSome && (k.thread t).isSome
  | addFiber p f, k => (k.process p).isSome && (k.fiber f).isSome

/-- A statement as code. -/
def exec (s : Stmt) : K Unit := fun k => if s.ok k then some ((), s.apply E cur k) else none

/-- The effect of a list of statements, in order. -/
def applyAll (ss : List Stmt) (k : Kernel) : Kernel := ss.foldl (fun k s => s.apply E cur k) k

/-- A list of statements as code. -/
def execAll : List Stmt → K Unit
  | [] => pure ()
  | s :: ss => do
    s.exec E cur
    execAll ss

variable {E cur}

@[simp] theorem exec_eq_some {s : Stmt} {k k' : Kernel} {u : Unit} :
    s.exec E cur k = some (u, k') ↔ s.ok k ∧ k' = s.apply E cur k := by
  unfold exec
  split_ifs with h <;> simp [h, eq_comm]

@[simp] theorem applyAll_nil (k : Kernel) : applyAll E cur [] k = k := rfl

@[simp] theorem applyAll_cons (s : Stmt) (ss : List Stmt) (k : Kernel) :
    applyAll E cur (s :: ss) k = applyAll E cur ss (s.apply E cur k) := rfl

theorem applyAll_append (ss ss' : List Stmt) (k : Kernel) :
    applyAll E cur (ss ++ ss') k = applyAll E cur ss' (applyAll E cur ss k) := by
  simp [applyAll]

/-- Every statement of a list dereferences existing records when its turn
    comes. -/
def okAll (E : Env) (cur : Task) : List Stmt → Kernel → Prop
  | [], _ => True
  | s :: ss, k => s.ok k ∧ okAll E cur ss (s.apply E cur k)

theorem execAll_eq_some {ss : List Stmt} {k k' : Kernel} {u : Unit} :
    execAll E cur ss k = some (u, k') ↔ okAll E cur ss k ∧ k' = applyAll E cur ss k := by
  induction ss generalizing k with
  | nil => simp [execAll, okAll, eq_comm]
  | cons s ss ih =>
    simp only [execAll, K.bind_eq_some, exec_eq_some, applyAll_cons, okAll]
    constructor
    · rintro ⟨u, k₁, ⟨h1, rfl⟩, h2⟩
      exact ⟨⟨h1, (ih.mp h2).1⟩, (ih.mp h2).2⟩
    · rintro ⟨⟨h1, h2⟩, h3⟩
      exact ⟨(), _, ⟨h1, rfl⟩, ih.mpr ⟨h2, h3⟩⟩

/-- The statement frees a record. -/
def frees : Stmt → Bool
  | freeThread _ | freeFiber _ | freeProcess _ => true
  | _ => false

/-- A statement that frees nothing leaves every record where it is. -/
theorem ok_apply {s : Stmt} (hs : s.frees = false) (s' : Stmt) (k : Kernel) :
    s'.ok (s.apply E cur k) = s'.ok k := by
  have hfiber : ∀ x, ((s.apply E cur k).fiber x).isSome = (k.fiber x).isSome := by
    intro x
    cases s with
    | fiber f a => by_cases h : x = f <;> simp [apply, h]
    | loadRegs f | loadFx f | addThread _ f | addFiber _ f =>
      simp only [apply, Option.elim]
      split <;> rfl
    | freeThread _ | freeFiber _ | freeProcess _ => simp [frees] at hs
    | _ => rfl
  have hthread : ∀ x, ((s.apply E cur k).thread x).isSome = (k.thread x).isSome := by
    intro x
    cases s with
    | select t f => by_cases h : x = t <;> simp [apply, h]
    | loadRegs f | loadFx f | addThread _ f | addFiber _ f =>
      simp only [apply, Option.elim]
      split <;> rfl
    | freeThread _ | freeFiber _ | freeProcess _ => simp [frees] at hs
    | _ => rfl
  have hprocess : ∀ x, ((s.apply E cur k).process x).isSome = (k.process x).isSome := by
    intro x
    cases s with
    | incActive p | delThread p _ => by_cases h : x = p <;> simp [apply, h]
    | addThread p t | addFiber p t =>
      simp only [apply, Option.elim]
      split
      · by_cases h : x = p <;> simp [h]
      · rfl
    | loadRegs f | loadFx f =>
      simp only [apply, Option.elim]
      split <;> rfl
    | freeThread _ | freeFiber _ | freeProcess _ => simp [frees] at hs
    | _ => rfl
  cases s' <;> simp [ok, hfiber, hthread, hprocess]

/-- A list of statements that frees nothing runs through if each statement
    could run at the start. -/
theorem okAll_of_forall {ss : List Stmt} {k : Kernel} (hf : ∀ s ∈ ss, s.frees = false)
    (hok : ∀ s ∈ ss, s.ok k) : okAll E cur ss k := by
  induction ss generalizing k with
  | nil => trivial
  | cons s ss ih =>
    refine ⟨hok s (by simp), ih (fun s' hs' => hf s' (by simp [hs'])) fun s' hs' => ?_⟩
    rw [ok_apply (hf s (by simp))]
    exact hok s' (by simp [hs'])

theorem okAll_append {ss ss' : List Stmt} {k : Kernel} :
    okAll E cur (ss ++ ss') k ↔ okAll E cur ss k ∧ okAll E cur ss' (applyAll E cur ss k) := by
  induction ss generalizing k with
  | nil => simp [okAll]
  | cons s ss ih => simp [okAll, ih, and_assoc]

theorem execAll_append {ss ss' : List Stmt} {k k₁ k₂ : Kernel}
    (h : execAll E cur ss k = some ((), k₁)) (h' : execAll E cur ss' k₁ = some ((), k₂)) :
    execAll E cur (ss ++ ss') k = some ((), k₂) := by
  obtain ⟨hok, rfl⟩ := execAll_eq_some.mp h
  obtain ⟨hok', rfl⟩ := execAll_eq_some.mp h'
  exact execAll_eq_some.mpr ⟨okAll_append.mpr ⟨hok, hok'⟩, (applyAll_append _ _ _).symm⟩

theorem execAll_split {ss ss' : List Stmt} {k k₂ : Kernel}
    (h : execAll E cur (ss ++ ss') k = some ((), k₂)) :
    ∃ k₁, execAll E cur ss k = some ((), k₁) ∧ execAll E cur ss' k₁ = some ((), k₂) := by
  obtain ⟨hok, rfl⟩ := execAll_eq_some.mp h
  obtain ⟨h1, h2⟩ := okAll_append.mp hok
  exact ⟨_, execAll_eq_some.mpr ⟨h1, rfl⟩, execAll_eq_some.mpr ⟨h2, applyAll_append _ _ _⟩⟩

theorem applyAll_freeFiber_process (fs : List Ptr) (k : Kernel) :
    (applyAll E cur (fs.map freeFiber) k).process = k.process := by
  induction fs generalizing k with
  | nil => rfl
  | cons f fs ih => rw [List.map_cons, applyAll_cons, ih]; rfl

/-! ## Consecutive writes to one fiber -/

/-- Writes to the fiber `f`, in order. -/
def assigns (f : Ptr) (as : List Assign) : List Stmt := as.map (fiber f)

/-- The fiber after the writes. -/
def runAll (cur : Task) (cpu : Cpu) (as : List Assign) (r : Fiber) : Fiber :=
  as.foldl (fun r a => a.run cur cpu r) r

theorem applyAll_assigns (f : Ptr) (as : List Assign) (k : Kernel) :
    applyAll E cur (assigns f as) k = k.modFiber f (runAll cur (k.cpu cur) as) := by
  induction as generalizing k with
  | nil => exact (Kernel.modFiber_self fun r _ => rfl).symm
  | cons a as ih =>
    have hcpu : (apply E cur (fiber f a) k).cpu = k.cpu := rfl
    rw [assigns, List.map_cons, applyAll_cons, ← assigns, ih, hcpu, apply, Kernel.modFiber_modFiber]
    rfl

theorem okAll_assigns {f : Ptr} (as : List Assign) {k : Kernel} (h : (k.fiber f).isSome) :
    okAll E cur (assigns f as) k := by
  apply okAll_of_forall
  · simp [assigns, frees]
  · simp [assigns, ok, h]

end Stmt

end AosvFibers
