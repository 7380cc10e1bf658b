import AosvFibers.Lib.HashTable

/-!
# The data model of the kernel module

The records of `module/fibers.h` and the kernel state they live in.

* `pid_t` is `PidT := BitVec 32`; `unsigned long`, `long long`, pointers into
  user memory and the atomic counters are `Word := BitVec 64`.
* A kernel address is a `Ptr`. It is named by the process on whose behalf
  `kmalloc` was called and by its position among that process's allocations.
  Names are never given out twice, so a pointer to a freed record never
  reaches another record by accident: using it is an error that shows.
* The three kinds of record live in three heaps, partial functions from `Ptr`;
  `kfree` removes a record from its heap.
* A `spinlock_t` is the `Bool` that says whether it is held.
* `struct fpu` is the part of it the module reads and writes, the 512-byte
  FXSAVE area.
-/

namespace AosvFibers

open Lib

abbrev PidT := BitVec 32
abbrev Word := BitVec 64

/-- The FXSAVE area, 512 bytes. -/
abbrev FxregsState := BitVec 4096

/-- `MAX_FLS_POINTERS` (module/fibers.h:10). -/
abbrev maxFlsPointers : ℕ := 4096

/-- `H_SZ` (module/fibers.h:11), the buckets of a `DECLARE_HASHTABLE(_, 10)`. -/
abbrev hSz : ℕ := 1024

/-- `DEFAULT_STACK_SIZE` (module/fibers.h:12). -/
abbrev defaultStackSize : Word := 1

abbrev Bucket := Fin hSz
abbrev FlsIndex := Fin maxFlsPointers

/-- A kernel address: the `serial`-th allocation made for process `tgid`. -/
structure Ptr where
  tgid : PidT
  serial : ℕ
  deriving DecidableEq

/-- A thread as the scheduler knows it: `current->tgid` and `current->pid`. -/
structure Task where
  tgid : PidT
  pid : PidT
  deriving DecidableEq

/-- `struct pt_regs` of x86-64. -/
structure PtRegs where
  r15 : Word
  r14 : Word
  r13 : Word
  r12 : Word
  bp : Word
  bx : Word
  r11 : Word
  r10 : Word
  r9 : Word
  r8 : Word
  ax : Word
  cx : Word
  dx : Word
  si : Word
  di : Word
  origAx : Word
  ip : Word
  cs : Word
  flags : Word
  sp : Word
  ss : Word

/-- What the module reads and writes of a running thread: `task_pt_regs(current)`,
    the FPU registers and `current->utime`. -/
structure Cpu where
  regs : PtRegs
  fxregs : FxregsState
  utime : Word

/-- A bucket array `DECLARE_HASHTABLE(name, 10)` of records. -/
abbrev Table := HashTable Bucket Ptr

/-- `struct fiber` (module/fibers.h:45-75), less `flags`, which nothing uses. -/
structure Fiber where
  fiberLock : Bool
  fiberId : PidT
  name : String
  attachedThread : Option Ptr
  parentProcess : Ptr
  registers : PtRegs
  fpu : FxregsState
  fiberStack : Word
  fiberStackSize : Word
  fls : FlsIndex → Word
  flsBitmap : FlsIndex → Bool
  startAddress : Word
  creatorThread : PidT
  activationCounter : Word
  failedActivationCounter : Word
  totalTime : Word

/-- `struct process` (module/fibers.h:78-85). `last_fiber_id` is 64 bits wide;
    `active_threads` counts records with distinct 32-bit keys and is an `Int`. -/
structure Process where
  processId : PidT
  lastFiberId : Word
  activeThreads : ℤ
  threads : Table
  fibers : Table

/-- `struct thread` (module/fibers.h:87-92). -/
structure Thread where
  threadId : PidT
  parent : Ptr
  selectedFiber : Option Ptr

/-- The module's state: the table `processes` (module/fibers.c:8), the heaps,
    how many addresses each process was given so far, and the CPU state of
    every thread. -/
@[ext] structure Kernel where
  processes : Table
  process : Ptr → Option Process
  thread : Ptr → Option Thread
  fiber : Ptr → Option Fiber
  brk : PidT → ℕ
  cpu : Task → Cpu

/-- What the module is given from outside: the bucket `hash_min` assigns to a
    key, the contents of memory fresh from `kmalloc` and the device's major
    number (module/device.c:4). -/
structure Env where
  hash : PidT → Bucket
  uninit : Ptr → Fiber
  major : Word

/-- `hash_32(val, 10)`, to which `hash_min` comes down for a `pid_t`. -/
def hash32 (val : PidT) : Bucket :=
  ⟨((val * 0x61C88647) >>> 22).toNat, by
    have hlt := (val * 0x61C88647).isLt
    rw [BitVec.toNat_ushiftRight, Nat.shiftRight_eq_div_pow]
    show _ / 4194304 < 1024
    omega⟩

/-- A `pt_regs` of zeros. -/
def PtRegs.zero : PtRegs :=
  ⟨0, 0, 0, 0, 0, 0, 0, 0, 0, 0, 0, 0, 0, 0, 0, 0, 0, 0, 0, 0, 0⟩

/-- A CPU with all registers zero. -/
def Cpu.zero : Cpu := ⟨.zero, 0, 0⟩

/-- The kernel's hash over zeroed memory, the device registered as major `major`. -/
def Env.linux (major : Word) : Env where
  hash := hash32
  uninit _ :=
    { fiberLock := false, fiberId := 0, name := "", attachedThread := none,
      parentProcess := ⟨0, 0⟩, registers := .zero, fpu := 0, fiberStack := 0, fiberStackSize := 0,
      fls := fun _ => 0, flsBitmap := fun _ => false, startAddress := 0, creatorThread := 0,
      activationCounter := 0, failedActivationCounter := 0, totalTime := 0 }
  major := major

namespace Kernel

variable (k : Kernel)

/-! ## Changing one record -/

/-- Change the process record at `p`. -/
def modProcess (p : Ptr) (g : Process → Process) : Kernel :=
  { k with process := Function.update k.process p ((k.process p).map g) }

/-- Change the thread record at `t`. -/
def modThread (t : Ptr) (g : Thread → Thread) : Kernel :=
  { k with thread := Function.update k.thread t ((k.thread t).map g) }

/-- Change the fiber record at `f`. -/
def modFiber (f : Ptr) (g : Fiber → Fiber) : Kernel :=
  { k with fiber := Function.update k.fiber f ((k.fiber f).map g) }

/-- Change the CPU state of a thread. -/
def modCpu (cur : Task) (g : Cpu → Cpu) : Kernel :=
  { k with cpu := Function.update k.cpu cur (g (k.cpu cur)) }

section

variable (p x : Ptr) (cur y : Task) (gp : Process → Process) (gt : Thread → Thread)
  (gf : Fiber → Fiber) (gc : Cpu → Cpu)

@[simp] theorem modProcess_processes : (k.modProcess p gp).processes = k.processes := rfl
@[simp] theorem modProcess_thread : (k.modProcess p gp).thread = k.thread := rfl
@[simp] theorem modProcess_fiber : (k.modProcess p gp).fiber = k.fiber := rfl
@[simp] theorem modProcess_brk : (k.modProcess p gp).brk = k.brk := rfl
@[simp] theorem modProcess_cpu : (k.modProcess p gp).cpu = k.cpu := rfl
@[simp] theorem modProcess_process : (k.modProcess p gp).process x =
    if x = p then (k.process p).map gp else k.process x := by
  simp [modProcess, Function.update_apply]

@[simp] theorem modThread_processes : (k.modThread p gt).processes = k.processes := rfl
@[simp] theorem modThread_process : (k.modThread p gt).process = k.process := rfl
@[simp] theorem modThread_fiber : (k.modThread p gt).fiber = k.fiber := rfl
@[simp] theorem modThread_brk : (k.modThread p gt).brk = k.brk := rfl
@[simp] theorem modThread_cpu : (k.modThread p gt).cpu = k.cpu := rfl
@[simp] theorem modThread_thread : (k.modThread p gt).thread x =
    if x = p then (k.thread p).map gt else k.thread x := by
  simp [modThread, Function.update_apply]

@[simp] theorem modFiber_processes : (k.modFiber p gf).processes = k.processes := rfl
@[simp] theorem modFiber_process : (k.modFiber p gf).process = k.process := rfl
@[simp] theorem modFiber_thread : (k.modFiber p gf).thread = k.thread := rfl
@[simp] theorem modFiber_brk : (k.modFiber p gf).brk = k.brk := rfl
@[simp] theorem modFiber_cpu : (k.modFiber p gf).cpu = k.cpu := rfl
@[simp] theorem modFiber_fiber : (k.modFiber p gf).fiber x =
    if x = p then (k.fiber p).map gf else k.fiber x := by
  simp [modFiber, Function.update_apply]

@[simp] theorem modCpu_processes : (k.modCpu cur gc).processes = k.processes := rfl
@[simp] theorem modCpu_process : (k.modCpu cur gc).process = k.process := rfl
@[simp] theorem modCpu_thread : (k.modCpu cur gc).thread = k.thread := rfl
@[simp] theorem modCpu_fiber : (k.modCpu cur gc).fiber = k.fiber := rfl
@[simp] theorem modCpu_brk : (k.modCpu cur gc).brk = k.brk := rfl
@[simp] theorem modCpu_cpu : (k.modCpu cur gc).cpu y =
    if y = cur then gc (k.cpu cur) else k.cpu y := by
  simp [modCpu, Function.update_apply]

end

theorem modFiber_modFiber (f : Ptr) (g g' : Fiber → Fiber) :
    (k.modFiber f g).modFiber f g' = k.modFiber f fun r => g' (g r) := by
  simp [modFiber, Function.comp_def]

theorem modFiber_of_some {k : Kernel} {f : Ptr} {r : Fiber} (h : k.fiber f = some r)
    (g : Fiber → Fiber) :
    k.modFiber f g = { k with fiber := Function.update k.fiber f (some (g r)) } := by
  simp [modFiber, h]

theorem modFiber_self {k : Kernel} {f : Ptr} {g : Fiber → Fiber}
    (h : ∀ r, k.fiber f = some r → g r = r) : k.modFiber f g = k := by
  have hmap : (k.fiber f).map g = k.fiber f := by
    cases hf : k.fiber f with
    | none => rfl
    | some r => simp [h r hf]
  rw [modFiber, hmap, Function.update_eq_self]

/-! ## Fields reached through a pointer -/

/-- The key of a process record. -/
def processKey (p : Ptr) : Option PidT := (k.process p).map Process.processId

/-- The key of a thread record. -/
def threadKey (t : Ptr) : Option PidT := (k.thread t).map Thread.threadId

/-- The key of a fiber record. -/
def fiberKey (f : Ptr) : Option PidT := (k.fiber f).map Fiber.fiberId

/-- `t->selected_fiber`. -/
def selected (t : Ptr) : Option Ptr := (k.thread t).bind Thread.selectedFiber

/-- `f->attached_thread`. -/
def attached (f : Ptr) : Option Ptr := (k.fiber f).bind Fiber.attachedThread

/-- `f->fiber_lock` is held. -/
def locked (f : Ptr) : Bool := (k.fiber f).any Fiber.fiberLock

end Kernel

end AosvFibers
