import AosvFibers.Model.Statements

/-!
# The operations of `module/fibers.c`

Models of the lookups, of the macros of `module/init.h`, of the seven
operations on fibers and of `process_cleanup`, each run by the thread
`cur` (`current`) as one uninterrupted call. `printk` is left out.

`hash_for_each_possible_rcu` walks the chain of one bucket and
`hash_for_each_rcu` visits every linked record once, buckets in index order.
-/

namespace AosvFibers

open Lib Stmt

variable (E : Env)

/-! ## Lookups -/

/-- `find_process_by_tgid` (module/fibers.c:14-31). -/
def findProcessByTgid (tgid : PidT) : K (Option Ptr) := fun k =>
  (k.processes.find E.hash k.processKey tgid).map fun r => (r, k)

/-- `find_thread_by_pid` (module/fibers.c:34-52). -/
def findThreadByPid (pid : PidT) (ep : Ptr) : K (Option Ptr) := fun k =>
  (k.process ep).bind fun p =>
    (p.threads.find E.hash k.threadKey pid).map fun r => (r, k)

/-- `find_fiber_by_id` (module/fibers.c:54-71). -/
def findFiberById (fiberId : PidT) (ep : Ptr) : K (Option Ptr) := fun k =>
  (k.process ep).bind fun p =>
    (p.fibers.find E.hash k.fiberKey fiberId).map fun r => (r, k)

/-! ## `init.h` -/

/-- `kmalloc`, which is assumed to succeed: an address not in use. -/
def kmalloc (cur : Task) : K Ptr := fun k =>
  some (⟨cur.tgid, k.brk cur.tgid⟩,
    { k with brk := Function.update k.brk cur.tgid (k.brk cur.tgid + 1) })

/-- `init_process` (module/init.h:1-9). -/
def initProcess (cur : Task) : K Ptr := do
  let p ← kmalloc cur
  fun k => some ((), { k with
    process := Function.update k.process p (some
      { processId := cur.tgid, lastFiberId := 0, activeThreads := 0,
        threads := .empty, fibers := .empty })
    processes := k.processes.add (E.hash cur.tgid) p })
  return p

/-- The statements of `init_thread` before the record can be reached by anyone
    else (module/init.h:12-15). -/
def allocThread (cur : Task) (parentProcess : Ptr) (id : PidT) : K Ptr := do
  let t ← kmalloc cur
  fun k => some ((), { k with
    thread := Function.update k.thread t (some
      { threadId := id, parent := parentProcess, selectedFiber := none }) })
  return t

/-- `init_thread` (module/init.h:11-18). -/
def initThread (cur : Task) (parentProcess : Ptr) (id : PidT) : K Ptr := do
  let t ← allocThread cur parentProcess id
  execAll E cur [incActive parentProcess, addThread parentProcess t]
  return t

/-- The contents of a `struct fiber` when `init_fiber` has run the statements
    before the fiber gets its id (module/init.h:21-31). `ss` is the value of
    the macro's argument in its own C type: `-1` as an `int`, or an
    `unsigned long`, for which the test `ss >= 0` always holds. -/
def freshFiber (f : Ptr) (cpu : Cpu) (parent : Ptr) (ss : ℤ) (sPtr : Word) : Fiber :=
  let size : Word := if ss ≥ 0 then BitVec.ofInt 64 ss else defaultStackSize
  let sp := sPtr + size - 8
  { E.uninit f with
    fiberLock := false
    attachedThread := none
    parentProcess := parent
    fls := fun _ => 0
    flsBitmap := fun _ => false
    registers := { cpu.regs with sp := sp, bp := sp }
    fiberStack := sPtr
    fiberStackSize := size }

/-- The statements of `init_fiber` before the fiber gets its id
    (module/init.h:21-31); nobody else can reach the record yet. -/
def allocFiber (cur : Task) (parent : Ptr) (ss : ℤ) (sPtr : Word) : K Ptr := do
  let f ← kmalloc cur
  fun k => some ((), { k with
    fiber := Function.update k.fiber f (some (freshFiber E f (k.cpu cur) parent ss sPtr)) })
  return f

/-- `f->fiber_id = atomic64_inc_return(&(parent->last_fiber_id))`
    (module/init.h:32): a 64-bit counter narrowed to `pid_t`. -/
def takeFiberId (parent f : Ptr) : K Unit := fun k =>
  (k.process parent).bind fun p =>
    if (k.fiber f).isSome then
      some ((), (k.modProcess parent fun r => { r with lastFiberId := r.lastFiberId + 1 }).modFiber f
        fun r => { r with fiberId := (p.lastFiberId + 1).setWidth 32 })
    else none

/-- The statements of `init_fiber` from `hash_add_rcu` on (module/init.h:33-40). -/
def initFiberTail (parent f : Ptr) : List Stmt :=
  addFiber parent f ::
    assigns f [.startAtIp, .setCreator, .zeroActivation, .zeroFailed, .saveFx, .zeroTime, .setName]

/-- `init_fiber` (module/init.h:20-41). -/
def initFiber (cur : Task) (parent : Ptr) (ss : ℤ) (sPtr : Word) : K Ptr := do
  let f ← allocFiber E cur parent ss sPtr
  takeFiberId parent f
  execAll E cur (initFiberTail parent f)
  return f

/-! ## Conversion and creation -/

/-- `spin_trylock(&f->fiber_lock)`. -/
def spinTrylock (f : Ptr) : K Bool := fun k =>
  (k.fiber f).map fun r => (!r.fiberLock, k.modFiber f fun r => { r with fiberLock := true })

/-- The find-or-create of the process record under `struct_process_lock`
    (module/fibers.c:82-88). -/
def findOrCreateProcess (cur : Task) : K Ptr := do
  match ← findProcessByTgid E cur.tgid with
  | some ep => return ep
  | none => initProcess E cur

/-- The statements of `do_ConvertThreadToFiber` between `init_fiber` and the
    trylock (module/fibers.c:98-106). -/
def convertTail (gp fp : Ptr) : List Stmt :=
  assigns fp [.copySp, .copyBp, .countActivation, .attach (some gp)] ++ [select gp fp]

/-- `do_ConvertThreadToFiber` (module/fibers.c:74-113). -/
def doConvertThreadToFiber (cur : Task) (threadId : PidT) : K ℤ := do
  let ep ← findOrCreateProcess E cur
  match ← findThreadByPid E threadId ep with
  | some _ => return -1
  | none =>
    let gp ← initThread E cur ep threadId
    let fp ← initFiber E cur ep (-1) 0
    execAll E cur (convertTail gp fp)
    if !(← spinTrylock fp) then return -1
    return (← readFiber fp).fiberId.toInt

/-- The statements of `do_CreateFiber` after `init_fiber` (module/fibers.c:130-135). -/
def createTail (fp : Ptr) (fiberFunction parameters : Word) : List Stmt :=
  assigns fp [.setIp fiberFunction, .setDi parameters, .startAt fiberFunction]

/-- `do_CreateFiber` (module/fibers.c:115-138). -/
def doCreateFiber (cur : Task) (stackPointer stackSize fiberFunction parameters : Word)
    (threadId : PidT) : K ℤ := do
  match ← findProcessByTgid E cur.tgid with
  | none => return -1
  | some ep =>
    match ← findThreadByPid E threadId ep with
    | none => return -1
    | some _ =>
      let fp ← initFiber E cur ep stackSize.toNat stackPointer
      execAll E cur (createTail fp fiberFunction parameters)
      return (← readFiber fp).fiberId.toInt

/-! ## Switching -/

/-- The statements of `do_SwitchToFiber` once the target's lock is taken and
    the target is known to be free (module/fibers.c:170-171). -/
def switchAttach (tp f : Ptr) : List Stmt :=
  assigns f [.attach (some tp), .countActivation]

/-- The statements of `do_SwitchToFiber` after `prev_fiber = tp->selected_fiber`
    (module/fibers.c:174-197). -/
def switchTail (tp f prev : Ptr) : List Stmt :=
  select tp f :: assigns prev [.chargeTime, .saveRegs, .saveFx, .attach none, .unlock] ++
    [loadRegs f, loadFx f]

/-- `do_SwitchToFiber` (module/fibers.c:140-200). -/
def doSwitchToFiber (cur : Task) (fiberId threadId : PidT) : K ℤ := do
  match ← findProcessByTgid E cur.tgid with
  | none => return -1
  | some ep =>
    match ← findThreadByPid E threadId ep with
    | none => return -1
    | some tp =>
      match ← findFiberById E fiberId ep with
      | none => return -1
      | some f =>
        let taken ← spinTrylock f
        let attached := (← readFiber f).attachedThread
        if !taken || attached.isSome then
          execAll E cur (assigns f [.countFailed])
          return -1
        execAll E cur (switchAttach tp f)
        -- `tp->selected_fiber` is written before `prev_fiber` is dereferenced,
        -- but a `NULL` there stops the call either way
        let prev ← nonNull (← readThread tp).selectedFiber
        execAll E cur (switchTail tp f prev)
        return 0

/-! ## Fiber local storage -/

/-- `find_first_zero_bit` from `i` on, looking at `n` bits at most. -/
def findZeroBitFrom (bitmap : FlsIndex → Bool) : (n i : ℕ) → ℕ
  | 0, i => i
  | n + 1, i =>
    if h : i < maxFlsPointers then
      if bitmap ⟨i, h⟩ then findZeroBitFrom bitmap n (i + 1) else i
    else i

/-- `find_first_zero_bit(bitmap, MAX_FLS_POINTERS)`: the first clear bit, or
    `MAX_FLS_POINTERS`. -/
def findFirstZeroBit (bitmap : FlsIndex → Bool) : ℕ := findZeroBitFrom bitmap maxFlsPointers 0

/-- The opening of the four FLS operations: the caller's process, its thread
    record and the fiber that record selects (module/fibers.c:204-216). -/
def callerFiber (cur : Task) (threadId : PidT) : K (Option Ptr) := do
  match ← findProcessByTgid E cur.tgid with
  | none => return none
  | some p =>
    match ← findThreadByPid E threadId p with
    | none => return none
    | some t => return (← readThread t).selectedFiber

/-- An index that passes `index >= MAX_FLS_POINTERS || index < 0`
    (module/fibers.c:245). -/
def flsIndex? (index : ℤ) : Option FlsIndex :=
  if h : index ≥ maxFlsPointers ∨ index < 0 then none else some ⟨index.toNat, by omega⟩

/-- `do_FlsAlloc` (module/fibers.c:202-228). -/
def doFlsAlloc (cur : Task) (threadId : PidT) : K ℤ := do
  match ← callerFiber E cur threadId with
  | none => return -1
  | some f =>
    let index := findFirstZeroBit (← readFiber f).flsBitmap
    if h : index < maxFlsPointers then
      execAll E cur (assigns f [.changeBit ⟨index, h⟩])
      return index
    else return -1

/-- `do_FlsFree` (module/fibers.c:230-254). -/
def doFlsFree (cur : Task) (index : ℤ) (threadId : PidT) : K Bool := do
  match ← callerFiber E cur threadId with
  | none => return false
  | some f =>
    match flsIndex? index with
    | none => return false
    | some i =>
      if (← readFiber f).flsBitmap i = false then return false
      execAll E cur (assigns f [.changeBit i])
      return true

/-- `do_FlsGetValue` (module/fibers.c:256-278). -/
def doFlsGetValue (cur : Task) (index : ℤ) (threadId : PidT) : K Word := do
  match ← callerFiber E cur threadId with
  | none => return -1
  | some f =>
    match flsIndex? index with
    | none => return -1
    | some i =>
      if (← readFiber f).flsBitmap i = false then return -1
      return (← readFiber f).fls i

/-- `do_FlsSetValue` (module/fibers.c:280-304). -/
def doFlsSetValue (cur : Task) (index : ℤ) (value : Word) (threadId : PidT) : K Unit := do
  match ← callerFiber E cur threadId with
  | none => return ()
  | some f =>
    match flsIndex? index with
    | none => return ()
    | some i =>
      if (← readFiber f).flsBitmap i = false then return ()
      execAll E cur (assigns f [.setFls i value])

/-! ## Teardown -/

/-- The records of a table in the order `hash_for_each_rcu` visits them. -/
def hashForEach (T : Table) : List Ptr := (List.finRange hSz).flatMap T.chain

/-- `process_cleanup` (module/fibers.c:308-329). -/
def processCleanup (cur : Task) : K ℤ := do
  match ← findProcessByTgid E cur.tgid with
  | none => return 0
  | some p =>
    execAll E cur ((hashForEach (← readProcess p).threads).map freeThread)
    execAll E cur ((hashForEach (← readProcess p).fibers).map freeFiber)
    execAll E cur [delProcess p, freeProcess p]
    return 0

/-- `ret = atomic64_dec_return(&(t->parent->active_threads))`
    (module/kprobes.c:162). -/
def decActiveThreads (t : Ptr) : K ℤ := fun k =>
  (k.thread t).bind fun r =>
    (k.process r.parent).map fun p =>
      (p.activeThreads - 1,
        k.modProcess r.parent fun p => { p with activeThreads := p.activeThreads - 1 })

/-- The statements of `exit_cleanup` that put the dying thread's fiber aside,
    run if `t->selected_fiber != NULL && ret != 0` (module/kprobes.c:164-182). -/
def exitDetach (selected : Option Ptr) (ret : ℤ) : List Stmt :=
  match selected with
  | some prev => if ret ≠ 0 then assigns prev [.saveRegs, .saveFx, .attach none, .unlock] else []
  | none => []

/-- `exit_cleanup` (module/kprobes.c:141-199), the probe on `do_exit`. -/
def exitCleanup (cur : Task) : K ℤ := do
  match ← findProcessByTgid E cur.tgid with
  | none => return 0
  | some p =>
    match ← findThreadByPid E cur.pid p with
    | none => return 0
    | some t =>
      let ret ← decActiveThreads t
      execAll E cur (exitDetach (← readThread t).selectedFiber ret)
      execAll E cur [delThread p t, freeThread t]
      if ret = 0 then
        execAll E cur ((hashForEach (← readProcess p).fibers).map freeFiber)
        execAll E cur [delProcess p, freeProcess p]
      return 0

end AosvFibers
