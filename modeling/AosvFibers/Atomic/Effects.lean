import AosvFibers.Atomic.Invariant

/-!
# The effect of each path through the operations

Every operation takes one of a few paths, chosen by its lookups and by the
target fiber. For each path that changes the state this file names the state
it leads to (`Kernel.withFiber`, `Kernel.converted`, `Kernel.created`,
`Kernel.switched`, `Kernel.detached`, `Kernel.toreDown`) and proves that the
operation, run from its first to its last statement, leads there.
-/

namespace AosvFibers

open Lib Stmt

variable {E : Env} {cur : Task} {k k' : Kernel}

/-! ## Lookups -/

section

variable (E) (k : Kernel) (p : Process) (id : PidT)

/-- What `find_process_by_tgid` finds in state `k`. -/
def Kernel.processOf : Option (Option Ptr) := k.processes.find E.hash k.processKey id

/-- What `find_thread_by_pid` finds in the process record `p`. -/
def Kernel.threadOf : Option (Option Ptr) := p.threads.find E.hash k.threadKey id

/-- What `find_fiber_by_id` finds in the process record `p`. -/
def Kernel.fiberOf : Option (Option Ptr) := p.fibers.find E.hash k.fiberKey id

end

@[simp] theorem findProcessByTgid_eq_some {g : PidT} {r : Option Ptr} :
    findProcessByTgid E g k = some (r, k') ↔ k.processOf E g = some r ∧ k' = k := by
  simp [findProcessByTgid, Kernel.processOf, eq_comm]

/-- A thread record is found under one pid only. -/
theorem Kernel.threadOf_inj (E : Env) (k : Kernel) (p : Process) (u v : PidT) (t : Ptr)
    (hu : (k.threadOf E p u).join = some t) (hv : (k.threadOf E p v).join = some t) : u = v := by
  have h1 := (HashTable.find_eq_some (Option.join_eq_some_iff.mp hu)).2
  have h2 := (HashTable.find_eq_some (Option.join_eq_some_iff.mp hv)).2
  simpa [h1] using h2

theorem findThreadByPid_eq_some {pid : PidT} {ep : Ptr} {r : Option Ptr} :
    findThreadByPid E pid ep k = some (r, k') ↔
      ∃ p, k.process ep = some p ∧ k.threadOf E p pid = some r ∧ k' = k := by
  simp only [findThreadByPid, Kernel.threadOf, Option.bind_eq_some_iff, Option.map_eq_some_iff]
  simp [eq_comm]

theorem findFiberById_eq_some {id : PidT} {ep : Ptr} {r : Option Ptr} :
    findFiberById E id ep k = some (r, k') ↔
      ∃ p, k.process ep = some p ∧ k.fiberOf E p id = some r ∧ k' = k := by
  simp only [findFiberById, Kernel.fiberOf, Option.bind_eq_some_iff, Option.map_eq_some_iff]
  simp [eq_comm]

/-- The calling thread is converted: its process record `p` at `ep` and its
    thread record `t` at `tp` are found. -/
structure Caller (E : Env) (k : Kernel) (cur : Task) (ep : Ptr) (p : Process) (tp : Ptr)
    (t : Thread) : Prop where
  process : k.processOf E cur.tgid = some (some ep)
  process_eq : k.process ep = some p
  thread : k.threadOf E p cur.pid = some (some tp)
  thread_eq : k.thread tp = some t

/-! ## `init_fiber` -/

/-- The address `kmalloc` returns next to process `g`. -/
def Kernel.nextPtr (k : Kernel) (g : PidT) : Ptr := ⟨g, k.brk g⟩

/-- The fiber `init_fiber` makes. -/
def initializedFiber (E : Env) (cur : Task) (f : Ptr) (cpu : Cpu) (parent : Ptr) (ss : ℤ)
    (sPtr : Word) (id : PidT) : Fiber :=
  { freshFiber E f cpu parent ss sPtr with
    fiberId := id
    startAddress := cpu.regs.ip
    creatorThread := cur.pid
    activationCounter := 0
    failedActivationCounter := 0
    fpu := cpu.fxregs
    totalTime := 0
    name := toString id.toInt }

/-- The id the next fiber gets. -/
def Process.nextId (p : Process) : PidT := (p.lastFiberId + 1).setWidth 32

/-- The process record with the fiber at `f` added under the next id. -/
def Process.withFiber (E : Env) (p : Process) (f : Ptr) : Process :=
  { p with lastFiberId := p.lastFiberId + 1, fibers := p.fibers.add (E.hash p.nextId) f }

/-- The state with a new fiber `r` in process `p`. -/
def Kernel.withFiber (E : Env) (k : Kernel) (cur : Task) (ep : Ptr) (p : Process) (r : Fiber) :
    Kernel :=
  { k with
    brk := Function.update k.brk cur.tgid (k.brk cur.tgid + 1)
    process := Function.update k.process ep (some (p.withFiber E (k.nextPtr cur.tgid)))
    fiber := Function.update k.fiber (k.nextPtr cur.tgid) (some r) }

theorem initFiber_eq {ep : Ptr} {p : Process} (hp : k.process ep = some p) (ss : ℤ)
    (sPtr : Word) :
    initFiber E cur ep ss sPtr k = some (k.nextPtr cur.tgid, k.withFiber E cur ep p
      (initializedFiber E cur (k.nextPtr cur.tgid) (k.cpu cur) ep ss sPtr p.nextId)) := by
  simp only [initFiber, K.bind_eq_some]
  refine ⟨_, _, rfl, (), _, by simp [takeFiberId, hp]; rfl, (), _, execAll_eq_some.mpr ⟨?_, rfl⟩, ?_⟩
  · exact ⟨by simp [ok, hp], okAll_assigns _ (by simp [apply])⟩
  · rw [initFiberTail, applyAll_cons, applyAll_assigns]
    simp [apply, hp, Kernel.modFiber, Kernel.modProcess, Kernel.withFiber, Kernel.nextPtr,
      Process.withFiber, Process.nextId]
    rfl

/-! ## `do_CreateFiber` -/

/-- The fiber `do_CreateFiber` makes. -/
def createdFiber (E : Env) (cur : Task) (f : Ptr) (cpu : Cpu) (parent : Ptr)
    (stackPointer stackSize fiberFunction parameters : Word) (id : PidT) : Fiber :=
  let r := initializedFiber E cur f cpu parent stackSize.toNat stackPointer id
  { r with
    registers := { r.registers with ip := fiberFunction, di := parameters }
    startAddress := fiberFunction }

/-- The state after a successful `do_CreateFiber`. -/
def Kernel.created (E : Env) (k : Kernel) (cur : Task) (ep : Ptr) (p : Process)
    (stackPointer stackSize fiberFunction parameters : Word) : Kernel :=
  k.withFiber E cur ep p (createdFiber E cur (k.nextPtr cur.tgid) (k.cpu cur) ep stackPointer
    stackSize fiberFunction parameters p.nextId)

theorem doCreateFiber_eq {ep tp : Ptr} {p : Process} {t : Thread} (h : Caller E k cur ep p tp t)
    (stackPointer stackSize fiberFunction parameters : Word) :
    doCreateFiber E cur stackPointer stackSize fiberFunction parameters cur.pid k =
      some (p.nextId.toInt,
        k.created E cur ep p stackPointer stackSize fiberFunction parameters) := by
  simp only [doCreateFiber, K.bind_eq_some, findProcessByTgid_eq_some]
  refine ⟨_, _, ⟨h.process, rfl⟩, ?_⟩
  simp only [K.bind_eq_some, findThreadByPid_eq_some]
  refine ⟨_, _, ⟨p, h.process_eq, h.thread, rfl⟩, ?_⟩
  simp only [K.bind_eq_some]
  refine ⟨_, _, initFiber_eq h.process_eq _ _, (), _, execAll_eq_some.mpr ⟨?_, rfl⟩, ?_⟩
  · exact okAll_assigns _ (by simp [Kernel.withFiber])
  · rw [createTail, applyAll_assigns]
    simp only [readFiber_eq_some]
    refine ⟨_, _, ⟨by simp [Kernel.withFiber]; rfl, rfl⟩, ?_⟩
    simp [Kernel.created, Kernel.withFiber, Kernel.modFiber]
    exact ⟨rfl, rfl⟩

/-! ## `do_ConvertThreadToFiber` -/

/-- The state with an empty record for the process of `cur`. -/
def Kernel.withProcess (E : Env) (k : Kernel) (cur : Task) : Kernel :=
  { k with
    brk := Function.update k.brk cur.tgid (k.brk cur.tgid + 1)
    process := Function.update k.process (k.nextPtr cur.tgid) (some
      { processId := cur.tgid, lastFiberId := 0, activeThreads := 0,
        threads := .empty, fibers := .empty })
    processes := k.processes.add (E.hash cur.tgid) (k.nextPtr cur.tgid) }

theorem findOrCreateProcess_found {ep : Ptr} (h : k.processOf E cur.tgid = some (some ep)) :
    findOrCreateProcess E cur k = some (ep, k) := by
  simp only [findOrCreateProcess, K.bind_eq_some, findProcessByTgid_eq_some]
  exact ⟨_, _, ⟨h, rfl⟩, rfl⟩

theorem findOrCreateProcess_new (h : k.processOf E cur.tgid = some none) :
    findOrCreateProcess E cur k = some (k.nextPtr cur.tgid, k.withProcess E cur) := by
  simp only [findOrCreateProcess, K.bind_eq_some, findProcessByTgid_eq_some]
  exact ⟨_, _, ⟨h, rfl⟩, rfl⟩

/-- The process record with the thread at `t` added. -/
def Process.withThread (E : Env) (p : Process) (pid : PidT) (t : Ptr) : Process :=
  { p with activeThreads := p.activeThreads + 1, threads := p.threads.add (E.hash pid) t }

/-- The state with a new thread record for `cur`. -/
def Kernel.withThread (E : Env) (k : Kernel) (cur : Task) (ep : Ptr) (p : Process) (t : Thread) :
    Kernel :=
  { k with
    brk := Function.update k.brk cur.tgid (k.brk cur.tgid + 1)
    process := Function.update k.process ep
      (some (p.withThread E cur.pid (k.nextPtr cur.tgid)))
    thread := Function.update k.thread (k.nextPtr cur.tgid) (some t) }

theorem initThread_eq {ep : Ptr} {p : Process} (hp : k.process ep = some p) :
    initThread E cur ep cur.pid k = some (k.nextPtr cur.tgid, k.withThread E cur ep p
      { threadId := cur.pid, parent := ep, selectedFiber := none }) := by
  simp only [initThread, K.bind_eq_some]
  refine ⟨_, _, rfl, (), _, execAll_eq_some.mpr ⟨?_, rfl⟩, ?_⟩
  · simp [okAll, ok, apply, hp]
  · simp [apply, hp, Kernel.modProcess, Kernel.withThread, Kernel.nextPtr, Process.withThread]

/-- The fiber `do_ConvertThreadToFiber` makes for the thread at `gp`. -/
def convertedFiber (E : Env) (cur : Task) (gp fp : Ptr) (cpu : Cpu) (parent : Ptr) (id : PidT) :
    Fiber :=
  { initializedFiber E cur fp cpu parent (-1) 0 id with
    registers := cpu.regs
    activationCounter := 1
    attachedThread := some gp
    fiberLock := true }

/-- The state after `do_ConvertThreadToFiber` has converted `cur`. -/
def Kernel.converted (E : Env) (k : Kernel) (cur : Task) (ep : Ptr) (p : Process) : Kernel :=
  let gp := k.nextPtr cur.tgid
  let fp : Ptr := ⟨cur.tgid, k.brk cur.tgid + 1⟩
  { k with
    brk := Function.update k.brk cur.tgid (k.brk cur.tgid + 2)
    process := Function.update k.process ep
      (some ((p.withThread E cur.pid gp).withFiber E fp))
    thread := Function.update k.thread gp
      (some { threadId := cur.pid, parent := ep, selectedFiber := some fp })
    fiber := Function.update k.fiber fp
      (some (convertedFiber E cur gp fp (k.cpu cur) ep p.nextId)) }

theorem doConvertThreadToFiber_found {k₁ : Kernel} {ep tp : Ptr} {p : Process}
    (he : findOrCreateProcess E cur k = some (ep, k₁)) (hp : k₁.process ep = some p)
    (ht : k₁.threadOf E p cur.pid = some (some tp)) :
    doConvertThreadToFiber E cur cur.pid k = some (-1, k₁) := by
  simp only [doConvertThreadToFiber, K.bind_eq_some, findThreadByPid_eq_some]
  exact ⟨_, _, he, _, _, ⟨p, hp, ht, rfl⟩, rfl⟩

theorem doConvertThreadToFiber_new {k₁ : Kernel} {ep : Ptr} {p : Process}
    (he : findOrCreateProcess E cur k = some (ep, k₁)) (hp : k₁.process ep = some p)
    (ht : k₁.threadOf E p cur.pid = some none) :
    doConvertThreadToFiber E cur cur.pid k =
      some (p.nextId.toInt, k₁.converted E cur ep p) := by
  simp only [doConvertThreadToFiber, K.bind_eq_some, findThreadByPid_eq_some]
  refine ⟨_, _, he, _, _, ⟨p, hp, ht, rfl⟩, ?_⟩
  simp only [K.bind_eq_some]
  refine ⟨_, _, initThread_eq hp, _, _, initFiber_eq (by simp [Kernel.withThread]; rfl) _ _, (), _,
    execAll_eq_some.mpr ⟨?_, rfl⟩, ?_⟩
  · refine okAll_append.mpr ⟨okAll_assigns _ (by simp [Kernel.withFiber]), ?_⟩
    simp [applyAll_assigns, okAll, ok, Kernel.withFiber, Kernel.withThread]
  · rw [convertTail, applyAll_append, applyAll_assigns]
    refine ⟨true, _, by simp [spinTrylock, apply, Kernel.withFiber]; exact ⟨rfl, rfl⟩, ?_⟩
    rw [if_neg (by simp)]
    simp only [K.bind_eq_some, readFiber_eq_some]
    refine ⟨_, _, ⟨by simp; rfl, rfl⟩, ?_⟩
    simp [Kernel.converted, Kernel.withThread, Kernel.modFiber, Kernel.modThread, Kernel.nextPtr]
    exact ⟨rfl, rfl⟩

/-! ## `do_SwitchToFiber` -/

/-- The state after a failed attempt to switch to `f`. -/
def Kernel.bumped (k : Kernel) (f : Ptr) : Kernel :=
  k.modFiber f fun r => { r with failedActivationCounter := r.failedActivationCounter + 1 }

/-- The fiber a thread leaves, with the thread's context saved in it. -/
def leftFiber (cpu : Cpu) (r : Fiber) : Fiber :=
  { r with
    totalTime := r.totalTime + cpu.utime
    registers := cpu.regs
    fpu := cpu.fxregs
    attachedThread := none
    fiberLock := false }

/-- The fiber the thread at `tp` takes. -/
def takenFiber (tp : Ptr) (r : Fiber) : Fiber :=
  { r with
    fiberLock := true
    attachedThread := some tp
    activationCounter := r.activationCounter + 1 }

/-- The state after the thread at `tp` has switched from `prev` to `f`. -/
def Kernel.switched (k : Kernel) (cur : Task) (tp f prev : Ptr) (t : Thread) (rf rp : Fiber) :
    Kernel :=
  { k with
    fiber := Function.update (Function.update k.fiber f (some (takenFiber tp rf))) prev
      (some (leftFiber (k.cpu cur) rp))
    thread := Function.update k.thread tp (some { t with selectedFiber := some f })
    cpu := Function.update k.cpu cur
      { regs := rf.registers, fxregs := rf.fpu, utime := (k.cpu cur).utime } }

/-- The statements of a successful switch, from the trylock on. -/
theorem applyAll_switch {tp f prev : Ptr} {t : Thread} {rf rp : Fiber} (hne : f ≠ prev)
    (ht : k.thread tp = some t) (hf : k.fiber f = some rf) (hp : k.fiber prev = some rp) :
    applyAll E cur (switchAttach tp f ++ switchTail tp f prev)
      (k.modFiber f fun r => { r with fiberLock := true }) =
      k.switched cur tp f prev t rf rp := by
  rw [applyAll_append, switchAttach, applyAll_assigns, Kernel.modFiber_modFiber, switchTail,
    List.cons_append, applyAll_cons, applyAll_append, applyAll_assigns]
  simp [apply, hf, hne, Kernel.modFiber, Kernel.modThread, Kernel.modCpu, ht, hp,
    Function.update_of_ne hne.symm, Kernel.switched]
  exact ⟨rfl, rfl⟩

theorem okAll_switch {tp f prev : Ptr} (ht : (k.thread tp).isSome) (hf : (k.fiber f).isSome)
    (hp : (k.fiber prev).isSome) : okAll E cur (switchTail tp f prev) k := by
  apply okAll_of_forall
  · simp [switchTail, assigns, frees]
  · simp [switchTail, assigns, ok, ht, hf, hp]

section Switch

variable {ep tp f prev : Ptr} {p : Process} {t : Thread} {rf rp : Fiber} {id : PidT}

theorem doSwitchToFiber_missing (h : Caller E k cur ep p tp t)
    (hid : k.fiberOf E p id = some none) : doSwitchToFiber E cur id cur.pid k = some (-1, k) := by
  simp only [doSwitchToFiber, K.bind_eq_some, findProcessByTgid_eq_some]
  refine ⟨_, _, ⟨h.process, rfl⟩, ?_⟩
  simp only [K.bind_eq_some, findThreadByPid_eq_some]
  refine ⟨_, _, ⟨p, h.process_eq, h.thread, rfl⟩, ?_⟩
  simp only [K.bind_eq_some, findFiberById_eq_some]
  exact ⟨_, _, ⟨p, h.process_eq, hid, rfl⟩, rfl⟩

theorem doSwitchToFiber_busy (h : Caller E k cur ep p tp t)
    (hid : k.fiberOf E p id = some (some f)) (hf : k.fiber f = some rf) (hl : rf.fiberLock = true) :
    doSwitchToFiber E cur id cur.pid k = some (-1, k.bumped f) := by
  simp only [doSwitchToFiber, K.bind_eq_some, findProcessByTgid_eq_some]
  refine ⟨_, _, ⟨h.process, rfl⟩, ?_⟩
  simp only [K.bind_eq_some, findThreadByPid_eq_some]
  refine ⟨_, _, ⟨p, h.process_eq, h.thread, rfl⟩, ?_⟩
  simp only [K.bind_eq_some, findFiberById_eq_some]
  refine ⟨_, _, ⟨p, h.process_eq, hid, rfl⟩, ?_⟩
  -- taking a lock that is held leaves it as it is
  have hk : k.modFiber f (fun r => { r with fiberLock := true }) = k :=
    Kernel.modFiber_self fun r hr => by
      obtain rfl : rf = r := by simpa [hf] using hr
      rw [← hl]
  simp only [K.bind_eq_some]
  refine ⟨false, k, by simp [spinTrylock, hf, hl, hk], _, _, readFiber_eq_some.mpr ⟨hf, rfl⟩, ?_⟩
  rw [if_pos (by simp)]
  simp only [K.bind_eq_some]
  refine ⟨(), _, execAll_eq_some.mpr ⟨okAll_assigns _ (by simp [hf]), rfl⟩, ?_⟩
  rw [applyAll_assigns]
  rfl

theorem doSwitchToFiber_free (h : Caller E k cur ep p tp t)
    (hid : k.fiberOf E p id = some (some f)) (hf : k.fiber f = some rf)
    (hl : rf.fiberLock = false) (ha : rf.attachedThread = none)
    (hsel : t.selectedFiber = some prev) (hp : k.fiber prev = some rp) (hne : f ≠ prev) :
    doSwitchToFiber E cur id cur.pid k = some (0, k.switched cur tp f prev t rf rp) := by
  simp only [doSwitchToFiber, K.bind_eq_some, findProcessByTgid_eq_some]
  refine ⟨_, _, ⟨h.process, rfl⟩, ?_⟩
  simp only [K.bind_eq_some, findThreadByPid_eq_some]
  refine ⟨_, _, ⟨p, h.process_eq, h.thread, rfl⟩, ?_⟩
  simp only [K.bind_eq_some, findFiberById_eq_some]
  refine ⟨_, _, ⟨p, h.process_eq, hid, rfl⟩, ?_⟩
  simp only [K.bind_eq_some]
  refine ⟨true, _, by simp [spinTrylock, hf, hl]; rfl, _, _,
    readFiber_eq_some.mpr ⟨by simp [hf]; rfl, rfl⟩, ?_⟩
  rw [if_neg (by simp [ha])]
  simp only [K.bind_eq_some]
  refine ⟨(), _, execAll_eq_some.mpr ⟨okAll_assigns _ (by simp [hf]), rfl⟩, _, _,
    readThread_eq_some.mpr ⟨by simp [switchAttach, applyAll_assigns, h.thread_eq], rfl⟩, _, _,
    nonNull_eq_some.mpr ⟨hsel, rfl⟩, (), _,
    execAll_eq_some.mpr ⟨?_, rfl⟩, ?_⟩
  · apply okAll_switch
    · simp [switchAttach, applyAll_assigns, h.thread_eq]
    · simp [switchAttach, applyAll_assigns, hf]
    · simp [switchAttach, applyAll_assigns, hp, hne.symm]
  · rw [← applyAll_append, applyAll_switch hne h.thread_eq hf hp]
    rfl

end Switch

/-! ## The FLS operations -/

/-- The four FLS operations on the fiber the caller has selected: the result
    and the fiber afterwards. -/
def flsEffect : Call → Fiber → ℤ × Fiber
  | .flsAlloc, r =>
    let index := findFirstZeroBit r.flsBitmap
    if h : index < maxFlsPointers then
      (index, { r with flsBitmap := Function.update r.flsBitmap ⟨index, h⟩ (!r.flsBitmap ⟨index, h⟩) })
    else (-1, r)
  | .flsFree index, r =>
    match flsIndex? index with
    | none => (0, r)
    | some i =>
      if r.flsBitmap i = false then (0, r)
      else (1, { r with flsBitmap := Function.update r.flsBitmap i (!r.flsBitmap i) })
  | .flsGetValue index, r =>
    match flsIndex? index with
    | none => (-1, r)
    | some i => if r.flsBitmap i = false then (-1, r) else ((r.fls i).toInt, r)
  | .flsSetValue index value, r =>
    match flsIndex? index with
    | none => (0, r)
    | some i =>
      if r.flsBitmap i = false then (0, r) else (0, { r with fls := Function.update r.fls i value })
  | _, r => (0, r)

theorem callerFiber_eq {ep tp : Ptr} {p : Process} {t : Thread} (h : Caller E k cur ep p tp t) :
    callerFiber E cur cur.pid k = some (t.selectedFiber, k) := by
  simp only [callerFiber, K.bind_eq_some, findProcessByTgid_eq_some]
  refine ⟨_, _, ⟨h.process, rfl⟩, ?_⟩
  simp only [K.bind_eq_some, findThreadByPid_eq_some]
  refine ⟨_, _, ⟨p, h.process_eq, h.thread, rfl⟩, ?_⟩
  simp only [K.bind_eq_some, readThread_eq_some]
  exact ⟨_, _, ⟨h.thread_eq, rfl⟩, rfl⟩

theorem fls_run {ep tp f : Ptr} {p : Process} {t : Thread} {r : Fiber} {c : Call}
    (h : Caller E k cur ep p tp t) (hsel : t.selectedFiber = some f) (hf : k.fiber f = some r)
    (hc : c.isFls) :
    c.run E cur k = some ((flsEffect c r).1,
      { k with fiber := Function.update k.fiber f (some (flsEffect c r).2) }) := by
  have hcf : callerFiber E cur cur.pid k = some (some f, k) := hsel ▸ callerFiber_eq h
  have hself : { k with fiber := Function.update k.fiber f (some r) } = k := by
    rw [← hf, Function.update_eq_self]
  have hexec : ∀ a : Assign, execAll E cur (assigns f [a]) k = some ((),
      { k with fiber := Function.update k.fiber f (some (a.run cur (k.cpu cur) r)) }) := fun a =>
    execAll_eq_some.mpr ⟨okAll_assigns _ (by simp [hf]), by
      rw [applyAll_assigns, Kernel.modFiber_of_some hf]; rfl⟩
  have hread : readFiber f k = some (r, k) := readFiber_eq_some.mpr ⟨hf, rfl⟩
  cases c with
  | flsAlloc =>
    simp only [Call.run, doFlsAlloc, K.bind_apply, hcf, Option.bind_some, hread, flsEffect]
    split_ifs with hi
    · simp only [K.bind_apply, hexec, Option.bind_some]
      rfl
    · rw [hself]; rfl
  | flsFree index =>
    simp only [Call.run, doFlsFree, K.bind_apply, hcf, Option.bind_some, flsEffect]
    cases flsIndex? index with
    | none => simp [hself]
    | some i =>
      simp only [K.bind_apply, hread, Option.bind_some]
      split_ifs with hb
      · simp [hself]
      · simp only [K.bind_apply, hexec, Option.bind_some]
        rfl
  | flsGetValue index =>
    simp only [Call.run, doFlsGetValue, K.bind_apply, hcf, Option.bind_some, flsEffect]
    cases flsIndex? index with
    | none => simp [hself]
    | some i =>
      simp only [K.bind_apply, hread, Option.bind_some]
      split_ifs with hb
      · simp [hself]
      · simp only [K.bind_apply, hread, Option.bind_some]
        rw [hself]; rfl
  | flsSetValue index value =>
    simp only [Call.run, doFlsSetValue, K.bind_apply, hcf, Option.bind_some, flsEffect]
    cases flsIndex? index with
    | none => simp [hself]
    | some i =>
      simp only [K.bind_apply, hread, Option.bind_some]
      split_ifs with hb
      · simp [hself]
      · simp only [hexec, Option.bind_some]
        rfl
  | _ => simp [Call.isFls] at hc

/-- The FLS operations write the bitmap and the values only. -/
theorem flsEffect_eq (c : Call) (r : Fiber) : ∃ bitmap values,
    (flsEffect c r).2 = { r with flsBitmap := bitmap, fls := values } := by
  cases c with
  | flsAlloc =>
    simp only [flsEffect]
    split_ifs
    · exact ⟨_, r.fls, rfl⟩
    · exact ⟨r.flsBitmap, r.fls, rfl⟩
  | flsFree index | flsGetValue index | flsSetValue index _ =>
    simp only [flsEffect]
    cases flsIndex? index with
    | none => exact ⟨r.flsBitmap, r.fls, rfl⟩
    | some i =>
      by_cases hb : r.flsBitmap i = false
      · exact ⟨r.flsBitmap, r.fls, by simp [hb]⟩
      · simp only [hb]
        exact ⟨_, _, rfl⟩
  | _ => exact ⟨r.flsBitmap, r.fls, rfl⟩

/-! ## Calls of threads that are not converted -/

/-- The calling thread has no thread record. -/
def NotConverted (E : Env) (k : Kernel) (cur : Task) : Prop :=
  k.processOf E cur.tgid = some none ∨ ∃ ep p, k.processOf E cur.tgid = some (some ep) ∧
    k.process ep = some p ∧ k.threadOf E p cur.pid = some none

theorem run_refused {c : Call} (h : NotConverted E k cur) (hc : c ≠ .convert) :
    c.run E cur k = some (c.refused, k) := by
  have hcf : callerFiber E cur cur.pid k = some (none, k) := by
    rcases h with h | ⟨ep, p, h1, h2, h3⟩
    · simp only [callerFiber, K.bind_eq_some, findProcessByTgid_eq_some]
      exact ⟨_, _, ⟨h, rfl⟩, rfl⟩
    · simp only [callerFiber, K.bind_eq_some, findProcessByTgid_eq_some]
      refine ⟨_, _, ⟨h1, rfl⟩, ?_⟩
      simp only [K.bind_eq_some, findThreadByPid_eq_some]
      exact ⟨_, _, ⟨p, h2, h3, rfl⟩, rfl⟩
  have hp : ∀ x, k.processOf E cur.tgid = some x →
      findProcessByTgid E cur.tgid k = some (x, k) := fun x hx =>
    findProcessByTgid_eq_some.mpr ⟨hx, rfl⟩
  have ht : ∀ ep p, k.process ep = some p → k.threadOf E p cur.pid = some none →
      findThreadByPid E cur.pid ep k = some (none, k) := fun ep p h2 h3 =>
    findThreadByPid_eq_some.mpr ⟨p, h2, h3, rfl⟩
  cases c with
  | convert => exact absurd rfl hc
  | flsAlloc | flsFree _ | flsGetValue _ | flsSetValue _ _ =>
    simp [Call.run, doFlsAlloc, doFlsFree, doFlsGetValue, doFlsSetValue, K.bind_apply, hcf,
      Call.refused]
  | create _ _ _ _ | switchTo _ | exit =>
    rcases h with h | ⟨ep, p, h1, h2, h3⟩
    · simp [Call.run, doCreateFiber, doSwitchToFiber, exitCleanup, K.bind_apply, hp _ h,
        Call.refused]
    · simp [Call.run, doCreateFiber, doSwitchToFiber, exitCleanup, K.bind_apply, hp _ h1,
        ht ep p h2 h3, Call.refused]

/-! ## Teardown -/

@[simp] theorem mem_hashForEach {T : Table} {x : Ptr} : x ∈ hashForEach T ↔ x ∈ T := by
  simp [hashForEach, HashTable.mem_def]

theorem nodup_hashForEach {T : Table} {key : Ptr → Option PidT} (h : T.WF E.hash key) :
    (hashForEach T).Nodup := by
  rw [hashForEach, List.nodup_flatMap]
  refine ⟨fun b _ => h.nodup b, (List.nodup_finRange hSz).imp fun {b c} hbc => ?_⟩
  intro x hx hx'
  -- a node on two chains would have its key hash to both buckets
  obtain ⟨i, hi, rfl⟩ := h.placed hx
  obtain ⟨j, hj, rfl⟩ := h.placed hx'
  obtain rfl : i = j := by simpa [hi] using hj
  exact hbc rfl

theorem execAll_freeFiber {fs : List Ptr} (hn : fs.Nodup) (he : ∀ f ∈ fs, (k.fiber f).isSome) :
    execAll E cur (fs.map freeFiber) k =
      some ((), { k with fiber := fun x => if x ∈ fs then none else k.fiber x }) := by
  induction fs generalizing k with
  | nil => simp [execAll]
  | cons f fs ih =>
    obtain ⟨hf, hn⟩ := List.nodup_cons.mp hn
    simp only [List.map_cons, execAll, K.bind_eq_some, exec_eq_some]
    refine ⟨(), _, ⟨he f (by simp), rfl⟩, ?_⟩
    rw [ih hn]
    · simp only [apply, List.mem_cons, Option.some.injEq, Prod.mk.injEq, true_and]
      congr
      funext x
      by_cases hx : x = f <;> simp [hx]
    · intro x hx
      have hne : x ≠ f := by rintro rfl; exact hf hx
      simpa [apply, hne] using he x (by simp [hx])

theorem execAll_freeThread {ts : List Ptr} (hn : ts.Nodup) (he : ∀ t ∈ ts, (k.thread t).isSome) :
    execAll E cur (ts.map freeThread) k =
      some ((), { k with thread := fun x => if x ∈ ts then none else k.thread x }) := by
  induction ts generalizing k with
  | nil => simp [execAll]
  | cons t ts ih =>
    obtain ⟨ht, hn⟩ := List.nodup_cons.mp hn
    simp only [List.map_cons, execAll, K.bind_eq_some, exec_eq_some]
    refine ⟨(), _, ⟨he t (by simp), rfl⟩, ?_⟩
    rw [ih hn]
    · simp only [apply, List.mem_cons, Option.some.injEq, Prod.mk.injEq, true_and]
      congr
      funext x
      by_cases hx : x = t <;> simp [hx]
    · intro x hx
      have hne : x ≠ t := by rintro rfl; exact ht hx
      simpa [apply, hne] using he x (by simp [hx])

/-- The state after the process record at `ep` was freed together with the
    thread records `ts` and the fiber records `fs`. -/
def Kernel.toreDown (k : Kernel) (ep : Ptr) (ts fs : List Ptr) : Kernel :=
  { k with
    processes := k.processes.del ep
    process := Function.update k.process ep none
    thread := fun x => if x ∈ ts then none else k.thread x
    fiber := fun x => if x ∈ fs then none else k.fiber x }

/-- The fiber a dying thread leaves behind. -/
def orphanedFiber (cpu : Cpu) (r : Fiber) : Fiber :=
  { r with registers := cpu.regs, fpu := cpu.fxregs, attachedThread := none, fiberLock := false }

/-- The state after the thread at `tp` died and others of its process live on. -/
def Kernel.detached (k : Kernel) (cur : Task) (ep tp prev : Ptr) (p : Process) (rp : Fiber) :
    Kernel :=
  { k with
    process := Function.update k.process ep
      (some { p with activeThreads := p.activeThreads - 1, threads := p.threads.del tp })
    thread := Function.update k.thread tp none
    fiber := Function.update k.fiber prev (some (orphanedFiber (k.cpu cur) rp)) }

section Exit

variable {ep tp prev : Ptr} {p : Process} {t : Thread} {rp : Fiber}

theorem decActiveThreads_eq (ht : k.thread tp = some t) (hpar : t.parent = ep)
    (hp : k.process ep = some p) :
    decActiveThreads tp k = some (p.activeThreads - 1,
      { k with
        process := Function.update k.process ep
          (some { p with activeThreads := p.activeThreads - 1 }) }) := by
  simp [decActiveThreads, ht, hpar, hp, Kernel.modProcess]

theorem exitCleanup_detach (h : Caller E k cur ep p tp t) (hpar : t.parent = ep)
    (hsel : t.selectedFiber = some prev) (hprev : k.fiber prev = some rp)
    (hact : p.activeThreads - 1 ≠ 0) :
    exitCleanup E cur k = some (0, k.detached cur ep tp prev p rp) := by
  simp only [exitCleanup, K.bind_eq_some, findProcessByTgid_eq_some]
  refine ⟨_, _, ⟨h.process, rfl⟩, ?_⟩
  simp only [K.bind_eq_some, findThreadByPid_eq_some]
  refine ⟨_, _, ⟨p, h.process_eq, h.thread, rfl⟩, ?_⟩
  simp only [K.bind_eq_some]
  have hdet : exitDetach t.selectedFiber (p.activeThreads - 1) =
      assigns prev [.saveRegs, .saveFx, .attach none, .unlock] := by
    rw [hsel]; exact if_pos hact
  refine ⟨_, _, decActiveThreads_eq h.thread_eq hpar h.process_eq, _, _,
    readThread_eq_some.mpr ⟨h.thread_eq, rfl⟩, (), _, execAll_eq_some.mpr ⟨?_, rfl⟩, (), _,
    execAll_eq_some.mpr ⟨?_, rfl⟩, ?_⟩
  · rw [hdet]; exact okAll_assigns _ (by simp [hprev])
  · simp [hdet, applyAll_assigns, okAll, ok, apply, h.thread_eq]
  · rw [if_neg hact, hdet, applyAll_assigns]
    simp [apply, Kernel.modFiber, Kernel.modProcess, hprev, Kernel.detached]
    rfl

theorem exitCleanup_last (h : Caller E k cur ep p tp t) (hpar : t.parent = ep)
    (hact : p.activeThreads - 1 = 0) (hwf : p.fibers.WF E.hash k.fiberKey)
    (he : ∀ f ∈ p.fibers, (k.fiber f).isSome) :
    exitCleanup E cur k = some (0, k.toreDown ep [tp] (hashForEach p.fibers)) := by
  simp only [exitCleanup, K.bind_eq_some, findProcessByTgid_eq_some]
  refine ⟨_, _, ⟨h.process, rfl⟩, ?_⟩
  simp only [K.bind_eq_some, findThreadByPid_eq_some]
  refine ⟨_, _, ⟨p, h.process_eq, h.thread, rfl⟩, ?_⟩
  simp only [K.bind_eq_some]
  have hdet : exitDetach t.selectedFiber (p.activeThreads - 1) = [] := by
    cases t.selectedFiber with
    | none => rfl
    | some prev => exact if_neg (not_not.mpr hact)
  refine ⟨_, _, decActiveThreads_eq h.thread_eq hpar h.process_eq, _, _,
    readThread_eq_some.mpr ⟨h.thread_eq, rfl⟩, (), _, execAll_eq_some.mpr ⟨?_, rfl⟩, (), _,
    execAll_eq_some.mpr ⟨?_, rfl⟩, ?_⟩
  · rw [hdet]; trivial
  · simp [hdet, okAll, ok, apply, h.thread_eq]
  · rw [if_pos hact, hdet]
    simp only [K.bind_eq_some, readProcess_eq_some]
    refine ⟨{ p with activeThreads := p.activeThreads - 1, threads := p.threads.del tp }, _,
      ⟨by simp [apply], rfl⟩, (), _,
      execAll_freeFiber (nodup_hashForEach hwf) (by simpa [apply] using he), (), _,
      execAll_eq_some.mpr ⟨by simp [okAll, ok, apply], rfl⟩, ?_⟩
    simp [apply, Kernel.modProcess, Kernel.toreDown]
    funext x
    by_cases hx : x = tp <;> simp [hx]

end Exit

theorem processCleanup_none (h : k.processOf E cur.tgid = some none) :
    processCleanup E cur k = some (0, k) := by
  simp only [processCleanup, K.bind_eq_some, findProcessByTgid_eq_some]
  exact ⟨_, _, ⟨h, rfl⟩, rfl⟩

theorem processCleanup_eq {ep : Ptr} {p : Process} (h : k.processOf E cur.tgid = some (some ep))
    (hp : k.process ep = some p) (hok : ProcOk E k ep p) :
    processCleanup E cur k =
      some (0, k.toreDown ep (hashForEach p.threads) (hashForEach p.fibers)) := by
  have ht : ∀ t ∈ hashForEach p.threads, (k.thread t).isSome := fun t ht => by
    obtain ⟨r, hr⟩ := hok.thread_exists (mem_hashForEach.mp ht)
    simp [hr]
  have hf : ∀ f ∈ hashForEach p.fibers, (k.fiber f).isSome := fun f hf => by
    obtain ⟨r, hr⟩ := hok.fiber_exists (mem_hashForEach.mp hf)
    simp [hr]
  simp only [processCleanup, K.bind_eq_some, findProcessByTgid_eq_some]
  refine ⟨_, _, ⟨h, rfl⟩, ?_⟩
  simp only [K.bind_eq_some, readProcess_eq_some]
  refine ⟨_, _, ⟨hp, rfl⟩, (), _, execAll_freeThread (nodup_hashForEach hok.threadsWF) ht,
    _, _, ⟨hp, rfl⟩, (), _, execAll_freeFiber (nodup_hashForEach hok.fibersWF) hf,
    (), _, execAll_eq_some.mpr ⟨by simp [okAll, ok, apply, hp], rfl⟩, ?_⟩
  simp [apply, Kernel.toreDown]

end AosvFibers
