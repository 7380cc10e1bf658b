import AosvFibers.Atomic.System

/-!
# The module statement by statement

The threads of one process run their calls concurrently, one statement of one
thread at a time. `Pc` lists the places a thread can be at inside the module,
with the local variables that are live there, and `Pc.step` is the next
statement of the source at each place: a lookup, a `kmalloc` with the writes to
the record nobody else can reach yet, a `spin_trylock`, one read of a shared
field or one `Stmt`.

`solo_call` connects the two views of a call: a thread that runs on its own,
statement by statement, does what `Call.run` does in one step.
-/

namespace AosvFibers

open Lib Stmt

/-! ## Places -/

/-- Who runs `init_fiber`, with the variables needed after it. -/
inductive Maker
  | convert (gp : Ptr)
  | create (stackPointer stackSize fiberFunction parameters : Word)

/-- The places of a thread. -/
inductive Pc
  /-- in user code -/
  | user
  /-- gone -/
  | dead
  /-- at `find_process_by_tgid(current->tgid)`, first statement of every call but a conversion -/
  | findProcess (c : Call)
  /-- at `find_thread_by_pid`, second statement of these calls -/
  | findThread (c : Call) (p : Ptr)
  /-- module/fibers.c:82-88 -/
  | findOrCreate
  /-- module/fibers.c:92 -/
  | findSelf (p : Ptr)
  /-- at `init_thread`, module/init.h:12-15 -/
  | newThread (p : Ptr)
  /-- at `init_fiber`, module/init.h:21-31 -/
  | newFiber (p : Ptr) (m : Maker)
  /-- module/init.h:32 -/
  | takeId (p f : Ptr) (m : Maker)
  /-- module/fibers.c:109 -/
  | lockNew (gp f : Ptr)
  /-- at `return fp->fiber_id` -/
  | readId (c : Call) (f : Ptr)
  /-- module/fibers.c:161 -/
  | findFiber (id : PidT) (p tp : Ptr)
  /-- module/fibers.c:166, first operand -/
  | trylock (id : PidT) (tp f : Ptr)
  /-- module/fibers.c:166, second operand -/
  | checkAttached (id : PidT) (tp f : Ptr)
  /-- module/fibers.c:173 -/
  | readPrev (id : PidT) (tp f : Ptr)
  /-- at `t->selected_fiber == NULL` of an FLS operation -/
  | checkSelected (c : Call) (t : Ptr)
  /-- at `f = t->selected_fiber` of an FLS operation -/
  | readSelected (c : Call) (t : Ptr)
  /-- at the first look an FLS operation takes at its fiber -/
  | flsTest (c : Call) (f : Ptr)
  /-- at `return f->fls[index]` -/
  | flsValue (index : ℤ) (f : Ptr) (i : FlsIndex)
  /-- module/kprobes.c:162 -/
  | dec (p t : Ptr)
  /-- module/kprobes.c:164 -/
  | checkExit (p t : Ptr) (ret : ℤ)
  /-- module/kprobes.c:168 -/
  | exitPrev (p t : Ptr) (ret : ℤ)
  /-- module/kprobes.c:185 -/
  | lastThread (p : Ptr) (ret : ℤ)
  /-- module/kprobes.c:189, about to enter a bucket -/
  | freeBucket (p : Ptr) (b : ℕ)
  /-- at the first of several statements -/
  | run (ss : List Stmt) (next : Pc)
  /-- about to return from a call -/
  | ret (c : Call) (v : ℤ)

/-- The first place of a call. -/
def Pc.entry : Call → Pc
  | .convert => .findOrCreate
  | c => .findProcess c

theorem Pc.entry_of_ne {c : Call} (h : c ≠ .convert) : Pc.entry c = .findProcess c := by
  cases c <;> first | rfl | exact absurd rfl h

/-- The place after the two lookups. -/
def Call.enter (p t : Ptr) : Call → Pc
  | .convert => .newThread p
  | .create sp sz fn arg => .newFiber p (.create sp sz fn arg)
  | .switchTo id => .findFiber id p t
  | .flsAlloc => .checkSelected .flsAlloc t
  | .flsFree index => .checkSelected (.flsFree index) t
  | .flsGetValue index => .checkSelected (.flsGetValue index) t
  | .flsSetValue index value => .checkSelected (.flsSetValue index value) t
  | .exit => .dec p t

namespace Maker

/-- The stack size handed to `init_fiber`. -/
def ss : Maker → ℤ
  | convert _ => -1
  | create _ sz _ _ => sz.toNat

/-- The stack handed to `init_fiber`. -/
def sPtr : Maker → Word
  | convert _ => 0
  | create sp _ _ _ => sp

/-- The writes after `init_fiber`. -/
def tail (f : Ptr) : Maker → List Stmt
  | convert gp => convertTail gp f
  | create _ _ fn arg => createTail f fn arg

/-- The place after these writes. -/
def next (f : Ptr) : Maker → Pc
  | convert gp => .lockNew gp f
  | create sp sz fn arg => .readId (.create sp sz fn arg) f

end Maker

/-! ## Statements -/

/-- The first look of an FLS operation at its fiber, and what is left to do. -/
def flsStep (f : Ptr) (c : Call) : K Pc :=
  match c with
  | .flsAlloc => do
    let index := findFirstZeroBit (← readFiber f).flsBitmap
    if h : index < maxFlsPointers then
      return .run (assigns f [.changeBit ⟨index, h⟩]) (.ret c index)
    else return .ret c (-1)
  | .flsFree index =>
    match flsIndex? index with
    | none => return .ret c 0
    | some i => do
      if (← readFiber f).flsBitmap i = false then return .ret c 0
      return .run (assigns f [.changeBit i]) (.ret c 1)
  | .flsGetValue index =>
    match flsIndex? index with
    | none => return .ret c (-1)
    | some i => do
      if (← readFiber f).flsBitmap i = false then return .ret c (-1)
      return .flsValue index f i
  | .flsSetValue index value =>
    match flsIndex? index with
    | none => return .ret c 0
    | some i => do
      if (← readFiber f).flsBitmap i = false then return .ret c 0
      return .run (assigns f [.setFls i value]) (.ret c 0)
  | _ => fun _ => none

/-- The next statement of the thread `cur`, and the place after it. -/
def Pc.step (E : Env) (cur : Task) : Pc → K Pc
  | user | dead | ret _ _ => fun _ => none
  | findProcess c => do
    match ← findProcessByTgid E cur.tgid with
    | none => return ret c c.refused
    | some p => return findThread c p
  | findThread c p => do
    match ← findThreadByPid E cur.pid p with
    | none => return ret c c.refused
    | some t => return c.enter p t
  | findOrCreate => do return findSelf (← findOrCreateProcess E cur)
  | findSelf p => do
    match ← findThreadByPid E cur.pid p with
    | some _ => return ret .convert (-1)
    | none => return newThread p
  | newThread p => do
    let t ← allocThread cur p cur.pid
    return run [incActive p, addThread p t] (newFiber p (.convert t))
  | newFiber p m => do return takeId p (← allocFiber E cur p m.ss m.sPtr) m
  | takeId p f m => do
    takeFiberId p f
    return run (initFiberTail p f ++ m.tail f) (m.next f)
  | lockNew _ f => do
    if ← spinTrylock f then return readId .convert f
    return ret .convert (-1)
  | readId c f => do return ret c (← readFiber f).fiberId.toInt
  | findFiber id p tp => do
    match ← findFiberById E id p with
    | none => return ret (.switchTo id) (-1)
    | some f => return trylock id tp f
  | trylock id tp f => do
    if ← spinTrylock f then return checkAttached id tp f
    return run (assigns f [.countFailed]) (ret (.switchTo id) (-1))
  | checkAttached id tp f => do
    if (← readFiber f).attachedThread.isSome then
      return run (assigns f [.countFailed]) (ret (.switchTo id) (-1))
    return run (switchAttach tp f) (readPrev id tp f)
  | readPrev id tp f => do
    let prev ← nonNull (← readThread tp).selectedFiber
    return run (switchTail tp f prev) (ret (.switchTo id) 0)
  | checkSelected c t => do
    if (← readThread t).selectedFiber.isNone then return ret c c.refused
    return readSelected c t
  | readSelected c t => do return flsTest c (← nonNull (← readThread t).selectedFiber)
  | flsTest c f => flsStep f c
  | flsValue index f i => do return ret (.flsGetValue index) ((← readFiber f).fls i).toInt
  | dec p t => do return checkExit p t (← decActiveThreads t)
  | checkExit p t r => do
    if (← readThread t).selectedFiber.isSome ∧ r ≠ 0 then return exitPrev p t r
    return run [delThread p t, freeThread t] (lastThread p r)
  | exitPrev p t r => do
    let prev ← nonNull (← readThread t).selectedFiber
    return run (exitDetach (some prev) r ++ [delThread p t, freeThread t]) (lastThread p r)
  | lastThread p r => return if r = 0 then freeBucket p 0 else ret .exit 0
  | freeBucket p b => do
    if h : b < hSz then
      return run (((← readProcess p).fibers.chain ⟨b, h⟩).map freeFiber) (freeBucket p (b + 1))
    else return run [delProcess p, freeProcess p] (ret .exit 0)
  | run [] next => return next
  | run (s :: ss) next => do
    s.exec E cur
    return run ss next

theorem Pc.step_run {E : Env} {cur : Task} {k : Kernel} {st : Stmt} {rest : List Stmt} {next : Pc}
    (h : st.ok k) : (Pc.run (st :: rest) next).step E cur k = some (.run rest next, st.apply E cur k) := by
  simp only [Pc.step, K.bind_eq_some, exec_eq_some]
  exact ⟨(), _, ⟨h, rfl⟩, rfl⟩

/-! ## Configurations -/

/-- The module's state and the place of every thread of the process. -/
@[ext] structure Conf where
  st : Kernel
  pc : PidT → Pc

/-- What a thread does in one step. -/
inductive Act
  | start (c : Call)
  | stmt
  | finish (c : Call) (v : ℤ)
  | user (cpu : Cpu)

/-- Put a thread at a place. -/
def Conf.goto (s : Conf) (u : PidT) (st : Kernel) (pc : Pc) : Conf :=
  ⟨st, Function.update s.pc u pc⟩

@[simp] theorem Conf.goto_st (s : Conf) (u : PidT) (st : Kernel) (pc : Pc) :
    (s.goto u st pc).st = st := rfl

@[simp] theorem Conf.goto_pc (s : Conf) (u v : PidT) (st : Kernel) (pc : Pc) :
    (s.goto u st pc).pc v = if v = u then pc else s.pc v := by
  simp [Conf.goto, Function.update_apply]

/-- One step of the thread `l.1` of process `g`. -/
def CStep (E : Env) (g : PidT) (s : Conf) (l : PidT × Act) (s' : Conf) : Prop :=
  match l.2 with
  | .start c => s.pc l.1 = .user ∧ s' = s.goto l.1 s.st (.entry c)
  | .stmt => ∃ pc' st', (s.pc l.1).step E ⟨g, l.1⟩ s.st = some (pc', st') ∧ s' = s.goto l.1 st' pc'
  | .finish c v => s.pc l.1 = .ret c v ∧
      s' = s.goto l.1 s.st (if c = .exit then .dead else .user)
  | .user cpu => s.pc l.1 = .user ∧ s' = s.goto l.1 (s.st.modCpu ⟨g, l.1⟩ fun _ => cpu) .user

/-- The other threads stay where they are. -/
theorem CStep.pc_of_ne {E : Env} {g u v : PidT} {act : Act} {s s' : Conf}
    (h : CStep E g s (u, act) s') (hv : v ≠ u) : s'.pc v = s.pc v := by
  cases act with
  | stmt =>
    obtain ⟨pc', k', -, rfl⟩ := h
    simp [hv]
  | start | finish | user =>
    obtain ⟨-, rfl⟩ := h
    simp [hv]

/-- One step of a thread, with the configuration before it. -/
structure Move where
  pre : Conf
  thread : PidT
  act : Act

/-- Every thread is in user code. -/
def Conf.idle (k : Kernel) : Conf := ⟨k, fun _ => .user⟩

/-- No thread is inside the module. -/
def Conf.quiet (s : Conf) : Prop := ∀ u, s.pc u = .user ∨ s.pc u = .dead

/-! ## A thread on its own -/

/-- One statement of `cur`. -/
def SoloStep (E : Env) (cur : Task) (x y : Pc × Kernel) : Prop := x.1.step E cur x.2 = some y

/-- Any number of statements of `cur`. -/
abbrev Solo (E : Env) (cur : Task) : Pc × Kernel → Pc × Kernel → Prop :=
  Relation.ReflTransGen (SoloStep E cur)

section Solo

variable {E : Env} {cur : Task} {k k' k₁ : Kernel} {pc y : Pc} {x : Pc × Kernel}

theorem Solo.head (h : pc.step E cur k = some (y, k₁)) (h' : Solo E cur (y, k₁) x) :
    Solo E cur (pc, k) x :=
  Relation.ReflTransGen.head h h'

theorem Solo.one (h : pc.step E cur k = some (y, k')) : Solo E cur (pc, k) (y, k') :=
  Relation.ReflTransGen.single h

theorem solo_run {ss : List Stmt} (h : execAll E cur ss k = some ((), k')) :
    Solo E cur (.run ss pc, k) (pc, k') := by
  induction ss generalizing k with
  | nil =>
    obtain rfl : k = k' := by simpa [execAll] using h
    exact .head rfl .refl
  | cons s ss ih =>
    simp only [execAll, K.bind_eq_some] at h
    obtain ⟨_, k₁, h1, h2⟩ := h
    exact .head (by simp only [Pc.step, K.bind_apply, h1]; rfl) (ih h2)

/-- The two lookups every call but a conversion begins with. -/
theorem solo_lookups {c : Call} {p t : Ptr} {k₂ : Kernel} (hc : c ≠ .convert)
    (h1 : findProcessByTgid E cur.tgid k = some (some p, k₁))
    (h2 : findThreadByPid E cur.pid p k₁ = some (some t, k₂)) (h : Solo E cur (c.enter p t, k₂) x) :
    Solo E cur (.entry c, k) x := by
  rw [Pc.entry_of_ne hc]
  exact .head (by simp only [Pc.step, K.bind_apply, h1]; rfl)
    (.head (by simp only [Pc.step, K.bind_apply, h2]; rfl) h)

theorem solo_noProcess {c : Call} (hc : c ≠ .convert)
    (h1 : findProcessByTgid E cur.tgid k = some (none, k₁)) :
    Solo E cur (.entry c, k) (.ret c c.refused, k₁) := by
  rw [Pc.entry_of_ne hc]
  exact .head (by simp only [Pc.step, K.bind_apply, h1]; rfl) .refl

theorem solo_noThread {c : Call} {p : Ptr} {k₂ : Kernel} (hc : c ≠ .convert)
    (h1 : findProcessByTgid E cur.tgid k = some (some p, k₁))
    (h2 : findThreadByPid E cur.pid p k₁ = some (none, k₂)) :
    Solo E cur (.entry c, k) (.ret c c.refused, k₂) := by
  rw [Pc.entry_of_ne hc]
  exact .head (by simp only [Pc.step, K.bind_apply, h1]; rfl)
    (.head (by simp only [Pc.step, K.bind_apply, h2]; rfl) .refl)

theorem solo_init {p : Ptr} {f : Ptr} {m : Maker} {k₂ : Kernel}
    (h1 : initFiber E cur p m.ss m.sPtr k = some (f, k₁))
    (h2 : execAll E cur (m.tail f) k₁ = some ((), k₂)) (h : Solo E cur (m.next f, k₂) x) :
    Solo E cur (.newFiber p m, k) x := by
  simp only [initFiber, K.bind_eq_some] at h1
  obtain ⟨f', k₃, hf, _, k₄, hid, _, k₅, hinit, hpure⟩ := h1
  obtain ⟨rfl, rfl⟩ : f' = f ∧ k₅ = k₁ := by simpa using hpure
  exact .head (by simp only [Pc.step, K.bind_apply, hf]; rfl)
    (.head (by simp only [Pc.step, K.bind_apply, hid]; rfl)
      ((solo_run (execAll_append hinit h2)).trans h))

theorem solo_convert {v : ℤ} (h : doConvertThreadToFiber E cur cur.pid k = some (v, k')) :
    Solo E cur (.findOrCreate, k) (.ret .convert v, k') := by
  simp only [doConvertThreadToFiber, K.bind_eq_some] at h
  obtain ⟨ep, k₁, h1, r, k₂, h2, h⟩ := h
  refine .head (by simp only [Pc.step, K.bind_apply, h1]; rfl) ?_
  cases r with
  | some t =>
    obtain ⟨rfl, rfl⟩ : -1 = v ∧ k₂ = k' := by simpa using h
    exact .head (by simp only [Pc.step, K.bind_apply, h2]; rfl) .refl
  | none =>
    refine .head (by simp only [Pc.step, K.bind_apply, h2]; rfl) ?_
    simp only [initThread, K.bind_eq_some] at h
    obtain ⟨gp, k₃, ⟨t, k₄, ht, _, k₅, hadd, hpure⟩, f, k₆, hf, _, k₇, htail, b, k₈, hlock, h⟩ := h
    obtain ⟨rfl, rfl⟩ : t = gp ∧ k₅ = k₃ := by simpa using hpure
    refine .head (by simp only [Pc.step, K.bind_apply, ht]; rfl) ((solo_run hadd).trans ?_)
    refine solo_init (m := .convert t) hf htail ?_
    cases b with
    | false =>
      obtain ⟨rfl, rfl⟩ : -1 = v ∧ k₈ = k' := by simpa using h
      exact .head (by simp only [Maker.next, Pc.step, K.bind_apply, hlock]; rfl) .refl
    | true =>
      simp only [Bool.not_true, Bool.false_eq_true, if_false, K.bind_eq_some] at h
      obtain ⟨rf, k₉, hread, hpure⟩ := h
      obtain ⟨rfl, rfl⟩ : rf.fiberId.toInt = v ∧ k₉ = k' := by simpa using hpure
      exact .head (by simp only [Maker.next, Pc.step, K.bind_apply, hlock]; rfl)
        (.head (by simp only [Pc.step, K.bind_apply, hread]; rfl) .refl)

theorem solo_create {v : ℤ} {sp sz fn arg : Word}
    (h : doCreateFiber E cur sp sz fn arg cur.pid k = some (v, k')) :
    Solo E cur (.entry (.create sp sz fn arg), k) (.ret (.create sp sz fn arg) v, k') := by
  simp only [doCreateFiber, K.bind_eq_some] at h
  obtain ⟨op, k₁, h1, h⟩ := h
  cases op with
  | none =>
    obtain ⟨rfl, rfl⟩ : -1 = v ∧ k₁ = k' := by simpa using h
    exact solo_noProcess (by simp) h1
  | some p =>
    simp only [K.bind_eq_some] at h
    obtain ⟨ot, k₂, h2, h⟩ := h
    cases ot with
    | none =>
      obtain ⟨rfl, rfl⟩ : -1 = v ∧ k₂ = k' := by simpa using h
      exact solo_noThread (by simp) h1 h2
    | some t =>
      simp only [K.bind_eq_some] at h
      obtain ⟨f, k₃, hf, _, k₄, htail, rf, k₅, hread, hpure⟩ := h
      obtain ⟨rfl, rfl⟩ : rf.fiberId.toInt = v ∧ k₅ = k' := by simpa using hpure
      refine solo_lookups (by simp) h1 h2 (solo_init (m := .create sp sz fn arg) hf htail ?_)
      exact .head (by simp only [Maker.next, Pc.step, K.bind_apply, hread]; rfl) .refl

theorem solo_switchTo {v : ℤ} {id : PidT} (h : doSwitchToFiber E cur id cur.pid k = some (v, k')) :
    Solo E cur (.entry (.switchTo id), k) (.ret (.switchTo id) v, k') := by
  simp only [doSwitchToFiber, K.bind_eq_some] at h
  obtain ⟨op, k₁, h1, h⟩ := h
  cases op with
  | none =>
    obtain ⟨rfl, rfl⟩ : -1 = v ∧ k₁ = k' := by simpa using h
    exact solo_noProcess (by simp) h1
  | some p =>
    simp only [K.bind_eq_some] at h
    obtain ⟨ot, k₂, h2, h⟩ := h
    cases ot with
    | none =>
      obtain ⟨rfl, rfl⟩ : -1 = v ∧ k₂ = k' := by simpa using h
      exact solo_noThread (by simp) h1 h2
    | some tp =>
      refine solo_lookups (by simp) h1 h2 ?_
      simp only [K.bind_eq_some] at h
      obtain ⟨of, k₃, h3, h⟩ := h
      cases of with
      | none =>
        obtain ⟨rfl, rfl⟩ : -1 = v ∧ k₃ = k' := by simpa using h
        exact .head (by simp only [Call.enter, Pc.step, K.bind_apply, h3]; rfl) .refl
      | some f =>
        refine .head (by simp only [Call.enter, Pc.step, K.bind_apply, h3]; rfl) ?_
        simp only [K.bind_eq_some] at h
        obtain ⟨taken, k₄, hlock, rf, k₅, hread, h⟩ := h
        cases taken with
        | false =>
          simp only [Bool.not_false, Bool.true_or, if_true, K.bind_eq_some] at h
          obtain ⟨_, k₆, hcount, hpure⟩ := h
          obtain ⟨rfl, rfl⟩ : -1 = v ∧ k₆ = k' := by simpa using hpure
          obtain ⟨-, rfl⟩ := readFiber_eq_some.mp hread
          exact .head (by simp only [Pc.step, K.bind_apply, hlock]; rfl) (solo_run hcount)
        | true =>
          refine .head (by simp only [Pc.step, K.bind_apply, hlock]; rfl) ?_
          cases hatt : rf.attachedThread.isSome with
          | true =>
            simp only [hatt, Bool.or_true, if_true, K.bind_eq_some] at h
            obtain ⟨_, k₆, hcount, hpure⟩ := h
            obtain ⟨rfl, rfl⟩ : -1 = v ∧ k₆ = k' := by simpa using hpure
            refine .head ?_ (solo_run hcount)
            simp only [Pc.step, K.bind_apply, hread, Option.bind_some, hatt]
            rfl
          | false =>
            simp only [hatt, Bool.not_true, Bool.or_self, Bool.false_eq_true, if_false,
              K.bind_eq_some] at h
            obtain ⟨_, k₆, hattach, rt, k₇, hrt, prev, k₈, hprev, _, k₉, htail, hpure⟩ := h
            obtain ⟨rfl, rfl⟩ : 0 = v ∧ k₉ = k' := by simpa using hpure
            have hcheck : (Pc.checkAttached id tp f).step E cur k₄ =
                some (.run (switchAttach tp f) (.readPrev id tp f), k₅) := by
              simp only [Pc.step, K.bind_apply, hread, Option.bind_some, hatt]
              rfl
            have hread' : (Pc.readPrev id tp f).step E cur k₆ =
                some (.run (switchTail tp f prev) (.ret (.switchTo id) 0), k₈) := by
              simp only [Pc.step, K.bind_apply, hrt, hprev, Option.bind_some]
              rfl
            exact .head hcheck ((solo_run hattach).trans (.head hread' (solo_run htail)))

/-- The opening of the FLS operations, up to the first look at the fiber. -/
theorem solo_callerFiber {c : Call} {of : Option Ptr} (hc : c.isFls)
    (h : callerFiber E cur cur.pid k = some (of, k₁)) :
    Solo E cur (.entry c, k) (of.elim (.ret c c.refused) (.flsTest c), k₁) := by
  have hne : c ≠ .convert := by rintro rfl; simp [Call.isFls] at hc
  have henter : ∀ p t, c.enter p t = .checkSelected c t := fun p t => by
    cases c <;> first | rfl | simp [Call.isFls] at hc
  simp only [callerFiber, K.bind_eq_some] at h
  obtain ⟨op, k₂, h1, h⟩ := h
  cases op with
  | none =>
    obtain ⟨rfl, rfl⟩ : none = of ∧ k₂ = k₁ := by simpa using h
    exact solo_noProcess hne h1
  | some p =>
    simp only [K.bind_eq_some] at h
    obtain ⟨ot, k₃, h2, h⟩ := h
    cases ot with
    | none =>
      obtain ⟨rfl, rfl⟩ : none = of ∧ k₃ = k₁ := by simpa using h
      exact solo_noThread hne h1 h2
    | some t =>
      simp only [K.bind_eq_some] at h
      obtain ⟨rt, k₄, hread, hpure⟩ := h
      obtain ⟨rfl, rfl⟩ : rt.selectedFiber = of ∧ k₄ = k₁ := by simpa using hpure
      obtain ⟨-, rfl⟩ := readThread_eq_some.mp hread
      refine solo_lookups hne h1 h2 (henter p t ▸ ?_)
      cases hsel : rt.selectedFiber with
      | none =>
        refine .head ?_ .refl
        simp only [Pc.step, K.bind_apply, hread, Option.bind_some, hsel]
        rfl
      | some f =>
        have hcheck : (Pc.checkSelected c t).step E cur k₄ = some (.readSelected c t, k₄) := by
          simp only [Pc.step, K.bind_apply, hread, Option.bind_some, hsel]
          rfl
        have hselect : (Pc.readSelected c t).step E cur k₄ = some (.flsTest c f, k₄) := by
          simp only [Pc.step, K.bind_apply, hread, Option.bind_some, hsel, nonNull, Option.map_some]
          rfl
        exact .head hcheck (.head hselect .refl)

theorem solo_fls {c : Call} {v : ℤ} (hc : c.isFls) (h : c.run E cur k = some (v, k')) :
    Solo E cur (.entry c, k) (.ret c v, k') := by
  cases c with
  | flsAlloc =>
    simp only [Call.run, doFlsAlloc, K.bind_eq_some] at h
    obtain ⟨of, k₁, h1, h⟩ := h
    refine (solo_callerFiber hc h1).trans ?_
    cases of with
    | none =>
      obtain ⟨rfl, rfl⟩ : -1 = v ∧ k₁ = k' := by simpa using h
      exact .refl
    | some f =>
      change Solo E cur (Pc.flsTest _ f, k₁) _
      simp only [K.bind_eq_some] at h
      obtain ⟨r, k₂, hread, h⟩ := h
      split_ifs at h with hi
      · simp only [K.bind_eq_some] at h
        obtain ⟨_, k₃, hflip, hpure⟩ := h
        obtain ⟨rfl, rfl⟩ : (findFirstZeroBit r.flsBitmap : ℤ) = v ∧ k₃ = k' := by simpa using hpure
        have hstep : (Pc.flsTest .flsAlloc f).step E cur k₁ = some (.run (assigns f
            [.changeBit ⟨findFirstZeroBit r.flsBitmap, hi⟩])
            (.ret .flsAlloc (findFirstZeroBit r.flsBitmap)), k₂) := by
          simp only [Pc.step, flsStep, K.bind_apply, hread, Option.bind_some, dif_pos hi]
          rfl
        exact .head hstep (solo_run hflip)
      · obtain ⟨rfl, rfl⟩ : -1 = v ∧ k₂ = k' := by simpa using h
        refine Solo.one ?_
        simp only [Pc.step, flsStep, K.bind_apply, hread, Option.bind_some, dif_neg hi]
        rfl
  | flsFree index =>
    simp only [Call.run, doFlsFree, K.bind_eq_some] at h
    obtain ⟨b, k₀, ⟨of, k₁, h1, h⟩, hpure⟩ := h
    obtain ⟨rfl, rfl⟩ : (if b then 1 else 0 : ℤ) = v ∧ k₀ = k' := by simpa using hpure
    refine (solo_callerFiber hc h1).trans ?_
    cases of with
    | none =>
      obtain ⟨rfl, rfl⟩ : false = b ∧ k₁ = k₀ := by simpa using h
      exact .refl
    | some f =>
      change Solo E cur (Pc.flsTest _ f, k₁) _
      cases hi : flsIndex? index with
      | none =>
        obtain ⟨rfl, rfl⟩ : false = b ∧ k₁ = k₀ := by simpa [hi] using h
        refine Solo.one ?_
        simp only [Pc.step, flsStep, hi]
        rfl
      | some i =>
        simp only [hi, K.bind_eq_some] at h
        obtain ⟨r, k₂, hread, h⟩ := h
        by_cases hb : r.flsBitmap i = false
        · obtain ⟨rfl, rfl⟩ : false = b ∧ k₂ = k₀ := by simpa [hb] using h
          refine Solo.one ?_
          simp only [Pc.step, flsStep, hi, K.bind_apply, hread, Option.bind_some, if_pos hb]
          rfl
        · simp only [if_neg hb, K.bind_eq_some] at h
          obtain ⟨_, k₃, hflip, hpure⟩ := h
          obtain ⟨rfl, rfl⟩ : true = b ∧ k₃ = k₀ := by simpa using hpure
          have htest : (Pc.flsTest (.flsFree index) f).step E cur k₁ =
              some (.run (assigns f [.changeBit i]) (.ret (.flsFree index) 1), k₂) := by
            simp only [Pc.step, flsStep, hi, K.bind_apply, hread, Option.bind_some, if_neg hb]
            rfl
          exact .head htest (solo_run hflip)
  | flsGetValue index =>
    simp only [Call.run, doFlsGetValue, K.bind_eq_some] at h
    obtain ⟨w, k₀, ⟨of, k₁, h1, h⟩, hpure⟩ := h
    obtain ⟨rfl, rfl⟩ : w.toInt = v ∧ k₀ = k' := by simpa using hpure
    refine (solo_callerFiber hc h1).trans ?_
    cases of with
    | none =>
      obtain ⟨rfl, rfl⟩ : (-1 : Word) = w ∧ k₁ = k₀ := by simpa using h
      exact .refl
    | some f =>
      change Solo E cur (Pc.flsTest _ f, k₁) _
      cases hi : flsIndex? index with
      | none =>
        obtain ⟨rfl, rfl⟩ : (-1 : Word) = w ∧ k₁ = k₀ := by simpa [hi] using h
        refine Solo.one ?_
        simp only [Pc.step, flsStep, hi]
        rfl
      | some i =>
        simp only [hi, K.bind_eq_some] at h
        obtain ⟨r, k₂, hread, h⟩ := h
        by_cases hb : r.flsBitmap i = false
        · obtain ⟨rfl, rfl⟩ : (-1 : Word) = w ∧ k₂ = k₀ := by simpa [hb] using h
          refine Solo.one ?_
          simp only [Pc.step, flsStep, hi, K.bind_apply, hread, Option.bind_some, if_pos hb]
          rfl
        · simp only [if_neg hb, K.bind_eq_some] at h
          obtain ⟨r', k₃, hread', hpure⟩ := h
          obtain ⟨rfl, rfl⟩ : r'.fls i = w ∧ k₃ = k₀ := by simpa using hpure
          have htest : (Pc.flsTest (.flsGetValue index) f).step E cur k₁ =
              some (.flsValue index f i, k₂) := by
            simp only [Pc.step, flsStep, hi, K.bind_apply, hread, Option.bind_some, if_neg hb]
            rfl
          refine .head htest (Solo.one ?_)
          simp only [Pc.step, K.bind_apply, hread', Option.bind_some]
          rfl
  | flsSetValue index value =>
    simp only [Call.run, doFlsSetValue, K.bind_eq_some] at h
    obtain ⟨_, k₀, ⟨of, k₁, h1, h⟩, hpure⟩ := h
    obtain ⟨rfl, rfl⟩ : 0 = v ∧ k₀ = k' := by simpa using hpure
    refine (solo_callerFiber hc h1).trans ?_
    cases of with
    | none =>
      obtain rfl : k₁ = k₀ := by simpa using h
      exact .refl
    | some f =>
      change Solo E cur (Pc.flsTest _ f, k₁) _
      cases hi : flsIndex? index with
      | none =>
        obtain rfl : k₁ = k₀ := by simpa [hi] using h
        refine Solo.one ?_
        simp only [Pc.step, flsStep, hi]
        rfl
      | some i =>
        simp only [hi, K.bind_eq_some] at h
        obtain ⟨r, k₂, hread, h⟩ := h
        by_cases hb : r.flsBitmap i = false
        · obtain rfl : k₂ = k₀ := by simpa [hb] using h
          refine Solo.one ?_
          simp only [Pc.step, flsStep, hi, K.bind_apply, hread, Option.bind_some, if_pos hb]
          rfl
        · simp only [if_neg hb] at h
          have htest : (Pc.flsTest (.flsSetValue index value) f).step E cur k₁ =
              some (.run (assigns f [.setFls i value]) (.ret (.flsSetValue index value) 0), k₂) := by
            simp only [Pc.step, flsStep, hi, K.bind_apply, hread, Option.bind_some, if_neg hb]
            rfl
          exact .head htest (solo_run h)
  | _ => simp [Call.isFls] at hc

/-- The loop that frees the fibers, from bucket `b` on. -/
theorem solo_freeBucket {p : Ptr} {r : Process} {n b : ℕ} (hn : b + n = hSz)
    (hp : k.process p = some r)
    (h : execAll E cur ((((List.finRange hSz).drop b).flatMap r.fibers.chain).map freeFiber) k =
      some ((), k')) :
    Solo E cur (.freeBucket p b, k) (.run [delProcess p, freeProcess p] (.ret .exit 0), k') := by
  induction n generalizing b k with
  | zero =>
    have hdrop : (List.finRange hSz).drop b = [] := List.drop_eq_nil_of_le (by simp; omega)
    obtain rfl : k = k' := by simpa [hdrop, execAll] using h
    refine Solo.one ?_
    simp only [Pc.step, dif_neg (show ¬ b < hSz by omega)]
    rfl
  | succ n ih =>
    have hb : b < hSz := by omega
    have hdrop : (List.finRange hSz).drop b =
        ⟨b, hb⟩ :: (List.finRange hSz).drop (b + 1) := by
      rw [List.drop_eq_getElem_cons (by simpa using hb)]
      simp
    rw [hdrop, List.flatMap_cons, List.map_append] at h
    obtain ⟨k₁, h1, h2⟩ := execAll_split h
    have hp₁ : k₁.process p = some r := by
      obtain ⟨-, rfl⟩ := execAll_eq_some.mp h1
      rw [← hp]
      rw [applyAll_freeFiber_process]
    have hstep : (Pc.freeBucket p b).step E cur k =
        some (.run ((r.fibers.chain ⟨b, hb⟩).map freeFiber) (.freeBucket p (b + 1)), k) := by
      simp only [Pc.step, dif_pos hb, K.bind_apply, readProcess, hp, Option.map_some, Option.bind_some]
      rfl
    exact .head hstep ((solo_run h1).trans (ih (by omega) hp₁ h2))

theorem solo_exit {v : ℤ} (h : exitCleanup E cur k = some (v, k')) :
    Solo E cur (.entry .exit, k) (.ret .exit v, k') := by
  simp only [exitCleanup, K.bind_eq_some] at h
  obtain ⟨op, k₁, h1, h⟩ := h
  cases op with
  | none =>
    obtain ⟨rfl, rfl⟩ : 0 = v ∧ k₁ = k' := by simpa using h
    exact solo_noProcess (by simp) h1
  | some p =>
    simp only [K.bind_eq_some] at h
    obtain ⟨ot, k₂, h2, h⟩ := h
    cases ot with
    | none =>
      obtain ⟨rfl, rfl⟩ : 0 = v ∧ k₂ = k' := by simpa using h
      exact solo_noThread (by simp) h1 h2
    | some t =>
      refine solo_lookups (by simp) h1 h2 ?_
      simp only [K.bind_eq_some] at h
      obtain ⟨r, k₃, hdec, rt, k₄, hrt, _, k₅, hdetach, _, k₆, hdel, h⟩ := h
      obtain ⟨-, rfl⟩ := readThread_eq_some.mp hrt
      -- the statements up to the `kfree` of the thread
      have hgone : Solo E cur (.checkExit p t r, k₄) (.lastThread p r, k₆) := by
        by_cases hcheck : rt.selectedFiber.isSome ∧ r ≠ 0
        · obtain ⟨prev, hprev⟩ := Option.isSome_iff_exists.mp hcheck.1
          have hstep : (Pc.checkExit p t r).step E cur k₄ = some (.exitPrev p t r, k₄) := by
            simp only [Pc.step, K.bind_apply, hrt, Option.bind_some, if_pos hcheck]
            rfl
          have hread : (Pc.exitPrev p t r).step E cur k₄ =
              some (.run (exitDetach (some prev) r ++ [delThread p t, freeThread t])
                (.lastThread p r), k₄) := by
            simp only [Pc.step, K.bind_apply, hrt, Option.bind_some, hprev, nonNull, Option.map_some]
            rfl
          rw [hprev] at hdetach
          exact .head hstep (.head hread (solo_run (execAll_append hdetach hdel)))
        · have hnil : exitDetach rt.selectedFiber r = [] := by
            cases hsel : rt.selectedFiber with
            | none => rfl
            | some prev => exact if_neg fun hr => hcheck ⟨by simp [hsel], hr⟩
          have hstep : (Pc.checkExit p t r).step E cur k₄ =
              some (.run [delThread p t, freeThread t] (.lastThread p r), k₄) := by
            simp only [Pc.step, K.bind_apply, hrt, Option.bind_some, if_neg hcheck]
            rfl
          obtain rfl : k₄ = k₅ := by simpa [hnil, execAll] using hdetach
          exact .head hstep (solo_run hdel)
      have hstep : (Pc.dec p t).step E cur k₂ = some (.checkExit p t r, k₄) := by
        simp only [Pc.step, K.bind_apply, hdec]
        rfl
      refine .head hstep (hgone.trans ?_)
      by_cases hr : r = 0
      · simp only [if_pos hr, K.bind_eq_some] at h
        obtain ⟨q, k₇, hq, _, k₈, hfree, _, k₉, hdelp, hpure⟩ := h
        obtain ⟨rfl, rfl⟩ : 0 = v ∧ k₉ = k' := by simpa using hpure
        obtain ⟨hq, rfl⟩ := readProcess_eq_some.mp hq
        have hlast : (Pc.lastThread p r).step E cur k₇ = some (.freeBucket p 0, k₇) := by
          simp only [Pc.step, if_pos hr]
          rfl
        rw [hashForEach, ← List.drop_zero (l := List.finRange hSz)] at hfree
        exact .head hlast ((solo_freeBucket (Nat.zero_add hSz) hq hfree).trans (solo_run hdelp))
      · obtain ⟨rfl, rfl⟩ : 0 = v ∧ k₆ = k' := by simpa [hr] using h
        refine Solo.one ?_
        simp only [Pc.step, if_neg hr]
        rfl

/-- A call run statement by statement with nothing in between is the call run in
    one step. -/
theorem solo_call {c : Call} {v : ℤ} (h : c.run E cur k = some (v, k')) :
    Solo E cur (.entry c, k) (.ret c v, k') := by
  cases c with
  | convert => exact solo_convert h
  | create => exact solo_create h
  | switchTo => exact solo_switchTo h
  | exit => exact solo_exit h
  | _ => exact solo_fls rfl h

end Solo

/-! ## A call on its own in a run -/

section Alone

variable {E : Env} {g u : PidT} {ℓ : Type} {R : Conf → ℓ → Conf → Prop} {s : Conf}

theorem Conf.goto_goto (s : Conf) (u : PidT) (st st' : Kernel) (pc pc' : Pc) :
    (s.goto u st pc).goto u st' pc' = s.goto u st' pc' := by
  simp [Conf.goto]

/-- A thread that runs some statements on its own makes a run. -/
theorem Solo.exists_run {x y : Pc × Kernel} (lab : Conf → ℓ)
    (hR : ∀ s s', CStep E g s (u, .stmt) s' → R s (lab s) s') (h : Solo E ⟨g, u⟩ x y) :
    ∃ ls, Run R (s.goto u x.2 x.1) ls (s.goto u y.2 y.1) := by
  induction h with
  | refl => exact ⟨[], .nil⟩
  | @tail y z _ hstep ih =>
    obtain ⟨ls, hls⟩ := ih
    have hc : CStep E g (s.goto u y.2 y.1) (u, .stmt) (s.goto u z.2 z.1) :=
      ⟨z.1, z.2, by simpa using show y.1.step E ⟨g, u⟩ y.2 = some z from hstep,
        (s.goto_goto u y.2 z.2 y.1 z.1).symm⟩
    exact ⟨_, hls.snoc (hR _ _ hc)⟩

end Alone

end AosvFibers
