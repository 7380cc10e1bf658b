import AosvFibers.Atomic.Reclaim
import AosvFibers.Interleaved.Machine

/-!
# The balance of fiber locks

`spin_trylock` on a fiber lock is done in one call and the matching
`spin_unlock` in a later one. Every successful trylock disables preemption for
the thread and every unlock enables it again, so the two must balance for each
thread.

`Pc.lockOp` reads off a place which lock operation the statement there does, and
`Locks` collects them while a thread runs a call on its own, so that the lock
operations of a call are those of its statements in `Interleaved.Machine`.
`process_cleanup` and user code touch no fiber lock.

A thread's locks balance as long as no process record is torn down: neither the
last thread's `exit_cleanup` nor `process_cleanup` unlocks the fibers that the
threads of the process hold. `lock_balance_iff` says that these are the only
two steps after which the balance is wrong.
-/

namespace AosvFibers

open Lib Stmt

variable {E : Env} {cur : Task} {k k' : Kernel}

/-! ## The lock operations of a call -/

/-- An operation on a fiber lock; `taken` is the result of the trylock. -/
inductive LockOp
  | trylock (f : Ptr) (taken : Bool)
  | unlock (f : Ptr)

/-- The lock operation of a statement. -/
def Stmt.lockOp : Stmt → Option LockOp
  | .fiber f .unlock => some (.unlock f)
  | _ => none

/-- The lock operation of the statement a thread is at. -/
def Pc.lockOp (k : Kernel) : Pc → Option LockOp
  | .lockNew _ f | .trylock _ _ f => some (.trylock f (!k.locked f))
  | .run (s :: _) _ => s.lockOp
  | _ => none

/-- Statements of `cur` with nothing in between, and their lock operations. -/
inductive Locks (E : Env) (cur : Task) : Pc × Kernel → List LockOp → Pc × Kernel → Prop
  | refl (x : Pc × Kernel) : Locks E cur x [] x
  | head {pc : Pc} {k : Kernel} {y z : Pc × Kernel} {ls : List LockOp}
      (h : pc.step E cur k = some y) (h' : Locks E cur y ls z) :
      Locks E cur (pc, k) ((pc.lockOp k).toList ++ ls) z

namespace Locks

variable {x y z : Pc × Kernel} {pc : Pc} {ls ls' : List LockOp} {c : Call} {v : ℤ}

theorem trans (h : Locks E cur x ls y) (h' : Locks E cur y ls' z) : Locks E cur x (ls ++ ls') z := by
  induction h with
  | refl => exact h'
  | head hs _ ih => simpa using Locks.head hs (ih h')

/-- A statement without a lock operation. -/
theorem quiet (h : pc.step E cur k = some y) (hno : pc.lockOp k = none) (h' : Locks E cur y ls z) :
    Locks E cur (pc, k) ls z := by
  simpa [hno] using Locks.head h h'

/-- A statement with a lock operation. -/
theorem loud {o : LockOp} (h : pc.step E cur k = some y) (hop : pc.lockOp k = some o)
    (h' : Locks E cur y ls z) : Locks E cur (pc, k) (o :: ls) z := by
  simpa [hop] using Locks.head h h'

theorem run {ss : List Stmt} {next : Pc} (h : execAll E cur ss k = some ((), k'))
    (h' : Locks E cur (next, k') ls z) :
    Locks E cur (.run ss next, k) (ss.filterMap Stmt.lockOp ++ ls) z := by
  induction ss generalizing k with
  | nil =>
    obtain rfl : k = k' := by simpa [execAll] using h
    exact .quiet rfl rfl h'
  | cons s ss ih =>
    simp only [execAll, K.bind_eq_some] at h
    obtain ⟨_, k₁, h1, h2⟩ := h
    have hstep : (Pc.run (s :: ss) next).step E cur k = some (.run ss next, k₁) := by
      simp only [Pc.step, K.bind_apply, h1]
      rfl
    cases hop : s.lockOp with
    | none => simpa [hop] using Locks.quiet hstep hop (ih h2)
    | some o => simpa [hop] using Locks.loud hstep hop (ih h2)

theorem run_quiet {ss : List Stmt} {next : Pc} (hss : ss.filterMap Stmt.lockOp = [])
    (h : execAll E cur ss k = some ((), k')) (h' : Locks E cur (next, k') ls z) :
    Locks E cur (.run ss next, k) ls z := by
  simpa [hss] using Locks.run h h'

theorem exists_of_solo (h : Solo E cur x y) : ∃ ls, Locks E cur x ls y := by
  induction h using Relation.ReflTransGen.head_induction_on with
  | refl => exact ⟨[], .refl _⟩
  | head hs _ ih =>
    obtain ⟨ls, hls⟩ := ih
    exact ⟨_, .head hs hls⟩

/-- What is left to do for a call of which the beginning is known. -/
theorem rest (h : Locks E cur x ls z) (h' : Locks E cur x ls' (.ret c v, k')) :
    ∃ ls'', Locks E cur z ls'' (.ret c v, k') ∧ ls' = ls ++ ls'' := by
  induction h generalizing ls' with
  | refl x => exact ⟨ls', h', rfl⟩
  | @head pc k₁ y z ls hs _ ih =>
    generalize hw : ((Pc.ret c v, k') : Pc × Kernel) = w at h'
    cases h' with
    | refl =>
      simp only [Prod.mk.injEq] at hw
      obtain ⟨rfl, rfl⟩ := hw
      simp [Pc.step] at hs
    | @head _ _ y' _ ls'' hs' h'' =>
      obtain rfl : y = y' := by simpa [hs] using hs'
      subst hw
      obtain ⟨l, hl, rfl⟩ := ih h''
      exact ⟨l, hl, by simp⟩

/-- A call on its own does one thing. -/
theorem functional (h : Locks E cur x ls (.ret c v, k')) {c' : Call} {v' : ℤ} {k'' : Kernel}
    (h' : Locks E cur x ls' (.ret c' v', k'')) : ls = ls' ∧ c = c' ∧ v = v' ∧ k' = k'' := by
  obtain ⟨ls'', hret, rfl⟩ := h.rest h'
  generalize hw : ((Pc.ret c' v', k'') : Pc × Kernel) = w at hret
  cases hret with
  | refl =>
    simp only [Prod.mk.injEq, Pc.ret.injEq] at hw
    obtain ⟨⟨rfl, rfl⟩, rfl⟩ := hw
    exact ⟨by simp, rfl, rfl, rfl⟩
  | head hs => simp [Pc.step] at hs

end Locks

/-! ## Places after which nothing touches a lock -/

/-- No statement of the call from here on is a lock operation. -/
def Pc.lockFree : Pc → Prop
  | .user | .dead | .readId _ _ | .checkSelected _ _ | .readSelected _ _ | .flsTest _ _
  | .flsValue _ _ _ | .lastThread _ _ | .freeBucket _ _ | .ret _ _ => True
  | .findProcess c | .findThread c _ => c.isFls ∨ ∃ sp sz fn arg, c = .create sp sz fn arg
  | .newFiber _ m | .takeId _ _ m => ∃ sp sz fn arg, m = .create sp sz fn arg
  | .checkExit _ _ v => v = 0
  | .run ss next => ss.filterMap Stmt.lockOp = [] ∧ next.lockFree
  | .findOrCreate | .findSelf _ | .newThread _ | .lockNew _ _ | .findFiber _ _ _ | .trylock _ _ _
  | .checkAttached _ _ _ | .readPrev _ _ _ | .dec _ _ | .exitPrev _ _ _ => False

theorem Pc.lockFree.lockOp_eq {pc : Pc} (h : pc.lockFree) (k : Kernel) : pc.lockOp k = none := by
  cases pc with
  | run ss next =>
    cases ss with
    | nil => rfl
    | cons s ss =>
      have hs := List.filterMap_eq_nil_iff.mp h.1 s (by simp)
      exact hs
  | lockNew => exact h.elim
  | trylock => exact h.elim
  | _ => rfl

theorem flsStep_lockFree {c : Call} {f : Ptr} {pc : Pc} (h : flsStep f c k = some (pc, k')) :
    pc.lockFree := by
  cases c with
  | flsAlloc =>
    simp only [flsStep, K.bind_eq_some] at h
    obtain ⟨r, k₁, -, h⟩ := h
    split_ifs at h with hi
    · obtain ⟨rfl, -⟩ : _ = pc ∧ _ = k' := by simpa using h
      exact ⟨rfl, trivial⟩
    · obtain ⟨rfl, -⟩ : _ = pc ∧ _ = k' := by simpa using h
      trivial
  | flsFree index | flsGetValue index | flsSetValue index _ =>
    simp only [flsStep] at h
    cases hi : flsIndex? index with
    | none =>
      rw [hi] at h
      obtain ⟨rfl, -⟩ : _ = pc ∧ _ = k' := by simpa using h
      trivial
    | some i =>
      simp only [hi, K.bind_eq_some] at h
      obtain ⟨r, k₁, -, h⟩ := h
      split_ifs at h with hb
      · obtain ⟨rfl, -⟩ : _ = pc ∧ _ = k' := by simpa using h
        trivial
      · obtain ⟨rfl, -⟩ : _ = pc ∧ _ = k' := by simpa using h
        first | exact ⟨rfl, trivial⟩ | trivial
  | _ => simp [flsStep] at h

theorem Pc.lockFree.step {pc pc' : Pc} (h : pc.lockFree) (hs : pc.step E cur k = some (pc', k')) :
    pc'.lockFree := by
  cases pc with
  | user | dead | ret => simp [Pc.step] at hs
  | findProcess c =>
    simp only [Pc.step, K.bind_eq_some] at hs
    obtain ⟨o, k₁, -, hs⟩ := hs
    cases o <;> obtain ⟨rfl, -⟩ : _ = pc' ∧ _ = k' := by simpa using hs
    · trivial
    · exact h
  | findThread c p =>
    simp only [Pc.step, K.bind_eq_some] at hs
    obtain ⟨o, k₁, -, hs⟩ := hs
    cases o <;> obtain ⟨rfl, -⟩ : _ = pc' ∧ _ = k' := by simpa using hs
    · trivial
    · rcases h with hc | ⟨sp, sz, fn, arg, rfl⟩
      · cases c <;> trivial
      · exact ⟨sp, sz, fn, arg, rfl⟩
  | newFiber p m =>
    simp only [Pc.step, K.bind_eq_some] at hs
    obtain ⟨f, k₁, -, hs⟩ := hs
    obtain ⟨rfl, -⟩ : _ = pc' ∧ _ = k' := by simpa using hs
    exact h
  | takeId p f m =>
    simp only [Pc.step, K.bind_eq_some] at hs
    obtain ⟨_, k₁, -, hs⟩ := hs
    obtain ⟨rfl, -⟩ : _ = pc' ∧ _ = k' := by simpa using hs
    obtain ⟨sp, sz, fn, arg, rfl⟩ := h
    exact ⟨rfl, trivial⟩
  | readId c f =>
    simp only [Pc.step, K.bind_eq_some] at hs
    obtain ⟨r, k₁, -, hs⟩ := hs
    obtain ⟨rfl, -⟩ : _ = pc' ∧ _ = k' := by simpa using hs
    trivial
  | checkSelected c t =>
    simp only [Pc.step, K.bind_eq_some] at hs
    obtain ⟨r, k₁, -, hs⟩ := hs
    split_ifs at hs <;> obtain ⟨rfl, -⟩ : _ = pc' ∧ _ = k' := by simpa using hs
    · trivial
    · trivial
  | readSelected c t =>
    simp only [Pc.step, K.bind_eq_some] at hs
    obtain ⟨r, k₁, -, f, k₂, -, hs⟩ := hs
    obtain ⟨rfl, -⟩ : _ = pc' ∧ _ = k' := by simpa using hs
    trivial
  | flsTest c f => exact flsStep_lockFree hs
  | flsValue index f i =>
    simp only [Pc.step, K.bind_eq_some] at hs
    obtain ⟨r, k₁, -, hs⟩ := hs
    obtain ⟨rfl, -⟩ : _ = pc' ∧ _ = k' := by simpa using hs
    trivial
  | checkExit p t r =>
    obtain rfl : r = 0 := h
    simp only [Pc.step, K.bind_eq_some] at hs
    obtain ⟨rt, k₁, -, hs⟩ := hs
    obtain ⟨rfl, -⟩ : _ = pc' ∧ _ = k' := by simpa using hs
    exact ⟨rfl, trivial⟩
  | lastThread p r =>
    obtain ⟨rfl, -⟩ : _ = pc' ∧ _ = k' := by simpa [Pc.step] using hs
    split_ifs <;> trivial
  | freeBucket p b =>
    simp only [Pc.step] at hs
    split_ifs at hs with hb
    · simp only [K.bind_eq_some] at hs
      obtain ⟨r, k₁, -, hs⟩ := hs
      obtain ⟨rfl, -⟩ : _ = pc' ∧ _ = k' := by simpa using hs
      refine ⟨List.filterMap_eq_nil_iff.mpr fun s hm => ?_, trivial⟩
      obtain ⟨f, -, rfl⟩ := List.mem_map.mp hm
      rfl
    · obtain ⟨rfl, -⟩ : _ = pc' ∧ _ = k' := by simpa using hs
      exact ⟨rfl, trivial⟩
  | run ss next =>
    cases ss with
    | nil =>
      obtain ⟨rfl, -⟩ : _ = pc' ∧ _ = k' := by simpa [Pc.step] using hs
      exact h.2
    | cons s ss =>
      simp only [Pc.step, K.bind_eq_some] at hs
      obtain ⟨_, k₁, -, hs⟩ := hs
      obtain ⟨rfl, -⟩ : _ = pc' ∧ _ = k' := by simpa using hs
      refine ⟨List.filterMap_eq_nil_iff.mpr fun s' hm => ?_, h.2⟩
      exact List.filterMap_eq_nil_iff.mp h.1 s' (by simp [hm])
  | _ => exact h.elim

theorem Locks.nil_of_lockFree {x y : Pc × Kernel} {ls : List LockOp} (h : Locks E cur x ls y)
    (hx : x.1.lockFree) : ls = [] := by
  induction h with
  | refl => rfl
  | @head pc k y z ls hs _ ih => rw [hx.lockOp_eq k, ih (hx.step hs)]; rfl

/-- A call whose beginning is known and which touches no lock afterwards. -/
theorem Locks.call {c : Call} {v : ℤ} {z : Pc × Kernel} {ls : List LockOp}
    (h : Locks E cur (.entry c, k) ls z) (hz : z.1.lockFree) (hrun : c.run E cur k = some (v, k')) :
    Locks E cur (.entry c, k) ls (.ret c v, k') := by
  obtain ⟨ls', h'⟩ := Locks.exists_of_solo (solo_call hrun)
  obtain ⟨ls'', hrest, rfl⟩ := h.rest h'
  rw [hrest.nil_of_lockFree hz, List.append_nil] at h'
  exact h'

/-! ## The lock operations on each path -/

theorem findProcessByTgid_of {g : PidT} {r : Option Ptr} (h : k.processOf E g = some r) :
    findProcessByTgid E g k = some (r, k) :=
  findProcessByTgid_eq_some.mpr ⟨h, rfl⟩

theorem findThreadByPid_of {ep : Ptr} {p : Process} {pid : PidT} {r : Option Ptr}
    (hp : k.process ep = some p) (h : k.threadOf E p pid = some r) :
    findThreadByPid E pid ep k = some (r, k) :=
  findThreadByPid_eq_some.mpr ⟨p, hp, h, rfl⟩

theorem locks_refused {c : Call} (hn : NotConverted E k cur) (hc : c ≠ .convert) :
    Locks E cur (.entry c, k) [] (.ret c c.refused, k) := by
  rw [Pc.entry_of_ne hc]
  rcases hn with hn | ⟨ep, p, hep, hp, ht⟩
  · refine .quiet ?_ rfl (.refl _)
    simp only [Pc.step, K.bind_apply, findProcessByTgid_of hn]
    rfl
  · have h1 : (Pc.findProcess c).step E cur k = some (.findThread c ep, k) := by
      simp only [Pc.step, K.bind_apply, findProcessByTgid_of hep]
      rfl
    have h2 : (Pc.findThread c ep).step E cur k = some (.ret c c.refused, k) := by
      simp only [Pc.step, K.bind_apply, findThreadByPid_of hp ht]
      rfl
    exact .quiet h1 rfl (.quiet h2 rfl (.refl _))

section Caller

variable {ep tp : Ptr} {p : Process} {t : Thread} {c : Call} {ls : List LockOp} {z : Pc × Kernel}

/-- The two lookups of a converted thread. -/
theorem locks_lookups (h : Caller E k cur ep p tp t) (hc : c ≠ .convert)
    (hz : Locks E cur (c.enter ep tp, k) ls z) : Locks E cur (.entry c, k) ls z := by
  rw [Pc.entry_of_ne hc]
  have h1 : (Pc.findProcess c).step E cur k = some (.findThread c ep, k) := by
    simp only [Pc.step, K.bind_apply, findProcessByTgid_of h.process]
    rfl
  have h2 : (Pc.findThread c ep).step E cur k = some (c.enter ep tp, k) := by
    simp only [Pc.step, K.bind_apply, findThreadByPid_of h.process_eq h.thread]
    rfl
  exact .quiet h1 rfl (.quiet h2 rfl hz)

theorem locks_again (h : Caller E k cur ep p tp t) :
    Locks E cur (.entry .convert, k) [] (.ret .convert (-1), k) := by
  have h1 : Pc.findOrCreate.step E cur k = some (.findSelf ep, k) := by
    simp only [Pc.step, K.bind_apply, findOrCreateProcess_found h.process]
    rfl
  have h2 : (Pc.findSelf ep).step E cur k = some (.ret .convert (-1), k) := by
    simp only [Pc.step, K.bind_apply, findThreadByPid_of h.process_eq h.thread]
    rfl
  exact .quiet h1 rfl (.quiet h2 rfl (.refl _))

/-- Creations and FLS operations touch no lock. -/
theorem locks_lockFree {v : ℤ} (hc : c.isFls ∨ ∃ sp sz fn arg, c = .create sp sz fn arg)
    (hrun : c.run E cur k = some (v, k')) : Locks E cur (.entry c, k) [] (.ret c v, k') := by
  have hne : c ≠ .convert := by
    rintro rfl
    simp [Call.isFls] at hc
  refine Locks.call (.refl _) ?_ hrun
  rw [Pc.entry_of_ne hne]
  exact hc

variable {id : PidT} {f g : Ptr} {r rg : Fiber}

theorem findFiber_step (h : Caller E k cur ep p tp t) {o : Option Ptr}
    (hid : k.fiberOf E p id = some o) : (Pc.findFiber id ep tp).step E cur k =
      some (o.elim (.ret (.switchTo id) (-1)) (.trylock id tp), k) := by
  have hfind : findFiberById E id ep k = some (o, k) :=
    findFiberById_eq_some.mpr ⟨p, h.process_eq, hid, rfl⟩
  simp only [Pc.step, K.bind_apply, hfind]
  cases o <;> rfl

theorem locks_missing (h : Caller E k cur ep p tp t) (hid : k.fiberOf E p id = some none) :
    Locks E cur (.entry (.switchTo id), k) [] (.ret (.switchTo id) (-1), k) :=
  locks_lookups h (by simp) (.quiet (findFiber_step h hid) rfl (.refl _))

theorem locks_busy (h : Caller E k cur ep p tp t) (hid : k.fiberOf E p id = some (some g))
    (hg : k.fiber g = some rg) (hl : rg.fiberLock = true) :
    Locks E cur (.entry (.switchTo id), k) [.trylock g false] (.ret (.switchTo id) (-1), k.bumped g) := by
  have hop : (Pc.trylock id tp g).lockOp k = some (.trylock g false) := by
    simp [Pc.lockOp, Kernel.locked, hg, hl]
  have hstep : ∃ k₁, (Pc.trylock id tp g).step E cur k =
      some (.run (assigns g [.countFailed]) (.ret (.switchTo id) (-1)), k₁) := by
    simp only [Pc.step, K.bind_apply, spinTrylock, hg, hl, Option.map_some]
    exact ⟨_, rfl⟩
  obtain ⟨k₁, hstep⟩ := hstep
  refine Locks.call (locks_lookups h (by simp) (.quiet (findFiber_step h hid) rfl
    (.loud hstep hop (.refl _)))) ⟨rfl, trivial⟩ (doSwitchToFiber_busy h hid hg hl)

theorem locks_switched (h : Caller E k cur ep p tp t) (hid : k.fiberOf E p id = some (some g))
    (hg : k.fiber g = some rg) (hl : rg.fiberLock = false) (ha : rg.attachedThread = none)
    (hsel : t.selectedFiber = some f) (hf : k.fiber f = some r) (hne : g ≠ f) :
    Locks E cur (.entry (.switchTo id), k) [.trylock g true, .unlock f]
      (.ret (.switchTo id) 0, k.switched cur tp g f t rg r) := by
  have hop : (Pc.trylock id tp g).lockOp k = some (.trylock g true) := by
    simp [Pc.lockOp, Kernel.locked, hg, hl]
  have htry : (Pc.trylock id tp g).step E cur k =
      some (.checkAttached id tp g, k.modFiber g fun r => { r with fiberLock := true }) := by
    simp only [Pc.step, K.bind_apply, spinTrylock, hg, hl, Option.map_some]
    rfl
  set k₁ := k.modFiber g fun r => { r with fiberLock := true } with hk₁
  have hcheck : (Pc.checkAttached id tp g).step E cur k₁ =
      some (.run (switchAttach tp g) (.readPrev id tp g), k₁) := by
    simp only [Pc.step, K.bind_apply, readFiber, hk₁, Kernel.modFiber_fiber, if_true, hg,
      Option.map_some, Option.bind_some, ha]
    rfl
  have hattach : execAll E cur (switchAttach tp g) k₁ =
      some ((), applyAll E cur (switchAttach tp g) k₁) :=
    execAll_eq_some.mpr ⟨okAll_assigns _ (by simp [hk₁, hg]), rfl⟩
  set k₂ := applyAll E cur (switchAttach tp g) k₁ with hk₂
  have ht₂ : k₂.thread tp = some t := by
    simp [hk₂, hk₁, switchAttach, applyAll_assigns, h.thread_eq]
  have hread : (Pc.readPrev id tp g).step E cur k₂ =
      some (.run (switchTail tp g f) (.ret (.switchTo id) 0), k₂) := by
    simp only [Pc.step, K.bind_apply, readThread, ht₂, Option.map_some, Option.bind_some, hsel, nonNull]
    rfl
  have htail : execAll E cur (switchTail tp g f) k₂ =
      some ((), applyAll E cur (switchTail tp g f) k₂) := by
    refine execAll_eq_some.mpr ⟨okAll_switch (by simp [ht₂]) ?_ ?_, rfl⟩
    · simp [hk₂, hk₁, switchAttach, applyAll_assigns, hg]
    · simp [hk₂, hk₁, switchAttach, applyAll_assigns, hf, hne.symm]
  have hpath : Locks E cur (.entry (.switchTo id), k) [.trylock g true, .unlock f]
      (.ret (.switchTo id) 0, applyAll E cur (switchTail tp g f) k₂) :=
    locks_lookups h (by simp) (.quiet (findFiber_step h hid) rfl (.loud htry hop
      (.quiet hcheck rfl (.run_quiet rfl hattach (.quiet hread rfl (.run htail (.refl _)))))))
  exact hpath.call trivial (doSwitchToFiber_free h hid hg hl ha hsel hf hne)

/-- A conversion locks the new fiber. -/
theorem locks_converted {k₁ : Kernel} (he : findOrCreateProcess E cur k = some (ep, k₁))
    (hp : k₁.process ep = some p) (ht : k₁.threadOf E p cur.pid = some none) :
    Locks E cur (.entry .convert, k) [.trylock ⟨cur.tgid, k₁.brk cur.tgid + 1⟩ true]
      (.ret .convert p.nextId.toInt, k₁.converted E cur ep p) := by
  have hfind : Pc.findOrCreate.step E cur k = some (.findSelf ep, k₁) := by
    simp only [Pc.step, K.bind_apply, he]
    rfl
  have hself : (Pc.findSelf ep).step E cur k₁ = some (.newThread ep, k₁) := by
    simp only [Pc.step, K.bind_apply, findThreadByPid_of hp ht]
    rfl
  -- the thread record
  set gp := k₁.nextPtr cur.tgid with hgp
  set kt := k₁.withThread E cur ep p { threadId := cur.pid, parent := ep, selectedFiber := none }
    with hkt
  have hthread : initThread E cur ep cur.pid k₁ = some (gp, kt) := initThread_eq hp
  simp only [initThread, K.bind_eq_some] at hthread
  obtain ⟨gp', k₂, halloc, _, k₃, hadd, hpure⟩ := hthread
  obtain ⟨rfl, rfl⟩ : gp' = gp ∧ k₃ = kt := by simpa using hpure
  have hnew : (Pc.newThread ep).step E cur k₁ =
      some (.run [incActive ep, addThread ep gp] (.newFiber ep (.convert gp)), k₂) := by
    simp only [Pc.step, K.bind_apply, halloc]
    rfl
  -- the fiber
  have hpt : kt.process ep = some (p.withThread E cur.pid gp) := by simp [hkt, Kernel.withThread, hgp]
  have hfiber : initFiber E cur ep (-1) 0 kt = some (_, _) := initFiber_eq hpt (-1) 0
  have hf : kt.nextPtr cur.tgid = ⟨cur.tgid, k₁.brk cur.tgid + 1⟩ := by
    simp [hkt, Kernel.withThread, Kernel.nextPtr]
  rw [hf] at hfiber
  set f : Ptr := ⟨cur.tgid, k₁.brk cur.tgid + 1⟩
  set r := initializedFiber E cur f (kt.cpu cur) ep (-1) 0 (p.withThread E cur.pid gp).nextId with hr
  set kf := kt.withFiber E cur ep (p.withThread E cur.pid gp) r with hkf
  have hfr : kf.fiber f = some r := by simp [hkf, Kernel.withFiber, hf]
  simp only [initFiber, K.bind_eq_some] at hfiber
  obtain ⟨f', k₄, hallocf, _, k₅, hid, _, k₆, hinit, hpure⟩ := hfiber
  obtain ⟨rfl, rfl⟩ : f' = f ∧ k₆ = kf := by simpa using hpure
  have hnewf : (Pc.newFiber ep (.convert gp)).step E cur kt = some (.takeId ep f (.convert gp), k₄) := by
    simp only [Pc.step, K.bind_apply, Maker.ss, Maker.sPtr, hallocf]
    rfl
  have htake : (Pc.takeId ep f (.convert gp)).step E cur k₄ =
      some (.run (initFiberTail ep f ++ convertTail gp f) (.lockNew gp f), k₅) := by
    simp only [Pc.step, K.bind_apply, hid]
    rfl
  have htail : execAll E cur (convertTail gp f) kf = some ((), applyAll E cur (convertTail gp f) kf) := by
    refine execAll_eq_some.mpr ⟨okAll_append.mpr ⟨okAll_assigns _ (by simp [hfr]), ?_⟩, rfl⟩
    simp [applyAll_assigns, okAll, ok, hkf, Kernel.withFiber, hkt, Kernel.withThread, hgp]
  set k₇ := applyAll E cur (convertTail gp f) kf with hk₇
  obtain ⟨r₇, hr₇, hl₇⟩ : ∃ r₇, k₇.fiber f = some r₇ ∧ r₇.fiberLock = false := by
    refine ⟨runAll cur (kf.cpu cur) [.copySp, .copyBp, .countActivation, .attach (some gp)] r, ?_, rfl⟩
    rw [hk₇, convertTail, applyAll_append, applyAll_assigns]
    simp [apply, hfr]
  have hlock : (Pc.lockNew gp f).step E cur k₇ =
      some (.readId .convert f, k₇.modFiber f fun r => { r with fiberLock := true }) := by
    simp only [Pc.step, K.bind_apply, spinTrylock, hr₇, hl₇, Option.map_some]
    rfl
  have hop : (Pc.lockNew gp f).lockOp k₇ = some (.trylock f true) := by
    simp [Pc.lockOp, Kernel.locked, hr₇, hl₇]
  have hpath : Locks E cur (.entry .convert, k) [.trylock f true]
      (.readId .convert f, k₇.modFiber f fun r => { r with fiberLock := true }) :=
    .quiet hfind rfl (.quiet hself rfl (.quiet hnew rfl (.run_quiet rfl hadd (.quiet hnewf rfl
      (.quiet htake rfl (.run_quiet rfl (execAll_append hinit htail) (.loud hlock hop (.refl _))))))))
  exact hpath.call trivial (doConvertThreadToFiber_new he hp ht)

/-- `exit_cleanup` up to the decremented counter. -/
theorem locks_dec (h : Caller E k cur ep p tp t) (hpar : t.parent = ep) :
    Locks E cur (.entry .exit, k) [] (.checkExit ep tp (p.activeThreads - 1),
      { k with
        process := Function.update k.process ep
          (some { p with activeThreads := p.activeThreads - 1 }) }) := by
  refine locks_lookups h (by simp) (.quiet ?_ rfl (.refl _))
  simp only [Call.enter, Pc.step, K.bind_apply, decActiveThreads_eq h.thread_eq hpar h.process_eq]
  rfl

/-- A dying thread that is not the last one unlocks its fiber. -/
theorem locks_detached (h : Caller E k cur ep p tp t) (hpar : t.parent = ep)
    (hsel : t.selectedFiber = some f) (hf : k.fiber f = some r) (hact : p.activeThreads - 1 ≠ 0) :
    Locks E cur (.entry .exit, k) [.unlock f] (.ret .exit 0, k.detached cur ep tp f p r) := by
  have hdec := locks_dec h hpar
  set v := p.activeThreads - 1 with hv
  set k₁ : Kernel :=
    { k with process := Function.update k.process ep (some { p with activeThreads := v }) } with hk₁
  have hread : readThread tp k₁ = some (t, k₁) := readThread_eq_some.mpr ⟨h.thread_eq, rfl⟩
  have hcheck : (Pc.checkExit ep tp v).step E cur k₁ = some (.exitPrev ep tp v, k₁) := by
    have hcond : t.selectedFiber.isSome ∧ v ≠ 0 := ⟨by simp [hsel], hact⟩
    simp only [Pc.step, K.bind_apply, hread, Option.bind_some, if_pos hcond]
    rfl
  have hdet : exitDetach (some f) v = assigns f [.saveRegs, .saveFx, .attach none, .unlock] :=
    if_pos hact
  have hprev : (Pc.exitPrev ep tp v).step E cur k₁ =
      some (.run (assigns f [.saveRegs, .saveFx, .attach none, .unlock] ++
        [delThread ep tp, freeThread tp]) (.lastThread ep v), k₁) := by
    simp only [Pc.step, K.bind_apply, hread, Option.bind_some, hsel, nonNull, Option.map_some, hdet]
    rfl
  have hss : execAll E cur (assigns f [.saveRegs, .saveFx, .attach none, .unlock] ++
      [delThread ep tp, freeThread tp]) k₁ = some ((), applyAll E cur (assigns f
        [.saveRegs, .saveFx, .attach none, .unlock] ++ [delThread ep tp, freeThread tp]) k₁) := by
    refine execAll_eq_some.mpr ⟨okAll_append.mpr ⟨okAll_assigns _ (by simp [hk₁, hf]), ?_⟩, rfl⟩
    simp [applyAll_assigns, okAll, ok, apply, hk₁, h.thread_eq]
  have hpath := hdec.trans (.quiet hcheck rfl (.quiet hprev rfl (.run hss (.refl _))))
  exact hpath.call trivial (exitCleanup_detach h hpar hsel hf hact)

/-- The last thread of a process to die unlocks nothing. -/
theorem locks_last {v : ℤ} (h : Caller E k cur ep p tp t) (hpar : t.parent = ep)
    (hact : p.activeThreads - 1 = 0) (hrun : exitCleanup E cur k = some (v, k')) :
    Locks E cur (.entry .exit, k) [] (.ret .exit v, k') :=
  (locks_dec h hpar).call hact hrun

end Caller

/-! ## Logs -/

/-- One step of a run with its lock operations. -/
structure LockEvent where
  pre : Kernel
  op : Op
  result : ℤ
  locks : List LockOp

/-- `e` is what happened between `k` and `k'`. -/
def LockStep (E : Env) (k : Kernel) (e : LockEvent) (k' : Kernel) : Prop :=
  e.pre = k ∧
    match e.op with
    | .call cur c => Locks E cur (.entry c, k) e.locks (.ret c e.result, k')
    | op => op.run E k = some (e.result, k') ∧ e.locks = []

/-- The thread that makes a step. -/
def Op.task : Op → Task
  | call cur _ | release cur | user cur _ => cur

/-- The lock operations of the thread `u`, first operation first. -/
def lockLog (u : Task) (es : List LockEvent) : List LockOp :=
  es.flatMap fun e => if e.op.task = u then e.locks else []

/-- Successful trylocks minus unlocks. -/
def balance (log : List LockOp) : ℤ :=
  (log.map fun
    | .trylock _ true => 1
    | .trylock _ false => 0
    | .unlock _ => -1).sum

/-- The locks a thread holds after one more operation; there is no result when
    it unlocks a lock it does not hold. -/
def LockOp.held (locks : List Ptr) : LockOp → Option (List Ptr)
  | .trylock f true => some (f :: locks)
  | .trylock _ false => some locks
  | .unlock f => if f ∈ locks then some (locks.erase f) else none

/-- The locks a thread holds after the operations of `log`. -/
def heldLocks (log : List LockOp) : Option (List Ptr) := log.foldlM LockOp.held []

/-- The thread `u` has a record in the table of its process. -/
def Kernel.registered (E : Env) (k : Kernel) (u : Task) : Bool :=
  ((k.processOf E u.tgid).join.bind fun ep =>
    (k.process ep).bind fun p => (k.threadOf E p u.pid).join).isSome

/-- After the events `es`, every thread has one lock more taken than released
    if it is registered and as many if it is not, and it never released a lock
    it did not hold. -/
def LocksBalanced (E : Env) (es : List LockEvent) (k : Kernel) : Prop :=
  ∀ u, balance (lockLog u es) = (if k.registered E u then 1 else 0) ∧
    (heldLocks (lockLog u es)).isSome

/-- The step frees a process record while threads of the process hold fibers: the
    last registered thread of the process dies, or a descriptor is released by a
    process that has a record. -/
def Op.tearsDown (E : Env) (k : Kernel) : Op → Prop
  | .call cur .exit => ∃ ep p tp t, Caller E k cur ep p tp t ∧ p.activeThreads = 1
  | .release cur => ∃ ep, k.processOf E cur.tgid = some (some ep)
  | _ => False

/-! ## What the threads run -/

/-- The fiber a thread runs, read off the thread records. -/
theorem Inv.running_iff {u : Task} {f : Ptr} (hk : Inv E k) : k.running E u = some f ↔
    ∃ t r, t.tgid = u.tgid ∧ k.thread t = some r ∧ r.threadId = u.pid ∧ r.selectedFiber = some f := by
  constructor
  · intro hrun
    rcases hk.toShape.running_or u with hn | ⟨ep, p, tp, t, f', r, hr⟩
    · simp [hn.running_eq] at hrun
    · obtain rfl : f' = f := by simpa [hr.running_eq] using hrun
      refine ⟨tp, t, ?_, hr.thread_eq, hr.threadId, hr.selected⟩
      rw [hr.procOk.threadTgid tp hr.thread_mem, hr.processId]
  · rintro ⟨t, r, htgid, hr, hid, hsel⟩
    obtain ⟨p, hfound, hp, hmem⟩ := hk.thread_parent hr htgid
    have hok := (hk.toShape.processOf_found hfound hp).2.1
    have hthread : k.threadOf E p u.pid = some (some t) :=
      hok.threadsInj.find_of_mem hok.threadsWF hmem (by simp [Kernel.threadKey, hr, hid])
    simp [Kernel.running, hfound, hp, hthread, Kernel.selected, hr, hsel]

theorem Inv.running_congr {u : Task} (hk : Inv E k) (hk' : Inv E k')
    (h : ∀ t r, t.tgid = u.tgid → r.threadId = u.pid → (k'.thread t = some r ↔ k.thread t = some r)) :
    k'.running E u = k.running E u := by
  refine Option.ext fun f => ?_
  rw [hk'.running_iff, hk.running_iff]
  constructor
  · rintro ⟨t, r, h1, h2, h3, h4⟩
    exact ⟨t, r, h1, (h t r h1 h3).mp h2, h3, h4⟩
  · rintro ⟨t, r, h1, h2, h3, h4⟩
    exact ⟨t, r, h1, (h t r h1 h3).mpr h2, h3, h4⟩

/-- A registered thread is one that runs a fiber. -/
theorem Inv.registered_eq (hk : Inv E k) (u : Task) :
    k.registered E u = (k.running E u).isSome := by
  rcases hk.toShape.running_or u with hn | ⟨ep, p, tp, t, f, r, hr⟩
  · rw [hn.running_eq]
    rcases hn with hn | ⟨ep, p, h1, h2, h3⟩
    · simp [Kernel.registered, hn]
    · simp [Kernel.registered, h1, h2, h3]
  · simp [Kernel.registered, hr.process, hr.process_eq, hr.thread, hr.running_eq]

/-- Unless a process is torn down, a step changes no thread record but the
    caller's own. -/
theorem Outcome.thread_change {op : Op} {res : ℤ} (hk : Inv E k) (h : Outcome E k op res k')
    (hno : ¬ op.tearsDown E k) (t : Ptr) :
    k'.thread t = k.thread t ∨ t.tgid = op.task.tgid ∧
      ∀ r, k.thread t = some r ∨ k'.thread t = some r → r.threadId = op.task.pid := by
  cases h with
  | refused | again | switchMissing | releaseNone | user | switchBusy | fls | created =>
    exact .inl rfl
  | @convertedFirst cur hn =>
    by_cases htn : t = ⟨cur.tgid, k.brk cur.tgid + 1⟩
    · subst htn
      refine .inr ⟨rfl, fun r hr => ?_⟩
      have hnone := hk.toShape.fresh_thread_none (x := ⟨cur.tgid, k.brk cur.tgid + 1⟩) (Nat.le_succ _)
      rcases hr with hr | hr
      · simp [hnone] at hr
      · obtain rfl : _ = r := by
          simpa [Kernel.converted, Kernel.withProcess, Kernel.nextPtr] using hr
        rfl
    · exact .inl (by simp [Kernel.converted, Kernel.withProcess, Kernel.nextPtr, htn])
  | @converted cur ep p hep hp ht =>
    by_cases htn : t = k.nextPtr cur.tgid
    · subst htn
      refine .inr ⟨rfl, fun r hr => ?_⟩
      have hnone := hk.toShape.fresh_thread_none (x := k.nextPtr cur.tgid) le_rfl
      rcases hr with hr | hr
      · simp [hnone] at hr
      · obtain rfl : _ = r := by simpa [Kernel.converted] using hr
        rfl
    · exact .inl (by simp [Kernel.converted, htn])
  | @switched cur ep tp f y p tr r rg id hr hid hy hl ha hne =>
    by_cases htt : t = tp
    · subst htt
      refine .inr ⟨by rw [hr.procOk.threadTgid t hr.thread_mem, hr.processId]; rfl, fun q hq => ?_⟩
      rcases hq with hq | hq
      · obtain rfl : tr = q := by simpa [hr.thread_eq] using hq
        exact hr.threadId
      · obtain rfl : _ = q := by simpa [Kernel.switched] using hq
        exact hr.threadId
    · exact .inl (by simp [Kernel.switched, htt])
  | @detached cur ep tp f p tr r hr hact =>
    by_cases htt : t = tp
    · subst htt
      refine .inr ⟨by rw [hr.procOk.threadTgid t hr.thread_mem, hr.processId]; rfl, fun q hq => ?_⟩
      rcases hq with hq | hq
      · obtain rfl : tr = q := by simpa [hr.thread_eq] using hq
        exact hr.threadId
      · simp [Kernel.detached] at hq
    · exact .inl (by simp [Kernel.detached, htt])
  | @lastExit cur ep tp f p tr r hr hact =>
    exact absurd ⟨ep, p, tp, tr, hr.toCaller, by omega⟩ hno
  | @released cur ep p hep hp => exact absurd ⟨ep, hep⟩ hno

theorem Task.eq_of {u v : Task} (htgid : u.tgid = v.tgid) (hpid : u.pid = v.pid) : u = v := by
  cases u
  cases v
  simp_all

/-- Unless a process is torn down, a step changes what no other thread runs. -/
theorem Outcome.running_other {op : Op} {res : ℤ} {u : Task} (hk : Inv E k)
    (h : Outcome E k op res k') (hno : ¬ op.tearsDown E k) (hu : u ≠ op.task) :
    k'.running E u = k.running E u := by
  have hthread : ∀ t r, t.tgid = u.tgid → r.threadId = u.pid →
      (k'.thread t = some r ↔ k.thread t = some r) := by
    intro t r htgid hpid
    rcases h.thread_change hk hno t with heq | ⟨htgid', hpid'⟩
    · rw [heq]
    · -- the record would be the caller's
      have hne : r.threadId ≠ op.task.pid := fun he =>
        hu (Task.eq_of (htgid.symm.trans htgid') (hpid.symm.trans he))
      constructor
      · intro hr
        exact absurd (hpid' r (.inr hr)) hne
      · intro hr
        exact absurd (hpid' r (.inl hr)) hne
  exact hk.running_congr (hk.step h) hthread

/-! ## The balance over a run -/

theorem heldLocks_append (log ls : List LockOp) :
    heldLocks (log ++ ls) = (heldLocks log).bind fun locks => ls.foldlM LockOp.held locks := by
  simp [heldLocks, List.foldlM_append]

theorem balance_append (log ls : List LockOp) : balance (log ++ ls) = balance log + balance ls := by
  simp [balance]

/-- A thread that only releases what it holds has as many locks as its balance
    says. -/
theorem balance_eq_length {log : List LockOp} {locks : List Ptr} (h : heldLocks log = some locks) :
    balance log = locks.length := by
  induction log using List.reverseRecOn generalizing locks with
  | nil =>
    obtain rfl : [] = locks := by simpa [heldLocks] using h
    rfl
  | append_singleton log o ih =>
    rw [heldLocks_append, Option.bind_eq_some_iff] at h
    obtain ⟨before, hbefore, ho⟩ := h
    rw [balance_append, ih hbefore]
    have ho : o.held before = some locks := by simpa using ho
    cases o with
    | trylock f taken =>
      cases taken with
      | true =>
        obtain rfl : f :: before = locks := by simpa [LockOp.held] using ho
        simp [balance]
      | false =>
        obtain rfl : before = locks := by simpa [LockOp.held] using ho
        simp [balance]
    | unlock f =>
      simp only [LockOp.held] at ho
      split_ifs at ho with hmem
      obtain rfl : before.erase f = locks := by simpa using ho
      have hlen := List.length_erase_of_mem hmem
      have hpos := List.length_pos_of_mem hmem
      simp only [balance, List.map_cons, List.map_nil, List.sum_cons, List.sum_nil]
      omega

theorem lockLog_snoc (u : Task) (es : List LockEvent) (e : LockEvent) :
    lockLog u (es ++ [e]) = lockLog u es ++ if e.op.task = u then e.locks else [] := by
  simp [lockLog]

/-- A dead thread runs nothing. -/
theorem Outcome.exit_running {res : ℤ} (hk : Inv E k) (h : Outcome E k (.call cur .exit) res k') :
    k'.running E cur = none := by
  have hk' := hk.step h
  by_contra hne
  obtain ⟨f', hf'⟩ := Option.ne_none_iff_exists'.mp hne
  obtain ⟨x, rx, htgid, hrx, hpid, -⟩ := hk'.running_iff.mp hf'
  cases h with
  | refused hn => exact hne hn.running_eq
  | fls _ hc => simp [Call.isFls] at hc
  | @detached _ ep tp f p t r hr hact =>
    have hxt : x ≠ tp := by rintro rfl; simp [Kernel.detached] at hrx
    have hrx : k.thread x = some rx := by simpa [Kernel.detached, hxt] using hrx
    exact hxt (hr.eq_of_threadId hk htgid hrx hpid)
  | @lastExit _ ep tp f p t r hr hact =>
    have hxt : x ≠ tp := by rintro rfl; simp [Kernel.toreDown] at hrx
    have hrx : k.thread x = some rx := by simpa [Kernel.toreDown, hxt] using hrx
    exact hxt (hr.eq_of_threadId hk htgid hrx hpid)

/-- The lock operations of a call that tears nothing down take the caller from
    the fiber it ran to the fiber it runs. -/
theorem Outcome.exists_locks {c : Call} {res : ℤ} (hk : Inv E k)
    (h : Outcome E k (.call cur c) res k') (hno : ¬ (Op.call cur c).tearsDown E k) :
    ∃ ls, Locks E cur (.entry c, k) ls (.ret c res, k') ∧
      ls.foldlM LockOp.held (k.running E cur).toList = some (k'.running E cur).toList := by
  have hk' := hk.step h
  cases h with
  | refused hn hc => exact ⟨[], locks_refused hn hc, rfl⟩
  | again hr => exact ⟨[], locks_again hr.toCaller, rfl⟩
  | convertedFirst hn =>
    have ht : (k.withProcess E cur).threadOf E
        { processId := cur.tgid, lastFiberId := 0, activeThreads := 0,
          threads := .empty, fibers := .empty } cur.pid = some none := rfl
    refine ⟨_, locks_converted (findOrCreateProcess_new hn) (by simp [Kernel.withProcess]) ht, ?_⟩
    have hbefore : k.running E cur = none := NotConverted.running_eq (.inl hn)
    have hafter := hk'.running_iff (u := cur).mpr
      ⟨(k.withProcess E cur).nextPtr cur.tgid, _, rfl, Function.update_self _ _ _, rfl, rfl⟩
    rw [hbefore, hafter]
    rfl
  | @converted _ ep p hep hp ht =>
    refine ⟨_, locks_converted (findOrCreateProcess_found hep) hp ht, ?_⟩
    have hbefore : k.running E cur = none := NotConverted.running_eq (.inr ⟨ep, p, hep, hp, ht⟩)
    have hafter := hk'.running_iff (u := cur).mpr
      ⟨k.nextPtr cur.tgid, _, rfl, Function.update_self _ _ _, rfl, rfl⟩
    rw [hbefore, hafter]
    rfl
  | @created _ ep tp f p t r sp sz fn arg hr =>
    refine ⟨_, locks_lockFree (.inr ⟨sp, sz, fn, arg, rfl⟩)
      (doCreateFiber_eq hr.toCaller sp sz fn arg), ?_⟩
    rw [hk.running_congr hk' fun _ _ _ _ => Iff.rfl]
    rfl
  | switchMissing hr hid => exact ⟨[], locks_missing hr.toCaller hid, rfl⟩
  | switchBusy hr hid hg hl =>
    refine ⟨_, locks_busy hr.toCaller hid hg hl, ?_⟩
    rw [hk.running_congr hk' fun _ _ _ _ => Iff.rfl]
    rfl
  | @switched _ ep tp f g p t r rg id hr hid hg hl ha hne =>
    refine ⟨_, locks_switched hr.toCaller hid hg hl ha hr.selected hr.fiber_eq hne, ?_⟩
    rw [hr.running_eq, switched_running hr]
    simp [LockOp.held, List.erase_cons_tail, hne]
  | fls hr hc =>
    refine ⟨_, locks_lockFree (.inl hc) (fls_run hr.toCaller hr.selected hr.fiber_eq hc), ?_⟩
    rw [hk.running_congr hk' fun _ _ _ _ => Iff.rfl]
    rfl
  | @detached _ ep tp f p t r hr hact =>
    refine ⟨_, locks_detached hr.toCaller hr.parent hr.selected hr.fiber_eq hact, ?_⟩
    rw [hr.running_eq, Outcome.exit_running hk (.detached hr hact)]
    simp [LockOp.held]
  | @lastExit _ ep tp f p t r hr hact =>
    exact absurd ⟨ep, p, tp, t, hr.toCaller, by omega⟩ hno

theorem LockStep.outcome {e : LockEvent} (hk : Inv E k) (h : LockStep E k e k') :
    Outcome E k e.op e.result k' := by
  obtain ⟨-, h⟩ := h
  obtain ⟨res, k₁, hrun, hout⟩ := hk.toShape.outcome e.op
  cases hop : e.op with
  | call cur c =>
    rw [hop] at h hrun hout
    obtain ⟨ls, hls⟩ := Locks.exists_of_solo (solo_call hrun)
    obtain ⟨-, -, rfl, rfl⟩ := hls.functional h
    exact hout
  | release cur | user cur cpu =>
    rw [hop] at h
    exact hk.toShape.outcome_of_run h.1

/-- The locks every thread holds, and no others, are those of the fibers the
    threads run. -/
def LockInv (E : Env) (es : List LockEvent) (k : Kernel) : Prop :=
  ∀ u, heldLocks (lockLog u es) = some (k.running E u).toList

theorem LockInv.step {es : List LockEvent} {e : LockEvent} (hk : Inv E k) (h : LockInv E es k)
    (hs : LockStep E k e k') (hno : ¬ e.op.tearsDown E k) : LockInv E (es ++ [e]) k' := by
  have hout := hs.outcome hk
  obtain ⟨pre, op, result, locks⟩ := e
  intro u
  rw [lockLog_snoc, heldLocks_append, h u]
  by_cases hu : op.task = u
  · subst hu
    rw [if_pos rfl, Option.bind_some]
    cases op with
    | call cur c =>
      obtain ⟨ls, hls, hheld⟩ := Outcome.exists_locks hk hout hno
      obtain ⟨rfl, -⟩ := hls.functional hs.2
      exact hheld
    | release cur =>
      obtain rfl : locks = [] := hs.2.2
      cases hout with
      | releaseNone => rfl
      | @released _ ep p hep hp => exact absurd ⟨ep, hep⟩ hno
    | user cur cpu =>
      obtain rfl : locks = [] := hs.2.2
      have hsame : k'.running E cur = k.running E cur := by
        cases hout
        rfl
      exact congrArg (fun o => some (Option.toList o)) hsame.symm
  · rw [if_neg hu, hout.running_other hk hno (Ne.symm hu)]
    rfl

theorem LockInv.balanced {es : List LockEvent} (hk : Inv E k) (h : LockInv E es k) :
    LocksBalanced E es k := by
  intro u
  refine ⟨?_, by rw [h u]; rfl⟩
  rw [balance_eq_length (h u), hk.registered_eq]
  cases k.running E u <;> rfl

theorem lockInv_of_run {cpu : Task → Cpu} {es : List LockEvent}
    (h : Run (LockStep E) (Kernel.boot cpu) es k) (hno : ∀ e ∈ es, ¬ e.op.tearsDown E e.pre) :
    Inv E k ∧ LockInv E es k := by
  induction h with
  | nil => exact ⟨.boot cpu, fun u => rfl⟩
  | @snoc es k₁ k₂ e _ hs ih =>
    obtain ⟨hk, hinv⟩ := ih fun e he => hno e (by simp [he])
    have hpre := hs.1
    exact ⟨hk.step (hs.outcome hk), hinv.step hk hs (hpre ▸ hno e (by simp))⟩

theorem inv_of_lockRun {cpu : Task → Cpu} {es : List LockEvent}
    (h : Run (LockStep E) (Kernel.boot cpu) es k) : Inv E k :=
  h.invariant (Inv.boot cpu) fun _ _ _ hk hs => hk.step (hs.outcome hk)

/-- A step that tears a process down releases no lock, and a thread that was
    registered before it no longer is. -/
theorem LockStep.tearsDown_registered {e : LockEvent} (hk : Inv E k) (hs : LockStep E k e k')
    (htear : e.op.tearsDown E k) :
    e.locks = [] ∧ ∃ u, k.registered E u = true ∧ k'.registered E u = false := by
  have hout := hs.outcome hk
  have hk' := hk.step hout
  obtain ⟨-, hs⟩ := hs
  cases hop : e.op with
  | user cur cpu =>
    rw [hop] at htear
    exact htear.elim
  | release cur =>
    rw [hop] at htear hs hout
    obtain ⟨ep, hep⟩ := htear
    obtain ⟨p, hp⟩ := Option.isSome_iff_exists.mp (hk.processOf_iff.mp hep).2
    obtain ⟨hmem, hok, hid⟩ := hk.toShape.processOf_found hep hp
    obtain ⟨t, ht⟩ := hk.populated ep hmem p hp
    obtain ⟨r, hr⟩ := hok.thread_exists ht
    obtain ⟨f, hf, hsel, -⟩ := hok.selected t ht
    have htgid : t.tgid = cur.tgid := by rw [hok.threadTgid t ht, hid]
    have hrun : k.running E ⟨cur.tgid, r.threadId⟩ = some f :=
      hk.running_iff.mpr ⟨t, r, htgid, hr, rfl, by simpa [Kernel.selected, hr] using hsel⟩
    refine ⟨hs.2, ⟨cur.tgid, r.threadId⟩, ?_, ?_⟩
    · rw [hk.registered_eq, hrun]
      rfl
    · rw [hk'.registered_eq, Option.isSome_eq_false_iff, Option.isNone_iff_eq_none]
      by_contra hne
      obtain ⟨f', hf'⟩ := Option.ne_none_iff_exists'.mp hne
      obtain ⟨x, rx, hx, hrx, -⟩ := hk'.running_iff.mp hf'
      simp [hout.released_thread hk hx] at hrx
  | call cur c =>
    rw [hop] at htear hs hout
    cases c with
    | exit =>
      obtain ⟨ep, p, tp, t, hcaller, hact⟩ := htear
      obtain ⟨f, r, hr⟩ := hk.toShape.running_of_caller hcaller
      have hrun : exitCleanup E cur k = some (e.result, k') := hk.toShape.run_of_outcome hout
      obtain ⟨hls, -⟩ := (locks_last hcaller hr.parent (by omega) hrun).functional hs
      refine ⟨hls.symm, cur, ?_, ?_⟩
      · rw [hk.registered_eq, hr.running_eq]
        rfl
      · rw [hk'.registered_eq, hout.exit_running hk]
        rfl
    | _ => exact htear.elim

/-- After a process was torn down the locks no longer balance: the balance of a
    thread stays 1 while its record goes away. -/
theorem LocksBalanced.not_after_teardown {es : List LockEvent} {e : LockEvent} (hk : Inv E k)
    (h : LocksBalanced E es k) (hs : LockStep E k e k') (htear : e.op.tearsDown E k) :
    ¬ LocksBalanced E (es ++ [e]) k' := by
  intro h'
  obtain ⟨hls, u, hbefore, hafter⟩ := hs.tearsDown_registered hk htear
  have hlog : lockLog u (es ++ [e]) = lockLog u es := by
    rw [lockLog_snoc, hls]
    simp
  have hb := (h u).1
  have hb' := (h' u).1
  rw [hbefore, if_pos rfl] at hb
  rw [hlog, hb, hafter] at hb'
  simp at hb'

/-- Along a run, the locks of every thread balance in every state exactly if no
    step tears down a process whose threads still hold fibers. -/
theorem lock_balance_iff {cpu : Task → Cpu} {es : List LockEvent}
    (h : Run (LockStep E) (Kernel.boot cpu) es k) :
    (∀ es₁ es₂ k₁, es = es₁ ++ es₂ → Run (LockStep E) (Kernel.boot cpu) es₁ k₁ →
      LocksBalanced E es₁ k₁) ↔ ∀ e ∈ es, ¬ e.op.tearsDown E e.pre := by
  constructor
  · intro hall e he htear
    obtain ⟨es₁, es₂, rfl⟩ := List.append_of_mem he
    rw [show es₁ ++ e :: es₂ = (es₁ ++ [e]) ++ es₂ by simp] at h hall
    obtain ⟨k₂, h₂, -⟩ := h.split
    obtain ⟨k₁, h₁, hs⟩ := h₂.snoc_inv
    have hbefore := hall es₁ ([e] ++ es₂) k₁ (by simp) h₁
    have hafter := hall (es₁ ++ [e]) es₂ k₂ rfl h₂
    exact hbefore.not_after_teardown (inv_of_lockRun h₁) hs (hs.1 ▸ htear) hafter
  · intro hno es₁ es₂ k₁ hes h₁
    subst hes
    obtain ⟨hk, hinv⟩ := lockInv_of_run h₁ fun e he => hno e (by simp [he])
    exact hinv.balanced hk

/-- The first conversion in a process, with its lock operations. -/
theorem exists_lockStep_firstConverted (E : Env) (cur : Task) (cpu : Task → Cpu) :
    ∃ ls, LockStep E (Kernel.boot cpu) ⟨Kernel.boot cpu, .call cur .convert, 1, ls⟩
      (Kernel.firstConverted E cur cpu) := by
  obtain ⟨ls, hls⟩ := Locks.exists_of_solo (solo_call (firstConverted_run E cur cpu))
  exact ⟨ls, rfl, hls⟩

/-- One conversion: nothing is torn down, and the locks balance. -/
theorem lock_balance_firstConverted : ∃ es k,
    Run (LockStep (.linux 240)) (Kernel.boot fun _ => .zero) es k ∧ es.length = 1 ∧
      LocksBalanced (.linux 240) es k := by
  obtain ⟨ls, hs⟩ := exists_lockStep_firstConverted (.linux 240) ⟨7, 7⟩ fun _ => .zero
  have hrun := Run.single hs
  refine ⟨_, _, hrun, rfl, ?_⟩
  have hno : ∀ e ∈ [LockEvent.mk (Kernel.boot fun _ => .zero) (.call ⟨7, 7⟩ .convert) 1 ls],
      ¬ e.op.tearsDown (.linux 240) e.pre := by
    intro e he
    obtain rfl := List.mem_singleton.mp he
    exact id
  exact (lock_balance_iff hrun).mpr hno _ [] _ (by simp) hrun

/-- The only thread of a process converts and dies: it dies with the lock of its
    fiber taken. -/
theorem lock_not_balanced : ∃ es k,
    Run (LockStep (.linux 240)) (Kernel.boot fun _ => .zero) es k ∧
      ¬ LocksBalanced (.linux 240) es k := by
  obtain ⟨ls, hs⟩ := exists_lockStep_firstConverted (.linux 240) ⟨7, 7⟩ fun _ => .zero
  have hrun := Run.single hs
  obtain ⟨hk, hinv⟩ := lockInv_of_run hrun fun e he => by
    obtain rfl := List.mem_singleton.mp he
    exact id
  obtain ⟨res, k', hexit, -⟩ := hk.toShape.outcome (.call ⟨7, 7⟩ .exit)
  obtain ⟨ls', hls'⟩ := Locks.exists_of_solo (solo_call (show Call.run _ _ .exit _ = _ from hexit))
  have hs' : LockStep (.linux 240) _ ⟨_, .call ⟨7, 7⟩ .exit, res, ls'⟩ k' := ⟨rfl, hls'⟩
  refine ⟨_, k', hrun.snoc hs', (hinv.balanced hk).not_after_teardown hk hs' ?_⟩
  exact ⟨_, _, _, _, firstConverted_caller (.linux 240) ⟨7, 7⟩ fun _ => .zero, rfl⟩

end AosvFibers
