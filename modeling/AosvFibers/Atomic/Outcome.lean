import AosvFibers.Atomic.Effects

/-!
# What one step can do

`Outcome E k op r k'` lists, for a state that satisfies the invariant, every
way a step can go: the path taken, its result `r` and the state `k'` it leads
to. `Shape.outcome` proves that every step goes one of these ways; in
particular no step ever dereferences a pointer to no record.

What a converted thread finds when it looks itself up is `Running`: its
process, its thread record and the fiber it runs, which is locked and
attached to it.
-/

namespace AosvFibers

open Lib Stmt

variable {E : Env} {cur : Task} {k k' : Kernel}

/-- The thread `cur` is converted and runs the fiber `r` at `f`. -/
structure Running (E : Env) (k : Kernel) (cur : Task) (ep : Ptr) (p : Process) (tp : Ptr)
    (t : Thread) (f : Ptr) (r : Fiber) : Prop extends Caller E k cur ep p tp t where
  process_mem : ep ∈ k.processes
  procOk : ProcOk E k ep p
  processId : p.processId = cur.tgid
  thread_mem : tp ∈ p.threads
  threadId : t.threadId = cur.pid
  parent : t.parent = ep
  selected : t.selectedFiber = some f
  fiber_mem : f ∈ p.fibers
  fiber_eq : k.fiber f = some r
  attached : r.attachedThread = some tp
  locked : r.fiberLock = true

/-- The fiber the thread `cur` runs, as its lookups find it. -/
def Kernel.running (E : Env) (k : Kernel) (cur : Task) : Option Ptr :=
  (k.processOf E cur.tgid).join.bind fun ep =>
    (k.process ep).bind fun p => (k.threadOf E p cur.pid).join.bind k.selected

/-- The ways a step from `k` can go. -/
inductive Outcome (E : Env) (k : Kernel) : Op → ℤ → Kernel → Prop
  | refused {cur : Task} {c : Call} (h : NotConverted E k cur) (hc : c ≠ .convert) :
      Outcome E k (.call cur c) c.refused k
  | again {cur : Task} {ep tp f : Ptr} {p : Process} {t : Thread} {r : Fiber}
      (h : Running E k cur ep p tp t f r) : Outcome E k (.call cur .convert) (-1) k
  | convertedFirst {cur : Task} (h : k.processOf E cur.tgid = some none) :
      Outcome E k (.call cur .convert) 1
        ((k.withProcess E cur).converted E cur (k.nextPtr cur.tgid)
          { processId := cur.tgid, lastFiberId := 0, activeThreads := 0,
            threads := .empty, fibers := .empty })
  | converted {cur : Task} {ep : Ptr} {p : Process} (h : k.processOf E cur.tgid = some (some ep))
      (hp : k.process ep = some p) (ht : k.threadOf E p cur.pid = some none) :
      Outcome E k (.call cur .convert) p.nextId.toInt (k.converted E cur ep p)
  | created {cur : Task} {ep tp f : Ptr} {p : Process} {t : Thread} {r : Fiber}
      {sp sz fn arg : Word} (h : Running E k cur ep p tp t f r) :
      Outcome E k (.call cur (.create sp sz fn arg)) p.nextId.toInt
        (k.created E cur ep p sp sz fn arg)
  | switchMissing {cur : Task} {ep tp f : Ptr} {p : Process} {t : Thread} {r : Fiber} {id : PidT}
      (h : Running E k cur ep p tp t f r) (hid : k.fiberOf E p id = some none) :
      Outcome E k (.call cur (.switchTo id)) (-1) k
  | switchBusy {cur : Task} {ep tp f g : Ptr} {p : Process} {t : Thread} {r rg : Fiber} {id : PidT}
      (h : Running E k cur ep p tp t f r) (hid : k.fiberOf E p id = some (some g))
      (hg : k.fiber g = some rg) (hl : rg.fiberLock = true) :
      Outcome E k (.call cur (.switchTo id)) (-1) (k.bumped g)
  | switched {cur : Task} {ep tp f g : Ptr} {p : Process} {t : Thread} {r rg : Fiber} {id : PidT}
      (h : Running E k cur ep p tp t f r) (hid : k.fiberOf E p id = some (some g))
      (hg : k.fiber g = some rg) (hl : rg.fiberLock = false) (ha : rg.attachedThread = none)
      (hne : g ≠ f) : Outcome E k (.call cur (.switchTo id)) 0 (k.switched cur tp g f t rg r)
  | fls {cur : Task} {ep tp f : Ptr} {p : Process} {t : Thread} {r : Fiber} {c : Call}
      (h : Running E k cur ep p tp t f r) (hc : c.isFls) :
      Outcome E k (.call cur c) (flsEffect c r).1
        { k with fiber := Function.update k.fiber f (some (flsEffect c r).2) }
  | detached {cur : Task} {ep tp f : Ptr} {p : Process} {t : Thread} {r : Fiber}
      (h : Running E k cur ep p tp t f r) (hact : p.activeThreads - 1 ≠ 0) :
      Outcome E k (.call cur .exit) 0 (k.detached cur ep tp f p r)
  | lastExit {cur : Task} {ep tp f : Ptr} {p : Process} {t : Thread} {r : Fiber}
      (h : Running E k cur ep p tp t f r) (hact : p.activeThreads - 1 = 0) :
      Outcome E k (.call cur .exit) 0 (k.toreDown ep [tp] (hashForEach p.fibers))
  | releaseNone {cur : Task} (h : k.processOf E cur.tgid = some none) :
      Outcome E k (.release cur) 0 k
  | released {cur : Task} {ep : Ptr} {p : Process} (h : k.processOf E cur.tgid = some (some ep))
      (hp : k.process ep = some p) :
      Outcome E k (.release cur) 0 (k.toreDown ep (hashForEach p.threads) (hashForEach p.fibers))
  | user {cur : Task} {cpu : Cpu} : Outcome E k (.user cur cpu) 0 (k.modCpu cur fun _ => cpu)

namespace Shape

variable {ep tp : Ptr} {p : Process}

/-! ## Lookups in a well-formed state -/

theorem processOf_cases (h : Shape E k) (g : PidT) : k.processOf E g = some none ∨
    ∃ ep p, k.processOf E g = some (some ep) ∧ k.process ep = some p := by
  obtain ⟨x, hx⟩ := h.processesWF.find_isSome g
  cases x with
  | none => exact .inl hx
  | some ep =>
    obtain ⟨p, hp⟩ := h.process_exists (HashTable.find_eq_some hx).1
    exact .inr ⟨ep, p, hx, hp⟩

theorem processOf_found (h : Shape E k) {g : PidT} (hep : k.processOf E g = some (some ep))
    (hp : k.process ep = some p) : ep ∈ k.processes ∧ ProcOk E k ep p ∧ p.processId = g := by
  obtain ⟨hmem, hkey⟩ := HashTable.find_eq_some hep
  exact ⟨hmem, h.proc ep hmem p hp, by simpa [Kernel.processKey, hp] using hkey⟩

/-- A thread is converted, and then runs a fiber, or it is not. -/
theorem running_or (h : Shape E k) (cur : Task) :
    NotConverted E k cur ∨ ∃ ep p tp t f r, Running E k cur ep p tp t f r := by
  rcases h.processOf_cases cur.tgid with hn | ⟨ep, p, hep, hp⟩
  · exact .inl (.inl hn)
  · obtain ⟨hmem, hok, hid⟩ := h.processOf_found hep hp
    obtain ⟨x, hx⟩ := hok.threadsWF.find_isSome cur.pid
    cases x with
    | none => exact .inl (.inr ⟨ep, p, hep, hp, hx⟩)
    | some tp =>
      obtain ⟨htm, hkey⟩ := HashTable.find_eq_some hx
      obtain ⟨t, ht⟩ := hok.thread_exists htm
      obtain ⟨f, hfm, hsel, hatt⟩ := hok.selected tp htm
      obtain ⟨r, hr⟩ := hok.fiber_exists hfm
      have hlk : k.locked f = true := (hok.locked f hfm).mpr (by simp [hatt])
      exact .inr ⟨ep, p, tp, t, f, r,
        { process := hep, process_eq := hp, thread := hx, thread_eq := ht, process_mem := hmem,
          procOk := hok, processId := hid, thread_mem := htm,
          threadId := by simpa [Kernel.threadKey, ht] using hkey,
          parent := hok.parent tp htm t ht,
          selected := by simpa [Kernel.selected, ht] using hsel,
          fiber_mem := hfm, fiber_eq := hr,
          attached := by simpa [Kernel.attached, hr] using hatt,
          locked := by simpa [Kernel.locked, hr] using hlk }⟩

end Shape

/-- A converted caller runs a fiber. -/
theorem Shape.running_of_caller {ep tp : Ptr} {p : Process} {t : Thread} (h : Shape E k)
    (hc : Caller E k cur ep p tp t) : ∃ f r, Running E k cur ep p tp t f r := by
  rcases h.running_or cur with hn | ⟨ep', p', tp', t', f, r, hr⟩
  · rcases hn with hn | ⟨ep', p', h1, h2, h3⟩
    · simp [hc.process] at hn
    · obtain rfl : ep = ep' := by simpa [hc.process] using h1
      obtain rfl : p = p' := by simpa [hc.process_eq] using h2
      simp [hc.thread] at h3
  · obtain rfl : ep = ep' := by simpa [hc.process] using hr.process
    obtain rfl : p = p' := by simpa [hc.process_eq] using hr.process_eq
    obtain rfl : tp = tp' := by simpa [hc.thread] using hr.thread
    obtain rfl : t = t' := by simpa [hc.thread_eq] using hr.thread_eq
    exact ⟨f, r, hr⟩

theorem NotConverted.running_eq (h : NotConverted E k cur) : k.running E cur = none := by
  rcases h with h | ⟨ep, p, h1, h2, h3⟩
  · simp [Kernel.running, h]
  · simp [Kernel.running, h1, h2, h3]

namespace Running

variable {ep tp f g : Ptr} {p : Process} {t : Thread} {r rg : Fiber} {id : PidT}

theorem running_eq (h : Running E k cur ep p tp t f r) : k.running E cur = some f := by
  simp [Kernel.running, h.process, h.process_eq, h.thread, Kernel.selected, h.thread_eq, h.selected]

theorem fiberOf_cases (h : Running E k cur ep p tp t f r) (id : PidT) :
    k.fiberOf E p id = some none ∨
      ∃ g rg, k.fiberOf E p id = some (some g) ∧ k.fiber g = some rg ∧ g ∈ p.fibers := by
  obtain ⟨x, hx⟩ := h.procOk.fibersWF.find_isSome id
  cases x with
  | none => exact .inl hx
  | some g =>
    obtain ⟨hgm, -⟩ := HashTable.find_eq_some hx
    obtain ⟨rg, hrg⟩ := h.procOk.fiber_exists hgm
    exact .inr ⟨g, rg, hx, hrg, hgm⟩

/-- A fiber nobody holds is attached to nobody, and is not the caller's own. -/
theorem free_fiber (h : Running E k cur ep p tp t f r) (hgm : g ∈ p.fibers)
    (hg : k.fiber g = some rg) (hl : rg.fiberLock = false) :
    rg.attachedThread = none ∧ g ≠ f := by
  have hlk := h.procOk.locked g hgm
  simp only [Kernel.locked, Kernel.attached, hg, Option.any_some, hl, Option.bind_some,
    Bool.false_eq_true, false_iff, Bool.not_eq_true, Option.isSome_eq_false_iff,
    Option.isNone_iff_eq_none] at hlk
  refine ⟨hlk, ?_⟩
  rintro rfl
  obtain rfl : rg = r := by simpa [hg] using h.fiber_eq
  simp [h.locked] at hl

end Running

/-! ## Every step goes one of the ways -/

theorem Shape.outcome (h : Shape E k) (op : Op) :
    ∃ r k', op.run E k = some (r, k') ∧ Outcome E k op r k' := by
  cases op with
  | user cur cpu => exact ⟨_, _, rfl, .user⟩
  | release cur =>
    rcases h.processOf_cases cur.tgid with hn | ⟨ep, p, hep, hp⟩
    · exact ⟨_, _, processCleanup_none hn, .releaseNone hn⟩
    · have hok := (h.processOf_found hep hp).2.1
      exact ⟨_, _, processCleanup_eq hep hp hok, .released hep hp⟩
  | call cur c =>
    rcases h.running_or cur with hn | ⟨ep, p, tp, t, f, r, hr⟩
    · by_cases hc : c = .convert
      · subst hc
        rcases hn with hn | ⟨ep, p, hep, hp, ht⟩
        · have ht : (k.withProcess E cur).threadOf E
              { processId := cur.tgid, lastFiberId := 0, activeThreads := 0,
                threads := .empty, fibers := .empty } cur.pid = some none := rfl
          exact ⟨_, _, doConvertThreadToFiber_new (findOrCreateProcess_new hn)
            (by simp [Kernel.withProcess]) ht, .convertedFirst hn⟩
        · exact ⟨_, _, doConvertThreadToFiber_new (findOrCreateProcess_found hep) hp ht,
            .converted hep hp ht⟩
      · exact ⟨_, _, run_refused hn hc, .refused hn hc⟩
    · by_cases hc : c.isFls
      · exact ⟨_, _, fls_run hr.toCaller hr.selected hr.fiber_eq hc, .fls hr hc⟩
      · cases c with
        | convert =>
          exact ⟨_, _, doConvertThreadToFiber_found (findOrCreateProcess_found hr.process)
            hr.process_eq hr.thread, .again hr⟩
        | create sp sz fn arg => exact ⟨_, _, doCreateFiber_eq hr.toCaller sp sz fn arg, .created hr⟩
        | switchTo id =>
          rcases hr.fiberOf_cases id with hid | ⟨g, rg, hid, hg, hgm⟩
          · exact ⟨_, _, doSwitchToFiber_missing hr.toCaller hid, .switchMissing hr hid⟩
          · cases hl : rg.fiberLock with
            | true => exact ⟨_, _, doSwitchToFiber_busy hr.toCaller hid hg hl, .switchBusy hr hid hg hl⟩
            | false =>
              obtain ⟨ha, hne⟩ := hr.free_fiber hgm hg hl
              exact ⟨_, _, doSwitchToFiber_free hr.toCaller hid hg hl ha hr.selected hr.fiber_eq hne,
                .switched hr hid hg hl ha hne⟩
        | exit =>
          by_cases hact : p.activeThreads - 1 = 0
          · refine ⟨_, _, exitCleanup_last hr.toCaller hr.parent hact hr.procOk.fibersWF ?_,
              .lastExit hr hact⟩
            intro x hx
            obtain ⟨rx, hrx⟩ := hr.procOk.fiber_exists hx
            simp [hrx]
          · exact ⟨_, _, exitCleanup_detach hr.toCaller hr.parent hr.selected hr.fiber_eq hact,
              .detached hr hact⟩
        | _ => simp [Call.isFls] at hc

theorem Shape.outcome_of_run {op : Op} {r : ℤ} (h : Shape E k) (hs : op.run E k = some (r, k')) :
    Outcome E k op r k' := by
  obtain ⟨r', k'', hrun, hout⟩ := h.outcome op
  rw [hs] at hrun
  obtain ⟨rfl, rfl⟩ : r = r' ∧ k' = k'' := by simpa using hrun
  exact hout

/-! ## What a step does to one fiber -/

/-- The call ends or uses the caller's hold on its fiber. -/
def Call.touches (res : ℤ) : Call → Bool
  | .convert | .create _ _ _ _ => false
  | .switchTo _ => res == 0
  | .flsAlloc | .flsFree _ | .flsGetValue _ | .flsSetValue _ _ | .exit => true

/-- The fiber whose hold the step ends or uses. -/
def Op.touched (E : Env) (k : Kernel) (res : ℤ) : Op → Option Ptr
  | .call cur c => if c.touches res then k.running E cur else none
  | _ => none

/-- The ways a fiber `r'` that is at `x` after a step can have come about. -/
inductive FiberChange (E : Env) (k : Kernel) (x : Ptr) : Op → ℤ → Fiber → Prop
  | same {op : Op} {res : ℤ} {r : Fiber} (h : k.fiber x = some r)
      (hidle : op.touched E k res ≠ some x) :
      FiberChange E k x op res r
  | bumped {cur : Task} {id : PidT} {r : Fiber} (h : k.fiber x = some r) :
      FiberChange E k x (.call cur (.switchTo id)) (-1)
        { r with failedActivationCounter := r.failedActivationCounter + 1 }
  | left {cur : Task} {id : PidT} {r : Fiber} (hr : k.running E cur = some x)
      (h : k.fiber x = some r) :
      FiberChange E k x (.call cur (.switchTo id)) 0 (leftFiber (k.cpu cur) r)
  | taken {cur : Task} {id : PidT} {tp : Ptr} {r : Fiber} (hr : k.running E cur ≠ some x)
      (h : k.fiber x = some r) (ha : r.attachedThread = none) :
      FiberChange E k x (.call cur (.switchTo id)) 0 (takenFiber tp r)
  | fls {cur : Task} {c : Call} {r : Fiber} (hr : k.running E cur = some x)
      (h : k.fiber x = some r) (hc : c.isFls) :
      FiberChange E k x (.call cur c) (flsEffect c r).1 (flsEffect c r).2
  | orphaned {cur : Task} {r : Fiber} (hr : k.running E cur = some x) (h : k.fiber x = some r) :
      FiberChange E k x (.call cur .exit) 0 (orphanedFiber (k.cpu cur) r)
  | converted {cur : Task} {gp parent : Ptr} {i : PidT} (hnew : k.brk x.tgid ≤ x.serial) :
      FiberChange E k x (.call cur .convert) i.toInt
        (convertedFiber E cur gp x (k.cpu cur) parent i)
  | created {cur : Task} {parent : Ptr} {sp sz fn arg : Word} {id : PidT}
      (hnew : k.brk x.tgid ≤ x.serial) :
      FiberChange E k x (.call cur (.create sp sz fn arg)) id.toInt
        (createdFiber E cur x (k.cpu cur) parent sp sz fn arg id)

theorem Outcome.fiberChange {op : Op} {res : ℤ} {x : Ptr} {r' : Fiber}
    (h : Outcome E k op res k') (hx : k'.fiber x = some r') : FiberChange E k x op res r' := by
  cases h with
  | @refused cur c hn hc =>
    exact .same hx (by simp [Op.touched, hn.running_eq])
  | again | switchMissing | releaseNone | user =>
    exact .same hx (by simp [Op.touched, Call.touches])
  | @convertedFirst cur hn =>
    simp only [Kernel.converted, Function.update_apply] at hx
    split_ifs at hx with hnew
    · obtain rfl : _ = r' := by simpa using hx
      have hle : k.brk x.tgid ≤ x.serial := by
        subst hnew
        simp only [Kernel.withProcess, Function.update_self]
        omega
      subst hnew
      exact FiberChange.converted (i := 1) hle
    · exact .same hx (by simp [Op.touched, Call.touches])
  | @converted cur ep p hep hp ht =>
    simp only [Kernel.converted, Function.update_apply] at hx
    split_ifs at hx with hnew
    · obtain rfl : _ = r' := by simpa using hx
      subst hnew
      exact .converted (Nat.le_succ _)
    · exact .same hx (by simp [Op.touched, Call.touches])
  | @created cur ep tp f p t r sp sz fn arg hr =>
    simp only [Kernel.created, Kernel.withFiber, Function.update_apply] at hx
    split_ifs at hx with hnew
    · obtain rfl : _ = r' := by simpa using hx
      subst hnew
      exact .created (by simp [Kernel.nextPtr])
    · exact .same hx (by simp [Op.touched, Call.touches])
  | @switchBusy cur ep tp f g p t r rg id hr hid hg hl =>
    rw [Kernel.bumped, Kernel.modFiber_of_some hg] at hx
    by_cases hxg : x = g
    · subst hxg
      obtain rfl : _ = r' := by simpa using hx
      exact .bumped hg
    · exact .same (by simpa [hxg] using hx) (by simp [Op.touched, Call.touches])
  | @switched cur ep tp f g p t r rg id hr hid hg hl ha hne =>
    by_cases hxf : x = f
    · subst hxf
      obtain rfl : _ = r' := by simpa [Kernel.switched] using hx
      exact .left hr.running_eq hr.fiber_eq
    have hrun : k.running E cur ≠ some x := by simpa [hr.running_eq] using Ne.symm hxf
    by_cases hxg : x = g
    · subst hxg
      obtain rfl : _ = r' := by simpa [Kernel.switched, hxf] using hx
      exact .taken hrun hg ha
    · exact .same (by simpa [Kernel.switched, hxf, hxg] using hx)
        (by simpa [Op.touched, Call.touches] using hrun)
  | @fls cur ep tp f p t r c hr hc =>
    by_cases hxf : x = f
    · subst hxf
      obtain rfl : _ = r' := by simpa using hx
      exact .fls hr.running_eq hr.fiber_eq hc
    · refine .same (by simpa [hxf] using hx) ?_
      simp only [Op.touched, hr.running_eq]
      split_ifs <;> simp [Ne.symm hxf]
  | @detached cur ep tp f p t r hr hact =>
    by_cases hxf : x = f
    · subst hxf
      obtain rfl : _ = r' := by simpa [Kernel.detached] using hx
      exact .orphaned hr.running_eq hr.fiber_eq
    · exact .same (by simpa [Kernel.detached, hxf] using hx)
        (by simpa [Op.touched, Call.touches, hr.running_eq] using Ne.symm hxf)
  | @lastExit cur ep tp f p t r hr hact =>
    have hxm : x ∉ p.fibers := fun hm => by simp [Kernel.toreDown, hm] at hx
    have hxf : f ≠ x := by rintro rfl; exact hxm hr.fiber_mem
    exact .same (by simpa [Kernel.toreDown, hxm] using hx)
      (by simpa [Op.touched, Call.touches, hr.running_eq] using hxf)
  | @released cur ep p hep hp =>
    have hxm : x ∉ p.fibers := fun hm => by simp [Kernel.toreDown, hm] at hx
    exact .same (by simpa [Kernel.toreDown, hxm] using hx) (by simp [Op.touched])

/-- Addresses are only ever given out. -/
theorem Outcome.brk_le {op : Op} {res : ℤ} (h : Outcome E k op res k') (g : PidT) :
    k.brk g ≤ k'.brk g := by
  cases h with
  | @convertedFirst cur | @converted cur | @created cur =>
    by_cases hg : g = cur.tgid
    · subst hg; simp [Kernel.converted, Kernel.withProcess, Kernel.created, Kernel.withFiber]; try omega
    · simp [Kernel.converted, Kernel.withProcess, Kernel.created, Kernel.withFiber, hg]
  | _ => exact le_rfl

/-- A fiber keeps its id. -/
theorem Outcome.fiberKey_eq {op : Op} {res : ℤ} {x : Ptr} (hk : Shape E k)
    (h : Outcome E k op res k') (hx : (k.fiber x).isSome) (hx' : (k'.fiber x).isSome) :
    k'.fiberKey x = k.fiberKey x := by
  obtain ⟨r', hr'⟩ := Option.isSome_iff_exists.mp hx'
  have hlt := hk.freshFiber x hx
  have hchange := h.fiberChange hr'
  rw [Kernel.fiberKey, hr', Kernel.fiberKey]
  cases hchange with
  | same hold => rw [hold]
  | bumped hold | left _ hold | taken _ hold | orphaned _ hold => rw [hold]; rfl
  | @fls cur c r hr hold hc =>
    obtain ⟨bitmap, values, he⟩ := flsEffect_eq c r
    rw [hold, he]
    rfl
  | converted hnew | created hnew => omega

/-! ## What a step does to one process record -/

/-- The ways a process record `p'` that is at `x` after a step can have come
    about, as far as its fibers go. -/
inductive ProcessChange (E : Env) (k k' : Kernel) (x : Ptr) : Op → Process → Prop
  | kept {op : Op} {p p' : Process} (h : k.process x = some p) (hfibers : p'.fibers = p.fibers)
      (hlast : p'.lastFiberId = p.lastFiberId) : ProcessChange E k k' x op p'
  | grown {cur : Task} {c : Call} {f : Ptr} {p p' : Process}
      (h : k.processOf E cur.tgid = some (some x)) (hp : k.process x = some p)
      (hc : c = .convert ∨ ∃ sp sz fn arg, c = .create sp sz fn arg)
      (hfibers : p'.fibers = p.fibers.add (E.hash p.nextId) f)
      (hlast : p'.lastFiberId = p.lastFiberId + 1) (hnew : k.fiber f = none)
      (hkey : k'.fiberKey f = some p.nextId) : ProcessChange E k k' x (.call cur c) p'
  | born {cur : Task} {f : Ptr} {p' : Process} (hfibers : p'.fibers = HashTable.empty.add (E.hash 1) f)
      (hlast : p'.lastFiberId = 1) (hkey : k'.fiberKey f = some 1) :
      ProcessChange E k k' x (.call cur .convert) p'

theorem Outcome.processChange {op : Op} {res : ℤ} {x : Ptr} {p' : Process} (hk : Shape E k)
    (h : Outcome E k op res k') (hx : k'.process x = some p') : ProcessChange E k k' x op p' := by
  cases h with
  | refused | again | switchMissing | releaseNone | user | switchBusy | switched | fls =>
    exact .kept hx rfl rfl
  | @convertedFirst cur hn =>
    by_cases hxe : x = k.nextPtr cur.tgid
    · subst hxe
      obtain rfl : _ = p' := by simpa [Kernel.converted] using hx
      exact .born (f := ⟨cur.tgid, k.brk cur.tgid + 1 + 1⟩)
        (by simp [Process.withFiber, Process.withThread, Process.nextId, Kernel.withProcess])
        (by simp [Process.withFiber, Process.withThread])
        (by simp [Kernel.fiberKey, Kernel.converted, Kernel.withProcess, convertedFiber,
          initializedFiber, Process.nextId])
    · exact .kept (by simpa [Kernel.converted, Kernel.withProcess, hxe] using hx) rfl rfl
  | @converted cur ep p hep hp ht =>
    by_cases hxe : x = ep
    · subst hxe
      obtain rfl : _ = p' := by simpa [Kernel.converted] using hx
      exact .grown (f := ⟨cur.tgid, k.brk cur.tgid + 1⟩) hep hp (.inl rfl) rfl rfl
        (hk.fresh_fiber_none (Nat.le_succ _))
        (by simp [Kernel.fiberKey, Kernel.converted, convertedFiber, initializedFiber])
    · exact .kept (by simpa [Kernel.converted, hxe] using hx) rfl rfl
  | @created cur ep tp f p t r sp sz fn arg hr =>
    by_cases hxe : x = ep
    · subst hxe
      obtain rfl : _ = p' := by simpa [Kernel.created, Kernel.withFiber] using hx
      exact .grown (f := k.nextPtr cur.tgid) hr.process hr.process_eq (.inr ⟨sp, sz, fn, arg, rfl⟩) rfl rfl
        (hk.fresh_fiber_none le_rfl)
        (by simp [Kernel.fiberKey, Kernel.created, Kernel.withFiber, createdFiber, initializedFiber])
    · exact .kept (by simpa [Kernel.created, Kernel.withFiber, hxe] using hx) rfl rfl
  | @detached cur ep tp f p t r hr hact =>
    by_cases hxe : x = ep
    · subst hxe
      obtain rfl : _ = p' := by simpa [Kernel.detached] using hx
      exact .kept hr.process_eq rfl rfl
    · exact .kept (by simpa [Kernel.detached, hxe] using hx) rfl rfl
  | @lastExit cur ep tp f p t r hr hact =>
    have hxe : x ≠ ep := by rintro rfl; simp [Kernel.toreDown] at hx
    exact .kept (by simpa [Kernel.toreDown, hxe] using hx) rfl rfl
  | @released cur ep p hep hp =>
    have hxe : x ≠ ep := by rintro rfl; simp [Kernel.toreDown] at hx
    exact .kept (by simpa [Kernel.toreDown, hxe] using hx) rfl rfl

end AosvFibers
