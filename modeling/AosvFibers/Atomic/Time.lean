import AosvFibers.Lib.Ledger
import AosvFibers.Atomic.Fls
import AosvFibers.Atomic.Locks
import AosvFibers.Model.Timer

/-!
# User time charged to fibers

`do_SwitchToFiber` charges `current->utime` to the fiber the thread leaves, and
`fiber_timer` charges `prev->utime` to the fiber of the task that ran before.
`utime` is all the user time of a thread since it was created, so a second
charge for the same thread repeats the first one.

Threads run user code, make calls (they do not die) and are scheduled, in any
order. Beside the module a ledger keeps what the fibers should be charged: the
user time used by a thread for the fiber it has selected, entered when the
thread is accounted. A thread is accounted by its own successful switch, and by
`fiber_timer` when it ran before.

Result: `time_charged_once`, as long as a thread is accounted only while its
`utime` was 0 the last time.
-/

namespace AosvFibers

open Lib Stmt

variable {E : Env} {cur u : Task} {k k' : Kernel} {s s' : Sched} {c : CpuId}

/-! ## The system with its ledger -/

/-- The module and the ledger of user time. -/
structure TimeState extends Sched where
  ledger : Ledger Task Ptr

/-- What can happen in one step. -/
inductive TimeOp
  | user (cur : Task) (cpu : Cpu)
  | call (cur : Task) (c : Call)
  | sched (c : CpuId) (next : Task)

/-- The step as code. -/
def TimeOp.run (E : Env) (s : Sched) : TimeOp → Option (ℤ × Sched)
  | user cur cpu => some (0, { s with kernel := s.kernel.modCpu cur fun _ => cpu })
  | call cur c => (c.run E cur s.kernel).map fun r => (r.1, { s with kernel := r.2 })
  | sched c next => (fiberTimer E c next s).map fun s' => (0, s')

/-- `utime` only grows, and no thread dies. -/
def TimeOp.Allowed (k : Kernel) : TimeOp → Prop
  | user cur cpu => (k.cpu cur).utime.toNat ≤ cpu.utime.toNat
  | call _ c => c ≠ .exit
  | sched _ _ => True

/-- One step with the state before it and its result. -/
structure TimeEvent where
  pre : TimeState
  op : TimeOp
  result : ℤ

/-- The thread that is accounted in the step: it switched, or it ran before on a
    CPU that was switched to another task, and has a fiber. -/
def TimeEvent.accounts (E : Env) (e : TimeEvent) : Option Task :=
  match e.op with
  | .call cur (.switchTo _) => if e.result = 0 then some cur else none
  | .sched c _ => (e.pre.prevTask c).filter fun u => (e.pre.kernel.running E u).isSome
  | _ => none

/-- The user time of a thread. -/
def Kernel.utime (k : Kernel) (u : Task) : ℕ := (k.cpu u).utime.toNat

/-- The ledger after the step. -/
def TimeEvent.ledger (E : Env) (e : TimeEvent) : Ledger Task Ptr :=
  match e.op with
  | .user cur cpu =>
    match e.pre.kernel.running E cur with
    | none => e.pre.ledger
    | some f => e.pre.ledger.elapse cur f (cpu.utime.toNat - e.pre.kernel.utime cur)
  | .call cur .convert =>
    if (e.pre.kernel.running E cur).isNone then e.pre.ledger.start cur (e.pre.kernel.utime cur)
    else e.pre.ledger
  | _ =>
    match e.accounts E with
    | none => e.pre.ledger
    | some u => e.pre.ledger.settle u (e.pre.kernel.utime u)

/-- One step. -/
structure TimeStep (E : Env) (s : TimeState) (e : TimeEvent) (s' : TimeState) : Prop where
  pre : e.pre = s
  allowed : e.op.Allowed s.kernel
  run : e.op.run E s.toSched = some (e.result, s'.toSched)
  ledger : s'.ledger = e.ledger E

/-- The module just loaded. -/
def TimeState.boot (cpu : Task → Cpu) : TimeState where
  kernel := .boot cpu
  prevTask _ := none
  preempt _ := 0
  ledger := .empty

/-- `total_time` of the fiber at `f`. -/
def Kernel.totalTime (k : Kernel) (f : Ptr) : ℕ := ((k.fiber f).map fun r => r.totalTime.toNat).getD 0

/-- `utime` of the thread of process `p` whose record is at `t`. -/
def Kernel.utimeOf (k : Kernel) (p : Process) (t : Ptr) : ℕ :=
  ((k.thread t).map fun r => k.utime ⟨p.processId, r.threadId⟩).getD 0

/-- Every fiber was charged what the ledger says, and the fibers of a process not
    more than its threads have used. -/
structure TimeState.ChargedOnce (s : TimeState) : Prop where
  exact : ∀ f, s.kernel.totalTime f = s.ledger.accrued f
  bounded : ∀ pp p, s.kernel.process pp = some p →
    ((hashForEach p.fibers).map s.kernel.totalTime).sum ≤
      ((hashForEach p.threads).map (s.kernel.utimeOf p)).sum

/-- The condition on a step: if it accounts a thread, the `utime` of that thread
    was 0 when it was accounted last, or converted if it was not accounted yet, and
    the sum fits into `total_time`. -/
def TimeEvent.Due (E : Env) (e : TimeEvent) : Prop :=
  ∀ u, e.accounts E = some u → e.pre.ledger.mark u = 0 ∧
    ∀ f, e.pre.kernel.running E u = some f →
      e.pre.kernel.totalTime f + e.pre.kernel.utime u < 2 ^ 64

/-! ## What a call does to the times -/

/-- The ways a call can go, as far as times are concerned. -/
inductive TimeChange (E : Env) (k : Kernel) (cur : Task) (k' : Kernel) : Call → ℤ → Prop
  | quiet {c : Call} {res : ℤ} (htotal : k'.totalTime = k.totalTime)
      (hrun : ∀ u, k'.running E u = k.running E u)
      (hswitch : ∀ id, c = .switchTo id → res ≠ 0)
      (hconvert : c = .convert → (k.running E cur).isSome) : TimeChange E k cur k' c res
  | started {f : Ptr} {res : ℤ} (htotal : k'.totalTime = k.totalTime)
      (hbefore : k.running E cur = none) (hafter : k'.running E cur = some f) :
      TimeChange E k cur k' .convert res
  | settled {f g : Ptr} {r : Fiber} {id : PidT} (hbefore : k.running E cur = some f)
      (hr : k.fiber f = some r) (hafter : k'.running E cur = some g)
      (htotal : k'.totalTime = Function.update k.totalTime f (r.totalTime + (k.cpu cur).utime).toNat) :
      TimeChange E k cur k' (.switchTo id) 0

theorem Kernel.totalTime_of_some {f : Ptr} {r : Fiber} (h : k.fiber f = some r) :
    k.totalTime f = r.totalTime.toNat := by
  simp [Kernel.totalTime, h]

/-- A write to one fiber changes no other fiber's time. -/
theorem totalTime_update {f : Ptr} {r : Fiber}
    (h : k'.fiber = Function.update k.fiber f (some r)) :
    k'.totalTime = Function.update k.totalTime f r.totalTime.toNat := by
  funext x
  by_cases hx : x = f
  · subst hx
    simp [Kernel.totalTime, h]
  · simp [Kernel.totalTime, h, hx]

/-- A write to one fiber that keeps its time. -/
theorem totalTime_keep {f : Ptr} {r : Fiber} (h : k'.fiber = Function.update k.fiber f (some r))
    (hr : r.totalTime.toNat = k.totalTime f) : k'.totalTime = k.totalTime := by
  rw [totalTime_update h, hr, Function.update_eq_self]

theorem Outcome.utime_eq {res : ℤ} {c : Call} (h : Outcome E k (.call cur c) res k') :
    k'.utime = k.utime := by
  cases h with
  | @switched _ ep tp f g p t r rg id hr hid hg hl ha hne =>
    funext v
    by_cases hv : v = cur
    · subst hv
      simp [Kernel.utime, Kernel.switched]
    · simp [Kernel.utime, Kernel.switched, hv]
  | _ => rfl

theorem Outcome.timeChange {res : ℤ} {c : Call} (hk : Inv E k)
    (h : Outcome E k (.call cur c) res k') (hc : c ≠ .exit) : TimeChange E k cur k' c res := by
  have hk' := hk.step h
  -- no thread record is touched
  have hsame : k'.thread = k.thread → ∀ u, k'.running E u = k.running E u := by
    intro hthread u
    exact hk.running_congr hk' fun t r _ _ => by rw [hthread]
  cases h with
  | refused hn hconv =>
    refine .quiet rfl (fun _ => rfl) ?_ fun h => absurd h hconv
    intro id hid
    subst hid
    simp [Call.refused]
  | again hr =>
    refine .quiet rfl (fun _ => rfl) (fun id h => by cases h) fun _ => ?_
    rw [hr.running_eq]
    rfl
  | convertedFirst hn =>
    refine .started (totalTime_keep rfl ?_) (NotConverted.running_eq (.inl hn))
      (hk'.running_iff.mpr ⟨_, _, rfl, Function.update_self _ _ _, rfl, rfl⟩)
    have hnone := hk.fresh_fiber_none (x := ⟨cur.tgid, k.brk cur.tgid + 1 + 1⟩)
      (Nat.le_trans (Nat.le_succ _) (Nat.le_succ _))
    simp [Kernel.totalTime, Kernel.withProcess, hnone, convertedFiber, initializedFiber]
  | converted hep hp ht =>
    refine .started (totalTime_keep rfl ?_) (NotConverted.running_eq (.inr ⟨_, _, hep, hp, ht⟩))
      (hk'.running_iff.mpr ⟨_, _, rfl, Function.update_self _ _ _, rfl, rfl⟩)
    have hnone := hk.fresh_fiber_none (x := ⟨cur.tgid, k.brk cur.tgid + 1⟩) (Nat.le_succ _)
    simp [Kernel.totalTime, hnone, convertedFiber, initializedFiber]
  | created hr =>
    refine .quiet (totalTime_keep rfl ?_) (hsame rfl) (fun id h => by cases h) (fun h => by cases h)
    have hnone := hk.fresh_fiber_none (x := k.nextPtr cur.tgid) le_rfl
    simp [Kernel.totalTime, hnone, createdFiber, initializedFiber]
  | switchMissing hr hid =>
    exact .quiet rfl (fun _ => rfl) (fun id _ => by decide) (fun h => by cases h)
  | switchBusy hr hid hg hl =>
    refine .quiet ?_ (hsame rfl) (fun id _ => by decide) (fun h => by cases h)
    refine totalTime_keep (by rw [Kernel.bumped, Kernel.modFiber_of_some hg]) ?_
    exact (Kernel.totalTime_of_some hg).symm
  | @switched _ ep tp f g p t r rg id hr hid hg hl ha hne =>
    refine .settled hr.running_eq hr.fiber_eq (switched_running hr) ?_
    -- the fiber taken keeps its time
    have htaken : ({ k with fiber := Function.update k.fiber g (some (takenFiber tp rg)) } :
        Kernel).totalTime = k.totalTime :=
      totalTime_keep rfl (Kernel.totalTime_of_some hg).symm
    rw [← htaken]
    exact totalTime_update (f := f) (r := leftFiber (k.cpu cur) r) rfl
  | @fls _ ep tp f p t r c hr hfls =>
    obtain ⟨bitmap, values, he⟩ := flsEffect_eq c r
    refine .quiet (totalTime_keep rfl ?_) (hsame rfl) ?_ ?_
    · rw [he, Kernel.totalTime_of_some hr.fiber_eq]
    · intro id hid
      subst hid
      simp [Call.isFls] at hfls
    · intro hconv
      subst hconv
      simp [Call.isFls] at hfls
  | detached => exact absurd rfl hc
  | lastExit => exact absurd rfl hc

/-! ## What `fiber_timer` does -/

/-- The state after the `utime` of `u` was charged to the fiber at `f`. -/
def Kernel.charged (k : Kernel) (u : Task) (f : Ptr) : Kernel :=
  k.modFiber f fun r => { r with totalTime := r.totalTime + (k.cpu u).utime }

section Charged

variable {ep tp f : Ptr} {p : Process} {t : Thread} {r : Fiber}

theorem chargePrev_running (h : Running E k u ep p tp t f r) :
    chargePrev E u k = some (true, k.charged u f) := by
  simp only [chargePrev, K.bind_eq_some, findProcessByTgid_eq_some]
  refine ⟨_, _, ⟨h.process, rfl⟩, ?_⟩
  simp only [K.bind_eq_some, findThreadByPid_eq_some]
  refine ⟨_, _, ⟨p, h.process_eq, h.thread, rfl⟩, ?_⟩
  simp only [K.bind_eq_some, readThread_eq_some]
  refine ⟨_, _, ⟨h.thread_eq, rfl⟩, ?_⟩
  rw [h.selected]
  simp only [K.bind_eq_some]
  refine ⟨(), _, execAll_eq_some.mpr ⟨okAll_assigns _ (by simp [h.fiber_eq]), rfl⟩, ?_⟩
  rw [applyAll_assigns]
  rfl

theorem chargePrev_notConverted (h : NotConverted E k u) : ∃ put, chargePrev E u k = some (put, k) := by
  simp only [chargePrev, K.bind_eq_some, findProcessByTgid_eq_some]
  rcases h with h | ⟨ep, p, hep, hp, ht⟩
  · exact ⟨true, _, _, ⟨h, rfl⟩, rfl⟩
  · refine ⟨false, _, _, ⟨hep, rfl⟩, ?_⟩
    simp only [K.bind_eq_some, findThreadByPid_eq_some]
    exact ⟨_, _, ⟨p, hp, ht, rfl⟩, rfl⟩

theorem Inv.charged (hk : Inv E k) (hr : k.fiber f = some r) : Inv E (k.charged u f) := by
  refine hk.of_same ?_ rfl rfl rfl
  rw [Kernel.charged, Kernel.modFiber_of_some hr]
  exact hk.toShape.writeFiber hr rfl rfl rfl

theorem charged_totalTime (hr : k.fiber f = some r) : (k.charged u f).totalTime =
    Function.update k.totalTime f (r.totalTime + (k.cpu u).utime).toNat :=
  totalTime_update (f := f) (r := { r with totalTime := r.totalTime + (k.cpu u).utime })
    (by rw [Kernel.charged, Kernel.modFiber_of_some hr])

theorem charged_running (hk : Inv E k) (hr : k.fiber f = some r) (v : Task) :
    (k.charged u f).running E v = k.running E v :=
  hk.running_congr (hk.charged hr) fun _ _ _ _ => Iff.rfl

end Charged

/-- `fiber_timer` with no previous task. -/
theorem fiberTimer_none (E : Env) (cur : Task) (h : s.prevTask c = none) :
    ∃ s', fiberTimer E c cur s = some s' ∧ s'.kernel = s.kernel ∧
      s'.prevTask = Function.update s.prevTask c (some cur) := by
  unfold fiberTimer timePrev
  rw [h]
  exact ⟨_, rfl, rfl, rfl⟩

/-- `fiber_timer` with a previous task. -/
theorem fiberTimer_some {put : Bool} (cur : Task) (h : s.prevTask c = some u)
    (hcharge : chargePrev E u s.kernel = some (put, k')) :
    ∃ s', fiberTimer E c cur s = some s' ∧ s'.kernel = k' ∧
      s'.prevTask = Function.update s.prevTask c (some cur) := by
  unfold fiberTimer timePrev
  rw [h]
  simp only [hcharge]
  cases put with
  | true => exact ⟨_, rfl, rfl, rfl⟩
  | false => exact ⟨_, rfl, rfl, rfl⟩

/-- The ways `fiber_timer` can go. -/
theorem exists_fiberTimer (cur : Task) (hk : Inv E s.kernel) : ∃ s', fiberTimer E c cur s = some s' ∧
    s'.prevTask = Function.update s.prevTask c (some cur) ∧
    (((s.prevTask c).filter (fun u => (s.kernel.running E u).isSome) = none ∧
        s'.kernel = s.kernel) ∨
      ∃ u f r, s.prevTask c = some u ∧ s.kernel.running E u = some f ∧ s.kernel.fiber f = some r ∧
        s'.kernel = s.kernel.charged u f) := by
  cases hprev : s.prevTask c with
  | none =>
    obtain ⟨s', hrun, hkernel, htask⟩ := fiberTimer_none E cur hprev
    exact ⟨s', hrun, htask, .inl ⟨rfl, hkernel⟩⟩
  | some u =>
    rcases hk.toShape.running_or u with hn | ⟨ep, p, tp, t, f, r, hr⟩
    · obtain ⟨put, hput⟩ := chargePrev_notConverted hn
      obtain ⟨s', hrun, hkernel, htask⟩ := fiberTimer_some cur hprev hput
      exact ⟨s', hrun, htask, .inl ⟨by simp [hn.running_eq], hkernel⟩⟩
    · obtain ⟨s', hrun, hkernel, htask⟩ := fiberTimer_some cur hprev (chargePrev_running hr)
      exact ⟨s', hrun, htask, .inr ⟨u, f, r, rfl, hr.running_eq, hr.fiber_eq, hkernel⟩⟩

/-! ## The invariant -/

/-- The invariant of steps that are due. -/
structure TimeInv (E : Env) (s : TimeState) : Prop where
  inv : Inv E s.kernel
  exact : ∀ f, s.kernel.totalTime f = s.ledger.accrued f
  since : ∀ u f, s.kernel.running E u ≠ some f → s.ledger.since u f = 0
  elapsed : ∀ u f, s.kernel.running E u = some f →
    s.ledger.since u f + s.ledger.mark u = s.kernel.utime u
  idle : ∀ u, s.kernel.running E u = none → s.ledger.mark u = 0
  covered : s.ledger.Covered Task.tgid Ptr.tgid

namespace TimeInv

variable {S S' : TimeState}

theorem boot (cpu : Task → Cpu) : TimeInv E (.boot cpu) where
  inv := Inv.boot cpu
  exact _ := rfl
  since _ _ _ := rfl
  elapsed u f h := by
    obtain ⟨t, r, -, hr, -⟩ := (Inv.boot cpu).running_iff.mp h
    cases hr
  idle _ _ := rfl
  covered := .empty

/-- Nothing the ledger speaks about has changed. -/
theorem quiet (h : TimeInv E S) (hinv : Inv E S'.kernel) (hledger : S'.ledger = S.ledger)
    (htotal : S'.kernel.totalTime = S.kernel.totalTime)
    (hrun : ∀ u, S'.kernel.running E u = S.kernel.running E u)
    (hutime : ∀ u, S.kernel.running E u ≠ none → S'.kernel.utime u = S.kernel.utime u) :
    TimeInv E S' where
  inv := hinv
  exact f := by rw [htotal, hledger, h.exact]
  since u f := by
    rw [hrun, hledger]
    exact h.since u f
  elapsed u f hu := by
    rw [hrun] at hu
    rw [hledger, hutime u (by rw [hu]; exact fun hn => by cases hn)]
    exact h.elapsed u f hu
  idle u := by
    rw [hrun, hledger]
    exact h.idle u
  covered := by
    rw [hledger]
    exact h.covered

/-- A thread has used `d` more. -/
theorem elapse (h : TimeInv E S) {f : Ptr} {d : ℕ} (hinv : Inv E S'.kernel)
    (hledger : S'.ledger = S.ledger.elapse u f d)
    (htotal : S'.kernel.totalTime = S.kernel.totalTime)
    (hrun : ∀ v, S'.kernel.running E v = S.kernel.running E v) (hf : S.kernel.running E u = some f)
    (hutime : S'.kernel.utime = Function.update S.kernel.utime u (S.kernel.utime u + d)) :
    TimeInv E S' := by
  refine ⟨hinv, ?_, ?_, ?_, ?_, ?_⟩
  · intro x
    rw [htotal, hledger]
    exact h.exact x
  · intro v x hv
    rw [hrun] at hv
    rw [hledger, Ledger.elapse_since, h.since v x hv, if_neg]
    intro hvx
    exact hv (by rw [hvx.1, hvx.2, hf])
  · intro v x hv
    rw [hrun] at hv
    have hold := h.elapsed v x hv
    rw [hledger, hutime, Ledger.elapse_since]
    show _ + S.ledger.mark v = _
    by_cases hvu : v = u
    · subst hvu
      obtain rfl : f = x := Option.some.inj (hf.symm.trans hv)
      rw [if_pos ⟨rfl, rfl⟩, Function.update_self]
      omega
    · rw [if_neg fun hvx => hvu hvx.1, Function.update_of_ne hvu]
      exact hold
  · intro v hv
    rw [hrun] at hv
    rw [hledger]
    exact h.idle v hv
  · rw [hledger]
    exact h.covered.elapse d

/-- A thread is converted. -/
theorem start (h : TimeInv E S) {f : Ptr} (hinv : Inv E S'.kernel)
    (hledger : S'.ledger = S.ledger.start u (S.kernel.utime u))
    (htotal : S'.kernel.totalTime = S.kernel.totalTime)
    (hrun : ∀ v, v ≠ u → S'.kernel.running E v = S.kernel.running E v)
    (hbefore : S.kernel.running E u = none) (hafter : S'.kernel.running E u = some f)
    (hutime : S'.kernel.utime = S.kernel.utime) : TimeInv E S' := by
  refine ⟨hinv, ?_, ?_, ?_, ?_, ?_⟩
  · intro x
    rw [htotal, hledger]
    exact h.exact x
  · intro v x hv
    rw [hledger]
    refine h.since v x ?_
    by_cases hvu : v = u
    · rw [hvu, hbefore]
      exact fun hn => by cases hn
    · rwa [← hrun v hvu]
  · intro v x hv
    rw [hledger, hutime]
    by_cases hvu : v = u
    · subst hvu
      have hzero := h.since v x (by rw [hbefore]; exact fun hn => by cases hn)
      simp [Ledger.start, hzero]
    · have hold := h.elapsed v x (by rwa [← hrun v hvu])
      simpa [Ledger.start, hvu] using hold
  · intro v hv
    have hvu : v ≠ u := by
      intro he
      rw [he, hafter] at hv
      cases hv
    rw [hledger]
    simpa [Ledger.start, hvu] using h.idle v (by rwa [← hrun v hvu])
  · rw [hledger]
    exact h.covered.start (h.idle u hbefore)

/-- A thread is accounted for the first time since its `utime` was 0. -/
theorem settle (h : TimeInv E S) {f g : Ptr} {r : Fiber} (hinv : Inv E S'.kernel)
    (hledger : S'.ledger = S.ledger.settle u (S.kernel.utime u))
    (htotal : S'.kernel.totalTime =
      Function.update S.kernel.totalTime f (r.totalTime + (S.kernel.cpu u).utime).toNat)
    (hrun : ∀ v, v ≠ u → S'.kernel.running E v = S.kernel.running E v)
    (hbefore : S.kernel.running E u = some f) (hr : S.kernel.fiber f = some r)
    (hafter : S'.kernel.running E u = some g) (hutime : S'.kernel.utime = S.kernel.utime)
    (hmark : S.ledger.mark u = 0) (hfits : S.kernel.totalTime f + S.kernel.utime u < 2 ^ 64) :
    TimeInv E S' := by
  have hone : ∀ x, x ≠ f → S.ledger.since u x = 0 := by
    intro x hx
    refine h.since u x ?_
    rw [hbefore]
    exact fun he => hx (Option.some.inj he).symm
  -- the mark being 0, all of `utime` was used since
  have hall : S.ledger.since u f = S.kernel.utime u := by
    have := h.elapsed u f hbefore
    omega
  refine ⟨hinv, ?_, ?_, ?_, ?_, ?_⟩
  · intro x
    rw [htotal, hledger]
    show _ = S.ledger.accrued x + S.ledger.since u x
    by_cases hx : x = f
    · subst hx
      have hold := h.exact x
      rw [Kernel.totalTime_of_some hr] at hold hfits
      rw [Function.update_self, BitVec.toNat_add, ← hold, hall]
      exact Nat.mod_eq_of_lt hfits
    · rw [Function.update_of_ne hx, hone x hx, h.exact x, Nat.add_zero]
  · intro v x hv
    rw [hledger]
    by_cases hvu : v = u
    · rw [hvu, Ledger.settle_since_self]
    · rw [Ledger.settle_since_of_ne hvu]
      exact h.since v x (by rwa [← hrun v hvu])
  · intro v x hv
    rw [hledger, hutime]
    by_cases hvu : v = u
    · subst hvu
      rw [Ledger.settle_since_self]
      simp [Ledger.settle]
    · rw [Ledger.settle_since_of_ne hvu]
      simpa [Ledger.settle, hvu] using h.elapsed v x (by rwa [← hrun v hvu])
  · intro v hv
    have hvu : v ≠ u := by
      intro he
      rw [he, hafter] at hv
      cases hv
    rw [hledger]
    simpa [Ledger.settle, hvu] using h.idle v (by rwa [← hrun v hvu])
  · obtain ⟨ep, p, tp, t, r', hrunning⟩ := h.inv.toShape.running_of_eq hbefore
    have hgroup : f.tgid = u.tgid := by
      rw [hrunning.procOk.fiberTgid f hrunning.fiber_mem, hrunning.processId]
    rw [hledger]
    exact h.covered.settle hmark hgroup hone hall

end TimeInv

/-! ## Every step that is due keeps the invariant -/

theorem TimeEvent.ledger_quiet {e : TimeEvent} {c : Call} (hop : e.op = .call cur c)
    (hswitch : ∀ id, c = .switchTo id → e.result ≠ 0)
    (hconvert : c = .convert → (e.pre.kernel.running E cur).isSome) :
    e.ledger E = e.pre.ledger := by
  cases c with
  | convert =>
    obtain ⟨f, hf⟩ := Option.isSome_iff_exists.mp (hconvert rfl)
    simp [TimeEvent.ledger, hop, hf]
  | switchTo id => simp [TimeEvent.ledger, TimeEvent.accounts, hop, hswitch id rfl]
  | _ => simp [TimeEvent.ledger, TimeEvent.accounts, hop]

variable {S S' : TimeState} {e : TimeEvent}

theorem TimeEvent.accounts_sched {next : Task} (hop : e.op = .sched c next) : e.accounts E =
    (e.pre.prevTask c).filter fun u => (e.pre.kernel.running E u).isSome := by
  unfold TimeEvent.accounts
  rw [hop]

/-- User code. -/
theorem TimeInv.userStep {cpu : Cpu} (h : TimeInv E e.pre) (hop : e.op = .user cur cpu)
    (hle : e.pre.kernel.utime cur ≤ cpu.utime.toNat)
    (hkernel : S'.kernel = e.pre.kernel.modCpu cur fun _ => cpu)
    (hledger : S'.ledger = e.ledger E) : TimeInv E S' := by
  have hinv : Inv E S'.kernel := by
    rw [hkernel]
    exact h.inv.step .user
  have htotal : S'.kernel.totalTime = e.pre.kernel.totalTime := by
    rw [hkernel]
    rfl
  have hrun : ∀ u, S'.kernel.running E u = e.pre.kernel.running E u := by
    intro u
    exact h.inv.running_congr hinv fun t r _ _ => by rw [hkernel]; rfl
  have hutime : S'.kernel.utime = Function.update e.pre.kernel.utime cur cpu.utime.toNat := by
    funext v
    rw [hkernel]
    by_cases hv : v = cur
    · simp [Kernel.utime, hv]
    · simp [Kernel.utime, hv]
  unfold TimeEvent.ledger at hledger
  rw [hop] at hledger
  cases hcur : e.pre.kernel.running E cur with
  | none =>
    simp only [hcur] at hledger
    refine h.quiet hinv hledger htotal hrun ?_
    intro v hv
    have hne : v ≠ cur := by
      intro he
      rw [he] at hv
      exact hv hcur
    rw [hutime, Function.update_of_ne hne]
  | some f =>
    simp only [hcur] at hledger
    refine h.elapse hinv hledger htotal hrun hcur ?_
    rw [hutime, Nat.add_sub_cancel' hle]

/-- A call. -/
theorem TimeInv.callStep {c : Call} (h : TimeInv E e.pre) (hop : e.op = .call cur c) (hc : c ≠ .exit)
    (hrun : c.run E cur e.pre.kernel = some (e.result, S'.kernel)) (hledger : S'.ledger = e.ledger E)
    (hdue : e.Due E) : TimeInv E S' := by
  have hout : Outcome E e.pre.kernel (.call cur c) e.result S'.kernel :=
    h.inv.toShape.outcome_of_run hrun
  have hinv := h.inv.step hout
  have hutime := hout.utime_eq
  have hno : ¬ (Op.call cur c).tearsDown E e.pre.kernel := by
    cases c with
    | exit => exact absurd rfl hc
    | _ => exact id
  have hother : ∀ v, v ≠ cur → S'.kernel.running E v = e.pre.kernel.running E v :=
    fun v hv => hout.running_other h.inv hno hv
  have hchange := hout.timeChange h.inv hc
  generalize hres : e.result = res at hchange
  cases hchange with
  | quiet htotal hsame hswitch hconvert =>
    rw [TimeEvent.ledger_quiet hop (by rwa [hres]) hconvert] at hledger
    exact h.quiet hinv hledger htotal hsame fun u _ => by rw [hutime]
  | started htotal hbefore hafter =>
    refine h.start hinv ?_ htotal hother hbefore hafter hutime
    rw [hledger]
    simp [TimeEvent.ledger, hop, hbefore]
  | @settled f g r id hbefore hr hafter htotal =>
    have hacc : e.accounts E = some cur := by
      unfold TimeEvent.accounts
      rw [hop, hres]
      rfl
    obtain ⟨hmark, hfits⟩ := hdue cur hacc
    refine h.settle hinv ?_ htotal hother hbefore hr hafter hutime hmark (hfits f hbefore)
    rw [hledger]
    unfold TimeEvent.ledger
    rw [hop, hacc]

/-- A CPU is switched to another task. -/
theorem TimeInv.schedStep {next : Task} (h : TimeInv E e.pre) (hop : e.op = .sched c next)
    (hrun : fiberTimer E c next e.pre.toSched = some S'.toSched) (hledger : S'.ledger = e.ledger E)
    (hdue : e.Due E) : TimeInv E S' := by
  obtain ⟨s', hrun', -, hcase⟩ := exists_fiberTimer next h.inv
  obtain rfl : s' = S'.toSched := Option.some.inj (hrun'.symm.trans hrun)
  have hacc := TimeEvent.accounts_sched (E := E) hop
  unfold TimeEvent.ledger at hledger
  rw [hop] at hledger
  simp only [hacc] at hledger
  obtain ⟨hnone, hkernel⟩ | ⟨u, f, r, hprev, hbefore, hr, hkernel⟩ := hcase
  · rw [hnone] at hledger
    refine h.quiet ?_ hledger ?_ ?_ ?_
    · rw [hkernel]
      exact h.inv
    · rw [hkernel]
    · intro v
      rw [hkernel]
    · intro v _
      rw [hkernel]
  · have hsome : (e.pre.prevTask c).filter (fun u => (e.pre.kernel.running E u).isSome) = some u := by
      rw [hprev]
      simp [hbefore]
    rw [hsome] at hledger hacc
    obtain ⟨hmark, hfits⟩ := hdue u hacc
    have hrunning := charged_running (u := u) h.inv hr
    refine h.settle (g := f) ?_ hledger ?_ ?_ hbefore hr ?_ ?_ hmark (hfits f hbefore)
    · rw [hkernel]
      exact h.inv.charged hr
    · rw [hkernel]
      exact charged_totalTime hr
    · intro v _
      rw [hkernel]
      exact hrunning v
    · rw [hkernel, hrunning u, hbefore]
    · rw [hkernel]
      rfl

theorem TimeStep.user_inv {cpu : Cpu} (hs : TimeStep E S e S') (hop : e.op = .user cur cpu) :
    S.kernel.utime cur ≤ cpu.utime.toNat ∧ S'.kernel = S.kernel.modCpu cur fun _ => cpu := by
  obtain ⟨-, hallowed, hrun, -⟩ := hs
  rw [hop] at hrun hallowed
  obtain ⟨-, hsched⟩ : 0 = e.result ∧ _ = S'.toSched := by simpa [TimeOp.run] using hrun
  exact ⟨hallowed, (congrArg Sched.kernel hsched).symm⟩

theorem TimeStep.call_inv {c : Call} (hs : TimeStep E S e S') (hop : e.op = .call cur c) :
    c ≠ .exit ∧ c.run E cur S.kernel = some (e.result, S'.kernel) := by
  obtain ⟨-, hallowed, hrun, -⟩ := hs
  rw [hop] at hrun hallowed
  obtain ⟨⟨res, k'⟩, hcall, heq⟩ := Option.map_eq_some_iff.mp hrun
  obtain ⟨rfl, hsched⟩ : res = e.result ∧ _ = S'.toSched := by simpa using heq
  obtain rfl : k' = S'.kernel := congrArg Sched.kernel hsched
  exact ⟨hallowed, hcall⟩

theorem TimeStep.sched_inv {next : Task} (hs : TimeStep E S e S') (hop : e.op = .sched c next) :
    fiberTimer E c next S.toSched = some S'.toSched := by
  have hrun := hs.run
  rw [hop] at hrun
  obtain ⟨s', htimer, heq⟩ := Option.map_eq_some_iff.mp hrun
  obtain ⟨-, rfl⟩ : 0 = e.result ∧ s' = S'.toSched := by simpa using heq
  exact htimer

theorem TimeInv.step (h : TimeInv E S) (hs : TimeStep E S e S') (hdue : e.Due E) : TimeInv E S' := by
  obtain rfl := hs.pre
  cases hop : e.op with
  | user cur cpu =>
    obtain ⟨hle, hkernel⟩ := hs.user_inv hop
    exact h.userStep hop hle hkernel hs.ledger
  | call cur c =>
    obtain ⟨hc, hcall⟩ := hs.call_inv hop
    exact h.callStep hop hc hcall hs.ledger hdue
  | sched c next => exact h.schedStep hop (hs.sched_inv hop) hs.ledger hdue

/-! ## The times of a process -/

/-- The thread of process `p` whose record is at `t`. -/
def Kernel.taskOf (k : Kernel) (p : Process) (t : Ptr) : Task := ⟨p.processId, (k.threadKey t).getD 0⟩

section Process

variable {pp t : Ptr} {p : Process}

theorem taskOf_running (hk : Inv E k) (hok : ProcOk E k pp p) (ht : t ∈ p.threads) :
    ∃ f, k.running E (k.taskOf p t) = some f := by
  obtain ⟨r, hr⟩ := hok.thread_exists ht
  obtain ⟨f, -, hsel, -⟩ := hok.selected t ht
  refine ⟨f, hk.running_iff.mpr ⟨t, r, hok.threadTgid t ht, hr, ?_, ?_⟩⟩
  · simp [Kernel.taskOf, Kernel.threadKey, hr]
  · simpa [Kernel.selected, hr] using hsel

theorem taskOf_injOn (hok : ProcOk E k pp p) :
    ∀ t ∈ p.threads, ∀ t' ∈ p.threads, k.taskOf p t = k.taskOf p t' → t = t' := by
  intro t ht t' ht' h
  obtain ⟨r, hr⟩ := hok.thread_exists ht
  obtain ⟨r', hr'⟩ := hok.thread_exists ht'
  refine hok.threadsInj t ht t' ht' ?_
  have hid := congrArg Task.pid h
  simp only [Kernel.taskOf, Kernel.threadKey, hr, hr', Option.map_some, Option.getD_some] at hid ⊢
  rw [hid]

/-- A thread of the process that runs a fiber has a record in its table. -/
theorem exists_taskOf {f : Ptr} (hk : Inv E k) (hp : k.process pp = some p)
    (hu : u.tgid = p.processId) (hrun : k.running E u = some f) :
    ∃ t ∈ p.threads, k.taskOf p t = u := by
  have hok := hk.procOk hp
  obtain ⟨ep, p', tp, tr, r, hr⟩ := hk.toShape.running_of_eq hrun
  have hfound := hk.processOf_iff (g := u.tgid) (x := pp).mpr ⟨by rw [hok.self, hu], by simp [hp]⟩
  obtain rfl : pp = ep := Option.some.inj (Option.some.inj (hfound.symm.trans hr.process))
  obtain rfl : p = p' := Option.some.inj (hp.symm.trans hr.process_eq)
  refine ⟨tp, hr.thread_mem, Task.eq_of hu.symm ?_⟩
  simp [Kernel.taskOf, Kernel.threadKey, hr.thread_eq, hr.threadId]

theorem utimeOf_eq (hok : ProcOk E k pp p) (ht : t ∈ p.threads) :
    k.utimeOf p t = k.utime (k.taskOf p t) := by
  obtain ⟨r, hr⟩ := hok.thread_exists ht
  simp [Kernel.utimeOf, Kernel.taskOf, Kernel.threadKey, hr]

/-- The fibers of a process were charged at most what its threads have used. -/
theorem TimeInv.bounded (h : TimeInv E S) (hp : S.kernel.process pp = some p) :
    ((hashForEach p.fibers).map S.kernel.totalTime).sum ≤
      ((hashForEach p.threads).map (S.kernel.utimeOf p)).sum := by
  have hok := h.inv.procOk hp
  rw [← List.sum_toFinset _ (nodup_hashForEach hok.fibersWF),
    ← List.sum_toFinset _ (nodup_hashForEach hok.threadsWF)]
  calc ∑ f ∈ (hashForEach p.fibers).toFinset, S.kernel.totalTime f
      = ∑ f ∈ (hashForEach p.fibers).toFinset, S.ledger.accrued f :=
        Finset.sum_congr rfl fun f _ => h.exact f
    _ ≤ ∑ u ∈ (hashForEach p.threads).toFinset.image (S.kernel.taskOf p), S.ledger.mark u := by
        refine h.covered p.processId _ _ ?_ ?_
        · intro f hf
          exact hok.fiberTgid f (by simpa using hf)
        · intro u hu hmark
          obtain ⟨f, hf⟩ := Option.ne_none_iff_exists'.mp fun hn => hmark (h.idle u hn)
          obtain ⟨t, ht, htu⟩ := exists_taskOf h.inv hp hu hf
          exact Finset.mem_image.mpr ⟨t, by simpa using ht, htu⟩
    _ = ∑ t ∈ (hashForEach p.threads).toFinset, S.ledger.mark (S.kernel.taskOf p t) := by
        refine Finset.sum_image ?_
        intro t ht t' ht' htt
        exact taskOf_injOn hok t (by simpa using ht) t' (by simpa using ht') htt
    _ ≤ ∑ t ∈ (hashForEach p.threads).toFinset, S.kernel.utimeOf p t := by
        refine Finset.sum_le_sum ?_
        intro t ht
        have htm : t ∈ p.threads := by simpa using ht
        obtain ⟨f, hf⟩ := taskOf_running h.inv hok htm
        have := h.elapsed _ f hf
        rw [utimeOf_eq hok htm]
        omega

end Process

/-! ## A step that is not due -/

/-- A thread that is accounted when it is not due is charged too much, or the sum
    does not fit. -/
theorem TimeInv.due_of_settle (h : TimeInv E S) {f : Ptr} {r : Fiber}
    (hbefore : S.kernel.running E u = some f) (hr : S.kernel.fiber f = some r)
    (hledger : S'.ledger = S.ledger.settle u (S.kernel.utime u))
    (htotal : S'.kernel.totalTime =
      Function.update S.kernel.totalTime f (r.totalTime + (S.kernel.cpu u).utime).toNat)
    (hexact : S'.kernel.totalTime f = S'.ledger.accrued f) :
    S.ledger.mark u = 0 ∧ ∀ x, S.kernel.running E u = some x →
      S.kernel.totalTime x + S.kernel.utime u < 2 ^ 64 := by
  have hused := h.elapsed u f hbefore
  have hold := h.exact f
  have hlt : S.kernel.utime u < 2 ^ 64 := (S.kernel.cpu u).utime.isLt
  have hsum : (r.totalTime + (S.kernel.cpu u).utime).toNat =
      (S.kernel.totalTime f + S.kernel.utime u) % 2 ^ 64 := by
    rw [BitVec.toNat_add, Kernel.totalTime_of_some hr]
    rfl
  rw [htotal, hledger, Function.update_self, hsum] at hexact
  change _ = S.ledger.accrued f + S.ledger.since u f at hexact
  have hfits : S.kernel.totalTime f < 2 ^ 64 := by
    rw [Kernel.totalTime_of_some hr]
    exact r.totalTime.isLt
  refine ⟨by omega, ?_⟩
  intro x hx
  obtain rfl : f = x := Option.some.inj (hbefore.symm.trans hx)
  omega

theorem TimeInv.due_of_exact (h : TimeInv E S) (hs : TimeStep E S e S')
    (hexact : ∀ f, S'.kernel.totalTime f = S'.ledger.accrued f) : e.Due E := by
  obtain rfl := hs.pre
  intro u hacc
  cases hop : e.op with
  | user cur cpu => simp [TimeEvent.accounts, hop] at hacc
  | call cur c =>
    obtain ⟨hc, hcall⟩ := hs.call_inv hop
    cases c with
    | switchTo id =>
      obtain ⟨hzero, rfl⟩ : e.result = 0 ∧ cur = u := by
        simpa [TimeEvent.accounts, hop] using hacc
      have hout : Outcome E e.pre.kernel (.call cur (.switchTo id)) e.result S'.kernel :=
        h.inv.toShape.outcome_of_run hcall
      have hchange := hout.timeChange h.inv hc
      rw [hzero] at hchange
      cases hchange with
      | quiet _ _ hswitch => exact absurd rfl (hswitch id rfl)
      | @settled f g r _ hbefore hr _ htotal =>
        refine h.due_of_settle hbefore hr ?_ htotal (hexact f)
        rw [hs.ledger]
        simp only [TimeEvent.ledger, hop, hacc]
    | _ => simp [TimeEvent.accounts, hop] at hacc
  | sched c next =>
    have hledger : S'.ledger = e.pre.ledger.settle u (e.pre.kernel.utime u) := by
      rw [hs.ledger]
      simp only [TimeEvent.ledger, hop, hacc]
    rw [TimeEvent.accounts_sched hop] at hacc
    obtain ⟨s', hrun, -, hcase⟩ := exists_fiberTimer next h.inv
    obtain rfl : s' = S'.toSched := Option.some.inj (hrun.symm.trans (hs.sched_inv hop))
    obtain ⟨hnone, -⟩ | ⟨v, f, r, hprev, hbefore, hr, hkernel⟩ := hcase
    · rw [hnone] at hacc
      cases hacc
    · obtain ⟨rfl, -⟩ : v = u ∧ _ := by simpa [hprev] using hacc
      refine h.due_of_settle hbefore hr hledger ?_ (hexact f)
      rw [hkernel]
      exact charged_totalTime hr

/-! ## Whole runs -/

theorem TimeInv.chargedOnce (h : TimeInv E S) : S.ChargedOnce :=
  ⟨h.exact, fun _ _ hp => h.bounded hp⟩

theorem TimeInv.of_run {cpu : Task → Cpu} {es : List TimeEvent}
    (h : Run (TimeStep E) (.boot cpu) es S) (hdue : ∀ e ∈ es, e.Due E) : TimeInv E S := by
  induction h with
  | nil => exact .boot cpu
  | snoc _ hs ih =>
    exact (ih fun e he => hdue e (by simp [he])).step hs (hdue _ (by simp))

/-- In every state of a run the fibers have been charged exactly the user time
    that threads used for them up to their last accounting, and the fibers of a
    process not more than its threads have used, if and only if every step of the
    run is due. -/
theorem time_charged_once_iff {cpu : Task → Cpu} {es : List TimeEvent}
    (h : Run (TimeStep E) (.boot cpu) es S) :
    ((∀ e ∈ es, e.pre.ChargedOnce) ∧ S.ChargedOnce) ↔ ∀ e ∈ es, e.Due E := by
  induction h with
  | nil =>
    constructor
    · intro _ e he
      simp at he
    · intro _
      exact ⟨fun e he => by simp at he, (TimeInv.boot (E := E) cpu).chargedOnce⟩
  | @snoc ls S₁ S₂ e hrun hs ih =>
    have hpre : e.pre = S₁ := hs.pre
    constructor
    · rintro ⟨hbefore, hafter⟩
      have hdue := ih.mp ⟨fun x hx => hbefore x (by simp [hx]), hpre ▸ hbefore e (by simp)⟩
      intro x hx
      obtain hx | hx : x ∈ ls ∨ x = e := by simpa using hx
      · exact hdue x hx
      · rw [hx]
        exact (TimeInv.of_run hrun hdue).due_of_exact hs hafter.exact
    · intro hdue
      have hdue₁ : ∀ x ∈ ls, x.Due E := fun x hx => hdue x (by simp [hx])
      have hinv := TimeInv.of_run hrun hdue₁
      refine ⟨?_, (hinv.step hs (hdue e (by simp))).chargedOnce⟩
      intro x hx
      obtain hx | hx : x ∈ ls ∨ x = e := by simpa using hx
      · exact (ih.mpr hdue₁).1 x hx
      · rw [hx, hpre]
        exact hinv.chargedOnce

/-! ## A thread that is scheduled -/

theorem TimeEvent.due_of_none (h : e.accounts E = none) : e.Due E := by
  intro u hu
  rw [h] at hu
  cases hu

/-- A CPU can always be switched to another task. -/
theorem TimeInv.exists_sched (h : TimeInv E S) (c : CpuId) (next : Task) :
    ∃ S', TimeStep E S ⟨S, .sched c next, 0⟩ S' ∧
      S'.prevTask = Function.update S.prevTask c (some next) ∧
      (∀ v, S'.kernel.running E v = S.kernel.running E v) ∧ S'.kernel.utime = S.kernel.utime := by
  obtain ⟨s', hrun, hprev, hcase⟩ := exists_fiberTimer next h.inv
  refine ⟨⟨s', TimeEvent.ledger E ⟨S, .sched c next, 0⟩⟩,
    ⟨rfl, trivial, by simp [TimeOp.run, hrun], rfl⟩, hprev, ?_, ?_⟩
  · intro v
    obtain ⟨-, hkernel⟩ | ⟨u, f, r, -, -, hr, hkernel⟩ := hcase
    · rw [hkernel]
    · rw [hkernel]
      exact charged_running h.inv hr v
  · obtain ⟨-, hkernel⟩ | ⟨u, f, r, -, -, hr, hkernel⟩ := hcase
    · rw [hkernel]
    · rw [hkernel]
      rfl

/-- A thread can run user code until its `utime` is `n`. -/
theorem TimeInv.exists_user (h : TimeInv E S) {f : Ptr} (hf : S.kernel.running E u = some f) (n : Word)
    (hle : S.kernel.utime u ≤ n.toNat) : ∃ S',
      TimeStep E S ⟨S, .user u { S.kernel.cpu u with utime := n }, 0⟩ S' ∧ S'.prevTask = S.prevTask ∧
      (∀ v, S'.kernel.running E v = S.kernel.running E v) ∧ S'.kernel.utime u = n.toNat ∧
      S'.ledger = S.ledger.elapse u f (n.toNat - S.kernel.utime u) := by
  refine ⟨⟨{ S.toSched with kernel := S.kernel.modCpu u fun _ => { S.kernel.cpu u with utime := n } },
    S.ledger.elapse u f (n.toNat - S.kernel.utime u)⟩, ⟨rfl, hle, rfl, ?_⟩, rfl, ?_, ?_, rfl⟩
  · simp only [TimeEvent.ledger, hf]
  · intro v
    exact h.inv.running_congr (h.inv.step .user) fun _ _ _ _ => Iff.rfl
  · simp [Kernel.utime]

theorem accounts_of_running {f : Ptr} {next : Task} (hprev : S.prevTask c = some u)
    (hf : S.kernel.running E u = some f) :
    TimeEvent.accounts E ⟨S, .sched c next, 0⟩ = some u := by
  rw [TimeEvent.accounts_sched rfl, hprev]
  simp [hf]

theorem accounts_of_idle {next : Task} (hprev : ∀ u, S.prevTask c = some u →
    S.kernel.running E u = none) : TimeEvent.accounts E ⟨S, .sched c next, 0⟩ = none := by
  rw [TimeEvent.accounts_sched rfl, Option.filter_eq_none_iff]
  intro u hu
  simp [hprev u hu]

/-- The ledger is left alone when a CPU is switched from a task without a fiber. -/
theorem ledger_of_idle {next : Task}
    (h : TimeEvent.accounts E ⟨S, .sched c next, 0⟩ = none) :
    TimeEvent.ledger E ⟨S, .sched c next, 0⟩ = S.ledger := by
  simp only [TimeEvent.ledger, h]

/-- The first conversion of a thread that has used no user time. -/
theorem exists_converted (E : Env) (u : Task) : ∃ S f,
    TimeStep E (.boot fun _ => .zero) ⟨.boot fun _ => .zero, .call u .convert, 1⟩ S ∧
      (∀ c, S.prevTask c = none) ∧ S.kernel.running E u = some f ∧
      (∀ v : Task, v.tgid ≠ u.tgid → S.kernel.running E v = none) ∧ S.kernel.utime u = 0 ∧
      S.ledger.mark u = 0 ∧ S.ledger.accrued f = 0 := by
  have hinv := (Reachable.firstConverted E u fun _ => .zero).inv
  have hc := firstConverted_caller E u fun _ => .zero
  obtain ⟨f, r, hr⟩ := hinv.toShape.running_of_caller hc
  refine ⟨⟨⟨Kernel.firstConverted E u fun _ => .zero, fun _ => none, fun _ => 0⟩,
    Ledger.empty.start u 0⟩, f, ⟨rfl, ?_, ?_, ?_⟩, fun _ => rfl, hr.running_eq, ?_, rfl, ?_, rfl⟩
  · exact fun hn => by cases hn
  · show (Call.run E u .convert (Kernel.boot fun _ => .zero)).map _ = _
    rw [firstConverted_run]
    rfl
  · have hnone : (TimeState.boot fun _ => .zero).kernel.running E u = none :=
      NotConverted.running_eq (.inl rfl)
    simp only [TimeEvent.ledger, hnone]
    rfl
  · intro v hv
    have hboot : Inv E (Kernel.boot fun _ => .zero) := Inv.boot _
    have hout : Outcome E (Kernel.boot fun _ => .zero) (.call u .convert) 1 _ :=
      hboot.toShape.outcome_of_run (firstConverted_run E u _)
    have hother := hout.running_other (u := v) hboot (fun hn => hn) fun hvu => hv (by rw [hvu]; rfl)
    exact hother.trans (NotConverted.running_eq (.inl rfl))
  · simp [Ledger.start]

/-- A thread that is converted with `utime` 0 runs for a while on a CPU, which is
    then switched to a thread of another process. -/
theorem exists_scheduled (E : Env) {u v : Task} (huv : v.tgid ≠ u.tgid) :
    ∃ es S f, Run (TimeStep E) (.boot fun _ => .zero) es S ∧ (∀ e ∈ es, e.Due E) ∧
      S.prevTask 0 = some v ∧ S.kernel.running E u = some f ∧ S.kernel.running E v = none ∧
      S.ledger.mark u = 1 ∧ S.kernel.totalTime f = 1 := by
  obtain ⟨S₁, f, hs₁, hprev₁, hu₁, hv₁, hutime₁, hmark₁, haccrued₁⟩ := exists_converted E u
  have hinv₁ := (TimeInv.boot fun _ => .zero).step hs₁ (TimeEvent.due_of_none rfl)
  -- the CPU is switched to the thread
  obtain ⟨S₂, hs₂, hprev₂, hrun₂, hutime₂⟩ := hinv₁.exists_sched 0 u
  have hnone : TimeEvent.accounts E ⟨S₁, .sched 0 u, 0⟩ = none :=
    accounts_of_idle fun w hw => by rw [hprev₁ 0] at hw; cases hw
  have hinv₂ := hinv₁.step hs₂ (TimeEvent.due_of_none hnone)
  have hledger₂ : S₂.ledger = S₁.ledger := hs₂.ledger.trans (ledger_of_idle hnone)
  have hu₂ : S₂.kernel.running E u = some f := (hrun₂ u).trans hu₁
  -- it runs user code
  obtain ⟨S₃, hs₃, hprev₃, hrun₃, hutime₃, hledger₃⟩ := hinv₂.exists_user hu₂ 1
    (by rw [hutime₂, hutime₁]; decide)
  have hinv₃ := hinv₂.step hs₃ (TimeEvent.due_of_none rfl)
  have hu₃ : S₃.kernel.running E u = some f := (hrun₃ u).trans hu₂
  have hmark₃ : S₃.ledger.mark u = 0 := by
    rw [hledger₃, hledger₂]
    exact hmark₁
  have haccrued₃ : S₃.ledger.accrued f = 0 := by
    rw [hledger₃, hledger₂]
    exact haccrued₁
  -- and the CPU is switched away from it
  obtain ⟨S₄, hs₄, hprev₄, hrun₄, -⟩ := hinv₃.exists_sched 0 v
  have hsome : TimeEvent.accounts E ⟨S₃, .sched 0 v, 0⟩ = some u :=
    accounts_of_running (by rw [hprev₃, hprev₂, Function.update_self]) hu₃
  have hdue₄ : TimeEvent.Due E ⟨S₃, .sched 0 v, 0⟩ := by
    intro w hw
    obtain rfl : u = w := Option.some.inj (hsome.symm.trans hw)
    refine ⟨hmark₃, ?_⟩
    intro x hx
    obtain rfl : f = x := Option.some.inj (hu₃.symm.trans hx)
    show S₃.kernel.totalTime f + S₃.kernel.utime u < 2 ^ 64
    rw [hinv₃.exact, haccrued₃, hutime₃]
    decide
  have hinv₄ := hinv₃.step hs₄ hdue₄
  have hledger₄ : S₄.ledger = S₃.ledger.settle u (S₃.kernel.utime u) := by
    rw [hs₄.ledger]
    simp only [TimeEvent.ledger, hsome]
  refine ⟨_, S₄, f, .snoc (.snoc (.snoc (.single hs₁) hs₂) hs₃) hs₄, ?_, ?_, (hrun₄ u).trans hu₃, ?_,
    ?_, ?_⟩
  · intro e he
    obtain rfl | rfl | rfl | rfl : e = _ ∨ e = _ ∨ e = _ ∨ e = _ := by simpa using he
    · exact TimeEvent.due_of_none rfl
    · exact TimeEvent.due_of_none hnone
    · exact TimeEvent.due_of_none rfl
    · exact hdue₄
  · rw [hprev₄, Function.update_self]
  · rw [hrun₄, hrun₃, hrun₂]
    exact hv₁ v huv
  · rw [hledger₄, hutime₃]
    simp [Ledger.settle]
  · have hused := hinv₃.elapsed u f hu₃
    rw [hmark₃, hutime₃] at hused
    rw [hinv₄.exact, hledger₄]
    show S₃.ledger.accrued f + S₃.ledger.since u f = 1
    rw [haccrued₃]
    simpa using hused

/-- The thread's user time is charged to its fiber. -/
theorem time_charged_once_scheduled : ∃ es S f,
    Run (TimeStep (.linux 240)) (.boot fun _ => .zero) es S ∧ S.ChargedOnce ∧
      S.kernel.running (.linux 240) ⟨7, 7⟩ = some f ∧ S.kernel.totalTime f = 1 := by
  obtain ⟨es, S, f, hrun, hdue, -, hf, -, -, htotal⟩ :=
    exists_scheduled (.linux 240) (u := ⟨7, 7⟩) (v := ⟨8, 8⟩) (by decide)
  exact ⟨es, S, f, hrun, ((time_charged_once_iff hrun).mpr hdue).2, hf, htotal⟩

/-- The thread is scheduled once more and uses no user time: what it used before is
    charged to its fiber again. -/
theorem exists_chargedTwice (E : Env) {u v : Task} (huv : v.tgid ≠ u.tgid) : ∃ es S,
    Run (TimeStep E) (.boot fun _ => .zero) es S ∧ ¬ S.ChargedOnce := by
  obtain ⟨es, S, f, hrun, hdue, hprev, hf, hv, hmark, -⟩ := exists_scheduled E huv
  have hinv := TimeInv.of_run hrun hdue
  obtain ⟨S₁, hs₁, hprev₁, hrunning₁, -⟩ := hinv.exists_sched 0 u
  -- the thread that ran before has no fiber
  have hnone : TimeEvent.accounts E ⟨S, .sched 0 u, 0⟩ = none := by
    refine accounts_of_idle ?_
    intro w hw
    obtain rfl : v = w := Option.some.inj (hprev.symm.trans hw)
    exact hv
  have hinv₁ := hinv.step hs₁ (TimeEvent.due_of_none hnone)
  have hmark₁ : S₁.ledger.mark u = 1 := by
    rw [hs₁.ledger, ledger_of_idle hnone]
    exact hmark
  obtain ⟨S₂, hs₂, -⟩ := hinv₁.exists_sched 0 v
  refine ⟨_, S₂, .snoc (.snoc hrun hs₁) hs₂, ?_⟩
  intro hcharged
  have hsome : TimeEvent.accounts E ⟨S₁, .sched 0 v, 0⟩ = some u :=
    accounts_of_running (by rw [hprev₁, Function.update_self]) ((hrunning₁ u).trans hf)
  have hzero : S₁.ledger.mark u = 0 := (hinv₁.due_of_exact hs₂ hcharged.exact u hsome).1
  omega

theorem time_charged_twice : ∃ es S,
    Run (TimeStep (.linux 240)) (.boot fun _ => .zero) es S ∧ ¬ S.ChargedOnce :=
  exists_chargedTwice (.linux 240) (u := ⟨7, 7⟩) (v := ⟨8, 8⟩) (by decide)

end AosvFibers
