import AosvFibers.Interleaved.Simulation

/-!
# Concurrent switching, one step at a time

`SwitchStep` is the system in which the converted threads of a process switch,
use their local storage and die, statement by statement in any order, while one
of them stays alive. `Spec` is what it is compared with: successful switches,
FLS operations and deaths in one step each, and failed switches that do no more
than count the failure.

* `Sim.advance`: every step of the interleaved system is matched by at most one
  step of `Spec`, and what threads own and see moves along (`Advance`).
* `Sim.progress`: a thread inside a call is never stuck.
-/

namespace AosvFibers

open Lib Stmt

/-! ## The system and what is observed of it -/

/-- The id and the fiber whose lock the next statement of `u` takes. -/
def Conf.acquires (s : Conf) (u : PidT) : Option (PidT × Ptr) :=
  match s.pc u with
  | .trylock id _ f => if s.st.locked f then none else some (id, f)
  | _ => none

/-- The fiber whose lock the next statement of `u` releases. -/
def Conf.releases (s : Conf) (u : PidT) : Option Ptr :=
  match s.pc u with
  | .run (.fiber x .unlock :: _) _ => some x
  | _ => none

/-- What user code sees of a step: the results of calls, and its own doing. -/
def Act.visible : Act → List Act
  | .finish c v => [.finish c v]
  | .user cpu => [.user cpu]
  | .start _ | .stmt => []

/-- What user code of the thread `u` sees of a run. -/
def seen (ms : List Move) (u : PidT) : List Act :=
  (ms.filter fun m => m.thread = u).flatMap fun m => m.act.visible

/-! ## The atomic system -/

/-- The fiber a switch to `id` is after. -/
def Kernel.targetOf (E : Env) (k : Kernel) (g id : PidT) : Option Ptr :=
  (k.processOf E g).join.bind fun ep => (k.lookup E ep id).join

/-- A failed switch: its target's counter is one up, if it has a target. -/
def Kernel.missed (E : Env) (k : Kernel) (g id : PidT) : Kernel :=
  (k.targetOf E g id).elim k k.bumped

/-- The calls of the threads of process `g` in one step each, under the labels of
    the returns that end them. -/
inductive Spec (E : Env) (g : PidT) (k : Kernel) : PidT × Act → Kernel → Prop
  | switched {u id : PidT} {k' : Kernel} (h : (Call.switchTo id).run E ⟨g, u⟩ k = some (0, k')) :
      Spec E g k (u, .finish (.switchTo id) 0) k'
  | failed (u id : PidT) : Spec E g k (u, .finish (.switchTo id) (-1)) (k.missed E g id)
  | fls {u : PidT} {c : Call} {v : ℤ} {k' : Kernel} (hc : c.isFls)
      (h : c.run E ⟨g, u⟩ k = some (v, k')) : Spec E g k (u, .finish c v) k'
  | died {u : PidT} {k' : Kernel} (h : Call.exit.run E ⟨g, u⟩ k = some (0, k')) :
      Spec E g k (u, .finish .exit 0) k'
  | user (u : PidT) (cpu : Cpu) : Spec E g k (u, .user cpu) (k.modCpu ⟨g, u⟩ fun _ => cpu)

theorem Spec.failed_eq {E : Env} {g u id : PidT} {k k' : Kernel} (h : k.missed E g id = k') :
    Spec E g k (u, .finish (.switchTo id) (-1)) k' := h ▸ .failed u id

/-- The successful switches of an atomic run, in order: who and to which id. -/
def switches (es : List (PidT × Act)) : List (PidT × PidT) :=
  es.filterMap fun e =>
    match e.2 with
    | .finish (.switchTo id) v => if v = 0 then some (e.1, id) else none
    | _ => none

theorem switches_fls {u : PidT} {c : Call} {v : ℤ} (hc : c.isFls) :
    switches [(u, .finish c v)] = [] := by
  cases c <;> first | rfl | simp [Call.isFls] at hc

/-! ## One statement -/

/-- The statement counts a failed attempt. -/
def Stmt.counts : Stmt → Bool
  | .fiber _ .countFailed => true
  | _ => false

theorem Stmt.not_counts {s : Stmt} (h : s.isPrivate) : s.counts = false := by
  cases s with
  | fiber f a => cases a <;> first | rfl | simp [isPrivate] at h
  | _ => rfl

/-- The return that is still to come of a call that has taken effect. -/
def Pc.inflight : Pc → List Act
  | .checkAttached id _ _ | .readPrev id _ _ => [.finish (.switchTo id) 0]
  | .checkExit _ _ _ | .exitPrev _ _ _ | .lastThread _ _ => [.finish .exit 0]
  | .run ss next => if ss.any Stmt.counts then [] else next.inflight
  | .ret c v => [.finish c v]
  | _ => []

theorem Pc.inflight_run {ss : List Stmt} {next : Pc} (h : AllPrivate ss) :
    (Pc.run ss next).inflight = next.inflight := by
  refine if_neg ?_
  simp only [List.any_eq_true, not_exists, not_and]
  intro s hs
  simp [not_counts (h s hs)]

/-- The thread `u` owns the fiber `x`: it runs it in the atomic system or has yet
    to unlock it. -/
def Holds (T : Team) (a : Kernel) (P : PidT → List Stmt) (u : PidT) (x : Ptr) : Prop :=
  (∃ t, T.reg u = some t ∧ a.selected t = some x) ∨ .fiber x .unlock ∈ P u

/-- A step of `u` to `s'` is matched by the steps `es` of the atomic system to
    `a'`. -/
structure Advance (E : Env) (T : Team) (s : Conf) (a : Kernel) (P : PidT → List Stmt) (u : PidT)
    (act : Act) (s' : Conf) (a' : Kernel) (P' : PidT → List Stmt) (es : List (PidT × Act)) :
    Prop where
  run : Run (Spec E T.tgid) a es a'
  sim : Sim E T s' a' P'
  others : ∀ e ∈ es, e.1 = u
  pc_ne : ∀ v, v ≠ u → s'.pc v = s.pc v
  inflight : (s.pc u).inflight ++ es.map Prod.snd = act.visible ++ (s'.pc u).inflight
  order : switches es = ((s.acquires u).map fun r => (u, r.1)).toList
  holds : ∀ v x, Holds T a' P' v x ↔ (v = u ∧ (s.acquires u).map Prod.snd = some x) ∨
    (Holds T a P v x ∧ ¬ (v = u ∧ s.releases u = some x))

namespace Advance

variable {E : Env} {T : Team} {s : Conf} {a a' : Kernel} {P : PidT → List Stmt} {u : PidT}
  {act : Act} {k' : Kernel} {pc pc' : Pc} {t : Ptr}

/-- The atomic system stays where it is. -/
theorem stay (h : Sim E T (s.goto u k' pc') a P) (hpc : s.pc u = pc)
    (hin : pc.inflight = act.visible ++ pc'.inflight) (hacq : s.acquires u = none)
    (hrel : s.releases u = none) : Advance E T s a P u act (s.goto u k' pc') a P [] := by
  refine ⟨.nil, h, by simp, fun v hv => by simp [hv], by simp [hpc, hin], by simp [hacq, switches],
    fun v x => ?_⟩
  simp [hacq, hrel]

/-- The atomic system makes one step that moves no ownership. -/
theorem one {e : Act} (hs : Spec E T.tgid a (u, e) a') (h : Sim E T (s.goto u k' pc') a' P)
    (hpc : s.pc u = pc) (hin : pc.inflight ++ [e] = act.visible ++ pc'.inflight)
    (hsw : switches [(u, e)] = []) (hacq : s.acquires u = none)
    (hrel : s.releases u = none) (hsel : ∀ v t, T.reg v = some t → a'.selected t = a.selected t) :
    Advance E T s a P u act (s.goto u k' pc') a' P [(u, e)] := by
  refine ⟨.single hs, h, by simp, fun v hv => by simp [hv], by simp [hpc, hin], by simp [hacq, hsw],
    fun v x => ?_⟩
  simp only [Holds, hacq, hrel, Option.map_none, reduceCtorEq, and_false, false_or, not_false_eq_true,
    and_true]
  refine or_congr_left (exists_congr fun t => and_congr_right fun ht => ?_)
  rw [hsel v t ht]

end Advance

/-! ## Statements of a thread that has not begun to die -/

namespace Sim

variable {E : Env} {T : Team} {s : Conf} {a k' : Kernel} {P : PidT → List Stmt} {u : PidT} {t : Ptr}
  {r : Thread} {pc' : Pc}

/-- What is known of a thread with nothing pending that moves on. -/
theorem known_nil {pc : Pc} (hP : P u = []) (hth : a.thread t = s.st.thread t)
    (hr : a.thread t = some r) (hid : r.threadId = u) (hpar : r.parent = T.ep)
    (hl : Live T (u ≠ T.keeper) s.st a t pc []) : Known E T s.st a u t pc (P u) := by
  rw [hP]
  exact .inl ⟨hl, hth, r, hr, hid, hpar⟩

/-- A thread with nothing pending moves on without an effect. -/
theorem moves {pc pc' : Pc} (h : Sim E T s a P) (hreg : T.reg u = some t) (hP : P u = [])
    (hth : a.thread t = s.st.thread t) (hr : a.thread t = some r) (hid : r.threadId = u)
    (hpar : r.parent = T.ep) (hl : Live T (u ≠ T.keeper) s.st a t pc' []) (hpc : s.pc u = pc)
    (hin : pc.inflight = pc'.inflight) (hacq : s.acquires u = none) (hrel : s.releases u = none) :
    Advance E T s a P u .stmt (s.goto u s.st pc') a P [] := by
  refine .stay (h.silent (fun hu => by simp [hreg] at hu) fun t' ht' => ?_) hpc hin hacq hrel
  obtain rfl : t = t' := by simpa [hreg] using ht'
  exact known_nil hP hth hr hid hpar hl

/-- The lookups of a call. -/
theorem advance_lookup {c : Call} {pc : Pc} (h : Sim E T s a P) (hreg : T.reg u = some t)
    (hP : P u = []) (hth : a.thread t = s.st.thread t) (hr : a.thread t = some r)
    (hid : r.threadId = u) (hpar : r.parent = T.ep) (hc : c.shared (u ≠ T.keeper))
    (hpc : s.pc u = pc) (hlook : pc = .findProcess c ∨ pc = .findThread c T.ep)
    (hstep : pc.step E ⟨T.tgid, u⟩ s.st = some (pc', k')) :
    ∃ a' P' es, Advance E T s a P u .stmt (s.goto u k' pc') a' P' es := by
  rcases hlook with rfl | rfl
  · simp only [Pc.step, K.bind_eq_some, findProcessByTgid_eq_some, h.processOf_left] at hstep
    obtain ⟨x, k₁, ⟨hx, rfl⟩, hstep⟩ := hstep
    obtain rfl : some T.ep = x := by simpa using hx
    obtain ⟨rfl, rfl⟩ : Pc.findThread c T.ep = pc' ∧ s.st = k' := by simpa using hstep
    exact ⟨a, P, [], h.moves hreg hP hth hr hid hpar (.findThread c hc) hpc rfl
      (by simp [Conf.acquires, hpc]) (by simp [Conf.releases, hpc])⟩
  · obtain ⟨p, q, f, rf, hrec, hrun⟩ := h.running hr hid hpar
    have hfind : s.st.threadOf E p u = some (some t) :=
      threadOf_left hrec hrun (h.view.priv u) (by rw [hP]; exact hth)
    simp only [Pc.step, K.bind_eq_some, findThreadByPid_eq_some, hrec.left] at hstep
    obtain ⟨x, k₁, ⟨p', hp', hx, rfl⟩, hstep⟩ := hstep
    obtain rfl : p = p' := by simpa using hp'
    obtain rfl : some t = x := by simpa [hfind] using hx
    obtain ⟨rfl, rfl⟩ : c.enter T.ep t = pc' ∧ s.st = k' := by simpa using hstep
    have hlive : Live T (u ≠ T.keeper) s.st a t (c.enter T.ep t) [] ∧
        (c.enter T.ep t).inflight = [] := by
      cases c with
      | switchTo id => exact ⟨.findFiber id, rfl⟩
      | exit => exact ⟨.dec hc, rfl⟩
      | convert | create => exact hc.elim
      | flsAlloc | flsFree | flsGetValue | flsSetValue => exact ⟨.checkSelected _ rfl, rfl⟩
    exact ⟨a, P, [], h.moves hreg hP hth hr hid hpar hlive.1 hpc hlive.2.symm
      (by simp [Conf.acquires, hpc]) (by simp [Conf.releases, hpc])⟩

theorem targetOf_eq (h : Sim E T s a P) (id : PidT) : a.targetOf E T.tgid id = (T.target id).join := by
  obtain ⟨p, q, hr⟩ := h.record
  have hmem := h.inv.linkedProcess T.ep (by simp [hr.right])
  have hep : a.processOf E T.tgid = some (some T.ep) :=
    h.inv.processesInj.find_of_mem h.inv.processesWF hmem
      (by simp only [Kernel.processKey, hr.right, Option.map_some]; rw [hr.rest, ← hr.tgid])
  rw [Kernel.targetOf, hep, ← h.target id]
  rfl

/-- The lookup of the target. -/
theorem advance_findFiber {id : PidT} (h : Sim E T s a P) (hreg : T.reg u = some t)
    (hP : P u = []) (hth : a.thread t = s.st.thread t) (hr : a.thread t = some r)
    (hid : r.threadId = u) (hpar : r.parent = T.ep) (hpc : s.pc u = .findFiber id T.ep t)
    (hstep : (Pc.findFiber id T.ep t).step E ⟨T.tgid, u⟩ s.st = some (pc', k')) :
    ∃ a' P' es, Advance E T s a P u .stmt (s.goto u k' pc') a' P' es := by
  simp only [Pc.step, K.bind_eq_some, findFiberById_eq_some] at hstep
  obtain ⟨x, k₁, ⟨p, hp, hx, rfl⟩, hstep⟩ := hstep
  have htar : T.target id = some x := by rw [← h.lookup_left id, Kernel.lookup, hp]; exact hx
  have hacq : s.acquires u = none := by simp [Conf.acquires, hpc]
  have hrel : s.releases u = none := by simp [Conf.releases, hpc]
  cases x with
  | some f =>
    obtain ⟨rfl, rfl⟩ : Pc.trylock id t f = pc' ∧ s.st = k' := by simpa using hstep
    exact ⟨a, P, [], h.moves hreg hP hth hr hid hpar (.trylock id f htar) hpc rfl hacq hrel⟩
  | none =>
    -- the switch fails here, without a target to count at
    obtain ⟨rfl, rfl⟩ : Pc.ret (.switchTo id) (-1) = pc' ∧ s.st = k' := by simpa using hstep
    have hmiss : a.missed E T.tgid id = a := by simp [Kernel.missed, h.targetOf_eq, htar]
    refine ⟨a, P, _, .one (e := .finish (.switchTo id) (-1)) (.failed_eq hmiss) ?_ hpc rfl rfl
      hacq hrel fun _ _ _ => rfl⟩
    refine h.silent (fun hu => by simp [hreg] at hu) fun t' ht' => ?_
    obtain rfl : t = t' := by simpa [hreg] using ht'
    exact known_nil hP hth hr hid hpar (.ret _ _ (by simp))

/-- The trylock. -/
theorem advance_trylock {id : PidT} {f : Ptr} (h : Sim E T s a P) (hreg : T.reg u = some t)
    (hP : P u = []) (hth : a.thread t = s.st.thread t) (hr : a.thread t = some r)
    (hid : r.threadId = u) (hpar : r.parent = T.ep) (hpc : s.pc u = .trylock id t f)
    (htar : T.target id = some (some f))
    (hstep : (Pc.trylock id t f).step E ⟨T.tgid, u⟩ s.st = some (pc', k')) :
    ∃ a' P' es, Advance E T s a P u .stmt (s.goto u k' pc') a' P' es := by
  have hrel : s.releases u = none := by simp [Conf.releases, hpc]
  simp only [Pc.step, K.bind_eq_some, spinTrylock, Option.map_eq_some_iff] at hstep
  obtain ⟨b, k₁, ⟨rf, hf, hb⟩, hstep⟩ := hstep
  obtain ⟨rfl, rfl⟩ : (!rf.fiberLock) = b ∧
      (s.st.modFiber f fun r => { r with fiberLock := true }) = k₁ := by simpa using hb
  cases hl : rf.fiberLock with
  | true =>
    have hself : (s.st.modFiber f fun r => { r with fiberLock := true }) = s.st :=
      Kernel.modFiber_self fun r' hr' => by
        obtain rfl : rf = r' := by simpa [hf] using hr'
        rw [← hl]
    rw [hself] at hstep
    obtain ⟨rfl, rfl⟩ : Pc.run (assigns f [.countFailed]) (.ret (.switchTo id) (-1)) = pc' ∧
        s.st = k' := by simpa [hl] using hstep
    exact ⟨a, P, [], h.moves hreg hP hth hr hid hpar (.failed id f htar) hpc rfl
      (by simp [Conf.acquires, hpc, Kernel.locked, hf, hl]) hrel⟩
  | false =>
    have hacq : s.acquires u = some (id, f) := by
      simp [Conf.acquires, hpc, Kernel.locked, hf, hl]
    obtain ⟨rfl, rfl⟩ : Pc.checkAttached id t f = pc' ∧
        (s.st.modFiber f fun r => { r with fiberLock := true }) = k' := by simpa [hl] using hstep
    obtain ⟨p, q, prev, rp, hrec, hrun⟩ := h.running hr hid hpar
    have hfo : a.fiberOf E q id = some (some f) := by
      rw [← htar, ← h.target id, Kernel.lookup, hrec.right]; rfl
    have hk : Known E T s.st a u t (s.pc u) [] := hP ▸ h.known u t hreg
    obtain ⟨hdo, hsim⟩ := h.switch hreg hP hk hrun hfo hf hl
    have hsel := selected_of_running hrun
    refine ⟨_, _, [(u, .finish (.switchTo id) 0)], .single (.switched hdo), hsim, by simp,
      fun v hv => by simp [hv], by simp [hpc, Pc.inflight, Act.visible],
      by simp [hacq, switches], fun v x => ?_⟩
    have hunlock : Stmt.fiber x .unlock ∈ switchAttach t f ++ switchTail t f prev ↔ x = prev := by
      simp [switchAttach, switchTail, assigns]
    have hsel' : (a.switched ⟨T.tgid, u⟩ t f prev r rf rp).selected t = some f := by
      simp [Kernel.selected, Kernel.switched]
    by_cases hv : v = u
    · subst hv
      simp [Holds, hacq, hrel, hreg, hP, hunlock, hsel, hsel', eq_comm]
    · have hne : ∀ t', T.reg v = some t' → t' ≠ t := fun t' ht' he =>
        hv (T.reg_inj v u t (he ▸ ht') hreg)
      simp only [Holds, Function.update_of_ne hv, hv, false_and, false_or, not_false_eq_true,
        and_true]
      refine or_congr_left (exists_congr fun t' => and_congr_right fun ht' => ?_)
      simp [Kernel.selected, Kernel.switched, hne t' ht']

/-- The count of a failed attempt. -/
theorem advance_failed {id : PidT} {f : Ptr} (h : Sim E T s a P) (hreg : T.reg u = some t)
    (hP : P u = []) (hth : a.thread t = s.st.thread t) (hr : a.thread t = some r)
    (hid : r.threadId = u) (hpar : r.parent = T.ep) (htar : T.target id = some (some f))
    (hpc : s.pc u = .run [.fiber f .countFailed] (.ret (.switchTo id) (-1)))
    (hstep : (Pc.run [.fiber f .countFailed] (.ret (.switchTo id) (-1))).step E ⟨T.tgid, u⟩ s.st =
      some (pc', k')) :
    ∃ a' P' es, Advance E T s a P u .stmt (s.goto u k' pc') a' P' es := by
  simp only [Pc.step, K.bind_eq_some, exec_eq_some] at hstep
  obtain ⟨_, k₁, ⟨-, rfl⟩, hstep⟩ := hstep
  obtain ⟨rfl, rfl⟩ : Pc.run [] (.ret (.switchTo id) (-1)) = pc' ∧
      (Stmt.fiber f .countFailed).apply E ⟨T.tgid, u⟩ s.st = k' := by simpa using hstep
  have hmiss : a.missed E T.tgid id = a.bumped f := by
    simp [Kernel.missed, h.targetOf_eq, htar]
  refine ⟨_, P, _, .one (e := .finish (.switchTo id) (-1)) (.failed_eq hmiss)
    (h.bump f hreg ?_) hpc rfl rfl (by simp [Conf.acquires, hpc]) (by simp [Conf.releases, hpc])
    fun _ _ _ => rfl⟩
  rw [hP]
  exact .inl ⟨.writing [] _ _ (by simp), hth, r, hr, hid, hpar⟩

/-- Nobody runs a fiber that is about to be unlocked. -/
theorem not_selected_of_unlock {x : Ptr} {v : PidT} (h : Sim E T s a P)
    (hx : .fiber x .unlock ∈ P u) (hv : T.reg v = some t) : a.selected t ≠ some x := by
  intro hsel
  have hlock : a.locked x = false := by
    have hm : mentions (P u) x := ⟨_, hx, rfl⟩
    rw [Kernel.locked, h.view.fiber u x hm]
    exact applyAll_locked_of_unlock (h.view.priv u) hx
  rcases h.known v t hv with ⟨-, -, r, hr, hid, hpar⟩ | ⟨-, -, hnone⟩
  · obtain ⟨p, q, f, rf, -, hrun⟩ := h.running hr hid hpar
    obtain rfl : f = x := by simpa [selected_of_running hrun] using hsel
    simp [Kernel.locked, hrun.fiber_eq, hrun.locked] at hlock
  · simp [Kernel.selected, hnone] at hsel

/-- A pending statement. -/
theorem advance_pending {st : Stmt} {ss rest : List Stmt} {next : Pc} (h : Sim E T s a P)
    (hP : P u = st :: ss) (hpc : s.pc u = .run (st :: rest) next)
    (hknown : ∀ t, T.reg u = some t →
      Known E T (st.apply E ⟨T.tgid, u⟩ s.st) a u t (.run rest next) ss) :
    Advance E T s a P u .stmt (s.goto u (st.apply E ⟨T.tgid, u⟩ s.st) (.run rest next)) a
      (Function.update P u ss) [] := by
  have hpriv : AllPrivate (st :: ss) := hP ▸ h.view.priv u
  have htidy : Tidy (st :: ss) := hP ▸ h.tidy u
  have hacq : s.acquires u = none := by simp [Conf.acquires, hpc]
  have hrel : ∀ x, s.releases u = some x ↔ st = .fiber x .unlock := fun x => by
    simp only [Conf.releases, hpc]
    constructor
    · intro hx
      split at hx
      · simp_all
      · simp at hx
    · rintro rfl
      rfl
  refine ⟨.nil, h.exec hP hknown, by simp, fun v hv => by simp [hv], ?_, by simp [hacq, switches],
    fun v x => ?_⟩
  · simp [hpc, Pc.inflight, Act.visible, not_counts hpriv.head]
  · by_cases hv : v = u
    · subst hv
      simp only [Holds, Function.update_self, hP, List.mem_cons, hacq, Option.map_none, reduceCtorEq,
        and_false, false_or, true_and, hrel]
      constructor
      · rintro (⟨t, ht, hsel⟩ | hmem)
        · refine ⟨.inl ⟨t, ht, hsel⟩, fun he => ?_⟩
          exact h.not_selected_of_unlock (u := v) (by simp [hP, he]) ht hsel
        · exact ⟨.inr (.inr hmem), fun he => htidy.1 x he ⟨_, hmem, rfl⟩⟩
      · rintro ⟨h1 | h1 | h1, h2⟩
        · exact .inl h1
        · exact absurd h1.symm h2
        · exact .inr h1
    · simp [Holds, hv]

/-! ## Fiber local storage -/

/-- What the first look at a fiber can lead to. -/
theorem flsStep_cases {c : Call} {f : Ptr} {rf : Fiber} {k : Kernel} (hf : k.fiber f = some rf)
    (h : flsStep f c k = some (pc', k')) : k' = k ∧
      ((∃ v, pc' = .ret c v ∧ flsEffect c rf = (v, rf)) ∨
        (∃ v as, pc' = .run (assigns f [as]) (.ret c v) ∧ (Stmt.fiber f as).isPrivate ∧
          ∀ cur cpu, flsEffect c rf = (v, as.run cur cpu rf)) ∨
        ∃ index i, c = .flsGetValue index ∧ pc' = .flsValue index f i ∧ flsIndex? index = some i ∧
          rf.flsBitmap i = true) := by
  have hread : readFiber f k = some (rf, k) := readFiber_eq_some.mpr ⟨hf, rfl⟩
  cases c with
  | flsAlloc =>
    simp only [flsStep, K.bind_apply, hread, Option.bind_some] at h
    split_ifs at h with hi
    · obtain ⟨rfl, rfl⟩ : Pc.run _ _ = pc' ∧ k = k' := by simpa using h
      exact ⟨rfl, .inr (.inl ⟨_, _, rfl, rfl, fun _ _ => by simp [flsEffect, hi, Assign.run]⟩)⟩
    · obtain ⟨rfl, rfl⟩ : Pc.ret _ _ = pc' ∧ k = k' := by simpa using h
      exact ⟨rfl, .inl ⟨_, rfl, by simp [flsEffect, hi]⟩⟩
  | flsFree index =>
    cases hi : flsIndex? index with
    | none =>
      obtain ⟨rfl, rfl⟩ : Pc.ret _ _ = pc' ∧ k = k' := by simpa [flsStep, hi] using h
      exact ⟨rfl, .inl ⟨_, rfl, by simp [flsEffect, hi]⟩⟩
    | some i =>
      simp only [flsStep, hi, K.bind_apply, hread, Option.bind_some] at h
      by_cases hb : rf.flsBitmap i = false
      · obtain ⟨rfl, rfl⟩ : Pc.ret _ _ = pc' ∧ k = k' := by simpa [hb] using h
        exact ⟨rfl, .inl ⟨_, rfl, by simp [flsEffect, hi, hb]⟩⟩
      · obtain ⟨rfl, rfl⟩ : Pc.run _ _ = pc' ∧ k = k' := by simpa [hb] using h
        exact ⟨rfl, .inr (.inl ⟨_, _, rfl, rfl, fun _ _ => by simp [flsEffect, hi, hb, Assign.run]⟩)⟩
  | flsGetValue index =>
    cases hi : flsIndex? index with
    | none =>
      obtain ⟨rfl, rfl⟩ : Pc.ret _ _ = pc' ∧ k = k' := by simpa [flsStep, hi] using h
      exact ⟨rfl, .inl ⟨_, rfl, by simp [flsEffect, hi]⟩⟩
    | some i =>
      simp only [flsStep, hi, K.bind_apply, hread, Option.bind_some] at h
      by_cases hb : rf.flsBitmap i = false
      · obtain ⟨rfl, rfl⟩ : Pc.ret _ _ = pc' ∧ k = k' := by simpa [hb] using h
        exact ⟨rfl, .inl ⟨_, rfl, by simp [flsEffect, hi, hb]⟩⟩
      · obtain ⟨rfl, rfl⟩ : Pc.flsValue _ _ _ = pc' ∧ k = k' := by simpa [hb] using h
        exact ⟨rfl, .inr (.inr ⟨index, i, rfl, rfl, hi, by simpa using hb⟩)⟩
  | flsSetValue index value =>
    cases hi : flsIndex? index with
    | none =>
      obtain ⟨rfl, rfl⟩ : Pc.ret _ _ = pc' ∧ k = k' := by simpa [flsStep, hi] using h
      exact ⟨rfl, .inl ⟨_, rfl, by simp [flsEffect, hi]⟩⟩
    | some i =>
      simp only [flsStep, hi, K.bind_apply, hread, Option.bind_some] at h
      by_cases hb : rf.flsBitmap i = false
      · obtain ⟨rfl, rfl⟩ : Pc.ret _ _ = pc' ∧ k = k' := by simpa [hb] using h
        exact ⟨rfl, .inl ⟨_, rfl, by simp [flsEffect, hi, hb]⟩⟩
      · obtain ⟨rfl, rfl⟩ : Pc.run _ _ = pc' ∧ k = k' := by simpa [hb] using h
        exact ⟨rfl, .inr (.inl ⟨_, _, rfl, rfl, fun _ _ => by simp [flsEffect, hi, hb, Assign.run]⟩)⟩
  | _ => simp [flsStep] at h

/-- An FLS operation that changes nothing, or whose value is read. -/
theorem advance_flsDone {c : Call} {v : ℤ} {q : Process} {f : Ptr} {rf : Fiber} {pc : Pc}
    (h : Sim E T s a P) (hreg : T.reg u = some t)
    (hP : P u = []) (hth : a.thread t = s.st.thread t) (hc : c.isFls)
    (hrun : Running E a ⟨T.tgid, u⟩ T.ep q t r f rf) (heff : flsEffect c rf = (v, rf))
    (hpc : s.pc u = pc) (hin : pc.inflight = []) (hacq : s.acquires u = none)
    (hrel : s.releases u = none) :
    Advance E T s a P u .stmt (s.goto u s.st (.ret c v)) a P [(u, .finish c v)] := by
  have hdo := fls_run hrun.toCaller hrun.selected hrun.fiber_eq hc
  have hself : { a with fiber := Function.update a.fiber f (some rf) } = a := by
    rw [← hrun.fiber_eq, Function.update_eq_self]
  rw [heff, hself] at hdo
  have hne : c ≠ .exit := by rintro rfl; simp [Call.isFls] at hc
  refine .one (.fls hc hdo) ?_ hpc (by simp [hin, Act.visible, Pc.inflight]) (switches_fls hc) hacq
    hrel fun _ _ _ => rfl
  refine h.silent (fun hu => by simp [hreg] at hu) fun t' ht' => ?_
  obtain rfl : t = t' := by simpa [hreg] using ht'
  exact known_nil hP hth hrun.thread_eq hrun.threadId hrun.parent (.ret c v hne)

/-- The first look of an FLS operation at its fiber. -/
theorem advance_flsTest {c : Call} {f : Ptr} (h : Sim E T s a P) (hreg : T.reg u = some t)
    (hP : P u = []) (hth : a.thread t = s.st.thread t) (hr : a.thread t = some r)
    (hid : r.threadId = u) (hpar : r.parent = T.ep) (hc : c.isFls) (hsel : a.selected t = some f)
    (hpc : s.pc u = .flsTest c f)
    (hstep : (Pc.flsTest c f).step E ⟨T.tgid, u⟩ s.st = some (pc', k')) :
    ∃ a' P' es, Advance E T s a P u .stmt (s.goto u k' pc') a' P' es := by
  obtain ⟨p, q, f', rf, hrec, hrun⟩ := h.running hr hid hpar
  obtain rfl : f' = f := by simpa [selected_of_running hrun] using hsel
  have hidle := h.not_mentioned hreg hP hsel
  have hf : s.st.fiber f' = some rf := by rw [← h.view.idle f' hidle, hrun.fiber_eq]
  have hacq : s.acquires u = none := by simp [Conf.acquires, hpc]
  have hrel : s.releases u = none := by simp [Conf.releases, hpc]
  obtain ⟨rfl, ⟨v, rfl, heff⟩ | ⟨v, as, rfl, hpriv, heff⟩ | ⟨index, i, rfl, rfl, hi, hb⟩⟩ :=
    flsStep_cases hf hstep
  · exact ⟨a, P, _, h.advance_flsDone hreg hP hth hc hrun heff hpc rfl hacq hrel⟩
  · have hdo := fls_run hrun.toCaller hrun.selected hrun.fiber_eq hc
    have hwrite : { a with fiber := Function.update a.fiber f' (some (flsEffect c rf).2) } =
        applyAll E ⟨T.tgid, u⟩ (assigns f' [as]) a := by
      rw [applyAll_assigns, Kernel.modFiber_of_some hrun.fiber_eq,
        heff ⟨T.tgid, u⟩ (a.cpu ⟨T.tgid, u⟩)]
      rfl
    have hinv : Inv E (applyAll E ⟨T.tgid, u⟩ (assigns f' [as]) a) :=
      hwrite ▸ h.inv.step (.fls hrun hc)
    rw [hwrite, heff ⟨T.tgid, u⟩ (a.cpu ⟨T.tgid, u⟩)] at hdo
    have hne : c ≠ .exit := by rintro rfl; simp [Call.isFls] at hc
    have hsim := h.write hreg hP hrun hth hpriv hinv rfl (v := v) hne
    have hall : AllPrivate (assigns f' [as]) := by simpa [assigns, AllPrivate] using hpriv
    refine ⟨_, _, _, .single (.fls hc hdo), hsim, by simp, fun w hw => by simp [hw], ?_,
      by simp [hacq, switches_fls hc], fun w x => ?_⟩
    · simp [hpc, Pc.inflight_run hall, Act.visible, Pc.inflight]
    · have hselw : ∀ t', (applyAll E ⟨T.tgid, u⟩ (assigns f' [as]) a).selected t' = a.selected t' :=
        fun _ => rfl
      have hun : as ≠ .unlock := by
        rintro rfl
        have := congrArg (fun r => r.2.fiberLock) (heff ⟨T.tgid, u⟩ (a.cpu ⟨T.tgid, u⟩))
        obtain ⟨b, vs, he⟩ := flsEffect_eq c rf
        simp [he, hrun.locked, Assign.run] at this
      have hmem : Stmt.fiber x .unlock ∉ assigns f' [as] := by
        simp only [assigns, List.map_cons, List.map_nil, List.mem_singleton, Stmt.fiber.injEq,
          not_and]
        exact fun _ he => hun he.symm
      by_cases hw : w = u
      · subst hw
        simp [Holds, hselw, hacq, hrel, hP, hmem]
      · simp [Holds, hselw, hw]
  · refine ⟨a, P, [], h.moves hreg hP hth hr hid hpar (.flsValue index f' i hi hsel ?_) hpc rfl hacq
      hrel⟩
    intro r' hr'
    obtain rfl : rf = r' := by simpa [hrun.fiber_eq] using hr'
    exact hb

/-- The look at a value. -/
theorem advance_flsValue {index : ℤ} {i : FlsIndex} {f : Ptr} (h : Sim E T s a P)
    (hreg : T.reg u = some t) (hP : P u = []) (hth : a.thread t = s.st.thread t)
    (hr : a.thread t = some r) (hid : r.threadId = u) (hpar : r.parent = T.ep)
    (hi : flsIndex? index = some i) (hsel : a.selected t = some f)
    (hbit : ∀ r, a.fiber f = some r → r.flsBitmap i = true) (hpc : s.pc u = .flsValue index f i)
    (hstep : (Pc.flsValue index f i).step E ⟨T.tgid, u⟩ s.st = some (pc', k')) :
    ∃ a' P' es, Advance E T s a P u .stmt (s.goto u k' pc') a' P' es := by
  obtain ⟨p, q, f', rf, hrec, hrun⟩ := h.running hr hid hpar
  obtain rfl : f' = f := by simpa [selected_of_running hrun] using hsel
  have hf : s.st.fiber f' = some rf := by
    rw [← h.view.idle f' (h.not_mentioned hreg hP hsel), hrun.fiber_eq]
  simp only [Pc.step, K.bind_eq_some, readFiber_eq_some, hf] at hstep
  obtain ⟨rf', k₁, ⟨hrf, rfl⟩, hstep⟩ := hstep
  obtain rfl : rf = rf' := by simpa using hrf
  obtain ⟨rfl, rfl⟩ : Pc.ret (.flsGetValue index) (rf.fls i).toInt = pc' ∧ s.st = k' := by
    simpa using hstep
  have heff : flsEffect (.flsGetValue index) rf = ((rf.fls i).toInt, rf) := by
    simp [flsEffect, hi, hbit rf hrun.fiber_eq]
  exact ⟨a, P, _, h.advance_flsDone hreg hP hth rfl hrun heff hpc rfl (by simp [Conf.acquires, hpc])
    (by simp [Conf.releases, hpc])⟩

/-! ## Dying -/

theorem advance_dec (h : Sim E T s a P) (hreg : T.reg u = some t) (hu : u ≠ T.keeper)
    (hP : P u = []) (hth : a.thread t = s.st.thread t) (hr : a.thread t = some r)
    (hid : r.threadId = u) (hpar : r.parent = T.ep) (hpc : s.pc u = .dec T.ep t)
    (hstep : (Pc.dec T.ep t).step E ⟨T.tgid, u⟩ s.st = some (pc', k')) :
    ∃ a' P' es, Advance E T s a P u .stmt (s.goto u k' pc') a' P' es := by
  obtain ⟨p, q, prev, rp, hrec, hrun⟩ := h.running hr hid hpar
  obtain ⟨hact, hdo, hsim⟩ := h.die hreg hu hP hrun hth
  have hqp : q.activeThreads = p.activeThreads := by rw [hrec.rest]
  simp only [Pc.step, K.bind_eq_some, decActiveThreads, ← hth, hr, hpar, hrec.left, Option.bind_some,
    Option.map_some] at hstep
  obtain ⟨n, k₁, hdec, hstep⟩ := hstep
  obtain ⟨rfl, rfl⟩ : p.activeThreads - 1 = n ∧ (s.st.modProcess T.ep fun p =>
      { p with activeThreads := p.activeThreads - 1 }) = k₁ := by simpa using hdec
  rw [← hqp] at hstep
  obtain ⟨rfl, rfl⟩ : Pc.checkExit T.ep t (q.activeThreads - 1) = pc' ∧ (s.st.modProcess T.ep fun p =>
      { p with activeThreads := p.activeThreads - 1 }) = k' := by simpa using hstep
  have hacq : s.acquires u = none := by simp [Conf.acquires, hpc]
  have hrel : s.releases u = none := by simp [Conf.releases, hpc]
  have hsel := selected_of_running hrun
  refine ⟨_, _, [(u, .finish .exit 0)], .single (.died hdo), hsim, by simp,
    fun v hv => by simp [hv], by simp [hpc, Pc.inflight, Act.visible], by simp [hacq, switches],
    fun v x => ?_⟩
  have hunlock : Stmt.fiber x .unlock ∈ exitDetach (some prev) (q.activeThreads - 1) ↔ x = prev := by
    simp [exitDetach_eq hact, assigns]
  have hsel' : (a.detached ⟨T.tgid, u⟩ T.ep t prev q rp).selected t = none := by
    simp [Kernel.selected, Kernel.detached]
  by_cases hv : v = u
  · subst hv
    simp [Holds, hacq, hrel, hreg, hP, hunlock, hsel, hsel', eq_comm]
  · have hne : ∀ t', T.reg v = some t' → t' ≠ t := fun t' ht' he =>
      hv (T.reg_inj v u t (he ▸ ht') hreg)
    simp only [Holds, Function.update_of_ne hv, hv, false_and, false_or, not_false_eq_true, and_true]
    refine or_congr_left (exists_congr fun t' => and_congr_right fun ht' => ?_)
    simp [Kernel.selected, Kernel.detached, hne t' ht']

/-- A dying thread moves on without an effect. -/
theorem dyingMoves {pc pc' : Pc} {ss : List Stmt} (h : Sim E T s a P) (hreg : T.reg u = some t)
    (hu : u ≠ T.keeper) (hP : P u = ss) (ha : a.thread t = none) (hg : Gone T s.st t pc' ss)
    (hpc : s.pc u = pc) (hin : pc.inflight = pc'.inflight) (hacq : s.acquires u = none)
    (hrel : s.releases u = none) : Advance E T s a P u .stmt (s.goto u s.st pc') a P [] := by
  refine .stay (h.silent (fun hn => by simp [hreg] at hn) fun t' ht' => ?_) hpc hin hacq hrel
  obtain rfl : t = t' := by simpa [hreg] using ht'
  rw [hP]
  exact .inr ⟨hg, hu, ha⟩

/-- The statements of a thread past its `atomic64_dec_return`. -/
theorem advance_gone {pc : Pc} {ss : List Stmt} (h : Sim E T s a P) (hreg : T.reg u = some t)
    (hu : u ≠ T.keeper) (hP : P u = ss) (ha : a.thread t = none) (hpc : s.pc u = pc)
    (hg : Gone T s.st t pc ss) (hstep : pc.step E ⟨T.tgid, u⟩ s.st = some (pc', k')) :
    ∃ a' P' es, Advance E T s a P u .stmt (s.goto u k' pc') a' P' es := by
  have hsome : ∀ prev, s.st.selected t = some prev → ∃ rt, s.st.thread t = some rt ∧
      rt.selectedFiber = some prev := fun prev hsel => Option.bind_eq_some_iff.mp hsel
  have hpriv : AllPrivate ss := hP ▸ h.view.priv u
  cases hg with
  | checkExit n prev hn hsel =>
    obtain ⟨rt, hrt, hprev⟩ := hsome prev hsel
    simp only [Pc.step, K.bind_eq_some, readThread_eq_some, hrt] at hstep
    obtain ⟨rt', k₁, ⟨hrt', rfl⟩, hstep⟩ := hstep
    obtain rfl : rt = rt' := by simpa using hrt'
    obtain ⟨rfl, rfl⟩ : Pc.exitPrev T.ep t n = pc' ∧ s.st = k' := by simpa [hprev, hn] using hstep
    exact ⟨a, P, [], h.dyingMoves hreg hu hP ha (.exitPrev n prev hn hsel) hpc rfl
      (by simp [Conf.acquires, hpc]) (by simp [Conf.releases, hpc])⟩
  | exitPrev n prev hn hsel =>
    obtain ⟨rt, hrt, hprev⟩ := hsome prev hsel
    simp only [Pc.step, K.bind_eq_some, readThread_eq_some, nonNull_eq_some, hrt] at hstep
    obtain ⟨rt', k₁, ⟨hrt', rfl⟩, x, k₂, ⟨hx, rfl⟩, hstep⟩ := hstep
    obtain rfl : rt = rt' := by simpa using hrt'
    obtain rfl : prev = x := by simpa [hprev] using hx
    obtain ⟨rfl, rfl⟩ : Pc.run (exitDetach (some prev) n ++ [.delThread T.ep t, .freeThread t])
        (.lastThread T.ep n) = pc' ∧ s.st = k' := by simpa using hstep
    refine ⟨a, P, [], h.dyingMoves hreg hu hP ha (.detaching _ n hn (by simp [hrt])) hpc ?_
      (by simp [Conf.acquires, hpc]) (by simp [Conf.releases, hpc])⟩
    simp [Pc.inflight, exitDetach_eq hn, assigns, Stmt.counts]
  | detaching ss n hn ht =>
    cases ss with
    | nil =>
      simp only [List.nil_append, Pc.step, K.bind_eq_some, exec_eq_some] at hstep
      obtain ⟨_, k₁, ⟨-, rfl⟩, hstep⟩ := hstep
      obtain ⟨rfl, rfl⟩ : Pc.run [.freeThread t] (.lastThread T.ep n) = pc' ∧
          (Stmt.delThread T.ep t).apply E ⟨T.tgid, u⟩ s.st = k' := by simpa using hstep
      refine ⟨a, P, [], .stay (h.unlink hreg ha hP (.freeing n hn ht ?_) hu) hpc rfl
        (by simp [Conf.acquires, hpc]) (by simp [Conf.releases, hpc])⟩
      obtain ⟨p, q, hr⟩ := h.record
      rintro ⟨p', hp', hm⟩
      obtain rfl : _ = p' := by simpa [Stmt.apply, hr.left] using hp'
      exact (hr.wf.mem_del.mp hm).2 rfl
    | cons st ss =>
      simp only [List.cons_append, Pc.step, K.bind_eq_some, exec_eq_some] at hstep
      obtain ⟨_, k₁, ⟨-, rfl⟩, hstep⟩ := hstep
      obtain ⟨rfl, rfl⟩ : Pc.run (ss ++ [.delThread T.ep t, .freeThread t]) (.lastThread T.ep n) =
          pc' ∧ st.apply E ⟨T.tgid, u⟩ s.st = k' := by simpa using hstep
      refine ⟨a, _, [], h.advance_pending hP hpc fun t' ht' => ?_⟩
      obtain rfl : t = t' := by simpa [hreg] using ht'
      refine .inr ⟨.detaching ss n hn ?_, hu, ha⟩
      have hkey : (st.apply E ⟨T.tgid, u⟩ s.st).threadKey t = s.st.threadKey t :=
        apply_threadKey hpriv.head t
      simpa [Kernel.threadKey, ht] using congrArg Option.isSome hkey
  | freeing n hn ht hl =>
    simp only [Pc.step, K.bind_eq_some, exec_eq_some] at hstep
    obtain ⟨_, k₁, ⟨-, rfl⟩, hstep⟩ := hstep
    obtain ⟨rfl, rfl⟩ : Pc.run [] (.lastThread T.ep n) = pc' ∧
        (Stmt.freeThread t).apply E ⟨T.tgid, u⟩ s.st = k' := by simpa using hstep
    exact ⟨a, P, [], .stay (h.free hreg ha hP hl (.freed n hn (by simp [Stmt.apply]) hl) hu) hpc rfl
      (by simp [Conf.acquires, hpc]) (by simp [Conf.releases, hpc])⟩
  | freed n hn ht hl =>
    obtain ⟨rfl, rfl⟩ : Pc.lastThread T.ep n = pc' ∧ s.st = k' := by simpa [Pc.step] using hstep
    exact ⟨a, P, [], h.dyingMoves hreg hu hP ha (.lastThread n hn ht hl) hpc rfl
      (by simp [Conf.acquires, hpc]) (by simp [Conf.releases, hpc])⟩
  | lastThread n hn ht hl =>
    obtain ⟨rfl, rfl⟩ : Pc.ret .exit 0 = pc' ∧ s.st = k' := by simpa [Pc.step, hn] using hstep
    exact ⟨a, P, [], h.dyingMoves hreg hu hP ha (.ret ht hl) hpc rfl
      (by simp [Conf.acquires, hpc]) (by simp [Conf.releases, hpc])⟩
  | ret | dead => simp [Pc.step] at hstep

/-! ## Any statement, any step -/

/-- The statements of a thread that has not begun to die. -/
theorem advance_live {pc : Pc} {ss : List Stmt} (h : Sim E T s a P) (hreg : T.reg u = some t)
    (hP : P u = ss) (hpc : s.pc u = pc) (hl : Live T (u ≠ T.keeper) s.st a t pc ss)
    (hth : a.thread t = (applyAll E ⟨T.tgid, u⟩ ss s.st).thread t) (hr : a.thread t = some r)
    (hid : r.threadId = u) (hpar : r.parent = T.ep)
    (hstep : pc.step E ⟨T.tgid, u⟩ s.st = some (pc', k')) :
    ∃ a' P' es, Advance E T s a P u .stmt (s.goto u k' pc') a' P' es := by
  have hpriv : AllPrivate ss := hP ▸ h.view.priv u
  have hsome : ∀ prev, s.st.selected t = some prev → ∃ rt, s.st.thread t = some rt ∧
      rt.selectedFiber = some prev := fun prev hsel => Option.bind_eq_some_iff.mp hsel
  -- a move that keeps the pending statements
  have hmove : ∀ pc', Live T (u ≠ T.keeper) s.st a t pc' ss → pc.inflight = pc'.inflight →
      s.acquires u = none → s.releases u = none →
      Advance E T s a P u .stmt (s.goto u s.st pc') a P [] := fun pc' hl' hin hacq hrel => by
    refine .stay (h.silent (fun hn => by simp [hreg] at hn) fun t' ht' => ?_) hpc hin hacq hrel
    obtain rfl : t = t' := by simpa [hreg] using ht'
    rw [hP]
    exact .inl ⟨hl', hth, r, hr, hid, hpar⟩
  -- a pending statement, after which the thread is still at a place it may be at
  have hpend : ∀ st ss' rest next, ss = st :: ss' → s.pc u = .run (st :: rest) next →
      Live T (u ≠ T.keeper) (st.apply E ⟨T.tgid, u⟩ s.st) a t (.run rest next) ss' →
      ∃ a' P' es, Advance E T s a P u .stmt
        (s.goto u (st.apply E ⟨T.tgid, u⟩ s.st) (.run rest next)) a' P' es :=
    fun st ss' rest next hss hpc' hl' => by
      refine ⟨a, _, [], h.advance_pending (hP.trans hss) hpc' fun t' ht' => ?_⟩
      obtain rfl : t = t' := by simpa [hreg] using ht'
      refine .inl ⟨hl', ?_, r, hr, hid, hpar⟩
      rw [hth, hss, applyAll_cons]
  cases hl with
  | user | ret => simp [Pc.step] at hstep
  | findProcess c hc => exact h.advance_lookup hreg hP hth hr hid hpar hc hpc (.inl rfl) hstep
  | findThread c hc => exact h.advance_lookup hreg hP hth hr hid hpar hc hpc (.inr rfl) hstep
  | findFiber id => exact h.advance_findFiber hreg hP hth hr hid hpar hpc hstep
  | trylock id f htar => exact h.advance_trylock hreg hP hth hr hid hpar hpc htar hstep
  | failed id f htar => exact h.advance_failed hreg hP hth hr hid hpar htar hpc hstep
  | checkAttached id f prev hatt hsel =>
    simp only [Pc.step, K.bind_eq_some, readFiber_eq_some] at hstep
    obtain ⟨rf, k₁, ⟨hrf, rfl⟩, hstep⟩ := hstep
    have hattach : rf.attachedThread = none := by simpa [Kernel.attached, hrf] using hatt
    obtain ⟨rfl, rfl⟩ : Pc.run (switchAttach t f) (.readPrev id t f) = pc' ∧ s.st = k' := by
      simpa [hattach] using hstep
    refine ⟨a, P, [], hmove _ (.attaching id f prev _ ?_ hsel) ?_ (by simp [Conf.acquires, hpc])
      (by simp [Conf.releases, hpc])⟩
    · simp [switchAttach, assigns, selects]
    · simp [Pc.inflight, switchAttach, assigns, Stmt.counts]
  | attaching id f prev rest hrest hsel =>
    cases rest with
    | nil =>
      obtain ⟨rfl, rfl⟩ : Pc.readPrev id t f = pc' ∧ s.st = k' := by simpa [Pc.step] using hstep
      exact ⟨a, P, [], hmove _ (.readPrev id f prev hsel) rfl (by simp [Conf.acquires, hpc])
        (by simp [Conf.releases, hpc])⟩
    | cons st rest =>
      simp only [Pc.step, K.bind_eq_some, exec_eq_some] at hstep
      obtain ⟨_, k₁, ⟨-, rfl⟩, hstep⟩ := hstep
      obtain ⟨rfl, rfl⟩ : Pc.run rest (.readPrev id t f) = pc' ∧ st.apply E ⟨T.tgid, u⟩ s.st = k' := by
        simpa using hstep
      refine hpend st _ rest _ rfl hpc (.attaching id f prev rest (fun s' hs' => hrest s' (by simp [hs']))
        ?_)
      rw [Kernel.selected, apply_thread_of_ne hpriv.head (by simp [hrest st (by simp)])]
      exact hsel
  | readPrev id f prev hsel =>
    obtain ⟨rt, hrt, hprev⟩ := hsome prev hsel
    simp only [Pc.step, K.bind_eq_some, readThread_eq_some, nonNull_eq_some, hrt] at hstep
    obtain ⟨rt', k₁, ⟨hrt', rfl⟩, x, k₂, ⟨hx, rfl⟩, hstep⟩ := hstep
    obtain rfl : rt = rt' := by simpa using hrt'
    obtain rfl : prev = x := by simpa [hprev] using hx
    obtain ⟨rfl, rfl⟩ : Pc.run (switchTail t f prev) (.ret (.switchTo id) 0) = pc' ∧ s.st = k' := by
      simpa using hstep
    refine ⟨a, P, [], hmove _ (.writing _ _ _ (by simp)) ?_ (by simp [Conf.acquires, hpc])
      (by simp [Conf.releases, hpc])⟩
    rw [Pc.inflight_run hpriv]
    rfl
  | writing _ c v hc =>
    cases ss with
    | nil =>
      obtain ⟨rfl, rfl⟩ : Pc.ret c v = pc' ∧ s.st = k' := by simpa [Pc.step] using hstep
      exact ⟨a, P, [], hmove _ (.ret c v hc) rfl (by simp [Conf.acquires, hpc])
        (by simp [Conf.releases, hpc])⟩
    | cons st rest =>
      simp only [Pc.step, K.bind_eq_some, exec_eq_some] at hstep
      obtain ⟨_, k₁, ⟨-, rfl⟩, hstep⟩ := hstep
      obtain ⟨rfl, rfl⟩ : Pc.run rest (.ret c v) = pc' ∧ st.apply E ⟨T.tgid, u⟩ s.st = k' := by
        simpa using hstep
      exact hpend st rest rest _ rfl hpc (.writing rest c v hc)
  | checkSelected c hc =>
    obtain ⟨p, q, f, rf, hrec, hrun⟩ := h.running hr hid hpar
    have hrt : s.st.thread t = some r := hth ▸ hr
    simp only [Pc.step, K.bind_eq_some, readThread_eq_some, hrt] at hstep
    obtain ⟨rt', k₁, ⟨hrt', rfl⟩, hstep⟩ := hstep
    obtain rfl : r = rt' := by simpa using hrt'
    obtain ⟨rfl, rfl⟩ : Pc.readSelected c t = pc' ∧ s.st = k' := by
      simpa [hrun.selected] using hstep
    exact ⟨a, P, [], hmove _ (.readSelected c hc) rfl (by simp [Conf.acquires, hpc])
      (by simp [Conf.releases, hpc])⟩
  | readSelected c hc =>
    obtain ⟨p, q, f, rf, hrec, hrun⟩ := h.running hr hid hpar
    have hrt : s.st.thread t = some r := hth ▸ hr
    simp only [Pc.step, K.bind_eq_some, readThread_eq_some, nonNull_eq_some, hrt] at hstep
    obtain ⟨rt', k₁, ⟨hrt', rfl⟩, x, k₂, ⟨hx, rfl⟩, hstep⟩ := hstep
    obtain rfl : r = rt' := by simpa using hrt'
    obtain rfl : f = x := by simpa [hrun.selected] using hx
    obtain ⟨rfl, rfl⟩ : Pc.flsTest c f = pc' ∧ s.st = k' := by simpa using hstep
    exact ⟨a, P, [], hmove _ (.flsTest c hc f (selected_of_running hrun)) rfl
      (by simp [Conf.acquires, hpc]) (by simp [Conf.releases, hpc])⟩
  | flsTest c hc f hsel => exact h.advance_flsTest hreg hP hth hr hid hpar hc hsel hpc hstep
  | flsValue index f i hi hsel hbit =>
    exact h.advance_flsValue hreg hP hth hr hid hpar hi hsel hbit hpc hstep
  | dec hu => exact h.advance_dec hreg hu hP hth hr hid hpar hpc hstep

/-- Every step of a thread is matched by at most one step of the atomic system. -/
theorem advance {act : Act} {s' : Conf} (h : Sim E T s a P)
    (hstep : CStep E T.tgid s (u, act) s')
    (hstart : ∀ c, act = .start c → (T.reg u).isSome ∧ c.shared (u ≠ T.keeper)) :
    ∃ a' P' es, Advance E T s a P u act s' a' P' es := by
  cases act with
  | stmt =>
    obtain ⟨pc', k', hstep, rfl⟩ := hstep
    cases hreg : T.reg u with
    | none => simp [(h.unreg u hreg).1, Pc.step] at hstep
    | some t =>
      rcases h.known u t hreg with ⟨hl, hth, r, hr, hid, hpar⟩ | ⟨hg, hu, ha⟩
      · exact h.advance_live hreg rfl rfl hl hth hr hid hpar hstep
      · exact h.advance_gone hreg hu rfl ha rfl hg hstep
  | start c =>
    obtain ⟨hpc, rfl⟩ := hstep
    replace hpc : s.pc u = .user := hpc
    obtain ⟨hreg, hc⟩ := hstart c rfl
    obtain ⟨t, ht⟩ := Option.isSome_iff_exists.mp hreg
    have hentry : Pc.entry c = .findProcess c := Pc.entry_of_ne (by rintro rfl; exact hc)
    rcases h.known u t ht with ⟨hl, hth, r, hr, hid, hpar⟩ | ⟨hg, -, -⟩
    · rw [hpc] at hl
      generalize hP : P u = ss at hl hth
      cases hl
      refine ⟨a, P, [], .stay (h.silent (fun hn => by simp [ht] at hn) fun t' ht' => ?_) hpc ?_
        (by simp [Conf.acquires, hpc]) (by simp [Conf.releases, hpc])⟩
      · obtain rfl : t = t' := by simpa [ht] using ht'
        exact known_nil hP hth hr hid hpar (hentry ▸ .findProcess c hc)
      · rw [hentry]
        rfl
    · rw [hpc] at hg
      cases hg
  | finish c v =>
    obtain ⟨hpc, rfl⟩ := hstep
    replace hpc : s.pc u = .ret c v := hpc
    cases hreg : T.reg u with
    | none => simp [(h.unreg u hreg).1] at hpc
    | some t =>
      refine ⟨a, P, [], .stay (h.silent (fun hn => by simp [hreg] at hn) fun t' ht' => ?_) hpc ?_
        (by simp [Conf.acquires, hpc]) (by simp [Conf.releases, hpc])⟩
      · obtain rfl : t = t' := by simpa [hreg] using ht'
        rcases h.known u t hreg with ⟨hl, hth, hrest⟩ | ⟨hg, hu, ha⟩
        · rw [hpc] at hl
          generalize hP : P u = ss at hl hth ⊢
          cases hl with
          | ret c v hc =>
            simp only [if_neg hc]
            exact .inl ⟨.user, hth, hrest⟩
        · rw [hpc] at hg
          generalize hP : P u = ss at hg ⊢
          cases hg with
          | ret ht hl => exact .inr ⟨.dead ht hl, hu, ha⟩
      · by_cases hc : c = .exit <;> simp [Pc.inflight, Act.visible, hc]
  | user cpu =>
    obtain ⟨hpc, rfl⟩ := hstep
    replace hpc : s.pc u = .user := hpc
    have hP : P u = [] := by
      cases hreg : T.reg u with
      | none => exact (h.unreg u hreg).2
      | some t =>
        rcases h.known u t hreg with ⟨hl, -, -⟩ | ⟨hg, -, -⟩
        · rw [hpc] at hl
          generalize P u = ss at hl ⊢
          cases hl
          rfl
        · rw [hpc] at hg
          cases hg
    exact ⟨_, P, _, .one (.user u cpu) (h.user hpc hP) hpc rfl rfl (by simp [Conf.acquires, hpc])
      (by simp [Conf.releases, hpc]) fun _ _ _ => rfl⟩

/-! ## No statement gets stuck -/

theorem flsStep_isSome {c : Call} {f : Ptr} {rf : Fiber} {k : Kernel} (hc : c.isFls)
    (hf : k.fiber f = some rf) : ∃ x, flsStep f c k = some x := by
  have hread : readFiber f k = some (rf, k) := readFiber_eq_some.mpr ⟨hf, rfl⟩
  cases c with
  | flsAlloc =>
    simp only [flsStep, K.bind_apply, hread, Option.bind_some]
    split_ifs <;> exact ⟨_, rfl⟩
  | flsFree index | flsGetValue index | flsSetValue index _ =>
    cases hi : flsIndex? index with
    | none => exact ⟨_, by simp [flsStep, hi]; rfl⟩
    | some i =>
      simp only [flsStep, hi, K.bind_apply, hread, Option.bind_some]
      split_ifs <;> exact ⟨_, rfl⟩
  | _ => simp [Call.isFls] at hc

/-- A pending statement finds the records it needs. -/
theorem pending_ok {st : Stmt} {ss : List Stmt} (h : Sim E T s a P) (hreg : T.reg u = some t)
    (hP : P u = st :: ss) (ht : (s.st.thread t).isSome) : st.ok s.st := by
  have hpriv : AllPrivate (st :: ss) := hP ▸ h.view.priv u
  have hs := hpriv.head
  have hfiber : ∀ x, st.mention = some x → (s.st.fiber x).isSome := fun x hx => by
    have hl := h.locked u x (by rw [hP, mentions_cons]; exact .inl hx)
    cases hf : s.st.fiber x with
    | none => simp [Kernel.locked, hf] at hl
    | some r => rfl
  cases st with
  | fiber f as => exact hfiber f rfl
  | loadRegs f | loadFx f => exact hfiber f rfl
  | select t' f =>
    obtain rfl : t = t' := by
      simpa [hreg] using h.own u (.select t' f) (by simp [hP]) t' rfl
    exact ht
  | _ => simp [isPrivate] at hs

/-- A thread inside a call has a next statement that finds what it needs. -/
theorem progress (h : Sim E T s a P) (u : PidT) : s.pc u = .user ∨ s.pc u = .dead ∨
    (∃ c v, s.pc u = .ret c v) ∨ ∃ x, (s.pc u).step E ⟨T.tgid, u⟩ s.st = some x := by
  cases hreg : T.reg u with
  | none => exact .inl (h.unreg u hreg).1
  | some t =>
    obtain ⟨p, q, hrec⟩ := h.record
    have htarget : ∀ id f, T.target id = some (some f) → ∃ rf, s.st.fiber f = some rf := by
      intro id f hf
      rw [← h.lookup_left id, Kernel.lookup, hrec.left] at hf
      have hkey := (HashTable.find_eq_some hf).2
      simp only [Kernel.fiberKey, Option.map_eq_some_iff] at hkey
      exact ⟨_, hkey.choose_spec.1⟩
    have hselected : ∀ prev, s.st.selected t = some prev → ∃ rt, s.st.thread t = some rt ∧
        rt.selectedFiber = some prev := fun prev hsel => Option.bind_eq_some_iff.mp hsel
    rcases h.known u t hreg with ⟨hl, hth, r, hr, hid, hpar⟩ | ⟨hg, hu, ha⟩
    · obtain ⟨p', q', f, rf, hrec', hrun⟩ := h.running hr hid hpar
      have ht : (s.st.thread t).isSome := by
        have hkey : (applyAll E ⟨T.tgid, u⟩ (P u) s.st).threadKey t = s.st.threadKey t :=
          applyAll_threadKey (h.view.priv u) t
        simpa [Kernel.threadKey, ← hth, hr] using (congrArg Option.isSome hkey).symm
      have hown : ∀ f', P u = [] → a.selected t = some f' → s.st.fiber f' = some rf := by
        intro f' hP hsel
        obtain rfl : f = f' := by simpa [selected_of_running hrun] using hsel
        rw [← h.view.idle f (h.not_mentioned hreg hP hsel), hrun.fiber_eq]
      generalize hpc : s.pc u = pc at hl ⊢
      generalize hP : P u = ss at hl hth
      have hss : AllPrivate ss := hP ▸ h.view.priv u
      cases hl with
      | user => exact .inl rfl
      | ret c v => exact .inr (.inr (.inl ⟨c, v, rfl⟩))
      | findProcess c =>
        refine .inr (.inr (.inr ⟨(.findThread c T.ep, s.st), ?_⟩))
        simp only [Pc.step, K.bind_eq_some, findProcessByTgid_eq_some]
        exact ⟨_, _, ⟨h.processOf_left, rfl⟩, rfl⟩
      | findThread c =>
        refine .inr (.inr (.inr ⟨(c.enter T.ep t, s.st), ?_⟩))
        simp only [Pc.step, K.bind_eq_some, findThreadByPid_eq_some]
        exact ⟨_, _, ⟨p', hrec'.left, threadOf_left hrec' hrun hss hth, rfl⟩, rfl⟩
      | findFiber id =>
        obtain ⟨x, hx⟩ := h.target_isSome id
        rw [← h.lookup_left id, Kernel.lookup, hrec.left] at hx
        refine .inr (.inr (.inr ⟨(x.elim (.ret (.switchTo id) (-1)) (.trylock id t), s.st), ?_⟩))
        simp only [Pc.step, K.bind_eq_some, findFiberById_eq_some]
        exact ⟨x, _, ⟨p, hrec.left, hx, rfl⟩, by cases x <;> rfl⟩
      | trylock id f' hf =>
        obtain ⟨rf', hrf⟩ := htarget id f' hf
        simp only [Pc.step, K.bind_apply, spinTrylock, hrf, Option.map_some, Option.bind_some]
        exact .inr (.inr (.inr (by split_ifs <;> exact ⟨_, rfl⟩)))
      | failed id f' hf =>
        obtain ⟨rf', hrf⟩ := htarget id f' hf
        exact .inr (.inr (.inr ⟨_, Pc.step_run (by simp [ok, hrf])⟩))
      | checkAttached id f' prev hatt =>
        have hl := h.locked u f' (by rw [hP]; simp [switchAttach, assigns, mentions_cons, mention])
        obtain ⟨rf', hrf⟩ : ∃ rf', s.st.fiber f' = some rf' := by
          cases hf : s.st.fiber f' with
          | none => simp [Kernel.locked, hf] at hl
          | some r => exact ⟨r, rfl⟩
        have hattach : rf'.attachedThread = none := by simpa [Kernel.attached, hrf] using hatt
        refine .inr (.inr (.inr ⟨(.run (switchAttach t f') (.readPrev id t f'), s.st), ?_⟩))
        simp only [Pc.step, K.bind_eq_some, readFiber_eq_some]
        exact ⟨rf', _, ⟨hrf, rfl⟩, by simp [hattach]⟩
      | attaching id f' prev rest hrest hsel =>
        cases rest with
        | nil => exact .inr (.inr (.inr ⟨_, rfl⟩))
        | cons st rest =>
          exact .inr (.inr (.inr ⟨_, Pc.step_run (h.pending_ok hreg hP ht)⟩))
      | readPrev id f' prev hsel =>
        obtain ⟨rt, hrt, hprev⟩ := hselected prev hsel
        refine .inr (.inr (.inr ⟨(.run (switchTail t f' prev) (.ret (.switchTo id) 0), s.st), ?_⟩))
        simp only [Pc.step, K.bind_eq_some, readThread_eq_some, nonNull_eq_some]
        exact ⟨rt, _, ⟨hrt, rfl⟩, prev, _, ⟨hprev, rfl⟩, rfl⟩
      | writing _ c v hc =>
        cases ss with
        | nil => exact .inr (.inr (.inr ⟨_, rfl⟩))
        | cons st rest =>
          exact .inr (.inr (.inr ⟨_, Pc.step_run (h.pending_ok hreg hP ht)⟩))
      | checkSelected c hc =>
        have hrt : s.st.thread t = some r := hth ▸ hr
        refine .inr (.inr (.inr ⟨(.readSelected c t, s.st), ?_⟩))
        simp only [Pc.step, K.bind_eq_some, readThread_eq_some]
        exact ⟨r, _, ⟨hrt, rfl⟩, by simp [hrun.selected]⟩
      | readSelected c hc =>
        have hrt : s.st.thread t = some r := hth ▸ hr
        refine .inr (.inr (.inr ⟨(.flsTest c f, s.st), ?_⟩))
        simp only [Pc.step, K.bind_eq_some, readThread_eq_some, nonNull_eq_some]
        exact ⟨r, _, ⟨hrt, rfl⟩, f, _, ⟨hrun.selected, rfl⟩, rfl⟩
      | flsTest c hc f' hsel => exact .inr (.inr (.inr (flsStep_isSome hc (hown f' hP hsel))))
      | flsValue index f' i hi hsel =>
        refine .inr (.inr (.inr ⟨(.ret (.flsGetValue index) (rf.fls i).toInt, s.st), ?_⟩))
        simp only [Pc.step, K.bind_eq_some, readFiber_eq_some]
        exact ⟨rf, _, ⟨hown f' hP hsel, rfl⟩, rfl⟩
      | dec =>
        have hrt : s.st.thread t = some r := hth ▸ hr
        simp only [Pc.step, K.bind_apply, decActiveThreads_eq hrt hpar hrec.left]
        exact .inr (.inr (.inr ⟨_, rfl⟩))
    · generalize hpc : s.pc u = pc at hg ⊢
      generalize hP : P u = ss at hg
      cases hg with
      | dead => exact .inr (.inl rfl)
      | ret => exact .inr (.inr (.inl ⟨_, _, rfl⟩))
      | checkExit n prev hn hsel =>
        obtain ⟨rt, hrt, hprev⟩ := hselected prev hsel
        refine .inr (.inr (.inr ⟨(.exitPrev T.ep t n, s.st), ?_⟩))
        simp only [Pc.step, K.bind_eq_some, readThread_eq_some]
        exact ⟨rt, _, ⟨hrt, rfl⟩, by simp [hprev, hn]⟩
      | exitPrev n prev hn hsel =>
        obtain ⟨rt, hrt, hprev⟩ := hselected prev hsel
        refine .inr (.inr (.inr ⟨(.run (exitDetach (some prev) n ++ [.delThread T.ep t, .freeThread t])
          (.lastThread T.ep n), s.st), ?_⟩))
        simp only [Pc.step, K.bind_eq_some, readThread_eq_some, nonNull_eq_some]
        exact ⟨rt, _, ⟨hrt, rfl⟩, prev, _, ⟨hprev, rfl⟩, rfl⟩
      | detaching _ n hn ht =>
        cases ss with
        | nil =>
          exact .inr (.inr (.inr ⟨_, Pc.step_run (by simp [ok, hrec.left, ht])⟩))
        | cons st rest =>
          exact .inr (.inr (.inr ⟨_, Pc.step_run (h.pending_ok hreg hP ht)⟩))
      | freeing n hn ht =>
        exact .inr (.inr (.inr ⟨_, Pc.step_run (by simp [ok, ht])⟩))
      | freed | lastThread => exact .inr (.inr (.inr ⟨_, rfl⟩))

end Sim

end AosvFibers
