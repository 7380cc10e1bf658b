import AosvFibers.Interleaved.Creating
import AosvFibers.Interleaved.Conversion
import AosvFibers.Atomic.Locks

/-!
# A creation among switching threads

Thread `B` creates a fiber while other converted threads of its process switch. A
step is timely if it does not load the registers of the new fiber before `B` has
set `ip` and `di` in them, and counts no attempt to activate it before `B` has
cleared the counter.

Result: `creation_exact`.
-/

namespace AosvFibers

open Lib Stmt

/-! ## The property and its condition -/

/-- The step loads the registers saved in `f`. -/
def Move.loads (f : Ptr) (m : Move) : Prop := (m.pre.pc m.thread).upcoming = some (.loadRegs f)

/-- What is claimed of the creation by `B` of the fiber at `f`, after the steps
    `ms`. -/
structure Conf.CreationExact (E : Env) (g B : PidT) (sp sz fn arg : Word) (f : Ptr)
    (ms : List Move) (s : Conf) : Prop where
  returned : ∀ v, s.pc B = .ret (.create sp sz fn arg) v →
    ∃ (ep : Ptr) (id : PidT), id.toInt = v ∧ s.st.processOf E g = some (some ep) ∧
      s.st.leadsTo E ep id f
  starts : ∀ ms' m, ms = ms' ++ [m] → m.loads f → (∀ m' ∈ ms', ¬ m'.loads f) →
    (s.st.cpu ⟨g, m.thread⟩).regs.ip = fn ∧ (s.st.cpu ⟨g, m.thread⟩).regs.di = arg ∧
      (s.st.cpu ⟨g, m.thread⟩).regs.sp = sp + sz - 8
  counts : (s.pc B = .user ∨ ∃ v, s.pc B = .ret (.create sp sz fn arg) v) →
    (∀ u b, (s.pc u).owed b f = 0) → ∃ r, s.st.fiber f = some r ∧
      r.activationCounter = BitVec.ofNat 64 (attempts true f ms) ∧
      r.failedActivationCounter = BitVec.ofNat 64 (attempts false f ms)

/-- The condition on a step: a thread other than `B` runs no statement that uses a
    field of `f` before `B` has set it. -/
def Move.Timely (B : PidT) (f : Ptr) (m : Move) : Prop :=
  m.thread ≠ B → ∀ st, (m.pre.pc m.thread).upcoming = some st →
    ¬ st.early f (m.pre.pc B).pending

/-! ## The steps -/

variable {E : Env} {C : Crew} {f : Ptr} {sp sz fn arg : Word} {u : PidT} {k k' : Kernel}
  {n : Bool → ℕ} {loaded : Prop} {s : Conf} {P : PidT → List Stmt} {pc pc' : Pc}

/-- The creating thread neither loads registers nor counts attempts. -/
theorem Creating.quiet (h : Creating E C f sp sz fn arg n loaded k pc) :
    pc.upcoming ≠ some (.loadRegs f) ∧
    ∀ b, pc.tallies b f = false ∧ pc.owed b f = 0 ∧ pc.decides k f = none := by
  have hwrites : ∀ a ∈ creationWrites fn arg, ∀ b, Stmt.tallies b f (.fiber f a) = false := by
    intro a ha b
    simp only [creationWrites, List.mem_cons, List.not_mem_nil, or_false] at ha
    rcases ha with rfl | rfl | rfl | rfl | rfl | rfl | rfl | rfl | rfl | rfl <;> rfl
  have howed : ∀ as : List Assign, (∀ a ∈ as, a ∈ creationWrites fn arg) → ∀ b,
      (assigns f as).countP (Stmt.tallies b f) = 0 := by
    intro as has b
    simp only [List.countP_eq_zero, assigns, List.mem_map]
    rintro _ ⟨a, ha, rfl⟩
    simp [hwrites a (has a ha) b]
  cases h with
  | findProcess | findThread | newFiber | takeId => exact ⟨by rintro ⟨⟩, fun b => ⟨rfl, rfl, rfl⟩⟩
  | inserting id =>
    refine ⟨by rintro ⟨⟩, fun b => ⟨rfl, ?_, rfl⟩⟩
    rw [Pc.owed_cons, Pc.owed, Pc.pending, howed _ (fun _ ha => ha)]
    rfl
  | writing id as has =>
    cases as with
    | nil => exact ⟨by rintro ⟨⟩, fun b => ⟨rfl, rfl, rfl⟩⟩
    | cons a as =>
      refine ⟨by rintro ⟨⟩, fun b => ⟨hwrites a (has a (List.mem_cons_self ..)) b, ?_, rfl⟩⟩
      exact howed _ has b
  | made id pc _ hpc =>
    rcases hpc with rfl | rfl | rfl
    · exact ⟨by rintro ⟨⟩, fun b => ⟨rfl, rfl, rfl⟩⟩
    · exact ⟨by rintro ⟨⟩, fun b => ⟨rfl, rfl, rfl⟩⟩
    · exact ⟨by rintro ⟨⟩, fun b => ⟨rfl, rfl, rfl⟩⟩

namespace CreateInv

/-- A statement of the creating thread. -/
theorem stmt {t : Ptr} (h : CreateInv E C f sp sz fn arg n loaded s P) (hreg : C.reg C.maker = some t)
    (hstep : (s.pc C.maker).step E ⟨C.tgid, C.maker⟩ s.st = some (pc', k')) :
    CreateInv E C f sp sz fn arg n loaded (s.goto C.maker k' pc') P := by
  obtain ⟨p, hp, hwf, hinj, hfwf, hmem⟩ := h.guard.record
  have hphase := h.phase
  generalize s.pc C.maker = pc at hphase hstep
  cases hphase with
  | findProcess hm =>
    simp only [Pc.step, K.bind_eq_some, findProcessByTgid_eq_some, h.guard.processOf] at hstep
    obtain ⟨x, k₁, ⟨hx, rfl⟩, hret⟩ := hstep
    obtain rfl : some C.ep = x := Option.some.inj hx
    obtain ⟨rfl, rfl⟩ : _ = pc' ∧ s.st = k' := by simpa using hret
    exact h.moveOn (.findThread hm)
  | findThread hm =>
    have hfind : s.st.threadOf E p C.maker = some (some t) :=
      hinj.find_of_mem hwf (hmem _ t hreg) (h.guard.key _ t hreg)
    simp only [Pc.step, K.bind_eq_some, findThreadByPid_eq_some] at hstep
    obtain ⟨x, k₁, ⟨q, hq, hx, rfl⟩, hret⟩ := hstep
    obtain rfl : p = q := Option.some.inj (hp.symm.trans hq)
    obtain rfl : some t = x := Option.some.inj (hfind.symm.trans hx)
    obtain ⟨rfl, rfl⟩ : _ = pc' ∧ s.st = k' := by simpa [Call.enter] using hret
    exact h.moveOn (.newFiber hm)
  | newFiber hm =>
    simp only [Pc.step, K.bind_eq_some] at hstep
    obtain ⟨f', k₁, halloc, hret⟩ := hstep
    obtain ⟨rfl, rfl⟩ : _ = pc' ∧ k₁ = k' := by simpa using hret
    exact h.newFiber hm halloc
  | takeId hm =>
    simp only [Pc.step, K.bind_eq_some] at hstep
    obtain ⟨_, k₁, hid, hret⟩ := hstep
    obtain ⟨rfl, rfl⟩ : _ = pc' ∧ k₁ = k' := by simpa using hret
    exact h.takeId hm hid
  | inserting id hm hkey =>
    obtain ⟨-, rfl, hk'⟩ := run_cons_eq_some hstep
    exact h.insert hm hkey hk'
  | writing id as has hm =>
    cases as with
    | nil =>
      obtain ⟨rfl, rfl⟩ : _ = pc' ∧ s.st = k' := by simpa [Pc.step, assigns] using hstep
      exact h.moveOn (.made id _ hm (.inl rfl))
    | cons a as =>
      obtain ⟨-, rfl, hk'⟩ := run_cons_eq_some hstep
      exact h.write has hm hk'
  | made id pc hm hpc =>
    rcases hpc with rfl | rfl | rfl
    · obtain ⟨⟨q, hq, hfind⟩, r, hr, hstart⟩ := hm
      obtain ⟨r', hr', hid⟩ := Option.map_eq_some_iff.mp (HashTable.find_eq_some hfind).2
      obtain rfl : r = r' := Option.some.inj (hr.symm.trans hr')
      simp only [Pc.step, K.bind_eq_some, readFiber_eq_some] at hstep
      obtain ⟨r', k₁, ⟨hr', rfl⟩, hret⟩ := hstep
      obtain rfl : r = r' := Option.some.inj (hr.symm.trans hr')
      obtain ⟨rfl, rfl⟩ : _ = pc' ∧ s.st = k' := by simpa using hret
      exact h.moveOn (.made id _ ⟨⟨q, hq, hfind⟩, r, hr, hstart⟩ (.inr (.inl (by rw [hid]))))
    · simp [Pc.step] at hstep
    · simp [Pc.step] at hstep

/-- What holds once the call is about to return. -/
theorem done (h : CreateInv E C f sp sz fn arg n loaded s P)
    (hpc : (∃ c v, s.pc C.maker = .ret c v) ∨ s.pc C.maker = .user) :
    ∃ id, Listed E C f (sp + sz - 8) fn arg id [] n loaded s.st ∧
      ∀ c v, s.pc C.maker = .ret c v → c = .create sp sz fn arg ∧ v = id.toInt := by
  have hphase := h.phase
  generalize s.pc C.maker = pc at hphase hpc
  cases hphase with
  | made id pc hm hpc' =>
    refine ⟨id, hm, ?_⟩
    rintro c v rfl
    simpa using hpc'
  | _ => simp at hpc

/-- A step of the creating thread, which makes no other call. -/
theorem maker {act : Act} {s' : Conf} {t : Ptr} (h : CreateInv E C f sp sz fn arg n loaded s P)
    (hreg : C.reg C.maker = some t) (hstep : CStep E C.tgid s (C.maker, act) s')
    (hstart : ∀ c, act ≠ .start c) : CreateInv E C f sp sz fn arg n loaded s' P := by
  cases act with
  | start c => exact absurd rfl (hstart c)
  | stmt =>
    obtain ⟨pc', k', hs, rfl⟩ := hstep
    exact h.stmt hreg hs
  | finish c v =>
    obtain ⟨hpc, rfl⟩ := hstep
    obtain ⟨id, hm, hret⟩ := h.done (.inl ⟨c, v, hpc⟩)
    obtain ⟨rfl, -⟩ := hret c v hpc
    exact h.moveOn (.made id _ hm (.inr (.inr rfl)))
  | user cpu =>
    obtain ⟨hpc, rfl⟩ := hstep
    obtain ⟨id, hm, -⟩ := h.done (.inr hpc)
    refine h.make ?_ (fun _ _ _ => rfl) (.made id _ ⟨hm.found, hm.record⟩ (.inr (.inr rfl)))
    exact h.guard.idle rfl rfl rfl rfl (fun _ hm => absurd rfl hm) fun hm => absurd rfl hm

/-- Once the new fiber is on the table, the creating thread is making its writes or
    has made them all. -/
theorem listed_of_onTable (h : CreateInv E C f sp sz fn arg n loaded s P)
    (hon : s.st.onTable C.ep f) : ∃ id as, (s.pc C.maker).pending = assigns f as ∧
      Listed E C f (sp + sz - 8) fn arg id as n loaded s.st := by
  have hunmade : Unmade C f n loaded s.st → False := by
    intro hm
    obtain ⟨r, hr⟩ := h.guard.fiber_exists hon
    rw [hm.absent] at hr
    cases hr
  have hphase := h.phase
  generalize s.pc C.maker = pc at hphase
  cases hphase with
  | findProcess hm | findThread hm | newFiber hm => exact (hunmade hm).elim
  | takeId hm | inserting _ hm => exact absurd hon hm.off
  | writing id as _ hm => exact ⟨id, as, rfl, hm⟩
  | made id pc hm hpc =>
    refine ⟨id, [], ?_, hm⟩
    rcases hpc with rfl | rfl | rfl <;> rfl

/-- The new fiber is found once its fields are being written. -/
theorem found_of_writing (h : CreateInv E C f sp sz fn arg n loaded s P)
    (hpc : s.pc C.maker = .run (assigns f (creationWrites fn arg))
      (.readId (.create sp sz fn arg) f)) : ∃ id, s.st.leadsTo E C.ep id f := by
  have hphase := h.phase
  generalize s.pc C.maker = pc at hphase hpc
  cases hphase with
  | writing id as _ hm => exact ⟨id, hm.found⟩
  | inserting => simp [assigns, creationWrites] at hpc
  | made id pc _ hpc' =>
    subst hpc
    simp at hpc'
  | _ => cases hpc

/-- The registers that the first load finds. -/
theorem first_load (h : CreateInv E C f sp sz fn arg n loaded s P) (hl : ¬ loaded)
    (hu : u ≠ C.maker) (hup : (s.pc u).upcoming = some (.loadRegs f))
    (hearly : ¬ (Stmt.loadRegs f).early f (s.pc C.maker).pending) :
    ∃ r, s.st.fiber f = some r ∧ r.registers.ip = fn ∧ r.registers.di = arg ∧
      r.registers.sp = sp + sz - 8 := by
  obtain ⟨id, as, hpend, hm⟩ := h.listed_of_onTable (h.guard.upcoming_onTable hu hup rfl)
  obtain ⟨r, hr, hstart⟩ := hm.record
  rw [hpend] at hearly
  refine ⟨r, hr, (hstart.ip hl).resolve_left ?_, (hstart.di hl).resolve_left ?_, hstart.sp hl⟩
  · intro hm
    exact hearly ⟨rfl, fn, .inl (List.mem_map_of_mem hm)⟩
  · intro hm
    exact hearly ⟨rfl, arg, .inr (List.mem_map_of_mem hm)⟩

end CreateInv

/-- A statement that loads registers. -/
theorem cpu_of_loads {act : Act} {s' : Conf} {g : PidT} {r : Fiber}
    (hup : (s.pc u).upcoming = some (.loadRegs f)) (hr : s.st.fiber f = some r)
    (hstep : CStep E g s (u, act) s') : (s'.st.cpu ⟨g, u⟩).regs = r.registers := by
  cases act with
  | stmt =>
    obtain ⟨pc', k', hs, rfl⟩ := hstep
    replace hs : (s.pc u).step E ⟨g, u⟩ s.st = some (pc', k') := hs
    generalize s.pc u = pc at hup hs
    unfold Pc.upcoming at hup
    split at hup
    · obtain rfl := Option.some.inj hup
      obtain ⟨-, -, rfl⟩ := run_cons_eq_some hs
      simp [Stmt.apply, hr]
    · cases hup
  | start c =>
    rw [show s.pc u = .user from hstep.1] at hup
    cases hup
  | finish c v =>
    rw [show s.pc u = .ret c v from hstep.1] at hup
    cases hup
  | user cpu =>
    rw [show s.pc u = .user from hstep.1] at hup
    cases hup

/-! ## The run -/

/-- The invariant of the whole run. -/
def CreateRun (E : Env) (g : PidT) (k₀ : Kernel) (B : PidT) (sp sz fn arg : Word) (ms : List Move)
    (s : Conf) : Prop :=
  ∃ (C : Crew) (P : PidT → List Stmt), C.tgid = g ∧ C.maker = B ∧
    (∀ u, (k₀.running E ⟨g, u⟩).isSome → (C.reg u).isSome) ∧ (C.reg B).isSome ∧
    CreateInv E C (k₀.nextPtr g) sp sz fn arg (fun b => counted b (k₀.nextPtr g) ms)
      (∃ m ∈ ms, m.loads (k₀.nextPtr g)) s P ∧
    ∀ b, Attempted b (k₀.nextPtr g) ms s

theorem CreateRun.step {g B : PidT} {k₀ : Kernel} {ms : List Move} {m : Move} {s' : Conf}
    (h : CreateRun E g k₀ B sp sz fn arg ms s) (hm : m.Timely B (k₀.nextPtr g))
    (hstep : MakerStep E g k₀ B s m s') : CreateRun E g k₀ B sp sz fn arg (ms ++ [m]) s' := by
  obtain ⟨C, P, rfl, rfl, hreg, hB, h, hatt⟩ := h
  obtain ⟨rfl, hc, hstart⟩ := hstep
  have hloads : (∃ m' ∈ ms ++ [m], m'.loads (k₀.nextPtr C.tgid)) ↔
      (∃ m' ∈ ms, m'.loads (k₀.nextPtr C.tgid)) ∨ m.loads (k₀.nextPtr C.tgid) := by
    simp [or_and_right, exists_or]
  have hother : ∀ v, v ≠ m.thread → s'.pc v = m.pre.pc v := fun v hv => hc.pc_of_ne hv
  by_cases hu : m.thread = C.maker
  · obtain ⟨t, ht⟩ := Option.isSome_iff_exists.mp hB
    rw [hu] at hc
    have h' := h.maker ht hc fun c hact => (hstart c hact).1 hu
    obtain ⟨hload, hquiet⟩ := h.phase.quiet
    have hn : (fun b => counted b (k₀.nextPtr C.tgid) (ms ++ [m])) =
        fun b => counted b (k₀.nextPtr C.tgid) ms := by
      funext b
      rw [counted_snoc, hu, (hquiet b).1]
      rfl
    have hl : (∃ m' ∈ ms ++ [m], m'.loads (k₀.nextPtr C.tgid)) ↔
        ∃ m' ∈ ms, m'.loads (k₀.nextPtr C.tgid) := by
      rw [hloads, or_iff_left]
      rwa [Move.loads, hu]
    refine ⟨C, P, rfl, rfl, hreg, hB, ?_, ?_⟩
    · rw [hn, propext hl]
      exact h'
    · intro b
      refine (hatt b).step hother ?_
      obtain ⟨htally, howed, hdec⟩ := hquiet b
      rw [hu, (h'.phase.quiet.2 b).2.1, htally, howed, hdec]
      rfl
  · have hearly := hm hu
    have hswitch : ∀ c, m.act = .start c → (C.reg m.thread).isSome ∧ ∃ id, c = .switchTo id := by
      intro c hact
      obtain ⟨-, hrun, hid⟩ := hstart c hact
      exact ⟨hreg m.thread hrun, hid⟩
    obtain ⟨P', h'⟩ := h.other hu hc hswitch hearly (fun b => counted_snoc) hloads
    exact ⟨C, P', rfl, rfl, hreg, hB, h', fun b => (hatt b).step hother (h.guard.ledger hu hc)⟩

/-- The run begins. -/
theorem CreateRun.start {g B : PidT} (h : Shape E k) (hB : (k.running E ⟨g, B⟩).isSome) :
    CreateRun E g k B sp sz fn arg [] (.calling k B (.create sp sz fn arg)) := by
  obtain hn | ⟨ep, p, tp, t, x, r, hr⟩ := h.running_or ⟨g, B⟩
  · rw [hn.running_eq] at hB
    cases hB
  have hother : ∀ u, u ≠ B → (Conf.calling k B (.create sp sz fn arg)).pc u = .user := by
    intro u hu
    simp [Conf.calling, hu]
  have hguard : Guard E (k.crew E g B ep p) (.calling k B (.create sp sz fn arg)) (fun _ => []) none :=
    Guard.start h hr.process hr.process_eq rfl hother
  have habsent : k.fiber (k.nextPtr g) = none := h.fresh_fiber_none le_rfl
  have hreg : ∀ u, (k.running E ⟨g, u⟩).isSome → ((k.crew E g B ep p).reg u).isSome := by
    intro u hu
    exact Kernel.crew_reg_isSome hr.process hr.process_eq hu
  refine ⟨k.crew E g B ep p, fun _ => [], rfl, rfl, hreg, hreg B hB, ⟨hguard, rfl, ?_, ?_, ?_⟩, ?_⟩
  · intro u t _
    exact exists_nil_suffix t _ _
  · intro _ u t ht hsel
    obtain ⟨y, hy, hon, -⟩ := hguard.runs u t ht
    obtain rfl : y = k.nextPtr g := Option.some.inj (hy.symm.trans hsel)
    obtain ⟨r', hr'⟩ := hguard.fiber_exists hon
    have habsent' : (Conf.calling k B (.create sp sz fn arg)).st.fiber (k.nextPtr g) = none := habsent
    rw [habsent'] at hr'
    cases hr'
  · have hself : (Conf.calling k B (.create sp sz fn arg)).pc B =
        .findProcess (.create sp sz fn arg) := by
      simp [Conf.calling, Pc.entry]
    show Creating E (k.crew E g B ep p) _ sp sz fn arg _ _ _ ((Conf.calling k B _).pc B)
    rw [hself]
    exact .findProcess ⟨rfl, habsent, fun _ => rfl, by simp⟩
  · intro b
    have howed : ∀ u, ((Conf.calling k B (.create sp sz fn arg)).pc u).owed b (k.nextPtr g) = 0 := by
      intro u
      by_cases hu : u = B
      · subst hu
        simp [Conf.calling, Pc.entry, Pc.owed, Pc.pending]
      · rw [hother u hu]
        rfl
    rw [Attempted, Finset.sum_eq_zero fun u _ => howed u]
    rfl

/-- Timely steps keep the invariant. -/
theorem CreateRun.of_run {g B : PidT} {k₀ : Kernel} {ms : List Move} {s' : Conf}
    (h : CreateRun E g k₀ B sp sz fn arg [] s) (hrun : Run (MakerStep E g k₀ B) s ms s')
    (hms : ∀ m ∈ ms, m.Timely B (k₀.nextPtr g)) : CreateRun E g k₀ B sp sz fn arg ms s' := by
  induction hrun with
  | nil => exact h
  | @snoc ls s₁ s₂ m _ hstep ih =>
    have hprev := ih fun m' hm' => hms m' (List.mem_append_left _ hm')
    exact hprev.step (hms m (by simp)) hstep

/-- In every run whose steps are timely, the first activation of the new fiber starts
    at its own function and its two counters count every attempt. -/
theorem creation_exact (E : Env) (g B : PidT) (sp sz fn arg : Word) (k₀ : Kernel)
    (hk : Reachable E k₀) (hB : (k₀.running E ⟨g, B⟩).isSome) (ms : List Move) (s : Conf)
    (hrun : Run (MakerStep E g k₀ B) (.calling k₀ B (.create sp sz fn arg)) ms s)
    (hms : ∀ m ∈ ms, m.Timely B (k₀.nextPtr g)) :
    s.CreationExact E g B sp sz fn arg (k₀.nextPtr g) ms := by
  have hstart : CreateRun E g k₀ B sp sz fn arg [] _ := .start hk.inv.toShape hB
  obtain ⟨C, P, rfl, rfl, hreg, -, h, hatt⟩ := hstart.of_run hrun hms
  refine ⟨?_, ?_, ?_⟩
  · intro v hpc
    obtain ⟨id, hm, hret⟩ := h.done (.inl ⟨_, v, hpc⟩)
    exact ⟨C.ep, id, (hret _ v hpc).2.symm, h.guard.processOf, hm.found⟩
  · rintro ms' m rfl hload hfirst
    obtain ⟨s₁, hrun₁, rfl, hc, -⟩ := hrun.snoc_inv
    obtain ⟨C', P', hg, hmaker, -, -, h₁, -⟩ :=
      hstart.of_run hrun₁ fun m' hm' => hms m' (List.mem_append_left _ hm')
    have hu : m.thread ≠ C'.maker := by
      intro hu
      refine h₁.phase.quiet.1 ?_
      rw [← hu]
      exact hload
    have hearly := hms m (by simp) (hmaker ▸ hu) _ hload
    rw [← hmaker] at hearly
    have hno : ¬ ∃ m' ∈ ms', m'.loads (k₀.nextPtr C.tgid) := by
      rintro ⟨m', hm', hl⟩
      exact hfirst m' hm' hl
    obtain ⟨r, hr, hip, hdi, hsp⟩ := h₁.first_load hno hu hload hearly
    rw [cpu_of_loads hload hr hc]
    exact ⟨hip, hdi, hsp⟩
  · intro hpc howed
    obtain ⟨id, hm, -⟩ := h.done (hpc.symm.imp_left (.intro _))
    obtain ⟨r, hr, hstart⟩ := hm.record
    have hcounter : ∀ b, r.counter b = BitVec.ofNat 64 (attempts b (k₀.nextPtr C.tgid) ms) := by
      intro b
      rw [(hatt b).eq_counted fun u => howed u b]
      exact (hstart.counter b).resolve_left List.not_mem_nil
    exact ⟨r, hr, hcounter true, hcounter false⟩

/-- Thread 7 is converted and creates a fiber on its own. -/
theorem creation_exact_alone :
    let k₀ := Kernel.firstConverted (.linux 240) ⟨7, 7⟩ fun _ => .zero
    ∃ ms s, Run (MakerStep (.linux 240) 7 k₀ 7) (.calling k₀ 7 (.create 4096 64 17 5)) ms s ∧
      s.pc 7 = .ret (.create 4096 64 17 5) 2 ∧
      s.CreationExact (.linux 240) 7 7 4096 64 17 5 (k₀.nextPtr 7) ms := by
  intro k₀
  have hcaller := firstConverted_caller (.linux 240) ⟨7, 7⟩ fun _ => .zero
  have hreach : Reachable (.linux 240) k₀ := .firstConverted (.linux 240) ⟨7, 7⟩ _
  obtain ⟨f, r, hr⟩ := hreach.inv.toShape.running_of_caller hcaller
  have hsome : (k₀.running (.linux 240) ⟨7, 7⟩).isSome := by
    rw [hr.running_eq]
    rfl
  have hcreate : Call.run (.linux 240) ⟨7, 7⟩ (.create 4096 64 17 5) k₀ = some (2, _) :=
    doCreateFiber_eq hcaller 4096 64 17 5
  obtain ⟨ms, hms, hthread⟩ := exists_run_calling (solo_call hcreate)
  refine ⟨ms, _, hms, by simp, ?_⟩
  exact creation_exact (.linux 240) 7 7 4096 64 17 5 k₀ hreach hsome ms _ hms
    fun m hm hne => absurd (hthread m hm) hne

/-! ## A load that is too early -/

/-- The creating thread on its own, up to the insertion of its fiber. -/
theorem solo_inserted {cur : Task} {ep tp : Ptr} {p : Process} {t : Thread} (st : Stmt)
    (sp sz fn arg : Word) (h : Caller E k cur ep p tp t) (hst : st ≠ .addFiber ep (k.nextPtr cur.tgid)) : ∃ k₃ r,
      SoloAvoid E cur st (.entry (.create sp sz fn arg), k)
        (.run (assigns (k.nextPtr cur.tgid) (creationWrites fn arg))
          (.readId (.create sp sz fn arg) (k.nextPtr cur.tgid)), k₃) ∧
      k₃.fiber (k.nextPtr cur.tgid) = some r ∧
      r.fiberLock = false ∧ r.attachedThread = none ∧
      r.registers.ip = (k.cpu cur).regs.ip := by
  set f := k.nextPtr cur.tgid with hf
  have h1 : findProcessByTgid E cur.tgid k = some (some ep, k) :=
    findProcessByTgid_eq_some.mpr ⟨h.process, rfl⟩
  have h2 : findThreadByPid E cur.pid ep k = some (some tp, k) :=
    findThreadByPid_eq_some.mpr ⟨p, h.process_eq, h.thread, rfl⟩
  obtain ⟨k₁, h3, hp₁, hr₁⟩ : ∃ k₁, allocFiber E cur ep (Maker.create sp sz fn arg).ss sp k = some (f, k₁) ∧
      k₁.process ep = some p ∧ k₁.fiber f = some (freshFiber E f (k.cpu cur) ep sz.toNat sp) :=
    ⟨_, rfl, h.process_eq, Function.update_self ..⟩
  set r := freshFiber E f (k.cpu cur) ep sz.toNat sp with hr
  obtain ⟨k₂, h4, hk₂⟩ : ∃ k₂, takeFiberId ep f k₁ = some ((), k₂) ∧ k₂ =
      (k₁.modProcess ep fun r => { r with lastFiberId := r.lastFiberId + 1 }).modFiber f
        fun r => { r with fiberId := p.nextId } := by
    refine ⟨_, ?_, rfl⟩
    simp only [takeFiberId, hp₁, Option.bind_some, hr₁, Option.isSome_some, if_true]
    rfl
  have hr₂ : k₂.fiber f = some { r with fiberId := p.nextId } := by simp [hk₂, hr₁]
  have hp₂ : k₂.process ep = some { p with lastFiberId := p.lastFiberId + 1 } := by simp [hk₂, hp₁]
  have hok : (Stmt.addFiber ep f).ok k₂ := by simp [Stmt.ok, hr₂, hp₂]
  refine ⟨(Stmt.addFiber ep f).apply E cur k₂, { r with fiberId := p.nextId }, ?_, ?_, rfl, rfl, rfl⟩
  · show SoloAvoid E cur st (.findProcess (.create sp sz fn arg), k) _
    refine .step (by simp only [Pc.step, K.bind_apply, h1]; rfl) (by rintro ⟨⟩) ?_
    refine .step (by simp only [Pc.step, K.bind_apply, h2]; rfl) (by rintro ⟨⟩) ?_
    refine .step (by simp only [Call.enter, Pc.step, K.bind_apply, Maker.sPtr, h3]; rfl) (by rintro ⟨⟩) ?_
    refine .step (by simp only [Pc.step, K.bind_apply, h4]; rfl) (by rintro ⟨⟩) ?_
    refine .step (Pc.step_run hok) ?_ .refl
    intro he
    exact hst (Option.some.inj he).symm
  · simp [Stmt.apply, hr₂]

/-- A switching thread on its own takes the new fiber and comes to the load of its
    registers. -/
theorem Guard.solo_loading {id : PidT} {t : Ptr} {r : Fiber} (h : Guard E C s P none)
    (hreg : C.reg u = some t) (hfound : s.st.leadsTo E C.ep id f) (hr : s.st.fiber f = some r)
    (hlock : r.fiberLock = false) (hatt : r.attachedThread = none) : ∃ k₁ r₁ next,
      SoloAvoid E ⟨C.tgid, u⟩ (.loadRegs f) (.findProcess (.switchTo id), s.st)
        (.run [.loadRegs f, .loadFx f] next, k₁) ∧
      k₁.fiber f = some r₁ ∧ r₁.registers = r.registers := by
  have hlocked : s.st.locked f = false := by simp [Kernel.locked, hr, hlock]
  obtain ⟨prev, hsel, hon, hprev⟩ := h.runs u t hreg
  obtain ⟨rt, ht, hrt⟩ := Guard.selected_exists hsel
  obtain ⟨rp, hrp⟩ := h.fiber_exists hon
  have hne : f ≠ prev := by
    rintro rfl
    rw [hlocked] at hprev
    cases hprev
  have htry := Guard.solo_trylock (.loadRegs f) h hreg hfound hlocked
  set k₁ := s.st.withLock f with hk₁
  have hr₁ : k₁.fiber f = some { r with fiberLock := true } := by simp [hk₁, Kernel.withLock, hr]
  have hcheck : (Pc.checkAttached id t f).step E ⟨C.tgid, u⟩ k₁ =
      some (.run (switchAttach t f ++ []) (.readPrev id t f), k₁) := by
    simp only [Pc.step, K.bind_apply, readFiber, hr₁, Option.map_some, Option.bind_some, hatt]
    rfl
  have hattach : execAll E ⟨C.tgid, u⟩ (switchAttach t f) k₁ =
      some ((), applyAll E ⟨C.tgid, u⟩ (switchAttach t f) k₁) :=
    execAll_eq_some.mpr ⟨okAll_assigns _ (by simp [hr₁]), rfl⟩
  set k₂ := applyAll E ⟨C.tgid, u⟩ (switchAttach t f) k₁ with hk₂
  have hk₂' : k₂ = k₁.modFiber f (runAll ⟨C.tgid, u⟩ (k₁.cpu ⟨C.tgid, u⟩)
      [.attach (some t), .countActivation]) := applyAll_assigns _ _ _
  have ht₂ : k₂.thread t = some rt := by rw [hk₂']; exact ht
  have hread : (Pc.readPrev id t f).step E ⟨C.tgid, u⟩ k₂ =
      some (.run (switchTail t f prev) (.ret (.switchTo id) 0), k₂) := by
    simp only [Pc.step, K.bind_apply, readThread, ht₂, Option.map_some, Option.bind_some, hrt, nonNull]
    rfl
  -- the statements of the switch before the load
  set pre := select t f :: assigns prev [.chargeTime, .saveRegs, .saveFx, .attach none, .unlock]
  have hrp₂ : k₂.fiber prev = some rp := by
    simp [hk₂', hk₁, Kernel.withLock, hne.symm, hrp]
  have hpre : execAll E ⟨C.tgid, u⟩ pre k₂ = some ((), applyAll E ⟨C.tgid, u⟩ pre k₂) := by
    refine execAll_eq_some.mpr ⟨⟨by simp [Stmt.ok, ht₂], okAll_assigns _ ?_⟩, rfl⟩
    simp [Stmt.apply, hrp₂]
  have hfinal : (applyAll E ⟨C.tgid, u⟩ pre k₂).fiber f = k₂.fiber f := by
    rw [applyAll_cons, applyAll_assigns]
    simp [Stmt.apply, hne]
  obtain ⟨r₂, hr₂, hregs⟩ : ∃ r₂, k₂.fiber f = some r₂ ∧ r₂.registers = r.registers := by
    refine ⟨runAll ⟨C.tgid, u⟩ (k₁.cpu ⟨C.tgid, u⟩) [.attach (some t), .countActivation]
      { r with fiberLock := true }, ?_, rfl⟩
    simp [hk₂', hr₁]
  refine ⟨applyAll E ⟨C.tgid, u⟩ pre k₂, r₂, .ret (.switchTo id) 0, htry.trans ?_,
    hfinal.trans hr₂, hregs⟩
  refine .step hcheck (by rintro ⟨⟩) ?_
  refine (SoloAvoid.run hattach (by simp [switchAttach, assigns])).trans ?_
  refine .step rfl (by rintro ⟨⟩) ?_
  refine .step hread (by rintro ⟨⟩) ?_
  exact SoloAvoid.run hpre (by simp [assigns])

/-- The converted thread `a` loads the registers of the new fiber before the
    creating thread has set `ip`. -/
theorem exists_early_run (E : Env) {g a B : PidT} (hab : B ≠ a) {k₀ : Kernel} (hk : Reachable E k₀)
    (ha : (k₀.running E ⟨g, a⟩).isSome) (hB : (k₀.running E ⟨g, B⟩).isSome)
    (hip : (k₀.cpu ⟨g, B⟩).regs.ip ≠ fn) :
    ∃ ms s, Run (MakerStep E g k₀ B) (.calling k₀ B (.create sp sz fn arg)) ms s ∧
      ¬ s.CreationExact E g B sp sz fn arg (k₀.nextPtr g) ms := by
  have hshape := hk.inv.toShape
  obtain hn | ⟨ep, p, tp, rt, x, rx, hr⟩ := hshape.running_or ⟨g, B⟩
  · rw [hn.running_eq] at hB
    cases hB
  set f := k₀.nextPtr g with hf
  obtain ⟨k₃, r, hsolo, hrec, hlock, hatt, hr_ip⟩ :=
    solo_inserted (.loadRegs f) sp sz fn arg hr.toCaller (by rintro ⟨⟩)
  -- the creating thread on its own
  set s₀ := Conf.calling k₀ B (.create sp sz fn arg) with hs₀
  set s₁ := s₀.goto B k₃ (.run (assigns f (creationWrites fn arg)) (.readId (.create sp sz fn arg) f))
    with hs₁
  have hself : s₀.goto B k₀ (.entry (.create sp sz fn arg)) = s₀ :=
    Conf.goto_goto (Conf.idle k₀) B k₀ k₀ _ _
  obtain ⟨ms, hms, hall⟩ : ∃ ms, Run (MakerStep E g k₀ B)
      (s₀.goto B k₀ (.entry (.create sp sz fn arg))) ms s₁ ∧
      ∀ m ∈ ms, m.thread = B ∧ (m.pre.pc m.thread).upcoming ≠ some (.loadRegs f) := hsolo.exists_run
  rw [hself] at hms
  have hstart : CreateRun E g k₀ B sp sz fn arg [] s₀ := .start hshape hB
  obtain ⟨C, P, rfl, rfl, hreg, -, h, -⟩ :=
    hstart.of_run hms fun m hm hne => absurd (hall m hm).1 hne
  have hpc : s₁.pc C.maker = .run (assigns f (creationWrites fn arg)) (.readId (.create sp sz fn arg) f) :=
    (Conf.goto_pc ..).trans (if_pos rfl)
  obtain ⟨id, hfound⟩ := h.found_of_writing hpc
  -- the switching thread on its own
  obtain ⟨t, ht⟩ := Option.isSome_iff_exists.mp (hreg a ha)
  obtain ⟨k₄, r₄, next, hload, hrec₄, hregs⟩ := h.guard.solo_loading ht hfound hrec hlock hatt
  have huser : s₁.pc a = .user := by simp [hs₁, hs₀, Conf.calling, hab.symm]
  have hcall : MakerStep E C.tgid k₀ C.maker s₁ ⟨s₁, a, .start (.switchTo id)⟩
      (s₁.goto a s₁.st (.findProcess (.switchTo id))) := by
    refine ⟨rfl, ⟨huser, rfl⟩, ?_⟩
    rintro c hc
    obtain rfl : Call.switchTo id = c := by simpa using hc
    exact ⟨hab.symm, ha, id, rfl⟩
  set s₂ := s₁.goto a k₄ (.run [.loadRegs f, .loadFx f] next) with hs₂
  obtain ⟨ms', hms', hall'⟩ : ∃ ms', Run (MakerStep E C.tgid k₀ C.maker)
      (s₁.goto a s₁.st (.findProcess (.switchTo id))) ms' s₂ ∧
      ∀ m ∈ ms', m.thread = a ∧ (m.pre.pc m.thread).upcoming ≠ some (.loadRegs f) := hload.exists_run
  -- the load
  have hpc₂ : s₂.pc a = .run [.loadRegs f, .loadFx f] next := (Conf.goto_pc ..).trans (if_pos rfl)
  replace hrec₄ : k₄.fiber f = some r₄ := hrec₄
  have hok : (Stmt.loadRegs f).ok k₄ := by simp [Stmt.ok, hrec₄]
  have hstmt : CStep E C.tgid s₂ (a, .stmt) (s₂.goto a ((Stmt.loadRegs f).apply E ⟨C.tgid, a⟩ k₄)
      (.run [.loadFx f] next)) := by
    refine ⟨_, _, ?_, rfl⟩
    rw [hpc₂]
    exact Pc.step_run hok
  have hup : (s₂.pc a).upcoming = some (.loadRegs f) := by
    rw [hpc₂]
    rfl
  have hlast : MakerStep E C.tgid k₀ C.maker s₂ ⟨s₂, a, .stmt⟩ _ := ⟨rfl, hstmt, by rintro _ ⟨⟩⟩
  refine ⟨_, _, (hms.trans (hms'.head hcall)).snoc hlast, ?_⟩
  intro hexact
  have hfirst : ∀ m ∈ ms ++ ⟨s₁, a, .start (.switchTo id)⟩ :: ms', ¬ m.loads f := by
    intro m hm
    rcases List.mem_append.mp hm with hm | hm
    · exact (hall m hm).2
    · rcases List.mem_cons.mp hm with rfl | hm
      · intro hl
        have hnone : (s₁.pc a).upcoming = some (.loadRegs f) := hl
        rw [huser] at hnone
        cases hnone
      · exact (hall' m hm).2
  obtain ⟨hfn, -⟩ := hexact.starts _ _ rfl hup hfirst
  rw [cpu_of_loads hup hrec₄ hstmt, hregs, hr_ip] at hfn
  exact hip hfn

/-- Both threads of the process are converted. -/
theorem secondConverted_running (E : Env) {g a b : PidT} (hab : b ≠ a) (cpu : Task → Cpu) :
    Reachable E (Kernel.secondConverted E g a b cpu) ∧
    ((Kernel.secondConverted E g a b cpu).running E ⟨g, a⟩).isSome ∧
    ((Kernel.secondConverted E g a b cpu).running E ⟨g, b⟩).isSome := by
  have hfirst : Reachable E (Kernel.firstConverted E ⟨g, a⟩ cpu) := .firstConverted E ⟨g, a⟩ cpu
  obtain ⟨-, -, hrun⟩ := firstConverted_second E (g := g) hab cpu
  have hstep : (Op.call ⟨g, b⟩ .convert).run E (Kernel.firstConverted E ⟨g, a⟩ cpu) =
      some (2, Kernel.secondConverted E g a b cpu) := hrun
  have hreach := hfirst.step hstep
  refine ⟨hreach, ?_, ?_⟩
  · obtain ⟨f, r, hr⟩ := hfirst.inv.toShape.running_of_caller (firstConverted_caller E ⟨g, a⟩ cpu)
    have hout := hfirst.inv.toShape.outcome_of_run hstep
    have hne : (⟨g, a⟩ : Task) ≠ ⟨g, b⟩ := by
      intro h
      exact hab (congrArg Task.pid h).symm
    rw [hout.running_other hfirst.inv (by rintro ⟨⟩) hne, hr.running_eq]
    rfl
  · have hthread : (Kernel.secondConverted E g a b cpu).thread ⟨g, 3⟩ =
        some { threadId := b, parent := ⟨g, 0⟩, selectedFiber := some ⟨g, 4⟩ } := by
      simp [Kernel.secondConverted, Kernel.firstConverted, Kernel.converted, Kernel.withProcess,
        Kernel.boot, Kernel.nextPtr]
    exact Option.isSome_iff_exists.mpr
      ⟨_, hreach.inv.running_iff.mpr ⟨⟨g, 3⟩, _, rfl, hthread, rfl, rfl⟩⟩

/-- Thread 7 switches to fiber 3, which thread 8 is creating, before its `ip` is
    set. -/
theorem creation_not_exact :
    let k₀ := Kernel.secondConverted (.linux 240) 7 7 8 fun _ => .zero
    Reachable (.linux 240) k₀ ∧ (k₀.running (.linux 240) ⟨7, 8⟩).isSome ∧
    ∃ ms s, Run (MakerStep (.linux 240) 7 k₀ 8) (.calling k₀ 8 (.create 4096 64 17 5)) ms s ∧
      ¬ s.CreationExact (.linux 240) 7 8 4096 64 17 5 (k₀.nextPtr 7) ms := by
  intro k₀
  have hab : (8 : PidT) ≠ 7 := by decide
  obtain ⟨hreach, ha, hb⟩ := secondConverted_running (.linux 240) (g := 7) hab fun _ => .zero
  have hip : (k₀.cpu ⟨7, 8⟩).regs.ip ≠ 17 := by decide
  exact ⟨hreach, hb, exists_early_run (.linux 240) hab hreach ha hb hip⟩

end AosvFibers
