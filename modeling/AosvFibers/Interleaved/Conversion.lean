import AosvFibers.Interleaved.Converting

/-!
# A conversion among switching threads

A step is unhindered if no other thread tries the lock of the fiber that the
conversion of `A` has made and not locked yet. Unhindered steps keep `ConvInv`
(`ConvRun.step`), from the call on or, where the process has no record yet, from
the first statement on.

Result: `conversion_exact`.
-/

namespace AosvFibers

open Lib Stmt

/-! ## The property and its condition -/

/-- No two registered threads have the same `selected_fiber`. -/
def Kernel.selectsApart (E : Env) (k : Kernel) (g : PidT) : Prop :=
  ∀ ep p, k.processOf E g = some (some ep) → k.process ep = some p →
    ∀ t ∈ p.threads, ∀ t' ∈ p.threads, ∀ x, k.selected t = some x → k.selected t' = some x → t = t'

/-- Thread `u` is registered with the fiber that `id` leads to, which is attached to
    it, locked and run by nobody else. -/
def Kernel.converts (E : Env) (k : Kernel) (g u id : PidT) : Prop :=
  ∃ ep p tp f, k.processOf E g = some (some ep) ∧ k.process ep = some p ∧
    k.threadOf E p u = some (some tp) ∧ k.fiberOf E p id = some (some f) ∧
    k.attached f = some tp ∧ k.locked f = true ∧ ∀ t ∈ p.threads, t ≠ tp → k.selected t ≠ some f

/-- Thread `u` is not registered and no fiber is attached to it. -/
def Kernel.unconverted (E : Env) (k : Kernel) (g u : PidT) : Prop :=
  (∀ ep p, k.processOf E g = some (some ep) → k.process ep = some p →
    k.threadOf E p u = some none) ∧
  ∀ x tp r, k.attached x = some tp → k.thread tp = some r → tp.tgid = g → r.threadId ≠ u

/-- What is claimed of the conversion of `A`. -/
structure Conf.ConversionExact (E : Env) (g A : PidT) (s : Conf) : Prop where
  apart : s.st.selectsApart E g
  converted : ∀ v, s.pc A = .ret .convert v → v ≠ -1 →
    ∃ id : PidT, id.toInt = v ∧ s.st.converts E g A id
  refused : s.pc A = .ret .convert (-1) → s.st.unconverted E g A

/-- The fiber a conversion has made and not locked yet. -/
def Pc.building : Pc → Option Ptr
  | .run _ (.lockNew _ f) | .lockNew _ f => some f
  | _ => none

/-- The condition on a step: a thread other than `A` does not try the lock of the
    fiber `A` has made and not locked yet. -/
def Move.Unhindered (A : PidT) (m : Move) : Prop :=
  m.thread ≠ A → ∀ f, (m.pre.pc A).building = some f → (m.pre.pc m.thread).trying ≠ some f

/-! ## The steps -/

variable {E : Env} {C : Crew} {id u : PidT} {k k' : Kernel} {gp f : Ptr} {s : Conf} {pc pc' : Pc}
  {own site : Option Ptr} {ss : List Stmt} {P : PidT → List Stmt}

namespace ConvInv

/-- A statement of the converting thread. -/
theorem stmt (h : ConvInv E C id s P own site) (hA : C.reg C.maker = none)
    (hstep : (s.pc C.maker).step E ⟨C.tgid, C.maker⟩ s.st = some (pc', k')) :
    ∃ P' own' site', ConvInv E C id (s.goto C.maker k' pc') P' own' site' := by
  have hphase := h.phase
  generalize hpc : s.pc C.maker = pc at hphase hstep
  generalize hP : P C.maker = ss at hphase
  cases hphase with
  | findOrCreate hid =>
    simp only [Pc.step, findOrCreateProcess, K.bind_eq_some, findProcessByTgid_eq_some,
      h.guard.processOf] at hstep
    obtain ⟨ep, k₁, ⟨x, k₂, ⟨hx, rfl⟩, hfind⟩, hret⟩ := hstep
    obtain rfl : some C.ep = x := Option.some.inj hx
    obtain ⟨rfl, rfl⟩ : C.ep = ep ∧ s.st = k₁ := by simpa using hfind
    obtain ⟨rfl, rfl⟩ : _ = pc' ∧ s.st = k' := by simpa using hret
    exact ⟨P, none, none, h.moveOn (hP ▸ .findSelf hid)⟩
  | findSelf hid =>
    simp only [Pc.step, K.bind_eq_some, findThreadByPid_eq_some] at hstep
    obtain ⟨x, k₁, ⟨p, hp, hx, rfl⟩, hret⟩ := hstep
    obtain rfl : none = x := Option.some.inj ((h.threadOf_none hA hp).symm.trans hx)
    obtain ⟨rfl, rfl⟩ : _ = pc' ∧ s.st = k' := by simpa using hret
    exact ⟨P, none, none, h.moveOn (hP ▸ .newThread hid)⟩
  | newThread hid =>
    simp only [Pc.step, K.bind_eq_some] at hstep
    obtain ⟨gp, k₁, halloc, hret⟩ := hstep
    obtain ⟨rfl, rfl⟩ : _ = pc' ∧ k₁ = k' := by simpa using hret
    exact ⟨P, none, none, h.newThread hP hid halloc⟩
  | counting gp hid hown =>
    obtain ⟨-, rfl, hk'⟩ := run_cons_eq_some hstep
    exact ⟨P, none, none, h.incActive hP hid hown hk'⟩
  | adding gp hid hown =>
    obtain ⟨-, rfl, hk'⟩ := run_cons_eq_some hstep
    exact ⟨P, some gp, none, h.addThread hA hP hid hown hk'⟩
  | added gp hid hown =>
    obtain ⟨rfl, rfl⟩ : _ = pc' ∧ s.st = k' := by simpa [Pc.step] using hstep
    exact ⟨P, some gp, none, h.moveOn (hP ▸ .newFiber gp hid hown)⟩
  | newFiber gp hid hown =>
    simp only [Pc.step, K.bind_eq_some] at hstep
    obtain ⟨f, k₁, halloc, hret⟩ := hstep
    obtain ⟨rfl, rfl⟩ : _ = pc' ∧ k₁ = k' := by simpa using hret
    exact ⟨P, some gp, none, h.newFiber hP hid hown halloc⟩
  | takeId gp f hid hown hoff hf =>
    simp only [Pc.step, K.bind_eq_some] at hstep
    obtain ⟨_, k₁, hid', hret⟩ := hstep
    obtain ⟨rfl, rfl⟩ : _ = pc' ∧ k₁ = k' := by simpa using hret
    exact ⟨P, some gp, none, h.takeId hP hid hown hoff hf hid'⟩
  | inserting gp f hown hoff hf hkey =>
    obtain ⟨-, rfl, hk'⟩ := run_cons_eq_some hstep
    refine ⟨P, some gp, some f, h.addFiber hP hown hoff hf hkey ?_ ?_ ?_ hk'⟩
    · simp [convertTail, assigns, Stmt.builds, Assign.attaches]
    · simp [convertTail, assigns]
    · simp [convertTail, assigns]
  | building gp f ss att sel hown hf hfound hss hatt hsel =>
    cases ss with
    | nil =>
      obtain ⟨rfl, rfl⟩ : _ = pc' ∧ s.st = k' := by simpa [Pc.step] using hstep
      obtain rfl : att = some gp := by simpa using hatt
      obtain rfl : sel = some f := by simpa using hsel
      exact ⟨P, some gp, some f, h.moveOn (hP ▸ .lockNew gp f hown hf hfound)⟩
    | cons st ss =>
      obtain ⟨-, rfl, hk'⟩ := run_cons_eq_some hstep
      have hst := hss st (List.mem_cons_self ..)
      have hrest : ∀ st' ∈ ss, st'.builds gp f := fun st' hm => hss st' (List.mem_cons_of_mem _ hm)
      refine ⟨P, some gp, some f, ?_⟩
      cases st with
      | fiber x a =>
        obtain rfl : x = f := hst.1
        exact h.buildFiber hP hown hf hfound hst hrest hatt (by simpa using hsel) hk'
      | select t x =>
        obtain ⟨rfl, rfl⟩ := hst
        exact h.buildSelect hP hown hf hfound hrest (by simpa using hatt) hk'
      | _ => exact hst.elim
  | lockNew gp f hown hf hfound =>
    simp only [Pc.step, K.bind_eq_some, spinTrylock, Option.map_eq_some_iff] at hstep
    obtain ⟨b, k₁, ⟨r, hr, hb⟩, hret⟩ := hstep
    obtain ⟨rfl, rfl⟩ : (!r.fiberLock) = b ∧ s.st.withLock f = k₁ := by
      simpa [Kernel.withLock] using hb
    have hlock : r.fiberLock = false := by simpa [Kernel.locked, hr] using hf.locked
    obtain ⟨rfl, rfl⟩ : Pc.readId .convert f = pc' ∧ s.st.withLock f = k' := by
      simpa [hlock] using hret
    exact ⟨_, some gp, none, h.lock hA hown hf hfound⟩
  | locked gp f pc hown hf hfound hpc =>
    obtain rfl | rfl | rfl := hpc
    · obtain ⟨p, hp, hfind⟩ := hfound
      obtain ⟨r, hr, hid⟩ := Option.map_eq_some_iff.mp (HashTable.find_eq_some hfind).2
      simp only [Pc.step, K.bind_eq_some, readFiber_eq_some] at hstep
      obtain ⟨r', k₁, ⟨hr', rfl⟩, hret⟩ := hstep
      obtain rfl : r = r' := Option.some.inj (hr.symm.trans hr')
      obtain ⟨rfl, rfl⟩ : _ = pc' ∧ s.st = k' := by simpa using hret
      have hphase : Converting E C id s.st (.ret .convert r.fiberId.toInt) (some gp) none [.loadFx f] :=
        .locked gp f _ hown hf ⟨p, hp, hfind⟩ (.inr (.inl (by rw [hid])))
      exact ⟨P, some gp, none, h.moveOn (hP ▸ hphase)⟩
    · simp [Pc.step] at hstep
    · simp [Pc.step] at hstep

/-- What holds once the call is about to return. -/
theorem done (h : ConvInv E C id s P own site)
    (hpc : (∃ c v, s.pc C.maker = .ret c v) ∨ s.pc C.maker = .user) :
    ∃ gp f, own = some gp ∧ site = none ∧ P C.maker = [.loadFx f] ∧ OwnThread C s.st gp (some f) ∧
      FiberIs s.st f (some gp) true ∧ s.st.leadsTo E C.ep id f ∧
      ∀ c v, s.pc C.maker = .ret c v → c = .convert ∧ v = id.toInt := by
  have hphase := h.phase
  generalize s.pc C.maker = pc at hphase hpc
  generalize P C.maker = ss at hphase
  cases hphase with
  | locked gp f pc hown hf hfound hpc' =>
    refine ⟨gp, f, rfl, rfl, rfl, hown, hf, hfound, ?_⟩
    rintro c v rfl
    obtain ⟨rfl, rfl⟩ : c = .convert ∧ v = id.toInt := by simpa using hpc'
    exact ⟨rfl, rfl⟩
  | _ => simp at hpc

/-- A step of the converting thread, which makes no other call. -/
theorem maker {act : Act} {s' : Conf} (h : ConvInv E C id s P own site) (hA : C.reg C.maker = none)
    (hstep : CStep E C.tgid s (C.maker, act) s') (hstart : ∀ c, act ≠ .start c) :
    ∃ P' own' site', ConvInv E C id s' P' own' site' := by
  cases act with
  | start c => exact absurd rfl (hstart c)
  | stmt =>
    obtain ⟨pc', k', hs, rfl⟩ := hstep
    exact h.stmt hA hs
  | finish c v =>
    obtain ⟨hpc, rfl⟩ := hstep
    obtain ⟨gp, f, rfl, rfl, hP, hown, hf, hfound, hret⟩ := h.done (.inl ⟨c, v, hpc⟩)
    obtain ⟨rfl, -⟩ := hret c v hpc
    exact ⟨P, some gp, none, h.moveOn (hP ▸ .locked gp f _ hown hf hfound (.inr (.inr rfl)))⟩
  | user cpu =>
    obtain ⟨hpc, rfl⟩ := hstep
    obtain ⟨gp, f, rfl, rfl, hP, hown, hf, hfound, -⟩ := h.done (.inr hpc)
    refine ⟨P, some gp, none, h.make ?_ ?_ ?_ (fun _ ht => ht) h.linked (fun _ => le_rfl)
      (fun _ hx => .inl hx) fun _ hx => .inl hx⟩
    · exact h.guard.idle rfl rfl rfl rfl (fun _ hm => absurd rfl hm) fun hm => absurd rfl hm
    · rw [hP]
      exact .locked gp f _ ⟨hown.thread, hown.not_reg⟩ ⟨hf.attachment, hf.locked⟩
        (hfound.congr rfl fun _ => rfl) (.inr (.inr rfl))
    · intro p hp
      exact ⟨p, hp, fun t ht => .inl ht⟩

/-- The fiber worked on is the one the place names. -/
theorem building_of_site (h : ConvInv E C id s P own site) (hsite : site = some f) :
    (s.pc C.maker).building = some f := by
  have hphase := h.phase
  generalize s.pc C.maker = pc at hphase
  generalize P C.maker = ss at hphase
  cases hphase with
  | building gp f' => exact hsite
  | lockNew gp f' => exact hsite
  | _ => cases hsite

/-- No converted thread runs what the converting thread has selected. -/
theorem own_apart {x t : Ptr} (h : ConvInv E C id s P own site) (hA : C.reg C.maker = none)
    (hown : own = some gp) (hsel : s.st.selected gp = some x) (hreg : C.reg u = some t) :
    s.st.selected t ≠ some x := by
  intro hx
  obtain ⟨y, hy, -, hlocked⟩ := h.guard.runs u t hreg
  obtain rfl : y = x := Option.some.inj (hy.symm.trans hx)
  have hphase := h.phase
  have hP : mentions (P C.maker) y → False := by
    intro hm
    obtain rfl := h.guard.apart u C.maker t y hreg hx hm
    rw [hA] at hreg
    cases hreg
  generalize s.pc C.maker = pc at hphase
  generalize P C.maker = ss at hphase hP
  have hread : ∀ gp' sel, OwnThread C s.st gp' sel → some gp' = some gp → sel = some y := by
    intro gp' sel hthread he
    obtain rfl : gp' = gp := Option.some.inj he
    simpa [Kernel.selected, hthread.thread] using hsel
  cases hphase with
  | findOrCreate | findSelf | newThread | counting | adding => cases hown
  | added _ _ hthread => cases hread _ _ hthread hown
  | newFiber _ _ hthread => cases hread _ _ hthread hown
  | takeId _ _ _ hthread => cases hread _ _ hthread hown
  | inserting _ _ hthread => cases hread _ _ hthread hown
  | building _ f _ _ sel hthread hf _ _ _ hsel' =>
    obtain rfl := hread _ _ hthread hown
    obtain rfl : y = f := by simpa using hsel'
    rw [hf.locked] at hlocked
    cases hlocked
  | lockNew _ f hthread hf =>
    obtain rfl : f = y := Option.some.inj (hread _ _ hthread hown)
    rw [hf.locked] at hlocked
    cases hlocked
  | locked _ f _ hthread =>
    obtain rfl : f = y := Option.some.inj (hread _ _ hthread hown)
    exact hP (by simp [mentions_cons, mention])

/-- The invariant gives what is claimed. -/
theorem exact (h : ConvInv E C id s P own site) (hA : C.reg C.maker = none) (hid : id.toInt ≠ -1) :
    s.ConversionExact E C.tgid C.maker := by
  obtain ⟨p, hp, hwf, hinj, -, -⟩ := h.guard.record
  refine ⟨?_, ?_, ?_⟩
  · intro ep p' hep hp' t ht t' ht' x hx hx'
    obtain rfl : C.ep = ep := by simpa [h.guard.processOf] using hep
    rcases h.members p' hp' t ht with ⟨u, hu⟩ | hown <;>
      rcases h.members p' hp' t' ht' with ⟨u', hu'⟩ | hown'
    · obtain rfl := h.guard.runsExcl u u' t t' hu hu' (hx.trans hx'.symm)
      exact Option.some.inj (hu.symm.trans hu')
    · exact absurd hx (h.own_apart hA hown' hx' hu)
    · exact absurd hx' (h.own_apart hA hown hx hu')
    · exact Option.some.inj (hown.symm.trans hown')
  · intro v hpc _
    obtain ⟨gp, f, rfl, -, -, hown, hf, ⟨q, hq, hfind⟩, hret⟩ := h.done (.inl ⟨_, v, hpc⟩)
    obtain rfl : p = q := Option.some.inj (hp.symm.trans hq)
    obtain ⟨q, hq, hgp⟩ := h.linked gp rfl
    obtain rfl : p = q := Option.some.inj (hp.symm.trans hq)
    have hkey : s.st.threadKey gp = some C.maker := by
      rw [Kernel.threadKey, hown.thread]
      rfl
    have hsel : s.st.selected gp = some f := by
      rw [Kernel.selected, hown.thread]
      rfl
    refine ⟨id, (hret _ v hpc).2.symm, C.ep, p, gp, f, h.guard.processOf, hp,
      hinj.find_of_mem hwf hgp hkey, hfind, ?_, hf.locked, ?_⟩
    · rw [attached_eq, hf.attachment]
      rfl
    · intro t ht hne
      rcases h.members p hp t ht with ⟨u, hu⟩ | hown'
      · exact h.own_apart hA rfl hsel hu
      · exact absurd (Option.some.inj hown').symm hne
  · intro hpc
    obtain ⟨gp, f, -, -, -, -, -, -, hret⟩ := h.done (.inl ⟨_, _, hpc⟩)
    exact absurd (hret _ _ hpc).2.symm hid

end ConvInv

/-! ## The run -/

/-- The call begins when the process has a record. -/
theorem ConvInv.start {g A : PidT} {ep : Ptr} {p : Process} (h : Shape E k)
    (hep : k.processOf E g = some (some ep)) (hp : k.process ep = some p) (hst : s.st = k)
    (hother : ∀ u, u ≠ A → s.pc u = .user) (hpc : s.pc A = .findOrCreate ∨ s.pc A = .findSelf ep) :
    ConvInv E (k.crew E g A ep p) p.nextId s (fun _ => []) none none := by
  obtain ⟨-, hok, -⟩ := h.processOf_found hep hp
  subst hst
  have hid : s.st.nextIdIs ep p.nextId := by
    intro q hq
    rw [Option.some.inj (hp.symm.trans hq)]
  refine ⟨Guard.start h hep hp rfl hother, ?_, ?_, ?_, h.freshThread, h.freshFiber⟩
  · show Converting E _ _ s.st (s.pc A) none none []
    obtain hpc | hpc := hpc
    · rw [hpc]
      exact .findOrCreate hid
    · rw [hpc]
      exact .findSelf hid
  · intro q hq t ht
    obtain rfl : p = q := Option.some.inj (hp.symm.trans hq)
    obtain ⟨u, hu⟩ := Option.isSome_iff_exists.mp (hok.threadsWF.key_isSome ht)
    left
    refine ⟨u, ?_⟩
    show (s.st.threadOf E p u).join = some t
    rw [Kernel.threadOf, hok.threadsInj.find_of_mem hok.threadsWF ht hu]
    rfl
  · intro t ht
    cases ht

/-- Nothing has happened yet in a process without a record. -/
structure Unborn (E : Env) (g A : PidT) (s : Conf) : Prop where
  shape : Shape E s.st
  absent : s.st.processOf E g = some none
  self : s.pc A = .findOrCreate
  other : ∀ u, u ≠ A → s.pc u = .user

/-- The invariant of the whole run. -/
def ConvRun (E : Env) (g : PidT) (k₀ : Kernel) (A : PidT) (s : Conf) : Prop :=
  (k₀.processOf E g = some none ∧ Unborn E g A s) ∨
  ∃ (C : Crew) (id : PidT) (P : PidT → List Stmt) (own site : Option Ptr),
    C.tgid = g ∧ C.maker = A ∧ C.reg A = none ∧ id.toInt ≠ -1 ∧
    (∀ u, (k₀.running E ⟨g, u⟩).isSome → (C.reg u).isSome) ∧ ConvInv E C id s P own site

/-- The record is made by the first statement of the call, before which the other
    threads only run user code. -/
theorem Unborn.step {g A : PidT} {k₀ : Kernel} {act : Act} {s' : Conf} (h : Unborn E g A s)
    (hk₀ : k₀.processOf E g = some none) (hc : CStep E g s (u, act) s')
    (hstart : ∀ c, act = .start c → u ≠ A ∧ (k₀.running E ⟨g, u⟩).isSome) :
    ConvRun E g k₀ A s' := by
  have hidle : ∀ v, ¬ (k₀.running E ⟨g, v⟩).isSome := by
    intro v
    simp [Kernel.running, hk₀]
  cases act with
  | start c => exact absurd (hstart c rfl).2 (hidle u)
  | stmt =>
    obtain ⟨pc', k', hs, rfl⟩ := hc
    replace hs : (s.pc u).step E ⟨g, u⟩ s.st = some (pc', k') := hs
    by_cases hu : u = A
    · subst hu
      have hnew : findOrCreateProcess E ⟨g, u⟩ s.st =
          some (s.st.nextPtr g, s.st.withProcess E ⟨g, u⟩) := findOrCreateProcess_new h.absent
      rw [h.self, Pc.step, K.bind_apply, hnew] at hs
      obtain ⟨rfl, rfl⟩ : .findSelf (s.st.nextPtr g) = pc' ∧ s.st.withProcess E ⟨g, u⟩ = k' := by
        simpa using hs
      have hp : (s.st.withProcess E ⟨g, u⟩).process (s.st.nextPtr g) =
          some ⟨g, 0, 0, .empty, .empty⟩ := by
        simp [Kernel.withProcess]
      right
      refine ⟨_, _, _, none, none, rfl, rfl, rfl, ?_, fun v hv => absurd hv (hidle v),
        .start (h.shape.withProcess h.absent) ?_ hp rfl ?_ (.inr ?_)⟩
      · show (BitVec.setWidth 32 (0 + 1 : Word)).toInt ≠ -1
        decide
      · exact HashTable.find_add_self (by simp [Kernel.processKey, hp])
      · intro v hv
        simp [hv, h.other v hv]
      · simp
    · rw [h.other u hu] at hs
      cases hs
  | finish c v =>
    have hpc : s.pc u = .ret c v := hc.1
    by_cases hu : u = A
    · subst hu
      rw [h.self] at hpc
      cases hpc
    · rw [h.other u hu] at hpc
      cases hpc
  | user cpu =>
    obtain ⟨hpc, rfl⟩ := hc
    replace hpc : s.pc u = .user := hpc
    have hu : u ≠ A := by
      rintro rfl
      rw [h.self] at hpc
      cases hpc
    left
    refine ⟨hk₀, ?_, h.absent, ?_, ?_⟩
    · have hs := h.shape
      refine ⟨hs.processesWF, hs.processesInj, ?_, hs.freshProcess, hs.freshThread, hs.freshFiber⟩
      intro pp hpp p hp
      exact (hs.proc pp hpp p hp).congr (fun _ _ => rfl) (fun _ _ => rfl) (fun _ _ => rfl)
        fun _ _ => rfl
    · simp [hu.symm, h.self]
    · intro v hv
      by_cases hvu : v = u
      · simp [hvu]
      · simp [hvu, h.other v hv]

theorem ConvRun.step {g A : PidT} {k₀ : Kernel} {m : Move} {s' : Conf} (h : ConvRun E g k₀ A s)
    (hm : m.Unhindered A) (hstep : MakerStep E g k₀ A s m s') : ConvRun E g k₀ A s' := by
  rcases h with ⟨hk₀, h⟩ | ⟨C, id, P, own, site, rfl, rfl, hA, hid, hreg, h⟩
  · obtain ⟨-, hc, hstart⟩ := hstep
    exact h.step hk₀ hc fun c hact => ⟨(hstart c hact).1, (hstart c hact).2.1⟩
  · right
    obtain ⟨hpre, hc, hstart⟩ := hstep
    by_cases hu : m.thread = C.maker
    · rw [hu] at hc
      obtain ⟨P', own', site', h'⟩ := h.maker hA hc fun c hact => (hstart c hact).1 hu
      exact ⟨C, id, P', own', site', rfl, rfl, hA, hid, hreg, h'⟩
    · have hsite : ∀ f, site = some f → (s.pc m.thread).trying ≠ some f := by
        intro f hf
        rw [← hpre] at h ⊢
        exact hm hu f (h.building_of_site hf)
      have hswitch : ∀ c, m.act = .start c → (C.reg m.thread).isSome ∧ ∃ id, c = .switchTo id := by
        intro c hact
        obtain ⟨-, hrun, hid⟩ := hstart c hact
        exact ⟨hreg m.thread hrun, hid⟩
      obtain ⟨P', h'⟩ := h.other hu hsite hc hswitch
      exact ⟨C, id, P', own, site, rfl, rfl, hA, hid, hreg, h'⟩

theorem ConvRun.exact {g A : PidT} {k₀ : Kernel} (h : ConvRun E g k₀ A s) :
    s.ConversionExact E g A := by
  rcases h with ⟨-, h⟩ | ⟨C, id, P, own, site, rfl, rfl, hA, hid, -, h⟩
  · refine ⟨?_, ?_, ?_⟩
    · intro ep p hep
      rw [h.absent] at hep
      cases hep
    · intro v hpc
      rw [h.self] at hpc
      cases hpc
    · intro hpc
      rw [h.self] at hpc
      cases hpc
  · exact h.exact hA hid

/-- The run begins. -/
theorem ConvRun.start {g A : PidT} (h : Shape E k) (hfirst : k.running E ⟨g, A⟩ = none)
    (hid : ∀ ep p, k.processOf E g = some (some ep) → k.process ep = some p → p.nextId.toInt ≠ -1) :
    ConvRun E g k A (.calling k A .convert) := by
  have hself : (Conf.calling k A .convert).pc A = .findOrCreate := by
    simp [Conf.calling, Pc.entry]
  have hother : ∀ u, u ≠ A → (Conf.calling k A .convert).pc u = .user := by
    intro u hu
    simp [Conf.calling, hu]
  rcases h.processOf_cases g with hn | ⟨ep, p, hep, hp⟩
  · exact .inl ⟨hn, h, hn, hself, hother⟩
  · right
    refine ⟨k.crew E g A ep p, p.nextId, fun _ => [], none, none, rfl, rfl, ?_, hid ep p hep hp, ?_,
      .start h hep hp rfl hother (.inl hself)⟩
    · rcases h.running_or ⟨g, A⟩ with hn | ⟨ep', p', tp, t, f, r, hr⟩
      · rcases hn with hn | ⟨ep', p', hep', hp', ht⟩
        · rw [hep] at hn
          cases hn
        · obtain rfl : ep = ep' := by simpa [hep] using hep'
          obtain rfl : p = p' := Option.some.inj (hp.symm.trans hp')
          exact congrArg Option.join ht
      · rw [hr.running_eq] at hfirst
        cases hfirst
    · intro u hu
      exact Kernel.crew_reg_isSome hep hp hu

/-- Unhindered steps keep the invariant. -/
theorem ConvRun.of_run {g A : PidT} {k₀ : Kernel} {ms : List Move} {s' : Conf}
    (h : ConvRun E g k₀ A s) (hrun : Run (MakerStep E g k₀ A) s ms s')
    (hms : ∀ m ∈ ms, m.Unhindered A) : ConvRun E g k₀ A s' := by
  induction hrun with
  | nil => exact h
  | @snoc ls s₁ s₂ m _ hstep ih =>
    have hprev := ih fun m' hm' => hms m' (List.mem_append_left _ hm')
    exact hprev.step (hms m (by simp)) hstep

/-- In every run in which nobody else tries the lock of the new fiber before the
    converting thread has taken it, and whose next fiber id is not `-1`, the
    conversion is exclusive and all or nothing. -/
theorem conversion_exact (E : Env) (g A : PidT) (k₀ : Kernel) (hk : Reachable E k₀)
    (hfirst : k₀.running E ⟨g, A⟩ = none)
    (hid : ∀ ep p, k₀.processOf E g = some (some ep) → k₀.process ep = some p →
      p.nextId.toInt ≠ -1)
    (ms : List Move) (s : Conf)
    (hrun : Run (MakerStep E g k₀ A) (.calling k₀ A .convert) ms s)
    (hms : ∀ m ∈ ms, m.Unhindered A) : s.ConversionExact E g A :=
  (ConvRun.of_run (.start hk.inv.toShape hfirst hid) hrun hms).exact

/-! ## A conversion that is hindered -/

/-- A conversion on its own comes to its trylock. -/
theorem solo_lockNew {cur : Task} {v : ℤ}
    (h : doConvertThreadToFiber E cur cur.pid k = some (v, k')) (hv : v ≠ -1) :
    ∃ gp f k₁, Solo E cur (.entry .convert, k) (.lockNew gp f, k₁) := by
  simp only [doConvertThreadToFiber, K.bind_eq_some] at h
  obtain ⟨ep, k₁, h1, r, k₂, h2, h⟩ := h
  cases r with
  | some t =>
    obtain ⟨rfl, -⟩ : -1 = v ∧ k₂ = k' := by simpa using h
    exact absurd rfl hv
  | none =>
    simp only [initThread, K.bind_eq_some] at h
    obtain ⟨gp, k₃, ⟨t, k₄, ht, _, k₅, hadd, hpure⟩, f, k₆, hf, _, k₇, htail, -⟩ := h
    obtain ⟨rfl, rfl⟩ : t = gp ∧ k₅ = k₃ := by simpa using hpure
    have hlock : Solo E cur (.newFiber ep (.convert t), k₅) (.lockNew t f, k₇) :=
      solo_init (m := .convert t) hf htail .refl
    refine ⟨t, f, k₇, ?_⟩
    show Solo E cur (.findOrCreate, k) (.lockNew t f, k₇)
    refine .head (by simp only [Pc.step, K.bind_apply, h1]; rfl) ?_
    refine .head (by simp only [Pc.step, K.bind_apply, h2]; rfl) ?_
    exact .head (by simp only [Pc.step, K.bind_apply, ht]; rfl) ((solo_run hadd).trans hlock)

/-- A converted thread takes the lock of the new fiber just before its maker would:
    the conversion returns `-1`, its thread being registered. -/
theorem ConvInv.hindered {k₀ : Kernel} {t : Ptr} (h : ConvInv E C id s P own site)
    (hpc : s.pc C.maker = .lockNew gp f) (hu : u ≠ C.maker) (hreg : C.reg u = some t)
    (huser : s.pc u = .user) (hrunning : (k₀.running E ⟨C.tgid, u⟩).isSome) :
    ∃ ms s', Run (MakerStep E C.tgid k₀ C.maker) s ms s' ∧
      ¬ s'.ConversionExact E C.tgid C.maker := by
  have hphase := h.phase
  rw [hpc] at hphase
  generalize hP : P C.maker = ss at hphase
  cases hphase with
  | locked _ _ _ _ _ _ hne => simp at hne
  | lockNew _ _ hown hf hfound =>
    obtain ⟨p, hp, hwf, hinj, hfwf, hmem⟩ := h.guard.record
    obtain ⟨r, hr, -⟩ := Option.map_eq_some_iff.mp hf.attachment
    have hstart : MakerStep E C.tgid k₀ C.maker s ⟨s, u, .start (.switchTo id)⟩
        (s.goto u s.st (.findProcess (.switchTo id))) := by
      refine ⟨rfl, ⟨huser, rfl⟩, ?_⟩
      rintro c hc
      obtain rfl : Call.switchTo id = c := by simpa using hc
      exact ⟨hu, hrunning, id, rfl⟩
    obtain ⟨ms, hms⟩ := Solo.exists_run (s := s) (R := MakerStep E C.tgid k₀ C.maker)
      (fun s => ⟨s, u, .stmt⟩) (fun s s' hc => ⟨rfl, hc, by rintro _ ⟨⟩⟩)
      (Guard.solo_trylock (.loadFx f) h.guard hreg hfound hf.locked).solo
    set s₁ := s.goto u (s.st.withLock f) (.checkAttached id t f) with hs₁
    have hfail : MakerStep E C.tgid k₀ C.maker s₁ ⟨s₁, C.maker, .stmt⟩
        (s₁.goto C.maker (s₁.st.withLock f) (.ret .convert (-1))) := by
      refine ⟨rfl, ⟨_, _, ?_, rfl⟩, by rintro _ ⟨⟩⟩
      have hpc' : s₁.pc C.maker = .lockNew gp f := by simp [hs₁, hu.symm, hpc]
      have hr' : s₁.st.fiber f = some { r with fiberLock := true } := by
        simp [hs₁, Kernel.withLock, hr]
      simp only [hpc', Pc.step, K.bind_apply, spinTrylock, hr', Option.map_some]
      rfl
    refine ⟨_, _, (hms.head hstart).snoc hfail, ?_⟩
    intro hexact
    have hnot := (hexact.refused (by simp)).1 C.ep p h.guard.processOf hp
    obtain ⟨q, hq, hgp⟩ := h.linked gp rfl
    obtain rfl : p = q := Option.some.inj (hp.symm.trans hq)
    have hkey : s.st.threadKey gp = some C.maker := by
      rw [Kernel.threadKey, hown.thread]
      rfl
    have hfind : s.st.threadOf E p C.maker = some (some gp) := hinj.find_of_mem hwf hgp hkey
    replace hnot : s.st.threadOf E p C.maker = some none := hnot
    rw [hfind] at hnot
    cases hnot

/-- The state after the thread `b` has converted in the process of the thread `a`. -/
def Kernel.secondConverted (E : Env) (g a b : PidT) (cpu : Task → Cpu) : Kernel :=
  (Kernel.firstConverted E ⟨g, a⟩ cpu).converted E ⟨g, b⟩ ⟨g, 0⟩
    { processId := g, lastFiberId := 1, activeThreads := 1,
      threads := HashTable.empty.add (E.hash a) ⟨g, 1⟩,
      fibers := HashTable.empty.add (E.hash 1) ⟨g, 2⟩ }

/-- Another thread of a process with one converted thread: it is not converted and
    gets the id 2. -/
theorem firstConverted_second (E : Env) {g a b : PidT} (hab : b ≠ a) (cpu : Task → Cpu) :
    (Kernel.firstConverted E ⟨g, a⟩ cpu).running E ⟨g, b⟩ = none ∧
    (∀ ep p, (Kernel.firstConverted E ⟨g, a⟩ cpu).processOf E g = some (some ep) →
      (Kernel.firstConverted E ⟨g, a⟩ cpu).process ep = some p → p.nextId.toInt = 2) ∧
    doConvertThreadToFiber E ⟨g, b⟩ b (Kernel.firstConverted E ⟨g, a⟩ cpu) =
      some (2, Kernel.secondConverted E g a b cpu) := by
  have hcaller := firstConverted_caller E ⟨g, a⟩ cpu
  have hshape := (Reachable.firstConverted E ⟨g, a⟩ cpu).inv.toShape
  have hok := (hshape.processOf_found hcaller.process hcaller.process_eq).2.1
  have habsent := hok.threadsWF.find_of_not_mem (k := b) ?_
  · have hfound : findOrCreateProcess E ⟨g, b⟩ (Kernel.firstConverted E ⟨g, a⟩ cpu) =
        some (⟨g, 0⟩, Kernel.firstConverted E ⟨g, a⟩ cpu) := findOrCreateProcess_found hcaller.process
    refine ⟨NotConverted.running_eq (.inr ⟨_, _, hcaller.process, hcaller.process_eq, habsent⟩), ?_,
      doConvertThreadToFiber_new hfound hcaller.process_eq habsent⟩
    intro ep p hep hp
    obtain rfl := Option.some.inj (Option.some.inj (hcaller.process.symm.trans hep))
    rw [← Option.some.inj (hcaller.process_eq.symm.trans hp)]
    rfl
  · intro t ht hkey
    obtain rfl : t = ⟨g, 1⟩ := by
      rcases HashTable.mem_add.mp ht with rfl | ht
      · rfl
      · exact absurd ht (HashTable.not_mem_empty t)
    rw [Kernel.threadKey, hcaller.thread_eq] at hkey
    exact hab (Option.some.inj hkey).symm

/-- Thread 7 is converted and thread 8 converts on its own. -/
theorem conversion_exact_alone :
    let k₀ := Kernel.firstConverted (.linux 240) ⟨7, 7⟩ fun _ => .zero
    ∃ ms s, Run (MakerStep (.linux 240) 7 k₀ 8) (.calling k₀ 8 .convert) ms s ∧
      s.pc 8 = .ret .convert 2 ∧ s.ConversionExact (.linux 240) 7 8 := by
  intro k₀
  obtain ⟨hfirst, hid, hrun⟩ :=
    firstConverted_second (.linux 240) (g := 7) (show (8 : PidT) ≠ 7 by decide) fun _ => .zero
  obtain ⟨ms, hms, hun⟩ := exists_run_calling (solo_call (c := .convert) hrun)
  refine ⟨ms, _, hms, by simp, ?_⟩
  refine conversion_exact (.linux 240) 7 8 k₀ (.firstConverted (.linux 240) ⟨7, 7⟩ _) hfirst ?_ ms _
    hms fun m hm hne => absurd (hun m hm) hne
  intro ep p hep hp
  rw [hid ep p hep hp]
  decide

/-- The converted thread `a` hinders the conversion of `b`. -/
theorem exists_hindered_run (E : Env) {g a b : PidT} (hab : b ≠ a) (cpu : Task → Cpu) :
    ∃ ms s, Run (MakerStep E g (Kernel.firstConverted E ⟨g, a⟩ cpu) b)
      (.calling (Kernel.firstConverted E ⟨g, a⟩ cpu) b .convert) ms s ∧
      ¬ s.ConversionExact E g b := by
  have hshape := (Reachable.firstConverted E ⟨g, a⟩ cpu).inv.toShape
  obtain ⟨x, rx, hrunning⟩ := hshape.running_of_caller (firstConverted_caller E ⟨g, a⟩ cpu)
  obtain ⟨hfirst, hid, hrun⟩ := firstConverted_second E (g := g) hab cpu
  obtain ⟨gp, f, k₁, hsolo⟩ := solo_lockNew hrun (by decide)
  obtain ⟨ms, hms, hun⟩ := exists_run_calling hsolo
  have hstart : ConvRun E g (Kernel.firstConverted E ⟨g, a⟩ cpu) b
      (.calling (Kernel.firstConverted E ⟨g, a⟩ cpu) b .convert) := by
    refine .start hshape hfirst ?_
    intro ep p hep hp
    rw [hid ep p hep hp]
    decide
  have hsome : ((Kernel.firstConverted E ⟨g, a⟩ cpu).running E ⟨g, a⟩).isSome := by
    rw [hrunning.running_eq]
    rfl
  obtain ⟨-, h⟩ | ⟨C, id, P, own, site, rfl, rfl, hA, -, hreg, h⟩ :=
    hstart.of_run hms fun m hm hne => absurd (hun m hm) hne
  · have hself := h.self
    simp at hself
  · obtain ⟨t, ht⟩ := Option.isSome_iff_exists.mp (hreg a hsome)
    obtain ⟨ms', s', hms', hnot⟩ := h.hindered ((Conf.goto_pc ..).trans (if_pos rfl)) hab.symm ht
      (by simp [Conf.calling, hab.symm]) hsome
    exact ⟨_, s', hms.trans hms', hnot⟩

/-- Thread 7 switches to fiber 2 just before thread 8, whose conversion has made it,
    tries its lock: the conversion fails with thread 8 registered. -/
theorem conversion_not_exact :
    let k₀ := Kernel.firstConverted (.linux 240) ⟨7, 7⟩ fun _ => .zero
    Reachable (.linux 240) k₀ ∧ k₀.running (.linux 240) ⟨7, 8⟩ = none ∧
    ∃ ms s, Run (MakerStep (.linux 240) 7 k₀ 8) (.calling k₀ 8 .convert) ms s ∧
      ¬ s.ConversionExact (.linux 240) 7 8 := by
  intro k₀
  have hab : (8 : PidT) ≠ 7 := by decide
  exact ⟨.firstConverted (.linux 240) ⟨7, 7⟩ _, (firstConverted_second (.linux 240) hab _).1,
    exists_hindered_run (.linux 240) hab _⟩

end AosvFibers
