import AosvFibers.Atomic.Ids

/-!
# Reclamation

Records are freed on two paths: `exit_cleanup`, which counts the threads of a
process down, and `process_cleanup` when the descriptor is released. `kfree` of
a record that is not there has no result in this model, so that a step that
runs through freed nothing twice; over a history, `Event.frees` counts how often
a record disappeared.

The invariant behind the result is that no record is out of the tables. For
process and thread records this is part of `Inv`; `FibersLinked` adds the
fibers. So a process without thread records has no records at all.

Result: `exact_reclamation`, over all histories.
-/

namespace AosvFibers

open Lib

variable {E : Env} {cur : Task} {k k' : Kernel} {g : PidT} {op : Op} {res : ℤ}

/-! ## Records over time -/

/-- The three kinds of record. -/
inductive Kind
  | process
  | thread
  | fiber
  deriving DecidableEq

/-- There is a record of this kind at `x`. -/
def Kernel.has (k : Kernel) (kind : Kind) (x : Ptr) : Bool :=
  match kind with
  | .process => (k.process x).isSome
  | .thread => (k.thread x).isSome
  | .fiber => (k.fiber x).isSome

/-- The event frees the record at `x`. -/
def Event.frees (kind : Kind) (x : Ptr) (e : Event) : Bool :=
  e.pre.has kind x && !e.post.has kind x

theorem Inv.has_lt {kind : Kind} {x : Ptr} (hk : Inv E k) (h : k.has kind x = true) :
    x.serial < k.brk x.tgid := by
  cases kind with
  | process => exact hk.freshProcess x h
  | thread => exact hk.freshThread x h
  | fiber => exact hk.freshFiber x h

/-- A thread record is new or was there before. -/
theorem Outcome.thread_old {x : Ptr} (h : Outcome E k op res k') (hx : (k'.thread x).isSome) :
    k.brk x.tgid ≤ x.serial ∨ (k.thread x).isSome := by
  cases h with
  | refused | again | switchMissing | releaseNone | user | switchBusy | fls | created =>
    exact .inr hx
  | @convertedFirst cur hn =>
    by_cases hxn : x = ⟨cur.tgid, k.brk cur.tgid + 1⟩
    · subst hxn
      exact .inl (Nat.le_succ _)
    · exact .inr (by simpa [Kernel.converted, Kernel.withProcess, Kernel.nextPtr, hxn] using hx)
  | @converted cur ep p hep hp ht =>
    by_cases hxn : x = k.nextPtr cur.tgid
    · subst hxn
      exact .inl le_rfl
    · exact .inr (by simpa [Kernel.converted, hxn] using hx)
  | @switched cur ep tp f y p t r rg id hr hid hy hl ha hne =>
    by_cases hxt : x = tp
    · exact .inr (by simp [hxt, hr.thread_eq])
    · exact .inr (by simpa [Kernel.switched, hxt] using hx)
  | @detached cur ep tp f p t r hr hact =>
    by_cases hxt : x = tp
    · exact .inr (by simp [hxt, hr.thread_eq])
    · exact .inr (by simpa [Kernel.detached, hxt] using hx)
  | lastExit | released =>
    simp only [Kernel.toreDown] at hx
    split_ifs at hx with hm
    · simp at hx
    · exact .inr hx

/-- An address that was given out and holds no record never holds one again. -/
theorem Outcome.not_has {kind : Kind} {x : Ptr} (hk : Inv E k) (h : Outcome E k op res k')
    (hlt : x.serial < k.brk x.tgid) (hx : k.has kind x = false) : k'.has kind x = false := by
  by_contra hne
  rw [Bool.not_eq_false] at hne
  cases kind with
  | process =>
    obtain ⟨p', hp'⟩ := Option.isSome_iff_exists.mp hne
    have hchange := h.idChange hk (hk.step h) hp'
    cases hchange with
    | kept p hp | grown p _ hp => simp [Kernel.has, hp] at hx
    | born _ hnew => omega
  | thread =>
    rcases h.thread_old hne with hnew | hold
    · omega
    · simp [Kernel.has, hold] at hx
  | fiber =>
    obtain ⟨r', hr'⟩ := Option.isSome_iff_exists.mp hne
    have hchange := h.fiberChange hr'
    cases hchange with
    | same hold | bumped hold | left _ hold | taken _ hold | orphaned _ hold | fls _ hold =>
      simp [Kernel.has, hold] at hx
    | converted hnew | created hnew => omega

/-- Along every history each record is freed once at most; when it was, it is
    gone for good. -/
theorem History.frees_once {cpu : Task → Cpu} {es : List Event} (h : History E cpu es k)
    (kind : Kind) (x : Ptr) :
    es.countP (Event.frees kind x) ≤ 1 ∧ (0 < es.countP (Event.frees kind x) →
      k.has kind x = false ∧ x.serial < k.brk x.tgid) := by
  induction h with
  | nil => simp
  | @snoc es k₁ k₂ e hist hs ih =>
    obtain ⟨rfl, rfl, hrun⟩ := hs
    have hinv := (History.reachable hist).inv
    have hout := hinv.toShape.outcome_of_run hrun
    obtain ⟨hle, hgone⟩ := ih
    rw [List.countP_append, List.countP_singleton]
    by_cases hf : Event.frees kind x e = true
    · obtain ⟨hpre, hpost⟩ : e.pre.has kind x = true ∧ e.post.has kind x = false := by
        simpa [Event.frees] using hf
      have hzero : es.countP (Event.frees kind x) = 0 := by
        by_contra hne
        have := (hgone (Nat.pos_of_ne_zero hne)).1
        simp [hpre] at this
      have hlt := hinv.has_lt hpre
      have hbrk := hout.brk_le x.tgid
      rw [if_pos hf, hzero]
      exact ⟨le_rfl, fun _ => ⟨hpost, by omega⟩⟩
    · rw [if_neg hf, Nat.add_zero]
      refine ⟨hle, fun hpos => ?_⟩
      obtain ⟨hnone, hlt⟩ := hgone hpos
      have hbrk := hout.brk_le x.tgid
      exact ⟨hout.not_has hinv hlt hnone, by omega⟩

/-! ## No fiber is out of the tables -/

/-- Every fiber record is in the table of its process. -/
def FibersLinked (k : Kernel) : Prop :=
  ∀ f r, k.fiber f = some r → ∃ p, k.process r.parentProcess = some p ∧ f ∈ p.fibers

theorem FiberChange.parentProcess_eq {x : Ptr} {r' : Fiber} (h : FiberChange E k x op res r')
    (hlt : x.serial < k.brk x.tgid) :
    ∃ r, k.fiber x = some r ∧ r.parentProcess = r'.parentProcess := by
  cases h with
  | same hold => exact ⟨_, hold, rfl⟩
  | bumped hold | left _ hold | taken _ hold | orphaned _ hold => exact ⟨_, hold, rfl⟩
  | @fls cur c r₀ hrun hold hc =>
    obtain ⟨bitmap, values, he⟩ := flsEffect_eq c r₀
    exact ⟨r₀, hold, by rw [he]⟩
  | converted hnew | created hnew => omega

theorem FibersLinked.boot (cpu : Task → Cpu) : FibersLinked (Kernel.boot cpu) := by
  intro f r hr
  simp [Kernel.boot] at hr

/-- A step that leaves the table of an old fiber's process in place keeps the
    old fibers linked. -/
theorem FibersLinked.old {f : Ptr} {r' : Fiber} (h : FibersLinked k) (hout : Outcome E k op res k')
    (hr' : k'.fiber f = some r') (hlt : f.serial < k.brk f.tgid)
    (hkeep : ∀ pp p, k.process pp = some p → f ∈ p.fibers →
      ∃ p', k'.process pp = some p' ∧ f ∈ p'.fibers) :
    ∃ p, k'.process r'.parentProcess = some p ∧ f ∈ p.fibers := by
  obtain ⟨r, hr, hpar⟩ := (hout.fiberChange hr').parentProcess_eq hlt
  obtain ⟨p, hp, hf⟩ := h f r hr
  rw [← hpar]
  exact hkeep _ p hp hf

theorem FibersLinked.step (hk : Inv E k) (h : FibersLinked k) (hout : Outcome E k op res k') :
    FibersLinked k' := by
  intro f r' hr'
  have hlt : ∀ r, k.fiber f = some r → f.serial < k.brk f.tgid := fun r hr =>
    hk.freshFiber f (by simp [hr])
  have hlt' : f.serial < k'.brk f.tgid := (hk.step hout).freshFiber f (by rw [hr']; rfl)
  have hout' := hout
  cases hout with
  | refused | again | switchMissing | releaseNone => exact h f r' hr'
  | user => exact h f r' hr'
  | @convertedFirst cur hn =>
    have hnone : k.process (k.nextPtr cur.tgid) = none := hk.toShape.fresh_process_none le_rfl
    by_cases hfn : f = ⟨cur.tgid, k.brk cur.tgid + 1 + 1⟩
    · subst hfn
      obtain rfl : _ = r' := by simpa [Kernel.converted, Kernel.withProcess] using hr'
      exact ⟨_, Function.update_self _ _ _, HashTable.mem_add.mpr (.inl (by simp [Kernel.withProcess]))⟩
    · have hold : k.fiber f = some r' := by
        simpa [Kernel.converted, Kernel.withProcess, hfn] using hr'
      refine h.old hout' hr' (hlt r' hold) fun pp p hp hf => ?_
      have hne : pp ≠ k.nextPtr cur.tgid := by rintro rfl; simp [hnone] at hp
      exact ⟨p, by simp [Kernel.converted, Kernel.withProcess, hne, hp], hf⟩
  | @converted cur ep p₀ hep hp₀ ht =>
    by_cases hfn : f = ⟨cur.tgid, k.brk cur.tgid + 1⟩
    · subst hfn
      obtain rfl : _ = r' := by simpa [Kernel.converted] using hr'
      exact ⟨_, Function.update_self _ _ _, HashTable.mem_add.mpr (.inl rfl)⟩
    · have hold : k.fiber f = some r' := by simpa [Kernel.converted, hfn] using hr'
      refine h.old hout' hr' (hlt r' hold) fun pp p hp hf => ?_
      by_cases hpe : pp = ep
      · subst hpe
        obtain rfl : p₀ = p := by simpa [hp₀] using hp
        exact ⟨_, Function.update_self _ _ _, HashTable.mem_add.mpr (.inr hf)⟩
      · exact ⟨p, by simp [Kernel.converted, hpe, hp], hf⟩
  | @created cur ep tp f₀ p₀ t r sp sz fn arg hr =>
    by_cases hfn : f = k.nextPtr cur.tgid
    · subst hfn
      obtain rfl : _ = r' := by simpa [Kernel.created, Kernel.withFiber] using hr'
      exact ⟨_, Function.update_self _ _ _, HashTable.mem_add.mpr (.inl rfl)⟩
    · have hold : k.fiber f = some r' := by simpa [Kernel.created, Kernel.withFiber, hfn] using hr'
      refine h.old hout' hr' (hlt r' hold) fun pp p hp hf => ?_
      by_cases hpe : pp = ep
      · subst hpe
        obtain rfl : p₀ = p := by simpa [hr.process_eq] using hp
        exact ⟨_, Function.update_self _ _ _, HashTable.mem_add.mpr (.inr hf)⟩
      · exact ⟨p, by simp [Kernel.created, Kernel.withFiber, hpe, hp], hf⟩
  | switchBusy | switched | fls =>
    exact h.old hout' hr' hlt' fun pp p hp hf => ⟨p, hp, hf⟩
  | @detached cur ep tp f₀ p₀ t r hr hact =>
    refine h.old hout' hr' hlt' fun pp p hp hf => ?_
    by_cases hpe : pp = ep
    · subst hpe
      obtain rfl : p₀ = p := by simpa [hr.process_eq] using hp
      exact ⟨_, Function.update_self _ _ _, hf⟩
    · exact ⟨p, by simp [Kernel.detached, hpe, hp], hf⟩
  | @lastExit cur ep tp f₀ p₀ t r hr hact =>
    have hnot : f ∉ p₀.fibers := fun hm => by simp [Kernel.toreDown, hm] at hr'
    refine h.old hout' hr' hlt' fun pp p hp hf => ?_
    have hpe : pp ≠ ep := by
      rintro rfl
      obtain rfl : p₀ = p := by simpa [hr.process_eq] using hp
      exact hnot hf
    exact ⟨p, by simp [Kernel.toreDown, hpe, hp], hf⟩
  | @released cur ep p₀ hep hp₀ =>
    have hnot : f ∉ p₀.fibers := fun hm => by simp [Kernel.toreDown, hm] at hr'
    refine h.old hout' hr' hlt' fun pp p hp hf => ?_
    have hpe : pp ≠ ep := by
      rintro rfl
      obtain rfl : p₀ = p := by simpa [hp₀] using hp
      exact hnot hf
    exact ⟨p, by simp [Kernel.toreDown, hpe, hp], hf⟩

theorem Reachable.fibersLinked (h : Reachable E k) : FibersLinked k := by
  refine (h.invariant (I := fun k => Inv E k ∧ FibersLinked k)
    (fun cpu => ⟨.boot cpu, .boot cpu⟩) fun k op r k' hk hs => ?_).2
  have hout := hk.1.toShape.outcome_of_run hs
  exact ⟨hk.1.step hout, hk.2.step hk.1 hout⟩

/-! ## A fiber goes with its process -/

/-- A step that frees a fiber frees the process record of it. -/
theorem Outcome.fiber_freed {f : Ptr} {r : Fiber} (hk : Inv E k) (hlink : FibersLinked k)
    (h : Outcome E k op res k') (hf : k.fiber f = some r) (hf' : k'.fiber f = none) :
    (k.process r.parentProcess).isSome ∧ k'.process r.parentProcess = none := by
  obtain ⟨p, hp, hfm⟩ := hlink f r hf
  have hsome : (k.process r.parentProcess).isSome := by simp [hp]
  refine ⟨hsome, ?_⟩
  by_contra hne
  obtain ⟨p', hp'⟩ := Option.ne_none_iff_exists'.mp hne
  have hk' := hk.step h
  obtain ⟨q, hq, hsub⟩ := h.fibers_subset hk hp' (hk.freshProcess _ hsome)
  obtain rfl : p = q := by simpa [hp] using hq
  -- the record is still there, with the fiber in its table
  have hok := hk'.proc _ (hk'.linkedProcess _ (by simp [hp'])) p' hp'
  obtain ⟨r', hr'⟩ := hok.fiber_exists (hsub f hfm)
  simp [hf'] at hr'

/-! ## Nothing is left of a process without threads -/

/-- Every record ever allocated for `g` is gone, the lookup finds nothing, and a
    conversion starts from a record at an address not used before, with id 1. -/
structure Reclaimed (E : Env) (k : Kernel) (g : PidT) : Prop where
  records : ∀ kind x, x.tgid = g → k.has kind x = false
  found : k.processOf E g = some none
  restart : ∀ cur : Task, cur.tgid = g → ∃ k' pp p, Call.run E cur .convert k = some (1, k') ∧
    k.brk g ≤ pp.serial ∧ k'.processOf E g = some (some pp) ∧ k'.process pp = some p ∧
    p.lastFiberId = 1

theorem Inv.reclaimed (hk : Inv E k) (hlink : FibersLinked k)
    (hnone : ∀ t, t.tgid = g → k.thread t = none) : Reclaimed E k g := by
  have hproc : ∀ x, x.tgid = g → k.process x = none := by
    intro x hx
    by_contra hne
    obtain ⟨p, hp⟩ := Option.ne_none_iff_exists'.mp hne
    have hmem := hk.linkedProcess x (by simp [hp])
    have hok := hk.proc x hmem p hp
    obtain ⟨t, ht⟩ := hk.populated x hmem p hp
    obtain ⟨r, hr⟩ := hok.thread_exists ht
    simp [hnone t (by rw [hok.threadTgid t ht, ← hok.self, hx])] at hr
  have hfiber : ∀ x, x.tgid = g → k.fiber x = none := by
    intro x hx
    by_contra hne
    obtain ⟨r, hr⟩ := Option.ne_none_iff_exists'.mp hne
    obtain ⟨p, hp, hf⟩ := hlink x r hr
    have hok := hk.proc _ (hk.linkedProcess _ (by simp [hp])) p hp
    simp [hproc r.parentProcess (by rw [hok.self, ← hok.fiberTgid x hf, hx])] at hp
  have hfound : k.processOf E g = some none := hk.processOf_none_iff.mpr hproc
  refine ⟨fun kind x hx => ?_, hfound, ?_⟩
  · cases kind with
    | process => simp [Kernel.has, hproc x hx]
    | thread => simp [Kernel.has, hnone x hx]
    | fiber => simp [Kernel.has, hfiber x hx]
  · rintro cur rfl
    have hout : Outcome E k (.call cur .convert) 1 _ := .convertedFirst hfound
    have hk' := hk.step hout
    obtain ⟨p, hp, hlast⟩ : ∃ p, ((k.withProcess E cur).converted E cur (k.nextPtr cur.tgid)
        { processId := cur.tgid, lastFiberId := 0, activeThreads := 0, threads := .empty,
          fibers := .empty }).process (k.nextPtr cur.tgid) = some p ∧ p.lastFiberId = 1 :=
      ⟨_, Function.update_self _ _ _, rfl⟩
    exact ⟨_, k.nextPtr cur.tgid, p, hk.toShape.run_of_outcome hout, le_rfl,
      hk'.processOf_iff.mpr ⟨rfl, by rw [hp]; rfl⟩, hp, hlast⟩

/-- A thread record hangs off the process record its own process finds. -/
theorem Inv.thread_parent {x : Ptr} {r : Thread} (hk : Inv E k) (hr : k.thread x = some r)
    (hx : x.tgid = g) :
    ∃ p, k.processOf E g = some (some r.parent) ∧ k.process r.parent = some p ∧ x ∈ p.threads := by
  obtain ⟨p, hp, hmem⟩ := hk.linkedThread x r hr
  have hok := hk.proc _ (hk.linkedProcess _ (by simp [hp])) p hp
  refine ⟨p, hk.processOf_iff.mpr ⟨?_, by simp [hp]⟩, hp, hmem⟩
  rw [hok.self, ← hok.threadTgid x hmem, hx]

/-- A released descriptor leaves no thread record of the process. -/
theorem Outcome.released_thread {x : Ptr} (hk : Inv E k) (h : Outcome E k (.release cur) res k')
    (hx : x.tgid = cur.tgid) : k'.thread x = none := by
  by_contra hne
  obtain ⟨r, hr⟩ := Option.ne_none_iff_exists'.mp hne
  cases h with
  | releaseNone hn =>
    obtain ⟨p, hfound, -⟩ := hk.thread_parent hr hx
    simp [hn] at hfound
  | @released _ ep p hep hp =>
    have hm : x ∉ p.threads := fun hm => by simp [Kernel.toreDown, hm] at hr
    have hr : k.thread x = some r := by simpa [Kernel.toreDown, hm] using hr
    obtain ⟨q, hfound, hq, hmem⟩ := hk.thread_parent hr hx
    obtain rfl : ep = r.parent := by simpa [hep] using hfound
    obtain rfl : p = q := by simpa [hp] using hq
    exact hm hmem

/-- The only thread record of a process that can be the caller's is the one the
    caller finds. -/
theorem Running.eq_of_threadId {ep tp f x : Ptr} {p : Process} {t rx : Thread} {r : Fiber}
    (hr : Running E k cur ep p tp t f r) (hk : Inv E k) (hx : x.tgid = cur.tgid)
    (hrx : k.thread x = some rx) (hid : rx.threadId = cur.pid) : x = tp := by
  obtain ⟨q, hfound, hq, hmem⟩ := hk.thread_parent hrx hx
  obtain rfl : ep = rx.parent := by simpa [hr.process] using hfound
  obtain rfl : p = q := by simpa [hr.process_eq] using hq
  refine hr.procOk.threadsInj x hmem tp hr.thread_mem ?_
  simp [Kernel.threadKey, hrx, hid, hr.thread_eq, hr.threadId]

/-- The last thread of a process dies and leaves no thread record of it. -/
theorem Outcome.exit_thread {x : Ptr} (hk : Inv E k) (h : Outcome E k (.call cur .exit) res k')
    (honly : ∀ t r, t.tgid = cur.tgid → k.thread t = some r → r.threadId = cur.pid)
    (hx : x.tgid = cur.tgid) : k'.thread x = none := by
  by_contra hne
  obtain ⟨r', hr'⟩ := Option.ne_none_iff_exists'.mp hne
  cases h with
  | refused hn hc =>
    obtain ⟨p, hfound, hp, hmem⟩ := hk.thread_parent hr' hx
    rcases hn with hn | ⟨ep, q, hep, hq, hthread⟩
    · simp [hn] at hfound
    · obtain rfl : ep = r'.parent := by simpa [hep] using hfound
      obtain rfl : p = q := by simpa [hp] using hq
      have hok := (hk.toShape.processOf_found hep hp).2.1
      exact hok.threadsWF.find_none hthread hmem
        (by simp [Kernel.threadKey, hr', honly x r' hx hr'])
  | fls _ hc => simp [Call.isFls] at hc
  | @detached _ ep tp f p t r hr hact =>
    have hxt : x ≠ tp := by rintro rfl; simp [Kernel.detached] at hr'
    have hr' : k.thread x = some r' := by simpa [Kernel.detached, hxt] using hr'
    exact hxt (hr.eq_of_threadId hk hx hr' (honly x r' hx hr'))
  | @lastExit _ ep tp f p t r hr hact =>
    have hxt : x ≠ tp := by rintro rfl; simp [Kernel.toreDown] at hr'
    have hr' : k.thread x = some r' := by simpa [Kernel.toreDown, hxt] using hr'
    exact hxt (hr.eq_of_threadId hk hx hr' (honly x r' hx hr'))

/-! ## Exact reclamation -/

/-- After every history: every operation runs through, so that nothing is freed
    twice within it, and no record was freed twice so far; a fiber was only ever
    freed together with its process record; a process without thread records
    has no records at all and starts afresh; and such is every process whose
    descriptor is released or whose last thread dies. -/
theorem exact_reclamation {cpu : Task → Cpu} {es : List Event} (h : History E cpu es k) :
    (∀ op : Op, ∃ res k', op.run E k = some (res, k')) ∧
    (∀ kind x, es.countP (Event.frees kind x) ≤ 1) ∧
    (∀ e ∈ es, ∀ f r, e.pre.fiber f = some r → e.post.fiber f = none →
      (e.pre.process r.parentProcess).isSome ∧ e.post.process r.parentProcess = none) ∧
    (∀ g, (∀ t, t.tgid = g → k.thread t = none) → Reclaimed E k g) ∧
    (∀ cur res k', processCleanup E cur k = some (res, k') → Reclaimed E k' cur.tgid) ∧
    ∀ cur res k', (∀ t r, t.tgid = cur.tgid → k.thread t = some r → r.threadId = cur.pid) →
      exitCleanup E cur k = some (res, k') → Reclaimed E k' cur.tgid := by
  have hinv := h.reachable.inv
  have hlink := h.reachable.fibersLinked
  refine ⟨fun op => ?_, fun kind x => (h.frees_once kind x).1, ?_, fun g hg => hinv.reclaimed hlink hg,
    fun cur res k' hrun => ?_, fun cur res k' honly hrun => ?_⟩
  · obtain ⟨res, k', hrun, -⟩ := hinv.toShape.outcome op
    exact ⟨res, k', hrun⟩
  · clear hinv hlink
    induction h with
    | nil => simp
    | @snoc es k₁ k₂ e hist hs ih =>
      intro e' he'
      rcases List.mem_append.mp he' with he' | he'
      · exact ih e' he'
      · obtain rfl : e' = e := by simpa using he'
        obtain ⟨rfl, rfl, hrun⟩ := hs
        have hreach := History.reachable hist
        intro f r hf hf'
        exact (hreach.inv.toShape.outcome_of_run hrun).fiber_freed hreach.inv hreach.fibersLinked hf hf'
  · have hout : Outcome E k (.release cur) res k' := hinv.toShape.outcome_of_run hrun
    exact (hinv.step hout).reclaimed (hlink.step hinv hout) fun t ht => hout.released_thread hinv ht
  · have hout : Outcome E k (.call cur .exit) res k' := hinv.toShape.outcome_of_run hrun
    exact (hinv.step hout).reclaimed (hlink.step hinv hout) fun t ht => hout.exit_thread hinv honly ht

/-- After the first conversion there is one thread record. -/
theorem firstConverted_threadId {cpu : Task → Cpu} {t : Ptr} {r : Thread}
    (h : (Kernel.firstConverted E cur cpu).thread t = some r) : r.threadId = cur.pid := by
  by_cases ht : t = ⟨cur.tgid, 1⟩
  · subst ht
    have heq := (firstConverted_caller E cur cpu).thread_eq.symm.trans h
    obtain rfl : _ = r := Option.some.inj heq
    rfl
  · simp [Kernel.firstConverted, Kernel.converted, Kernel.withProcess, Kernel.boot, Kernel.nextPtr,
      ht] at h

/-- A process converts its only thread, which then dies: nothing is left. -/
theorem exact_reclamation_onlyThread : ∃ es k k',
    History (.linux 240) (fun _ => .zero) es k ∧
      exitCleanup (.linux 240) ⟨7, 7⟩ k = some (0, k') ∧ Reclaimed (.linux 240) k' 7 := by
  have hconv : (Op.call ⟨7, 7⟩ .convert).run (.linux 240) (Kernel.boot fun _ => .zero) = _ :=
    firstConverted_run (.linux 240) ⟨7, 7⟩ fun _ => .zero
  have hist := History.step .nil hconv
  have hrec := exact_reclamation hist
  obtain ⟨res, k', hexit⟩ := hrec.1 (.call ⟨7, 7⟩ .exit)
  obtain rfl : res = 0 := by
    have hout := hist.reachable.inv.toShape.outcome_of_run hexit
    cases hout with
    | refused => rfl
    | fls _ hc => simp [Call.isFls] at hc
    | detached | lastExit => rfl
  refine ⟨_, _, k', hist, hexit, hrec.2.2.2.2.2 ⟨7, 7⟩ 0 k' ?_ hexit⟩
  intro t r _ hr
  exact firstConverted_threadId hr

end AosvFibers
