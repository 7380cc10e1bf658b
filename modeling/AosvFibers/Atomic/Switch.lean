import AosvFibers.Atomic.Ownership

/-!
# When a switch succeeds

`SwitchExact` says of a state that `do_SwitchToFiber` succeeds exactly for the
fibers of the process that no thread runs, and then does one exchange.

Fiber ids are 32 bits of a 64-bit counter. As long as the counter of a process
has not passed 2^32 its fibers have different ids (`IdsOk`), the lookup by id
finds the one fiber meant, and every state is exact (`switch_exact`). Beyond,
two fibers share an id, the lookup only ever finds the newer one, and the older
one cannot be taken although nobody runs it (`switch_not_exact`).
-/

namespace AosvFibers

open Lib

variable {E : Env} {cur : Task} {k k' : Kernel}

/-! ## The property -/

/-- `k'` is `k` with the thread at `tp` moved from the fiber at `prev` to the
    fiber at `f`: only these three records change. -/
structure Exchange (k k' : Kernel) (tp f prev : Ptr) : Prop where
  selected_before : k.selected tp = some prev
  selected : k'.selected tp = some f
  attached : k'.attached f = some tp
  activation : ∀ r, k.fiber f = some r →
    ∃ r', k'.fiber f = some r' ∧ r'.activationCounter = r.activationCounter + 1
  detached : k'.attached prev = none
  unlocked : k'.locked prev = false
  threads : ∀ x, x ≠ tp → k'.thread x = k.thread x
  fibers : ∀ x, x ≠ f → x ≠ prev → k'.fiber x = k.fiber x
  processTable : k'.processes = k.processes
  process : k'.process = k.process

/-- For every registered thread and every id: the switch returns 0 iff the
    process has a fiber with that id which no registered thread has selected,
    and then it exchanges the thread's fiber for that one. -/
def SwitchExact (E : Env) (k : Kernel) : Prop :=
  ∀ ep p, k.process ep = some p → ∀ tp ∈ p.threads, ∀ t, k.thread tp = some t → ∀ id,
    ∃ res k', Call.run E ⟨p.processId, t.threadId⟩ (.switchTo id) k = some (res, k') ∧
      (res = 0 ↔ ∃ f ∈ p.fibers, k.fiberKey f = some id ∧ ∀ t' ∈ p.threads, k.selected t' ≠ some f) ∧
      (res = 0 → ∃ f ∈ p.fibers, k.fiberKey f = some id ∧
        (∀ t' ∈ p.threads, k.selected t' ≠ some f) ∧ ∃ prev, Exchange k k' tp f prev)

/-! ## Ids -/

/-- The fibers of every process have different ids, taken from a counter that
    has not passed 2^32. -/
def IdsOk (k : Kernel) : Prop :=
  ∀ pp ∈ k.processes, ∀ p, k.process pp = some p →
    p.lastFiberId.toNat ≤ 2 ^ 32 ∧ p.fibers.InjKeys k.fiberKey ∧
      ∀ f ∈ p.fibers, ∃ i, 1 ≤ i ∧ i ≤ p.lastFiberId.toNat ∧ k.fiberKey f = some (BitVec.ofNat 32 i)

/-- The id counter of the caller's process has not passed 2^32, if the step
    can make a fiber. -/
def Op.idsFresh (E : Env) (k : Kernel) : Op → Prop
  | .call cur .convert | .call cur (.create _ _ _ _) =>
    ∀ ep p, k.processOf E cur.tgid = some (some ep) → k.process ep = some p →
      p.lastFiberId.toNat < 2 ^ 32
  | _ => True

theorem Process.nextId_eq (p : Process) : p.nextId = BitVec.ofNat 32 (p.lastFiberId.toNat + 1) := by
  apply BitVec.eq_of_toNat_eq
  simp [Process.nextId]

/-- An id not used so far in a record. -/
theorem nextId_ne {p : Process} {i : ℕ} (hlast : p.lastFiberId.toNat < 2 ^ 32) (h1 : 1 ≤ i)
    (hi : i ≤ p.lastFiberId.toNat) : BitVec.ofNat 32 i ≠ p.nextId := by
  rw [p.nextId_eq]
  intro heq
  have := congrArg BitVec.toNat heq
  simp only [BitVec.toNat_ofNat] at this
  omega

theorem IdsOk.step {op : Op} {res : ℤ} (hk : Inv E k) (hk' : Inv E k') (h : IdsOk k)
    (hout : Outcome E k op res k') (hfresh : op.idsFresh E k) : IdsOk k' := by
  intro pp hpp p' hp'
  have hok' := hk'.proc pp hpp p' hp'
  -- fibers that were there before keep their ids
  have hkey : ∀ p, k.process pp = some p → ∀ f ∈ p.fibers, f ∈ p'.fibers →
      k'.fiberKey f = k.fiberKey f := fun p hp f hf hf' => by
    have hok := hk.procOk hp
    obtain ⟨r, hr⟩ := hok.fiber_exists hf
    obtain ⟨r', hr'⟩ := hok'.fiber_exists hf'
    exact hout.fiberKey_eq hk.toShape (by simp [hr]) (by simp [hr'])
  have hchange := hout.processChange hk.toShape hp'
  cases hchange with
  | @kept op p p' hp hfibers hlast =>
    obtain ⟨h1, h2, h3⟩ := h pp (hk.linkedProcess pp (by simp [hp])) p hp
    have hkey' : ∀ f ∈ p.fibers, k'.fiberKey f = k.fiberKey f := fun f hf =>
      hkey p hp f hf (by rw [hfibers]; exact hf)
    rw [hlast, hfibers]
    refine ⟨h1, h2.congr hkey', fun f hf => ?_⟩
    rw [hkey' f hf]
    exact h3 f hf
  | @grown cur c f p p' hep hp hc hfibers hlast hnew hfkey =>
    obtain ⟨h1, h2, h3⟩ := h pp (hk.linkedProcess pp (by simp [hp])) p hp
    have hkey' : ∀ x ∈ p.fibers, k'.fiberKey x = k.fiberKey x := fun x hx =>
      hkey p hp x hx (by rw [hfibers]; exact HashTable.mem_add.mpr (.inr hx))
    have hlt : p.lastFiberId.toNat < 2 ^ 32 := by
      rcases hc with rfl | ⟨_, _, _, _, rfl⟩ <;> exact hfresh pp p hep hp
    have htoNat : p'.lastFiberId.toNat = p.lastFiberId.toNat + 1 := by
      rw [hlast, BitVec.toNat_add, show (1 : Word).toNat = 1 from rfl]
      omega
    rw [hfibers, htoNat]
    refine ⟨by omega, (h2.congr hkey').add hfkey ?_, fun x hx => ?_⟩
    · intro y hy
      obtain ⟨i, hi1, hi2, hi3⟩ := h3 y hy
      rw [hkey' y hy, hi3]
      simpa using nextId_ne hlt hi1 hi2
    · rcases HashTable.mem_add.mp hx with rfl | hx
      · exact ⟨_, by omega, le_rfl, by rw [hfkey, p.nextId_eq]⟩
      · obtain ⟨i, hi1, hi2, hi3⟩ := h3 x hx
        exact ⟨i, hi1, by omega, by rw [hkey' x hx, hi3]⟩
  | @born cur f p' hfibers hlast hfkey =>
    rw [hfibers, hlast]
    have hmem : ∀ x ∈ HashTable.empty.add (E.hash 1) f, x = f := fun x hx =>
      (HashTable.mem_add.mp hx).resolve_right (HashTable.not_mem_empty x)
    refine ⟨by decide, fun x hx y hy _ => by rw [hmem x hx, hmem y hy], fun x hx => ?_⟩
    rw [hmem x hx]
    exact ⟨1, le_rfl, by decide, hfkey⟩

/-- A step that makes fibers only while the process's ids have not run out. -/
def FreshStep (E : Env) (k : Kernel) (l : Op × ℤ) (k' : Kernel) : Prop :=
  l.1.idsFresh E k ∧ Step E k l k'

theorem idsOk_of_reaches {cpu : Task → Cpu} (h : Reaches (FreshStep E) (Kernel.boot cpu) k) :
    Inv E k ∧ IdsOk k := by
  refine h.invariant (I := fun k => Inv E k ∧ IdsOk k)
    ⟨Inv.boot cpu, fun pp hpp => by simp [Kernel.boot] at hpp⟩ ?_
  rintro k l k' ⟨hinv, hids⟩ ⟨hfresh, hs⟩
  have hout := hinv.toShape.outcome_of_run hs
  exact ⟨hinv.step hout, hids.step hinv (hinv.step hout) hout hfresh⟩

/-! ## Exact switches -/

/-- A registered thread finds itself. -/
theorem Inv.caller {ep tp : Ptr} {p : Process} {t : Thread} (h : Inv E k) (hp : k.process ep = some p)
    (htp : tp ∈ p.threads) (ht : k.thread tp = some t) :
    Caller E k ⟨p.processId, t.threadId⟩ ep p tp t := by
  have hmem := h.linkedProcess ep (by simp [hp])
  have hok := h.proc ep hmem p hp
  exact ⟨h.processesInj.find_of_mem h.processesWF hmem (by simp [Kernel.processKey, hp]), hp,
    hok.threadsInj.find_of_mem hok.threadsWF htp (by simp [Kernel.threadKey, ht]), ht⟩

/-- Nobody runs a fiber whose lock is free. -/
theorem ProcOk.not_selected {ep f : Ptr} {p : Process} {r : Fiber} (h : ProcOk E k ep p)
    (hf : k.fiber f = some r) (ha : r.attachedThread = none) :
    ∀ t ∈ p.threads, k.selected t ≠ some f := by
  intro t ht hsel
  obtain ⟨f', -, hsel', hatt⟩ := h.selected t ht
  obtain rfl : f = f' := by simpa [hsel] using hsel'
  simp [Kernel.attached, hf, ha] at hatt

/-- Somebody runs a fiber whose lock is held. -/
theorem ProcOk.exists_selected {ep f : Ptr} {p : Process} {r : Fiber} (h : ProcOk E k ep p)
    (hfm : f ∈ p.fibers) (hf : k.fiber f = some r) (hl : r.fiberLock = true) :
    ∃ t ∈ p.threads, k.selected t = some f := by
  have hatt := (h.locked f hfm).mp (by simp [Kernel.locked, hf, hl])
  obtain ⟨t, ht⟩ := Option.isSome_iff_exists.mp hatt
  exact ⟨t, h.attached f hfm t ht⟩

theorem exchange_switched {ep tp f g : Ptr} {p : Process} {t : Thread} {r rg : Fiber}
    (hr : Running E k cur ep p tp t f r) (hg : k.fiber g = some rg) (hne : g ≠ f) :
    Exchange k (k.switched cur tp g f t rg r) tp g f where
  selected_before := by simp [Kernel.selected, hr.thread_eq, hr.selected]
  selected := by simp [Kernel.selected, Kernel.switched]
  attached := by simp [Kernel.attached, Kernel.switched, hne, takenFiber]
  activation := by
    intro r₀ hr₀
    obtain rfl : rg = r₀ := by simpa [hg] using hr₀
    exact ⟨takenFiber tp rg, by simp [Kernel.switched, hne], rfl⟩
  detached := by simp [Kernel.attached, Kernel.switched, leftFiber]
  unlocked := by simp [Kernel.locked, Kernel.switched, leftFiber]
  threads x hx := by simp [Kernel.switched, hx]
  fibers x h1 h2 := by simp [Kernel.switched, h1, h2]
  processTable := rfl
  process := rfl

/-- In every run in which fibers are only made while the ids of their process
    have not run out, every state is exact. -/
theorem switch_exact {cpu : Task → Cpu} (h : Reaches (FreshStep E) (Kernel.boot cpu) k) :
    SwitchExact E k := by
  obtain ⟨hinv, hids⟩ := idsOk_of_reaches h
  intro ep p hp tp htp t ht id
  obtain ⟨f, r, hr⟩ := hinv.toShape.running_of_caller (hinv.caller hp htp ht)
  have hinj := (hids ep hr.process_mem p hp).2.1
  rcases hr.fiberOf_cases id with hid | ⟨g, rg, hid, hg, hgm⟩
  · refine ⟨-1, k, doSwitchToFiber_missing hr.toCaller hid, ⟨by simp, ?_⟩, by simp⟩
    rintro ⟨x, hx, hkey, -⟩
    exact absurd hkey (hr.procOk.fibersWF.find_none hid hx)
  · have hgkey := (HashTable.find_eq_some hid).2
    cases hl : rg.fiberLock with
    | true =>
      refine ⟨-1, _, doSwitchToFiber_busy hr.toCaller hid hg hl, ⟨by simp, ?_⟩, by simp⟩
      rintro ⟨x, hx, hkey, hfree⟩
      obtain rfl := hinj x hx g hgm (hkey.trans hgkey.symm)
      obtain ⟨t', ht', hsel⟩ := hr.procOk.exists_selected hgm hg hl
      exact absurd hsel (hfree t' ht')
    | false =>
      obtain ⟨ha, hne⟩ := hr.free_fiber hgm hg hl
      have hfree := hr.procOk.not_selected hg ha
      exact ⟨0, _, doSwitchToFiber_free hr.toCaller hid hg hl ha hr.selected hr.fiber_eq hne,
        ⟨fun _ => ⟨g, hgm, hgkey, hfree⟩, fun _ => rfl⟩,
        fun _ => ⟨g, hgm, hgkey, hfree, f, exchange_switched hr hg hne⟩⟩

/-- The state after a first conversion is reached by a run in which ids have
    not run out, and is exact. -/
theorem switch_exact_firstConverted :
    SwitchExact (.linux 240) (Kernel.firstConverted (.linux 240) ⟨7, 7⟩ fun _ => .zero) :=
  switch_exact (Reaches.step (l := (.call ⟨7, 7⟩ .convert, 1)) (.refl (Kernel.boot fun _ => .zero))
    ⟨fun ep p hep _ => by simp [Kernel.processOf, HashTable.find, HashTable.walk, Kernel.boot] at hep,
      firstConverted_run (.linux 240) ⟨7, 7⟩ fun _ => .zero⟩)

/-! ## When the ids run out -/

/-- The first thread of a process creates `n` fibers while its own fiber keeps
    the id 1. -/
theorem exists_created (E : Env) (cur : Task) (cpu : Task → Cpu) (n : ℕ) : ∃ k ep p tp t f,
    Reachable E k ∧ Caller E k cur ep p tp t ∧ t.selectedFiber = some f ∧
      p.lastFiberId = BitVec.ofNat 64 (n + 1) ∧ f ∈ p.fibers ∧ k.fiberKey f = some 1 := by
  induction n with
  | zero =>
    refine ⟨_, _, _, _, _, _, .firstConverted E cur cpu, firstConverted_caller E cur cpu, rfl, rfl,
      HashTable.mem_add.mpr (.inl rfl), ?_⟩
    simp [Kernel.fiberKey, Kernel.firstConverted, Kernel.converted, Kernel.withProcess, Kernel.boot,
      convertedFiber, initializedFiber, Process.nextId]
  | succ n ih =>
    obtain ⟨k, ep, p, tp, t, f, hreach, hcaller, hsel, hlast, hmem, hkey⟩ := ih
    have hrun := doCreateFiber_eq hcaller 0 0 0 0
    have hreach' := hreach.step (show (Op.call cur (.create 0 0 0 0)).run E k = _ from hrun)
    have hne : f ≠ k.nextPtr cur.tgid := fun he => by
      have hnone := hreach.inv.toShape.fresh_fiber_none (x := k.nextPtr cur.tgid) le_rfl
      simp [Kernel.fiberKey, he, hnone] at hkey
    refine ⟨_, _, _, _, _, f, hreach', hcaller.created, hsel, ?_, HashTable.mem_add.mpr (.inr hmem),
      ?_⟩
    · apply BitVec.eq_of_toNat_eq
      simp [Process.withFiber, hlast]
    · rw [← hkey]
      simp [Kernel.fiberKey, Kernel.created, Kernel.withFiber, hne]

/-- The id of the fiber a thread runs is given out again. The thread creates the
    fiber and switches to it; its first fiber is left to itself, and the way to
    it is blocked by the second. -/
theorem not_exact_of_same_id {ep tp f : Ptr} {p : Process} {t : Thread} (hreach : Reachable E k)
    (hcaller : Caller E k cur ep p tp t) (hsel : t.selectedFiber = some f) (hfm : f ∈ p.fibers)
    (hkey : k.fiberKey f = some p.nextId) : ∃ k', Reachable E k' ∧ ¬ SwitchExact E k' := by
  have hcreate := doCreateFiber_eq hcaller 0 0 0 0
  have hreach₁ := hreach.step (show (Op.call cur (.create 0 0 0 0)).run E k = _ from hcreate)
  obtain ⟨f', r, hr⟩ := hreach₁.inv.toShape.running_of_caller hcaller.created
  obtain rfl : f = f' := by simpa [hsel] using hr.selected
  set k₁ := k.created E cur ep p 0 0 0 0 with hk₁
  set g := k.nextPtr cur.tgid with hg
  have hne : g ≠ f := fun he => by
    have hnone := hreach.inv.toShape.fresh_fiber_none (x := g) le_rfl
    simp [Kernel.fiberKey, ← he, hnone] at hkey
  obtain ⟨rg, hrg⟩ : ∃ rg, k₁.fiber g = some rg ∧ rg.fiberId = p.nextId ∧ rg.fiberLock = false ∧
      rg.attachedThread = none := ⟨_, by simp [hk₁, Kernel.created, Kernel.withFiber, ← hg]; rfl, rfl, rfl, rfl⟩
  have hswitch := doSwitchToFiber_free hr.toCaller created_fiberOf hrg.1 hrg.2.2.1 hrg.2.2.2 hsel
    hr.fiber_eq hne
  have hreach₂ := hreach₁.step (show (Op.call cur (.switchTo p.nextId)).run E k₁ = _ from hswitch)
  set k₂ := k₁.switched cur tp g f t rg r with hk₂
  have hcaller₂ := hreach₂.inv.caller (show k₂.process ep = some _ from hr.process_eq) hr.thread_mem
    (show k₂.thread tp = some { t with selectedFiber := some g } by simp [hk₂, Kernel.switched])
  have hfiber : k₂.fiber f = some (leftFiber (k₁.cpu cur) r) := by simp [hk₂, Kernel.switched]
  have hkeys : ∀ x, k₂.fiberKey x = k₁.fiberKey x := fun x => by
    by_cases hxf : x = f
    · subst hxf; simp [Kernel.fiberKey, hfiber, hr.fiber_eq, leftFiber]
    by_cases hxg : x = g
    · subst hxg; simp [Kernel.fiberKey, hk₂, Kernel.switched, hxf, hrg.1, takenFiber]
    · simp [Kernel.fiberKey, hk₂, Kernel.switched, hxf, hxg]
  refine ⟨k₂, hreach₂, fun hexact => ?_⟩
  obtain ⟨res, k₃, hrun, hiff, -⟩ := hexact ep _ hr.process_eq tp hr.thread_mem _ hcaller₂.thread_eq p.nextId
  have hfound : k₂.fiberOf E (p.withFiber E g) p.nextId = some (some g) :=
    (HashTable.find_congr fun x _ => hkeys x).trans created_fiberOf
  have hbusy := doSwitchToFiber_busy hcaller₂ hfound
    (show k₂.fiber g = some (takenFiber tp rg) by simp [hk₂, Kernel.switched, hne]) rfl
  have hres : res = -1 := by
    have hrun' := hrun.symm.trans hbusy
    simpa using congrArg (Option.map Prod.fst) hrun'
  have hzero : res = 0 := hiff.mpr ⟨f, hr.fiber_mem, by
      rw [hkeys f]
      simp [hk₁, Kernel.created, Kernel.withFiber, Kernel.fiberKey, ← hg, hne.symm, ← hkey],
    (hreach₂.inv.proc ep hr.process_mem _ hr.process_eq).not_selected hfiber rfl⟩
  omega

/-- After 2^32 creations the newest fiber has the id of the first one. -/
theorem switch_not_exact : ∃ k, Reachable (.linux 240) k ∧ ¬ SwitchExact (.linux 240) k := by
  obtain ⟨k, ep, p, tp, t, f, hreach, hcaller, hsel, hlast, hmem, hkey⟩ :=
    exists_created (.linux 240) ⟨7, 7⟩ (fun _ => .zero) (2 ^ 32 - 1)
  have hnext : p.nextId = 1 := by rw [Process.nextId, hlast]; decide
  exact not_exact_of_same_id hreach hcaller hsel hmem (by rw [hkey, hnext])

end AosvFibers
