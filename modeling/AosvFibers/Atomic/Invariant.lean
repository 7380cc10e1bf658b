import AosvFibers.Atomic.System

/-!
# The ownership invariant

`ProcOk` says what holds inside one process record, `Shape` what holds of all
of them together, and `Inv` adds that every process record has a thread and
that every record is reached through the tables.

Which fiber runs on which thread is written down four times: in
`selected_fiber`, in `attached_thread`, in `fiber_lock` and, by counting, in
`active_threads`. `ProcOk` says that the four agree.

A call made in process `g` writes only records allocated for `g`, so that for
every other process `ProcOk` carries over (`ProcOk.congr_tgid`); the steps that keep
the process table are covered by `Shape.of_local`.
-/

namespace AosvFibers

open Lib

variable {E : Env}

/-- What holds inside the process record `p` at `pp`. -/
structure ProcOk (E : Env) (k : Kernel) (pp : Ptr) (p : Process) : Prop where
  self : pp.tgid = p.processId
  threadsWF : p.threads.WF E.hash k.threadKey
  threadsInj : p.threads.InjKeys k.threadKey
  threadTgid : ∀ t ∈ p.threads, t.tgid = p.processId
  parent : ∀ t ∈ p.threads, ∀ r, k.thread t = some r → r.parent = pp
  fibersWF : p.fibers.WF E.hash k.fiberKey
  fiberTgid : ∀ f ∈ p.fibers, f.tgid = p.processId
  selected : ∀ t ∈ p.threads, ∃ f ∈ p.fibers, k.selected t = some f ∧ k.attached f = some t
  attached : ∀ f ∈ p.fibers, ∀ t, k.attached f = some t → t ∈ p.threads ∧ k.selected t = some f
  locked : ∀ f ∈ p.fibers, (k.locked f = true ↔ (k.attached f).isSome)
  active : p.activeThreads = p.threads.size

/-- What holds of the process table and of the heaps. -/
structure Shape (E : Env) (k : Kernel) : Prop where
  processesWF : k.processes.WF E.hash k.processKey
  processesInj : k.processes.InjKeys k.processKey
  proc : ∀ pp ∈ k.processes, ∀ p, k.process pp = some p → ProcOk E k pp p
  freshProcess : ∀ x, (k.process x).isSome → x.serial < k.brk x.tgid
  freshThread : ∀ x, (k.thread x).isSome → x.serial < k.brk x.tgid
  freshFiber : ∀ x, (k.fiber x).isSome → x.serial < k.brk x.tgid

/-- The invariant of reachable states: besides, no record is out of the tables. -/
structure Inv (E : Env) (k : Kernel) : Prop extends Shape E k where
  populated : ∀ pp ∈ k.processes, ∀ p, k.process pp = some p → ∃ t, t ∈ p.threads
  linkedProcess : ∀ pp, (k.process pp).isSome → pp ∈ k.processes
  linkedThread : ∀ t r, k.thread t = some r → ∃ p, k.process r.parent = some p ∧ t ∈ p.threads

/-! ## Records behind pointers -/

namespace ProcOk

variable {k k' : Kernel} {pp t f : Ptr} {p : Process}

theorem thread_exists (h : ProcOk E k pp p) (ht : t ∈ p.threads) : ∃ r, k.thread t = some r := by
  have := h.threadsWF.key_isSome ht
  simpa [Kernel.threadKey, Option.isSome_iff_exists] using this

theorem fiber_exists (h : ProcOk E k pp p) (hf : f ∈ p.fibers) : ∃ r, k.fiber f = some r := by
  have := h.fibersWF.key_isSome hf
  simpa [Kernel.fiberKey, Option.isSome_iff_exists] using this

/-- Two threads do not select the same fiber. -/
theorem selected_inj {t' : Ptr} (h : ProcOk E k pp p) (ht : t ∈ p.threads) (ht' : t' ∈ p.threads)
    (heq : k.selected t = k.selected t') : t = t' := by
  obtain ⟨f, -, hsel, hatt⟩ := h.selected t ht
  obtain ⟨f', -, hsel', hatt'⟩ := h.selected t' ht'
  obtain rfl : f = f' := by simpa [hsel, hsel'] using heq
  simpa [hatt] using hatt'

/-- `ProcOk` looks at the process's thread records and at the ids, attachments
    and locks of its fibers. -/
theorem congr (h : ProcOk E k pp p) (ht : ∀ t ∈ p.threads, k'.thread t = k.thread t)
    (hkey : ∀ f ∈ p.fibers, k'.fiberKey f = k.fiberKey f)
    (hatt : ∀ f ∈ p.fibers, k'.attached f = k.attached f)
    (hlock : ∀ f ∈ p.fibers, k'.locked f = k.locked f) : ProcOk E k' pp p := by
  have hsel : ∀ t ∈ p.threads, k'.selected t = k.selected t := fun t h' => by
    simp [Kernel.selected, ht t h']
  have htk : ∀ t ∈ p.threads, k'.threadKey t = k.threadKey t := fun t h' => by
    simp [Kernel.threadKey, ht t h']
  refine ⟨h.self, h.threadsWF.congr htk, h.threadsInj.congr htk, h.threadTgid, ?_,
    h.fibersWF.congr hkey, h.fiberTgid, ?_, ?_, ?_, h.active⟩
  · intro t h' r hr
    exact h.parent t h' r (by rw [← ht t h', hr])
  · intro t h'
    obtain ⟨f, hfm, h1, h2⟩ := h.selected t h'
    exact ⟨f, hfm, by rw [hsel t h', h1], by rw [hatt f hfm, h2]⟩
  · intro f hfm t hta
    rw [hatt f hfm] at hta
    obtain ⟨h1, h2⟩ := h.attached f hfm t hta
    exact ⟨h1, by rw [hsel t h1, h2]⟩
  · intro f hfm
    rw [hatt f hfm, hlock f hfm]
    exact h.locked f hfm

/-- Records of other processes do not matter. -/
theorem congr_tgid (h : ProcOk E k pp p)
    (hthread : ∀ x, x.tgid = p.processId → k'.thread x = k.thread x)
    (hfiber : ∀ x, x.tgid = p.processId → k'.fiber x = k.fiber x) : ProcOk E k' pp p := by
  have hf : ∀ f ∈ p.fibers, k'.fiber f = k.fiber f := fun f hf => hfiber f (h.fiberTgid f hf)
  refine h.congr (fun t ht => hthread t (h.threadTgid t ht)) ?_ ?_ ?_
  · intro f hfm; simp [Kernel.fiberKey, hf f hfm]
  · intro f hfm; simp [Kernel.attached, hf f hfm]
  · intro f hfm; simp [Kernel.locked, hf f hfm]

end ProcOk

namespace Shape

variable {k k' : Kernel} {pp x : Ptr} {p p' q : Process} {g : PidT}

theorem process_exists (h : Shape E k) (hpp : pp ∈ k.processes) : ∃ p, k.process pp = some p := by
  have := h.processesWF.key_isSome hpp
  simpa [Kernel.processKey, Option.isSome_iff_exists] using this

theorem fresh_process_none (h : Shape E k) (hx : k.brk x.tgid ≤ x.serial) : k.process x = none := by
  by_contra hne
  have := h.freshProcess x (Option.isSome_iff_ne_none.mpr hne)
  omega

theorem fresh_thread_none (h : Shape E k) (hx : k.brk x.tgid ≤ x.serial) : k.thread x = none := by
  by_contra hne
  have := h.freshThread x (Option.isSome_iff_ne_none.mpr hne)
  omega

theorem fresh_fiber_none (h : Shape E k) (hx : k.brk x.tgid ≤ x.serial) : k.fiber x = none := by
  by_contra hne
  have := h.freshFiber x (Option.isSome_iff_ne_none.mpr hne)
  omega

/-- The process records of two different processes have different ids. -/
theorem processId_ne (h : Shape E k) (hpp : pp ∈ k.processes) (hp : k.process pp = some p)
    (hx : x ∈ k.processes) (hp' : k.process x = some p') (hne : x ≠ pp) :
    p'.processId ≠ p.processId := fun heq =>
  hne (h.processesInj x hx pp hpp (by simp [Kernel.processKey, hp, hp', heq]))

/-- A step inside one process keeps the shape of everything if it keeps the
    process's own: it changes the record at `pp` and records allocated for the
    process, and nothing else the invariant reads. -/
theorem of_local (h : Shape E k) (hpp : pp ∈ k.processes) (hp : k.process pp = some p)
    (hps : k'.processes = k.processes) (hpq : k'.process pp = some q)
    (hid : q.processId = p.processId) (hproc : ∀ x, x ≠ pp → k'.process x = k.process x)
    (hthread : ∀ x, x.tgid ≠ p.processId → k'.thread x = k.thread x)
    (hfiber : ∀ x, x.tgid ≠ p.processId → k'.fiber x = k.fiber x)
    (hok : ProcOk E k' pp q) (hbrk : ∀ g, k.brk g ≤ k'.brk g)
    (hft : ∀ x, (k'.thread x).isSome → x.serial < k'.brk x.tgid)
    (hff : ∀ x, (k'.fiber x).isSome → x.serial < k'.brk x.tgid) : Shape E k' := by
  have hkey : ∀ x ∈ k.processes, k'.processKey x = k.processKey x := by
    intro x _
    by_cases hx : x = pp
    · subst hx; simp [Kernel.processKey, hpq, hp, hid]
    · simp [Kernel.processKey, hproc x hx]
  refine ⟨hps ▸ h.processesWF.congr hkey, hps ▸ h.processesInj.congr hkey, ?_, ?_, hft, hff⟩
  · intro x hx u hu
    rw [hps] at hx
    by_cases hxp : x = pp
    · subst hxp
      obtain rfl : q = u := by simpa [hpq] using hu
      exact hok
    · rw [hproc x hxp] at hu
      have hne := h.processId_ne hpp hp hx hu hxp
      refine (h.proc x hx u hu).congr_tgid (fun y hy => hthread y ?_) (fun y hy => hfiber y ?_)
      · rw [hy]; exact hne
      · rw [hy]; exact hne
  · intro x hx
    refine lt_of_lt_of_le (h.freshProcess x ?_) (hbrk _)
    by_cases hxp : x = pp
    · subst hxp; simp [hp]
    · rwa [hproc x hxp] at hx

end Shape

/-- Every process record is in order. -/
theorem Inv.procOk {pp : Ptr} {p : Process} (h : Inv E k) (hp : k.process pp = some p) :
    ProcOk E k pp p :=
  h.proc pp (h.linkedProcess pp (by simp [hp])) p hp

end AosvFibers
