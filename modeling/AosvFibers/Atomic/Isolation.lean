import AosvFibers.Atomic.Ownership

/-!
# Processes do not interfere

All processes share one hash table, and the teardown paths delete whatever
record the caller's `tgid` leads to. Still a process only ever sees itself.
`SameFor E g k k'` says that two states look the same to process `g`: its
lookup, every record allocated for it, its next address and the CPU states of
its threads.

The proof is by unwinding:
* `Outcome.sameFor_of_ne`: a step of another process changes nothing `g` sees;
* `Outcome.sameFor_step`: a step of `g` does the same from two states that look
  the same to `g`, with the same result.

Result: `process_isolation`, over all runs.
-/

namespace AosvFibers

open Lib

variable {E : Env} {cur : Task} {k k' k₁ k₁' : Kernel} {g : PidT}

/-- The process whose thread makes the step. -/
def Op.tgid : Op → PidT
  | call cur _ | release cur | user cur _ => cur.tgid

/-- The records allocated for process `g`, its next address and the CPU states
    of its threads are the same in both states. -/
structure SameRecords (g : PidT) (k k' : Kernel) : Prop where
  process : ∀ x, x.tgid = g → k'.process x = k.process x
  thread : ∀ x, x.tgid = g → k'.thread x = k.thread x
  fiber : ∀ x, x.tgid = g → k'.fiber x = k.fiber x
  brk : k'.brk g = k.brk g
  cpu : ∀ u, u.tgid = g → k'.cpu u = k.cpu u

/-- The two states look the same to process `g`. -/
structure SameFor (E : Env) (g : PidT) (k k' : Kernel) : Prop extends SameRecords g k k' where
  found : k'.processOf E g = k.processOf E g

namespace SameRecords

theorem refl (g : PidT) (k : Kernel) : SameRecords g k k :=
  ⟨fun _ _ => rfl, fun _ _ => rfl, fun _ _ => rfl, rfl, fun _ _ => rfl⟩

theorem symm (h : SameRecords g k k') : SameRecords g k' k where
  process x hx := (h.process x hx).symm
  thread x hx := (h.thread x hx).symm
  fiber x hx := (h.fiber x hx).symm
  brk := h.brk.symm
  cpu u hu := (h.cpu u hu).symm

theorem trans (h : SameRecords g k k') (h' : SameRecords g k' k₁) : SameRecords g k k₁ where
  process x hx := by rw [h'.process x hx, h.process x hx]
  thread x hx := by rw [h'.thread x hx, h.thread x hx]
  fiber x hx := by rw [h'.fiber x hx, h.fiber x hx]
  brk := by rw [h'.brk, h.brk]
  cpu u hu := by rw [h'.cpu u hu, h.cpu u hu]

end SameRecords

/-! ## Lookups -/

/-- The process record a lookup finds is the one record allocated for that
    process. -/
theorem Inv.processOf_iff {x : Ptr} (h : Inv E k) :
    k.processOf E g = some (some x) ↔ x.tgid = g ∧ (k.process x).isSome := by
  constructor
  · intro hx
    obtain ⟨hmem, hkey⟩ := HashTable.find_eq_some hx
    obtain ⟨p, hp⟩ := h.toShape.process_exists hmem
    have hid : p.processId = g := by simpa [Kernel.processKey, hp] using hkey
    exact ⟨by rw [(h.proc x hmem p hp).self, hid], by simp [hp]⟩
  · rintro ⟨rfl, hx⟩
    have hmem := h.linkedProcess x hx
    obtain ⟨p, hp⟩ := Option.isSome_iff_exists.mp hx
    refine h.processesInj.find_of_mem h.processesWF hmem ?_
    simp [Kernel.processKey, hp, (h.proc x hmem p hp).self]

theorem Inv.processOf_none_iff (h : Inv E k) :
    k.processOf E g = some none ↔ ∀ x, x.tgid = g → k.process x = none := by
  constructor
  · intro hn x hx
    by_contra hne
    have hsome := h.processOf_iff.mpr ⟨hx, Option.isSome_iff_ne_none.mpr hne⟩
    rw [hn] at hsome
    simp at hsome
  · intro hall
    rcases h.toShape.processOf_cases g with hn | ⟨ep, p, hep, hp⟩
    · exact hn
    · have hnone := hall ep (h.processOf_iff.mp hep).1
      simp [hp] at hnone

theorem SameRecords.sameFor (h : SameRecords g k k') (hk : Inv E k) (hk' : Inv E k') :
    SameFor E g k k' := by
  refine ⟨h, ?_⟩
  rcases hk.toShape.processOf_cases g with hn | ⟨ep, p, hep, hp⟩
  · rw [hn, hk'.processOf_none_iff]
    intro x hx
    rw [h.process x hx]
    exact hk.processOf_none_iff.mp hn x hx
  · rw [hep, hk'.processOf_iff]
    have hx := (hk.processOf_iff.mp hep).1
    exact ⟨hx, by simp [h.process ep hx, hp]⟩

namespace SameFor

variable {ep tp f : Ptr} {p : Process} {t : Thread} {r : Fiber}

theorem threadOf_eq (h : SameFor E g k k') (hok : ProcOk E k ep p) (hid : p.processId = g)
    (pid : PidT) : k'.threadOf E p pid = k.threadOf E p pid :=
  HashTable.find_congr fun x hx => by
    rw [Kernel.threadKey, Kernel.threadKey, h.thread x (by rw [hok.threadTgid x hx, hid])]

theorem fiberOf_eq (h : SameFor E g k k') (hok : ProcOk E k ep p) (hid : p.processId = g)
    (id : PidT) : k'.fiberOf E p id = k.fiberOf E p id :=
  HashTable.find_congr fun x hx => by
    rw [Kernel.fiberKey, Kernel.fiberKey, h.fiber x (by rw [hok.fiberTgid x hx, hid])]

/-- A thread of `g` that is not converted is not converted in either state. -/
theorem notConverted (h : SameFor E cur.tgid k k') (hk : Inv E k) (hn : NotConverted E k cur) :
    NotConverted E k' cur := by
  rcases hn with hn | ⟨ep, p, hep, hp, ht⟩
  · exact .inl (by rw [h.found, hn])
  · obtain ⟨-, hok, hid⟩ := hk.toShape.processOf_found hep hp
    refine .inr ⟨ep, p, by rw [h.found, hep], ?_, ?_⟩
    · rw [h.process ep (hk.processOf_iff.mp hep).1, hp]
    · rw [h.threadOf_eq hok hid, ht]

/-- A converted thread of `g` finds the same records in both states. -/
theorem running (h : SameFor E cur.tgid k k') (hk : Inv E k) (hk' : Inv E k')
    (hr : Running E k cur ep p tp t f r) : Running E k' cur ep p tp t f r := by
  have htgid := (hk.processOf_iff.mp hr.process).1
  have hp : k'.process ep = some p := by rw [h.process ep htgid, hr.process_eq]
  have hmem := hk'.linkedProcess ep (by simp [hp])
  have htt : tp.tgid = cur.tgid := by rw [hr.procOk.threadTgid tp hr.thread_mem, hr.processId]
  have hft : f.tgid = cur.tgid := by rw [hr.procOk.fiberTgid f hr.fiber_mem, hr.processId]
  exact
    { process := by rw [h.found, hr.process]
      process_eq := hp
      thread := by rw [h.threadOf_eq hr.procOk hr.processId, hr.thread]
      thread_eq := by rw [h.thread tp htt, hr.thread_eq]
      process_mem := hmem
      procOk := hk'.proc ep hmem p hp
      processId := hr.processId
      thread_mem := hr.thread_mem
      threadId := hr.threadId
      parent := hr.parent
      selected := hr.selected
      fiber_mem := hr.fiber_mem
      fiber_eq := by rw [h.fiber f hft, hr.fiber_eq]
      attached := hr.attached
      locked := hr.locked }

end SameFor

/-! ## Steps of other processes -/

/-- The records of a process are allocated for it. -/
theorem Inv.foreign {ep x : Ptr} {p : Process} (hk : Inv E k)
    (hep : k.processOf E g = some (some ep)) (hp : k.process ep = some p) (hx : x.tgid ≠ g) :
    x ≠ ep ∧ x ∉ p.threads ∧ x ∉ p.fibers := by
  obtain ⟨-, hok, hid⟩ := hk.toShape.processOf_found hep hp
  refine ⟨?_, fun hm => hx ?_, fun hm => hx ?_⟩
  · rintro rfl
    exact hx (hk.processOf_iff.mp hep).1
  · rw [hok.threadTgid x hm, hid]
  · rw [hok.fiberTgid x hm, hid]

/-- A step writes records of its own process only. -/
theorem Outcome.sameRecords_of_ne {op : Op} {res : ℤ} (hk : Inv E k) (h : Outcome E k op res k')
    (hne : op.tgid ≠ g) : SameRecords g k k' := by
  have hptr : ∀ x : Ptr, x.tgid = g → ∀ n, x ≠ ⟨op.tgid, n⟩ := by
    rintro x rfl n he
    exact hne (by rw [he])
  have htgid : ∀ x : Ptr, x.tgid = g → x.tgid ≠ op.tgid := fun x hx he => hne (by rw [← he, hx])
  have hg : g ≠ op.tgid := Ne.symm hne
  have hcpu : ∀ u : Task, u.tgid = g → ∀ v : Task, v.tgid = op.tgid → u ≠ v := by
    rintro u rfl v hv rfl
    exact hne hv.symm
  cases h with
  | refused | again | switchMissing | releaseNone => exact .refl g k
  | @user cur cpu =>
    refine ⟨fun _ _ => rfl, fun _ _ => rfl, fun _ _ => rfl, rfl, fun u hu => ?_⟩
    simp [hcpu u hu cur rfl]
  | @convertedFirst cur hn =>
    refine ⟨fun x hx => ?_, fun x hx => ?_, fun x hx => ?_, ?_, fun _ _ => rfl⟩
    · have hx' := hptr x hx
      simp_all [Kernel.converted, Kernel.withProcess, Kernel.nextPtr, Op.tgid]
    · have hx' := hptr x hx
      simp_all [Kernel.converted, Kernel.withProcess, Kernel.nextPtr, Op.tgid]
    · have hx' := hptr x hx
      simp_all [Kernel.converted, Kernel.withProcess, Op.tgid]
    · simp_all [Kernel.converted, Kernel.withProcess, Op.tgid]
  | @converted cur ep p hep hp ht =>
    refine ⟨fun x hx => ?_, fun x hx => ?_, fun x hx => ?_, ?_, fun _ _ => rfl⟩
    · simp [Kernel.converted, (hk.foreign hep hp (htgid x hx)).1]
    · have hx' : x ≠ k.nextPtr cur.tgid := hptr x hx _
      simp [Kernel.converted, hx']
    · have hx' : x ≠ ⟨cur.tgid, k.brk cur.tgid + 1⟩ := hptr x hx _
      simp [Kernel.converted, hx']
    · have hg' : g ≠ cur.tgid := hg
      simp [Kernel.converted, hg']
  | @created cur ep tp f p t r sp sz fn arg hr =>
    refine ⟨fun x hx => ?_, fun _ _ => rfl, fun x hx => ?_, ?_, fun _ _ => rfl⟩
    · simp [Kernel.created, Kernel.withFiber, (hk.foreign hr.process hr.process_eq (htgid x hx)).1]
    · have hx' : x ≠ k.nextPtr cur.tgid := hptr x hx _
      simp [Kernel.created, Kernel.withFiber, hx']
    · have hg' : g ≠ cur.tgid := hg
      simp [Kernel.created, Kernel.withFiber, hg']
  | @switchBusy cur ep tp f y p t r rg id hr hid hy hl =>
    refine ⟨fun _ _ => rfl, fun _ _ => rfl, fun x hx => ?_, rfl, fun _ _ => rfl⟩
    obtain ⟨-, -, hx'⟩ := hk.foreign hr.process hr.process_eq (htgid x hx)
    have hxy : x ≠ y := by rintro rfl; exact hx' (HashTable.find_eq_some hid).1
    simp [Kernel.bumped, hxy]
  | @switched cur ep tp f y p t r rg id hr hid hy hl ha hyf =>
    refine ⟨fun _ _ => rfl, fun x hx => ?_, fun x hx => ?_, rfl, fun u hu => ?_⟩
    · obtain ⟨-, hx', -⟩ := hk.foreign hr.process hr.process_eq (htgid x hx)
      have hxt : x ≠ tp := by rintro rfl; exact hx' hr.thread_mem
      simp [Kernel.switched, hxt]
    · obtain ⟨-, -, hx'⟩ := hk.foreign hr.process hr.process_eq (htgid x hx)
      have hxy : x ≠ y := by rintro rfl; exact hx' (HashTable.find_eq_some hid).1
      have hxf : x ≠ f := by rintro rfl; exact hx' hr.fiber_mem
      simp [Kernel.switched, hxy, hxf]
    · simp [Kernel.switched, hcpu u hu cur rfl]
  | @fls cur ep tp f p t r c hr hc =>
    refine ⟨fun _ _ => rfl, fun _ _ => rfl, fun x hx => ?_, rfl, fun _ _ => rfl⟩
    obtain ⟨-, -, hx'⟩ := hk.foreign hr.process hr.process_eq (htgid x hx)
    have hxf : x ≠ f := by rintro rfl; exact hx' hr.fiber_mem
    simp [hxf]
  | @detached cur ep tp f p t r hr hact =>
    refine ⟨fun x hx => ?_, fun x hx => ?_, fun x hx => ?_, rfl, fun _ _ => rfl⟩ <;>
      obtain ⟨hxe, hxt', hxf'⟩ := hk.foreign hr.process hr.process_eq (htgid x hx)
    · simp [Kernel.detached, hxe]
    · have hxt : x ≠ tp := by rintro rfl; exact hxt' hr.thread_mem
      simp [Kernel.detached, hxt]
    · have hxf : x ≠ f := by rintro rfl; exact hxf' hr.fiber_mem
      simp [Kernel.detached, hxf]
  | @lastExit cur ep tp f p t r hr hact =>
    refine ⟨fun x hx => ?_, fun x hx => ?_, fun x hx => ?_, rfl, fun _ _ => rfl⟩ <;>
      obtain ⟨hxe, hxt', hxf⟩ := hk.foreign hr.process hr.process_eq (htgid x hx)
    · simp [Kernel.toreDown, hxe]
    · have hxt : x ≠ tp := by rintro rfl; exact hxt' hr.thread_mem
      simp [Kernel.toreDown, hxt]
    · simp [Kernel.toreDown, hxf]
  | @released cur ep p hep hp =>
    refine ⟨fun x hx => ?_, fun x hx => ?_, fun x hx => ?_, rfl, fun _ _ => rfl⟩ <;>
      obtain ⟨hxe, hxt, hxf⟩ := hk.foreign hep hp (htgid x hx)
    · simp [Kernel.toreDown, hxe]
    · simp [Kernel.toreDown, hxt]
    · simp [Kernel.toreDown, hxf]

/-! ## Steps of the process itself -/

/-- The ways of `Outcome` are what the code does. -/
theorem Shape.run_of_outcome {op : Op} {res : ℤ} (hk : Shape E k) (h : Outcome E k op res k') :
    op.run E k = some (res, k') := by
  cases h with
  | refused hn hc => exact run_refused hn hc
  | again hr =>
    exact doConvertThreadToFiber_found (findOrCreateProcess_found hr.process) hr.process_eq hr.thread
  | @convertedFirst cur hn =>
    have ht : (k.withProcess E cur).threadOf E
        { processId := cur.tgid, lastFiberId := 0, activeThreads := 0,
          threads := .empty, fibers := .empty } cur.pid = some none := rfl
    exact doConvertThreadToFiber_new (findOrCreateProcess_new hn) (by simp [Kernel.withProcess]) ht
  | converted hep hp ht => exact doConvertThreadToFiber_new (findOrCreateProcess_found hep) hp ht
  | created hr => exact doCreateFiber_eq hr.toCaller _ _ _ _
  | switchMissing hr hid => exact doSwitchToFiber_missing hr.toCaller hid
  | switchBusy hr hid hg hl => exact doSwitchToFiber_busy hr.toCaller hid hg hl
  | switched hr hid hg hl ha hne =>
    exact doSwitchToFiber_free hr.toCaller hid hg hl ha hr.selected hr.fiber_eq hne
  | fls hr hc => exact fls_run hr.toCaller hr.selected hr.fiber_eq hc
  | detached hr hact =>
    exact exitCleanup_detach hr.toCaller hr.parent hr.selected hr.fiber_eq hact
  | lastExit hr hact =>
    refine exitCleanup_last hr.toCaller hr.parent hact hr.procOk.fibersWF fun x hx => ?_
    obtain ⟨r, hrx⟩ := hr.procOk.fiber_exists hx
    simp [hrx]
  | releaseNone hn => exact processCleanup_none hn
  | released hep hp => exact processCleanup_eq hep hp (hk.processOf_found hep hp).2.1
  | user => rfl

theorem SameRecords.converted {ep : Ptr} (h : SameRecords cur.tgid k k₁) (p : Process) :
    SameRecords cur.tgid (k.converted E cur ep p) (k₁.converted E cur ep p) where
  process x hx := by
    simp [Kernel.converted, Kernel.nextPtr, Function.update_apply, h.brk, h.process x hx]
  thread x hx := by
    simp [Kernel.converted, Kernel.nextPtr, Function.update_apply, h.brk, h.thread x hx]
  fiber x hx := by
    simp [Kernel.converted, Kernel.nextPtr, Function.update_apply, h.brk, h.fiber x hx, h.cpu cur rfl]
  brk := by simp [Kernel.converted, h.brk]
  cpu u hu := h.cpu u hu

theorem SameRecords.withProcess (h : SameRecords cur.tgid k k₁) :
    SameRecords cur.tgid (k.withProcess E cur) (k₁.withProcess E cur) where
  process x hx := by
    simp [Kernel.withProcess, Kernel.nextPtr, Function.update_apply, h.brk, h.process x hx]
  thread x hx := h.thread x hx
  fiber x hx := h.fiber x hx
  brk := by simp [Kernel.withProcess, h.brk]
  cpu u hu := h.cpu u hu

theorem SameRecords.toreDown {ep : Ptr} {ts fs : List Ptr} (h : SameRecords g k k₁) :
    SameRecords g (k.toreDown ep ts fs) (k₁.toreDown ep ts fs) where
  process x hx := by simp [Kernel.toreDown, Function.update_apply, h.process x hx]
  thread x hx := by simp [Kernel.toreDown, h.thread x hx]
  fiber x hx := by simp [Kernel.toreDown, h.fiber x hx]
  brk := h.brk
  cpu := h.cpu

/-- From two states that look the same to process `g`, a step of `g` has the
    same result and leads to states that look the same to `g`. -/
theorem Outcome.sameRecords_step {op : Op} {res : ℤ} (hk : Inv E k) (hk₁ : Inv E k₁)
    (hs : SameFor E op.tgid k k₁) (h : Outcome E k op res k') :
    ∃ k₁', Outcome E k₁ op res k₁' ∧ SameRecords op.tgid k' k₁' := by
  cases h with
  | refused hn hc => exact ⟨_, .refused (hs.notConverted hk hn) hc, hs.toSameRecords⟩
  | again hr => exact ⟨_, .again (hs.running hk hk₁ hr), hs.toSameRecords⟩
  | @convertedFirst cur hn =>
    have hn₁ : k₁.processOf E cur.tgid = some none := hs.found.trans hn
    have hnext : k₁.nextPtr cur.tgid = k.nextPtr cur.tgid := by
      simp only [Kernel.nextPtr, Ptr.mk.injEq, true_and]
      exact hs.brk
    refine ⟨_, .convertedFirst hn₁, ?_⟩
    rw [hnext]
    exact SameRecords.converted (SameRecords.withProcess hs.toSameRecords) _
  | @converted cur ep p hep hp ht =>
    obtain ⟨-, hok, hid⟩ := hk.toShape.processOf_found hep hp
    have hp₁ : k₁.process ep = some p := (hs.process ep (hk.processOf_iff.mp hep).1).trans hp
    exact ⟨_, .converted (hs.found.trans hep) hp₁ ((hs.threadOf_eq hok hid _).trans ht),
      SameRecords.converted hs.toSameRecords p⟩
  | @created cur ep tp f p t r sp sz fn arg hr =>
    refine ⟨_, .created (hs.running hk hk₁ hr), ?_⟩
    have hbrk : k₁.brk cur.tgid = k.brk cur.tgid := hs.brk
    have hcpu : k₁.cpu cur = k.cpu cur := hs.cpu cur rfl
    refine ⟨fun x hx => ?_, fun x hx => hs.thread x hx, fun x hx => ?_, ?_, fun u hu => hs.cpu u hu⟩
    · simp [Kernel.created, Kernel.withFiber, Kernel.nextPtr, Function.update_apply, hbrk,
        hs.process x hx]
    · simp [Kernel.created, Kernel.withFiber, Kernel.nextPtr, Function.update_apply, hbrk, hcpu,
        hs.fiber x hx]
    · simp [Kernel.created, Kernel.withFiber, Op.tgid, hbrk]
  | switchMissing hr hid =>
    refine ⟨_, .switchMissing (hs.running hk hk₁ hr) ?_, hs.toSameRecords⟩
    rw [hs.fiberOf_eq hr.procOk hr.processId, hid]
  | @switchBusy cur ep tp f y p t r rg id hr hid hy hl =>
    have hyt : y.tgid = cur.tgid := by
      rw [hr.procOk.fiberTgid y (HashTable.find_eq_some hid).1, hr.processId]
    have hid₁ := (hs.fiberOf_eq hr.procOk hr.processId id).trans hid
    refine ⟨_, .switchBusy (hs.running hk hk₁ hr) hid₁ ((hs.fiber y hyt).trans hy) hl, ?_⟩
    refine ⟨fun x hx => hs.process x hx, fun x hx => hs.thread x hx, fun x hx => ?_, hs.brk,
      fun u hu => hs.cpu u hu⟩
    simp [Kernel.bumped, hs.fiber x hx, hs.fiber y hyt]
  | @switched cur ep tp f y p t r rg id hr hid hy hl ha hyf =>
    have hyt : y.tgid = cur.tgid := by
      rw [hr.procOk.fiberTgid y (HashTable.find_eq_some hid).1, hr.processId]
    have hcpu : k₁.cpu cur = k.cpu cur := hs.cpu cur rfl
    have hid₁ := (hs.fiberOf_eq hr.procOk hr.processId id).trans hid
    refine ⟨_, .switched (hs.running hk hk₁ hr) hid₁ ((hs.fiber y hyt).trans hy) hl ha hyf, ?_⟩
    refine ⟨fun x hx => hs.process x hx, fun x hx => ?_, fun x hx => ?_, hs.brk, fun u hu => ?_⟩
    · simp [Kernel.switched, Function.update_apply, hs.thread x hx]
    · simp [Kernel.switched, Function.update_apply, hs.fiber x hx, hcpu]
    · simp [Kernel.switched, Function.update_apply, hs.cpu u hu, hcpu]
  | @fls cur ep tp f p t r c hr hc =>
    refine ⟨_, .fls (hs.running hk hk₁ hr) hc, ?_⟩
    refine ⟨fun x hx => hs.process x hx, fun x hx => hs.thread x hx, fun x hx => ?_, hs.brk,
      fun u hu => hs.cpu u hu⟩
    simp [Function.update_apply, hs.fiber x hx]
  | @detached cur ep tp f p t r hr hact =>
    have hcpu : k₁.cpu cur = k.cpu cur := hs.cpu cur rfl
    refine ⟨_, .detached (hs.running hk hk₁ hr) hact, ?_⟩
    refine ⟨fun x hx => ?_, fun x hx => ?_, fun x hx => ?_, hs.brk, fun u hu => hs.cpu u hu⟩
    · simp [Kernel.detached, Function.update_apply, hs.process x hx]
    · simp [Kernel.detached, Function.update_apply, hs.thread x hx]
    · simp [Kernel.detached, Function.update_apply, hs.fiber x hx, hcpu]
  | lastExit hr hact =>
    exact ⟨_, .lastExit (hs.running hk hk₁ hr) hact, hs.toSameRecords.toreDown⟩
  | releaseNone hn => exact ⟨_, .releaseNone (hs.found.trans hn), hs.toSameRecords⟩
  | @released cur ep p hep hp =>
    have hp₁ : k₁.process ep = some p := (hs.process ep (hk.processOf_iff.mp hep).1).trans hp
    exact ⟨_, .released (hs.found.trans hep) hp₁, hs.toSameRecords.toreDown⟩
  | @user cur cpu =>
    refine ⟨_, .user, fun x hx => hs.process x hx, fun x hx => hs.thread x hx,
      fun x hx => hs.fiber x hx, hs.brk, fun u hu => ?_⟩
    simp [hs.cpu u hu]

/-! ## Whole runs -/

/-- The step is made by a thread of `g`. -/
def Op.ownedBy (g : PidT) (l : Op × ℤ) : Bool := l.1.tgid = g

/-- The steps of `g`, on their own, form a run with the same results, from any
    start in which the threads of `g` have the same CPU states. -/
theorem exists_own_run {cpu cpu₁ : Task → Cpu} {ls : List (Op × ℤ)}
    (h : Run (Step E) (Kernel.boot cpu) ls k) (hcpu : ∀ u, u.tgid = g → cpu₁ u = cpu u) :
    ∃ k₁, Run (Step E) (Kernel.boot cpu₁) (ls.filter (Op.ownedBy g)) k₁ ∧ SameFor E g k k₁ := by
  let V : Kernel → Kernel → Prop := fun k k₁ => Inv E k ∧ Inv E k₁ ∧ SameRecords g k k₁
  have h0 : V (Kernel.boot cpu) (Kernel.boot cpu₁) :=
    ⟨.boot cpu, .boot cpu₁, fun _ _ => rfl, fun _ _ => rfl, fun _ _ => rfl, rfl, hcpu⟩
  have hother : ∀ k l k' k₁, V k k₁ → Step E k l k' → Op.ownedBy g l = false → V k' k₁ := by
    rintro k l k' k₁ ⟨hk, hk₁, hsame⟩ hs hl
    have hout := hk.toShape.outcome_of_run hs
    have hne : l.1.tgid ≠ g := by simpa [Op.ownedBy] using hl
    exact ⟨hk.step hout, hk₁, (hout.sameRecords_of_ne hk hne).symm.trans hsame⟩
  have hown : ∀ k l k' k₁, V k k₁ → Step E k l k' → Op.ownedBy g l = true →
      ∃ k₁', Step E k₁ l k₁' ∧ V k' k₁' := by
    rintro k ⟨op, res⟩ k' k₁ ⟨hk, hk₁, hsame⟩ hs hl
    have hout := hk.toShape.outcome_of_run hs
    obtain rfl : op.tgid = g := by simpa [Op.ownedBy] using hl
    obtain ⟨k₁', hout₁, hsame'⟩ := hout.sameRecords_step hk hk₁ (hsame.sameFor hk hk₁)
    exact ⟨k₁', hk₁.toShape.run_of_outcome hout₁, hk.step hout, hk₁.step hout₁, hsame'⟩
  obtain ⟨k₁, hrun, hk, hk₁, hsame⟩ := h.exists_filter (Op.ownedBy g) h0 hother hown
  exact ⟨k₁, hrun, hsame.sameFor hk hk₁⟩

/-- A process observes only itself. For every run, deleting every step of the
    other processes gives a run in which `g` gets the same results and ends up
    with the same records; and any two runs in which the threads of `g` do the
    same, whatever the other processes do in either, give `g` the same results
    and records. -/
theorem process_isolation {cpu : Task → Cpu} {ls : List (Op × ℤ)}
    (h : Run (Step E) (Kernel.boot cpu) ls k) (g : PidT) :
    (∃ k₁, Run (Step E) (Kernel.boot cpu) (ls.filter (Op.ownedBy g)) k₁ ∧ SameFor E g k k₁) ∧
    ∀ cpu₂ ls₂ k₂, Run (Step E) (Kernel.boot cpu₂) ls₂ k₂ → (∀ u, u.tgid = g → cpu₂ u = cpu u) →
      (ls₂.filter (Op.ownedBy g)).map Prod.fst = (ls.filter (Op.ownedBy g)).map Prod.fst →
      ls₂.filter (Op.ownedBy g) = ls.filter (Op.ownedBy g) ∧ SameFor E g k k₂ := by
  refine ⟨exists_own_run h fun _ _ => rfl, fun cpu₂ ls₂ k₂ h₂ hcpu hops => ?_⟩
  obtain ⟨k₁, hrun, hsame⟩ := exists_own_run h hcpu
  obtain ⟨k₃, hrun₂, hsame₂⟩ := exists_own_run (g := g) h₂ fun _ _ => rfl
  have hdet : ∀ (s : Kernel) (l m : Op × ℤ) (s' s'' : Kernel), Step E s l s' → Step E s m s'' →
      l.1 = m.1 → l = m ∧ s' = s'' := by
    rintro s ⟨op, r⟩ ⟨op', r'⟩ s' s'' hl hm rfl
    have heq : some (r, s') = some (r', s'') := hl.symm.trans hm
    simpa using heq
  obtain ⟨hls, rfl⟩ := hrun₂.functional hdet hrun hops
  refine ⟨hls, hsame.toSameRecords.trans hsame₂.toSameRecords.symm, ?_⟩
  rw [← hsame₂.found, hsame.found]

/-- Process 8 converts a thread and closes its descriptor while process 7, which
    collides with it in every bucket, converts one of its own. -/
theorem process_isolation_twoProcesses :
    ∃ k k₁, Run (Step { Env.linux 240 with hash := fun _ => 0 }) (Kernel.boot fun _ => .zero)
        [(.call ⟨8, 8⟩ .convert, 1), (.call ⟨7, 7⟩ .convert, 1), (.release ⟨8, 8⟩, 0)] k ∧
      Run (Step { Env.linux 240 with hash := fun _ => 0 }) (Kernel.boot fun _ => .zero)
        [(.call ⟨7, 7⟩ .convert, 1)] k₁ ∧
      SameFor { Env.linux 240 with hash := fun _ => 0 } 7 k k₁ := by
  set E : Env := { Env.linux 240 with hash := fun _ => 0 } with hE
  have h1 : Step E (Kernel.boot fun _ => .zero) (.call ⟨8, 8⟩ .convert, 1)
      (Kernel.firstConverted E ⟨8, 8⟩ fun _ => .zero) := firstConverted_run E ⟨8, 8⟩ fun _ => .zero
  have hinv := (Reachable.firstConverted E ⟨8, 8⟩ fun _ => .zero).inv
  have hnone : (Kernel.firstConverted E ⟨8, 8⟩ fun _ => .zero).processOf E 7 = some none :=
    hinv.processOf_none_iff.mpr fun x hx =>
      ((Inv.boot _).toShape.outcome_of_run h1 |>.sameRecords_of_ne (.boot _) (g := 7) (by decide)).process x hx
  have hout : Outcome E _ (.call ⟨7, 7⟩ .convert) 1 _ := .convertedFirst hnone
  have h2 : Step E _ (.call ⟨7, 7⟩ .convert, 1) _ := hinv.toShape.run_of_outcome hout
  obtain ⟨res, k₃, h3, hout₃⟩ := (hinv.step hout).toShape.outcome (.release ⟨8, 8⟩)
  obtain rfl : res = 0 := by cases hout₃ <;> rfl
  have hrun : Run (Step E) (Kernel.boot fun _ => .zero)
      [(.call ⟨8, 8⟩ .convert, 1), (.call ⟨7, 7⟩ .convert, 1), (.release ⟨8, 8⟩, 0)] k₃ :=
    .head h1 (.head h2 (.single h3))
  obtain ⟨k₁, hrun₁, hsame⟩ := (process_isolation hrun 7).1
  exact ⟨k₃, k₁, hrun, hrun₁, hsame⟩

end AosvFibers
