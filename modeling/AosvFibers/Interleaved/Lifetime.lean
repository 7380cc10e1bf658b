import AosvFibers.Interleaved.Guard

/-!
# Process records in use

Threads of one process convert themselves and die, statement by statement in any order.
`active_threads` counts the converted threads, from the `atomic64_inc` of their
conversion to the `atomic64_dec_return` of their death. The thread that brings the count
to zero frees the process record, and a thread that is not counted may have the record
in hand then.

* `Pc.record`: the process record a thread is still going to use;
* `Counts`: what holds of the records, `roll p` being the thread records that the
  `active_threads` of `p` counts;
* `Stage`: what is known about a thread at each place;
* `Life`: the invariant.

`Stage.frame` says that a thread's knowledge survives the steps of the others, and
`Life.step` puts the invariant together after a step.
-/

namespace AosvFibers

open Lib Stmt

/-! ## Places -/

/-- The process record a statement reads or writes through a local variable. -/
def Stmt.record : Stmt → Option Ptr
  | incActive p | addThread p _ | addFiber p _ | delThread p _ | delProcess p | freeProcess p =>
      some p
  | _ => none

/-- The process record a statement frees. -/
def Stmt.frees? : Stmt → Option Ptr
  | freeProcess p => some p
  | _ => none

/-- The thread record a statement takes off its table. -/
def Stmt.unlinks : Stmt → Option Ptr
  | delThread _ t => some t
  | _ => none

/-- The fiber a statement puts on a table. -/
def Stmt.lists : Stmt → Option Ptr
  | addFiber _ f => some f
  | _ => none

/-- The process record that the thread is still going to use. -/
def Pc.record : Pc → Option Ptr
  | findThread _ p | findSelf p | newThread p | newFiber p _ | takeId p _ _ | findFiber _ p _
  | dec p _ | checkExit p _ _ | exitPrev p _ _ | freeBucket p _ => some p
  | lastThread p r => if r = 0 then some p else none
  | run ss next => (ss.findSome? Stmt.record).or next.record
  | _ => none

/-- The process record of which the thread has found itself to be the last thread, and
    which it has not freed yet. -/
def Pc.tearsDown : Pc → Option Ptr
  | checkExit p _ r | exitPrev p _ r | lastThread p r => if r = 0 then some p else none
  | freeBucket p _ => some p
  | run ss next => (ss.findSome? Stmt.frees?).or next.tearsDown
  | _ => none

/-- The thread record that is still on its table though its thread is not counted any
    more. -/
def Pc.leaves : Pc → Option Ptr
  | checkExit _ t _ | exitPrev _ t _ => some t
  | run ss _ => ss.findSome? Stmt.unlinks
  | _ => none

/-- The fiber the thread is making, up to the statement that puts it on its table. -/
def Pc.making : Pc → Option Ptr
  | takeId _ f _ => some f
  | run ss _ => ss.findSome? Stmt.lists
  | _ => none

/-- A write to a field of a fiber or to `selected_fiber`. -/
def Stmt.isWrite : Stmt → Bool
  | fiber _ _ | select _ _ => true
  | _ => false

theorem Stmt.none_of_isWrite {st : Stmt} (h : st.isWrite) :
    st.record = .none ∧ st.frees? = .none ∧ st.unlinks = .none ∧ st.lists = .none := by
  cases st with
  | fiber f a => exact ⟨rfl, rfl, rfl, rfl⟩
  | select t f => exact ⟨rfl, rfl, rfl, rfl⟩
  | _ => cases h

/-- Pending writes do not show in a place. -/
theorem Pc.run_writes {ss : List Stmt} (h : ∀ st ∈ ss, st.isWrite) (next : Pc) :
    (run ss next).record = next.record ∧ (run ss next).tearsDown = next.tearsDown ∧
    (run ss next).leaves = .none ∧ (run ss next).making = .none := by
  have hnone : ∀ φ : Stmt → Option Ptr, (∀ st, st.isWrite → φ st = .none) →
      ss.findSome? φ = .none := by
    intro φ hφ
    rw [List.findSome?_eq_none_iff]
    exact fun st hst => hφ st (h st hst)
  have h1 := hnone Stmt.record fun _ hst => (none_of_isWrite hst).1
  have h2 := hnone Stmt.frees? fun _ hst => (none_of_isWrite hst).2.1
  have h3 := hnone Stmt.unlinks fun _ hst => (none_of_isWrite hst).2.2.1
  have h4 := hnone Stmt.lists fun _ hst => (none_of_isWrite hst).2.2.2
  refine ⟨?_, ?_, h3, h4⟩
  · rw [record, h1, Option.none_or]
  · rw [tearsDown, h2, Option.none_or]

theorem Pc.run_assigns (f : Ptr) (as : List Assign) (ss : List Stmt) (next : Pc) :
    (run (assigns f as ++ ss) next).record = (run ss next).record ∧
    (run (assigns f as ++ ss) next).tearsDown = (run ss next).tearsDown ∧
    (run (assigns f as ++ ss) next).leaves = (run ss next).leaves ∧
    (run (assigns f as ++ ss) next).making = (run ss next).making := by
  have hskip : ∀ φ : Stmt → Option Ptr, (∀ a, φ (.fiber f a) = .none) →
      (assigns f as ++ ss).findSome? φ = ss.findSome? φ := by
    intro φ hφ
    rw [List.findSome?_append, (List.findSome?_eq_none_iff (l := assigns f as)).mpr, Option.none_or]
    intro st hst
    obtain ⟨a, -, rfl⟩ := List.mem_map.mp hst
    exact hφ a
  have h1 := hskip Stmt.record fun _ => rfl
  have h2 := hskip Stmt.frees? fun _ => rfl
  have h3 := hskip Stmt.unlinks fun _ => rfl
  have h4 := hskip Stmt.lists fun _ => rfl
  simp only [record, tearsDown, leaves, making, h1, h2, h3, h4, and_self]

theorem Pc.run_freeFibers (fs : List Ptr) (next : Pc) :
    (run (fs.map .freeFiber) next).record = next.record ∧
    (run (fs.map .freeFiber) next).tearsDown = next.tearsDown ∧
    (run (fs.map .freeFiber) next).leaves = .none ∧
    (run (fs.map .freeFiber) next).making = .none := by
  have hnone : ∀ φ : Stmt → Option Ptr, (∀ f, φ (freeFiber f) = .none) →
      (fs.map .freeFiber).findSome? φ = .none := by
    intro φ hφ
    rw [List.findSome?_eq_none_iff]
    intro st hst
    obtain ⟨f, -, rfl⟩ := List.mem_map.mp hst
    exact hφ f
  have h1 := hnone Stmt.record fun _ => rfl
  have h2 := hnone Stmt.frees? fun _ => rfl
  refine ⟨?_, ?_, hnone Stmt.unlinks fun _ => rfl, hnone Stmt.lists fun _ => rfl⟩
  · rw [record, h1, Option.none_or]
  · rw [tearsDown, h2, Option.none_or]

/-! ## The records of one process -/

namespace Kernel

variable (g : PidT) (k : Kernel)

/-- There is a process record at `p`, for process `g`. -/
def belongs (p : Ptr) : Prop := ∃ q, k.process p = some q ∧ q.processId = g

/-- The thread record at `t` is on the table of `p`, a record of process `g`. -/
def hasThread (p t : Ptr) : Prop := ∃ q, k.process p = some q ∧ q.processId = g ∧ t ∈ q.threads

/-- The fiber at `f` is on the table of `p`, a record of process `g`. -/
def hasFiber (p f : Ptr) : Prop := ∃ q, k.process p = some q ∧ q.processId = g ∧ f ∈ q.fibers

/-- The thread record at `t` is one of thread `u` in the process record at `p`. -/
def threadIs (t : Ptr) (u : PidT) (p : Ptr) : Prop :=
  ∃ r, k.thread t = some r ∧ r.threadId = u ∧ r.parent = p

/-- Thread `u` has no record on the table of `p`. -/
def lacks (p : Ptr) (u : PidT) : Prop := ∀ t, k.hasThread g p t → k.threadKey t ≠ some u

end Kernel

/-- What holds of the record `q` of process `g` at `p` whose `active_threads` counts the
    thread records in `members`. -/
structure CountOk (E : Env) (k : Kernel) (p : Ptr) (q : Process) (members : Finset Ptr) : Prop where
  threadsWF : q.threads.WF E.hash k.threadKey
  threadsInj : q.threads.InjKeys k.threadKey
  parent : ∀ t ∈ q.threads, ∀ r, k.thread t = some r → r.parent = p
  count : q.activeThreads = members.card

/-- What holds of the records. -/
structure Counts (E : Env) (g : PidT) (k : Kernel) (roll : Ptr → Finset Ptr) : Prop where
  processesWF : k.processes.WF E.hash k.processKey
  processesInj : k.processes.InjKeys k.processKey
  freshProcess : ∀ x, (k.process x).isSome → x.serial < k.brk x.tgid
  freshThread : ∀ x, (k.thread x).isSome → x.serial < k.brk x.tgid
  freshFiber : ∀ x, (k.fiber x).isSome → x.serial < k.brk x.tgid
  freshEntry : ∀ p x, k.hasFiber g p x → x.serial < k.brk x.tgid
  record : ∀ p q, k.process p = some q → q.processId = g → CountOk E k p q (roll p)
  enrolled : ∀ p, ∀ t ∈ roll p, k.belongs g p ∧ ∃ r, k.thread t = some r ∧ r.parent = p
  apart : ∀ p p' f, k.hasFiber g p f → k.hasFiber g p' f → p = p'

/-! ## Stages -/

/-- A place at which nothing is known. -/
inductive Pc.Plain : Pc → Prop
  | user : Plain .user
  | dead : Plain .dead
  | findOrCreate : Plain .findOrCreate
  | findSelf (p : Ptr) : Plain (.findSelf p)
  | failed : Plain (.ret .convert (-1))
  | findProcess : Plain (.findProcess .exit)
  | findThread (p : Ptr) : Plain (.findThread .exit p)
  | unlinked (p : Ptr) (r : ℤ) : Plain (.run [] (.lastThread p r))
  | lastThread (p : Ptr) (r : ℤ) : Plain (.lastThread p r)
  | freeBucket (p : Ptr) (b : ℕ) : Plain (.freeBucket p b)
  | deleting (p : Ptr) : Plain (.run [delProcess p, freeProcess p] (.ret .exit 0))
  | gone : Plain (.run [] (.ret .exit 0))
  | exited : Plain (.ret .exit 0)

/-- A dying thread with record `t` that is not counted any more. -/
inductive Pc.Leaving (p t : Ptr) : Pc → Prop
  | check (r : ℤ) : Leaving p t (.checkExit p t r)
  | prev (r : ℤ) : Leaving p t (.exitPrev p t r)
  | writing (f : Ptr) (as : List Assign) (r : ℤ) :
      Leaving p t (.run (assigns f as ++ [delThread p t, freeThread t]) (.lastThread p r))

/-- Thread `u` is counted in the process record at `p`, with its record `t` on the table. -/
structure Member (g : PidT) (k : Kernel) (roll : Ptr → Finset Ptr) (u : PidT) (p t : Ptr) :
    Prop where
  thread : k.threadIs t u p
  counted : t ∈ roll p
  listed : k.hasThread g p t

/-- Thread `u` is counted in a process record that has the fiber `id`. -/
def Kernel.hasId (g : PidT) (k : Kernel) (roll : Ptr → Finset Ptr) (u id : PidT) : Prop :=
  ∃ p t f, Member g k roll u p t ∧ k.hasFiber g p f ∧ k.fiberKey f = some id

/-- The last places of a conversion that made the fiber `f`. -/
inductive Pc.Made (k : Kernel) (t f : Ptr) : Pc → Prop
  | writing (ss : List Stmt) (hss : ∀ s ∈ ss, s.isWrite)
      (hsel : ∀ t' x, select t' x ∈ ss → t' = t) :
      Made k t f (.run ss (.lockNew t f))
  | lock : Made k t f (.lockNew t f)
  | read : Made k t f (.readId .convert f)
  | ret (id : PidT) (hid : k.fiberKey f = some id) : Made k t f (.ret .convert id.toInt)

/-- Where thread `u` is. -/
inductive Stage (g : PidT) (k : Kernel) (roll : Ptr → Finset Ptr) (u : PidT) : Pc → Prop
  | plain {pc : Pc} (h : pc.Plain) : Stage g k roll u pc
  | newThread (p : Ptr) (habs : k.lacks g p u) : Stage g k roll u (.newThread p)
  | counting (p t : Ptr) (habs : k.lacks g p u) (ht : k.threadIs t u p) (hnot : t ∉ roll p) :
      Stage g k roll u (.run [incActive p, addThread p t] (.newFiber p (.convert t)))
  | adding (p t : Ptr) (habs : k.lacks g p u) (ht : k.threadIs t u p) (hin : t ∈ roll p) :
      Stage g k roll u (.run [addThread p t] (.newFiber p (.convert t)))
  | added (p t : Ptr) (hm : Member g k roll u p t) :
      Stage g k roll u (.run [] (.newFiber p (.convert t)))
  | newFiber (p t : Ptr) (hm : Member g k roll u p t) : Stage g k roll u (.newFiber p (.convert t))
  | takeId (p t f : Ptr) (hm : Member g k roll u p t) : Stage g k roll u (.takeId p f (.convert t))
  | listing (p t f : Ptr) (hm : Member g k roll u p t) (hkey : (k.fiberKey f).isSome) :
      Stage g k roll u (.run (initFiberTail p f ++ convertTail t f) (.lockNew t f))
  | made (p t f : Ptr) {pc : Pc} (hm : Member g k roll u p t) (hf : k.hasFiber g p f)
      (hkey : (k.fiberKey f).isSome) (hpc : pc.Made k t f) : Stage g k roll u pc
  | dec (p t : Ptr) (hm : Member g k roll u p t) : Stage g k roll u (.dec p t)
  | leaving (p t : Ptr) {pc : Pc} (ht : k.threadIs t u p) (hnot : t ∉ roll p)
      (hl : k.hasThread g p t)
      (hpc : pc.Leaving p t) : Stage g k roll u pc
  | freeingThread (p t : Ptr) (r : ℤ) (ht : k.threadIs t u p) (hnot : t ∉ roll p)
      (hl : ¬ k.hasThread g p t) :
      Stage g k roll u (.run [freeThread t] (.lastThread p r))
  | freeingFibers (p : Ptr) (fs : List Ptr) (b : ℕ) (hfs : ∀ f ∈ fs, k.hasFiber g p f) :
      Stage g k roll u (.run (fs.map freeFiber) (.freeBucket p b))
  | deleted (p : Ptr) (hout : p ∉ k.processes) :
      Stage g k roll u (.run [freeProcess p] (.ret .exit 0))

/-- What the places of the threads have to do with the records; `given u id` says that a
    conversion gave thread `u`, which is not dying, the id `id`. -/
structure Places (g : PidT) (s : Conf) (roll : Ptr → Finset Ptr) (given : PidT → PidT → Prop) :
    Prop where
  inHand : ∀ u p, (s.pc u).record = some p → s.st.belongs g p
  torn : ∀ p, s.st.belongs g p → p ∈ s.st.processes ∨ ∃ u, (s.pc u).tearsDown = some p
  empty : ∀ u p, (s.pc u).tearsDown = some p → roll p = ∅
  owner : ∀ p t u, s.st.hasThread g p t → s.st.threadKey t = some u →
    t ∈ roll p ∨ (s.pc u).leaves = some t
  made : ∀ u f, (s.pc u).making = some f → (s.st.fiber f).isSome ∧ ∀ p, ¬ s.st.hasFiber g p f
  alone : ∀ u v f, (s.pc u).making = some f → (s.pc v).making = some f → u = v
  stage : ∀ u, Stage g s.st roll u (s.pc u)
  held : ∀ u id, given u id → s.st.hasId g roll u id

/-- The invariant. -/
structure Life (E : Env) (g : PidT) (s : Conf) (roll : Ptr → Finset Ptr)
    (given : PidT → PidT → Prop) :
    Prop extends Places g s roll given where
  counts : Counts E g s.st roll

/-! ## What the other threads see -/

/-- What a step of thread `v`, which may be making the fiber `own`, leaves alone. -/
structure Untouched (g v : PidT) (own : Option Ptr) (k : Kernel) (roll : Ptr → Finset Ptr)
    (k' : Kernel)
    (roll' : Ptr → Finset Ptr) : Prop where
  processes : ∀ p, k.belongs g p → p ∈ k'.processes → p ∈ k.processes
  thread : ∀ t r, r.threadId ≠ v → (k'.thread t = some r ↔ k.thread t = some r)
  counted : ∀ p t r, k.thread t = some r → r.threadId ≠ v → (t ∈ roll' p ↔ t ∈ roll p)
  hasThread : ∀ p t r, k.thread t = some r → r.threadId ≠ v → k'.belongs g p →
    (k'.hasThread g p t ↔ k.hasThread g p t)
  hasFiber : ∀ p f, k'.belongs g p → k.hasFiber g p f → k'.hasFiber g p f
  newFiber : ∀ p f, k'.hasFiber g p f → k.hasFiber g p f ∨ own = some f
  fiberKey : ∀ f, own ≠ some f → (k.fiber f).isSome →
    (∀ p, k.hasFiber g p f → (roll p).Nonempty) → k'.fiberKey f = k.fiberKey f

namespace Kernel

variable {g : PidT} {k : Kernel} {p t : Ptr}

theorem hasThread.belongs (h : k.hasThread g p t) : k.belongs g p := by
  obtain ⟨q, hq, hg, -⟩ := h
  exact ⟨q, hq, hg⟩

end Kernel

namespace Untouched

variable {E : Env} {g u v : PidT} {own : Option Ptr} {k k' : Kernel} {roll roll' : Ptr → Finset Ptr}
  {p t f : Ptr} {pc : Pc}

theorem threadIs (h : Untouched g v own k roll k' roll') (hu : u ≠ v) (ht : k.threadIs t u p) :
    k'.threadIs t u p := by
  obtain ⟨r, hr, rfl, rfl⟩ := ht
  exact ⟨r, (h.thread t r hu).mpr hr, rfl, rfl⟩

theorem counted_iff (h : Untouched g v own k roll k' roll') (hu : u ≠ v) (ht : k.threadIs t u p) :
    t ∈ roll' p ↔ t ∈ roll p := by
  obtain ⟨r, hr, rfl, -⟩ := ht
  exact h.counted p t r hr hu

theorem lacks (h : Untouched g v own k roll k' roll') (hu : u ≠ v) (habs : k.lacks g p u) :
    k'.lacks g p u := by
  intro t ht hkey
  obtain ⟨r, hr, rfl⟩ := Option.map_eq_some_iff.mp hkey
  have hold := (h.thread t r hu).mp hr
  refine habs t ((h.hasThread p t r hold hu ht.belongs).mp ht) ?_
  rw [Kernel.threadKey, hold]
  rfl

theorem member (h : Untouched g v own k roll k' roll') (hc : Counts E g k' roll') (hu : u ≠ v)
    (hm : Member g k roll u p t) : Member g k' roll' u p t := by
  have hin := (h.counted_iff hu hm.thread).mpr hm.counted
  refine ⟨h.threadIs hu hm.thread, hin, ?_⟩
  obtain ⟨r, hr, rfl, -⟩ := hm.thread
  exact (h.hasThread p t r hr hu (hc.enrolled p t hin).1).mpr hm.listed

/-- A fiber on a table with a counted thread keeps its id. -/
theorem fiberKey_eq (h : Untouched g v own k roll k' roll') (hc : Counts E g k roll)
    (hown : ∀ x, own = some x → ∀ y, ¬ k.hasFiber g y x) (ht : t ∈ roll p) (hf : k.hasFiber g p f)
    (hkey : (k.fiberKey f).isSome) : k'.fiberKey f = k.fiberKey f := by
  rw [Kernel.fiberKey, Option.isSome_map] at hkey
  refine h.fiberKey f (fun heq => hown f heq p hf) hkey fun y hy => ?_
  rw [← hc.apart p y f hf hy]
  exact ⟨t, ht⟩

theorem hasId {id : PidT} (h : Untouched g v own k roll k' roll') (hc : Counts E g k roll)
    (hc' : Counts E g k' roll') (hown : ∀ x, own = some x → ∀ y, ¬ k.hasFiber g y x) (hu : u ≠ v)
    (hid : k.hasId g roll u id) : k'.hasId g roll' u id := by
  obtain ⟨p, t, f, hm, hf, hkey⟩ := hid
  have hm' := h.member hc' hu hm
  refine ⟨p, t, f, hm', h.hasFiber p f hm'.listed.belongs hf, ?_⟩
  rw [h.fiberKey_eq hc hown hm.counted hf (hkey ▸ rfl), hkey]

/-- The steps of the others leave a thread where it is. -/
theorem stage (h : Untouched g v own k roll k' roll') (hc : Counts E g k roll)
    (hc' : Counts E g k' roll')
    (hown : ∀ x, own = some x → ∀ y, ¬ k.hasFiber g y x) (hu : u ≠ v)
    (hhand : ∀ x, pc.record = some x → k.belongs g x ∧ k'.belongs g x)
    (hmake : ∀ x, pc.making = some x → own ≠ some x ∧ (k.fiber x).isSome ∧ ∀ y, ¬ k.hasFiber g y x)
    (hs : Stage g k roll u pc) : Stage g k' roll' u pc := by
  cases hs with
  | plain hpc => exact .plain hpc
  | newThread p habs => exact .newThread p (h.lacks hu habs)
  | counting p t habs ht hnot =>
    have hnot' : t ∉ roll' p := fun hin => hnot ((h.counted_iff hu ht).mp hin)
    exact .counting p t (h.lacks hu habs) (h.threadIs hu ht) hnot'
  | adding p t habs ht hin =>
    exact .adding p t (h.lacks hu habs) (h.threadIs hu ht) ((h.counted_iff hu ht).mpr hin)
  | added p t hm => exact .added p t (h.member hc' hu hm)
  | newFiber p t hm => exact .newFiber p t (h.member hc' hu hm)
  | takeId p t f hm => exact .takeId p t f (h.member hc' hu hm)
  | listing p t f hm hkey =>
    obtain ⟨hne, hsome, hoff⟩ := hmake f rfl
    refine .listing p t f (h.member hc' hu hm) ?_
    rw [h.fiberKey f hne hsome fun y hy => absurd hy (hoff y)]
    exact hkey
  | made p t f hm hf hkey hpc =>
    have hm' := h.member hc' hu hm
    have heq := h.fiberKey_eq hc hown hm.counted hf hkey
    refine .made p t f hm' (h.hasFiber p f hm'.listed.belongs hf) (heq ▸ hkey) ?_
    cases hpc with
    | writing ss hss hsel => exact .writing ss hss hsel
    | lock => exact .lock
    | read => exact .read
    | ret id hid => exact .ret id (heq.trans hid)
  | dec p t hm => exact .dec p t (h.member hc' hu hm)
  | leaving p t ht hnot hl hpc =>
    have hp : k'.belongs g p := by
      cases hpc with
      | check r => exact (hhand p rfl).2
      | prev r => exact (hhand p rfl).2
      | writing f as r =>
        refine (hhand p ?_).2
        rw [(Pc.run_assigns f as _ _).1]
        rfl
    obtain ⟨r, hr, hid, hpar⟩ := ht
    have ht : k.threadIs t u p := ⟨r, hr, hid, hpar⟩
    exact .leaving p t (h.threadIs hu ht) (fun hin => hnot ((h.counted_iff hu ht).mp hin))
      ((h.hasThread p t r hr (hid ▸ hu) hp).mpr hl) hpc
  | freeingThread p t r ht hnot hl =>
    have hnot' : t ∉ roll' p := fun hin => hnot ((h.counted_iff hu ht).mp hin)
    refine .freeingThread p t r (h.threadIs hu ht) hnot' ?_
    intro hl'
    obtain ⟨r, hr, hid, -⟩ := ht
    exact hl ((h.hasThread p t r hr (hid ▸ hu) hl'.belongs).mp hl')
  | freeingFibers p fs b hfs =>
    refine .freeingFibers p fs b fun f hf => h.hasFiber p f (hhand p ?_).2 (hfs f hf)
    rw [(Pc.run_freeFibers fs _).1]
    rfl
  | deleted p hout => exact .deleted p fun hin => hout (h.processes p (hhand p rfl).1 hin)

end Untouched

namespace Life

variable {E : Env} {g v : PidT} {k' : Kernel} {roll roll' : Ptr → Finset Ptr}
  {given : PidT → PidT → Prop} {s : Conf} {pc' : Pc}

/-- A step of thread `v`, from what it does to the records and to its own place. -/
theorem step (h : Life E g s roll given) (hc : Counts E g k' roll')
    (hframe : Untouched g v (s.pc v).making s.st roll k' roll')
    (hrec : ∀ p, pc'.record = some p → k'.belongs g p)
    (hkept : ∀ u p, u ≠ v → (s.pc u).record = some p → k'.belongs g p)
    (htorn : ∀ p, k'.belongs g p → p ∈ k'.processes ∨ pc'.tearsDown = some p ∨
      s.st.belongs g p ∧ p ∉ s.st.processes ∧ (s.pc v).tearsDown ≠ some p)
    (hempty : ∀ p, pc'.tearsDown = some p → roll' p = ∅)
    (hroll : ∀ u p, u ≠ v → (s.pc u).tearsDown = some p → roll' p ⊆ roll p)
    (howner : ∀ p t, k'.hasThread g p t → k'.threadKey t = some v →
      t ∈ roll' p ∨ pc'.leaves = some t)
    (hmade : ∀ f, pc'.making = some f → ((k'.fiber f).isSome ∧ ∀ p, ¬ k'.hasFiber g p f) ∧
      ((s.pc v).making = some f ∨ s.st.fiber f = none))
    (hheld : ∀ id, given v id → s.st.hasId g roll v id → k'.hasId g roll' v id)
    (hstage : Stage g k' roll' v pc') : Life E g (s.goto v k' pc') roll' given := by
  have hown : ∀ x, (s.pc v).making = some x → ∀ y, ¬ s.st.hasFiber g y x := fun x hx =>
    (h.made v x hx).2
  have hother : ∀ u x, u ≠ v → (s.pc u).making = some x → (s.pc v).making ≠ some x :=
    fun u x hu hx hv => hu (h.alone u v x hx hv)
  have hmake : ∀ u x, u ≠ v → (s.pc u).making = some x →
      (k'.fiber x).isSome ∧ ∀ p, ¬ k'.hasFiber g p x := by
    intro u x hu hx
    obtain ⟨hsome, hoff⟩ := h.made u x hx
    have hkey := hframe.fiberKey x (hother u x hu hx) hsome fun y hy => absurd hy (hoff y)
    constructor
    · refine isSome_of_key hkey.symm ?_
      exact hsome
    · intro p hp
      obtain hp | hp := hframe.newFiber p x hp
      · exact hoff p hp
      · exact hother u x hu hx hp
  refine ⟨⟨?_, ?_, ?_, ?_, ?_, ?_, ?_, ?_⟩, hc⟩
  · intro u p hp
    rw [Conf.goto_pc] at hp
    split_ifs at hp with hu
    · exact hrec p hp
    · exact hkept u p hu hp
  · intro p hp
    obtain hin | ht | ⟨hold, hout, hne⟩ := htorn p hp
    · exact .inl hin
    · exact .inr ⟨v, by simpa using ht⟩
    · obtain hin | ⟨u, hu⟩ := h.torn p hold
      · exact absurd hin hout
      · refine .inr ⟨u, ?_⟩
        rw [Conf.goto_pc, if_neg]
        · exact hu
        · rintro rfl
          exact hne hu
  · intro u p hp
    rw [Conf.goto_pc] at hp
    split_ifs at hp with hu
    · exact hempty p hp
    · exact Finset.subset_empty.mp (h.empty u p hp ▸ hroll u p hu hp)
  · intro p t u ht hkey
    rw [Conf.goto_pc]
    split_ifs with hu
    · subst hu
      exact howner p t ht hkey
    · obtain ⟨r, hr, rfl⟩ := Option.map_eq_some_iff.mp hkey
      have hold := (hframe.thread t r hu).mp hr
      have hkey' : s.st.threadKey t = some r.threadId := by
        rw [Kernel.threadKey, hold]
        rfl
      obtain hin | hl := h.owner p t _ ((hframe.hasThread p t r hold hu ht.belongs).mp ht) hkey'
      · exact .inl ((hframe.counted p t r hold hu).mpr hin)
      · exact .inr hl
  · intro u f hf
    rw [Conf.goto_pc] at hf
    split_ifs at hf with hu
    · exact (hmade f hf).1
    · exact hmake u f hu hf
  · -- a fiber in the making is the thread's own or new
    have hne : ∀ u f, u ≠ v → (s.pc u).making = some f → pc'.making ≠ some f := by
      intro u f hu hf hv
      obtain hv | hv := (hmade f hv).2
      · exact hother u f hu hf hv
      · have hsome := (h.made u f hf).1
        rw [hv] at hsome
        cases hsome
    intro u w f hf hf'
    rw [Conf.goto_pc] at hf hf'
    split_ifs at hf hf' with hu hw hw
    · exact hu.trans hw.symm
    · exact absurd hf (hne w f hw hf')
    · exact absurd hf' (hne u f hu hf)
    · exact h.alone u w f hf hf'
  · intro u
    rw [Conf.goto_pc]
    split_ifs with hu
    · subst hu
      exact hstage
    · refine hframe.stage h.counts hc hown hu (fun x hx => ⟨h.inHand u x hx, hkept u x hu hx⟩) ?_
        (h.stage u)
      exact fun x hx => ⟨hother u x hu hx, (h.made u x hx).1, (h.made u x hx).2⟩
  · intro u id hid
    by_cases hu : u = v
    · subst hu
      exact hheld id hid (h.held u id hid)
    · exact hframe.hasId h.counts hc hown hu (h.held u id hid)

end Life

/-! ## Steps that leave the tables alone -/

/-- A process record without its `last_fiber_id`. -/
def Process.body (q : Process) : Process := { q with lastFiberId := 0 }

/-- The tables, the process records but for `last_fiber_id` and the keys and parents of
    the thread records are the same. -/
structure SameTables (k k' : Kernel) : Prop where
  processes : k'.processes = k.processes
  process : ∀ p, (k'.process p).map Process.body = (k.process p).map Process.body
  thread : ∀ t r, k.thread t = some r →
    ∃ r', k'.thread t = some r' ∧ r'.threadId = r.threadId ∧ r'.parent = r.parent

namespace SameTables

variable {E : Env} {g : PidT} {k k' : Kernel} {roll : Ptr → Finset Ptr} {p t f : Ptr}
  {q q' : Process}

theorem refl (k : Kernel) : SameTables k k := ⟨rfl, fun _ => rfl, fun _ r hr => ⟨r, hr, rfl, rfl⟩⟩

theorem of_process (h : k'.process = k.process) (hps : k'.processes = k.processes)
    (ht : ∀ t r, k.thread t = some r →
      ∃ r', k'.thread t = some r' ∧ r'.threadId = r.threadId ∧ r'.parent = r.parent) :
    SameTables k k' := ⟨hps, fun p => by rw [h], ht⟩

theorem exists_body (h : SameTables k k') (hq : k'.process p = some q') :
    ∃ q, k.process p = some q ∧ q'.body = q.body := by
  have hp := h.process p
  rw [hq, Option.map_some, eq_comm, Option.map_eq_some_iff] at hp
  obtain ⟨q, hq', heq⟩ := hp
  exact ⟨q, hq', heq.symm⟩

theorem processId_eq (h : q'.body = q.body) : q'.processId = q.processId := congrArg (·.processId) h
theorem threads_eq (h : q'.body = q.body) : q'.threads = q.threads := congrArg (·.threads) h
theorem fibers_eq (h : q'.body = q.body) : q'.fibers = q.fibers := congrArg (·.fibers) h

theorem activeThreads_eq (h : q'.body = q.body) : q'.activeThreads = q.activeThreads :=
  congrArg (·.activeThreads) h

theorem processKey_eq (h : SameTables k k') (p : Ptr) : k'.processKey p = k.processKey p := by
  have hp := congrArg (Option.map Process.processId) (h.process p)
  rw [Option.map_map, Option.map_map] at hp
  exact hp

theorem threadKey_eq (h : SameTables k k') (ht : (k.thread t).isSome) :
    k'.threadKey t = k.threadKey t := by
  obtain ⟨r, hr⟩ := Option.isSome_iff_exists.mp ht
  obtain ⟨r', hr', hid, -⟩ := h.thread t r hr
  rw [Kernel.threadKey, Kernel.threadKey, hr, hr', Option.map_some, hid, Option.map_some]

theorem body_iff (h : SameTables k k') {P : Process → Prop}
    (hP : ∀ a b : Process, a.body = b.body → P a → P b) :
    (∃ q, k'.process p = some q ∧ P q) ↔ ∃ q, k.process p = some q ∧ P q := by
  constructor
  · rintro ⟨q', hq', hp⟩
    obtain ⟨q, hq, heq⟩ := h.exists_body hq'
    exact ⟨q, hq, hP _ _ heq hp⟩
  · rintro ⟨q, hq, hp⟩
    have hmap := h.process p
    rw [hq, Option.map_some, Option.map_eq_some_iff] at hmap
    obtain ⟨q', hq', heq⟩ := hmap
    exact ⟨q', hq', hP _ _ heq.symm hp⟩

theorem belongs_iff (h : SameTables k k') : k'.belongs g p ↔ k.belongs g p :=
  h.body_iff fun _ _ heq hg => (processId_eq heq) ▸ hg

theorem hasThread_iff (h : SameTables k k') : k'.hasThread g p t ↔ k.hasThread g p t :=
  h.body_iff fun _ _ heq hg => ⟨(processId_eq heq) ▸ hg.1, (threads_eq heq) ▸ hg.2⟩

theorem hasFiber_iff (h : SameTables k k') : k'.hasFiber g p f ↔ k.hasFiber g p f :=
  h.body_iff fun _ _ heq hg => ⟨(processId_eq heq) ▸ hg.1, (fibers_eq heq) ▸ hg.2⟩

end SameTables

theorem CountOk.thread_isSome {E : Env} {k : Kernel} {p t : Ptr} {q : Process} {ms : Finset Ptr}
    (h : CountOk E k p q ms) (ht : t ∈ q.threads) : (k.thread t).isSome := by
  have hkey := h.threadsWF.key_isSome ht
  rwa [Kernel.threadKey, Option.isSome_map] at hkey

theorem CountOk.congr {E : Env} {k k' : Kernel} {p : Ptr} {q : Process} {ms : Finset Ptr}
    (h : CountOk E k p q ms) (ht : ∀ t ∈ q.threads, ∀ r, k.thread t = some r →
      ∃ r', k'.thread t = some r' ∧ r'.threadId = r.threadId ∧ r'.parent = r.parent) :
    CountOk E k' p q ms := by
  have hkey : ∀ t ∈ q.threads, k'.threadKey t = k.threadKey t := by
    intro t hin
    obtain ⟨r, hr⟩ := Option.isSome_iff_exists.mp (h.thread_isSome hin)
    obtain ⟨r', hr', hid, -⟩ := ht t hin r hr
    rw [Kernel.threadKey, Kernel.threadKey, hr, hr', Option.map_some, hid, Option.map_some]
  refine ⟨h.threadsWF.congr hkey, h.threadsInj.congr hkey, ?_, h.count⟩
  intro t hin r' hr'
  obtain ⟨r, hr⟩ := Option.isSome_iff_exists.mp (h.thread_isSome hin)
  obtain ⟨r'', hr'', -, hpar⟩ := ht t hin r hr
  obtain rfl := Option.some.inj (hr'.symm.trans hr'')
  exact hpar.trans (h.parent t hin r hr)

theorem CountOk.of_body {E : Env} {k : Kernel} {p : Ptr} {q q' : Process} {ms : Finset Ptr}
    (h : CountOk E k p q ms) (heq : q'.body = q.body) : CountOk E k p q' ms := by
  have hth := SameTables.threads_eq heq
  exact ⟨hth ▸ h.threadsWF, hth ▸ h.threadsInj, hth ▸ h.parent,
    (SameTables.activeThreads_eq heq).trans h.count⟩

theorem Counts.same {E : Env} {g : PidT} {k k' : Kernel} {roll : Ptr → Finset Ptr}
    (hc : Counts E g k roll) (h : SameTables k k') (hbrk : ∀ g, k.brk g ≤ k'.brk g)
    (hft : ∀ x, (k'.thread x).isSome → (k.thread x).isSome ∨ x.serial < k'.brk x.tgid)
    (hff : ∀ x, (k'.fiber x).isSome → (k.fiber x).isSome ∨ x.serial < k'.brk x.tgid) :
    Counts E g k' roll := by
  refine ⟨?_, ?_, ?_, ?_, ?_, ?_, ?_, ?_, ?_⟩
  · exact h.processes ▸ hc.processesWF.congr fun p _ => h.processKey_eq p
  · exact h.processes ▸ hc.processesInj.congr fun p _ => h.processKey_eq p
  · intro x hx
    have hp := congrArg Option.isSome (h.process x)
    rw [Option.isSome_map, Option.isSome_map] at hp
    exact (hc.freshProcess x (hp ▸ hx)).trans_le (hbrk _)
  · intro x hx
    obtain hx | hx := hft x hx
    · exact (hc.freshThread x hx).trans_le (hbrk _)
    · exact hx
  · intro x hx
    obtain hx | hx := hff x hx
    · exact (hc.freshFiber x hx).trans_le (hbrk _)
    · exact hx
  · intro p x hx
    exact (hc.freshEntry p x (h.hasFiber_iff.mp hx)).trans_le (hbrk _)
  · intro p q' hq' hg
    obtain ⟨q, hq, heq⟩ := h.exists_body hq'
    have hok := hc.record p q hq ((SameTables.processId_eq heq).symm.trans hg)
    exact (hok.congr fun t _ => h.thread t).of_body heq
  · intro p t ht
    obtain ⟨hp, r, hr, hpar⟩ := hc.enrolled p t ht
    obtain ⟨r', hr', -, hpar'⟩ := h.thread t r hr
    exact ⟨h.belongs_iff.mpr hp, r', hr', hpar'.trans hpar⟩
  · intro p p' f hf hf'
    exact hc.apart p p' f (h.hasFiber_iff.mp hf) (h.hasFiber_iff.mp hf')

namespace SameTables

variable {E : Env} {g u : PidT} {k k' : Kernel} {roll : Ptr → Finset Ptr} {p t f : Ptr}

theorem threadIs (h : SameTables k k') (ht : k.threadIs t u p) : k'.threadIs t u p := by
  obtain ⟨r, hr, rfl, rfl⟩ := ht
  exact h.thread t r hr

theorem member (h : SameTables k k') (hm : Member g k roll u p t) : Member g k' roll u p t :=
  ⟨h.threadIs hm.thread, hm.counted, h.hasThread_iff.mpr hm.listed⟩

theorem lacks (h : SameTables k k') (hc : Counts E g k roll) (habs : k.lacks g p u) :
    k'.lacks g p u := by
  intro t ht
  obtain ⟨q, hq, hg, hin⟩ := h.hasThread_iff.mp ht
  rw [h.threadKey_eq ((hc.record p q hq hg).thread_isSome hin)]
  exact habs t ⟨q, hq, hg, hin⟩

end SameTables

/-- The fresh address is not in use. -/
theorem Counts.nextPtr_fresh {E : Env} {g : PidT} {k : Kernel} {roll : Ptr → Finset Ptr}
    (hc : Counts E g k roll) : k.process (k.nextPtr g) = none ∧ k.thread (k.nextPtr g) = none ∧
    k.fiber (k.nextPtr g) = none ∧ ∀ p, ¬ k.hasFiber g p (k.nextPtr g) := by
  refine ⟨?_, ?_, ?_, ?_⟩
  · by_contra hne
    exact (hc.freshProcess _ (Option.isSome_iff_ne_none.mpr hne)).ne rfl
  · by_contra hne
    exact (hc.freshThread _ (Option.isSome_iff_ne_none.mpr hne)).ne rfl
  · by_contra hne
    exact (hc.freshFiber _ (Option.isSome_iff_ne_none.mpr hne)).ne rfl
  · intro p hp
    exact (hc.freshEntry p _ hp).ne rfl

namespace Life

variable {E : Env} {g v : PidT} {k' : Kernel} {roll : Ptr → Finset Ptr}
  {given : PidT → PidT → Prop} {s : Conf} {pc' : Pc}

/-- A thread that goes on with a teardown leaves no record behind. -/
theorem torn_of_eq {k : Kernel} {a b : Option Ptr} (hps : k'.processes = k.processes)
    (hb : ∀ x, k'.belongs g x → k.belongs g x) (htear : ∀ x, a = some x → b = some x) (x : Ptr)
    (hx : k'.belongs g x) :
    x ∈ k'.processes ∨ b = some x ∨ k.belongs g x ∧ x ∉ k.processes ∧ a ≠ some x := by
  by_cases hin : x ∈ k.processes
  · exact .inl (hps ▸ hin)
  · by_cases ha : a = some x
    · exact .inr (.inl (htear x ha))
    · exact .inr (.inr ⟨hb x hx, hin, ha⟩)

/-- A step that leaves the tables alone. -/
theorem same (h : Life E g s roll given) (hsame : SameTables s.st k')
    (hbrk : ∀ g, s.st.brk g ≤ k'.brk g)
    (hft : ∀ x, (k'.thread x).isSome → (s.st.thread x).isSome ∨ x.serial < k'.brk x.tgid)
    (hff : ∀ x, (k'.fiber x).isSome → (s.st.fiber x).isSome ∨ x.serial < k'.brk x.tgid)
    (hthread : ∀ t r, r.threadId ≠ v → (k'.thread t = some r ↔ s.st.thread t = some r))
    (hkey : ∀ f, (s.pc v).making ≠ some f → (s.st.fiber f).isSome →
      (∀ p, s.st.hasFiber g p f → (roll p).Nonempty) → k'.fiberKey f = s.st.fiberKey f)
    (hrec : ∀ p, pc'.record = some p → (s.pc v).record = some p ∨ s.st.belongs g p)
    (htear : pc'.tearsDown = (s.pc v).tearsDown) (hleaves : pc'.leaves = (s.pc v).leaves)
    (hmade : ∀ f, pc'.making = some f →
      (k'.fiber f).isSome ∧ ((s.pc v).making = some f ∨ f = s.st.nextPtr g))
    (hstage : Stage g k' roll v pc') : Life E g (s.goto v k' pc') roll given := by
  have hc := h.counts.same hsame hbrk hft hff
  obtain ⟨-, -, hfresh, hoff⟩ := h.counts.nextPtr_fresh
  have hframe : Untouched g v (s.pc v).making s.st roll k' roll :=
    ⟨fun _ _ hin => hsame.processes ▸ hin, hthread, fun _ _ _ _ _ => .rfl,
      fun _ _ _ _ _ _ => hsame.hasThread_iff, fun _ _ _ => hsame.hasFiber_iff.mpr,
      fun _ _ hf => .inl (hsame.hasFiber_iff.mp hf), hkey⟩
  refine h.step hc hframe ?_ ?_ ?_ ?_ ?_ ?_ ?_ ?_ hstage
  · intro p hp
    exact hsame.belongs_iff.mpr ((hrec p hp).elim (h.inHand v p) id)
  · exact fun u p _ hp => hsame.belongs_iff.mpr (h.inHand u p hp)
  · exact torn_of_eq hsame.processes (fun _ => hsame.belongs_iff.mp) fun p hp => htear.trans hp
  · exact fun p hp => h.empty v p (htear ▸ hp)
  · exact fun _ _ _ _ => Finset.Subset.refl _
  · intro p t ht hkey
    have hold := hsame.hasThread_iff.mp ht
    obtain ⟨q, hq, hg, hin⟩ := hold
    have hsome := (h.counts.record p q hq hg).thread_isSome hin
    rw [hsame.threadKey_eq hsome] at hkey
    exact hleaves ▸ h.owner p t v ⟨q, hq, hg, hin⟩ hkey
  · intro f hf
    obtain ⟨hsome, hmk | rfl⟩ := hmade f hf
    · exact ⟨⟨hsome, fun p hp => (h.made v f hmk).2 p (hsame.hasFiber_iff.mp hp)⟩, .inl hmk⟩
    · exact ⟨⟨hsome, fun p hp => hoff p (hsame.hasFiber_iff.mp hp)⟩, .inr hfresh⟩
  · rintro id - ⟨p, t, f, hm, hf, hfid⟩
    refine ⟨p, t, f, hsame.member hm, hsame.hasFiber_iff.mpr hf, ?_⟩
    rw [hframe.fiberKey_eq h.counts (fun x hx => (h.made v x hx).2) hm.counted hf (hfid ▸ rfl),
      hfid]

/-- A step that changes no record. -/
theorem quiet {pc : Pc} (h : Life E g s roll given) (hpc : s.pc v = pc)
    (hrec : ∀ p, pc'.record = some p → pc.record = some p ∨ s.st.belongs g p)
    (htear : pc'.tearsDown = pc.tearsDown) (hleaves : pc'.leaves = pc.leaves)
    (hmade : pc'.making = none) (hstage : Stage g s.st roll v pc') :
    Life E g (s.goto v s.st pc') roll given := by
  subst hpc
  refine h.same (.refl _) (fun _ => le_rfl) (fun _ => .inl) (fun _ => .inl) (fun _ _ _ => .rfl)
    (fun _ _ _ _ => rfl) hrec htear hleaves ?_ hstage
  intro f hf
  rw [hmade] at hf
  cases hf

end Life

/-! ## Writes to fibers and thread records -/

section Writes

variable {E : Env} {g v : PidT} {k' : Kernel} {roll : Ptr → Finset Ptr}
  {given : PidT → PidT → Prop} {s : Conf} {pc' next : Pc}
  {f t p : Ptr} {st : Stmt} {rest : List Stmt}

theorem SameTables.modFiber (k : Kernel) (f : Ptr) (φ : Fiber → Fiber) :
    SameTables k (k.modFiber f φ) :=
  .of_process rfl rfl fun _ r hr => ⟨r, hr, rfl, rfl⟩

theorem SameTables.modThread (k : Kernel) (t : Ptr) (f : Option Ptr) :
    SameTables k (k.modThread t fun r => { r with selectedFiber := f }) := by
  refine .of_process rfl rfl fun x r hr => ?_
  rw [Kernel.modThread_thread]
  split_ifs with hx
  · subst hx
    exact ⟨{ r with selectedFiber := f }, by rw [hr, Option.map_some], rfl, rfl⟩
  · exact ⟨r, hr, rfl, rfl⟩

theorem Kernel.modFiber_isSome (k : Kernel) (f x : Ptr) (φ : Fiber → Fiber) :
    ((k.modFiber f φ).fiber x).isSome = (k.fiber x).isSome := by
  rw [Kernel.modFiber_fiber]
  split_ifs with hx
  · rw [hx, Option.isSome_map]
  · rfl

theorem Kernel.modFiber_fiberKey (k : Kernel) (f x : Ptr) (φ : Fiber → Fiber)
    (hφ : ∀ r, (φ r).fiberId = r.fiberId) : (k.modFiber f φ).fiberKey x = k.fiberKey x := by
  rw [Kernel.fiberKey, Kernel.fiberKey, Kernel.modFiber_fiber]
  split_ifs with hx
  · subst hx
    cases k.fiber x with
    | none => rfl
    | some r => simp [hφ]
  · rfl

theorem SameTables.write {cur : Task} {k : Kernel} (hst : st.isWrite) :
    SameTables k (st.apply E cur k) := by
  cases st with
  | fiber f a => exact .modFiber k f _
  | select t f => exact .modThread k t (some f)
  | _ => cases hst

theorem Stmt.fiberKey_of_isWrite {cur : Task} {k : Kernel} (hst : st.isWrite) (x : Ptr) :
    (st.apply E cur k).fiberKey x = k.fiberKey x := by
  cases st with
  | fiber f a => exact Kernel.modFiber_fiberKey k f x _ fun r => Assign.run_fiberId a _ _ r
  | select t f => rfl
  | _ => cases hst

namespace Life

/-- A step that writes fields of a fiber other than its id. -/
theorem modFiber {pc : Pc} (h : Life E g s roll given) (hpc : s.pc v = pc) {φ : Fiber → Fiber}
    (hφ : ∀ r, (φ r).fiberId = r.fiberId) (hrec : ∀ p, pc'.record = some p → pc.record = some p)
    (htear : pc'.tearsDown = pc.tearsDown) (hleaves : pc'.leaves = pc.leaves)
    (hmade : pc'.making = pc.making) (hstage : Stage g (s.st.modFiber f φ) roll v pc') :
    Life E g (s.goto v (s.st.modFiber f φ) pc') roll given := by
  subst hpc
  refine h.same (.modFiber _ _ _) (fun _ => le_rfl) (fun _ => .inl) (fun x hx => .inl ?_)
    (fun _ _ _ => .rfl) (fun x _ _ _ => Kernel.modFiber_fiberKey _ _ _ _ hφ)
    (fun p hp => .inl (hrec p hp)) htear hleaves ?_ hstage
  · rwa [Kernel.modFiber_isSome] at hx
  · intro x hx
    rw [hmade] at hx
    refine ⟨?_, .inl hx⟩
    rw [Kernel.modFiber_isSome]
    exact (h.made v x hx).1

/-- A thread writes to its own record. -/
theorem select (h : Life E g s roll given) (hown : s.st.threadIs t v p)
    (hrec : ∀ p, pc'.record = some p → (s.pc v).record = some p)
    (htear : pc'.tearsDown = (s.pc v).tearsDown) (hleaves : pc'.leaves = (s.pc v).leaves)
    (hmade : pc'.making = (s.pc v).making)
    (hstage : Stage g (s.st.modThread t fun r => { r with selectedFiber := some f }) roll v pc') :
    Life E g (s.goto v (s.st.modThread t fun r => { r with selectedFiber := some f }) pc')
      roll given := by
  refine h.same (.modThread _ _ _) (fun _ => le_rfl) (fun x hx => .inl ?_) (fun _ => .inl) ?_
    (fun _ _ _ _ => rfl) (fun p hp => .inl (hrec p hp)) htear hleaves ?_ hstage
  · rw [Kernel.modThread_thread] at hx
    split_ifs at hx with hxt
    · rwa [Option.isSome_map, ← hxt] at hx
    · exact hx
  · obtain ⟨r₀, hr₀, hid, -⟩ := hown
    intro x r hr
    rw [Kernel.modThread_thread]
    split_ifs with hx
    · subst hx
      rw [hr₀]
      constructor
      · rintro ⟨⟩
        exact absurd hid hr
      · rintro ⟨⟩
        exact absurd hid hr
    · exact .rfl
  · intro x hx
    rw [hmade] at hx
    exact ⟨(h.made v x hx).1, .inl hx⟩

/-- A write at the head of a list does not show in a place. -/
theorem run_write (hst : st.isWrite) :
    (Pc.run (st :: rest) next).record = (Pc.run rest next).record ∧
    (Pc.run (st :: rest) next).tearsDown = (Pc.run rest next).tearsDown ∧
    (Pc.run (st :: rest) next).leaves = (Pc.run rest next).leaves ∧
    (Pc.run (st :: rest) next).making = (Pc.run rest next).making := by
  obtain ⟨h1, h2, h3, h4⟩ := none_of_isWrite hst
  simp only [Pc.record, Pc.tearsDown, Pc.leaves, Pc.making, List.findSome?_cons, h1, h2, h3, h4,
    and_self]

/-- A write at the head of a list is run. -/
theorem write (h : Life E g s roll given) (hst : st.isWrite) (hpc : s.pc v = .run (st :: rest) next)
    (hown : ∀ t x, st = .select t x → ∃ p, s.st.threadIs t v p)
    (hstage : Stage g (st.apply E ⟨g, v⟩ s.st) roll v (.run rest next)) :
    Life E g (s.goto v (st.apply E ⟨g, v⟩ s.st) (.run rest next)) roll given := by
  obtain ⟨h1, h2, h3, h4⟩ :=
    (run_write hst : (Pc.run (st :: rest) next).record = (Pc.run rest next).record ∧ _)
  rw [← hpc] at h1 h2 h3 h4
  cases st with
  | fiber f a =>
    exact h.modFiber rfl (fun r => Assign.run_fiberId a _ _ r) (fun p hp => h1.trans hp) h2.symm
      h3.symm h4.symm hstage
  | select t f =>
    obtain ⟨p, hp⟩ := hown t f rfl
    exact h.select hp (fun p hp => h1.trans hp) h2.symm h3.symm h4.symm hstage
  | _ => cases hst

/-- A thread runs user code. -/
theorem user (h : Life E g s roll given) (hpc : s.pc v = .user) (cpu : Cpu) :
    Life E g (s.goto v (s.st.modCpu ⟨g, v⟩ fun _ => cpu) .user) roll given := by
  have hsame : SameTables s.st (s.st.modCpu ⟨g, v⟩ fun _ => cpu) :=
    .of_process rfl rfl fun _ r hr => ⟨r, hr, rfl, rfl⟩
  refine h.same hsame (fun _ => le_rfl) (fun _ => .inl) (fun _ => .inl) (fun _ _ _ => .rfl)
    (fun _ _ _ _ => rfl) ?_ ?_ ?_ ?_ (.plain .user)
  · rintro p ⟨⟩
  · rw [hpc]
  · rw [hpc]
  · rintro f ⟨⟩

end Life

end Writes

/-! ## Allocations -/

section Allocated

variable {g : PidT} {k k' : Kernel} (hbrk : k'.brk = Function.update k.brk g (k.brk g + 1))

include hbrk

theorem brk_le (x : PidT) : k.brk x ≤ k'.brk x := by
  rw [hbrk, Function.update_apply]
  split_ifs with hx
  · rw [hx]
    exact Nat.le_succ _
  · exact le_rfl

theorem nextPtr_lt : (k.nextPtr g).serial < k'.brk (k.nextPtr g).tgid := by
  rw [hbrk]
  show k.brk g < Function.update k.brk g (k.brk g + 1) g
  rw [Function.update_self]
  exact Nat.lt_succ_self _

end Allocated

namespace Life

variable {E : Env} {g v : PidT} {k' : Kernel} {roll : Ptr → Finset Ptr}
  {given : PidT → PidT → Prop} {s : Conf} {pc' : Pc} {f t p : Ptr}

/-- A thread allocates its record. -/
theorem newThread (h : Life E g s roll given) (hpc : s.pc v = .newThread p)
    (habs : s.st.lacks g p v)
    (halloc : allocThread ⟨g, v⟩ p v s.st = some (t, k')) :
    Life E g (s.goto v k' (.run [incActive p, addThread p t] (.newFiber p (.convert t))))
      roll given := by
  obtain ⟨rfl, hk⟩ := allocThread_eq_some halloc
  obtain ⟨-, hfresh, -, -⟩ := h.counts.nextPtr_fresh
  have hbrk : k'.brk = Function.update s.st.brk g (s.st.brk g + 1) := by rw [hk]
  have hthread : ∀ x, k'.thread x =
      if x = s.st.nextPtr g then some ⟨v, p, none⟩ else s.st.thread x := by
    intro x
    rw [hk]
    exact Function.update_apply ..
  have hold : ∀ x r, s.st.thread x = some r → x ≠ s.st.nextPtr g := by
    rintro x r hr rfl
    rw [hfresh] at hr
    cases hr
  have hsame : SameTables s.st k' := by
    refine .of_process (by rw [hk]) (by rw [hk]) fun x r hr => ⟨r, ?_, rfl, rfl⟩
    rw [hthread, if_neg (hold x r hr), hr]
  refine h.same hsame (brk_le hbrk) ?_ (fun x hx => .inl (by rwa [hk] at hx)) ?_ ?_ ?_ ?_ ?_ ?_ ?_
  · intro x hx
    rw [hthread] at hx
    split_ifs at hx with hxt
    · exact .inr (hxt ▸ nextPtr_lt hbrk)
    · exact .inl hx
  · intro x r hr
    rw [hthread]
    split_ifs with hx
    · rw [hx, hfresh]
      constructor
      · rintro ⟨⟩
        exact absurd rfl hr
      · rintro ⟨⟩
    · exact .rfl
  · intro x _ _ _
    rw [hk]
    rfl
  · intro x hx
    rw [hpc]
    exact .inl hx
  · rw [hpc]
    rfl
  · rw [hpc]
    rfl
  · rintro x ⟨⟩
  · refine .counting p _ (hsame.lacks h.counts habs) ⟨⟨v, p, none⟩, ?_, rfl, rfl⟩ ?_
    · exact (hthread _).trans (if_pos rfl)
    · intro hin
      obtain ⟨-, r, hr, -⟩ := h.counts.enrolled p _ hin
      exact hold _ r hr rfl

/-- A thread allocates a fiber. -/
theorem newFiber {n : ℤ} {w : Word} (h : Life E g s roll given)
    (hpc : s.pc v = .newFiber p (.convert t))
    (hm : Member g s.st roll v p t) (halloc : allocFiber E ⟨g, v⟩ p n w s.st = some (f, k')) :
    Life E g (s.goto v k' (.takeId p f (.convert t))) roll given := by
  obtain ⟨rfl, hk⟩ := allocFiber_eq_some halloc
  obtain ⟨-, -, hfresh, -⟩ := h.counts.nextPtr_fresh
  have hbrk : k'.brk = Function.update s.st.brk g (s.st.brk g + 1) := by rw [hk]
  have hfiber : ∀ x, k'.fiber x = if x = s.st.nextPtr g then
      some (freshFiber E (s.st.nextPtr g) (s.st.cpu ⟨g, v⟩) p n w) else s.st.fiber x := by
    intro x
    rw [hk]
    exact Function.update_apply ..
  have hsame : SameTables s.st k' :=
    .of_process (by rw [hk]) (by rw [hk]) fun x r hr => ⟨r, by rwa [hk], rfl, rfl⟩
  refine h.same hsame (brk_le hbrk) (fun x hx => .inl (by rwa [hk] at hx)) ?_ ?_ ?_ ?_ ?_ ?_ ?_
    (.takeId p _ _ (hsame.member hm))
  · intro x hx
    rw [hfiber] at hx
    split_ifs at hx with hxt
    · exact .inr (hxt ▸ nextPtr_lt hbrk)
    · exact .inl hx
  · intro x r _
    rw [hk]
  · intro x _ hx _
    rw [Kernel.fiberKey, hfiber, if_neg]
    · rfl
    · rintro rfl
      rw [hfresh] at hx
      cases hx
  · intro x hx
    rw [hpc]
    exact .inl hx
  · rw [hpc]
    rfl
  · rw [hpc]
    rfl
  · intro x hx
    obtain rfl : s.st.nextPtr g = x := Option.some.inj hx
    refine ⟨?_, .inr rfl⟩
    rw [hfiber, if_pos rfl]
    rfl

/-- The new fiber gets its id. -/
theorem takeId (h : Life E g s roll given) (hpc : s.pc v = .takeId p f (.convert t))
    (hm : Member g s.st roll v p t) (hid : takeFiberId p f s.st = some ((), k')) :
    Life E g (s.goto v k' (.run (initFiberTail p f ++ convertTail t f) (.lockNew t f)))
      roll given := by
  obtain ⟨q, hq, -⟩ := hm.listed
  obtain rfl := takeFiberId_eq_some hq hid
  have hmaking : (s.pc v).making = some f := by
    rw [hpc]
    rfl
  have hsome := (h.made v f hmaking).1
  set k₁ := s.st.modProcess p fun r => { r with lastFiberId := r.lastFiberId + 1 } with hk₁
  have hsame : SameTables s.st (k₁.modFiber f fun r => { r with fiberId := q.nextId }) := by
    refine ⟨rfl, fun x => ?_, fun x r hr => ⟨r, hr, rfl, rfl⟩⟩
    rw [Kernel.modFiber_process, hk₁, Kernel.modProcess_process]
    split_ifs with hx
    · rw [hx, Option.map_map]
      rfl
    · rfl
  have hfiber : ∀ x, ((k₁.modFiber f fun r => { r with fiberId := q.nextId }).fiber x).isSome =
      (s.st.fiber x).isSome := fun x => Kernel.modFiber_isSome k₁ f x _
  refine h.same hsame (fun _ => le_rfl) (fun _ => .inl) (fun x hx => .inl (hfiber x ▸ hx))
    (fun _ _ _ => .rfl) ?_ ?_ ?_ ?_ ?_ (.listing p t f (hsame.member hm) ?_)
  · intro x hx _ _
    rw [Kernel.fiberKey, Kernel.modFiber_fiber, if_neg]
    · rfl
    · rintro rfl
      exact hx hmaking
  · intro x hx
    rw [hpc]
    exact .inl hx
  · rw [hpc]
    rfl
  · rw [hpc]
    rfl
  · intro x hx
    obtain rfl : f = x := Option.some.inj hx
    exact ⟨(hfiber f).trans hsome, .inl hmaking⟩
  · rw [Kernel.fiberKey, Option.isSome_map]
    exact (hfiber f).trans hsome

end Life

end AosvFibers
