import AosvFibers.Lib.FiniteMap
import AosvFibers.Atomic.Ids

/-!
# The tables as maps

Every table of the module is a finite map from ids to records. `Op.changes`
reads off the code which records a call adds to which tables, under which key,
and which it takes out, and `changesOf` are the changes of a whole history to one
table. `MapOp.Held` of these is the map the table has to be.

The tables never refuse a record. That no two records of a table have the same
key is due to the callers: a process and a thread are looked up before they are
added, and a fiber gets the next number of a counter, which comes round after
2^32 fibers.

Result: `tables_are_maps`. The step lemma is `Outcome.tableChange`: at most one
change of a call goes to one table.
-/

namespace AosvFibers

open Lib

variable {E : Env} {cur : Task} {k k' : Kernel} {T T' : Table}

/-! ## Tables and their changes -/

/-- The process table, or one of the two tables of the process record at `pp`. -/
inductive TableName
  | processes
  | threads (pp : Ptr)
  | fibers (pp : Ptr)
  deriving DecidableEq

/-- The table, if the record it belongs to is there. -/
def Kernel.table (k : Kernel) : TableName → Option Table
  | .processes => some k.processes
  | .threads pp => (k.process pp).map Process.threads
  | .fibers pp => (k.process pp).map Process.fibers

/-- The key of a record of the table. -/
def Kernel.keyOf (k : Kernel) : TableName → Ptr → Option PidT
  | .processes => k.processKey
  | .threads _ => k.threadKey
  | .fibers _ => k.fiberKey

/-- The lookup in the table. -/
def TableName.find (E : Env) (key : PidT) : TableName → K (Option Ptr)
  | .processes => findProcessByTgid E key
  | .threads pp => findThreadByPid E key pp
  | .fibers pp => findFiberById E key pp

/-- The process record the calls of `cur` find. -/
def Kernel.own (E : Env) (k : Kernel) (cur : Task) : Option (Ptr × Process) :=
  (k.processOf E cur.tgid).join.bind fun ep => (k.process ep).map (ep, ·)

/-- The process record and the thread record the calls of `cur` find. -/
def Kernel.ownThread (E : Env) (k : Kernel) (cur : Task) : Option (Ptr × Process × Ptr) :=
  (k.own E cur).bind fun (ep, p) => (k.threadOf E p cur.pid).join.map (ep, p, ·)

/-- A change together with the table it is made to. -/
abbrev Change := TableName × MapOp PidT Ptr

/-- `init_thread` adds the record it allocates and then `init_fiber` adds its own. -/
def converting (cur : Task) (ep : Ptr) (serial : ℕ) (id : PidT) : List Change :=
  [(.threads ep, .insert cur.pid ⟨cur.tgid, serial⟩), (.fibers ep, .insert id ⟨cur.tgid, serial + 1⟩)]

/-- The `hash_add_rcu` and `hash_del_rcu` of a call, in the order of the code. -/
def Op.changes (E : Env) (k : Kernel) : Op → List Change
  | .call cur .convert =>
    match k.own E cur, k.ownThread E cur with
    | none, _ =>
      (.processes, .insert cur.tgid (k.nextPtr cur.tgid)) ::
        converting cur (k.nextPtr cur.tgid) (k.brk cur.tgid + 1) 1
    | some (ep, p), none => converting cur ep (k.brk cur.tgid) p.nextId
    | some _, some _ => []
  | .call cur (.create _ _ _ _) =>
    match k.ownThread E cur with
    | some (ep, p, _) => [(.fibers ep, .insert p.nextId (k.nextPtr cur.tgid))]
    | none => []
  | .call cur .exit =>
    match k.ownThread E cur with
    | some (ep, p, tp) =>
      (.threads ep, .delete tp) :: if p.activeThreads - 1 = 0 then [(.processes, .delete ep)] else []
    | none => []
  | .release cur =>
    match k.own E cur with
    | some (ep, _) => [(.processes, .delete ep)]
    | none => []
  | _ => []

example (cpu : Cpu) : (Op.user cur cpu).changes E k = [] := by simp [Op.changes]

/-- Those of some changes that are made to one table. -/
def changesTo (tbl : TableName) (cs : List Change) : List (MapOp PidT Ptr) :=
  cs.filterMap fun c => if c.1 = tbl then some c.2 else none

/-- The changes a history made to one table. -/
def changesOf (E : Env) (tbl : TableName) (es : List Event) : List (MapOp PidT Ptr) :=
  es.flatMap fun e => changesTo tbl (e.op.changes E e.pre)

theorem changesOf_snoc (tbl : TableName) (es : List Event) (e : Event) :
    changesOf E tbl (es ++ [e]) = changesOf E tbl es ++ changesTo tbl (e.op.changes E e.pre) := by
  unfold changesOf
  rw [List.flatMap_append, List.flatMap_singleton]

/-! ## What a caller finds -/

theorem Kernel.own_none (h : k.processOf E cur.tgid = some none) : k.own E cur = none := by
  simp [Kernel.own, h]

theorem Kernel.own_some {ep : Ptr} {p : Process} (h : k.processOf E cur.tgid = some (some ep))
    (hp : k.process ep = some p) : k.own E cur = some (ep, p) := by
  simp [Kernel.own, h, hp]

theorem NotConverted.ownThread_eq (h : NotConverted E k cur) : k.ownThread E cur = none := by
  unfold Kernel.ownThread
  rcases h with h | ⟨ep, p, hep, hp, ht⟩
  · rw [Kernel.own_none h]
    rfl
  · rw [Kernel.own_some hep hp]
    simp [ht]

theorem Caller.own_eq {ep tp : Ptr} {p : Process} {t : Thread} (h : Caller E k cur ep p tp t) :
    k.own E cur = some (ep, p) :=
  Kernel.own_some h.process h.process_eq

theorem Caller.ownThread_eq {ep tp : Ptr} {p : Process} {t : Thread} (h : Caller E k cur ep p tp t) :
    k.ownThread E cur = some (ep, p, tp) := by
  unfold Kernel.ownThread
  rw [h.own_eq]
  simp [h.thread]

/-! ## What a step does to one table -/

theorem Kernel.table_threads {pp : Ptr} {p : Process} (h : k.process pp = some p) :
    k.table (.threads pp) = some p.threads := by
  rw [Kernel.table, h, Option.map_some]

theorem Kernel.table_fibers {pp : Ptr} {p : Process} (h : k.process pp = some p) :
    k.table (.fibers pp) = some p.fibers := by
  rw [Kernel.table, h, Option.map_some]

/-- What the changes a step makes to a table leave of it. A fibers table never
    loses a fiber. -/
inductive TableChange (E : Env) (k' : Kernel) (tbl : TableName) (T T' : Table) :
    List (MapOp PidT Ptr) → Prop
  | kept (hT : T' = T) : TableChange E k' tbl T T' []
  | inserted (key : PidT) (x : Ptr) (hT : T' = T.add (E.hash key) x)
      (hkey : k'.keyOf tbl x = some key) : TableChange E k' tbl T T' [.insert key x]
  | deleted (x : Ptr) (hT : T' = T.del x) (htbl : ∀ pp, tbl ≠ .fibers pp) :
      TableChange E k' tbl T T' [.delete x]

section Changes

variable {ep tp : Ptr} {p : Process} {t : Thread} {c : Call}

theorem Op.changes_refused (h : NotConverted E k cur) (hc : c ≠ .convert) :
    (Op.call cur c).changes E k = [] := by
  cases c <;> simp_all [Op.changes, h.ownThread_eq]

theorem Op.changes_again (h : Caller E k cur ep p tp t) :
    (Op.call cur .convert).changes E k = [] := by
  simp [Op.changes, h.own_eq, h.ownThread_eq]

theorem Op.changes_convertedFirst (h : k.processOf E cur.tgid = some none) :
    (Op.call cur .convert).changes E k =
      (.processes, .insert cur.tgid (k.nextPtr cur.tgid)) ::
        converting cur (k.nextPtr cur.tgid) (k.brk cur.tgid + 1) 1 := by
  simp [Op.changes, Kernel.own_none h]

theorem Op.changes_converted (h : k.processOf E cur.tgid = some (some ep))
    (hp : k.process ep = some p) (ht : k.threadOf E p cur.pid = some none) :
    (Op.call cur .convert).changes E k = converting cur ep (k.brk cur.tgid) p.nextId := by
  have hn : NotConverted E k cur := .inr ⟨ep, p, h, hp, ht⟩
  simp [Op.changes, Kernel.own_some h hp, hn.ownThread_eq]

theorem Op.changes_created (h : Caller E k cur ep p tp t) (sp sz fn arg : Word) :
    (Op.call cur (.create sp sz fn arg)).changes E k =
      [(.fibers ep, .insert p.nextId (k.nextPtr cur.tgid))] := by
  simp [Op.changes, h.ownThread_eq]

theorem Op.changes_exit (h : Caller E k cur ep p tp t) :
    (Op.call cur .exit).changes E k =
      (.threads ep, .delete tp) ::
        if p.activeThreads - 1 = 0 then [(.processes, .delete ep)] else [] := by
  simp [Op.changes, h.ownThread_eq]

theorem Op.changes_fls (hc : c.isFls) : (Op.call cur c).changes E k = [] := by
  cases c with
  | flsAlloc | flsFree | flsGetValue | flsSetValue => rfl
  | _ => cases hc

theorem Op.changes_release (h : k.own E cur = some (ep, p)) :
    (Op.release cur).changes E k = [(.processes, .delete ep)] := by
  simp [Op.changes, h]

end Changes

/-- A conversion adds a thread and a fiber to the tables of its record. -/
theorem tableChange_converted {tbl : TableName} {ep : Ptr} {p : Process} (hp : k.process ep = some p)
    (hT : (k.converted E cur ep p).table tbl = some T') :
    TableChange E (k.converted E cur ep p) tbl ((k.table tbl).getD .empty) T'
      (changesTo tbl (converting cur ep (k.brk cur.tgid) p.nextId)) := by
  have hother : (k.converted E cur ep p).table tbl = k.table tbl →
      changesTo tbl (converting cur ep (k.brk cur.tgid) p.nextId) = [] →
      TableChange E (k.converted E cur ep p) tbl ((k.table tbl).getD .empty) T'
        (changesTo tbl (converting cur ep (k.brk cur.tgid) p.nextId)) := by
    intro hsame hnone
    rw [hnone, ← hsame, hT]
    exact .kept rfl
  have hp' : (k.converted E cur ep p).process ep =
      some ((p.withThread E cur.pid (k.nextPtr cur.tgid)).withFiber E ⟨cur.tgid, k.brk cur.tgid + 1⟩) :=
    Function.update_self ..
  cases tbl with
  | processes => exact hother rfl rfl
  | threads pp =>
    by_cases hpp : pp = ep
    · subst hpp
      have hto : changesTo (.threads pp) (converting cur pp (k.brk cur.tgid) p.nextId) =
          [.insert cur.pid ⟨cur.tgid, k.brk cur.tgid⟩] := by
        simp [changesTo, converting]
      rw [Kernel.table_threads hp'] at hT
      rw [hto, Kernel.table_threads hp, ← Option.some.inj hT]
      refine .inserted _ _ rfl ?_
      simp [Kernel.keyOf, Kernel.threadKey, Kernel.converted, Kernel.nextPtr]
    · refine hother ?_ ?_
      · simp [Kernel.table, Kernel.converted, hpp]
      · simp [changesTo, converting, Ne.symm hpp]
  | fibers pp =>
    by_cases hpp : pp = ep
    · subst hpp
      have hto : changesTo (.fibers pp) (converting cur pp (k.brk cur.tgid) p.nextId) =
          [.insert p.nextId ⟨cur.tgid, k.brk cur.tgid + 1⟩] := by
        simp [changesTo, converting]
      rw [Kernel.table_fibers hp'] at hT
      rw [hto, Kernel.table_fibers hp, ← Option.some.inj hT]
      refine .inserted _ _ rfl ?_
      simp [Kernel.keyOf, Kernel.fiberKey, Kernel.converted, convertedFiber, initializedFiber]
    · refine hother ?_ ?_
      · simp [Kernel.table, Kernel.converted, hpp]
      · simp [changesTo, converting, Ne.symm hpp]

/-- Tearing a process down takes its record out of the process table; the tables
    of the record are gone. -/
theorem tableChange_toreDown {tbl : TableName} {ep : Ptr} {ts fs : List Ptr} {cs : List Change}
    (hT : (k.toreDown ep ts fs).table tbl = some T')
    (hcs : changesTo .processes cs = [.delete ep])
    (hother : ∀ tbl, tbl ≠ .processes → tbl ≠ .threads ep → changesTo tbl cs = []) :
    TableChange E (k.toreDown ep ts fs) tbl ((k.table tbl).getD .empty) T' (changesTo tbl cs) := by
  cases tbl with
  | processes =>
    rw [hcs]
    exact .deleted _ (Option.some.inj hT).symm (by simp)
  | threads pp | fibers pp =>
    have hpp : pp ≠ ep := by
      rintro rfl
      simp [Kernel.table, Kernel.toreDown] at hT
    rw [hother _ (by simp) (by simp [hpp])]
    refine .kept ?_
    simp only [Kernel.table, Kernel.toreDown, Function.update_of_ne hpp] at hT ⊢
    rw [hT]
    rfl

theorem Outcome.tableChange {op : Op} {res : ℤ} {tbl : TableName} (hk : Inv E k)
    (h : Outcome E k op res k') (hT : k'.table tbl = some T') :
    TableChange E k' tbl ((k.table tbl).getD .empty) T' (changesTo tbl (op.changes E k)) := by
  -- a step that does not touch the table
  have hkept : k'.table tbl = k.table tbl → changesTo tbl (op.changes E k) = [] →
      TableChange E k' tbl ((k.table tbl).getD .empty) T' (changesTo tbl (op.changes E k)) := by
    intro hsame hnone
    rw [hnone, ← hsame, hT]
    exact .kept rfl
  cases h with
  | refused hn hc =>
    refine hkept rfl ?_
    rw [changesTo, Op.changes_refused hn hc, List.filterMap_nil]
  | again hr =>
    refine hkept rfl ?_
    rw [changesTo, Op.changes_again hr.toCaller, List.filterMap_nil]
  | switchMissing | switched | user => exact hkept (by cases tbl <;> rfl) rfl
  | switchBusy => exact hkept (by cases tbl <;> rfl) rfl
  | fls hr hc =>
    refine hkept (by cases tbl <;> rfl) ?_
    rw [Op.changes_fls hc]
    rfl
  | releaseNone hn =>
    refine hkept rfl ?_
    simp [changesTo, Op.changes, Kernel.own_none hn]
  | @convertedFirst cur hn =>
    have hfresh := hk.toShape.fresh_process_none (x := k.nextPtr cur.tgid) le_rfl
    rw [Op.changes_convertedFirst hn]
    cases tbl with
    | processes =>
      obtain rfl := Option.some.inj hT
      refine .inserted cur.tgid (k.nextPtr cur.tgid) rfl ?_
      simp [Kernel.keyOf, Kernel.processKey, Kernel.converted, Process.withFiber, Process.withThread]
    | threads pp | fibers pp =>
      -- the record is new and its tables are empty before
      have hempty : ∀ tbl, tbl ≠ .processes →
          ((k.withProcess E cur).table tbl).getD .empty = (k.table tbl).getD .empty := by
        intro tbl hne
        cases tbl with
        | processes => exact absurd rfl hne
        | threads pp | fibers pp =>
          by_cases hpp : pp = k.nextPtr cur.tgid
          · subst hpp
            simp [Kernel.table, Kernel.withProcess, hfresh]
          · simp [Kernel.table, Kernel.withProcess, hpp]
      rw [← hempty _ (by simp)]
      have := tableChange_converted (by simp [Kernel.withProcess]) hT
      simpa [Kernel.withProcess, Process.nextId, changesTo] using this
  | @converted cur ep p hep hp ht =>
    rw [Op.changes_converted hep hp ht]
    exact tableChange_converted hp hT
  | @created cur ep tp f p t r sp sz fn arg hr =>
    have hcs := Op.changes_created hr.toCaller sp sz fn arg
    cases tbl with
    | processes => 
      refine hkept rfl ?_
      rw [hcs]
      rfl
    | threads pp =>
      refine hkept ?_ ?_
      · by_cases hpp : pp = ep
        · subst hpp
          simp [Kernel.table, Kernel.created, Kernel.withFiber, Process.withFiber, hr.process_eq]
        · simp [Kernel.table, Kernel.created, Kernel.withFiber, hpp]
      · rw [hcs]
        rfl
    | fibers pp =>
      by_cases hpp : pp = ep
      · subst hpp
        have hto : changesTo (.fibers pp) ((Op.call cur (.create sp sz fn arg)).changes E k) =
            [.insert p.nextId (k.nextPtr cur.tgid)] := by
          simp [changesTo, hcs]
        rw [hto]
        refine .inserted _ _ ?_ ?_
        · simpa [Kernel.table, Kernel.created, Kernel.withFiber, Process.withFiber, hr.process_eq,
            eq_comm] using hT
        · simp [Kernel.keyOf, Kernel.fiberKey, Kernel.created, Kernel.withFiber, createdFiber,
            initializedFiber]
      · refine hkept ?_ ?_
        · simp [Kernel.table, Kernel.created, Kernel.withFiber, hpp]
        · simp [changesTo, hcs, Ne.symm hpp]
  | @detached cur ep tp f p t r hr hact =>
    have hcs := Op.changes_exit hr.toCaller
    rw [if_neg hact] at hcs
    cases tbl with
    | processes =>
      refine hkept rfl ?_
      rw [hcs]
      rfl
    | threads pp =>
      by_cases hpp : pp = ep
      · subst hpp
        have hto : changesTo (.threads pp) ((Op.call cur .exit).changes E k) = [.delete tp] := by
          simp [changesTo, hcs]
        rw [hto]
        refine .deleted _ ?_ (by simp)
        simpa [Kernel.table, Kernel.detached, hr.process_eq, eq_comm] using hT
      · refine hkept ?_ ?_
        · simp [Kernel.table, Kernel.detached, hpp]
        · simp [changesTo, hcs, Ne.symm hpp]
    | fibers pp =>
      refine hkept ?_ ?_
      · by_cases hpp : pp = ep
        · subst hpp
          simp [Kernel.table, Kernel.detached, hr.process_eq]
        · simp [Kernel.table, Kernel.detached, hpp]
      · rw [hcs]
        rfl
  | @lastExit cur ep tp f p t r hr hact =>
    have hcs := Op.changes_exit hr.toCaller
    rw [if_pos hact] at hcs
    rw [hcs]
    refine tableChange_toreDown hT rfl ?_
    intro tbl hne hne'
    simp [changesTo, Ne.symm hne, Ne.symm hne']
  | @released cur ep p hep hp =>
    rw [Op.changes_release (Kernel.own_some hep hp)]
    refine tableChange_toreDown hT rfl ?_
    intro tbl hne _
    simp [changesTo, Ne.symm hne]

/-! ## Keys -/

/-- A thread record keeps its pid. -/
theorem Outcome.threadKey_eq {op : Op} {res : ℤ} {x : Ptr} (hk : Shape E k)
    (h : Outcome E k op res k') (hx : (k.thread x).isSome) (hx' : (k'.thread x).isSome) :
    k'.threadKey x = k.threadKey x := by
  have hlt := hk.freshThread x hx
  cases h with
  | refused | again | created | switchMissing | switchBusy | fls | releaseNone | user => rfl
  | @convertedFirst cur hn =>
    have hne : x ≠ (k.withProcess E cur).nextPtr cur.tgid := by
      rintro rfl
      simp [Kernel.nextPtr, Kernel.withProcess] at hlt
    simp only [Kernel.threadKey, Kernel.converted, Function.update_of_ne hne]
    rfl
  | @converted cur ep p hep hp ht =>
    have hne : x ≠ k.nextPtr cur.tgid := by
      rintro rfl
      simp [Kernel.nextPtr] at hlt
    simp [Kernel.threadKey, Kernel.converted, hne]
  | @switched cur ep tp f g p t r rg id hr hid hg hl ha hne =>
    by_cases hxt : x = tp
    · subst hxt
      simp [Kernel.threadKey, Kernel.switched, hr.thread_eq]
    · simp [Kernel.threadKey, Kernel.switched, hxt]
  | @detached cur ep tp f p t r hr hact =>
    have hxt : x ≠ tp := by
      rintro rfl
      simp [Kernel.detached] at hx'
    simp [Kernel.threadKey, Kernel.detached, hxt]
  | lastExit hr hact | released hep hp =>
    simp only [Kernel.toreDown] at hx'
    simp only [Kernel.threadKey, Kernel.toreDown]
    split_ifs at hx' ⊢ with hmem
    · cases hx'
    · rfl

/-- A record keeps its key for as long as it is linked. -/
theorem Outcome.keyOf_eq {op : Op} {res : ℤ} {tbl : TableName} {x : Ptr} (hk : Inv E k)
    (h : Outcome E k op res k') (hT : k.table tbl = some T) (hT' : k'.table tbl = some T')
    (hx : x ∈ T) (hx' : x ∈ T') : k'.keyOf tbl x = k.keyOf tbl x := by
  have hk' := hk.step h
  cases tbl with
  | processes =>
    obtain rfl := Option.some.inj hT
    obtain rfl := Option.some.inj hT'
    -- the key is the pid the record was allocated for
    obtain ⟨q, hq⟩ := hk.toShape.process_exists hx
    obtain ⟨q', hq'⟩ := hk'.toShape.process_exists hx'
    simp only [Kernel.keyOf, Kernel.processKey, hq, hq', Option.map_some]
    rw [← (hk.proc x hx q hq).self, ← (hk'.proc x hx' q' hq').self]
  | threads pp =>
    obtain ⟨q, hq, rfl⟩ := Option.map_eq_some_iff.mp hT
    obtain ⟨q', hq', rfl⟩ := Option.map_eq_some_iff.mp hT'
    obtain ⟨r, hr⟩ := (hk.procOk hq).thread_exists hx
    obtain ⟨r', hr'⟩ := (hk'.procOk hq').thread_exists hx'
    exact h.threadKey_eq hk.toShape (by simp [hr]) (by simp [hr'])
  | fibers pp =>
    obtain ⟨q, hq, rfl⟩ := Option.map_eq_some_iff.mp hT
    obtain ⟨q', hq', rfl⟩ := Option.map_eq_some_iff.mp hT'
    obtain ⟨r, hr⟩ := (hk.procOk hq).fiber_exists hx
    obtain ⟨r', hr'⟩ := (hk'.procOk hq').fiber_exists hx'
    exact h.fiberKey_eq hk.toShape (by simp [hr]) (by simp [hr'])

/-! ## The map of a history -/

/-- No record was allocated at `pp` yet. -/
def TableName.Unborn (k : Kernel) : TableName → Prop
  | .processes => False
  | .threads pp | .fibers pp => k.brk pp.tgid ≤ pp.serial

/-- The tables a call changes are those of a record that is there before it or
    after it. -/
theorem Outcome.changesTo_unborn {op : Op} {res : ℤ} {tbl : TableName} (hk : Inv E k)
    (h : Outcome E k op res k') (htbl : tbl.Unborn k') : changesTo tbl (op.changes E k) = [] := by
  have hk' := hk.step h
  -- the changes go to tables of records that are there
  have hborn : ∀ {ep : Ptr}, (k.process ep).isSome ∨ (k'.process ep).isSome →
      tbl ≠ .processes ∧ tbl ≠ .threads ep ∧ tbl ≠ .fibers ep := by
    intro ep hep
    have hlt : ep.serial < k'.brk ep.tgid := by
      rcases hep with hep | hep
      · exact (hk.freshProcess ep hep).trans_le (h.brk_le _)
      · exact hk'.freshProcess ep hep
    refine ⟨?_, ?_, ?_⟩
    · rintro rfl
      exact htbl
    · rintro rfl
      exact absurd hlt htbl.not_gt
    · rintro rfl
      exact absurd hlt htbl.not_gt
  cases h with
  | refused hn hc => rw [Op.changes_refused hn hc]; rfl
  | again hr => rw [Op.changes_again hr.toCaller]; rfl
  | switchMissing | switchBusy | switched | user => rfl
  | fls hr hc => rw [Op.changes_fls hc]; rfl
  | releaseNone hn => simp [changesTo, Op.changes, Kernel.own_none hn]
  | @convertedFirst cur hn =>
    rw [Op.changes_convertedFirst hn]
    obtain ⟨h1, h2, h3⟩ := @hborn (k.nextPtr cur.tgid) (.inr (by simp [Kernel.converted]))
    simp [changesTo, converting, h1.symm, h2.symm, h3.symm]
  | @converted cur ep p hep hp ht =>
    rw [Op.changes_converted hep hp ht]
    obtain ⟨-, h2, h3⟩ := @hborn ep (.inl (by simp [hp]))
    simp [changesTo, converting, h2.symm, h3.symm]
  | @created cur ep tp f p t r sp sz fn arg hr =>
    rw [Op.changes_created hr.toCaller]
    obtain ⟨-, -, h3⟩ := @hborn ep (.inl (by simp [hr.process_eq]))
    simp [changesTo, h3.symm]
  | @detached cur ep tp f p t r hr hact =>
    rw [Op.changes_exit hr.toCaller, if_neg hact]
    obtain ⟨-, h2, -⟩ := @hborn ep (.inl (by simp [hr.process_eq]))
    simp [changesTo, h2.symm]
  | @lastExit cur ep tp f p t r hr hact =>
    rw [Op.changes_exit hr.toCaller, if_pos hact]
    obtain ⟨h1, h2, -⟩ := @hborn ep (.inl (by simp [hr.process_eq]))
    simp [changesTo, h1.symm, h2.symm]
  | @released cur ep p hep hp =>
    rw [Op.changes_release (Kernel.own_some hep hp)]
    obtain ⟨h1, -, -⟩ := @hborn ep (.inl (by simp [hp]))
    simp [changesTo, h1.symm]

theorem TableName.Unborn.of_le {tbl : TableName} (h : tbl.Unborn k') (hle : ∀ g, k.brk g ≤ k'.brk g) :
    tbl.Unborn k := by
  cases tbl with
  | processes => exact h
  | threads pp | fibers pp => exact (hle pp.tgid).trans h

/-- No change was made to the tables of a record that does not exist yet. -/
theorem History.changesOf_unborn {cpu : Task → Cpu} {es : List Event} {tbl : TableName}
    (h : History E cpu es k) (htbl : tbl.Unborn k) : changesOf E tbl es = [] := by
  induction h with
  | nil => rfl
  | @snoc es k₁ k₂ e hist hs ih =>
    obtain ⟨rfl, rfl, hrun⟩ := hs
    have hinv := (History.reachable hist).inv
    have hout := hinv.toShape.outcome_of_run hrun
    rw [changesOf_snoc, ih (htbl.of_le hout.brk_le), hout.changesTo_unborn hinv htbl,
      List.append_nil]

/-- A table that appears belongs to a record allocated by this call. -/
theorem Outcome.unborn {op : Op} {res : ℤ} {tbl : TableName} (hk : Inv E k)
    (h : Outcome E k op res k') (hT : k.table tbl = none) (hT' : k'.table tbl = some T') :
    tbl.Unborn k := by
  have hborn : ∀ {pp : Ptr} {p' : Process}, k.process pp = none → k'.process pp = some p' →
      k.brk pp.tgid ≤ pp.serial := by
    intro pp p' hn hp'
    cases h.idChange hk (hk.step h) hp' with
    | kept p hp | grown p f hp => simp [hn] at hp
    | born f hnew => exact hnew
  cases tbl with
  | processes => cases hT
  | threads pp | fibers pp =>
    obtain ⟨p', hp', -⟩ := Option.map_eq_some_iff.mp hT'
    exact hborn (Option.map_eq_none_iff.mp hT) hp'

/-- The ids of the table's records are distinct for as long as it is this small. -/
def TableName.Fits (T : Table) : TableName → Prop
  | .fibers _ => T.size < 2 ^ 32
  | _ => True

theorem TableChange.fits {tbl : TableName} {cs : List (MapOp PidT Ptr)}
    (h : TableChange E k' tbl T T' cs) (hfits : tbl.Fits T') : tbl.Fits T := by
  cases tbl with
  | processes | threads => trivial
  | fibers pp =>
    unfold TableName.Fits at hfits ⊢
    cases h with
    | kept hT => rwa [hT] at hfits
    | inserted key x hT =>
      rw [hT, HashTable.size_add] at hfits
      omega
    | deleted x hT htbl => exact absurd rfl (htbl pp)

/-- The tables of a reachable state keep every record in the bucket of its key, and
    no two under the same key. -/
theorem Reachable.keys {tbl : TableName} (h : Reachable E k) (hT : k.table tbl = some T)
    (hfits : tbl.Fits T) : T.WF E.hash (k.keyOf tbl) ∧ T.InjKeys (k.keyOf tbl) := by
  have hinv := h.inv
  cases tbl with
  | processes =>
    obtain rfl := Option.some.inj hT
    exact ⟨hinv.processesWF, hinv.processesInj⟩
  | threads pp =>
    obtain ⟨p, hp, rfl⟩ := Option.map_eq_some_iff.mp hT
    exact ⟨(hinv.procOk hp).threadsWF, (hinv.procOk hp).threadsInj⟩
  | fibers pp =>
    obtain ⟨p, hp, rfl⟩ := Option.map_eq_some_iff.mp hT
    exact ⟨(hinv.procOk hp).fibersWF, ((h.counted hp).2 hfits).inj⟩

theorem History.isMap {cpu : Task → Cpu} {es : List Event} {tbl : TableName}
    (h : History E cpu es k) (hT : k.table tbl = some T) (hfits : tbl.Fits T) :
    T.IsMap E.hash (k.keyOf tbl) (changesOf E tbl es) := by
  induction h generalizing T with
  | nil =>
    cases tbl with
    | processes =>
      obtain rfl := Option.some.inj hT
      exact .empty _ _
    | threads | fibers => cases hT
  | @snoc es k₁ k₂ e hist hs ih =>
    obtain ⟨rfl, rfl, hrun⟩ := hs
    have hreach := History.reachable hist
    have hinv := hreach.inv
    have hout := hinv.toShape.outcome_of_run hrun
    have hchange : TableChange E e.post tbl ((e.pre.table tbl).getD .empty) T
        (changesTo tbl (e.op.changes E e.pre)) := hout.tableChange hinv hT
    rw [changesOf_snoc]
    obtain ⟨hwf, hinj⟩ := (hreach.step hrun).keys hT hfits
    -- the table before the call, empty if its record is new
    obtain ⟨hpre, hkey⟩ : ((e.pre.table tbl).getD .empty).IsMap E.hash (e.pre.keyOf tbl)
        (changesOf E tbl es) ∧ ∀ x ∈ (e.pre.table tbl).getD .empty, x ∈ T →
          e.post.keyOf tbl x = e.pre.keyOf tbl x := by
      cases hT₀ : e.pre.table tbl with
      | none =>
        rw [History.changesOf_unborn hist (hout.unborn hinv hT₀ hT)]
        refine ⟨.empty _ _, ?_⟩
        intro x hx
        exact absurd hx (HashTable.not_mem_empty x)
      | some T₀ =>
        rw [hT₀] at hchange
        refine ⟨ih hT₀ (hchange.fits hfits), ?_⟩
        intro x hx hx'
        exact hout.keyOf_eq hinv hT₀ hT hx hx'
    generalize (e.pre.table tbl).getD .empty = T₀ at hchange hpre hkey
    generalize changesTo tbl (e.op.changes E e.pre) = cs at hchange ⊢
    cases hchange with
    | kept hkept =>
      subst hkept
      rw [List.append_nil]
      exact hpre.congr fun x hx => hkey x hx hx
    | inserted key x hadd hnew =>
      subst hadd
      refine hpre.insert ?_ hnew hwf hinj
      intro y hy
      exact hkey y hy (HashTable.mem_add.mpr (.inr hy))
    | deleted x hdel =>
      subst hdel
      refine hpre.delete ?_
      intro y hy
      exact hkey y (HashTable.mem_of_mem_del hy) hy

/-! ## Lookups -/

theorem TableName.find_eq {tbl : TableName} {key : PidT} {r : Option Ptr}
    (hT : k.table tbl = some T) (hr : T.find E.hash (k.keyOf tbl) key = some r) :
    tbl.find E key k = some (r, k) := by
  cases tbl with
  | processes =>
    obtain rfl := Option.some.inj hT
    exact findProcessByTgid_eq_some.mpr ⟨hr, rfl⟩
  | threads pp =>
    obtain ⟨p, hp, rfl⟩ := Option.map_eq_some_iff.mp hT
    exact findThreadByPid_eq_some.mpr ⟨p, hp, hr, rfl⟩
  | fibers pp =>
    obtain ⟨p, hp, rfl⟩ := Option.map_eq_some_iff.mp hT
    exact findFiberById_eq_some.mpr ⟨p, hp, hr, rfl⟩

/-- After any calls and under any hash function a table is what the insertions
    and deletions of these calls made of it. A lookup returns the record inserted
    under its key and not deleted since, and nothing if there is none; no two
    linked records have the same key. Of the fibers of a process record this is
    said as long as they are fewer than 2^31. -/
theorem tables_are_maps {cpu : Task → Cpu} {es : List Event} {tbl : TableName}
    (h : History E cpu es k) (hT : k.table tbl = some T)
    (hsize : ∀ pp, tbl = .fibers pp → T.size < 2 ^ 31) :
    T = (changesOf E tbl es).foldl (MapOp.onTable E.hash) .empty ∧
    (∀ key, ∃ r, tbl.find E key k = some (r, k) ∧
      ∀ x, r = some x ↔ MapOp.Held (changesOf E tbl es) key x) ∧
    T.InjKeys (k.keyOf tbl) := by
  have hfits : tbl.Fits T := by
    cases tbl with
    | processes | threads => trivial
    | fibers pp => exact (hsize pp rfl).trans (by omega)
  have hmap := h.isMap hT hfits
  refine ⟨hmap.replay, ?_, hmap.inj⟩
  intro key
  obtain ⟨r, hr, hheld⟩ := hmap.find_eq key
  exact ⟨r, TableName.find_eq hT hr, hheld⟩

/-- A converted thread creates a fiber: the two have different ids. -/
theorem tables_are_maps_firstFiber : ∃ es k T,
    History (.linux 240) (fun _ => .zero) es k ∧ k.table (.fibers ⟨7, 0⟩) = some T ∧ T.size = 2 ∧
      T.InjKeys k.fiberKey := by
  have hcaller := firstConverted_caller (.linux 240) ⟨7, 7⟩ fun _ => .zero
  have hconv : (Op.call ⟨7, 7⟩ .convert).run (.linux 240) (Kernel.boot fun _ => .zero) = _ :=
    firstConverted_run (.linux 240) ⟨7, 7⟩ fun _ => .zero
  have hcreate : (Op.call ⟨7, 7⟩ (.create 4096 64 17 5)).run (.linux 240) _ = _ :=
    doCreateFiber_eq hcaller 4096 64 17 5
  have h := (History.step .nil hconv).step hcreate
  have hp : (Kernel.created (.linux 240) _ ⟨7, 7⟩ ⟨7, 0⟩ _ 4096 64 17 5).process ⟨7, 0⟩ = some _ :=
    hcaller.created.process_eq
  have hT := Kernel.table_fibers hp
  refine ⟨_, _, _, h, hT, ?_, (tables_are_maps h hT ?_).2.2⟩
  · rw [Process.withFiber, HashTable.size_add, HashTable.size_add, HashTable.size_empty]
  · intro _ _
    rw [Process.withFiber, HashTable.size_add, HashTable.size_add, HashTable.size_empty]
    omega

end AosvFibers
