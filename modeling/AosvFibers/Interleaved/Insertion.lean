import AosvFibers.Interleaved.Guard
import AosvFibers.Lib.HeadInsertion

/-!
# Insertions without a lock

`Machine` takes `hash_add_rcu` as one statement. Here it is three: the bucket's head is
read, what was read is stored in the `next` field of the new node, and the node is made
the head. `init_thread` and `init_fiber` hold no lock meanwhile, so that other threads
may put their own nodes into the same bucket in between.

The table a record sits on is still a `Table`; the chain of a bucket is what a walk from
the bucket's head visits, and `Step.publish` finds it along the `next` fields. A lookup
is one statement as before: nodes are added at the head only and the `next` field of a
node on a chain is not written any more, so a walk visits what it would have visited
when it read the head. The process record is found or created under
`struct_process_lock`, in one statement.

* `Step`: one step of a thread, `System`: the threads of a process, of which none dies.
* `Move.publishes`, `Move.Stale`: a node is made the head, and the head is not the one
  any more that the thread has read.
-/

namespace AosvFibers

open Lib Stmt

/-! ## Buckets -/

/-- A bucket of one of the two tables of the process record at `p`. -/
inductive Slot
  | threads (p : Ptr) (b : Bucket)
  | fibers (p : Ptr) (b : Bucket)
  deriving DecidableEq

/-- The process record a bucket belongs to. -/
def Slot.record : Slot → Ptr
  | threads p _ | fibers p _ => p

namespace Lib.HashTable

variable {β α : Type*}

/-- Another chain in bucket `b`. -/
def setChain [DecidableEq β] (T : HashTable β α) (b : β) (xs : List α) : HashTable β α :=
  ⟨Function.update T.chain b xs⟩

@[simp] theorem chain_setChain [DecidableEq β] (T : HashTable β α) (b c : β) (xs : List α) :
    (T.setChain b xs).chain c = if c = b then xs else T.chain c := by
  simp [setChain, Function.update_apply]

end Lib.HashTable

namespace Kernel

variable {k k' : Kernel} {σ τ : Slot} {xs : List Ptr}

/-- The chain of a bucket. -/
def chain (k : Kernel) : Slot → List Ptr
  | .threads p b => (k.process p).elim [] fun q => q.threads.chain b
  | .fibers p b => (k.process p).elim [] fun q => q.fibers.chain b

/-- Another chain in a bucket. -/
def setChain (k : Kernel) : Slot → List Ptr → Kernel
  | .threads p b, xs => k.modProcess p fun q => { q with threads := q.threads.setChain b xs }
  | .fibers p b, xs => k.modProcess p fun q => { q with fibers := q.fibers.setChain b xs }

/-- The chains are those of the tables. -/
theorem chain_congr_tables (h : ∀ p, ((k'.process p).map fun q => (q.threads, q.fibers)) =
    (k.process p).map fun q => (q.threads, q.fibers)) : k'.chain σ = k.chain σ := by
  cases σ with
  | threads p b =>
    have := congrArg (fun o => o.elim [] fun x => x.1.chain b) (h p)
    simpa [chain, Option.elim_map, Function.comp_def] using this
  | fibers p b =>
    have := congrArg (fun o => o.elim [] fun x => x.2.chain b) (h p)
    simpa [chain, Option.elim_map, Function.comp_def] using this

theorem chain_congr (h : k'.process = k.process) : k'.chain σ = k.chain σ :=
  chain_congr_tables fun p => by rw [h]

theorem setChain_chain (hσ : (k.process σ.record).isSome) :
    (k.setChain σ xs).chain τ = if τ = σ then xs else k.chain τ := by
  obtain ⟨q, hq⟩ := Option.isSome_iff_exists.mp hσ
  cases σ with
  | threads p b =>
    have hq : k.process p = some q := hq
    cases τ with
    | threads p' b' =>
      by_cases hp : p' = p
      · by_cases hb : b' = b <;> simp [chain, setChain, hp, hb, hq]
      · simp [chain, setChain, hp]
    | fibers p' b' => by_cases hp : p' = p <;> simp [chain, setChain, hp, hq]
  | fibers p b =>
    have hq : k.process p = some q := hq
    cases τ with
    | fibers p' b' =>
      by_cases hp : p' = p
      · by_cases hb : b' = b <;> simp [chain, setChain, hp, hb, hq]
      · simp [chain, setChain, hp]
    | threads p' b' => by_cases hp : p' = p <;> simp [chain, setChain, hp, hq]

/-- The process record at `p` with another chain. -/
theorem setChain_process (σ : Slot) (xs : List Ptr) (p : Ptr) : ∃ φ : Process → Process,
    (k.setChain σ xs).process p = (k.process p).map φ ∧
      ∀ q, (φ q).processId = q.processId ∧ (φ q).lastFiberId = q.lastFiberId := by
  by_cases hp : p = σ.record
  · cases σ with
    | threads r b =>
      obtain rfl : p = r := hp
      exact ⟨fun q => { q with threads := q.threads.setChain b xs }, by simp [setChain],
        fun _ => ⟨rfl, rfl⟩⟩
    | fibers r b =>
      obtain rfl : p = r := hp
      exact ⟨fun q => { q with fibers := q.fibers.setChain b xs }, by simp [setChain],
        fun _ => ⟨rfl, rfl⟩⟩
  · refine ⟨id, ?_, fun _ => ⟨rfl, rfl⟩⟩
    cases σ with
    | threads r b =>
      have hp : p ≠ r := hp
      simp [setChain, hp]
    | fibers r b =>
      have hp : p ≠ r := hp
      simp [setChain, hp]

theorem setChain_rest (σ : Slot) (xs : List Ptr) :
    (k.setChain σ xs).processes = k.processes ∧ (k.setChain σ xs).thread = k.thread ∧
      (k.setChain σ xs).fiber = k.fiber ∧ (k.setChain σ xs).brk = k.brk := by
  cases σ <;> exact ⟨rfl, rfl, rfl, rfl⟩

end Kernel

/-- The bucket and the node of a `hash_add_rcu`, the records it reads being there. -/
def Stmt.inserts (E : Env) (k : Kernel) : Stmt → Option (Slot × Ptr)
  | addThread p t =>
    if (k.process p).isSome then (k.threadKey t).map fun key => (.threads p (E.hash key), t) else none
  | addFiber p f =>
    if (k.process p).isSome then (k.fiberKey f).map fun key => (.fibers p (E.hash key), f) else none
  | _ => none

/-- The two statements that insert, and what they read. -/
theorem Stmt.inserts_cases {E : Env} {k : Kernel} {st : Stmt} {σ : Slot} {n : Ptr}
    (h : st.inserts E k = some (σ, n)) :
    (∃ p key, st = addThread p n ∧ σ = .threads p (E.hash key) ∧ (k.process p).isSome ∧
      k.threadKey n = some key) ∨
    (∃ p key, st = addFiber p n ∧ σ = .fibers p (E.hash key) ∧ (k.process p).isSome ∧
      k.fiberKey n = some key) := by
  cases st with
  | addThread p t =>
    simp only [inserts, Option.ite_none_right_eq_some, Option.map_eq_some_iff, Prod.mk.injEq] at h
    obtain ⟨hp, key, hkey, rfl, rfl⟩ := h
    exact .inl ⟨p, key, rfl, rfl, hp, hkey⟩
  | addFiber p f =>
    simp only [inserts, Option.ite_none_right_eq_some, Option.map_eq_some_iff, Prod.mk.injEq] at h
    obtain ⟨hp, key, hkey, rfl, rfl⟩ := h
    exact .inr ⟨p, key, rfl, rfl, hp, hkey⟩
  | _ => simp [inserts] at h

/-- With the head the node was linked to still in place, it is the statement of
    `Machine`. -/
theorem Stmt.inserts_apply {E : Env} {cur : Task} {k : Kernel} {st : Stmt} {σ : Slot} {n : Ptr}
    (h : st.inserts E k = some (σ, n)) :
    st.ok k ∧ st.apply E cur k = k.setChain σ (n :: k.chain σ) := by
  obtain ⟨p, _, rfl, rfl, hp, hkey⟩ | ⟨p, _, rfl, rfl, hp, hkey⟩ := inserts_cases h
  · obtain ⟨q, hq⟩ := Option.isSome_iff_exists.mp hp
    obtain ⟨r, hr, rfl⟩ := Option.map_eq_some_iff.mp hkey
    refine ⟨by simp [ok, hp, hr], ?_⟩
    simp [apply, hr, Kernel.setChain, Kernel.chain, Kernel.modProcess, hq, HashTable.add,
      HashTable.setChain]
  · obtain ⟨q, hq⟩ := Option.isSome_iff_exists.mp hp
    obtain ⟨r, hr, rfl⟩ := Option.map_eq_some_iff.mp hkey
    refine ⟨by simp [ok, hp, hr], ?_⟩
    simp [apply, hr, Kernel.setChain, Kernel.chain, Kernel.modProcess, hq, HashTable.add,
      HashTable.setChain]

/-- The next statement is `f->fiber_id = atomic64_inc_return(..)`. -/
def Pc.draws : Pc → Bool
  | takeId _ _ _ => true
  | _ => false

/-- The process record is there. -/
theorem Stmt.inserts_record {E : Env} {k : Kernel} {st : Stmt} {σ : Slot} {n : Ptr}
    (h : st.inserts E k = some (σ, n)) : (k.process σ.record).isSome := by
  obtain ⟨p, _, -, rfl, hp, -⟩ | ⟨p, _, -, rfl, hp, -⟩ := inserts_cases h
  · exact hp
  · exact hp

namespace Insertion

/-! ## Configurations -/

/-- How far a thread is in `hash_add_rcu`. -/
inductive Adding
  | idle
  /-- it has read `h->first` -/
  | read (first : Option Ptr)
  /-- it has stored what it read in `n->next` -/
  | stored
  deriving DecidableEq

/-- A configuration, with the `next` field of every node. -/
structure State where
  conf : Conf
  next : Ptr → Option Ptr
  adding : PidT → Adding

namespace State

variable (E : Env) (s : State) (u : PidT)

/-- The module's state. -/
abbrev st : Kernel := s.conf.st

/-- Where a thread is. -/
abbrev pc : Pc := s.conf.pc u

/-- The bucket and the node of the `hash_add_rcu` thread `u` is at. -/
def inserting : Option (Slot × Ptr) := (s.pc u).upcoming.bind (Stmt.inserts E s.st)

/-- Put a thread at a place. -/
def goto (k : Kernel) (pc : Pc) : State := { s with conf := s.conf.goto u k pc }

/-- All threads are in user code. -/
def start (k : Kernel) (next : Ptr → Option Ptr) : State := ⟨.idle k, next, fun _ => .idle⟩

variable (k : Kernel) (pc : Pc) (v : PidT)

@[simp] theorem goto_st : (s.goto u k pc).st = k := rfl
@[simp] theorem goto_next : (s.goto u k pc).next = s.next := rfl
@[simp] theorem goto_adding : (s.goto u k pc).adding = s.adding := rfl
@[simp] theorem goto_pc : (s.goto u k pc).pc v = if v = u then pc else s.pc v :=
  Conf.goto_pc s.conf u v k pc

end State

/-! ## Steps -/

/-- One step of the thread `u` of process `g`. -/
inductive Step (E : Env) (g : PidT) (s : State) (u : PidT) : Act → State → Prop
  /-- a step outside of `hash_add_rcu` -/
  | other (act : Act) (c : Conf) (hins : s.inserting E u = none) (h : CStep E g s.conf (u, act) c) :
      Step E g s u act { s with conf := c }
  /-- `first = h->first` -/
  | read (σ : Slot) (n : Ptr) (hins : s.inserting E u = some (σ, n)) (hadd : s.adding u = .idle) :
      Step E g s u .stmt
        { s with adding := Function.update s.adding u (.read (s.st.chain σ).head?) }
  /-- `n->next = first` -/
  | store (σ : Slot) (n : Ptr) (first : Option Ptr) (hins : s.inserting E u = some (σ, n))
      (hadd : s.adding u = .read first) :
      Step E g s u .stmt { s with
        next := Function.update s.next n first
        adding := Function.update s.adding u .stored }
  /-- `h->first = n`, from where a walk goes on at `n->next` -/
  | publish (σ : Slot) (n : Ptr) (xs : List Ptr) (st : Stmt) (ss : List Stmt) (pc : Pc)
      (hins : s.inserting E u = some (σ, n)) (hadd : s.adding u = .stored)
      (hpc : s.pc u = .run (st :: ss) pc) (hwalk : Walk s.next (s.next n) xs) :
      Step E g s u .stmt
        { s.goto u (s.st.setChain σ (n :: xs)) (.run ss pc) with
          adding := Function.update s.adding u .idle }

/-- One step of a thread, with the state before it. -/
structure Move where
  pre : State
  thread : PidT
  act : Act

/-- The threads of process `g`, of which none dies. -/
def System (E : Env) (g : PidT) (s : State) (m : Move) (s' : State) : Prop :=
  m.pre = s ∧ Step E g s m.thread m.act s' ∧ m.act ≠ .start .exit

/-- The id a conversion or a creation gives when it returns. -/
def gives : Act → Option ℤ
  | .finish .convert w => if w = -1 then none else some w
  | .finish (.create _ _ _ _) w => if w = -1 then none else some w
  | _ => none

namespace Move

variable (E : Env) (m : Move)

/-- The node the step makes the head of a bucket. -/
def publishes : Option (Slot × Ptr) :=
  if m.pre.adding m.thread = .stored then m.pre.inserting E m.thread else none

/-- The head the step overwrites is not the one the node was linked to. -/
def Stale : Prop := ∃ σ n, m.publishes E = some (σ, n) ∧ m.pre.next n ≠ (m.pre.st.chain σ).head?

/-- The nodes that were made heads, after the step. -/
def record (pub : Slot → List Ptr) : Slot → List Ptr :=
  (m.publishes E).elim pub fun x => Function.update pub x.1 (x.2 :: pub x.1)

/-- The step draws a fiber id. -/
def draws : Bool := (m.pre.pc m.thread).draws

end Move

end Insertion

end AosvFibers
