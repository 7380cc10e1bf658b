import AosvFibers.Interleaved.Insertion

/-!
# What was published stays known

Threads convert themselves, create fibers, switch and use their local storage in any
order, `hash_add_rcu` being three steps. `pub σ` lists the nodes that were made the head
of bucket `σ`, the last one first, whether a walk of the bucket still meets them or not.

* `Tables`: what holds of the records and of `pub`;
* `Stage`: what is known about a thread at each place, `held` being the number it has
  drawn for its fiber;
* `Numbers`: the numbers drawn, of which `spent` are those of calls that have returned;
* `Inv`: the invariant. It holds also where insertions are lost.

`Inv.advance` puts the invariant together after a step of one thread.
-/

namespace AosvFibers

open Lib Stmt

/-! ## Statements and places -/

/-- A statement that leaves the tables and the keys alone. -/
def Stmt.keepsKeys : Stmt → Bool
  | fiber _ _ | select _ _ | loadRegs _ | loadFx _ => true
  | _ => false

/-- The node a statement inserts. -/
def Stmt.node : Stmt → Option Ptr
  | addThread _ t => some t
  | addFiber _ f => some f
  | _ => none

theorem Stmt.node_of_keepsKeys {st : Stmt} (h : st.keepsKeys) : st.node = .none := by
  cases st with
  | addThread p t => cases h
  | addFiber p f => cases h
  | _ => rfl

theorem Stmt.node_of_inserts {E : Env} {k : Kernel} {st : Stmt} {σ : Slot} {n : Ptr}
    (h : st.inserts E k = some (σ, n)) : st.node = some n := by
  obtain ⟨_, _, rfl, -⟩ | ⟨_, _, rfl, -⟩ := inserts_cases h
  · rfl
  · rfl

/-- The node the thread is still going to insert. -/
def Pc.entering : Pc → Option Ptr
  | takeId _ f _ => some f
  | run ss _ => ss.findSome? Stmt.node
  | _ => none

theorem Pc.entering_run {ss : List Stmt} (h : ∀ st ∈ ss, st.keepsKeys) (next : Pc) :
    (run ss next).entering = .none :=
  List.findSome?_eq_none_iff.mpr fun st hst => Stmt.node_of_keepsKeys (h st hst)

/-- The call that makes the fiber. -/
def Maker.call : Maker → Call
  | convert _ => .convert
  | create sp sz fn arg => .create sp sz fn arg

namespace Insertion

variable {E : Env} {g u v : PidT} {k k' : Kernel} {s s' : State} {pub pub' : Slot → List Ptr}
  {held held' : PidT → Option ℕ} {spent spent' : List ℕ} {N N' i : ℕ} {p t f n : Ptr} {pc pc' : Pc}
  {own : Option Ptr} {cur : Task} {σ : Slot}

/-- A place at which nothing is being registered. -/
inductive Aside : Pc → Prop
  | user : Aside .user
  | dead : Aside .dead
  | findOrCreate : Aside .findOrCreate
  | findProcess (c : Call) (hc : c ≠ .exit) : Aside (.findProcess c)
  | findFiber (id : PidT) (p tp : Ptr) : Aside (.findFiber id p tp)
  | trylock (id : PidT) (tp f : Ptr) : Aside (.trylock id tp f)
  | checkAttached (id : PidT) (tp f : Ptr) : Aside (.checkAttached id tp f)
  | readPrev (id : PidT) (tp f : Ptr) : Aside (.readPrev id tp f)
  | checkSelected (c : Call) (t : Ptr) (hc : c.isFls) : Aside (.checkSelected c t)
  | readSelected (c : Call) (t : Ptr) (hc : c.isFls) : Aside (.readSelected c t)
  | flsTest (c : Call) (f : Ptr) (hc : c.isFls) : Aside (.flsTest c f)
  | flsValue (index : ℤ) (f : Ptr) (i : FlsIndex) : Aside (.flsValue index f i)
  | run (ss : List Stmt) (next : Pc) (hss : ∀ st ∈ ss, st.keepsKeys) (hnext : Aside next) :
      Aside (.run ss next)
  | ret (c : Call) (w : ℤ) (h : gives (.finish c w) = none) : Aside (.ret c w)

theorem Aside.entering_eq (h : Aside pc) : pc.entering = none := by
  cases h with
  | run ss next hss => exact Pc.entering_run hss next
  | _ => rfl

theorem Aside.draws_eq (h : Aside pc) : pc.draws = false := by
  cases h <;> rfl

/-! ## Steps that keep the keys -/

/-- What is never changed of a process record once a number is drawn, and the last number. -/
def ids (q : Process) : PidT × Word := (q.processId, q.lastFiberId)

/-- The records are there under the same keys, and no number was drawn. -/
structure SameKeys (k k' : Kernel) : Prop where
  processes : k'.processes = k.processes
  process : ∀ p, (k'.process p).map ids = (k.process p).map ids
  threadKey : ∀ t, k'.threadKey t = k.threadKey t
  fiberKey : ∀ f, k'.fiberKey f = k.fiberKey f
  brk : k'.brk = k.brk

theorem SameKeys.refl (k : Kernel) : SameKeys k k :=
  ⟨rfl, fun _ => rfl, fun _ => rfl, fun _ => rfl, rfl⟩

theorem SameKeys.of_modFiber (k : Kernel) (f : Ptr) (φ : Fiber → Fiber)
    (hid : ∀ r, (φ r).fiberId = r.fiberId) : SameKeys k (k.modFiber f φ) := by
  refine ⟨rfl, fun _ => rfl, fun _ => rfl, fun x => ?_, rfl⟩
  rw [Kernel.fiberKey, Kernel.modFiber_fiber, Kernel.fiberKey]
  split_ifs with hx
  · subst hx
    cases k.fiber x with
    | none => rfl
    | some r => exact congrArg some (hid r)
  · rfl

theorem SameKeys.of_modCpu (k : Kernel) (cur : Task) (φ : Cpu → Cpu) : SameKeys k (k.modCpu cur φ) :=
  ⟨rfl, fun _ => rfl, fun _ => rfl, fun _ => rfl, rfl⟩

theorem sameKeys_apply {st : Stmt} (h : st.keepsKeys) :
    SameKeys k (st.apply E cur k) ∧ (st.apply E cur k).process = k.process := by
  cases st with
  | fiber f a => exact ⟨.of_modFiber k f _ fun r => by cases a <;> rfl, rfl⟩
  | select t f =>
    refine ⟨⟨rfl, fun _ => rfl, fun x => ?_, fun _ => rfl, rfl⟩, rfl⟩
    simp only [apply, Kernel.threadKey, Kernel.modThread_thread]
    split_ifs with hx
    · subst hx
      cases k.thread x <;> rfl
    · rfl
  | loadRegs f =>
    simp only [apply]
    cases k.fiber f with
    | none => exact ⟨.refl k, rfl⟩
    | some r => exact ⟨.of_modCpu k cur fun c => { c with regs := r.registers }, rfl⟩
  | loadFx f =>
    simp only [apply]
    cases k.fiber f with
    | none => exact ⟨.refl k, rfl⟩
    | some r => exact ⟨.of_modCpu k cur fun c => { c with fxregs := r.fpu }, rfl⟩
  | _ => cases h

theorem keepsKeys_assigns (f : Ptr) (as : List Assign) : ∀ st ∈ assigns f as, st.keepsKeys := by
  intro st hst
  obtain ⟨a, -, rfl⟩ := List.mem_map.mp hst
  rfl

/-- The places of an FLS operation are left with its result or for writes to the fiber. -/
theorem aside_flsStep {c : Call} (hc : c.isFls) (hstep : flsStep f c k = some (pc', k')) :
    k' = k ∧ Aside pc' := by
  cases c with
  | flsAlloc =>
    simp only [flsStep, K.bind_eq_some, readFiber_eq_some] at hstep
    obtain ⟨r, _, ⟨-, rfl⟩, h⟩ := hstep
    split_ifs at h with hi
    · obtain ⟨rfl, rfl⟩ : _ = pc' ∧ _ = k' := by simpa using h
      exact ⟨rfl, .run _ _ (keepsKeys_assigns _ _) (.ret _ _ rfl)⟩
    · obtain ⟨rfl, rfl⟩ : _ = pc' ∧ _ = k' := by simpa using h
      exact ⟨rfl, .ret _ _ rfl⟩
  | flsFree index =>
    cases hi : flsIndex? index with
    | none =>
      obtain ⟨rfl, rfl⟩ : _ = pc' ∧ k = k' := by simpa [flsStep, hi] using hstep
      exact ⟨rfl, .ret _ _ rfl⟩
    | some i =>
      simp only [flsStep, hi, K.bind_eq_some, readFiber_eq_some] at hstep
      obtain ⟨r, _, ⟨-, rfl⟩, h⟩ := hstep
      split_ifs at h
      · obtain ⟨rfl, rfl⟩ : _ = pc' ∧ _ = k' := by simpa using h
        exact ⟨rfl, .ret _ _ rfl⟩
      · obtain ⟨rfl, rfl⟩ : _ = pc' ∧ _ = k' := by simpa using h
        exact ⟨rfl, .run _ _ (keepsKeys_assigns _ _) (.ret _ _ rfl)⟩
  | flsGetValue index =>
    cases hi : flsIndex? index with
    | none =>
      obtain ⟨rfl, rfl⟩ : _ = pc' ∧ k = k' := by simpa [flsStep, hi] using hstep
      exact ⟨rfl, .ret _ _ rfl⟩
    | some i =>
      simp only [flsStep, hi, K.bind_eq_some, readFiber_eq_some] at hstep
      obtain ⟨r, _, ⟨-, rfl⟩, h⟩ := hstep
      split_ifs at h
      · obtain ⟨rfl, rfl⟩ : _ = pc' ∧ _ = k' := by simpa using h
        exact ⟨rfl, .ret _ _ rfl⟩
      · obtain ⟨rfl, rfl⟩ : _ = pc' ∧ _ = k' := by simpa using h
        exact ⟨rfl, .flsValue _ _ _⟩
  | flsSetValue index value =>
    cases hi : flsIndex? index with
    | none =>
      obtain ⟨rfl, rfl⟩ : _ = pc' ∧ k = k' := by simpa [flsStep, hi] using hstep
      exact ⟨rfl, .ret _ _ rfl⟩
    | some i =>
      simp only [flsStep, hi, K.bind_eq_some, readFiber_eq_some] at hstep
      obtain ⟨r, _, ⟨-, rfl⟩, h⟩ := hstep
      split_ifs at h
      · obtain ⟨rfl, rfl⟩ : _ = pc' ∧ _ = k' := by simpa using h
        exact ⟨rfl, .ret _ _ rfl⟩
      · obtain ⟨rfl, rfl⟩ : _ = pc' ∧ _ = k' := by simpa using h
        exact ⟨rfl, .run _ _ (keepsKeys_assigns _ _) (.ret _ _ rfl)⟩
  | _ => simp [Call.isFls] at hc

theorem gives_refused (c : Call) : gives (.finish c c.refused) = none := by
  cases c <;> rfl

/-- A thread that registers nothing keeps the keys, and goes on so until it has found its
    process record. -/
theorem Aside.step (h : Aside pc) (hne : pc ≠ .findOrCreate)
    (hstep : pc.step E cur k = some (pc', k')) :
    SameKeys k k' ∧ k'.process = k.process ∧ (Aside pc' ∨
      ∃ c p, pc' = .findThread c p ∧ k.processOf E cur.tgid = some (some p) ∧ c ≠ .exit) := by
  cases h with
  | user => cases hstep
  | dead => cases hstep
  | findOrCreate => exact absurd rfl hne
  | findProcess c hc =>
    simp only [Pc.step, K.bind_eq_some, findProcessByTgid_eq_some] at hstep
    obtain ⟨op, _, ⟨hop, rfl⟩, h⟩ := hstep
    cases op with
    | none =>
      obtain ⟨rfl, rfl⟩ : _ = pc' ∧ _ = k' := by simpa using h
      exact ⟨.refl _, rfl, .inl (.ret c _ (gives_refused c))⟩
    | some p =>
      obtain ⟨rfl, rfl⟩ : _ = pc' ∧ _ = k' := by simpa using h
      exact ⟨.refl _, rfl, .inr ⟨c, p, rfl, hop, hc⟩⟩
  | findFiber id p tp =>
    simp only [Pc.step, K.bind_eq_some, findFiberById_eq_some] at hstep
    obtain ⟨of, _, ⟨q, -, -, rfl⟩, h⟩ := hstep
    cases of with
    | none =>
      obtain ⟨rfl, rfl⟩ : _ = pc' ∧ _ = k' := by simpa using h
      exact ⟨.refl _, rfl, .inl (.ret _ _ rfl)⟩
    | some f =>
      obtain ⟨rfl, rfl⟩ : _ = pc' ∧ _ = k' := by simpa using h
      exact ⟨.refl _, rfl, .inl (.trylock _ _ _)⟩
  | trylock id tp f =>
    simp only [Pc.step, K.bind_eq_some, spinTrylock, Option.map_eq_some_iff] at hstep
    obtain ⟨b, _, ⟨r, hr, heq⟩, h⟩ := hstep
    obtain ⟨-, rfl⟩ := Prod.mk.inj heq
    have hkeys := SameKeys.of_modFiber k f (fun r => { r with fiberLock := true }) fun _ => rfl
    cases b with
    | true =>
      obtain ⟨rfl, rfl⟩ : _ = pc' ∧ _ = k' := by simpa using h
      exact ⟨hkeys, rfl, .inl (.checkAttached _ _ _)⟩
    | false =>
      obtain ⟨rfl, rfl⟩ : _ = pc' ∧ _ = k' := by simpa using h
      exact ⟨hkeys, rfl, .inl (.run _ _ (keepsKeys_assigns _ _) (.ret _ _ rfl))⟩
  | checkAttached id tp f =>
    simp only [Pc.step, K.bind_eq_some, readFiber_eq_some] at hstep
    obtain ⟨r, _, ⟨-, rfl⟩, h⟩ := hstep
    split_ifs at h
    · obtain ⟨rfl, rfl⟩ : _ = pc' ∧ _ = k' := by simpa using h
      exact ⟨.refl _, rfl, .inl (.run _ _ (keepsKeys_assigns _ _) (.ret _ _ rfl))⟩
    · obtain ⟨rfl, rfl⟩ : _ = pc' ∧ _ = k' := by simpa using h
      exact ⟨.refl _, rfl, .inl (.run _ _ (keepsKeys_assigns _ _) (.readPrev _ _ _))⟩
  | readPrev id tp f =>
    simp only [Pc.step, K.bind_eq_some, readThread_eq_some, nonNull_eq_some] at hstep
    obtain ⟨r, _, ⟨-, rfl⟩, prev, _, ⟨-, rfl⟩, h⟩ := hstep
    obtain ⟨rfl, rfl⟩ : _ = pc' ∧ _ = k' := by simpa using h
    refine ⟨.refl _, rfl, .inl (.run _ _ ?_ (.ret _ _ rfl))⟩
    intro st hst
    simp only [switchTail, List.mem_append, List.mem_cons, List.not_mem_nil, or_false] at hst
    obtain (rfl | hst) | rfl | rfl := hst
    · rfl
    · exact keepsKeys_assigns _ _ st hst
    · rfl
    · rfl
  | checkSelected c t hc =>
    simp only [Pc.step, K.bind_eq_some, readThread_eq_some] at hstep
    obtain ⟨r, _, ⟨-, rfl⟩, h⟩ := hstep
    split_ifs at h
    · obtain ⟨rfl, rfl⟩ : _ = pc' ∧ _ = k' := by simpa using h
      exact ⟨.refl _, rfl, .inl (.ret _ _ (gives_refused c))⟩
    · obtain ⟨rfl, rfl⟩ : _ = pc' ∧ _ = k' := by simpa using h
      exact ⟨.refl _, rfl, .inl (.readSelected c t hc)⟩
  | readSelected c t hc =>
    simp only [Pc.step, K.bind_eq_some, readThread_eq_some, nonNull_eq_some] at hstep
    obtain ⟨r, _, ⟨-, rfl⟩, f, _, ⟨-, rfl⟩, h⟩ := hstep
    obtain ⟨rfl, rfl⟩ : _ = pc' ∧ _ = k' := by simpa using h
    exact ⟨.refl _, rfl, .inl (.flsTest c f hc)⟩
  | flsTest c f hc =>
    obtain ⟨rfl, hpc⟩ := aside_flsStep hc hstep
    exact ⟨.refl _, rfl, .inl hpc⟩
  | flsValue index f i =>
    simp only [Pc.step, K.bind_eq_some, readFiber_eq_some] at hstep
    obtain ⟨r, _, ⟨-, rfl⟩, h⟩ := hstep
    obtain ⟨rfl, rfl⟩ : _ = pc' ∧ _ = k' := by simpa using h
    exact ⟨.refl _, rfl, .inl (.ret _ _ rfl)⟩
  | run ss next hss hnext =>
    cases ss with
    | nil =>
      obtain ⟨rfl, rfl⟩ : next = pc' ∧ k = k' := by simpa [Pc.step] using hstep
      exact ⟨.refl _, rfl, .inl hnext⟩
    | cons st ss =>
      simp only [Pc.step, K.bind_eq_some, exec_eq_some] at hstep
      obtain ⟨_, _, ⟨-, rfl⟩, h⟩ := hstep
      obtain ⟨rfl, rfl⟩ : _ = pc' ∧ _ = k' := by simpa using h
      obtain ⟨hkeys, hp⟩ : SameKeys k (st.apply E cur k) ∧ (st.apply E cur k).process = k.process :=
        sameKeys_apply (hss st List.mem_cons_self)
      exact ⟨hkeys, hp, .inl (.run _ _ (fun st' h' => hss st' (List.mem_cons_of_mem _ h')) hnext)⟩
  | ret c w => cases hstep

/-! ## What is known -/

/-- `find_process_by_tgid` finds the process record at `p`. -/
def Home (E : Env) (g : PidT) (k : Kernel) (p : Ptr) : Prop := k.processOf E g = some (some p)

/-- A record of thread `u` was put on the table of `p`. -/
def Registered (E : Env) (k : Kernel) (pub : Slot → List Ptr) (p : Ptr) (u : PidT) : Prop :=
  ∃ t ∈ pub (.threads p (E.hash u)), k.threadKey t = some u

/-- The fiber at `f` was put on the table of `p` under its id. -/
def Named (E : Env) (k : Kernel) (pub : Slot → List Ptr) (p f : Ptr) (id : PidT) : Prop :=
  f ∈ pub (.fibers p (E.hash id)) ∧ k.fiberKey f = some id

/-- The id made of a number, `last_fiber_id` narrowed to a `pid_t`. -/
def idOf (i : ℕ) : PidT := BitVec.ofNat 32 i

/-- What holds of the records; `N` is the number drawn last in process `g`. -/
structure Tables (E : Env) (g : PidT) (k : Kernel) (pub : Slot → List Ptr) (N : ℕ) : Prop where
  processesWF : k.processes.WF E.hash k.processKey
  processesInj : k.processes.InjKeys k.processKey
  freshProcess : ∀ x, (k.process x).isSome → x.serial < k.brk x.tgid
  freshThread : ∀ x, (k.threadKey x).isSome → x.serial < k.brk x.tgid
  freshFiber : ∀ x, (k.fiberKey x).isSome → x.serial < k.brk x.tgid
  threadAt : ∀ p b, ∀ t ∈ pub (.threads p b), ∃ key, k.threadKey t = some key ∧ E.hash key = b
  fiberAt : ∀ p b, ∀ f ∈ pub (.fibers p b), ∃ key, k.fiberKey f = some key ∧ E.hash key = b
  last : ∀ p, Home E g k p → (k.process p).map ids = some (g, BitVec.ofNat 64 N)
  unborn : k.processOf E g = some none → N = 0

/-- The last places of a call that has put its fiber `f` on the table. -/
inductive Completing (m : Maker) (f : Ptr) : Pc → Prop
  | writing (ss : List Stmt) (hss : ∀ st ∈ ss, st.keepsKeys) : Completing m f (.run ss (m.next f))
  | lock (gp : Ptr) (hm : m = .convert gp) : Completing m f (.lockNew gp f)
  | read : Completing m f (.readId m.call f)

/-- Where thread `u` is. -/
inductive Stage (E : Env) (g : PidT) (k : Kernel) (pub : Slot → List Ptr) (u : PidT)
    (held : Option ℕ) : Pc → Prop
  | aside {pc : Pc} (h : Aside pc) : Stage E g k pub u held pc
  | findThread (c : Call) (p : Ptr) (hp : Home E g k p) (hc : c ≠ .exit) :
      Stage E g k pub u held (.findThread c p)
  | findSelf (p : Ptr) (hp : Home E g k p) : Stage E g k pub u held (.findSelf p)
  | newThread (p : Ptr) (hp : Home E g k p) : Stage E g k pub u held (.newThread p)
  | counting (p t : Ptr) (hp : Home E g k p) (ht : k.threadKey t = some u) :
      Stage E g k pub u held (.run [incActive p, addThread p t] (.newFiber p (.convert t)))
  | listing (p t : Ptr) (hp : Home E g k p) (ht : k.threadKey t = some u) :
      Stage E g k pub u held (.run [addThread p t] (.newFiber p (.convert t)))
  | listed (p t : Ptr) (hp : Home E g k p) (hreg : Registered E k pub p u) :
      Stage E g k pub u held (.run [] (.newFiber p (.convert t)))
  | newFiber (p : Ptr) (m : Maker) (hp : Home E g k p)
      (hreg : m.call = .convert → Registered E k pub p u) : Stage E g k pub u held (.newFiber p m)
  | takeId (p f : Ptr) (m : Maker) (hp : Home E g k p)
      (hreg : m.call = .convert → Registered E k pub p u) (hf : (k.fiberKey f).isSome) :
      Stage E g k pub u held (.takeId p f m)
  | naming (p f : Ptr) (m : Maker) (i : ℕ) (hp : Home E g k p)
      (hreg : m.call = .convert → Registered E k pub p u) (hheld : held = some i)
      (hkey : k.fiberKey f = some (idOf i)) :
      Stage E g k pub u held (.run (initFiberTail p f ++ m.tail f) (m.next f))
  | completing (p f : Ptr) (m : Maker) (i : ℕ) {pc : Pc} (hp : Home E g k p)
      (hreg : m.call = .convert → Registered E k pub p u) (hheld : held = some i)
      (hn : Named E k pub p f (idOf i)) (hpc : Completing m f pc) : Stage E g k pub u held pc
  | ret (c : Call) (p f : Ptr) (i : ℕ) (hp : Home E g k p)
      (hreg : c = .convert → Registered E k pub p u) (hheld : held = some i)
      (hn : Named E k pub p f (idOf i)) : Stage E g k pub u held (.ret c (idOf i).toInt)

/-- The numbers drawn: `held u` is that of the call thread `u` is in, `spent` are those of
    the calls that have returned. -/
structure Numbers (held : PidT → Option ℕ) (spent : List ℕ) (lo N : ℕ) : Prop where
  le : lo ≤ N
  range : ∀ u i, held u = some i → lo < i ∧ i ≤ N
  apart : ∀ u v i, held u = some i → held v = some i → u = v
  unspent : ∀ u i, held u = some i → i ∉ spent
  spentRange : ∀ i ∈ spent, lo < i ∧ i ≤ N
  nodup : spent.Nodup

/-- What a thread inside `hash_add_rcu` has read or stored is `NULL` or a node that was
    the head of the bucket. -/
inductive AddingOk (next : Ptr → Option Ptr) (pub : Slot → List Ptr) (ins : Option (Slot × Ptr)) :
    Adding → Prop
  | idle : AddingOk next pub ins .idle
  | read (σ : Slot) (n : Ptr) (first : Option Ptr) (hins : ins = some (σ, n))
      (h : ∀ m, first = some m → m ∈ pub σ) : AddingOk next pub ins (.read first)
  | stored (σ : Slot) (n : Ptr) (hins : ins = some (σ, n)) (h : ∀ m, next n = some m → m ∈ pub σ) :
      AddingOk next pub ins .stored

/-- The invariant. -/
structure Inv (E : Env) (g : PidT) (s : State) (pub : Slot → List Ptr) (held : PidT → Option ℕ)
    (spent : List ℕ) (lo N : ℕ) : Prop where
  tables : Tables E g s.st pub N
  layered : ∀ σ, Layered s.next (pub σ)
  walk : ∀ σ, Walk s.next (pub σ).head? (s.st.chain σ)
  stage : ∀ u, Stage E g s.st pub u (held u) (s.pc u)
  entering : ∀ u n σ, (s.pc u).entering = some n → n ∉ pub σ
  alone : ∀ u v n, (s.pc u).entering = some n → (s.pc v).entering = some n → u = v
  adding : ∀ u, AddingOk s.next pub (s.inserting E u) (s.adding u)
  numbers : Numbers held spent lo N

/-! ## What the other threads see -/

/-- What a step of a thread that is making the node `own` leaves to the others. -/
structure Frame (E : Env) (g : PidT) (own : Option Ptr) (k : Kernel) (pub : Slot → List Ptr)
    (k' : Kernel) (pub' : Slot → List Ptr) : Prop where
  home : ∀ p, Home E g k p → Home E g k' p
  process : ∀ p, (k.process p).isSome → (k'.process p).isSome
  threadKey : ∀ t key, k.threadKey t = some key → k'.threadKey t = some key
  fiberKey : ∀ f key, own ≠ some f → k.fiberKey f = some key → k'.fiberKey f = some key
  pub : ∀ σ n, n ∈ pub σ → n ∈ pub' σ

theorem processOf_congr (hps : k'.processes = k.processes)
    (hkey : ∀ x, k'.processKey x = k.processKey x) : k'.processOf E g = k.processOf E g := by
  rw [Kernel.processOf, hps, Kernel.processOf]
  exact HashTable.find_congr fun x _ => hkey x

theorem SameKeys.processKey_eq (h : SameKeys k k') (x : Ptr) : k'.processKey x = k.processKey x := by
  have := congrArg (Option.map Prod.fst) (h.process x)
  simpa [Kernel.processKey, Function.comp_def, ids] using this

theorem SameKeys.process_isSome (h : SameKeys k k') (x : Ptr) :
    (k'.process x).isSome = (k.process x).isSome := by
  have := congrArg Option.isSome (h.process x)
  simpa using this

theorem SameKeys.processOf_eq (h : SameKeys k k') : k'.processOf E g = k.processOf E g :=
  processOf_congr h.processes h.processKey_eq

theorem SameKeys.frame (h : SameKeys k k') (hsub : ∀ σ n, n ∈ pub σ → n ∈ pub' σ) :
    Frame E g own k pub k' pub' where
  home _ hp := h.processOf_eq.trans hp
  process p hp := (h.process_isSome p).trans hp
  threadKey t _ ht := (h.threadKey t).trans ht
  fiberKey f _ _ hf := (h.fiberKey f).trans hf
  pub := hsub

namespace Frame

variable {c : Kernel} {held₁ : Option ℕ}

theorem registered (hf : Frame E g own k pub k' pub') (h : Registered E k pub p u) :
    Registered E k' pub' p u := by
  obtain ⟨t, ht, hkey⟩ := h
  exact ⟨t, hf.pub _ _ ht, hf.threadKey t u hkey⟩

theorem named {id : PidT} (hf : Frame E g own k pub k' pub') (hown : ∀ σ n, own = some n → n ∉ pub σ)
    (h : Named E k pub p f id) : Named E k' pub' p f id :=
  ⟨hf.pub _ _ h.1, hf.fiberKey f id (fun he => hown _ f he h.1) h.2⟩

theorem stage (hf : Frame E g own k pub k' pub') (hown : ∀ σ n, own = some n → n ∉ pub σ)
    (hpc : ∀ n, pc.entering = some n → own ≠ some n) (h : Stage E g k pub u held₁ pc) :
    Stage E g k' pub' u held₁ pc := by
  cases h with
  | aside h => exact .aside h
  | findThread c p hp hc => exact .findThread c p (hf.home p hp) hc
  | findSelf p hp => exact .findSelf p (hf.home p hp)
  | newThread p hp => exact .newThread p (hf.home p hp)
  | counting p t hp ht => exact .counting p t (hf.home p hp) (hf.threadKey t u ht)
  | listing p t hp ht => exact .listing p t (hf.home p hp) (hf.threadKey t u ht)
  | listed p t hp hreg => exact .listed p t (hf.home p hp) (hf.registered hreg)
  | newFiber p m hp hreg => exact .newFiber p m (hf.home p hp) fun hm => hf.registered (hreg hm)
  | takeId p f m hp hreg hkey =>
    obtain ⟨key, hkey⟩ := Option.isSome_iff_exists.mp hkey
    refine .takeId p f m (hf.home p hp) (fun hm => hf.registered (hreg hm)) ?_
    rw [hf.fiberKey f key (hpc f rfl) hkey]
    rfl
  | naming p f m i hp hreg hheld hkey =>
    exact .naming p f m i (hf.home p hp) (fun hm => hf.registered (hreg hm)) hheld
      (hf.fiberKey f _ (hpc f rfl) hkey)
  | completing p f m i hp hreg hheld hn hdone =>
    exact .completing p f m i (hf.home p hp) (fun hm => hf.registered (hreg hm)) hheld
      (hf.named hown hn) hdone
  | ret c p f i hp hreg hheld hn =>
    exact .ret c p f i (hf.home p hp) (fun hc => hf.registered (hreg hc)) hheld (hf.named hown hn)

theorem inserts {st : Stmt} (hf : Frame E g own k pub k' pub') (hn : own ≠ some n)
    (h : st.inserts E k = some (σ, n)) : st.inserts E k' = some (σ, n) := by
  obtain ⟨p, key, rfl, rfl, hp, hkey⟩ | ⟨p, key, rfl, rfl, hp, hkey⟩ := Stmt.inserts_cases h
  · simp [Stmt.inserts, hf.process p hp, hf.threadKey n key hkey]
  · simp [Stmt.inserts, hf.process p hp, hf.fiberKey n key hn hkey]

end Frame

theorem exists_run_of_inserting (h : s.inserting E u = some (σ, n)) :
    ∃ st ss next, s.pc u = .run (st :: ss) next ∧ st.inserts E s.st = some (σ, n) := by
  obtain ⟨st, hst, hins⟩ := Option.bind_eq_some_iff.mp h
  generalize s.pc u = pc at hst
  cases pc with
  | run ss next =>
    cases ss with
    | nil => cases hst
    | cons st' ss =>
      obtain rfl : st' = st := Option.some.inj hst
      exact ⟨st', ss, next, rfl, hins⟩
  | _ => cases hst

theorem entering_of_inserting (h : s.inserting E u = some (σ, n)) :
    (s.pc u).entering = some n := by
  obtain ⟨st, ss, next, hpc, hins⟩ := exists_run_of_inserting h
  rw [hpc]
  simp [Pc.entering, Stmt.node_of_inserts hins]

/-- What a step of thread `v` leads to. -/
structure Moved (E : Env) (g v : PidT) (s : State) (pub : Slot → List Ptr) (s' : State)
    (pub' : Slot → List Ptr) (held' : PidT → Option ℕ) (spent' : List ℕ) (lo N' : ℕ) : Prop where
  inv : Inv E g s' pub' held' spent' lo N'
  frame : Frame E g (s.pc v).entering s.st pub s'.st pub'
  next : ∀ σ, ∀ n ∈ pub σ, s'.next n = s.next n

/-- The invariant after a step of thread `v`, which may be making a node. -/
theorem Inv.advance {lo : ℕ} (h : Inv E g s pub held spent lo N)
    (hpc : ∀ u, u ≠ v → s'.pc u = s.pc u) (hadd : ∀ u, u ≠ v → s'.adding u = s.adding u)
    (hheld : ∀ u, u ≠ v → held' u = held u)
    (hnext : ∀ n, (s.pc v).entering ≠ some n → s'.next n = s.next n)
    (hframe : Frame E g (s.pc v).entering s.st pub s'.st pub')
    (hpub : ∀ σ n, n ∈ pub' σ → n ∈ pub σ ∨ (s.pc v).entering = some n)
    (htables : Tables E g s'.st pub' N') (hlayered : ∀ σ, Layered s'.next (pub' σ))
    (hwalk : ∀ σ, Walk s'.next (pub' σ).head? (s'.st.chain σ))
    (hstage : Stage E g s'.st pub' v (held' v) (s'.pc v))
    (hent : ∀ n, (s'.pc v).entering = some n →
      (∀ σ, n ∉ pub' σ) ∧ ∀ u, u ≠ v → (s.pc u).entering ≠ some n)
    (hadding : AddingOk s'.next pub' (s'.inserting E v) (s'.adding v))
    (hnumbers : Numbers held' spent' lo N') : Moved E g v s pub s' pub' held' spent' lo N' := by
  refine ⟨?_, hframe, fun σ n hn => hnext n fun he => h.entering v n σ he hn⟩
  have hothers : ∀ u n, u ≠ v → (s.pc u).entering = some n → (s.pc v).entering ≠ some n :=
    fun u n hu h1 h2 => hu (h.alone u v n h1 h2)
  refine ⟨htables, hlayered, hwalk, fun u => ?_, fun u n σ hn => ?_, fun u w n hu hw => ?_,
    fun u => ?_, hnumbers⟩
  · by_cases hu : u = v
    · subst hu
      exact hstage
    · rw [hpc u hu, hheld u hu]
      exact hframe.stage (fun σ n hn => h.entering v n σ hn) (fun n hn => hothers u n hu hn)
        (h.stage u)
  · by_cases hu : u = v
    · subst hu
      exact (hent n hn).1 σ
    · rw [hpc u hu] at hn
      intro hmem
      obtain hmem | hv := hpub σ n hmem
      · exact h.entering u n σ hn hmem
      · exact hothers u n hu hn hv
  · by_cases hu' : u = v
    · subst hu'
      by_cases hw' : w = u
      · exact hw'.symm
      · rw [hpc w hw'] at hw
        exact absurd hw ((hent n hu).2 w hw')
    · rw [hpc u hu'] at hu
      by_cases hw' : w = v
      · subst hw'
        exact absurd hu ((hent n hw).2 u hu')
      · rw [hpc w hw'] at hw
        exact h.alone u w n hu hw
  · by_cases hu : u = v
    · subst hu
      exact hadding
    · have hkeep : ∀ σ n, s.inserting E u = some (σ, n) →
          (s.pc v).entering ≠ some n ∧ s'.inserting E u = some (σ, n) := by
        intro σ n hins
        have hne := hothers u n hu (entering_of_inserting hins)
        obtain ⟨st, hst, hst'⟩ := Option.bind_eq_some_iff.mp hins
        refine ⟨hne, Option.bind_eq_some_iff.mpr ⟨st, ?_, hframe.inserts hne hst'⟩⟩
        rw [hpc u hu, hst]
      have hok := h.adding u
      rw [hadd u hu]
      generalize s.adding u = a at hok
      cases hok with
      | idle => exact .idle
      | read σ n first hins hfirst =>
        exact .read σ n first (hkeep σ n hins).2 fun m hm => hframe.pub σ m (hfirst m hm)
      | stored σ n hins hfirst =>
        obtain ⟨hne, hins'⟩ := hkeep σ n hins
        refine .stored σ n hins' fun m hm => hframe.pub σ m (hfirst m ?_)
        rw [← hnext n hne, hm]

end Insertion

end AosvFibers
