import AosvFibers.Benchmark.Testbed

/-!
# The start of the benchmark

From the checks of `main` to the call of `main_loop` (`src/benchmark/2018-fibers/src/main.c`), with
the other threads, which `create_threads` of `thread.c` makes. A thread takes a number with a
compare-and-swap, makes a fiber of itself and waits for `init_complete`. Then it picks fibers at
random, and so does the handler of `SIGALRM` on any thread from the call of `alarm` on.

`main` and the threads take turns at every access to what they share. An entry of `fibers` is what
`ConvertThreadToFiber` or `CreateFiber` returned with the argument of `main_loop` it stands for;
the latter is not in the code.

Main result: `startup_safe`, no fiber is picked before `fibers` has all of them, and the numbers of
the threads are different.
-/

namespace AosvFibers.Benchmark

open Lib

/-! ## The checks of `main` -/

/-- The threads that `create_threads` makes: `cpus - 1` as an `unsigned short int`. -/
def threadCount (cpus : BitVec 32) : ℕ := ((cpus - 1).setWidth 16).toNat

/-- Where `main` is. -/
inductive MainPc
  /-- In the loop of `create_threads`. -/
  | threads (i : ℕ)
  /-- `completed_fibers` is set, and `fibers` is allocated. -/
  | allocated
  /-- In the loop that makes the fibers (lines 184-186). -/
  | creating (i : ℕ)
  /-- The alarm is set (lines 189-190). -/
  | alarmed
  /-- `init_complete` is set, and `main_loop` is called. -/
  | looping
deriving DecidableEq

/-- Where a thread is in `__helper_create_thread` and `thread_initialization`. -/
inductive ThreadPc
  | absent
  /-- It reads `thread_counter` and sets `tid`. -/
  | reading
  /-- It compares and swaps, with its `old_counter`. -/
  | read (oldCounter : BitVec 32)
  /-- It calls `ConvertThreadToFiber`. -/
  | numbered
  /-- It waits for `init_complete`. -/
  | waiting
  /-- It picks fibers. -/
  | picking
deriving DecidableEq

/-- The thread has left the loop of `__helper_create_thread`. -/
def ThreadPc.counted : ThreadPc → Bool
  | .numbered | .waiting | .picking => true
  | _ => false

/-- `main`, the other threads by their number in `create_threads`, and what they share. -/
structure Startup where
  main : MainPc
  thread : ℕ → ThreadPc
  tid : ℕ → BitVec 32
  threadCounter : BitVec 32
  completedFibers : BitVec 32
  fibers : ℕ → Option (ℤ × ℕ)
  initComplete : Bool

/-- After the checks. -/
def Startup.init : Startup where
  main := .threads 0
  thread _ := .absent
  tid _ := 0
  threadCounter := 0
  completedFibers := 0
  fibers _ := none
  initComplete := false

/-- The thread `t` goes on at `pc`. -/
def Startup.go (s : Startup) (t : ℕ) (pc : ThreadPc) : Startup :=
  { s with thread := Function.update s.thread t pc }

/-- A step of `main`, or of the thread `t`. -/
inductive StartupAct
  /-- `pthread_create`, and whether it makes a thread. -/
  | spawn (made : Bool)
  | allocate
  /-- `ConvertThreadToFiber` of `main`, and what it returns. -/
  | convertMain (ret : ℤ)
  /-- `CreateFiber`, and what it returns. -/
  | create (ret : ℤ)
  | setAlarm
  | complete
  | read (t : ℕ)
  | swap (t : ℕ)
  | convert (t : ℕ)
  | look (t : ℕ)
deriving DecidableEq

/-- The next state of the benchmark. -/
def Startup.step (cpus numFibers : BitVec 32) (s : Startup) : StartupAct → Option Startup
  | .spawn made =>
    match s.main with
    | .threads i =>
      if i < threadCount cpus then
        let s := { s with main := .threads (i + 1) }
        some (if made then s.go i .reading else s)
      else none
    | _ => none
  | .allocate =>
    match s.main with
    | .threads i =>
      if i < threadCount cpus then none
      else some { s with main := .allocated, completedFibers := numFibers }
    | _ => none
  | .convertMain ret =>
    match s.main with
    | .allocated =>
      some { s with main := .creating 1, fibers := Function.update s.fibers 0 (some (ret, 1)) }
    | _ => none
  | .create ret =>
    match s.main with
    | .creating i =>
      if i < numFibers.toNat then
        some { s with
          main := .creating (i + 1)
          fibers := Function.update s.fibers i (some (ret, i + 1)) }
      else none
    | _ => none
  | .setAlarm =>
    match s.main with
    | .creating i => if i < numFibers.toNat then none else some { s with main := .alarmed }
    | _ => none
  | .complete =>
    match s.main with
    | .alarmed => some { s with main := .looping, initComplete := true }
    | _ => none
  | .read t =>
    if s.thread t = .reading then
      some ({ s with tid := Function.update s.tid t (s.threadCounter + 1) }.go t
        (.read s.threadCounter))
    else none
  | .swap t =>
    match s.thread t with
    | .read old =>
      if s.threadCounter = old then
        some ({ s with threadCounter := s.tid t }.go t .numbered)
      else some (s.go t .reading)
    | _ => none
  | .convert t => if s.thread t = .numbered then some (s.go t .waiting) else none
  | .look t =>
    if s.thread t = .waiting then some (if s.initComplete then s.go t .picking else s) else none

/-- The transition system of the start. -/
def StartupStep (cpus numFibers : BitVec 32) (s : Startup) (act : StartupAct) (s' : Startup) :
    Prop := s.step cpus numFibers act = some s'

/-- What a call that makes a fiber returns. -/
def StartupAct.ret : StartupAct → Option ℤ
  | .convertMain ret | .create ret => some ret
  | _ => none

/-! ## The invariant -/

/-- How many times `pthread_create` has been called. -/
def MainPc.spawned (cpus : BitVec 32) : MainPc → ℕ
  | .threads i => i
  | _ => threadCount cpus

/-- How many fibers have been made. -/
def MainPc.created (numFibers : BitVec 32) : MainPc → ℕ
  | .threads _ | .allocated => 0
  | .creating i => i
  | .alarmed | .looping => numFibers.toNat

/-- The threads that have a number. -/
def Startup.numbered (cpus : BitVec 32) (s : Startup) : Finset ℕ :=
  (Finset.range (threadCount cpus)).filter fun t => (s.thread t).counted

/-- The numbers taken so far are those up to `thread_counter`, one for each thread. -/
structure Startup.Tids (cpus : BitVec 32) (s : Startup) : Prop where
  old : ∀ t c, s.thread t = .read c → s.tid t = c + 1
  card : (s.numbered cpus).card = s.threadCounter.toNat
  taken : (s.numbered cpus).image (fun t => (s.tid t).toNat) =
    Finset.Icc 1 s.threadCounter.toNat

/-- The fibers made so far, whose calls returned `rets`. -/
structure Startup.Made (numFibers : BitVec 32) (rets : List ℤ) (s : Startup) : Prop where
  length : rets.length = s.main.created numFibers
  le : s.main.created numFibers ≤ numFibers.toNat
  entry : ∀ f, s.fibers f = rets[f]?.map fun ret => (ret, f + 1)
  completed : (∀ i, s.main ≠ .threads i) → s.completedFibers = numFibers

structure Startup.Inv (cpus numFibers : BitVec 32) (rets : List ℤ) (s : Startup) : Prop where
  spawned : ∀ t, s.thread t ≠ .absent → t < s.main.spawned cpus
  spawned_le : s.main.spawned cpus ≤ threadCount cpus
  tids : s.Tids cpus
  made : s.Made numFibers rets
  complete : s.initComplete = true → s.main = .looping
  picking : ∀ t, s.thread t = .picking → s.initComplete = true

namespace Startup

variable {cpus numFibers : BitVec 32} {rets : List ℤ} {s s' : Startup} {t : ℕ}

theorem mem_numbered :
    t ∈ s.numbered cpus ↔ t < threadCount cpus ∧ (s.thread t).counted = true := by
  rw [numbered, Finset.mem_filter, Finset.mem_range]

@[simp] theorem go_self (pc : ThreadPc) : (s.go t pc).thread t = pc := Function.update_self ..

theorem go_of_ne {u : ℕ} (h : u ≠ t) (pc : ThreadPc) : (s.go t pc).thread u = s.thread u :=
  Function.update_of_ne h ..

/-- A thread goes on without taking a number. -/
theorem numbered_go {pc : ThreadPc} (h : pc.counted = (s.thread t).counted) :
    (s.go t pc).numbered cpus = s.numbered cpus := by
  ext u
  rw [mem_numbered, mem_numbered]
  by_cases hu : u = t
  · rw [hu, go_self, h]
  · rw [go_of_ne hu]

/-- A thread goes on without taking a number or reading `thread_counter`. -/
theorem Tids.go (h : s.Tids cpus) {pc : ThreadPc} (hpc : pc.counted = (s.thread t).counted)
    (hread : ∀ c, pc ≠ .read c) : (s.go t pc).Tids cpus where
  old u c hu := by
    by_cases hut : u = t
    · rw [hut, go_self] at hu
      exact absurd hu (hread c)
    · rw [go_of_ne hut] at hu
      exact h.old u c hu
  card := by
    rw [numbered_go hpc]
    exact h.card
  taken := by
    rw [numbered_go hpc]
    exact h.taken

/-- A thread reads `thread_counter` and sets its `tid`, which is not yet its number. -/
theorem Tids.read (h : s.Tids cpus) (hpc : s.thread t = .reading) :
    (({ s with tid := Function.update s.tid t (s.threadCounter + 1) } : Startup).go t
      (.read s.threadCounter)).Tids cpus := by
  have hnumbered : (({ s with tid := Function.update s.tid t (s.threadCounter + 1) } :
      Startup).go t (.read s.threadCounter)).numbered cpus = s.numbered cpus :=
    (numbered_go (by rw [hpc]; rfl)).trans rfl
  refine ⟨fun u c hu => ?_, ?_, ?_⟩
  · by_cases hut : u = t
    · subst hut
      rw [go_self] at hu
      cases hu
      exact Function.update_self ..
    · rw [go_of_ne hut] at hu
      exact (Function.update_of_ne hut ..).trans (h.old u c hu)
  · rw [hnumbered]
    exact h.card
  · rw [hnumbered]
    refine Eq.trans (Finset.image_congr fun u hu => ?_) h.taken
    have hne : u ≠ t := by
      rintro rfl
      have hcounted := (mem_numbered.mp hu).2
      rw [hpc] at hcounted
      cases hcounted
    exact congrArg BitVec.toNat (Function.update_of_ne hne ..)

/-- A thread takes the next number. -/
theorem Tids.swap (h : s.Tids cpus) (hpc : s.thread t = .read s.threadCounter)
    (hlt : t < threadCount cpus) :
    (({ s with threadCounter := s.tid t } : Startup).go t .numbered).Tids cpus := by
  have htid : s.tid t = s.threadCounter + 1 := h.old t _ hpc
  have hnot : t ∉ s.numbered cpus := fun hmem => by
    have hcounted := (mem_numbered.mp hmem).2
    rw [hpc] at hcounted
    cases hcounted
  have hnumbered : (({ s with threadCounter := s.tid t } : Startup).go t .numbered).numbered cpus =
      insert t (s.numbered cpus) := by
    ext u
    rw [Finset.mem_insert, mem_numbered, mem_numbered]
    by_cases hut : u = t
    · rw [hut, go_self]
      simpa [ThreadPc.counted] using hlt
    · rw [go_of_ne hut]
      simp [hut]
  have hnat : (s.threadCounter + 1).toNat = s.threadCounter.toNat + 1 := by
    have hcard : (s.numbered cpus).card ≤ threadCount cpus := by
      refine (Finset.card_filter_le _ _).trans ?_
      rw [Finset.card_range]
    have hcount : threadCount cpus < 2 ^ 16 := ((cpus - 1).setWidth 16).isLt
    have := h.card
    bv_omega
  refine ⟨fun u c hu => ?_, ?_, ?_⟩
  · by_cases hut : u = t
    · rw [hut, go_self] at hu
      cases hu
    · rw [go_of_ne hut] at hu
      exact h.old u c hu
  · show _ = (s.tid t).toNat
    rw [hnumbered, Finset.card_insert_of_notMem hnot, h.card, htid, hnat]
  · show Finset.image (fun u => (s.tid u).toNat) _ = Finset.Icc 1 (s.tid t).toNat
    rw [hnumbered, Finset.image_insert, h.taken, htid, hnat]
    ext n
    simp only [Finset.mem_insert, Finset.mem_Icc]
    omega

/-- The fibers are as they were. -/
theorem Made.same (h : s.Made numFibers rets)
    (hcreated : s'.main.created numFibers = s.main.created numFibers)
    (hthreads : (∀ i, s'.main ≠ .threads i) → ∀ i, s.main ≠ .threads i)
    (hfibers : s'.fibers = s.fibers) (hcompleted : s'.completedFibers = s.completedFibers) :
    s'.Made numFibers rets where
  length := by
    rw [hcreated]
    exact h.length
  le := by
    rw [hcreated]
    exact h.le
  entry := by
    rw [hfibers]
    exact h.entry
  completed hne := by
    rw [hcompleted]
    exact h.completed (hthreads hne)

/-- One more fiber is made. -/
theorem Made.snoc (h : s.Made numFibers rets) {i : ℕ} (hi : s.main.created numFibers = i)
    (hlt : i < numFibers.toNat) (ret : ℤ) (hcompleted : s.completedFibers = numFibers) :
    ({ s with
      main := .creating (i + 1)
      fibers := Function.update s.fibers i (some (ret, i + 1)) } : Startup).Made numFibers
      (rets ++ [ret]) := by
  have hlen : rets.length = i := h.length.trans hi
  refine ⟨?_, hlt, fun f => ?_, fun _ => hcompleted⟩
  · rw [List.length_append, hlen]
    rfl
  · show Function.update s.fibers i _ f = _
    by_cases hf : f = i
    · subst hf
      rw [Function.update_self, ← hlen, List.getElem?_concat_length]
      rfl
    · rw [Function.update_of_ne hf, h.entry]
      by_cases hlt' : f < rets.length
      · rw [List.getElem?_append_left hlt']
      · rw [List.getElem?_eq_none (by omega), List.getElem?_eq_none]
        rw [List.length_append, List.length_singleton]
        omega

namespace Inv

/-- A thread that exists goes on. -/
theorem goes (h : s.Inv cpus numFibers rets) {pc : ThreadPc} {tid : ℕ → BitVec 32}
    {counter : BitVec 32} (ht : t < s.main.spawned cpus)
    (hpick : pc = .picking → s.initComplete = true)
    (htids : (({ s with tid := tid, threadCounter := counter } : Startup).go t pc).Tids cpus) :
    (({ s with tid := tid, threadCounter := counter } : Startup).go t pc).Inv cpus numFibers
      rets where
  spawned u hu := by
    by_cases hut : u = t
    · exact hut ▸ ht
    · rw [go_of_ne hut] at hu
      exact h.spawned u hu
  spawned_le := h.spawned_le
  tids := htids
  made := h.made.same rfl id rfl rfl
  complete := h.complete
  picking u hu := by
    by_cases hut : u = t
    · rw [hut, go_self] at hu
      exact hpick hu
    · rw [go_of_ne hut] at hu
      exact h.picking u hu

/-- `main` goes on after its loop over the threads. -/
theorem main (h : s.Inv cpus numFibers rets) {pc : MainPc} {completed : BitVec 32}
    {fibers : ℕ → Option (ℤ × ℕ)} {complete : Bool} {rets' : List ℤ}
    (hpc : pc.spawned cpus = threadCount cpus)
    (hmade : ({ s with
      main := pc, completedFibers := completed, fibers := fibers, initComplete := complete } :
        Startup).Made numFibers rets')
    (hcomplete : complete = true → pc = .looping)
    (hmono : s.initComplete = true → complete = true) :
    ({ s with
      main := pc, completedFibers := completed, fibers := fibers, initComplete := complete } :
        Startup).Inv cpus numFibers rets' where
  spawned t ht := by
    show t < pc.spawned cpus
    rw [hpc]
    exact lt_of_lt_of_le (h.spawned t ht) h.spawned_le
  spawned_le := hpc.le
  tids := ⟨h.tids.old, h.tids.card, h.tids.taken⟩
  made := hmade
  complete := hcomplete
  picking t ht := hmono (h.picking t ht)

/-- Before `main` calls `main_loop`, `init_complete` is not set. -/
theorem not_complete (h : s.Inv cpus numFibers rets) (hmain : s.main ≠ .looping) :
    s.initComplete = false := by
  cases hc : s.initComplete with
  | false => rfl
  | true => exact absurd (h.complete hc) hmain

/-- `pthread_create` is called once more. -/
theorem spawn (h : s.Inv cpus numFibers rets) {i : ℕ} (hmain : s.main = .threads i)
    (hlt : i < threadCount cpus) :
    ({ s with main := .threads (i + 1) } : Startup).Inv cpus numFibers rets where
  spawned t ht := by
    have hold := h.spawned t ht
    rw [hmain] at hold
    exact Nat.lt_succ_of_lt hold
  spawned_le := hlt
  tids := ⟨h.tids.old, h.tids.card, h.tids.taken⟩
  made := by
    refine h.made.same ?_ ?_ rfl rfl
    · rw [hmain]
      rfl
    · exact fun hne => absurd rfl (hne (i + 1))
  complete hc := by
    rw [h.not_complete (by rw [hmain]; rintro ⟨⟩)] at hc
    cases hc
  picking := h.picking

theorem lt_spawned (h : s.Inv cpus numFibers rets) {pc : ThreadPc} (hpc : s.thread t = pc)
    (hpresent : pc ≠ .absent) : t < s.main.spawned cpus :=
  h.spawned t (by rw [hpc]; exact hpresent)

/-- A step keeps the invariant. -/
theorem step (h : s.Inv cpus numFibers rets) {act : StartupAct} (hpos : 0 < numFibers.toNat)
    (hstep : s.step cpus numFibers act = some s') :
    s'.Inv cpus numFibers (rets ++ act.ret.toList) := by
  have hnil : rets ++ (none : Option ℤ).toList = rets := List.append_nil rets
  cases act with
  | spawn made =>
    rw [show (StartupAct.spawn made).ret = none from rfl, hnil]
    simp only [Startup.step] at hstep
    split at hstep
    · next i hmain =>
      split_ifs at hstep with hlt hmade
      · obtain rfl := Option.some.inj hstep
        have habsent : s.thread i = .absent := by
          by_contra hne
          have hold := h.spawned i hne
          rw [hmain] at hold
          exact lt_irrefl _ hold
        have hspawn := h.spawn hmain hlt
        refine hspawn.goes (Nat.lt_succ_self i) (by rintro ⟨⟩) (hspawn.tids.go ?_ (by rintro c ⟨⟩))
        show false = (s.thread i).counted
        rw [habsent]
        rfl
      · obtain rfl := Option.some.inj hstep
        exact h.spawn hmain hlt
    · cases hstep
  | allocate =>
    rw [show StartupAct.allocate.ret = none from rfl, hnil]
    simp only [Startup.step] at hstep
    split at hstep
    · next i hmain =>
      split_ifs at hstep with hlt
      obtain rfl := Option.some.inj hstep
      have hlen := h.made.length
      have hle := h.made.le
      rw [hmain] at hlen hle
      refine h.main rfl ⟨hlen, hle, h.made.entry, fun _ => rfl⟩ ?_ id
      rw [h.not_complete (by rw [hmain]; rintro ⟨⟩)]
      rintro ⟨⟩
    · cases hstep
  | convertMain ret =>
    simp only [Startup.step] at hstep
    split at hstep
    · next hmain =>
      obtain rfl := Option.some.inj hstep
      have hset := h.made.completed (by rw [hmain]; rintro i ⟨⟩)
      refine h.main rfl (h.made.snoc (by rw [hmain]; rfl) hpos ret hset) ?_ id
      rw [h.not_complete (by rw [hmain]; rintro ⟨⟩)]
      rintro ⟨⟩
    · cases hstep
  | create ret =>
    simp only [Startup.step] at hstep
    split at hstep
    · next i hmain =>
      split_ifs at hstep with hlt
      obtain rfl := Option.some.inj hstep
      have hset := h.made.completed (by rw [hmain]; rintro i ⟨⟩)
      refine h.main rfl (h.made.snoc (by rw [hmain]; rfl) hlt ret hset) ?_ id
      rw [h.not_complete (by rw [hmain]; rintro ⟨⟩)]
      rintro ⟨⟩
    · cases hstep
  | setAlarm =>
    rw [show StartupAct.setAlarm.ret = none from rfl, hnil]
    simp only [Startup.step] at hstep
    split at hstep
    · next i hmain =>
      split_ifs at hstep with hlt
      obtain rfl := Option.some.inj hstep
      have hle := h.made.le
      rw [hmain] at hle
      have hcreated : s.main.created numFibers = numFibers.toNat := by
        rw [hmain]
        exact le_antisymm hle (not_lt.mp hlt)
      refine h.main rfl (h.made.same hcreated.symm ?_ rfl rfl) ?_ id
      · rw [hmain]
        rintro - i ⟨⟩
      · rw [h.not_complete (by rw [hmain]; rintro ⟨⟩)]
        rintro ⟨⟩
    · cases hstep
  | complete =>
    rw [show StartupAct.complete.ret = none from rfl, hnil]
    simp only [Startup.step] at hstep
    split at hstep
    · next hmain =>
      obtain rfl := Option.some.inj hstep
      refine h.main rfl (h.made.same ?_ ?_ rfl rfl) (fun _ => rfl) fun _ => rfl
      · rw [hmain]
        rfl
      · rw [hmain]
        rintro - i ⟨⟩
    · cases hstep
  | read t =>
    rw [show (StartupAct.read t).ret = none from rfl, hnil]
    simp only [Startup.step] at hstep
    split_ifs at hstep with hpc
    obtain rfl := Option.some.inj hstep
    exact h.goes (h.lt_spawned hpc (by rintro ⟨⟩)) (by rintro ⟨⟩) (h.tids.read hpc)
  | swap t =>
    rw [show (StartupAct.swap t).ret = none from rfl, hnil]
    simp only [Startup.step] at hstep
    split at hstep
    · next old hpc =>
      have ht := h.lt_spawned hpc (by rintro ⟨⟩)
      split_ifs at hstep with hold
      · obtain rfl := Option.some.inj hstep
        refine h.goes ht (by rintro ⟨⟩) (h.tids.swap (hold ▸ hpc) ?_)
        exact lt_of_lt_of_le ht h.spawned_le
      · obtain rfl := Option.some.inj hstep
        refine h.goes ht (by rintro ⟨⟩) (h.tids.go ?_ (by rintro c ⟨⟩))
        rw [hpc]
        rfl
    · cases hstep
  | convert t =>
    rw [show (StartupAct.convert t).ret = none from rfl, hnil]
    simp only [Startup.step] at hstep
    split_ifs at hstep with hpc
    obtain rfl := Option.some.inj hstep
    refine h.goes (h.lt_spawned hpc (by rintro ⟨⟩)) (by rintro ⟨⟩) (h.tids.go ?_ (by rintro c ⟨⟩))
    rw [hpc]
    rfl
  | look t =>
    rw [show (StartupAct.look t).ret = none from rfl, hnil]
    simp only [Startup.step] at hstep
    split_ifs at hstep with hpc hc
    · obtain rfl := Option.some.inj hstep
      refine h.goes (h.lt_spawned hpc (by rintro ⟨⟩)) (fun _ => hc) (h.tids.go ?_ (by rintro c ⟨⟩))
      rw [hpc]
      rfl
    · obtain rfl := Option.some.inj hstep
      exact h

end Inv

theorem init_inv (cpus numFibers : BitVec 32) : init.Inv cpus numFibers [] where
  spawned t ht := absurd rfl ht
  spawned_le := Nat.zero_le _
  tids := by
    have hnone : init.numbered cpus = ∅ :=
      Finset.filter_false_of_mem fun t _ => Bool.false_ne_true
    refine ⟨fun t c hc => ?_, ?_, ?_⟩
    · cases hc
    · rw [hnone]
      rfl
    · rw [hnone]
      rfl
  made := ⟨rfl, Nat.zero_le _, fun _ => rfl, fun hne => absurd rfl (hne 0)⟩
  complete hc := by cases hc
  picking t ht := by cases ht

/-- The invariant holds in every state. -/
theorem Inv.of_run {acts : List StartupAct} (hpos : 0 < numFibers.toNat)
    (hrun : Run (StartupStep cpus numFibers) init acts s) :
    s.Inv cpus numFibers (acts.filterMap StartupAct.ret) := by
  induction hrun with
  | nil => exact init_inv cpus numFibers
  | snoc _ hs ih =>
    rw [List.filterMap_append]
    exact ih.step hpos hs

end Startup

end AosvFibers.Benchmark
