import AosvFibers.Benchmark.MainLoop

/-!
# The fibers of the testbed

All fibers of the benchmark together, from the end of `main` on
(`src/benchmark/2018-fibers/src/main.c`). A fiber works on data of its own, so a round of its loop
is one step, whatever the thread it is on and the random numbers of that thread. The steps of the
fibers follow each other in any order. They share `completed_fibers` and `exec_millis`.

Main result: `testbed_completes`, the benchmark reports its end only when every fiber has completed
its calls, and fails only on a negative mean or a negative bucket number.
-/

namespace AosvFibers.Benchmark

open Lib

variable {D R : Type}

/-- Where a fiber is in `main_loop`. -/
inductive Phase (D R : Type)
  /-- It has not run yet. -/
  | created
  | looping (sim : Sim D R)
  /-- The loop is left (line 95). -/
  | finished (sim : Sim D R)
  /-- Its time is in `exec_millis` (line 98). -/
  | timed (sim : Sim D R)
  /-- It is counted in `completed_fibers` (line 99) and waits for the others. -/
  | waiting (sim : Sim D R)

/-- The fibers by their ids, what they share, and how the benchmark has ended: with
    `EXIT_SUCCESS`, or with a failure. -/
structure Testbed (D R : Type) where
  phase : ℕ → Phase D R
  completedFibers : BitVec 32
  execMillis : BitVec 64
  outcome : Option (Option Crash)

/-- The benchmark when `main` calls `main_loop` (lines 174-192). -/
def Testbed.init (numFibers : BitVec 32) : Testbed D R where
  phase _ := .created
  completedFibers := numFibers
  execMillis := 0
  outcome := none

def Testbed.set (b : Testbed D R) (id : ℕ) (p : Phase D R) : Testbed D R :=
  { b with phase := Function.update b.phase id p }

/-- What a fiber does next. -/
inductive Act
  | start (id : ℕ)
  | round (id : ℕ)
  | crash (id : ℕ)
  | time (id : ℕ) (millis : BitVec 32)
  | count (id : ℕ)
  | exit
deriving DecidableEq

/-- The ids of the fibers. -/
def fiberIds (numFibers : BitVec 32) : Finset ℕ := Finset.Icc 1 numFibers.toNat

/-- A step of a fiber whose id is one of `ids`. -/
def FiberStep (N : Numerics D R) (ids : Finset ℕ) (b : Testbed D R) : Act → Testbed D R → Prop
  | .start id, b' => id ∈ ids ∧ b.phase id = .created ∧
      ∃ memory r sim, mainInit N (BitVec.ofNat 32 id) memory r = .ok sim ∧
        b' = b.set id (.looping sim)
  | .round id, b' => id ∈ ids ∧
      ∃ sim r last sim', b.phase id = .looping sim ∧
        mainStep N (BitVec.ofNat 32 id) { sim with r := r } = .ok (last, sim') ∧
        b' = b.set id (if last then .finished sim' else .looping sim')
  | .crash id, b' => id ∈ ids ∧
      ∃ e, (b.phase id = .created ∧ (∃ memory r,
          mainInit N (BitVec.ofNat 32 id) memory r = .error e) ∨
        ∃ sim r, b.phase id = .looping sim ∧
          mainStep N (BitVec.ofNat 32 id) { sim with r := r } = .error e) ∧
        b' = { b with outcome := some (some e) }
  | .time id millis, b' => id ∈ ids ∧ ∃ sim, b.phase id = .finished sim ∧
      b' = { b.set id (.timed sim) with execMillis := b.execMillis + millis.setWidth 64 }
  | .count id, b' => id ∈ ids ∧ ∃ sim, b.phase id = .timed sim ∧
      b' = { b.set id (.waiting sim) with completedFibers := b.completedFibers - 1 }
  | .exit, b' => (∃ sim, b.phase 1 = .waiting sim) ∧ b.completedFibers = 0 ∧
      b' = { b with outcome := some none }

/-- A step of the benchmark while it has not ended. -/
def TestbedStep (N : Numerics D R) (numFibers : BitVec 32) (b : Testbed D R) (act : Act)
    (b' : Testbed D R) : Prop :=
  b.outcome = none ∧ FiberStep N (fiberIds numFibers) b act b'

/-! ## The invariant -/

/-- What holds of a fiber in each phase: a fiber that left the loop has completed its calls. -/
def Phase.Ok (N : Numerics D R) (id : BitVec 32) : Phase D R → Prop
  | .created => True
  | .looping sim => Starting N id sim ∨
      ∃ s l, Running N id sim s l ∧ s.completeCalls.toNat < COMPLETE_CALLS
  | .finished sim | .timed sim | .waiting sim =>
      ∃ s l, Running N id sim s l ∧ s.completeCalls.toNat = COMPLETE_CALLS

/-- The fiber is not counted yet. -/
def Phase.active : Phase D R → Bool
  | .waiting _ => false
  | _ => true

/-- The fibers that are not counted yet. -/
def Testbed.active (b : Testbed D R) (ids : Finset ℕ) : Finset ℕ :=
  ids.filter fun id => (b.phase id).active

structure Testbed.Inv (N : Numerics D R) (ids : Finset ℕ) (b : Testbed D R) : Prop where
  phases : ∀ id ∈ ids, (b.phase id).Ok N (BitVec.ofNat 32 id)
  count : b.completedFibers.toNat = (b.active ids).card
  exited : b.outcome = some none → b.completedFibers = 0
  crashed : ∀ e, b.outcome = some (some e) → e.OfArith

variable {N : Numerics D R} {ids : Finset ℕ} {b b' : Testbed D R}

/-- The random numbers of the thread do not matter between two rounds. -/
theorem Phase.Ok.reseed {id : BitVec 32} {sim : Sim D R} (h : (Phase.looping sim).Ok N id) (r : R) :
    (Phase.looping { sim with r := r }).Ok N id := by
  obtain ⟨hstate, hevents, hqueue⟩ | ⟨s, l, ⟨hstate, hcell, hevents, hqueue⟩, hle⟩ := h
  · exact .inl ⟨hstate, hevents, hqueue⟩
  · exact .inr ⟨s, l, ⟨hstate, hcell, hevents, hqueue⟩, hle⟩

/-- A round of a fiber that is in its loop. -/
theorem Phase.Ok.round {id : BitVec 32} {sim : Sim D R} (h : (Phase.looping sim).Ok N id) :
    Ends Crash.OfArith (mainStep N id sim) fun st =>
      (if st.1 then Phase.finished st.2 else Phase.looping st.2).Ok N id := by
  obtain hstart | ⟨s, l, hrunning, hlt⟩ := h
  · refine hstart.step.mono ?_
    rintro ⟨last, sim'⟩ ⟨rfl, s, hrunning, hcalls, -⟩
    refine .inr ⟨s, [], hrunning, ?_⟩
    rw [show s.completeCalls = 0 from congrArg Calls.complete hcalls]
    decide
  · refine (hrunning.step hlt).mono ?_
    rintro ⟨last, sim'⟩ ⟨s', l', ev, hrunning', -, -, hle, hlast⟩
    dsimp only at hrunning' hlast ⊢
    split_ifs with hl
    · exact ⟨s', l', hrunning', hlast.mp hl⟩
    · refine .inr ⟨s', l', hrunning', lt_of_le_of_ne hle fun heq => hl (hlast.mpr heq)⟩

namespace Testbed

theorem mem_active {id : ℕ} : id ∈ b.active ids ↔ id ∈ ids ∧ (b.phase id).active = true :=
  Finset.mem_filter

@[simp] theorem set_self (id : ℕ) (p : Phase D R) : (b.set id p).phase id = p :=
  Function.update_self ..

theorem set_of_ne {id id' : ℕ} (h : id' ≠ id) (p : Phase D R) :
    (b.set id p).phase id' = b.phase id' := Function.update_of_ne h ..

/-- A fiber that moves on without being counted. -/
theorem active_set {id : ℕ} {p : Phase D R} (h : p.active = (b.phase id).active) :
    (b.set id p).active ids = b.active ids := by
  ext id'
  rw [mem_active, mem_active]
  by_cases hid : id' = id
  · rw [hid, set_self, h]
  · rw [set_of_ne hid]

/-- A fiber that is counted. -/
theorem active_erase {id : ℕ} {sim : Sim D R} :
    (b.set id (.waiting sim)).active ids = (b.active ids).erase id := by
  ext id'
  rw [Finset.mem_erase, mem_active, mem_active]
  by_cases hid : id' = id
  · rw [hid, set_self]
    simp [Phase.active]
  · rw [set_of_ne hid]
    exact ⟨fun h => ⟨hid, h⟩, fun h => h.2⟩

namespace Inv

variable {id : ℕ} {p : Phase D R}

theorem phases_set (h : b.Inv N ids) (hp : p.Ok N (BitVec.ofNat 32 id)) :
    ∀ id' ∈ ids, ((b.set id p).phase id').Ok N (BitVec.ofNat 32 id') := by
  intro id' hid'
  by_cases heq : id' = id
  · subst heq
    rw [set_self]
    exact hp
  · rw [set_of_ne heq]
    exact h.phases id' hid'

/-- A fiber moves on without being counted. -/
theorem move (h : b.Inv N ids) (hp : p.Ok N (BitVec.ofNat 32 id))
    (hact : p.active = (b.phase id).active) (millis : BitVec 64) :
    ({ b.set id p with execMillis := millis } : Testbed D R).Inv N ids where
  phases := h.phases_set hp
  count := by
    have hcount := h.count
    rw [← active_set hact] at hcount
    exact hcount
  exited := h.exited
  crashed := h.crashed

/-- The invariant of the benchmark. -/
theorem step (h : b.Inv N ids) {act : Act} (hone : b.outcome = none)
    (hs : FiberStep N ids b act b') : b'.Inv N ids := by
  cases act with
  | start id =>
    obtain ⟨hid, hphase, memory, r, sim, hinit, rfl⟩ := hs
    refine h.move (p := .looping sim) (.inl (mainInit_ends.value hinit)) ?_ b.execMillis
    rw [hphase]
    rfl
  | round id =>
    obtain ⟨hid, sim, r, last, sim', hphase, hround, rfl⟩ := hs
    have hok := h.phases id hid
    rw [hphase] at hok
    refine h.move ((hok.reseed r).round.value hround) ?_ b.execMillis
    rw [hphase]
    cases last <;> rfl
  | crash id =>
    obtain ⟨hid, e, hcase, rfl⟩ := hs
    refine ⟨h.phases, h.count, by rintro ⟨⟩, ?_⟩
    rintro e' ⟨⟩
    obtain ⟨-, memory, r, hinit⟩ | ⟨sim, r, hphase, hround⟩ := hcase
    · exact mainInit_ends.fault hinit
    · have hok := h.phases id hid
      rw [hphase] at hok
      exact (hok.reseed r).round.fault hround
  | time id millis =>
    obtain ⟨hid, sim, hphase, rfl⟩ := hs
    have hok := h.phases id hid
    rw [hphase] at hok
    refine h.move (p := .timed sim) hok ?_ _
    rw [hphase]
    rfl
  | count id =>
    obtain ⟨hid, sim, hphase, rfl⟩ := hs
    have hok := h.phases id hid
    have hmem : id ∈ b.active ids := by
      rw [mem_active, hphase]
      exact ⟨hid, rfl⟩
    have hcard := Finset.card_erase_add_one hmem
    rw [hphase] at hok
    refine ⟨h.phases_set (p := .waiting sim) hok, ?_, ?_, h.crashed⟩
    · show (b.completedFibers - 1).toNat = ((b.set id (.waiting sim)).active ids).card
      have hcount := h.count
      rw [active_erase]
      have hsub : (b.completedFibers - 1).toNat = b.completedFibers.toNat - 1 := by
        bv_omega
      omega
    · intro hexit
      cases hone.symm.trans hexit
  | exit =>
    obtain ⟨-, hzero, rfl⟩ := hs
    exact ⟨h.phases, h.count, fun _ => hzero, by rintro e ⟨⟩⟩

end Inv

theorem init_inv (N : Numerics D R) (numFibers : BitVec 32) :
    (init numFibers).Inv N (fiberIds numFibers) where
  phases id _ := trivial
  count := by
    have hall : (init numFibers : Testbed D R).active (fiberIds numFibers) = fiberIds numFibers :=
      Finset.filter_true_of_mem fun id _ => (rfl : Phase.active Phase.created = true)
    rw [hall, fiberIds, Nat.card_Icc]
    exact (Nat.add_sub_cancel ..).symm
  exited := by rintro ⟨⟩
  crashed := by rintro e ⟨⟩

/-- The invariant holds in every state. -/
theorem Inv.of_run {numFibers : BitVec 32} {acts : List Act}
    (hrun : Run (TestbedStep N numFibers) (init numFibers) acts b) :
    b.Inv N (fiberIds numFibers) :=
  hrun.invariant (init_inv N numFibers) fun _ _ _ h hs => h.step hs.1 hs.2

end Testbed

/-- The time that a step adds to `exec_millis`. -/
def Act.millis : Act → ℕ
  | .time _ millis => millis.toNat
  | _ => 0

theorem FiberStep.execMillis {act : Act} (hs : FiberStep N ids b act b') :
    b'.execMillis = b.execMillis + BitVec.ofNat 64 act.millis := by
  have hzero : b.execMillis = b.execMillis + BitVec.ofNat 64 0 := (BitVec.add_zero _).symm
  cases act with
  | start id =>
    obtain ⟨-, -, memory, r, sim, -, rfl⟩ := hs
    exact hzero
  | round id =>
    obtain ⟨-, sim, r, last, sim', -, -, rfl⟩ := hs
    exact hzero
  | crash id =>
    obtain ⟨-, e, -, rfl⟩ := hs
    exact hzero
  | time id millis =>
    obtain ⟨-, sim, -, rfl⟩ := hs
    show b.execMillis + millis.setWidth 64 = b.execMillis + BitVec.ofNat 64 millis.toNat
    congr 1
    bv_omega
  | count id =>
    obtain ⟨-, sim, -, rfl⟩ := hs
    exact hzero
  | exit =>
    obtain ⟨-, -, rfl⟩ := hs
    exact hzero

end AosvFibers.Benchmark
