import AosvFibers.Interleaved.Guard
import Mathlib.Data.FinEnum

/-!
# Attempts to activate a fiber and their counters

`do_SwitchToFiber` decides an attempt to activate a fiber at its trylock or at the
test of `attached_thread` after it (module/fibers.c:166), and counts it in the
fiber a statement or two later. `Pc.owed` is what a thread has decided and not
counted yet.

`Switching.ledger` says that every attempt of a switching thread is decided once
and counted once; `Attempted.step` adds it up over a run and over the threads.
-/

namespace AosvFibers

open Lib Stmt

/-- The counter of the successful or of the failed attempts goes up. -/
def Stmt.tallies (b : Bool) (f : Ptr) : Stmt → Bool
  | fiber x .countActivation => b && x == f
  | fiber x .countFailed => !b && x == f
  | _ => false

namespace Pc

/-- The statements a thread is in the middle of. -/
def pending : Pc → List Stmt
  | .run ss _ => ss
  | _ => []

/-- The outcome of an attempt to activate `f`, where the next statement decides
    one. -/
def decides (k : Kernel) (f : Ptr) : Pc → Option Bool
  | .trylock _ _ x => if x = f ∧ k.locked f then some false else none
  | .checkAttached _ _ x => if x = f then some (k.attached f).isNone else none
  | _ => none

/-- The next statement counts an attempt. -/
def tallies (b : Bool) (f : Ptr) (pc : Pc) : Bool := pc.upcoming.any (Stmt.tallies b f)

/-- How many attempts the thread has decided and not counted. -/
def owed (b : Bool) (f : Ptr) (pc : Pc) : ℕ := pc.pending.countP (Stmt.tallies b f)

end Pc

/-- The attempts to activate `f` in a run, by outcome. -/
def attempts (b : Bool) (f : Ptr) (ms : List Move) : ℕ :=
  ms.countP fun m => (m.pre.pc m.thread).decides m.pre.st f == some b

/-- The counted attempts in a run. -/
def counted (b : Bool) (f : Ptr) (ms : List Move) : ℕ :=
  ms.countP fun m => (m.pre.pc m.thread).tallies b f

variable {E : Env} {C : Crew} {k k' : Kernel} {f t : Ptr} {b : Bool} {s s' : Conf} {pc pc' : Pc}
  {ss : List Stmt} {ms : List Move} {m : Move} {u : PidT}

theorem attempts_snoc : attempts b f (ms ++ [m]) =
    attempts b f ms + if (m.pre.pc m.thread).decides m.pre.st f = some b then 1 else 0 := by
  simp [attempts, List.countP_append, List.countP_cons]

theorem counted_snoc : counted b f (ms ++ [m]) =
    counted b f ms + if (m.pre.pc m.thread).tallies b f then 1 else 0 := by
  simp [counted, List.countP_append, List.countP_cons]

/-- A statement of a list is counted when its turn comes. -/
theorem Pc.owed_cons {st : Stmt} {next : Pc} : (Pc.run (st :: ss) next).owed b f =
    (Pc.run ss next).owed b f + if (Pc.run (st :: ss) next).tallies b f then 1 else 0 := by
  rw [Pc.owed, Pc.pending, List.countP_cons]
  rfl

theorem Pc.owed_failed {x : Ptr} {next : Pc} :
    (Pc.run (assigns x [.countFailed]) next).owed b f = if x = f ∧ b = false then 1 else 0 := by
  by_cases hx : x = f <;> cases b <;> simp [Pc.owed, Pc.pending, assigns, Stmt.tallies, hx]

theorem Pc.owed_attach {x : Ptr} {next : Pc} :
    (Pc.run (switchAttach t x) next).owed b f = if x = f ∧ b = true then 1 else 0 := by
  by_cases hx : x = f <;> cases b <;>
    simp [Pc.owed, Pc.pending, switchAttach, assigns, Stmt.tallies, hx]

/-- One statement of a switching thread: it counts what it owes and owes what it
    decides. -/
theorem Switching.ledger {cur : Task} (h : Switching C k t pc ss)
    (hstep : pc.step E cur k = some (pc', k')) :
    pc'.owed b f + (if pc.tallies b f then 1 else 0) =
      pc.owed b f + if pc.decides k f = some b then 1 else 0 := by
  have hrun : ∀ {ss : List Stmt} {next : Pc}, next.pending = [] →
      (Pc.run ss next).step E cur k = some (pc', k') →
      pc'.owed b f + (if (Pc.run ss next).tallies b f then 1 else 0) = (Pc.run ss next).owed b f := by
    intro ss next hnext hstep
    cases ss with
    | nil =>
      obtain ⟨rfl, -⟩ : next = pc' ∧ k = k' := by simpa [Pc.step] using hstep
      rw [Pc.owed, hnext]
      rfl
    | cons st ss =>
      simp only [Pc.step, K.bind_eq_some, exec_eq_some] at hstep
      obtain ⟨_, k₁, -, hret⟩ := hstep
      obtain ⟨rfl, -⟩ : Pc.run ss next = pc' ∧ k₁ = k' := by simpa using hret
      exact Pc.owed_cons.symm
  cases h with
  | user | ret => simp [Pc.step] at hstep
  | findProcess id =>
    simp only [Pc.step, K.bind_eq_some] at hstep
    obtain ⟨x, k₁, -, hstep⟩ := hstep
    cases x <;> simp at hstep <;> obtain ⟨rfl, -⟩ := hstep <;> rfl
  | findThread id =>
    simp only [Pc.step, K.bind_eq_some] at hstep
    obtain ⟨x, k₁, -, hstep⟩ := hstep
    cases x <;> simp [Call.enter] at hstep <;> obtain ⟨rfl, -⟩ := hstep <;> rfl
  | findFiber id =>
    simp only [Pc.step, K.bind_eq_some] at hstep
    obtain ⟨x, k₁, -, hstep⟩ := hstep
    cases x <;> simp at hstep <;> obtain ⟨rfl, -⟩ := hstep <;> rfl
  | trylock id x hx =>
    simp only [Pc.step, K.bind_eq_some, spinTrylock, Option.map_eq_some_iff] at hstep
    obtain ⟨l, k₁, ⟨r, hr, hl⟩, hstep⟩ := hstep
    obtain ⟨rfl, -⟩ : (!r.fiberLock) = l ∧ _ = k₁ := by simpa using hl
    have hlocked : k.locked x = r.fiberLock := by simp [Kernel.locked, hr]
    have hquiet : (Pc.trylock id t x).tallies b f = false ∧ (Pc.trylock id t x).owed b f = 0 := ⟨rfl, rfl⟩
    cases hl : r.fiberLock with
    | false =>
      obtain ⟨rfl, -⟩ : Pc.checkAttached id t x = pc' ∧ k₁ = k' := by simpa [hl] using hstep
      have hnone : (Pc.trylock id t x).decides k f = none := by
        rw [Pc.decides, if_neg]
        rintro ⟨rfl, h⟩
        rw [hlocked, hl] at h
        cases h
      rw [hnone]
      rfl
    | true =>
      obtain ⟨rfl, -⟩ :
          Pc.run (assigns x [.countFailed]) (.ret (.switchTo id) (-1)) = pc' ∧ k₁ = k' := by
        simpa [hl] using hstep
      rw [Pc.owed_failed, hquiet.1, hquiet.2, Pc.decides]
      by_cases hx : x = f
      · rw [← hx, hlocked, hl]
        cases b <;> simp
      · simp [hx]
  | failed id x hx => simpa [Pc.decides] using hrun rfl hstep
  | checkAttached id x prev =>
    simp only [Pc.step, K.bind_eq_some, readFiber_eq_some] at hstep
    obtain ⟨r, k₁, ⟨hr, rfl⟩, hstep⟩ := hstep
    have hatt : k₁.attached x = r.attachedThread := by simp [Kernel.attached, hr]
    have hquiet : (Pc.checkAttached id t x).tallies b f = false ∧
        (Pc.checkAttached id t x).owed b f = 0 := ⟨rfl, rfl⟩
    rw [hquiet.1, hquiet.2, Pc.decides]
    cases ha : r.attachedThread with
    | none =>
      obtain ⟨rfl, -⟩ : Pc.run (switchAttach t x) (.readPrev id t x) = pc' ∧ k₁ = k' := by
        simpa [ha] using hstep
      rw [Pc.owed_attach]
      by_cases hx : x = f
      · rw [← hx, hatt, ha]
        cases b <;> simp
      · simp [hx]
    | some t' =>
      obtain ⟨rfl, -⟩ :
          Pc.run (assigns x [.countFailed]) (.ret (.switchTo id) (-1)) = pc' ∧ k₁ = k' := by
        simpa [ha] using hstep
      rw [Pc.owed_failed]
      by_cases hx : x = f
      · rw [← hx, hatt, ha]
        cases b <;> simp
      · simp [hx]
  | attaching id x prev ss => simpa [Pc.decides] using hrun rfl hstep
  | readPrev id x prev =>
    simp only [Pc.step, K.bind_eq_some] at hstep
    obtain ⟨rt, k₁, -, y, k₂, -, hstep⟩ := hstep
    obtain ⟨rfl, -⟩ : Pc.run (switchTail t x y) (.ret (.switchTo id) 0) = pc' ∧ k₂ = k' := by
      simpa using hstep
    simp [Pc.owed, Pc.pending, Pc.tallies, Pc.upcoming, Pc.decides, switchTail, assigns, Stmt.tallies]
  | writing ss id v => simpa [Pc.decides] using hrun rfl hstep

/-- Any step of a thread other than the maker. -/
theorem Guard.ledger {P : PidT → List Stmt} {site : Option Ptr} {act : Act} (h : Guard E C s P site)
    (hu : u ≠ C.maker) (hstep : CStep E C.tgid s (u, act) s') :
    (s'.pc u).owed b f + (if (s.pc u).tallies b f then 1 else 0) =
      (s.pc u).owed b f + if (s.pc u).decides s.st f = some b then 1 else 0 := by
  cases act with
  | stmt =>
    obtain ⟨pc', k', hs, rfl⟩ := hstep
    replace hs : (s.pc u).step E ⟨C.tgid, u⟩ s.st = some (pc', k') := hs
    cases hreg : C.reg u with
    | none =>
      rw [(h.unreg u hu hreg).1] at hs
      cases hs
    | some t => simpa using (h.known u t hu hreg).ledger hs
  | start c =>
    obtain ⟨hpc, rfl⟩ := hstep
    replace hpc : s.pc u = .user := hpc
    rw [Conf.goto_pc, if_pos rfl, hpc]
    cases c <;> rfl
  | finish c v =>
    obtain ⟨hpc, rfl⟩ := hstep
    replace hpc : s.pc u = .ret c v := hpc
    rw [Conf.goto_pc, if_pos rfl, hpc]
    split <;> rfl
  | user cpu =>
    obtain ⟨hpc, rfl⟩ := hstep
    replace hpc : s.pc u = .user := hpc
    rw [Conf.goto_pc, if_pos rfl, hpc]
    rfl

/-! ## Over a run -/

/-- Every attempt of the run is counted or owed by a thread. -/
def Attempted (b : Bool) (f : Ptr) (ms : List Move) (s : Conf) : Prop :=
  attempts b f ms = counted b f ms + ∑ u, (s.pc u).owed b f

/-- A step of one thread. -/
theorem Attempted.step (h : Attempted b f ms m.pre)
    (hother : ∀ v, v ≠ m.thread → s'.pc v = m.pre.pc v)
    (hself : (s'.pc m.thread).owed b f + (if (m.pre.pc m.thread).tallies b f then 1 else 0) =
      (m.pre.pc m.thread).owed b f +
        if (m.pre.pc m.thread).decides m.pre.st f = some b then 1 else 0) :
    Attempted b f (ms ++ [m]) s' := by
  have hbefore := Finset.add_sum_erase Finset.univ (fun v => (m.pre.pc v).owed b f)
    (Finset.mem_univ m.thread)
  have hafter := Finset.add_sum_erase Finset.univ (fun v => (s'.pc v).owed b f)
    (Finset.mem_univ m.thread)
  have hsame : ∑ v ∈ Finset.univ.erase m.thread, (s'.pc v).owed b f =
      ∑ v ∈ Finset.univ.erase m.thread, (m.pre.pc v).owed b f := by
    refine Finset.sum_congr rfl ?_
    intro v hv
    rw [hother v (Finset.ne_of_mem_erase hv)]
  unfold Attempted at h ⊢
  rw [attempts_snoc, counted_snoc]
  omega

/-- Where no thread owes anything, every attempt is counted. -/
theorem Attempted.eq_counted (h : Attempted b f ms s) (hnone : ∀ u, (s.pc u).owed b f = 0) :
    attempts b f ms = counted b f ms := by
  rw [h, Finset.sum_eq_zero fun u _ => hnone u]
  rfl

end AosvFibers
