import AosvFibers.Benchmark.UltSafety

/-!
# User-level threads after the last fiber has completed

The two tests of `completed_fibers` in `ult_switch_to`, whose bodies were calls of `printf`, guard
the statements behind them. When `completed_fibers` is zero, `ult_switch_to` locks the fiber it is
given and returns.

Main result: `ult_stuck`, from then on a fiber that no thread is on is never run again.
-/

namespace AosvFibers.Benchmark.Ult

open Lib

/-- The thread is not past the second read of `completed_fibers`, and does not create a fiber. -/
def Thread.settled (th : Thread) : Bool :=
  match th.pc with
  | .outside | .allocated _ | .lockedSelf _ | .savedSelf _ => true
  | .code | .tried _ _ | .chosen _ _ => true
  | _ => false

/-- The fiber that the thread is on, or makes its own. -/
def Thread.mine (th : Thread) : Option ℕ :=
  match th.pc with
  | .outside => none
  | .allocated f | .lockedSelf f | .savedSelf f => some f
  | _ => some th.on

/-- `completed_fibers` is zero, and no switch is under way. -/
structure Stuck (s : State) : Prop where
  zero : s.completed = 0
  settled : ∀ t, (s.thread t).settled = true

theorem mine_of_runs {th : Thread} {f : ℕ} (h : th.runs = some f) : th.mine = some f := by
  unfold Thread.runs at h
  unfold Thread.mine
  cases hpc : th.pc <;> simp_all

/-- What a step that takes the thread `t` to `th` does to a benchmark that is stuck: the thread
    stays on its fiber, or makes a new one its own, and nothing is unlocked. -/
structure StuckStep (s s' : State) (t : ℕ) : Prop where
  zero : s'.completed = 0
  next : s.next ≤ s'.next
  other : ∀ u, u ≠ t → s'.thread u = s.thread u
  settled : (s'.thread t).settled = true
  mine : (s'.thread t).mine = (s.thread t).mine ∨ (s'.thread t).mine = some s.next
  locked : ∀ f, s.running f = true → s'.running f = true

theorem Stuck.put {s s' : State} {t : ℕ} {th : Thread} (h : Stuck s)
    (hthread : s'.thread = Function.update s.thread t th) (hzero : s'.completed = s.completed)
    (hnext : s.next ≤ s'.next) (hsettled : th.settled = true)
    (hmine : th.mine = (s.thread t).mine ∨ th.mine = some s.next)
    (hlocked : ∀ f, s.running f = true → s'.running f = true) : StuckStep s s' t := by
  have hself : s'.thread t = th := by
    rw [hthread, Function.update_self]
  refine ⟨hzero.trans h.zero, hnext, fun u hu => ?_, ?_, ?_, hlocked⟩
  · rw [hthread, Function.update_of_ne hu]
  · rw [hself]
    exact hsettled
  · rw [hself]
    exact hmine

theorem lock_mono {s : State} {f g : ℕ} (h : s.running g = true) : (s.lock f).running g = true := by
  by_cases heq : g = f
  · subst heq
    exact Function.update_self ..
  · exact (Function.update_of_ne heq ..).trans h

theorem Stuck.go {s s' : State} {t : ℕ} (h : Stuck s) (hg : Ult.go s t = some s') :
    StuckStep s s' t := by
  have hset := h.settled t
  have hzero := h.zero
  unfold Ult.go at hg
  dsimp only at hg
  cases hpc : (s.thread t).pc with
  | allocated f =>
    simp only [hpc] at hg
    split_ifs at hg with hrun
    obtain rfl := Option.some.inj hg
    refine h.put rfl rfl le_rfl rfl (.inl ?_) fun g hg => lock_mono hg
    simp [Thread.mine, hpc]
  | lockedSelf f =>
    simp only [hpc] at hg
    obtain rfl := Option.some.inj hg
    refine h.put rfl rfl le_rfl rfl (.inl ?_) fun g hg => hg
    simp [Thread.mine, hpc]
  | savedSelf f =>
    simp only [hpc] at hg
    obtain rfl := Option.some.inj hg
    refine h.put rfl rfl le_rfl rfl (.inl ?_) fun g hg => hg
    simp [Thread.mine, hpc]
  | tried old new =>
    simp only [hpc] at hg
    obtain rfl := Option.some.inj hg
    refine h.put rfl rfl le_rfl rfl (.inl ?_) fun g hg => hg
    simp [Thread.mine, hpc]
  | chosen old new =>
    simp only [hpc, hzero, lt_self_iff_false, if_false] at hg
    obtain rfl := Option.some.inj hg
    refine h.put rfl rfl le_rfl rfl (.inl ?_) fun g hg => hg
    simp [Thread.mine, hpc]
  | outside => simp [hpc] at hg
  | code => simp [hpc] at hg
  | wild => simp [hpc] at hg
  | switching old new => simp [Thread.settled, hpc] at hset
  | saved old new => simp [Thread.settled, hpc] at hset
  | released old new => simp [Thread.settled, hpc] at hset
  | created n => simp [Thread.settled, hpc] at hset
  | lockedNew n => simp [Thread.settled, hpc] at hset
  | savedOld n => simp [Thread.settled, hpc] at hset
  | releasedOld n => simp [Thread.settled, hpc] at hset
  | boot n => simp [Thread.settled, hpc] at hset
  | booted n => simp [Thread.settled, hpc] at hset
  | savedNew n => simp [Thread.settled, hpc] at hset
  | releasedNew n => simp [Thread.settled, hpc] at hset

theorem Stuck.step {s s' : State} {t : ℕ} {act : Act} (h : Stuck s)
    (hstep : Ult.step s t act = some s') : StuckStep s s' t := by
  have hsame : StuckStep s s t :=
    ⟨h.zero, le_rfl, fun _ _ => rfl, h.settled t, .inl rfl, fun _ hg => hg⟩
  have hzero := h.zero
  unfold Ult.step at hstep
  cases act with
  | convert =>
    dsimp only at hstep
    split_ifs at hstep with hpc
    obtain rfl := Option.some.inj hstep
    exact h.put rfl rfl (Nat.le_succ _) rfl (.inr rfl) fun g hg => hg
  | go => exact h.go hstep
  | work =>
    dsimp only at hstep
    split_ifs at hstep with hpc
    obtain rfl := Option.some.inj hstep
    refine h.put rfl rfl le_rfl ?_ (.inl ?_) fun g hg => hg
    · simp [Thread.settled, hpc]
    · simp [Thread.mine, hpc]
  | count =>
    dsimp only at hstep
    rw [if_neg (by omega)] at hstep
    cases hstep
  | switchTo f =>
    cases f with
    | none =>
      dsimp only at hstep
      split_ifs at hstep with hpc
      obtain rfl := Option.some.inj hstep
      exact hsame
    | some f =>
      dsimp only at hstep
      split_ifs at hstep with hpc hrun
      · obtain rfl := Option.some.inj hstep
        exact hsame
      · obtain rfl := Option.some.inj hstep
        refine h.put rfl rfl le_rfl rfl (.inl ?_) fun g hg => lock_mono hg
        simp [Thread.mine, hpc]
  | creat =>
    dsimp only at hstep
    rw [if_neg (by omega)] at hstep
    cases hstep

/-- Once `completed_fibers` is zero and no switch is under way, `ult_switch_to` only locks fibers: a
    fiber that no thread is on is never run again, and no fiber is unlocked any more. -/
theorem ult_stuck (s s' : State) (ls : List (ℕ × Act)) (f : ℕ) (h : Stuck s) (hf : f < s.next)
    (hnone : ∀ t, (s.thread t).mine ≠ some f) (hrun : Run UltStep s ls s') :
    (∀ t, (s'.thread t).runs ≠ some f) ∧ ∀ g, s.running g = true → s'.running g = true := by
  have hall : Stuck s' ∧ f < s'.next ∧ (∀ t, (s'.thread t).mine ≠ some f) ∧
      ∀ g, s.running g = true → s'.running g = true := by
    refine hrun.invariant (I := fun s' => Stuck s' ∧ f < s'.next ∧
      (∀ t, (s'.thread t).mine ≠ some f) ∧ ∀ g, s.running g = true → s'.running g = true)
      ⟨h, hf, hnone, fun _ hg => hg⟩ ?_
    rintro s₁ ⟨t, act⟩ s₂ ⟨hstuck, hlt, hmine, hlocked⟩ hs
    have hstep := hstuck.step (show Ult.step s₁ t act = some s₂ from hs)
    refine ⟨⟨hstep.zero, fun u => ?_⟩, lt_of_lt_of_le hlt hstep.next, fun u => ?_,
      fun g hg => hstep.locked g (hlocked g hg)⟩
    · by_cases hu : u = t
      · exact hu ▸ hstep.settled
      · rw [hstep.other u hu]
        exact hstuck.settled u
    · by_cases hu : u = t
      · subst hu
        obtain heq | heq := hstep.mine
        · rw [heq]
          exact hmine u
        · rw [heq]
          intro hnext
          exact absurd hlt (Option.some.inj hnext ▸ lt_irrefl _)
      · rw [hstep.other u hu]
        exact hmine u
  exact ⟨fun t hr => hall.2.2.1 t (mine_of_runs hr), hall.2.2.2⟩

/-- The fiber 1 is created, but the only fiber to complete completes before it is switched to. -/
theorem ult_stuck_one : ∃ s : State, s.known 1 = true ∧ s.running 1 = true ∧
    ∀ t, (s.thread t).runs ≠ some 1 := by
  have hsteps : (steps (started ++ [(0, .count)]) (init 1)).bind (fun s =>
      (steps [(0, .switchTo (some 1)), (0, .go), (0, .go)] s).map fun s' =>
        (s.completed, s.next, (s.thread 0).settled, (s.thread 0).mine, s'.known 1, s'.running 1)) =
      some (0, 2, true, some 0, true, true) := by decide
  obtain ⟨s, hs, hrest⟩ := Option.bind_eq_some_iff.mp hsteps
  obtain ⟨s', hs', hvals⟩ := Option.map_eq_some_iff.mp hrest
  simp only [Prod.mk.injEq] at hvals
  obtain ⟨hzero, hnext, hsettled, hmine, hknown, hrun⟩ := hvals
  have hother : ∀ t, t ≠ 0 → s.thread t = (init 1).thread t := fun t ht =>
    run_other (run_steps hs) fun l hl => by
      have hall : ∀ l ∈ started ++ [(0, .count)], l.1 = 0 := by decide
      exact fun heq => ht (heq.trans (hall l hl))
  have hstuck : Stuck s := by
    refine ⟨hzero, fun t => ?_⟩
    by_cases ht : t = 0
    · exact ht ▸ hsettled
    · rw [hother t ht]
      rfl
  have hnone : ∀ t, (s.thread t).mine ≠ some 1 := by
    intro t
    by_cases ht : t = 0
    · rw [ht, hmine]
      decide
    · rw [hother t ht]
      show (none : Option ℕ) ≠ some 1
      decide
  exact ⟨s', hknown, hrun, (ult_stuck s s' _ 1 hstuck (by omega) hnone (run_steps hs')).1⟩

end AosvFibers.Benchmark.Ult
