import Mathlib.Tactic

/-!
# Runs of labelled transition systems

A transition system is a relation `R s l s'` between a state, a label and a
next state. `Run R s ls s'` is a finite run from `s` to `s'` whose steps carry
the labels `ls`, first step first. Runs grow at their end, so that an
induction over a run sees the step taken last.

* `Run.invariant`: what the start satisfies and every step preserves holds at
  the end of every run.
* `Run.trans`, `Run.head`, `Run.split`: runs compose and come apart.
* `Run.mono`: a run of a restricted system is a run of the system.
* `Run.exists_filter`: unwinding, a run seen by an observer is a run of the
  observer's own steps.
* `Run.functional`: a deterministic system does the same again.
-/

namespace AosvFibers.Lib

variable {σ ℓ : Type*}

/-- A run of the transition system `R` from `s`. -/
inductive Run (R : σ → ℓ → σ → Prop) (s : σ) : List ℓ → σ → Prop
  | nil : Run R s [] s
  | snoc {ls : List ℓ} {s' s'' : σ} {l : ℓ} :
      Run R s ls s' → R s' l s'' → Run R s (ls ++ [l]) s''

/-- `s'` is reached from `s` by some run. -/
def Reaches (R : σ → ℓ → σ → Prop) (s s' : σ) : Prop := ∃ ls, Run R s ls s'

namespace Run

variable {R : σ → ℓ → σ → Prop} {s s' s'' : σ} {ls ls' : List ℓ} {l : ℓ}

theorem single (h : R s l s') : Run R s [l] s' := by
  simpa using Run.snoc Run.nil h

theorem trans (h : Run R s ls s') (h' : Run R s' ls' s'') : Run R s (ls ++ ls') s'' := by
  induction h' with
  | nil => simpa using h
  | snoc _ hstep ih => simpa using ih.snoc hstep

theorem head (h : R s l s') (h' : Run R s' ls s'') : Run R s (l :: ls) s'' :=
  (single h).trans h'

/-- What a step function computes is a run. -/
theorem of_foldlM {f : σ → ℓ → Option σ} (h : ls.foldlM f s = some s') :
    Run (fun s l s' => f s l = some s') s ls s' := by
  induction ls generalizing s with
  | nil =>
    obtain rfl := Option.some.inj h
    exact .nil
  | cons l ls ih =>
    rw [List.foldlM_cons] at h
    obtain ⟨s₁, hs, hrest⟩ := Option.bind_eq_some_iff.mp h
    exact head hs (ih hrest)

/-- The invariant rule. -/
theorem invariant {I : σ → Prop} (h0 : I s) (hstep : ∀ s l s', I s → R s l s' → I s')
    (h : Run R s ls s') : I s' := by
  induction h with
  | nil => exact h0
  | snoc _ hs ih => exact hstep _ _ _ ih hs

theorem mono {Q : σ → ℓ → σ → Prop} (hRQ : ∀ s l s', R s l s' → Q s l s')
    (h : Run R s ls s') : Run Q s ls s' := by
  induction h with
  | nil => exact .nil
  | snoc _ hs ih => exact ih.snoc (hRQ _ _ _ hs)

/-- What every step's label satisfies, every label of a run satisfies. -/
theorem forall_label {p : ℓ → Prop} (hp : ∀ s l s', R s l s' → p l) (h : Run R s ls s') :
    ∀ l ∈ ls, p l := by
  induction h with
  | nil => simp
  | @snoc ls s₁ s₂ l _ hs ih =>
    intro m hm
    obtain hm | hm := List.mem_append.mp hm
    · exact ih m hm
    · obtain rfl := List.mem_singleton.mp hm
      exact hp _ _ _ hs

/-- The last step of a run with a last label. -/
theorem snoc_inv (h : Run R s (ls ++ [l]) s'') : ∃ s', Run R s ls s' ∧ R s' l s'' := by
  generalize hls : ls ++ [l] = ms at h
  cases h with
  | nil => simp at hls
  | snoc h' hs =>
    obtain ⟨rfl, hl⟩ := List.append_inj' hls rfl
    obtain rfl : l = _ := by simpa using hl
    exact ⟨_, h', hs⟩

theorem split (h : Run R s (ls ++ ls') s'') : ∃ s', Run R s ls s' ∧ Run R s' ls' s'' := by
  induction ls' using List.reverseRecOn generalizing s'' with
  | nil => exact ⟨s'', by simpa using h, .nil⟩
  | append_singleton ls' l ih =>
    rw [← List.append_assoc] at h
    obtain ⟨s₁, h₁, hs⟩ := h.snoc_inv
    obtain ⟨s', h₂, h₃⟩ := ih h₁
    exact ⟨s', h₂, h₃.snoc hs⟩

/-- Unwinding. `V s t` says that `s` and `t` look the same to an observer. If the
    steps that are not the observer's own keep this and the own steps are
    matched, the own steps of a run form a run. -/
theorem exists_filter {τ : Type*} {V : σ → τ → Prop} {Q : τ → ℓ → τ → Prop} {t : τ} (own : ℓ → Bool)
    (h0 : V s t) (hother : ∀ s l s' t, V s t → R s l s' → own l = false → V s' t)
    (hown : ∀ s l s' t, V s t → R s l s' → own l = true → ∃ t', Q t l t' ∧ V s' t')
    (h : Run R s ls s') : ∃ t', Run Q t (ls.filter own) t' ∧ V s' t' := by
  induction h with
  | nil => exact ⟨t, .nil, h0⟩
  | @snoc ls s₁ s₂ l _ hs ih =>
    obtain ⟨t₁, hrun, hv⟩ := ih
    rw [List.filter_append]
    cases hl : own l with
    | false => exact ⟨t₁, by simpa [hl] using hrun, hother _ _ _ _ hv hs hl⟩
    | true =>
      obtain ⟨t₂, hq, hv'⟩ := hown _ _ _ _ hv hs hl
      exact ⟨t₂, by simpa [hl] using hrun.snoc hq, hv'⟩

/-- Where the part `π` of a label determines the rest of it and the next state,
    it does so for whole runs. -/
theorem functional {ι : Type*} {π : ℓ → ι} {ms : List ℓ}
    (hdet : ∀ s l m s' s'', R s l s' → R s m s'' → π l = π m → l = m ∧ s' = s'')
    (h : Run R s ls s') (h' : Run R s ms s'') (hπ : ls.map π = ms.map π) : ls = ms ∧ s' = s'' := by
  induction h generalizing ms s'' with
  | nil =>
    obtain rfl : ms = [] := by simpa using hπ.symm
    generalize hnil : ([] : List ℓ) = es at h'
    cases h' with
    | nil => exact ⟨rfl, rfl⟩
    | snoc => simp at hnil
  | @snoc ls s₁ s₂ l _ hs ih =>
    cases h' with
    | nil => simp at hπ
    | @snoc ms t₁ _ m hrun hs' =>
      rw [List.map_append, List.map_append] at hπ
      obtain ⟨h1, h2⟩ := List.append_inj' hπ rfl
      obtain ⟨rfl, rfl⟩ := ih hrun h1
      obtain ⟨rfl, rfl⟩ := hdet _ _ _ _ _ hs hs' (by simpa using h2)
      exact ⟨rfl, rfl⟩

end Run

namespace Reaches

variable {R : σ → ℓ → σ → Prop} {s s' s'' : σ} {l : ℓ}

theorem refl (s : σ) : Reaches R s s := ⟨[], .nil⟩

theorem step (h : Reaches R s s') (hs : R s' l s'') : Reaches R s s'' := by
  obtain ⟨ls, hr⟩ := h
  exact ⟨ls ++ [l], hr.snoc hs⟩

theorem invariant {I : σ → Prop} (h0 : I s) (hstep : ∀ s l s', I s → R s l s' → I s')
    (h : Reaches R s s') : I s' := by
  obtain ⟨ls, hr⟩ := h
  exact hr.invariant h0 hstep

end Reaches

end AosvFibers.Lib
