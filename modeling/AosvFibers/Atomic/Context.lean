import AosvFibers.Atomic.Ownership

/-!
# Saved contexts

What `do_SwitchToFiber` loads into a thread is what the resumed fiber was left
with. The proof compares the records with the history of the run: `Event.saves`
reads off an event, from the state before it, the context in which it left a
fiber behind, and `lastSaved` is the last such context of a whole history.

Result: `context_fidelity`, over every history from the empty process table.
The step lemma is `Outcome.saves`: a fiber nobody runs either was left behind
by the last event or had the same context before it.
-/

namespace AosvFibers

open Lib

variable {E : Env} {cur : Task} {k k' : Kernel}

/-! ## Histories -/

/-- One step of a run together with the states around it. -/
structure Event where
  pre : Kernel
  op : Op
  result : ℤ
  post : Kernel

/-- `e` is what happened between `k` and `k'`. -/
def Observed (E : Env) (k : Kernel) (e : Event) (k' : Kernel) : Prop :=
  e.pre = k ∧ e.post = k' ∧ Step E k (e.op, e.result) k'

/-- The events of a run from the empty process table to `k`. -/
abbrev History (E : Env) (cpu : Task → Cpu) (es : List Event) (k : Kernel) : Prop :=
  Run (Observed E) (Kernel.boot cpu) es k

theorem History.reachable {cpu : Task → Cpu} {es : List Event} (h : History E cpu es k) :
    Reachable E k := by
  induction h with
  | nil => exact .boot cpu
  | snoc _ hs ih => exact ih.step hs.2.2

theorem History.step {cpu : Task → Cpu} {es : List Event} {o : Op} {res : ℤ}
    (h : History E cpu es k) (hs : o.run E k = some (res, k')) :
    History E cpu (es ++ [⟨k, o, res, k'⟩]) k' :=
  h.snoc ⟨rfl, rfl, hs⟩

/-- The registers and the FXSAVE area of a thread. -/
@[ext] structure Context where
  regs : PtRegs
  fxregs : FxregsState

/-- What the thread with CPU state `c` runs in. -/
def Cpu.context (c : Cpu) : Context := ⟨c.regs, c.fxregs⟩

/-- The context saved in a fiber. -/
def Fiber.context (r : Fiber) : Context := ⟨r.registers, r.fpu⟩

/-- The context a new fiber is to start in when a thread with context `c`
    creates it. -/
def Context.starting (c : Context) (stackPointer stackSize fiberFunction parameters : Word) :
    Context :=
  { c with regs := { c.regs with
      ip := fiberFunction
      di := parameters
      sp := stackPointer + stackSize - 8
      bp := stackPointer + stackSize - 8 } }

/-- The context in which an event left the fiber `f` behind: the thread running
    it switched away or died, or the fiber was created. Only what the event
    was and the state before it count, not what the code saved. -/
def Event.saves (E : Env) (f : Ptr) (e : Event) : Option Context :=
  match e.op with
  | .call cur (.switchTo _) =>
    if e.result = 0 ∧ e.pre.running E cur = some f then some (e.pre.cpu cur).context else none
  | .call cur .exit =>
    if e.pre.running E cur = some f then some (e.pre.cpu cur).context else none
  | .call cur (.create sp sz fn arg) =>
    if (e.pre.fiber f).isNone ∧ (e.post.fiber f).isSome then
      some ((e.pre.cpu cur).context.starting sp sz fn arg)
    else none
  | _ => none

/-- The context in which `f` was last left behind. -/
def lastSaved (E : Env) (f : Ptr) (es : List Event) : Option Context :=
  es.foldl (fun acc e => (e.saves E f).or acc) none

theorem lastSaved_snoc (f : Ptr) (es : List Event) (e : Event) :
    lastSaved E f (es ++ [e]) = (e.saves E f).or (lastSaved E f es) := by
  simp [lastSaved]

/-! ## What one step does to a fiber nobody runs -/

theorem createdFiber_context (f : Ptr) (cpu : Cpu) (parent : Ptr) (sp sz fn arg : Word)
    (id : PidT) : (createdFiber E cur f cpu parent sp sz fn arg id).context =
      cpu.context.starting sp sz fn arg := by
  have hsz : BitVec.ofInt 64 (sz.toNat : ℤ) = sz := by simp
  simp [createdFiber, initializedFiber, freshFiber, Fiber.context, Cpu.context, Context.starting, hsz]

theorem Outcome.saves {op : Op} {res : ℤ} {x : Ptr} {r' : Fiber} (hk : Shape E k)
    (h : Outcome E k op res k') (hx : k'.fiber x = some r') (hfree : r'.attachedThread = none) :
    Event.saves E x ⟨k, op, res, k'⟩ = some r'.context ∨
      Event.saves E x ⟨k, op, res, k'⟩ = none ∧
        ∃ r, k.fiber x = some r ∧ r.attachedThread = none ∧ r.context = r'.context := by
  have hchange := h.fiberChange hx
  cases hchange with
  | same hold hidle =>
    refine .inr ⟨?_, r', hold, hfree, rfl⟩
    rcases op with ⟨cur, c⟩ | cur | ⟨cur, cpu⟩
    · cases c with
      | switchTo id =>
        by_cases hres : res = 0
        · simpa [Event.saves, hres, Op.touched, Call.touches] using hidle
        · simp [Event.saves, hres]
      | exit => simpa [Event.saves, Op.touched, Call.touches] using hidle
      | create => simp [Event.saves, hold]
      | _ => rfl
    · rfl
    · rfl
  | bumped hold => exact .inr ⟨by simp [Event.saves], _, hold, hfree, rfl⟩
  | left hr hold =>
    exact .inl (by simp [Event.saves, hr, leftFiber, Fiber.context, Cpu.context])
  | taken => simp [takenFiber] at hfree
  | @fls cur c r hr hold hc =>
    obtain ⟨bitmap, values, he⟩ := flsEffect_eq c r
    rw [he] at hfree ⊢
    exact .inr ⟨by cases c <;> simp_all [Event.saves, Call.isFls], r, hold, hfree, rfl⟩
  | orphaned hr hold =>
    exact .inl (by simp [Event.saves, hr, orphanedFiber, Fiber.context, Cpu.context])
  | converted => simp [convertedFiber] at hfree
  | created hnew =>
    refine .inl ?_
    simp [Event.saves, hk.fresh_fiber_none hnew, hx, createdFiber_context]

/-! ## Whole histories -/

/-- Along every history, a fiber nobody runs holds the context it was last
    left behind in. -/
theorem History.lastSaved_eq {cpu : Task → Cpu} {es : List Event} {x : Ptr} {r : Fiber}
    (h : History E cpu es k) (hx : k.fiber x = some r) (hfree : r.attachedThread = none) :
    lastSaved E x es = some r.context := by
  induction h generalizing r with
  | nil => simp [Kernel.boot] at hx
  | @snoc es k₁ k₂ e hist hs ih =>
    obtain ⟨rfl, rfl, hrun⟩ := hs
    have hshape := (History.reachable hist).inv.toShape
    rw [lastSaved_snoc]
    rcases Outcome.saves hshape (hshape.outcome_of_run hrun) hx hfree with hsave | ⟨hnone, r₀, h1, h2, h3⟩
    · simp [hsave]
    · rw [hnone, ih h1 h2, h3]
      rfl

theorem switched_running {ep tp f g : Ptr} {p : Process} {t : Thread} {r rg : Fiber}
    (hr : Running E k cur ep p tp t f r) :
    (k.switched cur tp g f t rg r).running E cur = some g := by
  have hthread : (k.switched cur tp g f t rg r).threadOf E p cur.pid = some (some tp) := by
    rw [← hr.thread]
    refine HashTable.find_congr fun x _ => ?_
    by_cases hx : x = tp
    · subst hx; simp [Kernel.threadKey, Kernel.switched, hr.thread_eq]
    · simp [Kernel.threadKey, Kernel.switched, hx]
  have hprocess : (k.switched cur tp g f t rg r).processOf E cur.tgid = some (some ep) := hr.process
  have hrec : (k.switched cur tp g f t rg r).process ep = some p := hr.process_eq
  have hsel : (k.switched cur tp g f t rg r).selected tp = some g := by
    simp [Kernel.selected, Kernel.switched]
  simp [Kernel.running, hprocess, hrec, hthread, hsel]

/-- A successful switch resumes a fiber in exactly the context in which that
    fiber was last left behind. -/
theorem context_fidelity {cpu : Task → Cpu} {es : List Event} {id : PidT}
    (h : History E cpu es k) (hs : Call.run E cur (.switchTo id) k = some (0, k')) :
    ∃ f, k'.running E cur = some f ∧ lastSaved E f es = some (k'.cpu cur).context := by
  have hshape := h.reachable.inv.toShape
  have hout : Outcome E k (.call cur (.switchTo id)) 0 k' := hshape.outcome_of_run hs
  generalize hzero : (0 : ℤ) = res at hout
  cases hout with
  | refused | switchMissing | switchBusy => simp [Call.refused] at hzero
  | fls _ hc => simp [Call.isFls] at hc
  | @switched _ ep tp f g p t r rg _ hr hid hg hl ha hne =>
    refine ⟨g, switched_running hr, ?_⟩
    rw [h.lastSaved_eq hg ha]
    simp [Kernel.switched, Cpu.context, Fiber.context]

/-- A converted thread creates a fiber and switches to it. -/
theorem context_fidelity_firstFiber : ∃ es k k' f,
    History (.linux 240) (fun _ => .zero) es k ∧
      Call.run (.linux 240) ⟨7, 7⟩ (.switchTo 2) k = some (0, k') ∧
      k'.running (.linux 240) ⟨7, 7⟩ = some f ∧
      lastSaved (.linux 240) f es = some (k'.cpu ⟨7, 7⟩).context := by
  have hshape := (Reachable.firstConverted (.linux 240) ⟨7, 7⟩ fun _ => .zero).inv.toShape
  have hcaller := firstConverted_caller (.linux 240) ⟨7, 7⟩ fun _ => .zero
  obtain ⟨f, r, hr⟩ := hshape.running_of_caller hcaller
  obtain ⟨k', hk'⟩ := created_switchTo 4096 64 17 5 hshape hr
  have hconv : (Op.call ⟨7, 7⟩ .convert).run (.linux 240) (Kernel.boot fun _ => .zero) = _ :=
    firstConverted_run (.linux 240) ⟨7, 7⟩ fun _ => .zero
  have hcreate : (Op.call ⟨7, 7⟩ (.create 4096 64 17 5)).run (.linux 240) _ = _ :=
    doCreateFiber_eq hcaller 4096 64 17 5
  have hist := (History.step (.nil) hconv).step hcreate
  obtain ⟨g, hg, hsaved⟩ := context_fidelity hist hk'
  exact ⟨_, _, k', g, hist, hk', hg, hsaved⟩

end AosvFibers
