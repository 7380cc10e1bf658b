import AosvFibers.Interleaved.Pending

/-!
# Fibers under their locks

Converted threads of one process switch, statement by statement in any order,
while one more thread, the maker, is adding a fiber to the process. This file
has what both kinds of maker, `do_ConvertThreadToFiber` and `do_CreateFiber`,
need to know about the switching threads:

* `Switching`: what is known about a switching thread at each place, with the
  statements it has committed itself to by a successful trylock;
* `Did`: what one statement of such a thread can do (`Switching.did`);
* `Guard`: a fiber that a thread runs or is committed to is locked, and no other
  thread runs it or is committed to it. `Guard.did` and `Guard.make` say that the
  statements of the switching threads and of the maker keep it that way.
-/

namespace AosvFibers

open Lib Stmt

/-! ## Discipline of pending statements -/

/-- The attachment after a write to a fiber attached to `o`. -/
def Assign.attaches (o : Option Ptr) : Assign → Option Ptr
  | .attach t => t
  | _ => o

theorem Assign.run_attachedThread (a : Assign) (cur : Task) (cpu : Cpu) (r : Fiber) :
    (a.run cur cpu r).attachedThread = a.attaches r.attachedThread := by
  cases a <;> rfl

namespace Stmt

variable {E : Env} {cur : Task} {k k' : Kernel} {ss : List Stmt} {s : Stmt} {t : Ptr}

/-- Run from `k` by the thread with record `t`, the statements unlock a fiber only
    when it is attached to nobody, not run by the thread and not mentioned any
    more, and select only fibers that are mentioned later. -/
def Sound (E : Env) (cur : Task) (t : Ptr) : List Stmt → Kernel → Prop
  | [], _ => True
  | s :: ss, k =>
    (∀ x, s = fiber x .unlock → k.attached x = none ∧ k.selected t ≠ some x ∧ ¬ mentions ss x) ∧
    (∀ t' f, s = select t' f → t' = t ∧ mentions ss f) ∧ Sound E cur t ss (s.apply E cur k)

/-- The field `attached_thread` of a record. -/
def attachment (k : Kernel) (x : Ptr) : Option (Option Ptr) := (k.fiber x).map Fiber.attachedThread

theorem attached_eq (k : Kernel) (x : Ptr) : k.attached x = (attachment k x).join := by
  rw [attachment, Kernel.attached]
  cases k.fiber x <;> rfl

theorem attachment_apply (hs : s.isPrivate)
    (h : ∀ x, s.mention = some x → attachment k' x = attachment k x) {x : Ptr}
    (hx : attachment k' x = attachment k x) :
    attachment (s.apply E cur k') x = attachment (s.apply E cur k) x := by
  cases s with
  | fiber f a =>
    by_cases hxf : x = f
    · subst hxf
      have hmap : ∀ k₁ : Kernel, attachment ((Stmt.fiber x a).apply E cur k₁) x =
          (attachment k₁ x).map a.attaches := fun k₁ => by
        cases hk : k₁.fiber x <;> simp [attachment, Stmt.apply, hk, Assign.run_attachedThread]
      rw [hmap, hmap, hx]
    · simpa [attachment, Stmt.apply, hxf] using hx
  | loadRegs f | loadFx f =>
    simp only [attachment] at hx ⊢
    cases hf : k.fiber f <;> cases hf' : k'.fiber f <;> simpa [Stmt.apply, hf, hf'] using hx
  | select => exact hx
  | _ => simp [isPrivate] at hs

/-- `Sound` looks at the attachments of the fibers mentioned and at the thread. -/
theorem Sound.congr (hs : AllPrivate ss) (h : Sound E cur t ss k) (ht : k'.thread t = k.thread t)
    (ha : ∀ x, mentions ss x → attachment k' x = attachment k x) : Sound E cur t ss k' := by
  induction ss generalizing k k' with
  | nil => trivial
  | cons s ss ih =>
    obtain ⟨h1, h2, h3⟩ := h
    have hhead : ∀ x, s.mention = some x → attachment k' x = attachment k x := fun x hx =>
      ha x (mentions_cons.mpr (.inl hx))
    refine ⟨fun x hx => ?_, h2, ih hs.tail h3 ?_ fun x hx => ?_⟩
    · obtain ⟨ha', hsel, hm⟩ := h1 x hx
      refine ⟨?_, by rwa [Kernel.selected, ht, ← Kernel.selected], hm⟩
      rw [attached_eq, hhead x (by simp [hx, mention]), ← attached_eq, ha']
    · have hone : AllPrivate [s] := by simpa [AllPrivate] using hs.head
      exact applyAll_thread_congr hone ht
    · exact attachment_apply hs.head hhead (ha x (mentions_cons.mpr (.inr hx)))

end Stmt

/-! ## The switching threads -/

/-- The process at `ep` with its converted threads, whose records `reg` gives, and
    the thread that adds a fiber. -/
structure Crew where
  tgid : PidT
  ep : Ptr
  reg : PidT → Option Ptr
  reg_inj : ∀ u v t, reg u = some t → reg v = some t → u = v
  maker : PidT

/-- The fiber `f` is on the table of the process at `ep`. -/
def Kernel.onTable (k : Kernel) (ep f : Ptr) : Prop := ∃ p, k.process ep = some p ∧ f ∈ p.fibers

/-- A switching thread with record `t`: its place and the statements it is
    committed to. -/
inductive Switching (C : Crew) (k : Kernel) (t : Ptr) : Pc → List Stmt → Prop
  | user : Switching C k t .user []
  | findProcess (id : PidT) : Switching C k t (.findProcess (.switchTo id)) []
  | findThread (id : PidT) : Switching C k t (.findThread (.switchTo id) C.ep) []
  | findFiber (id : PidT) : Switching C k t (.findFiber id C.ep t) []
  | trylock (id : PidT) (f : Ptr) (hf : k.onTable C.ep f) : Switching C k t (.trylock id t f) []
  | failed (id : PidT) (f : Ptr) (hf : k.onTable C.ep f) :
      Switching C k t (.run [.fiber f .countFailed] (.ret (.switchTo id) (-1))) []
  | checkAttached (id : PidT) (f prev : Ptr) (hatt : k.attached f = none)
      (hsel : k.selected t = some prev) :
      Switching C k t (.checkAttached id t f) (switchAttach t f ++ switchTail t f prev)
  | attaching (id : PidT) (f prev : Ptr) (ss : List Stmt) (hss : ∀ s ∈ ss, s.selects = none)
      (hsel : k.selected t = some prev) :
      Switching C k t (.run ss (.readPrev id t f)) (ss ++ switchTail t f prev)
  | readPrev (id : PidT) (f prev : Ptr) (hsel : k.selected t = some prev) :
      Switching C k t (.readPrev id t f) (switchTail t f prev)
  | writing (ss : List Stmt) (id : PidT) (v : ℤ) :
      Switching C k t (.run ss (.ret (.switchTo id) v)) ss
  | ret (id : PidT) (v : ℤ) : Switching C k t (.ret (.switchTo id) v) []

theorem Switching.stable {C : Crew} {k k' : Kernel} {t : Ptr} {pc : Pc} {ss : List Stmt}
    (h : Switching C k t pc ss) (hk : k'.selected t = k.selected t)
    (hon : ∀ x, k.onTable C.ep x → k'.onTable C.ep x)
    (hatt : ∀ x, mentions ss x → attachment k' x = attachment k x) : Switching C k' t pc ss := by
  cases h with
  | user => exact .user
  | findProcess id => exact .findProcess id
  | findThread id => exact .findThread id
  | findFiber id => exact .findFiber id
  | trylock id f hf => exact .trylock id f (hon f hf)
  | failed id f hf => exact .failed id f (hon f hf)
  | checkAttached id f prev h1 h2 =>
    refine .checkAttached id f prev ?_ (hk ▸ h2)
    rw [attached_eq, hatt f (by simp [switchAttach, assigns, mentions_cons, mention]), ← attached_eq, h1]
  | attaching id f prev ss h1 h2 => exact .attaching id f prev ss h1 (hk ▸ h2)
  | readPrev id f prev h2 => exact .readPrev id f prev (hk ▸ h2)
  | writing ss id v => exact .writing ss id v
  | ret id v => exact .ret id v

/-- The statement the thread is about to run. -/
def Pc.upcoming : Pc → Option Stmt
  | .run (s :: _) _ => some s
  | _ => none

/-- The fiber whose lock the thread is about to try. -/
def Pc.trying : Pc → Option Ptr
  | .trylock _ _ f => some f
  | _ => none

/-- The state with the lock of `f` held. -/
def Kernel.withLock (k : Kernel) (f : Ptr) : Kernel :=
  k.modFiber f fun r => { r with fiberLock := true }

/-- What one step of a switching thread does: the place and the commitment before
    and after it and the state after it. -/
inductive Did (E : Env) (C : Crew) (k : Kernel) (u : PidT) (t : Ptr) :
    Pc → List Stmt → Pc → Kernel → List Stmt → Prop
  | moved {pc pc' : Pc} {ss : List Stmt} (h1 : pc.trying = none) (h2 : pc.upcoming = none) :
      Did E C k u t pc ss pc' k ss
  | ran {st : Stmt} {rest ss : List Stmt} {next : Pc} :
      Did E C k u t (.run (st :: rest) next) (st :: ss) (.run rest next)
        (st.apply E ⟨C.tgid, u⟩ k) ss
  | locked {id : PidT} {f prev : Ptr} (hf : k.onTable C.ep f) (hl : k.locked f = false)
      (hsel : k.selected t = some prev) :
      Did E C k u t (.trylock id t f) [] (.checkAttached id t f) (k.withLock f)
        (switchAttach t f ++ switchTail t f prev)
  | failed {id : PidT} {f : Ptr} (hl : k.locked f = true) :
      Did E C k u t (.trylock id t f) []
        (.run [.fiber f .countFailed] (.ret (.switchTo id) (-1))) k []
  | counted {id : PidT} {f : Ptr} :
      Did E C k u t (.run [.fiber f .countFailed] (.ret (.switchTo id) (-1))) []
        (.run [] (.ret (.switchTo id) (-1))) (k.bumped f) []
  | user {cpu : Cpu} :
      Did E C k u t .user [] .user (k.modCpu ⟨C.tgid, u⟩ fun _ => cpu) []

theorem processOf_modProcess {E : Env} {k : Kernel} {ep : Ptr} {φ : Process → Process}
    (hφ : ∀ r, (φ r).processId = r.processId) (g : PidT) :
    (k.modProcess ep φ).processOf E g = k.processOf E g := by
  refine HashTable.find_congr ?_
  intro x _
  by_cases hx : x = ep
  · subst hx
    cases hp : k.process x with
    | none => simp [Kernel.processKey, hp]
    | some r => simp [Kernel.processKey, hp, hφ]
  · simp [Kernel.processKey, hx]

/-! ## Statements of a maker -/

section Maker

variable {E : Env} {k k' : Kernel} {f gp : Ptr} {pc' : Pc} {id : PidT}

theorem Assign.run_fiberId (a : Assign) (cur : Task) (cpu : Cpu) (r : Fiber) :
    (a.run cur cpu r).fiberId = r.fiberId := by
  cases a <;> rfl

theorem Assign.run_fiberLock {a : Assign} (h : a ≠ .unlock) (cur : Task) (cpu : Cpu) (r : Fiber) :
    (a.run cur cpu r).fiberLock = r.fiberLock := by
  cases a with
  | unlock => exact absurd rfl h
  | _ => rfl

theorem allocThread_eq_some {cur : Task} {ep : Ptr} {pid : PidT}
    (h : allocThread cur ep pid k = some (gp, k')) : gp = k.nextPtr cur.tgid ∧
    k' = { k with
      brk := Function.update k.brk cur.tgid (k.brk cur.tgid + 1)
      thread := Function.update k.thread gp (some ⟨pid, ep, none⟩) } := by
  simp only [allocThread, K.bind_eq_some] at h
  obtain ⟨gp', k₁, hmalloc, _, k₂, hinit, hret⟩ := h
  obtain ⟨rfl, rfl⟩ : gp' = gp ∧ k₂ = k' := by simpa using hret
  obtain ⟨rfl, rfl⟩ : _ = gp' ∧ _ = k₁ := by simpa [kmalloc] using hmalloc
  obtain rfl : _ = k₂ := by simpa using hinit
  exact ⟨rfl, rfl⟩

theorem allocFiber_eq_some {cur : Task} {ep : Ptr} {n : ℤ} {sPtr : Word}
    (h : allocFiber E cur ep n sPtr k = some (f, k')) : f = k.nextPtr cur.tgid ∧
    k' = { k with
      brk := Function.update k.brk cur.tgid (k.brk cur.tgid + 1)
      fiber := Function.update k.fiber f (some (freshFiber E f (k.cpu cur) ep n sPtr)) } := by
  simp only [allocFiber, K.bind_eq_some] at h
  obtain ⟨f', k₁, hmalloc, _, k₂, hinit, hret⟩ := h
  obtain ⟨rfl, rfl⟩ : f' = f ∧ k₂ = k' := by simpa using hret
  obtain ⟨rfl, rfl⟩ : _ = f' ∧ _ = k₁ := by simpa [kmalloc] using hmalloc
  obtain rfl : _ = k₂ := by simpa using hinit
  exact ⟨rfl, rfl⟩

theorem takeFiberId_eq_some {ep : Ptr} {p : Process} (hp : k.process ep = some p)
    (h : takeFiberId ep f k = some ((), k')) : k' =
    (k.modProcess ep fun r => { r with lastFiberId := r.lastFiberId + 1 }).modFiber f
      fun r => { r with fiberId := p.nextId } := by
  simp only [takeFiberId, hp, Option.bind_some] at h
  split_ifs at h
  exact (congrArg Prod.snd (Option.some.inj h)).symm

/-- The statement at the head of a list is run. -/
theorem run_cons_eq_some {cur : Task} {st : Stmt} {rest : List Stmt} {next : Pc}
    (h : (Pc.run (st :: rest) next).step E cur k = some (pc', k')) :
    st.ok k ∧ pc' = .run rest next ∧ k' = st.apply E cur k := by
  simp only [Pc.step, K.bind_eq_some, exec_eq_some] at h
  obtain ⟨_, k₁, ⟨hok, rfl⟩, hret⟩ := h
  obtain ⟨rfl, rfl⟩ : _ = pc' ∧ _ = k' := by simpa using hret
  exact ⟨hok, rfl, rfl⟩

/-- The id leads to the fiber at `f`. -/
def Kernel.leadsTo (E : Env) (k : Kernel) (ep : Ptr) (id : PidT) (f : Ptr) : Prop :=
  ∃ p, k.process ep = some p ∧ k.fiberOf E p id = some (some f)

theorem Kernel.leadsTo.congr {ep : Ptr} (h : k.leadsTo E ep id f) (hp : k'.process = k.process)
    (hkey : ∀ x, k'.fiberKey x = k.fiberKey x) : k'.leadsTo E ep id f := by
  obtain ⟨p, hp', hfind⟩ := h
  refine ⟨p, by rw [hp, hp'], ?_⟩
  rw [← hfind]
  exact HashTable.find_congr fun x _ => hkey x

theorem isSome_of_key {x : Ptr} (h : k'.fiberKey x = k.fiberKey x) (hx : (k'.fiber x).isSome) :
    (k.fiber x).isSome := by
  rw [Kernel.fiberKey, Kernel.fiberKey] at h
  cases hk : k.fiber x with
  | some r => rfl
  | none =>
    rw [hk, Option.map_none, Option.map_eq_none_iff] at h
    rw [h] at hx
    exact hx

end Maker

/-! ## The invariant -/

/-- What the locks of the process guard. `P` is what the threads are committed to;
    for the maker it only reserves fibers. `site` is the fiber the maker is working
    on while nobody else may touch it. -/
structure Guard (E : Env) (C : Crew) (s : Conf) (P : PidT → List Stmt) (site : Option Ptr) :
    Prop where
  processOf : s.st.processOf E C.tgid = some (some C.ep)
  record : ∃ p, s.st.process C.ep = some p ∧ p.threads.WF E.hash s.st.threadKey ∧
    p.threads.InjKeys s.st.threadKey ∧ p.fibers.WF E.hash s.st.fiberKey ∧
    ∀ u t, C.reg u = some t → t ∈ p.threads
  key : ∀ u t, C.reg u = some t → s.st.threadKey t = some u
  priv : ∀ u, AllPrivate (P u)
  excl : ∀ u v x, mentions (P u) x → mentions (P v) x → u = v
  locked : ∀ u x, mentions (P u) x → s.st.locked x = true
  table : ∀ u x, mentions (P u) x → s.st.onTable C.ep x
  runs : ∀ u t, C.reg u = some t → ∃ x, s.st.selected t = some x ∧ s.st.onTable C.ep x ∧
    s.st.locked x = true
  runsExcl : ∀ u v t t', C.reg u = some t → C.reg v = some t' →
    s.st.selected t = s.st.selected t' → u = v
  apart : ∀ u v t x, C.reg u = some t → s.st.selected t = some x → mentions (P v) x → u = v
  sound : ∀ u t, u ≠ C.maker → C.reg u = some t → Sound E ⟨C.tgid, u⟩ t (P u) s.st
  free : ∀ x, s.st.onTable C.ep x → site ≠ some x → s.st.locked x = false → s.st.attached x = none
  site : ∀ f, site = some f → s.st.locked f = false
  known : ∀ u t, u ≠ C.maker → C.reg u = some t → Switching C s.st t (s.pc u) (P u)
  unreg : ∀ u, u ≠ C.maker → C.reg u = none → s.pc u = .user ∧ P u = []

namespace Guard

variable {E : Env} {C : Crew} {s : Conf} {P : PidT → List Stmt} {site site' : Option Ptr} {u : PidT}
  {t : Ptr} {k' : Kernel} {pc' : Pc} {ss : List Stmt}

theorem fiber_exists {x : Ptr} (h : Guard E C s P site) (hx : s.st.onTable C.ep x) :
    ∃ r, s.st.fiber x = some r := by
  obtain ⟨p, hp, -, -, hwf, -⟩ := h.record
  obtain ⟨p', hp', hm⟩ := hx
  obtain rfl : p = p' := by simpa [hp] using hp'
  have := hwf.key_isSome hm
  simpa [Kernel.fiberKey, Option.isSome_iff_exists] using this

/-- The rule for a step of `u`, which goes to `pc'` committed to `ss`: what the
    others run or are committed to stays as it is. -/
theorem of_frame (h : Guard E C s P site) (hps : k'.processOf E C.tgid = some (some C.ep))
    (hrec : ∃ p, k'.process C.ep = some p ∧ p.threads.WF E.hash k'.threadKey ∧
      p.threads.InjKeys k'.threadKey ∧ p.fibers.WF E.hash k'.fiberKey ∧
      ∀ u t, C.reg u = some t → t ∈ p.threads)
    (hkey : ∀ v t, C.reg v = some t → k'.threadKey t = some v)
    (hthread : ∀ v t, v ≠ u → C.reg v = some t → k'.thread t = s.st.thread t)
    (hon : ∀ x, s.st.onTable C.ep x → k'.onTable C.ep x)
    (hfiber : ∀ v x, v ≠ u → (mentions (P v) x ∨ ∃ t, C.reg v = some t ∧ s.st.selected t = some x) →
      attachment k' x = attachment s.st x ∧ k'.locked x = s.st.locked x)
    (hpriv : AllPrivate ss) (hexcl : ∀ v x, v ≠ u → mentions ss x → ¬ mentions (P v) x)
    (hlocked : ∀ x, mentions ss x → k'.locked x = true)
    (htable : ∀ x, mentions ss x → k'.onTable C.ep x)
    (hruns : ∀ t, C.reg u = some t → ∃ x, k'.selected t = some x ∧ k'.onTable C.ep x ∧
      k'.locked x = true ∧ (∀ v t', v ≠ u → C.reg v = some t' → s.st.selected t' ≠ some x) ∧
      ∀ v, v ≠ u → ¬ mentions (P v) x)
    (hapart : ∀ v t x, v ≠ u → C.reg v = some t → s.st.selected t = some x → ¬ mentions ss x)
    (hsound : ∀ t, u ≠ C.maker → C.reg u = some t → Sound E ⟨C.tgid, u⟩ t ss k')
    (hfree : ∀ x, k'.onTable C.ep x → site' ≠ some x → k'.locked x = false → k'.attached x = none)
    (hsite : ∀ f, site' = some f → k'.locked f = false)
    (hknown : ∀ t, u ≠ C.maker → C.reg u = some t → Switching C k' t pc' ss)
    (hunreg : u ≠ C.maker → C.reg u = none → pc' = .user ∧ ss = []) :
    Guard E C (s.goto u k' pc') (Function.update P u ss) site' := by
  have hsel : ∀ v t, v ≠ u → C.reg v = some t → k'.selected t = s.st.selected t := fun v t hv ht => by
    rw [Kernel.selected, hthread v t hv ht, Kernel.selected]
  refine ⟨hps, hrec, hkey, fun v => ?_, fun v w x hv hw => ?_, fun v x hx => ?_, fun v x hx => ?_,
    fun v t ht => ?_, fun v w t t' ht ht' he => ?_, fun v w t x ht hx hm => ?_, fun v t hm ht => ?_,
    hfree, hsite, fun v t hm ht => ?_, fun v hm hn => ?_⟩
  · by_cases hvu : v = u
    · subst hvu; simpa using hpriv
    · simpa [hvu] using h.priv v
  · by_cases hvu : v = u <;> by_cases hwu : w = u
    · rw [hvu, hwu]
    · subst hvu
      simp only [Function.update_self, Function.update_of_ne hwu] at hv hw
      exact absurd hw (hexcl w x hwu hv)
    · subst hwu
      simp only [Function.update_self, Function.update_of_ne hvu] at hv hw
      exact absurd hv (hexcl v x hvu hw)
    · simp only [Function.update_of_ne hvu, Function.update_of_ne hwu] at hv hw
      exact h.excl v w x hv hw
  · by_cases hvu : v = u
    · subst hvu; exact hlocked x (by simpa using hx)
    · rw [Function.update_of_ne hvu] at hx
      exact (hfiber v x hvu (.inl hx)).2 ▸ h.locked v x hx
  · by_cases hvu : v = u
    · subst hvu; exact htable x (by simpa using hx)
    · rw [Function.update_of_ne hvu] at hx
      exact hon x (h.table v x hx)
  · by_cases hvu : v = u
    · subst hvu
      obtain ⟨x, h1, h2, h3, -, -⟩ := hruns t ht
      exact ⟨x, h1, h2, h3⟩
    · obtain ⟨x, h1, h2, h3⟩ := h.runs v t ht
      exact ⟨x, (hsel v t hvu ht).trans h1, hon x h2, (hfiber v x hvu (.inr ⟨t, ht, h1⟩)).2.trans h3⟩
  · by_cases hvu : v = u <;> by_cases hwu : w = u
    · rw [hvu, hwu]
    · subst hvu
      obtain ⟨x, h1, -, -, h4, -⟩ := hruns t ht
      refine absurd ?_ (h4 w t' hwu ht')
      rw [← hsel w t' hwu ht', ← h1]
      exact he.symm
    · subst hwu
      obtain ⟨x, h1, -, -, h4, -⟩ := hruns t' ht'
      refine absurd ?_ (h4 v t hvu ht)
      rw [← hsel v t hvu ht, ← h1]
      exact he
    · refine h.runsExcl v w t t' ht ht' ?_
      rw [← hsel v t hvu ht, ← hsel w t' hwu ht']
      exact he
  · by_cases hvu : v = u <;> by_cases hwu : w = u
    · rw [hvu, hwu]
    · subst hvu
      obtain ⟨y, h1, -, -, -, h5⟩ := hruns t ht
      obtain rfl : y = x := by simpa [h1] using hx
      exact absurd (by simpa [hwu] using hm) (h5 w hwu)
    · subst hwu
      exact absurd (by simpa using hm) (hapart v t x hvu ht (by rw [← hsel v t hvu ht]; exact hx))
    · refine h.apart v w t x ht ?_ (by simpa [hwu] using hm)
      rw [← hsel v t hvu ht]
      exact hx
  · by_cases hvu : v = u
    · subst hvu; simpa using hsound t hm ht
    · rw [Function.update_of_ne hvu]
      exact (h.sound v t hm ht).congr (h.priv v) (hthread v t hvu ht)
        fun x hx => (hfiber v x hvu (.inl hx)).1
  · by_cases hvu : v = u
    · subst hvu; simpa using hknown t hm ht
    · simp only [Conf.goto_st, Conf.goto_pc, if_neg hvu, Function.update_of_ne hvu]
      exact (h.known v t hm ht).stable (hsel v t hvu ht) hon fun x hx => (hfiber v x hvu (.inl hx)).1
  · by_cases hvu : v = u
    · subst hvu; simpa using hunreg hm hn
    · simpa [hvu] using h.unreg v hm hn

/-- A step that changes no record. -/
theorem idle (h : Guard E C s P site) (hps : k'.processes = s.st.processes)
    (hp : k'.process = s.st.process) (ht : k'.thread = s.st.thread) (hf : k'.fiber = s.st.fiber)
    (hknown : ∀ t, u ≠ C.maker → C.reg u = some t → Switching C s.st t pc' (P u))
    (hunreg : u ≠ C.maker → C.reg u = none → pc' = .user) :
    Guard E C (s.goto u k' pc') P site := by
  have hatt : ∀ x, attachment k' x = attachment s.st x := fun x => by simp [attachment, hf]
  have hlock : ∀ x, k'.locked x = s.st.locked x := fun x => by simp [Kernel.locked, hf]
  have hsel : ∀ x, k'.selected x = s.st.selected x := fun x => by simp [Kernel.selected, ht]
  have hon : ∀ x, k'.onTable C.ep x ↔ s.st.onTable C.ep x := fun x => by simp [Kernel.onTable, hp]
  have hself : Function.update P u (P u) = P := Function.update_eq_self u P
  rw [← hself]
  refine h.of_frame ?_ ?_ (fun v t hv => ?_) (fun v t _ _ => by rw [ht]) (fun x hx => (hon x).mpr hx)
    (fun v x _ _ => ⟨hatt x, hlock x⟩) (h.priv u) (fun v x hv hx hm => hv (h.excl v u x hm hx))
    (fun x hx => (hlock x).trans (h.locked u x hx)) (fun x hx => (hon x).mpr (h.table u x hx))
    (fun t hreg => ?_) (fun v t x hv hreg hs hx => hv (h.apart v u t x hreg hs hx))
    (fun t hm hreg => ?_) (fun x hx hs hl => ?_) (fun f hf' => (hlock f).trans (h.site f hf'))
    (fun t hm hreg => ?_) (fun hm hn => ⟨hunreg hm hn, (h.unreg u hm hn).2⟩)
  · have hpk : k'.processKey = s.st.processKey := by
      funext x; rw [Kernel.processKey, hp, Kernel.processKey]
    rw [Kernel.processOf, hps, hpk]
    exact h.processOf
  · obtain ⟨p, h1, h2, h3, h4, h5⟩ := h.record
    have htk : k'.threadKey = s.st.threadKey := by
      funext x; rw [Kernel.threadKey, ht, Kernel.threadKey]
    have hfk : k'.fiberKey = s.st.fiberKey := by
      funext x; rw [Kernel.fiberKey, hf, Kernel.fiberKey]
    exact ⟨p, hp ▸ h1, htk ▸ h2, htk ▸ h3, hfk ▸ h4, h5⟩
  · rw [Kernel.threadKey, ht]
    exact h.key v t hv
  · obtain ⟨x, h1, h2, h3⟩ := h.runs u t hreg
    exact ⟨x, (hsel t).trans h1, (hon x).mpr h2, (hlock x).trans h3,
      fun v t' hv ht' he => hv (h.runsExcl v u t' t ht' hreg (he.trans h1.symm)),
      fun v hv hm => hv (h.apart u v t x hreg h1 hm).symm⟩
  · exact (h.sound u t hm hreg).congr (h.priv u) (by rw [ht]) fun x _ => hatt x
  · rw [attached_eq, hatt, ← attached_eq]
    exact h.free x ((hon x).mp hx) hs ((hlock x) ▸ hl)
  · exact (hknown t hm hreg).stable (hsel t) (fun x hx => (hon x).mpr hx) fun x _ => hatt x

/-! ## Statements of the switching threads -/

theorem selected_exists {prev : Ptr} (hsel : s.st.selected t = some prev) :
    ∃ rt, s.st.thread t = some rt ∧ rt.selectedFiber = some prev :=
  Option.bind_eq_some_iff.mp hsel

/-- What a statement of a switching thread does, and where the thread is then. -/
theorem did_of_step (h : Guard E C s P site) (hu : u ≠ C.maker) (hreg : C.reg u = some t)
    (hsite : ∀ f, site = some f → (s.pc u).trying ≠ some f)
    (hstep : (s.pc u).step E ⟨C.tgid, u⟩ s.st = some (pc', k')) :
    ∃ ss', Did E C s.st u t (s.pc u) (P u) pc' k' ss' ∧ Switching C k' t pc' ss' := by
  obtain ⟨p, hp, hwf, hinj, hfwf, hmem⟩ := h.record
  have hpriv := h.priv u
  have hk := h.known u t hu hreg
  generalize s.pc u = pc at hk hstep hsite ⊢
  generalize P u = ss at hk hpriv ⊢
  cases hk with
  | user | ret => simp [Pc.step] at hstep
  | findProcess id =>
    simp only [Pc.step, K.bind_eq_some, findProcessByTgid_eq_some, h.processOf] at hstep
    obtain ⟨x, k₁, ⟨hx, rfl⟩, hstep⟩ := hstep
    obtain rfl : some C.ep = x := by simpa using hx
    obtain ⟨rfl, rfl⟩ : Pc.findThread (.switchTo id) C.ep = pc' ∧ s.st = k' := by simpa using hstep
    exact ⟨[], .moved rfl rfl, .findThread id⟩
  | findThread id =>
    have hfind : s.st.threadOf E p u = some (some t) :=
      hinj.find_of_mem hwf (hmem u t hreg) (h.key u t hreg)
    simp only [Pc.step, K.bind_eq_some, findThreadByPid_eq_some, hp] at hstep
    obtain ⟨x, k₁, ⟨p', hp', hx, rfl⟩, hstep⟩ := hstep
    obtain rfl : p = p' := by simpa using hp'
    obtain rfl : some t = x := by simpa [hfind] using hx
    obtain ⟨rfl, rfl⟩ : Pc.findFiber id C.ep t = pc' ∧ s.st = k' := by
      simpa [Call.enter] using hstep
    exact ⟨[], .moved rfl rfl, .findFiber id⟩
  | findFiber id =>
    simp only [Pc.step, K.bind_eq_some, findFiberById_eq_some, hp] at hstep
    obtain ⟨x, k₁, ⟨p', hp', hx, rfl⟩, hstep⟩ := hstep
    obtain rfl : p = p' := by simpa using hp'
    cases x with
    | none =>
      obtain ⟨rfl, rfl⟩ : Pc.ret (.switchTo id) (-1) = pc' ∧ s.st = k' := by simpa using hstep
      exact ⟨[], .moved rfl rfl, .ret id (-1)⟩
    | some f =>
      obtain ⟨rfl, rfl⟩ : Pc.trylock id t f = pc' ∧ s.st = k' := by simpa using hstep
      exact ⟨[], .moved rfl rfl, .trylock id f ⟨p, hp, (HashTable.find_eq_some hx).1⟩⟩
  | trylock id f hf =>
    simp only [Pc.step, K.bind_eq_some, spinTrylock, Option.map_eq_some_iff] at hstep
    obtain ⟨b, k₁, ⟨rf, hrf, hb⟩, hstep⟩ := hstep
    obtain ⟨rfl, rfl⟩ : (!rf.fiberLock) = b ∧ s.st.withLock f = k₁ := by
      simpa [Kernel.withLock] using hb
    cases hl : rf.fiberLock with
    | true =>
      have hself : s.st.withLock f = s.st := Kernel.modFiber_self fun r' hr' => by
        obtain rfl : rf = r' := by simpa [hrf] using hr'
        rw [← hl]
      rw [hself] at hstep
      obtain ⟨rfl, rfl⟩ : Pc.run (assigns f [.countFailed]) (.ret (.switchTo id) (-1)) = pc' ∧
          s.st = k' := by simpa [hl] using hstep
      exact ⟨[], .failed (by simp [Kernel.locked, hrf, hl]), .failed id f hf⟩
    | false =>
      obtain ⟨rfl, rfl⟩ : Pc.checkAttached id t f = pc' ∧ s.st.withLock f = k' := by
        simpa [hl] using hstep
      obtain ⟨prev, hsel, hpon, hplock⟩ := h.runs u t hreg
      have hlf : s.st.locked f = false := by simp [Kernel.locked, hrf, hl]
      refine ⟨_, .locked hf hlf hsel, .checkAttached id f prev ?_ hsel⟩
      have hfree := h.free f hf (fun hs => hsite f hs rfl) hlf
      simpa [Kernel.attached, Kernel.withLock, hrf] using hfree
  | failed id f hf =>
    simp only [Pc.step, K.bind_eq_some, exec_eq_some] at hstep
    obtain ⟨_, k₁, ⟨-, rfl⟩, hstep⟩ := hstep
    obtain ⟨rfl, rfl⟩ : Pc.run [] (.ret (.switchTo id) (-1)) = pc' ∧
        (Stmt.fiber f .countFailed).apply E ⟨C.tgid, u⟩ s.st = k' := by simpa using hstep
    exact ⟨[], .counted, .writing [] id (-1)⟩
  | checkAttached id f prev hatt hsel =>
    simp only [Pc.step, K.bind_eq_some, readFiber_eq_some] at hstep
    obtain ⟨rf, k₁, ⟨hrf, rfl⟩, hstep⟩ := hstep
    have hattach : rf.attachedThread = none := by simpa [Kernel.attached, hrf] using hatt
    obtain ⟨rfl, rfl⟩ : Pc.run (switchAttach t f) (.readPrev id t f) = pc' ∧ s.st = k' := by
      simpa [hattach] using hstep
    exact ⟨_, .moved rfl rfl,
      .attaching id f prev _ (by simp [switchAttach, assigns, selects]) hsel⟩
  | attaching id f prev rest hrest hsel =>
    cases rest with
    | nil =>
      obtain ⟨rfl, rfl⟩ : Pc.readPrev id t f = pc' ∧ s.st = k' := by simpa [Pc.step] using hstep
      exact ⟨_, .moved rfl rfl, .readPrev id f prev hsel⟩
    | cons st rest =>
      simp only [Pc.step, K.bind_eq_some, exec_eq_some] at hstep
      obtain ⟨_, k₁, ⟨-, rfl⟩, hstep⟩ := hstep
      obtain ⟨rfl, rfl⟩ : Pc.run rest (.readPrev id t f) = pc' ∧
          st.apply E ⟨C.tgid, u⟩ s.st = k' := by simpa using hstep
      refine ⟨_, .ran, .attaching id f prev rest (fun s' hs' => hrest s' (by simp [hs'])) ?_⟩
      rw [Kernel.selected, apply_thread_of_ne hpriv.head (by simp [hrest st (by simp)])]
      exact hsel
  | readPrev id f prev hsel =>
    obtain ⟨rt, hrt, hprev⟩ := selected_exists hsel
    simp only [Pc.step, K.bind_eq_some, readThread_eq_some, nonNull_eq_some, hrt] at hstep
    obtain ⟨rt', k₁, ⟨hrt', rfl⟩, x, k₂, ⟨hx, rfl⟩, hstep⟩ := hstep
    obtain rfl : rt = rt' := by simpa using hrt'
    obtain rfl : prev = x := by simpa [hprev] using hx
    obtain ⟨rfl, rfl⟩ : Pc.run (switchTail t f prev) (.ret (.switchTo id) 0) = pc' ∧ s.st = k' := by
      simpa using hstep
    exact ⟨_, .moved rfl rfl, .writing _ id 0⟩
  | writing _ id v =>
    cases ss with
    | nil =>
      obtain ⟨rfl, rfl⟩ : Pc.ret (.switchTo id) v = pc' ∧ s.st = k' := by
        simpa [Pc.step] using hstep
      exact ⟨_, .moved rfl rfl, .ret id v⟩
    | cons st rest =>
      simp only [Pc.step, K.bind_eq_some, exec_eq_some] at hstep
      obtain ⟨_, k₁, ⟨-, rfl⟩, hstep⟩ := hstep
      obtain ⟨rfl, rfl⟩ : Pc.run rest (.ret (.switchTo id) v) = pc' ∧
          st.apply E ⟨C.tgid, u⟩ s.st = k' := by simpa using hstep
      exact ⟨_, .ran, .writing rest id v⟩

theorem attachment_withLock (k : Kernel) (f x : Ptr) :
    attachment (k.withLock f) x = attachment k x := by
  by_cases hx : x = f
  · subst hx; cases hf : k.fiber x <;> simp [attachment, Kernel.withLock, hf]
  · simp [attachment, Kernel.withLock, hx]

theorem fiberKey_withLock (k : Kernel) (f x : Ptr) : (k.withLock f).fiberKey x = k.fiberKey x := by
  by_cases hx : x = f
  · subst hx; cases hf : k.fiber x <;> simp [Kernel.fiberKey, Kernel.withLock, hf]
  · simp [Kernel.fiberKey, Kernel.withLock, hx]

theorem locked_withLock_of_ne {k : Kernel} {f x : Ptr} (hx : x ≠ f) :
    (k.withLock f).locked x = k.locked x := by
  simp [Kernel.locked, Kernel.withLock, hx]

/-- A switch that has just taken the lock of its target is sound. -/
theorem sound_switch {k : Kernel} {cur : Task} {f prev : Ptr} {rt : Thread} {rp : Fiber}
    (hne : f ≠ prev) (ht : k.thread t = some rt) (hp : k.fiber prev = some rp) :
    Sound E cur t (switchAttach t f ++ switchTail t f prev) (k.withLock f) := by
  simp only [switchAttach, switchTail, assigns, List.map_cons, List.map_nil, List.cons_append,
    List.nil_append, Sound, reduceCtorEq, false_implies, implies_true, true_and, Stmt.fiber.injEq,
    and_false, Stmt.select.injEq, and_true, mentions_cons, mention, not_mentions_nil, or_false]
  refine ⟨?_, ?_⟩
  · rintro t' f' ⟨rfl, rfl⟩
    exact ⟨rfl, by simp⟩
  · rintro x rfl
    simp [Kernel.attached, Kernel.selected, Stmt.apply, Kernel.withLock, hne, hne.symm, hp, ht,
      Assign.run]

/-- The statement of a switching thread that is not on the maker's site. -/
theorem did (h : Guard E C s P site) (hu : u ≠ C.maker) (hreg : C.reg u = some t)
    (hsite : ∀ f, site = some f → (s.pc u).trying ≠ some f)
    (hd : Did E C s.st u t (s.pc u) (P u) pc' k' ss) (hsw : Switching C k' t pc' ss) :
    Guard E C (s.goto u k' pc') (Function.update P u ss) site := by
  obtain ⟨p, hp, hwf, hinj, hfwf, hmem⟩ := h.record
  have hno : C.reg u ≠ none := by simp [hreg]
  -- what holds of the fiber `u` runs while it stays with it
  have hstay : ∃ x, s.st.selected t = some x ∧ s.st.onTable C.ep x ∧ s.st.locked x = true ∧
      (∀ v t', v ≠ u → C.reg v = some t' → s.st.selected t' ≠ some x) ∧
      ∀ v, v ≠ u → ¬ mentions (P v) x := by
    obtain ⟨x, h1, h2, h3⟩ := h.runs u t hreg
    exact ⟨x, h1, h2, h3, fun v t' hv ht' he => hv (h.runsExcl v u t' t ht' hreg (he.trans h1.symm)),
      fun v hv hm => hv (h.apart u v t x hreg h1 hm).symm⟩
  generalize hpc : s.pc u = pc at hd hsite
  generalize hP : P u = ss₀ at hd
  cases hd with
  | moved | failed =>
    refine h.of_frame h.processOf h.record h.key (fun _ _ _ _ => rfl) (fun _ hx => hx)
      (fun _ _ _ _ => ⟨rfl, rfl⟩) (hP ▸ h.priv u)
      (fun v x hv hx hm => hv (h.excl v u x hm (hP ▸ hx))) (fun x hx => h.locked u x (hP ▸ hx))
      (fun x hx => h.table u x (hP ▸ hx)) (fun t' ht' => ?_)
      (fun v t' x hv ht' hsel hx => hv (h.apart v u t' x ht' hsel (hP ▸ hx)))
      (fun t' hm ht' => hP ▸ h.sound u t' hm ht') h.free h.site (fun t' _ ht' => ?_)
      (fun _ hn => absurd hn hno)
    · obtain rfl : t = t' := by simpa [hreg] using ht'
      exact hstay
    · obtain rfl : t = t' := by simpa [hreg] using ht'
      exact hsw
  | @ran st rest ss next =>
    have hpriv : AllPrivate (st :: ss) := hP ▸ h.priv u
    obtain ⟨hps, hproc, -⟩ : (st.apply E ⟨C.tgid, u⟩ s.st).processes = s.st.processes ∧
        (st.apply E ⟨C.tgid, u⟩ s.st).process = s.st.process ∧
        (st.apply E ⟨C.tgid, u⟩ s.st).brk = s.st.brk := apply_rest hpriv.head
    have htk : ∀ x, (st.apply E ⟨C.tgid, u⟩ s.st).threadKey x = s.st.threadKey x := fun x =>
      apply_threadKey hpriv.head x
    have hfk : ∀ x, (st.apply E ⟨C.tgid, u⟩ s.st).fiberKey x = s.st.fiberKey x := fun x =>
      apply_fiberKey hpriv.head x
    have hsound : Sound E ⟨C.tgid, u⟩ t (st :: ss) s.st := hP ▸ h.sound u t hu hreg
    obtain ⟨hunlock, hselect, hrest⟩ := hsound
    have hsub : ∀ x, mentions ss x → mentions (P u) x := fun x hx => by
      rw [hP, mentions_cons]; exact .inr hx
    have hhead : ∀ x, st.mention = some x → mentions (P u) x := fun x hx => by
      rw [hP, mentions_cons]; exact .inl hx
    -- the statement is on none of the fibers the others run or are committed to
    have hother : ∀ v x, v ≠ u → (mentions (P v) x ∨ ∃ t', C.reg v = some t' ∧
        s.st.selected t' = some x) → (st.apply E ⟨C.tgid, u⟩ s.st).fiber x = s.st.fiber x := by
      rintro v x hv (hx | ⟨t', ht', hx⟩)
      · exact apply_fiber_of_ne hpriv.head fun hm => hv (h.excl v u x hx (hhead x hm))
      · exact apply_fiber_of_ne hpriv.head fun hm => hv (h.apart v u t' x ht' hx (hhead x hm))
    have hown : ∀ v t', v ≠ u → C.reg v = some t' → st.selects ≠ some t' := fun v t' hv ht' hs => by
      cases st with
      | select t'' f =>
        obtain rfl : t'' = t' := by simpa [selects] using hs
        obtain rfl := (hselect t'' f rfl).1
        exact hv (C.reg_inj v u t'' ht' hreg)
      | _ => simp [selects] at hs
    have hon : ∀ x, (st.apply E ⟨C.tgid, u⟩ s.st).onTable C.ep x ↔ s.st.onTable C.ep x := fun x => by
      rw [Kernel.onTable, Kernel.onTable, hproc]
    refine h.of_frame ?_ ⟨p, hproc ▸ hp, hwf.congr fun x _ => htk x, hinj.congr fun x _ => htk x,
        hfwf.congr fun x _ => hfk x, hmem⟩ (fun v t' ht' => (htk t').trans (h.key v t' ht'))
      (fun v t' hv ht' => apply_thread_of_ne hpriv.head (hown v t' hv ht'))
      (fun x hx => (hon x).mpr hx) (fun v x hv hx => ?_) hpriv.tail
      (fun v x hv hx hm => hv (h.excl v u x hm (hsub x hx))) (fun x hx => ?_)
      (fun x hx => (hon x).mpr (h.table u x (hsub x hx))) (fun t' ht' => ?_)
      (fun v t' x hv ht' hsel hx => hv (h.apart v u t' x ht' hsel (hsub x hx)))
      (fun t' hm ht' => ?_) (fun x hx hs hl => ?_) (fun f hf => ?_) (fun t' _ ht' => ?_)
      (fun _ hn => absurd hn hno)
    · have hpk : (st.apply E ⟨C.tgid, u⟩ s.st).processKey = s.st.processKey := by
        funext x; rw [Kernel.processKey, hproc, Kernel.processKey]
      rw [Kernel.processOf, hps, hpk]
      exact h.processOf
    · simp [attachment, Kernel.locked, hother v x hv hx]
    · rw [apply_locked_of_ne hpriv.head fun hs => (hunlock x hs).2.2 hx]
      exact h.locked u x (hsub x hx)
    · obtain rfl : t = t' := by simpa [hreg] using ht'
      by_cases hs : st.selects = some t
      · -- the thread goes over to its target
        cases st with
        | select t'' f =>
          obtain ⟨rfl, hm⟩ := hselect t'' f rfl
          obtain ⟨rt, hrt⟩ : ∃ rt, s.st.thread t'' = some rt := by
            have := h.key u t'' hreg
            simp only [Kernel.threadKey, Option.map_eq_some_iff] at this
            exact ⟨_, this.choose_spec.1⟩
          refine ⟨f, by simp [Kernel.selected, Stmt.apply, hrt], h.table u f (hsub f hm),
            h.locked u f (hsub f hm), fun v t' hv ht' hsel => ?_, fun v hv hv' => ?_⟩
          · exact hv (h.apart v u t' f ht' hsel (hsub f hm))
          · exact hv (h.excl v u f hv' (hsub f hm))
        | _ => simp [selects] at hs
      · obtain ⟨x, h1, h2, h3, h4, h5⟩ := hstay
        refine ⟨x, ?_, (hon x).mpr h2, ?_, h4, h5⟩
        · rw [Kernel.selected, apply_thread_of_ne hpriv.head hs]
          exact h1
        · rw [apply_locked_of_ne hpriv.head fun he => (hunlock x he).2.1 h1, h3]
    · obtain rfl : t = t' := by simpa [hreg] using ht'
      exact hrest
    · by_cases he : st = .fiber x .unlock
      · obtain ⟨hatt, -, -⟩ := hunlock x he
        subst he
        cases hf : s.st.fiber x with
        | none => simp [Kernel.attached, Stmt.apply, hf]
        | some r =>
          have : r.attachedThread = none := by simpa [Kernel.attached, hf] using hatt
          simp [Kernel.attached, Stmt.apply, hf, Assign.run, this]
      · rw [apply_locked_of_ne hpriv.head he] at hl
        have hm : st.mention ≠ some x := fun hm => by simp [h.locked u x (hhead x hm)] at hl
        rw [Kernel.attached, apply_fiber_of_ne hpriv.head hm]
        exact h.free x ((hon x).mp hx) hs hl
    · exact apply_locked hpriv.head (h.site f hf)
    · obtain rfl : t = t' := by simpa [hreg] using ht'
      exact hsw
  | @locked id f prev hf hl hsel =>
    obtain ⟨x, h1, h2, h3, h4, h5⟩ := hstay
    obtain rfl : x = prev := by simpa [hsel] using h1.symm
    have hne : f ≠ x := by rintro rfl; simp [h3] at hl
    obtain ⟨rf, hrf⟩ := h.fiber_exists hf
    obtain ⟨rp, hrp⟩ := h.fiber_exists h2
    obtain ⟨rt, hrt, -⟩ := selected_exists hsel
    have hfree : ∀ v, ¬ mentions (P v) f := fun v hm => by simp [h.locked v f hm] at hl
    have hnone : ∀ v t', C.reg v = some t' → s.st.selected t' ≠ some f := fun v t' ht' hs => by
      obtain ⟨y, hy, -, hyl⟩ := h.runs v t' ht'
      obtain rfl : y = f := by simpa [hy] using hs
      simp [hyl] at hl
    have hlock : (s.st.withLock f).locked f = true := by
      simp [Kernel.locked, Kernel.withLock, hrf]
    refine h.of_frame h.processOf ⟨p, hp, hwf, hinj, hfwf.congr fun y _ => fiberKey_withLock _ _ _,
        hmem⟩ h.key (fun _ _ _ _ => rfl) (fun _ hy => hy) (fun v y hv hy => ?_)
      (allPrivate_switch t f x) (fun v y hv hy => ?_) (fun y hy => ?_) (fun y hy => ?_)
      (fun t' ht' => ?_) (fun v t' y hv ht' hs hy => ?_) (fun t' _ ht' => ?_)
      (fun y hy hs hly => ?_) (fun f' hf' => ?_) (fun t' _ ht' => ?_) (fun _ hn => absurd hn hno)
    · have hyf : y ≠ f := by
        rintro rfl
        rcases hy with hy | ⟨t', ht', hy⟩
        · exact hfree v hy
        · exact hnone v t' ht' hy
      exact ⟨attachment_withLock _ _ _, locked_withLock_of_ne hyf⟩
    · rcases eq_of_mentions_switch hy with rfl | rfl
      · exact hfree v
      · exact h5 v hv
    · rcases eq_of_mentions_switch hy with rfl | rfl
      · exact hlock
      · rw [locked_withLock_of_ne hne.symm, h3]
    · rcases eq_of_mentions_switch hy with rfl | rfl
      · exact hf
      · exact h2
    · obtain rfl : t = t' := by simpa [hreg] using ht'
      exact ⟨x, hsel, h2, by rw [locked_withLock_of_ne hne.symm, h3], h4, h5⟩
    · rcases eq_of_mentions_switch hy with rfl | rfl
      · exact hnone v t' ht' hs
      · exact h4 v t' hv ht' hs
    · obtain rfl : t = t' := by simpa [hreg] using ht'
      exact sound_switch hne hrt hrp
    · have hyf : y ≠ f := by rintro rfl; simp [hlock] at hly
      rw [locked_withLock_of_ne hyf] at hly
      rw [attached_eq, attachment_withLock, ← attached_eq]
      exact h.free y hy hs hly
    · have hff : f' ≠ f := fun he => hsite f' hf' (by rw [he]; rfl)
      rw [locked_withLock_of_ne hff]
      exact h.site f' hf'
    · obtain rfl : t = t' := by simpa [hreg] using ht'
      exact hsw
  | @counted id f =>
    have hatt : ∀ x, attachment (s.st.bumped f) x = attachment s.st x ∧
        (s.st.bumped f).locked x = s.st.locked x ∧ (s.st.bumped f).fiberKey x = s.st.fiberKey x :=
      fun x => by
        by_cases hx : x = f
        · subst hx
          cases hk : s.st.fiber x <;>
            simp [attachment, Kernel.locked, Kernel.fiberKey, Kernel.bumped, hk]
        · simp [attachment, Kernel.locked, Kernel.fiberKey, Kernel.bumped, hx]
    refine h.of_frame h.processOf ⟨p, hp, hwf, hinj, hfwf.congr fun y _ => (hatt y).2.2, hmem⟩ h.key
      (fun _ _ _ _ => rfl) (fun _ hx => hx) (fun v x _ _ => ⟨(hatt x).1, (hatt x).2.1⟩)
      (by simp [AllPrivate]) (fun v x _ hx => by simp at hx) (fun x hx => by simp at hx)
      (fun x hx => by simp at hx) (fun t' ht' => ?_) (fun v t' x _ _ _ hx => by simp at hx)
      (fun _ _ _ => trivial) (fun x hx hs hl => ?_) (fun f' hf' => ?_) (fun t' _ ht' => ?_)
      (fun _ hn => absurd hn hno)
    · obtain rfl : t = t' := by simpa [hreg] using ht'
      obtain ⟨x, h1, h2, h3, h4, h5⟩ := hstay
      exact ⟨x, h1, h2, (hatt x).2.1.trans h3, h4, h5⟩
    · rw [attached_eq, (hatt x).1, ← attached_eq]
      exact h.free x hx hs ((hatt x).2.1 ▸ hl)
    · rw [(hatt f').2.1]
      exact h.site f' hf'
    · obtain rfl : t = t' := by simpa [hreg] using ht'
      exact hsw
  | user =>
    have hself : Function.update P u [] = P := by rw [← hP, Function.update_eq_self]
    rw [hself]
    exact h.idle rfl rfl rfl rfl (fun t' _ _ => hP ▸ .user) fun _ _ => rfl

/-- Any step of a thread other than the maker. -/
theorem other {act : Act} {s' : Conf} (h : Guard E C s P site) (hu : u ≠ C.maker)
    (hsite : ∀ f, site = some f → (s.pc u).trying ≠ some f)
    (hstep : CStep E C.tgid s (u, act) s')
    (hstart : ∀ c, act = .start c → (C.reg u).isSome ∧ ∃ id, c = .switchTo id) :
    ∃ t k' pc' ss, s' = s.goto u k' pc' ∧ Guard E C s' (Function.update P u ss) site ∧
      Did E C s.st u t (s.pc u) (P u) pc' k' ss ∧ ∀ t', C.reg u = some t' → t' = t := by
  cases hreg : C.reg u with
  | none =>
    -- such a thread only runs user code
    obtain ⟨hpc, hP⟩ := h.unreg u hu hreg
    have hself : Function.update P u [] = P := by rw [← hP, Function.update_eq_self]
    cases act with
    | start c => simp [hreg] at hstart
    | stmt =>
      obtain ⟨pc', k', hs, -⟩ := hstep
      simp [hpc, Pc.step] at hs
    | finish c v =>
      obtain ⟨hret, -⟩ := hstep
      simp [hpc] at hret
    | user cpu =>
      obtain ⟨-, rfl⟩ := hstep
      refine ⟨C.ep, _, _, [], rfl, ?_, ?_, by simp⟩
      · rw [hself]
        exact h.idle rfl rfl rfl rfl (fun t' _ ht' => by simp [hreg] at ht') fun _ _ => rfl
      · rw [hpc, hP]
        exact .user
  | some t =>
    have huniq : ∀ t', some t = some t' → t' = t := fun t' ht' => by simpa using ht'.symm
    have hk := h.known u t hu hreg
    cases act with
    | stmt =>
      obtain ⟨pc', k', hs, rfl⟩ := hstep
      obtain ⟨ss, hd, hsw⟩ := h.did_of_step hu hreg hsite hs
      exact ⟨t, k', pc', ss, rfl, h.did hu hreg hsite hd hsw, hd, huniq⟩
    | start c =>
      obtain ⟨hpc, rfl⟩ := hstep
      replace hpc : s.pc u = .user := hpc
      obtain ⟨-, id, rfl⟩ := hstart c rfl
      rw [hpc] at hk
      generalize hP : P u = ss at hk
      cases hk
      have hd : Did E C s.st u t (s.pc u) (P u) (.findProcess (.switchTo id)) s.st [] := by
        rw [hpc, hP]
        exact .moved rfl rfl
      exact ⟨t, s.st, _, [], rfl, h.did hu hreg hsite hd (.findProcess id), hP ▸ hd, huniq⟩
    | finish c v =>
      obtain ⟨hpc, rfl⟩ := hstep
      replace hpc : s.pc u = .ret c v := hpc
      rw [hpc] at hk
      generalize hP : P u = ss at hk
      cases hk with
      | ret id =>
        have hd : Did E C s.st u t (s.pc u) (P u) .user s.st [] := by
          rw [hpc, hP]
          exact .moved rfl rfl
        exact ⟨t, s.st, _, [], rfl, h.did hu hreg hsite hd .user, hP ▸ hd, huniq⟩
    | user cpu =>
      obtain ⟨hpc, rfl⟩ := hstep
      replace hpc : s.pc u = .user := hpc
      rw [hpc] at hk
      generalize hP : P u = ss at hk
      cases hk
      have hd : Did E C s.st u t (s.pc u) (P u) .user (s.st.modCpu ⟨C.tgid, u⟩ fun _ => cpu) [] := by
        rw [hpc, hP]
        exact .user
      exact ⟨t, _, _, [], rfl, h.did hu hreg hsite hd .user, hP ▸ hd, huniq⟩

/-- What a step of a switching thread leaves alone: the tables, the records of
    other threads, the keys of the fibers, and the attachment and the lock of a
    fiber it is not committed to and does not take. -/
theorem did_frame (h : Guard E C s P site) (hu : u ≠ C.maker)
    (hreg : ∀ t', C.reg u = some t' → t' = t)
    (hd : Did E C s.st u t (s.pc u) (P u) pc' k' ss) :
    k'.processes = s.st.processes ∧ k'.process = s.st.process ∧ k'.brk = s.st.brk ∧
    (∀ t', C.reg u ≠ some t' → k'.thread t' = s.st.thread t') ∧
    (∀ x, k'.fiberKey x = s.st.fiberKey x) ∧
    (∀ x, ¬ mentions (P u) x → ((s.pc u).trying = some x → s.st.locked x = true) →
      attachment k' x = attachment s.st x ∧ k'.locked x = s.st.locked x) ∧
    ∀ v, v ≠ ⟨C.tgid, u⟩ → k'.cpu v = s.st.cpu v := by
  have hno : C.reg u = none → P u = [] := fun hn => (h.unreg u hu hn).2
  have hsound := h.sound u t hu
  have hpriv := h.priv u
  generalize s.pc u = pc at hd ⊢
  generalize P u = ss₀ at hd hno hsound hpriv ⊢
  cases hd with
  | moved | failed =>
    exact ⟨rfl, rfl, rfl, fun _ _ => rfl, fun _ => rfl, fun _ _ _ => ⟨rfl, rfl⟩, fun _ _ => rfl⟩
  | user =>
    exact ⟨rfl, rfl, rfl, fun _ _ => rfl, fun _ => rfl, fun _ _ _ => ⟨rfl, rfl⟩,
      fun v hv => by simp [hv]⟩
  | @ran st rest ss next =>
    obtain ⟨h1, h2, h3⟩ : (st.apply E ⟨C.tgid, u⟩ s.st).processes = s.st.processes ∧
        (st.apply E ⟨C.tgid, u⟩ s.st).process = s.st.process ∧
        (st.apply E ⟨C.tgid, u⟩ s.st).brk = s.st.brk := apply_rest hpriv.head
    refine ⟨h1, h2, h3, fun t' ht' => apply_thread_of_ne hpriv.head fun hs => ?_,
      fun x => apply_fiberKey hpriv.head x, fun x hx _ => ?_,
      fun v hv => apply_cpu_of_ne hpriv.head hv⟩
    · cases hr : C.reg u with
      | none => exact absurd (hno hr) (by simp)
      | some t'' =>
        obtain rfl := hreg t'' hr
        cases st with
        | select t₁ f =>
          obtain rfl : t₁ = t' := by simpa [selects] using hs
          obtain rfl := ((hsound hr).2.1 t₁ f rfl).1
          exact ht' hr
        | _ => simp [selects] at hs
    · have hfib : (st.apply E ⟨C.tgid, u⟩ s.st).fiber x = s.st.fiber x :=
        apply_fiber_of_ne hpriv.head fun hs => hx (mentions_cons.mpr (.inl hs))
      simp [attachment, Kernel.locked, hfib]
  | @locked id f prev hf hl hsel =>
    refine ⟨rfl, rfl, rfl, fun _ _ => rfl, fun x => fiberKey_withLock _ _ _, fun x _ hx => ?_,
      fun _ _ => rfl⟩
    have hxf : x ≠ f := by rintro rfl; simp [hx rfl] at hl
    exact ⟨attachment_withLock _ _ _, locked_withLock_of_ne hxf⟩
  | @counted id f =>
    refine ⟨rfl, rfl, rfl, fun _ _ => rfl, fun x => ?_, fun x _ _ => ?_, fun _ _ => rfl⟩ <;>
    · by_cases hx : x = f
      · subst hx
        cases hk : s.st.fiber x <;>
          simp [attachment, Kernel.locked, Kernel.fiberKey, Kernel.bumped, hk]
      · simp [attachment, Kernel.locked, Kernel.fiberKey, Kernel.bumped, hx]

/-- A thread only tries the locks of fibers on the table. -/
theorem trying_onTable {x : Ptr} (h : Guard E C s P site) (hu : u ≠ C.maker)
    (hx : (s.pc u).trying = some x) : s.st.onTable C.ep x := by
  cases hr : C.reg u with
  | none =>
    rw [(h.unreg u hu hr).1] at hx
    cases hx
  | some t =>
    have hk := h.known u t hu hr
    generalize s.pc u = pc at hk hx
    generalize P u = ss at hk
    cases hk with
    | trylock id f hf =>
      obtain rfl : f = x := by simpa [Pc.trying] using hx
      exact hf
    | _ => simp [Pc.trying] at hx

/-- A statement of the maker that leaves the fibers on the table alone, but for its
    site. -/
theorem make (h : Guard E C s P site) (hps : k'.processOf E C.tgid = some (some C.ep))
    (hrec : ∃ p, k'.process C.ep = some p ∧ p.threads.WF E.hash k'.threadKey ∧
      p.threads.InjKeys k'.threadKey ∧ p.fibers.WF E.hash k'.fiberKey ∧
      ∀ u t, C.reg u = some t → t ∈ p.threads)
    (hthread : ∀ v t, C.reg v = some t → k'.thread t = s.st.thread t)
    (hon : ∀ x, s.st.onTable C.ep x → k'.onTable C.ep x)
    (hfiber : ∀ x, s.st.onTable C.ep x → site ≠ some x →
      attachment k' x = attachment s.st x ∧ k'.locked x = s.st.locked x)
    (hfree : ∀ x, k'.onTable C.ep x → site' ≠ some x → k'.locked x = false → k'.attached x = none)
    (hsite : ∀ f, site' = some f → k'.locked f = false) :
    Guard E C (s.goto C.maker k' pc') P site' := by
  have hsel : ∀ v t, C.reg v = some t → k'.selected t = s.st.selected t := fun v t ht => by
    rw [Kernel.selected, hthread v t ht, Kernel.selected]
  -- a locked fiber is not the site
  have hlocked : ∀ x, s.st.onTable C.ep x → s.st.locked x = true →
      attachment k' x = attachment s.st x ∧ k'.locked x = s.st.locked x := fun x hx hl =>
    hfiber x hx fun hs => by simp [h.site x hs] at hl
  have hself : Function.update P C.maker (P C.maker) = P := Function.update_eq_self _ P
  rw [← hself]
  refine h.of_frame hps hrec (fun v t ht => ?_) (fun v t _ ht => hthread v t ht) hon
    (fun v x hv hx => ?_) (h.priv _) (fun v x hv hx hm => hv (h.excl v _ x hm hx)) (fun x hx => ?_)
    (fun x hx => hon x (h.table _ x hx)) (fun t ht => ?_)
    (fun v t x hv ht hs hx => hv (h.apart v _ t x ht hs hx)) (fun t hm => absurd rfl hm) hfree hsite
    (fun t hm => absurd rfl hm) (fun hm => absurd rfl hm)
  · rw [Kernel.threadKey, hthread v t ht]
    exact h.key v t ht
  · rcases hx with hx | ⟨t, ht, hx⟩
    · exact hlocked x (h.table v x hx) (h.locked v x hx)
    · obtain ⟨y, hy, h2, h3⟩ := h.runs v t ht
      obtain rfl : y = x := by simpa [hy] using hx
      exact hlocked y h2 h3
  · rw [(hlocked x (h.table _ x hx) (h.locked _ x hx)).2]
    exact h.locked _ x hx
  · obtain ⟨x, h1, h2, h3⟩ := h.runs _ t ht
    exact ⟨x, (hsel _ t ht).trans h1, hon x h2, (hlocked x h2 h3).2.trans h3,
      fun v t' hv ht' he => hv (h.runsExcl v _ t' t ht' ht (he.trans h1.symm)),
      fun v hv hm => hv (h.apart _ v t x ht h1 hm).symm⟩

/-- A statement of the maker that changes the process record, keeps its key and
    takes nothing off its tables. -/
theorem changeProcess {p : Process} {φ : Process → Process} (h : Guard E C s P none)
    (hp : s.st.process C.ep = some p) (hk' : k' = s.st.modProcess C.ep φ)
    (hφ : ∀ r, (φ r).processId = r.processId)
    (hthreads : (φ p).threads.WF E.hash s.st.threadKey ∧ (φ p).threads.InjKeys s.st.threadKey)
    (hfibers : (φ p).fibers.WF E.hash s.st.fiberKey)
    (hkeep : (∀ t ∈ p.threads, t ∈ (φ p).threads) ∧ ∀ x ∈ p.fibers, x ∈ (φ p).fibers)
    (hnew : ∀ x ∈ (φ p).fibers, x ∈ p.fibers ∨ site' = some x ∨ s.st.attached x = none)
    (hsite : ∀ x, site' = some x → s.st.locked x = false) :
    Guard E C (s.goto C.maker k' pc') P site' := by
  obtain ⟨p₀, hp₀, -, -, -, hmem⟩ := h.record
  obtain rfl : p = p₀ := Option.some.inj (hp.symm.trans hp₀)
  subst hk'
  have hp' : (s.st.modProcess C.ep φ).process C.ep = some (φ p) := by simp [hp]
  refine h.make ?_ ⟨φ p, hp', hthreads.1, hthreads.2, hfibers, fun v t hv => hkeep.1 t (hmem v t hv)⟩
    (fun _ _ _ => rfl) ?_ (fun _ _ _ => ⟨rfl, rfl⟩) ?_ hsite
  · rw [processOf_modProcess hφ]
    exact h.processOf
  · rintro x ⟨q, hq, hx⟩
    obtain rfl : p = q := Option.some.inj (hp.symm.trans hq)
    exact ⟨φ p, hp', hkeep.2 x hx⟩
  · rintro x ⟨q, hq, hx⟩ hs hl
    obtain rfl : φ p = q := Option.some.inj (hp'.symm.trans hq)
    rcases hnew x hx with hx | hx | hx
    · exact h.free x ⟨p, hp, hx⟩ (fun hn => by cases hn) hl
    · exact absurd hx hs
    · exact hx

/-- A statement of the maker that changes no table, no key on a table, no record of
    a converted thread, and the attachment and the lock of no fiber on the table but
    its site. -/
theorem changeRecords (h : Guard E C s P site) (hps : k'.processes = s.st.processes)
    (hproc : k'.process = s.st.process) (htk : k'.threadKey = s.st.threadKey)
    (hthread : ∀ v t, C.reg v = some t → k'.thread t = s.st.thread t)
    (hkey : ∀ x, s.st.onTable C.ep x → k'.fiberKey x = s.st.fiberKey x)
    (hfiber : ∀ x, s.st.onTable C.ep x → site ≠ some x →
      attachment k' x = attachment s.st x ∧ k'.locked x = s.st.locked x)
    (hsite : ∀ x, site = some x → k'.locked x = false) : Guard E C (s.goto C.maker k' pc') P site := by
  obtain ⟨p, hp, hwf, hinj, hfwf, hmem⟩ := h.record
  have hon : ∀ x, k'.onTable C.ep x ↔ s.st.onTable C.ep x := by
    intro x
    rw [Kernel.onTable, Kernel.onTable, hproc]
  refine h.make ?_ ⟨p, by rw [hproc, hp], by rwa [htk], by rwa [htk],
    hfwf.congr fun x hx => hkey x ⟨p, hp, hx⟩, hmem⟩ hthread (fun x hx => (hon x).mpr hx) hfiber ?_ hsite
  · have hpk : k'.processKey = s.st.processKey := by
      funext x
      rw [Kernel.processKey, Kernel.processKey, hproc]
    rw [Kernel.processOf, hps, hpk]
    exact h.processOf
  · intro x hx hs hl
    obtain ⟨hatt, hlock⟩ := hfiber x ((hon x).mp hx) hs
    rw [attached_eq, hatt, ← attached_eq]
    exact h.free x ((hon x).mp hx) hs (hlock ▸ hl)

end Guard

/-! ## The start -/

/-- The converted threads of the process `p` at `ep`. -/
def Kernel.crew (E : Env) (k : Kernel) (g maker : PidT) (ep : Ptr) (p : Process) : Crew where
  tgid := g
  ep := ep
  reg u := (k.threadOf E p u).join
  reg_inj := Kernel.threadOf_inj E k p
  maker := maker

/-- A thread that runs a fiber is of the crew. -/
theorem Kernel.crew_reg_isSome {E : Env} {k : Kernel} {g u maker : PidT} {ep : Ptr} {p : Process}
    (hep : k.processOf E g = some (some ep)) (hp : k.process ep = some p)
    (hu : (k.running E ⟨g, u⟩).isSome) : ((k.crew E g maker ep p).reg u).isSome := by
  obtain ⟨f, hf⟩ := Option.isSome_iff_exists.mp hu
  simp only [Kernel.running, hep, Option.join_some, Option.bind_some, hp] at hf
  obtain ⟨tp, htp, -⟩ := Option.bind_eq_some_iff.mp hf
  exact Option.isSome_iff_exists.mpr ⟨tp, htp⟩

theorem Guard.start {E : Env} {k : Kernel} {g maker : PidT} {ep : Ptr} {p : Process} {s : Conf}
    (h : Shape E k) (hep : k.processOf E g = some (some ep)) (hp : k.process ep = some p)
    (hst : s.st = k) (hpc : ∀ u, u ≠ maker → s.pc u = .user) :
    Guard E (k.crew E g maker ep p) s (fun _ => []) none := by
  obtain ⟨hmem, hok, hid⟩ := h.processOf_found hep hp
  have hreg : ∀ u t, (k.crew E g maker ep p).reg u = some t →
      t ∈ p.threads ∧ k.threadKey t = some u := fun u t hu =>
    HashTable.find_eq_some (Option.join_eq_some_iff.mp hu)
  subst hst
  refine ⟨hep, ⟨p, hp, hok.threadsWF, hok.threadsInj, hok.fibersWF, fun u t hu => (hreg u t hu).1⟩,
    fun u t hu => (hreg u t hu).2, fun _ => by simp [AllPrivate], by simp, by simp, by simp,
    fun u t hu => ?_, fun u v t t' hu hv he => ?_, by simp, fun _ _ _ _ => trivial,
    fun x hx _ hl => ?_, by simp, fun u t hu _ => ?_, fun u hu _ => ⟨hpc u hu, rfl⟩⟩
  · obtain ⟨x, hx, h1, h2⟩ := hok.selected t (hreg u t hu).1
    exact ⟨x, h1, ⟨p, hp, hx⟩, (hok.locked x hx).mpr (by simp [h2])⟩
  · obtain rfl := hok.selected_inj (hreg u t hu).1 (hreg v t' hv).1 he
    exact Crew.reg_inj _ u v t hu hv
  · obtain ⟨p', hp', hx⟩ := hx
    obtain rfl : p = p' := by simpa [Kernel.crew, hp] using hp'
    have := (hok.locked x hx).not.mp (by simp [hl])
    simpa using this
  · rw [hpc u hu]
    exact .user

/-! ## The system -/

/-- The thread `maker` has just called into the module, everybody else is in user
    code. -/
def Conf.calling (k : Kernel) (maker : PidT) (c : Call) : Conf :=
  ⟨k, Function.update (fun _ => .user) maker (.entry c)⟩

/-- A step of the call of `maker` or of a switch by a thread of process `g` that was
    converted in state `k₀`. -/
def MakerStep (E : Env) (g : PidT) (k₀ : Kernel) (maker : PidT) (s : Conf) (m : Move) (s' : Conf) :
    Prop :=
  m.pre = s ∧ CStep E g s (m.thread, m.act) s' ∧ ∀ c, m.act = .start c →
    m.thread ≠ maker ∧ (k₀.running E ⟨g, m.thread⟩).isSome ∧ ∃ id, c = .switchTo id

/-- The maker runs on its own from its call on. -/
theorem exists_run_calling {E : Env} {g maker : PidT} {c : Call} {k k' : Kernel} {pc : Pc}
    (h : Solo E ⟨g, maker⟩ (.entry c, k) (pc, k')) :
    ∃ ms, Run (MakerStep E g k maker) (.calling k maker c) ms
      ((Conf.calling k maker c).goto maker k' pc) ∧ ∀ m ∈ ms, m.thread = maker := by
  have hself : (Conf.calling k maker c).goto maker k (.entry c) = .calling k maker c :=
    Conf.goto_goto (Conf.idle k) maker k k _ _
  obtain ⟨ms, hms⟩ := Solo.exists_run (s := .calling k maker c)
    (R := fun s m s' => MakerStep E g k maker s m s' ∧ m.thread = maker)
    (fun s => ⟨s, maker, .stmt⟩) (fun s s' hc => ⟨⟨rfl, hc, by rintro _ ⟨⟩⟩, rfl⟩) h
  rw [hself] at hms
  exact ⟨ms, hms.mono fun _ _ _ hs => hs.1, hms.forall_label fun _ _ _ hs => hs.2⟩

/-! ## A thread on its own that avoids a statement -/

/-- Any number of statements of `cur`, none of them `st`. -/
def SoloAvoid (E : Env) (cur : Task) (st : Stmt) : Pc × Kernel → Pc × Kernel → Prop :=
  Relation.ReflTransGen fun x y => SoloStep E cur x y ∧ x.1.upcoming ≠ some st

namespace SoloAvoid

variable {E : Env} {cur : Task} {st : Stmt} {k k₁ k' : Kernel} {pc y : Pc} {x z w : Pc × Kernel}

theorem refl : SoloAvoid E cur st x x := Relation.ReflTransGen.refl

theorem trans (h : SoloAvoid E cur st x z) (h' : SoloAvoid E cur st z w) : SoloAvoid E cur st x w :=
  Relation.ReflTransGen.trans h h'

theorem step (h : pc.step E cur k = some (y, k₁)) (hne : pc.upcoming ≠ some st)
    (h' : SoloAvoid E cur st (y, k₁) x) : SoloAvoid E cur st (pc, k) x :=
  Relation.ReflTransGen.head ⟨h, hne⟩ h'

theorem solo (h : SoloAvoid E cur st x z) : Solo E cur x z :=
  Relation.ReflTransGen.mono (fun _ _ h => h.1) _ _ h

/-- The first statements of a list. -/
theorem run {ss ss' : List Stmt} (h : execAll E cur ss k = some ((), k')) (hst : st ∉ ss) :
    SoloAvoid E cur st (.run (ss ++ ss') pc, k) (.run ss' pc, k') := by
  induction ss generalizing k with
  | nil =>
    obtain rfl : k = k' := by simpa [execAll] using h
    exact .refl
  | cons s ss ih =>
    simp only [execAll, K.bind_eq_some] at h
    obtain ⟨_, k₁, h1, h2⟩ := h
    refine .step (by simp only [List.cons_append, Pc.step, K.bind_apply, h1]; rfl) ?_
      (ih h2 fun hm => hst (List.mem_cons_of_mem s hm))
    intro he
    obtain rfl : s = st := by simpa [Pc.upcoming] using he
    exact hst (List.mem_cons_self ..)

theorem exists_run {g u maker : PidT} {k₀ : Kernel} {s : Conf} (h : SoloAvoid E ⟨g, u⟩ st x z) :
    ∃ ms, Run (MakerStep E g k₀ maker) (s.goto u x.2 x.1) ms (s.goto u z.2 z.1) ∧
      ∀ m ∈ ms, m.thread = u ∧ (m.pre.pc m.thread).upcoming ≠ some st := by
  induction h with
  | refl => exact ⟨[], .nil, by simp⟩
  | @tail y z _ hstep ih =>
    obtain ⟨ms, hms, hall⟩ := ih
    have hc : CStep E g (s.goto u y.2 y.1) (u, .stmt) (s.goto u z.2 z.1) :=
      ⟨z.1, z.2, by simpa using show y.1.step E ⟨g, u⟩ y.2 = some z from hstep.1,
        (s.goto_goto u y.2 z.2 y.1 z.1).symm⟩
    have hm : MakerStep E g k₀ maker (s.goto u y.2 y.1) ⟨s.goto u y.2 y.1, u, .stmt⟩ (s.goto u z.2 z.1) :=
      ⟨rfl, hc, by rintro _ ⟨⟩⟩
    refine ⟨_, hms.snoc hm, ?_⟩
    intro m hm'
    rcases List.mem_append.mp hm' with hm' | hm'
    · exact hall m hm'
    · obtain rfl := List.mem_singleton.mp hm'
      exact ⟨rfl, by simpa using hstep.2⟩

end SoloAvoid

/-- A converted thread comes to the trylock of the fiber that `id` leads to, and
    takes it if it is free. -/
theorem Guard.solo_trylock {E : Env} {C : Crew} {s : Conf} {P : PidT → List Stmt} {site : Option Ptr}
    {u id : PidT} {f t : Ptr} (st : Stmt) (h : Guard E C s P site) (hreg : C.reg u = some t)
    (hfound : s.st.leadsTo E C.ep id f) (hlock : s.st.locked f = false) :
    SoloAvoid E ⟨C.tgid, u⟩ st (.findProcess (.switchTo id), s.st)
      (.checkAttached id t f, s.st.withLock f) := by
  obtain ⟨p, hp, hwf, hinj, hfwf, hmem⟩ := h.record
  obtain ⟨q, hq, hfind⟩ := hfound
  obtain rfl : p = q := Option.some.inj (hp.symm.trans hq)
  have hthread : s.st.threadOf E p u = some (some t) :=
    hinj.find_of_mem hwf (hmem u t hreg) (h.key u t hreg)
  obtain ⟨r, hr⟩ := h.fiber_exists ⟨p, hp, (HashTable.find_eq_some hfind).1⟩
  have hr' : r.fiberLock = false := by simpa [Kernel.locked, hr] using hlock
  have h1 : findProcessByTgid E C.tgid s.st = some (some C.ep, s.st) :=
    findProcessByTgid_eq_some.mpr ⟨h.processOf, rfl⟩
  have h2 : findThreadByPid E u C.ep s.st = some (some t, s.st) :=
    findThreadByPid_eq_some.mpr ⟨p, hp, hthread, rfl⟩
  have h3 : findFiberById E id C.ep s.st = some (some f, s.st) :=
    findFiberById_eq_some.mpr ⟨p, hp, hfind, rfl⟩
  refine .step (by simp only [Pc.step, K.bind_apply, h1]; rfl) (by rintro ⟨⟩) ?_
  refine .step (by simp only [Pc.step, K.bind_apply, h2]; rfl) (by rintro ⟨⟩) ?_
  refine .step (by simp only [Call.enter, Pc.step, K.bind_apply, h3]; rfl) (by rintro ⟨⟩) ?_
  refine .step ?_ (by rintro ⟨⟩) .refl
  simp only [Pc.step, K.bind_apply, spinTrylock, hr, hr', Option.map_some]
  rfl

end AosvFibers
