import AosvFibers.Interleaved.Pending
import AosvFibers.Atomic.Switch

/-!
# Concurrent switching: the simulation

Converted threads of one process switch, use their local storage and die,
statement by statement in any order. `Sim` relates such a configuration to a
state `a` of the atomic system, in which every call that has taken effect is
already over:

* a switch takes effect at its `spin_trylock`, the death of a thread at its
  `atomic64_dec_return`, an FLS operation at its first look at the fiber (a read
  at the look at the value), a failed switch when it is counted;
* what a call still has to do after that is its thread's list of pending
  statements (`View`), which mention only fibers the thread has locked.

`Live` and `Gone` say what is known about a thread at each place, and
`Sim.of_frame` is the rule all steps share: a step of one thread leaves what is
known about the others intact.
-/

namespace AosvFibers

open Lib Stmt

/-! ## What is fixed during the run -/

/-- The process at `ep` with its converted threads: `reg` gives their records,
    `target` what `find_fiber_by_id` finds for each id. The thread `keeper` never
    dies. -/
structure Team where
  tgid : PidT
  ep : Ptr
  reg : PidT → Option Ptr
  reg_inj : ∀ u v t, reg u = some t → reg v = some t → u = v
  target : PidT → Option (Option Ptr)
  keeper : PidT

/-- What `find_fiber_by_id` finds for an id in the process at `ep`. -/
def Kernel.lookup (E : Env) (k : Kernel) (ep : Ptr) (id : PidT) : Option (Option Ptr) :=
  (k.process ep).bind fun p => k.fiberOf E p id

/-- The thread record `t` is on the table of the process at `ep`. -/
def Kernel.linked (k : Kernel) (ep t : Ptr) : Prop := ∃ p, k.process ep = some p ∧ t ∈ p.threads

/-- A call that may be made: a switch, an FLS operation or, if `mortal`, the
    thread's death. -/
def Call.shared (mortal : Prop) : Call → Prop
  | .switchTo _ | .flsAlloc | .flsFree _ | .flsGetValue _ | .flsSetValue _ _ => True
  | .exit => mortal
  | .convert | .create _ _ _ _ => False

/-! ## What is known at each place -/

/-- A thread with record `t` that has not begun to die: its place and its pending
    statements. -/
inductive Live (T : Team) (mortal : Prop) (k a : Kernel) (t : Ptr) : Pc → List Stmt → Prop
  | user : Live T mortal k a t .user []
  | findProcess (c : Call) (hc : c.shared mortal) : Live T mortal k a t (.findProcess c) []
  | findThread (c : Call) (hc : c.shared mortal) : Live T mortal k a t (.findThread c T.ep) []
  | findFiber (id : PidT) : Live T mortal k a t (.findFiber id T.ep t) []
  | trylock (id : PidT) (f : Ptr) (hf : T.target id = some (some f)) :
      Live T mortal k a t (.trylock id t f) []
  | failed (id : PidT) (f : Ptr) (hf : T.target id = some (some f)) :
      Live T mortal k a t (.run [.fiber f .countFailed] (.ret (.switchTo id) (-1))) []
  | checkAttached (id : PidT) (f prev : Ptr) (hatt : k.attached f = none)
      (hsel : k.selected t = some prev) :
      Live T mortal k a t (.checkAttached id t f) (switchAttach t f ++ switchTail t f prev)
  | attaching (id : PidT) (f prev : Ptr) (ss : List Stmt) (hss : ∀ s ∈ ss, s.selects = none)
      (hsel : k.selected t = some prev) :
      Live T mortal k a t (.run ss (.readPrev id t f)) (ss ++ switchTail t f prev)
  | readPrev (id : PidT) (f prev : Ptr) (hsel : k.selected t = some prev) :
      Live T mortal k a t (.readPrev id t f) (switchTail t f prev)
  | checkSelected (c : Call) (hc : c.isFls) : Live T mortal k a t (.checkSelected c t) []
  | readSelected (c : Call) (hc : c.isFls) : Live T mortal k a t (.readSelected c t) []
  | flsTest (c : Call) (hc : c.isFls) (f : Ptr) (hsel : a.selected t = some f) :
      Live T mortal k a t (.flsTest c f) []
  | flsValue (index : ℤ) (f : Ptr) (i : FlsIndex) (hi : flsIndex? index = some i)
      (hsel : a.selected t = some f) (hbit : ∀ r, a.fiber f = some r → r.flsBitmap i = true) :
      Live T mortal k a t (.flsValue index f i) []
  | writing (ss : List Stmt) (c : Call) (v : ℤ) (hc : c ≠ .exit) :
      Live T mortal k a t (.run ss (.ret c v)) ss
  | dec (h : mortal) : Live T mortal k a t (.dec T.ep t) []
  | ret (c : Call) (v : ℤ) (hc : c ≠ .exit) : Live T mortal k a t (.ret c v) []

/-- A thread with record `t` past its `atomic64_dec_return`. -/
inductive Gone (T : Team) (k : Kernel) (t : Ptr) : Pc → List Stmt → Prop
  | checkExit (r : ℤ) (prev : Ptr) (hr : r ≠ 0) (hsel : k.selected t = some prev) :
      Gone T k t (.checkExit T.ep t r) (exitDetach (some prev) r)
  | exitPrev (r : ℤ) (prev : Ptr) (hr : r ≠ 0) (hsel : k.selected t = some prev) :
      Gone T k t (.exitPrev T.ep t r) (exitDetach (some prev) r)
  | detaching (ss : List Stmt) (r : ℤ) (hr : r ≠ 0) (ht : (k.thread t).isSome) :
      Gone T k t (.run (ss ++ [.delThread T.ep t, .freeThread t]) (.lastThread T.ep r)) ss
  | freeing (r : ℤ) (hr : r ≠ 0) (ht : (k.thread t).isSome) (hl : ¬ k.linked T.ep t) :
      Gone T k t (.run [.freeThread t] (.lastThread T.ep r)) []
  | freed (r : ℤ) (hr : r ≠ 0) (ht : k.thread t = none) (hl : ¬ k.linked T.ep t) :
      Gone T k t (.run [] (.lastThread T.ep r)) []
  | lastThread (r : ℤ) (hr : r ≠ 0) (ht : k.thread t = none) (hl : ¬ k.linked T.ep t) :
      Gone T k t (.lastThread T.ep r) []
  | ret (ht : k.thread t = none) (hl : ¬ k.linked T.ep t) : Gone T k t (.ret .exit 0) []
  | dead (ht : k.thread t = none) (hl : ¬ k.linked T.ep t) : Gone T k t .dead []

/-- What is known about the thread `u` with record `t`. -/
def Known (E : Env) (T : Team) (k a : Kernel) (u : PidT) (t : Ptr) (pc : Pc) (ss : List Stmt) :
    Prop :=
  (Live T (u ≠ T.keeper) k a t pc ss ∧ a.thread t = (applyAll E ⟨T.tgid, u⟩ ss k).thread t ∧
    ∃ r, a.thread t = some r ∧ r.threadId = u ∧ r.parent = T.ep) ∨
  (Gone T k t pc ss ∧ u ≠ T.keeper ∧ a.thread t = none)

/-- The process records of the two states: the same but for the threads that
    are dying, which only the interleaved run still has on the table. -/
structure SameRecord (E : Env) (T : Team) (k a : Kernel) (p q : Process) : Prop where
  left : k.process T.ep = some p
  right : a.process T.ep = some q
  rest : q = { p with threads := q.threads }
  threads : ∀ b, (q.threads.chain b).Sublist (p.threads.chain b)
  wf : p.threads.WF E.hash k.threadKey
  inj : p.threads.InjKeys k.threadKey
  reg : ∀ t ∈ p.threads, ∃ u, T.reg u = some t
  tgid : p.processId = T.tgid

/-- The simulation relation between the interleaved run and the atomic system. -/
structure Sim (E : Env) (T : Team) (s : Conf) (a : Kernel) (P : PidT → List Stmt) : Prop where
  inv : Inv E a
  processes : a.processes = s.st.processes
  brk : a.brk = s.st.brk
  process_ne : ∀ x, x ≠ T.ep → a.process x = s.st.process x
  record : ∃ p q, SameRecord E T s.st a p q
  target : ∀ id, a.lookup E T.ep id = T.target id
  view : View E T.tgid P s.st a
  thread_ne : ∀ t, (∀ u, T.reg u ≠ some t) → a.thread t = s.st.thread t
  locked : ∀ u x, mentions (P u) x → s.st.locked x = true
  alone : ∀ u x v t, mentions (P u) x → v ≠ u → T.reg v = some t → a.selected t ≠ some x
  tidy : ∀ u, Tidy (P u)
  own : ∀ u, ∀ s ∈ P u, ∀ t, s.selects = some t → T.reg u = some t
  keeper : (T.reg T.keeper).isSome
  unreg : ∀ u, T.reg u = none → s.pc u = .user ∧ P u = []
  known : ∀ u t, T.reg u = some t → Known E T s.st a u t (s.pc u) (P u)

/-! ## Steps of one thread leave the others alone -/

section Frame

variable {E : Env} {T : Team} {mortal : Prop} {k a k' a' : Kernel} {t : Ptr} {pc : Pc}
  {ss : List Stmt}

theorem Live.stable (h : Live T mortal k a t pc ss) (hk : k'.selected t = k.selected t)
    (ha : a'.selected t = a.selected t)
    (hatt : ∀ f, mentions ss f → k'.attached f = k.attached f)
    (hfls : ∀ f r', a.selected t = some f → a'.fiber f = some r' →
      ∃ r, a.fiber f = some r ∧ r'.flsBitmap = r.flsBitmap) :
    Live T mortal k' a' t pc ss := by
  cases h with
  | checkAttached id f prev h1 h2 =>
    refine .checkAttached id f prev ?_ (hk ▸ h2)
    rw [hatt f (by simp [switchAttach, assigns, mentions_cons, mention]), h1]
  | attaching id f prev ss h1 h2 => exact .attaching id f prev ss h1 (hk ▸ h2)
  | readPrev id f prev h2 => exact .readPrev id f prev (hk ▸ h2)
  | flsTest c hc f h1 => exact .flsTest c hc f (ha ▸ h1)
  | flsValue index f i h1 h2 h3 =>
    refine .flsValue index f i h1 (ha ▸ h2) fun r' hr' => ?_
    obtain ⟨r, hr, he⟩ := hfls f r' h2 hr'
    rw [he, h3 r hr]
  | user => exact .user
  | findProcess c hc => exact .findProcess c hc
  | findThread c hc => exact .findThread c hc
  | findFiber id => exact .findFiber id
  | trylock id f hf => exact .trylock id f hf
  | failed id f hf => exact .failed id f hf
  | checkSelected c hc => exact .checkSelected c hc
  | readSelected c hc => exact .readSelected c hc
  | writing ss c v hc => exact .writing ss c v hc
  | dec h => exact .dec h
  | ret c v hc => exact .ret c v hc

theorem Gone.stable (h : Gone T k t pc ss) (ht : k'.thread t = k.thread t)
    (hl : k'.linked T.ep t → k.linked T.ep t) : Gone T k' t pc ss := by
  have hsel : k'.selected t = k.selected t := by simp [Kernel.selected, ht]
  cases h with
  | checkExit r prev h1 h2 => exact .checkExit r prev h1 (hsel ▸ h2)
  | exitPrev r prev h1 h2 => exact .exitPrev r prev h1 (hsel ▸ h2)
  | detaching ss r h1 h2 => exact .detaching ss r h1 (ht ▸ h2)
  | freeing r h1 h2 h3 => exact .freeing r h1 (ht ▸ h2) fun h => h3 (hl h)
  | freed r h1 h2 h3 => exact .freed r h1 (ht ▸ h2) fun h => h3 (hl h)
  | lastThread r h1 h2 h3 => exact .lastThread r h1 (ht ▸ h2) fun h => h3 (hl h)
  | ret h2 h3 => exact .ret (ht ▸ h2) fun h => h3 (hl h)
  | dead h2 h3 => exact .dead (ht ▸ h2) fun h => h3 (hl h)

/-- What a step of `u` leaves alone. -/
structure Frame (T : Team) (P : PidT → List Stmt) (u : PidT) (k a k' a' : Kernel) : Prop where
  thread : ∀ t, T.reg u ≠ some t → k'.thread t = k.thread t ∧ a'.thread t = a.thread t
  linked : ∀ t, k'.linked T.ep t → k.linked T.ep t
  attached : ∀ v f, v ≠ u → mentions (P v) f →
    k'.attached f = k.attached f ∧ k'.locked f = k.locked f
  fls : ∀ v t f r', v ≠ u → T.reg v = some t → a.selected t = some f → a'.fiber f = some r' →
    ∃ r, a.fiber f = some r ∧ r'.flsBitmap = r.flsBitmap
  alone : ∀ v x t, v ≠ u → mentions (P v) x → T.reg u = some t → a'.selected t ≠ some x

/-- The rule for a step of `u`: the two states change as described, `u` goes to
    `pc` with the statements `ss` pending, and the others notice nothing. -/
theorem Sim.of_frame {s : Conf} {P : PidT → List Stmt} {u : PidT} (h : Sim E T s a P)
    (hf : Frame T P u s.st a k' a') (hinv : Inv E a') (hps : a'.processes = k'.processes)
    (hbrk : a'.brk = k'.brk) (hp : ∀ x, x ≠ T.ep → a'.process x = k'.process x)
    (hrec : ∃ p q, SameRecord E T k' a' p q)
    (htarget : ∀ id, a'.lookup E T.ep id = a.lookup E T.ep id)
    (hview : View E T.tgid (Function.update P u ss) k' a')
    (hlocked : ∀ x, mentions ss x → k'.locked x = true)
    (halone : ∀ x v t, mentions ss x → v ≠ u → T.reg v = some t → a.selected t ≠ some x)
    (htidy : Tidy ss) (hown : ∀ s ∈ ss, ∀ t, s.selects = some t → T.reg u = some t)
    (hunreg : T.reg u = none → pc = .user ∧ ss = [])
    (hknown : ∀ t, T.reg u = some t → Known E T k' a' u t pc ss) :
    Sim E T (s.goto u k' pc) a' (Function.update P u ss) := by
  -- the record of another thread is not `u`'s
  have hne : ∀ v t, v ≠ u → T.reg v = some t → T.reg u ≠ some t := fun v t hv h1 h2 =>
    hv (T.reg_inj v u t h1 h2)
  have hsel : ∀ v t, v ≠ u → T.reg v = some t → a'.selected t = a.selected t := fun v t hv h1 => by
    rw [Kernel.selected, (hf.thread t (hne v t hv h1)).2, Kernel.selected]
  refine ⟨hinv, hps, hbrk, hp, hrec, fun id => (htarget id).trans (h.target id), hview, ?_, ?_, ?_,
    ?_, ?_, h.keeper, ?_, ?_⟩
  · intro t ht
    rw [(hf.thread t (ht u)).2, h.thread_ne t ht, Conf.goto_st, (hf.thread t (ht u)).1]
  · intro v x hx
    by_cases hvu : v = u
    · subst hvu; exact hlocked x (by simpa using hx)
    · rw [Function.update_of_ne hvu] at hx
      exact (hf.attached v x hvu hx).2 ▸ h.locked v x hx
  · intro v x w t hx hwv hw
    by_cases hvu : v = u
    · subst hvu
      rw [hsel w t hwv hw]
      exact halone x w t (by simpa using hx) hwv hw
    · rw [Function.update_of_ne hvu] at hx
      by_cases hwu : w = u
      · subst hwu; exact hf.alone v x t hvu hx hw
      · rw [hsel w t hwu hw]; exact h.alone v x w t hx hwv hw
  · intro v
    by_cases hvu : v = u
    · subst hvu; simpa using htidy
    · simpa [hvu] using h.tidy v
  · intro v
    by_cases hvu : v = u
    · subst hvu; simpa using hown
    · simpa [hvu] using h.own v
  · intro v hv
    by_cases hvu : v = u
    · subst hvu; simpa using hunreg hv
    · simpa [hvu] using h.unreg v hv
  · intro v t hv
    by_cases hvu : v = u
    · subst hvu; simpa using hknown t hv
    · obtain ⟨hk, ha⟩ := hf.thread t (hne v t hvu hv)
      simp only [Conf.goto_st, Conf.goto_pc, if_neg hvu, Function.update_of_ne hvu]
      rcases h.known v t hv with ⟨h1, h2, h3⟩ | ⟨h1, h2, h3⟩
      · refine .inl ⟨h1.stable (by simp [Kernel.selected, hk]) (hsel v t hvu hv)
          (fun f hm => (hf.attached v f hvu hm).1) (fun f r' => hf.fls v t f r' hvu hv), ?_, ha ▸ h3⟩
        rw [ha, h2]
        exact applyAll_thread_congr (h.view.priv v) hk.symm
      · exact .inr ⟨h1.stable hk (hf.linked t), h2, ha ▸ h3⟩

/-- The rule for a step that keeps the pending statements. -/
theorem Sim.of_frame_same {s : Conf} {P : PidT → List Stmt} {u : PidT} (h : Sim E T s a P)
    (hf : Frame T P u s.st a k' a') (hinv : Inv E a') (hps : a'.processes = k'.processes)
    (hbrk : a'.brk = k'.brk) (hp : ∀ x, x ≠ T.ep → a'.process x = k'.process x)
    (hrec : ∃ p q, SameRecord E T k' a' p q)
    (htarget : ∀ id, a'.lookup E T.ep id = a.lookup E T.ep id) (hview : View E T.tgid P k' a')
    (hlocked : ∀ x, k'.locked x = s.st.locked x) (hunreg : T.reg u = none → pc = .user)
    (hknown : ∀ t, T.reg u = some t → Known E T k' a' u t pc (P u)) :
    Sim E T (s.goto u k' pc) a' P := by
  have hself : Function.update P u (P u) = P := Function.update_eq_self u P
  rw [← hself]
  exact h.of_frame hf hinv hps hbrk hp hrec htarget (hself.symm ▸ hview)
    (fun x hx => (hlocked x).trans (h.locked u x hx)) (h.alone u) (h.tidy u) (h.own u)
    (fun hu => ⟨hunreg hu, (h.unreg u hu).2⟩) hknown

end Frame

/-! ## What a thread finds -/

namespace Sim

variable {E : Env} {T : Team} {s : Conf} {a : Kernel} {P : PidT → List Stmt} {u : PidT} {t f : Ptr}
  {p q : Process}

theorem record_right (hr : SameRecord E T s.st a p q) : q.fibers = p.fibers := by rw [hr.rest]

theorem mem_left (hr : SameRecord E T s.st a p q) (ht : t ∈ q.threads) : t ∈ p.threads := by
  obtain ⟨b, hb⟩ := ht
  exact ⟨b, (hr.threads b).subset hb⟩

theorem lookup_left (h : Sim E T s a P) (id : PidT) : s.st.lookup E T.ep id = T.target id := by
  obtain ⟨p, q, hr⟩ := h.record
  rw [← h.target id, Kernel.lookup, Kernel.lookup, hr.left, hr.right]
  show p.fibers.find _ _ _ = q.fibers.find _ _ _
  rw [record_right hr]
  exact HashTable.find_congr fun x _ => (h.view.fiberKey_eq x).symm

theorem target_isSome (h : Sim E T s a P) (id : PidT) : ∃ r, T.target id = some r := by
  obtain ⟨p, q, hr⟩ := h.record
  have hmem := h.inv.linkedProcess T.ep (by simp [hr.right])
  obtain ⟨r, hr'⟩ := (h.inv.proc _ hmem q hr.right).fibersWF.find_isSome id
  refine ⟨r, ?_⟩
  rw [← h.target id, Kernel.lookup, hr.right]
  exact hr'

theorem processOf_left (h : Sim E T s a P) : s.st.processOf E T.tgid = some (some T.ep) := by
  obtain ⟨p, q, hr⟩ := h.record
  have hmem := h.inv.linkedProcess T.ep (by simp [hr.right])
  have hkey : ∀ x, a.processKey x = s.st.processKey x := fun x => by
    by_cases hx : x = T.ep
    · subst hx
      simp only [Kernel.processKey, hr.left, hr.right, Option.map_some]
      rw [hr.rest]
    · rw [Kernel.processKey, h.process_ne x hx, Kernel.processKey]
  have hfind := h.inv.processesInj.find_of_mem h.inv.processesWF hmem
    (k := T.tgid) (by rw [hkey]; simp [Kernel.processKey, hr.left, hr.tgid])
  rw [Kernel.processOf, ← h.processes, ← hfind]
  exact HashTable.find_congr fun x _ => (hkey x).symm

/-- A thread that has not begun to die runs a fiber in the atomic system. -/
theorem running {r : Thread} (h : Sim E T s a P) (ht : a.thread t = some r)
    (hid : r.threadId = u) (hp : r.parent = T.ep) :
    ∃ p q f rf, SameRecord E T s.st a p q ∧ Running E a ⟨T.tgid, u⟩ T.ep q t r f rf := by
  obtain ⟨p, q, hr⟩ := h.record
  obtain ⟨q', hq', htq⟩ := h.inv.linkedThread t r ht
  obtain rfl : q = q' := by simpa [hp, hr.right] using hq'
  have hc := h.inv.caller hr.right htq ht
  have hg : q.processId = T.tgid := by rw [hr.rest, ← hr.tgid]
  rw [hg, hid] at hc
  obtain ⟨f, rf, hrun⟩ := h.inv.toShape.running_of_caller hc
  exact ⟨p, q, f, rf, hr, hrun⟩

/-- Such a thread finds its own record. -/
theorem threadOf_left {r : Thread} {rf : Fiber} {ss : List Stmt} (hr : SameRecord E T s.st a p q)
    (hrun : Running E a ⟨T.tgid, u⟩ T.ep q t r f rf)
    (hss : AllPrivate ss) (ht : a.thread t = (applyAll E ⟨T.tgid, u⟩ ss s.st).thread t) :
    s.st.threadOf E p u = some (some t) := by
  have hkey : s.st.threadKey t = some u := by
    have hsame : (applyAll E ⟨T.tgid, u⟩ ss s.st).threadKey t = s.st.threadKey t :=
      applyAll_threadKey hss t
    rw [← hsame, Kernel.threadKey, ← ht, hrun.thread_eq]
    simp [hrun.threadId]
  exact hr.inj.find_of_mem hr.wf (mem_left hr hrun.thread_mem) hkey

/-- Nobody mentions the fiber that a thread with nothing pending runs. -/
theorem not_mentioned (h : Sim E T s a P) (hu : T.reg u = some t) (hP : P u = [])
    (hsel : a.selected t = some f) (v : PidT) : ¬ mentions (P v) f := by
  intro hm
  have hne : u ≠ v := by rintro rfl; simp [hP] at hm
  exact h.alone v f u t hm hne hu hsel

theorem selected_of_running {r : Thread} {rf : Fiber}
    (hrun : Running E a ⟨T.tgid, u⟩ T.ep q t r f rf) : a.selected t = some f := by
  simp [Kernel.selected, hrun.thread_eq, hrun.selected]

/-- The other threads that have not begun to die run other fibers. -/
theorem selected_ne {r : Thread} {rf : Fiber} {v : PidT} {t' f' : Ptr} (h : Sim E T s a P)
    (hrun : Running E a ⟨T.tgid, u⟩ T.ep q t r f rf) (hu : T.reg u = some t) (hv : T.reg v = some t')
    (hne : v ≠ u) (hsel : a.selected t' = some f') : f' ≠ f ∧ t' ∈ q.threads := by
  have hmem : t' ∈ q.threads := by
    rcases h.known v t' hv with ⟨-, -, r', hr', -, hpar⟩ | ⟨-, -, hnone⟩
    · obtain ⟨q', hq', hm⟩ := h.inv.linkedThread t' r' hr'
      obtain rfl : q = q' := by simpa [hpar, hrun.process_eq] using hq'
      exact hm
    · simp [Kernel.selected, hnone] at hsel
  refine ⟨?_, hmem⟩
  rintro rfl
  have := hrun.procOk.selected_inj hmem hrun.thread_mem (by rw [hsel, selected_of_running hrun])
  subst this
  exact hne (T.reg_inj v u _ hv hu)

/-! ## The kinds of steps -/

/-- A step that only moves the thread. -/
theorem silent {pc : Pc} (h : Sim E T s a P) (hunreg : T.reg u = none → pc = .user)
    (hknown : ∀ t, T.reg u = some t → Known E T s.st a u t pc (P u)) :
    Sim E T (s.goto u s.st pc) a P := by
  have hf : Frame T P u s.st a s.st a := by
    refine ⟨fun _ _ => ⟨rfl, rfl⟩, fun _ ht => ht, fun _ _ _ _ => ⟨rfl, rfl⟩,
      fun v t f r' _ _ _ hr => ⟨r', hr, rfl⟩, fun v x t hv hx hu => ?_⟩
    exact h.alone v x u t hx hv.symm hu
  exact h.of_frame_same hf h.inv h.processes h.brk h.process_ne h.record (fun _ => rfl) h.view
    (fun _ => rfl) hunreg hknown

/-- A thread runs the first of its pending statements. -/
theorem exec {pc : Pc} {st : Stmt} {ss : List Stmt} (h : Sim E T s a P) (hP : P u = st :: ss)
    (hknown : ∀ t, T.reg u = some t → Known E T (st.apply E ⟨T.tgid, u⟩ s.st) a u t pc ss) :
    Sim E T (s.goto u (st.apply E ⟨T.tgid, u⟩ s.st) pc) a (Function.update P u ss) := by
  have hpriv : AllPrivate (st :: ss) := hP ▸ h.view.priv u
  obtain ⟨hps, hproc, hbrk⟩ : (st.apply E ⟨T.tgid, u⟩ s.st).processes = s.st.processes ∧
      (st.apply E ⟨T.tgid, u⟩ s.st).process = s.st.process ∧
      (st.apply E ⟨T.tgid, u⟩ s.st).brk = s.st.brk := apply_rest hpriv.head
  have hsub : ∀ x, mentions ss x → mentions (P u) x := fun x hx => by
    rw [hP, mentions_cons]; exact .inr hx
  have hf : Frame T P u s.st a (st.apply E ⟨T.tgid, u⟩ s.st) a := by
    refine ⟨fun t ht => ⟨apply_thread_of_ne hpriv.head fun hs => ht ?_, rfl⟩, fun t ht => ?_,
      fun v f hv hm => ?_, fun v t f r' _ _ _ hr => ⟨r', hr, rfl⟩, fun v x t hv hx hu => ?_⟩
    · exact h.own u st (by simp [hP]) t hs
    · rwa [Kernel.linked, hproc] at ht
    · have hfib : (st.apply E ⟨T.tgid, u⟩ s.st).fiber f = s.st.fiber f :=
        apply_fiber_of_ne hpriv.head fun hs =>
          hv (h.view.excl v u f hm (by rw [hP, mentions_cons]; exact .inl hs))
      simp [Kernel.attached, Kernel.locked, hfib]
    · exact h.alone v x u t hx hv.symm hu
  obtain ⟨p, q, hr⟩ := h.record
  have hkey : ∀ t, (st.apply E ⟨T.tgid, u⟩ s.st).threadKey t = s.st.threadKey t := fun t =>
    apply_threadKey hpriv.head t
  refine h.of_frame hf h.inv (hps ▸ h.processes) (hbrk ▸ h.brk) (hproc ▸ h.process_ne)
    ⟨p, q, hproc ▸ hr.left, hr.right, hr.rest, hr.threads, hr.wf.congr fun t _ => hkey t,
      hr.inj.congr fun t _ => hkey t, hr.reg, hr.tgid⟩
    (fun _ => rfl) (h.view.exec hP) ?_ (fun x v t hx => h.alone u x v t (hsub x hx))
    ?_ ?_ ?_ hknown
  · intro x hx
    have htidy : Tidy (st :: ss) := hP ▸ h.tidy u
    rw [apply_locked_of_ne hpriv.head fun hs => htidy.1 x hs hx]
    exact h.locked u x (hsub x hx)
  · exact (hP ▸ h.tidy u : Tidy (st :: ss)).2
  · exact fun s' hs' => h.own u s' (by simp [hP, hs'])
  · intro hu
    simp [(h.unreg u hu).2] at hP

/-- A failed attempt on `f` is counted. -/
theorem bump {pc : Pc} (h : Sim E T s a P) (f : Ptr) (hreg : T.reg u = some t)
    (hknown : Known E T (s.st.bumped f) (a.bumped f) u t pc (P u)) :
    Sim E T (s.goto u (s.st.bumped f) pc) (a.bumped f) P := by
  have hatt : ∀ (k : Kernel) x, (k.bumped f).attached x = k.attached x ∧
      (k.bumped f).locked x = k.locked x ∧ (k.bumped f).fiberKey x = k.fiberKey x := fun k x => by
    by_cases hx : x = f
    · subst hx
      cases hk : k.fiber x <;>
        simp [Kernel.attached, Kernel.locked, Kernel.fiberKey, Kernel.bumped, hk]
    · simp [Kernel.attached, Kernel.locked, Kernel.fiberKey, Kernel.bumped, hx]
  have hf : Frame T P u s.st a (s.st.bumped f) (a.bumped f) := by
    refine ⟨fun _ _ => ⟨rfl, rfl⟩, fun _ ht => ht, fun v x _ _ => ⟨(hatt _ x).1, (hatt _ x).2.1⟩,
      fun v t x r' _ _ _ hr => ?_, fun v x t hv hx hu => h.alone v x u t hx hv.symm hu⟩
    by_cases hx : x = f
    · subst hx
      simp only [Kernel.bumped, Kernel.modFiber_fiber, if_pos, Option.map_eq_some_iff] at hr
      obtain ⟨r, hr, rfl⟩ := hr
      exact ⟨r, hr, rfl⟩
    · exact ⟨r', by simpa [Kernel.bumped, hx] using hr, rfl⟩
  obtain ⟨p, q, hr⟩ := h.record
  refine h.of_frame_same hf (h.inv.bumped f) h.processes h.brk h.process_ne
    ⟨p, q, hr.left, hr.right, hr.rest, hr.threads, hr.wf, hr.inj, hr.reg, hr.tgid⟩ (fun id => ?_)
    (h.view.bumped f) (fun x => (hatt s.st x).2.1) (fun hu => by simp [hreg] at hu) fun t' ht' => ?_
  · rw [Kernel.lookup, Kernel.lookup, show (a.bumped f).process = a.process from rfl]
    cases a.process T.ep with
    | none => rfl
    | some p => exact HashTable.find_congr fun x _ => (hatt a x).2.2
  · obtain rfl : t = t' := by simpa [hreg] using ht'
    exact hknown

/-- A thread with nothing pending takes the lock of `f`, and thereby switches. -/
theorem switch {r : Thread} {prev : Ptr} {rf rp : Fiber} {id : PidT} (h : Sim E T s a P)
    (hreg : T.reg u = some t) (hP : P u = []) (hk : Known E T s.st a u t (s.pc u) [])
    (hrun : Running E a ⟨T.tgid, u⟩ T.ep q t r prev rp) (hid : a.fiberOf E q id = some (some f))
    (hf : s.st.fiber f = some rf) (hl : rf.fiberLock = false) :
    doSwitchToFiber E ⟨T.tgid, u⟩ id u a = some (0, a.switched ⟨T.tgid, u⟩ t f prev r rf rp) ∧
      Sim E T (s.goto u (s.st.modFiber f fun r => { r with fiberLock := true })
          (.checkAttached id t f)) (a.switched ⟨T.tgid, u⟩ t f prev r rf rp)
        (Function.update P u (switchAttach t f ++ switchTail t f prev)) := by
  set cur : Task := ⟨T.tgid, u⟩ with hcur
  set k' := s.st.modFiber f fun r => { r with fiberLock := true } with hk'
  set ss := switchAttach t f ++ switchTail t f prev with hss
  -- nobody has `f` in mind, since everybody's fibers are locked
  have hfree : ∀ v, ¬ mentions (P v) f := fun v hm => by
    simpa [Kernel.locked, hf, hl] using h.locked v f hm
  have hfa : a.fiber f = some rf := by rw [h.view.idle f hfree, hf]
  have hfm : f ∈ q.fibers := (HashTable.find_eq_some hid).1
  obtain ⟨hatt, hne⟩ := hrun.free_fiber hfm hfa hl
  have hselp : a.selected t = some prev := selected_of_running hrun
  have hprev : ∀ v, ¬ mentions (P v) prev := h.not_mentioned hreg hP hselp
  have hpk : s.st.fiber prev = some rp := by rw [← h.view.idle prev hprev, hrun.fiber_eq]
  have hthread : a.thread t = s.st.thread t := by
    rcases hk with ⟨-, h2, -⟩ | ⟨-, -, h3⟩
    · exact h2
    · simp [hrun.thread_eq] at h3
  have hstep : doSwitchToFiber E cur id u a = some (0, a.switched cur t f prev r rf rp) :=
    doSwitchToFiber_free hrun.toCaller hid hfa hl hatt hrun.selected hrun.fiber_eq hne
  have hinv : Inv E (a.switched cur t f prev r rf rp) :=
    h.inv.step (.switched hrun hid hfa hl hatt hne)
  -- the lock alone, then everything else at once
  have hview : View E T.tgid (Function.update P u ss) k' (a.switched cur t f prev r rf rp) := by
    have hlock : View E T.tgid P k' (a.modFiber f fun r => { r with fiberLock := true }) := by
      refine h.view.of_idle hP (fun v x hx => ?_) (fun x hx => ?_) (fun v _ => ⟨rfl, rfl⟩)
        (h.view.cpu_of_nil hP)
      · have hxf : x ≠ f := by rintro rfl; exact hfree v hx
        simp [hk', hxf]
      · by_cases hxf : x = f
        · subst hxf; simp [hk', hfa, hf]
        · simpa [hk', hxf] using h.view.idle x hx
    rw [← applyAll_switch (E := E) hne hrun.thread_eq hfa hrun.fiber_eq]
    refine hlock.extend hP (allPrivate_switch t f prev) fun v x hx => ?_
    rcases eq_of_mentions_switch hx with rfl | rfl
    · exact hfree v
    · exact hprev v
  have hframe : Frame T P u s.st a k' (a.switched cur t f prev r rf rp) := by
    refine ⟨fun t' ht' => ⟨rfl, ?_⟩, fun _ ht' => ht', fun v x hv hx => ?_,
      fun v t' x r' hv hreg' hsel hr' => ?_, fun v x t' hv hx hreg' => ?_⟩
    · have hne' : t' ≠ t := by rintro rfl; exact ht' hreg
      simp [Kernel.switched, hne']
    · have hxf : x ≠ f := by rintro rfl; exact hfree v hx
      simp [Kernel.attached, Kernel.locked, hk', hxf]
    · obtain ⟨hxp, hm⟩ := h.selected_ne hrun hreg hreg' hv hsel
      have hxf : x ≠ f := by
        rintro rfl
        exact hrun.procOk.not_selected hfa hatt t' hm hsel
      exact ⟨r', by simpa [Kernel.switched, hxp, hxf] using hr', rfl⟩
    · obtain rfl : t = t' := by simpa [hreg] using hreg'
      have hxf : f ≠ x := by rintro rfl; exact hfree v hx
      simpa [Kernel.selected, Kernel.switched] using hxf
  obtain ⟨p, q', hr⟩ := h.record
  obtain rfl : q = q' := by simpa [hrun.process_eq] using hr.right
  refine ⟨hstep, h.of_frame hframe hinv h.processes h.brk h.process_ne
    ⟨p, q, hr.left, hr.right, hr.rest, hr.threads, hr.wf, hr.inj, hr.reg, hr.tgid⟩ (fun i => ?_) hview
    ?_ ?_ ?_ ?_ (fun hu => by simp [hreg] at hu) fun t' ht' => ?_⟩
  · rw [Kernel.lookup, Kernel.lookup, show (a.switched cur t f prev r rf rp).process = a.process from rfl,
      hrun.process_eq]
    refine HashTable.find_congr fun x _ => ?_
    rw [hview.fiberKey_eq, h.view.fiberKey_eq]
    by_cases hxf : x = f
    · subst hxf; simp [Kernel.fiberKey, hk', hf]
    · simp [Kernel.fiberKey, hk', hxf]
  · intro x hx
    rcases eq_of_mentions_switch hx with rfl | rfl
    · simp [Kernel.locked, hk', hf]
    · simp [Kernel.locked, hk', Ne.symm hne, hpk, hrun.locked]
  · intro x v t' hx hv hreg' hsel
    obtain ⟨hxp, hm⟩ := h.selected_ne hrun hreg hreg' hv hsel
    rcases eq_of_mentions_switch hx with rfl | rfl
    · exact hrun.procOk.not_selected hfa hatt t' hm hsel
    · exact hxp rfl
  · exact tidy_switch hne
  · exact fun s' hs' t' ht' => selects_switch hs' ht' ▸ hreg
  · obtain rfl : t = t' := by simpa [hreg] using ht'
    refine .inl ⟨.checkAttached id f prev ?_ ?_, ?_, { r with selectedFiber := some f },
      by simp [Kernel.switched], hrun.threadId, hrun.parent⟩
    · simp [Kernel.attached, hk', hf, hatt]
    · simpa [Kernel.selected, hk', ← hthread, hrun.thread_eq] using hrun.selected
    · rw [← applyAll_switch (E := E) hne hrun.thread_eq hfa hrun.fiber_eq]
      exact applyAll_thread_congr (allPrivate_switch t f prev) hthread

/-- A thread with nothing pending decides on a write to the storage of the
    fiber it runs. -/
theorem write {r : Thread} {rf : Fiber} {as : Assign} {pc : Pc} {c : Call} {v : ℤ}
    (h : Sim E T s a P) (hreg : T.reg u = some t) (hP : P u = [])
    (hrun : Running E a ⟨T.tgid, u⟩ T.ep q t r f rf) (hth : a.thread t = s.st.thread t)
    (hpriv : (Stmt.fiber f as).isPrivate) (hinv : Inv E (applyAll E ⟨T.tgid, u⟩ (assigns f [as]) a))
    (hpc : pc = .run (assigns f [as]) (.ret c v)) (hc : c ≠ .exit) :
    Sim E T (s.goto u s.st pc) (applyAll E ⟨T.tgid, u⟩ (assigns f [as]) a)
      (Function.update P u (assigns f [as])) := by
  have hselp : a.selected t = some f := selected_of_running hrun
  have hidle : ∀ v, ¬ mentions (P v) f := h.not_mentioned hreg hP hselp
  have hall : AllPrivate (assigns f [as]) := by simpa [assigns, AllPrivate] using hpriv
  have hmen : ∀ x, mentions (assigns f [as]) x → x = f := fun x hx => by
    simpa [assigns, mentions_cons, mention, eq_comm] using hx
  have hsel0 : ∀ s' ∈ assigns f [as], s'.selects = none := by simp [assigns, selects]
  obtain ⟨p, q', hr⟩ := h.record
  obtain rfl : q = q' := by simpa [hrun.process_eq] using hr.right
  have hview : View E T.tgid (Function.update P u (assigns f [as])) s.st
      (applyAll E ⟨T.tgid, u⟩ (assigns f [as]) a) :=
    h.view.extend hP hall fun v x hx => hmen x hx ▸ hidle v
  refine h.of_frame ⟨fun _ _ => ⟨rfl, rfl⟩, fun _ ht' => ht', fun v x hv hx => ⟨rfl, rfl⟩,
      fun v t' x r' hv hreg' hsel hr' => ?_, fun v x t' hv hx hreg' => ?_⟩ hinv h.processes h.brk
    h.process_ne ⟨p, q, hr.left, hr.right, hr.rest, hr.threads, hr.wf, hr.inj, hr.reg, hr.tgid⟩
    (fun i => ?_) hview (fun x hx => ?_) (fun x v t' hx hv hreg' hsel => ?_) ?_ ?_
    (fun hu => by simp [hreg] at hu) fun t' ht' => ?_
  · have hxf : x ≠ f := (h.selected_ne hrun hreg hreg' hv hsel).1
    rw [applyAll_fiber_of_not_mem hall fun hx => hxf (hmen x hx)] at hr'
    exact ⟨r', hr', rfl⟩
  · exact h.alone v x u t' hx hv.symm hreg'
  · rw [Kernel.lookup, Kernel.lookup,
      show (applyAll E ⟨T.tgid, u⟩ (assigns f [as]) a).process = a.process from rfl, hrun.process_eq]
    exact HashTable.find_congr fun x _ => applyAll_fiberKey hall x
  · obtain rfl := hmen x hx
    simp [Kernel.locked, ← h.view.idle x hidle, hrun.fiber_eq, hrun.locked]
  · exact (h.selected_ne hrun hreg hreg' hv hsel).1 (hmen x hx)
  · simp [assigns, Tidy]
  · exact fun s' hs' t' ht' => by simp [hsel0 s' hs'] at ht'
  · obtain rfl : t = t' := by simpa [hreg] using ht'
    refine .inl ⟨hpc ▸ .writing _ c v hc, ?_, r, hrun.thread_eq, hrun.threadId, hrun.parent⟩
    rw [applyAll_thread_of_not_mem hall fun s' hs' => by simp [hsel0 s' hs'],
      applyAll_thread_of_not_mem hall fun s' hs' => by simp [hsel0 s' hs'], hth]

/-- A thread in user code gets another CPU state. -/
theorem user {cpu : Cpu} (h : Sim E T s a P) (hpc : s.pc u = .user) (hP : P u = []) :
    Sim E T (s.goto u (s.st.modCpu ⟨T.tgid, u⟩ fun _ => cpu) .user)
      (a.modCpu ⟨T.tgid, u⟩ fun _ => cpu) P := by
  have hview : View E T.tgid P (s.st.modCpu ⟨T.tgid, u⟩ fun _ => cpu)
      (a.modCpu ⟨T.tgid, u⟩ fun _ => cpu) :=
    h.view.of_idle hP (fun _ _ _ => ⟨rfl, rfl⟩) h.view.idle (fun v hv => by simp [hv]) (by simp)
  obtain ⟨p, q, hr⟩ := h.record
  refine h.of_frame_same ⟨fun _ _ => ⟨rfl, rfl⟩, fun _ ht => ht, fun _ _ _ _ => ⟨rfl, rfl⟩,
      fun v t f r' _ _ _ hr' => ⟨r', hr', rfl⟩,
      fun v x t hv hx hu => h.alone v x u t hx hv.symm hu⟩
    (h.inv.step .user) h.processes h.brk h.process_ne
    ⟨p, q, hr.left, hr.right, hr.rest, hr.threads, hr.wf, hr.inj, hr.reg, hr.tgid⟩ (fun _ => rfl)
    hview (fun _ => rfl) (fun _ => rfl) fun t ht => ?_
  rw [hP]
  rcases h.known u t ht with ⟨-, h2, h3⟩ | ⟨h1, -, -⟩
  · rw [hP] at h2
    exact .inl ⟨.user, h2, h3⟩
  · rw [hpc] at h1
    cases h1

/-- The thread `u` leaves the count, and thereby dies. -/
theorem die {r : Thread} {prev : Ptr} {rp : Fiber} (h : Sim E T s a P) (hreg : T.reg u = some t)
    (hu : u ≠ T.keeper) (hP : P u = []) (hrun : Running E a ⟨T.tgid, u⟩ T.ep q t r prev rp)
    (hth : a.thread t = s.st.thread t) :
    q.activeThreads - 1 ≠ 0 ∧
      exitCleanup E ⟨T.tgid, u⟩ a = some (0, a.detached ⟨T.tgid, u⟩ T.ep t prev q rp) ∧
      Sim E T (s.goto u (s.st.modProcess T.ep fun p =>
          { p with activeThreads := p.activeThreads - 1 })
          (.checkExit T.ep t (q.activeThreads - 1)))
        (a.detached ⟨T.tgid, u⟩ T.ep t prev q rp)
        (Function.update P u (exitDetach (some prev) (q.activeThreads - 1))) := by
  set cur : Task := ⟨T.tgid, u⟩ with hcur
  set k' := s.st.modProcess T.ep fun p => { p with activeThreads := p.activeThreads - 1 } with hk'
  have hok := hrun.procOk
  have hmem : ∀ x, x ∈ q.threads.del t ↔ x ∈ q.threads ∧ x ≠ t := fun x => hok.threadsWF.mem_del
  -- the keeper is still there
  have hact : q.activeThreads - 1 ≠ 0 := by
    obtain ⟨tk, htk⟩ := Option.isSome_iff_exists.mp h.keeper
    rcases h.known _ tk htk with ⟨-, -, rk, hrk, -, hpar⟩ | ⟨-, hk, -⟩
    · obtain ⟨q', hq', hm⟩ := h.inv.linkedThread tk rk hrk
      obtain rfl : q = q' := by simpa [hpar, hrun.process_eq] using hq'
      have hne : tk ≠ t := by rintro rfl; exact hu (T.reg_inj _ _ _ hreg htk)
      have hpos := HashTable.size_pos_of_mem ((hmem tk).mpr ⟨hm, hne⟩)
      have hsize := hok.threadsWF.size_del hrun.thread_mem
      have hactive := hok.active
      omega
    · exact absurd rfl hk
  have hstep := exitCleanup_detach hrun.toCaller hrun.parent hrun.selected hrun.fiber_eq hact
  have hinv : Inv E (a.detached cur T.ep t prev q rp) := h.inv.step (.detached hrun hact)
  have hselp : a.selected t = some prev := selected_of_running hrun
  have hprev : ∀ v, ¬ mentions (P v) prev := h.not_mentioned hreg hP hselp
  have hpk : s.st.fiber prev = some rp := by rw [← h.view.idle prev hprev, hrun.fiber_eq]
  have hview : View E T.tgid (Function.update P u (exitDetach (some prev) (q.activeThreads - 1))) k'
      (a.detached cur T.ep t prev q rp) := by
    have hdec : View E T.tgid P k' { a with
        process := Function.update a.process T.ep
          (some { q with activeThreads := q.activeThreads - 1, threads := q.threads.del t })
        thread := Function.update a.thread t none } :=
      h.view.of_idle hP (fun _ _ _ => ⟨rfl, rfl⟩) h.view.idle (fun _ _ => ⟨rfl, rfl⟩)
        (h.view.cpu_of_nil hP)
    have hdet : a.detached cur T.ep t prev q rp = applyAll E cur
        (exitDetach (some prev) (q.activeThreads - 1)) { a with
          process := Function.update a.process T.ep
            (some { q with activeThreads := q.activeThreads - 1, threads := q.threads.del t })
          thread := Function.update a.thread t none } := by
      rw [exitDetach_eq hact, applyAll_assigns]
      simp only [Kernel.modFiber, hrun.fiber_eq, Kernel.detached, Option.map_some]
      rfl
    rw [hdet]
    exact hdec.extend hP (allPrivate_exitDetach hact) fun v x hx =>
      eq_of_mentions_exitDetach hact hx ▸ hprev v
  obtain ⟨p, q', hr⟩ := h.record
  obtain rfl : q = q' := by simpa [hrun.process_eq] using hr.right
  refine ⟨hact, hstep, h.of_frame ⟨fun t' ht' => ⟨rfl, ?_⟩, fun t' ht' => ?_,
    fun _ _ _ _ => ⟨rfl, rfl⟩, fun v t' x r' hv hreg' hsel hr' => ?_, fun v x t' hv hx hreg' => ?_⟩
    hinv h.processes h.brk (fun x hx => ?_)
    ⟨{ p with activeThreads := p.activeThreads - 1 },
      { q with activeThreads := q.activeThreads - 1, threads := q.threads.del t }, ?_⟩ (fun i => ?_)
    hview (fun x hx => ?_) (fun x v t' hx hv hreg' hsel => ?_) (tidy_exitDetach hact)
    (fun s' hs' t' ht' => ?_) (fun hn => by simp [hreg] at hn) fun t' ht' => ?_⟩
  · have hne' : t' ≠ t := by rintro rfl; exact ht' hreg
    simp [Kernel.detached, hne']
  · obtain ⟨p', hp', hm⟩ := ht'
    rw [hk', Kernel.modProcess_process, if_pos rfl, hr.left] at hp'
    obtain rfl : _ = p' := by simpa using hp'
    exact ⟨p, hr.left, hm⟩
  · have hxp := (h.selected_ne hrun hreg hreg' hv hsel).1
    exact ⟨r', by simpa [Kernel.detached, hxp] using hr', rfl⟩
  · obtain rfl : t = t' := by simpa [hreg] using hreg'
    simp [Kernel.selected, Kernel.detached]
  · simpa [Kernel.detached, hk', hx] using h.process_ne x hx
  · refine ⟨by simp [hk', hr.left], by simp [Kernel.detached], ?_, fun b => ?_, hr.wf, hr.inj, hr.reg,
      hr.tgid⟩
    · rw [hr.rest]
    · simp only [HashTable.chain_del]
      exact List.erase_sublist.trans (hr.threads b)
  · rw [Kernel.lookup, Kernel.lookup, hrun.process_eq]
    simp only [Kernel.detached, Function.update_self, Option.bind_some]
    refine HashTable.find_congr fun x _ => ?_
    exact (hview.fiberKey_eq x).trans (h.view.fiberKey_eq x).symm
  · obtain rfl := eq_of_mentions_exitDetach hact hx
    simp [Kernel.locked, hk', hpk, hrun.locked]
  · exact (h.selected_ne hrun hreg hreg' hv hsel).1 (eq_of_mentions_exitDetach hact hx)
  · simp [selects_exitDetach hact hs'] at ht'
  · obtain rfl : t = t' := by simpa [hreg] using ht'
    refine .inr ⟨.checkExit _ prev hact ?_, hu, by simp [Kernel.detached]⟩
    simpa [Kernel.selected, hk', ← hth] using hselp

/-- A dying thread takes its record off the table. -/
theorem unlink {pc : Pc} (h : Sim E T s a P) (hreg : T.reg u = some t) (ha : a.thread t = none)
    (hP : P u = [])
    (hknown : Gone T ((Stmt.delThread T.ep t).apply E ⟨T.tgid, u⟩ s.st) t pc []) (hu : u ≠ T.keeper) :
    Sim E T (s.goto u ((Stmt.delThread T.ep t).apply E ⟨T.tgid, u⟩ s.st) pc) a P := by
  obtain ⟨p, q, hr⟩ := h.record
  have hproc : ((Stmt.delThread T.ep t).apply E ⟨T.tgid, u⟩ s.st).process T.ep =
      some { p with threads := p.threads.del t } := by simp [Stmt.apply, hr.left]
  have htq : t ∉ q.threads := fun hm => by
    obtain ⟨r, hr'⟩ := (h.inv.proc _ (h.inv.linkedProcess _ (by simp [hr.right])) q hr.right).thread_exists hm
    simp [ha] at hr'
  refine h.of_frame_same ⟨fun _ _ => ⟨rfl, rfl⟩, fun t' ht' => ?_, fun _ _ _ _ => ⟨rfl, rfl⟩,
      fun v t f r' _ _ _ hr' => ⟨r', hr', rfl⟩, fun v x t hv hx hu => h.alone v x u t hx hv.symm hu⟩
    h.inv h.processes h.brk (fun x hx => by simpa [Stmt.apply, hx] using h.process_ne x hx)
    ⟨{ p with threads := p.threads.del t }, q, hproc, hr.right, ?_, fun b => ?_, hr.wf.del, hr.inj.del,
      fun x hx => hr.reg x (HashTable.mem_of_mem_del hx), hr.tgid⟩ (fun _ => rfl)
    (h.view.of_idle hP (fun _ _ _ => ⟨rfl, rfl⟩) h.view.idle (fun _ _ => ⟨rfl, rfl⟩)
      (h.view.cpu_of_nil hP))
    (fun _ => rfl) (fun hn => by simp [hreg] at hn) fun t' ht' => ?_
  · obtain ⟨p', hp', hm⟩ := ht'
    rw [hproc] at hp'
    obtain rfl : _ = p' := by simpa using hp'
    exact ⟨p, hr.left, HashTable.mem_of_mem_del hm⟩
  · rw [hr.rest]
  · rw [HashTable.chain_del]
    have herase : (q.threads.chain b).erase t = q.threads.chain b :=
      List.erase_of_not_mem fun hm => htq ⟨b, hm⟩
    rw [← herase]
    exact (hr.threads b).erase t
  · obtain rfl : t = t' := by simpa [hreg] using ht'
    rw [hP]
    exact .inr ⟨hknown, hu, ha⟩

/-- A dying thread frees its record. -/
theorem free {pc : Pc} (h : Sim E T s a P) (hreg : T.reg u = some t) (ha : a.thread t = none)
    (hP : P u = []) (hl : ¬ s.st.linked T.ep t)
    (hknown : Gone T ((Stmt.freeThread t).apply E ⟨T.tgid, u⟩ s.st) t pc []) (hu : u ≠ T.keeper) :
    Sim E T (s.goto u ((Stmt.freeThread t).apply E ⟨T.tgid, u⟩ s.st) pc) a P := by
  obtain ⟨p, q, hr⟩ := h.record
  have hkey : ∀ x ∈ p.threads, ((Stmt.freeThread t).apply E ⟨T.tgid, u⟩ s.st).threadKey x =
      s.st.threadKey x := fun x hx => by
    have hne : x ≠ t := by rintro rfl; exact hl ⟨p, hr.left, hx⟩
    simp [Kernel.threadKey, Stmt.apply, hne]
  refine h.of_frame_same ⟨fun t' ht' => ⟨?_, rfl⟩, fun _ ht => ht, fun _ _ _ _ => ⟨rfl, rfl⟩,
      fun v t f r' _ _ _ hr' => ⟨r', hr', rfl⟩, fun v x t hv hx hu => h.alone v x u t hx hv.symm hu⟩
    h.inv h.processes h.brk h.process_ne
    ⟨p, q, hr.left, hr.right, hr.rest, hr.threads, hr.wf.congr hkey, hr.inj.congr hkey, hr.reg,
      hr.tgid⟩ (fun _ => rfl)
    (h.view.of_idle hP (fun _ _ _ => ⟨rfl, rfl⟩) h.view.idle (fun _ _ => ⟨rfl, rfl⟩)
      (h.view.cpu_of_nil hP))
    (fun _ => rfl) (fun hn => by simp [hreg] at hn) fun t' ht' => ?_
  · have hne : t' ≠ t := by rintro rfl; exact ht' hreg
    simp [Stmt.apply, hne]
  · obtain rfl : t = t' := by simpa [hreg] using ht'
    rw [hP]
    exact .inr ⟨hknown, hu, ha⟩

end Sim

end AosvFibers
