import AosvFibers.Interleaved.Counting

/-!
# No process record is freed in use

A step is orderly (`Move.Orderly`) if it does not free a process record that another
thread has in hand and does not count a thread in a process record whose last thread has
been found.

Result: `conversion_lands`. Without the condition it fails: `conversion_not_lands`.
-/

namespace AosvFibers

open Lib Stmt

/-! ## The property and its condition -/

/-- The process records that the next step of a thread reads or writes. -/
def Pc.touches (E : Env) (cur : Task) (k : Kernel) : Pc → List Ptr
  | findProcess _ | findOrCreate => k.processes.chain (E.hash cur.tgid)
  | findThread _ p | findSelf p | takeId p _ _ | findFiber _ p _ | freeBucket p _ => [p]
  | dec _ t => ((k.thread t).map Thread.parent).toList
  | run (delProcess p :: _) _ => p :: k.processes.chain (E.hash cur.tgid)
  | run (s :: _) _ => s.record.toList
  | _ => []

/-- The condition on a step. -/
structure Move.Orderly (m : Move) : Prop where
  unused : ∀ p, (m.pre.pc m.thread).upcoming = some (.freeProcess p) →
    ∀ u, u ≠ m.thread → (m.pre.pc u).record ≠ some p
  untorn : ∀ p, (m.pre.pc m.thread).upcoming = some (.incActive p) →
    ∀ u, u ≠ m.thread → (m.pre.pc u).tearsDown ≠ some p

/-- Threads of process `g` convert themselves, run user code and die. -/
def LifeStep (E : Env) (g : PidT) (s : Conf) (m : Move) (s' : Conf) : Prop :=
  m.pre = s ∧ CStep E g s (m.thread, m.act) s' ∧
    ∀ c, m.act = .start c → c = .convert ∨ c = .exit

/-- The thread has begun to die. -/
def Pc.dying : Pc → Bool
  | dead | findProcess .exit | findThread .exit _ | dec _ _ | checkExit _ _ _ | exitPrev _ _ _
  | lastThread _ _ | freeBucket _ _ | ret .exit _ => true
  | run _ next => next.dying
  | _ => false

theorem Kernel.belongs_of_processOf {E : Env} {k : Kernel} {g : PidT} {p : Ptr}
    (hp : k.processOf E g = some (some p)) : k.belongs g p := by
  obtain ⟨-, hkey⟩ := HashTable.find_eq_some hp
  exact Option.map_eq_some_iff.mp hkey

/-- What a conversion still writes once its fiber is on the table. -/
theorem isWrite_of_mem_tail (p : Ptr) {t f : Ptr} {st : Stmt}
    (h : st ∈ (initFiberTail p f ++ convertTail t f).tail) :
    st.isWrite ∧ ∀ t' x, st = .select t' x → t' = t := by
  simp only [initFiberTail, convertTail, assigns, List.map_cons, List.map_nil, List.cons_append,
    List.nil_append, List.tail_cons, List.mem_cons, List.not_mem_nil, or_false] at h
  rcases h with rfl | rfl | rfl | rfl | rfl | rfl | rfl | rfl | rfl | rfl | rfl | rfl <;>
    simp [Stmt.isWrite]

namespace Life

variable {E : Env} {g v : PidT} {k' : Kernel} {roll : Ptr → Finset Ptr}
  {given : PidT → PidT → Prop} {s : Conf} {pc pc' : Pc} {p t f : Ptr}

/-- What `find_thread_by_pid` finds. -/
theorem threadOf_cases {q : Process} {r : Option Ptr} (h : Life E g s roll given)
    (hq : s.st.process p = some q)
    (hg : q.processId = g) (hr : s.st.threadOf E q v = some r) :
    (r = none ∧ s.st.lacks g p v) ∨ ∃ t, r = some t ∧ s.st.hasThread g p t ∧
      s.st.threadIs t v p := by
  have hok := h.counts.record p q hq hg
  cases r with
  | none =>
    refine .inl ⟨rfl, ?_⟩
    rintro t ⟨q', hq', -, hin⟩
    obtain rfl := Option.some.inj (hq.symm.trans hq')
    exact hok.threadsWF.find_none hr hin
  | some t =>
    obtain ⟨hin, hkey⟩ := HashTable.find_eq_some hr
    obtain ⟨rt, hrt, hid⟩ := Option.map_eq_some_iff.mp hkey
    exact .inr ⟨t, rfl, ⟨q, hq, hg, hin⟩, rt, hrt, hid, hok.parent t hin rt hrt⟩

/-- A step at a place at which nothing is known. -/
theorem plain (h : Life E g s roll given) (hpc : s.pc v = pc) (hplain : pc.Plain)
    (hstep : pc.step E ⟨g, v⟩ s.st = some (pc', k')) :
    Life E g (s.goto v k' pc') roll given ∧ (pc'.dying → pc.dying) := by
  cases hplain with
  | user => cases hstep
  | dead => cases hstep
  | failed => cases hstep
  | exited => cases hstep
  | findOrCreate =>
    simp only [Pc.step, K.bind_eq_some] at hstep
    obtain ⟨p, k₁, hfind, hret⟩ := hstep
    obtain ⟨rfl, rfl⟩ : Pc.findSelf p = pc' ∧ k₁ = k' := by simpa using hret
    obtain ⟨r, hr⟩ := h.counts.processesWF.find_isSome g
    cases r with
    | none =>
      have hnew : findOrCreateProcess E ⟨g, v⟩ s.st = _ := findOrCreateProcess_new hr
      rw [hnew] at hfind
      obtain ⟨rfl, rfl⟩ : _ = p ∧ _ = k₁ := by simpa using hfind
      exact ⟨h.newProcess hpc hr, id⟩
    | some x =>
      have hfound : findOrCreateProcess E ⟨g, v⟩ s.st = _ := findOrCreateProcess_found hr
      rw [hfound] at hfind
      obtain ⟨rfl, rfl⟩ : x = p ∧ s.st = k₁ := by simpa using hfind
      refine ⟨h.quiet hpc ?_ rfl rfl rfl (.plain (.findSelf x)), id⟩
      rintro y ⟨⟩
      exact .inr (Kernel.belongs_of_processOf hr)
  | findSelf p =>
    simp only [Pc.step, K.bind_eq_some, findThreadByPid_eq_some] at hstep
    obtain ⟨r, k₁, ⟨q, hq, hr, rfl⟩, hret⟩ := hstep
    obtain ⟨q', hq', hg⟩ := h.inHand v p (by rw [hpc]; rfl)
    obtain rfl := Option.some.inj (hq.symm.trans hq')
    obtain ⟨rfl, habs⟩ | ⟨t, rfl, -⟩ := h.threadOf_cases hq hg hr
    · obtain ⟨rfl, rfl⟩ : Pc.newThread p = pc' ∧ s.st = k' := by simpa using hret
      exact ⟨h.quiet hpc (fun _ => .inl) rfl rfl rfl (.newThread p habs), id⟩
    · obtain ⟨rfl, rfl⟩ : Pc.ret .convert (-1) = pc' ∧ s.st = k' := by simpa using hret
      refine ⟨h.quiet hpc ?_ rfl rfl rfl (.plain .failed), id⟩
      rintro y ⟨⟩
  | findProcess =>
    simp only [Pc.step, K.bind_eq_some, findProcessByTgid_eq_some] at hstep
    obtain ⟨r, k₁, ⟨hr, rfl⟩, hret⟩ := hstep
    cases r with
    | none =>
      obtain ⟨rfl, rfl⟩ : Pc.ret .exit 0 = pc' ∧ s.st = k' := by simpa [Call.refused] using hret
      refine ⟨h.quiet hpc ?_ rfl rfl rfl (.plain .exited), id⟩
      rintro y ⟨⟩
    | some x =>
      obtain ⟨rfl, rfl⟩ : Pc.findThread .exit x = pc' ∧ s.st = k' := by simpa using hret
      refine ⟨h.quiet hpc ?_ rfl rfl rfl (.plain (.findThread x)), id⟩
      rintro y ⟨⟩
      exact .inr (Kernel.belongs_of_processOf hr)
  | findThread p =>
    simp only [Pc.step, K.bind_eq_some, findThreadByPid_eq_some] at hstep
    obtain ⟨r, k₁, ⟨q, hq, hr, rfl⟩, hret⟩ := hstep
    obtain ⟨q', hq', hg⟩ := h.inHand v p (by rw [hpc]; rfl)
    obtain rfl := Option.some.inj (hq.symm.trans hq')
    obtain ⟨rfl, -⟩ | ⟨t, rfl, hl, ht⟩ := h.threadOf_cases hq hg hr
    · obtain ⟨rfl, rfl⟩ : Pc.ret .exit 0 = pc' ∧ s.st = k' := by simpa [Call.refused] using hret
      refine ⟨h.quiet hpc ?_ rfl rfl rfl (.plain .exited), id⟩
      rintro y ⟨⟩
    · obtain ⟨rfl, rfl⟩ : Pc.dec p t = pc' ∧ s.st = k' := by simpa [Call.enter] using hret
      have hin : t ∈ roll p := by
        obtain ⟨rt, hrt, hid, -⟩ := ht
        have hkey : s.st.threadKey t = some v := by rw [Kernel.threadKey, hrt, Option.map_some, hid]
        refine (h.owner p t v hl hkey).resolve_right ?_
        rw [hpc]
        rintro ⟨⟩
      exact ⟨h.quiet hpc (fun _ => .inl) rfl rfl rfl (.dec p t ⟨ht, hin, hl⟩), id⟩
  | unlinked p r =>
    obtain ⟨rfl, rfl⟩ : Pc.lastThread p r = pc' ∧ s.st = k' := by simpa [Pc.step] using hstep
    exact ⟨h.quiet hpc (fun _ => .inl) rfl rfl rfl (.plain (.lastThread p r)), id⟩
  | lastThread p r =>
    obtain ⟨rfl, rfl⟩ : (if r = 0 then Pc.freeBucket p 0 else .ret .exit 0) = pc' ∧ s.st = k' := by
      simpa [Pc.step] using hstep
    by_cases hr : r = 0
    · rw [if_pos hr]
      refine ⟨h.quiet hpc (fun y hy => .inl ?_) (if_pos hr).symm rfl rfl
        (.plain (.freeBucket p 0)), id⟩
      exact (if_pos hr).trans hy
    · rw [if_neg hr]
      refine ⟨h.quiet hpc ?_ (if_neg hr).symm rfl rfl (.plain .exited), id⟩
      rintro y ⟨⟩
  | freeBucket p b =>
    simp only [Pc.step] at hstep
    split_ifs at hstep with hb
    · simp only [K.bind_eq_some, readProcess_eq_some] at hstep
      obtain ⟨q, k₁, ⟨hq, rfl⟩, hret⟩ := hstep
      obtain ⟨q', hq', hg⟩ := h.inHand v p (by rw [hpc]; rfl)
      obtain rfl := Option.some.inj (hq.symm.trans hq')
      obtain ⟨rfl, rfl⟩ :
          Pc.run ((q.fibers.chain ⟨b, hb⟩).map .freeFiber) (.freeBucket p (b + 1)) = pc' ∧
          s.st = k' := by simpa using hret
      obtain ⟨h1, h2, h3, h4⟩ := Pc.run_freeFibers (q.fibers.chain ⟨b, hb⟩) (.freeBucket p (b + 1))
      exact ⟨h.quiet hpc (fun y hy => .inl (h1 ▸ hy)) h2 h3 h4
        (.freeingFibers p _ _ fun x hx => ⟨q, hq, hg, ⟨_, hx⟩⟩), id⟩
    · obtain ⟨rfl, rfl⟩ : Pc.run [.delProcess p, .freeProcess p] (.ret .exit 0) = pc' ∧
          s.st = k' := by
        simpa using hstep
      exact ⟨h.quiet hpc (fun _ => .inl) rfl rfl rfl (.plain (.deleting p)), id⟩
  | deleting p =>
    obtain ⟨-, rfl, rfl⟩ := run_cons_eq_some hstep
    exact ⟨h.delProcess hpc, id⟩
  | gone =>
    obtain ⟨rfl, rfl⟩ : Pc.ret .exit 0 = pc' ∧ s.st = k' := by simpa [Pc.step] using hstep
    refine ⟨h.quiet hpc ?_ rfl rfl rfl (.plain .exited), id⟩
    rintro y ⟨⟩

/-- A step of a conversion that has made its fiber. -/
theorem madeFiber (h : Life E g s roll given) (hpc : s.pc v = pc) (hm : Member g s.st roll v p t)
    (hf : s.st.hasFiber g p f) (hkey : (s.st.fiberKey f).isSome) (hmade : pc.Made s.st t f)
    (hstep : pc.step E ⟨g, v⟩ s.st = some (pc', k')) :
    Life E g (s.goto v k' pc') roll given ∧ (pc'.dying → pc.dying) := by
  cases hmade with
  | writing ss hss hsel =>
    cases ss with
    | nil =>
      obtain ⟨rfl, rfl⟩ : Pc.lockNew t f = pc' ∧ s.st = k' := by simpa [Pc.step] using hstep
      refine ⟨h.quiet hpc ?_ rfl rfl rfl (.made p t f hm hf hkey .lock), id⟩
      rintro y ⟨⟩
    | cons st rest =>
      obtain ⟨-, rfl, rfl⟩ := run_cons_eq_some hstep
      have hst : st.isWrite := hss st (by simp)
      have hsame : SameTables s.st (st.apply E ⟨g, v⟩ s.st) := .write hst
      have hf' := hsame.hasFiber_iff.mpr hf
      refine ⟨h.write hst hpc ?_ (.made p t f (hsame.member hm) hf' ?_ ?_), id⟩
      · rintro t' x rfl
        obtain rfl := hsel t' x (by simp)
        exact ⟨p, hm.thread⟩
      · rwa [Stmt.fiberKey_of_isWrite hst]
      · exact .writing rest (fun x hx => hss x (List.mem_cons_of_mem _ hx))
          fun t' x hx => hsel t' x (List.mem_cons_of_mem _ hx)
  | lock =>
    simp only [Pc.step, K.bind_eq_some] at hstep
    obtain ⟨b, k₁, hlock, hret⟩ := hstep
    obtain ⟨r, -, hb⟩ := Option.map_eq_some_iff.mp hlock
    obtain ⟨rfl, rfl⟩ := Prod.mk.inj hb
    have hsame := SameTables.modFiber s.st f fun r => { r with fiberLock := true }
    have hkey' := Kernel.modFiber_fiberKey s.st f f (fun r => { r with fiberLock := true })
      fun _ => rfl
    split_ifs at hret
    · obtain ⟨rfl, rfl⟩ : Pc.readId .convert f = pc' ∧ _ = k' := by simpa using hret
      refine ⟨h.modFiber hpc (fun _ => rfl) ?_ rfl rfl rfl
        (.made p t f (hsame.member hm) (hsame.hasFiber_iff.mpr hf) (hkey' ▸ hkey) .read), id⟩
      rintro y ⟨⟩
    · obtain ⟨rfl, rfl⟩ : Pc.ret .convert (-1) = pc' ∧ _ = k' := by simpa using hret
      refine ⟨h.modFiber hpc (fun _ => rfl) ?_ rfl rfl rfl (.plain .failed), id⟩
      rintro y ⟨⟩
  | read =>
    simp only [Pc.step, K.bind_eq_some, readFiber_eq_some] at hstep
    obtain ⟨r, k₁, ⟨hr, rfl⟩, hret⟩ := hstep
    obtain ⟨rfl, rfl⟩ : Pc.ret .convert r.fiberId.toInt = pc' ∧ s.st = k' := by simpa using hret
    refine ⟨h.quiet hpc ?_ rfl rfl rfl (.made p t f hm hf hkey (.ret r.fiberId ?_)), id⟩
    · rintro y ⟨⟩
    · rw [Kernel.fiberKey, hr, Option.map_some]
  | ret id hid => cases hstep

/-- A step of a dying thread that is not counted any more. -/
theorem leaving (h : Life E g s roll given) (hpc : s.pc v = pc) (ht : s.st.threadIs t v p)
    (hnot : t ∉ roll p) (hl : s.st.hasThread g p t) (hleaving : pc.Leaving p t)
    (hdead : ∀ id, ¬ given v id) (hstep : pc.step E ⟨g, v⟩ s.st = some (pc', k')) :
    Life E g (s.goto v k' pc') roll given ∧ pc.dying := by
  cases hleaving with
  | check r =>
    simp only [Pc.step, K.bind_eq_some, readThread_eq_some] at hstep
    obtain ⟨rt, k₁, ⟨-, rfl⟩, hret⟩ := hstep
    split_ifs at hret
    · obtain ⟨rfl, rfl⟩ : Pc.exitPrev p t r = pc' ∧ s.st = k' := by simpa using hret
      exact ⟨h.quiet hpc (fun _ => .inl) rfl rfl rfl (.leaving p t ht hnot hl (.prev r)), rfl⟩
    · obtain ⟨rfl, rfl⟩ : Pc.run [.delThread p t, .freeThread t] (.lastThread p r) = pc' ∧
          s.st = k' := by
        simpa using hret
      exact ⟨h.quiet hpc (fun _ => .inl) rfl rfl rfl
        (.leaving p t ht hnot hl (.writing t [] r)), rfl⟩
  | prev r =>
    simp only [Pc.step, K.bind_eq_some, readThread_eq_some, nonNull_eq_some] at hstep
    obtain ⟨rt, k₁, ⟨-, rfl⟩, x, k₂, ⟨-, rfl⟩, hret⟩ := hstep
    obtain ⟨rfl, rfl⟩ := Prod.mk.inj (Option.some.inj hret)
    obtain ⟨as, has⟩ : ∃ as, exitDetach (some x) r = assigns x as := by
      rw [exitDetach]
      split_ifs
      · exact ⟨_, rfl⟩
      · exact ⟨[], rfl⟩
    rw [has]
    obtain ⟨h1, h2, h3, h4⟩ := Pc.run_assigns x as [.delThread p t, .freeThread t] (.lastThread p r)
    exact ⟨h.quiet hpc (fun y hy => .inl (h1 ▸ hy)) h2 h3 h4
      (.leaving p t ht hnot hl (.writing x as r)), rfl⟩
  | writing f as r =>
    cases as with
    | nil =>
      obtain ⟨-, rfl, rfl⟩ := run_cons_eq_some hstep
      exact ⟨h.delThread hpc ht hnot hdead, rfl⟩
    | cons a as =>
      obtain ⟨-, rfl, rfl⟩ := run_cons_eq_some hstep
      have hsame := SameTables.modFiber s.st f fun r => a.run ⟨g, v⟩ (s.st.cpu ⟨g, v⟩) r
      refine ⟨h.write (s := s) (show Stmt.isWrite (.fiber f a) from rfl) hpc ?_
        (.leaving p t (hsame.threadIs ht) hnot (hsame.hasThread_iff.mpr hl) (.writing f as r)), rfl⟩
      rintro t' x ⟨⟩

/-- An orderly statement of thread `v`. -/
theorem stmt (h : Life E g s roll given)
    (hunused : ∀ p, (s.pc v).upcoming = some (.freeProcess p) →
      ∀ u, u ≠ v → (s.pc u).record ≠ some p)
    (huntorn : ∀ p, (s.pc v).upcoming = some (.incActive p) →
      ∀ u, u ≠ v → (s.pc u).tearsDown ≠ some p)
    (hdead : (s.pc v).dying → ∀ id, ¬ given v id)
    (hstep : (s.pc v).step E ⟨g, v⟩ s.st = some (pc', k')) :
    ∃ roll', Life E g (s.goto v k' pc') roll' given ∧ (pc'.dying → (s.pc v).dying) := by
  have hstage := h.stage v
  generalize hpc : s.pc v = pc at hstage hstep hunused huntorn hdead
  cases hstage with
  | plain hplain => exact ⟨roll, h.plain hpc hplain hstep⟩
  | newThread p habs =>
    simp only [Pc.step, K.bind_eq_some] at hstep
    obtain ⟨t, k₁, halloc, hret⟩ := hstep
    obtain ⟨rfl, rfl⟩ := Prod.mk.inj (Option.some.inj hret)
    exact ⟨roll, h.newThread hpc habs halloc, id⟩
  | counting p t habs ht hnot =>
    obtain ⟨-, rfl, rfl⟩ := run_cons_eq_some hstep
    exact ⟨_, h.incActive hpc habs ht hnot (huntorn p rfl), id⟩
  | adding p t habs ht hin =>
    obtain ⟨-, rfl, rfl⟩ := run_cons_eq_some hstep
    exact ⟨roll, h.addThread hpc habs ht hin, id⟩
  | added p t hm =>
    obtain ⟨rfl, rfl⟩ : Pc.newFiber p (.convert t) = pc' ∧ s.st = k' := by
      simpa [Pc.step] using hstep
    exact ⟨roll, h.quiet hpc (fun _ => .inl) rfl rfl rfl (.newFiber p t hm), id⟩
  | newFiber p t hm =>
    simp only [Pc.step, K.bind_eq_some] at hstep
    obtain ⟨f, k₁, halloc, hret⟩ := hstep
    obtain ⟨rfl, rfl⟩ := Prod.mk.inj (Option.some.inj hret)
    exact ⟨roll, h.newFiber hpc hm halloc, id⟩
  | takeId p t f hm =>
    simp only [Pc.step, K.bind_eq_some] at hstep
    obtain ⟨_, k₁, hid, hret⟩ := hstep
    obtain ⟨rfl, rfl⟩ := Prod.mk.inj (Option.some.inj hret)
    exact ⟨roll, h.takeId hpc hm hid, id⟩
  | listing p t f hm hkey =>
    obtain ⟨-, rfl, rfl⟩ := run_cons_eq_some hstep
    exact ⟨roll, h.addFiber hpc (fun st hst => (isWrite_of_mem_tail p hst).1)
      (fun t' x hst => (isWrite_of_mem_tail p hst).2 t' x rfl) hm hkey, id⟩
  | made p t f hm hf hkey hmade => exact ⟨roll, h.madeFiber hpc hm hf hkey hmade hstep⟩
  | dec p t hm =>
    simp only [Pc.step, K.bind_eq_some] at hstep
    obtain ⟨r, k₁, hdec, hret⟩ := hstep
    obtain ⟨rfl, rfl⟩ := Prod.mk.inj (Option.some.inj hret)
    exact ⟨_, h.dec hpc hm hdec (hdead rfl), id⟩
  | leaving p t ht hnot hl hleaving =>
    have hdying : pc.dying := by cases hleaving <;> rfl
    obtain ⟨hlife, -⟩ := h.leaving hpc ht hnot hl hleaving (hdead hdying) hstep
    exact ⟨roll, hlife, fun _ => hdying⟩
  | freeingThread p t r ht hnot hl =>
    obtain ⟨-, rfl, rfl⟩ := run_cons_eq_some hstep
    exact ⟨roll, h.freeThread hpc ht hnot hl (hdead rfl), id⟩
  | freeingFibers p fs b hfs =>
    cases fs with
    | nil =>
      obtain ⟨rfl, rfl⟩ : Pc.freeBucket p b = pc' ∧ s.st = k' := by simpa [Pc.step] using hstep
      exact ⟨roll, h.quiet hpc (fun _ => .inl) rfl rfl rfl (.plain (.freeBucket p b)), id⟩
    | cons f fs =>
      obtain ⟨-, rfl, rfl⟩ := run_cons_eq_some hstep
      exact ⟨roll, h.freeFiber hpc hfs, id⟩
  | deleted p hout =>
    obtain ⟨-, rfl, rfl⟩ := run_cons_eq_some hstep
    exact ⟨roll, h.freeProcess hpc hout (hunused p rfl), id⟩

/-- A thread returns from a conversion or from its death. -/
theorem finish {c : Call} {w : ℤ} (h : Life E g s roll given) (hpc : s.pc v = .ret c w) {pc' : Pc}
    (hpc' : pc' = .user ∨ pc' = .dead) : Life E g (s.goto v s.st pc') roll given := by
  obtain rfl | rfl := hpc'
  · refine h.quiet hpc ?_ rfl rfl rfl (.plain .user)
    rintro p ⟨⟩
  · refine h.quiet hpc ?_ rfl rfl rfl (.plain .dead)
    rintro p ⟨⟩

/-- A thread calls. -/
theorem start {c : Call} (h : Life E g s roll given) (hpc : s.pc v = .user)
    (hc : c = .convert ∨ c = .exit) : Life E g (s.goto v s.st (.entry c)) roll given := by
  obtain rfl | rfl := hc
  · refine h.quiet hpc ?_ rfl rfl rfl (.plain .findOrCreate)
    rintro p ⟨⟩
  · refine h.quiet hpc ?_ rfl rfl rfl (.plain .findProcess)
    rintro p ⟨⟩

/-- The ids given are another thread's or known. -/
theorem give (h : Life E g s roll given) {given' : PidT → PidT → Prop}
    (hgiven : ∀ u id, given' u id → given u id ∨ s.st.hasId g roll u id) : Life E g s roll given' :=
  ⟨⟨h.inHand, h.torn, h.empty, h.owner, h.made, h.alone, h.stage,
    fun u id hid => (hgiven u id hid).elim (h.held u id) fun hk => hk⟩, h.counts⟩

/-- What a conversion returns. -/
theorem returned {w : ℤ} (h : Life E g s roll given) (hpc : s.pc v = .ret .convert w) :
    w = -1 ∨ ∃ id : PidT, id.toInt = w ∧ s.st.hasId g roll v id := by
  have hstage := h.stage v
  rw [hpc] at hstage
  cases hstage with
  | plain hplain =>
    cases hplain
    exact .inl rfl
  | made p t f hm hf _ hmade =>
    cases hmade with
    | ret id hid => exact .inr ⟨id, rfl, p, t, f, hm, hf, hid⟩
  | leaving _ _ _ _ _ hleaving => cases hleaving

end Life

/-! ## The run -/

/-- A conversion of thread `u` has returned `id`, and `u` has not begun to die. -/
def Given (ms : List Move) (u id : PidT) : Prop :=
  id.toInt ≠ -1 ∧ (∃ m ∈ ms, m.thread = u ∧ m.act = .finish .convert id.toInt) ∧
    ∀ m ∈ ms, m.thread = u → m.act ≠ .start .exit

theorem Given.of_snoc {ms : List Move} {m : Move} {u id : PidT} (h : Given (ms ++ [m]) u id) :
    Given ms u id ∨ id.toInt ≠ -1 ∧ m.thread = u ∧ m.act = .finish .convert id.toInt := by
  obtain ⟨hne, ⟨m', hm', hu, hact⟩, hlive⟩ := h
  obtain hm' | hm' := List.mem_append.mp hm'
  · exact .inl ⟨hne, ⟨m', hm', hu, hact⟩, fun x hx => hlive x (List.mem_append_left _ hx)⟩
  · obtain rfl := List.mem_singleton.mp hm'
    exact .inr ⟨hne, hu, hact⟩

theorem Given.of_snoc_of_ne {ms : List Move} {m : Move} {u id : PidT} (h : Given (ms ++ [m]) u id)
    (hm : ∀ w, m.act ≠ .finish .convert w) : Given ms u id :=
  h.of_snoc.resolve_right fun hnew => hm _ hnew.2.2

/-- The invariant of the runs. -/
structure LifeRun (E : Env) (g : PidT) (ms : List Move) (s : Conf) : Prop where
  life : ∃ roll, Life E g s roll (Given ms)
  dying : ∀ u, (s.pc u).dying → ∃ m ∈ ms, m.thread = u ∧ m.act = .start .exit
  ids : ∀ m ∈ ms, ∀ w, m.act = .finish .convert w → w ≠ -1 → ∃ id : PidT, id.toInt = w

namespace LifeRun

variable {E : Env} {g : PidT} {ms : List Move} {m : Move} {s s' : Conf}

/-- A step after which nobody is dying who was not before, or who has just begun to. -/
theorem snoc {pc' : Pc} {k' : Kernel} (h : LifeRun E g ms s)
    (hlife : ∃ roll, Life E g (s.goto m.thread k' pc') roll (Given (ms ++ [m])))
    (hdying : pc'.dying → (s.pc m.thread).dying ∨ m.act = .start .exit)
    (hids : ∀ w, m.act = .finish .convert w → w ≠ -1 → ∃ id : PidT, id.toInt = w) :
    LifeRun E g (ms ++ [m]) (s.goto m.thread k' pc') := by
  refine ⟨hlife, ?_, ?_⟩
  · intro u hu
    have hlast : m ∈ ms ++ [m] := List.mem_append_right _ (List.mem_singleton.mpr rfl)
    rw [Conf.goto_pc] at hu
    split_ifs at hu with huv
    · obtain hu | hact := hdying hu
      · obtain ⟨x, hx, hxu⟩ := h.dying m.thread hu
        exact ⟨x, List.mem_append_left _ hx, huv ▸ hxu⟩
      · exact ⟨m, hlast, huv.symm, hact⟩
    · obtain ⟨x, hx, hxu⟩ := h.dying u hu
      exact ⟨x, List.mem_append_left _ hx, hxu⟩
  · intro x hx
    obtain hx | hx := List.mem_append.mp hx
    · exact h.ids x hx
    · obtain rfl := List.mem_singleton.mp hx
      exact hids

/-- An orderly step keeps the invariant. -/
theorem step (h : LifeRun E g ms s) (hord : m.Orderly) (hstep : LifeStep E g s m s') :
    LifeRun E g (ms ++ [m]) s' := by
  obtain ⟨pre, u, act⟩ := m
  obtain ⟨hpre, hc, hcalls⟩ := hstep
  obtain rfl : pre = s := hpre
  obtain ⟨roll, hlife⟩ := h.life
  cases act with
  | start c =>
    obtain ⟨hpc, rfl⟩ := hc
    have hnone : ∀ w, Act.start c ≠ .finish .convert w := by rintro w ⟨⟩
    have hlife' := hlife.start hpc (hcalls c rfl)
    refine h.snoc (m := ⟨pre, u, .start c⟩)
      ⟨roll, hlife'.give fun _ _ hid => .inl (hid.of_snoc_of_ne hnone)⟩ ?_ ?_
    · intro hd
      obtain rfl | rfl := hcalls c rfl
      · cases hd
      · exact .inr rfl
    · rintro w ⟨⟩
  | stmt =>
    obtain ⟨pc', k', hst, rfl⟩ := hc
    have hnone : ∀ w, Act.stmt ≠ .finish .convert w := by rintro w ⟨⟩
    have hdead : (pre.pc u).dying → ∀ id, ¬ Given ms u id := by
      intro hd id hid
      obtain ⟨x, hx, hxu, hxa⟩ := h.dying u hd
      exact hid.2.2 x hx hxu hxa
    obtain ⟨roll', hlife', hdying⟩ := hlife.stmt hord.unused hord.untorn hdead hst
    refine h.snoc (m := ⟨pre, u, .stmt⟩)
      ⟨roll', hlife'.give fun _ _ hid => .inl (hid.of_snoc_of_ne hnone)⟩
        (fun hd => .inl (hdying hd)) ?_
    rintro w ⟨⟩
  | finish c w =>
    obtain ⟨hpc, rfl⟩ := hc
    have hlife' : Life E g (pre.goto u pre.st (if c = .exit then .dead else .user)) roll
        (Given ms) := by
      refine hlife.finish hpc ?_
      split_ifs
      · exact .inr rfl
      · exact .inl rfl
    refine h.snoc (m := ⟨pre, u, .finish c w⟩) ⟨roll, hlife'.give ?_⟩ ?_ ?_
    · intro v id hid
      obtain hid | ⟨hne, rfl, hact⟩ := hid.of_snoc
      · exact .inl hid
      · obtain ⟨rfl, rfl⟩ : c = .convert ∧ w = id.toInt := by simpa using hact
        obtain hfail | ⟨id', hid', hhas⟩ := hlife.returned hpc
        · exact absurd hfail hne
        · exact .inr (BitVec.toInt_inj.mp hid' ▸ hhas)
    · intro hd
      refine .inl ?_
      show (pre.pc u).dying = true
      rw [hpc]
      split_ifs at hd with hexit
      · rw [hexit]
        rfl
      · cases hd
    · intro w' hact hne
      obtain ⟨rfl, rfl⟩ : c = .convert ∧ w = w' := by simpa using hact
      obtain hfail | ⟨id, hid, -⟩ := hlife.returned hpc
      · exact absurd hfail hne
      · exact ⟨id, hid⟩
  | user cpu =>
    obtain ⟨hpc, rfl⟩ := hc
    have hnone : ∀ w, Act.user cpu ≠ .finish .convert w := by rintro w ⟨⟩
    have hlife' := hlife.user hpc cpu
    refine h.snoc (m := ⟨pre, u, .user cpu⟩)
      ⟨roll, hlife'.give fun _ _ hid => .inl (hid.of_snoc_of_ne hnone)⟩ ?_ ?_
    · rintro ⟨⟩
    · rintro w ⟨⟩

/-- Orderly runs keep the invariant. -/
theorem of_run (h : LifeRun E g [] s) (hrun : Run (LifeStep E g) s ms s')
    (hms : ∀ m ∈ ms, m.Orderly) :
    LifeRun E g ms s' := by
  induction hrun with
  | nil => exact h
  | @snoc ms s₁ s₂ m _ hstep ih =>
    have hprev := ih fun x hx => hms x (List.mem_append_left _ hx)
    exact hprev.step (hms m (by simp)) hstep

end LifeRun

/-! ## The start -/

/-- The thread records on the table of the record at `p`, if it is one of process `g`. -/
def Kernel.counted (k : Kernel) (g : PidT) (p : Ptr) : Finset Ptr :=
  match k.process p with
  | none => ∅
  | some q => if q.processId = g then (hashForEach q.threads).toFinset else ∅

theorem Kernel.counted_eq {k : Kernel} {g : PidT} {p : Ptr} {q : Process}
    (hq : k.process p = some q)
    (hg : q.processId = g) : k.counted g p = (hashForEach q.threads).toFinset := by
  rw [counted, hq]
  exact if_pos hg

theorem Kernel.mem_counted {k : Kernel} {g : PidT} {p t : Ptr} :
    t ∈ k.counted g p ↔ k.hasThread g p t := by
  constructor
  · intro ht
    rw [counted] at ht
    split at ht
    · cases ht
    · next q hq =>
      split_ifs at ht with hg
      · exact ⟨q, hq, hg, mem_hashForEach.mp (List.mem_toFinset.mp ht)⟩
      · cases ht
  · rintro ⟨q, hq, hg, hin⟩
    rw [counted_eq hq hg]
    exact List.mem_toFinset.mpr (mem_hashForEach.mpr hin)

/-- Between calls the thread records on the tables are counted. -/
theorem Inv.counts {E : Env} {k : Kernel} (h : Inv E k) (g : PidT) :
    Counts E g k (k.counted g) := by
  refine ⟨h.processesWF, h.processesInj, h.freshProcess, h.freshThread, h.freshFiber, ?_, ?_, ?_,
    ?_⟩
  · rintro p x ⟨q, hq, -, hx⟩
    obtain ⟨r, hr⟩ := (h.procOk hq).fiber_exists hx
    exact h.freshFiber x (by rw [hr]; rfl)
  · intro p q hq hg
    have hok := h.procOk hq
    refine ⟨hok.threadsWF, hok.threadsInj, hok.parent, ?_⟩
    rw [hok.active, Kernel.counted_eq hq hg,
      List.toFinset_card_of_nodup (nodup_hashForEach hok.threadsWF), length_hashForEach]
  · intro p t ht
    obtain ⟨q, hq, hg, hin⟩ := Kernel.mem_counted.mp ht
    obtain ⟨r, hr⟩ := (h.procOk hq).thread_exists hin
    exact ⟨⟨q, hq, hg⟩, r, hr, (h.procOk hq).parent t hin r hr⟩
  · rintro p p' f ⟨q, hq, hg, -⟩ ⟨q', hq', hg', -⟩
    refine h.processesInj p (h.linkedProcess p ?_) p' (h.linkedProcess p' ?_) ?_
    · rw [hq]
      rfl
    · rw [hq']
      rfl
    · rw [Kernel.processKey, hq, Option.map_some, hg, Kernel.processKey, hq', Option.map_some, hg']

theorem LifeRun.start {E : Env} {k : Kernel} (h : Inv E k) (g : PidT) :
    LifeRun E g [] (.idle k) := by
  refine ⟨⟨k.counted g, ⟨?_, ?_, ?_, ?_, ?_, ?_, fun _ => .plain .user, ?_⟩, h.counts g⟩, ?_, ?_⟩
  · rintro u p ⟨⟩
  · rintro p ⟨q, hq, -⟩
    exact .inl (h.linkedProcess p (Option.isSome_iff_exists.mpr ⟨q, hq⟩))
  · rintro u p ⟨⟩
  · exact fun p t u ht _ => .inl (Kernel.mem_counted.mpr ht)
  · rintro u f ⟨⟩
  · rintro u v f ⟨⟩
  · rintro u id ⟨-, ⟨m, hm, -⟩, -⟩
    cases hm
  · rintro u ⟨⟩
  · rintro m hm
    cases hm

/-- A conversion or a death with nothing in between. -/
theorem exists_run_alone {E : Env} {g u : PidT} {c : Call} {w : ℤ} {s : Conf} {k' : Kernel}
    (hc : c = .convert ∨ c = .exit) (hpc : s.pc u = .user)
    (h : c.run E ⟨g, u⟩ s.st = some (w, k')) :
    ∃ ms, Run (LifeStep E g) s ms (s.goto u k' (if c = .exit then .dead else .user)) ∧
      (∀ m ∈ ms, m.thread = u ∧ (m.act = .start .exit → c = .exit)) ∧
      ∃ m ∈ ms, m.thread = u ∧ m.act = .finish c w := by
  have hstart : LifeStep E g s ⟨s, u, .start c⟩ (s.goto u s.st (.entry c)) := by
    refine ⟨rfl, ⟨hpc, rfl⟩, ?_⟩
    rintro c' ⟨⟩
    exact hc
  have hfinish : LifeStep E g (s.goto u k' (.ret c w)) ⟨s.goto u k' (.ret c w), u, .finish c w⟩
      (s.goto u k' (if c = .exit then .dead else .user)) := by
    refine ⟨rfl, ⟨by simp, (s.goto_goto u k' k' _ _).symm⟩, ?_⟩
    rintro c' ⟨⟩
  obtain ⟨ms, hms⟩ := Solo.exists_run (s := s)
    (R := fun s m s' => LifeStep E g s m s' ∧ m.thread = u ∧ m.act = .stmt)
    (fun s => ⟨s, u, .stmt⟩) (fun s s' hcs => ⟨⟨rfl, hcs, by rintro _ ⟨⟩⟩, rfl, rfl⟩) (solo_call h)
  have hall := hms.forall_label fun _ _ _ hs => hs.2
  refine ⟨_, ((Run.single hstart).trans (hms.mono fun _ _ _ hs => hs.1)).snoc hfinish, ?_, ?_⟩
  · intro m hm
    obtain hm | hm := List.mem_append.mp hm
    · obtain rfl | hm := List.mem_cons.mp hm
      · refine ⟨rfl, ?_⟩
        rintro ⟨⟩
        rfl
      · obtain ⟨hu, hact⟩ := hall m hm
        refine ⟨hu, fun hexit => ?_⟩
        rw [hact] at hexit
        cases hexit
    · obtain rfl := List.mem_singleton.mp hm
      refine ⟨rfl, ?_⟩
      rintro ⟨⟩
  · exact ⟨_, List.mem_append_right _ (List.mem_singleton.mpr rfl), rfl, rfl⟩

/-- The last thread of the process dies while the thread `b` is about to look for itself
    in the process record. -/
theorem exists_freed_run (E : Env) {g a b : PidT} (hab : b ≠ a) (cpu : Task → Cpu) :
    ∃ ms s, Run (LifeStep E g) (.idle (Kernel.firstConverted E ⟨g, a⟩ cpu)) ms s ∧
      (⟨g, 0⟩ : Ptr) ∈ (s.pc b).touches E ⟨g, b⟩ s.st ∧ s.st.process ⟨g, 0⟩ = none := by
  have hcaller := firstConverted_caller E ⟨g, a⟩ cpu
  set k₀ := Kernel.firstConverted E ⟨g, a⟩ cpu with hk₀
  have hinv : Inv E k₀ := (Reachable.firstConverted E ⟨g, a⟩ cpu).inv
  have hok := hinv.procOk hcaller.process_eq
  have hfound : LifeStep E g ((Conf.idle k₀).goto b k₀ .findOrCreate)
      ⟨(Conf.idle k₀).goto b k₀ .findOrCreate, b, .stmt⟩
        ((Conf.idle k₀).goto b k₀ (.findSelf ⟨g, 0⟩)) := by
    refine ⟨rfl, ⟨_, _, ?_, (Conf.goto_goto ..).symm⟩, by rintro _ ⟨⟩⟩
    have hstep : findOrCreateProcess E ⟨g, b⟩ _ = _ := findOrCreateProcess_found hcaller.process
    rw [Conf.goto_pc, if_pos rfl]
    simp only [Pc.step, K.bind_apply, Conf.goto_st, hstep]
    rfl
  have hstart : LifeStep E g (.idle k₀) ⟨.idle k₀, b, .start .convert⟩
      ((Conf.idle k₀).goto b k₀ .findOrCreate) := by
    refine ⟨rfl, ⟨rfl, rfl⟩, ?_⟩
    rintro c ⟨⟩
    exact .inl rfl
  have hexit := exitCleanup_last hcaller rfl rfl hok.fibersWF fun f hf => by
    obtain ⟨r, hr⟩ := hok.fiber_exists hf
    rw [hr]
    rfl
  have huser : ((Conf.idle k₀).goto b k₀ (.findSelf ⟨g, 0⟩)).pc a = .user := by
    rw [Conf.goto_pc, if_neg hab.symm]
    rfl
  obtain ⟨ms, hrun, -⟩ := exists_run_alone (c := .exit) (.inr rfl) huser hexit
  refine ⟨_, _, ((Run.single hstart).snoc hfound).trans hrun, ?_, ?_⟩
  · have hpc : (((Conf.idle k₀).goto b k₀ (.findSelf ⟨g, 0⟩)).goto a
        (k₀.toreDown ⟨g, 0⟩ [⟨g, 1⟩] (hashForEach (HashTable.empty.add (E.hash 1) ⟨g, 2⟩)))
        .dead).pc b = .findSelf ⟨g, 0⟩ := by
      rw [Conf.goto_pc, if_neg hab, Conf.goto_pc, if_pos rfl]
    show (⟨g, 0⟩ : Ptr) ∈ Pc.touches E ⟨g, b⟩ _ _
    rw [if_pos rfl, hpc]
    exact List.mem_singleton.mpr rfl
  · exact Function.update_self ..

/-- Thread 8 has found the record of its process when thread 7, the only one that is
    converted, dies: the next step of thread 8 reads a freed record. -/
theorem conversion_not_lands :
    let k₀ := Kernel.firstConverted (.linux 240) ⟨7, 7⟩ fun _ => .zero
    Reachable (.linux 240) k₀ ∧ ∃ ms s, Run (LifeStep (.linux 240) 7) (.idle k₀) ms s ∧
      ∃ p ∈ (s.pc 8).touches (.linux 240) ⟨7, 8⟩ s.st, s.st.process p = none := by
  intro k₀
  refine ⟨.firstConverted (.linux 240) ⟨7, 7⟩ _, ?_⟩
  obtain ⟨ms, s, hrun, hin, hnone⟩ :=
    exists_freed_run (.linux 240) (g := 7) (show (8 : PidT) ≠ 7 by decide) fun _ => .zero
  exact ⟨ms, s, hrun, _, hin, hnone⟩

end AosvFibers
