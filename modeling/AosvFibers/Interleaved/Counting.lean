import AosvFibers.Interleaved.Lifetime

/-!
# Steps on the process record

The steps of a conversion and of a death that change a process record or the process
table. One record changes at a time (`Life.modProcess`); `roll` changes where
`active_threads` does.
-/

namespace AosvFibers

open Lib Stmt

/-! ## One process record changes -/

section ModProcess

variable {E : Env} {g : PidT} {k : Kernel} {roll roll' : Ptr → Finset Ptr} {p x t f : Ptr}
  {q : Process}
  {φ : Process → Process}

/-- The record at `p`, the one `q` of process `g`, becomes `φ q`. -/
structure Changes (g : PidT) (k : Kernel) (p : Ptr) (q : Process) (φ : Process → Process) :
    Prop where
  process : k.process p = some q
  self : q.processId = g
  processId : (φ q).processId = q.processId

namespace Changes

theorem process_eq (h : Changes g k p q φ) (x : Ptr) :
    (k.modProcess p φ).process x = if x = p then some (φ q) else k.process x := by
  rw [Kernel.modProcess_process, h.process, Option.map_some]

theorem processKey_eq (h : Changes g k p q φ) (x : Ptr) :
    (k.modProcess p φ).processKey x = k.processKey x := by
  rw [Kernel.processKey, h.process_eq, Kernel.processKey]
  split_ifs with hx
  · rw [hx, h.process, Option.map_some, h.processId, Option.map_some]
  · rfl

theorem exists_iff (h : Changes g k p q φ) {P : Process → Prop} :
    (∃ r, (k.modProcess p φ).process x = some r ∧ r.processId = g ∧ P r) ↔
      if x = p then P (φ q) else ∃ r, k.process x = some r ∧ r.processId = g ∧ P r := by
  rw [h.process_eq]
  split_ifs with hx
  · constructor
    · rintro ⟨r, hr, -, hP⟩
      exact Option.some.inj hr ▸ hP
    · exact fun hP => ⟨_, rfl, h.processId.trans h.self, hP⟩
  · exact .rfl

theorem hasThread_iff (h : Changes g k p q φ) :
    (k.modProcess p φ).hasThread g x t ↔ if x = p then t ∈ (φ q).threads else k.hasThread g x t :=
  h.exists_iff

theorem hasFiber_iff (h : Changes g k p q φ) :
    (k.modProcess p φ).hasFiber g x f ↔ if x = p then f ∈ (φ q).fibers else k.hasFiber g x f :=
  h.exists_iff

theorem belongs_iff (h : Changes g k p q φ) : (k.modProcess p φ).belongs g x ↔ k.belongs g x := by
  constructor
  · rintro ⟨r, hr, hg⟩
    rw [h.process_eq] at hr
    split_ifs at hr with hx
    · exact hx ▸ ⟨q, h.process, h.self⟩
    · exact ⟨r, hr, hg⟩
  · rintro ⟨r, hr, hg⟩
    by_cases hx : x = p
    · exact ⟨φ q, by rw [h.process_eq, if_pos hx], h.processId.trans h.self⟩
    · exact ⟨r, by rw [h.process_eq, if_neg hx, hr], hg⟩

theorem hasThread_self (h : Changes g k p q φ) : k.hasThread g p t ↔ t ∈ q.threads := by
  constructor
  · rintro ⟨r, hr, -, hin⟩
    exact Option.some.inj (h.process.symm.trans hr) ▸ hin
  · exact fun hin => ⟨q, h.process, h.self, hin⟩

theorem hasFiber_self (h : Changes g k p q φ) : k.hasFiber g p f ↔ f ∈ q.fibers := by
  constructor
  · rintro ⟨r, hr, -, hin⟩
    exact Option.some.inj (h.process.symm.trans hr) ▸ hin
  · exact fun hin => ⟨q, h.process, h.self, hin⟩

/-- The thread records stay on their tables where the one of `p` is not written. -/
theorem hasThread_of_eq (h : Changes g k p q φ) (heq : (φ q).threads = q.threads) :
    (k.modProcess p φ).hasThread g x t ↔ k.hasThread g x t := by
  rw [h.hasThread_iff]
  split_ifs with hx
  · rw [heq, hx, h.hasThread_self]
  · rfl

theorem counts (h : Changes g k p q φ) (hc : Counts E g k roll)
    (hok : CountOk E k p (φ q) (roll' p))
    (hroll : ∀ x, x ≠ p → roll' x = roll x)
    (henr : ∀ t ∈ roll' p, ∃ r, k.thread t = some r ∧ r.parent = p)
    (hfib : ∀ f ∈ (φ q).fibers, f ∈ q.fibers ∨ (k.fiber f).isSome ∧ ∀ x, ¬ k.hasFiber g x f) :
    Counts E g (k.modProcess p φ) roll' := by
  refine ⟨?_, ?_, ?_, hc.freshThread, hc.freshFiber, ?_, ?_, ?_, ?_⟩
  · exact hc.processesWF.congr fun x _ => h.processKey_eq x
  · exact hc.processesInj.congr fun x _ => h.processKey_eq x
  · intro x hx
    have hsome := congrArg Option.isSome (h.processKey_eq x)
    rw [Kernel.processKey, Kernel.processKey, Option.isSome_map, Option.isSome_map] at hsome
    exact hc.freshProcess x (hsome ▸ hx)
  · intro x f hf
    rw [h.hasFiber_iff] at hf
    split_ifs at hf with hx
    · obtain hf | ⟨hf, -⟩ := hfib f hf
      · exact hc.freshEntry p f (h.hasFiber_self.mpr hf)
      · exact hc.freshFiber f hf
    · exact hc.freshEntry x f hf
  · intro x r hr hg
    rw [h.process_eq] at hr
    split_ifs at hr with hx
    · subst hx
      exact Option.some.inj hr ▸ hok.congr fun _ _ r hr => ⟨r, hr, rfl, rfl⟩
    · rw [hroll x hx]
      exact (hc.record x r hr hg).congr fun _ _ r hr => ⟨r, hr, rfl, rfl⟩
  · intro x t ht
    by_cases hx : x = p
    · subst hx
      exact ⟨h.belongs_iff.mpr ⟨q, h.process, h.self⟩, henr t ht⟩
    · rw [hroll x hx] at ht
      obtain ⟨hb, hr⟩ := hc.enrolled x t ht
      exact ⟨h.belongs_iff.mpr hb, hr⟩
  · -- a fiber that is new on the table of `p` was on none
    have hnew : ∀ y f, y ≠ p → f ∈ (φ q).fibers → ¬ k.hasFiber g y f := by
      intro y f hy hf hold
      obtain hf | ⟨-, hoff⟩ := hfib f hf
      · exact hy (hc.apart y p f hold (h.hasFiber_self.mpr hf))
      · exact hoff y hold
    intro x y f hf hf'
    rw [h.hasFiber_iff] at hf hf'
    split_ifs at hf hf' with hx hy hy
    · exact hx.trans hy.symm
    · exact absurd hf' (hnew y f hy hf)
    · exact absurd hf (hnew x f hx hf')
    · exact hc.apart x y f hf hf'

end Changes

/-- One process record changes. -/
theorem Life.modProcess {v : PidT} {given : PidT → PidT → Prop} {s : Conf} {pc' : Pc}
    (h : Life E g s roll given)
    (hch : Changes g s.st p q φ) (hok : CountOk E s.st p (φ q) (roll' p))
    (hroll : ∀ x, x ≠ p → roll' x = roll x)
    (henr : ∀ t ∈ roll' p, ∃ r, s.st.thread t = some r ∧ r.parent = p)
    (hothers : ∀ t r, s.st.thread t = some r → r.threadId ≠ v →
      (t ∈ (φ q).threads ↔ t ∈ q.threads) ∧ (t ∈ roll' p ↔ t ∈ roll p))
    (hfibers : ∀ f ∈ q.fibers, f ∈ (φ q).fibers)
    (hnew : ∀ f ∈ (φ q).fibers, f ∈ q.fibers ∨ (s.pc v).making = some f)
    (hrec : ∀ x, pc'.record = some x → (s.pc v).record = some x)
    (htear : ∀ x, (s.pc v).tearsDown = some x → pc'.tearsDown = some x)
    (hempty : ∀ x, pc'.tearsDown = some x → roll' x = ∅)
    (hsub : ∀ u, u ≠ v → (s.pc u).tearsDown = some p → roll' p ⊆ roll p)
    (howner : ∀ x t, (s.st.modProcess p φ).hasThread g x t → s.st.threadKey t = some v →
      t ∈ roll' x ∨ pc'.leaves = some t)
    (hmade : pc'.making = none)
    (hkeep : ∀ id, given v id → (∀ t ∈ q.threads, t ∈ (φ q).threads) ∧ roll p ⊆ roll' p)
    (hstage : Stage g (s.st.modProcess p φ) roll' v pc') :
    Life E g (s.goto v (s.st.modProcess p φ) pc') roll' given := by
  have hc : Counts E g (s.st.modProcess p φ) roll' := by
    refine hch.counts h.counts hok hroll henr fun f hf => (hnew f hf).imp_right fun hmk => ?_
    exact h.made v f hmk
  refine h.step hc ?_ ?_ ?_ ?_ hempty ?_ howner ?_ ?_ hstage
  · refine ⟨fun _ _ hin => hin, fun _ _ _ => .rfl, ?_, ?_, ?_, ?_, fun _ _ _ _ => rfl⟩
    · intro x t r hr hid
      by_cases hx : x = p
      · subst hx
        exact (hothers t r hr hid).2
      · rw [hroll x hx]
    · intro x t r hr hid _
      rw [hch.hasThread_iff]
      split_ifs with hx
      · subst hx
        rw [hch.hasThread_self]
        exact (hothers t r hr hid).1
      · rfl
    · intro x f _ hf
      rw [hch.hasFiber_iff]
      split_ifs with hx
      · subst hx
        exact hfibers f (hch.hasFiber_self.mp hf)
      · exact hf
    · intro x f hf
      rw [hch.hasFiber_iff] at hf
      split_ifs at hf with hx
      · subst hx
        exact (hnew f hf).imp_left hch.hasFiber_self.mpr
      · exact .inl hf
  · exact fun x hx => hch.belongs_iff.mpr (h.inHand v x (hrec x hx))
  · exact fun u x _ hx => hch.belongs_iff.mpr (h.inHand u x hx)
  · exact Life.torn_of_eq rfl (fun _ => hch.belongs_iff.mp) htear
  · intro u x hu hx
    by_cases hxp : x = p
    · subst hxp
      exact hsub u hu hx
    · rw [hroll x hxp]
  · intro f hf
    rw [hmade] at hf
    cases hf
  · rintro id hid ⟨x, t, f, hm, hf, hfid⟩
    obtain ⟨hthreads, hrolls⟩ := hkeep id hid
    refine ⟨x, t, f, ⟨hm.thread, ?_, ?_⟩, ?_, hfid⟩
    · by_cases hx : x = p
      · subst hx
        exact hrolls hm.counted
      · rw [hroll x hx]
        exact hm.counted
    · rw [hch.hasThread_iff]
      split_ifs with hx
      · subst hx
        exact hthreads t (hch.hasThread_self.mp hm.listed)
      · exact hm.listed
    · rw [hch.hasFiber_iff]
      split_ifs with hx
      · subst hx
        exact hfibers f (hch.hasFiber_self.mp hf)
      · exact hf

end ModProcess

/-! ## The steps of a conversion -/

namespace Life

variable {E : Env} {g v : PidT} {k' : Kernel} {roll : Ptr → Finset Ptr}
  {given : PidT → PidT → Prop} {s : Conf} {next : Pc}
  {f t p : Ptr} {rest : List Stmt}

theorem isRecord (h : Life E g s roll given) (hrec : (s.pc v).record = some p)
    (φ : Process → Process)
    (hφ : ∀ q, (φ q).processId = q.processId) :
    ∃ q, Changes g s.st p q φ ∧ CountOk E s.st p q (roll p) := by
  obtain ⟨q, hq, hg⟩ := h.inHand v p hrec
  exact ⟨q, ⟨hq, hg, hφ q⟩, h.counts.record p q hq hg⟩

/-- `atomic64_inc(&(p->active_threads))`, while nobody tears `p` down. -/
theorem incActive (h : Life E g s roll given)
    (hpc : s.pc v = .run [.incActive p, .addThread p t] (.newFiber p (.convert t)))
    (habs : s.st.lacks g p v) (ht : s.st.threadIs t v p) (hnot : t ∉ roll p)
    (hfree : ∀ u, u ≠ v → (s.pc u).tearsDown ≠ some p) :
    Life E g (s.goto v ((Stmt.incActive p).apply E ⟨g, v⟩ s.st)
        (.run [.addThread p t] (.newFiber p (.convert t))))
      (Function.update roll p (insert t (roll p))) given := by
  obtain ⟨q, hch, hok⟩ := h.isRecord (v := v) (p := p) (by rw [hpc]; rfl)
    (fun r => { r with activeThreads := r.activeThreads + 1 }) fun _ => rfl
  obtain ⟨r, hr, hid, hpar⟩ := ht
  have hself : Function.update roll p (insert t (roll p)) p = insert t (roll p) :=
    Function.update_self ..
  have hsub' : insert t (roll p) ⊆ Function.update roll p (insert t (roll p)) p := hself.ge
  have hsub : ∀ x, roll x ⊆ Function.update roll p (insert t (roll p)) x := by
    intro x
    by_cases hx : x = p
    · subst hx
      rw [hself]
      exact Finset.subset_insert _ _
    · rw [Function.update_of_ne hx]
  refine h.modProcess hch ?_ (fun x hx => Function.update_of_ne hx _ _) ?_ ?_ (fun _ hf => hf)
    (fun _ hf => .inl hf) ?_ ?_ ?_ (fun u hu hp => absurd hp (hfree u hu)) ?_ rfl
    (fun _ _ => ⟨fun _ hx => hx, hsub p⟩) ?_
  · refine ⟨hok.threadsWF, hok.threadsInj, hok.parent, ?_⟩
    rw [hself, Finset.card_insert_of_notMem hnot, Nat.cast_succ, ← hok.count]
  · intro x hx
    rw [hself, Finset.mem_insert] at hx
    obtain rfl | hx := hx
    · exact ⟨r, hr, hpar⟩
    · exact (h.counts.enrolled p x hx).2
  · intro x rx hx hne
    refine ⟨.rfl, ?_⟩
    rw [hself, Finset.mem_insert, or_iff_right]
    rintro rfl
    obtain rfl := Option.some.inj (hr.symm.trans hx)
    exact hne hid
  · intro x hx
    rw [hpc]
    exact hx
  · intro x hx
    rw [hpc] at hx
    cases hx
  · rintro x ⟨⟩
  · intro x y hy hkey
    have hold := (hch.hasThread_of_eq rfl).mp hy
    obtain hin | hl := h.owner x y v hold hkey
    · exact .inl (hsub x hin)
    · rw [hpc] at hl
      cases hl
  · refine .adding p t ?_ ⟨r, hr, hid, hpar⟩ (hsub' (Finset.mem_insert_self _ _))
    exact fun y hy => habs y ((hch.hasThread_of_eq rfl).mp hy)

/-- `hash_add_rcu(p->threads, ..)`. -/
theorem addThread (h : Life E g s roll given)
    (hpc : s.pc v = .run [.addThread p t] (.newFiber p (.convert t)))
    (habs : s.st.lacks g p v) (ht : s.st.threadIs t v p) (hin : t ∈ roll p) :
    Life E g (s.goto v ((Stmt.addThread p t).apply E ⟨g, v⟩ s.st)
        (.run [] (.newFiber p (.convert t)))) roll given := by
  obtain ⟨r, hr, hid, hpar⟩ := ht
  obtain ⟨q, hch, hok⟩ := h.isRecord (v := v) (p := p) (by rw [hpc]; rfl)
    (fun q => { q with threads := q.threads.add (E.hash r.threadId) t }) fun _ => rfl
  have hkey : s.st.threadKey t = some v := by
    rw [Kernel.threadKey, hr, Option.map_some, hid]
  have habs' : ∀ x ∈ q.threads, s.st.threadKey x ≠ some v := fun x hx =>
    habs x (hch.hasThread_self.mpr hx)
  have happly : (Stmt.addThread p t).apply E ⟨g, v⟩ s.st =
      s.st.modProcess p fun q => { q with threads := q.threads.add (E.hash r.threadId) t } := by
    rw [Stmt.apply, hr]
    rfl
  rw [happly]
  refine h.modProcess hch ?_ (fun _ _ => rfl) (fun x hx => (h.counts.enrolled p x hx).2) ?_
    (fun _ hf => hf) (fun _ hf => .inl hf) ?_ ?_ ?_ (fun _ _ _ => Finset.Subset.refl _) ?_ rfl
    (fun _ _ => ⟨fun _ hx => HashTable.mem_add.mpr (.inr hx), Finset.Subset.refl _⟩) ?_
  · refine ⟨?_, ?_, ?_, hok.count⟩
    · rw [hid]
      exact hok.threadsWF.add (fun hx => habs' t hx hkey) hkey
    · exact hok.threadsInj.add hkey habs'
    · intro x hx rx hrx
      obtain rfl | hx := HashTable.mem_add.mp hx
      · exact Option.some.inj (hr.symm.trans hrx) ▸ hpar
      · exact hok.parent x hx rx hrx
  · intro x rx hx hne
    refine ⟨?_, .rfl⟩
    rw [HashTable.mem_add, or_iff_right]
    rintro rfl
    obtain rfl := Option.some.inj (hr.symm.trans hx)
    exact hne hid
  · rintro x ⟨⟩
    rw [hpc]
    rfl
  · intro x hx
    rw [hpc] at hx
    cases hx
  · rintro x ⟨⟩
  · intro x y hy hkey'
    rw [hch.hasThread_iff] at hy
    split_ifs at hy with hx
    · subst hx
      obtain rfl | hy := HashTable.mem_add.mp hy
      · exact .inl hin
      · exact absurd hkey' (habs' y hy)
    · obtain hin' | hl := h.owner x y v hy hkey'
      · exact .inl hin'
      · rw [hpc] at hl
        cases hl
  · refine .added p t ⟨⟨r, hr, hid, hpar⟩, hin, ?_⟩
    rw [hch.hasThread_iff, if_pos rfl]
    exact HashTable.mem_add.mpr (.inl rfl)

/-- `hash_add_rcu(p->fibers, ..)`. -/
theorem addFiber (h : Life E g s roll given)
    (hpc : s.pc v = .run (.addFiber p f :: rest) (.lockNew t f))
    (hrest : ∀ st ∈ rest, st.isWrite) (hsel : ∀ t' x, .select t' x ∈ rest → t' = t)
    (hm : Member g s.st roll v p t) (hkey : (s.st.fiberKey f).isSome) :
    Life E g (s.goto v ((Stmt.addFiber p f).apply E ⟨g, v⟩ s.st) (.run rest (.lockNew t f)))
      roll given := by
  have hkey' := hkey
  rw [Kernel.fiberKey, Option.isSome_map] at hkey'
  obtain ⟨r, hr⟩ := Option.isSome_iff_exists.mp hkey'
  obtain ⟨q, hch, hok⟩ := h.isRecord (v := v) (p := p) (by rw [hpc]; rfl)
    (fun q => { q with fibers := q.fibers.add (E.hash r.fiberId) f }) fun _ => rfl
  have happly : (Stmt.addFiber p f).apply E ⟨g, v⟩ s.st =
      s.st.modProcess p fun q => { q with fibers := q.fibers.add (E.hash r.fiberId) f } := by
    rw [Stmt.apply, hr]
    rfl
  obtain ⟨hrec, htear, -, hmk⟩ := Pc.run_writes hrest (.lockNew t f)
  rw [happly]
  refine h.modProcess hch ⟨hok.threadsWF, hok.threadsInj, hok.parent, hok.count⟩ (fun _ _ => rfl)
    (fun x hx => (h.counts.enrolled p x hx).2) (fun _ _ _ _ => ⟨.rfl, .rfl⟩)
    (fun x hx => HashTable.mem_add.mpr (.inr hx)) ?_ ?_ ?_ ?_ (fun _ _ _ => Finset.Subset.refl _)
    ?_ hmk (fun _ _ => ⟨fun _ hx => hx, Finset.Subset.refl _⟩) ?_
  · intro x hx
    obtain rfl | hx := HashTable.mem_add.mp hx
    · refine .inr ?_
      rw [hpc]
      rfl
    · exact .inl hx
  · intro x hx
    rw [hrec] at hx
    cases hx
  · intro x hx
    rw [hpc, Pc.tearsDown, List.findSome?_cons] at hx
    exact hx
  · intro x hx
    rw [htear] at hx
    cases hx
  · intro x y hy hkey'
    have hold := (hch.hasThread_of_eq rfl).mp hy
    obtain hin | hl := h.owner x y v hold hkey'
    · exact .inl hin
    · rw [hpc] at hl
      exact .inr hl
  · refine .made p t f ⟨hm.thread, hm.counted, (hch.hasThread_of_eq rfl).mpr hm.listed⟩ ?_ hkey
      (.writing rest hrest hsel)
    · rw [hch.hasFiber_iff, if_pos rfl]
      exact HashTable.mem_add.mpr (.inl rfl)

end Life

/-! ## The steps of a death -/

namespace Life

variable {E : Env} {g v : PidT} {k' : Kernel} {roll : Ptr → Finset Ptr}
  {given : PidT → PidT → Prop} {s : Conf} {next : Pc}
  {f t p : Ptr} {r : ℤ}

/-- `atomic64_dec_return(&(t->parent->active_threads))`. -/
theorem dec (h : Life E g s roll given) (hpc : s.pc v = .dec p t) (hm : Member g s.st roll v p t)
    (hdec : decActiveThreads t s.st = some (r, k')) (hdead : ∀ id, ¬ given v id) :
    Life E g (s.goto v k' (.checkExit p t r)) (Function.update roll p ((roll p).erase t))
      given := by
  obtain ⟨⟨rt, hr, hid, hpar⟩, hin, hl⟩ := hm
  obtain ⟨q, hch, hok⟩ := h.isRecord (v := v) (p := p) (by rw [hpc]; rfl)
    (fun q => { q with activeThreads := q.activeThreads - 1 }) fun _ => rfl
  obtain ⟨rfl, rfl⟩ : q.activeThreads - 1 = r ∧
      (s.st.modProcess p fun q => { q with activeThreads := q.activeThreads - 1 }) = k' := by
    simpa [decActiveThreads, hr, hpar, hch.process] using hdec
  have hself : Function.update roll p ((roll p).erase t) p = (roll p).erase t :=
    Function.update_self ..
  have hcard : (((roll p).erase t).card : ℤ) = q.activeThreads - 1 := by
    have hone := Finset.card_erase_add_one hin
    rw [hok.count]
    omega
  refine h.modProcess hch ?_ (fun x hx => Function.update_of_ne hx _ _) ?_ ?_ (fun _ hf => hf)
    (fun _ hf => .inl hf) ?_ ?_ ?_ ?_ ?_ rfl (fun id hid => absurd hid (hdead id)) ?_
  · refine ⟨hok.threadsWF, hok.threadsInj, hok.parent, ?_⟩
    rw [hself, hcard]
  · intro x hx
    rw [hself] at hx
    exact (h.counts.enrolled p x (Finset.mem_of_mem_erase hx)).2
  · intro x rx hx hne
    refine ⟨.rfl, ?_⟩
    rw [hself, Finset.mem_erase, and_iff_right]
    rintro rfl
    obtain rfl := Option.some.inj (hr.symm.trans hx)
    exact hne hid
  · intro x hx
    rw [hpc]
    exact hx
  · intro x hx
    rw [hpc] at hx
    cases hx
  · intro x hx
    rw [Pc.tearsDown] at hx
    split_ifs at hx with hzero
    obtain rfl := Option.some.inj hx
    rw [hself, ← Finset.card_eq_zero, ← Nat.cast_eq_zero (R := ℤ), hcard, hzero]
  · intro _ _ _
    rw [hself]
    exact Finset.erase_subset _ _
  · intro x y hy hkey
    have hold := (hch.hasThread_of_eq rfl).mp hy
    by_cases hyt : y = t
    · exact .inr (hyt ▸ rfl)
    · obtain hin' | hl' := h.owner x y v hold hkey
      · refine .inl ?_
        rw [Function.update_apply]
        split_ifs with hx
        · exact Finset.mem_erase.mpr ⟨hyt, hx ▸ hin'⟩
        · exact hin'
      · rw [hpc] at hl'
        cases hl'
  · refine .leaving p t ⟨rt, hr, hid, hpar⟩ ?_ ?_ (.check _)
    · rw [hself]
      exact Finset.notMem_erase t _
    · exact (hch.hasThread_of_eq rfl).mpr hl

/-- `hash_del_rcu(&(t->node))`. -/
theorem delThread (h : Life E g s roll given)
    (hpc : s.pc v = .run [.delThread p t, .freeThread t] (.lastThread p r))
    (ht : s.st.threadIs t v p) (hnot : t ∉ roll p) (hdead : ∀ id, ¬ given v id) :
    Life E g (s.goto v ((Stmt.delThread p t).apply E ⟨g, v⟩ s.st)
        (.run [.freeThread t] (.lastThread p r))) roll given := by
  obtain ⟨rt, hr, hid, hpar⟩ := ht
  obtain ⟨q, hch, hok⟩ := h.isRecord (v := v) (p := p) (by rw [hpc]; rfl)
    (fun q => { q with threads := q.threads.del t }) fun _ => rfl
  refine h.modProcess hch ?_ (fun _ _ => rfl) (fun x hx => (h.counts.enrolled p x hx).2) ?_
    (fun _ hf => hf) (fun _ hf => .inl hf) ?_ ?_ ?_ (fun _ _ _ => Finset.Subset.refl _) ?_ rfl
    (fun id hid => absurd hid (hdead id)) ?_
  · exact ⟨hok.threadsWF.del, hok.threadsInj.del,
      fun x hx => hok.parent x (HashTable.mem_of_mem_del hx), hok.count⟩
  · intro x rx hx hne
    refine ⟨?_, .rfl⟩
    rw [hok.threadsWF.mem_del, and_iff_left]
    rintro rfl
    obtain rfl := Option.some.inj (hr.symm.trans hx)
    exact hne hid
  · intro x hx
    rw [hpc]
    change (if r = 0 then some p else none) = some x at hx
    split_ifs at hx
    exact hx
  · intro x hx
    rw [hpc] at hx
    exact hx
  · intro x hx
    refine h.empty v x ?_
    rw [hpc]
    exact hx
  · intro x y hy hkey
    rw [hch.hasThread_iff] at hy
    have hne : y ≠ t ∧ s.st.hasThread g x y := by
      split_ifs at hy with hx
      · obtain ⟨hin, hne⟩ := hok.threadsWF.mem_del.mp hy
        exact ⟨hne, hx ▸ hch.hasThread_self.mpr hin⟩
      · refine ⟨?_, hy⟩
        rintro rfl
        obtain ⟨q', hq', hg', hin⟩ := hy
        exact hx ((h.counts.record x q' hq' hg').parent y hin rt hr ▸ hpar)
    obtain hin | hl := h.owner x y v hne.2 hkey
    · exact .inl hin
    · rw [hpc] at hl
      exact absurd (Option.some.inj hl).symm hne.1
  · refine .freeingThread p t r ⟨rt, hr, hid, hpar⟩ hnot ?_
    rw [hch.hasThread_iff, if_pos rfl]
    exact fun hin => (hok.threadsWF.mem_del.mp hin).2 rfl

/-- `kfree(t)`. -/
theorem freeThread (h : Life E g s roll given)
    (hpc : s.pc v = .run [.freeThread t] (.lastThread p r))
    (ht : s.st.threadIs t v p) (hnot : t ∉ roll p) (hl : ¬ s.st.hasThread g p t)
    (hdead : ∀ id, ¬ given v id) :
    Life E g (s.goto v ((Stmt.freeThread t).apply E ⟨g, v⟩ s.st) (.run [] (.lastThread p r)))
      roll given := by
  obtain ⟨rt, hr, hid, hpar⟩ := ht
  have hthread : ∀ x rx, s.st.thread x = some rx → x ≠ t →
      ((Stmt.freeThread t).apply E ⟨g, v⟩ s.st).thread x = some rx := fun x rx hx hne =>
    (Function.update_of_ne hne _ _).trans hx
  have hout : ∀ x, ¬ s.st.hasThread g x t := by
    rintro x ⟨q, hq, hg, hin⟩
    obtain rfl : rt.parent = x := (h.counts.record x q hq hg).parent t hin rt hr
    exact hl (hpar ▸ ⟨q, hq, hg, hin⟩)
  have hc : Counts E g ((Stmt.freeThread t).apply E ⟨g, v⟩ s.st) roll := by
    refine ⟨h.counts.processesWF, h.counts.processesInj, h.counts.freshProcess, ?_,
      h.counts.freshFiber, h.counts.freshEntry, ?_, ?_, h.counts.apart⟩
    · intro x hx
      refine h.counts.freshThread x ?_
      simp only [Stmt.apply, Function.update_apply] at hx
      split_ifs at hx
      · cases hx
      · exact hx
    · intro x q hq hg
      refine (h.counts.record x q hq hg).congr fun y hy ry hry =>
        ⟨ry, hthread y ry hry ?_, rfl, rfl⟩
      rintro rfl
      exact hout x ⟨q, hq, hg, hy⟩
    · intro x y hy
      obtain ⟨hb, ry, hry, hpar'⟩ := h.counts.enrolled x y hy
      refine ⟨hb, ry, hthread y ry hry ?_, hpar'⟩
      rintro rfl
      obtain rfl := Option.some.inj (hr.symm.trans hry)
      exact hnot ((hpar.symm.trans hpar') ▸ hy)
  have hback : ∀ x rx, ((Stmt.freeThread t).apply E ⟨g, v⟩ s.st).thread x = some rx →
      s.st.thread x = some rx := by
    intro x rx hx
    simp only [Stmt.apply, Function.update_apply] at hx
    split_ifs at hx
    exact hx
  refine h.step hc ?_ ?_ (fun u x _ hx => h.inHand u x hx) ?_ ?_
    (fun _ _ _ _ => Finset.Subset.refl _) ?_ ?_ (fun id hid => absurd hid (hdead id))
    (.plain (.unlinked p r))
  · refine ⟨fun _ _ hin => hin, ?_, fun _ _ _ _ _ => .rfl, fun _ _ _ _ _ _ => .rfl,
      fun _ _ _ hf => hf, fun _ _ hf => .inl hf, fun _ _ _ _ => rfl⟩
    intro x rx hne
    refine ⟨hback x rx, fun hx => hthread x rx hx ?_⟩
    rintro rfl
    obtain rfl := Option.some.inj (hr.symm.trans hx)
    exact hne hid
  · intro x hx
    refine h.inHand v x ?_
    rw [hpc]
    exact hx
  · refine torn_of_eq rfl (fun _ hx => hx) fun x hx => ?_
    rw [hpc] at hx
    exact hx
  · intro x hx
    refine h.empty v x ?_
    rw [hpc]
    exact hx
  · intro x y hy hkey
    have hkey' : s.st.threadKey y = some v := by
      obtain ⟨ry, hry, hid'⟩ := Option.map_eq_some_iff.mp hkey
      rw [Kernel.threadKey, hback y ry hry, Option.map_some, hid']
    obtain hin | hl' := h.owner x y v hy hkey'
    · exact .inl hin
    · rw [hpc] at hl'
      cases hl'
  · rintro x ⟨⟩

end Life

/-! ## The steps of a teardown -/

namespace Life

variable {E : Env} {g v : PidT} {k' : Kernel} {roll : Ptr → Finset Ptr}
  {given : PidT → PidT → Prop} {s : Conf} {f p : Ptr}
  {fs : List Ptr} {b : ℕ}

/-- `kfree(f)`. -/
theorem freeFiber (h : Life E g s roll given)
    (hpc : s.pc v = .run ((f :: fs).map .freeFiber) (.freeBucket p b))
    (hfs : ∀ x ∈ f :: fs, s.st.hasFiber g p x) :
    Life E g (s.goto v ((Stmt.freeFiber f).apply E ⟨g, v⟩ s.st)
        (.run (fs.map .freeFiber) (.freeBucket p b))) roll given := by
  have hsame : SameTables s.st ((Stmt.freeFiber f).apply E ⟨g, v⟩ s.st) :=
    .of_process rfl rfl fun x r hr => ⟨r, hr, rfl, rfl⟩
  refine h.same hsame (fun _ => le_rfl) (fun _ => .inl) ?_ (fun _ _ _ => .rfl) ?_ ?_ ?_ ?_ ?_ ?_
  · intro x hx
    simp only [Stmt.apply, Function.update_apply] at hx
    split_ifs at hx
    · cases hx
    · exact .inl hx
  · -- nobody is counted any more in the process record whose fibers are freed
    intro x _ _ hlive
    have hempty := h.empty v p (by rw [hpc, (Pc.run_freeFibers _ _).2.1]; rfl)
    have hne : x ≠ f := by
      rintro rfl
      obtain ⟨t, ht⟩ := hlive p (hfs x (by simp))
      rw [hempty] at ht
      cases ht
    exact congrArg _ (Function.update_of_ne hne _ _)
  · intro x hx
    rw [hpc]
    exact .inl hx
  · rw [hpc]
    rfl
  · rw [hpc]
    rfl
  · intro x hx
    rw [(Pc.run_freeFibers fs _).2.2.2] at hx
    cases hx
  · refine .freeingFibers p fs b fun x hx => hsame.hasFiber_iff.mpr ?_
    exact hfs x (List.mem_cons_of_mem f hx)

/-- `hash_del_rcu(&(p->node))`. -/
theorem delProcess (h : Life E g s roll given)
    (hpc : s.pc v = .run [.delProcess p, .freeProcess p] (.ret .exit 0)) :
    Life E g (s.goto v ((Stmt.delProcess p).apply E ⟨g, v⟩ s.st)
        (.run [.freeProcess p] (.ret .exit 0))) roll given := by
  have hc := h.counts
  have hin : ∀ x, x ∈ s.st.processes.del p ↔ x ∈ s.st.processes ∧ x ≠ p :=
    fun x => hc.processesWF.mem_del
  have hrecord : ∀ x q, s.st.process x = some q → q.processId = g →
      CountOk E ((Stmt.delProcess p).apply E ⟨g, v⟩ s.st) x q (roll x) := fun x q hq hg =>
    (hc.record x q hq hg).congr fun _ _ r hr => ⟨r, hr, rfl, rfl⟩
  refine h.step ⟨hc.processesWF.del, hc.processesInj.del, hc.freshProcess, hc.freshThread,
    hc.freshFiber, hc.freshEntry, hrecord, hc.enrolled, hc.apart⟩ ?_ ?_ (fun u x _ hx => h.inHand u x hx) ?_ ?_
    (fun _ _ _ _ => Finset.Subset.refl _) ?_ ?_ ?_ (.deleted p fun hp => ((hin p).mp hp).2 rfl)
  · exact ⟨fun x _ hx => ((hin x).mp hx).1, fun _ _ _ => .rfl, fun _ _ _ _ _ => .rfl,
      fun _ _ _ _ _ _ => .rfl, fun _ _ _ hf => hf, fun _ _ hf => .inl hf, fun _ _ _ _ => rfl⟩
  · intro x hx
    refine h.inHand v x ?_
    rw [hpc]
    exact hx
  · intro x hx
    by_cases hxp : x = p
    · exact .inr (.inl (hxp ▸ rfl))
    · obtain hold | ⟨u, hu⟩ := h.torn x hx
      · exact .inl ((hin x).mpr ⟨hold, hxp⟩)
      · by_cases hold : x ∈ s.st.processes
        · exact .inl ((hin x).mpr ⟨hold, hxp⟩)
        · refine .inr (.inr ⟨hx, hold, ?_⟩)
          rw [hpc]
          exact fun heq => hxp (Option.some.inj heq).symm
  · intro x hx
    refine h.empty v x ?_
    rw [hpc]
    exact hx
  · intro x y hy hkey
    obtain hin | hl := h.owner x y v hy hkey
    · exact .inl hin
    · rw [hpc] at hl
      cases hl
  · rintro x ⟨⟩
  · rintro id - ⟨x, t, f, hm, hf, hfid⟩
    exact ⟨x, t, f, ⟨hm.thread, hm.counted, hm.listed⟩, hf, hfid⟩

/-- `kfree(p)`, while nobody else has `p` in hand. -/
theorem freeProcess (h : Life E g s roll given)
    (hpc : s.pc v = .run [.freeProcess p] (.ret .exit 0))
    (hout : p ∉ s.st.processes) (hfree : ∀ u, u ≠ v → (s.pc u).record ≠ some p) :
    Life E g (s.goto v ((Stmt.freeProcess p).apply E ⟨g, v⟩ s.st) (.run [] (.ret .exit 0)))
      roll given := by
  have hc := h.counts
  have hempty : roll p = ∅ := h.empty v p (by rw [hpc]; rfl)
  set k₁ := (Stmt.freeProcess p).apply E ⟨g, v⟩ s.st with hk₁
  have hprocess : ∀ x q, k₁.process x = some q ↔ x ≠ p ∧ s.st.process x = some q := by
    intro x q
    simp only [hk₁, Stmt.apply, Function.update_apply]
    split_ifs with hx <;> simp [hx]
  have hbelongs : ∀ x, k₁.belongs g x ↔ x ≠ p ∧ s.st.belongs g x := by
    intro x
    simp only [Kernel.belongs, hprocess, and_assoc, exists_and_left]
  have hthreads : ∀ x t, k₁.hasThread g x t ↔ x ≠ p ∧ s.st.hasThread g x t := by
    intro x t
    simp only [Kernel.hasThread, hprocess, and_assoc, exists_and_left]
  have hfibers : ∀ x f, k₁.hasFiber g x f ↔ x ≠ p ∧ s.st.hasFiber g x f := by
    intro x f
    simp only [Kernel.hasFiber, hprocess, and_assoc, exists_and_left]
  have hkey : ∀ x ∈ s.st.processes, k₁.processKey x = s.st.processKey x := by
    intro x hx
    have hne : x ≠ p := fun heq => hout (heq ▸ hx)
    exact congrArg _ (Function.update_of_ne hne _ _)
  have hc' : Counts E g k₁ roll := by
    refine ⟨hc.processesWF.congr hkey, hc.processesInj.congr hkey, ?_, hc.freshThread,
      hc.freshFiber, ?_, ?_, ?_, ?_⟩
    · intro x hx
      obtain ⟨q, hq⟩ := Option.isSome_iff_exists.mp hx
      exact hc.freshProcess x (by rw [((hprocess x q).mp hq).2]; rfl)
    · exact fun x f hf => hc.freshEntry x f ((hfibers x f).mp hf).2
    · intro x q hq hg
      exact (hc.record x q ((hprocess x q).mp hq).2 hg).congr fun _ _ r hr => ⟨r, hr, rfl, rfl⟩
    · intro x t ht
      obtain ⟨hb, hr⟩ := hc.enrolled x t ht
      refine ⟨(hbelongs x).mpr ⟨?_, hb⟩, hr⟩
      rintro rfl
      rw [hempty] at ht
      cases ht
    · exact fun x y f hx hy => hc.apart x y f ((hfibers x f).mp hx).2 ((hfibers y f).mp hy).2
  refine h.step hc' ?_ ?_ ?_ ?_ ?_ (fun _ _ _ _ => Finset.Subset.refl _) ?_ ?_ ?_ (.plain .gone)
  · refine ⟨fun _ _ hin => hin, fun _ _ _ => .rfl, fun _ _ _ _ _ => .rfl, ?_, ?_, ?_,
      fun _ _ _ _ => rfl⟩
    · intro x t _ _ _ hb
      rw [hthreads, and_iff_right ((hbelongs x).mp hb).1]
    · exact fun x f hb hf => (hfibers x f).mpr ⟨((hbelongs x).mp hb).1, hf⟩
    · exact fun x f hf => .inl ((hfibers x f).mp hf).2
  · rintro x ⟨⟩
  · intro u x hu hx
    refine (hbelongs x).mpr ⟨?_, h.inHand u x hx⟩
    rintro rfl
    exact hfree u hu hx
  · intro x hx
    obtain ⟨hxp, hb⟩ := (hbelongs x).mp hx
    by_cases hin : x ∈ s.st.processes
    · exact .inl hin
    · refine .inr (.inr ⟨hb, hin, ?_⟩)
      rw [hpc]
      exact fun heq => hxp (Option.some.inj heq).symm
  · rintro x ⟨⟩
  · intro x y hy hkey
    obtain hin | hl := h.owner x y v ((hthreads x y).mp hy).2 hkey
    · exact .inl hin
    · rw [hpc] at hl
      cases hl
  · rintro x ⟨⟩
  · rintro id - ⟨x, t, f, hm, hf, hfid⟩
    have hx : x ≠ p := by
      rintro rfl
      have hin := hm.counted
      rw [hempty] at hin
      cases hin
    exact ⟨x, t, f, ⟨hm.thread, hm.counted, (hthreads x t).mpr ⟨hx, hm.listed⟩⟩,
      (hfibers x f).mpr ⟨hx, hf⟩, hfid⟩

/-- A process gets its record. -/
theorem newProcess (h : Life E g s roll given) (hpc : s.pc v = .findOrCreate)
    (hnone : s.st.processOf E g = some none) :
    Life E g (s.goto v (s.st.withProcess E ⟨g, v⟩) (.findSelf (s.st.nextPtr g))) roll given := by
  have hc := h.counts
  obtain ⟨hfresh, -, -, hoff⟩ := hc.nextPtr_fresh
  set k₁ := s.st.withProcess E ⟨g, v⟩ with hk₁
  set p₁ := s.st.nextPtr g with hp₁
  have hbrk : k₁.brk = Function.update s.st.brk g (s.st.brk g + 1) := rfl
  have hprocess : ∀ x, k₁.process x = if x = p₁ then
      some { processId := g, lastFiberId := 0, activeThreads := 0,
             threads := .empty, fibers := .empty }
      else s.st.process x := fun x => Function.update_apply ..
  have hold : ∀ x q, s.st.process x = some q → k₁.process x = some q := by
    intro x q hq
    rw [hprocess, if_neg, hq]
    rintro rfl
    rw [hfresh] at hq
    cases hq
  have hnew : ∀ x q, k₁.process x = some q → s.st.process x = some q ∨
      x = p₁ ∧ q.activeThreads = 0 ∧ q.threads = .empty ∧ q.fibers = .empty := by
    intro x q hq
    rw [hprocess] at hq
    split_ifs at hq with hx
    · refine .inr ⟨hx, ?_⟩
      rw [← Option.some.inj hq]
      exact ⟨rfl, rfl, rfl⟩
    · exact .inl hq
  have hbelongs : ∀ x, s.st.belongs g x → k₁.belongs g x := by
    rintro x ⟨q, hq, hg⟩
    exact ⟨q, hold x q hq, hg⟩
  have hself : k₁.belongs g p₁ := ⟨_, (hprocess p₁).trans (if_pos rfl), rfl⟩
  have hthreads : ∀ x t, k₁.hasThread g x t ↔ s.st.hasThread g x t := by
    intro x t
    constructor
    · rintro ⟨q, hq, hg, hin⟩
      obtain hq | ⟨-, -, hempty, -⟩ := hnew x q hq
      · exact ⟨q, hq, hg, hin⟩
      · exact absurd (hempty ▸ hin) (HashTable.not_mem_empty t)
    · rintro ⟨q, hq, hg, hin⟩
      exact ⟨q, hold x q hq, hg, hin⟩
  have hfibers : ∀ x f, k₁.hasFiber g x f ↔ s.st.hasFiber g x f := by
    intro x f
    constructor
    · rintro ⟨q, hq, hg, hin⟩
      obtain hq | ⟨-, -, -, hempty⟩ := hnew x q hq
      · exact ⟨q, hq, hg, hin⟩
      · exact absurd (hempty ▸ hin) (HashTable.not_mem_empty f)
    · rintro ⟨q, hq, hg, hin⟩
      exact ⟨q, hold x q hq, hg, hin⟩
  have hout : p₁ ∉ s.st.processes := by
    intro hin
    have hkey := hc.processesWF.key_isSome hin
    rw [Kernel.processKey, hfresh] at hkey
    cases hkey
  have hkey : ∀ x ∈ s.st.processes, k₁.processKey x = s.st.processKey x := by
    intro x hx
    have hne : x ≠ p₁ := fun heq => hout (heq ▸ hx)
    rw [Kernel.processKey, hprocess, if_neg hne, Kernel.processKey]
  have hkey₁ : k₁.processKey p₁ = some g := by
    rw [Kernel.processKey, hprocess, if_pos rfl, Option.map_some]
  have hc' : Counts E g k₁ roll := by
    refine ⟨(hc.processesWF.congr hkey).add hout hkey₁,
      (hc.processesInj.congr hkey).add hkey₁ ?_, ?_, ?_, ?_, ?_, ?_, ?_, ?_⟩
    · intro x hx
      rw [hkey x hx]
      exact hc.processesWF.find_none hnone hx
    · intro x hx
      rw [hprocess] at hx
      split_ifs at hx with hxp
      · exact hxp ▸ nextPtr_lt hbrk
      · exact (hc.freshProcess x hx).trans_le (brk_le hbrk _)
    · exact fun x hx => (hc.freshThread x hx).trans_le (brk_le hbrk _)
    · exact fun x hx => (hc.freshFiber x hx).trans_le (brk_le hbrk _)
    · exact fun x f hf => (hc.freshEntry x f ((hfibers x f).mp hf)).trans_le (brk_le hbrk _)
    · intro x q hq hg
      obtain hq | ⟨hx, hact, hempty, -⟩ := hnew x q hq
      · exact (hc.record x q hq hg).congr fun _ _ r hr => ⟨r, hr, rfl, rfl⟩
      · have hroll : roll x = ∅ := by
          rw [Finset.eq_empty_iff_forall_notMem]
          intro t ht
          obtain ⟨⟨q', hq', -⟩, -⟩ := hc.enrolled x t ht
          rw [hx, hfresh] at hq'
          cases hq'
        refine ⟨hempty ▸ .empty _ _, ?_, ?_, ?_⟩
        · rw [hempty]
          intro t ht
          exact absurd ht (HashTable.not_mem_empty t)
        · rw [hempty]
          intro t ht
          exact absurd ht (HashTable.not_mem_empty t)
        · rw [hact, hroll]
          rfl
    · intro x t ht
      obtain ⟨hb, hr⟩ := hc.enrolled x t ht
      exact ⟨hbelongs x hb, hr⟩
    · exact fun x y f hx hy => hc.apart x y f ((hfibers x f).mp hx) ((hfibers y f).mp hy)
  refine h.step hc' ?_ ?_ (fun u x _ hx => hbelongs x (h.inHand u x hx)) ?_ ?_
    (fun _ _ _ _ => Finset.Subset.refl _) ?_ ?_ ?_ (.plain (.findSelf p₁))
  · refine ⟨?_, fun _ _ _ => .rfl, fun _ _ _ _ _ => .rfl, fun x t _ _ _ _ => hthreads x t,
      fun x f _ => (hfibers x f).mpr, fun x f hf => .inl ((hfibers x f).mp hf), fun _ _ _ _ => rfl⟩
    rintro x ⟨q, hq, -⟩ hx
    obtain rfl | hx := HashTable.mem_add.mp hx
    · rw [hfresh] at hq
      cases hq
    · exact hx
  · rintro x ⟨⟩
    exact hself
  · rintro x ⟨q, hq, hg⟩
    obtain hq | ⟨rfl, -⟩ := hnew x q hq
    · by_cases hin : x ∈ s.st.processes
      · exact .inl (HashTable.mem_add.mpr (.inr hin))
      · refine .inr (.inr ⟨⟨q, hq, hg⟩, hin, ?_⟩)
        rw [hpc]
        rintro ⟨⟩
    · exact .inl (HashTable.mem_add.mpr (.inl rfl))
  · rintro x ⟨⟩
  · intro x y hy hkey'
    obtain hin | hl := h.owner x y v ((hthreads x y).mp hy) hkey'
    · exact .inl hin
    · rw [hpc] at hl
      cases hl
  · rintro x ⟨⟩
  · rintro id - ⟨x, t, f, hm, hf, hfid⟩
    exact ⟨x, t, f, ⟨hm.thread, hm.counted, (hthreads x t).mpr hm.listed⟩, (hfibers x f).mpr hf,
      hfid⟩

end Life

end AosvFibers
