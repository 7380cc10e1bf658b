import AosvFibers.Interleaved.Guard

/-!
# The statements of a conversion among switching threads

Thread `A` of a process makes its first `do_ConvertThreadToFiber` while converted
threads of the process switch, statement by statement in any order. `init_fiber`
puts the new fiber into the table unlocked and attached to nobody; `A` attaches it
and takes its lock only several statements later.

`Converting` says where `A` is and what holds of its two new records there, and
`ConvInv` adds what `Guard` says about the others. One lemma for each kind of
statement of `A`, and one for the steps of the others (`ConvInv.other`), says that
`ConvInv` is kept, as long as nobody else tries the lock of a fiber `A` has not
locked yet.
-/

namespace AosvFibers

open Lib Stmt

/-! ## Where the converting thread is -/

/-- A statement of a conversion between the insertion of its fiber and its trylock. -/
def Stmt.builds (gp f : Ptr) : Stmt → Prop
  | .fiber x a => x = f ∧ a ≠ .unlock ∧ ∀ o, a.attaches o = o ∨ a = .attach (some gp)
  | .select t x => t = gp ∧ x = f
  | _ => False

variable {E : Env} {C : Crew} {id u : PidT} {k k' : Kernel} {gp f : Ptr} {s : Conf} {pc pc' : Pc}
  {own site : Option Ptr} {ss : List Stmt} {P : PidT → List Stmt}

/-- The thread record of the maker, which is none of the crew's. -/
structure OwnThread (C : Crew) (k : Kernel) (gp : Ptr) (sel : Option Ptr) : Prop where
  thread : k.thread gp = some ⟨C.maker, C.ep, sel⟩
  not_reg : ∀ u, C.reg u ≠ some gp

/-- A fiber record attached to `att`, its lock being `lock`. -/
structure FiberIs (k : Kernel) (f : Ptr) (att : Option Ptr) (lock : Bool) : Prop where
  attachment : Stmt.attachment k f = some att
  locked : k.locked f = lock

/-- The next fiber of the process gets this id. -/
def Kernel.nextIdIs (k : Kernel) (ep : Ptr) (id : PidT) : Prop :=
  ∀ p, k.process ep = some p → p.nextId = id

/-- The places of the converting thread, with its thread record once that is in the
    table, the fiber it works on while it is unlocked in the table, and, once the
    fiber is locked, a statement that reserves it. -/
inductive Converting (E : Env) (C : Crew) (id : PidT) (k : Kernel) :
    Pc → Option Ptr → Option Ptr → List Stmt → Prop
  | findOrCreate (hid : k.nextIdIs C.ep id) : Converting E C id k .findOrCreate none none []
  | findSelf (hid : k.nextIdIs C.ep id) : Converting E C id k (.findSelf C.ep) none none []
  | newThread (hid : k.nextIdIs C.ep id) : Converting E C id k (.newThread C.ep) none none []
  | counting (gp : Ptr) (hid : k.nextIdIs C.ep id) (hown : OwnThread C k gp none) :
      Converting E C id k (.run [incActive C.ep, addThread C.ep gp] (.newFiber C.ep (.convert gp)))
        none none []
  | adding (gp : Ptr) (hid : k.nextIdIs C.ep id) (hown : OwnThread C k gp none) :
      Converting E C id k (.run [addThread C.ep gp] (.newFiber C.ep (.convert gp))) none none []
  | added (gp : Ptr) (hid : k.nextIdIs C.ep id) (hown : OwnThread C k gp none) :
      Converting E C id k (.run [] (.newFiber C.ep (.convert gp))) (some gp) none []
  | newFiber (gp : Ptr) (hid : k.nextIdIs C.ep id) (hown : OwnThread C k gp none) :
      Converting E C id k (.newFiber C.ep (.convert gp)) (some gp) none []
  | takeId (gp f : Ptr) (hid : k.nextIdIs C.ep id) (hown : OwnThread C k gp none)
      (hoff : ¬ k.onTable C.ep f) (hf : FiberIs k f none false) :
      Converting E C id k (.takeId C.ep f (.convert gp)) (some gp) none []
  | inserting (gp f : Ptr) (hown : OwnThread C k gp none) (hoff : ¬ k.onTable C.ep f)
      (hf : FiberIs k f none false) (hkey : k.fiberKey f = some id) :
      Converting E C id k (.run (initFiberTail C.ep f ++ convertTail gp f) (.lockNew gp f))
        (some gp) none []
  | building (gp f : Ptr) (ss : List Stmt) (att sel : Option Ptr) (hown : OwnThread C k gp sel)
      (hf : FiberIs k f att false) (hfound : k.leadsTo E C.ep id f) (hss : ∀ st ∈ ss, st.builds gp f)
      (hatt : Stmt.fiber f (.attach (some gp)) ∈ ss ∨ att = some gp)
      (hsel : Stmt.select gp f ∈ ss ∧ sel = none ∨ sel = some f) :
      Converting E C id k (.run ss (.lockNew gp f)) (some gp) (some f) []
  | lockNew (gp f : Ptr) (hown : OwnThread C k gp (some f)) (hf : FiberIs k f (some gp) false)
      (hfound : k.leadsTo E C.ep id f) :
      Converting E C id k (.lockNew gp f) (some gp) (some f) []
  | locked (gp f : Ptr) (pc : Pc) (hown : OwnThread C k gp (some f))
      (hf : FiberIs k f (some gp) true) (hfound : k.leadsTo E C.ep id f)
      (hpc : pc = .readId .convert f ∨ pc = .ret .convert id.toInt ∨ pc = .user) :
      Converting E C id k pc (some gp) none [.loadFx f]

/-- `Converting` speaks about the process record, the thread's own record and its
    fiber. -/
theorem Converting.stable (h : Converting E C id k pc own site ss) (hp : k'.process = k.process)
    (hthread : ∀ t, (∀ v, C.reg v ≠ some t) → k'.thread t = k.thread t)
    (hkey : ∀ x, k'.fiberKey x = k.fiberKey x)
    (hfiber : ∀ x, (¬ k.onTable C.ep x ∨ site = some x ∨ mentions ss x) →
      attachment k' x = attachment k x ∧ k'.locked x = k.locked x) :
    Converting E C id k' pc own site ss := by
  have hid : k.nextIdIs C.ep id → k'.nextIdIs C.ep id := by
    intro h p hp'
    exact h p (by rw [← hp, hp'])
  have hown : ∀ gp sel, OwnThread C k gp sel → OwnThread C k' gp sel := by
    intro gp sel h
    exact ⟨(hthread gp h.not_reg).trans h.thread, h.not_reg⟩
  have hoff : ∀ f, ¬ k.onTable C.ep f → ¬ k'.onTable C.ep f := by
    intro f h
    rwa [Kernel.onTable, hp]
  have hf : ∀ f att lock, FiberIs k f att lock →
      (¬ k.onTable C.ep f ∨ site = some f ∨ mentions ss f) → FiberIs k' f att lock := by
    intro f att lock h hx
    obtain ⟨h1, h2⟩ := hfiber f hx
    exact ⟨h1.trans h.attachment, h2.trans h.locked⟩
  cases h with
  | findOrCreate h1 => exact .findOrCreate (hid h1)
  | findSelf h1 => exact .findSelf (hid h1)
  | newThread h1 => exact .newThread (hid h1)
  | counting gp h1 h2 => exact .counting gp (hid h1) (hown _ _ h2)
  | adding gp h1 h2 => exact .adding gp (hid h1) (hown _ _ h2)
  | added gp h1 h2 => exact .added gp (hid h1) (hown _ _ h2)
  | newFiber gp h1 h2 => exact .newFiber gp (hid h1) (hown _ _ h2)
  | takeId gp f h1 h2 h3 h4 =>
    exact .takeId gp f (hid h1) (hown _ _ h2) (hoff f h3) (hf _ _ _ h4 (.inl h3))
  | inserting gp f h1 h2 h3 h4 =>
    exact .inserting gp f (hown _ _ h1) (hoff f h2) (hf _ _ _ h3 (.inl h2)) ((hkey f).trans h4)
  | building gp f ss att sel h1 h2 h3 h4 h5 h6 =>
    exact .building gp f ss att sel (hown _ _ h1) (hf _ _ _ h2 (.inr (.inl rfl)))
      (h3.congr hp hkey) h4 h5 h6
  | lockNew gp f h1 h2 h3 =>
    exact .lockNew gp f (hown _ _ h1) (hf _ _ _ h2 (.inr (.inl rfl))) (h3.congr hp hkey)
  | locked gp f pc h1 h2 h3 h4 =>
    refine .locked gp f pc (hown _ _ h1) (hf _ _ _ h2 (.inr (.inr ?_))) (h3.congr hp hkey) h4
    simp [mentions_cons, mention]

/-! ## The invariant -/

/-- The invariant of unhindered steps. -/
structure ConvInv (E : Env) (C : Crew) (id : PidT) (s : Conf) (P : PidT → List Stmt)
    (own site : Option Ptr) : Prop where
  guard : Guard E C s P site
  phase : Converting E C id s.st (s.pc C.maker) own site (P C.maker)
  members : ∀ p, s.st.process C.ep = some p →
    ∀ t ∈ p.threads, (∃ u, C.reg u = some t) ∨ own = some t
  linked : ∀ t, own = some t → ∃ p, s.st.process C.ep = some p ∧ t ∈ p.threads
  freshThread : ∀ x, (s.st.thread x).isSome → x.serial < s.st.brk x.tgid
  freshFiber : ∀ x, (s.st.fiber x).isSome → x.serial < s.st.brk x.tgid

namespace ConvInv

/-- A step of another thread. -/
theorem other {act : Act} {s' : Conf} (h : ConvInv E C id s P own site) (hu : u ≠ C.maker)
    (hsite : ∀ f, site = some f → (s.pc u).trying ≠ some f)
    (hstep : CStep E C.tgid s (u, act) s')
    (hstart : ∀ c, act = .start c → (C.reg u).isSome ∧ ∃ id, c = .switchTo id) :
    ∃ P', ConvInv E C id s' P' own site := by
  obtain ⟨t, k', pc', ss, rfl, hguard, hd, hreg⟩ := h.guard.other hu hsite hstep hstart
  obtain ⟨-, hproc, hbrk, hthread, hkey, hfiber, -⟩ := h.guard.did_frame hu hreg hd
  refine ⟨_, hguard, ?_, ?_, ?_, ?_, ?_⟩
  · simp only [Conf.goto_st, Conf.goto_pc, if_neg hu.symm, Function.update_of_ne hu.symm]
    refine h.phase.stable hproc (fun t' ht' => hthread t' (ht' u)) hkey ?_
    intro x hx
    refine hfiber x ?_ ?_
    · intro hm
      rcases hx with hx | hx | hx
      · exact hx (h.guard.table u x hm)
      · exact absurd (h.guard.locked u x hm) (by simp [h.guard.site x hx])
      · exact hu (h.guard.excl u C.maker x hm hx)
    · intro htry
      rcases hx with hx | hx | hx
      · exact absurd (h.guard.trying_onTable hu htry) hx
      · exact absurd htry (hsite x hx)
      · exact h.guard.locked C.maker x hx
  · intro p hp
    exact h.members p (by rw [← hproc]; exact hp)
  · intro t' ht'
    obtain ⟨p, hp, hmem⟩ := h.linked t' ht'
    exact ⟨p, by rw [Conf.goto_st, hproc, hp], hmem⟩
  · intro x hx
    rw [Conf.goto_st, hbrk]
    refine h.freshThread x ?_
    by_cases hxr : C.reg u = some x
    · have hkeyx := h.guard.key u x hxr
      cases hth : s.st.thread x with
      | some r => rfl
      | none => simp [Kernel.threadKey, hth] at hkeyx
    · rwa [← hthread x hxr]
  · intro x hx
    rw [Conf.goto_st, hbrk]
    exact h.freshFiber x (isSome_of_key (hkey x) hx)

/-- A statement of the converting thread that leaves the fibers on the table alone,
    but for the one it works on. -/
theorem make {own' site' : Option Ptr} (h : ConvInv E C id s P own site)
    (hguard : Guard E C (s.goto C.maker k' pc') P site')
    (hphase : Converting E C id k' pc' own' site' (P C.maker))
    (hmem : ∀ p', k'.process C.ep = some p' → ∃ p, s.st.process C.ep = some p ∧
      ∀ t ∈ p'.threads, t ∈ p.threads ∨ own' = some t)
    (hown : ∀ t, own = some t → own' = some t)
    (hlinked : ∀ t, own' = some t → ∃ p, k'.process C.ep = some p ∧ t ∈ p.threads)
    (hbrk : ∀ g, s.st.brk g ≤ k'.brk g)
    (hthread : ∀ x, (k'.thread x).isSome → (s.st.thread x).isSome ∨ x.serial < k'.brk x.tgid)
    (hfiber : ∀ x, (k'.fiber x).isSome → (s.st.fiber x).isSome ∨ x.serial < k'.brk x.tgid) :
    ConvInv E C id (s.goto C.maker k' pc') P own' site' := by
  refine ⟨hguard, by simpa using hphase, ?_, hlinked, ?_, ?_⟩
  · intro p' hp' t ht
    obtain ⟨p, hp, hsub⟩ := hmem p' hp'
    rcases hsub t ht with ht | ht
    · exact (h.members p hp t ht).imp_right (hown t)
    · exact .inr ht
  · intro x hx
    rcases hthread x hx with hx | hx
    · exact Nat.lt_of_lt_of_le (h.freshThread x hx) (hbrk x.tgid)
    · exact hx
  · intro x hx
    rcases hfiber x hx with hx | hx
    · exact Nat.lt_of_lt_of_le (h.freshFiber x hx) (hbrk x.tgid)
    · exact hx

/-- A statement of the converting thread that changes no record. -/
theorem moveOn (h : ConvInv E C id s P own site)
    (hphase : Converting E C id s.st pc' own site (P C.maker)) :
    ConvInv E C id (s.goto C.maker s.st pc') P own site := by
  refine h.make (h.guard.idle rfl rfl rfl rfl (fun _ hm => absurd rfl hm) fun hm => absurd rfl hm)
    hphase ?_ (fun _ ht => ht) h.linked (fun _ => le_rfl) (fun _ hx => .inl hx) fun _ hx => .inl hx
  intro p hp
  exact ⟨p, hp, fun t ht => .inl ht⟩

/-- The thread is not in the table as long as it has not put itself there. -/
theorem threadOf_none {p : Process} (h : ConvInv E C id s P none site) (hA : C.reg C.maker = none)
    (hp : s.st.process C.ep = some p) : s.st.threadOf E p C.maker = some none := by
  obtain ⟨p', hp', hwf, -⟩ := h.guard.record
  obtain rfl : p = p' := Option.some.inj (hp.symm.trans hp')
  refine hwf.find_of_not_mem ?_
  intro t ht hkey
  obtain ⟨v, hv⟩ | hn := h.members p hp t ht
  · have hkeyv := h.guard.key v t hv
    obtain rfl : C.maker = v := Option.some.inj (hkey.symm.trans hkeyv)
    rw [hA] at hv
    cases hv
  · cases hn

end ConvInv

/-! ## Statements on the new records -/

namespace ConvInv

/-- The thread record is made. -/
theorem newThread (h : ConvInv E C id s P none none) (hP : P C.maker = [])
    (hid : s.st.nextIdIs C.ep id)
    (hrun : allocThread ⟨C.tgid, C.maker⟩ C.ep C.maker s.st = some (gp, k')) :
    ConvInv E C id (s.goto C.maker k' (.run [incActive C.ep, addThread C.ep gp]
      (.newFiber C.ep (.convert gp)))) P none none := by
  obtain ⟨hgp, hk'⟩ := allocThread_eq_some hrun
  have hnone : s.st.thread gp = none := by
    by_contra hne
    have hlt := h.freshThread gp (Option.isSome_iff_ne_none.mpr hne)
    rw [hgp] at hlt
    exact Nat.lt_irrefl _ hlt
  have hold : ∀ x, (s.st.threadKey x).isSome → x ≠ gp := by
    intro x hx he
    rw [he, Kernel.threadKey, hnone] at hx
    cases hx
  have hreg : ∀ v t, C.reg v = some t → t ≠ gp := by
    intro v t hv
    exact hold t (by rw [h.guard.key v t hv]; rfl)
  have hthread : ∀ x, x ≠ gp → k'.thread x = s.st.thread x := by
    intro x hx
    rw [hk']
    exact Function.update_of_ne hx _ _
  obtain ⟨p, hp, hwf, hinj, hfwf, hmem⟩ := h.guard.record
  have hkey : ∀ x ∈ p.threads, k'.threadKey x = s.st.threadKey x := by
    intro x hx
    rw [Kernel.threadKey, Kernel.threadKey, hthread x (hold x (hwf.key_isSome hx))]
  have hguard : Guard E C (s.goto C.maker k' (.run [incActive C.ep, addThread C.ep gp]
      (.newFiber C.ep (.convert gp)))) P none := by
    refine h.guard.make ?_ ⟨p, ?_, hwf.congr hkey, hinj.congr hkey, ?_, hmem⟩ ?_ ?_ ?_ ?_ ?_
    · rw [hk']
      exact h.guard.processOf
    · rw [hk']
      exact hp
    · rw [hk']
      exact hfwf
    · intro v t hv
      exact hthread t (hreg v t hv)
    · intro x hx
      rw [hk']
      exact hx
    · intro x _ _
      rw [hk']
      exact ⟨rfl, rfl⟩
    · intro x hx hs hl
      rw [hk'] at hx hl ⊢
      exact h.guard.free x hx hs hl
    · intro x hx
      cases hx
  refine h.make hguard ?_ ?_ (fun _ ht => ht) (fun _ ht => by cases ht) ?_ ?_ ?_
  · rw [hP]
    refine .counting gp ?_ ⟨?_, fun v hv => hreg v gp hv rfl⟩
    · rw [hk']
      exact hid
    · rw [hk']
      exact Function.update_self _ _ _
  · intro p' hp'
    rw [hk'] at hp'
    exact ⟨p', hp', fun t ht => .inl ht⟩
  · intro g
    rw [hk']
    by_cases hg : g = C.tgid
    · subst hg
      simp
    · simp [hg]
  · intro x hx
    by_cases hxg : x = gp
    · right
      rw [hxg, hgp, hk']
      simp [Kernel.nextPtr]
    · left
      rwa [← hthread x hxg]
  · intro x hx
    left
    rw [hk'] at hx
    exact hx

/-- A change of the process record that keeps its key and takes nothing off its
    tables. -/
theorem changeProcess {p : Process} {φ : Process → Process} {own' site' : Option Ptr}
    (h : ConvInv E C id s P own none) (hp : s.st.process C.ep = some p)
    (hk' : k' = s.st.modProcess C.ep φ) (hφ : ∀ r, (φ r).processId = r.processId)
    (hthreads : (φ p).threads.WF E.hash s.st.threadKey ∧ (φ p).threads.InjKeys s.st.threadKey)
    (hfibers : (φ p).fibers.WF E.hash s.st.fiberKey)
    (hkeep : (∀ t ∈ p.threads, t ∈ (φ p).threads) ∧ ∀ x ∈ p.fibers, x ∈ (φ p).fibers)
    (hnewThread : ∀ t ∈ (φ p).threads, t ∈ p.threads ∨ own' = some t)
    (hnewFiber : ∀ x ∈ (φ p).fibers, x ∈ p.fibers ∨ site' = some x)
    (hown : ∀ t, own = some t → own' = some t) (hlinked : ∀ t, own' = some t → t ∈ (φ p).threads)
    (hsite : ∀ x, site' = some x → s.st.locked x = false)
    (hphase : Converting E C id k' pc' own' site' (P C.maker)) :
    ConvInv E C id (s.goto C.maker k' pc') P own' site' := by
  have hp' : k'.process C.ep = some (φ p) := by
    rw [hk']
    simp [hp]
  have hguard : Guard E C (s.goto C.maker k' pc') P site' :=
    h.guard.changeProcess hp hk' hφ hthreads hfibers hkeep
      (fun x hx => (hnewFiber x hx).imp_right .inl) hsite
  refine h.make hguard hphase ?_ hown ?_ ?_ ?_ ?_
  · intro q hq
    obtain rfl : φ p = q := Option.some.inj (hp'.symm.trans hq)
    exact ⟨p, hp, hnewThread⟩
  · intro t ht
    exact ⟨φ p, hp', hlinked t ht⟩
  · intro g
    rw [hk']
    rfl
  · intro x hx
    left
    rw [hk'] at hx
    exact hx
  · intro x hx
    left
    rw [hk'] at hx
    exact hx

/-- The thread is counted. -/
theorem incActive (h : ConvInv E C id s P none none) (hP : P C.maker = [])
    (hid : s.st.nextIdIs C.ep id) (hown : OwnThread C s.st gp none)
    (hk' : k' = (Stmt.incActive C.ep).apply E ⟨C.tgid, C.maker⟩ s.st) :
    ConvInv E C id (s.goto C.maker k' (.run [addThread C.ep gp] (.newFiber C.ep (.convert gp)))) P
      none none := by
  obtain ⟨p, hp, hwf, hinj, hfwf, -⟩ := h.guard.record
  refine h.changeProcess hp hk' (fun _ => rfl) ⟨hwf, hinj⟩ hfwf ⟨fun _ ht => ht, fun _ hx => hx⟩
    (fun _ ht => .inl ht) (fun _ hx => .inl hx) (fun _ ht => ht) (fun _ ht => by cases ht)
    (fun _ hx => by cases hx) ?_
  rw [hP]
  refine .adding gp ?_ ⟨?_, hown.not_reg⟩
  · intro q hq
    rw [hk'] at hq
    obtain rfl : _ = q := by simpa [Stmt.apply, hp] using hq
    exact hid p hp
  · rw [hk']
    exact hown.thread

/-- The thread is put into the table. -/
theorem addThread (h : ConvInv E C id s P none none) (hA : C.reg C.maker = none)
    (hP : P C.maker = []) (hid : s.st.nextIdIs C.ep id) (hown : OwnThread C s.st gp none)
    (hk' : k' = (Stmt.addThread C.ep gp).apply E ⟨C.tgid, C.maker⟩ s.st) :
    ConvInv E C id (s.goto C.maker k' (.run [] (.newFiber C.ep (.convert gp)))) P (some gp) none := by
  obtain ⟨p, hp, hwf, hinj, hfwf, -⟩ := h.guard.record
  have hkey : s.st.threadKey gp = some C.maker := by
    rw [Kernel.threadKey, hown.thread]
    rfl
  have hnew : ∀ t ∈ p.threads, s.st.threadKey t ≠ some C.maker := by
    intro t ht
    exact hwf.find_none (h.threadOf_none hA hp) ht
  have hnot : gp ∉ p.threads := fun hm => hnew gp hm hkey
  have hk' : k' = s.st.modProcess C.ep fun q =>
      { q with threads := q.threads.add (E.hash C.maker) gp } := by
    rw [hk']
    simp [Stmt.apply, hown.thread]
  refine h.changeProcess hp hk' (fun _ => rfl) ⟨hwf.add hnot hkey, hinj.add hkey hnew⟩ hfwf
    ⟨fun t ht => HashTable.mem_add.mpr (.inr ht), fun _ hx => hx⟩ ?_ (fun _ hx => .inl hx)
    (fun _ ht => by cases ht) ?_ (fun _ hx => by cases hx) ?_
  · intro t ht
    rcases HashTable.mem_add.mp ht with rfl | ht
    · exact .inr rfl
    · exact .inl ht
  · intro t ht
    obtain rfl : gp = t := Option.some.inj ht
    exact HashTable.mem_add.mpr (.inl rfl)
  · rw [hP]
    refine .added gp ?_ ⟨?_, hown.not_reg⟩
    · intro q hq
      rw [hk'] at hq
      obtain rfl : _ = q := by simpa [hp] using hq
      exact hid p hp
    · rw [hk']
      exact hown.thread

/-- The fiber is put into the table. -/
theorem addFiber (h : ConvInv E C id s P (some gp) none) (hP : P C.maker = [])
    (hown : OwnThread C s.st gp none) (hoff : ¬ s.st.onTable C.ep f) (hf : FiberIs s.st f none false)
    (hkey : s.st.fiberKey f = some id) (hss : ∀ st ∈ ss, st.builds gp f)
    (hatt : Stmt.fiber f (.attach (some gp)) ∈ ss) (hsel : Stmt.select gp f ∈ ss)
    (hk' : k' = (Stmt.addFiber C.ep f).apply E ⟨C.tgid, C.maker⟩ s.st) :
    ConvInv E C id (s.goto C.maker k' (.run ss (.lockNew gp f))) P (some gp) (some f) := by
  obtain ⟨p, hp, hwf, hinj, hfwf, -⟩ := h.guard.record
  obtain ⟨r, hr, hrid⟩ := Option.map_eq_some_iff.mp hkey
  have hnot : f ∉ p.fibers := fun hm => hoff ⟨p, hp, hm⟩
  have hk' : k' = s.st.modProcess C.ep fun q =>
      { q with fibers := q.fibers.add (E.hash id) f } := by
    rw [hk', ← hrid]
    simp [Stmt.apply, hr]
  refine h.changeProcess hp hk' (fun _ => rfl) ⟨hwf, hinj⟩ (hfwf.add hnot hkey)
    ⟨fun _ ht => ht, fun x hx => HashTable.mem_add.mpr (.inr hx)⟩ (fun _ ht => .inl ht) ?_
    (fun _ ht => ht) ?_ ?_ ?_
  · intro x hx
    rcases HashTable.mem_add.mp hx with rfl | hx
    · exact .inr rfl
    · exact .inl hx
  · intro t ht
    obtain ⟨q, hq, htq⟩ := h.linked t ht
    obtain rfl : p = q := Option.some.inj (hp.symm.trans hq)
    exact htq
  · intro x hx
    obtain rfl : f = x := Option.some.inj hx
    exact hf.locked
  · rw [hP]
    refine .building gp f ss none none ⟨?_, hown.not_reg⟩ ⟨?_, ?_⟩ ?_ hss (.inl hatt) (.inl ⟨hsel, rfl⟩)
    · rw [hk']
      exact hown.thread
    · rw [hk']
      exact hf.attachment
    · rw [hk']
      exact hf.locked
    · refine ⟨{ p with fibers := p.fibers.add (E.hash id) f }, by rw [hk']; simp [hp], ?_⟩
      rw [hk']
      exact HashTable.find_add_self hkey

/-- A change of the thread's own record and of fibers that are not on the table or
    are the one worked on. -/
theorem changeFiber (h : ConvInv E C id s P own site) (hps : k'.processes = s.st.processes)
    (hproc : k'.process = s.st.process) (htk : k'.threadKey = s.st.threadKey)
    (hthread : ∀ v t, C.reg v = some t → k'.thread t = s.st.thread t) (hbrk : ∀ g, s.st.brk g ≤ k'.brk g)
    (hfiber : ∀ x, s.st.onTable C.ep x → site ≠ some x → k'.fiber x = s.st.fiber x)
    (hkey : ∀ x, site = some x → k'.fiberKey x = s.st.fiberKey x)
    (hsite : ∀ x, site = some x → k'.locked x = false)
    (hfresh : ∀ x, (k'.fiber x).isSome → (s.st.fiber x).isSome ∨ x.serial < k'.brk x.tgid)
    (hphase : Converting E C id k' pc' own site (P C.maker)) :
    ConvInv E C id (s.goto C.maker k' pc') P own site := by
  have hguard : Guard E C (s.goto C.maker k' pc') P site := by
    refine h.guard.changeRecords hps hproc htk hthread ?_ ?_ hsite
    · intro x hx
      by_cases hs : site = some x
      · exact hkey x hs
      · rw [Kernel.fiberKey, Kernel.fiberKey, hfiber x hx hs]
    · intro x hx hs
      simp [attachment, Kernel.locked, hfiber x hx hs]
  refine h.make hguard hphase ?_ (fun _ ht => ht) ?_ hbrk ?_ hfresh
  · intro q hq
    exact ⟨q, by rw [← hproc, hq], fun t ht => .inl ht⟩
  · intro t ht
    obtain ⟨q, hq, htq⟩ := h.linked t ht
    exact ⟨q, by rw [hproc, hq], htq⟩
  · intro x hx
    left
    have hkeyx := congrFun htk x
    cases hth : s.st.thread x with
    | some r => rfl
    | none =>
      rw [Kernel.threadKey, Kernel.threadKey, hth, Option.map_none, Option.map_eq_none_iff] at hkeyx
      rw [hkeyx] at hx
      cases hx

/-- The fiber record is made. -/
theorem newFiber {n : ℤ} {sPtr : Word} (h : ConvInv E C id s P (some gp) none) (hP : P C.maker = [])
    (hid : s.st.nextIdIs C.ep id) (hown : OwnThread C s.st gp none)
    (hrun : allocFiber E ⟨C.tgid, C.maker⟩ C.ep n sPtr s.st = some (f, k')) :
    ConvInv E C id (s.goto C.maker k' (.takeId C.ep f (.convert gp))) P (some gp) none := by
  obtain ⟨hf, hk'⟩ := allocFiber_eq_some hrun
  have hnone : s.st.fiber f = none := by
    by_contra hne
    have hlt := h.freshFiber f (Option.isSome_iff_ne_none.mpr hne)
    rw [hf] at hlt
    exact Nat.lt_irrefl _ hlt
  have hoff : ¬ s.st.onTable C.ep f := by
    intro hon
    obtain ⟨r, hr⟩ := h.guard.fiber_exists hon
    rw [hnone] at hr
    cases hr
  have hnew : k'.fiber f =
      some (AosvFibers.freshFiber E f (s.st.cpu ⟨C.tgid, C.maker⟩) C.ep n sPtr) := by
    rw [hk']
    exact Function.update_self _ _ _
  have hother : ∀ x, x ≠ f → k'.fiber x = s.st.fiber x := by
    intro x hx
    rw [hk']
    exact Function.update_of_ne hx _ _
  refine h.changeFiber ?_ ?_ ?_ ?_ ?_ ?_ (fun _ hx => by cases hx) (fun _ hx => by cases hx) ?_ ?_
  · rw [hk']
  · rw [hk']
  · rw [hk']
    rfl
  · intro v t _
    rw [hk']
  · intro g
    rw [hk']
    by_cases hg : g = C.tgid
    · subst hg
      simp
    · simp [hg]
  · intro x hx _
    exact hother x fun he => hoff (he ▸ hx)
  · intro x hx
    by_cases hxf : x = f
    · right
      rw [hxf, hf, hk']
      simp [Kernel.nextPtr]
    · left
      rwa [← hother x hxf]
  · rw [hP]
    refine .takeId gp f ?_ ⟨?_, hown.not_reg⟩ ?_ ⟨?_, ?_⟩
    · rw [hk']
      exact hid
    · rw [hk']
      exact hown.thread
    · rw [hk']
      exact hoff
    · rw [attachment, hnew]
      rfl
    · rw [Kernel.locked, hnew]
      rfl

/-- The fiber gets its id. -/
theorem takeId (h : ConvInv E C id s P (some gp) none) (hP : P C.maker = [])
    (hid : s.st.nextIdIs C.ep id) (hown : OwnThread C s.st gp none) (hoff : ¬ s.st.onTable C.ep f)
    (hf : FiberIs s.st f none false) (hrun : takeFiberId C.ep f s.st = some ((), k')) :
    ConvInv E C id (s.goto C.maker k' (.run (initFiberTail C.ep f ++ convertTail gp f)
      (.lockNew gp f))) P (some gp) none := by
  obtain ⟨p, hp, hwf, hinj, hfwf, -⟩ := h.guard.record
  obtain ⟨r, hr, hratt⟩ := Option.map_eq_some_iff.mp hf.attachment
  have hr' : r.fiberLock = false := by simpa [Kernel.locked, hr] using hf.locked
  -- the id is written into the record before the counter moves on
  have hwrite : ConvInv E C id (s.goto C.maker (s.st.modFiber f fun r => { r with fiberId := id })
      (.takeId C.ep f (.convert gp))) P (some gp) none := by
    refine h.changeFiber rfl rfl rfl (fun _ _ _ => rfl) (fun _ => le_rfl) ?_ (fun _ hx => by cases hx)
      (fun _ hx => by cases hx) ?_ ?_
    · intro x hx _
      have hxf : x ≠ f := fun he => hoff (he ▸ hx)
      simp [hxf]
    · intro x hx
      left
      by_cases hxf : x = f
      · rw [hxf, hr]
        rfl
      · simpa [hxf] using hx
    · rw [hP]
      refine .takeId gp f hid ⟨hown.thread, hown.not_reg⟩ hoff ⟨?_, ?_⟩
      · simp [attachment, hr, hratt]
      · simp [Kernel.locked, hr, hr']
  have hk' : k' = (s.st.modFiber f fun r => { r with fiberId := id }).modProcess C.ep
      fun r => { r with lastFiberId := r.lastFiberId + 1 } := by
    rw [takeFiberId_eq_some hp hrun, hid p hp]
    rfl
  have hfk : ∀ x ∈ p.fibers,
      (s.st.modFiber f fun r => { r with fiberId := id }).fiberKey x = s.st.fiberKey x := by
    intro x hx
    have hxf : x ≠ f := fun he => hoff (he ▸ ⟨p, hp, hx⟩)
    simp [Kernel.fiberKey, hxf]
  rw [← s.goto_goto C.maker (s.st.modFiber f fun r => { r with fiberId := id }) k'
    (.takeId C.ep f (.convert gp))]
  refine hwrite.changeProcess hp hk' (fun _ => rfl) ⟨hwf, hinj⟩ (hfwf.congr hfk)
    ⟨fun _ ht => ht, fun _ hx => hx⟩ (fun _ ht => .inl ht) (fun _ hx => .inl hx) (fun _ ht => ht) ?_
    (fun _ hx => by cases hx) ?_
  · intro t ht
    obtain ⟨q, hq, htq⟩ := h.linked t ht
    obtain rfl : p = q := Option.some.inj (hp.symm.trans hq)
    exact htq
  · rw [hP]
    refine .inserting gp f ⟨?_, hown.not_reg⟩ ?_ ⟨?_, ?_⟩ ?_
    · rw [hk']
      exact hown.thread
    · rintro ⟨q, hq, hfq⟩
      rw [hk'] at hq
      obtain rfl : _ = q := by simpa [hp] using hq
      exact hoff ⟨p, hp, hfq⟩
    · rw [hk']
      simp [attachment, hr, hratt]
    · rw [hk']
      simp [Kernel.locked, hr, hr']
    · rw [hk']
      simp [Kernel.fiberKey, hr]

/-- A write to the new fiber before it is locked. -/
theorem buildFiber {a : Assign} {att sel : Option Ptr} (h : ConvInv E C id s P (some gp) (some f))
    (hP : P C.maker = []) (hown : OwnThread C s.st gp sel) (hf : FiberIs s.st f att false)
    (hfound : s.st.leadsTo E C.ep id f) (ha : (Stmt.fiber f a).builds gp f)
    (hss : ∀ st ∈ ss, st.builds gp f)
    (hatt : Stmt.fiber f (.attach (some gp)) ∈ Stmt.fiber f a :: ss ∨ att = some gp)
    (hsel : Stmt.select gp f ∈ ss ∧ sel = none ∨ sel = some f)
    (hk' : k' = (Stmt.fiber f a).apply E ⟨C.tgid, C.maker⟩ s.st) :
    ConvInv E C id (s.goto C.maker k' (.run ss (.lockNew gp f))) P (some gp) (some f) := by
  obtain ⟨-, hlock, hattach⟩ := ha
  obtain ⟨r, hr, hratt⟩ := Option.map_eq_some_iff.mp hf.attachment
  have hr' : r.fiberLock = false := by simpa [Kernel.locked, hr] using hf.locked
  have hnew : k'.fiber f = some (a.run ⟨C.tgid, C.maker⟩ (s.st.cpu ⟨C.tgid, C.maker⟩) r) := by
    rw [hk']
    simp [Stmt.apply, hr]
  have hkey : ∀ y, k'.fiberKey y = s.st.fiberKey y := by
    intro y
    by_cases hy : y = f
    · rw [hy, Kernel.fiberKey, Kernel.fiberKey, hnew, hr, Option.map_some, a.run_fiberId]
      rfl
    · rw [hk']
      simp [Kernel.fiberKey, Stmt.apply, hy]
  have hlocked : k'.locked f = false := by
    rw [Kernel.locked, hnew, Option.any_some, Assign.run_fiberLock hlock]
    exact hr'
  have hproc : k'.process = s.st.process := by
    rw [hk']
    rfl
  have hthread : k'.thread = s.st.thread := by
    rw [hk']
    rfl
  refine h.changeFiber ?_ hproc ?_ ?_ ?_ ?_ (fun y _ => hkey y) ?_ ?_ ?_
  · rw [hk']
    rfl
  · funext y
    rw [Kernel.threadKey, Kernel.threadKey, hthread]
  · intro v t _
    rw [hthread]
  · intro g
    rw [hk']
    rfl
  · intro y _ hy
    have hyf : y ≠ f := fun he => hy (by rw [he])
    rw [hk']
    simp [Stmt.apply, hyf]
  · intro y hy
    obtain rfl : f = y := Option.some.inj hy
    exact hlocked
  · intro y hy
    left
    exact isSome_of_key (hkey y) hy
  · rw [hP]
    refine .building gp f ss (a.attaches att) sel ⟨?_, hown.not_reg⟩ ⟨?_, hlocked⟩
      (hfound.congr hproc hkey) hss ?_ hsel
    · rw [hthread]
      exact hown.thread
    · rw [attachment, hnew, Option.map_some, a.run_attachedThread, hratt]
    · rcases hattach att with hsame | rfl
      · rcases hatt with hm | hm
        · rcases List.mem_cons.mp hm with he | hm
          · right
            obtain rfl : .attach (some gp) = a := by simpa using he
            rfl
          · exact .inl hm
        · exact .inr (hsame.trans hm)
      · exact .inr rfl

/-- The thread selects its new fiber. -/
theorem buildSelect {att sel : Option Ptr} (h : ConvInv E C id s P (some gp) (some f))
    (hP : P C.maker = []) (hown : OwnThread C s.st gp sel) (hf : FiberIs s.st f att false)
    (hfound : s.st.leadsTo E C.ep id f) (hss : ∀ st ∈ ss, st.builds gp f)
    (hatt : Stmt.fiber f (.attach (some gp)) ∈ ss ∨ att = some gp)
    (hk' : k' = (Stmt.select gp f).apply E ⟨C.tgid, C.maker⟩ s.st) :
    ConvInv E C id (s.goto C.maker k' (.run ss (.lockNew gp f))) P (some gp) (some f) := by
  have hfiber : k'.fiber = s.st.fiber := by
    rw [hk']
    rfl
  have hproc : k'.process = s.st.process := by
    rw [hk']
    rfl
  have hkey : ∀ y, k'.fiberKey y = s.st.fiberKey y := by
    intro y
    rw [Kernel.fiberKey, Kernel.fiberKey, hfiber]
  refine h.changeFiber ?_ hproc ?_ ?_ ?_ ?_ (fun y _ => hkey y) ?_ ?_ ?_
  · rw [hk']
    rfl
  · funext y
    rw [hk']
    exact apply_threadKey rfl y
  · intro v t hv
    have htg : t ≠ gp := fun he => hown.not_reg v (by rw [hv, he])
    rw [hk']
    simp [Stmt.apply, htg]
  · intro g
    rw [hk']
    rfl
  · intro y _ _
    rw [hfiber]
  · intro y hy
    obtain rfl : f = y := Option.some.inj hy
    rw [Kernel.locked, hfiber]
    exact hf.locked
  · intro y hy
    rw [hfiber] at hy
    exact .inl hy
  · rw [hP]
    refine .building gp f ss att (some f) ⟨?_, hown.not_reg⟩ ⟨?_, ?_⟩ (hfound.congr hproc hkey) hss hatt
      (.inr rfl)
    · rw [hk']
      simp [Stmt.apply, hown.thread]
    · rw [attachment, hfiber]
      exact hf.attachment
    · rw [Kernel.locked, hfiber]
      exact hf.locked

/-- The new fiber is locked: from now on it is reserved for the thread. -/
theorem lock (h : ConvInv E C id s P (some gp) (some f)) (hA : C.reg C.maker = none)
    (hown : OwnThread C s.st gp (some f)) (hf : FiberIs s.st f (some gp) false)
    (hfound : s.st.leadsTo E C.ep id f) :
    ConvInv E C id (s.goto C.maker (s.st.withLock f) (.readId .convert f))
      (Function.update P C.maker [.loadFx f]) (some gp) none := by
  obtain ⟨p, hp, hwf, hinj, hfwf, hmem⟩ := h.guard.record
  have hon : s.st.onTable C.ep f := by
    obtain ⟨q, hq, hfind⟩ := hfound
    exact ⟨q, hq, (HashTable.find_eq_some hfind).1⟩
  obtain ⟨r, hr⟩ := h.guard.fiber_exists hon
  have hlock : (s.st.withLock f).locked f = true := by
    simp [Kernel.locked, Kernel.withLock, hr]
  have hfree : ∀ v, ¬ mentions (P v) f := by
    intro v hm
    have hl := h.guard.locked v f hm
    rw [hf.locked] at hl
    cases hl
  have hnone : ∀ v t, C.reg v = some t → s.st.selected t ≠ some f := by
    intro v t ht hs
    obtain ⟨y, hy, -, hl⟩ := h.guard.runs v t ht
    obtain rfl : y = f := Option.some.inj (hy.symm.trans hs)
    rw [hf.locked] at hl
    cases hl
  have hone : ∀ x, mentions [Stmt.loadFx f] x → f = x := by
    intro x hx
    simpa [mentions, mention] using hx
  have hkey : ∀ x, (s.st.withLock f).fiberKey x = s.st.fiberKey x := Guard.fiberKey_withLock _ _
  refine ⟨?_, ?_, h.members, h.linked, h.freshThread, ?_⟩
  · refine h.guard.of_frame h.guard.processOf ⟨p, hp, hwf, hinj, hfwf.congr fun x _ => hkey x, hmem⟩
      h.guard.key (fun _ _ _ _ => rfl) (fun _ hx => hx) ?_ (by simp [AllPrivate, isPrivate]) ?_ ?_ ?_ ?_
      ?_ (fun _ hm => absurd rfl hm) ?_ (fun _ hx => by cases hx) (fun _ hm => absurd rfl hm)
      (fun hm => absurd rfl hm)
    · intro v x _ hx
      have hxf : x ≠ f := by
        rintro rfl
        rcases hx with hx | ⟨t, ht, hx⟩
        · exact hfree v hx
        · exact hnone v t ht hx
      exact ⟨Guard.attachment_withLock _ _ _, Guard.locked_withLock_of_ne hxf⟩
    · intro v x _ hx
      rw [← hone x hx]
      exact hfree v
    · intro x hx
      rw [← hone x hx]
      exact hlock
    · intro x hx
      rw [← hone x hx]
      exact hon
    · intro t ht
      rw [hA] at ht
      cases ht
    · intro v t x _ ht hs hx
      rw [← hone x hx] at hs
      exact hnone v t ht hs
    · intro x hx _ hl
      have hxf : x ≠ f := by
        rintro rfl
        rw [hlock] at hl
        cases hl
      rw [Guard.locked_withLock_of_ne hxf] at hl
      rw [attached_eq, Guard.attachment_withLock, ← attached_eq]
      exact h.guard.free x hx (fun he => hxf (Option.some.inj he).symm) hl
  · simp only [Conf.goto_st, Conf.goto_pc, if_true, Function.update_self]
    refine .locked gp f _ ⟨hown.thread, hown.not_reg⟩ ⟨?_, hlock⟩ (hfound.congr rfl hkey) (.inl rfl)
    rw [Guard.attachment_withLock]
    exact hf.attachment
  · intro x hx
    exact h.freshFiber x (isSome_of_key (hkey x) hx)

end ConvInv

end AosvFibers
