import AosvFibers.Interleaved.Published

/-!
# Steps of the registering threads

One lemma for each kind of step: the steps that keep the keys (`Inv.quiet`), the
allocations (`Inv.newThread`, `Inv.newFiber`), the draw of a number (`Inv.takeId`), the
birth of the process record (`Inv.findOrCreate`) and the three steps of `hash_add_rcu`
(`Inv.read`, `Inv.store`, `Inv.publish`). `Inv.stmt` is the statements outside of
`hash_add_rcu`, by the place of the thread.
-/

namespace AosvFibers.Insertion

open Lib Stmt

variable {E : Env} {g u v : PidT} {k k' : Kernel} {s s' : State} {pub pub' : Slot → List Ptr}
  {held held' : PidT → Option ℕ} {spent spent' : List ℕ} {N N' lo i : ℕ} {p t f n : Ptr} {pc pc' : Pc}
  {own : Option Ptr} {σ : Slot} {m : Maker}

/-! ## Records -/

namespace Tables

theorem same (h : Tables E g k pub N) (hk : SameKeys k k') : Tables E g k' pub N := by
  constructor
  · rw [hk.processes]
    exact h.processesWF.congr fun x _ => hk.processKey_eq x
  · rw [hk.processes]
    exact h.processesInj.congr fun x _ => hk.processKey_eq x
  · intro x hx
    rw [hk.brk]
    exact h.freshProcess x (hk.process_isSome x ▸ hx)
  · intro x hx
    rw [hk.brk]
    exact h.freshThread x (hk.threadKey x ▸ hx)
  · intro x hx
    rw [hk.brk]
    exact h.freshFiber x (hk.fiberKey x ▸ hx)
  · intro p b t ht
    rw [hk.threadKey]
    exact h.threadAt p b t ht
  · intro p b f hf
    rw [hk.fiberKey]
    exact h.fiberAt p b f hf
  · intro p hp
    rw [hk.process]
    exact h.last p (hk.processOf_eq.symm.trans hp)
  · intro hn
    exact h.unborn (hk.processOf_eq.symm.trans hn)

theorem process_isSome (h : Tables E g k pub N) (hp : Home E g k p) : (k.process p).isSome := by
  have := congrArg Option.isSome (h.last p hp)
  simpa using this

/-- The next address is not the address of any record. -/
theorem nextPtr_fresh (h : Tables E g k pub N) :
    k.process (k.nextPtr g) = none ∧ k.threadKey (k.nextPtr g) = none ∧
      k.fiberKey (k.nextPtr g) = none := by
  refine ⟨?_, ?_, ?_⟩
  · by_contra hne
    exact lt_irrefl _ (h.freshProcess _ (Option.isSome_iff_ne_none.mpr hne))
  · by_contra hne
    exact lt_irrefl _ (h.freshThread _ (Option.isSome_iff_ne_none.mpr hne))
  · by_contra hne
    exact lt_irrefl _ (h.freshFiber _ (Option.isSome_iff_ne_none.mpr hne))

/-- A published node has a key. -/
theorem key_isSome (h : Tables E g k pub N) (hn : n ∈ pub σ) :
    (k.threadKey n).isSome ∨ (k.fiberKey n).isSome := by
  cases σ with
  | threads p b =>
    obtain ⟨key, hkey, -⟩ := h.threadAt p b n hn
    exact .inl (by simp [hkey])
  | fibers p b =>
    obtain ⟨key, hkey, -⟩ := h.fiberAt p b n hn
    exact .inr (by simp [hkey])

theorem nextPtr_not_mem (h : Tables E g k pub N) (σ : Slot) : k.nextPtr g ∉ pub σ := by
  intro hmem
  obtain ⟨-, hthread, hfiber⟩ := h.nextPtr_fresh
  obtain hkey | hkey := h.key_isSome hmem
  · simp [hthread] at hkey
  · simp [hfiber] at hkey

/-- A record is allocated. -/
theorem alloc (h : Tables E g k pub N) (hps : k'.processes = k.processes)
    (hp : k'.process = k.process) (hbrk : k'.brk = Function.update k.brk g (k.brk g + 1))
    (hthread : ∀ t, t ≠ k.nextPtr g → k'.threadKey t = k.threadKey t)
    (hfiber : ∀ f, f ≠ k.nextPtr g → k'.fiberKey f = k.fiberKey f) :
    Tables E g k' pub N ∧ ∀ own, Frame E g own k pub k' pub := by
  have hkey : ∀ x, k'.processKey x = k.processKey x := fun x => by
    rw [Kernel.processKey, hp, Kernel.processKey]
  have hof : k'.processOf E g = k.processOf E g := processOf_congr hps hkey
  have hle : ∀ x, k.brk x ≤ k'.brk x := by
    intro x
    rw [hbrk]
    by_cases hx : x = g
    · simp [hx]
    · simp [hx]
  have hnew : (k.nextPtr g).serial < k'.brk (k.nextPtr g).tgid := by simp [hbrk, Kernel.nextPtr]
  obtain ⟨-, hfreshT, hfreshF⟩ := h.nextPtr_fresh
  have hne : ∀ t key, k.threadKey t = some key → t ≠ k.nextPtr g := by
    rintro t key ht rfl
    simp [hfreshT] at ht
  have hne' : ∀ f key, k.fiberKey f = some key → f ≠ k.nextPtr g := by
    rintro f key hf rfl
    simp [hfreshF] at hf
  refine ⟨⟨?_, ?_, ?_, ?_, ?_, ?_, ?_, ?_, ?_⟩, fun own => ⟨?_, ?_, ?_, ?_, fun _ _ hn => hn⟩⟩
  · rw [hps]
    exact h.processesWF.congr fun x _ => hkey x
  · rw [hps]
    exact h.processesInj.congr fun x _ => hkey x
  · intro x hx
    exact (h.freshProcess x (hp ▸ hx)).trans_le (hle _)
  · intro x hx
    by_cases hxn : x = k.nextPtr g
    · exact hxn ▸ hnew
    · exact (h.freshThread x (hthread x hxn ▸ hx)).trans_le (hle _)
  · intro x hx
    by_cases hxn : x = k.nextPtr g
    · exact hxn ▸ hnew
    · exact (h.freshFiber x (hfiber x hxn ▸ hx)).trans_le (hle _)
  · intro p b t ht
    obtain ⟨key, hkey, hb⟩ := h.threadAt p b t ht
    exact ⟨key, (hthread t (hne t key hkey)).trans hkey, hb⟩
  · intro p b f hf
    obtain ⟨key, hkey, hb⟩ := h.fiberAt p b f hf
    exact ⟨key, (hfiber f (hne' f key hkey)).trans hkey, hb⟩
  · intro p hhome
    rw [hp]
    exact h.last p (hof.symm.trans hhome)
  · intro hn
    exact h.unborn (hof.symm.trans hn)
  · intro p hhome
    exact hof.trans hhome
  · intro p hsome
    rwa [hp]
  · intro t key ht
    exact (hthread t (hne t key ht)).trans ht
  · intro f key _ hf
    exact (hfiber f (hne' f key hf)).trans hf

/-- The process record of `g` is made. -/
theorem born (h : Tables E g k pub N) (hn : k.processOf E g = some none) :
    Tables E g (k.withProcess E ⟨g, u⟩) pub N ∧
      (∀ own, Frame E g own k pub (k.withProcess E ⟨g, u⟩) pub) ∧
      Home E g (k.withProcess E ⟨g, u⟩) (k.nextPtr g) := by
  obtain ⟨hfresh, -, -⟩ := h.nextPtr_fresh
  set k' := k.withProcess E ⟨g, u⟩ with hk'
  have hnew : k'.process (k.nextPtr g) = some
      { processId := g, lastFiberId := 0, activeThreads := 0, threads := .empty, fibers := .empty } := by
    simp [hk', Kernel.withProcess]
  have hold : ∀ x, x ≠ k.nextPtr g → k'.process x = k.process x := by
    intro x hx
    simp [hk', Kernel.withProcess, hx]
  have hout : k.nextPtr g ∉ k.processes := by
    intro hmem
    have := h.processesWF.key_isSome hmem
    simp [Kernel.processKey, hfresh] at this
  have hkey : ∀ x ∈ k.processes, k'.processKey x = k.processKey x := by
    intro x hx
    have hne : x ≠ k.nextPtr g := by
      rintro rfl
      exact hout hx
    rw [Kernel.processKey, hold x hne, Kernel.processKey]
  have hnewKey : k'.processKey (k.nextPtr g) = some g := by simp [Kernel.processKey, hnew]
  have hno : ∀ x ∈ k.processes, k'.processKey x ≠ some g := by
    intro x hx
    rw [hkey x hx]
    exact h.processesWF.find_none hn hx
  have hinj : k'.processes.InjKeys k'.processKey := (h.processesInj.congr hkey).add hnewKey hno
  have hwf : k'.processes.WF E.hash k'.processKey := (h.processesWF.congr hkey).add hout hnewKey
  have hhome : Home E g k' (k.nextPtr g) :=
    hinj.find_of_mem hwf (HashTable.mem_add.mpr (.inl rfl)) hnewKey
  refine ⟨⟨hwf, hinj, ?_, fun x hx => lt_brk_update (h.freshThread x hx),
    fun x hx => lt_brk_update (h.freshFiber x hx), h.threadAt, h.fiberAt, ?_, ?_⟩,
    fun own => ⟨?_, ?_, fun _ _ ht => ht, fun _ _ _ hf => hf, fun _ _ hn => hn⟩, hhome⟩
  · intro x hx
    by_cases hxn : x = k.nextPtr g
    · subst hxn
      simp [hk', Kernel.withProcess, Kernel.nextPtr]
    · exact lt_brk_update (h.freshProcess x (by rwa [hold x hxn] at hx))
  · intro p hp
    obtain rfl : k.nextPtr g = p := Option.some.inj (Option.some.inj (hhome.symm.trans hp))
    rw [hnew, h.unborn hn]
    rfl
  · intro hn'
    rw [show k'.processOf E g = _ from hhome] at hn'
    cases hn'
  · intro p hp
    rw [show k.processOf E g = _ from hp] at hn
    cases hn
  · intro p hp
    have hne : p ≠ k.nextPtr g := by
      rintro rfl
      simp [hfresh] at hp
    rwa [hold p hne]

/-- A number is drawn for the fiber at `f`, which was not published yet. -/
theorem draw (h : Tables E g k pub N) (hp : Home E g k p) (hpub : ∀ σ, f ∉ pub σ)
    (hstep : takeFiberId p f k = some ((), k')) :
    Tables E g k' pub (N + 1) ∧ Frame E g (some f) k pub k' pub ∧
      k'.fiberKey f = some (idOf (N + 1)) ∧ ∀ σ, k'.chain σ = k.chain σ := by
  obtain ⟨q, hq, hids⟩ := Option.map_eq_some_iff.mp (h.last p hp)
  obtain ⟨hself, hlast⟩ := Prod.mk.inj hids
  have hsome : (k.fiber f).isSome := by
    by_contra hf
    simp [takeFiberId, hq, hf] at hstep
  obtain ⟨r, hr⟩ := Option.isSome_iff_exists.mp hsome
  obtain rfl := takeFiberId_eq_some hq hstep
  set k' := (k.modProcess p fun r => { r with lastFiberId := r.lastFiberId + 1 }).modFiber f
    fun r => { r with fiberId := q.nextId } with hk'
  have hid : q.nextId = idOf (N + 1) := by
    rw [Process.nextId, hlast, idOf]
    exact BitVec.eq_of_toNat_eq (by simp)
  have hproc : ∀ x, k'.process x =
      if x = p then some { q with lastFiberId := q.lastFiberId + 1 } else k.process x := by
    intro x
    simp [hk', hq]
  have hkey : ∀ x, k'.processKey x = k.processKey x := by
    intro x
    rw [Kernel.processKey, hproc, Kernel.processKey]
    split_ifs with hx
    · subst hx
      rw [hq]
      rfl
    · rfl
  have hof : k'.processOf E g = k.processOf E g := processOf_congr rfl hkey
  have hfiberKey : ∀ x, x ≠ f → k'.fiberKey x = k.fiberKey x := by
    intro x hx
    simp [Kernel.fiberKey, hk', hx]
  have hnamed : k'.fiberKey f = some (idOf (N + 1)) := by
    rw [← hid]
    simp [Kernel.fiberKey, hk', hr]
  refine ⟨⟨h.processesWF.congr fun x _ => hkey x, h.processesInj.congr fun x _ => hkey x, ?_,
    h.freshThread, ?_, h.threadAt, ?_, ?_, ?_⟩,
    ⟨fun x hx => hof.trans hx, ?_, fun _ _ ht => ht, ?_, fun _ _ hn => hn⟩, hnamed, ?_⟩
  · intro x hx
    refine h.freshProcess x ?_
    rw [hproc] at hx
    split_ifs at hx with hxp
    · rw [hxp, hq]
      rfl
    · exact hx
  · intro x hx
    refine h.freshFiber x ?_
    by_cases hxf : x = f
    · simp [Kernel.fiberKey, hxf, hr]
    · rwa [← hfiberKey x hxf]
  · intro p b x hx
    have hne : x ≠ f := by
      rintro rfl
      exact hpub _ hx
    rw [hfiberKey x hne]
    exact h.fiberAt p b x hx
  · intro x hx
    obtain rfl : p = x := Option.some.inj (Option.some.inj (hp.symm.trans (hof.symm.trans hx)))
    rw [hproc, if_pos rfl, Option.map_some]
    congr 1
    refine Prod.ext hself ?_
    change q.lastFiberId + 1 = _
    rw [hlast]
    exact BitVec.eq_of_toNat_eq (by simp)
  · intro hn
    rw [hof, show k.processOf E g = _ from hp] at hn
    cases hn
  · intro x hx
    rw [hproc]
    split_ifs
    · rfl
    · exact hx
  · intro x key hne hx
    rw [hfiberKey x fun he => hne (congrArg some he.symm), hx]
  · intro σ
    refine Kernel.chain_congr_tables fun x => ?_
    rw [hproc]
    split_ifs with hx
    · rw [hx, hq]
      rfl
    · rfl

/-- A node is published. -/
theorem publish {st : Stmt} {xs : List Ptr} (h : Tables E g k pub N)
    (hins : st.inserts E k = some (σ, n)) :
    SameKeys k (k.setChain σ xs) ∧
      Tables E g (k.setChain σ xs) (Function.update pub σ (n :: pub σ)) N := by
  obtain ⟨hps, hthread, hfiber, hbrk⟩ := k.setChain_rest σ xs
  have hkeys : SameKeys k (k.setChain σ xs) := by
    refine ⟨hps, fun p => ?_, fun t => ?_, fun f => ?_, hbrk⟩
    · obtain ⟨φ, hφ, hsame⟩ := k.setChain_process σ xs p
      rw [hφ, Option.map_map]
      congr 1
      funext q
      exact Prod.ext (hsame q).1 (hsame q).2
    · rw [Kernel.threadKey, hthread, Kernel.threadKey]
    · rw [Kernel.fiberKey, hfiber, Kernel.fiberKey]
  refine ⟨hkeys, { h.same hkeys with threadAt := ?_, fiberAt := ?_ }⟩
  · intro p b t ht
    rw [hkeys.threadKey]
    by_cases hσ : Slot.threads p b = σ
    · subst hσ
      rw [Function.update_self] at ht
      obtain rfl | ht := List.mem_cons.mp ht
      · obtain ⟨_, key, -, hslot, -, hkey⟩ | ⟨_, _, -, hslot, -⟩ := Stmt.inserts_cases hins
        · exact ⟨key, hkey, (Slot.threads.inj hslot).2.symm⟩
        · cases hslot
      · exact h.threadAt p b t ht
    · rw [Function.update_of_ne hσ] at ht
      exact h.threadAt p b t ht
  · intro p b f hf
    rw [hkeys.fiberKey]
    by_cases hσ : Slot.fibers p b = σ
    · subst hσ
      rw [Function.update_self] at hf
      obtain rfl | hf := List.mem_cons.mp hf
      · obtain ⟨_, _, -, hslot, -⟩ | ⟨_, key, -, hslot, -, hkey⟩ := Stmt.inserts_cases hins
        · cases hslot
        · exact ⟨key, hkey, (Slot.fibers.inj hslot).2.symm⟩
      · exact h.fiberAt p b f hf
    · rw [Function.update_of_ne hσ] at hf
      exact h.fiberAt p b f hf

end Tables

/-! ## Numbers -/

namespace Numbers

/-- A thread draws the next number. -/
theorem draw (h : Numbers held spent lo N) (v : PidT) :
    Numbers (Function.update held v (some (N + 1))) spent lo (N + 1) := by
  have hcases : ∀ u i, Function.update held v (some (N + 1)) u = some i →
      (u = v ∧ i = N + 1) ∨ (u ≠ v ∧ held u = some i) := by
    intro u i hi
    by_cases hu : u = v
    · subst hu
      rw [Function.update_self] at hi
      exact .inl ⟨rfl, (Option.some.inj hi).symm⟩
    · exact .inr ⟨hu, by rwa [Function.update_of_ne hu] at hi⟩
  have hle := h.le
  refine ⟨by omega, fun u i hi => ?_, fun u w i hu hw => ?_, fun u i hi hmem => ?_, fun i hi => ?_,
    h.nodup⟩
  · obtain ⟨-, rfl⟩ | ⟨-, hi⟩ := hcases u i hi
    · omega
    · have := h.range u i hi
      omega
  · obtain ⟨rfl, rfl⟩ | ⟨-, hu⟩ := hcases u i hu
    · obtain ⟨rfl, -⟩ | ⟨-, hw⟩ := hcases w _ hw
      · rfl
      · have := h.range w _ hw
        omega
    · obtain ⟨-, rfl⟩ | ⟨-, hw⟩ := hcases w i hw
      · have := h.range u _ hu
        omega
      · exact h.apart u w i hu hw
  · obtain ⟨-, rfl⟩ | ⟨-, hi⟩ := hcases u i hi
    · have := h.spentRange _ hmem
      omega
    · exact h.unspent u i hi hmem
  · have := h.spentRange i hi
    omega

/-- A thread gives the number it holds. -/
theorem give (h : Numbers held spent lo N) (hv : held v = some i) :
    Numbers (Function.update held v none) (spent ++ [i]) lo N := by
  have hcases : ∀ u j, Function.update held v none u = some j → u ≠ v ∧ held u = some j := by
    intro u j hj
    by_cases hu : u = v
    · subst hu
      simp at hj
    · exact ⟨hu, by rwa [Function.update_of_ne hu] at hj⟩
  refine ⟨h.le, fun u j hj => h.range u j (hcases u j hj).2,
    fun u w j hu hw => h.apart u w j (hcases u j hu).2 (hcases w j hw).2, fun u j hj hmem => ?_,
    fun j hj => ?_, ?_⟩
  · obtain ⟨hne, hj⟩ := hcases u j hj
    obtain hmem | hmem := List.mem_append.mp hmem
    · exact h.unspent u j hj hmem
    · obtain rfl := List.mem_singleton.mp hmem
      exact hne (h.apart u v j hj hv)
  · obtain hj | hj := List.mem_append.mp hj
    · exact h.spentRange j hj
    · obtain rfl := List.mem_singleton.mp hj
      exact h.range v j hv
  · refine List.nodup_append.mpr ⟨h.nodup, List.nodup_singleton i, fun a ha b hb => ?_⟩
    obtain rfl := List.mem_singleton.mp hb
    rintro rfl
    exact h.unspent v a hv ha

end Numbers

/-! ## Steps outside of `hash_add_rcu` -/

/-- A thread about to insert a node has a record for it. -/
theorem Stage.entering_key {o : Option ℕ} (h : Stage E g k pub u o pc) (hn : pc.entering = some n) :
    (k.threadKey n).isSome ∨ (k.fiberKey n).isSome := by
  cases h with
  | aside h => simp [h.entering_eq] at hn
  | counting p t hp ht =>
    obtain rfl : t = n := Option.some.inj hn
    exact .inl (by simp [ht])
  | listing p t hp ht =>
    obtain rfl : t = n := Option.some.inj hn
    exact .inl (by simp [ht])
  | takeId p f m hp hreg hf =>
    obtain rfl : f = n := Option.some.inj hn
    exact .inr hf
  | naming p f m i hp hreg hheld hkey =>
    obtain rfl : f = n := Option.some.inj hn
    exact .inr (by simp [hkey])
  | completing p f m i hp hreg hheld hnamed hdone =>
    cases hdone with
    | writing ss hss => simp [Pc.entering_run hss] at hn
    | lock gp hm => cases hn
    | read => cases hn
  | _ => cases hn

/-- A step that leaves the chains and the `next` fields alone. -/
theorem Inv.goes (h : Inv E g s pub held spent lo N) (hidle : s.adding v = .idle)
    (htables : Tables E g k' pub N') (hframe : Frame E g (s.pc v).entering s.st pub k' pub)
    (hchain : ∀ σ, k'.chain σ = s.st.chain σ)
    (hent : ∀ n, pc'.entering = some n → (s.pc v).entering = some n ∨ n = s.st.nextPtr g)
    (hstage : Stage E g k' pub v (held' v) pc') (hheld : ∀ u, u ≠ v → held' u = held u)
    (hnumbers : Numbers held' spent' lo N') :
    Moved E g v s pub (s.goto v k' pc') pub held' spent' lo N' := by
  refine h.advance (fun u hu => ?_) (fun _ _ => rfl) hheld (fun _ _ => rfl) hframe
    (fun _ _ hn => .inl hn) htables h.layered (fun σ => ?_) ?_ (fun n hn => ?_) ?_ hnumbers
  · simp [hu]
  · rw [State.goto_st, hchain]
    exact h.walk σ
  · rw [State.goto_pc, if_pos rfl]
    exact hstage
  · rw [State.goto_pc, if_pos rfl] at hn
    obtain hn | rfl := hent n hn
    · exact ⟨fun σ => h.entering v n σ hn, fun u hu hu' => hu (h.alone u v n hu' hn)⟩
    · refine ⟨h.tables.nextPtr_not_mem, fun u _ hu => ?_⟩
      obtain ⟨-, hthread, hfiber⟩ := h.tables.nextPtr_fresh
      obtain hkey | hkey := (h.stage u).entering_key hu
      · simp [hthread] at hkey
      · simp [hfiber] at hkey
  · rw [State.goto_adding, hidle]
    exact .idle

/-- A step that keeps the keys and the tables. -/
theorem Inv.quiet (h : Inv E g s pub held spent lo N) (hidle : s.adding v = .idle)
    (hk : SameKeys s.st k') (hchain : ∀ σ, k'.chain σ = s.st.chain σ)
    (hent : ∀ n, pc'.entering = some n → (s.pc v).entering = some n)
    (hstage : Stage E g s.st pub v (held' v) pc') (hheld : ∀ u, u ≠ v → held' u = held u)
    (hnumbers : Numbers held' spent' lo N) :
    Moved E g v s pub (s.goto v k' pc') pub held' spent' lo N := by
  have hframe : ∀ own, Frame E g own s.st pub k' pub := fun own => hk.frame fun _ _ hn => hn
  exact h.goes hidle (h.tables.same hk) (hframe _) hchain (fun n hn => .inl (hent n hn))
    ((hframe none).stage (fun _ _ hn => by cases hn) (fun _ _ hn => by cases hn) hstage) hheld hnumbers

/-- A thread between two statements of which the first changes nothing. -/
theorem Inv.stays (h : Inv E g s pub held spent lo N) (hidle : s.adding v = .idle)
    (hent : pc'.entering = none) (hstage : Stage E g s.st pub v (held v) pc') :
    Moved E g v s pub (s.goto v s.st pc') pub held spent lo N :=
  h.quiet hidle (.refl _) (fun _ => rfl) (fun n hn => by simp [hent] at hn) hstage (fun _ _ => rfl)
    h.numbers

/-- The places of a creating thread after `hash_add_rcu`. -/
theorem Completing.step {o : Option ℕ} (h : Completing m f pc)
    (hp : Home E g k p) (hreg : m.call = .convert → Registered E k pub p u) (hheld : o = some i)
    (hn : Named E k pub p f (idOf i)) (hstep : pc.step E ⟨g, u⟩ k = some (pc', k')) :
    SameKeys k k' ∧ k'.process = k.process ∧ pc.draws = false ∧ pc'.entering = none ∧
      Stage E g k pub u o pc' := by
  have hquiet : ∀ {pc}, Completing m f pc → Stage E g k pub u o pc := fun hpc =>
    .completing p f m i hp hreg hheld hn hpc
  cases h with
  | writing ss hss =>
    cases ss with
    | nil =>
      obtain ⟨rfl, rfl⟩ : m.next f = pc' ∧ k = k' := by simpa [Pc.step] using hstep
      cases m with
      | convert gp => exact ⟨.refl _, rfl, rfl, rfl, hquiet (.lock gp rfl)⟩
      | create sp sz fn arg => exact ⟨.refl _, rfl, rfl, rfl, hquiet .read⟩
    | cons st ss =>
      obtain ⟨-, rfl, rfl⟩ := run_cons_eq_some hstep
      have hss' : ∀ st' ∈ ss, st'.keepsKeys := fun st' h' => hss st' (List.mem_cons_of_mem _ h')
      obtain ⟨hkeys, hproc⟩ : SameKeys k (st.apply E ⟨g, u⟩ k) ∧ _ = _ :=
        sameKeys_apply (hss st List.mem_cons_self)
      exact ⟨hkeys, hproc, rfl, Pc.entering_run hss' _, hquiet (.writing ss hss')⟩
  | lock gp hm =>
    simp only [Pc.step, K.bind_eq_some, spinTrylock, Option.map_eq_some_iff] at hstep
    obtain ⟨b, _, ⟨r, hr, heq⟩, h⟩ := hstep
    obtain ⟨-, rfl⟩ := Prod.mk.inj heq
    have hkeys := SameKeys.of_modFiber k f (fun r => { r with fiberLock := true }) fun _ => rfl
    cases b with
    | true =>
      obtain ⟨rfl, rfl⟩ : _ = pc' ∧ _ = k' := by simpa using h
      subst hm
      exact ⟨hkeys, rfl, rfl, rfl, hquiet .read⟩
    | false =>
      obtain ⟨rfl, rfl⟩ : _ = pc' ∧ _ = k' := by simpa using h
      exact ⟨hkeys, rfl, rfl, rfl, .aside (.ret _ _ rfl)⟩
  | read =>
    simp only [Pc.step, K.bind_eq_some, readFiber_eq_some] at hstep
    obtain ⟨r, _, ⟨hr, rfl⟩, h⟩ := hstep
    obtain ⟨rfl, rfl⟩ : _ = pc' ∧ _ = k' := by simpa using h
    have hid : r.fiberId = idOf i := by simpa [Kernel.fiberKey, hr] using hn.2
    rw [hid]
    exact ⟨.refl _, rfl, rfl, rfl, .ret m.call p f i hp hreg hheld hn⟩

/-- The process record is found or made. -/
theorem Inv.findOrCreate (h : Inv E g s pub held spent lo N) (hidle : s.adding v = .idle)
    (hstep : findOrCreateProcess E ⟨g, v⟩ s.st = some (p, k')) :
    Moved E g v s pub (s.goto v k' (.findSelf p)) pub held spent lo N := by
  obtain ⟨op, hop⟩ := h.tables.processesWF.find_isSome g
  cases op with
  | some q =>
    have hfound : findOrCreateProcess E ⟨g, v⟩ s.st = some (q, s.st) := findOrCreateProcess_found hop
    obtain ⟨rfl, rfl⟩ : q = p ∧ s.st = k' := by simpa [hfound] using hstep
    exact h.stays hidle rfl (.findSelf q hop)
  | none =>
    have hnew : findOrCreateProcess E ⟨g, v⟩ s.st =
        some (s.st.nextPtr g, s.st.withProcess E ⟨g, v⟩) := findOrCreateProcess_new hop
    obtain ⟨rfl, rfl⟩ : s.st.nextPtr g = p ∧ s.st.withProcess E ⟨g, v⟩ = k' := by
      simpa [hnew] using hstep
    obtain ⟨htables, hframe, hhome⟩ := h.tables.born (u := v) hop
    obtain ⟨hfresh, -, -⟩ := h.tables.nextPtr_fresh
    refine h.goes hidle htables (hframe _) (fun σ => ?_) (fun n hn => by cases hn)
      (.findSelf _ hhome) (fun _ _ => rfl) h.numbers
    -- the new record has empty tables
    have hold : ∀ x, x ≠ s.st.nextPtr g →
        (s.st.withProcess E ⟨g, v⟩).process x = s.st.process x := fun x hx => by
      simp [Kernel.withProcess, hx]
    cases σ with
    | threads x b =>
      by_cases hx : x = s.st.nextPtr g
      · subst hx
        simp [Kernel.chain, Kernel.withProcess, hfresh]
      · rw [Kernel.chain, hold x hx, Kernel.chain]
    | fibers x b =>
      by_cases hx : x = s.st.nextPtr g
      · subst hx
        simp [Kernel.chain, Kernel.withProcess, hfresh]
      · rw [Kernel.chain, hold x hx, Kernel.chain]

/-- A thread record is allocated. -/
theorem Inv.newThread (h : Inv E g s pub held spent lo N) (hidle : s.adding v = .idle)
    (hp : Home E g s.st p) (hstep : allocThread ⟨g, v⟩ p v s.st = some (t, k')) :
    Moved E g v s pub (s.goto v k' (.run [incActive p, addThread p t] (.newFiber p (.convert t)))) pub
      held spent lo N := by
  obtain ⟨rfl, hk⟩ := allocThread_eq_some hstep
  obtain ⟨htables, hframe⟩ : Tables E g k' pub N ∧ ∀ own, Frame E g own s.st pub k' pub :=
    h.tables.alloc (by rw [hk]) (by rw [hk]) (by rw [hk])
      (fun t ht => by simp [hk, Kernel.threadKey, ht])
      fun f _ => by rw [hk]; rfl
  refine h.goes hidle htables (hframe _) (fun σ => Kernel.chain_congr (by rw [hk]))
    (fun n hn => .inr (Option.some.inj hn).symm) (.counting p _ ((hframe none).home p hp) ?_)
    (fun _ _ => rfl) h.numbers
  simp [hk, Kernel.threadKey]

/-- A fiber is allocated. -/
theorem Inv.newFiber (h : Inv E g s pub held spent lo N) (hidle : s.adding v = .idle)
    (hp : Home E g s.st p) (hreg : m.call = .convert → Registered E s.st pub p v)
    (hstep : allocFiber E ⟨g, v⟩ p m.ss m.sPtr s.st = some (f, k')) :
    Moved E g v s pub (s.goto v k' (.takeId p f m)) pub held spent lo N := by
  obtain ⟨rfl, hk⟩ := allocFiber_eq_some hstep
  obtain ⟨htables, hframe⟩ : Tables E g k' pub N ∧ ∀ own, Frame E g own s.st pub k' pub :=
    h.tables.alloc (by rw [hk]) (by rw [hk]) (by rw [hk]) (fun t _ => by rw [hk]; rfl)
      fun f hf => by simp [hk, Kernel.fiberKey, hf]
  refine h.goes hidle htables (hframe _) (fun σ => Kernel.chain_congr (by rw [hk]))
    (fun n hn => .inr (Option.some.inj hn).symm)
    (.takeId p _ m ((hframe none).home p hp) (fun hm => (hframe none).registered (hreg hm)) ?_)
    (fun _ _ => rfl) h.numbers
  simp [hk, Kernel.fiberKey]

/-- A thread draws the number of its fiber. -/
theorem Inv.takeId (h : Inv E g s pub held spent lo N) (hidle : s.adding v = .idle)
    (hpc : s.pc v = .takeId p f m) (hp : Home E g s.st p)
    (hreg : m.call = .convert → Registered E s.st pub p v)
    (hstep : takeFiberId p f s.st = some ((), k')) :
    Moved E g v s pub (s.goto v k' (.run (initFiberTail p f ++ m.tail f) (m.next f))) pub
      (Function.update held v (some (N + 1))) spent lo (N + 1) := by
  have hent : (s.pc v).entering = some f := by rw [hpc]; rfl
  obtain ⟨htables, hframe, hkey, hchain⟩ :=
    h.tables.draw hp (fun σ => h.entering v f σ hent) hstep
  refine h.goes hidle htables (hent ▸ hframe) hchain (fun n hn => .inl (hent.trans hn))
    (.naming p f m (N + 1) (hframe.home p hp) (fun hm => hframe.registered (hreg hm)) ?_ hkey)
    (fun u hu => Function.update_of_ne hu _ _) (h.numbers.draw v)
  exact Function.update_self ..

theorem sameKeys_incActive (E : Env) (cur : Task) (k : Kernel) (p : Ptr) :
    SameKeys k ((incActive p).apply E cur k) ∧
      ∀ σ, ((incActive p).apply E cur k).chain σ = k.chain σ := by
  have hproc : ∀ x, ((incActive p).apply E cur k).process x =
      (k.process x).map fun q => if x = p then { q with activeThreads := q.activeThreads + 1 } else q := by
    intro x
    simp only [apply, Kernel.modProcess_process]
    split_ifs with hx
    · rw [hx]
    · simp
  refine ⟨⟨rfl, fun x => ?_, fun _ => rfl, fun _ => rfl, rfl⟩, fun σ => ?_⟩
  · rw [hproc, Option.map_map]
    congr 1
    funext q
    simp only [Function.comp_apply]
    split_ifs <;> rfl
  · refine Kernel.chain_congr_tables fun x => ?_
    rw [hproc, Option.map_map]
    congr 1
    funext q
    simp only [Function.comp_apply]
    split_ifs <;> rfl

/-- A statement outside of `hash_add_rcu`. -/
theorem Inv.stmt (h : Inv E g s pub held spent lo N) (hins : s.inserting E v = none)
    (hidle : s.adding v = .idle) (hstep : (s.pc v).step E ⟨g, v⟩ s.st = some (pc', k')) :
    ∃ held' N', Moved E g v s pub (s.goto v k' pc') pub held' spent lo N' ∧
      N' = N + if (s.pc v).draws then 1 else 0 := by
  have hstage := h.stage v
  have hstays : pc'.entering = none → Stage E g s.st pub v (held v) pc' →
      Moved E g v s pub (s.goto v s.st pc') pub held spent lo N := h.stays hidle
  generalize hpc : s.pc v = pc at hstep hstage
  cases hstage with
  | aside haside =>
    by_cases hfoc : pc = .findOrCreate
    · subst hfoc
      simp only [Pc.step, K.bind_eq_some] at hstep
      obtain ⟨p, _, hfind, hret⟩ := hstep
      obtain ⟨rfl, rfl⟩ : _ = pc' ∧ _ = k' := by simpa using hret
      exact ⟨held, N, h.findOrCreate hidle hfind, rfl⟩
    · obtain ⟨hkeys, hproc, hpc'⟩ := haside.step hfoc hstep
      refine ⟨held, N, ?_, by simp [haside.draws_eq]⟩
      refine h.quiet hidle hkeys (fun σ => Kernel.chain_congr hproc) ?_ ?_ (fun _ _ => rfl) h.numbers
      · obtain haside' | ⟨c, p, rfl, -, -⟩ := hpc'
        · simp [haside'.entering_eq]
        · rintro n ⟨⟩
      · obtain haside' | ⟨c, p, rfl, hp, hc⟩ := hpc'
        · exact .aside haside'
        · exact .findThread c p hp hc
  | findThread c p hp hc =>
    simp only [Pc.step, K.bind_eq_some, findThreadByPid_eq_some] at hstep
    obtain ⟨ot, _, ⟨q, -, -, rfl⟩, hret⟩ := hstep
    refine ⟨held, N, ?_, rfl⟩
    cases ot with
    | none =>
      obtain ⟨rfl, rfl⟩ : _ = pc' ∧ _ = k' := by simpa using hret
      exact hstays rfl (.aside (.ret c _ (gives_refused c)))
    | some t =>
      obtain ⟨rfl, rfl⟩ : _ = pc' ∧ _ = k' := by simpa using hret
      cases c with
      | convert => exact hstays rfl (.newThread p hp)
      | create sp sz fn arg => exact hstays rfl (.newFiber p (.create sp sz fn arg) hp fun hm => by cases hm)
      | switchTo id => exact hstays rfl (.aside (.findFiber id p t))
      | exit => exact absurd rfl hc
      | _ => exact hstays rfl (.aside (.checkSelected _ t rfl))
  | findSelf p hp =>
    simp only [Pc.step, K.bind_eq_some, findThreadByPid_eq_some] at hstep
    obtain ⟨ot, _, ⟨q, -, -, rfl⟩, hret⟩ := hstep
    refine ⟨held, N, ?_, rfl⟩
    cases ot with
    | none =>
      obtain ⟨rfl, rfl⟩ : _ = pc' ∧ _ = k' := by simpa using hret
      exact hstays rfl (.newThread p hp)
    | some t =>
      obtain ⟨rfl, rfl⟩ : _ = pc' ∧ _ = k' := by simpa using hret
      exact hstays rfl (.aside (.ret _ _ rfl))
  | newThread p hp =>
    simp only [Pc.step, K.bind_eq_some] at hstep
    obtain ⟨t, _, halloc, hret⟩ := hstep
    obtain ⟨rfl, rfl⟩ : _ = pc' ∧ _ = k' := by simpa using hret
    exact ⟨held, N, h.newThread hidle hp halloc, rfl⟩
  | counting p t hp ht =>
    obtain ⟨-, rfl, rfl⟩ := run_cons_eq_some hstep
    obtain ⟨hkeys, hchain⟩ := sameKeys_incActive E ⟨g, v⟩ s.st p
    refine ⟨held, N, h.quiet hidle hkeys hchain (fun n hn => ?_) (.listing p t hp ht)
      (fun _ _ => rfl) h.numbers, rfl⟩
    rw [hpc]
    exact hn
  | listing p t hp ht =>
    have hsome : s.inserting E v = some (.threads p (E.hash v), t) := by
      simp [State.inserting, hpc, Pc.upcoming, Stmt.inserts, ht, h.tables.process_isSome hp]
    simp [hsome] at hins
  | listed p t hp hreg =>
    obtain ⟨rfl, rfl⟩ : _ = pc' ∧ s.st = k' := by simpa [Pc.step] using hstep
    exact ⟨held, N, hstays rfl (.newFiber p (.convert t) hp fun _ => hreg), rfl⟩
  | newFiber p m hp hreg =>
    simp only [Pc.step, K.bind_eq_some] at hstep
    obtain ⟨f, _, halloc, hret⟩ := hstep
    obtain ⟨rfl, rfl⟩ : _ = pc' ∧ _ = k' := by simpa using hret
    exact ⟨held, N, h.newFiber hidle hp hreg halloc, rfl⟩
  | takeId p f m hp hreg hf =>
    simp only [Pc.step, K.bind_eq_some] at hstep
    obtain ⟨_, _, hdraw, hret⟩ := hstep
    obtain ⟨rfl, rfl⟩ : _ = pc' ∧ _ = k' := by simpa using hret
    exact ⟨_, N + 1, h.takeId hidle hpc hp hreg hdraw, rfl⟩
  | naming p f m i hp hreg hheld hkey =>
    have hsome : s.inserting E v = some (.fibers p (E.hash (idOf i)), f) := by
      simp [State.inserting, hpc, initFiberTail, Pc.upcoming, Stmt.inserts, hkey,
        h.tables.process_isSome hp]
    simp [hsome] at hins
  | completing p f m i hp hreg hheld hn hdone =>
    obtain ⟨hkeys, hproc, hdraws, hent, hstage'⟩ := hdone.step hp hreg hheld hn hstep
    refine ⟨held, N, ?_, by simp [hdraws]⟩
    exact h.quiet hidle hkeys (fun σ => Kernel.chain_congr hproc) (fun n hn => by simp [hent] at hn)
      hstage' (fun _ _ => rfl) h.numbers
  | ret c p f i => cases hstep

/-! ## The steps of `hash_add_rcu` -/

/-- A thread reads the head of a bucket. -/
theorem Inv.read (h : Inv E g s pub held spent lo N) (hins : s.inserting E v = some (σ, n)) :
    Moved E g v s pub
      { s with adding := Function.update s.adding v (.read (s.st.chain σ).head?) } pub held spent lo
      N := by
  refine h.advance (fun _ _ => rfl) (fun u hu => Function.update_of_ne hu _ _) (fun _ _ => rfl)
    (fun _ _ => rfl) ((SameKeys.refl _).frame fun _ _ hn => hn) (fun _ _ hn => .inl hn) h.tables
    h.layered h.walk (h.stage v) (fun n hn => ?_) ?_ h.numbers
  · exact ⟨fun σ => h.entering v n σ hn, fun u hu hu' => hu (h.alone u v n hu' hn)⟩
  · simp only [Function.update_self]
    refine .read σ n _ hins fun m hm => ?_
    rw [← (h.walk σ).head_eq] at hm
    exact List.mem_of_mem_head? hm

/-- A thread links its node to what it has read. -/
theorem Inv.store {first : Option Ptr} (h : Inv E g s pub held spent lo N)
    (hins : s.inserting E v = some (σ, n)) (hadd : s.adding v = .read first) :
    Moved E g v s pub { s with
      next := Function.update s.next n first
      adding := Function.update s.adding v .stored } pub held spent lo N := by
  have hent := entering_of_inserting hins
  have hkeep : ∀ τ, ∀ x ∈ pub τ, Function.update s.next n first x = s.next x := by
    intro τ x hx
    refine Function.update_of_ne ?_ _ _
    rintro rfl
    exact h.entering v x τ hent hx
  refine h.advance (fun _ _ => rfl) (fun u hu => Function.update_of_ne hu _ _) (fun _ _ => rfl)
    (fun x hx => Function.update_of_ne ?_ _ _) ((SameKeys.refl _).frame fun _ _ hn => hn)
    (fun _ _ hn => .inl hn) h.tables (fun τ => (h.layered τ).congr (hkeep τ)) (fun τ => ?_)
    (h.stage v) (fun n hn => ?_) ?_ h.numbers
  · rintro rfl
    exact hx hent
  · have hsub := (h.layered τ).sublist (fun m hm => List.mem_of_mem_head? hm) (h.walk τ)
    exact (h.walk τ).congr fun x hx => hkeep τ x (hsub.subset hx)
  · exact ⟨fun σ => h.entering v n σ hn, fun u hu hu' => hu (h.alone u v n hu' hn)⟩
  · have hok := h.adding v
    rw [hadd] at hok
    simp only [Function.update_self]
    cases hok with
    | read τ x _ hins' hfirst =>
      obtain ⟨rfl, rfl⟩ : τ = σ ∧ x = n := Prod.mk.inj (Option.some.inj (hins'.symm.trans hins))
      exact .stored τ x hins fun m hm => hfirst m (by simpa using hm)

/-- The statements of a call after it has put its fiber on the table. -/
theorem keepsKeys_naming (m : Maker) (p f : Ptr) :
    ∀ st ∈ (initFiberTail p f).tail ++ m.tail f, st.keepsKeys := by
  intro st hst
  obtain hst | hst := List.mem_append.mp hst
  · exact keepsKeys_assigns _ _ st hst
  · cases m with
    | convert gp =>
      obtain hst | hst := List.mem_append.mp hst
      · exact keepsKeys_assigns _ _ st hst
      · obtain rfl := List.mem_singleton.mp hst
        rfl
    | create sp sz fn arg => exact keepsKeys_assigns _ _ st hst

/-- Where a thread is after its node was made the head. -/
theorem Stage.publish {o : Option ℕ} {st : Stmt} {ss : List Stmt} {next : Pc} {k₁ : Kernel}
    (h : Stage E g k pub v o (.run (st :: ss) next)) (hins : st.inserts E k = some (σ, n))
    (hk : SameKeys k k₁) :
    Stage E g k₁ (Function.update pub σ (n :: pub σ)) v o (.run ss next) ∧
      (Pc.run ss next).entering = none := by
  have hframe : Frame E g none k pub k₁ (Function.update pub σ (n :: pub σ)) := by
    refine hk.frame fun τ x hx => ?_
    by_cases hτ : τ = σ
    · subst hτ
      rw [Function.update_self]
      exact List.mem_cons_of_mem _ hx
    · rwa [Function.update_of_ne hτ]
  have hnode := Stmt.node_of_inserts hins
  have hnot : ∀ {ss' : List Stmt} {next' : Pc}, (∀ st ∈ ss', st.keepsKeys) →
      Pc.run (st :: ss) next ≠ .run ss' next' := by
    rintro ss' next' hss heq
    obtain ⟨rfl, rfl⟩ : st :: ss = ss' ∧ next = next' := by simpa using heq
    simp [Stmt.node_of_keepsKeys (hss st List.mem_cons_self)] at hnode
  generalize hpc : Pc.run (st :: ss) next = pc at h
  cases h with
  | aside h =>
    cases h with
    | run ss' next' hss _ => exact absurd hpc (hnot hss)
    | _ => cases hpc
  | counting p t hp ht =>
    obtain ⟨⟨rfl, rfl⟩, rfl⟩ : (st = incActive p ∧ ss = _) ∧ next = _ := by simpa using hpc
    cases hnode
  | listing p t hp ht =>
    obtain ⟨⟨rfl, rfl⟩, rfl⟩ : (st = addThread p t ∧ ss = []) ∧ next = _ := by simpa using hpc
    simp only [Stmt.inserts, ht, Option.map_some, Option.ite_none_right_eq_some, Option.some.injEq,
      Prod.mk.injEq] at hins
    obtain ⟨-, rfl, rfl⟩ := hins
    refine ⟨.listed p t (hframe.home p hp) ⟨t, ?_, hframe.threadKey t v ht⟩, rfl⟩
    rw [Function.update_self]
    exact List.mem_cons_self
  | naming p f m i hp hreg hheld hkey =>
    have hcons : (st = addFiber p f ∧ ss = (initFiberTail p f).tail ++ m.tail f) ∧
        next = m.next f := by
      simpa [initFiberTail] using hpc
    obtain ⟨⟨rfl, rfl⟩, rfl⟩ := hcons
    simp only [Stmt.inserts, hkey, Option.map_some, Option.ite_none_right_eq_some,
      Option.some.injEq, Prod.mk.injEq] at hins
    obtain ⟨-, rfl, rfl⟩ := hins
    have hwrites := keepsKeys_naming m p f
    refine ⟨.completing p f m i (hframe.home p hp) (fun hm => hframe.registered (hreg hm)) hheld
      ⟨?_, hframe.fiberKey f _ (fun he => by cases he) hkey⟩ (.writing _ hwrites), Pc.entering_run hwrites _⟩
    rw [Function.update_self]
    exact List.mem_cons_self
  | completing p f m i hp hreg hheld hn hdone =>
    cases hdone with
    | writing ss' hss => exact absurd hpc (hnot hss)
    | _ => cases hpc
  | _ => cases hpc

/-- A thread makes its node the head of the bucket. -/
theorem Inv.publish {xs : List Ptr} {st : Stmt} {ss : List Stmt} (h : Inv E g s pub held spent lo N)
    (hins : s.inserting E v = some (σ, n)) (hadd : s.adding v = .stored)
    (hpc : s.pc v = .run (st :: ss) pc) (hwalk : Walk s.next (s.next n) xs) :
    Moved E g v s pub
      { s.goto v (s.st.setChain σ (n :: xs)) (.run ss pc) with
        adding := Function.update s.adding v .idle }
      (Function.update pub σ (n :: pub σ)) held spent lo N := by
  have hent := entering_of_inserting hins
  have hst : st.inserts E s.st = some (σ, n) := by
    rw [State.inserting, hpc] at hins
    exact hins
  obtain ⟨hkeys, htables⟩ : SameKeys s.st (s.st.setChain σ (n :: xs)) ∧
      Tables E g _ (Function.update pub σ (n :: pub σ)) N := h.tables.publish hst
  have hstage := h.stage v
  rw [hpc] at hstage
  obtain ⟨hstage', hent'⟩ := hstage.publish hst hkeys
  have hnext : ∀ m, s.next n = some m → m ∈ pub σ := by
    have hok := h.adding v
    rw [hadd] at hok
    cases hok with
    | stored τ x hins' hx =>
      obtain ⟨rfl, rfl⟩ : τ = σ ∧ x = n := Prod.mk.inj (Option.some.inj (hins'.symm.trans hins))
      exact hx
  have hpub : ∀ τ x, x ∈ Function.update pub σ (n :: pub σ) τ ↔ x ∈ pub τ ∨ (τ = σ ∧ x = n) := by
    intro τ x
    by_cases hτ : τ = σ
    · subst hτ
      simp [or_comm]
    · simp [hτ]
  have hchain : ∀ τ, (s.st.setChain σ (n :: xs)).chain τ = if τ = σ then n :: xs else s.st.chain τ :=
    fun τ => Kernel.setChain_chain (Stmt.inserts_record hst)
  have hself : (s.goto v (s.st.setChain σ (n :: xs)) (.run ss pc)).pc v = .run ss pc :=
    (State.goto_pc s v _ _ v).trans (if_pos rfl)
  refine h.advance (fun u hu => ?_) (fun u hu => Function.update_of_ne hu _ _) (fun _ _ => rfl)
    (fun _ _ => rfl) (hkeys.frame fun τ x hx => (hpub τ x).mpr (.inl hx)) (fun τ x hx => ?_) htables
    (fun τ => ?_) (fun τ => ?_) ?_ (fun x hx => ?_) ?_ h.numbers
  · exact (State.goto_pc s v _ _ u).trans (if_neg hu)
  · obtain hx | ⟨-, rfl⟩ := (hpub τ x).mp hx
    · exact .inl hx
    · exact .inr hent
  · by_cases hτ : τ = σ
    · subst hτ
      rw [Function.update_self]
      exact ⟨h.entering v n τ hent, hnext, h.layered τ⟩
    · rw [Function.update_of_ne hτ]
      exact h.layered τ
  · change Walk s.next _ ((s.st.setChain σ (n :: xs)).chain τ)
    rw [hchain]
    by_cases hτ : τ = σ
    · subst hτ
      rw [Function.update_self, if_pos rfl]
      exact walk_cons_iff.mpr ⟨rfl, hwalk⟩
    · rw [Function.update_of_ne hτ, if_neg hτ]
      exact h.walk τ
  · change Stage E g (s.st.setChain σ (n :: xs)) _ v _
      ((s.goto v (s.st.setChain σ (n :: xs)) (.run ss pc)).pc v)
    rw [hself]
    exact hstage'
  · have hx' : ((s.goto v (s.st.setChain σ (n :: xs)) (.run ss pc)).pc v).entering = some x := hx
    rw [hself, hent'] at hx'
    cases hx'
  · simp only [Function.update_self]
    exact .idle

end AosvFibers.Insertion
