import AosvFibers.Interleaved.Publishing

/-!
# Insertions survive unless a head write is stale

`Inv.step` says that a step of the system keeps the invariant, `Reached.of_run` what a
whole run has published, drawn and given.

Result: `insertions_survive`. In every run each node that was put on a table is still
met by a walk of its bucket exactly if no thread has overwritten a head that it had not
read. Then the ids that were given lead to fibers and the converted threads are found.
With two threads in one bucket an insertion can be lost: `exists_lost_insertion`.
-/

namespace AosvFibers.Insertion

open Lib Stmt

variable {E : Env} {g u v : PidT} {k k' k₀ : Kernel} {s s' : State} {pub pub' : Slot → List Ptr}
  {held held' : PidT → Option ℕ} {spent spent' : List ℕ} {N N' lo i : ℕ} {p t f n : Ptr} {pc pc' : Pc}
  {σ : Slot} {m : Move} {ms : List Move} {next₀ : Ptr → Option Ptr}

/-! ## One step -/

/-- The call that gave the id `w` has put its fiber on the table of the process record
    under that id, and if it was a conversion, the record of its thread. -/
def Gave (E : Env) (g : PidT) (k : Kernel) (pub : Slot → List Ptr) (m : Move) (w : ℤ) : Prop :=
  ∃ p f id, Home E g k p ∧ id.toInt = w ∧ Named E k pub p f id ∧
    (m.act = .finish .convert w → Registered E k pub p m.thread)

/-- An id as the library gets it. -/
def givenOf (i : ℕ) : ℤ := (idOf i).toInt

/-- What a step of the system leads to. -/
structure Stepped (E : Env) (g : PidT) (s : State) (pub : Slot → List Ptr) (spent : List ℕ)
    (lo N : ℕ) (m : Move) (s' : State) (held' : PidT → Option ℕ) (spent' : List ℕ) (N' : ℕ) :
    Prop where
  moved : Moved E g m.thread s pub s' (m.record E pub) held' spent' lo N'
  links : ∀ σ n, m.publishes E = some (σ, n) → s'.next = s.next
  drawn : N' = N + if m.draws then 1 else 0
  given : spent'.map givenOf = spent.map givenOf ++ (gives m.act).toList
  gave : ∀ w, gives m.act = some w → Gave E g s'.st (m.record E pub) m w

theorem gives_eq_some {c : Call} {w w' : ℤ} (h : gives (.finish c w) = some w') : w' = w := by
  cases c with
  | convert =>
    simp only [gives, Option.ite_none_left_eq_some] at h
    exact (Option.some.inj h.2).symm
  | create sp sz fn arg =>
    simp only [gives, Option.ite_none_left_eq_some] at h
    exact (Option.some.inj h.2).symm
  | _ => cases h

/-- A step outside of `hash_add_rcu`. -/
theorem Inv.other {act : Act} {c : Conf} (h : Inv E g s pub held spent lo N)
    (hins : s.inserting E v = none) (hc : CStep E g s.conf (v, act) c) (hact : act ≠ .start .exit) :
    ∃ held' spent' N', Stepped E g s pub spent lo N ⟨s, v, act⟩ { s with conf := c } held' spent' N' := by
  have hidle : s.adding v = .idle := by
    have hok := h.adding v
    generalize s.adding v = a at hok
    cases hok with
    | idle => rfl
    | read σ n first hins' => simp [hins] at hins'
    | stored σ n hins' => simp [hins] at hins'
  have hpub : (⟨s, v, act⟩ : Move).publishes E = none := by simp [Move.publishes, hidle]
  have hrecord : (⟨s, v, act⟩ : Move).record E pub = pub := by rw [Move.record, hpub]; rfl
  have hlinks : ∀ (s' : State) σ n, (⟨s, v, act⟩ : Move).publishes E = some (σ, n) →
      s'.next = s.next := fun s' σ n hn => by simp [hpub] at hn
  have hdraws : ∀ pc, s.pc v = pc → (⟨s, v, act⟩ : Move).draws = pc.draws := fun pc hpc => by
    rw [Move.draws, hpc]
  have hstage := h.stage v
  cases act with
  | start call =>
    obtain ⟨hpc, rfl⟩ := hc
    have haside : Aside (.entry call) := by
      cases call with
      | convert => exact .findOrCreate
      | exit => exact absurd rfl hact
      | _ => exact .findProcess _ (by simp)
    refine ⟨held, spent, N, ?_, hlinks _, by simp [hdraws _ hpc, Pc.draws], by simp [gives], by simp [gives]⟩
    rw [hrecord]
    exact h.stays hidle haside.entering_eq (.aside haside)
  | user cpu =>
    obtain ⟨hpc, rfl⟩ := hc
    refine ⟨held, spent, N, ?_, hlinks _, by simp [hdraws _ hpc, Pc.draws], by simp [gives], by simp [gives]⟩
    rw [hrecord]
    exact h.quiet hidle (.of_modCpu _ _ _) (fun σ => Kernel.chain_congr rfl) (fun n hn => by cases hn)
      (.aside .user) (fun _ _ => rfl) h.numbers
  | stmt =>
    obtain ⟨pc', k', hstep, rfl⟩ := hc
    obtain ⟨held', N', hmoved, hN⟩ := h.stmt hins hidle hstep
    refine ⟨held', spent, N', ?_, hlinks _, by rw [hN, hdraws _ rfl], by simp [gives], by simp [gives]⟩
    rw [hrecord]
    exact hmoved
  | finish call w =>
    obtain ⟨hpc, rfl⟩ := hc
    have hafter : Aside (if call = .exit then .dead else .user) := by
      split_ifs
      · exact .dead
      · exact .user
    have hdraw : (⟨s, v, .finish call w⟩ : Move).draws = false := hdraws _ hpc
    by_cases hnone : gives (.finish call w) = none
    · refine ⟨held, spent, N, ?_, hlinks _, by simp [hdraw], by simp [hnone], by simp [hnone]⟩
      rw [hrecord]
      exact h.stays hidle hafter.entering_eq (.aside hafter)
    · obtain ⟨w', hw'⟩ := Option.ne_none_iff_exists'.mp hnone
      obtain rfl := gives_eq_some hw'
      rw [show s.pc v = .ret call w' from hpc] at hstage
      cases hstage with
      | aside haside =>
        cases haside with
        | ret _ _ hno => exact absurd hno hnone
      | completing p f m i hp hreg hheld hn hdone => cases hdone
      | ret _ p f i hp hreg hheld hn =>
        refine ⟨Function.update held v none, spent ++ [i], N, ?_, hlinks _, by simp [hdraw],
          by simp [hw', givenOf], fun w hw => ?_⟩
        · rw [hrecord]
          exact h.quiet hidle (.refl _) (fun _ => rfl)
            (fun n hn => by simp [hafter.entering_eq] at hn) (.aside hafter)
            (fun u hu => Function.update_of_ne hu _ _) (h.numbers.give hheld)
        · obtain rfl : (idOf i).toInt = w := Option.some.inj (hw'.symm.trans hw)
          rw [hrecord]
          refine ⟨p, f, idOf i, hp, rfl, hn, fun hconv => hreg ?_⟩
          injection hconv

/-- A step of the system. -/
theorem Inv.step (h : Inv E g s pub held spent lo N) (hs : System E g s m s') :
    ∃ held' spent' N', Stepped E g s pub spent lo N m s' held' spent' N' := by
  obtain ⟨rfl, hstep, hact⟩ := hs
  obtain ⟨s, v, act⟩ := m
  -- the steps of `hash_add_rcu` draw nothing and give nothing
  have hinside : ∀ {σ n}, s.inserting E v = some (σ, n) → (⟨s, v, .stmt⟩ : Move).draws = false := by
    intro σ n hins
    obtain ⟨st, ss, next, hpc, -⟩ := exists_run_of_inserting hins
    rw [Move.draws, hpc]
    rfl
  have hsilent : ∀ {s' : State}, (s.adding v ≠ .stored) →
      Moved E g v s pub s' pub held spent lo N → ∀ {σ n}, s.inserting E v = some (σ, n) →
      Stepped E g s pub spent lo N ⟨s, v, .stmt⟩ s' held spent N := by
    intro s' hne hmoved σ n hins
    have hpub : (⟨s, v, .stmt⟩ : Move).publishes E = none := if_neg hne
    refine ⟨?_, fun σ n hn => by simp [hpub] at hn, by simp [hinside hins], by simp [gives],
      by simp [gives]⟩
    rw [Move.record, hpub]
    exact hmoved
  cases hstep with
  | other act c hins hc => exact h.other hins hc hact
  | read σ n hins hadd => exact ⟨held, spent, N, hsilent (ne_of_eq_of_ne hadd (by simp)) (h.read hins) hins⟩
  | store σ n first hins hadd =>
    exact ⟨held, spent, N, hsilent (ne_of_eq_of_ne hadd (by simp)) (h.store hins hadd) hins⟩
  | publish σ n xs st ss pc hins hadd hpc hwalk =>
    have hpub : (⟨s, v, .stmt⟩ : Move).publishes E = some (σ, n) := (if_pos hadd).trans hins
    refine ⟨held, spent, N, ?_, fun _ _ _ => rfl, by simp [hinside hins], by simp [gives],
      by simp [gives]⟩
    rw [Move.record, hpub]
    exact h.publish hins hadd hpc hwalk

/-! ## Runs -/

/-- What holds after the steps `ms` from state `k₀`, in which `lo` numbers had been drawn. -/
structure Reached (E : Env) (g : PidT) (k₀ : Kernel) (lo : ℕ) (ms : List Move) (s : State)
    (pub : Slot → List Ptr) (held : PidT → Option ℕ) (spent : List ℕ) : Prop where
  inv : Inv E g s pub held spent lo (lo + ms.countP Move.draws)
  ids : ms.filterMap (fun m => gives m.act) = spent.map givenOf
  published : ∀ σ n, n ∈ pub σ ↔ n ∈ k₀.chain σ ∨ ∃ m ∈ ms, m.publishes E = some (σ, n)
  fresh : (∀ σ, Walk s.next (pub σ).head? (pub σ)) ↔ ∀ m ∈ ms, ¬ m.Stale E
  gave : ∀ m ∈ ms, ∀ w, gives m.act = some w → Gave E g s.st pub m w

theorem Gave.frame {own : Option Ptr} {w : ℤ} (h : Gave E g k pub m w)
    (hf : Frame E g own k pub k' pub') (hown : ∀ σ n, own = some n → n ∉ pub σ) :
    Gave E g k' pub' m w := by
  obtain ⟨p, f, id, hp, hid, hn, hreg⟩ := h
  exact ⟨p, f, id, hf.home p hp, hid, hf.named hown hn, fun hm => hf.registered (hreg hm)⟩

/-- The step keeps the published nodes linked exactly if its head write is not stale. -/
theorem Stepped.fresh_iff {held' : PidT → Option ℕ} {spent' : List ℕ} {N' : ℕ}
    (h : Inv E g s pub held spent lo N)
    (hs : Stepped E g s pub spent lo N m s' held' spent' N') (hm : m.pre = s) :
    (∀ σ, Walk s'.next (m.record E pub σ).head? (m.record E pub σ)) ↔
      (∀ σ, Walk s.next (pub σ).head? (pub σ)) ∧ ¬ m.Stale E := by
  have hkeep : ∀ σ, Walk s'.next (pub σ).head? (pub σ) ↔ Walk s.next (pub σ).head? (pub σ) :=
    fun σ => ⟨fun hw => hw.congr fun x hx => (hs.moved.next σ x hx).symm,
      fun hw => hw.congr fun x hx => hs.moved.next σ x hx⟩
  cases hpub : m.publishes E with
  | none =>
    have hnot : ¬ m.Stale E := by
      rintro ⟨σ, n, hn, -⟩
      simp [hpub] at hn
    simp only [Move.record, hpub, Option.elim_none, hkeep, hnot, not_false_eq_true, and_true]
  | some x =>
    obtain ⟨σ, n⟩ := x
    have hlink := hs.links σ n hpub
    have hstale : m.Stale E ↔ s.next n ≠ (pub σ).head? := by
      rw [(h.walk σ).head_eq]
      constructor
      · rintro ⟨τ, y, hy, hne⟩
        obtain ⟨rfl, rfl⟩ : σ = τ ∧ n = y := by simpa [hpub] using hy
        rwa [hm] at hne
      · intro hne
        exact ⟨σ, n, hpub, by rwa [hm]⟩
    rw [hstale, not_not]
    have hrec : ∀ τ, m.record E pub τ = if τ = σ then n :: pub σ else pub τ := fun τ => by
      simp [Move.record, hpub, Function.update_apply]
    constructor
    · intro hall
      have hσ := hall σ
      rw [hrec, if_pos rfl, walk_pub_cons_iff, hlink] at hσ
      refine ⟨fun τ => ?_, hσ.1⟩
      by_cases hτ : τ = σ
      · exact hτ ▸ hσ.2
      · have hτ' := hall τ
        rwa [hrec, if_neg hτ, hlink] at hτ'
    · rintro ⟨hall, hhead⟩ τ
      rw [hrec, hlink]
      split_ifs with hτ
      · exact walk_pub_cons_iff.mpr ⟨hhead, hall σ⟩
      · exact hall τ

theorem Reached.snoc (h : Reached E g k₀ lo ms s pub held spent) (hs : System E g s m s') :
    ∃ pub' held' spent', Reached E g k₀ lo (ms ++ [m]) s' pub' held' spent' := by
  obtain ⟨held', spent', N', hstep⟩ := h.inv.step hs
  have hm : m.pre = s := hs.1
  have hN : lo + (ms ++ [m]).countP Move.draws = N' := by
    rw [hstep.drawn, List.countP_append, List.countP_singleton, ← Nat.add_assoc]
  refine ⟨m.record E pub, held', spent', ?_, ?_, fun σ n => ?_, ?_, ?_⟩
  · rw [hN]
    exact hstep.moved.inv
  · rw [List.filterMap_append, h.ids, hstep.given]
    cases hg : gives m.act <;> simp [hg]
  · have hrec : n ∈ m.record E pub σ ↔ n ∈ pub σ ∨ m.publishes E = some (σ, n) := by
      cases hpub : m.publishes E with
      | none => simp [Move.record, hpub]
      | some x =>
        obtain ⟨τ, y⟩ := x
        by_cases hσ : σ = τ
        · subst hσ
          simp [Move.record, hpub, or_comm, eq_comm]
        · have hne : τ ≠ σ := fun he => hσ he.symm
          simp [Move.record, hpub, hσ, hne]
    rw [hrec, h.published σ n]
    simp only [List.mem_append, List.mem_singleton, or_and_right, exists_or, exists_eq_left,
      or_assoc]
  · rw [hstep.fresh_iff h.inv hm, h.fresh]
    simp only [List.mem_append, List.mem_singleton, or_imp, forall_and, forall_eq]
  · intro m' hm' w hw
    obtain hm' | hm' := List.mem_append.mp hm'
    · exact (h.gave m' hm' w hw).frame hstep.moved.frame fun σ n hn => h.inv.entering m.thread n σ hn
    · obtain rfl := List.mem_singleton.mp hm'
      exact hstep.gave w hw

/-! ## The start of a run -/

/-- The last number drawn in process `g`. -/
def issued (E : Env) (g : PidT) (k : Kernel) : ℕ :=
  ((k.processOf E g).join.bind k.process).elim 0 fun q => q.lastFiberId.toNat

theorem Reached.start (hk : Reachable E k₀)
    (hnext : ∀ σ, Walk next₀ (k₀.chain σ).head? (k₀.chain σ)) :
    Reached E g k₀ (issued E g k₀) [] (.start k₀ next₀) k₀.chain (fun _ => none) [] := by
  have hinv := hk.inv
  have hnodup : ∀ σ, (k₀.chain σ).Nodup := by
    intro σ
    cases σ with
    | threads p b =>
      cases hp : k₀.process p with
      | none => simp [Kernel.chain, hp]
      | some q => simpa [Kernel.chain, hp] using (hinv.procOk hp).threadsWF.nodup b
    | fibers p b =>
      cases hp : k₀.process p with
      | none => simp [Kernel.chain, hp]
      | some q => simpa [Kernel.chain, hp] using (hinv.procOk hp).fibersWF.nodup b
  have htables : Tables E g k₀ k₀.chain (issued E g k₀) := by
    refine ⟨hinv.processesWF, hinv.processesInj, hinv.freshProcess, fun x hx => hinv.freshThread x ?_,
      fun x hx => hinv.freshFiber x ?_, fun p b t ht => ?_, fun p b f hf => ?_, fun p hp => ?_,
      fun hn => ?_⟩
    · simpa [Kernel.threadKey] using hx
    · simpa [Kernel.fiberKey] using hx
    · cases hp : k₀.process p with
      | none => simp [Kernel.chain, hp] at ht
      | some q => exact (hinv.procOk hp).threadsWF.placed (by simpa [Kernel.chain, hp] using ht)
    · cases hp : k₀.process p with
      | none => simp [Kernel.chain, hp] at hf
      | some q => exact (hinv.procOk hp).fibersWF.placed (by simpa [Kernel.chain, hp] using hf)
    · obtain ⟨q, hq, hid⟩ := Option.map_eq_some_iff.mp (HashTable.find_eq_some hp).2
      have hissued : issued E g k₀ = q.lastFiberId.toNat := by
        rw [issued, show k₀.processOf E g = some (some p) from hp]
        simp [hq]
      rw [hq, hissued, BitVec.ofNat_toNat, BitVec.setWidth_eq, Option.map_some]
      exact congrArg (fun x => some (x, q.lastFiberId)) hid
    · simp [issued, hn]
  refine ⟨⟨htables, fun σ => (hnext σ).layered (hnodup σ), hnext, fun _ => .aside .user,
    fun u n σ hn => ?_, fun u v n hn => ?_, fun _ => .idle, ?_⟩, rfl, fun σ n => by simp, ?_, by simp⟩
  · cases hn
  · cases hn
  · exact ⟨le_rfl, by simp, by simp, by simp, by simp, List.nodup_nil⟩
  · exact ⟨fun _ => by simp, fun _ => hnext⟩

theorem Reached.of_run (hk : Reachable E k₀)
    (hnext : ∀ σ, Walk next₀ (k₀.chain σ).head? (k₀.chain σ))
    (hrun : Run (System E g) (.start k₀ next₀) ms s) :
    ∃ pub held spent, Reached E g k₀ (issued E g k₀) ms s pub held spent := by
  induction hrun with
  | nil => exact ⟨_, _, _, .start hk hnext⟩
  | snoc _ hs ih =>
    obtain ⟨pub, held, spent, h⟩ := ih
    exact h.snoc hs

/-! ## Fibers are found -/

/-- The id `w` that was given leads to a fiber of the process and, if a conversion gave it,
    the thread is found. -/
def Found (E : Env) (g : PidT) (k : Kernel) (m : Move) (w : ℤ) : Prop :=
  ∃ p q id f, k.processOf E g = some (some p) ∧ k.process p = some q ∧ id.toInt = w ∧
    k.fiberOf E q id = some (some f) ∧
    (m.act = .finish .convert w → ∃ t, k.threadOf E q m.thread = some (some t))

/-- A node on the chain of its key's bucket makes the lookup of the key succeed. -/
theorem exists_find {T : Table} {hash : PidT → Bucket} {key : Ptr → Option PidT} {id : PidT}
    (hkey : ∀ x ∈ T.chain (hash id), (key x).isSome) (hn : n ∈ T.chain (hash id))
    (hid : key n = some id) : ∃ y, T.find hash key id = some (some y) := by
  rw [HashTable.find, HashTable.walk_eq_find? hkey]
  cases hf : (T.chain (hash id)).find? fun x => key x = some id with
  | none => exact absurd hid (by simpa using List.find?_eq_none.mp hf n hn)
  | some y => exact ⟨y, rfl⟩

theorem Inv.found {w : ℤ} (h : Inv E g s pub held spent lo N)
    (hall : ∀ σ, ∀ n ∈ pub σ, n ∈ s.st.chain σ) (hgave : Gave E g s.st pub m w) :
    Found E g s.st m w := by
  obtain ⟨p, f, id, hp, hid, ⟨hmem, hkey⟩, hreg⟩ := hgave
  obtain ⟨q, hq⟩ := Option.isSome_iff_exists.mp (h.tables.process_isSome hp)
  have hsub : ∀ σ, ∀ n ∈ s.st.chain σ, n ∈ pub σ := fun σ n hn =>
    ((h.layered σ).sublist (fun m hm => List.mem_of_mem_head? hm) (h.walk σ)).subset hn
  have hthreads : ∀ b, s.st.chain (.threads p b) = q.threads.chain b := fun b => by
    simp [Kernel.chain, hq]
  have hfibers : ∀ b, s.st.chain (.fibers p b) = q.fibers.chain b := fun b => by
    simp [Kernel.chain, hq]
  obtain ⟨f', hf'⟩ : ∃ f', s.st.fiberOf E q id = some (some f') := by
    refine exists_find (fun x hx => ?_) (hfibers _ ▸ hall _ f hmem) hkey
    obtain ⟨key, hx', -⟩ := h.tables.fiberAt p _ x (hsub _ x (hfibers _ ▸ hx))
    simp [hx']
  refine ⟨p, q, id, f', hp, hq, hid, hf', fun hconv => ?_⟩
  obtain ⟨t, ht, htkey⟩ := hreg hconv
  refine exists_find (fun x hx => ?_) (hthreads _ ▸ hall _ t ht) htkey
  obtain ⟨key, hx', -⟩ := h.tables.threadAt p _ x (hsub _ x (hthreads _ ▸ hx))
  simp [hx']

theorem idOf_inj {j : ℕ} (hi : i < 2 ^ 32) (hj : j < 2 ^ 32) (h : givenOf i = givenOf j) : i = j := by
  have hid := congrArg BitVec.toNat (BitVec.toInt_inj.mp h)
  rwa [idOf, idOf, BitVec.toNat_ofNat, BitVec.toNat_ofNat, Nat.mod_eq_of_lt hi,
    Nat.mod_eq_of_lt hj] at hid

/-! ## An insertion that is lost -/

/-- A statement of `Machine` with nothing in between is made by one step of the thread or
    by three. -/
theorem exists_lift (h : Inv E g s pub held spent lo N) (hidle : s.adding u = .idle)
    (hstep : (s.pc u).step E ⟨g, u⟩ s.st = some (pc', k')) :
    ∃ ms s', Run (System E g) s ms s' ∧ s'.conf = s.conf.goto u k' pc' ∧ s'.adding = s.adding := by
  cases hins : s.inserting E u with
  | none =>
    have hsys : System E g s ⟨s, u, .stmt⟩ { s with conf := s.conf.goto u k' pc' } :=
      ⟨rfl, .other .stmt _ hins ⟨pc', k', hstep, rfl⟩, by simp⟩
    exact ⟨_, _, .single hsys, rfl, rfl⟩
  | some x =>
    obtain ⟨σ, n⟩ := x
    obtain ⟨st, ss, next, hpc, hinserts⟩ := exists_run_of_inserting hins
    rw [hpc] at hstep
    obtain ⟨-, rfl, rfl⟩ := run_cons_eq_some hstep
    rw [(Stmt.inserts_apply hinserts).2]
    -- the three states on the way
    set s₁ : State := { s with adding := Function.update s.adding u (.read (s.st.chain σ).head?) }
      with hs₁
    set s₂ : State := { s₁ with
      next := Function.update s₁.next n (s.st.chain σ).head?
      adding := Function.update s₁.adding u .stored } with hs₂
    have h₁ : System E g s ⟨s, u, .stmt⟩ s₁ := ⟨rfl, .read σ n hins hidle, by simp⟩
    have h₂ : System E g s₁ ⟨s₁, u, .stmt⟩ s₂ :=
      ⟨rfl, .store σ n _ hins (Function.update_self ..), by simp⟩
    have hwalk : Walk s₂.next (s₂.next n) (s.st.chain σ) := by
      have hnext : s₂.next n = (s.st.chain σ).head? := Function.update_self ..
      have hout := h.entering u n σ (entering_of_inserting hins)
      have hold := h.walk σ
      rw [hnext, ← hold.head_eq]
      refine hold.congr fun x hx => Function.update_of_ne ?_ _ _
      rintro rfl
      exact hout (((h.layered σ).sublist (fun m hm => List.mem_of_mem_head? hm) hold).subset hx)
    have h₃ : System E g s₂ ⟨s₂, u, .stmt⟩
        { s₂.goto u (s.st.setChain σ (n :: s.st.chain σ)) (.run ss next) with
          adding := Function.update s₂.adding u .idle } :=
      ⟨rfl, .publish σ n _ st ss next hins (Function.update_self ..) hpc hwalk, by simp⟩
    refine ⟨_, _, ((Run.single h₁).snoc h₂).snoc h₃, rfl, ?_⟩
    simp [hs₂, hs₁, ← hidle]

/-- The invariant, with what it says left open. -/
def Sound (E : Env) (g : PidT) (s : State) : Prop :=
  ∃ pub held spent lo N, Inv E g s pub held spent lo N

theorem Sound.run (h : Sound E g s) (hrun : Run (System E g) s ms s') : Sound E g s' := by
  refine hrun.invariant h fun s m s' hs hstep => ?_
  obtain ⟨pub, held, spent, lo, N, hinv⟩ := hs
  obtain ⟨held', spent', N', hstepped⟩ := hinv.step hstep
  exact ⟨_, _, _, _, _, hstepped.moved.inv⟩

theorem sound_boot {cpu : Task → Cpu} : Sound E g (.start (.boot cpu) fun _ => none) :=
  ⟨_, _, _, _, _, (Reached.start (.boot cpu) fun σ => by cases σ <;> rfl).inv⟩

/-- What a thread does on its own in `Machine` it does here. -/
theorem exists_solo {x y : Pc × Kernel} (hsolo : Solo E ⟨g, u⟩ x y) (h : Sound E g s)
    (hidle : s.adding u = .idle) (hx : (s.pc u, s.st) = x) :
    ∃ ms s', Run (System E g) s ms s' ∧ s'.conf = s.conf.goto u y.2 y.1 ∧ s'.adding = s.adding := by
  induction hsolo with
  | refl =>
    subst hx
    refine ⟨[], s, .nil, ?_, rfl⟩
    simp [Conf.goto]
  | @tail y z _ hstep ih =>
    obtain ⟨ms, s₁, hrun, hconf, hadd⟩ := ih
    obtain ⟨pub, held, spent, lo, N, hinv⟩ := h.run hrun
    have hstep' : (s₁.pc u).step E ⟨g, u⟩ s₁.st = some (z.1, z.2) := by
      rw [State.pc, State.st, hconf, Conf.goto_pc, if_pos rfl, Conf.goto_st]
      exact hstep
    obtain ⟨ms', s₂, hrun', hconf', hadd'⟩ := exists_lift hinv (by rw [hadd, hidle]) hstep'
    refine ⟨_, s₂, hrun.trans hrun', ?_, hadd'.trans hadd⟩
    rw [hconf', hconf, Conf.goto_goto]

/-- What is left of a conversion once its thread record is on the table. -/
theorem solo_converted (cur : Task) {q : Process} {r : Thread} (hp : k.process p = some q)
    (ht : k.thread t = some r) : ∃ k' q', Solo E cur (.run [] (.newFiber p (.convert t)), k)
      (.ret .convert q.nextId.toInt, k') ∧ k'.processes = k.processes ∧
      (∀ x, k'.processKey x = k.processKey x) ∧ k'.process p = some q' ∧ q'.threads = q.threads ∧
      ∀ x, k'.threadKey x = k.threadKey x := by
  set f := k.nextPtr cur.tgid with hf
  set r₀ := initializedFiber E cur f (k.cpu cur) p (-1) 0 q.nextId with hr₀
  set k₁ := k.withFiber E cur p q r₀ with hk₁
  have hinit : initFiber E cur p (Maker.convert t).ss (Maker.convert t).sPtr k = some (f, k₁) :=
    initFiber_eq hp _ _
  have hfiber : k₁.fiber f = some r₀ := by simp [hk₁, Kernel.withFiber, hf]
  have hthread : k₁.thread = k.thread := rfl
  set r₁ := runAll cur (k₁.cpu cur) [.copySp, .copyBp, .countActivation, .attach (some t)] r₀ with hr₁
  set k₂ := (k₁.modFiber f fun r => runAll cur (k₁.cpu cur)
    [.copySp, .copyBp, .countActivation, .attach (some t)] r).modThread t
      fun r => { r with selectedFiber := some f } with hk₂
  have htail : execAll E cur ((Maker.convert t).tail f) k₁ = some ((), k₂) := by
    refine execAll_eq_some.mpr ⟨okAll_append.mpr ⟨okAll_assigns _ (by simp [hfiber]), ?_⟩, ?_⟩
    · simp [applyAll_assigns, okAll, ok, hthread, ht]
    · rw [Maker.tail, convertTail, applyAll_append, applyAll_assigns]
      rfl
  have hfiber₂ : k₂.fiber f = some r₁ := by simp [hk₂, hfiber, hr₁]
  set k₃ := k₂.modFiber f fun r => { r with fiberLock := true } with hk₃
  have hlock : spinTrylock f k₂ = some (true, k₃) := by
    simp only [spinTrylock, hfiber₂, Option.map_some]
    rfl
  have hread : readFiber f k₃ = some ({ r₁ with fiberLock := true }, k₃) := by
    simp [readFiber, hk₃, hfiber₂]
  refine ⟨k₃, q.withFiber E f, .head rfl (solo_init (m := .convert t) hinit htail ?_), rfl,
    fun x => ?_, ?_, rfl, fun x => ?_⟩
  · exact .head (by simp only [Maker.next, Pc.step, K.bind_apply, hlock]; rfl)
      (.head (by simp only [Pc.step, K.bind_apply, hread]; rfl) .refl)
  · simp only [Kernel.processKey, hk₃, hk₂, hk₁, Kernel.modFiber_process, Kernel.modThread_process,
      Kernel.withFiber, Function.update_apply]
    split_ifs with hx
    · subst hx
      rw [hp]
      rfl
    · rfl
  · simp [hk₃, hk₂, hk₁, Kernel.withFiber, hf]
  · simp only [Kernel.threadKey, hk₃, hk₂, Kernel.modFiber_thread, Kernel.modThread_thread, hthread]
    split_ifs with hx
    · subst hx
      rw [ht]
      rfl
    · rfl

/-- The first thread of a process, up to the insertion of its record. -/
theorem solo_first (E : Env) (g u : PidT) (cpu : Task → Cpu) : ∃ k₁ q₁,
    Solo E ⟨g, u⟩ (.findOrCreate, .boot cpu)
      (.run [addThread ⟨g, 0⟩ ⟨g, 1⟩] (.newFiber ⟨g, 0⟩ (.convert ⟨g, 1⟩)), k₁) ∧
    k₁.processOf E g = some (some ⟨g, 0⟩) ∧ k₁.process ⟨g, 0⟩ = some q₁ ∧ q₁.threads = .empty ∧
    q₁.nextId = 1 ∧ k₁.thread ⟨g, 1⟩ = some ⟨u, ⟨g, 0⟩, none⟩ ∧ k₁.nextPtr g = ⟨g, 2⟩ := by
  set kA := (Kernel.boot cpu).withProcess E ⟨g, u⟩ with hkA
  set kB : Kernel := { kA with
    brk := Function.update kA.brk g (kA.brk g + 1)
    thread := Function.update kA.thread ⟨g, 1⟩ (some ⟨u, ⟨g, 0⟩, none⟩) } with hkB
  have hproc : kA.process ⟨g, 0⟩ = some
      { processId := g, lastFiberId := 0, activeThreads := 0, threads := .empty, fibers := .empty } := by
    simp [hkA, Kernel.withProcess, Kernel.nextPtr, Kernel.boot]
  have hof : kA.processOf E g = some (some ⟨g, 0⟩) :=
    HashTable.find_add_self (show kA.processKey ⟨g, 0⟩ = some g by rw [Kernel.processKey, hproc]; rfl)
  have hfind : findOrCreateProcess E ⟨g, u⟩ (Kernel.boot cpu) = some (⟨g, 0⟩, kA) :=
    findOrCreateProcess_new rfl
  have hnone : findThreadByPid E u ⟨g, 0⟩ kA = some (none, kA) :=
    findThreadByPid_eq_some.mpr ⟨_, hproc, rfl, rfl⟩
  have halloc : allocThread ⟨g, u⟩ ⟨g, 0⟩ u kA = some (⟨g, 1⟩, kB) := by
    have hbrk : kA.brk g = 1 := by simp [hkA, Kernel.withProcess, Kernel.boot]
    simp [allocThread, kmalloc, K.bind_apply, hkB, hbrk]
    rfl
  have hinc : (incActive ⟨g, 0⟩).ok kB := by simp [ok, hkB, hproc]
  refine ⟨(incActive ⟨g, 0⟩).apply E ⟨g, u⟩ kB,
    { processId := g, lastFiberId := 0, activeThreads := 1, threads := .empty, fibers := .empty },
    ?_, ?_, ?_, rfl, rfl, ?_, ?_⟩
  · exact .head (by simp only [Pc.step, K.bind_apply, hfind]; rfl)
      (.head (by simp only [Pc.step, K.bind_apply, hnone]; rfl)
        (.head (by simp only [Pc.step, K.bind_apply, halloc]; rfl)
          (Solo.one (Pc.step_run hinc))))
  · rw [← hof]
    refine processOf_congr rfl fun x => ?_
    simp only [apply, Kernel.processKey, Kernel.modProcess_process, hkB]
    split_ifs with hx
    · subst hx
      rw [hproc]
      rfl
    · rfl
  · simp [apply, hkB, hproc]
  · simp [apply, hkB]
  · simp [apply, hkB, hkA, Kernel.nextPtr, Kernel.withProcess, Kernel.boot]

/-- A thread that is in user code goes into a call and on, alone. -/
theorem exists_enter {c : Call} {y : Pc × Kernel} (h : Sound E g s) (hidle : s.adding u = .idle)
    (hpc : s.pc u = .user) (hc : c ≠ .exit) (hsolo : Solo E ⟨g, u⟩ (.entry c, s.st) y) :
    ∃ ms s', Run (System E g) s ms s' ∧ s'.conf = s.conf.goto u y.2 y.1 ∧ s'.adding = s.adding := by
  have hins : s.inserting E u = none := by rw [State.inserting, hpc]; rfl
  have hstart : System E g s ⟨s, u, .start c⟩ (s.goto u s.st (.entry c)) :=
    ⟨rfl, .other _ _ hins ⟨hpc, rfl⟩, by simpa using hc⟩
  obtain ⟨ms, s', hrun, hconf, hadd⟩ := exists_solo hsolo (h.run (.single hstart)) hidle
    (by rw [State.goto_pc, if_pos rfl, State.goto_st])
  exact ⟨_, s', (Run.single hstart).trans hrun, hconf.trans (Conf.goto_goto ..), hadd⟩

/-- A thread inside a call goes on to its end, alone. -/
theorem exists_finish {c : Call} {w : ℤ} (h : Sound E g s) (hidle : s.adding u = .idle)
    (hc : c ≠ .exit) (hsolo : Solo E ⟨g, u⟩ (s.pc u, s.st) (.ret c w, k')) :
    ∃ ms s', Run (System E g) s ms s' ∧ (∃ m ∈ ms, m.thread = u ∧ m.act = .finish c w) ∧
      s'.conf = s.conf.goto u k' .user ∧ s'.adding = s.adding := by
  obtain ⟨ms, s₁, hrun, hconf, hadd⟩ := exists_solo hsolo h hidle rfl
  have hpc : s₁.pc u = .ret c w := by rw [State.pc, hconf, Conf.goto_pc, if_pos rfl]
  have hst : s₁.st = k' := by rw [State.st, hconf, Conf.goto_st]
  have hins : s₁.inserting E u = none := by rw [State.inserting, hpc]; rfl
  have hfinish : System E g s₁ ⟨s₁, u, .finish c w⟩ (s₁.goto u s₁.st .user) :=
    ⟨rfl, .other _ _ hins ⟨hpc, by rw [if_neg hc]⟩, by simp⟩
  refine ⟨_, _, hrun.snoc hfinish, ⟨_, List.mem_append_right _ (List.mem_singleton_self _), rfl, rfl⟩,
    ?_, hadd⟩
  rw [State.goto, hconf, hst, Conf.goto_goto]

/-- A whole call, alone. -/
theorem exists_call {c : Call} {w : ℤ} (h : Sound E g s) (hidle : s.adding u = .idle)
    (hpc : s.pc u = .user) (hc : c ≠ .exit) (hcall : c.run E ⟨g, u⟩ s.st = some (w, k')) :
    ∃ ms s', Run (System E g) s ms s' ∧ (∃ m ∈ ms, m.thread = u ∧ m.act = .finish c w) ∧
      s'.conf = s.conf.goto u k' .user ∧ s'.adding = s.adding := by
  obtain ⟨ms₁, s₁, hrun₁, hconf₁, hadd₁⟩ := exists_enter h hidle hpc hc (solo_call hcall)
  obtain ⟨ms₂, s₂, hrun₂, ⟨m, hm, hact⟩, hconf₂, hadd₂⟩ :=
    exists_finish (h.run hrun₁) (by rw [hadd₁, hidle]) hc
      (by rw [State.pc, State.st, hconf₁, Conf.goto_pc, if_pos rfl, Conf.goto_st])
  refine ⟨_, s₂, hrun₁.trans hrun₂, ⟨m, List.mem_append_right _ hm, hact⟩, ?_, hadd₂.trans hadd₁⟩
  rw [hconf₂, hconf₁, Conf.goto_goto]

/-- The first thread of a process has read the head of its bucket, which is empty. -/
theorem exists_reading (E : Env) (g u : PidT) (cpu : Task → Cpu) : ∃ k₁ q₁ ms s,
    Run (System E g) (.start (.boot cpu) fun _ => none) ms s ∧
    s.conf = (Conf.idle (.boot cpu)).goto u k₁
      (.run [addThread ⟨g, 0⟩ ⟨g, 1⟩] (.newFiber ⟨g, 0⟩ (.convert ⟨g, 1⟩))) ∧
    s.adding = Function.update (fun _ => .idle) u (.read none) ∧
    k₁.processOf E g = some (some ⟨g, 0⟩) ∧ k₁.process ⟨g, 0⟩ = some q₁ ∧ q₁.threads = .empty ∧
    q₁.nextId = 1 ∧ k₁.thread ⟨g, 1⟩ = some ⟨u, ⟨g, 0⟩, none⟩ ∧ k₁.nextPtr g = ⟨g, 2⟩ := by
  obtain ⟨k₁, q₁, hsolo, hof, hq₁, hempty, hid, ht, hptr⟩ := solo_first E g u cpu
  obtain ⟨ms, s, hrun, hconf, hadd⟩ := exists_enter (c := .convert) sound_boot rfl rfl (by simp) hsolo
  have hst : s.st = k₁ := by rw [State.st, hconf, Conf.goto_st]
  have hpc : s.pc u = .run [addThread ⟨g, 0⟩ ⟨g, 1⟩] (.newFiber ⟨g, 0⟩ (.convert ⟨g, 1⟩)) := by
    rw [State.pc, hconf, Conf.goto_pc, if_pos rfl]
  have hkey : k₁.threadKey ⟨g, 1⟩ = some u := by rw [Kernel.threadKey, ht]; rfl
  have hins : s.inserting E u = some (.threads ⟨g, 0⟩ (E.hash u), ⟨g, 1⟩) := by
    rw [State.inserting, hpc, hst]
    simp [Pc.upcoming, Stmt.inserts, hq₁, hkey]
  have hhead : (s.st.chain (.threads ⟨g, 0⟩ (E.hash u))).head? = none := by
    rw [hst]
    simp [Kernel.chain, hq₁, hempty]
  have hread : System E g s ⟨s, u, .stmt⟩ _ :=
    ⟨rfl, .read _ _ hins (show s.adding u = .idle by rw [hadd]; rfl), by simp⟩
  rw [hhead] at hread
  refine ⟨k₁, q₁, _, _, hrun.snoc hread, hconf, ?_, hof, hq₁, hempty, hid, ht, hptr⟩
  rw [hadd]
  rfl

/-- A converting thread that has read the head of an empty bucket overwrites what was put
    there meanwhile, and its conversion goes on. -/
theorem exists_overwriting {q : Process} {r : Thread} (h : Sound E g s)
    (hpc : s.pc u = .run [addThread p t] (.newFiber p (.convert t)))
    (hadd : s.adding u = .read none) (hq : s.st.process p = some q) (ht : s.st.thread t = some r) :
    ∃ ms s' q', Run (System E g) s ms s' ∧
      (∀ x, s'.pc x = if x = u then .user else s.pc x) ∧ s'.st.processes = s.st.processes ∧
      (∀ x, s'.st.processKey x = s.st.processKey x) ∧ s'.st.process p = some q' ∧
      q'.threads = q.threads.setChain (E.hash r.threadId) [t] ∧
      ∀ x, s'.st.threadKey x = s.st.threadKey x := by
  have hins : s.inserting E u = some (.threads p (E.hash r.threadId), t) := by
    rw [State.inserting, hpc]
    simp [Pc.upcoming, Stmt.inserts, hq, Kernel.threadKey, ht]
  -- the pointer is stored and the head overwritten
  set s₁ : State := { s with
    next := Function.update s.next t none
    adding := Function.update s.adding u .stored } with hs₁
  have h₁ : System E g s ⟨s, u, .stmt⟩ s₁ := ⟨rfl, .store _ _ _ hins hadd, by simp⟩
  have hwalk : Walk s₁.next (s₁.next t) [] := Function.update_self ..
  set k₂ := s.st.setChain (.threads p (E.hash r.threadId)) [t] with hk₂
  set s₂ : State := { s₁.goto u k₂ (.run [] (.newFiber p (.convert t))) with
    adding := Function.update s₁.adding u .idle } with hs₂
  have h₂ : System E g s₁ ⟨s₁, u, .stmt⟩ s₂ :=
    ⟨rfl, .publish _ _ _ _ _ _ hins (Function.update_self ..) hpc hwalk, by simp⟩
  have hrun₂ := (Run.single h₁).snoc h₂
  have hpc₂ : ∀ x, s₂.pc x = if x = u then .run [] (.newFiber p (.convert t)) else s.pc x :=
    State.goto_pc s₁ u k₂ _
  have hq₂ : k₂.process p = some { q with threads := q.threads.setChain (E.hash r.threadId) [t] } := by
    simp [hk₂, Kernel.setChain, hq]
  -- what is left of the conversion
  obtain ⟨k₃, q₃, hsolo, hps, hkey, hq₃, hthreads, hthreadKey⟩ :=
    solo_converted ⟨g, u⟩ hq₂ (show k₂.thread t = some r from ht)
  obtain ⟨ms, s₃, hrun₃, -, hconf₃, -⟩ := exists_finish (c := .convert) (h.run hrun₂)
    (Function.update_self ..) (by simp) (by rw [hpc₂, if_pos rfl]; exact hsolo)
  have hst₃ : s₃.st = k₃ := by rw [State.st, hconf₃, Conf.goto_st]
  refine ⟨_, s₃, q₃, hrun₂.trans hrun₃, fun x => ?_, by rw [hst₃, hps]; rfl, fun x => ?_,
    by rw [hst₃, hq₃], hthreads, fun x => by rw [hst₃, hthreadKey]; rfl⟩
  · rw [State.pc, hconf₃, Conf.goto_pc]
    split_ifs with hx
    · rfl
    · exact (hpc₂ x).trans (if_neg hx)
  · rw [hst₃, hkey]
    simp only [Kernel.processKey, hk₂, Kernel.setChain, Kernel.modProcess_process]
    split_ifs with hx
    · rw [hx, hq]
      rfl
    · rfl

/-- Two threads whose pids fall into one bucket convert themselves, and `v` makes its whole
    conversion while `u` is about to overwrite the head: `v` has its id, but its record is
    not found any more. -/
theorem exists_lost_insertion (E : Env) (g : PidT) {u v : PidT} (huv : u ≠ v)
    (hhash : E.hash u = E.hash v) (cpu : Task → Cpu) : ∃ ms s p q,
    Run (System E g) (.start (.boot cpu) fun _ => none) ms s ∧ s.conf.quiet ∧
    (∃ m ∈ ms, m.thread = v ∧ m.act = .finish .convert 1) ∧
    s.st.processOf E g = some (some p) ∧ s.st.process p = some q ∧
    s.st.threadOf E q v = some none := by
  obtain ⟨k₁, q₁, ms₁, s₁, hrun₁, hconf₁, hadd₁, hof, hq₁, hempty, hid, ht, hptr⟩ :=
    exists_reading E g u cpu
  have hst₁ : s₁.st = k₁ := by rw [State.st, hconf₁, Conf.goto_st]
  -- `v` converts itself
  have hconvert : Call.run E ⟨g, v⟩ .convert k₁ = some (1, k₁.converted E ⟨g, v⟩ ⟨g, 0⟩ q₁) := by
    have hno : k₁.threadOf E q₁ v = some none := by rw [Kernel.threadOf, hempty]; rfl
    have hfound : findOrCreateProcess E ⟨g, v⟩ k₁ = some (⟨g, 0⟩, k₁) := findOrCreateProcess_found hof
    have hrun := doConvertThreadToFiber_new hfound hq₁ hno
    rwa [hid] at hrun
  obtain ⟨ms₂, s₂, hrun₂, ⟨m, hm, hact⟩, hconf₂, hadd₂⟩ :=
    exists_call (c := .convert) (u := v) (sound_boot.run hrun₁)
      (by rw [hadd₁]; exact Function.update_of_ne huv.symm _ _)
      (by rw [State.pc, hconf₁, Conf.goto_pc, if_neg huv.symm]; rfl) (by simp) (by rw [hst₁, hconvert])
  have hst₂ : s₂.st = k₁.converted E ⟨g, v⟩ ⟨g, 0⟩ q₁ := by rw [State.st, hconf₂, Conf.goto_st]
  have hpc₂ : ∀ x, x ≠ u → s₂.pc x = .user := by
    intro x hx
    rw [State.pc, hconf₂, Conf.goto_pc, hconf₁, Conf.goto_pc, if_neg hx]
    exact ite_self _
  have hq₂ : s₂.st.process ⟨g, 0⟩ =
      some ((q₁.withThread E v ⟨g, 2⟩).withFiber E ⟨g, k₁.brk g + 1⟩) := by
    rw [hst₂]
    simp [Kernel.converted, hptr]
  have ht₂ : s₂.st.thread ⟨g, 1⟩ = some ⟨u, ⟨g, 0⟩, none⟩ := by
    rw [hst₂]
    simp [Kernel.converted, hptr, ht]
  -- `u` overwrites the head
  obtain ⟨ms₃, s₃, q₃, hrun₃, hpc₃, hps, hkey, hq₃, hthreads, hthreadKey⟩ :=
    exists_overwriting (sound_boot.run (hrun₁.trans hrun₂))
      (by rw [State.pc, hconf₂, Conf.goto_pc, if_neg huv, hconf₁, Conf.goto_pc, if_pos rfl])
      (by rw [hadd₂, hadd₁]; exact Function.update_self ..) hq₂ ht₂
  refine ⟨_, s₃, ⟨g, 0⟩, q₃, (hrun₁.trans hrun₂).trans hrun₃, fun x => .inl ?_,
    ⟨m, by simp [hm], hact⟩, ?_, hq₃, ?_⟩
  · rw [← State.pc, hpc₃]
    split_ifs with hx
    · rfl
    · exact hpc₂ x hx
  · rw [processOf_congr hps hkey, hst₂, ← hof]
    refine processOf_congr rfl fun x => ?_
    by_cases hx : x = ⟨g, 0⟩
    · rw [hx, Kernel.processKey, ← hst₂, hq₂, Kernel.processKey, hq₁]
      rfl
    · simp [Kernel.processKey, Kernel.converted, hx]
  · rw [Kernel.threadOf, HashTable.find, hthreads, HashTable.chain_setChain, if_pos hhash.symm]
    have hkey₃ : s₃.st.threadKey ⟨g, 1⟩ = some u := by
      rw [hthreadKey, Kernel.threadKey, ht₂]
      rfl
    simp [HashTable.walk, hkey₃, huv]

/-! ## The result -/

/-- In every run of threads of a process that does not lose one: each node that was on a
    chain at the start or was put there since is still on it exactly if no head was
    overwritten that was not the one read before. Then every id that was given leads to a
    fiber, and every thread that was given one is found. In any case there is one process
    record at most, and while the counter of ids does not wrap no id is given twice. -/
theorem insertions_survive (E : Env) (g : PidT) (k₀ : Kernel) (next₀ : Ptr → Option Ptr)
    (hk : Reachable E k₀) (hnext : ∀ σ, Walk next₀ (k₀.chain σ).head? (k₀.chain σ))
    (ms : List Move) (s : State) (hrun : Run (System E g) (.start k₀ next₀) ms s) :
    ((∀ σ n, (n ∈ k₀.chain σ ∨ ∃ m ∈ ms, m.publishes E = some (σ, n)) → n ∈ s.st.chain σ) ↔
      ∀ m ∈ ms, ¬ m.Stale E) ∧
    ((∀ m ∈ ms, ¬ m.Stale E) → ∀ m ∈ ms, ∀ w, gives m.act = some w → Found E g s.st m w) ∧
    (∀ p ∈ s.st.processes, ∀ p' ∈ s.st.processes, s.st.processKey p = some g →
      s.st.processKey p' = some g → p = p') ∧
    (issued E g k₀ + ms.countP Move.draws < 2 ^ 32 →
      (ms.filterMap fun m => gives m.act).Nodup) := by
  obtain ⟨pub, held, spent, h⟩ := Reached.of_run hk hnext hrun
  have hlisted : (∀ σ, ∀ n ∈ pub σ, n ∈ s.st.chain σ) ↔ ∀ m ∈ ms, ¬ m.Stale E :=
    (forall_congr' fun σ => (h.inv.layered σ).listed_iff (h.inv.walk σ)).trans h.fresh
  refine ⟨?_, fun hfresh m hm w hw => ?_, fun p hp p' hp' hg hg' => ?_, fun hlt => ?_⟩
  · rw [← hlisted]
    exact forall_congr' fun σ => forall_congr' fun n => by rw [h.published σ n]
  · exact h.inv.found (hlisted.mpr hfresh) (h.gave m hm w hw)
  · exact h.inv.tables.processesInj p hp p' hp' (hg.trans hg'.symm)
  · rw [h.ids]
    refine h.inv.numbers.nodup.map_on fun i hi j hj hij => ?_
    have hi := h.inv.numbers.spentRange i hi
    have hj := h.inv.numbers.spentRange j hj
    exact idOf_inj (by omega) (by omega) hij

/-- Threads 6 and 616 of process 6 fall into one bucket: in such a run a head write is stale,
    and the ids are distinct all the same. -/
theorem insertions_survive_colliding : ∃ ms s,
    Run (System (.linux 240) 6) (.start (.boot fun _ => .zero) fun _ => none) ms s ∧
    (∃ m ∈ ms, m.Stale (.linux 240)) ∧
    (ms.countP Move.draws < 2 ^ 32 → (ms.filterMap fun m => gives m.act).Nodup) := by
  obtain ⟨ms, s, p, q, hrun, -, ⟨m, hm, hv, hact⟩, hp, hq, hlost⟩ :=
    exists_lost_insertion (.linux 240) 6 (u := 6) (v := 616) (by decide) (by decide) fun _ => .zero
  obtain ⟨-, hfound, -, hids⟩ := insertions_survive (.linux 240) 6 (.boot fun _ => .zero)
    (fun _ => none) (.boot _) (fun σ => by cases σ <;> rfl) ms s hrun
  have hissued : issued (.linux 240) 6 (.boot fun _ => .zero) = 0 := rfl
  refine ⟨ms, s, hrun, ?_, fun hlt => hids (by rwa [hissued, Nat.zero_add])⟩
  by_contra hstale
  push Not at hstale
  obtain ⟨p', q', id, f, hp', hq', -, -, hthread⟩ := hfound hstale m hm 1 (by rw [hact]; rfl)
  obtain ⟨t, ht⟩ := hthread hact
  obtain rfl : p = p' := Option.some.inj (Option.some.inj (hp.symm.trans hp'))
  obtain rfl : q = q' := Option.some.inj (hq.symm.trans hq')
  rw [hv, hlost] at ht
  cases ht

end AosvFibers.Insertion
