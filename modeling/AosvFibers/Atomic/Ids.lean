import AosvFibers.Atomic.Context
import AosvFibers.Atomic.Isolation
import AosvFibers.Atomic.Switch

/-!
# Fiber ids

`init_fiber` numbers the fibers of a process record by a counter of the record.
`returnedIds` reads off a history which ids the conversions and creations of
one record returned, and the record is compared with that list: as long as it
is shorter than 2^31 it is 1, 2, 3, … up to the counter, and the fibers of the
table carry exactly these ids (`Numbered`).

The id, the name, the start address and the creator of a fiber (`identity`) are
written before `init_fiber` returns and never again.

Result: `fiber_ids_dense_fresh_permanent`.
-/

namespace AosvFibers

open Lib

variable {E : Env} {cur : Task} {k k' : Kernel} {pp : Ptr} {p p' : Process}

/-! ## Ids returned for one record -/

/-- The id an event returned for a new fiber of the process record at `pp`. -/
def Event.returned (E : Env) (pp : Ptr) (e : Event) : Option ℤ :=
  match e.op with
  | .call cur .convert | .call cur (.create _ _ _ _) =>
    if e.result ≠ -1 ∧ e.post.processOf E cur.tgid = some (some pp) then some e.result else none
  | _ => none

/-- The ids returned for new fibers of the record at `pp`, first id first. -/
def returnedIds (E : Env) (pp : Ptr) (es : List Event) : List ℤ := es.filterMap (Event.returned E pp)

theorem returnedIds_snoc (es : List Event) (e : Event) :
    returnedIds E pp (es ++ [e]) = returnedIds E pp es ++ (e.returned E pp).toList := by
  simp only [returnedIds, List.filterMap_append]
  cases h : e.returned E pp <;> simp [h]

/-- What a step does to the ids of the record at `pp`: nothing, one more fiber
    under the next id, or the record is new. -/
inductive IdChange (E : Env) (k k' : Kernel) (pp : Ptr) (p' : Process) (out : Option ℤ) : Prop
  | kept (p : Process) (h : k.process pp = some p) (hfibers : p'.fibers = p.fibers)
      (hlast : p'.lastFiberId = p.lastFiberId) (hout : out = none)
  | grown (p : Process) (f : Ptr) (h : k.process pp = some p)
      (hfibers : p'.fibers = p.fibers.add (E.hash p.nextId) f)
      (hlast : p'.lastFiberId = p.lastFiberId + 1) (hnew : f ∉ p.fibers)
      (hkey : k'.fiberKey f = some p.nextId)
      (hout : out = if p.nextId.toInt = -1 then none else some p.nextId.toInt)
  | born (f : Ptr) (hnew : k.brk pp.tgid ≤ pp.serial)
      (hfibers : p'.fibers = HashTable.empty.add (E.hash 1) f) (hlast : p'.lastFiberId = 1)
      (hkey : k'.fiberKey f = some 1) (hout : out = some 1)

theorem Outcome.idChange {op : Op} {res : ℤ} (hk : Inv E k) (hk' : Inv E k')
    (h : Outcome E k op res k') (hx : k'.process pp = some p') :
    IdChange E k k' pp p' (Event.returned E pp ⟨k, op, res, k'⟩) := by
  -- the caller's own record is not `pp`
  have hother : ∀ (cur : Task) {ep : Ptr} {q : Process}, k'.process ep = some q →
      ep.tgid = cur.tgid → pp ≠ ep → k'.processOf E cur.tgid ≠ some (some pp) := by
    intro cur ep q hq hep hne hpp
    rw [hk'.processOf_iff.mpr ⟨hep, by simp [hq]⟩] at hpp
    simp only [Option.some.injEq] at hpp
    exact hne hpp.symm
  cases h with
  | @refused cur c hn hc => exact .kept p' hx rfl rfl (by cases c <;> simp [Event.returned, Call.refused])
  | again | switchMissing | releaseNone | user | switchBusy | switched =>
    exact .kept p' hx rfl rfl (by simp [Event.returned])
  | @fls cur ep tp f p t r c hr hc =>
    exact .kept p' hx rfl rfl (by cases c <;> simp_all [Event.returned, Call.isFls])
  | @convertedFirst cur hn =>
    by_cases hxe : pp = k.nextPtr cur.tgid
    · subst hxe
      have hout := hk'.processOf_iff (g := cur.tgid).mpr ⟨rfl, by rw [hx]; rfl⟩
      obtain rfl : _ = p' := by simpa [Kernel.converted] using hx
      refine .born ⟨cur.tgid, k.brk cur.tgid + 1 + 1⟩ le_rfl ?_ ?_ ?_ ?_
      · simp [Process.withFiber, Process.withThread, Process.nextId, Kernel.withProcess]
      · simp [Process.withFiber, Process.withThread]
      · simp [Kernel.fiberKey, Kernel.converted, Kernel.withProcess, convertedFiber,
          initializedFiber, Process.nextId]
      · exact if_pos ⟨show (1 : ℤ) ≠ -1 by decide, hout⟩
    · have hne := hother cur (by simp [Kernel.converted]; rfl) rfl hxe
      refine .kept p' (by simpa [Kernel.converted, Kernel.withProcess, hxe] using hx) rfl rfl ?_
      exact if_neg fun h => hne h.2
  | @converted cur ep p hep hp ht =>
    have htgid := (hk.processOf_iff.mp hep).1
    by_cases hxe : pp = ep
    · subst hxe
      have hout := hk'.processOf_iff.mpr ⟨htgid, by rw [hx]; rfl⟩
      have hok := (hk.toShape.processOf_found hep hp).2.1
      obtain rfl : _ = p' := by simpa [Kernel.converted] using hx
      refine .grown p ⟨cur.tgid, k.brk cur.tgid + 1⟩ hp rfl rfl
        (hok.fresh_not_mem_fibers hk.toShape (Nat.le_succ _)) ?_ ?_
      · simp [Kernel.fiberKey, Kernel.converted, convertedFiber, initializedFiber]
      · by_cases hneg : p.nextId.toInt = -1 <;> simp [Event.returned, hout, hneg]
    · have hne := hother cur (by simp [Kernel.converted]; rfl) htgid hxe
      refine .kept p' (by simpa [Kernel.converted, hxe] using hx) rfl rfl ?_
      exact if_neg fun h => hne h.2
  | @created cur ep tp f p t r sp sz fn arg hr =>
    have htgid := (hk.processOf_iff.mp hr.process).1
    by_cases hxe : pp = ep
    · subst hxe
      have hout := hk'.processOf_iff.mpr ⟨htgid, by rw [hx]; rfl⟩
      obtain rfl : _ = p' := by simpa [Kernel.created, Kernel.withFiber] using hx
      refine .grown p (k.nextPtr cur.tgid) hr.process_eq rfl rfl
        (hr.procOk.fresh_not_mem_fibers hk.toShape le_rfl) ?_ ?_
      · simp [Kernel.fiberKey, Kernel.created, Kernel.withFiber, createdFiber, initializedFiber]
      · by_cases hneg : p.nextId.toInt = -1 <;> simp [Event.returned, hout, hneg]
    · have hne := hother cur (by simp [Kernel.created, Kernel.withFiber]; rfl) htgid hxe
      refine .kept p' (by simpa [Kernel.created, Kernel.withFiber, hxe] using hx) rfl rfl ?_
      exact if_neg fun h => hne h.2
  | @detached cur ep tp f p t r hr hact =>
    by_cases hxe : pp = ep
    · subst hxe
      obtain rfl : _ = p' := by simpa [Kernel.detached] using hx
      exact .kept p hr.process_eq rfl rfl rfl
    · exact .kept p' (by simpa [Kernel.detached, hxe] using hx) rfl rfl rfl
  | @lastExit cur ep tp f p t r hr hact =>
    have hxe : pp ≠ ep := by rintro rfl; simp [Kernel.toreDown] at hx
    exact .kept p' (by simpa [Kernel.toreDown, hxe] using hx) rfl rfl rfl
  | @released cur ep p hep hp =>
    have hxe : pp ≠ ep := by rintro rfl; simp [Kernel.toreDown] at hx
    exact .kept p' (by simpa [Kernel.toreDown, hxe] using hx) rfl rfl rfl

/-- A record that was there before has kept its fibers. -/
theorem Outcome.fibers_subset {op : Op} {res : ℤ} (hk : Inv E k) (h : Outcome E k op res k')
    (hp' : k'.process pp = some p') (hlt : pp.serial < k.brk pp.tgid) :
    ∃ p, k.process pp = some p ∧ ∀ f ∈ p.fibers, f ∈ p'.fibers := by
  have hchange := h.idChange hk (hk.step h) hp'
  cases hchange with
  | kept p hp hfibers => exact ⟨p, hp, fun f hf => by rwa [hfibers]⟩
  | grown p x hp hfibers =>
    exact ⟨p, hp, fun f hf => by rw [hfibers]; exact HashTable.mem_add.mpr (.inr hf)⟩
  | born x hnew => omega

/-- The fibers a record keeps over a step keep their ids. -/
theorem Outcome.fiberKey_of_subset {op : Op} {res : ℤ} (hk : Inv E k) (h : Outcome E k op res k')
    (hp : k.process pp = some p) (hp' : k'.process pp = some p') (hsub : ∀ f ∈ p.fibers, f ∈ p'.fibers) :
    ∀ f ∈ p.fibers, k'.fiberKey f = k.fiberKey f := by
  intro f hf
  have hk' := hk.step h
  obtain ⟨r, hr⟩ := (hk.procOk hp).fiber_exists hf
  obtain ⟨r', hr'⟩ :=
    (hk'.procOk hp').fiber_exists (hsub f hf)
  exact h.fiberKey_eq hk.toShape (by simp [hr]) (by simp [hr'])

/-! ## Numbered tables -/

theorem toInt_ofNat_of_lt {i : ℕ} (h : i < 2 ^ 31) : (BitVec.ofNat 32 i).toInt = i := by
  rw [BitVec.toInt_eq_toNat_cond, BitVec.toNat_ofNat]
  split_ifs <;> omega

/-- The fibers of `p` carry the ids 1, …, `n`, one each. -/
structure Numbered (k : Kernel) (p : Process) (n : ℕ) : Prop where
  last : p.lastFiberId.toNat = n
  inj : p.fibers.InjKeys k.fiberKey
  range : ∀ f ∈ p.fibers, ∃ i, 1 ≤ i ∧ i ≤ n ∧ k.fiberKey f = some (BitVec.ofNat 32 i)
  onto : ∀ i, 1 ≤ i → i ≤ n → ∃ f ∈ p.fibers, k.fiberKey f = some (BitVec.ofNat 32 i)

namespace Numbered

variable {n : ℕ} {f : Ptr}

theorem kept (h : Numbered k p n) (hfibers : p'.fibers = p.fibers)
    (hlast : p'.lastFiberId = p.lastFiberId) (hkey : ∀ f ∈ p.fibers, k'.fiberKey f = k.fiberKey f) :
    Numbered k' p' n := by
  refine ⟨by rw [hlast, h.last], ?_, ?_, ?_⟩
  · rw [hfibers]
    exact h.inj.congr hkey
  · rw [hfibers]
    intro f hf
    rw [hkey f hf]
    exact h.range f hf
  · intro i h1 hi
    obtain ⟨f, hf, hi⟩ := h.onto i h1 hi
    exact ⟨f, by rwa [hfibers], by rw [hkey f hf, hi]⟩

theorem nextId_eq (h : Numbered k p n) : p.nextId = BitVec.ofNat 32 (n + 1) := by
  rw [p.nextId_eq, h.last]

theorem grown (h : Numbered k p n) (hn : n < 2 ^ 32)
    (hfibers : p'.fibers = p.fibers.add (E.hash p.nextId) f)
    (hlast : p'.lastFiberId = p.lastFiberId + 1) (hkey : ∀ f ∈ p.fibers, k'.fiberKey f = k.fiberKey f)
    (hnew : k'.fiberKey f = some p.nextId) : Numbered k' p' (n + 1) := by
  have hlt : p.lastFiberId.toNat < 2 ^ 32 := by rw [h.last]; omega
  refine ⟨?_, ?_, ?_, ?_⟩
  · rw [hlast, BitVec.toNat_add, show (1 : Word).toNat = 1 from rfl, h.last]
    omega
  · rw [hfibers]
    refine (h.inj.congr hkey).add hnew fun y hy => ?_
    obtain ⟨i, h1, hi, hy'⟩ := h.range y hy
    rw [hkey y hy, hy']
    simpa using nextId_ne hlt h1 (by rw [h.last]; exact hi)
  · rw [hfibers]
    intro x hx
    rcases HashTable.mem_add.mp hx with rfl | hx
    · exact ⟨n + 1, by omega, le_rfl, by rw [hnew, h.nextId_eq]⟩
    · obtain ⟨i, h1, hi, hx'⟩ := h.range x hx
      exact ⟨i, h1, by omega, by rw [hkey x hx, hx']⟩
  · intro i h1 hi
    rw [hfibers]
    by_cases hin : i ≤ n
    · obtain ⟨x, hx, hx'⟩ := h.onto i h1 hin
      exact ⟨x, HashTable.mem_add.mpr (.inr hx), by rw [hkey x hx, hx']⟩
    · obtain rfl : i = n + 1 := by omega
      exact ⟨f, HashTable.mem_add.mpr (.inl rfl), by rw [hnew, h.nextId_eq]⟩

theorem born (hfibers : p'.fibers = HashTable.empty.add (E.hash 1) f) (hlast : p'.lastFiberId = 1)
    (hkey : k'.fiberKey f = some 1) : Numbered k' p' 1 := by
  have hmem : ∀ x, x ∈ p'.fibers ↔ x = f := fun x => by
    rw [hfibers, HashTable.mem_add]
    simp
  refine ⟨by rw [hlast]; rfl, ?_, ?_, ?_⟩
  · intro x hx y hy _
    rw [(hmem x).mp hx, (hmem y).mp hy]
  · intro x hx
    rw [(hmem x).mp hx]
    exact ⟨1, le_rfl, le_rfl, hkey⟩
  · intro i h1 hi
    obtain rfl : i = 1 := by omega
    exact ⟨f, (hmem f).mpr rfl, hkey⟩

end Numbered

/-! ## The table of a reachable process -/

/-- The record's counter counts the fibers of its table, and as long as these
    are fewer than 2^32 they carry the ids from 1 on. -/
def Counted (k : Kernel) (p : Process) : Prop :=
  p.lastFiberId = BitVec.ofNat 64 p.fibers.size ∧ (p.fibers.size < 2 ^ 32 → Numbered k p p.fibers.size)

theorem Counted.step {op : Op} {res : ℤ} (hk : Inv E k)
    (hold : ∀ pp p, k.process pp = some p → Counted k p) (h : Outcome E k op res k')
    (hp' : k'.process pp = some p') : Counted k' p' := by
  have hchange := h.idChange hk (hk.step h) hp'
  cases hchange with
  | kept p hp hfibers hlast _ =>
    obtain ⟨hc, hnum⟩ := hold pp p hp
    have hkey := h.fiberKey_of_subset hk hp hp' fun f hf => by rwa [hfibers]
    unfold Counted
    rw [hfibers, hlast]
    exact ⟨hc, fun hlt => (hnum hlt).kept hfibers hlast hkey⟩
  | grown p f hp hfibers hlast hnew hfkey _ =>
    obtain ⟨hc, hnum⟩ := hold pp p hp
    have hkey := h.fiberKey_of_subset hk hp hp' fun f hf => by
      rw [hfibers]
      exact HashTable.mem_add.mpr (.inr hf)
    have hsize : p'.fibers.size = p.fibers.size + 1 := by rw [hfibers, HashTable.size_add]
    unfold Counted
    rw [hsize]
    refine ⟨?_, fun hlt => (hnum (by omega)).grown (by omega) hfibers hlast hkey hfkey⟩
    rw [hlast, hc, BitVec.ofNat_add]
    rfl
  | born f _ hfibers hlast hfkey _ =>
    have hsize : p'.fibers.size = 1 := by rw [hfibers, HashTable.size_add, HashTable.size_empty]
    unfold Counted
    rw [hsize]
    exact ⟨hlast, fun _ => .born hfibers hlast hfkey⟩

theorem Reachable.counted (h : Reachable E k) (hp : k.process pp = some p) : Counted k p := by
  have hall : Inv E k ∧ ∀ pp p, k.process pp = some p → Counted k p := by
    refine h.invariant (I := fun k => Inv E k ∧ ∀ pp p, k.process pp = some p → Counted k p) ?_ ?_
    · intro cpu
      refine ⟨.boot cpu, ?_⟩
      intro pp p hp
      simp [Kernel.boot] at hp
    · intro k op r k' hk hrun
      have hout := hk.1.toShape.outcome_of_run hrun
      exact ⟨hk.1.step hout, fun pp p hp => .step hk.1 hk.2 hout hp⟩
  exact hall.2 pp p hp

/-! ## Along a history -/

/-- Nothing was returned for a record that does not exist yet. -/
theorem History.returnedIds_unborn {cpu : Task → Cpu} {es : List Event} (h : History E cpu es k)
    (hpp : k.brk pp.tgid ≤ pp.serial) : returnedIds E pp es = [] := by
  induction h with
  | nil => rfl
  | @snoc es k₁ k₂ e hist hs ih =>
    obtain ⟨rfl, rfl, hrun⟩ := hs
    have hinv := (History.reachable hist).inv
    have hout := hinv.toShape.outcome_of_run hrun
    have hinv' := hinv.step hout
    rw [returnedIds_snoc, ih ((hout.brk_le pp.tgid).trans hpp)]
    have hnot : ∀ g, e.post.processOf E g ≠ some (some pp) := fun g hg => by
      have := hinv'.freshProcess pp (hinv'.processOf_iff.mp hg).2
      omega
    have hnone : e.returned E pp = none := by
      simp only [Event.returned, hnot, and_false, if_false]
      split <;> rfl
    rw [hnone]
    rfl

/-- The ids returned so far for an existing record, and its table. -/
theorem History.numbered {cpu : Task → Cpu} {es : List Event} (h : History E cpu es k)
    (hp : k.process pp = some p) (hlt : (returnedIds E pp es).length < 2 ^ 31) :
    Numbered k p (returnedIds E pp es).length ∧
      returnedIds E pp es = (List.range (returnedIds E pp es).length).map fun i : ℕ => (i : ℤ) + 1 := by
  induction h generalizing p with
  | nil => simp [Kernel.boot] at hp
  | @snoc es k₁ k₂ e hist hs ih =>
    obtain ⟨rfl, rfl, hrun⟩ := hs
    have hinv := (History.reachable hist).inv
    have hout := hinv.toShape.outcome_of_run hrun
    have hinv' := hinv.step hout
    rw [returnedIds_snoc] at hlt ⊢
    have hkey : ∀ q, e.pre.process pp = some q → (∀ f ∈ q.fibers, f ∈ p.fibers) →
        ∀ f ∈ q.fibers, e.post.fiberKey f = e.pre.fiberKey f :=
      fun q hq hsub => hout.fiberKey_of_subset hinv hq hp hsub
    have hchange : IdChange E e.pre e.post pp p (e.returned E pp) := hout.idChange hinv hinv' hp
    cases hchange with
    | kept q hq hfibers hlast hnone =>
      rw [hnone, Option.toList_none, List.append_nil] at hlt ⊢
      obtain ⟨hnum, hids⟩ := ih hq hlt
      exact ⟨hnum.kept hfibers hlast (hkey q hq fun f hf => by rwa [hfibers]), hids⟩
    | grown q f hq hfibers hlast hnew hfkey hret =>
      have hlen : (returnedIds E pp es).length < 2 ^ 31 := by
        rw [List.length_append] at hlt
        omega
      obtain ⟨hnum, hids⟩ := ih hq hlen
      set n := (returnedIds E pp es).length with hn
      have hnat : q.nextId.toNat = n + 1 := by
        rw [hnum.nextId_eq, BitVec.toNat_ofNat]
        omega
      have hint := BitVec.toInt_eq_toNat_cond q.nextId
      have hne : q.nextId.toInt ≠ -1 := by
        rw [hint, hnat]
        split_ifs <;> omega
      rw [hret, if_neg hne, Option.toList_some] at hlt ⊢
      rw [List.length_append, List.length_singleton, ← hn] at hlt ⊢
      have hid : q.nextId.toInt = n + 1 := by
        rw [hint, hnat, if_pos (by omega)]
        rfl
      refine ⟨hnum.grown (by omega) hfibers hlast (hkey q hq fun f hf => ?_) hfkey, ?_⟩
      · rw [hfibers]
        exact HashTable.mem_add.mpr (.inr hf)
      · rw [List.range_succ, List.map_append, ← hids, hid]
        rfl
    | born f hunborn hfibers hlast hfkey hret =>
      rw [hret, History.returnedIds_unborn hist hunborn]
      exact ⟨.born hfibers hlast hfkey, rfl⟩

/-! ## Permanence -/

/-- What `init_fiber` and its callers write once: the id, the name, the start
    address and the creator. -/
def Fiber.identity (r : Fiber) : PidT × String × Word × PidT :=
  (r.fiberId, r.name, r.startAddress, r.creatorThread)

theorem FiberChange.identity_eq {op : Op} {res : ℤ} {x : Ptr} {r r' : Fiber} (hk : Shape E k)
    (h : FiberChange E k x op res r') (hr : k.fiber x = some r) : r'.identity = r.identity := by
  have hlt := hk.freshFiber x (by simp [hr])
  cases h with
  | same hold =>
    obtain rfl : r = r' := by simpa [hr] using hold
    rfl
  | bumped hold | left _ hold | taken _ hold | orphaned _ hold =>
    obtain rfl : r = _ := by simpa [hr] using hold
    rfl
  | @fls cur c r₀ hrun hold hc =>
    obtain rfl : r = r₀ := by simpa [hr] using hold
    obtain ⟨bitmap, values, he⟩ := flsEffect_eq c r
    rw [he]
    rfl
  | converted hnew | created hnew => omega

/-- The record at `pp` has been there since `k₀`, and every fiber of then is
    still in its table, with its identity. -/
def Permanent (pp : Ptr) (k₀ k : Kernel) (p : Process) : Prop :=
  ∀ p₀, k₀.process pp = some p₀ → ∀ f ∈ p₀.fibers, ∀ r₀, k₀.fiber f = some r₀ →
    f ∈ p.fibers ∧ ∃ r, k.fiber f = some r ∧ r.identity = r₀.identity

theorem observed_single {o : Op} {res : ℤ} (hs : o.run E k = some (res, k')) :
    Run (Observed E) k [⟨k, o, res, k'⟩] k' :=
  .single ⟨rfl, rfl, hs⟩

theorem permanent_run {k₀ : Kernel} {p₀ : Process} {es : List Event} (hinv : Inv E k₀)
    (hp₀ : k₀.process pp = some p₀) (h : Run (Observed E) k₀ es k) (hp : k.process pp = some p) :
    Inv E k ∧ Permanent pp k₀ k p := by
  have hborn := hinv.freshProcess pp (by simp [hp₀])
  suffices hall : Inv E k ∧ k₀.brk pp.tgid ≤ k.brk pp.tgid ∧
      ∀ p, k.process pp = some p → Permanent pp k₀ k p from ⟨hall.1, hall.2.2 p hp⟩
  clear hp
  induction h with
  | nil =>
    refine ⟨hinv, le_rfl, fun p hp p₁ hp₁ f hf r₀ hr₀ => ?_⟩
    obtain rfl : p₁ = p := by simpa [hp₁] using hp
    exact ⟨hf, r₀, hr₀, rfl⟩
  | @snoc es k₁ k₂ e _ hs ih =>
    obtain ⟨rfl, rfl, hrun⟩ := hs
    obtain ⟨hinv₁, hbrk, hperm⟩ := ih
    have hout := hinv₁.toShape.outcome_of_run hrun
    have hinv₂ := hinv₁.step hout
    refine ⟨hinv₂, hbrk.trans (hout.brk_le _), fun p hp p₁ hp₁ f hf r₀ hr₀ => ?_⟩
    obtain ⟨q, hq, hsub⟩ := hout.fibers_subset hinv₁ hp (by omega)
    obtain ⟨hfq, r, hr, hid⟩ := hperm q hq p₁ hp₁ f hf r₀ hr₀
    obtain ⟨r', hr'⟩ :=
      (hinv₂.procOk hp).fiber_exists (hsub f hfq)
    exact ⟨hsub f hfq, r', hr', ((hout.fiberChange hr').identity_eq hinv₁.toShape hr).trans hid⟩

/-- Let a record have seen fewer than 2^31 creations. Its fibers carry the ids
    1, …, `last_fiber_id`, one each; the ids returned for it grew with every
    creation; and every fiber it had at any earlier moment is still there under
    its id, with its name, start address and creator, and is what
    `find_fiber_by_id` finds, then and now. -/
theorem fiber_ids_dense_fresh_permanent {cpu : Task → Cpu} {es₀ es₁ : List Event} {k₀ : Kernel}
    (h₀ : History E cpu es₀ k₀) (h : Run (Observed E) k₀ es₁ k) (hp : k.process pp = some p)
    (hcount : (returnedIds E pp (es₀ ++ es₁)).length < 2 ^ 31) :
    (∀ f ∈ p.fibers, ∃ r, k.fiber f = some r ∧
      1 ≤ r.fiberId.toInt ∧ r.fiberId.toInt ≤ p.lastFiberId.toNat) ∧
    (∀ i : ℤ, 1 ≤ i → i ≤ p.lastFiberId.toNat →
      ∃! f, f ∈ p.fibers ∧ ∃ r, k.fiber f = some r ∧ r.fiberId.toInt = i) ∧
    (returnedIds E pp (es₀ ++ es₁)).Pairwise (· < ·) ∧
    ∀ p₀, k₀.process pp = some p₀ → ∀ f ∈ p₀.fibers, ∀ r₀, k₀.fiber f = some r₀ →
      f ∈ p.fibers ∧ (∃ r, k.fiber f = some r ∧ r.identity = r₀.identity) ∧
      k₀.fiberOf E p₀ r₀.fiberId = some (some f) ∧ k.fiberOf E p r₀.fiberId = some (some f) := by
  have hist : History E cpu (es₀ ++ es₁) k := Run.trans h₀ h
  have hinv := hist.reachable.inv
  have hok := hinv.procOk hp
  obtain ⟨hnum, hids⟩ := hist.numbered hp hcount
  set n := (returnedIds E pp (es₀ ++ es₁)).length with hn
  refine ⟨fun f hf => ?_, fun i h1 hi => ?_, ?_, fun p₀ hp₀ f hf r₀ hr₀ => ?_⟩
  · obtain ⟨i, h1, hi, hkey⟩ := hnum.range f hf
    obtain ⟨r, hr, hid⟩ := Option.map_eq_some_iff.mp hkey
    refine ⟨r, hr, ?_⟩
    rw [hid, toInt_ofNat_of_lt (by omega), hnum.last]
    omega
  · rw [hnum.last] at hi
    obtain ⟨f, hf, hkey⟩ := hnum.onto i.toNat (by omega) (by omega)
    obtain ⟨r, hr, hid⟩ := Option.map_eq_some_iff.mp hkey
    have hint : r.fiberId.toInt = i := by
      rw [hid, toInt_ofNat_of_lt (by omega)]
      omega
    refine ⟨f, ⟨hf, r, hr, hint⟩, ?_⟩
    rintro f' ⟨hf', r', hr', hint'⟩
    refine hnum.inj f' hf' f hf ?_
    simp [Kernel.fiberKey, hr, hr', BitVec.toInt_inj.mp (hint'.trans hint.symm)]
  · rw [hids, List.pairwise_map]
    exact List.pairwise_lt_range.imp fun hlt => by omega
  · have hinv₀ := h₀.reachable.inv
    have hok₀ := hinv₀.procOk hp₀
    obtain ⟨hfp, r, hr, hid⟩ := (permanent_run hinv₀ hp₀ h hp).2 p₀ hp₀ f hf r₀ hr₀
    have hlen : (returnedIds E pp es₀).length < 2 ^ 31 := by
      have : returnedIds E pp (es₀ ++ es₁) = returnedIds E pp es₀ ++ returnedIds E pp es₁ :=
        List.filterMap_append
      rw [hn, this, List.length_append] at hcount
      omega
    have hrid : r.fiberId = r₀.fiberId := congrArg Prod.fst hid
    refine ⟨hfp, ⟨r, hr, hid⟩, ?_, ?_⟩
    · exact (h₀.numbered hp₀ hlen).1.inj.find_of_mem hok₀.fibersWF hf (by simp [Kernel.fiberKey, hr₀])
    · exact hnum.inj.find_of_mem hok.fibersWF hfp (by simp [Kernel.fiberKey, hr, hrid])

/-- A converted thread creates a fiber: the two fibers have the ids 1 and 2, the
    first one still under its id. -/
theorem fiber_ids_firstFiber : ∃ es₀ es₁ k₀ k p,
    History (.linux 240) (fun _ => .zero) es₀ k₀ ∧ Run (Observed (.linux 240)) k₀ es₁ k ∧
      k.process ⟨7, 0⟩ = some p ∧ (returnedIds (.linux 240) ⟨7, 0⟩ (es₀ ++ es₁)).length < 2 ^ 31 ∧
      (returnedIds (.linux 240) ⟨7, 0⟩ (es₀ ++ es₁)).Pairwise (· < ·) := by
  have hcaller := firstConverted_caller (.linux 240) ⟨7, 7⟩ fun _ => .zero
  have hconv : (Op.call ⟨7, 7⟩ .convert).run (.linux 240) (Kernel.boot fun _ => .zero) = _ :=
    firstConverted_run (.linux 240) ⟨7, 7⟩ fun _ => .zero
  have hcreate : (Op.call ⟨7, 7⟩ (.create 4096 64 17 5)).run (.linux 240) _ = _ :=
    doCreateFiber_eq hcaller 4096 64 17 5
  have h₀ := History.step .nil hconv
  have h := observed_single hcreate
  have hlen : ∀ e e', (returnedIds (.linux 240) ⟨7, 0⟩ (([] ++ [e]) ++ [e'])).length < 2 ^ 31 :=
    fun e e' => lt_of_le_of_lt (List.length_filterMap_le _ _) (by simp)
  have hp : (Kernel.created (.linux 240) _ ⟨7, 7⟩ ⟨7, 0⟩ _ 4096 64 17 5).process ⟨7, 0⟩ = some _ :=
    hcaller.created.process_eq
  exact ⟨_, _, _, _, _, h₀, h, hp, hlen _ _,
    (fiber_ids_dense_fresh_permanent h₀ h hp (hlen _ _)).2.2.1⟩

end AosvFibers
