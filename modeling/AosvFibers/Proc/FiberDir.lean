import Mathlib
import AosvFibers.Atomic.Ids
import AosvFibers.Proc.Pident

/-!
# Listing `/proc/<pid>/fibers`

`proc_fiber_base_readdir` builds an array with one entry for each fiber of the
process, in the order in which `hash_for_each_rcu` meets them, and lists it with
`proc_pident_readdir`. The array is built anew for every call, and a call goes
on at the index where the last one stopped.

A reachable table of a process has one fiber for each id from 1 to
`last_fiber_id` (`Reachable.counted`), so the array is filled exactly. A fiber
created between two calls shifts the entries behind its place, the head of its
bucket. `InOrder` says that this place is not before the entries already handed
out, and `fiber_listing_exact` that a listing during which this holds shows
every old fiber once.
-/

namespace AosvFibers

open Lib

variable (reclen : String → ℕ) (E : Env) {cur : Task} {k k' : Kernel} {pp : Ptr} {p p' : Process}

/-! ## The array of entries -/

/-- The names of the fibers in a list. -/
def fiberNames : List Ptr → K (List String)
  | [] => return []
  | f :: fs => do
    let r ← readFiber f
    return r.name :: (← fiberNames fs)

/-- `fiber_base_stuff` filled with `names`; the other entries are zeroed. -/
def fiberBaseStuff (names : List String) (i : ℤ) : String := names.getD i.toNat ""

/-- `proc_fiber_base_readdir` (module/proc.c:5-42) on a directory of process
    `tgid`. `nents` is an `unsigned long` passed on as an `unsigned int`. -/
def procFiberBaseReaddir (tgid : PidT) (ctx : DirContext) : K DirContext := do
  match ← findProcessByTgid E tgid with
  | none => return ctx
  | some ep =>
    let nents := (← readProcess ep).lastFiberId
    let names ← fiberNames (hashForEach (← readProcess ep).fibers)
    return (procPidentReaddir reclen (fiberBaseStuff names) 0 (nents.setWidth 32) ctx).1

/-- The name a fiber's entry carries. -/
def Kernel.nameOf (k : Kernel) (f : Ptr) : String := ((k.fiber f).map Fiber.name).getD ""

/-- The names in the array for process `p`. -/
def Kernel.entries (k : Kernel) (p : Process) : List String := (hashForEach p.fibers).map k.nameOf

variable {reclen E}

theorem fiberNames_eq {fs : List Ptr} (h : ∀ f ∈ fs, (k.fiber f).isSome) :
    fiberNames fs k = some (fs.map k.nameOf, k) := by
  induction fs with
  | nil => rfl
  | cons f fs ih =>
    obtain ⟨r, hr⟩ := Option.isSome_iff_exists.mp (h f (by simp))
    have hname : k.nameOf f = r.name := by simp [Kernel.nameOf, hr]
    rw [fiberNames, K.bind_eq_some]
    refine ⟨r, k, by simp [hr], ?_⟩
    rw [K.bind_eq_some]
    exact ⟨_, k, ih fun x hx => h x (by simp [hx]), by simp [hname]⟩

theorem entryNames_fiberBaseStuff (names : List String) :
    entryNames (fiberBaseStuff names) 0 names.length = names := by
  apply List.ext_getElem
  · simp
  · intro i _ hi
    simp [entryNames, fiberBaseStuff, hi]

/-! ## The order of the entries -/

/-- How many nodes `hash_for_each` meets before the bucket `b`. -/
def entriesBefore (T : Table) (b : Bucket) : ℕ :=
  (((List.finRange hSz).take b).flatMap T.chain).length

theorem hashForEach_add (T : Table) (b : Bucket) (x : Ptr) : hashForEach (T.add b x) =
    (hashForEach T).take (entriesBefore T b) ++ x :: (hashForEach T).drop (entriesBefore T b) := by
  have hsplit : List.finRange hSz =
      (List.finRange hSz).take b ++ b :: (List.finRange hSz).drop (b + 1) := by
    conv_lhs => rw [← List.take_append_drop b (List.finRange hSz)]
    congr 1
    rw [List.drop_eq_getElem_cons (by simp)]
    simp
  have hnodup := List.nodup_finRange hSz
  rw [hsplit, List.nodup_append, List.nodup_cons] at hnodup
  have hbefore : b ∉ (List.finRange hSz).take b :=
    fun hb => hnodup.2.2 b hb b (by simp) rfl
  have hwhole : hashForEach T = ((List.finRange hSz).take b).flatMap T.chain ++
      (b :: (List.finRange hSz).drop (b + 1)).flatMap T.chain := by
    unfold hashForEach
    conv_lhs => rw [hsplit]
    rw [List.flatMap_append]
  have hadd : hashForEach (T.add b x) = ((List.finRange hSz).take b).flatMap T.chain ++
      x :: (b :: (List.finRange hSz).drop (b + 1)).flatMap T.chain := by
    unfold hashForEach
    conv_lhs => rw [hsplit]
    exact HashTable.flatMap_chain_add hbefore hnodup.2.1.1
  rw [hadd, hwhole]
  unfold entriesBefore
  rw [List.take_left, List.drop_left]

/-! ## The names of a reachable process -/

/-- Every fiber is named after its id. -/
theorem Reachable.named (h : Reachable E k) :
    ∀ f r, k.fiber f = some r → r.name = toString r.fiberId.toInt := by
  have hall : Inv E k ∧ ∀ f r, k.fiber f = some r → r.name = toString r.fiberId.toInt := by
    refine h.invariant
      (I := fun k => Inv E k ∧ ∀ f r, k.fiber f = some r → r.name = toString r.fiberId.toInt) ?_ ?_
    · intro cpu
      refine ⟨.boot cpu, ?_⟩
      intro f r hr
      simp [Kernel.boot] at hr
    · intro k op res k' hk hrun
      have hout := hk.1.toShape.outcome_of_run hrun
      refine ⟨hk.1.step hout, ?_⟩
      intro f r' hr'
      have hchange := hout.fiberChange hr'
      cases hf : k.fiber f with
      | some r =>
        have hid := hchange.identity_eq hk.1.toShape hf
        have hfid : r'.fiberId = r.fiberId := congrArg Prod.fst hid
        have hname : r'.name = r.name := congrArg (fun x => x.2.1) hid
        rw [hname, hfid]
        exact hk.2 f r hf
      | none =>
        cases hchange with
        | same hold | bumped hold | left _ hold | taken _ hold | orphaned _ hold | fls _ hold =>
          rw [hf] at hold
          cases hold
        | converted | created => rfl
  exact hall.2

theorem dot_not_mem_toString (i : ℤ) : '.' ∉ (toString i).toList := by
  intro h
  have hrepr : (toString i).toList = i.repr.toList := rfl
  rw [hrepr, Int.repr_eq_if] at h
  split at h
  · have hmem : '.' ∈ Nat.toDigits 10 i.toNat := by simpa using h
    exact absurd (Nat.isDigit_of_mem_toDigits (by omega) (by omega) hmem) (by decide)
  · have hmem : '.' ∈ Nat.toDigits 10 (-i).toNat := by simpa using h
    exact absurd (Nat.isDigit_of_mem_toDigits (by omega) (by omega) hmem) (by decide)

/-- The listing of a process with fewer than 2^32 fibers repeats no name. -/
theorem Reachable.nodup_dirListing (h : Reachable E k) (hp : k.process pp = some p)
    (hlt : p.fibers.size < 2 ^ 32) : (dirListing (k.entries p)).Nodup := by
  have hinv := h.inv
  have hok := hinv.procOk hp
  have hnum := (h.counted hp).2 hlt
  have hname : ∀ f ∈ hashForEach p.fibers, ∃ r, k.fiber f = some r ∧
      k.nameOf f = toString r.fiberId.toInt := by
    intro f hf
    obtain ⟨r, hr⟩ := hok.fiber_exists (mem_hashForEach.mp hf)
    refine ⟨r, hr, ?_⟩
    rw [← h.named f r hr]
    simp [Kernel.nameOf, hr]
  have hdots : ∀ s ∈ k.entries p, '.' ∉ s.toList := by
    intro s hs
    obtain ⟨f, hf, rfl⟩ := List.mem_map.mp hs
    obtain ⟨r, -, hr⟩ := hname f hf
    rw [hr]
    exact dot_not_mem_toString _
  have hentries : (k.entries p).Nodup := by
    refine List.Nodup.map_on ?_ ?_
    · intro f hf g hg heq
      obtain ⟨r, hr, hfr⟩ := hname f hf
      obtain ⟨r', hr', hgr⟩ := hname g hg
      rw [hfr, hgr] at heq
      have hid : r.fiberId = r'.fiberId := BitVec.toInt_inj.mp (Int.repr_injective heq)
      refine hnum.inj f (mem_hashForEach.mp hf) g (mem_hashForEach.mp hg) ?_
      simp [Kernel.fiberKey, hr, hr', hid]
    · exact nodup_hashForEach hok.fibersWF
  unfold dirListing
  rw [List.nodup_cons, List.nodup_cons]
  refine ⟨?_, ?_, hentries⟩
  · intro hmem
    obtain h0 | hmem := List.mem_cons.mp hmem
    · exact absurd h0 (by decide)
    · exact hdots _ hmem (by decide)
  · intro hmem
    exact hdots _ hmem (by decide)

/-! ## What a step does to the array -/

/-- The step does not take away the record of process `tgid`. -/
def Op.keepsProcess (tgid : PidT) : Op → Prop
  | .call cur .exit | .release cur => cur.tgid ≠ tgid
  | _ => True

/-- The step makes a new fiber in the process `p` at `pp`. -/
def Op.creates (E : Env) (k : Kernel) (pp : Ptr) (p : Process) : Op → Prop
  | .call cur .convert =>
    k.processOf E cur.tgid = some (some pp) ∧ k.threadOf E p cur.pid = some none
  | .call cur (.create _ _ _ _) =>
    k.processOf E cur.tgid = some (some pp) ∧ ∃ tp, k.threadOf E p cur.pid = some (some tp)
  | _ => False

section

variable {op : Op} {res : ℤ}

theorem Outcome.process_of_keeps (hk : Inv E k) (h : Outcome E k op res k')
    (hp : k.process pp = some p) (hkeep : op.keepsProcess pp.tgid) : ∃ p', k'.process pp = some p' := by
  have hne : ∀ (cur : Task) {ep : Ptr}, k.processOf E cur.tgid = some (some ep) →
      cur.tgid ≠ pp.tgid → pp ≠ ep := by
    intro cur ep hep htgid heq
    rw [← (hk.processOf_iff.mp hep).1, heq] at htgid
    exact htgid rfl
  cases h with
  | refused | again | switchMissing | releaseNone | user | switchBusy | switched | fls =>
    exact ⟨p, hp⟩
  | convertedFirst | converted | created | detached =>
    simp only [Kernel.converted, Kernel.created, Kernel.withFiber, Kernel.detached,
      Kernel.withProcess, Function.update_apply]
    split_ifs
    all_goals exact ⟨_, by first | rfl | exact hp⟩
  | @lastExit cur ep tp f q t r hr hact =>
    exact ⟨p, by simp [Kernel.toreDown, hne cur hr.process hkeep, hp]⟩
  | @released cur ep q hep hq =>
    exact ⟨p, by simp [Kernel.toreDown, hne cur hep hkeep, hp]⟩

/-- Where a record's table has changed, a fiber was made in it. -/
theorem Outcome.creates_of_ne (h : Outcome E k op res k') (hk : Inv E k)
    (hp : k.process pp = some p) (hp' : k'.process pp = some p') (hne : p'.fibers ≠ p.fibers) :
    op.creates E k pp p := by
  have hsame : k'.process pp = k.process pp → False := by
    intro heq
    rw [hp', hp] at heq
    exact hne (by rw [Option.some.inj heq])
  cases h with
  | refused | again | switchMissing | releaseNone | user | switchBusy | switched | fls =>
    exact (hsame rfl).elim
  | @convertedFirst cur hn =>
    have hpp : pp ≠ k.nextPtr cur.tgid := by
      intro heq
      have hfresh := hk.freshProcess pp (by simp [hp])
      rw [heq] at hfresh
      simp [Kernel.nextPtr] at hfresh
    exact (hsame (by simp [Kernel.converted, Kernel.withProcess, hpp])).elim
  | @converted cur ep q hep hq ht =>
    by_cases heq : pp = ep
    · subst heq
      obtain rfl : p = q := by simpa [hp] using hq
      exact ⟨hep, ht⟩
    · exact (hsame (by simp [Kernel.converted, heq])).elim
  | @created cur ep tp f q t r sp sz fn arg hr =>
    by_cases heq : pp = ep
    · subst heq
      obtain rfl : p = q := by simpa [hp] using hr.process_eq
      exact ⟨hr.process, tp, hr.thread⟩
    · exact (hsame (by simp [Kernel.created, Kernel.withFiber, heq])).elim
  | @detached cur ep tp f q t r hr hact =>
    by_cases heq : pp = ep
    · subst heq
      obtain rfl : p = q := by simpa [hp] using hr.process_eq
      obtain rfl : _ = p' := by simpa [Kernel.detached] using hp'
      exact (hne rfl).elim
    · exact (hsame (by simp [Kernel.detached, heq])).elim
  | @lastExit cur ep tp f q t r hr hact =>
    have heq : pp ≠ ep := by rintro rfl; simp [Kernel.toreDown] at hp'
    exact (hsame (by simp [Kernel.toreDown, heq])).elim
  | @released cur ep q hep hq =>
    have heq : pp ≠ ep := by rintro rfl; simp [Kernel.toreDown] at hp'
    exact (hsame (by simp [Kernel.toreDown, heq])).elim

theorem Outcome.nameOf_eq (hk : Inv E k) (h : Outcome E k op res k') {f : Ptr}
    (hf : (k.fiber f).isSome) (hf' : (k'.fiber f).isSome) : k'.nameOf f = k.nameOf f := by
  obtain ⟨r, hr⟩ := Option.isSome_iff_exists.mp hf
  obtain ⟨r', hr'⟩ := Option.isSome_iff_exists.mp hf'
  have hid := (h.fiberChange hr').identity_eq hk.toShape hr
  have hname : r'.name = r.name := congrArg (fun x => x.2.1) hid
  simp [Kernel.nameOf, hr, hr', hname]

/-- A step leaves the array of a record as it is, or makes a fiber and puts its
    name where the bucket of the next id begins. -/
theorem Outcome.entries (hk : Inv E k) (h : Outcome E k op res k')
    (hp : k.process pp = some p) (hp' : k'.process pp = some p') :
    (∀ f ∈ p.fibers, f ∈ p'.fibers ∧ k'.nameOf f = k.nameOf f) ∧
    (k'.entries p' = k.entries p ∨ op.creates E k pp p ∧ ∃ s, k'.entries p' =
      (k.entries p).take (entriesBefore p.fibers (E.hash p.nextId)) ++
        s :: (k.entries p).drop (entriesBefore p.fibers (E.hash p.nextId))) := by
  have hk' := hk.step h
  have hok := hk.procOk hp
  have hok' := hk'.procOk hp'
  obtain ⟨q, hq, hsub⟩ := h.fibers_subset hk hp' (hk.freshProcess pp (by simp [hp]))
  obtain rfl : p = q := by simpa [hp] using hq
  have hname : ∀ f ∈ p.fibers, k'.nameOf f = k.nameOf f := by
    intro f hf
    obtain ⟨r, hr⟩ := hok.fiber_exists hf
    obtain ⟨r', hr'⟩ := hok'.fiber_exists (hsub f hf)
    exact h.nameOf_eq hk (by simp [hr]) (by simp [hr'])
  have hnames : (hashForEach p.fibers).map k'.nameOf = k.entries p :=
    List.map_congr_left fun f hf => hname f (mem_hashForEach.mp hf)
  refine ⟨fun f hf => ⟨hsub f hf, hname f hf⟩, ?_⟩
  have hchange := h.idChange hk hk' hp'
  cases hchange with
  | kept q hq hfibers _ _ =>
    obtain rfl : p = q := by simpa [hp] using hq
    left
    unfold Kernel.entries
    rw [hfibers]
    exact hnames
  | grown q f hq hfibers _ hnew _ _ =>
    obtain rfl : p = q := by simpa [hp] using hq
    right
    have hne : p'.fibers ≠ p.fibers := by
      intro heq
      exact hnew (heq ▸ hfibers ▸ HashTable.mem_add.mpr (.inl rfl))
    refine ⟨h.creates_of_ne hk hp hp' hne, k'.nameOf f, ?_⟩
    have hentries : k'.entries p' = (hashForEach p'.fibers).map k'.nameOf := rfl
    rw [hentries, hfibers, hashForEach_add, List.map_append, List.map_cons, List.map_take,
      List.map_drop, hnames]
  | born f hunborn =>
    have := hk.freshProcess pp (by simp [hp])
    omega

end

/-! ## Listing in pieces -/

/-- The module and one open directory `/proc/<pid>/fibers` with its position. -/
structure FiberDir where
  kernel : Kernel
  pos : ℕ

/-- A step of the module, or a `getdents` on the directory. -/
inductive FiberDirOp
  | call (op : Op)
  | getdents (capacity : ℕ)

/-- One step with the state before it, the names it handed out and whether an
    entry did not fit. -/
structure FiberDirEvent where
  pre : FiberDir
  op : FiberDirOp
  names : List String
  full : Bool

/-- `getdents` on the directory of process `tgid`. -/
def FiberDir.getdents (reclen : String → ℕ) (E : Env) (tgid : PidT) (s : FiberDir) (capacity : ℕ) :
    Option (FiberDirEvent × FiberDir) := do
  let (ctx, kernel) ← procFiberBaseReaddir reclen E tgid ⟨s.pos, capacity, [], false⟩ s.kernel
  return (⟨s, .getdents capacity, ctx.out, ctx.full⟩, ⟨kernel, ctx.pos⟩)

/-- One step: of the module, as long as the process record stays, or of the
    reader. -/
def FiberDirStep (reclen : String → ℕ) (E : Env) (tgid : PidT) (s : FiberDir) (e : FiberDirEvent)
    (s' : FiberDir) : Prop :=
  match e.op with
  | .call op => e = ⟨s, .call op, [], false⟩ ∧ op.keepsProcess tgid ∧
      ∃ r k', op.run E s.kernel = some (r, k') ∧ s' = { s with kernel := k' }
  | .getdents capacity => s.getdents reclen E tgid capacity = some (e, s')

/-- The concatenated output of the calls. -/
def output (es : List FiberDirEvent) : List String := es.flatMap FiberDirEvent.names

/-- The call ends the listing: nothing came out, and not for lack of room. -/
def FiberDirEvent.completes (e : FiberDirEvent) : Prop :=
  (∃ capacity, e.op = .getdents capacity) ∧ e.names = [] ∧ e.full = false

/-- The condition on a step. A new fiber's entry does not come before entries
    that were handed out already, and a call finds so few fibers that the number
    of positions fits into the 32 bits of `proc_pident_readdir`. -/
def FiberDirEvent.InOrder (E : Env) (tgid : PidT) (e : FiberDirEvent) : Prop :=
  ∀ pp p, e.pre.kernel.processOf E tgid = some (some pp) → e.pre.kernel.process pp = some p →
    match e.op with
    | .call op => op.creates E e.pre.kernel pp p →
        e.pre.pos ≤ 2 + entriesBefore p.fibers (E.hash p.nextId)
    | .getdents _ => p.fibers.size + 2 < 2 ^ 32

section

variable {tgid : PidT} {s s' : FiberDir} {e : FiberDirEvent} {es : List FiberDirEvent}

@[simp] theorem output_nil : output [] = [] := rfl

theorem output_snoc (es : List FiberDirEvent) (e : FiberDirEvent) :
    output (es ++ [e]) = output es ++ e.names := by
  simp [output]

/-- One call emits a page of the listing. -/
theorem procFiberBaseReaddir_eq (hk : Reachable E k) (hpp : k.processOf E tgid = some (some pp))
    (hp : k.process pp = some p) (hsize : p.fibers.size + 2 < 2 ^ 32) (ctx : DirContext) :
    procFiberBaseReaddir reclen E tgid ctx k =
      some (ctx.page reclen ((dirListing (k.entries p)).drop ctx.pos), k) := by
  have hinv := hk.inv
  have hok := hinv.procOk hp
  have hnames : fiberNames (hashForEach p.fibers) k = some (k.entries p, k) := by
    refine fiberNames_eq ?_
    intro f hf
    obtain ⟨r, hr⟩ := hok.fiber_exists (mem_hashForEach.mp hf)
    simp [hr]
  have hlen : (k.entries p).length = p.fibers.size := by
    unfold Kernel.entries
    rw [List.length_map, length_hashForEach]
  have hnents : (p.lastFiberId.setWidth 32).toNat = (k.entries p).length := by
    rw [hlen, (hk.counted hp).1, BitVec.toNat_setWidth, BitVec.toNat_ofNat]
    omega
  have hpage : (procPidentReaddir reclen (fiberBaseStuff (k.entries p)) 0
      (p.lastFiberId.setWidth 32) ctx).1 =
        ctx.page reclen ((dirListing (k.entries p)).drop ctx.pos) := by
    rw [procPidentReaddir_fst (by omega), hnents, entryNames_fiberBaseStuff]
  rw [← hpage]
  unfold procFiberBaseReaddir
  simp only [K.bind_eq_some, findProcessByTgid_eq_some]
  refine ⟨_, _, ⟨hpp, rfl⟩, ?_⟩
  simp only [K.bind_eq_some, readProcess_eq_some]
  exact ⟨p, k, ⟨hp, rfl⟩, p, k, ⟨hp, rfl⟩, _, _, hnames, rfl⟩

/-- An entry put in behind the first `n` positions leaves these as they are. -/
theorem take_dirListing_insert {l : List String} {n i : ℕ} {a : String} (hn : n ≤ 2 + i)
    (hlen : n ≤ l.length + 2) :
    (dirListing (l.take i ++ a :: l.drop i)).take n = (dirListing l).take n := by
  obtain hlt | ⟨m, rfl⟩ : n < 2 ∨ ∃ m, n = m + 2 := by
    by_cases h : n < 2
    · exact .inl h
    · exact .inr ⟨n - 2, by omega⟩
  · obtain rfl | rfl : n = 0 ∨ n = 1 := by omega
    · rfl
    · rfl
  · unfold dirListing
    rw [List.take_succ_cons, List.take_succ_cons, List.take_succ_cons, List.take_succ_cons,
      List.take_append_of_le_length (by rw [List.length_take]; omega), List.take_take,
      Nat.min_eq_left (by omega)]

/-- What a listing that began with the process `p₀` in state `k₀` has handed out
    so far. -/
structure Listing (E : Env) (tgid : PidT) (pp : Ptr) (k₀ : Kernel) (p₀ : Process)
    (es : List FiberDirEvent) (s : FiberDir) (p : Process) : Prop where
  reachable : Reachable E s.kernel
  found : s.kernel.processOf E tgid = some (some pp)
  process : s.kernel.process pp = some p
  pos_le : s.pos ≤ (s.kernel.entries p).length + 2
  handedOut : output es = (dirListing (s.kernel.entries p)).take s.pos
  nodup : (output es).Nodup
  old : ∀ f ∈ p₀.fibers, f ∈ p.fibers ∧ s.kernel.nameOf f = k₀.nameOf f

namespace Listing

variable {k₀ : Kernel} {p₀ : Process} {capacity : ℕ}

/-- A step of the module. -/
theorem call (h : Listing E tgid pp k₀ p₀ es s p) {op : Op} {r : ℤ} {k' : Kernel}
    (hkeep : op.keepsProcess tgid) (hrun : op.run E s.kernel = some (r, k'))
    (hord : FiberDirEvent.InOrder E tgid ⟨s, .call op, [], false⟩) :
    ∃ p', Listing E tgid pp k₀ p₀ (es ++ [⟨s, .call op, [], false⟩]) { s with kernel := k' } p' := by
  have hinv := h.reachable.inv
  have hout := hinv.toShape.outcome_of_run hrun
  obtain ⟨htgid, -⟩ := hinv.processOf_iff.mp h.found
  obtain ⟨p', hp'⟩ := hout.process_of_keeps hinv h.process (htgid ▸ hkeep)
  obtain ⟨hold, hentries⟩ := hout.entries hinv h.process hp'
  have hsame : output (es ++ [⟨s, .call op, [], false⟩]) = output es := by
    rw [output_snoc, List.append_nil]
  have hlist : s.pos ≤ (k'.entries p').length + 2 ∧ (dirListing (k'.entries p')).take s.pos =
      (dirListing (s.kernel.entries p)).take s.pos := by
    obtain heq | ⟨hcreates, a, heq⟩ := hentries
    · rw [heq]
      exact ⟨h.pos_le, rfl⟩
    · rw [heq]
      have hpos := h.pos_le
      refine ⟨?_, take_dirListing_insert (hord pp p h.found h.process hcreates) hpos⟩
      simp only [List.length_append, List.length_take, List.length_cons, List.length_drop]
      omega
  refine ⟨p', h.reachable.step hrun, ?_, hp', hlist.1, ?_, ?_, ?_⟩
  · exact (hinv.step hout).processOf_iff.mpr ⟨htgid, by rw [hp']; rfl⟩
  · rw [hsame, h.handedOut, hlist.2]
  · rw [hsame]
    exact h.nodup
  · intro f hf
    obtain ⟨hfp, hname⟩ := h.old f hf
    obtain ⟨hfp', hname'⟩ := hold f hfp
    exact ⟨hfp', hname'.trans hname⟩

/-- A call of the reader. -/
theorem page (h : Listing E tgid pp k₀ p₀ es s p)
    (hs : s.getdents reclen E tgid capacity = some (e, s'))
    (hsize : p.fibers.size + 2 < 2 ^ 32) : Listing E tgid pp k₀ p₀ (es ++ [e]) s' p ∧
      (e.names = [] → e.full = false → s'.pos = (s'.kernel.entries p).length + 2) := by
  have hread : procFiberBaseReaddir reclen E tgid ⟨s.pos, capacity, [], false⟩ s.kernel = _ :=
    procFiberBaseReaddir_eq h.reachable h.found h.process hsize ⟨s.pos, capacity, [], false⟩
  unfold FiberDir.getdents at hs
  rw [hread] at hs
  obtain ⟨rfl, rfl⟩ : _ = e ∧ _ = s' := by simpa using hs
  have hpos := h.pos_le
  have hnodup := h.reachable.nodup_dirListing h.process (by omega)
  have hlen : (takeFits reclen capacity ((dirListing (s.kernel.entries p)).drop s.pos)).length ≤
      (s.kernel.entries p).length + 2 - s.pos := by
    simpa using length_takeFits_le capacity ((dirListing (s.kernel.entries p)).drop s.pos)
  have hout : output (es ++ [⟨s, .getdents capacity,
      (DirContext.page reclen ⟨s.pos, capacity, [], false⟩
        ((dirListing (s.kernel.entries p)).drop s.pos)).out,
      (DirContext.page reclen ⟨s.pos, capacity, [], false⟩
        ((dirListing (s.kernel.entries p)).drop s.pos)).full⟩]) =
      (dirListing (s.kernel.entries p)).take (s.pos +
        (takeFits reclen capacity ((dirListing (s.kernel.entries p)).drop s.pos)).length) := by
    rw [output_snoc, h.handedOut]
    exact take_append_takeFits _ _ _
  refine ⟨⟨h.reachable, h.found, h.process, ?_, hout, ?_, h.old⟩, ?_⟩
  · show s.pos + (takeFits reclen capacity _).length ≤ (s.kernel.entries p).length + 2
    omega
  · rw [hout]
    exact hnodup.sublist (List.take_sublist _ _)
  · intro hnil hfull
    have htake : takeFits reclen capacity ((dirListing (s.kernel.entries p)).drop s.pos) = [] := by
      simpa [DirContext.page] using hnil
    have hfits : ¬ capacity < totalCost reclen ((dirListing (s.kernel.entries p)).drop s.pos) := by
      simpa [DirContext.page] using hfull
    rw [← length_takeFits_lt_iff, htake, List.length_drop, length_dirListing] at hfits
    simp only [List.length_nil] at hfits
    show s.pos + (takeFits reclen capacity ((dirListing (s.kernel.entries p)).drop s.pos)).length =
      (s.kernel.entries p).length + 2
    rw [htake, List.length_nil]
    omega

end Listing

/-- Every listing during whose steps the condition holds. -/
theorem Listing.of_run {s₀ : FiberDir} {p₀ : Process} (hreach : Reachable E s₀.kernel)
    (hpos : s₀.pos = 0) (hpp : s₀.kernel.processOf E tgid = some (some pp))
    (hp : s₀.kernel.process pp = some p₀) (h : Run (FiberDirStep reclen E tgid) s₀ es s)
    (hord : ∀ e ∈ es, e.InOrder E tgid) : ∃ p, Listing E tgid pp s₀.kernel p₀ es s p ∧
      ∀ es₁ e, es = es₁ ++ [e] → e.completes → s.pos = (s.kernel.entries p).length + 2 := by
  induction h with
  | nil =>
    refine ⟨p₀, ⟨hreach, hpp, hp, by omega, by rw [hpos]; rfl, List.nodup_nil,
      fun f hf => ⟨hf, rfl⟩⟩, ?_⟩
    intro es₁ e hes
    simp at hes
  | @snoc es s₁ s₂ e _ hs ih =>
    obtain ⟨p, hlist, -⟩ := ih fun e' he' => hord e' (by simp [he'])
    have horde := hord e (by simp)
    unfold FiberDirStep at hs
    split at hs
    next op hop =>
      obtain ⟨rfl, hkeep, r, k', hrun, rfl⟩ := hs
      obtain ⟨p', hlist'⟩ := hlist.call hkeep hrun horde
      refine ⟨p', hlist', ?_⟩
      intro es₁ e hes hdone
      obtain ⟨-, hlast⟩ := List.append_inj' hes rfl
      obtain rfl := List.singleton_inj.mp hlast
      obtain ⟨⟨c, hc⟩, -⟩ := hdone
      cases hc
    next capacity hop =>
      have hpre : e.pre = s₁ := by
        unfold FiberDir.getdents at hs
        obtain ⟨x, -, hx⟩ := Option.bind_eq_some_iff.mp hs
        obtain ⟨rfl, -⟩ : _ = e ∧ _ = s₂ := by simpa using hx
        rfl
      have hsize : p.fibers.size + 2 < 2 ^ 32 := by
        have hcond := horde pp p (by rw [hpre]; exact hlist.found) (by rw [hpre]; exact hlist.process)
        rw [hop] at hcond
        exact hcond
      obtain ⟨hlist', hdone⟩ := hlist.page hs hsize
      refine ⟨p, hlist', ?_⟩
      intro es₁ e' hes hcomp
      obtain ⟨-, hlast⟩ := List.append_inj' hes rfl
      obtain rfl := List.singleton_inj.mp hlast
      exact hdone hcomp.2.1 hcomp.2.2

/-- A listing in pieces, with fibers made in between that do not come before the
    entries handed out: no name comes out twice, and once the listing is
    complete every fiber that was there when it began has come out once. -/
theorem fiber_listing_exact {s₀ : FiberDir} {p₀ : Process} (hreach : Reachable E s₀.kernel)
    (hpos : s₀.pos = 0) (hpp : s₀.kernel.processOf E tgid = some (some pp))
    (hp : s₀.kernel.process pp = some p₀) (h : Run (FiberDirStep reclen E tgid) s₀ es s)
    (hord : ∀ e ∈ es, e.InOrder E tgid) :
    (output es).Nodup ∧ ∀ es₁ e, es = es₁ ++ [e] → e.completes →
      ∀ f ∈ p₀.fibers, ∀ r, s₀.kernel.fiber f = some r → (output es).count r.name = 1 := by
  obtain ⟨p, hlist, hcomplete⟩ := Listing.of_run hreach hpos hpp hp h hord
  refine ⟨hlist.nodup, ?_⟩
  intro es₁ e hes hdone f hf r hr
  have hend := hcomplete es₁ e hes hdone
  obtain ⟨hfp, hname⟩ := hlist.old f hf
  have hmem : r.name ∈ output es := by
    rw [hlist.handedOut, hend, List.take_of_length_le (by simp)]
    have hr' : s.kernel.nameOf f = r.name := by
      rw [hname]
      simp [Kernel.nameOf, hr]
    rw [← hr']
    exact List.mem_cons_of_mem _ (List.mem_cons_of_mem _
      (List.mem_map_of_mem (mem_hashForEach.mpr hfp)))
  exact List.count_eq_one_of_mem hlist.nodup hmem

end

/-! ## Three fibers -/

theorem mem_take_finRange {n m : ℕ} {d : Fin n} : d ∈ (List.finRange n).take m ↔ d.val < m := by
  rw [List.mem_take_iff_getElem]
  simp only [List.length_finRange, List.getElem_finRange]
  constructor
  · intro h
    obtain ⟨i, hi, rfl⟩ := h
    simp at hi ⊢
    omega
  · intro h
    exact ⟨d.val, by simp; omega, rfl⟩

theorem entriesBefore_empty (b : Bucket) : entriesBefore .empty b = 0 := by
  simp [entriesBefore]

theorem entriesBefore_add (T : Table) (b c : Bucket) (x : Ptr) : entriesBefore (T.add c x) b =
    entriesBefore T b + if c < b then 1 else 0 := by
  have hnodup : ((List.finRange hSz).take b).Nodup :=
    (List.nodup_finRange hSz).sublist (List.take_sublist _ _)
  unfold entriesBefore
  rw [HashTable.length_flatMap_chain_add hnodup]
  simp only [mem_take_finRange, Fin.lt_def]

/-- The array after `do_CreateFiber`. -/
theorem entries_created {ep tp : Ptr} {t : Thread} (hk : Inv E k) (hc : Caller E k cur ep p tp t)
    (sp sz fn arg : Word) :
    (k.created E cur ep p sp sz fn arg).entries (p.withFiber E (k.nextPtr cur.tgid)) =
      (k.entries p).take (entriesBefore p.fibers (E.hash p.nextId)) ++
        toString p.nextId.toInt :: (k.entries p).drop (entriesBefore p.fibers (E.hash p.nextId)) := by
  have hok := hk.proc ep (hk.linkedProcess ep (by simp [hc.process_eq])) p hc.process_eq
  have hnames : (hashForEach p.fibers).map (k.created E cur ep p sp sz fn arg).nameOf =
      k.entries p := by
    refine List.map_congr_left fun f hf => ?_
    have hne : f ≠ k.nextPtr cur.tgid := by
      rintro rfl
      exact hok.fresh_not_mem_fibers hk.toShape le_rfl (mem_hashForEach.mp hf)
    simp [Kernel.nameOf, Kernel.created, Kernel.withFiber, hne]
  have hnew : (k.created E cur ep p sp sz fn arg).nameOf (k.nextPtr cur.tgid) =
      toString p.nextId.toInt := by
    simp [Kernel.nameOf, Kernel.created, Kernel.withFiber, createdFiber, initializedFiber]
  have hfibers : (p.withFiber E (k.nextPtr cur.tgid)).fibers =
      p.fibers.add (E.hash p.nextId) (k.nextPtr cur.tgid) := rfl
  unfold Kernel.entries
  rw [hfibers, hashForEach_add, List.map_append, List.map_cons, List.map_take, List.map_drop, hnames, hnew]
  rfl

theorem nameOf_firstConverted (E : Env) (cur : Task) (cpu : Task → Cpu) :
    (Kernel.firstConverted E cur cpu).nameOf ⟨cur.tgid, 2⟩ = "1" := by
  have hname : (Kernel.firstConverted E cur cpu).nameOf ⟨cur.tgid, 2⟩ = toString (1 : PidT).toInt := by
    simp [Kernel.nameOf, Kernel.firstConverted, Kernel.converted, Kernel.withProcess, Kernel.boot,
      Kernel.nextPtr, convertedFiber, initializedFiber, Process.nextId]
  rw [hname]
  rfl

theorem entries_firstConverted (E : Env) (cur : Task) (cpu : Task → Cpu) {p : Process}
    (hp : (Kernel.firstConverted E cur cpu).process ⟨cur.tgid, 0⟩ = some p) :
    (Kernel.firstConverted E cur cpu).entries p = ["1"] := by
  have hfibers : p.fibers = HashTable.empty.add (E.hash 1) ⟨cur.tgid, 2⟩ := by
    rw [(firstConverted_caller E cur cpu).process_eq] at hp
    rw [← Option.some.inj hp]
  have hempty : hashForEach (HashTable.empty : Table) = [] := by simp [hashForEach]
  unfold Kernel.entries
  rw [hfibers, hashForEach_add, hempty, List.take_nil, List.drop_nil, List.nil_append,
    List.map_cons, List.map_nil, nameOf_firstConverted]

/-- A call of the reader on a known array. -/
theorem getdents_step {pos capacity : ℕ} {tgid : PidT} {l : List String} (ctx : DirContext)
    (hk : Reachable E k) (hpp : k.processOf E tgid = some (some pp)) (hp : k.process pp = some p)
    (hsize : p.fibers.size + 2 < 2 ^ 32) (hentries : k.entries p = l)
    (hctx : DirContext.page reclen ⟨pos, capacity, [], false⟩ ((dirListing l).drop pos) = ctx) :
    FiberDirStep reclen E tgid ⟨k, pos⟩ ⟨⟨k, pos⟩, .getdents capacity, ctx.out, ctx.full⟩
      ⟨k, ctx.pos⟩ := by
  show FiberDir.getdents reclen E tgid ⟨k, pos⟩ capacity = _
  unfold FiberDir.getdents
  rw [procFiberBaseReaddir_eq hk hpp hp hsize, hentries, hctx]
  rfl

/-- A process with one fiber. -/
theorem exists_oneFiber (E : Env) (cur : Task) : ∃ k pp p tp t f r, Reachable E k ∧
    Caller E k cur pp p tp t ∧ k.entries p = ["1"] ∧ p.fibers.size = 1 ∧ p.lastFiberId = 1 ∧
    (∀ b, entriesBefore p.fibers b = if E.hash 1 < b then 1 else 0) ∧
    f ∈ p.fibers ∧ k.fiber f = some r ∧ r.name = "1" := by
  have hreach := Reachable.firstConverted E cur fun _ => .zero
  have hc := firstConverted_caller E cur fun _ => .zero
  have hmem : (⟨cur.tgid, 2⟩ : Ptr) ∈ (HashTable.empty.add (E.hash 1) ⟨cur.tgid, 2⟩ : Table) :=
    HashTable.mem_add.mpr (.inl rfl)
  have hinv := hreach.inv
  have hok := hinv.proc _ (hinv.linkedProcess _ (by simp [hc.process_eq])) _ hc.process_eq
  obtain ⟨r, hr⟩ := hok.fiber_exists hmem
  have hname := nameOf_firstConverted E cur fun _ => .zero
  rw [Kernel.nameOf, hr] at hname
  refine ⟨_, _, _, _, _, _, r, hreach, hc, entries_firstConverted E cur _ hc.process_eq, ?_, rfl, ?_,
    hmem, hr, hname⟩
  · rw [HashTable.size_add, HashTable.size_empty]
  · intro b
    rw [entriesBefore_add, entriesBefore_empty, Nat.zero_add]

/-- One more fiber. -/
theorem exists_oneMore {tp : Ptr} {t : Thread} (hreach : Reachable E k)
    (hc : Caller E k cur pp p tp t) : ∃ res k' p',
    (Op.call cur (.create 0 0 0 0)).run E k = some (res, k') ∧ Caller E k' cur pp p' tp t ∧
      k'.entries p' = (k.entries p).take (entriesBefore p.fibers (E.hash p.nextId)) ++
        toString p.nextId.toInt :: (k.entries p).drop (entriesBefore p.fibers (E.hash p.nextId)) ∧
      p'.fibers.size = p.fibers.size + 1 ∧ p'.lastFiberId = p.lastFiberId + 1 ∧
      ∀ b, entriesBefore p'.fibers b =
        entriesBefore p.fibers b + if E.hash p.nextId < b then 1 else 0 :=
  ⟨_, _, _, doCreateFiber_eq hc 0 0 0 0, hc.created, entries_created hreach.inv hc 0 0 0 0,
    HashTable.size_add .., rfl, fun b => entriesBefore_add p.fibers b _ _⟩

/-- The listing of a process with one fiber, complete after two calls. -/
theorem fiber_listing_exact_oneFiber : ∃ k es e s,
    Run (FiberDirStep direntLen (.linux 240) 7) ⟨k, 0⟩ (es ++ [e]) s ∧ e.completes ∧
      (output (es ++ [e])).count "1" = 1 := by
  obtain ⟨k, pp, p, tp, t, f, r, hreach, hc, hentries, hsize, -, -, hf, hr, hname⟩ :=
    exists_oneFiber (.linux 240) ⟨7, 7⟩
  have h1 : FiberDirStep direntLen (.linux 240) 7 ⟨k, 0⟩
      ⟨⟨k, 0⟩, .getdents 4096, [".", "..", "1"], false⟩ ⟨k, 3⟩ :=
    getdents_step ⟨3, 4024, [".", "..", "1"], false⟩ hreach hc.process hc.process_eq (by omega)
      hentries (by decide)
  have h2 : FiberDirStep direntLen (.linux 240) 7 ⟨k, 3⟩ ⟨⟨k, 3⟩, .getdents 4096, [], false⟩ ⟨k, 3⟩ :=
    getdents_step ⟨3, 4096, [], false⟩ hreach hc.process hc.process_eq (by omega) hentries (by decide)
  have hfew : ∀ pp' p', k.processOf (.linux 240) 7 = some (some pp') → k.process pp' = some p' →
      p'.fibers.size + 2 < 2 ^ 32 := by
    intro pp' p' hpp' hp'
    obtain rfl : pp = pp' := Option.some.inj (Option.some.inj (hc.process.symm.trans hpp'))
    obtain rfl : p = p' := Option.some.inj (hc.process_eq.symm.trans hp')
    omega
  have hrun := Run.snoc (Run.single h1) h2
  have hdone : FiberDirEvent.completes ⟨⟨k, 3⟩, .getdents 4096, [], false⟩ := ⟨⟨4096, rfl⟩, rfl, rfl⟩
  have hord : ∀ e ∈ [⟨⟨k, 0⟩, .getdents 4096, [".", "..", "1"], false⟩] ++
      [⟨⟨k, 3⟩, .getdents 4096, [], false⟩], FiberDirEvent.InOrder (.linux 240) 7 e := by
    intro e he
    obtain rfl | rfl : e = _ ∨ e = _ := by simpa using he
    · exact hfew
    · exact hfew
  have hcount := (fiber_listing_exact hreach rfl hc.process hc.process_eq hrun hord).2 _ _ rfl hdone
    f hf r hr
  rw [hname] at hcount
  exact ⟨k, _, _, _, hrun, hdone, hcount⟩

/-- Fibers 1 and 2 exist and `1` has come out when fiber 3 is made. Its bucket
    comes first, so the next call begins with `1` again. -/
theorem fiber_listing_repeats : ∃ k es s, Reachable (.linux 240) k ∧
    (∃ pp, k.processOf (.linux 240) 7 = some (some pp)) ∧
    Run (FiberDirStep direntLen (.linux 240) 7) ⟨k, 0⟩ es s ∧ ¬ (output es).Nodup := by
  obtain ⟨k₁, pp, p₁, tp, t, -, -, hreach₁, hc₁, hentries₁, hsize₁, hlast₁, hbefore₁, -⟩ :=
    exists_oneFiber (.linux 240) ⟨7, 7⟩
  obtain ⟨_, k₂, p₂, hrun₂, hc₂, hentries₂, hsize₂, hlast₂, hbefore₂⟩ := exists_oneMore hreach₁ hc₁
  have hreach₂ := hreach₁.step hrun₂
  obtain ⟨_, k₃, p₃, hrun₃, hc₃, hentries₃, hsize₃, -, -⟩ := exists_oneMore hreach₂ hc₂
  -- the buckets of the ids 1, 2 and 3 are 391, 782 and 149
  have hnext₁ : p₁.nextId = 2 := by
    rw [Process.nextId, hlast₁]
    rfl
  have hnext₂ : p₂.nextId = 3 := by
    rw [Process.nextId, hlast₂, hlast₁]
    rfl
  rw [hentries₁, hbefore₁, hnext₁, if_pos (by decide)] at hentries₂
  rw [hentries₂, hbefore₂, hbefore₁, hnext₁, hnext₂, if_neg (by decide), if_neg (by decide)] at hentries₃
  have h1 : FiberDirStep direntLen (.linux 240) 7 ⟨k₂, 0⟩
      ⟨⟨k₂, 0⟩, .getdents 72, [".", "..", "1"], true⟩ ⟨k₂, 3⟩ :=
    getdents_step ⟨3, 0, [".", "..", "1"], true⟩ hreach₂ hc₂.process hc₂.process_eq (by omega)
      hentries₂ (by decide)
  have h2 : FiberDirStep direntLen (.linux 240) 7 ⟨k₂, 3⟩
      ⟨⟨k₂, 3⟩, .call (.call ⟨7, 7⟩ (.create 0 0 0 0)), [], false⟩ ⟨k₃, 3⟩ :=
    ⟨rfl, trivial, _, _, hrun₃, rfl⟩
  have h3 : FiberDirStep direntLen (.linux 240) 7 ⟨k₃, 3⟩
      ⟨⟨k₃, 3⟩, .getdents 4096, ["1", "2"], false⟩ ⟨k₃, 5⟩ :=
    getdents_step ⟨5, 4048, ["1", "2"], false⟩ (hreach₂.step hrun₃) hc₃.process hc₃.process_eq
      (by omega) hentries₃ (by decide)
  refine ⟨k₂, _, _, hreach₂, ⟨pp, hc₂.process⟩, .snoc (.snoc (.single h1) h2) h3, ?_⟩
  show ¬ [".", "..", "1", "1", "2"].Nodup
  decide

end AosvFibers
