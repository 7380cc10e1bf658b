import AosvFibers.Atomic.Ownership
import AosvFibers.Proc.Pident

/-!
# Splicing `fibers` into `/proc/<pid>`

The kernel lists `/proc/<pid>` from the array `tgid_base_stuff`. A return probe
on `proc_tgid_base_readdir`, `proc_insert_dir`, lists one element more for a
fiberized process: it calls `proc_pident_readdir` again on the one-element array
`additional`, with the base pointer moved back so that the position reached by
the first call falls on `additional[0]`. How far to move it back is taken from
`nents`, the position that the first listing after module load reached.

The pointer is right when that first listing saw all base entries and when the
current call did, too; both depend on the reader's buffer. `Aligned` is the
condition on a call, and `splice_exact` says what holds in a run whose calls
all meet it: no element but `additional[0]` is read, and every complete listing
is the base listing followed by `fibers` if the process is fiberized.

The return probe on `proc_tgid_base_lookup` uses the same shifted window, but a
lookup has no position to skip the shifted part: `lookup_reads_outside`.
-/

namespace AosvFibers

open Lib

/-- What the module finds in `/proc`: the names of `tgid_base_stuff`, what lies
    around `additional` in memory, the size of the record `filldir` writes for a
    name, and the process an open directory belongs to. -/
structure ProcEnv where
  base : List String
  beyond : ℤ → String
  reclen : String → ℕ
  task : ℕ → PidT

variable (P : ProcEnv) (E : Env)

/-- `tgid_base_stuff`, the array the kernel lists `/proc/<pid>` from. -/
def tgidBaseStuff (i : ℤ) : String := P.base.getD i.toNat ""

/-- `additional` (module/kprobes.h:72-74), one element, and what lies around it. -/
def additional (i : ℤ) : String := if i = 0 then "fibers" else P.beyond i

/-- `additional - (pos - 2)` for an `unsigned int pos`. -/
def shifted (pos : BitVec 32) : ℤ := -((pos - 2).toNat : ℤ)

/-- `proc_insert_dir` (module/kprobes.c:113-139), which updates `nents`. -/
def procInsertDir (tgid : PidT) (nents : BitVec 32) (ctx : DirContext) :
    K (BitVec 32 × DirContext × List ℤ) := do
  let nents := if nents = 0 then BitVec.ofNat 32 ctx.pos else nents
  match ← findProcessByTgid E tgid with
  | none => return (nents, ctx, [])
  | some _ =>
    let pos := nents
    return (nents, procPidentReaddir P.reclen (additional P) (shifted pos) (pos - 1) ctx)

/-- `proc_lookup_dir` (module/kprobes.c:74-97): the element the dentry is
    instantiated with, and the elements read. -/
def procLookupDir (tgid : PidT) (nents : BitVec 32) (name : String) : K (Option ℤ × List ℤ) := do
  match ← findProcessByTgid E tgid with
  | none => return (none, [])
  | some _ =>
    if nents = 0 then return (none, [])
    let pos := nents
    return procPidentLookup (additional P) (shifted pos) (pos - 1) name

/-! ## Runs -/

/-- The module, `nents` and the position of every open directory. -/
structure ProcFs where
  kernel : Kernel
  nents : BitVec 32
  pos : ℕ → ℕ

/-- What can happen: a step of the module, or a `getdents` on an open
    `/proc/<pid>` with a buffer of `capacity` bytes. -/
inductive ProcOp
  | call (op : Op)
  | getdents (file capacity : ℕ)

/-- One step with the state before it and what it handed out: the names, the
    indices of `additional` that were read, and whether an entry did not fit. -/
structure ProcEvent where
  pre : ProcFs
  op : ProcOp
  names : List String
  reads : List ℤ
  full : Bool

/-- `proc_tgid_base_readdir`, the kernel's own listing of `/proc/<pid>`. -/
def procTgidBaseReaddir (ctx : DirContext) : DirContext :=
  (procPidentReaddir P.reclen (tgidBaseStuff P) 0 (BitVec.ofNat 32 P.base.length) ctx).1

/-- `getdents`: the kernel's listing followed by the return probe. -/
def ProcFs.getdents (s : ProcFs) (file capacity : ℕ) : Option (ProcEvent × ProcFs) := do
  let ctx := procTgidBaseReaddir P ⟨s.pos file, capacity, [], false⟩
  let ((nents, ctx, reads), kernel) ← procInsertDir P E (P.task file) s.nents ctx s.kernel
  return (⟨s, .getdents file capacity, ctx.out, reads, ctx.full⟩,
    ⟨kernel, nents, Function.update s.pos file ctx.pos⟩)

/-- One step. -/
def ProcStep (s : ProcFs) (e : ProcEvent) (s' : ProcFs) : Prop :=
  match e.op with
  | .call op => e = ⟨s, .call op, [], [], false⟩ ∧
      ∃ r k', op.run E s.kernel = some (r, k') ∧ s' = { s with kernel := k' }
  | .getdents file capacity => s.getdents P E file capacity = some (e, s')

/-- The module just loaded, and all directories just opened. -/
def ProcFs.boot (cpu : Task → Cpu) : ProcFs := ⟨.boot cpu, 0, fun _ => 0⟩

/-- The process has a record. -/
def ProcFs.Fiberized (s : ProcFs) (tgid : PidT) : Prop :=
  ∃ p, s.kernel.processOf E tgid = some (some p)

/-- The event is a call on the directory `x`. -/
def ProcEvent.on (e : ProcEvent) (x : ℕ) : Prop :=
  ∃ capacity, e.op = .getdents x capacity

instance (e : ProcEvent) (x : ℕ) : Decidable (e.on x) :=
  match h : e.op with
  | .call _ => isFalse fun ⟨_, hc⟩ => by rw [h] at hc; cases hc
  | .getdents y capacity =>
    if hxy : y = x then isTrue ⟨capacity, by rw [h, hxy]⟩
    else isFalse fun ⟨_, hc⟩ => hxy (by rw [h] at hc; injection hc)

/-- The call ends the listing: nothing came out, and not for lack of room. -/
def ProcEvent.completes (e : ProcEvent) (x : ℕ) : Prop := e.on x ∧ e.names = [] ∧ e.full = false

/-- The concatenated output of the calls on `x`. -/
def listed (x : ℕ) (es : List ProcEvent) : List String :=
  es.flatMap fun e => if e.on x then e.names else []

/-- The condition on a call of `getdents`. Where the probe is going to use or
    set `nents`, the buffer has room for all base entries that are left, or not
    even for the dots (and for no dot at all where `nents` is to be set). -/
def ProcFs.Aligned (s : ProcFs) (file capacity : ℕ) : Prop :=
  s.nents = 0 ∨ s.Fiberized E (P.task file) →
    totalCost P.reclen ((dirListing P.base).drop (s.pos file)) ≤ capacity ∨
    capacity < totalCost P.reclen ((dirListing []).drop (s.pos file)) ∧
      (s.nents = 0 → capacity < P.reclen ".")

/-- The step is a call that meets the condition, or no call of `getdents`. -/
def ProcEvent.Aligned (e : ProcEvent) : Prop :=
  match e.op with
  | .call _ => True
  | .getdents file capacity => e.pre.Aligned P E file capacity

variable {P E} {ctx : DirContext} {s s' : ProcFs} {e : ProcEvent} {es : List ProcEvent}

/-! ## The two passes of a call -/

theorem entryNames_tgidBaseStuff : entryNames (tgidBaseStuff P) 0 P.base.length = P.base := by
  apply List.ext_getElem
  · simp
  · intro i _ hi
    simp [entryNames, tgidBaseStuff, hi]

/-- The kernel's pass emits a page of the base listing. -/
theorem procTgidBaseReaddir_eq (hN : P.base.length + 3 < 2 ^ 32) :
    procTgidBaseReaddir P ctx = ctx.page P.reclen ((dirListing P.base).drop ctx.pos) := by
  have hn : (BitVec.ofNat 32 P.base.length).toNat = P.base.length := by
    rw [BitVec.toNat_ofNat]
    omega
  unfold procTgidBaseReaddir
  rw [procPidentReaddir_fst (by omega), hn, entryNames_tgidBaseStuff]

theorem nents_ne_zero (hN : P.base.length + 3 < 2 ^ 32) :
    BitVec.ofNat 32 (P.base.length + 2) ≠ 0 := by
  intro h0
  have hnat : (P.base.length + 2) % 2 ^ 32 = 0 := by
    rw [← BitVec.toNat_ofNat, h0]
    rfl
  omega

/-- The value of `nents` the probe works with. -/
def latched (nents : BitVec 32) (pos : ℕ) : BitVec 32 :=
  if nents = 0 then BitVec.ofNat 32 pos else nents

/-- The probe's pass, once `nents` is the length of the base listing and the
    position is past it: one element, `additional[0]`, unless it was emitted
    already. -/
theorem splicePass_eq (hN : P.base.length + 3 < 2 ^ 32) (hpos : P.base.length + 2 ≤ ctx.pos) :
    procPidentReaddir P.reclen (additional P) (shifted (BitVec.ofNat 32 (P.base.length + 2)))
        (BitVec.ofNat 32 (P.base.length + 2) - 1) ctx =
      if P.base.length + 3 ≤ ctx.pos then (ctx, []) else (ctx.page P.reclen ["fibers"], [0]) := by
  have hshift : shifted (BitVec.ofNat 32 (P.base.length + 2)) = -(P.base.length : ℤ) := by
    unfold shifted
    rw [BitVec.toNat_sub, BitVec.toNat_ofNat]
    show -(((2 ^ 32 - 2 + (P.base.length + 2) % 2 ^ 32) % 2 ^ 32 : ℕ) : ℤ) = _
    omega
  have hn : (BitVec.ofNat 32 (P.base.length + 2) - 1).toNat = P.base.length + 1 := by
    rw [BitVec.toNat_sub, BitVec.toNat_ofNat]
    show (2 ^ 32 - 1 + (P.base.length + 2) % 2 ^ 32) % 2 ^ 32 = _
    omega
  rw [procPidentReaddir_of_two_le (by omega) (by omega), hn, hshift]
  by_cases h : P.base.length + 3 ≤ ctx.pos
  · rw [if_pos h, if_pos h]
  · have heq : ctx.pos = P.base.length + 2 := by omega
    rw [if_neg h, if_neg h, heq, show P.base.length + 1 - (P.base.length + 2 - 2) = 1 by omega,
      show -(P.base.length : ℤ) + (P.base.length + 2 - 2 : ℕ) = 0 by omega]
    rw [emitEntries_one]
    rfl

theorem procInsertDir_eq_some {g : PidT} {n : BitVec 32} {k k' : Kernel}
    {r : BitVec 32 × DirContext × List ℤ} :
    procInsertDir P E g n ctx k = some (r, k') ↔ k' = k ∧ ∃ q, k.processOf E g = some q ∧
      r = (latched n ctx.pos, match q with
        | none => (ctx, [])
        | some _ => procPidentReaddir P.reclen (additional P) (shifted (latched n ctx.pos))
            (latched n ctx.pos - 1) ctx) := by
  simp only [procInsertDir, K.bind_eq_some, findProcessByTgid_eq_some]
  constructor
  · intro h
    obtain ⟨q, k₁, ⟨hq, rfl⟩, hr⟩ := h
    cases q with
    | none =>
      obtain ⟨rfl, rfl⟩ : _ = r ∧ k₁ = k' := by simpa using hr
      exact ⟨rfl, none, hq, rfl⟩
    | some p =>
      obtain ⟨rfl, rfl⟩ : _ = r ∧ k₁ = k' := by simpa using hr
      exact ⟨rfl, some p, hq, rfl⟩
  · intro h
    obtain ⟨rfl, q, hq, rfl⟩ := h
    refine ⟨q, k', ⟨hq, rfl⟩, ?_⟩
    cases q with
    | none => rfl
    | some p => rfl

/-! ## One call -/

/-- The listing of a fiberized process. -/
def splicedListing (P : ProcEnv) : List String := dirListing P.base ++ ["fibers"]

/-- What a call on `file` that meets the condition does: it hands out the next
    part of the listing, reads at most `additional[0]`, goes past the base
    listing only for a fiberized process, and ends the listing only where it is
    complete. -/
structure PageOk (P : ProcEnv) (E : Env) (s : ProcFs) (file : ℕ) (e : ProcEvent) (s' : ProcFs) :
    Prop where
  kernel : s'.kernel = s.kernel
  other : ∀ x, x ≠ file → s'.pos x = s.pos x
  names : ∃ n, e.names = ((splicedListing P).drop (s.pos file)).take n ∧
    s'.pos file = s.pos file + n
  pos_le : s'.pos file ≤ P.base.length + 3
  fiberized : s'.pos file = P.base.length + 3 → s.pos file = P.base.length + 3 ∨
    s.Fiberized E (P.task file)
  reads : ∀ i ∈ e.reads, i = 0
  nents : s.nents = 0 ∧ s'.nents = 0 ∧ s'.pos file = 0 ∨
    s'.nents = BitVec.ofNat 32 (P.base.length + 2)
  complete : e.names = [] → e.full = false → P.base.length + 2 ≤ s.pos file ∧
    (s.Fiberized E (P.task file) → s.pos file = P.base.length + 3)

section

variable {file capacity : ℕ}

/-- What a call of `getdents` is made of: the kernel's pass, then, if the process
    has a record, the probe's. -/
theorem getdents_eq_some (hN : P.base.length + 3 < 2 ^ 32)
    (h : s.getdents P E file capacity = some (e, s')) : ∃ ctx ctx' reads q,
      ctx = DirContext.page P.reclen ⟨s.pos file, capacity, [], false⟩
        ((dirListing P.base).drop (s.pos file)) ∧
      s.kernel.processOf E (P.task file) = some q ∧
      (ctx', reads) = (match q with
        | none => (ctx, [])
        | some _ => procPidentReaddir P.reclen (additional P) (shifted (latched s.nents ctx.pos))
            (latched s.nents ctx.pos - 1) ctx) ∧
      e = ⟨s, .getdents file capacity, ctx'.out, reads, ctx'.full⟩ ∧
      s' = ⟨s.kernel, latched s.nents ctx.pos, Function.update s.pos file ctx'.pos⟩ := by
  unfold ProcFs.getdents at h
  rw [procTgidBaseReaddir_eq hN] at h
  simp only [Option.bind_eq_bind, Option.bind_eq_some_iff, Option.pure_def, Option.some.injEq,
    Prod.mk.injEq] at h
  obtain ⟨⟨⟨n, ctx', reads⟩, k'⟩, hins, rfl, rfl⟩ := h
  obtain ⟨rfl, q, hq, hr⟩ := procInsertDir_eq_some.mp hins
  rw [Prod.mk.injEq] at hr
  obtain ⟨rfl, hr⟩ := hr
  exact ⟨_, ctx', reads, q, rfl, hq, hr, rfl, rfl⟩

/-- The base entries of a page are the next part of the listing. -/
theorem takeFits_drop_eq (p : ℕ) :
    takeFits P.reclen capacity ((dirListing P.base).drop p) =
      ((splicedListing P).drop p).take
        (takeFits P.reclen capacity ((dirListing P.base).drop p)).length := by
  have hle : (takeFits P.reclen capacity ((dirListing P.base).drop p)).length ≤ _ :=
    length_takeFits_le capacity ((dirListing P.base).drop p)
  unfold splicedListing
  rw [List.drop_append, List.take_append_of_le_length hle]
  exact takeFits_eq_take _ _

/-- A call that emits base entries only. -/
theorem PageOk.of_base (hpos : s.pos file ≤ P.base.length + 3) (hreads : ∀ i ∈ e.reads, i = 0)
    (hctx : ctx = DirContext.page P.reclen ⟨s.pos file, capacity, [], false⟩
      ((dirListing P.base).drop (s.pos file)))
    (hnames : e.names = ctx.out) (hfull : e.full = ctx.full)
    (hs' : s' = ⟨s.kernel, latched s.nents ctx.pos, Function.update s.pos file ctx.pos⟩)
    (hnents : latched s.nents ctx.pos = 0 ∧ ctx.pos = 0 ∨
      latched s.nents ctx.pos = BitVec.ofNat 32 (P.base.length + 2))
    (hcomplete : ctx.full = false → s.Fiberized E (P.task file) → s.pos file = P.base.length + 3) :
    PageOk P E s file e s' := by
  have hout : ctx.out = takeFits P.reclen capacity ((dirListing P.base).drop (s.pos file)) := by
    simp [hctx, DirContext.page]
  have hpos' : ctx.pos = s.pos file +
      (takeFits P.reclen capacity ((dirListing P.base).drop (s.pos file))).length := by
    simp [hctx, DirContext.page]
  have hlen : (takeFits P.reclen capacity ((dirListing P.base).drop (s.pos file))).length ≤
      P.base.length + 2 - s.pos file := by
    simpa using length_takeFits_le capacity ((dirListing P.base).drop (s.pos file))
  have hself : s'.pos file = ctx.pos := by
    rw [hs']
    exact Function.update_self ..
  refine ⟨by rw [hs'], ?_, ?_, ?_, ?_, hreads, ?_, ?_⟩
  · intro x hx
    rw [hs']
    exact Function.update_of_ne hx _ _
  · refine ⟨(takeFits P.reclen capacity ((dirListing P.base).drop (s.pos file))).length, ?_, ?_⟩
    · rw [hnames, hout]
      exact takeFits_drop_eq _
    · rw [hself, hpos']
  · omega
  · intro heq
    left
    omega
  · rw [hself, hs']
    obtain ⟨h0, hp⟩ | hn := hnents
    · left
      refine ⟨?_, h0, hp⟩
      by_contra hne
      rw [latched, if_neg hne] at h0
      exact hne h0
    · exact .inr hn
  · intro hnil hnot
    rw [hnames, hout] at hnil
    rw [hfull] at hnot
    refine ⟨?_, hcomplete hnot⟩
    have hfits : ¬ capacity < totalCost P.reclen ((dirListing P.base).drop (s.pos file)) := by
      simpa [hctx, DirContext.page] using hnot
    rw [← length_takeFits_lt_iff, hnil, List.length_drop, length_dirListing] at hfits
    simp at hfits
    omega

/-- The kernel's pass when the rest of the base listing fits. -/
theorem page_rest (hfits : totalCost P.reclen ((dirListing P.base).drop (s.pos file)) ≤ capacity) :
    DirContext.page P.reclen ⟨s.pos file, capacity, [], false⟩
        ((dirListing P.base).drop (s.pos file)) =
      ⟨s.pos file + (P.base.length + 2 - s.pos file),
        capacity - totalCost P.reclen ((dirListing P.base).drop (s.pos file)),
        (dirListing P.base).drop (s.pos file), false⟩ := by
  simp [DirContext.page, takeFits_eq_self_iff.mpr hfits, hfits]

/-- A call on a fiberized process that comes to the end of the base listing. -/
theorem PageOk.of_splice (hpos : s.pos file ≤ P.base.length + 2)
    (hf : s.Fiberized E (P.task file)) (room : ℕ)
    (hctx : ctx = DirContext.page P.reclen ⟨P.base.length + 2, room,
      (dirListing P.base).drop (s.pos file), false⟩ ["fibers"])
    (hreads : e.reads = [0]) (hnames : e.names = ctx.out) (hfull : e.full = ctx.full)
    (hs' : s' = ⟨s.kernel, BitVec.ofNat 32 (P.base.length + 2),
      Function.update s.pos file ctx.pos⟩) :
    PageOk P E s file e s' := by
  have hdrop : (splicedListing P).drop (s.pos file) =
      (dirListing P.base).drop (s.pos file) ++ ["fibers"] := by
    unfold splicedListing
    rw [List.drop_append_of_le_length (by simpa using hpos)]
  have hlen : ((dirListing P.base).drop (s.pos file)).length = P.base.length + 2 - s.pos file := by
    simp
  have hctx' : (ctx.pos = P.base.length + 3 ∧ ctx.out = (splicedListing P).drop (s.pos file)) ∨
      ctx.pos = P.base.length + 2 ∧ ctx.out = (dirListing P.base).drop (s.pos file) ∧
        ctx.full = true := by
    by_cases hroom : P.reclen "fibers" ≤ room
    · left
      rw [hctx, DirContext.page_cons_of_le hroom, DirContext.page_nil, hdrop]
      exact ⟨rfl, rfl⟩
    · right
      rw [hctx, DirContext.page_cons_of_lt (by simpa using hroom)]
      exact ⟨rfl, rfl, rfl⟩
  have hself : s'.pos file = ctx.pos := by
    rw [hs']
    exact Function.update_self ..
  refine ⟨by rw [hs'], ?_, ?_, ?_, fun _ => .inr hf, ?_, .inr (by rw [hs']), ?_⟩
  · intro x hx
    rw [hs']
    exact Function.update_of_ne hx _ _
  · refine ⟨ctx.pos - s.pos file, ?_, by omega⟩
    rw [hnames]
    obtain ⟨h1, h2⟩ | ⟨h1, h2, -⟩ := hctx'
    · rw [h1, h2, List.take_of_length_le (by rw [hdrop, List.length_append, hlen]; simp; omega)]
    · rw [h1, h2, hdrop, List.take_append_of_le_length (by rw [hlen]), ← hlen, List.take_length]
  · omega
  · rw [hreads]
    simp
  · intro hnil hnot
    obtain ⟨-, h2⟩ | ⟨-, -, h3⟩ := hctx'
    · rw [hnames, h2, hdrop] at hnil
      simp at hnil
    · rw [hfull, h3] at hnot
      cases hnot

/-- A call that meets the condition. -/
theorem getdents_pageOk (hN : P.base.length + 3 < 2 ^ 32) (hpos : s.pos file ≤ P.base.length + 3)
    (hnents : s.nents = 0 ∧ s.pos file = 0 ∨ s.nents = BitVec.ofNat 32 (P.base.length + 2))
    (hal : s.Aligned P E file capacity) (h : s.getdents P E file capacity = some (e, s')) :
    PageOk P E s file e s' := by
  obtain ⟨ctx, ctx', reads, q, hctx, hq, hpass, rfl, rfl⟩ := getdents_eq_some hN h
  have hne := nents_ne_zero hN
  by_cases hfits : totalCost P.reclen ((dirListing P.base).drop (s.pos file)) ≤ capacity
  · -- the whole base listing comes out, so `nents` is its length from now on
    rw [page_rest hfits] at hctx
    have hlatch : latched s.nents ctx.pos = BitVec.ofNat 32 (P.base.length + 2) := by
      unfold latched
      obtain ⟨h0, hp⟩ | h0 := hnents
      · rw [if_pos h0, hctx, hp]
        simp
      · rw [if_neg (by rw [h0]; exact hne), h0]
    cases q with
    | none =>
      obtain ⟨rfl, rfl⟩ := Prod.mk.inj hpass
      refine .of_base hpos (by simp) (hctx.trans (page_rest hfits).symm) rfl rfl rfl (.inr hlatch) ?_
      intro _ hf
      obtain ⟨p, hp⟩ := hf
      rw [hq] at hp
      cases hp
    | some p =>
      have hf : s.Fiberized E (P.task file) := ⟨p, hq⟩
      have hpass' := hpass
      simp only [hlatch] at hpass'
      rw [splicePass_eq hN (by rw [hctx]; show _ ≤ s.pos file + _; omega)] at hpass'
      by_cases hend : P.base.length + 3 ≤ s.pos file
      · rw [if_pos (by rw [hctx]; show _ ≤ s.pos file + _; omega)] at hpass'
        obtain ⟨rfl, rfl⟩ := Prod.mk.inj hpass'
        exact .of_base hpos (by simp) (hctx.trans (page_rest hfits).symm) rfl rfl rfl (.inr hlatch)
          fun _ _ => by omega
      · rw [if_neg (by rw [hctx]; show ¬ _ ≤ s.pos file + _; omega)] at hpass'
        obtain ⟨rfl, rfl⟩ := Prod.mk.inj hpass'
        rw [hlatch]
        refine .of_splice (by omega) hf ctx.room ?_ rfl rfl rfl rfl
        rw [hctx, show s.pos file + (P.base.length + 2 - s.pos file) = P.base.length + 2 by omega]
  · by_cases hprobe : s.nents = 0 ∨ s.Fiberized E (P.task file)
    · -- the dots do not fit, so neither pass gets anywhere
      obtain hrest | ⟨hdots, hzero⟩ := hal hprobe
      · exact absurd hrest hfits
      have hfst : procTgidBaseReaddir P ⟨s.pos file, capacity, [], false⟩ = ctx := by
        rw [procTgidBaseReaddir_eq hN, hctx]
      obtain ⟨hagain, hfull⟩ : procPidentReaddir P.reclen (additional P)
          (shifted (latched s.nents ctx.pos)) (latched s.nents ctx.pos - 1) ctx = (ctx, []) ∧
            ctx.full = true := procPidentReaddir_again hdots hfst
      have hsame : (ctx', reads) = (ctx, []) := by
        rw [hpass]
        cases q with
        | none => rfl
        | some p => exact hagain
      obtain ⟨rfl, rfl⟩ := Prod.mk.inj hsame
      refine .of_base hpos (by simp) hctx rfl rfl rfl ?_ ?_
      · obtain ⟨h0, hp⟩ | h0 := hnents
        · left
          have hpos0 : ctx'.pos = 0 := by
            rw [hctx, hp]
            show 0 + (takeFits P.reclen capacity (dirListing P.base)).length = 0
            rw [dirListing, takeFits_cons_of_lt (hzero h0)]
            rfl
          rw [latched, if_pos h0, hpos0]
          exact ⟨rfl, rfl⟩
        · right
          rw [latched, if_neg (by rw [h0]; exact hne), h0]
      · intro hnot
        rw [hfull] at hnot
        cases hnot
    · -- the probe does nothing
      rw [not_or] at hprobe
      have hq' : q = none := by
        cases q with
        | none => rfl
        | some p => exact absurd ⟨p, hq⟩ hprobe.2
      subst hq'
      obtain ⟨rfl, rfl⟩ := Prod.mk.inj hpass
      refine .of_base hpos (by simp) hctx rfl rfl rfl (.inr ?_) fun _ hf => absurd hf hprobe.2
      rw [latched, if_neg hprobe.1]
      exact hnents.resolve_left fun h0 => hprobe.1 h0.1

end

/-! ## Whole listings -/

@[simp] theorem listed_nil (x : ℕ) : listed x [] = [] := rfl

theorem listed_snoc (x : ℕ) (es : List ProcEvent) (e : ProcEvent) :
    listed x (es ++ [e]) = listed x es ++ if e.on x then e.names else [] := by
  simp [listed]

/-- What the calls so far have handed out. -/
structure Spliced (P : ProcEnv) (E : Env) (es : List ProcEvent) (s : ProcFs) : Prop where
  nents : s.nents = 0 ∧ (∀ x, s.pos x = 0) ∨ s.nents = BitVec.ofNat 32 (P.base.length + 2)
  pos_le : ∀ x, s.pos x ≤ P.base.length + 3
  listed : ∀ x, listed x es = (splicedListing P).take (s.pos x)
  fiberized : ∀ x, s.pos x = P.base.length + 3 →
    ∃ e ∈ es, e.on x ∧ e.pre.Fiberized E (P.task x)
  reads : ∀ e ∈ es, ∀ i ∈ e.reads, i = 0

namespace Spliced

theorem boot (cpu : Task → Cpu) : Spliced P E [] (.boot cpu) where
  nents := .inl ⟨rfl, fun _ => rfl⟩
  pos_le _ := Nat.zero_le _
  listed _ := rfl
  fiberized _ h := by simp [ProcFs.boot] at h
  reads _ he := by simp at he

/-- A step of the module. -/
theorem call (h : Spliced P E es s) {op : Op} {k' : Kernel} :
    Spliced P E (es ++ [⟨s, .call op, [], [], false⟩]) { s with kernel := k' } where
  nents := h.nents
  pos_le := h.pos_le
  listed x := by
    rw [listed_snoc, h.listed x]
    simp
  fiberized x hx := by
    obtain ⟨e, he, hon⟩ := h.fiberized x hx
    exact ⟨e, by simp [he], hon⟩
  reads e he := by
    obtain he | he := List.mem_append.mp he
    · exact h.reads e he
    · obtain rfl := List.mem_singleton.mp he
      simp

/-- A call of `getdents`. -/
theorem page (hN : P.base.length + 3 < 2 ^ 32) (h : Spliced P E es s) {file : ℕ}
    (hon : ∀ x, e.on x ↔ x = file) (hpre : e.pre = s) (hp : PageOk P E s file e s') :
    Spliced P E (es ++ [e]) s' where
  nents := by
    obtain ⟨h0, h0', hpos⟩ | hn := hp.nents
    · obtain ⟨-, hzero⟩ | hn := h.nents
      · left
        refine ⟨h0', fun x => ?_⟩
        by_cases hx : x = file
        · rw [hx, hpos]
        · rw [hp.other x hx, hzero]
      · exact absurd (hn.symm.trans h0) (nents_ne_zero hN)
    · exact .inr hn
  pos_le x := by
    by_cases hx : x = file
    · rw [hx]
      exact hp.pos_le
    · rw [hp.other x hx]
      exact h.pos_le x
  listed x := by
    rw [listed_snoc, h.listed x]
    by_cases hx : x = file
    · obtain ⟨n, hnames, hpos⟩ := hp.names
      rw [if_pos ((hon x).mpr hx), hx, hnames, hpos, List.take_add]
    · rw [if_neg ((hon x).not.mpr hx), hp.other x hx, List.append_nil]
  fiberized x hx := by
    by_cases hxf : x = file
    · subst hxf
      obtain hpos | hf := hp.fiberized hx
      · obtain ⟨e', he', h'⟩ := h.fiberized x hpos
        exact ⟨e', by simp [he'], h'⟩
      · exact ⟨e, by simp, (hon x).mpr rfl, hpre ▸ hf⟩
    · obtain ⟨e', he', h'⟩ := h.fiberized x (by rw [← hp.other x hxf, hx])
      exact ⟨e', by simp [he'], h'⟩
  reads e' he' := by
    obtain he' | he' := List.mem_append.mp he'
    · exact h.reads e' he'
    · obtain rfl := List.mem_singleton.mp he'
      exact hp.reads

end Spliced

/-- A step that meets the condition. -/
theorem Spliced.step (hN : P.base.length + 3 < 2 ^ 32) (h : Spliced P E es s)
    (hs : ProcStep P E s e s') (hal : e.Aligned P E) :
    Spliced P E (es ++ [e]) s' ∧ ∀ x, e.completes x → P.base.length + 2 ≤ s.pos x ∧
      (e.pre.Fiberized E (P.task x) → s.pos x = P.base.length + 3) := by
  unfold ProcStep at hs
  unfold ProcEvent.Aligned at hal
  split at hs
  next op hop =>
    obtain ⟨rfl, r, k', -, rfl⟩ := hs
    refine ⟨h.call, ?_⟩
    intro x hx
    obtain ⟨⟨c, hc⟩, -⟩ := hx
    cases hc
  next file capacity hop =>
    rw [hop] at hal
    have hpre : e.pre = s := by
      obtain ⟨_, _, _, _, -, -, -, rfl, -⟩ := getdents_eq_some hN hs
      rfl
    have hnents : s.nents = 0 ∧ s.pos file = 0 ∨ s.nents = BitVec.ofNat 32 (P.base.length + 2) :=
      h.nents.imp_left fun h0 => ⟨h0.1, h0.2 file⟩
    have hp := getdents_pageOk hN (h.pos_le file) hnents (hpre ▸ hal) hs
    have hon : ∀ x, e.on x ↔ x = file := by
      intro x
      constructor
      · intro hx
        obtain ⟨c, hc⟩ := hx
        rw [hop] at hc
        injection hc with hfile
        exact hfile.symm
      · intro hx
        exact ⟨capacity, by rw [hx, hop]⟩
    refine ⟨h.page hN hon hpre hp, ?_⟩
    intro x hx
    obtain ⟨hx, hnil, hfull⟩ := hx
    rw [(hon x).mp hx, hpre]
    exact hp.complete hnil hfull

theorem Spliced.of_run (hN : P.base.length + 3 < 2 ^ 32) {cpu : Task → Cpu}
    (h : Run (ProcStep P E) (.boot cpu) es s) (hal : ∀ e ∈ es, e.Aligned P E) :
    Spliced P E es s := by
  induction h with
  | nil => exact .boot cpu
  | snoc _ hs ih =>
    have hprev := ih fun e he => hal e (by simp [he])
    exact (hprev.step hN hs (hal _ (by simp))).1

/-- In every run whose calls meet the condition, the probe reads no element but
    `additional[0]`, and a listing that has come to its end is the base listing
    with `fibers` after it, if the process is fiberized. -/
theorem splice_exact (hN : P.base.length + 3 < 2 ^ 32) {cpu : Task → Cpu}
    (h : Run (ProcStep P E) (.boot cpu) (es ++ [e]) s) (hal : ∀ e' ∈ es ++ [e], e'.Aligned P E) :
    (∀ e' ∈ es ++ [e], ∀ i ∈ e'.reads, i = 0) ∧
    ∀ x, e.completes x → ∃ tail, listed x (es ++ [e]) = ["." , ".."] ++ P.base ++ tail ∧
      (tail = [] ∨ tail = ["fibers"]) ∧
      (e.pre.Fiberized E (P.task x) → tail = ["fibers"]) ∧
      ((∀ e' ∈ es ++ [e], e'.on x → ¬ e'.pre.Fiberized E (P.task x)) → tail = []) := by
  obtain ⟨s₁, h₁, hs⟩ := h.snoc_inv
  have hprev := Spliced.of_run hN h₁ fun e' he' => hal e' (by simp [he'])
  obtain ⟨hall, hcomplete⟩ := hprev.step hN hs (hal e (by simp))
  refine ⟨hall.reads, ?_⟩
  intro x hx
  obtain ⟨hend, hfib⟩ := hcomplete x hx
  have hlisted : listed x (es ++ [e]) = (splicedListing P).take (s₁.pos x) := by
    rw [listed_snoc, hprev.listed x, if_pos hx.1, hx.2.1, List.append_nil]
  have hle := hprev.pos_le x
  obtain hpos | hpos : s₁.pos x = P.base.length + 2 ∨ s₁.pos x = P.base.length + 3 := by omega
  · refine ⟨[], ?_, .inl rfl, ?_, fun _ => rfl⟩
    · rw [hlisted, hpos]
      simp [splicedListing, dirListing]
    · intro hf
      have := hfib hf
      omega
  · refine ⟨["fibers"], ?_, .inr rfl, fun _ => rfl, ?_⟩
    · rw [hlisted, hpos]
      simp [splicedListing, dirListing, List.take_append]
    · intro hno
      obtain ⟨e', he', hon, hf⟩ := hprev.fiberized x hpos
      exact absurd hf (hno e' (by simp [he']) hon)

/-! ## A small directory -/

/-- A `tgid_base_stuff` of one entry; all open directories belong to process 7. -/
def ProcEnv.oneEntry : ProcEnv := ⟨["task"], fun _ => "", direntLen, fun _ => 7⟩

/-- A call on a fiberized process. -/
theorem getdents_of_fiberized {file capacity : ℕ} (ctx ctx' : DirContext) {reads : List ℤ}
    (hf : s.Fiberized E (P.task file))
    (hbase : procTgidBaseReaddir P ⟨s.pos file, capacity, [], false⟩ = ctx)
    (hpass : procPidentReaddir P.reclen (additional P) (shifted (latched s.nents ctx.pos))
      (latched s.nents ctx.pos - 1) ctx = (ctx', reads)) :
    ProcStep P E s ⟨s, .getdents file capacity, ctx'.out, reads, ctx'.full⟩
      ⟨s.kernel, latched s.nents ctx.pos, Function.update s.pos file ctx'.pos⟩ := by
  obtain ⟨p, hp⟩ := hf
  have hins : procInsertDir P E (P.task file) s.nents ctx s.kernel =
      some ((latched s.nents ctx.pos, ctx', reads), s.kernel) := by
    rw [procInsertDir_eq_some]
    exact ⟨rfl, some p, hp, by rw [hpass]⟩
  show s.getdents P E file capacity = _
  unfold ProcFs.getdents
  rw [hbase]
  show (procInsertDir P E (P.task file) s.nents ctx s.kernel).bind _ = _
  rw [hins]
  rfl

/-- Thread 7 converts, and then directory 0 is listed in one call. -/
theorem oneEntry_listed : ∃ es s,
    Run (ProcStep .oneEntry (.linux 240)) (.boot fun _ => .zero) es s ∧
      (∀ e ∈ es, e.Aligned .oneEntry (.linux 240)) ∧
      s.Fiberized (.linux 240) 7 ∧ s.nents = 3 ∧ s.pos 0 = 4 ∧ s.pos 1 = 0 := by
  let k := Kernel.firstConverted (.linux 240) ⟨7, 7⟩ fun _ => .zero
  let s₁ : ProcFs := ⟨k, 0, fun _ => 0⟩
  have h1 : ProcStep .oneEntry (.linux 240) (.boot fun _ => .zero)
      ⟨.boot fun _ => .zero, .call (.call ⟨7, 7⟩ .convert), [], [], false⟩ s₁ :=
    ⟨rfl, 1, k, firstConverted_run _ _ _, rfl⟩
  have hf : s₁.Fiberized (.linux 240) 7 := ⟨_, (firstConverted_caller (.linux 240) ⟨7, 7⟩ _).process⟩
  have h2 : ProcStep .oneEntry (.linux 240) s₁
      ⟨s₁, .getdents 0 4096, [".", "..", "task", "fibers"], [0], false⟩
      ⟨k, 3, Function.update s₁.pos 0 4⟩ :=
    getdents_of_fiberized ⟨3, 4024, [".", "..", "task"], false⟩
      ⟨4, 3992, [".", "..", "task", "fibers"], false⟩ hf (by decide) (by decide)
  refine ⟨_, _, .snoc (.single h1) h2, ?_, hf, rfl, rfl, rfl⟩
  intro e he
  obtain rfl | rfl : e = _ ∨ e = _ := by simpa using he
  · trivial
  · intro _
    left
    decide

/-- The next call on directory 0 ends its listing, which is exact. -/
theorem splice_exact_oneEntry : ∃ es e s,
    Run (ProcStep .oneEntry (.linux 240)) (.boot fun _ => .zero) (es ++ [e]) s ∧
      e.completes 0 ∧ listed 0 (es ++ [e]) = [".", "..", "task", "fibers"] := by
  obtain ⟨es, s, hrun, hal, hf, hnents, hpos, -⟩ := oneEntry_listed
  have hstep : ProcStep .oneEntry (.linux 240) s ⟨s, .getdents 0 4096, [], [], false⟩
      ⟨s.kernel, latched s.nents 4, Function.update s.pos 0 4⟩ :=
    getdents_of_fiberized ⟨4, 4096, [], false⟩ ⟨4, 4096, [], false⟩ hf (by rw [hpos]; decide)
      (by rw [hnents]; decide)
  have hrun' := hrun.snoc hstep
  have hal' : ∀ e ∈ es ++ [⟨s, .getdents 0 4096, [], [], false⟩],
      ProcEvent.Aligned .oneEntry (.linux 240) e := by
    intro e he
    obtain he | rfl : e ∈ es ∨ e = _ := by simpa using he
    · exact hal e he
    · intro _
      left
      rw [hpos]
      decide
  have hdone : ProcEvent.completes ⟨s, .getdents 0 4096, [], [], false⟩ 0 := ⟨⟨4096, rfl⟩, rfl, rfl⟩
  obtain ⟨tail, hlisted, -, htail, -⟩ := (splice_exact (by decide) hrun' hal').2 0 hdone
  refine ⟨es, _, _, hrun', hdone, ?_⟩
  rw [hlisted, htail hf]
  rfl

/-- The base listing of directory 1 is cut short by a buffer of 48 bytes, and
    the probe reads the element before `additional[0]`. -/
theorem splice_reads_outside : ∃ es s,
    Run (ProcStep .oneEntry (.linux 240)) (.boot fun _ => .zero) es s ∧
      ∃ e ∈ es, ∃ i ∈ e.reads, i ≠ 0 := by
  obtain ⟨es, s, hrun, -, hf, hnents, -, hpos⟩ := oneEntry_listed
  have hstep : ProcStep .oneEntry (.linux 240) s
      ⟨s, .getdents 1 48, [".", ".."], [-1], true⟩
      ⟨s.kernel, latched s.nents 2, Function.update s.pos 1 2⟩ :=
    getdents_of_fiberized ⟨2, 0, [".", ".."], true⟩ ⟨2, 0, [".", ".."], true⟩ hf
      (by rw [hpos]; decide) (by rw [hnents]; decide)
  exact ⟨_, _, hrun.snoc hstep, _, List.mem_append_right _ (List.mem_singleton.mpr rfl), -1,
    List.mem_singleton.mpr rfl, by decide⟩

/-! ## Lookups -/

/-- What a lookup spliced into `/proc/<pid>` should do: compare the name with
    `additional[0]` only, and instantiate the dentry exactly for `fibers`. -/
def LookupExact (name : String) (found : Option ℤ) (reads : List ℤ) : Prop :=
  (∀ i ∈ reads, i = 0) ∧ (found.isSome = true ↔ name = "fibers")

theorem procLookupDir_eq {g : PidT} {nents : BitVec 32} {name : String} {k : Kernel} {p : Ptr}
    (hf : k.processOf E g = some (some p)) (hn : nents ≠ 0) : procLookupDir P E g nents name k =
      some (procPidentLookup (additional P) (shifted nents) (nents - 1) name, k) := by
  simp only [procLookupDir, K.bind_eq_some, findProcessByTgid_eq_some]
  refine ⟨some p, k, ⟨hf, rfl⟩, ?_⟩
  show (if nents = 0 then _ else _ : K _) k = _
  rw [if_neg hn]
  rfl

/-- The first element a lookup reads. -/
theorem mem_procPidentLookup_snd {mem : ℤ → String} {ents : ℤ} {n : BitVec 32} {name : String}
    (hn : n.toNat ≠ 0) : ents ∈ (procPidentLookup mem ents n name).2 := by
  unfold procPidentLookup
  obtain ⟨m, hm⟩ := Nat.exists_eq_succ_of_ne_zero hn
  rw [hm, lookupEntries]
  split
  · exact List.mem_singleton.mpr rfl
  · exact List.mem_cons_self

/-- Whatever is looked up in a fiberized process, the probe first reads the
    element `nents - 2` places before `additional[0]`. -/
theorem lookup_reads_outside {g : PidT} {nents : BitVec 32} {k : Kernel} (hn : 2 < nents.toInt)
    (hf : ∃ p, k.processOf E g = some (some p)) (name : String) : ∃ found reads,
    procLookupDir P E g nents name k = some ((found, reads), k) ∧ ¬ LookupExact name found reads := by
  obtain ⟨p, hp⟩ := hf
  have hlt : 2 < nents.toNat ∧ nents.toNat < 2 ^ 31 := by
    rw [BitVec.toInt_eq_toNat_cond] at hn
    have := nents.isLt
    split at hn <;> omega
  have hne : nents ≠ 0 := by
    intro h0
    rw [h0] at hlt
    simp at hlt
  refine ⟨_, _, procLookupDir_eq hp hne, ?_⟩
  have hn1 : (nents - 1).toNat = nents.toNat - 1 := by
    rw [BitVec.toNat_sub]
    show (2 ^ 32 - 1 + nents.toNat) % 2 ^ 32 = _
    omega
  have hshift : shifted nents = -((nents.toNat : ℤ) - 2) := by
    unfold shifted
    rw [BitVec.toNat_sub]
    show -(((2 ^ 32 - 2 + nents.toNat) % 2 ^ 32 : ℕ) : ℤ) = _
    omega
  intro hexact
  have hzero := hexact.1 (shifted nents) (mem_procPidentLookup_snd (by omega))
  omega

/-- `fibers` itself, looked up after a listing of four positions. -/
theorem lookup_reads_outside_fibers : ∃ found reads,
    procLookupDir .oneEntry (.linux 240) 7 4 "fibers"
        (Kernel.firstConverted (.linux 240) ⟨7, 7⟩ fun _ => .zero) =
      some ((found, reads), Kernel.firstConverted (.linux 240) ⟨7, 7⟩ fun _ => .zero) ∧
      ¬ LookupExact "fibers" found reads :=
  lookup_reads_outside (by decide) ⟨_, (firstConverted_caller (.linux 240) ⟨7, 7⟩ _).process⟩ _

/-- A lookup of `stat` reads two elements, the first one before the array. -/
theorem lookup_stat_not_exact :
    procLookupDir .oneEntry (.linux 240) 7 3 "stat"
        (Kernel.firstConverted (.linux 240) ⟨7, 7⟩ fun _ => .zero) =
      some ((none, [-1, 0]), Kernel.firstConverted (.linux 240) ⟨7, 7⟩ fun _ => .zero) ∧
      ¬ LookupExact "stat" none [-1, 0] := by
  refine ⟨procLookupDir_eq (firstConverted_caller (.linux 240) ⟨7, 7⟩ _).process (by decide), ?_⟩
  intro hexact
  exact absurd (hexact.1 (-1) (by simp)) (by decide)

end AosvFibers
