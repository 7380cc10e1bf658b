import AosvFibers.Proc.FiberDir

/-!
# Filling the array while fibers are created

`proc_fiber_base_readdir` and `proc_fiber_base_lookup` read `last_fiber_id` once,
allocate an array of that many entries and fill it with one entry for each fiber
that `hash_for_each_rcu` meets. Meanwhile other threads of the process may be in
`init_fiber`, which first takes an id from `last_fiber_id` and then puts the
fiber into the table.

One reader and any number of creators take steps in any order:
* `take` and `insert` are the two halves of `init_fiber`: up to the increment of
  `last_fiber_id`, and from `hash_add_rcu` on;
* `read` is the read of `last_fiber_id`, `enter` the move to the next bucket,
  `visit` one iteration of the loop body and `finish` the end of the loop.

The walk holds the nodes of its bucket that are still to come: nodes are put in
at the head of a chain, so what lies behind a node never changes.

A fiber is counted if its id was taken before the read. The array is filled
exactly as long as the walk meets the counted fibers and no others, which
`Undisturbed` says of a step. Result: `fill_exact`.
-/

namespace AosvFibers

open Lib Stmt

/-! ## Creators and reader -/

/-- `init_fiber` up to the increment of `last_fiber_id` (module/init.h:21-32). -/
def beginFiber (E : Env) (cur : Task) (parent : Ptr) (ss : ℤ) (sPtr : Word) : K Ptr := do
  let f ← allocFiber E cur parent ss sPtr
  takeFiberId parent f
  return f

/-- The locals of the fill loop (module/proc.c:25-36, 67-78): the entries asked
    for, the next bucket, the nodes to come in the current one, the `int`
    `counter`, and for every index of `fiber_base_stuff` the fiber whose name the
    entry points to. -/
structure FillLoop where
  nents : Word
  bucket : ℕ
  rest : List Ptr
  counter : BitVec 32
  stuff : ℤ → Option Ptr

/-- Where the reader is. -/
inductive Reader
  | idle
  | filling (l : FillLoop)
  | filled (l : FillLoop)

/-- The module, the fibers that have an id but are not in the table yet, and the
    reader. `counted` holds the fibers that were on their way when the reader
    read `last_fiber_id`. -/
structure FillState where
  kernel : Kernel
  flight : List Ptr
  reader : Reader
  counted : List Ptr

/-- What happens in one step. -/
inductive FillOp
  | take (cur : Task) (ss : ℤ) (sPtr : Word)
  | insert (cur : Task) (f : Ptr)
  | read
  | enter
  | visit
  | finish

/-- One step with the state before it. -/
structure FillEvent where
  pre : FillState
  op : FillOp

/-- One step on the process at `pp`. -/
inductive FillStep (E : Env) (pp : Ptr) : FillState → FillEvent → FillState → Prop
  | take {s : FillState} {cur : Task} {ss : ℤ} {sPtr : Word} {f : Ptr} {k' : Kernel}
      (hcur : cur.tgid = pp.tgid) (h : beginFiber E cur pp ss sPtr s.kernel = some (f, k')) :
      FillStep E pp s ⟨s, .take cur ss sPtr⟩ { s with kernel := k', flight := f :: s.flight }
  | insert {s : FillState} {cur : Task} {f : Ptr} {k' : Kernel} (hf : f ∈ s.flight)
      (h : execAll E cur (initFiberTail pp f) s.kernel = some ((), k')) :
      FillStep E pp s ⟨s, .insert cur f⟩ { s with kernel := k', flight := s.flight.erase f }
  | read {s : FillState} {p : Process} (hidle : s.reader = .idle)
      (hp : s.kernel.process pp = some p) :
      FillStep E pp s ⟨s, .read⟩
        { s with
          reader := .filling ⟨p.lastFiberId, 0, [], 0, fun _ => none⟩
          counted := s.flight }
  | enter {s : FillState} {p : Process} {l : FillLoop} (hl : s.reader = .filling l)
      (hp : s.kernel.process pp = some p) (hrest : l.rest = []) (hb : l.bucket < hSz) :
      FillStep E pp s ⟨s, .enter⟩
        { s with
          reader := .filling
            { l with rest := p.fibers.chain ⟨l.bucket, hb⟩, bucket := l.bucket + 1 } }
  | visit {s : FillState} {l : FillLoop} {f : Ptr} {rest : List Ptr} (hl : s.reader = .filling l)
      (hrest : l.rest = f :: rest) :
      FillStep E pp s ⟨s, .visit⟩
        { s with
          reader := .filling
            { l with
              rest := rest
              stuff := Function.update l.stuff l.counter.toInt (some f)
              counter := l.counter + 1 } }
  | finish {s : FillState} {l : FillLoop} (hl : s.reader = .filling l) (hrest : l.rest = [])
      (hb : l.bucket = hSz) : FillStep E pp s ⟨s, .finish⟩ { s with reader := .filled l }

/-- The bucket a fiber goes to. -/
def Kernel.bucketOf (E : Env) (k : Kernel) (f : Ptr) : Option Bucket := (k.fiberKey f).map E.hash

/-- The condition on a step: at the read at most 2^31 ids were taken; a bucket is
    entered when no counted fiber is still on its way to it; and while the
    reader walks, a fiber that is not counted goes to a bucket entered before. -/
def FillEvent.Undisturbed (E : Env) (pp : Ptr) (e : FillEvent) : Prop :=
  match e.op with
  | .read => ∀ p, e.pre.kernel.process pp = some p →
      p.fibers.size + e.pre.flight.length ≤ 2 ^ 31
  | .enter => ∀ l, e.pre.reader = .filling l → ∀ f ∈ e.pre.flight, f ∈ e.pre.counted →
      ∀ b, e.pre.kernel.bucketOf E f = some b → b.val ≠ l.bucket
  | .insert _ f => ∀ l, e.pre.reader = .filling l → f ∉ e.pre.counted →
      ∀ b, e.pre.kernel.bucketOf E f = some b → b.val < l.bucket
  | _ => True

/-! ## The nodes still to come -/

/-- The number of nodes in the buckets from `b` on. -/
def entriesFrom (T : Table) (b : ℕ) : ℕ := (((List.finRange hSz).drop b).flatMap T.chain).length

theorem entriesFrom_zero (T : Table) : entriesFrom T 0 = T.size := by
  unfold entriesFrom
  rw [List.drop_zero]
  exact length_hashForEach T

theorem entriesFrom_end (T : Table) : entriesFrom T hSz = 0 := by
  unfold entriesFrom
  rw [List.drop_of_length_le (by simp)]
  rfl

theorem entriesFrom_succ (T : Table) {b : ℕ} (hb : b < hSz) :
    entriesFrom T b = (T.chain ⟨b, hb⟩).length + entriesFrom T (b + 1) := by
  unfold entriesFrom
  rw [List.drop_eq_getElem_cons (by simpa using hb), List.getElem_finRange, List.flatMap_cons,
    List.length_append]
  rfl

theorem mem_drop_finRange {n m : ℕ} {d : Fin n} : d ∈ (List.finRange n).drop m ↔ m ≤ d.val := by
  rw [List.mem_drop_iff_getElem]
  simp only [List.length_finRange, List.getElem_finRange]
  constructor
  · intro h
    obtain ⟨i, hi, rfl⟩ := h
    simp
  · intro h
    exact ⟨d.val - m, by omega, by ext; simp; omega⟩

theorem entriesFrom_add (T : Table) (b : ℕ) (c : Bucket) (x : Ptr) :
    entriesFrom (T.add c x) b = entriesFrom T b + if b ≤ c.val then 1 else 0 := by
  have hnodup : ((List.finRange hSz).drop b).Nodup :=
    (List.nodup_finRange hSz).sublist (List.drop_sublist _ _)
  unfold entriesFrom
  rw [HashTable.length_flatMap_chain_add hnodup]
  simp only [mem_drop_finRange]

/-! ## The two halves of `init_fiber` -/

variable {E : Env} {cur : Task} {k k' : Kernel} {pp f : Ptr} {p : Process}

/-- Taking an id: the counter goes up by one, and there is one record more. -/
theorem beginFiber_eq_some {ss : ℤ} {sPtr : Word} (hp : k.process pp = some p)
    (h : beginFiber E cur pp ss sPtr k = some (f, k')) :
    f = k.nextPtr cur.tgid ∧
    k'.process pp = some { p with lastFiberId := p.lastFiberId + 1 } ∧
    (k'.fiber f).isSome ∧ (∀ x, x ≠ f → k'.fiber x = k.fiber x) ∧
    k'.brk cur.tgid = k.brk cur.tgid + 1 := by
  simp only [beginFiber, K.bind_eq_some] at h
  obtain ⟨f₁, k₁, halloc, _, k₂, htake, hret⟩ := h
  obtain ⟨rfl, rfl⟩ : f₁ = f ∧ k₂ = k' := by simpa using hret
  simp only [allocFiber, K.bind_eq_some] at halloc
  obtain ⟨f₂, k₃, hmalloc, _, k₄, hinit, hret⟩ := halloc
  obtain ⟨rfl, rfl⟩ : f₂ = f₁ ∧ k₄ = k₁ := by simpa using hret
  obtain ⟨rfl, rfl⟩ : _ = f₂ ∧ _ = k₃ := by simpa [kmalloc] using hmalloc
  obtain rfl : _ = k₄ := by simpa using hinit
  have hp₄ : k.process pp = some p := hp
  simp only [takeFiberId, hp₄, Option.bind_some, Function.update_self, Option.isSome_some,
    if_true, Option.some.injEq, Prod.mk.injEq, true_and] at htake
  subst htake
  refine ⟨rfl, ?_, ?_, ?_, ?_⟩
  · simp [hp]
  · simp
  · intro x hx
    simp [hx]
  · simp

/-- Putting the fiber into the table. -/
theorem initFiberTail_eq_some {r : Fiber} (hp : k.process pp = some p) (hr : k.fiber f = some r)
    (h : execAll E cur (initFiberTail pp f) k = some ((), k')) :
    k'.process pp = some { p with fibers := p.fibers.add (E.hash r.fiberId) f } ∧
    (∀ x, k'.fiberKey x = k.fiberKey x) ∧ k'.brk = k.brk := by
  obtain ⟨-, rfl⟩ := execAll_eq_some.mp h
  rw [initFiberTail, applyAll_cons, applyAll_assigns]
  refine ⟨?_, ?_, ?_⟩
  · simp [apply, hr, hp]
  · intro x
    by_cases hx : x = f
    · subst hx
      simp [Kernel.fiberKey, apply, hr, runAll, Assign.run]
    · simp [Kernel.fiberKey, apply, hr, hx]
  · simp [apply, hr]

/-- `init_fiber` taken apart at the insertion. -/
theorem exists_halves (cur : Task) (hp : k.process pp = some p) (ss : ℤ) (sPtr : Word) :
    ∃ f k₁ k₂, beginFiber E cur pp ss sPtr k = some (f, k₁) ∧
      execAll E cur (initFiberTail pp f) k₁ = some ((), k₂) := by
  have h : ∃ k', initFiber E cur pp ss sPtr k = some (k.nextPtr cur.tgid, k') :=
    ⟨_, initFiber_eq hp ss sPtr⟩
  simp only [initFiber, K.bind_eq_some] at h
  obtain ⟨_, f, k₀, halloc, _, k₁, htake, _, k₂, htail, -⟩ := h
  refine ⟨f, k₁, k₂, ?_, htail⟩
  simp only [beginFiber, K.bind_eq_some]
  exact ⟨f, k₀, halloc, (), k₁, htake, rfl⟩

/-! ## The invariant -/

/-- The entries below `counter` are filled with fibers of the process, and no
    others. -/
structure StuffOk (p : Process) (l : FillLoop) : Prop where
  nents_le : l.nents.toNat ≤ 2 ^ 31
  counter_le : l.counter.toNat ≤ l.nents.toNat
  below : ∀ i, l.stuff i ≠ none → 0 ≤ i ∧ i < l.counter.toNat
  filled : ∀ i : ℕ, i < l.counter.toNat → ∃ f ∈ p.fibers, l.stuff i = some f

/-- The loop halfway: the entries made, the nodes to come and the counted fibers
    on their way add up to the number read, and the latter are going to buckets
    not entered yet. -/
structure FillOk (E : Env) (s : FillState) (p : Process) (l : FillLoop) : Prop
    extends StuffOk p l where
  balance : l.counter.toNat + l.rest.length + entriesFrom p.fibers l.bucket +
    s.flight.countP (· ∈ s.counted) = l.nents.toNat
  pending : ∀ f ∈ s.flight, f ∈ s.counted → ∀ b, s.kernel.bucketOf E f = some b → l.bucket ≤ b.val
  rest : ∀ f ∈ l.rest, f ∈ p.fibers

/-- An address given out for the process. -/
def Kernel.gaveOut (k : Kernel) (pp f : Ptr) : Prop := f.tgid = pp.tgid ∧ f.serial < k.brk pp.tgid

/-- The invariant over steps that are not disturbed. -/
structure FillInv (E : Env) (pp : Ptr) (s : FillState) (p : Process) : Prop where
  process : s.kernel.process pp = some p
  nodup : s.flight.Nodup
  alive : ∀ f ∈ s.flight, (s.kernel.fiber f).isSome
  flight_old : ∀ f ∈ s.flight, s.kernel.gaveOut pp f
  counted_old : ∀ f ∈ s.counted, s.kernel.gaveOut pp f
  last : p.lastFiberId = BitVec.ofNat 64 (p.fibers.size + s.flight.length)
  filling : ∀ l, s.reader = .filling l → FillOk E s p l
  filled : ∀ l, s.reader = .filled l → StuffOk p l ∧ l.counter.toNat = l.nents.toNat

theorem StuffOk.mono {p' : Process} {l : FillLoop} (h : StuffOk p l)
    (hsub : ∀ f ∈ p.fibers, f ∈ p'.fibers) : StuffOk p' l where
  nents_le := h.nents_le
  counter_le := h.counter_le
  below := h.below
  filled i hi := by
    obtain ⟨f, hf, hs⟩ := h.filled i hi
    exact ⟨f, hsub f hf, hs⟩

namespace FillInv

variable {s : FillState}

/-- A creator takes an id. -/
theorem take (h : FillInv E pp s p) (hcur : cur.tgid = pp.tgid) {ss : ℤ} {sPtr : Word}
    (hrun : beginFiber E cur pp ss sPtr s.kernel = some (f, k')) :
    FillInv E pp { s with kernel := k', flight := f :: s.flight }
      { p with lastFiberId := p.lastFiberId + 1 } := by
  obtain ⟨rfl, hp', hsome, hfiber, hbrk⟩ := beginFiber_eq_some h.process hrun
  rw [hcur] at hbrk hfiber hsome ⊢
  have hgave : ∀ x, s.kernel.gaveOut pp x → k'.gaveOut pp x := by
    intro x hx
    refine ⟨hx.1, ?_⟩
    rw [hbrk]
    have := hx.2
    omega
  have hne : ∀ x, s.kernel.gaveOut pp x → x ≠ s.kernel.nextPtr pp.tgid := by
    intro x hx heq
    have hlt := hx.2
    rw [heq] at hlt
    exact absurd hlt (by simp [Kernel.nextPtr])
  refine ⟨hp', ?_, ?_, ?_, ?_, ?_, ?_, ?_⟩
  · rw [List.nodup_cons]
    exact ⟨fun hmem => hne _ (h.flight_old _ hmem) rfl, h.nodup⟩
  · intro x hx
    obtain rfl | hx := List.mem_cons.mp hx
    · exact hsome
    · rw [hfiber x (hne x (h.flight_old x hx))]
      exact h.alive x hx
  · intro x hx
    obtain rfl | hx := List.mem_cons.mp hx
    · refine ⟨rfl, ?_⟩
      rw [hbrk]
      exact Nat.lt_succ_self _
    · exact hgave x (h.flight_old x hx)
  · intro x hx
    exact hgave x (h.counted_old x hx)
  · show p.lastFiberId + 1 = BitVec.ofNat 64 (p.fibers.size + (s.flight.length + 1))
    rw [h.last, ← Nat.add_assoc, BitVec.ofNat_add _ 1]
    rfl
  · intro l hl
    have hok := h.filling l hl
    have hnot : s.kernel.nextPtr pp.tgid ∉ s.counted :=
      fun hmem => hne _ (h.counted_old _ hmem) rfl
    refine ⟨hok.toStuffOk.mono fun f hf => hf, ?_, ?_, hok.rest⟩
    · rw [List.countP_cons_of_neg (by simpa using hnot)]
      exact hok.balance
    · intro x hx hcount b hb
      obtain rfl | hx := List.mem_cons.mp hx
      · exact absurd hcount hnot
      · refine hok.pending x hx hcount b ?_
        rw [← hb, Kernel.bucketOf, Kernel.bucketOf, Kernel.fiberKey, Kernel.fiberKey,
          hfiber x (hne x (h.flight_old x hx))]
  · intro l hl
    obtain ⟨hok, hend⟩ := h.filled l hl
    exact ⟨hok.mono fun f hf => hf, hend⟩

/-- A creator puts its fiber into the table. -/
theorem insert (h : FillInv E pp s p) (hf : f ∈ s.flight)
    (hrun : execAll E cur (initFiberTail pp f) s.kernel = some ((), k'))
    (hcond : FillEvent.Undisturbed E pp ⟨s, .insert cur f⟩) :
    ∃ p', FillInv E pp { s with kernel := k', flight := s.flight.erase f } p' := by
  obtain ⟨r, hr⟩ := Option.isSome_iff_exists.mp (h.alive f hf)
  obtain ⟨hp', hkey, hbrk⟩ := initFiberTail_eq_some h.process hr hrun
  have hbucket : s.kernel.bucketOf E f = some (E.hash r.fiberId) := by
    simp [Kernel.bucketOf, Kernel.fiberKey, hr]
  have hlen := List.length_erase_of_mem hf
  have hpos := List.length_pos_of_mem hf
  have hsub : ∀ x ∈ p.fibers, x ∈ p.fibers.add (E.hash r.fiberId) f :=
    fun x hx => HashTable.mem_add.mpr (.inr hx)
  refine ⟨{ p with fibers := p.fibers.add (E.hash r.fiberId) f }, hp', h.nodup.erase f, ?_, ?_, ?_,
    ?_, ?_, ?_⟩
  · intro x hx
    obtain ⟨rx, hrx⟩ := Option.isSome_iff_exists.mp (h.alive x (List.mem_of_mem_erase hx))
    have hkx := hkey x
    rw [Kernel.fiberKey, Kernel.fiberKey, hrx] at hkx
    cases hx' : k'.fiber x with
    | none => simp [hx'] at hkx
    | some _ => rfl
  · intro x hx
    have hold := h.flight_old x (List.mem_of_mem_erase hx)
    exact ⟨hold.1, by rw [hbrk]; exact hold.2⟩
  · intro x hx
    have hold := h.counted_old x hx
    exact ⟨hold.1, by rw [hbrk]; exact hold.2⟩
  · show p.lastFiberId = BitVec.ofNat 64 ((p.fibers.add _ f).size + (s.flight.erase f).length)
    rw [h.last, HashTable.size_add, hlen, Nat.add_assoc, Nat.add_comm 1, Nat.sub_add_cancel hpos]
  · intro l hl
    have hok := h.filling l hl
    refine ⟨hok.toStuffOk.mono hsub, ?_, ?_, fun x hx => hsub x (hok.rest x hx)⟩
    · show l.counter.toNat + l.rest.length +
        entriesFrom (p.fibers.add (E.hash r.fiberId) f) l.bucket +
        (s.flight.erase f).countP (· ∈ s.counted) = l.nents.toNat
      have hbal := hok.balance
      rw [entriesFrom_add, List.countP_erase]
      by_cases hcount : f ∈ s.counted
      · have hle := hok.pending f hf hcount _ hbucket
        have hone : 0 < s.flight.countP (· ∈ s.counted) :=
          List.countP_pos_iff.mpr ⟨f, hf, by simpa using hcount⟩
        rw [if_pos hle, if_pos ⟨hf, by simpa using hcount⟩]
        omega
      · have hlt := hcond l hl hcount _ hbucket
        rw [if_neg (by omega), if_neg (by simp [hcount])]
        omega
    · intro x hx hcount b hb
      refine hok.pending x (List.mem_of_mem_erase hx) hcount b ?_
      rw [← hb, Kernel.bucketOf, Kernel.bucketOf, hkey x]
  · intro l hl
    obtain ⟨hok, hend⟩ := h.filled l hl
    exact ⟨hok.mono hsub, hend⟩

/-- The reader reads `last_fiber_id`. -/
theorem read (h : FillInv E pp s p) (hfew : p.fibers.size + s.flight.length ≤ 2 ^ 31) :
    FillInv E pp { s with
      reader := .filling ⟨p.lastFiberId, 0, [], 0, fun _ => none⟩
      counted := s.flight } p := by
  have hnents : p.lastFiberId.toNat = p.fibers.size + s.flight.length := by
    rw [h.last, BitVec.toNat_ofNat]
    omega
  refine ⟨h.process, h.nodup, h.alive, h.flight_old, h.flight_old, h.last, ?_, ?_⟩
  · intro l hl
    obtain rfl : _ = l := by simpa using hl
    refine ⟨⟨?_, ?_, ?_, ?_⟩, ?_, ?_, ?_⟩
    · show p.lastFiberId.toNat ≤ 2 ^ 31
      omega
    · exact Nat.zero_le _
    · intro i hi
      exact absurd rfl hi
    · intro i hi
      exact absurd hi (Nat.not_lt_zero i)
    · have hall : s.flight.countP (· ∈ s.flight) = s.flight.length :=
        List.countP_eq_length.mpr fun x hx => by simpa using hx
      show (0 : BitVec 32).toNat + 0 + entriesFrom p.fibers 0 + s.flight.countP (· ∈ s.flight) = _
      rw [hall, entriesFrom_zero, hnents]
      simp
    · intro x _ _ b _
      exact Nat.zero_le _
    · intro x hx
      simp at hx
  · intro l hl
    cases hl

/-- The walk moves on to the next bucket. -/
theorem enter (h : FillInv E pp s p) {l : FillLoop} (hl : s.reader = .filling l)
    (hrest : l.rest = []) (hb : l.bucket < hSz)
    (hcond : FillEvent.Undisturbed E pp ⟨s, .enter⟩) :
    FillInv E pp { s with
      reader := .filling { l with rest := p.fibers.chain ⟨l.bucket, hb⟩, bucket := l.bucket + 1 } }
      p := by
  have hok := h.filling l hl
  refine ⟨h.process, h.nodup, h.alive, h.flight_old, h.counted_old, h.last, ?_, ?_⟩
  · intro l' hl'
    obtain rfl : _ = l' := by simpa using hl'
    refine ⟨⟨hok.nents_le, hok.counter_le, hok.below, hok.filled⟩, ?_, ?_, ?_⟩
    · have hbal := hok.balance
      rw [hrest, List.length_nil, entriesFrom_succ p.fibers hb] at hbal
      show l.counter.toNat + (p.fibers.chain ⟨l.bucket, hb⟩).length +
        entriesFrom p.fibers (l.bucket + 1) + s.flight.countP (· ∈ s.counted) = l.nents.toNat
      omega
    · intro x hx hcount b hbx
      have hle := hok.pending x hx hcount b hbx
      have hne := hcond l hl x hx hcount b hbx
      show l.bucket + 1 ≤ b.val
      omega
    · intro x hx
      exact ⟨⟨l.bucket, hb⟩, hx⟩
  · intro l' hl'
    cases hl'

/-- One iteration of the loop body. -/
theorem visit (h : FillInv E pp s p) {l : FillLoop} {rest : List Ptr} (hl : s.reader = .filling l)
    (hrest : l.rest = f :: rest) :
    FillInv E pp { s with
      reader := .filling
        { l with
          rest := rest
          stuff := Function.update l.stuff l.counter.toInt (some f)
          counter := l.counter + 1 } } p := by
  have hok := h.filling l hl
  have hbal := hok.balance
  have hnents := hok.nents_le
  rw [hrest, List.length_cons] at hbal
  have hint : l.counter.toInt = l.counter.toNat := BitVec.toInt_eq_toNat_of_lt (by omega)
  have hsucc : (l.counter + 1).toNat = l.counter.toNat + 1 := by
    rw [BitVec.toNat_add]
    show (l.counter.toNat + 1) % 2 ^ 32 = _
    omega
  refine ⟨h.process, h.nodup, h.alive, h.flight_old, h.counted_old, h.last, ?_, ?_⟩
  · intro l' hl'
    obtain rfl : _ = l' := by simpa using hl'
    refine ⟨⟨hnents, ?_, ?_, ?_⟩, ?_, hok.pending, ?_⟩
    · show (l.counter + 1).toNat ≤ l.nents.toNat
      omega
    · intro i hi
      show 0 ≤ i ∧ i < ((l.counter + 1).toNat : ℤ)
      rw [hsucc]
      by_cases hic : i = l.counter.toInt
      · rw [hic, hint]
        omega
      · change Function.update l.stuff l.counter.toInt (some f) i ≠ none at hi
        rw [Function.update_of_ne hic] at hi
        have := hok.below i hi
        omega
    · intro i hi
      change i < (l.counter + 1).toNat at hi
      show ∃ g ∈ p.fibers, Function.update l.stuff l.counter.toInt (some f) i = some g
      by_cases hic : (i : ℤ) = l.counter.toInt
      · rw [hic, Function.update_self]
        exact ⟨f, hok.rest f (by rw [hrest]; exact List.mem_cons_self), rfl⟩
      · rw [Function.update_of_ne hic]
        exact hok.filled i (by omega)
    · show (l.counter + 1).toNat + rest.length + entriesFrom p.fibers l.bucket +
        s.flight.countP (· ∈ s.counted) = l.nents.toNat
      omega
    · intro x hx
      exact hok.rest x (by rw [hrest]; exact List.mem_cons_of_mem _ hx)
  · intro l' hl'
    cases hl'

/-- The loop ends: every counted fiber was met. -/
theorem finish (h : FillInv E pp s p) {l : FillLoop} (hl : s.reader = .filling l)
    (hrest : l.rest = []) (hb : l.bucket = hSz) :
    FillInv E pp { s with reader := .filled l } p := by
  have hok := h.filling l hl
  have hnone : s.flight.countP (· ∈ s.counted) = 0 := by
    rw [List.countP_eq_zero]
    intro x hx hcount
    obtain ⟨r, hr⟩ := Option.isSome_iff_exists.mp (h.alive x hx)
    have hle := hok.pending x hx (by simpa using hcount) (E.hash r.fiberId)
      (by simp [Kernel.bucketOf, Kernel.fiberKey, hr])
    have hlt := (E.hash r.fiberId).isLt
    omega
  refine ⟨h.process, h.nodup, h.alive, h.flight_old, h.counted_old, h.last, ?_, ?_⟩
  · intro l' hl'
    cases hl'
  · intro l' hl'
    obtain rfl : l = l' := by simpa using hl'
    have hbal := hok.balance
    rw [hrest, hnone, hb, entriesFrom_end, List.length_nil] at hbal
    exact ⟨hok.toStuffOk, by omega⟩

end FillInv

/-! ## Whole runs -/

theorem FillInv.step {s s' : FillState} {e : FillEvent} (h : FillInv E pp s p)
    (hs : FillStep E pp s e s') (hcond : e.Undisturbed E pp) : ∃ p', FillInv E pp s' p' := by
  cases hs with
  | take hcur hrun => exact ⟨_, h.take hcur hrun⟩
  | insert hf hrun => exact h.insert hf hrun hcond
  | @read q _ hp =>
    obtain rfl : p = q := Option.some.inj (h.process.symm.trans hp)
    exact ⟨p, h.read (hcond p hp)⟩
  | @enter q l hl hp hrest hb =>
    obtain rfl : p = q := Option.some.inj (h.process.symm.trans hp)
    exact ⟨p, h.enter hl hrest hb hcond⟩
  | visit hl hrest => exact ⟨p, h.visit hl hrest⟩
  | finish hl hrest hb => exact ⟨p, h.finish hl hrest hb⟩

theorem FillInv.of_run {s : FillState} {es : List FillEvent} (hk : Reachable E k)
    (hp : k.process pp = some p) (h : Run (FillStep E pp) ⟨k, [], .idle, []⟩ es s)
    (hcond : ∀ e ∈ es, e.Undisturbed E pp) : ∃ p', FillInv E pp s p' := by
  induction h with
  | nil =>
    refine ⟨p, hp, List.nodup_nil, ?_, ?_, ?_, ?_, ?_, ?_⟩
    · intro f hf
      simp at hf
    · intro f hf
      simp at hf
    · intro f hf
      simp at hf
    · rw [(hk.counted hp).1]
      simp
    · intro l hl
      cases hl
    · intro l hl
      cases hl
  | snoc _ hs ih =>
    obtain ⟨p₁, hinv⟩ := ih fun e he => hcond e (by simp [he])
    exact hinv.step hs (hcond _ (by simp))

/-! ## A walk left alone -/

/-- From any point on, a reader whose process is left alone comes to the end of
    the loop, with one entry more for every node still to come. -/
theorem exists_filled (E : Env) {s : FillState} {l : FillLoop} (hp : s.kernel.process pp = some p)
    (hl : s.reader = .filling l) (hb : l.bucket ≤ hSz)
    (hfew : l.counter.toNat + l.rest.length + entriesFrom p.fibers l.bucket < 2 ^ 31) :
    ∃ es l', Run (FillStep E pp) s es { s with reader := .filled l' } ∧
      (∀ e ∈ es, e.pre.flight = s.flight ∧ (e.op = .enter ∨ e.op = .visit ∨ e.op = .finish)) ∧
      l'.nents = l.nents ∧
      l'.counter.toNat = l.counter.toNat + l.rest.length + entriesFrom p.fibers l.bucket ∧
      (∀ i, l.stuff i ≠ none → l'.stuff i ≠ none) ∧
      ∀ i : ℕ, l.counter.toNat ≤ i → i < l'.counter.toNat → l'.stuff i ≠ none := by
  -- by induction on the number of buckets and nodes to come
  induction hm : (hSz - l.bucket) + (l.rest.length + entriesFrom p.fibers l.bucket)
    using Nat.strong_induction_on generalizing s l with
  | _ n ih =>
    cases hrest : l.rest with
    | nil =>
      rw [hrest, List.length_nil] at hfew hm
      by_cases hlt : l.bucket < hSz
      · let l₁ : FillLoop :=
          { l with rest := p.fibers.chain ⟨l.bucket, hlt⟩, bucket := l.bucket + 1 }
        have hs : FillStep E pp s ⟨s, .enter⟩ { s with reader := .filling l₁ } :=
          .enter hl hp hrest hlt
        have hnext := entriesFrom_succ p.fibers hlt
        obtain ⟨es, l', hrun, hes, hnents, hcounter, hold, hnew⟩ := ih
          ((hSz - (l.bucket + 1)) + ((p.fibers.chain ⟨l.bucket, hlt⟩).length +
            entriesFrom p.fibers (l.bucket + 1))) (by omega)
          (s := { s with reader := .filling l₁ }) hp rfl hlt (by simp only [l₁]; omega) rfl
        refine ⟨_, l', hrun.head hs, ?_, hnents, ?_, hold, hnew⟩
        · intro e he
          obtain rfl | he := List.mem_cons.mp he
          · exact ⟨rfl, .inl rfl⟩
          · exact hes e he
        · rw [hcounter, List.length_nil]
          simp only [l₁]
          omega
      · have hend : l.bucket = hSz := by omega
        have hs : FillStep E pp s ⟨s, .finish⟩ { s with reader := .filled l } :=
          .finish hl hrest hend
        refine ⟨_, l, .single hs, ?_, rfl, ?_, fun _ hi => hi, ?_⟩
        · intro e he
          obtain rfl : e = _ := by simpa using he
          exact ⟨rfl, .inr (.inr rfl)⟩
        · rw [hend, entriesFrom_end, List.length_nil]
          omega
        · intro i hle hlt
          omega
    | cons f rest =>
      rw [hrest, List.length_cons] at hfew hm
      let l₁ : FillLoop :=
        { l with
          rest := rest
          stuff := Function.update l.stuff l.counter.toInt (some f)
          counter := l.counter + 1 }
      have hs : FillStep E pp s ⟨s, .visit⟩ { s with reader := .filling l₁ } := .visit hl hrest
      have hint : l.counter.toInt = l.counter.toNat := BitVec.toInt_eq_toNat_of_lt (by omega)
      have hsucc : (l.counter + 1).toNat = l.counter.toNat + 1 := by
        rw [BitVec.toNat_add]
        show (l.counter.toNat + 1) % 2 ^ 32 = _
        omega
      obtain ⟨es, l', hrun, hes, hnents, hcounter, hold, hnew⟩ := ih
        ((hSz - l.bucket) + (rest.length + entriesFrom p.fibers l.bucket)) (by omega)
        (s := { s with reader := .filling l₁ }) hp rfl hb (by simp only [l₁]; omega) rfl
      simp only [l₁, hsucc] at hcounter hnew
      refine ⟨_, l', hrun.head hs, ?_, hnents, ?_, ?_, ?_⟩
      · intro e he
        obtain rfl | he := List.mem_cons.mp he
        · exact ⟨rfl, .inr (.inl rfl)⟩
        · exact hes e he
      · rw [hcounter, List.length_cons]
        omega
      · intro i hi
        refine hold i ?_
        by_cases hic : i = l.counter.toInt
        · simp [l₁, hic]
        · simpa [l₁, Function.update_of_ne hic] using hi
      · intro i hle hlt
        by_cases hic : i = l.counter.toNat
        · refine hold i ?_
          simp [l₁, hic, hint]
        · exact hnew i (by omega) hlt

/-! ## The array -/

/-- Whatever is created meanwhile, as long as no step disturbs the walk the loop
    writes below `nents` only, and when it has ended every entry passed on is the
    name of a fiber of the process. -/
theorem fill_exact {s : FillState} {es : List FillEvent} (hk : Reachable E k)
    (hp : k.process pp = some p) (h : Run (FillStep E pp) ⟨k, [], .idle, []⟩ es s)
    (hcond : ∀ e ∈ es, e.Undisturbed E pp) :
    (∀ l, s.reader = .filling l ∨ s.reader = .filled l →
      ∀ i, l.stuff i ≠ none → 0 ≤ i ∧ i < l.nents.toNat) ∧
    ∀ l, s.reader = .filled l → ∀ i : ℕ, i < (l.nents.setWidth 32).toNat →
      ∃ p' f, s.kernel.process pp = some p' ∧ f ∈ p'.fibers ∧ l.stuff i = some f := by
  obtain ⟨p', hinv⟩ := FillInv.of_run hk hp h hcond
  constructor
  · intro l hl i hi
    have hok : StuffOk p' l := hl.elim (fun h => (hinv.filling l h).toStuffOk)
      fun h => (hinv.filled l h).1
    have hbelow := hok.below i hi
    have hle := hok.counter_le
    omega
  · intro l hl i hi
    obtain ⟨hok, hend⟩ := hinv.filled l hl
    rw [BitVec.toNat_setWidth] at hi
    have hmod := Nat.mod_le l.nents.toNat (2 ^ 32)
    obtain ⟨f, hf, hs⟩ := hok.filled i (by omega)
    exact ⟨p', f, hinv.process, hf, hs⟩

/-- A process with one fiber, left alone: its one entry is filled. -/
theorem fill_exact_oneFiber : ∃ k pp es s l, Reachable (.linux 240) k ∧
    Run (FillStep (.linux 240) pp) ⟨k, [], .idle, []⟩ es s ∧ s.reader = .filled l ∧ l.nents = 1 ∧
    ∃ p f, s.kernel.process pp = some p ∧ f ∈ p.fibers ∧ l.stuff 0 = some f := by
  obtain ⟨k, pp, p, tp, t, -, -, hreach, hc, -, hsize, hlast, -⟩ :=
    exists_oneFiber (.linux 240) ⟨7, 7⟩
  have hp := hc.process_eq
  have hread : FillStep (.linux 240) pp ⟨k, [], .idle, []⟩ ⟨⟨k, [], .idle, []⟩, .read⟩
      ⟨k, [], .filling ⟨p.lastFiberId, 0, [], 0, fun _ => none⟩, []⟩ := .read rfl hp
  obtain ⟨es, l, hrun, hes, hnents, -⟩ := exists_filled (.linux 240)
    (s := ⟨k, [], .filling ⟨p.lastFiberId, 0, [], 0, fun _ => none⟩, []⟩) hp rfl (Nat.zero_le _)
    (by simp [entriesFrom_zero, hsize])
  have hone : l.nents = 1 := hnents.trans hlast
  have hcond : ∀ e ∈ (⟨⟨k, [], .idle, []⟩, .read⟩ :: es : List FillEvent),
      e.Undisturbed (.linux 240) pp := by
    intro e he
    obtain rfl | he := List.mem_cons.mp he
    · intro q hq
      obtain rfl : p = q := Option.some.inj (hp.symm.trans hq)
      simp [hsize]
    · obtain ⟨hflight, hop⟩ := hes e he
      unfold FillEvent.Undisturbed
      obtain hop | hop | hop := hop
      · rw [hop, hflight]
        intro _ _ f hf
        simp at hf
      · rw [hop]
        trivial
      · rw [hop]
        trivial
  have hfull := (fill_exact hreach hp (hrun.head hread) hcond).2 l rfl 0 (by rw [hone]; decide)
  exact ⟨k, pp, _, _, l, hreach, hrun.head hread, rfl, hone, hfull⟩

/-- One fiber exists when `last_fiber_id` is read, and a second one is put into
    the table before the walk begins: it is written behind the end of the array. -/
theorem fill_overflows : ∃ k pp p es s l, Reachable (.linux 240) k ∧ k.process pp = some p ∧
    Run (FillStep (.linux 240) pp) ⟨k, [], .idle, []⟩ es s ∧ s.reader = .filled l ∧
    ¬ ∀ i, l.stuff i ≠ none → 0 ≤ i ∧ i < l.nents.toNat := by
  obtain ⟨k, pp, p, tp, t, -, -, hreach, hc, -, hsize, hlast, -⟩ :=
    exists_oneFiber (.linux 240) ⟨7, 7⟩
  have hp := hc.process_eq
  have hread : FillStep (.linux 240) pp ⟨k, [], .idle, []⟩ ⟨⟨k, [], .idle, []⟩, .read⟩
      ⟨k, [], .filling ⟨p.lastFiberId, 0, [], 0, fun _ => none⟩, []⟩ := .read rfl hp
  obtain ⟨-, hok, hid⟩ := hreach.inv.toShape.processOf_found hc.process hp
  have hcur : (⟨7, 7⟩ : Task).tgid = pp.tgid := (hok.self.trans hid).symm
  obtain ⟨f, k₁, k₂, hbegin, hend⟩ := exists_halves (E := .linux 240) ⟨7, 7⟩ hp 0 0
  obtain ⟨-, hp₁, hsome, -⟩ := beginFiber_eq_some hp hbegin
  obtain ⟨r, hr⟩ := Option.isSome_iff_exists.mp hsome
  obtain ⟨hp₂, -⟩ := initFiberTail_eq_some hp₁ hr hend
  have htake : FillStep (.linux 240) pp
      ⟨k, [], .filling ⟨p.lastFiberId, 0, [], 0, fun _ => none⟩, []⟩ _
      ⟨k₁, [f], .filling ⟨p.lastFiberId, 0, [], 0, fun _ => none⟩, []⟩ := .take hcur hbegin
  have hinsert : FillStep (.linux 240) pp
      ⟨k₁, [f], .filling ⟨p.lastFiberId, 0, [], 0, fun _ => none⟩, []⟩ _
      ⟨k₂, [f].erase f, .filling ⟨p.lastFiberId, 0, [], 0, fun _ => none⟩, []⟩ :=
    .insert (by simp) hend
  have hsize₂ : (p.fibers.add ((Env.linux 240).hash r.fiberId) f).size = 2 := by
    rw [HashTable.size_add, hsize]
  obtain ⟨es, l, hrun, -, hnents, hcounter, -, hnew⟩ := exists_filled (.linux 240)
    (s := ⟨k₂, [f].erase f, .filling ⟨p.lastFiberId, 0, [], 0, fun _ => none⟩, []⟩) hp₂ rfl
    (Nat.zero_le _) (by simp [entriesFrom_zero, HashTable.size_add, hsize])
  have htwo : l.counter.toNat = 2 := by
    rw [hcounter, entriesFrom_zero, hsize₂]
    rfl
  have hall := Run.trans (.snoc (.snoc (.single hread) htake) hinsert) hrun
  refine ⟨k, pp, p, _, _, l, hreach, hp, hall, rfl, ?_⟩
  intro hbelow
  have hlt := (hbelow ((1 : ℕ) : ℤ) (hnew 1 (Nat.zero_le _) (by omega))).2
  rw [hnents, hlast] at hlt
  exact absurd hlt (by decide)

end AosvFibers
