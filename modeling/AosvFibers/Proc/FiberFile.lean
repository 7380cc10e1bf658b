import AosvFibers.Fiberlib.Init
import AosvFibers.Proc.FiberDir

/-!
# The files in `/proc/<pid>/fibers`

`proc_fiber_base_readdir` and `proc_fiber_base_lookup` build the same array of
entries, one for each fiber, named by the decimal text of the fiber's id. The file
so found is read with `proc_fiber_read`, which parses its own name with `kstrtoul`,
narrows the number to a `pid_t` and looks the fiber up.

Result: `fiber_names_exact`.
-/

namespace AosvFibers

open Lib

variable (E : Env)

/-! ## `kstrtoul` -/

/-- `kstrtoul(s, 10, &res)` of the Linux kernel: an optional plus sign, digits and
    an optional newline, with a value that fits into 64 bits. -/
def kstrtoul (s : List Char) : Option ℕ :=
  let s := if s.head? = some '+' then s.tail else s
  let digits := s.takeWhile Char.isDigit
  let rest := s.dropWhile Char.isDigit
  let n := Nat.ofDigitChars 10 digits 0
  if digits ≠ [] ∧ (rest = [] ∨ rest = ['\n']) ∧ n < 2 ^ 64 then some n else none

/-- A decimal number is read back. -/
theorem kstrtoul_toDigits {n : ℕ} (h : n < 2 ^ 64) : kstrtoul (Nat.toDigits 10 n) = some n := by
  have hdigit : ∀ c ∈ Nat.toDigits 10 n, c.isDigit = true := fun c hc =>
    Nat.isDigit_of_mem_toDigits (by omega) (by omega) hc
  have hne : Nat.toDigits 10 n ≠ [] := Nat.toDigits_ne_nil
  have hplus : (Nat.toDigits 10 n).head? ≠ some '+' := by
    intro hhead
    exact absurd (hdigit '+' (List.mem_of_mem_head? hhead)) (by decide)
  have htake : (Nat.toDigits 10 n).takeWhile Char.isDigit = Nat.toDigits 10 n :=
    List.takeWhile_eq_self_iff.mpr hdigit
  have hdrop : (Nat.toDigits 10 n).dropWhile Char.isDigit = [] :=
    List.dropWhile_eq_nil_iff.mpr hdigit
  unfold kstrtoul
  rw [if_neg hplus]
  simp only [htake, hdrop, Nat.ofDigitChars_ten_toDigits]
  rw [if_pos ⟨hne, .inl trivial, h⟩]

/-! ## The report -/

/-- The bytes of an ASCII text. -/
def ascii (s : String) : List Byte := s.toList.map fun c => BitVec.ofNat 8 c.toNat

/-- What `%016lx` prints. -/
def hexText (w : Word) : List Byte :=
  (List.range 16).map fun i =>
    let d := w.toNat / 16 ^ (15 - i) % 16
    BitVec.ofNat 8 (if d < 10 then 48 + d else 87 + d)

/-- `PROC_STAT_LEN` (module/proc.h:12) -/
abbrev procStatLen : ℕ := 512

/-- The text `proc_fiber_read` formats (module/proc.c:113-121). -/
def statText (fp : Fiber) : List Byte :=
  ascii "Currently Ongoing: " ++ ascii (if fp.attachedThread.isNone then "no" else "yes") ++
  ascii "\nStart Address: 0x" ++ hexText fp.startAddress ++
  ascii "\nCreator thread: " ++ ldText (fp.creatorThread.signExtend 64) ++
  ascii "\n# of current activations: " ++ decimal fp.activationCounter.toNat ++
  ascii "\n# of failed activations: " ++ ldText fp.failedActivationCounter ++
  ascii "\nTotal execution time in user space: " ++
    decimal (fp.totalTime.toNat / 1000000000) ++ ascii "\n"

/-- `proc_stat_string` after the `snprintf`. -/
def procStatString (fp : Fiber) : List Byte :=
  snprintf (List.replicate procStatLen 0) procStatLen (statText fp)

/-- The end of `proc_fiber_read` (module/proc.c:123-130), with the next offset. -/
def readStat (procStatString : List Byte) (copies : Bool) (len off : ℕ) : ReadResult × ℕ :=
  if strnlen procStatString procStatLen ≤ off then (.data [], off)
  else
    let i := min len (strnlen procStatString procStatLen)
    if !copies then (.error 14, off)
    else (.data (procStatString.take i), off + i)

/-- `proc_fiber_read` (module/proc.c:88-131) on the file `name` of process `tgid`. -/
def procFiberRead (tgid : PidT) (name : String) (copies : Bool) (len off : ℕ) :
    K (ReadResult × ℕ) := do
  match ← findProcessByTgid E tgid with
  | none => return (.data [], off)
  | some ep =>
    match kstrtoul name.toList with
    | none => return (.data [], off)
    | some fiberId =>
      match ← findFiberById E (BitVec.ofNat 32 fiberId) ep with
      | none => return (.data [], off)
      | some fp => return readStat (procStatString (← readFiber fp)) copies len off

/-- `proc_fiber_base_lookup` (module/proc.c:45-83) of `name` in the directory of
    process `tgid`: the index of the entry the dentry is instantiated with, and the
    entries read. -/
def procFiberBaseLookup (tgid : PidT) (name : String) : K (Option ℤ × List ℤ) := do
  match ← findProcessByTgid E tgid with
  | none => return (none, [])
  | some ep =>
    let nents := (← readProcess ep).lastFiberId
    let names ← fiberNames (hashForEach (← readProcess ep).fibers)
    return procPidentLookup (fiberBaseStuff names) 0 (nents.setWidth 32) name

/-! ## Names and fibers -/

variable {E} {k : Kernel} {tgid : PidT} {pp f : Ptr} {p : Process} {r : Fiber} {name : String}

theorem toString_toInt {id : PidT} (h : id.toNat < 2 ^ 31) :
    (toString id.toInt).toList = Nat.toDigits 10 id.toNat := by
  have hint : id.toInt = (id.toNat : ℤ) := BitVec.toInt_eq_toNat_of_lt (by omega)
  rw [hint]
  show (Int.repr (id.toNat : ℤ)).toList = _
  rw [Int.repr_eq_if]
  simp

/-- The element a lookup matches is the first one with the name. -/
theorem lookupEntries_fst (mem : ℤ → String) (name : String) (n : ℕ) (p : ℤ) :
    (lookupEntries mem name n p).1 =
      ((entryNames mem p n).findIdx? fun s => decide (s = name)).map fun i : ℕ => p + i := by
  induction n generalizing p with
  | zero => rfl
  | succ n ih =>
    rw [entryNames_succ, List.findIdx?_cons, lookupEntries]
    by_cases h : mem p = name
    · simp [h]
    · simp only [h, if_false, decide_false, Bool.false_eq_true, ih, Option.map_map]
      congr 1
      funext i
      simp
      ring

/-- The images of a list without repetitions are in one-to-one correspondence with
    what is on it. -/
theorem exists_equiv_of_nodup {α β : Type*} [DecidableEq α] {q : α → Prop} {l : List α}
    (g : α → β) (hl : l.Nodup) (hmem : ∀ a, a ∈ l ↔ q a) :
    ∃ e : Fin (l.map g).length ≃ {a // q a}, ∀ i, (l.map g).get i = g (e i) := by
  refine ⟨(finCongr (List.length_map ..)).trans
    ((hl.getEquiv l).trans (Equiv.subtypeEquivRight hmem)), ?_⟩
  intro i
  exact List.getElem_map ..

/-- What holds of the array of a reachable process. -/
theorem Reachable.entries_length (h : Reachable E k) (hp : k.process pp = some p) :
    (k.entries p).length = p.fibers.size ∧
      p.lastFiberId.setWidth 32 = BitVec.ofNat 32 (k.entries p).length := by
  have hlen : (k.entries p).length = p.fibers.size := by
    unfold Kernel.entries
    rw [List.length_map, length_hashForEach]
  refine ⟨hlen, ?_⟩
  rw [hlen, ← BitVec.toNat_inj, (h.counted hp).1, BitVec.toNat_setWidth, BitVec.toNat_ofNat,
    BitVec.toNat_ofNat]
  omega

theorem Reachable.fiberNames_entries (h : Reachable E k) (hp : k.process pp = some p) :
    fiberNames (hashForEach p.fibers) k = some (k.entries p, k) := by
  have hinv := h.inv
  have hok := hinv.procOk hp
  refine fiberNames_eq ?_
  intro f hf
  obtain ⟨r, hr⟩ := hok.fiber_exists (mem_hashForEach.mp hf)
  simp [hr]

/-- The name of a fiber of a reachable process is the decimal text of its id. -/
theorem Reachable.nameOf_eq (h : Reachable E k) (hp : k.process pp = some p)
    (hlt : p.fibers.size < 2 ^ 31) (hf : f ∈ p.fibers) (hr : k.fiber f = some r) :
    r.fiberId.toNat < 2 ^ 31 ∧ (k.nameOf f).toList = Nat.toDigits 10 r.fiberId.toNat := by
  have hnum := (h.counted hp).2 (by omega)
  obtain ⟨i, h1, hi, hkey⟩ := hnum.range f hf
  have hid : r.fiberId = BitVec.ofNat 32 i := by simpa [Kernel.fiberKey, hr] using hkey
  have hsmall : r.fiberId.toNat < 2 ^ 31 := by
    rw [hid, BitVec.toNat_ofNat]
    omega
  have hname : k.nameOf f = toString r.fiberId.toInt := by
    rw [← h.named f r hr]
    simp [Kernel.nameOf, hr]
  refine ⟨hsmall, ?_⟩
  rw [hname, toString_toInt hsmall]

/-- The file whose name is read as the number of a fiber reports on that fiber. -/
theorem procFiberRead_of_find {name : String} {n : ℕ} (hpp : k.processOf E tgid = some (some pp))
    (hp : k.process pp = some p) (hn : kstrtoul name.toList = some n)
    (hf : k.fiberOf E p (BitVec.ofNat 32 n) = some (some f)) (hr : k.fiber f = some r)
    (copies : Bool) (len off : ℕ) :
    procFiberRead E tgid name copies len off k =
      some (readStat (procStatString r) copies len off, k) := by
  simp only [procFiberRead, K.bind_eq_some, findProcessByTgid_eq_some]
  refine ⟨some pp, k, ⟨hpp, rfl⟩, ?_⟩
  simp only [hn, K.bind_eq_some, findFiberById_eq_some]
  refine ⟨some f, k, ⟨p, hp, hf, rfl⟩, ?_⟩
  simp only [K.bind_eq_some, readFiber_eq_some]
  exact ⟨r, k, ⟨hr, rfl⟩, rfl⟩

/-- A file that carries a fiber's name leads to that fiber. -/
theorem procFiberRead_of_name (h : Reachable E k) (hpp : k.processOf E tgid = some (some pp))
    (hp : k.process pp = some p) (hlt : p.fibers.size < 2 ^ 31) (hf : f ∈ p.fibers)
    (hr : k.fiber f = some r) (copies : Bool) (len off : ℕ) :
    procFiberRead E tgid (k.nameOf f) copies len off k =
      some (readStat (procStatString r) copies len off, k) := by
  have hinv := h.inv
  have hok := hinv.procOk hp
  have hnum := (h.counted hp).2 (by omega)
  obtain ⟨hsmall, hname⟩ := h.nameOf_eq hp hlt hf hr
  have hparse : kstrtoul (k.nameOf f).toList = some r.fiberId.toNat := by
    rw [hname]
    exact kstrtoul_toDigits (by omega)
  have hnarrow : BitVec.ofNat 32 r.fiberId.toNat = r.fiberId := BitVec.ofNat_toNat ..
  have hfind : k.fiberOf E p r.fiberId = some (some f) :=
    hnum.inj.find_of_mem hok.fibersWF hf (by simp [Kernel.fiberKey, hr])
  rw [← hnarrow] at hfind
  exact procFiberRead_of_find hpp hp hparse hfind hr copies len off

/-- The entries of a process and its fibers are in one-to-one correspondence, a
    lookup matches exactly the decimal ids of existing fibers, and the file found
    reports on the fiber whose entry carried the name. -/
theorem fiber_names_exact (h : Reachable E k) (hpp : k.processOf E tgid = some (some pp))
    (hp : k.process pp = some p) (hlt : p.fibers.size < 2 ^ 31) :
    (∀ reclen ctx, procFiberBaseReaddir reclen E tgid ctx k =
      some ((procPidentReaddir reclen (fiberBaseStuff (k.entries p)) 0
        (BitVec.ofNat 32 (k.entries p).length) ctx).1, k)) ∧
    (∀ name, procFiberBaseLookup E tgid name k =
      some (procPidentLookup (fiberBaseStuff (k.entries p)) 0
        (BitVec.ofNat 32 (k.entries p).length) name, k)) ∧
    (k.entries p).Nodup ∧
    ∃ e : Fin (k.entries p).length ≃ {f // f ∈ p.fibers},
      (∀ i, (k.entries p).get i = k.nameOf (e i)) ∧
      ∀ name, ∃ found reads, procFiberBaseLookup E tgid name k = some ((found, reads), k) ∧
        (found.isSome ↔ ∃ f ∈ p.fibers, ∃ r, k.fiber f = some r ∧
          name.toList = Nat.toDigits 10 r.fiberId.toNat) ∧
        ∀ i, found = some i → ∃ j : Fin (k.entries p).length, i = (j : ℕ) ∧
          name = (k.entries p).get j ∧ ∃ r, k.fiber (e j) = some r ∧
          ∀ copies len off, procFiberRead E tgid name copies len off k =
            some (readStat (procStatString r) copies len off, k) := by
  have hinv := h.inv
  have hok := hinv.procOk hp
  obtain ⟨hlen, hnents⟩ := h.entries_length hp
  have hnames := h.fiberNames_entries hp
  have hlookup : ∀ name, procFiberBaseLookup E tgid name k =
      some (procPidentLookup (fiberBaseStuff (k.entries p)) 0
        (BitVec.ofNat 32 (k.entries p).length) name, k) := by
    intro name
    simp only [procFiberBaseLookup, K.bind_eq_some, findProcessByTgid_eq_some]
    refine ⟨some pp, k, ⟨hpp, rfl⟩, ?_⟩
    simp only [K.bind_eq_some, readProcess_eq_some]
    exact ⟨p, k, ⟨hp, rfl⟩, p, k, ⟨hp, rfl⟩, _, k, hnames, by rw [hnents]; rfl⟩
  have hnodup : (k.entries p).Nodup := by
    have hdir := h.nodup_dirListing hp (by omega)
    exact (List.nodup_cons.mp (List.nodup_cons.mp hdir).2).2
  refine ⟨?_, hlookup, hnodup, ?_⟩
  · intro reclen ctx
    simp only [procFiberBaseReaddir, K.bind_eq_some, findProcessByTgid_eq_some]
    refine ⟨some pp, k, ⟨hpp, rfl⟩, ?_⟩
    simp only [K.bind_eq_some, readProcess_eq_some]
    exact ⟨p, k, ⟨hp, rfl⟩, p, k, ⟨hp, rfl⟩, _, k, hnames, by rw [hnents]; rfl⟩
  obtain ⟨e, hentry⟩ : ∃ e : Fin (k.entries p).length ≃ {f // f ∈ p.fibers},
      ∀ i, (k.entries p).get i = k.nameOf (e i) :=
    exists_equiv_of_nodup k.nameOf (nodup_hashForEach hok.fibersWF) fun f => mem_hashForEach
  have hexists : ∀ f ∈ p.fibers, ∃ r, k.fiber f = some r := fun f hf => hok.fiber_exists hf
  have hmem : ∀ name : String, name ∈ k.entries p ↔ ∃ f ∈ p.fibers, ∃ r, k.fiber f = some r ∧
      name.toList = Nat.toDigits 10 r.fiberId.toNat := by
    intro name
    constructor
    · intro hin
      obtain ⟨f, hf, rfl⟩ := List.mem_map.mp hin
      obtain ⟨r, hr⟩ := hexists f (mem_hashForEach.mp hf)
      exact ⟨f, mem_hashForEach.mp hf, r, hr, (h.nameOf_eq hp hlt (mem_hashForEach.mp hf) hr).2⟩
    · rintro ⟨f, hf, r, hr, hname⟩
      have heq : name = k.nameOf f :=
        String.toList_injective (hname.trans (h.nameOf_eq hp hlt hf hr).2.symm)
      exact List.mem_map.mpr ⟨f, mem_hashForEach.mpr hf, heq.symm⟩
  refine ⟨e, hentry, ?_⟩
  intro name
  have hfound : (procPidentLookup (fiberBaseStuff (k.entries p)) 0
      (BitVec.ofNat 32 (k.entries p).length) name).1 =
        ((k.entries p).findIdx? fun s => decide (s = name)).map fun i : ℕ => ((0 : ℤ) + i) := by
    have hto : (BitVec.ofNat 32 (k.entries p).length).toNat = (k.entries p).length := by
      rw [BitVec.toNat_ofNat]
      omega
    unfold procPidentLookup
    rw [lookupEntries_fst, hto, entryNames_fiberBaseStuff]
  obtain ⟨⟨found, reads⟩, hpair⟩ : ∃ x, procPidentLookup (fiberBaseStuff (k.entries p)) 0
      (BitVec.ofNat 32 (k.entries p).length) name = x := ⟨_, rfl⟩
  rw [hpair] at hfound
  replace hfound : found = _ := hfound
  refine ⟨found, reads, by rw [hlookup name, hpair], ?_, ?_⟩
  · rw [hfound, Option.isSome_map, List.findIdx?_isSome, ← hmem name]
    simp
  · intro i hi
    rw [hfound] at hi
    obtain ⟨j, hj, rfl⟩ := Option.map_eq_some_iff.mp hi
    obtain ⟨hjlt, hjeq, -⟩ := List.findIdx?_eq_some_iff_getElem.mp hj
    obtain ⟨r, hr⟩ := hexists (e ⟨j, hjlt⟩) (e ⟨j, hjlt⟩).2
    have hname : name = (k.entries p).get ⟨j, hjlt⟩ := (of_decide_eq_true hjeq).symm
    refine ⟨⟨j, hjlt⟩, by simp, hname, r, hr, ?_⟩
    intro copies len off
    rw [hname, hentry]
    exact procFiberRead_of_name h hpp hp hlt (e ⟨j, hjlt⟩).2 hr copies len off

/-- After one conversion the name `1` matches the only entry. -/
theorem fiber_names_exact_oneFiber :
    let k := Kernel.firstConverted (.linux 240) ⟨7, 7⟩ fun _ => .zero
    ∃ reads, procFiberBaseLookup (.linux 240) 7 "1" k = some ((some 0, reads), k) := by
  intro k
  have hreach : Reachable (.linux 240) k := .firstConverted (.linux 240) ⟨7, 7⟩ _
  have hcaller := firstConverted_caller (.linux 240) ⟨7, 7⟩ fun _ => .zero
  have hone : (HashTable.empty.add (hash32 1) ⟨7, 2⟩ : Table).size = 1 := by
    rw [HashTable.size_add, HashTable.size_empty]
  have hlt := lt_of_eq_of_lt hone (show 1 < 2 ^ 31 by norm_num)
  have hmem : (⟨7, 2⟩ : Ptr) ∈ (HashTable.empty.add (hash32 1) ⟨7, 2⟩ : Table) :=
    HashTable.mem_add.mpr (.inl rfl)
  have hinv := hreach.inv
  have hpp := hinv.linkedProcess _ (Option.isSome_iff_exists.mpr ⟨_, hcaller.process_eq⟩)
  have hok := hinv.proc _ hpp _ hcaller.process_eq
  obtain ⟨r, hr⟩ := hok.fiber_exists hmem
  have hname := (hreach.nameOf_eq hcaller.process_eq hlt hmem hr).2
  rw [nameOf_firstConverted] at hname
  have hlen := congrArg List.length (entries_firstConverted (.linux 240) ⟨7, 7⟩ _ hcaller.process_eq)
  obtain ⟨-, -, -, e, -, hlookup⟩ :=
    fiber_names_exact hreach hcaller.process hcaller.process_eq hlt
  obtain ⟨found, reads, hrun, hiff, hindex⟩ := hlookup "1"
  obtain ⟨i, rfl⟩ := Option.isSome_iff_exists.mp (hiff.mpr ⟨⟨7, 2⟩, hmem, r, hr, hname⟩)
  obtain ⟨j, rfl, -⟩ := hindex i rfl
  have hj : (j : ℕ) = 0 := Nat.lt_one_iff.mp (lt_of_lt_of_eq j.isLt hlen)
  refine ⟨reads, ?_⟩
  rw [hrun, hj]
  rfl

end AosvFibers
