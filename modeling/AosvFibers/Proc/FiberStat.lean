import AosvFibers.Lib.Reading
import AosvFibers.Fiberlib.Message
import AosvFibers.Proc.FiberFile

/-!
# Reading a fiber's statistics in pieces

`proc_fiber_read` formats the report anew for every call. It takes the offset into
account when it tests for the end, but copies from the beginning of the report, so
every piece starts with the report's first byte.

The report is `C`, some bytes without a `C`, `Cr` and again some bytes without a `C`
(`statText_eq`). What is left of it behind any of its bytes is therefore not made up
of pieces that start with its first two bytes.

Result: `stat_reads_iff`.
-/

namespace AosvFibers

open Lib

/-! ## The text of the report -/

variable {fp : Fiber} {len off : ℕ} {lens : List ℕ}

/-- No byte of a number is a NUL or a `C`. -/
theorem digit_plain {b : Byte} (h : isDigit b = true) : b ≠ 0 ∧ b ≠ 67 := by
  have hrange : 48 ≤ b.toNat ∧ b.toNat ≤ 57 := by simpa [isDigit] using h
  constructor
  · rintro rfl
    simp at hrange
  · rintro rfl
    simp at hrange

/-- The text has neither a NUL nor a `C` in it. -/
def Plain (s : List Byte) : Prop := ∀ b ∈ s, b ≠ 0 ∧ b ≠ 67

instance : DecidablePred Plain := fun s => inferInstanceAs (Decidable (∀ b ∈ s, b ≠ 0 ∧ b ≠ 67))

theorem Plain.append {s t : List Byte} (hs : Plain s) (ht : Plain t) : Plain (s ++ t) := by
  intro b hb
  rcases List.mem_append.mp hb with hb | hb
  · exact hs b hb
  · exact ht b hb

theorem plain_decimal (n : ℕ) : Plain (decimal n) := fun _ hb =>
  digit_plain (isDigit_of_mem_decimal hb)

theorem plain_ldText (w : Word) : Plain (ldText w) := by
  unfold ldText
  split
  · intro b hb
    rcases List.mem_cons.mp hb with rfl | hb
    · decide
    · exact plain_decimal _ b hb
  · exact plain_decimal _

theorem plain_hexText (w : Word) : Plain (hexText w) := by
  intro b hb
  obtain ⟨i, -, rfl⟩ := List.mem_map.mp hb
  set d := w.toNat / 16 ^ (15 - i) % 16 with hd
  have hlt : d < 16 := Nat.mod_lt _ (by norm_num)
  clear_value d
  interval_cases d <;> decide

/-- The report up to the second `C`, without the first one. -/
def statHead (fp : Fiber) : List Byte :=
  ascii "urrently Ongoing: " ++ ascii (if fp.attachedThread.isNone then "no" else "yes") ++
  ascii "\nStart Address: 0x" ++ hexText fp.startAddress ++ ascii "\n"

/-- The report after the second `C` and the `r` that follows it. -/
def statRest (fp : Fiber) : List Byte :=
  ascii "eator thread: " ++ ldText (fp.creatorThread.signExtend 64) ++
  ascii "\n# of current activations: " ++ decimal fp.activationCounter.toNat ++
  ascii "\n# of failed activations: " ++ ldText fp.failedActivationCounter ++
  ascii "\nTotal execution time in user space: " ++
    decimal (fp.totalTime.toNat / 1000000000) ++ ascii "\n"

theorem statText_eq (fp : Fiber) :
    statText fp = 67 :: statHead fp ++ 67 :: 114 :: statRest fp := by
  have h1 : ascii "Currently Ongoing: " = 67 :: ascii "urrently Ongoing: " := by
    simp [ascii]
  have h2 : ascii "\nCreator thread: " = ascii "\n" ++ 67 :: 114 :: ascii "eator thread: " := by
    simp [ascii]
  simp only [statText, statHead, statRest, h1, h2, List.append_assoc, List.cons_append]

theorem plain_statHead (fp : Fiber) : Plain (statHead fp) := by
  have hyes : Plain (ascii (if fp.attachedThread.isNone then "no" else "yes")) := by
    split <;> simp [ascii, Plain]
  unfold statHead
  refine .append (.append (.append (.append ?_ hyes) ?_) (plain_hexText _)) ?_ <;>
    simp [ascii, Plain]

theorem plain_statRest (fp : Fiber) : Plain (statRest fp) := by
  unfold statRest
  refine .append (.append (.append (.append (.append (.append (.append (.append ?_
    (plain_ldText _)) ?_) (plain_decimal _)) ?_) (plain_ldText _)) ?_) (plain_decimal _)) ?_ <;>
    simp [ascii, Plain]

theorem length_decimal_word (w : Word) : (decimal w.toNat).length ≤ 20 :=
  length_decimal_le (by omega) (by omega)

theorem length_ldText_le (w : Word) : (ldText w).length ≤ 21 := by
  have hle : (decimal w.toInt.natAbs).length ≤ 20 := by
    refine length_decimal_le (by omega) ?_
    have := BitVec.toInt_lt (x := w)
    have := BitVec.le_toInt w
    omega
  unfold ldText
  split
  · rw [List.length_cons]
    omega
  · omega

/-- The report fits into `proc_stat_string`. -/
theorem length_statText_lt (fp : Fiber) : (statText fp).length < procStatLen := by
  have h1 := length_ldText_le (fp.creatorThread.signExtend 64)
  have h2 := length_ldText_le fp.failedActivationCounter
  have h3 := length_decimal_word fp.activationCounter
  have h4 : (decimal (fp.totalTime.toNat / 1000000000)).length ≤ 20 :=
    length_decimal_le (by omega) (by omega)
  have h5 : (ascii (if fp.attachedThread.isNone then "no" else "yes")).length ≤ 3 := by
    split <;> simp [ascii]
  have h6 : (hexText fp.startAddress).length = 16 := by simp [hexText]
  have hlits : (ascii "Currently Ongoing: ").length ≤ 40 ∧
      (ascii "\nStart Address: 0x").length ≤ 40 ∧ (ascii "\nCreator thread: ").length ≤ 40 ∧
      (ascii "\n# of current activations: ").length ≤ 40 ∧
      (ascii "\n# of failed activations: ").length ≤ 40 ∧
      (ascii "\nTotal execution time in user space: ").length ≤ 40 ∧ (ascii "\n").length ≤ 40 := by
    simp [ascii]
  simp only [statText, List.length_append, h6]
  show _ < 512
  omega

theorem statText_ne_zero (fp : Fiber) : ∀ b ∈ statText fp, b ≠ 0 := by
  intro b hb
  rw [statText_eq, List.cons_append, List.mem_cons, List.mem_append, List.mem_cons, List.mem_cons] at hb
  rcases hb with rfl | hb | rfl | rfl | hb
  · decide
  · exact (plain_statHead fp b hb).1
  · decide
  · decide
  · exact (plain_statRest fp b hb).1

/-! ## Pieces that start over -/

/-- The text starts like pieces that each start with `C` and go on with `u`. -/
def StartsOver (s : List Byte) : Prop :=
  ∀ b t, s = b :: t → b = 67 ∧ ∀ c t', t = c :: t' → c = 67 ∨ c = 117

theorem StartsOver.piece {s : List Byte} (hs : StartsOver s) (hlen : 0 < len) :
    StartsOver ((statText fp).take len ++ s) := by
  obtain ⟨n, rfl⟩ : ∃ n, len = n + 1 := ⟨len - 1, by omega⟩
  obtain ⟨t, ht⟩ : ∃ t, statText fp = 67 :: 117 :: t := by
    have hu : ascii "urrently Ongoing: " = 117 :: ascii "rrently Ongoing: " := by simp [ascii]
    rw [statText_eq, statHead, hu]
    exact ⟨_, rfl⟩
  intro b t' hbt
  rw [ht, List.take_succ_cons, List.cons_append, List.cons_eq_cons] at hbt
  obtain ⟨rfl, rfl⟩ := hbt
  refine ⟨rfl, ?_⟩
  intro c t'' hct
  cases n with
  | zero => exact .inl (hs c t'' hct).1
  | succ n =>
    rw [List.take_succ_cons, List.cons_append, List.cons_eq_cons] at hct
    exact .inr hct.1.symm

/-- What is left of the report behind one of its bytes is not of this kind. -/
theorem not_startsOver_drop (hlen : 0 < len) (hlt : len < (statText fp).length) :
    ¬ StartsOver ((statText fp).drop len) := by
  intro h
  obtain ⟨n, rfl⟩ : ∃ n, len = n + 1 := ⟨len - 1, by omega⟩
  rw [statText_eq] at h hlt
  rw [List.cons_append, List.drop_succ_cons] at h
  obtain ⟨b, t, hbt⟩ : ∃ b t, (statHead fp ++ 67 :: 114 :: statRest fp).drop n = b :: t := by
    refine List.exists_cons_of_ne_nil ?_
    rw [ne_eq, List.drop_eq_nil_iff]
    simp only [List.cons_append, List.length_cons, List.length_append] at hlt ⊢
    omega
  obtain ⟨rfl, hnext⟩ := h b t hbt
  rcases lt_trichotomy n (statHead fp).length with hn | rfl | hn
  · rw [List.drop_append_of_le_length hn.le] at hbt
    obtain ⟨c, s, hcs⟩ := List.exists_cons_of_ne_nil (l := (statHead fp).drop n) (by simpa using hn)
    rw [hcs, List.cons_append, List.cons_eq_cons] at hbt
    have hc := plain_statHead fp c (List.mem_of_mem_drop (hcs ▸ List.mem_cons_self))
    exact hc.2 hbt.1
  · rw [List.drop_left, List.cons_eq_cons] at hbt
    rcases hnext 114 _ hbt.2.symm with h | h
    · exact absurd h (by decide)
    · exact absurd h (by decide)
  · obtain ⟨m, rfl⟩ : ∃ m, n = (statHead fp).length + (m + 1) := ⟨n - (statHead fp).length - 1, by omega⟩
    rw [← List.drop_drop, List.drop_left, List.drop_succ_cons] at hbt
    have hin : (67 : Byte) ∈ 114 :: statRest fp :=
      List.mem_of_mem_drop (hbt ▸ List.mem_cons_self)
    rcases List.mem_cons.mp hin with h | h
    · exact absurd h (by decide)
    · exact (plain_statRest fp _ h).2 rfl

/-! ## Sequences of reads -/

/-- What a call does with the report `s`. -/
def statPiece (s : List Byte) (len off : ℕ) : List Byte × ℕ :=
  if s.length ≤ off then ([], off) else (s.take len, off + min len s.length)

theorem readStat_eq (fp : Fiber) (len off : ℕ) : readStat (procStatString fp) true len off =
    (.data (statPiece (statText fp) len off).1, (statPiece (statText fp) len off).2) := by
  have hstat : procStatString fp =
      statText fp ++ 0 :: (List.replicate procStatLen 0).drop ((statText fp).length + 1) :=
    snprintf_eq (length_statText_lt fp)
  have hlen : strnlen (procStatString fp) procStatLen = (statText fp).length := by
    rw [hstat]
    exact strnlen_append_nul (statText_ne_zero fp) (length_statText_lt fp)
  have htake : (procStatString fp).take (min len (statText fp).length) = (statText fp).take len := by
    rw [hstat, List.take_append_of_le_length (by omega), List.take_eq_take_iff]
    omega
  unfold readStat statPiece
  rw [hlen]
  split
  · rfl
  · simp only [Bool.not_true, Bool.false_eq_true, if_false, htake]

/-- The results of calls on one open file, each made in the state the module is in
    by then. -/
def statCalls (E : Env) (tgid : PidT) (name : String) : List (Kernel × ℕ) → ℕ →
    Option (List (List Byte))
  | [], _ => some []
  | (k, len) :: calls, off => do
    let ((res, next), _) ← procFiberRead E tgid name true len off k
    return res.bytes :: (← statCalls E tgid name calls next)

/-- In state `k` the file `name` of process `tgid` is the one of a fiber with the
    report `s`. -/
def ReportsAs (E : Env) (tgid : PidT) (name : String) (s : List Byte) (k : Kernel) : Prop :=
  ∃ pp p n f r, k.processOf E tgid = some (some pp) ∧ k.process pp = some p ∧
    kstrtoul name.toList = some n ∧ k.fiberOf E p (BitVec.ofNat 32 n) = some (some f) ∧
    k.fiber f = some r ∧ statText r = s

variable {E : Env} {tgid : PidT} {name : String} {s : List Byte} {k : Kernel}
  {calls : List (Kernel × ℕ)}

theorem ReportsAs.read (h : ReportsAs E tgid name s k) (len off : ℕ) :
    procFiberRead E tgid name true len off k =
      some ((.data (statPiece s len off).1, (statPiece s len off).2), k) := by
  obtain ⟨pp, p, n, f, r, hpp, hp, hn, hf, hr, rfl⟩ := h
  rw [← readStat_eq]
  exact procFiberRead_of_find hpp hp hn hf hr true len off

theorem statCalls_eq (h : ∀ c ∈ calls, ReportsAs E tgid name s c.1) (off : ℕ) :
    statCalls E tgid name calls off = some (results (statPiece s) (calls.map Prod.snd) off) := by
  induction calls generalizing off with
  | nil => rfl
  | cons c calls ih =>
    obtain ⟨k, len⟩ := c
    have hread := (h (k, len) List.mem_cons_self).read len off
    have hrest := ih (fun c hc => h c (List.mem_cons_of_mem _ hc)) (statPiece s len off).2
    unfold statCalls
    rw [hread]
    simp only [Option.bind_eq_bind, Option.bind_some, hrest, Option.pure_def, List.map_cons, results]
    rfl

/-- Short of the end no call returns nothing. -/
theorem not_mem_results_stat (hpos : ∀ len ∈ lens, 0 < len) (h : off + lens.dropLast.sum < s.length) :
    [] ∉ results (statPiece s) lens off := by
  induction lens generalizing off with
  | nil => exact List.not_mem_nil
  | cons len lens ih =>
    have hlen := hpos len List.mem_cons_self
    have hoff : ¬ s.length ≤ off := by omega
    have hne : s.take len ≠ [] := by
      rw [ne_eq, List.take_eq_nil_iff, List.eq_nil_iff_length_eq_zero]
      omega
    rw [results, statPiece, if_neg hoff, List.mem_cons, not_or]
    refine ⟨hne.symm, ?_⟩
    cases lens with
    | nil => exact List.not_mem_nil
    | cons n lens =>
      refine ih (fun m hm => hpos m (List.mem_cons_of_mem _ hm)) ?_
      rw [List.dropLast_cons_of_ne_nil (by simp), List.sum_cons] at h
      show off + min len s.length + _ < s.length
      omega

/-- A call that starts at the end returns nothing. -/
theorem mem_results_stat (hne : lens ≠ []) (h : s.length ≤ off + lens.dropLast.sum) :
    [] ∈ results (statPiece s) lens off := by
  induction lens generalizing off with
  | nil => exact absurd rfl hne
  | cons len lens ih =>
    by_cases hoff : s.length ≤ off
    · rw [results, statPiece, if_pos hoff]
      exact List.mem_cons_self
    · rw [results, statPiece, if_neg hoff]
      cases lens with
      | nil =>
        have hend : s.length ≤ off := by simpa using h
        exact absurd hend hoff
      | cons n lens =>
        refine List.mem_cons_of_mem _ (ih (by simp) ?_)
        rw [List.dropLast_cons_of_ne_nil (by simp), List.sum_cons] at h
        show s.length ≤ off + min len s.length + _
        omega

/-- Every piece starts over. -/
theorem startsOver_results (hpos : ∀ len ∈ lens, 0 < len) :
    StartsOver (beforeEnd (results (statPiece (statText fp)) lens off)) := by
  have hnil : StartsOver [] := fun b t h => by cases h
  induction lens generalizing off with
  | nil => exact hnil
  | cons len lens ih =>
    have hlen := hpos len List.mem_cons_self
    by_cases hoff : (statText fp).length ≤ off
    · rw [results, statPiece, if_pos hoff]
      exact hnil
    · rw [results, statPiece, if_neg hoff]
      have hne : (statText fp).take len ≠ [] := by
        rw [ne_eq, List.take_eq_nil_iff, List.eq_nil_iff_length_eq_zero]
        omega
      rw [beforeEnd_cons hne]
      exact (ih fun m hm => hpos m (List.mem_cons_of_mem _ hm)).piece hlen

/-- Reading the statistics in pieces yields the report exactly if the reading stops
    before the end is returned or the first read asks for the whole report. -/
theorem stat_reads_iff (hcalls : ∀ c ∈ calls, 0 < c.2 ∧ ReportsAs E tgid name (statText fp) c.1) :
    ∃ rs, statCalls E tgid name calls 0 = some rs ∧
      (([] ∈ rs → beforeEnd rs = statText fp) ↔
        (calls.map Prod.snd).dropLast.sum < (statText fp).length ∨
        ∃ len, (calls.map Prod.snd).head? = some len ∧ (statText fp).length ≤ len) := by
  refine ⟨_, statCalls_eq (fun c hc => (hcalls c hc).2) 0, ?_⟩
  have hpos : ∀ len ∈ calls.map Prod.snd, 0 < len := by
    intro len hlen
    obtain ⟨c, hc, rfl⟩ := List.mem_map.mp hlen
    exact (hcalls c hc).1
  generalize calls.map Prod.snd = lens at hpos
  have hne : statText fp ≠ [] := by simp [statText_eq]
  have hsize := List.length_pos_iff.mpr hne
  constructor
  · intro h
    by_contra hno
    obtain ⟨hsum, hhead⟩ := not_or.mp hno
    cases lens with
    | nil => exact hsum (by simpa using hsize)
    | cons len lens =>
      have hlen := hpos len List.mem_cons_self
      have hlt : len < (statText fp).length := by
        by_contra hge
        exact hhead ⟨len, rfl, by omega⟩
      have hend := h (mem_results_stat (by simp) (by omega))
      have hfirst : (statText fp).take len ≠ [] := by
        rw [ne_eq, List.take_eq_nil_iff, not_or]
        exact ⟨by omega, hne⟩
      rw [results, statPiece, if_neg (by omega), beforeEnd_cons hfirst] at hend
      -- the rest of the pieces would have to be the rest of the report
      have hrest : beforeEnd (results (statPiece (statText fp)) lens
          (0 + min len (statText fp).length)) = (statText fp).drop len := by
        refine List.append_cancel_left (hend.trans ?_)
        exact (List.take_append_drop len _).symm
      refine not_startsOver_drop hlen hlt ?_
      rw [← hrest]
      exact startsOver_results fun m hm => hpos m (List.mem_cons_of_mem _ hm)
  · rintro (hsum | ⟨len, hhead, hle⟩) hend
    · exact absurd hend (not_mem_results_stat hpos (by omega))
    · obtain ⟨rest, rfl⟩ : ∃ rest, lens = len :: rest := by
        cases lens with
        | nil => cases hhead
        | cons n rest => exact ⟨rest, by rw [Option.some.inj hhead]⟩
      have hread : statPiece (statText fp) len 0 = readAt (statText fp) len 0 := by
        unfold statPiece readAt
        rw [if_neg (by omega), List.drop_zero, Nat.sub_zero]
      have hagrees : Agrees (statPiece (statText fp)) (statText fp) (len :: rest) 0 := by
        refine ⟨hread, ?_⟩
        have hnext : (readAt (statText fp) len 0).2 = (statText fp).length := by
          show 0 + min len ((statText fp).length - 0) = _
          omega
        rw [hnext]
        exact Agrees.of_end fun n => by rw [statPiece, if_pos le_rfl]
      simpa using (hagrees.readsText hpos (Nat.zero_le _)).whole hend

/-- The file of the only fiber after one conversion. -/
theorem reportsAs_firstConverted :
    let k := Kernel.firstConverted (.linux 240) ⟨7, 7⟩ fun _ => .zero
    ∃ r, k.fiber ⟨7, 2⟩ = some r ∧ ReportsAs (.linux 240) 7 "1" (statText r) k ∧
      (statText r).length = 168 := by
  intro k
  have hcaller := firstConverted_caller (.linux 240) ⟨7, 7⟩ fun _ => .zero
  have hlen : (k.fiber ⟨7, 2⟩).map (fun r => (statText r).length) = some 168 := by decide +kernel
  obtain ⟨r, hr, hsize⟩ := Option.map_eq_some_iff.mp hlen
  have hkey : k.fiberKey ⟨7, 2⟩ = some 1 := by decide +kernel
  have hparse : kstrtoul "1".toList = some 1 := by decide +kernel
  exact ⟨r, hr, ⟨⟨7, 0⟩, _, 1, ⟨7, 2⟩, r, hcaller.process, hcaller.process_eq, hparse,
    HashTable.find_add_self hkey, hr, rfl⟩, hsize⟩

/-- A first read with a large buffer, and the end. -/
theorem stat_reads_firstConverted :
    let k := Kernel.firstConverted (.linux 240) ⟨7, 7⟩ fun _ => .zero
    ∃ r rs, k.fiber ⟨7, 2⟩ = some r ∧
      statCalls (.linux 240) 7 "1" [(k, 512), (k, 1)] 0 = some rs ∧
      ([] ∈ rs → beforeEnd rs = statText r) := by
  intro k
  obtain ⟨r, hr, hfile, hsize⟩ := reportsAs_firstConverted
  have hcalls : ∀ c ∈ [(k, 512), (k, 1)], 0 < c.2 ∧ ReportsAs (.linux 240) 7 "1" (statText r) c.1 := by
    intro c hc
    rcases List.mem_cons.mp hc with rfl | hc
    · exact ⟨by norm_num, hfile⟩
    · obtain rfl := List.mem_singleton.mp hc
      exact ⟨by norm_num, hfile⟩
  obtain ⟨rs, hrs, hiff⟩ := stat_reads_iff hcalls
  exact ⟨r, rs, hr, hrs, hiff.mpr (.inr ⟨512, rfl, by omega⟩)⟩

/-- A first read of 100 bytes: the second one starts over. -/
theorem stat_reads_twice :
    let k := Kernel.firstConverted (.linux 240) ⟨7, 7⟩ fun _ => .zero
    ∃ r rs, k.fiber ⟨7, 2⟩ = some r ∧ ReportsAs (.linux 240) 7 "1" (statText r) k ∧
      statCalls (.linux 240) 7 "1" [(k, 100), (k, 512), (k, 512)] 0 = some rs ∧
      [] ∈ rs ∧ beforeEnd rs ≠ statText r := by
  intro k
  obtain ⟨r, hr, hfile, hsize⟩ := reportsAs_firstConverted
  have hcalls : ∀ c ∈ [(k, 100), (k, 512), (k, 512)],
      ReportsAs (.linux 240) 7 "1" (statText r) c.1 := by
    intro c hc
    obtain rfl | rfl : c = (k, 100) ∨ c = (k, 512) := by simpa using hc
    · exact hfile
    · exact hfile
  have hresults : results (statPiece (statText r)) [100, 512, 512] 0 =
      [(statText r).take 100, (statText r).take 512, []] := by
    simp [results, statPiece, hsize]
  have hne : ∀ n, 0 < n → (statText r).take n ≠ [] := by
    intro n hn
    rw [ne_eq, List.take_eq_nil_iff, List.eq_nil_iff_length_eq_zero]
    omega
  refine ⟨r, _, hr, hfile, (statCalls_eq hcalls 0).trans (congrArg some hresults), by simp, ?_⟩
  intro heq
  rw [beforeEnd_cons (hne 100 (by norm_num)), beforeEnd_cons (hne 512 (by norm_num))] at heq
  have hlen := congrArg List.length heq
  simp [beforeEnd, hsize] at hlen

end AosvFibers
