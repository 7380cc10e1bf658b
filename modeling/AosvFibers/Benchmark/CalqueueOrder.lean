import AosvFibers.Benchmark.CalqueueBag

/-!
# When the calendar queue is a priority queue

With exact arithmetic in place of `double`. `Calqueue.Aligned` says that the search stands at the
bucket of the priority taken last, with the top of that bucket, and that no node is earlier. A
search that finds its node within a year (`nbuckets` buckets) and the bucket after it takes the
least node and leaves the queue aligned. A direct search that finds a later node does not: it leaves
`buckettop` where the year ended.

Main results:
* `calqueue_priority_queue`: in a run whose searches stay within a year, `calqueue_get` returns a
  node of the least priority and nothing goes wrong.
* `calqueue_corrupts`: otherwise a bucket number can become negative.
-/

namespace AosvFibers.Benchmark

open Lib

variable {K α : Type} [Field K] [LinearOrder K] [IsStrictOrderedRing K] [FloorRing K]

/-! ## Virtual buckets -/

/-- The virtual bucket of a priority. -/
def slot (w p : K) : ℤ := ⌊p / w⌋

section Slot

variable {w p p' : K} {n : ℤ} (hw : 0 < w)

include hw

theorem le_slot_iff : n ≤ slot w p ↔ (n : K) * w ≤ p := by
  rw [slot, Int.le_floor, le_div_iff₀ hw]

theorem slot_lt_iff : slot w p < n ↔ p < n * w := by
  rw [slot, Int.floor_lt, div_lt_iff₀ hw]

theorem slot_mono (h : p ≤ p') : slot w p ≤ slot w p' :=
  (le_slot_iff hw).mpr (((le_slot_iff hw).mp le_rfl).trans h)

theorem slot_nonneg (hp : 0 ≤ p) : 0 ≤ slot w p := by
  rw [le_slot_iff hw]
  simpa using hp

theorem lt_of_slot_lt (h : slot w p < slot w p') : p < p' := by
  by_contra hle
  have := slot_mono hw (not_lt.mp hle)
  omega

theorem exact_toInt (hp : 0 ≤ p) : (Arith.exact K).toInt ((Arith.exact K).div p w) = slot w p :=
  if_pos (div_nonneg hp hw.le)

theorem exact_number (hp : 0 ≤ p) (nb : ℕ) : (Arith.exact K).number w nb p = slot w p % nb := by
  rw [Arith.number, exact_toInt hw hp, Int.tmod_eq_emod_of_nonneg (slot_nonneg hw hp)]

end Slot

/-- The bucket `t` virtual buckets behind bucket `n`. -/
theorem emod_add_eq {n : ℤ} {nb t : ℕ} (ht : t < nb) :
    (n + t) % nb = if n % nb + t < nb then n % nb + t else n % nb + t - nb := by
  have h0 : 0 ≤ n % nb := Int.emod_nonneg n (by omega)
  have hlt : n % nb < nb := Int.emod_lt_of_pos n (by omega)
  have hmod : (n + t) % nb = (n % nb + t) % nb := (Int.emod_add_emod n nb t).symm
  rw [hmod]
  split_ifs with hif
  · exact Int.emod_eq_of_lt (by omega) hif
  · rw [← Int.sub_emod_right]
    exact Int.emod_eq_of_lt (by omega) (by omega)

/-- Two virtual buckets less than a year apart that are the same bucket are the same. -/
theorem eq_of_emod_eq {m n : ℤ} {nb : ℕ} (h : m % nb = n % nb) (hle : n ≤ m) (hlt : m < n + nb) :
    m = n := by
  have hdvd : (nb : ℤ) ∣ m - n :=
    Int.dvd_of_emod_eq_zero (Int.emod_eq_emod_iff_emod_sub_eq_zero.mp h)
  have := Int.eq_zero_of_dvd_of_nonneg_of_lt (show 0 ≤ m - n by omega) (by omega) hdvd
  omega

namespace Calqueue

variable {q : Calqueue K α}

/-! ## The position of the search -/

/-- The search stands at the priority that was taken last, and no node is earlier. -/
structure Aligned (q : Calqueue K α) : Prop where
  width : 0 < q.cwidth
  start : 0 ≤ q.lastprio
  bucket : q.lastbucket = slot q.cwidth q.lastprio % q.nbuckets
  top : q.buckettop = (slot q.cwidth q.lastprio + 1) * q.cwidth + 1 / 2 * q.cwidth
  later : ∀ e ∈ q.items, q.lastprio ≤ e.priority

/-- The virtual bucket the search stands at. -/
def now (q : Calqueue K α) : ℤ := slot q.cwidth q.lastprio

/-- The top of the bucket `t` behind the one the search stands at. -/
def topAt (q : Calqueue K α) (t : ℕ) : K :=
  ((q.now + t + 1 : ℤ) : K) * q.cwidth + (Arith.exact K).half * q.cwidth

omit [IsStrictOrderedRing K] in
theorem topAt_eq (q : Calqueue K α) (t : ℕ) :
    q.topAt t = ((q.now + t + 1 : ℤ) : K) * q.cwidth + 1 / 2 * q.cwidth := rfl

omit [IsStrictOrderedRing K] in
theorem Aligned.behind_eq (h : q.Aligned) {t : ℕ} (ht : t < q.nbuckets) :
    q.behind t = (q.now + t) % q.nbuckets := by
  rw [behind, h.bucket, emod_add_eq ht]
  rfl

omit [IsStrictOrderedRing K] in
theorem Aligned.nonneg (h : q.Aligned) {e : Node K α} (he : e ∈ q.items) : 0 ≤ e.priority :=
  h.start.trans (h.later e he)

theorem Aligned.now_le (h : q.Aligned) {e : Node K α} (he : e ∈ q.items) :
    q.now ≤ slot q.cwidth e.priority :=
  slot_mono h.width (h.later e he)

omit [IsStrictOrderedRing K] in
/-- The head of a bucket is its least node. -/
theorem head_le (hs : q.Shape (Arith.exact K)) {j : ℕ} (hj : j < q.nbuckets) {e : Node K α}
    {rest : List (Node K α)} (hl : q.calq (q.firstsub + j) = e :: rest) :
    ∀ x ∈ q.calq (q.firstsub + j), e.priority ≤ x.priority := by
  intro x hx
  have hord := (hs.bucket j hj).inOrder Arith.exact_linear
  rw [hl] at hord hx
  obtain rfl | hx := List.mem_cons.mp hx
  · exact le_rfl
  · simpa [Arith.exact] using (List.pairwise_cons.mp hord).1 x hx

variable (hs : q.Shape (Arith.exact K)) (h : q.Aligned)

include hs h

/-- The bucket a node is in. -/
theorem slot_emod {j : ℕ} (hj : j < q.nbuckets) {e : Node K α}
    (he : e ∈ q.calq (q.firstsub + j)) : slot q.cwidth e.priority % q.nbuckets = j := by
  rw [← exact_number h.width (h.nonneg (mem_items hj he))]
  exact (hs.bucket j hj).number e he

/-- A node is in the bucket of its number. -/
theorem mem_bucket {e : Node K α} (he : e ∈ q.items) {j : ℕ}
    (hj : slot q.cwidth e.priority % q.nbuckets = j) : e ∈ q.calq (q.firstsub + j) := by
  obtain ⟨i, hi, hin⟩ := mem_contents.mp he
  have hij : (i : ℤ) = j := by rw [← slot_emod hs h hi hin, hj]
  obtain rfl : i = j := by omega
  exact hin

/-- The bucket `t` behind is due if a node of that very virtual bucket is in it, none being
    earlier. -/
theorem ready_iff {t j : ℕ} (ht : t < q.nbuckets) (hj : j < q.nbuckets) (hb : q.behind t = j)
    (hle : ∀ e ∈ q.items, q.now + t ≤ slot q.cwidth e.priority) :
    ready (Arith.exact K) (q.topAt t) (q.calq (q.firstsub + j)) ↔
      ∃ e rest, q.calq (q.firstsub + j) = e :: rest ∧ slot q.cwidth e.priority = q.now + t := by
  have hw := h.width
  have htwo := hs.le_nbuckets
  constructor
  · intro hready
    cases hl : q.calq (q.firstsub + j) with
    | nil =>
      rw [hl] at hready
      cases hready
    | cons e rest =>
      refine ⟨e, rest, rfl, ?_⟩
      have hin : e ∈ q.calq (q.firstsub + j) := by
        rw [hl]
        exact List.mem_cons_self
      rw [hl] at hready
      have hlt : e.priority < q.topAt t := by simpa [ready, Arith.exact] using hready
      -- half a bucket too far does not reach the bucket after the next one
      have hnext : slot q.cwidth e.priority < q.now + t + 2 := by
        rw [slot_lt_iff hw]
        rw [topAt_eq] at hlt
        push_cast at hlt ⊢
        linarith
      have hmod : slot q.cwidth e.priority % q.nbuckets = (q.now + t) % q.nbuckets := by
        rw [slot_emod hs h hj hin, ← h.behind_eq ht, hb]
      exact eq_of_emod_eq hmod (hle e (mem_items hj hin)) (by omega)
  · rintro ⟨e, rest, hl, hslot⟩
    have hlt : e.priority < ((q.now + t + 1 : ℤ) : K) * q.cwidth := by
      rw [← slot_lt_iff hw]
      omega
    rw [hl]
    have : e.priority < q.topAt t := by
      rw [topAt_eq]
      linarith
    simpa [ready, Arith.exact] using this

/-- Where the bucket `t` behind is not due, all nodes are later. -/
theorem later_of_not_ready {t j : ℕ} (ht : t < q.nbuckets) (hj : j < q.nbuckets)
    (hb : q.behind t = j) (hle : ∀ e ∈ q.items, q.now + t ≤ slot q.cwidth e.priority)
    (hready : ¬ ready (Arith.exact K) (q.topAt t) (q.calq (q.firstsub + j))) :
    ∀ e ∈ q.items, q.now + (t + 1 : ℕ) ≤ slot q.cwidth e.priority := by
  intro e he
  by_contra hlt
  have hslot : slot q.cwidth e.priority = q.now + t := by
    have := hle e he
    omega
  refine hready ((ready_iff hs h ht hj hb hle).mpr ?_)
  have hin : e ∈ q.calq (q.firstsub + j) := by
    refine mem_bucket hs h he ?_
    rw [hslot, ← h.behind_eq ht, hb]
  obtain ⟨e₀, rest, hl⟩ := List.exists_cons_of_ne_nil (List.ne_nil_of_mem hin)
  refine ⟨e₀, rest, hl, le_antisymm ?_ (hle e₀ (mem_items hj ?_))⟩
  · rw [← hslot]
    exact slot_mono h.width (head_le hs hj hl e hin)
  · rw [hl]
    exact List.mem_cons_self

/-- A head with the least virtual bucket is a least node. -/
theorem least_of_slot {j : ℕ} (hj : j < q.nbuckets) {e : Node K α} {rest : List (Node K α)}
    (hl : q.calq (q.firstsub + j) = e :: rest)
    (hle : ∀ x ∈ q.items, slot q.cwidth e.priority ≤ slot q.cwidth x.priority) :
    ∀ x ∈ q.items, e.priority ≤ x.priority := by
  intro x hx
  obtain heq | hlt := (hle x hx).eq_or_lt
  · refine head_le hs hj hl x (mem_bucket hs h hx ?_)
    rw [← heq]
    refine slot_emod hs h hj ?_
    rw [hl]
    exact List.mem_cons_self
  · exact (lt_of_slot_lt h.width hlt).le

/-- The loop of the search finds a least node, or there is none within the year. -/
theorem scan_aligned : ∀ fuel t, 0 < fuel → fuel + t = q.nbuckets →
    (∀ e ∈ q.items, q.now + t ≤ slot q.cwidth e.priority) →
    (∃ j e rest t', scan (Arith.exact K) q fuel (q.behind t) (q.topAt t) =
        .ok (some ((j : ℕ) : ℤ), q.topAt t') ∧ j < q.nbuckets ∧
      q.calq (q.firstsub + j) = e :: rest ∧ slot q.cwidth e.priority = q.now + t' ∧
      ∀ x ∈ q.items, e.priority ≤ x.priority) ∨
    (scan (Arith.exact K) q fuel (q.behind t) (q.topAt t) = .ok (none, q.topAt q.nbuckets) ∧
      ∀ x ∈ q.items, q.now + q.nbuckets ≤ slot q.cwidth x.priority) := by
  intro fuel
  have h0 : 0 ≤ q.lastbucket := by
    rw [h.bucket]
    exact Int.emod_nonneg _ (by have := hs.le_nbuckets; omega)
  induction fuel with
  | zero =>
    intro t hpos
    omega
  | succ fuel ih =>
    intro t _ hfuel hle
    have ht : t < q.nbuckets := by omega
    obtain ⟨j, hj, hb, hscan⟩ := hs.scan_succ h0 (q.topAt t) ht
    rw [hscan]
    have hnext : (Arith.exact K).add (q.topAt t) q.cwidth = q.topAt (t + 1) := by
      show q.topAt t + q.cwidth = q.topAt (t + 1)
      rw [topAt_eq, topAt_eq]
      push_cast
      ring
    split_ifs with hready hend
    · left
      obtain ⟨e, rest, hl, hslot⟩ := (ready_iff hs h ht hj hb hle).mp hready
      refine ⟨j, e, rest, t, rfl, hj, hl, hslot, least_of_slot hs h hj hl ?_⟩
      rw [hslot]
      exact hle
    · right
      rw [hnext, hend]
      refine ⟨rfl, ?_⟩
      rw [← hend]
      exact later_of_not_ready hs h ht hj hb hle hready
    · rw [hnext]
      exact ih (t + 1) (by omega) (by omega) (later_of_not_ready hs h ht hj hb hle hready)

omit h in
omit [IsStrictOrderedRing K] in
/-- The direct search finds a least node. -/
theorem directSearch_least (hne : q.qsize ≠ 0) :
    ∃ j e rest, directSearch (Arith.exact K) q = .ok (some j) ∧ j < q.nbuckets ∧
      q.calq (q.firstsub + j) = e :: rest ∧ ∀ x ∈ q.items, e.priority ≤ x.priority := by
  let I : List ℕ → Option ℕ × K → Prop := fun done st =>
    (st.1 = none ∧ ∀ i ∈ done, q.calq (q.firstsub + i) = []) ∨
    ∃ j e rest, st = (some j, e.priority) ∧ j < q.nbuckets ∧ q.calq (q.firstsub + j) = e :: rest ∧
      ∀ i ∈ done, ∀ x ∈ q.calq (q.firstsub + i), e.priority ≤ x.priority
  have hloop : Ends (fun _ => False) ((List.range q.nbuckets).foldlM (lowestOf (Arith.exact K) q)
      (none, (Arith.exact K).ofInt (2 ^ 63 - 1))) (I (List.range q.nbuckets)) := by
    refine .foldlM (.inl ⟨rfl, fun i hi => by cases hi⟩) ?_
    intro done i st hpre hI
    have hi : i < q.nbuckets := List.mem_range.mp (hpre.subset (by simp))
    rw [hs.lowestOf_eq st hi]
    cases hl : q.calq (q.firstsub + i) with
    | nil =>
      obtain ⟨hnone, hnil⟩ | ⟨j, e, rest, hst, hj, hj', hle⟩ := hI
      · refine .inl ⟨hnone, fun x hx => ?_⟩
        obtain hx | hx := List.mem_append.mp hx
        · exact hnil x hx
        · exact List.mem_singleton.mp hx ▸ hl
      · refine .inr ⟨j, e, rest, hst, hj, hj', fun x hx y hy => ?_⟩
        obtain hx | hx := List.mem_append.mp hx
        · exact hle x hx y hy
        · rw [List.mem_singleton.mp hx, hl] at hy
          cases hy
    | cons e₁ rest₁ =>
      have hhead := head_le hs hi hl
      show I (done ++ [i]) (if _ then _ else _)
      obtain ⟨hnone, hnil⟩ | ⟨j, e, rest, rfl, hj, hj', hle⟩ := hI
      · rw [if_pos (.inl (by rw [hnone]; rfl))]
        refine .inr ⟨i, e₁, rest₁, rfl, hi, hl, fun x hx y hy => ?_⟩
        obtain hx | hx := List.mem_append.mp hx
        · rw [hnil x hx] at hy
          cases hy
        · exact hhead y (List.mem_singleton.mp hx ▸ hy)
      · split_ifs with hif
        · have hlt : e₁.priority < e.priority := by simpa [Arith.exact] using hif
          refine .inr ⟨i, e₁, rest₁, rfl, hi, hl, fun x hx y hy => ?_⟩
          obtain hx | hx := List.mem_append.mp hx
          · exact hlt.le.trans (hle x hx y hy)
          · exact hhead y (List.mem_singleton.mp hx ▸ hy)
        · have hge : e.priority ≤ e₁.priority := by simpa [Arith.exact] using hif
          refine .inr ⟨j, e, rest, rfl, hj, hj', fun x hx y hy => ?_⟩
          obtain hx | hx := List.mem_append.mp hx
          · exact hle x hx y hy
          · exact hge.trans (hhead y (List.mem_singleton.mp hx ▸ hy))
  obtain ⟨st, hst, hI⟩ := hloop.exists_ok
  obtain ⟨-, hnil⟩ | ⟨j, e, rest, rfl, hj, hl, hle⟩ := hI
  · obtain ⟨j, hj, hl⟩ := hs.exists_bucket hne
    exact absurd (hnil j (List.mem_range.mpr hj)) hl
  · refine ⟨j, e, rest, ?_, hj, hl, fun x hx => ?_⟩
    · unfold directSearch
      rw [hst]
      rfl
    · obtain ⟨i, hi, hin⟩ := mem_contents.mp hx
      exact hle i (List.mem_range.mpr hi) x hin

omit hs h in
/-- Some node is at most a year behind the search. -/
def Near (q : Calqueue K α) : Prop :=
  ∃ e ∈ q.items, slot q.cwidth e.priority ≤ q.now + q.nbuckets

/-- A search that stays within a year, or ends in the bucket after it, finds a least node and the
    top of its bucket. -/
theorem search_aligned (hnear : q.Near) :
    ∃ j e rest top, search (Arith.exact K) q = .ok (((j : ℕ) : ℤ), top) ∧ j < q.nbuckets ∧
      q.calq (q.firstsub + j) = e :: rest ∧ (∀ x ∈ q.items, e.priority ≤ x.priority) ∧
      (j : ℤ) = slot q.cwidth e.priority % q.nbuckets ∧
      top = (slot q.cwidth e.priority + 1) * q.cwidth + 1 / 2 * q.cwidth := by
  have htwo := hs.le_nbuckets
  obtain ⟨e₁, he₁, hyear⟩ := hnear
  have hne : q.qsize ≠ 0 := by
    intro hzero
    rw [hs.count, Multiset.card_eq_zero] at hzero
    rw [hzero] at he₁
    cases he₁
  have hbucket : ∀ {j : ℕ} {e : Node K α} {rest : List (Node K α)}, j < q.nbuckets →
      q.calq (q.firstsub + j) = e :: rest → (j : ℤ) = slot q.cwidth e.priority % q.nbuckets := by
    intro j e rest hj hl
    refine (slot_emod hs h hj ?_).symm
    rw [hl]
    exact List.mem_cons_self
  have hstart : q.buckettop = q.topAt 0 := by
    rw [h.top, topAt_eq, now]
    push_cast
    ring
  have hlast : q.lastbucket < q.nbuckets := hs.last
  unfold search
  rw [← behind_zero hlast, hstart]
  obtain ⟨j, e, rest, t, hscan, hj, hl, hslot, hleast⟩ | ⟨hscan, hall⟩ :=
    scan_aligned hs h q.nbuckets 0 (by omega) rfl (fun e he => by simpa using h.now_le he)
  · refine ⟨j, e, rest, q.topAt t, ?_, hj, hl, hleast, hbucket hj hl, ?_⟩
    · rw [hscan]
      rfl
    · rw [topAt_eq, hslot]
      push_cast
      ring
  · obtain ⟨j, e, rest, hdirect, hj, hl, hleast⟩ := directSearch_least hs hne
    have hin : e ∈ q.items := by
      refine mem_items hj ?_
      rw [hl]
      exact List.mem_cons_self
    have hslot : slot q.cwidth e.priority = q.now + q.nbuckets :=
      le_antisymm ((slot_mono h.width (hleast e₁ he₁)).trans hyear) (hall e hin)
    refine ⟨j, e, rest, q.topAt q.nbuckets, ?_, hj, hl, hleast, hbucket hj hl, ?_⟩
    · rw [hscan, hdirect]
      rfl
    · rw [topAt_eq, hslot]
      push_cast
      ring

/-- Such a search leaves the queue aligned. -/
theorem take_aligned (hnear : q.Near) :
    ∃ e q', take (Arith.exact K) q = .ok (e, q') ∧ q'.Shape (Arith.exact K) ∧ SameCalendar q q' ∧
      q.items = e ::ₘ q'.items ∧ (∀ x ∈ q.items, e.priority ≤ x.priority) ∧ q'.Aligned ∧
      q'.lastprio = e.priority := by
  obtain ⟨j, e, rest, top, hsearch, hj, hl, hleast, hbucket, htop⟩ := search_aligned hs h hnear
  obtain ⟨q', hq', hshape, hsame, hitems, hlast, hprio, hbt⟩ := (hs.moved top).remove_eq hj hl
  have hin : e ∈ q.items := by
    refine mem_items hj ?_
    rw [hl]
    exact List.mem_cons_self
  have hw : q'.cwidth = q.cwidth := hsame.width
  have hnb : q'.nbuckets = q.nbuckets := hsame.nbuckets
  refine ⟨e, q', ?_, hshape, ?_, hitems, hleast, ⟨?_, ?_, ?_, ?_, ?_⟩, hprio⟩
  · unfold take
    rw [hsearch]
    exact hq'
  · obtain ⟨h1, h2, h3, h4, h5, h6, h7⟩ := hsame
    exact ⟨h1, h2, h3, h4, h5, h6, h7⟩
  · rw [hw]
    exact h.width
  · rw [hprio]
    exact h.nonneg hin
  · rw [hlast, hprio, hw, hnb, hbucket]
  · rw [hbt, hprio, hw]
    exact htop
  · intro x hx
    rw [hprio]
    refine hleast x ?_
    have hmem : x ∈ e ::ₘ q'.items := Multiset.mem_cons_of_mem hx
    rw [← hitems] at hmem
    exact hmem

/-! ## The sample and the new width -/

omit hs h in
/-- No two of the nodes `s` have the same priority, and in order of priority each of them is at
    most a year behind the one before it, or behind the search. -/
structure Spread (q : Calqueue K α) (s : Multiset (Node K α)) : Prop where
  nodup : (s.map Node.priority).Nodup
  close : ∀ e ∈ s, slot q.cwidth e.priority ≤ q.now + q.nbuckets ∨
    ∃ x ∈ s, x.priority < e.priority ∧
      slot q.cwidth e.priority ≤ slot q.cwidth x.priority + q.nbuckets

omit hs h in
omit [IsStrictOrderedRing K] in
theorem Spread.near (hspread : q.Spread q.items) (hne : q.items ≠ 0) : q.Near := by
  classical
  obtain ⟨e₁, he₁⟩ := Multiset.exists_mem_of_ne_zero hne
  obtain ⟨e, he, hleast⟩ := q.items.toFinset.exists_min_image Node.priority
    ⟨e₁, Multiset.mem_toFinset.mpr he₁⟩
  have hin := Multiset.mem_toFinset.mp he
  refine ⟨e, hin, (hspread.close e hin).resolve_right ?_⟩
  rintro ⟨x, hx, hlt, -⟩
  exact absurd (hleast x (Multiset.mem_toFinset.mpr hx)) (not_le.mpr hlt)

omit hs in
/-- Without their least node the nodes are spread behind it. -/
theorem Spread.tail {q' : Calqueue K α} {e : Node K α} (hspread : q.Spread q.items)
    (hsame : SameCalendar q q') (hitems : q.items = e ::ₘ q'.items)
    (hprio : q'.lastprio = e.priority) : q'.Spread q'.items := by
  have hw : q'.cwidth = q.cwidth := hsame.width
  have hnb : q'.nbuckets = q.nbuckets := hsame.nbuckets
  have hnow : q'.now = slot q.cwidth e.priority := by rw [now, hw, hprio]
  constructor
  · have hnodup := hspread.nodup
    rw [hitems, Multiset.map_cons] at hnodup
    exact (Multiset.nodup_cons.mp hnodup).2
  · intro x hx
    have hin : x ∈ q.items := by
      rw [hitems]
      exact Multiset.mem_cons_of_mem hx
    have he : q.now ≤ slot q.cwidth e.priority := by
      refine h.now_le ?_
      rw [hitems]
      exact Multiset.mem_cons_self e _
    rw [hw, hnb, hnow]
    obtain hle | ⟨y, hy, hlt, hle⟩ := hspread.close x hin
    · exact .inl (by omega)
    · rw [hitems] at hy
      obtain rfl | hy := Multiset.mem_cons.mp hy
      · exact .inl hle
      · exact .inr ⟨y, hy, hlt, hle⟩

omit hs h in
/-- The nodes of the sample come out in order. -/
theorem sample_aligned {resize : Calqueue K α → ℕ → Except Fault (Calqueue K α)}
    (hoff : ∀ q newsize, q.resizeEnabled = false → resize q newsize = .ok q) (n : ℕ) :
    ∀ q : Calqueue K α, q.Shape (Arith.exact K) → q.Aligned → q.resizeEnabled = false →
      n ≤ q.qsize → q.Spread q.items →
      ∃ l q', sample (Arith.exact K) resize n q = .ok (l, q') ∧ q'.Shape (Arith.exact K) ∧
        SameCalendar q q' ∧ q.items = (l : Multiset (Node K α)) + q'.items ∧ l.length = n ∧
        l.Pairwise fun e e' => e.priority < e'.priority := by
  induction n with
  | zero =>
    intro q hs _ _ _ _
    exact ⟨[], q, rfl, hs, .refl q, (Multiset.zero_add _).symm, rfl, .nil⟩
  | succ n ih =>
    intro q hs h hfixed hn hspread
    have hne : q.items ≠ 0 := by
      intro hzero
      rw [hs.count, hzero, Multiset.card_zero] at hn
      omega
    obtain ⟨e, q₁, htake, hs₁, hsame, hitems, hleast, h₁, hprio⟩ :=
      take_aligned hs h (hspread.near hne)
    have hcount : q.qsize = q₁.qsize + 1 := by
      rw [hs.count, hs₁.count, hitems, Multiset.card_cons]
    have hdeq : deq (Arith.exact K) resize q = .ok (some e, q₁) := by
      unfold deq
      rw [if_neg (by omega), htake]
      show (if _ then _ else _) = _
      split_ifs
      · show (resize q₁ _ >>= _) = _
        rw [hoff q₁ _ (hsame.enabled.trans hfixed)]
        rfl
      · rfl
    obtain ⟨l, q', hsample, hs', hsame', hitems', hlen, hord⟩ :=
      ih q₁ hs₁ h₁ (hsame.enabled.trans hfixed) (by omega) (hspread.tail h hsame hitems hprio)
    refine ⟨e :: l, q', ?_, hs', hsame.trans hsame', ?_, by rw [List.length_cons, hlen], ?_⟩
    · unfold sample
      rw [hdeq]
      show (sample (Arith.exact K) resize n q₁ >>= _) = _
      rw [hsample]
      rfl
    · rw [hitems, hitems']
      exact (Multiset.cons_add e _ _).symm
    · refine List.pairwise_cons.mpr ⟨fun x hx => ?_, hord⟩
      have hx₁ : x ∈ q₁.items := by
        rw [hitems']
        exact Multiset.mem_add.mpr (.inl (Multiset.mem_coe.mpr hx))
      have hle : e.priority ≤ x.priority := by
        refine hleast x ?_
        rw [hitems]
        exact Multiset.mem_cons_of_mem hx₁
      refine lt_of_le_of_ne hle fun heq => ?_
      have hnodup := hspread.nodup
      rw [hitems, Multiset.map_cons] at hnodup
      exact (Multiset.nodup_cons.mp hnodup).1 (Multiset.mem_map.mpr ⟨x, hx₁, heq.symm⟩)

omit hs h in
omit [IsStrictOrderedRing K] in
theorem length_gaps : ∀ l : List (Node K α), (gaps (Arith.exact K) l).length = l.length - 1
  | [] => rfl
  | [_] => rfl
  | e :: e' :: rest => by
    rw [gaps, List.length_cons, length_gaps (e' :: rest)]
    rfl

omit hs h in
theorem gaps_pos : ∀ l : List (Node K α), (l.Pairwise fun e e' => e.priority < e'.priority) →
    ∀ g ∈ gaps (Arith.exact K) l, 0 < g
  | [], _ => by
    intro g hg
    cases hg
  | [_], _ => by
    intro g hg
    cases hg
  | e :: e' :: rest, hord => by
    intro g hg
    obtain ⟨he, hrest⟩ := List.pairwise_cons.mp hord
    obtain rfl | hg := List.mem_cons.mp hg
    · exact sub_pos.mpr (he e' List.mem_cons_self)
    · exact gaps_pos (e' :: rest) hrest g hg

omit hs h in
omit [IsStrictOrderedRing K] in
theorem foldl_add (l : List K) :
    l.foldl (Arith.exact K).add ((Arith.exact K).ofInt 0) = l.sum := by
  rw [List.sum_eq_foldl]
  exact congrArg (fun a => List.foldl _ a l) Int.cast_zero

omit hs h in
/-- The width that a sample in order leads to is positive. -/
theorem widthOf_pos {l : List (Node K α)}
    (hord : l.Pairwise fun e e' => e.priority < e'.priority) (hlen : 2 ≤ l.length) :
    0 < widthOf (Arith.exact K) l := by
  have hpos := gaps_pos l hord
  have hcount := length_gaps l
  have hsum : 0 < (gaps (Arith.exact K) l).sum := by
    refine List.sum_pos _ hpos fun hnil => ?_
    rw [hnil, List.length_nil] at hcount
    omega
  have hn : (0 : K) < ((gaps (Arith.exact K) l).length : K) := by
    rw [Nat.cast_pos, hcount]
    omega
  have havg : average (Arith.exact K) l * (gaps (Arith.exact K) l).length =
      (gaps (Arith.exact K) l).sum := by
    have hden : (((l.length : ℤ) - 1 : ℤ) : K) = (gaps (Arith.exact K) l).length := by
      rw [hcount]
      push_cast [Nat.cast_sub (show 1 ≤ l.length by omega)]
      ring
    unfold average
    rw [foldl_add]
    show _ / (((l.length : ℤ) - 1 : ℤ) : K) * _ = _
    rw [hden]
    exact div_mul_cancel₀ _ hn.ne'
  have havgpos : 0 < average (Arith.exact K) l := by
    rw [← havg] at hsum
    exact pos_of_mul_pos_left hsum hn.le
  -- not every gap is twice the mean gap
  obtain ⟨g, hg, hlt⟩ : ∃ g ∈ gaps (Arith.exact K) l, g < average (Arith.exact K) l * 2 := by
    by_contra hall
    push Not at hall
    have hle := List.card_nsmul_le_sum _ _ hall
    rw [← havg, nsmul_eq_mul] at hle
    nlinarith
  set near := (gaps (Arith.exact K) l).filter fun g => (Arith.exact K).lt g
    ((Arith.exact K).mul (average (Arith.exact K) l) ((Arith.exact K).ofInt 2)) with hnear
  have hin : g ∈ near := by
    refine List.mem_filter.mpr ⟨hg, ?_⟩
    show decide (g < average (Arith.exact K) l * ((2 : ℤ) : K)) = true
    simpa using hlt
  have hnearsum : 0 < near.sum := by
    refine List.sum_pos _ (fun x hx => hpos x (List.mem_filter.mp hx).1) ?_
    exact List.ne_nil_of_mem hin
  have hnearlen : (0 : K) < (near.length : K) := Nat.cast_pos.mpr (List.length_pos_of_mem hin)
  have hwidth : widthOf (Arith.exact K) l = near.sum / near.length * 3 := by
    show near.foldl (Arith.exact K).add ((Arith.exact K).ofInt 0) / ((near.length : ℤ) : K) *
      ((3 : ℤ) : K) = _
    rw [foldl_add]
    push_cast
    rfl
  rw [hwidth]
  exact mul_pos (div_pos hnearsum hnearlen) three_pos

/-! ## The calls -/

omit hs h in
/-- The priorities that are put back have no negative bucket number. -/
theorem number_nonneg {w p : K} (hw : 0 < w) (hp : 0 ≤ p) {nb : ℕ} (hnb : nb ≠ 0) :
    ¬ (Arith.exact K).number w nb p < 0 := by
  rw [exact_number hw hp, not_lt]
  exact Int.emod_nonneg _ (by omega)

/-- `new_width` of nodes that are spread is positive and puts back what it has taken. -/
theorem newWidth_aligned {resize : Calqueue K α → ℕ → Except Fault (Calqueue K α)}
    (hoff : ∀ q newsize, q.resizeEnabled = false → resize q newsize = .ok q)
    (hon : q.resizeEnabled = true) (hspread : q.Spread q.items) :
    ∃ w q', newWidth (Arith.exact K) resize q = .ok (w, q') ∧ 0 < w ∧ q'.Shape (Arith.exact K) ∧
      SameCalendar q q' ∧ SamePosition q q' ∧ q'.items = q.items := by
  unfold newWidth
  by_cases hsmall : q.qsize < 2
  · refine ⟨(Arith.exact K).ofInt 1, q, ?_, ?_, hs, .refl q, .refl q, rfl⟩
    · rw [if_pos hsmall]
      rfl
    · show (0 : K) < ((1 : ℤ) : K)
      simp
  · rw [if_neg hsmall]
    have hs₀ : ({ q with resizeEnabled := false } : Calqueue K α).Shape (Arith.exact K) := by
      obtain ⟨h1, h2, h3, h4, h5, h6, h7⟩ := hs
      exact ⟨h1, h2, h3, h4, h5, h6, h7⟩
    have h₀ : ({ q with resizeEnabled := false } : Calqueue K α).Aligned := by
      obtain ⟨h1, h2, h3, h4, h5⟩ := h
      exact ⟨h1, h2, h3, h4, h5⟩
    obtain ⟨l, q₁, hsample, hs₁, hsame₁, hitems₁, hlen, hord⟩ :=
      sample_aligned hoff (nsamples q.qsize) _ hs₀ h₀ rfl nsamples_le ⟨hspread.nodup, hspread.close⟩
    have hw₁ : q₁.cwidth = q.cwidth := hsame₁.width
    have hput : Ends (fun _ => False) (putAll (Arith.exact K) resize q₁ l) _ :=
      hs₁.putAll_spec hoff l _ (.inl hsame₁.enabled) fun n hn hneg => by
        refine number_nonneg ?_ (h.nonneg (e := n) ?_) ?_ hneg
        · rw [hw₁]
          exact h.width
        · rw [show q.items = _ from hitems₁]
          exact Multiset.mem_add.mpr (.inl (Multiset.mem_coe.mpr hn))
        · have := hs₁.le_nbuckets
          omega
    obtain ⟨q₂, hq₂, hs₂, hsame₂, -, hitems₂⟩ := hput.exists_ok
    have hsame := hsame₁.trans hsame₂
    have hnb : q₂.nbuckets = q.nbuckets := hsame.nbuckets
    rw [hsample]
    show ∃ w q', (putAll (Arith.exact K) resize q₁ l >>= _) = _ ∧ _
    rw [hq₂]
    refine ⟨_, _, rfl, widthOf_pos hord ?_, ?_, ?_, ⟨rfl, rfl, rfl⟩, ?_⟩
    · rw [hlen]
      unfold nsamples
      split_ifs <;> omega
    · obtain ⟨h1, h2, h3, h4, -, h6, h7⟩ := hs₂
      exact ⟨h1, h2, h3, h4, hnb ▸ hs.last, h6, h7⟩
    · obtain ⟨h1, h2, h3, h4, h5, -, h7⟩ := hsame
      exact ⟨h1, h2, h3, h4, h5, hon.symm, h7⟩
    · exact hitems₂.trans hitems₁.symm

omit hs h in
/-- The search of a new calendar is aligned. -/
theorem Aligned.of_started {q' : Calqueue K α} {newsize : ℕ} {w p : K} (hw : 0 < w) (hp : 0 ≤ p)
    (hstart : Started (Arith.exact K) newsize w p q') (hlater : ∀ e ∈ q'.items, p ≤ e.priority) :
    q'.Aligned := by
  have hlong : (Arith.exact K).toLong ((Arith.exact K).div p w) = slot w p := exact_toInt hw hp
  have htop := hstart.top
  have hbucket := hstart.bucket
  rw [hlong] at htop hbucket
  rw [Int.tmod_eq_emod_of_nonneg (slot_nonneg hw hp)] at hbucket
  constructor
  · rw [hstart.width]
    exact hw
  · rw [hstart.prio]
    exact hp
  · rw [hbucket, hstart.width, hstart.prio, hstart.nbuckets]
  · rw [htop, hstart.width, hstart.prio]
    show (((slot w p + 1 : ℤ) : K)) * w + 1 / 2 * w = _
    push_cast
    rfl
  · rw [hstart.prio]
    exact hlater

/-- `resize` aligns the search. -/
theorem resize_aligned (hon : q.resizeEnabled = true) {newsize : ℕ}
    (hsize : ∃ k, 1 ≤ k ∧ k ≤ 15 ∧ newsize = 2 ^ k)
    (hfits : q.qsize ≤ 2 * newsize ∨ MAXNBUCKETS ≤ newsize) (hkept : newsize / 2 ≤ q.qsize + 2)
    (hspread : q.Spread q.items) :
    ∃ q', resize (Arith.exact K) 1 q newsize = .ok q' ∧ q'.Good (Arith.exact K) ∧ q'.Aligned ∧
      q'.items = q.items ∧ q'.lastprio = q.lastprio := by
  have hoff : ∀ (q : Calqueue K α) newsize, q.resizeEnabled = false →
      Benchmark.resize (Arith.exact K) 0 q newsize = .ok q := fun _ newsize => resize_off newsize
  obtain ⟨w, q₁, hwidth, hw, hs₁, hsame, hpos, hitems⟩ := newWidth_aligned hs h hoff hon hspread
  have hcount : q₁.qsize = q.qsize := by
    rw [hs₁.count, hitems, hs.count]
  have hnonneg : ∀ n ∈ q₁.items, 0 ≤ n.priority := by
    rw [hitems]
    exact fun n hn => h.nonneg hn
  have hbuild : Ends (fun _ => False) (rebuild (Arith.exact K) (resize (Arith.exact K) 0) q₁ newsize w)
      _ := hs₁.rebuild_spec hoff hsize (by rw [hcount]; exact hfits) fun n hn hneg =>
    number_nonneg hw (hnonneg n hn) (by obtain ⟨k, -, -, rfl⟩ := hsize; positivity) hneg
  obtain ⟨q', hq', -, hstart, -, hitems'⟩ := hbuild.exists_ok
  have hres : resize (Arith.exact K) 1 q newsize = .ok q' := by
    rw [resize, resizeWith, if_pos hon, hwidth]
    exact hq'
  have hgood := (hs.resize_spec (F := fun _ => True) hon hsize hfits hkept trivial).value hres
  have hprio := hpos.prio
  refine ⟨q', hres, hgood.1, .of_started hw ?_ hstart ?_, hgood.2, hstart.prio.trans hprio⟩
  · rw [hprio]
    exact h.start
  · rw [hgood.2, hprio]
    exact h.later

omit hs h in
/-- The condition on a call. A node is not put before the node that was taken last. A search stays
    within a year, and so do all searches of a sample that is taken to find a new width. -/
def Orderly (q : Calqueue K α) : Event K α → Prop
  | .put priority payload => q.lastprio ≤ priority ∧
      (2 * q.nbuckets < q.qsize + 1 ∧ q.nbuckets < MAXNBUCKETS →
        q.Spread (⟨priority, payload⟩ ::ₘ q.items))
  | .get _ => q.items ≠ 0 → q.Near ∧ (q.qsize + 2 ≤ q.nbuckets / 2 → q.Spread q.items)

omit hs in
/-- `calqueue_put` keeps the search aligned. -/
theorem put_aligned (hgood : q.Good (Arith.exact K)) {priority : K} {payload : α}
    (hord : q.Orderly (.put priority payload)) :
    ∃ q', calqueuePut (Arith.exact K) q priority payload = .ok q' ∧ q'.Aligned ∧
      q'.lastprio = q.lastprio := by
  obtain ⟨hle, hspread⟩ := hord
  have hs := hgood.shape
  have hnb := hs.le_nbuckets
  have hins : Ends (fun _ => False) (q.insert (Arith.exact K) ⟨priority, payload⟩) _ :=
    hs.insert_spec _ (number_nonneg h.width (h.start.trans hle) (by omega))
  obtain ⟨q₁, hq₁, hs₁, hsame, hpos, hitems⟩ := hins.exists_ok
  have h₁ : q₁.Aligned := by
    constructor
    · rw [hsame.width]
      exact h.width
    · rw [hpos.prio]
      exact h.start
    · rw [hpos.bucket, hpos.prio, hsame.width, hsame.nbuckets]
      exact h.bucket
    · rw [hpos.top, hpos.prio, hsame.width]
      exact h.top
    · rw [hpos.prio, hitems]
      intro e he
      obtain rfl | he := Multiset.mem_cons.mp he
      · exact hle
      · exact h.later e he
  have hcount : q₁.qsize = q.qsize + 1 := by
    rw [hs₁.count, hitems, Multiset.card_cons, hs.count]
  have htop := hs₁.top
  have hnb₁ := hsame.nbuckets
  have hput : calqueuePut (Arith.exact K) q priority payload =
      if q₁.topThreshold < q₁.qsize ∧ q₁.nbuckets < MAXNBUCKETS
        then resize (Arith.exact K) 1 q₁ (2 * q₁.nbuckets) else .ok q₁ := by
    unfold calqueuePut put
    rw [hq₁]
    rfl
  rw [hput]
  split_ifs with hgrow
  · have hgrow' : 2 * q.nbuckets < q.qsize + 1 ∧ q.nbuckets < MAXNBUCKETS := by omega
    have hspread₁ : q₁.Spread q₁.items := by
      obtain ⟨hnodup, hclose⟩ := hspread hgrow'
      rw [← hitems] at hnodup hclose
      refine ⟨hnodup, ?_⟩
      rw [now, hsame.width, hpos.prio, hnb₁]
      exact hclose
    have hfilled := hgood.filled
    have hfits : q₁.qsize ≤ 2 * (2 * q₁.nbuckets) := by omega
    have hkept : 2 * q₁.nbuckets / 2 ≤ q₁.qsize + 2 := by omega
    obtain ⟨q', hq', -, h', -, hprio⟩ := resize_aligned hs₁ h₁ (hsame.enabled.trans hgood.enabled)
      (hs₁.exists_double hgrow.2) (.inl hfits) hkept hspread₁
    exact ⟨q', hq', h', hprio.trans hpos.prio⟩
  · exact ⟨q₁, rfl, h₁, hpos.prio⟩

omit hs in
/-- `calqueue_get` takes a least node and keeps the search aligned. -/
theorem get_aligned (hgood : q.Good (Arith.exact K)) (hne : q.items ≠ 0)
    (hord : q.Orderly (.get none)) :
    ∃ e q', calqueueGet (Arith.exact K) q = .ok (some e.payload, q') ∧ q'.Aligned ∧
      q.items = e ::ₘ q'.items ∧ (∀ x ∈ q.items, e.priority ≤ x.priority) ∧
      q'.lastprio = e.priority := by
  obtain ⟨hnear, hspread⟩ := hord hne
  have hs := hgood.shape
  obtain ⟨e, q₁, htake, hs₁, hsame, hitems, hleast, h₁, hprio⟩ := take_aligned hs h hnear
  have hcount : q.qsize = q₁.qsize + 1 := by
    rw [hs.count, hs₁.count, hitems, Multiset.card_cons]
  have hget : calqueueGet (Arith.exact K) q =
      (if (q₁.qsize : ℤ) < q₁.botThreshold then do
        let q ← resize (Arith.exact K) 1 q₁ (q₁.nbuckets / 2)
        return (some e, q)
      else return (some e, q₁)) >>= fun taken => .ok (taken.1.map Node.payload, taken.2) := by
    unfold calqueueGet deq
    rw [if_neg (by omega), htake]
    rfl
  have hbot := hs₁.bot
  have hnb₁ := hsame.nbuckets
  rw [hget]
  split_ifs with hshrink
  · have hfilled := hgood.filled
    have hkept := hgood.kept
    have hfits : q₁.qsize ≤ 2 * (q₁.nbuckets / 2) := by omega
    have hkept₁ : q₁.nbuckets / 2 / 2 ≤ q₁.qsize + 2 := by omega
    have hspread₁ := (hspread (by omega)).tail h hsame hitems hprio
    obtain ⟨q', hq', -, h', hitems', hprio'⟩ := resize_aligned hs₁ h₁
      (hsame.enabled.trans hgood.enabled) (hs₁.exists_half (by omega)) (.inl hfits) hkept₁ hspread₁
    refine ⟨e, q', ?_, h', ?_, hleast, hprio'.trans hprio⟩
    · rw [hq']
      rfl
    · rw [hitems, hitems']
  · exact ⟨e, q₁, rfl, h₁, hitems, hleast, hprio⟩

end Calqueue

/-! ## Runs -/

/-- A bag that gives its least node first. -/
def LeastStep (b : Multiset (Node K α)) : Event K α → Multiset (Node K α) → Prop
  | .put priority payload, b' => b' = ⟨priority, payload⟩ ::ₘ b
  | .get none, b' => b = 0 ∧ b' = 0
  | .get (some payload), b' =>
      ∃ priority, b = ⟨priority, payload⟩ ::ₘ b' ∧ ∀ x ∈ b, priority ≤ x.priority

/-- A call that returns and meets the condition. -/
def OrderlyStep (q : Calqueue K α) (ev : Event K α) (q' : Calqueue K α) : Prop :=
  QueueStep (Arith.exact K) q ev q' ∧ q.Orderly ev

namespace Calqueue

variable {q : Calqueue K α}

theorem Aligned.step {q' : Calqueue K α} {ev : Event K α} (h : q.Aligned)
    (hgood : q.Good (Arith.exact K)) (hstep : OrderlyStep q ev q') :
    q'.Aligned ∧ LeastStep q.items ev q'.items := by
  obtain ⟨hs, hord⟩ := hstep
  have hbag := (hgood.step hs).2
  cases ev with
  | put priority payload =>
    obtain ⟨q₁, hq₁, h₁, -⟩ := put_aligned h hgood hord
    rw [show calqueuePut _ q priority payload = _ from hs] at hq₁
    cases hq₁
    exact ⟨h₁, hbag⟩
  | get payload =>
    by_cases hne : q.items = 0
    · have hsize : q.qsize = 0 := by rw [hgood.shape.count, hne, Multiset.card_zero]
      have hget : calqueueGet (Arith.exact K) q = .ok (none, q) := by
        unfold calqueueGet deq
        rw [if_pos hsize]
        rfl
      rw [show calqueueGet _ q = _ from hs] at hget
      cases hget
      exact ⟨h, hne, hne⟩
    · obtain ⟨e, q₁, hget, h₁, hitems, hleast, -⟩ := get_aligned h hgood hne hord
      rw [show calqueueGet _ q = _ from hs] at hget
      cases hget
      exact ⟨h₁, e.priority, hitems, hleast⟩

theorem Aligned.of_init {q₀ : Calqueue K α} (h0 : calqueueInit (Arith.exact K) q = .ok q₀) :
    q₀.Aligned := by
  obtain ⟨hgood, hitems⟩ := Good.of_init h0
  obtain ⟨q₁, hq₁, h0⟩ := bind_eq_ok.mp h0
  cases h0
  obtain ⟨q₂, hq₂, -, hstart, -⟩ := localinit_spec (A := Arith.exact K) q
    ((Arith.exact K).ofInt 1) ((Arith.exact K).ofInt 0)
    (show ∃ k, 1 ≤ k ∧ k ≤ 15 ∧ 2 = 2 ^ k from ⟨1, by omega, by omega, rfl⟩) (.inl rfl)
  rw [hq₁] at hq₂
  cases hq₂
  have hw : (0 : K) < (Arith.exact K).ofInt 1 := by
    show (0 : K) < ((1 : ℤ) : K)
    simp
  have hp : (0 : K) ≤ (Arith.exact K).ofInt 0 := by
    show (0 : K) ≤ ((0 : ℤ) : K)
    simp
  refine .of_started hw hp ⟨hstart.1, hstart.2, hstart.3, hstart.4, hstart.5⟩ ?_
  rw [hitems]
  rintro e ⟨⟩

end Calqueue

/-- No node is put before the node taken last, but the search leaves the year twice while a sample
    is taken: the sample is out of order, the new width is negative, and so is a bucket number. -/
theorem calqueue_corrupts : ∃ q₀ q : Calqueue ℚ ℕ, calqueueInit (Arith.exact ℚ) .zero = .ok q₀ ∧
    Run (QueueStep (Arith.exact ℚ)) q₀
      [.put 0 0, .get (some 0), .put 3.5 1, .get (some 1), .put 4.3 2, .put 3.5 3, .put 4.1 4,
        .put 4 5] q ∧
    q.lastprio = 3.5 ∧ calqueuePut (Arith.exact ℚ) q 3.6 6 = .error .negativeBucket := by
  have hcalls : (calqueueInit (Arith.exact ℚ) Calqueue.zero >>= calls (Arith.exact ℚ)
      [some (0, 0), none, some (3.5, 1), none, some (4.3, 2), some (3.5, 3), some (4.1, 4),
        some (4, 5)] >>= fun r => pure (r.1, r.2.lastprio,
          (calqueuePut (Arith.exact ℚ) r.2 3.6 6).map fun _ => ())) =
      .ok ([.put 0 0, .get (some 0), .put 3.5 1, .get (some 1), .put 4.3 2, .put 3.5 3,
        .put 4.1 4, .put 4 5], 3.5, .error .negativeBucket) := by decide +kernel
  obtain ⟨r, hr, h⟩ := bind_eq_ok.mp hcalls
  obtain ⟨q₀, h0, hcalls⟩ := bind_eq_ok.mp hr
  obtain ⟨hevs, hprio, hput⟩ : r.1 = _ ∧ r.2.lastprio = _ ∧ _ = _ := by
    simpa [Prod.ext_iff] using Except.ok.inj h
  refine ⟨q₀, r.2, h0, ?_, hprio, ?_⟩
  · rw [← hevs]
    exact run_calls hcalls
  · cases hres : calqueuePut (Arith.exact ℚ) r.2 3.6 6 with
    | error e =>
      rw [hres] at hput
      cases hput
      rfl
    | ok q' =>
      rw [hres] at hput
      cases hput

end AosvFibers.Benchmark
