import AosvFibers.Benchmark.Calqueue

/-!
# The shape of the calendar queue

`Calqueue.Shape` is what `calqueue_put` and `calqueue_deq` keep of the calendar: its region of
`calq`, its thresholds, the count of its nodes, every node in the bucket of its number, and every
bucket in order where the comparisons are those of an order. `Calqueue.items` is the multiset of
the nodes.

Each operation has one lemma: it ends in a calendar of the same shape with the nodes it should
have, or with a fault `F`, which has to allow a negative bucket number where one can come up.
Nothing is assumed of the arithmetic.
-/

namespace AosvFibers.Benchmark

open Lib

variable {D α : Type} {A : Arith D} {F : Fault → Prop}

/-- The comparisons are those of a linear order. -/
structure Arith.Linear (A : Arith D) : Prop where
  total : ∀ a b, A.le a b ∨ A.le b a
  trans : ∀ a b c, A.le a b → A.le b c → A.le a c
  lt_iff : ∀ a b, A.lt a b = !A.le b a

/-- The bucket of a priority, for a calendar of `nb` buckets of width `w`. -/
def Arith.number (A : Arith D) (w : D) (nb : ℕ) (p : D) : ℤ := (A.toInt (A.div p w)).tmod nb

/-- In order of priority. -/
def InOrder (A : Arith D) (l : List (Node D α)) : Prop :=
  l.Pairwise fun e e' => A.le e.priority e'.priority

/-- The list `l` can be bucket `j`. -/
structure Bucket (A : Arith D) (w : D) (nb j : ℕ) (l : List (Node D α)) : Prop where
  number : ∀ e ∈ l, A.number w nb e.priority = j
  inOrder : A.Linear → InOrder A l

namespace Calqueue

/-- The nodes of the queue. -/
def items (q : Calqueue D α) : Multiset (Node D α) := contents q.calq q.firstsub q.nbuckets

theorem mem_items {q : Calqueue D α} {j : ℕ} (hj : j < q.nbuckets) {e : Node D α}
    (he : e ∈ q.calq (q.firstsub + j)) : e ∈ q.items :=
  mem_contents.mpr ⟨j, hj, he⟩

/-- What every operation keeps. -/
structure Shape (A : Arith D) (q : Calqueue D α) : Prop where
  size : ∃ k, 1 ≤ k ∧ k ≤ 15 ∧ q.nbuckets = 2 ^ k
  region : q.firstsub = 0 ∨ q.firstsub + q.nbuckets = CALQSPACE
  top : q.topThreshold = 2 * q.nbuckets
  bot : q.botThreshold = (q.nbuckets / 2 : ℕ) - 2
  last : q.lastbucket < q.nbuckets
  count : q.qsize = q.items.card
  bucket : ∀ j, j < q.nbuckets → Bucket A q.cwidth q.nbuckets j (q.calq (q.firstsub + j))

/-- The calendar `q'` is the calendar `q` but for its nodes and the position of the search. -/
structure SameCalendar (q q' : Calqueue D α) : Prop where
  firstsub : q'.firstsub = q.firstsub
  nbuckets : q'.nbuckets = q.nbuckets
  top : q'.topThreshold = q.topThreshold
  bot : q'.botThreshold = q.botThreshold
  width : q'.cwidth = q.cwidth
  enabled : q'.resizeEnabled = q.resizeEnabled
  outside : ∀ c, c < q.firstsub ∨ q.firstsub + q.nbuckets ≤ c → q'.calq c = q.calq c

/-- The search of `q'` stands where the search of `q` stands. -/
structure SamePosition (q q' : Calqueue D α) : Prop where
  bucket : q'.lastbucket = q.lastbucket
  prio : q'.lastprio = q.lastprio
  top : q'.buckettop = q.buckettop

theorem SameCalendar.refl (q : Calqueue D α) : SameCalendar q q :=
  ⟨rfl, rfl, rfl, rfl, rfl, rfl, fun _ _ => rfl⟩

theorem SameCalendar.trans {q q' q'' : Calqueue D α} (h : SameCalendar q q')
    (h' : SameCalendar q' q'') : SameCalendar q q'' where
  firstsub := h'.firstsub.trans h.firstsub
  nbuckets := h'.nbuckets.trans h.nbuckets
  top := h'.top.trans h.top
  bot := h'.bot.trans h.bot
  width := h'.width.trans h.width
  enabled := h'.enabled.trans h.enabled
  outside c hc := by
    rw [h'.outside c, h.outside c hc]
    rw [h.firstsub, h.nbuckets]
    exact hc

theorem SamePosition.refl (q : Calqueue D α) : SamePosition q q := ⟨rfl, rfl, rfl⟩

theorem SamePosition.trans {q q' q'' : Calqueue D α} (h : SamePosition q q')
    (h' : SamePosition q' q'') : SamePosition q q'' :=
  ⟨h'.bucket.trans h.bucket, h'.prio.trans h.prio, h'.top.trans h.top⟩

namespace Shape

variable {q : Calqueue D α}

theorem le_nbuckets (h : q.Shape A) : 2 ≤ q.nbuckets := by
  obtain ⟨k, hk, -, hnb⟩ := h.size
  have := Nat.pow_le_pow_right (show 0 < 2 by omega) hk
  omega

theorem nbuckets_le (h : q.Shape A) : q.nbuckets ≤ MAXNBUCKETS := by
  obtain ⟨k, -, hk, hnb⟩ := h.size
  have := Nat.pow_le_pow_right (show 0 < 2 by omega) hk
  unfold MAXNBUCKETS
  omega

theorem fits (h : q.Shape A) : q.firstsub + q.nbuckets ≤ CALQSPACE := by
  have hle := h.nbuckets_le
  obtain hr | hr := h.region
  · unfold MAXNBUCKETS at hle
    unfold CALQSPACE
    omega
  · omega

/-- Other nodes in the same calendar. -/
theorem congr {q' : Calqueue D α} (h : q.Shape A) (hs : SameCalendar q q')
    (hl : q'.lastbucket < q.nbuckets) (hc : q'.qsize = q'.items.card)
    (hb : ∀ j, j < q.nbuckets → Bucket A q.cwidth q.nbuckets j (q'.calq (q.firstsub + j))) :
    q'.Shape A := by
  obtain ⟨h1, h2, h3, h4, h5, -, -⟩ := hs
  constructor
  · rw [h2]
    exact h.size
  · rw [h1, h2]
    exact h.region
  · rw [h3, h2]
    exact h.top
  · rw [h4, h2]
    exact h.bot
  · rw [h2]
    exact hl
  · exact hc
  · rw [h1, h2, h5]
    exact hb

/-- `calendar[j]` is in `calq`. -/
theorem at_eq (h : q.Shape A) {j : ℕ} (hj : j < q.nbuckets) : q.at j = .ok (q.firstsub + j) := by
  have hfits := h.fits
  have hneg : ¬ (j : ℤ) < 0 := by omega
  have hin : q.firstsub + (j : ℤ).toNat < CALQSPACE := by
    rw [Int.toNat_natCast]
    omega
  rw [Calqueue.at, if_neg hneg, if_pos hin, Int.toNat_natCast]

theorem at_spec (h : q.Shape A) {i : ℤ} (hi : i < q.nbuckets) (hF : i < 0 → F .negativeBucket) :
    Ends F (q.at i) fun c => ∃ j : ℕ, j < q.nbuckets ∧ i = j ∧ c = q.firstsub + j := by
  by_cases hneg : i < 0
  · rw [Calqueue.at, if_pos hneg]
    exact .error (hF hneg)
  · obtain ⟨j, rfl⟩ := Int.eq_ofNat_of_zero_le (show 0 ≤ i by omega)
    have hj : j < q.nbuckets := by omega
    rw [h.at_eq hj]
    exact .ok ⟨j, hj, rfl, rfl⟩

theorem number_lt (h : q.Shape A) (p : D) : A.number q.cwidth q.nbuckets p < q.nbuckets := by
  have := h.le_nbuckets
  exact Int.tmod_lt_of_pos _ (by omega)

end Shape

end Calqueue

/-! ## Insertion -/

theorem walk_perm (n : Node D α) (l : List (Node D α)) : (walk A n l).Perm (n :: l) := by
  induction l with
  | nil => exact .refl _
  | cons e rest ih =>
    rw [walk]
    split_ifs
    · exact (ih.cons e).trans (.swap n e rest)
    · exact .refl _

theorem place_perm (n : Node D α) (l : List (Node D α)) : (place A n l).Perm (n :: l) := by
  cases l with
  | nil => exact .refl _
  | cons e rest =>
    rw [place]
    split_ifs
    · exact .refl _
    · exact ((walk_perm n rest).cons e).trans (.swap n e rest)

theorem InOrder.walk (hA : A.Linear) {n : Node D α} {l : List (Node D α)} (h : InOrder A l) :
    InOrder A (walk A n l) := by
  induction l with
  | nil => exact List.pairwise_singleton _ n
  | cons e rest ih =>
    obtain ⟨he, hrest⟩ := List.pairwise_cons.mp h
    rw [Benchmark.walk]
    split_ifs with hle
    · refine List.pairwise_cons.mpr ⟨fun x hx => ?_, ih hrest⟩
      obtain rfl | hx := List.mem_cons.mp ((walk_perm n rest).mem_iff.mp hx)
      · exact hle
      · exact he x hx
    · have hn : A.le n.priority e.priority := (hA.total _ _).resolve_right hle
      refine List.pairwise_cons.mpr ⟨fun x hx => ?_, h⟩
      obtain rfl | hx := List.mem_cons.mp hx
      · exact hn
      · exact hA.trans _ _ _ hn (he x hx)

/-- A new node goes behind the nodes of its priority. -/
theorem InOrder.place (hA : A.Linear) {n : Node D α} {l : List (Node D α)} (h : InOrder A l) :
    InOrder A (place A n l) := by
  cases l with
  | nil => exact List.pairwise_singleton _ n
  | cons e rest =>
    have hwalk : Benchmark.place A n (e :: rest) = Benchmark.walk A n (e :: rest) := by
      rw [Benchmark.place, Benchmark.walk, hA.lt_iff]
      cases A.le e.priority n.priority <;> rfl
    rw [hwalk]
    exact h.walk hA

theorem Bucket.place {w : D} {nb j : ℕ} {n : Node D α} {l : List (Node D α)}
    (h : Bucket A w nb j l) (hn : A.number w nb n.priority = j) :
    Bucket A w nb j (place A n l) := by
  constructor
  · intro e he
    obtain rfl | he := List.mem_cons.mp ((place_perm n l).mem_iff.mp he)
    · exact hn
    · exact h.number e he
  · exact fun hA => (h.inOrder hA).place hA

theorem Bucket.tail {w : D} {nb j : ℕ} {e : Node D α} {l : List (Node D α)}
    (h : Bucket A w nb j (e :: l)) : Bucket A w nb j l :=
  ⟨fun x hx => h.number x (List.mem_cons_of_mem e hx), fun hA => (h.inOrder hA).of_cons⟩

namespace Calqueue.Shape

variable {q : Calqueue D α}

/-- The buckets after one of them has changed. -/
theorem bucket_update (h : q.Shape A) {j : ℕ} {l : List (Node D α)}
    (hl : Bucket A q.cwidth q.nbuckets j l) (i : ℕ) (hi : i < q.nbuckets) :
    Bucket A q.cwidth q.nbuckets i (Function.update q.calq (q.firstsub + j) l (q.firstsub + i)) := by
  by_cases hij : i = j
  · subst hij
    rw [Function.update_self]
    exact hl
  · rw [Function.update_of_ne (show q.firstsub + i ≠ q.firstsub + j by omega)]
    exact h.bucket i hi

/-- The lists outside the calendar after one of its buckets has changed. -/
theorem outside_update {j c : ℕ} {l : List (Node D α)} (hj : j < q.nbuckets)
    (hc : c < q.firstsub ∨ q.firstsub + q.nbuckets ≤ c) :
    Function.update q.calq (q.firstsub + j) l c = q.calq c :=
  Function.update_of_ne (show c ≠ q.firstsub + j by omega) ..

theorem insert_spec (h : q.Shape A) (n : Node D α)
    (hF : A.number q.cwidth q.nbuckets n.priority < 0 → F .negativeBucket) :
    Ends F (q.insert A n) fun q' => q'.Shape A ∧ SameCalendar q q' ∧ SamePosition q q' ∧
      q'.items = n ::ₘ q.items := by
  unfold Calqueue.insert
  refine (h.at_spec (h.number_lt n.priority) hF).bind ?_
  rintro c ⟨j, hj, hnum, rfl⟩
  have hitems : contents (Function.update q.calq (q.firstsub + j)
      (Benchmark.place A n (q.calq (q.firstsub + j)))) q.firstsub q.nbuckets = n ::ₘ q.items :=
    contents_insert hj (place_perm n _)
  refine .pure ⟨h.congr ?_ h.last ?_ fun i hi => ?_, ?_, ⟨rfl, rfl, rfl⟩, hitems⟩
  · exact ⟨rfl, rfl, rfl, rfl, rfl, rfl, fun c hc => outside_update hj hc⟩
  · rw [items, hitems, Multiset.card_cons, h.count]
  · exact h.bucket_update ((h.bucket j hj).place hnum) i hi
  · exact ⟨rfl, rfl, rfl, rfl, rfl, rfl, fun c hc => outside_update hj hc⟩

/-- An insertion after which the size of the calendar does not change. -/
theorem put_spec (h : q.Shape A) (n : Node D α)
    {resize : Calqueue D α → ℕ → Except Fault (Calqueue D α)}
    (hoff : ∀ q newsize, q.resizeEnabled = false → resize q newsize = .ok q)
    (hquiet : q.resizeEnabled = false ∨ q.qsize + 1 ≤ 2 * q.nbuckets ∨ MAXNBUCKETS ≤ q.nbuckets)
    (hF : A.number q.cwidth q.nbuckets n.priority < 0 → F .negativeBucket) :
    Ends F (put A resize q n) fun q' => q'.Shape A ∧ SameCalendar q q' ∧ SamePosition q q' ∧
      q'.items = n ::ₘ q.items := by
  refine (h.insert_spec n hF).bind ?_
  rintro q' ⟨hq', hsame, hpos, hitems⟩
  split_ifs with hgrow
  · have hsize : q'.qsize = q.qsize + 1 := by
      rw [hq'.count, hitems, Multiset.card_cons, h.count]
    have htop := hq'.top
    have hnb := hsame.nbuckets
    obtain hoff' | hsmall | hmax := hquiet
    · rw [hoff q' _ (hsame.enabled.trans hoff')]
      exact .ok ⟨hq', hsame, hpos, hitems⟩
    · omega
    · omega
  · exact .pure ⟨hq', hsame, hpos, hitems⟩

/-! ## Search -/

end Calqueue.Shape

/-- The bucket `t` steps behind `lastbucket`. -/
def Calqueue.behind (q : Calqueue D α) (t : ℕ) : ℤ :=
  if q.lastbucket + t < q.nbuckets then q.lastbucket + t else q.lastbucket + t - q.nbuckets

theorem Calqueue.behind_succ {q : Calqueue D α} (hlast : q.lastbucket < q.nbuckets) {t : ℕ}
    (ht : t < q.nbuckets) :
    (if q.behind t + 1 = q.nbuckets then 0 else q.behind t + 1) = q.behind (t + 1) := by
  unfold behind
  split_ifs <;> omega

theorem Calqueue.behind_eq_last {q : Calqueue D α} (h0 : 0 ≤ q.lastbucket)
    (hlast : q.lastbucket < q.nbuckets) {t : ℕ} (ht : t ≤ q.nbuckets) :
    q.behind t = q.lastbucket ↔ t = 0 ∨ t = q.nbuckets := by
  unfold behind
  split_ifs <;> omega

theorem Calqueue.behind_zero {q : Calqueue D α} (hlast : q.lastbucket < q.nbuckets) :
    q.behind 0 = q.lastbucket := by
  unfold behind
  split_ifs <;> omega

theorem Calqueue.behind_bounds {q : Calqueue D α} (h0 : 0 ≤ q.lastbucket)
    (hlast : q.lastbucket < q.nbuckets) {t : ℕ} (ht : t ≤ q.nbuckets) :
    0 ≤ q.behind t ∧ q.behind t < q.nbuckets := by
  unfold behind
  split_ifs <;> omega

namespace Calqueue.Shape

variable {q : Calqueue D α}

/-- One round of the loop of the search, `t` buckets behind `lastbucket`. -/
theorem scan_succ (h : q.Shape A) (h0 : 0 ≤ q.lastbucket) {fuel t : ℕ} (top : D)
    (ht : t < q.nbuckets) : ∃ j : ℕ, j < q.nbuckets ∧ q.behind t = j ∧
      scan A q (fuel + 1) (q.behind t) top =
        if ready A top (q.calq (q.firstsub + j)) then .ok (some (j : ℤ), top)
        else if t + 1 = q.nbuckets then .ok (none, A.add top q.cwidth)
        else scan A q fuel (q.behind (t + 1)) (A.add top q.cwidth) := by
  obtain ⟨hge, hlt⟩ := behind_bounds h0 h.last ht.le
  obtain ⟨j, hj⟩ := Int.eq_ofNat_of_zero_le hge
  have hjlt : j < q.nbuckets := by omega
  refine ⟨j, hjlt, hj, ?_⟩
  have hnext := behind_succ h.last ht
  have hback : q.behind (t + 1) = q.lastbucket ↔ t + 1 = q.nbuckets := by
    rw [behind_eq_last h0 h.last ht]
    omega
  rw [hj] at hnext
  rw [hj]
  rw [scan, h.at_eq hjlt]
  show (if ready A top (q.calq (q.firstsub + j)) then _ else _) = _
  by_cases hready : ready A top (q.calq (q.firstsub + j))
  · rw [if_pos hready, if_pos hready]
    rfl
  · rw [if_neg hready, if_neg hready, hnext]
    by_cases hend : t + 1 = q.nbuckets
    · rw [if_pos (hback.mpr hend), if_pos hend]
      rfl
    · rw [if_neg (fun hb => hend (hback.mp hb)), if_neg hend]

theorem ne_nil_of_ready {top : D} {l : List (Node D α)} (h : ready A top l) : l ≠ [] := by
  rintro rfl
  cases h

/-- The loop of the search from `t` buckets behind `lastbucket` on. -/
theorem scan_spec (h : q.Shape A) (h0 : 0 ≤ q.lastbucket) :
    ∀ fuel t top, 0 < fuel → fuel + t = q.nbuckets →
      Ends F (scan A q fuel (q.behind t) top) fun found => ∀ i, found.1 = some i →
        ∃ j : ℕ, j < q.nbuckets ∧ i = j ∧ q.calq (q.firstsub + j) ≠ [] := by
  intro fuel
  induction fuel with
  | zero =>
    intro t top hpos
    omega
  | succ fuel ih =>
    intro t top _ hfuel
    obtain ⟨j, hj, -, hscan⟩ := h.scan_succ h0 top (show t < q.nbuckets by omega)
    rw [hscan]
    split_ifs with hready hend
    · refine .ok ?_
      rintro i ⟨⟩
      exact ⟨j, hj, rfl, ne_nil_of_ready hready⟩
    · exact .ok (by rintro i ⟨⟩)
    · exact ih (t + 1) _ (by omega) (by omega)

/-- The search starts with an access to the bucket it stands at. -/
theorem scan_negative (h : q.Shape A) (hneg : q.lastbucket < 0) (top : D) :
    scan A q q.nbuckets q.lastbucket top = .error .negativeBucket := by
  obtain ⟨n, hn⟩ := Nat.exists_eq_add_of_le' (show 1 ≤ q.nbuckets by have := h.le_nbuckets; omega)
  rw [hn, scan, Calqueue.at, if_pos hneg]
  rfl

theorem lowestOf_eq (h : q.Shape A) (st : Option ℕ × D) {j : ℕ} (hj : j < q.nbuckets) :
    lowestOf A q st j = .ok (match q.calq (q.firstsub + j) with
      | [] => st
      | e :: _ => if st.1.isNone ∨ A.lt e.priority st.2 then (some j, e.priority) else st) := by
  unfold lowestOf
  rw [h.at_eq hj]
  rfl

/-- The direct search finds a bucket that has a node, if there is one. -/
theorem directSearch_spec (h : q.Shape A) :
    Ends F (directSearch A q) fun found =>
      (∀ j, found = some j → j < q.nbuckets ∧ q.calq (q.firstsub + j) ≠ []) ∧
      (found = none → ∀ j, j < q.nbuckets → q.calq (q.firstsub + j) = []) := by
  unfold directSearch
  let I : List ℕ → Option ℕ × D → Prop := fun done st =>
    (∀ j, st.1 = some j → j < q.nbuckets ∧ q.calq (q.firstsub + j) ≠ []) ∧
    (st.1 = none → ∀ j ∈ done, q.calq (q.firstsub + j) = [])
  have hloop : Ends F ((List.range q.nbuckets).foldlM (lowestOf A q) (none, A.ofInt (2 ^ 63 - 1)))
      (I (List.range q.nbuckets)) := by
    refine .foldlM ⟨by rintro j ⟨⟩, fun _ j hj => by cases hj⟩ ?_
    rintro done j st hpre ⟨hsome, hnone⟩
    have hj : j < q.nbuckets := List.mem_range.mp (hpre.subset (by simp))
    rw [h.lowestOf_eq st hj]
    cases hl : q.calq (q.firstsub + j) with
    | nil =>
      refine ⟨hsome, fun hn x hx => ?_⟩
      obtain hx | hx := List.mem_append.mp hx
      · exact hnone hn x hx
      · exact List.mem_singleton.mp hx ▸ hl
    | cons e rest =>
      show I (done ++ [j]) (if _ then _ else _)
      split_ifs with hif
      · refine ⟨?_, by rintro ⟨⟩⟩
        rintro x ⟨⟩
        exact ⟨hj, by rw [hl]; exact List.cons_ne_nil e rest⟩
      · refine ⟨hsome, fun hn => absurd (.inl ?_) hif⟩
        rw [hn]
        rfl
  refine hloop.bind ?_
  rintro st ⟨hsome, hnone⟩
  exact .pure ⟨hsome, fun hn j hj => hnone hn j (List.mem_range.mpr hj)⟩

theorem exists_bucket (h : q.Shape A) (hne : q.qsize ≠ 0) :
    ∃ j, j < q.nbuckets ∧ q.calq (q.firstsub + j) ≠ [] := by
  by_contra hall
  push Not at hall
  refine hne ?_
  rw [h.count, items, contents_of_nil hall]
  rfl

theorem search_spec (h : q.Shape A) (hne : q.qsize ≠ 0)
    (hF : q.lastbucket < 0 → F .negativeBucket) :
    Ends F (search A q) fun found =>
      ∃ j : ℕ, j < q.nbuckets ∧ found.1 = j ∧ q.calq (q.firstsub + j) ≠ [] := by
  unfold search
  by_cases hneg : q.lastbucket < 0
  · rw [h.scan_negative hneg]
    exact .error (hF hneg)
  have hscan := h.scan_spec (F := F) (by omega) q.nbuckets 0 q.buckettop
    (by have := h.le_nbuckets; omega) rfl
  rw [behind_zero h.last] at hscan
  refine hscan.bind ?_
  rintro ⟨found, top⟩ hfound
  cases found with
  | some i =>
    obtain ⟨j, hj, rfl, hl⟩ := hfound i rfl
    exact .pure ⟨j, hj, rfl, hl⟩
  | none =>
    refine h.directSearch_spec.bind ?_
    rintro found ⟨hsome, hnone⟩
    cases found with
    | some j =>
      obtain ⟨hj, hl⟩ := hsome j rfl
      exact .pure ⟨j, hj, rfl, hl⟩
    | none =>
      obtain ⟨j, hj, hl⟩ := h.exists_bucket hne
      exact absurd (hnone rfl j hj) hl

/-! ## Removal -/

/-- The head of bucket `j` is taken. -/
theorem remove_eq (h : q.Shape A) {j : ℕ} {e : Node D α} {rest : List (Node D α)}
    (hj : j < q.nbuckets) (hl : q.calq (q.firstsub + j) = e :: rest) :
    ∃ q', q.remove j = .ok (e, q') ∧ q'.Shape A ∧ SameCalendar q q' ∧
      q.items = e ::ₘ q'.items ∧ q'.lastbucket = j ∧ q'.lastprio = e.priority ∧
      q'.buckettop = q.buckettop := by
  have hitems : e ::ₘ contents (Function.update q.calq (q.firstsub + j) rest) q.firstsub
      q.nbuckets = q.items := contents_tail hj hl
  refine ⟨{ q with
    calq := Function.update q.calq (q.firstsub + j) rest
    lastbucket := j
    lastprio := e.priority
    qsize := q.qsize - 1 }, ?_, h.congr ?_ ?_ ?_ fun i hi => ?_, ?_, hitems.symm, rfl, rfl, rfl⟩
  · unfold Calqueue.remove
    rw [h.at_eq hj]
    show (match q.calq (q.firstsub + j) with | [] => _ | e :: rest => _) = _
    rw [hl]
    rfl
  · exact ⟨rfl, rfl, rfl, rfl, rfl, rfl, fun c hc => outside_update hj hc⟩
  · show (j : ℤ) < q.nbuckets
    omega
  · show q.qsize - 1 = (contents _ q.firstsub q.nbuckets).card
    rw [h.count, ← hitems, Multiset.card_cons, Nat.add_sub_cancel]
  · exact h.bucket_update (hl ▸ h.bucket j hj).tail i hi
  · exact ⟨rfl, rfl, rfl, rfl, rfl, rfl, fun c hc => outside_update hj hc⟩

/-- Only the position of the search has changed. -/
theorem moved (h : q.Shape A) (top : D) : ({ q with buckettop := top } : Calqueue D α).Shape A :=
  h.congr ⟨rfl, rfl, rfl, rfl, rfl, rfl, fun _ _ => rfl⟩ h.last h.count h.bucket

/-- `calqueue_deq` up to the change of size. -/
theorem take_spec (h : q.Shape A) (hne : q.qsize ≠ 0)
    (hF : q.lastbucket < 0 → F .negativeBucket) :
    Ends F (take A q) fun taken =>
      taken.2.Shape A ∧ SameCalendar q taken.2 ∧ q.items = taken.1 ::ₘ taken.2.items ∧
        0 ≤ taken.2.lastbucket := by
  unfold take
  refine (h.search_spec hne hF).bind ?_
  rintro ⟨i, top⟩ ⟨j, hj, hi, hl⟩
  obtain rfl : i = j := hi
  obtain ⟨e, rest, hl⟩ := List.exists_cons_of_ne_nil hl
  obtain ⟨q', hq', hshape, hsame, hitems, hlast, -⟩ := (h.moved top).remove_eq hj hl
  rw [hq']
  refine .ok ⟨hshape, ?_, hitems, ?_⟩
  · obtain ⟨h1, h2, h3, h4, h5, h6, h7⟩ := hsame
    exact ⟨h1, h2, h3, h4, h5, h6, h7⟩
  · rw [hlast]
    omega

end Calqueue.Shape

end AosvFibers.Benchmark
