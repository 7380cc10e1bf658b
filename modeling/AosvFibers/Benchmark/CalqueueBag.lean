import AosvFibers.Benchmark.CalqueueShape

/-!
# The calendar queue is a bag

`Calqueue.Good` holds after `calqueue_init` and is kept by `calqueue_put` and `calqueue_get`.
With it a call does not touch memory outside of `calq`, does not read a null node, ends its search
and does not change the size of the calendar while it changes the size of the calendar. The one
thing that can go wrong is a negative bucket number.

Main results:
* `calqueue_refines_bag`: whatever the arithmetic, a run of calls is a run of a bag.
* `calqueue_shape`: in every state that is reached the size of the calendar fits the number of
  nodes, and a bucket holds the nodes of its number, in order.
-/

namespace AosvFibers.Benchmark

open Lib

variable {D α : Type} {A : Arith D} {F : Fault → Prop}

namespace Calqueue

variable {q : Calqueue D α} {resize : Calqueue D α → ℕ → Except Fault (Calqueue D α)}

/-! ## Several nodes -/

/-- Insertions after which the size of the calendar does not change. -/
theorem Shape.putAll_spec (hoff : ∀ q newsize, q.resizeEnabled = false → resize q newsize = .ok q)
    (l : List (Node D α)) : ∀ q : Calqueue D α, q.Shape A →
      (q.resizeEnabled = false ∨ q.qsize + l.length ≤ 2 * q.nbuckets ∨ MAXNBUCKETS ≤ q.nbuckets) →
      (∀ n ∈ l, A.number q.cwidth q.nbuckets n.priority < 0 → F .negativeBucket) →
      Ends F (putAll A resize q l) fun q' => q'.Shape A ∧ SameCalendar q q' ∧ SamePosition q q' ∧
        q'.items = (l : Multiset (Node D α)) + q.items := by
  induction l with
  | nil =>
    intro q h _ _
    exact .ok ⟨h, .refl q, .refl q, (Multiset.zero_add _).symm⟩
  | cons n l ih =>
    intro q h hquiet hF
    rw [List.length_cons] at hquiet
    unfold putAll
    rw [List.foldlM_cons]
    have hput := h.put_spec n hoff (hquiet.imp_right (.imp_left (by omega))) (hF n (by simp))
    refine hput.bind ?_
    rintro q₁ ⟨h₁, hsame, hpos, hitems⟩
    have hsize : q₁.qsize = q.qsize + 1 := by
      rw [h₁.count, hitems, Multiset.card_cons, h.count]
    have hquiet₁ : q₁.resizeEnabled = false ∨ q₁.qsize + l.length ≤ 2 * q₁.nbuckets ∨
        MAXNBUCKETS ≤ q₁.nbuckets := by
      rw [hsame.enabled, hsame.nbuckets, hsize]
      exact hquiet.imp_right (.imp_left (by omega))
    have hF₁ : ∀ x ∈ l, A.number q₁.cwidth q₁.nbuckets x.priority < 0 → F .negativeBucket := by
      rw [hsame.width, hsame.nbuckets]
      exact fun x hx => hF x (List.mem_cons_of_mem n hx)
    refine (ih q₁ h₁ hquiet₁ hF₁).mono ?_
    rintro q' ⟨h', hsame', hpos', hitems'⟩
    refine ⟨h', hsame.trans hsame', hpos.trans hpos', ?_⟩
    rw [hitems', hitems, ← Multiset.cons_coe, Multiset.add_cons, Multiset.cons_add]

/-- `calqueue_deq` while the size of the calendar is fixed. -/
theorem Shape.deq_spec (hoff : ∀ q newsize, q.resizeEnabled = false → resize q newsize = .ok q)
    (h : q.Shape A) (hfixed : q.resizeEnabled = false) (hne : q.qsize ≠ 0)
    (hF : q.lastbucket < 0 → F .negativeBucket) :
    Ends F (deq A resize q) fun taken => ∃ e, taken.1 = some e ∧ taken.2.Shape A ∧
      SameCalendar q taken.2 ∧ q.items = e ::ₘ taken.2.items ∧ 0 ≤ taken.2.lastbucket := by
  unfold deq
  rw [if_neg hne]
  refine (h.take_spec hne hF).bind ?_
  rintro ⟨e, q'⟩ ⟨hq', hsame, hitems, hlast⟩
  dsimp only at hq' hsame hitems hlast ⊢
  split_ifs
  · rw [hoff q' _ (hsame.enabled.trans hfixed)]
    exact .ok ⟨e, rfl, hq', hsame, hitems, hlast⟩
  · exact .pure ⟨e, rfl, hq', hsame, hitems, hlast⟩

theorem Shape.sample_spec (hoff : ∀ q newsize, q.resizeEnabled = false → resize q newsize = .ok q)
    (n : ℕ) : ∀ q : Calqueue D α, q.Shape A → q.resizeEnabled = false → n ≤ q.qsize →
      (q.lastbucket < 0 → F .negativeBucket) →
      Ends F (sample A resize n q) fun taken => taken.2.Shape A ∧ SameCalendar q taken.2 ∧
        q.items = (taken.1 : Multiset (Node D α)) + taken.2.items := by
  induction n with
  | zero =>
    intro q h _ _ _
    exact .ok ⟨h, .refl q, (Multiset.zero_add _).symm⟩
  | succ n ih =>
    intro q h hfixed hn hF
    unfold sample
    refine (h.deq_spec hoff hfixed (by omega) hF).bind ?_
    rintro ⟨_, q₁⟩ ⟨e, rfl, h₁, hsame, hitems, hlast⟩
    dsimp only at h₁ hsame hitems hlast
    have hsize : q.qsize = q₁.qsize + 1 := by
      rw [h.count, hitems, Multiset.card_cons, h₁.count]
    refine (ih q₁ h₁ (hsame.enabled.trans hfixed) (by omega) (by omega)).bind ?_
    rintro ⟨l, q'⟩ ⟨h', hsame', hitems'⟩
    refine .pure ⟨h', hsame.trans hsame', ?_⟩
    rw [hitems, hitems']
    exact (Multiset.cons_add e _ _).symm

theorem nsamples_le {n : ℕ} : nsamples n ≤ n := by
  unfold nsamples
  split_ifs <;> omega

/-- `new_width` puts back what it has taken. -/
theorem Shape.newWidth_spec
    (hoff : ∀ q newsize, q.resizeEnabled = false → resize q newsize = .ok q) (h : q.Shape A)
    (hon : q.resizeEnabled = true) (hF : F .negativeBucket) :
    Ends F (newWidth A resize q) fun width => width.2.Shape A ∧ SameCalendar q width.2 ∧
      SamePosition q width.2 ∧ width.2.items = q.items := by
  unfold newWidth
  split_ifs with hsmall
  · exact .pure ⟨h, .refl q, .refl q, rfl⟩
  · have hfixed : ({ q with resizeEnabled := false } : Calqueue D α).Shape A := by
      obtain ⟨h1, h2, h3, h4, h5, h6, h7⟩ := h
      exact ⟨h1, h2, h3, h4, h5, h6, h7⟩
    refine (hfixed.sample_spec hoff (nsamples q.qsize) _ rfl nsamples_le fun _ => hF).bind ?_
    rintro ⟨l, q₁⟩ ⟨h₁, hsame₁, hitems₁⟩
    refine (h₁.putAll_spec hoff l _ (.inl hsame₁.enabled) fun _ _ _ => hF).bind ?_
    rintro q' ⟨h', hsame', -, hitems'⟩
    have hsame := hsame₁.trans hsame'
    have hnb : q'.nbuckets = q.nbuckets := hsame.nbuckets
    refine .pure ⟨?_, ?_, ⟨rfl, rfl, rfl⟩, ?_⟩
    · obtain ⟨h1, h2, h3, h4, -, h6, h7⟩ := h'
      exact ⟨h1, h2, h3, h4, hnb ▸ h.last, h6, h7⟩
    · obtain ⟨h1, h2, h3, h4, h5, -, h7⟩ := hsame
      exact ⟨h1, h2, h3, h4, h5, hon.symm, h7⟩
    · exact hitems'.trans hitems₁.symm

/-! ## A new calendar -/

/-- The calendar has `newsize` buckets of width `w` and its search starts at the priority `p`. -/
structure Started (A : Arith D) (newsize : ℕ) (w p : D) (q : Calqueue D α) : Prop where
  nbuckets : q.nbuckets = newsize
  width : q.cwidth = w
  prio : q.lastprio = p
  bucket : q.lastbucket = (A.toLong (A.div p w)).tmod newsize
  top : q.buckettop =
    A.add (A.mul (A.ofInt (A.toLong (A.div p w) + 1)) w) (A.mul A.half w)

theorem Started.congr {newsize : ℕ} {w p : D} {q q' : Calqueue D α} (h : Started A newsize w p q)
    (hs : SameCalendar q q') (hp : SamePosition q q') : Started A newsize w p q' where
  nbuckets := hs.nbuckets.trans h.nbuckets
  width := hs.width.trans h.width
  prio := hp.prio.trans h.prio
  bucket := hp.bucket.trans h.bucket
  top := hp.top.trans h.top

/-- `localinit` empties a region of `calq` and leaves the rest of it. -/
theorem localinit_spec (q : Calqueue D α) {base newsize : ℕ} (w p : D)
    (hsize : ∃ k, 1 ≤ k ∧ k ≤ 15 ∧ newsize = 2 ^ k)
    (hbase : base = 0 ∨ base + newsize = CALQSPACE) :
    ∃ q₀, localinit A q base newsize w p = .ok q₀ ∧ q₀.Shape A ∧ Started A newsize w p q₀ ∧
      q₀.items = 0 ∧ q₀.firstsub = base ∧ q₀.resizeEnabled = q.resizeEnabled ∧
      ∀ c, c < base ∨ base + newsize ≤ c → q₀.calq c = q.calq c := by
  have hlt : 0 < newsize ∧ newsize ≤ CALQSPACE := by
    obtain ⟨k, -, hk, rfl⟩ := hsize
    have := Nat.pow_le_pow_right (show 0 < 2 by omega) hk
    unfold CALQSPACE
    exact ⟨Nat.two_pow_pos k, by omega⟩
  have hnil : ∀ j, j < newsize → (if base ≤ base + j ∧ base + j < base + newsize then []
      else q.calq (base + j)) = [] := by
    intro j hj
    rw [if_pos (by omega)]
  unfold localinit
  rw [if_pos (show base + newsize ≤ CALQSPACE by omega)]
  refine ⟨_, rfl, ⟨hsize, hbase, rfl, rfl, ?_, ?_, ?_⟩, ⟨rfl, rfl, rfl, rfl, rfl⟩, ?_, rfl, rfl, ?_⟩
  · exact Int.tmod_lt_of_pos _ (by omega)
  · exact (congrArg Multiset.card (contents_of_nil hnil)).symm
  · intro j hj
    show Bucket A w newsize j (if _ then _ else _)
    rw [hnil j hj]
    exact ⟨by rintro e ⟨⟩, fun _ => .nil⟩
  · exact contents_of_nil hnil
  · intro c hc
    exact if_neg (by omega)

/-- The region of the new calendar and the region of the old one are apart. -/
theorem Shape.apart (h : q.Shape A) {newsize : ℕ} (hsize : newsize ≤ MAXNBUCKETS) {j : ℕ}
    (hj : j < q.nbuckets) :
    q.firstsub + j < (if q.firstsub = 0 then CALQSPACE - newsize else 0) ∨
      (if q.firstsub = 0 then CALQSPACE - newsize else 0) + newsize ≤ q.firstsub + j := by
  have hle := h.nbuckets_le
  have hregion := h.region
  unfold MAXNBUCKETS at hsize hle
  unfold CALQSPACE at hregion ⊢
  split_ifs <;> omega

theorem items_eq_sum (q : Calqueue D α) :
    q.items = ((List.range q.nbuckets).reverse.map fun i =>
      (q.calq (q.firstsub + i) : Multiset (Node D α))).sum := by
  rw [((List.reverse_perm _).map _).sum_eq]
  rfl

/-- The nodes of the old calendar are put into the new one. -/
theorem Shape.rebuild_spec (h : q.Shape A)
    (hoff : ∀ q newsize, q.resizeEnabled = false → resize q newsize = .ok q) {newsize : ℕ} {w : D}
    (hsize : ∃ k, 1 ≤ k ∧ k ≤ 15 ∧ newsize = 2 ^ k)
    (hfits : q.qsize ≤ 2 * newsize ∨ MAXNBUCKETS ≤ newsize)
    (hF : ∀ n ∈ q.items, A.number w newsize n.priority < 0 → F .negativeBucket) :
    Ends F (rebuild A resize q newsize w) fun q' => q'.Shape A ∧
      Started A newsize w q.lastprio q' ∧ q'.resizeEnabled = q.resizeEnabled ∧
      q'.items = q.items := by
  have hle : newsize ≤ MAXNBUCKETS := by
    obtain ⟨k, -, hk, rfl⟩ := hsize
    exact Nat.pow_le_pow_right (show 0 < 2 by omega) hk
  have hbase : (if q.firstsub = 0 then CALQSPACE - newsize else 0) = 0 ∨
      (if q.firstsub = 0 then CALQSPACE - newsize else 0) + newsize = CALQSPACE := by
    unfold MAXNBUCKETS at hle
    unfold CALQSPACE
    split_ifs <;> omega
  obtain ⟨q₀, hq₀, h₀, hstart, hitems₀, hfirst, hen, hrest⟩ :=
    localinit_spec (A := A) q w q.lastprio hsize hbase
  unfold rebuild
  rw [hq₀]
  let f : ℕ → Multiset (Node D α) := fun i => q.calq (q.firstsub + i)
  let I : List ℕ → Calqueue D α → Prop := fun done q' =>
    q'.Shape A ∧ SameCalendar q₀ q' ∧ SamePosition q₀ q' ∧ q'.items = (done.map f).sum
  refine Ends.mono (Q := I (List.range q.nbuckets).reverse) (.foldlM ⟨h₀, .refl q₀, .refl q₀, hitems₀⟩
    ?_) ?_
  · rintro done i q' ⟨rest, hpre⟩ ⟨hq', hsame, hpos, hitems⟩
    have hi : i < q.nbuckets := by
      have hmem : i ∈ (List.range q.nbuckets).reverse := by
        rw [← hpre]
        simp
      exact List.mem_range.mp (List.mem_reverse.mp hmem)
    -- the list to copy is still what it was
    have hlist : q'.calq (q.firstsub + i) = q.calq (q.firstsub + i) := by
      have happ := h.apart hle hi
      rw [hsame.outside _ (by rw [hfirst, hstart.nbuckets]; exact happ), hrest _ happ]
    have hsum : q.items = ((done.map f).sum + f i) + (rest.map f).sum := by
      rw [items_eq_sum, ← hpre]
      simp only [List.map_append, List.map_cons, List.map_nil, List.sum_append, List.sum_cons,
        List.sum_nil, add_zero, f]
    have hcard : q'.qsize + (q.calq (q.firstsub + i)).length ≤ q.qsize := by
      have hc := congrArg Multiset.card hsum
      rw [Multiset.card_add, Multiset.card_add, ← hitems, ← hq'.count, ← h.count] at hc
      have : Multiset.card (f i) = (q.calq (q.firstsub + i)).length := Multiset.coe_card _
      omega
    have hnb : q'.nbuckets = newsize := hsame.nbuckets.trans hstart.nbuckets
    rw [hlist]
    refine (hq'.putAll_spec hoff _ _ (.inr ?_) ?_).mono ?_
    · rw [hnb]
      exact hfits.imp_left (by omega)
    · intro n hn
      rw [hsame.width, hstart.width, hnb]
      exact hF n (mem_contents.mpr ⟨i, hi, hn⟩)
    · rintro q'' ⟨hq'', hsame', hpos', hitems'⟩
      refine ⟨hq'', hsame.trans hsame', hpos.trans hpos', ?_⟩
      rw [hitems', hitems, add_comm]
      simp only [List.map_append, List.map_cons, List.map_nil, List.sum_append, List.sum_cons,
        List.sum_nil, add_zero, f]
  · rintro q' ⟨hq', hsame, hpos, hitems⟩
    exact ⟨hq', hstart.congr hsame hpos, hsame.enabled.trans hen, hitems.trans q.items_eq_sum.symm⟩

/-! ## The calls -/

theorem resize_off {depth : ℕ} (newsize : ℕ) (h : q.resizeEnabled = false) :
    Benchmark.resize A depth q newsize = .ok q := by
  cases depth with
  | zero =>
    rw [Benchmark.resize, h]
    rfl
  | succ depth =>
    rw [Benchmark.resize, resizeWith, h]
    rfl

/-- The state between two calls. -/
structure Good (A : Arith D) (q : Calqueue D α) : Prop where
  shape : q.Shape A
  enabled : q.resizeEnabled = true
  filled : q.qsize ≤ 2 * q.nbuckets ∨ MAXNBUCKETS ≤ q.nbuckets
  kept : q.nbuckets / 2 ≤ q.qsize + 2

/-- The number of buckets can be doubled. -/
theorem Shape.exists_double (h : q.Shape A) (hlt : q.nbuckets < MAXNBUCKETS) :
    ∃ k, 1 ≤ k ∧ k ≤ 15 ∧ 2 * q.nbuckets = 2 ^ k := by
  obtain ⟨k, hk, -, hpow⟩ := h.size
  have hlt' : k < 15 := by
    rw [hpow] at hlt
    exact (Nat.pow_lt_pow_iff_right (show 1 < 2 by omega)).mp hlt
  refine ⟨k + 1, by omega, by omega, ?_⟩
  rw [hpow, pow_succ']

/-- The number of buckets can be halved. -/
theorem Shape.exists_half (h : q.Shape A) (hlt : 2 < q.nbuckets) :
    ∃ k, 1 ≤ k ∧ k ≤ 15 ∧ q.nbuckets / 2 = 2 ^ k := by
  obtain ⟨k, hk, hk', hpow⟩ := h.size
  obtain ⟨k, rfl⟩ := Nat.exists_eq_add_of_le' hk
  have hhalf : q.nbuckets / 2 = 2 ^ k := by
    rw [hpow, pow_succ, Nat.mul_div_cancel _ (by omega)]
  refine ⟨k, ?_, by omega, hhalf⟩
  by_contra hk0
  obtain rfl : k = 0 := by omega
  omega

/-- `resize` does not lead to another `resize`. -/
theorem Shape.resize_spec (h : q.Shape A) (hon : q.resizeEnabled = true) {newsize : ℕ}
    (hsize : ∃ k, 1 ≤ k ∧ k ≤ 15 ∧ newsize = 2 ^ k)
    (hfits : q.qsize ≤ 2 * newsize ∨ MAXNBUCKETS ≤ newsize) (hkept : newsize / 2 ≤ q.qsize + 2)
    (hF : F .negativeBucket) :
    Ends F (Benchmark.resize A 1 q newsize) fun q' => q'.Good A ∧ q'.items = q.items := by
  have hoff : ∀ (q : Calqueue D α) newsize, q.resizeEnabled = false →
      Benchmark.resize A 0 q newsize = .ok q := fun _ newsize => resize_off newsize
  rw [Benchmark.resize, resizeWith, if_pos hon]
  refine (h.newWidth_spec hoff hon hF).bind ?_
  rintro ⟨w, q₁⟩ ⟨h₁, hsame, hpos, hitems⟩
  have hcount : q₁.qsize = q.qsize := by
    rw [h₁.count, hitems, h.count]
  refine (h₁.rebuild_spec hoff hsize (by rw [hcount]; exact hfits) fun _ _ _ => hF).mono ?_
  rintro q' ⟨h', hstart, hen, hitems'⟩
  have hcount' : q'.qsize = q.qsize := by
    rw [h'.count, hitems', ← h₁.count, hcount]
  refine ⟨⟨h', hen.trans (hsame.enabled.trans hon), ?_, ?_⟩, hitems'.trans hitems⟩
  · rw [hstart.nbuckets, hcount']
    exact hfits
  · rw [hstart.nbuckets, hcount']
    exact hkept

theorem Good.put_spec (h : q.Good A) (n : Node D α) (hF : F .negativeBucket) :
    Ends F (put A (Benchmark.resize A 1) q n) fun q' => q'.Good A ∧ q'.items = n ::ₘ q.items := by
  unfold put
  refine (h.shape.insert_spec n fun _ => hF).bind ?_
  rintro q₁ ⟨h₁, hsame, -, hitems⟩
  have hon := hsame.enabled.trans h.enabled
  have htop := h₁.top
  have hnb := hsame.nbuckets
  have htwo := h₁.le_nbuckets
  have hcount : q₁.qsize = q.qsize + 1 := by
    rw [h₁.count, hitems, Multiset.card_cons, h.shape.count]
  have hfilled := h.filled
  have hkept := h.kept
  split_ifs with hgrow
  · have hfits : q₁.qsize ≤ 2 * (2 * q₁.nbuckets) := by omega
    have hkept : 2 * q₁.nbuckets / 2 ≤ q₁.qsize + 2 := by omega
    refine (h₁.resize_spec hon (h₁.exists_double hgrow.2) (.inl hfits) hkept hF).mono ?_
    rintro q' ⟨hq', hitems'⟩
    exact ⟨hq', hitems'.trans hitems⟩
  · exact .pure ⟨⟨h₁, hon, by omega, by omega⟩, hitems⟩

theorem Good.deq_spec (h : q.Good A) (hF : F .negativeBucket) :
    Ends F (deq A (Benchmark.resize A 1) q) fun taken => taken.2.Good A ∧
      (taken.1 = none ∧ q.items = 0 ∧ taken.2 = q ∨
        ∃ e, taken.1 = some e ∧ q.items = e ::ₘ taken.2.items) := by
  unfold deq
  split_ifs with hempty
  · refine .pure ⟨h, .inl ⟨rfl, ?_, rfl⟩⟩
    rw [h.shape.count] at hempty
    exact Multiset.card_eq_zero.mp hempty
  · refine (h.shape.take_spec hempty fun _ => hF).bind ?_
    rintro ⟨e, q₁⟩ ⟨h₁, hsame, hitems, -⟩
    dsimp only at h₁ hsame hitems ⊢
    have hon := hsame.enabled.trans h.enabled
    have hbot := h₁.bot
    have hnb := hsame.nbuckets
    have hcount : q.qsize = q₁.qsize + 1 := by
      rw [h₁.count, h.shape.count, hitems, Multiset.card_cons]
    have hfilled := h.filled
    have hkept := h.kept
    split_ifs with hshrink
    · have hfits : q₁.qsize ≤ 2 * (q₁.nbuckets / 2) := by omega
      have hkept : q₁.nbuckets / 2 / 2 ≤ q₁.qsize + 2 := by omega
      refine (h₁.resize_spec hon (h₁.exists_half (by omega)) (.inl hfits) hkept hF).bind ?_
      rintro q' ⟨hq', hitems'⟩
      exact .pure ⟨hq', .inr ⟨e, rfl, hitems.trans (congrArg _ hitems'.symm)⟩⟩
    · exact .pure ⟨⟨h₁, hon, show q₁.qsize ≤ 2 * q₁.nbuckets ∨ MAXNBUCKETS ≤ q₁.nbuckets by omega,
        show q₁.nbuckets / 2 ≤ q₁.qsize + 2 by omega⟩, .inr ⟨e, rfl, hitems⟩⟩

/-- `calqueue_init` empties the queue. -/
theorem init_spec (A : Arith D) (q : Calqueue D α) :
    ∃ q₀, calqueueInit A q = .ok q₀ ∧ q₀.Good A ∧ q₀.items = 0 := by
  obtain ⟨q₀, hq₀, h₀, hstart, hitems, -⟩ := localinit_spec (A := A) q (A.ofInt 1) (A.ofInt 0)
    (show ∃ k, 1 ≤ k ∧ k ≤ 15 ∧ 2 = 2 ^ k from ⟨1, by omega, by omega, rfl⟩) (.inl rfl)
  refine ⟨{ q₀ with resizeEnabled := true }, ?_, ⟨?_, rfl, ?_, ?_⟩, hitems⟩
  · unfold calqueueInit
    rw [hq₀]
    rfl
  · obtain ⟨h1, h2, h3, h4, h5, h6, h7⟩ := h₀
    exact ⟨h1, h2, h3, h4, h5, h6, h7⟩
  · refine .inl ?_
    show q₀.qsize ≤ _
    rw [h₀.count, hitems]
    exact Nat.zero_le _
  · show q₀.nbuckets / 2 ≤ _
    rw [hstart.nbuckets]
    omega

end Calqueue

/-! ## Runs -/

/-- What a caller sees of a call: `calqueue_put`, or `calqueue_get` with its result. -/
inductive Event (D α : Type)
  | put (priority : D) (payload : α)
  | get (payload : Option α)
deriving DecidableEq

/-- A call that returns. -/
def QueueStep (A : Arith D) (q : Calqueue D α) : Event D α → Calqueue D α → Prop
  | .put priority payload, q' => calqueuePut A q priority payload = .ok q'
  | .get payload, q' => calqueueGet A q = .ok (payload, q')

/-- A bag of nodes: any of them may be the next one to get. -/
def BagStep (b : Multiset (Node D α)) : Event D α → Multiset (Node D α) → Prop
  | .put priority payload, b' => b' = ⟨priority, payload⟩ ::ₘ b
  | .get none, b' => b = 0 ∧ b' = 0
  | .get (some payload), b' => ∃ priority, b = ⟨priority, payload⟩ ::ₘ b'

/-- `calqueue_get` does to the nodes what it does to a bag. -/
theorem Calqueue.Good.get_spec {q : Calqueue D α} (h : q.Good A) (hF : F .negativeBucket) :
    Ends F (calqueueGet A q) fun r => r.2.Good A ∧ BagStep q.items (.get r.1) r.2.items := by
  unfold calqueueGet
  refine (h.deq_spec hF).bind ?_
  rintro ⟨found, q₁⟩ ⟨h₁, hcase⟩
  refine .pure ⟨h₁, ?_⟩
  obtain ⟨rfl, hitems, rfl⟩ | ⟨e, rfl, hitems⟩ := hcase
  · exact ⟨hitems, hitems⟩
  · exact ⟨e.priority, hitems⟩

/-- A call takes a good state to a good state and does to the nodes what it does to a bag. -/
theorem Calqueue.Good.step {q q' : Calqueue D α} {ev : Event D α} (h : q.Good A)
    (hs : QueueStep A q ev q') : q'.Good A ∧ BagStep q.items ev q'.items := by
  cases ev with
  | put priority payload =>
    exact (h.put_spec (F := fun _ => True) ⟨priority, payload⟩ trivial).value hs
  | get payload => exact (h.get_spec (F := fun _ => True) trivial).value hs

theorem Calqueue.Good.of_init {q q₀ : Calqueue D α} (h : calqueueInit A q = .ok q₀) :
    q₀.Good A ∧ q₀.items = 0 := by
  obtain ⟨q₁, hq₁, hgood, hitems⟩ := Calqueue.init_spec A q
  rw [h] at hq₁
  cases hq₁
  exact ⟨hgood, hitems⟩

/-- Every state between two calls is good. -/
theorem Calqueue.Good.of_run {q₀ q : Calqueue D α} {evs : List (Event D α)} (h : q₀.Good A)
    (hrun : Run (QueueStep A) q₀ evs q) : q.Good A :=
  hrun.invariant h fun _ _ _ hgood hs => (hgood.step hs).1

/-- Whatever the arithmetic, a run of calls on the queue is a run of a bag: `calqueue_get` returns
    each payload that was put once, and `NULL` only from the empty queue. The next call does the
    same, or takes a negative bucket number. -/
theorem calqueue_refines_bag (A : Arith D) (memory q₀ q : Calqueue D α) (evs : List (Event D α))
    (h0 : calqueueInit A memory = .ok q₀) (hrun : Run (QueueStep A) q₀ evs q) :
    Run BagStep 0 evs q.items ∧ (calqueueEmpty q ↔ q.items = 0) ∧
    (∀ priority payload, Ends (fun e => e = .negativeBucket) (calqueuePut A q priority payload)
      fun q' => BagStep q.items (.put priority payload) q'.items) ∧
    Ends (fun e => e = .negativeBucket) (calqueueGet A q)
      fun r => BagStep q.items (.get r.1) r.2.items := by
  obtain ⟨hgood₀, hitems₀⟩ := Calqueue.Good.of_init h0
  have hgood := hgood₀.of_run hrun
  refine ⟨?_, ?_, fun priority payload => ?_, ?_⟩
  · rw [← hitems₀]
    clear hgood h0
    induction hrun with
    | nil => exact .nil
    | snoc hrun hs ih => exact ih.snoc ((hgood₀.of_run hrun).step hs).2
  · rw [calqueueEmpty, beq_iff_eq, hgood.shape.count, Multiset.card_eq_zero]
  · exact (hgood.put_spec (F := fun e => e = .negativeBucket) _ rfl).mono fun _ h => h.2
  · exact (hgood.get_spec (F := fun e => e = .negativeBucket) rfl).mono fun _ h => h.2

/-- Some calls one after the other, `none` for `calqueue_get`, and what the caller sees. -/
def calls (A : Arith D) : List (Option (D × α)) → Calqueue D α →
    Except Fault (List (Event D α) × Calqueue D α)
  | [], q => return ([], q)
  | some (priority, payload) :: rest, q => do
    let q ← calqueuePut A q priority payload
    let r ← calls A rest q
    return (.put priority payload :: r.1, r.2)
  | none :: rest, q => do
    let got ← calqueueGet A q
    let r ← calls A rest got.2
    return (.get got.1 :: r.1, r.2)

theorem run_calls {A : Arith D} {cs : List (Option (D × α))} :
    ∀ {q q' : Calqueue D α} {evs : List (Event D α)}, calls A cs q = .ok (evs, q') →
      Run (QueueStep A) q evs q' := by
  induction cs with
  | nil =>
    rintro q q' evs ⟨⟩
    exact .nil
  | cons c rest ih =>
    intro q q' evs h
    cases c with
    | none =>
      obtain ⟨got, hget, h⟩ := bind_eq_ok.mp h
      obtain ⟨r, hrest, h⟩ := bind_eq_ok.mp h
      cases h
      exact Run.head (show QueueStep A q (.get got.1) got.2 from hget) (ih hrest)
    | some n =>
      obtain ⟨q₁, hput, h⟩ := bind_eq_ok.mp h
      obtain ⟨r, hrest, h⟩ := bind_eq_ok.mp h
      cases h
      exact Run.head (show QueueStep A q (.put n.1 n.2) q₁ from hput) (ih hrest)

theorem exists_run_calls {A : Arith D} {cs : List (Option (D × α))} {memory : Calqueue D α}
    {evs : List (Event D α)}
    (h : (calqueueInit A memory >>= calls A cs).map Prod.fst = .ok evs) :
    ∃ q₀ q, calqueueInit A memory = .ok q₀ ∧ Run (QueueStep A) q₀ evs q := by
  cases hr : calqueueInit A memory >>= calls A cs with
  | error e =>
    rw [hr] at h
    cases h
  | ok r =>
    rw [hr] at h
    cases h
    obtain ⟨q₀, h0, hcalls⟩ := bind_eq_ok.mp hr
    exact ⟨q₀, r.2, h0, run_calls hcalls⟩

/-- A queue whose memory is all zero, before `calqueue_init`. -/
def Calqueue.zero : Calqueue ℚ ℕ := ⟨fun _ => [], 0, 0, 0, 0, false, 0, 0, 0, 0, 0⟩

theorem calqueue_refines_bag_three :
    ∃ q : Calqueue ℚ ℕ, Run BagStep 0 [.put 3 10, .put 1 20, .get (some 20)] q.items := by
  have hcalls : (calqueueInit (Arith.exact ℚ) .zero >>=
      calls (Arith.exact ℚ) [some (3, 10), some (1, 20), none]).map Prod.fst =
      .ok [.put 3 10, .put 1 20, .get (some 20)] := by decide +kernel
  obtain ⟨q₀, q, h0, hrun⟩ := exists_run_calls hcalls
  exact ⟨q, (calqueue_refines_bag _ _ q₀ q _ h0 hrun).1⟩

/-- In every state between two calls the number of buckets is a power of two that fits the number
    of nodes, the calendar is in its array, every node is in the bucket of its number, and the
    buckets are in order of priority. -/
theorem calqueue_shape (A : Arith D) (hA : A.Linear) (memory q₀ q : Calqueue D α)
    (evs : List (Event D α)) (h0 : calqueueInit A memory = .ok q₀)
    (hrun : Run (QueueStep A) q₀ evs q) :
    (∃ k, 1 ≤ k ∧ k ≤ 15 ∧ q.nbuckets = 2 ^ k) ∧ q.firstsub + q.nbuckets ≤ CALQSPACE ∧
    (q.qsize ≤ 2 * q.nbuckets ∨ q.nbuckets = MAXNBUCKETS) ∧ q.nbuckets / 2 ≤ q.qsize + 2 ∧
    q.qsize = ∑ j ∈ Finset.range q.nbuckets, (q.calq (q.firstsub + j)).length ∧
    ∀ j, j < q.nbuckets → InOrder A (q.calq (q.firstsub + j)) ∧
      ∀ e ∈ q.calq (q.firstsub + j), A.number q.cwidth q.nbuckets e.priority = j := by
  have hgood := (Calqueue.Good.of_init h0).1.of_run hrun
  have hshape := hgood.shape
  refine ⟨hshape.size, hshape.fits, ?_, hgood.kept, ?_, fun j hj => ?_⟩
  · exact hgood.filled.imp_right fun h => le_antisymm hshape.nbuckets_le h
  · rw [hshape.count, Calqueue.items, contents, Multiset.card_sum]
    rfl
  · exact ⟨(hshape.bucket j hj).inOrder hA, (hshape.bucket j hj).number⟩

theorem Arith.exact_linear {K : Type} [Field K] [LinearOrder K] [FloorRing K] :
    (Arith.exact K).Linear where
  total a b := by simpa [Arith.exact] using le_total a b
  trans a b c := by simpa [Arith.exact] using le_trans
  lt_iff a b := by simp [Arith.exact, ← not_le]

theorem calqueue_shape_three : ∃ q : Calqueue ℚ ℕ, q.nbuckets / 2 ≤ q.qsize + 2 ∧
    ∀ j, j < q.nbuckets → InOrder (Arith.exact ℚ) (q.calq (q.firstsub + j)) := by
  have hcalls : (calqueueInit (Arith.exact ℚ) .zero >>=
      calls (Arith.exact ℚ) [some (3, 10), some (1, 20), none]).map Prod.fst =
      .ok [.put 3 10, .put 1 20, .get (some 20)] := by decide +kernel
  obtain ⟨q₀, q, h0, hrun⟩ := exists_run_calls hcalls
  obtain ⟨-, -, -, hkept, -, hbuckets⟩ :=
    calqueue_shape _ Arith.exact_linear _ q₀ q _ h0 hrun
  exact ⟨q, hkept, fun j hj => (hbuckets j hj).1⟩

end AosvFibers.Benchmark
