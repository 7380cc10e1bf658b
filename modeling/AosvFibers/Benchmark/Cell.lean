import AosvFibers.Benchmark.CalqueueBag
import AosvFibers.Benchmark.Model
import AosvFibers.Benchmark.Numerical

/-!
# The busy channels of a cell

`Lp.Busy s l` says that the channel list of `s` holds the nodes and channel ids `l`, newest first,
that it is linked in both directions, that its nodes are allocated and that the bitmap has a one for
exactly the ids in it. `allocation` and `deallocation` keep it.

Main result: `channels_refine`, a run of allocations and deallocations is a run on a set of channel
ids, of which an allocation takes the least that is free.
-/

namespace AosvFibers.Benchmark

open Lib

variable {D R : Type} {N : Numerics D R} {F : Crash → Prop}

/-! ## Memory of a channel list -/

/-- A channel but for its fading. -/
def Channel.fixed (c : Channel D) : ℕ × D × Option ℕ × Option ℕ :=
  (c.channelId, c.power, c.next, c.prev)

/-- The memory `m'` is the memory `m` but for the fading of its channels. -/
def Faded (m m' : Chans D) : Prop := ∀ a, (m' a).map Channel.fixed = (m a).map Channel.fixed

/-- The memory `m'` is the memory `m` but for fading and links. -/
def Kept (m m' : Chans D) : Prop :=
  ∀ a, (m' a).map (fun c => (c.channelId, c.power)) = (m a).map fun c => (c.channelId, c.power)

namespace Chans

variable {m : Chans D} {a : Option ℕ}

theorem links_modify {f : Channel D → Channel D} {g : Links ℕ → Links ℕ}
    (hf : ∀ c, (⟨(f c).next, (f c).prev⟩ : Links ℕ) = g ⟨c.next, c.prev⟩) :
    (m.modify a f).links = fun b => if a = some b then (m.links b).map g else m.links b := by
  funext b
  unfold links modify
  split_ifs
  · cases m b with
    | none => rfl
    | some c => exact congrArg some (hf c)
  · rfl

theorem links_next (v : Option ℕ) :
    (m.modify a fun c => { c with next := v }).links = setNext m.links a v :=
  links_modify (g := fun l => { l with next := v }) fun _ => rfl

theorem links_prev (v : Option ℕ) :
    (m.modify a fun c => { c with prev := v }).links = setPrev m.links a v :=
  links_modify (g := fun l => { l with prev := v }) fun _ => rfl

theorem links_same {f : Channel D → Channel D} (hn : ∀ c, (f c).next = c.next)
    (hp : ∀ c, (f c).prev = c.prev) : (m.modify a f).links = m.links := by
  rw [links_modify (g := id) fun c => by rw [hn, hp]; rfl]
  funext b
  rw [Option.map_id]
  exact ite_self _

theorem links_update (b : ℕ) (c : Option (Channel D)) :
    links (Function.update m b c) =
      Function.update m.links b (c.map fun c => ⟨c.next, c.prev⟩) := by
  funext x
  unfold links
  by_cases hx : x = b
  · subst hx
    rw [Function.update_self, Function.update_self]
  · rw [Function.update_of_ne hx, Function.update_of_ne hx]

end Chans

namespace Faded

variable {m m' m'' : Chans D}

theorem refl (m : Chans D) : Faded m m := fun _ => rfl

theorem trans (h : Faded m m') (h' : Faded m' m'') : Faded m m'' := fun a => (h' a).trans (h a)

theorem links_eq (h : Faded m m') : m'.links = m.links := by
  funext a
  have := congrArg
    (Option.map fun x : ℕ × D × Option ℕ × Option ℕ => (⟨x.2.2.1, x.2.2.2⟩ : Links ℕ)) (h a)
  rw [Option.map_map, Option.map_map] at this
  exact this

theorem kept (h : Faded m m') : Kept m m' := by
  intro a
  have := congrArg (Option.map fun x : ℕ × D × Option ℕ × Option ℕ => (x.1, x.2.1)) (h a)
  rw [Option.map_map, Option.map_map] at this
  exact this

theorem modify (m : Chans D) (a : Option ℕ) (x : D) :
    Faded m (m.modify a fun c => { c with fading := x }) := by
  intro b
  unfold Chans.modify
  split_ifs
  · rw [Option.map_map]
    rfl
  · rfl

end Faded

namespace Kept

variable {m m' m'' : Chans D}

theorem trans (h : Kept m m') (h' : Kept m' m'') : Kept m m'' := fun a => (h' a).trans (h a)

theorem isSome_eq (h : Kept m m') (a : ℕ) : (m' a).isSome = (m a).isSome := by
  rw [← Option.isSome_map (f := fun c : Channel D => (c.channelId, c.power)), h a,
    Option.isSome_map]

theorem some (h : Kept m m') {a : ℕ} {c : Channel D} (hc : m a = some c) :
    ∃ c', m' a = Option.some c' ∧ c'.channelId = c.channelId ∧ c'.power = c.power := by
  have hm := h a
  rw [hc, Option.map_some, Option.map_eq_some_iff] at hm
  obtain ⟨c', hc', heq⟩ := hm
  exact ⟨c', hc', congrArg Prod.fst heq, congrArg Prod.snd heq⟩

theorem modify (m : Chans D) (a : Option ℕ) {f : Channel D → Channel D}
    (hid : ∀ c, (f c).channelId = c.channelId) (hpow : ∀ c, (f c).power = c.power) :
    Kept m (m.modify a f) := by
  intro b
  unfold Chans.modify
  split_ifs
  · rw [Option.map_map]
    refine congrArg (Option.map · (m b)) (funext fun c => ?_)
    exact Prod.ext (hid c) (hpow c)
  · rfl

end Kept

/-! ## The loops -/

theorem expent_spec {mean : D} (hF : N.lt mean (N.ofInt 0) → F .negativeMean) (r : R) :
    Ends F (expent N mean r) fun _ => True := by
  unfold expent
  split_ifs with hneg
  · exact .error (hF hneg)
  · exact .ok trivial

/-- A loop over the list reads an allocated node, whose `prev` link leads to the rest. -/
theorem Chans.exists_of_cons {m : Chans D} {fuel x : ℕ} {xs : List ℕ} {back head : Option ℕ}
    (h : Doubly m.links back head (x :: xs)) (hfuel : (x :: xs).length ≤ fuel) :
    ∃ k c, fuel = k + 1 ∧ head = some x ∧ m x = some c ∧ Doubly m.links (some x) c.prev xs ∧
      xs.length ≤ k := by
  obtain ⟨rfl, prev, hx, hrest⟩ := h
  obtain ⟨c, hc, hlinks⟩ := Option.map_eq_some_iff.mp hx
  obtain rfl : c.prev = prev := congrArg Links.prev hlinks
  rw [List.length_cons] at hfuel
  obtain ⟨k, rfl⟩ := Nat.exists_eq_add_of_le' (show 1 ≤ fuel by omega)
  exact ⟨k, c, rfl, rfl, hc, hrest, by omega⟩

/-- The loop of `fading_recheck` ends and changes only the fading. -/
theorem fadingLoop_spec (hF : N.lt (N.ofInt 1) (N.ofInt 0) → F .negativeMean) {xs : List ℕ} :
    ∀ {fuel : ℕ} {back head : Option ℕ} {m : Chans D} {r : R}, Doubly m.links back head xs →
      xs.length ≤ fuel →
      Ends F (fadingLoop N fuel head (m, r)) fun st => Faded m st.1 := by
  induction xs with
  | nil =>
    intro fuel back head m r h _
    obtain rfl : head = none := h
    cases fuel <;> exact .ok (.refl m)
  | cons x xs ih =>
    intro fuel back head m r h hfuel
    obtain ⟨k, c, rfl, rfl, hc, hrest, hk⟩ := Chans.exists_of_cons h hfuel
    rw [fadingLoop, hc]
    refine (expent_spec hF r).bind fun fading _ => ?_
    have hfaded := Faded.modify m (some x) fading.1
    rw [← hfaded.links_eq] at hrest
    exact (ih hrest hk).mono fun st hst => hfaded.trans hst

/-- The loop of `allocation` over the channels in use ends and changes only the fading. -/
theorem interference_spec (hF : N.lt (N.ofInt 1) (N.ofInt 0) → F .negativeMean) {xs : List ℕ} :
    ∀ {fuel : ℕ} {back head : Option ℕ} {m : Chans D} {summ : D} {r : R},
      Doubly m.links back head xs → xs.length ≤ fuel →
      Ends F (interference N fuel head (m, summ, r)) fun st => Faded m st.1 := by
  induction xs with
  | nil =>
    intro fuel back head m summ r h _
    obtain rfl : head = none := h
    cases fuel <;> exact .ok (.refl m)
  | cons x xs ih =>
    intro fuel back head m summ r h hfuel
    obtain ⟨k, c, rfl, rfl, hc, hrest, hk⟩ := Chans.exists_of_cons h hfuel
    rw [interference, hc]
    refine (expent_spec hF r).bind fun fading _ => ?_
    have hfaded := Faded.modify m (some x) fading.1
    rw [← hfaded.links_eq] at hrest
    exact (ih hrest hk).mono fun st hst => hfaded.trans hst

/-! ## Busy channels -/

/-- The comparisons are those of an order in which `MIN_POWER` is at most `MAX_POWER`. -/
structure Numerics.Ordered (N : Numerics D R) : Prop where
  linear : N.toArith.Linear
  power : N.le (N.ofInt 3) (N.ofInt 3000)

/-- The power of a channel is within its bounds. -/
def Numerics.InRange (N : Numerics D R) (power : D) : Prop :=
  N.Ordered → N.le (N.ofInt 3) power ∧ N.le power (N.ofInt 3000)

/-- The nodes and ids `l` are the busy channels of the cell, the one taken last first. -/
structure Lp.Busy (N : Numerics D R) (s : Lp D) (l : List (ℕ × ℕ)) : Prop where
  linked : Doubly (Chans.links s.chan) none s.channels (l.map Prod.fst)
  node : ∀ x ∈ l, ∃ c, s.chan x.1 = some c ∧ c.channelId = x.2 ∧ N.InRange c.power
  fresh : ∀ a, (s.chan a).isSome → a < s.brk
  distinct : (l.map Prod.snd).Nodup
  bits : ∀ i, i < s.channelsPerCell → (Bitmap.test s.channelState i ↔ i ∈ l.map Prod.snd)
  bound : ∀ x ∈ l, x.2 < s.channelsPerCell

/-- Only the channels of the cell have changed. -/
def Lp.OnlyChannels (s s' : Lp D) : Prop :=
  s' = { s with
    channelState := s'.channelState
    channels := s'.channels
    chan := s'.chan
    brk := s'.brk }

theorem Lp.OnlyChannels.trans {s s' s'' : Lp D} (h : s.OnlyChannels s') (h' : s'.OnlyChannels s'') :
    s.OnlyChannels s'' := by
  unfold OnlyChannels at h h' ⊢
  rw [h', h]

theorem clip_inRange (power : D) : N.InRange (clip N power) := by
  intro hN
  have htotal : N.le (N.ofInt 3000) (N.ofInt 3000) := by
    simpa using hN.linear.total (N.ofInt 3000) (N.ofInt 3000)
  have hbelow : ∀ a b, ¬ N.lt a b → N.le b a := by
    intro a b hlt
    rw [hN.linear.lt_iff] at hlt
    simpa using hlt
  unfold clip
  dsimp only
  split_ifs with hmin hmax hmax
  · exact ⟨hN.power, htotal⟩
  · exact ⟨by simpa using hN.linear.total (N.ofInt 3) (N.ofInt 3), hN.power⟩
  · exact ⟨hN.power, htotal⟩
  · exact ⟨hbelow _ _ hmin, hbelow _ _ hmax⟩

theorem newPower_spec (hF : N.lt (N.ofInt 1) (N.ofInt 0) → F .negativeMean) (summ : D) (r : R) :
    Ends F (newPower N summ r) fun p => N.InRange p.2.1 := by
  unfold newPower
  split_ifs
  · refine .ok fun hN => ⟨?_, hN.power⟩
    simpa using hN.linear.total (N.ofInt 3) (N.ofInt 3)
  · refine (expent_spec hF r).bind fun fading _ => ?_
    exact .pure (clip_inRange _)

namespace Lp.Busy

variable {s : Lp D} {l : List (ℕ × ℕ)}

/-- The busy channels are different nodes. -/
theorem nodup (h : s.Busy N l) : (l.map Prod.fst).Nodup := by
  refine List.Nodup.map_on ?_ (List.Nodup.of_map _ h.distinct)
  intro x hx y hy hxy
  obtain ⟨c, hc, hid, -⟩ := h.node x hx
  obtain ⟨c', hc', hid', -⟩ := h.node y hy
  rw [hxy, hc', Option.some.injEq] at hc
  exact Prod.ext hxy (by rw [← hid, ← hid', hc])

theorem lt_brk (h : s.Busy N l) {a : ℕ} (ha : a ∈ l.map Prod.fst) : a < s.brk := by
  obtain ⟨x, hx, rfl⟩ := List.mem_map.mp ha
  obtain ⟨c, hc, -⟩ := h.node x hx
  exact h.fresh _ (by rw [hc]; rfl)

/-- The loops over the list have enough fuel. -/
theorem length_le (h : s.Busy N l) : (l.map Prod.fst).length ≤ s.brk := by
  rw [← List.toFinset_card_of_nodup h.nodup, ← Finset.card_range s.brk]
  exact Finset.card_le_card fun a ha =>
    Finset.mem_range.mpr (h.lt_brk (List.mem_toFinset.mp ha))

theorem faded (h : s.Busy N l) {m : Chans D} (hm : Faded s.chan m) :
    ({ s with chan := m } : Lp D).Busy N l where
  linked := by
    rw [hm.links_eq]
    exact h.linked
  node x hx := by
    obtain ⟨c, hc, hid, hpow⟩ := h.node x hx
    obtain ⟨c', hc', hid', hpow'⟩ := hm.kept.some hc
    exact ⟨c', hc', hid'.trans hid, hpow' ▸ hpow⟩
  fresh a ha := h.fresh a (by rw [← hm.kept.isSome_eq a]; exact ha)
  distinct := h.distinct
  bits := h.bits
  bound := h.bound

theorem recheck (h : s.Busy N l) (hF : N.lt (N.ofInt 1) (N.ofInt 0) → F .negativeMean) (r : R) :
    Ends F (fadingRecheck N s r) fun st => st.1.Busy N l ∧ s.OnlyChannels st.1 := by
  unfold fadingRecheck
  refine (fadingLoop_spec hF h.linked h.length_le).bind fun st hst => ?_
  exact .pure ⟨h.faded hst, rfl⟩

/-! ## Allocation -/

theorem freeChannel_eq_some (h : s.Busy N l) {i : ℕ} (hi : freeChannel s = some i) :
    i < s.channelsPerCell ∧ i ∉ l.map Prod.snd ∧ ∀ j, j < i → j ∈ l.map Prod.snd := by
  obtain ⟨hfree, hlt, hleast⟩ := List.find?_range_eq_some.mp hi
  have hlt := List.mem_range.mp hlt
  refine ⟨hlt, fun hin => ?_, fun j hj => ?_⟩
  · rw [(h.bits i hlt).mpr hin] at hfree
    cases hfree
  · have := hleast j hj
    rw [Bool.not_not] at this
    exact (h.bits j (by omega)).mp this

theorem freeChannel_eq_none (h : s.Busy N l) (hi : freeChannel s = none) :
    ∀ i, i < s.channelsPerCell → i ∈ l.map Prod.snd := by
  intro i hlt
  have := List.find?_range_eq_none.mp hi i hlt
  rw [Bool.not_not] at this
  exact (h.bits i hlt).mp this

/-- A new node `s.brk` for the free channel `i` is in front of the list, with its bit set. -/
theorem added (h : s.Busy N l) {i : ℕ} (hi : freeChannel s = some i) {m : Chans D}
    (hlinked : Doubly m.links none (some s.brk) (s.brk :: l.map Prod.fst)) {node : Channel D}
    (hnode : node.channelId = i) (hm : Kept (Function.update s.chan s.brk (some node)) m)
    (fading : D) {power : D} (hpower : N.InRange power) :
    ({ s with
      channelState := Bitmap.set s.channelState i
      channels := some s.brk
      chan := Chans.modify m (some s.brk) fun ch => { ch with fading := fading, power := power }
      brk := s.brk + 1 } : Lp D).Busy N ((s.brk, i) :: l) := by
  obtain ⟨hlt, hnot, -⟩ := h.freeChannel_eq_some hi
  have hnew : ∀ x ∈ l, x.1 ≠ s.brk := fun x hx heq =>
    lt_irrefl _ (heq ▸ h.lt_brk (List.mem_map_of_mem hx))
  constructor
  · have hlinks := Chans.links_same (m := m) (a := some s.brk)
      (f := fun ch => { ch with fading := fading, power := power }) (fun _ => rfl) fun _ => rfl
    exact hlinks.symm ▸ hlinked
  · intro x hx
    obtain rfl | hx := List.mem_cons.mp hx
    · obtain ⟨c, hc, hid, -⟩ := hm.some (Function.update_self ..)
      refine ⟨{ c with fading := fading, power := power }, ?_, hid.trans hnode, hpower⟩
      show (if _ then _ else _) = _
      rw [if_pos rfl, hc]
      rfl
    · obtain ⟨c, hc, hid, hpow⟩ := h.node x hx
      obtain ⟨c', hc', hid', hpow'⟩ := hm.some ((Function.update_of_ne (hnew x hx) ..).trans hc)
      refine ⟨c', ?_, hid'.trans hid, hpow' ▸ hpow⟩
      show (if _ then _ else _) = _
      rw [if_neg fun heq => hnew x hx (Option.some.inj heq).symm, hc']
  · intro a ha
    have ha' : (Function.update s.chan s.brk (some node) a).isSome := by
      rw [← hm.isSome_eq a]
      revert ha
      show ((if _ then _ else _ : Option (Channel D)).isSome : Prop) → _
      split_ifs
      · rw [Option.isSome_map]
        exact id
      · exact id
    show a < s.brk + 1
    by_cases heq : a = s.brk
    · omega
    · rw [Function.update_of_ne heq] at ha'
      have := h.fresh a ha'
      omega
  · rw [List.map_cons]
    exact List.nodup_cons.mpr ⟨hnot, h.distinct⟩
  · intro j hj
    rw [Bitmap.test_set (by omega), List.map_cons, List.mem_cons, Bool.or_eq_true,
      decide_eq_true_eq]
    exact or_congr_right (h.bits j hj)
  · intro x hx
    obtain rfl | hx := List.mem_cons.mp hx
    · exact hlt
    · exact h.bound x hx

/-- `allocation` takes the least free channel. -/
theorem allocation_spec (h : s.Busy N l) (hF : N.lt (N.ofInt 1) (N.ofInt 0) → F .negativeMean)
    (r : R) {i : ℕ} (hi : freeChannel s = some i) :
    Ends F (allocation N s r) fun st =>
      st.1 = i ∧ st.2.1.Busy N ((s.brk, i) :: l) ∧ s.OnlyChannels st.2.1 := by
  have hnew : s.brk ∉ l.map Prod.fst := fun hin => lt_irrefl _ (h.lt_brk hin)
  unfold allocation
  rw [hi]
  dsimp only
  set node : Channel D :=
    { channelId := i, fading := N.raw, power := N.raw, next := none, prev := s.channels }
  set m := Chans.modify (Function.update s.chan s.brk (some node)) s.channels
    fun ch => { ch with next := some s.brk } with hm
  have hlinked : Doubly (Chans.links m) none (some s.brk) (s.brk :: l.map Prod.fst) := by
    rw [hm, Chans.links_next, Chans.links_update]
    exact h.linked.push h.nodup hnew
  have htail : Doubly (Chans.links m) (some s.brk) s.channels (l.map Prod.fst) := by
    obtain ⟨-, prev, hprev, hrest⟩ := hlinked
    rwa [hrest.head_eq.trans h.linked.head_eq.symm] at hrest
  have hkept : Kept (Function.update s.chan s.brk (some node)) m :=
    .modify _ _ (fun _ => rfl) fun _ => rfl
  refine (interference_spec hF htail (h.length_le.trans (Nat.le_succ _))).bind fun st hst => ?_
  refine (newPower_spec hF _ _).bind fun p hp => ?_
  rw [← hst.links_eq] at hlinked
  have hbusy := h.added hi hlinked rfl (hkept.trans hst.kept) p.1 hp
  refine (hbusy.recheck hF _).bind fun st' hst' => .pure ⟨rfl, hst'.1, ?_⟩
  exact Lp.OnlyChannels.trans (by rfl) hst'.2

/-! ## Deallocation -/

/-- Whether the node at `a` is the channel `ch`. -/
theorem any_iff (h : s.Busy N l) {x : ℕ × ℕ} (hx : x ∈ l) (ch : ℤ) :
    ((s.chan x.1).any fun c => decide ((c.channelId : ℤ) = ch)) ↔ (x.2 : ℤ) = ch := by
  obtain ⟨c, hc, hid, -⟩ := h.node x hx
  rw [hc, Option.any_some, decide_eq_true_eq, hid]

theorem findChannel_eq (h : s.Busy N l) (ch : ℤ) :
    findChannel s.chan ch s.brk s.channels =
      .ok ((l.map Prod.fst).find? fun a =>
        (s.chan a).any fun c => decide ((c.channelId : ℤ) = ch)) := by
  unfold findChannel
  rw [h.linked.seek_eq _ h.length_le]

/-- A channel that is not busy is not found. -/
theorem deallocation_eq_error (h : s.Busy N l) (r : R) {ch : ℤ} (hch : ∀ x ∈ l, (x.2 : ℤ) ≠ ch) :
    deallocation N s ch r = .error .unableToDeallocate := by
  have hnone : ((l.map Prod.fst).find? fun a =>
      (s.chan a).any fun c => decide ((c.channelId : ℤ) = ch)) = none := by
    rw [List.find?_eq_none]
    intro a ha
    obtain ⟨x, hx, rfl⟩ := List.mem_map.mp ha
    exact fun hany => hch x hx ((h.any_iff hx ch).mp hany)
  unfold deallocation
  rw [h.findChannel_eq, hnone]
  rfl

/-- The list without the channel `i`, which `deallocation` finds. -/
theorem exists_split (h : s.Busy N l) {i : ℕ} (hi : i ∈ l.map Prod.snd) :
    ∃ xs a ys, l = xs ++ (a, i) :: ys ∧ findChannel s.chan i s.brk s.channels = .ok (some a) := by
  obtain ⟨x, hx, rfl⟩ := List.mem_map.mp hi
  obtain ⟨xs, ys, rfl⟩ := List.append_of_mem hx
  refine ⟨xs, x.1, ys, rfl, ?_⟩
  rw [h.findChannel_eq, Except.ok.injEq, List.find?_eq_some_iff_append]
  refine ⟨(h.any_iff hx _).mpr rfl, xs.map Prod.fst, ys.map Prod.fst, by simp, ?_⟩
  intro a ha
  obtain ⟨y, hy, rfl⟩ := List.mem_map.mp ha
  rw [Bool.not_eq_true', ← Bool.not_eq_true]
  intro hany
  have hid := (h.any_iff (List.mem_append_left _ hy) _).mp hany
  have hdistinct := h.distinct
  rw [List.map_append, List.map_cons, List.nodup_append] at hdistinct
  exact hdistinct.2.2 y.2 (List.mem_map_of_mem hy) x.2 List.mem_cons_self (by omega)

/-- The two neighbours of a node of the list are linked, and nothing else has changed. -/
theorem unlinkNode_spec {xs ys : List (ℕ × ℕ)} {a i : ℕ} {c : Channel D}
    (h : s.Busy N (xs ++ (a, i) :: ys)) (hc : s.chan a = some c) :
    Doubly (Chans.links (unlinkNode s a c).chan) none (unlinkNode s a c).channels
      ((xs ++ ys).map Prod.fst) ∧
    Kept s.chan (unlinkNode s a c).chan ∧
    unlinkNode s a c =
      { s with channels := (unlinkNode s a c).channels, chan := (unlinkNode s a c).chan } := by
  have hnd := h.nodup
  have hlinked := h.linked
  rw [List.map_append, List.map_cons] at hnd hlinked
  obtain ⟨next, prev, ha, hnext, -, hnew⟩ := hlinked.unlink hnd (by rintro b ⟨⟩)
  obtain ⟨c', hc', hlinks⟩ := Option.map_eq_some_iff.mp ha
  obtain rfl : c = c' := Option.some.inj (hc.symm.trans hc')
  obtain rfl : c.next = next := congrArg Links.next hlinks
  obtain rfl : c.prev = prev := congrArg Links.prev hlinks
  have hhead : s.channels = some a ↔ xs = [] := by
    rw [hlinked.head_eq]
    constructor
    · intro heq
      cases xs with
      | nil => rfl
      | cons x xs =>
        rw [List.map_cons, List.cons_append, List.head?_cons, Option.some.injEq] at heq
        rw [List.map_cons, List.cons_append] at hnd
        exact absurd (by rw [heq]; simp) (List.nodup_cons.mp hnd).1
    · rintro rfl
      rfl
  rw [List.map_append]
  unfold unlinkNode
  by_cases hxs : xs = []
  · subst hxs
    rw [if_pos (hhead.mpr rfl)]
    have hnone : c.next = none := hnext
    rw [hnone] at hnew
    refine ⟨?_, .modify _ _ (fun _ => rfl) fun _ => rfl, rfl⟩
    show Doubly (Chans.links (Chans.modify s.chan c.prev _)) none c.prev _
    rw [Chans.links_next]
    exact hnew
  · rw [if_neg fun heq => hxs (hhead.mp heq)]
    refine ⟨?_, ?_, rfl⟩
    · show Doubly (Chans.links (Chans.modify (Chans.modify s.chan c.next _) c.prev _)) _ _ _
      rw [Chans.links_next, Chans.links_prev]
      rwa [if_neg (by simpa using hxs)] at hnew
    · have hprev := Kept.modify s.chan c.next (f := fun ch => { ch with prev := c.prev })
        (fun _ => rfl) fun _ => rfl
      exact hprev.trans (.modify _ _ (fun _ => rfl) fun _ => rfl)

/-- The node `a` of the channel `i` is out of the list and freed, with its bit reset. -/
theorem removed {xs ys : List (ℕ × ℕ)} {a i : ℕ} (h : s.Busy N (xs ++ (a, i) :: ys)) {s' : Lp D}
    (hlinked : Doubly (Chans.links s'.chan) none s'.channels ((xs ++ ys).map Prod.fst))
    (hkept : Kept s.chan s'.chan) (hs' : s' = { s with channels := s'.channels, chan := s'.chan }) :
    ({ s' with
      channelState := Bitmap.reset s'.channelState i
      chan := Function.update s'.chan a none } : Lp D).Busy N (xs ++ ys) := by
  have hdistinct := h.distinct
  have hnd := h.nodup
  rw [List.map_append, List.map_cons, List.nodup_middle, List.nodup_cons, ← List.map_append]
    at hdistinct hnd
  have ha : ∀ x ∈ xs ++ ys, x.1 ≠ a := fun x hx heq =>
    hnd.1 (show a ∈ _ from heq ▸ List.mem_map_of_mem hx)
  have hsub : ∀ x ∈ xs ++ ys, x ∈ xs ++ (a, i) :: ys := by
    intro x hx
    rw [List.mem_append, List.mem_cons]
    exact (List.mem_append.mp hx).imp_right .inr
  have hstate : s'.channelState = s.channelState := (congrArg Lp.channelState hs').trans rfl
  have hcells : s'.channelsPerCell = s.channelsPerCell :=
    (congrArg Lp.channelsPerCell hs').trans rfl
  have hbrk : s'.brk = s.brk := (congrArg Lp.brk hs').trans rfl
  constructor
  · show Doubly (Chans.links (Function.update s'.chan a none)) none s'.channels _
    rw [Chans.links_update]
    refine hlinked.congr fun b hb => Function.update_of_ne ?_ _ _
    obtain ⟨x, hx, rfl⟩ := List.mem_map.mp hb
    exact ha x hx
  · intro x hx
    obtain ⟨d, hd, hid, hpow⟩ := h.node x (hsub x hx)
    obtain ⟨d', hd', hid', hpow'⟩ := hkept.some hd
    exact ⟨d', (Function.update_of_ne (ha x hx) ..).trans hd', hid'.trans hid, hpow' ▸ hpow⟩
  · intro b hb
    show b < s'.brk
    have hb' : (Function.update s'.chan a none b).isSome := hb
    by_cases heq : b = a
    · rw [heq, Function.update_self] at hb'
      cases hb'
    · rw [Function.update_of_ne heq, hkept.isSome_eq] at hb'
      exact hbrk ▸ h.fresh b hb'
  · exact hdistinct.2
  · intro j hj
    show Bitmap.test (Bitmap.reset s'.channelState i) j ↔ _
    rw [hstate, Bitmap.test_reset (by omega), Bool.and_eq_true, Bool.not_eq_true',
      decide_eq_false_iff_not, h.bits j (hcells ▸ hj), List.map_append, List.map_cons,
      List.perm_middle.mem_iff, List.mem_cons, ← List.map_append]
    constructor
    · rintro ⟨hne, hin⟩
      exact hin.resolve_left hne
    · intro hin
      exact ⟨fun heq => hdistinct.1 (heq ▸ hin), .inr hin⟩
  · intro x hx
    show x.2 < s'.channelsPerCell
    exact hcells ▸ h.bound x (hsub x hx)

/-- `deallocation` takes the channel out of the list. -/
theorem deallocation_spec (h : s.Busy N l) (hF : N.lt (N.ofInt 1) (N.ofInt 0) → F .negativeMean)
    (r : R) {i : ℕ} (hi : i ∈ l.map Prod.snd) :
    Ends F (deallocation N s i r) fun st =>
      (∃ a l', l.Perm ((a, i) :: l') ∧ st.1.Busy N l') ∧ s.OnlyChannels st.1 := by
  obtain ⟨xs, a, ys, rfl, hfind⟩ := h.exists_split hi
  obtain ⟨c, hc, -⟩ := h.node (a, i) (by simp)
  obtain ⟨hlinked, hkept, hs'⟩ := h.unlinkNode_spec hc
  have hbusy := h.removed hlinked hkept hs'
  unfold deallocation
  rw [hfind]
  refine Ends.bind (Q := fun found => found = some a) rfl ?_
  rintro found rfl
  dsimp only
  rw [hc]
  dsimp only
  rw [Int.toNat_natCast]
  refine (hbusy.recheck hF r).mono fun st hst => ?_
  refine ⟨⟨a, xs ++ ys, List.perm_middle, hst.1⟩, Lp.OnlyChannels.trans ?_ hst.2⟩
  unfold Lp.OnlyChannels
  rw [hs']

end Lp.Busy

/-! ## Runs -/

/-- What a caller sees of a call on the channels. -/
inductive ChannelCall
  | allocation (channel : ℕ)
  | deallocation (channel : ℤ)
deriving DecidableEq

/-- A call that returns, on a cell and the generator of the random numbers. -/
def ChannelStep (N : Numerics D R) (st : Lp D × R) : ChannelCall → Lp D × R → Prop
  | .allocation ch, st' => allocation N st.1 st.2 = .ok (ch, st')
  | .deallocation ch, st' => deallocation N st.1 ch st.2 = .ok st'

/-- A set of busy ids below `n`: the least free one is taken, and a busy one is given back. -/
def IdStep (n : ℕ) (b : Finset ℕ) : ChannelCall → Finset ℕ → Prop
  | .allocation ch, b' => ch < n ∧ ch ∉ b ∧ (∀ j, j < ch → j ∈ b) ∧ b' = insert ch b
  | .deallocation ch, b' => ∃ i ∈ b, ch = (i : ℤ) ∧ b' = b.erase i

namespace Lp.Busy

variable {s : Lp D} {l : List (ℕ × ℕ)}

/-- The ids of a list of channels. -/
def ids (l : List (ℕ × ℕ)) : Finset ℕ := (l.map Prod.snd).toFinset

theorem mem_ids {i : ℕ} : i ∈ ids l ↔ i ∈ l.map Prod.snd := List.mem_toFinset

/-- A list of channels from which one has been taken. -/
theorem ids_erase {a i : ℕ} {l' : List (ℕ × ℕ)} (hl : l.Perm ((a, i) :: l'))
    (hd : (l.map Prod.snd).Nodup) : ids l' = (ids l).erase i := by
  have hperm : (l.map Prod.snd).Perm (i :: l'.map Prod.snd) := hl.map Prod.snd
  obtain ⟨hnot, -⟩ := List.nodup_cons.mp (hperm.nodup_iff.mp hd)
  ext j
  rw [Finset.mem_erase, mem_ids, mem_ids, hperm.mem_iff, List.mem_cons]
  constructor
  · intro hj
    exact ⟨fun h => hnot (h ▸ hj), .inr hj⟩
  · rintro ⟨hne, rfl | hj⟩
    · exact absurd rfl hne
    · exact hj

/-- `allocation` does to the ids what it does to a set of ids, and fails if all are busy. -/
theorem allocation_ids (h : s.Busy N l) (hF : N.lt (N.ofInt 1) (N.ofInt 0) → F .negativeMean)
    (r : R) :
    if ids l = Finset.range s.channelsPerCell then
      allocation N s r = .error .unableToAllocate
    else
      Ends F (allocation N s r) fun st =>
        ∃ l', st.2.1.Busy N l' ∧ s.OnlyChannels st.2.1 ∧
          IdStep s.channelsPerCell (ids l) (.allocation st.1) (ids l') := by
  cases hi : freeChannel s with
  | none =>
    rw [if_pos]
    · unfold allocation
      rw [hi]
    · ext i
      rw [Finset.mem_range, mem_ids]
      constructor
      · intro hin
        obtain ⟨x, hx, rfl⟩ := List.mem_map.mp hin
        exact h.bound x hx
      · exact h.freeChannel_eq_none hi i
  | some i =>
    obtain ⟨hlt, hnot, hleast⟩ := h.freeChannel_eq_some hi
    rw [if_neg]
    · refine (h.allocation_spec hF r hi).mono ?_
      rintro ⟨j, s', r'⟩ ⟨rfl, hbusy, honly⟩
      refine ⟨_, hbusy, honly, hlt, ?_, fun k hk => mem_ids.mpr (hleast k hk), ?_⟩
      · exact fun hin => hnot (mem_ids.mp hin)
      · unfold ids
        rw [List.map_cons, List.toFinset_cons]
    · intro heq
      exact hnot (mem_ids.mp (heq ▸ Finset.mem_range.mpr hlt))

/-- `deallocation` does to the ids what it does to a set of ids, and fails on a free channel. -/
theorem deallocation_ids (h : s.Busy N l) (hF : N.lt (N.ofInt 1) (N.ofInt 0) → F .negativeMean)
    (r : R) (ch : ℤ) :
    if ∃ i ∈ ids l, ch = (i : ℤ) then
      Ends F (deallocation N s ch r) fun st =>
        ∃ l', st.1.Busy N l' ∧ s.OnlyChannels st.1 ∧
          IdStep s.channelsPerCell (ids l) (.deallocation ch) (ids l')
    else deallocation N s ch r = .error .unableToDeallocate := by
  split_ifs with hbusy
  · obtain ⟨i, hi, rfl⟩ := hbusy
    refine (h.deallocation_spec hF r (mem_ids.mp hi)).mono ?_
    rintro ⟨s', r'⟩ ⟨⟨a, l', hl, hbusy'⟩, honly⟩
    exact ⟨l', hbusy', honly, i, hi, rfl, ids_erase hl h.distinct⟩
  · refine h.deallocation_eq_error r fun x hx heq => hbusy ⟨x.2, ?_, heq.symm⟩
    exact mem_ids.mpr (List.mem_map_of_mem hx)

/-- A call that returns keeps the channels and does to the ids what it does to a set. -/
theorem step {st : Lp D × R} {ev : ChannelCall} (h : s.Busy N l) {r : R}
    (hs : ChannelStep N (s, r) ev st) :
    ∃ l', st.1.Busy N l' ∧ s.OnlyChannels st.1 ∧ IdStep s.channelsPerCell (ids l) ev (ids l') := by
  cases ev with
  | allocation ch =>
    have hs : allocation N s r = .ok (ch, st) := hs
    have hids := h.allocation_ids (F := fun _ => True) (fun _ => trivial) r
    split_ifs at hids with hfull
    · rw [hs] at hids
      cases hids
    · exact hids.value hs
  | deallocation ch =>
    have hs : deallocation N s ch r = .ok st := hs
    have hids := h.deallocation_ids (F := fun _ => True) (fun _ => trivial) r ch
    split_ifs at hids with hbusy
    · exact hids.value hs
    · rw [hs] at hids
      cases hids

/-- No channel of a new cell is busy. -/
theorem newState (N : Numerics D R) : (newState N).Busy N [] where
  linked := rfl
  node x hx := absurd hx List.not_mem_nil
  fresh a ha := by cases ha
  distinct := List.nodup_nil
  bits i hi := by
    have hword : i / 32 < CHANNELS_PER_CELL / 32 + 1 :=
      Nat.lt_succ_of_le (Nat.div_le_div_right (le_of_lt hi))
    have hzero : Bitmap.test (Benchmark.newState N).channelState i = false := by
      rw [Bitmap.test_eq (by omega)]
      show (if _ then _ else _ : BitVec 32).getLsbD _ = false
      rw [if_pos hword]
      exact BitVec.getLsbD_zero
    rw [hzero]
    simp
  bound x hx := absurd hx List.not_mem_nil

end Lp.Busy

end AosvFibers.Benchmark
