import AosvFibers.Benchmark.Cell

/-!
# The loop of a fiber

What a fiber of the benchmark does to its cell, over all rounds of its loop (`main_loop` in
`src/benchmark/2018-fibers/src/main.c`). `Running` is the invariant between two rounds: the events
in the queue are the start of the next call and the end of the call on each busy channel.

Main result: `main_loop_refines`, whatever the arithmetic and the random numbers, the loop does what
a set of busy channels and three counters do, and fails only on a negative mean or a negative bucket
number.
-/

namespace AosvFibers.Benchmark

open Lib

variable {D R : Type}

/-! ## The calls of a cell -/

/-- The busy channels of a cell, and how many calls arrived, were completed and were blocked. -/
structure Calls where
  busy : Finset ℕ
  arriving : BitVec 32
  complete : BitVec 32
  blocked : BitVec 32

/-- What happens to a call: it starts on a channel, or on none, or ends on a channel. -/
inductive CallEvent
  | start (channel : Option ℕ)
  | finish (channel : ℕ)
deriving DecidableEq

/-- A call starts on the least free channel, and is blocked only if there is none. -/
def CallStep (c : Calls) : CallEvent → Calls → Prop
  | .start none, c' => c.busy = Finset.range CHANNELS_PER_CELL ∧
      c' = { c with arriving := c.arriving + 1, blocked := c.blocked + 1 }
  | .start (some ch), c' => IdStep CHANNELS_PER_CELL c.busy (.allocation ch) c'.busy ∧
      c' = { c with busy := c'.busy, arriving := c.arriving + 1 }
  | .finish ch, c' => IdStep CHANNELS_PER_CELL c.busy (.deallocation ch) c'.busy ∧
      c' = { c with busy := c'.busy, complete := c.complete + 1 }

/-- Every call that arrived is completed, blocked or on a channel. -/
def Calls.Balanced (c : Calls) : Prop :=
  c.arriving = c.complete + c.blocked + BitVec.ofNat 32 c.busy.card

theorem Calls.Balanced.step {c c' : Calls} {ev : CallEvent} (h : c.Balanced)
    (hs : CallStep c ev c') : c'.Balanced := by
  unfold Calls.Balanced at h ⊢
  cases ev with
  | start channel =>
    cases channel with
    | none =>
      obtain ⟨-, hc⟩ := hs
      rw [hc]
      dsimp only
      rw [h]
      grind
    | some ch =>
      obtain ⟨⟨-, hnot, -, hbusy⟩, hc⟩ := hs
      rw [hc]
      dsimp only
      rw [hbusy, Finset.card_insert_of_notMem hnot, h, BitVec.ofNat_add]
      grind
  | finish ch =>
    obtain ⟨⟨i, hi, -, hbusy⟩, hc⟩ := hs
    have hcard := Finset.card_erase_add_one hi
    rw [hc]
    dsimp only
    rw [hbusy, h, ← hcard, BitVec.ofNat_add]
    grind

variable {N : Numerics D R}

/-- The failures that depend on the arithmetic. -/
def Crash.OfArith (e : Crash) : Prop := e = .negativeMean ∨ e = .queue .negativeBucket

/-- A call of the queue fails only with a negative bucket number. -/
theorem onQueue_spec {β : Type} {x : Except Fault β} {P : β → Prop}
    (h : Ends (fun f => f = .negativeBucket) x P) : Ends Crash.OfArith (onQueue x) P := by
  cases x with
  | ok a => exact h
  | error f => exact .inr (congrArg Crash.queue h)

theorem expent_ends (mean : D) (r : R) : Ends Crash.OfArith (expent N mean r) fun _ => True :=
  expent_spec (fun _ => .inl rfl) r

/-! ## The events in the queue -/

/-- An event without its time. -/
def Msg.key (m : Msg D) : ℤ × ℤ × BitVec 32 × BitVec 32 := (m.type, m.channel, m.sender, m.receiver)

/-- The end of the call on the channel `ch`. -/
def endKey (id : BitVec 32) (ch : ℕ) : ℤ × ℤ × BitVec 32 × BitVec 32 := (END_CALL, ch, id, id)

/-- The start of the next call, and the end of the call on each of the channels `ids`. -/
def pending (id : BitVec 32) (ids : Finset ℕ) : Multiset (ℤ × ℤ × BitVec 32 × BitVec 32) :=
  (START_CALL, -1, id, id) ::ₘ ids.val.map (endKey id)

/-- The nodes of a queue are the pending events, each with its time as its priority. -/
structure Scheduled (id : BitVec 32) (ids : Finset ℕ) (items : Multiset (Node D (Msg D))) :
    Prop where
  events : items.map (fun e => e.payload.key) = pending id ids
  stamps : ∀ e ∈ items, e.payload.timestamp = e.priority

namespace Scheduled

variable {id : BitVec 32} {ids : Finset ℕ} {items rest : Multiset (Node D (Msg D))}

theorem ne_zero (h : Scheduled id ids items) : items ≠ 0 := by
  rintro rfl
  exact absurd h.events.symm (Multiset.cons_ne_zero)

theorem cons_val {i : ℕ} (hi : i ∈ ids) (f : ℕ → ℤ × ℤ × BitVec 32 × BitVec 32) :
    ids.val.map f = f i ::ₘ (ids.erase i).val.map f := by
  rw [← Multiset.map_cons, Finset.erase_val, Multiset.cons_erase hi]

/-- The event that is taken: the start of a call, or the end of a call on a busy channel. -/
theorem taken {e : Node D (Msg D)} (h : Scheduled id ids items) (hitems : items = e ::ₘ rest) :
    e.payload.receiver = id ∧
    (e.payload.type = START_CALL ∧
        rest.map (fun e => e.payload.key) = ids.val.map (endKey id) ∨
      e.payload.type = END_CALL ∧ ∃ i ∈ ids, e.payload.channel = i ∧
        Scheduled id (ids.erase i) rest) := by
  have hevents := h.events
  have hstamps := h.stamps
  subst hitems
  rw [Multiset.map_cons, pending, Multiset.cons_eq_cons] at hevents
  obtain ⟨hkey, hrest⟩ | ⟨-, cs, hrest, hcs⟩ := hevents
  · simp only [Msg.key, Prod.mk.injEq] at hkey
    exact ⟨hkey.2.2.2, .inl ⟨hkey.1, hrest⟩⟩
  · obtain ⟨i, hi, hkey⟩ := Multiset.mem_map.mp (hcs ▸ Multiset.mem_cons_self _ cs)
    rw [cons_val hi, hkey, Multiset.cons_inj_right] at hcs
    simp only [Msg.key, endKey, Prod.mk.injEq] at hkey
    refine ⟨hkey.2.2.2.symm, .inr ⟨hkey.1.symm, i, hi, hkey.2.1.symm, ?_, fun x hx => ?_⟩⟩
    · rw [hrest, ← hcs]
      rfl
    · exact hstamps x (Multiset.mem_cons_of_mem hx)

/-- The next call is put, after the end of the one that has started. -/
theorem start {rest' : Multiset (Node D (Msg D))} {t : D} {ids' : Finset ℕ}
    (hevents : rest.map (fun e => e.payload.key) = ids'.val.map (endKey id))
    (hstamps : ∀ e ∈ rest, e.payload.timestamp = e.priority)
    (hrest' : rest' = ⟨t, packEvent id START_CALL t (-1)⟩ ::ₘ rest) :
    Scheduled id ids' rest' := by
  subst hrest'
  constructor
  · rw [Multiset.map_cons, hevents]
    rfl
  · intro e he
    obtain rfl | he := Multiset.mem_cons.mp he
    · rfl
    · exact hstamps e he

end Scheduled

/-! ## The handlers of the events -/

/-- The channels `l` of the cell are busy, and the counter counts the others. -/
structure Lp.Sound (N : Numerics D R) (s : Lp D) (l : List (ℕ × ℕ)) : Prop where
  busy : s.Busy N l
  cells : s.channelsPerCell = CHANNELS_PER_CELL
  counter : s.channelCounter.toNat + l.length = CHANNELS_PER_CELL

/-- The calls of a cell with the busy channels `ids`. -/
def Lp.calls (s : Lp D) (ids : Finset ℕ) : Calls where
  busy := ids
  arriving := s.arrivingCalls
  complete := s.completeCalls
  blocked := s.blockedOnSetup

/-- The channels are apart from the calls. -/
theorem Lp.OnlyChannels.rest {s s' : Lp D} (h : s.OnlyChannels s') (ids : Finset ℕ) :
    s'.calls ids = s.calls ids ∧ s'.executedEvents = s.executedEvents := by
  unfold Lp.OnlyChannels at h
  rw [h]
  exact ⟨rfl, rfl⟩

namespace Lp.Sound

open Lp.Busy

variable {s : Lp D} {l : List (ℕ × ℕ)} {q : Calqueue D (Msg D)} {me : BitVec 32} {now : D}

theorem card_ids (h : s.Busy N l) : (ids l).card = l.length := by
  unfold ids
  rw [List.toFinset_card_of_nodup h.distinct, List.length_map]

theorem ids_subset (h : s.Sound N l) : ids l ⊆ Finset.range CHANNELS_PER_CELL := by
  intro i hi
  obtain ⟨x, hx, rfl⟩ := List.mem_map.mp (mem_ids.mp hi)
  rw [Finset.mem_range, ← h.cells]
  exact h.busy.bound x hx

theorem length_le (h : s.Sound N l) : l.length ≤ CHANNELS_PER_CELL := by
  have := h.counter
  omega

/-- The counter is zero if and only if every channel is busy. -/
theorem counter_eq_zero (h : s.Sound N l) :
    s.channelCounter = 0 ↔ ids l = Finset.range CHANNELS_PER_CELL := by
  have hcounter := h.counter
  have hcard := card_ids h.busy
  constructor
  · intro h0
    rw [h0] at hcounter
    refine Finset.eq_of_subset_of_card_le h.ids_subset ?_
    rw [Finset.card_range, hcard, ← hcounter]
    exact le_of_eq (Nat.zero_add _)
  · intro hfull
    rw [hfull, Finset.card_range] at hcard
    refine BitVec.eq_of_toNat_eq ?_
    show s.channelCounter.toNat = 0
    omega

/-- What `OnlyChannels` leaves of a cell. -/
theorem of_only {s' : Lp D} {l' : List (ℕ × ℕ)} (honly : s.OnlyChannels s') (hbusy : s'.Busy N l')
    (hcells : s.channelsPerCell = CHANNELS_PER_CELL)
    (hcounter : s.channelCounter.toNat + l'.length = CHANNELS_PER_CELL) : s'.Sound N l' where
  busy := hbusy
  cells := (congrArg Lp.channelsPerCell honly).trans hcells
  counter := (congrArg (fun s => s.channelCounter.toNat + l'.length) honly).trans hcounter

/-- The counters of the calls and the times are not those of the channels. -/
theorem counted (h : s.Sound N l) (arriving complete blocked executed : BitVec 32) (lvt ta : D) :
    ({ s with
      arrivingCalls := arriving
      completeCalls := complete
      blockedOnSetup := blocked
      executedEvents := executed
      lvt := lvt
      ta := ta } : Lp D).Sound N l :=
  ⟨⟨h.busy.linked, h.busy.node, h.busy.fresh, h.busy.distinct, h.busy.bits, h.busy.bound⟩, h.cells,
    h.counter⟩

/-- A cell with a free channel, after the counter is lowered. -/
theorem allocation_spec (h : s.Sound N l) (h0 : s.channelCounter ≠ 0) (r : R) :
    Ends Crash.OfArith (allocation N { s with channelCounter := s.channelCounter - 1 } r) fun st =>
      ∃ l', st.2.1.Sound N l' ∧
        ({ s with channelCounter := s.channelCounter - 1 } : Lp D).OnlyChannels st.2.1 ∧
        IdStep CHANNELS_PER_CELL (ids l) (.allocation st.1) (ids l') := by
  set s₁ : Lp D := { s with channelCounter := s.channelCounter - 1 } with hs₁
  have hbusy : s₁.Busy N l :=
    ⟨h.busy.linked, h.busy.node, h.busy.fresh, h.busy.distinct, h.busy.bits, h.busy.bound⟩
  have hids := hbusy.allocation_ids (F := Crash.OfArith) (fun _ => .inl rfl) r
  have hcells : s₁.channelsPerCell = CHANNELS_PER_CELL := h.cells
  rw [hcells, if_neg fun hfull => h0 (h.counter_eq_zero.mpr hfull)] at hids
  refine hids.mono ?_
  rintro st ⟨l', hbusy', honly, hstep⟩
  have hlen : l'.length = l.length + 1 := by
    rw [← card_ids hbusy', ← card_ids h.busy, hstep.2.2.2,
      Finset.card_insert_of_notMem hstep.2.1]
  have hcounter : s₁.channelCounter.toNat + l'.length = CHANNELS_PER_CELL := by
    have := h.counter
    have hpos : s.channelCounter.toNat ≠ 0 := fun hz => h0 (BitVec.eq_of_toNat_eq hz)
    have hsub : s₁.channelCounter.toNat = s.channelCounter.toNat - 1 := by
      rw [hs₁]
      bv_omega
    omega
  exact ⟨l', of_only honly hbusy' hcells hcounter, honly, hstep⟩

/-- A call is blocked, or gets a channel and the event of its end. -/
theorem setUp_spec (h : s.Sound N l) (hq : q.Good N.toArith)
    (hevents : q.items.map (fun e => e.payload.key) = (ids l).val.map (endKey me))
    (hstamps : ∀ e ∈ q.items, e.payload.timestamp = e.priority) (r : R) :
    Ends Crash.OfArith
      (setUp N me now { s with arrivingCalls := s.arrivingCalls + 1 } q r) fun st =>
      ∃ l' ch, st.1.Sound N l' ∧ CallStep (s.calls (ids l)) (.start ch) (st.1.calls (ids l')) ∧
        st.1.executedEvents = s.executedEvents ∧ st.2.1.Good N.toArith ∧
        st.2.1.items.map (fun e => e.payload.key) = (ids l').val.map (endKey me) ∧
        ∀ e ∈ st.2.1.items, e.payload.timestamp = e.priority := by
  have h₁ := h.counted (s.arrivingCalls + 1) s.completeCalls s.blockedOnSetup s.executedEvents
    s.lvt s.ta
  unfold setUp
  split_ifs with h0
  · refine .pure ⟨l, none, h.counted _ _ _ _ _ _, ⟨?_, rfl⟩, rfl, hq, hevents, hstamps⟩
    exact h.counter_eq_zero.mp h0
  · refine (expent_ends _ r).bind fun d _ => ?_
    refine (h₁.allocation_spec h0 d.2).bind ?_
    rintro ⟨i, s', r'⟩ ⟨l', hs', honly, hstep⟩
    refine (onQueue_spec (hq.put_spec _ rfl)).bind ?_
    rintro q' ⟨hq', hitems⟩
    obtain ⟨hcalls, hexec⟩ := honly.rest (ids l')
    refine .pure ⟨l', some i, hs', ⟨hstep, hcalls⟩, hexec, hq', ?_, ?_⟩
    · have hi : i ∈ ids l' := by
        rw [hstep.2.2.2]
        exact Finset.mem_insert_self i _
      rw [hitems, Multiset.map_cons, hevents, Scheduled.cons_val hi, hstep.2.2.2,
        Finset.erase_insert hstep.2.1]
      rfl
    · rw [hitems]
      intro e he
      obtain rfl | he := Multiset.mem_cons.mp he
      · rfl
      · exact hstamps e he

/-- `START_CALL` does to the calls what the start of a call does, and puts the next one. -/
theorem onStartCall_spec (h : s.Sound N l) (hq : q.Good N.toArith)
    (hevents : q.items.map (fun e => e.payload.key) = (ids l).val.map (endKey me))
    (hstamps : ∀ e ∈ q.items, e.payload.timestamp = e.priority) (r : R) :
    Ends Crash.OfArith (onStartCall N me now s q r) fun st => ∃ l' ch, st.1.Sound N l' ∧
      CallStep (s.calls (ids l)) (.start ch) (st.1.calls (ids l')) ∧
      st.1.executedEvents = s.executedEvents ∧ st.2.1.Good N.toArith ∧
      Scheduled me (ids l') st.2.1.items := by
  unfold onStartCall
  refine (h.setUp_spec hq hevents hstamps r).bind ?_
  rintro ⟨s', q', r'⟩ ⟨l', ch, hs', hstep, hexec, hq', hevents', hstamps'⟩
  refine (expent_ends _ r').bind fun d _ => ?_
  refine (onQueue_spec (hq'.put_spec _ rfl)).bind ?_
  rintro q'' ⟨hq'', hitems⟩
  exact .pure ⟨l', ch, hs'.counted _ _ _ _ _ _, hstep, hexec, hq'',
    .start hevents' hstamps' hitems⟩

/-- `END_CALL` on a busy channel does to the calls what the end of a call does. The loop is to end
    if that was the last call. -/
theorem onEndCall_spec (h : s.Sound N l) {i : ℕ} (hi : i ∈ ids l) (r : R) :
    Ends Crash.OfArith (onEndCall N i s r) fun st => ∃ l', st.2.1.Sound N l' ∧
      CallStep (s.calls (ids l)) (.finish i) (st.2.1.calls (ids l')) ∧
      st.2.1.executedEvents = s.executedEvents ∧ ids l' = (ids l).erase i ∧
      st.1 = if s.completeCalls + 1 = BitVec.ofNat 32 COMPLETE_CALLS then .one else .zero := by
  set s₁ : Lp D := { s with
    channelCounter := s.channelCounter + 1
    completeCalls := s.completeCalls + 1 } with hs₁
  have hbusy : s₁.Busy N l :=
    ⟨h.busy.linked, h.busy.node, h.busy.fresh, h.busy.distinct, h.busy.bits, h.busy.bound⟩
  have hids := hbusy.deallocation_ids (F := Crash.OfArith) (fun _ => .inl rfl) r i
  have hcells : s₁.channelsPerCell = CHANNELS_PER_CELL := h.cells
  rw [hcells, if_pos ⟨i, hi, rfl⟩] at hids
  unfold onEndCall
  refine hids.bind ?_
  rintro ⟨s', r'⟩ ⟨l', hbusy', honly, hstep⟩
  obtain ⟨j, hj, hij, herase⟩ := id hstep
  obtain rfl : j = i := by omega
  have hlen : l'.length + 1 = l.length := by
    rw [← card_ids hbusy', ← card_ids h.busy, herase, Finset.card_erase_add_one hj]
  have hcounter : s₁.channelCounter.toNat + l'.length = CHANNELS_PER_CELL := by
    have := h.counter
    have hadd : s₁.channelCounter.toNat = s.channelCounter.toNat + 1 := by
      have hle : s.channelCounter.toNat ≤ 1000 := by
        unfold CHANNELS_PER_CELL at this
        omega
      rw [hs₁]
      bv_omega
    omega
  obtain ⟨hcalls, hexec⟩ := honly.rest (ids l')
  refine .pure ⟨l', of_only honly hbusy' hcells hcounter, ⟨hstep, hcalls⟩,
    hexec, herase, ?_⟩
  have hcomplete : s'.completeCalls = s.completeCalls + 1 := congrArg Calls.complete hcalls
  dsimp only
  rw [hcomplete]

/-- `ProcessEvent` on the start of a call. -/
theorem processStart_spec {msg : Msg D} (h : s.Sound N l) (hq : q.Good N.toArith)
    (hevents : q.items.map (fun e => e.payload.key) = (ids l).val.map (endKey msg.receiver))
    (hstamps : ∀ e ∈ q.items, e.payload.timestamp = e.priority) (htype : msg.type = START_CALL)
    (r : R) :
    Ends Crash.OfArith (processEvent N msg (some s) q r) fun st => st.1 = .zero ∧ ∃ s' l' ch,
      st.2.1 = some s' ∧ s'.Sound N l' ∧
      CallStep (s.calls (ids l)) (.start ch) (s'.calls (ids l')) ∧
      s'.executedEvents = s.executedEvents + 1 ∧ st.2.2.1.Good N.toArith ∧
      Scheduled msg.receiver (ids l') st.2.2.1.items := by
  have hs := h.counted s.arrivingCalls s.completeCalls s.blockedOnSetup (s.executedEvents + 1)
    msg.timestamp s.ta
  rw [processEvent, if_neg (by rw [htype]; decide), if_pos htype, Option.map_some]
  refine (hs.onStartCall_spec hq hevents hstamps r).bind ?_
  rintro ⟨s', q', r'⟩ ⟨l', ch, hs', hstep, hexec, hq', hevents'⟩
  exact .pure ⟨rfl, s', l', ch, rfl, hs', hstep, hexec, hq', hevents'⟩

/-- `ProcessEvent` on the end of the call on a busy channel. -/
theorem processEnd_spec {msg : Msg D} {i : ℕ} (h : s.Sound N l) (hi : i ∈ ids l)
    (hch : msg.channel = i) (htype : msg.type = END_CALL) (r : R) :
    Ends Crash.OfArith (processEvent N msg (some s) q r) fun st => st.2.2.1 = q ∧ ∃ s' l',
      st.2.1 = some s' ∧ s'.Sound N l' ∧
      CallStep (s.calls (ids l)) (.finish i) (s'.calls (ids l')) ∧
      s'.executedEvents = s.executedEvents + 1 ∧ ids l' = (ids l).erase i ∧
      st.1 = if s.completeCalls + 1 = BitVec.ofNat 32 COMPLETE_CALLS then .one else .zero := by
  have hs := h.counted s.arrivingCalls s.completeCalls s.blockedOnSetup (s.executedEvents + 1)
    msg.timestamp s.ta
  rw [processEvent, if_neg (by rw [htype]; decide), if_neg (by rw [htype]; decide), if_pos htype,
    Option.map_some, hch]
  refine (hs.onEndCall_spec hi r).bind ?_
  rintro ⟨ret, s', r'⟩ ⟨l', hs', hstep, hexec, hids, hret⟩
  exact .pure ⟨rfl, s', l', rfl, hs', hstep, hexec, hids, hret⟩

end Lp.Sound

/-! ## A round of the loop -/

/-- The invariant between two rounds once the cell has its state. -/
structure Running (N : Numerics D R) (id : BitVec 32) (sim : Sim D R) (s : Lp D)
    (l : List (ℕ × ℕ)) : Prop where
  state : sim.state = some s
  cell : s.Sound N l
  events : Scheduled id (Lp.Busy.ids l) sim.q.items
  queue : sim.q.Good N.toArith

/-- The state before the first round: the only event is `INIT`. -/
structure Starting (N : Numerics D R) (id : BitVec 32) (sim : Sim D R) : Prop where
  state : sim.state = none
  events : ∃ e : Node D (Msg D), e.payload.type = INIT ∧ e.payload.receiver = id ∧
    sim.q.items = {e}
  queue : sim.q.Good N.toArith

/-- The first event of a queue that is not empty. -/
theorem get_ends {q : Calqueue D (Msg D)} (h : q.Good N.toArith) (hne : q.items ≠ 0) :
    Ends Crash.OfArith (onQueue (calqueueGet N.toArith q)) fun got =>
      ∃ e, got.1 = some e.payload ∧ got.2.Good N.toArith ∧ q.items = e ::ₘ got.2.items := by
  refine onQueue_spec ((h.get_spec (F := fun f => f = .negativeBucket) rfl).mono ?_)
  rintro ⟨got, q'⟩ ⟨hq', hstep⟩
  cases got with
  | none => exact absurd hstep.1 hne
  | some m =>
    obtain ⟨priority, hitems⟩ := hstep
    exact ⟨⟨priority, m⟩, rfl, hq', hitems⟩

/-- The first round makes the cell. -/
theorem Starting.step {id : BitVec 32} {sim : Sim D R} (h : Starting N id sim) :
    Ends Crash.OfArith (mainStep N id sim) fun st =>
      st.1 = false ∧ ∃ s, Running N id st.2 s [] ∧ s.calls ∅ = ⟨∅, 0, 0, 0⟩ ∧
        s.executedEvents = 0 := by
  obtain ⟨x, htype, hrec, hitems⟩ := h.events
  have hne : sim.q.items ≠ 0 := by
    rw [hitems]
    exact Multiset.singleton_ne_zero x
  unfold mainStep
  refine (get_ends h.queue hne).bind ?_
  rintro ⟨got, q'⟩ ⟨e, rfl, hq', htaken⟩
  rw [hitems, Multiset.singleton_eq_cons_iff] at htaken
  obtain ⟨rfl, hempty⟩ := htaken
  dsimp only at hq' hempty ⊢
  rw [if_neg (by rw [hrec]; exact fun hne => hne rfl), processEvent, if_pos htype, h.state, hrec]
  unfold onInit
  rw [bind_assoc, bind_assoc]
  refine (onQueue_spec (hq'.put_spec _ rfl)).bind ?_
  rintro q'' ⟨hq'', hput⟩
  show Ends Crash.OfArith (if x.payload.type = INIT then _ else _) _
  rw [if_pos htype]
  refine .pure ⟨rfl, newState N, ⟨rfl, ⟨.newState N, rfl, rfl⟩, ?_, hq''⟩, rfl, rfl⟩
  refine .start ?_ ?_ hput
  · rw [hempty]
    rfl
  · rw [hempty]
    exact fun e he => absurd he (Multiset.notMem_zero e)

/-- A round does to the calls what an event of theirs does. The loop ends with the call that
    completes `COMPLETE_CALLS`. -/
theorem Running.step {id : BitVec 32} {sim : Sim D R} {s : Lp D} {l : List (ℕ × ℕ)}
    (h : Running N id sim s l) (hle : s.completeCalls.toNat < COMPLETE_CALLS) :
    Ends Crash.OfArith (mainStep N id sim) fun st => ∃ s' l' ev, Running N id st.2 s' l' ∧
      CallStep (s.calls (Lp.Busy.ids l)) ev (s'.calls (Lp.Busy.ids l')) ∧
      s'.executedEvents = s.executedEvents + 1 ∧ s'.completeCalls.toNat ≤ COMPLETE_CALLS ∧
      (st.1 = true ↔ s'.completeCalls.toNat = COMPLETE_CALLS) := by
  unfold mainStep
  refine (get_ends h.queue h.events.ne_zero).bind ?_
  rintro ⟨got, q'⟩ ⟨e, rfl, hq', htaken⟩
  obtain ⟨hrec, hcase⟩ := h.events.taken htaken
  dsimp only at hq' htaken hcase ⊢
  rw [if_neg (by rw [hrec]; exact fun hne => hne rfl), h.state]
  obtain ⟨htype, hrest⟩ | ⟨htype, i, hi, hch, hrest⟩ := hcase
  · have hstamps : ∀ x ∈ q'.items, x.payload.timestamp = x.priority := fun x hx =>
      h.events.stamps x (htaken ▸ Multiset.mem_cons_of_mem hx)
    rw [← hrec] at hrest
    refine (h.cell.processStart_spec hq' hrest hstamps htype sim.r).bind ?_
    rintro ⟨ret, state, q'', r'⟩ ⟨hret, s', l', ch, hstate, hs', hstep, hexec, hq'', hevents⟩
    dsimp only at hret hstate hq'' hevents
    subst hret hstate
    have hcomplete : s'.completeCalls = s.completeCalls := by
      cases ch with
      | none => exact congrArg Calls.complete hstep.2
      | some i => exact congrArg Calls.complete hstep.2
    refine .pure ⟨s', l', .start ch, ⟨rfl, hs', hrec ▸ hevents, hq''⟩, hstep, hexec, ?_, ?_⟩
    · rw [hcomplete]
      exact hle.le
    · rw [hcomplete]
      constructor
      · rintro ⟨⟩
      · exact fun heq => absurd heq hle.ne
  · have hnum : (s.completeCalls + 1).toNat = s.completeCalls.toNat + 1 := by
      unfold COMPLETE_CALLS at hle
      bv_omega
    have hlast : s.completeCalls + 1 = BitVec.ofNat 32 COMPLETE_CALLS ↔
        s.completeCalls.toNat + 1 = COMPLETE_CALLS := by
      rw [← hnum, ← BitVec.toNat_inj]
      rfl
    refine (h.cell.processEnd_spec hi hch htype sim.r).bind ?_
    rintro ⟨ret, state, q'', r'⟩ ⟨hq'', s', l', hstate, hs', hstep, hexec, hids, hret⟩
    dsimp only at hq'' hstate hret
    subst hq'' hstate
    have hcomplete : s'.completeCalls = s.completeCalls + 1 := congrArg Calls.complete hstep.2
    have hrunning : Running N id { q := q'', state := some s', r := r' } s' l' :=
      ⟨rfl, hs', hids ▸ hrest, hq'⟩
    by_cases hend : s.completeCalls + 1 = BitVec.ofNat 32 COMPLETE_CALLS
    · obtain rfl := hret.trans (if_pos hend)
      refine .pure ⟨s', l', .finish i, hrunning, hstep, hexec, ?_, ?_⟩
      · rw [hcomplete, hnum]
        omega
      · rw [hcomplete, hnum]
        exact ⟨fun _ => hlast.mp hend, fun _ => rfl⟩
    · obtain rfl := hret.trans (if_neg hend)
      refine .pure ⟨s', l', .finish i, hrunning, hstep, hexec, ?_, ?_⟩
      · rw [hcomplete, hnum]
        omega
      · rw [hcomplete, hnum]
        constructor
        · rintro ⟨⟩
        · exact fun heq => absurd (hlast.mpr heq) hend

/-! ## Runs -/

/-- A round of the loop that is not the last one. -/
def Round (N : Numerics D R) (id : BitVec 32) (sim : Sim D R) (_ : Unit) (sim' : Sim D R) : Prop :=
  mainStep N id sim = .ok (false, sim')

/-- The calls of a new cell. -/
def Calls.none : Calls := ⟨∅, 0, 0, 0⟩

theorem Calls.Balanced.none : Calls.none.Balanced := by
  show (0 : BitVec 32) = 0 + 0 + BitVec.ofNat 32 (∅ : Finset ℕ).card
  decide

/-- The queue is made, and `INIT` is put. -/
theorem mainInit_ends {id : BitVec 32} {memory : Calqueue D (Msg D)} {r : R} :
    Ends Crash.OfArith (mainInit N id memory r) (Starting N id) := by
  obtain ⟨q₀, hq₀, hgood, hempty⟩ := Calqueue.init_spec N.toArith memory
  unfold mainInit
  rw [hq₀]
  refine Ends.bind (Q := fun q => q = q₀) rfl ?_
  rintro q rfl
  refine (onQueue_spec (hgood.put_spec _ rfl)).bind ?_
  rintro q' ⟨hgood', hitems⟩
  rw [hempty] at hitems
  exact .pure ⟨rfl, ⟨_, rfl, rfl, hitems⟩, hgood'⟩

/-- Before the first round nothing has happened. After it, the loop has done to the calls one
    event of theirs in each round. -/
theorem Starting.run {id : BitVec 32} {sim₀ sim : Sim D R} {ls : List Unit}
    (h : Starting N id sim₀) (hrun : Run (Round N id) sim₀ ls sim) :
    ls = [] ∧ sim = sim₀ ∨ ∃ s l evs, evs.length + 1 = ls.length ∧ Running N id sim s l ∧
      s.completeCalls.toNat < COMPLETE_CALLS ∧
      Run CallStep .none evs (s.calls (Lp.Busy.ids l)) ∧
      s.executedEvents = BitVec.ofNat 32 evs.length := by
  induction hrun with
  | nil => exact .inl ⟨rfl, rfl⟩
  | snoc _ hs ih =>
    refine .inr ?_
    rw [Round] at hs
    obtain ⟨rfl, rfl⟩ | ⟨s, l, evs, hlen, hrunning, hle, hcalls, hexec⟩ := ih
    · obtain ⟨-, s, hrunning, hcalls, hexec⟩ := h.step.value hs
      refine ⟨s, [], [], rfl, hrunning, ?_, ?_, hexec⟩
      · rw [show s.completeCalls = 0 from congrArg Calls.complete hcalls]
        decide
      · rw [show s.calls (Lp.Busy.ids []) = .none from hcalls]
        exact .nil
    · obtain ⟨s', l', ev, hrunning', hstep, hexec', hle', hlast⟩ := (hrunning.step hle).value hs
      have hne : s'.completeCalls.toNat ≠ COMPLETE_CALLS := fun heq => by
        cases hlast.mpr heq
      refine ⟨s', l', evs ++ [ev], ?_, hrunning', by omega, hcalls.snoc hstep, ?_⟩
      · rw [List.length_append, List.length_append, ← hlen]
        rfl
      · rw [hexec', hexec, List.length_append, BitVec.ofNat_add]
        rfl

/-- Whatever the arithmetic and the random numbers, every round of the loop after the first one does
    to the busy channels and the calls what the start or the end of a call does. The counter counts
    the free channels, every call is completed, blocked or on a channel, and the queue has the start
    of the next call and the end of the call on each busy channel. The next round fails only on a
    negative mean or a negative bucket number, and ends the loop if and only if it completes the
    last call. -/
theorem main_loop_refines (N : Numerics D R) (id : BitVec 32) (memory : Calqueue D (Msg D)) (r : R)
    (sim₀ sim : Sim D R) (ls : List Unit) (h0 : mainInit N id memory r = .ok sim₀)
    (hrun : Run (Round N id) sim₀ ls sim) :
    (ls ≠ [] → ∃ s l evs, sim.state = some s ∧ s.Busy N l ∧ evs.length + 1 = ls.length ∧
      Run CallStep .none evs (s.calls (Lp.Busy.ids l)) ∧ s.completeCalls.toNat < COMPLETE_CALLS ∧
      s.channelCounter.toNat + (Lp.Busy.ids l).card = CHANNELS_PER_CELL ∧
      (s.calls (Lp.Busy.ids l)).Balanced ∧ s.executedEvents = BitVec.ofNat 32 evs.length ∧
      Scheduled id (Lp.Busy.ids l) sim.q.items) ∧
    Ends Crash.OfArith (mainStep N id sim) fun st =>
      ∃ s, st.2.state = some s ∧ (st.1 = true ↔ s.completeCalls.toNat = COMPLETE_CALLS) := by
  have hstart := mainInit_ends.value h0
  obtain ⟨rfl, rfl⟩ | ⟨s, l, evs, hlen, hrunning, hle, hcalls, hexec⟩ := hstart.run hrun
  · refine ⟨fun hne => absurd rfl hne, hstart.step.mono ?_⟩
    rintro ⟨last, sim'⟩ ⟨hlast, s, hrunning, hcalls, -⟩
    refine ⟨s, hrunning.state, ?_⟩
    rw [show s.completeCalls = 0 from congrArg Calls.complete hcalls, hlast]
    decide
  · refine ⟨fun _ => ⟨s, l, evs, hrunning.state, hrunning.cell.busy, hlen, hcalls, hle, ?_, ?_,
      hexec, hrunning.events⟩, (hrunning.step hle).mono ?_⟩
    · rw [Lp.Sound.card_ids hrunning.cell.busy]
      exact hrunning.cell.counter
    · exact hcalls.invariant (I := Calls.Balanced) .none fun _ _ _ h hs => h.step hs
    · rintro ⟨last, sim'⟩ ⟨s', l', ev, hrunning', -, -, -, hlast⟩
      exact ⟨s', hrunning'.state, hlast⟩

/-- The first two rounds: the cell is made, and a call starts. -/
theorem main_loop_refines_two : ∃ s : Lp ℚ, ∃ l evs, evs.length + 1 = 2 ∧
    Run CallStep .none evs (s.calls (Lp.Busy.ids l)) := by
  have hcalls : (mainInit Numerics.rational 1 ⟨fun _ => [], 0, 0, 0, 0, false, 0, 0, 0, 0, 0⟩
      ⟨0, 1⟩ >>= fun sim₀ => mainStep Numerics.rational 1 sim₀ >>= fun a =>
      mainStep Numerics.rational 1 a.2 >>= fun b => pure (a.1, b.1)) = .ok (false, false) := by
    decide +kernel
  obtain ⟨sim₀, h0, hcalls⟩ := bind_eq_ok.mp hcalls
  obtain ⟨a, ha, hcalls⟩ := bind_eq_ok.mp hcalls
  obtain ⟨b, hb, hcalls⟩ := bind_eq_ok.mp hcalls
  obtain ⟨ha1, hb1⟩ := Prod.mk.inj (Except.ok.inj hcalls)
  have hfirst : Round Numerics.rational 1 sim₀ () a.2 := by
    rw [Round, ← ha1]
    exact ha
  have hsecond : Round Numerics.rational 1 a.2 () b.2 := by
    rw [Round, ← hb1]
    exact hb
  obtain ⟨s, l, evs, -, -, hlen, hrun, -⟩ := (main_loop_refines Numerics.rational 1 _ ⟨0, 1⟩ sim₀
    b.2 _ h0 ((Run.single hfirst).snoc hsecond)).1 (by decide)
  exact ⟨s, l, evs, hlen, hrun⟩

end AosvFibers.Benchmark
