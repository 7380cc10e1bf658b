import AosvFibers.Lib.Bitmap
import AosvFibers.Lib.DoublyLinked
import AosvFibers.Benchmark.Calqueue

/-!
# The channels of a cell

`src/benchmark/2018-fibers/src/channel.c` and the state of a cell in `model.h`. The busy channels of
a cell are in a bitmap and in a doubly linked list, `channels` being the one that was taken last and
`prev` leading to the one before it. Addresses of list nodes are numbers and `brk` is the next one
that `malloc` returns.
-/

namespace AosvFibers.Benchmark

open Lib

/-- What the simulation computes with `double`. `R` is the state of the generator behind
    `Random`. -/
structure Numerics (D R : Type) extends Arith D where
  /-- A literal. -/
  lit : ℚ → D
  eq : D → D → Bool
  neg : D → D
  log : D → D
  pow : D → D → D
  /-- `Random` (numerical.c, lines 11-27). -/
  random : R → D × R
  /-- What `malloc` leaves in a `double`, in an `int` and in the words of a bitmap. -/
  raw : D
  rawInt : ℤ
  rawWords : ℕ → BitVec 32

/-- How the benchmark ends before its time. -/
inductive Crash
  /-- A fault of the calendar queue. -/
  | queue (f : Fault)
  /-- `Expent() has been passed a negative mean value`. -/
  | negativeMean
  /-- `Unable to allocate channel, but the counter says I have %d available channels`. -/
  | unableToAllocate
  /-- `(%d) Unable to deallocate on %p, channel is %d at time %f`. -/
  | unableToDeallocate
  /-- `PCS: Unknown event type! (me = %d - event type = %d)`. -/
  | unknownEvent
  /-- `No events to process!`. -/
  | noEvents
  /-- `Something went wrong! Fiber %d is getting data from fiber %d, which is impossible.` -/
  | wrongReceiver
  /-- A null `state` or a node of the channel list that is not allocated is accessed. -/
  | badPointer
  /-- A loop over the channel list does not end. -/
  | endless
deriving DecidableEq

def CHANNELS_PER_CELL : ℕ := 1000

/-- `struct _channel` with its `sir_data`. -/
structure Channel (D : Type) where
  channelId : ℕ
  fading : D
  power : D
  next : Option ℕ
  prev : Option ℕ

/-- The memory of a channel list. -/
abbrev Chans (D : Type) := ℕ → Option (Channel D)

/-- `lp_state_type`, as far as it is used, and the memory of its channel list. -/
structure Lp (D : Type) where
  channelCounter : BitVec 32
  arrivingCalls : BitVec 32
  completeCalls : BitVec 32
  blockedOnSetup : BitVec 32
  executedEvents : BitVec 32
  lvt : D
  ta : D
  refTa : D
  taDuration : D
  channelsPerCell : ℕ
  channelState : ℕ → BitVec 32
  channels : Option ℕ
  chan : Chans D
  brk : ℕ

variable {D R : Type} (N : Numerics D R)

/-! ## Random numbers -/

/-- `Expent` (numerical.c, lines 30-37). -/
def expent (mean : D) (r : R) : Except Crash (D × R) :=
  if N.lt mean (N.ofInt 0) then .error .negativeMean
  else .ok (N.mul (N.neg mean) (N.log (N.sub (N.ofInt 1) (N.random r).1)), (N.random r).2)

/-- `value = gain * pow(10.0, 10 * Random() / 10)` (lines 68-71 and 79-82). -/
def pathGain (gain : D) (r : R) : D × R :=
  (N.mul gain (N.pow (N.lit 10) (N.div (N.mul (N.ofInt 10) (N.random r).1) (N.ofInt 10))),
    (N.random r).2)

/-- `generate_cross_path_gain` (lines 64-72). -/
def generateCrossPathGain (r : R) : D × R := pathGain N (N.lit (5 / 10 ^ 14)) r

/-- `generate_path_gain` (lines 75-83). -/
def generatePathGain (r : R) : D × R := pathGain N (N.lit (1 / 10 ^ 10)) r

/-- `recompute_ta` (lines 39-61): the calls a second depend on the hour of the week. -/
def recomputeTa (refTa timeNow : D) : D :=
  let now := (N.toInt timeNow).tmod 604800
  if 432000 < now then N.mul refTa (N.ofInt 5)
  else
    let now := now.tmod 86400
    if now < 30600 then N.mul refTa (N.ofInt 4)
    else if now < 46800 then N.mul refTa (N.lit 0.8)
    else if now < 54000 then N.mul refTa (N.lit 2.5)
    else if now < 68400 then N.mul refTa (N.ofInt 2)
    else if now < 75600 then N.mul refTa (N.lit 2.2)
    else N.mul refTa (N.lit 4.5)

/-! ## The list -/

/-- The node at `a` is changed, if there is one. -/
def Chans.modify (m : Chans D) (a : Option ℕ) (f : Channel D → Channel D) : Chans D := fun b =>
  if a = some b then (m b).map f else m b

/-- The loop of `fading_recheck` (lines 32-35). -/
def fadingLoop : ℕ → Option ℕ → Chans D × R → Except Crash (Chans D × R)
  | _, none, st => .ok st
  | 0, some _, _ => .error .endless
  | fuel + 1, some ch, (m, r) =>
    match m ch with
    | none => .error .badPointer
    | some c => do
      let fading ← expent N (N.ofInt 1) r
      fadingLoop fuel c.prev (m.modify (some ch) fun c => { c with fading := fading.1 }, fading.2)

/-- `fading_recheck` (lines 27-36). -/
def fadingRecheck (s : Lp D) (r : R) : Except Crash (Lp D × R) := do
  let st ← fadingLoop N s.brk s.channels (s.chan, r)
  return ({ s with chan := st.1 }, st.2)

/-- The loop of `allocation` over the channels in use (lines 162-167), with `summ`. -/
def interference : ℕ → Option ℕ → Chans D × D × R → Except Crash (Chans D × D × R)
  | _, none, st => .ok st
  | 0, some _, _ => .error .endless
  | fuel + 1, some ch, (m, summ, r) =>
    match m ch with
    | none => .error .badPointer
    | some c => do
      let fading ← expent N (N.ofInt 1) r
      let gain := generateCrossPathGain N fading.2
      interference fuel c.prev (m.modify (some ch) fun c => { c with fading := fading.1 },
        N.add summ (N.mul (N.mul gain.1 c.power) fading.1), gain.2)

/-- `power` within `MIN_POWER` and `MAX_POWER` (lines 175-176). -/
def clip (power : D) : D :=
  let power := if N.lt power (N.ofInt 3) then N.ofInt 3 else power
  if N.lt (N.ofInt 3000) power then N.ofInt 3000 else power

/-- The fading and the power of the new channel (lines 169-177). -/
def newPower (summ : D) (r : R) : Except Crash (D × D × R) :=
  if N.eq summ (N.lit 0) then .ok (N.raw, N.ofInt 3, r)
  else do
    let fading ← expent N (N.ofInt 1) r
    let gain := generatePathGain N fading.2
    return (fading.1, clip N (N.div (N.mul (N.ofInt 10) summ) (N.mul gain.1 fading.1)), gain.2)

/-- The first free channel (lines 128-134). -/
def freeChannel (s : Lp D) : Option ℕ :=
  (List.range s.channelsPerCell).find? fun i => !Bitmap.test s.channelState i

/-- `allocation` (lines 120-188). -/
def allocation (s : Lp D) (r : R) : Except Crash (ℕ × Lp D × R) :=
  match freeChannel s with
  | none => .error .unableToAllocate
  | some index => do
    let c := s.brk
    let node : Channel D :=
      { channelId := index, fading := N.raw, power := N.raw, next := none, prev := s.channels }
    let m := Chans.modify (Function.update s.chan c (some node)) s.channels
      fun ch => { ch with next := some c }
    let st ← interference N (c + 1) s.channels (m, N.lit 0, r)
    let p ← newPower N st.2.1 st.2.2
    let m := Chans.modify st.1 (some c) fun ch => { ch with fading := p.1, power := p.2.1 }
    let s : Lp D := { s with
      channelState := Bitmap.set s.channelState index
      channels := some c
      chan := m
      brk := c + 1 }
    let st ← fadingRecheck N s p.2.2
    return (index, st)

/-- The links of the nodes. -/
def Chans.links (m : Chans D) : ℕ → Option (Links ℕ) := fun a =>
  (m a).map fun c => ⟨c.next, c.prev⟩

/-- The loop of `deallocation` that looks for the channel (lines 90-94). -/
def findChannel (m : Chans D) (ch : ℤ) (fuel : ℕ) (head : Option ℕ) :
    Except Crash (Option ℕ) :=
  match seek m.links (fun a => (m a).any fun c => (c.channelId : ℤ) = ch) fuel head with
  | none => .error .badPointer
  | some found => .ok found

/-- The node at `a`, which holds `c`, is taken out of the list (lines 96-106). -/
def unlinkNode (s : Lp D) (a : ℕ) (c : Channel D) : Lp D :=
  if s.channels = some a then { s with
    channels := c.prev
    chan := Chans.modify s.chan c.prev fun ch => { ch with next := none } }
  else { s with
    chan := Chans.modify (Chans.modify s.chan c.next fun ch => { ch with prev := c.prev })
      c.prev fun ch => { ch with next := c.next } }

/-- `deallocation` (lines 86-117). -/
def deallocation (s : Lp D) (ch : ℤ) (r : R) : Except Crash (Lp D × R) := do
  match ← findChannel s.chan ch s.brk s.channels with
  | none => .error .unableToDeallocate
  | some a =>
    match s.chan a with
    | none => .error .badPointer
    | some c =>
      let s := unlinkNode s a c
      fadingRecheck N { s with
        channelState := Bitmap.reset s.channelState ch.toNat
        chan := Function.update s.chan a none } r

end AosvFibers.Benchmark
