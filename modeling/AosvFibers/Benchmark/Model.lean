import AosvFibers.Benchmark.Channel

/-!
# The simulation of a cell

`src/benchmark/2018-fibers/src/model.c`, and the loop of `main_loop` in `main.c`, which every fiber
of the benchmark runs on a calendar queue of its own. What the loop keeps in fiber local storage are
fields of `Sim`.
-/

namespace AosvFibers.Benchmark

open Lib

def INIT : ℤ := 0

def START_CALL : ℤ := 20

def END_CALL : ℤ := 21

def COMPLETE_CALLS : ℕ := 15000

/-- `msg_t` (model.h, lines 46-52). -/
structure Msg (D : Type) where
  sender : BitVec 32
  receiver : BitVec 32
  type : ℤ
  timestamp : D
  channel : ℤ

/-- What `ProcessEvent` returns: 0, 1 or the address of a state. -/
inductive Ret (D : Type)
  | zero
  | one
  | state (s : Lp D)

variable {D R : Type} (N : Numerics D R)

/-- `pack_event` (lines 9-20). -/
def packEvent (cell : BitVec 32) (type : ℤ) (stamp : D) (ch : ℤ) : Msg D :=
  { sender := cell, receiver := cell, type := type, timestamp := stamp, channel := ch }

/-- A call of the queue, whose faults are crashes of the benchmark. -/
def onQueue {β : Type} (x : Except Fault β) : Except Crash β := x.mapError .queue

/-- The state that the event `INIT` makes (lines 42-59). -/
def newState : Lp D where
  channelCounter := BitVec.ofNat 32 CHANNELS_PER_CELL
  arrivingCalls := 0
  completeCalls := 0
  blockedOnSetup := 0
  executedEvents := 0
  lvt := N.lit 0
  ta := N.lit 0.16
  refTa := N.lit 0.16
  taDuration := N.ofInt 60
  channelsPerCell := CHANNELS_PER_CELL
  channelState := fun i => if i < CHANNELS_PER_CELL / 32 + 1 then 0 else N.rawWords i
  channels := none
  chan := fun _ => none
  brk := 0

/-- The event `INIT` (lines 39-66). -/
def onInit (me : BitVec 32) (q : Calqueue D (Msg D)) (r : R) :
    Except Crash (Lp D × Calqueue D (Msg D) × R) := do
  let timestamp := N.mul (N.ofInt 20) (N.random r).1
  let q ← onQueue (calqueuePut N.toArith q timestamp (packEvent me START_CALL timestamp (-1)))
  return (newState N, q, (N.random r).2)

/-- A call gets a channel and the event of its end, or is blocked (lines 72-78). -/
def setUp (me : BitVec 32) (now : D) (s : Lp D) (q : Calqueue D (Msg D)) (r : R) :
    Except Crash (Lp D × Calqueue D (Msg D) × R) :=
  if s.channelCounter = 0 then return ({ s with blockedOnSetup := s.blockedOnSetup + 1 }, q, r)
  else do
    let s := { s with channelCounter := s.channelCounter - 1 }
    let d ← expent N s.taDuration r
    let timestamp := N.add now d.1
    let st ← allocation N s d.2
    let q ← onQueue (calqueuePut N.toArith q timestamp (packEvent me END_CALL timestamp st.1))
    return (st.2.1, q, st.2.2)

/-- The event `START_CALL` (lines 68-84). -/
def onStartCall (me : BitVec 32) (now : D) (s : Lp D) (q : Calqueue D (Msg D)) (r : R) :
    Except Crash (Lp D × Calqueue D (Msg D) × R) := do
  let st ← setUp N me now { s with arrivingCalls := s.arrivingCalls + 1 } q r
  let s := { st.1 with ta := recomputeTa N st.1.refTa now }
  let d ← expent N s.ta st.2.2
  let timestamp := N.add now d.1
  let q ← onQueue (calqueuePut N.toArith st.2.1 timestamp (packEvent me START_CALL timestamp (-1)))
  return (s, q, d.2)

/-- The event `END_CALL` (lines 86-95). -/
def onEndCall (ch : ℤ) (s : Lp D) (r : R) : Except Crash (Ret D × Lp D × R) := do
  let st ← deallocation N { s with
    channelCounter := s.channelCounter + 1
    completeCalls := s.completeCalls + 1 } ch r
  let ret := if st.1.completeCalls = BitVec.ofNat 32 COMPLETE_CALLS then .one else .zero
  return (ret, st)

/-- `ProcessEvent` (lines 23-103): what it returns, what `state` points to afterwards, the queue and
    the generator. -/
def processEvent (msg : Msg D) (state : Option (Lp D)) (q : Calqueue D (Msg D)) (r : R) :
    Except Crash (Ret D × Option (Lp D) × Calqueue D (Msg D) × R) :=
  let state := state.map fun s =>
    { s with lvt := msg.timestamp, executedEvents := s.executedEvents + 1 }
  if msg.type = INIT then do
    let st ← onInit N msg.receiver q r
    return (.state st.1, state, st.2)
  else if msg.type = START_CALL then
    match state with
    | none => .error .badPointer
    | some s => do
      let st ← onStartCall N msg.receiver msg.timestamp s q r
      return (.zero, some st.1, st.2)
  else if msg.type = END_CALL then
    match state with
    | none => .error .badPointer
    | some s => do
      let st ← onEndCall N msg.channel s r
      return (st.1, some st.2.1, q, st.2.2)
  else .error .unknownEvent

/-! ## The loop of a fiber -/

/-- What a fiber works on. -/
structure Sim (D R : Type) where
  q : Calqueue D (Msg D)
  state : Option (Lp D)
  r : R

/-- `main_loop` up to its loop (main.c, lines 59-66). -/
def mainInit (id : BitVec 32) (memory : Calqueue D (Msg D)) (r : R) : Except Crash (Sim D R) := do
  let q ← onQueue (calqueueInit N.toArith memory)
  let event : Msg D :=
    { sender := id, receiver := id, type := INIT, timestamp := N.raw, channel := N.rawInt }
  let q ← onQueue (calqueuePut N.toArith q (N.lit 0) event)
  return { q := q, state := none, r := r }

/-- One round of the loop of `main_loop` (main.c, lines 70-94), and whether it is the last one. -/
def mainStep (id : BitVec 32) (sim : Sim D R) : Except Crash (Bool × Sim D R) := do
  let got ← onQueue (calqueueGet N.toArith sim.q)
  match got.1 with
  | none => .error .noEvents
  | some event =>
    if event.receiver ≠ id then .error .wrongReceiver
    else do
      let st ← processEvent N event sim.state got.2 sim.r
      match st.1 with
      | .state s =>
        if event.type = INIT then
          return (false, { q := st.2.2.1, state := some s, r := st.2.2.2 })
        else return (true, { q := st.2.2.1, state := st.2.1, r := st.2.2.2 })
      | .one => return (true, { q := st.2.2.1, state := st.2.1, r := st.2.2.2 })
      | .zero => return (false, { q := st.2.2.1, state := st.2.1, r := st.2.2.2 })

end AosvFibers.Benchmark
