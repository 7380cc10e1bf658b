import AosvFibers.Lib.Buckets
import AosvFibers.Lib.Fallible
import AosvFibers.Lib.Transition

/-!
# The calendar queue

`src/benchmark/2018-fibers/src/calqueue.c`. The array `calq` of list heads is a function from
indices to lists; a calendar is a region of it, `nbuckets` lists from `firstsub` on, and
`calendar[i]` is the list at `firstsub + i`. What a `double` is and does is a parameter
(`Arith`). The operations that `calqueue.c` lets call each other take the `resize` they call as
an argument, and `resize` is given by how deep it may be nested.
-/

namespace AosvFibers.Benchmark

open Lib

/-- The operations on `double` and the casts to `int` and `long` that `calqueue.c` uses. -/
structure Arith (D : Type*) where
  ofInt : ℤ → D
  half : D
  add : D → D → D
  sub : D → D → D
  mul : D → D → D
  div : D → D → D
  lt : D → D → Bool
  le : D → D → Bool
  toInt : D → ℤ
  toLong : D → ℤ

/-- `calqueue_node` without its link. -/
structure Node (D α : Type*) where
  priority : D
  payload : α
deriving DecidableEq, Repr

/-- What can go wrong in `calqueue.c`. -/
inductive Fault
  /-- `calendar[i]` with `i < 0`. -/
  | negativeBucket
  /-- An access beyond `calq`. -/
  | outOfArray
  /-- A null node is read. -/
  | nullNode
  /-- The search of `calqueue_deq` does not end. -/
  | endless
  /-- `resize` calls itself. -/
  | nested
deriving DecidableEq, Repr

def CALQSPACE : ℕ := 65536

def MAXNBUCKETS : ℕ := 32768

/-- `struct __calqueue` (calqueue.h, lines 18-35). -/
structure Calqueue (D α : Type*) where
  calq : ℕ → List (Node D α)
  firstsub : ℕ
  nbuckets : ℕ
  qsize : ℕ
  lastbucket : ℤ
  resizeEnabled : Bool
  topThreshold : ℤ
  botThreshold : ℤ
  lastprio : D
  buckettop : D
  cwidth : D

variable {D : Type} {α : Type} (A : Arith D)

/-- `n % nbuckets` for the virtual bucket `n`, with the remainder of C. -/
def Calqueue.bucket (q : Calqueue D α) (n : ℤ) : ℤ := n.tmod q.nbuckets

/-- The index of `calendar[i]` in `calq`. -/
def Calqueue.at (q : Calqueue D α) (i : ℤ) : Except Fault ℕ :=
  if i < 0 then .error .negativeBucket
  else if q.firstsub + i.toNat < CALQSPACE then .ok (q.firstsub + i.toNat)
  else .error .outOfArray

/-- `localinit` (lines 19-45). -/
def localinit (q : Calqueue D α) (qbase nbucks : ℕ) (bwidth startprio : D) :
    Except Fault (Calqueue D α) :=
  let n := A.toLong (A.div startprio bwidth)
  if qbase + nbucks ≤ CALQSPACE then
    .ok { q with
      calq := fun i => if qbase ≤ i ∧ i < qbase + nbucks then [] else q.calq i
      firstsub := qbase
      nbuckets := nbucks
      qsize := 0
      lastbucket := n.tmod nbucks
      topThreshold := 2 * nbucks
      botThreshold := (nbucks / 2 : ℕ) - 2
      lastprio := startprio
      buckettop := A.add (A.mul (A.ofInt (n + 1)) bwidth) (A.mul A.half bwidth)
      cwidth := bwidth }
  else .error .outOfArray

/-! ## Insertion -/

/-- The `while` loop of `calqueue_put` (lines 263-268), behind a node that is passed. -/
def walk (n : Node D α) : List (Node D α) → List (Node D α)
  | [] => [n]
  | e :: rest => if A.le e.priority n.priority then e :: walk n rest else n :: e :: rest

/-- The list with the new node (lines 255-269). -/
def place (n : Node D α) : List (Node D α) → List (Node D α)
  | [] => [n]
  | e :: rest => if A.lt n.priority e.priority then n :: e :: rest else e :: walk A n rest

/-- `calqueue_put` up to the change of size (lines 244-272). -/
def Calqueue.insert (q : Calqueue D α) (n : Node D α) : Except Fault (Calqueue D α) := do
  let i ← q.at (q.bucket (A.toInt (A.div n.priority q.cwidth)))
  return { q with
    calq := Function.update q.calq i (place A n (q.calq i))
    qsize := q.qsize + 1 }

/-- `calqueue_put` (lines 238-278) on a filled node. -/
def put (resize : Calqueue D α → ℕ → Except Fault (Calqueue D α)) (q : Calqueue D α)
    (n : Node D α) : Except Fault (Calqueue D α) := do
  let q ← q.insert A n
  if q.topThreshold < q.qsize ∧ q.nbuckets < MAXNBUCKETS then resize q (2 * q.nbuckets)
  else return q

/-! ## Removal -/

/-- The bucket has a node that is due (line 179). -/
def ready (top : D) : List (Node D α) → Bool
  | [] => false
  | e :: _ => A.lt e.priority top

/-- The `for` loop of `calqueue_deq` (lines 177-212) from bucket `i` on, for at most `fuel`
    buckets: the bucket that has a node that is due, if the loop finds one before it is back,
    and `buckettop`. -/
def scan (q : Calqueue D α) : ℕ → ℤ → D → Except Fault (Option ℤ × D)
  | 0, _, _ => .error .endless
  | fuel + 1, i, top => do
    let c ← q.at i
    if ready A top (q.calq c) then return (some i, top)
    else
      let i := if i + 1 = q.nbuckets then 0 else i + 1
      let top := A.add top q.cwidth
      if i = q.lastbucket then return (none, top) else scan q fuel i top

/-- One bucket of the direct search (lines 218-221), with `temp2` and `lowest`. -/
def lowestOf (q : Calqueue D α) (st : Option ℕ × D) (i : ℕ) : Except Fault (Option ℕ × D) := do
  let c ← q.at i
  return match q.calq c with
    | [] => st
    | e :: _ => if st.1.isNone ∨ A.lt e.priority st.2 then (some i, e.priority) else st

/-- The direct search (lines 215-222). -/
def directSearch (q : Calqueue D α) : Except Fault (Option ℕ) := do
  let st ← (List.range q.nbuckets).foldlM (lowestOf A q) (none, A.ofInt (2 ^ 63 - 1))
  return st.1

/-- The bucket `calqueue_deq` takes its node from, and `buckettop`. -/
def search (q : Calqueue D α) : Except Fault (ℤ × D) := do
  let found ← scan A q q.nbuckets q.lastbucket q.buckettop
  match found.1 with
  | some i => return (i, found.2)
  | none =>
    match ← directSearch A q with
    | some i => return (i, found.2)
    | none => .error .nullNode

/-- The label `calendar_process` up to the change of size (lines 184-192). -/
def Calqueue.remove (q : Calqueue D α) (i : ℤ) : Except Fault (Node D α × Calqueue D α) := do
  let c ← q.at i
  match q.calq c with
  | [] => .error .nullNode
  | e :: rest =>
    return (e, { q with
      calq := Function.update q.calq c rest
      lastbucket := i
      lastprio := e.priority
      qsize := q.qsize - 1 })

/-- `calqueue_deq` up to the change of size (lines 177-226). -/
def take (q : Calqueue D α) : Except Fault (Node D α × Calqueue D α) := do
  let found ← search A q
  { q with buckettop := found.2 }.remove found.1

/-- `calqueue_deq` (lines 165-230). -/
def deq (resize : Calqueue D α → ℕ → Except Fault (Calqueue D α)) (q : Calqueue D α) :
    Except Fault (Option (Node D α) × Calqueue D α) :=
  if q.qsize = 0 then return (none, q)
  else do
    let taken ← take A q
    if (taken.2.qsize : ℤ) < taken.2.botThreshold then do
      let q ← resize taken.2 (taken.2.nbuckets / 2)
      return (some taken.1, q)
    else return (some taken.1, taken.2)

/-! ## The change of size -/

section Resize

variable (nested : Calqueue D α → ℕ → Except Fault (Calqueue D α))

/-- How many nodes `new_width` takes as a sample (lines 67-73). -/
def nsamples (qsize : ℕ) : ℕ := min 25 (if qsize ≤ 5 then qsize else 5 + qsize / 10)

/-- The first loop of `new_width` (lines 83-88): `n` nodes are taken from the queue. -/
def sample : ℕ → Calqueue D α → Except Fault (List (Node D α) × Calqueue D α)
  | 0, q => return ([], q)
  | n + 1, q => do
    let taken ← deq A nested q
    match taken.1 with
    | none => .error .nullNode
    | some e =>
      let rest ← sample n taken.2
      return (e :: rest.1, rest.2)

/-- `temp[i]->priority - temp[i-1]->priority`, for `i` from 1 on. -/
def gaps : List (Node D α) → List D
  | e :: e' :: rest => A.sub e'.priority e.priority :: gaps (e' :: rest)
  | _ => []

/-- The mean gap of the sample (lines 81-91). -/
def average (temp : List (Node D α)) : D :=
  A.div ((gaps A temp).foldl A.add (A.ofInt 0)) (A.ofInt (temp.length - 1))

/-- Three times the mean of the gaps below twice the mean gap (lines 93-116). -/
def widthOf (temp : List (Node D α)) : D :=
  let near := (gaps A temp).filter fun g => A.lt g (A.mul (average A temp) (A.ofInt 2))
  A.mul (A.div (near.foldl A.add (A.ofInt 0)) (A.ofInt near.length)) (A.ofInt 3)

/-- Nodes are put one after the other. -/
def putAll (q : Calqueue D α) (nodes : List (Node D α)) : Except Fault (Calqueue D α) :=
  nodes.foldlM (put A nested) q

/-- `new_width` (lines 51-125). -/
def newWidth (q : Calqueue D α) : Except Fault (D × Calqueue D α) :=
  if q.qsize < 2 then return (A.ofInt 1, q)
  else do
    let temp ← sample A nested (nsamples q.qsize) { q with resizeEnabled := false }
    let q' ← putAll A nested temp.2 temp.1
    return (widthOf A temp.1, { q' with
      lastbucket := q.lastbucket
      lastprio := q.lastprio
      buckettop := q.buckettop
      resizeEnabled := true })

/-- `resize` once the new width is known (lines 142-162). -/
def rebuild (q : Calqueue D α) (newsize : ℕ) (bwidth : D) : Except Fault (Calqueue D α) := do
  let new ← localinit A q (if q.firstsub = 0 then CALQSPACE - newsize else 0) newsize bwidth
    q.lastprio
  (List.range q.nbuckets).reverse.foldlM
    (fun q' i => putAll A nested q' (q'.calq (q.firstsub + i))) new

/-- `resize` (lines 130-163), with `nested` for the calls of `resize` that the calls of
    `calqueue_put` and `calqueue_deq` in it make. -/
def resizeWith (q : Calqueue D α) (newsize : ℕ) : Except Fault (Calqueue D α) :=
  if q.resizeEnabled then do
    let width ← newWidth A nested q
    rebuild A nested width.2 newsize width.1
  else return q

end Resize

/-- `resize`, nested at most `depth` deep. -/
def resize : ℕ → Calqueue D α → ℕ → Except Fault (Calqueue D α)
  | 0, q, _ => if q.resizeEnabled then .error .nested else return q
  | depth + 1, q, newsize => resizeWith A (resize depth) q newsize

/-! ## The interface -/

/-- `calqueue_init` (lines 233-236), whatever the memory held. -/
def calqueueInit (q : Calqueue D α) : Except Fault (Calqueue D α) := do
  let q ← localinit A q 0 2 (A.ofInt 1) (A.ofInt 0)
  return { q with resizeEnabled := true }

/-- `calqueue_put` (lines 238-278). -/
def calqueuePut (q : Calqueue D α) (priority : D) (payload : α) : Except Fault (Calqueue D α) :=
  put A (resize A 1) q ⟨priority, payload⟩

/-- `calqueue_get` (lines 280-292): the payload, `none` for `NULL`. -/
def calqueueGet (q : Calqueue D α) : Except Fault (Option α × Calqueue D α) := do
  let taken ← deq A (resize A 1) q
  return (taken.1.map Node.payload, taken.2)

/-- `calqueue_empty` (lines 294-296). -/
def calqueueEmpty (q : Calqueue D α) : Bool := q.qsize == 0

/-! ## Exact arithmetic -/

/-- An ordered field in place of `double`. The casts cut off the fraction. -/
def Arith.exact (K : Type) [Field K] [LinearOrder K] [FloorRing K] : Arith K where
  ofInt n := n
  half := 1 / 2
  add a b := a + b
  sub a b := a - b
  mul a b := a * b
  div a b := a / b
  lt a b := decide (a < b)
  le a b := decide (a ≤ b)
  toInt a := if 0 ≤ a then ⌊a⌋ else ⌈a⌉
  toLong a := if 0 ≤ a then ⌊a⌋ else ⌈a⌉

end AosvFibers.Benchmark
