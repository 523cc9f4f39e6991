import Mathlib.Algebra.Group.Nat.Defs
import Esesc.Lib.Heap

/-!
# The timed queue of callbacks

`TQueue` keeps the callbacks that are due within `AccessSize` cycles of `minTime` in a ring of
linked lists, one list a cycle, and the others in a heap. `EventScheduler` inserts callbacks
and takes the ones that are due at the clock. A callback is its address; its fields `time`,
`next` and `qType` are maps. Times have 64 bits, and the distance of a time from `minTime` is
cut to 32 bits wherever it is compared with `AccessSize`.
-/

namespace Esesc.Suc

open Esesc.Lib

def wrap64 (t : ℕ) : ℕ := t % 2 ^ 64

/-- The difference of two 64-bit times. -/
def sub64 (a b : ℕ) : ℕ := (a + 2 ^ 64 - b) % 2 ^ 64

def low32 (t : ℕ) : ℕ := t % 2 ^ 32

def MaxTime : ℕ := 2 ^ 64 - 1 - 1024

def AccessSize : ℕ := 256
def AccessMask : ℕ := 255

inductive QueueType where
  | InNoQueue | InFastQueue | InTooFarQueue
  deriving DecidableEq, Repr

structure TQueue where
  time : ℕ → ℕ
  next : ℕ → Option ℕ
  qType : ℕ → QueueType
  minTime : ℕ
  minPos : ℕ
  nNodes : ℕ
  access : ℕ → Option ℕ
  /-- stale, or never written, where the list is empty -/
  accessTail : ℕ → ℕ
  tooFar : List ℕ
  minTooFar : ℕ

namespace TQueue

def reset (q : TQueue) : TQueue :=
  { q with access := fun _ => none, nNodes := 0, minTime := 0, minPos := 0, minTooFar := MaxTime }

/-- The constructor: neither `accessTail` nor the fields of the callbacks are initialised. -/
def create (time : ℕ → ℕ) (next : ℕ → Option ℕ) (accessTail : ℕ → ℕ) : TQueue :=
  reset
    { time, next, qType := fun _ => .InNoQueue, minTime := 0, minPos := 0, nNodes := 0, access := fun _ => none
      accessTail, tooFar := [], minTooFar := 0 }

/-- The list of a time, in `addNode`. -/
def calcPos (q : TQueue) (t : ℕ) : ℕ := low32 (sub64 (wrap64 (q.minPos + t)) q.minTime) &&& AccessMask

def addNode (q : TQueue) (node : ℕ) (t : ℕ) : TQueue :=
  let pos := q.calcPos t
  { q with
    access := match q.access pos with
      | none => Function.update q.access pos (some node)
      | some _ => q.access
    next := match q.access pos with
      | none => Function.update q.next node none
      | some _ => Function.update (Function.update q.next (q.accessTail pos) (some node)) node none
    accessTail := Function.update q.accessTail pos node
    qType := Function.update q.qType node .InFastQueue
    nNodes := q.nNodes + 1 }

/-- The time is within reach of the ring, by the 32-bit comparison of the source. -/
def inReach (q : TQueue) (t : ℕ) : Bool := low32 (sub64 t q.minTime) < AccessSize

def insert (q : TQueue) (data : ℕ) (t : ℕ) : TQueue :=
  let q := { q with time := Function.update q.time data t }
  if q.inReach t then q.addNode data t
  else
    { q with
      qType := Function.update q.qType data .InTooFarQueue
      tooFar := pushHeap q.time q.tooFar data
      minTooFar := if t < q.minTooFar then t else q.minTooFar }

/-- The loop of `adjustTooFar`. -/
def drain : ℕ → TQueue → TQueue
  | 0, q => q
  | fuel + 1, q =>
    match q.tooFar with
    | [] => { q with minTooFar := MaxTime }
    | x :: _ =>
      if q.inReach (q.time x) then
        let q := q.addNode x (q.time x)
        drain fuel { q with tooFar := popHeap q.time q.tooFar }
      else { q with minTooFar := q.time x }

/-- There is no first element of an empty `tooFar`. -/
def adjustTooFar (q : TQueue) : Option TQueue :=
  match q.tooFar with
  | [] => none
  | _ :: l => some (drain (l.length + 2) q)

def take (q : TQueue) (node : ℕ) : TQueue :=
  { q with
    nNodes := q.nNodes - 1
    access := Function.update q.access q.minPos (q.next node)
    qType := Function.update q.qType node .InNoQueue }

/-- The loop of `nextJob`: to the first list that is not empty, or to the current time. -/
def seek (cTime : ℕ) : ℕ → TQueue → TQueue
  | 0, q => q
  | fuel + 1, q =>
    if q.access q.minPos = none ∧ q.minTime < cTime then
      seek cTime fuel { q with minPos := (q.minPos + 1) &&& AccessMask, minTime := wrap64 (q.minTime + 1) }
    else q

/-- `nextJob` behind its common case and `adjustTooFar`. -/
def nextJobSlow (q : TQueue) (cTime : ℕ) : Option ℕ × TQueue :=
  if q.nNodes = 0 then (none, { q with minTime := cTime, minPos := 0 })
  else
    let q := seek cTime (cTime - q.minTime) q
    match q.access q.minPos with
    | none => (none, q)
    | some node => (some node, q.take node)

/-- The callback to run at `cTime`, if any; undefined where the source reads an empty `tooFar`. -/
def nextJob (q : TQueue) (cTime : ℕ) : Option (Option ℕ × TQueue) :=
  match q.access q.minPos, decide (q.minTime = cTime) with
  | some node, true => some (some node, q.take node)
  | _, _ =>
    let q' := if q.minTooFar ≤ cTime then q.adjustTooFar else some q
    q'.map fun q => q.nextJobSlow cTime

def size (q : TQueue) : ℕ := q.nNodes + q.tooFar.length

end TQueue

/-! ## The scheduler -/

/-- One insertion of a callback. -/
structure Job where
  cb : ℕ
  due : ℕ
  /-- when it was inserted -/
  clock : ℕ
  /-- inserted by a callback that runs -/
  inside : Bool
  deriving DecidableEq, Repr

/-- The scheduler with what has happened so far. `inside` says that the last `nextJob` gave a callback, which
runs; `job` is the last insertion of each callback. -/
structure EventScheduler where
  cbQ : TQueue
  globalClock : ℕ
  inside : Bool
  job : ℕ → Job
  inserted : List Job
  fired : List (Job × ℕ)

namespace EventScheduler

def init (q : TQueue) : EventScheduler where
  cbQ := q
  globalClock := 0
  inside := false
  job cb := ⟨cb, 0, 0, false⟩
  inserted := []
  fired := []

def insert (s : EventScheduler) (cb : ℕ) (t : ℕ) : EventScheduler :=
  let j : Job := ⟨cb, t, s.globalClock, s.inside⟩
  { s with
    cbQ := s.cbQ.insert cb t
    job := Function.update s.job cb j
    inserted := s.inserted ++ [j] }

/-- What happens: an insertion, from outside or from the callback that runs, or a turn of the loop of
`advanceClock`. -/
inductive Event where
  | schedule (delta : ℕ) (cb : ℕ)
  | scheduleAbs (tim : ℕ) (cb : ℕ)
  | nextJob
  deriving DecidableEq, Repr

def step (s : EventScheduler) : Event → Option EventScheduler
  | .schedule delta cb =>
    if s.cbQ.qType cb = .InNoQueue ∧ 0 < delta ∧ delta < 2 ^ 16 then
      some (s.insert cb (wrap64 (s.globalClock + delta)))
    else none
  | .scheduleAbs tim cb =>
    if s.cbQ.qType cb = .InNoQueue ∧ s.globalClock < tim ∧ tim < 2 ^ 64 then some (s.insert cb tim) else none
  | .nextJob =>
    (s.cbQ.nextJob s.globalClock).map fun r =>
      match r.1 with
      | some cb => { s with cbQ := r.2, inside := true, fired := s.fired ++ [(s.job cb, s.globalClock)] }
      | none => { s with cbQ := r.2, inside := false, globalClock := wrap64 (s.globalClock + 1) }

end EventScheduler

end Esesc.Suc
