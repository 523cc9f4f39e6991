import Esesc.Core.DepWindow
import Esesc.Lib.Machine

/-!
# The out-of-order core, from rename to retirement

`addInst` renames an instruction: it links the instruction behind the ones that the alias
table names for its sources, lets it into the window, and enters it in the table under its
destinations. What the clusters and the store set answer is an input: the stall that
`canIssue` gives, and the last fetched instruction of the store set, behind which the new
one is linked as well. The replays decide when memory instructions are serialized, which
links them behind each other.
-/

namespace Esesc.Core

open Esesc.Lib

structure OoOConfig where
  MaxROBSize : Nat
  scooreMemory : Bool
  NoMemoryReplay : Bool
  serialize : Nat

def forwardProg_threshold : Nat := 200

/-- What the dynamic serialization of memory instructions keeps. -/
structure Serial where
  serialize_level : Nat
  serialize_for : Nat
  last_serialized : Option Nat
  last_serializedST : Option Nat
  last_serializeLogical : RegType
  last_serializePC : Nat

structure OoO where
  core : InFlight
  ROB : List Nat
  rROB : List Nat
  serial : Serial
  replayRecovering : Bool
  replayID : Nat
  lastReplay : Nat

namespace OoO

/-- After the constructor, which leaves `last_serializeLogical` and `last_serializePC` as they are. -/
def init (logical : RegType) (pc : Nat) : OoO where
  core := .empty
  ROB := []
  rROB := []
  serial := ⟨2, 0, none, none, logical, pc⟩
  replayRecovering := false
  replayID := 0
  lastReplay := 0

/-! ## Serialization -/

/-- `if (last && !done(last)) last->addSrc3(dinst)`. -/
def linkLast (done : DInst → Bool) (s : InFlight) (last : Option Nat) (i : Nat) : InFlight :=
  match last with
  | none => s
  | some p => if done (s.insts p) then s else s.addSrc3 p i

/-- All the memory operations, in order (`tradcore`, and level 0 of `scooreMemory`). -/
def serializeAll (done : DInst → Bool) (s : InFlight) (z : Serial) (i : Nat) : InFlight × Serial :=
  if (s.insts i).inst.isMemory && (s.insts i).isSrc3Ready then
    (linkLast done s z.last_serialized i, { z with last_serialized := some i })
  else (s, z)

/-- Stores, and loads behind stores (level 1). -/
def serializeStores (s : InFlight) (z : Serial) (i : Nat) : InFlight × Serial :=
  if (s.insts i).inst.isLoad && (s.insts i).isSrc3Ready then
    (linkLast DInst.issued s z.last_serializedST i, { z with last_serialized := some i })
  else if (s.insts i).inst.isStore && (s.insts i).isSrc3Ready then
    (linkLast DInst.issued s z.last_serialized i, { z with last_serializedST := some i })
  else (s, z)

/-- The register that the instruction is serialized on (levels 2 and up). -/
def serialLogical (s : InFlight) (z : Serial) (i : Nat) : RegType :=
  if (s.insts i).inst.src1 < LREG_ARCH0 then (s.insts i).inst.src1
  else if z.last_serializePC ≠ (s.insts i).pc then LREG_InvalidOutput
  else z.last_serializeLogical

/-- `if (serializeRAT[r]) ... serializeRAT[r]->addSrc3(dinst)`: a load only behind a store. -/
def linkSame (s : InFlight) (r : RegType) (i : Nat) : InFlight :=
  match s.serializeRAT r with
  | none => s
  | some p => if (s.insts i).inst.isLoad && !(s.insts p).inst.isStore then s else s.addSrc3 p i

def setSerializeEntry (s : InFlight) (r : RegType) (i : Nat) : InFlight :=
  { s.modify i fun x => { x with serializeEntry := some r } with
    serializeRAT := Function.update s.serializeRAT r (some i) }

def clearSerialize (s : InFlight) (i : Nat) : InFlight :=
  { s with serializeRAT :=
      Function.update (Function.update s.serializeRAT (s.insts i).inst.dst1 none) (s.insts i).inst.dst2 none }

def serializeSame (s : InFlight) (z : Serial) (i : Nat) : InFlight × Serial :=
  let r := serialLogical s z i
  let z := { z with last_serializeLogical := r, last_serializePC := (s.insts i).pc }
  if r < LREG_ARCH0 then
    if (s.insts i).inst.isMemory then (setSerializeEntry (linkSame s r i) r i, z)
    else (clearSerialize s i, z)
  else (s, z)

def serialize (k : OoOConfig) (recovering : Bool) (s : InFlight) (z : Serial) (i : Nat) : InFlight × Serial :=
  if 0 < z.serialize_for ∧ recovering = false then
    let z := { z with serialize_for := z.serialize_for - 1 }
    if !k.scooreMemory then serializeAll DInst.executed s z i
    else if z.serialize_level = 0 then serializeAll DInst.issued s z i
    else if z.serialize_level = 1 then serializeStores s z i
    else serializeSame s z i
  else (s, z)

/-! ## Rename -/

/-- `StoreSet::insert`, called by `canIssue` of the units that are not `SCOORE` ones: the instruction goes
behind the last one fetched of its store set. -/
def storeSetInsert (k : OoOConfig) (s : InFlight) (lfs : Option Nat) (i : Nat) : InFlight :=
  if k.scooreMemory then s else s.addSrc3If lfs i

def link (s : InFlight) (i : Nat) : InFlight :=
  if !(s.insts i).isSrc2Ready then s.addSrc1If (s.RAT (s.insts i).inst.src1) i
  else
    (s.addSrc1If (s.RAT (s.insts i).inst.src1) i).addSrc2If (s.RAT (s.insts i).inst.src2) i

/-- The insertion of an instruction that does not stall, from the store set to the alias table. -/
def insert (k : OoOConfig) (o : OoO) (f : Fetched) (lfs : Option Nat) : OoO :=
  let i := o.core.n
  let s := storeSetInsert k (o.core.rename f) lfs i
  let (s, z) := serialize k o.replayRecovering s o.serial i
  let s := (link s i).setRATEntries i
  { o with core := (DepWindow.addInst s i).setRAT i, serial := z, ROB := o.ROB ++ [i] }

/-- `sc` and `lfs` are what the cluster and the store set answer. -/
def addInst (k : OoOConfig) (o : OoO) (f : Fetched) (sc : StallCause) (lfs : Option Nat) : StallCause × OoO :=
  if o.replayRecovering = true ∧ o.replayID < f.ID then (.ReplaysStall, o)
  else if k.MaxROBSize ≤ o.ROB.length + o.rROB.length then (.SmallROBStall, o)
  else if sc ≠ .NoStall then (sc, o)
  else (.NoStall, insert k o f lfs)

/-! ## Replay and retirement -/

def replay (k : OoOConfig) (o : OoO) (target : Nat) : OoO :=
  if o.serial.serialize_for ≠ 0 ∨ k.NoMemoryReplay = true then o
  else { o with replayRecovering := true, replayID := max o.replayID (o.core.insts target).ID }

/-- The end of a recovery, in `execute`. -/
def recover (k : OoOConfig) (o : OoO) : OoO :=
  let level := if o.lastReplay + 2 * forwardProg_threshold < o.replayID then 3 else o.serial.serialize_level
  let z := { o.serial with serialize_level := level }
  let z := if o.replayID < o.lastReplay + forwardProg_threshold then
      { z with serialize_level := level - 1, serialize_for := k.serialize } else z
  { o with serial := z, replayRecovering := false, lastReplay := o.replayID }

def forget (last : Option Nat) (i : Nat) : Option Nat := if last = some i then none else last

/-- What can happen to the core. `preretire` and `retire` are one turn of the loops of the source, with a
resource that is done. -/
inductive Event where
  | addInst (f : Fetched) (sc : StallCause) (lfs : Option Nat)
  | fire (i : Nat)
  | replay (target : Nat)
  | recover
  | preretire
  | retire

def step (k : OoOConfig) (o : OoO) : Event → Option OoO
  | .addInst f sc lfs => some (addInst k o f sc lfs).2
  | .fire i => (o.core.fire i).map fun s => { o with core := s }
  | .replay target => some (replay k o target)
  | .recover => if o.replayRecovering = true ∧ o.ROB = [] ∧ o.rROB = [] then some (recover k o) else none
  | .preretire =>
    match o.ROB with
    | [] => none
    | i :: rest => if (o.core.insts i).executed then some { o with ROB := rest, rROB := o.rROB ++ [i] } else none
  | .retire =>
    match o.rROB with
    | [] => none
    | i :: rest =>
      if (o.core.insts i).executed then
        some { o with
          rROB := rest
          serial := { o.serial with
            last_serialized := forget o.serial.last_serialized i
            last_serializedST := forget o.serial.last_serializedST i } }
      else none

end OoO

end Esesc.Core
