import Esesc.Core.Instruction
import Mathlib.Data.Fin.Basic
import Mathlib.Data.List.Basic
import Mathlib.Logic.Function.Basic

/-!
# In-flight instructions and the dependence window

The part of a core that both processors share: the instructions between rename and
execution, the register alias table, and the window that issues an instruction once the
ones it depends on have executed.

A `DInst *` is the position of the instruction in rename order. An instruction that was
recycled is another instruction, with another position; a pointer that outlived its
instruction may so name any position, also one that is not renamed yet.
-/

namespace Esesc.Core

inductive StallCause where
  | NoStall | SmallWinStall | SmallROBStall | SmallREGStall | OutsLoadsStall | OutsStoresStall
  | OutsBranchesStall | ReplaysStall | SyscallStall | MaxStall | Suspend
  deriving DecidableEq, Repr

/-- What comes out of fetch. -/
structure Fetched where
  inst : Instruction
  pc : Nat
  ID : Nat
  deriving DecidableEq, Repr

/-- The callback that is scheduled for an issued instruction. -/
inductive Callback where
  | select | executing | executed
  deriving DecidableEq, Repr

/-- A node of a dependence list: the instruction that waits and its pend slot. -/
abbrev DInstNext := Nat × Fin 3

/-- The pend slot of a source. -/
def srcSlot (k : Bool) : Fin 3 := bif k then 1 else 0

structure DInst where
  inst : Instruction
  pc : Nat
  ID : Nat
  /-- `pend[k].isUsed` -/
  pend : Fin 3 → Bool
  nDeps : Nat
  /-- the list from `first` to `last` -/
  first : List DInstNext
  RAT1Entry : Option RegType
  RAT2Entry : Option RegType
  serializeEntry : Option RegType
  issued : Bool
  executed : Bool
  cb : Option Callback
  /-- Not in the code: the instruction had dependences when it entered the window. -/
  waited : Bool

namespace DInst

/-- `setup`, on what was fetched. -/
def setup (f : Fetched) (first : List DInstNext) : DInst where
  inst := f.inst
  pc := f.pc
  ID := f.ID
  pend _ := false
  nDeps := 0
  first := first
  RAT1Entry := none
  RAT2Entry := none
  serializeEntry := none
  issued := false
  executed := false
  cb := none
  waited := false

def isSrc2Ready (d : DInst) : Bool := !d.pend 1
def isSrc3Ready (d : DInst) : Bool := !d.pend 2
def hasDeps (d : DInst) : Bool := d.nDeps != 0

/-- The number of pend slots in use. -/
def used (d : DInst) : Nat := (d.pend 0).toNat + (d.pend 1).toNat + (d.pend 2).toNat

end DInst

/-- The instructions of a core, in rename order, and its alias tables. -/
structure InFlight where
  insts : Nat → DInst
  n : Nat
  RAT : RegType → Option Nat
  serializeRAT : RegType → Option Nat

namespace InFlight

/-- What lies at the positions that are not renamed yet. -/
def nop : Fetched := ⟨⟨.iOpInvalid, 0, 0, 0, 0⟩, 0, 0⟩

def empty : InFlight where
  insts _ := DInst.setup nop []
  n := 0
  RAT _ := none
  serializeRAT _ := none

def modify (s : InFlight) (i : Nat) (f : DInst → DInst) : InFlight :=
  { s with insts := Function.update s.insts i (f (s.insts i)) }

/-- The fetched instruction takes the next position. -/
def rename (s : InFlight) (f : Fetched) : InFlight :=
  { s with insts := Function.update s.insts s.n (DInst.setup f (s.insts s.n).first), n := s.n + 1 }

/-! ## Dependence lists -/

/-- `p->addSrc1(d)`, `p->addSrc2(d)`, `p->addSrc3(d)`: the node of the slot goes to the end of the
list of `p`. -/
def addSrc (k : Fin 3) (s : InFlight) (p d : Nat) : InFlight :=
  (s.modify d fun x => { x with nDeps := x.nDeps + 1, pend := Function.update x.pend k true }).modify p
    fun x => { x with first := x.first ++ [(d, k)] }

def addSrc1 : InFlight → Nat → Nat → InFlight := addSrc 0
def addSrc2 : InFlight → Nat → Nat → InFlight := addSrc 1
def addSrc3 : InFlight → Nat → Nat → InFlight := addSrc 2

/-- `if (entry) entry->addSrc(d)`. -/
def addSrcIf (k : Fin 3) (s : InFlight) (p : Option Nat) (d : Nat) : InFlight :=
  match p with
  | none => s
  | some p => s.addSrc k p d

abbrev addSrc1If (s : InFlight) (p : Option Nat) (d : Nat) : InFlight := s.addSrcIf 0 p d
abbrev addSrc2If (s : InFlight) (p : Option Nat) (d : Nat) : InFlight := s.addSrcIf 1 p d
abbrev addSrc3If (s : InFlight) (p : Option Nat) (d : Nat) : InFlight := s.addSrcIf 2 p d

def getNextPending (s : InFlight) (p : Nat) : Option (Nat × InFlight) :=
  match (s.insts p).first with
  | [] => none
  | (d, k) :: rest =>
    some (d, (s.modify d fun x => { x with nDeps := x.nDeps - 1, pend := Function.update x.pend k false }).modify p
      fun x => { x with first := rest })

/-! ## The alias tables -/

def clearEntry (rat : RegType → Option Nat) (entry : Option RegType) (i : Nat) : RegType → Option Nat :=
  match entry with
  | none => rat
  | some r => if rat r = some i then Function.update rat r none else rat

def clearRATEntry (s : InFlight) (i : Nat) : InFlight :=
  { s with
    RAT := clearEntry (clearEntry s.RAT (s.insts i).RAT1Entry i) (s.insts i).RAT2Entry i
    serializeRAT := clearEntry s.serializeRAT (s.insts i).serializeEntry i }

def setRATEntries (s : InFlight) (i : Nat) : InFlight :=
  s.modify i fun x => { x with RAT1Entry := some x.inst.dst1, RAT2Entry := some x.inst.dst2 }

/-- `RAT[inst->getDst1()] = dinst; RAT[inst->getDst2()] = dinst`. -/
def setRAT (s : InFlight) (i : Nat) : InFlight :=
  { s with RAT := Function.update (Function.update s.RAT (s.insts i).inst.dst1 (some i)) (s.insts i).inst.dst2 (some i) }

end InFlight

/-! ## The window -/

namespace DepWindow

/-- The instruction is issued: it leaves the alias tables and its `select` is scheduled. -/
def preSelect (s : InFlight) (i : Nat) : InFlight :=
  (s.modify i fun x => { x with issued := true, cb := some .select }).clearRATEntry i

def addInst (s : InFlight) (i : Nat) : InFlight :=
  if (s.insts i).hasDeps then s.modify i fun x => { x with waited := true } else preSelect s i

def wakeUpDeps (s : InFlight) (i : Nat) : InFlight := s.clearRATEntry i

def select (s : InFlight) (i : Nat) : InFlight := s.modify i fun x => { x with cb := some .executing }

/-- The loop of `executed`: while `p` has pending instructions, the first is taken off the list
and issued if that was its last dependence. A turn puts nothing on the list, so there are as many
turns as it has entries. -/
def wakeAll (p : Nat) : Nat → InFlight → InFlight
  | 0, s => s
  | fuel + 1, s =>
    match s.getNextPending p with
    | none => s
    | some (d, s) => wakeAll p fuel (if (s.insts d).hasDeps then s else preSelect s d)

def executed (s : InFlight) (i : Nat) : InFlight :=
  wakeAll i ((s.clearRATEntry i).insts i).first.length (s.clearRATEntry i)

end DepWindow

namespace Resource

/-- `executing`, whatever the unit: it schedules the end of the execution, if it is not at once. -/
def executing (s : InFlight) (i : Nat) : InFlight :=
  (DepWindow.wakeUpDeps s i).modify i fun x => { x with cb := some .executed }

def executed (s : InFlight) (i : Nat) : InFlight :=
  DepWindow.executed (s.modify i fun x => { x with executed := true, cb := none }) i

end Resource

/-- The callback scheduled for the instruction runs. -/
def InFlight.fire (s : InFlight) (i : Nat) : Option InFlight :=
  match (s.insts i).cb with
  | none => none
  | some .select => some (DepWindow.select s i)
  | some .executing => some (Resource.executing s i)
  | some .executed => some (Resource.executed s i)

/-- The youngest of the first `i` instructions that writes the register. -/
def lastWriter (s : InFlight) (r : RegType) : Nat → Option Nat
  | 0 => none
  | i + 1 => if (s.insts i).inst.writes r then some i else lastWriter s r i

end Esesc.Core
