import Mathlib.Data.Finset.Card
import Mathlib.Data.List.Range
import Esesc.Core.Instruction

/-!
# Instruction fusion

`MegaOpCluster::fuzion` of the `ESESC_FUZE` build makes the pending mega-ops of a bucket, one for
each instruction, into ready mega-ops. It takes a control code: baseline, naive in-order, queue or
dynamic. In the last two, loads, stores and floating-point operations wait in lists of their own.

An instruction of a mega-op is its place among the pending ones.
-/

namespace Esesc.Core

open scoped List

abbrev RegSet := Finset RegType

def LREG_INVALID : RegType := 1716
def LREG_MAX : RegType := 1718

/-- What `MegaOp` reads of a `DInst` and its instruction. -/
structure FuzeInst where
  opcode : InstOpcode
  hasImm : Bool
  pc : ℕ
  srcs : List RegType
  dsts : List RegType
  deriving DecidableEq, Repr

structure MegaOp where
  numImm : ℕ
  opcode : InstOpcode
  instrs : List ℕ
  pcs : Finset ℕ
  srcs : RegSet
  dsts : RegSet
  deriving DecidableEq

def filterInvalidRegs (s : RegSet) : RegSet := s.filter fun r => r ≠ 0 ∧ ¬(LREG_INVALID ≤ r ∧ r ≤ LREG_MAX)

namespace MegaOp

/-- `MegaOp(InstOpcode)`. -/
def empty (type : InstOpcode) : MegaOp := ⟨0, type, [], ∅, ∅, ∅⟩

/-- `MegaOp(DInst)`, for the instruction at place `i`. -/
def ofDInst (i : ℕ) (d : FuzeInst) : MegaOp where
  numImm := if d.hasImm then 1 else 0
  opcode := d.opcode
  instrs := [i]
  pcs := {d.pc}
  srcs := filterInvalidRegs d.srcs.toFinset
  dsts := filterInvalidRegs d.dsts.toFinset

def addMegaOp (op newOp : MegaOp) : MegaOp :=
  { op with
    numImm := op.numImm + newOp.numImm
    instrs := op.instrs ++ newOp.instrs
    pcs := op.pcs ∪ newOp.pcs
    srcs := op.srcs ∪ (newOp.srcs \ op.dsts)
    dsts := op.dsts ∪ newOp.dsts }

def matchSrcs (op : MegaOp) (inSet : RegSet) : Bool := (op.srcs ∩ inSet).card ≠ 0
def matchDsts (op : MegaOp) (inSet : RegSet) : Bool := (op.dsts ∩ inSet).card ≠ 0

def merge (list : List MegaOp) : MegaOp := list.foldl addMegaOp (.empty .iAALU)

end MegaOp

/-- The four groups of opcodes that `fuzion` tells apart. -/
inductive FuzeClass
  | alu
  | load
  | store
  | fpu
  deriving DecidableEq

/-- The group of an opcode. The others are for its `default` case. -/
def fuzeClass : InstOpcode → Option FuzeClass
  | .iAALU | .iSALU_ADDR | .iBALU_LBRANCH | .iBALU_RBRANCH | .iBALU_LJUMP | .iBALU_RJUMP | .iBALU_LCALL
  | .iBALU_RCALL | .iBALU_RET => some .alu
  | .iLALU_LD => some .load
  | .iSALU_ST | .iSALU_LL | .iSALU_SC => some .store
  | .iCALU_FPMULT | .iCALU_FPDIV | .iCALU_FPALU | .iCALU_MULT | .iCALU_DIV => some .fpu
  | _ => none

/-- Control codes. -/
inductive FuzeControl
  | B
  | N
  | Q
  | D
  deriving DecidableEq

structure MegaOpCluster where
  pendingFusions : List MegaOp
  pendingLoads : List MegaOp
  pendingStores : List MegaOp
  pendingFPUs : List MegaOp
  readyMegaOps : List MegaOp
  ldq_regs : RegSet
  stq_regs : RegSet
  fpq_regs : RegSet
  deriving DecidableEq

namespace MegaOpCluster

def clear : MegaOpCluster := ⟨[], [], [], [], [], ∅, ∅, ∅⟩

/-- `case 'B'`. -/
def baseline (c : MegaOpCluster) (op : MegaOp) : MegaOpCluster :=
  { c with readyMegaOps := c.readyMegaOps ++ [op] }

/-- The instruction joins the first of the pending fusions, or begins one. -/
def fuse (c : MegaOpCluster) (op : MegaOp) : MegaOpCluster :=
  match c.pendingFusions with
  | [] => { c with pendingFusions := [op] }
  | f :: fs => { c with pendingFusions := f.addMegaOp op :: fs }

/-- `case 'N'`. -/
def naive (c : MegaOpCluster) (op : MegaOp) : MegaOpCluster :=
  if fuzeClass op.opcode = some .alu then c.fuse op
  else match c.pendingFusions with
    | [] => { c with readyMegaOps := c.readyMegaOps ++ [op] }
    | f :: _ => { c with readyMegaOps := c.readyMegaOps ++ [f] ++ [op], pendingFusions := [] }

/-- The registers that the new instruction reads are those of a pending load. The queue mode goes on
with a new, empty fusion, the dynamic mode with none. -/
def drainLoads (fresh : List MegaOp) (c : MegaOpCluster) (op : MegaOp) : MegaOpCluster :=
  if op.matchSrcs c.ldq_regs then
    { c with
      readyMegaOps := c.readyMegaOps ++ c.pendingFusions ++ c.pendingLoads
      pendingFusions := fresh
      pendingLoads := []
      ldq_regs := ∅ }
  else c

def drainStores (fresh : List MegaOp) (c : MegaOpCluster) (op : MegaOp) : MegaOpCluster :=
  if op.matchDsts c.stq_regs then
    { c with
      readyMegaOps := c.readyMegaOps ++ c.pendingFusions ++ c.pendingStores
      pendingFusions := fresh
      pendingStores := []
      stq_regs := ∅ }
  else c

def drainFPUs (fresh : List MegaOp) (c : MegaOpCluster) (op : MegaOp) : MegaOpCluster :=
  if op.matchSrcs c.fpq_regs || op.matchDsts c.fpq_regs then
    { c with
      readyMegaOps := c.readyMegaOps ++ c.pendingFusions ++ c.pendingFPUs
      pendingFusions := fresh
      pendingFPUs := []
      fpq_regs := ∅ }
  else c

def drains (fresh : List MegaOp) (c : MegaOpCluster) (op : MegaOp) : MegaOpCluster :=
  ((c.drainLoads fresh op).drainStores fresh op).drainFPUs fresh op

/-- The cases of the queue and dynamic modes for what is not fused. An opcode that no group has is
dropped. -/
def enqueue (c : MegaOpCluster) (op : MegaOp) : MegaOpCluster :=
  match fuzeClass op.opcode with
  | some .load => { c with pendingLoads := c.pendingLoads ++ [op], ldq_regs := c.ldq_regs ∪ op.dsts }
  | some .store => { c with pendingStores := c.pendingStores ++ [op], stq_regs := c.stq_regs ∪ op.srcs }
  | some .fpu => { c with pendingFPUs := c.pendingFPUs ++ [op], fpq_regs := c.fpq_regs ∪ op.srcs ∪ op.dsts }
  | _ => c

/-- `case 'Q'`. -/
def queue (c : MegaOpCluster) (op : MegaOp) : MegaOpCluster :=
  if fuzeClass op.opcode = some .alu then (c.drains [.empty .iAALU] op).fuse op else c.enqueue op

/-- The test of the dynamic mode on one of the pending fusions. -/
def clashes (op f : MegaOp) : Bool := op.matchSrcs f.srcs || op.matchDsts f.dsts || op.matchSrcs f.dsts

/-- The loop of the dynamic mode over the pending fusions: those taken out and those left. The
iterator that `erase` returns is incremented, so that the fusion behind one taken out is not looked
at; when there is none, `end()` is incremented, and the program has no defined behaviour. -/
def takeClashes (op : MegaOp) : List MegaOp → Option (List MegaOp × List MegaOp)
  | [] => some ([], [])
  | [f] => if clashes op f then none else some ([], [f])
  | f :: g :: fs =>
    if clashes op f then (takeClashes op fs).map fun r => (f :: r.1, g :: r.2)
    else (takeClashes op (g :: fs)).map fun r => (r.1, f :: r.2)

/-- `case 'D'`. -/
def dynamic (c : MegaOpCluster) (op : MegaOp) : Option MegaOpCluster :=
  if fuzeClass op.opcode = some .alu then
    let c := c.drains [] op
    (takeClashes op c.pendingFusions).map fun r =>
      { c with pendingFusions := r.2 ++ [.merge (r.1 ++ [op])] }
  else some (c.enqueue op)

/-- The end of `fuzion`. -/
def finish (c : MegaOpCluster) : List MegaOp :=
  c.readyMegaOps ++ c.pendingFusions ++ c.pendingLoads ++ c.pendingStores ++ c.pendingFPUs

/-- The ready mega-ops, when the program has a defined behaviour. -/
def fuzion (pendingMegaOps : List MegaOp) : FuzeControl → Option (List MegaOp)
  | .B => some (pendingMegaOps.foldl baseline clear).finish
  | .N => some (pendingMegaOps.foldl naive clear).finish
  | .Q => some (pendingMegaOps.foldl queue clear).finish
  | .D => (pendingMegaOps.foldlM dynamic clear).map finish

end MegaOpCluster

/-! ## What fusion is to preserve -/

/-- The instruction at a place. -/
def fuzeInst (ds : List FuzeInst) (i : ℕ) : FuzeInst := ds.getD i ⟨.iOpInvalid, false, 0, [], []⟩

/-- Its mega-op. -/
def megaOp (ds : List FuzeInst) (i : ℕ) : MegaOp := .ofDInst i (fuzeInst ds i)

def pendingMegaOps (ds : List FuzeInst) : List MegaOp := (List.range ds.length).map (megaOp ds)

/-- The instructions of some mega-ops, in order. -/
def instrsOf (ops : List MegaOp) : List ℕ := ops.flatMap MegaOp.instrs

/-- The later instruction `j` reads what `i` writes, writes what it reads or writes what it writes. -/
def Dependent (ds : List FuzeInst) (i j : ℕ) : Prop :=
  (megaOp ds j).matchSrcs (megaOp ds i).dsts ∨ (megaOp ds j).matchDsts (megaOp ds i).srcs ∨
    (megaOp ds j).matchDsts (megaOp ds i).dsts

instance (ds : List FuzeInst) (i j : ℕ) : Decidable (Dependent ds i j) := by
  unfold Dependent
  infer_instance

/-- Every pending instruction is ready once, and behind those before it that it depends on. -/
def KeepsOrder (ds : List FuzeInst) (order : List ℕ) : Prop :=
  order.Perm (List.range ds.length) ∧
    ∀ j < ds.length, ∀ i < j, Dependent ds i j → List.Sublist [i, j] order

instance (ds : List FuzeInst) (order : List ℕ) : Decidable (KeepsOrder ds order) := by
  unfold KeepsOrder
  infer_instance

/-- **Fusion preserves the program**: it has a defined result, with every instruction in it once and
dependent ones in order. -/
def Preserves (control : FuzeControl) (ds : List FuzeInst) : Prop :=
  ∃ ready ∈ MegaOpCluster.fuzion (pendingMegaOps ds) control, KeepsOrder ds (instrsOf ready)

instance (control : FuzeControl) (ds : List FuzeInst) : Decidable (Preserves control ds) := by
  unfold Preserves
  infer_instance

/-! ## Matches -/

variable {op : MegaOp}

theorem card_inter_iff {s t : RegSet} : decide ((s ∩ t).card ≠ 0) = true ↔ ∃ r ∈ s, r ∈ t := by
  rw [decide_eq_true_iff, ← Nat.pos_iff_ne_zero, Finset.card_pos]
  constructor
  · rintro ⟨r, hr⟩
    obtain ⟨hs, ht⟩ := Finset.mem_inter.1 hr
    exact ⟨r, hs, ht⟩
  · rintro ⟨r, hs, ht⟩
    exact ⟨r, Finset.mem_inter.2 ⟨hs, ht⟩⟩

theorem matchSrcs_iff {s : RegSet} : op.matchSrcs s = true ↔ ∃ r ∈ op.srcs, r ∈ s := card_inter_iff

theorem matchDsts_iff {s : RegSet} : op.matchDsts s = true ↔ ∃ r ∈ op.dsts, r ∈ s := card_inter_iff

end Esesc.Core
