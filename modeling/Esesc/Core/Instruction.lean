import Mathlib.Data.Nat.Notation

/-!
# Micro-operations

`InstOpcode` and `Instruction` of `libcrack`: the kinds of micro-operation an instruction
cracks into, its registers, and the tests that the reader, the predictors and the cores make
on them.
-/

namespace Esesc.Core

/-- Logical registers, by their number in the enumeration of the source. -/
abbrev RegType := Nat

def LREG_NoDependence : RegType := 0
def LREG_ARCH0 : RegType := 65
def LREG_InvalidOutput : RegType := 1717

inductive InstOpcode where
  | iOpInvalid | iRALU | iAALU
  | iBALU_LBRANCH | iBALU_RBRANCH | iBALU_LJUMP | iBALU_RJUMP | iBALU_LCALL | iBALU_RCALL | iBALU_RET
  | iLALU_LD
  | iSALU_ST | iSALU_LL | iSALU_SC | iSALU_ADDR
  | iCALU_FPMULT | iCALU_FPDIV | iCALU_FPALU | iCALU_MULT | iCALU_DIV
  | iFUZE
  deriving DecidableEq, Repr

structure Instruction where
  opcode : InstOpcode
  src1 : RegType
  src2 : RegType
  dst1 : RegType
  dst2 : RegType
  deriving DecidableEq, Repr

namespace Instruction

def isLoad (inst : Instruction) : Bool := inst.opcode == .iLALU_LD
def isStore (inst : Instruction) : Bool := inst.opcode == .iSALU_ST
def isMemory (inst : Instruction) : Bool := inst.opcode == .iSALU_ST || inst.opcode == .iLALU_LD
def isFuncCall (inst : Instruction) : Bool := inst.opcode == .iBALU_RCALL || inst.opcode == .iBALU_LCALL
def isFuncRet (inst : Instruction) : Bool := inst.opcode == .iBALU_RET

/-- Unconditional control flow other than returns. -/
def isJump (inst : Instruction) : Bool :=
  inst.opcode == .iBALU_RJUMP || inst.opcode == .iBALU_LJUMP || inst.isFuncCall

/-- The opcodes from `iBALU_LBRANCH` to `iBALU_RET`. -/
def isControl (inst : Instruction) : Bool :=
  match inst.opcode with
  | .iBALU_LBRANCH | .iBALU_RBRANCH | .iBALU_LJUMP | .iBALU_RJUMP | .iBALU_LCALL | .iBALU_RCALL
  | .iBALU_RET => true
  | _ => false

def isStoreAddress (inst : Instruction) : Bool := inst.opcode == .iSALU_ADDR

def hasDstRegister (inst : Instruction) : Bool := inst.dst1 != LREG_InvalidOutput || inst.dst2 != LREG_InvalidOutput
def hasSrc1Register (inst : Instruction) : Bool := inst.src1 != LREG_NoDependence
def hasSrc2Register (inst : Instruction) : Bool := inst.src2 != LREG_NoDependence

/-- The register is a destination of the instruction. -/
def writes (inst : Instruction) (r : RegType) : Bool := inst.dst1 == r || inst.dst2 == r

/-- The source register of the first or of the second pend slot. -/
def src (inst : Instruction) (k : Bool) : RegType := bif k then inst.src2 else inst.src1

end Instruction

end Esesc.Core
