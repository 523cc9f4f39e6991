import Esesc.Emul.CarryChain
import Esesc.Emul.PackedShifts
import Esesc.Lib.Microcode

/-!
# Micro-ops

The micro-ops that 16-bit Thumb instructions are cracked into, and `Sccore::execute`. The memory is that of
a `ProgramBase`, which is a program that QEMU runs or one read from a file.

* `rf_setDst`, `iccrf_setDst`: what a micro-op leaves in the registers.
* `resS32_low`, `resU32_low`, `shiftRes_low`: the lower half of a packed result.
-/

namespace Esesc.Emul

open Esesc.Lib

/-! ## Registers -/

def LREG_TMP1 : RegType := 76

def LREG_TMP2 : RegType := 77

def LREG_TMP3 : RegType := 78

def LREG_SYSMEM : RegType := 84

def LREG_TTYPE : RegType := 85

/-! ## Opcodes -/

/-- The opcodes. The conditional ones stand under `U64`. -/
inductive Scopcode
  | S32_ADD
  | S32_SUB
  | U32_ADD
  | U32_SUB
  | U64_ADD
  | U64_SUB
  | S32_SLL
  | S32_SRL
  | S64_SRL
  | S08_SRL
  | S32_SRA
  | S32_ROTR
  | S16_ROTR
  | S64_AND
  | S64_OR
  | S64_XOR
  | S64_ANDN
  | C_SMUL
  | S64_COPYICC
  | S64_GETICC
  | S64_XORICC
  | S64_COPYPCL
  | U64 (op : CondOp)
  | U64_JMP_REG
  | U32_LD_L
  | U16_LD_L
  | U08_LD
  | S16_LD_L
  | S08_LD
  | U64_ST_L
  | U32_ST_L
  | U16_ST_L
  | U08_ST
  | U32_STSC

/-- A micro-op. -/
structure Uop where
  sop : Scopcode
  inst : Scuop

/-- `CrackInst::setup`: an immediate of zero counts as none. -/
def setup (sop : Scopcode) (srcA srcB : RegType) (immA : BitVec 32) (dstA : RegType) (seticc : Bool) : Uop where
  sop := sop
  inst := { useImm := immA ≠ 0, seticc := seticc, src1 := srcA, src2 := srcB, dst := dstA, imm := immA }

/-! ## What they do -/

section

variable (inst : Scuop) (s : Scstate)

/-- The flags of `OP_U64_ADD` and `OP_U64_SUB`. -/
def iccU64 (res : BitVec 64) : CCType := calcICC (temp1 inst s) (temp2 inst s) res ||| (s.getICC LREG_ICC &&& 1)

def OP_U64_ADD : Scstate :=
  let res := temp1 inst s + temp2 inst s
  s.setDst inst res (iccU64 inst s res)

def OP_U64_SUB : Scstate :=
  let res := temp1 inst s - temp2 inst s
  s.setDst inst res (iccU64 inst s res)

/-- `OP_S64_AND`, `OP_S64_OR`, `OP_S64_XOR` and `OP_S64_ANDN`: the carry and the overflow flag stay. -/
def logicalOp (f : BitVec 64 → BitVec 64 → BitVec 64) : Scstate :=
  let res := f (temp1 inst s) (temp2 inst s)
  s.setDst inst res (calcNZ res ||| (s.getICC LREG_ICC &&& 3))

def OP_S64_AND : Scstate := logicalOp inst s fun a b => a &&& b
def OP_S64_OR : Scstate := logicalOp inst s fun a b => a ||| b
def OP_S64_XOR : Scstate := logicalOp inst s fun a b => a ^^^ b
def OP_S64_ANDN : Scstate := logicalOp inst s fun a b => a &&& ~~~b

def OP_C_SMUL : Scstate :=
  let res := temp1 inst s * temp2 inst s
  s.setDst inst res (calcNZ res)

def OP_S64_GETICC : Scstate := s.setDst inst ((s.getICC inst.src1).setWidth 64) 0

def OP_S64_XORICC : Scstate :=
  s.setDst inst (s.getReg inst.src1) (s.getICC inst.src1 ^^^ (inst.imm &&& 0xF).setWidth 8)

def OP_S64_COPYPCL : Scstate := s.setDst inst (inst.imm.signExtend 64 &&& 0xFFFFFFFF) 0

def OP_U64_JMP_REG : Scstate := { s with pc := s.getReg inst.src1, flush := true }

end

/-! ## Memory -/

/-- `ProgramBase`: loads and stores of each width, and the code. -/
structure Prog (M : Type*) where
  get_code32 : M → BitVec 32 → BitVec 32
  ldu32 : M → BitVec 32 → BitVec 32
  ldu16 : M → BitVec 32 → BitVec 16
  ldu08 : M → BitVec 32 → BitVec 8
  lds16 : M → BitVec 32 → BitVec 16
  lds08 : M → BitVec 32 → BitVec 8
  st64 : M → BitVec 32 → BitVec 64 → M
  st32 : M → BitVec 32 → BitVec 32 → M
  st16 : M → BitVec 32 → BitVec 16 → M
  st08 : M → BitVec 32 → BitVec 8 → M

/-- The core and the memory. -/
structure Sccore (M : Type*) where
  state : Scstate
  mem : M

/-- `setDst` of the state. -/
abbrev Sccore.setDst {M : Type*} (c : Sccore M) (inst : Scuop) (data : BitVec 64) (cc : CCType) : Sccore M :=
  { c with state := c.state.setDst inst data cc }

section

variable {M : Type*} (prog : Prog M) (inst : Scuop) (c : Sccore M)

/-- `temp1 = getReg(src1) & 0xFFFFFFFe`, of the accesses of a word. -/
def wordAddr : BitVec 32 := (c.state.getReg inst.src1 &&& 0xFFFFFFFE).setWidth 32

/-- `temp1 = getReg(src1) & 0xFFFFFFFF`, of the narrower ones. -/
def narrowAddr : BitVec 32 := (c.state.getReg inst.src1 &&& 0xFFFFFFFF).setWidth 32

/-- What is stored, cut to the width. -/
def stored (w : ℕ) : BitVec w := if inst.useImm then inst.imm.signExtend w else (c.state.getReg inst.src2).setWidth w

def load (res : BitVec 64) : Sccore M := c.setDst inst res 0

def OP_U32_LD_L : Sccore M := load inst c ((prog.ldu32 c.mem (wordAddr inst c)).setWidth 64)
def OP_U16_LD_L : Sccore M := load inst c ((prog.ldu16 c.mem (narrowAddr inst c)).setWidth 64)
def OP_U08_LD : Sccore M := load inst c ((prog.ldu08 c.mem (narrowAddr inst c)).setWidth 64)
def OP_S16_LD_L : Sccore M := load inst c ((prog.lds16 c.mem (narrowAddr inst c)).signExtend 64)
def OP_S08_LD : Sccore M := load inst c ((prog.lds08 c.mem (narrowAddr inst c)).signExtend 64)

def OP_U64_ST_L : Sccore M := { c with mem := prog.st64 c.mem (wordAddr inst c) (stored inst c 64) }

/-- The address of a store that is not to be made is `0xFFFFFFFF`. -/
def OP_U32_ST_L : Sccore M :=
  if wordAddr inst c ≠ 0xFFFFFFFF then { c with mem := prog.st32 c.mem (wordAddr inst c) (stored inst c 32) } else c

def OP_U16_ST_L : Sccore M := { c with mem := prog.st16 c.mem (narrowAddr inst c) (stored inst c 16) }
def OP_U08_ST : Sccore M := { c with mem := prog.st08 c.mem (narrowAddr inst c) (stored inst c 8) }

/-- A micro-op that leaves the memory alone. -/
def onState (f : Scuop → Scstate → Scstate) : Option (Sccore M) := some { c with state := f inst c.state }

/-- `Sccore::execute`. System calls are outside of the core. -/
def Scopcode.execute : Scopcode → Option (Sccore M)
  | S32_ADD => onState inst c OP_S32_ADD
  | S32_SUB => onState inst c OP_S32_SUB
  | U32_ADD => onState inst c OP_U32_ADD
  | U32_SUB => onState inst c OP_U32_SUB
  | U64_ADD => onState inst c OP_U64_ADD
  | U64_SUB => onState inst c OP_U64_SUB
  | S32_SLL => onState inst c OP_S32_SLL
  | S32_SRL => onState inst c OP_S32_SRL
  | S64_SRL => onState inst c OP_S64_SRL
  | S08_SRL => onState inst c OP_S08_SRL
  | S32_SRA => onState inst c OP_S32_SRA
  | S32_ROTR => onState inst c OP_S32_ROTR
  | S16_ROTR => onState inst c OP_S16_ROTR
  | S64_AND => onState inst c OP_S64_AND
  | S64_OR => onState inst c OP_S64_OR
  | S64_XOR => onState inst c OP_S64_XOR
  | S64_ANDN => onState inst c OP_S64_ANDN
  | C_SMUL => onState inst c OP_C_SMUL
  | S64_COPYICC => onState inst c OP_S64_COPYICC
  | S64_GETICC => onState inst c OP_S64_GETICC
  | S64_XORICC => onState inst c OP_S64_XORICC
  | S64_COPYPCL => onState inst c OP_S64_COPYPCL
  | U64 op => onState inst c fun inst s => op.execute inst s
  | U64_JMP_REG => onState inst c OP_U64_JMP_REG
  | U32_LD_L => some (OP_U32_LD_L prog inst c)
  | U16_LD_L => some (OP_U16_LD_L prog inst c)
  | U08_LD => some (OP_U08_LD prog inst c)
  | S16_LD_L => some (OP_S16_LD_L prog inst c)
  | S08_LD => some (OP_S08_LD prog inst c)
  | U64_ST_L => some (OP_U64_ST_L prog inst c)
  | U32_ST_L => some (OP_U32_ST_L prog inst c)
  | U16_ST_L => some (OP_U16_ST_L prog inst c)
  | U08_ST => some (OP_U08_ST prog inst c)
  | U32_STSC => none

/-- A flush leaves the sequence of an instruction. -/
def uops : Microcode Uop (Sccore M) where
  exec u c := u.sop.execute prog u.inst c
  left c := c.state.flush

end

/-! ## What is left in the registers -/

namespace Scstate

variable {s : Scstate} {op : Scuop} {data : BitVec 64} {cc : CCType} {r : RegType}

@[simp] theorem pc_setDst : (s.setDst op data cc).pc = s.pc := by
  unfold setDst
  split <;> split <;> rfl

@[simp] theorem flush_setDst : (s.setDst op data cc).flush = s.flush := by
  unfold setDst
  split <;> split <;> rfl

theorem rf_setDst : (s.setDst op data cc).rf r =
    if r = op.dst ∧ op.dst ≠ 0 then (if op.dst < 32 then data &&& 0xFFFFFFFF else data) else s.rf r := by
  unfold setDst
  by_cases hset : op.seticc = true <;> by_cases hdst : op.dst = 0#8 <;> by_cases hr : r = op.dst <;>
    simp [Function.update, hset, hdst, hr]

theorem iccrf_setDst : (s.setDst op data cc).iccrf r =
    if (r = op.dst ∧ op.dst ≠ 0) ∨ (r = LREG_ICC ∧ op.seticc = true) then cc else s.iccrf r := by
  unfold setDst
  by_cases hset : op.seticc = true <;> by_cases hdst : op.dst = 0#8 <;> by_cases hr : r = op.dst <;>
    simp [Function.update, hset, hdst, hr]

/-- A micro-op that does not set the flags writes its destination and nothing else. -/
theorem rf_setDst_of_ne (h : r ≠ op.dst) : (s.setDst op data cc).rf r = s.rf r := by
  rw [rf_setDst, if_neg fun hr => h hr.1]

theorem iccrf_setDst_of_ne (h : r ≠ op.dst) (hset : op.seticc = false) : (s.setDst op data cc).iccrf r = s.iccrf r := by
  rw [iccrf_setDst, if_neg (by simp [h, hset])]

end Scstate

/-! ## The lower half -/

section

variable (o : Arith) (sh : Shift) (inst : Scuop) (s : Scstate)

/-- The lower half of the first operand. -/
def arg1 : BitVec 32 := (s.rf inst.src1).setWidth 32

/-- The lower half of the second operand. -/
def arg2 : BitVec 32 := if inst.useImm then inst.imm else (s.rf inst.src2).setWidth 32

theorem first_low : inst.first s 32 0 = arg1 inst s := by
  unfold Scuop.first arg1 Scstate.getReg
  rw [BitVec.ushiftRight_zero]

theorem second_low : inst.second s 32 0 = arg2 inst s := by
  unfold Scuop.second arg2 Scstate.getReg
  rw [BitVec.ushiftRight_zero, BitVec.setWidth_eq]

theorem lane_low (x : BitVec 64) : lane 32 x 0 = x.setWidth 32 := by
  unfold lane
  rw [Nat.mul_zero, BitVec.ushiftRight_zero]

/-- The sum or difference of the lower halves. -/
theorem laneRes_low : laneRes o inst s 32 0 = o.ap (arg1 inst s) (arg2 inst s) := by
  unfold laneRes
  rw [← first_eq, ← second_eq, Nat.mul_zero, first_low, second_low]

theorem resS32_low : (resS32 o inst s).setWidth 32 = o.ap (arg1 inst s) (arg2 inst s) := by
  rw [← lane_low, lane_resS32 o inst s (by decide), if_pos rfl, laneRes_low]

theorem resU32_low : (resU32 o inst s).setWidth 32 = o.ap (arg1 inst s) (arg2 inst s) := by
  rw [← lane_low, lane_resU32 o inst s (by decide), laneRes_low]

theorem operand_low : inst.operand s 32 0 = arg2 inst s := by
  unfold Scuop.operand arg2
  rw [lane_low, BitVec.signExtend_eq]
  rfl

theorem shiftRes_low : (shiftRes sh .S32 inst s).setWidth 32 = sh.assigned .S32 (arg1 inst s) (arg2 inst s) := by
  have hlane : shiftLane sh .S32 inst s 0 = sh.assigned .S32 (arg1 inst s) (arg2 inst s) := by
    show sh.assigned .S32 (lane 32 (s.getReg inst.src1) 0) (inst.operand s 32 0) = _
    rw [lane_low, operand_low]
    rfl
  rw [← lane_low, ← hlane]
  by_cases hsh : sh = .SRL
  · subst hsh
    exact lane_joinU (shiftLane .SRL .S32 inst s) (show 32 * 0 + 32 ≤ 64 by decide) (show 0 < 2 by decide)
  · rw [shiftRes_signed sh .S32 inst s fun h => hsh h.1]
    exact lane_joinS (shiftLane sh .S32 inst s) (k := 2) (show 32 * 0 + 32 ≤ 64 by decide)

end

end Esesc.Emul
