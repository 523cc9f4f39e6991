import Mathlib.Data.Fin.VecNotation
import Esesc.Emul.Microops

/-!
# Cracking 16-bit Thumb instructions

`ThumbCrack::thumb16expand`. The conditions of an IT block are kept in `itblockVector`, whose back is the
condition of the next instruction. An instruction in such a block writes a temporary register and then
moves it under its condition; the ones that access the memory are skipped by a branch under the opposite
condition.

A sequence is `none` in the first argument when it is not conditional (`AL`). The condition 15 has no entry
in the tables.
-/

namespace Esesc.Emul

/-! ## Tables -/

/-- A condition that is not `AL`. -/
abbrev CondCode := Fin 14

/-- The conditions of the opcodes in `cmoveArray`. -/
def cmoveArray : CondCode → Cond :=
  ![.E, .NE, .CS, .CC, .NEG, .POS, .VS, .VC, .C_AND_NOTZ, .NOTC_OR_Z, .GE, .L, .G, .LE]

def negCmoveArray : CondCode → Cond :=
  ![.NE, .E, .CC, .CS, .POS, .NEG, .VC, .VS, .NOTC_OR_Z, .C_AND_NOTZ, .L, .GE, .LE, .G]

def rbranchArray : CondCode → Cond :=
  ![.E, .NE, .CS, .CC, .NEG, .POS, .VS, .VC, .C_AND_NOTZ, .NOTC_OR_Z, .GE, .L, .G, .LE]

/-- The tenth entry is the ninth again. -/
def negrbranchArray : CondCode → Cond :=
  ![.NE, .E, .CC, .CS, .POS, .NEG, .VC, .VS, .NOTC_OR_Z, .NOTC_OR_Z, .L, .GE, .LE, .G]

def caddArray : CondCode → Cond :=
  ![.E, .NE, .CS, .CC, .NEG, .POS, .VS, .VC, .C_AND_NOTZ, .NOTC_OR_Z, .GE, .L, .G, .LE]

theorem cmoveArray_ne : ∀ c, cmoveArray c ≠ .C_OR_Z_NOT ∧ cmoveArray c ≠ .C_OR_Z := by decide

theorem negCmoveArray_ne : ∀ c, negCmoveArray c ≠ .C_OR_Z_NOT ∧ negCmoveArray c ≠ .C_OR_Z := by decide

theorem NE_ne : Cond.NE ≠ .C_OR_Z_NOT ∧ Cond.NE ≠ .C_OR_Z := by decide

def cmov (c : CondCode) : Scopcode := .U64 (.CMOV (cmoveArray c) (cmoveArray_ne c))

def negCmov (c : CondCode) : Scopcode := .U64 (.CMOV (negCmoveArray c) (negCmoveArray_ne c))

def rbranch (c : CondCode) : Scopcode := .U64 (.RB (rbranchArray c))

def negrbranch (c : CondCode) : Scopcode := .U64 (.RB (negrbranchArray c))

def cadd (c : CondCode) : Scopcode := .U64 (.CADD (caddArray c))

def U64_CMOV_NE : Scopcode := .U64 (.CMOV .NE NE_ne)

/-- Register 13 of ARM; each has a number one higher, since register 0 is always zero. -/
def STACKPTR : RegType := 14

def LINK : RegType := 15

def PC_REG : RegType := 16

/-- `free_reg_list[i]`. -/
def free_reg_list (i : ℕ) : RegType := BitVec.ofNat 8 (i + 1)

/-! ## Pieces that many sequences share -/

/-- The flags join the value of a temporary register. -/
def copyICC (src dst : RegType) : Uop := setup .S64_COPYICC LREG_ICC src 0 dst false

/-- `LREG_TMP1` moves to `RD` under the condition. -/
def condWrite (c : CondCode) (RD : RegType) : List Uop :=
  [copyICC LREG_TMP1 LREG_TMP1, setup (cmov c) LREG_TMP1 RD 0 RD false]

/-- A micro-op of which the result goes to `RD`. -/
def writeReg (cond : Option CondCode) (seticc : Bool) (sop : Scopcode) (srcA srcB : RegType) (imm : BitVec 32)
    (RD : RegType) : List Uop :=
  match cond with
  | some c => setup sop srcA srcB imm LREG_TMP1 false :: condWrite c RD
  | none => [setup sop srcA srcB imm RD seticc]

/-- A subtraction into `LREG_TMP1`, and the carry inverted. -/
def subtract (srcA srcB : RegType) (imm : BitVec 32) (dst : RegType) (seticc : Bool) : List Uop :=
  [setup .S32_SUB srcA srcB imm LREG_TMP1 false, setup .S64_XORICC LREG_TMP1 0 0x2 dst seticc]

def writeSub (cond : Option CondCode) (srcA srcB : RegType) (imm : BitVec 32) (RD : RegType) : List Uop :=
  match cond with
  | some c => subtract srcA srcB imm LREG_TMP1 false ++ condWrite c RD
  | none => subtract srcA srcB imm RD true

/-- The flags of `LREG_TMP1` reach the register of flags under the condition. -/
def condFlags (c : CondCode) : Uop := setup (negCmov c) LREG_ICC LREG_TMP1 0 LREG_ICC true

def compareSub (cond : Option CondCode) (srcA srcB : RegType) (imm : BitVec 32) : List Uop :=
  match cond with
  | some c => subtract srcA srcB imm LREG_TMP1 false ++ [condFlags c]
  | none => subtract srcA srcB imm 0 true

/-- A micro-op that is executed for its flags. -/
def testOp (cond : Option CondCode) (sop : Scopcode) (srcA srcB : RegType) : List Uop :=
  match cond with
  | some c => [setup sop srcA srcB 0 LREG_TMP1 false, condFlags c]
  | none => [setup sop srcA srcB 0 0 true]

def copyPCL (v : BitVec 32) (dst : RegType) : Uop := setup .S64_COPYPCL 0 0 v dst false

/-- The branch over the rest of a sequence. -/
def skipUnless (cond : Option CondCode) (PC : BitVec 32) : List Uop :=
  match cond with
  | some c =>
    [copyPCL (PC + 2) LREG_TMP3, copyICC LREG_TMP3 LREG_TMP3,
      setup (negrbranch c) LREG_TMP3 LREG_TMP3 0 0 false]
  | none => []

def branchIf (c : CondCode) : Uop := setup (rbranch c) LREG_TMP1 LREG_TMP1 0 0 false

def jumpReg (src : RegType) : Uop := setup .U64_JMP_REG src 0 0 0 false

/-- Bit 0 is cleared. -/
def clearBit0 (src dst : RegType) : Uop := setup .S64_AND src 0 0xFFFFFFFE dst false

/-- Bit 0 of `src` tells Thumb from ARM, which has the number 0. -/
def exchange (src tmp dst : RegType) : List Uop :=
  [setup .S64_AND src 0 1 tmp false, setup .S64_COPYICC tmp LREG_TTYPE 0 tmp false,
    setup U64_CMOV_NE tmp 0 0 dst false]

/-- The rest of it in an IT block. -/
def condExchange (c : CondCode) (tmp : RegType) : List Uop :=
  [copyICC tmp tmp, setup (cmov c) tmp LREG_TTYPE 0 LREG_TTYPE false]

/-! ## The groups of instructions -/

section

variable (cond : Option CondCode)

/-- Shift (immediate), add, subtract, move and compare. -/
def shiftAddSubMoveCompare (insn : BitVec 32) (RN RM RD RDN : RegType) (IMM3 IMM5 IMM8 : BitVec 32) : List Uop :=
  let b13 := insn.getLsbD 13
  let b12 := insn.getLsbD 12
  let b11 := insn.getLsbD 11
  let b10 := insn.getLsbD 10
  let b9 := insn.getLsbD 9
  -- LSL, or MOV of a register: in an IT block both are the shift
  if !b13 && !b12 && !b11 then
    match cond with
    | some _ => writeReg cond true .S32_SLL RN 0 IMM5 RD
    | none => if IMM5 ≠ 0 then writeReg cond true .S32_SLL RN 0 IMM5 RD else writeReg cond true .S32_ADD RN 0 0 RD
  -- LSR, ASR
  else if !b13 && !b12 && b11 then writeReg cond true .S32_SRL RN 0 IMM5 RD
  else if !b13 && b12 && !b11 then writeReg cond true .S32_SRA RN 0 IMM5 RD
  -- ADD and SUB, of a register and then of three bits
  else if !b13 && b12 && b11 && !b10 && !b9 then writeReg cond true .S32_ADD RN RM 0 RD
  else if !b13 && b12 && b11 && !b10 && b9 then writeSub cond RN RM 0 RD
  else if !b13 && b12 && b11 && b10 && !b9 then writeReg cond true .S32_ADD RN 0 IMM3 RD
  else if !b13 && b12 && b11 && b10 && b9 then writeSub cond RN 0 IMM3 RD
  -- MOV, CMP, ADD and SUB of eight bits
  else if b13 && !b12 && !b11 then writeReg cond true .S32_ADD 0 0 IMM8 RDN
  else if b13 && !b12 && b11 then compareSub cond RDN 0 IMM8
  else if b13 && b12 && !b11 then writeReg cond true .S32_ADD RDN 0 IMM8 RDN
  else writeSub cond RDN 0 IMM8 RDN

/-- `SBC` up to the subtraction of the carry, which is taken from the flags as a number. -/
def borrow (RD RN : RegType) : List Uop :=
  subtract RD RN 0 LREG_TMP1 false ++
    [setup .S64_GETICC LREG_ICC 0 0 LREG_TMP2 false, setup .S64_XOR LREG_TMP2 0 2 LREG_TMP2 false,
      setup .S64_AND LREG_TMP2 0 2 LREG_TMP2 false, setup .S08_SRL LREG_TMP2 0 1 LREG_TMP2 false]

/-- `MVN`: thirty-two ones are made by a shift. -/
def ones (tmp : RegType) : List Uop :=
  [setup .U64_SUB 0 0 1 tmp false, setup .S64_SRL tmp 0 32 tmp false]

/-- Data processing. Outside of an IT block only the comparisons set the flags. -/
def dataProcessing (opcode : BitVec 4) (RD RN : RegType) : List Uop :=
  match opcode.toNat with
  -- AND, EOR, and the shifts LSL, LSR, ASR
  | 0 => writeReg cond false .S64_AND RD RN 0 RD
  | 1 => writeReg cond false .S64_XOR RD RN 0 RD
  | 2 => writeReg cond false .S32_SLL RD RN 0 RD
  | 3 => writeReg cond false .S32_SRL RD RN 0 RD
  | 4 => writeReg cond false .S32_SRA RD RN 0 RD
  -- ADC: the flags join the register, and the carry is not added
  | 5 => copyICC RD LREG_TMP1 :: writeReg cond false .S32_ADD LREG_TMP1 RN 0 RD
  -- SBC
  | 6 =>
    borrow RD RN ++
      match cond with
      | some c => subtract LREG_TMP1 LREG_TMP2 0 LREG_TMP1 false ++ condWrite c RD
      | none => [setup .S32_SUB LREG_TMP1 LREG_TMP2 0 RD false]
  -- ROR, TST
  | 7 => writeReg cond false .S32_ROTR RD RN 0 RD
  | 8 => testOp cond .S64_AND RD RN
  -- RSB: only in an IT block is the carry inverted
  | 9 =>
    match cond with
    | some _ => writeSub cond 0 RN 0 RD
    | none => [setup .S32_SUB 0 RN 0 RD false]
  -- CMP, CMN, ORR, MUL, BIC
  | 10 => compareSub cond RD RN 0
  | 11 => testOp cond .S32_ADD RD RN
  | 12 => writeReg cond false .S64_OR RD RN 0 RD
  | 13 => writeReg cond false .C_SMUL RN RD 0 RD
  | 14 => writeReg cond false .S64_ANDN RD RN 0 RD
  -- MVN
  | _ =>
    match cond with
    | some _ => ones LREG_TMP2 ++ writeReg cond false .S64_XOR RN LREG_TMP2 0 RD
    | none => ones LREG_TMP1 ++ writeReg cond false .S64_XOR RN LREG_TMP1 0 RD

/-- Addition of registers, any of the sixteen. -/
def addHigh (RND RMH : RegType) (PC : BitVec 32) : List Uop :=
  match cond with
  | some c =>
    if RMH = PC_REG then
      if RND ≠ PC_REG then
        copyPCL ((PC &&& 0xFFFFFFFE) + 4) LREG_TMP1 :: writeReg cond false .S32_ADD RND LREG_TMP1 0 RND
      else []
    else if RND = PC_REG then
      [copyPCL (PC + 4) LREG_TMP1, setup .S32_ADD LREG_TMP1 RMH 0 LREG_TMP1 false, copyICC LREG_TMP1 LREG_TMP1, branchIf c]
    -- the operands the other way
    else writeReg cond false .S32_ADD RMH RND 0 RND
  | none =>
    if RMH = PC_REG then
      if RND ≠ PC_REG then
        copyPCL ((PC &&& 0xFFFFFFFE) + 4) LREG_TMP1 :: writeReg cond false .S32_ADD RND LREG_TMP1 0 RND
      else
        [copyPCL (PC + 4) LREG_TMP1, setup .S32_ADD LREG_TMP1 LREG_TMP1 0 LREG_TMP1 false,
          clearBit0 LREG_TMP1 LREG_TMP1, jumpReg LREG_TMP1]
    else if RND = PC_REG then
      [copyPCL (PC + 4) LREG_TMP1, setup .S32_ADD LREG_TMP1 RMH 0 LREG_TMP1 false, clearBit0 LREG_TMP1 LREG_TMP1,
        jumpReg LREG_TMP1]
    else writeReg cond false .S32_ADD RND RMH 0 RND

def moveHigh (RND RMH : RegType) (PC : BitVec 32) : List Uop :=
  if RND = PC_REG then
    match cond with
    | some c => [copyICC RMH LREG_TMP1, branchIf c]
    | none => [jumpReg RMH]
  else if RMH = PC_REG then
    match cond with
    | some c => copyPCL ((PC &&& 0xFFFFFFFE) + 4) LREG_TMP1 :: condWrite c RND
    | none => [copyPCL ((PC &&& 0xFFFFFFFE) + 4) RND]
  else writeReg cond false .S32_ADD RMH 0 0 RND

/-- Branch and exchange. -/
def branchExchange (RMH : RegType) (PC : BitVec 32) : List Uop :=
  match cond with
  | some c =>
    if RMH = PC_REG then
      [copyPCL ((PC &&& 0xFFFFFFFE) + 4) LREG_TMP1, copyICC LREG_TMP1 LREG_TMP1] ++
        exchange LREG_TMP1 LREG_TMP2 LREG_TMP2 ++ condExchange c LREG_TMP2 ++ [branchIf c]
    else
      exchange RMH LREG_TMP1 LREG_TMP1 ++ condExchange c LREG_TMP1 ++ [copyICC RMH LREG_TMP1, branchIf c]
  | none =>
    if RMH = PC_REG then
      copyPCL ((PC &&& 0xFFFFFFFE) + 4) LREG_TMP1 :: exchange LREG_TMP1 LREG_TMP2 LREG_TTYPE ++
        [clearBit0 LREG_TMP1 LREG_TMP1, jumpReg LREG_TMP1]
    else
      -- the target is cleared before the mode, unlike above
      [setup .S64_AND RMH 0 1 LREG_TMP1 false, clearBit0 RMH LREG_TMP2,
        setup .S64_COPYICC LREG_TMP1 LREG_TTYPE 0 LREG_TMP1 false,
        setup U64_CMOV_NE LREG_TMP1 0 0 LREG_TTYPE false, jumpReg LREG_TMP2]

/-- Branch with link and exchange. In an IT block a conditional move stands where the branch should. -/
def branchLinkExchange (RMH : RegType) (PC : BitVec 32) : List Uop :=
  match cond with
  | some c =>
    copyPCL ((PC + 2) ||| 1) LREG_TMP1 :: condWrite c LINK ++ copyICC RMH LREG_TMP1 ::
      exchange RMH LREG_TMP2 LREG_TMP2 ++ condExchange c LREG_TMP2 ++
      [setup (cmov c) LREG_TMP1 0 0 0 false]
  | none =>
    copyPCL ((PC + 2) ||| 1) LINK :: exchange RMH LREG_TMP1 LREG_TTYPE ++ [clearBit0 RMH LREG_TMP2, jumpReg LREG_TMP2]

/-- Special data instructions, and branch and exchange. -/
def specialData (opcode : BitVec 4) (RND RMH : RegType) (PC : BitVec 32) : List Uop :=
  match opcode.toNat with
  | 0 | 1 | 2 | 3 => addHigh cond RND RMH PC
  | 4 => []
  | 5 | 6 | 7 => compareSub cond RND RMH 0
  | 8 | 9 | 10 | 11 => moveHigh cond RND RMH PC
  | 12 | 13 => branchExchange cond RMH PC
  | _ => branchLinkExchange cond RMH PC

/-- A load into, or a store of, a register, at the address in `addr`. -/
def access (sop : Scopcode) (isLoad : Bool) (addr R : RegType) : Uop :=
  if isLoad then setup sop addr 0 0 R false else setup sop addr R 0 0 false

/-- Load from the literal pool. -/
def loadLiteral (RDN : RegType) (IMM8 PC : BitVec 32) : List Uop :=
  skipUnless cond PC ++
    [copyPCL ((PC &&& 0xFFFFFFFC) + 4) LREG_TMP1, setup .S32_ADD LREG_TMP1 0 (IMM8 <<< 2) LREG_TMP1 false,
      access .U32_LD_L true LREG_TMP1 RDN]

/-- An access at the sum of two registers, or of a register and an immediate. -/
def accessAt (PC : BitVec 32) (sop : Scopcode) (isLoad : Bool) (srcA srcB : RegType) (imm : BitVec 32) (R : RegType) :
    List Uop :=
  skipUnless cond PC ++ [setup .U32_ADD srcA srcB imm LREG_TMP1 false, access sop isLoad LREG_TMP1 R]

/-- The accesses that leave the addition out when the immediate is zero. -/
def accessImm (PC : BitVec 32) (sop : Scopcode) (isLoad : Bool) (RN : RegType) (imm : BitVec 32) (RD : RegType) :
    List Uop :=
  if imm ≠ 0 then accessAt cond PC sop isLoad RN 0 imm RD else skipUnless cond PC ++ [access sop isLoad RN RD]

/-- Load and store single data item, with a register offset. -/
def loadStoreReg (opB : BitVec 3) (RN RM RD : RegType) (PC : BitVec 32) : List Uop :=
  match opB.toNat with
  | 0 => accessAt cond PC .U32_ST_L false RN RM 0 RD
  | 1 => accessAt cond PC .U16_ST_L false RN RM 0 RD
  | 2 => accessAt cond PC .U08_ST false RN RM 0 RD
  | 3 => accessAt cond PC .S08_LD true RN RM 0 RD
  | 4 => accessAt cond PC .U32_LD_L true RN RM 0 RD
  | 5 => accessAt cond PC .U16_LD_L true RN RM 0 RD
  | 6 => accessAt cond PC .U08_LD true RN RM 0 RD
  | _ => accessAt cond PC .S16_LD_L true RN RM 0 RD

/-- Load and store word or byte, with an immediate offset. -/
def loadStoreImm (b12 b11 : Bool) (RN RD : RegType) (IMM5 PC : BitVec 32) : List Uop :=
  if !b12 then
    if !b11 then accessImm cond PC .U32_ST_L false RN (IMM5 <<< 2) RD
    else accessImm cond PC .U32_LD_L true RN (IMM5 <<< 2) RD
  else
    if !b11 then accessImm cond PC .U08_ST false RN IMM5 RD
    else accessImm cond PC .U08_LD true RN IMM5 RD

/-- Load and store halfword, and relative to the stack pointer. -/
def loadStoreHalf (b12 b11 : Bool) (RN RD RDN : RegType) (IMM5 IMM8 PC : BitVec 32) : List Uop :=
  if !b12 then
    if !b11 then accessAt cond PC .U16_ST_L false RN 0 (IMM5 <<< 1) RD
    else accessAt cond PC .U16_LD_L true RN 0 (IMM5 <<< 1) RD
  else
    if !b11 then accessAt cond PC .U32_ST_L false STACKPTR 0 (IMM8 <<< 2) RDN
    else accessAt cond PC .U32_LD_L true STACKPTR 0 (IMM8 <<< 2) RDN

/-- Addition to, or subtraction from, the stack pointer. In an IT block it is done before the conditional move,
and then once more. -/
def adjustStack (IMM7 : BitVec 32) (sub : Bool) : List Uop :=
  let first := setup (if sub then .S32_SUB else .S32_ADD) STACKPTR 0 (IMM7 <<< 2) STACKPTR false
  match cond with
  | some c =>
    first :: (if sub then subtract STACKPTR 0 (IMM7 <<< 2) LREG_TMP1 false
      else [setup .S32_ADD STACKPTR 0 (IMM7 <<< 2) LREG_TMP1 false]) ++ condWrite c STACKPTR
  | none => [first]

/-- Sign extension by two shifts. In an IT block the destination is written before the conditional move. -/
def signExtend (n : BitVec 32) (RN RD : RegType) : List Uop :=
  [setup .S32_SLL RN 0 n LREG_TMP1 false, setup .S32_SRA LREG_TMP1 0 n RD false] ++
    match cond with
    | some c => setup .S32_SRA LREG_TMP1 0 n LREG_TMP1 false :: condWrite c RD
    | none => []

/-- A micro-op that in an IT block is made twice, first into the destination. -/
def writeTwice (sop : Scopcode) (RN : RegType) (imm : BitVec 32) (RD : RegType) : List Uop :=
  setup sop RN 0 imm RD false ::
    match cond with
    | some c => setup sop RN 0 imm LREG_TMP1 false :: condWrite c RD
    | none => []

/-- Reversal of the bytes in a word. -/
def reverseWord (RN RD : RegType) : List Uop :=
  setup .S16_ROTR RN 0 8 LREG_TMP1 false :: writeReg cond false .S32_ROTR LREG_TMP1 0 16 RD

/-- Reversal in the lower halfword, with its sign. -/
def reverseSigned (RN RD : RegType) : List Uop :=
  [setup .S16_ROTR RN 0 8 LREG_TMP1 false, setup .S32_SLL LREG_TMP1 0 16 LREG_TMP1 false] ++
    writeReg cond false .S32_SRA LREG_TMP1 0 16 RD

/-- Compare and branch on zero, or on nonzero. -/
def compareBranch (nonzero : Bool) (RD : RegType) (IMM5 PC : BitVec 32) : List Uop :=
  match cond with
  | some _ => []
  | none =>
    [copyPCL (PC + 4) LREG_TMP1, setup .S32_ADD LREG_TMP1 0 IMM5 LREG_TMP2 false, setup .S32_SUB RD 0 0 LREG_TMP1 false,
      setup .S64_COPYICC LREG_TMP1 LREG_TMP2 0 LREG_TMP1 false,
      setup (.U64 (.RB (if nonzero then .NE else .E))) LREG_TMP1 LREG_TMP1 0 0 false]

end

/-! ## Lists of registers -/

section

variable {w : ℕ}

/-- `for (count = 0; reglist2; count++) reglist2 &= reglist2 - 1`, with a bound on the rounds. -/
def countBits : ℕ → BitVec w → ℕ
  | 0, _ => 0
  | k + 1, reglist2 => if reglist2 = 0 then 0 else countBits k (reglist2 &&& (reglist2 - 1)) + 1

/-- `count * 4`. -/
def bytesOf (reglist : BitVec w) : BitVec 32 := BitVec.ofNat 32 (countBits w reglist * 4)

/-- The loop of `PUSH`, from register `i` on. -/
def pushLoop : ℕ → ℕ → BitVec w → Bool → List Uop
  | 0, _, _, _ => []
  | k + 1, i, reglist, firstuse =>
    (if reglist.getLsbD 0 then
      (if firstuse then [] else [setup .U32_ADD LREG_TMP1 0 0 LREG_TMP1 false]) ++
        [access .U32_ST_L false LREG_TMP1 (free_reg_list i), setup .U64_ADD LREG_TMP1 0 4 LREG_TMP1 false]
      else []) ++ pushLoop k (i + 1) (reglist >>> 1) (firstuse || reglist.getLsbD 0)

/-- The loop of `POP`. The first load is from the stack pointer. -/
def popLoop : ℕ → ℕ → BitVec w → Bool → List Uop
  | 0, _, _, _ => []
  | k + 1, i, reglist, first_use =>
    (if reglist.getLsbD 0 then
      let addr := if first_use then STACKPTR else LREG_TMP1
      [access .U32_LD_L true addr (free_reg_list i), setup .U64_ADD addr 0 4 LREG_TMP1 false]
      else []) ++ popLoop k (i + 1) (reglist >>> 1) (first_use && !reglist.getLsbD 0)

/-- The loop of `STM`. The address moves on when the next register is in the list. -/
def storeLoop (RDN : RegType) : ℕ → ℕ → BitVec w → Bool → List Uop
  | 0, _, _, _ => []
  | k + 1, i, reglist, firstuse =>
    (if reglist.getLsbD 0 then
      (if firstuse then [] else [setup .U32_ADD RDN 0 0 LREG_TMP1 false]) ++
        [access .U32_ST_L false LREG_TMP1 (free_reg_list i)]
      else []) ++
      (if (reglist >>> 1).getLsbD 0 then [setup .U64_ADD LREG_TMP1 0 4 LREG_TMP1 false] else []) ++
      storeLoop RDN k (i + 1) (reglist >>> 1) (firstuse || reglist.getLsbD 0)

/-- The loop of `LDM`. The first use is noted where the address moves on. -/
def loadLoop (RDN : RegType) : ℕ → ℕ → BitVec w → Bool → List Uop
  | 0, _, _, _ => []
  | k + 1, i, reglist, firstuse =>
    let addr := if firstuse then LREG_TMP1 else RDN
    (if reglist.getLsbD 0 then [access .U32_LD_L true addr (free_reg_list i)] else []) ++
      (if (reglist >>> 1).getLsbD 0 then [setup .U64_ADD addr 0 4 LREG_TMP1 false] else []) ++
      loadLoop RDN k (i + 1) (reglist >>> 1) (firstuse || (reglist >>> 1).getLsbD 0)

end

section

variable (cond : Option CondCode)

def PUSH (reglist : BitVec 16) (PC : BitVec 32) : List Uop :=
  if countBits 16 reglist < 1 then []
  else
    skipUnless cond PC ++ setup .U32_SUB STACKPTR 0 (bytesOf reglist) LREG_TMP1 false ::
      pushLoop 15 0 reglist false ++ [setup .U32_SUB STACKPTR 0 (bytesOf reglist) STACKPTR false]

/-- Bit 15 of the list is the PC. -/
def POP (reglist : BitVec 16) (PC : BitVec 32) : List Uop :=
  if countBits 16 reglist < 1 then []
  else
    skipUnless cond PC ++ popLoop 15 0 reglist true ++
      if reglist.getLsbD 15 then
        let addr := if reglist.setWidth 15 = 0 then STACKPTR else LREG_TMP1
        [access .U32_LD_L true addr LREG_TMP1, setup .U32_ADD STACKPTR 0 (bytesOf reglist) STACKPTR false] ++
          exchange LREG_TMP1 LREG_TMP2 LREG_TTYPE ++ [clearBit0 LREG_TMP1 LREG_TMP1, jumpReg LREG_TMP1]
      else [setup .U32_ADD STACKPTR 0 (bytesOf reglist) STACKPTR false]

/-- Store multiple registers. -/
def storeMultiple (RDN : RegType) (reglist : BitVec 8) (PC : BitVec 32) : List Uop :=
  if reglist < 1 then []
  else
    skipUnless cond PC ++ storeLoop RDN 8 0 reglist false ++ [setup .U32_ADD RDN 0 (bytesOf reglist) RDN false]

/-- Load multiple registers. The base is written back unless it is in the list. -/
def loadMultiple (RDN : RegType) (reglist : BitVec 8) (PC : BitVec 32) : List Uop :=
  if reglist < 1 then []
  else
    skipUnless cond PC ++ loadLoop RDN 8 0 reglist false ++
      if !reglist.getLsbD (RDN - 1).toNat then [setup .U32_ADD RDN 0 (bytesOf reglist) RDN false] else []

/-! ## Branches and system calls -/

/-- The target of a branch in an instruction, from the register of flags. -/
def branchTo (c : CondCode) (target : BitVec 32) : List Uop :=
  [copyPCL target LREG_TMP1, copyICC LREG_TMP1 LREG_TMP1, branchIf c]

/-- The unconditional branch. -/
def branch (target : BitVec 32) : List Uop :=
  match cond with
  | some c => branchTo c target
  | none => [copyPCL target LREG_TMP1, clearBit0 LREG_TMP1 LREG_TMP1, jumpReg LREG_TMP1]

/-- The supervisor call. The arguments are stored where `LREG_SYSMEM` points to. -/
def SVC : List Uop :=
  let store (r : RegType) := setup .U64_ST_L LREG_TMP2 r 0 0 false
  let last := [setup .U32_STSC LREG_SYSMEM 8 0 0 false, setup .U32_LD_L LREG_TMP2 0 (LREG_TMP2.setWidth 32) 0 false]
  match cond with
  | some c =>
    setup .S64_COPYICC LREG_ICC LREG_SYSMEM 0 LREG_TMP2 false :: setup (cadd c) LREG_TMP2 0 4 LREG_TMP2 false ::
      store 1 :: [2, 3, 4, 5, 6].flatMap (fun r =>
        [copyICC LREG_TMP2 LREG_TMP2, setup (cadd c) LREG_TMP2 0 4 LREG_TMP2 false, store r]) ++ last
  | none =>
    setup .U64_ADD LREG_SYSMEM 0 4 LREG_TMP2 false :: store 1 ::
      [2, 3, 4, 5, 6].flatMap (fun r => [setup .U64_ADD LREG_TMP2 0 4 LREG_TMP2 false, store r]) ++ last

end

/-! ## The instruction -/

/-- The fields of an instruction. Register numbers are one higher than in the encoding. -/
def fieldRN (insn : BitVec 32) : RegType := ((insn >>> 3) &&& 0x7).setWidth 8 + 1

def fieldRM (insn : BitVec 32) : RegType := ((insn >>> 6) &&& 0x7).setWidth 8 + 1

def fieldRD (insn : BitVec 32) : RegType := (insn &&& 0x7).setWidth 8 + 1

def fieldRDN (insn : BitVec 32) : RegType := ((insn >>> 8) &&& 0x7).setWidth 8 + 1

def fieldRMH (insn : BitVec 32) : RegType := ((insn >>> 3) &&& 0xF).setWidth 8 + 1

/-- Bit 7 joins the number after one was added to it. -/
def fieldRND (insn : BitVec 32) : RegType := ((insn >>> 7) &&& 0x1).setWidth 8 <<< 3 ||| fieldRD insn

def IMM3 (insn : BitVec 32) : BitVec 32 := (insn >>> 6) &&& 0x7

def IMM5 (insn : BitVec 32) : BitVec 32 := (insn >>> 6) &&& 0x1F

def IMM7 (insn : BitVec 32) : BitVec 32 := insn &&& 0x7F

def IMM8 (insn : BitVec 32) : BitVec 32 := insn &&& 0xFF

def IMM11 (insn : BitVec 32) : BitVec 32 := insn &&& 0x7FF

/-- The offset of a compare and branch. -/
def IMM6 (insn : BitVec 32) : BitVec 32 := (((insn >>> 9) &&& 0x1) <<< 5 ||| (insn >>> 3) &&& 0x1F) <<< 1

/-- `((IMM8 << 1) << 23) >> 23`. -/
def SIMM8 (insn : BitVec 32) : BitVec 32 := ((IMM8 insn <<< 1) <<< 23).sshiftRight 23

def SIMM11 (insn : BitVec 32) : BitVec 32 :=
  if insn.getLsbD 10 then (0xFFFFF : BitVec 32) <<< 12 ||| IMM11 insn <<< 1 else IMM11 insn <<< 1

/-- The list of registers of `PUSH`; bit 8 of the instruction is the link register. -/
def pushList (insn : BitVec 32) : BitVec 16 :=
  (((insn >>> 8) &&& 0x1) <<< 14 ||| insn &&& 0xFF).setWidth 16

/-- That of `POP`; bit 8 is the PC. -/
def popList (insn : BitVec 32) : BitVec 16 :=
  (((insn >>> 8) &&& 0x1) <<< 15 ||| insn &&& 0xFF).setWidth 16

section

variable (cond : Option CondCode) (insn PC : BitVec 32)

/-- Miscellaneous instructions. What is not listed here only warns. -/
def miscellaneous : List Uop :=
  let b11 := insn.getLsbD 11
  let b10 := insn.getLsbD 10
  let b9 := insn.getLsbD 9
  let b8 := insn.getLsbD 8
  let b7 := insn.getLsbD 7
  let b6 := insn.getLsbD 6
  let RN := fieldRN insn
  let RD := fieldRD insn
  -- CPS, and what is undefined beside it: both only warn
  if !b11 && b10 && b9 && !b8 && !b7 && b6 then []
  else if !b11 && !b10 && !b9 && !b8 then adjustStack cond (IMM7 insn) b7
  -- CBZ and CBNZ, by bit 11
  else if !b10 && b8 then compareBranch cond b11 RD (IMM6 insn) PC
  -- SXTH, SXTB, UXTH, UXTB
  else if !b11 && !b10 && b9 && !b8 && !b7 && !b6 then signExtend cond 16 RN RD
  else if !b11 && !b10 && b9 && !b8 && !b7 && b6 then signExtend cond 24 RN RD
  else if !b11 && !b10 && b9 && !b8 && b7 && !b6 then writeTwice cond .S64_AND RN 0xFFFF RD
  else if !b11 && !b10 && b9 && !b8 && b7 && b6 then writeTwice cond .S64_AND RN 0xFF RD
  else if !b11 && b10 && !b9 then PUSH cond (pushList insn) PC
  -- REV, REV16, REVSH
  else if b11 && !b10 && b9 && !b8 && !b7 && !b6 then reverseWord cond RN RD
  else if b11 && !b10 && b9 && !b8 && !b7 && b6 then writeTwice cond .S16_ROTR RN 8 RD
  else if b11 && !b10 && b9 && !b8 && b7 && b6 then reverseSigned cond RN RD
  else if b11 && b10 && !b9 then POP cond (popList insn) PC
  else []

/-- The micro-ops of an instruction. -/
def thumb16uops : List Uop :=
  let b15 := insn.getLsbD 15
  let b14 := insn.getLsbD 14
  let b13 := insn.getLsbD 13
  let b12 := insn.getLsbD 12
  let b11 := insn.getLsbD 11
  let b10 := insn.getLsbD 10
  let RN := fieldRN insn
  let RM := fieldRM insn
  let RD := fieldRD insn
  let RDN := fieldRDN insn
  if !b15 && !b14 then shiftAddSubMoveCompare cond insn RN RM RD RDN (IMM3 insn) (IMM5 insn) (IMM8 insn)
  else if !b15 && b14 && !b13 && !b12 && !b11 && !b10 then
    dataProcessing cond (((insn >>> 6) &&& 0xF).setWidth 4) RD RN
  else if !b15 && b14 && !b13 && !b12 && !b11 && b10 then
    specialData cond (((insn >>> 6) &&& 0xF).setWidth 4) (fieldRND insn) (fieldRMH insn) PC
  else if !b15 && b14 && !b13 && !b12 && b11 then loadLiteral cond RDN (IMM8 insn) PC
  else if !b15 && b14 && !b13 && b12 then loadStoreReg cond (((insn >>> 9) &&& 0x7).setWidth 3) RN RM RD PC
  else if !b15 && b14 && b13 then loadStoreImm cond b12 b11 RN RD (IMM5 insn) PC
  else if b15 && !b14 && !b13 then loadStoreHalf cond b12 b11 RN RD RDN (IMM5 insn) (IMM8 insn) PC
  else if b15 && !b14 && b13 && !b12 && !b11 then
    -- ADR
    copyPCL ((PC &&& 0xFFFFFFFC) + 4) LREG_TMP1 :: writeReg cond false .S32_ADD LREG_TMP1 0 (IMM8 insn <<< 2) RDN
  -- the address in the stack: seven bits of the eight
  else if b15 && !b14 && b13 && !b12 && b11 then writeReg cond false .S32_ADD STACKPTR 0 (IMM7 insn <<< 2) RDN
  else if b15 && !b14 && b13 && b12 then miscellaneous cond insn PC
  else if b15 && b14 && !b13 && !b12 && !b11 then storeMultiple cond RDN ((IMM8 insn).setWidth 8) PC
  else if b15 && b14 && !b13 && !b12 && b11 then loadMultiple cond RDN ((IMM8 insn).setWidth 8) PC
  else if b15 && b14 && !b13 && b12 then
    let opcode := ((insn >>> 8) &&& 0xF).toNat
    if h : opcode < 14 then branchTo ⟨opcode, h⟩ (PC + 4 + SIMM8 insn)
    -- undefined
    else if opcode = 14 then []
    else SVC cond
  else if b15 && b14 && b13 && !b12 && !b11 then branch cond (PC + 4 + SIMM11 insn)
  else []

end

/-! ## IT blocks -/

/-- If-then: bits 15 to 8 are `10111111`, and the mask is not zero. -/
def isIT (insn : BitVec 32) : Bool := ((insn >>> 8) &&& 0xFF) = 0xBF && insn &&& 0xF ≠ 0

/-- What `IT` pushes, the back first. -/
def itPush (firstcond mask : BitVec 4) : List (BitVec 4) :=
  let next (k : ℕ) := firstcond &&& 0xE ^^^ (mask >>> k) &&& 1
  if mask = 8 then [firstcond]
  else if mask = 4 ∨ mask = 12 then [firstcond, next 3]
  else if mask = 2 ∨ mask = 6 ∨ mask = 10 ∨ mask = 14 then [firstcond, next 3, next 2]
  else [firstcond, next 3, next 2, next 1]

/-- The number `AL`, one of the fourteen conditions, or a number that is none. -/
def condOf (cond : BitVec 4) : Option (Option CondCode) :=
  if h : cond.toNat < 14 then some (some ⟨cond.toNat, h⟩) else if cond = 14 then some none else none

/-- `itblockVector->back()`, or `AL`, and the vector after `pop_back`. -/
def popCond : List (BitVec 4) → BitVec 4 × List (BitVec 4)
  | [] => (14, [])
  | c :: itblockVector => (c, itblockVector)

/-- `ThumbCrack::thumb16expand`: the micro-ops, and the vector that is left, its back first. -/
def thumb16expand (itblockVector : List (BitVec 4)) (insn PC : BitVec 32) : Option (List Uop × List (BitVec 4)) :=
  let (c, rest) := popCond itblockVector
  (condOf c).map fun cond =>
    (thumb16uops cond insn PC,
      if cond = none ∧ isIT insn = true then
        itPush (((insn >>> 4) &&& 0xF).setWidth 4) ((insn &&& 0xF).setWidth 4) ++ rest
      else rest)

end Esesc.Emul
