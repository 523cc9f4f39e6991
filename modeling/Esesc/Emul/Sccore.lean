import Mathlib.Logic.Function.Basic
import Esesc.Lib.Lanes

/-!
# The micro-op core

`Sccore::execute` runs micro-ops on the registers of `Scstate`: 64-bit values, each with the
flags of the micro-op that wrote it. Here are the packed additions and subtractions. Every
variable of the source that has `w` bits is a `BitVec w`, so that what is assigned to it is cut
to `w` bits, and widening follows its sign.
-/

namespace Esesc.Emul

/-- A register number. -/
abbrev RegType := BitVec 8

/-- The flags: negative, zero, carry and overflow, from bit 3 down to bit 0. -/
abbrev CCType := BitVec 8

def LREG_ICC : RegType := 66

/-- The fields of a micro-op that the packed and the conditional ones read. -/
structure Scuop where
  useImm : Bool
  seticc : Bool
  src1 : RegType
  src2 : RegType
  dst : RegType
  imm : BitVec 32

/-- The registers, and what the core tells the front end: the PC, whether to flush, and whether
the micro-op counts as a nop. -/
structure Scstate where
  rf : RegType → BitVec 64
  iccrf : RegType → CCType
  pc : BitVec 64
  flush : Bool
  nop : Bool

namespace Scstate

def getReg (s : Scstate) (reg : RegType) : BitVec 64 := s.rf reg

def getICC (s : Scstate) (reg : RegType) : CCType := s.iccrf reg

/-- Registers below 32 are visible to the program and keep 32 bits. -/
def setDst (s : Scstate) (op : Scuop) (data : BitVec 64) (cc : CCType) : Scstate :=
  let s := if op.seticc then { s with iccrf := Function.update s.iccrf LREG_ICC cc } else s
  if op.dst = 0 then s
  else { s with
    rf := Function.update s.rf op.dst (if op.dst < 32 then data &&& 0xFFFFFFFF else data)
    iccrf := Function.update s.iccrf op.dst cc }

/-- The flags reach the destination, and with `seticc` the register of flags too. -/
theorem getICC_setDst {s : Scstate} {op : Scuop} {data : BitVec 64} {cc : CCType} {r : RegType}
    (h : (r = LREG_ICC ∧ op.seticc = true) ∨ (r = op.dst ∧ op.dst ≠ 0)) : (s.setDst op data cc).getICC r = cc := by
  unfold setDst getICC
  by_cases hdst : op.dst = 0
  · rcases h with ⟨rfl, hset⟩ | ⟨-, hne⟩
    · simp [hset, hdst]
    · exact absurd hdst hne
  · dsimp only
    rw [if_neg hdst]
    rcases h with ⟨rfl, hset⟩ | ⟨rfl, -⟩
    · by_cases hsame : LREG_ICC = op.dst <;> simp [Function.update, hset, hsame]
    · simp

end Scstate

/-! ## Flags -/

def calcICC (src1 src2 res : BitVec 64) : CCType :=
  (if res.slt 0 then 8 else 0) ||| (if res = 0 then 4 else 0) ||| (if res.slt src1 || res.slt src2 then 2 else 0)

def calcICC_sub (src1 src2 res : BitVec 64) : CCType :=
  (if res.slt 0 then 8 else 0) ||| (if res = 0 then 4 else 0) ||| (if src1 < src2 then 2 else 0)

section

variable {w : ℕ}

/-- `calcNZ`, and `calcNZ32`, `calcNZ16` and `calcNZ8`. -/
def calcNZ (res : BitVec w) : CCType := (if res.slt 0 then 8 else 0) ||| (if res = 0 then 4 else 0)

/-- The test of the signed additions. -/
def addOverflow (a b r : BitVec w) : CCType :=
  if (a.slt 0 && b.slt 0 && (0 : BitVec w).slt r) || ((0 : BitVec w).slt a && (0 : BitVec w).slt b && r.slt 0) then 1 else 0

/-- The test of the signed subtractions. -/
def subOverflow (a b r : BitVec w) : CCType :=
  if ((0 : BitVec w).sle a && b.slt 0 && r.slt 0) || (a.slt 0 && (0 : BitVec w).sle b && (0 : BitVec w).sle r) then 1 else 0

def iccSignedAdd (a b r : BitVec w) : CCType :=
  calcICC (a.signExtend 64) (b.signExtend 64) (r.signExtend 64) ||| addOverflow a b r

def iccSignedSub (a b r : BitVec w) : CCType :=
  calcICC_sub (a.signExtend 64) (b.signExtend 64) (r.signExtend 64) ||| subOverflow a b r

/-- The unsigned ones leave the overflow flag of the register of flags. -/
def iccUnsigned (s : Scstate) (a b r : BitVec w) : CCType :=
  calcICC (a.setWidth 64) (b.setWidth 64) (r.setWidth 64) ||| (s.getICC LREG_ICC &&& 1)

/-! ## Lanes -/

/-- `(getReg(src1) >> sh) & mask`. -/
def Scuop.first (inst : Scuop) (s : Scstate) (w sh : ℕ) : BitVec w := (s.getReg inst.src1 >>> sh).setWidth w

/-- `imm & mask`, or `(getReg(src2) >> sh) & mask`. -/
def Scuop.second (inst : Scuop) (s : Scstate) (w sh : ℕ) : BitVec w :=
  if inst.useImm then inst.imm.setWidth w else (s.getReg inst.src2 >>> sh).setWidth w

/-- `((int64_t) a) << sh`. -/
def shlS (a : BitVec w) (sh : ℕ) : BitVec 64 := a.signExtend 64 <<< sh

/-- `((uint64_t) a) << sh`. -/
def shlU (a : BitVec w) (sh : ℕ) : BitVec 64 := a.setWidth 64 <<< sh

end

/-- Addition or subtraction, at any width. -/
inductive Arith
  | add
  | sub
  deriving DecidableEq

def Arith.ap {w : ℕ} : Arith → BitVec w → BitVec w → BitVec w
  | .add, a, b => a + b
  | .sub, a, b => a - b

/-- The packed formats. -/
inductive Packed
  | S32
  | U32
  | S16
  | U16
  | S08
  | U08
  deriving DecidableEq

def Packed.width : Packed → ℕ
  | .S32 | .U32 => 32
  | .S16 | .U16 => 16
  | .S08 | .U08 => 8

variable (o : Arith) (inst : Scuop) (s : Scstate)

/-- `topS32`, `bottomS32` and how they are put together, alike in `OP_S32_ADD` and `OP_S32_SUB`. -/
def resS32 : BitVec 64 :=
  let bottom := o.ap (inst.first s 32 0) (inst.second s 32 0)
  let top := o.ap (inst.first s 32 32) (inst.second s 32 32)
  shlS top 32 ||| bottom.signExtend 64

def resU32 : BitVec 64 :=
  let bottom := o.ap (inst.first s 32 0) (inst.second s 32 0)
  let top := o.ap (inst.first s 32 32) (inst.second s 32 32)
  shlU top 32 ||| bottom.setWidth 64

/-- In `OP_S16_ADD` the immediate of the third and of the last lane is assigned to `tempBS8`, and
`tempBS16` keeps what the second lane left in it. -/
def Scuop.tempBS16 (inst : Scuop) (s : Scstate) (o : Arith) (sh : ℕ) : BitVec 16 :=
  match o with
  | .add => if inst.useImm then inst.second s 16 16 else inst.second s 16 sh
  | .sub => inst.second s 16 sh

def resS16 : BitVec 64 :=
  let bottom := o.ap (inst.first s 16 0) (inst.second s 16 0)
  let second := o.ap (inst.first s 16 16) (inst.second s 16 16)
  let third := o.ap (inst.first s 16 32) (inst.tempBS16 s o 32)
  let last := o.ap (inst.first s 16 48) (inst.tempBS16 s o 48)
  shlS last 48 ||| shlS third 32 ||| shlS second 16 ||| bottom.signExtend 64

def resU16 : BitVec 64 :=
  let bottom := o.ap (inst.first s 16 0) (inst.second s 16 0)
  let second := o.ap (inst.first s 16 16) (inst.second s 16 16)
  let third := o.ap (inst.first s 16 32) (inst.second s 16 32)
  let last := o.ap (inst.first s 16 48) (inst.second s 16 48)
  shlU last 48 ||| shlU third 32 ||| shlU second 16 ||| bottom.setWidth 64

/-- The fourth, third and second lane are shifted by 32, like the fifth. -/
def resS08 : BitVec 64 :=
  let bottom := o.ap (inst.first s 8 0) (inst.second s 8 0)
  let second := o.ap (inst.first s 8 8) (inst.second s 8 8)
  let third := o.ap (inst.first s 8 16) (inst.second s 8 16)
  let fourth := o.ap (inst.first s 8 24) (inst.second s 8 24)
  let fifth := o.ap (inst.first s 8 32) (inst.second s 8 32)
  let sixth := o.ap (inst.first s 8 40) (inst.second s 8 40)
  let seventh := o.ap (inst.first s 8 48) (inst.second s 8 48)
  let last := o.ap (inst.first s 8 56) (inst.second s 8 56)
  shlS last 56 ||| shlS seventh 48 ||| shlS sixth 40 ||| shlS fifth 32 ||| shlS fourth 32 ||| shlS third 32 |||
    shlS second 32 ||| bottom.signExtend 64

/-- In `OP_U08_SUB` the third lane takes bits 16 to 23 of the immediate. -/
def Scuop.tempBU8 (inst : Scuop) (s : Scstate) (o : Arith) : BitVec 8 :=
  match o with
  | .add => inst.second s 8 16
  | .sub => if inst.useImm then (inst.imm.sshiftRight 16).setWidth 8 else inst.second s 8 16

def resU08 : BitVec 64 :=
  let bottom := o.ap (inst.first s 8 0) (inst.second s 8 0)
  let second := o.ap (inst.first s 8 8) (inst.second s 8 8)
  let third := o.ap (inst.first s 8 16) (inst.tempBU8 s o)
  let fourth := o.ap (inst.first s 8 24) (inst.second s 8 24)
  let fifth := o.ap (inst.first s 8 32) (inst.second s 8 32)
  let sixth := o.ap (inst.first s 8 40) (inst.second s 8 40)
  let seventh := o.ap (inst.first s 8 48) (inst.second s 8 48)
  let last := o.ap (inst.first s 8 56) (inst.second s 8 56)
  shlU last 56 ||| shlU seventh 48 ||| shlU sixth 40 ||| shlU fifth 32 ||| shlU fourth 32 ||| shlU third 32 |||
    shlU second 32 ||| bottom.setWidth 64

/-- The result of a packed micro-op. -/
def packedRes : Packed → BitVec 64
  | .S32 => resS32 o inst s
  | .U32 => resU32 o inst s
  | .S16 => resS16 o inst s
  | .U16 => resU16 o inst s
  | .S08 => resS08 o inst s
  | .U08 => resU08 o inst s

/-- Its flags, which are those of the lowest lane. `OP_S16_SUB` compares the first operand with
itself, and `OP_S08_SUB` does not pass its flags on. -/
def packedICC (p : Packed) : CCType :=
  let a := inst.first s p.width 0
  let b := inst.second s p.width 0
  let r := o.ap a b
  match o, p with
  | .add, .S32 | .add, .S16 | .add, .S08 => iccSignedAdd a b r
  | .sub, .S32 => iccSignedSub a b r
  | .sub, .S16 => calcICC_sub (a.signExtend 64) (a.signExtend 64) (r.signExtend 64) ||| subOverflow a b r
  | .sub, .S08 => 0
  | _, .U32 | _, .U16 | _, .U08 => iccUnsigned s a b r

/-- A packed micro-op. -/
def packed (p : Packed) : Scstate := s.setDst inst (packedRes o inst s p) (packedICC o inst s p)

def OP_S32_ADD : Scstate := packed .add inst s .S32
def OP_U32_ADD : Scstate := packed .add inst s .U32
def OP_S16_ADD : Scstate := packed .add inst s .S16
def OP_U16_ADD : Scstate := packed .add inst s .U16
def OP_S08_ADD : Scstate := packed .add inst s .S08
def OP_U08_ADD : Scstate := packed .add inst s .U08
def OP_S32_SUB : Scstate := packed .sub inst s .S32
def OP_U32_SUB : Scstate := packed .sub inst s .U32
def OP_S16_SUB : Scstate := packed .sub inst s .S16
def OP_U16_SUB : Scstate := packed .sub inst s .U16
def OP_S08_SUB : Scstate := packed .sub inst s .S08
def OP_U08_SUB : Scstate := packed .sub inst s .U08

end Esesc.Emul
