import Mathlib.Algebra.Group.Int.Defs
import Mathlib.Data.Int.Order.Basic
import Esesc.Emul.Sccore

/-!
# Comparing and branching

`OP_S32_SUB` leaves the flags of its lower lane, and five families of micro-ops test them: the
branches to a register (`RB`) and to an immediate (`LB`), the conditional moves (`CMOV`), and
the conditional additions and subtractions (`CADD`, `CSUB`).

* `test_flags`: every condition as a formula of the four flags.
* `icc_S32_SUB`: the four flags after a comparison.
* `signed_lt_iff`: the sign of the wrapped difference, corrected by the overflow, is the order.
* `S32_SUB_compare`: after a comparison every family decides by the order of the operands.
-/

namespace Esesc.Emul

/-! ## Conditions -/

/-- The conditions, as the opcodes' names end: `OP_U64_RBE` is `RB` of `E`. -/
inductive Cond
  | E
  | NE
  | CS
  | CC
  | NEG
  | POS
  | VS
  | VC
  | C_OR_Z_NOT
  | C_OR_Z
  | C_AND_NOTZ
  | NOTC_OR_Z
  | GE
  | L
  | G
  | LE
  deriving DecidableEq

def ccN (icc : CCType) : CCType := (icc >>> 3) &&& 1

def ccZ (icc : CCType) : CCType := (icc >>> 2) &&& 1

def ccC (icc : CCType) : CCType := (icc >>> 1) &&& 1

def ccV (icc : CCType) : CCType := icc &&& 1

/-- The test of a condition. -/
def Cond.test (icc : CCType) : Cond → Bool
  | .E => ccZ icc != 0
  | .NE => !(ccZ icc != 0)
  | .CS => ccC icc != 0
  | .CC => !(ccC icc != 0)
  | .NEG => ccN icc != 0
  | .POS => !(ccN icc != 0)
  | .VS => ccV icc != 0
  | .VC => !(ccV icc != 0)
  | .C_OR_Z_NOT => !(ccC icc != 0 || ccZ icc != 0)
  | .C_OR_Z => ccC icc != 0 || ccZ icc != 0
  | .C_AND_NOTZ => ccC icc != 0 && !(ccZ icc != 0)
  | .NOTC_OR_Z => !(ccC icc != 0) || ccZ icc != 0
  | .GE => !((ccN icc ^^^ ccV icc) != 0)
  | .L => (ccN icc ^^^ ccV icc) != 0
  | .G => !(ccZ icc != 0 || (ccN icc ^^^ ccV icc) != 0)
  | .LE => ccZ icc != 0 || (ccN icc ^^^ ccV icc) != 0

/-- The tests of the `CSUB` family, where two of them have the other connective. -/
def Cond.testCSUB (icc : CCType) : Cond → Bool
  | .C_AND_NOTZ => ccC icc != 0 || !(ccZ icc != 0)
  | .NOTC_OR_Z => !(ccC icc != 0) && ccZ icc != 0
  | c => c.test icc

/-- The conditional micro-ops. There is no conditional move for two of the conditions. -/
inductive CondOp
  | RB (c : Cond)
  | LB (c : Cond)
  | CMOV (c : Cond) (h : c ≠ .C_OR_Z_NOT ∧ c ≠ .C_OR_Z)
  | CADD (c : Cond)
  | CSUB (c : Cond)

namespace CondOp

def cond : CondOp → Cond
  | RB c | LB c | CMOV c _ | CADD c | CSUB c => c

variable (inst : Scuop) (s : Scstate)

/-- The flags a conditional move takes with its second operand. `OP_U64_CMOV_NE` reads them also
when that operand is the immediate. -/
def icc2 (c : Cond) : CCType :=
  if inst.useImm then (if c = .NE then s.getICC inst.src2 else 0) else s.getICC inst.src2

/-- The true side. -/
def taken : CondOp → Scstate
  | RB _ => { s with pc := s.getReg inst.src1, flush := true }
  | LB _ => { s with pc := inst.imm.signExtend 64, flush := true }
  | CMOV _ _ => s.setDst inst (s.getReg inst.src1) (s.getICC inst.src1)
  | CADD _ => s.setDst inst (s.getReg inst.src1 + s.getReg inst.src2) 0
  | CSUB _ => s.setDst inst (s.getReg inst.src1 - s.getReg inst.src2) 0

/-- The false side. -/
def notTaken : CondOp → Scstate
  | RB _ => s
  | LB c => if c = .CC then { s with nop := true } else s
  | CMOV c _ =>
    let temp2 := if inst.useImm then inst.imm.signExtend 64 else s.getReg inst.src2
    { s.setDst inst temp2 (icc2 inst s c) with nop := true }
  | CADD _ | CSUB _ => s.setDst inst (BitVec.allOnes 64) 0

def test (icc : CCType) : CondOp → Bool
  | RB c | LB c | CMOV c _ | CADD c => c.test icc
  | CSUB c => c.testCSUB icc

/-- All of them test the flags of their first operand. -/
def execute (op : CondOp) : Scstate :=
  if op.test (s.getICC inst.src1) then op.taken inst s else op.notTaken inst s

end CondOp

/-! ## What the conditions mean -/

/-- A signed difference that does not fit. -/
def Overflows (a b : BitVec 32) : Prop := a.toInt - b.toInt < -2 ^ 31 ∨ 2 ^ 31 ≤ a.toInt - b.toInt

/-- What a condition says of two operands. -/
def Cond.Holds (a b : BitVec 32) : Cond → Prop
  | .E => a = b
  | .NE => a ≠ b
  | .L => a.toInt < b.toInt
  | .GE => b.toInt ≤ a.toInt
  | .G => b.toInt < a.toInt
  | .LE => a.toInt ≤ b.toInt
  | .NEG => (a - b).toInt < 0
  | .POS => 0 ≤ (a - b).toInt
  | .VS => Overflows a b
  | .VC => ¬Overflows a b
  | .CS | .C_AND_NOTZ => a.toNat < b.toNat
  | .CC | .NOTC_OR_Z => b.toNat ≤ a.toNat
  | .C_OR_Z => a.toNat ≤ b.toNat
  | .C_OR_Z_NOT => b.toNat < a.toNat

/-! ## Flags as booleans -/

def flags (n z c v : Bool) : CCType :=
  (if n then 8 else 0) ||| (if z then 4 else 0) ||| (if c then 2 else 0) ||| (if v then 1 else 0)

/-- One bit of the flags. -/
theorem bit_cases (x : CCType) : x &&& 1 = 0 ∨ x &&& 1 = 1 := by
  have hnat : (x &&& 1).toNat = x.toNat % 2 := by
    rw [BitVec.toNat_and]
    exact Nat.and_one_is_mod _
  rcases Nat.mod_two_eq_zero_or_one x.toNat with h | h
  · exact .inl (BitVec.eq_of_toNat_eq (hnat.trans h))
  · exact .inr (BitVec.eq_of_toNat_eq (hnat.trans h))

theorem test_flags (n z c v : Bool) (cond : Cond) : cond.test (flags n z c v) = match cond with
    | .E => z
    | .NE => !z
    | .CS => c
    | .CC => !c
    | .NEG => n
    | .POS => !n
    | .VS => v
    | .VC => !v
    | .C_OR_Z_NOT => !(c || z)
    | .C_OR_Z => c || z
    | .C_AND_NOTZ => c && !z
    | .NOTC_OR_Z => !c || z
    | .GE => !(n ^^ v)
    | .L => n ^^ v
    | .G => !(z || (n ^^ v))
    | .LE => z || (n ^^ v) := by
  cases n <;> cases z <;> cases c <;> cases v <;> cases cond <;> rfl

/-! ## After a comparison -/

section

variable (a b : BitVec 32)

/-- The overflow flag: operands of different sign, and the sign of the second one in the result. -/
theorem overflows_iff : Overflows a b ↔
    (0 ≤ a.toInt ∧ b.toInt < 0 ∧ (a - b).toInt < 0) ∨ (a.toInt < 0 ∧ 0 ≤ b.toInt ∧ 0 ≤ (a - b).toInt) := by
  have ha := a.toInt_lt
  have ha' := a.le_toInt
  have hb := b.toInt_lt
  have hb' := b.le_toInt
  rw [BitVec.toInt_sub, Int.bmod_def]
  unfold Overflows
  simp only [Nat.reduceSub, Nat.reducePow] at *
  omega

/-- **The order.** The sign of the wrapped difference is wrong exactly when the difference overflows. -/
theorem signed_lt_iff : a.toInt < b.toInt ↔ ¬((a - b).toInt < 0 ↔ Overflows a b) := by
  have ha := a.toInt_lt
  have ha' := a.le_toInt
  have hb := b.toInt_lt
  have hb' := b.le_toInt
  rw [BitVec.toInt_sub, Int.bmod_def]
  unfold Overflows
  simp only [Nat.reduceSub, Nat.reducePow] at *
  omega

/-- Sign extension keeps the unsigned order: what is negative is moved up together. -/
theorem signExtend_lt_iff : a.signExtend 64 < b.signExtend 64 ↔ a.toNat < b.toNat := by
  have ha := a.isLt
  have hb := b.isLt
  rw [BitVec.lt_def, BitVec.toNat_signExtend, BitVec.toNat_signExtend, BitVec.toNat_setWidth, BitVec.toNat_setWidth,
    BitVec.msb_eq_decide, BitVec.msb_eq_decide]
  simp only [decide_eq_true_eq, Nat.reduceSub, Nat.reducePow]
  split <;> split <;> omega

theorem signExtend_eq_zero_iff (r : BitVec 32) : r.signExtend 64 = 0 ↔ r = 0 := by
  rw [← BitVec.toInt_inj, ← BitVec.toInt_inj, BitVec.toInt_signExtend_of_le (by omega)]
  rfl

theorem signExtend_slt_zero (r : BitVec 32) : (r.signExtend 64).slt 0 = decide (r.toInt < 0) := by
  rw [BitVec.slt_eq_decide, BitVec.toInt_signExtend_of_le (by omega)]
  rfl

theorem sub_eq_zero_iff_eq : a - b = 0 ↔ a = b := by
  rw [← BitVec.toNat_inj, ← BitVec.toNat_inj, BitVec.toNat_sub]
  have ha := a.isLt
  have hb := b.isLt
  simp only [BitVec.ofNat_eq_ofNat, BitVec.toNat_ofNat, Nat.reducePow] at *
  omega

/-- **Flags.** They are those of the signed and of the unsigned comparison. -/
theorem iccSignedSub_eq [Decidable (Overflows a b)] : iccSignedSub a b (a - b) =
    flags (decide ((a - b).toInt < 0)) (decide (a = b)) (decide (a.toNat < b.toNat)) (decide (Overflows a b)) := by
  have hoverflow : subOverflow a b (a - b) = if Overflows a b then 1 else 0 := by
    unfold subOverflow
    refine if_congr ?_ rfl rfl
    rw [overflows_iff]
    simp [BitVec.slt_eq_decide, BitVec.sle_eq_decide, and_assoc]
  unfold iccSignedSub calcICC_sub flags
  rw [hoverflow]
  simp only [signExtend_slt_zero, signExtend_eq_zero_iff, sub_eq_zero_iff_eq, signExtend_lt_iff, decide_eq_true_eq]

/-- Every test decides what its condition says. -/
theorem test_iff_holds (c : Cond) : c.test (iccSignedSub a b (a - b)) = true ↔ c.Holds a b := by
  classical
  have hnat : a = b ↔ a.toNat = b.toNat := BitVec.toNat_inj.symm
  have hint : a = b ↔ a.toInt = b.toInt := BitVec.toInt_inj.symm
  have hlt : (decide ((a - b).toInt < 0) ^^ decide (Overflows a b)) = decide (a.toInt < b.toInt) := by
    rw [Bool.eq_iff_iff, bne_iff_ne, Ne, decide_eq_decide, decide_eq_true_eq]
    exact (signed_lt_iff a b).symm
  rw [iccSignedSub_eq, test_flags]
  cases c <;> simp only [Cond.Holds, hlt, Bool.not_eq_true', Bool.or_eq_true, Bool.or_eq_false_iff, Bool.and_eq_true,
    decide_eq_true_eq, decide_eq_false_iff_not, ne_eq, Int.not_lt, Nat.not_lt]
  -- what is left combines an order with equality
  case C_OR_Z_NOT | C_OR_Z | C_AND_NOTZ | NOTC_OR_Z => rw [hnat]; omega
  case G | LE => rw [hint]; omega

end

/-- The flags of the lower lane reach the register of flags and the destination. -/
theorem icc_S32_SUB {sub : Scuop} (s : Scstate) (hset : sub.seticc = true) {r : RegType}
    (hr : r = LREG_ICC ∨ r = sub.dst ∧ sub.dst ≠ 0) :
    (OP_S32_SUB sub s).getICC r =
      iccSignedSub (sub.first s 32 0) (sub.second s 32 0) (sub.first s 32 0 - sub.second s 32 0) := by
  apply Scstate.getICC_setDst
  rcases hr with hr | hr
  · exact .inl ⟨hr, hset⟩
  · exact .inr hr

/-- The two opcodes whose test is not what their name says. -/
def CondOp.Swapped : CondOp → Prop
  | .CSUB c => c = .C_AND_NOTZ ∨ c = .NOTC_OR_Z
  | _ => False

theorem CondOp.test_eq {op : CondOp} (h : ¬op.Swapped) (icc : CCType) : op.test icc = op.cond.test icc := by
  cases op with
  | RB c | LB c | CMOV c _ | CADD c => rfl
  | CSUB c => cases c <;> first | rfl | simp [CondOp.Swapped] at h

/-- **Compare, then decide.** A conditional micro-op that reads the flags of an `OP_S32_SUB` takes its
true side exactly when its condition holds of the operands' lower halves. -/
theorem S32_SUB_compare (op : CondOp) (hop : ¬op.Swapped) (sub inst : Scuop) (s : Scstate) (hset : sub.seticc = true)
    (hsrc : inst.src1 = LREG_ICC ∨ inst.src1 = sub.dst ∧ sub.dst ≠ 0) :
    (op.cond.Holds (sub.first s 32 0) (sub.second s 32 0) →
      op.execute inst (OP_S32_SUB sub s) = op.taken inst (OP_S32_SUB sub s)) ∧
    (¬op.cond.Holds (sub.first s 32 0) (sub.second s 32 0) →
      op.execute inst (OP_S32_SUB sub s) = op.notTaken inst (OP_S32_SUB sub s)) := by
  have htest : op.test ((OP_S32_SUB sub s).getICC inst.src1) = true ↔
      op.cond.Holds (sub.first s 32 0) (sub.second s 32 0) := by
    rw [CondOp.test_eq hop, icc_S32_SUB s hset hsrc]
    exact test_iff_holds _ _ _
  unfold CondOp.execute
  exact ⟨fun h => if_pos (htest.2 h), fun h => if_neg fun ht => h (htest.1 ht)⟩

/-- The least integer compared with one, both in registers. -/
def leastAndOne : Scstate where
  rf := fun r => if r = 1 then 0x80000000 else if r = 2 then 1 else 0
  iccrf := fun _ => 0
  pc := 0
  flush := false
  nop := false

/-- The wrapped difference is positive, and the branch on less is taken all the same. -/
theorem S32_SUB_compare_least :
    (CondOp.LB .L).execute ⟨true, false, LREG_ICC, 0, 0, 64⟩ (OP_S32_SUB ⟨false, true, 1, 2, 0, 0⟩ leastAndOne) =
      (CondOp.LB .L).taken ⟨true, false, LREG_ICC, 0, 0, 64⟩ (OP_S32_SUB ⟨false, true, 1, 2, 0, 0⟩ leastAndOne) :=
  (S32_SUB_compare (.LB .L) id ⟨false, true, 1, 2, 0, 0⟩ ⟨true, false, LREG_ICC, 0, 0, 64⟩ leastAndOne rfl (.inl rfl)).1
    (by unfold CondOp.cond Cond.Holds; decide)

/-- **Swapped.** The two other opcodes compare for equality. -/
theorem S32_SUB_compare_swapped (sub inst : Scuop) (s : Scstate) (hset : sub.seticc = true)
    (hsrc : inst.src1 = LREG_ICC ∨ inst.src1 = sub.dst ∧ sub.dst ≠ 0) :
    ((CondOp.CSUB .C_AND_NOTZ).test ((OP_S32_SUB sub s).getICC inst.src1) = true ↔
      sub.first s 32 0 ≠ sub.second s 32 0) ∧
    ((CondOp.CSUB .NOTC_OR_Z).test ((OP_S32_SUB sub s).getICC inst.src1) = true ↔
      sub.first s 32 0 = sub.second s 32 0) := by
  rw [icc_S32_SUB s hset hsrc]
  generalize sub.first s 32 0 = a
  generalize sub.second s 32 0 = b
  have hnat : a = b ↔ a.toNat = b.toNat := BitVec.toNat_inj.symm
  have hcs := test_iff_holds a b .CS
  have hcc := test_iff_holds a b .CC
  have hne := test_iff_holds a b .NE
  have he := test_iff_holds a b .E
  simp only [Cond.test, Cond.Holds] at hcs hcc hne he
  simp only [CondOp.test, Cond.testCSUB, Bool.or_eq_true, Bool.and_eq_true]
  rw [hcs, hcc, hne, he, Ne, hnat]
  omega

end Esesc.Emul
