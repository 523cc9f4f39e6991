import Esesc.Emul.Conditions
import Esesc.Emul.Joined
import Esesc.Lib.TwosComplement

/-!
# Carries

`OP_S64_ADD`, `OP_S32_ADD` and `OP_S64_SUB` leave flags, `OP_S64_COPYICC` copies them to the register
that holds the upper word, and the `ADDXX` and `ROTRXX` micro-ops take a carry from there.

* `icc_S64_ADD_iff`, …: the operands for which the flags are right.
* `addxx_carry`, `rotrxx_carry`: when a carry is taken as it was left.
* `chain_S64_iff`, `chain_S32_iff`: when two additions in a row make one of twice the width.
-/

namespace Esesc.Emul

open Esesc.Lib

/-! ## The micro-ops -/

section

variable (inst : Scuop) (s : Scstate)

/-- `temp1` and `temp2`. -/
def temp1 : BitVec 64 := s.getReg inst.src1

def temp2 : BitVec 64 := inst.operand s 64 0

/-- The overflow test of `OP_S64_ADD` and `OP_S64_ADDXX`. The result is unsigned: it is positive unless
zero, and never negative. -/
def overflowADD (a b res : BitVec 64) : CCType := if a.slt 0 && b.slt 0 && decide (0 < res) then 1 else 0

/-- That of `OP_S64_SUB`, where the result is never negative either. -/
def overflowSUB (a b : BitVec 64) : CCType := if a.slt 0 && (0 : BitVec 64).sle b then 1 else 0

def iccS64_ADD : CCType :=
  let res := temp1 inst s + temp2 inst s
  calcICC (temp1 inst s) (temp2 inst s) res ||| overflowADD (temp1 inst s) (temp2 inst s) res

def OP_S64_ADD : Scstate := s.setDst inst (temp1 inst s + temp2 inst s) (iccS64_ADD inst s)

def iccS64_SUB : CCType :=
  let res := temp1 inst s - temp2 inst s
  calcICC (temp1 inst s) (temp2 inst s) res ||| overflowSUB (temp1 inst s) (temp2 inst s)

def OP_S64_SUB : Scstate := s.setDst inst (temp1 inst s - temp2 inst s) (iccS64_SUB inst s)

def OP_S64_COPYICC : Scstate := s.setDst inst (s.getReg inst.src2) (s.getICC inst.src1)

/-- `(getICC(src1) >> k) & 1`. -/
def carryBit (k : ℕ) : CCType := (s.getICC inst.src1 >>> k) &&& 1

def resS64_ADDXX : BitVec 64 := temp1 inst s + temp2 inst s + (carryBit inst s 5).setWidth 64

def OP_S64_ADDXX : Scstate :=
  let res := resS64_ADDXX inst s
  s.setDst inst res (calcICC (temp1 inst s) (temp2 inst s) res ||| overflowADD (temp1 inst s) (temp2 inst s) res)

/-- `bottomS32` takes bit 2 of the flags, and `topS32` bit 5. -/
def bottomS32_ADDXX : BitVec 32 := inst.first s 32 0 + inst.second s 32 0 + (carryBit inst s 2).setWidth 32

def topS32_ADDXX : BitVec 32 := inst.first s 32 32 + inst.second s 32 32 + (carryBit inst s 5).setWidth 32

def OP_S32_ADDXX : Scstate :=
  s.setDst inst (shlS (topS32_ADDXX inst s) 32 ||| (bottomS32_ADDXX inst s).signExtend 64)
    (iccSignedAdd (inst.first s 32 0) (inst.second s 32 0) (bottomS32_ADDXX inst s))

/-- `(a >> 1) | (carry_bit << (w - 1))`, of a signed variable. -/
def rotrxx {w : ℕ} (a : BitVec w) (carry : CCType) : BitVec w := a.sshiftRight 1 ||| carry.setWidth w <<< (w - 1)

/-- The flags of a rotation, of its result and the bit that is shifted out. -/
def iccROTRXX {w : ℕ} (a r : BitVec w) : CCType :=
  calcNZ (r.signExtend 64) ||| (a &&& 1).setWidth 8 <<< 1 ||| (s.getICC LREG_ICC &&& 1)

def resS64_ROTRXX : BitVec 64 := rotrxx (temp1 inst s) (carryBit inst s 2)

def OP_S64_ROTRXX : Scstate :=
  s.setDst inst (resS64_ROTRXX inst s) (iccROTRXX s (temp1 inst s) (resS64_ROTRXX inst s))

def bottomS32_ROTRXX : BitVec 32 := rotrxx (inst.first s 32 0) (carryBit inst s 2)

def topS32_ROTRXX : BitVec 32 := rotrxx (inst.first s 32 32) (carryBit inst s 5)

def OP_S32_ROTRXX : Scstate :=
  s.setDst inst (shlS (topS32_ROTRXX inst s) 32 ||| (bottomS32_ROTRXX inst s).signExtend 64)
    (iccROTRXX s (inst.first s 32 0) (bottomS32_ROTRXX inst s))

end

/-! ## What they should do -/

section

variable {w : ℕ}

/-- **Flags of an addition.** -/
structure AddFlags (a b : BitVec w) (icc : CCType) : Prop where
  neg : ccN icc ≠ 0 ↔ (a + b).toInt < 0
  zero : ccZ icc ≠ 0 ↔ a + b = 0
  overflow : ccV icc ≠ 0 ↔ a.toInt + b.toInt < -half w ∨ half w ≤ a.toInt + b.toInt
  carry : ccC icc ≠ 0 ↔ 2 ^ w ≤ a.toNat + b.toNat

/-- **Flags of a subtraction.** The carry is the borrow. -/
structure SubFlags (a b : BitVec w) (icc : CCType) : Prop where
  neg : ccN icc ≠ 0 ↔ (a - b).toInt < 0
  zero : ccZ icc ≠ 0 ↔ a - b = 0
  overflow : ccV icc ≠ 0 ↔ a.toInt - b.toInt < -half w ∨ half w ≤ a.toInt - b.toInt
  carry : ccC icc ≠ 0 ↔ a.toNat < b.toNat

/-- The word shifted by one, with the carry in front. -/
def rotateCarry (a : BitVec w) (c : CCType) : BitVec w := a >>> 1 ||| c.setWidth w <<< (w - 1)

end

/-! ## Flags -/

theorem flags_bits (n z c v : Bool) :
    (ccN (flags n z c v) ≠ 0 ↔ n = true) ∧ (ccZ (flags n z c v) ≠ 0 ↔ z = true) ∧
    (ccC (flags n z c v) ≠ 0 ↔ c = true) ∧ (ccV (flags n z c v) ≠ 0 ↔ v = true) := by
  cases n <;> cases z <;> cases c <;> cases v <;> decide

theorem calcICC_eq (a b r : BitVec 64) (v : Bool) : (calcICC a b r ||| if v then 1 else 0) =
    flags (r.slt 0) (decide (r = 0)) (r.slt a || r.slt b) v := by
  unfold calcICC flags
  simp only [decide_eq_true_eq]

/-- The flags of a micro-op that uses `calcICC`. -/
theorem calcICC_bits (a b r : BitVec 64) (v : Bool) :
    (ccN (calcICC a b r ||| if v then 1 else 0) ≠ 0 ↔ r.toInt < 0) ∧
    (ccZ (calcICC a b r ||| if v then 1 else 0) ≠ 0 ↔ r = 0) ∧
    (ccC (calcICC a b r ||| if v then 1 else 0) ≠ 0 ↔ r.toInt < a.toInt ∨ r.toInt < b.toInt) ∧
    (ccV (calcICC a b r ||| if v then 1 else 0) ≠ 0 ↔ v = true) := by
  have hzero : (0 : BitVec 64).toInt = 0 := BitVec.toInt_zero
  have hbits := flags_bits (r.slt 0) (decide (r = 0)) (r.slt a || r.slt b) v
  rw [calcICC_eq]
  simpa only [BitVec.slt_eq_decide, hzero, Bool.or_eq_true, decide_eq_true_eq] using hbits

/-! ## Producers -/

section

variable {w : ℕ} (hw : 0 < w) (a b : BitVec w)

include hw

/-- The test for a carry, without the sum: it says yes whenever the signs differ. -/
theorem sum_less_iff : ((a + b).toInt < a.toInt ∨ (a + b).toInt < b.toInt) ↔
    (a.toInt < 0 ∧ 0 ≤ b.toInt) ∨ (0 ≤ a.toInt ∧ b.toInt < 0) ∨
    (a.toInt < 0 ∧ b.toInt < 0 ∧ -half w ≤ a.toInt + b.toInt) ∨ half w ≤ a.toInt + b.toInt := by
  have ha : -half w ≤ a.toInt ∧ a.toInt < half w := ⟨a.le_toInt, a.toInt_lt⟩
  have hb : -half w ≤ b.toInt ∧ b.toInt < half w := ⟨b.le_toInt, b.toInt_lt⟩
  rw [toInt_add_eq hw]
  split
  · omega
  split
  · omega
  · omega

/-- The same test on a difference. -/
theorem diff_less_iff : ((a - b).toInt < a.toInt ∨ (a - b).toInt < b.toInt) ↔
    (0 < b.toInt ∧ -half w ≤ a.toInt - b.toInt) ∨ half w ≤ a.toInt - b.toInt ∨
    (a.toInt - b.toInt < b.toInt ∧ -half w ≤ a.toInt - b.toInt) ∨
    (a.toInt - b.toInt < -half w ∧ a.toInt + 2 * half w < 2 * b.toInt) := by
  have ha : -half w ≤ a.toInt ∧ a.toInt < half w := ⟨a.le_toInt, a.toInt_lt⟩
  have hb : -half w ≤ b.toInt ∧ b.toInt < half w := ⟨b.le_toInt, b.toInt_lt⟩
  rw [toInt_sub_eq hw]
  split
  · omega
  split
  · omega
  · omega

end

section

variable (a b : BitVec 64)

/-- **`OP_S64_ADD`.** A sum of negative operands has the wrong flags, and so has any sum that is negative or
too great. -/
theorem icc_S64_ADD_iff : AddFlags a b (calcICC a b (a + b) ||| overflowADD a b (a + b)) ↔
    ¬(a.toInt < 0 ∧ b.toInt < 0) ∧ 0 ≤ a.toInt + b.toInt ∧ a.toInt + b.toInt < half 64 := by
  have hw : 0 < 64 := by decide
  have ha : -half 64 ≤ a.toInt ∧ a.toInt < half 64 := ⟨a.le_toInt, a.toInt_lt⟩
  have hb : -half 64 ≤ b.toInt ∧ b.toInt < half 64 := ⟨b.le_toInt, b.toInt_lt⟩
  have hover : (a.slt 0 && b.slt 0 && decide (0 < a + b)) = true ↔
      a.toInt < 0 ∧ b.toInt < 0 ∧ a.toInt + b.toInt ≠ -2 * half 64 := by
    have hzero : (0 : BitVec 64).toInt = 0 := BitVec.toInt_zero
    have hpos : 0 < a + b ↔ (a + b).toInt ≠ 0 := by
      rw [← hzero, Ne, BitVec.toInt_inj]
      exact BitVec.pos_iff_ne_zero _
    simp only [BitVec.slt_eq_decide, hzero, hpos, Bool.and_eq_true, decide_eq_true_eq, and_assoc]
    refine and_congr_right fun hA => and_congr_right fun hB => ?_
    rw [toInt_add_eq hw]
    split <;> omega
  obtain ⟨hN, hZ, hC, hV⟩ := calcICC_bits a b (a + b) (a.slt 0 && b.slt 0 && decide (0 < a + b))
  replace hV := hV.trans hover
  replace hC := hC.trans (sum_less_iff hw a b)
  have hcarry := carry_iff_toInt hw a b
  unfold overflowADD
  constructor
  · intro h
    have hV' := hV.symm.trans h.overflow
    have hC' := hC.symm.trans (h.carry.trans hcarry)
    omega
  · rintro ⟨hneg, hlo, hhi⟩
    refine ⟨hN, hZ, hV.trans ?_, (hC.trans ?_).trans hcarry.symm⟩
    · exact iff_of_false (by omega) (by omega)
    · omega

/-- The overflow and the carry flag of `OP_S64_SUB`, with `h` half the number of values. -/
theorem sub_flags_int {h a b : ℤ} (ha : -h ≤ a ∧ a < h) (hb : -h ≤ b ∧ b < h) :
    ((a < 0 ∧ 0 ≤ b) ↔ a - b < -h ∨ h ≤ a - b) ∧
      (((0 < b ∧ -h ≤ a - b) ∨ h ≤ a - b ∨ (a - b < b ∧ -h ≤ a - b) ∨ (a - b < -h ∧ a + 2 * h < 2 * b)) ↔
      ((a < 0 ↔ b < 0) ∧ a < b) ∨ (0 ≤ a ∧ b < 0)) ↔
      (0 ≤ a ∧ 0 ≤ b ∧ (b = 0 ∨ a < b)) ∨ (a < 0 ∧ b < 0 ∧ (a < 2 * b ∨ b ≤ a)) ∨
      (a < 0 ∧ 0 ≤ b ∧ a - b < -h ∧ 2 * b ≤ a + 2 * h) := by
  constructor
  · rintro ⟨hV, hC⟩
    rcases lt_or_ge a 0 with hA | hA
    · rcases lt_or_ge b 0 with hB | hB
      · have hC' : a < 2 * b ↔ a < b := by omega
        omega
      · omega
    · rcases lt_or_ge b 0 with hB | hB
      · omega
      · have hC' : 0 < b ↔ a < b := by omega
        omega
  · rintro (⟨hA, hB, h0⟩ | ⟨hA, hB, h0⟩ | ⟨hA, hB, hover, h0⟩)
    · exact ⟨iff_of_false (by omega) (by omega), by omega⟩
    · exact ⟨iff_of_false (by omega) (by omega), by omega⟩
    · exact ⟨iff_of_true (by omega) (by omega), iff_of_false (by omega) (by omega)⟩

/-- **`OP_S64_SUB`.** The carry is tested as after an addition. -/
theorem icc_S64_SUB_iff : SubFlags a b (calcICC a b (a - b) ||| overflowSUB a b) ↔
    (0 ≤ a.toInt ∧ 0 ≤ b.toInt ∧ (b.toInt = 0 ∨ a.toInt < b.toInt)) ∨
    (a.toInt < 0 ∧ b.toInt < 0 ∧ (a.toInt < 2 * b.toInt ∨ b.toInt ≤ a.toInt)) ∨
    (a.toInt < 0 ∧ 0 ≤ b.toInt ∧ a.toInt - b.toInt < -half 64 ∧ 2 * b.toInt ≤ a.toInt + 2 * half 64) := by
  have hw : 0 < 64 := by decide
  have ha : -half 64 ≤ a.toInt ∧ a.toInt < half 64 := ⟨a.le_toInt, a.toInt_lt⟩
  have hb : -half 64 ≤ b.toInt ∧ b.toInt < half 64 := ⟨b.le_toInt, b.toInt_lt⟩
  have hover : (a.slt 0 && (0 : BitVec 64).sle b) = true ↔ a.toInt < 0 ∧ 0 ≤ b.toInt := by
    have hzero : (0 : BitVec 64).toInt = 0 := BitVec.toInt_zero
    simp only [BitVec.slt_eq_decide, BitVec.sle_eq_decide, hzero, Bool.and_eq_true, decide_eq_true_eq]
  obtain ⟨hN, hZ, hC, hV⟩ := calcICC_bits a b (a - b) (a.slt 0 && (0 : BitVec 64).sle b)
  replace hV := hV.trans hover
  replace hC := hC.trans (diff_less_iff hw a b)
  have hborrow := borrow_iff_toInt hw a b
  unfold overflowSUB
  rw [← sub_flags_int ha hb]
  constructor
  · exact fun h => ⟨hV.symm.trans h.overflow, hC.symm.trans (h.carry.trans hborrow)⟩
  · exact fun h => ⟨hN, hZ, hV.trans h.1, (hC.trans h.2).trans hborrow.symm⟩

end

/-- **`OP_S32_ADD`.** Here a sum of negative operands may be right. -/
theorem icc_S32_ADD_iff (a b : BitVec 32) : AddFlags a b (iccSignedAdd a b (a + b)) ↔
    -half 32 ≤ a.toInt + b.toInt ∧ a.toInt + b.toInt < half 32 ∧
    ((a.toInt < 0 ↔ b.toInt < 0) ∨ 0 ≤ a.toInt + b.toInt) := by
  have hw : 0 < 32 := by decide
  have ha : -half 32 ≤ a.toInt ∧ a.toInt < half 32 := ⟨a.le_toInt, a.toInt_lt⟩
  have hb : -half 32 ≤ b.toInt ∧ b.toInt < half 32 := ⟨b.le_toInt, b.toInt_lt⟩
  have hwide : ∀ x : BitVec 32, (x.signExtend 64).toInt = x.toInt := fun x => BitVec.toInt_signExtend_of_le (by decide)
  have hover : ((a.slt 0 && b.slt 0 && (0 : BitVec 32).slt (a + b)) ||
      ((0 : BitVec 32).slt a && (0 : BitVec 32).slt b && (a + b).slt 0)) = true ↔
      (-2 * half 32 < a.toInt + b.toInt ∧ a.toInt + b.toInt < -half 32) ∨ half 32 ≤ a.toInt + b.toInt := by
    have hzero : (0 : BitVec 32).toInt = 0 := BitVec.toInt_zero
    simp only [BitVec.slt_eq_decide, hzero, Bool.and_eq_true, Bool.or_eq_true, decide_eq_true_eq, and_assoc]
    rw [toInt_add_eq hw]
    split
    · omega
    split
    · omega
    · omega
  obtain ⟨hN, hZ, hC, hV⟩ := calcICC_bits (a.signExtend 64) (b.signExtend 64) ((a + b).signExtend 64)
    ((a.slt 0 && b.slt 0 && (0 : BitVec 32).slt (a + b)) ||
      ((0 : BitVec 32).slt a && (0 : BitVec 32).slt b && (a + b).slt 0))
  replace hV := hV.trans hover
  rw [hwide] at hN
  rw [signExtend_eq_zero_iff] at hZ
  rw [hwide, hwide, hwide] at hC
  replace hC := hC.trans (sum_less_iff hw a b)
  have hcarry := carry_iff_toInt hw a b
  unfold iccSignedAdd addOverflow
  constructor
  · intro h
    have hC' := hC.symm.trans (h.carry.trans hcarry)
    have hfits : -half 32 ≤ a.toInt + b.toInt ∧ a.toInt + b.toInt < half 32 := by omega
    exact ⟨hfits.1, hfits.2, by omega⟩
  · rintro ⟨hlo, hhi, hsign⟩
    refine ⟨hN, hZ, hV.trans ?_, (hC.trans ?_).trans hcarry.symm⟩
    · exact iff_of_false (by omega) (by omega)
    · omega

/-! ## Consumers -/

section

variable (inst : Scuop) (s : Scstate)

theorem setWidth_bit_inj {w : ℕ} (hw : 8 ≤ w) {x y : CCType} : x.setWidth w = y.setWidth w ↔ x = y := by
  rw [← BitVec.toNat_inj, ← BitVec.toNat_inj, BitVec.toNat_setWidth_of_le hw, BitVec.toNat_setWidth_of_le hw]

/-- **Add with carry.** The bit that is added is the carry flag exactly when it is equal to it. -/
theorem addxx_carry {w : ℕ} (hw : 8 ≤ w) (a b : BitVec w) (x y : CCType) :
    a + b + x.setWidth w = a + b + y.setWidth w ↔ x = y := by
  rw [BitVec.add_right_inj, setWidth_bit_inj hw]

/-- **Rotate with extend.** The sign is shifted in as well. -/
theorem rotrxx_carry {w : ℕ} (hw : 8 ≤ w) (a : BitVec w) {x y : CCType} (hx : x = 0 ∨ x = 1) (hy : y = 0 ∨ y = 1) :
    rotrxx a x = rotateCarry a y ↔ ((a.msb = true ∨ x = 1) ↔ y = 1) := by
  -- below the top bit both hold the bits of `a`
  have hlow : ∀ (c : CCType) i, i < w - 1 → (c.setWidth w <<< (w - 1)).getLsbD i = false := by
    intro c i hi
    rw [BitVec.getLsbD_shiftLeft]
    simp [hi]
  have htop : ∀ c : CCType, c = 0 ∨ c = 1 → ((c.setWidth w <<< (w - 1)).getLsbD (w - 1) = true ↔ c = 1) := by
    intro c hc
    have hin : w - 1 < w := by omega
    rcases hc with rfl | rfl <;> simp [hin]
  have hcode : (rotrxx a x).getLsbD (w - 1) = true ↔ a.msb = true ∨ x = 1 := by
    have hout : ¬1 + (w - 1) < w := by omega
    have hin : ¬w ≤ w - 1 := by omega
    rw [rotrxx, BitVec.getLsbD_or, Bool.or_eq_true, htop x hx, BitVec.getLsbD_sshiftRight]
    simp [hout, hin]
  have hexact : (rotateCarry a y).getLsbD (w - 1) = true ↔ y = 1 := by
    have hout : a.getLsbD (1 + (w - 1)) = false := BitVec.getLsbD_of_ge a _ (by omega)
    rw [rotateCarry, BitVec.getLsbD_or, Bool.or_eq_true, htop y hy, BitVec.getLsbD_ushiftRight, hout]
    simp
  constructor
  · intro h
    rw [← hcode, h, hexact]
  · intro h
    apply BitVec.eq_of_getLsbD_eq
    intro i hi
    by_cases hi' : i < w - 1
    · have hin : 1 + i < w := by omega
      have hin' : ¬w ≤ i := by omega
      rw [rotrxx, rotateCarry, BitVec.getLsbD_or, BitVec.getLsbD_or, hlow x i hi', hlow y i hi',
        BitVec.getLsbD_sshiftRight, BitVec.getLsbD_ushiftRight]
      simp [hin, hin']
    · have hlast : i = w - 1 := by omega
      rw [hlast, Bool.eq_iff_iff, hcode, hexact]
      exact h

end

/-! ## Two in a row -/

section

variable {low copy high : Scuop} (s : Scstate)

/-- The flags of the lower addition reach the register of the upper word. -/
theorem icc_copied (hset : low.seticc = true) (hcopy : copy.src1 = LREG_ICC) (hdst : copy.dst ≠ 0)
    (hsrc : high.src1 = copy.dst) (data : BitVec 64) (icc : CCType) :
    (OP_S64_COPYICC copy (s.setDst low data icc)).getICC high.src1 = icc := by
  have hflags : (s.setDst low data icc).getICC LREG_ICC = icc := Scstate.getICC_setDst (.inl ⟨rfl, hset⟩)
  unfold OP_S64_COPYICC
  rw [hcopy, hflags]
  exact Scstate.getICC_setDst (.inr ⟨hsrc, hdst⟩)

theorem no_bit_five (a b r : BitVec 64) (v : Bool) :
    ((calcICC a b r ||| if v then 1 else 0) >>> 5) &&& 1 = 0 := by
  rw [calcICC_eq]
  cases r.slt 0 <;> cases decide (r = 0) <;> cases (r.slt a || r.slt b) <;> cases v <;> decide

/-- The carry flag as it is left in the register of the first operand. -/
def flagC (inst : Scuop) (s : Scstate) : CCType := ccC (s.getICC inst.src1)

/-- **Consumers.** None of them reads bit 1. -/
theorem consumers_iff (inst : Scuop) :
    (resS64_ADDXX inst s = temp1 inst s + temp2 inst s + (flagC inst s).setWidth 64 ↔
      carryBit inst s 5 = flagC inst s) ∧
    (bottomS32_ADDXX inst s = inst.first s 32 0 + inst.second s 32 0 + (flagC inst s).setWidth 32 ↔
      carryBit inst s 2 = flagC inst s) ∧
    (topS32_ADDXX inst s = inst.first s 32 32 + inst.second s 32 32 + (flagC inst s).setWidth 32 ↔
      carryBit inst s 5 = flagC inst s) ∧
    (resS64_ROTRXX inst s = rotateCarry (temp1 inst s) (flagC inst s) ↔
      (((temp1 inst s).msb = true ∨ carryBit inst s 2 = 1) ↔ flagC inst s = 1)) ∧
    (bottomS32_ROTRXX inst s = rotateCarry (inst.first s 32 0) (flagC inst s) ↔
      (((inst.first s 32 0).msb = true ∨ carryBit inst s 2 = 1) ↔ flagC inst s = 1)) ∧
    (topS32_ROTRXX inst s = rotateCarry (inst.first s 32 32) (flagC inst s) ↔
      (((inst.first s 32 32).msb = true ∨ carryBit inst s 5 = 1) ↔ flagC inst s = 1)) := by
  have hC : flagC inst s = 0 ∨ flagC inst s = 1 := bit_cases _
  have hbit : ∀ k, carryBit inst s k = 0 ∨ carryBit inst s k = 1 := fun k => bit_cases _
  refine ⟨addxx_carry (by decide) _ _ _ _, addxx_carry (by decide) _ _ _ _, addxx_carry (by decide) _ _ _ _, ?_, ?_, ?_⟩
  · exact rotrxx_carry (by decide) _ (hbit 2) hC
  · exact rotrxx_carry (by decide) _ (hbit 2) hC
  · exact rotrxx_carry (by decide) _ (hbit 5) hC

theorem setWidth_bit {w : ℕ} (hw : 8 ≤ w) {x : CCType} (hx : x = 0 ∨ x = 1) :
    (x.setWidth w = 0 ∨ x.setWidth w = 1) ∧ (x.setWidth w = 1 ↔ x = 1) := by
  have hone : (1 : CCType).setWidth w = 1 := by
    apply BitVec.eq_of_toNat_eq
    rw [BitVec.toNat_setWidth_of_le hw]
    exact (Nat.mod_eq_of_lt (Nat.one_lt_two_pow (by omega))).symm
  have hzero : (0 : CCType).setWidth w = 0 := by simp
  refine ⟨?_, ?_⟩
  · rcases hx with rfl | rfl
    · exact .inl hzero
    · exact .inr hone
  · rw [← hone, setWidth_bit_inj hw]

/-- **Double width, 64 bits.** The carry never arrives. -/
theorem chain_S64_iff (hset : low.seticc = true) (hcopy : copy.src1 = LREG_ICC) (hdst : copy.dst ≠ 0)
    (hsrc : high.src1 = copy.dst) :
    resS64_ADDXX high (OP_S64_COPYICC copy (OP_S64_ADD low s)) ++ (temp1 low s + temp2 low s) =
      (temp1 high (OP_S64_COPYICC copy (OP_S64_ADD low s)) ++ temp1 low s) +
      (temp2 high (OP_S64_COPYICC copy (OP_S64_ADD low s)) ++ temp2 low s) ↔
    (temp1 low s).toNat + (temp2 low s).toNat < 2 ^ 64 := by
  have hicc : (OP_S64_COPYICC copy (OP_S64_ADD low s)).getICC high.src1 = iccS64_ADD low s :=
    icc_copied s hset hcopy hdst hsrc _ _
  -- the consumer shifts by 5, and there are four flags
  have hbit : carryBit high (OP_S64_COPYICC copy (OP_S64_ADD low s)) 5 = 0 := by
    rw [carryBit, hicc]
    exact no_bit_five _ _ _ _
  obtain ⟨hcase, hone⟩ := setWidth_bit (w := 64) (by decide) (x := 0) (.inl rfl)
  unfold resS64_ADDXX
  rw [hbit, append_add_iff (by decide) _ _ _ _ _ hcase, hone]
  constructor
  · exact fun h => Nat.not_le.1 fun hcarry => absurd (h.2 hcarry) (by decide)
  · exact fun h => iff_of_false (by decide) (Nat.not_le.2 h)

theorem ccZ_S32_ADD (a b : BitVec 32) : ccZ (iccSignedAdd a b (a + b)) ≠ 0 ↔ a + b = 0 := by
  unfold iccSignedAdd addOverflow
  exact (calcICC_bits _ _ _ _).2.1.trans (signExtend_eq_zero_iff _)

/-- **Double width, 32 bits.** The zero flag arrives for the carry. -/
theorem chain_S32_iff (hset : low.seticc = true) (hcopy : copy.src1 = LREG_ICC) (hdst : copy.dst ≠ 0)
    (hsrc : high.src1 = copy.dst) :
    bottomS32_ADDXX high (OP_S64_COPYICC copy (OP_S32_ADD low s)) ++ (low.first s 32 0 + low.second s 32 0) =
      (high.first (OP_S64_COPYICC copy (OP_S32_ADD low s)) 32 0 ++ low.first s 32 0) +
      (high.second (OP_S64_COPYICC copy (OP_S32_ADD low s)) 32 0 ++ low.second s 32 0) ↔
    (low.first s 32 0 + low.second s 32 0 = 0 ↔ 2 ^ 32 ≤ (low.first s 32 0).toNat + (low.second s 32 0).toNat) := by
  have hicc : (OP_S64_COPYICC copy (OP_S32_ADD low s)).getICC high.src1 =
      iccSignedAdd (low.first s 32 0) (low.second s 32 0) (low.first s 32 0 + low.second s 32 0) :=
    icc_copied s hset hcopy hdst hsrc _ _
  have hbit : carryBit high (OP_S64_COPYICC copy (OP_S32_ADD low s)) 2 = 0 ∨
      carryBit high (OP_S64_COPYICC copy (OP_S32_ADD low s)) 2 = 1 := bit_cases _
  have hzero : carryBit high (OP_S64_COPYICC copy (OP_S32_ADD low s)) 2 = 1 ↔
      low.first s 32 0 + low.second s 32 0 = 0 := by
    rw [← ccZ_S32_ADD]
    have hbit' := hbit
    unfold carryBit at hbit' ⊢
    rw [hicc] at hbit' ⊢
    -- the consumer shifts by 2, to where the zero flag is
    rcases hbit' with h | h
    · exact iff_of_false (by rw [h]; decide) fun hne => hne h
    · exact iff_of_true h fun h0 => absurd (h.symm.trans h0) (by decide)
  obtain ⟨hcase, hone⟩ := setWidth_bit (w := 32) (by decide) hbit
  unfold bottomS32_ADDXX
  rw [append_add_iff (by decide) _ _ _ _ _ hcase]
  exact iff_congr (hone.trans hzero) Iff.rfl

/-- **Carries.** When the flags of the three producers are right, when the consumers take the carry flag, and
when a lower addition and an upper one with carry, as the front end cracks them, make one of twice the
width. -/
theorem carries_iff (inst : Scuop) (hset : low.seticc = true) (hcopy : copy.src1 = LREG_ICC)
    (hdst : copy.dst ≠ 0) (hsrc : high.src1 = copy.dst) :
    (AddFlags (temp1 inst s) (temp2 inst s) (iccS64_ADD inst s) ↔
      ¬((temp1 inst s).toInt < 0 ∧ (temp2 inst s).toInt < 0) ∧
      0 ≤ (temp1 inst s).toInt + (temp2 inst s).toInt ∧ (temp1 inst s).toInt + (temp2 inst s).toInt < half 64) ∧
    (AddFlags (inst.first s 32 0) (inst.second s 32 0) (packedICC .add inst s .S32) ↔
      -half 32 ≤ (inst.first s 32 0).toInt + (inst.second s 32 0).toInt ∧
      (inst.first s 32 0).toInt + (inst.second s 32 0).toInt < half 32 ∧
      (((inst.first s 32 0).toInt < 0 ↔ (inst.second s 32 0).toInt < 0) ∨
        0 ≤ (inst.first s 32 0).toInt + (inst.second s 32 0).toInt)) ∧
    (SubFlags (temp1 inst s) (temp2 inst s) (iccS64_SUB inst s) ↔
      (0 ≤ (temp1 inst s).toInt ∧ 0 ≤ (temp2 inst s).toInt ∧
        ((temp2 inst s).toInt = 0 ∨ (temp1 inst s).toInt < (temp2 inst s).toInt)) ∨
      ((temp1 inst s).toInt < 0 ∧ (temp2 inst s).toInt < 0 ∧
        ((temp1 inst s).toInt < 2 * (temp2 inst s).toInt ∨ (temp2 inst s).toInt ≤ (temp1 inst s).toInt)) ∨
      ((temp1 inst s).toInt < 0 ∧ 0 ≤ (temp2 inst s).toInt ∧
        (temp1 inst s).toInt - (temp2 inst s).toInt < -half 64 ∧
        2 * (temp2 inst s).toInt ≤ (temp1 inst s).toInt + 2 * half 64)) ∧
    ((resS64_ADDXX inst s = temp1 inst s + temp2 inst s + (flagC inst s).setWidth 64 ↔
      carryBit inst s 5 = flagC inst s) ∧
    (bottomS32_ADDXX inst s = inst.first s 32 0 + inst.second s 32 0 + (flagC inst s).setWidth 32 ↔
      carryBit inst s 2 = flagC inst s) ∧
    (topS32_ADDXX inst s = inst.first s 32 32 + inst.second s 32 32 + (flagC inst s).setWidth 32 ↔
      carryBit inst s 5 = flagC inst s) ∧
    (resS64_ROTRXX inst s = rotateCarry (temp1 inst s) (flagC inst s) ↔
      (((temp1 inst s).msb = true ∨ carryBit inst s 2 = 1) ↔ flagC inst s = 1)) ∧
    (bottomS32_ROTRXX inst s = rotateCarry (inst.first s 32 0) (flagC inst s) ↔
      (((inst.first s 32 0).msb = true ∨ carryBit inst s 2 = 1) ↔ flagC inst s = 1)) ∧
    (topS32_ROTRXX inst s = rotateCarry (inst.first s 32 32) (flagC inst s) ↔
      (((inst.first s 32 32).msb = true ∨ carryBit inst s 5 = 1) ↔ flagC inst s = 1))) ∧
    (resS64_ADDXX high (OP_S64_COPYICC copy (OP_S64_ADD low s)) ++ (temp1 low s + temp2 low s) =
        (temp1 high (OP_S64_COPYICC copy (OP_S64_ADD low s)) ++ temp1 low s) +
        (temp2 high (OP_S64_COPYICC copy (OP_S64_ADD low s)) ++ temp2 low s) ↔
      (temp1 low s).toNat + (temp2 low s).toNat < 2 ^ 64) ∧
    (bottomS32_ADDXX high (OP_S64_COPYICC copy (OP_S32_ADD low s)) ++ (low.first s 32 0 + low.second s 32 0) =
        (high.first (OP_S64_COPYICC copy (OP_S32_ADD low s)) 32 0 ++ low.first s 32 0) +
        (high.second (OP_S64_COPYICC copy (OP_S32_ADD low s)) 32 0 ++ low.second s 32 0) ↔
      (low.first s 32 0 + low.second s 32 0 = 0 ↔
        2 ^ 32 ≤ (low.first s 32 0).toNat + (low.second s 32 0).toNat)) :=
  ⟨icc_S64_ADD_iff _ _, icc_S32_ADD_iff _ _, icc_S64_SUB_iff _ _, consumers_iff s inst,
    chain_S64_iff s hset hcopy hdst hsrc, chain_S32_iff s hset hcopy hdst hsrc⟩

end

/-- Two double words in registers, `(r34, r33)` and `(r36, r35)`. -/
def doubleWords (a₁ a₀ b₁ b₀ : BitVec 64) : Scstate where
  rf := fun r => if r = 33 then a₀ else if r = 34 then a₁ else if r = 35 then b₀ else if r = 36 then b₁ else 0
  iccrf := fun _ => 0
  pc := 0
  flush := false
  nop := false

/-- The lower addition, the copy of its flags, and the upper addition. -/
def lowAdd : Scuop := ⟨false, true, 33, 35, 37, 0⟩

def copyFlags : Scuop := ⟨false, false, LREG_ICC, 34, 38, 0⟩

def highAdd : Scuop := ⟨false, false, 38, 36, 39, 0⟩

/-- Without a carry between the words. -/
theorem chain_without_carry :
    resS64_ADDXX highAdd (OP_S64_COPYICC copyFlags (OP_S64_ADD lowAdd (doubleWords 1 2 3 4))) ++
        (temp1 lowAdd (doubleWords 1 2 3 4) + temp2 lowAdd (doubleWords 1 2 3 4)) =
      (temp1 highAdd (OP_S64_COPYICC copyFlags (OP_S64_ADD lowAdd (doubleWords 1 2 3 4))) ++
          temp1 lowAdd (doubleWords 1 2 3 4)) +
        (temp2 highAdd (OP_S64_COPYICC copyFlags (OP_S64_ADD lowAdd (doubleWords 1 2 3 4))) ++
          temp2 lowAdd (doubleWords 1 2 3 4)) :=
  (@carries_iff lowAdd copyFlags highAdd (doubleWords 1 2 3 4) lowAdd rfl rfl (by decide) rfl).2.2.2.2.1.2 (by decide)

/-- **A carry lost.** `2^64 - 1` plus one leaves the zero and the carry flag, of which the upper
`OP_S64_ADDXX` reads neither: the upper word is zero. And the flags are wrong where nothing is carried:
minus one plus minus one overflows, and three minus one borrows. -/
theorem carry_not_right :
    ¬(∀ (s : Scstate) (low copy high : Scuop), low.seticc = true → copy.src1 = LREG_ICC → copy.dst ≠ 0 →
      high.src1 = copy.dst →
      resS64_ADDXX high (OP_S64_COPYICC copy (OP_S64_ADD low s)) ++ (temp1 low s + temp2 low s) =
        (temp1 high (OP_S64_COPYICC copy (OP_S64_ADD low s)) ++ temp1 low s) +
        (temp2 high (OP_S64_COPYICC copy (OP_S64_ADD low s)) ++ temp2 low s)) ∧
    iccS64_ADD lowAdd (doubleWords 0 0xFFFFFFFFFFFFFFFF 0 1) = flags false true true false ∧
    resS64_ADDXX highAdd (OP_S64_COPYICC copyFlags
      (OP_S64_ADD lowAdd (doubleWords 0 0xFFFFFFFFFFFFFFFF 0 1))) = 0 ∧
    ccV (iccS64_ADD lowAdd (doubleWords 0 0xFFFFFFFFFFFFFFFF 0 0xFFFFFFFFFFFFFFFF)) = 1 ∧
    ccC (iccS64_SUB lowAdd (doubleWords 0 3 0 1)) = 1 := by
  refine ⟨fun h => ?_, by decide, by decide, by decide, by decide⟩
  have hsum := h (doubleWords 0 0xFFFFFFFFFFFFFFFF 0 1) lowAdd copyFlags highAdd rfl rfl (by decide) rfl
  exact absurd hsum (by decide)

end Esesc.Emul
