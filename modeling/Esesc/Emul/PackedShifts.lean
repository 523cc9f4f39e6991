import Esesc.Emul.Conditions
import Esesc.Emul.Joined

/-!
# Packed shifts and rotates

`SLL`, `SRL`, `SRA` and `ROTR`, each for lanes of 64, 32, 16 and 8 bits. The lanes are computed one by
one and put together, and the flags are those of the lowest lane.

* `rotr_eq_iff`: a rotation made of an arithmetic shift.
* `lanes_neg_iff`, `carry_iff`: when the lanes and the flags are right.
* `shift_right_iff`: the operands for which a micro-op does what it should.
-/

namespace Esesc.Emul

open Esesc.Lib

variable {w : ℕ}

/-! ## The micro-ops -/

inductive Shift
  | SLL
  | SRL
  | SRA
  | ROTR
  deriving DecidableEq

inductive ShiftFormat
  | S64
  | S32
  | S16
  | S08
  deriving DecidableEq

def ShiftFormat.width : ShiftFormat → ℕ
  | .S64 => 64
  | .S32 => 32
  | .S16 => 16
  | .S08 => 8

/-- What is assigned to a lane when the amount is not zero. The variables of the rotations are
signed. -/
def Shift.ap (sh : Shift) (a : BitVec w) (n : ℕ) : BitVec w :=
  match sh with
  | .SLL => a <<< n
  | .SRL => a >>> n
  | .SRA => a.sshiftRight n
  | .ROTR => a.sshiftRight n ||| a <<< (w - n)

/-- `OP_S64_SRL` tests the first operand, where the others test the amount. -/
def Shift.assigned (sh : Shift) (f : ShiftFormat) (a b : BitVec w) : BitVec w :=
  match sh, f with
  | .SRL, .S64 => if a = 0 then a else sh.ap a b.toNat
  | _, _ => if b = 0 then a else sh.ap a b.toNat

/-- `(a >> n) & 1`. -/
def bitAt (a : BitVec w) (n : ℕ) : CCType := if a.getLsbD n then 1 else 0

/-- `carry`, which starts as zero. -/
def Shift.carry (sh : Shift) (f : ShiftFormat) (a b : BitVec w) : CCType :=
  if b = 0 then 0
  else match sh, f with
    | .SLL, _ | .SRL, _ => bitAt a (w - b.toNat)
    | .SRA, .S32 => bitAt a (b.toNat - 1)
    | .SRA, _ => bitAt a (w - b.toNat)
    | .ROTR, .S64 | .ROTR, .S32 => bitAt a (w - 1)
    | .ROTR, _ => bitAt a (w - b.toNat)

section

variable (sh : Shift) (f : ShiftFormat) (inst : Scuop) (s : Scstate)

/-- The variable of lane `i`. -/
def shiftLane (i : ℕ) : BitVec f.width :=
  sh.assigned f (lane f.width (s.getReg inst.src1) i) (inst.operand s f.width i)

/-- The lanes put together. The variables of `OP_S32_SRL` are unsigned. -/
def shiftRes : BitVec 64 :=
  match sh, f with
  | .SRL, .S32 => joinU (shiftLane sh f inst s) (64 / f.width)
  | _, _ => joinS (shiftLane sh f inst s) (64 / f.width)

/-- The flags. `OP_S32_SRL` drops the overflow flag, which the others keep. -/
def shiftICC : CCType :=
  let carry := sh.carry f (lane f.width (s.getReg inst.src1) 0) (inst.operand s f.width 0)
  match sh, f with
  | .SRL, .S32 => calcNZ ((shiftLane sh f inst s 0).setWidth 64) ||| carry <<< 1
  | _, _ => calcNZ ((shiftLane sh f inst s 0).signExtend 64) ||| carry <<< 1 ||| (s.getICC LREG_ICC &&& 1)

def shiftOp : Scstate := s.setDst inst (shiftRes sh f inst s) (shiftICC sh f inst s)

def OP_S64_SLL : Scstate := shiftOp .SLL .S64 inst s
def OP_S32_SLL : Scstate := shiftOp .SLL .S32 inst s
def OP_S16_SLL : Scstate := shiftOp .SLL .S16 inst s
def OP_S08_SLL : Scstate := shiftOp .SLL .S08 inst s
def OP_S64_SRL : Scstate := shiftOp .SRL .S64 inst s
def OP_S32_SRL : Scstate := shiftOp .SRL .S32 inst s
def OP_S16_SRL : Scstate := shiftOp .SRL .S16 inst s
def OP_S08_SRL : Scstate := shiftOp .SRL .S08 inst s
def OP_S64_SRA : Scstate := shiftOp .SRA .S64 inst s
def OP_S32_SRA : Scstate := shiftOp .SRA .S32 inst s
def OP_S16_SRA : Scstate := shiftOp .SRA .S16 inst s
def OP_S08_SRA : Scstate := shiftOp .SRA .S08 inst s
def OP_S64_ROTR : Scstate := shiftOp .ROTR .S64 inst s
def OP_S32_ROTR : Scstate := shiftOp .ROTR .S32 inst s
def OP_S16_ROTR : Scstate := shiftOp .ROTR .S16 inst s
def OP_S08_ROTR : Scstate := shiftOp .ROTR .S08 inst s

/-! ## What they should do -/

/-- The shift or rotation by `n` bits. -/
def Shift.exact (a : BitVec w) (n : ℕ) : BitVec w :=
  match sh with
  | .SLL => a <<< n
  | .SRL => a >>> n
  | .SRA => a.sshiftRight n
  | .ROTR => a.rotateRight n

/-- The last bit that leaves `a` at its end. -/
def Shift.lastOut (a : BitVec w) (n : ℕ) : Bool :=
  match sh with
  | .SLL => a.getLsbD (w - n)
  | .SRL | .SRA | .ROTR => a.getLsbD (n - 1)

/-- Lane `i` of the first operand, shifted by lane `i` of the second. -/
def shifted (w i : ℕ) : BitVec w := sh.exact (lane w (s.getReg inst.src1) i) (inst.operand s w i).toNat

/-- **Right.** Every lane is the shift of that lane alone; the flags describe the lowest lane, and the
carry, where something is shifted out, is the last of it. -/
structure ShiftRight (res : BitVec 64) (icc : CCType) : Prop where
  lanes : ∀ i < 64 / f.width, lane f.width res i = shifted sh inst s f.width i
  neg : ccN icc ≠ 0 ↔ (shifted sh inst s f.width 0).msb = true
  zero : ccZ icc ≠ 0 ↔ shifted sh inst s f.width 0 = 0
  carry : inst.operand s f.width 0 ≠ 0 →
    (ccC icc ≠ 0 ↔
      sh.lastOut (lane f.width (s.getReg inst.src1) 0) (inst.operand s f.width 0).toNat = true)

/-! ## When they do -/

/-- A lane with a negative one below it must be all ones. In a lane without, a rotation must not
shift ones in that were not shifted out. -/
def LanesFit : Prop :=
  ∀ j < 64 / f.width,
    (∀ i < j, (shifted sh inst s f.width i).msb = true → shifted sh inst s f.width j = BitVec.allOnes f.width) ∧
    ((∀ i < j, (shifted sh inst s f.width i).msb = false) → sh = .ROTR →
      (lane f.width (s.getReg inst.src1) j).msb = true →
      ∀ b < (inst.operand s f.width j).toNat, (lane f.width (s.getReg inst.src1) j).getLsbD b = true)

/-- The bit that is taken for the carry must be like the last one shifted out. -/
def Shift.CarryFits (a : BitVec w) (n : ℕ) : Prop :=
  match sh, f with
  | .SLL, _ | .SRA, .S32 => True
  | .ROTR, .S64 | .ROTR, .S32 => a.msb = a.getLsbD (n - 1)
  | _, _ => a.getLsbD (w - n) = a.getLsbD (n - 1)

/-- `OP_S32_SRL` has lanes that fit, and no negative flag. -/
def ShiftFits : Prop :=
  (if sh = .SRL ∧ f = .S32 then inst.operand s f.width 0 = 0 → (lane f.width (s.getReg inst.src1) 0).msb = false
    else LanesFit sh f inst s) ∧
  (inst.operand s f.width 0 ≠ 0 →
    sh.CarryFits f (lane f.width (s.getReg inst.src1) 0) (inst.operand s f.width 0).toNat)

end

/-! ## Lanes -/

section

variable {a b : BitVec w} {n : ℕ}

/-- A rotation by less than the width, bit by bit. -/
theorem getLsbD_rotateRight_of_lt {i : ℕ} (hn : n < w) (hi : i < w) :
    (a.rotateRight n).getLsbD i = if i < w - n then a.getLsbD (n + i) else a.getLsbD (i - (w - n)) := by
  rw [BitVec.getLsbD_rotateRight, Nat.mod_eq_of_lt hn]
  by_cases hlow : i < w - n <;> simp [hlow, hi]

/-- **Rotation by an arithmetic shift.** It is right when what is shifted in from above are ones that
are rotated in as well. -/
theorem rotr_eq_iff (hn : n < w) : a.sshiftRight n ||| a <<< (w - n) = a.rotateRight n ↔
    (a.msb = true → ∀ b < n, a.getLsbD b = true) := by
  -- below `w - n` the bits are those of `a`; above, the sign is or-ed to what is rotated in
  have hbit : ∀ i < w, (a.sshiftRight n ||| a <<< (w - n)).getLsbD i =
      if i < w - n then a.getLsbD (n + i) else (a.msb || a.getLsbD (i - (w - n))) := by
    intro i hi
    rw [BitVec.getLsbD_or, BitVec.getLsbD_sshiftRight, BitVec.getLsbD_shiftLeft]
    by_cases hlow : i < w - n
    · have hin : n + i < w := by omega
      have hout : ¬w ≤ i := by omega
      simp [hlow, hin, hout]
    · have hin : ¬n + i < w := by omega
      have hout : ¬w ≤ i := by omega
      simp [hlow, hin, hout, hi]
  constructor
  · intro h hmsb b hb
    have hb' : b + (w - n) < w := by omega
    have hh := congrArg (fun x => x.getLsbD (b + (w - n))) h
    have hge : ¬b + (w - n) < w - n := by omega
    simp only [hbit _ hb', getLsbD_rotateRight_of_lt hn hb', if_neg hge, hmsb, Nat.add_sub_cancel, Bool.true_or] at hh
    exact hh.symm
  · intro h
    apply BitVec.eq_of_getLsbD_eq
    intro i hi
    rw [hbit i hi, getLsbD_rotateRight_of_lt hn hi]
    by_cases hlow : i < w - n
    · rw [if_pos hlow, if_pos hlow]
    · rw [if_neg hlow, if_neg hlow]
      cases hmsb : a.msb with
      | false => rw [Bool.false_or]
      | true => rw [h hmsb _ (by omega), Bool.or_true]

/-- No shift at all. -/
theorem exact_zero (sh : Shift) (a : BitVec w) : sh.exact a 0 = a := by
  cases sh with
  | SLL => exact BitVec.shiftLeft_zero a
  | SRL => exact BitVec.ushiftRight_zero a
  | SRA => exact BitVec.sshiftRight_zero
  | ROTR =>
    apply BitVec.eq_of_getLsbD_eq
    intro i hi
    rw [Shift.exact, getLsbD_rotateRight_of_lt (by omega) hi, Nat.sub_zero, if_pos hi, Nat.zero_add]

/-- An amount of zero is no special case of any shift, and neither is a zero to be shifted. -/
theorem assigned_eq (sh : Shift) (f : ShiftFormat) (a b : BitVec w) :
    sh.assigned f a b = if b = 0 then a else sh.ap a b.toNat := by
  have hsrl : ∀ f, Shift.SRL.assigned f a b = if b = 0 then a else a >>> b.toNat := by
    intro f
    cases f with
    | S64 =>
      -- zero is tested in place of the amount, and a zero stays zero by any amount
      have htest : Shift.SRL.assigned .S64 a b = if a = 0 then a else a >>> b.toNat := rfl
      rw [htest]
      by_cases ha : a = 0
      · rw [if_pos ha, ha]
        simp
      · rw [if_neg ha]
        by_cases hb : b = 0
        · rw [if_pos hb, hb]
          simp
        · rw [if_neg hb]
    | S32 | S16 | S08 => rfl
  cases sh with
  | SRL => exact hsrl f
  | SLL | SRA | ROTR => rfl

/-- **One lane.** What is assigned is the shift, except for some rotations of negative values. -/
theorem assigned_eq_exact_iff (sh : Shift) (f : ShiftFormat) (hb : b.toNat < w) :
    sh.assigned f a b = sh.exact a b.toNat ↔
    (sh = .ROTR → a.msb = true → ∀ i < b.toNat, a.getLsbD i = true) := by
  rw [assigned_eq]
  by_cases h0 : b = 0
  · have hnat : b.toNat = 0 := by rw [h0]; rfl
    rw [if_pos h0, hnat, exact_zero]
    exact iff_of_true rfl fun _ _ _ hi => absurd hi (Nat.not_lt_zero _)
  · rw [if_neg h0]
    cases sh with
    | SLL | SRL | SRA => exact iff_of_true rfl fun h => nomatch h
    | ROTR =>
      have hrot := rotr_eq_iff (a := a) hb
      simpa [Shift.ap, Shift.exact] using hrot

end

section

variable (sh : Shift) (f : ShiftFormat) (inst : Scuop) (s : Scstate)

/-- All lanes lie in the word. -/
theorem ShiftFormat.lane_in {i : ℕ} (hi : i < 64 / f.width) : f.width * i + f.width ≤ 64 := by
  cases f <;> simp only [ShiftFormat.width] at * <;> omega

theorem shiftRes_unsigned : shiftRes .SRL .S32 inst s = joinU (shiftLane .SRL .S32 inst s) (64 / 32) := rfl

theorem shiftRes_signed (h : ¬(sh = .SRL ∧ f = .S32)) :
    shiftRes sh f inst s = joinS (shiftLane sh f inst s) (64 / f.width) := by
  cases sh with
  | SLL | SRA | ROTR => rfl
  | SRL =>
    cases f with
    | S64 | S16 | S08 => rfl
    | S32 => exact absurd ⟨rfl, rfl⟩ h

/-- **Lanes.** -/
theorem lanes_iff (h : ¬(sh = .SRL ∧ f = .S32))
    (hn : ∀ i < 64 / f.width, (inst.operand s f.width i).toNat < f.width) :
    (∀ i < 64 / f.width, lane f.width (shiftRes sh f inst s) i = shifted sh inst s f.width i) ↔
    LanesFit sh f inst s := by
  rw [shiftRes_signed sh f inst s h]
  have hjoin : (∀ i < 64 / f.width, lane f.width (joinS (shiftLane sh f inst s) (64 / f.width)) i =
        shifted sh inst s f.width i) ↔
      ∀ i < 64 / f.width, filled (shiftLane sh f inst s i) ((List.range i).map (shiftLane sh f inst s)) =
        shifted sh inst s f.width i :=
    forall_congr' fun i => imp_congr_right fun hi => by rw [lane_joinS_of_lt _ (f.lane_in hi) hi]
  rw [hjoin, filled_eq_iff]
  refine forall_congr' fun j => imp_congr_right fun hj => and_congr_right fun _ => imp_congr_right fun _ => ?_
  exact assigned_eq_exact_iff sh f (hn j hj)

/-- The lowest lane is not filled from anywhere. -/
theorem shiftLane_zero (hlane : lane f.width (shiftRes sh f inst s) 0 = shifted sh inst s f.width 0) :
    shiftLane sh f inst s 0 = shifted sh inst s f.width 0 := by
  have h0 : 0 < 64 / f.width := by cases f <;> decide
  rw [← hlane]
  by_cases h : sh = .SRL ∧ f = .S32
  · obtain ⟨rfl, rfl⟩ := h
    rw [shiftRes_unsigned]
    exact (lane_joinU _ (ShiftFormat.S32.lane_in h0) h0).symm
  · rw [shiftRes_signed sh f inst s h, lane_joinS_of_lt _ (f.lane_in h0) h0]
    rfl

end

/-! ## Flags -/

theorem bitAt_ne_zero {a : BitVec w} {n : ℕ} : bitAt a n ≠ 0 ↔ a.getLsbD n = true := by
  unfold bitAt
  cases a.getLsbD n <;> simp

theorem carry_bit (sh : Shift) (f : ShiftFormat) (a b : BitVec w) : sh.carry f a b = 0 ∨ sh.carry f a b = 1 := by
  have hbit : ∀ n, bitAt a n = 0 ∨ bitAt a n = 1 := by
    intro n
    unfold bitAt
    cases a.getLsbD n
    · exact .inl rfl
    · exact .inr rfl
  unfold Shift.carry
  by_cases hb : b = 0
  · apply Or.inl
    rw [if_pos hb]
  · rw [if_neg hb]
    cases sh <;> cases f <;> apply hbit

/-- The flags one by one; `v` brings the overflow flag. -/
theorem icc_bits (x : BitVec w) {c : CCType} (hc : c = 0 ∨ c = 1) (v : CCType) :
    (ccN (calcNZ x ||| c <<< 1 ||| (v &&& 1)) ≠ 0 ↔ x.slt 0 = true) ∧
    (ccZ (calcNZ x ||| c <<< 1 ||| (v &&& 1)) ≠ 0 ↔ x = 0) ∧
    (ccC (calcNZ x ||| c <<< 1 ||| (v &&& 1)) ≠ 0 ↔ c ≠ 0) := by
  have hv := bit_cases v
  unfold calcNZ
  by_cases hx : x = 0
  · have hslt : x.slt 0 = false := by simp [hx, BitVec.slt]
    rcases hv with hv | hv <;> rcases hc with rfl | rfl <;> rw [hv, hslt, if_pos hx] <;> simp only [hx] <;> decide
  · rcases hv with hv | hv <;> rcases hc with rfl | rfl <;> rw [hv, if_neg hx] <;> simp only [hx] <;>
      cases x.slt 0 <;> decide

section

variable (sh : Shift) (f : ShiftFormat) (inst : Scuop) (s : Scstate)

/-- What is tested for the flags: the lowest lane, widened with or without its sign. -/
def shiftWide : BitVec 64 :=
  if sh = .SRL ∧ f = .S32 then (shiftLane sh f inst s 0).setWidth 64 else (shiftLane sh f inst s 0).signExtend 64

theorem shiftICC_bits :
    (ccN (shiftICC sh f inst s) ≠ 0 ↔ (shiftWide sh f inst s).slt 0 = true) ∧
    (ccZ (shiftICC sh f inst s) ≠ 0 ↔ shiftWide sh f inst s = 0) ∧
    (ccC (shiftICC sh f inst s) ≠ 0 ↔
      sh.carry f (lane f.width (s.getReg inst.src1) 0) (inst.operand s f.width 0) ≠ 0) := by
  have hc := carry_bit sh f (lane f.width (s.getReg inst.src1) 0) (inst.operand s f.width 0)
  by_cases h : sh = .SRL ∧ f = .S32
  · have hbits := icc_bits (shiftWide sh f inst s) hc 0#8
    rw [BitVec.zero_and, BitVec.or_zero] at hbits
    obtain ⟨rfl, rfl⟩ := h
    exact hbits
  · have hicc : shiftICC sh f inst s = calcNZ (shiftWide sh f inst s) |||
        sh.carry f (lane f.width (s.getReg inst.src1) 0) (inst.operand s f.width 0) <<< 1 |||
        (s.getICC LREG_ICC &&& 1) := by
      rw [shiftWide, if_neg h]
      cases sh with
      | SLL | SRA | ROTR => rfl
      | SRL =>
        cases f with
        | S64 | S16 | S08 => rfl
        | S32 => exact absurd ⟨rfl, rfl⟩ h
    rw [hicc]
    exact icc_bits _ hc _

/-- **Carry.** -/
theorem carry_iff {a b : BitVec w} (hb : b ≠ 0) :
    (sh.carry f a b ≠ 0 ↔ sh.lastOut a b.toNat = true) ↔ sh.CarryFits f a b.toNat := by
  have hcarry : ∀ n m, (bitAt a n ≠ 0 ↔ a.getLsbD m = true) ↔ a.getLsbD n = a.getLsbD m := by
    intro n m
    rw [bitAt_ne_zero]
    exact Bool.eq_iff_iff.symm
  have hmsb : a.getLsbD (w - 1) = a.msb := a.msb_eq_getLsbD_last.symm
  unfold Shift.carry
  rw [if_neg hb]
  cases sh with
  | SLL => exact (hcarry _ _).trans (iff_of_true rfl trivial)
  | SRL => exact hcarry _ _
  | SRA =>
    cases f with
    | S32 => exact (hcarry _ _).trans (iff_of_true rfl trivial)
    | S64 | S16 | S08 => exact hcarry _ _
  | ROTR =>
    cases f with
    | S64 | S32 =>
      have h := hcarry (w - 1) (b.toNat - 1)
      rw [hmsb] at h
      exact h
    | S16 | S08 => exact hcarry _ _

theorem ShiftFormat.width_pos : 0 < f.width := by cases f <;> decide

theorem signExtend_slt {a : BitVec w} (hw : w ≤ 64) : (a.signExtend 64).slt 0 = a.msb := by
  rw [BitVec.slt_eq_decide, BitVec.toInt_signExtend_of_le hw, BitVec.msb_eq_toInt]
  simp

theorem signExtend_eq_zero {a : BitVec w} (hw : w ≤ 64) : a.signExtend 64 = 0 ↔ a = 0 := by
  rw [← BitVec.toInt_inj, ← BitVec.toInt_inj, BitVec.toInt_signExtend_of_le hw]
  simp

/-- **Negative and zero.** Only `OP_S32_SRL` misses something: it never sets the negative flag. -/
theorem wide_iff {r : BitVec f.width} (hr : shiftLane sh f inst s 0 = r) :
    (((shiftWide sh f inst s).slt 0 = true ↔ r.msb = true) ↔ (sh = .SRL ∧ f = .S32 → r.msb = false)) ∧
    (shiftWide sh f inst s = 0 ↔ r = 0) := by
  have hw : f.width ≤ 64 := by cases f <;> decide
  by_cases h : sh = .SRL ∧ f = .S32
  · -- a lane of 32 bits is never negative as a word of 64 bits
    have hlt : f.width < 64 := by rw [h.2]; decide
    have hpos : (r.setWidth 64).slt 0 = false := by
      have hmsb : (r.setWidth 64).slt 0 = (r.setWidth 64).msb := BitVec.slt_zero_eq_msb
      rw [hmsb, BitVec.msb_setWidth]
      exact BitVec.getLsbD_of_ge r _ (by omega)
    rw [shiftWide, if_pos h, hr, hpos]
    constructor
    · cases r.msb <;> simp [h]
    · rw [← BitVec.toNat_inj, ← BitVec.toNat_inj, BitVec.toNat_setWidth_of_le hw]
      simp
  · rw [shiftWide, if_neg h, hr]
    exact ⟨iff_of_true (by rw [signExtend_slt hw]) fun h' => absurd h' h, signExtend_eq_zero hw⟩

end

/-! ## Both together -/

theorem msb_ushiftRight_eq_false_iff {a : BitVec w} {n : ℕ} :
    (a >>> n).msb = false ↔ (n = 0 → a.msb = false) := by
  rw [BitVec.msb_ushiftRight]
  by_cases hn : n = 0
  · simp [hn]
  · simp [hn, Nat.pos_of_ne_zero hn]

section

variable (sh : Shift) (f : ShiftFormat) (inst : Scuop) (s : Scstate)

/-- The lanes and the negative flag, by the way the lanes are put together. -/
theorem lanes_neg_iff (hn : ∀ i < 64 / f.width, (inst.operand s f.width i).toNat < f.width) :
    ((∀ i < 64 / f.width, lane f.width (shiftRes sh f inst s) i = shifted sh inst s f.width i) ∧
      (sh = .SRL ∧ f = .S32 → (shifted sh inst s f.width 0).msb = false)) ↔
    (if sh = .SRL ∧ f = .S32 then inst.operand s f.width 0 = 0 → (lane f.width (s.getReg inst.src1) 0).msb = false
      else LanesFit sh f inst s) := by
  by_cases h : sh = .SRL ∧ f = .S32
  · -- these lanes are joined without their signs, so that each is right by itself
    rw [if_pos h]
    obtain ⟨rfl, rfl⟩ := h
    have hlanes : ∀ i < 64 / 32, lane 32 (shiftRes .SRL .S32 inst s) i = shifted .SRL inst s 32 i := by
      intro i hi
      rw [shiftRes_unsigned]
      apply (lane_joinU _ (ShiftFormat.S32.lane_in hi) hi).trans
      exact (assigned_eq_exact_iff .SRL .S32 (hn i hi)).2 fun h => nomatch h
    have hmsb := msb_ushiftRight_eq_false_iff (a := lane 32 (s.getReg inst.src1) 0)
      (n := (inst.operand s 32 0).toNat)
    have hzero : (inst.operand s 32 0).toNat = 0 ↔ inst.operand s 32 0 = 0 := by
      rw [← BitVec.toNat_inj]
      rfl
    rw [hzero] at hmsb
    constructor
    · exact fun ⟨_, hpos⟩ => hmsb.1 (hpos ⟨rfl, rfl⟩)
    · exact fun hpos => ⟨hlanes, fun _ => hmsb.2 hpos⟩
  · rw [if_neg h, lanes_iff sh f inst s h hn]
    exact and_iff_left fun h' => absurd h' h

/-- **Packed shifts.** For amounts below the lane width, a micro-op shifts every lane by itself and
describes the lowest one by its flags exactly when the operands fit. -/
theorem shift_right_iff (hn : ∀ i < 64 / f.width, (inst.operand s f.width i).toNat < f.width) :
    ShiftRight sh f inst s (shiftRes sh f inst s) (shiftICC sh f inst s) ↔ ShiftFits sh f inst s := by
  have h0 : 0 < 64 / f.width := by cases f <;> decide
  obtain ⟨hN, hZ, hC⟩ := shiftICC_bits sh f inst s
  have hlanes := lanes_neg_iff sh f inst s hn
  constructor
  · intro h
    have hr := shiftLane_zero sh f inst s (h.lanes 0 h0)
    have hwide := wide_iff sh f inst s hr
    refine ⟨hlanes.1 ⟨h.lanes, hwide.1.1 (hN.symm.trans h.neg)⟩, fun hb => ?_⟩
    exact (carry_iff sh f hb).1 (hC.symm.trans (h.carry hb))
  · rintro ⟨hfit, hcarry⟩
    obtain ⟨hl, hpos⟩ := hlanes.2 hfit
    have hr := shiftLane_zero sh f inst s (hl 0 h0)
    have hwide := wide_iff sh f inst s hr
    exact ⟨hl, hN.trans (hwide.1.2 hpos), hZ.trans hwide.2, fun hb => hC.trans ((carry_iff sh f hb).2 (hcarry hb))⟩

end

/-- Two operands in registers. -/
def operands (a b : BitVec 64) : Scstate where
  rf := fun r => if r = 33 then a else if r = 34 then b else 0
  iccrf := fun _ => 0
  pc := 0
  flush := false
  nop := false

/-- A negative lane that is not rotated, above a positive one that is. -/
theorem OP_S32_ROTR_right : ShiftRight .ROTR .S32 addRegs (operands 0x8000000000000002 0x0000000000000001)
    (shiftRes .ROTR .S32 addRegs (operands 0x8000000000000002 0x0000000000000001))
    (shiftICC .ROTR .S32 addRegs (operands 0x8000000000000002 0x0000000000000001)) :=
  (shift_right_iff .ROTR .S32 addRegs (operands 0x8000000000000002 0x0000000000000001) (by decide)).2
    (by unfold ShiftFits LanesFit Shift.CarryFits; decide)

/-- **Not a rotation.** `OP_S64_ROTR` of the least integer by one keeps the sign, where the bit that is
rotated in is zero; `OP_S32_SLL` by nothing loses the upper lane above a negative one; and
`OP_S08_SRL` of one by one takes bit 7 for the carry, where bit 0 is shifted out. -/
theorem shift_not_right :
    ¬(∀ (sh : Shift) (f : ShiftFormat) (inst : Scuop) (s : Scstate),
      (∀ i < 64 / f.width, (inst.operand s f.width i).toNat < f.width) →
      ShiftRight sh f inst s (shiftRes sh f inst s) (shiftICC sh f inst s)) ∧
    (OP_S64_ROTR addRegs (operands 0x8000000000000000 1)).getReg 35 = 0xC000000000000000 ∧
    shifted .ROTR addRegs (operands 0x8000000000000000 1) 64 0 = 0x4000000000000000 ∧
    (OP_S32_SLL addRegs (operands 0x80000000 0)).getReg 35 = 0xFFFFFFFF80000000 ∧
    (OP_S08_SRL addRegs (operands 1 1)).getICC 35 = 4 := by
  refine ⟨fun h => ?_, by decide, by decide, by decide, by decide⟩
  have hlane := (h .ROTR .S64 addRegs (operands 0x8000000000000000 1) (by decide)).lanes 0 (by decide)
  exact absurd hlane (by decide)

end Esesc.Emul
