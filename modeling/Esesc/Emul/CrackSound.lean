import Mathlib.Tactic.IntervalCases
import Esesc.Emul.CrackLists

/-!
# Cracking keeps the meaning

The cracker against the decoder of the instruction set: the fields of an instruction, group after group, and
then every instruction that is covered.

* `Cracked`, `Covered`: the instructions of which the result is known, and those that are cracked right.
* `emulated`, `sure`: what becomes of an instruction, and the flags that are right after it.
* `thumb16uops_emulated`, `thumb16uops_sound`: the sequence does that, and what the instruction is for.
-/

namespace Esesc.Emul

open Esesc.Lib Isa

/-! ## Fields -/

section

variable (insn : BitVec 32)

/-- A field that is cut out by a shift and a mask. -/
theorem field_eq (k n : ℕ) {mask : BitVec 32} (hmask : mask = BitVec.ofNat 32 (2 ^ n - 1)) :
    (insn >>> k) &&& mask = field insn k n := by
  subst hmask
  unfold field
  refine BitVec.eq_of_getLsbD_eq fun i hi => ?_
  rw [BitVec.getLsbD_and, BitVec.getLsbD_ofNat, Nat.testBit_two_pow_sub_one, BitVec.getLsbD_ushiftRight,
    BitVec.getLsbD_setWidth, BitVec.getLsbD_extractLsb']
  simp [hi, Bool.and_comm]

theorem toNat_field {k n : ℕ} (hn : n ≤ 32) : (field insn k n).toNat = (insn >>> k).toNat % 2 ^ n := by
  unfold field
  rw [BitVec.toNat_setWidth_of_le hn, BitVec.extractLsb'_toNat, BitVec.toNat_ushiftRight]

theorem field_lt {k n : ℕ} (hn : n ≤ 32) : (field insn k n).toNat < 2 ^ n := by
  rw [toNat_field insn hn]
  exact Nat.mod_lt _ (Nat.two_pow_pos n)

/-- The number of a register, one higher. -/
theorem reg_eq {x : BitVec 32} (hx : x.toNat < 16) : x.setWidth 8 + 1 = vis ⟨x.toNat, hx⟩ := by
  refine BitVec.eq_of_toNat_eq ?_
  show _ = (BitVec.ofNat 8 (x.toNat + 1)).toNat
  rw [BitVec.toNat_add, BitVec.toNat_setWidth, BitVec.toNat_ofNat, show (1 : BitVec 8).toNat = 1 from rfl]
  omega

theorem fieldLo_eq {k : ℕ} : ((insn >>> k) &&& 0x7).setWidth 8 + 1 = vis (lo insn k) := by
  have hlt := field_lt insn (k := k) (show 3 ≤ 32 by decide)
  rw [show (insn >>> k) &&& 0x7 = field insn k 3 from field_eq insn k 3 rfl, reg_eq (by omega)]
  rfl

theorem fieldRN_eq : fieldRN insn = vis (lo insn 3) := fieldLo_eq insn

theorem fieldRM_eq : fieldRM insn = vis (lo insn 6) := fieldLo_eq insn

theorem fieldRDN_eq : fieldRDN insn = vis (lo insn 8) := fieldLo_eq insn

theorem fieldRD_eq : fieldRD insn = vis (lo insn 0) := by
  rw [← fieldLo_eq, BitVec.ushiftRight_zero]
  rfl

theorem fieldRMH_eq : fieldRMH insn = vis (hiM insn) := by
  have hlt := field_lt insn (k := 3) (show 4 ≤ 32 by decide)
  unfold fieldRMH
  rw [show (insn >>> 3) &&& 0xF = field insn 3 4 from field_eq insn 3 4 rfl, reg_eq hlt]
  rfl

/-- **Bit 7 joins too late.** The number is right unless it is that of the PC. -/
theorem fieldRND_eq (hd : (hiD insn).val < 15) : fieldRND insn = vis (hiD insn) := by
  have hall : ∀ (b : Fin 2) (x : Fin 8), b.val * 8 + x.val < 15 →
      (BitVec.ofNat 8 b.val <<< 3 ||| BitVec.ofNat 8 (x.val + 1)) = BitVec.ofNat 8 (b.val * 8 + x.val + 1) := by decide
  have hbit : ((insn >>> 7) &&& 0x1).setWidth 8 = BitVec.ofNat 8 ((insn >>> 7).toNat % 2) := by
    rw [show (insn >>> 7) &&& 0x1 = field insn 7 1 from field_eq insn 7 1 rfl]
    refine BitVec.eq_of_toNat_eq ?_
    rw [BitVec.toNat_setWidth, toNat_field insn (by decide), BitVec.toNat_ofNat]
    rfl
  unfold fieldRND
  rw [fieldRD_eq, hbit]
  exact hall ⟨(insn >>> 7).toNat % 2, by omega⟩ ⟨insn.toNat % 8, by omega⟩ hd

theorem lo_lt {k : ℕ} : (lo insn k).val < 15 := by
  show (insn >>> k).toNat % 8 < 15
  omega

theorem IMM3_eq : IMM3 insn = field insn 6 3 := field_eq insn 6 3 rfl

theorem IMM5_eq : IMM5 insn = field insn 6 5 := field_eq insn 6 5 rfl

theorem IMM7_eq : IMM7 insn = field insn 0 7 := by
  rw [← field_eq insn 0 7 rfl, BitVec.ushiftRight_zero]
  rfl

theorem IMM8_eq : IMM8 insn = field insn 0 8 := by
  rw [← field_eq insn 0 8 rfl, BitVec.ushiftRight_zero]
  rfl

theorem opcode_eq : (((insn >>> 6) &&& 0xF).setWidth 4).toNat = (field insn 6 4).toNat := by
  rw [show (insn >>> 6) &&& 0xF = field insn 6 4 from field_eq insn 6 4 rfl, BitVec.toNat_setWidth,
    Nat.mod_eq_of_lt (field_lt insn (by decide))]

/-- A field of one bit. -/
theorem field_bit (k : ℕ) : field insn k 1 = if insn.getLsbD k then 1 else 0 := by
  refine BitVec.eq_of_getLsbD_eq fun i hi => ?_
  unfold field
  rw [BitVec.getLsbD_setWidth, BitVec.getLsbD_extractLsb']
  rcases Nat.eq_zero_or_pos i with rfl | hi0
  · cases insn.getLsbD k <;> simp
  · cases insn.getLsbD k <;> simp [show ¬i < 1 by omega, show i ≠ 0 by omega]

theorem IMM6_eq : IMM6 insn = (if insn.getLsbD 9 then 64 else 0 : BitVec 32) + field insn 3 5 <<< 1 := by
  have hall : ∀ (b : Bool) (x : Fin 32), ((if b then 1 else 0 : BitVec 32) <<< 5 ||| (BitVec.ofNat 5 x).setWidth 32) <<< 1 =
      (if b then 64 else 0 : BitVec 32) + (BitVec.ofNat 5 x).setWidth 32 <<< 1 := by decide
  have hx := hall (insn.getLsbD 9) ⟨(insn.extractLsb' 3 5).toNat, (insn.extractLsb' 3 5).isLt⟩
  rw [BitVec.ofNat_toNat, BitVec.setWidth_eq] at hx
  unfold IMM6
  rw [show (insn >>> 9) &&& 0x1 = field insn 9 1 from field_eq insn 9 1 rfl, field_bit,
    show (insn >>> 3) &&& 0x1F = field insn 3 5 from field_eq insn 3 5 rfl]
  exact hx

theorem even_shift (x : BitVec 32) : (x <<< 1).toNat % 2 = 0 := by
  rw [BitVec.toNat_shiftLeft, Nat.shiftLeft_eq]
  omega

theorem even_IMM6 {i : Bool} : ((if i then 64 else 0 : BitVec 32) + field insn 3 5 <<< 1).toNat % 2 = 0 := by
  have hshift := even_shift (field insn 3 5)
  have h64 : (if i then 64 else 0 : BitVec 32).toNat % 2 = 0 := by
    cases i <;> rfl
  rw [BitVec.toNat_add]
  omega

theorem SIMM8_eq : SIMM8 insn = (insn.extractLsb' 0 8).signExtend 32 <<< 1 := by
  unfold SIMM8
  rw [IMM8_eq, signExtend_shifts (w := 9) _ (by decide) (by decide)]
  unfold field
  generalize insn.extractLsb' 0 8 = x
  refine BitVec.eq_of_getLsbD_eq fun i hi => ?_
  have hmsb : ((x.setWidth 32 <<< 1).setWidth 9).msb = x.msb := by
    rw [BitVec.msb_eq_getLsbD_last, BitVec.msb_eq_getLsbD_last]
    simp
  rw [BitVec.getLsbD_signExtend, BitVec.getLsbD_shiftLeft, BitVec.getLsbD_signExtend, BitVec.getLsbD_setWidth,
    BitVec.getLsbD_shiftLeft, BitVec.getLsbD_setWidth, hmsb]
  by_cases h9 : i < 9
  · rcases Nat.eq_zero_or_pos i with rfl | hi0
    · simp
    · simp [hi, h9, show ¬i < 1 by omega, show i - 1 < 8 by omega, show i - 1 < 32 by omega]
  · simp [hi, h9, show ¬i < 1 by omega, show ¬i - 1 < 8 by omega, show i - 1 < 32 by omega]

theorem SIMM11_eq : SIMM11 insn = (insn.extractLsb' 0 11).signExtend 32 <<< 1 := by
  have himm : IMM11 insn = field insn 0 11 := by
    rw [← field_eq insn 0 11 rfl, BitVec.ushiftRight_zero]
    rfl
  have hmsb : (insn.extractLsb' 0 11).msb = insn.getLsbD 10 := by
    rw [BitVec.msb_eq_getLsbD_last, BitVec.getLsbD_extractLsb']
    rfl
  have hmask : ∀ i < 32, ((0xFFFFF : BitVec 32) <<< 12).getLsbD i = decide (12 ≤ i) := by decide
  unfold SIMM11
  rw [himm]
  refine BitVec.eq_of_getLsbD_eq fun i hi => ?_
  rw [BitVec.getLsbD_shiftLeft, BitVec.getLsbD_signExtend, hmsb]
  unfold field
  generalize insn.extractLsb' 0 11 = x
  cases insn.getLsbD 10 with
  | true =>
    rw [if_pos rfl, BitVec.getLsbD_or, hmask i hi, BitVec.getLsbD_shiftLeft, BitVec.getLsbD_setWidth]
    by_cases h12 : 12 ≤ i
    · simp [hi, h12, show ¬i < 1 by omega, show ¬i - 1 < 11 by omega, show i - 1 < 32 by omega]
    · rcases Nat.eq_zero_or_pos i with rfl | hi0
      · simp
      · simp [hi, h12, show ¬i < 1 by omega, show i - 1 < 11 by omega, show i - 1 < 32 by omega]
  | false =>
    rw [if_neg Bool.false_ne_true, BitVec.getLsbD_shiftLeft, BitVec.getLsbD_setWidth]
    rcases Nat.eq_zero_or_pos i with rfl | hi0
    · simp
    · by_cases h11 : i - 1 < 11
      · simp [hi, h11, show ¬i < 1 by omega, show i - 1 < 32 by omega]
      · simp [hi, h11, show ¬i < 1 by omega, show i - 1 < 32 by omega, x.getLsbD_of_ge (i - 1) (by omega)]

/-- The eight low registers, and one more. -/
theorem list_eq (k : ℕ) : (((insn >>> 8) &&& 0x1) <<< k ||| insn &&& 0xFF).setWidth 16 =
    if insn.getLsbD 8 then (insn.extractLsb' 0 8).setWidth 16 ||| ((1 : BitVec 32) <<< k).setWidth 16
    else (insn.extractLsb' 0 8).setWidth 16 := by
  have hlow : insn &&& 0xFF = field insn 0 8 := IMM8_eq insn
  have hcut : (field insn 0 8).setWidth 16 = (insn.extractLsb' 0 8).setWidth 16 :=
    BitVec.setWidth_setWidth_of_le _ (by decide)
  rw [show (insn >>> 8) &&& 0x1 = field insn 8 1 from field_eq insn 8 1 rfl, field_bit, hlow, BitVec.setWidth_or, hcut]
  cases insn.getLsbD 8 with
  | true =>
    rw [if_pos rfl, if_pos rfl, BitVec.or_comm]
  | false =>
    rw [if_neg Bool.false_ne_true, if_neg Bool.false_ne_true]
    simp

theorem pushList_eq : pushList insn = if insn.getLsbD 8 then (insn.extractLsb' 0 8).setWidth 16 ||| 0x4000
    else (insn.extractLsb' 0 8).setWidth 16 := list_eq insn 14

theorem popList_eq : popList insn = if insn.getLsbD 8 then (insn.extractLsb' 0 8).setWidth 16 ||| 0x8000
    else (insn.extractLsb' 0 8).setWidth 16 := list_eq insn 15

end

/-! ## What is covered -/

section

variable {M : Type*}

/-- **What becomes of an instruction.** The ones that access the memory are skipped by a branch, and `LDM` has a base
of its own. -/
def emulated (prog : Prog M) (a : State M) (cond : Option CondCode) (i : Instr) : State M :=
  match i with
  | .ldrLiteral _ _ | .access _ _ _ _ | .push _ | .pop _ | .stm _ _ => if skips a cond then a.next else exec prog a i
  | .ldm n list => if skips a cond then a.next else ldmFrom prog a n list (ldmBase list (a.get n))
  | _ => expected prog a cond i

/-- The instructions of which the result is known, in a state and under a condition. What is left out: shifts right
by the immediate 0, which stands for 32, and by registers of 32 and more; the carry of `ADC`; writes of the PC but by
branches; the reversals; and what an IT block should not have. -/
def Cracked (a : State M) (cond : Option CondCode) : Instr → Prop
  | .shiftImm op _ _ imm => op ≠ .LSL → imm ≠ 0
  | .dp (.shift op) d m => (a.get m).toNat < 32 ∧ (op = .ROR → (a.get d).msb = false)
  | .dp .ADC _ _ => a.c = false
  | .dp _ _ _ | .addSub _ _ _ _ | .movImm _ _ | .adr _ _ | .bx _ | .b _ | .nop | .ldrLiteral _ _ | .access _ _ _ _ => True
  | .cmp n (.reg m) => n.val < 15 ∧ m.val < 15
  | .cmp n (.imm _) => n.val < 15
  | .addReg d _ | .movReg d _ => d.val < 15
  | .blx m => cond = none ∧ m.val < 14
  | .push list | .pop list => list ≠ 0
  | .stm _ list => list ≠ 0
  | .ldm n list => list ≠ 0 ∧ (list.getLsbD 0 = true → n.val ≠ 0 ∨ list >>> 1 = 0)
  | .addSp _ imm => imm.toNat < 512
  | .extend op _ _ => cond = none ∧ (op = .SXTH ∨ op = .SXTB ∨ op = .UXTH ∨ op = .UXTB)
  | .adjustSp _ _ | .cbz _ _ _ | .it _ | .bcond _ _ => cond = none

theorem nine_lt : 9 < 14 := by decide

/-- The tenth condition: lower or the same. -/
def LS : CondCode := ⟨9, nine_lt⟩

/-- What accesses the memory must not be under the tenth condition, and `LDM` must load register 0. -/
def Matches (cond : Option CondCode) : Instr → Prop
  | .ldrLiteral _ _ | .access _ _ _ _ | .push _ | .pop _ | .stm _ _ => cond ≠ some LS
  | .ldm _ list => cond ≠ some LS ∧ list.getLsbD 0 = true
  | _ => True

/-- **The instructions that are cracked right.** -/
def Covered (a : State M) (cond : Option CondCode) (i : Instr) : Prop := Cracked a cond i ∧ Matches cond i

/-- The flags that are right after an instruction. Outside of an IT block most of them should be set, and few are. -/
def sure (cond : Option CondCode) : Instr → Sure
  | .shiftImm .LSL _ _ imm => if imm = 0 then .outside cond .nz else .exact
  | .shiftImm .LSR _ _ _ | .addSub false _ _ _ | .movImm _ _ => .outside cond .nz
  | .dp .TST _ _ => .zcv
  | .dp .CMN _ _ => .nz
  | .dp _ _ _ => .outside cond .no
  | _ => .exact

/-! ## Group after group -/

variable {prog : Prog M} {a : State M} {c : Sccore M} {cond : Option CondCode} {insn : BitVec 32}

theorem sure_LSL {d m : Reg} {n : ℕ} :
    sure cond (.shiftImm .LSL d m n) = if n = 0 then .outside cond .nz else .exact := rfl

/-- Shift, add, subtract, move and compare. -/
theorem shiftAddSubMoveCompare_sound (h : Starts a c) (hIT : a.inIT = cond.isSome) (hcov : Cracked a cond (decodeShift insn)) :
    Emulates prog (shiftAddSubMoveCompare cond insn (fieldRN insn) (fieldRM insn) (fieldRD insn) (fieldRDN insn)
      (IMM3 insn) (IMM5 insn) (IMM8 insn)) (sure cond (decodeShift insn)) c (emulated prog a cond (decodeShift insn)) := by
  have hn : (c.state.rf (vis (lo insn 3))).setWidth 32 = a.get (lo insn 3) := h.rep.get (lo_lt insn)
  have hdn : (c.state.rf (vis (lo insn 8))).setWidth 32 = a.get (lo insn 8) := h.rep.get (lo_lt insn)
  have hm : opnd c.state (vis (lo insn 6)) 0 = a.get (lo insn 6) := opnd_vis h (lo_lt insn)
  have h5 : (field insn 6 5).toNat < 32 := field_lt insn (by decide)
  have himm : (field insn 6 5).toNat ≠ 0 → field insn 6 5 ≠ 0 := fun hne h0 => hne (by rw [h0]; rfl)
  rw [fieldRN_eq, fieldRM_eq, fieldRD_eq, fieldRDN_eq, IMM3_eq, IMM5_eq, IMM8_eq]
  dsimp only [shiftAddSubMoveCompare, decodeShift] at hcov ⊢
  cases h13 : insn.getLsbD 13 with
  | false =>
    cases h12 : insn.getLsbD 12 with
    | false =>
      cases h11 : insn.getLsbD 11 with
      | false =>
        show Emulates prog _ (sure cond (.shiftImm .LSL (lo insn 0) (lo insn 3) (field insn 6 5).toNat)) c
          (emulated prog a cond (.shiftImm .LSL (lo insn 0) (lo insn 3) (field insn 6 5).toNat))
        rw [sure_LSL]
        by_cases h0 : field insn 6 5 = 0
        · rw [h0]
          cases cond with
          | some k => exact simulates_LSL_zero h hIT (lo_lt insn) (lo_lt insn)
          | none => exact simulates_MOVS h hIT (lo_lt insn) (lo_lt insn)
        · rw [if_neg (toNat_ne_zero h0), if_pos h0]
          cases cond with
          | some k => exact simulates_LSL h hIT (lo_lt insn) (lo_lt insn) h5 h0
          | none => exact simulates_LSL h hIT (lo_lt insn) (lo_lt insn) h5 h0
      | true => exact simulates_LSR h hIT (lo_lt insn) (lo_lt insn) (himm (by rw [h13, h12, h11] at hcov; exact hcov nofun))
    | true =>
      cases h11 : insn.getLsbD 11 with
      | false => exact simulates_ASR h hIT (lo_lt insn) (lo_lt insn) h5 (himm (by rw [h13, h12, h11] at hcov; exact hcov nofun))
      | true =>
        cases h10 : insn.getLsbD 10 with
        | false =>
          cases h9 : insn.getLsbD 9 with
          | false => exact simulates_ADD h hIT (lo_lt insn) hn hm
          | true => exact simulates_SUB h hIT (lo_lt insn) hn hm
        | true =>
          cases h9 : insn.getLsbD 9 with
          | false => exact simulates_ADD h hIT (lo_lt insn) hn (opnd_imm h _)
          | true => exact simulates_SUB h hIT (lo_lt insn) hn (opnd_imm h _)
  | true =>
    cases h12 : insn.getLsbD 12 with
    | false =>
      cases h11 : insn.getLsbD 11 with
      | false => exact simulates_MOV h hIT (lo_lt insn)
      | true => exact simulates_CMP h hdn (opnd_imm h _)
    | true =>
      cases h11 : insn.getLsbD 11 with
      | false => exact simulates_ADD h hIT (lo_lt insn) hdn (opnd_imm h _)
      | true => exact simulates_SUB h hIT (lo_lt insn) hdn (opnd_imm h _)

/-- Data processing. -/
theorem dataProcessing_sound (h : Starts a c) (hIT : a.inIT = cond.isSome) (hcov : Cracked a cond (decodeDp insn)) :
    Emulates prog (dataProcessing cond (((insn >>> 6) &&& 0xF).setWidth 4) (fieldRD insn) (fieldRN insn))
      (sure cond (decodeDp insn)) c (emulated prog a cond (decodeDp insn)) := by
  have hd : (lo insn 0).val < 15 := lo_lt insn
  have hm : (lo insn 3).val < 15 := lo_lt insn
  have hk : (field insn 6 4).toNat < 16 := field_lt insn (by decide)
  rw [fieldRD_eq, fieldRN_eq]
  dsimp only [dataProcessing, decodeDp] at hcov ⊢
  rw [opcode_eq]
  generalize (field insn 6 4).toNat = k at hk hcov ⊢
  interval_cases k
  · exact simulates_AND h hIT hd hm
  · exact simulates_EOR h hIT hd hm
  · exact simulates_shift h hIT hd hm computes_S32_SLL hcov.1 hcov.2
  · exact simulates_shift h hIT hd hm computes_S32_SRL hcov.1 hcov.2
  · exact simulates_shift h hIT hd hm computes_S32_SRA hcov.1 hcov.2
  · exact simulates_ADC h hIT hd hm hcov
  · have hsbc : Emulates prog _ _ _ _ := simulates_SBC h hIT hd hm
    cases cond with
    | some k => exact hsbc
    | none => exact hsbc
  · exact simulates_shift h hIT hd hm computes_S32_ROTR hcov.1 hcov.2
  · exact simulates_TST h hd hm
  · have hrsb : Emulates prog _ _ _ _ := simulates_RSB h hIT hd hm
    cases cond with
    | some k => exact hrsb
    | none => exact hrsb
  · exact simulates_CMP h (h.rep.get hd) (opnd_vis h hm)
  · exact simulates_CMN h hd hm
  · exact simulates_ORR h hIT hd hm
  · exact simulates_MUL h hIT hd hm
  · exact simulates_BIC h hIT hd hm
  · cases cond with
    | some k => exact simulates_MVN h hIT hd hm temp2_temp
    | none => exact simulates_MVN h hIT hd hm temp1_temp

/-- Special data instructions, and branch and exchange. -/
theorem specialData_sound {i : Instr} (h : Starts a c) (hthumb : a.thumb = true) (hdec : decodeSpecial insn = some i)
    (hcov : Cracked a cond i) :
    Emulates prog (specialData cond (((insn >>> 6) &&& 0xF).setWidth 4) (fieldRND insn) (fieldRMH insn) c.PC)
      (sure cond i) c (emulated prog a cond i) := by
  have hk : (field insn 6 4).toNat < 16 := field_lt insn (by decide)
  rw [fieldRMH_eq]
  dsimp only [specialData, decodeSpecial] at hdec ⊢
  rw [opcode_eq]
  generalize (field insn 6 4).toNat = k at hk hdec ⊢
  have hadd {d m : Reg} (hd : Cracked a cond (.addReg d m)) (hR : d.val < 15 → fieldRND insn = vis d) :
      Emulates prog (addHigh cond (fieldRND insn) (vis m) c.PC) .exact c (emulated prog a cond (.addReg d m)) := by
    -- not the PC, where the number of the register is another
    rw [hR hd]
    exact simulates_addHigh h hd
  have hcmp {d m : Reg} (hd : Cracked a cond (.cmp d (.reg m))) (hR : d.val < 15 → fieldRND insn = vis d) :
      Emulates prog (compareSub cond (fieldRND insn) (vis m) 0) .exact c (emulated prog a cond (.cmp d (.reg m))) := by
    rw [hR hd.1]
    exact simulates_CMP h (h.rep.get hd.1) (opnd_vis h hd.2)
  have hmov {d m : Reg} (hd : Cracked a cond (.movReg d m)) (hR : d.val < 15 → fieldRND insn = vis d) :
      Emulates prog (moveHigh cond (fieldRND insn) (vis m) c.PC) .exact c (emulated prog a cond (.movReg d m)) := by
    rw [hR hd]
    exact simulates_moveHigh h hd
  have hblx {m : Reg} (hm : Cracked a cond (.blx m)) :
      Emulates prog (branchLinkExchange cond (vis m) c.PC) .exact c (emulated prog a cond (.blx m)) := by
    obtain ⟨rfl, hm⟩ := hm
    exact simulates_BLX h hthumb hm
  -- the number 4 is the only one that is not decoded
  interval_cases k <;> first
    | obtain rfl := Option.some.inj hdec
    | exact nomatch hdec
  · exact hadd hcov (fieldRND_eq insn)
  · exact hadd hcov (fieldRND_eq insn)
  · exact hadd hcov (fieldRND_eq insn)
  · exact hadd hcov (fieldRND_eq insn)
  · exact hcmp hcov (fieldRND_eq insn)
  · exact hcmp hcov (fieldRND_eq insn)
  · exact hcmp hcov (fieldRND_eq insn)
  · exact hmov hcov (fieldRND_eq insn)
  · exact hmov hcov (fieldRND_eq insn)
  · exact hmov hcov (fieldRND_eq insn)
  · exact hmov hcov (fieldRND_eq insn)
  · exact simulates_BX h hthumb
  · exact simulates_BX h hthumb
  · exact hblx hcov
  · exact hblx hcov

/-- Loads and stores, at an address of two registers. -/
theorem loadStoreReg_sound (h : Starts a c) :
    Emulates prog (loadStoreReg cond (((insn >>> 9) &&& 0x7).setWidth 3) (fieldRN insn) (fieldRM insn) (fieldRD insn) c.PC)
      .exact c (emulated prog a cond (.access (accessOf (field insn 9 3).toNat) (lo insn 0) (lo insn 3) (.reg (lo insn 6)))) := by
  have hk : (field insn 9 3).toNat < 8 := field_lt insn (by decide)
  have hopB : (((insn >>> 9) &&& 0x7).setWidth 3).toNat = (field insn 9 3).toNat := by
    rw [show (insn >>> 9) &&& 0x7 = field insn 9 3 from field_eq insn 9 3 rfl, BitVec.toNat_setWidth, Nat.mod_eq_of_lt hk]
  rw [fieldRN_eq, fieldRM_eq, fieldRD_eq]
  dsimp only [loadStoreReg]
  rw [hopB]
  generalize (field insn 9 3).toNat = k at hk ⊢
  interval_cases k
  · exact simulates_accessReg .STR (lo_lt insn) (lo_lt insn) h (lo_lt insn)
  · exact simulates_accessReg .STRH (lo_lt insn) (lo_lt insn) h (lo_lt insn)
  · exact simulates_accessReg .STRB (lo_lt insn) (lo_lt insn) h (lo_lt insn)
  · exact simulates_accessReg .LDRSB (lo_lt insn) (lo_lt insn) h (lo_lt insn)
  · exact simulates_accessReg .LDR (lo_lt insn) (lo_lt insn) h (lo_lt insn)
  · exact simulates_accessReg .LDRH (lo_lt insn) (lo_lt insn) h (lo_lt insn)
  · exact simulates_accessReg .LDRB (lo_lt insn) (lo_lt insn) h (lo_lt insn)
  · exact simulates_accessReg .LDRSH (lo_lt insn) (lo_lt insn) h (lo_lt insn)

/-- Words and bytes, at an address with an immediate. -/
theorem loadStoreImm_sound (byte load : Bool) (h : Starts a c) :
    Emulates prog (loadStoreImm cond byte load (fieldRN insn) (fieldRD insn) (IMM5 insn) c.PC) .exact c
      (emulated prog a cond (.access (match byte, load with
        | false, false => .STR
        | false, true => .LDR
        | true, false => .STRB
        | true, true => .LDRB) (lo insn 0) (lo insn 3)
        (.imm (if byte then field insn 6 5 else field insn 6 5 <<< 2)))) := by
  rw [fieldRN_eq, fieldRD_eq, IMM5_eq]
  cases byte with
  | false =>
    cases load with
    | false => exact simulates_accessImm .STR (lo_lt insn) (lo_lt insn) h
    | true => exact simulates_accessImm .LDR (lo_lt insn) (lo_lt insn) h
  | true =>
    cases load with
    | false => exact simulates_accessImm .STRB (lo_lt insn) (lo_lt insn) h
    | true => exact simulates_accessImm .LDRB (lo_lt insn) (lo_lt insn) h

/-- Halfwords. -/
theorem loadStoreHalf_sound (load : Bool) (h : Starts a c) :
    Emulates prog (loadStoreHalf cond false load (fieldRN insn) (fieldRD insn) (fieldRDN insn) (IMM5 insn) (IMM8 insn) c.PC)
      .exact c (emulated prog a cond (.access (if load then .LDRH else .STRH) (lo insn 0) (lo insn 3)
        (.imm (field insn 6 5 <<< 1)))) := by
  rw [fieldRN_eq, fieldRD_eq, IMM5_eq]
  cases load with
  | false => exact simulates_accessAt .STRH (lo_lt insn) (lo_lt insn) h
  | true => exact simulates_accessAt .LDRH (lo_lt insn) (lo_lt insn) h

/-- Words on the stack. -/
theorem loadStoreSp_sound (load : Bool) (h : Starts a c) :
    Emulates prog (loadStoreHalf cond true load (fieldRN insn) (fieldRD insn) (fieldRDN insn) (IMM5 insn) (IMM8 insn) c.PC)
      .exact c (emulated prog a cond (.access (if load then .LDR else .STR) (lo insn 8) 13
        (.imm (field insn 0 8 <<< 2)))) := by
  rw [fieldRDN_eq, IMM8_eq]
  cases load with
  | false => exact simulates_accessAt .STR (n := 13) (lo_lt insn) (by decide) h
  | true => exact simulates_accessAt .LDR (n := 13) (lo_lt insn) (by decide) h

/-! ## Miscellaneous instructions -/

theorem pushList_lt : (pushList insn).toNat < 2 ^ 15 := by
  have hmsb : (pushList insn).msb = false := by
    rw [pushList_eq, BitVec.msb_eq_getLsbD_last]
    split <;> simp
  have := BitVec.msb_eq_false_iff_two_mul_lt.1 hmsb
  omega

theorem popList_13 : (popList insn).getLsbD 13 = false := by
  rw [popList_eq]
  split <;> simp

/-- The immediate is at most seven bits. -/
theorem IMM7_shift (h : (field insn 0 8 <<< 2).toNat < 512) : field insn 0 7 = field insn 0 8 := by
  have h8 := field_lt insn (k := 0) (show 8 ≤ 32 by decide)
  rw [BitVec.toNat_shiftLeft, Nat.shiftLeft_eq, Nat.mod_eq_of_lt (by omega)] at h
  refine BitVec.eq_of_toNat_eq ?_
  rw [toNat_field insn (by decide)] at h h8 ⊢
  rw [toNat_field insn (by decide)]
  omega

theorem miscellaneous_sound {i : Instr} (h : Starts a c) (hthumb : a.thumb = true) (hdec : decodeMisc insn = some i)
    (hcov : Cracked a cond i) :
    Emulates prog (miscellaneous cond insn c.PC) (sure cond i) c (emulated prog a cond i) := by
  have hd : (lo insn 0).val < 15 := lo_lt insn
  have hm : (lo insn 3).val < 15 := lo_lt insn
  dsimp only [miscellaneous, decodeMisc] at hdec ⊢
  have hpush : (pushList insn).toNat < 2 ^ 15 := pushList_lt
  have hpop : (popList insn).getLsbD 13 = false := popList_13
  rw [pushList_eq] at hpush
  rw [popList_eq] at hpop
  rw [fieldRN_eq, fieldRD_eq, IMM7_eq, IMM6_eq, pushList_eq, popList_eq]
  have hcbz {nonzero : Bool} {imm : BitVec 32} (himm : imm.toNat % 2 = 0) (hcov : Cracked a cond (.cbz nonzero (lo insn 0) imm)) :
      Emulates prog (compareBranch cond nonzero (vis (lo insn 0)) imm c.PC) .exact c
        (emulated prog a cond (.cbz nonzero (lo insn 0) imm)) := by
    obtain rfl : cond = none := hcov
    exact simulates_CBZ hd himm h
  have hpushed {list : BitVec 16} (hlt : list.toNat < 2 ^ 15) (hcov : Cracked a cond (.push list)) :
      Emulates prog (PUSH cond list c.PC) .exact c (emulated prog a cond (.push list)) := by
    exact simulates_PUSH hlt hcov h
  have hpopped {list : BitVec 16} (h13 : list.getLsbD 13 = false) (hcov : Cracked a cond (.pop list)) :
      Emulates prog (POP cond list c.PC) .exact c (emulated prog a cond (.pop list)) := by
    exact simulates_POP h13 hcov h hthumb
  have hreversal {op : Extend} {d m : Reg} (hcov : Cracked a cond (.extend op d m)) : op ≠ .REV ∧ op ≠ .REV16 ∧ op ≠ .REVSH := by
    obtain ⟨-, rfl | rfl | rfl | rfl⟩ := hcov <;> decide
  -- the rows are those of the decoder: 16 by bits 11 to 8, some of them split by bits 7 and 6
  cases h11 : insn.getLsbD 11 <;> cases h10 : insn.getLsbD 10 <;> cases h9 : insn.getLsbD 9 <;>
    cases h8 : insn.getLsbD 8 <;> rw [h11, h10, h9, h8] at hdec <;> try rw [h8] at hpush hpop
  · obtain rfl := Option.some.inj hdec
    obtain rfl : cond = none := hcov
    exact simulates_adjustSp h
  · obtain rfl := Option.some.inj hdec
    exact hcbz (even_IMM6 insn) hcov
  · cases h7 : insn.getLsbD 7 <;> cases h6 : insn.getLsbD 6 <;> rw [h7, h6] at hdec <;>
      obtain rfl := Option.some.inj hdec <;> obtain ⟨rfl, -⟩ := hcov
    · -- SXTH, SXTB, UXTH, UXTB, which write twice in an IT block and are covered outside of one
      exact simulates_signExtend (w := 16) (k := 16) h hd hm rfl (by decide) (by decide) rfl
    · exact simulates_signExtend (w := 8) (k := 24) h hd hm rfl (by decide) (by decide) rfl
    · exact simulates_zeroExtend (w := 16) h hd hm rfl
    · exact simulates_zeroExtend (w := 8) h hd hm rfl
  · obtain rfl := Option.some.inj hdec
    exact hcbz (even_IMM6 insn) hcov
  · obtain rfl := Option.some.inj hdec
    exact hpushed hpush hcov
  · obtain rfl := Option.some.inj hdec
    exact hpushed hpush hcov
  · exact nomatch hdec
  · exact nomatch hdec
  · exact nomatch hdec
  · obtain rfl := Option.some.inj hdec
    exact hcbz (even_IMM6 insn) hcov
  · cases h7 : insn.getLsbD 7 <;> cases h6 : insn.getLsbD 6 <;> rw [h7, h6] at hdec
    · obtain rfl := Option.some.inj hdec
      exact absurd rfl (hreversal hcov).1
    · obtain rfl := Option.some.inj hdec
      exact absurd rfl (hreversal hcov).2.1
    · exact nomatch hdec
    · obtain rfl := Option.some.inj hdec
      exact absurd rfl (hreversal hcov).2.2
  · obtain rfl := Option.some.inj hdec
    exact hcbz (even_IMM6 insn) hcov
  · obtain rfl := Option.some.inj hdec
    exact hpopped hpop hcov
  · obtain rfl := Option.some.inj hdec
    exact hpopped hpop hcov
  · exact nomatch hdec
  · replace hdec : (if field insn 0 4 = 0 then some .nop else some (.it (insn.extractLsb' 0 8))) = some i := hdec
    split at hdec
    · obtain rfl := Option.some.inj hdec
      exact simulates_nop h
    · obtain rfl := Option.some.inj hdec
      obtain rfl : cond = none := hcov
      exact simulates_it h

/-! ## Every instruction -/

theorem listByte_eq : (IMM8 insn).setWidth 8 = insn.extractLsb' 0 8 := by
  rw [IMM8_eq, field, BitVec.setWidth_setWidth_of_le _ (by decide), BitVec.setWidth_eq]

theorem storeMultiple_sound (h : Starts a c) (hcov : Cracked a cond (.stm (lo insn 8) (insn.extractLsb' 0 8))) :
    Emulates prog (storeMultiple cond (fieldRDN insn) ((IMM8 insn).setWidth 8) c.PC) .exact c
      (emulated prog a cond (.stm (lo insn 8) (insn.extractLsb' 0 8))) := by
  rw [fieldRDN_eq, listByte_eq]
  exact simulates_STM (n := ⟨(lo insn 8).val, lo_lt insn⟩) hcov h

theorem loadMultiple_sound (h : Starts a c) (hcov : Cracked a cond (.ldm (lo insn 8) (insn.extractLsb' 0 8))) :
    Emulates prog (loadMultiple cond (fieldRDN insn) ((IMM8 insn).setWidth 8) c.PC) .exact c
      (emulated prog a cond (.ldm (lo insn 8) (insn.extractLsb' 0 8))) := by
  rw [fieldRDN_eq, listByte_eq]
  exact simulates_LDM (n := ⟨(lo insn 8).val, lo_lt insn⟩) hcov.1
    (fun hbit => (hcov.2 hbit).imp (fun hne heq => hne (congrArg Fin.val heq)) id) h

/-- The condition of a branch is not one of the two with another meaning. -/
theorem conditionalBranch_sound {i : Instr} (h : Starts a c)
    (hdec : (if (field insn 8 4).toNat < 14 then
      some (Instr.bcond (insn.extractLsb' 8 4) ((insn.extractLsb' 0 8).signExtend 32 <<< 1)) else none) = some i)
    (hcov : Cracked a cond i) :
    Emulates prog (if h : ((insn >>> 8) &&& 0xF).toNat < 14 then branchTo ⟨((insn >>> 8) &&& 0xF).toNat, h⟩
        (c.PC + 4 + SIMM8 insn)
      else if ((insn >>> 8) &&& 0xF).toNat = 14 then [] else SVC cond) (sure cond i) c (emulated prog a cond i) := by
  have hop : (insn >>> 8) &&& 0xF = field insn 8 4 := field_eq insn 8 4 rfl
  split at hdec
  · rename_i hlt
    obtain rfl := Option.some.inj hdec
    obtain rfl : cond = none := hcov
    rw [dif_pos (hop ▸ hlt), SIMM8_eq]
    have hcond : BitVec.ofNat 4 ((insn >>> 8) &&& 0xF).toNat = insn.extractLsb' 8 4 := by
      rw [hop, BitVec.ofNat_toNat, field, BitVec.setWidth_setWidth_of_le _ (by decide), BitVec.setWidth_eq]
    rw [← hcond]
    exact simulates_Bcond (even_shift _) h
  · exact nomatch hdec

/-- **Every instruction.** Before a sequence the core holds the state of a program in Thumb mode. The sequence runs
to its end, or leaves by a branch, and then the core holds a state that is known; of the flags only those that are
sure. -/
theorem thumb16uops_emulated {i : Instr} (h : Starts a c) (hIT : a.inIT = cond.isSome) (hthumb : a.thumb = true)
    (hdec : decode insn = some i) (hcov : Cracked a cond i) :
    Emulates prog (thumb16uops cond insn c.PC) (sure cond i) c (emulated prog a cond i) := by
  dsimp only [thumb16uops, decode] at hdec ⊢
  cases h15 : insn.getLsbD 15 with
  | false =>
    cases h14 : insn.getLsbD 14 with
    | false =>
      rw [h15, h14] at hdec
      obtain rfl := Option.some.inj hdec
      exact shiftAddSubMoveCompare_sound h hIT hcov
    | true =>
      cases h13 : insn.getLsbD 13 with
      | false =>
        cases h12 : insn.getLsbD 12 with
        | false =>
          cases h11 : insn.getLsbD 11 with
          | false =>
            cases h10 : insn.getLsbD 10 with
            | false =>
              rw [h15, h14, h13, h12, h11, h10] at hdec
              obtain rfl := Option.some.inj hdec
              exact dataProcessing_sound h hIT hcov
            | true =>
              rw [h15, h14, h13, h12, h11, h10] at hdec
              exact specialData_sound h hthumb hdec hcov
          | true =>
            rw [h15, h14, h13, h12, h11] at hdec
            obtain rfl := Option.some.inj hdec
            rw [fieldRDN_eq, IMM8_eq]
            exact simulates_loadLiteral (lo_lt insn) h
        | true =>
          rw [h15, h14, h13, h12] at hdec
          obtain rfl := Option.some.inj hdec
          exact loadStoreReg_sound h
      | true =>
        rw [h15, h14, h13] at hdec
        obtain rfl := Option.some.inj hdec
        exact loadStoreImm_sound _ _ h
  | true =>
    cases h14 : insn.getLsbD 14 with
    | false =>
      cases h13 : insn.getLsbD 13 with
      | false =>
        cases h12 : insn.getLsbD 12 with
        | false =>
          rw [h15, h14, h13, h12] at hdec
          obtain rfl := Option.some.inj hdec
          exact loadStoreHalf_sound _ h
        | true =>
          rw [h15, h14, h13, h12] at hdec
          obtain rfl := Option.some.inj hdec
          exact loadStoreSp_sound _ h
      | true =>
        cases h12 : insn.getLsbD 12 with
        | false =>
          cases h11 : insn.getLsbD 11 with
          | false =>
            rw [h15, h14, h13, h12, h11] at hdec
            obtain rfl := Option.some.inj hdec
            rw [fieldRDN_eq, IMM8_eq]
            exact simulates_ADR h (lo_lt insn)
          | true =>
            rw [h15, h14, h13, h12, h11] at hdec
            obtain rfl := Option.some.inj hdec
            rw [fieldRDN_eq, IMM7_eq, IMM7_shift hcov]
            exact simulates_addSp h (lo_lt insn)
        | true =>
          rw [h15, h14, h13, h12] at hdec
          exact miscellaneous_sound h hthumb hdec hcov
    | true =>
      cases h13 : insn.getLsbD 13 with
      | false =>
        cases h12 : insn.getLsbD 12 with
        | false =>
          cases h11 : insn.getLsbD 11 with
          | false =>
            rw [h15, h14, h13, h12, h11] at hdec
            obtain rfl := Option.some.inj hdec
            exact storeMultiple_sound h hcov
          | true =>
            rw [h15, h14, h13, h12, h11] at hdec
            obtain rfl := Option.some.inj hdec
            exact loadMultiple_sound h hcov
        | true =>
          rw [h15, h14, h13, h12] at hdec
          exact conditionalBranch_sound h hdec hcov
      | true =>
        cases h12 : insn.getLsbD 12 with
        | false =>
          cases h11 : insn.getLsbD 11 with
          | false =>
            rw [h15, h14, h13, h12, h11] at hdec
            obtain rfl := Option.some.inj hdec
            rw [SIMM11_eq]
            exact simulates_B (even_shift _) h
          | true =>
            rw [h15, h14, h13, h12, h11] at hdec
            exact nomatch hdec
        | true =>
          rw [h15, h14, h13, h12] at hdec
          exact nomatch hdec

theorem emulated_eq {i : Instr} (hcov : Covered a cond i) : emulated prog a cond i = expected prog a cond i := by
  obtain ⟨-, hcov⟩ := hcov
  cases i with
  | ldm n list =>
    -- the loop starts at the base when register 0 is in the list
    show (if skips a cond = true then a.next else ldmFrom prog a n list (ldmBase list (a.get n))) = _
    rw [ldmBase, if_pos hcov.2]
    exact skips_expected (i := .ldm n list) hcov.1
  | ldrLiteral _ _ | access _ _ _ _ | push _ | pop _ | stm _ _ => exact skips_expected hcov
  | _ => rfl

/-- **Cracking keeps the meaning.** -/
theorem thumb16uops_sound {i : Instr} (h : Starts a c) (hIT : a.inIT = cond.isSome) (hthumb : a.thumb = true)
    (hdec : decode insn = some i) (hcov : Covered a cond i) :
    Emulates prog (thumb16uops cond insn c.PC) (sure cond i) c (expected prog a cond i) := by
  rw [← emulated_eq hcov]
  exact thumb16uops_emulated h hIT hthumb hdec hcov.1

end

end Esesc.Emul
