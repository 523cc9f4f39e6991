import Esesc.Emul.CrackRep

/-!
# Cracked arithmetic

What the micro-ops of arithmetic leave in the lower half of a register and in the flags, and the shapes that
their sequences have.

* `iccSignedAdd_flags`, `iccSignedSub_flags`, `shiftICC_low`, `shiftICC_SRL`: the flags, bit by bit.
* `wp_writeReg`, `wp_writeSub`, `wp_compareSub`, `wp_testOp`: the shapes.
-/

namespace Esesc.Emul

open Esesc.Lib Isa

/-! ## Flags -/

section

variable (a b : BitVec 32)

theorem slt_zero_signExtend (r : BitVec 32) : (r.signExtend 64).slt 0 = r.msb := signExtend_slt (by decide)

theorem iccSignedAdd_flags : ∃ c v, iccSignedAdd a b (a + b) = flags (a + b).msb (decide (a + b = 0)) c v := by
  unfold iccSignedAdd addOverflow
  rw [calcICC_eq, slt_zero_signExtend]
  simp only [signExtend_eq_zero_iff]
  exact ⟨_, _, rfl⟩

/-- The flags after the carry was inverted. -/
theorem iccSignedSub_flags : iccSignedSub a b (a - b) ^^^ 2 =
    flags (a - b).msb (decide (a - b = 0)) (!a.usubOverflow b) (a.ssubOverflow b) := by
  classical
  have hinv : ∀ n z c v, flags n z c v ^^^ 2 = flags n z (!c) v := by decide
  have hneg : decide ((a - b).toInt < 0) = (a - b).msb := (a - b).msb_eq_toInt.symm
  have hover : decide (Overflows a b) = a.ssubOverflow b := by
    unfold Overflows BitVec.ssubOverflow
    simp only [Bool.decide_or, ge_iff_le, Bool.or_comm, Nat.reduceSub]
  rw [iccSignedSub_eq, hinv, hneg, hover]
  simp only [sub_eq_zero_iff_eq, BitVec.usubOverflow]

end

/-- A shift, of which the last bit that left is the carry. -/
theorem calcNZ_flags (x : BitVec 64) (cb n z c v : Bool) :
    calcNZ x ||| (if cb then 1 else 0 : CCType) <<< 1 ||| (flags n z c v &&& 1) = flags (x.slt 0) (decide (x = 0)) cb v := by
  unfold calcNZ
  by_cases hx : x = 0
  · subst hx
    revert cb n z c v
    decide
  · rw [if_neg hx, decide_eq_false hx]
    generalize x.slt 0 = m
    revert cb n z c v m
    decide

/-- A logical micro-op keeps the carry and the overflow flag. -/
theorem calcNZ_keep (x : BitVec 64) (n z c v : Bool) :
    calcNZ x ||| (flags n z c v &&& 3) = flags (x.slt 0) (decide (x = 0)) c v := by
  unfold calcNZ
  by_cases hx : x = 0
  · subst hx
    revert n z c v
    decide
  · rw [if_neg hx, decide_eq_false hx]
    generalize x.slt 0 = m
    revert n z c v m
    decide

/-! ## Shifts -/

/-- The carry of a shift, which is not set when the amount is zero. -/
def carryOf (sh : Shift) (x y : BitVec 32) : Bool :=
  if y = 0 then false
  else match sh with
    | .SLL | .SRL => x.getLsbD (32 - y.toNat)
    | .SRA => x.getLsbD (y.toNat - 1)
    | .ROTR => x.getLsbD 31

theorem carry_eq (sh : Shift) (x y : BitVec 32) : sh.carry .S32 x y = if carryOf sh x y = true then 1 else 0 := by
  unfold Shift.carry carryOf
  split
  · rfl
  · cases sh <;> rfl

theorem shiftLane_low (sh : Shift) (inst : Scuop) (s : Scstate) :
    shiftLane sh .S32 inst s 0 = sh.assigned .S32 (arg1 inst s) (arg2 inst s) := by
  show sh.assigned .S32 (lane 32 (s.getReg inst.src1) 0) (inst.operand s 32 0) = _
  rw [lane_low, operand_low]
  rfl

/-- The flags of a shift of words, but for `OP_S32_SRL`. -/
theorem shiftICC_low {sh : Shift} {inst : Scuop} {s : Scstate} {n z c v : Bool} (hsh : sh ≠ .SRL)
    (hicc : s.iccrf LREG_ICC = flags n z c v) {r : BitVec 32} (hr : sh.assigned .S32 (arg1 inst s) (arg2 inst s) = r) :
    shiftICC sh .S32 inst s = flags r.msb (decide (r = 0)) (carryOf sh (arg1 inst s) (arg2 inst s)) v := by
  have hdef : shiftICC sh .S32 inst s = calcNZ ((shiftLane sh .S32 inst s 0).signExtend 64) |||
      sh.carry .S32 (lane 32 (s.getReg inst.src1) 0) (inst.operand s 32 0) <<< 1 ||| (s.iccrf LREG_ICC &&& 1) := by
    cases sh with
    | SRL => exact absurd rfl hsh
    | SLL | SRA | ROTR => rfl
  have hcarry : sh.carry .S32 (lane 32 (s.getReg inst.src1) 0) (inst.operand s 32 0) =
      if carryOf sh (arg1 inst s) (arg2 inst s) = true then 1 else 0 := by
    rw [lane_low, operand_low]
    exact carry_eq sh _ _
  have hlane : (shiftLane sh .S32 inst s 0).signExtend 64 = r.signExtend 64 := by
    rw [shiftLane_low, hr]
    rfl
  rw [hdef, hcarry, hicc, hlane, calcNZ_flags _ _ n z c v, slt_zero_signExtend]
  simp only [signExtend_eq_zero_iff]

theorem setWidth_eq_zero {x : BitVec 32} : x.setWidth 64 = 0 ↔ x = 0 := by
  rw [← BitVec.toNat_inj, ← BitVec.toNat_inj, BitVec.toNat_setWidth_of_le (by decide)]
  rfl

/-- Those of `OP_S32_SRL`, which is unsigned and drops the overflow flag. -/
theorem shiftICC_SRL {inst : Scuop} {s : Scstate} {r : BitVec 32}
    (hr : Shift.SRL.assigned .S32 (arg1 inst s) (arg2 inst s) = r) :
    shiftICC .SRL .S32 inst s = flags false (decide (r = 0)) (carryOf .SRL (arg1 inst s) (arg2 inst s)) false := by
  have hcarry : Shift.SRL.carry .S32 (lane 32 (s.getReg inst.src1) 0) (inst.operand s 32 0) =
      if carryOf .SRL (arg1 inst s) (arg2 inst s) = true then 1 else 0 := by
    rw [lane_low, operand_low]
    exact carry_eq .SRL _ _
  have hlane : (shiftLane .SRL .S32 inst s 0).setWidth 64 = r.setWidth 64 := by
    rw [shiftLane_low, hr]
    rfl
  have hnonneg : (r.setWidth 64).slt 0 = false := by
    rw [show (0 : BitVec 64) = 0#64 from rfl, BitVec.slt_zero_eq_msb, BitVec.msb_setWidth, r.getLsbD_of_ge 63 (by decide)]
    rfl
  have hzero := setWidth_eq_zero (x := r)
  show calcNZ ((shiftLane .SRL .S32 inst s 0).setWidth 64) |||
    Shift.SRL.carry .S32 (lane 32 (s.getReg inst.src1) 0) (inst.operand s 32 0) <<< 1 = _
  have hflags := calcNZ_flags (r.setWidth 64) (carryOf .SRL (arg1 inst s) (arg2 inst s)) false false false false
  rw [hcarry, hlane]
  rw [show (flags false false false false &&& 1 : CCType) = 0#8 by decide, BitVec.or_zero, hnonneg] at hflags
  simp only [hzero] at hflags
  exact hflags

/-! ## What a micro-op computes -/

section

variable {M : Type*} {prog : Prog M}

/-- A micro-op of which the result has `val` of the operands' lower halves in its own, with the flags `icc`. -/
def Computes (prog : Prog M) (sop : Scopcode) (val : BitVec 32 → BitVec 32 → BitVec 32)
    (icc : Scuop → Scstate → CCType) : Prop :=
  ∀ inst c, ∃ x, sop.execute prog inst c = some (c.setDst inst x (icc inst c.state)) ∧
    x.setWidth 32 = val (arg1 inst c.state) (arg2 inst c.state)

def iccAdd (inst : Scuop) (s : Scstate) : CCType :=
  iccSignedAdd (arg1 inst s) (arg2 inst s) (arg1 inst s + arg2 inst s)

def iccSub (inst : Scuop) (s : Scstate) : CCType :=
  iccSignedSub (arg1 inst s) (arg2 inst s) (arg1 inst s - arg2 inst s)

theorem computes_S32_ADD : Computes prog .S32_ADD (fun x y => x + y) iccAdd := by
  refine fun inst c => ⟨resS32 .add inst c.state, ?_, resS32_low .add inst c.state⟩
  unfold iccAdd
  rw [← first_low, ← second_low]
  rfl

theorem computes_S32_SUB : Computes prog .S32_SUB (fun x y => x - y) iccSub := by
  refine fun inst c => ⟨resS32 .sub inst c.state, ?_, resS32_low .sub inst c.state⟩
  unfold iccSub
  rw [← first_low, ← second_low]
  rfl

theorem computes_U32_ADD : Computes prog .U32_ADD (fun x y => x + y) fun inst s => packedICC .add inst s .U32 :=
  fun inst c => ⟨resU32 .add inst c.state, rfl, resU32_low .add inst c.state⟩

theorem computes_U32_SUB : Computes prog .U32_SUB (fun x y => x - y) fun inst s => packedICC .sub inst s .U32 :=
  fun inst c => ⟨resU32 .sub inst c.state, rfl, resU32_low .sub inst c.state⟩

theorem computes_S32_SLL : Computes prog .S32_SLL (Shift.SLL.assigned .S32) (shiftICC .SLL .S32) :=
  fun inst c => ⟨shiftRes .SLL .S32 inst c.state, rfl, shiftRes_low .SLL inst c.state⟩

theorem computes_S32_SRL : Computes prog .S32_SRL (Shift.SRL.assigned .S32) (shiftICC .SRL .S32) :=
  fun inst c => ⟨shiftRes .SRL .S32 inst c.state, rfl, shiftRes_low .SRL inst c.state⟩

theorem computes_S32_SRA : Computes prog .S32_SRA (Shift.SRA.assigned .S32) (shiftICC .SRA .S32) :=
  fun inst c => ⟨shiftRes .SRA .S32 inst c.state, rfl, shiftRes_low .SRA inst c.state⟩

theorem computes_S32_ROTR : Computes prog .S32_ROTR (Shift.ROTR.assigned .S32) (shiftICC .ROTR .S32) :=
  fun inst c => ⟨shiftRes .ROTR .S32 inst c.state, rfl, shiftRes_low .ROTR inst c.state⟩

/-- The operands of the micro-ops on 64 bits. -/
theorem temp1_low (inst : Scuop) (s : Scstate) : (temp1 inst s).setWidth 32 = arg1 inst s := rfl

theorem temp2_low (inst : Scuop) (s : Scstate) : (temp2 inst s).setWidth 32 = arg2 inst s := by
  unfold temp2 Scuop.operand arg2
  split
  · exact setWidth_signExtend _
  · rw [lane, Nat.mul_zero, BitVec.ushiftRight_zero, BitVec.setWidth_eq]
    rfl

/-- The flags of a logical micro-op. -/
def iccLogical (f : BitVec 64 → BitVec 64 → BitVec 64) (inst : Scuop) (s : Scstate) : CCType :=
  calcNZ (f (temp1 inst s) (temp2 inst s)) ||| (s.getICC LREG_ICC &&& 3)

theorem computes_S64_AND : Computes prog .S64_AND (fun x y => x &&& y) (iccLogical fun x y => x &&& y) := by
  refine fun inst c => ⟨temp1 inst c.state &&& temp2 inst c.state, rfl, ?_⟩
  rw [BitVec.setWidth_and, temp1_low, temp2_low]

theorem computes_S64_OR : Computes prog .S64_OR (fun x y => x ||| y) (iccLogical fun x y => x ||| y) := by
  refine fun inst c => ⟨temp1 inst c.state ||| temp2 inst c.state, rfl, ?_⟩
  rw [BitVec.setWidth_or, temp1_low, temp2_low]

theorem computes_S64_XOR : Computes prog .S64_XOR (fun x y => x ^^^ y) (iccLogical fun x y => x ^^^ y) := by
  refine fun inst c => ⟨temp1 inst c.state ^^^ temp2 inst c.state, rfl, ?_⟩
  rw [BitVec.setWidth_xor, temp1_low, temp2_low]

theorem computes_S64_ANDN : Computes prog .S64_ANDN (fun x y => x &&& ~~~y) (iccLogical fun x y => x &&& ~~~y) := by
  refine fun inst c => ⟨temp1 inst c.state &&& ~~~temp2 inst c.state, rfl, ?_⟩
  rw [BitVec.setWidth_and, BitVec.setWidth_not (by decide), temp1_low, temp2_low]

theorem computes_C_SMUL : Computes prog .C_SMUL (fun x y => x * y) fun inst s => calcNZ (temp1 inst s * temp2 inst s) := by
  refine fun inst c => ⟨temp1 inst c.state * temp2 inst c.state, rfl, ?_⟩
  rw [BitVec.setWidth_mul _ _ (by decide), temp1_low, temp2_low]

/-! ## The shapes of sequences -/

variable {a : State M} {c : Sccore M} {sop : Scopcode} {val : BitVec 32 → BitVec 32 → BitVec 32}
  {icc : Scuop → Scstate → CCType} {A B : RegType} {imm : BitVec 32}

/-- The second operand of a micro-op: a register, unless there is an immediate. -/
def opnd (s : Scstate) (B : RegType) (imm : BitVec 32) : BitVec 32 := if imm ≠ 0 then imm else (s.rf B).setWidth 32

theorem arg2_setup {s : Scstate} {D : RegType} {set : Bool} : arg2 (setup sop A B imm D set).inst s = opnd s B imm := by
  unfold arg2 opnd setup
  simp only [decide_eq_true_eq]

theorem opnd_zero (h : Shows a c) : opnd c.state 0 imm = imm := by
  unfold opnd
  split
  · rfl
  · rename_i himm
    rw [h.zero, not_not.1 himm]
    rfl

theorem opnd_reg {s : Scstate} {B : RegType} : opnd s B 0 = (s.rf B).setWidth 32 := if_neg fun h => h rfl

theorem Computes.exec (hop : Computes prog sop val icc) (c : Sccore M) (A B : RegType) (imm : BitVec 32) (D : RegType)
    (set : Bool) : ∃ x,
    (uops prog).exec (setup sop A B imm D set) c =
      some (c.setDst (setup sop A B imm D set).inst x (icc (setup sop A B imm D set).inst c.state)) ∧
    x.setWidth 32 = val ((c.state.rf A).setWidth 32) (opnd c.state B imm) := by
  obtain ⟨x, hx, hval⟩ := hop (setup sop A B imm D set).inst c
  rw [arg2_setup] at hval
  exact ⟨x, hx, hval⟩

/-- **A write under a condition,** which outside of an IT block may set the flags. -/
theorem wp_writeReg (hop : Computes prog sop val icc) (h : Shows a c) (hf : c.state.flush = false)
    (cond : Option CondCode) (set : Bool) (i : Fin 15)
    (hicc : set = true → (icc (setup sop A B imm (lreg i) true).inst c.state).toNat < 16) :
    (uops prog).WP (writeReg cond set sop A B imm (lreg i)) c fun t => Stays c t ∧
      Shows (under a cond (if (set && cond.isNone) = true then
          (a.put i (val ((c.state.rf A).setWidth 32) (opnd c.state B imm))).withIcc
            (icc (setup sop A B imm (lreg i) true).inst c.state)
        else a.put i (val ((c.state.rf A).setWidth 32) (opnd c.state B imm)))) t := by
  cases cond with
  | some k =>
    obtain ⟨x, hx, hval⟩ := hop.exec c A B imm LREG_TMP1 false
    refine wp_temp (r := LREG_TMP1) hx rfl temp1_temp rfl hf h fun t hs hr _ hv _ => ?_
    refine (wp_condWrite hr hs.1 k i).mono ?_
    rintro u ⟨hsu, hru⟩
    rw [hv, hval] at hru
    simp only [Option.isNone_some, Bool.and_false, Bool.false_eq_true, if_false]
    exact ⟨hs.trans hsu, hru⟩
  | none =>
    obtain ⟨x, hx, hval⟩ := hop.exec c A B imm (lreg i) set
    rw [← hval]
    cases set with
    | false => exact wp_write hx rfl rfl hf h
    | true => exact wp_writeIcc hx rfl rfl hf h (hicc rfl)

/-! ## Subtractions -/

theorem flags_lt (n z c v : Bool) : (flags n z c v).toNat < 16 := by
  revert n z c v
  decide

theorem withIcc_flags (b : State M) (n z c v : Bool) : b.withIcc (flags n z c v) = { b with n := n, z := z, c := c, v := v } := by
  obtain ⟨hn, hz, hc, hv⟩ := flags_getLsbD n z c v
  unfold State.withIcc
  rw [hn, hz, hc, hv]

/-- The flags of a subtraction as the instruction set has them. -/
def subIcc (x y : BitVec 32) : CCType := iccSignedSub x y (x - y) ^^^ 2

theorem withIcc_subIcc (b : State M) (x y : BitVec 32) : b.withIcc (subIcc x y) = b.subFlags x y := by
  unfold subIcc
  rw [iccSignedSub_flags, withIcc_flags]
  rfl

theorem subIcc_lt (x y : BitVec 32) : (subIcc x y).toNat < 16 := by
  unfold subIcc
  rw [iccSignedSub_flags]
  exact flags_lt _ _ _ _

/-- The value and the flags of a subtraction are both in `LREG_TMP1` before the last micro-op. -/
theorem wp_subtract {us : List Uop} {Q : Sccore M → Prop} {D : RegType} {set : Bool} (h : Shows a c)
    (hf : c.state.flush = false)
    (hnext : ∀ t x, Stays c t → Shows a t → SameBut LREG_TMP1 c t →
      x.setWidth 32 = (c.state.rf A).setWidth 32 - opnd c.state B imm →
      (uops prog).exec (setup .S64_XORICC LREG_TMP1 0 0x2 D set) t = some
        (t.setDst (setup .S64_XORICC LREG_TMP1 0 0x2 D set).inst x
          (subIcc ((c.state.rf A).setWidth 32) (opnd c.state B imm))) →
      (uops prog).WP (setup .S64_XORICC LREG_TMP1 0 0x2 D set :: us) t Q) :
    (uops prog).WP (subtract A B imm D set ++ us) c Q := by
  obtain ⟨x, hx, hval⟩ := (computes_S32_SUB : Computes prog _ _ _).exec c A B imm LREG_TMP1 false
  refine wp_temp (r := LREG_TMP1) hx rfl temp1_temp rfl hf h fun t hs hr hsame hv hy => ?_
  refine hnext t x hs hr hsame hval ?_
  have hicc : t.state.iccrf LREG_TMP1 ^^^ 2 = subIcc ((c.state.rf A).setWidth 32) (opnd c.state B imm) := by
    rw [hy]
    unfold iccSub subIcc
    rw [arg2_setup]
    rfl
  have hmask : ((0x2 : BitVec 32) &&& 0xF).setWidth 8 = (2 : BitVec 8) := by decide
  rw [← hv, ← hicc, ← hmask]
  rfl

/-- **A difference that is written.** Outside of an IT block the flags are exact. -/
theorem wp_writeSub (h : Shows a c) (hf : c.state.flush = false) (cond : Option CondCode) (i : Fin 15) :
    (uops prog).WP (writeSub cond A B imm (lreg i)) c fun t => Stays c t ∧
      Shows (under a cond (if cond.isNone = true then
          (a.put i ((c.state.rf A).setWidth 32 - opnd c.state B imm)).subFlags ((c.state.rf A).setWidth 32)
            (opnd c.state B imm)
        else a.put i ((c.state.rf A).setWidth 32 - opnd c.state B imm))) t := by
  cases cond with
  | some k =>
    refine wp_subtract h hf fun t x hs hr _ hx hexec => ?_
    refine wp_temp (r := LREG_TMP1) hexec rfl temp1_temp rfl hs.1 hr fun u hsu hru _ hv _ => ?_
    refine (wp_condWrite hru hsu.1 k i).mono ?_
    rintro w ⟨hsw, hrw⟩
    rw [hv, hx] at hrw
    simp only [Option.isNone_some, Bool.false_eq_true, if_false]
    exact ⟨hs.trans (hsu.trans hsw), hrw⟩
  | none =>
    show (uops prog).WP (subtract A B imm (lreg i) true ++ []) c _
    refine wp_subtract h hf fun t x hs hr _ hx hexec => ?_
    refine (wp_writeIcc hexec rfl rfl hs.1 hr (subIcc_lt _ _)).mono ?_
    rintro u ⟨hsu, hru⟩
    rw [withIcc_subIcc, hx] at hru
    exact ⟨hs.trans hsu, hru⟩

/-- **A comparison.** -/
theorem wp_compareSub (h : Shows a c) (hf : c.state.flush = false) (cond : Option CondCode) :
    (uops prog).WP (compareSub cond A B imm) c fun t => Stays c t ∧
      Shows (under a cond (a.subFlags ((c.state.rf A).setWidth 32) (opnd c.state B imm))) t := by
  cases cond with
  | some k =>
    refine wp_subtract h hf fun t x hs hr _ hx hexec => ?_
    refine wp_temp (r := LREG_TMP1) hexec rfl temp1_temp rfl hs.1 hr fun u hsu hru _ _ hy => ?_
    refine (wp_condFlags hru hsu.1 k (hy ▸ subIcc_lt _ _)).mono ?_
    rintro w ⟨hsw, hrw⟩
    rw [hy, withIcc_subIcc] at hrw
    exact ⟨hs.trans (hsu.trans hsw), hrw⟩
  | none =>
    show (uops prog).WP (subtract A B imm 0 true ++ []) c _
    refine wp_subtract h hf fun t x hs hr _ hx hexec => ?_
    refine (wp_flags hexec rfl rfl hs.1 hr (subIcc_lt _ _)).mono ?_
    rintro u ⟨hsu, hru⟩
    rw [withIcc_subIcc] at hru
    exact ⟨hs.trans hsu, hru⟩

/-- **A test.** -/
theorem wp_testOp (hop : Computes prog sop val icc) (h : Shows a c) (hf : c.state.flush = false) (cond : Option CondCode)
    {y : CCType} (hy : ∀ D set, icc (setup sop A B 0 D set).inst c.state = y) (hlt : y.toNat < 16) :
    (uops prog).WP (testOp cond sop A B) c fun t => Stays c t ∧ Shows (under a cond (a.withIcc y)) t := by
  cases cond with
  | some k =>
    obtain ⟨x, hx, -⟩ := hop.exec c A B 0 LREG_TMP1 false
    rw [hy] at hx
    refine wp_temp (r := LREG_TMP1) hx rfl temp1_temp rfl hf h fun t hs hr _ _ hyt => ?_
    refine (wp_condFlags hr hs.1 k (hyt ▸ hlt)).mono ?_
    rintro u ⟨hsu, hru⟩
    rw [hyt] at hru
    exact ⟨hs.trans hsu, hru⟩
  | none =>
    obtain ⟨x, hx, -⟩ := hop.exec c A B 0 0 true
    rw [hy] at hx
    exact wp_flags hx rfl rfl hf h hlt

end

end Esesc.Emul
