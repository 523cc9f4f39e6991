import Esesc.Emul.EmulatorRuns

/-!
# What the core always keeps

Whatever is executed, the registers that a program sees have nothing in their upper halves, register 0 is zero,
and all flags have four bits.

* `Clean.setDst`: a micro-op that writes its destination.
* `Clean.execute`: every micro-op.
* `emulator_clean`: every run of the emulator, of any program.
-/

namespace Esesc.Emul

open Esesc.Lib Isa

variable {M : Type*} {prog : Prog M}

/-! ## Four bits -/

section

variable {x y : CCType} {w : ℕ}

theorem or_lt (hx : x.toNat < 16) (hy : y.toNat < 16) : (x ||| y).toNat < 16 := by
  rw [BitVec.toNat_or]
  exact Nat.or_lt_two_pow (n := 4) hx hy

theorem icc_xor_lt (hx : x.toNat < 16) (hy : y.toNat < 16) : (x ^^^ y).toNat < 16 := by
  rw [BitVec.toNat_xor]
  exact Nat.xor_lt_two_pow (n := 4) hx hy

theorem and_lt (hx : x.toNat < 16) : (x &&& y).toNat < 16 := by
  rw [BitVec.toNat_and]
  exact Nat.lt_of_le_of_lt Nat.and_le_left hx

theorem imm_lt (imm : BitVec 32) : ((imm &&& 0xF).setWidth 8 : CCType).toNat < 16 := by
  have hle : (imm &&& 0xF).toNat ≤ 15 := by
    rw [BitVec.toNat_and]
    exact Nat.and_le_right
  rw [BitVec.toNat_setWidth]
  omega

theorem ite_lt {p : Prop} [Decidable p] (hx : x.toNat < 16) (hy : y.toNat < 16) : (if p then x else y).toNat < 16 := by
  split
  · exact hx
  · exact hy

theorem calcICC_lt (a b r : BitVec 64) : (calcICC a b r).toNat < 16 :=
  or_lt (or_lt (ite_lt (by decide) (by decide)) (ite_lt (by decide) (by decide))) (ite_lt (by decide) (by decide))

theorem calcICC_sub_lt (a b r : BitVec 64) : (calcICC_sub a b r).toNat < 16 :=
  or_lt (or_lt (ite_lt (by decide) (by decide)) (ite_lt (by decide) (by decide))) (ite_lt (by decide) (by decide))

theorem calcNZ_lt (r : BitVec w) : (calcNZ r).toNat < 16 :=
  or_lt (ite_lt (by decide) (by decide)) (ite_lt (by decide) (by decide))

theorem iccSignedAdd_lt (a b r : BitVec w) : (iccSignedAdd a b r).toNat < 16 :=
  or_lt (calcICC_lt _ _ _) (ite_lt (by decide) (by decide))

theorem iccSignedSub_lt (a b r : BitVec w) : (iccSignedSub a b r).toNat < 16 :=
  or_lt (calcICC_sub_lt _ _ _) (ite_lt (by decide) (by decide))

theorem bitAt_lt (a : BitVec w) (n : ℕ) : (bitAt a n).toNat < 2 := by
  unfold bitAt
  split <;> decide

/-- The carry of a shift, at its place. -/
theorem carry_lt (sh : Shift) (f : ShiftFormat) (a b : BitVec w) : (sh.carry f a b <<< 1).toNat < 16 := by
  have hcarry : (sh.carry f a b).toNat < 2 := by
    unfold Shift.carry
    split
    · decide
    · split <;> exact bitAt_lt _ _
  rw [BitVec.toNat_shiftLeft, Nat.shiftLeft_eq]
  omega

end

/-! ## The core -/

/-- **What the core keeps.** -/
structure Scstate.Clean (s : Scstate) : Prop where
  zero : s.rf 0 = 0
  low : ∀ r, r < 32 → (s.rf r).toNat < 2 ^ 32
  icc : ∀ r, (s.iccrf r).toNat < 16

namespace Scstate.Clean

variable {s : Scstate} {inst : Scuop} {data : BitVec 64} {cc : CCType}

/-- A micro-op that writes its destination. -/
theorem setDst (h : s.Clean) (hcc : cc.toNat < 16) : (s.setDst inst data cc).Clean where
  zero := by
    rw [rf_setDst, if_neg fun h0 => h0.2 h0.1.symm]
    exact h.zero
  low r hr := by
    rw [rf_setDst]
    split
    · rename_i hdst
      rw [if_pos (hdst.1 ▸ hr), low_mask, BitVec.toNat_setWidth]
      exact Nat.lt_of_le_of_lt (Nat.mod_le _ _) (BitVec.isLt _)
    · exact h.low r hr
  icc r := by
    rw [iccrf_setDst]
    split
    · exact hcc
    · exact h.icc r

theorem keep {pc : BitVec 64} {flush nop : Bool} (h : s.Clean) : Clean { s with pc := pc, flush := flush, nop := nop } :=
  ⟨h.zero, h.low, h.icc⟩

theorem packed (h : s.Clean) (o : Arith) (p : Packed) : (packed o inst s p).Clean := by
  refine h.setDst ?_
  have hunsigned {w : ℕ} (a b r : BitVec w) : (iccUnsigned s a b r).toNat < 16 := or_lt (calcICC_lt _ _ _) (and_lt (h.icc _))
  cases o <;> cases p
  case add.S32 | add.S16 | add.S08 => exact iccSignedAdd_lt _ _ _
  case sub.S32 => exact iccSignedSub_lt _ _ _
  case sub.S16 => exact or_lt (calcICC_sub_lt _ _ _) (ite_lt (by decide) (by decide))
  case sub.S08 => exact (by decide : (0 : CCType).toNat < 16)
  all_goals exact hunsigned _ _ _

theorem shiftOp (h : s.Clean) (sh : Shift) (f : ShiftFormat) : (shiftOp sh f inst s).Clean := by
  refine h.setDst ?_
  unfold shiftICC
  dsimp only
  split
  · exact or_lt (calcNZ_lt _) (carry_lt _ _ _ _)
  · exact or_lt (or_lt (calcNZ_lt _) (carry_lt _ _ _ _)) (and_lt (h.icc _))

theorem logicalOp (h : s.Clean) (f : BitVec 64 → BitVec 64 → BitVec 64) : (logicalOp inst s f).Clean :=
  h.setDst (or_lt (calcNZ_lt _) (and_lt (h.icc _)))

theorem condOp (h : s.Clean) (op : CondOp) : (op.execute inst s).Clean := by
  unfold CondOp.execute
  split
  · cases op with
    | RB c | LB c => exact h.keep
    | CMOV c hc => exact h.setDst (h.icc _)
    | CADD c | CSUB c => exact h.setDst (by decide)
  · cases op with
    | RB c => exact h
    | LB c =>
      show Clean (if c = .CC then { s with nop := true } else s)
      split
      · exact h.keep
      · exact h
    | CMOV c hc =>
      refine keep (h.setDst ?_)
      unfold CondOp.icc2
      exact ite_lt (ite_lt (h.icc _) (by decide)) (h.icc _)
    | CADD c | CSUB c => exact h.setDst (by decide)

end Scstate.Clean

theorem Scstate.Clean.of_onState {f : Scuop → Scstate → Scstate} {inst : Scuop} {c c' : Sccore M}
    (hf : (f inst c.state).Clean) (hexec : onState inst c f = some c') : c'.state.Clean := by
  obtain rfl := Option.some.inj hexec
  exact hf

theorem Scstate.Clean.load {inst : Scuop} {res : BitVec 64} {c c' : Sccore M} (h : c.state.Clean)
    (hexec : some (Emul.load inst c res) = some c') : c'.state.Clean := by
  obtain rfl := Option.some.inj hexec
  exact h.setDst (by decide)

/-- A store does not touch the registers. -/
theorem Scstate.Clean.store {c c' : Sccore M} {m : M} (h : c.state.Clean)
    (hexec : some { c with mem := m } = some c') : c'.state.Clean := by
  obtain rfl := Option.some.inj hexec
  exact h

/-- **Every micro-op.** -/
theorem Scstate.Clean.execute {sop : Scopcode} {inst : Scuop} {c c' : Sccore M} (h : c.state.Clean)
    (hexec : sop.execute prog inst c = some c') : c'.state.Clean := by
  have hzero : (0 : CCType).toNat < 16 := by decide
  cases sop with
  | S32_ADD => exact of_onState (f := OP_S32_ADD) (h.packed .add .S32) hexec
  | S32_SUB => exact of_onState (f := OP_S32_SUB) (h.packed .sub .S32) hexec
  | U32_ADD => exact of_onState (f := OP_U32_ADD) (h.packed .add .U32) hexec
  | U32_SUB => exact of_onState (f := OP_U32_SUB) (h.packed .sub .U32) hexec
  | S32_SLL => exact of_onState (f := OP_S32_SLL) (h.shiftOp .SLL .S32) hexec
  | S32_SRL => exact of_onState (f := OP_S32_SRL) (h.shiftOp .SRL .S32) hexec
  | S64_SRL => exact of_onState (f := OP_S64_SRL) (h.shiftOp .SRL .S64) hexec
  | S08_SRL => exact of_onState (f := OP_S08_SRL) (h.shiftOp .SRL .S08) hexec
  | S32_SRA => exact of_onState (f := OP_S32_SRA) (h.shiftOp .SRA .S32) hexec
  | S32_ROTR => exact of_onState (f := OP_S32_ROTR) (h.shiftOp .ROTR .S32) hexec
  | S16_ROTR => exact of_onState (f := OP_S16_ROTR) (h.shiftOp .ROTR .S16) hexec
  | S64_AND => exact of_onState (f := OP_S64_AND) (h.logicalOp _) hexec
  | S64_OR => exact of_onState (f := OP_S64_OR) (h.logicalOp _) hexec
  | S64_XOR => exact of_onState (f := OP_S64_XOR) (h.logicalOp _) hexec
  | S64_ANDN => exact of_onState (f := OP_S64_ANDN) (h.logicalOp _) hexec
  | U64_ADD => exact of_onState (f := OP_U64_ADD) (h.setDst (or_lt (calcICC_lt _ _ _) (and_lt (h.icc _)))) hexec
  | U64_SUB => exact of_onState (f := OP_U64_SUB) (h.setDst (or_lt (calcICC_lt _ _ _) (and_lt (h.icc _)))) hexec
  | C_SMUL => exact of_onState (f := OP_C_SMUL) (h.setDst (calcNZ_lt _)) hexec
  | S64_COPYICC => exact of_onState (f := OP_S64_COPYICC) (h.setDst (h.icc _)) hexec
  | S64_GETICC => exact of_onState (f := OP_S64_GETICC) (h.setDst hzero) hexec
  | S64_XORICC => exact of_onState (f := OP_S64_XORICC) (h.setDst (icc_xor_lt (h.icc _) (imm_lt _))) hexec
  | S64_COPYPCL => exact of_onState (f := OP_S64_COPYPCL) (h.setDst hzero) hexec
  | U64 op => exact of_onState (f := fun inst s => op.execute inst s) (h.condOp op) hexec
  | U64_JMP_REG => exact of_onState (f := OP_U64_JMP_REG) h.keep hexec
  | U32_LD_L | U16_LD_L | U08_LD | S16_LD_L | S08_LD => exact h.load hexec
  | U64_ST_L | U16_ST_L | U08_ST => exact h.store hexec
  | U32_ST_L =>
    obtain rfl := Option.some.inj hexec
    unfold OP_U32_ST_L
    split
    · exact h
    · exact h
  | U32_STSC => exact nomatch hexec

/-! ## Every run -/

/-- A sequence. -/
theorem Scstate.Clean.runSeq {us : List Uop} {c c' : Sccore M} (h : c.state.Clean)
    (hrun : (uops prog).runSeq us c = some c') : c'.state.Clean := by
  induction us generalizing c with
  | nil =>
    obtain rfl : c = c' := by simpa only [Microcode.runSeq, Option.some.injEq] using hrun
    exact h
  | cons u us ih =>
    simp only [Microcode.runSeq, Option.bind_eq_some_iff] at hrun
    obtain ⟨d, hd, hrun⟩ := hrun
    have hclean : d.state.Clean := h.execute hd
    split at hrun
    · obtain rfl := Option.some.inj hrun
      exact hclean
    · exact ih hclean hrun

/-- Between two instructions there is no flush. -/
structure Scexec.Clean (x : Scexec M) : Prop where
  state : x.core.state.Clean
  flush : x.core.state.flush = false

theorem Scexec.Clean.step {x x' : Scexec M} (h : x.Clean) (hstep : Scexec.step prog x = some x') : x'.Clean := by
  unfold Scexec.step at hstep
  split at hstep
  · exact nomatch hstep
  dsimp only at hstep
  split at hstep
  · exact nomatch hstep
  obtain ⟨⟨rinst, itblockVector⟩, -, hstep⟩ := Option.bind_eq_some_iff.1 hstep
  obtain ⟨c, hc, rfl⟩ := Option.map_eq_some_iff.1 hstep
  have hclean : c.state.Clean := Scstate.Clean.runSeq (c := x.core.resetNOPStatus) h.state.keep hc
  show Scexec.Clean ⟨c.advance, itblockVector⟩
  unfold Sccore.advance
  split
  · exact ⟨hclean.keep, rfl⟩
  · rename_i hflush
    exact ⟨hclean.keep, Bool.not_eq_true _ ▸ hflush⟩

/-- The state of the program in a core. -/
def Sccore.seen (c : Sccore M) : State M where
  r := fun i => (c.state.rf (lreg i)).setWidth 32
  pc := evenPC c.state.pc
  n := (c.state.iccrf LREG_ICC).getLsbD 3
  z := (c.state.iccrf LREG_ICC).getLsbD 2
  c := (c.state.iccrf LREG_ICC).getLsbD 1
  v := (c.state.iccrf LREG_ICC).getLsbD 0
  thumb := c.state.rf LREG_TTYPE ≠ 0
  itstate := 0
  mem := c.mem

/-- **A clean core holds it.** -/
theorem Scexec.Clean.starts {x : Scexec M} (h : x.Clean) : Starts x.core.seen x.core where
  rep :=
    { reg := fun i => by
        refine BitVec.eq_of_toNat_eq ?_
        show _ = (((x.core.state.rf (lreg i)).setWidth 32).setWidth 64).toNat
        have hlow := h.state.low (lreg i) (lreg_lt i)
        rw [BitVec.toNat_setWidth, BitVec.toNat_setWidth, Nat.mod_eq_of_lt hlow, Nat.mod_eq_of_lt (BitVec.isLt _)]
      zero := h.state.zero
      icc := (icc_withIcc (a := x.core.seen) (h.state.icc LREG_ICC)).symm
      ttype := decide_eq_true_iff.symm
      mem := rfl }
  flush := h.flush
  pc := rfl

/-- **Every run, of any program.** -/
theorem emulator_clean {x x' : Scexec M} {n : List Unit} (h : x.Clean)
    (hrun : run (fun x (_ : Unit) => Scexec.step prog x) x n = some x') :
    x'.core.state.rf 0 = 0 ∧ (∀ r, r < 32 → (x'.core.state.rf r).toNat < 2 ^ 32) ∧
      (∀ r, (x'.core.state.iccrf r).toNat < 16) ∧ Starts x'.core.seen x'.core := by
  have hclean : x'.Clean := run_inv (fun _ _ _ hs hI => hI.step hs) hrun h
  exact ⟨hclean.state.zero, hclean.state.low, hclean.state.icc, hclean.starts⟩

theorem loopCore_clean : Scexec.Clean ⟨loopCore, []⟩ where
  state :=
    { zero := rfl
      low := fun r _ => by
        show (if r = 2 then 0x100 else if r = LREG_TTYPE then 1 else 0 : BitVec 64).toNat < 2 ^ 32
        split
        · decide
        · split <;> decide
      icc := fun _ => (by decide : (0 : CCType).toNat < 16) }
  flush := rfl

theorem emulator_clean_loop : ∃ x', run (fun x (_ : Unit) => Scexec.step flat x) ⟨loopCore, []⟩ (List.replicate 14 ()) = some x' ∧
    Starts x'.core.seen x'.core := by
  obtain ⟨x', hx'⟩ := Option.isSome_iff_exists.1 (by decide +kernel :
    (run (fun x (_ : Unit) => Scexec.step flat x) ⟨loopCore, []⟩ (List.replicate 14 ())).isSome = true)
  exact ⟨x', hx', (emulator_clean loopCore_clean hx').2.2.2⟩

end Esesc.Emul
