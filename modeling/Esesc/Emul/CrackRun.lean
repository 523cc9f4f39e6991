import Esesc.Emul.Scexec
import Esesc.Emul.Trusted

/-!
# Whole runs of the emulator

The instruction set runs a program with a record of the flags that are right. It stops where an instruction is
not covered, or reads a flag that is not right. Up to there the emulator runs the same program.

* `Checked.step`: one instruction of the program, checked.
* `Related`: the core holds the state, and the vector of conditions is `ITSTATE`.
* `Related.step`: one instruction after the other.
-/

namespace Esesc.Emul

open Esesc.Lib Isa

variable {M : Type*} {prog : Prog M}

/-! ## The decoder and the cracker -/

section

variable {insn : BitVec 32}

theorem getLsbD_field {k n i : ℕ} (hi : i < n) (hn : n ≤ 32) : (field insn k n).getLsbD i = insn.getLsbD (k + i) := by
  unfold field
  rw [BitVec.getLsbD_setWidth, BitVec.getLsbD_extractLsb']
  simp [hi, Nat.lt_of_lt_of_le hi hn]

/-- An instruction that has 16 bits is no half of one that has 32. -/
theorem thumb32_of_decode {i : Instr} (hdec : decode insn = some i) : thumb32 insn = false := by
  have hlt := field_lt insn (k := 11) (show 5 ≤ 32 by decide)
  have hbit (j : ℕ) (hj : j < 5) : insn.getLsbD (11 + j) = (field insn 11 5).toNat.testBit j := by
    rw [← getLsbD_field hj (by decide)]
    rfl
  unfold thumb32
  rw [show (insn >>> 11) &&& 0x1F = field insn 11 5 from field_eq insn 11 5 rfl, decide_eq_false_iff_not]
  intro hge
  have h11 : insn.getLsbD 11 = _ := hbit 0 (by decide)
  have h12 : insn.getLsbD 12 = _ := hbit 1 (by decide)
  have h13 : insn.getLsbD 13 = _ := hbit 2 (by decide)
  have h14 : insn.getLsbD 14 = _ := hbit 3 (by decide)
  have h15 : insn.getLsbD 15 = _ := hbit 4 (by decide)
  dsimp only [decode] at hdec
  rw [h11, h12, h13, h14, h15] at hdec
  generalize (field insn 11 5).toNat = v at hlt hge hdec
  interval_cases v <;> exact nomatch hdec

/-- The eight bits of `IT`, one by one. -/
theorem isIT_iff : isIT insn = true ↔ (field insn 8 8).toNat = 0xBF ∧ field insn 0 4 ≠ 0 := by
  unfold isIT
  rw [show (insn >>> 8) &&& 0xFF = field insn 8 8 from field_eq insn 8 8 rfl, Bool.and_eq_true, decide_eq_true_eq,
    decide_eq_true_eq, ← BitVec.toNat_inj, show insn &&& 0xF = field insn 0 4 by
      rw [← field_eq insn 0 4 rfl, BitVec.ushiftRight_zero]
      rfl]
  rfl

/-- **The same instructions are `IT`.** -/
theorem decode_IT (h : isIT insn = true) : decode insn = some (.it (insn.extractLsb' 0 8)) := by
  obtain ⟨hop, hmask⟩ := isIT_iff.1 h
  have hbit (j : ℕ) (hj : j < 8) : insn.getLsbD (8 + j) = (0xBF : ℕ).testBit j := by
    rw [← hop, ← getLsbD_field hj (by decide)]
    rfl
  have h8 : insn.getLsbD 8 = true := hbit 0 (by decide)
  have h9 : insn.getLsbD 9 = true := hbit 1 (by decide)
  have h10 : insn.getLsbD 10 = true := hbit 2 (by decide)
  have h11 : insn.getLsbD 11 = true := hbit 3 (by decide)
  have h12 : insn.getLsbD 12 = true := hbit 4 (by decide)
  have h13 : insn.getLsbD 13 = true := hbit 5 (by decide)
  have h14 : insn.getLsbD 14 = false := hbit 6 (by decide)
  have h15 : insn.getLsbD 15 = true := hbit 7 (by decide)
  dsimp only [decode, decodeMisc]
  rw [h15, h14, h13, h12, h11, h10, h9, h8]
  exact if_neg hmask

theorem opcode_IT (h8 : insn.getLsbD 8 = true) (h9 : insn.getLsbD 9 = true) (h10 : insn.getLsbD 10 = true)
    (h11 : insn.getLsbD 11 = true) (h12 : insn.getLsbD 12 = true) (h13 : insn.getLsbD 13 = true)
    (h14 : insn.getLsbD 14 = false) (h15 : insn.getLsbD 15 = true) : (field insn 8 8).toNat = 0xBF := by
  have heq : insn.extractLsb' 8 8 = 0xBF := by
    refine BitVec.eq_of_getLsbD_eq fun i hi => ?_
    rw [BitVec.getLsbD_extractLsb', decide_eq_true hi, Bool.true_and]
    interval_cases i <;> assumption
  unfold field
  rw [heq]
  rfl

section

variable {itstate : BitVec 8}

theorem decodeShift_ne : decodeShift insn ≠ .it itstate := by
  dsimp only [decodeShift]
  split <;> exact nofun

theorem decodeDp_ne : decodeDp insn ≠ .it itstate := by
  dsimp only [decodeDp]
  split <;> exact nofun

theorem decodeSpecial_ne : decodeSpecial insn ≠ some (.it itstate) := by
  dsimp only [decodeSpecial]
  split <;> exact nofun

theorem decodeMisc_IT (hdec : decodeMisc insn = some (.it itstate)) :
    insn.getLsbD 11 = true ∧ insn.getLsbD 10 = true ∧ insn.getLsbD 9 = true ∧ insn.getLsbD 8 = true ∧
      field insn 0 4 ≠ 0 := by
  dsimp only [decodeMisc] at hdec
  split at hdec
  case h_7 h11 h10 h9 h8 =>
    refine ⟨h11, h10, h9, h8, fun hmask => ?_⟩
    rw [if_pos hmask] at hdec
    exact nomatch hdec
  case h_5 => split at hdec <;> exact nomatch hdec
  all_goals exact nomatch hdec

/-- **No other ones are.** -/
theorem isIT_of_decode (hdec : decode insn = some (.it itstate)) : isIT insn = true := by
  dsimp only [decode] at hdec
  split at hdec
  case h_10 h15 h14 h13 h12 =>
    obtain ⟨h11, h10, h9, h8, hmask⟩ := decodeMisc_IT hdec
    exact isIT_iff.2 ⟨opcode_IT h8 h9 h10 h11 h12 h13 h14 h15, hmask⟩
  case h_1 => exact absurd (Option.some.inj hdec) decodeShift_ne
  case h_2 =>
    split at hdec
    · exact absurd hdec decodeSpecial_ne
    · exact absurd (Option.some.inj hdec) decodeDp_ne
  case h_13 => split at hdec <;> exact nomatch hdec
  all_goals exact nomatch hdec

end

end

/-! ## One instruction of the reference -/

instance (a : State M) (cond : Option CondCode) : (i : Instr) → Decidable (Cracked a cond i)
  | .shiftImm op _ _ imm => inferInstanceAs (Decidable (op ≠ .LSL → imm ≠ 0))
  | .dp (.shift op) d m => inferInstanceAs (Decidable ((a.get m).toNat < 32 ∧ (op = .ROR → (a.get d).msb = false)))
  | .dp .ADC _ _ => inferInstanceAs (Decidable (a.c = false))
  | .dp .AND _ _ | .dp .EOR _ _ | .dp .SBC _ _ | .dp .TST _ _ | .dp .RSB _ _ | .dp .CMN _ _ | .dp .ORR _ _
  | .dp .MUL _ _ | .dp .BIC _ _ | .dp .MVN _ _ | .addSub _ _ _ _ | .movImm _ _ | .adr _ _ | .bx _ | .b _ | .nop
  | .ldrLiteral _ _ | .access _ _ _ _ => .isTrue trivial
  | .cmp n (.reg m) => inferInstanceAs (Decidable (n.val < 15 ∧ m.val < 15))
  | .cmp n (.imm _) => inferInstanceAs (Decidable (n.val < 15))
  | .addReg d _ | .movReg d _ => inferInstanceAs (Decidable (d.val < 15))
  | .blx m => inferInstanceAs (Decidable (cond = none ∧ m.val < 14))
  | .push list | .pop list => inferInstanceAs (Decidable (list ≠ 0))
  | .stm _ list => inferInstanceAs (Decidable (list ≠ 0))
  | .ldm n list => inferInstanceAs (Decidable (list ≠ 0 ∧ (list.getLsbD 0 = true → n.val ≠ 0 ∨ list >>> 1 = 0)))
  | .addSp _ imm => inferInstanceAs (Decidable (imm.toNat < 512))
  | .extend op _ _ =>
    inferInstanceAs (Decidable (cond = none ∧ (op = .SXTH ∨ op = .SXTB ∨ op = .UXTH ∨ op = .UXTB)))
  | .adjustSp _ _ | .cbz _ _ _ | .it _ | .bcond _ _ => inferInstanceAs (Decidable (cond = none))

instance (cond : Option CondCode) : (i : Instr) → Decidable (Matches cond i)
  | .ldrLiteral _ _ | .access _ _ _ _ | .push _ | .pop _ | .stm _ _ => inferInstanceAs (Decidable (cond ≠ some LS))
  | .ldm _ list => inferInstanceAs (Decidable (cond ≠ some LS ∧ list.getLsbD 0 = true))
  | .shiftImm _ _ _ _ | .addSub _ _ _ _ | .movImm _ _ | .cmp _ _ | .dp _ _ _ | .addReg _ _ | .movReg _ _ | .bx _
  | .blx _ | .adr _ _ | .addSp _ _ | .adjustSp _ _ | .cbz _ _ _ | .extend _ _ _ | .it _ | .nop | .bcond _ _ | .b _ =>
    .isTrue trivial

instance (a : State M) (cond : Option CondCode) (i : Instr) : Decidable (Covered a cond i) :=
  inferInstanceAs (Decidable (Cracked a cond i ∧ Matches cond i))

/-- The condition of the next instruction. A block under `AL` is left out: the cracker takes its number for no block. -/
def blockCond (itstate : BitVec 8) : Option (Option CondCode) :=
  if itstate &&& 0xF ≠ 0 then
    if h : ((itstate >>> 4).setWidth 4 : BitVec 4).toNat < 14 then
      some (some ⟨((itstate >>> 4).setWidth 4 : BitVec 4).toNat, h⟩)
    else none
  else some none

def Isa.State.condCode (a : State M) : Option (Option CondCode) := blockCond a.itstate

/-- A state of the instruction set, and the flags that are right. -/
structure Checked (M : Type*) where
  state : State M
  sure : Sure

/-- The instruction at the PC is in Thumb mode, is covered, and reads no flag that is not right. -/
def Checked.step (prog : Prog M) (s : Checked M) : Option (Checked M) :=
  if s.state.thumb then
    (decode (prog.get_code32 s.state.mem s.state.pc)).bind fun i =>
      s.state.condCode.bind fun cond =>
        if Covered s.state cond i ∧ (needs cond i).Le s.sure then
          some ⟨Isa.step prog s.state i, sureAfter s.sure cond i⟩
        else none
  else none

/-! ## The condition -/

section

variable {a b e : State M} {cond : Option CondCode}

theorem blockCond_isSome {itstate : BitVec 8} (h : blockCond itstate = some cond) :
    cond.isSome = true ↔ itstate &&& 0xF ≠ 0 := by
  unfold blockCond at h
  split at h
  · rename_i hIT
    split at h
    · rw [← Option.some.inj h]
      exact ⟨fun _ => hIT, fun _ => rfl⟩
    · exact nomatch h
  · rename_i hIT
    rw [← Option.some.inj h]
    exact ⟨nofun, fun h => absurd h hIT⟩

theorem condCode_inIT (h : a.condCode = some cond) : a.inIT = cond.isSome := by
  rw [Bool.eq_iff_iff, blockCond_isSome h]
  exact decide_eq_true_iff

/-- It is the one that the cracker takes from the vector. -/
theorem blockCond_condOf {itstate : BitVec 8} (h : blockCond itstate = some cond) :
    condOf (if itstate &&& 0xF ≠ 0 then (itstate >>> 4).setWidth 4 else 14) = some cond := by
  unfold blockCond at h
  unfold condOf
  split at h
  · rename_i hIT
    rw [if_pos hIT]
    split at h
    · rename_i hlt
      rw [dif_pos hlt]
      exact h
    · exact nomatch h
  · rename_i hIT
    rw [if_neg hIT]
    exact h

/-- The step of the instruction set, but for the IT block. -/
theorem expected_eq (h : a.condCode = some cond) (i : Instr) :
    (if a.passed a.cond then exec prog a i else a.next) = expected prog a cond i := by
  unfold State.condCode blockCond at h
  split at h
  · rename_i hIT
    have hcond : a.cond = (a.itstate >>> 4).setWidth 4 := if_pos (decide_eq_true hIT)
    split at h
    · obtain rfl := Option.some.inj h
      rw [hcond]
      show _ = if holds a.next ⟨((a.itstate >>> 4).setWidth 4 : BitVec 4).toNat, _⟩ = true then exec prog a i else a.next
      unfold holds
      rw [BitVec.ofNat_toNat, BitVec.setWidth_eq]
      rfl
    · exact nomatch h
  · rename_i hIT
    obtain rfl := Option.some.inj h
    have hAL : a.cond = 14 := if_neg (by rw [State.inIT, decide_eq_true_iff]; exact hIT)
    rw [hAL]
    rfl

/-- An instruction that is not `IT` moves on in the block. -/
theorem itstate_step {i : Instr} (hi : ∀ itstate, i ≠ .it itstate) :
    (Isa.step prog a i).itstate = itAdvance a.itstate := by
  unfold Isa.step
  cases i with
  | it itstate => exact absurd rfl (hi itstate)
  | _ => rfl

theorem itstate_step_IT (h : a.condCode = some none) (itstate : BitVec 8) :
    (Isa.step prog a (.it itstate)).itstate = itstate := by
  show (if a.passed a.cond then exec prog a (.it itstate) else a.next).itstate = itstate
  rw [expected_eq h]
  rfl

theorem step_eq (h : a.condCode = some cond) (i : Instr) :
    Isa.step prog a i = { expected prog a cond i with itstate := (Isa.step prog a i).itstate } := by
  rw [← expected_eq h]
  cases i <;> rfl

/-- What is covered in one state is covered in one that agrees with it. -/
theorem Agree.covered {s : Sure} {i : Instr} (h : Agree s b e) (hneeds : (needs cond i).Le s)
    (hcov : Covered e cond i) : Covered b cond i := by
  obtain ⟨hcracked, hmatches⟩ := hcov
  refine ⟨?_, hmatches⟩
  cases i with
  | dp op d m =>
    cases op with
    | shift op =>
      show (b.get m).toNat < 32 ∧ (op = .ROR → (b.get d).msb = false)
      rw [h.get m, h.get d]
      exact hcracked
    | ADC => exact (h.c (hneeds.c (Sure.le_or_right.c rfl))).trans hcracked
    | _ => trivial
  | cmp n y => cases y <;> exact hcracked
  | _ => exact hcracked

end

/-! ## Step by step -/

/-- **The emulator is where the program is:** the core holds the state, but for flags that are not right, and the
vector of conditions is the IT block. -/
structure Related (s : Checked M) (x : Scexec M) : Prop where
  core : ∃ b, Starts b x.core ∧ Agree s.sure b s.state
  vector : x.itblockVector = pending s.state.itstate

theorem evenPC_add_two (x : BitVec 64) : evenPC (x + 2) = evenPC x + 2 := by
  unfold evenPC
  rw [BitVec.setWidth_add x 2 (by decide)]
  refine BitVec.eq_of_toNat_eq ?_
  rw [and_FE, BitVec.toNat_add, BitVec.toNat_add, and_FE, show (BitVec.setWidth 32 (2 : BitVec 64)).toNat = 2 from rfl,
    show (2 : BitVec 32).toNat = 2 from rfl]
  omega

theorem Starts.resetNOPStatus {a : State M} {c : Sccore M} (h : Starts a c) : Starts a c.resetNOPStatus :=
  ⟨⟨h.rep.reg, h.rep.zero, h.rep.icc, h.rep.ttype, h.rep.mem⟩, h.flush, h.pc⟩

/-- The PC moves on, unless there was a branch. -/
theorem After.advance {b : State M} {c t : Sccore M} (h : After b c t) (itstate : BitVec 8) :
    Starts { b with itstate := itstate } t.advance := by
  obtain ⟨⟨hreg, hzero, hicc, httype, hmem⟩, hpc⟩ := h
  unfold Sccore.advance
  split
  · rename_i hflush
    rw [if_pos hflush] at hpc
    exact ⟨⟨hreg, hzero, hicc, httype, hmem⟩, rfl, hpc.symm⟩
  · rename_i hflush
    rw [if_neg hflush] at hpc
    refine ⟨⟨hreg, hzero, hicc, httype, hmem⟩, Bool.not_eq_true _ ▸ hflush, ?_⟩
    show b.pc = evenPC (t.state.pc + 2)
    rw [evenPC_add_two, hpc.1, hpc.2]

theorem pending_itAdvance : ∀ itstate : BitVec 8, itstate &&& 0xF = 0 → pending (itAdvance itstate) = [] :=
  forall_itstate (by decide)

theorem firstcond_eq (insn : BitVec 32) :
    ((insn >>> 4) &&& 0xF).setWidth 4 = (insn.extractLsb' 0 8 >>> 4).setWidth 4 := by
  refine BitVec.eq_of_getLsbD_eq fun i hi => ?_
  interval_cases i <;> simp

theorem itMask_eq (insn : BitVec 32) : (insn &&& 0xF).setWidth 4 = (insn.extractLsb' 0 8).setWidth 4 := by
  refine BitVec.eq_of_getLsbD_eq fun i hi => ?_
  interval_cases i <;> simp

theorem mask_ne {insn : BitVec 32} (h : field insn 0 4 ≠ 0) : insn.extractLsb' 0 8 &&& 0xF ≠ 0 := by
  intro hzero
  refine h (BitVec.eq_of_getLsbD_eq fun i hi => ?_)
  show _ = (0#32).getLsbD i
  rw [BitVec.getLsbD_zero]
  by_cases hlow : i < 4
  · have hbit := congrArg (fun x => x.getLsbD i) hzero
    rw [getLsbD_field hlow (by decide)]
    simp only [BitVec.getLsbD_and, BitVec.getLsbD_extractLsb'] at hbit
    interval_cases i <;> simpa using hbit
  · unfold field
    rw [BitVec.getLsbD_setWidth, BitVec.getLsbD_of_ge _ i (by omega), Bool.and_false]

/-- **One instruction of an IT block,** or outside of one. -/
theorem thumb16expand_pending {itstate : BitVec 8} {cond : Option CondCode} {insn PC : BitVec 32}
    (hcond : condOf (if itstate &&& 0xF ≠ 0 then (itstate >>> 4).setWidth 4 else 14) = some cond)
    (hIT : isIT insn = true → itstate &&& 0xF = 0) :
    thumb16expand (pending itstate) insn PC = some (thumb16uops cond insn PC,
      pending (if isIT insn = true then insn.extractLsb' 0 8 else itAdvance itstate)) := by
  unfold thumb16expand
  rw [popCond_pending]
  simp only [hcond, Option.map_some, Option.some.injEq, Prod.mk.injEq, true_and]
  by_cases hit : isIT insn = true
  · have hzero := hIT hit
    rw [if_neg (not_not_intro hzero)] at hcond
    obtain rfl : none = cond := Option.some.inj hcond
    rw [if_pos ⟨rfl, hit⟩, if_pos hit, pending_itAdvance _ hzero, List.append_nil, firstcond_eq, itMask_eq]
    exact itPush_eq _ (mask_ne (isIT_iff.1 hit).2)
  · rw [if_neg fun h => hit h.2, if_neg hit]

/-- The vector after an instruction that was fetched. -/
theorem expand_eq {e : State M} {cond : Option CondCode} {insn PC : BitVec 32} {i : Instr}
    (hcond : e.condCode = some cond) (hdec : decode insn = some i) (hcov : Covered e cond i) :
    thumb16expand (pending e.itstate) insn PC =
      some (thumb16uops cond insn PC, pending (Isa.step prog e i).itstate) := by
  have hit (hit : isIT insn = true) : i = .it (insn.extractLsb' 0 8) :=
    Option.some.inj (hdec.symm.trans (decode_IT hit))
  have hnone (h : isIT insn = true) : cond = none := by
    rw [hit h] at hcov
    exact hcov.1
  have houtside (h : isIT insn = true) : e.itstate &&& 0xF = 0 := by
    by_contra hne
    have hsome := (blockCond_isSome hcond).2 hne
    rw [hnone h] at hsome
    cases hsome
  rw [thumb16expand_pending (blockCond_condOf hcond) houtside]
  by_cases h : isIT insn = true
  · obtain rfl := hit h
    obtain rfl := hnone h
    rw [if_pos h, itstate_step_IT hcond]
  · rw [if_neg h, itstate_step]
    rintro itstate rfl
    exact h (isIT_of_decode hdec)

/-- **One instruction.** -/
theorem Related.step {s s' : Checked M} {x : Scexec M} (h : Related s x) (hstep : Checked.step prog s = some s') :
    ∃ x', Scexec.step prog x = some x' ∧ Related s' x' := by
  obtain ⟨⟨b, hstarts, hagree⟩, hvector⟩ := h
  unfold Checked.step at hstep
  split at hstep
  case isFalse => exact nomatch hstep
  rename_i hthumb
  obtain ⟨i, hdec, hstep⟩ := Option.bind_eq_some_iff.1 hstep
  obtain ⟨cond, hcond, hstep⟩ := Option.bind_eq_some_iff.1 hstep
  split at hstep
  case isFalse => exact nomatch hstep
  rename_i hok
  -- the guard of `Checked.step`: the instruction is covered, and the flags that it needs are right
  obtain ⟨hcov, hneeds⟩ := hok
  obtain rfl := Option.some.inj hstep
  have hIT : b.inIT = cond.isSome := by
    unfold State.inIT
    rw [hagree.itstate]
    exact condCode_inIT hcond
  -- both fetch at one address of one memory
  have hfetch : prog.get_code32 x.core.mem (x.core.PC &&& 0xFFFFFFFE) = prog.get_code32 s.state.mem s.state.pc := by
    rw [hstarts.rep.mem, hagree.mem, ← hagree.pc, hstarts.pc]
    rfl
  -- the core does what the instruction does to the state it shows, and that state agrees with the program's
  have hsound : Emulates prog _ (sure cond i) _ (expected prog b cond i) := thumb16uops_sound hstarts.resetNOPStatus hIT
    (hagree.thumb.trans hthumb) hdec (hagree.covered hneeds hcov)
  obtain ⟨t, hrun, b', hafter, hagree'⟩ := hsound
  have hexpected : Agree _ (expected prog b cond i) (expected prog s.state cond i) := hagree.expected hIT hneeds
  have hstate := hagree'.trans hexpected
  refine ⟨⟨t.advance, pending (Isa.step prog s.state i).itstate⟩, ?_,
    ⟨_, hafter.advance (Isa.step prog s.state i).itstate, ?_⟩, rfl⟩
  · unfold Scexec.step
    rw [if_neg (hstarts.rep.ttype.2 (hagree.thumb.trans hthumb))]
    dsimp only
    rw [show prog.get_code32 x.core.mem (x.core.state.pc.setWidth 32 &&& 0xFFFFFFFE) = _ from hfetch,
      thumb32_of_decode hdec, if_neg Bool.false_ne_true, hvector, expand_eq hcond hdec hcov, Option.bind_some]
    exact congrArg (Option.map _) hrun
  · rw [step_eq hcond i]
    exact hstate.withIT _

/-- **Whole runs.** -/
theorem Related.run {s s' : Checked M} {x : Scexec M} {n : List Unit} (h : Related s x)
    (hrun : Lib.run (fun s _ => Checked.step prog s) s n = some s') :
    ∃ x', Lib.run (fun x _ => Scexec.step prog x) x n = some x' ∧ Related s' x' :=
  run_lockstep (fun _ _ _ _ hs hR => hR.step hs) hrun h

end Esesc.Emul
