import Esesc.Emul.EmulatorRuns

/-!
# Flags that are not set

Outside of an IT block an instruction that computes should set the flags. In the group of data processing only the
comparisons do.

* `Silent.runSeq`: micro-ops that leave the register of flags alone.
* `dataProcessing_keeps_flags`: what follows for the group.
-/

namespace Esesc.Emul

open Esesc.Lib Isa

variable {M : Type*} {prog : Prog M} {c c' : Sccore M}

/-- The register of flags is not written. -/
structure Uop.Silent (u : Uop) : Prop where
  seticc : u.inst.seticc = false
  dst : LREG_ICC ≠ u.inst.dst

/-- Whatever a micro-op computes, it reaches the flags by `setDst`. -/
theorem Uop.Silent.exec {u : Uop} (hu : u.Silent) (hexec : (uops prog).exec u c = some c') :
    c'.state.iccrf LREG_ICC = c.state.iccrf LREG_ICC := by
  obtain ⟨sop, inst⟩ := u
  have hset (data : BitVec 64) (cc : CCType) : (c.state.setDst inst data cc).iccrf LREG_ICC = c.state.iccrf LREG_ICC :=
    Scstate.iccrf_setDst_of_ne hu.dst hu.seticc
  cases sop with
  | U32_STSC => exact nomatch hexec
  | U64_ST_L | U16_ST_L | U08_ST =>
    obtain rfl := Option.some.inj hexec
    rfl
  | U32_ST_L =>
    obtain rfl := Option.some.inj hexec
    show (OP_U32_ST_L prog inst c).state.iccrf LREG_ICC = _
    unfold OP_U32_ST_L
    split <;> rfl
  | U64_JMP_REG =>
    obtain rfl := Option.some.inj hexec
    rfl
  | U64 op =>
    obtain rfl := Option.some.inj hexec
    show (op.execute inst c.state).iccrf LREG_ICC = _
    unfold CondOp.execute
    split
    · cases op with
      | RB _ | LB _ => rfl
      | CMOV _ _ | CADD _ | CSUB _ => exact hset _ _
    · cases op with
      | RB _ => rfl
      | LB k =>
        show (if k = .CC then { c.state with nop := true } else c.state).iccrf LREG_ICC = _
        split <;> rfl
      | CMOV _ _ | CADD _ | CSUB _ => exact hset _ _
  | _ =>
    obtain rfl := Option.some.inj hexec
    exact hset _ _

theorem silent_runSeq {us : List Uop} (hus : ∀ u ∈ us, u.Silent) (hrun : (uops prog).runSeq us c = some c') :
    c'.state.iccrf LREG_ICC = c.state.iccrf LREG_ICC := by
  induction us generalizing c with
  | nil =>
    obtain rfl : c = c' := by simpa only [Microcode.runSeq, Option.some.injEq] using hrun
    rfl
  | cons u us ih =>
    simp only [Microcode.runSeq, Option.bind_eq_some_iff] at hrun
    obtain ⟨d, hd, hrun⟩ := hrun
    have hkept := (hus u List.mem_cons_self).exec hd
    split at hrun
    · obtain rfl := Option.some.inj hrun
      exact hkept
    · exact (ih (fun v hv => hus v (List.mem_cons_of_mem u hv)) hrun).trans hkept

/-! ## Data processing -/

section

variable {RD RN : RegType}

theorem silent_setup {sop : Scopcode} {srcA srcB dst : RegType} {imm : BitVec 32} (h : LREG_ICC ≠ dst) :
    (setup sop srcA srcB imm dst false).Silent := ⟨rfl, h⟩

/-- Only three of the sixteen set the flags. -/
theorem silent_dataProcessing (hRD : LREG_ICC ≠ RD) {opcode : BitVec 4} (h8 : opcode.toNat ≠ 8) (h10 : opcode.toNat ≠ 10)
    (h11 : opcode.toNat ≠ 11) : ∀ u ∈ dataProcessing none opcode RD RN, u.Silent := by
  have hD {sop : Scopcode} {A B : RegType} {imm : BitVec 32} : (setup sop A B imm RD false).Silent := silent_setup hRD
  have h1 {sop : Scopcode} {A B : RegType} {imm : BitVec 32} : (setup sop A B imm LREG_TMP1 false).Silent :=
    silent_setup (by decide)
  have h2 {sop : Scopcode} {A B : RegType} {imm : BitVec 32} : (setup sop A B imm LREG_TMP2 false).Silent :=
    silent_setup (by decide)
  have hone {u : Uop} (hu : u.Silent) : ∀ v ∈ [u], v.Silent := fun v hv => by
    rw [List.mem_singleton.1 hv]
    exact hu
  have hcons {u : Uop} {us : List Uop} (hu : u.Silent) (hus : ∀ v ∈ us, v.Silent) : ∀ v ∈ u :: us, v.Silent := by
    rw [List.forall_mem_cons]
    exact ⟨hu, hus⟩
  have hlt := opcode.isLt
  unfold dataProcessing
  generalize opcode.toNat = k at h8 h10 h11 hlt ⊢
  interval_cases k
  case «8» => exact absurd rfl h8
  case «10» => exact absurd rfl h10
  case «11» => exact absurd rfl h11
  case «5» => exact hcons h1 (hone hD)
  case «6» => exact hcons h1 (hcons h1 (hcons h2 (hcons h2 (hcons h2 (hcons h2 (hone hD))))))
  case «15» => exact hcons h1 (hcons h1 (hone hD))
  all_goals exact hone hD

end

/-- What is decoded as data processing is cracked as such. -/
theorem thumb16uops_dp {cond : Option CondCode} {insn PC : BitVec 32} {op : DpOp} {d m : Reg}
    (hdec : decode insn = some (.dp op d m)) : decodeDp insn = .dp op d m ∧ thumb16uops cond insn PC =
      dataProcessing cond (((insn >>> 6) &&& 0xF).setWidth 4) (fieldRD insn) (fieldRN insn) := by
  dsimp only [decode] at hdec
  split at hdec
  case h_2 h15 h14 h13 h12 h11 =>
    split at hdec
    · exact absurd hdec (by dsimp only [decodeSpecial]; split <;> exact nofun)
    · rename_i hspecial
      have h10 : insn.getLsbD 10 = false := Bool.not_eq_true _ ▸ hspecial
      refine ⟨Option.some.inj hdec, ?_⟩
      dsimp only [thumb16uops]
      rw [h15, h14, h13, h12, h11, h10]
      rfl
  case h_1 => exact absurd (Option.some.inj hdec) (by dsimp only [decodeShift]; split <;> exact nofun)
  case h_10 =>
    refine absurd hdec ?_
    dsimp only [decodeMisc]
    split
    case h_5 => split <;> exact nofun
    case h_7 => split <;> exact nofun
    all_goals exact nofun
  case h_13 => split at hdec <;> exact nomatch hdec
  all_goals exact nomatch hdec

/-- **Flags that are not set.** Outside of an IT block data processing other than `TST`, `CMP` and `CMN` leaves the
register of flags as it was, whatever it computes. -/
theorem dataProcessing_keeps_flags {insn PC : BitVec 32} {op : DpOp} {d m : Reg}
    (hdec : decode insn = some (.dp op d m)) (hTST : op ≠ .TST) (hCMN : op ≠ .CMN)
    (hrun : (uops prog).runSeq (thumb16uops none insn PC) c = some c') :
    c'.state.iccrf LREG_ICC = c.state.iccrf LREG_ICC := by
  obtain ⟨hdp, -⟩ : _ ∧ thumb16uops none insn PC = _ := thumb16uops_dp hdec
  rw [(thumb16uops_dp hdec).2] at hrun
  have hRD : LREG_ICC ≠ fieldRD insn := by
    rw [fieldRD_eq]
    exact (vis_ne (by decide)).symm
  have hk : (field insn 6 4).toNat ≠ 8 ∧ (field insn 6 4).toNat ≠ 10 ∧ (field insn 6 4).toNat ≠ 11 := by
    dsimp only [decodeDp] at hdp
    refine ⟨fun h => ?_, fun h => ?_, fun h => ?_⟩ <;> rw [h] at hdp
    · exact hTST (Instr.dp.inj hdp).1.symm
    · exact nomatch hdp
    · exact hCMN (Instr.dp.inj hdp).1.symm
  rw [← opcode_eq] at hk
  exact silent_runSeq (silent_dataProcessing hRD hk.1 hk.2.1 hk.2.2) hrun

/-- `ANDS r0, r1`: the result is zero, and the zero flag stays clear. -/
theorem dataProcessing_keeps_flags_AND : ∃ c', (uops flat).runSeq (thumb16uops none 0x4008 0) loopCore = some c' ∧
    c'.state.iccrf LREG_ICC = loopCore.state.iccrf LREG_ICC ∧
      (exec flat loopState (.dp .AND 0 1)).z = true := by
  have hdec : decode 0x4008 = some (.dp .AND 0 1) := rfl
  obtain ⟨c', hc'⟩ := Option.isSome_iff_exists.1 (by decide :
    ((uops flat).runSeq (thumb16uops none 0x4008 0) loopCore).isSome = true)
  exact ⟨c', hc', dataProcessing_keeps_flags hdec nofun nofun hc', rfl⟩

end Esesc.Emul
