import Esesc.Emul.CrackBranch

/-!
# Cracked loads and stores

In an IT block a load or store is skipped by a branch under the opposite condition. The tables hold that
opposite, but for the tenth condition.

* `simulates_skipUnless`: what the branch makes of a sequence.
* `simulates_access`: one load or store, of any width.
-/

namespace Esesc.Emul

open Esesc.Lib Isa

variable {M : Type*} {prog : Prog M} {a : State M} {c : Sccore M} {us : List Uop} {Q : Sccore M → Prop}
  {cond : Option CondCode} {A B : RegType} {imm : BitVec 32}

/-! ## The branch over the rest -/

/-- **Skipped or not.** -/
theorem simulates_skipUnless {s : Sure} {e : State M} (h : Starts a c) (cond : Option CondCode)
    (hbody : skips a cond = false → ∀ t, Starts a t → Emulates prog us s t e) :
    Emulates prog (skipUnless cond c.PC ++ us) s c (if skips a cond = true then a.next else e) := by
  refine Microcode.WP.append h.flush ((wp_skipUnless h.rep h.flush cond c.PC).mono ?_)
  rintro t ⟨hr, ht⟩
  cases hskip : skips a cond with
  | true =>
    rw [hskip, if_pos rfl] at ht
    show if t.state.flush = true then _ else _
    rw [if_pos ht.1]
    refine ⟨a.next, ⟨hr.next, ?_⟩, Agree.refl _ _⟩
    rw [if_pos ht.1, ht.2, h.even_add (y := 2) rfl, even_next h.even]
    rfl
  | false =>
    rw [hskip, if_neg Bool.false_ne_true] at ht
    show if t.state.flush = true then _ else _
    rw [ht.1, if_neg Bool.false_ne_true]
    exact Emulates.stay ht (hbody hskip t (h.stay ht hr))

theorem skips_expected {i : Instr} (hcond : cond ≠ some 9) :
    (if skips a cond = true then a.next else exec prog a i) = expected prog a cond i := by
  unfold expected under skips
  cases cond with
  | none => rfl
  | some k =>
    have hk : k ≠ 9 := fun h => hcond (by rw [h])
    simp only [if_neg hk]
    have hnext : holds a.next k = holds a k := rfl
    rw [hnext]
    cases holds a k <;> rfl

/-- A body that stays. -/
theorem Emulates.of_body {s : Sure} {e : State M} (h : Starts a c)
    (hwp : (uops prog).WP us c fun t => Stays c t ∧ Shows e t) (hpc : e.pc = a.pc + 2) : Emulates prog us s c e := by
  refine hwp.mono ?_
  rintro t ⟨hs, hr⟩
  refine ⟨e, ⟨hr, ?_⟩, Agree.refl _ _⟩
  rw [hs.1, if_neg Bool.false_ne_true, hpc, h.pc]
  exact ⟨hs.2, rfl⟩

/-! ## One access -/

/-- The micro-op of an access. -/
def Isa.Access.sop : Access → Scopcode
  | .STR => .U32_ST_L
  | .STRH => .U16_ST_L
  | .STRB => .U08_ST
  | .LDRSB => .S08_LD
  | .LDR => .U32_LD_L
  | .LDRH => .U16_LD_L
  | .LDRB => .U08_LD
  | .LDRSH => .S16_LD_L

def Isa.Access.isLoad : Access → Bool
  | .STR | .STRH | .STRB => false
  | _ => true

theorem wordAddr_low (inst : Scuop) : wordAddr inst c = (c.state.rf inst.src1).setWidth 32 &&& 0xFFFFFFFE := by
  unfold wordAddr Scstate.getReg
  rw [BitVec.setWidth_and]
  rfl

theorem narrowAddr_low (inst : Scuop) : narrowAddr inst c = (c.state.rf inst.src1).setWidth 32 := by
  unfold narrowAddr Scstate.getReg
  rw [low_mask, BitVec.setWidth_setWidth_of_le _ (by decide), BitVec.setWidth_eq]

/-- The test of a word's address is always true: bit 0 was cleared. -/
theorem wordAddr_ne (inst : Scuop) : wordAddr inst c ≠ 0xFFFFFFFF := by
  intro h
  have hbit := congrArg (fun x : BitVec 32 => x.getLsbD 0) h
  rw [wordAddr_low] at hbit
  simp at hbit

theorem Shows.withMem {m : M} (h : Shows a c) : Shows { a with mem := m } { c with mem := m } :=
  ⟨h.reg, h.zero, h.icc, h.ttype, rfl⟩

theorem setWidth_signExtend_of_le {w : ℕ} (v : BitVec w) : (v.signExtend 64).setWidth 32 = v.signExtend 32 := by
  refine BitVec.eq_of_getLsbD_eq fun i hi => ?_
  rw [BitVec.getLsbD_setWidth, BitVec.getLsbD_signExtend, BitVec.getLsbD_signExtend]
  simp [hi, Nat.lt_of_lt_of_le hi (by decide : 32 ≤ 64)]

/-- **An access,** at the address in a register. -/
theorem wp_access (op : Access) {t : Reg} {addr : BitVec 32} (ht : t.val < 15) (h : Shows a c) (hf : c.state.flush = false)
    (haddr : (c.state.rf A).setWidth 32 = addr) :
    (uops prog).WP [access op.sop op.isLoad A (vis t)] c fun u => Stays c u ∧ Shows (execAccess prog a op t addr) u := by
  have hload (sop : Scopcode) {x : BitVec 64} {y : BitVec 32} (hx : (uops prog).exec (setup sop A 0 0 (vis t) false) c =
      some (c.setDst (setup sop A 0 0 (vis t) false).inst x 0)) (hy : x.setWidth 32 = y) :
      (uops prog).WP [setup sop A 0 0 (vis t) false] c fun u => Stays c u ∧ Shows (a.next.set t y) u := by
    refine (wp_write (u := setup sop A 0 0 (vis t) false) (i := ⟨t.val, ht⟩) hx rfl rfl hf h).mono ?_
    rintro u ⟨hs, hr⟩
    rw [next_set ht, ← hy]
    exact ⟨hs, hr.next⟩
  have hstore (sop : Scopcode) {m : M} (hx : (uops prog).exec (setup sop A (vis t) 0 0 false) c = some { c with mem := m }) :
      (uops prog).WP [setup sop A (vis t) 0 0 false] c fun u => Stays c u ∧ Shows { a.next with mem := m } u :=
    Microcode.WP.cons hx hf (Microcode.WP.nil ⟨⟨hf, rfl⟩, h.next.withMem⟩)
  have hword : ∀ inst : Scuop, inst.src1 = A → wordAddr inst c = addr &&& 0xFFFFFFFE := by
    rintro inst rfl
    rw [wordAddr_low, haddr]
  have hnarrow : ∀ inst : Scuop, inst.src1 = A → narrowAddr inst c = addr := by
    rintro inst rfl
    rw [narrowAddr_low, haddr]
  have hreg : (c.state.rf (vis t)).setWidth 32 = a.get t := h.get ht
  cases op with
  | LDR =>
    refine hload .U32_LD_L rfl ?_
    rw [hword _ rfl, BitVec.setWidth_setWidth_of_le _ (by decide), BitVec.setWidth_eq, h.mem]
    rfl
  | LDRH =>
    refine hload .U16_LD_L rfl ?_
    rw [hnarrow _ rfl, BitVec.setWidth_setWidth_of_le _ (by decide), h.mem]
  | LDRB =>
    refine hload .U08_LD rfl ?_
    rw [hnarrow _ rfl, BitVec.setWidth_setWidth_of_le _ (by decide), h.mem]
  | LDRSB =>
    refine hload .S08_LD rfl ?_
    rw [hnarrow _ rfl, setWidth_signExtend_of_le, h.mem]
  | LDRSH =>
    refine hload .S16_LD_L rfl ?_
    rw [hnarrow _ rfl, setWidth_signExtend_of_le, h.mem]
  | STR =>
    refine hstore .U32_ST_L ((congrArg some (if_pos (wordAddr_ne _))).trans ?_)
    rw [hword _ rfl, h.mem]
    exact congrArg (fun x => some { c with mem := prog.st32 a.mem (addr &&& 0xFFFFFFFE) x }) hreg
  | STRH =>
    refine hstore .U16_ST_L ?_
    show some { c with mem := prog.st16 c.mem (narrowAddr _ c) ((c.state.rf (vis t)).setWidth 16) } = _
    rw [hnarrow _ rfl, h.mem, ← hreg, BitVec.setWidth_setWidth_of_le _ (by decide)]
  | STRB =>
    refine hstore .U08_ST ?_
    show some { c with mem := prog.st08 c.mem (narrowAddr _ c) ((c.state.rf (vis t)).setWidth 8) } = _
    rw [hnarrow _ rfl, h.mem, ← hreg, BitVec.setWidth_setWidth_of_le _ (by decide)]

/-! ## Addresses -/

/-- An address into `LREG_TMP1`. -/
theorem wp_address {addr : BitVec 32} {sop : Scopcode} {icc : Scuop → Scstate → CCType}
    (hop : Computes prog sop (fun x y => x + y) icc) (h : Shows a c) (hf : c.state.flush = false)
    (haddr : (c.state.rf A).setWidth 32 + opnd c.state B imm = addr)
    (hnext : ∀ t, Stays c t → Shows a t → SameBut LREG_TMP1 c t → (t.state.rf LREG_TMP1).setWidth 32 = addr →
      (uops prog).WP us t Q) : (uops prog).WP (setup sop A B imm LREG_TMP1 false :: us) c Q := by
  obtain ⟨x, hx, hval⟩ := hop.exec c A B imm LREG_TMP1 false
  refine wp_temp (r := LREG_TMP1) hx rfl temp1_temp rfl hf h fun t hs hr hsame hv _ => hnext t hs hr hsame ?_
  rw [hv, hval, haddr]

theorem execAccess_pc (op : Access) {t : Reg} {addr : BitVec 32} (ht : t.val < 15) :
    (execAccess prog a op t addr).pc = a.pc + 2 := by
  cases op with
  | STR | STRH | STRB => rfl
  | LDR | LDRH | LDRB | LDRSB | LDRSH => exact congrArg State.pc (next_set ht _)

/-- An access whose address is a sum. -/
theorem wp_accessAt (op : Access) {t : Reg} {addr : BitVec 32} (ht : t.val < 15) (h : Starts a c)
    (haddr : (c.state.rf A).setWidth 32 + opnd c.state B imm = addr) :
    Emulates prog [setup .U32_ADD A B imm LREG_TMP1 false, access op.sop op.isLoad LREG_TMP1 (vis t)] .exact c
      (execAccess prog a op t addr) := by
  refine wp_address computes_U32_ADD h.rep h.flush haddr fun u hs hr _ hv => Emulates.stay hs ?_
  exact Emulates.of_body (h.stay hs hr) (wp_access op ht hr hs.1 hv) (execAccess_pc op ht)

section

variable {t n : Reg} (op : Access) (ht : t.val < 15) (hn : n.val < 15) (h : Starts a c)

include ht hn h

/-- **Access with a register offset.** -/
theorem simulates_accessReg {m : Reg} (hm : m.val < 15) :
    Emulates prog (accessAt cond c.PC op.sop op.isLoad (vis n) (vis m) 0 (vis t)) .exact c
      (if skips a cond = true then a.next else exec prog a (.access op t n (.reg m))) :=
  simulates_skipUnless h cond fun _ _ hu =>
    wp_accessAt op ht hu (by rw [hu.rep.get hn, opnd_vis hu hm]; rfl)

/-- **Access with an immediate offset.** -/
theorem simulates_accessAt : Emulates prog (accessAt cond c.PC op.sop op.isLoad (vis n) 0 imm (vis t)) .exact c
    (if skips a cond = true then a.next else exec prog a (.access op t n (.imm imm))) :=
  simulates_skipUnless h cond fun _ _ hu => wp_accessAt op ht hu (by rw [hu.rep.get hn, opnd_imm hu]; rfl)

/-- The addition is left out when the immediate is zero. -/
theorem simulates_accessImm : Emulates prog (accessImm cond c.PC op.sop op.isLoad (vis n) imm (vis t)) .exact c
    (if skips a cond = true then a.next else exec prog a (.access op t n (.imm imm))) := by
  unfold accessImm
  by_cases himm : imm = 0
  · rw [if_neg (not_not.2 himm), himm]
    refine simulates_skipUnless h cond fun _ u hu => ?_
    have haddr : (u.state.rf (vis n)).setWidth 32 = a.get n + 0 := by
      rw [hu.rep.get hn]
      exact (BitVec.add_zero _).symm
    exact Emulates.of_body hu (wp_access op ht hu.rep hu.flush haddr) (execAccess_pc op ht)
  · rw [if_pos himm]
    exact simulates_accessAt op ht hn h

end

/-- **Load from the literal pool.** -/
theorem simulates_loadLiteral {t : Reg} {IMM8 : BitVec 32} (ht : t.val < 15) (h : Starts a c) :
    Emulates prog (loadLiteral cond (vis t) IMM8 c.PC) .exact c
      (if skips a cond = true then a.next else exec prog a (.ldrLiteral t (IMM8 <<< 2))) := by
  refine simulates_skipUnless h cond fun _ u hu => ?_
  refine wp_copyPCL temp1_temp hu.flush hu.rep fun v hs hr _ hv => ?_
  refine wp_address computes_S32_ADD hr hs.1 (by rw [hv, opnd_zero hr, h.aligned, aligned_add]) fun w hsw hrw _ hw =>
    Emulates.stay (hs.trans hsw) ?_
  exact Emulates.of_body (hu.stay (hs.trans hsw) hrw) (wp_access .LDR ht hrw hsw.1 hw) (execAccess_pc .LDR ht)

end Esesc.Emul
