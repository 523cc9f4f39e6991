import Esesc.Emul.CrackData

/-!
# Cracked branches

A branch leaves its sequence when it is taken. The ones that exchange the instruction set are those of a
program in Thumb mode.

* `wp_branchTo`, `wp_jump`: the branches of the sequences.
* `wp_exchange`, `wp_condExchange`: the mode.
* `simulates_B`, `simulates_BX`, `simulates_BLX`, `simulates_CBZ`: the instructions.
-/

namespace Esesc.Emul

open Esesc.Lib Isa

variable {M : Type*} {prog : Prog M} {a : State M} {c : Sccore M} {us : List Uop} {Q : Sccore M → Prop}
  {d m n : Reg} {cond : Option CondCode}

/-! ## Taken, or not -/

/-- What holds after a branch that may be taken. -/
def Branches (taken : Bool) (target : BitVec 32) (c t : Sccore M) : Prop :=
  if taken = true then Jumps target t else Stays c t

theorem Branches.after {taken : Bool} {target : BitVec 32} {t u : Sccore M} (hs : Stays c t)
    (h : Branches taken target t u) : Branches taken target c u := by
  unfold Branches at h ⊢
  split
  · rename_i htaken
    rwa [if_pos htaken] at h
  · rename_i htaken
    rw [if_neg htaken] at h
    exact hs.trans h

/-- A sequence with a branch at its end. -/
theorem Emulates.of_branches {s : Sure} {b e : State M} {taken : Bool} {target : BitVec 32}
    (hwp : (uops prog).WP us c fun t => Shows b t ∧ Branches taken target c t) (hpc : b.pc = evenPC c.state.pc)
    (he : Agree s (if taken = true then { b with pc := target &&& 0xFFFFFFFE } else b.next) e) :
    Emulates prog us s c e := by
  refine hwp.mono ?_
  rintro t ⟨hr, hb⟩
  unfold Branches at hb
  cases taken with
  | true =>
    rw [if_pos rfl] at hb he
    refine ⟨{ b with pc := target &&& 0xFFFFFFFE }, ⟨⟨hr.reg, hr.zero, hr.icc, hr.ttype, hr.mem⟩, ?_⟩, he⟩
    rw [if_pos hb.1]
    exact hb.2
  | false =>
    rw [if_neg Bool.false_ne_true] at hb he
    refine ⟨_, ⟨hr.next, ?_⟩, he⟩
    rw [hb.1, if_neg Bool.false_ne_true]
    refine ⟨hb.2, ?_⟩
    show b.pc + 2 = _
    rw [hpc]

/-! ## Targets -/

/-- The conditional branch, when `LREG_TMP1` has the target and the flags. -/
theorem wp_branchIf {k : CondCode} (h : Shows a c) (hf : c.state.flush = false) {b : State M} {target : BitVec 32}
    (hicc : c.state.iccrf LREG_TMP1 = b.icc) (hv : (c.state.rf LREG_TMP1).setWidth 32 = target) :
    (uops prog).WP [branchIf k] c fun t => Shows a t ∧ Branches (holds b k) target c t := by
  refine (wp_rb (rbranchArray k) (r := LREG_TMP1) hf h).mono ?_
  rintro t ⟨hr, hb⟩
  rw [hicc, rbranchArray_test, hv] at hb
  exact ⟨hr, hb⟩

/-- The target and the flags meet in `LREG_TMP1`. -/
theorem wp_copyBranch {k : CondCode} (src : RegType) (h : Shows a c) (hf : c.state.flush = false) :
    (uops prog).WP [copyICC src LREG_TMP1, branchIf k] c fun t => Shows a t ∧
      Branches (holds a k) ((c.state.rf src).setWidth 32) c t := by
  refine wp_copyICC temp1_temp hf h fun t hs hr _ hv hicc => ?_
  refine (wp_branchIf hr hs.1 hicc rfl).mono ?_
  rintro u ⟨hru, hb⟩
  rw [hv] at hb
  exact ⟨hru, hb.after hs⟩

theorem wp_branchTo {k : CondCode} {target : BitVec 32} (h : Shows a c) (hf : c.state.flush = false) :
    (uops prog).WP (branchTo k target) c fun t => Shows a t ∧ Branches (holds a k) target c t := by
  refine wp_copyPCL temp1_temp hf h fun t hs hr _ hv => ?_
  refine (wp_copyBranch LREG_TMP1 hr hs.1).mono ?_
  rintro u ⟨hru, hb⟩
  rw [hv] at hb
  exact ⟨hru, hb.after hs⟩

/-- The branch to a register, of which bit 0 was cleared. -/
theorem wp_jumpCleared {r : RegType} {target : BitVec 32} (h : Shows a c)
    (hv : (c.state.rf r).setWidth 32 = target &&& 0xFFFFFFFE) :
    (uops prog).WP [jumpReg r] c fun t => Shows a t ∧ Branches true target c t := by
  refine (wp_jumpReg (r := r) h).mono ?_
  rintro u ⟨hru, hflush, hpc⟩
  rw [hv, BitVec.and_assoc, BitVec.and_self] at hpc
  exact ⟨hru, hflush, hpc⟩

theorem wp_clearBit0 {src tmp : RegType} (htmp : Temp tmp) (h : Shows a c) (hf : c.state.flush = false)
    (hnext : ∀ t, Stays c t → Shows a t → SameBut tmp c t →
      (t.state.rf tmp).setWidth 32 = (c.state.rf src).setWidth 32 &&& 0xFFFFFFFE → (uops prog).WP us t Q) :
    (uops prog).WP (clearBit0 src tmp :: us) c Q := by
  obtain ⟨x, hx, hval⟩ := (computes_S64_AND : Computes prog _ _ _).exec c src 0 0xFFFFFFFE tmp false
  refine wp_temp (r := tmp) hx rfl htmp rfl hf h fun t hs hr hsame hv _ => hnext t hs hr hsame ?_
  rw [hv, hval, opnd_zero h]

theorem wp_jump (src : RegType) {tmp : RegType} (htmp : Temp tmp) (h : Shows a c) (hf : c.state.flush = false) :
    (uops prog).WP [clearBit0 src tmp, jumpReg tmp] c fun t => Shows a t ∧
      Branches true ((c.state.rf src).setWidth 32) c t := by
  refine wp_clearBit0 htmp h hf fun t hs hr _ hv => ?_
  refine (wp_jumpCleared hr hv).mono ?_
  rintro u ⟨hru, hb⟩
  exact ⟨hru, hb.after hs⟩

/-! ## Branches to an address in the instruction -/

theorem and_FE (x : BitVec 32) : (x &&& 0xFFFFFFFE).toNat = x.toNat / 2 * 2 := by
  have hshift : x &&& (0xFFFFFFFE : BitVec 32) = x >>> 1 <<< 1 := by
    refine BitVec.eq_of_getLsbD_eq fun i hi => ?_
    have hmask : ∀ i < 32, (0xFFFFFFFE : BitVec 32).getLsbD i = decide (1 ≤ i) := by decide
    rw [BitVec.getLsbD_and, hmask i hi, BitVec.getLsbD_shiftLeft, BitVec.getLsbD_ushiftRight]
    by_cases h1 : 1 ≤ i
    · simp [hi, h1, Nat.not_lt.2 h1]
    · simp [h1, Nat.not_le.1 h1]
  rw [hshift, BitVec.toNat_shiftLeft, BitVec.toNat_ushiftRight, Nat.shiftRight_eq_div_pow, Nat.shiftLeft_eq]
  have := x.isLt
  omega

theorem even_next {x : BitVec 32} (h : x &&& 0xFFFFFFFE = x) : (x + 2) &&& 0xFFFFFFFE = x + 2 := by
  have hx : x.toNat / 2 * 2 = x.toNat := by
    rw [← and_FE, h]
  refine BitVec.eq_of_toNat_eq ?_
  rw [and_FE, BitVec.toNat_add, show (2 : BitVec 32).toNat = 2 from rfl]
  omega

/-- Bit 0 of the PC does not matter where an even number is added. -/
theorem Starts.even_add (h : Starts a c) {y : BitVec 32} (hy : y.toNat % 2 = 0) :
    (c.PC + y) &&& 0xFFFFFFFE = (a.pc + y) &&& 0xFFFFFFFE := by
  refine BitVec.eq_of_toNat_eq ?_
  rw [and_FE, and_FE, ← h.masked, BitVec.toNat_add, BitVec.toNat_add, and_FE]
  omega

/-- The target of a branch in an instruction. -/
theorem Starts.target (h : Starts a c) {offset : BitVec 32} (hoff : offset.toNat % 2 = 0) :
    (c.PC + 4 + offset) &&& 0xFFFFFFFE = (a.pc + 4 + offset) &&& 0xFFFFFFFE := by
  rw [BitVec.add_assoc, BitVec.add_assoc]
  refine h.even_add ?_
  rw [BitVec.toNat_add, show (4 : BitVec 32).toNat = 4 from rfl]
  omega

theorem set_PC (x : BitVec 32) : a.set 15 x = { a with pc := x &&& 0xFFFFFFFE } := dif_neg (by decide)

/-- **Conditional branch.** -/
theorem simulates_Bcond {k : CondCode} {offset : BitVec 32} (hoff : offset.toNat % 2 = 0) (h : Starts a c) :
    Emulates prog (branchTo k (c.PC + 4 + offset)) .exact c
      (expected prog a none (.bcond (BitVec.ofNat 4 k.val) offset)) := by
  refine Emulates.of_branches (wp_branchTo h.rep h.flush) h.pc (.of_eq ?_)
  unfold expected under holds
  rw [h.target hoff]
  simp only [exec, set_PC]

/-- **Branch.** -/
theorem simulates_B {offset : BitVec 32} (hoff : offset.toNat % 2 = 0) (h : Starts a c) :
    Emulates prog (branch cond (c.PC + 4 + offset)) .exact c (expected prog a cond (.b offset)) := by
  cases cond with
  | some k =>
    refine Emulates.of_branches (wp_branchTo h.rep h.flush) h.pc (.of_eq ?_)
    unfold expected under
    rw [h.target hoff]
    simp only [exec, set_PC]
    rfl
  | none =>
    refine wp_copyPCL temp1_temp h.flush h.rep fun t hs hr _ hv => Emulates.stay hs ?_
    have hwp : (uops prog).WP _ _ _ := wp_jump LREG_TMP1 temp1_temp hr hs.1
    rw [hv] at hwp
    refine Emulates.of_branches hwp (h.stay hs hr).pc (.of_eq ?_)
    show _ = a.set 15 (a.pc + 4 + offset)
    rw [set_PC, if_pos rfl, h.target hoff]

/-! ## Exchange of the instruction set -/

/-- A conditional move into a register that no program sees. -/
theorem wp_select {k : Cond} {hne : k ≠ .C_OR_Z_NOT ∧ k ≠ .C_OR_Z} {src1 src2 dst : RegType} (hd : 32 ≤ dst.toNat)
    (hf : c.state.flush = false)
    (hnext : ∀ t, Stays c t → t.mem = c.mem → SameBut dst c t →
      t.state.rf dst = (if k.test (c.state.iccrf src1) = true then c.state.rf src1 else c.state.rf src2) →
      (uops prog).WP us t Q) :
    (uops prog).WP (setup (.U64 (.CMOV k hne)) src1 src2 0 dst false :: us) c Q := by
  have hdst : (setup (.U64 (.CMOV k hne)) src1 src2 0 dst false).inst.dst = dst := rfl
  have hset : (setup (.U64 (.CMOV k hne)) src1 src2 0 dst false).inst.seticc = false := rfl
  have hne0 : dst ≠ 0 := fun h0 => absurd hd (by rw [h0]; decide)
  generalize hinst : (setup (.U64 (.CMOV k hne)) src1 src2 0 dst false).inst = inst at hdst hset
  have hsame (x : BitVec 64) (y : CCType) : SameBut dst c (c.setDst inst x y) :=
    fun q hq => ⟨Scstate.rf_setDst_of_ne (hdst ▸ hq), Scstate.iccrf_setDst_of_ne (hdst ▸ hq) hset⟩
  have hstay (x : BitVec 64) (y : CCType) : Stays c (c.setDst inst x y) :=
    ⟨Scstate.flush_setDst.trans hf, Scstate.pc_setDst⟩
  have hval (x : BitVec 64) (y : CCType) : (c.setDst inst x y).state.rf dst = x := by
    show (c.state.setDst inst x y).rf dst = x
    have hlt : ¬dst < 32 := fun hlt => absurd hd (Nat.not_le.2 hlt)
    rw [Scstate.rf_setDst, hdst, if_pos ⟨rfl, hne0⟩, if_neg hlt]
  refine wp_cmov hf (fun htest => ?_) fun htest => ?_
  · rw [hinst]
    exact hnext _ (hstay _ _) rfl (hsame _ _) (by rw [hval, if_pos htest])
  · rw [hinst]
    refine hnext _ (hstay (c.state.rf src2) (c.state.iccrf src2)) rfl (hsame (c.state.rf src2) (c.state.iccrf src2)) ?_
    rw [if_neg (by rw [htest]; exact Bool.false_ne_true)]
    exact hval _ _

theorem Shows.of_sameBut {r : RegType} {t : Sccore M} (h : Shows a c) (hr : Temp r) (hs : SameBut r c t)
    (hm : t.mem = c.mem) : Shows a t where
  reg i := by
    have hne : lreg i ≠ r := (lreg_ne (.inr (by have := hr.ge; omega))).symm
    rw [(hs _ hne).1]
    exact h.reg i
  zero := by
    have hne : (0 : RegType) ≠ r := fun h0 => absurd hr.ge (by rw [← h0]; decide)
    rw [(hs _ hne).1]
    exact h.zero
  icc := by
    rw [(hs _ hr.ne_icc).2]
    exact h.icc
  ttype := by
    rw [(hs _ hr.ne_ttype).1]
    exact h.ttype
  mem := hm.trans h.mem

/-- The register of the mode. -/
theorem Shows.toMode {t : Sccore M} {bit : Bool} (h : Shows a c) (hs : SameBut LREG_TTYPE c t) (hm : t.mem = c.mem)
    (hbit : t.state.rf LREG_TTYPE ≠ 0 ↔ bit = true) : Shows { a with thumb := bit } t where
  reg i := by
    rw [(hs _ (lreg_ne (.inr (by decide))).symm).1]
    exact h.reg i
  zero := by
    rw [(hs _ (by decide)).1]
    exact h.zero
  icc := by
    rw [(hs _ (by decide)).2]
    exact h.icc
  ttype := hbit
  mem := hm.trans h.mem

theorem ttype_ge : 32 ≤ LREG_TTYPE.toNat := by decide

/-- Bit 0 of a register, in the flags of a temporary one. -/
theorem wp_bit0 {src tmp : RegType} (htmp : Temp tmp) (h : Shows a c) (hf : c.state.flush = false)
    (hnext : ∀ t, Stays c t → Shows a t → SameBut tmp c t →
      Cond.NE.test (t.state.iccrf tmp) = (c.state.rf src).getLsbD 0 → (uops prog).WP us t Q) :
    (uops prog).WP (setup .S64_AND src 0 1 tmp false :: us) c Q := by
  refine wp_temp (u := setup .S64_AND src 0 1 tmp false) (x := c.state.rf src &&& 1)
    (y := calcNZ (c.state.rf src &&& 1) ||| (c.state.iccrf LREG_ICC &&& 3)) (r := tmp) rfl rfl htmp rfl hf h
    fun t hs hr hsame _ hy => hnext t hs hr hsame ?_
  have htest : ∀ n z c v, Cond.NE.test (flags n z c v) = !z := by decide
  have hone : c.state.rf src &&& 1 = 0 ↔ (c.state.rf src).getLsbD 0 = false := by
    rw [show (1 : BitVec 64) = BitVec.twoPow 64 0 from rfl, BitVec.and_twoPow]
    cases (c.state.rf src).getLsbD 0 <;> decide
  rw [hy, h.icc, State.icc, calcNZ_keep, htest]
  simp only [hone]
  cases (c.state.rf src).getLsbD 0 <;> rfl

/-- `LREG_TTYPE` joins these flags. -/
theorem wp_mode {tmp : RegType} (htmp : Temp tmp) (h : Shows a c) (hf : c.state.flush = false)
    (hnext : ∀ t, Stays c t → Shows a t → SameBut tmp c t → t.state.rf tmp = c.state.rf LREG_TTYPE →
      t.state.iccrf tmp = c.state.iccrf tmp → (uops prog).WP us t Q) :
    (uops prog).WP (setup .S64_COPYICC tmp LREG_TTYPE 0 tmp false :: us) c Q :=
  wp_temp (u := setup .S64_COPYICC tmp LREG_TTYPE 0 tmp false) (x := c.state.rf LREG_TTYPE) (y := c.state.iccrf tmp)
    (r := tmp) rfl rfl htmp rfl hf h fun t hs hr hsame hx hy => hnext t hs hr hsame hx hy

/-- The mode becomes that of a bit. -/
theorem wp_setMode {tmp : RegType} {bit : Bool} (htmp : Temp tmp) (h : Shows a c) (hf : c.state.flush = false)
    (hthumb : a.thumb = true) (hbit : Cond.NE.test (c.state.iccrf tmp) = bit)
    (hnext : ∀ t, Stays c t → Shows { a with thumb := bit } t →
      (∀ r, r ≠ tmp → r ≠ LREG_TTYPE → t.state.rf r = c.state.rf r) → (uops prog).WP us t Q) :
    (uops prog).WP (setup .S64_COPYICC tmp LREG_TTYPE 0 tmp false :: setup U64_CMOV_NE tmp 0 0 LREG_TTYPE false :: us)
      c Q := by
  refine wp_mode htmp h hf fun u hsu hru hsameu hv hy => ?_
  rw [← hy] at hbit
  refine wp_select ttype_ge hsu.1 fun w hsw hm hsamew hw => ?_
  refine hnext w (hsu.trans hsw) (hru.toMode hsamew hm ?_) fun r hr hr' => ?_
  · rw [hw, hbit]
    split
    · rename_i h1
      exact iff_of_true (hv ▸ h.ttype.2 hthumb) h1
    · rename_i h1
      exact iff_of_false (not_not.2 hru.zero) h1
  · rw [(hsamew r hr').1, (hsameu r hr).1]

/-- **The mode of a branch that exchanges.** -/
theorem wp_exchange {src tmp : RegType} (htmp : Temp tmp) (h : Shows a c) (hf : c.state.flush = false)
    (hthumb : a.thumb = true)
    (hnext : ∀ t, Stays c t → Shows { a with thumb := (c.state.rf src).getLsbD 0 } t →
      (∀ r, r ≠ tmp → r ≠ LREG_TTYPE → t.state.rf r = c.state.rf r) → (uops prog).WP us t Q) :
    (uops prog).WP (exchange src tmp LREG_TTYPE ++ us) c Q := by
  refine wp_bit0 htmp h hf fun t hs hr hsame hbit => ?_
  refine wp_setMode htmp hr hs.1 hthumb hbit fun w hsw hrw hothers => ?_
  exact hnext w (hs.trans hsw) hrw fun r hr hr' => (hothers r hr hr').trans (hsame r hr).1

/-- In an IT block the mode is first made in a temporary register. -/
theorem wp_exchangeTemp {src tmp : RegType} (htmp : Temp tmp) (h : Shows a c) (hf : c.state.flush = false)
    (hthumb : a.thumb = true)
    (hnext : ∀ t, Stays c t → Shows a t → SameBut tmp c t → (t.state.rf tmp ≠ 0 ↔ (c.state.rf src).getLsbD 0 = true) →
      (uops prog).WP us t Q) :
    (uops prog).WP (exchange src tmp tmp ++ us) c Q := by
  refine wp_bit0 htmp h hf fun t hs hr hsame hbit => ?_
  refine wp_mode htmp hr hs.1 fun u hsu hru hsameu hv hy => ?_
  rw [← hy] at hbit
  refine wp_select htmp.ge hsu.1 fun w hsw hm hsamew hw => ?_
  refine hnext w (hs.trans (hsu.trans hsw)) (hru.of_sameBut htmp hsamew hm) (fun q hq => ⟨?_, ?_⟩) ?_
  · rw [(hsamew q hq).1, (hsameu q hq).1, (hsame q hq).1]
  · rw [(hsamew q hq).2, (hsameu q hq).2, (hsame q hq).2]
  · rw [hw, hbit]
    split
    · rename_i h1
      exact iff_of_true (hv ▸ hr.ttype.2 hthumb) h1
    · rename_i h1
      exact iff_of_false (not_not.2 hru.zero) h1

/-- It is the mode if the condition holds. -/
theorem wp_condExchange {k : CondCode} {tmp : RegType} {bit : Bool} (htmp : Temp tmp) (h : Shows a c)
    (hf : c.state.flush = false) (hbit : c.state.rf tmp ≠ 0 ↔ bit = true)
    (hnext : ∀ t, Stays c t → Shows (if holds a k = true then { a with thumb := bit } else a) t →
      (∀ r, r ≠ tmp → r ≠ LREG_TTYPE → t.state.rf r = c.state.rf r ∧ t.state.iccrf r = c.state.iccrf r) →
      (uops prog).WP us t Q) :
    (uops prog).WP (condExchange k tmp ++ us) c Q := by
  refine wp_copyICC htmp hf h fun t hs hr hsame hv hicc => ?_
  have htest : (cmoveArray k).test (t.state.iccrf tmp) = holds a k := by rw [hicc, cmoveArray_test]
  refine wp_select ttype_ge hs.1 fun w hsw hm hsamew hw => ?_
  refine hnext w (hs.trans hsw) ?_ fun r hr hr' => ⟨?_, ?_⟩
  · rw [htest] at hw
    split
    · rename_i hk
      rw [if_pos hk, hv] at hw
      exact hr.toMode hsamew hm (hw ▸ hbit)
    · rename_i hk
      rw [if_neg hk] at hw
      exact hr.toMode hsamew hm (hw ▸ hr.ttype)
  · rw [(hsamew r hr').1, (hsame r hr).1]
  · rw [(hsamew r hr').2, (hsame r hr).2]

/-! ## The instructions that exchange -/

theorem vis_ne {r : RegType} (hr : 32 ≤ r.toNat) : vis m ≠ r := by
  have hall : ∀ m : Reg, (vis m).toNat < 32 := by decide
  rintro rfl
  exact absurd hr (Nat.not_le.2 (hall m))

/-- Bit 0 of a visible register. -/
theorem bit0_low {x : BitVec 64} {y : BitVec 32} (h : x.setWidth 32 = y) : x.getLsbD 0 = y.getLsbD 0 := by
  rw [← h, BitVec.getLsbD_setWidth]
  rfl

/-- What a branch that exchanges leaves, when the condition holds. -/
theorem exchange_under {k : CondCode} {x : BitVec 32} : under a.next (some k) (a.exchange x) =
    if holds a k = true then
      { if holds a k = true then { a with thumb := x.getLsbD 0 } else a with pc := x &&& 0xFFFFFFFE }
    else (if holds a k = true then { a with thumb := x.getLsbD 0 } else a : State M).next := by
  show (if holds a k = true then a.exchange x else a.next) = _
  split <;> rfl

/-- **Branch and exchange.** -/
theorem simulates_BX (h : Starts a c) (hthumb : a.thumb = true) :
    Emulates prog (branchExchange cond (vis m) c.PC) .exact c (expected prog a cond (.bx m)) := by
  have hTMP1 : vis m ≠ LREG_TMP1 := vis_ne temp1_temp.ge
  have hTMP2 : vis m ≠ LREG_TMP2 := vis_ne temp2_temp.ge
  have hTTYPE : vis m ≠ LREG_TTYPE := vis_ne ttype_ge
  by_cases hm : m.val < 15
  · have hx : (c.state.rf (vis m)).setWidth 32 = a.get m := h.rep.get hm
    cases cond with
    | none =>
      have hshape : branchExchange none (vis m) c.PC =
          setup .S64_AND (vis m) 0 1 LREG_TMP1 false :: clearBit0 (vis m) LREG_TMP2 ::
            setup .S64_COPYICC LREG_TMP1 LREG_TTYPE 0 LREG_TMP1 false ::
            setup U64_CMOV_NE LREG_TMP1 0 0 LREG_TTYPE false :: [jumpReg LREG_TMP2] := if_neg (vis_ne_PC hm)
      rw [hshape]
      refine wp_bit0 temp1_temp h.rep h.flush fun t hs hr hsame hbit => ?_
      refine wp_clearBit0 temp2_temp hr hs.1 fun u hsu hru hsameu hu => ?_
      have hTMP : LREG_TMP1 ≠ LREG_TMP2 := by decide
      have hTTY : LREG_TMP2 ≠ LREG_TTYPE := by decide
      rw [← (hsameu _ hTMP).2, bit0_low hx] at hbit
      refine wp_setMode temp1_temp hru hsu.1 hthumb hbit fun w hsw hrw hothers =>
        Emulates.stay (hs.trans (hsu.trans hsw)) ?_
      have htarget : (w.state.rf LREG_TMP2).setWidth 32 = a.get m &&& 0xFFFFFFFE := by
        rw [hothers _ hTMP.symm hTTY, hu, (hsame _ hTMP1).1, hx]
      have hpc : a.pc = evenPC w.state.pc := by
        rw [(hs.trans (hsu.trans hsw)).2]
        exact h.pc
      exact Emulates.of_branches (wp_jumpCleared hrw htarget) hpc (.of_eq (if_pos rfl))
    | some k =>
      have hshape : branchExchange (some k) (vis m) c.PC =
          exchange (vis m) LREG_TMP1 LREG_TMP1 ++ (condExchange k LREG_TMP1 ++ [copyICC (vis m) LREG_TMP1, branchIf k]) := by
        rw [← List.append_assoc]
        exact if_neg (vis_ne_PC hm)
      rw [hshape]
      refine wp_exchangeTemp temp1_temp h.rep h.flush hthumb fun t hs hr hsame hmode => ?_
      rw [bit0_low hx] at hmode
      refine wp_condExchange temp1_temp hr hs.1 hmode fun u hsu hru hothers => Emulates.stay (hs.trans hsu) ?_
      have hwp : (uops prog).WP _ _ _ := wp_copyBranch (k := k) (vis m) hru hsu.1
      have hheld : holds (if holds a k = true then { a with thumb := (a.get m).getLsbD 0 } else a : State M) k = holds a k := by
        split <;> rfl
      rw [(hothers _ hTMP1 hTTYPE).1, (hsame _ hTMP1).1, hx, hheld] at hwp
      have hpc : a.pc = evenPC u.state.pc := by
        rw [(hs.trans hsu).2]
        exact h.pc
      refine Emulates.of_branches hwp ?_ (.of_eq exchange_under.symm)
      rw [← hpc]
      split <;> rfl
  · obtain rfl : m = 15 := Fin.ext (by have := m.isLt; omega)
    have hpcadd : (c.PC &&& 0xFFFFFFFE) + 4 = a.get 15 := by rw [h.masked, get_PC]
    cases cond with
    | none =>
      have hshape : branchExchange none (vis 15) c.PC = copyPCL (a.get 15) LREG_TMP1 ::
          (exchange LREG_TMP1 LREG_TMP2 LREG_TTYPE ++ [clearBit0 LREG_TMP1 LREG_TMP1, jumpReg LREG_TMP1]) := by
        rw [← hpcadd]
        unfold branchExchange
        exact (if_pos vis_PC).trans rfl
      rw [hshape]
      refine wp_copyPCL temp1_temp h.flush h.rep fun t hs hr _ hv => ?_
      refine wp_exchange temp2_temp hr hs.1 hthumb fun u hsu hru hothers => Emulates.stay (hs.trans hsu) ?_
      have hwp : (uops prog).WP _ _ _ := wp_jump LREG_TMP1 temp1_temp hru hsu.1
      rw [hothers _ (by decide) (by decide), hv] at hwp
      rw [bit0_low hv] at hwp
      have hpc : a.pc = evenPC u.state.pc := by
        rw [(hs.trans hsu).2]
        exact h.pc
      exact Emulates.of_branches hwp hpc (.of_eq (if_pos rfl))
    | some k =>
      have hshape : branchExchange (some k) (vis 15) c.PC = copyPCL (a.get 15) LREG_TMP1 ::
          copyICC LREG_TMP1 LREG_TMP1 :: (exchange LREG_TMP1 LREG_TMP2 LREG_TMP2 ++
            (condExchange k LREG_TMP2 ++ [branchIf k])) := by
        rw [← hpcadd]
        unfold branchExchange
        exact (if_pos vis_PC).trans rfl
      rw [hshape]
      refine wp_copyPCL temp1_temp h.flush h.rep fun t hs hr _ hv => ?_
      refine wp_copyICC temp1_temp hs.1 hr fun u hsu hru _ hvu hicc => ?_
      refine wp_exchangeTemp temp2_temp hru hsu.1 hthumb fun w hsw hrw hsamew hmode => ?_
      rw [bit0_low (hvu ▸ hv)] at hmode
      refine wp_condExchange temp2_temp hrw hsw.1 hmode fun x hsx hrx hothers =>
        Emulates.stay (hs.trans (hsu.trans (hsw.trans hsx))) ?_
      have hTMP : LREG_TMP1 ≠ LREG_TMP2 := by decide
      have hTTY : LREG_TMP1 ≠ LREG_TTYPE := by decide
      have hflags : x.state.iccrf LREG_TMP1 = a.icc := by rw [(hothers _ hTMP hTTY).2, (hsamew _ hTMP).2, hicc]
      have htarget : (x.state.rf LREG_TMP1).setWidth 32 = a.get 15 := by
        rw [(hothers _ hTMP hTTY).1, (hsamew _ hTMP).1, hvu, hv]
      have hpc : a.pc = evenPC x.state.pc := by
        rw [(hs.trans (hsu.trans (hsw.trans hsx))).2]
        exact h.pc
      refine Emulates.of_branches (wp_branchIf hrx hsx.1 hflags htarget) ?_ (.of_eq exchange_under.symm)
      rw [← hpc]
      split <;> rfl

/-- The link register does not depend on bit 0 of the PC. -/
theorem Starts.link (h : Starts a c) : (c.PC + 2) ||| 1 = (a.pc + 2) ||| 1 := by
  have hset : ∀ x : BitVec 32, x ||| 1 = (x &&& 0xFFFFFFFE) ||| 1 := by
    intro x
    refine BitVec.eq_of_getLsbD_eq fun i hi => ?_
    have hmask : ∀ i < 32, (0xFFFFFFFE : BitVec 32).getLsbD i = decide (1 ≤ i) := by decide
    rw [BitVec.getLsbD_or, BitVec.getLsbD_or, BitVec.getLsbD_and, hmask i hi]
    rcases Nat.eq_zero_or_pos i with rfl | hi0
    · simp
    · simp [Nat.succ_le_of_lt hi0]
  rw [hset (c.PC + 2), hset (a.pc + 2), h.even_add (y := 2) rfl]

/-- **Branch with link and exchange,** outside of an IT block and not to the link register. -/
theorem simulates_BLX (h : Starts a c) (hthumb : a.thumb = true) (hm : m.val < 14) :
    Emulates prog (branchLinkExchange none (vis m) c.PC) .exact c (expected prog a none (.blx m)) := by
  have hTMP1 : vis m ≠ LREG_TMP1 := vis_ne temp1_temp.ge
  have hTTYPE : vis m ≠ LREG_TTYPE := vis_ne ttype_ge
  have hlink : lreg 14 ≠ vis m := by
    rw [show lreg 14 = vis 14 from rfl, Ne, vis_inj]
    rintro rfl
    exact absurd hm (by decide)
  show (uops prog).WP (copyPCL ((c.PC + 2) ||| 1) LINK ::
    (exchange (vis m) LREG_TMP1 LREG_TTYPE ++ [clearBit0 (vis m) LREG_TMP2, jumpReg LREG_TMP2])) c _
  -- the link register is written first
  set t := c.setDst (copyPCL ((c.PC + 2) ||| 1) LINK).inst (((c.PC + 2) ||| 1).signExtend 64 &&& 0xFFFFFFFF) 0 with ht
  have hs : Stays c t := ⟨Scstate.flush_setDst.trans h.flush, Scstate.pc_setDst⟩
  refine Microcode.WP.cons (t := t) rfl hs.1 ?_
  have hr : Shows (a.put 14 ((((c.PC + 2) ||| 1).signExtend 64 &&& 0xFFFFFFFF).setWidth 32)) t :=
    h.rep.write (i := 14) rfl rfl
  rw [copyPCL_low] at hr
  have hx : (t.state.rf (vis m)).setWidth 32 = a.get m := by
    have hne : vis m ≠ (copyPCL ((c.PC + 2) ||| 1) LINK).inst.dst := hlink.symm
    rw [← h.rep.get (by omega : m.val < 15), ht]
    exact congrArg (BitVec.setWidth 32) (Scstate.rf_setDst_of_ne hne)
  refine wp_exchange temp1_temp hr hs.1 hthumb fun u hsu hru hothers => Emulates.stay (hs.trans hsu) ?_
  have hwp : (uops prog).WP _ _ _ := wp_jump (vis m) temp2_temp hru hsu.1
  rw [hothers _ hTMP1 hTTYPE, hx] at hwp
  rw [bit0_low hx] at hwp
  have hpc : a.pc = evenPC u.state.pc := by
    rw [(hs.trans hsu).2]
    exact h.pc
  refine Emulates.of_branches hwp hpc (.of_eq ?_)
  show _ = (a.set 14 ((a.pc + 2) ||| 1)).exchange (a.get m)
  rw [if_pos rfl, set_put (by decide), ← h.link]
  rfl

/-- The flags of a comparison with zero. -/
theorem test_zero {x : BitVec 32} {nonzero : Bool} :
    (if nonzero = true then Cond.NE else Cond.E).test (iccSignedSub x 0 (x - 0)) = (nonzero != decide (x = 0)) := by
  have hall : ∀ n z c v nonzero, (if nonzero = true then Cond.NE else Cond.E).test (flags n z c v ^^^ 2) = (nonzero != z) := by
    decide
  have hinv : iccSignedSub x 0 (x - 0) = (iccSignedSub x 0 (x - 0) ^^^ 2) ^^^ 2 := by
    rw [BitVec.xor_assoc, BitVec.xor_self]
    exact (BitVec.xor_zero).symm
  have hsub : x - 0 = x := BitVec.sub_zero x
  rw [hinv, iccSignedSub_flags, hall, hsub]

/-- **Compare and branch.** -/
theorem simulates_CBZ {nonzero : Bool} (hn : n.val < 15) {imm : BitVec 32} (himm : imm.toNat % 2 = 0) (h : Starts a c) :
    Emulates prog (compareBranch none nonzero (vis n) imm c.PC) .exact c (expected prog a none (.cbz nonzero n imm)) := by
  have hTMP1 : vis n ≠ LREG_TMP1 := vis_ne temp1_temp.ge
  have hTMP2 : vis n ≠ LREG_TMP2 := vis_ne temp2_temp.ge
  refine wp_copyPCL temp1_temp h.flush h.rep fun t hs hr hsame hv => ?_
  obtain ⟨x, hx, hval⟩ := (computes_S32_ADD : Computes prog _ _ _).exec t LREG_TMP1 0 imm LREG_TMP2 false
  refine wp_temp (r := LREG_TMP2) hx rfl temp2_temp rfl hs.1 hr fun u hsu hru hsameu hu _ => ?_
  obtain ⟨y, hy, -⟩ := (computes_S32_SUB : Computes prog _ _ _).exec u (vis n) 0 0 LREG_TMP1 false
  refine wp_temp (r := LREG_TMP1) hy rfl temp1_temp rfl hsu.1 hru fun w hsw hrw hsamew _ hflags => ?_
  refine wp_temp (u := setup .S64_COPYICC LREG_TMP1 LREG_TMP2 0 LREG_TMP1 false) (x := w.state.rf LREG_TMP2)
    (y := w.state.iccrf LREG_TMP1) (r := LREG_TMP1) rfl rfl temp1_temp rfl hsw.1 hrw fun z hsz hrz _ hz hicc => ?_
  have hstay := hs.trans (hsu.trans (hsw.trans hsz))
  have htarget : (z.state.rf LREG_TMP1).setWidth 32 = c.PC + 4 + imm := by
    rw [hz, (hsamew _ (by decide)).1, hu, hval, hv, opnd_zero hr]
  have htest : (if nonzero = true then Cond.NE else Cond.E).test (z.state.iccrf LREG_TMP1) =
      (nonzero != decide (a.get n = 0)) := by
    have hsub : iccSub (setup .S32_SUB (vis n) 0 0 LREG_TMP1 false).inst u.state =
        iccSignedSub (a.get n) 0 (a.get n - 0) := by
      have harg1 : arg1 (setup .S32_SUB (vis n) 0 0 LREG_TMP1 false).inst u.state = a.get n := hru.get hn
      have harg2 : arg2 (setup .S32_SUB (vis n) 0 0 LREG_TMP1 false).inst u.state = 0 := arg2_setup.trans (opnd_zero hru)
      unfold iccSub
      rw [harg1, harg2]
    rw [hicc, hflags, hsub, test_zero]
  refine Emulates.stay hstay ?_
  have hwp : (uops prog).WP _ _ _ := wp_rb (if nonzero = true then Cond.NE else Cond.E) (r := LREG_TMP1) hsz.1 hrz
  rw [htest, htarget] at hwp
  refine Emulates.of_branches hwp (h.stay hstay hrz).pc (.of_eq ?_)
  show _ = if (a.get n = 0) = (nonzero = false) then a.set 15 (a.pc + 4 + imm) else a.next
  rw [set_PC, h.target himm]
  cases nonzero <;> by_cases h0 : a.get n = 0 <;> simp [h0]

end Esesc.Emul
