import Esesc.Emul.ThumbIsa

/-!
# Registers and flags behind micro-ops

`Shows` says that the core holds the state that a program sees: registers one number higher and in the lower
half of 64 bits, the flags in `LREG_ICC`, the mode in `LREG_TTYPE`.

* `Shows.write`, `Shows.writeIcc`, `Shows.temp`, `Shows.flagsOnly`: what a micro-op does to it.
* `wp_condWrite`, `wp_condFlags`, `wp_skipUnless`: the parts of a sequence that make it conditional.
* `passed_test`: the tables hold the conditions of the instruction set, and one of them does not.
-/

namespace Esesc.Emul

open Esesc.Lib Isa

variable {M : Type*}

/-! ## The relation -/

/-- The number of a register in the core. -/
def lreg (i : Fin 15) : RegType := BitVec.ofNat 8 (i.val + 1)

theorem lreg_toNat (i : Fin 15) : (lreg i).toNat = i.val + 1 := by
  unfold lreg
  rw [BitVec.toNat_ofNat]
  omega

theorem lreg_inj {i j : Fin 15} : lreg i = lreg j ↔ i = j := by
  rw [← BitVec.toNat_inj, lreg_toNat, lreg_toNat, Fin.ext_iff]
  omega

theorem lreg_ne {i : Fin 15} {r : RegType} (h : r = 0 ∨ 16 ≤ r.toNat) : r ≠ lreg i := by
  rintro rfl
  rw [← BitVec.toNat_inj, lreg_toNat] at h
  simp only [BitVec.ofNat_eq_ofNat, BitVec.toNat_ofNat, Nat.zero_mod] at h
  omega

theorem lreg_lt (i : Fin 15) : lreg i < 32 := by
  rw [BitVec.lt_def, lreg_toNat]
  simp only [BitVec.ofNat_eq_ofNat, BitVec.toNat_ofNat]
  omega

/-- The flags as the core keeps them. -/
def Isa.State.icc (a : State M) : CCType := flags a.n a.z a.c a.v

/-- **The core holds the state of the program.** -/
structure Shows (a : State M) (c : Sccore M) : Prop where
  reg : ∀ i, c.state.rf (lreg i) = (a.r i).setWidth 64
  zero : c.state.rf 0 = 0
  icc : c.state.iccrf LREG_ICC = a.icc
  ttype : c.state.rf LREG_TTYPE ≠ 0 ↔ a.thumb = true
  mem : c.mem = a.mem

namespace Isa.State

/-- The state with other flags, four bits in one number. -/
def withIcc (a : State M) (icc : CCType) : State M :=
  { a with n := icc.getLsbD 3, z := icc.getLsbD 2, c := icc.getLsbD 1, v := icc.getLsbD 0 }

end Isa.State

theorem flags_getLsbD (n z c v : Bool) :
    (flags n z c v).getLsbD 3 = n ∧ (flags n z c v).getLsbD 2 = z ∧ (flags n z c v).getLsbD 1 = c ∧
      (flags n z c v).getLsbD 0 = v := by
  cases n <;> cases z <;> cases c <;> cases v <;> decide

@[simp] theorem withIcc_self (a : State M) : a.withIcc a.icc = a := by
  obtain ⟨hn, hz, hc, hv⟩ := flags_getLsbD a.n a.z a.c a.v
  unfold State.withIcc State.icc
  rw [hn, hz, hc, hv]

theorem icc_withIcc {a : State M} {icc : CCType} (h : icc.toNat < 16) : (a.withIcc icc).icc = icc := by
  have hall : ∀ x : Fin 16, flags ((BitVec.ofNat 8 x.val).getLsbD 3) ((BitVec.ofNat 8 x.val).getLsbD 2)
      ((BitVec.ofNat 8 x.val).getLsbD 1) ((BitVec.ofNat 8 x.val).getLsbD 0) = BitVec.ofNat 8 x.val := by
    decide
  have hx := hall ⟨icc.toNat, h⟩
  rw [BitVec.ofNat_toNat, BitVec.setWidth_eq] at hx
  exact hx

/-- A register that no program sees and that is none of the two with a meaning. -/
structure Temp (r : RegType) : Prop where
  ge : 32 ≤ r.toNat
  ne_icc : LREG_ICC ≠ r
  ne_ttype : LREG_TTYPE ≠ r

theorem temp1_temp : Temp LREG_TMP1 := ⟨by decide, by decide, by decide⟩

theorem temp2_temp : Temp LREG_TMP2 := ⟨by decide, by decide, by decide⟩

theorem temp3_temp : Temp LREG_TMP3 := ⟨by decide, by decide, by decide⟩

theorem low_mask (x : BitVec 64) : x &&& 0xFFFFFFFF = (x.setWidth 32).setWidth 64 := by
  refine BitVec.eq_of_getLsbD_eq fun i hi => ?_
  have hmask : (0xFFFFFFFF : BitVec 64).getLsbD i = decide (i < 32) := by
    rw [show (0xFFFFFFFF : BitVec 64) = BitVec.ofNat 64 (2 ^ 32 - 1) from rfl, BitVec.getLsbD_ofNat,
      Nat.testBit_two_pow_sub_one]
    simp [hi]
  rw [BitVec.getLsbD_and, hmask, BitVec.getLsbD_setWidth, BitVec.getLsbD_setWidth]
  simp [hi, Bool.and_comm]

/-- A write of a visible register. -/
def Isa.State.put (a : State M) (i : Fin 15) (x : BitVec 32) : State M := { a with r := Function.update a.r i x }

/-- With `seticc` the register of flags is written last. -/
theorem setDst_seticc {s : Scstate} {op : Scuop} {data : BitVec 64} {cc : CCType} (h : op.seticc = true)
    (hd : op.dst ≠ LREG_ICC) : s.setDst op data cc =
      { s.setDst { op with seticc := false } data cc with
        iccrf := Function.update (s.setDst { op with seticc := false } data cc).iccrf LREG_ICC cc } := by
  unfold Scstate.setDst
  by_cases hdst : op.dst = 0#8
  · simp [h, hdst]
  · simp [h, hdst, Function.update_comm hd]

namespace Shows

variable {a : State M} {c : Sccore M} {o : Scuop} {x : BitVec 64} {y : CCType}

/-- The lower half of a visible register. -/
theorem low (h : Shows a c) (i : Fin 15) : (c.state.rf (lreg i)).setWidth 32 = a.r i := by
  rw [h.reg i, BitVec.setWidth_setWidth_of_le _ (by decide), BitVec.setWidth_eq]

/-- A micro-op leaves alone what it does not write. -/
theorem keep (h : Shows a c) (hz : o.dst ≠ LREG_ICC) (ht : o.dst ≠ LREG_TTYPE) (hs : o.seticc = false)
    {r : Fin 15 → BitVec 32} (hr : ∀ i, (c.state.setDst o x y).rf (lreg i) = (r i).setWidth 64) :
    Shows { a with r := r } (c.setDst o x y) where
  reg := hr
  zero := by
    show (c.state.setDst o x y).rf 0 = 0
    rw [Scstate.rf_setDst, if_neg fun h0 => h0.2 h0.1.symm]
    exact h.zero
  icc := by
    show (c.state.setDst o x y).iccrf LREG_ICC = a.icc
    rw [Scstate.iccrf_setDst_of_ne hz.symm hs]
    exact h.icc
  ttype := by
    show (c.state.setDst o x y).rf LREG_TTYPE ≠ 0 ↔ _
    rw [Scstate.rf_setDst_of_ne ht.symm]
    exact h.ttype
  mem := h.mem

/-- A write to a visible register keeps the lower half. -/
theorem write (h : Shows a c) {i : Fin 15} (hd : o.dst = lreg i) (hs : o.seticc = false) :
    Shows (a.put i (x.setWidth 32)) (c.setDst o x y) := by
  refine h.keep (hd ▸ (lreg_ne (.inr (by decide))).symm) (hd ▸ (lreg_ne (.inr (by decide))).symm) hs fun j => ?_
  by_cases hj : j = i
  · subst hj
    rw [Scstate.rf_setDst, if_pos ⟨hd.symm, hd ▸ (lreg_ne (.inl rfl)).symm⟩, if_pos (hd ▸ lreg_lt j),
      Function.update_self, low_mask]
  · rw [Scstate.rf_setDst_of_ne (by rw [hd, Ne, lreg_inj]; exact hj), Function.update_of_ne hj]
    exact h.reg j

/-- A write to a temporary register is not seen. -/
theorem temp (h : Shows a c) (hd : Temp o.dst) (hs : o.seticc = false) :
    Shows a (c.setDst o x y) := by
  refine h.keep hd.ne_icc.symm hd.ne_ttype.symm hs fun j => ?_
  have hne : lreg j ≠ o.dst := (lreg_ne (.inr (by have := hd.ge; omega))).symm
  rw [Scstate.rf_setDst_of_ne hne]
  exact h.reg j

/-- Neither is one to register 0. -/
theorem none (h : Shows a c) (hd : o.dst = 0) (hs : o.seticc = false) :
    Shows a (c.setDst o x y) := by
  refine h.keep (hd ▸ by decide) (hd ▸ by decide) hs fun j => ?_
  rw [Scstate.rf_setDst_of_ne (hd ▸ (lreg_ne (.inl rfl)).symm)]
  exact h.reg j

/-- The register of flags. -/
theorem setIcc (h : Shows a c) (hy : y.toNat < 16) :
    Shows (a.withIcc y) { c with state := { c.state with iccrf := Function.update c.state.iccrf LREG_ICC y } } where
  reg := h.reg
  zero := h.zero
  icc := by
    show Function.update c.state.iccrf LREG_ICC y LREG_ICC = _
    rw [Function.update_self, icc_withIcc hy]
  ttype := h.ttype
  mem := h.mem

end Shows

/-! ## Conditions -/

def holds (a : State M) (k : CondCode) : Bool := a.passed (BitVec.ofNat 4 k.val)

theorem cmoveArray_test (a : State M) (k : CondCode) : (cmoveArray k).test a.icc = holds a k := by
  have hall : ∀ (k : CondCode) (n z c v : Bool),
      (cmoveArray k).test (flags n z c v) = condition (BitVec.ofNat 4 k.val) n z c v := by decide
  exact hall k a.n a.z a.c a.v

theorem rbranchArray_test (a : State M) (k : CondCode) : (rbranchArray k).test a.icc = holds a k :=
  cmoveArray_test a k

theorem negCmoveArray_test (a : State M) (k : CondCode) : (negCmoveArray k).test a.icc = !holds a k := by
  have hall : ∀ (k : CondCode) (n z c v : Bool),
      (negCmoveArray k).test (flags n z c v) = !condition (BitVec.ofNat 4 k.val) n z c v := by decide
  exact hall k a.n a.z a.c a.v

/-- **The slip.** The opposite of the tenth condition is the tenth condition. -/
theorem negrbranchArray_test (a : State M) (k : CondCode) :
    (negrbranchArray k).test a.icc = if k = 9 then holds a k else !holds a k := by
  have hall : ∀ (k : CondCode) (n z c v : Bool), (negrbranchArray k).test (flags n z c v) =
      if k = 9 then condition (BitVec.ofNat 4 k.val) n z c v else !condition (BitVec.ofNat 4 k.val) n z c v := by
    decide
  exact hall k a.n a.z a.c a.v

/-! ## Sequences that stay -/

/-- The PC is not touched. -/
def Stays (c t : Sccore M) : Prop := t.state.flush = false ∧ t.state.pc = c.state.pc

section

variable {prog : Prog M} {a : State M} {c : Sccore M} {us vs : List Uop} {P Q : Sccore M → Prop}

theorem Stays.trans {t u : Sccore M} (h : Stays c t) (h' : Stays t u) : Stays c u := ⟨h'.1, h'.2.trans h.2⟩

/-- One sequence after the other. -/
theorem wp_seq (hf : c.state.flush = false) (h : (uops prog).WP us c fun t => Stays c t ∧ P t)
    (hv : ∀ t, Stays c t → P t → (uops prog).WP vs t Q) : (uops prog).WP (us ++ vs) c Q :=
  Microcode.WP.append_of_stay hf (h.mono fun t ht => ⟨ht.1.1, hv t ht.1 ht.2⟩)

/-- A micro-op that writes its destination. -/
theorem wp_setDst {sop : Scopcode} {inst : Scuop} {x : BitVec 64} {y : CCType}
    (hx : sop.execute prog inst c = some (c.setDst inst x y)) (hf : c.state.flush = false)
    (h : (uops prog).WP us (c.setDst inst x y) Q) :
    (uops prog).WP (⟨sop, inst⟩ :: us) c Q :=
  Microcode.WP.cons hx (Scstate.flush_setDst.trans hf) h

/-- The micro-op counts as a nop. -/
def Sccore.noted (c : Sccore M) : Sccore M := { c with state := { c.state with nop := true } }

theorem Shows.noted (h : Shows a c) : Shows a c.noted := ⟨h.reg, h.zero, h.icc, h.ttype, h.mem⟩

/-- A conditional move. -/
theorem wp_cmov {cond : Cond} {hne : cond ≠ .C_OR_Z_NOT ∧ cond ≠ .C_OR_Z} {src1 src2 dst : RegType} {set : Bool}
    (hf : c.state.flush = false)
    (ht : cond.test (c.state.iccrf src1) = true → (uops prog).WP us
      (c.setDst (setup (.U64 (.CMOV cond hne)) src1 src2 0 dst set).inst (c.state.rf src1) (c.state.iccrf src1)) Q)
    (hn : cond.test (c.state.iccrf src1) = false → (uops prog).WP us
      (c.setDst (setup (.U64 (.CMOV cond hne)) src1 src2 0 dst set).inst (c.state.rf src2) (c.state.iccrf src2)).noted Q) :
    (uops prog).WP (setup (.U64 (.CMOV cond hne)) src1 src2 0 dst set :: us) c Q := by
  have hexec : (uops prog).exec (setup (.U64 (.CMOV cond hne)) src1 src2 0 dst set) c = some { c with
      state := if cond.test (c.state.iccrf src1) = true then
          c.state.setDst (setup (.U64 (.CMOV cond hne)) src1 src2 0 dst set).inst (c.state.rf src1) (c.state.iccrf src1)
        else
          { c.state.setDst (setup (.U64 (.CMOV cond hne)) src1 src2 0 dst set).inst (c.state.rf src2)
              (CondOp.icc2 (setup (.U64 (.CMOV cond hne)) src1 src2 0 dst set).inst c.state cond) with nop := true } } := rfl
  by_cases htest : cond.test (c.state.iccrf src1) = true
  · rw [if_pos htest] at hexec
    exact Microcode.WP.cons hexec (Scstate.flush_setDst.trans hf) (ht htest)
  · rw [if_neg htest] at hexec
    exact Microcode.WP.cons hexec (Scstate.flush_setDst.trans hf) (hn (Bool.not_eq_true _ ▸ htest))

/-- Only the register `r` differs. -/
def SameBut (r : RegType) (c t : Sccore M) : Prop :=
  ∀ q, q ≠ r → t.state.rf q = c.state.rf q ∧ t.state.iccrf q = c.state.iccrf q

/-- A micro-op that writes a temporary register: its value and its flags are known afterwards. -/
theorem wp_temp {u : Uop} {x : BitVec 64} {y : CCType} {r : RegType}
    (hx : (uops prog).exec u c = some (c.setDst u.inst x y)) (hr : u.inst.dst = r) (hd : Temp r)
    (hs : u.inst.seticc = false) (hf : c.state.flush = false) (h : Shows a c)
    (hnext : ∀ t, Stays c t → Shows a t → SameBut r c t → t.state.rf r = x → t.state.iccrf r = y →
      (uops prog).WP us t Q) : (uops prog).WP (u :: us) c Q := by
  subst hr
  have hne : u.inst.dst ≠ 0 := fun h0 => absurd hd.ge (by rw [h0]; decide)
  have hlt : ¬u.inst.dst < 32 := fun hlt => absurd hd.ge (Nat.not_le.2 hlt)
  refine Microcode.WP.cons hx (Scstate.flush_setDst.trans hf) (hnext _ ⟨Scstate.flush_setDst.trans hf, Scstate.pc_setDst⟩
    (h.temp hd hs) (fun q hq => ⟨Scstate.rf_setDst_of_ne hq, Scstate.iccrf_setDst_of_ne hq hs⟩) ?_ ?_)
  · show (c.state.setDst u.inst x y).rf u.inst.dst = x
    rw [Scstate.rf_setDst, if_pos ⟨rfl, hne⟩, if_neg hlt]
  · show (c.state.setDst u.inst x y).iccrf u.inst.dst = y
    rw [Scstate.iccrf_setDst, if_pos (.inl ⟨rfl, hne⟩)]

/-- A micro-op that writes a visible register, as the last one. -/
theorem wp_write {u : Uop} {x : BitVec 64} {y : CCType} {i : Fin 15}
    (hx : (uops prog).exec u c = some (c.setDst u.inst x y)) (hd : u.inst.dst = lreg i)
    (hs : u.inst.seticc = false) (hf : c.state.flush = false) (h : Shows a c) :
    (uops prog).WP [u] c fun t => Stays c t ∧ Shows (a.put i (x.setWidth 32)) t :=
  Microcode.WP.cons hx (Scstate.flush_setDst.trans hf)
    (Microcode.WP.nil ⟨⟨Scstate.flush_setDst.trans hf, Scstate.pc_setDst⟩, h.write hd hs⟩)

/-- One that also sets the flags. -/
theorem wp_writeIcc {u : Uop} {x : BitVec 64} {y : CCType} {i : Fin 15}
    (hx : (uops prog).exec u c = some (c.setDst u.inst x y)) (hd : u.inst.dst = lreg i)
    (hs : u.inst.seticc = true) (hf : c.state.flush = false) (h : Shows a c) (hy : y.toNat < 16) :
    (uops prog).WP [u] c fun t => Stays c t ∧ Shows ((a.put i (x.setWidth 32)).withIcc y) t := by
  refine Microcode.WP.cons hx (Scstate.flush_setDst.trans hf)
    (Microcode.WP.nil ⟨⟨Scstate.flush_setDst.trans hf, Scstate.pc_setDst⟩, ?_⟩)
  unfold Sccore.setDst
  rw [setDst_seticc hs (hd ▸ (lreg_ne (.inr (by decide))).symm)]
  exact (h.write (o := { u.inst with seticc := false }) hd rfl).setIcc hy

/-- One that is executed for its flags. -/
theorem wp_flags {u : Uop} {x : BitVec 64} {y : CCType}
    (hx : (uops prog).exec u c = some (c.setDst u.inst x y)) (hd : u.inst.dst = 0)
    (hs : u.inst.seticc = true) (hf : c.state.flush = false) (h : Shows a c) (hy : y.toNat < 16) :
    (uops prog).WP [u] c fun t => Stays c t ∧ Shows (a.withIcc y) t := by
  refine Microcode.WP.cons hx (Scstate.flush_setDst.trans hf)
    (Microcode.WP.nil ⟨⟨Scstate.flush_setDst.trans hf, Scstate.pc_setDst⟩, ?_⟩)
  unfold Sccore.setDst
  rw [setDst_seticc hs (hd ▸ by decide)]
  exact (h.none (o := { u.inst with seticc := false }) hd rfl).setIcc hy

/-! ## Conditional parts -/

theorem put_self (a : State M) (i : Fin 15) : a.put i (a.r i) = a := by
  unfold State.put
  rw [Function.update_eq_self]

/-- **A conditional write.** -/
theorem wp_condWrite (h : Shows a c) (hf : c.state.flush = false) (k : CondCode) (i : Fin 15) :
    (uops prog).WP (condWrite k (lreg i)) c fun t => Stays c t ∧
      Shows (if holds a k = true then a.put i ((c.state.rf LREG_TMP1).setWidth 32) else a) t := by
  refine wp_temp (u := copyICC LREG_TMP1 LREG_TMP1) (x := c.state.rf LREG_TMP1) (y := c.state.iccrf LREG_ICC)
    (r := LREG_TMP1) rfl rfl temp1_temp rfl hf h fun t hstay hrep hsame hval hicc => ?_
  have htest : (cmoveArray k).test (t.state.iccrf LREG_TMP1) = holds a k := by
    rw [hicc, h.icc, cmoveArray_test]
  have hstay' (x : BitVec 64) (y : CCType) :
      Stays c (t.setDst (setup (cmov k) LREG_TMP1 (lreg i) 0 (lreg i) false).inst x y) :=
    hstay.trans ⟨Scstate.flush_setDst.trans hstay.1, Scstate.pc_setDst⟩
  have hwrite (x : BitVec 64) (y : CCType) : Shows (a.put i (x.setWidth 32))
      (t.setDst (setup (cmov k) LREG_TMP1 (lreg i) 0 (lreg i) false).inst x y) := hrep.write rfl rfl
  refine wp_cmov hstay.1 (fun hh => Microcode.WP.nil ⟨hstay' _ _, ?_⟩) fun hh => Microcode.WP.nil ⟨hstay' _ _, ?_⟩
  · rw [if_pos (htest ▸ hh), ← hval]
    exact hwrite _ _
  · -- the register is written with its own value
    rw [if_neg (by rw [← htest, hh]; exact Bool.false_ne_true)]
    have hown := (hwrite (t.state.rf (lreg i)) (t.state.iccrf (lreg i))).noted
    rw [hrep.low i, put_self] at hown
    exact hown

/-- A micro-op that writes the register of flags. -/
theorem Shows.toIcc {o : Scuop} {x : BitVec 64} {y : CCType} (h : Shows a c) (hd : o.dst = LREG_ICC) (hy : y.toNat < 16) :
    Shows (a.withIcc y) (c.setDst o x y) where
  reg i := by
    show (c.state.setDst o x y).rf (lreg i) = _
    rw [Scstate.rf_setDst_of_ne (hd ▸ (lreg_ne (.inr (by decide))).symm)]
    exact h.reg i
  zero := by
    show (c.state.setDst o x y).rf 0 = 0
    rw [Scstate.rf_setDst_of_ne (hd ▸ by decide)]
    exact h.zero
  icc := by
    show (c.state.setDst o x y).iccrf LREG_ICC = _
    rw [Scstate.iccrf_setDst, if_pos (.inl ⟨hd.symm, hd ▸ by decide⟩), icc_withIcc hy]
  ttype := by
    show (c.state.setDst o x y).rf LREG_TTYPE ≠ 0 ↔ _
    rw [Scstate.rf_setDst_of_ne (hd ▸ by decide)]
    exact h.ttype
  mem := h.mem

theorem icc_lt (a : State M) : a.icc.toNat < 16 := by
  have hall : ∀ n z c v : Bool, (flags n z c v).toNat < 16 := by decide
  exact hall a.n a.z a.c a.v

/-- **Flags under a condition.** -/
theorem wp_condFlags (h : Shows a c) (hf : c.state.flush = false) (k : CondCode)
    (hy : (c.state.iccrf LREG_TMP1).toNat < 16) :
    (uops prog).WP [condFlags k] c fun t => Stays c t ∧
      Shows (if holds a k = true then a.withIcc (c.state.iccrf LREG_TMP1) else a) t := by
  have htest : (negCmoveArray k).test (c.state.iccrf LREG_ICC) = !holds a k := by
    rw [h.icc, negCmoveArray_test]
  have hstay (x : BitVec 64) (y : CCType) :
      Stays c (c.setDst (setup (negCmov k) LREG_ICC LREG_TMP1 0 LREG_ICC true).inst x y) :=
    ⟨Scstate.flush_setDst.trans hf, Scstate.pc_setDst⟩
  refine wp_cmov hf (fun hh => Microcode.WP.nil ⟨hstay _ _, ?_⟩) fun hh =>
    Microcode.WP.nil ⟨hstay (c.state.rf LREG_TMP1) (c.state.iccrf LREG_TMP1), ?_⟩
  · rw [htest, Bool.not_eq_true'] at hh
    rw [if_neg (by rw [hh]; exact Bool.false_ne_true)]
    have hown := h.toIcc (o := (setup (negCmov k) LREG_ICC LREG_TMP1 0 LREG_ICC true).inst)
      (x := c.state.rf LREG_ICC) (y := c.state.iccrf LREG_ICC) rfl (h.icc ▸ icc_lt a)
    rw [h.icc, withIcc_self, ← h.icc] at hown
    exact hown
  · rw [htest, Bool.not_eq_false'] at hh
    rw [if_pos hh]
    exact (h.toIcc rfl hy).noted

/-! ## Branches -/

/-- The PC that is fetched from: 32 bits, of which the last does not count. -/
def evenPC (x : BitVec 64) : BitVec 32 := x.setWidth 32 &&& 0xFFFFFFFE

/-- `rinst->getPC()`, of which bit 0 may be set. -/
def Sccore.PC (c : Sccore M) : BitVec 32 := c.state.pc.setWidth 32

/-- A branch was taken to `target`. -/
def Jumps (target : BitVec 32) (t : Sccore M) : Prop := t.state.flush = true ∧ evenPC t.state.pc = target &&& 0xFFFFFFFE

/-- A conditional branch to a register that also has the flags. -/
theorem wp_rb (cond : Cond) {r : RegType} (hf : c.state.flush = false) (h : Shows a c) :
    (uops prog).WP [setup (.U64 (.RB cond)) r r 0 0 false] c fun t => Shows a t ∧
      if cond.test (c.state.iccrf r) = true then Jumps ((c.state.rf r).setWidth 32) t else Stays c t := by
  have hexec : (uops prog).exec (setup (.U64 (.RB cond)) r r 0 0 false) c = some { c with
      state := if cond.test (c.state.iccrf r) = true then { c.state with pc := c.state.rf r, flush := true }
        else c.state } := rfl
  by_cases htest : cond.test (c.state.iccrf r) = true
  · rw [if_pos htest] at hexec
    refine Microcode.WP.leave hexec rfl ⟨⟨h.reg, h.zero, h.icc, h.ttype, h.mem⟩, ?_⟩
    rw [if_pos htest]
    exact ⟨rfl, rfl⟩
  · rw [if_neg htest] at hexec
    refine Microcode.WP.cons hexec hf (Microcode.WP.nil ⟨h, ?_⟩)
    rw [if_neg htest]
    exact ⟨hf, rfl⟩

theorem wp_jumpReg {r : RegType} (h : Shows a c) :
    (uops prog).WP [jumpReg r] c fun t => Shows a t ∧ Jumps ((c.state.rf r).setWidth 32) t :=
  Microcode.WP.leave rfl rfl ⟨⟨h.reg, h.zero, h.icc, h.ttype, h.mem⟩, rfl, rfl⟩

theorem setWidth_signExtend (v : BitVec 32) : (v.signExtend 64).setWidth 32 = v := by
  refine BitVec.eq_of_getLsbD_eq fun i hi => ?_
  rw [BitVec.getLsbD_setWidth, BitVec.getLsbD_signExtend, if_pos hi]
  simp [hi, Nat.lt_of_lt_of_le hi (by decide : 32 ≤ 64)]

theorem copyPCL_low (v : BitVec 32) : (v.signExtend 64 &&& 0xFFFFFFFF).setWidth 32 = v := by
  rw [low_mask, BitVec.setWidth_setWidth_of_le _ (by decide), BitVec.setWidth_eq, setWidth_signExtend]

/-- `COPYPCL` into a temporary register. -/
theorem wp_copyPCL {r : RegType} {v : BitVec 32} (hd : Temp r) (hf : c.state.flush = false) (h : Shows a c)
    (hnext : ∀ t, Stays c t → Shows a t → SameBut r c t → (t.state.rf r).setWidth 32 = v → (uops prog).WP us t Q) :
    (uops prog).WP (copyPCL v r :: us) c Q :=
  wp_temp (u := copyPCL v r) (x := v.signExtend 64 &&& 0xFFFFFFFF) (y := 0) (r := r) rfl rfl hd rfl hf h
    fun t hs hr hsame hx _ => hnext t hs hr hsame (by rw [hx, copyPCL_low])

/-- `COPYICC` of the flags, from any register into a temporary one. -/
theorem wp_copyICC {src r : RegType} (hd : Temp r) (hf : c.state.flush = false) (h : Shows a c)
    (hnext : ∀ t, Stays c t → Shows a t → SameBut r c t → t.state.rf r = c.state.rf src → t.state.iccrf r = a.icc →
      (uops prog).WP us t Q) : (uops prog).WP (copyICC src r :: us) c Q :=
  wp_temp (u := copyICC src r) (x := c.state.rf src) (y := c.state.iccrf LREG_ICC) (r := r) rfl rfl hd rfl hf h
    fun t hs hr hsame hx hy => hnext t hs hr hsame hx (hy.trans h.icc)

/-- The instruction after the branch is the next one. -/
def skips (a : State M) : Option CondCode → Bool
  | some k => if k = 9 then holds a k else !holds a k
  | none => false

/-- **The branch over the rest.** -/
theorem wp_skipUnless (h : Shows a c) (hf : c.state.flush = false) (cond : Option CondCode) (PC : BitVec 32) :
    (uops prog).WP (skipUnless cond PC) c fun t => Shows a t ∧
      if skips a cond = true then Jumps (PC + 2) t else Stays c t := by
  cases cond with
  | none => exact Microcode.WP.nil ⟨h, hf, rfl⟩
  | some k =>
    refine wp_copyPCL temp3_temp hf h fun t hs hr _ hv => ?_
    refine wp_copyICC temp3_temp hs.1 hr fun u hs' hr' _ hv' hy => ?_
    refine (wp_rb (negrbranchArray k) hs'.1 hr').mono ?_
    rintro w ⟨hrep, hw⟩
    refine ⟨hrep, ?_⟩
    have htest : (negrbranchArray k).test (u.state.iccrf LREG_TMP3) = skips a (some k) := by
      rw [hy, negrbranchArray_test]
      rfl
    rw [htest, hv', hv] at hw
    split at hw
    · rename_i hskip
      rw [if_pos hskip]
      exact hw
    · rename_i hskip
      rw [if_neg hskip]
      exact hs.trans (hs'.trans hw)

/-! ## An instruction and its sequence -/

/-- What a conditional instruction does to the state. -/
def under (a : State M) (cond : Option CondCode) (b : State M) : State M :=
  match cond with
  | some k => if holds a k = true then b else a
  | none => b

/-- The state after the sequence of an instruction. Without a branch the PC moves on later. -/
structure After (b : State M) (c t : Sccore M) : Prop where
  rep : Shows b t
  pc : if t.state.flush = true then evenPC t.state.pc = b.pc
    else t.state.pc = c.state.pc ∧ b.pc = evenPC c.state.pc + 2

/-- The flags that are meant to be exact. -/
structure Sure where
  n : Bool
  z : Bool
  c : Bool
  v : Bool

namespace Sure

/-- In an IT block an instruction leaves the flags alone. -/
def outside (cond : Option CondCode) (s : Sure) : Sure := if cond.isSome then ⟨true, true, true, true⟩ else s

def exact : Sure := ⟨true, true, true, true⟩

def nz : Sure := ⟨true, true, false, false⟩

def zcv : Sure := ⟨false, true, true, true⟩

def no : Sure := ⟨false, false, false, false⟩

end Sure

/-- **Agreement** of two states, in all but the flags that are not sure. -/
structure Agree (s : Sure) (b e : State M) : Prop where
  r : b.r = e.r
  pc : b.pc = e.pc
  thumb : b.thumb = e.thumb
  itstate : b.itstate = e.itstate
  mem : b.mem = e.mem
  n : s.n = true → b.n = e.n
  z : s.z = true → b.z = e.z
  c : s.c = true → b.c = e.c
  v : s.v = true → b.v = e.v

theorem Agree.refl (s : Sure) (b : State M) : Agree s b b :=
  ⟨rfl, rfl, rfl, rfl, rfl, fun _ => rfl, fun _ => rfl, fun _ => rfl, fun _ => rfl⟩

theorem Agree.of_eq {s : Sure} {b e : State M} (h : b = e) : Agree s b e := h ▸ Agree.refl s b

/-- Before the sequence of an instruction. -/
structure Starts (a : State M) (c : Sccore M) : Prop where
  rep : Shows a c
  flush : c.state.flush = false
  pc : a.pc = evenPC c.state.pc

/-- **The sequence does what the instruction is for.** -/
def Emulates (prog : Prog M) (us : List Uop) (s : Sure) (c : Sccore M) (e : State M) : Prop :=
  (uops prog).WP us c fun t => ∃ b, After b c t ∧ Agree s b e

/-- What the instruction is for, under its condition. -/
def expected (prog : Prog M) (a : State M) (cond : Option CondCode) (i : Instr) : State M :=
  under a.next cond (exec prog a i)

theorem Starts.stay {t : Sccore M} (h : Starts a c) (hs : Stays c t) (hr : Shows a t) : Starts a t :=
  ⟨hr, hs.1, by rw [hs.2]; exact h.pc⟩

/-- The rest of a sequence, after micro-ops that stay. -/
theorem Emulates.stay {s : Sure} {t : Sccore M} {e : State M} (hs : Stays c t) (h : Emulates prog us s t e) :
    (uops prog).WP us t fun u => ∃ b, After b c u ∧ Agree s b e := by
  refine h.mono ?_
  rintro u ⟨b, ⟨hrep, hpc⟩, hagree⟩
  rw [hs.2] at hpc
  exact ⟨b, ⟨hrep, hpc⟩, hagree⟩

theorem under_next (a : State M) (cond : Option CondCode) (b : State M) :
    (under a cond b).next = under a.next cond b.next := by
  unfold under
  cases cond with
  | none => rfl
  | some k =>
    show (if holds a k = true then b else a).next = if holds a k = true then b.next else a.next
    split <;> rfl

theorem Shows.next {b : State M} (h : Shows b c) : Shows b.next c := ⟨h.reg, h.zero, h.icc, h.ttype, h.mem⟩

/-- A sequence without a branch. -/
theorem Emulates.of_stays {s : Sure} {cond : Option CondCode} {b : State M} {i : Instr} (h : Starts a c)
    (hwp : (uops prog).WP us c fun t => Stays c t ∧ Shows (under a cond b) t) (hpc : b.pc = a.pc)
    (hb : (∀ k, cond = some k → holds a k = true) → Agree s b.next (exec prog a i)) :
    Emulates prog us s c (expected prog a cond i) := by
  refine hwp.mono ?_
  rintro t ⟨hs, hr⟩
  refine ⟨(under a cond b).next, ⟨hr.next, ?_⟩, ?_⟩
  · have hunder : (under a cond b).pc = a.pc := by
      unfold under
      split
      · split
        · exact hpc
        · rfl
      · exact hpc
    rw [hs.1, if_neg Bool.false_ne_true]
    refine ⟨hs.2, ?_⟩
    show (under a cond b).pc + 2 = _
    rw [hunder, h.pc]
  · rw [under_next]
    unfold expected under
    cases cond with
    | none => exact hb (by simp)
    | some k =>
      show Agree s (if holds a.next k = true then b.next else a.next) (if holds a.next k = true then exec prog a i else a.next)
      split
      · rename_i hk
        exact hb fun k' hk' => by rw [← Option.some.inj hk']; exact hk
      · exact Agree.refl s _

end

end Esesc.Emul
