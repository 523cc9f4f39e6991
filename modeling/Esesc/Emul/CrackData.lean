import Esesc.Emul.CrackAlu

/-!
# Cracked data processing

The sequences that leave the memory alone and do not branch, against the instruction set.

* `simulates_writeReg`, `simulates_plain`: instructions that write a register, with the flags and without.
* `simulates_LSL`, ..., `simulates_SBC`: the instructions.
-/

namespace Esesc.Emul

open Esesc.Lib Isa

variable {M : Type*} {prog : Prog M} {a : State M} {c : Sccore M} {sop : Scopcode}
  {val : BitVec 32 → BitVec 32 → BitVec 32} {icc : Scuop → Scstate → CCType} {A B : RegType} {imm : BitVec 32}

/-- The number of a register in the core, the PC among them. -/
def vis (i : Reg) : RegType := BitVec.ofNat 8 (i.val + 1)

variable {d m n : Reg} {cond : Option CondCode}

theorem vis_lreg (hd : d.val < 15) : vis d = lreg ⟨d.val, hd⟩ := rfl

theorem Shows.get (h : Shows a c) (hm : m.val < 15) : (c.state.rf (vis m)).setWidth 32 = a.get m := by
  unfold State.get
  rw [vis_lreg hm, h.low, dif_pos hm]

theorem Shows.wide (h : Shows a c) (hm : m.val < 15) : c.state.rf (vis m) = (a.get m).setWidth 64 := by
  unfold State.get
  rw [vis_lreg hm, h.reg, dif_pos hm]

theorem set_put (hd : d.val < 15) (x : BitVec 32) : a.set d x = a.put ⟨d.val, hd⟩ x := dif_pos hd

theorem next_set (hd : d.val < 15) (x : BitVec 32) : a.next.set d x = (a.put ⟨d.val, hd⟩ x).next := dif_pos hd

/-- The flags that a `writeReg` outside of an IT block leaves, against those of the instruction. -/
theorem simulates_writeReg {i : Instr} {s : Sure} {set : Bool} {f : State M → State M} {res : BitVec 32}
    (hop : Computes prog sop val icc) (h : Starts a c) (hIT : a.inIT = cond.isSome) (hd : d.val < 15)
    (hval : val ((c.state.rf A).setWidth 32) (opnd c.state B imm) = res)
    (hexec : exec prog a i = a.ifFlags f (a.next.set d res))
    (hlt : set = true → (icc (setup sop A B imm (vis d) true).inst c.state).toNat < 16)
    (hs : cond = none → Agree s (if set = true then
        (a.put ⟨d.val, hd⟩ res).next.withIcc (icc (setup sop A B imm (vis d) true).inst c.state)
      else (a.put ⟨d.val, hd⟩ res).next) (f (a.next.set d res))) :
    Emulates prog (writeReg cond set sop A B imm (vis d)) s c (expected prog a cond i) := by
  refine Emulates.of_stays h (wp_writeReg hop h.rep h.flush cond set ⟨d.val, hd⟩ hlt) ?_ fun hk => ?_
  · split <;> rfl
  · rw [hexec, hval]
    unfold State.ifFlags
    rw [hIT]
    cases cond with
    | some k =>
      simp only [Option.isNone_some, Bool.and_false, Bool.false_eq_true, if_false, Option.isSome_some, if_true]
      rw [next_set hd]
      exact Agree.refl _ _
    | none =>
      simp only [Option.isNone_none, Bool.and_true, Option.isSome_none, Bool.false_eq_true, if_false]
      have := hs rfl
      cases set <;> exact this

/-- The operands of a sequence with registers and immediates of the instruction. -/
theorem opnd_imm (h : Starts a c) (x : BitVec 32) : opnd c.state 0 x = x := opnd_zero h.rep

theorem opnd_vis (h : Starts a c) (hm : m.val < 15) : opnd c.state (vis m) 0 = a.get m := by
  rw [opnd_reg, h.rep.get hm]

/-- Flags written as a number, against flags that are set one by one. -/
theorem Agree.setNZC {s : Sure} {b : State M} {x : BitVec 32} {cb cb' v : Bool} (hc : s.c = true → cb = cb')
    (hv : s.v = true → v = b.v) : Agree s (b.withIcc (flags x.msb (decide (x = 0)) cb v)) (b.setNZC x cb') := by
  rw [withIcc_flags]
  exact ⟨rfl, rfl, rfl, rfl, rfl, fun _ => rfl, fun _ => rfl, hc, hv⟩

theorem Agree.setNZ {b : State M} {x : BitVec 32} {cb v : Bool} :
    Agree .nz (b.withIcc (flags x.msb (decide (x = 0)) cb v)) (b.setNZ x) := by
  rw [withIcc_flags]
  exact ⟨rfl, rfl, rfl, rfl, rfl, fun _ => rfl, fun _ => rfl, fun h => absurd h Bool.false_ne_true,
    fun h => absurd h Bool.false_ne_true⟩

theorem Agree.addFlags {b : State M} {x y : BitVec 32} {cb v : Bool} :
    Agree .nz (b.withIcc (flags (x + y).msb (decide (x + y = 0)) cb v)) (b.addFlags x y) := by
  rw [withIcc_flags]
  exact ⟨rfl, rfl, rfl, rfl, rfl, fun _ => rfl, fun _ => rfl, fun h => absurd h Bool.false_ne_true,
    fun h => absurd h Bool.false_ne_true⟩

/-- The flags of a cracked addition. -/
theorem iccAdd_eq {x y : BitVec 32} (sop : Scopcode) (D : RegType) (set : Bool) (hx : (c.state.rf A).setWidth 32 = x)
    (hy : opnd c.state B imm = y) : iccAdd (setup sop A B imm D set).inst c.state = iccSignedAdd x y (x + y) := by
  have harg1 : arg1 (setup sop A B imm D set).inst c.state = x := hx
  have harg2 : arg2 (setup sop A B imm D set).inst c.state = y := arg2_setup.trans hy
  unfold iccAdd
  rw [harg1, harg2]

theorem iccAdd_setup {x y : BitVec 32} (sop : Scopcode) (D : RegType) (set : Bool) (hx : (c.state.rf A).setWidth 32 = x)
    (hy : opnd c.state B imm = y) : ∃ cb v,
    iccAdd (setup sop A B imm D set).inst c.state = flags (x + y).msb (decide (x + y = 0)) cb v := by
  rw [iccAdd_eq sop D set hx hy]
  exact iccSignedAdd_flags x y

/-- The flags of a cracked shift, but for `OP_S32_SRL`. -/
theorem shiftICC_setup {sh : Shift} {x y r : BitVec 32} (sop : Scopcode) (D : RegType) (set : Bool) (h : Starts a c) (hsh : sh ≠ .SRL)
    (hx : (c.state.rf A).setWidth 32 = x) (hy : opnd c.state B imm = y) (hr : sh.assigned .S32 x y = r) :
    shiftICC sh .S32 (setup sop A B imm D set).inst c.state = flags r.msb (decide (r = 0)) (carryOf sh x y) a.v := by
  have harg1 : arg1 (setup sop A B imm D set).inst c.state = x := hx
  have harg2 : arg2 (setup sop A B imm D set).inst c.state = y := arg2_setup.trans hy
  rw [shiftICC_low (r := r) hsh h.rep.icc (by rw [harg1, harg2, hr]), harg1, harg2]

section

variable {x : BitVec 32}

theorem toNat_ne_zero (h0 : x ≠ 0) : x.toNat ≠ 0 := fun hn => h0 (BitVec.eq_of_toNat_eq hn)

/-- **Shift left by an immediate.** -/
theorem simulates_LSL (h : Starts a c) (hIT : a.inIT = cond.isSome) (hd : d.val < 15) (hm : m.val < 15)
    (hx : x.toNat < 32) (h0 : x ≠ 0) : Emulates prog (writeReg cond true .S32_SLL (vis m) 0 x (vis d)) .exact c
      (expected prog a cond (.shiftImm .LSL d m x.toNat)) := by
  have hval : Shift.SLL.assigned .S32 (a.get m) x = a.get m <<< x.toNat := if_neg h0
  have hexec : exec prog a (.shiftImm .LSL d m x.toNat) = a.ifFlags
      (fun s => s.setNZC (a.get m <<< x.toNat) ((a.get m).getLsbD (32 - x.toNat))) (a.next.set d (a.get m <<< x.toNat)) := by
    simp only [exec, shiftC, toNat_ne_zero h0, if_false, ne_eq, not_true, false_and, hx.le, decide_true, Bool.true_and]
  have hflags := shiftICC_setup .S32_SLL (vis d) true h Shift.noConfusion (h.rep.get hm) (opnd_imm h x) hval
  refine simulates_writeReg computes_S32_SLL h hIT hd (by rw [h.rep.get hm, opnd_imm h, hval]) hexec
    (fun _ => hflags ▸ flags_lt _ _ _ _) fun _ => ?_
  rw [if_pos rfl, hflags, next_set hd]
  exact Agree.setNZC (fun _ => if_neg h0) fun _ => rfl

/-- **Arithmetic shift right.** -/
theorem simulates_ASR (h : Starts a c) (hIT : a.inIT = cond.isSome) (hd : d.val < 15) (hm : m.val < 15)
    (hx : x.toNat < 32) (h0 : x ≠ 0) : Emulates prog (writeReg cond true .S32_SRA (vis m) 0 x (vis d)) .exact c
      (expected prog a cond (.shiftImm .ASR d m x.toNat)) := by
  have hval : Shift.SRA.assigned .S32 (a.get m) x = (a.get m).sshiftRight x.toNat := if_neg h0
  have hexec : exec prog a (.shiftImm .ASR d m x.toNat) = a.ifFlags
      (fun s => s.setNZC ((a.get m).sshiftRight x.toNat) ((a.get m).getLsbD (x.toNat - 1)))
      (a.next.set d ((a.get m).sshiftRight x.toNat)) := by
    simp only [exec, shiftC, toNat_ne_zero h0, if_false, and_false, Nat.min_eq_left hx.le]
  have hflags := shiftICC_setup .S32_SRA (vis d) true h Shift.noConfusion (h.rep.get hm) (opnd_imm h x) hval
  refine simulates_writeReg computes_S32_SRA h hIT hd (by rw [h.rep.get hm, opnd_imm h, hval]) hexec
    (fun _ => hflags ▸ flags_lt _ _ _ _) fun _ => ?_
  rw [if_pos rfl, hflags, next_set hd]
  exact Agree.setNZC (fun _ => if_neg h0) fun _ => rfl

/-- **Logical shift right.** The negative flag is never set, and there is nothing to set it. -/
theorem simulates_LSR (h : Starts a c) (hIT : a.inIT = cond.isSome) (hd : d.val < 15) (hm : m.val < 15)
    (h0 : x ≠ 0) : Emulates prog (writeReg cond true .S32_SRL (vis m) 0 x (vis d)) (.outside cond .nz) c
      (expected prog a cond (.shiftImm .LSR d m x.toNat)) := by
  have hval : Shift.SRL.assigned .S32 (a.get m) x = a.get m >>> x.toNat := if_neg h0
  have hexec : exec prog a (.shiftImm .LSR d m x.toNat) = a.ifFlags
      (fun s => s.setNZC (a.get m >>> x.toNat) ((a.get m).getLsbD (x.toNat - 1))) (a.next.set d (a.get m >>> x.toNat)) := by
    simp only [exec, shiftC, toNat_ne_zero h0, if_false, and_false]
  have hmsb : (a.get m >>> x.toNat).msb = false := by
    rw [BitVec.msb_ushiftRight, decide_eq_true (Nat.pos_of_ne_zero (toNat_ne_zero h0))]
    rfl
  have hflags : shiftICC .SRL .S32 (setup .S32_SRL (vis m) 0 x (vis d) true).inst c.state = flags
      (a.get m >>> x.toNat).msb (decide (a.get m >>> x.toNat = 0)) (carryOf .SRL (a.get m) x) false := by
    have harg1 : arg1 (setup .S32_SRL (vis m) 0 x (vis d) true).inst c.state = a.get m := h.rep.get hm
    have harg2 : arg2 (setup .S32_SRL (vis m) 0 x (vis d) true).inst c.state = x := arg2_setup.trans (opnd_imm h x)
    rw [shiftICC_SRL (by rw [harg1, harg2, hval]), harg1, harg2, hmsb]
  refine simulates_writeReg computes_S32_SRL h hIT hd (by rw [h.rep.get hm, opnd_imm h, hval]) hexec
    (fun _ => hflags ▸ flags_lt _ _ _ _) fun hcond => ?_
  subst hcond
  rw [if_pos rfl, hflags, next_set hd]
  exact Agree.setNZC (fun h => absurd h Bool.false_ne_true) fun h => absurd h Bool.false_ne_true

theorem exec_LSL_zero : exec prog a (.shiftImm .LSL d m 0) =
    a.ifFlags (fun s => s.setNZC (a.get m) a.c) (a.next.set d (a.get m)) := by
  simp only [exec, shiftC, ne_eq, not_true, false_and, if_false, if_true]

/-- **A move,** which is a shift by zero in an IT block, -/
theorem simulates_LSL_zero {k : CondCode} (h : Starts a c) (hIT : a.inIT = true) (hd : d.val < 15) (hm : m.val < 15) :
    Emulates prog (writeReg (some k) true .S32_SLL (vis m) 0 0 (vis d)) .exact c
      (expected prog a (some k) (.shiftImm .LSL d m 0)) := by
  have hval : Shift.SLL.assigned .S32 (a.get m) 0 = a.get m := assigned_eq .SLL .S32 _ _
  have hflags := shiftICC_setup .S32_SLL (vis d) true h Shift.noConfusion (h.rep.get hm) (opnd_imm h 0) hval
  exact simulates_writeReg computes_S32_SLL h hIT hd (by rw [h.rep.get hm, opnd_imm h, hval]) exec_LSL_zero
    (fun _ => hflags ▸ flags_lt _ _ _ _) fun hcond => nomatch hcond

/-- and an addition outside of one. -/
theorem simulates_MOVS (h : Starts a c) (hIT : a.inIT = false) (hd : d.val < 15) (hm : m.val < 15) :
    Emulates prog (writeReg none true .S32_ADD (vis m) 0 0 (vis d)) .nz c
      (expected prog a none (.shiftImm .LSL d m 0)) := by
  have hsum : a.get m + 0 = a.get m := BitVec.add_zero _
  obtain ⟨cb, v, hflags⟩ := iccAdd_setup .S32_ADD (vis d) true (h.rep.get hm) (opnd_imm h 0)
  rw [hsum] at hflags
  refine simulates_writeReg computes_S32_ADD h hIT hd (by rw [h.rep.get hm, opnd_imm h, hsum]) exec_LSL_zero
    (fun _ => hflags ▸ flags_lt _ _ _ _) fun _ => ?_
  rw [if_pos rfl, hflags, next_set hd]
  exact Agree.setNZC (fun h => absurd h Bool.false_ne_true) fun h => absurd h Bool.false_ne_true

end

/-! ## Addition and subtraction -/

section

variable {y : Operand}

/-- **Addition.** Neither the carry nor the overflow flag is right. -/
theorem simulates_ADD (h : Starts a c) (hIT : a.inIT = cond.isSome) (hd : d.val < 15)
    (hA : (c.state.rf A).setWidth 32 = a.get n) (hB : opnd c.state B imm = y.val a) :
    Emulates prog (writeReg cond true .S32_ADD A B imm (vis d)) (.outside cond .nz) c
      (expected prog a cond (.addSub false d n y)) := by
  obtain ⟨cb, v, hflags⟩ := iccAdd_setup .S32_ADD (vis d) true hA hB
  refine simulates_writeReg (f := fun s => s.addFlags (a.get n) (y.val a)) computes_S32_ADD h hIT hd (by rw [hA, hB]) rfl
    (fun _ => hflags ▸ flags_lt _ _ _ _) fun hcond => ?_
  subst hcond
  rw [if_pos rfl, hflags, next_set hd]
  exact Agree.addFlags

/-- **Move of an immediate.** -/
theorem simulates_MOV (h : Starts a c) (hIT : a.inIT = cond.isSome) (hd : d.val < 15) :
    Emulates prog (writeReg cond true .S32_ADD 0 0 imm (vis d)) (.outside cond .nz) c
      (expected prog a cond (.movImm d imm)) := by
  have hzero : (c.state.rf 0).setWidth 32 = (0 : BitVec 32) := by
    rw [h.rep.zero]
    rfl
  obtain ⟨cb, v, hflags⟩ := iccAdd_setup .S32_ADD (vis d) true hzero (opnd_imm h imm)
  have hsum : (0 : BitVec 32) + imm = imm := BitVec.zero_add imm
  rw [hsum] at hflags
  refine simulates_writeReg (f := fun s => s.setNZ imm) computes_S32_ADD h hIT hd (by rw [hzero, opnd_imm h, hsum]) rfl
    (fun _ => hflags ▸ flags_lt _ _ _ _) fun hcond => ?_
  subst hcond
  rw [if_pos rfl, hflags, next_set hd]
  exact Agree.setNZ

/-- **Subtraction.** -/
theorem simulates_SUB (h : Starts a c) (hIT : a.inIT = cond.isSome) (hd : d.val < 15)
    (hA : (c.state.rf A).setWidth 32 = a.get n) (hB : opnd c.state B imm = y.val a) :
    Emulates prog (writeSub cond A B imm (vis d)) .exact c (expected prog a cond (.addSub true d n y)) := by
  refine Emulates.of_stays h (wp_writeSub h.rep h.flush cond ⟨d.val, hd⟩) ?_ fun _ => ?_
  · split <;> rfl
  · rw [hA, hB]
    simp only [exec, State.ifFlags, hIT, next_set hd]
    cases cond with
    | some k => exact Agree.refl _ _
    | none => exact Agree.refl _ _

/-- **Comparison.** -/
theorem simulates_CMP (h : Starts a c) (hA : (c.state.rf A).setWidth 32 = a.get n)
    (hB : opnd c.state B imm = y.val a) :
    Emulates prog (compareSub cond A B imm) .exact c (expected prog a cond (.cmp n y)) := by
  refine Emulates.of_stays h (wp_compareSub h.rep h.flush cond) rfl fun _ => ?_
  rw [hA, hB]
  exact Agree.refl _ _

end

/-! ## Data processing -/

/-- Instructions that write a register and leave the flags alone. -/
theorem simulates_set {i : Instr} {res : BitVec 32} (hop : Computes prog sop val icc) (h : Starts a c) (hd : d.val < 15)
    (hval : val ((c.state.rf A).setWidth 32) (opnd c.state B imm) = res) (hexec : exec prog a i = a.next.set d res) :
    Emulates prog (writeReg cond false sop A B imm (vis d)) .exact c (expected prog a cond i) := by
  refine Emulates.of_stays h (wp_writeReg hop h.rep h.flush cond false ⟨d.val, hd⟩ ?_) ?_ fun _ => ?_
  · exact fun hset => absurd hset Bool.false_ne_true
  · rfl
  · rw [hexec, hval, next_set hd]
    exact Agree.refl _ _

/-- All but the flags. -/
theorem Agree.no {b e : State M} (h : { b with n := e.n, z := e.z, c := e.c, v := e.v } = e) : Agree .no b e := by
  rw [← h]
  exact ⟨rfl, rfl, rfl, rfl, rfl, nofun, nofun, nofun, nofun⟩

/-- Instructions that write a register, but outside of an IT block not the flags that they should. -/
theorem simulates_plain {i : Instr} {f : State M → State M} {res : BitVec 32} (hop : Computes prog sop val icc)
    (h : Starts a c) (hIT : a.inIT = cond.isSome) (hd : d.val < 15)
    (hval : val ((c.state.rf A).setWidth 32) (opnd c.state B imm) = res)
    (hexec : exec prog a i = a.ifFlags f (a.next.set d res)) (hf : ∀ s, Agree .no s (f s)) :
    Emulates prog (writeReg cond false sop A B imm (vis d)) (.outside cond .no) c (expected prog a cond i) := by
  refine simulates_writeReg hop h hIT hd hval hexec nofun fun hcond => ?_
  subst hcond
  rw [if_neg Bool.false_ne_true, next_set hd]
  exact hf _

section

variable (h : Starts a c) (hIT : a.inIT = cond.isSome) (hd : d.val < 15) (hm : m.val < 15)

include h hIT hd hm

theorem simulates_AND : Emulates prog (writeReg cond false .S64_AND (vis d) (vis m) 0 (vis d)) (.outside cond .no) c
    (expected prog a cond (.dp .AND d m)) :=
  simulates_plain (f := fun s => s.setNZ (a.get d &&& a.get m)) computes_S64_AND h hIT hd
    (by rw [h.rep.get hd, opnd_vis h hm]) rfl fun _ => .no rfl

theorem simulates_EOR : Emulates prog (writeReg cond false .S64_XOR (vis d) (vis m) 0 (vis d)) (.outside cond .no) c
    (expected prog a cond (.dp .EOR d m)) :=
  simulates_plain (f := fun s => s.setNZ (a.get d ^^^ a.get m)) computes_S64_XOR h hIT hd
    (by rw [h.rep.get hd, opnd_vis h hm]) rfl fun _ => .no rfl

theorem simulates_ORR : Emulates prog (writeReg cond false .S64_OR (vis d) (vis m) 0 (vis d)) (.outside cond .no) c
    (expected prog a cond (.dp .ORR d m)) :=
  simulates_plain (f := fun s => s.setNZ (a.get d ||| a.get m)) computes_S64_OR h hIT hd
    (by rw [h.rep.get hd, opnd_vis h hm]) rfl fun _ => .no rfl

theorem simulates_BIC : Emulates prog (writeReg cond false .S64_ANDN (vis d) (vis m) 0 (vis d)) (.outside cond .no) c
    (expected prog a cond (.dp .BIC d m)) :=
  simulates_plain (f := fun s => s.setNZ (a.get d &&& ~~~a.get m)) computes_S64_ANDN h hIT hd
    (by rw [h.rep.get hd, opnd_vis h hm]) rfl fun _ => .no rfl

theorem simulates_MUL : Emulates prog (writeReg cond false .C_SMUL (vis m) (vis d) 0 (vis d)) (.outside cond .no) c
    (expected prog a cond (.dp .MUL d m)) :=
  simulates_plain (f := fun s => s.setNZ (a.get d * a.get m)) computes_C_SMUL h hIT hd
    (by rw [h.rep.get hm, opnd_vis h hd, BitVec.mul_comm]) rfl fun _ => .no rfl

end

/-- A state of which only one register matters. -/
def Scstate.constant (v : BitVec 64) : Scstate where
  rf := fun _ => v
  iccrf := fun _ => 0
  pc := 0
  flush := false
  nop := false

/-- A shift by an immediate, of a value that is known. -/
theorem shiftRes_imm {sh : Shift} {f : ShiftFormat} {inst : Scuop} {s : Scstate} {v : BitVec 64}
    (hv : s.rf inst.src1 = v) (himm : inst.useImm = true) :
    shiftRes sh f inst s = shiftRes sh f inst (.constant v) := by
  have hlane : shiftLane sh f inst s = shiftLane sh f inst (.constant v) := by
    funext i
    unfold shiftLane Scuop.operand Scstate.getReg Scstate.constant
    rw [hv, if_pos himm, if_pos himm]
  unfold shiftRes
  rw [hlane]

section

variable {us : List Uop} {Q : Sccore M → Prop}

/-- The difference, and the carry as it is borrowed. -/
theorem wp_borrow (h : Shows a c) (hf : c.state.flush = false)
    (hnext : ∀ t, Stays c t → Shows a t →
      (t.state.rf LREG_TMP1).setWidth 32 = (c.state.rf A).setWidth 32 - opnd c.state B 0 →
      (t.state.rf LREG_TMP2).setWidth 32 = (if a.c then 0 else 1 : BitVec 32) → (uops prog).WP us t Q) :
    (uops prog).WP (borrow A B ++ us) c Q := by
  unfold borrow
  rw [List.append_assoc]
  refine wp_subtract h hf fun t x hs hr _ hx hexec => ?_
  refine wp_temp (r := LREG_TMP1) hexec rfl temp1_temp rfl hs.1 hr fun u hsu hru _ hu _ => ?_
  -- the flags as a number, of which bit 1 is inverted and moves to bit 0
  refine wp_temp (u := setup .S64_GETICC LREG_ICC 0 0 LREG_TMP2 false) (x := (u.state.iccrf LREG_ICC).setWidth 64)
    (y := 0) (r := LREG_TMP2) rfl rfl temp2_temp rfl hsu.1 hru fun v hsv hrv hsamev hv _ => ?_
  refine wp_temp (u := setup .S64_XOR LREG_TMP2 0 2 LREG_TMP2 false) (x := v.state.rf LREG_TMP2 ^^^ 2)
    (y := _) (r := LREG_TMP2) rfl rfl temp2_temp rfl hsv.1 hrv fun w hsw hrw hsamew hw _ => ?_
  refine wp_temp (u := setup .S64_AND LREG_TMP2 0 2 LREG_TMP2 false) (x := w.state.rf LREG_TMP2 &&& 2)
    (y := _) (r := LREG_TMP2) rfl rfl temp2_temp rfl hsw.1 hrw fun z hsz hrz hsamez hz _ => ?_
  have hbit : z.state.rf LREG_TMP2 = if a.c then 0 else 2 := by
    rw [hz, hw, hv, hru.icc]
    have hall : ∀ n z c v : Bool, ((flags n z c v).setWidth 64 ^^^ 2) &&& 2 = if c then 0 else (2 : BitVec 64) := by decide
    exact hall a.n a.z a.c a.v
  refine wp_temp (u := setup .S08_SRL LREG_TMP2 0 1 LREG_TMP2 false)
    (x := shiftRes .SRL .S08 (setup .S08_SRL LREG_TMP2 0 1 LREG_TMP2 false).inst z.state)
    (y := _) (r := LREG_TMP2) rfl rfl temp2_temp rfl hsz.1 hrz fun y hsy hry hsamey hy _ => ?_
  refine hnext y (hs.trans (hsu.trans (hsv.trans (hsw.trans (hsz.trans hsy))))) hry ?_ ?_
  · have hne : LREG_TMP1 ≠ LREG_TMP2 := by decide
    rw [(hsamey _ hne).1, (hsamez _ hne).1, (hsamew _ hne).1, (hsamev _ hne).1, hu, hx]
  · rw [hy, shiftRes_imm (v := if a.c then 0 else 2) hbit rfl]
    cases a.c <;> decide

/-- Thirty-two ones. -/
theorem wp_ones {tmp : RegType} (htmp : Temp tmp) (h : Shows a c) (hf : c.state.flush = false)
    (hnext : ∀ t, Stays c t → Shows a t → (t.state.rf tmp).setWidth 32 = BitVec.allOnes 32 → (uops prog).WP us t Q) :
    (uops prog).WP (ones tmp ++ us) c Q := by
  refine wp_temp (u := setup .U64_SUB 0 0 1 tmp false) (x := c.state.rf 0 - 1) (y := _) (r := tmp) rfl rfl htmp rfl hf h
    fun t hs hr _ hx _ => ?_
  refine wp_temp (u := setup .S64_SRL tmp 0 32 tmp false)
    (x := shiftRes .SRL .S64 (setup .S64_SRL tmp 0 32 tmp false).inst t.state)
    (y := _) (r := tmp) rfl rfl htmp rfl hs.1 hr fun u hsu hru _ hu _ => ?_
  refine hnext u (hs.trans hsu) hru ?_
  rw [hu, shiftRes_imm (v := BitVec.allOnes 64) ?_ rfl]
  · show (shiftRes .SRL .S64 (setup .S64_SRL 0 0 32 0 false).inst (.constant (BitVec.allOnes 64))).setWidth 32 = _
    decide
  · show t.state.rf tmp = _
    rw [hx, h.zero]
    rfl

end

/-- The shift that stands for one of the instruction set. -/
def Isa.ShiftOp.toShift : ShiftOp → Shift
  | .LSL => .SLL
  | .LSR => .SRL
  | .ASR => .SRA
  | .ROR => .ROTR

theorem shiftC_exact (op : ShiftOp) (x : BitVec 32) (n : ℕ) (carry : Bool) :
    (shiftC op x n carry).1 = op.toShift.exact x n := by
  unfold shiftC
  split
  · rename_i h0
    rw [h0, exact_zero]
  · cases op <;> rfl

section

variable (h : Starts a c) (hIT : a.inIT = cond.isSome) (hd : d.val < 15) (hm : m.val < 15)

include h hIT hd hm

/-- **Shifts by a register,** of less than the width; and no rotation of a negative value. -/
theorem simulates_shift {op : ShiftOp} (hop : Computes prog sop (op.toShift.assigned .S32) icc)
    (hy : (a.get m).toNat < 32) (hneg : op = .ROR → (a.get d).msb = false) :
    Emulates prog (writeReg cond false sop (vis d) (vis m) 0 (vis d)) (.outside cond .no) c
      (expected prog a cond (.dp (.shift op) d m)) := by
  have hlow : ((a.get m).setWidth 8).toNat = (a.get m).toNat := by
    rw [BitVec.toNat_setWidth]
    omega
  have hval : op.toShift.assigned .S32 (a.get d) (a.get m) = (shiftC op (a.get d) (a.get m).toNat a.c).1 := by
    rw [shiftC_exact]
    refine (assigned_eq_exact_iff op.toShift .S32 hy).2 fun hrot hmsb => ?_
    cases op with
    | ROR => exact absurd ((hneg rfl).symm.trans hmsb) Bool.false_ne_true
    | LSL | LSR | ASR => exact nomatch hrot
  refine simulates_plain (f := fun s => s.setNZC (shiftC op (a.get d) (a.get m).toNat a.c).1
    (shiftC op (a.get d) (a.get m).toNat a.c).2) hop h hIT hd (by rw [h.rep.get hd, opnd_vis h hm, hval]) ?_ fun _ => .no rfl
  rw [← hlow]
  rfl

/-- **Addition with carry,** which adds none. -/
theorem simulates_ADC (hcarry : a.c = false) :
    Emulates prog (copyICC (vis d) LREG_TMP1 :: writeReg cond false .S32_ADD LREG_TMP1 (vis m) 0 (vis d))
      (.outside cond .no) c (expected prog a cond (.dp .ADC d m)) := by
  refine wp_copyICC temp1_temp h.flush h.rep fun t hs hr hsame hx _ => Emulates.stay hs ?_
  have ht := h.stay hs hr
  have hval : (t.state.rf LREG_TMP1).setWidth 32 = a.get d := by rw [hx, h.rep.get hd]
  have hres : a.get d + a.get m = a.get d + a.get m + (BitVec.ofBool a.c).setWidth 32 := by
    rw [hcarry]
    exact (BitVec.add_zero _).symm
  exact simulates_plain (f := fun s =>
      { s.setNZC (a.get d + a.get m + (BitVec.ofBool a.c).setWidth 32)
          (2 ^ 32 ≤ (a.get d).toNat + (a.get m).toNat + a.c.toNat) with
        v := !decide ((a.get d + a.get m + (BitVec.ofBool a.c).setWidth 32).toInt =
          (a.get d).toInt + (a.get m).toInt + a.c.toNat) })
    computes_S32_ADD ht hIT hd (by rw [hval, opnd_vis ht hm]; exact hres) rfl fun _ => .no rfl

/-- **Negation.** -/
theorem simulates_RSB : Emulates prog (if cond.isSome then writeSub cond 0 (vis m) 0 (vis d) else
    writeReg cond false .S32_SUB 0 (vis m) 0 (vis d)) (.outside cond .no) c (expected prog a cond (.dp .RSB d m)) := by
  have hzero : (c.state.rf 0).setWidth 32 = (0 : BitVec 32) := by
    rw [h.rep.zero]
    rfl
  cases cond with
  | some k =>
    refine Emulates.of_stays h (wp_writeSub h.rep h.flush (some k) ⟨d.val, hd⟩) rfl fun _ => ?_
    rw [hzero, opnd_vis h hm]
    simp only [exec, execDp, State.ifFlags, hIT, Option.isSome_some, if_true, next_set hd]
    exact Agree.refl _ _
  | none =>
    exact simulates_plain (f := fun s => s.subFlags 0 (a.get m)) computes_S32_SUB h hIT hd
      (by rw [hzero, opnd_vis h hm]) rfl fun _ => .no rfl

/-- **Subtraction with carry.** -/
theorem simulates_SBC : Emulates prog (borrow (vis d) (vis m) ++ if cond.isSome then
      writeSub cond LREG_TMP1 LREG_TMP2 0 (vis d) else writeReg cond false .S32_SUB LREG_TMP1 LREG_TMP2 0 (vis d))
    (.outside cond .no) c (expected prog a cond (.dp .SBC d m)) := by
  refine wp_borrow h.rep h.flush fun t hs hr hx hb => Emulates.stay hs ?_
  have ht := h.stay hs hr
  rw [h.rep.get hd, opnd_vis h hm] at hx
  have hval : (t.state.rf LREG_TMP1).setWidth 32 - opnd t.state LREG_TMP2 0 =
      a.get d - a.get m - 1 + (BitVec.ofBool a.c).setWidth 32 := by
    rw [hx, opnd_reg, hb]
    cases a.c
    · exact (BitVec.add_zero _).symm
    · show a.get d - a.get m - 0 = a.get d - a.get m - 1 + 1
      rw [BitVec.sub_add_cancel]
      exact BitVec.sub_zero _
  cases cond with
  | some k =>
    refine Emulates.of_stays ht (wp_writeSub ht.rep ht.flush (some k) ⟨d.val, hd⟩) rfl fun _ => ?_
    rw [hval]
    simp only [exec, execDp, State.ifFlags, hIT, Option.isSome_some, if_true, next_set hd]
    exact Agree.refl _ _
  | none =>
    exact simulates_plain (f := fun s =>
        { s.setNZC (a.get d - a.get m - 1 + (BitVec.ofBool a.c).setWidth 32)
            ((a.get m).toNat + 1 ≤ (a.get d).toNat + a.c.toNat) with
          v := !decide ((a.get d - a.get m - 1 + (BitVec.ofBool a.c).setWidth 32).toInt =
            (a.get d).toInt - (a.get m).toInt - 1 + a.c.toNat) })
      computes_S32_SUB ht hIT hd hval rfl fun _ => .no rfl

/-- **Complement.** -/
theorem simulates_MVN {tmp : RegType} (htmp : Temp tmp) :
    Emulates prog (ones tmp ++ writeReg cond false .S64_XOR (vis m) tmp 0 (vis d))
      (.outside cond .no) c (expected prog a cond (.dp .MVN d m)) := by
  refine wp_ones htmp h.rep h.flush fun t hs hr hx => Emulates.stay hs ?_
  have ht := h.stay hs hr
  have hones : a.get m ^^^ BitVec.allOnes 32 = ~~~a.get m := BitVec.xor_allOnes
  exact simulates_plain (f := fun s => s.setNZ (~~~a.get m)) computes_S64_XOR ht hIT hd
    (by rw [ht.rep.get hm, opnd_reg, hx]; exact hones) rfl fun _ => .no rfl

omit hd hIT hm

end

/-! ## Tests -/

section

variable (h : Starts a c) (hd : d.val < 15) (hm : m.val < 15)

include h hd hm

/-- **Test.** The negative flag is that of 64 bits. -/
theorem simulates_TST : Emulates prog (testOp cond .S64_AND (vis d) (vis m)) .zcv c
    (expected prog a cond (.dp .TST d m)) := by
  -- visible registers have nothing in their upper half
  have hwide : c.state.rf (vis d) &&& c.state.rf (vis m) = (a.get d &&& a.get m).setWidth 64 := by
    rw [h.rep.wide hd, h.rep.wide hm, BitVec.setWidth_and]
  have hy : ∀ D set, iccLogical (fun x y => x &&& y) (setup .S64_AND (vis d) (vis m) 0 D set).inst c.state =
      flags (((a.get d &&& a.get m).setWidth 64).slt 0) (decide ((a.get d &&& a.get m).setWidth 64 = 0)) a.c a.v := by
    intro D set
    show calcNZ (c.state.rf (vis d) &&& c.state.rf (vis m)) ||| (c.state.iccrf LREG_ICC &&& 3) = _
    rw [hwide, h.rep.icc]
    exact calcNZ_keep _ _ _ _ _
  refine Emulates.of_stays h (wp_testOp computes_S64_AND h.rep h.flush cond hy (flags_lt _ _ _ _)) rfl fun _ => ?_
  rw [withIcc_flags]
  refine ⟨rfl, rfl, rfl, rfl, rfl, nofun, fun _ => ?_, fun _ => rfl, fun _ => rfl⟩
  exact decide_eq_decide.2 setWidth_eq_zero

/-- **Comparison with the negation.** -/
theorem simulates_CMN : Emulates prog (testOp cond .S32_ADD (vis d) (vis m)) .nz c
    (expected prog a cond (.dp .CMN d m)) := by
  have hy : ∀ D set, iccAdd (setup .S32_ADD (vis d) (vis m) 0 D set).inst c.state =
      iccSignedAdd (a.get d) (a.get m) (a.get d + a.get m) :=
    fun D set => iccAdd_eq .S32_ADD D set (h.rep.get hd) (opnd_vis h hm)
  obtain ⟨cb, v, hflags⟩ := iccSignedAdd_flags (a.get d) (a.get m)
  rw [hflags] at hy
  refine Emulates.of_stays h (wp_testOp computes_S32_ADD h.rep h.flush cond hy (flags_lt _ _ _ _)) rfl fun _ => ?_
  show Agree .nz (a.next.withIcc _) (a.next.addFlags (a.get d) (a.get m))
  exact Agree.addFlags

end

/-! ## High registers and the stack pointer -/

theorem vis_inj : vis m = vis n ↔ m = n := by
  have hall : ∀ m n : Reg, vis m = vis n ↔ m = n := by decide
  exact hall m n

theorem vis_PC : vis 15 = PC_REG := rfl

theorem vis_ne_PC (hm : m.val < 15) : vis m ≠ PC_REG := by
  show vis m ≠ vis 15
  rw [Ne, vis_inj]
  rintro rfl
  exact absurd hm (by decide)

theorem get_PC : a.get 15 = a.pc + 4 := dif_neg (by decide)

theorem Starts.even (h : Starts a c) : a.pc &&& 0xFFFFFFFE = a.pc := by
  rw [h.pc, evenPC, BitVec.and_assoc, BitVec.and_self]

theorem Starts.masked (h : Starts a c) : c.PC &&& 0xFFFFFFFE = a.pc := h.pc.symm

/-- **Addition of any two registers,** but into the PC. -/
theorem simulates_addHigh (h : Starts a c) (hd : d.val < 15) :
    Emulates prog (addHigh cond (vis d) (vis m) c.PC) .exact c (expected prog a cond (.addReg d m)) := by
  have hPC : vis d ≠ PC_REG := vis_ne_PC hd
  by_cases hm : m.val < 15
  · have hsum : a.get m + a.get d = a.get d + a.get m := BitVec.add_comm _ _
    unfold addHigh
    simp only [vis_ne_PC hm, hPC, if_false]
    cases cond with
    | some k => exact simulates_set computes_S32_ADD h hd (by rw [h.rep.get hm, opnd_vis h hd, hsum]) rfl
    | none => exact simulates_set computes_S32_ADD h hd (by rw [h.rep.get hd, opnd_vis h hm]) rfl
  · obtain rfl : m = 15 := Fin.ext (by have := m.isLt; omega)
    have hshape : addHigh cond (vis d) (vis 15) c.PC =
        copyPCL ((c.PC &&& 0xFFFFFFFE) + 4) LREG_TMP1 :: writeReg cond false .S32_ADD (vis d) LREG_TMP1 0 (vis d) := by
      unfold addHigh
      cases cond with
      | some k => exact (if_pos vis_PC).trans (if_pos hPC)
      | none => exact (if_pos vis_PC).trans (if_pos hPC)
    rw [hshape]
    refine wp_copyPCL temp1_temp h.flush h.rep fun t hs hr _ hv => Emulates.stay hs ?_
    refine simulates_set computes_S32_ADD (h.stay hs hr) hd ?_ rfl
    rw [hr.get hd, opnd_reg, hv, h.masked, get_PC]

/-- **A move between any two,** but into the PC. -/
theorem simulates_moveHigh (h : Starts a c) (hd : d.val < 15) :
    Emulates prog (moveHigh cond (vis d) (vis m) c.PC) .exact c (expected prog a cond (.movReg d m)) := by
  have hPC : vis d ≠ PC_REG := vis_ne_PC hd
  unfold moveHigh
  rw [if_neg hPC]
  by_cases hm : m.val < 15
  · rw [if_neg (vis_ne_PC hm)]
    exact simulates_set computes_S32_ADD h hd (by rw [h.rep.get hm, opnd_imm h]; exact BitVec.add_zero _) rfl
  · obtain rfl : m = 15 := Fin.ext (by have := m.isLt; omega)
    rw [if_pos vis_PC, h.masked]
    have hexec : (a.put ⟨d.val, hd⟩ (a.pc + 4)).next = exec prog a (.movReg d 15) := by
      rw [← next_set hd, ← get_PC]
      rfl
    cases cond with
    | some k =>
      refine wp_copyPCL temp1_temp h.flush h.rep fun t hs hr _ hv => Emulates.stay hs ?_
      have hwp : (uops prog).WP _ _ _ := wp_condWrite hr hs.1 k ⟨d.val, hd⟩
      rw [hv] at hwp
      have hstays : Emulates prog _ .exact t (expected prog a (some k) _) :=
        Emulates.of_stays (h.stay hs hr) hwp rfl fun _ => .of_eq hexec
      exact hstays
    | none =>
      have hwp : (uops prog).WP _ _ _ := wp_write (u := copyPCL (a.pc + 4) (vis d)) (i := ⟨d.val, hd⟩)
        (x := (a.pc + 4).signExtend 64 &&& 0xFFFFFFFF) (y := 0) rfl rfl rfl h.flush h.rep
      rw [copyPCL_low] at hwp
      have hstays : Emulates prog _ .exact c (expected prog a none _) :=
        Emulates.of_stays h hwp rfl fun _ => .of_eq hexec
      exact hstays

theorem and_FC (x : BitVec 32) : (x &&& 0xFFFFFFFC).toNat = x.toNat / 4 * 4 := by
  have hshift : x &&& (0xFFFFFFFC : BitVec 32) = x >>> 2 <<< 2 := by
    refine BitVec.eq_of_getLsbD_eq fun i hi => ?_
    have hmask : ∀ i < 32, (0xFFFFFFFC : BitVec 32).getLsbD i = decide (2 ≤ i) := by decide
    rw [BitVec.getLsbD_and, hmask i hi, BitVec.getLsbD_shiftLeft, BitVec.getLsbD_ushiftRight]
    by_cases h2 : 2 ≤ i
    · simp [hi, h2, Nat.not_lt.2 h2]
    · simp [h2, Nat.not_le.1 h2]
  rw [hshift, BitVec.toNat_shiftLeft, BitVec.toNat_ushiftRight, Nat.shiftRight_eq_div_pow, Nat.shiftLeft_eq]
  have := x.isLt
  omega

/-- The address of a literal does not depend on bit 0. -/
theorem Starts.aligned (h : Starts a c) : c.PC &&& 0xFFFFFFFC = a.pc &&& 0xFFFFFFFC := by
  rw [← h.masked, BitVec.and_assoc]
  rfl

/-- Four bytes on, before or after the address is aligned. -/
theorem aligned_add (x : BitVec 32) : (x &&& 0xFFFFFFFC) + 4 = (x + 4) &&& 0xFFFFFFFC := by
  refine BitVec.eq_of_toNat_eq ?_
  rw [BitVec.toNat_add, and_FC, and_FC, BitVec.toNat_add]
  have hx := x.isLt
  have hfour : (4 : BitVec 32).toNat = 4 := rfl
  rw [hfour]
  omega

/-- **Address of a literal.** -/
theorem simulates_ADR (h : Starts a c) (hd : d.val < 15) :
    Emulates prog (copyPCL ((c.PC &&& 0xFFFFFFFC) + 4) LREG_TMP1 :: writeReg cond false .S32_ADD LREG_TMP1 0 imm (vis d))
      .exact c (expected prog a cond (.adr d imm)) := by
  refine wp_copyPCL temp1_temp h.flush h.rep fun t hs hr _ hv => Emulates.stay hs ?_
  refine simulates_set computes_S32_ADD (h.stay hs hr) hd ?_ rfl
  rw [hv, opnd_imm (h.stay hs hr), h.aligned, aligned_add]

/-- **Addition to the stack pointer.** -/
theorem simulates_addSp (h : Starts a c) (hd : d.val < 15) :
    Emulates prog (writeReg cond false .S32_ADD STACKPTR 0 imm (vis d)) .exact c (expected prog a cond (.addSp d imm)) :=
  simulates_set computes_S32_ADD h hd (by rw [show STACKPTR = vis 13 from rfl, h.rep.get (by decide), opnd_imm h]) rfl

/-- **Stack pointer,** outside of an IT block. -/
theorem simulates_adjustSp {sub : Bool} {IMM7 : BitVec 32} (h : Starts a c) :
    Emulates prog (adjustStack none IMM7 sub) .exact c (expected prog a none (.adjustSp sub (IMM7 <<< 2))) := by
  have hsp : (c.state.rf (vis 13)).setWidth 32 = a.get 13 := h.rep.get (by decide)
  cases sub with
  | false =>
    have hset : Emulates prog (writeReg none false .S32_ADD (vis 13) 0 (IMM7 <<< 2) (vis 13)) .exact c
        (expected prog a none (.adjustSp false (IMM7 <<< 2))) :=
      simulates_set computes_S32_ADD h (by decide) (by rw [hsp, opnd_imm h]; rfl) rfl
    exact hset
  | true =>
    have hset : Emulates prog (writeReg none false .S32_SUB (vis 13) 0 (IMM7 <<< 2) (vis 13)) .exact c
        (expected prog a none (.adjustSp true (IMM7 <<< 2))) :=
      simulates_set computes_S32_SUB h (by decide) (by rw [hsp, opnd_imm h]; rfl) rfl
    exact hset

/-! ## Extension -/

/-- A shift to the left and back. -/
theorem signExtend_shifts (x : BitVec 32) {w k : ℕ} (hk : w + k = 32) (hw : 0 < w) :
    (x <<< k).sshiftRight k = (x.setWidth w).signExtend 32 := by
  refine BitVec.eq_of_getLsbD_eq fun i hi => ?_
  rw [BitVec.getLsbD_sshiftRight, BitVec.getLsbD_signExtend, BitVec.getLsbD_shiftLeft, BitVec.getLsbD_setWidth]
  have hmsb : (x <<< k).msb = (x.setWidth w).msb := by
    rw [BitVec.msb_eq_getLsbD_last, BitVec.msb_eq_getLsbD_last, BitVec.getLsbD_shiftLeft, BitVec.getLsbD_setWidth]
    rw [show 32 - 1 - k = w - 1 by omega]
    simp [show ¬31 < k by omega, hw]
  by_cases hiw : i < w
  · simp [hi, hiw, show k + i < 32 by omega, show ¬k + i < k by omega]
  · simp [hi, hiw, show ¬k + i < 32 by omega, hmsb]

theorem zeroExtend_mask (x : BitVec 32) {w : ℕ} : x &&& BitVec.ofNat 32 (2 ^ w - 1) = (x.setWidth w).setWidth 32 := by
  refine BitVec.eq_of_getLsbD_eq fun i hi => ?_
  rw [BitVec.getLsbD_and, BitVec.getLsbD_ofNat, Nat.testBit_two_pow_sub_one, BitVec.getLsbD_setWidth,
    BitVec.getLsbD_setWidth]
  simp [hi, Bool.and_comm]

section

variable (h : Starts a c) (hd : d.val < 15) (hm : m.val < 15)

include h hd hm

/-- **Sign extension,** outside of an IT block. -/
theorem simulates_signExtend {op : Extend} {w k : ℕ} (hk : w + k = 32) (hw : 0 < w) (hk0 : 0 < k)
    (hop : op.ap (a.get m) = ((a.get m).setWidth w).signExtend 32) :
    Emulates prog (signExtend none (BitVec.ofNat 32 k) (vis m) (vis d)) .exact c
      (expected prog a none (.extend op d m)) := by
  have hn : (BitVec.ofNat 32 k).toNat = k := by
    rw [BitVec.toNat_ofNat]
    omega
  have hne : BitVec.ofNat 32 k ≠ 0 := by
    intro h0
    rw [h0] at hn
    simp only [BitVec.ofNat_eq_ofNat, BitVec.toNat_ofNat, Nat.zero_mod] at hn
    omega
  obtain ⟨x, hx, hval⟩ := (computes_S32_SLL : Computes prog _ _ _).exec c (vis m) 0 (BitVec.ofNat 32 k) LREG_TMP1 false
  refine wp_temp (r := LREG_TMP1) hx rfl temp1_temp rfl h.flush h.rep fun t hs hr _ hv _ => Emulates.stay hs ?_
  have hset {res : BitVec 32} (hres : _ = res) (hexec : exec prog a (.extend op d m) = a.next.set d res) :
      Emulates prog (writeReg none false .S32_SRA LREG_TMP1 0 (BitVec.ofNat 32 k) (vis d)) .exact t
        (expected prog a none (.extend op d m)) := simulates_set computes_S32_SRA (h.stay hs hr) hd hres hexec
  refine hset ?_ rfl
  rw [hv, hval, h.rep.get hm, opnd_imm h, opnd_imm (h.stay hs hr), assigned_eq, assigned_eq, if_neg hne, if_neg hne, hn, hop,
    ← signExtend_shifts _ hk hw]
  rfl

/-- **Zero extension.** -/
theorem simulates_zeroExtend {op : Extend} {w : ℕ}
    (hop : op.ap (a.get m) = ((a.get m).setWidth w).setWidth 32) :
    Emulates prog (writeTwice none .S64_AND (vis m) (BitVec.ofNat 32 (2 ^ w - 1)) (vis d)) .exact c
      (expected prog a none (.extend op d m)) :=
  have hset : Emulates prog (writeReg none false .S64_AND (vis m) 0 (BitVec.ofNat 32 (2 ^ w - 1)) (vis d)) .exact c
      (expected prog a none (.extend op d m)) :=
    simulates_set computes_S64_AND h hd (by rw [h.rep.get hm, opnd_imm h, hop, zeroExtend_mask]) rfl
  hset

end

/-! ## Nothing -/

theorem simulates_nop (h : Starts a c) : Emulates prog [] .exact c (expected prog a cond .nop) :=
  Emulates.of_stays (b := a) h (Microcode.WP.nil ⟨⟨h.flush, rfl⟩, by
    cases cond with
    | none => exact h.rep
    | some k =>
      show Shows (if holds a k = true then a else a) c
      rw [ite_self]
      exact h.rep⟩) rfl fun _ => Agree.refl _ _

/-- `IT` itself has no micro-ops. -/
theorem simulates_it {itstate : BitVec 8} (h : Starts a c) :
    Emulates prog [] .exact c (expected prog a none (.it itstate)) :=
  Emulates.of_stays (b := { a with itstate := itstate }) h
    (Microcode.WP.nil ⟨⟨h.flush, rfl⟩, ⟨h.rep.reg, h.rep.zero, h.rep.icc, h.rep.ttype, h.rep.mem⟩⟩) rfl
    fun _ => Agree.refl _ _

end Esesc.Emul
