import Esesc.Emul.CrackRun

/-!
# Pushed and popped

Registers that are stored to words which follow one another come back from them. The memory is any one in which
words that do not overlap are apart.

* `loadRegs_storeRegs`: registers loaded from where they were stored.
* `exec_push_pop`: `PUSH` and then `POP`, of the same registers.
* `flat`: the memory of bytes that QEMU has for its guest.
-/

namespace Esesc.Emul

open Esesc.Lib Isa

variable {M : Type*} {prog : Prog M}

/-- A word reads as it was written, and writes of other words do not change it. -/
structure Prog.Words (prog : Prog M) : Prop where
  same : ∀ m x v, prog.ldu32 (prog.st32 m x v) x = v
  other : ∀ m x y v, 4 ≤ (y - x).toNat → 4 ≤ (x - y).toNat → prog.ldu32 (prog.st32 m x v) y = prog.ldu32 m y

/-! ## Lists of registers -/

section

variable (hw : prog.Words) {get : ℕ → BitVec 32} {m : M} {x addr : BitVec 32}

include hw

theorem wordAt_putWord {v : BitVec 32} : wordAt prog (putWord prog m x v) x = v := hw.same _ _ _

/-- A word further up. -/
theorem wordAt_putWord_of_far {v : BitVec 32} {k : ℕ} (hk : 0 < k) (hlt : k < 2 ^ 29) :
    wordAt prog (putWord prog m (x + BitVec.ofNat 32 (4 * k)) v) x = wordAt prog m x := by
  have hx := x.isLt
  have hmul : (BitVec.ofNat 32 (4 * k)).toNat = 4 * k := by
    rw [BitVec.toNat_ofNat]
    omega
  refine hw.other _ _ _ _ ?_ ?_
  · rw [BitVec.toNat_sub, and_FE, and_FE, BitVec.toNat_add, hmul]
    omega
  · rw [BitVec.toNat_sub, and_FE, and_FE, BitVec.toNat_add, hmul]
    omega

/-- Words that are stored further up. -/
theorem wordAt_storeRegs {is : List ℕ} {k : ℕ} (hk : 0 < k) (hlt : k + is.length ≤ 2 ^ 29) :
    wordAt prog (storeRegs prog get is (x + BitVec.ofNat 32 (4 * k)) m) x = wordAt prog m x := by
  induction is generalizing k m with
  | nil => rfl
  | cons i is ih =>
    have hnext : x + BitVec.ofNat 32 (4 * k) + 4 = x + BitVec.ofNat 32 (4 * (k + 1)) := by
      rw [BitVec.add_assoc, Nat.mul_succ, BitVec.ofNat_add]
      rfl
    rw [List.length_cons] at hlt
    rw [storeRegs, hnext, ih (Nat.succ_pos k) (by omega), wordAt_putWord_of_far hw hk (by omega)]

/-- **Registers come back.** -/
theorem loadRegs_storeRegs {is : List ℕ} {s : State M} (hs : s.mem = storeRegs prog get is addr m)
    (hlen : is.length < 2 ^ 29) (his : ∀ i ∈ is, i < 15) :
    loadRegs prog is addr s = { s with r := fun k => if k.val ∈ is then get k.val else s.r k } := by
  induction is generalizing s addr m with
  | nil => simp [loadRegs]
  | cons i is ih =>
    have hi : i < 15 := his i List.mem_cons_self
    rw [List.length_cons] at hlen
    have hword : wordAt prog s.mem addr = get i := by
      -- the words that were stored later lie further up
      rw [hs, storeRegs, show addr + 4 = addr + BitVec.ofNat 32 (4 * 1) from rfl,
        wordAt_storeRegs hw Nat.one_pos (by omega), wordAt_putWord hw]
    have hrest := ih (s := s.put ⟨i, hi⟩ (get i)) (m := putWord prog m addr (get i)) hs (by omega)
      fun j hj => his j (List.mem_cons_of_mem i hj)
    rw [loadRegs, hword, set_ofNat hi, hrest]
    congr 1
    funext k
    -- the register was loaded first, and later ones are others
    by_cases hk : k.val = i
    · obtain rfl : k = ⟨i, hi⟩ := Fin.ext hk
      simp [State.put]
    · have hne : k ≠ ⟨i, hi⟩ := fun h => hk (congrArg Fin.val h)
      simp [State.put, hk, hne]

end

/-! ## The memory of the guest -/

/-- A number that is stored byte by byte, the lowest first. -/
def put {w : ℕ} (m : BitVec 32 → BitVec 8) (n : ℕ) (x : BitVec 32) (v : BitVec w) : BitVec 32 → BitVec 8 :=
  fun y => if (y - x).toNat < n then v.extractLsb' (8 * (y - x).toNat) 8 else m y

def word (m : BitVec 32 → BitVec 8) (x : BitVec 32) : BitVec 32 := m (x + 3) ++ m (x + 2) ++ m (x + 1) ++ m x

def flatHalf (m : BitVec 32 → BitVec 8) (x : BitVec 32) : BitVec 16 := m (x + 1) ++ m x

/-- `ProgramQEMU`: the bytes of the guest. -/
def flat : Prog (BitVec 32 → BitVec 8) where
  get_code32 := word
  ldu32 := word
  ldu16 := flatHalf
  ldu08 m x := m x
  lds16 := flatHalf
  lds08 m x := m x
  st64 m x v := put m 8 x v
  st32 m x v := put m 4 x v
  st16 m x v := put m 2 x v
  st08 m x v := put m 1 x v

theorem put_byte {w n i : ℕ} {m : BitVec 32 → BitVec 8} {x : BitVec 32} {v : BitVec w} (hi : i < n) (hlt : i < 2 ^ 32) :
    put m n x v (x + BitVec.ofNat 32 i) = v.extractLsb' (8 * i) 8 := by
  have hsub : (x + BitVec.ofNat 32 i - x).toNat = i := by
    rw [BitVec.add_comm, BitVec.add_sub_cancel, BitVec.toNat_ofNat, Nat.mod_eq_of_lt hlt]
  unfold put
  rw [hsub, if_pos hi]

theorem bytes_append (v : BitVec 32) :
    v.extractLsb' (8 * 3) 8 ++ v.extractLsb' (8 * 2) 8 ++ v.extractLsb' (8 * 1) 8 ++ v.extractLsb' (8 * 0) 8 = v := by
  refine BitVec.eq_of_getLsbD_eq fun i hi => ?_
  simp only [BitVec.getLsbD_append, BitVec.getLsbD_extractLsb']
  interval_cases i <;> rfl

/-- Bytes that do not overlap. -/
theorem put_far {i : ℕ} {m : BitVec 32 → BitVec 8} {x y : BitVec 32} {v : BitVec 32} (hi : i < 4)
    (h : 4 ≤ (y - x).toNat) (h' : 4 ≤ (x - y).toNat) : put m 4 x v (y + BitVec.ofNat 32 i) = m (y + BitVec.ofNat 32 i) := by
  have hsub : 4 ≤ (y + BitVec.ofNat 32 i - x).toNat := by
    have hx := x.isLt
    have hy := y.isLt
    have hof : (BitVec.ofNat 32 i).toNat = i := by
      rw [BitVec.toNat_ofNat]
      omega
    rw [BitVec.toNat_sub] at h h' ⊢
    rw [BitVec.toNat_add, hof]
    omega
  unfold put
  rw [if_neg (by omega)]

/-- **Words of the guest are apart.** -/
theorem flat_words : flat.Words where
  same m x v := by
    have hbyte (i : ℕ) (hi : i < 4) : put m 4 x v (x + BitVec.ofNat 32 i) = v.extractLsb' (8 * i) 8 :=
      put_byte hi (by omega)
    have h0 := hbyte 0 (by decide)
    rw [BitVec.add_zero] at h0
    show put m 4 x v (x + 3) ++ put m 4 x v (x + 2) ++ put m 4 x v (x + 1) ++ put m 4 x v x = v
    rw [show put m 4 x v (x + 3) = _ from hbyte 3 (by decide), show put m 4 x v (x + 2) = _ from hbyte 2 (by decide),
      show put m 4 x v (x + 1) = _ from hbyte 1 (by decide), h0]
    exact bytes_append v
  other m x y v h h' := by
    have hbyte (i : ℕ) (hi : i < 4) : put m 4 x v (y + BitVec.ofNat 32 i) = m (y + BitVec.ofNat 32 i) := put_far hi h h'
    have h0 := hbyte 0 (by decide)
    rw [BitVec.add_zero] at h0
    show put m 4 x v (y + 3) ++ put m 4 x v (y + 2) ++ put m 4 x v (y + 1) ++ put m 4 x v y = word m y
    rw [show put m 4 x v (y + 3) = _ from hbyte 3 (by decide), show put m 4 x v (y + 2) = _ from hbyte 2 (by decide),
      show put m 4 x v (y + 1) = _ from hbyte 1 (by decide), h0]
    rfl

/-! ## The stack -/

/-- **`PUSH` and then `POP`.** Every register is as it was; the words stay in the memory. -/
theorem exec_push_pop (hw : prog.Words) (a : State M) {list : BitVec 16} (hlist : list.toNat < 2 ^ 15) :
    exec prog (exec prog a (.push list)) (.pop list) = { exec prog a (.push list) with r := a.r, pc := a.pc + 4 } := by
  have hpc : list.getLsbD 15 = false := by
    rw [← BitVec.testBit_toNat]
    exact Nat.testBit_lt_two_pow hlist
  have hlow : regsOf (list.setWidth 15) = regsOf list := by
    rw [regsOf_low, regsOf_eq list hlist]
  have hregs : ∀ i ∈ regsOf list, i < 15 := fun i hi => by
    rw [regsOf_eq list hlist] at hi
    have := mem_bitsFrom hi
    omega
  have hlen : (regsOf list).length ≤ 15 := length_bitIndices_le hlist
  set base := a.r 13 - listBytes list with hbase
  set b : State M := { (a.put 13 base).next with mem := storeRegs prog (getNat a) (regsOf list) base a.mem } with hb
  have hpush : exec prog a (.push list) = b := rfl
  have hsp : b.get 13 = base := by
    show Function.update a.r ⟨13, by decide⟩ base ⟨13, by decide⟩ = base
    exact Function.update_self _ _ _
  have hload : loadRegs prog (regsOf list) base b.next =
      { b.next with r := fun k => if k.val ∈ regsOf list then getNat a k.val else b.r k } :=
    loadRegs_storeRegs hw rfl (by omega) hregs
  show exec prog b (.pop list) = _
  show (if list.getLsbD 15 = true then _
    else (loadRegs prog (regsOf (list.setWidth 15)) (b.get 13) b.next).set 13 (b.get 13 + listBytes list)) = _
  rw [hpc, if_neg Bool.false_ne_true, hlow, hsp, hload, hbase, BitVec.sub_add_cancel, set_put (by decide)]
  have hr : Function.update (fun k : Fin 15 => if k.val ∈ regsOf list then getNat a k.val else b.r k) 13 (a.r 13) = a.r := by
    funext k
    by_cases hk : k = 13
    · rw [hk, Function.update_self]
    · rw [Function.update_of_ne hk, getNat_eq k.isLt]
      split
      · exact dif_pos k.isLt
      · exact Function.update_of_ne hk base a.r
  have hpc2 : b.next.pc = a.pc + 4 := BitVec.add_assoc a.pc 2 2
  exact congrArg₂ (fun r pc => { b with r := r, pc := pc }) hr hpc2

/-! ## In the emulator -/

theorem condCode_zero {a : State M} (h : a.itstate = 0) : a.condCode = some none := by
  unfold State.condCode
  rw [h]
  rfl

theorem step_outside {a : State M} {i : Instr} (h : a.itstate = 0) (hi : ∀ itstate, i ≠ .it itstate) :
    Isa.step prog a i = { exec prog a i with itstate := itAdvance a.itstate } := by
  have hexec : _ = expected prog a none i := expected_eq (condCode_zero h) i
  unfold Isa.step
  rw [hexec]
  cases i with
  | it itstate => exact absurd rfl (hi itstate)
  | _ => rfl

/-- One checked instruction outside of an IT block. -/
theorem Checked.step_outside {a : State M} {s : Sure} {i : Instr} (hthumb : a.thumb = true) (hit : a.itstate = 0)
    (hdec : decode (prog.get_code32 a.mem a.pc) = some i) (hcov : Covered a none i) (hneeds : (needs none i).Le s) :
    Checked.step prog ⟨a, s⟩ = some ⟨Isa.step prog a i, sureAfter s none i⟩ := by
  unfold Checked.step
  simp only [hthumb, hdec, condCode_zero hit, Option.bind_some, if_true]
  rw [if_pos ⟨hcov, hneeds⟩]

/-- **`PUSH` and then `POP`, in the emulator.** The two instructions follow one another, outside of an IT block. The
fifteen registers and the flags are as they were. -/
theorem emulator_push_pop (hw : prog.Words) {a : State M} {x : Scexec M} {list : BitVec 16} (h : Starts a x.core)
    (hthumb : a.thumb = true) (hit : a.itstate = 0) (hvector : x.itblockVector = []) (h0 : list ≠ 0)
    (hlist : list.toNat < 2 ^ 15) (hpush : decode (prog.get_code32 a.mem a.pc) = some (.push list))
    (hpop : decode (prog.get_code32 (exec prog a (.push list)).mem (a.pc + 2)) = some (.pop list)) :
    ∃ x', run (fun x (_ : Unit) => Scexec.step prog x) x [(), ()] = some x' ∧
      (∀ i, x'.core.state.rf (lreg i) = x.core.state.rf (lreg i)) ∧
      x'.core.state.iccrf LREG_ICC = x.core.state.iccrf LREG_ICC ∧
      evenPC x'.core.state.pc = evenPC x.core.state.pc + 4 ∧ x'.itblockVector = [] ∧
      x'.core.mem = (exec prog a (.push list)).mem := by
  have hround := exec_push_pop hw a hlist
  have hstep : Isa.step prog a (.push list) = { exec prog a (.push list) with itstate := itAdvance a.itstate } :=
    step_outside hit nofun
  have hpc : (exec prog a (.push list)).pc = a.pc + 2 := rfl
  have hflags : (exec prog a (.push list)).icc = a.icc := rfl
  have hsame : (exec prog a (.push list)).thumb = a.thumb ∧ (exec prog a (.push list)).itstate = a.itstate := ⟨rfl, rfl⟩
  generalize exec prog a (.push list) = b at *
  obtain ⟨hbthumb, hbit⟩ := hsame
  rw [hthumb] at hbthumb
  rw [hit] at hbit
  rw [← hpc] at hpop
  have hstep' : Isa.step prog b (.pop list) = { exec prog b (.pop list) with itstate := itAdvance b.itstate } :=
    step_outside hbit nofun
  have hadvance : itAdvance (0 : BitVec 8) = 0 := rfl
  rw [hit, hadvance, ← hbit] at hstep
  rw [hround, hbit, hadvance, ← hbit] at hstep'
  have hnone : (none : Option CondCode) ≠ some LS := (Option.some_ne_none LS).symm
  have hcov (c : State M) : Covered c none (.push list) := ⟨h0, hnone⟩
  have hcov' (c : State M) : Covered c none (.pop list) := ⟨h0, hnone⟩
  have hrun : run (fun s (_ : Unit) => Checked.step prog s) ⟨a, .exact⟩ [(), ()] =
      some ⟨{ b with r := a.r, pc := a.pc + 4 }, .exact⟩ := by
    refine run_cons.2 ⟨⟨b, .exact⟩, ?_, run_cons.2 ⟨⟨{ b with r := a.r, pc := a.pc + 4 }, .exact⟩, ?_, rfl⟩⟩
    · exact (Checked.step_outside hthumb hit hpush (hcov a) ⟨nofun, nofun, nofun, nofun⟩).trans
        (by rw [hstep]; rfl)
    · exact (Checked.step_outside hbthumb hbit hpop (hcov' b) ⟨nofun, nofun, nofun, nofun⟩).trans
        (by rw [hstep']; rfl)
  have hrelated : Related ⟨a, .exact⟩ x := ⟨⟨a, h, Agree.refl _ a⟩, by rw [hvector, hit]; rfl⟩
  obtain ⟨x', hx', ⟨b', hstarts, hagree⟩, hvector'⟩ := hrelated.run hrun
  refine ⟨x', hx', fun i => ?_, ?_, ?_, ?_, ?_⟩
  · rw [hstarts.rep.reg, h.rep.reg, hagree.r]
  · rw [hstarts.rep.icc, h.rep.icc, ← hflags]
    unfold State.icc
    rw [hagree.n rfl, hagree.z rfl, hagree.c rfl, hagree.v rfl]
  · rw [← hstarts.pc, hagree.pc, ← h.pc]
  · rw [hvector']
    exact congrArg pending hbit
  · rw [hstarts.rep.mem, hagree.mem]

section

/-- `PUSH {r0, r1}` and `POP {r0, r1}` at address 0. -/
def pushPopCode (x : BitVec 32) : BitVec 8 :=
  if x = 0 ∨ x = 2 then 0x03 else if x = 1 then 0xB4 else if x = 3 then 0xBC else 0

/-- The program before them, with a stack. -/
def pushPopState : State (BitVec 32 → BitVec 8) where
  r := fun i => if i = 13 then 0x100 else i.val
  pc := 0
  n := false
  z := true
  c := true
  v := false
  thumb := true
  itstate := 0
  mem := pushPopCode

/-- The core that holds it. -/
def pushPopCore : Sccore (BitVec 32 → BitVec 8) where
  state := {
    rf := fun r => if r = 14 then 0x100 else if r = 0 then 0 else if r < 32 then (r - 1).setWidth 64 else 1
    iccrf := fun _ => 6
    pc := 0
    flush := false
    nop := false }
  mem := pushPopCode

theorem pushPop_starts : Starts pushPopState pushPopCore :=
  ⟨⟨by decide, rfl, rfl, by decide, rfl⟩, rfl, rfl⟩

theorem emulator_push_pop_two :
    ∃ x', run (fun x (_ : Unit) => Scexec.step flat x) ⟨pushPopCore, []⟩ [(), ()] = some x' ∧
      (∀ i, x'.core.state.rf (lreg i) = pushPopCore.state.rf (lreg i)) := by
  have hpush : decode (flat.get_code32 pushPopState.mem pushPopState.pc) = some (.push 3) := rfl
  obtain ⟨x', hx', hr, -⟩ := emulator_push_pop flat_words (x := ⟨pushPopCore, []⟩) pushPop_starts rfl rfl rfl
    (by decide) (by decide) hpush rfl
  exact ⟨x', hx', hr⟩

end

end Esesc.Emul
