import Esesc.Emul.PushPop

/-!
# What the emulator runs

The emulator against the instruction set: whole runs, and what becomes of the instructions that are not
cracked right.

* `emulator_follows`: the emulator runs the program, as long as every instruction is covered.
* `accesses_under_LS`: loads and stores under the tenth condition are executed when it fails.
* `ldm_second_word`: `LDM` without register 0 starts one word too late.
* `cracked_in_block`: every instruction of a text is cracked under the condition of its IT block.
-/

namespace Esesc.Emul

open Esesc.Lib Isa

variable {M : Type*} {prog : Prog M}

/-! ## Whole runs -/

/-- **The emulator runs the program.** As long as every instruction is covered and reads flags that are right, the
core holds after any number of instructions the registers, the mode and the memory of the program, and the flags
that are right; its PC is that of the program. -/
theorem emulator_follows {s s' : Checked M} {x : Scexec M} {n : List Unit} (h : Related s x)
    (hrun : run (fun s (_ : Unit) => Checked.step prog s) s n = some s') :
    ∃ x', run (fun x (_ : Unit) => Scexec.step prog x) x n = some x' ∧
      (∀ i, x'.core.state.rf (lreg i) = (s'.state.r i).setWidth 64) ∧
      evenPC x'.core.state.pc = s'.state.pc ∧ x'.core.mem = s'.state.mem ∧
      (x'.core.state.rf LREG_TTYPE ≠ 0 ↔ s'.state.thumb = true) ∧
      (s'.sure.n = true → (x'.core.state.iccrf LREG_ICC).getLsbD 3 = s'.state.n) ∧
      (s'.sure.z = true → (x'.core.state.iccrf LREG_ICC).getLsbD 2 = s'.state.z) ∧
      (s'.sure.c = true → (x'.core.state.iccrf LREG_ICC).getLsbD 1 = s'.state.c) ∧
      (s'.sure.v = true → (x'.core.state.iccrf LREG_ICC).getLsbD 0 = s'.state.v) ∧
      x'.itblockVector = pending s'.state.itstate := by
  obtain ⟨x', hx', ⟨b, hstarts, hagree⟩, hvector⟩ := h.run hrun
  obtain ⟨hn, hz, hc, hv⟩ := flags_getLsbD b.n b.z b.c b.v
  have hicc : x'.core.state.iccrf LREG_ICC = flags b.n b.z b.c b.v := hstarts.rep.icc
  refine ⟨x', hx', fun i => ?_, ?_, ?_, ?_, fun h => ?_, fun h => ?_, fun h => ?_, fun h => ?_, hvector⟩
  · rw [hstarts.rep.reg, hagree.r]
  · rw [← hstarts.pc, hagree.pc]
  · rw [hstarts.rep.mem, hagree.mem]
  · rw [hstarts.rep.ttype, hagree.thumb]
  · rw [hicc, hn, hagree.n h]
  · rw [hicc, hz, hagree.z h]
  · rw [hicc, hc, hagree.c h]
  · rw [hicc, hv, hagree.v h]

/-- `CMP r0, r1`, `ITE EQ`, `MOVEQ r2, 1`, `MOVNE r2, 2`, `STR r2, [r1]`, `LDR r3, [r1]`, and a branch back. -/
def loopCode (x : BitVec 32) : BitVec 8 :=
  ([0x88, 0x42, 0x0C, 0xBF, 0x01, 0x22, 0x02, 0x22, 0x0A, 0x60, 0x0B, 0x68, 0xF8, 0xE7] : List (BitVec 8)).getD x.toNat 0

def loopState : State (BitVec 32 → BitVec 8) where
  r := fun i => if i.val = 1 then 0x100 else 0
  pc := 0
  n := false
  z := false
  c := false
  v := false
  thumb := true
  itstate := 0
  mem := loopCode

def loopCore : Sccore (BitVec 32 → BitVec 8) where
  state := {
    rf := fun r => if r = 2 then 0x100 else if r = LREG_TTYPE then 1 else 0
    iccrf := fun _ => 0
    pc := 0
    flush := false
    nop := false }
  mem := loopCode

theorem loop_starts : Starts loopState loopCore := ⟨⟨by decide, rfl, rfl, by decide, rfl⟩, rfl, rfl⟩

/-- Twice around the loop. -/
theorem emulator_follows_loop : ∃ s' x',
    run (fun s (_ : Unit) => Checked.step flat s) ⟨loopState, .exact⟩ (List.replicate 14 ()) = some s' ∧
      run (fun x (_ : Unit) => Scexec.step flat x) ⟨loopCore, []⟩ (List.replicate 14 ()) = some x' ∧
      ∀ i, x'.core.state.rf (lreg i) = (s'.state.r i).setWidth 64 := by
  obtain ⟨s', hs'⟩ := Option.isSome_iff_exists.1 (by decide +kernel :
    (run (fun s (_ : Unit) => Checked.step flat s) ⟨loopState, .exact⟩ (List.replicate 14 ())).isSome = true)
  have hrelated : Related ⟨loopState, .exact⟩ ⟨loopCore, []⟩ := ⟨⟨loopState, loop_starts, Agree.refl _ _⟩, rfl⟩
  obtain ⟨x', hx', hr, -⟩ := emulator_follows hrelated hs'
  exact ⟨s', x', hs', hx', hr⟩

/-! ## The tenth condition -/

/-- The instructions that are skipped by a branch. `LDM` only with register 0. -/
def Isa.Instr.Skipped : Instr → Prop
  | .ldrLiteral _ _ | .access _ _ _ _ | .push _ | .pop _ | .stm _ _ => True
  | .ldm _ list => list.getLsbD 0 = true
  | _ => False

/-- **Executed when the condition fails.** In an IT block under the tenth condition, a load or a store, of one
register or of many, does all that it is for exactly when the condition does not hold. -/
theorem accesses_under_LS {a : State M} {c : Sccore M} {insn : BitVec 32} {i : Instr} (h : Starts a c)
    (hIT : a.inIT = true) (hthumb : a.thumb = true) (hdec : decode insn = some i) (hcracked : Cracked a (some 9) i)
    (hi : i.Skipped) : Emulates prog (thumb16uops (some 9) insn c.PC) .exact c
      (if holds a 9 = true then a.next else exec prog a i) := by
  have hsound : Emulates prog (thumb16uops (some 9) insn c.PC) (sure (some 9) i) c (emulated prog a (some 9) i) :=
    thumb16uops_emulated h hIT hthumb hdec hcracked
  have hskips : skips a (some 9) = holds a 9 := rfl
  cases i with
  | ldm n list =>
    have hbase : ldmBase list (a.get n) = a.get n := if_pos hi
    rw [emulated, hskips, hbase] at hsound
    exact hsound
  | ldrLiteral _ _ | access _ _ _ _ | push _ | pop _ | stm _ _ => exact hsound
  | _ => exact nomatch hi

/-- The carry is clear: the condition holds, and nothing is stored. -/
theorem accesses_under_LS_store : Emulates flat (thumb16uops (some 9) 0x600A loopCore.PC) .exact loopCore
    { loopState with itstate := 0x98 }.next :=
  have hrep := loop_starts.rep
  accesses_under_LS (a := { loopState with itstate := 0x98 }) (i := .access .STR 2 1 (.imm 0))
    ⟨⟨hrep.reg, hrep.zero, hrep.icc, hrep.ttype, hrep.mem⟩, rfl, rfl⟩ rfl rfl rfl trivial trivial

/-! ## The base of `LDM` -/

/-- **One word too late.** `LDM` of a list without register 0 loads every register from the word after the one it
should be loaded from; the base is written back as it should be. -/
theorem ldm_second_word {a : State M} {c : Sccore M} {cond : Option CondCode} {insn : BitVec 32} {n : Reg}
    {list : BitVec 8} (h : Starts a c) (hIT : a.inIT = cond.isSome) (hthumb : a.thumb = true)
    (hdec : decode insn = some (.ldm n list)) (h0 : list ≠ 0) (hlist : list.getLsbD 0 = false) :
    exec prog a (.ldm n list) = ldmFrom prog a n list (a.get n) ∧
      Emulates prog (thumb16uops cond insn c.PC) .exact c
        (if skips a cond = true then a.next else ldmFrom prog a n list (a.get n + 4)) := by
  have hcracked : Cracked a cond (.ldm n list) := ⟨h0, fun ht => absurd (hlist.symm.trans ht) Bool.false_ne_true⟩
  have hsound : Emulates prog (thumb16uops cond insn c.PC) .exact c (emulated prog a cond (.ldm n list)) :=
    thumb16uops_emulated h hIT hthumb hdec hcracked
  have hbase : ldmBase list (a.get n) = a.get n + 4 := by
    rw [ldmBase, hlist, if_neg Bool.false_ne_true]
  rw [emulated, hbase] at hsound
  exact ⟨rfl, hsound⟩

/-- `LDMIA r1!, {r2, r3}`. -/
theorem ldm_second_word_two : Emulates flat (thumb16uops none 0xC90C loopCore.PC) .exact loopCore
    (ldmFrom flat loopState 1 12 0x104) :=
  have hdec : decode 0xC90C = some (.ldm 1 12) := rfl
  (ldm_second_word loop_starts rfl rfl hdec (by decide) rfl).2

/-! ## IT blocks -/

/-- The cracker: the vector of conditions, and the sequences so far. The instruction comes with its PC. -/
def crackStep (s : List (BitVec 4) × List (List Uop)) (w : BitVec 32 × BitVec 32) :
    Option (List (BitVec 4) × List (List Uop)) :=
  (thumb16expand s.1 w.1 w.2).map fun (rinst, itblockVector) => (itblockVector, s.2 ++ [rinst])

/-- The instruction set: `ITSTATE`, and the sequence of every instruction under its condition, `AL` in a block or
outside of one. An IT block has no `IT` in it, and none of its instructions has the number 15, which is no condition. -/
def blockStep (s : BitVec 8 × List (List Uop)) (w : BitVec 32 × BitVec 32) : Option (BitVec 8 × List (List Uop)) :=
  (condOf (if s.1 &&& 0xF ≠ 0 then (s.1 >>> 4).setWidth 4 else 14)).bind fun cond =>
    if isIT w.1 = true ∧ s.1 &&& 0xF ≠ 0 then none
    else some (if isIT w.1 then w.1.extractLsb' 0 8 else itAdvance s.1, s.2 ++ [thumb16uops cond w.1 w.2])

/-- **Every instruction is cracked under its condition.** The words are any ones, in any number, and the PC need not
follow from one to the next. -/
theorem cracked_in_block {itstate : BitVec 8} {rinsts : List (List Uop)} {ws : List (BitVec 32 × BitVec 32)}
    (h : run blockStep (0, []) ws = some (itstate, rinsts)) :
    run crackStep ([], []) ws = some (pending itstate, rinsts) := by
  have hstep (s : BitVec 8 × List (List Uop)) (w : BitVec 32 × BitVec 32) (s' : BitVec 8 × List (List Uop))
      (t : List (BitVec 4) × List (List Uop)) (hs : blockStep s w = some s') (ht : t = (pending s.1, s.2)) :
      ∃ t', crackStep t w = some t' ∧ t' = (pending s'.1, s'.2) := by
    subst ht
    obtain ⟨cond, hcond, hs⟩ := Option.bind_eq_some_iff.1 hs
    split at hs
    · exact nomatch hs
    · rename_i hIT
      obtain rfl := Option.some.inj hs
      have houtside (hit : isIT w.1 = true) : s.1 &&& 0xF = 0 := by_contra fun hne => hIT ⟨hit, hne⟩
      refine ⟨_, ?_, rfl⟩
      unfold crackStep
      rw [thumb16expand_pending hcond houtside]
      rfl
  obtain ⟨t, ht, rfl⟩ := run_lockstep hstep h (t := ([], [])) rfl
  exact ht

/-- `ITT NE` and two instructions, `IT AL` and one. -/
theorem cracked_in_block_both :
    run crackStep ([], []) [(0xBF1C, 0), (0x2201, 2), (0x600A, 4), (0xBFE8, 6), (0x2201, 8)] =
      some ([], [[], thumb16uops (some 1) 0x2201 2, thumb16uops (some 1) 0x600A 4, [], thumb16uops none 0x2201 8]) :=
  have hrun : run blockStep (0, []) [(0xBF1C, 0), (0x2201, 2), (0x600A, 4), (0xBFE8, 6), (0x2201, 8)] =
      some (0, [[], thumb16uops (some 1) 0x2201 2, thumb16uops (some 1) 0x600A 4, [], thumb16uops none 0x2201 8]) := rfl
  cracked_in_block hrun

end Esesc.Emul
