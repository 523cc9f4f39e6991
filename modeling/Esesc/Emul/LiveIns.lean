import Mathlib.Logic.Function.Basic
import Esesc.Emul.Pslice
import Esesc.Lib.DefUse

/-!
# Live-in registers

A register is live-in for a trace when an instruction reads it that no earlier instruction of the
trace has written. One pass over the trace marks these registers and keeps the values that were
read. The dummy register stands for an operand that is not there.

* `step_at`: what one instruction does to one register.
* `pass_at`: the passes over a trace, in terms of first uses.
* `identifyPtraceLiveIns_correct`: the marks, the values and the number of live-ins of every trace.
-/

namespace Esesc.Emul

open Lib

def INVALID_ARM_REG : BitVec 5 := 16

/-- The registers of an instruction, with the values read. -/
def ExecIns.operands (i : ExecIns) : List (BitVec 5 × BitVec 32) :=
  [(i.impl_reg, i.impl_val), (i.src1_reg, i.src1_val), (i.src2_reg, i.src2_val), (i.src3_reg, i.src3_val)]

/-- The value that an instruction reads from a register. -/
def ExecIns.reads (i : ExecIns) (r : BitVec 5) : Option (BitVec 32) := i.operands.lookup r

/-- The destination of an instruction. -/
def ExecIns.dst (i : ExecIns) : Option (BitVec 5) :=
  if i.dst_reg = INVALID_ARM_REG then none else some i.dst_reg

/-! ## The passes -/

/-- The arrays that the passes work on, by register. -/
structure RegSets where
  dstRegs : BitVec 5 → Bool
  liveIns : BitVec 5 → Bool
  RegisterFile : BitVec 5 → BitVec 32

namespace RegSets

def read (r : BitVec 5) (v : BitVec 32) (s : RegSets) : RegSets :=
  if !s.dstRegs r && !s.liveIns r then
    { s with
      liveIns := Function.update s.liveIns r true
      RegisterFile := Function.update s.RegisterFile r v }
  else s

def write (r : BitVec 5) (s : RegSets) : RegSets := { s with dstRegs := Function.update s.dstRegs r true }

/-- The body of the loop. -/
def step (s : RegSets) (ins : ExecIns) : RegSets :=
  let s := s.read ins.impl_reg ins.impl_val
  let s := s.read ins.src1_reg ins.src1_val
  let s := s.read ins.src2_reg ins.src2_val
  let s := s.read ins.src3_reg ins.src3_val
  s.write ins.dst_reg

end RegSets

/-- What the passes leave in the slice. -/
structure LiveIns where
  RegisterFile : BitVec 5 → BitVec 32
  liveIns : BitVec 5 → Bool
  numberOfLiveIns : ℕ

/-- The passes over the trace and over the slice are the same. The dummy register is not a live-in. -/
def identifyLiveIns (is : List ExecIns) (RegisterFile : BitVec 5 → BitVec 32) : LiveIns :=
  let s := is.foldl RegSets.step ⟨fun _ => false, fun _ => false, RegisterFile⟩
  let liveIns := Function.update s.liveIns INVALID_ARM_REG false
  ⟨s.RegisterFile, liveIns, (List.range 16).foldl (fun n i => n + if liveIns (.ofNat 5 i) then 1 else 0) 0⟩

namespace Pslice

def identifyPtraceLiveIns (p : Pslice) (RegisterFile : BitVec 5 → BitVec 32) : LiveIns :=
  identifyLiveIns p.ptrace RegisterFile

end Pslice

/-- **The live-ins of a trace.** A register other than the dummy is marked exactly if an instruction
reads it that no earlier instruction writes. Its value is the one of the first read. The marked
registers of `ARMReg` are counted. -/
structure LiveInsOf (trace : List ExecIns) (l : LiveIns) : Prop where
  marked : ∀ r, r ≠ INVALID_ARM_REG → (l.liveIns r = true ↔ ∃ pre i post, trace = pre ++ i :: post ∧
    (i.reads r).isSome ∧ ∀ j ∈ pre, j.dst_reg ≠ r)
  value : ∀ r, r ≠ INVALID_ARM_REG → ∀ pre i post v, trace = pre ++ i :: post → i.reads r = some v →
    (∀ j ∈ pre, j.dst_reg ≠ r ∧ j.reads r = none) → l.RegisterFile r = v
  dummy : l.liveIns INVALID_ARM_REG = false
  number : ∃ marked : List (BitVec 5), marked.Nodup ∧
    (∀ r, r ∈ marked ↔ r ≤ INVALID_ARM_REG ∧ l.liveIns r = true) ∧ l.numberOfLiveIns = marked.length

/-! ## One instruction -/

variable {s : RegSets} {i : ExecIns} {is : List ExecIns} {r q : BitVec 5} {v : BitVec 32}

theorem dst_eq_some (h : r ≠ INVALID_ARM_REG) : i.dst = some r ↔ i.dst_reg = r := by
  unfold ExecIns.dst
  split
  · rename_i hd
    exact ⟨fun e => (by cases e), fun e => absurd (e.symm.trans hd) h⟩
  · exact Option.some_inj

@[simp] theorem dstRegs_read : (s.read q v).dstRegs = s.dstRegs := by
  unfold RegSets.read
  split <;> rfl

theorem liveIns_read : (s.read q v).liveIns r = (s.liveIns r || (r = q && !s.dstRegs r)) := by
  unfold RegSets.read
  by_cases hrq : r = q
  · subst hrq
    cases hl : s.liveIns r <;> cases hd : s.dstRegs r <;> simp [hl]
  · split <;> simp [hrq]

theorem RegisterFile_read : (s.read q v).RegisterFile r =
    if r = q ∧ s.dstRegs r = false ∧ s.liveIns r = false then v else s.RegisterFile r := by
  unfold RegSets.read
  by_cases hrq : r = q
  · subst hrq
    cases hl : s.liveIns r <;> cases hd : s.dstRegs r <;> simp
  · split <;> simp [hrq]

/-- A register that is read is marked and keeps its first value. -/
theorem read_foldl (ops : List (BitVec 5 × BitVec 32)) (s : RegSets) (r : BitVec 5) :
    (ops.foldl (fun s o => s.read o.1 o.2) s).dstRegs = s.dstRegs ∧
    (ops.foldl (fun s o => s.read o.1 o.2) s).liveIns r = (s.liveIns r || (!s.dstRegs r && (ops.lookup r).isSome)) ∧
    (ops.foldl (fun s o => s.read o.1 o.2) s).RegisterFile r =
      if s.dstRegs r || s.liveIns r then s.RegisterFile r else (ops.lookup r).getD (s.RegisterFile r) := by
  induction ops generalizing s with
  | nil => simp
  | cons o ops ih =>
    obtain ⟨hd, hl, hf⟩ := ih (s.read o.1 o.2)
    rw [List.foldl_cons, hd, hl, hf, dstRegs_read, liveIns_read, RegisterFile_read, List.lookup_cons]
    refine ⟨rfl, ?_⟩
    by_cases hr : r = o.1
    · rw [beq_iff_eq.2 hr]
      cases s.dstRegs r <;> cases s.liveIns r <;> simp [hr]
    · rw [beq_false_of_ne hr]
      simp [hr]

/-- **One instruction, at one register.** A read counts if the register is neither written nor
marked yet. -/
theorem step_at (s : RegSets) (i : ExecIns) (r : BitVec 5) :
    (s.step i).dstRegs r = (s.dstRegs r || i.dst_reg = r) ∧
    (s.step i).liveIns r = (s.liveIns r || (!s.dstRegs r && (i.reads r).isSome)) ∧
    (s.step i).RegisterFile r =
      if s.dstRegs r || s.liveIns r then s.RegisterFile r else (i.reads r).getD (s.RegisterFile r) := by
  have hstep : s.step i = (i.operands.foldl (fun s o => s.read o.1 o.2) s).write i.dst_reg := rfl
  obtain ⟨hd, hl, hf⟩ := read_foldl i.operands s r
  rw [hstep]
  refine ⟨?_, hl, hf⟩
  unfold RegSets.write
  rw [hd]
  by_cases hr : r = i.dst_reg
  · simp [hr]
  · simp [hr, Ne.symm hr]

/-! ## Traces -/

/-- **The passes, at one register other than the dummy.** -/
theorem pass_at (h : r ≠ INVALID_ARM_REG) (is : List ExecIns) (s : RegSets) :
    (is.foldl RegSets.step s).liveIns r =
      (s.liveIns r || (!s.dstRegs r && (firstUse ExecIns.reads ExecIns.dst is r).isSome)) ∧
    (is.foldl RegSets.step s).RegisterFile r = if s.dstRegs r || s.liveIns r then s.RegisterFile r
      else (firstUse ExecIns.reads ExecIns.dst is r).getD (s.RegisterFile r) := by
  induction is generalizing s with
  | nil => simp [firstUse]
  | cons i is ih =>
    obtain ⟨hl, hf⟩ := ih (s.step i)
    obtain ⟨hd, hl', hf'⟩ := step_at s i r
    rw [List.foldl_cons, hl, hf, hd, hl', hf']
    cases hr : i.reads r with
    | some v =>
      rw [firstUse_cons_of_some hr]
      cases s.dstRegs r <;> cases s.liveIns r <;> simp
    | none =>
      rw [firstUse_cons_of_none hr]
      simp only [dst_eq_some h]
      by_cases hw : i.dst_reg = r <;> cases s.dstRegs r <;> cases s.liveIns r <;> simp [hw]

section Identify

variable (is : List ExecIns) (file : BitVec 5 → BitVec 32)

/-- **The marks and values of a whole trace** are the first uses. -/
theorem identifyLiveIns_at (h : r ≠ INVALID_ARM_REG) :
    (identifyLiveIns is file).liveIns r = (firstUse ExecIns.reads ExecIns.dst is r).isSome ∧
    (identifyLiveIns is file).RegisterFile r = (firstUse ExecIns.reads ExecIns.dst is r).getD (file r) := by
  obtain ⟨hl, hf⟩ := pass_at h is ⟨fun _ => false, fun _ => false, file⟩
  refine ⟨?_, hf⟩
  have hupdate : (identifyLiveIns is file).liveIns r =
      (is.foldl RegSets.step ⟨fun _ => false, fun _ => false, file⟩).liveIns r := Function.update_of_ne h _ _
  rw [hupdate, hl]
  rfl

theorem identifyLiveIns_dummy : (identifyLiveIns is file).liveIns INVALID_ARM_REG = false := by
  simp [identifyLiveIns]

theorem count_foldl (p : ℕ → Bool) (l : List ℕ) (n : ℕ) :
    l.foldl (fun n i => n + if p i then 1 else 0) n = n + (l.filter p).length := by
  induction l generalizing n with
  | nil => rfl
  | cons i l ih =>
    rw [List.foldl_cons, ih, List.filter_cons]
    cases p i <;> simp [Nat.add_assoc, Nat.add_comm 1]

/-- The marked registers are counted. -/
theorem identifyLiveIns_number : ∃ marked : List (BitVec 5), marked.Nodup ∧
    (∀ r, r ∈ marked ↔ r ≤ INVALID_ARM_REG ∧ (identifyLiveIns is file).liveIns r = true) ∧
    (identifyLiveIns is file).numberOfLiveIns = marked.length := by
  have hdummy := identifyLiveIns_dummy is file
  have hnumber : (identifyLiveIns is file).numberOfLiveIns =
      ((List.range 16).filter fun i => (identifyLiveIns is file).liveIns (.ofNat 5 i)).length :=
    (count_foldl _ _ 0).trans (Nat.zero_add _)
  generalize (identifyLiveIns is file).liveIns = live at *
  refine ⟨((List.range 16).filter fun i => live (.ofNat 5 i)).map (.ofNat 5), ?_, ?_, ?_⟩
  · apply List.Nodup.map_on _ (List.nodup_range.filter _)
    intro a ha b hb heq
    have hlt : a < 16 := List.mem_range.1 (List.mem_of_mem_filter ha)
    have hlt' : b < 16 := List.mem_range.1 (List.mem_of_mem_filter hb)
    have hnat := congrArg BitVec.toNat heq
    rw [BitVec.toNat_ofNat, BitVec.toNat_ofNat] at hnat
    omega
  · intro r
    rw [List.mem_map]
    constructor
    · rintro ⟨i, hi, rfl⟩
      obtain ⟨hlt, hlive⟩ := List.mem_filter.1 hi
      have hlt : i < 16 := List.mem_range.1 hlt
      refine ⟨?_, hlive⟩
      rw [BitVec.le_def, BitVec.toNat_ofNat]
      exact Nat.le_trans (Nat.mod_le _ _) (Nat.le_of_lt hlt)
    · rintro ⟨hle, hlive⟩
      -- the loop stops before the dummy, which is not marked
      have hne : r.toNat ≠ 16 := by
        intro h
        have hr : r = INVALID_ARM_REG := BitVec.eq_of_toNat_eq h
        rw [hr, hdummy] at hlive
        cases hlive
      have hle' : r.toNat ≤ 16 := hle
      have hofNat : BitVec.ofNat 5 r.toNat = r := by simp
      refine ⟨r.toNat, List.mem_filter.2 ⟨List.mem_range.2 (by omega), ?_⟩, hofNat⟩
      rw [hofNat]
      exact hlive
  · rw [hnumber, List.length_map]

end Identify

/-- **Trace live-ins.** For every trace and whatever the register file held, the pass marks the
live-ins of the trace, with the values of the first reads, and counts them. -/
theorem identifyPtraceLiveIns_correct (p : Pslice) (file : BitVec 5 → BitVec 32) :
    LiveInsOf p.ptrace (p.identifyPtraceLiveIns file) := by
  unfold Pslice.identifyPtraceLiveIns
  constructor
  · intro r hr
    rw [(identifyLiveIns_at p.ptrace file hr).1, firstUse_isSome]
    simp only [ne_eq, dst_eq_some hr]
  · intro r hr pre i post v heq hv hpre
    have hfirst : firstUse ExecIns.reads ExecIns.dst p.ptrace r = some v := by
      refine firstUse_eq_some.2 ⟨pre, i, post, heq, hv, fun j hj => ⟨(hpre j hj).2, ?_⟩⟩
      rw [Ne, dst_eq_some hr]
      exact (hpre j hj).1
    rw [(identifyLiveIns_at p.ptrace file hr).2, hfirst]
    rfl
  · exact identifyLiveIns_dummy p.ptrace file
  · exact identifyLiveIns_number p.ptrace file

end Esesc.Emul
