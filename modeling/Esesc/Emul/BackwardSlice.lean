import Esesc.Emul.LiveIns

/-!
# Backward slices

`generatePslice` goes through the trace of a delinquent load from its end. It keeps the registers
whose writers are still to come, and takes an instruction into the slice when it writes one of them.

* `generatePslice_simulates`: the pass is the pass over definitions and uses, at every register but
  the dummy.
* `generatePslice_correct`: for every trace that is not empty the slice is what the delinquent load
  depends on, and its live-ins are live-ins of the trace.
-/

namespace Esesc.Emul

open Lib

/-- All source registers of an instruction are added to the dependency list. -/
def addSources (depRegisters : BitVec 5 → Bool) (ins : ExecIns) : BitVec 5 → Bool :=
  let dep := Function.update depRegisters ins.src1_reg true
  let dep := Function.update dep ins.src2_reg true
  let dep := Function.update dep ins.src3_reg true
  Function.update dep ins.impl_reg true

/-- What `generatePslice` works on. -/
structure Generate where
  depRegisters : BitVec 5 → Bool
  pslice : List ExecIns
  loadStores : ℕ

namespace Generate

/-- The delinquent load. -/
def first (depRegisters : BitVec 5 → Bool) (ins : ExecIns) : Generate := ⟨addSources depRegisters ins, [ins], 0⟩

/-- The test that decides whether an instruction is taken. -/
def contributes (g : Generate) (ins : ExecIns) : Bool :=
  g.depRegisters ins.dst_reg && ins.dst_reg != INVALID_ARM_REG

/-- The body of the loop. The counter is under the negation of the test around it. -/
def step (g : Generate) (ins : ExecIns) : Generate :=
  if g.contributes ins then
    { depRegisters := addSources (Function.update g.depRegisters ins.dst_reg false) ins
      pslice := ins :: g.pslice
      loadStores := if !g.contributes ins then g.loadStores + 1 else g.loadStores }
  else g

def identifyPsliceLiveIns (g : Generate) (RegisterFile : BitVec 5 → BitVec 32) : LiveIns :=
  identifyLiveIns g.pslice RegisterFile

end Generate

/-- The entry of the dummy register is not initialised. There is no result for an empty trace, whose
last instruction is read. -/
def Pslice.generatePslice (p : Pslice) (uninitialised : Bool) : Option Generate :=
  match p.ptrace.reverse with
  | [] => none
  | ins :: rest => some (rest.foldl Generate.step (.first (fun r => r = INVALID_ARM_REG && uninitialised) ins))

/-- **The slice of a trace**: a part of it that ends with its last instruction, the instructions that
this one depends on, in the order of the trace. -/
structure BackwardSlice (t pslice : List ExecIns) : Prop where
  sublist : pslice.Sublist t
  last : pslice.getLast? = t.getLast?
  exactly : ∃ ps : List ℕ, ps.Pairwise (· < ·) ∧ (∀ n, n ∈ ps ↔ InSlice ExecIns.reads ExecIns.dst t n) ∧
    pslice.map some = ps.map (t[·]?)

/-- **The live-ins of a slice**: the registers that it reads before any write in the whole trace, with
the values of the first such reads. -/
structure SliceLiveIns (t : List ExecIns) (l : LiveIns) : Prop where
  marked : ∀ r, r ≠ INVALID_ARM_REG → (l.liveIns r = true ↔ ∃ n i, InSlice ExecIns.reads ExecIns.dst t n ∧
    t[n]? = some i ∧ (i.reads r).isSome ∧ ∀ k j, k < n → t[k]? = some j → j.dst_reg ≠ r)
  value : ∀ r, r ≠ INVALID_ARM_REG → ∀ n i v, InSlice ExecIns.reads ExecIns.dst t n → t[n]? = some i →
    i.reads r = some v → (∀ k j, k < n → t[k]? = some j →
      j.dst_reg ≠ r ∧ (InSlice ExecIns.reads ExecIns.dst t k → j.reads r = none)) → l.RegisterFile r = v
  dummy : l.liveIns INVALID_ARM_REG = false

/-! ## The pass -/

variable {g : Generate} {b : Backward ExecIns (BitVec 5)} {i : ExecIns} {is : List ExecIns}

theorem reads_isSome (i : ExecIns) (r : BitVec 5) : (i.reads r).isSome =
    (r == i.impl_reg || r == i.src1_reg || r == i.src2_reg || r == i.src3_reg) := by
  unfold ExecIns.reads ExecIns.operands
  simp only [List.lookup_cons, List.lookup_nil]
  cases r == i.impl_reg <;> cases r == i.src1_reg <;> cases r == i.src2_reg <;> cases r == i.src3_reg <;> rfl

theorem addSources_at (dep : BitVec 5 → Bool) (i : ExecIns) (r : BitVec 5) :
    addSources dep i r = ((i.reads r).isSome || dep r) := by
  rw [reads_isSome]
  unfold addSources
  simp only [Function.update_apply]
  by_cases h1 : r = i.impl_reg
  · simp [h1]
  · by_cases h2 : r = i.src3_reg
    · simp [h2]
    · by_cases h3 : r = i.src2_reg
      · simp [h3]
      · by_cases h4 : r = i.src1_reg <;> simp [h1, h2, h3, h4]

/-- The pass does what the pass over definitions and uses does, except at the dummy register. -/
structure Simulates (g : Generate) (b : Backward ExecIns (BitVec 5)) : Prop where
  needed : ∀ r, r ≠ INVALID_ARM_REG → g.depRegisters r = b.needed r
  slice : g.pslice = b.slice
  loadStores : g.loadStores = 0

theorem Simulates.first (uninitialised : Bool) (i : ExecIns) :
    Simulates (.first (fun r => r = INVALID_ARM_REG && uninitialised) i) (.start ExecIns.reads i) where
  needed r hr := by simp [Generate.first, Backward.start, addSources_at, hr]
  slice := rfl
  loadStores := rfl

theorem Simulates.step (h : Simulates g b) (i : ExecIns) :
    Simulates (g.step i) (b.step ExecIns.reads ExecIns.dst i) := by
  by_cases hd : i.dst_reg = INVALID_ARM_REG
  · -- never taken, whatever the entry of the dummy register holds
    have hdst : i.dst = none := if_pos hd
    have hg : g.step i = g := if_neg (by simp [Generate.contributes, hd])
    have hb : b.step ExecIns.reads ExecIns.dst i = b := by simp [Backward.step, hdst]
    rw [hg, hb]
    exact h
  · have hdst : i.dst = some i.dst_reg := if_neg hd
    have hc : g.contributes i = b.needed i.dst_reg := by simp [Generate.contributes, hd, h.needed _ hd]
    cases hn : b.needed i.dst_reg with
    | false =>
      have hg : g.step i = g := if_neg (by simp [hc, hn])
      have hb : b.step ExecIns.reads ExecIns.dst i = b := by simp [Backward.step, hdst, hn]
      rw [hg, hb]
      exact h
    | true =>
      have hg : g.step i = ⟨addSources (Function.update g.depRegisters i.dst_reg false) i, i :: g.pslice, g.loadStores⟩ := by
        simp [Generate.step, hc, hn]
      have hb : b.step ExecIns.reads ExecIns.dst i =
          ⟨fun r => (i.reads r).isSome || (r ≠ i.dst_reg && b.needed r), i :: b.slice⟩ := by
        simp [Backward.step, hdst, hn]
      rw [hg, hb]
      refine ⟨fun r hr => ?_, congrArg (i :: ·) h.slice, h.loadStores⟩
      simp only [addSources_at, Function.update_apply]
      by_cases hrd : r = i.dst_reg <;> simp [hrd, h.needed r hr]

/-- **The pass simulates** the pass over definitions and uses, on any trace. -/
theorem generatePslice_simulates {p : Pslice} (uninitialised : Bool) (hp : p.ptrace = is ++ [i]) :
    ∃ g, p.generatePslice uninitialised = some g ∧ Simulates g (backward ExecIns.reads ExecIns.dst is i) := by
  have hrev : p.ptrace.reverse = i :: is.reverse := by
    rw [hp, List.reverse_append]
    rfl
  have hrun : p.generatePslice uninitialised = some (is.foldr (fun j g => Generate.step g j)
      (.first (fun r => r = INVALID_ARM_REG && uninitialised) i)) := by
    unfold Pslice.generatePslice
    rw [hrev]
    exact congrArg some List.foldl_reverse
  refine ⟨_, hrun, ?_⟩
  clear hrun hrev hp
  -- along the trace, from its end
  induction is with
  | nil => exact .first uninitialised i
  | cons j is ih => exact ih.step j

/-! ## Slices -/

/-- The pass takes instructions in their order, and the last one always. -/
theorem backward_sublist (is : List ExecIns) (i : ExecIns) :
    ∃ l, (backward ExecIns.reads ExecIns.dst is i).slice = l ++ [i] ∧ l.Sublist is := by
  induction is with
  | nil => exact ⟨[], rfl, List.Sublist.refl _⟩
  | cons j is ih =>
    obtain ⟨l, hl, hsub⟩ := ih
    have hstep : backward ExecIns.reads ExecIns.dst (j :: is) i =
        (backward ExecIns.reads ExecIns.dst is i).step ExecIns.reads ExecIns.dst j := rfl
    rw [hstep]
    generalize backward ExecIns.reads ExecIns.dst is i = b at *
    have hcases : (b.step ExecIns.reads ExecIns.dst j).slice = b.slice ∨
        (b.step ExecIns.reads ExecIns.dst j).slice = j :: b.slice := by
      unfold Backward.step
      cases j.dst with
      | none => exact .inl rfl
      | some d =>
        cases hn : b.needed d with
        | false => exact .inl (by simp [hn])
        | true => exact .inr (by simp [hn])
    rcases hcases with h | h
    · exact ⟨l, h.trans hl, hsub.cons j⟩
    · refine ⟨j :: l, ?_, hsub.cons_cons j⟩
      rw [h, hl]
      rfl

theorem BackwardSlice.of_simulates {g : Generate} (h : Simulates g (backward ExecIns.reads ExecIns.dst is i)) :
    BackwardSlice (is ++ [i]) g.pslice := by
  obtain ⟨l, hl, hsub⟩ := backward_sublist is i
  obtain ⟨ps, hps⟩ := @backward_inSlice _ _ _ ExecIns.reads ExecIns.dst _ is i
  rw [← h.slice] at hl hps
  refine ⟨?_, ?_, ps, hps.increasing, fun n => ?_, hps.instructions⟩
  · rw [hl]
    exact hsub.append (List.Sublist.refl _)
  · rw [hl, List.getLast?_append, List.getLast?_append]
    rfl
  · rw [hps.positions]
    exact and_iff_right (Nat.zero_le n)

theorem BackwardSlice.sliceFrom {t l : List ExecIns} (h : BackwardSlice t l) :
    ∃ ps, SliceFrom ExecIns.reads ExecIns.dst t 0 l ps := by
  obtain ⟨ps, hinc, hmem, hl⟩ := h.exactly
  refine ⟨ps, hinc, fun n => ?_, hl⟩
  rw [hmem]
  exact (and_iff_right (Nat.zero_le n)).symm

theorem not_writes_iff {t : List ExecIns} {n : ℕ} {r : BitVec 5} (hr : r ≠ INVALID_ARM_REG) :
    (∀ k, k < n → ¬Writes ExecIns.dst t k r) ↔ ∀ k j, k < n → t[k]? = some j → j.dst_reg ≠ r := by
  constructor
  · exact fun h k j hk hj hd => h k hk ⟨j, hj, (dst_eq_some hr).2 hd⟩
  · rintro h k hk ⟨j, hj, hd⟩
    exact h k j hk hj ((dst_eq_some hr).1 hd)

/-- The live-ins of a slice, as they are found in the slice alone. -/
theorem SliceLiveIns.of_slice {t l : List ExecIns} (h : BackwardSlice t l) (file : BitVec 5 → BitVec 32) :
    SliceLiveIns t (identifyLiveIns l file) := by
  obtain ⟨ps, hps⟩ := h.sliceFrom
  constructor
  · intro r hr
    rw [(identifyLiveIns_at l file hr).1, firstUse_slice_isSome hps]
    simp only [not_writes_iff hr]
  · intro r hr n i v hn hi hv hbefore
    have hfirst : firstUse ExecIns.reads ExecIns.dst l r = some v := by
      refine (firstUse_slice_eq_some hps).2 ⟨n, i, hn, hi, hv, ?_, ?_⟩
      · exact (not_writes_iff hr).2 fun k j hk hj => (hbefore k j hk hj).1
      · exact fun k hk hin j hj => (hbefore k j hk hj).2 hin
    rw [(identifyLiveIns_at l file hr).2, hfirst]
    rfl
  · exact identifyLiveIns_dummy l file

/-- **Backward slices.** For every trace that is not empty, whatever the entry that is not initialised
and the register file held, `generatePslice` finds the slice of the trace, and
`identifyPsliceLiveIns` the registers that the slice reads before any write in the trace. -/
theorem generatePslice_correct (p : Pslice) (uninitialised : Bool) (file : BitVec 5 → BitVec 32)
    (hp : p.ptrace ≠ []) : ∃ g, p.generatePslice uninitialised = some g ∧ BackwardSlice p.ptrace g.pslice ∧
      SliceLiveIns p.ptrace (g.identifyPsliceLiveIns file) := by
  rcases List.eq_nil_or_concat p.ptrace with h | ⟨is, i, h⟩
  · exact absurd h hp
  · rw [List.concat_eq_append] at h
    obtain ⟨g, hg, hsim⟩ := generatePslice_simulates uninitialised h
    have hslice : BackwardSlice p.ptrace g.pslice := by
      rw [h]
      exact .of_simulates hsim
    exact ⟨g, hg, hslice, .of_slice hslice file⟩

/-- A write of register 1, one of register 2 that does not matter, and a load from register 1. -/
theorem generatePslice_load : ∃ p : Pslice, p = (((Pslice.new 8 1).insertInst { (default : ExecIns) with dst_reg := 1 }).insertInst
      { (default : ExecIns) with dst_reg := 2 }).insertInst { (default : ExecIns) with PC := 8, src1_reg := 1 } ∧
    ∃ g, p.generatePslice true = some g ∧ BackwardSlice p.ptrace g.pslice ∧
      SliceLiveIns p.ptrace (g.identifyPsliceLiveIns fun _ => 0) :=
  ⟨_, rfl, generatePslice_correct _ true (fun _ => 0) (by simp [Pslice.insertInst])⟩

end Esesc.Emul
