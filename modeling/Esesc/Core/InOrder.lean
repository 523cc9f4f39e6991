import Esesc.Core.Rename

/-!
# Register hazards of the in-order core

The in-order core stalls an instruction while the alias table names a writer of one of its
registers. `addInst` enters an instruction in the table before it lets it into the window,
and the window takes it out again when it issues it, at once if it waits for nothing. So the
table names the instructions that are accepted and not issued, under all their
destinations: the ones that are issued and have not executed are missed, and
`LREG_InvalidOutput` is a register like the others.

* `Table`: an entry names the instruction that writes the register and is not issued.
* `ratTest_iff`: what the test of `addInst` finds.
* `inOrder_iff`: when the test agrees with the hazards.
-/

namespace Esesc.Core

open Esesc.Lib InFlight

variable {s s' : InFlight} {i j m p d w : Nat} {r : RegType}

structure InOrder where
  core : InFlight
  ROB : List Nat
  rROB : List Nat

namespace InOrder

def init : InOrder := ⟨.empty, [], []⟩

/-- The first test of `addInst`. -/
def ratTest (s : InFlight) (inst : Instruction) : Bool :=
  (s.RAT inst.src1).isSome || (s.RAT inst.src2).isSome || (s.RAT inst.dst1).isSome || (s.RAT inst.dst2).isSome

/-- The insertion of an instruction that does not stall. -/
def insert (o : InOrder) (f : Fetched) (lfs : Option Nat) : InOrder :=
  let i := o.core.n
  let s := ((o.core.rename f).addSrc3If lfs i).setRATEntries i
  { o with core := DepWindow.addInst (s.setRAT i) i, ROB := o.ROB ++ [i] }

/-- `sc` and `lfs` are what the cluster and the store set answer. -/
def addInst (MaxROBSize : Nat) (o : InOrder) (f : Fetched) (sc : StallCause) (lfs : Option Nat) :
    StallCause × InOrder :=
  if ratTest o.core f.inst then (.SmallWinStall, o)
  else if MaxROBSize ≤ o.ROB.length + o.rROB.length then (.SmallROBStall, o)
  else if sc ≠ .NoStall then (sc, o)
  else (.NoStall, insert o f lfs)

inductive Event where
  | addInst (f : Fetched) (sc : StallCause) (lfs : Option Nat)
  | fire (i : Nat)
  | preretire
  | retire

def step (MaxROBSize : Nat) (o : InOrder) : Event → Option InOrder
  | .addInst f sc lfs => some (addInst MaxROBSize o f sc lfs).2
  | .fire i => (o.core.fire i).map fun s => { o with core := s }
  | .preretire =>
    match o.ROB with
    | [] => none
    | i :: rest => if (o.core.insts i).executed then some { o with ROB := rest, rROB := o.rROB ++ [i] } else none
  | .retire =>
    match o.rROB with
    | [] => none
    | i :: rest => if (o.core.insts i).executed then some { o with rROB := rest } else none

/-! ## The table -/

/-- The entries of the alias table name the instructions that are not issued. -/
structure Table (s : InFlight) : Prop where
  entry : ∀ i < s.n, (s.insts i).RAT1Entry = some (s.insts i).inst.dst1 ∧
    (s.insts i).RAT2Entry = some (s.insts i).inst.dst2
  named : ∀ r w, s.RAT r = some w ↔ w < s.n ∧ (s.insts w).issued = false ∧ (s.insts w).inst.writes r = true

namespace Table

theorem clear_RAT (h : Table s) (i : Nat) (r : RegType) :
    (s.clearRATEntry i).RAT r = if s.RAT r = some i then none else s.RAT r := by
  refine clearRATEntry_RAT_of fun hi => ?_
  obtain ⟨hlt, -, hw⟩ := (h.named r i).1 hi
  exact ⟨h.entry i hlt, hw⟩

/-- Progress that issues nothing leaves the table alone. -/
theorem stay (h : Table s) (hn : s'.n = s.n) (hRAT : ∀ r, s'.RAT r = s.RAT r)
    (hat : ∀ j, (s'.insts j).inst = (s.insts j).inst ∧ (s'.insts j).issued = (s.insts j).issued ∧
      (s'.insts j).RAT1Entry = (s.insts j).RAT1Entry ∧ (s'.insts j).RAT2Entry = (s.insts j).RAT2Entry) :
    Table s' := by
  constructor
  · intro j hj
    obtain ⟨hi, -, h1, h2⟩ := hat j
    rw [hi, h1, h2]
    exact h.entry j (hn ▸ hj)
  · intro r w
    rw [hRAT, hn, (hat w).1, (hat w).2.1]
    exact h.named r w

/-- An instruction that is issued leaves the table. -/
theorem preSelect (h : Table s) (i : Nat) : Table (DepWindow.preSelect s i) := by
  constructor
  · intro j hj
    rw [preSelect_insts]
    exact h.entry j hj
  · intro r w
    rw [preSelect_RAT, ← clearRATEntry_RAT, h.clear_RAT, preSelect_insts]
    simp only [preSelect_n]
    by_cases hw : w = i
    · subst hw
      simp only [if_true, Bool.true_eq_false, false_and, and_false, iff_false]
      split
      · simp
      · assumption
    · simp only [hw, if_false]
      rw [← h.named r w]
      split
      · rename_i hi
        rw [hi]
        simp [Ne.symm hw]
      · rfl

/-- An instruction that was issued before has left the table. -/
theorem clear_issued (h : Table s) (hi : (s.insts i).issued = true) (r : RegType) :
    (s.clearRATEntry i).RAT r = s.RAT r := by
  rw [h.clear_RAT, if_neg]
  intro hr
  have := ((h.named r i).1 hr).2.1
  rw [hi] at this
  cases this

theorem wake (h : Table s) (hpop : s.getNextPending p = some (d, s')) :
    Table (if (s'.insts d).hasDeps then s' else DepWindow.preSelect s' d) := by
  obtain ⟨k, rest, -, hn, hR, hat⟩ := getNextPending_spec hpop
  have h' : Table s' := by
    refine h.stay hn (fun r => by rw [hR]) fun j => ?_
    rw [hat]
    exact ⟨rfl, rfl, rfl, rfl⟩
  split
  · exact h'
  · exact h'.preSelect d

/-- **Every callback keeps the table.** -/
theorem fire (h : Table s) (hD : Deps s none) (hf : s.fire i = some s') : Table s' := by
  have hi := hD.fire_issued hf
  -- an instruction that is issued has left the table, so clearing its entries changes nothing
  have hmod : ∀ (f : DInst → DInst), (∀ y, (f y).inst = y.inst ∧ (f y).issued = y.issued ∧
      (f y).RAT1Entry = y.RAT1Entry ∧ (f y).RAT2Entry = y.RAT2Entry) →
      Table ((s.clearRATEntry i).modify i f) := by
    intro f hf
    refine h.stay rfl (h.clear_issued hi) fun j => ?_
    rw [modify_insts]
    split
    · exact hf _
    · exact ⟨rfl, rfl, rfl, rfl⟩
  unfold InFlight.fire at hf
  split at hf <;> cases hf
  · refine h.stay rfl (fun r => rfl) fun j => ?_
    unfold DepWindow.select
    rw [modify_insts]
    split <;> exact ⟨rfl, rfl, rfl, rfl⟩
  · exact hmod _ (by simp)
  · unfold Resource.executed DepWindow.executed
    rw [clearRATEntry_modify (by simp)]
    exact wakeAll_inv (fun s d s' hs hpop => hs.wake hpop) _ _ (hmod _ (by simp))

/-- The new instruction is in the table, under destinations that were free. -/
theorem setRAT {s₀ : InFlight} {f : Fetched} (h₀ : Table s₀) (h : Entering s₀ s f)
    (hentry : (s.insts s₀.n).RAT1Entry = some f.inst.dst1 ∧ (s.insts s₀.n).RAT2Entry = some f.inst.dst2)
    (hfree : ∀ r, f.inst.writes r = true → s₀.RAT r = none) : Table (s.setRAT s₀.n) := by
  have hn : (s.setRAT s₀.n).n = s₀.n + 1 := h.n
  have hnew : (s.insts s₀.n).issued = false := h.deps.next s₀.n rfl
  constructor
  · rw [hn]
    exact entry_setRAT h.inst h.old hentry h₀.entry
  · intro r w
    rw [setRAT_apply, h.inst, h.RAT, hn]
    show _ ↔ _ ∧ (s.insts w).issued = false ∧ (s.insts w).inst.writes r = true
    by_cases hw : w = s₀.n
    · -- the new instruction is named under what it writes
      subst hw
      rw [hnew, h.inst]
      have hno : s₀.RAT r ≠ some s₀.n := fun hr => absurd ((h₀.named r _).1 hr).1 (by omega)
      by_cases hwr : f.inst.writes r = true <;> simp [hwr, hno]
    · -- the others are not among its destinations
      have hiff := h₀.named r w
      by_cases hlt : w < s₀.n
      · rw [h.old w hlt]
        by_cases hwr : f.inst.writes r = true
        · rw [hfree r hwr] at hiff
          simp only [hwr, if_true, Option.some.injEq, Ne.symm hw, false_iff]
          rintro ⟨-, hiss, hwrites⟩
          exact absurd (hiff.2 ⟨hlt, hiss, hwrites⟩) (by simp)
        · rw [if_neg hwr, hiff]
          simp [hlt, show w < s₀.n + 1 by omega]
      · have hno : s₀.RAT r ≠ some w := fun hr => hlt (hiff.1 hr).1
        have hnlt : ¬w < s₀.n + 1 := by omega
        simp only [hnlt, false_and, iff_false]
        split
        · simp [Ne.symm hw]
        · exact hno

theorem addInst (h : Table s) (i : Nat) : Table (DepWindow.addInst s i) := by
  unfold DepWindow.addInst
  split
  · refine h.stay rfl (fun r => rfl) fun j => ?_
    rw [modify_insts]
    split <;> exact ⟨rfl, rfl, rfl, rfl⟩
  · exact h.preSelect i

end Table

/-! ## Hazards -/

/-- The old instruction writes a source of the new one, or one of its real destinations. -/
def Conflicts (inst old : Instruction) : Prop :=
  (∃ src, inst.src src ≠ LREG_NoDependence ∧ old.writes (inst.src src) = true) ∨
    ∃ r, inst.writes r = true ∧ r ≠ LREG_InvalidOutput ∧ old.writes r = true

/-- The old instruction writes one of the four registers of the new one, whatever they are. -/
def Shares (inst old : Instruction) : Prop :=
  (∃ src, old.writes (inst.src src) = true) ∨ ∃ r, inst.writes r = true ∧ old.writes r = true

/-- An accepted instruction that conflicts with the new one has not executed. -/
def Hazard (s : InFlight) (inst : Instruction) : Prop :=
  ∃ w < s.n, (s.insts w).executed = false ∧ Conflicts inst (s.insts w).inst

/-- What `addInst` has to do: accept only without a hazard, and stall at the table only with one. -/
def Right (MaxROBSize : Nat) (o : InOrder) : Event → Prop
  | .addInst f sc lfs =>
    ((addInst MaxROBSize o f sc lfs).1 = .NoStall → ¬Hazard o.core f.inst) ∧
      (ratTest o.core f.inst = true → Hazard o.core f.inst)
  | _ => True

/-- An accepted instruction that is not issued shares a register with the new one. -/
def Waits (s : InFlight) (inst : Instruction) : Prop :=
  ∃ w < s.n, (s.insts w).issued = false ∧ Shares inst (s.insts w).inst

/-- When an instruction that is not issued shares a register with the new one, there is a hazard; when none
does and there is room, no instruction that is issued and has not executed conflicts with it. -/
def Clear (MaxROBSize : Nat) (o : InOrder) : Event → Prop
  | .addInst f sc _ =>
    (Waits o.core f.inst → Hazard o.core f.inst) ∧
      (¬Waits o.core f.inst → o.ROB.length + o.rROB.length < MaxROBSize → sc = .NoStall →
        ∀ w < o.core.n, (o.core.insts w).issued = true → (o.core.insts w).executed = false →
          ¬Conflicts f.inst (o.core.insts w).inst)
  | _ => True

theorem Conflicts.shares {inst old : Instruction} (h : Conflicts inst old) : Shares inst old := by
  rcases h with ⟨src, -, hw⟩ | ⟨r, hr, -, hw⟩
  · exact .inl ⟨src, hw⟩
  · exact .inr ⟨r, hr, hw⟩

/-- **What the test finds:** the instructions that are not issued. -/
theorem Table.ratTest_iff (h : Table s) (inst : Instruction) : ratTest s inst = true ↔ Waits s inst := by
  have hsome : ∀ r, (s.RAT r).isSome = true ↔
      ∃ w < s.n, (s.insts w).issued = false ∧ (s.insts w).inst.writes r = true := by
    intro r
    rw [Option.isSome_iff_exists]
    exact exists_congr fun w => h.named r w
  unfold ratTest Waits Shares
  simp only [Bool.or_eq_true, hsome]
  constructor
  · rintro (((⟨w, hw, hi, hr⟩ | ⟨w, hw, hi, hr⟩) | ⟨w, hw, hi, hr⟩) | ⟨w, hw, hi, hr⟩)
    · exact ⟨w, hw, hi, .inl ⟨false, hr⟩⟩
    · exact ⟨w, hw, hi, .inl ⟨true, hr⟩⟩
    · exact ⟨w, hw, hi, .inr ⟨inst.dst1, by simp [Instruction.writes], hr⟩⟩
    · exact ⟨w, hw, hi, .inr ⟨inst.dst2, by simp [Instruction.writes], hr⟩⟩
  · rintro ⟨w, hw, hi, ⟨src, hr⟩ | ⟨r, hr', hr⟩⟩
    · cases src with
      | false => exact .inl (.inl (.inl ⟨w, hw, hi, hr⟩))
      | true => exact .inl (.inl (.inr ⟨w, hw, hi, hr⟩))
    · simp only [Instruction.writes, Bool.or_eq_true, beq_iff_eq] at hr'
      rcases hr' with rfl | rfl
      · exact .inl (.inr ⟨w, hw, hi, hr⟩)
      · exact .inr ⟨w, hw, hi, hr⟩

/-! ## Runs -/

structure Inv (o : InOrder) : Prop where
  deps : Deps o.core none
  table : Table o.core

theorem inv_init : Inv init := by
  refine ⟨⟨?_, ?_, ?_, ?_, ?_, ?_, ?_, ?_, ?_⟩, ⟨?_, ?_⟩⟩
  all_goals simp [init, InFlight.empty, DInst.setup, DInst.used]

theorem Inv.insert {o : InOrder} {f : Fetched} {lfs : Option Nat} (h : Inv o)
    (hfree : ratTest o.core f.inst = false) : Inv (InOrder.insert o f lfs) := by
  have hready := (Ready.rename h.deps f).addSrc3 (by rw [rename_insts, if_pos rfl]; rfl) lfs
  set t := (o.core.rename f).addSrc3If lfs o.core.n with ht
  have hE : Entering o.core (t.setRATEntries o.core.n) f :=
    hready.toEntering.modify (g := fun y => { y with RAT1Entry := some y.inst.dst1, RAT2Entry := some y.inst.dst2 })
      (by simp) (by simp) t.serializeRAT
  have hentry : ((t.setRATEntries o.core.n).insts o.core.n).RAT1Entry = some f.inst.dst1 ∧
      ((t.setRATEntries o.core.n).insts o.core.n).RAT2Entry = some f.inst.dst2 := by
    unfold InFlight.setRATEntries
    rw [modify_insts, if_pos rfl, ← hready.inst]
    exact ⟨rfl, rfl⟩
  -- the test has looked at both destinations
  have hdst : ∀ r, f.inst.writes r = true → o.core.RAT r = none := by
    intro r hr
    simp only [ratTest, Bool.or_eq_false_iff, Option.isSome_eq_false_iff, Option.isNone_iff_eq_none] at hfree
    simp only [Instruction.writes, Bool.or_eq_true, beq_iff_eq] at hr
    rcases hr with rfl | rfl
    · exact hfree.1.2
    · exact hfree.2
  refine ⟨?_, (h.table.setRAT hE hentry hdst).addInst _⟩
  refine (hE.deps.tables _ _).addInst (s := (t.setRATEntries o.core.n).setRAT o.core.n) ?_
  show o.core.n < (t.setRATEntries o.core.n).n
  have := hE.n
  omega

/-- **One step.** -/
theorem Inv.step {MaxROBSize : Nat} {o o' : InOrder} {e : Event} (hs : InOrder.step MaxROBSize o e = some o')
    (h : Inv o) : Inv o' := by
  cases e with
  | addInst f sc lfs =>
    obtain rfl := Option.some.inj hs
    unfold InOrder.addInst
    split
    · exact h
    · rename_i hrat
      split
      · exact h
      · split
        · exact h
        · exact h.insert (by simpa using hrat)
  | fire i =>
    simp only [InOrder.step, Option.map_eq_some_iff] at hs
    obtain ⟨s, hf, rfl⟩ := hs
    exact ⟨h.deps.fire hf, h.table.fire h.deps hf⟩
  | preretire =>
    simp only [InOrder.step] at hs
    split at hs
    · cases hs
    · simp only [Option.ite_none_right_eq_some, Option.some.injEq] at hs
      obtain ⟨-, rfl⟩ := hs
      exact ⟨h.deps, h.table⟩
  | retire =>
    simp only [InOrder.step] at hs
    split at hs
    · cases hs
    · simp only [Option.ite_none_right_eq_some, Option.some.injEq] at hs
      obtain ⟨-, rfl⟩ := hs
      exact ⟨h.deps, h.table⟩

theorem addInst_noStall {MaxROBSize : Nat} {o : InOrder} {f : Fetched} {sc : StallCause} {lfs : Option Nat} :
    (addInst MaxROBSize o f sc lfs).1 = .NoStall ↔
      ratTest o.core f.inst = false ∧ o.ROB.length + o.rROB.length < MaxROBSize ∧ sc = .NoStall := by
  unfold InOrder.addInst
  by_cases h1 : ratTest o.core f.inst = true
  · simp [h1]
  · by_cases h2 : MaxROBSize ≤ o.ROB.length + o.rROB.length
    · simp [h1, h2]
    · by_cases h3 : sc = .NoStall <;> simp [h1, h2, h3]
      omega

theorem Inv.right_iff {MaxROBSize : Nat} {o : InOrder} (h : Inv o) (e : Event) :
    Right MaxROBSize o e ↔ Clear MaxROBSize o e := by
  cases e with
  | addInst f sc lfs =>
    unfold Right Clear
    simp only
    rw [addInst_noStall, h.table.ratTest_iff, and_comm]
    refine and_congr_right fun _ => ?_
    have hfalse : ratTest o.core f.inst = false ↔ ¬Waits o.core f.inst := by
      rw [← h.table.ratTest_iff, Bool.not_eq_true]
    rw [hfalse]
    constructor
    · intro hno hwait hroom hsc w hw _ hex hc
      exact hno ⟨hwait, hroom, hsc⟩ ⟨w, hw, hex, hc⟩
    · rintro hno ⟨hwait, hroom, hsc⟩ ⟨w, hw, hex, hc⟩
      -- a writer that is not issued would be found
      cases hi : (o.core.insts w).issued with
      | false => exact hwait ⟨w, hw, hi, hc.shares⟩
      | true => exact hno hwait hroom hsc w hw hi hex hc
  | fire i => exact Iff.rfl
  | preretire => exact Iff.rfl
  | retire => exact Iff.rfl

/-- **In-order hazards.** In every run, `addInst` is right at every call exactly when no call meets an
instruction that is issued and has not executed, or one that is not issued and shares a register without a
hazard. -/
theorem inOrder_iff (MaxROBSize : Nat) (es : List Event) :
    Along (InOrder.step MaxROBSize) (Right MaxROBSize) init es ↔
      Along (InOrder.step MaxROBSize) (Clear MaxROBSize) init es :=
  along_congr (I := Inv) (fun _ _ _ hs h => h.step hs) (fun _ e h => h.right_iff e) inv_init es

/-- A reader is accepted while the writer of its source, issued at once, has not executed. -/
theorem inOrder_missed :
    ¬Along (InOrder.step 8) (Right 8) init
      [.addInst ⟨⟨.iAALU, 0, 0, 1, LREG_InvalidOutput⟩, 0, 0⟩ .NoStall none,
        .addInst ⟨⟨.iAALU, 1, 0, 2, LREG_InvalidOutput⟩, 0, 1⟩ .NoStall none] := by
  rintro ⟨-, h⟩
  have hsecond := (h _ rfl).1
  have hstall := hsecond.1 (by decide)
  exact hstall ⟨0, by decide, by decide, .inl ⟨false, by decide, by decide⟩⟩

end InOrder

end Esesc.Core
