import Mathlib.Data.List.Infix
import Mathlib.Data.List.Sort
import Esesc.Emul.Pslice

/-!
# Comparing traces

There are two comparisons of slices. `isEqual` compares the sets of PCs that were collected, and
`operator==` walks along both traces until the first one ends. Both are meant to compare the
sequences of PCs.

* `ptraceSet_collect`: the set of a slice is the set of the PCs in its trace.
* `operatorEq_eq`: what the walk finds, by which trace is a prefix of the other one.
* `compared_iff`: when the comparisons do what they are meant to do.
-/

namespace Esesc.Emul

namespace Pslice

/-- The walk of `operator==` along both traces. At the end of the second one it reads on. -/
def samePCs : List ExecIns → List ExecIns → Option Bool
  | [], _ => some true
  | _ :: _, [] => none
  | x :: xs, y :: ys => if x.PC ≠ y.PC then some false else samePCs xs ys

/-- `operator==`, without a result where it reads past the end of a trace. -/
def operatorEq (p other : Pslice) : Option Bool := samePCs p.ptrace other.ptrace

/-- The sequence of PCs of the collected trace. -/
def pcs (p : Pslice) : List (BitVec 64) := p.ptrace.map ExecIns.PC

/-- A slice as it is collected. Nothing else changes its trace: `clear` is called by the destructor
of `PsliceConstructor` alone, right before the slice is deleted. -/
def collect (pc : BitVec 64) (iter : BitVec 32) (is : List ExecIns) : Pslice := is.foldl insertInst (new pc iter)

/-- **What the comparisons are meant to do.** Slices are equal when their sequences of PCs are,
and the two comparisons agree on it, in either order and inside of both traces. -/
structure Compared (a b : Pslice) : Prop where
  isEqual : a.isEqual b = true ↔ a.pcs = b.pcs
  symmetric : a.operatorEq b = b.operatorEq a
  inside : (a.operatorEq b).isSome ∧ (b.operatorEq a).isSome
  agree : a.operatorEq b = some (a.isEqual b)

end Pslice

/-! ## The set of a slice -/

variable {xs : List (BitVec 64)} {x y : BitVec 64}

theorem mem_setInsert : y ∈ setInsert xs x ↔ y = x ∨ y ∈ xs := by
  induction xs with
  | nil => simp [setInsert]
  | cons z zs ih =>
    unfold setInsert
    split
    · simp
    · split
      · rename_i h
        simp [h]
      · rw [List.mem_cons, ih, List.mem_cons]
        exact or_left_comm

/-- A set is kept in increasing order. -/
theorem pairwise_setInsert (h : xs.Pairwise (· < ·)) : (setInsert xs x).Pairwise (· < ·) := by
  induction xs with
  | nil => simp [setInsert]
  | cons z zs ih =>
    obtain ⟨hz, hzs⟩ := List.pairwise_cons.1 h
    unfold setInsert
    split
    · rename_i hlt
      apply List.Pairwise.cons _ h
      intro w hw
      rcases List.mem_cons.1 hw with rfl | hw
      · exact hlt
      · exact BitVec.lt_trans hlt (hz w hw)
    · rename_i hlt
      split
      · exact h
      · rename_i hne
        apply List.Pairwise.cons _ (ih hzs)
        intro w hw
        rcases mem_setInsert.1 hw with rfl | hw
        · exact BitVec.lt_of_le_ne (BitVec.not_lt.1 hlt) (Ne.symm hne)
        · exact hz w hw

namespace Pslice

variable {pc : BitVec 64} {iter : BitVec 32} {is : List ExecIns} {i : ExecIns}

theorem collect_concat : collect pc iter (is ++ [i]) = (collect pc iter is).insertInst i := by
  unfold collect
  rw [List.foldl_append]
  rfl

theorem ptrace_collect : (collect pc iter is).ptrace = is := by
  induction is using List.reverseRecOn with
  | nil => rfl
  | append_singleton is i ih =>
    rw [collect_concat]
    exact congrArg (· ++ [i]) ih

/-- **The set of a slice** holds the PCs of its trace, in increasing order. -/
theorem ptraceSet_collect : (collect pc iter is).ptraceSet.Pairwise (· < ·) ∧
    ∀ x, x ∈ (collect pc iter is).ptraceSet ↔ x ∈ is.map ExecIns.PC := by
  induction is using List.reverseRecOn with
  | nil => exact ⟨List.Pairwise.nil, fun x => Iff.rfl⟩
  | append_singleton is i ih =>
    rw [collect_concat]
    refine ⟨pairwise_setInsert ih.1, fun x => ?_⟩
    have hmem : x ∈ ((collect pc iter is).insertInst i).ptraceSet ↔ x = i.PC ∨ x ∈ (collect pc iter is).ptraceSet :=
      mem_setInsert
    rw [hmem, ih.2, List.map_append, List.mem_append, List.map_singleton, List.mem_singleton]
    exact or_comm

/-- Two slices are equal when the same PCs occur in their traces. -/
theorem isEqual_collect {pc' : BitVec 64} {iter' : BitVec 32} {js : List ExecIns} :
    (collect pc iter is).isEqual (collect pc' iter' js) = true ↔
      ∀ x, x ∈ is.map ExecIns.PC ↔ x ∈ js.map ExecIns.PC := by
  have his := @ptraceSet_collect pc iter is
  have hjs := @ptraceSet_collect pc' iter' js
  rw [isEqual_iff]
  constructor
  · intro h x
    rw [← his.2, ← hjs.2, h]
  · intro h
    refine List.Pairwise.eq_of_mem_iff his.1 hjs.1 fun x => ?_
    rw [his.2, hjs.2]
    exact h x

/-! ## The walk along both traces -/

/-- The walk is content with a first trace that is a prefix of the second one, and leaves the second
trace when that is the shorter one. -/
theorem samePCs_eq (is js : List ExecIns) : samePCs is js =
    if is.map ExecIns.PC <+: js.map ExecIns.PC then some true
    else if js.map ExecIns.PC <+: is.map ExecIns.PC then none else some false := by
  induction is generalizing js with
  | nil => simp [samePCs]
  | cons i is ih =>
    cases js with
    | nil => simp [samePCs]
    | cons j js =>
      unfold samePCs
      by_cases hpc : i.PC = j.PC
      · simp [hpc, ih, List.cons_prefix_cons]
      · have hpc' : ¬j.PC = i.PC := fun h => hpc h.symm
        simp [hpc, hpc', List.cons_prefix_cons]

/-- **What `operator==` finds.** -/
theorem operatorEq_eq (a b : Pslice) : a.operatorEq b =
    if a.pcs <+: b.pcs then some true else if b.pcs <+: a.pcs then none else some false :=
  samePCs_eq a.ptrace b.ptrace

/-- It stays inside of both traces, in either order, unless one is a proper prefix of the other. -/
theorem operatorEq_inside {a b : Pslice} (h : (a.operatorEq b).isSome ∧ (b.operatorEq a).isSome) :
    a.pcs <+: b.pcs → a.pcs = b.pcs := by
  intro hpre
  by_contra hne
  have hnot : ¬b.pcs <+: a.pcs := fun hp => hne (hpre.eq_of_length_le hp.length_le)
  have hnone : b.operatorEq a = none := by
    rw [operatorEq_eq, if_neg hnot, if_pos hpre]
  have hsome := h.2
  rw [hnone] at hsome
  cases hsome

/-- **Where the comparisons of two collected slices are right.** For all PCs, iterations and traces,
of any lengths, they compare the sequences of PCs exactly if two conditions hold. The PCs that occur
in both traces, when they are the same, must occur in the same order and as often. Neither sequence
may be a proper prefix of the other one. -/
theorem compared_iff (pc pc' : BitVec 64) (iter iter' : BitVec 32) (is js : List ExecIns) :
    Compared (collect pc iter is) (collect pc' iter' js) ↔
      ((∀ x, x ∈ is.map ExecIns.PC ↔ x ∈ js.map ExecIns.PC) → is.map ExecIns.PC = js.map ExecIns.PC) ∧
      (is.map ExecIns.PC <+: js.map ExecIns.PC → is.map ExecIns.PC = js.map ExecIns.PC) ∧
      (js.map ExecIns.PC <+: is.map ExecIns.PC → js.map ExecIns.PC = is.map ExecIns.PC) := by
  have his : (collect pc iter is).pcs = is.map ExecIns.PC := by
    rw [pcs, ptrace_collect]
  have hjs : (collect pc' iter' js).pcs = js.map ExecIns.PC := by
    rw [pcs, ptrace_collect]
  have hsets := @isEqual_collect pc iter is pc' iter' js
  rw [← hjs, ← his] at hsets ⊢
  generalize collect pc iter is = a at *
  generalize collect pc' iter' js = b at *
  constructor
  · intro h
    exact ⟨fun hs => h.isEqual.1 (hsets.2 hs), operatorEq_inside h.inside, operatorEq_inside h.inside.symm⟩
  · rintro ⟨hset, hab, hba⟩
    have heq : a.isEqual b = true ↔ a.pcs = b.pcs := by
      rw [hsets]
      exact ⟨hset, fun e x => by rw [e]⟩
    by_cases h : a.pcs = b.pcs
    · have hone : a.operatorEq b = some true := by
        rw [operatorEq_eq, if_pos (h ▸ List.prefix_rfl)]
      have hother : b.operatorEq a = some true := by
        rw [operatorEq_eq, if_pos (h ▸ List.prefix_rfl)]
      exact ⟨heq, by rw [hone, hother], by rw [hone, hother]; exact ⟨rfl, rfl⟩, by rw [hone, heq.2 h]⟩
    · -- neither is a prefix of the other, so both walks end at a difference
      have hn : ¬a.pcs <+: b.pcs := fun hp => h (hab hp)
      have hn' : ¬b.pcs <+: a.pcs := fun hp => h (hba hp).symm
      have hone : a.operatorEq b = some false := by
        rw [operatorEq_eq, if_neg hn, if_neg hn']
      have hother : b.operatorEq a = some false := by
        rw [operatorEq_eq, if_neg hn', if_neg hn]
      have hfalse : a.isEqual b = false := by
        rw [← Bool.not_eq_true, heq]
        exact h
      exact ⟨heq, by rw [hone, hother], by rw [hone, hother]; exact ⟨rfl, rfl⟩, by rw [hone, hfalse]⟩

/-- The loop before the delinquent load at 12 runs twice in the first trace and once in the second
one, which is equal to it by its set. And the walk along 4, 8 leaves the trace 4. -/
theorem not_compared :
    ¬Compared (collect 12 1 [{ (default : ExecIns) with PC := 4 }, { (default : ExecIns) with PC := 8 },
          { (default : ExecIns) with PC := 4 }, { (default : ExecIns) with PC := 8 }, { (default : ExecIns) with PC := 12 }])
        (collect 12 2 [{ (default : ExecIns) with PC := 4 }, { (default : ExecIns) with PC := 8 },
          { (default : ExecIns) with PC := 12 }]) ∧
      ¬Compared (collect 12 1 [{ (default : ExecIns) with PC := 4 }, { (default : ExecIns) with PC := 8 }])
        (collect 12 2 [{ (default : ExecIns) with PC := 4 }]) := by
  constructor
  · intro h
    exact absurd (h.isEqual.1 (by decide)) (by decide)
  · intro h
    exact absurd h.inside.1 (by decide)

end Pslice

end Esesc.Emul
