import Mathlib.Data.List.Forall2
import Esesc.Core.Fusion
import Esesc.Lib.Groups

/-!
# The dynamic mode of fusion

An ALU operation or a branch takes up the pending fusions that it clashes with and puts them behind
the others. The loop that takes them up increments the iterator that `erase` has returned, and so
does not look at the fusion behind one that it has taken.

* `takeClashes_spaced`: it takes up every fusion that clashes if none is behind another, or the last.
* `Regroups.dynamic`: the pending fusions are the groups of instructions that clashes link.
* `fusedInOrder_iff`: when what the dynamic mode fuses is in order.
* `fuzion_preserves_iff`: the programs that each mode preserves.
-/

namespace Esesc.Core

open Esesc.Lib
open scoped List

variable {ds : List FuzeInst} {i j k l t x : ℕ} {c : MegaOpCluster} {op f f' : MegaOp} {g g' : List ℕ}
  {gs : List (List ℕ)} {fs : List MegaOp}

/-! ## What is to be fused -/

/-- An ALU operation or a branch. -/
def IsAlu (ds : List FuzeInst) (i : ℕ) : Prop := cls ds i = some .alu

/-- An ALU operation or a branch `j` clashes with an earlier one, and no list is emptied between them. -/
def Meets (ds : List FuzeInst) (i j : ℕ) : Prop :=
  i < j ∧ IsAlu ds i ∧ IsAlu ds j ∧ MegaOpCluster.clashes (megaOp ds j) (megaOp ds i) = true ∧
    ∀ c, c ≠ .alu → ¬Emptied ds c i j

/-- **No fusion that clashes is skipped.** Instructions that meetings link form groups, in the order of
their last instructions: no ALU operation or branch meets the last group, or two groups in a row. -/
def NoneSkipped (ds : List FuzeInst) : Prop := ∀ k < ds.length, IsAlu ds k → Apart (IsAlu ds) (Meets ds) k

/-- **The groups are in order**: when an ALU operation or branch depends on an earlier one, the group of the
earlier one ends first when the two groups are put together, or at the end if they are not. -/
def GroupsInOrder (ds : List FuzeInst) : Prop :=
  ∀ j < ds.length, ∀ i < j, Dependent ds i j → IsAlu ds i → IsAlu ds j → Stays (Meets ds) ds.length i j

theorem meetings (ds : List FuzeInst) : Meetings (IsAlu ds) (Meets ds) := fun _ _ h => ⟨h.2.1, h.2.2.1, h.1⟩

/-- No list is emptied exactly when that of the fusions is not moved. -/
theorem not_emptied_iff : (∀ c, c ≠ .alu → ¬Emptied ds c i t) ↔
    ∀ m, i < m → m ≤ t → moves ds m (held (cls ds) (moves ds) m) .alu = false := by
  constructor
  · intro h m him hmt
    by_contra hm
    obtain ⟨c, hc, hmoves⟩ := exists_moves_of_alu (Bool.eq_true_of_not_eq_false hm)
    exact h c hc ((exists_moves_iff hc).1 ⟨m, him, hmt, hmoves⟩)
  · intro h c hc hemp
    obtain ⟨m, him, hmt, hm⟩ := (exists_moves_iff hc).2 hemp
    have hno := h m him hmt
    rw [moves_alu hm] at hno
    cases hno

/-! ## Fusions -/

/-- A fusion of the instructions of a group. What it reads of its own results is not among its sources. -/
structure IsFusion (ds : List FuzeInst) (g : List ℕ) (f : MegaOp) : Prop where
  instrs : f.instrs = g
  dsts : ∀ r, r ∈ f.dsts ↔ ∃ i ∈ g, r ∈ (megaOp ds i).dsts
  regs : ∀ r, r ∈ f.srcs ∨ r ∈ f.dsts ↔ ∃ i ∈ g, r ∈ (megaOp ds i).srcs ∨ r ∈ (megaOp ds i).dsts

theorem isFusion_empty (type : InstOpcode) : IsFusion ds [] (.empty type) := by
  refine ⟨rfl, fun r => ?_, fun r => ?_⟩ <;> simp [MegaOp.empty]

theorem isFusion_megaOp (i : ℕ) : IsFusion ds [i] (megaOp ds i) := by
  refine ⟨rfl, fun r => ?_, fun r => ?_⟩ <;> simp

theorem IsFusion.addMegaOp (h : IsFusion ds g f) (h' : IsFusion ds g' f') : IsFusion ds (g ++ g') (f.addMegaOp f') := by
  refine ⟨by rw [MegaOp.addMegaOp, h.instrs, h'.instrs], fun r => ?_, fun r => ?_⟩
  · simp only [MegaOp.addMegaOp, Finset.mem_union, h.dsts, h'.dsts, List.mem_append, or_and_right, exists_or]
  · have hset : r ∈ (f.addMegaOp f').srcs ∨ r ∈ (f.addMegaOp f').dsts ↔
        (r ∈ f.srcs ∨ r ∈ f.dsts) ∨ (r ∈ f'.srcs ∨ r ∈ f'.dsts) := by
      by_cases hr : r ∈ f.dsts <;> simp [MegaOp.addMegaOp, hr, or_assoc]
    rw [hset, h.regs, h'.regs]
    simp only [List.mem_append, or_and_right, exists_or]

theorem IsFusion.foldl (h : IsFusion ds g f) (hfs : List.Forall₂ (IsFusion ds) gs fs) :
    IsFusion ds (g ++ gs.flatten) (fs.foldl .addMegaOp f) := by
  induction hfs generalizing g f with
  | nil => simpa using h
  | cons hf _ ih =>
    rw [List.flatten_cons, ← List.append_assoc]
    exact ih (h.addMegaOp hf)

/-- A merge of fusions. -/
theorem isFusion_merge (hfs : List.Forall₂ (IsFusion ds) gs fs) : IsFusion ds gs.flatten (.merge fs) :=
  (isFusion_empty .iAALU).foldl hfs

/-- The test of a fusion finds what the tests of its instructions find. -/
theorem IsFusion.clashes_iff (h : IsFusion ds g f) :
    MegaOpCluster.clashes op f = true ↔ ∃ i ∈ g, MegaOpCluster.clashes op (megaOp ds i) = true := by
  have hone : ∀ f : MegaOp, MegaOpCluster.clashes op f = true ↔
      (∃ r ∈ op.srcs, r ∈ f.srcs ∨ r ∈ f.dsts) ∨ ∃ r ∈ op.dsts, r ∈ f.dsts := by
    intro f
    rw [MegaOpCluster.clashes, Bool.or_eq_true, Bool.or_eq_true, matchSrcs_iff, matchDsts_iff, matchSrcs_iff]
    simp only [and_or_left, exists_or]
    exact or_right_comm
  simp only [hone, h.regs]
  simp only [h.dsts]
  constructor
  · rintro (⟨r, hr, i, hi, hri⟩ | ⟨r, hr, i, hi, hri⟩)
    · exact ⟨i, hi, .inl ⟨r, hr, hri⟩⟩
    · exact ⟨i, hi, .inr ⟨r, hr, hri⟩⟩
  · rintro ⟨i, hi, ⟨r, hr, hri⟩ | ⟨r, hr, hri⟩⟩
    · exact .inl ⟨r, hr, i, hi, hri⟩
    · exact .inr ⟨r, hr, i, hi, hri⟩

open Classical in
/-- **The loop** takes up every fusion that clashes, if each is followed by one that does not. -/
theorem takeClashes_spaced {q : List ℕ → Prop}
    (hfs : List.Forall₂ (fun g f => IsFusion ds g f ∧ (MegaOpCluster.clashes op f = true ↔ q g)) gs fs)
    (hq : Spaced q gs) : ∃ r, MegaOpCluster.takeClashes op fs = some r ∧
      List.Forall₂ (IsFusion ds) (gs.filter fun g => q g) r.1 ∧ List.Forall₂ (IsFusion ds) (gs.filter fun g => ¬q g) r.2 := by
  induction fs using MegaOpCluster.takeClashes.induct op generalizing gs with
  | case1 =>
    cases hfs
    exact ⟨_, rfl, .nil, .nil⟩
  | case2 f hclash =>
    -- the last one does not clash
    obtain ⟨g, gs, ⟨-, hiff⟩, hnil, rfl⟩ := List.forall₂_cons_right_iff.1 hfs
    cases hnil
    obtain ⟨b, l, hl, -⟩ := hq.1 (hiff.1 hclash)
    cases hl
  | case3 f hclash =>
    obtain ⟨g, gs, ⟨hg, hiff⟩, hnil, rfl⟩ := List.forall₂_cons_right_iff.1 hfs
    cases hnil
    have hno : ¬q g := fun h => hclash (hiff.2 h)
    refine ⟨([], [f]), by simp [MegaOpCluster.takeClashes, hclash], ?_, ?_⟩
    · simp [hno]
    · simpa [hno] using hg
  | case4 f f' fs hclash ih =>
    obtain ⟨g, gs', ⟨hg, hiff⟩, htail, rfl⟩ := List.forall₂_cons_right_iff.1 hfs
    obtain ⟨g', gs, ⟨hg', hiff'⟩, hrest, rfl⟩ := List.forall₂_cons_right_iff.1 htail
    have hyes : q g := hiff.1 hclash
    obtain ⟨b, l, hl, hno⟩ := hq.1 hyes
    obtain ⟨rfl, rfl⟩ := List.cons.inj hl
    obtain ⟨r, hr, hr1, hr2⟩ := ih hrest hq.2.2
    refine ⟨_, by simp [MegaOpCluster.takeClashes, hclash, hr]; rfl, ?_, ?_⟩
    · simpa [hyes, hno] using And.intro hg hr1
    · simpa [hyes, hno] using List.Forall₂.cons hg' hr2
  | case5 f f' fs hclash ih =>
    obtain ⟨g, gs, ⟨hg, hiff⟩, hrest, rfl⟩ := List.forall₂_cons_right_iff.1 hfs
    have hno : ¬q g := fun h => hclash (hiff.2 h)
    obtain ⟨r, hr, hr1, hr2⟩ := ih hrest hq.2
    refine ⟨_, by simp [MegaOpCluster.takeClashes, hclash, hr]; rfl, ?_, ?_⟩
    · simpa [hno] using hr1
    · simpa [hno] using List.Forall₂.cons hg hr2

/-! ## The groups -/

/-- The groups of the ALU operations and branches before `k`. -/
noncomputable def aluGroups (ds : List FuzeInst) (k : ℕ) : List (List ℕ) := groups (IsAlu ds) (Meets ds) k

/-- The pending fusions of the dynamic mode: those of the groups that still wait. -/
noncomputable def regrouped (ds : List FuzeInst) (k : ℕ) : List ℕ :=
  (aluGroups ds k).flatten.filter (· ∈ waitList ds k .alu)

theorem grouped_aluGroups (ds : List FuzeInst) (k : ℕ) : Grouped (IsAlu ds) (Meets ds) k (aluGroups ds k) :=
  grouped (meetings ds) k

/-- An ALU operation or a branch waits as long as no list is emptied. -/
theorem mem_waitList_alu : i ∈ waitList ds k .alu ↔ IsAlu ds i ∧ i < k ∧
    ∀ m, i < m → m < k → moves ds m (held (cls ds) (moves ds) m) .alu = false := by
  rw [waitList, mem_held le_rfl]
  refine and_congr_right fun _ => and_congr_right fun _ => forall_congr' fun m => forall_congr' fun _ => ?_
  refine forall_congr' fun hmk => ?_
  rw [moved_of_lt hmk]

/-- What is left when instruction `k` has had its lists moved is what it can meet. -/
theorem mem_waitList_left : i ∈ waitList ds k .alu ∧ ¬moves ds k (held (cls ds) (moves ds) k) .alu = true ↔
    IsAlu ds i ∧ i < k ∧ ∀ c, c ≠ .alu → ¬Emptied ds c i k := by
  rw [mem_waitList_alu, not_emptied_iff, and_assoc, and_assoc, Bool.not_eq_true]
  refine and_congr_right fun _ => and_congr_right fun hik => ⟨fun ⟨hno, hm⟩ m him hmk => ?_, fun hno => ⟨?_, ?_⟩⟩
  · rcases Nat.lt_or_eq_of_le hmk with hlt | rfl
    · exact hno m him hlt
    · exact hm
  · exact fun m him hmk => hno m him hmk.le
  · exact hno k hik le_rfl

theorem fuses_regrouped : Fuses ds (regrouped ds) := by
  intro k _
  have h := grouped_aluGroups ds k
  have hwait : (waitList ds k .alu).Nodup := nodup_waitList k .alu
  rw [regrouped, List.perm_ext_iff_of_nodup (h.nodup.filter _) hwait]
  intro i
  rw [List.mem_filter, decide_eq_true_iff, h.items i]
  refine ⟨And.right, fun hi => ⟨?_, hi⟩⟩
  obtain ⟨halu, hik, -⟩ := mem_waitList_alu.1 hi
  exact ⟨halu, hik⟩

/-- Groups that have been moved are not taken up again. -/
theorem not_meets_of_moves (hm : moves ds k (held (cls ds) (moves ds) k) .alu = true) (hik : i < k) (hkj : k ≤ j) :
    ¬Meets ds i j := by
  rintro ⟨-, -, -, -, hemp⟩
  have hno := not_emptied_iff.1 hemp k hik hkj
  rw [hm] at hno
  cases hno

/-- The groups before `k` are first those that have been moved, and then the pending fusions. -/
structure Regroups (ds : List FuzeInst) (k : ℕ) (old cur : List (List ℕ)) (fs : List MegaOp) : Prop where
  groups : aluGroups ds k = old ++ cur
  fusions : List.Forall₂ (IsFusion ds) cur fs
  waits : ∀ i, i ∈ cur.flatten ↔ i ∈ waitList ds k .alu

section Regroups

variable {old cur : List (List ℕ)}

theorem instrsOf_fusions (h : List.Forall₂ (IsFusion ds) gs fs) : instrsOf fs = gs.flatten := by
  induction h with
  | nil => rfl
  | cons hf _ ih => rw [instrsOf_cons, hf.instrs, ih, List.flatten_cons]

theorem Regroups.instrs (h : Regroups ds k old cur fs) : instrsOf fs = regrouped ds k := by
  have hnodup := (grouped_aluGroups ds k).nodup
  rw [h.groups, List.flatten_append, List.nodup_append] at hnodup
  have hold : old.flatten.filter (· ∈ waitList ds k .alu) = [] := by
    refine List.filter_eq_nil_iff.2 fun i hi hwait => ?_
    exact hnodup.2.2 i hi i ((h.waits i).2 (of_decide_eq_true hwait)) rfl
  have hcur : cur.flatten.filter (· ∈ waitList ds k .alu) = cur.flatten :=
    List.filter_eq_self.2 fun i hi => decide_eq_true ((h.waits i).1 hi)
  rw [instrsOf_fusions h.fusions, regrouped, h.groups, List.flatten_append, List.filter_append, hold, hcur,
    List.nil_append]

/-- The fusions that are left when instruction `k` has had its lists moved. -/
theorem Regroups.drained (h : Regroups ds k old cur fs) : ∃ old' cur', aluGroups ds k = old' ++ cur' ∧
    List.Forall₂ (IsFusion ds) cur' (if moves ds k (held (cls ds) (moves ds) k) .alu then [] else fs) ∧
    ∀ i, i ∈ cur'.flatten ↔ i ∈ waitList ds k .alu ∧ ¬moves ds k (held (cls ds) (moves ds) k) .alu = true := by
  by_cases hm : moves ds k (held (cls ds) (moves ds) k) .alu = true
  · exact ⟨aluGroups ds k, [], (List.append_nil _).symm, by rw [if_pos hm]; exact .nil, fun i => by simp [hm]⟩
  · exact ⟨old, cur, h.groups, by rw [if_neg hm]; exact h.fusions, fun i => by simp [hm, h.waits i]⟩

/-- **An ALU operation or a branch in the dynamic mode**: it takes up the groups that it meets. -/
theorem Regroups.dynamic (h : Regroups ds k old cur c.pendingFusions) (hk : k < ds.length) (halu : IsAlu ds k)
    (hskip : NoneSkipped ds)
    (hdrain : (c.drains [] (megaOp ds k)).pendingFusions =
      if moves ds k (held (cls ds) (moves ds) k) .alu then [] else c.pendingFusions) :
    ∃ r old' cur', MegaOpCluster.takeClashes (megaOp ds k) (c.drains [] (megaOp ds k)).pendingFusions = some r ∧
      Regroups ds (k + 1) old' cur' (r.2 ++ [.merge (r.1 ++ [megaOp ds k])]) := by
  classical
  obtain ⟨old', cur', hgroups, hfusions, hwaits⟩ := h.drained
  have hgrouped := grouped_aluGroups ds k
  have hleft : ∀ i, i ∈ cur'.flatten ↔ IsAlu ds i ∧ i < k ∧ ∀ c, c ≠ .alu → ¬Emptied ds c i k :=
    fun i => (hwaits i).trans mem_waitList_left
  have hspaced : Spaced (Takes (Meets ds) k) cur' := by
    have hall := hgrouped.spaced (hskip k hk halu)
    rw [hgroups] at hall
    exact hall.of_append
  have htest : List.Forall₂ (fun g f => IsFusion ds g f ∧
      (MegaOpCluster.clashes (megaOp ds k) f = true ↔ Takes (Meets ds) k g)) cur'
      (c.drains [] (megaOp ds k)).pendingFusions := by
    rw [hdrain]
    have hmem : ∀ g ∈ cur', ∀ i ∈ g, IsAlu ds i ∧ i < k ∧ ∀ c, c ≠ .alu → ¬Emptied ds c i k :=
      fun g hg i hi => (hleft i).1 (List.mem_flatten.2 ⟨g, hg, hi⟩)
    refine ((List.forall₂_and_left _ _).2 ⟨hmem, hfusions⟩).imp fun g f hgf => ⟨hgf.2, ?_⟩
    rw [hgf.2.clashes_iff]
    constructor
    · rintro ⟨i, hi, hclash⟩
      obtain ⟨hialu, hik, hemp⟩ := hgf.1 i hi
      exact ⟨i, hi, hik, hialu, halu, hclash, hemp⟩
    · rintro ⟨i, hi, -, -, -, hclash, -⟩
      exact ⟨i, hi, hclash⟩
  obtain ⟨r, hr, htaken, hkept⟩ := takeClashes_spaced htest hspaced
  have hold : ∀ g ∈ old', ¬Takes (Meets ds) k g := by
    rintro g hg ⟨i, hi, hmeet⟩
    have hnodup := hgrouped.nodup
    rw [hgroups, List.flatten_append, List.nodup_append] at hnodup
    obtain ⟨hik, hialu, -, -, hemp⟩ := hmeet
    exact hnodup.2.2 i (List.mem_flatten.2 ⟨g, hg, hi⟩) i ((hleft i).2 ⟨hialu, hik, hemp⟩) rfl
  refine ⟨r, old', takeUp (Meets ds) k cur', hr, ?_, ?_, fun i => ?_⟩
  · have hsucc : aluGroups ds (k + 1) = takeUp (Meets ds) k (aluGroups ds k) := if_pos halu
    rw [hsucc, hgroups, takeUp_append hold]
  · rw [takeUp]
    refine List.rel_append hkept ?_
    refine .cons ?_ .nil
    have hk : IsFusion ds [k] (megaOp ds k) := isFusion_megaOp k
    have hmerge := isFusion_merge (List.rel_append htaken (.cons hk .nil))
    simpa using hmerge
  · have hperm : (takeUp (Meets ds) k cur').flatten.Perm (cur'.flatten ++ [k]) := flatten_takeUp_perm cur' k
    rw [hperm.mem_iff, List.mem_append, hwaits, List.mem_singleton, MegaOpCluster.waitList_succ, show cls ds k = some .alu from halu,
      if_pos rfl, List.mem_append, List.mem_singleton]
    refine or_congr_left ?_
    split <;> simp_all

/-- Another instruction leaves the groups as they are. -/
theorem Regroups.enqueue (h : Regroups ds k old cur c.pendingFusions) (halu : ¬IsAlu ds k) :
    Regroups ds (k + 1) old cur (c.enqueue (megaOp ds k)).pendingFusions := by
  have hsame : (c.enqueue (megaOp ds k)).pendingFusions = c.pendingFusions := by
    unfold MegaOpCluster.enqueue
    split <;> rfl
  have hgroups : aluGroups ds (k + 1) = aluGroups ds k := if_neg halu
  rw [hsame]
  refine ⟨by rw [hgroups, h.groups], h.fusions, fun i => ?_⟩
  rw [h.waits i, MegaOpCluster.waitList_succ_of_not_alu halu]

end Regroups

namespace MegaOpCluster

/-- **The dynamic mode** as far as no fusion is skipped. -/
theorem tracks_dynamic (hk : k ≤ ds.length) (hskip : NoneSkipped ds) :
    ∃ c, ((List.range k).map (megaOp ds)).foldlM dynamic clear = some c ∧ Tracks ds (regrouped ds) k c ∧
      ∃ old cur, Regroups ds k old cur c.pendingFusions := by
  induction k with
  | zero => exact ⟨clear, rfl, .init rfl, [], [], rfl, .nil, fun i => by simp [waitList, held]⟩
  | succ k ih =>
    obtain ⟨c, hc, htracks, old, cur, hgroups⟩ := ih (by omega)
    have hcls : fuzeClass (megaOp ds k).opcode = cls ds k := rfl
    suffices hstep : ∃ c', c.dynamic (megaOp ds k) = some c' ∧ Tracks ds (regrouped ds) (k + 1) c' ∧
        ∃ old cur, Regroups ds (k + 1) old cur c'.pendingFusions by
      obtain ⟨c', hc', hrest⟩ := hstep
      refine ⟨c', ?_, hrest⟩
      rw [pendingMegaOps_succ, List.foldlM_append, hc]
      simpa using hc'
    unfold dynamic
    rw [hcls]
    split
    · rename_i halu
      obtain ⟨htracks', hdrain⟩ := htracks.drains hk halu (show instrsOf [] = [] from rfl)
      rw [moved_of_lt hk] at hdrain
      obtain ⟨r, old', cur', hr, hgroups'⟩ := hgroups.dynamic hk halu hskip hdrain
      exact ⟨_, by simp only [hr, Option.map_some], htracks' _ hgroups'.instrs, old', cur', hgroups'⟩
    · rename_i halu
      have hgroups' := hgroups.enqueue halu
      have hsame : regrouped ds (k + 1) = regrouped ds k := by
        rw [← hgroups.instrs, ← hgroups'.instrs]
        unfold enqueue
        split <;> rfl
      exact ⟨_, rfl, htracks.enqueue hk halu hsame, old, cur, hgroups'⟩

end MegaOpCluster

/-- What stood before the last move of the fusions stands at the end as it did. -/
theorem exists_aluGroups_append (hl : Leaves (cls ds) (moves ds) ds.length i l) (hi : IsAlu ds i) :
    ∃ gs, aluGroups ds ds.length = aluGroups ds l ++ gs := by
  refine exists_groups_append (meetings ds) (leaves_le hl) fun m hlm hm x hx => ?_
  exact not_meets_of_moves (moves_of_leaves hl hi (by omega)).2 hx hlm

/-- **When what the dynamic mode fuses is in order.** -/
theorem fusedInOrder_iff : FusedInOrder ds (regrouped ds) ↔ GroupsInOrder ds := by
  refine forall_congr' fun j => forall_congr' fun hj => forall_congr' fun i => forall_congr' fun hij => ?_
  refine forall_congr' fun _ => forall_congr' fun hi => forall_congr' fun hjalu => ?_
  have h := grouped_aluGroups ds ds.length
  obtain ⟨l, hl⟩ : ∃ l, Leaves (cls ds) (moves ds) ds.length i l := exists_leaves (by omega) hi
  obtain ⟨l', hl'⟩ : ∃ l, Leaves (cls ds) (moves ds) ds.length j l := exists_leaves hj hjalu
  rw [← pair_sublist_groups_iff (meetings ds) hi hjalu hij hj]
  change _ ↔ List.Sublist [i, j] (aluGroups ds ds.length).flatten
  obtain ⟨gs, hgs⟩ := exists_aluGroups_append hl hi
  have hpart : (aluGroups ds l).flatten.Sublist (aluGroups ds ds.length).flatten := by
    rw [hgs, List.flatten_append]
    exact List.sublist_append_left _ _
  by_cases heq : l = l'
  · -- both are moved together
    subst heq
    have hmem : i ∈ regrouped ds l ∧ j ∈ regrouped ds l := by
      rw [(fuses_regrouped l (leaves_le hl)).mem_iff, (fuses_regrouped l (leaves_le hl)).mem_iff]
      exact ⟨mem_waitList_of_leaves hl hi, mem_waitList_of_leaves hl' hjalu⟩
    have hsub : (regrouped ds l).Sublist (aluGroups ds ds.length).flatten := List.filter_sublist.trans hpart
    rw [← pair_sublist_iff_of_sublist h.nodup hsub hmem.1 hmem.2]
    refine ⟨fun hall => hall l hl hl', fun hsub k hk _ => ?_⟩
    rwa [hk.unique hl]
  · -- the list of `i` is moved before `j` comes
    have hlt : l < l' := lt_of_le_of_ne (leaves_le_leaves hij hl hl' hi hjalu (.inl rfl)) heq
    have hlj : l ≤ j := by
      by_contra hjl
      have hle := leaves_le hl'
      have := leaves_le_of_moves hl' hjalu (by omega) (by omega) (moves_of_leaves hl hi (by omega)).2
      omega
    have hil : i < l := by
      obtain ⟨-, -, hil, -⟩ := hl
      exact hil
    refine iff_of_true (fun k hk hk' => absurd ((hk.unique hl).symm.trans (hk'.unique hl')) heq) ?_
    have hmi : i ∈ (aluGroups ds l).flatten := ((grouped_aluGroups ds l).items i).2 ⟨hi, hil⟩
    have hmj : j ∈ gs.flatten := by
      have hmem := (h.items j).2 ⟨hjalu, hj⟩
      rw [hgs, List.flatten_append] at hmem
      refine (List.mem_append.1 hmem).resolve_left fun hold => ?_
      have := (((grouped_aluGroups ds l).items j).1 hold).2
      omega
    rw [hgs, List.flatten_append]
    exact (List.singleton_sublist.2 hmi).append (List.singleton_sublist.2 hmj)

/-- **What fusion preserves.** The baseline and naive modes preserve every program. The queue mode
preserves those of whose instructions none is dropped and whose lists are moved in time. So does the
dynamic mode those whose groups are in order too, as long as no fusion is skipped. -/
theorem fuzion_preserves_iff (ds : List FuzeInst) :
    Preserves .B ds ∧ Preserves .N ds ∧ (Preserves .Q ds ↔ Listed ds ∧ InTime ds) ∧
      (NoneSkipped ds → (Preserves .D ds ↔ Listed ds ∧ InTime ds ∧ GroupsInOrder ds)) := by
  have hready : ∀ {control : FuzeControl} {c : MegaOpCluster} {o : List ℕ},
      MegaOpCluster.fuzion (pendingMegaOps ds) control = some c.finish → instrsOf c.finish = o →
        (Preserves control ds ↔ KeepsOrder ds o) := by
    intro control c o hc ho
    constructor
    · rintro ⟨ready, hmem, hkeeps⟩
      obtain rfl := Option.some.inj (hc.symm.trans hmem)
      rwa [ho] at hkeeps
    · exact fun hkeeps => ⟨_, hc, by rwa [ho]⟩
  refine ⟨?_, ?_, ?_, fun hskip => ?_⟩
  · exact (hready rfl (MegaOpCluster.inOrder_baseline ds.length).1.finish).2 keepsOrder_range
  · exact (hready rfl (MegaOpCluster.inOrder_naive ds.length).finish).2 keepsOrder_range
  · rw [hready rfl (MegaOpCluster.tracks_queue le_rfl).1.finish, keepsOrder_order_iff MegaOpCluster.fuses_inStream]
    exact and_congr_right fun _ => and_iff_left MegaOpCluster.fusedInOrder_inStream
  · obtain ⟨c, hc, htracks, -⟩ := MegaOpCluster.tracks_dynamic le_rfl hskip
    have hfuzion : MegaOpCluster.fuzion (pendingMegaOps ds) .D = some c.finish := by
      rw [MegaOpCluster.fuzion, pendingMegaOps, hc]
      rfl
    rw [hready hfuzion htracks.finish, keepsOrder_order_iff fuses_regrouped, fusedInOrder_iff]

/-- A load from the address in register 2, and an addition that writes register 2 before it. -/
theorem fuzion_queue_reorders :
    ¬Preserves .Q [⟨.iLALU_LD, false, 0, [2], [1]⟩, ⟨.iAALU, false, 4, [3], [2]⟩] := by
  decide

/-- The dynamic mode fuses the first and the last of three additions, and keeps the program. -/
example : Preserves .D [⟨.iAALU, false, 0, [1], [2]⟩, ⟨.iAALU, false, 4, [3], [4]⟩, ⟨.iAALU, false, 8, [1], [5]⟩] := by
  decide

end Esesc.Core
