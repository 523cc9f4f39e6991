import Esesc.Core.MegaOp
import Esesc.Lib.Batches

/-!
# What fusion preserves

The baseline and naive modes keep the order of the instructions. The queue and dynamic modes move
their lists to the ready ones in batches; the dynamic mode arranges its pending fusions anew with
every instruction.

* `leaves_le_iff`: when the list of a group is moved, counted in pairs of instructions.
* `keepsOrder_order_iff`: when the order of the batches keeps the program.
* `Tracks`: what the cluster holds, as batches of places.
* `Tracks.drains`, `Tracks.enqueue`: an instruction in either mode.
* `Tracks.queue`: an ALU operation or a branch in the queue mode.
-/

namespace Esesc.Core

open Esesc.Lib
open scoped List

variable {ds : List FuzeInst} {i j k n : ℕ} {c c' : MegaOpCluster} {op : MegaOp}

/-! ## Mega-ops -/

@[simp] theorem instrsOf_nil : instrsOf [] = [] := rfl

@[simp] theorem instrsOf_cons (op : MegaOp) (ops : List MegaOp) : instrsOf (op :: ops) = op.instrs ++ instrsOf ops :=
  List.flatMap_cons

@[simp] theorem instrsOf_append (ops ops' : List MegaOp) : instrsOf (ops ++ ops') = instrsOf ops ++ instrsOf ops' :=
  List.flatMap_append

@[simp] theorem instrsOf_map_megaOp (l : List ℕ) : instrsOf (l.map (megaOp ds)) = l := by
  induction l with
  | nil => rfl
  | cons i l ih =>
    rw [List.map_cons, instrsOf_cons, ih]
    rfl

/-! ## The batches -/

/-- The group of the instruction at a place. -/
def cls (ds : List FuzeInst) (i : ℕ) : Option FuzeClass := fuzeClass (fuzeInst ds i).opcode

/-- The order in which lists are moved. -/
def FuzeClass.rank : FuzeClass → ℕ
  | .alu => 0
  | .load => 1
  | .store => 2
  | .fpu => 3

def drainOrder : List FuzeClass := [.alu, .load, .store, .fpu]

theorem drainOrder_rank : drainOrder.Pairwise fun c c' => c.rank < c'.rank := by decide

theorem mem_drainOrder (c : FuzeClass) : c ∈ drainOrder := by cases c <;> decide

/-- Instruction `i`, waiting in the list of a group, has the list moved by instruction `j`: it is a
load whose result `j` reads, a store of what `j` writes, or another operation that `j` conflicts with. -/
def mustDrain (ds : List FuzeInst) (c : FuzeClass) (i j : ℕ) : Bool :=
  match c with
  | .alu => false
  | .load => (megaOp ds j).matchSrcs (megaOp ds i).dsts
  | .store => (megaOp ds j).matchDsts (megaOp ds i).srcs
  | .fpu => (megaOp ds j).matchSrcs ((megaOp ds i).srcs ∪ (megaOp ds i).dsts) ||
      (megaOp ds j).matchDsts ((megaOp ds i).srcs ∪ (megaOp ds i).dsts)

/-- Whether the list of a group is moved when instruction `k` comes, which is an ALU operation or a
branch: when one of the list must be, and that of the pending fusions with any other. -/
def moves (ds : List FuzeInst) (k : ℕ) (h : FuzeClass → List ℕ) (c : FuzeClass) : Bool :=
  cls ds k = some .alu &&
    if c = .alu then [FuzeClass.load, .store, .fpu].any fun c => (h c).any (mustDrain ds c · k)
    else (h c).any (mustDrain ds c · k)

/-- No opcode falls into the `default` case, which drops the instruction. -/
def Listed (ds : List FuzeInst) : Prop := ∀ i < ds.length, cls ds i ≠ none

/-- An ALU operation or a branch `k` that has the list of a group moved, if instruction `i` of the group is
in it. -/
def Hits (ds : List FuzeInst) (c : FuzeClass) (i k : ℕ) : Prop :=
  cls ds i = some c ∧ cls ds k = some .alu ∧ mustDrain ds c i k = true

/-- The list of a group is emptied behind instruction `i`, up to instruction `t`: there are more pairs
that hit, each behind the one before, up to `t` than up to `i`. -/
def Emptied (ds : List FuzeInst) (c : FuzeClass) (i t : ℕ) : Prop := ∃ n, Chain (Hits ds c) n t ∧ ¬Chain (Hits ds c) n i

/-- The list of an instruction `i`, of another group than that of `j`, is moved before that of `j`, or with
it and ahead of it. At the end loads go before stores and stores before other operations. -/
def LeavesFirst (ds : List FuzeInst) (i j : ℕ) (c c' : FuzeClass) : Prop :=
  if c' = .alu then Emptied ds c i j
  else if c.rank < c'.rank then ∀ t < ds.length, Emptied ds c' j t → Emptied ds c i t
  else ∃ t < ds.length, Emptied ds c i t ∧ ¬Emptied ds c' j t

/-- **The lists are moved in time**: an instruction that waits is ready before those of other groups that
depend on it. Fusions are moved with every other list, and ahead of it. -/
def InTime (ds : List FuzeInst) : Prop :=
  ∀ j < ds.length, ∀ i < j, Dependent ds i j → ∀ c c', cls ds i = some c → cls ds j = some c' →
    c ≠ .alu → c ≠ c' → LeavesFirst ds i j c c'

/-- The list of a group before instruction `k`. -/
def waitList (ds : List FuzeInst) (k : ℕ) (g : FuzeClass) : List ℕ := held (cls ds) (moves ds) k g

/-- Whether the list of a group must be moved. -/
def mustMove (ds : List FuzeInst) (k : ℕ) (g : FuzeClass) : Bool := (waitList ds k g).any (mustDrain ds g · k)

/-- The lists of the groups when an ALU operation or branch comes, or another instruction. -/
theorem moves_waitList (g : FuzeClass) : moves ds k (held (cls ds) (moves ds) k) g =
    (decide (cls ds k = some .alu) &&
      if g = .alu then mustMove ds k .load || mustMove ds k .store || mustMove ds k .fpu else mustMove ds k g) := by
  simp [moves, mustMove, waitList, Bool.or_assoc]

section Leaving

variable {w : ℕ → List ℕ} {g g' : FuzeClass} {t l l' : ℕ}

/-- The list of a group is moved at the first pair that hits since it was last moved. -/
theorem moves_iff (hg : g ≠ .alu) : moves ds k (held (cls ds) (moves ds) k) g = true ↔
    ∃ i < k, Hits ds g i k ∧ ∀ m, i < m → m < k → ¬moves ds m (held (cls ds) (moves ds) m) g = true := by
  rw [moves_waitList, if_neg hg, Bool.and_eq_true, decide_eq_true_iff, mustMove, List.any_eq_true]
  have hmem : ∀ i, i ∈ waitList ds k g ↔ cls ds i = some g ∧ i < k ∧
      ∀ m, i < m → m < k → ¬moves ds m (held (cls ds) (moves ds) m) g = true := by
    intro i
    rw [waitList, mem_held le_rfl]
    refine and_congr_right fun _ => and_congr_right fun _ => forall_congr' fun m => forall_congr' fun _ => ?_
    refine forall_congr' fun hmk => ?_
    rw [moved_of_lt hmk, Bool.not_eq_true]
  constructor
  · rintro ⟨hk, i, hi, hdrain⟩
    obtain ⟨hcls, hik, hno⟩ := (hmem i).1 hi
    exact ⟨i, hik, ⟨hcls, hk, hdrain⟩, hno⟩
  · rintro ⟨i, hik, ⟨hcls, hk, hdrain⟩, hno⟩
    exact ⟨hk, i, (hmem i).2 ⟨hcls, hik, hno⟩, hdrain⟩

theorem exists_moves_iff (hg : g ≠ .alu) :
    (∃ m, i < m ∧ m ≤ t ∧ moves ds m (held (cls ds) (moves ds) m) g = true) ↔ Emptied ds g i t :=
  exists_cut_iff fun _ => moves_iff hg

/-- Fusions are moved with every other list. -/
theorem moves_alu (hm : moves ds k (held (cls ds) (moves ds) k) g = true) :
    moves ds k (held (cls ds) (moves ds) k) .alu = true := by
  rw [moves_waitList, Bool.and_eq_true] at hm ⊢
  refine ⟨hm.1, ?_⟩
  have hm := hm.2
  cases g <;> simp_all

/-- And only with another list. -/
theorem exists_moves_of_alu (hm : moves ds k (held (cls ds) (moves ds) k) .alu = true) :
    ∃ g, g ≠ .alu ∧ moves ds k (held (cls ds) (moves ds) k) g = true := by
  have hall := @moves_waitList ds k
  rw [hall, Bool.and_eq_true, if_pos rfl, Bool.or_eq_true, Bool.or_eq_true] at hm
  obtain ⟨hk, (hL | hS) | hF⟩ := hm
  · exact ⟨.load, nofun, by rw [hall, hk, if_neg nofun, hL]; rfl⟩
  · exact ⟨.store, nofun, by rw [hall, hk, if_neg nofun, hS]; rfl⟩
  · exact ⟨.fpu, nofun, by rw [hall, hk, if_neg nofun, hF]; rfl⟩

/-- An instruction leaves at the first move of its list. -/
theorem leaves_le_of_moves (hl : Leaves (cls ds) (moves ds) ds.length i l) (hi : cls ds i = some g) (him : i < k)
    (hk : k < ds.length) (hm : moves ds k (held (cls ds) (moves ds) k) g = true) : l ≤ k := by
  obtain ⟨g', hg', -, -, -, hno⟩ := hl
  obtain rfl := Option.some.inj (hi.symm.trans hg')
  by_contra hlt
  have hnot := hno k him (by omega)
  rw [moved_of_lt hk, hm] at hnot
  cases hnot

theorem moves_of_leaves (hl : Leaves (cls ds) (moves ds) ds.length i l) (hi : cls ds i = some g) (hlt : l < ds.length) :
    i < l ∧ moves ds l (held (cls ds) (moves ds) l) g = true := by
  obtain ⟨g', hg', hil, -, hm, -⟩ := hl
  obtain rfl := Option.some.inj (hi.symm.trans hg')
  rw [moved_of_lt hlt] at hm
  exact ⟨hil, hm⟩

theorem leaves_le (hl : Leaves (cls ds) (moves ds) ds.length i l) : l ≤ ds.length := by
  obtain ⟨-, -, -, hle, -⟩ := hl
  exact hle

/-- **When a list is moved**: an instruction has left by `t` when its list is emptied up to `t`. -/
theorem leaves_le_iff (hg : g ≠ .alu) (hl : Leaves (cls ds) (moves ds) ds.length i l) (hi : cls ds i = some g)
    (ht : t < ds.length) : l ≤ t ↔ Emptied ds g i t := by
  rw [← exists_moves_iff hg]
  constructor
  · intro hlt
    obtain ⟨hil, hm⟩ := moves_of_leaves hl hi (by omega)
    exact ⟨l, hil, hlt, hm⟩
  · rintro ⟨m, him, hmt, hm⟩
    exact (leaves_le_of_moves hl hi him (by omega) hm).trans hmt

/-- A list of fusions is moved no later than a list in which an instruction waits behind it; and so is a
list with itself. -/
theorem leaves_le_leaves (hij : i < j) (hl : Leaves (cls ds) (moves ds) ds.length i l)
    (hl' : Leaves (cls ds) (moves ds) ds.length j l') (hi : cls ds i = some g) (hj : cls ds j = some g')
    (hg : g = .alu ∨ g = g') : l ≤ l' := by
  rcases Nat.lt_or_eq_of_le (leaves_le hl') with hlt | rfl
  · obtain ⟨hjl, hm⟩ := moves_of_leaves hl' hj hlt
    refine leaves_le_of_moves hl hi (hij.trans hjl) hlt ?_
    rcases hg with rfl | rfl
    · exact moves_alu hm
    · exact hm
  · exact leaves_le hl

/-- **Which of two lists is moved first.** -/
theorem leavesFirst_iff (hj : j < ds.length) (hl : Leaves (cls ds) (moves ds) ds.length i l)
    (hl' : Leaves (cls ds) (moves ds) ds.length j l') (hi : cls ds i = some g) (hj' : cls ds j = some g')
    (hg : g ≠ .alu) (hne : g ≠ g') : LeavesFirst ds i j g g' ↔ l < l' ∨ l = l' ∧ g.rank < g'.rank := by
  have hle := leaves_le hl'
  unfold LeavesFirst
  by_cases halu : g' = .alu
  · subst halu
    have hrank : ¬g.rank < FuzeClass.alu.rank := Nat.not_lt_zero _
    rw [if_pos rfl, ← leaves_le_iff hg hl hi hj]
    have hjl : j < l' := by
      obtain ⟨-, -, hjl, -⟩ := hl'
      exact hjl
    constructor
    · exact fun hlj => .inl (by omega)
    · rintro (hlt | ⟨-, h⟩)
      · -- otherwise the fusions would be moved with the list of `i`
        by_contra hjl'
        obtain ⟨-, hm⟩ := moves_of_leaves hl hi (by omega)
        have := leaves_le_of_moves hl' hj' (by omega) (by omega) (moves_alu hm)
        omega
      · exact absurd h hrank
  rw [if_neg halu]
  by_cases hrank : g.rank < g'.rank
  · rw [if_pos hrank]
    have hiff : (∀ t < ds.length, Emptied ds g' j t → Emptied ds g i t) ↔ l ≤ l' := by
      constructor
      · intro hall
        rcases Nat.lt_or_eq_of_le hle with hlt | rfl
        · exact (leaves_le_iff hg hl hi hlt).2 (hall l' hlt ((leaves_le_iff halu hl' hj' hlt).1 le_rfl))
        · exact leaves_le hl
      · intro hll t ht hemp
        exact (leaves_le_iff hg hl hi ht).1 (hll.trans ((leaves_le_iff halu hl' hj' ht).2 hemp))
    rw [hiff]
    constructor
    · intro hll
      exact (Nat.lt_or_eq_of_le hll).imp id fun h => ⟨h, hrank⟩
    · rintro (h | ⟨h, -⟩) <;> omega
  · rw [if_neg hrank]
    constructor
    · rintro ⟨t, ht, hemp, hno⟩
      rw [← leaves_le_iff hg hl hi ht] at hemp
      rw [← leaves_le_iff halu hl' hj' ht] at hno
      exact .inl (by omega)
    · rintro (hlt | ⟨-, h⟩)
      · have ht : l < ds.length := by omega
        refine ⟨l, ht, (leaves_le_iff hg hl hi ht).1 le_rfl, fun hemp => ?_⟩
        have := (leaves_le_iff halu hl' hj' ht).2 hemp
        omega
      · exact absurd h hrank

/-! ## The order of the batches -/

/-- What is left of the lists before instruction `k`, when the pending fusions are those of `w`. -/
def arranged (ds : List FuzeInst) (w : ℕ → List ℕ) (k : ℕ) (g : FuzeClass) : List ℕ :=
  if g = .alu then w k else waitList ds k g

/-- The pending fusions of `w` are the ALU operations and branches that wait. -/
def Fuses (ds : List FuzeInst) (w : ℕ → List ℕ) : Prop := ∀ k ≤ ds.length, (w k).Perm (waitList ds k .alu)

theorem Fuses.arranges (hw : Fuses ds w) : Arranges (cls ds) (moves ds) ds.length (arranged ds w) := by
  intro k hk g
  unfold arranged
  split
  · rename_i hg
    rw [hg]
    exact hw k hk
  · exact List.Perm.refl _

/-- The instructions in the order in which their lists are moved. -/
abbrev outOrder (ds : List FuzeInst) (w : ℕ → List ℕ) : List ℕ :=
  order (cls ds) (moves ds) drainOrder ds.length (arranged ds w)

/-- Dependent instructions that are fused are in order when they are moved together. -/
def FusedInOrder (ds : List FuzeInst) (w : ℕ → List ℕ) : Prop :=
  ∀ j < ds.length, ∀ i < j, Dependent ds i j → cls ds i = some .alu → cls ds j = some .alu →
    ∀ k, Leaves (cls ds) (moves ds) ds.length i k → Leaves (cls ds) (moves ds) ds.length j k → List.Sublist [i, j] (w k)

theorem nodup_waitList (k : ℕ) (g : FuzeClass) : (waitList ds k g).Nodup := (pairwise_held k g).1.imp fun h => h.ne

theorem sublist_waitList (hij : i < j) (hi : i ∈ waitList ds k g) (hj : j ∈ waitList ds k g) :
    List.Sublist [i, j] (waitList ds k g) := by
  refine (pair_sublist_or hi hj hij.ne).resolve_right fun hji => ?_
  have := List.pairwise_pair.1 ((pairwise_held k g).1.sublist hji)
  omega

/-- An instruction waits until it leaves. -/
theorem mem_waitList_of_leaves (hl : Leaves (cls ds) (moves ds) ds.length i l) (hi : cls ds i = some g) :
    i ∈ waitList ds l g := by
  obtain ⟨g', hg', hil, hle, -, hno⟩ := hl
  obtain rfl := Option.some.inj (hi.symm.trans hg')
  exact (mem_held hle).2 ⟨hi, hil, hno⟩

/-- **Two instructions** are in order when the list of the first is moved in time, or when they are fused
in order. -/
theorem pair_sublist_outOrder_iff (hw : Fuses ds w) (hij : i < j) (hj : j < ds.length)
    (hl : Leaves (cls ds) (moves ds) ds.length i l) (hl' : Leaves (cls ds) (moves ds) ds.length j l')
    (hi : cls ds i = some g) (hj' : cls ds j = some g') :
    List.Sublist [i, j] (outOrder ds w) ↔
      (g ≠ .alu → g ≠ g' → LeavesFirst ds i j g g') ∧ (g = .alu → g' = .alu → l = l' → List.Sublist [i, j] (w l)) := by
  rw [outOrder, pair_sublist_order_iff hw.arranges drainOrder_rank hij.ne (by omega) hj (mem_drainOrder g) (mem_drainOrder g')
    hi hj' hl hl']
  by_cases hne : g = g'
  · -- one list
    subst hne
    have hle := leaves_le_leaves hij hl hl' hi hj' (.inr rfl)
    have hlist : l = l' → (List.Sublist [i, j] (arranged ds w l g) ↔ (g = .alu → List.Sublist [i, j] (w l))) := by
      rintro rfl
      by_cases hg : g = .alu
      · simp [arranged, hg]
      · have hsub := sublist_waitList hij (mem_waitList_of_leaves hl hi) (mem_waitList_of_leaves hl' hj')
        simp [arranged, hg, hsub]
    constructor
    · rintro (hlt | ⟨heq, h | ⟨-, hsub⟩⟩)
      · exact ⟨fun _ h => absurd rfl h, fun _ _ h => by omega⟩
      · exact absurd h (lt_irrefl _)
      · exact ⟨fun _ h => absurd rfl h, fun hg _ _ => (hlist heq).1 hsub hg⟩
    · rintro ⟨-, hfused⟩
      rcases Nat.lt_or_eq_of_le hle with hlt | heq
      · exact .inl hlt
      · exact .inr ⟨heq, .inr ⟨rfl, (hlist heq).2 fun hg => hfused hg hg heq⟩⟩
  by_cases hg : g = .alu
  · -- fusions are moved ahead of other lists
    subst hg
    have hle := leaves_le_leaves hij hl hl' hi hj' (.inl rfl)
    have hrank : FuzeClass.alu.rank < g'.rank := by cases g' <;> first | exact absurd rfl hne | decide
    refine iff_of_true ?_ ⟨fun h => absurd rfl h, fun _ h => absurd h.symm hne⟩
    exact (Nat.lt_or_eq_of_le hle).imp id fun heq => ⟨heq, .inl hrank⟩
  · have hfirst := leavesFirst_iff hj hl hl' hi hj' hg hne
    constructor
    · intro h
      refine ⟨fun _ _ => hfirst.2 (h.imp_right fun ⟨heq, h⟩ => ⟨heq, h.resolve_right fun h => hne h.1⟩), ?_⟩
      exact fun h => absurd h hg
    · exact fun h => (hfirst.1 (h.1 hg hne)).imp_right fun ⟨heq, h⟩ => ⟨heq, .inl h⟩

/-- **The order of the batches keeps the program** exactly when no opcode is dropped, the lists are moved in
time and fusions are in order. -/
theorem keepsOrder_order_iff (hw : Fuses ds w) :
    KeepsOrder ds (outOrder ds w) ↔ Listed ds ∧ InTime ds ∧ FusedInOrder ds w := by
  have hleaves : ∀ {i g}, i < ds.length → cls ds i = some g → ∃ l, Leaves (cls ds) (moves ds) ds.length i l :=
    fun hi hg => exists_leaves hi hg
  constructor
  · rintro ⟨hperm, hdep⟩
    refine ⟨fun i hi hnone => ?_, fun j hj i hij hd c c' hc hc' => ?_, fun j hj i hij hd hc hc' k hk hk' => ?_⟩
    · have hmem := hperm.mem_iff.2 (List.mem_range.2 hi)
      obtain ⟨-, c, -, hc⟩ := (mem_order hw.arranges).1 hmem
      rw [hnone] at hc
      cases hc
    · obtain ⟨l, hl⟩ := hleaves (by omega) hc
      obtain ⟨l', hl'⟩ := hleaves hj hc'
      exact ((pair_sublist_outOrder_iff hw hij hj hl hl' hc hc').1 (hdep j hj i hij hd)).1
    · exact ((pair_sublist_outOrder_iff hw hij hj hk hk' hc hc').1 (hdep j hj i hij hd)).2 rfl rfl rfl
  · rintro ⟨hlisted, htime, hfused⟩
    refine ⟨?_, fun j hj i hij hd => ?_⟩
    · rw [List.perm_ext_iff_of_nodup (nodup_order hw.arranges drainOrder_rank) List.nodup_range]
      intro i
      rw [mem_order hw.arranges, List.mem_range]
      refine ⟨And.left, fun hi => ⟨hi, ?_⟩⟩
      obtain ⟨c, hc⟩ := Option.ne_none_iff_exists'.1 (hlisted i hi)
      exact ⟨c, mem_drainOrder c, hc⟩
    · obtain ⟨c, hc⟩ := Option.ne_none_iff_exists'.1 (hlisted i (by omega))
      obtain ⟨c', hc'⟩ := Option.ne_none_iff_exists'.1 (hlisted j hj)
      obtain ⟨l, hl⟩ := hleaves (by omega) hc
      obtain ⟨l', hl'⟩ := hleaves hj hc'
      refine (pair_sublist_outOrder_iff hw hij hj hl hl' hc hc').2 ⟨htime j hj i hij hd c c' hc hc', ?_⟩
      rintro rfl rfl rfl
      exact hfused j hj i hij hd hc hc' l hl hl'

end Leaving

/-- The order of the stream keeps the program. -/
theorem keepsOrder_range : KeepsOrder ds (List.range ds.length) := by
  refine ⟨List.Perm.refl _, fun j hj i hij _ => ?_⟩
  have hi : i ∈ List.range ds.length := List.mem_range.2 (by omega)
  refine (pair_sublist_or hi (List.mem_range.2 hj) hij.ne).resolve_right fun hsub => ?_
  have hlt := List.pairwise_pair.1 (List.pairwise_lt_range.sublist hsub)
  omega

/-! ## The baseline and naive modes -/

namespace MegaOpCluster

/-- Nothing waits but one fusion, and the instructions are in order. -/
structure InOrder (k : ℕ) (c : MegaOpCluster) : Prop where
  instrs : instrsOf (c.readyMegaOps ++ c.pendingFusions) = List.range k
  fusions : c.pendingFusions.length ≤ 1
  others : c.pendingLoads = [] ∧ c.pendingStores = [] ∧ c.pendingFPUs = []

theorem InOrder.finish (h : InOrder k c) : instrsOf c.finish = List.range k := by
  obtain ⟨hload, hstore, hfpu⟩ := h.others
  have hinstrs := h.instrs
  simpa [MegaOpCluster.finish, hload, hstore, hfpu] using hinstrs

theorem instrsOf_fuse (c : MegaOpCluster) (op : MegaOp) (h : c.pendingFusions.length ≤ 1) :
    instrsOf (c.fuse op).pendingFusions = instrsOf c.pendingFusions ++ op.instrs ∧
      (c.fuse op).pendingFusions.length ≤ 1 := by
  cases hf : c.pendingFusions with
  | nil => simp [fuse, hf]
  | cons f fs =>
    obtain rfl : fs = [] := by
      rw [hf, List.length_cons] at h
      exact List.length_eq_zero_iff.1 (by omega)
    simp [fuse, hf, MegaOp.addMegaOp]

theorem fuse_others (c : MegaOpCluster) (op : MegaOp) :
    c.fuse op = { c with pendingFusions := (c.fuse op).pendingFusions } := by
  unfold fuse
  split <;> rfl

theorem InOrder.baseline (h : InOrder k c) (hf : c.pendingFusions = []) :
    InOrder (k + 1) (c.baseline (megaOp ds k)) ∧ (c.baseline (megaOp ds k)).pendingFusions = [] := by
  have hinstrs := h.instrs
  rw [hf, List.append_nil] at hinstrs
  refine ⟨⟨?_, h.fusions, h.others⟩, hf⟩
  simp only [MegaOpCluster.baseline, hf, List.append_nil, instrsOf_append, hinstrs, List.range_succ]
  rfl

theorem InOrder.naive (h : InOrder k c) : InOrder (k + 1) (c.naive (megaOp ds k)) := by
  have hinstrs := h.instrs
  rw [instrsOf_append] at hinstrs
  unfold MegaOpCluster.naive
  split
  · obtain ⟨hfuse, hlen⟩ := instrsOf_fuse c (megaOp ds k) h.fusions
    have hothers := fuse_others c (megaOp ds k)
    rw [hothers]
    refine ⟨?_, hlen, h.others⟩
    simp only [instrsOf_append, hfuse]
    rw [← List.append_assoc, hinstrs, List.range_succ]
    rfl
  · split
    · rename_i hf
      rw [hf, instrsOf_nil, List.append_nil] at hinstrs
      refine ⟨?_, h.fusions, h.others⟩
      simp only [hf, List.append_nil, instrsOf_append, hinstrs, List.range_succ]
      rfl
    · rename_i f fs hf
      have hlen := h.fusions
      obtain rfl : fs = [] := by
        rw [hf, List.length_cons] at hlen
        exact List.length_eq_zero_iff.1 (by omega)
      rw [hf] at hinstrs
      refine ⟨?_, Nat.zero_le _, h.others⟩
      simp only [List.append_nil, instrsOf_append, hinstrs, List.range_succ]
      rfl

/-! ## The queue and dynamic modes -/

section Drains

variable (fresh : List MegaOp) {b : Bool}

theorem drainLoads_eq (c : MegaOpCluster) (hb : op.matchSrcs c.ldq_regs = b) : c.drainLoads fresh op =
    { c with
      readyMegaOps := if b then c.readyMegaOps ++ c.pendingFusions ++ c.pendingLoads else c.readyMegaOps
      pendingFusions := if b then fresh else c.pendingFusions
      pendingLoads := if b then [] else c.pendingLoads
      ldq_regs := if b then ∅ else c.ldq_regs } := by
  cases b <;> simp [drainLoads, hb]

theorem drainStores_eq (c : MegaOpCluster) (hb : op.matchDsts c.stq_regs = b) : c.drainStores fresh op =
    { c with
      readyMegaOps := if b then c.readyMegaOps ++ c.pendingFusions ++ c.pendingStores else c.readyMegaOps
      pendingFusions := if b then fresh else c.pendingFusions
      pendingStores := if b then [] else c.pendingStores
      stq_regs := if b then ∅ else c.stq_regs } := by
  cases b <;> simp [drainStores, hb]

theorem drainFPUs_eq (c : MegaOpCluster) (hb : (op.matchSrcs c.fpq_regs || op.matchDsts c.fpq_regs) = b) :
    c.drainFPUs fresh op =
      { c with
        readyMegaOps := if b then c.readyMegaOps ++ c.pendingFusions ++ c.pendingFPUs else c.readyMegaOps
        pendingFusions := if b then fresh else c.pendingFusions
        pendingFPUs := if b then [] else c.pendingFPUs
        fpq_regs := if b then ∅ else c.fpq_regs } := by
  cases b <;> simp [drainFPUs, hb]

/-- **What the three tests do**: each list that must be moved is, behind the pending fusions. -/
theorem drains_eq (c : MegaOpCluster) (op : MegaOp) (hfresh : instrsOf fresh = []) {bL bS bF : Bool}
    (hL : op.matchSrcs c.ldq_regs = bL) (hS : op.matchDsts c.stq_regs = bS)
    (hF : (op.matchSrcs c.fpq_regs || op.matchDsts c.fpq_regs) = bF) :
    ∃ ready, c.drains fresh op =
        { pendingFusions := if bL || bS || bF then fresh else c.pendingFusions
          pendingLoads := if bL then [] else c.pendingLoads
          pendingStores := if bS then [] else c.pendingStores
          pendingFPUs := if bF then [] else c.pendingFPUs
          readyMegaOps := ready
          ldq_regs := if bL then ∅ else c.ldq_regs
          stq_regs := if bS then ∅ else c.stq_regs
          fpq_regs := if bF then ∅ else c.fpq_regs } ∧
      instrsOf ready = instrsOf c.readyMegaOps ++
        ((if bL || bS || bF then instrsOf c.pendingFusions else []) ++ (if bL then instrsOf c.pendingLoads else []) ++
          (if bS then instrsOf c.pendingStores else []) ++ if bF then instrsOf c.pendingFPUs else []) := by
  -- each test is on a set that the tests before it leave alone
  have e1 := drainLoads_eq fresh c hL
  have e2 := drainStores_eq fresh (c.drainLoads fresh op) (b := bS) (by rw [e1]; exact hS)
  have e3 := drainFPUs_eq fresh ((c.drainLoads fresh op).drainStores fresh op) (b := bF)
    (by rw [e2, e1]; exact hF)
  rw [drains, e3, e2, e1]
  cases bL <;> cases bS <;> cases bF <;> exact ⟨_, rfl, by simp [hfresh]⟩

end Drains

/-- **What the cluster holds before instruction `k`**, when the pending fusions are those of `w`. -/
structure Tracks (ds : List FuzeInst) (w : ℕ → List ℕ) (k : ℕ) (c : MegaOpCluster) : Prop where
  ready : instrsOf c.readyMegaOps =
    (List.range k).flatMap (batch (cls ds) (moves ds) drainOrder ds.length (arranged ds w))
  fusions : instrsOf c.pendingFusions = w k
  loads : c.pendingLoads = (waitList ds k .load).map (megaOp ds)
  stores : c.pendingStores = (waitList ds k .store).map (megaOp ds)
  fpus : c.pendingFPUs = (waitList ds k .fpu).map (megaOp ds)
  ldq : ∀ r, r ∈ c.ldq_regs ↔ ∃ i ∈ waitList ds k .load, r ∈ (megaOp ds i).dsts
  stq : ∀ r, r ∈ c.stq_regs ↔ ∃ i ∈ waitList ds k .store, r ∈ (megaOp ds i).srcs
  fpq : ∀ r, r ∈ c.fpq_regs ↔ ∃ i ∈ waitList ds k .fpu, r ∈ (megaOp ds i).srcs ∪ (megaOp ds i).dsts

variable {w : ℕ → List ℕ}

theorem Tracks.init (hw : w 0 = []) : Tracks ds w 0 clear :=
  ⟨rfl, hw.symm, rfl, rfl, rfl, fun r => by simp [clear, waitList, held], fun r => by simp [clear, waitList, held],
    fun r => by simp [clear, waitList, held]⟩

theorem Tracks.tests (h : Tracks ds w k c) :
    (megaOp ds k).matchSrcs c.ldq_regs = mustMove ds k .load ∧ (megaOp ds k).matchDsts c.stq_regs = mustMove ds k .store ∧
      ((megaOp ds k).matchSrcs c.fpq_regs || (megaOp ds k).matchDsts c.fpq_regs) = mustMove ds k .fpu := by
  refine ⟨?_, ?_, ?_⟩
  · rw [Bool.eq_iff_iff, matchSrcs_iff, mustMove, List.any_eq_true]
    constructor
    · rintro ⟨r, hr, hq⟩
      obtain ⟨i, hi, hri⟩ := (h.ldq r).1 hq
      exact ⟨i, hi, matchSrcs_iff.2 ⟨r, hr, hri⟩⟩
    · rintro ⟨i, hi, hdrain⟩
      obtain ⟨r, hr, hri⟩ := matchSrcs_iff.1 hdrain
      exact ⟨r, hr, (h.ldq r).2 ⟨i, hi, hri⟩⟩
  · rw [Bool.eq_iff_iff, matchDsts_iff, mustMove, List.any_eq_true]
    constructor
    · rintro ⟨r, hr, hq⟩
      obtain ⟨i, hi, hri⟩ := (h.stq r).1 hq
      exact ⟨i, hi, matchDsts_iff.2 ⟨r, hr, hri⟩⟩
    · rintro ⟨i, hi, hdrain⟩
      obtain ⟨r, hr, hri⟩ := matchDsts_iff.1 hdrain
      exact ⟨r, hr, (h.stq r).2 ⟨i, hi, hri⟩⟩
  · rw [Bool.eq_iff_iff, Bool.or_eq_true, matchSrcs_iff, matchDsts_iff, mustMove, List.any_eq_true]
    constructor
    · rintro (⟨r, hr, hq⟩ | ⟨r, hr, hq⟩)
      · obtain ⟨i, hi, hri⟩ := (h.fpq r).1 hq
        exact ⟨i, hi, Bool.or_eq_true_iff.2 (.inl (matchSrcs_iff.2 ⟨r, hr, hri⟩))⟩
      · obtain ⟨i, hi, hri⟩ := (h.fpq r).1 hq
        exact ⟨i, hi, Bool.or_eq_true_iff.2 (.inr (matchDsts_iff.2 ⟨r, hr, hri⟩))⟩
    · rintro ⟨i, hi, hdrain⟩
      rcases Bool.or_eq_true_iff.1 hdrain with hsrc | hdst
      · obtain ⟨r, hr, hri⟩ := matchSrcs_iff.1 hsrc
        exact .inl ⟨r, hr, (h.fpq r).2 ⟨i, hi, hri⟩⟩
      · obtain ⟨r, hr, hri⟩ := matchDsts_iff.1 hdst
        exact .inr ⟨r, hr, (h.fpq r).2 ⟨i, hi, hri⟩⟩

theorem waitList_succ (g : FuzeClass) : waitList ds (k + 1) g =
    (if moves ds k (held (cls ds) (moves ds) k) g then [] else waitList ds k g) ++ if cls ds k = some g then [k] else [] :=
  rfl

theorem waitList_succ_of_lt (hk : k < ds.length) (g : FuzeClass) : waitList ds (k + 1) g =
    (if moved (cls ds) (moves ds) ds.length k g then [] else waitList ds k g) ++ if cls ds k = some g then [k] else [] := by
  rw [waitList_succ, moved_of_lt hk]

/-- Fusions wait as they are while another instruction comes. -/
theorem waitList_succ_of_not_alu (halu : cls ds k ≠ some .alu) : waitList ds (k + 1) .alu = waitList ds k .alu := by
  simp [waitList_succ, moves_waitList, halu]

/-- **The tests of an ALU operation or branch** move the lists of its batch. -/
theorem Tracks.drains (h : Tracks ds w k c) (hk : k < ds.length) (halu : cls ds k = some .alu) {fresh : List MegaOp}
    (hfresh : instrsOf fresh = []) :
    (∀ fusions, instrsOf fusions = w (k + 1) →
      Tracks ds w (k + 1) { c.drains fresh (megaOp ds k) with pendingFusions := fusions }) ∧
    (c.drains fresh (megaOp ds k)).pendingFusions =
      if moved (cls ds) (moves ds) ds.length k .alu then fresh else c.pendingFusions := by
  obtain ⟨hL, hS, hF⟩ := h.tests
  obtain ⟨ready, heq, hready⟩ := drains_eq fresh c (megaOp ds k) hfresh hL hS hF
  have hmoved : ∀ g, moved (cls ds) (moves ds) ds.length k g =
      if g = .alu then mustMove ds k .load || mustMove ds k .store || mustMove ds k .fpu else mustMove ds k g := by
    intro g
    rw [moved_of_lt hk, moves_waitList, halu]
    simp
  have hwait : ∀ g, g ≠ .alu → waitList ds (k + 1) g = if mustMove ds k g then [] else waitList ds k g := by
    intro g hg
    simp [waitList_succ, moves_waitList, halu, hg, Ne.symm hg]
  refine ⟨fun fusions hfusions => ?_, ?_⟩
  · rw [heq]
    refine ⟨?_, hfusions, ?_, ?_, ?_, fun r => ?_, fun r => ?_, fun r => ?_⟩
    · rw [List.range_succ, List.flatMap_append, ← h.ready]
      simp [hready, h.fusions, h.loads, h.stores, h.fpus, batch, drainOrder, hmoved, arranged]
    · rw [hwait .load (by decide), h.loads]
      dsimp only
      split <;> rfl
    · rw [hwait .store (by decide), h.stores]
      dsimp only
      split <;> rfl
    · rw [hwait .fpu (by decide), h.fpus]
      dsimp only
      split <;> rfl
    · rw [hwait .load (by decide)]
      dsimp only
      split
      · simp
      · exact h.ldq r
    · rw [hwait .store (by decide)]
      dsimp only
      split
      · simp
      · exact h.stq r
    · rw [hwait .fpu (by decide)]
      dsimp only
      split
      · simp
      · exact h.fpq r
  · rw [heq, hmoved .alu]
    rfl

/-- Another instruction goes to its list, or is dropped. -/
theorem Tracks.enqueue (h : Tracks ds w k c) (hk : k < ds.length) (halu : cls ds k ≠ some .alu) (hw : w (k + 1) = w k) :
    Tracks ds w (k + 1) (c.enqueue (megaOp ds k)) := by
  have hmoves : ∀ g, moves ds k (held (cls ds) (moves ds) k) g = false := by
    intro g
    rw [moves_waitList]
    simp [halu]
  have hwait : ∀ g, waitList ds (k + 1) g = waitList ds k g ++ if cls ds k = some g then [k] else [] := by
    intro g
    rw [waitList_succ, hmoves g]
    rfl
  have hbatch : batch (cls ds) (moves ds) drainOrder ds.length (arranged ds w) k = [] := by
    simp [batch, moved_of_lt hk, hmoves]
  have hready : instrsOf c.readyMegaOps =
      (List.range (k + 1)).flatMap (batch (cls ds) (moves ds) drainOrder ds.length (arranged ds w)) := by
    rw [List.range_succ, List.flatMap_append, List.flatMap_cons, List.flatMap_nil, hbatch, List.append_nil,
      List.append_nil]
    exact h.ready
  have hcls : fuzeClass (megaOp ds k).opcode = cls ds k := rfl
  unfold MegaOpCluster.enqueue
  rw [hcls]
  cases hg : cls ds k with
  | none =>
    have hwait : ∀ g, waitList ds (k + 1) g = waitList ds k g := fun g => by rw [hwait g, hg]; simp
    exact ⟨hready, by rw [hw]; exact h.fusions, by rw [hwait]; exact h.loads, by rw [hwait]; exact h.stores,
      by rw [hwait]; exact h.fpus, by rw [hwait]; exact h.ldq, by rw [hwait]; exact h.stq, by rw [hwait]; exact h.fpq⟩
  | some g =>
    rw [hg] at hwait
    cases g with
    | alu => exact absurd hg halu
    | load =>
      refine ⟨hready, ?_, ?_, ?_, ?_, fun r => ?_, fun r => ?_, fun r => ?_⟩
      all_goals simp [hw, hwait, h.fusions, h.loads, h.stores, h.fpus, h.ldq, h.stq, h.fpq, or_and_right, exists_or]
    | store =>
      refine ⟨hready, ?_, ?_, ?_, ?_, fun r => ?_, fun r => ?_, fun r => ?_⟩
      all_goals simp [hw, hwait, h.fusions, h.loads, h.stores, h.fpus, h.ldq, h.stq, h.fpq, or_and_right, exists_or]
    | fpu =>
      refine ⟨hready, ?_, ?_, ?_, ?_, fun r => ?_, fun r => ?_, fun r => ?_⟩
      all_goals simp [hw, hwait, h.fusions, h.loads, h.stores, h.fpus, h.ldq, h.stq, h.fpq, or_and_right, exists_or]

/-- **At the end** all lists are moved. -/
theorem Tracks.finish (h : Tracks ds w ds.length c) : instrsOf c.finish = outOrder ds w := by
  rw [outOrder, order, List.range_succ, List.flatMap_append, ← h.ready]
  simp [MegaOpCluster.finish, h.fusions, h.loads, h.stores, h.fpus, batch, drainOrder, moved, arranged]

/-- In the queue mode fusions keep the order of the stream. -/
def inStream (ds : List FuzeInst) (k : ℕ) : List ℕ := waitList ds k .alu

/-- **An instruction in the queue mode**: one fusion takes what it can. -/
theorem Tracks.queue (h : Tracks ds (inStream ds) k c) (hlen : c.pendingFusions.length ≤ 1) (hk : k < ds.length) :
    Tracks ds (inStream ds) (k + 1) (c.queue (megaOp ds k)) ∧ (c.queue (megaOp ds k)).pendingFusions.length ≤ 1 := by
  have hcls : fuzeClass (megaOp ds k).opcode = cls ds k := rfl
  unfold MegaOpCluster.queue
  rw [hcls]
  split
  · rename_i halu
    have hnone : instrsOf [MegaOp.empty .iAALU] = [] := rfl
    obtain ⟨htracks, hfusions⟩ := h.drains hk halu hnone
    have hlen' : ((c.drains [.empty .iAALU] (megaOp ds k)).pendingFusions).length ≤ 1 := by
      rw [hfusions]
      split
      · exact Nat.le_refl 1
      · exact hlen
    obtain ⟨hfuse, hone⟩ := instrsOf_fuse (c.drains [.empty .iAALU] (megaOp ds k)) (megaOp ds k) hlen'
    refine ⟨?_, hone⟩
    rw [fuse_others]
    refine htracks _ ?_
    rw [hfuse, hfusions, inStream, waitList_succ_of_lt hk, halu, if_pos rfl]
    congr 1
    split
    · rfl
    · exact h.fusions
  · rename_i halu
    have hsame : inStream ds (k + 1) = inStream ds k := waitList_succ_of_not_alu halu
    refine ⟨h.enqueue hk halu hsame, ?_⟩
    unfold MegaOpCluster.enqueue
    split <;> exact hlen

/-! ## Runs over the pending mega-ops -/

theorem pendingMegaOps_succ (k : ℕ) :
    (List.range (k + 1)).map (megaOp ds) = (List.range k).map (megaOp ds) ++ [megaOp ds k] := by
  rw [List.range_succ, List.map_append]
  rfl

theorem inOrder_baseline (k : ℕ) : InOrder k (((List.range k).map (megaOp ds)).foldl baseline clear) ∧
    (((List.range k).map (megaOp ds)).foldl baseline clear).pendingFusions = [] := by
  induction k with
  | zero => exact ⟨⟨rfl, Nat.zero_le _, rfl, rfl, rfl⟩, rfl⟩
  | succ k ih =>
    rw [pendingMegaOps_succ, List.foldl_append]
    exact ih.1.baseline ih.2

theorem inOrder_naive (k : ℕ) : InOrder k (((List.range k).map (megaOp ds)).foldl naive clear) := by
  induction k with
  | zero => exact ⟨rfl, Nat.zero_le _, rfl, rfl, rfl⟩
  | succ k ih =>
    rw [pendingMegaOps_succ, List.foldl_append]
    exact ih.naive

theorem tracks_queue (hk : k ≤ ds.length) : Tracks ds (inStream ds) k (((List.range k).map (megaOp ds)).foldl queue clear) ∧
    (((List.range k).map (megaOp ds)).foldl queue clear).pendingFusions.length ≤ 1 := by
  induction k with
  | zero => exact ⟨.init rfl, Nat.zero_le _⟩
  | succ k ih =>
    obtain ⟨htracks, hlen⟩ := ih (by omega)
    rw [pendingMegaOps_succ, List.foldl_append]
    exact htracks.queue hlen hk

theorem fuses_inStream : Fuses ds (inStream ds) := fun _ _ => List.Perm.refl _

/-- What the queue mode fuses is in order. -/
theorem fusedInOrder_inStream : FusedInOrder ds (inStream ds) := fun _ _ _ hij _ hi hj _ hl hl' =>
  sublist_waitList hij (mem_waitList_of_leaves hl hi) (mem_waitList_of_leaves hl' hj)

end MegaOpCluster

end Esesc.Core
