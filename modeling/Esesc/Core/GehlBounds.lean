import Esesc.Lib.Machine
import Esesc.Suc.CacheInv
import Esesc.Core.GehlIndex

/-!
# Which O-GEHL configurations stay in bounds (`BPOgehl` and `BPSOgehl` in `BPred.cpp`)

`predictC` is `predict` with every access of `pred`, `MINITAG`, `usedHistLength`, `histLength` and `T`, every shift by
a computed amount and every remainder checked; it has a result when all of them are fine. Three things go wrong in
configurations that the constructors accept:

* the adaptive history lengths write elements 6, 4 and 2 of `usedHistLength`, which has `mtables` elements;
* `geoidx` rotates by `logpred - FUNCT`, with `FUNCT` up to 4, and 2 for table 1, where `logpred` is one less;
* with `tsize = 2`, table 1 has no index bits: `geoidx` and `geoidx2` divide by 0.

* `trainC_eq`, `trainC_none`: training stays in bounds unless it changes the history lengths of less than 7 tables.
* `predictC_eq` (for both predictors): with lookups in bounds, the checked step is the unchecked one.
* `Switching.run_none`: mispredictions that count `AC` up to its limit, one for each step, and past it.
* `gehl_bounds_iff`: the configurations for which every sequence of branches stays in bounds.
-/

namespace Esesc.Core

open Esesc.Lib Esesc.Suc

/-- What the constructors accept; `tsize` is `2 ^ logtsize`. The history lengths are powers of a floating-point number,
rounded: here they are any lengths, but for the first two, which the constructors set. -/
structure GehlConfig where
  mtables : ℕ
  logtsize : ℕ
  tbits : ℕ
  tcbits : ℕ
  glength : ℕ
  histLength : ℕ → ℕ
  mtables_ok : 3 ≤ mtables ∧ mtables ≤ 32
  tsize_ok : 1 ≤ logtsize ∧ logtsize < 31
  tbits_ok : 1 ≤ tbits ∧ tbits ≤ 15
  tcbits_ok : 1 ≤ tcbits ∧ tcbits ≤ 15
  histLength_zero : histLength 0 = 0
  histLength_one : histLength 1 = 3

namespace Gehl

/-- The constructors. -/
def new (c : GehlConfig) : Gehl where
  mtables := c.mtables
  THETA := c.mtables
  MAXTHETA := 31
  THETAUP := 2 ^ (c.tcbits - 1)
  PREDUP := 2 ^ (c.tbits - 1)
  TC := 0
  AC := 0
  miniTag := 0
  MINITAG _ := 0
  histLength i := c.histLength i
  usedHistLength i := c.histLength i
  pred _ _ := 0

/-! ## Checked accesses -/

/-- The sum over the first `n` tables, and their indices. `index i m` computes the index of table `i` for the history
length `m`, with a scratch state. -/
def lookupsC {τ : Type} (logtsize : ℕ) (g : Gehl) (index : ℕ → ℕ → τ → Option (ℕ × τ)) :
    ℕ → τ → Option (ℤ × (ℕ → ℕ) × τ)
  | 0, t => some ((g.mtables / 2 : ℕ), fun _ => 0, t)
  | i + 1, t =>
    (lookupsC logtsize g index i t).bind fun r =>
      (rd g.mtables g.usedHistLength i).bind fun m =>
        (index i m.toNat r.2.2).bind fun x =>
          (rd g.mtables g.pred i).bind fun row =>
            (rd (2 ^ logtsize) row x.1).bind fun c => some (r.1 + c, Function.update r.2.1 i x.1, x.2)

/-- The counter after an outcome. -/
def bump (g : Gehl) (taken : Bool) (c : ℤ) : ℤ :=
  if taken then (if c < g.PREDUP - 1 then toChar (c + 1) else c) else (if c > -g.PREDUP then toChar (c - 1) else c)

/-- The counters of the first `n` tables move. -/
def updateTablesC (logtsize : ℕ) (g : Gehl) (iID : ℕ → ℕ) (taken : Bool) : ℕ → Option (ℕ → ℕ → ℤ)
  | 0 => some g.pred
  | i + 1 =>
    (updateTablesC logtsize g iID taken i).bind fun pred =>
      (rd g.mtables pred i).bind fun row =>
        (rd (2 ^ logtsize) row (iID i)).bind fun c =>
          (wr (2 ^ logtsize) row (iID i) (g.bump taken c)).bind fun row => wr g.mtables pred i row

/-- `usedHistLength[6] = histLength[j6]`, and so on for 4 and 2. -/
def setLengthsC (g : Gehl) (j6 j4 j2 : ℕ) : Option Gehl :=
  (rd (g.mtables + 3) g.histLength j6).bind fun l6 =>
    (wr g.mtables g.usedHistLength 6 l6).bind fun u =>
      (rd (g.mtables + 3) g.histLength j4).bind fun l4 =>
        (wr g.mtables u 4 l4).bind fun u =>
          (rd (g.mtables + 3) g.histLength j2).bind fun l2 =>
            (wr g.mtables u 2 l2).bind fun u => some { g with usedHistLength := u }

/-- The part of `updateLengths` after a misprediction. -/
def adaptC (logtsize : ℕ) (g : Gehl) (last : ℕ) (pcBit : ℤ) : Option Gehl :=
  (rd (2 ^ (logtsize - 1)) g.MINITAG (last / 2)).bind fun tag =>
    if tag ≠ pcBit then
      let g := { g with miniTag := tag, AC := g.AC - 4 }
      if g.AC < -256 then { g with AC := -256 }.setLengthsC 6 4 2 else some g
    else
      let g := { g with miniTag := tag, AC := g.AC + 1 }
      if g.AC > 256 - 1 then
        { g with AC := 256 - 1 }.setLengthsC (g.mtables + 2) (g.mtables + 1) g.mtables
      else some g

def updateLengthsC (logtsize : ℕ) (g : Gehl) (iID : ℕ → ℕ) (pcBit : ℤ) (miss : Bool) : Option Gehl :=
  let last := iID (g.mtables - 1)
  if last % 2 ≠ 0 then some g
  else
    (if !miss then some g else g.adaptC logtsize last pcBit).bind fun g =>
      (wr (2 ^ (logtsize - 1)) g.MINITAG (last / 2) pcBit).bind fun MINITAG => some { g with MINITAG }

def trainC (logtsize : ℕ) (g : Gehl) (iID : ℕ → ℕ) (S : ℤ) (taken : Bool) (pcBit : ℤ) : Option Gehl :=
  if g.trains S taken then
    ((g.updateTheta S taken).updateTablesC logtsize iID taken g.mtables).bind fun pred =>
      { g.updateTheta S taken with pred }.updateLengthsC logtsize iID pcBit (taken != decide (0 ≤ S))
  else some (g.updateTheta S taken)

/-- A step that changes the history lengths: a misprediction at an even index that brings `AC` past its limit. -/
def Switches (g : Gehl) (iID : ℕ → ℕ) (pcBit : ℤ) (miss : Bool) : Prop :=
  iID (g.mtables - 1) % 2 = 0 ∧ miss = true ∧
    if g.MINITAG (iID (g.mtables - 1) / 2) ≠ pcBit then g.AC - 4 < -256 else g.AC + 1 > 256 - 1

/-! ## Lookups -/

section Lookups

variable {τ : Type} {logtsize n i : ℕ} {g : Gehl} {index : ℕ → ℕ → τ → Option (ℕ × τ)} {x : ℕ → ℕ}

/-- **Lookups in bounds** compute the sum and the indices. -/
theorem lookupsC_eq (hn : n ≤ g.mtables)
    (hindex : ∀ i < n, ∀ t, ∃ t', index i (g.usedHistLength i).toNat t = some (x i, t')) (hx : ∀ i < n, x i < 2 ^ logtsize)
    (t : τ) :
    ∃ iID t', lookupsC logtsize g index n t =
        some ((List.range n).foldl (fun S i => S + g.pred i (x i)) (g.mtables / 2 : ℕ), iID, t') ∧
      ∀ i < n, iID i = x i := by
  induction n with
  | zero => exact ⟨fun _ => 0, t, rfl, fun i hi => absurd hi (Nat.not_lt_zero i)⟩
  | succ n ih =>
    obtain ⟨iID, t', hlook, hiID⟩ := ih (by omega) (fun i hi => hindex i (by omega)) (fun i hi => hx i (by omega))
    obtain ⟨t'', ht''⟩ := hindex n (by omega) t'
    refine ⟨Function.update iID n (x n), t'', ?_, fun i hi => ?_⟩
    · rw [lookupsC, hlook, Option.bind_some, rd_of_lt (by omega), Option.bind_some]
      simp only
      rw [ht'', Option.bind_some, rd_of_lt (by omega), Option.bind_some, rd_of_lt (hx n (by omega)), Option.bind_some,
        List.range_succ, List.foldl_append]
      rfl
    · rcases Nat.lt_or_eq_of_le (Nat.le_of_lt_succ hi) with hlt | rfl
      · rw [Function.update_of_ne (by omega), hiID i hlt]
      · exact Function.update_self _ _ _

/-- One index that cannot be computed, and there is no prediction. -/
theorem lookupsC_none (hi : i < n) (hn : n ≤ g.mtables) (hindex : ∀ t, index i (g.usedHistLength i).toNat t = none)
    (t : τ) : lookupsC logtsize g index n t = none := by
  induction n with
  | zero => omega
  | succ n ih =>
    rw [lookupsC]
    rcases Nat.lt_or_eq_of_le (Nat.le_of_lt_succ hi) with hlt | rfl
    · rw [ih hlt (by omega)]
      rfl
    · cases lookupsC logtsize g index i t with
      | none => rfl
      | some r =>
        rw [Option.bind_some, rd_of_lt (by omega), Option.bind_some, hindex]
        rfl

end Lookups

/-! ## Training -/

section Training

variable {logtsize n : ℕ} {g : Gehl} {iID : ℕ → ℕ} {S pcBit : ℤ} {taken miss : Bool}

theorem updateTablesC_eq (hn : n ≤ g.mtables) (hiID : ∀ i < n, iID i < 2 ^ logtsize) :
    updateTablesC logtsize g iID taken n =
      some ((List.range n).foldl
        (fun pred i => Function.update pred i (Function.update (pred i) (iID i) (g.bump taken (pred i (iID i))))) g.pred) := by
  induction n with
  | zero => rfl
  | succ n ih =>
    have hlast := hiID n (Nat.lt_succ_self n)
    rw [updateTablesC, ih (by omega) fun i hi => hiID i (by omega), Option.bind_some, rd_of_lt (by omega), Option.bind_some,
      rd_of_lt hlast, Option.bind_some, wr_of_lt hlast, Option.bind_some, wr_of_lt (by omega), List.range_succ,
      List.foldl_append]
    rfl

/-- `updateTables`, checked. -/
theorem updateTablesC_all (hiID : ∀ i < g.mtables, iID i < 2 ^ logtsize) :
    updateTablesC logtsize g iID taken g.mtables = some (g.updateTables iID taken).pred :=
  updateTablesC_eq le_rfl hiID

theorem setLengthsC_eq (hm : 7 ≤ g.mtables) {j6 j4 j2 : ℕ} (h6 : j6 < g.mtables + 3) (h4 : j4 < g.mtables + 3)
    (h2 : j2 < g.mtables + 3) :
    g.setLengthsC j6 j4 j2 = some (g.setLengths (g.histLength j6) (g.histLength j4) (g.histLength j2)) := by
  rw [setLengthsC, rd_of_lt h6, Option.bind_some, wr_of_lt (by omega), Option.bind_some, rd_of_lt h4, Option.bind_some,
    wr_of_lt (by omega), Option.bind_some, rd_of_lt h2, Option.bind_some, wr_of_lt (by omega)]
  rfl

theorem setLengthsC_none (hm : g.mtables < 7) (j6 j4 j2 : ℕ) : g.setLengthsC j6 j4 j2 = none := by
  rw [setLengthsC]
  cases rd (g.mtables + 3) g.histLength j6 with
  | none => rfl
  | some l6 =>
    rw [Option.bind_some, wr_of_ge (by omega)]
    rfl

/-- The tags of the last table have room for its index. -/
theorem half_lt {last : ℕ} (hlog : 1 ≤ logtsize) (h : last < 2 ^ logtsize) : last / 2 < 2 ^ (logtsize - 1) := by
  obtain ⟨k, rfl⟩ : ∃ k, logtsize = k + 1 := ⟨logtsize - 1, by omega⟩
  rw [Nat.pow_succ] at h
  rw [Nat.add_sub_cancel]
  omega

/-- What a misprediction makes of the history lengths. -/
def adapt (g : Gehl) (last : ℕ) (pcBit : ℤ) : Gehl :=
  if g.MINITAG (last / 2) ≠ pcBit then
    let g := { g with miniTag := g.MINITAG (last / 2), AC := g.AC - 4 }
    if g.AC < -256 then { g.setLengths (g.histLength 6) (g.histLength 4) (g.histLength 2) with AC := -256 } else g
  else
    let g := { g with miniTag := g.MINITAG (last / 2), AC := g.AC + 1 }
    if g.AC > 256 - 1 then
      { g.setLengths (g.histLength (g.mtables + 2)) (g.histLength (g.mtables + 1)) (g.histLength g.mtables) with
        AC := 256 - 1 }
    else g

theorem adaptC_eq {last : ℕ} (hhalf : last / 2 < 2 ^ (logtsize - 1))
    (hok : 7 ≤ g.mtables ∨ ¬if g.MINITAG (last / 2) ≠ pcBit then g.AC - 4 < -256 else g.AC + 1 > 256 - 1) :
    g.adaptC logtsize last pcBit = some (g.adapt last pcBit) := by
  rw [adaptC, rd_of_lt hhalf, Option.bind_some, adapt]
  by_cases htag : g.MINITAG (last / 2) ≠ pcBit
  · rw [if_pos htag] at hok
    rw [if_pos htag, if_pos htag]
    by_cases hac : g.AC - 4 < -256
    · have hm : 7 ≤ g.mtables := hok.resolve_right (not_not.2 hac)
      simp only [if_pos hac]
      exact setLengthsC_eq (g := { g with miniTag := g.MINITAG (last / 2), AC := -256 }) hm
        (show 6 < g.mtables + 3 by omega) (show 4 < g.mtables + 3 by omega) (show 2 < g.mtables + 3 by omega)
    · simp only [if_neg hac]
  · rw [if_neg htag] at hok
    rw [if_neg htag, if_neg htag]
    by_cases hac : g.AC + 1 > 256 - 1
    · have hm : 7 ≤ g.mtables := hok.resolve_right (not_not.2 hac)
      simp only [if_pos hac]
      exact setLengthsC_eq (g := { g with miniTag := g.MINITAG (last / 2), AC := 256 - 1 }) hm
        (show g.mtables + 2 < g.mtables + 3 by omega) (show g.mtables + 1 < g.mtables + 3 by omega)
        (show g.mtables < g.mtables + 3 by omega)
    · simp only [if_neg hac]

/-- **The history lengths, checked**: they stay in bounds with 7 tables, or if they do not change. -/
theorem updateLengthsC_eq (hlog : 1 ≤ logtsize) (hlast : iID (g.mtables - 1) < 2 ^ logtsize)
    (hok : 7 ≤ g.mtables ∨ ¬g.Switches iID pcBit miss) :
    g.updateLengthsC logtsize iID pcBit miss = some (g.updateLengths iID pcBit miss) := by
  have hhalf := half_lt hlog hlast
  unfold updateLengthsC updateLengths
  by_cases hodd : iID (g.mtables - 1) % 2 ≠ 0
  · simp only [if_pos hodd]
  · simp only [if_neg hodd]
    cases miss with
    | false =>
      simp only [Bool.not_false, if_true]
      rw [Option.bind_some, wr_of_lt hhalf, Option.bind_some]
    | true =>
      have hadapt := adaptC_eq hhalf (hok.imp_right fun hsw hac => hsw ⟨by omega, rfl, hac⟩)
      simp only [Bool.not_true, Bool.false_eq_true, if_false]
      rw [hadapt, Option.bind_some, wr_of_lt hhalf, Option.bind_some]
      rfl

theorem updateLengthsC_none (hm : g.mtables < 7) (hsw : g.Switches iID pcBit miss) :
    g.updateLengthsC logtsize iID pcBit miss = none := by
  obtain ⟨heven, rfl, hac⟩ := hsw
  have hadapt : g.adaptC logtsize (iID (g.mtables - 1)) pcBit = none := by
    rw [adaptC]
    by_cases hhalf : iID (g.mtables - 1) / 2 < 2 ^ (logtsize - 1)
    · rw [rd_of_lt hhalf, Option.bind_some]
      split at hac
      · rename_i htag
        simp only [if_pos htag, if_pos hac]
        exact setLengthsC_none (by exact hm) _ _ _
      · rename_i htag
        simp only [if_neg htag, if_pos hac]
        exact setLengthsC_none (by exact hm) _ _ _
    · rw [rd, if_neg hhalf]
      rfl
  unfold updateLengthsC
  simp only [heven, ne_eq, not_true_eq_false, if_false, Bool.not_true, Bool.false_eq_true]
  rw [hadapt]
  rfl

/-- The threshold does not touch the rest. -/
theorem updateTheta_keep (g : Gehl) (S : ℤ) (taken : Bool) :
    ∃ THETA TC, g.updateTheta S taken = { g with THETA, TC } := by
  unfold updateTheta
  simp only
  split
  · split
    · split <;> exact ⟨_, _, rfl⟩
    · exact ⟨_, _, rfl⟩
  · split
    · split
      · split <;> exact ⟨_, _, rfl⟩
      · exact ⟨_, _, rfl⟩
    · exact ⟨_, _, rfl⟩

/-- The tables only have the indices of their own. -/
theorem updateTables_congr {iID' : ℕ → ℕ} (h : ∀ i < g.mtables, iID i = iID' i) (taken : Bool) :
    g.updateTables iID taken = g.updateTables iID' taken := by
  unfold updateTables
  congr 1
  refine List.foldl_ext _ _ _ fun pred i hi => ?_
  rw [h i (List.mem_range.1 hi)]

theorem train_congr {iID' : ℕ → ℕ} (hpos : 0 < g.mtables) (h : ∀ i < g.mtables, iID i = iID' i) (S : ℤ) (taken : Bool)
    (pcBit : ℤ) : g.train iID S taken pcBit = g.train iID' S taken pcBit := by
  obtain ⟨THETA, TC, htheta⟩ := updateTheta_keep g S taken
  unfold train
  rw [htheta, updateTables_congr (g := { g with THETA, TC }) h]
  unfold updateLengths
  rw [show iID ((updateTables { g with THETA, TC } iID' taken).mtables - 1) =
    iID' ((updateTables { g with THETA, TC } iID' taken).mtables - 1) from h (g.mtables - 1) (by omega)]

/-- **Training, checked**: it stays in bounds with 7 tables, or if it does not change the history lengths. -/
theorem trainC_eq (hlog : 1 ≤ logtsize) (hpos : 0 < g.mtables) (hiID : ∀ i < g.mtables, iID i < 2 ^ logtsize)
    (hok : 7 ≤ g.mtables ∨ ¬g.Switches iID pcBit (taken != decide (0 ≤ S))) :
    g.trainC logtsize iID S taken pcBit = some (g.train iID S taken pcBit) := by
  obtain ⟨THETA, TC, htheta⟩ := updateTheta_keep g S taken
  unfold trainC train
  split
  · rw [htheta]
    have htables : updateTablesC logtsize { g with THETA, TC } iID taken g.mtables =
        some (updateTables { g with THETA, TC } iID taken).pred := updateTablesC_all hiID
    rw [htables, Option.bind_some]
    exact updateLengthsC_eq (g := { g with THETA, TC, pred := (updateTables { g with THETA, TC } iID taken).pred }) hlog
      (hiID (g.mtables - 1) (by omega)) hok
  · rfl

theorem trainC_none (hm : g.mtables < 7) (htrains : g.trains S taken = true)
    (hsw : g.Switches iID pcBit (taken != decide (0 ≤ S))) : g.trainC logtsize iID S taken pcBit = none := by
  obtain ⟨THETA, TC, htheta⟩ := updateTheta_keep g S taken
  unfold trainC
  rw [if_pos htrains, htheta]
  show ((updateTablesC logtsize { g with THETA, TC } iID taken g.mtables).bind _) = none
  cases updateTablesC logtsize { g with THETA, TC } iID taken g.mtables with
  | none => rfl
  | some pred => exact updateLengthsC_none (g := { g with THETA, TC, pred }) hm hsw

/-- What training leaves. -/
theorem train_mtables (g : Gehl) (iID : ℕ → ℕ) (S : ℤ) (taken : Bool) (pcBit : ℤ) :
    (g.train iID S taken pcBit).mtables = g.mtables := by
  obtain ⟨THETA, TC, htheta⟩ := updateTheta_keep g S taken
  unfold train
  split
  · rw [htheta]
    unfold updateLengths
    simp only
    split
    · rfl
    · split
      · rfl
      · split
        · split <;> rfl
        · split <;> rfl
  · rw [htheta]

theorem miss_of_against (ptaken : Bool) : ((!ptaken) != ptaken) = true := by
  cases ptaken <;> rfl

/-- A misprediction always trains. -/
theorem trains_of_miss (g : Gehl) (S : ℤ) : g.trains S (!decide (0 ≤ S)) = true := by
  unfold trains
  cases decide (0 ≤ S) <;> rfl

/-- The tags of the last table are those of even addresses, and `AC` has counted to `k`. -/
structure Counted (g : Gehl) (k : ℕ) : Prop where
  ac : g.AC = k
  tags : ∀ x, g.MINITAG x = 0

/-- **One more misprediction** at an even index and an even address counts `AC` up. -/
theorem Counted.train {k : ℕ} (h : Counted g k) (hk : k < 255) (heven : iID (g.mtables - 1) % 2 = 0) (S : ℤ) :
    Counted (g.train iID S (!decide (0 ≤ S)) 0) (k + 1) := by
  obtain ⟨THETA, TC, htheta⟩ := updateTheta_keep g S (!decide (0 ≤ S))
  have hac := h.ac
  rw [Gehl.train, if_pos (trains_of_miss g S), htheta, miss_of_against]
  unfold updateLengths
  simp only [Bool.not_true, Bool.false_eq_true, if_false]
  rw [if_neg (by show ¬iID (g.mtables - 1) % 2 ≠ 0; omega)]
  have htag : ¬(updateTables { g with THETA, TC } iID (!decide (0 ≤ S))).MINITAG
      (iID ((updateTables { g with THETA, TC } iID (!decide (0 ≤ S))).mtables - 1) / 2) ≠ 0 := not_not.2 (h.tags _)
  have hlow : ¬(updateTables { g with THETA, TC } iID (!decide (0 ≤ S))).AC + 1 > 256 - 1 := by
    show ¬g.AC + 1 > 256 - 1
    omega
  rw [if_neg htag, if_neg hlow]
  refine ⟨?_, fun x => ?_⟩
  · show g.AC + 1 = ((k + 1 : ℕ) : ℤ)
    omega
  · show Function.update g.MINITAG _ 0 x = 0
    rw [Function.update_apply]
    split
    · rfl
    · exact h.tags x

/-- The last one changes the history lengths. -/
theorem Counted.switches (h : Counted g 255) (heven : iID (g.mtables - 1) % 2 = 0) : g.Switches iID 0 true := by
  refine ⟨heven, rfl, ?_⟩
  rw [if_neg (not_not.2 (h.tags _)), h.ac]
  decide

theorem new_counted (c : GehlConfig) : Counted (new c) 0 := ⟨rfl, fun _ => rfl⟩

end Training

end Gehl

/-- The branch at `pc` that goes against the prediction. -/
def against (pc : AddrType) (ptaken : Bool) : CtrlInst := ⟨pc, if ptaken then 0 else 4, ⟨.iBALU_LBRANCH, 0, 0, 0, 0⟩⟩

theorem against_isTaken (pc : AddrType) (ptaken : Bool) : (against pc ptaken).isTaken = !ptaken := by
  cases ptaken <;> rfl

/-! ## Runs up to a change of the history lengths -/

section Runs

variable {σ : Type} {step : σ → CtrlInst × Bool → Option σ} {gehl : σ → Gehl} {iID : σ → CtrlInst → ℕ → ℕ} {Inv : σ → Prop}

/-- **A predictor** of less than 7 tables, with its lookups in bounds: some branch at an even address is mispredicted, an
update trains the tables as long as it does not change the history lengths, and fails when it does. -/
structure Switching (step : σ → CtrlInst × Bool → Option σ) (gehl : σ → Gehl) (iID : σ → CtrlInst → ℕ → ℕ) (Inv : σ → Prop) :
    Prop where
  exists_miss : ∀ s, Inv s → ∃ d : CtrlInst, d.inst.isJump = false ∧
    d.isTaken = (!decide (0 ≤ (gehl s).sum (iID s d))) ∧ d.pcBit = 0 ∧ iID s d ((gehl s).mtables - 1) % 2 = 0
  trains : ∀ s d, Inv s → d.inst.isJump = false →
    ¬(gehl s).Switches (iID s d) d.pcBit (d.isTaken != decide (0 ≤ (gehl s).sum (iID s d))) →
    ∃ s', step s (d, true) = some s' ∧ Inv s' ∧
      gehl s' = (gehl s).train (iID s d) ((gehl s).sum (iID s d)) d.isTaken d.pcBit
  fails : ∀ s d, Inv s → d.inst.isJump = false → d.isTaken = (!decide (0 ≤ (gehl s).sum (iID s d))) →
    (gehl s).Switches (iID s d) d.pcBit true → step s (d, true) = none

namespace Switching

variable {s : σ} {k : ℕ}

/-- **Mispredictions.** `AC` can be counted up to its limit. -/
theorem reach_ac (h : Switching step gehl iID Inv) (hs : Inv s) (hcount : (gehl s).Counted 0) (hk : k ≤ 255) :
    ∃ ops s', run step s ops = some s' ∧ Inv s' ∧ (gehl s').Counted k := by
  induction k with
  | zero => exact ⟨[], s, rfl, hs, hcount⟩
  | succ k ih =>
    obtain ⟨ops, t, hrun, ht, hcount⟩ := ih (by omega)
    obtain ⟨d, hjump, htaken, hbit, hidx⟩ := h.exists_miss t ht
    have hnot : ¬(gehl t).Switches (iID t d) d.pcBit (d.isTaken != decide (0 ≤ (gehl t).sum (iID t d))) := by
      rintro ⟨-, -, hac⟩
      rw [hbit, if_neg (not_not.2 (hcount.tags _)), hcount.ac] at hac
      omega
    obtain ⟨u, hstep, hu, htrain⟩ := h.trains t d ht hjump hnot
    refine ⟨ops ++ [(d, true)], u, ?_, hu, ?_⟩
    · rw [run_append, hrun, Option.bind_some, run, hstep]
      rfl
    · rw [htrain, htaken, hbit]
      exact hcount.train (by omega) hidx _

/-- 255 mispredictions, and one more. -/
theorem run_none (h : Switching step gehl iID Inv) (hs : Inv s) (hcount : (gehl s).Counted 0) :
    ∃ ops, run step s ops = none := by
  obtain ⟨ops, t, hrun, ht, hcount⟩ := h.reach_ac hs hcount (le_refl 255)
  obtain ⟨d, hjump, htaken, hbit, hidx⟩ := h.exists_miss t ht
  have hfail : step t (d, true) = none := by
    apply h.fails t d ht hjump htaken
    rw [hbit]
    exact hcount.switches hidx
  refine ⟨ops ++ [(d, true)], ?_⟩
  rw [run_append, hrun, Option.bind_some, run, hfail]
  rfl

end Switching

end Runs

/-! ## `BPOgehl` -/

namespace BPOgehl

/-- The constructor. -/
def new (c : GehlConfig) (btb : BPBTB) : BPOgehl where
  btb := btb
  gehl := .new c
  glength := c.glength
  nentry := 3
  addwidth := 8
  logpred := c.logtsize
  ghist _ := 0

/-- The predictor with its scratch array. -/
structure Scratch where
  p : BPOgehl
  T : ℕ → ℕ

/-- The index of table `i`, checked. -/
def indexC (p : BPOgehl) (d : CtrlInst) (i m : ℕ) (T : ℕ → ℕ) : Option (ℕ × (ℕ → ℕ)) :=
  geoidxC (p.nentry * p.logpred + 1) p.nentry p.addwidth (if i = 1 then p.logpred - 1 else p.logpred) (d.pc >>> 2) p.ghist m
    (i % 4 + 1) T

/-- `predict`, checked. -/
def predictC (s : Scratch) (d : CtrlInst) (doUpdate : Bool) : Option Scratch :=
  if d.inst.isJump then some { s with p := { s.p with btb := (s.p.btb.predict d doUpdate).2 } }
  else
    (s.p.gehl.lookupsC s.p.logpred (s.p.indexC d) s.p.gehl.mtables s.T).bind fun r =>
      let btb := (resolve s.p.btb d (decide (0 ≤ r.1)) doUpdate).2
      if doUpdate then
        (s.p.gehl.trainC s.p.logpred r.2.1 r.1 d.isTaken d.pcBit).bind fun gehl =>
          some ⟨{ s.p with btb, gehl, ghist := s.p.shiftHist d.isTaken }, r.2.2⟩
      else some ⟨{ s.p with btb }, r.2.2⟩

/-- What the configuration fixes. -/
structure Shape (c : GehlConfig) (p : BPOgehl) : Prop where
  mtables : p.gehl.mtables = c.mtables
  logpred : p.logpred = c.logtsize
  nentry : p.nentry = 3
  addwidth : p.addwidth = 8

/-- No table is rotated by more bits than its index has. -/
def Rotates (c : GehlConfig) : Prop :=
  ∀ i < c.mtables, i % 4 + 1 ≤ if i = 1 then c.logtsize - 1 else c.logtsize

variable {c : GehlConfig} {s : Scratch} {d : CtrlInst}

theorem rotates_of_le (h : 4 ≤ c.logtsize) : Rotates c := by
  intro i _
  split <;> omega

theorem Rotates.le (h : Rotates c) : 3 ≤ c.logtsize := by
  have := h 2 (by have := c.mtables_ok; omega)
  rw [if_neg (by decide)] at this
  omega

/-- **Lookups.** They are in bounds when no rotation is negative. -/
theorem lookups_eq (hs : Shape c s.p) (hrot : Rotates c) (d : CtrlInst) :
    ∃ iID T, s.p.gehl.lookupsC s.p.logpred (s.p.indexC d) s.p.gehl.mtables s.T =
        some (s.p.gehl.sum (s.p.iID d), iID, T) ∧
      (∀ i < c.mtables, iID i = s.p.iID d i) ∧ ∀ i < c.mtables, s.p.iID d i < 2 ^ c.logtsize := by
  have hlog := hrot.le
  have htsize := c.tsize_ok
  have hwidth : ∀ i, (if i = 1 then s.p.logpred - 1 else s.p.logpred) ≤ c.logtsize ∧
      0 < (if i = 1 then s.p.logpred - 1 else s.p.logpred) := by
    intro i
    rw [hs.logpred]
    split <;> omega
  have hfunct : ∀ i < c.mtables, i % 4 + 1 ≤ if i = 1 then s.p.logpred - 1 else s.p.logpred := by
    intro i hi
    rw [hs.logpred]
    exact hrot i hi
  have hindex : ∀ i < s.p.gehl.mtables, ∀ T, ∃ T', s.p.indexC d i (s.p.gehl.usedHistLength i).toNat T =
      some (s.p.iID d i, T') := by
    intro i hi T
    obtain ⟨hle, hpos⟩ := hwidth i
    unfold indexC iID
    rw [hs.nentry, hs.addwidth]
    have hroom := hs.logpred
    exact geoidxC_eq hpos (by decide) (by omega) (hfunct i (by rw [← hs.mtables]; exact hi))
  have hlt : ∀ i < c.mtables, s.p.iID d i < 2 ^ c.logtsize := by
    intro i hi
    obtain ⟨hle, hpos⟩ := hwidth i
    unfold iID
    rw [hs.nentry, hs.addwidth]
    refine lt_of_lt_of_le (geoidx_lt hpos (by omega) (hfunct i hi)) ?_
    exact Nat.pow_le_pow_right (by decide) hle
  have hin : ∀ i < s.p.gehl.mtables, s.p.iID d i < 2 ^ s.p.logpred := by
    intro i hi
    rw [hs.logpred]
    exact hlt i (by rw [← hs.mtables]; exact hi)
  obtain ⟨iID, T, hlook, hiID⟩ := Gehl.lookupsC_eq le_rfl hindex hin s.T
  exact ⟨iID, T, hlook, fun i hi => hiID i (by rw [hs.mtables]; exact hi), hlt⟩

/-- The update of a branch, when lookups are in bounds and the history lengths of less than 7 tables stay. -/
theorem predictC_update (hs : Shape c s.p) (hrot : Rotates c) (hjump : d.inst.isJump = false)
    (hok : 7 ≤ c.mtables ∨
      ¬s.p.gehl.Switches (s.p.iID d) d.pcBit (d.isTaken != decide (0 ≤ s.p.gehl.sum (s.p.iID d)))) :
    ∃ T, predictC s d true = some ⟨{ s.p with
      btb := (resolve s.p.btb d (decide (0 ≤ s.p.gehl.sum (s.p.iID d))) true).2
      gehl := s.p.gehl.train (s.p.iID d) (s.p.gehl.sum (s.p.iID d)) d.isTaken d.pcBit
      ghist := s.p.shiftHist d.isTaken }, T⟩ := by
  have htsize := c.tsize_ok
  have hmtables := c.mtables_ok
  obtain ⟨iID, T, hlook, hiID, hlt⟩ := lookups_eq hs hrot d
  have hsame : ∀ i < s.p.gehl.mtables, iID i = s.p.iID d i := fun i hi => hiID i (by rw [← hs.mtables]; exact hi)
  have hpos : 0 < s.p.gehl.mtables := by rw [hs.mtables]; omega
  have hsw : 7 ≤ s.p.gehl.mtables ∨
      ¬s.p.gehl.Switches iID d.pcBit (d.isTaken != decide (0 ≤ s.p.gehl.sum (s.p.iID d))) := by
    rw [hs.mtables]
    unfold Gehl.Switches
    rw [hsame _ (by omega)]
    exact hok
  have hin : ∀ i < s.p.gehl.mtables, iID i < 2 ^ s.p.logpred := by
    intro i hi
    rw [hsame i hi, hs.logpred]
    exact hlt i (by rw [← hs.mtables]; exact hi)
  have hlog : 1 ≤ s.p.logpred := by rw [hs.logpred]; omega
  refine ⟨T, ?_⟩
  unfold predictC
  rw [if_neg (by rw [hjump]; exact Bool.false_ne_true), hlook, Option.bind_some]
  simp only [if_true]
  rw [Gehl.trainC_eq hlog hpos hin hsw, Option.bind_some, Gehl.train_congr hpos hsame]

/-- **The checked step is the unchecked one.** -/
theorem predictC_eq (hs : Shape c s.p) (hrot : Rotates c) {doUpdate : Bool}
    (hok : doUpdate = true → 7 ≤ c.mtables ∨
      ¬s.p.gehl.Switches (s.p.iID d) d.pcBit (d.isTaken != decide (0 ≤ s.p.gehl.sum (s.p.iID d)))) :
    ∃ s', predictC s d doUpdate = some s' ∧ (BPred.predict (.ogehl s.p) d doUpdate).2 = .ogehl s'.p ∧ Shape c s'.p := by
  by_cases hjump : d.inst.isJump = true
  · refine ⟨_, if_pos hjump, ?_, ⟨hs.mtables, hs.logpred, hs.nentry, hs.addwidth⟩⟩
    simp only [BPred.predict, BPred.tablePredict, hjump, if_true]
    rfl
  · have hjump' : d.inst.isJump = false := Bool.eq_false_iff.2 hjump
    cases doUpdate with
    | false =>
      obtain ⟨iID, T, hlook, -, -⟩ := lookups_eq hs hrot d
      unfold predictC
      rw [if_neg hjump, hlook, Option.bind_some]
      refine ⟨_, if_neg Bool.false_ne_true, ?_, ⟨hs.mtables, hs.logpred, hs.nentry, hs.addwidth⟩⟩
      simp only [BPred.predict, BPred.tablePredict, hjump]
      rfl
    | true =>
      obtain ⟨T, hstep⟩ := predictC_update hs hrot hjump' (hok rfl)
      refine ⟨_, hstep, ?_, ⟨(Gehl.train_mtables _ _ _ _ _).trans hs.mtables, hs.logpred, hs.nentry, hs.addwidth⟩⟩
      simp only [BPred.predict, BPred.tablePredict, hjump]
      rfl

/-! ### Runs -/

/-- One prediction of a sequence. -/
def step (s : Scratch) (op : CtrlInst × Bool) : Option Scratch := predictC s op.1 op.2

/-- **Every access is in bounds**, along every sequence of predictions, whatever `T` and the target buffer start with. -/
def InBounds (c : GehlConfig) : Prop :=
  ∀ (btb : BPBTB) (T : ℕ → ℕ) (ops : List (CtrlInst × Bool)), (run step ⟨new c btb, T⟩ ops).isSome = true

theorem new_shape (c : GehlConfig) (btb : BPBTB) : Shape c (new c btb) := ⟨rfl, rfl, rfl, rfl⟩

theorem inBounds_of (hm : 7 ≤ c.mtables) (hrot : Rotates c) : InBounds c := by
  intro btb T
  have hstep : ∀ s op, Shape c s.p → ∃ s', step s op = some s' ∧ Shape c s'.p := by
    intro s op hs
    obtain ⟨s', hs', -, hshape⟩ := predictC_eq (d := op.1) hs hrot fun _ : op.2 = true => .inl hm
    exact ⟨s', hs', hshape⟩
  exact run_total hstep (new_shape c btb)

/-- A rotation that is negative fails at the first branch. -/
theorem not_inBounds_of_rotates (hrot : ¬Rotates c) : ¬InBounds c := by
  intro hall
  unfold Rotates at hrot
  push Not at hrot
  obtain ⟨i, hi, hneg⟩ := hrot
  have hfail : run step ⟨new c ⟨0, .dm, CacheCore.smallGeometry, none⟩, fun _ => 0⟩ [(against 0 true, true)] = none := by
    rw [run, step, predictC, if_neg (by decide), Gehl.lookupsC_none (by exact hi) le_rfl fun T => by
      unfold indexC
      exact geoidxC_none (by exact hneg)]
    rfl
  have := hall ⟨0, .dm, CacheCore.smallGeometry, none⟩ (fun _ => 0) [(against 0 true, true)]
  rw [hfail] at this
  cases this

/-- Some branch at an even address has an even last index, and goes against the prediction. -/
theorem exists_miss (hs : Shape c s.p) (hrot : Rotates c) :
    ∃ d : CtrlInst, d.inst.isJump = false ∧ d.isTaken = !decide (0 ≤ s.p.gehl.sum (s.p.iID d)) ∧ d.pcBit = 0 ∧
      s.p.iID d (s.p.gehl.mtables - 1) % 2 = 0 := by
  have hlog := hrot.le
  have htsize := c.tsize_ok
  have hmtables := c.mtables_ok
  have hlast : ¬s.p.gehl.mtables - 1 = 1 := by rw [hs.mtables]; omega
  obtain ⟨Add, hmem, heven⟩ := geoidx_parity (show 0 < c.logtsize by omega) (by omega) s.p.ghist
    (s.p.gehl.usedHistLength (s.p.gehl.mtables - 1)).toNat ((s.p.gehl.mtables - 1) % 4 + 1)
  have hpc : ∀ Add ∈ [0#64, 1#64, 128#64], (Add <<< 2) >>> 2 = Add ∧ ((Add <<< 2) &&& 1).toNat = 0 := by
    simp only [List.mem_cons, List.not_mem_nil, or_false]
    rintro _ (rfl | rfl | rfl) <;> exact ⟨by decide, by decide⟩
  obtain ⟨hshift, hbit⟩ := hpc Add hmem
  refine ⟨against (Add <<< 2) (decide (0 ≤ s.p.gehl.sum (s.p.iID (against (Add <<< 2) true)))), rfl, ?_, ?_, ?_⟩
  · -- the sum does not depend on the direction
    rw [against_isTaken]
    rfl
  · show (((Add <<< 2) &&& 1).toNat : ℤ) = 0
    rw [hbit]
    rfl
  · show geoidx s.p.nentry s.p.addwidth (if s.p.gehl.mtables - 1 = 1 then s.p.logpred - 1 else s.p.logpred)
      ((Add <<< 2) >>> 2) s.p.ghist _ _ % 2 = 0
    rw [if_neg hlast, hs.nentry, hs.addwidth, hs.logpred, hshift]
    exact heven

/-- Less than 7 tables, and the change of the history lengths writes behind the last of them. -/
theorem predictC_none (hs : Shape c s.p) (hrot : Rotates c) (hm : c.mtables < 7) (hjump : d.inst.isJump = false)
    (hmiss : d.isTaken = !decide (0 ≤ s.p.gehl.sum (s.p.iID d)))
    (hsw : s.p.gehl.Switches (s.p.iID d) d.pcBit true) : predictC s d true = none := by
  have hmtables := c.mtables_ok
  obtain ⟨iID, T, hlook, hiID, -⟩ := lookups_eq hs hrot d
  have hlast : iID (s.p.gehl.mtables - 1) = s.p.iID d (s.p.gehl.mtables - 1) := by
    apply hiID
    rw [hs.mtables]
    omega
  have hsw' : s.p.gehl.Switches iID d.pcBit ((!decide (0 ≤ s.p.gehl.sum (s.p.iID d))) !=
      decide (0 ≤ s.p.gehl.sum (s.p.iID d))) := by
    unfold Gehl.Switches
    rw [hlast, Gehl.miss_of_against]
    exact hsw
  unfold predictC
  rw [if_neg (by rw [hjump]; exact Bool.false_ne_true), hlook, Option.bind_some]
  simp only [if_true]
  rw [hmiss, Gehl.trainC_none (by rw [hs.mtables]; exact hm) (Gehl.trains_of_miss _ _) hsw']
  rfl

theorem switching (hrot : Rotates c) (hm : c.mtables < 7) :
    Switching step (fun s => s.p.gehl) (fun s => s.p.iID) fun s => Shape c s.p where
  exists_miss _ hs := exists_miss hs hrot
  trains _ _ hs hjump hnot := by
    obtain ⟨T, hstep⟩ := predictC_update hs hrot hjump (.inr hnot)
    exact ⟨_, hstep, ⟨(Gehl.train_mtables _ _ _ _ _).trans hs.mtables, hs.logpred, hs.nentry, hs.addwidth⟩, rfl⟩
  fails _ _ hs hjump hmiss hsw := predictC_none hs hrot hm hjump hmiss hsw

theorem not_inBounds_of_mtables (hrot : Rotates c) (hm : c.mtables < 7) : ¬InBounds c := by
  intro hall
  obtain ⟨ops, hfail⟩ := (switching hrot hm).run_none (s := ⟨new c ⟨0, .dm, CacheCore.smallGeometry, none⟩, fun _ => 0⟩)
    (new_shape c _) (Gehl.new_counted c)
  have hsome := hall ⟨0, .dm, CacheCore.smallGeometry, none⟩ (fun _ => 0) ops
  rw [hfail] at hsome
  cases hsome

theorem inBounds_iff (c : GehlConfig) : InBounds c ↔ 7 ≤ c.mtables ∧ 4 ≤ c.logtsize := by
  constructor
  · intro hall
    have hrot : Rotates c := by
      by_contra hrot
      exact not_inBounds_of_rotates hrot hall
    have hm : 7 ≤ c.mtables := by
      by_contra hm
      exact not_inBounds_of_mtables hrot (by omega) hall
    exact ⟨hm, hrot 3 (by omega)⟩
  · rintro ⟨hm, hlog⟩
    exact inBounds_of hm (rotates_of_le hlog)

end BPOgehl

/-! ## `BPSOgehl` -/

namespace BPSOgehl

/-- The constructor. -/
def new (c : GehlConfig) (btb : BPBTB) : BPSOgehl where
  btb := btb
  gehl := .new c
  glength := c.glength
  AddWidth := c.logtsize
  logtsize := c.logtsize
  ghr _ := false

/-- The index of table `i`, checked. `geoidx2` has no scratch array. -/
def indexC (p : BPSOgehl) (d : CtrlInst) (i m : ℕ) (t : Unit) : Option (ℕ × Unit) :=
  (geoidx2C p.AddWidth (if i = 1 then p.logtsize - 1 else p.logtsize) p.ghr (d.pc >>> 3) m).bind fun x => some (x, t)

/-- `predict`, checked. -/
def predictC (p : BPSOgehl) (d : CtrlInst) (doUpdate : Bool) : Option BPSOgehl :=
  if d.inst.isJump then some { p with btb := (p.btb.predict d doUpdate).2 }
  else
    (p.gehl.lookupsC p.logtsize (p.indexC d) p.gehl.mtables ()).bind fun r =>
      let ptaken := decide (0 ≤ r.1)
      (if doUpdate then
          (p.gehl.trainC p.logtsize r.2.1 r.1 d.isTaken d.pcBit).bind fun gehl =>
            some { p with
              gehl
              btb := if p.gehl.trains r.1 d.isTaken then p.btb.updateOnly d else p.btb
              ghr := p.shiftHist d.isTaken }
        else some p).bind fun p =>
        if d.isTaken ≠ ptaken then some p
        else if ptaken then some { p with btb := (p.btb.predict d doUpdate).2 }
        else some p

/-- What the configuration fixes. -/
structure Shape (c : GehlConfig) (p : BPSOgehl) : Prop where
  mtables : p.gehl.mtables = c.mtables
  logtsize : p.logtsize = c.logtsize
  AddWidth : p.AddWidth = c.logtsize

variable {c : GehlConfig} {p : BPSOgehl} {d : CtrlInst}

/-- **Lookups.** They are in bounds when table 1 has index bits. -/
theorem lookups_eq (hp : Shape c p) (hlog : 2 ≤ c.logtsize) (d : CtrlInst) :
    ∃ iID, p.gehl.lookupsC p.logtsize (p.indexC d) p.gehl.mtables () = some (p.gehl.sum (p.iID d), iID, ()) ∧
      (∀ i < p.gehl.mtables, iID i = p.iID d i) ∧ ∀ i < p.gehl.mtables, p.iID d i < 2 ^ p.logtsize := by
  have htsize := c.tsize_ok
  have hwidth : ∀ i, (if i = 1 then p.logtsize - 1 else p.logtsize) ≤ c.logtsize ∧
      0 < (if i = 1 then p.logtsize - 1 else p.logtsize) := by
    intro i
    rw [hp.logtsize]
    split <;> omega
  have hindex : ∀ i < p.gehl.mtables, ∀ t, ∃ t', p.indexC d i (p.gehl.usedHistLength i).toNat t =
      some (p.iID d i, t') := by
    intro i _ t
    refine ⟨t, ?_⟩
    unfold indexC iID
    rw [geoidx2C_eq (hwidth i).2, Option.bind_some]
  have hlt : ∀ i < p.gehl.mtables, p.iID d i < 2 ^ p.logtsize := by
    intro i _
    unfold iID
    rw [hp.AddWidth, hp.logtsize]
    apply geoidx2_lt
    · rw [← hp.logtsize]
      exact (hwidth i).2
    · rw [← hp.logtsize]
      exact hp.logtsize ▸ (hwidth i).1
    · omega
  obtain ⟨iID, t', hlook, hiID⟩ := Gehl.lookupsC_eq le_rfl hindex hlt ()
  exact ⟨iID, hlook, hiID, hlt⟩

/-- **The checked step is the unchecked one.** -/
theorem predictC_eq (hp : Shape c p) (hlog : 2 ≤ c.logtsize) {doUpdate : Bool}
    (hok : doUpdate = true → 7 ≤ c.mtables ∨
      ¬p.gehl.Switches (p.iID d) d.pcBit (d.isTaken != decide (0 ≤ p.gehl.sum (p.iID d)))) :
    predictC p d doUpdate = some (p.predict d doUpdate).2 := by
  have hmtables := c.mtables_ok
  obtain ⟨iID, hlook, hiID, hlt⟩ := lookups_eq hp hlog d
  unfold predictC predict
  by_cases hjump : d.inst.isJump = true
  · rw [if_pos hjump, if_pos hjump]
  · rw [if_neg hjump, if_neg hjump, hlook, Option.bind_some]
    cases doUpdate with
    | false =>
      simp only [Bool.false_eq_true, if_false, Option.bind_some]
      split
      · rfl
      · split <;> rfl
    | true =>
      have hpos : 0 < p.gehl.mtables := by rw [hp.mtables]; omega
      have hsw : 7 ≤ p.gehl.mtables ∨
          ¬p.gehl.Switches iID d.pcBit (d.isTaken != decide (0 ≤ p.gehl.sum (p.iID d))) := by
        rw [hp.mtables]
        unfold Gehl.Switches
        rw [hiID _ (by omega)]
        exact hok rfl
      have hin : ∀ i < p.gehl.mtables, iID i < 2 ^ p.logtsize := by
        intro i hi
        rw [hiID i hi]
        exact hlt i hi
      have htrain := Gehl.trainC_eq (by rw [hp.logtsize]; omega) hpos hin hsw
      simp only [if_true]
      rw [htrain, Option.bind_some, Option.bind_some, Gehl.train_congr hpos hiID]
      split
      · rfl
      · split <;> rfl

/-- What an update of a branch leaves, but for the target buffer. -/
theorem predict_update (hjump : d.inst.isJump = false) :
    ∃ btb, (p.predict d true).2 = { p with
      gehl := p.gehl.train (p.iID d) (p.gehl.sum (p.iID d)) d.isTaken d.pcBit
      ghr := p.shiftHist d.isTaken
      btb } := by
  unfold predict
  simp only [hjump, Bool.false_eq_true, if_false, if_true]
  split
  · exact ⟨_, rfl⟩
  · split <;> exact ⟨_, rfl⟩

/-- The tables after a branch. -/
theorem predict_gehl (hjump : d.inst.isJump = false) :
    (p.predict d true).2.gehl = p.gehl.train (p.iID d) (p.gehl.sum (p.iID d)) d.isTaken d.pcBit := by
  obtain ⟨btb, hp⟩ := predict_update (p := p) hjump
  rw [hp]

/-- A prediction keeps the sizes. -/
theorem Shape.predict (hp : Shape c p) (d : CtrlInst) (doUpdate : Bool) : Shape c (p.predict d doUpdate).2 := by
  have hmtables : ∀ S taken, (p.gehl.train (p.iID d) S taken d.pcBit).mtables = c.mtables :=
    fun S taken => (Gehl.train_mtables _ _ _ _ _).trans hp.mtables
  unfold BPSOgehl.predict
  by_cases hjump : d.inst.isJump = true
  · rw [if_pos hjump]
    exact ⟨hp.mtables, hp.logtsize, hp.AddWidth⟩
  · rw [if_neg hjump]
    cases doUpdate with
    | false =>
      simp only [Bool.false_eq_true, if_false]
      split
      · exact hp
      · split <;> exact ⟨hp.mtables, hp.logtsize, hp.AddWidth⟩
    | true =>
      simp only [if_true]
      split
      · exact ⟨hmtables _ _, hp.logtsize, hp.AddWidth⟩
      · split <;> exact ⟨hmtables _ _, hp.logtsize, hp.AddWidth⟩

/-! ### Runs -/

/-- One prediction of a sequence. -/
def step (p : BPSOgehl) (op : CtrlInst × Bool) : Option BPSOgehl := predictC p op.1 op.2

/-- **Every access is in bounds**, along every sequence of predictions. -/
def InBounds (c : GehlConfig) : Prop :=
  ∀ (btb : BPBTB) (ops : List (CtrlInst × Bool)), (run step (new c btb) ops).isSome = true

theorem new_shape (c : GehlConfig) (btb : BPBTB) : Shape c (new c btb) := ⟨rfl, rfl, rfl⟩

theorem inBounds_of (hm : 7 ≤ c.mtables) (hlog : 2 ≤ c.logtsize) : InBounds c := by
  intro btb
  have hstep : ∀ p op, Shape c p → ∃ p', step p op = some p' ∧ Shape c p' :=
    fun p op hp => ⟨_, predictC_eq hp hlog fun _ => .inl hm, hp.predict op.1 op.2⟩
  exact run_total hstep (new_shape c btb)

/-- With one index bit, table 1 has none left, and the first branch divides by 0. -/
theorem not_inBounds_of_logtsize (hlog : c.logtsize < 2) : ¬InBounds c := by
  intro hall
  have htsize := c.tsize_ok
  have hmtables := c.mtables_ok
  have hfail : ∀ btb : BPBTB, predictC (new c btb) (against 0 true) true = none := by
    intro btb
    have hone : ∀ t : Unit, (new c btb).indexC (against 0 true) 1 ((new c btb).gehl.usedHistLength 1).toNat t = none := by
      intro t
      unfold indexC
      rw [if_pos rfl, show (new c btb).logtsize - 1 = 0 from Nat.sub_eq_zero_of_le (Nat.le_of_lt_succ hlog), geoidx2C_none]
      · rfl
      · show 0 < (c.histLength 1 : ℤ).toNat
        rw [c.histLength_one]
        decide
    rw [predictC, if_neg (by decide), Gehl.lookupsC_none (i := 1) (by show 1 < c.mtables; omega) le_rfl hone]
    rfl
  have hsome := hall ⟨0, .dm, CacheCore.smallGeometry, none⟩ [(against 0 true, true)]
  rw [run, step, hfail] at hsome
  cases hsome

/-- Some branch at an even address has an even last index, and goes against the prediction. -/
theorem exists_miss (hp : Shape c p) (hlog : 2 ≤ c.logtsize) :
    ∃ d : CtrlInst, d.inst.isJump = false ∧ d.isTaken = !decide (0 ≤ p.gehl.sum (p.iID d)) ∧ d.pcBit = 0 ∧
      p.iID d (p.gehl.mtables - 1) % 2 = 0 := by
  have htsize := c.tsize_ok
  have hmtables := c.mtables_ok
  have hlast : ¬p.gehl.mtables - 1 = 1 := by rw [hp.mtables]; omega
  obtain ⟨Add, hmem, heven⟩ := geoidx2_parity c.logtsize (show 0 < c.logtsize by omega) (by omega) p.ghr
    (p.gehl.usedHistLength (p.gehl.mtables - 1)).toNat
  have hpc : ∀ Add ∈ [0#64, 1#64], (Add <<< 3) >>> 3 = Add ∧ ((Add <<< 3) &&& 1).toNat = 0 := by
    simp only [List.mem_cons, List.not_mem_nil, or_false]
    rintro _ (rfl | rfl) <;> exact ⟨by decide, by decide⟩
  obtain ⟨hshift, hbit⟩ := hpc Add hmem
  refine ⟨against (Add <<< 3) (decide (0 ≤ p.gehl.sum (p.iID (against (Add <<< 3) true)))), rfl, ?_, ?_, ?_⟩
  · rw [against_isTaken]
    rfl
  · show (((Add <<< 3) &&& 1).toNat : ℤ) = 0
    rw [hbit]
    rfl
  · show geoidx2 p.AddWidth (if p.gehl.mtables - 1 = 1 then p.logtsize - 1 else p.logtsize) p.ghr
      ((Add <<< 3) >>> 3) _ % 2 = 0
    rw [if_neg hlast, hp.AddWidth, hp.logtsize, hshift]
    exact heven

/-- Less than 7 tables, and the change of the history lengths writes behind the last of them. -/
theorem predictC_none (hp : Shape c p) (hlog : 2 ≤ c.logtsize) (hm : c.mtables < 7) (hjump : d.inst.isJump = false)
    (hmiss : d.isTaken = !decide (0 ≤ p.gehl.sum (p.iID d))) (hsw : p.gehl.Switches (p.iID d) d.pcBit true) :
    predictC p d true = none := by
  have hmtables := c.mtables_ok
  obtain ⟨iID, hlook, hiID, -⟩ := lookups_eq hp hlog d
  have hsw' : p.gehl.Switches iID d.pcBit ((!decide (0 ≤ p.gehl.sum (p.iID d))) !=
      decide (0 ≤ p.gehl.sum (p.iID d))) := by
    unfold Gehl.Switches
    rw [hiID _ (by rw [hp.mtables]; omega), Gehl.miss_of_against]
    exact hsw
  unfold predictC
  rw [if_neg (by rw [hjump]; exact Bool.false_ne_true), hlook, Option.bind_some]
  simp only [if_true]
  rw [hmiss, Gehl.trainC_none (by rw [hp.mtables]; exact hm) (Gehl.trains_of_miss _ _) hsw']
  rfl

theorem switching (hlog : 2 ≤ c.logtsize) (hm : c.mtables < 7) : Switching step gehl iID (Shape c) where
  exists_miss _ hp := exists_miss hp hlog
  trains p d hp hjump hnot := by
    refine ⟨_, predictC_eq hp hlog fun _ => .inr hnot, hp.predict d true, ?_⟩
    exact predict_gehl hjump
  fails _ _ hp hjump hmiss hsw := predictC_none hp hlog hm hjump hmiss hsw

theorem not_inBounds_of_mtables (hlog : 2 ≤ c.logtsize) (hm : c.mtables < 7) : ¬InBounds c := by
  intro hall
  obtain ⟨ops, hfail⟩ := (switching hlog hm).run_none (s := new c ⟨0, .dm, CacheCore.smallGeometry, none⟩)
    (new_shape c _) (Gehl.new_counted c)
  have hsome := hall ⟨0, .dm, CacheCore.smallGeometry, none⟩ ops
  rw [hfail] at hsome
  cases hsome

theorem inBounds_iff (c : GehlConfig) : InBounds c ↔ 7 ≤ c.mtables ∧ 2 ≤ c.logtsize := by
  constructor
  · intro hall
    have hlog : 2 ≤ c.logtsize := by
      by_contra hlog
      exact not_inBounds_of_logtsize (by omega) hall
    have hm : 7 ≤ c.mtables := by
      by_contra hm
      exact not_inBounds_of_mtables hlog (by omega) hall
    exact ⟨hm, hlog⟩
  · rintro ⟨hm, hlog⟩
    exact inBounds_of hm hlog

end BPSOgehl

/-- **Bounds.** Every sequence of branches stays in bounds exactly when there are 7 tables, so that the adaptive history
lengths have an element 6, and the tables have 16 entries (4 for `BPSOgehl`). -/
theorem gehl_bounds_iff (c : GehlConfig) :
    (BPOgehl.InBounds c ↔ 7 ≤ c.mtables ∧ 4 ≤ c.logtsize) ∧ (BPSOgehl.InBounds c ↔ 7 ≤ c.mtables ∧ 2 ≤ c.logtsize) :=
  ⟨BPOgehl.inBounds_iff c, BPSOgehl.inBounds_iff c⟩

/-- Tables of two entries are accepted. All powers of `glength / 3` are 1. -/
def GehlConfig.tiny : GehlConfig where
  mtables := 8
  logtsize := 1
  tbits := 4
  tcbits := 7
  glength := 3
  histLength i := if i = 0 then 0 else 3
  mtables_ok := by decide
  tsize_ok := by decide
  tbits_ok := by decide
  tcbits_ok := by decide
  histLength_zero := rfl
  histLength_one := rfl

/-- With them, the first branch is out of bounds in both predictors. -/
theorem gehl_tiny_outOfBounds :
    ¬BPOgehl.InBounds .tiny ∧ ¬BPSOgehl.InBounds .tiny ∧
      BPSOgehl.predictC (BPSOgehl.new .tiny ⟨0, .dm, CacheCore.smallGeometry, none⟩) (against 0 true) true = none := by
  refine ⟨BPOgehl.not_inBounds_of_rotates ?_, BPSOgehl.not_inBounds_of_logtsize (by decide), rfl⟩
  exact fun hrot => absurd hrot.le (by decide)

end Esesc.Core
