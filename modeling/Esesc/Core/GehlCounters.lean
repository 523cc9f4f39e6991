import Esesc.Core.GehlBounds

/-!
# Saturation of the O-GEHL counters (`BPOgehl::predict` and `BPSOgehl::predict` in `BPred.cpp`)

A counter goes up while it is below `PREDUP - 1` and down while it is above `-PREDUP`, with `PREDUP = 2 ^ (tbits - 1)`,
but it is stored in a `signed char`. From `tbits = 9` on the stored value wraps before the bound is reached: 127 goes
up to -128.

* `train_pred`: training moves one counter in each table.
* `train_moves_iff`: it moves them the right way unless one of them is at the end of its `signed char`.
* `saturates_iff`: so for all predictions of a sequence, in both predictors.
* `climb_saturates`: a sequence of branches that brings a counter to 127, and past it.
-/

namespace Esesc.Core

open Esesc.Lib Esesc.Suc

/-! ## One training -/

namespace Gehl

variable {g : Gehl} {iID : ℕ → ℕ} {S pcBit : ℤ} {taken : Bool} {c : ℤ}

/-- A value that a counter can have. -/
structure IsCounter (g : Gehl) (c : ℤ) : Prop where
  char : -128 ≤ c ∧ c ≤ 127
  range : -g.PREDUP ≤ c ∧ c ≤ g.PREDUP - 1

/-- Every prediction counter is in its range. -/
def InRange (g : Gehl) : Prop := ∀ i x, -g.PREDUP ≤ g.pred i x ∧ g.pred i x ≤ g.PREDUP - 1

/-- A step with this outcome leaves the counters in range, and none has moved against the outcome. -/
def Moves (g g' : Gehl) (taken : Bool) : Prop :=
  g'.InRange ∧ ∀ i x, if taken then g.pred i x ≤ g'.pred i x else g'.pred i x ≤ g.pred i x

/-- No counter that is trained is at the end of its `signed char`, with its own bound behind. -/
def Fits (g : Gehl) (iID : ℕ → ℕ) (S : ℤ) (taken : Bool) : Prop :=
  g.trains S taken = true → ∀ i < g.mtables, g.pred i (iID i) = (if taken then 127 else -128) → g.PREDUP ≤ 128

theorem toChar_of (hlow : -128 ≤ c) (hhigh : c ≤ 127) : toChar c = c := by
  unfold toChar
  exact Int.bmod_eq_of_le (by omega) (by omega)

/-- A counter stays one. -/
theorem IsCounter.bump (h : g.IsCounter c) (taken : Bool) : g.IsCounter (g.bump taken c) := by
  obtain ⟨hchar, hrange⟩ := h
  unfold Gehl.bump
  cases taken with
  | true =>
    rw [if_pos rfl]
    split
    · by_cases hend : c = 127
      · -- the stored value wraps
        subst hend
        rw [show toChar (127 + 1) = -128 by decide]
        exact ⟨by omega, by omega⟩
      · rw [toChar_of (by omega) (by omega)]
        exact ⟨by omega, by omega⟩
    · exact ⟨hchar, hrange⟩
  | false =>
    rw [if_neg Bool.false_ne_true]
    split
    · by_cases hend : c = -128
      · subst hend
        rw [show toChar (-128 - 1) = 127 by decide]
        exact ⟨by omega, by omega⟩
      · rw [toChar_of (by omega) (by omega)]
        exact ⟨by omega, by omega⟩
    · exact ⟨hchar, hrange⟩

/-- **One counter.** It moves the right way unless it wraps. -/
theorem IsCounter.bump_iff (h : g.IsCounter c) (taken : Bool) :
    (if taken then c ≤ g.bump taken c else g.bump taken c ≤ c) ↔ (c = (if taken then 127 else -128) → g.PREDUP ≤ 128) := by
  obtain ⟨hchar, hrange⟩ := h
  unfold Gehl.bump
  cases taken with
  | true =>
    simp only [if_true]
    split
    · by_cases hend : c = 127
      · subst hend
        rw [show toChar (127 + 1) = -128 by decide]
        omega
      · rw [toChar_of (by omega) (by omega)]
        omega
    · omega
  | false =>
    simp only [Bool.false_eq_true, if_false]
    split
    · by_cases hend : c = -128
      · subst hend
        rw [show toChar (-128 - 1) = 127 by decide]
        omega
      · rw [toChar_of (by omega) (by omega)]
        omega
    · omega

/-- The tables below `n`, each at its index. -/
theorem updateTables_fold (g : Gehl) (iID : ℕ → ℕ) (taken : Bool) (n i x : ℕ) :
    (List.range n).foldl
        (fun pred i => Function.update pred i (Function.update (pred i) (iID i) (g.bump taken (pred i (iID i))))) g.pred i x =
      if i < n ∧ x = iID i then g.bump taken (g.pred i x) else g.pred i x := by
  induction n generalizing i x with
  | zero => rw [if_neg (by omega)]; rfl
  | succ n ih =>
    rw [List.range_succ, List.foldl_append, List.foldl_cons, List.foldl_nil]
    by_cases hi : i = n
    · subst hi
      rw [Function.update_self]
      by_cases hx : x = iID i
      · subst hx
        rw [Function.update_self, ih, if_neg (by omega), if_pos ⟨Nat.lt_succ_self _, rfl⟩]
      · rw [Function.update_of_ne hx, ih, if_neg (by omega), if_neg (fun h => hx h.2)]
    · rw [Function.update_of_ne hi, ih]
      by_cases h : i < n ∧ x = iID i
      · rw [if_pos h, if_pos ⟨by omega, h.2⟩]
      · rw [if_neg h, if_neg fun h' => h ⟨by omega, h'.2⟩]

theorem updateTables_pred (g : Gehl) (iID : ℕ → ℕ) (taken : Bool) (i x : ℕ) :
    (g.updateTables iID taken).pred i x =
      if i < g.mtables ∧ x = iID i then g.bump taken (g.pred i x) else g.pred i x :=
  updateTables_fold g iID taken g.mtables i x

/-- The history lengths do not touch the tables. -/
theorem updateLengths_keep (g : Gehl) (iID : ℕ → ℕ) (pcBit : ℤ) (miss : Bool) :
    ∃ AC miniTag MINITAG usedHistLength,
      g.updateLengths iID pcBit miss = { g with AC, miniTag, MINITAG, usedHistLength } := by
  unfold updateLengths
  simp only
  split
  · exact ⟨_, _, _, _, rfl⟩
  · split
    · exact ⟨_, _, _, _, rfl⟩
    · split
      · split <;> exact ⟨_, _, _, _, rfl⟩
      · split <;> exact ⟨_, _, _, _, rfl⟩

/-- **Training** moves one counter in each table. -/
theorem train_pred (g : Gehl) (iID : ℕ → ℕ) (S : ℤ) (taken : Bool) (pcBit : ℤ) (i x : ℕ) :
    (g.train iID S taken pcBit).pred i x =
      if g.trains S taken = true ∧ i < g.mtables ∧ x = iID i then g.bump taken (g.pred i x) else g.pred i x := by
  obtain ⟨THETA, TC, htheta⟩ := updateTheta_keep g S taken
  unfold train
  by_cases htrains : g.trains S taken = true
  · rw [if_pos htrains, htheta]
    obtain ⟨AC, miniTag, MINITAG, usedHistLength, hlengths⟩ :=
      updateLengths_keep ({ g with THETA, TC }.updateTables iID taken) iID pcBit (taken != decide (0 ≤ S))
    rw [hlengths]
    refine (updateTables_pred { g with THETA, TC } iID taken i x).trans ?_
    by_cases h : i < g.mtables ∧ x = iID i
    · rw [if_pos h, if_pos ⟨htrains, h⟩]
      rfl
    · rw [if_neg h, if_neg fun h' => h h'.2]
  · rw [if_neg htrains, htheta, if_neg fun h => htrains h.1]

theorem train_PREDUP (g : Gehl) (iID : ℕ → ℕ) (S : ℤ) (taken : Bool) (pcBit : ℤ) :
    (g.train iID S taken pcBit).PREDUP = g.PREDUP := by
  obtain ⟨THETA, TC, htheta⟩ := updateTheta_keep g S taken
  unfold train
  split
  · rw [htheta]
    obtain ⟨AC, miniTag, MINITAG, usedHistLength, hlengths⟩ :=
      updateLengths_keep ({ g with THETA, TC }.updateTables iID taken) iID pcBit (taken != decide (0 ≤ S))
    rw [hlengths]
    rfl
  · rw [htheta]

/-- All counters are such. -/
def AllCounters (g : Gehl) : Prop := ∀ i x, g.IsCounter (g.pred i x)

theorem AllCounters.inRange (h : g.AllCounters) : g.InRange := fun i x => (h i x).range

theorem AllCounters.train (h : g.AllCounters) (iID : ℕ → ℕ) (S : ℤ) (taken : Bool) (pcBit : ℤ) :
    (g.train iID S taken pcBit).AllCounters := by
  intro i x
  have hkeep : ∀ c, g.IsCounter c → (g.train iID S taken pcBit).IsCounter c := by
    intro c hc
    exact ⟨hc.char, by rw [train_PREDUP]; exact hc.range⟩
  rw [train_pred]
  split
  · exact hkeep _ ((h i x).bump taken)
  · exact hkeep _ (h i x)

/-- **Training is monotone** exactly when no counter that it moves wraps. -/
theorem train_moves_iff (h : g.AllCounters) : g.Moves (g.train iID S taken pcBit) taken ↔ g.Fits iID S taken := by
  constructor
  · rintro ⟨-, hmoves⟩ htrains i hi
    have hmove := hmoves i (iID i)
    have hnew := train_pred g iID S taken pcBit i (iID i)
    rw [if_pos ⟨htrains, hi, rfl⟩] at hnew
    rw [hnew] at hmove
    exact ((h i (iID i)).bump_iff taken).1 hmove
  · intro hfits
    refine ⟨(h.train iID S taken pcBit).inRange, fun i x => ?_⟩
    have hnew := train_pred g iID S taken pcBit i x
    by_cases htrained : g.trains S taken = true ∧ i < g.mtables ∧ x = iID i
    · rw [if_pos htrained] at hnew
      rw [hnew]
      obtain ⟨htrains, hi, rfl⟩ := htrained
      exact ((h i (iID i)).bump_iff taken).2 (hfits htrains i hi)
    · rw [if_neg htrained] at hnew
      rw [hnew]
      split <;> exact le_rfl

theorem new_allCounters (c : GehlConfig) : (new c).AllCounters := by
  intro i x
  have hpos : (0 : ℤ) < 2 ^ (c.tbits - 1) := Int.pow_pos (by decide)
  refine ⟨?_, ?_, ?_⟩
  · show -128 ≤ (0 : ℤ) ∧ (0 : ℤ) ≤ 127
    decide
  · show -(2 ^ (c.tbits - 1) : ℤ) ≤ 0
    omega
  · show (0 : ℤ) ≤ 2 ^ (c.tbits - 1) - 1
    omega

end Gehl

/-! ## Predictions -/

/-- What the two predictors share: tables, the indices of a branch in them, and predictions that train them. -/
structure GehlPredictor (P : Type) where
  gehl : P → Gehl
  iID : P → CtrlInst → ℕ → ℕ
  predict : P → CtrlInst → Bool → P
  gehl_predict : ∀ p d doUpdate, gehl (predict p d doUpdate) =
    if d.inst.isJump = false ∧ doUpdate = true then
      (gehl p).train (iID p d) ((gehl p).sum (iID p d)) d.isTaken d.pcBit
    else gehl p

namespace GehlPredictor

variable {P : Type} (G : GehlPredictor P) {p : P}

/-- One prediction of a sequence. -/
def step (p : P) (op : CtrlInst × Bool) : Option P := some (G.predict p op.1 op.2)

/-- The counters are in range before and after the prediction, and an update has moved none against its outcome. -/
def Saturates (p : P) (op : CtrlInst × Bool) : Prop :=
  (G.gehl p).InRange ∧ (G.gehl (G.predict p op.1 op.2)).InRange ∧
    (op.2 = true → (G.gehl p).Moves (G.gehl (G.predict p op.1 op.2)) op.1.isTaken)

/-- An update trains no counter that is at the end of its `signed char`, with its own bound behind. -/
def Fits (p : P) (op : CtrlInst × Bool) : Prop :=
  op.1.inst.isJump = false → op.2 = true →
    (G.gehl p).Fits (G.iID p op.1) ((G.gehl p).sum (G.iID p op.1)) op.1.isTaken

theorem allCounters_predict (h : (G.gehl p).AllCounters) (d : CtrlInst) (doUpdate : Bool) :
    (G.gehl (G.predict p d doUpdate)).AllCounters := by
  rw [G.gehl_predict]
  split
  · exact h.train _ _ _ _
  · exact h

theorem step_allCounters (p : P) (op : CtrlInst × Bool) (p' : P) (hstep : G.step p op = some p')
    (h : (G.gehl p).AllCounters) : (G.gehl p').AllCounters := by
  obtain rfl := Option.some.inj hstep
  exact G.allCounters_predict h op.1 op.2

/-- **One prediction.** -/
theorem step_saturates_iff (p : P) (op : CtrlInst × Bool) (h : (G.gehl p).AllCounters) :
    G.Saturates p op ↔ G.Fits p op := by
  have hafter := (G.allCounters_predict h op.1 op.2).inRange
  unfold Saturates Fits
  rw [and_iff_right h.inRange, and_iff_right hafter]
  by_cases hup : op.2 = true
  · rw [G.gehl_predict]
    by_cases hjump : op.1.inst.isJump = false
    · rw [if_pos ⟨hjump, hup⟩, Gehl.train_moves_iff h]
      exact ⟨fun hfits _ => hfits, fun hfits => hfits hjump⟩
    · rw [if_neg fun hb => hjump hb.1]
      refine iff_of_true (fun _ => ⟨h.inRange, fun i x => ?_⟩) fun hb => absurd hb hjump
      split <;> exact le_rfl
  · exact iff_of_true (fun hb => absurd hb hup) fun _ hb => absurd hb hup

/-- **Sequences.** The counters saturate along a sequence of predictions exactly when no update in it lets one wrap. -/
theorem saturates_iff (h : (G.gehl p).AllCounters) (ops : List (CtrlInst × Bool)) :
    Along G.step G.Saturates p ops ↔ Along G.step G.Fits p ops :=
  along_congr (I := fun p => (G.gehl p).AllCounters) G.step_allCounters G.step_saturates_iff h ops

/-- With 8 bits or less, none can. -/
theorem fits_of_predup (h : (G.gehl p).PREDUP ≤ 128) (ops : List (CtrlInst × Bool)) : Along G.step G.Fits p ops := by
  have hkeep : ∀ p op p', G.step p op = some p' → True → (G.gehl p).PREDUP ≤ 128 → (G.gehl p').PREDUP ≤ 128 := by
    intro p op p' hstep _ hp
    obtain rfl := Option.some.inj hstep
    rw [G.gehl_predict]
    split
    · rw [Gehl.train_PREDUP]
      exact hp
    · exact hp
  exact Along.of_inv hkeep (fun p op _ hp _ _ _ _ _ _ => hp) (Along.of_forall (fun _ _ => trivial) p ops) h

end GehlPredictor

/-- `BPOgehl::predict`. -/
def BPOgehl.after (p : BPOgehl) (d : CtrlInst) (doUpdate : Bool) : BPOgehl :=
  if d.inst.isJump then { p with btb := (p.btb.predict d doUpdate).2 }
  else
    { (p.direction d doUpdate).2 with
      btb := (resolve (p.direction d doUpdate).2.btb d (p.direction d doUpdate).1 doUpdate).2 }

def BPOgehl.predictor : GehlPredictor BPOgehl where
  gehl p := p.gehl
  iID := BPOgehl.iID
  predict := BPOgehl.after
  gehl_predict p d doUpdate := by
    unfold after direction
    cases d.inst.isJump with
    | true => rw [if_pos rfl, if_neg (by simp)]
    | false => cases doUpdate <;> rfl

def BPSOgehl.predictor : GehlPredictor BPSOgehl where
  gehl p := p.gehl
  iID := BPSOgehl.iID
  predict p d doUpdate := (p.predict d doUpdate).2
  gehl_predict p d doUpdate := by
    cases hjump : d.inst.isJump with
    | true =>
      rw [if_neg (by simp)]
      unfold predict
      rw [if_pos hjump]
    | false =>
      cases doUpdate with
      | true =>
        rw [if_pos ⟨rfl, rfl⟩]
        exact predict_gehl hjump
      | false =>
        rw [if_neg (by simp)]
        unfold predict
        simp only [hjump, Bool.false_eq_true, if_false]
        split
        · rfl
        · split <;> rfl

/-! ## A climb

Eight addresses share the entry of tables 1 to 31 after the same history, and have their own in table 0. A branch moves
the shared counter `c` together with its own counter `a`, if `16 + a + 31 * c` is not confidently right. So a not-taken
branch and a taken one at another address move a unit from the one counter to the other, and the lower `c` is before, the
higher the counter that gains can be, and the higher the one that loses has to be. -/

/-- The configuration: 32 tables of 16 entries, all with 3 bits of history but for the first. -/
def GehlConfig.wide : GehlConfig where
  mtables := 32
  logtsize := 4
  tbits := 9
  tcbits := 15
  glength := 3
  histLength i := if i = 0 then 0 else 3
  mtables_ok := by decide
  tsize_ok := by decide
  tbits_ok := by decide
  tcbits_ok := by decide
  histLength_zero := GehlConfig.tiny.histLength_zero
  histLength_one := GehlConfig.tiny.histLength_one

/-- What the climb looks at: the counters of the eight addresses, the shared one, and how many branches there were. -/
structure Rung where
  own : List ℤ
  shared : ℤ
  branches : ℕ
  deriving DecidableEq

namespace Rung

/-- A branch at address `m.1`, after three others. -/
def move (r : Rung) (m : ℕ × Bool) : Option Rung :=
  let a := r.own.getD m.1 0
  let u : ℤ := if m.2 then 1 else -1
  if m.1 < 8 ∧ r.branches + 4 < 16384 ∧
      (if m.2 then a + 31 * r.shared < 16 else -48 ≤ a + 31 * r.shared) ∧
      (-128 ≤ a + u ∧ a + u ≤ 127) ∧ -128 ≤ r.shared + u ∧ r.shared + u ≤ 127 then
    some ⟨r.own.modify m.1 (· + u), r.shared + u, r.branches + 4⟩
  else none

/-- `n` units from `q` to `p`. -/
def give (n q p : ℕ) : List (ℕ × Bool) := (List.replicate n [(q, false), (p, true)]).flatten

/-- Four units from 1 and 2 to 0, with the shared counter at -3, and what they need for the next time. -/
def round : List (ℕ × Bool) :=
  [(5, false), (1, false), (1, false)] ++ give 1 1 0 ++ give 3 2 0 ++ [(1, true), (1, true), (1, true)] ++ give 3 6 2

def climb : List (ℕ × Bool) :=
  give 47 3 0 ++ give 47 4 1 ++
  -- with the shared counter at -1, up to 78
  [(5, false)] ++ give 31 1 0 ++ [(5, true)] ++ give 31 5 1 ++
  -- at -2, up to 109
  [(5, false), (1, false)] ++ give 31 1 0 ++ [(1, true), (1, true)] ++ give 30 6 1 ++ give 47 7 2 ++
  -- at -3, up to 127
  (List.replicate 4 round).flatten ++ [(5, false), (1, false), (1, false)] ++ give 1 1 0 ++ give 1 2 0 ++ [(2, false)]

def start : Rung := ⟨List.replicate 8 0, 0, 0⟩

theorem climb_top :
    (run move start climb).map (fun r => (r.own.getD 0 0, r.shared, r.branches)) = some (127, -4, 2488) := by
  decide +kernel

end Rung

namespace Gehl

/-- The history lengths of the configuration, and what stays for less than `2 ^ 14` branches. -/
structure Steady (n : ℕ) (g : Gehl) : Prop where
  mtables : g.mtables = 32
  theta : g.THETA = 32 ∧ g.MAXTHETA = 31 ∧ g.THETAUP = 16384
  PREDUP : g.PREDUP = 256
  TC : -(n : ℤ) ≤ g.TC
  histLength : ∀ i, g.histLength i = if i = 0 then 0 else 3
  usedHistLength : ∀ i, g.usedHistLength i = if i = 0 then 0 else 3

variable {n : ℕ} {g : Gehl} {iID : ℕ → ℕ} {S pcBit a s : ℤ} {taken : Bool}

theorem Steady.updateTheta (h : g.Steady n) (hn : n < 16384) (S : ℤ) (taken : Bool) :
    ∃ TC, g.updateTheta S taken = { g with TC } ∧ -((n + 1 : ℕ) : ℤ) ≤ TC := by
  obtain ⟨htheta, hmax, hup⟩ := h.theta
  have htc := h.TC
  have hnot : ¬g.THETA < g.MAXTHETA := by omega
  have hlow : ¬g.TC - 1 < -g.THETAUP := by omega
  unfold Gehl.updateTheta
  simp only [hnot, if_false, hlow]
  split
  · split
    · exact ⟨_, rfl, by omega⟩
    · exact ⟨_, rfl, by omega⟩
  · split
    · exact ⟨_, rfl, by omega⟩
    · exact ⟨_, rfl, by omega⟩

theorem setLengths_apply (g : Gehl) (l6 l4 l2 : ℤ) (i : ℕ) :
    (g.setLengths l6 l4 l2).usedHistLength i =
      if i = 2 then l2 else if i = 4 then l4 else if i = 6 then l6 else g.usedHistLength i := by
  simp only [setLengths, Function.update_apply]

/-- All lengths but the first are 3, whichever are used. -/
theorem Steady.updateLengths_used (h : g.Steady n) (g' : Gehl) (hm : g'.mtables = g.mtables)
    (hhist : g'.histLength = g.histLength) (hused : g'.usedHistLength = g.usedHistLength) (iID : ℕ → ℕ) (pcBit : ℤ)
    (miss : Bool) (i : ℕ) : (g'.updateLengths iID pcBit miss).usedHistLength i = if i = 0 then 0 else 3 := by
  have hkeep : g'.usedHistLength i = if i = 0 then 0 else 3 := by
    rw [hused]
    exact h.usedHistLength i
  have hset : ∀ (g'' : Gehl) (j6 j4 j2 : ℕ), 0 < j6 → 0 < j4 → 0 < j2 → g''.usedHistLength = g'.usedHistLength →
      (g''.setLengths (g'.histLength j6) (g'.histLength j4) (g'.histLength j2)).usedHistLength i =
        if i = 0 then 0 else 3 := by
    intro g'' j6 j4 j2 h6 h4 h2 hsame
    rw [setLengths_apply, hsame, hkeep, hhist, h.histLength, h.histLength, h.histLength]
    split <;> omega
  have hpos : 0 < g'.mtables := by rw [hm, h.mtables]; decide
  unfold Gehl.updateLengths
  simp only
  split
  · exact hkeep
  · split
    · exact hkeep
    · split
      · split
        · exact hset _ 6 4 2 (by decide) (by decide) (by decide) rfl
        · exact hkeep
      · split
        · exact hset _ (g'.mtables + 2) (g'.mtables + 1) g'.mtables (by omega) (by omega) hpos rfl
        · exact hkeep

theorem Steady.train (h : g.Steady n) (hn : n < 16384) (iID : ℕ → ℕ) (S : ℤ) (taken : Bool) (pcBit : ℤ) :
    (g.train iID S taken pcBit).Steady (n + 1) := by
  obtain ⟨TC, htheta, htc⟩ := h.updateTheta hn S taken
  unfold Gehl.train
  rw [htheta]
  split
  · have hlen := h.updateLengths_used ({ g with TC }.updateTables iID taken) rfl rfl rfl iID pcBit (taken != decide (0 ≤ S))
    obtain ⟨AC, miniTag, MINITAG, usedHistLength, hlengths⟩ :=
      updateLengths_keep ({ g with TC }.updateTables iID taken) iID pcBit (taken != decide (0 ≤ S))
    rw [hlengths] at hlen ⊢
    exact ⟨h.mtables, h.theta, h.PREDUP, htc, h.histLength, hlen⟩
  · exact ⟨h.mtables, h.theta, h.PREDUP, htc, h.histLength, h.usedHistLength⟩

/-- A branch trains unless it is confidently right. -/
theorem Steady.trains_iff (h : g.Steady n) (hn : n < 16384) :
    g.trains S taken = true ↔ if taken then S < 32 else -32 ≤ S := by
  obtain ⟨TC, htheta, -⟩ := h.updateTheta hn S taken
  unfold trains lowConfidence
  rw [htheta]
  simp only [h.theta.1]
  cases taken with
  | true => by_cases hS : 0 ≤ S <;> simp [hS] <;> omega
  | false => by_cases hS : 0 ≤ S <;> simp [hS] <;> omega

theorem foldl_add_const {f : ℕ → ℤ} {m : ℕ} (hf : ∀ i, 1 ≤ i → i < m + 1 → f i = a) (s : ℤ) :
    (List.range (m + 1)).foldl (fun S i => S + f i) s = s + f 0 + m * a := by
  induction m with
  | zero => simp
  | succ m ih =>
    rw [List.range_succ, List.foldl_append, ih fun i h1 h2 => hf i h1 (by omega), List.foldl_cons, List.foldl_nil,
      hf (m + 1) (by omega) (by omega)]
    rw [Nat.cast_succ, Int.add_mul]
    omega

/-- Between the limits, a counter moves by one. -/
theorem Steady.bump (h : g.Steady n) (hlow : -128 ≤ a + (if taken then 1 else -1))
    (hhigh : a + (if taken then 1 else -1) ≤ 127) : g.bump taken a = a + (if taken then 1 else -1) := by
  have hup := h.PREDUP
  unfold Gehl.bump
  cases taken with
  | true =>
    simp only [if_true] at hlow hhigh ⊢
    rw [if_pos (by omega), toChar_of hlow hhigh]
  | false =>
    simp only [Bool.false_eq_true, if_false] at hlow hhigh ⊢
    rw [if_pos (by omega), Int.sub_eq_add_neg, toChar_of hlow hhigh]

theorem Steady.sum (h : g.Steady n) (hshared : ∀ i, 1 ≤ i → i < 32 → g.pred i (iID i) = a) :
    g.sum iID = 16 + g.pred 0 (iID 0) + 31 * a := by
  unfold Gehl.sum
  rw [h.mtables, foldl_add_const (m := 31) hshared]
  omega

end Gehl

namespace BPSOgehl

variable {n : ℕ} {own : List ℤ} {shared : ℤ} {p : BPSOgehl} {L x i : ℕ} {ghr ghr' : ℕ → Bool}

/-- A branch at the address with index bits `x`. -/
def branchAt (x : ℕ) (taken : Bool) : CtrlInst := against (BitVec.ofNat 64 (8 * x)) (!taken)

theorem branchAt_isTaken (x : ℕ) (taken : Bool) : (branchAt x taken).isTaken = taken := by
  rw [branchAt, against_isTaken, Bool.not_not]

/-- Three branches at another address, for the history at which address `x` has the shared entry. -/
def history (x : ℕ) : List (CtrlInst × Bool) :=
  [(branchAt 8 false, true), (branchAt 8 false, true), (branchAt 8 (x % 2 = 1), true)]

/-- The branch of a move, after its history. -/
def block (m : ℕ × Bool) : List (CtrlInst × Bool) := history m.1 ++ [(branchAt m.1 m.2, true)]

/-! ### Indices -/

/-- The loop only has the history bits it runs over. -/
theorem geoLoop_congr (logtsize n i : ℕ) (h : ∀ k, i ≤ k → k < i + n → ghr k = ghr' k) (inter : BitVec 32) :
    geoLoop ghr logtsize n i inter = geoLoop ghr' logtsize n i inter := by
  induction n generalizing i inter with
  | zero => rfl
  | succ n ih =>
    rw [geoLoop, geoLoop, h i le_rfl (by omega)]
    exact ih (i + 1) (fun k h1 h2 => h k (by omega) (by omega)) _

/-- A history of three bits. -/
def bits (b0 b1 b2 : Bool) (i : ℕ) : Bool := if i = 0 then b0 else if i = 1 then b1 else b2

theorem geoidx2_bits (ghr : ℕ → Bool) (Add : BitVec 64) :
    geoidx2 4 L ghr Add 3 = geoidx2 4 L (bits (ghr 0) (ghr 1) (ghr 2)) Add 3 := by
  unfold geoidx2
  have hbits : ∀ k, 0 ≤ k → k < 0 + 3 → ghr k = bits (ghr 0) (ghr 1) (ghr 2) k := by
    intro k _ hk
    obtain rfl | rfl | rfl : k = 0 ∨ k = 1 ∨ k = 2 := by omega
    · rfl
    · rfl
    · rfl
  rw [geoLoop_congr L 3 0 hbits]

/-- After the history of its block, an address has the shared entry. -/
theorem geoidx2_shared (hL : L = 3 ∨ L = 4) (hx : x < 8) (h0 : ghr 0 = decide (x % 2 = 1)) (h1 : ghr 1 = false)
    (h2 : ghr 2 = false) : geoidx2 4 L ghr (BitVec.ofNat 64 x) 3 = 0 := by
  have hall : ∀ x < 8, geoidx2 4 3 (bits (decide (x % 2 = 1)) false false) (BitVec.ofNat 64 x) 3 = 0 ∧
      geoidx2 4 4 (bits (decide (x % 2 = 1)) false false) (BitVec.ofNat 64 x) 3 = 0 := by
    decide
  rw [geoidx2_bits, h0, h1, h2]
  rcases hL with rfl | rfl
  · exact (hall x hx).1
  · exact (hall x hx).2

/-- The other address never has it. -/
theorem geoidx2_other (hL : L = 3 ∨ L = 4) (ghr : ℕ → Bool) : 8 ≤ geoidx2 4 L ghr 8#64 3 := by
  have hall : ∀ b0 b1 b2, 8 ≤ geoidx2 4 3 (bits b0 b1 b2) 8#64 3 ∧ 8 ≤ geoidx2 4 4 (bits b0 b1 b2) 8#64 3 := by
    decide
  rw [geoidx2_bits]
  rcases hL with rfl | rfl
  · exact (hall _ _ _).1
  · exact (hall _ _ _).2

/-- The counters of the climb in the predictor, after `n` branches. -/
structure View (n : ℕ) (own : List ℤ) (shared : ℤ) (p : BPSOgehl) : Prop where
  sizes : p.AddWidth = 4 ∧ p.logtsize = 4 ∧ p.glength = 3
  steady : p.gehl.Steady n
  length : own.length = 8
  own : ∀ j < 8, p.gehl.pred 0 j = own.getD j 0
  shared : ∀ i, 1 ≤ i → i < 32 → p.gehl.pred i 0 = shared

/-- The index in table 0 is the address, and in the others that of `geoidx2` with three bits of history. -/
theorem View.iID (h : View n own shared p) (hx : x < 16) (taken : Bool) :
    p.iID (branchAt x taken) 0 = x ∧
      ∀ i, 1 ≤ i → ∃ L, (L = 3 ∨ L = 4) ∧ p.iID (branchAt x taken) i = geoidx2 4 L p.ghr (BitVec.ofNat 64 x) 3 := by
  have hpc : ∀ x < 16, BitVec.ofNat 64 (8 * x) >>> 3 = BitVec.ofNat 64 x ∧
      ((BitVec.ofNat 64 x &&& (1#64 <<< 4 - 1)).setWidth 32).toNat = x := by
    decide
  obtain ⟨hshift, hmask⟩ := hpc x hx
  obtain ⟨hwidth, hlog, -⟩ := h.sizes
  constructor
  · show geoidx2 p.AddWidth _ p.ghr (BitVec.ofNat 64 (8 * x) >>> 3) (p.gehl.usedHistLength 0).toNat = x
    rw [hwidth, hshift, h.steady.usedHistLength 0, if_pos rfl]
    exact hmask
  · intro i hi
    have hlen : p.gehl.usedHistLength i = 3 := by
      rw [h.steady.usedHistLength i, if_neg (by omega)]
    refine ⟨if i = 1 then 3 else 4, by split <;> omega, ?_⟩
    show geoidx2 p.AddWidth (if i = 1 then p.logtsize - 1 else p.logtsize) p.ghr (BitVec.ofNat 64 (8 * x) >>> 3)
      (p.gehl.usedHistLength i).toNat = _
    rw [hwidth, hshift, hlog, hlen]
    rfl

/-- **The other address** touches neither the eight counters nor the shared one. -/
theorem View.other (h : View n own shared p) (hn : n < 16384) (taken : Bool) :
    ∃ p', predictor.step p (branchAt 8 taken, true) = some p' ∧ View (n + 1) own shared p' ∧
      p'.ghr = p.shiftHist taken := by
  obtain ⟨btb, hp⟩ := predict_update (p := p) (d := branchAt 8 taken) rfl
  obtain ⟨hzero, hothers⟩ := h.iID (x := 8) (by decide) taken
  refine ⟨_, congrArg some hp, ?_⟩
  rw [branchAt_isTaken]
  refine ⟨⟨h.sizes, h.steady.train hn _ _ _ _, h.length, fun j hj => ?_, fun i h1 h2 => ?_⟩, rfl⟩
  · rw [Gehl.train_pred, if_neg (by rw [hzero]; omega)]
    exact h.own j hj
  · obtain ⟨L, hL, hindex⟩ := hothers i h1
    have hlarge := geoidx2_other hL p.ghr
    rw [Gehl.train_pred, if_neg (by rw [hindex]; omega)]
    exact h.shared i h1 h2

/-- The history at which address `x` has the shared entry. -/
structure Ready (x : ℕ) (p : BPSOgehl) : Prop where
  h0 : p.ghr 0 = decide (x % 2 = 1)
  h1 : p.ghr 1 = false
  h2 : p.ghr 2 = false

theorem View.history (h : View n own shared p) (hn : n + 3 < 16384) (x : ℕ) :
    ∃ p', run predictor.step p (BPSOgehl.history x) = some p' ∧ View (n + 3) own shared p' ∧ Ready x p' := by
  obtain ⟨p1, hp1, hview1, hghr1⟩ := h.other (by omega) false
  obtain ⟨p2, hp2, hview2, hghr2⟩ := hview1.other (by omega) false
  obtain ⟨p3, hp3, hview3, hghr3⟩ := hview2.other (by omega) (decide (x % 2 = 1))
  have hglength1 := hview1.sizes.2.2
  have hglength2 := hview2.sizes.2.2
  refine ⟨p3, ?_, hview3, ?_, ?_, ?_⟩
  · rw [BPSOgehl.history, run, hp1, Option.bind_some, run, hp2, Option.bind_some, run, hp3]
    rfl
  · rw [hghr3]
    rfl
  · rw [hghr3, shiftHist, if_neg (by decide), if_pos (by omega), hghr2]
    rfl
  · rw [hghr3, shiftHist, if_neg (by decide), if_pos (by omega), hghr2, shiftHist, if_neg (by decide), if_pos (by omega),
      hghr1]
    rfl

theorem View.index_shared (h : View n own shared p) (hx : x < 8) (hready : Ready x p) (taken : Bool) :
    ∀ i, 1 ≤ i → p.iID (branchAt x taken) i = 0 := by
  intro i hi
  obtain ⟨L, hL, hindex⟩ := (h.iID (x := x) (by omega) taken).2 i hi
  rw [hindex]
  exact geoidx2_shared hL hx hready.h0 hready.h1 hready.h2

/-- A branch that is not confidently right trains. -/
theorem View.trains (h : View n own shared p) (hn : n < 16384) (hx : x < 8) (hready : Ready x p) (taken : Bool)
    (htrain : if taken then own.getD x 0 + 31 * shared < 16 else -48 ≤ own.getD x 0 + 31 * shared) :
    p.gehl.trains (p.gehl.sum (p.iID (branchAt x taken))) taken = true := by
  have hindex := h.index_shared hx hready taken
  have hsum : p.gehl.sum (p.iID (branchAt x taken)) = 16 + own.getD x 0 + 31 * shared := by
    rw [h.steady.sum (a := shared), (h.iID (x := x) (by omega) taken).1, h.own x hx]
    intro i hi1 hi2
    rw [hindex i hi1]
    exact h.shared i hi1 hi2
  rw [h.steady.trains_iff hn, hsum]
  split
  · rename_i htaken
    rw [if_pos htaken] at htrain
    omega
  · rename_i htaken
    rw [if_neg htaken] at htrain
    omega

/-- **One of the eight**, after its history: its counter and the shared one move. -/
theorem View.move (h : View n own shared p) (hn : n < 16384) (hx : x < 8) (hready : Ready x p) {taken : Bool} {u : ℤ}
    (hu : u = if taken then 1 else -1)
    (htrain : if taken then own.getD x 0 + 31 * shared < 16 else -48 ≤ own.getD x 0 + 31 * shared)
    (hown : -128 ≤ own.getD x 0 + u ∧ own.getD x 0 + u ≤ 127) (hshared : -128 ≤ shared + u ∧ shared + u ≤ 127) :
    View (n + 1) (own.modify x (· + u)) (shared + u) (p.predict (branchAt x taken) true).2 := by
  obtain ⟨btb, hp⟩ := predict_update (p := p) (d := branchAt x taken) rfl
  have hzero := (h.iID (x := x) (by omega) taken).1
  have hindex := h.index_shared hx hready taken
  have htrains := h.trains hn hx hready taken htrain
  subst hu
  rw [hp, branchAt_isTaken]
  refine ⟨h.sizes, h.steady.train hn _ _ _ _, by rw [List.length_modify]; exact h.length, fun j hj => ?_, fun i hi1 hi2 => ?_⟩
  · show (p.gehl.train _ _ _ _).pred 0 j = _
    rw [Gehl.train_pred, hzero, List.getD_eq_getElem?_getD, List.getElem?_modify]
    by_cases hjx : j = x
    · subst hjx
      rw [if_pos ⟨htrains, by rw [h.steady.mtables]; decide, rfl⟩, h.own j hj, h.steady.bump hown.1 hown.2]
      have hlt : j < own.length := by rw [h.length]; exact hj
      simp [hlt]
    · rw [if_neg fun hb => hjx hb.2.2, h.own j hj]
      simp [show ¬x = j from fun hb => hjx hb.symm]
  · show (p.gehl.train _ _ _ _).pred i 0 = _
    rw [Gehl.train_pred, if_pos ⟨htrains, by rw [h.steady.mtables]; exact hi2, (hindex i hi1).symm⟩, h.shared i hi1 hi2,
      h.steady.bump hshared.1 hshared.2]

/-- **A block** is a move. -/
theorem View.block {r r' : Rung} {m : ℕ × Bool} (hmove : r.move m = some r') (h : View r.branches r.own r.shared p) :
    ∃ p', run predictor.step p (block m) = some p' ∧ View r'.branches r'.own r'.shared p' := by
  unfold Rung.move at hmove
  simp only [Option.ite_none_right_eq_some, Option.some.injEq] at hmove
  obtain ⟨⟨hx, hn, htrain, hown, hshared⟩, rfl⟩ := hmove
  obtain ⟨p', hp', hview, hready⟩ := h.history (by omega) m.1
  refine ⟨_, ?_, hview.move (by omega) hx hready rfl htrain hown hshared⟩
  rw [BPSOgehl.block, run_append, hp']
  rfl

/-- So are the blocks of a list of moves. -/
theorem View.blocks {r r' : Rung} {ms : List (ℕ × Bool)} (hrun : run Rung.move r ms = some r')
    (h : View r.branches r.own r.shared p) :
    ∃ p', run predictor.step p (ms.flatMap BPSOgehl.block) = some p' ∧ View r'.branches r'.own r'.shared p' := by
  induction ms generalizing r p with
  | nil =>
    obtain rfl := Option.some.inj hrun
    exact ⟨p, rfl, h⟩
  | cons m ms ih =>
    obtain ⟨r1, hmove, hrest⟩ := run_cons.1 hrun
    obtain ⟨p1, hp1, hview1⟩ := h.block hmove
    obtain ⟨p', hp', hview'⟩ := ih hrest hview1
    refine ⟨p', ?_, hview'⟩
    rw [List.flatMap_cons, run_append, hp1, Option.bind_some]
    exact hp'

theorem new_view (btb : BPBTB) : View 0 Rung.start.own 0 (new .wide btb) := by
  refine ⟨⟨rfl, rfl, rfl⟩, ⟨rfl, ⟨rfl, rfl, rfl⟩, rfl, le_rfl, fun i => ?_, fun i => ?_⟩, rfl, fun j hj => ?_, fun _ _ _ => rfl⟩
  · show (((if i = 0 then 0 else 3 : ℕ)) : ℤ) = _
    split <;> rfl
  · show (((if i = 0 then 0 else 3 : ℕ)) : ℤ) = _
    split <;> rfl
  · exact (by decide : ∀ j < 8, 0 = (List.replicate 8 (0 : ℤ)).getD j 0) j hj

end BPSOgehl

/-- **Saturation.** Along a sequence of predictions the counters stay in range, and no update moves one against its
outcome, exactly when no update trains a counter that is at the end of its `signed char` with its own bound behind. With
8 bits or less, none ever is. -/
theorem gehl_saturates_iff (c : GehlConfig) (btb : BPBTB) (ops : List (CtrlInst × Bool)) :
    (Along BPOgehl.predictor.step BPOgehl.predictor.Saturates (BPOgehl.new c btb) ops ↔
        Along BPOgehl.predictor.step BPOgehl.predictor.Fits (BPOgehl.new c btb) ops) ∧
      (Along BPSOgehl.predictor.step BPSOgehl.predictor.Saturates (BPSOgehl.new c btb) ops ↔
        Along BPSOgehl.predictor.step BPSOgehl.predictor.Fits (BPSOgehl.new c btb) ops) ∧
      (c.tbits ≤ 8 → Along BPOgehl.predictor.step BPOgehl.predictor.Fits (BPOgehl.new c btb) ops ∧
        Along BPSOgehl.predictor.step BPSOgehl.predictor.Fits (BPSOgehl.new c btb) ops) := by
  have hcounters := Gehl.new_allCounters c
  refine ⟨BPOgehl.predictor.saturates_iff (p := .new c btb) hcounters ops, BPSOgehl.predictor.saturates_iff (p := .new c btb) hcounters ops,
    fun hbits => ?_⟩
  have hpredup : (Gehl.new c).PREDUP ≤ 128 := by
    have hall : ∀ k < 8, (2 : ℤ) ^ k ≤ 128 := by decide
    exact hall (c.tbits - 1) (by omega)
  exact ⟨BPOgehl.predictor.fits_of_predup (p := .new c btb) hpredup ops,
    BPSOgehl.predictor.fits_of_predup (p := .new c btb) hpredup ops⟩

/-- After the climb, a taken branch brings a counter from 127 to -128. -/
theorem climb_saturates :
    ¬Along BPSOgehl.predictor.step BPSOgehl.predictor.Saturates
      (BPSOgehl.new .wide ⟨0, .dm, CacheCore.smallGeometry, none⟩)
      (Rung.climb.flatMap BPSOgehl.block ++ BPSOgehl.block (0, true)) := by
  intro hall
  rw [BPSOgehl.predictor.saturates_iff (by exact Gehl.new_allCounters .wide)] at hall
  have htop := Rung.climb_top
  rw [Option.map_eq_some_iff] at htop
  obtain ⟨r, hclimb, hr⟩ := htop
  obtain ⟨hown, hshared, hbranches⟩ : r.own.getD 0 0 = 127 ∧ r.shared = -4 ∧ r.branches = 2488 := by
    simpa using hr
  obtain ⟨p, hp, hview⟩ := (BPSOgehl.new_view ⟨0, .dm, CacheCore.smallGeometry, none⟩).blocks hclimb
  obtain ⟨p', hp', hview', hready⟩ := hview.history (by omega) 0
  have hlast := (hall.of_append hp).of_append hp'
  have hfits := hlast.1 rfl rfl
  have htrain : r.own.getD 0 0 + 31 * r.shared < 16 := by omega
  have hwide := hfits (hview'.trains (by omega) (by decide) hready true htrain) 0
    (by show 0 < p'.gehl.mtables; rw [hview'.steady.mtables]; decide)
  have hzero := (hview'.iID (x := 0) (by decide) true).1
  have h256 := hview'.steady.PREDUP
  have h128 : p'.gehl.PREDUP ≤ 128 := by
    apply hwide
    show p'.gehl.pred 0 (p'.iID (BPSOgehl.branchAt 0 true) 0) = 127
    rw [hzero, hview'.own 0 (by decide), hown]
  omega

end Esesc.Core
