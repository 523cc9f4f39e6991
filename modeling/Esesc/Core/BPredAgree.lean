import Esesc.Core.BPred
import Esesc.Suc.CacheInv

/-!
# Predicting without updating

A call of `predict` without update is a question about what the predictor would say. It changes
no table, no history, no return address and no target; it does move the line it finds to the
front of its set. What it says is what the updating call says, except in three places:

* a function return is looked up at the top of the stack, where the update looks one below;
* a taken branch that misses in the target buffer misses, where the update compares with the
  target of the line it takes over;
* a low-confidence branch of the SCOORE O-GEHL finds its target in the buffer, because the
  update has just put it there.

`predict_without_update` gives the exact condition.
-/

namespace Esesc.Core

open Esesc.Suc Esesc.Suc.CacheCore

/-! ## Return address stack -/

namespace BPRas

variable (r : BPRas) (d : CtrlInst)

theorem predict_false_snd : (r.predict d false).2 = r := by
  unfold predict
  split
  · split <;> rfl
  · simp

/-- The two entries a return may be compared with match its target alike. -/
def Alike : Prop := d.inst.isFuncRet → r.rasSize ≠ 0 → r.targetAt r.index d = r.targetAt r.below d

theorem predict_agrees_iff : (r.predict d false).1 = (r.predict d true).1 ↔ r.Alike d := by
  unfold predict Alike
  by_cases hret : d.inst.isFuncRet
  · by_cases h0 : r.rasSize = 0
    · simp [hret, h0]
    · have hbelow : ({ r with index := r.below } : BPRas).targetAt r.below d = r.targetAt r.below d := rfl
      cases h1 : r.targetAt r.index d <;> cases h2 : r.targetAt r.below d <;> simp [hret, h0, hbelow, h1, h2]
  · by_cases hcall : d.inst.isFuncCall ∧ r.rasSize ≠ 0 <;> simp [hret, hcall]

/-- Only a return is decided here. -/
theorem predict_fst_of_not_ret (hret : d.inst.isFuncRet = false) (doUpdate : Bool) :
    (r.predict d doUpdate).1 = .NoPrediction := by
  unfold predict
  rw [if_neg (by simp [hret])]
  split <;> rfl

theorem predict_fst_of_ret (hret : d.inst.isFuncRet = true) (doUpdate : Bool) :
    (r.predict d doUpdate).1 ≠ .NoPrediction := by
  unfold predict
  rw [if_pos hret]
  split
  · simp
  · dsimp only
    split <;> split <;> simp

end BPRas

/-! ## Target buffer -/

namespace BPBTB

variable (b : BPBTB) (c : CacheCore BTBState) (d : CtrlInst)

/-- A lookup finds a line with the target of the branch. -/
def found : Bool := (c.findLine b.org b.geom (b.key d)).1.any fun l => (c.mem l).inst == d.addr

/-- The line that a fill would take over holds the target of the branch. -/
def stale : Bool := (c.mem (c.findLine2Replace b.org b.geom (b.key d)).1).inst == d.addr

/-- What a taken branch finds is what the update compares with. -/
def TargetAlike : Prop := ∀ c, b.data = some c → d.isTaken → b.found c d = b.stale c d

/-- Both buffers hold the same tags and targets; the order within the sets may differ. -/
structure SameTargets (b b' : BPBTB) : Prop where
  shift : b'.shift = b.shift
  org : b'.org = b.org
  geom : b'.geom = b.geom
  data : b'.data.map CacheCore.mem = b.data.map CacheCore.mem

theorem SameTargets.refl : SameTargets b b := ⟨rfl, rfl, rfl, rfl⟩

theorem predict_false_snd : SameTargets b (b.predict d false).2 := by
  unfold predict
  split
  · exact .refl b
  · rename_i c hc
    rw [if_pos (by simp)]
    refine ⟨rfl, rfl, rfl, ?_⟩
    show some (c.findLine b.org b.geom (b.key d)).2.mem = b.data.map CacheCore.mem
    rw [findLine_mem, hc]
    rfl

theorem fill_fst : (b.fill c d).1 = (c.mem (c.findLine2Replace b.org b.geom (b.key d)).1).inst := by
  show ((c.fillLine b.org b.geom (b.key d)).2.2.mem _).inst = _
  rw [fillLine_mem]
  rfl

variable {b c}

theorem predict_lookup (hc : b.data = some c) {doUpdate : Bool} (h : (!d.isTaken || !doUpdate) = true) :
    (b.predict d doUpdate).1 = if b.found c d then .CorrectPrediction else .NoBTBPrediction := by
  unfold predict found
  simp only [hc, h, if_true]
  cases (c.findLine b.org b.geom (b.key d)).1 <;> simp

theorem predict_fill (hc : b.data = some c) (ht : d.isTaken = true) :
    (b.predict d true).1 = if b.stale c d then .CorrectPrediction else .NoBTBPrediction := by
  unfold predict stale
  simp only [hc, ht, fill_fst]
  simp

theorem predict_none (hc : b.data = none) (doUpdate doUpdate' : Bool) :
    (b.predict d doUpdate).1 = (b.predict d doUpdate').1 := by
  unfold predict
  simp only [hc]

variable (b)

theorem predict_agrees_iff : (b.predict d false).1 = (b.predict d true).1 ↔ b.TargetAlike d := by
  cases hc : b.data with
  | none => exact iff_of_true (predict_none d hc _ _) fun c h => by simp [hc] at h
  | some c =>
    rw [TargetAlike, predict_lookup d hc (by simp)]
    cases ht : d.isTaken with
    | false =>
      rw [predict_lookup d hc (by simp [ht])]
      simp
    | true =>
      rw [predict_fill d hc ht]
      cases h1 : b.found c d <;> cases h2 : b.stale c d <;> simp [hc, h1, h2]

/-- **In a well-formed buffer** a line that is found is the line a fill takes, so the two calls
differ only on a miss, when the line to be replaced happens to hold the target. Keys with tag
zero are apart: they match every line not yet used. -/
theorem targetAlike_iff (hc : b.data = some c) (hok : CacheOk b.org b.geom c)
    (h0 : b.geom.calcTag (b.key d) ≠ 0) :
    b.TargetAlike d ↔
      (d.isTaken → (c.findLine b.org b.geom (b.key d)).1 = none → b.stale c d = false) := by
  obtain ⟨-, -, hans⟩ := findLine_spec hok h0
  have hpick := findLine2Replace_spec hok h0
  have hall : b.TargetAlike d ↔ (d.isTaken → b.found c d = b.stale c d) :=
    ⟨fun h => h c hc, fun h c' hc' => Option.some.inj (hc.symm.trans hc') ▸ h⟩
  rw [hall]
  refine forall_congr' fun _ => ?_
  unfold found
  cases hf : (c.findLine b.org b.geom (b.key d)).1 with
  | none =>
    rw [Option.any_none]
    exact ⟨fun h _ => h.symm, fun h => (h rfl).symm⟩
  | some l =>
    rw [hf] at hans
    obtain ⟨p, hp, rfl, htag⟩ := hans
    simp [stale, hpick.resident p hp htag]

/-- Right after its own update a taken branch finds its target. -/
theorem predict_updateOnly (ht : d.isTaken = true) :
    ((b.updateOnly d).predict d true).1 = .CorrectPrediction := by
  cases hc : b.data with
  | none =>
    have hb : b.updateOnly d = b := by simp only [updateOnly, hc]
    rw [hb]
    simp [predict, hc, ht]
  | some c =>
    have hb : b.updateOnly d = { b with data := some (b.fill c d).2 } := by simp only [updateOnly, hc, ht, if_true]
    rw [hb, predict_fill d rfl ht, if_pos]
    -- the second fill picks the line of the first, whose target is now the branch's
    have hagain := c.findLine2Replace_again b.org b.geom (b.key d) (fun l => { l with inst := d.addr })
      (fun _ => rfl)
    show ((b.fill c d).2.mem ((b.fill c d).2.findLine2Replace b.org b.geom (b.key d)).1).inst == d.addr
    have hline : ((b.fill c d).2.findLine2Replace b.org b.geom (b.key d)).1 =
        (c.fillLine b.org b.geom (b.key d)).1 := hagain
    have hself := updLine_self (c.fillLine b.org b.geom (b.key d)).2.2 (c.fillLine b.org b.geom (b.key d)).1
      (fun l : BTBState => { l with inst := d.addr })
    rw [hline]
    exact beq_iff_eq.2 (congrArg BTBState.inst hself)

end BPBTB

/-! ## Direction tables -/

theorem SCTable.lookup_false (t : SCTable) (cid : HistoryType) (taken : Bool) :
    t.lookup cid taken false = (t.predict cid, t) := rfl

theorem SCTable.lookup_fst (t : SCTable) (cid : HistoryType) (taken doUpdate : Bool) :
    (t.lookup cid taken doUpdate).1 = t.predict cid := by
  cases doUpdate <;> rfl

/-- The common end agrees with itself unless the target buffer is asked and does not. -/
theorem resolve_agrees_iff (b : BPBTB) (d : CtrlInst) (ptaken : Bool) :
    (resolve b d ptaken false).1 = (resolve b d ptaken true).1 ↔ (ptaken = true → b.TargetAlike d) := by
  unfold resolve
  by_cases ht : d.isTaken = ptaken
  · cases ptaken with
    | false => simp [ht]
    | true => simpa [ht] using b.predict_agrees_iff d
  · simp only [ne_eq, ht, not_false_eq_true, if_true]
    refine iff_of_true trivial fun hp => ?_
    intro c hc htk
    rw [hp, htk] at ht
    exact absurd rfl ht

theorem resolve_false_snd (b : BPBTB) (d : CtrlInst) (ptaken : Bool) :
    b.SameTargets (resolve b d ptaken false).2 := by
  unfold resolve
  split
  · exact .refl b
  · split
    · exact b.predict_false_snd d
    · exact .refl b

/-! ## The eleven predictors -/

/-- Whether a conditional branch is predicted taken, for the predictors that keep tables. -/
def BPred.ptaken (p : BPred) (d : CtrlInst) : Bool :=
  match p with
  | .twoBit q => (q.direction d false).1
  | .twoLevel q => (q.direction d false).1
  | .twoBcgSkew q => (q.direction d false).1
  | .hybrid q => (q.direction d false).1
  | .yags q => (q.direction d false).1
  | .ogehl q => (q.direction d false).1
  | .sogehl q => decide (0 ≤ q.gehl.sum (q.iID d))
  | _ => false

/-- What the table predictors have in common: asking for the direction changes nothing, the
update does not change the answer, and neither reaches into the target buffer. -/
structure DirectionOk {σ : Type} (btb : σ → BPBTB) (p : σ) (dir : Bool → Bool × σ) : Prop where
  keep : (dir false).2 = p
  same : (dir true).1 = (dir false).1
  btb : ∀ u, btb (dir u).2 = btb p

section Directions

variable (d : CtrlInst)

theorem BP2bit.direction_ok (p : BP2bit) : DirectionOk BP2bit.btb p (p.direction d) :=
  ⟨rfl, rfl, fun _ => rfl⟩

theorem BP2level.direction_ok (p : BP2level) : DirectionOk BP2level.btb p (p.direction d) :=
  ⟨rfl, rfl, fun _ => rfl⟩

theorem BPHybrid.direction_ok (p : BPHybrid) : DirectionOk BPHybrid.btb p (p.direction d) := by
  refine ⟨rfl, ?_, fun _ => rfl⟩
  -- the meta table answers before it learns
  simp only [direction, SCTable.lookup_fst, SCTable.predictUpdate]
  congr 2
  simp only [Bool.not_true, Bool.false_eq_true, if_false, Bool.not_false, if_true]
  split
  · rfl
  · split <;> rfl

theorem BP2BcgSkew.direction_ok (p : BP2BcgSkew) : DirectionOk BP2BcgSkew.btb p (p.direction d) := by
  refine ⟨rfl, rfl, fun u => ?_⟩
  simp only [direction, apply_ite BP2BcgSkew.btb]
  simp only [learnMiss, learnHit, ite_self]

theorem BPyags.direction_ok (p : BPyags) : DirectionOk BPyags.btb p (p.direction d) := by
  refine ⟨?_, ?_, fun u => ?_⟩
  · simp only [direction, SCTable.lookup_false]
    split
    · split
      · rfl
      · rw [if_neg (by simp)]
        rfl
    · split
      · rfl
      · rw [if_neg (by simp)]
        rfl
  · -- a miss in a direction cache leaves the choice table's answer, learnt or not
    simp only [direction, SCTable.lookup_fst]
    split
    · split
      · rfl
      · rw [if_neg (c := false = true ∧ _) (by simp)]
        split <;> rfl
    · split
      · rfl
      · rw [if_neg (c := false = true ∧ _) (by simp)]
        split <;> rfl
  · simp only [direction]
    split
    · split
      · rfl
      · split <;> rfl
    · split
      · rfl
      · split <;> rfl

theorem BPOgehl.direction_ok (p : BPOgehl) : DirectionOk BPOgehl.btb p (p.direction d) :=
  ⟨rfl, rfl, fun u => by cases u <;> rfl⟩

end Directions

namespace BPred

/-- **Where the two calls agree**, by predictor. A branch only depends on the target buffer
when it gets that far: a jump, or a branch predicted taken. The SCOORE O-GEHL puts the target of
a branch it trains on into the buffer before it looks there, so without the update the target
must be there already. -/
def Agrees (p : BPred) (d : CtrlInst) : Prop :=
  match p with
  | oracle b | taken b => b.TargetAlike d
  | notTaken b => d.inst.isJump → b.TargetAlike d
  | notTakenEnhanced b => d.inst.isJump ∨ d.addr < d.pc → b.TargetAlike d
  | sogehl q =>
    if d.inst.isJump then q.btb.TargetAlike d
    else p.ptaken d → if q.gehl.trains (q.gehl.sum (q.iID d)) d.isTaken then
      ∀ c, q.btb.data = some c → d.isTaken → q.btb.found c d
    else q.btb.TargetAlike d
  | p => d.inst.isJump ∨ p.ptaken d → p.btb.TargetAlike d

variable (p : BPred) (d : CtrlInst)

theorem setBtb_self : p.setBtb p.btb = p := by
  cases p <;> rfl

/-- The answers of a table predictor. -/
theorem tablePredict_agrees_iff {σ : Type} {mk : σ → BPred} {btb : σ → BPBTB} {q : σ}
    {dir : Bool → Bool × σ} (hok : DirectionOk btb q dir) (hbtb : ∀ q, (mk q).btb = btb q) :
    (tablePredict (mk q) ((dir false).map id mk) d false).1 =
        (tablePredict (mk q) ((dir true).map id mk) d true).1 ↔
      (d.inst.isJump ∨ (dir false).1 → (btb q).TargetAlike d) := by
  unfold tablePredict
  by_cases hj : d.inst.isJump
  · simp only [hj, if_true, true_or, forall_const]
    rw [hbtb]
    exact (btb q).predict_agrees_iff d
  · simp only [hj, if_false, Bool.false_eq_true, false_or, Prod.map_fst, Prod.map_snd, id_eq]
    rw [hbtb, hbtb, hok.btb, hok.btb, hok.same]
    exact resolve_agrees_iff (btb q) d (dir false).1

theorem tablePredict_false_snd {σ : Type} {mk : σ → BPred} {btb : σ → BPBTB} {q : σ}
    {dir : Bool → Bool × σ} (hok : DirectionOk btb q dir) :
    ∃ b, (mk q).btb.SameTargets b ∧
      (tablePredict (mk q) ((dir false).map id mk) d false).2 = (mk q).setBtb b := by
  unfold tablePredict
  split
  · exact ⟨_, (mk q).btb.predict_false_snd d, rfl⟩
  · simp only [Prod.map_fst, Prod.map_snd, id_eq, hok.keep]
    exact ⟨_, resolve_false_snd _ d _, rfl⟩

theorem sogehl_agrees_iff (q : BPSOgehl) :
    (q.predict d false).1 = (q.predict d true).1 ↔ (sogehl q).Agrees d := by
  unfold BPSOgehl.predict Agrees ptaken
  by_cases hj : d.inst.isJump
  · simp only [hj, if_true]
    exact q.btb.predict_agrees_iff d
  simp only [hj, Bool.false_eq_true, if_false, if_true]
  by_cases hdir : d.isTaken = decide (0 ≤ q.gehl.sum (q.iID d))
  · rw [if_neg (not_not.2 hdir), if_neg (not_not.2 hdir)]
    by_cases hpt : decide (0 ≤ q.gehl.sum (q.iID d)) = true
    · have ht : d.isTaken = true := hdir.trans hpt
      rw [if_pos hpt, if_pos hpt]
      simp only [hpt, forall_const]
      by_cases htr : q.gehl.trains (q.gehl.sum (q.iID d)) d.isTaken = true
      · -- the updating call has just put the target where it looks
        simp only [htr, if_true]
        rw [q.btb.predict_updateOnly d ht]
        cases hc : q.btb.data with
        | none => simp [BPBTB.predict, hc, ht]
        | some c =>
          rw [BPBTB.predict_lookup d hc (by simp)]
          cases hf : q.btb.found c d <;> simp [ht, hf]
      · simp only [htr, Bool.false_eq_true, if_false]
        exact q.btb.predict_agrees_iff d
    · rw [if_neg hpt, if_neg hpt]
      simp [hpt]
  · rw [if_pos hdir, if_pos hdir]
    refine iff_of_true rfl fun hpt => ?_
    -- predicted taken and not taken: the target buffer is not asked
    have ht : d.isTaken = false := by
      rw [hpt] at hdir
      exact Bool.eq_false_iff.2 hdir
    split
    · intro c _ h
      simp [ht] at h
    · intro c _ h
      simp [ht] at h

theorem sogehl_false_snd (q : BPSOgehl) :
    ∃ b, q.btb.SameTargets b ∧ (q.predict d false).2 = { q with btb := b } := by
  unfold BPSOgehl.predict
  dsimp only
  split
  · exact ⟨_, q.btb.predict_false_snd d, rfl⟩
  · split
    · exact ⟨_, .refl q.btb, rfl⟩
    · split
      · exact ⟨_, q.btb.predict_false_snd d, rfl⟩
      · exact ⟨_, .refl q.btb, rfl⟩

/-- **The question changes nothing** but the order in which the target buffer keeps its lines. -/
theorem predict_false_snd : ∃ b, p.btb.SameTargets b ∧ (p.predict d false).2 = p.setBtb b := by
  cases p with
  | oracle b =>
    simp only [predict, oraclePredict]
    split
    · exact ⟨b, .refl b, rfl⟩
    · exact ⟨_, b.predict_false_snd d, rfl⟩
  | notTaken b =>
    simp only [predict, notTakenPredict]
    split
    · exact ⟨_, b.predict_false_snd d, rfl⟩
    · exact ⟨b, .refl b, rfl⟩
  | notTakenEnhanced b =>
    simp only [predict, notTakenEnhancedPredict]
    split
    · exact ⟨_, b.predict_false_snd d, rfl⟩
    · split
      · split
        · exact ⟨_, b.predict_false_snd d, rfl⟩
        · exact ⟨b, .refl b, rfl⟩
      · exact ⟨b, .refl b, rfl⟩
  | taken b =>
    simp only [predict, takenPredict]
    split
    · exact ⟨_, b.predict_false_snd d, rfl⟩
    · exact ⟨b, .refl b, rfl⟩
  | twoBit q => exact tablePredict_false_snd d (q.direction_ok d)
  | twoLevel q => exact tablePredict_false_snd d (q.direction_ok d)
  | twoBcgSkew q => exact tablePredict_false_snd d (q.direction_ok d)
  | hybrid q => exact tablePredict_false_snd d (q.direction_ok d)
  | yags q => exact tablePredict_false_snd d (q.direction_ok d)
  | ogehl q => exact tablePredict_false_snd d (q.direction_ok d)
  | sogehl q =>
    obtain ⟨b, hb, he⟩ := sogehl_false_snd d q
    exact ⟨b, hb, congrArg sogehl he⟩

theorem predict_agrees_iff : (p.predict d false).1 = (p.predict d true).1 ↔ p.Agrees d := by
  cases p with
  | oracle b =>
    simp only [predict, oraclePredict, Agrees]
    cases ht : d.isTaken with
    | false => simp [BPBTB.TargetAlike, ht]
    | true => simpa using b.predict_agrees_iff d
  | notTaken b =>
    simp only [predict, notTakenPredict, Agrees]
    by_cases hj : d.inst.isJump
    · simpa [hj] using b.predict_agrees_iff d
    · simp [hj]
  | notTakenEnhanced b =>
    simp only [predict, notTakenEnhancedPredict, Agrees]
    by_cases hj : d.inst.isJump
    · simpa [hj] using b.predict_agrees_iff d
    · cases ht : d.isTaken with
      | false => simp [BPBTB.TargetAlike, ht, hj]
      | true =>
        by_cases hlt : d.addr < d.pc
        · simpa [hj, hlt] using b.predict_agrees_iff d
        · simp [hj, hlt]
  | taken b =>
    simp only [predict, takenPredict, Agrees]
    by_cases hj : (d.inst.isJump || d.isTaken) = true
    · rw [if_pos hj, if_pos hj]
      exact b.predict_agrees_iff d
    · rw [if_neg hj, if_neg hj]
      have ht : d.isTaken = false := by
        rw [Bool.or_eq_true, not_or] at hj
        exact Bool.eq_false_iff.2 hj.2
      simp [BPBTB.TargetAlike, ht]
  | twoBit q => exact tablePredict_agrees_iff d (q.direction_ok d) fun _ => rfl
  | twoLevel q => exact tablePredict_agrees_iff d (q.direction_ok d) fun _ => rfl
  | twoBcgSkew q => exact tablePredict_agrees_iff d (q.direction_ok d) fun _ => rfl
  | hybrid q => exact tablePredict_agrees_iff d (q.direction_ok d) fun _ => rfl
  | yags q => exact tablePredict_agrees_iff d (q.direction_ok d) fun _ => rfl
  | ogehl q => exact tablePredict_agrees_iff d (q.direction_ok d) fun _ => rfl
  | sogehl q => exact sogehl_agrees_iff d q

end BPred

/-! ## `BPredictor` -/

namespace BPredictor

/-- **Where the two calls agree.** A return is decided by the stack, everything else by the
predictor. -/
def Agrees (s : BPredictor) (d : CtrlInst) : Prop :=
  if d.inst.isFuncRet then s.ras.Alike d else s.pred.Agrees d

/-- **Predicting without updating.** For every predictor, every state and every instruction, the
call without update leaves the stack, the direction tables, the histories, and the tags and
targets of the buffer as they are; and it returns what the updating call would, exactly when
the return finds alike entries on the stack, or the predictor's `Agrees` holds. -/
theorem predict_without_update (s : BPredictor) (d : CtrlInst) :
    ((s.predict d false).2.ras = s.ras ∧
        ∃ b, s.pred.btb.SameTargets b ∧ (s.predict d false).2.pred = s.pred.setBtb b) ∧
      ((s.predict d false).1 = (s.predict d true).1 ↔ s.Agrees d) := by
  cases hret : d.inst.isFuncRet with
  | true =>
    have hf := s.ras.predict_fst_of_ret d hret false
    have ht := s.ras.predict_fst_of_ret d hret true
    simp only [predict, Agrees, hret, if_true]
    rw [if_pos hf, if_pos ht]
    refine ⟨⟨s.ras.predict_false_snd d, s.pred.btb, .refl _, s.pred.setBtb_self.symm⟩, ?_⟩
    exact s.ras.predict_agrees_iff d
  | false =>
    have hf := s.ras.predict_fst_of_not_ret d hret false
    have ht := s.ras.predict_fst_of_not_ret d hret true
    simp only [predict, Agrees, hret, Bool.false_eq_true, if_false]
    rw [if_neg (not_not.2 hf), if_neg (not_not.2 ht)]
    exact ⟨⟨s.ras.predict_false_snd d, s.pred.predict_false_snd d⟩, s.pred.predict_agrees_iff d⟩

/-- A call, and the return from it. -/
def call : CtrlInst := ⟨0x1000, 0x2000, ⟨.iBALU_LCALL, 0, 0, 0, 0⟩⟩

def ret : CtrlInst := ⟨0x2010, 0x1004, ⟨.iBALU_RET, 0, 0, 0, 0⟩⟩

/-- **A return right after its call.** Started empty and after the call was predicted, the stack
holds the return address one below its index: the updating call finds it, the call without
update does not. -/
theorem return_disagrees :
    let start : BPredictor := ⟨⟨16, fun _ => 0, 0⟩, .oracle ⟨0, .dm, smallGeometry, none⟩⟩
    let s := (start.predict call true).2
    (s.predict ret false).1 = .MissPrediction ∧ (s.predict ret true).1 = .CorrectPrediction ∧ ¬s.Agrees ret := by
  refine ⟨by decide, by decide, ?_⟩
  intro h
  have := h rfl (by decide)
  revert this
  decide

end BPredictor

end Esesc.Core
