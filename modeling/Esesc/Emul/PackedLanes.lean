import Mathlib.Tactic.IntervalCases
import Esesc.Emul.Sccore

/-!
# The lanes of packed additions and subtractions

A packed micro-op is meant to add or subtract each lane by itself. Its result is put together by
or-ing shifted lanes: sign-extended ones fill what is above them, and in the 8-bit formats four of
them share one place.

* `lane_resS16`, `lane_resS08`, …: what each lane of a result is.
* `packed_laneWise_iff`: the operands for which the result is right.
-/

namespace Esesc.Emul

open Esesc.Lib

variable {w : ℕ}

/-! ## What a lane should be -/

/-- Lane `i` of the second operand; the immediate is the same in every lane. -/
def Scuop.secondLane (inst : Scuop) (s : Scstate) (w i : ℕ) : BitVec w :=
  if inst.useImm then inst.imm.setWidth w else lane w (s.getReg inst.src2) i

/-- The sum or difference of the operands' lanes. -/
def laneRes (o : Arith) (inst : Scuop) (s : Scstate) (w i : ℕ) : BitVec w :=
  o.ap (lane w (s.getReg inst.src1) i) (inst.secondLane s w i)

/-- **Lane-wise.** Every lane of the result is the sum or difference of the operands' lanes. -/
def LaneWise (o : Arith) (inst : Scuop) (s : Scstate) (w : ℕ) (res : BitVec 64) : Prop :=
  ∀ i < 64 / w, lane w res i = laneRes o inst s w i

/-- When the lanes do not get in each other's way. A negative signed lane fills all above it that
are not shifted out of its way, so these must be all ones; lanes 1 to 3 of the 8-bit formats go to
lane 4, so they must be what is there without them. -/
def Fits (o : Arith) (inst : Scuop) (s : Scstate) : Packed → Prop
  | .U32 => True
  | .U16 => True
  | .S32 => (laneRes o inst s 32 0).msb = true → laneRes o inst s 32 1 = BitVec.allOnes 32
  | .S16 => ∀ i j, i < j → j < 4 → (laneRes o inst s 16 i).msb = true → laneRes o inst s 16 j = BitVec.allOnes 16
  | .S08 =>
    (∀ i j, i < j → j < 8 → i = 0 ∨ 4 ≤ i → (laneRes o inst s 8 i).msb = true →
      laneRes o inst s 8 j = BitVec.allOnes 8) ∧
    ((laneRes o inst s 8 0).msb = false → ∀ j, 0 < j → j < 4 → laneRes o inst s 8 j = 0)
  | .U08 =>
    (∀ j, 0 < j → j < 4 → laneRes o inst s 8 j = 0) ∧
    (o = .sub → inst.useImm = true →
      (lane 8 (s.getReg inst.src1) 2 - (inst.imm.sshiftRight 16).setWidth 8) ||| laneRes o inst s 8 4 = laneRes o inst s 8 4)

/-! ## What a lane is -/

/-- The lanes above a sign-extended one. -/
def fill (a : BitVec w) : BitVec w := if a.msb then BitVec.allOnes w else 0

variable (o : Arith) (inst : Scuop) (s : Scstate)

theorem first_eq (w i : ℕ) : inst.first s w (w * i) = lane w (s.getReg inst.src1) i := rfl

theorem second_eq (w i : ℕ) : inst.second s w (w * i) = inst.secondLane s w i := rfl

/-- Lane by lane, `imm` is what the third and the last lane of `OP_S16_ADD` get too. -/
theorem tempBS16_eq (sh : ℕ) : inst.tempBS16 s o sh = inst.second s 16 sh := by
  unfold Scuop.tempBS16 Scuop.second
  cases o <;> cases inst.useImm <;> simp

theorem lane_signExtend (a : BitVec w) {i : ℕ} (hi : w * i + w ≤ 64) :
    lane w (a.signExtend 64) i = if i = 0 then a else fill a := by
  have h := lane_shl_signExtend a (k := 0) hi
  rw [Nat.mul_zero, BitVec.shiftLeft_zero] at h
  simpa [fill] using h

theorem lane_setWidth (a : BitVec w) {i : ℕ} (hi : w * i + w ≤ 64) :
    lane w (a.setWidth 64) i = if i = 0 then a else 0 := by
  have h := lane_shl_setWidth a (k := 0) hi
  rwa [Nat.mul_zero, BitVec.shiftLeft_zero] at h

theorem lane_shlS (a : BitVec w) {i k sh : ℕ} (hi : w * i + w ≤ 64) (hsh : sh = w * k) :
    lane w (shlS a sh) i = if i < k then 0 else if i = k then a else fill a := by
  rw [shlS, hsh]
  exact lane_shl_signExtend a hi

theorem lane_shlU (a : BitVec w) {i k sh : ℕ} (hi : w * i + w ≤ 64) (hsh : sh = w * k) :
    lane w (shlU a sh) i = if i = k then a else 0 := by
  rw [shlU, hsh]
  exact lane_shl_setWidth a hi

/-- Filling changes nothing where all bits are set. -/
theorem or_fill_eq_self {a b : BitVec w} : a ||| fill b = a ↔ (b.msb = true → a = BitVec.allOnes w) := by
  unfold fill
  split
  · rename_i h
    simp [h, eq_comm]
  · rename_i h
    simp [h]

theorem lane_resS32 {i : ℕ} (hi : i < 2) : lane 32 (resS32 o inst s) i =
    if i = 0 then laneRes o inst s 32 0 else laneRes o inst s 32 1 ||| fill (laneRes o inst s 32 0) := by
  unfold resS32
  rw [lane_or, lane_shlS _ (by omega) (show 32 = 32 * 1 from rfl), lane_signExtend _ (by omega)]
  interval_cases i <;> simp [laneRes, ← first_eq, ← second_eq]

theorem lane_resU32 {i : ℕ} (hi : i < 2) : lane 32 (resU32 o inst s) i = laneRes o inst s 32 i := by
  unfold resU32
  rw [lane_or, lane_shlU _ (by omega) (show 32 = 32 * 1 from rfl), lane_setWidth _ (by omega)]
  interval_cases i <;> simp [laneRes, ← first_eq, ← second_eq]

/-- A lane with the lanes that are sign-extended over it. -/
def filled (a : BitVec w) (below : List (BitVec w)) : BitVec w := below.foldl (fun x b => x ||| fill b) a

theorem filled_eq_self {a : BitVec w} {below : List (BitVec w)} :
    filled a below = a ↔ ∀ b ∈ below, b.msb = true → a = BitVec.allOnes w := by
  have hset : ∀ l : List (BitVec w), filled (BitVec.allOnes w) l = BitVec.allOnes w := by
    intro l
    induction l with
    | nil => rfl
    | cons b l ih => rw [filled, List.foldl_cons, BitVec.allOnes_or]; exact ih
  induction below with
  | nil => simp [filled]
  | cons b l ih =>
    by_cases hb : b.msb = true
    · have hstep : filled a (b :: l) = BitVec.allOnes w := by
        rw [filled, List.foldl_cons, fill, if_pos hb, BitVec.or_allOnes]
        exact hset l
      rw [hstep]
      constructor
      · exact fun h _ _ _ => h.symm
      · exact fun h => (h b List.mem_cons_self hb).symm
    · have hstep : filled a (b :: l) = filled a l := by
        rw [filled, List.foldl_cons, fill, if_neg hb]
        simp [filled]
      rw [hstep]
      refine ih.trans ?_
      simp [hb]

theorem lane_resS16 {i : ℕ} (hi : i < 4) :
    lane 16 (resS16 o inst s) i = filled (laneRes o inst s 16 i) ((List.range i).map (laneRes o inst s 16)) := by
  unfold resS16
  rw [lane_or, lane_or, lane_or, lane_shlS _ (by omega) (show 48 = 16 * 3 from rfl),
    lane_shlS _ (by omega) (show 32 = 16 * 2 from rfl), lane_shlS _ (by omega) (show 16 = 16 * 1 from rfl),
    lane_signExtend _ (by omega), tempBS16_eq, tempBS16_eq]
  interval_cases i <;> simp [laneRes, filled, List.range_succ, ← first_eq, ← second_eq, BitVec.or_assoc] <;> ac_rfl

theorem lane_resU16 {i : ℕ} (hi : i < 4) : lane 16 (resU16 o inst s) i = laneRes o inst s 16 i := by
  unfold resU16
  rw [lane_or, lane_or, lane_or, lane_shlU _ (by omega) (show 48 = 16 * 3 from rfl),
    lane_shlU _ (by omega) (show 32 = 16 * 2 from rfl), lane_shlU _ (by omega) (show 16 = 16 * 1 from rfl),
    lane_setWidth _ (by omega)]
  interval_cases i <;> simp [laneRes, ← first_eq, ← second_eq]

/-- The second, third and fourth lane are or-ed to the fifth. -/
theorem lane_resS08 {i : ℕ} (hi : i < 8) : lane 8 (resS08 o inst s) i =
    if i = 0 then laneRes o inst s 8 0
    else if i < 4 then fill (laneRes o inst s 8 0)
    else if i = 4 then
      filled (laneRes o inst s 8 4 ||| laneRes o inst s 8 3 ||| laneRes o inst s 8 2 ||| laneRes o inst s 8 1)
        [laneRes o inst s 8 0]
    else filled (laneRes o inst s 8 i) ((List.range i).map (laneRes o inst s 8)) := by
  unfold resS08
  simp only [lane_or]
  rw [lane_shlS _ (by omega) (show 56 = 8 * 7 from rfl), lane_shlS _ (by omega) (show 48 = 8 * 6 from rfl),
    lane_shlS _ (by omega) (show 40 = 8 * 5 from rfl), lane_shlS _ (by omega) (show 32 = 8 * 4 from rfl),
    lane_shlS _ (by omega) (show 32 = 8 * 4 from rfl), lane_shlS _ (by omega) (show 32 = 8 * 4 from rfl),
    lane_shlS _ (by omega) (show 32 = 8 * 4 from rfl), lane_signExtend _ (by omega)]
  interval_cases i <;> simp [laneRes, filled, List.range_succ, ← first_eq, ← second_eq] <;> ac_rfl

theorem lane_resU08 {i : ℕ} (hi : i < 8) : lane 8 (resU08 o inst s) i =
    if i = 0 then laneRes o inst s 8 0
    else if i < 4 then 0
    else if i = 4 then
      laneRes o inst s 8 4 ||| laneRes o inst s 8 3 ||| o.ap (lane 8 (s.getReg inst.src1) 2) (inst.tempBU8 s o) |||
        laneRes o inst s 8 1
    else laneRes o inst s 8 i := by
  unfold resU08
  simp only [lane_or]
  rw [lane_shlU _ (by omega) (show 56 = 8 * 7 from rfl), lane_shlU _ (by omega) (show 48 = 8 * 6 from rfl),
    lane_shlU _ (by omega) (show 40 = 8 * 5 from rfl), lane_shlU _ (by omega) (show 32 = 8 * 4 from rfl),
    lane_shlU _ (by omega) (show 32 = 8 * 4 from rfl), lane_shlU _ (by omega) (show 32 = 8 * 4 from rfl),
    lane_shlU _ (by omega) (show 32 = 8 * 4 from rfl), lane_setWidth _ (by omega)]
  interval_cases i <;> simp [laneRes, ← first_eq, ← second_eq]

/-! ## When the lanes are right -/

theorem laneWise_resS32 : LaneWise o inst s 32 (resS32 o inst s) ↔ Fits o inst s .S32 := by
  constructor
  · intro h
    have h1 := h 1 (by omega)
    rw [lane_resS32 _ _ _ (by omega), if_neg (by omega)] at h1
    exact or_fill_eq_self.1 h1
  · intro h i hi
    rw [lane_resS32 _ _ _ hi]
    split
    · rename_i h0
      rw [h0]
    · have h1 : i = 1 := by omega
      rw [h1]
      exact or_fill_eq_self.2 h

theorem laneWise_resS16 : LaneWise o inst s 16 (resS16 o inst s) ↔ Fits o inst s .S16 := by
  constructor
  · intro h i j hij hj
    have hlane := h j (by omega)
    rw [lane_resS16 _ _ _ hj, filled_eq_self] at hlane
    exact hlane _ (List.mem_map_of_mem (List.mem_range.2 hij))
  · intro h j hj
    rw [lane_resS16 _ _ _ (by omega), filled_eq_self]
    intro b hb
    obtain ⟨i, hi, rfl⟩ := List.mem_map.1 hb
    exact h i j (List.mem_range.1 hi) (by omega)

theorem laneWise_resS08 : LaneWise o inst s 8 (resS08 o inst s) ↔ Fits o inst s .S08 := by
  constructor
  · intro h
    -- lanes 1 to 3 hold the sign of lane 0 and nothing of their own
    have hlow : ∀ j, 0 < j → j < 4 → laneRes o inst s 8 j = fill (laneRes o inst s 8 0) := by
      intro j hj0 hj4
      have := h j (by omega)
      rwa [lane_resS08 _ _ _ (by omega), if_neg (by omega), if_pos hj4, eq_comm] at this
    constructor
    · intro i j hij hj hi hneg
      by_cases hj4 : j < 4
      · rw [hlow j (by omega) hj4, fill, if_pos (by rwa [show i = 0 by omega] at hneg)]
      by_cases hj5 : j = 4
      · have hlane := h 4 (by omega)
        rw [lane_resS08 _ _ _ (by omega), if_neg (by omega), if_neg (by omega), if_pos rfl] at hlane
        rw [show i = 0 by omega] at hneg
        rw [hj5, ← hlane, filled, List.foldl_cons, fill, if_pos hneg, BitVec.or_allOnes]
        rfl
      · have hlane := h j (by omega)
        rw [lane_resS08 _ _ _ hj, if_neg (by omega), if_neg hj4, if_neg hj5, filled_eq_self] at hlane
        exact hlane _ (List.mem_map_of_mem (List.mem_range.2 hij)) hneg
    · intro hpos j hj0 hj4
      rw [hlow j hj0 hj4, fill, if_neg (by simp [hpos])]
  · rintro ⟨hneg, hpos⟩ i hi
    have hlow : ∀ j, 0 < j → j < 4 → laneRes o inst s 8 j = fill (laneRes o inst s 8 0) := by
      intro j hj0 hj4
      unfold fill
      split
      · rename_i h0
        exact hneg 0 j hj0 (by omega) (.inl rfl) h0
      · rename_i h0
        exact hpos (by simpa using h0) j hj0 hj4
    rw [lane_resS08 _ _ _ (by omega)]
    split
    · rename_i h0
      rw [h0]
    split
    · exact (hlow i (by omega) ‹_›).symm
    split
    · rename_i h4
      have hfill : laneRes o inst s 8 4 ||| fill (laneRes o inst s 8 0) = laneRes o inst s 8 4 :=
        or_fill_eq_self.2 (hneg 0 4 (by omega) (by omega) (.inl rfl))
      rw [h4, hlow 3 (by omega) (by omega), hlow 2 (by omega) (by omega), hlow 1 (by omega) (by omega), hfill, hfill,
        hfill]
      exact hfill
    · rw [filled_eq_self]
      intro b hb hmsb
      obtain ⟨j, hj, rfl⟩ := List.mem_map.1 hb
      have hji := List.mem_range.1 hj
      by_cases hj4 : 0 < j ∧ j < 4
      · -- such a lane is negative only when lane 0 is
        refine hneg 0 i (by omega) (by omega) (.inl rfl) ?_
        rw [hlow j hj4.1 hj4.2] at hmsb
        by_contra h0
        rw [fill, if_neg h0] at hmsb
        simp at hmsb
      · exact hneg j i hji (by omega) (by omega) hmsb

theorem ap_tempBU8 (h : ¬(o = .sub ∧ inst.useImm = true)) :
    o.ap (lane 8 (s.getReg inst.src1) 2) (inst.tempBU8 s o) = laneRes o inst s 8 2 := by
  cases o with
  | add => rfl
  | sub =>
    have himm : inst.useImm = false := by simpa using h
    simp only [Scuop.tempBU8, himm, laneRes, Scuop.secondLane, Scuop.second]
    rfl

theorem laneWise_resU08 : LaneWise o inst s 8 (resU08 o inst s) ↔ Fits o inst s .U08 := by
  have hzero : (∀ j, 0 < j → j < 4 → lane 8 (resU08 o inst s) j = laneRes o inst s 8 j) ↔
      ∀ j, 0 < j → j < 4 → laneRes o inst s 8 j = 0 := by
    refine forall_congr' fun j => imp_congr_right fun hj0 => imp_congr_right fun hj4 => ?_
    rw [lane_resU08 _ _ _ (by omega), if_neg (by omega), if_pos hj4, eq_comm]
  -- what is or-ed to lane 4 once lanes 1 and 3 are zero
  have hfifth : (∀ j, 0 < j → j < 4 → laneRes o inst s 8 j = 0) → (lane 8 (resU08 o inst s) 4 = laneRes o inst s 8 4 ↔
      (o = .sub → inst.useImm = true → (lane 8 (s.getReg inst.src1) 2 - (inst.imm.sshiftRight 16).setWidth 8) |||
        laneRes o inst s 8 4 = laneRes o inst s 8 4)) := by
    intro h0
    rw [lane_resU08 _ _ _ (by omega), if_neg (by omega), if_neg (by omega), if_pos rfl, h0 3 (by omega) (by omega),
      h0 1 (by omega) (by omega)]
    by_cases hop : o = .sub ∧ inst.useImm = true
    · obtain ⟨rfl, himm⟩ := hop
      simp only [Scuop.tempBU8, himm, Arith.ap, if_true, forall_const]
      simp [BitVec.or_comm]
    · rw [ap_tempBU8 _ _ _ hop, h0 2 (by omega) (by omega)]
      exact iff_of_true (by simp) fun ho hi => absurd ⟨ho, hi⟩ hop
  constructor
  · intro h
    have h0 := hzero.1 fun j _ hj4 => h j (by omega)
    exact ⟨h0, (hfifth h0).1 (h 4 (by omega))⟩
  · rintro ⟨h0, h4⟩ i hi
    by_cases hi0 : i = 0
    · rw [hi0, lane_resU08 _ _ _ (by omega), if_pos rfl]
    by_cases hi4 : i < 4
    · exact hzero.2 h0 i (by omega) hi4
    by_cases hi5 : i = 4
    · rw [hi5]
      exact (hfifth h0).2 h4
    · rw [lane_resU08 _ _ _ (by omega), if_neg hi0, if_neg hi4, if_neg hi5]

theorem laneWise_packedRes (p : Packed) : LaneWise o inst s p.width (packedRes o inst s p) ↔ Fits o inst s p := by
  cases p with
  | S32 => exact laneWise_resS32 o inst s
  | U32 => exact iff_of_true (fun _ hi => lane_resU32 o inst s hi) trivial
  | S16 => exact laneWise_resS16 o inst s
  | U16 => exact iff_of_true (fun _ hi => lane_resU16 o inst s hi) trivial
  | S08 => exact laneWise_resS08 o inst s
  | U08 => exact laneWise_resU08 o inst s

/-- What is lane-wise is determined. -/
theorem LaneWise.ext {o : Arith} {inst : Scuop} {s : Scstate} {w m : ℕ} {x y : BitVec 64} (hw : 64 = w * m)
    (h0 : 0 < w) (hx : LaneWise o inst s w x) (hy : LaneWise o inst s w y) : x = y := by
  refine eq_of_lane_eq hw h0 fun i hi => ?_
  have hi' : i < 64 / w := by rwa [hw, Nat.mul_div_cancel_left m h0]
  rw [hx i hi', hy i hi']

theorem setDst_rf (op : Scuop) (data : BitVec 64) (cc cc' : CCType) :
    (s.setDst op data cc).rf = (s.setDst op data cc').rf := by
  unfold Scstate.setDst
  cases op.seticc <;> dsimp only <;> split <;> rfl

/-- The other format of the same width. -/
def Packed.sibling : Packed → Packed
  | .S32 => .U32
  | .U32 => .S32
  | .S16 => .U16
  | .U16 => .S16
  | .S08 => .U08
  | .U08 => .S08

/-- **Packed arithmetic.** The result of a packed addition or subtraction is lane-wise exactly when its
lanes fit; the signed and the unsigned format are both lane-wise, and then leave the same value in the
destination, exactly when the lanes of both fit. -/
theorem packed_laneWise_iff (o : Arith) (inst : Scuop) (s : Scstate) (p : Packed) :
    (LaneWise o inst s p.width (packedRes o inst s p) ↔ Fits o inst s p) ∧
    ((LaneWise o inst s p.width (packedRes o inst s p) ∧
        LaneWise o inst s p.sibling.width (packedRes o inst s p.sibling) ∧
        (packed o inst s p).getReg inst.dst = (packed o inst s p.sibling).getReg inst.dst) ↔
      Fits o inst s p ∧ Fits o inst s p.sibling) := by
  have hp := laneWise_packedRes o inst s p
  have hq := laneWise_packedRes o inst s p.sibling
  refine ⟨hp, fun ⟨h1, h2, _⟩ => ⟨hp.1 h1, hq.1 h2⟩, fun ⟨h1, h2⟩ => ⟨hp.2 h1, hq.2 h2, ?_⟩⟩
  have hwidth : p.sibling.width = p.width := by cases p <;> rfl
  have hdiv : ∃ m, 64 = p.width * m := by
    cases p with
    | S32 | U32 => exact ⟨2, rfl⟩
    | S16 | U16 => exact ⟨4, rfl⟩
    | S08 | U08 => exact ⟨8, rfl⟩
  have hpos : 0 < p.width := by cases p <;> decide
  obtain ⟨m, hm⟩ := hdiv
  have hres : packedRes o inst s p = packedRes o inst s p.sibling :=
    LaneWise.ext hm hpos (hp.2 h1) (hwidth ▸ hq.2 h2)
  unfold packed
  rw [hres]
  exact congrFun (setDst_rf s inst _ _ _) inst.dst

/-- Two registers of 64 bits, the first with a negative low lane. -/
def negativeLow : Scstate where
  rf := fun r => if r = 33 then 0xFFFFFFFF else 0
  iccrf := fun _ => 0
  pc := 0
  flush := false
  nop := false

def addRegs : Scuop where
  useImm := false
  seticc := false
  src1 := 33
  src2 := 34
  dst := 35
  imm := 0

/-- **A lane lost.** `0x00000000FFFFFFFF` plus zero gets all ones in its upper lane from `OP_S32_ADD`,
and stays what it is with `OP_U32_ADD`. -/
theorem OP_S32_ADD_upper_lane_lost :
    (OP_S32_ADD addRegs negativeLow).getReg 35 = 0xFFFFFFFFFFFFFFFF ∧
    (OP_U32_ADD addRegs negativeLow).getReg 35 = 0x00000000FFFFFFFF ∧
    laneRes .add addRegs negativeLow 32 1 = 0 ∧
    ¬LaneWise .add addRegs negativeLow 32 (packedRes .add addRegs negativeLow .S32) := by
  refine ⟨by decide, by decide, by decide, fun h => ?_⟩
  exact absurd (h 1 (by decide)) (by decide)

end Esesc.Emul
