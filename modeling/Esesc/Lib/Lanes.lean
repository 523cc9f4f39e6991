import Mathlib.Tactic.Common

/-!
# Lanes of a word

A word cut into lanes of one width. `lane w x i` is lane `i` of `x`, counted from the low end.

* `lane_or`: lanes go through a bitwise or.
* `lane_shl_setWidth`: a lane put in its place leaves the others alone.
* `lane_shl_signExtend`: one that is sign-extended on the way fills the lanes above with its sign.
* `eq_of_lane_eq`: a word is determined by its lanes.
-/

namespace Esesc.Lib

variable {n w : ℕ}

/-- Lane `i`, of width `w`. -/
def lane (w : ℕ) (x : BitVec n) (i : ℕ) : BitVec w := (x >>> (w * i)).setWidth w

theorem getLsbD_lane (x : BitVec n) (i : ℕ) {j : ℕ} (hj : j < w) : (lane w x i).getLsbD j = x.getLsbD (w * i + j) := by
  simp [lane, hj]

theorem lane_or (x y : BitVec n) (i : ℕ) : lane w (x ||| y) i = lane w x i ||| lane w y i := by
  refine BitVec.eq_of_getLsbD_eq fun j hj => ?_
  rw [BitVec.getLsbD_or, getLsbD_lane _ _ hj, getLsbD_lane _ _ hj, getLsbD_lane _ _ hj, BitVec.getLsbD_or]

/-- Where bit `j` of lane `i` lies with respect to the start of lane `k`. -/
theorem lane_bit_lt_iff {i j k : ℕ} (hj : j < w) : w * i + j < w * k ↔ i < k := by
  constructor
  · intro h
    by_contra hik
    have := Nat.mul_le_mul_left w (Nat.not_lt.1 hik)
    omega
  · intro h
    have := Nat.mul_le_mul_left w (Nat.succ_le_of_lt h)
    rw [Nat.mul_succ] at this
    omega

theorem getLsbD_lane_shl (x : BitVec n) {i j k : ℕ} (hj : j < w) (hi : w * i + w ≤ n) :
    (lane w (x <<< (w * k)) i).getLsbD j = (decide (k ≤ i) && x.getLsbD (w * (i - k) + j)) := by
  have hlt : w * i + j < n := by omega
  rw [getLsbD_lane _ _ hj, BitVec.getLsbD_shiftLeft]
  simp only [hlt, decide_true, Bool.true_and, lane_bit_lt_iff hj]
  by_cases hk : k ≤ i
  · have hsub : w * i + j - w * k = w * (i - k) + j := by
      have := Nat.mul_le_mul_left w hk
      rw [Nat.mul_sub]
      omega
    simp [hk, hsub, Nat.not_lt.2 hk]
  · simp [hk, Nat.not_le.1 hk]

/-- **In place.** -/
theorem lane_shl_setWidth (a : BitVec w) {i k : ℕ} (hi : w * i + w ≤ n) :
    lane w ((a.setWidth n) <<< (w * k)) i = if i = k then a else 0 := by
  refine BitVec.eq_of_getLsbD_eq fun j hj => ?_
  rw [getLsbD_lane_shl _ hj hi, BitVec.getLsbD_setWidth]
  rcases Nat.lt_trichotomy i k with h | rfl | h
  · simp [Nat.not_le.2 h, Nat.ne_of_lt h]
  · have : j < n := by omega
    simp [this]
  · have hge : w ≤ w * (i - k) + j := by
      have := Nat.mul_le_mul_left w (show 1 ≤ i - k by omega)
      omega
    simp [Nat.le_of_lt h, Nat.ne_of_gt h, BitVec.getLsbD_of_ge a _ hge]

/-- **Sign-extended.** -/
theorem lane_shl_signExtend (a : BitVec w) {i k : ℕ} (hi : w * i + w ≤ n) :
    lane w ((a.signExtend n) <<< (w * k)) i =
      if i < k then 0 else if i = k then a else if a.msb then BitVec.allOnes w else 0 := by
  refine BitVec.eq_of_getLsbD_eq fun j hj => ?_
  rw [getLsbD_lane_shl _ hj hi, BitVec.getLsbD_signExtend]
  rcases Nat.lt_trichotomy i k with h | rfl | h
  · simp [Nat.not_le.2 h, h]
  · have : j < n := by omega
    simp [this, hj]
  · have hge : ¬w * (i - k) + j < w := by
      have := Nat.mul_le_mul_left w (show 1 ≤ i - k by omega)
      omega
    have hlt : w * (i - k) + j < n := by
      have := Nat.mul_le_mul_left w (Nat.sub_le i k)
      omega
    cases hm : a.msb <;> simp [Nat.le_of_lt h, Nat.ne_of_gt h, Nat.not_lt.2 (Nat.le_of_lt h), hge, hlt, hj]

theorem eq_of_lane_eq {x y : BitVec n} {m : ℕ} (hn : n = w * m) (hw : 0 < w) (h : ∀ i < m, lane w x i = lane w y i) : x = y := by
  refine BitVec.eq_of_getLsbD_eq fun j hj => ?_
  have hdiv : w * (j / w) + j % w = j := Nat.div_add_mod j w
  have hmod : j % w < w := Nat.mod_lt j hw
  have hlt : j / w < m := by
    rw [Nat.div_lt_iff_lt_mul hw, Nat.mul_comm]
    omega
  rw [← hdiv, ← getLsbD_lane x _ hmod, ← getLsbD_lane y _ hmod, h _ hlt]

end Esesc.Lib
