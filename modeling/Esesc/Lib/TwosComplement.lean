import Mathlib.Algebra.Group.Int.Defs
import Mathlib.Data.Int.Order.Basic
import Mathlib.Data.Nat.ModEq
import Mathlib.Tactic.Common

/-!
# Words as integers

The sum and the difference of two words of `w` bits, signed and unsigned, as integers that wrap around
at most once. `half w` is half the number of words.

* `toInt_add_eq`, `toInt_sub_eq`: signed.
* `toNat_add_eq`, `toNat_sub_eq`: unsigned.
* `toInt_eq_toNat_half`: from one to the other.
* `carry_iff_toInt`, `borrow_iff_toInt`: carries, by the signs.
* `append_add_iff`: two additions in a row make one of twice the width when the carry is right.
-/

namespace Esesc.Lib

variable {w : ℕ}

/-- Half the number of words. -/
def half (w : ℕ) : ℤ := 2 ^ (w - 1)

section

variable (hw : 0 < w) (a b : BitVec w)

theorem pos_half : 0 < half w := Int.pow_pos (by decide)

include hw

theorem two_pow_eq : ((2 ^ w : ℕ) : ℤ) = 2 * half w := by
  obtain ⟨m, rfl⟩ := Nat.exists_eq_succ_of_ne_zero (Nat.ne_of_gt hw)
  rw [half, Nat.succ_sub_one, Nat.pow_succ]
  push_cast
  omega

theorem toNat_lt_half : (a.toNat : ℤ) < 2 * half w := by
  rw [← two_pow_eq hw]
  exact Int.ofNat_lt.2 a.isLt

/-- Wrapping around once. -/
theorem bmod_eq {x : ℤ} (h1 : -(2 * half w) ≤ x) (h2 : x < 2 * half w) :
    x.bmod (2 ^ w) = if x < -half w then x + 2 * half w else if half w ≤ x then x - 2 * half w else x := by
  have hpow := two_pow_eq hw
  have hpos := pos_half (w := w)
  rw [Int.bmod_eq_iff (Nat.two_pow_pos w), hpow]
  split
  · exact ⟨by omega, by omega, 1, by omega⟩
  split
  · exact ⟨by omega, by omega, -1, by omega⟩
  · exact ⟨by omega, by omega, 0, by omega⟩

theorem toInt_add_eq : (a + b).toInt = if a.toInt + b.toInt < -half w then a.toInt + b.toInt + 2 * half w
    else if half w ≤ a.toInt + b.toInt then a.toInt + b.toInt - 2 * half w else a.toInt + b.toInt := by
  have ha : -half w ≤ a.toInt ∧ a.toInt < half w := ⟨a.le_toInt, a.toInt_lt⟩
  have hb : -half w ≤ b.toInt ∧ b.toInt < half w := ⟨b.le_toInt, b.toInt_lt⟩
  rw [BitVec.toInt_add]
  exact bmod_eq hw (by omega) (by omega)

theorem toInt_sub_eq : (a - b).toInt = if a.toInt - b.toInt < -half w then a.toInt - b.toInt + 2 * half w
    else if half w ≤ a.toInt - b.toInt then a.toInt - b.toInt - 2 * half w else a.toInt - b.toInt := by
  have ha : -half w ≤ a.toInt ∧ a.toInt < half w := ⟨a.le_toInt, a.toInt_lt⟩
  have hb : -half w ≤ b.toInt ∧ b.toInt < half w := ⟨b.le_toInt, b.toInt_lt⟩
  rw [BitVec.toInt_sub]
  exact bmod_eq hw (by omega) (by omega)

theorem toInt_intMin_eq : (BitVec.intMin w).toInt = -half w := BitVec.toInt_intMin_of_pos hw

omit hw in
theorem toInt_intMax_eq : (BitVec.intMax w).toInt = half w - 1 := BitVec.toInt_intMax

theorem toNat_add_eq : ((a + b).toNat : ℤ) =
    if (a.toNat : ℤ) + b.toNat < 2 * half w then (a.toNat : ℤ) + b.toNat else a.toNat + b.toNat - 2 * half w := by
  have ha := toNat_lt_half hw a
  have hb := toNat_lt_half hw b
  have hpow := two_pow_eq hw
  rw [BitVec.toNat_add]
  by_cases hlt : a.toNat + b.toNat < 2 ^ w
  · rw [Nat.mod_eq_of_lt hlt, if_pos (by omega)]
    omega
  · rw [Nat.mod_eq_sub_mod (by omega), Nat.mod_eq_of_lt (by omega), if_neg (by omega)]
    omega

theorem toNat_sub_eq : ((a - b).toNat : ℤ) =
    if (b.toNat : ℤ) ≤ a.toNat then (a.toNat : ℤ) - b.toNat else a.toNat - b.toNat + 2 * half w := by
  have ha := toNat_lt_half hw a
  have hb := toNat_lt_half hw b
  have hpow := two_pow_eq hw
  rw [BitVec.toNat_sub]
  by_cases hle : b.toNat ≤ a.toNat
  · rw [Nat.mod_eq_sub_mod (by omega), Nat.mod_eq_of_lt (by omega), if_pos (by omega)]
    omega
  · rw [Nat.mod_eq_of_lt (by omega), if_neg (by omega)]
    omega

theorem toNat_allOnes_eq : ((BitVec.allOnes w).toNat : ℤ) = 2 * half w - 1 := by
  have hpow := two_pow_eq hw
  have hpos := Nat.two_pow_pos w
  rw [BitVec.toNat_allOnes]
  omega

theorem toInt_eq_toNat_half : a.toInt = if (a.toNat : ℤ) < half w then (a.toNat : ℤ) else a.toNat - 2 * half w := by
  have hpow := two_pow_eq hw
  rw [BitVec.toInt_eq_toNat_cond, hpow]
  refine if_congr ?_ rfl rfl
  omega

/-- The carry of an addition, by the signs of the operands. -/
theorem carry_iff_toInt : 2 ^ w ≤ a.toNat + b.toNat ↔
    (a.toInt < 0 ∧ b.toInt < 0) ∨ ((a.toInt < 0 ∨ b.toInt < 0) ∧ 0 ≤ a.toInt + b.toInt) := by
  have hpow := two_pow_eq hw
  have hna := toNat_lt_half hw a
  have hnb := toNat_lt_half hw b
  have ha := toInt_eq_toNat_half hw a
  have hb := toInt_eq_toNat_half hw b
  omega

/-- The borrow of a subtraction. -/
theorem borrow_iff_toInt : a.toNat < b.toNat ↔
    ((a.toInt < 0 ↔ b.toInt < 0) ∧ a.toInt < b.toInt) ∨ (0 ≤ a.toInt ∧ b.toInt < 0) := by
  have hna := toNat_lt_half hw a
  have hnb := toNat_lt_half hw b
  have ha := toInt_eq_toNat_half hw a
  have hb := toInt_eq_toNat_half hw b
  omega

end

/-! ## Two words -/

theorem toNat_append_eq {v w : ℕ} (x : BitVec v) (y : BitVec w) : (x ++ y).toNat = 2 ^ w * x.toNat + y.toNat := by
  rw [BitVec.toNat_append, ← Nat.shiftLeft_add_eq_or_of_lt y.isLt, Nat.shiftLeft_eq, Nat.mul_comm]

/-- **Carry.** The upper words and a carry bit, before the sum of the lower words. -/
theorem append_add_iff {v w : ℕ} (hv : 0 < v) (a₁ b₁ c : BitVec v) (a₀ b₀ : BitVec w) (hc : c = 0 ∨ c = 1) :
    (a₁ + b₁ + c) ++ (a₀ + b₀) = (a₁ ++ a₀) + (b₁ ++ b₀) ↔ (c = 1 ↔ 2 ^ w ≤ a₀.toNat + b₀.toNat) := by
  -- the sum of twice the width, with the carry that the lower words really have
  have hsum : ((a₁ ++ a₀) + (b₁ ++ b₀)).toNat = (a₀.toNat + b₀.toNat) % 2 ^ w +
      2 ^ w * ((a₁.toNat + b₁.toNat + (a₀.toNat + b₀.toNat) / 2 ^ w) % 2 ^ v) := by
    have hsplit : 2 ^ w * a₁.toNat + a₀.toNat + (2 ^ w * b₁.toNat + b₀.toNat) =
        a₀.toNat + b₀.toNat + 2 ^ w * (a₁.toNat + b₁.toNat) := by
      rw [Nat.mul_add]
      omega
    rw [BitVec.toNat_add, toNat_append_eq, toNat_append_eq, hsplit, Nat.add_comm v w, Nat.pow_add, Nat.mod_mul,
      Nat.add_mul_mod_self_left, Nat.add_mul_div_left _ _ (Nat.two_pow_pos w)]
    rw [Nat.add_comm (_ / _)]
  have hlow : (a₀.toNat + b₀.toNat) / 2 ^ w = if 2 ^ w ≤ a₀.toNat + b₀.toNat then 1 else 0 := by
    have ha := a₀.isLt
    have hb := b₀.isLt
    split
    · rw [Nat.div_eq_of_lt_le] <;> omega
    · rw [Nat.div_eq_of_lt]
      omega
  have htwo : 2 ^ 1 ≤ 2 ^ v := Nat.pow_le_pow_right (by omega) hv
  have hone : (1 : BitVec v).toNat = 1 := Nat.mod_eq_of_lt htwo
  have hzero : (0 : BitVec v).toNat = 0 := BitVec.toNat_zero
  have hne : (0 : BitVec v) ≠ 1 := by
    intro h
    have := congrArg BitVec.toNat h
    omega
  -- carries that differ give upper words that differ
  have hinj : ∀ k < 2, ∀ l < 2, (a₁.toNat + b₁.toNat + k) % 2 ^ v = (a₁.toNat + b₁.toNat + l) % 2 ^ v ↔ k = l := by
    intro k hk l hl
    constructor
    · intro h
      have hmod : k ≡ l [MOD 2 ^ v] := Nat.ModEq.add_left_cancel' _ h
      rwa [Nat.ModEq, Nat.mod_eq_of_lt (by omega), Nat.mod_eq_of_lt (by omega)] at hmod
    · exact fun h => by rw [h]
  have hcnat : c.toNat < 2 := by rcases hc with rfl | rfl <;> omega
  have hc1 : c = 1 ↔ c.toNat = 1 := by rw [← BitVec.toNat_inj, hone]
  have hleft : (a₁ + b₁ + c).toNat = (a₁.toNat + b₁.toNat + c.toNat) % 2 ^ v := by
    rw [BitVec.toNat_add, BitVec.toNat_add, Nat.mod_add_mod]
  rw [← BitVec.toNat_inj, toNat_append_eq, hsum, hlow, hleft, BitVec.toNat_add, Nat.add_comm, Nat.add_left_cancel_iff,
    Nat.mul_right_inj (Nat.ne_of_gt (Nat.two_pow_pos w)), hc1]
  split
  · rw [hinj _ hcnat 1 (by decide)]
    omega
  · rw [hinj _ hcnat 0 (by decide)]
    omega

end Esesc.Lib
