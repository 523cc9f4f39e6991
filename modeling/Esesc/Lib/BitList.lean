import Mathlib.Data.Nat.BitIndices

/-!
# Bits that are set

A number as the list of the positions of its bits, for loops that test one bit, shift and go on.

* `bitsFrom_eq`: the loop meets the positions in `Nat.bitIndices`.
* `bitIndices_and_pred`: `n &&& (n - 1)` has one bit less.
-/

namespace Esesc.Lib

/-- The positions of the bits that are set among the `k` lowest of `n`; the lowest one is at position `i`. -/
def bitsFrom : ℕ → ℕ → ℕ → List ℕ
  | 0, _, _ => []
  | k + 1, i, n => (if n % 2 = 1 then [i] else []) ++ bitsFrom k (i + 1) (n / 2)

theorem bitIndices_div_two (n : ℕ) :
    n.bitIndices = (if n % 2 = 1 then [0] else []) ++ (n / 2).bitIndices.map (· + 1) := by
  obtain h | h : n % 2 = 0 ∨ n % 2 = 1 := by omega
  · have hn : n = 2 * (n / 2) := by omega
    rw [if_neg (by omega), List.nil_append]
    conv_lhs => rw [hn, Nat.bitIndices_two_mul]
  · have hn : n = 2 * (n / 2) + 1 := by omega
    rw [if_pos h]
    conv_lhs => rw [hn, Nat.bitIndices_two_mul_add_one]
    rfl

/-- **The loop over the bits.** -/
theorem bitsFrom_eq (k i n : ℕ) : bitsFrom k i n = (n % 2 ^ k).bitIndices.map (· + i) := by
  induction k generalizing i n with
  | zero =>
    rw [pow_zero, Nat.mod_one, Nat.bitIndices_zero]
    rfl
  | succ k ih =>
    have hmod : n % 2 ^ (k + 1) % 2 = n % 2 := Nat.mod_mod_of_dvd n (Dvd.intro_left (2 ^ k) rfl)
    have hdiv : n % 2 ^ (k + 1) / 2 = n / 2 % 2 ^ k := by
      rw [pow_succ', Nat.mod_mul_right_div_self]
    rw [bitsFrom, ih, bitIndices_div_two (n % 2 ^ (k + 1)), hmod, hdiv, List.map_append, List.map_map]
    congr 1
    · split <;> simp
    · refine List.map_congr_left fun j _ => ?_
      show j + (i + 1) = j + 1 + i
      omega

theorem mem_bitsFrom {k i n j : ℕ} (h : j ∈ bitsFrom k i n) : i ≤ j ∧ j < i + k ∧ n.testBit (j - i) = true := by
  rw [bitsFrom_eq, List.mem_map] at h
  obtain ⟨b, hb, rfl⟩ := h
  rw [Nat.mem_bitIndices, Nat.testBit_mod_two_pow, Bool.and_eq_true, decide_eq_true_eq] at hb
  rw [Nat.add_sub_cancel]
  exact ⟨by omega, by omega, hb.2⟩

/-! ## Counting -/

/-- **One bit less.** -/
theorem bitIndices_and_pred {n : ℕ} (hn : n ≠ 0) :
    (n &&& (n - 1)).bitIndices.length + 1 = n.bitIndices.length := by
  induction n using Nat.strong_induction_on with
  | _ n ih =>
    obtain h | h : n % 2 = 0 ∨ n % 2 = 1 := by omega
    · -- the lowest bit is further up
      have hand : n &&& (n - 1) = 2 * ((n / 2) &&& (n / 2 - 1)) := by
        refine Nat.eq_of_testBit_eq fun j => ?_
        cases j with
        | zero => simp [Nat.testBit_zero, h]
        | succ j =>
          rw [Nat.testBit_and, Nat.testBit_succ, Nat.testBit_succ, Nat.testBit_succ, Nat.mul_div_cancel_left _ Nat.two_pos,
            Nat.testBit_and, show (n - 1) / 2 = n / 2 - 1 by omega]
      have hstep := ih (n / 2) (by omega) (by omega)
      rw [hand, Nat.bitIndices_two_mul, List.length_map, bitIndices_div_two n, if_neg (by omega), List.nil_append,
        List.length_map]
      exact hstep
    · have hand : n &&& (n - 1) = 2 * (n / 2) := by
        refine Nat.eq_of_testBit_eq fun j => ?_
        cases j with
        | zero => simp [Nat.testBit_zero, show (n - 1) % 2 = 0 by omega]
        | succ j =>
          rw [Nat.testBit_and, Nat.testBit_succ, Nat.testBit_succ, Nat.testBit_succ, Nat.mul_div_cancel_left _ Nat.two_pos,
            show (n - 1) / 2 = n / 2 by omega, Bool.and_self]
      rw [hand, Nat.bitIndices_two_mul, List.length_map, bitIndices_div_two n, if_pos h]
      simp

theorem length_bitIndices_le {n w : ℕ} (hn : n < 2 ^ w) : n.bitIndices.length ≤ w := by
  induction w generalizing n with
  | zero =>
    obtain rfl : n = 0 := by omega
    rw [Nat.bitIndices_zero]
    rfl
  | succ w ih =>
    have hrest := ih (n := n / 2) (by rw [pow_succ] at hn; omega)
    rw [bitIndices_div_two, List.length_append, List.length_map]
    have hhead : (if n % 2 = 1 then [0] else [] : List ℕ).length ≤ 1 := by split <;> simp
    omega

theorem length_bitIndices_eq_zero {n : ℕ} : n.bitIndices.length = 0 ↔ n = 0 := by
  constructor
  · intro h
    rw [← Nat.sum_map_two_pow_bitIndices n, List.eq_nil_of_length_eq_zero h]
    rfl
  · rintro rfl
    rw [Nat.bitIndices_zero]
    rfl

end Esesc.Lib
