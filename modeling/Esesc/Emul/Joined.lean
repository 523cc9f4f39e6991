import Esesc.Emul.PackedLanes

/-!
# Lanes put together

The packed shifts and the saturating micro-ops compute each lane in a variable of its own and or the
shifted variables. With signed variables every negative lane fills the lanes above it.

* `lane_joinS`, `lane_joinU`: what each lane of the word is.
* `filled_eq_iff`: when the lanes that come out are the ones that were meant.
-/

namespace Esesc.Emul

open Esesc.Lib

variable {w : ℕ}

/-- Lane `i` of the second operand; the immediate is an `int32_t`, and the same in every lane. -/
def Scuop.operand (inst : Scuop) (s : Scstate) (w i : ℕ) : BitVec w :=
  if inst.useImm then inst.imm.signExtend w else lane w (s.getReg inst.src2) i

/-- `((uint64_t) last << sh) | … | bottom`, of the first `k` lanes and with signed variables. -/
def joinS (r : ℕ → BitVec w) : ℕ → BitVec 64
  | 0 => 0
  | k + 1 => shlS (r k) (w * k) ||| joinS r k

/-- The same with unsigned variables. -/
def joinU (r : ℕ → BitVec w) : ℕ → BitVec 64
  | 0 => 0
  | k + 1 => shlU (r k) (w * k) ||| joinU r k

theorem or_filled (a b : BitVec w) (l : List (BitVec w)) : a ||| filled b l = filled (a ||| b) l := by
  induction l generalizing b with
  | nil => rfl
  | cons c l ih =>
    unfold filled at ih ⊢
    rw [List.foldl_cons, List.foldl_cons, ih, BitVec.or_assoc]

/-- A negative variable makes its own lane negative. -/
theorem msb_filled {a : BitVec w} {l : List (BitVec w)} (ha : a.msb = true) : (filled a l).msb = true := by
  have hsplit : filled a l = a ||| filled 0 l := by
    rw [or_filled]
    simp
  rw [hsplit, BitVec.msb_or, ha, Bool.true_or]

theorem filled_concat (a b : BitVec w) (l : List (BitVec w)) : filled a (l ++ [b]) = filled a l ||| fill b := by
  unfold filled
  rw [List.foldl_append, List.foldl_cons, List.foldl_nil]

/-- One negative lane below is enough. -/
theorem filled_of_msb {a b : BitVec w} {l : List (BitVec w)} (hb : b ∈ l) (hmsb : b.msb = true) :
    filled a l = BitVec.allOnes w := by
  obtain ⟨l₁, l₂, rfl⟩ := List.append_of_mem hb
  have hset : filled a (l₁ ++ b :: l₂) = filled (filled a l₁ ||| fill b) l₂ := by
    unfold filled
    rw [List.foldl_append, List.foldl_cons]
  rw [hset, fill, if_pos hmsb, BitVec.or_allOnes, filled_eq_self]
  exact fun _ _ _ => rfl

theorem filled_of_nonneg {a : BitVec w} {l : List (BitVec w)} (h : ∀ b ∈ l, b.msb = false) : filled a l = a := by
  rw [filled_eq_self]
  intro b hb hmsb
  rw [h b hb] at hmsb
  exact absurd hmsb (by simp)

theorem lane_joinS (r : ℕ → BitVec w) {k i : ℕ} (hi : w * i + w ≤ 64) :
    lane w (joinS r k) i = filled (if i < k then r i else 0) ((List.range (min i k)).map r) := by
  induction k with
  | zero =>
    rw [joinS, Nat.min_zero, if_neg (Nat.not_lt_zero i)]
    simp [lane, filled]
  | succ k ih =>
    rw [joinS, lane_or, lane_shlS _ hi rfl, ih]
    rcases Nat.lt_trichotomy i k with h | rfl | h
    · rw [if_pos h, if_pos h, if_pos (by omega), Nat.min_eq_left (by omega), Nat.min_eq_left (by omega)]
      simp
    · rw [if_neg (by omega), if_pos rfl, if_neg (by omega), if_pos (by omega), Nat.min_self,
        Nat.min_eq_left (by omega), or_filled]
      simp
    · rw [if_neg (by omega), if_neg (by omega), if_neg (by omega), if_neg (by omega), Nat.min_eq_right (by omega),
        Nat.min_eq_right (by omega), List.range_succ, List.map_append, List.map_singleton, filled_concat,
        BitVec.or_comm]

/-- **Signed.** A lane comes out or-ed with the signs of all lanes below. -/
theorem lane_joinS_of_lt (r : ℕ → BitVec w) {k i : ℕ} (hi : w * i + w ≤ 64) (hk : i < k) :
    lane w (joinS r k) i = filled (r i) ((List.range i).map r) := by
  rw [lane_joinS r hi, if_pos hk, Nat.min_eq_left (by omega)]

/-- **Unsigned.** A lane comes out as it is. -/
theorem lane_joinU (r : ℕ → BitVec w) {k i : ℕ} (hi : w * i + w ≤ 64) (hk : i < k) :
    lane w (joinU r k) i = r i := by
  have hall : ∀ k, lane w (joinU r k) i = if i < k then r i else 0 := by
    intro k
    induction k with
    | zero => simp [joinU, lane]
    | succ k ih =>
      rw [joinU, lane_or, lane_shlU _ hi rfl, ih]
      rcases Nat.lt_trichotomy i k with h | rfl | h
      · simp [Nat.ne_of_lt h, h, Nat.lt_succ_of_lt h]
      · simp
      · simp [Nat.ne_of_gt h, Nat.lt_asymm h, show ¬i < k + 1 by omega]
  rw [hall, if_pos hk]

/-- **What was meant.** The lanes `c` come out as `r` exactly when each is right that has no negative
lane of `r` below it, and `r` has all ones in those that do. -/
theorem filled_eq_iff {c r : ℕ → BitVec w} {m : ℕ} :
    (∀ j < m, filled (c j) ((List.range j).map c) = r j) ↔
    ∀ j < m, (∀ i < j, (r i).msb = true → r j = BitVec.allOnes w) ∧ ((∀ i < j, (r i).msb = false) → c j = r j) := by
  constructor
  · intro h j hj
    constructor
    · intro i hij hneg
      -- the sign of `r i` comes from some variable at or below `i`
      have hex : ∃ k < j, (c k).msb = true := by
        by_contra hno
        have hpos : ∀ k < j, (c k).msb = false := fun k hk => by
          rw [← Bool.not_eq_true]
          exact fun hk' => hno ⟨k, hk, hk'⟩
        have hi := h i (by omega)
        rw [filled_of_nonneg] at hi
        · rw [← hi, hpos i hij] at hneg
          exact absurd hneg (by simp)
        · intro b hb
          obtain ⟨k, hk, rfl⟩ := List.mem_map.1 hb
          exact hpos k (Nat.lt_trans (List.mem_range.1 hk) hij)
      obtain ⟨k, hk, hmsb⟩ := hex
      rw [← h j hj]
      exact filled_of_msb (List.mem_map_of_mem (List.mem_range.2 hk)) hmsb
    · intro hpos
      rw [← h j hj, filled_of_nonneg]
      intro b hb
      obtain ⟨k, hk, rfl⟩ := List.mem_map.1 hb
      have hkj := List.mem_range.1 hk
      rw [← Bool.not_eq_true]
      intro hmsb
      have hrk := hpos k hkj
      rw [← h k (by omega), msb_filled hmsb] at hrk
      exact absurd hrk (by simp)
  · intro h j hj
    by_cases hneg : ∃ i < j, (r i).msb = true
    · -- the lowest negative lane is a variable
      classical
      obtain ⟨hlt, hmsb⟩ := Nat.find_spec hneg
      have hleast : ∀ i < Nat.find hneg, (r i).msb = false := by
        intro i hi
        rw [← Bool.not_eq_true]
        exact fun hri => Nat.find_min hneg hi ⟨by omega, hri⟩
      rw [← (h _ (by omega)).2 hleast] at hmsb
      rw [filled_of_msb (List.mem_map_of_mem (List.mem_range.2 hlt)) hmsb]
      obtain ⟨i, hij, hri⟩ := hneg
      exact ((h j hj).1 i hij hri).symm
    · have hpos : ∀ i < j, (r i).msb = false := fun i hi => by
        rw [← Bool.not_eq_true]
        exact fun hri => hneg ⟨i, hi, hri⟩
      rw [filled_of_nonneg, (h j hj).2 hpos]
      intro b hb
      obtain ⟨i, hi, rfl⟩ := List.mem_map.1 hb
      have hij := List.mem_range.1 hi
      rw [(h i (by omega)).2 fun k hk => hpos k (by omega)]
      exact hpos i hij

end Esesc.Emul
