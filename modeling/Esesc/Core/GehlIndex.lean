import Esesc.Lib.Checked
import Esesc.Core.BPred

/-!
# The indices of the O-GEHL predictors, with their accesses checked (`geoidx` and `geoidx2` in `BPred.cpp`)

`geoidx` fills `T` with positions in the history and the address, gathers the bits at these positions, and folds the
result into `logpred` bits. Checked, it fails when a position is outside `T`, when a rotation by `logpred - FUNCT` is
negative, or when `FUNCT` is reduced modulo a `logpred` of 0. `T` is a scratch array of the predictor: what a call
does not write is still there from the one before.

* `geoidxC_eq`, `geoidxC_none`: it fails exactly when `FUNCT` is greater than `logpred`.
* `geoidx_lt`, `geoidx2_lt`: otherwise the index is inside its table.
* `geoidx_parity`, `geoidx2_parity`: some bit of the address flips the lowest bit of the index.
-/

namespace Esesc.Core

open Esesc.Lib Esesc.Suc

namespace BPOgehl

/-- The loop that fills `T`: `n` scaled positions and the end. -/
def fillT (tLen n addwidth m : ℕ) (T : ℕ → ℕ) : Option (ℕ → ℕ) :=
  if n < tLen then
    some fun x => if x < n then x * (addwidth + m - 1) / (n - 1) else if x = n then addwidth + m else T x
  else none

/-- The first loop of `geoidx`, with the elements of `T` from `i` on left to read. -/
def histBitsC (T : ℕ → ℕ) (histo : ℕ → BitVec 64) (m : ℕ) :
    ℕ → ℕ → ℕ → BitVec 64 → BitVec 64 → Option (ℕ × BitVec 64)
  | 0, _, _, _, _ => none
  | left + 1, i, PT, Hh, inter =>
    if T i < m then
      let same := T i &&& 0xffc0 = T (i - 1) &&& 0xffc0
      let shift : ℤ := if same then (T i : ℤ) - T (i - 1) else (T i &&& 63 : ℕ)
      (sar (if same then Hh else histo PT) shift).bind fun Hh =>
        histBitsC T histo m left (i + 1) (if same then PT else PT + 1) Hh ((inter <<< 1) ^^^ (Hh &&& 1))
    else some (i, inter)

/-- The second loop. -/
def addrBitsC (T : ℕ → ℕ) (Add : BitVec 64) (m addwidth : ℕ) : ℕ → ℕ → BitVec 64 → Option (BitVec 64)
  | 0, _, _ => none
  | left + 1, i, inter =>
    if T i < m + addwidth then
      (sar Add ((T i : ℤ) - m)).bind fun bit =>
        addrBitsC T Add m addwidth left (i + 1) ((inter <<< 1) ^^^ (bit &&& 1))
    else some inter

/-- The folding loop. -/
def foldBitsC (logpred : ℕ) : ℕ → ℕ → BitVec 64 → BitVec 64 → Option (BitVec 64)
  | 0, _, _, Res => some Res
  | n + 1, funct, inter, Res =>
    let inter := inter.sshiftRight logpred
    (shl (inter &&& (1#64 <<< funct - 1)) ((logpred : ℤ) - funct)).bind fun high =>
      (rem (funct + 1) logpred).bind fun funct' =>
        foldBitsC logpred n funct' inter (Res ^^^ ((inter &&& (1#64 <<< logpred - 1)) >>> funct) ^^^ high)

/-- What `geoidx` gathers, and `T` after it. -/
def gatherC (tLen n addwidth : ℕ) (Add : BitVec 64) (histo : ℕ → BitVec 64) (m : ℕ) (T : ℕ → ℕ) :
    Option (BitVec 64 × (ℕ → ℕ)) :=
  let MinAdd : ℤ := min ((n : ℤ) - m) 20
  if MinAdd ≥ 8 then
    (shl (histo 0 &&& (1#64 <<< m - 1)) MinAdd).bind fun high =>
      (shl 1#64 MinAdd).bind fun one => some (high + (Add &&& (one - 1)), T)
  else
    (fillT tLen n addwidth m T).bind fun T =>
      (rd tLen T 0).bind fun T0 =>
        let Hh := (histo 0).sshiftRight T0
        (histBitsC T histo m (tLen - 1) 1 1 Hh (Hh &&& 1)).bind fun r =>
          (addrBitsC T Add m addwidth (tLen - r.1) r.1 r.2).bind fun inter => some (inter, T)

/-- `geoidx`, and `T` after it. -/
def geoidxC (tLen nentry addwidth logpred : ℕ) (Add : BitVec 64) (histo : ℕ → BitVec 64) (m funct : ℕ) (T : ℕ → ℕ) :
    Option (ℕ × (ℕ → ℕ)) :=
  (gatherC tLen (nentry * logpred) addwidth Add histo m T).bind fun r =>
    (foldBitsC logpred (nentry - 1) funct r.1 (r.1 &&& (1#64 <<< logpred - 1))).bind fun Res => some (Res.toNat, r.2)

/-! ## Folding -/

section Folding

variable {logpred n funct : ℕ} {inter Res : BitVec 64}

theorem foldBitsC_eq (hpos : 0 < logpred) (hf : funct ≤ logpred) (n : ℕ) (inter Res : BitVec 64) :
    foldBitsC logpred n funct inter Res = some (foldBits logpred n funct inter Res) := by
  induction n generalizing funct inter Res with
  | zero => rfl
  | succ n ih =>
    have hnext : (funct + 1) % logpred ≤ logpred := le_of_lt (Nat.mod_lt _ hpos)
    have hshift : ((logpred : ℤ) - funct).toNat = logpred - funct := by omega
    rw [foldBitsC, shl_of_nonneg (by omega), Option.bind_some, rem_of_pos hpos, Option.bind_some, ih hnext, hshift]
    rfl

theorem foldBitsC_none (hf : logpred < funct) (n : ℕ) (inter Res : BitVec 64) :
    foldBitsC logpred (n + 1) funct inter Res = none := by
  rw [foldBitsC, shl_of_neg (by omega)]
  rfl

/-- Folding stays inside the table. -/
theorem foldBits_lt (hpos : 0 < logpred) (hlog : logpred < 64) (hf : funct ≤ logpred) (n : ℕ) (inter : BitVec 64)
    (hRes : Res.toNat < 2 ^ logpred) : (foldBits logpred n funct inter Res).toNat < 2 ^ logpred := by
  induction n generalizing funct inter Res with
  | zero => exact hRes
  | succ n ih =>
    rw [foldBits]
    refine ih (le_of_lt (Nat.mod_lt _ hpos)) _ (xor_lt (xor_lt hRes ?_) ?_)
    · exact ushiftRight_lt (mask_lt _ hlog) _
    · exact shiftLeft_lt (mask_lt _ (lt_of_le_of_lt hf hlog)) hf

/-- The first piece enters the result unrotated. -/
theorem foldBits_xor (n funct : ℕ) (inter Res x : BitVec 64) :
    foldBits logpred n funct inter (Res ^^^ x) = foldBits logpred n funct inter Res ^^^ x := by
  induction n generalizing funct inter Res with
  | zero => rfl
  | succ n ih =>
    rw [foldBits, foldBits, ← ih]
    congr 1
    ac_rfl

/-- Only bits from `logpred` on are rotated. -/
theorem foldBits_congr {inter' : BitVec 64} (h : inter.sshiftRight logpred = inter'.sshiftRight logpred) (n funct : ℕ)
    (Res : BitVec 64) : foldBits logpred n funct inter Res = foldBits logpred n funct inter' Res := by
  cases n with
  | zero => rfl
  | succ n => rw [foldBits, foldBits, h]

end Folding

/-! ## Gathering -/

section Gathering

variable {tLen n a m i : ℕ} {T : ℕ → ℕ} {Add : BitVec 64} {histo : ℕ → BitVec 64}

/-- The positions that `T` is filled with. -/
def position (n a m x : ℕ) : ℕ := if x < n then x * (a + m - 1) / (n - 1) else a + m

/-- What `geoidx` gathers. -/
def gather (n a : ℕ) (Add : BitVec 64) (histo : ℕ → BitVec 64) (m : ℕ) : BitVec 64 :=
  let MinAdd : ℤ := min ((n : ℤ) - m) 20
  if MinAdd ≥ 8 then
    ((histo 0 &&& (1#64 <<< m - 1)) <<< MinAdd.toNat) + (Add &&& (1#64 <<< MinAdd.toNat - 1))
  else
    let Hh := (histo 0).sshiftRight (position n a m 0)
    let r := histBits (position n a m) histo m n 1 1 Hh (Hh &&& 1)
    addrBits (position n a m) Add m a (n + 1) r.1 r.2

theorem geoidx_gather (nentry logpred funct : ℕ) :
    geoidx nentry a logpred Add histo m funct =
      (foldBits logpred (nentry - 1) funct (gather (nentry * logpred) a Add histo m)
        (gather (nentry * logpred) a Add histo m &&& (1#64 <<< logpred - 1))).toNat := rfl

theorem position_end : position n a m n = a + m := if_neg (lt_irrefl n)

theorem position_mono {j : ℕ} (hn : 1 < n) (ha : 0 < a) (hij : i ≤ j) (hj : j ≤ n) : position n a m i ≤ position n a m j := by
  unfold position
  by_cases hjn : j < n
  · rw [if_pos (by omega), if_pos hjn]
    exact Nat.div_le_div_right (Nat.mul_le_mul_right _ hij)
  · rw [if_neg hjn]
    split
    · -- the scaled positions end one before the last
      have hle : i * (a + m - 1) / (n - 1) ≤ a + m - 1 := by
        refine Nat.div_le_of_le_mul ?_
        exact Nat.mul_le_mul_right _ (by omega)
      omega
    · exact le_rfl

theorem position_last (hn : 1 < n) : position n a m (n - 1) = a + m - 1 := by
  unfold position
  rw [if_pos (by omega), Nat.mul_div_cancel_left _ (by omega)]

theorem position_lt (ha : 1 < a) (hi : i < n - 1) : position n a m i < a + m - 1 := by
  unfold position
  rw [if_pos (by omega), Nat.div_lt_iff_lt_mul (by omega), Nat.mul_comm]
  exact Nat.mul_lt_mul_of_pos_left hi (by omega)

/-- The first loop stops at a position behind the history, and at the first one. -/
theorem histBits_stop (histo : ℕ → BitVec 64) {e : ℕ} (hend : m ≤ position n a m e) (fuel i PT : ℕ) (Hh inter : BitVec 64) (hi : i ≤ e)
    (hfuel : e < i + fuel) :
    (histBits (position n a m) histo m fuel i PT Hh inter).1 ≤ e ∧
      m ≤ position n a m (histBits (position n a m) histo m fuel i PT Hh inter).1 ∧
      i ≤ (histBits (position n a m) histo m fuel i PT Hh inter).1 := by
  induction fuel generalizing i PT Hh inter with
  | zero => omega
  | succ fuel ih =>
    rw [histBits]
    split
    · rename_i hlt
      have hin : i < e := by
        by_contra hge
        obtain rfl : i = e := by omega
        omega
      obtain ⟨h1, h2, h3⟩ := ih (i + 1) _ _ _ hin (by omega)
      exact ⟨h1, h2, Nat.le_of_succ_le h3⟩
    · rename_i hge
      exact ⟨hi, not_lt.1 hge, le_rfl⟩

/-- Checked, the first loop gathers the same bits. -/
theorem histBitsC_eq (hT : ∀ x ≤ n, T x = position n a m x) (hn : 1 < n) (ha : 0 < a) (left fuel i PT : ℕ) (Hh inter : BitVec 64)
    (h1 : 1 ≤ i) (hi : i ≤ n) (hleft : n < i + left) (hfuel : n < i + fuel) :
    histBitsC T histo m left i PT Hh inter = some (histBits (position n a m) histo m fuel i PT Hh inter) := by
  induction left generalizing fuel i PT Hh inter with
  | zero => omega
  | succ left ih =>
    obtain ⟨fuel, rfl⟩ : ∃ k, fuel = k + 1 := ⟨fuel - 1, by omega⟩
    have hmono : position n a m (i - 1) ≤ position n a m i := position_mono hn ha (by omega) hi
    have hend : position n a m n = a + m := position_end
    rw [histBitsC, histBits, hT i hi, hT (i - 1) (by omega)]
    by_cases hlt : position n a m i < m
    · have hin : i < n := by
        by_contra hge
        obtain rfl : i = n := by omega
        omega
      rw [if_pos hlt, if_pos hlt]
      by_cases hsame : position n a m i &&& 0xffc0 = position n a m (i - 1) &&& 0xffc0
      · have hshift : ((position n a m i : ℤ) - position n a m (i - 1)).toNat =
            position n a m i - position n a m (i - 1) := by
          omega
        simp only [hsame, if_true]
        rw [sar_of_nonneg (by omega), Option.bind_some, hshift]
        exact ih fuel (i + 1) PT _ _ (by omega) hin (by omega) (by omega)
      · simp only [hsame, if_false]
        rw [sar_of_nonneg (by omega), Option.bind_some, Int.toNat_natCast]
        exact ih fuel (i + 1) (PT + 1) _ _ (by omega) hin (by omega) (by omega)
    · rw [if_neg hlt, if_neg hlt]

/-- So does the second. -/
theorem addrBitsC_eq (hT : ∀ x ≤ n, T x = position n a m x) (hn : 1 < n) (ha : 0 < a) (left fuel i : ℕ) (inter : BitVec 64)
    (hm : m ≤ position n a m i) (hi : i ≤ n) (hleft : n < i + left) (hfuel : n < i + fuel) :
    addrBitsC T Add m a left i inter = some (addrBits (position n a m) Add m a fuel i inter) := by
  induction left generalizing fuel i inter with
  | zero => omega
  | succ left ih =>
    obtain ⟨fuel, rfl⟩ : ∃ k, fuel = k + 1 := ⟨fuel - 1, by omega⟩
    have hend : position n a m n = a + m := position_end
    rw [addrBitsC, addrBits, hT i hi]
    by_cases hlt : position n a m i < m + a
    · have hin : i < n := by
        by_contra hge
        obtain rfl : i = n := by omega
        omega
      have hmono : position n a m i ≤ position n a m (i + 1) := position_mono hn ha (Nat.le_succ i) hin
      have hshift : ((position n a m i : ℤ) - m).toNat = position n a m i - m := by omega
      rw [if_pos hlt, if_pos hlt, sar_of_nonneg (by omega), Option.bind_some, hshift]
      exact ih fuel (i + 1) _ (by omega) hin (by omega) (by omega)
    · rw [if_neg hlt, if_neg hlt]

theorem fillT_eq (hlen : n < tLen) (T : ℕ → ℕ) :
    ∃ T', fillT tLen n a m T = some T' ∧ ∀ x ≤ n, T' x = position n a m x := by
  refine ⟨_, if_pos hlen, fun x hx => ?_⟩
  unfold position
  by_cases hxn : x < n
  · simp only [if_pos hxn]
  · simp only [if_neg hxn, if_pos (show x = n by omega)]

/-- **Gathering stays inside `T`** when there is room for `n` positions and the end. -/
theorem gatherC_eq (hn : 1 < n) (ha : 0 < a) (hlen : n < tLen) (Add : BitVec 64) (histo : ℕ → BitVec 64) (m : ℕ)
    (T : ℕ → ℕ) : ∃ T', gatherC tLen n a Add histo m T = some (gather n a Add histo m, T') := by
  unfold gatherC gather
  by_cases hadd : min ((n : ℤ) - m) 20 ≥ 8
  · refine ⟨T, ?_⟩
    simp only [hadd, if_true]
    rw [shl_of_nonneg (by omega), shl_of_nonneg (by omega), Option.bind_some, Option.bind_some]
  · simp only [hadd, if_false]
    obtain ⟨T', hfill, hT⟩ := fillT_eq (m := m) (a := a) hlen T
    rw [hfill, Option.bind_some, rd_of_lt (by omega), Option.bind_some]
    have hend : m ≤ position n a m n := by
      rw [position_end]
      omega
    rw [hT 0 (by omega)]
    obtain ⟨hstop, hbehind, hfirst⟩ := histBits_stop histo hend n 1 1
      ((histo 0).sshiftRight (position n a m 0)) ((histo 0).sshiftRight (position n a m 0) &&& 1) (by omega) (by omega)
    rw [histBitsC_eq hT hn ha (tLen - 1) n 1 1 _ _ le_rfl (by omega) (by omega) (by omega), Option.bind_some,
      addrBitsC_eq hT hn ha _ (n + 1) _ _ hbehind hstop (by omega) (by omega), Option.bind_some]
    exact ⟨_, rfl⟩

end Gathering

/-! ## The index -/

section Index

variable {tLen a logpred funct m : ℕ} {T : ℕ → ℕ} {Add : BitVec 64} {histo : ℕ → BitVec 64}

/-- **The index is computed** when its rotations are not negative. -/
theorem geoidxC_eq (hpos : 0 < logpred) (ha : 0 < a) (hlen : 3 * logpred < tLen) (hf : funct ≤ logpred) :
    ∃ T', geoidxC tLen 3 a logpred Add histo m funct T = some (geoidx 3 a logpred Add histo m funct, T') := by
  obtain ⟨T', hT'⟩ := gatherC_eq (n := 3 * logpred) (by omega) ha hlen Add histo m T
  refine ⟨T', ?_⟩
  rw [geoidxC, hT', Option.bind_some, foldBitsC_eq hpos hf, Option.bind_some]
  rfl

theorem geoidxC_none (hf : logpred < funct) : geoidxC tLen 3 a logpred Add histo m funct T = none := by
  rw [geoidxC]
  cases gatherC tLen (3 * logpred) a Add histo m T with
  | none => rfl
  | some r =>
    rw [Option.bind_some, foldBitsC_none hf]
    rfl

theorem geoidx_lt (hpos : 0 < logpred) (hlog : logpred < 64) (hf : funct ≤ logpred) :
    geoidx 3 a logpred Add histo m funct < 2 ^ logpred := by
  rw [geoidx_gather]
  exact foldBits_lt hpos hlog hf _ _ (mask_lt _ hlog)

/-- The last address bit that is gathered is bit 7, and it is gathered once. -/
theorem addrBits_flip {n : ℕ} (hn : 1 < n) (fuel i : ℕ) (inter : BitVec 64) (hm : m ≤ position n 8 m i) (hi : i ≤ n - 1)
    (hfuel : n < i + fuel) :
    addrBits (position n 8 m) 128#64 m 8 fuel i inter = addrBits (position n 8 m) 0#64 m 8 fuel i inter ^^^ 1 := by
  have hbits : ∀ k < 7, (128#64).sshiftRight k &&& 1 = 0 := by decide
  have hzero : ∀ k, (0#64).sshiftRight k &&& 1 = 0 := by simp
  induction fuel generalizing i inter with
  | zero => omega
  | succ fuel ih =>
    have hlast : position n 8 m (n - 1) = 8 + m - 1 := position_last hn
    rcases Nat.lt_or_eq_of_le hi with hin | rfl
    · have hlow : position n 8 m i < 8 + m - 1 := position_lt (by omega) hin
      have hmono : position n 8 m i ≤ position n 8 m (i + 1) :=
        position_mono hn (by omega) (Nat.le_succ i) (by omega)
      rw [addrBits, addrBits, if_pos (by omega), if_pos (by omega), hbits _ (by omega), hzero]
      exact ih (i + 1) _ (by omega) (by omega) (by omega)
    · have hend : position n 8 m (n - 1 + 1) = 8 + m := by
        rw [Nat.sub_add_cancel (by omega)]
        exact position_end
      rw [addrBits, addrBits, if_pos (by omega), if_pos (by omega), hlast, hzero,
        show 8 + m - 1 - m = 7 by omega, show (128#64).sshiftRight 7 &&& 1 = 1 by decide]
      -- both loops are over
      cases fuel with
      | zero => omega
      | succ fuel =>
        rw [addrBits, addrBits, if_neg (by omega), if_neg (by omega), BitVec.xor_assoc]
        rfl

theorem even_add_one (x : BitVec 64) {k : ℕ} (hk : 0 < k) : (x <<< k) + 1#64 = ((x <<< k) + 0#64) ^^^ 1#64 := by
  have hbit : (x <<< k) &&& 1#64 = 0#64 := by
    ext i hi
    rcases Nat.eq_zero_or_pos i with rfl | hpos
    · simp [hk]
    · simp [show i ≠ 0 by omega]
  have hxor : ∀ y : BitVec 64, y &&& 1#64 = 0#64 → y ||| 1#64 = y ^^^ 1#64 := by
    intro y hy
    ext i hi
    have hi' : (y &&& 1#64)[i] = false := by rw [hy]; simp
    rw [BitVec.getElem_and] at hi'
    rw [BitVec.getElem_or, BitVec.getElem_xor]
    cases hy1 : y[i] <;> cases h1 : (1#64)[i] <;> simp_all
  rw [BitVec.add_zero, BitVec.add_eq_or_of_and_eq_zero _ _ hbit]
  exact hxor _ hbit

/-- **An address bit that flips the lowest gathered bit**, and no other. -/
theorem gather_flip {n : ℕ} (hn : 2 < n) (histo : ℕ → BitVec 64) (m : ℕ) :
    ∃ Add ∈ [1#64, 128#64], gather n 8 Add histo m = gather n 8 0#64 histo m ^^^ 1 := by
  unfold gather
  by_cases hadd : min ((n : ℤ) - m) 20 ≥ 8
  · refine ⟨1#64, by decide, ?_⟩
    simp only [hadd, if_true]
    obtain ⟨k, hk, hlow, hhigh⟩ : ∃ k, (min ((n : ℤ) - m) 20).toNat = k ∧ 8 ≤ k ∧ k ≤ 20 := ⟨_, rfl, by omega, by omega⟩
    have hone : ∀ k ≤ 20, 8 ≤ k → 1#64 &&& (1#64 <<< k - 1) = 1 := by decide
    rw [hk, hone k hhigh hlow, BitVec.zero_and]
    exact even_add_one _ (by omega)
  · refine ⟨128#64, by decide, ?_⟩
    simp only [hadd, if_false]
    have hend : m ≤ position n 8 m (n - 1) := by
      rw [position_last (by omega)]
      omega
    obtain ⟨hstop, hbehind, hfirst⟩ := histBits_stop histo hend n 1 1
      ((histo 0).sshiftRight (position n 8 m 0)) ((histo 0).sshiftRight (position n 8 m 0) &&& 1) (by omega) (by omega)
    exact addrBits_flip (by omega) _ _ _ hbehind hstop (by omega)

theorem flip_sshiftRight (hpos : 0 < logpred) (x : BitVec 64) : (x ^^^ 1).sshiftRight logpred = x.sshiftRight logpred := by
  have hone : (1#64).sshiftRight logpred = 0#64 := by
    rw [BitVec.sshiftRight_eq_of_msb_false (by decide)]
    apply BitVec.eq_of_toNat_eq
    rw [BitVec.toNat_ushiftRight, Nat.shiftRight_eq_div_pow]
    exact Nat.div_eq_of_lt (Nat.one_lt_two_pow (by omega))
  rw [BitVec.sshiftRight_xor_distrib]
  show _ ^^^ (1#64).sshiftRight logpred = _
  rw [hone, BitVec.xor_zero]

theorem flip_mask (hpos : 0 < logpred) (hlog : logpred < 64) (x : BitVec 64) :
    (x ^^^ 1) &&& (1#64 <<< logpred - 1) = (x &&& (1#64 <<< logpred - 1)) ^^^ 1 := by
  have hone : ∀ k < 64, 0 < k → 1#64 &&& (1#64 <<< k - 1) = 1 := by decide
  have hdist : ∀ y : BitVec 64, (x ^^^ 1) &&& y = (x &&& y) ^^^ (1 &&& y) := by
    intro y
    ext i hi
    simp [Bool.and_xor_distrib_right]
  rw [hdist]
  congr 1
  exact hone logpred hlog hpos

theorem xor_one_even {n : ℕ} (h : n % 2 = 1) : (n ^^^ 1) % 2 = 0 := by
  rcases Nat.mod_two_eq_zero_or_one (n ^^^ 1) with h' | h'
  · exact h'
  · exact absurd (iff_of_true h rfl) (Nat.xor_mod_two_eq_one.1 h')

/-- **Some address has an even index**, whatever the history. -/
theorem geoidx_parity (hpos : 0 < logpred) (hlog : logpred < 64) (histo : ℕ → BitVec 64) (m funct : ℕ) :
    ∃ Add ∈ [0#64, 1#64, 128#64], geoidx 3 8 logpred Add histo m funct % 2 = 0 := by
  obtain ⟨Add, hmem, hflip⟩ := gather_flip (n := 3 * logpred) (by omega) histo m
  rcases Nat.mod_two_eq_zero_or_one (geoidx 3 8 logpred 0#64 histo m funct) with heven | hodd
  · exact ⟨0#64, by decide, heven⟩
  · refine ⟨Add, List.mem_cons_of_mem _ hmem, ?_⟩
    rw [geoidx_gather] at hodd
    rw [geoidx_gather, hflip, flip_mask hpos hlog, foldBits_xor, foldBits_congr (flip_sshiftRight hpos _), BitVec.toNat_xor]
    exact xor_one_even hodd

end Index

end BPOgehl

/-! ## `geoidx2` -/

namespace BPSOgehl

/-- The loop of `geoidx2`. -/
def geoLoopC (ghr : ℕ → Bool) (logtsize : ℕ) : ℕ → ℕ → BitVec 32 → Option (BitVec 32)
  | 0, _, inter => some inter
  | n + 1, i, inter =>
    let bit := ghr i ^^ inter.getLsbD 0
    (rem i logtsize).bind fun pos =>
      (shl 1#32 (pos : ℤ)).bind fun one =>
        geoLoopC ghr logtsize n (i + 1) (if bit then inter ||| one else inter &&& ~~~one)

def geoidx2C (AddWidth logtsize : ℕ) (ghr : ℕ → Bool) (Add : BitVec 64) (m : ℕ) : Option ℕ :=
  (shl 1#64 (AddWidth : ℤ)).bind fun one =>
    (geoLoopC ghr logtsize m 0 ((Add &&& (one - 1)).setWidth 32)).bind fun inter => some inter.toNat

variable {AddWidth logtsize n i m : ℕ} {ghr : ℕ → Bool} {Add : BitVec 64} {inter : BitVec 32}

theorem geoLoopC_eq (hpos : 0 < logtsize) (n i : ℕ) (inter : BitVec 32) :
    geoLoopC ghr logtsize n i inter = some (geoLoop ghr logtsize n i inter) := by
  induction n generalizing i inter with
  | zero => rfl
  | succ n ih =>
    rw [geoLoopC, rem_of_pos hpos, Option.bind_some, shl_of_nonneg (by omega), Option.bind_some, ih, Int.toNat_natCast]
    rfl

theorem geoidx2C_eq (hpos : 0 < logtsize) (Add : BitVec 64) (m : ℕ) :
    geoidx2C AddWidth logtsize ghr Add m = some (geoidx2 AddWidth logtsize ghr Add m) := by
  rw [geoidx2C, shl_of_nonneg (by omega), Option.bind_some, Int.toNat_natCast, geoLoopC_eq hpos]
  rfl

theorem geoidx2C_none (hm : 0 < m) : geoidx2C AddWidth 0 ghr Add m = none := by
  obtain ⟨m, rfl⟩ : ∃ k, m = k + 1 := ⟨m - 1, by omega⟩
  rw [geoidx2C, shl_of_nonneg (by omega), Option.bind_some, geoLoopC, rem_zero]
  rfl

theorem bit_lt {pos : ℕ} (hpos : pos < AddWidth) : (1#32 <<< pos).toNat < 2 ^ AddWidth := by
  rw [BitVec.toNat_shiftLeft, Nat.shiftLeft_eq]
  refine lt_of_le_of_lt (Nat.mod_le _ _) ?_
  rw [show (1#32).toNat = 1 from rfl, Nat.one_mul]
  exact Nat.pow_lt_pow_right (by decide) hpos

/-- The loop only touches bits below `logtsize`. -/
theorem geoLoop_lt (hpos : 0 < logtsize) (hle : logtsize ≤ AddWidth) (n i : ℕ)
    (hinter : inter.toNat < 2 ^ AddWidth) : (geoLoop ghr logtsize n i inter).toNat < 2 ^ AddWidth := by
  induction n generalizing i inter with
  | zero => exact hinter
  | succ n ih =>
    rw [geoLoop]
    refine ih (i + 1) ?_
    split
    · rw [BitVec.toNat_or]
      exact Nat.or_lt_two_pow hinter (bit_lt (lt_of_lt_of_le (Nat.mod_lt i hpos) hle))
    · rw [BitVec.toNat_and]
      exact lt_of_le_of_lt Nat.and_le_left hinter

theorem geoidx2_lt (hpos : 0 < logtsize) (hle : logtsize ≤ AddWidth) (hwidth : AddWidth < 32) (Add : BitVec 64) (m : ℕ) :
    geoidx2 AddWidth logtsize ghr Add m < 2 ^ AddWidth := by
  refine geoLoop_lt hpos hle m 0 ?_
  rw [BitVec.toNat_setWidth]
  exact lt_of_le_of_lt (Nat.mod_le _ _) (mask_lt Add (by omega))

/-- Only a write of bit 0 changes bit 0. -/
theorem setBit_zero (b : Bool) (pos : ℕ) (x : BitVec 32) :
    (if b then x ||| (1#32 <<< pos) else x &&& ~~~(1#32 <<< pos)).getLsbD 0 = if pos = 0 then b else x.getLsbD 0 := by
  rcases Nat.eq_zero_or_pos pos with rfl | hpos
  · cases b <;> simp
  · have hbit : (1#32 <<< pos).getLsbD 0 = false := by simp [hpos]
    have hne : pos ≠ 0 := by omega
    rw [if_neg hne]
    split
    · rw [BitVec.getLsbD_or, hbit, Bool.or_false]
    · rw [BitVec.getLsbD_and, BitVec.getLsbD_not, hbit]
      simp

/-- The lowest bit at the end goes with the lowest bit at the start. -/
theorem geoLoop_flip (ghr : ℕ → Bool) (logtsize n i : ℕ) (inter inter' : BitVec 32) (h : inter'.getLsbD 0 = !inter.getLsbD 0) :
    (geoLoop ghr logtsize n i inter').getLsbD 0 = !(geoLoop ghr logtsize n i inter).getLsbD 0 := by
  induction n generalizing i inter inter' with
  | zero => exact h
  | succ n ih =>
    rw [geoLoop, geoLoop]
    refine ih (i + 1) _ _ ?_
    rw [setBit_zero, setBit_zero, h]
    split
    · rw [Bool.xor_not]
    · rfl

theorem even_of_getLsbD (x : BitVec 32) : x.toNat % 2 = 0 ↔ x.getLsbD 0 = false := by
  rw [BitVec.getLsbD, Nat.testBit_zero]
  simp

theorem geoidx2_parity (logtsize : ℕ) (hwidth : 0 < AddWidth) (hlow : AddWidth < 32) (ghr : ℕ → Bool) (m : ℕ) :
    ∃ Add ∈ [0#64, 1#64], geoidx2 AddWidth logtsize ghr Add m % 2 = 0 := by
  have hone : ∀ k < 32, 0 < k → (1#64 &&& (1#64 <<< k - 1)).setWidth 32 = 1#32 := by decide
  have hflip := geoLoop_flip ghr logtsize m 0 0#32 1#32 rfl
  rcases Bool.eq_false_or_eq_true ((geoLoop ghr logtsize m 0 0#32).getLsbD 0) with hset | hclear
  · refine ⟨1#64, by decide, ?_⟩
    rw [geoidx2, hone AddWidth hlow hwidth, even_of_getLsbD, hflip, hset]
    rfl
  · refine ⟨0#64, by decide, ?_⟩
    rw [geoidx2, BitVec.zero_and]
    exact (even_of_getLsbD _).2 hclear

end BPSOgehl

end Esesc.Core
