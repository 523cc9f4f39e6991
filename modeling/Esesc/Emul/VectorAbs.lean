import Mathlib.Logic.Function.Basic
import Esesc.Lib.Lanes
import Esesc.Lib.TwosComplement

/-!
# Absolute values of vectors

`do_vabs` emulates `VABS` and `VQABS`. It takes two words, or four of a quadword, from where the front
end has put them in memory, and leaves the results and the saturation flag behind them.

* `lane_orLoop`: what a loop over the lanes of a word makes.
* `do_vabs_dst`, `do_vqabs`: what is stored.
* `vabs_right_iff`: when it is the absolute value.
-/

namespace Esesc.Emul

open Esesc.Lib

/-! ## Memory -/

/-- Words by address. The addresses that are used differ by multiples of 4. -/
abbrev ProgramBase := BitVec 32 → BitVec 32

namespace ProgramBase

variable (prog : ProgramBase)

def ldu32 (addr : BitVec 32) : BitVec 32 := prog addr

def st32 (addr data : BitVec 32) : ProgramBase := Function.update prog addr data

theorem ldu32_st32 (arg1 o o' data : BitVec 32) :
    (prog.st32 (arg1 + o) data).ldu32 (arg1 + o') = if o' = o then data else prog.ldu32 (arg1 + o') := by
  unfold ldu32 st32
  rw [Function.update_apply]
  exact if_congr (BitVec.add_right_inj arg1) rfl rfl

end ProgramBase

/-! ## The loops -/

section

variable {w : ℕ}

/-- `for(i = 0; i < n; i++) acc |= f(lane i of x) << (w * i)`. -/
def orLoop (f : BitVec w → BitVec w) (x acc : BitVec 32) : ℕ → BitVec 32
  | 0 => acc
  | i + 1 => orLoop f x acc i ||| (f (lane w x i)).setWidth 32 <<< (w * i)

/-- `VABS` of a lane. -/
def vabsLane (a : BitVec w) : BitVec w := if a.slt 0 then -a else a

/-- The same loop with the flag `sat`, for a lane that yields its value and whether it saturates. -/
def satLoop (f : BitVec w → BitVec w × Bool) (x acc : BitVec 32) (sat : Bool) : ℕ → BitVec 32 × Bool
  | 0 => (acc, sat)
  | i + 1 =>
    let (r, sat) := satLoop f x acc sat i
    (r ||| (f (lane w x i)).1.setWidth 32 <<< (w * i), sat || (f (lane w x i)).2)

/-- `VQABS` of a lane of 8 or 16 bits. The lane is unsigned, and what it is compared with is not. -/
def vqabsNarrow (x : BitVec w) : BitVec w × Bool :=
  if (x.toNat : ℤ) = (BitVec.intMin w).toInt then (BitVec.intMax w, true)
  else if (x.toNat : ℤ) < 0 then (-x, false)
  else (x, false)

/-- `VQABS` of 32 bits; `SIGNBIT` is the least integer. -/
def vqabsWide (x : BitVec w) : BitVec w × Bool :=
  if x = BitVec.intMin w then (~~~BitVec.intMin w, true) else if x.slt 0 then (-x, false) else (x, false)

end

/-! ## The instruction -/

/-- `lresult`, `hresult`, `qlresult` and `qhresult`, which the loops start from and nothing sets. -/
structure Leftover where
  lresult : BitVec 32
  hresult : BitVec 32
  qlresult : BitVec 32
  qhresult : BitVec 32

/-- `imm & 0x3`. -/
def vsize (imm : BitVec 32) : ℕ := (imm &&& 0x3).toNat

def vquad (imm : BitVec 32) : Bool := imm.getLsbD 2

def vsaturate (imm : BitVec 32) : Bool := imm.getLsbD 3

/-- `VABS` of a word, by the size of its lanes. -/
def vabsWord (size : ℕ) (x : BitVec 32) : BitVec 32 :=
  match size with
  | 0 => orLoop (vabsLane : BitVec 8 → BitVec 8) x 0 4
  | 1 => orLoop (vabsLane : BitVec 16 → BitVec 16) x 0 2
  | 2 => vabsLane x
  | _ => x

/-- In `quadhigh` of 32 bits the sign that is tested is that of `high`, after its own turn. -/
def vabsQuadhigh (size : ℕ) (high quadhigh : BitVec 32) : BitVec 32 :=
  if size = 2 then (if (vabsWord size high).slt 0 then -quadhigh else quadhigh) else vabsWord size quadhigh

/-- `VQABS` of a word, with what the result starts from. -/
def vqabsWord (size : ℕ) (acc x : BitVec 32) (sat : Bool) : BitVec 32 × Bool :=
  match size with
  | 0 => satLoop (vqabsNarrow : BitVec 8 → BitVec 8 × Bool) x acc sat 4
  | 1 => satLoop (vqabsNarrow : BitVec 16 → BitVec 16 × Bool) x acc sat 2
  | _ => ((vqabsWide x).1, sat || (vqabsWide x).2)

def satFlag (sat : Bool) : BitVec 32 := if sat then 1 else 0

def do_vabs (left : Leftover) (prog : ProgramBase) (arg1 : BitVec 32) : ProgramBase :=
  let low := prog.ldu32 (arg1 + 4)
  let high := prog.ldu32 (arg1 + 8)
  let imm := prog.ldu32 (arg1 + 12)
  let size := vsize imm
  let quadlow := prog.ldu32 (arg1 + 36)
  let quadhigh := prog.ldu32 (arg1 + 40)
  if !vsaturate imm then
    let prog := (prog.st32 (arg1 + 16) (vabsWord size low)).st32 (arg1 + 20) (vabsWord size high)
    if vquad imm then
      (prog.st32 (arg1 + 24) (vabsWord size quadlow)).st32 (arg1 + 28) (vabsQuadhigh size high quadhigh)
    else prog
  else if size = 3 then prog
  else
    let (l, sat) := vqabsWord size left.lresult low false
    let (h, sat) := vqabsWord size left.hresult high sat
    let prog := (prog.st32 (arg1 + 16) l).st32 (arg1 + 20) h
    if vquad imm then
      let (ql, sat) := vqabsWord size left.qlresult quadlow sat
      let (qh, sat) := vqabsWord size left.qhresult quadhigh sat
      ((prog.st32 (arg1 + 24) ql).st32 (arg1 + 28) qh).st32 (arg1 + 32) (satFlag sat)
    else prog.st32 (arg1 + 24) (satFlag sat)

/-! ## What it should do -/

/-- The width of the lanes: 8, 16 or 32. -/
def vwidth (size : ℕ) : ℕ := 8 * 2 ^ size

/-- The absolute value, modulo the width or clamped to the greatest integer. -/
def absExact {w : ℕ} (saturate : Bool) (a : BitVec w) : BitVec w :=
  BitVec.ofNat w (if saturate then min a.toInt.natAbs (2 ^ (w - 1) - 1) else a.toInt.natAbs)

/-- A word of the operand: where it is, where its result goes, and what the result starts from. -/
structure VWord where
  src : BitVec 32
  dst : BitVec 32
  acc : BitVec 32

def vwords (left : Leftover) (quad : Bool) : List VWord :=
  ⟨4, 16, left.lresult⟩ :: ⟨8, 20, left.hresult⟩ ::
    if quad then [⟨36, 24, left.qlresult⟩, ⟨40, 28, left.qhresult⟩] else []

/-- **Right.** Every lane of every word has its absolute value, and the saturation flag is set exactly when
some lane is the least integer. -/
structure VabsRight (saturate quad : Bool) (size : ℕ) (left : Leftover) (prog prog' : ProgramBase) (arg1 : BitVec 32) :
    Prop where
  lanes : ∀ v ∈ vwords left quad, ∀ i < 32 / vwidth size,
    lane (vwidth size) (prog'.ldu32 (arg1 + v.dst)) i =
      absExact saturate (lane (vwidth size) (prog.ldu32 (arg1 + v.src)) i)
  flag : saturate = true → ∃ sat, prog'.ldu32 (arg1 + if quad then 32 else 24) = satFlag sat ∧
    (sat = true ↔ ∃ v ∈ vwords left quad, ∃ i < 32 / vwidth size,
      lane (vwidth size) (prog.ldu32 (arg1 + v.src)) i = BitVec.intMin _)

/-- When it does it. With 32 bits and a quadword, the sign of `quadhigh` must be the one that `high` tells, or
not matter; with saturation and fewer bits, no lane may be negative and nothing may be left over that is
not in the word. -/
structure VabsFits (saturate quad : Bool) (size : ℕ) (left : Leftover) (prog : ProgramBase) (arg1 : BitVec 32) :
    Prop where
  quadhigh : saturate = false → size = 2 → quad = true →
    (prog.ldu32 (arg1 + 8) = BitVec.intMin 32 → (prog.ldu32 (arg1 + 40)).toInt ≤ 0) ∧
    (prog.ldu32 (arg1 + 8) ≠ BitVec.intMin 32 →
      0 ≤ (prog.ldu32 (arg1 + 40)).toInt ∨ prog.ldu32 (arg1 + 40) = BitVec.intMin 32)
  narrow : saturate = true → size ≠ 2 → ∀ v ∈ vwords left quad,
    (∀ i < 32 / vwidth size, (lane (vwidth size) (prog.ldu32 (arg1 + v.src)) i).msb = false) ∧
    v.acc ||| prog.ldu32 (arg1 + v.src) = prog.ldu32 (arg1 + v.src)

/-! ## Lanes -/

section

variable {w : ℕ}

/-- **A loop over lanes.** -/
theorem lane_orLoop (f : BitVec w → BitVec w) (x acc : BitVec 32) {n i : ℕ} (hi : w * i + w ≤ 32) :
    lane w (orLoop f x acc n) i = lane w acc i ||| if i < n then f (lane w x i) else 0 := by
  induction n with
  | zero =>
    rw [orLoop, if_neg (Nat.not_lt_zero i)]
    simp
  | succ n ih =>
    rw [orLoop, lane_or, ih, lane_shl_setWidth _ hi, BitVec.or_assoc]
    -- only turn `i` changes lane `i`
    rcases Nat.lt_trichotomy i n with h | rfl | h
    · rw [if_pos h, if_neg (Nat.ne_of_lt h), if_pos (by omega)]
      simp
    · rw [if_neg (Nat.lt_irrefl i), if_pos rfl, if_pos (by omega)]
      simp
    · rw [if_neg (Nat.lt_asymm h), if_neg (Nat.ne_of_gt h), if_neg (by omega)]
      simp

theorem satLoop_fst (f : BitVec w → BitVec w × Bool) (x acc : BitVec 32) (sat : Bool) (n : ℕ) :
    (satLoop f x acc sat n).1 = orLoop (fun a => (f a).1) x acc n := by
  induction n with
  | zero => rfl
  | succ n ih => rw [satLoop, orLoop, ← ih]

/-- A negative lane is negated, and so is the least integer, to itself. -/
theorem vabsLane_eq (a : BitVec w) : vabsLane a = absExact false a := by
  have hzero : (0 : BitVec w).toInt = 0 := BitVec.toInt_zero
  unfold vabsLane absExact
  rw [BitVec.slt_eq_decide, hzero, ← BitVec.ofInt_natCast]
  simp only [decide_eq_true_eq, Bool.false_eq_true, if_false]
  split
  · have habs : (a.toInt.natAbs : ℤ) = -a.toInt := by omega
    rw [habs, BitVec.ofInt_neg, BitVec.ofInt_toInt]
  · have habs : (a.toInt.natAbs : ℤ) = a.toInt := by omega
    rw [habs, BitVec.ofInt_toInt]

/-- The clamped absolute value of what is not negative. -/
theorem absExact_of_nonneg {a : BitVec w} (ha : 0 ≤ a.toInt) : absExact true a = a := by
  have hlt : a.toInt < half w := a.toInt_lt
  have hpow : ((2 ^ (w - 1) : ℕ) : ℤ) = half w := by simp [half]
  unfold absExact
  rw [if_pos rfl, ← BitVec.ofInt_natCast]
  have habs : ((min a.toInt.natAbs (2 ^ (w - 1) - 1) : ℕ) : ℤ) = a.toInt := by omega
  rw [habs, BitVec.ofInt_toInt]

/-- It is never negative. -/
theorem absExact_nonneg (hw : 0 < w) (a : BitVec w) : 0 ≤ (absExact true a).toInt := by
  have hpow : ((2 ^ (w - 1) : ℕ) : ℤ) = half w := by simp [half]
  have hpos := pos_half (w := w)
  unfold absExact
  rw [if_pos rfl, ← BitVec.ofInt_natCast, BitVec.toInt_ofInt, bmod_eq hw (by omega) (by omega)]
  split
  · omega
  split
  · omega
  · omega

/-- **8 and 16 bits.** The tests never succeed, so that a negative lane stays as it is. -/
theorem vqabsNarrow_eq (hw : 0 < w) (x : BitVec w) : vqabsNarrow x = (x, false) := by
  have hmin := BitVec.toInt_intMin_of_pos hw
  have hpos := pos_half (w := w)
  unfold half at hpos
  unfold vqabsNarrow
  rw [if_neg (by omega), if_neg (by omega)]

theorem not_intMin (hw : 0 < w) : ~~~BitVec.intMin w = BitVec.intMax w := by
  obtain ⟨m, rfl⟩ := Nat.exists_eq_succ_of_ne_zero (Nat.ne_of_gt hw)
  have hpos := Nat.two_pow_pos m
  apply BitVec.eq_of_toNat_eq
  rw [BitVec.toNat_not, BitVec.toNat_intMin, BitVec.toNat_intMax, Nat.succ_sub_one, Nat.pow_succ,
    Nat.mod_eq_of_lt (by omega)]
  omega

/-- **32 bits.** -/
theorem vqabsWide_eq (hw : 0 < w) (x : BitVec w) : vqabsWide x = (absExact true x, decide (x = BitVec.intMin w)) := by
  have hmin : (BitVec.intMin w).toInt = -half w := BitVec.toInt_intMin_of_pos hw
  have hlo : -half w ≤ x.toInt := x.le_toInt
  have hhi : x.toInt < half w := x.toInt_lt
  have hpow : ((2 ^ (w - 1) : ℕ) : ℤ) = half w := by simp [half]
  have hzero : (0 : BitVec w).toInt = 0 := BitVec.toInt_zero
  have hpos := pos_half (w := w)
  unfold vqabsWide
  by_cases hx : x = BitVec.intMin w
  · have hexact : absExact true x = BitVec.intMax w := by
      have habs : min x.toInt.natAbs (2 ^ (w - 1) - 1) = 2 ^ (w - 1) - 1 := by
        rw [hx, hmin]
        omega
      apply BitVec.eq_of_toNat_eq
      rw [absExact, if_pos rfl, habs, BitVec.toNat_ofNat, BitVec.toNat_intMax, Nat.mod_eq_of_lt]
      have hle : 2 ^ (w - 1) ≤ 2 ^ w := Nat.pow_le_pow_right (by omega) (by omega)
      have hone := Nat.two_pow_pos w
      omega
    rw [if_pos hx, hexact, not_intMin hw, decide_eq_true hx]
  · -- only the absolute value of the least integer is clamped
    have hne : x.toInt ≠ -half w := by
      rw [← hmin, Ne, BitVec.toInt_inj]
      exact hx
    have hclamp : absExact true x = absExact false x := by
      unfold absExact
      rw [if_pos rfl, if_neg (by simp), min_eq_left (by omega)]
    rw [if_neg hx, hclamp, ← vabsLane_eq, decide_eq_false hx]
    unfold vabsLane
    split <;> rfl

end

/-! ## Words -/

section

variable {size : ℕ} (acc x : BitVec 32) (sat : Bool)

theorem lane_word (x : BitVec 32) : lane 32 x 0 = x := by
  unfold lane
  simp

/-- **`VABS`.** -/
theorem lane_vabsWord (hs : size < 3) {i : ℕ} (hi : i < 32 / vwidth size) :
    lane (vwidth size) (vabsWord size x) i = absExact false (lane (vwidth size) x i) := by
  obtain rfl | rfl | rfl : size = 0 ∨ size = 1 ∨ size = 2 := by omega
  · have hi' : i < 4 := hi
    apply (lane_orLoop (w := 8) vabsLane x 0 (by omega)).trans
    rw [if_pos hi', vabsLane_eq]
    simp [lane, vwidth]
  · have hi' : i < 2 := hi
    apply (lane_orLoop (w := 16) vabsLane x 0 (by omega)).trans
    rw [if_pos hi', vabsLane_eq]
    simp [lane, vwidth]
  · have hi' : i < 1 := hi
    obtain rfl : i = 0 := by omega
    apply (lane_word _).trans
    apply (vabsLane_eq x).trans
    rw [← lane_word x]
    rfl

theorem vqabsNarrow_fst {w : ℕ} (hw : 0 < w) : (fun a : BitVec w => (vqabsNarrow a).1) = fun a => a :=
  funext fun a => by rw [vqabsNarrow_eq hw]

/-- **`VQABS` of 8 and 16 bits.** The word is or-ed to what is left over, and nothing saturates. -/
theorem vqabsWord_narrow (hs : size < 2) {i : ℕ} (hi : i < 32 / vwidth size) :
    lane (vwidth size) (vqabsWord size acc x sat).1 i = lane (vwidth size) acc i ||| lane (vwidth size) x i := by
  obtain rfl | rfl : size = 0 ∨ size = 1 := by omega
  · have hi' : i < 4 := hi
    have hloop := lane_orLoop (fun a : BitVec 8 => a) x acc (n := 4) (i := i) (by omega)
    rw [if_pos hi', ← vqabsNarrow_fst (by decide), ← satLoop_fst _ _ _ sat] at hloop
    exact hloop
  · have hi' : i < 2 := hi
    have hloop := lane_orLoop (fun a : BitVec 16 => a) x acc (n := 2) (i := i) (by omega)
    rw [if_pos hi', ← vqabsNarrow_fst (by decide), ← satLoop_fst _ _ _ sat] at hloop
    exact hloop

theorem satLoop_narrow {w : ℕ} (hw : 0 < w) (n : ℕ) :
    (satLoop (vqabsNarrow : BitVec w → BitVec w × Bool) x acc sat n).2 = sat := by
  induction n with
  | zero => rfl
  | succ n ih =>
    rw [satLoop]
    dsimp only
    rw [ih, vqabsNarrow_eq hw, Bool.or_false]

theorem vqabsWord_narrow_snd (hs : size < 2) : (vqabsWord size acc x sat).2 = sat := by
  obtain rfl | rfl : size = 0 ∨ size = 1 := by omega
  · exact satLoop_narrow _ _ _ (by decide) 4
  · exact satLoop_narrow _ _ _ (by decide) 2

/-- **`VQABS` of 32 bits.** -/
theorem vqabsWord_wide : vqabsWord 2 acc x sat = (absExact true x, sat || decide (x = BitVec.intMin 32)) := by
  have hwide := vqabsWide_eq (w := 32) (by decide) x
  show ((vqabsWide x).1, sat || (vqabsWide x).2) = _
  rw [hwide]

/-- **One word of `VQABS`.** With lanes of 8 or 16 bits it is right when no lane is negative and what is left
over is in the word. -/
theorem narrow_right_iff (hs : size < 2) :
    (∀ i < 32 / vwidth size, lane (vwidth size) (vqabsWord size acc x sat).1 i =
      absExact true (lane (vwidth size) x i)) ↔
    (∀ i < 32 / vwidth size, (lane (vwidth size) x i).msb = false) ∧ acc ||| x = x := by
  have hw : 0 < vwidth size := Nat.mul_pos (by decide) (Nat.two_pow_pos _)
  have hdiv : 32 = vwidth size * (32 / vwidth size) := by
    obtain rfl | rfl : size = 0 ∨ size = 1 := by omega
    · rfl
    · rfl
  have hmsb : ∀ a : BitVec (vwidth size), a.msb = false ↔ 0 ≤ a.toInt := by
    intro a
    rw [BitVec.msb_eq_toInt, decide_eq_false_iff_not, not_lt]
  have hlane : ∀ i < 32 / vwidth size, lane (vwidth size) (vqabsWord size acc x sat).1 i =
      absExact true (lane (vwidth size) x i) ↔
      (lane (vwidth size) x i).msb = false ∧ lane (vwidth size) acc i ||| lane (vwidth size) x i = lane (vwidth size) x i := by
    intro i hi
    rw [vqabsWord_narrow acc x sat hs hi]
    constructor
    · intro h
      -- an absolute value is not negative, and so is nothing that is or-ed to it
      have hpos := (hmsb _).2 (absExact_nonneg hw (lane (vwidth size) x i))
      rw [← h, BitVec.msb_or, Bool.or_eq_false_iff] at hpos
      rw [absExact_of_nonneg ((hmsb _).1 hpos.2)] at h
      exact ⟨hpos.2, h⟩
    · rintro ⟨hpos, h⟩
      rw [h, absExact_of_nonneg ((hmsb _).1 hpos)]
  constructor
  · intro h
    refine ⟨fun i hi => ((hlane i hi).1 (h i hi)).1, eq_of_lane_eq hdiv hw fun i hi => ?_⟩
    rw [lane_or]
    exact ((hlane i hi).1 (h i hi)).2
  · rintro ⟨hpos, hacc⟩ i hi
    refine (hlane i hi).2 ⟨hpos i hi, ?_⟩
    rw [← lane_or, hacc]

end

/-! ## What is stored -/

section

variable (left : Leftover) (prog : ProgramBase) (arg1 : BitVec 32)

/-- The result of a word of `VABS`. -/
def vabsOf (size : ℕ) (v : VWord) : BitVec 32 :=
  if v.src = 40 then vabsQuadhigh size (prog.ldu32 (arg1 + 8)) (prog.ldu32 (arg1 + 40))
  else vabsWord size (prog.ldu32 (arg1 + v.src))

theorem do_vabs_dst (hsat : vsaturate (prog.ldu32 (arg1 + 12)) = false) :
    ∀ v ∈ vwords left (vquad (prog.ldu32 (arg1 + 12))),
      (do_vabs left prog arg1).ldu32 (arg1 + v.dst) = vabsOf prog arg1 (vsize (prog.ldu32 (arg1 + 12))) v := by
  intro v hv
  unfold do_vabs
  simp only [hsat, Bool.not_false, if_true]
  cases hquad : vquad (prog.ldu32 (arg1 + 12)) with
  | false =>
    rw [hquad] at hv
    simp only [vwords, Bool.false_eq_true, if_false, List.mem_cons, List.not_mem_nil, or_false] at hv
    rcases hv with rfl | rfl <;> simp [ProgramBase.ldu32_st32, vabsOf]
  | true =>
    rw [hquad] at hv
    simp only [vwords, if_true, List.mem_cons, List.not_mem_nil, or_false] at hv
    rcases hv with rfl | rfl | rfl | rfl <;> simp [ProgramBase.ldu32_st32, vabsOf]

/-- The saturation flag that a word of `VQABS` leaves; it depends on the words before it. -/
def satAfter (size : ℕ) (l : List VWord) : Bool :=
  l.foldl (fun sat v => (vqabsWord size v.acc (prog.ldu32 (arg1 + v.src)) sat).2) false

theorem vqabsWord_fst (size : ℕ) (acc x : BitVec 32) (sat sat' : Bool) :
    (vqabsWord size acc x sat).1 = (vqabsWord size acc x sat').1 := by
  match size with
  | 0 => exact (satLoop_fst _ _ _ sat _).trans (satLoop_fst _ _ _ sat' _).symm
  | 1 => exact (satLoop_fst _ _ _ sat _).trans (satLoop_fst _ _ _ sat' _).symm
  | _ + 2 => rfl

theorem do_vqabs (hsat : vsaturate (prog.ldu32 (arg1 + 12)) = true) (hsize : vsize (prog.ldu32 (arg1 + 12)) ≠ 3) :
    (∀ v ∈ vwords left (vquad (prog.ldu32 (arg1 + 12))), (do_vabs left prog arg1).ldu32 (arg1 + v.dst) =
      (vqabsWord (vsize (prog.ldu32 (arg1 + 12))) v.acc (prog.ldu32 (arg1 + v.src)) false).1) ∧
    (do_vabs left prog arg1).ldu32 (arg1 + if vquad (prog.ldu32 (arg1 + 12)) then 32 else 24) =
      satFlag (satAfter prog arg1 (vsize (prog.ldu32 (arg1 + 12))) (vwords left (vquad (prog.ldu32 (arg1 + 12))))) := by
  unfold do_vabs
  simp only [hsat, hsize, Bool.not_true, Bool.false_eq_true, if_false]
  cases hquad : vquad (prog.ldu32 (arg1 + 12)) with
  | false =>
    refine ⟨fun v hv => ?_, ?_⟩
    · simp only [vwords, Bool.false_eq_true, if_false, List.mem_cons, List.not_mem_nil, or_false] at hv
      rcases hv with rfl | rfl
      · simp [ProgramBase.ldu32_st32]
      · simp [ProgramBase.ldu32_st32]
        apply vqabsWord_fst
    · simp [ProgramBase.ldu32_st32, satAfter, vwords]
  | true =>
    refine ⟨fun v hv => ?_, ?_⟩
    · simp only [vwords, if_true, List.mem_cons, List.not_mem_nil, or_false] at hv
      rcases hv with rfl | rfl | rfl | rfl <;> simp [ProgramBase.ldu32_st32] <;> apply vqabsWord_fst
    · simp [ProgramBase.ldu32_st32, satAfter, vwords]

theorem satAfter_narrow {size : ℕ} (hs : size < 2) (l : List VWord) : satAfter prog arg1 size l = false := by
  unfold satAfter
  induction l with
  | nil => rfl
  | cons v l ih => rw [List.foldl_cons, vqabsWord_narrow_snd _ _ _ hs, ih]

theorem satAfter_wide (l : List VWord) :
    satAfter prog arg1 2 l = true ↔ ∃ v ∈ l, prog.ldu32 (arg1 + v.src) = BitVec.intMin 32 := by
  have hall : ∀ sat, l.foldl (fun sat v => (vqabsWord 2 v.acc (prog.ldu32 (arg1 + v.src)) sat).2) sat = true ↔
      sat = true ∨ ∃ v ∈ l, prog.ldu32 (arg1 + v.src) = BitVec.intMin 32 := by
    induction l with
    | nil => simp
    | cons v l ih =>
      intro sat
      rw [List.foldl_cons, ih, vqabsWord_wide]
      simp [or_assoc]
  simpa [satAfter] using hall false

end

/-! ## Both forms -/

section

variable (a q : BitVec 32)

theorem toInt_neg_eq : (-a).toInt = if a.toInt = -half 32 then -half 32 else -a.toInt := by
  have hlo : -half 32 ≤ a.toInt := a.le_toInt
  have hhi : a.toInt < half 32 := a.toInt_lt
  rw [BitVec.toInt_neg, bmod_eq (by decide) (by omega) (by omega)]
  omega

/-- Only the least integer has a negative absolute value. -/
theorem vabsLane_neg_iff : (vabsLane a).slt 0 = true ↔ a = BitVec.intMin 32 := by
  have hlo : -half 32 ≤ a.toInt := a.le_toInt
  have hzero : (0 : BitVec 32).toInt = 0 := BitVec.toInt_zero
  have hmin : (BitVec.intMin 32).toInt = -half 32 := BitVec.toInt_intMin_of_pos (by decide)
  have hneg := toInt_neg_eq a
  have hpos := pos_half (w := 32)
  unfold vabsLane
  rw [← BitVec.toInt_inj, hmin]
  simp only [BitVec.slt_eq_decide, hzero, decide_eq_true_eq]
  split
  · rw [hneg]
    split <;> omega
  · omega

/-- **`quadhigh`.** It is right when its sign is the one that `high` tells, or does not matter. -/
theorem quadhigh_iff : vabsQuadhigh 2 a q = absExact false q ↔
    (a = BitVec.intMin 32 → q.toInt ≤ 0) ∧ (a ≠ BitVec.intMin 32 → 0 ≤ q.toInt ∨ q = BitVec.intMin 32) := by
  have hzero : (0 : BitVec 32).toInt = 0 := BitVec.toInt_zero
  have hmin : (BitVec.intMin 32).toInt = -half 32 := BitVec.toInt_intMin_of_pos (by decide)
  have hneg := toInt_neg_eq q
  have hpos := pos_half (w := 32)
  have hself : -q = q ↔ q.toInt = 0 ∨ q.toInt = -half 32 := by
    rw [← BitVec.toInt_inj, hneg]
    split <;> omega
  have habs : absExact false q = if q.toInt < 0 then -q else q := by
    rw [← vabsLane_eq, vabsLane]
    simp only [BitVec.slt_eq_decide, hzero, decide_eq_true_eq]
  have htest : vabsQuadhigh 2 a q = if a = BitVec.intMin 32 then -q else q := by
    show (if (vabsLane a).slt 0 = true then -q else q) = _
    simp only [vabsLane_neg_iff]
  rw [htest, habs]
  by_cases ha : a = BitVec.intMin 32
  · have hiff : -q = (if q.toInt < 0 then -q else q) ↔ q.toInt ≤ 0 := by
      split
      · exact iff_of_true rfl (by omega)
      · rw [hself]
        omega
    rw [if_pos ha, hiff]
    exact ⟨fun h => ⟨fun _ => h, fun hne => absurd ha hne⟩, fun h => h.1 ha⟩
  · have hiff : q = (if q.toInt < 0 then -q else q) ↔ 0 ≤ q.toInt ∨ q = BitVec.intMin 32 := by
      split
      · rw [eq_comm, hself, ← BitVec.toInt_inj, hmin]
        omega
      · exact iff_of_true rfl (.inl (by omega))
    rw [if_neg ha, hiff]
    exact ⟨fun h => ⟨fun he => absurd he ha, fun _ => h⟩, fun h => h.2 ha⟩

end

section

variable (left : Leftover) (prog : ProgramBase) (arg1 : BitVec 32)

/-- The word that can be wrong is there in the form for quadwords only. -/
theorem src_eq_forty {quad : Bool} {p : Prop} :
    (∀ v ∈ vwords left quad, v.src = 40 → p) ↔ (quad = true → p) := by
  cases quad with
  | false => simp [vwords]
  | true => simp [vwords]

/-- **One word of `VABS`.** -/
theorem abs_right_iff {size : ℕ} (hs : size < 3) (v : VWord) :
    (∀ i < 32 / vwidth size, lane (vwidth size) (vabsOf prog arg1 size v) i =
      absExact false (lane (vwidth size) (prog.ldu32 (arg1 + v.src)) i)) ↔
    (v.src = 40 → size = 2 →
      (prog.ldu32 (arg1 + 8) = BitVec.intMin 32 → (prog.ldu32 (arg1 + 40)).toInt ≤ 0) ∧
      (prog.ldu32 (arg1 + 8) ≠ BitVec.intMin 32 →
        0 ≤ (prog.ldu32 (arg1 + 40)).toInt ∨ prog.ldu32 (arg1 + 40) = BitVec.intMin 32)) := by
  by_cases hodd : v.src = 40 ∧ size = 2
  · obtain ⟨hsrc, rfl⟩ := hodd
    rw [← quadhigh_iff, vabsOf, if_pos hsrc, hsrc]
    constructor
    · intro h _ _
      have hlane := h 0 (by decide)
      have hword := lane_word (vabsQuadhigh 2 (prog.ldu32 (arg1 + 8)) (prog.ldu32 (arg1 + 40)))
      have hq := lane_word (prog.ldu32 (arg1 + 40))
      rw [← hword]
      apply hlane.trans
      show absExact false (lane 32 (prog.ldu32 (arg1 + 40)) 0) = absExact false (prog.ldu32 (arg1 + 40))
      rw [hq]
    · intro h i hi
      have hi' : i < 1 := hi
      obtain rfl : i = 0 := by omega
      apply (lane_word _).trans
      apply (h rfl rfl).trans
      show absExact false (prog.ldu32 (arg1 + 40)) = absExact false (lane 32 (prog.ldu32 (arg1 + 40)) 0)
      rw [lane_word]
  · have hword : vabsOf prog arg1 size v = vabsWord size (prog.ldu32 (arg1 + v.src)) := by
      unfold vabsOf
      by_cases hsrc : v.src = 40
      · rw [if_pos hsrc, vabsQuadhigh, if_neg fun h2 => hodd ⟨hsrc, h2⟩, hsrc]
      · rw [if_neg hsrc]
    rw [hword]
    exact iff_of_true (fun i hi => lane_vabsWord _ hs hi) fun hsrc h2 => absurd ⟨hsrc, h2⟩ hodd

/-- A word of 32 bits is its only lane. -/
theorem lanes_wide {p : ℕ → Prop} : (∀ i < 32 / vwidth 2, p i) ↔ p 0 := by
  constructor
  · exact fun h => h 0 (by decide)
  · intro h i hi
    have hi' : i < 1 := hi
    obtain rfl : i = 0 := by omega
    exact h

/-- The saturation flag, for words of 32 bits. -/
theorem satAfter_wide_iff {quad : Bool} : satAfter prog arg1 2 (vwords left quad) = true ↔
    ∃ v ∈ vwords left quad, ∃ i < 32 / vwidth 2, lane (vwidth 2) (prog.ldu32 (arg1 + v.src)) i = BitVec.intMin _ := by
  rw [satAfter_wide]
  refine exists_congr fun v => and_congr_right fun _ => ?_
  constructor
  · exact fun h => ⟨0, by decide, (lane_word _).trans h⟩
  · rintro ⟨i, hi, h⟩
    have hi' : i < 1 := hi
    obtain rfl : i = 0 := by omega
    exact (lane_word _).symm.trans h

/-- **Absolute values.** For lanes of 8, 16 and 32 bits, `do_vabs` stores the absolute values and the saturation
flag exactly when its operand fits. -/
theorem vabs_right_iff (hsize : vsize (prog.ldu32 (arg1 + 12)) ≠ 3) :
    VabsRight (vsaturate (prog.ldu32 (arg1 + 12))) (vquad (prog.ldu32 (arg1 + 12))) (vsize (prog.ldu32 (arg1 + 12)))
      left prog (do_vabs left prog arg1) arg1 ↔
    VabsFits (vsaturate (prog.ldu32 (arg1 + 12))) (vquad (prog.ldu32 (arg1 + 12))) (vsize (prog.ldu32 (arg1 + 12)))
      left prog arg1 := by
  have hs : vsize (prog.ldu32 (arg1 + 12)) < 3 := by
    have hle : vsize (prog.ldu32 (arg1 + 12)) ≤ 3 := by
      unfold vsize
      rw [BitVec.toNat_and]
      exact Nat.and_le_right
    omega
  have habs := do_vabs_dst left prog arg1
  have hqabs := do_vqabs left prog arg1
  revert hsize hs habs hqabs
  generalize vsize (prog.ldu32 (arg1 + 12)) = size
  generalize vquad (prog.ldu32 (arg1 + 12)) = quad
  generalize vsaturate (prog.ldu32 (arg1 + 12)) = saturate
  intro hsize hs habs hqabs
  cases saturate with
  | false =>
    -- the word at 40 is the only one that can be wrong
    have hlanes : (∀ v ∈ vwords left quad, ∀ i < 32 / vwidth size,
        lane (vwidth size) ((do_vabs left prog arg1).ldu32 (arg1 + v.dst)) i =
          absExact false (lane (vwidth size) (prog.ldu32 (arg1 + v.src)) i)) ↔ _ :=
      (forall₂_congr fun v hv => by rw [habs rfl v hv, abs_right_iff prog arg1 hs v]).trans (src_eq_forty left)
    constructor
    · exact fun h => ⟨fun _ h2 hquad => hlanes.1 h.lanes hquad h2, fun h' => absurd h' (by decide)⟩
    · exact fun h => ⟨hlanes.2 fun hquad h2 => h.quadhigh rfl h2 hquad, fun h' => absurd h' (by decide)⟩
  | true =>
    obtain ⟨hdst, hflag⟩ := hqabs rfl hsize
    by_cases h2 : size = 2
    · -- words of 32 bits are always right
      subst h2
      refine iff_of_true ⟨fun v hv => lanes_wide.2 ?_, fun _ => ⟨_, hflag, satAfter_wide_iff left prog arg1⟩⟩
        ⟨fun h' => absurd h' (by decide), fun _ h' => absurd rfl h'⟩
      rw [hdst v hv, vqabsWord_wide]
      apply (lane_word _).trans
      exact congrArg (absExact true) (lane_word _).symm
    · have hs' : size < 2 := by omega
      have hlanes : (∀ v ∈ vwords left quad, ∀ i < 32 / vwidth size,
          lane (vwidth size) ((do_vabs left prog arg1).ldu32 (arg1 + v.dst)) i =
            absExact true (lane (vwidth size) (prog.ldu32 (arg1 + v.src)) i)) ↔ _ :=
        forall₂_congr fun v hv => by rw [hdst v hv, narrow_right_iff _ _ _ hs']
      constructor
      · exact fun h => ⟨fun h' => absurd h' (by decide), fun _ _ => hlanes.1 h.lanes⟩
      · intro h
        have hfit := h.narrow rfl h2
        refine ⟨hlanes.2 hfit, fun _ => ⟨_, hflag, ?_⟩⟩
        -- nothing has saturated, and without negative lanes nothing should have
        rw [satAfter_narrow prog arg1 hs']
        refine iff_of_false (by decide) ?_
        rintro ⟨v, hv, i, hi, hmin⟩
        have hpos := (hfit v hv).1 i hi
        have hw : 0 < vwidth size := Nat.mul_pos (by decide) (Nat.two_pow_pos _)
        rw [hmin, BitVec.msb_intMin, decide_eq_false_iff_not] at hpos
        exact hpos hw

end

/-- An operand at address 0: the form, the two words, and the two of the quadword. -/
def vabsOperand (imm low high quadlow quadhigh : BitVec 32) : ProgramBase := fun addr =>
  if addr = 12 then imm else if addr = 4 then low else if addr = 8 then high
  else if addr = 36 then quadlow else if addr = 40 then quadhigh else 0

/-- `VQABS` of four words of 32 bits, the last of them the least integer. -/
theorem vqabs_quad_right :
    VabsRight (vsaturate 14) (vquad 14) (vsize 14) ⟨0, 0, 0, 0⟩ (vabsOperand 14 1 2 3 0x80000000)
      (do_vabs ⟨0, 0, 0, 0⟩ (vabsOperand 14 1 2 3 0x80000000) 0) 0 :=
  (vabs_right_iff ⟨0, 0, 0, 0⟩ (vabsOperand 14 1 2 3 0x80000000) 0 (by decide)).2
    ⟨fun h => absurd h (by decide), fun _ h => absurd h (by decide)⟩

/-- **Not the absolute value.** In the quadword form of `VABS` with 32 bits, minus five stays in `quadhigh` when
`high` is one; and in `VQABS` with 8 bits minus one stays, even if nothing is left over. -/
theorem vabs_not_right :
    ¬(∀ (left : Leftover) (prog : ProgramBase) (arg1 : BitVec 32), vsize (prog.ldu32 (arg1 + 12)) ≠ 3 →
      VabsRight (vsaturate (prog.ldu32 (arg1 + 12))) (vquad (prog.ldu32 (arg1 + 12)))
        (vsize (prog.ldu32 (arg1 + 12))) left prog (do_vabs left prog arg1) arg1) ∧
    (do_vabs ⟨0, 0, 0, 0⟩ (vabsOperand 6 1 1 1 0xFFFFFFFB) 0).ldu32 28 = 0xFFFFFFFB ∧
    (do_vabs ⟨0, 0, 0, 0⟩ (vabsOperand 8 0x000000FF 0 0 0) 0).ldu32 16 = 0x000000FF := by
  refine ⟨fun h => ?_, by decide, by decide⟩
  have hright := h ⟨0, 0, 0, 0⟩ (vabsOperand 8 0x000000FF 0 0 0) 0 (by decide)
  exact absurd (hright.lanes ⟨4, 16, 0⟩ List.mem_cons_self 0 (by decide)) (by decide)

end Esesc.Emul
