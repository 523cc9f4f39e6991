import Esesc.Lib.TwosComplement
import Esesc.Emul.Joined

/-!
# Saturating additions and subtractions

`SADD` and `SSUB`, for signed and unsigned lanes of 64, 32, 16 and 8 bits. The sixteen micro-ops decide
saturation in six ways, and a few of their lanes are odd.

* `saddS_toInt`, `saddU_toNat`, …: what each way computes, as integers.
* `lane_iff`: when one lane is the clamped sum or difference.
* `sat_right_iff`: when the whole word is.
-/

namespace Esesc.Emul

open Esesc.Lib

variable {w : ℕ}

/-! ## The micro-ops -/

inductive SatFormat
  | S64
  | S32
  | S16
  | S08
  | U64
  | U32
  | U16
  | U08
  deriving DecidableEq

namespace SatFormat

def width : SatFormat → ℕ
  | S64 | U64 => 64
  | S32 | U32 => 32
  | S16 | U16 => 16
  | S08 | U08 => 8

def signed : SatFormat → Bool
  | S64 | S32 | S16 | S08 => true
  | U64 | U32 | U16 | U08 => false

end SatFormat

/-- Lane `i` of the register that is the second operand. With an immediate it is the lowest lane, and in
the second lane of `OP_S08_SADD` always. -/
def Scuop.satSecond (inst : Scuop) (s : Scstate) (o : Arith) (f : SatFormat) (i : ℕ) : BitVec f.width :=
  lane f.width (s.getReg inst.src2) (if inst.useImm = true ∨ (o = .add ∧ f = .S08 ∧ i = 1) then 0 else i)

/-- The signed additions, with whether they saturate. -/
def saddS (a b : BitVec w) : BitVec w × Bool :=
  let r := a + b
  if (0 : BitVec w).sle a && (0 : BitVec w).sle b && r.slt 0 then (BitVec.intMax w, true)
  else if a.slt 0 && b.slt 0 && (0 : BitVec w).sle r then (BitVec.intMin w, true)
  else (r, false)

/-- The unsigned additions. -/
def saddU (a b : BitVec w) : BitVec w × Bool :=
  if BitVec.allOnes w - b < a then (BitVec.allOnes w, true) else (a + b, false)

/-- The last lane of `OP_U16_SADD` is compared with the greatest value itself. -/
def saddLast (a b : BitVec w) : BitVec w × Bool :=
  if BitVec.allOnes w < a then (BitVec.allOnes w, true) else (a + b, false)

/-- The signed subtractions of 64 and 32 bits; the sum wraps around. -/
def ssubWide (a b : BitVec w) : BitVec w × Bool :=
  if (BitVec.intMin w + b).slt a then (BitVec.intMax w, true) else (a - b, false)

/-- Those of 16 and 8 bits, in the 32 bits of `bottomU32`. -/
def ssubNarrow (a b : BitVec w) : BitVec w × Bool :=
  let r : BitVec 32 := a.signExtend 32 - b.signExtend 32
  if r ≠ (r.setWidth w).signExtend 32 then (if b.slt 0 then BitVec.intMax w else BitVec.intMin w, true)
  else (r.setWidth w, false)

/-- The unsigned subtractions. -/
def ssubU (a b : BitVec w) : BitVec w × Bool :=
  if a < b then (0, true) else (a - b, false)

/-- `OP_U64_SSUB` has its operands in signed variables. -/
def ssubU64 (a b : BitVec w) : BitVec w × Bool :=
  if a.slt b then (0, true) else (a - b, false)

/-- Lane `i` of each micro-op. -/
def Arith.sat (o : Arith) (f : SatFormat) (i : ℕ) (a b : BitVec w) : BitVec w × Bool :=
  match o, f with
  | .add, .S64 | .add, .S32 | .add, .S16 | .add, .S08 => saddS a b
  | .add, .U64 | .add, .U32 | .add, .U08 => saddU a b
  | .add, .U16 => if i = 3 then saddLast a b else saddU a b
  | .sub, .S64 | .sub, .S32 => ssubWide a b
  | .sub, .S16 | .sub, .S08 => ssubNarrow a b
  | .sub, .U64 => ssubU64 a b
  | .sub, .U32 | .sub, .U16 | .sub, .U08 => ssubU a b

section

variable (o : Arith) (f : SatFormat) (inst : Scuop) (s : Scstate)

def satLane (i : ℕ) : BitVec f.width × Bool :=
  o.sat f i (lane f.width (s.getReg inst.src1) i) (inst.satSecond s o f i)

def satRes : BitVec 64 :=
  if f.signed then joinS (fun i => (satLane o f inst s i).1) (64 / f.width)
  else joinU (fun i => (satLane o f inst s i).1) (64 / f.width)

/-- The flags are those of the lowest lane; the unsigned micro-ops clear the negative one. -/
def satICC : CCType :=
  let carry : CCType := if (satLane o f inst s 0).2 then 1 else 0
  let icc := calcNZ (satLane o f inst s 0).1
  (if f.signed then icc else icc &&& 0x7) ||| carry <<< 1 ||| (s.getICC LREG_ICC &&& 1)

def satOp : Scstate := s.setDst inst (satRes o f inst s) (satICC o f inst s)

def OP_S64_SADD : Scstate := satOp .add .S64 inst s
def OP_S32_SADD : Scstate := satOp .add .S32 inst s
def OP_S16_SADD : Scstate := satOp .add .S16 inst s
def OP_S08_SADD : Scstate := satOp .add .S08 inst s
def OP_U64_SADD : Scstate := satOp .add .U64 inst s
def OP_U32_SADD : Scstate := satOp .add .U32 inst s
def OP_U16_SADD : Scstate := satOp .add .U16 inst s
def OP_U08_SADD : Scstate := satOp .add .U08 inst s
def OP_S64_SSUB : Scstate := satOp .sub .S64 inst s
def OP_S32_SSUB : Scstate := satOp .sub .S32 inst s
def OP_S16_SSUB : Scstate := satOp .sub .S16 inst s
def OP_S08_SSUB : Scstate := satOp .sub .S08 inst s
def OP_U64_SSUB : Scstate := satOp .sub .U64 inst s
def OP_U32_SSUB : Scstate := satOp .sub .U32 inst s
def OP_U16_SSUB : Scstate := satOp .sub .U16 inst s
def OP_U08_SSUB : Scstate := satOp .sub .U08 inst s

end

/-! ## What they should do -/

/-- The exact sum or difference. -/
def Arith.int : Arith → ℤ → ℤ → ℤ
  | .add, x, y => x + y
  | .sub, x, y => x - y

namespace SatFormat

variable (f : SatFormat)

def lo : ℤ := if f.signed then -half f.width else 0

def hi : ℤ := if f.signed then half f.width - 1 else 2 * half f.width - 1

def clamp (x : ℤ) : ℤ := max f.lo (min f.hi x)

/-- The integer that a lane stands for. -/
def val (a : BitVec f.width) : ℤ := if f.signed then a.toInt else a.toNat

end SatFormat

section

variable (o : Arith) (f : SatFormat) (inst : Scuop) (s : Scstate)

/-- The clamped sum or difference of lane `i` of the operands. -/
def satExact (i : ℕ) : ℤ :=
  f.clamp (o.int (f.val (lane f.width (s.getReg inst.src1) i)) (f.val (inst.operand s f.width i)))

/-- **Right.** Every lane is the clamped sum or difference. -/
def SatRight (res : BitVec 64) : Prop := ∀ i < 64 / f.width, f.val (lane f.width res i) = satExact o f inst s i

/-! ## When they do -/

/-- One lane, from its first operand, the second one, and what is taken for the second one. -/
def LaneFits (i : ℕ) (a b b' : ℤ) : Prop :=
  match o, f with
  | .add, .U16 => f.clamp (a + b') = f.clamp (a + b) ∧ (i = 3 → a + b' ≤ f.hi)
  | .sub, .S64 | .sub, .S32 =>
    (b' < 0 ∧ a - b' ≠ half f.width ∧ f.clamp (a - b') = f.clamp (a - b)) ∨
    (0 ≤ b' ∧ ((a - b' = f.lo ∧ a - b ≤ f.lo) ∨ (f.lo < a - b' ∧ f.hi ≤ a - b)))
  | .sub, .U64 =>
    ((half f.width ≤ a ↔ half f.width ≤ b') ∧ f.clamp (a - b') = f.clamp (a - b)) ∨
    (half f.width ≤ a ∧ b' < half f.width ∧ a ≤ b)
  | _, _ => f.clamp (o.int a b') = f.clamp (o.int a b)

/-- A signed lane with a negative one below it must be minus one; the others must fit. -/
def SatFits : Prop :=
  ∀ j < 64 / f.width,
    (f.signed = true → ∀ i < j, satExact o f inst s i < 0 → satExact o f inst s j = -1) ∧
    ((f.signed = true → ∀ i < j, 0 ≤ satExact o f inst s i) →
      LaneFits o f j (f.val (lane f.width (s.getReg inst.src1) j)) (f.val (inst.operand s f.width j))
        (f.val (inst.satSecond s o f j)))

end

/-! ## Each way as integers -/

section

variable (hw : 0 < w) (a b : BitVec w)

include hw

/-- **Signed addition.** -/
theorem saddS_toInt : (saddS a b).1.toInt = max (-half w) (min (half w - 1) (a.toInt + b.toInt)) := by
  have ha : -half w ≤ a.toInt ∧ a.toInt < half w := ⟨a.le_toInt, a.toInt_lt⟩
  have hb : -half w ≤ b.toInt ∧ b.toInt < half w := ⟨b.le_toInt, b.toInt_lt⟩
  have hsum := toInt_add_eq hw a b
  have hzero : (0 : BitVec w).toInt = 0 := BitVec.toInt_zero
  unfold saddS
  simp only [BitVec.slt_eq_decide, BitVec.sle_eq_decide, hzero, Bool.and_eq_true, decide_eq_true_eq]
  split
  · rw [toInt_intMax_eq]
    omega
  split
  · rw [toInt_intMin_eq hw]
    omega
  · rw [hsum]
    omega

/-- **Signed subtraction of 64 and 32 bits.** What it compares with is above the least value by `b`,
wrapped around when `b` is negative. -/
theorem ssubWide_toInt : (ssubWide a b).1.toInt =
    if b.toInt < 0 then
      if a.toInt - b.toInt = half w then -half w else min (half w - 1) (a.toInt - b.toInt)
    else if a.toInt - b.toInt < -half w then a.toInt - b.toInt + 2 * half w
    else if a.toInt - b.toInt = -half w then -half w
    else half w - 1 := by
  have ha : -half w ≤ a.toInt ∧ a.toInt < half w := ⟨a.le_toInt, a.toInt_lt⟩
  have hb : -half w ≤ b.toInt ∧ b.toInt < half w := ⟨b.le_toInt, b.toInt_lt⟩
  have hlimit := toInt_add_eq hw (BitVec.intMin w) b
  rw [toInt_intMin_eq hw] at hlimit
  have hdiff := toInt_sub_eq hw a b
  unfold ssubWide
  simp only [BitVec.slt_eq_decide, decide_eq_true_eq]
  by_cases hneg : b.toInt < 0
  · -- the limit has wrapped around to the other end
    rw [if_pos hneg]
    rw [if_pos (by omega)] at hlimit
    by_cases hover : half w < a.toInt - b.toInt
    · rw [if_pos (by omega), toInt_intMax_eq]
      omega
    · rw [if_neg (by omega), hdiff]
      omega
  · rw [if_neg hneg]
    rw [if_neg (by omega), if_neg (by omega)] at hlimit
    by_cases hover : -half w < a.toInt - b.toInt
    · rw [if_pos (by omega), toInt_intMax_eq]
      omega
    · rw [if_neg (by omega), hdiff]
      omega

/-- **Signed subtraction of 16 and 8 bits.** -/
theorem ssubNarrow_toInt (hw32 : w < 32) :
    (ssubNarrow a b).1.toInt = max (-half w) (min (half w - 1) (a.toInt - b.toInt)) := by
  have ha : -half w ≤ a.toInt ∧ a.toInt < half w := ⟨a.le_toInt, a.toInt_lt⟩
  have hb : -half w ≤ b.toInt ∧ b.toInt < half w := ⟨b.le_toInt, b.toInt_lt⟩
  have hle : 2 * half w ≤ half 32 := by
    have hpow : 2 ^ w ≤ 2 ^ 31 := Nat.pow_le_pow_right (by decide) (by omega)
    have hcast := Int.ofNat_le.2 hpow
    rwa [two_pow_eq hw] at hcast
  have hdiff : (a.signExtend 32 - b.signExtend 32).toInt = a.toInt - b.toInt := by
    have h := toInt_sub_eq (by decide) (a.signExtend 32) (b.signExtend 32)
    rw [BitVec.toInt_signExtend_of_le (by omega), BitVec.toInt_signExtend_of_le (by omega)] at h
    rwa [if_neg (by omega), if_neg (by omega)] at h
  have hcut : ((a.signExtend 32 - b.signExtend 32).setWidth w).toInt = (a.toInt - b.toInt).bmod (2 ^ w) := by
    have hdvd : 2 ^ w ∣ 2 ^ 32 := Nat.pow_dvd_pow 2 (by omega)
    rw [← hdiff, BitVec.toInt_setWidth, BitVec.toInt_eq_toNat_bmod, Int.bmod_bmod_of_dvd hdvd]
  have hwrap := bmod_eq hw (x := a.toInt - b.toInt) (by omega) (by omega)
  rw [← hcut] at hwrap
  -- the difference of 32 bits is exact, so it changes when it is cut exactly if it does not fit
  have hsame : a.signExtend 32 - b.signExtend 32 ≠
      ((a.signExtend 32 - b.signExtend 32).setWidth w).signExtend 32 ↔
      a.toInt - b.toInt < -half w ∨ half w ≤ a.toInt - b.toInt := by
    rw [Ne, ← BitVec.toInt_inj, BitVec.toInt_signExtend_of_le (by omega), hdiff]
    omega
  have hzero : (0 : BitVec w).toInt = 0 := BitVec.toInt_zero
  unfold ssubNarrow
  simp only [hsame, BitVec.slt_eq_decide, hzero, decide_eq_true_eq]
  split
  · split
    · rw [toInt_intMax_eq]
      omega
    · rw [toInt_intMin_eq hw]
      omega
  · rw [hwrap]
    omega

/-- **Unsigned addition.** -/
theorem saddU_toNat : ((saddU a b).1.toNat : ℤ) = min (2 * half w - 1) (a.toNat + b.toNat) := by
  have ha := toNat_lt_half hw a
  have hb := toNat_lt_half hw b
  have hones := toNat_allOnes_eq hw
  have hroom := toNat_sub_eq hw (BitVec.allOnes w) b
  have hsum := toNat_add_eq hw a b
  rw [if_pos (by omega)] at hroom
  unfold saddU
  simp only [BitVec.lt_def]
  split
  · rw [hones]
    omega
  · rw [hsum]
    omega

/-- **The last lane.** It wraps around. -/
theorem saddLast_toNat : ((saddLast a b).1.toNat : ℤ) =
    if (a.toNat : ℤ) + b.toNat < 2 * half w then (a.toNat : ℤ) + b.toNat else a.toNat + b.toNat - 2 * half w := by
  have ha := toNat_lt_half hw a
  have hones := toNat_allOnes_eq hw
  unfold saddLast
  simp only [BitVec.lt_def]
  rw [if_neg (by omega)]
  exact toNat_add_eq hw a b

/-- **Unsigned subtraction.** -/
theorem ssubU_toNat : ((ssubU a b).1.toNat : ℤ) = max 0 (a.toNat - b.toNat) := by
  have hdiff := toNat_sub_eq hw a b
  unfold ssubU
  simp only [BitVec.lt_def]
  split
  · have hzero : (0 : BitVec w).toNat = 0 := BitVec.toNat_zero
    rw [hzero]
    omega
  · rw [hdiff]
    omega

/-- **Unsigned subtraction of 64 bits.** The operands are compared as signed numbers. -/
theorem ssubU64_toNat : ((ssubU64 a b).1.toNat : ℤ) =
    if half w ≤ a.toNat ↔ half w ≤ b.toNat then max 0 ((a.toNat : ℤ) - b.toNat)
    else if half w ≤ a.toNat then 0 else (a.toNat : ℤ) - b.toNat + 2 * half w := by
  have ha := toNat_lt_half hw a
  have hb := toNat_lt_half hw b
  have hia := toInt_eq_toNat_half hw a
  have hib := toInt_eq_toNat_half hw b
  have hdiff := toNat_sub_eq hw a b
  unfold ssubU64
  simp only [BitVec.slt_eq_decide, decide_eq_true_eq]
  split
  · have hzero : (0 : BitVec w).toNat = 0 := BitVec.toNat_zero
    rw [hzero]
    split <;> omega
  · rw [hdiff]
    split <;> omega

end

/-! ## One lane -/

theorem SatFormat.width_pos (f : SatFormat) : 0 < f.width := by cases f <;> decide

section

variable {f : SatFormat}

theorem SatFormat.clamp_signed (hf : f.signed = true) (x : ℤ) :
    f.clamp x = max (-half f.width) (min (half f.width - 1) x) := by
  rw [clamp, lo, hi, if_pos hf, if_pos hf]

theorem SatFormat.clamp_unsigned (hf : f.signed = false) (x : ℤ) :
    f.clamp x = max 0 (min (2 * half f.width - 1) x) := by
  have hf' : ¬f.signed = true := by simp [hf]
  rw [clamp, lo, hi, if_neg hf', if_neg hf']

theorem SatFormat.val_signed (hf : f.signed = true) (a : BitVec f.width) : f.val a = a.toInt := by
  rw [val, if_pos hf]

theorem SatFormat.val_unsigned (hf : f.signed = false) (a : BitVec f.width) : f.val a = a.toNat := by
  have hf' : ¬f.signed = true := by simp [hf]
  rw [val, if_neg hf']

end

/-- The lanes that do not compute what they should from the operand they take. -/
def Odd (o : Arith) (f : SatFormat) (i : ℕ) : Prop :=
  (o = .add ∧ f = .U16 ∧ i = 3) ∨ (o = .sub ∧ (f = .S64 ∨ f = .S32 ∨ f = .U64))

/-- All others do. -/
theorem sat_eq_clamp {o : Arith} {f : SatFormat} {i : ℕ} (h : ¬Odd o f i) (a b : BitVec f.width) :
    f.val (o.sat f i a b).1 = f.clamp (o.int (f.val a) (f.val b)) := by
  have hw := f.width_pos
  cases hf : f.signed with
  | true =>
    have hval := f.val_signed hf
    rw [hval, hval, hval, f.clamp_signed hf]
    cases o with
    | add =>
      have hadd := saddS_toInt hw a b
      cases f with
      | S64 | S32 | S16 | S08 => exact hadd
      | U64 | U32 | U16 | U08 => nomatch hf
    | sub =>
      cases f with
      | S64 | S32 => exact absurd (.inr ⟨rfl, by simp⟩) h
      | S16 | S08 => exact ssubNarrow_toInt hw a b (by decide)
      | U64 | U32 | U16 | U08 => nomatch hf
  | false =>
    have hval := f.val_unsigned hf
    rw [hval, hval, hval, f.clamp_unsigned hf]
    have ha := toNat_lt_half hw a
    have hb := toNat_lt_half hw b
    cases o with
    | add =>
      have hadd : ((saddU a b).1.toNat : ℤ) = max 0 (min (2 * half f.width - 1) (a.toNat + b.toNat)) := by
        rw [saddU_toNat hw]
        omega
      cases f with
      | S64 | S32 | S16 | S08 => nomatch hf
      | U64 | U32 | U08 => exact hadd
      | U16 =>
        have hi : ¬i = 3 := fun hi => h (.inl ⟨rfl, rfl, hi⟩)
        have hsat : Arith.add.sat .U16 i a b = saddU a b := if_neg hi
        rw [hsat]
        exact hadd
    | sub =>
      have hsub : ((ssubU a b).1.toNat : ℤ) = max 0 (min (2 * half f.width - 1) ((a.toNat : ℤ) - b.toNat)) := by
        rw [ssubU_toNat hw]
        omega
      cases f with
      | S64 | S32 | S16 | S08 => nomatch hf
      | U64 => exact absurd (.inr ⟨rfl, by simp⟩) h
      | U32 | U16 | U08 => exact hsub

/-! The odd ones, as facts of integers: `h` is half the number of values. -/

theorem wide_iff_int {h a b b' : ℤ} (ha : -h ≤ a ∧ a < h) (hb : -h ≤ b ∧ b < h) (hb' : -h ≤ b' ∧ b' < h) :
    ((if b' < 0 then if a - b' = h then -h else min (h - 1) (a - b')
      else if a - b' < -h then a - b' + 2 * h else if a - b' = -h then -h else h - 1) =
      max (-h) (min (h - 1) (a - b))) ↔
    (b' < 0 ∧ a - b' ≠ h ∧ max (-h) (min (h - 1) (a - b')) = max (-h) (min (h - 1) (a - b))) ∨
    (0 ≤ b' ∧ ((a - b' = -h ∧ a - b ≤ -h) ∨ (-h < a - b' ∧ h - 1 ≤ a - b))) := by
  by_cases hneg : b' < 0
  · rw [if_pos hneg]
    omega
  · rw [if_neg hneg]
    omega

theorem wide_unsigned_iff_int {h a b b' : ℤ} (ha : 0 ≤ a ∧ a < 2 * h) (hb : 0 ≤ b ∧ b < 2 * h)
    (hb' : 0 ≤ b' ∧ b' < 2 * h) :
    ((if h ≤ a ↔ h ≤ b' then max 0 (a - b') else if h ≤ a then 0 else a - b' + 2 * h) =
      max 0 (min (2 * h - 1) (a - b))) ↔
    ((h ≤ a ↔ h ≤ b') ∧ max 0 (min (2 * h - 1) (a - b')) = max 0 (min (2 * h - 1) (a - b))) ∨
    (h ≤ a ∧ b' < h ∧ a ≤ b) := by
  by_cases hsign : h ≤ a ↔ h ≤ b'
  · rw [if_pos hsign]
    omega
  · rw [if_neg hsign]
    omega

/-- What is left of the condition where nothing is odd. -/
theorem laneFits_iff {o : Arith} {f : SatFormat} {i : ℕ} (h : ¬Odd o f i) (a b b' : ℤ) :
    LaneFits o f i a b b' ↔ f.clamp (o.int a b') = f.clamp (o.int a b) := by
  cases o with
  | add =>
    cases f with
    | U16 =>
      have hi : ¬i = 3 := fun hi => h (.inl ⟨rfl, rfl, hi⟩)
      exact and_iff_left fun h3 => absurd h3 hi
    | S64 | S32 | S16 | S08 | U64 | U32 | U08 => exact Iff.rfl
  | sub =>
    cases f with
    | S64 | S32 | U64 => exact absurd (.inr ⟨rfl, by simp⟩) h
    | S16 | S08 | U32 | U16 | U08 => exact Iff.rfl

theorem lane_iff_wide {f : SatFormat} (hf : f = .S64 ∨ f = .S32) (i : ℕ) (a b b' : BitVec f.width) :
    f.val (Arith.sub.sat f i a b').1 = f.clamp (f.val a - f.val b) ↔
    LaneFits .sub f i (f.val a) (f.val b) (f.val b') := by
  have hw := f.width_pos
  have hsigned : f.signed = true := by rcases hf with rfl | rfl <;> rfl
  have hint := wide_iff_int (h := half f.width) ⟨a.le_toInt, a.toInt_lt⟩ ⟨b.le_toInt, b.toInt_lt⟩
    ⟨b'.le_toInt, b'.toInt_lt⟩
  rw [← ssubWide_toInt hw, ← f.clamp_signed hsigned, ← f.clamp_signed hsigned, ← f.val_signed hsigned,
    ← f.val_signed hsigned, ← f.val_signed hsigned, ← f.val_signed hsigned] at hint
  rcases hf with rfl | rfl <;> exact hint

theorem lane_iff_U64 {f : SatFormat} (hf : f = .U64) (i : ℕ) (a b b' : BitVec f.width) :
    f.val (Arith.sub.sat f i a b').1 = f.clamp (f.val a - f.val b) ↔
    LaneFits .sub f i (f.val a) (f.val b) (f.val b') := by
  have hw := f.width_pos
  have hunsigned : f.signed = false := by rw [hf]; rfl
  have hrange : ∀ x : BitVec f.width, 0 ≤ (x.toNat : ℤ) ∧ (x.toNat : ℤ) < 2 * half f.width := fun x =>
    ⟨Int.natCast_nonneg _, toNat_lt_half hw x⟩
  have hint := wide_unsigned_iff_int (h := half f.width) (hrange a) (hrange b) (hrange b')
  rw [← ssubU64_toNat hw, ← f.clamp_unsigned hunsigned, ← f.clamp_unsigned hunsigned, ← f.val_unsigned hunsigned,
    ← f.val_unsigned hunsigned, ← f.val_unsigned hunsigned, ← f.val_unsigned hunsigned] at hint
  subst hf
  exact hint

theorem lane_iff_U16 {f : SatFormat} (hf : f = .U16) (a b b' : BitVec f.width) :
    f.val (Arith.add.sat f 3 a b').1 = f.clamp (f.val a + f.val b) ↔
    LaneFits .add f 3 (f.val a) (f.val b) (f.val b') := by
  have hw := f.width_pos
  have hunsigned : f.signed = false := by rw [hf]; rfl
  have ha := toNat_lt_half hw a
  have hb := toNat_lt_half hw b
  have hb' := toNat_lt_half hw b'
  have hlast : Arith.add.sat f 3 a b' = saddLast a b' := by
    subst hf
    show (if 3 = 3 then saddLast a b' else saddU a b') = saddLast a b'
    rw [if_pos rfl]
  have hfits : LaneFits .add f 3 (f.val a) (f.val b) (f.val b') ↔
      f.clamp (f.val a + f.val b') = f.clamp (f.val a + f.val b) ∧ f.val a + f.val b' ≤ f.hi := by
    subst hf
    unfold LaneFits
    simp only [forall_const]
  have hhi : f.hi = 2 * half f.width - 1 := if_neg (by simp [hunsigned])
  rw [hfits, f.val_unsigned hunsigned, f.val_unsigned hunsigned, f.val_unsigned hunsigned, f.val_unsigned hunsigned,
    f.clamp_unsigned hunsigned, f.clamp_unsigned hunsigned, hhi, hlast, saddLast_toNat hw]
  omega

/-- **One lane.** -/
theorem lane_iff (o : Arith) (f : SatFormat) (i : ℕ) (a b b' : BitVec f.width) :
    f.val (o.sat f i a b').1 = f.clamp (o.int (f.val a) (f.val b)) ↔
    LaneFits o f i (f.val a) (f.val b) (f.val b') := by
  by_cases hodd : Odd o f i
  · -- the last lane of `OP_U16_SADD`, and the subtractions of 64 and 32 bits
    rcases hodd with ⟨rfl, rfl, rfl⟩ | ⟨rfl, hf⟩
    · exact lane_iff_U16 rfl a b b'
    · rcases hf with hf | hf | hf
      · exact lane_iff_wide (.inl hf) i a b b'
      · exact lane_iff_wide (.inr hf) i a b b'
      · exact lane_iff_U64 hf i a b b'
  · rw [sat_eq_clamp hodd, laneFits_iff hodd]

/-! ## The word -/

section

variable (o : Arith) (f : SatFormat) (inst : Scuop) (s : Scstate)

theorem SatFormat.lane_in {i : ℕ} (hi : i < 64 / f.width) : f.width * i + f.width ≤ 64 := by
  cases f <;> simp only [SatFormat.width] at * <;> omega

theorem satExact_range (i : ℕ) : f.lo ≤ satExact o f inst s i ∧ satExact o f inst s i ≤ f.hi := by
  have hpos := pos_half (w := f.width)
  have hle : f.lo ≤ f.hi := by
    unfold SatFormat.lo SatFormat.hi
    split <;> omega
  unfold satExact SatFormat.clamp
  omega

/-- **Saturation.** Every lane of the result is the clamped sum or difference exactly when the operands fit. -/
theorem sat_right_iff : SatRight o f inst s (satRes o f inst s) ↔ SatFits o f inst s := by
  have hw := f.width_pos
  have hlane : ∀ j, f.val (satLane o f inst s j).1 = satExact o f inst s j ↔
      LaneFits o f j (f.val (lane f.width (s.getReg inst.src1) j)) (f.val (inst.operand s f.width j))
        (f.val (inst.satSecond s o f j)) := fun j => lane_iff o f j _ _ _
  cases hf : f.signed with
  | true =>
    -- the exact lanes as words, so that the lanes put together can be compared with them
    let r : ℕ → BitVec f.width := fun i => BitVec.ofInt f.width (satExact o f inst s i)
    have hr : ∀ i, (r i).toInt = satExact o f inst s i := by
      intro i
      have hrange := satExact_range o f inst s i
      have hlo : f.lo = -half f.width := if_pos hf
      have hhi : f.hi = half f.width - 1 := if_pos hf
      have hpos := pos_half (w := f.width)
      have hwrap := bmod_eq hw (x := satExact o f inst s i) (by omega) (by omega)
      rw [if_neg (by omega), if_neg (by omega)] at hwrap
      rw [BitVec.toInt_ofInt]
      exact hwrap
    have hval : ∀ (x : BitVec f.width) i, f.val x = satExact o f inst s i ↔ x = r i := by
      intro x i
      rw [f.val_signed hf, ← hr, BitVec.toInt_inj]
    have hmsb : ∀ i, (r i).msb = true ↔ satExact o f inst s i < 0 := by
      intro i
      rw [BitVec.msb_eq_toInt, hr, decide_eq_true_eq]
    have hones : ∀ i, r i = BitVec.allOnes f.width ↔ satExact o f inst s i = -1 := by
      intro i
      rw [← BitVec.toInt_inj, hr, BitVec.toInt_allOnes, if_pos hw]
    have hjoin : SatRight o f inst s (satRes o f inst s) ↔ ∀ j < 64 / f.width,
        filled (satLane o f inst s j).1 ((List.range j).map fun i => (satLane o f inst s i).1) = r j := by
      refine forall_congr' fun j => imp_congr_right fun hj => ?_
      rw [hval, satRes, if_pos hf, lane_joinS_of_lt _ (f.lane_in hj) hj]
    rw [hjoin, filled_eq_iff]
    refine forall_congr' fun j => imp_congr_right fun _ => and_congr ?_ ?_
    · rw [hones]
      constructor
      · exact fun h _ i hij hneg => h i hij ((hmsb i).2 hneg)
      · exact fun h i hij hneg => h hf i hij ((hmsb i).1 hneg)
    · rw [← hval, hlane]
      have hnonneg : (∀ i < j, (r i).msb = false) ↔ (f.signed = true → ∀ i < j, 0 ≤ satExact o f inst s i) := by
        simp only [hf, forall_const, ← Bool.not_eq_true, hmsb, not_lt]
      rw [hnonneg]
  | false =>
    refine forall_congr' fun j => imp_congr_right fun hj => ?_
    have hnot : ¬f.signed = true := by simp [hf]
    rw [satRes, if_neg hnot, lane_joinU _ (f.lane_in hj) hj, hlane]
    constructor
    · exact fun h => ⟨fun hs => absurd hs hnot, fun _ => h⟩
    · exact fun h => h.2 fun hs => absurd hs hnot

end

/-- Two operands in registers. -/
def satRegs (a b : BitVec 64) : Scstate where
  rf := fun r => if r = 33 then a else if r = 34 then b else 0
  iccrf := fun _ => 0
  pc := 0
  flush := false
  nop := false

/-- **Not saturated.** `OP_S64_SSUB` makes the greatest integer of 5 minus 3, `OP_U64_SSUB` makes zero of
`2^63` minus one, the last lane of `OP_U16_SADD` wraps around, and `OP_S32_SADD` adds the register
where it is given an immediate. -/
theorem sat_not_right :
    ¬(∀ (o : Arith) (f : SatFormat) (inst : Scuop) (s : Scstate), SatRight o f inst s (satRes o f inst s)) ∧
    (OP_S64_SSUB addRegs (satRegs 5 3)).getReg 35 = 0x7FFFFFFFFFFFFFFF ∧
    satExact .sub .S64 addRegs (satRegs 5 3) 0 = 2 ∧
    (OP_U64_SSUB addRegs (satRegs 0x8000000000000000 1)).getReg 35 = 0 ∧
    (OP_U16_SADD addRegs (satRegs 0xFFFF000000000000 0x0001000000000000)).getReg 35 = 0 ∧
    (OP_S32_SADD { addRegs with useImm := true, imm := 1 } (satRegs 1 0)).getReg 35 = 1 := by
  refine ⟨fun h => ?_, by decide, by decide, by decide, by decide, by decide⟩
  exact absurd (h .sub .S64 addRegs (satRegs 5 3) 0 (by decide)) (by decide)

end Esesc.Emul
