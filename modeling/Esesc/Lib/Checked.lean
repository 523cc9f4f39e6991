import Mathlib.Algebra.Group.Nat.Defs
import Mathlib.Data.BitVec
import Mathlib.Data.List.FinRange
import Mathlib.Logic.Function.Basic

/-!
# Operations that can go wrong

Reads and writes of arrays of a known size, shifts by signed amounts and remainders, each with an answer only where C
gives one. A program written with them in `Option` has a result exactly when all of them had.

* `rd_of_lt`, `wr_of_lt`, `shl_of_nonneg`, `sar_of_nonneg`, `rem_of_pos`: where there is an answer.
* `foldlM_finRange`, `wr_filled`: loops, and the ones that fill an array.
* `mask_lt`, `xor_lt`, `shiftLeft_lt`: words that stay below a power of two.
-/

namespace Esesc.Lib

section Arrays

variable {α : Type*} {size i : ℕ} {a : ℕ → α} {v : α}

/-- `a[i]`. -/
def rd (size : ℕ) (a : ℕ → α) (i : ℕ) : Option α := if i < size then some (a i) else none

/-- `a[i] = v`. -/
def wr (size : ℕ) (a : ℕ → α) (i : ℕ) (v : α) : Option (ℕ → α) :=
  if i < size then some (Function.update a i v) else none

theorem rd_of_lt (h : i < size) : rd size a i = some (a i) := if_pos h

theorem wr_of_lt (h : i < size) : wr size a i v = some (Function.update a i v) := if_pos h

theorem wr_of_ge (h : size ≤ i) : wr size a i v = none := if_neg (by omega)

/-- `a`, with `n` elements from `off` on taken from `v`. -/
def filled (off n : ℕ) (v a : ℕ → α) : ℕ → α := fun j => if off ≤ j ∧ j < off + n then v (j - off) else a j

theorem filled_none (off : ℕ) (v a : ℕ → α) : filled off 0 v a = a := by
  funext j
  exact if_neg (by omega)

theorem filled_of_mem {off n j : ℕ} (v a : ℕ → α) (h : off ≤ j) (h' : j < off + n) :
    filled off n v a j = v (j - off) := if_pos ⟨h, h'⟩

theorem filled_of_notMem {off n j : ℕ} (v a : ℕ → α) (h : ¬(off ≤ j ∧ j < off + n)) : filled off n v a j = a j :=
  if_neg h

/-- What was there before does not matter where it is overwritten. -/
theorem filled_congr {off n j : ℕ} (v a a' : ℕ → α) (h : off ≤ j) (h' : j < off + n) :
    filled off n v a j = filled off n v a' j := by
  rw [filled_of_mem v a h h', filled_of_mem v a' h h']

theorem filled_of_lt (v a : ℕ → α) (h : i < size) : filled 0 size v a i = v i := if_pos (by omega)

/-- One more element. -/
theorem update_filled (off k : ℕ) (v a : ℕ → α) :
    Function.update (filled off k v a) (off + k) (v k) = filled off (k + 1) v a := by
  funext j
  rcases eq_or_ne j (off + k) with rfl | hj
  · rw [Function.update_self]
    exact ((if_pos (by omega)).trans (by rw [Nat.add_sub_cancel_left])).symm
  · rw [Function.update_of_ne hj, filled, filled]
    congr 1
    exact propext (by omega)

theorem wr_filled (off k : ℕ) (v a : ℕ → α) (h : off + k < size) :
    wr size (filled off k v a) (off + k) (v k) = some (filled off (k + 1) v a) := by
  rw [wr_of_lt h, update_filled]

/-- **Loops.** A loop over all `i < n` whose rounds lead from `g i` to `g (i + 1)` leads from `g 0` to `g n`. -/
theorem foldlM_finRange {σ : Type*} {n : ℕ} {f : σ → Fin n → Option σ} (g : ℕ → σ)
    (h : ∀ i : Fin n, f (g i) i = some (g (i + 1))) : (List.finRange n).foldlM f (g 0) = some (g n) := by
  induction n with
  | zero => simp
  | succ n ih =>
    have hlast := h (Fin.last n)
    have hinit := ih (f := fun s i => f s i.castSucc) fun i => h i.castSucc
    rw [List.finRange_succ_last, List.foldlM_append, List.foldlM_map, hinit]
    simpa using hlast

end Arrays

section Words

variable {w : ℕ} {x : BitVec w} {k : ℤ} {n d : ℕ}

/-- `x << k`. -/
def shl (x : BitVec w) (k : ℤ) : Option (BitVec w) := if 0 ≤ k then some (x <<< k.toNat) else none

/-- `x >> k` of a signed `x`. -/
def sar (x : BitVec w) (k : ℤ) : Option (BitVec w) := if 0 ≤ k then some (x.sshiftRight k.toNat) else none

/-- `n % d`. -/
def rem (n d : ℕ) : Option ℕ := if d = 0 then none else some (n % d)

theorem shl_of_nonneg (h : 0 ≤ k) : shl x k = some (x <<< k.toNat) := if_pos h

theorem shl_of_neg (h : k < 0) : shl x k = none := if_neg (by omega)

theorem sar_of_nonneg (h : 0 ≤ k) : sar x k = some (x.sshiftRight k.toNat) := if_pos h

theorem rem_of_pos (h : 0 < d) : rem n d = some (n % d) := if_neg (by omega)

theorem rem_zero (n : ℕ) : rem n 0 = none := if_pos rfl

end Words

/-! ## Words below a power of two -/

section Bounds

variable {x y : BitVec 64} {k n : ℕ}

theorem mask_lt (x : BitVec 64) (hk : k < 64) : (x &&& (1#64 <<< k - 1)).toNat < 2 ^ k := by
  have hpow : (2 : ℕ) ^ k < 2 ^ 64 := Nat.pow_lt_pow_right (by decide) hk
  have hpos : 0 < 2 ^ k := Nat.two_pow_pos k
  have hmask : (1#64 <<< k - 1).toNat = 2 ^ k - 1 := by
    have hshift : (1#64 <<< k).toNat = 2 ^ k := by
      rw [BitVec.toNat_shiftLeft, Nat.shiftLeft_eq, show (1#64).toNat = 1 from rfl, Nat.one_mul, Nat.mod_eq_of_lt hpow]
    rw [BitVec.toNat_sub, hshift]
    show (2 ^ 64 - 1 + 2 ^ k) % 2 ^ 64 = 2 ^ k - 1
    omega
  rw [BitVec.toNat_and, hmask]
  refine lt_of_le_of_lt Nat.and_le_right ?_
  omega

theorem xor_lt (hx : x.toNat < 2 ^ k) (hy : y.toNat < 2 ^ k) : (x ^^^ y).toNat < 2 ^ k := by
  rw [BitVec.toNat_xor]
  exact Nat.xor_lt_two_pow hx hy

theorem ushiftRight_lt (hx : x.toNat < 2 ^ k) (n : ℕ) : (x >>> n).toNat < 2 ^ k := by
  rw [BitVec.toNat_ushiftRight]
  refine lt_of_le_of_lt ?_ hx
  rw [Nat.shiftRight_eq_div_pow]
  exact Nat.div_le_self _ _

theorem shiftLeft_lt (hx : x.toNat < 2 ^ n) (hn : n ≤ k) : (x <<< (k - n)).toNat < 2 ^ k := by
  rw [BitVec.toNat_shiftLeft, Nat.shiftLeft_eq]
  refine lt_of_le_of_lt (Nat.mod_le _ _) ?_
  calc x.toNat * 2 ^ (k - n) < 2 ^ n * 2 ^ (k - n) := Nat.mul_lt_mul_of_pos_right hx (Nat.two_pow_pos _)
    _ = 2 ^ k := by rw [← Nat.pow_add, Nat.add_sub_cancel' hn]

end Bounds

end Esesc.Lib
