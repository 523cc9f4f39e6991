import Mathlib.Data.Fintype.Card
import Mathlib.Data.Fintype.EquivFin
import Mathlib.Data.List.FinRange
import Mathlib.Data.List.Perm.Basic
import Mathlib.Data.List.Basic
import Mathlib.Tactic.Common

/-!
# Ranks of recency

The members of a finite family have ranks, all different and below their number. A use of one gives it
rank 0, and the ones that had smaller ranks go one up. The log has the uses, the last one first.

* `touch`: what a use does to the ranks.
* `Ranked.touch`, `ByRecency.touch`: the ranks stay ranks, and in the order of the log.
* `ByRecency.oldest`: the member with the largest rank is the one that was used the longest time ago.
-/

namespace Esesc.Lib

variable {ι : Type*} [DecidableEq ι] {r : ι → ℕ} {log : List ι} {a v w : ι}

/-- The ranks after a use of `a`. -/
def touch (r : ι → ℕ) (a : ι) : ι → ℕ := fun w => if w = a then 0 else if r w < r a then r w + 1 else r w

/-- Ranks that are all different and below the number of members. -/
structure Ranked [Fintype ι] (r : ι → ℕ) : Prop where
  lt : ∀ w, r w < Fintype.card ι
  inj : Function.Injective r

/-- Members that were used later have smaller ranks. -/
def ByRecency (r : ι → ℕ) (log : List ι) : Prop := ∀ v w, log.idxOf v < log.idxOf w → r v < r w

theorem touch_self (r : ι → ℕ) (a : ι) : touch r a a = 0 := if_pos rfl

theorem touch_pos (hr : Function.Injective r) (h : w ≠ a) : 0 < touch r a w := by
  rw [touch, if_neg h]
  have hne : r w ≠ r a := hr.ne h
  split <;> omega

/-- Of two others, the order stays. -/
theorem touch_lt_touch (hr : Function.Injective r) (hv : v ≠ a) (hw : w ≠ a) (h : r v < r w) :
    touch r a v < touch r a w := by
  rw [touch, touch, if_neg hv, if_neg hw]
  have hne : r w ≠ r a := hr.ne hw
  split <;> split <;> omega

theorem Ranked.touch [Fintype ι] (h : Ranked r) (a : ι) : Ranked (touch r a) := by
  refine ⟨fun w => ?_, fun v w hvw => ?_⟩
  · have hw := h.lt w
    have ha := h.lt a
    unfold Lib.touch
    split
    · omega
    · split <;> omega
  · by_contra hne
    by_cases hv : v = a
    · have hpos := touch_pos h.inj (fun hw : w = a => hne (hv.trans hw.symm))
      rw [hv, touch_self] at hvw
      omega
    · by_cases hw : w = a
      · have hpos := touch_pos h.inj hv
        rw [hw, touch_self] at hvw
        omega
      · rcases Nat.lt_or_gt_of_ne (h.inj.ne hne) with hlt | hlt
        · have := touch_lt_touch h.inj hv hw hlt
          omega
        · have := touch_lt_touch h.inj hw hv hlt
          omega

/-- Nothing was used, and any ranks are in order. -/
theorem byRecency_nil (r : ι → ℕ) : ByRecency r [] := by
  intro v w h
  simp at h

theorem ByRecency.touch (hr : Function.Injective r) (h : ByRecency r log) (a : ι) : ByRecency (touch r a) (a :: log) := by
  intro v w hvw
  have hw : w ≠ a := by
    rintro rfl
    simp at hvw
  by_cases hv : v = a
  · rw [hv, touch_self]
    exact touch_pos hr hw
  · rw [List.idxOf_cons_ne _ (Ne.symm hv), List.idxOf_cons_ne _ (Ne.symm hw)] at hvw
    exact touch_lt_touch hr hv hw (h v w (Nat.lt_of_succ_lt_succ hvw))

/-- **The oldest.** No member was used longer ago than the one with the largest rank. -/
theorem ByRecency.oldest (h : ByRecency r log) (hmax : ∀ w, r w ≤ r v) (w : ι) : log.idxOf w ≤ log.idxOf v := by
  by_contra hlt
  exact absurd (h v w (by omega)) (hmax w).not_gt

/-- The ranks are a permutation of the numbers below the number of members. -/
theorem Ranked.perm {n : ℕ} {r : Fin n → ℕ} (h : Ranked r) : ((List.finRange n).map r).Perm (List.range n) := by
  have hnodup : ((List.finRange n).map r).Nodup := (List.nodup_finRange n).map h.inj
  have hsub : (List.finRange n).map r ⊆ List.range n := by
    intro k hk
    obtain ⟨w, -, rfl⟩ := List.mem_map.1 hk
    have := h.lt w
    rw [Fintype.card_fin] at this
    exact List.mem_range.2 this
  refine (List.Nodup.subperm hnodup hsub).perm_of_length_le ?_
  simp

end Esesc.Lib
