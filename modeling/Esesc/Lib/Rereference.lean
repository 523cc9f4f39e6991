import Mathlib.Data.List.Basic
import Mathlib.Data.List.Count
import Mathlib.Data.Finset.Max
import Mathlib.Data.Finset.Range
import Mathlib.Data.Finset.Card
import Mathlib.Data.Nat.Find

/-!
# Re-reference values

A set of `n` ways, each with a re-reference value up to `M`. To evict, all values grow by the same amount until
one of them is `M`; the first way with `M` is evicted, and the new line starts at `M - 1`.

* `Evicts.unique`, `exists_evicts`: there is one way to evict.
* `not_alike`: two sets that differ in the value of one way do not evict alike for ever.
-/

namespace Esesc.Lib

section Rereference

variable {n M : ℕ} {r r' r₁ r₁' : ℕ → ℕ} {v w a : ℕ}

/-- Way `v` is evicted from a set with values `r`, which leaves `r'`. -/
structure Evicts (n M : ℕ) (r : ℕ → ℕ) (v : ℕ) (r' : ℕ → ℕ) : Prop where
  lt : v < n
  max : ∀ i < n, r i ≤ r v
  first : ∀ i < v, r i < r v
  filled : r' v = M - 1
  aged : ∀ i < n, i ≠ v → r' i = r i + (M - r v)

theorem Evicts.unique (h : Evicts n M r v r') (h' : Evicts n M r w r₁) : v = w := by
  rcases Nat.lt_trichotomy v w with hlt | heq | hlt
  · have := h'.first v hlt
    have := h.max w h'.lt
    omega
  · exact heq
  · have := h.first w hlt
    have := h'.max v h.lt
    omega

/-- What is left is determined as well. -/
theorem Evicts.next_eq (h : Evicts n M r v r') (h' : Evicts n M r v r₁') : ∀ i < n, r' i = r₁' i := by
  intro i hi
  by_cases hiv : i = v
  · rw [hiv, h.filled, h'.filled]
  · rw [h.aged i hi hiv, h'.aged i hi hiv]

/-- Only the values of the `n` ways matter. -/
theorem Evicts.congr {q : ℕ → ℕ} (h : Evicts n M r v r') (hq : ∀ i < n, q i = r i) : Evicts n M q v r' := by
  have hv := hq v h.lt
  refine ⟨h.lt, fun i hi => ?_, fun i hi => ?_, h.filled, fun i hi hiv => ?_⟩
  · rw [hq i hi, hv]
    exact h.max i hi
  · rw [hq i (lt_trans hi h.lt), hv]
    exact h.first i hi
  · rw [hq i hi, hv]
    exact h.aged i hi hiv

theorem exists_evicts (hn : 0 < n) (M : ℕ) (r : ℕ → ℕ) : ∃ v r', Evicts n M r v r' := by
  -- the first way among those with the greatest value
  have hex : ∃ v, v < n ∧ ∀ i < n, r i ≤ r v := by
    obtain ⟨v, hv, hmax⟩ := Finset.exists_max_image (Finset.range n) r ⟨0, Finset.mem_range.2 hn⟩
    exact ⟨v, Finset.mem_range.1 hv, fun i hi => hmax i (Finset.mem_range.2 hi)⟩
  obtain ⟨hlt, hmax⟩ := Nat.find_spec hex
  refine ⟨Nat.find hex, fun i => if i = Nat.find hex then M - 1 else r i + (M - r (Nat.find hex)), hlt, hmax, ?_, ?_, ?_⟩
  · intro i hi
    have hnot := Nat.find_min hex hi
    by_contra hge
    exact hnot ⟨by omega, fun j hj => by have := hmax j hj; omega⟩
  · exact if_pos rfl
  · exact fun i _ hi => if_neg hi

theorem Evicts.le (h : Evicts n M r v r') (hr : ∀ i < n, r i ≤ M) : ∀ i < n, r' i ≤ M := by
  intro i hi
  by_cases hiv : i = v
  · rw [hiv, h.filled]
    exact Nat.sub_le M 1
  · rw [h.aged i hi hiv]
    have := h.max i hi
    have := hr v h.lt
    omega

/-- Sets that are related evict the same way, and are related again. -/
def EvictsAlike (n M : ℕ) (R : (ℕ → ℕ) → (ℕ → ℕ) → Prop) : Prop :=
  ∀ r r₁ v r', R r r₁ → Evicts n M r v r' → ∃ r₁', Evicts n M r₁ v r₁' ∧ R r' r₁'

variable {R : (ℕ → ℕ) → (ℕ → ℕ) → Prop}

/-- A way that is evicted from both sets, and has been from the first again and again: the values of the others are
greater in the second set, by the same amount, and get to `M` there first. -/
theorem not_alike_shifted (hR : EvictsAlike n M R) (hn : 2 ≤ n) (ha : a < n) {d : ℕ} (hd : 1 ≤ d) (h : R r r₁)
    (hra : r a = M - 1) (hra₁ : r₁ a = M - 1) (hshift : ∀ i < n, i ≠ a → r₁ i = r i + d)
    (hle : ∀ i < n, i ≠ a → r i ≤ M - 1) (hbehind : ∀ i < n, i ≠ a → r i = M - 1 → a < i)
    (htop : ∀ i < n, r₁ i ≤ M) : False := by
  -- some other way
  obtain ⟨j, hj, hja⟩ : ∃ j < n, j ≠ a := by
    by_cases h0 : a = 0
    · exact ⟨1, by omega, by omega⟩
    · exact ⟨0, by omega, fun e => h0 e.symm⟩
  obtain ⟨m, hm⟩ : ∃ m, m = M - r₁ j := ⟨_, rfl⟩
  induction m using Nat.strong_induction_on generalizing r r₁ with
  | _ m ih =>
    -- the first set evicts the way
    have hev : Evicts n M r a fun i => if i = a then M - 1 else r i + (M - r a) := by
      refine ⟨ha, fun i hi => ?_, fun i hi => ?_, if_pos rfl, fun i _ hia => if_neg hia⟩
      · by_cases hia : i = a
        · rw [hia]
        · rw [hra]
          exact hle i hi hia
      · have h1 := hle i (by omega) (by omega)
        have h2 := hbehind i (by omega) (by omega)
        omega
    obtain ⟨r₁', hev₁, hrel⟩ := hR r r₁ a _ h hev
    have hM : 1 ≤ M := by
      have h1 := hshift j hj hja
      have h2 := htop j hj
      omega
    have hgrow : ∀ i < n, i ≠ a → r₁' i = r₁ i + 1 := by
      intro i hi hia
      rw [hev₁.aged i hi hia, hra₁]
      omega
    have hjgrow := hgrow j hj hja
    have hjmax := hev₁.max j hj
    refine ih (M - r₁' j) (by omega) hrel (if_pos rfl) hev₁.filled (fun i hi hia => ?_) (fun i hi hia => ?_)
      (fun i hi hia heq => ?_) (hev₁.le htop) rfl
    · simp only [if_neg hia]
      rw [hgrow i hi hia, hshift i hi hia, hra]
      omega
    · simp only [if_neg hia]
      have h1 := hshift i hi hia
      have h2 := hev₁.max i hi
      omega
    · simp only [if_neg hia] at heq
      have h1 := hshift i hi hia
      have h2 := hev₁.max i hi
      by_contra hlt
      have h3 := hev₁.first i (by omega)
      omega

/-- The way is evicted now: from then on the other values differ. -/
theorem not_alike_evicted (hR : EvictsAlike n M R) (hn : 2 ≤ n) (h : R r r₁) (hev : Evicts n M r a r')
    (hsame : ∀ i < n, i ≠ a → r i = r₁ i) (hlt : r₁ a < r a) (hr : ∀ i < n, r i ≤ M) : False := by
  obtain ⟨r₁', hev₁, hrel⟩ := hR r r₁ a r' h hev
  have htop : ∀ i < n, r₁ i ≤ M := by
    intro i hi
    by_cases hia : i = a
    · rw [hia]
      exact le_trans hlt.le (hr a hev.lt)
    · rw [← hsame i hi hia]
      exact hr i hi
  have ha := hr a hev.lt
  have hother : ∀ i < n, i ≠ a → r' i = r₁ i + (M - r a) := by
    intro i hi hia
    rw [hev.aged i hi hia, hsame i hi hia]
  refine not_alike_shifted hR hn hev.lt (d := r a - r₁ a) (by omega) hrel hev.filled hev₁.filled (fun i hi hia => ?_)
    (fun i hi hia => ?_) (fun i hi hia heq => ?_) (hev₁.le htop)
  · rw [hev₁.aged i hi hia, hother i hi hia]
    omega
  · rw [hother i hi hia]
    have := hev₁.max i hi
    omega
  · rw [hother i hi hia] at heq
    have hmax := hev₁.max i hi
    by_contra hbefore
    have := hev₁.first i (by omega)
    omega

/-- The number of ways with the greatest value possible. -/
def distant (n M : ℕ) (r : ℕ → ℕ) : ℕ := ((Finset.range n).filter fun i => r i = M).card

theorem distant_le (n M : ℕ) (r : ℕ → ℕ) : distant n M r ≤ n := by
  refine le_trans (Finset.card_filter_le _ _) ?_
  rw [Finset.card_range]

/-- When nothing has to age, there is one distant way less. -/
theorem Evicts.distant_lt (h : Evicts n M r v r') (hM : 1 ≤ M) (hfull : r v = M) : distant n M r' < distant n M r := by
  refine Finset.card_lt_card ((Finset.ssubset_iff_of_subset ?_).2 ⟨v, ?_, ?_⟩)
  · intro i hi
    rw [Finset.mem_filter, Finset.mem_range] at hi ⊢
    refine ⟨hi.1, ?_⟩
    by_cases hiv : i = v
    · rw [hiv, hfull]
    · have := h.aged i hi.1 hiv
      omega
  · rw [Finset.mem_filter, Finset.mem_range]
    exact ⟨h.lt, hfull⟩
  · rw [Finset.mem_filter]
    intro hi
    have := h.filled
    omega

/-- **Sets that differ in one way** do not evict alike for ever: the way ages, or distant ways go, until it is evicted. -/
theorem not_alike (hR : EvictsAlike n M R) (hn : 2 ≤ n) (hM : 1 ≤ M) (ha : a < n) (h : R r r₁)
    (hsame : ∀ i < n, i ≠ a → r i = r₁ i) (hlt : r₁ a < r a) (hr : ∀ i < n, r i ≤ M) : False := by
  obtain ⟨m, hm⟩ : ∃ m, m = (M - r a) * (n + 1) + distant n M r := ⟨_, rfl⟩
  induction m using Nat.strong_induction_on generalizing r r₁ with
  | _ m ih =>
    obtain ⟨v, r', hev⟩ := exists_evicts (n := n) (by omega) M r
    by_cases hva : v = a
    · exact not_alike_evicted hR hn h (hva ▸ hev) hsame hlt hr
    · obtain ⟨r₁', hev₁, hrel⟩ := hR r r₁ v r' h hev
      have hvv := hsame v hev.lt hva
      have hav := hev.max a ha
      have hanew : r' a = r a + (M - r v) := hev.aged a ha (Ne.symm hva)
      have hanew₁ : r₁' a = r₁ a + (M - r v) := by
        rw [hev₁.aged a ha (Ne.symm hva), hvv]
      have hv := hr v hev.lt
      refine ih ((M - r' a) * (n + 1) + distant n M r') ?_ hrel (fun i hi hia => ?_) (by omega) (hev.le hr) rfl
      · rw [hm]
        by_cases hfull : r v = M
        · have hcount := hev.distant_lt hM hfull
          have hstay : r' a = r a := by omega
          rw [hstay]
          omega
        · -- the way ages, which outweighs the others
          have hcount := distant_le n M r'
          have hstep : (M - r' a + 1) * (n + 1) ≤ (M - r a) * (n + 1) := Nat.mul_le_mul_right _ (by omega)
          rw [Nat.succ_mul] at hstep
          omega
      · by_cases hiv : i = v
        · rw [hiv, hev.filled, hev₁.filled]
        · rw [hev.aged i hi hiv, hev₁.aged i hi hiv, hsame i hi hia, hvv]

end Rereference

end Esesc.Lib
