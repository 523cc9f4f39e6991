import Mathlib.Data.List.Nodup
import Mathlib.Data.List.Range
import Mathlib.Data.List.Perm.Basic
import Mathlib.Data.Nat.Count
import Mathlib.Data.Nat.Find

/-!
# Items moved in batches

Items come one at a time, each with a class or none. An item goes to the end of the list of its
class; at some times a list is moved, whole, to an output, and at the end all of them are. When
lists are moved at the same time, their classes are taken in a fixed order. A list may be arranged
anew while it waits: `out` is what there is of it when it is moved.

* `exists_cut_iff`: when a list is moved as soon as a pair of items hits, counted in pairs.
* `mem_held`: an item is in its list until that is moved for the first time.
* `nodup_order`, `mem_order`: every item with a class comes out once.
* `pair_sublist_order_iff`: which of two items comes out first.
-/

namespace Esesc.Lib

section Pairs

variable {α : Type*} {a b : α} {l : List α}

/-- Two members of a list, one of which comes before the other. -/
theorem pair_sublist_or (ha : a ∈ l) (hb : b ∈ l) (hne : a ≠ b) :
    List.Sublist [a, b] l ∨ List.Sublist [b, a] l := by
  induction l with
  | nil => cases ha
  | cons c l ih =>
    rcases List.mem_cons.1 ha with rfl | ha'
    · have hb : b ∈ l := (List.mem_cons.1 hb).resolve_left (Ne.symm hne)
      exact .inl (List.Sublist.cons_cons a (List.singleton_sublist.2 hb))
    · -- the head is not `a`
      rcases List.mem_cons.1 hb with rfl | hb
      · exact .inr (List.Sublist.cons_cons b (List.singleton_sublist.2 ha'))
      · exact (ih ha' hb).imp (List.Sublist.cons c) (List.Sublist.cons c)

/-- Two members of a list without repetitions stand in one order only. -/
theorem not_pair_sublist (h : l.Nodup) (hab : List.Sublist [a, b] l) : ¬List.Sublist [b, a] l := by
  induction l with
  | nil => cases hab
  | cons c l ih =>
    obtain ⟨hc, hl⟩ := List.nodup_cons.1 h
    intro hba
    cases hab with
    | cons _ hab =>
      cases hba with
      | cons _ hba => exact ih hl hab hba
      | cons_cons _ _ => exact hc (hab.subset (by simp))
    | cons_cons _ hb =>
      cases hba with
      | cons _ hba => exact hc (hba.subset (by simp))
      | cons_cons _ _ => exact hc (hb.subset (by simp))

/-- The order of two members is the one that they have in a part of the list. -/
theorem pair_sublist_iff_of_sublist {l' : List α} (h : l.Nodup) (hl : l'.Sublist l) (ha : a ∈ l') (hb : b ∈ l') :
    List.Sublist [a, b] l' ↔ List.Sublist [a, b] l := by
  refine ⟨fun hab => hab.trans hl, fun hab => ?_⟩
  have hne : a ≠ b := by
    rintro rfl
    exact not_pair_sublist h hab hab
  exact (pair_sublist_or ha hb hne).resolve_right fun hba => not_pair_sublist h hab (hba.trans hl)

end Pairs

section Cuts

variable {hit : ℕ → ℕ → Prop} {cut : ℕ → Prop} {i k n t : ℕ}

/-- Up to `t` there are `n` pairs that hit, each behind the one before. -/
def Chain (hit : ℕ → ℕ → Prop) : ℕ → ℕ → Prop
  | 0, _ => True
  | n + 1, t => ∃ k ≤ t, ∃ i < k, hit i k ∧ Chain hit n i

open Classical in
theorem count_eq_of_not (h : ∀ m, i ≤ m → m < k → ¬cut m) (hik : i ≤ k) : Nat.count cut k = Nat.count cut i := by
  induction k, hik using Nat.le_induction with
  | base => rfl
  | succ k hik ih =>
    rw [Nat.count_succ, if_neg (h k hik (Nat.lt_succ_self k)), ih fun m him hmk => h m him (Nat.lt_succ_of_lt hmk)]
    rfl

open Classical in
/-- The last cut up to `t`. -/
theorem exists_last_cut (h : 0 < Nat.count cut (t + 1)) :
    ∃ k ≤ t, cut k ∧ Nat.count cut (t + 1) = Nat.count cut k + 1 := by
  induction t with
  | zero =>
    refine ⟨0, le_rfl, ?_, ?_⟩
    · by_contra h0
      simp [Nat.count_succ, h0] at h
    · have h0 : cut 0 := by
        by_contra h0
        simp [Nat.count_succ, h0] at h
      simp [Nat.count_succ, h0]
  | succ t ih =>
    by_cases ht : cut (t + 1)
    · exact ⟨t + 1, le_rfl, ht, by rw [Nat.count_succ _ (t + 1), if_pos ht]⟩
    · rw [Nat.count_succ _ (t + 1), if_neg ht, Nat.add_zero] at h ⊢
      obtain ⟨k, hk, hcut, hcount⟩ := ih h
      exact ⟨k, by omega, hcut, hcount⟩

variable (hcut : ∀ k, cut k ↔ ∃ i < k, hit i k ∧ ∀ m, i < m → m < k → ¬cut m)

include hcut

open Classical in
/-- Cutting as soon as a pair hits makes as many cuts as there can be pairs. -/
theorem chain_iff_le_count : Chain hit n t ↔ n ≤ Nat.count cut (t + 1) := by
  induction n generalizing t with
  | zero => exact iff_of_true trivial (Nat.zero_le _)
  | succ n ih =>
    constructor
    · rintro ⟨k, hkt, i, hik, hhit, hchain⟩
      -- there is a cut behind `i`, at `k` at the latest
      obtain ⟨m, him, hmk, hm⟩ : ∃ m, i < m ∧ m ≤ k ∧ cut m := by
        by_contra hno
        push Not at hno
        exact hno k hik le_rfl ((hcut k).2 ⟨i, hik, hhit, fun m him hmk => hno m him hmk.le⟩)
      calc n + 1 ≤ Nat.count cut (i + 1) + 1 := Nat.add_le_add_right (ih.1 hchain) 1
        _ ≤ Nat.count cut m + 1 := Nat.add_le_add_right (Nat.count_monotone cut him) 1
        _ = Nat.count cut (m + 1) := by rw [Nat.count_succ, if_pos hm]
        _ ≤ Nat.count cut (t + 1) := Nat.count_monotone cut (by omega)
    · intro hle
      obtain ⟨k, hkt, hk, hcount⟩ := exists_last_cut (by omega : 0 < Nat.count cut (t + 1))
      obtain ⟨i, hik, hhit, hno⟩ := (hcut k).1 hk
      refine ⟨k, hkt, i, hik, hhit, ih.2 ?_⟩
      have hsame : Nat.count cut k = Nat.count cut (i + 1) := count_eq_of_not hno hik
      omega

/-- **There is a cut behind `i`** exactly when more pairs fit. -/
theorem exists_cut_iff : (∃ m, i < m ∧ m ≤ t ∧ cut m) ↔ ∃ n, Chain hit n t ∧ ¬Chain hit n i := by
  classical
  simp only [chain_iff_le_count hcut]
  constructor
  · rintro ⟨m, him, hmt, hm⟩
    refine ⟨Nat.count cut (i + 1) + 1, ?_, by omega⟩
    calc Nat.count cut (i + 1) + 1 ≤ Nat.count cut m + 1 := Nat.add_le_add_right (Nat.count_monotone cut him) 1
      _ = Nat.count cut (m + 1) := by rw [Nat.count_succ, if_pos hm]
      _ ≤ Nat.count cut (t + 1) := Nat.count_monotone cut (by omega)
  · rintro ⟨n, hn, hni⟩
    by_contra hno
    push Not at hno
    rcases Nat.le_total t i with hti | hit
    · have := Nat.count_monotone cut (by omega : t + 1 ≤ i + 1)
      omega
    · have hsame : Nat.count cut (t + 1) = Nat.count cut (i + 1) :=
        count_eq_of_not (fun m him hmt => hno m him (Nat.le_of_lt_succ hmt)) (Nat.succ_le_succ hit)
      omega

end Cuts

section Batches

variable {ι : Type*} [DecidableEq ι]

/-- The list of each class before item `k`. Whether a list is moved when item `k` comes may depend
on all of them. -/
def held (cls : ℕ → Option ι) (moves : ℕ → (ι → List ℕ) → ι → Bool) : ℕ → ι → List ℕ
  | 0, _ => []
  | k + 1, c =>
    (if moves k (held cls moves k) c then [] else held cls moves k c) ++ if cls k = some c then [k] else []

variable (cls : ℕ → Option ι) (moves : ℕ → (ι → List ℕ) → ι → Bool) (cs : List ι) (n : ℕ)

/-- The list of the class is moved when item `k` comes, or because there are no more items. -/
def moved (k : ℕ) (c : ι) : Bool := k = n || moves k (held cls moves k) c

variable (out : ℕ → ι → List ℕ)

/-- What comes out when item `k` comes. -/
def batch (k : ℕ) : List ℕ := cs.flatMap fun c => if moved cls moves n k c then out k c else []

/-- What comes out. -/
def order : List ℕ := (List.range (n + 1)).flatMap (batch cls moves cs n out)

/-- The time at which an item comes out: the first move of its list after it came. -/
def Leaves (x k : ℕ) : Prop :=
  ∃ c, cls x = some c ∧ x < k ∧ k ≤ n ∧ moved cls moves n k c = true ∧ ∀ m, x < m → m < k → moved cls moves n m c = false

variable {cls moves cs n} {x y k k' : ℕ} {c c' : ι}

theorem moved_of_lt (hk : k < n) : moved cls moves n k c = moves k (held cls moves k) c := by
  simp [moved, hk.ne]

/-- **An item is in its list until that is moved.** -/
theorem mem_held (hk : k ≤ n) :
    x ∈ held cls moves k c ↔ cls x = some c ∧ x < k ∧ ∀ m, x < m → m < k → moved cls moves n m c = false := by
  induction k with
  | zero => simp [held]
  | succ k ih =>
    have hmoved : moved cls moves n k c = moves k (held cls moves k) c := moved_of_lt (Nat.lt_of_succ_le hk)
    rw [held, List.mem_append, ← hmoved]
    constructor
    · rintro (hx | hx)
      · by_cases hm : moved cls moves n k c = true
        · simp [hm] at hx
        · rw [if_neg hm, ih (by omega)] at hx
          obtain ⟨hcls, hlt, hno⟩ := hx
          refine ⟨hcls, by omega, fun m hxm hmk => ?_⟩
          rcases Nat.lt_or_eq_of_le (Nat.le_of_lt_succ hmk) with hmk | rfl
          · exact hno m hxm hmk
          · exact Bool.eq_false_iff.2 hm
      · by_cases hcls : cls k = some c
        · rw [if_pos hcls, List.mem_singleton] at hx
          subst hx
          exact ⟨hcls, by omega, fun m hxm hmk => by omega⟩
        · simp [hcls] at hx
    · rintro ⟨hcls, hlt, hno⟩
      by_cases hxk : x = k
      · subst hxk
        right
        simp [hcls]
      · left
        rw [hno k (by omega) (by omega), if_neg Bool.false_ne_true, ih (by omega)]
        exact ⟨hcls, by omega, fun m hxm hmk => hno m hxm (by omega)⟩

theorem pairwise_held (k : ℕ) (c : ι) : (held cls moves k c).Pairwise (· < ·) ∧ ∀ x ∈ held cls moves k c, x < k := by
  induction k with
  | zero => exact ⟨List.Pairwise.nil, fun x hx => by cases hx⟩
  | succ k ih =>
    have hold : (if moves k (held cls moves k) c then [] else held cls moves k c).Pairwise (· < ·) ∧
        ∀ x ∈ (if moves k (held cls moves k) c then [] else held cls moves k c), x < k := by
      split
      · exact ⟨List.Pairwise.nil, fun x hx => by cases hx⟩
      · exact ih
    rw [held]
    by_cases hcls : cls k = some c
    · -- item `k` goes to the end
      rw [if_pos hcls]
      refine ⟨List.pairwise_append.2 ⟨hold.1, List.pairwise_singleton _ _, fun x hx y hy => ?_⟩, fun x hx => ?_⟩
      · rw [List.mem_singleton.1 hy]
        exact hold.2 x hx
      · rcases List.mem_append.1 hx with hx | hx
        · exact Nat.lt_succ_of_lt (hold.2 x hx)
        · rw [List.mem_singleton.1 hx]
          exact Nat.lt_succ_self k
    · rw [if_neg hcls, List.append_nil]
      exact ⟨hold.1, fun x hx => Nat.lt_succ_of_lt (hold.2 x hx)⟩

theorem Leaves.unique (h : Leaves cls moves n x k) (h' : Leaves cls moves n x k') : k = k' := by
  obtain ⟨c, hc, hxk, -, hm, hno⟩ := h
  obtain ⟨c', hc', hxk', -, hm', hno'⟩ := h'
  obtain rfl := Option.some.inj (hc.symm.trans hc')
  rcases Nat.lt_trichotomy k k' with hlt | heq | hlt
  · rw [hno' k hxk hlt] at hm
    cases hm
  · exact heq
  · rw [hno k' hxk' hlt] at hm'
    cases hm'

/-- At the end at the latest. -/
theorem exists_leaves (hx : x < n) (hc : cls x = some c) : ∃ k, Leaves cls moves n x k := by
  have hex : ∃ k, x < k ∧ moved cls moves n k c = true := ⟨n, hx, by simp [moved]⟩
  refine ⟨Nat.find hex, c, hc, (Nat.find_spec hex).1, Nat.find_min' hex ⟨hx, by simp [moved]⟩,
    (Nat.find_spec hex).2, fun m hxm hmk => ?_⟩
  have hmin := Nat.find_min hex hmk
  simpa [hxm] using hmin

/-- Before item `k`, what is left of each list is the list, in some order. -/
def Arranges (cls : ℕ → Option ι) (moves : ℕ → (ι → List ℕ) → ι → Bool) (n : ℕ) (out : ℕ → ι → List ℕ) : Prop :=
  ∀ k ≤ n, ∀ c, (out k c).Perm (held cls moves k c)

variable {out : ℕ → ι → List ℕ}

theorem Arranges.mem_iff (hout : Arranges cls moves n out) (hk : k ≤ n) :
    x ∈ out k c ↔ cls x = some c ∧ x < k ∧ ∀ m, x < m → m < k → moved cls moves n m c = false :=
  (hout k hk c).mem_iff.trans (mem_held hk)

theorem Arranges.nodup (hout : Arranges cls moves n out) (hk : k ≤ n) : (out k c).Nodup :=
  (hout k hk c).nodup_iff.2 ((pairwise_held k c).1.imp fun h => h.ne)

theorem mem_batch (hout : Arranges cls moves n out) (hk : k ≤ n) :
    x ∈ batch cls moves cs n out k ↔ Leaves cls moves n x k ∧ ∃ c ∈ cs, cls x = some c := by
  rw [batch, List.mem_flatMap]
  constructor
  · rintro ⟨c, hc, hx⟩
    by_cases hm : moved cls moves n k c = true
    · rw [if_pos hm, hout.mem_iff hk] at hx
      exact ⟨⟨c, hx.1, hx.2.1, hk, hm, hx.2.2⟩, c, hc, hx.1⟩
    · simp [hm] at hx
  · rintro ⟨⟨c, hc, hxk, -, hm, hno⟩, c', hc', hx⟩
    obtain rfl := Option.some.inj (hc.symm.trans hx)
    refine ⟨c, hc', ?_⟩
    rw [if_pos hm, hout.mem_iff hk]
    exact ⟨hc, hxk, hno⟩

/-- **Every item with a class comes out.** -/
theorem mem_order (hout : Arranges cls moves n out) :
    x ∈ order cls moves cs n out ↔ x < n ∧ ∃ c ∈ cs, cls x = some c := by
  rw [order, List.mem_flatMap]
  constructor
  · rintro ⟨k, hk, hx⟩
    have hk := Nat.le_of_lt_succ (List.mem_range.1 hk)
    obtain ⟨⟨c, -, hxk, -⟩, hcls⟩ := (mem_batch hout hk).1 hx
    exact ⟨by omega, hcls⟩
  · rintro ⟨hx, c, hc, hcls⟩
    obtain ⟨k, hleaves⟩ : ∃ k, Leaves cls moves n x k := exists_leaves hx hcls
    have hk : k ≤ n := by
      obtain ⟨-, -, -, hk, -⟩ := hleaves
      exact hk
    exact ⟨k, List.mem_range.2 (Nat.lt_succ_of_le hk), (mem_batch hout hk).2 ⟨hleaves, c, hc, hcls⟩⟩

section Ranked

variable {rank : ι → ℕ}

/-- Which of two items comes out first: by time, then by class, then as they are arranged. -/
def Before (cls : ℕ → Option ι) (moves : ℕ → (ι → List ℕ) → ι → Bool) (n : ℕ) (out : ℕ → ι → List ℕ) (rank : ι → ℕ)
    (x y : ℕ) : Prop :=
  ∃ k k' c c', Leaves cls moves n x k ∧ Leaves cls moves n y k' ∧ cls x = some c ∧ cls y = some c' ∧
    (k < k' ∨ k = k' ∧ (rank c < rank c' ∨ c = c' ∧ List.Sublist [x, y] (out k c)))

theorem pairwise_batch (hout : Arranges cls moves n out) (hrank : cs.Pairwise fun c c' => rank c < rank c') (hk : k ≤ n) :
    (batch cls moves cs n out k).Pairwise (Before cls moves n out rank) := by
  have hmem : ∀ c x, x ∈ (if moved cls moves n k c then out k c else []) →
      Leaves cls moves n x k ∧ cls x = some c := by
    intro c x hx
    by_cases hm : moved cls moves n k c = true
    · rw [if_pos hm, hout.mem_iff hk] at hx
      exact ⟨⟨c, hx.1, hx.2.1, hk, hm, hx.2.2⟩, hx.1⟩
    · simp [hm] at hx
  rw [batch, List.pairwise_flatMap]
  constructor
  · intro c _
    refine List.pairwise_iff_forall_sublist.2 fun {x y} hxy => ?_
    obtain ⟨hx, hxc⟩ := hmem c x (hxy.subset (by simp))
    obtain ⟨hy, hyc⟩ := hmem c y (hxy.subset (by simp))
    refine ⟨k, k, c, c, hx, hy, hxc, hyc, .inr ⟨rfl, .inr ⟨rfl, ?_⟩⟩⟩
    split at hxy
    · exact hxy
    · cases hxy
  · refine hrank.imp fun {c c'} hcc x hx y hy => ?_
    obtain ⟨hx, hxc⟩ := hmem c x hx
    obtain ⟨hy, hyc⟩ := hmem c' y hy
    exact ⟨k, k, c, c', hx, hy, hxc, hyc, .inr ⟨rfl, .inl hcc⟩⟩

theorem pairwise_order (hout : Arranges cls moves n out) (hrank : cs.Pairwise fun c c' => rank c < rank c') :
    (order cls moves cs n out).Pairwise (Before cls moves n out rank) := by
  rw [order, List.pairwise_flatMap]
  constructor
  · intro k hk
    exact pairwise_batch hout hrank (Nat.le_of_lt_succ (List.mem_range.1 hk))
  · refine List.pairwise_lt_range.imp_of_mem fun {k k'} hk hk' hkk x hx y hy => ?_
    have hk := Nat.le_of_lt_succ (List.mem_range.1 hk)
    have hk' := Nat.le_of_lt_succ (List.mem_range.1 hk')
    obtain ⟨hx, c, -, hxc⟩ := (mem_batch hout hk).1 hx
    obtain ⟨hy, c', -, hyc⟩ := (mem_batch hout hk').1 hy
    exact ⟨k, k', c, c', hx, hy, hxc, hyc, .inl hkk⟩

theorem Before.asymm (hout : Arranges cls moves n out) (h : Before cls moves n out rank x y) :
    ¬Before cls moves n out rank y x := by
  rintro ⟨l, l', d, d', hl, hl', hd, hd', hlt'⟩
  obtain ⟨k, k', c, c', hk, hk', hc, hc', hlt⟩ := h
  obtain rfl := hk.unique hl'
  obtain rfl := hk'.unique hl
  obtain rfl := Option.some.inj (hc.symm.trans hd')
  obtain rfl := Option.some.inj (hc'.symm.trans hd)
  rcases hlt with hlt | ⟨rfl, hlt⟩
  · rcases hlt' with hlt' | ⟨rfl, -⟩ <;> omega
  · obtain ⟨-, hlt'⟩ := hlt'.resolve_left (by omega)
    rcases hlt with hlt | ⟨rfl, hlt⟩
    · rcases hlt' with hlt' | ⟨rfl, -⟩ <;> omega
    · obtain ⟨-, hlt'⟩ := hlt'.resolve_left (by omega)
      obtain ⟨-, -, -, hkn, -⟩ := hk
      exact not_pair_sublist (hout.nodup hkn) hlt hlt'

/-- **Every item comes out once.** -/
theorem nodup_order (hout : Arranges cls moves n out) (hrank : cs.Pairwise fun c c' => rank c < rank c') :
    (order cls moves cs n out).Nodup := by
  have hpair : (order cls moves cs n out).Pairwise (Before cls moves n out rank) := pairwise_order hout hrank
  refine hpair.imp fun {x y} hxy => ?_
  rintro rfl
  exact hxy.asymm hout hxy

/-- **Which of two items comes out first**: by the time at which their lists are moved, by the order of
their classes, and as they are arranged. -/
theorem pair_sublist_order_iff (hout : Arranges cls moves n out) (hrank : cs.Pairwise fun c c' => rank c < rank c')
    (hne : x ≠ y) (hx : x < n) (hy : y < n) (hc : c ∈ cs) (hc' : c' ∈ cs) (hxc : cls x = some c) (hyc : cls y = some c')
    (hk : Leaves cls moves n x k) (hk' : Leaves cls moves n y k') :
    List.Sublist [x, y] (order cls moves cs n out) ↔
      k < k' ∨ k = k' ∧ (rank c < rank c' ∨ c = c' ∧ List.Sublist [x, y] (out k c)) := by
  have hpair : (order cls moves cs n out).Pairwise (Before cls moves n out rank) := pairwise_order hout hrank
  constructor
  · intro hsub
    obtain ⟨l, l', d, d', hl, hl', hd, hd', hlt⟩ := List.pairwise_pair.1 (hpair.sublist hsub)
    obtain rfl := hk.unique hl
    obtain rfl := hk'.unique hl'
    obtain rfl := Option.some.inj (hxc.symm.trans hd)
    obtain rfl := Option.some.inj (hyc.symm.trans hd')
    exact hlt
  · intro hlt
    have hmx : x ∈ order cls moves cs n out := (mem_order hout).2 ⟨hx, c, hc, hxc⟩
    have hmy : y ∈ order cls moves cs n out := (mem_order hout).2 ⟨hy, c', hc', hyc⟩
    refine (pair_sublist_or hmx hmy hne).resolve_right fun hsub => ?_
    -- the other order is not the one of the output
    have hbefore : Before cls moves n out rank x y := ⟨k, k', c, c', hk, hk', hxc, hyc, hlt⟩
    exact (hbefore.asymm hout) (List.pairwise_pair.1 (hpair.sublist hsub))

end Ranked

end Batches

end Esesc.Lib
