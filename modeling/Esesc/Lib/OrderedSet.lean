import Mathlib.Data.Finset.Max
import Mathlib.Data.List.Perm.Subperm
import Mathlib.Data.List.Induction
import Mathlib.Data.List.Pairwise

/-!
# Ordered sets of a bounded size

An ordered set as the list that its iterators go over. The order is that of a key: an element is not inserted when
there is one of the same key. A set from which the least element goes whenever it has more than `n` keeps the greatest
elements, one of each key.

* `insert_cases`: what an insertion does.
* `Top.concat`, `top_keepTop`: which keys are kept.
* `Top.exact_iff`: when what is kept are `n` greatest elements of all that were inserted.
-/

namespace Esesc.Lib.OrderedSet

variable {α κ : Type*} [LinearOrder κ] (key : α → κ) {x y z : α} {n : ℕ} {l s : List α}

/-- In front of the first element with a greater key, unless there is one of the same key. -/
def insert (x : α) : List α → List α
  | [] => [x]
  | y :: ys => if key x < key y then x :: y :: ys else if key y < key x then y :: insert x ys else y :: ys

/-- The first element goes while there are more than `n`. -/
def trim (n : ℕ) : List α → List α
  | [] => []
  | x :: xs => if n < (x :: xs).length then trim n xs else x :: xs

/-- All elements of a list are inserted, and no more than `n` are kept. -/
def keepTop (n : ℕ) (l : List α) : List α := l.foldl (fun s x => trim n (insert key x s)) []

/-- Greater and greater keys. -/
abbrev Ascending (s : List α) : Prop := s.Pairwise fun a b => key a < key b

variable {key}

/-! ## Insertion -/

theorem mem_of_mem_insert (h : z ∈ insert key x s) : z = x ∨ z ∈ s := by
  induction s with
  | nil => exact .inl (List.mem_singleton.1 h)
  | cons y ys ih =>
    rw [insert] at h
    split at h
    · exact List.mem_cons.1 h
    · split at h
      · rcases List.mem_cons.1 h with rfl | h
        · exact .inr List.mem_cons_self
        · exact (ih h).imp_right (List.mem_cons_of_mem y)
      · exact .inr h

/-- **An insertion.** There is an element of the same key, or a new element in its place. -/
theorem insert_cases (hs : Ascending key s) (x : α) :
    (insert key x s = s ∧ ∃ y ∈ s, key y = key x) ∨
      ((insert key x s).Perm (x :: s) ∧ Ascending key (insert key x s)) := by
  induction s with
  | nil => exact .inr ⟨.refl _, List.pairwise_singleton _ x⟩
  | cons y ys ih =>
    obtain ⟨hy, hys⟩ := List.pairwise_cons.1 hs
    rw [insert]
    rcases lt_trichotomy (key x) (key y) with hlt | heq | hgt
    · rw [if_pos hlt]
      refine .inr ⟨.refl _, List.pairwise_cons.2 ⟨fun z hz => ?_, hs⟩⟩
      rcases List.mem_cons.1 hz with rfl | hz
      · exact hlt
      · exact hlt.trans (hy z hz)
    · rw [if_neg (not_lt.2 heq.ge), if_neg (not_lt.2 heq.le)]
      exact .inl ⟨rfl, y, List.mem_cons_self, heq.symm⟩
    · rw [if_neg hgt.not_gt, if_pos hgt]
      rcases ih hys with ⟨hsame, z, hz, hkey⟩ | ⟨hperm, hasc⟩
      · exact .inl ⟨by rw [hsame], z, List.mem_cons_of_mem y hz, hkey⟩
      · refine .inr ⟨(hperm.cons y).trans (.swap x y ys), List.pairwise_cons.2 ⟨fun z hz => ?_, hasc⟩⟩
        rcases mem_of_mem_insert hz with rfl | hz
        · exact hgt
        · exact hy z hz

theorem trim_of_le (h : s.length ≤ n) : trim n s = s := by
  cases s with
  | nil => rfl
  | cons x xs => exact if_neg (not_lt.2 h)

theorem trim_cons (h : s.length = n) : trim n (x :: s) = s := by
  rw [trim, if_pos (by rw [List.length_cons]; omega), trim_of_le h.le]

/-! ## What is kept -/

/-- **The top of a list.** Elements of different keys, no more than `n`; an element that is left out has the key of one
of them, or there are `n` of greater keys. -/
structure Top (key : α → κ) (n : ℕ) (l s : List α) : Prop where
  asc : Ascending key s
  mem : ∀ x ∈ s, x ∈ l
  length_le : s.length ≤ n
  left : ∀ x ∈ l, (∃ y ∈ s, key y = key x) ∨ (s.length = n ∧ ∀ y ∈ s, key x < key y)

theorem top_nil : Top key n [] [] := ⟨.nil, by simp, Nat.zero_le n, by simp⟩

/-- A new element comes in, and the least one goes. -/
theorem Top.displace {a : α} {t : List α} (h : Top key n l s) (hfull : s.length = n) (hperm : (a :: t).Perm (x :: s))
    (hasc : Ascending key (a :: t)) : Top key n (l ++ [x]) t := by
  obtain ⟨ha, ht⟩ := List.pairwise_cons.1 hasc
  have hmem : ∀ y, y ∈ a :: t ↔ y = x ∨ y ∈ s := fun y => hperm.mem_iff.trans List.mem_cons
  have hlen : t.length = n := (Nat.succ.inj hperm.length_eq).trans hfull
  have hin : ∀ y ∈ a :: t, ∀ z, key y = key z → (∃ w ∈ t, key w = key z) ∨ (t.length = n ∧ ∀ w ∈ t, key z < key w) := by
    intro y hy z hkey
    rcases List.mem_cons.1 hy with rfl | hy
    · exact .inr ⟨hlen, fun w hw => hkey ▸ ha w hw⟩
    · exact .inl ⟨y, hy, hkey⟩
  refine ⟨ht, fun y hy => ?_, hlen.le, fun y hy => ?_⟩
  · rcases (hmem y).1 (List.mem_cons_of_mem a hy) with rfl | hy
    · exact List.mem_append_right _ (List.mem_singleton_self y)
    · exact List.mem_append_left _ (h.mem y hy)
  · rcases List.mem_append.1 hy with hy | hy
    · rcases h.left y hy with ⟨z, hz, hkey⟩ | ⟨-, hless⟩
      · exact hin z ((hmem z).2 (.inr hz)) y hkey
      · refine .inr ⟨hlen, fun z hz => ?_⟩
        rcases (hmem a).1 List.mem_cons_self with rfl | has
        · -- the new element is the one that goes
          rcases (hmem z).1 (List.mem_cons_of_mem a hz) with rfl | hzs
          · exact absurd (ha z hz) (lt_irrefl _)
          · exact hless z hzs
        · exact (hless a has).trans (ha z hz)
    · obtain rfl := List.mem_singleton.1 hy
      exact hin y ((hmem y).2 (.inl rfl)) y rfl

/-- **One more element.** -/
theorem Top.concat (h : Top key n l s) (x : α) : Top key n (l ++ [x]) (trim n (insert key x s)) := by
  rcases insert_cases h.asc x with ⟨hsame, hkey⟩ | ⟨hperm, hasc⟩
  · rw [hsame, trim_of_le h.length_le]
    refine ⟨h.asc, fun y hy => List.mem_append_left _ (h.mem y hy), h.length_le, fun y hy => ?_⟩
    rcases List.mem_append.1 hy with hy | hy
    · exact h.left y hy
    · obtain rfl := List.mem_singleton.1 hy
      exact .inl hkey
  · have hlen : (insert key x s).length = s.length + 1 := hperm.length_eq
    have hmem : ∀ y, y ∈ insert key x s ↔ y = x ∨ y ∈ s := fun y => hperm.mem_iff.trans List.mem_cons
    rcases Nat.lt_or_ge s.length n with hlt | hge
    · rw [trim_of_le (by omega)]
      refine ⟨hasc, fun y hy => ?_, by omega, fun y hy => .inl ?_⟩
      · rcases (hmem y).1 hy with rfl | hy
        · exact List.mem_append_right _ (List.mem_singleton_self y)
        · exact List.mem_append_left _ (h.mem y hy)
      · rcases List.mem_append.1 hy with hy | hy
        · rcases h.left y hy with ⟨z, hz, hkey⟩ | ⟨hfull, -⟩
          · exact ⟨z, (hmem z).2 (.inr hz), hkey⟩
          · omega
        · obtain rfl := List.mem_singleton.1 hy
          exact ⟨y, (hmem y).2 (.inl rfl), rfl⟩
    · -- the set had `n` elements already, and its first one is erased
      have hfull : s.length = n := le_antisymm h.length_le hge
      cases hset : insert key x s with
      | nil =>
        rw [hset] at hlen
        cases hlen
      | cons a t =>
        rw [hset] at hlen hperm hasc
        rw [trim_cons ((Nat.succ.inj hlen).trans hfull)]
        exact h.displace hfull hperm hasc

theorem top_keepTop (n : ℕ) (l : List α) : Top key n l (keepTop key n l) := by
  induction l using List.reverseRecOn with
  | nil => exact top_nil
  | append_singleton l x ih =>
    rw [keepTop, List.foldl_concat]
    exact ih.concat x

/-! ## When the greatest are kept -/

theorem Ascending.nodup (hs : Ascending key s) : s.Nodup := by
  refine List.Pairwise.imp ?_ hs
  rintro a b hab rfl
  exact lt_irrefl _ hab

theorem Ascending.eq_of_key (hs : Ascending key s) (hx : x ∈ s) (hy : y ∈ s) (h : key x = key y) : x = y := by
  have hsymm : Std.Symm fun a b => key a ≠ key b := ⟨fun _ _ hab => hab.symm⟩
  have hkeys : s.Pairwise fun a b => key a ≠ key b := hs.imp fun hab => hab.ne
  by_contra hne
  exact hkeys.forall hx hy hne h

/-- Elements of keys from that of `x` on: one of this key at most, and others of greater keys. -/
theorem length_le_of_ge (hs : Ascending key s) (hmem : ∀ y ∈ s, y ∈ l) (hge : ∀ y ∈ s, key x ≤ key y) :
    s.length ≤ (l.filter fun y => key x < key y).length + 1 := by
  cases s with
  | nil => exact Nat.zero_le _
  | cons a t =>
    obtain ⟨ha, ht⟩ := List.pairwise_cons.1 hs
    have hsub : t ⊆ l.filter fun y => key x < key y := by
      intro y hy
      have hlt : key x < key y := (hge a List.mem_cons_self).trans_lt (ha y hy)
      exact List.mem_filter.2 ⟨hmem y (List.mem_cons_of_mem a hy), decide_eq_true hlt⟩
    exact Nat.succ_le_succ ((Ascending.nodup ht).subperm hsub).length_le

/-- An element that is kept with all that are greater, `n` of them or more, is the least one. -/
theorem Top.full_of_le (h : Top key n l s) (hl : l.Nodup) (hy : y ∈ s) (hmem : ∀ z ∈ l, key y < key z → z ∈ s)
    (hn : n ≤ (l.filter fun z => key y < key z).length + 1) : s.length = n ∧ ∀ z ∈ s, key y ≤ key z := by
  have hnodup : (y :: l.filter fun z => key y < key z).Nodup := by
    refine List.nodup_cons.2 ⟨fun hmem => ?_, hl.filter _⟩
    exact lt_irrefl _ (of_decide_eq_true (List.mem_filter.1 hmem).2)
  have hsub : (y :: l.filter fun z => key y < key z) ⊆ s := by
    intro z hz
    rcases List.mem_cons.1 hz with rfl | hz
    · exact hy
    · obtain ⟨hz, hlt⟩ := List.mem_filter.1 hz
      exact hmem z hz (of_decide_eq_true hlt)
  have hsubperm := hnodup.subperm hsub
  have hle := hsubperm.length_le
  have hroom := h.length_le
  rw [List.length_cons] at hle
  refine ⟨by omega, fun z hz => ?_⟩
  have hperm := hsubperm.perm_of_length_le (by rw [List.length_cons]; omega)
  rcases List.mem_cons.1 (hperm.mem_iff.2 hz) with rfl | hz
  · exact le_refl _
  · exact (of_decide_eq_true (List.mem_filter.1 hz).2 : key y < key z).le

/-- **The greatest elements are kept** exactly when elements of one key have so many greater ones that at most one of
them is to be kept. -/
theorem Top.exact_iff (h : Top key n l s) (hl : l.Nodup) :
    (s.length = min n l.length ∧ ∀ x ∈ l, x ∉ s → ∀ y ∈ s, key x ≤ key y) ↔
      ∀ x ∈ l, ∀ y ∈ l, x ≠ y → key x = key y → n ≤ (l.filter fun z => key x < key z).length + 1 := by
  have hsub : s.Subperm l := h.asc.nodup.subperm h.mem
  constructor
  · rintro ⟨hlen, hleft⟩
    -- one of two elements of a key is left out, so no smaller ones are kept
    have hone : ∀ x ∈ l, x ∉ s → n ≤ (l.filter fun z => key x < key z).length + 1 := by
      intro x hx hout
      have hle := length_le_of_ge h.asc h.mem fun y hy => hleft x hx hout y hy
      by_contra hlt
      have hall : l.length ≤ s.length := by omega
      exact hout ((hsub.perm_of_length_le hall).mem_iff.2 hx)
    intro x hx y hy hne hkey
    by_cases hxs : x ∈ s
    · rw [hkey]
      exact hone y hy fun hys => hne (h.asc.eq_of_key hxs hys hkey)
    · exact hone x hx hxs
  · intro hcond
    classical
    by_cases hall : ∀ x ∈ l, x ∈ s
    · have hperm : s.Perm l := hsub.perm_of_length_le (hl.subperm hall).length_le
      have hlen := h.length_le
      refine ⟨?_, fun x hx hout => absurd (hall x hx) hout⟩
      rw [← hperm.length_eq]
      omega
    · -- a greatest element of those that are left out
      obtain ⟨p, hp, hmax⟩ := (l.toFinset.filter (· ∉ s)).exists_max_image key (by
        obtain ⟨x, hx⟩ := not_forall.1 hall
        obtain ⟨hx, hout⟩ := Classical.not_imp.1 hx
        exact ⟨x, Finset.mem_filter.2 ⟨List.mem_toFinset.2 hx, hout⟩⟩)
      obtain ⟨hpl, hpout⟩ := Finset.mem_filter.1 hp
      rw [List.mem_toFinset] at hpl
      have hbelow : ∀ x ∈ l, x ∉ s → key x ≤ key p := fun x hx hout =>
        hmax x (Finset.mem_filter.2 ⟨List.mem_toFinset.2 hx, hout⟩)
      obtain ⟨hfull, hge⟩ : s.length = n ∧ ∀ y ∈ s, key p ≤ key y := by
        rcases h.left p hpl with ⟨q, hq, hkey⟩ | ⟨hfull, hless⟩
        · have hqp : q ≠ p := fun heq => hpout (heq ▸ hq)
          have hn := hcond q (h.mem q hq) p hpl hqp hkey
          rw [← hkey]
          refine h.full_of_le hl hq (fun z hz hlt => ?_) hn
          by_contra hout
          exact absurd (hbelow z hz hout) (not_le.2 (hkey ▸ hlt))
        · exact ⟨hfull, fun y hy => (hless y hy).le⟩
      refine ⟨?_, fun x hx hout y hy => (hbelow x hx hout).trans (hge y hy)⟩
      have hlen := hsub.length_le
      omega

end Esesc.Lib.OrderedSet
