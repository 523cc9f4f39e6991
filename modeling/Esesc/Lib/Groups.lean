import Mathlib.Data.Finset.Max
import Mathlib.Data.List.Flatten
import Mathlib.Data.List.Nodup
import Mathlib.Logic.Relation
import Esesc.Lib.Batches

/-!
# Items that are put together as they come

Items come one at a time. An item that comes takes up every group with a member that it meets, and
stands behind them at the end of the new group; this group stands behind those that are not taken up.

* `grouped`: the groups are the classes of the items that meetings link, by their last items.
* `pair_sublist_groups_iff`: which of two items stands first.
* `spaced_groups`: groups taken up stand apart.
-/

namespace Esesc.Lib

section Groups

variable (item : ℕ → Prop) (meets : ℕ → ℕ → Prop)

/-- Item `k` meets a member of the group. -/
def Takes (k : ℕ) (g : List ℕ) : Prop := ∃ x ∈ g, meets x k

open Classical in
/-- The groups once item `k` has come. -/
noncomputable def takeUp (k : ℕ) (gs : List (List ℕ)) : List (List ℕ) :=
  gs.filter (fun g => ¬Takes meets k g) ++ [(gs.filter fun g => Takes meets k g).flatten ++ [k]]

open Classical in
/-- The groups of the items before `k`. -/
noncomputable def groups : ℕ → List (List ℕ)
  | 0 => []
  | k + 1 => if item k then takeUp meets k (groups k) else groups k

/-- Two items are joined by meetings of items before `t`. -/
def Joined (t : ℕ) : ℕ → ℕ → Prop := Relation.EqvGen fun x y => meets x y ∧ y < t

/-- Item `t` meets an item that is joined to `x`. -/
def Met (t x : ℕ) : Prop := ∃ z, Joined meets t x z ∧ meets z t

/-- Before `t`, the last item that is joined to `y` is behind those joined to `x`. -/
def Ahead (t x y : ℕ) : Prop := ∃ b, Joined meets t y b ∧ ∀ a, Joined meets t x a → a < b

/-- Before `n`, the group of `x` ends before that of `y`, a later item, when the two are put together, if
they are, or else at the end. -/
def Stays (n x y : ℕ) : Prop :=
  ∀ t, y < t → t ≤ n → ¬Joined meets t x y → (t = n ∨ Joined meets (t + 1) x y) → Ahead meets t x y

/-- Before `t`, item `x` is the last of those that are joined to it. -/
def IsLast (t x : ℕ) : Prop := item x ∧ x < t ∧ ∀ y, Joined meets t x y → y ≤ x

/-- Of the last items before `t` whose groups item `t` takes up, each is followed by one whose group it does not. -/
def Apart (t : ℕ) : Prop :=
  ∀ x, IsLast item meets t x → Met meets t x →
    ∃ u, x < u ∧ IsLast item meets t u ∧ ¬Met meets t u ∧ ∀ v, IsLast item meets t v → x < v → u ≤ v

/-- Meetings are of an item with an earlier one. -/
def Meetings : Prop := ∀ x y, meets x y → item x ∧ item y ∧ x < y

variable {item : ℕ → Prop} {meets : ℕ → ℕ → Prop} {gs : List (List ℕ)} {g : List ℕ} {k n t t' x y z : ℕ}

/-! ## Links -/

theorem Joined.refl (t x : ℕ) : Joined meets t x x := Relation.EqvGen.refl x

theorem Joined.symm (h : Joined meets t x y) : Joined meets t y x := Relation.EqvGen.symm _ _ h

theorem Joined.trans (h : Joined meets t x y) (h' : Joined meets t y z) : Joined meets t x z :=
  Relation.EqvGen.trans _ _ _ h h'

theorem Joined.mono (h : Joined meets t x y) (ht : t ≤ t') : Joined meets t' x y := by
  induction h with
  | rel x y h => exact .rel x y ⟨h.1, h.2.trans_le ht⟩
  | refl x => exact .refl t' x
  | symm x y _ ih => exact ih.symm
  | trans x y z _ _ ih ih' => exact ih.trans ih'

/-- Links are between items that have come. -/
theorem Joined.eq_or (hm : Meetings item meets) (h : Joined meets t x y) :
    x = y ∨ (item x ∧ x < t) ∧ item y ∧ y < t := by
  induction h with
  | rel x y h =>
    obtain ⟨hx, hy, hxy⟩ := hm x y h.1
    exact .inr ⟨⟨hx, hxy.trans h.2⟩, hy, h.2⟩
  | refl x => exact .inl rfl
  | symm x y _ ih => exact ih.imp Eq.symm And.symm
  | trans x y z _ _ ih ih' =>
    rcases ih with rfl | ⟨hx, hy⟩
    · exact ih'
    rcases ih' with rfl | ⟨-, hz⟩
    · exact .inr ⟨hx, hy⟩
    · exact .inr ⟨hx, hz⟩

/-- What item `t` links: itself, and what it meets. -/
theorem joined_succ (hm : Meetings item meets) :
    Joined meets (t + 1) x y ↔ Joined meets t x y ∨ (x = t ∨ Met meets t x) ∧ (y = t ∨ Met meets t y) := by
  have hone : ∀ {x y}, Joined meets t x y → (y = t ∨ Met meets t y) → x = t ∨ Met meets t x := by
    rintro x y hxy (rfl | ⟨z, hyz, hz⟩)
    · rcases hxy.eq_or hm with rfl | ⟨-, -, hlt⟩
      · exact .inl rfl
      · exact absurd hlt (lt_irrefl _)
    · exact .inr ⟨z, hxy.trans hyz, hz⟩
  constructor
  · intro h
    induction h with
    | rel x y h =>
      obtain ⟨hxy, hlt⟩ := h
      rcases Nat.lt_succ_iff_lt_or_eq.1 hlt with hlt | rfl
      · exact .inl (.rel x y ⟨hxy, hlt⟩)
      · exact .inr ⟨.inr ⟨x, .refl _ x, hxy⟩, .inl rfl⟩
    | refl x => exact .inl (.refl _ x)
    | symm x y _ ih => exact ih.imp Joined.symm And.symm
    | trans x y z _ _ ih ih' =>
      rcases ih with hxy | ⟨hx, hy⟩ <;> rcases ih' with hyz | ⟨hy', hz⟩
      · exact .inl (hxy.trans hyz)
      · exact .inr ⟨hone hxy hy', hz⟩
      · exact .inr ⟨hx, hone hyz.symm hy⟩
      · exact .inr ⟨hx, hz⟩
  · have hto : ∀ {x}, x = t ∨ Met meets t x → Joined meets (t + 1) x t := by
      rintro x (rfl | ⟨z, hxz, hz⟩)
      · exact .refl _ _
      · exact (hxz.mono (Nat.le_succ t)).trans (.rel z t ⟨hz, Nat.lt_succ_self t⟩)
    rintro (h | ⟨hx, hy⟩)
    · exact h.mono (Nat.le_succ t)
    · exact (hto hx).trans (hto hy).symm

theorem Met.congr (h : Joined meets t x y) : Met meets t x ↔ Met meets t y :=
  ⟨fun ⟨z, hz, hm⟩ => ⟨z, h.symm.trans hz, hm⟩, fun ⟨z, hz, hm⟩ => ⟨z, h.trans hz, hm⟩⟩

/-! ## Groups -/

/-- The groups before item `k` are the classes of joined items, in the order of their last items. -/
structure Grouped (item : ℕ → Prop) (meets : ℕ → ℕ → Prop) (k : ℕ) (gs : List (List ℕ)) : Prop where
  items : ∀ x, x ∈ gs.flatten ↔ item x ∧ x < k
  nodup : gs.flatten.Nodup
  joined : ∀ g ∈ gs, ∀ x ∈ g, ∀ y, y ∈ g ↔ Joined meets k x y
  last : gs.Pairwise fun g h => ∃ b ∈ h, ∀ a ∈ g, a < b
  ne_nil : ∀ g ∈ gs, g ≠ []

theorem Grouped.mem_lt (h : Grouped item meets k gs) (hg : g ∈ gs) (hx : x ∈ g) : item x ∧ x < k :=
  (h.items x).1 (List.mem_flatten.2 ⟨g, hg, hx⟩)

/-- A group is taken up when its members are met. -/
theorem Grouped.takes_iff (h : Grouped item meets k gs) (hg : g ∈ gs) (hx : x ∈ g) : Takes meets k g ↔ Met meets k x := by
  constructor
  · rintro ⟨z, hz, hm⟩
    exact ⟨z, (h.joined g hg x hx z).1 hz, hm⟩
  · rintro ⟨z, hz, hm⟩
    exact ⟨z, (h.joined g hg x hx z).2 hz, hm⟩

open Classical in
theorem flatten_takeUp_perm (gs : List (List ℕ)) (k : ℕ) : (takeUp meets k gs).flatten.Perm (gs.flatten ++ [k]) := by
  have hperm : (gs.filter (fun g => ¬Takes meets k g) ++ gs.filter fun g => Takes meets k g).Perm gs := by
    have := List.filter_append_perm (fun g => decide ¬Takes meets k g) gs
    simpa using this
  have hflat := hperm.flatten
  rw [List.flatten_append] at hflat
  rw [takeUp, List.flatten_append, List.flatten_singleton, ← List.append_assoc]
  exact hflat.append_right [k]

open Classical in
/-- The new group has what the item meets. -/
theorem Grouped.mem_taken (hm : Meetings item meets) (h : Grouped item meets k gs) :
    x ∈ (gs.filter fun g => Takes meets k g).flatten ++ [k] ↔ x = k ∨ Met meets k x := by
  rw [List.mem_append, List.mem_singleton, or_comm]
  refine or_congr_right ⟨fun hx => ?_, fun hx => ?_⟩
  · obtain ⟨g, hg, hx⟩ := List.mem_flatten.1 hx
    obtain ⟨hg, htake⟩ := List.mem_filter.1 hg
    exact (h.takes_iff hg hx).1 (of_decide_eq_true htake)
  · obtain ⟨w, hxw, hw⟩ := hx
    obtain ⟨hitem, -, hlt⟩ := hm w k hw
    obtain ⟨g, hg, hwg⟩ := List.mem_flatten.1 ((h.items w).2 ⟨hitem, hlt⟩)
    have hxg : x ∈ g := (h.joined g hg w hwg x).2 hxw.symm
    exact List.mem_flatten.2 ⟨g, List.mem_filter.2 ⟨hg, decide_eq_true ⟨w, hwg, hw⟩⟩, hxg⟩

/-- An item that comes. -/
theorem Grouped.takeUp (hm : Meetings item meets) (h : Grouped item meets k gs) (hk : item k) :
    Grouped item meets (k + 1) (takeUp meets k gs) := by
  classical
  have hperm : (Lib.takeUp meets k gs).flatten.Perm (gs.flatten ++ [k]) := flatten_takeUp_perm gs k
  have hnotin : k ∉ gs.flatten := fun hmem => absurd ((h.items k).1 hmem).2 (lt_irrefl k)
  refine ⟨fun x => ?_, ?_, ?_, ?_, ?_⟩
  · rw [hperm.mem_iff, List.mem_append, List.mem_singleton, h.items x, Nat.lt_succ_iff_lt_or_eq]
    constructor
    · rintro (⟨hx, hlt⟩ | rfl)
      · exact ⟨hx, .inl hlt⟩
      · exact ⟨hk, .inr rfl⟩
    · rintro ⟨hx, hlt | rfl⟩
      · exact .inl ⟨hx, hlt⟩
      · exact .inr rfl
  · rw [hperm.nodup_iff, List.nodup_append]
    refine ⟨h.nodup, List.nodup_singleton k, fun x hx y hy => ?_⟩
    rintro rfl
    rw [List.mem_singleton] at hy
    exact hnotin (hy ▸ hx)
  · intro g hg x hx y
    rw [joined_succ hm]
    rcases List.mem_append.1 hg with hg | hg
    · -- a group that is left alone
      obtain ⟨hold, hno⟩ := List.mem_filter.1 hg
      have hx' : ¬(x = k ∨ Met meets k x) := by
        rintro (hxk | hmet)
        · exact absurd (h.mem_lt hold hx).2 (hxk ▸ lt_irrefl _)
        · exact (of_decide_eq_true hno) ((h.takes_iff hold hx).2 hmet)
      rw [h.joined g hold x hx y]
      exact (or_iff_left fun hxy => hx' hxy.1).symm
    · -- the new group
      obtain rfl := List.mem_singleton.1 hg
      rw [h.mem_taken hm] at hx ⊢
      constructor
      · exact fun hy => .inr ⟨hx, hy⟩
      · rintro (hxy | ⟨-, hy⟩)
        · rcases hx with rfl | hx
          · rcases hxy.eq_or hm with rfl | ⟨⟨-, hlt⟩, -⟩
            · exact .inl rfl
            · exact absurd hlt (lt_irrefl _)
          · exact .inr ((Met.congr hxy).1 hx)
        · exact hy
  · refine List.pairwise_append.2 ⟨h.last.filter _, List.pairwise_singleton _ _, fun g hg g' hg' => ?_⟩
    obtain rfl := List.mem_singleton.1 hg'
    refine ⟨k, List.mem_append_right _ (List.mem_singleton_self k), fun a ha => ?_⟩
    exact (h.mem_lt (List.mem_filter.1 hg).1 ha).2
  · intro g hg
    rcases List.mem_append.1 hg with hg | hg
    · exact h.ne_nil g (List.mem_filter.1 hg).1
    · obtain rfl := List.mem_singleton.1 hg
      exact List.append_ne_nil_of_right_ne_nil _ (by simp)

theorem Joined.succ_of_not_item (hm : Meetings item meets) (hk : ¬item k) :
    Joined meets (k + 1) x y ↔ Joined meets k x y := by
  rw [joined_succ hm]
  have hnot : ∀ z, ¬Met meets k z := fun z ⟨w, _, hw⟩ => hk (hm w k hw).2.1
  constructor
  · rintro (h | ⟨rfl | hx, rfl | hy⟩)
    · exact h
    · exact .refl _ _
    · exact absurd hy (hnot y)
    · exact absurd hx (hnot x)
    · exact absurd hx (hnot x)
  · exact .inl

/-- **The groups** are the classes of joined items, in the order of their last items. -/
theorem grouped (hm : Meetings item meets) (k : ℕ) : Grouped item meets k (groups item meets k) := by
  induction k with
  | zero =>
    refine ⟨fun x => ?_, List.nodup_nil, fun g hg => ?_, List.Pairwise.nil, fun g hg => ?_⟩
    · simp [groups]
    · cases hg
    · cases hg
  | succ k ih =>
    rw [groups]
    by_cases hk : item k
    · rw [if_pos hk]
      exact ih.takeUp hm hk
    · rw [if_neg hk]
      refine ⟨fun x => ?_, ih.nodup, fun g hg x hx y => ?_, ih.last, ih.ne_nil⟩
      · rw [ih.items x, Nat.lt_succ_iff_lt_or_eq]
        refine and_congr_right fun hx => (or_iff_left ?_).symm
        rintro rfl
        exact hk hx
      · rw [ih.joined g hg x hx y, Joined.succ_of_not_item hm hk]

/-- Groups that no later item takes up stay where they are. -/
theorem takeUp_append {hs : List (List ℕ)} (h : ∀ g ∈ gs, ¬Takes meets k g) :
    takeUp meets k (gs ++ hs) = gs ++ takeUp meets k hs := by
  classical
  have hall : gs.filter (fun g => ¬Takes meets k g) = gs := List.filter_eq_self.2 fun g hg => decide_eq_true (h g hg)
  have hnone : gs.filter (fun g => Takes meets k g) = [] :=
    List.filter_eq_nil_iff.2 fun g hg => by simpa using h g hg
  simp only [takeUp, List.filter_append, hall, hnone, List.nil_append, List.append_assoc]

theorem exists_groups_append (hm : Meetings item meets) (hkn : k ≤ n) (h : ∀ m, k ≤ m → m < n → ∀ x < k, ¬meets x m) :
    ∃ gs, groups item meets n = groups item meets k ++ gs := by
  induction n, hkn using Nat.le_induction with
  | base => exact ⟨[], (List.append_nil _).symm⟩
  | succ n hkn ih =>
    obtain ⟨gs, hgs⟩ := ih fun m hkm hmn => h m hkm (Nat.lt_succ_of_lt hmn)
    rw [groups]
    split
    · rw [hgs, takeUp_append]
      · exact ⟨_, rfl⟩
      · rintro g hg ⟨x, hx, hmeet⟩
        exact h n hkn (Nat.lt_succ_self n) x ((grouped hm k).mem_lt hg hx).2 hmeet
    · exact ⟨gs, hgs⟩

/-! ## Which item stands first -/

/-- Of two items of different groups, the one whose group ends first. -/
theorem Grouped.pair_sublist_iff (h : Grouped item meets k gs) (hx : x ∈ gs.flatten) (hy : y ∈ gs.flatten)
    (hxy : ¬Joined meets k x y) : List.Sublist [x, y] gs.flatten ↔ Ahead meets k x y := by
  obtain ⟨g, hg, hxg⟩ := List.mem_flatten.1 hx
  obtain ⟨g', hg', hyg⟩ := List.mem_flatten.1 hy
  have hne : g ≠ g' := by
    rintro rfl
    exact hxy ((h.joined g hg x hxg y).1 hyg)
  have hpair : ∀ {a b f f'}, a ∈ f → b ∈ f' → List.Sublist [f, f'] gs → List.Sublist [a, b] gs.flatten := by
    intro a b f f' ha hb hsub
    have hflat : List.Sublist ([a] ++ [b]) (f ++ f') :=
      (List.singleton_sublist.2 ha).append (List.singleton_sublist.2 hb)
    exact hflat.trans (by simpa using hsub.flatten)
  rcases pair_sublist_or hg hg' hne with hsub | hsub
  · obtain ⟨b, hb, hlt⟩ := List.pairwise_pair.1 (h.last.sublist hsub)
    refine iff_of_true (hpair hxg hyg hsub) ⟨b, (h.joined g' hg' y hyg b).1 hb, fun a ha => ?_⟩
    exact hlt a ((h.joined g hg x hxg a).2 ha)
  · obtain ⟨b, hb, hlt⟩ := List.pairwise_pair.1 (h.last.sublist hsub)
    refine iff_of_false (not_pair_sublist h.nodup (hpair hyg hxg hsub)) ?_
    rintro ⟨b', hb', hlt'⟩
    have h1 : b < b' := hlt' b ((h.joined g hg x hxg b).1 hb)
    have h2 : b' < b := hlt b' ((h.joined g' hg' y hyg b').2 hb')
    omega

theorem stays_succ_of_joined (h : Joined meets (k + 1) x y) : Stays meets (k + 1) x y ↔ Stays meets k x y := by
  constructor
  · intro hst t hyt htk hno ht
    refine hst t hyt (by omega) hno (.inr ?_)
    rcases ht with rfl | ht
    · exact h
    · exact ht
  · intro hst t hyt htk hno ht
    have hne : t ≠ k + 1 := by
      rintro rfl
      exact hno h
    exact hst t hyt (by omega) hno (.inr (ht.resolve_left hne))

theorem stays_iff_of_not_joined (h : ¬Joined meets k x y) (hyk : y < k) : Stays meets k x y ↔ Ahead meets k x y := by
  constructor
  · exact fun hst => hst k hyk le_rfl h (.inl rfl)
  · intro hahead t hyt htk hno ht
    rcases Nat.lt_or_eq_of_le htk with hlt | rfl
    · exact absurd ((ht.resolve_left hlt.ne).mono hlt) h
    · exact hahead

/-- Items that are joined once `k` has come stood as they do before. -/
theorem pair_sublist_succ_iff (hm : Meetings item meets) (hx : item x) (hy : item y) (hxk : x < k) (hyk : y < k)
    (hxy : Joined meets (k + 1) x y) :
    List.Sublist [x, y] (groups item meets (k + 1)).flatten ↔ List.Sublist [x, y] (groups item meets k).flatten := by
  classical
  have h := grouped hm k
  rw [groups]
  by_cases hk : item k
  swap
  · rw [if_neg hk]
  rw [if_pos hk]
  have hnodup : (takeUp meets k (groups item meets k)).flatten.Nodup := (h.takeUp hm hk).nodup
  have hmet : Met meets k x ↔ Met meets k y := by
    rcases (joined_succ hm).1 hxy with hxy | ⟨hx, hy⟩
    · exact Met.congr hxy
    · exact iff_of_true (hx.resolve_left hxk.ne) (hy.resolve_left hyk.ne)
  obtain ⟨g, hg, hxg⟩ := List.mem_flatten.1 ((h.items x).2 ⟨hx, hxk⟩)
  obtain ⟨g', hg', hyg⟩ := List.mem_flatten.1 ((h.items y).2 ⟨hy, hyk⟩)
  -- both are among what is taken up, or among what is not
  obtain ⟨part, hpart, hpart', hxp, hyp⟩ : ∃ part, List.Sublist part (groups item meets k).flatten ∧
      List.Sublist part (takeUp meets k (groups item meets k)).flatten ∧ x ∈ part ∧ y ∈ part := by
    by_cases hmx : Met meets k x
    · refine ⟨((groups item meets k).filter fun g => Takes meets k g).flatten, (List.filter_sublist).flatten, ?_, ?_, ?_⟩
      · rw [takeUp, List.flatten_append, List.flatten_singleton]
        exact (List.sublist_append_left _ _).trans (List.sublist_append_right _ _)
      · exact List.mem_flatten.2 ⟨g, List.mem_filter.2 ⟨hg, decide_eq_true ((h.takes_iff hg hxg).2 hmx)⟩, hxg⟩
      · exact List.mem_flatten.2 ⟨g', List.mem_filter.2 ⟨hg', decide_eq_true ((h.takes_iff hg' hyg).2 (hmet.1 hmx))⟩, hyg⟩
    · refine ⟨((groups item meets k).filter fun g => ¬Takes meets k g).flatten, (List.filter_sublist).flatten, ?_, ?_, ?_⟩
      · rw [takeUp, List.flatten_append]
        exact List.sublist_append_left _ _
      · exact List.mem_flatten.2 ⟨g, List.mem_filter.2 ⟨hg, decide_eq_true fun ht => hmx ((h.takes_iff hg hxg).1 ht)⟩, hxg⟩
      · refine List.mem_flatten.2 ⟨g', List.mem_filter.2 ⟨hg', decide_eq_true fun ht => hmx ?_⟩, hyg⟩
        exact hmet.2 ((h.takes_iff hg' hyg).1 ht)
  rw [← pair_sublist_iff_of_sublist hnodup hpart' hxp hyp, pair_sublist_iff_of_sublist h.nodup hpart hxp hyp]

/-- An item that comes stands behind all others. -/
theorem pair_sublist_takeUp (hx : x ∈ gs.flatten) : List.Sublist [x, k] (takeUp meets k gs).flatten := by
  classical
  obtain ⟨g, hg, hxg⟩ := List.mem_flatten.1 hx
  have hflat : (takeUp meets k gs).flatten =
      ((gs.filter fun g => ¬Takes meets k g).flatten ++ (gs.filter fun g => Takes meets k g).flatten) ++ [k] := by
    rw [takeUp, List.flatten_append, List.flatten_singleton, List.append_assoc]
  rw [hflat]
  refine (List.singleton_sublist.2 ?_).append (List.Sublist.refl [k])
  by_cases ht : Takes meets k g
  · exact List.mem_append_right _ (List.mem_flatten.2 ⟨g, List.mem_filter.2 ⟨hg, decide_eq_true ht⟩, hxg⟩)
  · exact List.mem_append_left _ (List.mem_flatten.2 ⟨g, List.mem_filter.2 ⟨hg, decide_eq_true ht⟩, hxg⟩)

/-- **Which of two items stands first**: the earlier one, if its group ends first. -/
theorem pair_sublist_groups_iff (hm : Meetings item meets) (hx : item x) (hy : item y) (hxy : x < y) (hyk : y < k) :
    List.Sublist [x, y] (groups item meets k).flatten ↔ Stays meets k x y := by
  induction k with
  | zero => omega
  | succ k ih =>
    have h := grouped hm (k + 1)
    by_cases hlink : Joined meets (k + 1) x y
    · rw [stays_succ_of_joined hlink]
      rcases Nat.lt_succ_iff_lt_or_eq.1 hyk with hlt | rfl
      · rw [pair_sublist_succ_iff hm hx hy (by omega) hlt hlink, ih hlt]
      · -- the item that has just come
        refine iff_of_true ?_ fun t hyt htk => by omega
        rw [groups, if_pos hy]
        exact pair_sublist_takeUp (((grouped hm y).items x).2 ⟨hx, hxy⟩)
    · rw [stays_iff_of_not_joined hlink hyk]
      exact h.pair_sublist_iff ((h.items x).2 ⟨hx, by omega⟩) ((h.items y).2 ⟨hy, hyk⟩) hlink

/-! ## Groups that are taken up -/

/-- Each member that meets the condition has one behind it that does not. -/
def Spaced {α : Type*} (q : α → Prop) : List α → Prop
  | [] => True
  | a :: l => (q a → ∃ b l', l = b :: l' ∧ ¬q b) ∧ Spaced q l

theorem Spaced.of_append {α : Type*} {q : α → Prop} {l l' : List α} (h : Spaced q (l ++ l')) : Spaced q l' := by
  induction l with
  | nil => exact h
  | cons a l ih => exact ih h.2

theorem Grouped.exists_last (h : Grouped item meets k gs) (hg : g ∈ gs) : ∃ x ∈ g, IsLast item meets k x := by
  obtain ⟨y, hy⟩ := List.exists_mem_of_ne_nil g (h.ne_nil g hg)
  obtain ⟨x, hx, hmax⟩ := g.toFinset.exists_max_image id ⟨y, List.mem_toFinset.2 hy⟩
  have hx := List.mem_toFinset.1 hx
  obtain ⟨hitem, hlt⟩ := h.mem_lt hg hx
  refine ⟨x, hx, hitem, hlt, fun z hz => ?_⟩
  exact hmax z (List.mem_toFinset.2 ((h.joined g hg x hx z).2 hz))

/-- Groups stand in the order of their last items. -/
theorem Grouped.pairwise_last (h : Grouped item meets k gs) :
    gs.Pairwise fun g g' => ∀ x ∈ g, ∀ v ∈ g', IsLast item meets k v → x < v := by
  refine h.last.imp_of_mem fun {g g'} _ hg' ⟨b, hb, hlt⟩ x hx v hv hlast => ?_
  have hbv : b ≤ v := hlast.2.2 b ((h.joined g' hg' v hv b).1 hb)
  exact (hlt x hx).trans_le hbv

/-- **Groups taken up stand apart**, if their last items do. -/
theorem Grouped.spaced (h : Grouped item meets k gs) (hapart : Apart item meets k) : Spaced (Takes meets k) gs := by
  have hmain : ∀ post pre, gs = pre ++ post → Spaced (Takes meets k) post := by
    intro post
    induction post with
    | nil => exact fun _ _ => trivial
    | cons g rest ih =>
      intro pre hgs
      refine ⟨fun htake => ?_, ih (pre ++ [g]) (by rw [hgs, List.append_assoc, List.singleton_append])⟩
      have hg : g ∈ gs := by rw [hgs]; simp
      obtain ⟨x, hxg, hx⟩ := h.exists_last hg
      obtain ⟨u, hxu, hu, hnot, hmin⟩ := hapart x hx ((h.takes_iff hg hxg).1 htake)
      obtain ⟨f, hf, huf⟩ := List.mem_flatten.1 ((h.items u).2 ⟨hu.1, hu.2.1⟩)
      have hlast := h.pairwise_last
      rw [hgs, List.pairwise_append, List.pairwise_cons] at hlast
      obtain ⟨-, ⟨hbehind, hrest⟩, hbefore⟩ := hlast
      -- the group of `u` is behind that of `x`
      have hfrest : f ∈ rest := by
        rw [hgs] at hf
        rcases List.mem_append.1 hf with hpre | hpost
        · exact absurd (hbefore f hpre g List.mem_cons_self u huf x hxg hx) (lt_asymm hxu)
        · rcases List.mem_cons.1 hpost with rfl | hrest
          · exact absurd (hx.2.2 u ((h.joined f hg x hxg u).1 huf)) (not_le.2 hxu)
          · exact hrest
      cases rest with
      | nil => cases hfrest
      | cons g' rest =>
        refine ⟨g', rest, rfl, fun htake' => ?_⟩
        have hg' : g' ∈ gs := by rw [hgs]; simp
        obtain ⟨v, hvg, hv⟩ := h.exists_last hg'
        have huv : u ≤ v := hmin v hv (hbehind g' List.mem_cons_self x hxg v hvg hv)
        rcases List.mem_cons.1 hfrest with rfl | hfrest
        · exact hnot ((h.takes_iff hg' huf).1 htake')
        · -- it would end behind the next one
          have hvu : v < u := (List.pairwise_cons.1 hrest).1 f hfrest v hvg u huf hu
          omega
  exact hmain gs [] rfl

end Groups

end Esesc.Lib
