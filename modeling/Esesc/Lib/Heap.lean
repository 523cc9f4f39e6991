import Mathlib.Data.List.Induction
import Mathlib.Order.Lattice
import Mathlib.Order.Nat

/-!
# Binary heaps in a list

`pushHeap` and `popHeap` keep a list in heap order: the key at a position is at least the key
at its parent, so the first element has the least key. Which of several elements with the
least key comes first is not specified.

* `pushHeap_perm`, `popHeap_perm`: what the list holds.
* `isHeap_pushHeap`, `isHeap_popHeap`: the order is kept.
* `IsHeap.head_le`: the first element has the least key.
-/

namespace Esesc.Lib

variable {α β : Type*} [LinearOrder β] (key : α → β)

namespace Heap

def parent (i : ℕ) : ℕ := (i - 1) / 2

def swap (l : List α) (i j : ℕ) : List α :=
  match l[i]?, l[j]? with
  | some a, some b => (l.set i b).set j a
  | _, _ => l

/-- The element at `i` goes up while its key is below the one of its parent. -/
def siftUp : ℕ → List α → ℕ → List α
  | 0, l, _ => l
  | fuel + 1, l, i =>
    match l[parent i]?, l[i]? with
    | some p, some x => if key x < key p then siftUp fuel (swap l (parent i) i) (parent i) else l
    | _, _ => l

/-- The child with the smaller key, or the first if it is the only one. -/
def minChild (l : List α) (i : ℕ) : ℕ :=
  match l[2 * i + 1]?, l[2 * i + 2]? with
  | some a, some b => if key b < key a then 2 * i + 2 else 2 * i + 1
  | _, _ => 2 * i + 1

/-- The element at `i` goes down while its key is above the one of a child. -/
def siftDown : ℕ → List α → ℕ → List α
  | 0, l, _ => l
  | fuel + 1, l, i =>
    match l[minChild key l i]?, l[i]? with
    | some x, some p =>
      if key x < key p then siftDown fuel (swap l i (minChild key l i)) (minChild key l i) else l
    | _, _ => l

end Heap

open Heap

/-- `push_back` and `push_heap`. -/
def pushHeap (l : List α) (a : α) : List α := siftUp key l.length (l ++ [a]) l.length

/-- `pop_heap` and `pop_back`. -/
def popHeap : List α → List α
  | [] => []
  | x :: l =>
    match l.getLast? with
    | none => []
    | some z => siftDown key l.length ((x :: l).dropLast.set 0 z) 0

/-- `make_heap`: every parent goes down, the last one first. -/
def makeHeap (l : List α) : List α :=
  (List.range (l.length / 2)).reverse.foldl (fun l i => siftDown key l.length l i) l

/-- The key at `i` is at most the key at `j`, if these are positions of the list. -/
def KeyLe (l : List α) (i j : ℕ) : Prop := ∀ p x, l[i]? = some p → l[j]? = some x → key p ≤ key x

/-- Every position is in order with its parent. -/
def IsHeap (l : List α) : Prop := ∀ j, KeyLe key l (parent j) j

variable {key} {l : List α} {i j c : ℕ}

/-! ## Swaps -/

theorem swap_getElem? (hi : i < l.length) (hj : j < l.length) (k : ℕ) :
    (swap l i j)[k]? = if k = j then l[i]? else if k = i then l[j]? else l[k]? := by
  unfold swap
  rw [List.getElem?_eq_getElem hi, List.getElem?_eq_getElem hj]
  simp only [List.getElem?_set, List.length_set]
  by_cases hkj : k = j
  · subst hkj
    simp [hj]
  · by_cases hki : k = i
    · subst hki
      simp [hi, hkj, Ne.symm hkj]
    · simp [hkj, hki, Ne.symm hkj, Ne.symm hki]

theorem swap_perm (l : List α) (i j : ℕ) : (swap l i j).Perm l := by
  unfold swap
  split
  · rename_i a b ha hb
    obtain ⟨hi, rfl⟩ := List.getElem?_eq_some_iff.1 ha
    obtain ⟨hj, rfl⟩ := List.getElem?_eq_some_iff.1 hb
    exact List.set_set_perm hi hj
  · exact List.Perm.refl _

theorem siftUp_perm (fuel : ℕ) (l : List α) (i : ℕ) : (siftUp key fuel l i).Perm l := by
  induction fuel generalizing l i with
  | zero => exact List.Perm.refl _
  | succ fuel ih =>
    unfold siftUp
    split
    · split
      · exact (ih _ _).trans (swap_perm _ _ _)
      · exact List.Perm.refl _
    · exact List.Perm.refl _

theorem siftDown_perm (fuel : ℕ) (l : List α) (i : ℕ) : (siftDown key fuel l i).Perm l := by
  induction fuel generalizing l i with
  | zero => exact List.Perm.refl _
  | succ fuel ih =>
    unfold siftDown
    split
    · split
      · exact (ih _ _).trans (swap_perm _ _ _)
      · exact List.Perm.refl _
    · exact List.Perm.refl _

/-! ## Keys of positions -/

theorem KeyLe.refl (l : List α) (i : ℕ) : KeyLe key l i i := by
  intro p x hp hx
  rw [hp] at hx
  rw [Option.some.inj hx]

theorem keyLe_iff {p x : α} (hp : l[i]? = some p) (hx : l[j]? = some x) : KeyLe key l i j ↔ key p ≤ key x := by
  constructor
  · intro h
    exact h p x hp hx
  · intro h p' x' hp' hx'
    rw [hp, Option.some.injEq] at hp'
    rw [hx, Option.some.injEq] at hx'
    rw [← hp', ← hx']
    exact h

theorem KeyLe.trans {k : ℕ} (hj : j < l.length) (h₁ : KeyLe key l i j) (h₂ : KeyLe key l j k) : KeyLe key l i k := by
  intro p x hp hx
  have hy := List.getElem?_eq_getElem hj
  exact (h₁ p _ hp hy).trans (h₂ _ x hy hx)

/-- The positions after a swap, seen from before. -/
def swapped (a b i : ℕ) : ℕ := if i = b then a else if i = a then b else i

theorem keyLe_swap {a b : ℕ} (ha : a < l.length) (hb : b < l.length) :
    KeyLe key (swap l a b) i j ↔ KeyLe key l (swapped a b i) (swapped a b j) := by
  have hat : ∀ k, (swap l a b)[k]? = l[swapped a b k]? := by
    intro k
    rw [swap_getElem? ha hb]
    unfold swapped
    split
    · rfl
    · split <;> rfl
  unfold KeyLe
  rw [hat, hat]

theorem parent_lt (h : i ≠ 0) : parent i < i := by
  unfold parent
  omega

/-! ## Sifting up -/

/-- Every position but `i` is in order with its parent, and the children of `i` are in order with
the parent of `i`. -/
structure UpTo (key : α → β) (l : List α) (i : ℕ) : Prop where
  other : ∀ j, j ≠ i → KeyLe key l (parent j) j
  skip : ∀ c, parent c = i → KeyLe key l (parent i) c

theorem UpTo.up (h : UpTo key l i) (hi : i ≠ 0) (hlt : i < l.length) (hup : KeyLe key l i (parent i)) :
    UpTo key (swap l (parent i) i) (parent i) := by
  have hq := parent_lt hi
  -- the children of the parent are in order with the element that goes up
  have hunder : ∀ c, parent c = parent i → c ≠ i → KeyLe key l i c := by
    intro c hc hci
    have hother := h.other c hci
    rw [hc] at hother
    exact hup.trans (by omega) hother
  constructor
  · intro j hj
    rw [keyLe_swap (by omega) hlt]
    by_cases hji : j = i
    · subst hji
      simpa [swapped, hj, Ne.symm hj] using hup
    · by_cases hp : parent j = i
      · have hs := h.skip j hp
        simpa [swapped, hp, hj, hji] using hs
      · by_cases hpq : parent j = parent i
        · simpa [swapped, hpq, hj, hji, hq.ne] using hunder j hpq hji
        · simpa [swapped, hp, hpq, hj, hji] using h.other j hji
  · intro c hc
    rw [keyLe_swap (by omega) hlt]
    -- the root is its own parent
    by_cases hq0 : parent i = 0
    · have hpp : parent (parent i) = parent i := by rw [hq0]; rfl
      by_cases hci : c = i
      · subst hci
        simpa [swapped, hpp, hq.ne] using hup
      · by_cases hcq : c = parent i
        · simpa [swapped, hpp, hcq, hq.ne] using KeyLe.refl l i
        · simpa [swapped, hpp, hci, hcq, hq.ne] using hunder c hc hci
    · have hpp := parent_lt hq0
      have hup' := h.other (parent i) hq.ne
      have hcq : c ≠ parent i := by
        intro e
        rw [e] at hc
        omega
      by_cases hci : c = i
      · subst hci
        simpa [swapped, hpp.ne, (hpp.trans hq).ne] using hup'
      · have hother := h.other c hci
        rw [hc] at hother
        have htrans := hup'.trans (by omega) hother
        simpa [swapped, hci, hcq, hpp.ne, (hpp.trans hq).ne] using htrans

theorem isHeap_siftUp {fuel : ℕ} (h : UpTo key l i) (hi : i ≤ fuel) (hlt : i < l.length) :
    IsHeap key (siftUp key fuel l i) := by
  induction fuel generalizing l i with
  | zero =>
    obtain rfl : i = 0 := by omega
    intro j
    by_cases hj : j = 0
    · subst hj
      exact KeyLe.refl l 0
    · exact h.other j hj
  | succ fuel ih =>
    have hq : parent i ≤ i := by
      unfold parent
      omega
    have hat := List.getElem?_eq_getElem hlt
    have hatp := List.getElem?_eq_getElem (by omega : parent i < l.length)
    unfold siftUp
    rw [hat, hatp]
    simp only
    split
    · rename_i hkey
      have hi0 : i ≠ 0 := by
        rintro rfl
        exact absurd hkey (lt_irrefl _)
      refine ih (h.up hi0 hlt ((keyLe_iff hat hatp).2 hkey.le)) (by have := parent_lt hi0; omega) ?_
      · rw [(swap_perm l _ _).length_eq]
        omega
    · rename_i hkey
      intro j
      by_cases hj : j = i
      · rw [hj]
        exact (keyLe_iff hatp hat).2 (not_lt.1 hkey)
      · exact h.other j hj

/-! ## Sifting down -/

/-- Every position whose parent is not `i` is in order with it, and the children of `i` are in order
with the parent of `i`. -/
structure DownFrom (key : α → β) (l : List α) (i : ℕ) : Prop where
  other : ∀ j, parent j ≠ i → KeyLe key l (parent j) j
  skip : i ≠ 0 → ∀ c, parent c = i → KeyLe key l (parent i) c

theorem parent_minChild (key : α → β) (l : List α) (i : ℕ) : parent (minChild key l i) = i ∧ i < minChild key l i := by
  unfold minChild parent
  split
  · split <;> omega
  · omega

/-- The children of a position come two in a row. -/
theorem parent_eq_iff (hj : j ≠ 0) : parent j = i ↔ j = 2 * i + 1 ∨ j = 2 * i + 2 := by
  unfold parent
  omega

theorem minChild_le (key : α → β) (l : List α) (hj : j ≠ 0) (hp : parent j = i) : KeyLe key l (minChild key l i) j := by
  intro p x hp' hx
  unfold minChild at hp'
  rcases (parent_eq_iff hj).1 hp with rfl | rfl
  · split at hp'
    · rename_i a b ha hb
      rw [hx, Option.some.injEq] at ha
      split at hp'
      · rename_i hlt
        rw [hb, Option.some.injEq] at hp'
        rw [← hp', ha]
        exact hlt.le
      · rw [hx, Option.some.injEq] at hp'
        rw [hp']
    · rw [hx, Option.some.injEq] at hp'
      rw [hp']
  · split at hp'
    · rename_i a b ha hb
      rw [hx, Option.some.injEq] at hb
      split at hp'
      · rw [hx, Option.some.injEq] at hp'
        rw [hp']
      · rename_i hlt
        rw [ha, Option.some.injEq] at hp'
        rw [← hp', hb]
        exact not_lt.1 hlt
    · -- a second child without a first one
      rename_i hnone
      exact absurd hx (hnone _ _ hp')

theorem DownFrom.down (h : DownFrom key l i) (hc : minChild key l i < l.length)
    (hdown : KeyLe key l (minChild key l i) i) :
    DownFrom key (swap l i (minChild key l i)) (minChild key l i) := by
  obtain ⟨hpc, hlt⟩ := parent_minChild key l i
  set c := minChild key l i with hcdef
  have hci : c ≠ i := by omega
  constructor
  · intro j hj
    rw [keyLe_swap (by omega) hc]
    by_cases hjc : j = c
    · subst hjc
      simpa [swapped, hpc, hci, Ne.symm hci] using hdown
    · by_cases hji : j = i
      · -- the child that went up is now under the parent of `i`, which was known to be in order with it
        by_cases hi0 : i = 0
        · subst hi0
          have hp0 : parent 0 = 0 := rfl
          simpa [swapped, hji, hp0, Ne.symm hci] using KeyLe.refl l c
        · have hpi := parent_lt hi0
          have hs := h.skip hi0 c hpc
          simpa [swapped, hji, Ne.symm hci, show parent i ≠ c by omega, hpi.ne] using hs
      · by_cases hpj : parent j = i
        · have hj0 : j ≠ 0 := by
            rintro rfl
            exact hji hpj
          have hle := minChild_le key l hj0 hpj
          simpa [swapped, hjc, hji, hpj, Ne.symm hci] using hle
        · simpa [swapped, hjc, hji, hj, hpj] using h.other j hpj
  · intro _ d hd
    rw [keyLe_swap (by omega) hc, hpc]
    have hd0 : d ≠ 0 := by
      rintro rfl
      have : parent 0 = 0 := rfl
      omega
    have hdc := parent_lt hd0
    have hother := h.other d (by omega)
    rw [hd] at hother
    simpa [swapped, Ne.symm hci, show d ≠ c by omega, show d ≠ i by omega] using hother

theorem isHeap_siftDown {fuel : ℕ} (h : DownFrom key l i) (hi : l.length ≤ fuel + i) :
    IsHeap key (siftDown key fuel l i) := by
  -- without a child below, or with no child at all, the list is in order
  have hstop : ∀ l : List α, ∀ i, DownFrom key l i → KeyLe key l i (minChild key l i) →
      (minChild key l i < l.length ∨ l.length ≤ 2 * i + 1) → IsHeap key l := by
    intro l i h hle hlen j
    by_cases hp : parent j = i
    · rw [hp]
      by_cases hj0 : j = 0
      · subst hj0
        rw [← hp]
        exact KeyLe.refl l 0
      · rcases hlen with hlen | hlen
        · exact hle.trans hlen (minChild_le key l hj0 hp)
        · intro p x _ hx
          have hlt := (List.getElem?_eq_some_iff.1 hx).1
          have := (parent_eq_iff hj0).1 hp
          omega
    · exact h.other j hp
  induction fuel generalizing l i with
  | zero =>
    have hc := (parent_minChild key l i).2
    refine hstop l i h ?_ (.inr (by omega))
    intro p x _ hx
    have := (List.getElem?_eq_some_iff.1 hx).1
    omega
  | succ fuel ih =>
    have hc := (parent_minChild key l i).2
    unfold siftDown
    split
    · rename_i x p hx hp
      have hlt := (List.getElem?_eq_some_iff.1 hx).1
      split
      · rename_i hkey
        refine ih (h.down hlt ((keyLe_iff hx hp).2 hkey.le)) ?_
        rw [(swap_perm l _ _).length_eq]
        omega
      · rename_i hkey
        exact hstop l i h ((keyLe_iff hp hx).2 (not_lt.1 hkey)) (.inl hlt)
    · rename_i hnone
      refine hstop l i h ?_ (.inr ?_)
      · intro a b ha hb
        exact absurd ha (hnone _ _ hb)
      · by_contra hlen
        have hfirst : minChild key l i < l.length := by
          unfold minChild
          split
          · rename_i hb
            have := (List.getElem?_eq_some_iff.1 hb).1
            split <;> omega
          · omega
        exact hnone _ _ (List.getElem?_eq_getElem hfirst) (List.getElem?_eq_getElem (by omega))

/-! ## The operations -/

theorem pushHeap_perm (l : List α) (a : α) : (pushHeap key l a).Perm (a :: l) :=
  (siftUp_perm _ _ _).trans (List.perm_append_singleton a l)

theorem isHeap_pushHeap (h : IsHeap key l) (a : α) : IsHeap key (pushHeap key l a) := by
  refine isHeap_siftUp ⟨?_, ?_⟩ le_rfl (by simp)
  · intro j hj p x hp hx
    have hlt := (List.getElem?_eq_some_iff.1 hx).1
    rw [List.length_append, List.length_singleton] at hlt
    have hpj : parent j ≤ j := by
      unfold parent
      omega
    rw [List.getElem?_append_left (by omega)] at hp hx
    exact h j p x hp hx
  · intro c hc p x hp hx
    have hlt := (List.getElem?_eq_some_iff.1 hx).1
    rw [List.length_append, List.length_singleton] at hlt
    by_cases hc0 : c = 0
    · -- the new element is the only one
      subst hc0
      rw [← hc] at hp
      exact KeyLe.refl _ 0 p x hp hx
    · have := parent_lt hc0
      omega

theorem popHeap_perm (x : α) (l : List α) : (popHeap key (x :: l)).Perm l := by
  unfold popHeap
  cases l using List.reverseRecOn with
  | nil => exact List.Perm.refl _
  | append_singleton l z =>
    simp only [List.getLast?_append, List.getLast?_singleton, Option.some_or]
    rw [← List.cons_append, List.dropLast_concat, List.set_cons_zero]
    exact (siftDown_perm _ _ _).trans (List.perm_append_singleton z l).symm

theorem isHeap_popHeap {x : α} (h : IsHeap key (x :: l)) : IsHeap key (popHeap key (x :: l)) := by
  unfold popHeap
  cases l using List.reverseRecOn with
  | nil =>
    intro j p x hp _
    simp at hp
  | append_singleton l z =>
    simp only [List.getLast?_append, List.getLast?_singleton, Option.some_or]
    rw [← List.cons_append, List.dropLast_concat, List.set_cons_zero]
    refine isHeap_siftDown ⟨?_, fun h0 => absurd rfl h0⟩ (by simp)
    -- behind the first position nothing has changed
    have hsame : ∀ k y, k ≠ 0 → (z :: l)[k]? = some y → (x :: (l ++ [z]))[k]? = some y := by
      intro k y hk hy
      obtain ⟨k, rfl⟩ := Nat.exists_eq_succ_of_ne_zero hk
      rw [List.getElem?_cons_succ] at hy ⊢
      rw [List.getElem?_append_left (List.getElem?_eq_some_iff.1 hy).1]
      exact hy
    intro j hj p y hp hy
    have hj0 : j ≠ 0 := by
      rintro rfl
      exact hj rfl
    exact h j p y (hsame _ p hj hp) (hsame _ y hj0 hy)

/-- Only the keys of the elements matter. -/
theorem IsHeap.congr {key' : α → β} (h : IsHeap key l) (hk : ∀ x ∈ l, key' x = key x) : IsHeap key' l := by
  intro j p x hp hx
  rw [hk p (List.mem_of_getElem? hp), hk x (List.mem_of_getElem? hx)]
  exact h j p x hp hx

/-- **The first element has the least key.** -/
theorem IsHeap.head_le {x : α} (h : IsHeap key (x :: l)) : ∀ y ∈ l, key x ≤ key y := by
  -- by induction on the position, through its parent
  have hpos : ∀ (j : ℕ) y, (x :: l)[j]? = some y → key x ≤ key y := by
    intro j
    induction j using Nat.strong_induction_on with
    | _ j ih =>
      intro y hy
      by_cases hj : j = 0
      · subst hj
        rw [Option.some.inj hy]
      · have hlt := parent_lt hj
        have hjl := (List.getElem?_eq_some_iff.1 hy).1
        have hp := List.getElem?_eq_getElem (show parent j < (x :: l).length by omega)
        exact (ih _ hlt _ hp).trans (h j _ _ hp hy)
  intro y hy
  obtain ⟨j, hj⟩ := List.getElem?_of_mem hy
  exact hpos (j + 1) y hj

end Esesc.Lib
