import Mathlib.Logic.Function.Basic
import Mathlib.Data.Nat.ModEq

/-!
# Rings of cells

A ring addresses its cells with positions that never wrap: `adr` folds position `i` onto a
cell, and two positions share a cell exactly when they agree modulo the number `n` of cells
(`IsRing`). `Holds adr a b l` says that the cells `a`, from position `b` on, hold the list `l`.

* `Holds.write`: a write just behind a list that does not fill the ring leaves the list alone.
* `Holds.concat`, `Holds.head`, `Holds.tail`: the list grows at its end and shrinks at its front.
-/

namespace Esesc.Lib

variable {ι α : Type*} {adr : ℕ → ι} {n b : ℕ} {a : ι → α} {l : List α} {x : α}

/-- Two positions share a cell exactly when they agree modulo `n`. -/
def IsRing (adr : ℕ → ι) (n : ℕ) : Prop := ∀ i j, adr i = adr j ↔ i % n = j % n

/-- The cells from position `b` on hold the list `l`. -/
def Holds (adr : ℕ → ι) (a : ι → α) (b : ℕ) (l : List α) : Prop :=
  ∀ i x, l[i]? = some x → a (adr (b + i)) = x

/-- Less than one turn apart, positions have cells of their own. -/
theorem IsRing.inj (hr : IsRing adr n) {i j : ℕ} (hi : i < n) (hj : j < n)
    (h : adr (b + i) = adr (b + j)) : i = j := by
  have hmod : b + i ≡ b + j [MOD n] := (hr _ _).1 h
  exact Nat.ModEq.eq_of_lt_of_lt (Nat.ModEq.add_left_cancel' b hmod) hi hj

theorem Holds.nil : Holds adr a b ([] : List α) := by
  intro i x h
  simp at h

/-- Only the cells of the list matter. -/
theorem Holds.congr (h : Holds adr a b l) {a' : ι → α}
    (heq : ∀ i < l.length, a' (adr (b + i)) = a (adr (b + i))) : Holds adr a' b l := by
  intro i x hx
  rw [heq i (List.getElem?_eq_some_iff.1 hx).1]
  exact h i x hx

/-- **Write behind.** The cell after the list is not one of the list's, unless the list
fills the ring. -/
theorem Holds.write [DecidableEq ι] (hr : IsRing adr n) (h : Holds adr a b l) (hl : l.length < n) (x : α) :
    Holds adr (Function.update a (adr (b + l.length)) x) b l := by
  refine h.congr fun i hi => Function.update_of_ne ?_ _ _
  intro he
  have := hr.inj (by omega) hl he
  omega

theorem Holds.concat (h : Holds adr a b l) (hx : a (adr (b + l.length)) = x) :
    Holds adr a b (l ++ [x]) := by
  intro i y hy
  rcases Nat.lt_or_ge i l.length with hi | hi
  · rw [List.getElem?_append_left hi] at hy
    exact h i y hy
  · rw [List.getElem?_append_right hi, List.getElem?_singleton] at hy
    split at hy
    · obtain rfl : x = y := Option.some.inj hy
      obtain rfl : i = l.length := by omega
      exact hx
    · cases hy

theorem Holds.head (h : Holds adr a b (x :: l)) : a (adr b) = x := h 0 x rfl

theorem Holds.tail (h : Holds adr a b (x :: l)) : Holds adr a (b + 1) l := by
  intro i y hy
  rw [Nat.add_assoc, Nat.add_comm 1 i]
  exact h (i + 1) y hy

end Esesc.Lib
