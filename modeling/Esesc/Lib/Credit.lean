import Mathlib.Data.List.Count
import Mathlib.Data.List.Nodup
import Mathlib.Data.Int.Notation

/-!
# Credits

A counter of free credits, and users who hold one credit each. The users are a list, a predicate
says which of them hold a credit at the moment.

* `Credits.enter`, `Credits.leave`: a user comes or goes, with or without a credit.
* `Credits.giveBack`: one user gives its credit back, or not, and stays.
-/

namespace Esesc.Lib

variable {α : Type*} {free : ℤ} {total : ℕ} {l : List α} {p q : α → Bool} {x : α}

/-- The free credits and those that are held make the total, and the counter is not negative. -/
structure Credits (free : ℤ) (total : ℕ) (l : List α) (p : α → Bool) : Prop where
  sum : free + l.countP p = total
  nonneg : 0 ≤ free

theorem credits_nil (total : ℕ) (p : α → Bool) : Credits total total [] p :=
  ⟨by simp, Int.natCast_nonneg total⟩

/-- Only what the users hold matters. -/
theorem Credits.congr (h : Credits free total l p) (hpq : ∀ y ∈ l, q y = p y) : Credits free total l q := by
  refine ⟨?_, h.nonneg⟩
  rw [List.countP_congr fun y hy => by rw [hpq y hy]]
  exact h.sum

/-- A user comes, and takes a credit, which `g` says, if there is one to take. -/
theorem Credits.enter {g : Bool} (h : Credits free total l p) (hold : ∀ y ∈ l, q y = p y) (hx : q x = g)
    (hroom : g = true → 0 < free) : Credits (free - if g then 1 else 0) total (l ++ [x]) q := by
  have hsum := (h.congr hold).sum
  have hnn := h.nonneg
  have hcount : (l ++ [x]).countP q = l.countP q + if g then 1 else 0 := by
    rw [List.countP_append, List.countP_singleton, hx]
  cases g with
  | false => exact ⟨by simpa [hcount] using hsum, by simpa using hnn⟩
  | true =>
    have hpos := hroom rfl
    refine ⟨?_, ?_⟩
    · rw [hcount]
      push_cast
      simp only [if_true]
      omega
    · simp only [if_true]
      omega

/-- The first user goes, with its credit. -/
theorem Credits.leave (h : Credits free total (x :: l) p) : Credits (free + if p x then 1 else 0) total l p := by
  have hsum := h.sum
  have hnn := h.nonneg
  rw [List.countP_cons] at hsum
  split <;> rename_i hp <;> simp only [hp, if_true] at hsum
  · exact ⟨by push_cast at hsum; omega, by omega⟩
  · exact ⟨by simpa using hsum, by omega⟩

/-- **One user may give its credit back**, which `g` says. -/
theorem Credits.giveBack [DecidableEq α] {g : Bool} (h : Credits free total l p) (hnd : l.Nodup) (hx : x ∈ l)
    (hp : g = true → p x = true) (hq : ∀ y ∈ l, q y = (p y && !(decide (y = x) && g))) :
    Credits (free + if g then 1 else 0) total l q := by
  cases g with
  | false =>
    have hsame : Credits free total l q := h.congr fun y hy => by simpa using hq y hy
    simpa using hsame
  | true =>
    have hperm := List.perm_cons_erase hx
    have hrest : (l.erase x).countP q = (l.erase x).countP p := by
      refine List.countP_congr fun y hy => ?_
      obtain ⟨hne, hy⟩ := hnd.mem_erase_iff.1 hy
      simp [hq y hy, hne]
    have hqx : q x = false := by simp [hq x hx]
    have hsum := h.sum
    have hnn := h.nonneg
    rw [hperm.countP_eq, List.countP_cons, hp rfl] at hsum
    simp only [if_true] at hsum ⊢
    refine ⟨?_, by omega⟩
    rw [hperm.countP_eq, List.countP_cons, hqx, hrest]
    simp only [Bool.false_eq_true, if_false]
    push_cast at hsum ⊢
    omega

end Esesc.Lib
