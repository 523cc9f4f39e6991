import Esesc.Lib.Machine
import Mathlib.Data.Fintype.Basic
import Mathlib.Logic.Function.Basic
import Mathlib.Tactic.Common

/-!
# Slots that hold requests

A request is assigned to a slot that is free, if no slot holds one with its key. Once it is issued it is
not issued again, and it stays in its slot until it is released. Runs of these actions are the lawful
histories of the slots.

* `run_distinct`: two slots never hold requests with one key.
* `release_between`: between two assignments of a slot it is released.
* `assign_between`: between two issues of a slot it is assigned.
* `run_release`: many slots are released.
-/

namespace Esesc.Lib

/-- What happens to a slot. A request may be issued without being sent on. -/
inductive SlotAct (ι κ : Type*)
  | assign (i : ι) (k : κ)
  | issue (i : ι) (sent : Bool)
  | release (i : ι)
  deriving DecidableEq

/-- Slots with the keys of their requests, and whether these were issued. -/
abbrev Slots (ι κ : Type*) := ι → Option (κ × Bool)

namespace Slots

variable {ι κ : Type*} [DecidableEq ι] [Fintype ι] [DecidableEq κ] {σ τ : Slots ι κ} {i j : ι} {k k' : κ} {a : SlotAct ι κ}
  {as l₁ l₂ l₃ : List (SlotAct ι κ)}

/-- The key that a slot holds. -/
def key (σ : Slots ι κ) (i : ι) : Option κ := (σ i).map Prod.fst

def step (σ : Slots ι κ) : SlotAct ι κ → Option (Slots ι κ)
  | .assign i k =>
    if σ i = none ∧ ∀ j, σ.key j ≠ some k then some (Function.update σ i (some (k, false))) else none
  | .issue i _ =>
    match σ i with
    | some (k, false) => some (Function.update σ i (some (k, true)))
    | _ => none
  | .release i => if (σ i).isSome then some (Function.update σ i none) else none

/-- No key is held twice. -/
def Distinct (σ : Slots ι κ) : Prop := ∀ i j k, σ.key i = some k → σ.key j = some k → i = j

theorem step_assign (hi : σ i = none) (hk : ∀ j, σ.key j ≠ some k) :
    step σ (.assign i k) = some (Function.update σ i (some (k, false))) := if_pos ⟨hi, hk⟩

theorem step_issue (sent : Bool) (hi : σ i = some (k, false)) :
    step σ (.issue i sent) = some (Function.update σ i (some (k, true))) := by
  rw [step, hi]

theorem step_release (hi : (σ i).isSome = true) : step σ (.release i) = some (Function.update σ i none) := if_pos hi

/-- **What a step can do.** -/
theorem step_cases (h : step σ a = some τ) :
    (∃ i k, a = .assign i k ∧ σ i = none ∧ (∀ j, σ.key j ≠ some k) ∧ τ = Function.update σ i (some (k, false))) ∨
    (∃ i sent k, a = .issue i sent ∧ σ i = some (k, false) ∧ τ = Function.update σ i (some (k, true))) ∨
    ∃ i, a = .release i ∧ (σ i).isSome = true ∧ τ = Function.update σ i none := by
  cases a with
  | assign i k =>
    rw [step] at h
    split at h
    · next hc => exact Or.inl ⟨i, k, rfl, hc.1, hc.2, (Option.some.inj h).symm⟩
    · cases h
  | issue i sent =>
    rw [step] at h
    split at h
    · next k hk => exact Or.inr (Or.inl ⟨i, sent, k, rfl, hk, (Option.some.inj h).symm⟩)
    · cases h
  | release i =>
    rw [step] at h
    split at h
    · next hc => exact Or.inr (Or.inr ⟨i, rfl, hc, (Option.some.inj h).symm⟩)
    · cases h

omit [Fintype ι] [DecidableEq κ] in
theorem key_update_self (σ : Slots ι κ) (i : ι) (r : Option (κ × Bool)) :
    key (Function.update σ i r) i = r.map Prod.fst := by
  rw [key, Function.update_self]

omit [Fintype ι] [DecidableEq κ] in
theorem key_update_of_ne (h : j ≠ i) (r : Option (κ × Bool)) : key (Function.update σ i r) j = σ.key j := by
  rw [key, Function.update_of_ne h, key]

theorem step_distinct (h : step σ a = some τ) (hd : σ.Distinct) : τ.Distinct := by
  rcases step_cases h with ⟨s, k, -, -, hk, rfl⟩ | ⟨s, -, k, -, hs, rfl⟩ | ⟨s, -, -, rfl⟩
  · intro i j k' hi hj
    by_cases his : i = s <;> by_cases hjs : j = s
    · rw [his, hjs]
    · rw [his, key_update_self] at hi
      rw [key_update_of_ne hjs, ← hi] at hj
      exact absurd hj (hk j)
    · rw [hjs, key_update_self] at hj
      rw [key_update_of_ne his, ← hj] at hi
      exact absurd hi (hk i)
    · rw [key_update_of_ne his] at hi
      rw [key_update_of_ne hjs] at hj
      exact hd i j k' hi hj
  · have hkey : ∀ j, key (Function.update σ s (some (k, true))) j = σ.key j := by
      intro j
      by_cases hj : j = s
      · rw [hj, key_update_self, key, hs]
        rfl
      · exact key_update_of_ne hj _
    intro i j k' hi hj
    rw [hkey] at hi hj
    exact hd i j k' hi hj
  · intro i j k' hi hj
    by_cases his : i = s
    · rw [his, key_update_self] at hi
      cases hi
    · by_cases hjs : j = s
      · rw [hjs, key_update_self] at hj
        cases hj
      · rw [key_update_of_ne his] at hi
        rw [key_update_of_ne hjs] at hj
        exact hd i j k' hi hj

/-- **Distinct keys.** -/
theorem run_distinct (h : run step σ as = some τ) (hd : σ.Distinct) : τ.Distinct :=
  run_inv (I := Distinct) (fun _ _ _ => step_distinct) h hd

/-- Only a release makes a slot free. -/
theorem isSome_of_run (h : run step σ as = some τ) (hi : (σ i).isSome = true) (hno : SlotAct.release i ∉ as) :
    (τ i).isSome = true := by
  induction as generalizing σ with
  | nil =>
    obtain rfl : σ = τ := Option.some.inj h
    exact hi
  | cons a as ih =>
    obtain ⟨ρ, hρ, h⟩ := run_cons.1 h
    refine ih h ?_ fun hmem => hno (List.mem_cons_of_mem _ hmem)
    rcases step_cases hρ with ⟨s, k, rfl, -, -, rfl⟩ | ⟨s, sent, k, rfl, -, rfl⟩ | ⟨s, rfl, -, rfl⟩
    · by_cases his : i = s
      · rw [his, Function.update_self]
        rfl
      · rw [Function.update_of_ne his]
        exact hi
    · by_cases his : i = s
      · rw [his, Function.update_self]
        rfl
      · rw [Function.update_of_ne his]
        exact hi
    · have his : i ≠ s := by
        rintro rfl
        exact hno List.mem_cons_self
      rw [Function.update_of_ne his]
      exact hi

/-- A request that was issued stays issued until the slot is assigned again. -/
theorem issued_of_run (h : run step σ as = some τ) (hi : ∀ k, σ i ≠ some (k, false))
    (hno : ∀ k, SlotAct.assign i k ∉ as) : ∀ k, τ i ≠ some (k, false) := by
  induction as generalizing σ with
  | nil =>
    obtain rfl : σ = τ := Option.some.inj h
    exact hi
  | cons a as ih =>
    obtain ⟨ρ, hρ, h⟩ := run_cons.1 h
    refine ih h ?_ fun k hmem => hno k (List.mem_cons_of_mem _ hmem)
    intro k
    rcases step_cases hρ with ⟨s, k', rfl, -, -, rfl⟩ | ⟨s, sent, k', rfl, -, rfl⟩ | ⟨s, rfl, -, rfl⟩
    · have his : i ≠ s := by
        rintro rfl
        exact hno k' List.mem_cons_self
      rw [Function.update_of_ne his]
      exact hi k
    · by_cases his : i = s
      · rw [his, Function.update_self]
        simp
      · rw [Function.update_of_ne his]
        exact hi k
    · by_cases his : i = s
      · rw [his, Function.update_self]
        simp
      · rw [Function.update_of_ne his]
        exact hi k

/-- The action in the middle of a run, and what is before and after it. -/
theorem run_split (h : run step σ (l₁ ++ a :: l₂) = some τ) :
    ∃ ρ ρ', run step σ l₁ = some ρ ∧ step ρ a = some ρ' ∧ run step ρ' l₂ = some τ := by
  rw [run_append, Option.bind_eq_some_iff] at h
  obtain ⟨ρ, hρ, h⟩ := h
  obtain ⟨ρ', hρ', h⟩ := run_cons.1 h
  exact ⟨ρ, ρ', hρ, hρ', h⟩

/-- **Nothing is overwritten.** Between two assignments of a slot there is a release. -/
theorem release_between (h : run step σ (l₁ ++ .assign i k :: (l₂ ++ .assign i k' :: l₃)) = some τ) :
    SlotAct.release i ∈ l₂ := by
  by_contra hno
  obtain ⟨ρ, ρ', -, hρ', h⟩ := run_split h
  obtain ⟨π, π', hπ, hπ', -⟩ := run_split h
  have hheld : (ρ' i).isSome = true := by
    rcases step_cases hρ' with ⟨s, x, heq, -, -, rfl⟩ | ⟨s, sent, x, heq, -⟩ | ⟨s, heq, -⟩
    · cases heq
      rw [Function.update_self]
      rfl
    · cases heq
    · cases heq
  have hheld' := isSome_of_run hπ hheld hno
  rcases step_cases hπ' with ⟨s, x, heq, hfree, -⟩ | ⟨s, sent, x, heq, -⟩ | ⟨s, heq, -⟩
  · cases heq
    rw [hfree] at hheld'
    cases hheld'
  · cases heq
  · cases heq

/-- **Nothing is issued twice.** Between two issues of a slot there is an assignment. -/
theorem assign_between {x y : Bool} (h : run step σ (l₁ ++ .issue i x :: (l₂ ++ .issue i y :: l₃)) = some τ) :
    ∃ k, SlotAct.assign i k ∈ l₂ := by
  by_contra hno
  obtain ⟨ρ, ρ', -, hρ', h⟩ := run_split h
  obtain ⟨π, π', hπ, hπ', -⟩ := run_split h
  have hissued : ∀ k, ρ' i ≠ some (k, false) := by
    intro k
    rcases step_cases hρ' with ⟨s, z, heq, -⟩ | ⟨s, sent, z, heq, -, rfl⟩ | ⟨s, heq, -⟩
    · cases heq
    · cases heq
      rw [Function.update_self]
      simp
    · cases heq
  have hissued' := issued_of_run hπ hissued fun k hk => hno ⟨k, hk⟩
  rcases step_cases hπ' with ⟨s, z, heq, -⟩ | ⟨s, sent, z, heq, hwait, -⟩ | ⟨s, heq, -⟩
  · cases heq
  · cases heq
    exact hissued' z hwait
  · cases heq

/-- **Many releases.** -/
theorem run_release {is : List ι} (hnodup : is.Nodup) (hsome : ∀ i ∈ is, (σ i).isSome = true) :
    run step σ (is.map .release) = some fun i => if i ∈ is then none else σ i := by
  induction is generalizing σ with
  | nil => simp [run]
  | cons i is ih =>
    obtain ⟨hi, hnodup⟩ := List.nodup_cons.1 hnodup
    have hrest : ∀ j ∈ is, ((Function.update σ i none) j).isSome = true := by
      intro j hj
      have hji : j ≠ i := by
        rintro rfl
        exact hi hj
      rw [Function.update_of_ne hji]
      exact hsome j (List.mem_cons_of_mem _ hj)
    rw [List.map_cons, run, step_release (hsome i List.mem_cons_self), Option.bind_some, ih hnodup hrest]
    refine congrArg some (funext fun j => ?_)
    by_cases hji : j = i
    · simp [hji]
    · simp [hji]

end Slots

end Esesc.Lib
