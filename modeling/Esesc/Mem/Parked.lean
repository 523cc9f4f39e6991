import Mathlib.Algebra.BigOperators.Group.Finset.Piecewise
import Mathlib.Algebra.Order.BigOperators.Group.Finset
import Mathlib.Tactic.Abel
import Esesc.Mem.Accounting

/-!
# The callbacks parked in the registers

`addEntry` parks the callback it is given, `retireBegin` takes out the one it runs, and
nothing else parks or drops any, whatever the class of the registers.

* `parked_addEntry`, `parked_retireBegin_none`, `parked_retireBegin_some`, `parked_retireEnd`.
-/

namespace Esesc.Mem

open Esesc.Suc

variable {C : Type} {k : MSHRConfig}

theorem popOverflow_none {q q' : List (OverflowField C)} (h : popOverflow q = (none, q')) :
    q' = [] ∧ q.filterMap (·.cb) = [] := by
  induction q with
  | nil =>
    simp only [popOverflow, Prod.mk.injEq, true_and] at h
    exact ⟨h.symm, rfl⟩
  | cons f q ih =>
    unfold popOverflow at h
    cases hf : f.cb with
    | none =>
      rw [hf] at h
      obtain ⟨hq', hq⟩ := ih h
      exact ⟨hq', by rw [List.filterMap_cons_none hf, hq]⟩
    | some cb => rw [hf] at h; simp at h

theorem popOverflow_some {q q' : List (OverflowField C)} {cb : C} (h : popOverflow q = (some cb, q')) :
    q.filterMap (·.cb) = cb :: q'.filterMap (·.cb) := by
  induction q with
  | nil => simp [popOverflow] at h
  | cons f q ih =>
    unfold popOverflow at h
    cases hf : f.cb with
    | none => rw [hf] at h; rw [List.filterMap_cons_none hf, ih h]
    | some cb' =>
      rw [hf] at h
      obtain ⟨rfl, rfl⟩ : cb' = cb ∧ q = q' := by simpa using h
      rw [List.filterMap_cons_some hf]

namespace FullMSHR

variable {m m' : FullMSHR C} {addr : AddrType}

/-- The three ways `retireBegin` goes: the entry is free, it is released, or its next
callback is run. -/
theorem retireBegin_cases {o : Option C} (h : m.retireBegin k addr = (o, m')) :
    (o = none ∧ (m.entry (k.calcEntry addr)).nUse = 0 ∧ m' = m) ∨
    (o = none ∧ (m.entry (k.calcEntry addr)).nUse ≠ 0 ∧ (m.entry (k.calcEntry addr)).cc = [] ∧
      m'.entry = Function.update m.entry (k.calcEntry addr) ⟨[], 0⟩) ∨
    (∃ cb cc, o = some cb ∧ (m.entry (k.calcEntry addr)).nUse ≠ 0 ∧
      (m.entry (k.calcEntry addr)).cc = cb :: cc ∧
      m'.entry = Function.update m.entry (k.calcEntry addr) ⟨cc, (m.entry (k.calcEntry addr)).nUse - 1⟩) := by
  unfold retireBegin at h
  by_cases huse : (m.entry (k.calcEntry addr)).nUse = 0
  · rw [if_pos huse, Prod.mk.injEq] at h
    exact .inl ⟨h.1.symm, huse, h.2.symm⟩
  · rw [if_neg huse] at h
    right
    simp only [returnUse, Function.update_self] at h
    split at h <;> rename_i hcc <;> rw [Prod.mk.injEq] at h <;> obtain ⟨rfl, rfl⟩ := h
    · left
      refine ⟨rfl, huse, hcc, ?_⟩
      simp [release, hcc]
    · right
      refine ⟨_, _, rfl, huse, hcc, ?_⟩
      simp

/-- `retireEnd` frees the entry when no callback is left in it. -/
theorem retireEnd_entry (m : FullMSHR C) (addr : AddrType) :
    (m.retireEnd k addr).entry = if (m.entry (k.calcEntry addr)).cc = []
      then Function.update m.entry (k.calcEntry addr) ⟨[], 0⟩ else m.entry := by
  unfold retireEnd
  simp only
  split <;> rename_i hcc
  · simp [release, hcc]
  · simp [hcc]

/-- The callbacks of all the entries. -/
def callbacks (k : MSHRConfig) (entry : ℕ → EntryType C) : Multiset C :=
  ∑ p ∈ Finset.range k.mshrSize, ((entry p).cc : Multiset C)

theorem callbacks_update (entry : ℕ → EntryType C) (e : EntryType C) {p : ℕ} (hp : p < k.mshrSize) :
    callbacks k (Function.update entry p e) + ((entry p).cc : Multiset C) =
      callbacks k entry + (e.cc : Multiset C) := by
  have hfun : ∀ q, ((Function.update entry p e q).cc : Multiset C) =
      Function.update (fun q => ((entry q).cc : Multiset C)) p (e.cc : Multiset C) q := by
    intro q
    by_cases hq : q = p
    · subst hq; simp
    · simp [hq]
  unfold callbacks
  simp only [hfun]
  rw [Finset.sum_update_of_mem (Finset.mem_range.2 hp), Finset.sdiff_singleton_eq_erase,
    ← Finset.add_sum_erase _ (fun q => ((entry q).cc : Multiset C)) (Finset.mem_range.2 hp)]
  abel

end FullMSHR

namespace MSHR

open FullMSHR

theorem blocking_retireBegin {q : List (OverflowField C)} {m' : MSHR C} {addr : AddrType} {o : Option C}
    (h : (MSHR.blocking q).retireBegin k addr = (o, m')) : ∃ q', m' = .blocking q' ∧ popOverflow q = (o, q') := by
  rcases hr : popOverflow q with ⟨o', q'⟩
  obtain ⟨rfl, rfl⟩ : o' = o ∧ _ = m' := by simpa [retireBegin, hr] using h
  exact ⟨q', rfl, rfl⟩

theorem none_retireBegin {q : List (OverflowField C)} {m' : MSHR C} {addr : AddrType} {o : Option C}
    (h : (MSHR.none q).retireBegin k addr = (o, m')) : ∃ q', m' = .none q' ∧ popOverflow q = (o, q') := by
  rcases hr : popOverflow q with ⟨o', q'⟩
  obtain ⟨rfl, rfl⟩ : o' = o ∧ _ = m' := by simpa [retireBegin, hr] using h
  exact ⟨q', rfl, rfl⟩

theorem full_retireBegin {m : FullMSHR C} {m' : MSHR C} {addr : AddrType} {o : Option C}
    (h : (MSHR.full m).retireBegin k addr = (o, m')) : ∃ m1, m' = .full m1 ∧ m.retireBegin k addr = (o, m1) := by
  rcases hr : m.retireBegin k addr with ⟨o', m1⟩
  obtain ⟨rfl, rfl⟩ : o' = o ∧ _ = m' := by simpa [retireBegin, hr] using h
  exact ⟨m1, rfl, rfl⟩

/-- The parked callbacks. -/
def parked (k : MSHRConfig) : MSHR C → Multiset C
  | .blocking overflow | .none overflow => overflow.filterMap (·.cb)
  | .full m => callbacks k m.entry

variable {m m' : MSHR C} {addr : AddrType}

theorem parked_create (t : MSHRType) : (create k t : MSHR C).parked k = 0 := by
  cases t with
  | blocking => rfl
  | none => rfl
  | full => simp [create, parked, callbacks, FullMSHR.new]

theorem parked_addEntry (m : MSHR C) (addr : AddrType) (c : Option C) :
    (m.addEntry k addr c).parked k = m.parked k + (c.toList : Multiset C) := by
  have hone : List.filterMap (·.cb) [(⟨addr, c⟩ : OverflowField C)] = c.toList := by cases c <;> rfl
  cases m with
  | blocking q =>
    simp only [addEntry, parked, List.filterMap_append, hone]
    exact (Multiset.coe_add _ _).symm
  | none q =>
    simp only [addEntry, parked, List.filterMap_append, hone]
    exact (Multiset.coe_add _ _).symm
  | full m =>
    have hup := callbacks_update (k := k) m.entry
      ⟨(m.entry (k.calcEntry addr)).cc ++ c.toList, (m.entry (k.calcEntry addr)).nUse + 1⟩ (k.calcEntry_lt addr)
    simp only [← Multiset.coe_add] at hup
    simp only [addEntry, parked, FullMSHR.addEntry]
    apply add_right_cancel (b := ((m.entry (k.calcEntry addr)).cc : Multiset C))
    rw [hup]
    abel

theorem parked_retireBegin_none (h : m.retireBegin k addr = (Option.none, m')) : m'.parked k = m.parked k := by
  cases m with
  | blocking q =>
    obtain ⟨q', rfl, hr⟩ := blocking_retireBegin h
    obtain ⟨hq', hq⟩ := popOverflow_none hr
    simp only [parked, hq', hq, List.filterMap_nil]
  | none q =>
    obtain ⟨q', rfl, hr⟩ := none_retireBegin h
    obtain ⟨hq', hq⟩ := popOverflow_none hr
    simp only [parked, hq', hq, List.filterMap_nil]
  | full m =>
    obtain ⟨m1, rfl, hr⟩ := full_retireBegin h
    simp only [parked]
    rcases retireBegin_cases hr with ⟨-, -, hm⟩ | ⟨-, -, hcc, hm⟩ | ⟨cb, cc, hcb, -⟩
    · rw [hm]
    · -- an entry is released only when its container is empty
      rw [hm]
      have hup := callbacks_update (k := k) m.entry ⟨[], 0⟩ (k.calcEntry_lt addr)
      rw [hcc] at hup
      simpa using hup
    · cases hcb

theorem parked_retireBegin_some {cb : C} (h : m.retireBegin k addr = (some cb, m')) :
    m.parked k = cb ::ₘ m'.parked k := by
  cases m with
  | blocking q =>
    obtain ⟨q', rfl, hr⟩ := blocking_retireBegin h
    simp only [parked, popOverflow_some hr]
    exact (Multiset.cons_coe _ _).symm
  | none q =>
    obtain ⟨q', rfl, hr⟩ := none_retireBegin h
    simp only [parked, popOverflow_some hr]
    exact (Multiset.cons_coe _ _).symm
  | full m =>
    obtain ⟨m1, rfl, hr⟩ := full_retireBegin h
    simp only [parked]
    rcases retireBegin_cases hr with ⟨hcb, -⟩ | ⟨hcb, -⟩ | ⟨cb', cc, hcb, -, hcc, hm⟩
    · cases hcb
    · cases hcb
    · obtain rfl : cb = cb' := Option.some.inj hcb
      have hup := callbacks_update (k := k) m.entry
        ⟨cc, (m.entry (k.calcEntry addr)).nUse - 1⟩ (k.calcEntry_lt addr)
      rw [hcc, ← Multiset.cons_coe] at hup
      rw [hm]
      apply add_right_cancel (b := (cc : Multiset C))
      rw [← hup, Multiset.add_cons, Multiset.cons_add]

theorem parked_retireEnd (m : MSHR C) (addr : AddrType) : (m.retireEnd k addr).parked k = m.parked k := by
  cases m with
  | blocking q => rfl
  | none q => rfl
  | full m =>
    simp only [retireEnd, parked, retireEnd_entry]
    split
    · rename_i hcc
      have hup := callbacks_update (k := k) m.entry ⟨[], 0⟩ (k.calcEntry_lt addr)
      rw [hcc] at hup
      simpa using hup
    · rfl

/-- The callbacks that `retire(addr)` and the calls inside it can run, in this order. -/
def queue (k : MSHRConfig) : MSHR C → AddrType → List C
  | .blocking overflow, _ | .none overflow, _ => overflow.filterMap (·.cb)
  | .full m, addr => (m.entry (k.calcEntry addr)).cc

theorem depth_eq (m : MSHR C) : m.depth k = Multiset.card (m.parked k) + 1 := by
  cases m with
  | blocking q => rfl
  | none q => rfl
  | full m =>
    simp only [depth, parked, callbacks, Multiset.card_sum, Multiset.coe_card]
    rfl

end MSHR

end Esesc.Mem
