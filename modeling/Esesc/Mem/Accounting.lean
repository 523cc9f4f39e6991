import Mathlib.Algebra.BigOperators.Group.Finset.Piecewise
import Mathlib.Algebra.Order.BigOperators.Group.Finset
import Mathlib.Algebra.BigOperators.Ring.Finset
import Mathlib.Tactic.Ring
import Esesc.Lib.Machine
import Esesc.Mem.MSHR

/-!
# What `FullMSHR` counts

A callback run by `retire` may itself call `addEntry` and `retire`, so the states in
which a call can be made are those of `Nested`: the registers, and the `retire` calls
that wait for their callback to return. An action is a call, or the return of the
innermost callback.

The counters have their widths here: `nFreeEntries` is an `int16_t` and `nUse` an `int32_t`.

* `run_balanced`: `nFreeEntries` and the sum of `nUse` add up to `nEntries`, up to the
  width of an `int16_t`.
* `Sound.step`: as long as no `nUse` overflows, none is negative, and every parked callback is
  covered by a use of its own and one more.
* `fullMSHR_accounting`: all of it, with the exact conditions under which nothing wraps.
-/

namespace Esesc.Mem

open Esesc.Suc Esesc.Lib

/-! ## Entries exist -/

theorem or_ushiftRight_lt {x : BitVec 32} {n : ℕ} (i : ℕ) (h : x.toNat < 2 ^ n) :
    (x ||| (x >>> i)).toNat < 2 ^ n := by
  rw [BitVec.toNat_or, BitVec.toNat_ushiftRight]
  exact Nat.or_lt_two_pow h (lt_of_le_of_lt (Nat.shiftRight_le _ _) h)

namespace MSHRConfig

variable (k : MSHRConfig)

theorem mshrSize_pos : 0 < k.mshrSize := by
  have hpos := k.size_pos
  have hlt := k.size_lt
  have h0 : (BitVec.ofNat 32 k.size - 1).toNat < 2 ^ 15 := by
    rw [BitVec.toNat_sub, BitVec.toNat_ofNat]
    simp only [BitVec.reduceToNat]
    omega
  -- The smeared word stays below `2 ^ 15`, so neither the increment nor the product wraps.
  have h5 := or_ushiftRight_lt 16 (or_ushiftRight_lt 8 (or_ushiftRight_lt 4
    (or_ushiftRight_lt 2 (or_ushiftRight_lt 1 h0))))
  unfold mshrSize roundUpPower2
  rw [BitVec.toNat_mul, BitVec.toNat_add]
  simp only [BitVec.reduceToNat]
  omega

theorem calcEntry_lt (addr : AddrType) : k.calcEntry addr < k.mshrSize := by
  have hpos := k.mshrSize_pos
  have hle : k.calcEntry addr ≤ k.mshrMask := by
    unfold calcEntry
    rw [BitVec.toNat_and, BitVec.toNat_ofNat]
    exact Nat.and_le_right.trans (Nat.mod_le _ _)
  unfold mshrMask at hle
  omega

end MSHRConfig

variable {C : Type} (k : MSHRConfig)

/-! ## Nested calls -/

/-- The conversion to `int32_t`. -/
def int32 (x : ℤ) : ℤ := Int.bmod x (2 ^ 32)

/-- `nUse` as it is stored. It is added to `nFreeEntries` only, for which the width of `nUse` does not
matter. -/
def FullMSHR.narrow (m : FullMSHR C) : FullMSHR C :=
  { m with entry := fun p => { m.entry p with nUse := int32 (m.entry p).nUse } }

/-- The registers, and the `retire` calls whose callback is running, the innermost first. -/
structure Nested (C : Type) where
  mshr : FullMSHR C
  calls : List AddrType

/-- A call, from outside or from the callback that is running, or the return of that callback. -/
inductive Nested.Act (C : Type) where
  | addEntry (addr : AddrType) (cb : Option C)
  | retire (addr : AddrType)
  | ret
  deriving DecidableEq

namespace Nested

def new : Nested C := ⟨.new k, []⟩

def step (s : Nested C) : Act C → Option (Nested C)
  | .addEntry addr cb => some { s with mshr := (s.mshr.addEntry k addr cb).narrow }
  | .retire addr =>
    match s.mshr.retireBegin k addr with
    | (none, m) => some { s with mshr := m.narrow }
    | (some _, m) => some ⟨m.narrow, addr :: s.calls⟩
  | .ret =>
    match s.calls with
    | [] => none
    | addr :: calls => some ⟨(s.mshr.retireEnd k addr).narrow, calls⟩

/-- A callback is only added to an entry in use. -/
def CbInUse (s : Nested C) : Act C → Prop
  | .addEntry addr (some _) => 0 < (s.mshr.entry (k.calcEntry addr)).nUse
  | _ => True

/-- A use is only added where `nUse` is not the largest `int32_t`. -/
def Fits (s : Nested C) : Act C → Prop
  | .addEntry addr _ => (s.mshr.entry (k.calcEntry addr)).nUse ≠ 2 ^ 31 - 1
  | _ => True

instance (s : Nested C) : ∀ a, Decidable (CbInUse k s a)
  | .addEntry _ (some _) => inferInstanceAs (Decidable (_ < _))
  | .addEntry _ none => .isTrue trivial
  | .retire _ => .isTrue trivial
  | .ret => .isTrue trivial

instance (s : Nested C) : ∀ a, Decidable (Fits k s a)
  | .addEntry _ _ => inferInstanceAs (Decidable (_ ≠ _))
  | .retire _ => .isTrue trivial
  | .ret => .isTrue trivial

end Nested

/-! ## The sum -/

namespace FullMSHR

/-- The uses of all the entries. -/
def totalUse (m : FullMSHR C) : ℤ := ∑ p ∈ Finset.range k.mshrSize, (m.entry p).nUse

/-- `nFreeEntries` is what the uses leave of `nEntries`. -/
def Balanced (m : FullMSHR C) : Prop := m.nFreeEntries = int16 (k.nEntries - m.totalUse k)

/-- No entry has fewer than no use, or more than an `int32_t` holds. -/
def InRange (m : FullMSHR C) : Prop := ∀ p, 0 ≤ (m.entry p).nUse ∧ (m.entry p).nUse < 2 ^ 31

/-- Parked callbacks have a use each, and the entry one more. -/
def Covered (m : FullMSHR C) : Prop :=
  ∀ p, (m.entry p).cc ≠ [] → ((m.entry p).cc.length : ℤ) + 1 ≤ (m.entry p).nUse

variable {k}

theorem totalUse_update (f : ℤ) (g : ℕ → EntryType C) (e : EntryType C) {p : ℕ} (hp : p < k.mshrSize) :
    totalUse k ⟨f, Function.update g p e⟩ = totalUse k ⟨f, g⟩ - (g p).nUse + e.nUse := by
  have hfun : ∀ q, (Function.update g p e q).nUse = Function.update (fun q => (g q).nUse) p e.nUse q := by
    intro q
    by_cases hq : q = p
    · subst hq; simp
    · simp [hq]
  unfold totalUse
  simp only [hfun]
  rw [Finset.sum_update_of_mem (Finset.mem_range.2 hp), ← Finset.add_sum_erase _ _ (Finset.mem_range.2 hp),
    Finset.sdiff_singleton_eq_erase]
  ring

/-- The sum of what is stored differs by a multiple of `2 ^ 32`. -/
theorem int16_narrow (m : FullMSHR C) (a : ℤ) : int16 (a - m.narrow.totalUse k) = int16 (a - m.totalUse k) := by
  have hdvd : ((2 ^ 16 : ℕ) : ℤ) ∣ (a - m.narrow.totalUse k) - (a - m.totalUse k) := by
    rw [sub_sub_sub_cancel_left]
    unfold totalUse
    rw [← Finset.sum_sub_distrib]
    refine Finset.dvd_sum fun p _ => ?_
    exact (Int.natCast_dvd_natCast.2 (by decide : 2 ^ 16 ∣ 2 ^ 32)).trans Int.dvd_self_sub_bmod
  unfold int16
  rw [Int.bmod_eq_bmod_iff_bmod_sub_eq_zero]
  exact Int.bmod_eq_zero_of_dvd hdvd

theorem Balanced.narrow {m : FullMSHR C} (h : m.Balanced k) : m.narrow.Balanced k := by
  unfold Balanced
  rw [int16_narrow]
  exact h

/-- Uses move between an entry and the free ones. -/
theorem Balanced.move {m : FullMSHR C} (h : m.Balanced k) {p : ℕ} (hp : p < k.mshrSize) (d : ℤ) (cc : List C) :
    Balanced k ⟨int16 (m.nFreeEntries + d), Function.update m.entry p ⟨cc, (m.entry p).nUse - d⟩⟩ := by
  unfold Balanced
  rw [totalUse_update _ _ _ hp]
  change int16 _ = int16 (k.nEntries - (m.totalUse k - _ + _))
  rw [h]
  unfold int16
  rw [Int.bmod_add_bmod]
  congr 1
  ring

theorem Balanced.addEntry {m : FullMSHR C} (h : m.Balanced k) (addr : AddrType) (c : Option C) :
    (m.addEntry k addr c).Balanced k := by
  have hmove := h.move (k.calcEntry_lt addr) (-1) ((m.entry (k.calcEntry addr)).cc ++ c.toList)
  simpa only [FullMSHR.addEntry, sub_eq_add_neg, neg_neg] using hmove

theorem Balanced.release {m : FullMSHR C} (h : m.Balanced k) {p : ℕ} (hp : p < k.mshrSize) :
    (m.release p).Balanced k := by
  simpa only [FullMSHR.release, sub_self] using h.move hp (m.entry p).nUse (m.entry p).cc

theorem Balanced.returnUse {m : FullMSHR C} (h : m.Balanced k) {p : ℕ} (hp : p < k.mshrSize) :
    (m.returnUse p).Balanced k := h.move hp 1 (m.entry p).cc

/-- The containers have no part in the balance. -/
theorem Balanced.setCc {m : FullMSHR C} (h : m.Balanced k) {p : ℕ} (hp : p < k.mshrSize) (cc : List C) :
    Balanced k { m with entry := Function.update m.entry p { m.entry p with cc := cc } } := by
  unfold Balanced
  rw [totalUse_update _ _ _ hp, sub_add_cancel]
  exact h

theorem Balanced.retireBegin {m : FullMSHR C} (h : m.Balanced k) (addr : AddrType) :
    (m.retireBegin k addr).2.Balanced k := by
  have hp := k.calcEntry_lt addr
  unfold FullMSHR.retireBegin
  by_cases huse : (m.entry (k.calcEntry addr)).nUse = 0
  · rw [if_pos huse]; exact h
  · rw [if_neg huse]
    have hret := h.returnUse hp
    simp only
    split
    · exact hret.release hp
    · exact hret.setCc hp _

theorem Balanced.retireEnd {m : FullMSHR C} (h : m.Balanced k) (addr : AddrType) :
    (m.retireEnd k addr).Balanced k := by
  unfold FullMSHR.retireEnd
  simp only
  split
  · exact h.release (k.calcEntry_lt addr)
  · exact h

/-- With at most `2 ^ 15` uses more than there are entries, `nFreeEntries` has not wrapped, and nor
has it with fewer than `2 ^ 15` entries more than uses. -/
theorem Balanced.sum_eq_iff {m : FullMSHR C} (h : m.Balanced k) :
    m.nFreeEntries + m.totalUse k = k.nEntries ↔
      k.nEntries - 2 ^ 15 < m.totalUse k ∧ m.totalUse k ≤ k.nEntries + 2 ^ 15 := by
  rw [h]
  unfold int16
  constructor
  · intro heq
    have hlow := @Int.le_bmod (k.nEntries - m.totalUse k) (2 ^ 16) (by omega)
    have hhigh := @Int.bmod_lt (k.nEntries - m.totalUse k) (2 ^ 16) (by omega)
    omega
  · rintro ⟨hlow, hhigh⟩
    rw [Int.bmod_eq_of_le (by omega) (by omega)]
    ring

/-! ## The range of the uses -/

theorem int32_eq {x : ℤ} (h : 0 ≤ x ∧ x < 2 ^ 31) : int32 x = x := Int.bmod_eq_of_le (by omega) (by omega)

theorem InRange.narrow_eq {m : FullMSHR C} (h : m.InRange) : m.narrow = m := by
  obtain ⟨nFreeEntries, entry⟩ := m
  have hentry : (fun p => ({ entry p with nUse := int32 (entry p).nUse } : EntryType C)) = entry := by
    funext p
    rw [int32_eq (h p)]
  exact congrArg (FullMSHR.mk nFreeEntries) hentry

theorem InRange.update {m : FullMSHR C} (h : m.InRange) (f : ℤ) {p : ℕ} {e : EntryType C}
    (he : 0 ≤ e.nUse ∧ e.nUse < 2 ^ 31) : InRange ⟨f, Function.update m.entry p e⟩ := by
  intro q
  by_cases hq : q = p
  · subst hq; simpa using he
  · simpa [hq] using h q

theorem InRange.addEntry {m : FullMSHR C} (h : m.InRange) (addr : AddrType) (c : Option C)
    (hfits : (m.entry (k.calcEntry addr)).nUse ≠ 2 ^ 31 - 1) : (m.addEntry k addr c).InRange := by
  have huse := h (k.calcEntry addr)
  exact h.update _ ⟨by simp only; omega, by simp only; omega⟩

theorem InRange.release {m : FullMSHR C} (h : m.InRange) (p : ℕ) : (m.release p).InRange :=
  h.update _ ⟨le_rfl, (by decide : (0 : ℤ) < 2 ^ 31)⟩

theorem InRange.retireBegin {m : FullMSHR C} (h : m.InRange) (addr : AddrType) : (m.retireBegin k addr).2.InRange := by
  have huse := h (k.calcEntry addr)
  unfold FullMSHR.retireBegin
  by_cases hzero : (m.entry (k.calcEntry addr)).nUse = 0
  · rw [if_pos hzero]; exact h
  · rw [if_neg hzero]
    have hret : (m.returnUse (k.calcEntry addr)).InRange := h.update _ ⟨by simp only; omega, by simp only; omega⟩
    simp only
    split
    · exact hret.release _
    · exact hret.update _ (hret (k.calcEntry addr))

theorem InRange.retireEnd {m : FullMSHR C} (h : m.InRange) (addr : AddrType) : (m.retireEnd k addr).InRange := by
  unfold FullMSHR.retireEnd
  simp only
  split
  · exact h.release _
  · exact h

/-! ## Parked callbacks -/

theorem Covered.update {m : FullMSHR C} (h : m.Covered) (f : ℤ) {p : ℕ} {e : EntryType C}
    (he : e.cc ≠ [] → (e.cc.length : ℤ) + 1 ≤ e.nUse) : Covered ⟨f, Function.update m.entry p e⟩ := by
  intro q
  by_cases hq : q = p
  · subst hq; simpa using he
  · simpa [hq] using h q

theorem Covered.addEntry {m : FullMSHR C} (h : m.Covered) (addr : AddrType) {c : Option C}
    (huse : c ≠ none → 0 < (m.entry (k.calcEntry addr)).nUse) : (m.addEntry k addr c).Covered := by
  have hc := h (k.calcEntry addr)
  apply h.update
  cases c with
  | none =>
    simp only [Option.toList_none, List.append_nil]
    intro hne
    have := hc hne
    omega
  | some cb =>
    have huse := huse (by simp)
    intro _
    rw [Option.toList_some, List.length_append, List.length_singleton]
    by_cases hnil : (m.entry (k.calcEntry addr)).cc = []
    · rw [hnil, List.length_nil]; push_cast; omega
    · have := hc hnil
      push_cast
      omega

theorem Covered.retireBegin {m : FullMSHR C} (h : m.Covered) (addr : AddrType) :
    (m.retireBegin k addr).2.Covered := by
  unfold FullMSHR.retireBegin
  by_cases huse : (m.entry (k.calcEntry addr)).nUse = 0
  · rw [if_pos huse]; exact h
  · rw [if_neg huse]
    have hcc : ((m.returnUse (k.calcEntry addr)).entry (k.calcEntry addr)).cc = (m.entry (k.calcEntry addr)).cc := by
      simp [FullMSHR.returnUse]
    have hrest : ∀ p ≠ k.calcEntry addr, (m.returnUse (k.calcEntry addr)).entry p = m.entry p := by
      intro p hp
      simp [FullMSHR.returnUse, hp]
    simp only [hcc]
    split
    · rename_i hnil
      intro p
      by_cases hp : p = k.calcEntry addr
      · subst hp; simp [FullMSHR.release, hcc, hnil]
      · simpa [FullMSHR.release, hp, hrest p hp] using h p
    · rename_i cb cc hcons
      intro p
      by_cases hp : p = k.calcEntry addr
      · -- The use returned is the one of the callback that left.
        subst hp
        have := h (k.calcEntry addr) (by rw [hcons]; simp)
        rw [hcons] at this
        simp only [List.length_cons, Nat.cast_add, Nat.cast_one] at this
        simp only [Function.update_self, FullMSHR.returnUse]
        intro _
        omega
      · simpa [hp, hrest p hp] using h p

theorem Covered.retireEnd {m : FullMSHR C} (h : m.Covered) (addr : AddrType) : (m.retireEnd k addr).Covered := by
  unfold FullMSHR.retireEnd
  simp only
  split
  · rename_i hnil
    exact h.update _ (by simp [hnil])
  · exact h

end FullMSHR

/-! ## Runs -/

namespace Nested

open FullMSHR

variable {k}

theorem new_balanced : (new k : Nested C).mshr.Balanced k := by
  have hlt : k.nEntries < 2 ^ 15 := by
    have := k.size_lt
    unfold MSHRConfig.nEntries
    omega
  have hpos : 0 ≤ k.nEntries := Int.natCast_nonneg _
  have h0 : (FullMSHR.new k : FullMSHR C).totalUse k = 0 := by simp [totalUse, FullMSHR.new]
  change k.nEntries = int16 (k.nEntries - (FullMSHR.new k : FullMSHR C).totalUse k)
  rw [h0, sub_zero]
  unfold int16
  rw [Int.bmod_eq_of_le (by omega) (by omega)]

/-- **What a step does** to the registers: one of the operations, and the uses are stored. -/
theorem step_mshr {s s' : Nested C} {a : Act C} (h : step k s a = some s') :
    ∃ m : FullMSHR C, s'.mshr = m.narrow ∧
      ((∃ addr cb, a = .addEntry addr cb ∧ m = s.mshr.addEntry k addr cb) ∨
        (∃ addr, a = .retire addr ∧ m = (s.mshr.retireBegin k addr).2) ∨
        ∃ addr, a = .ret ∧ m = s.mshr.retireEnd k addr) := by
  cases a with
  | addEntry addr cb =>
    obtain rfl : _ = s' := by simpa only [step, Option.some.injEq] using h
    exact ⟨_, rfl, .inl ⟨addr, cb, rfl, rfl⟩⟩
  | retire addr =>
    refine ⟨_, ?_, .inr (.inl ⟨addr, rfl, rfl⟩)⟩
    simp only [step] at h
    split at h <;> rename_i heq <;> rw [heq] <;> cases h <;> rfl
  | ret =>
    simp only [step] at h
    split at h
    · cases h
    · rename_i addr calls _
      cases h
      exact ⟨_, rfl, .inr (.inr ⟨addr, rfl, rfl⟩)⟩

theorem step_balanced (s : Nested C) (a : Act C) (s' : Nested C) (h : step k s a = some s')
    (hb : s.mshr.Balanced k) : s'.mshr.Balanced k := by
  obtain ⟨m, hm, ⟨addr, cb, -, rfl⟩ | ⟨addr, -, rfl⟩ | ⟨addr, -, rfl⟩⟩ := step_mshr h
  · exact hm ▸ (hb.addEntry addr cb).narrow
  · exact hm ▸ (hb.retireBegin addr).narrow
  · exact hm ▸ (hb.retireEnd addr).narrow

/-- As long as the uses fit, they stay in their range. -/
theorem step_inRange (s : Nested C) (a : Act C) (s' : Nested C) (h : step k s a = some s') (hfits : Fits k s a)
    (hr : s.mshr.InRange) : s'.mshr.InRange := by
  obtain ⟨m, hm, ⟨addr, cb, rfl, rfl⟩ | ⟨addr, -, rfl⟩ | ⟨addr, -, rfl⟩⟩ := step_mshr h
  · have hadd := hr.addEntry addr cb hfits
    rwa [hm, hadd.narrow_eq]
  · have hret := hr.retireBegin (k := k) addr
    rwa [hm, hret.narrow_eq]
  · have hret := hr.retireEnd (k := k) addr
    rwa [hm, hret.narrow_eq]

/-- A use too many makes `nUse` negative. -/
theorem not_nonneg_of_not_fits {s s' : Nested C} {a : Act C} (h : step k s a = some s') (hfits : ¬Fits k s a) :
    ∃ p, (s'.mshr.entry p).nUse < 0 := by
  cases a with
  | addEntry addr cb =>
    have huse : (s.mshr.entry (k.calcEntry addr)).nUse = 2 ^ 31 - 1 := not_not.1 hfits
    obtain rfl : _ = s' := by simpa only [step, Option.some.injEq] using h
    refine ⟨k.calcEntry addr, ?_⟩
    simp only [FullMSHR.narrow, FullMSHR.addEntry, Function.update_self, huse]
    decide
  | retire addr => exact absurd trivial hfits
  | ret => exact absurd trivial hfits

/-- The uses are in their range, and cover the parked callbacks. -/
structure Sound (s : Nested C) : Prop where
  inRange : s.mshr.InRange
  covered : s.mshr.Covered

/-- **One step.** -/
theorem Sound.step (s : Nested C) (a : Act C) (s' : Nested C) (h : step k s a = some s')
    (hP : Fits k s a ∧ CbInUse k s a) (hs : s.Sound) : s'.Sound := by
  obtain ⟨hr, hc⟩ := hs
  refine ⟨step_inRange s a s' h hP.1 hr, ?_⟩
  obtain ⟨m, hm, ⟨addr, cb, rfl, rfl⟩ | ⟨addr, -, rfl⟩ | ⟨addr, -, rfl⟩⟩ := step_mshr h
  · rw [hm, (hr.addEntry addr cb hP.1).narrow_eq]
    refine hc.addEntry addr fun hne => ?_
    obtain ⟨c, rfl⟩ := Option.ne_none_iff_exists'.1 hne
    exact hP.2
  · rw [hm, (hr.retireBegin addr).narrow_eq]
    exact hc.retireBegin addr
  · rw [hm, (hr.retireEnd addr).narrow_eq]
    exact hc.retireEnd addr

theorem run_balanced {acts : List (Act C)} {s : Nested C} (h : run (step k) (new k) acts = some s) :
    s.mshr.Balanced k :=
  run_inv (I := fun s => s.mshr.Balanced k) step_balanced h new_balanced

theorem new_inRange : (new k : Nested C).mshr.InRange := fun _ =>
  ⟨le_rfl, (by decide : (0 : ℤ) < 2 ^ 31)⟩

theorem new_sound : (new k : Nested C).Sound := ⟨new_inRange, fun _ hp => absurd rfl hp⟩

/-- **The accounting of `FullMSHR`**, in every state that calls made from outside or from
a running callback can reach. The free entries and the uses add up to `nEntries` exactly
in the states whose uses are within `2 ^ 15` of it. No `nUse` is negative in a run exactly when
none is incremented from `2 ^ 31 - 1`, and in such a run parked callbacks are covered. -/
theorem fullMSHR_accounting {acts : List (Act C)} {s : Nested C} (h : run (step k) (new k) acts = some s) :
    (s.mshr.nFreeEntries + s.mshr.totalUse k = k.nEntries ↔
        k.nEntries - 2 ^ 15 < s.mshr.totalUse k ∧ s.mshr.totalUse k ≤ k.nEntries + 2 ^ 15) ∧
      ((∀ as t, as <+: acts → run (step k) (new k) as = some t → ∀ p, 0 ≤ (t.mshr.entry p).nUse) ↔
        Along (step k) (Fits k) (new k) acts) ∧
      (Along (step k) (fun s a => Fits k s a ∧ CbInUse k s a) (new k) acts → ∀ p, (s.mshr.entry p).cc ≠ [] →
        ((s.mshr.entry p).cc.length : ℤ) + 1 ≤ (s.mshr.entry p).nUse) := by
  refine ⟨(run_balanced h).sum_eq_iff, ?_, fun hP => (run_inv_along Sound.step h hP new_sound).covered⟩
  have hD : Along (step k) (fun (_ : Nested C) (_ : Act C) => True) (new k) acts :=
    Along.of_forall (fun _ _ => trivial) _ _
  refine forall_prefix_iff_along (I := fun t => t.mshr.InRange) (fun t ht p => (ht p).1)
    (fun t a t' ht _ hfits => step_inRange t a t' ht hfits) ?_ h hD new_inRange
  intro t a t' ht _ hfits _ hnonneg
  obtain ⟨p, hp⟩ := not_nonneg_of_not_fits ht hfits
  exact absurd (hnonneg p) (not_le.2 hp)

/-- A one-entry register file for lines of 64 bytes. -/
def oneEntry : MSHRConfig := ⟨1, 64, 8, by decide, by decide⟩

/-- A miss, a second one parked behind it, and the fill of the first, whose callback
misses again and returns. -/
def refill : List (Act Unit) := [.addEntry 64 none, .addEntry 64 (some ()), .retire 64, .addEntry 64 none]

/-- The running callback of `refill` has taken a use, and the sum is right. -/
theorem fullMSHR_accounting_refill :
    ∃ s, run (step oneEntry) (new oneEntry) refill = some s ∧ s.calls = [64] ∧
      s.mshr.nFreeEntries + s.mshr.totalUse oneEntry = oneEntry.nEntries ∧
      (∀ p, 0 ≤ (s.mshr.entry p).nUse) ∧
      (∀ p, (s.mshr.entry p).cc ≠ [] → ((s.mshr.entry p).cc.length : ℤ) + 1 ≤ (s.mshr.entry p).nUse) := by
  have hrun : ∃ s, run (step oneEntry) (new oneEntry) refill = some s := Option.isSome_iff_exists.1 (by decide)
  obtain ⟨s, hs⟩ := hrun
  have hcalls : (run (step oneEntry) (new oneEntry) refill).map (·.calls) = some [64] := by decide
  have htot : (run (step oneEntry) (new oneEntry) refill).map (·.mshr.totalUse oneEntry) = some 2 := by decide
  have hfits : Along (step oneEntry) (Fits oneEntry) (new oneEntry) refill := by decide
  have huse : Along (step oneEntry) (fun s a => Fits oneEntry s a ∧ CbInUse oneEntry s a) (new oneEntry) refill := by decide
  rw [hs, Option.map_some, Option.some.injEq] at hcalls htot
  obtain ⟨hsum, hnonneg, hcov⟩ := fullMSHR_accounting hs
  exact ⟨s, hs, hcalls, hsum.2 (by rw [htot]; decide), hnonneg.2 hfits refill s List.prefix_rfl hs, hcov huse⟩

/-- Misses of one line, and nothing else. -/
theorem run_addEntries (addr : AddrType) (n : ℕ) :
    ∃ s : Nested C, run (step k) (new k) (List.replicate n (.addEntry addr none)) = some s ∧
      ∀ p, (s.mshr.entry p).nUse = if p = k.calcEntry addr then int32 n else 0 := by
  induction n with
  | zero =>
    refine ⟨new k, rfl, fun p => ?_⟩
    change (0 : ℤ) = _
    split <;> rfl
  | succ n ih =>
    obtain ⟨s, hrun, huse⟩ := ih
    refine ⟨{ s with mshr := (s.mshr.addEntry k addr none).narrow }, ?_, fun p => ?_⟩
    · rw [List.replicate_succ', run_append, hrun]
      rfl
    · have hp := huse p
      by_cases hpos : p = k.calcEntry addr
      · subst hpos
        rw [if_pos rfl] at hp ⊢
        simp only [FullMSHR.narrow, FullMSHR.addEntry, Function.update_self, hp]
        exact Int.bmod_add_bmod
      · rw [if_neg hpos] at hp ⊢
        simp only [FullMSHR.narrow, FullMSHR.addEntry, Function.update_of_ne hpos, hp]
        rfl

/-- After 32770 misses of one line `nFreeEntries` has wrapped, and after `2 ^ 31` its `nUse`. -/
theorem fullMSHR_accounting_wraps :
    (∃ s : Nested Unit, run (step oneEntry) (new oneEntry) (List.replicate 32770 (.addEntry 64 none)) = some s ∧
      s.mshr.nFreeEntries + s.mshr.totalUse oneEntry ≠ oneEntry.nEntries) ∧
    ∃ s : Nested Unit, run (step oneEntry) (new oneEntry) (List.replicate (2 ^ 31) (.addEntry 64 none)) = some s ∧
      (s.mshr.entry (oneEntry.calcEntry 64)).nUse < 0 := by
  constructor
  · obtain ⟨s, hrun, huse⟩ := run_addEntries (C := Unit) (k := oneEntry) 64 32770
    have htot : s.mshr.totalUse oneEntry = 32770 := by
      unfold totalUse
      simp only [huse]
      rw [Finset.sum_ite_eq', if_pos (Finset.mem_range.2 (oneEntry.calcEntry_lt 64))]
      decide
    refine ⟨s, hrun, ?_⟩
    rw [Ne, (run_balanced hrun).sum_eq_iff, htot]
    decide
  · obtain ⟨s, hrun, huse⟩ := run_addEntries (C := Unit) (k := oneEntry) 64 (2 ^ 31)
    refine ⟨s, hrun, ?_⟩
    rw [huse, if_pos rfl]
    decide

end Nested

end Esesc.Mem
