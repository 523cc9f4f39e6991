import Esesc.Core.StreamPrefetcher
import Esesc.Lib.Slots

/-!
# The miss registers of the access map prefetcher

Registers for demand misses and registers for prefetches. Both are assigned in turn and released when
the cache has the block; those for prefetches have a mark as well, whether the prefetch was issued.

* `Hit_iff`: an entry hits for the addresses of its block, and address 0 hits always.
* `run_Housekeeping`, `run_Issue`, `run_PrefetchHousekeeping`: what the operations do to entries is a
  lawful history of slots, each with the block of a request.
-/

namespace Esesc.Core

open Esesc.Lib

def MSHR_SIZE : ℕ := 16

def PREF_MSHR_SIZE : ℕ := 32

instance : NeZero MSHR_SIZE := ⟨by decide⟩

instance : NeZero PREF_MSHR_SIZE := ⟨by decide⟩

/-- An entry, with the mark `ε` that is particular to a kind of registers. -/
structure MSHREntry (ε : Type) where
  Valid : Bool
  Mark : ε
  Addr : BitVec 64
  deriving DecidableEq

namespace MSHREntry

variable {ε : Type}

/-- An entry that is free. -/
def Init (mark : ε) : MSHREntry ε where
  Valid := false
  Mark := mark
  Addr := 0

def Hit (e : MSHREntry ε) (addr : BitVec 64) : Bool :=
  if addr = 0 then true else e.Valid && (addr ^^^ e.Addr) &&& ~~~BLK_MASK == 0

/-- An entry that is assigned. -/
def Entry (mark : ε) (addr : BitVec 64) : MSHREntry ε where
  Valid := true
  Mark := mark
  Addr := addr

/-- The entry is free once the cache has the block: `extra` is what the cache says about addresses. -/
def Housekeeping (extra : BitVec 64 → ℤ) (e : MSHREntry ε) : MSHREntry ε :=
  if extra e.Addr ≥ 0 then { e with Valid := false } else e

end MSHREntry

/-- `n` registers, and which of them is assigned next. -/
structure MSHRegisters (n : ℕ) (ε : Type) where
  ptr : Fin n
  mshr : Fin n → MSHREntry ε

/-- Registers for demand misses. -/
abbrev MissStatusHandlingRegister := MSHRegisters MSHR_SIZE Unit

/-- Registers for prefetches, marked when they were issued. -/
abbrev PrefetchMissStatusHandlingRegister := MSHRegisters PREF_MSHR_SIZE Bool

/-- What was done with an entry, in terms of the number of its block. -/
abbrev MSHRAct (n : ℕ) := SlotAct (Fin n) ℕ

namespace MSHRegisters

variable {n : ℕ} {ε : Type}

def init [NeZero n] (mark : ε) : MSHRegisters n ε where
  ptr := 0
  mshr := fun _ => .Init mark

def Search (r : MSHRegisters n ε) (addr : BitVec 64) : Bool := (List.finRange n).any fun i => (r.mshr i).Hit addr

/-- An access that is not found gets the next entry. -/
def Issue [NeZero n] (r : MSHRegisters n ε) (mark : ε) (extra : BitVec 64 → ℤ) (addr : BitVec 64) :
    MSHRegisters n ε × List (MSHRAct n) :=
  if r.Search addr then (r, [])
  else
    let e := MSHREntry.Entry mark addr
    let acts := .assign r.ptr (block addr) :: if extra addr ≥ 0 then [.release r.ptr] else []
    ({ ptr := r.ptr + 1, mshr := Function.update r.mshr r.ptr (e.Housekeeping extra) }, acts)

/-- The entries whose blocks are in the cache. -/
def filledEntries (r : MSHRegisters n ε) (extra : BitVec 64 → ℤ) : List (Fin n) :=
  (List.finRange n).filter fun i => (r.mshr i).Valid && decide (extra (r.mshr i).Addr ≥ 0)

def Housekeeping (r : MSHRegisters n ε) (extra : BitVec 64 → ℤ) : MSHRegisters n ε × List (MSHRAct n) :=
  ({ r with mshr := fun i => if (r.mshr i).Valid then (r.mshr i).Housekeeping extra else r.mshr i },
    (r.filledEntries extra).map .release)

/-- The prefetch registers are full when the next entry is not free. -/
def Full (r : PrefetchMissStatusHandlingRegister) : Bool := (r.mshr r.ptr).Valid

/-- The entry that is issued next, from the oldest one on. -/
def waiting (r : PrefetchMissStatusHandlingRegister) : Option (Fin PREF_MSHR_SIZE) :=
  ((List.finRange PREF_MSHR_SIZE).map fun i => r.ptr + i + 1).find? fun p => (r.mshr p).Valid && !(r.mshr p).Mark

/-- One entry is issued, or given up because of a demand miss. An entry is issued without a prefetch if the cache
has its block. -/
def PrefetchHousekeeping (r : PrefetchMissStatusHandlingRegister) (MSHR : MissStatusHandlingRegister)
    (extra : BitVec 64 → ℤ) : PrefetchMissStatusHandlingRegister × List (MSHRAct PREF_MSHR_SIZE) :=
  match r.waiting with
  | none => (r, [])
  | some p =>
    if MSHR.Search (r.mshr p).Addr then
      ({ r with mshr := Function.update r.mshr p (.Init false) }, [.release p])
    else
      ({ r with mshr := Function.update r.mshr p { r.mshr p with Mark := true } },
        [.issue p (decide (extra (r.mshr p).Addr < 0))])

/-! ## Blocks that are found -/

theorem block_xor {a b : BitVec 64} : (a ^^^ b) &&& ~~~BLK_MASK = 0 ↔ block a = block b := by
  have hzero : (a ^^^ b) &&& ~~~BLK_MASK = 0 ↔ block (a ^^^ b) = 0 := by
    rw [← BitVec.toNat_inj, toNat_and_not_mask, block_eq]
    show _ * 64 = 0 ↔ _
    omega
  have hxor : block (a ^^^ b) = ((a >>> BLK_BITS) ^^^ (b >>> BLK_BITS)).toNat := by
    rw [block, BitVec.ushiftRight_xor_distrib]
  rw [hzero, hxor, block, block, BitVec.toNat_inj, ← BitVec.xor_eq_zero_iff, ← BitVec.toNat_inj]
  rfl

/-- **Hits.** -/
theorem Hit_iff {e : MSHREntry ε} {addr : BitVec 64} :
    e.Hit addr = true ↔ addr = 0 ∨ (e.Valid = true ∧ block addr = block e.Addr) := by
  rw [MSHREntry.Hit]
  split
  · next h => exact ⟨fun _ => Or.inl h, fun _ => rfl⟩
  · next h => rw [Bool.and_eq_true, beq_iff_eq, block_xor, or_iff_right h]

theorem Search_iff [NeZero n] {r : MSHRegisters n ε} {addr : BitVec 64} :
    r.Search addr = true ↔ addr = 0 ∨ ∃ i, (r.mshr i).Valid = true ∧ block addr = block (r.mshr i).Addr := by
  rw [Search, List.any_eq_true]
  constructor
  · rintro ⟨i, -, hi⟩
    rcases Hit_iff.1 hi with h | h
    · exact Or.inl h
    · exact Or.inr ⟨i, h⟩
  · rintro (h | ⟨i, hi⟩)
    · exact ⟨0, List.mem_finRange 0, Hit_iff.2 (Or.inl h)⟩
    · exact ⟨i, List.mem_finRange i, Hit_iff.2 (Or.inr hi)⟩

/-! ## Entries as slots -/

section View

variable [NeZero n] {r : MSHRegisters n Bool} {extra : BitVec 64 → ℤ} {addr : BitVec 64}

/-- The requests of the entries, by their blocks. -/
def view (r : MSHRegisters n Bool) : Slots (Fin n) ℕ := fun i =>
  if (r.mshr i).Valid then some (block (r.mshr i).Addr, (r.mshr i).Mark) else none

omit [NeZero n] in
theorem key_view (r : MSHRegisters n Bool) (i : Fin n) :
    r.view.key i = if (r.mshr i).Valid then some (block (r.mshr i).Addr) else none := by
  rw [Slots.key, view]
  split <;> rfl

omit [NeZero n] in
/-- **Releases.** -/
theorem run_Housekeeping (r : MSHRegisters n Bool) (extra : BitVec 64 → ℤ) :
    run Slots.step r.view (r.Housekeeping extra).2 = some (r.Housekeeping extra).1.view := by
  have hnodup : (r.filledEntries extra).Nodup := (List.nodup_finRange n).filter _
  have hmem : ∀ i, i ∈ r.filledEntries extra ↔ (r.mshr i).Valid = true ∧ extra (r.mshr i).Addr ≥ 0 := by
    intro i
    simp [filledEntries]
  have hsome : ∀ i ∈ r.filledEntries extra, (r.view i).isSome = true := by
    intro i hi
    rw [view, if_pos ((hmem i).1 hi).1]
    rfl
  rw [Housekeeping, Slots.run_release hnodup hsome]
  refine congrArg some (funext fun i => ?_)
  simp only [view, hmem, MSHREntry.Housekeeping]
  by_cases hv : (r.mshr i).Valid = true
  · by_cases hx : extra (r.mshr i).Addr ≥ 0
    · simp [hv, hx]
    · simp [hv, hx]
  · simp [hv]

/-- **Assignments.** If the next entry is free, a request that is not found gets it. -/
theorem run_Issue (hfree : (r.mshr r.ptr).Valid = false) (extra : BitVec 64 → ℤ) (addr : BitVec 64) :
    run Slots.step r.view (r.Issue false extra addr).2 = some (r.Issue false extra addr).1.view := by
  rw [Issue]
  split
  · rfl
  · next hs =>
    have hslot : r.view r.ptr = none := by rw [view, hfree]; rfl
    have hnew : ∀ j, r.view.key j ≠ some (block addr) := by
      intro j hj
      rw [key_view] at hj
      split at hj
      · next hv => exact hs (Search_iff.2 (Or.inr ⟨j, hv, (Option.some.inj hj).symm⟩))
      · cases hj
    rw [run, Slots.step_assign hslot hnew, Option.bind_some]
    have hother : ∀ (e : MSHREntry Bool) i, i ≠ r.ptr →
        view ⟨r.ptr + 1, Function.update r.mshr r.ptr e⟩ i = r.view i := by
      intro e i hi
      simp only [view, Function.update_of_ne hi]
    by_cases hx : extra addr ≥ 0
    · rw [if_pos hx, run, Slots.step_release (by rw [Function.update_self]; rfl), Option.bind_some]
      refine congrArg some (funext fun i => ?_)
      by_cases hi : i = r.ptr
      · simp [hi, view, MSHREntry.Housekeeping, MSHREntry.Entry, hx]
      · rw [hother _ i hi, Function.update_of_ne hi, Function.update_of_ne hi]
    · rw [if_neg hx]
      refine congrArg some (funext fun i => ?_)
      by_cases hi : i = r.ptr
      · simp [hi, view, MSHREntry.Housekeeping, MSHREntry.Entry, hx]
      · rw [hother _ i hi, Function.update_of_ne hi]

end View

/-- **Issues.** -/
theorem run_PrefetchHousekeeping (r : PrefetchMissStatusHandlingRegister) (MSHR : MissStatusHandlingRegister)
    (extra : BitVec 64 → ℤ) : run Slots.step r.view (r.PrefetchHousekeeping MSHR extra).2 =
      some (r.PrefetchHousekeeping MSHR extra).1.view := by
  rw [PrefetchHousekeeping]
  cases hw : r.waiting with
  | none => rfl
  | some p =>
    have hp : (r.mshr p).Valid = true ∧ (r.mshr p).Mark = false := by
      have := List.find?_some hw
      simpa using this
    have hslot : r.view p = some (block (r.mshr p).Addr, false) := by rw [view, if_pos hp.1, hp.2]
    have hother : ∀ (e : MSHREntry Bool) i, i ≠ p →
        view { r with mshr := Function.update r.mshr p e } i = r.view i := by
      intro e i hi
      simp only [view, Function.update_of_ne hi]
    simp only
    split
    · rw [run, Slots.step_release (by rw [hslot]; rfl)]
      refine congrArg some (funext fun i => ?_)
      by_cases hi : i = p
      · simp [hi, view, MSHREntry.Init]
      · rw [hother _ i hi, Function.update_of_ne hi]
    · rw [run, Slots.step_issue _ hslot]
      refine congrArg some (funext fun i => ?_)
      by_cases hi : i = p
      · simp [hi, view, hp.1]
      · rw [hother _ i hi, Function.update_of_ne hi]

end MSHRegisters

end Esesc.Core
