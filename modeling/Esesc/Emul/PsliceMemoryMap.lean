import Mathlib.Data.BitVec
import Mathlib.Logic.Function.Basic
import Mathlib.Tactic.Common
import Mathlib.Data.List.Induction

/-!
# The memory map of the slices

`PsliceMemoryMap` keeps, for each iteration of a delinquent load, the data seen at each address.
Iterations are numbered from 1. A read wants the most recent data at or before an iteration, but its
loop goes on to later iterations.

* `insertAll_get`: what the map holds is what was inserted last.
* `search_eq_nearest`: the loop finds the nearest iteration from the one asked for on.
* `getData_right_iff`: the reads that return the data wanted.
-/

namespace Esesc.Emul

def INT_MAX : ℕ := 2 ^ 31 - 1

/-- One iteration, from `AddrType` to `DataType`. -/
abbrev IterationMap := BitVec 64 → Option (BitVec 64)

/-- How a read ends. It can exit with an error, leave the vector or overflow its counter, return a
random value, or return data. -/
inductive Outcome where
  | exits
  | fault
  | random
  | value (v : BitVec 32)
  deriving DecidableEq

namespace PsliceMemoryMap

def resize (memap : List IterationMap) (newSize : ℕ) : List IterationMap :=
  memap.take newSize ++ List.replicate (newSize - memap.length) fun _ => none

/-- The constructor. -/
def new (iterationCount : ℕ) : List IterationMap := resize [] iterationCount

/-- There is no map after it when it exits, or writes outside of the vector. -/
def insertValue (memap : List IterationMap) (iter addr data : BitVec 32) : Option (List IterationMap) :=
  if memap.length < iter.toNat then none
  else if (iter - 1).toNat < memap.length then
    some (memap.modify (iter - 1).toNat fun f => Function.update f (addr.setWidth 64) (some (data.setWidth 64)))
  else none

/-- The loop of `getData` at `i`, over the iterations from there on. -/
def search (addr : BitVec 32) : List IterationMap → ℕ → Outcome
  | [], _ => .fault
  | f :: fs, i =>
    match f (addr.setWidth 64) with
    | some data => .value (data.setWidth 32)
    | none => if i = INT_MAX then .fault else search addr fs (i + 1)

/-- The counter of the loop is an `int`: it is negative for iteration 0 and from `2^31 + 1` on. -/
def getData (memap : List IterationMap) (iter addr : BitVec 32) : Outcome :=
  if memap.length < iter.toNat then .exits
  else if 0 ≤ (iter - 1).toInt then search addr (memap.drop (iter - 1).toNat) (iter - 1).toNat
  else .random

end PsliceMemoryMap

/-! ## What was inserted -/

structure Insertion where
  iter : BitVec 32
  addr : BitVec 32
  data : BitVec 32

/-- All calls of `insertValue`, as long as the program runs. -/
def insertAll (n : ℕ) (calls : List Insertion) : Option (List IterationMap) :=
  calls.foldl (fun m c => m.bind fun memap => PsliceMemoryMap.insertValue memap c.iter c.addr c.data)
    (some (PsliceMemoryMap.new n))

/-- The data inserted last for an address at an iteration. -/
def dataAt (calls : List Insertion) (iter addr : BitVec 32) : Option (BitVec 32) :=
  (calls.filter fun c => c.iter = iter ∧ c.addr = addr).getLast?.map Insertion.data

/-- The data at the largest iteration, not larger than the one given, that has any. -/
def Recent (calls : List Insertion) (iter addr v : BitVec 32) : Prop :=
  ∃ j, j ≤ iter ∧ dataAt calls j addr = some v ∧ ∀ k, j < k → k ≤ iter → dataAt calls k addr = none

/-- **A read is right** if it ends inside of the vector and returns the data wanted, if there is any. -/
structure ReadRight (calls : List Insertion) (iter addr : BitVec 32) (o : Outcome) : Prop where
  inside : o ≠ .fault ∧ o ≠ .exits
  recent : ∀ v, Recent calls iter addr v → o = .value v

/-- The nearest iteration, from the one given on and up to `2^31`, that has data for an address. -/
def Nearest (calls : List Insertion) (iter addr w : BitVec 32) : Prop :=
  ∃ k, iter ≤ k ∧ k.toNat ≤ 2 ^ 31 ∧ dataAt calls k addr = some w ∧ ∀ q, iter ≤ q → q < k → dataAt calls q addr = none

/-- **When a read is right.** For the iterations that the counter of the loop can hold there is data
from the iteration on, and the nearest is the same as the most recent data, if there is any. For the
others there is no data to return. -/
def Readable (calls : List Insertion) (iter addr : BitVec 32) : Prop :=
  if 1 ≤ iter.toNat ∧ iter.toNat ≤ 2 ^ 31 then
    ∃ w, Nearest calls iter addr w ∧ ∀ v, Recent calls iter addr v → v = w
  else ∀ v, ¬Recent calls iter addr v

variable {n : ℕ} {calls : List Insertion} {c : Insertion} {m m' : List IterationMap} {iter addr : BitVec 32}

/-! ## The map -/

theorem index_inj {a b : BitVec 32} : (a - 1).toNat = (b - 1).toNat ↔ a = b := by
  constructor
  · intro h
    exact sub_left_injective (BitVec.eq_of_toNat_eq h)
  · rintro rfl
    rfl

theorem dataAt_concat : dataAt (calls ++ [c]) iter addr =
    if c.iter = iter ∧ c.addr = addr then some c.data else dataAt calls iter addr := by
  unfold dataAt
  rw [List.filter_append]
  by_cases h : c.iter = iter ∧ c.addr = addr
  · simp [h]
  · simp [h]

theorem insertAll_concat : insertAll n (calls ++ [c]) =
    (insertAll n calls).bind fun memap => PsliceMemoryMap.insertValue memap c.iter c.addr c.data := by
  unfold insertAll
  rw [List.foldl_append]
  rfl

theorem insertValue_eq_some (h : PsliceMemoryMap.insertValue m c.iter c.addr c.data = some m') :
    (c.iter - 1).toNat < m.length ∧ m' = m.modify (c.iter - 1).toNat
      fun f => Function.update f (c.addr.setWidth 64) (some (c.data.setWidth 64)) := by
  unfold PsliceMemoryMap.insertValue at h
  split at h
  · cases h
  · split at h
    · rename_i hlt
      exact ⟨hlt, (Option.some.inj h).symm⟩
    · cases h

theorem setWidth_inj {a b : BitVec 32} : a.setWidth 64 = b.setWidth 64 ↔ a = b := by
  constructor
  · intro h
    have hnat := congrArg BitVec.toNat h
    rw [BitVec.toNat_setWidth, BitVec.toNat_setWidth] at hnat
    apply BitVec.eq_of_toNat_eq
    have ha := a.isLt
    have hb := b.isLt
    omega
  · rintro rfl
    rfl

theorem setWidth_setWidth (a : BitVec 32) : (a.setWidth 64).setWidth 32 = a := by
  simp

/-- **What the map holds**: at each iteration and address the data inserted last, and nothing outside
of the vector. -/
theorem insertAll_get (h : insertAll n calls = some m) : m.length = n ∧ ∀ j a : BitVec 32,
    (m[(j - 1).toNat]?.bind fun f => f (a.setWidth 64)) = (dataAt calls j a).map (BitVec.setWidth 64) := by
  induction calls using List.reverseRecOn generalizing m with
  | nil =>
    have hm : m = List.replicate n fun _ => none := by
      have hnew : PsliceMemoryMap.new n = m := Option.some.inj h
      rw [← hnew]
      simp [PsliceMemoryMap.new, PsliceMemoryMap.resize]
    subst hm
    refine ⟨List.length_replicate, fun j a => ?_⟩
    rw [List.getElem?_replicate]
    split <;> rfl
  | append_singleton calls c ih =>
    rw [insertAll_concat] at h
    obtain ⟨m', hm', hins⟩ := Option.bind_eq_some_iff.1 h
    obtain ⟨hlen, hget⟩ := ih hm'
    obtain ⟨hlt, rfl⟩ := insertValue_eq_some hins
    refine ⟨by rw [List.length_modify, hlen], fun j a => ?_⟩
    rw [dataAt_concat, List.getElem?_modify]
    by_cases hj : c.iter = j
    · subst hj
      have hsome : m'[(c.iter - 1).toNat]? = some m'[(c.iter - 1).toNat] := List.getElem?_eq_getElem hlt
      have hold := hget c.iter a
      rw [hsome] at hold ⊢
      simp only [Option.map_eq_map, Option.bind_some, Option.map_some, if_true, true_and] at hold ⊢
      rw [Function.update_apply]
      by_cases ha : c.addr = a
      · simp [ha]
      · have hne : ¬a.setWidth 64 = c.addr.setWidth 64 := fun e => ha (setWidth_inj.1 e).symm
        rw [if_neg hne, if_neg ha]
        exact hold
    · have hne : ¬(c.iter - 1).toNat = (j - 1).toNat := fun e => hj (index_inj.1 e)
      simp only [hne, hj, if_false, false_and, id_map']
      exact hget j a

/-! ## The loop -/

/-- The loop finds the first place that has data, before its counter overflows. -/
theorem search_eq_value {l : List IterationMap} {i : ℕ} {w : BitVec 32} (hi : i ≤ INT_MAX) :
    PsliceMemoryMap.search addr l i = .value w ↔
      ∃ k, ((l[k]?.bind fun f => f (addr.setWidth 64)).map (BitVec.setWidth 32)) = some w ∧ i + k ≤ INT_MAX ∧
        ∀ q, q < k → (l[q]?.bind fun f => f (addr.setWidth 64)) = none := by
  induction l generalizing i with
  | nil => simp [PsliceMemoryMap.search]
  | cons f l ih =>
    unfold PsliceMemoryMap.search
    cases hf : f (addr.setWidth 64) with
    | some d =>
      constructor
      · intro h
        refine ⟨0, ?_, hi, fun q hq => absurd hq (Nat.not_lt_zero q)⟩
        simpa [hf] using h
      · rintro ⟨k, hk, -, hbefore⟩
        cases k with
        | zero => simpa [hf] using hk
        | succ k =>
          have hnone := hbefore 0 (Nat.succ_pos k)
          simp [hf] at hnone
    | none =>
      have hzero : (((f :: l)[0]?).bind fun f => f (addr.setWidth 64)) = none := by simp [hf]
      by_cases hmax : i = INT_MAX
      · -- the next turn overflows the counter
        rw [if_pos hmax]
        constructor
        · intro h
          cases h
        · rintro ⟨k, hk, hle, -⟩
          obtain rfl : k = 0 := by omega
          rw [hzero] at hk
          cases hk
      · rw [if_neg hmax, ih (by omega)]
        constructor
        · rintro ⟨k, hk, hle, hbefore⟩
          refine ⟨k + 1, hk, by omega, fun q hq => ?_⟩
          cases q with
          | zero => exact hzero
          | succ q => exact hbefore q (by omega)
        · rintro ⟨k, hk, hle, hbefore⟩
          cases k with
          | zero =>
            rw [hzero] at hk
            cases hk
          | succ k => exact ⟨k, hk, by omega, fun q hq => hbefore (q + 1) (by omega)⟩

/-- The loop does not end in another way. -/
theorem search_total (addr : BitVec 32) (l : List IterationMap) (i : ℕ) :
    PsliceMemoryMap.search addr l i = .fault ∨ ∃ w, PsliceMemoryMap.search addr l i = .value w := by
  induction l generalizing i with
  | nil => exact .inl rfl
  | cons f l ih =>
    unfold PsliceMemoryMap.search
    cases f (addr.setWidth 64) with
    | some d => exact .inr ⟨_, rfl⟩
    | none =>
      by_cases hmax : i = INT_MAX
      · exact .inl (if_pos hmax)
      · simp only [if_neg hmax]
        exact ih (i + 1)

/-! ## Reads -/

theorem toInt_nonneg_iff {iter : BitVec 32} : 0 ≤ (iter - 1).toInt ↔ 1 ≤ iter.toNat ∧ iter.toNat ≤ 2 ^ 31 := by
  rw [BitVec.toInt_eq_toNat_cond, BitVec.toNat_sub]
  have hlt := iter.isLt
  have hone : (1 : BitVec 32).toNat = 1 := rfl
  rw [hone]
  split <;> omega

theorem toNat_sub_one {j : BitVec 32} (h : 1 ≤ j.toNat) : (j - 1).toNat = j.toNat - 1 := by
  have hone : (1 : BitVec 32).toNat = 1 := rfl
  have hlt := j.isLt
  rw [BitVec.toNat_sub, hone]
  omega

section Read

variable (h : insertAll n calls = some m) (h1 : 1 ≤ iter.toNat) (h2 : iter.toNat ≤ 2 ^ 31)

include h h1

/-- The loop sees the data of the iterations in their order. -/
theorem drop_get {k : ℕ} {j : BitVec 32} (hj : j.toNat = iter.toNat + k) :
    ((m.drop (iter - 1).toNat)[k]?.bind fun f => f (addr.setWidth 64)) =
      (dataAt calls j addr).map (BitVec.setWidth 64) := by
  have hindex : (iter - 1).toNat + k = (j - 1).toNat := by
    rw [toNat_sub_one h1, toNat_sub_one (by omega)]
    omega
  rw [List.getElem?_drop, hindex]
  exact (insertAll_get h).2 j addr

include h2

/-- **What the loop finds**: the data of the nearest iteration. -/
theorem search_eq_nearest {w : BitVec 32} :
    PsliceMemoryMap.search addr (m.drop (iter - 1).toNat) (iter - 1).toNat = .value w ↔ Nearest calls iter addr w := by
  have hfirst := toNat_sub_one h1
  have hlt : ∀ k, (iter - 1).toNat + k ≤ INT_MAX → (BitVec.ofNat 32 (iter.toNat + k)).toNat = iter.toNat + k := by
    intro k hk
    rw [BitVec.toNat_ofNat]
    unfold INT_MAX at hk
    omega
  rw [search_eq_value (by unfold INT_MAX; omega)]
  constructor
  · rintro ⟨k, hk, hle, hbefore⟩
    have hj := hlt k hle
    refine ⟨.ofNat 32 (iter.toNat + k), ?_, ?_, ?_, fun q hq hqk => ?_⟩
    · rw [BitVec.le_def, hj]
      exact Nat.le_add_right _ _
    · unfold INT_MAX at hle
      omega
    · rw [drop_get h h1 hj] at hk
      obtain ⟨d, hd, rfl⟩ := Option.map_eq_some_iff.1 hk
      obtain ⟨v, hv, rfl⟩ := Option.map_eq_some_iff.1 hd
      rw [setWidth_setWidth]
      exact hv
    · rw [BitVec.le_def] at hq
      rw [BitVec.lt_def, hj] at hqk
      have hnone := hbefore (q.toNat - iter.toNat) (by omega)
      rw [drop_get (j := q) h h1 (by omega)] at hnone
      exact Option.map_eq_none_iff.1 hnone
  · rintro ⟨j, hle, hmax, hv, hbefore⟩
    rw [BitVec.le_def] at hle
    refine ⟨j.toNat - iter.toNat, ?_, by unfold INT_MAX; omega, fun q hq => ?_⟩
    · rw [drop_get (j := j) h h1 (by omega), hv]
      exact congrArg some (setWidth_setWidth w)
    · have hj := hlt q (by unfold INT_MAX; omega)
      rw [drop_get h h1 hj, hbefore _ ?_ ?_]
      · rfl
      · rw [BitVec.le_def, hj]
        exact Nat.le_add_right _ _
      · rw [BitVec.lt_def, hj]
        omega

end Read

/-- **Which reads are right.** For every number of iterations, every sequence of insertions that does
not end the program and every read up to the number of iterations, the read is right exactly if the
data is readable. -/
theorem getData_right_iff (h : insertAll n calls = some m) (hn : iter.toNat ≤ n) :
    ReadRight calls iter addr (PsliceMemoryMap.getData m iter addr) ↔ Readable calls iter addr := by
  have hlen : ¬m.length < iter.toNat := by
    rw [(insertAll_get h).1]
    exact Nat.not_lt.2 hn
  unfold PsliceMemoryMap.getData Readable
  rw [if_neg hlen]
  by_cases hr : 1 ≤ iter.toNat ∧ iter.toNat ≤ 2 ^ 31
  · rw [if_pos (toInt_nonneg_iff.2 hr), if_pos hr]
    have hnear := fun w => @search_eq_nearest n calls m iter addr h hr.1 hr.2 w
    constructor
    · intro hright
      rcases search_total addr (m.drop (iter - 1).toNat) (iter - 1).toNat with hfault | ⟨w, hw⟩
      · exact absurd hfault hright.inside.1
      · refine ⟨w, (hnear w).1 hw, fun v hv => ?_⟩
        have heq := hright.recent v hv
        rw [hw] at heq
        exact (Outcome.value.inj heq).symm
    · rintro ⟨w, hw, hsame⟩
      rw [(hnear w).2 hw]
      refine ⟨⟨fun e => (by cases e), fun e => (by cases e)⟩, fun v hv => ?_⟩
      rw [hsame v hv]
  · -- the counter starts below zero, where the loop is not entered
    rw [if_neg fun e => hr (toInt_nonneg_iff.1 e), if_neg hr]
    constructor
    · intro hright v hv
      cases hright.recent v hv
    · intro hno
      exact ⟨⟨fun e => (by cases e), fun e => (by cases e)⟩, fun v hv => absurd hv (hno v)⟩

/-- The data of the iteration itself is the most recent. -/
theorem Readable.of_self {w : BitVec 32} (h1 : 1 ≤ iter.toNat) (h2 : iter.toNat ≤ 2 ^ 31)
    (hw : dataAt calls iter addr = some w) : Readable calls iter addr := by
  refine (if_pos ⟨h1, h2⟩).mpr ⟨w, ⟨iter, BitVec.le_refl iter, h2, hw, fun q hle hlt => ?_⟩, ?_⟩
  · rw [BitVec.le_def] at hle
    rw [BitVec.lt_def] at hlt
    omega
  · rintro v ⟨j, hle, hv, hlast⟩
    rcases Nat.eq_or_lt_of_le (BitVec.le_def.1 hle) with heq | hlt
    · rw [BitVec.eq_of_toNat_eq heq, hw] at hv
      exact (Option.some.inj hv).symm
    · rw [hlast iter (BitVec.lt_def.2 hlt) (BitVec.le_refl iter)] at hw
      cases hw

theorem getData_right_self : ∃ m, insertAll 2 [⟨1, 64, 5⟩, ⟨2, 64, 6⟩] = some m ∧
    ReadRight [⟨1, 64, 5⟩, ⟨2, 64, 6⟩] 2 64 (PsliceMemoryMap.getData m 2 64) :=
  ⟨_, rfl, (getData_right_iff (n := 2) rfl (by decide)).2 (.of_self (w := 6) (by decide) (by decide) (by decide))⟩

/-- With data at iteration 1 alone, a read at iteration 2 leaves the vector. With data at iteration 3
too, it returns that. -/
theorem getData_not_right :
    (∃ m, insertAll 2 [⟨1, 64, 5⟩] = some m ∧ ¬ReadRight [⟨1, 64, 5⟩] 2 64 (PsliceMemoryMap.getData m 2 64)) ∧
    ∃ m, insertAll 3 [⟨1, 64, 5⟩, ⟨3, 64, 7⟩] = some m ∧
      ¬ReadRight [⟨1, 64, 5⟩, ⟨3, 64, 7⟩] 2 64 (PsliceMemoryMap.getData m 2 64) := by
  refine ⟨⟨_, rfl, fun h => h.inside.1 (by decide)⟩, _, rfl, fun h => ?_⟩
  have hrecent : Recent [⟨1, 64, 5⟩, ⟨3, 64, 7⟩] 2 64 5 := by
    refine ⟨1, by decide, by decide, fun k hlt hle => ?_⟩
    have hk : k = 2 := by
      apply BitVec.eq_of_toNat_eq
      have hlt' : 1 < k.toNat := hlt
      have hle' : k.toNat ≤ 2 := hle
      exact Nat.le_antisymm hle' hlt'
    rw [hk]
    decide
  exact absurd (h.recent 5 hrecent) (by decide)

end Esesc.Emul
