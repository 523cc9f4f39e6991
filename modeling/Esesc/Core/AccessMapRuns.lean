import Esesc.Core.AccessMap

/-!
# Runs of the tables of memory access maps

Each cache with such a prefetcher has a table, and all share the statics of `IssuePrefetch`. The state of a
run also logs, for each set, the ways that were accessed, the last one first.

* `Kept.access`: an access keeps the ranks in the order of the log.
* `Kept.replacesOldest`: a missing access replaces the way that was accessed the longest time ago.
* `order_nodup`: the entries of one access are different.
* `run_replaces`: what holds of every run.
-/

namespace Esesc.Core

open Esesc.Lib

namespace MemoryAccessMapTable

/-- The ways of each set that were accessed, the last one first. -/
abbrev AccessLog := Fin NUM_SET → List (Fin NUM_WAY)

def record (log : AccessLog) (r : EntryRef) : AccessLog := Function.update log r.1 (r.2 :: log r.1)

/-- The addresses whose entries an access reads, in order. -/
def readAddrs (t : MemoryAccessMapTable) (addr : BitVec 64) : List (BitVec 64) :=
  if t.PassiveMode then [addr] else [addr - IDX_SIZE, addr + IDX_SIZE, addr]

/-- Accesses one after the other. -/
def accessAll (t : MemoryAccessMapTable) : List (BitVec 64) → MemoryAccessMapTable × List EntryRef
  | [] => (t, [])
  | a :: as =>
    let (t, r) := t.AccessEntry a
    let (t, rs) := t.accessAll as
    (t, r :: rs)

/-- The ranks of every set are a permutation of the numbers below `NUM_WAY`. -/
def Permuted (t : MemoryAccessMapTable) : Prop :=
  ∀ Idx, ((List.finRange NUM_WAY).map fun Way => (t.Table Idx Way).LRU).Perm (List.range NUM_WAY)

/-- **Replacement.** If no way hits, the zone goes to a way that was accessed longer ago than every other one of the
set, and the other entries keep their zones. -/
def ReplacesOldest (t : MemoryAccessMapTable) (log : AccessLog) (addr : BitVec 64) : Prop :=
  t.find addr (setIdx addr) = none →
    (t.AccessEntry addr).2.1 = setIdx addr ∧
    (∀ w, (log (setIdx addr)).idxOf w ≤ (log (setIdx addr)).idxOf (t.AccessEntry addr).2.2) ∧
    ((t.AccessEntry addr).1.ent (t.AccessEntry addr).2).Tag = GenTag addr ∧
    ∀ q ≠ (t.AccessEntry addr).2, ((t.AccessEntry addr).1.ent q).Tag = (t.ent q).Tag

/-- Accesses one after the other replace so, and leave permutations. -/
def AllReplaceOldest (t : MemoryAccessMapTable) (log : AccessLog) : List (BitVec 64) → Prop
  | [] => True
  | a :: as =>
    let (t', r) := t.AccessEntry a
    ReplacesOldest t log a ∧ t'.Permuted ∧ t'.AllReplaceOldest (record log r) as

end MemoryAccessMapTable

/-- The entries in the order in which they were accessed. -/
def Entries.order (e : Entries) : List EntryRef := e.ent_l.toList ++ e.ent_h.toList ++ [e.ent_m]

open MemoryAccessMapTable

/-! ## Ranks -/

section Ranks

variable {t : MemoryAccessMapTable} {log : AccessLog} {addr : BitVec 64}

/-- **The invariant.** The ranks of each set are ranks of recency. -/
structure Kept (t : MemoryAccessMapTable) (log : AccessLog) : Prop where
  ranked : ∀ Idx, Ranked (t.ranks Idx)
  inOrder : ∀ Idx, ByRecency (t.ranks Idx) (log Idx)

theorem Kept.congr {t' : MemoryAccessMapTable} (h : Kept t log) (hranks : t'.ranks = t.ranks) : Kept t' log := by
  refine ⟨fun Idx => ?_, fun Idx => ?_⟩
  · rw [hranks]
    exact h.ranked Idx
  · rw [hranks]
    exact h.inOrder Idx

theorem kept_init (PrefFail PrefSucc : ℤ) : Kept (.init PrefFail PrefSucc) fun _ => [] := by
  refine ⟨fun Idx => ⟨fun w => ?_, fun v w h => ?_⟩, fun Idx => byRecency_nil _⟩
  · rw [Fintype.card_fin]
    exact w.isLt
  · exact Fin.ext h

theorem Kept.permuted (h : Kept t log) : t.Permuted := fun Idx => (h.ranked Idx).perm

/-- **One access.** The ranks stay in the order of the log. -/
theorem Kept.access (h : Kept t log) (addr : BitVec 64) :
    Kept (t.AccessEntry addr).1 (record log (t.AccessEntry addr).2) := by
  have hset : (t.AccessEntry addr).2.1 = setIdx addr := AccessEntry_set
  constructor
  · intro Idx
    by_cases hIdx : Idx = setIdx addr
    · rw [hIdx, ranks_AccessEntry]
      exact (h.ranked _).touch _
    · rw [ranks_AccessEntry_of_ne hIdx]
      exact h.ranked Idx
  · intro Idx
    by_cases hIdx : Idx = setIdx addr
    · rw [hIdx, ranks_AccessEntry, record, hset, Function.update_self]
      exact (h.inOrder _).touch (h.ranked _).inj _
    · rw [ranks_AccessEntry_of_ne hIdx, record, hset, Function.update_of_ne hIdx]
      exact h.inOrder Idx

/-- **A miss.** -/
theorem Kept.replacesOldest (h : Kept t log) (addr : BitVec 64) : ReplacesOldest t log addr := by
  intro hmiss
  have hway : (t.AccessEntry addr).2 = (setIdx addr, t.Oldest (setIdx addr)) := by
    rw [AccessEntry, hmiss]
  have htag : ((t.AccessEntry addr).1.ent (t.AccessEntry addr).2).Tag = GenTag addr := by
    have hhit := Hit_AccessEntry t addr
    rw [MemoryAccessMap.Hit, beq_iff_eq] at hhit
    exact hhit
  refine ⟨AccessEntry_set, fun w => ?_, htag, fun q hq => ?_⟩
  · rw [hway]
    exact (h.inOrder _).oldest (ranks_le_Oldest t _) w
  · obtain ⟨k, hk⟩ := ent_AccessEntry_of_ne hq
    rw [hk]

/-- Accesses one after the other. -/
theorem Kept.accessAll (h : Kept t log) (as : List (BitVec 64)) :
    t.AllReplaceOldest log as ∧ Kept (t.accessAll as).1 ((t.accessAll as).2.foldl record log) := by
  induction as generalizing t log with
  | nil => exact ⟨trivial, h⟩
  | cons a as ih =>
    have hone := h.access a
    obtain ⟨hall, hkept⟩ := ih hone
    exact ⟨⟨h.replacesOldest a, hone.permuted, hall⟩, hkept⟩

theorem readEntries_eq (t : MemoryAccessMapTable) (addr : BitVec 64) :
    (t.readEntries addr).1 = (t.accessAll (t.readAddrs addr)).1 ∧
      (t.readEntries addr).2.order = (t.accessAll (t.readAddrs addr)).2 := by
  rw [readEntries, readAddrs]
  split <;> exact ⟨rfl, rfl⟩

theorem ranks_put {r : EntryRef} {m : MemoryAccessMap} (h : m.LRU = (t.ent r).LRU) : (t.put r m).ranks = t.ranks := by
  funext Idx Way
  by_cases hr : (Idx, Way) = r
  · have hput : (t.put r m).ent r = m := ent_put_self
    subst hr
    exact (congrArg MemoryAccessMap.LRU hput).trans h
  · have hput : (t.put r m).ent (Idx, Way) = t.ent (Idx, Way) := ent_put_of_ne hr
    exact congrArg MemoryAccessMap.LRU hput

theorem LRU_Update (m : MemoryAccessMap) (addr : BitVec 64) : (m.Update addr).LRU = m.LRU := by
  have hcount : ∀ m : MemoryAccessMap, m.count.LRU = m.LRU := by
    intro m
    unfold MemoryAccessMap.count
    split <;> rfl
  unfold MemoryAccessMap.Update
  split
  · exact hcount _
  · rfl
  · exact hcount _
  · rfl

theorem ranks_UpdateEntry (t : MemoryAccessMapTable) (addr : BitVec 64) : (t.UpdateEntry addr).ranks = t.ranks := by
  rw [UpdateEntry]
  cases t.find addr (setIdx addr) with
  | none => rfl
  | some Way =>
    refine ranks_put ?_
    unfold MemoryAccessMap.IssuePrefetchSub
    split <;> rfl

theorem ranks_Housekeeping (t : MemoryAccessMapTable) (cycle : BitVec 64) : (t.Housekeeping cycle).ranks = t.ranks := by
  unfold MemoryAccessMapTable.Housekeeping
  split <;> rfl

/-- The ranks after a call are those that its accesses left. -/
theorem ranks_of_answers {w : Wires} {r : Issued} (h : Answers t addr w r) :
    r.table.ranks = (t.readEntries addr).1.ranks := by
  funext Idx Way
  by_cases hm : (Idx, Way) = r.entries.ent_m
  · have hent := h.ent_m
    rw [← hm] at hent
    exact (congrArg MemoryAccessMap.LRU hent).trans (LRU_Update _ addr)
  · exact congrArg MemoryAccessMap.LRU (h.ent _ hm)

end Ranks

/-! ## The zones next to each other -/

section Zones

variable {t : MemoryAccessMapTable} {addr : BitVec 64}

theorem GenTag_toNat (addr : BitVec 64) : (GenTag addr).toNat = addr.toNat / 2 ^ 14 % 2 ^ 18 := by
  have hmask : TAG_MASK.toNat = 2 ^ 18 - 1 := by decide
  rw [GenTag, BitVec.toNat_and, hmask, Nat.and_two_pow_sub_one_eq_mod, BitVec.toNat_ushiftRight,
    Nat.shiftRight_eq_div_pow]
  rfl

theorem setIdx_val (addr : BitVec 64) : (setIdx addr : ℕ) = addr.toNat / 2 ^ 14 % 16 := by
  show (GenTag addr).toNat % 16 = _
  rw [GenTag_toNat]
  omega

/-- **Three sets.** The zone of an address and the two next to it are in different sets, also where the
addresses wrap around. -/
theorem setIdx_ne (addr : BitVec 64) : setIdx (addr - IDX_SIZE) ≠ setIdx (addr + IDX_SIZE) ∧
    setIdx (addr - IDX_SIZE) ≠ setIdx addr ∧ setIdx (addr + IDX_SIZE) ≠ setIdx addr := by
  have hsize : IDX_SIZE.toNat = 2 ^ 14 := by decide
  have hlt : addr.toNat < 2 ^ 64 := addr.isLt
  have hup : (addr + IDX_SIZE).toNat = (addr.toNat + 2 ^ 14) % 2 ^ 64 := by rw [BitVec.toNat_add, hsize]
  have hdown : (addr - IDX_SIZE).toNat = (2 ^ 64 - 2 ^ 14 + addr.toNat) % 2 ^ 64 := by rw [BitVec.toNat_sub, hsize]
  refine ⟨fun h => ?_, fun h => ?_, fun h => ?_⟩ <;>
  · have h' := congrArg Fin.val h
    simp only [setIdx_val] at h'
    omega

theorem order_nodup (t : MemoryAccessMapTable) (addr : BitVec 64) : (t.readEntries addr).2.order.Nodup := by
  obtain ⟨hlh, hlm, hhm⟩ := setIdx_ne addr
  have hne : ∀ {t t' : MemoryAccessMapTable} {a b : BitVec 64}, setIdx a ≠ setIdx b →
      (t.AccessEntry a).2 ≠ (t'.AccessEntry b).2 := by
    intro t t' a b hab h
    have hset := congrArg Prod.fst h
    rw [AccessEntry_set, AccessEntry_set] at hset
    exact hab hset
  rw [readEntries]
  split
  · exact List.nodup_singleton _
  · simp only [Entries.order, Option.toList_some, List.cons_append, List.nil_append, List.nodup_cons, List.mem_cons,
      List.not_mem_nil, or_false, not_or, List.nodup_nil, and_true, not_false_eq_true]
    exact ⟨⟨hne hlh, hne hlm⟩, hne hhm⟩

end Zones

/-! ## Runs -/

/-- Calls of a table. -/
inductive MapCall
  | AccessEntry (addr : BitVec 64)
  | IssuePrefetch (addr : BitVec 64) (MSHR_hit : Bool) (extra : ℤ)
  | UpdateEntry (addr : BitVec 64)
  | Housekeeping (cycle : BitVec 64)
  deriving DecidableEq

/-- The tables, what they share, and what was accessed. -/
structure MapTables where
  table : ℕ → MemoryAccessMapTable
  wires : Wires
  log : ℕ → AccessLog

namespace MapTables

/-- New tables at the start of the program. -/
def init (PrefFail PrefSucc : ℕ → ℤ) : MapTables where
  table := fun n => .init (PrefFail n) (PrefSucc n)
  wires := .init
  log := fun _ _ => []

/-- A call of table `n`. -/
def step (s : MapTables) : ℕ × MapCall → Option MapTables
  | (n, .AccessEntry addr) =>
    let (t, r) := (s.table n).AccessEntry addr
    some { s with table := Function.update s.table n t, log := Function.update s.log n (record (s.log n) r) }
  | (n, .IssuePrefetch addr MSHR_hit extra) => do
    let r ← (s.table n).IssuePrefetch addr s.wires MSHR_hit extra
    return {
      table := Function.update s.table n r.table
      wires := r.wires
      log := Function.update s.log n (r.entries.order.foldl record (s.log n)) }
  | (n, .UpdateEntry addr) => some { s with table := Function.update s.table n ((s.table n).UpdateEntry addr) }
  | (n, .Housekeeping cycle) => some { s with table := Function.update s.table n ((s.table n).Housekeeping cycle) }

/-- What a call has to do: replace the oldest ways, leave permutations of the ranks, and, when it generates
candidates, read different entries without leaving a map. -/
def Good (s : MapTables) : ℕ × MapCall → Prop
  | (n, .AccessEntry addr) => (s.table n).AllReplaceOldest (s.log n) [addr]
  | (n, .IssuePrefetch addr MSHR_hit extra) =>
    (s.table n).AllReplaceOldest (s.log n) ((s.table n).readAddrs addr) ∧
      ∃ r, (s.table n).IssuePrefetch addr s.wires MSHR_hit extra = some r ∧ r.entries.order.Nodup
  | _ => True

def Inv (s : MapTables) : Prop := ∀ n, Kept (s.table n) (s.log n)

/-- A table is replaced, and its log. -/
theorem inv_update {s : MapTables} (h : s.Inv) {n : ℕ} {t : MemoryAccessMapTable} {log : AccessLog} (hn : Kept t log)
    (w : Wires) : Inv ⟨Function.update s.table n t, w, Function.update s.log n log⟩ := by
  intro k
  rcases eq_or_ne k n with rfl | hk
  · simp only [Function.update_self]
    exact hn
  · simp only [Function.update_of_ne hk]
    exact h k

/-- **One call.** -/
theorem step_kept {s : MapTables} (h : s.Inv) (c : ℕ × MapCall) : s.Good c ∧ ∃ s', s.step c = some s' ∧ s'.Inv := by
  obtain ⟨n, c⟩ := c
  have hlog : s.log = Function.update s.log n (s.log n) := (Function.update_eq_self n s.log).symm
  cases c with
  | AccessEntry addr => exact ⟨((h n).accessAll [addr]).1, _, rfl, inv_update h ((h n).access addr) s.wires⟩
  | IssuePrefetch addr MSHR_hit extra =>
    obtain ⟨r, hr, hans⟩ := IssuePrefetch_answers (s.table n) addr s.wires MSHR_hit extra
    obtain ⟨hall, hkept⟩ := (h n).accessAll ((s.table n).readAddrs addr)
    obtain ⟨htable, horder⟩ := readEntries_eq (s.table n) addr
    rw [← htable, ← horder, ← hans.entries] at hkept
    refine ⟨⟨hall, r, hr, ?_⟩, _, by rw [step, hr]; rfl, inv_update h (hkept.congr (ranks_of_answers hans)) _⟩
    rw [hans.entries]
    exact order_nodup _ _
  | UpdateEntry addr =>
    refine ⟨trivial, _, rfl, ?_⟩
    rw [hlog]
    exact inv_update h ((h n).congr (ranks_UpdateEntry _ addr)) s.wires
  | Housekeeping cycle =>
    refine ⟨trivial, _, rfl, ?_⟩
    rw [hlog]
    exact inv_update h ((h n).congr (ranks_Housekeeping _ cycle)) s.wires

theorem inv_init (PrefFail PrefSucc : ℕ → ℤ) : (init PrefFail PrefSucc).Inv := fun n => kept_init (PrefFail n) (PrefSucc n)

/-- **Every run.** All calls go through, each replaces the oldest ways and reads different entries within the
maps, and the ranks of every set are a permutation in the end. -/
theorem run_replaces (PrefFail PrefSucc : ℕ → ℤ) (calls : List (ℕ × MapCall)) :
    Along step Good (init PrefFail PrefSucc) calls ∧
      ∃ s, run step (init PrefFail PrefSucc) calls = some s ∧ ∀ n, (s.table n).Permuted := by
  have hinit := inv_init PrefFail PrefSucc
  have hstep : ∀ s c s', step s c = some s' → True → s.Inv → s'.Inv := by
    intro s c s' hs _ hI
    obtain ⟨-, u, hu, hIu⟩ := step_kept hI c
    obtain rfl : u = s' := Option.some.inj (hu.symm.trans hs)
    exact hIu
  have htrue : Along step (fun _ _ => True) (init PrefFail PrefSucc) calls := .of_forall (fun _ _ => trivial) _ _
  refine ⟨htrue.of_inv hstep (fun s c _ hI => (step_kept hI c).1) hinit, ?_⟩
  obtain ⟨s, hs⟩ := Option.isSome_iff_exists.1 (run_total (fun s c hI => (step_kept hI c).2) hinit calls)
  have hI : s.Inv := run_inv_along hstep hs htrue hinit
  exact ⟨s, hs, fun n => (hI n).permuted⟩

end MapTables

end Esesc.Core
