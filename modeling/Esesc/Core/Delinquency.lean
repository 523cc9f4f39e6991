import Esesc.Lib.OrderedSet
import Mathlib.Algebra.Order.Field.Rat
import Mathlib.Data.BitVec
import Mathlib.Tactic.Common

/-!
# Delinquent loads (`simu/libcore/Delinquency.{h,cpp}`)

For each flow, `insertInstMap` counts the accesses and the delays of the loads at each PC. In the end the PCs of the
highest average latencies are reported. They are selected in an ordered set that compares averages only, so it has
one PC of each average.

* `Recorded`, `recorded_of_loads`: what the maps of the loads keep.
* `topReported_iff`, `topDelinquentPCs_iff`: when the PCs of the highest averages are reported.
-/

namespace Esesc.Core

open Esesc.Lib

/-- Where a load is served. -/
inductive HIT_LEVEL
  | L1
  | L2
  | L3
  | MEMORY
  | InvalidLevel
  | LoadForward
  deriving DecidableEq

namespace DelinquencyAnalyzer

structure PerInstStat where
  hitL1 : BitVec 64
  hitL2 : BitVec 64
  hitL3 : BitVec 64
  hitMem : BitVec 64
  loadForward : BitVec 64
  sumOfDifferences : BitVec 64
  lastReuse : BitVec 64
  maxReuse : BitVec 64
  minReuse : BitVec 64
  sumOfLoadDelays : BitVec 64
  addr : BitVec 64
  deriving DecidableEq

namespace PerInstStat

/-- All accesses. -/
def accesses (t : PerInstStat) : BitVec 64 := t.hitL1 + t.hitL2 + t.hitL3 + t.hitMem + t.loadForward

/-- What `operator<` compares. -/
def avgDelay (t : PerInstStat) : ℚ := t.sumOfLoadDelays.toNat / t.accesses.toNat

/-- The record of a PC without accesses. -/
def new (reuseID instAddr : BitVec 64) : PerInstStat where
  hitL1 := 0
  hitL2 := 0
  hitL3 := 0
  hitMem := 0
  loadForward := 0
  sumOfDifferences := 0
  lastReuse := reuseID
  maxReuse := 0
  minReuse := ~~~0 - 1024
  sumOfLoadDelays := 0
  addr := instAddr

/-- One more access. -/
def hit (t : PerInstStat) : HIT_LEVEL → PerInstStat
  | .L1 => { t with hitL1 := t.hitL1 + 1 }
  | .L2 => { t with hitL2 := t.hitL2 + 1 }
  | .L3 => { t with hitL3 := t.hitL3 + 1 }
  | .MEMORY => { t with hitMem := t.hitMem + 1 }
  | .LoadForward => { t with loadForward := t.loadForward + 1 }
  | .InvalidLevel => t

end PerInstStat

open PerInstStat

/-! ## The maps of the loads -/

/-- `map<AddrType, perInstStat>`, in the order of its iterators. -/
abbrev ADDR_MAP := List (BitVec 64 × PerInstStat)

namespace ADDR_MAP

variable (m : ADDR_MAP) (a : BitVec 64)

def find : Option PerInstStat := (List.find? (fun e => e.1 = a) m).map Prod.snd

/-- `m[a] = t` of a new key. -/
def add (t : PerInstStat) : ADDR_MAP → ADDR_MAP
  | [] => [(a, t)]
  | e :: m => if a < e.1 then (a, t) :: e :: m else e :: add t m

/-- The record at a key is changed. -/
def modify (f : PerInstStat → PerInstStat) : ADDR_MAP := List.map (fun e => if e.1 = a then (e.1, f e.2) else e) m

end ADDR_MAP

/-- What `insertStat` takes of a load. -/
structure Load where
  instAddr : BitVec 64
  level : HIT_LEVEL
  reuseID : BitVec 64
  delay : BitVec 64
  deriving DecidableEq

/-- The map of a flow after a load. -/
def insertInstMap (m : ADDR_MAP) (d : Load) : ADDR_MAP :=
  let m := if (m.find d.instAddr).isNone then ADDR_MAP.add d.instAddr (new d.reuseID d.instAddr) m else m
  m.modify d.instAddr fun t => { t.hit d.level with sumOfLoadDelays := t.sumOfLoadDelays + d.delay }

/-- The map of a flow from its start on. -/
def instMap (loads : List Load) : ADDR_MAP := loads.foldl insertInstMap []

/-! ## The report -/

/-- A line of the file. A rate of no accesses is not a number. -/
structure CsvRow where
  PC : BitVec 64
  LoadForward : BitVec 64
  L1_hits : BitVec 64
  L2_hits : BitVec 64
  L3_hits : BitVec 64
  Offchip : BitVec 64
  TotalAccesses : BitVec 64
  L1_missRate : Option ℚ
  L2_missRate : Option ℚ
  L3_missRate : Option ℚ
  SumOfDelays : BitVec 64
  AvgAccessLatency : ℚ
  deriving DecidableEq

/-- A quotient of two counts. -/
def rate (misses all : BitVec 64) : Option ℚ := if all = 0 then none else some (misses.toNat / all.toNat)

def csvRow (p : PerInstStat) : CsvRow where
  PC := p.addr
  LoadForward := p.loadForward
  L1_hits := p.hitL1
  L2_hits := p.hitL2
  L3_hits := p.hitL3
  Offchip := p.hitMem
  TotalAccesses := p.loadForward + p.hitL1 + p.hitL2 + p.hitL3 + p.hitMem
  L1_missRate := rate (p.hitL2 + p.hitL3 + p.hitMem) (p.hitL1 + p.hitL2 + p.hitL3 + p.hitMem)
  L2_missRate := rate (p.hitL3 + p.hitMem) (p.hitL2 + p.hitL3 + p.hitMem)
  L3_missRate := rate p.hitMem (p.hitL3 + p.hitMem)
  SumOfDelays := p.sumOfLoadDelays
  AvgAccessLatency := p.avgDelay

/-- The lines for one flow, from the highest average on. -/
def topRows (m : ADDR_MAP) (count : ℕ) : List CsvRow :=
  (OrderedSet.keepTop avgDelay count (m.map Prod.snd)).reverse.map csvRow

/-- The files that are written. A flow without loads has none, and a file may not open. -/
def sortAndReportTopDelinquentPCs (good : ℕ → Bool) (instMaps : List ADDR_MAP) (count : ℕ) : List (ℕ × List CsvRow) :=
  instMaps.zipIdx.filterMap fun (m, i) =>
    if m.isEmpty then none else if good i then some (i, topRows m count) else none

/-- **The top PCs.** `count` of the recorded PCs, or all, each of them once, from the highest average on, and none
of the others is higher. -/
structure TopReported (m : ADDR_MAP) (count : ℕ) (rows : List CsvRow) : Prop where
  length : rows.length = min count m.length
  once : (rows.map CsvRow.PC).Nodup
  recorded : ∀ r ∈ rows, ∃ p, (r.PC, p) ∈ m ∧ r = csvRow p
  sorted : rows.Pairwise fun r r' => r'.AvgAccessLatency ≤ r.AvgAccessLatency
  left : ∀ e ∈ m, e.1 ∉ rows.map CsvRow.PC → ∀ r ∈ rows, e.2.avgDelay ≤ r.AvgAccessLatency

/-- **Averages that are shared.** Where two recorded PCs have the same average, so many are higher that there is no room
for two. -/
def TiesLow (m : ADDR_MAP) (count : ℕ) : Prop :=
  ∀ e ∈ m, ∀ e' ∈ m, e ≠ e' → e.2.avgDelay = e'.2.avgDelay →
    count ≤ (m.filter fun x => e.2.avgDelay < x.2.avgDelay).length + 1

/-! ## Recording -/

/-- **A map of loads.** Every PC has a record of its own, with accesses. -/
structure Recorded (m : ADDR_MAP) : Prop where
  sorted : m.Pairwise fun e e' => e.1 < e'.1
  addr : ∀ e ∈ m, e.2.addr = e.1
  accessed : ∀ e ∈ m, e.2.accesses ≠ 0

section Recording

variable {m : ADDR_MAP} {a : BitVec 64} {t : PerInstStat} {d : Load} {n : ℕ}

theorem ADDR_MAP.perm_add (a : BitVec 64) (t : PerInstStat) (m : ADDR_MAP) :
    (ADDR_MAP.add a t m).Perm ((a, t) :: m) := by
  induction m with
  | nil => exact .refl _
  | cons e m ih =>
    rw [ADDR_MAP.add]
    split
    · exact .refl _
    · exact (ih.cons e).trans (.swap _ _ _)

theorem ADDR_MAP.add_sorted (hm : m.Pairwise fun e e' => e.1 < e'.1) (ha : ∀ e ∈ m, e.1 ≠ a) :
    (ADDR_MAP.add a t m).Pairwise fun e e' => e.1 < e'.1 := by
  induction m with
  | nil => exact List.pairwise_singleton _ _
  | cons e m ih =>
    obtain ⟨he, hm'⟩ := List.pairwise_cons.1 hm
    rw [ADDR_MAP.add]
    split
    · rename_i hlt
      refine List.pairwise_cons.2 ⟨fun x hx => ?_, hm⟩
      rcases List.mem_cons.1 hx with rfl | hx
      · exact hlt
      · exact BitVec.lt_trans hlt (he x hx)
    · rename_i hge
      refine List.pairwise_cons.2 ⟨fun x hx => ?_, ih hm' fun x hx => ha x (List.mem_cons_of_mem e hx)⟩
      rcases List.mem_cons.1 ((ADDR_MAP.perm_add a t m).mem_iff.1 hx) with rfl | hx
      · have hne := ha e List.mem_cons_self
        bv_omega
      · exact he x hx

theorem ADDR_MAP.modify_sorted (f : PerInstStat → PerInstStat) (hm : m.Pairwise fun e e' => e.1 < e'.1) :
    (m.modify a f).Pairwise fun e e' => e.1 < e'.1 := by
  have hkey : ∀ e : BitVec 64 × PerInstStat, (if e.1 = a then (e.1, f e.2) else e).1 = e.1 := by
    intro e
    split <;> rfl
  refine List.pairwise_map.2 (hm.imp fun hlt => ?_)
  rw [hkey, hkey]
  exact hlt

theorem accesses_hit (t : PerInstStat) {level : HIT_LEVEL} (h : level ≠ .InvalidLevel) :
    (t.hit level).accesses = t.accesses + 1 := by
  cases level with
  | InvalidLevel => exact absurd rfl h
  | L1 => simp only [hit, accesses]; ac_rfl
  | L2 => simp only [hit, accesses]; ac_rfl
  | L3 => simp only [hit, accesses]; ac_rfl
  | MEMORY => simp only [hit, accesses]; ac_rfl
  | LoadForward => simp only [hit, accesses]; ac_rfl

theorem addr_hit (t : PerInstStat) (level : HIT_LEVEL) : (t.hit level).addr = t.addr := by
  cases level <;> rfl

/-- A map of so many loads. -/
structure Counted (n : ℕ) (m : ADDR_MAP) : Prop extends Recorded m where
  le : ∀ e ∈ m, e.2.accesses.toNat ≤ n

/-- A PC that has no record yet gets one. -/
theorem Counted.added (h : Counted n m) (d : Load) :
    let m' := if (m.find d.instAddr).isNone then ADDR_MAP.add d.instAddr (new d.reuseID d.instAddr) m else m
    m'.Pairwise (fun e e' => e.1 < e'.1) ∧
      ∀ e ∈ m', e.2.addr = e.1 ∧ e.2.accesses.toNat ≤ n ∧ (e.1 ≠ d.instAddr → e.2.accesses ≠ 0) := by
  intro m'
  have hold : ∀ e ∈ m, e.2.addr = e.1 ∧ e.2.accesses.toNat ≤ n ∧ (e.1 ≠ d.instAddr → e.2.accesses ≠ 0) :=
    fun e he => ⟨h.addr e he, h.le e he, fun _ => h.accessed e he⟩
  by_cases hfind : (m.find d.instAddr).isNone = true
  · have hm' : m' = ADDR_MAP.add d.instAddr (new d.reuseID d.instAddr) m := if_pos hfind
    rw [hm']
    refine ⟨ADDR_MAP.add_sorted h.sorted fun e he heq => ?_, fun e he => ?_⟩
    · rw [ADDR_MAP.find, Option.isNone_map, Option.isNone_iff_eq_none] at hfind
      exact List.find?_eq_none.1 hfind e he (decide_eq_true heq)
    · rcases List.mem_cons.1 ((ADDR_MAP.perm_add _ _ m).mem_iff.1 he) with rfl | he
      · exact ⟨rfl, Nat.zero_le n, fun hne => absurd rfl hne⟩
      · exact hold e he
  · have hm' : m' = m := if_neg hfind
    rw [hm']
    exact ⟨h.sorted, hold⟩

/-- **One load.** -/
theorem Counted.insert (h : Counted n m) (hn : n + 1 < 2 ^ 64) (hlevel : d.level ≠ .InvalidLevel) :
    Counted (n + 1) (insertInstMap m d) := by
  obtain ⟨hsorted, hall⟩ := h.added d
  have hmem : ∀ e ∈ insertInstMap m d, e.2.addr = e.1 ∧ e.2.accesses ≠ 0 ∧ e.2.accesses.toNat ≤ n + 1 := by
    intro e he
    obtain ⟨x, hx, rfl⟩ := List.mem_map.1 he
    obtain ⟨haddr, hle, hne⟩ := hall x hx
    split
    · -- the record of the PC, which may be new
      have hacc : accesses { x.2.hit d.level with sumOfLoadDelays := x.2.sumOfLoadDelays + d.delay } =
          x.2.accesses + 1 :=
        accesses_hit x.2 hlevel
      have hone : (x.2.accesses + 1).toNat = x.2.accesses.toNat + 1 := by
        have hlt : x.2.accesses.toNat + 1 < 2 ^ 64 := by omega
        exact (BitVec.toNat_add _ _).trans (Nat.mod_eq_of_lt hlt)
      refine ⟨(addr_hit x.2 d.level).trans haddr, ?_, ?_⟩
      · rw [hacc]
        bv_omega
      · rw [hacc]
        omega
    · rename_i hx
      exact ⟨haddr, hne hx, by omega⟩
  have hkeys : (insertInstMap m d).Pairwise fun e e' => e.1 < e'.1 := by
    unfold insertInstMap
    exact ADDR_MAP.modify_sorted _ hsorted
  exact ⟨⟨hkeys, fun e he => (hmem e he).1, fun e he => (hmem e he).2.1⟩,
    fun e he => (hmem e he).2.2⟩

/-- **All loads** of a flow, as long as no count of accesses can wrap round. -/
theorem recorded_of_loads {loads : List Load} (hlevel : ∀ d ∈ loads, d.level ≠ .InvalidLevel)
    (hlen : loads.length < 2 ^ 64) : Recorded (instMap loads) := by
  suffices h : Counted loads.length (instMap loads) from h.toRecorded
  induction loads using List.reverseRecOn with
  | nil => exact ⟨⟨.nil, by simp [instMap], by simp [instMap]⟩, by simp [instMap]⟩
  | append_singleton loads d ih =>
    rw [List.length_append, List.length_singleton] at hlen ⊢
    rw [instMap, List.foldl_concat]
    exact (ih (fun d hd => hlevel d (List.mem_append_left _ hd)) (by omega)).insert hlen (hlevel d (by simp))

end Recording

/-! ## Reporting -/

section Reporting

variable {m : ADDR_MAP} {count : ℕ} {e e' : BitVec 64 × PerInstStat}

theorem Recorded.key_inj (h : Recorded m) (he : e ∈ m) (he' : e' ∈ m) (heq : e.1 = e'.1) : e = e' := by
  have hsymm : Std.Symm fun x y : BitVec 64 × PerInstStat => x.1 ≠ y.1 := ⟨fun _ _ hxy => hxy.symm⟩
  have hkeys : m.Pairwise fun x y => x.1 ≠ y.1 := h.sorted.imp fun hlt => BitVec.ne_of_lt hlt
  by_contra hne
  exact hkeys.forall he he' hne heq

theorem Recorded.stat_inj (h : Recorded m) (he : e ∈ m) (he' : e' ∈ m) (heq : e.2 = e'.2) : e = e' := by
  refine Prod.ext ?_ heq
  rw [← h.addr e he, ← h.addr e' he', heq]

theorem Recorded.nodup (h : Recorded m) : (m.map Prod.snd).Nodup := by
  refine List.pairwise_map.2 (List.Pairwise.imp_of_mem (fun he he' hlt heq => ?_) h.sorted)
  rw [h.stat_inj he he' heq] at hlt
  exact BitVec.lt_irrefl _ hlt

theorem length_filter_stats (m : ADDR_MAP) (p : PerInstStat) :
    ((m.map Prod.snd).filter fun q => p.avgDelay < q.avgDelay).length =
      (m.filter fun x => p.avgDelay < x.2.avgDelay).length := by
  rw [List.filter_map, List.length_map]
  rfl

theorem tiesLow_iff (h : Recorded m) :
    TiesLow m count ↔ ∀ p ∈ m.map Prod.snd, ∀ q ∈ m.map Prod.snd, p ≠ q → p.avgDelay = q.avgDelay →
      count ≤ ((m.map Prod.snd).filter fun r => p.avgDelay < r.avgDelay).length + 1 := by
  constructor
  · intro hties p hp q hq hne havg
    obtain ⟨e, he, rfl⟩ := List.mem_map.1 hp
    obtain ⟨e', he', rfl⟩ := List.mem_map.1 hq
    rw [length_filter_stats]
    exact hties e he e' he' (fun heq => hne (congrArg Prod.snd heq)) havg
  · intro hties e he e' he' hne havg
    rw [← length_filter_stats]
    exact hties e.2 (List.mem_map_of_mem he) e'.2 (List.mem_map_of_mem he')
      (fun heq => hne (h.stat_inj he he' heq)) havg

/-- **The lines of a flow.** Apart from how many there are and what is left out, they are as they should be. -/
theorem topReported_iff_selected (h : Recorded m) :
    TopReported m count (topRows m count) ↔
      (OrderedSet.keepTop avgDelay count (m.map Prod.snd)).length = min count (m.map Prod.snd).length ∧
        ∀ p ∈ m.map Prod.snd, p ∉ OrderedSet.keepTop avgDelay count (m.map Prod.snd) →
          ∀ q ∈ OrderedSet.keepTop avgDelay count (m.map Prod.snd), p.avgDelay ≤ q.avgDelay := by
  have htop : OrderedSet.Top avgDelay count (m.map Prod.snd) (OrderedSet.keepTop avgDelay count (m.map Prod.snd)) :=
    OrderedSet.top_keepTop count _
  rw [topRows]
  generalize OrderedSet.keepTop avgDelay count (m.map Prod.snd) = top at htop ⊢
  have hrec : ∀ p ∈ top, (p.addr, p) ∈ m := by
    intro p hp
    obtain ⟨e, he, rfl⟩ := List.mem_map.1 (htop.mem p hp)
    rw [h.addr e he]
    exact he
  -- a PC has one record, so the PC of a line tells whose it is
  have hpc : ∀ e ∈ m, e.1 ∈ (top.reverse.map csvRow).map CsvRow.PC ↔ e.2 ∈ top := by
    intro e he
    rw [List.map_map, List.mem_map]
    constructor
    · rintro ⟨p, hp, haddr⟩
      have hp := List.mem_reverse.1 hp
      rw [← h.key_inj (hrec p hp) he haddr]
      exact hp
    · exact fun hp => ⟨e.2, List.mem_reverse.2 hp, h.addr e he⟩
  constructor
  · intro hrep
    refine ⟨?_, fun p hp hout q hq => ?_⟩
    · have hlen := hrep.length
      rw [List.length_map, List.length_reverse] at hlen
      rw [hlen, List.length_map]
    · obtain ⟨e, he, rfl⟩ := List.mem_map.1 hp
      exact hrep.left e he (fun hin => hout ((hpc e he).1 hin)) (csvRow q) (List.mem_map_of_mem (List.mem_reverse.2 hq))
  · rintro ⟨hlen, hleft⟩
    refine ⟨?_, ?_, ?_, ?_, ?_⟩
    · rw [List.length_map, List.length_reverse, hlen, List.length_map]
    · rw [List.map_map]
      refine List.Nodup.map_on (fun p hp q hq haddr => ?_) (List.nodup_reverse.2 htop.asc.nodup)
      have hp' := hrec p (List.mem_reverse.1 hp)
      have hq' := hrec q (List.mem_reverse.1 hq)
      exact congrArg Prod.snd (h.key_inj hp' hq' haddr)
    · intro r hr
      obtain ⟨p, hp, rfl⟩ := List.mem_map.1 hr
      exact ⟨p, hrec p (List.mem_reverse.1 hp), rfl⟩
    · exact List.pairwise_map.2 (List.pairwise_reverse.2 (htop.asc.imp fun hlt => hlt.le))
    · intro e he hout r hr
      obtain ⟨p, hp, rfl⟩ := List.mem_map.1 hr
      exact hleft e.2 (List.mem_map_of_mem he) (fun hin => hout ((hpc e he).2 hin)) p (List.mem_reverse.1 hp)

theorem topReported_iff (h : Recorded m) : TopReported m count (topRows m count) ↔ TiesLow m count := by
  rw [topReported_iff_selected h, tiesLow_iff h]
  exact (OrderedSet.top_keepTop count (m.map Prod.snd)).exact_iff h.nodup

/-- The file of a flow. -/
theorem mem_files {good : ℕ → Bool} {instMaps : List ADDR_MAP} {i : ℕ} {rows : List CsvRow} (hi : instMaps[i]? = some m)
    (hne : m ≠ []) (hgood : good i = true) :
    (i, rows) ∈ sortAndReportTopDelinquentPCs good instMaps count ↔ rows = topRows m count := by
  rw [sortAndReportTopDelinquentPCs, List.mem_filterMap]
  constructor
  · rintro ⟨⟨m', j⟩, hmem, hfile⟩
    rw [List.mem_zipIdx_iff_getElem?] at hmem
    simp only at hmem hfile
    split at hfile
    · cases hfile
    · split at hfile
      · obtain ⟨rfl, rfl⟩ := Prod.mk.inj (Option.some.inj hfile)
        rw [hi] at hmem
        rw [Option.some.inj hmem]
      · cases hfile
  · rintro rfl
    refine ⟨(m, i), List.mem_zipIdx_iff_getElem?.2 hi, ?_⟩
    simp only [List.isEmpty_iff, hne, hgood, if_true, if_false]

/-- **Top delinquent loads.** In the file of a flow the PCs of the highest averages are reported exactly when PCs of the
same average have at least `count - 1` higher ones. -/
theorem topDelinquentPCs_iff {good : ℕ → Bool} {instMaps : List ADDR_MAP} {i : ℕ} (h : Recorded m)
    (hi : instMaps[i]? = some m) (hne : m ≠ []) (hgood : good i = true) :
    (∃ rows, (i, rows) ∈ sortAndReportTopDelinquentPCs good instMaps count ∧ TopReported m count rows) ↔
      TiesLow m count := by
  rw [← topReported_iff h]
  constructor
  · rintro ⟨rows, hmem, hrep⟩
    rw [← (mem_files hi hne hgood).1 hmem]
    exact hrep
  · exact fun hrep => ⟨_, (mem_files hi hne hgood).2 rfl, hrep⟩

/-- Two loads at each of three PCs: those of the first two take as long on average. -/
def ties : List Load :=
  [⟨16, .L1, 0, 5⟩, ⟨32, .L2, 1, 5⟩, ⟨48, .MEMORY, 2, 9⟩, ⟨16, .L1, 3, 5⟩, ⟨32, .L2, 4, 5⟩, ⟨48, .MEMORY, 5, 9⟩]

/-- Two PCs are reported in any case: the highest one, and one of the others. -/
theorem topDelinquentPCs_one : ∃ rows, (0, rows) ∈ sortAndReportTopDelinquentPCs (fun _ => true) [instMap ties] 2 ∧
    TopReported (instMap ties) 2 rows :=
  (topDelinquentPCs_iff (recorded_of_loads (by decide) (by decide)) rfl (by decide) rfl).2
    (by unfold TiesLow; decide +kernel)

/-- **One of two PCs** with the same average is not reported, whatever the count. -/
theorem not_topReported : ¬∃ rows, (0, rows) ∈ sortAndReportTopDelinquentPCs (fun _ => true) [instMap ties] 100000 ∧
    TopReported (instMap ties) 100000 rows := by
  rintro ⟨rows, hmem, hrep⟩
  have hlen := hrep.length
  rw [(mem_files rfl (by decide) rfl).1 hmem] at hlen
  exact absurd hlen (by decide +kernel)

end Reporting

end DelinquencyAnalyzer

end Esesc.Core
