import Esesc.Lib.Machine
import Mathlib.Data.BitVec
import Mathlib.Data.Multiset.Count
import Mathlib.Tactic.Common

/-!
# Counting Bloom filters (`misc/libsuc/BloomFilter.{h,cpp}`)

A filter has vectors of counters, and an element has a counter in each of them: a field of its bits modulo the size of
the vector. A counter is an `int` that counts the elements which have it.

* `Counts.insert`, `Counts.remove`, `Counts.mergeWith`, `Counts.subtract`: the counters count a multiset.
* `Filters.step_encodes`, `Filters.run_sound_of_room`: every run in which no counter overflows has no false negatives.
* `Filters.not_sound`: a filter that is merged with itself until its counters are zero again.
-/

namespace Esesc.Suc.Bloom

open Esesc.Lib

/-! ## Indices -/

/-- The bits and the sizes of the vectors. A size is an `int`. -/
structure Geometry where
  nVectors : ℕ
  vBits : ℕ → ℕ
  vSize : ℕ → ℕ
  vSize_pos : ∀ v < nVectors, 0 < vSize v
  vSize_lt : ∀ v < nVectors, vSize v < 2 ^ 31

namespace Geometry

variable (g : Geometry)

/-- The mask of a field of so many bits. -/
def mask : ℕ → BitVec 32
  | 0 => 0
  | m + 1 => mask m ||| (1 <<< m)

/-- The bits of the vectors before. -/
def totShift : ℕ → ℕ
  | 0 => 0
  | v + 1 => totShift v + g.vBits v

def vMask (v : ℕ) : BitVec 32 := mask (g.vBits v) <<< g.totShift v

def rShift (v : ℕ) : ℕ := g.totShift v

def getIndex (val : BitVec 32) (chunkPos : ℕ) : ℕ :=
  ((val &&& g.vMask chunkPos) >>> g.rShift chunkPos).toNat % g.vSize chunkPos

theorem getIndex_lt {v : ℕ} (hv : v < g.nVectors) (e : BitVec 32) : g.getIndex e v < g.vSize v :=
  Nat.mod_lt _ (g.vSize_pos v hv)

end Geometry

/-! ## Vectors -/

/-- `countVec[i]` and `nonZeroCount[i]`. -/
structure Vec where
  count : ℕ → BitVec 32
  nonZeroCount : BitVec 32

namespace Vec

variable (c other : Vec) (idx size : ℕ)

def insert : Vec where
  count := Function.update c.count idx (c.count idx + 1)
  nonZeroCount := if c.count idx = 0 then c.nonZeroCount + 1 else c.nonZeroCount

def remove : Vec where
  count := Function.update c.count idx (c.count idx - 1)
  nonZeroCount := if c.count idx - 1 = 0 then c.nonZeroCount - 1 else c.nonZeroCount

def clear : Vec := ⟨(List.range size).foldl (fun count j => Function.update count j 0) c.count, 0⟩

/-- The loop of `mergeWith` and `subtract`, which counts the counters that are not zero. -/
def combine (op : BitVec 32 → BitVec 32 → BitVec 32) : Vec :=
  (List.range size).foldl (fun c e =>
    ⟨Function.update c.count e (op (c.count e) (other.count e)),
      if op (c.count e) (other.count e) ≠ 0 then c.nonZeroCount + 1 else c.nonZeroCount⟩) ⟨c.count, 0⟩

def mergeWith : Vec := c.combine other size (· + ·)

def subtract : Vec := c.combine other size (· - ·)

/-- Some counter is positive in both. -/
def intersects : Bool := (List.range size).any fun e => 0 < (c.count e).toInt && 0 < (other.count e).toInt

/-- No counter is greater than that of the other one. -/
def within : Bool := (List.range size).all fun e => !decide ((c.count e).toInt > (other.count e).toInt)

end Vec

/-! ## Filters -/

structure BloomFilter where
  vec : ℕ → Vec
  nElements : BitVec 32
  BFBuild : Bool

namespace BloomFilter

variable (g : Geometry) (f otherbf : BloomFilter) (e : BitVec 32)

/-- A filter that is built. -/
def new : BloomFilter := ⟨fun _ => ⟨fun _ => 0, 0⟩, 0, true⟩

/-- A loop over the vectors. -/
def eachVec (g : Geometry) (op : ℕ → Vec → Vec) (vec : ℕ → Vec) : ℕ → Vec :=
  (List.range g.nVectors).foldl (fun vec i => Function.update vec i (op i (vec i))) vec

def insert : BloomFilter :=
  if !f.BFBuild then f
  else { f with
    vec := eachVec g (fun i c => c.insert (g.getIndex e i)) f.vec
    nElements := f.nElements + 1 }

def remove : BloomFilter :=
  if !f.BFBuild then f
  else { f with
    vec := eachVec g (fun i c => c.remove (g.getIndex e i)) f.vec
    nElements := f.nElements - 1 }

def clear : BloomFilter :=
  if !f.BFBuild then f else { f with vec := eachVec g (fun i c => c.clear (g.vSize i)) f.vec, nElements := 0 }

def mayExist : Bool :=
  if !f.BFBuild then true else (List.range g.nVectors).all fun i => (f.vec i).count (g.getIndex e i) ≠ 0

def mayIntersect : Bool :=
  if !f.BFBuild || !otherbf.BFBuild then true
  else (List.range g.nVectors).all fun v => (f.vec v).intersects (otherbf.vec v) (g.vSize v)

def mergeWith : BloomFilter :=
  if !f.BFBuild || !otherbf.BFBuild then f
  else { f with vec := eachVec g (fun v c => c.mergeWith (otherbf.vec v) (g.vSize v)) f.vec }

def subtract : BloomFilter :=
  if !f.BFBuild || !otherbf.BFBuild then f
  else { f with vec := eachVec g (fun v c => c.subtract (otherbf.vec v) (g.vSize v)) f.vec }

def isSubsetOf : Bool :=
  if !f.BFBuild || !otherbf.BFBuild then true
  else (List.range g.nVectors).all fun v => (f.vec v).within (otherbf.vec v) (g.vSize v)

end BloomFilter

/-! ## Runs of filters of one geometry -/

/-- Filters, with the multisets that they stand for. -/
structure Filters where
  filter : ℕ → BloomFilter
  elems : ℕ → Multiset (BitVec 32)

inductive Op
  | insert (i : ℕ) (e : BitVec 32)
  | remove (i : ℕ) (e : BitVec 32)
  | clear (i : ℕ)
  | mergeWith (i j : ℕ)
  | subtract (i j : ℕ)
  deriving DecidableEq

namespace Filters

variable (g : Geometry)

def init : Filters := ⟨fun _ => .new, fun _ => 0⟩

/-- The filter `i` is `f`, and stands for `m`. -/
def set (s : Filters) (i : ℕ) (f : BloomFilter) (m : Multiset (BitVec 32)) : Filters :=
  ⟨Function.update s.filter i f, Function.update s.elems i m⟩

/-- What is removed or subtracted is there. -/
def step (s : Filters) : Op → Option Filters
  | .insert i e => some (s.set i ((s.filter i).insert g e) (e ::ₘ s.elems i))
  | .remove i e => if e ∈ s.elems i then some (s.set i ((s.filter i).remove g e) ((s.elems i).erase e)) else none
  | .clear i => some (s.set i ((s.filter i).clear g) 0)
  | .mergeWith i j => some (s.set i ((s.filter i).mergeWith g (s.filter j)) (s.elems i + s.elems j))
  | .subtract i j =>
    if s.elems j ≤ s.elems i then some (s.set i ((s.filter i).subtract g (s.filter j)) (s.elems i - s.elems j))
    else none

/-- **No false negatives**, and every vector knows how many of its counters are not zero. -/
structure Sound (s : Filters) : Prop where
  mayExist : ∀ i, ∀ e ∈ s.elems i, (s.filter i).mayExist g e = true
  mayIntersect : ∀ i j, (∃ e ∈ s.elems i, e ∈ s.elems j) → (s.filter i).mayIntersect g (s.filter j) = true
  isSubsetOf : ∀ i j, s.elems i ≤ s.elems j → (s.filter i).isSubsetOf g (s.filter j) = true
  nonZeroCount : ∀ i, ∀ v < g.nVectors, ((s.filter i).vec v).nonZeroCount.toInt =
    (List.range (g.vSize v)).countP fun j => ((s.filter i).vec v).count j ≠ 0

/-- How many elements of a multiset have the counter. -/
def hits (m : Multiset (BitVec 32)) (v j : ℕ) : ℕ := m.countP fun e => g.getIndex e v = j

/-- No counter would count more elements than an `int` can hold. -/
def Room (s : Filters) : Op → Prop
  | .insert i e => ∀ v < g.nVectors, hits g (e ::ₘ s.elems i) v (g.getIndex e v) < 2 ^ 31
  | .mergeWith i j => ∀ v < g.nVectors, ∀ idx < g.vSize v, hits g (s.elems i + s.elems j) v idx < 2 ^ 31
  | _ => True

end Filters

/-! ## Loops -/

section Loops

variable {n : ℕ}

theorem foldl_update_range {β : Type*} (op : ℕ → β → β) (n : ℕ) (vec : ℕ → β) :
    (List.range n).foldl (fun vec i => Function.update vec i (op i (vec i))) vec =
      fun v => if v < n then op v (vec v) else vec v := by
  induction n with
  | zero => rfl
  | succ n ih =>
    rw [List.range_succ, List.foldl_concat, ih]
    funext v
    rcases eq_or_ne v n with rfl | hv
    · rw [Function.update_self, if_pos (Nat.lt_succ_self v)]
      exact congrArg (op v) (if_neg (lt_irrefl v))
    · rw [Function.update_of_ne hv]
      congr 1
      exact propext (by omega)

theorem all_range {p : ℕ → Bool} : (List.range n).all p = true ↔ ∀ i < n, p i = true := by
  rw [List.all_eq_true]
  exact forall_congr' fun i => imp_congr_left List.mem_range

theorem countP_singleton_ne_zero (f : ℕ → BitVec 32) (i : ℕ) :
    ([i].countP fun j => f j ≠ 0) = if f i = 0 then 0 else 1 := by
  rw [List.countP_singleton]
  by_cases hf : f i = 0
  · rw [if_pos hf, if_neg (by rw [decide_eq_true_iff]; exact not_not.2 hf)]
  · rw [if_neg hf, if_pos (decide_eq_true hf)]

theorem BloomFilter.eachVec_apply (g : Geometry) (op : ℕ → Vec → Vec) (vec : ℕ → Vec) {v : ℕ} (hv : v < g.nVectors) :
    BloomFilter.eachVec g op vec v = op v (vec v) := by
  rw [BloomFilter.eachVec, foldl_update_range]
  exact if_pos hv

theorem Vec.combine_spec (c other : Vec) (op : BitVec 32 → BitVec 32 → BitVec 32) (n : ℕ) :
    c.combine other n op = ⟨fun j => if j < n then op (c.count j) (other.count j) else c.count j,
      BitVec.ofNat 32 ((List.range n).countP fun j => op (c.count j) (other.count j) ≠ 0)⟩ := by
  induction n with
  | zero => rfl
  | succ n ih =>
    rw [Vec.combine] at ih ⊢
    rw [List.range_succ, List.foldl_concat, ih, List.countP_append,
      countP_singleton_ne_zero fun j => op (c.count j) (other.count j)]
    simp only [if_neg (lt_irrefl n)]
    refine Vec.mk.injEq .. |>.mpr ⟨?_, ?_⟩
    · funext j
      rcases eq_or_ne j n with rfl | hj
      · rw [Function.update_self, if_pos (Nat.lt_succ_self j)]
      · rw [Function.update_of_ne hj]
        congr 1
        exact propext (by omega)
    · by_cases hop : op (c.count n) (other.count n) = 0
      · rw [if_neg (not_not.2 hop), if_pos hop, Nat.add_zero]
      · rw [if_pos hop, if_neg hop, BitVec.ofNat_add]
        rfl

/-- A counter that is written to changes how many are not zero. -/
theorem countP_range_update (f : ℕ → BitVec 32) (x : BitVec 32) {i : ℕ} (hi : i < n) :
    ((List.range n).countP fun j => Function.update f i x j ≠ 0) + (if f i = 0 then 0 else 1) =
      ((List.range n).countP fun j => f j ≠ 0) + if x = 0 then 0 else 1 := by
  induction n with
  | zero => omega
  | succ n ih =>
    rw [List.range_succ, List.countP_append, List.countP_append, countP_singleton_ne_zero, countP_singleton_ne_zero]
    rcases eq_or_ne i n with rfl | hin
    · have hrest : ((List.range i).countP fun j => Function.update f i x j ≠ 0) =
          (List.range i).countP fun j => f j ≠ 0 := by
        refine List.countP_congr fun j hj => ?_
        have hne : j ≠ i := (List.mem_range.1 hj).ne
        rw [Function.update_of_ne hne]
      rw [hrest, Function.update_self]
      omega
    · have hrest := ih (by omega)
      rw [Function.update_of_ne hin.symm]
      omega

end Loops

/-! ## What the counters count -/

section Counters

variable {size : ℕ} {index : BitVec 32 → ℕ} {c c' : Vec} {m m' : Multiset (BitVec 32)} {e : BitVec 32} {n : ℕ}

theorem ofNat_eq_zero_iff (h : n < 2 ^ 31) : BitVec.ofNat 32 n = 0 ↔ n = 0 := by
  rw [← BitVec.toNat_inj, BitVec.toNat_ofNat, Nat.mod_eq_of_lt (by omega)]
  rfl

theorem toInt_ofNat_of_lt (h : n < 2 ^ 31) : (BitVec.ofNat 32 n).toInt = n := by
  have hn : (BitVec.ofNat 32 n).toNat = n := by
    rw [BitVec.toNat_ofNat]
    exact Nat.mod_eq_of_lt (by omega)
  rw [BitVec.toInt_eq_toNat_of_lt (by omega), hn]

theorem ofNat_succ (n : ℕ) : BitVec.ofNat 32 (n + 1) = BitVec.ofNat 32 n + 1 := BitVec.ofNat_add ..

/-- **A vector of counters** for a multiset. -/
structure Counts (size : ℕ) (index : BitVec 32 → ℕ) (c : Vec) (m : Multiset (BitVec 32)) : Prop where
  count : ∀ j < size, c.count j = BitVec.ofNat 32 (m.countP fun e => index e = j)
  lt : ∀ j < size, (m.countP fun e => index e = j) < 2 ^ 31
  nonZeroCount : c.nonZeroCount = BitVec.ofNat 32 ((List.range size).countP fun j => c.count j ≠ 0)

theorem Counts.toInt (h : Counts size index c m) {j : ℕ} (hj : j < size) :
    (c.count j).toInt = m.countP fun e => index e = j := by
  rw [h.count j hj, toInt_ofNat_of_lt (h.lt j hj)]

theorem counts_zero : Counts size index ⟨fun _ => 0, 0⟩ 0 := by
  refine ⟨fun j _ => rfl, fun j _ => by rw [Multiset.countP_zero]; omega, ?_⟩
  rw [List.countP_eq_zero.2 fun j _ => by simp]
  rfl

/-- **One more element.** -/
theorem Counts.insert (h : Counts size index c m) (hi : index e < size)
    (hroom : ((e ::ₘ m).countP fun x => index x = index e) < 2 ^ 31) :
    Counts size index (c.insert (index e)) (e ::ₘ m) := by
  rw [Multiset.countP_cons, if_pos rfl] at hroom
  have hnew : c.count (index e) + 1 = BitVec.ofNat 32 ((m.countP fun x => index x = index e) + 1) := by
    rw [h.count (index e) hi, ofNat_succ]
  have hne : c.count (index e) + 1 ≠ 0 := by
    rw [hnew, ne_eq, ofNat_eq_zero_iff hroom]
    omega
  refine ⟨fun j hj => ?_, fun j hj => ?_, ?_⟩
  · rcases eq_or_ne j (index e) with rfl | hj'
    · rw [Multiset.countP_cons, if_pos rfl, ← hnew]
      exact Function.update_self ..
    · rw [Multiset.countP_cons, if_neg hj'.symm]
      exact (Function.update_of_ne hj' ..).trans (h.count j hj)
  · rw [Multiset.countP_cons]
    split
    · rename_i heq
      rw [← heq]
      exact hroom
    · exact h.lt j hj
  · have hcount := countP_range_update c.count (c.count (index e) + 1) hi
    rw [if_neg hne] at hcount
    show (if c.count (index e) = 0 then c.nonZeroCount + 1 else c.nonZeroCount) = BitVec.ofNat 32
      ((List.range size).countP fun j => Function.update c.count (index e) (c.count (index e) + 1) j ≠ 0)
    rw [h.nonZeroCount]
    -- a counter that was zero is one more that is not
    by_cases hz : c.count (index e) = 0
    · rw [if_pos hz, Nat.add_zero] at hcount
      rw [if_pos hz, hcount, ofNat_succ]
    · rw [if_neg hz] at hcount
      rw [if_neg hz, Nat.add_right_cancel hcount]

/-- **One element less.** -/
theorem Counts.remove (h : Counts size index c (e ::ₘ m)) (hi : index e < size) :
    Counts size index (c.remove (index e)) m := by
  have hold := h.count (index e) hi
  have hlt := h.lt (index e) hi
  rw [Multiset.countP_cons, if_pos rfl] at hold hlt
  have hnew : c.count (index e) - 1 = BitVec.ofNat 32 (m.countP fun x => index x = index e) := by
    rw [hold, ofNat_succ, BitVec.add_sub_cancel]
  have hne : c.count (index e) ≠ 0 := by
    rw [hold, ne_eq, ofNat_eq_zero_iff hlt]
    omega
  refine ⟨fun j hj => ?_, fun j hj => ?_, ?_⟩
  · rcases eq_or_ne j (index e) with rfl | hj'
    · rw [← hnew]
      exact Function.update_self ..
    · have hcount := h.count j hj
      rw [Multiset.countP_cons, if_neg hj'.symm, Nat.add_zero] at hcount
      exact (Function.update_of_ne hj' ..).trans hcount
  · have hle := h.lt j hj
    rw [Multiset.countP_cons] at hle
    omega
  · have hcount := countP_range_update c.count (c.count (index e) - 1) hi
    rw [if_neg hne] at hcount
    show (if c.count (index e) - 1 = 0 then c.nonZeroCount - 1 else c.nonZeroCount) = BitVec.ofNat 32
      ((List.range size).countP fun j => Function.update c.count (index e) (c.count (index e) - 1) j ≠ 0)
    rw [h.nonZeroCount]
    -- a counter that gets zero is one less that is not
    by_cases hz : c.count (index e) - 1 = 0
    · rw [if_pos hz] at hcount
      rw [if_pos hz, ← hcount.trans (Nat.add_zero _), ofNat_succ, BitVec.add_sub_cancel]
    · rw [if_neg hz] at hcount
      rw [if_neg hz, Nat.add_right_cancel hcount]

/-- **No elements.** -/
theorem counts_clear (size : ℕ) (index : BitVec 32 → ℕ) (c : Vec) : Counts size index (c.clear size) 0 := by
  have hcount : ∀ j < size, (c.clear size).count j = 0 := by
    intro j hj
    rw [Vec.clear, foldl_update_range fun _ _ => 0]
    exact if_pos hj
  refine ⟨hcount, fun j _ => by rw [Multiset.countP_zero]; omega, ?_⟩
  rw [List.countP_eq_zero.2 fun j hj => by rw [hcount j (List.mem_range.1 hj)]; decide]
  rfl

/-- The counters are combined one by one. -/
theorem counts_combine {op : BitVec 32 → BitVec 32 → BitVec 32}
    (hcount : ∀ j < size, op (c.count j) (c'.count j) = BitVec.ofNat 32 (m.countP fun e => index e = j))
    (hlt : ∀ j < size, (m.countP fun e => index e = j) < 2 ^ 31) : Counts size index (c.combine c' size op) m := by
  rw [Vec.combine_spec]
  refine ⟨fun j hj => (if_pos hj).trans (hcount j hj), hlt, ?_⟩
  show BitVec.ofNat 32 ((List.range size).countP fun j => op (c.count j) (c'.count j) ≠ 0) = BitVec.ofNat 32
    ((List.range size).countP fun j => (if j < size then op (c.count j) (c'.count j) else c.count j) ≠ 0)
  refine congrArg _ (List.countP_congr fun j hj => ?_)
  rw [if_pos (List.mem_range.1 hj)]

/-- **The union** of two multisets. -/
theorem Counts.mergeWith (h : Counts size index c m) (h' : Counts size index c' m')
    (hroom : ∀ j < size, ((m + m').countP fun e => index e = j) < 2 ^ 31) :
    Counts size index (c.mergeWith c' size) (m + m') := by
  refine counts_combine (fun j hj => ?_) hroom
  rw [h.count j hj, h'.count j hj, Multiset.countP_add, BitVec.ofNat_add]

/-- **The difference** to a multiset that is contained. -/
theorem Counts.subtract (h : Counts size index c (m + m')) (h' : Counts size index c' m') :
    Counts size index (c.subtract c' size) m := by
  refine counts_combine (fun j hj => ?_) fun j hj => ?_
  · rw [h.count j hj, h'.count j hj, Multiset.countP_add, BitVec.ofNat_add, BitVec.add_sub_cancel]
  · have hle := h.lt j hj
    rw [Multiset.countP_add] at hle
    omega

/-- An element has a counter that is positive. -/
theorem Counts.pos (h : Counts size index c m) (hi : index e < size) (he : e ∈ m) : 0 < (c.count (index e)).toInt := by
  have hpos : 0 < m.countP fun x => index x = index e := Multiset.countP_pos_of_mem he rfl
  rw [h.toInt hi]
  omega

theorem Counts.intersects (h : Counts size index c m) (h' : Counts size index c' m') (hi : index e < size)
    (he : e ∈ m) (he' : e ∈ m') : c.intersects c' size = true := by
  rw [Vec.intersects, List.any_eq_true]
  refine ⟨index e, List.mem_range.2 hi, ?_⟩
  rw [Bool.and_eq_true, decide_eq_true_iff, decide_eq_true_iff]
  exact ⟨h.pos hi he, h'.pos hi he'⟩

theorem Counts.within (h : Counts size index c m) (h' : Counts size index c' m') (hle : m ≤ m') :
    c.within c' size = true := by
  rw [Vec.within, all_range]
  intro j hj
  have hcount : (m.countP fun e => index e = j) ≤ m'.countP fun e => index e = j := Multiset.countP_le_of_le _ hle
  rw [h.toInt hj, h'.toInt hj, Bool.not_eq_true', decide_eq_false_iff_not]
  omega

/-- What a vector knows of its counters, as an `int`. -/
theorem Counts.nonZero_toInt (h : Counts size index c m) (hsize : size < 2 ^ 31) :
    c.nonZeroCount.toInt = (List.range size).countP fun j => c.count j ≠ 0 := by
  have hle : ((List.range size).countP fun j => c.count j ≠ 0) ≤ size := by
    have := List.countP_le_length (p := fun j => decide (c.count j ≠ 0)) (l := List.range size)
    rwa [List.length_range] at this
  rw [h.nonZeroCount, toInt_ofNat_of_lt (by omega)]

end Counters

/-! ## What a filter encodes -/

/-- **A built filter** whose vectors count a multiset. -/
structure Encodes (g : Geometry) (f : BloomFilter) (m : Multiset (BitVec 32)) : Prop where
  built : f.BFBuild = true
  counts : ∀ v < g.nVectors, Counts (g.vSize v) (fun e => g.getIndex e v) (f.vec v) m

section Encodes

variable {g : Geometry} {f f' : BloomFilter} {m m' : Multiset (BitVec 32)} {e : BitVec 32}

theorem encodes_new (g : Geometry) : Encodes g .new 0 := ⟨rfl, fun _ _ => counts_zero⟩

theorem Encodes.not_unbuilt (h : Encodes g f m) : ¬(!f.BFBuild) = true := by
  rw [h.built]
  decide

theorem Encodes.not_unbuilt_or (h : Encodes g f m) (h' : Encodes g f' m') :
    ¬(!f.BFBuild || !f'.BFBuild) = true := by
  rw [h.built, h'.built]
  decide

/-- A loop over the vectors encodes what it makes each of them count. -/
theorem Encodes.eachVec {op : ℕ → Vec → Vec} (h : Encodes g f m) (n : BitVec 32)
    (hop : ∀ v < g.nVectors, Counts (g.vSize v) (fun e => g.getIndex e v) (op v (f.vec v)) m') :
    Encodes g ⟨BloomFilter.eachVec g op f.vec, n, f.BFBuild⟩ m' := by
  refine ⟨h.built, fun v hv => ?_⟩
  show Counts (g.vSize v) (fun e => g.getIndex e v) (BloomFilter.eachVec g op f.vec v) m'
  rw [BloomFilter.eachVec_apply g op f.vec hv]
  exact hop v hv

theorem Encodes.insert (h : Encodes g f m)
    (hroom : ∀ v < g.nVectors, Filters.hits g (e ::ₘ m) v (g.getIndex e v) < 2 ^ 31) :
    Encodes g (f.insert g e) (e ::ₘ m) := by
  rw [BloomFilter.insert, if_neg h.not_unbuilt]
  exact h.eachVec _ fun v hv => (h.counts v hv).insert (g.getIndex_lt hv e) (hroom v hv)

theorem Encodes.remove (h : Encodes g f m) (he : e ∈ m) : Encodes g (f.remove g e) (m.erase e) := by
  rw [BloomFilter.remove, if_neg h.not_unbuilt]
  refine h.eachVec _ fun v hv => ?_
  have hcounts := h.counts v hv
  rw [← Multiset.cons_erase he] at hcounts
  exact hcounts.remove (g.getIndex_lt hv e)

theorem Encodes.clear (h : Encodes g f m) : Encodes g (f.clear g) 0 := by
  rw [BloomFilter.clear, if_neg h.not_unbuilt]
  exact h.eachVec _ fun v _ => counts_clear ..

theorem Encodes.mergeWith (h : Encodes g f m) (h' : Encodes g f' m')
    (hroom : ∀ v < g.nVectors, ∀ idx < g.vSize v, Filters.hits g (m + m') v idx < 2 ^ 31) :
    Encodes g (f.mergeWith g f') (m + m') := by
  rw [BloomFilter.mergeWith, if_neg (h.not_unbuilt_or h')]
  exact h.eachVec _ fun v hv => (h.counts v hv).mergeWith (h'.counts v hv) (hroom v hv)

theorem Encodes.subtract (h : Encodes g f m) (h' : Encodes g f' m') (hle : m' ≤ m) :
    Encodes g (f.subtract g f') (m - m') := by
  rw [BloomFilter.subtract, if_neg (h.not_unbuilt_or h')]
  refine h.eachVec _ fun v hv => ?_
  -- the multiset is the difference and what is subtracted
  have hcounts := h.counts v hv
  rw [← Multiset.sub_add_cancel hle] at hcounts
  exact hcounts.subtract (h'.counts v hv)

theorem Encodes.mayExist (h : Encodes g f m) (he : e ∈ m) : f.mayExist g e = true := by
  rw [BloomFilter.mayExist, if_neg h.not_unbuilt, all_range]
  intro v hv
  have hpos := (h.counts v hv).pos (g.getIndex_lt hv e) he
  rw [decide_eq_true_iff]
  intro hzero
  rw [hzero] at hpos
  exact absurd hpos (by decide)

theorem Encodes.mayIntersect (h : Encodes g f m) (h' : Encodes g f' m') (he : e ∈ m) (he' : e ∈ m') :
    f.mayIntersect g f' = true := by
  rw [BloomFilter.mayIntersect, if_neg (h.not_unbuilt_or h'), all_range]
  intro v hv
  exact (h.counts v hv).intersects (h'.counts v hv) (g.getIndex_lt hv e) he he'

theorem Encodes.isSubsetOf (h : Encodes g f m) (h' : Encodes g f' m') (hle : m ≤ m') : f.isSubsetOf g f' = true := by
  rw [BloomFilter.isSubsetOf, if_neg (h.not_unbuilt_or h'), all_range]
  intro v hv
  exact (h.counts v hv).within (h'.counts v hv) hle

end Encodes

/-! ## Runs -/

namespace Filters

variable {g : Geometry} {s s' : Filters} {op : Op} {ops : List Op}

/-- Every filter encodes the multiset that it stands for. -/
def Encoding (g : Geometry) (s : Filters) : Prop := ∀ i, Encodes g (s.filter i) (s.elems i)

theorem Encoding.sound (h : Encoding g s) : Sound g s where
  mayExist i _ he := (h i).mayExist he
  mayIntersect i j := fun ⟨_, he, he'⟩ => (h i).mayIntersect (h j) he he'
  isSubsetOf i j hle := (h i).isSubsetOf (h j) hle
  nonZeroCount i v hv := ((h i).counts v hv).nonZero_toInt (g.vSize_lt v hv)

theorem Encoding.set (h : Encoding g s) {i : ℕ} {f : BloomFilter} {m : Multiset (BitVec 32)} (hf : Encodes g f m) :
    Encoding g (s.set i f m) := by
  intro j
  show Encodes g (Function.update s.filter i f j) (Function.update s.elems i m j)
  rcases eq_or_ne j i with rfl | hj
  · rw [Function.update_self, Function.update_self]
    exact hf
  · rw [Function.update_of_ne hj, Function.update_of_ne hj]
    exact h j

/-- **Every step** keeps what the filters encode. -/
theorem step_encodes (h : step g s op = some s') (hroom : Room g s op) (hs : Encoding g s) : Encoding g s' := by
  cases op with
  | insert i e =>
    obtain rfl := Option.some.inj h
    exact hs.set ((hs i).insert hroom)
  | remove i e =>
    rw [step, Option.ite_none_right_eq_some] at h
    obtain ⟨he, h⟩ := h
    obtain rfl := Option.some.inj h
    exact hs.set ((hs i).remove he)
  | clear i =>
    obtain rfl := Option.some.inj h
    exact hs.set (hs i).clear
  | mergeWith i j =>
    obtain rfl := Option.some.inj h
    exact hs.set ((hs i).mergeWith (hs j) hroom)
  | subtract i j =>
    rw [step, Option.ite_none_right_eq_some] at h
    obtain ⟨hle, h⟩ := h
    obtain rfl := Option.some.inj h
    exact hs.set ((hs i).subtract (hs j) hle)

/-- **Every run** in which no counter counts more than an `int` can hold has no false negatives. -/
theorem run_sound_of_room (h : run (step g) init ops = some s) (hroom : Along (step g) (Room g) init ops) :
    Sound g s := by
  have hinit : Encoding g init := fun _ => encodes_new g
  exact (run_inv_along (fun _ _ _ hstep hP => step_encodes hstep hP) h hroom hinit).sound

/-- Two vectors, of four counters and of three. -/
def small : Geometry where
  nVectors := 2
  vBits _ := 2
  vSize v := if v = 0 then 4 else 3
  vSize_pos := by decide
  vSize_lt := by decide

instance Room.decidable (g : Geometry) (s : Filters) : ∀ op, Decidable (Room g s op)
  | .insert i e => inferInstanceAs (Decidable (∀ v < g.nVectors, hits g (e ::ₘ s.elems i) v (g.getIndex e v) < 2 ^ 31))
  | .remove _ _ => .isTrue trivial
  | .clear _ => .isTrue trivial
  | .mergeWith i j =>
    inferInstanceAs (Decidable (∀ v < g.nVectors, ∀ idx < g.vSize v, hits g (s.elems i + s.elems j) v idx < 2 ^ 31))
  | .subtract _ _ => .isTrue trivial

theorem run_sound_small : ∃ s, run (step small) init [.insert 0 5, .insert 1 9, .mergeWith 0 1, .remove 0 5] = some s ∧
    Sound small s := by
  obtain ⟨s, hs⟩ := Option.isSome_iff_exists.1 (by decide :
    (run (step small) init [.insert 0 5, .insert 1 9, .mergeWith 0 1, .remove 0 5]).isSome = true)
  exact ⟨s, hs, run_sound_of_room hs (by decide)⟩

/-- A filter that is merged with itself has twice as many elements. -/
theorem run_mergeWith_self (n : ℕ) {s : Filters} {k : ℕ} (hbuilt : (s.filter 0).BFBuild = true)
    (hcount : ((s.filter 0).vec 0).count 0 = BitVec.ofNat 32 k) (helem : 0 ∈ s.elems 0) :
    ∃ t, run (step small) s (List.replicate n (.mergeWith 0 0)) = some t ∧ (t.filter 0).BFBuild = true ∧
      ((t.filter 0).vec 0).count 0 = BitVec.ofNat 32 (2 ^ n * k) ∧ 0 ∈ t.elems 0 := by
  induction n generalizing s k with
  | zero => exact ⟨s, rfl, hbuilt, by rwa [Nat.pow_zero, Nat.one_mul], helem⟩
  | succ n ih =>
    let f := (s.filter 0).mergeWith small (s.filter 0)
    have hf : f =
        ⟨BloomFilter.eachVec small (fun v c => c.mergeWith ((s.filter 0).vec v) (small.vSize v)) (s.filter 0).vec,
          (s.filter 0).nElements, (s.filter 0).BFBuild⟩ := by
      refine if_neg ?_
      rw [hbuilt]
      decide
    -- `otherbf` is the filter itself, as it is before the loop writes to the vector
    have hcount' : (f.vec 0).count 0 = BitVec.ofNat 32 (k + k) := by
      rw [hf]
      show (BloomFilter.eachVec small (fun v c => c.mergeWith ((s.filter 0).vec v) (small.vSize v))
        (s.filter 0).vec 0).count 0 = BitVec.ofNat 32 (k + k)
      rw [BloomFilter.eachVec_apply small _ _ (by decide), Vec.mergeWith, Vec.combine_spec, BitVec.ofNat_add, ← hcount]
      rfl
    have hbuilt' : f.BFBuild = true := by
      rw [hf]
      exact hbuilt
    obtain ⟨t, hrun, ht, hcount, hmem⟩ := ih (s := s.set 0 f (s.elems 0 + s.elems 0)) hbuilt' hcount'
      (Multiset.mem_add.2 (Or.inl helem))
    refine ⟨t, run_cons.2 ⟨_, rfl, hrun⟩, ht, ?_, hmem⟩
    rw [hcount, ← Nat.two_mul, ← Nat.mul_assoc, Nat.pow_succ]

/-- **After 32 merges** with itself the counters of a filter are zero again, and it says that it has no element. -/
theorem not_sound : ¬∀ (g : Geometry) (ops : List Op) (s : Filters), run (step g) init ops = some s → Sound g s := by
  intro hsound
  let s₁ := init.set 0 (BloomFilter.new.insert small 0) (0 ::ₘ 0)
  obtain ⟨t, hrun, hbuilt, hcount, hmem⟩ := run_mergeWith_self 32 (s := s₁) (k := 1) (by decide) (by decide) (by decide)
  have hsound := hsound small (.insert 0 0 :: List.replicate 32 (.mergeWith 0 0)) t (run_cons.2 ⟨_, rfl, hrun⟩)
  have hexist := hsound.mayExist 0 0 hmem
  rw [BloomFilter.mayExist, if_neg (by rw [hbuilt]; decide), all_range] at hexist
  have hzero := of_decide_eq_true (hexist 0 (by decide))
  exact hzero hcount

end Filters

end Esesc.Suc.Bloom
