import Esesc.Core.BPred
import Esesc.Suc.CacheInv

/-!
# The counters that YAGS trains (`BPyags::predict` in `BPred.cpp`)

A prediction that finds its entry in a direction cache reads the direction counter under the history index, in both
caches. An allocation in the taken cache trains the counter under this index, one in the not-taken cache the counter under
the address.

* `direction_of_consults`: a prediction goes by the counter it consults.
* `allocates_iff`: when a step allocates, in either cache.
* `consults_after`: what the next prediction with the same address and history consults.
* `trains_consulted_iff`: when it is the counter that the allocation trained.
-/

namespace Esesc.Core

open Esesc.Suc

namespace SCTable

/-- `*entry` after an outcome. -/
def moved (t : SCTable) (taken : Bool) (entry : ℕ) : ℕ :=
  if taken then (if entry < t.MaxValue then entry + 1 else entry) else entry - 1

/-- The table with the counter `x` trained, and no other. -/
def train (t : SCTable) (x : ℕ) (taken : Bool) : SCTable :=
  { t with table := Function.update t.table x (t.moved taken (t.table x)) }

/-- **An update** trains the counter of its slot. -/
theorem update_eq (t : SCTable) (cid : HistoryType) (taken : Bool) : t.update cid taken = t.train (t.slot cid) taken := rfl

/-- Training one counter is training another when they are the same, or none moves. -/
theorem train_eq_iff (t : SCTable) (x y : ℕ) (taken : Bool) :
    t.train x taken = t.train y taken ↔
      x = y ∨ t.moved taken (t.table x) = t.table x ∧ t.moved taken (t.table y) = t.table y := by
  constructor
  · intro h
    have htable : Function.update t.table x (t.moved taken (t.table x)) =
        Function.update t.table y (t.moved taken (t.table y)) := congrArg SCTable.table h
    by_cases hxy : x = y
    · exact .inl hxy
    · have hx := congrFun htable x
      have hy := congrFun htable y
      rw [Function.update_self, Function.update_of_ne hxy] at hx
      rw [Function.update_self, Function.update_of_ne (Ne.symm hxy)] at hy
      exact .inr ⟨hx, hy.symm⟩
  · rintro (rfl | ⟨hx, hy⟩)
    · rfl
    · unfold train
      rw [hx, hy, Function.update_eq_self, Function.update_eq_self]

end SCTable

namespace BPyags

/-- The tags that the constructor allows have 7 bits. -/
structure Built (p : BPyags) : Prop where
  taken : p.CacheTakenTagMask.toNat < 128
  notTaken : p.CacheNotTakenTagMask.toNat < 128

/-- The index of an instruction. -/
def iID (p : BPyags) (d : CtrlInst) : HistoryType := calcHist p.btb.shift d.pc

/-- The index it shares with the history. -/
def iIDHist (p : BPyags) (d : CtrlInst) : HistoryType := histIndex p.ghr (p.iID d) p.historyMask p.historySize

/-- The direction caches and their counters, the taken ones under `true`. -/
def cache (p : BPyags) (side : Bool) : ℕ → BitVec 8 := if side then p.CacheTaken else p.CacheNotTaken

def ctable (p : BPyags) (side : Bool) : SCTable := if side then p.ctableTaken else p.ctableNotTaken

def cacheIndex (p : BPyags) (side : Bool) (d : CtrlInst) : ℕ :=
  (p.iIDHist d &&& if side then p.CacheTakenMask else p.CacheNotTakenMask).toNat

def tag (p : BPyags) (side : Bool) (d : CtrlInst) : HistoryType :=
  p.iID d &&& if side then p.CacheTakenTagMask else p.CacheNotTakenTagMask

/-- `CacheTaken[cacheIndex] == tag`, and the same for the other cache. -/
def cacheHit (p : BPyags) (side : Bool) (d : CtrlInst) : Bool :=
  (p.cache side (p.cacheIndex side d)).setWidth 64 == p.tag side d

/-- The cache that a prediction searches: that of the other direction than the choice. -/
def searched (p : BPyags) (d : CtrlInst) : Bool := !p.table.predict (p.iID d)

/-- The direction counter that a prediction reads, if it finds its entry. -/
def consults (p : BPyags) (d : CtrlInst) : Option (Bool × ℕ) :=
  if p.cacheHit (p.searched d) d then some (p.searched d, (p.ctable (p.searched d)).slot (p.iIDHist d)) else none

/-- An update puts a new entry into a direction cache. -/
def Allocates (p : BPyags) (side : Bool) (d : CtrlInst) : Prop := (p.direction d true).2.cache side ≠ p.cache side

/-- **The law.** An allocation trains one direction counter, the one that the next prediction for the same address consults,
when the history is the same and the choice is on the same side. -/
def TrainsConsulted (p : BPyags) (d : CtrlInst) : Prop :=
  ∀ side, p.Allocates side d → ∀ table : SCTable, table.predict (p.iID d) = p.table.predict (p.iID d) →
    ∃ x, consults { (p.direction d true).2 with ghr := p.ghr, table } d = some (side, x) ∧
      (p.direction d true).2.ctable side = (p.ctable side).train x d.isTaken

/-- The address and the history lead to the same counter of the not-taken cache. -/
def SameCounter (p : BPyags) (d : CtrlInst) : Prop := p.ctableNotTaken.slot (p.iID d) = p.ctableNotTaken.slot (p.iIDHist d)

variable {p : BPyags} {d : CtrlInst} {side : Bool}

/-! ## One step -/

/-- **The prediction** goes by the counter it consults, with or without an update. -/
theorem direction_of_consults {x : ℕ} (h : p.consults d = some (side, x)) (doUpdate : Bool) :
    (p.direction d doUpdate).1 = decide ((p.ctable side).Saturate ≤ (p.ctable side).table x) := by
  unfold consults at h
  rw [Option.ite_none_right_eq_some, Option.some.injEq, Prod.mk.injEq] at h
  obtain ⟨hhit, rfl, rfl⟩ := h
  rw [cacheHit, beq_iff_eq] at hhit
  unfold direction
  have hchoice : (p.table.lookup (calcHist p.btb.shift d.pc) d.isTaken doUpdate).1 = p.table.predict (p.iID d) := by
    cases doUpdate <;> rfl
  simp only [hchoice]
  unfold searched at hhit ⊢
  cases hpredict : p.table.predict (p.iID d) with
  | true =>
    rw [hpredict] at hhit
    rw [if_pos rfl]
    refine (congrArg Prod.fst (if_pos hhit)).trans ?_
    cases doUpdate <;> rfl
  | false =>
    rw [hpredict] at hhit
    rw [if_neg Bool.false_ne_true]
    refine (congrArg Prod.fst (if_pos hhit)).trans ?_
    cases doUpdate <;> rfl

/-- What an update leaves when the choice is taken. -/
theorem update_notTaken (h : p.table.predict (p.iID d) = true) :
    ∃ ghr table, (p.direction d true).2 =
      if p.cacheHit false d = true ∨ d.isTaken = false then
        { p with
          ghr, table
          CacheNotTaken := Function.update p.CacheNotTaken (p.cacheIndex false d) ((p.tag false d).setWidth 8)
          ctableNotTaken := p.ctableNotTaken.train
            (p.ctableNotTaken.slot (if p.cacheHit false d = true then p.iIDHist d else p.iID d)) d.isTaken }
      else { p with ghr, table } := by
  refine ⟨((p.ghr <<< 1) ||| histBit (p.iID d) d.isTaken) &&& p.historyMask, p.table.update (p.iID d) d.isTaken, ?_⟩
  unfold direction
  refine (congrArg Prod.snd (if_pos h)).trans ?_
  by_cases hhit : p.cacheHit false d = true
  · rw [if_pos (show p.cacheHit false d = true ∨ d.isTaken = false from .inl hhit), if_pos hhit]
    exact congrArg Prod.snd (if_pos (beq_iff_eq.1 hhit))
  · refine (congrArg Prod.snd (if_neg (mt beq_iff_eq.2 hhit))).trans ?_
    rw [if_neg hhit]
    by_cases htaken : d.isTaken = false
    · rw [if_pos (show p.cacheHit false d = true ∨ d.isTaken = false from .inr htaken)]
      exact congrArg Prod.snd (if_pos ⟨rfl, htaken⟩)
    · rw [if_neg (not_or.2 ⟨hhit, htaken⟩)]
      exact congrArg Prod.snd (if_neg fun hb => htaken hb.2)

/-- And when it is not taken. -/
theorem update_taken (h : p.table.predict (p.iID d) = false) :
    ∃ ghr table, (p.direction d true).2 =
      if p.cacheHit true d = true ∨ d.isTaken = true then
        { p with
          ghr, table
          CacheTaken := Function.update p.CacheTaken (p.cacheIndex true d) ((p.tag true d).setWidth 8)
          ctableTaken := p.ctableTaken.train (p.ctableTaken.slot (p.iIDHist d)) d.isTaken }
      else { p with ghr, table } := by
  refine ⟨((p.ghr <<< 1) ||| histBit (p.iID d) d.isTaken) &&& p.historyMask, p.table.update (p.iID d) d.isTaken, ?_⟩
  have hchoice : ¬(p.table.lookup (calcHist p.btb.shift d.pc) d.isTaken true).1 = true := by
    rw [show (p.table.lookup (calcHist p.btb.shift d.pc) d.isTaken true).1 = false from h]
    exact Bool.false_ne_true
  unfold direction
  refine (congrArg Prod.snd (if_neg hchoice)).trans ?_
  by_cases hhit : p.cacheHit true d = true
  · rw [if_pos (show p.cacheHit true d = true ∨ d.isTaken = true from .inl hhit)]
    exact congrArg Prod.snd (if_pos (beq_iff_eq.1 hhit))
  · refine (congrArg Prod.snd (if_neg (mt beq_iff_eq.2 hhit))).trans ?_
    by_cases htaken : d.isTaken = true
    · rw [if_pos (show p.cacheHit true d = true ∨ d.isTaken = true from .inr htaken)]
      exact congrArg Prod.snd (if_pos ⟨rfl, htaken⟩)
    · rw [if_neg (not_or.2 ⟨hhit, htaken⟩)]
      exact congrArg Prod.snd (if_neg fun hb => htaken hb.2)

/-- A tag is kept whole. -/
theorem tag_setWidth (hp : p.Built) (side : Bool) (d : CtrlInst) : ((p.tag side d).setWidth 8).setWidth 64 = p.tag side d := by
  have hlt : (p.tag side d).toNat < 128 := by
    unfold tag
    rw [BitVec.toNat_and]
    refine lt_of_le_of_lt Nat.and_le_right ?_
    cases side with
    | true => exact hp.taken
    | false => exact hp.notTaken
  apply BitVec.eq_of_toNat_eq
  rw [BitVec.toNat_setWidth, BitVec.toNat_setWidth, Nat.mod_eq_of_lt (a := (p.tag side d).toNat) (by omega),
    Nat.mod_eq_of_lt (by omega)]

/-- Writing the tag changes the entry unless it is there. -/
theorem write_ne_iff (hp : p.Built) (side : Bool) (d : CtrlInst) :
    Function.update (p.cache side) (p.cacheIndex side d) ((p.tag side d).setWidth 8) ≠ p.cache side ↔
      p.cacheHit side d = false := by
  unfold cacheHit
  rw [ne_eq, Function.update_eq_self_iff, beq_eq_false_iff_ne, ne_eq, not_iff_not]
  constructor
  · intro h
    rw [← h]
    exact tag_setWidth hp side d
  · intro h
    rw [← h, BitVec.setWidth_setWidth_of_le _ (by decide), BitVec.setWidth_eq]

/-- What is written on a miss against the choice, or on a hit, changes the cache on the miss only. -/
theorem changed_iff (hp : p.Built) (side : Bool) (d : CtrlInst) :
    (if p.cacheHit side d = true ∨ d.isTaken = side then
      Function.update (p.cache side) (p.cacheIndex side d) ((p.tag side d).setWidth 8) else p.cache side) ≠ p.cache side ↔
      p.cacheHit side d = false ∧ d.isTaken = side := by
  split
  · rename_i hb
    refine (write_ne_iff hp side d).trans (iff_self_and.2 fun hmiss => hb.resolve_left ?_)
    rw [hmiss]
    exact Bool.false_ne_true
  · rename_i hb
    exact iff_of_false (fun h => h rfl) fun h => hb (.inr h.2)

/-- **Allocations.** The cache of the other direction is searched, without success, and the outcome is against the
choice. -/
theorem allocates_iff (hp : p.Built) (side : Bool) (d : CtrlInst) :
    p.Allocates side d ↔ p.searched d = side ∧ p.cacheHit side d = false ∧ d.isTaken = side := by
  have hchanged := changed_iff hp side d
  unfold Allocates searched
  cases hpredict : p.table.predict (p.iID d) with
  | true =>
    obtain ⟨ghr, table, hafter⟩ := update_notTaken hpredict
    rw [hafter]
    cases side with
    | true => split <;> simp [cache]
    | false =>
      rw [apply_ite (cache · false)]
      exact hchanged.trans (iff_and_self.2 fun _ => rfl)
  | false =>
    obtain ⟨ghr, table, hafter⟩ := update_taken hpredict
    rw [hafter]
    cases side with
    | false => split <;> simp [cache]
    | true =>
      rw [apply_ite (cache · true)]
      exact hchanged.trans (iff_and_self.2 fun _ => rfl)

/-- What an allocation trains: the counters of the two caches are found under different indices. -/
def trainedIndex (p : BPyags) (side : Bool) (d : CtrlInst) : HistoryType := if side then p.iIDHist d else p.iID d

theorem consults_of_entry (hside : p.searched d = side)
    (hentry : (p.cache side (p.cacheIndex side d)).setWidth 64 = p.tag side d) :
    p.consults d = some (side, (p.ctable side).slot (p.iIDHist d)) := by
  unfold consults
  rw [hside]
  exact if_pos (beq_iff_eq.2 hentry)

/-- **After an allocation**, the next prediction with the same address and history finds the entry. -/
theorem consults_after (hp : p.Built) (halloc : p.Allocates side d) (table : SCTable)
    (htable : table.predict (p.iID d) = p.table.predict (p.iID d)) :
    consults { (p.direction d true).2 with ghr := p.ghr, table } d = some (side, (p.ctable side).slot (p.iIDHist d)) ∧
      (p.direction d true).2.ctable side =
        (p.ctable side).train ((p.ctable side).slot (p.trainedIndex side d)) d.isTaken := by
  obtain ⟨hside, hmiss, htaken⟩ := (allocates_iff hp side d).1 halloc
  have htag := tag_setWidth hp side d
  cases side with
  | true =>
    have hchoice : p.table.predict (p.iID d) = false := by simpa [searched] using hside
    obtain ⟨ghr, table', hafter⟩ := update_taken hchoice
    rw [if_pos (.inr htaken)] at hafter
    rw [hafter]
    refine ⟨?_, rfl⟩
    apply consults_of_entry
    · show (!table.predict (p.iID d)) = true
      rw [htable, hchoice]
      rfl
    · show (Function.update p.CacheTaken (p.cacheIndex true d) ((p.tag true d).setWidth 8) (p.cacheIndex true d)).setWidth 64 =
        p.tag true d
      rw [Function.update_self]
      exact htag
  | false =>
    have hchoice : p.table.predict (p.iID d) = true := by simpa [searched] using hside
    obtain ⟨ghr, table', hafter⟩ := update_notTaken hchoice
    rw [if_pos (.inr htaken), if_neg (by rw [hmiss]; exact Bool.false_ne_true)] at hafter
    rw [hafter]
    refine ⟨?_, rfl⟩
    apply consults_of_entry
    · show (!table.predict (p.iID d)) = false
      rw [htable, hchoice]
      rfl
    · show (Function.update p.CacheNotTaken (p.cacheIndex false d) ((p.tag false d).setWidth 8) (p.cacheIndex false d)).setWidth 64 =
        p.tag false d
      rw [Function.update_self]
      exact htag

theorem moved_false (t : SCTable) (entry : ℕ) : t.moved false entry = entry ↔ entry = 0 := by
  show entry - 1 = entry ↔ entry = 0
  omega

/-- The not-taken allocations whose two counters are different, and not both at 0 already. -/
def Misses (p : BPyags) (d : CtrlInst) : Prop :=
  p.table.predict (p.iID d) = true ∧ p.cacheHit false d = false ∧ d.isTaken = false ∧ ¬p.SameCounter d ∧
    ¬(p.ctableNotTaken.table (p.ctableNotTaken.slot (p.iIDHist d)) = 0 ∧
      p.ctableNotTaken.table (p.ctableNotTaken.slot (p.iID d)) = 0)

instance : Decidable (p.SameCounter d) := inferInstanceAs (Decidable (_ = _))

instance : Decidable (p.Misses d) := inferInstanceAs (Decidable (_ ∧ _))

/-- **The not-taken cache** is trained under the address and read under the history. -/
theorem Misses.not_trainsConsulted (hp : p.Built) (h : p.Misses d) : ¬p.TrainsConsulted d := by
  intro hlaw
  obtain ⟨hchoice, hmiss, htaken, hdiff, hmoves⟩ := h
  have halloc : p.Allocates false d := (allocates_iff hp false d).2 ⟨by rw [searched, hchoice]; rfl, hmiss, htaken⟩
  obtain ⟨hreads, htrained⟩ := consults_after hp halloc p.table rfl
  obtain ⟨x, hx, hlaw⟩ := hlaw false halloc p.table rfl
  rw [hreads, Option.some.injEq, Prod.mk.injEq] at hx
  obtain ⟨-, rfl⟩ := hx
  rw [htrained, SCTable.train_eq_iff, htaken, moved_false, moved_false] at hlaw
  rcases hlaw with hsame | ⟨h1, h2⟩
  · exact hdiff hsame
  · exact hmoves ⟨h2, h1⟩

theorem trainsConsulted_of_not_misses (hp : p.Built) (h : ¬p.Misses d) : p.TrainsConsulted d := by
  intro side halloc table htable
  obtain ⟨hreads, htrained⟩ := consults_after hp halloc table htable
  refine ⟨_, hreads, ?_⟩
  rw [htrained, SCTable.train_eq_iff]
  cases side with
  | true => exact .inl rfl
  | false =>
    obtain ⟨hside, hmiss, htaken⟩ := (allocates_iff hp false d).1 halloc
    by_cases hsame : p.SameCounter d
    · exact .inl hsame
    · right
      rw [htaken, moved_false, moved_false]
      by_contra hmoves
      have hchoice : p.table.predict (p.iID d) = true := by simpa [searched] using hside
      exact h ⟨hchoice, hmiss, htaken, hsame, fun hb => hmoves ⟨hb.2, hb.1⟩⟩

/-! ## The history -/

theorem low24_getLsbD (i : ℕ) : (0xffffff : BitVec 64).getLsbD i = decide (i < 24) := by
  show (BitVec.ofNat 64 (2 ^ 24 - 1)).getLsbD i = _
  rw [BitVec.getLsbD_ofNat, Nat.testBit_two_pow_sub_one]
  by_cases hi : i < 24
  · simp [hi, show i < 64 by omega]
  · simp [hi]

/-- Below bit 24, a table index has the bits of the address, exclusive or those of the history. -/
theorem low24_index {k : BitVec 64} (hk : ∀ i, k.getLsbD i = decide (i < 24)) (h x m : BitVec 64) :
    ((((h ^^^ x) &&& k ||| x <<< 24).setWidth 32).setWidth 64) &&& (m &&& k) =
      (h &&& (m &&& k)) ^^^ ((x.setWidth 32).setWidth 64 &&& (m &&& k)) := by
  ext i hi
  simp only [← BitVec.getLsbD_eq_getElem, BitVec.getLsbD_and, BitVec.getLsbD_xor, BitVec.getLsbD_or,
    BitVec.getLsbD_setWidth, BitVec.getLsbD_shiftLeft, hk]
  by_cases hlow : i < 24
  · simp [hlow, hi, show i < 32 by omega, Bool.and_xor_distrib_right]
  · simp [hlow]

/-- With the constructor's 24 bits of history and a table that they cover, the two counters are one when the history has
only zeros where the table is indexed. -/
theorem sameCounter_iff (hsize : p.historySize = 24) (hmask : p.historyMask = 0xffffff) (d : CtrlInst)
    (hcover : p.ctableNotTaken.sizeMask &&& 0xffffff = p.ctableNotTaken.sizeMask) :
    p.SameCounter d ↔ p.ghr &&& p.ctableNotTaken.sizeMask = 0 := by
  unfold SameCounter SCTable.slot iIDHist histIndex
  rw [hsize, hmask, ← hcover, low24_index low24_getLsbD, BitVec.toNat_inj]
  generalize p.ghr &&& (p.ctableNotTaken.sizeMask &&& 0xffffff) = y
  generalize ((p.iID d).setWidth 32).setWidth 64 &&& (p.ctableNotTaken.sizeMask &&& 0xffffff) = x
  constructor
  · intro hxor
    calc y = (y ^^^ x) ^^^ x := by rw [BitVec.xor_assoc, BitVec.xor_self, BitVec.xor_zero]
      _ = x ^^^ x := by rw [← hxor]
      _ = 0 := BitVec.xor_self
  · intro hy
    rw [hy]
    exact BitVec.zero_xor.symm

/-! ## Both caches -/

/-- **Training.** Allocations of the taken cache always train the counter that the next prediction reads; those of the
not-taken cache do so exactly when the address and the history lead to the same counter, or both counters are at 0. -/
theorem trains_consulted_iff (hp : p.Built) (d : CtrlInst) : p.TrainsConsulted d ↔ ¬p.Misses d :=
  ⟨fun hlaw hmisses => hmisses.not_trainsConsulted hp hlaw, trainsConsulted_of_not_misses hp⟩

/-- Small tables, with a taken choice everywhere and a history that ends in a taken branch. -/
def sample : BPyags where
  btb := ⟨0, .dm, CacheCore.smallGeometry, none⟩
  historySize := 24
  historyMask := 0xffffff
  table := { SCTable.new 16 2 with table := fun _ => 2 }
  ctableTaken := SCTable.new 16 2
  ctableNotTaken := SCTable.new 16 2
  ghr := 1
  CacheTaken _ := 0
  CacheTakenMask := 15
  CacheTakenTagMask := 63
  CacheNotTaken _ := 0
  CacheNotTakenMask := 15
  CacheNotTakenTagMask := 63

theorem sample_built : sample.Built := ⟨by decide, by decide⟩

/-- After another history, the counters are one. -/
theorem trains_consulted_zero : TrainsConsulted { sample with ghr := 0x10 } ⟨0x14, 0, ⟨.iBALU_LBRANCH, 0, 0, 0, 0⟩⟩ :=
  (trains_consulted_iff ⟨by decide, by decide⟩ _).2 (by decide)

/-- A branch that is not taken against its choice, for the first time. -/
theorem sample_trains_other : ¬sample.TrainsConsulted ⟨0x14, 0, ⟨.iBALU_LBRANCH, 0, 0, 0, 0⟩⟩ :=
  Misses.not_trainsConsulted sample_built (by decide)

end BPyags

end Esesc.Core
