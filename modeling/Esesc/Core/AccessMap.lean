import Esesc.Core.StreamPrefetcher
import Esesc.Lib.Recency

/-!
# The table of memory access maps

A zone of 256 blocks has a map with the state of each of its blocks. The table holds the maps of some
zones, in sets of 13 ways with ranks of recency. An access reads the maps of its zone and of the two next
to it, and what it finds around the accessed block decides about prefetches.
-/

namespace Esesc.Core

open Esesc.Lib

def IDX_WIDTH : ℕ := 8

def TAG_WIDTH : ℕ := 18

def IDX_BITS : ℕ := IDX_WIDTH + BLK_BITS

def IDX_SIZE : BitVec 64 := 1#64 <<< IDX_BITS

def IDX_MASK : BitVec 64 := (1#64 <<< IDX_WIDTH) - 1

def TAG_MASK : BitVec 64 := (1#64 <<< TAG_WIDTH) - 1

def MAP_Size : ℕ := 1 <<< IDX_WIDTH

def NUM_SET : ℕ := 16

def NUM_WAY : ℕ := 13

def AP_THRESHOLD : ℤ := 8

def SE_THRESHOLD : ℤ := 128

def CA_THRESHOLD : ℤ := 256

instance : NeZero NUM_SET := ⟨by decide⟩

instance : NeZero NUM_WAY := ⟨by decide⟩

inductive MemoryAccessMapState
  | INIT
  | ACCESS
  | PREFETCH
  | SUCCESS
  deriving DecidableEq

/-- Tag of the zone of an address. -/
def GenTag (addr : BitVec 64) : BitVec 64 := (addr >>> IDX_BITS) &&& TAG_MASK

theorem genIdx_lt (addr : BitVec 64) : ((addr >>> BLK_BITS) &&& IDX_MASK).toNat < MAP_Size :=
  mask_lt (addr >>> BLK_BITS) (by decide : IDX_WIDTH < 64)

/-- Place of the block of an address in its zone. -/
def GenIdx (addr : BitVec 64) : Fin MAP_Size := ⟨((addr >>> BLK_BITS) &&& IDX_MASK).toNat, genIdx_lt addr⟩

/-! ## Maps -/

structure MemoryAccessMap where
  LRU : ℕ
  LastAccess : ℕ
  NumAccess : ℕ
  Tag : BitVec 64
  AccessMap : Fin MAP_Size → MemoryAccessMapState

namespace MemoryAccessMap

open MemoryAccessMapState

variable (m : MemoryAccessMap) (addr : BitVec 64)

def Hit : Bool := m.Tag == GenTag addr

def AlreadyAccess : Bool := m.Hit addr && m.AccessMap (GenIdx addr) != INIT

def PrefetchHit : Bool := m.Hit addr && m.AccessMap (GenIdx addr) == INIT

/-- The map starts with a new zone. -/
def Entry : MemoryAccessMap :=
  { m with Tag := GenTag addr, AccessMap := fun _ => INIT, LastAccess := 0, NumAccess := 0 }

/-- `AccessMap[GenIdx(addr)] = state`. -/
def set (state : MemoryAccessMapState) : MemoryAccessMap :=
  { m with AccessMap := Function.update m.AccessMap (GenIdx addr) state }

def IssuePrefetchSub : MemoryAccessMap := if m.Hit addr then m.set addr PREFETCH else m

/-- One more access is counted. -/
def count : MemoryAccessMap :=
  if m.NumAccess ≥ 15 then { m with NumAccess := 8, LastAccess := m.LastAccess >>> 1 }
  else { m with NumAccess := m.NumAccess + 1 }

def Update : MemoryAccessMap :=
  match m.AccessMap (GenIdx addr) with
  | INIT => (m.set addr ACCESS).count
  | ACCESS => m
  | PREFETCH => (m.set addr SUCCESS).count
  | SUCCESS => m

/-- How many blocks are in a state. -/
def num (state : MemoryAccessMapState) : ℕ := (List.finRange MAP_Size).countP fun i => m.AccessMap i == state

def NumSuccPref : ℕ := m.num SUCCESS

def NumFailPref : ℕ := m.num PREFETCH

def MaxAccess : ℕ :=
  let req := m.NumAccess * 256 / (1 + m.LastAccess)
  let max := 7
  if max > req then req else max

def Housekeeping : MemoryAccessMap :=
  let LastAccess := m.LastAccess + 1
  { m with LastAccess := if LastAccess > 65536 then 65536 else LastAccess }

end MemoryAccessMap

/-! ## The table -/

/-- A set and a way: which entry a pointer is to. -/
abbrev EntryRef := Fin NUM_SET × Fin NUM_WAY

structure MemoryAccessMapTable where
  Aggressive : Bool
  SaveEntry : Bool
  ConflictAvoid : Bool
  NeedEntry : ℤ
  Conflict : ℤ
  PrefFail : ℤ
  PrefSucc : ℤ
  Table : Fin NUM_SET → Fin NUM_WAY → MemoryAccessMap

/-- The entries that a call of `IssuePrefetch` gets from `AccessEntry`. -/
structure Entries where
  ent_l : Option EntryRef
  ent_m : EntryRef
  ent_h : Option EntryRef
  deriving DecidableEq

/-- The maps and numbers that are not stored from one access to the next, but declared `static`. -/
structure Wires where
  ReadMap : ℕ → MemoryAccessMapState
  FwdHistMap : ℕ → MemoryAccessMapState
  BwdHistMap : ℕ → MemoryAccessMapState
  FwdCandMap : ℕ → Bool
  BwdCandMap : ℕ → Bool
  FwdPrefMapTmp : ℕ → Bool
  BwdPrefMapTmp : ℕ → Bool
  NumFwdPrefTmp : ℕ
  NumBwdPrefTmp : ℕ

/-- The output arguments of `IssuePrefetch`. -/
structure Candidates where
  FwdPrefMap : Fin (MAP_Size / 2) → Bool
  BwdPrefMap : Fin (MAP_Size / 2) → Bool
  NumFwdPref : ℕ
  NumBwdPref : ℕ

/-- What a call of `IssuePrefetch` leaves behind. -/
structure Issued where
  table : MemoryAccessMapTable
  wires : Wires
  entries : Entries
  out : Candidates

/-- Statics at the start of the program. -/
def Wires.init : Wires where
  ReadMap := fun _ => .INIT
  FwdHistMap := fun _ => .INIT
  BwdHistMap := fun _ => .INIT
  FwdCandMap := fun _ => false
  BwdCandMap := fun _ => false
  FwdPrefMapTmp := fun _ => false
  BwdPrefMapTmp := fun _ => false
  NumFwdPrefTmp := 0
  NumBwdPrefTmp := 0

namespace MemoryAccessMapTable

variable (t : MemoryAccessMapTable) (addr : BitVec 64)

/-- A new table. `PrefFail` and `PrefSucc` get no value. -/
def init (PrefFail PrefSucc : ℤ) : MemoryAccessMapTable where
  Aggressive := false
  SaveEntry := false
  ConflictAvoid := false
  NeedEntry := 64
  Conflict := 16
  PrefFail := PrefFail
  PrefSucc := PrefSucc
  Table := fun _ Way => { LRU := Way, Tag := GenTag 0, AccessMap := fun _ => .INIT, LastAccess := 0, NumAccess := 0 }

def IsAccessed (state : MemoryAccessMapState) : Bool :=
  match state with
  | .INIT => false
  | .ACCESS => true
  | .PREFETCH => t.Aggressive
  | .SUCCESS => true

def IsCandidate (state : MemoryAccessMapState) (index : ℕ) (passivemode : Bool) : Bool :=
  state == .INIT && ((index ≥ MAP_Size && index < 2 * MAP_Size) || !passivemode)

def PassiveMode : Bool := t.SaveEntry || t.ConflictAvoid

/-- The set of an address. -/
def setIdx : Fin NUM_SET := ⟨(GenTag addr).toNat % NUM_SET, Nat.mod_lt _ (by decide)⟩

/-- An entry is written. -/
def put (r : EntryRef) (m : MemoryAccessMap) : MemoryAccessMapTable :=
  { t with Table := Function.update t.Table r.1 (Function.update (t.Table r.1) r.2 m) }

def ent (r : EntryRef) : MemoryAccessMap := t.Table r.1 r.2

/-- The entries of a set with a smaller rank than `Way` go one up. -/
def shift (Idx : Fin NUM_SET) (Way : Fin NUM_WAY) : MemoryAccessMapTable :=
  { t with Table := Function.update t.Table Idx fun i =>
      if (t.Table Idx i).LRU < (t.Table Idx Way).LRU then
        { t.Table Idx i with LRU := (t.Table Idx i).LRU + 1 }
      else t.Table Idx i }

/-- The first way with the largest rank. -/
def Oldest (Idx : Fin NUM_SET) : Fin NUM_WAY :=
  (List.finRange NUM_WAY).foldl
    (fun Oldest Way => if (t.Table Idx Way).LRU > (t.Table Idx Oldest).LRU then Way else Oldest) 0

/-- The way that hits, if there is one. -/
def find (Idx : Fin NUM_SET) : Option (Fin NUM_WAY) :=
  (List.finRange NUM_WAY).find? fun Way => (t.Table Idx Way).Hit addr

/-- The table after an access, and the entry of the zone. -/
def AccessEntry : MemoryAccessMapTable × EntryRef :=
  let Idx := setIdx addr
  match t.find addr Idx with
  | some Way =>
    let t := t.shift Idx Way
    (t.put (Idx, Way) { t.ent (Idx, Way) with LRU := 0 }, (Idx, Way))
  | none =>
    let Oldest := t.Oldest Idx
    let t := t.shift Idx Oldest
    let victim := t.ent (Idx, Oldest)
    let t := { t with PrefFail := t.PrefFail + victim.NumFailPref, PrefSucc := t.PrefSucc + victim.NumSuccPref }
    (t.put (Idx, Oldest) { victim.Entry addr with LRU := 0 }, (Idx, Oldest))

/-- A prefetch is noted in the map of its zone, if it is on the table. -/
def UpdateEntry : MemoryAccessMapTable :=
  let Idx := setIdx addr
  match t.find addr Idx with
  | some Way => t.put (Idx, Way) ((t.ent (Idx, Way)).IssuePrefetchSub addr)
  | none => t

/-! ## Candidates -/

/-- The entries of the zone and, but for the passive mode, of the zones next to it. -/
def readEntries : MemoryAccessMapTable × Entries :=
  if t.PassiveMode then
    let (t, ent_m) := t.AccessEntry addr
    (t, ⟨none, ent_m, none⟩)
  else
    let (t, ent_l) := t.AccessEntry (addr - IDX_SIZE)
    let (t, ent_h) := t.AccessEntry (addr + IDX_SIZE)
    let (t, ent_m) := t.AccessEntry addr
    (t, ⟨some ent_l, ent_m, some ent_h⟩)

/-- `ent->Read(&ReadMap[off])`, if there is an entry. -/
def Read (ent : Option EntryRef) (ReadMap : ℕ → MemoryAccessMapState) (off : ℕ) :
    Option (ℕ → MemoryAccessMapState) :=
  match ent with
  | none => some ReadMap
  | some r =>
    (List.finRange MAP_Size).foldlM
      (fun ReadMap (i : Fin MAP_Size) => wr (MAP_Size * 3) ReadMap (off + i) ((t.ent r).AccessMap i)) ReadMap

/-- The maps of the entries, one after the other. -/
def readMaps (e : Entries) (ReadMap : ℕ → MemoryAccessMapState) : Option (ℕ → MemoryAccessMapState) := do
  let ReadMap ← (List.finRange MAP_Size).foldlM
    (fun ReadMap (i : Fin MAP_Size) => wr (MAP_Size * 3) ReadMap (0 + i) .INIT) ReadMap
  let ReadMap ← t.Read e.ent_l ReadMap (0 * MAP_Size)
  let ReadMap ← t.Read (some e.ent_m) ReadMap (1 * MAP_Size)
  t.Read e.ent_h ReadMap (2 * MAP_Size)

/-- The loop that reads the history at `histIdx i` and the candidates at `candIdx i`. -/
def histLoop (ReadMap : ℕ → MemoryAccessMapState) (histIdx candIdx : ℕ → ℕ)
    (maps : (ℕ → MemoryAccessMapState) × (ℕ → Bool)) : Option ((ℕ → MemoryAccessMapState) × (ℕ → Bool)) :=
  (List.finRange MAP_Size).foldlM (fun (HistMap, CandMap) (i : Fin MAP_Size) => do
    let state ← rd (MAP_Size * 3) ReadMap (histIdx i)
    let HistMap ← wr MAP_Size HistMap (0 + i) state
    let state ← rd (MAP_Size * 3) ReadMap (candIdx i)
    let CandMap ← wr MAP_Size CandMap (0 + i) (IsCandidate state (candIdx i) t.PassiveMode)
    return (HistMap, CandMap)) maps

/-- The loop that compares a candidate with the blocks at its distance and twice as far, the other way. -/
def prefLoop (HistMap : ℕ → MemoryAccessMapState) (CandMap PrefMapTmp : ℕ → Bool) : Option (ℕ → Bool) :=
  (List.finRange (MAP_Size / 2)).foldlM (fun PrefMapTmp (i : Fin (MAP_Size / 2)) => do
    let cand ← rd MAP_Size CandMap i
    let once ← rd MAP_Size HistMap i
    let twice ← rd MAP_Size HistMap (2 * i + 0)
    let more ← rd MAP_Size HistMap (2 * i + 1)
    wr (MAP_Size / 2) PrefMapTmp (0 + i)
      (cand && t.IsAccessed once && (t.IsAccessed twice || t.IsAccessed more))) PrefMapTmp

/-- The loop that copies the candidates to an argument. -/
def copyLoop (PrefMapTmp : ℕ → Bool) : Option (Fin (MAP_Size / 2) → Bool) :=
  (List.finRange (MAP_Size / 2)).foldlM (fun PrefMap (i : Fin (MAP_Size / 2)) => do
    let b ← rd (MAP_Size / 2) PrefMapTmp i
    return Function.update PrefMap i b) fun _ => false

/-- How many candidates of a direction are used. -/
def numPref (ent_m : EntryRef) : ℕ := if t.ConflictAvoid then 2 else 2 + (t.ent ent_m).MaxAccess

/-- **One access.** `w` is what other calls left in the statics, `extra` what the cache says about the address.
There is no result where an index leaves a map. -/
def IssuePrefetch (w : Wires) (MSHR_hit : Bool) (extra : ℤ) : Option Issued := do
  let (t, e) := t.readEntries addr
  let PF_succ := extra == 1
  let L2_miss := decide (extra < 0)
  let NE_INC := PF_succ && (t.ent e.ent_m).PrefetchHit addr
  let CF_INC := L2_miss && (t.ent e.ent_m).AlreadyAccess addr && !MSHR_hit
  let t := { t with
    NeedEntry := t.NeedEntry + if NE_INC then 1 else 0
    Conflict := t.Conflict + if CF_INC then 1 else 0 }
  let ReadMap ← t.readMaps e w.ReadMap
  let index_p := fun i => MAP_Size + GenIdx addr + i
  let index_n := fun i => MAP_Size + GenIdx addr - i
  let (FwdHistMap, FwdCandMap) ← t.histLoop ReadMap index_n index_p (w.FwdHistMap, w.FwdCandMap)
  let FwdPrefMapTmp ← t.prefLoop FwdHistMap FwdCandMap w.FwdPrefMapTmp
  let (BwdHistMap, BwdCandMap) ← t.histLoop ReadMap index_p index_n (w.BwdHistMap, w.BwdCandMap)
  let BwdPrefMapTmp ← t.prefLoop BwdHistMap BwdCandMap w.BwdPrefMapTmp
  let num := t.numPref e.ent_m
  let BwdPrefMap ← copyLoop BwdPrefMapTmp
  let FwdPrefMap ← copyLoop FwdPrefMapTmp
  return {
    table := t.put e.ent_m ((t.ent e.ent_m).Update addr)
    wires := {
      ReadMap, FwdHistMap, BwdHistMap, FwdCandMap, BwdCandMap, FwdPrefMapTmp, BwdPrefMapTmp
      NumFwdPrefTmp := num
      NumBwdPrefTmp := num }
    entries := e
    out := { FwdPrefMap, BwdPrefMap, NumFwdPref := num, NumBwdPref := num } }

def Housekeeping (cycle : BitVec 64) : MemoryAccessMapTable :=
  let t := { t with Table := fun Idx Way => (t.Table Idx Way).Housekeeping }
  if cycle &&& ((1#64 <<< 18) - 1) = 0 then
    { t with
      Aggressive :=
        if t.PrefSucc > AP_THRESHOLD * t.PrefFail then true
        else if t.PrefSucc < AP_THRESHOLD / 2 * t.PrefFail then false
        else t.Aggressive
      PrefSucc := t.PrefSucc >>> (1 : ℕ)
      PrefFail := t.PrefFail >>> (1 : ℕ)
      SaveEntry :=
        if t.NeedEntry > SE_THRESHOLD then true
        else if t.NeedEntry > SE_THRESHOLD / 4 then false
        else t.SaveEntry
      NeedEntry := t.NeedEntry >>> (1 : ℕ)
      ConflictAvoid :=
        if t.Conflict > CA_THRESHOLD then true
        else if t.Conflict > CA_THRESHOLD / 4 then false
        else t.ConflictAvoid
      Conflict := t.Conflict >>> (1 : ℕ) }
  else t

/-! ## What an access does to the table -/

section Access

/-- The ranks of a set. -/
def ranks (t : MemoryAccessMapTable) (Idx : Fin NUM_SET) : Fin NUM_WAY → ℕ := fun w => (t.Table Idx w).LRU

variable {t : MemoryAccessMapTable} {addr : BitVec 64} {Idx : Fin NUM_SET} {v w : Fin NUM_WAY} {q r : EntryRef}
  {m : MemoryAccessMap}

@[simp] theorem ent_put_self : (t.put r m).ent r = m := by simp [put, ent]

theorem ent_put_of_ne (h : q ≠ r) : (t.put r m).ent q = t.ent q := by
  simp only [put, ent]
  by_cases h1 : q.1 = r.1
  · have h2 : q.2 ≠ r.2 := fun h2 => h (Prod.ext h1 h2)
    rw [h1, Function.update_self, Function.update_of_ne h2]
  · rw [Function.update_of_ne h1]

theorem ent_shift_self : (t.shift Idx v).ent (Idx, v) = t.ent (Idx, v) := by
  simp [shift, ent]

/-- Only ranks are changed. -/
theorem ent_shift (r : EntryRef) : ∃ k, (t.shift Idx v).ent r = { t.ent r with LRU := k } := by
  simp only [shift, ent]
  by_cases h : r.1 = Idx
  · rw [h, Function.update_self]
    split <;> exact ⟨_, rfl⟩
  · rw [Function.update_of_ne h]
    exact ⟨_, rfl⟩

/-- A new rank 0 for the way `v` after the shift is a use of `v`. -/
theorem ranks_shift_put (hm : m.LRU = 0) :
    ((t.shift Idx v).put (Idx, v) m).ranks Idx = touch (t.ranks Idx) v := by
  funext w
  by_cases hw : w = v
  · simp [ranks, put, hw, hm, touch_self]
  · rw [touch, if_neg hw]
    by_cases hlt : t.ranks Idx w < t.ranks Idx v
    · have hlt' : (t.Table Idx w).LRU < (t.Table Idx v).LRU := hlt
      rw [if_pos hlt]
      simp [ranks, put, shift, hw, hlt']
    · have hlt' : ¬(t.Table Idx w).LRU < (t.Table Idx v).LRU := hlt
      rw [if_neg hlt]
      simp [ranks, put, shift, hw, hlt']

theorem ranks_shift_put_of_ne {Jdx : Fin NUM_SET} (h : Jdx ≠ Idx) :
    ((t.shift Idx v).put (Idx, v) m).ranks Jdx = t.ranks Jdx := by
  funext w
  simp only [ranks, put, shift, Function.update_of_ne h]

theorem AccessEntry_set : (t.AccessEntry addr).2.1 = setIdx addr := by
  rw [AccessEntry]
  cases t.find addr (setIdx addr) <;> rfl

/-- **Ranks after an access.** The entry that is returned was used. -/
theorem ranks_AccessEntry (t : MemoryAccessMapTable) (addr : BitVec 64) :
    (t.AccessEntry addr).1.ranks (setIdx addr) = touch (t.ranks (setIdx addr)) (t.AccessEntry addr).2.2 := by
  rw [AccessEntry]
  cases t.find addr (setIdx addr) with
  | some Way => exact ranks_shift_put rfl
  | none => exact ranks_shift_put (m := { MemoryAccessMap.Entry _ addr with LRU := 0 }) rfl

theorem ranks_AccessEntry_of_ne (h : Idx ≠ setIdx addr) : (t.AccessEntry addr).1.ranks Idx = t.ranks Idx := by
  rw [AccessEntry]
  cases t.find addr (setIdx addr) with
  | some Way => exact ranks_shift_put_of_ne h
  | none => exact ranks_shift_put_of_ne (m := { MemoryAccessMap.Entry _ addr with LRU := 0 }) h

/-- The other entries keep all but their ranks. -/
theorem ent_AccessEntry_of_ne (h : r ≠ (t.AccessEntry addr).2) :
    ∃ k, (t.AccessEntry addr).1.ent r = { t.ent r with LRU := k } := by
  rw [AccessEntry] at h ⊢
  cases hf : t.find addr (setIdx addr) with
  | some Way =>
    rw [hf] at h
    rw [ent_put_of_ne h]
    exact ent_shift r
  | none =>
    rw [hf] at h
    rw [ent_put_of_ne h]
    exact ent_shift r

/-- The entry that is returned is of the zone of the address. -/
theorem Hit_AccessEntry (t : MemoryAccessMapTable) (addr : BitVec 64) :
    ((t.AccessEntry addr).1.ent (t.AccessEntry addr).2).Hit addr = true := by
  rw [AccessEntry]
  cases hf : t.find addr (setIdx addr) with
  | some Way =>
    have hhit : (t.ent (setIdx addr, Way)).Hit addr = true :=
      List.find?_some (p := fun Way => (t.Table (setIdx addr) Way).Hit addr) hf
    rw [ent_put_self, ent_shift_self]
    exact hhit
  | none =>
    rw [ent_put_self]
    simp [MemoryAccessMap.Hit, MemoryAccessMap.Entry]

theorem foldl_max {α : Type*} (f : α → ℕ) (l : List α) (o : α) :
    f o ≤ f (l.foldl (fun o w => if f w > f o then w else o) o) ∧
      ∀ w ∈ l, f w ≤ f (l.foldl (fun o w => if f w > f o then w else o) o) := by
  induction l generalizing o with
  | nil => simp
  | cons a l ih =>
    obtain ⟨hle, hall⟩ := ih (if f a > f o then a else o)
    rw [List.foldl_cons]
    have hboth : f o ≤ f (if f a > f o then a else o) ∧ f a ≤ f (if f a > f o then a else o) := by
      split <;> omega
    refine ⟨hboth.1.trans hle, fun w hw => ?_⟩
    rcases List.mem_cons.1 hw with rfl | hw
    · exact hboth.2.trans hle
    · exact hall w hw

theorem ranks_le_Oldest (t : MemoryAccessMapTable) (Idx : Fin NUM_SET) (w : Fin NUM_WAY) :
    t.ranks Idx w ≤ t.ranks Idx (t.Oldest Idx) :=
  (foldl_max (t.ranks Idx) (List.finRange NUM_WAY) 0).2 w (List.mem_finRange w)

end Access

/-! ## The maps around a block -/

section Maps

variable {t : MemoryAccessMapTable} {e : Entries} {R H : ℕ → MemoryAccessMapState} {C P : ℕ → Bool}

/-- The map of an entry as it is read. -/
def mapAt (t : MemoryAccessMapTable) (r : EntryRef) (j : ℕ) : MemoryAccessMapState :=
  if h : j < MAP_Size then (t.ent r).AccessMap ⟨j, h⟩ else .INIT

/-- `R` after the map of an entry, if there is one, was read to `off`. -/
def readInto (t : MemoryAccessMapTable) (ent : Option EntryRef) (off : ℕ) (R : ℕ → MemoryAccessMapState) :
    ℕ → MemoryAccessMapState :=
  match ent with
  | none => R
  | some r => filled off MAP_Size (t.mapAt r) R

/-- `ReadMap` when it was `R` before the call. -/
def window (t : MemoryAccessMapTable) (e : Entries) (R : ℕ → MemoryAccessMapState) : ℕ → MemoryAccessMapState :=
  t.readInto e.ent_h (2 * MAP_Size) (t.readInto (some e.ent_m) (1 * MAP_Size)
    (t.readInto e.ent_l (0 * MAP_Size) (filled 0 MAP_Size (fun _ => .INIT) R)))

theorem Read_eq (ent : Option EntryRef) {off : ℕ} (hoff : off ≤ 2 * MAP_Size) :
    t.Read ent R off = some (t.readInto ent off R) := by
  cases ent with
  | none => rfl
  | some r =>
    have h := foldlM_finRange (n := MAP_Size) (f := fun R i => wr (MAP_Size * 3) R (off + i) ((t.ent r).AccessMap i))
      (fun k => filled off k (t.mapAt r) R) fun i => by
        have hi : t.mapAt r i = (t.ent r).AccessMap i := dif_pos i.isLt
        have hlt : (i : ℕ) < MAP_Size := i.isLt
        rw [← hi]
        exact wr_filled off i _ _ (by omega)
    rw [filled_none] at h
    exact h

theorem readMaps_eq (t : MemoryAccessMapTable) (e : Entries) (R : ℕ → MemoryAccessMapState) :
    t.readMaps e R = some (t.window e R) := by
  have h := foldlM_finRange (n := MAP_Size)
    (f := fun R i => wr (MAP_Size * 3) R (0 + i) MemoryAccessMapState.INIT)
    (fun k => filled 0 k (fun _ => .INIT) R) fun i => by
      have hlt : (i : ℕ) < MAP_Size := i.isLt
      exact wr_filled 0 i (fun _ => MemoryAccessMapState.INIT) R (by omega)
  rw [filled_none] at h
  simp only [readMaps, h, Option.bind_eq_bind, Option.bind_some]
  rw [Read_eq _ (by decide), Option.bind_some, Read_eq _ (by decide), Option.bind_some, Read_eq _ (by decide)]
  rfl

theorem histLoop_eq {histIdx candIdx : ℕ → ℕ} (hhist : ∀ i < MAP_Size, histIdx i < MAP_Size * 3)
    (hcand : ∀ i < MAP_Size, candIdx i < MAP_Size * 3) :
    t.histLoop R histIdx candIdx (H, C) = some (filled 0 MAP_Size (fun i => R (histIdx i)) H,
      filled 0 MAP_Size (fun i => IsCandidate (R (candIdx i)) (candIdx i) t.PassiveMode) C) := by
  have h := foldlM_finRange (n := MAP_Size)
    (f := fun (maps : (ℕ → MemoryAccessMapState) × (ℕ → Bool)) i => (do
      let state ← rd (MAP_Size * 3) R (histIdx i)
      let HistMap ← wr MAP_Size maps.1 (0 + i) state
      let state ← rd (MAP_Size * 3) R (candIdx i)
      let CandMap ← wr MAP_Size maps.2 (0 + i) (IsCandidate state (candIdx i) t.PassiveMode)
      return (HistMap, CandMap)))
    (fun k => (filled 0 k (fun i => R (histIdx i)) H,
      filled 0 k (fun i => IsCandidate (R (candIdx i)) (candIdx i) t.PassiveMode) C)) fun i => by
      have hlt : (i : ℕ) < MAP_Size := i.isLt
      have h1 := wr_filled 0 i (fun i => R (histIdx i)) H (by omega : 0 + (i : ℕ) < MAP_Size)
      have h2 := wr_filled 0 i (fun i => IsCandidate (R (candIdx i)) (candIdx i) t.PassiveMode) C
        (by omega : 0 + (i : ℕ) < MAP_Size)
      rw [rd_of_lt (hhist i hlt), rd_of_lt (hcand i hlt)]
      simp only [Option.bind_eq_bind, Option.bind_some, h1, h2]
      rfl
  simp only [filled_none] at h
  exact h

theorem prefLoop_eq : t.prefLoop H C P = some (filled 0 (MAP_Size / 2) (fun i =>
    C i && t.IsAccessed (H i) && (t.IsAccessed (H (2 * i + 0)) || t.IsAccessed (H (2 * i + 1)))) P) := by
  have h := foldlM_finRange (n := MAP_Size / 2)
    (f := fun P i => (do
      let cand ← rd MAP_Size C i
      let once ← rd MAP_Size H i
      let twice ← rd MAP_Size H (2 * i + 0)
      let more ← rd MAP_Size H (2 * i + 1)
      wr (MAP_Size / 2) P (0 + i) (cand && t.IsAccessed once && (t.IsAccessed twice || t.IsAccessed more))))
    (fun k => filled 0 k (fun i =>
      C i && t.IsAccessed (H i) && (t.IsAccessed (H (2 * i + 0)) || t.IsAccessed (H (2 * i + 1)))) P) fun i => by
      have hlt : (i : ℕ) < MAP_Size / 2 := i.isLt
      rw [rd_of_lt (by omega), rd_of_lt (by omega), rd_of_lt (by omega), rd_of_lt (by omega)]
      simp only [Option.bind_eq_bind, Option.bind_some]
      exact wr_filled 0 i (fun i =>
        C i && t.IsAccessed (H i) && (t.IsAccessed (H (2 * i + 0)) || t.IsAccessed (H (2 * i + 1)))) P (by omega)
  rw [filled_none] at h
  exact h

theorem copyLoop_eq (P : ℕ → Bool) : copyLoop P = some fun i : Fin (MAP_Size / 2) => P i := by
  have h := foldlM_finRange (n := MAP_Size / 2)
    (f := fun (PrefMap : Fin (MAP_Size / 2) → Bool) i => (do
      let b ← rd (MAP_Size / 2) P i
      return Function.update PrefMap i b))
    (fun k (i : Fin (MAP_Size / 2)) => if (i : ℕ) < k then P i else false) fun i => by
      rw [rd_of_lt i.isLt, Option.bind_eq_bind, Option.bind_some]
      refine congrArg some (funext fun j => ?_)
      rcases eq_or_ne j i with rfl | hj
      · rw [Function.update_self, if_pos (by omega)]
      · have hne : (j : ℕ) ≠ i := fun h => hj (Fin.ext h)
        rw [Function.update_of_ne hj]
        congr 1
        exact propext (by omega)
  simp only [Fin.is_lt, if_true] at h
  exact h

end Maps

/-! ## One access -/

section Issue

variable {t : MemoryAccessMapTable} {addr : BitVec 64}

/-- Block `i` ahead is a candidate, and the blocks as far behind and twice as far are accessed. -/
def fwdAt (t : MemoryAccessMapTable) (g : ℕ) (R : ℕ → MemoryAccessMapState) (i : ℕ) : Bool :=
  IsCandidate (R (MAP_Size + g + i)) (MAP_Size + g + i) t.PassiveMode && t.IsAccessed (R (MAP_Size + g - i)) &&
    (t.IsAccessed (R (MAP_Size + g - (2 * i + 0))) || t.IsAccessed (R (MAP_Size + g - (2 * i + 1))))

/-- The same the other way. -/
def bwdAt (t : MemoryAccessMapTable) (g : ℕ) (R : ℕ → MemoryAccessMapState) (i : ℕ) : Bool :=
  IsCandidate (R (MAP_Size + g - i)) (MAP_Size + g - i) t.PassiveMode && t.IsAccessed (R (MAP_Size + g + i)) &&
    (t.IsAccessed (R (MAP_Size + g + (2 * i + 0))) || t.IsAccessed (R (MAP_Size + g + (2 * i + 1))))

/-- What is known of a call in terms of the entries that it reads. -/
structure Answers (t : MemoryAccessMapTable) (addr : BitVec 64) (w : Wires) (r : Issued) : Prop where
  entries : r.entries = (t.readEntries addr).2
  ReadMap : r.wires.ReadMap = (t.readEntries addr).1.window r.entries w.ReadMap
  flags : r.table.Aggressive = (t.readEntries addr).1.Aggressive ∧ r.table.PassiveMode = (t.readEntries addr).1.PassiveMode
  ent_m : r.table.ent r.entries.ent_m = ((t.readEntries addr).1.ent r.entries.ent_m).Update addr
  ent : ∀ q ≠ r.entries.ent_m, r.table.ent q = (t.readEntries addr).1.ent q
  FwdPrefMap : ∀ i, r.out.FwdPrefMap i = (t.readEntries addr).1.fwdAt (GenIdx addr) r.wires.ReadMap i
  BwdPrefMap : ∀ i, r.out.BwdPrefMap i = (t.readEntries addr).1.bwdAt (GenIdx addr) r.wires.ReadMap i
  NumFwdPref : r.out.NumFwdPref = (t.readEntries addr).1.numPref r.entries.ent_m
  NumBwdPref : r.out.NumBwdPref = (t.readEntries addr).1.numPref r.entries.ent_m

/-- **One access.** No index leaves a map. -/
theorem IssuePrefetch_answers (t : MemoryAccessMapTable) (addr : BitVec 64) (w : Wires) (MSHR_hit : Bool) (extra : ℤ) :
    ∃ r, t.IssuePrefetch addr w MSHR_hit extra = some r ∧ Answers t addr w r := by
  have hg : (GenIdx addr : ℕ) < MAP_Size := (GenIdx addr).isLt
  have hp : ∀ i < MAP_Size, MAP_Size + GenIdx addr + i < MAP_Size * 3 := fun i hi => by omega
  have hn : ∀ i < MAP_Size, MAP_Size + GenIdx addr - i < MAP_Size * 3 := fun i hi => by omega
  simp only [IssuePrefetch, readMaps_eq, histLoop_eq hn hp, histLoop_eq hp hn, prefLoop_eq, copyLoop_eq,
    Option.bind_eq_bind, Option.bind_some]
  refine ⟨_, rfl, ?_⟩
  constructor
  · rfl
  · rfl
  · exact ⟨rfl, rfl⟩
  · exact ent_put_self
  · exact fun q hq => ent_put_of_ne hq
  · intro i
    have hi : (i : ℕ) < MAP_Size / 2 := i.isLt
    simp only [filled_of_lt _ _ hi, filled_of_lt _ _ (by omega : (i : ℕ) < MAP_Size),
      filled_of_lt _ _ (by omega : 2 * (i : ℕ) + 0 < MAP_Size), filled_of_lt _ _ (by omega : 2 * (i : ℕ) + 1 < MAP_Size)]
    rfl
  · intro i
    have hi : (i : ℕ) < MAP_Size / 2 := i.isLt
    simp only [filled_of_lt _ _ hi, filled_of_lt _ _ (by omega : (i : ℕ) < MAP_Size),
      filled_of_lt _ _ (by omega : 2 * (i : ℕ) + 0 < MAP_Size), filled_of_lt _ _ (by omega : 2 * (i : ℕ) + 1 < MAP_Size)]
    rfl
  · rfl
  · rfl

end Issue

end MemoryAccessMapTable

end Esesc.Core
