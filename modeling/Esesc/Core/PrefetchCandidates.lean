import Esesc.Core.AccessMapRuns

/-!
# What the candidates of an access depend on

Two calls of `IssuePrefetch` that read the same entries, on tables with the same flags, should give the same
candidates. The statics keep the maps of the call before: in passive mode the last third of `ReadMap` is not
written, and the history behind the candidates of the backward direction can reach it.

* `mapOf`: the map that an access of a zone would get, and `mapOf_issue`, what an access does to it.
* `exists_left`: any block of the last third can be left accessed.
* `independent_iff`: the accesses whose candidates depend on nothing else.
-/

namespace Esesc.Core

open Esesc.Lib

namespace MemoryAccessMapTable

/-! ## The map of a zone -/

section Zone

variable {t : MemoryAccessMapTable} {addr a b : BitVec 64}

/-- The map that an access gets: that of the zone if it is on the table, or a fresh one. -/
def mapOf (t : MemoryAccessMapTable) (addr : BitVec 64) : Fin MAP_Size → MemoryAccessMapState :=
  match t.find addr (setIdx addr) with
  | some Way => (t.Table (setIdx addr) Way).AccessMap
  | none => fun _ => .INIT

/-- Block `j` of this map. -/
def zoneAt (t : MemoryAccessMapTable) (addr : BitVec 64) (j : ℕ) : MemoryAccessMapState :=
  if h : j < MAP_Size then t.mapOf addr ⟨j, h⟩ else .INIT

theorem setIdx_congr (h : GenTag a = GenTag b) : setIdx a = setIdx b := by
  rw [setIdx]
  simp only [h]
  rfl

theorem find_congr {t' : MemoryAccessMapTable} {Idx : Fin NUM_SET} (h : GenTag a = GenTag b)
    (ht : ∀ w, (t.Table Idx w).Tag = (t'.Table Idx w).Tag) : t.find a Idx = t'.find b Idx := by
  rw [find, find]
  congr 1
  funext w
  rw [MemoryAccessMap.Hit, MemoryAccessMap.Hit, ht, h]

theorem mapOf_congr (t : MemoryAccessMapTable) (h : GenTag a = GenTag b) : t.mapOf a = t.mapOf b := by
  rw [mapOf, mapOf, setIdx_congr h, find_congr h fun _ => rfl]

theorem AccessMap_AccessEntry (t : MemoryAccessMapTable) (addr : BitVec 64) :
    ((t.AccessEntry addr).1.ent (t.AccessEntry addr).2).AccessMap = t.mapOf addr := by
  rw [AccessEntry, mapOf]
  cases t.find addr (setIdx addr) with
  | some Way =>
    simp only [ent_put_self, ent_shift_self]
    rfl
  | none =>
    simp only [ent_put_self]
    rfl

/-- After an access, the way that was returned is the one that hits. -/
theorem find_AccessEntry (t : MemoryAccessMapTable) (addr : BitVec 64) :
    (t.AccessEntry addr).1.find addr (setIdx addr) = some (t.AccessEntry addr).2.2 := by
  have htag : ∀ w ≠ (t.AccessEntry addr).2.2,
      ((t.AccessEntry addr).1.Table (setIdx addr) w).Hit addr = (t.Table (setIdx addr) w).Hit addr := by
    intro w hw
    have hne : (setIdx addr, w) ≠ (t.AccessEntry addr).2 := fun h => hw (congrArg Prod.snd h)
    obtain ⟨k, hk⟩ := ent_AccessEntry_of_ne hne
    show ((t.AccessEntry addr).1.ent (setIdx addr, w)).Hit addr = (t.ent (setIdx addr, w)).Hit addr
    rw [hk]
    rfl
  have hself : ((t.AccessEntry addr).1.Table (setIdx addr) (t.AccessEntry addr).2.2).Hit addr = true := by
    have hhit := Hit_AccessEntry t addr
    have hset : (t.AccessEntry addr).2.1 = setIdx addr := AccessEntry_set
    rw [ent, hset] at hhit
    exact hhit
  cases hf : t.find addr (setIdx addr) with
  | some Way =>
    -- the tags stay, so the same way is found
    have hway : (t.AccessEntry addr).2.2 = Way := by rw [AccessEntry, hf]
    have hsame : ∀ w, ((t.AccessEntry addr).1.Table (setIdx addr) w).Hit addr = (t.Table (setIdx addr) w).Hit addr := by
      intro w
      by_cases hw : w = (t.AccessEntry addr).2.2
      · have hold : (t.Table (setIdx addr) Way).Hit addr = true :=
          List.find?_some (p := fun w => (t.Table (setIdx addr) w).Hit addr) hf
        rw [hw, hself, hway, hold]
      · exact htag w hw
    rw [hway, ← hf, find, find]
    congr 1
    funext w
    exact hsame w
  | none =>
    -- only the way that was replaced hits now
    have hnone : ∀ w, (t.Table (setIdx addr) w).Hit addr = false := by
      intro w
      have := List.find?_eq_none.1 hf w (List.mem_finRange w)
      simpa using this
    have hsome : ((t.AccessEntry addr).1.find addr (setIdx addr)).isSome = true :=
      List.find?_isSome.2 ⟨_, List.mem_finRange _, hself⟩
    obtain ⟨w, hw⟩ := Option.isSome_iff_exists.1 hsome
    have hhit : ((t.AccessEntry addr).1.Table (setIdx addr) w).Hit addr = true :=
      List.find?_some (p := fun w => ((t.AccessEntry addr).1.Table (setIdx addr) w).Hit addr) hw
    have heq : w = (t.AccessEntry addr).2.2 := by
      by_contra hne
      rw [htag w hne, hnone w] at hhit
      cases hhit
    rw [hw, heq]

/-- An access does not change the maps of zones in other sets. -/
theorem mapOf_AccessEntry_of_ne (h : setIdx b ≠ setIdx a) : (t.AccessEntry a).1.mapOf b = t.mapOf b := by
  have hkept : ∀ w, ∃ k, (t.AccessEntry a).1.Table (setIdx b) w = { t.Table (setIdx b) w with LRU := k } := by
    intro w
    refine ent_AccessEntry_of_ne (r := (setIdx b, w)) fun heq => h ?_
    have hset : (t.AccessEntry a).2.1 = setIdx a := AccessEntry_set
    rw [← hset, ← heq]
  have hfind : (t.AccessEntry a).1.find b (setIdx b) = t.find b (setIdx b) := by
    refine find_congr rfl fun w => ?_
    obtain ⟨k, hk⟩ := hkept w
    rw [hk]
  rw [mapOf, mapOf, hfind]
  cases t.find b (setIdx b) with
  | none => rfl
  | some w =>
    obtain ⟨k, hk⟩ := hkept w
    simp only [hk]

theorem flags_AccessEntry (t : MemoryAccessMapTable) (addr : BitVec 64) :
    (t.AccessEntry addr).1.Aggressive = t.Aggressive ∧ (t.AccessEntry addr).1.SaveEntry = t.SaveEntry ∧
      (t.AccessEntry addr).1.ConflictAvoid = t.ConflictAvoid := by
  rw [AccessEntry]
  cases t.find addr (setIdx addr) <;> exact ⟨rfl, rfl, rfl⟩

theorem flags_readEntries (t : MemoryAccessMapTable) (addr : BitVec 64) :
    (t.readEntries addr).1.Aggressive = t.Aggressive ∧ (t.readEntries addr).1.SaveEntry = t.SaveEntry ∧
      (t.readEntries addr).1.ConflictAvoid = t.ConflictAvoid := by
  rw [readEntries]
  split
  · exact flags_AccessEntry t addr
  · simp only [(flags_AccessEntry _ _).1, (flags_AccessEntry _ _).2.1, (flags_AccessEntry _ _).2.2, and_self]

theorem PassiveMode_readEntries (t : MemoryAccessMapTable) (addr : BitVec 64) :
    (t.readEntries addr).1.PassiveMode = t.PassiveMode := by
  obtain ⟨-, hs, hc⟩ := flags_readEntries t addr
  rw [PassiveMode, PassiveMode, hs, hc]

theorem Tag_Update (m : MemoryAccessMap) (addr : BitVec 64) : (m.Update addr).Tag = m.Tag := by
  have hcount : ∀ m : MemoryAccessMap, m.count.Tag = m.Tag := by
    intro m
    unfold MemoryAccessMap.count
    split <;> rfl
  unfold MemoryAccessMap.Update
  split
  · exact hcount _
  · rfl
  · exact hcount _
  · rfl

/-- A block that was not touched becomes accessed. -/
theorem AccessMap_Update {m : MemoryAccessMap} (h : m.AccessMap (GenIdx addr) = .INIT) :
    (m.Update addr).AccessMap = Function.update m.AccessMap (GenIdx addr) .ACCESS := by
  simp only [MemoryAccessMap.Update, h, MemoryAccessMap.count]
  split <;> rfl

end Zone

/-! ## A call and the maps -/

section Issue

variable {t : MemoryAccessMapTable} {addr : BitVec 64} {w : Wires} {r : Issued}

theorem ent_m_set (t : MemoryAccessMapTable) (addr : BitVec 64) : (t.readEntries addr).2.ent_m.1 = setIdx addr := by
  rw [readEntries]
  split <;> exact AccessEntry_set

theorem find_readEntries (t : MemoryAccessMapTable) (addr : BitVec 64) :
    (t.readEntries addr).1.find addr (setIdx addr) = some (t.readEntries addr).2.ent_m.2 := by
  rw [readEntries]
  split <;> exact find_AccessEntry _ addr

/-- The map that the entry of the zone has when the call reads it. -/
theorem AccessMap_readEntries (t : MemoryAccessMapTable) (addr : BitVec 64) :
    ((t.readEntries addr).1.ent (t.readEntries addr).2.ent_m).AccessMap = t.mapOf addr := by
  obtain ⟨-, hlm, hhm⟩ := setIdx_ne addr
  rw [readEntries]
  split
  · exact AccessMap_AccessEntry t addr
  · refine (AccessMap_AccessEntry _ addr).trans ?_
    rw [mapOf_AccessEntry_of_ne hhm.symm, mapOf_AccessEntry_of_ne hlm.symm]

theorem mapAt_readEntries (t : MemoryAccessMapTable) (addr : BitVec 64) (j : ℕ) :
    (t.readEntries addr).1.mapAt (t.readEntries addr).2.ent_m j = t.zoneAt addr j := by
  rw [mapAt, zoneAt, AccessMap_readEntries]

/-- **What an access does to the map of its zone.** -/
theorem mapOf_issue (h : Answers t addr w r) (hinit : t.mapOf addr (GenIdx addr) = .INIT) :
    r.table.mapOf addr = Function.update (t.mapOf addr) (GenIdx addr) .ACCESS := by
  have hread := AccessMap_readEntries t addr
  have hset := ent_m_set t addr
  have hent := h.ent_m
  rw [h.entries] at hent
  have htag : ∀ w, (r.table.Table (setIdx addr) w).Tag = ((t.readEntries addr).1.Table (setIdx addr) w).Tag := by
    intro w
    by_cases hw : (setIdx addr, w) = (t.readEntries addr).2.ent_m
    · show (r.table.ent (setIdx addr, w)).Tag = ((t.readEntries addr).1.ent (setIdx addr, w)).Tag
      rw [hw, hent, Tag_Update]
    · have hother := h.ent (setIdx addr, w) (by rw [h.entries]; exact hw)
      exact congrArg MemoryAccessMap.Tag hother
  have hfind : r.table.find addr (setIdx addr) = some (t.readEntries addr).2.ent_m.2 := by
    rw [find_congr rfl htag]
    exact find_readEntries t addr
  have hmap : r.table.mapOf addr = (r.table.ent (t.readEntries addr).2.ent_m).AccessMap := by
    rw [mapOf, hfind, ent, hset]
  rw [hmap, hent, AccessMap_Update (by rw [hread]; exact hinit), hread]

/-- Outside of the passive mode, the last third of `ReadMap` is the map of the zone above. -/
theorem ReadMap_issue (h : Answers t addr w r) (hactive : t.PassiveMode = false) (j : Fin MAP_Size) :
    r.wires.ReadMap (2 * MAP_Size + j) = t.mapOf (addr + IDX_SIZE) j := by
  obtain ⟨hlh, -, hhm⟩ := setIdx_ne addr
  have hent : ((t.readEntries addr).2.ent_h.map (t.readEntries addr).1.ent).map MemoryAccessMap.AccessMap =
      some (t.mapOf (addr + IDX_SIZE)) := by
    rw [readEntries, hactive]
    simp only [Bool.false_eq_true, if_false, Option.map_some]
    have hne : ((t.AccessEntry (addr - IDX_SIZE)).1.AccessEntry (addr + IDX_SIZE)).2 ≠
        (((t.AccessEntry (addr - IDX_SIZE)).1.AccessEntry (addr + IDX_SIZE)).1.AccessEntry addr).2 := by
      intro heq
      have hset := congrArg Prod.fst heq
      rw [AccessEntry_set, AccessEntry_set] at hset
      exact hhm hset
    obtain ⟨k, hk⟩ := ent_AccessEntry_of_ne hne
    rw [hk]
    refine congrArg some ((AccessMap_AccessEntry _ _).trans ?_)
    rw [mapOf_AccessEntry_of_ne hlh.symm]
  rw [h.ReadMap, h.entries, window]
  cases hh : (t.readEntries addr).2.ent_h with
  | none =>
    rw [hh] at hent
    cases hent
  | some q =>
    rw [hh, Option.map_some, Option.map_some, Option.some.injEq] at hent
    have hj : (j : ℕ) < MAP_Size := j.isLt
    rw [readInto, filled, if_pos ⟨by omega, by omega⟩, Nat.add_sub_cancel_left, mapAt, dif_pos hj, hent]

end Issue

end MemoryAccessMapTable

/-! ## What can be left in the statics -/

open MemoryAccessMapTable

/-- Statics that some calls of some tables left. -/
def Left (w : Wires) : Prop :=
  ∃ PrefFail PrefSucc calls s, run MapTables.step (MapTables.init PrefFail PrefSucc) calls = some s ∧ s.wires = w

section Left

/-- The blocks of one zone. -/
def zoneAddr (k : ℕ) : BitVec 64 := BitVec.ofNat 64 (2 ^ 14 + 64 * k)

/-- Accesses of the first `k` blocks. -/
def sweep (k : ℕ) : List (ℕ × MapCall) := (List.range k).map fun i => (0, .IssuePrefetch (zoneAddr i) false 0)

theorem GenIdx_val (addr : BitVec 64) : (GenIdx addr : ℕ) = addr.toNat / 64 % 256 := by
  have hmask : IDX_MASK.toNat = 2 ^ 8 - 1 := by decide
  show ((addr >>> BLK_BITS) &&& IDX_MASK).toNat = _
  rw [BitVec.toNat_and, hmask, Nat.and_two_pow_sub_one_eq_mod, BitVec.toNat_ushiftRight, Nat.shiftRight_eq_div_pow]
  rfl

theorem zoneAddr_toNat {k : ℕ} (hk : k < MAP_Size) : (zoneAddr k).toNat = 2 ^ 14 + 64 * k := by
  have hk' : k < 256 := hk
  rw [zoneAddr, BitVec.toNat_ofNat]
  omega

theorem GenIdx_zoneAddr (k : Fin MAP_Size) : GenIdx (zoneAddr k) = k := by
  have hk : (k : ℕ) < 256 := k.isLt
  apply Fin.ext
  rw [GenIdx_val, zoneAddr_toNat k.isLt]
  omega

theorem GenTag_zoneAddr {k : ℕ} (hk : k < MAP_Size) : GenTag (zoneAddr k) = GenTag (zoneAddr 0) := by
  have hk' : k < 256 := hk
  apply BitVec.eq_of_toNat_eq
  rw [GenTag_toNat, GenTag_toNat, zoneAddr_toNat hk, zoneAddr_toNat (by decide)]
  omega

/-- The state after a call of `IssuePrefetch`. -/
def issued (s : MapTables) (n : ℕ) (r : Issued) : MapTables where
  table := Function.update s.table n r.table
  wires := r.wires
  log := Function.update s.log n (r.entries.order.foldl record (s.log n))

theorem run_issue {s₀ s : MapTables} {calls : List (ℕ × MapCall)} {n : ℕ} {addr : BitVec 64} {MSHR_hit : Bool} {extra : ℤ}
    {r : Issued} (hs : run MapTables.step s₀ calls = some s)
    (hr : (s.table n).IssuePrefetch addr s.wires MSHR_hit extra = some r) :
    run MapTables.step s₀ (calls ++ [(n, .IssuePrefetch addr MSHR_hit extra)]) = some (issued s n r) := by
  have hstep : s.step (n, .IssuePrefetch addr MSHR_hit extra) = some (issued s n r) := by
    rw [MapTables.step, hr]
    rfl
  rw [run_append, hs, Option.bind_some]
  exact run_cons.2 ⟨_, hstep, rfl⟩

/-- **A sweep.** The blocks that were accessed are noted in the map of the zone, and the mode stays. -/
theorem run_sweep (PrefFail PrefSucc : ℕ → ℤ) {k : ℕ} (hk : k ≤ MAP_Size) :
    ∃ s, run MapTables.step (MapTables.init PrefFail PrefSucc) (sweep k) = some s ∧
      (s.table 0).PassiveMode = false ∧
      ∀ i : Fin MAP_Size, (s.table 0).mapOf (zoneAddr 0) i = if (i : ℕ) < k then .ACCESS else .INIT := by
  induction k with
  | zero =>
    refine ⟨_, rfl, rfl, fun i => ?_⟩
    rw [if_neg (by omega), mapOf]
    cases (MapTables.init PrefFail PrefSucc).table 0 |>.find (zoneAddr 0) (setIdx (zoneAddr 0)) <;> rfl
  | succ k ih =>
    obtain ⟨s, hs, hmode, hmap⟩ := ih (by omega)
    have hkm : k < MAP_Size := by omega
    have hidx : GenIdx (zoneAddr k) = ⟨k, hkm⟩ := GenIdx_zoneAddr ⟨k, hkm⟩
    have hzone : ∀ t : MemoryAccessMapTable, t.mapOf (zoneAddr k) = t.mapOf (zoneAddr 0) := fun t =>
      mapOf_congr t (GenTag_zoneAddr hkm)
    obtain ⟨r, hr, hans⟩ := IssuePrefetch_answers (s.table 0) (zoneAddr k) s.wires false 0
    -- the block comes after those that were accessed
    have hinit : (s.table 0).mapOf (zoneAddr k) (GenIdx (zoneAddr k)) = .INIT := by
      rw [hzone, hidx, hmap, if_neg (lt_irrefl k)]
    have hafter := mapOf_issue hans hinit
    rw [hzone, hzone, hidx] at hafter
    refine ⟨issued s 0 r, ?_, ?_, fun i => ?_⟩
    · rw [sweep, List.range_succ, List.map_append]
      exact run_issue hs hr
    · simp only [issued, Function.update_self]
      rw [hans.flags.2, PassiveMode_readEntries, hmode]
    · simp only [issued, Function.update_self]
      rw [hafter]
      rcases eq_or_ne i ⟨k, hkm⟩ with rfl | hi
      · rw [Function.update_self, if_pos (by simp)]
      · have hne : (i : ℕ) ≠ k := fun h => hi (Fin.ext h)
        rw [Function.update_of_ne hi, hmap]
        by_cases hlt : (i : ℕ) < k
        · rw [if_pos hlt, if_pos (by omega)]
        · rw [if_neg hlt, if_neg (by omega)]

theorem left_init : Left .init := ⟨fun _ => 0, fun _ => 0, [], _, rfl, rfl⟩

/-- **Everything accessed.** The access of a zone whose neighbour was swept leaves its blocks behind. -/
theorem exists_left : ∃ w, Left w ∧ ∀ j < MAP_Size, w.ReadMap (2 * MAP_Size + j) = .ACCESS := by
  obtain ⟨s, hs, hmode, hmap⟩ := run_sweep (fun _ => 0) (fun _ => 0) (le_refl MAP_Size)
  obtain ⟨r, hr, hans⟩ := IssuePrefetch_answers (s.table 0) 0 s.wires false 0
  refine ⟨r.wires, ⟨fun _ => 0, fun _ => 0, _, issued s 0 r, run_issue hs hr, rfl⟩, fun j hj => ?_⟩
  have hup : (0 : BitVec 64) + IDX_SIZE = zoneAddr 0 := by decide
  have hj' := hmap ⟨j, hj⟩
  rw [if_pos hj] at hj'
  rw [← hj', ← hup]
  exact ReadMap_issue hans hmode ⟨j, hj⟩

end Left

/-! ## Two calls -/

section TwoCalls

/-- What the entries hold. -/
def Entries.contents (e : Entries) (t : MemoryAccessMapTable) :
    Option MemoryAccessMap × MemoryAccessMap × Option MemoryAccessMap :=
  (e.ent_l.map t.ent, t.ent e.ent_m, e.ent_h.map t.ent)

/-- Tables with the same flags on which an access gets the same entries. -/
structure Agree (t t' : MemoryAccessMapTable) (addr : BitVec 64) : Prop where
  Aggressive : t.Aggressive = t'.Aggressive
  SaveEntry : t.SaveEntry = t'.SaveEntry
  ConflictAvoid : t.ConflictAvoid = t'.ConflictAvoid
  entries : (t.readEntries addr).2.contents (t.readEntries addr).1 =
    (t'.readEntries addr).2.contents (t'.readEntries addr).1

/-- **The candidates depend on nothing else** than what the access reads in the table. -/
def Independent (t : MemoryAccessMapTable) (addr : BitVec 64) : Prop :=
  ∀ t', Agree t t' addr → ∀ w w', Left w → Left w' → ∀ MSHR_hit MSHR_hit' extra extra' r r',
    t.IssuePrefetch addr w MSHR_hit extra = some r → t'.IssuePrefetch addr w' MSHR_hit' extra' = some r' →
    r.out = r'.out

/-- **Backward candidates near enough.** A block `i` before the accessed one that was not touched has the blocks
`i` after it in the zone, and where the zone ends before twice the distance, the history of the zone decides. -/
def Near (t : MemoryAccessMapTable) (addr : BitVec 64) : Prop :=
  ∀ i < MAP_Size / 2, i ≤ (GenIdx addr : ℕ) → t.zoneAt addr (GenIdx addr - i) = .INIT →
    GenIdx addr + i < MAP_Size ∧
    (MAP_Size ≤ GenIdx addr + 2 * i → t.IsAccessed (t.zoneAt addr (GenIdx addr + i)) = false) ∧
    (GenIdx addr + 2 * i + 1 = MAP_Size → t.IsAccessed (t.zoneAt addr (GenIdx addr + i)) = true →
      t.IsAccessed (t.zoneAt addr (GenIdx addr + 2 * i)) = true)

variable {t t' : MemoryAccessMapTable} {addr : BitVec 64} {e e' : Entries} {R R' : ℕ → MemoryAccessMapState} {j g i : ℕ}

theorem readInto_none (t : MemoryAccessMapTable) (off : ℕ) (R : ℕ → MemoryAccessMapState) :
    t.readInto none off R = R := rfl

theorem readInto_congr {ent ent' : Option EntryRef} (h : ent.map t.ent = ent'.map t'.ent) (off : ℕ) :
    t.readInto ent off R = t'.readInto ent' off R := by
  cases ent with
  | none =>
    cases ent' with
    | none => rfl
    | some q => cases h
  | some p =>
    cases ent' with
    | none => cases h
    | some q =>
      rw [Option.map_some, Option.map_some, Option.some.injEq] at h
      have hmap : t.mapAt p = t'.mapAt q := by
        funext j
        rw [mapAt, mapAt, h]
      rw [readInto, readInto, hmap]

theorem window_congr (h : e.contents t = e'.contents t') : t.window e R = t'.window e' R := by
  simp only [Entries.contents, Prod.mk.injEq] at h
  have hm : (some e.ent_m).map t.ent = (some e'.ent_m).map t'.ent := congrArg some h.2.1
  rw [window, window, readInto_congr h.1, readInto_congr hm, readInto_congr h.2.2]

/-- The maps of the zone and of the one below are read below the last third. -/
theorem window_of_lt (hj : j < 2 * MAP_Size) : t.window e R j = t.readInto (some e.ent_m) (1 * MAP_Size)
    (t.readInto e.ent_l (0 * MAP_Size) (filled 0 MAP_Size (fun _ => .INIT) R)) j := by
  have hout : ¬(2 * MAP_Size ≤ j ∧ j < 2 * MAP_Size + MAP_Size) := by omega
  rw [window]
  cases e.ent_h with
  | none => rfl
  | some q => exact filled_of_notMem _ _ hout

/-- The second third is the map of the zone. -/
theorem window_mid (hm : MAP_Size ≤ j) (hj : j < 2 * MAP_Size) :
    t.window e R j = t.mapAt e.ent_m (j - MAP_Size) := by
  have hlo : 1 * MAP_Size ≤ j := by omega
  have hhi : j < 1 * MAP_Size + MAP_Size := by omega
  rw [window_of_lt hj, readInto, filled_of_mem _ _ hlo hhi, Nat.one_mul]

/-- The first two thirds of `ReadMap` are written by each call. -/
theorem window_low (hj : j < 2 * MAP_Size) : t.window e R j = t.window e R' j := by
  by_cases hm : MAP_Size ≤ j
  · rw [window_mid hm hj, window_mid hm hj]
  · have hout : ¬(1 * MAP_Size ≤ j ∧ j < 1 * MAP_Size + MAP_Size) := by omega
    have hfirst : j < 0 + MAP_Size := by omega
    have hlt : j < 0 * MAP_Size + MAP_Size := by omega
    rw [window_of_lt hj, window_of_lt hj, readInto, readInto, filled_of_notMem _ _ hout, filled_of_notMem _ _ hout]
    cases e.ent_l with
    | none =>
      rw [readInto_none, readInto_none]
      exact filled_congr _ _ _ (Nat.zero_le j) hfirst
    | some q => exact filled_congr _ _ _ (by omega) hlt

/-- Outside of the passive mode, so is the last one. -/
theorem window_high {q : EntryRef} (hh : e.ent_h = some q) (hj : j < 3 * MAP_Size) : t.window e R j = t.window e R' j := by
  by_cases hlow : j < 2 * MAP_Size
  · exact window_low hlow
  · have hlo : 2 * MAP_Size ≤ j := by omega
    have hhi : j < 2 * MAP_Size + MAP_Size := by omega
    rw [window, window, hh]
    exact filled_congr _ _ _ hlo hhi

/-- In passive mode, the last one is what other calls left. -/
theorem window_stale (hh : e.ent_h = none) (hj : 2 * MAP_Size ≤ j) : t.window e R j = R j := by
  have hm : ¬(1 * MAP_Size ≤ j ∧ j < 1 * MAP_Size + MAP_Size) := by omega
  have hl : ¬(0 * MAP_Size ≤ j ∧ j < 0 * MAP_Size + MAP_Size) := by omega
  have hi : ¬(0 ≤ j ∧ j < 0 + MAP_Size) := by omega
  rw [window, hh]
  show t.readInto (some e.ent_m) _ _ j = R j
  rw [readInto, filled_of_notMem _ _ hm]
  cases e.ent_l with
  | none =>
    rw [readInto_none]
    exact filled_of_notMem _ _ hi
  | some q => exact (filled_of_notMem _ _ hl).trans (filled_of_notMem _ _ hi)

/-- The forward candidates of the passive mode need the first two thirds only. -/
theorem fwdAt_passive (ht : t.PassiveMode = true) (hg : g < MAP_Size)
    (hR : ∀ j < 2 * MAP_Size, R j = R' j) : t.fwdAt g R i = t.fwdAt g R' i := by
  rw [fwdAt, fwdAt, hR (MAP_Size + g - i) (by omega), hR (MAP_Size + g - (2 * i + 0)) (by omega),
    hR (MAP_Size + g - (2 * i + 1)) (by omega)]
  by_cases hp : MAP_Size + g + i < 2 * MAP_Size
  · rw [hR _ hp]
  · have hcand : ∀ state, IsCandidate state (MAP_Size + g + i) t.PassiveMode = false := by
      intro state
      simp [IsCandidate, ht, hp]
    rw [hcand, hcand]

/-- **Backward candidates of the passive mode.** The history of the zone decides, then what was left. -/
theorem bwdAt_passive (ht : t.PassiveMode = true) (hg : g < MAP_Size)
    (hmid : ∀ j < MAP_Size, R (MAP_Size + j) = t.mapAt e.ent_m j) :
    t.bwdAt g R i = (decide (i ≤ g ∧ t.mapAt e.ent_m (g - i) = .INIT) && t.IsAccessed (R (MAP_Size + (g + i))) &&
      (t.IsAccessed (R (MAP_Size + (g + 2 * i))) || t.IsAccessed (R (MAP_Size + (g + 2 * i + 1))))) := by
  have hcand : IsCandidate (R (MAP_Size + g - i)) (MAP_Size + g - i) t.PassiveMode =
      decide (i ≤ g ∧ t.mapAt e.ent_m (g - i) = .INIT) := by
    by_cases hle : i ≤ g
    · have hidx : MAP_Size + g - i = MAP_Size + (g - i) := by omega
      have hlo : MAP_Size ≤ MAP_Size + (g - i) := by omega
      have hhi : MAP_Size + (g - i) < 2 * MAP_Size := by omega
      have hbeq : ∀ state : MemoryAccessMapState, (state == .INIT) = decide (state = .INIT) := fun _ => rfl
      rw [hidx, hmid _ (by omega)]
      simp [IsCandidate, ht, hle, hhi, hbeq]
    · have hlo : ¬MAP_Size ≤ MAP_Size + g - i := by omega
      simp [IsCandidate, ht, hle, hlo]
  rw [bwdAt, hcand, Nat.add_assoc, Nat.add_assoc, Nat.add_assoc]
  rfl

theorem IsAccessed_congr (h : t.Aggressive = t'.Aggressive) : t.IsAccessed = t'.IsAccessed := by
  funext state
  cases state <;> simp [IsAccessed, h]

/-- `ReadMap` during a call when it was `R` before. -/
def seen (t : MemoryAccessMapTable) (addr : BitVec 64) (R : ℕ → MemoryAccessMapState) : ℕ → MemoryAccessMapState :=
  (t.readEntries addr).1.window (t.readEntries addr).2 R

/-- Two calls that agree and see the same around the block have the same candidates. -/
theorem out_eq {w w' : Wires} {r r' : Issued} (hag : Agree t t' addr) (h : Answers t addr w r)
    (h' : Answers t' addr w' r')
    (hsee : ∀ i < MAP_Size / 2,
      (t.readEntries addr).1.fwdAt (GenIdx addr) (seen t addr w.ReadMap) i =
        (t.readEntries addr).1.fwdAt (GenIdx addr) (seen t addr w'.ReadMap) i ∧
      (t.readEntries addr).1.bwdAt (GenIdx addr) (seen t addr w.ReadMap) i =
        (t.readEntries addr).1.bwdAt (GenIdx addr) (seen t addr w'.ReadMap) i) :
    r.out = r'.out := by
  obtain ⟨ha, hs, hc⟩ := flags_readEntries t addr
  obtain ⟨ha', hs', hc'⟩ := flags_readEntries t' addr
  have hAgg : (t.readEntries addr).1.Aggressive = (t'.readEntries addr).1.Aggressive := by rw [ha, ha', hag.Aggressive]
  have hmode : (t.readEntries addr).1.PassiveMode = (t'.readEntries addr).1.PassiveMode := by
    rw [PassiveMode, PassiveMode, hs, hs', hc, hc', hag.SaveEntry, hag.ConflictAvoid]
  have hread : r.wires.ReadMap = seen t addr w.ReadMap := by rw [h.ReadMap, h.entries, seen]
  have hread' : r'.wires.ReadMap = seen t addr w'.ReadMap := by
    rw [h'.ReadMap, h'.entries, seen, window_congr hag.entries]
  have hfwd : r.out.FwdPrefMap = r'.out.FwdPrefMap := by
    funext i
    rw [h.FwdPrefMap, h'.FwdPrefMap, hread, hread', (hsee i i.isLt).1, fwdAt, fwdAt, IsAccessed_congr hAgg, hmode]
  have hbwd : r.out.BwdPrefMap = r'.out.BwdPrefMap := by
    funext i
    rw [h.BwdPrefMap, h'.BwdPrefMap, hread, hread', (hsee i i.isLt).2, bwdAt, bwdAt, IsAccessed_congr hAgg, hmode]
  have hm : (t.readEntries addr).1.ent (t.readEntries addr).2.ent_m =
      (t'.readEntries addr).1.ent (t'.readEntries addr).2.ent_m := (Prod.mk.inj (Prod.mk.inj hag.entries).2).1
  have hnum : (t.readEntries addr).1.numPref (t.readEntries addr).2.ent_m =
      (t'.readEntries addr).1.numPref (t'.readEntries addr).2.ent_m := by
    rw [numPref, numPref, hc, hc', hag.ConflictAvoid, hm]
  have hnf : r.out.NumFwdPref = r'.out.NumFwdPref := by rw [h.NumFwdPref, h'.NumFwdPref, h.entries, h'.entries, hnum]
  have hnb : r.out.NumBwdPref = r'.out.NumBwdPref := by rw [h.NumBwdPref, h'.NumBwdPref, h.entries, h'.entries, hnum]
  obtain ⟨_, _, _, _⟩ := r
  obtain ⟨_, _, _, ⟨_, _, _, _⟩⟩ := r'
  simp only at hfwd hbwd hnf hnb
  rw [← hfwd, ← hbwd, ← hnf, ← hnb]

theorem readEntries_passive (ht : t.PassiveMode = true) : (t.readEntries addr).2.ent_h = none := by
  rw [readEntries, ht]
  rfl

theorem readEntries_active (ht : t.PassiveMode = false) : ∃ q, (t.readEntries addr).2.ent_h = some q := by
  rw [readEntries, ht]
  exact ⟨_, rfl⟩

/-- The map of the zone is what a call sees of it. -/
theorem seen_mid (R : ℕ → MemoryAccessMapState) (hj : j < MAP_Size) :
    seen t addr R (MAP_Size + j) = t.zoneAt addr j := by
  rw [seen, window_mid (by omega) (by omega), Nat.add_sub_cancel_left, mapAt_readEntries]

/-- **Backward candidates of the passive mode**, as a call sees them. -/
theorem bwdAt_seen (ht : t.PassiveMode = true) (R : ℕ → MemoryAccessMapState) (i : ℕ) :
    (t.readEntries addr).1.bwdAt (GenIdx addr) (seen t addr R) i =
      (decide (i ≤ (GenIdx addr : ℕ) ∧ t.zoneAt addr (GenIdx addr - i) = .INIT) &&
        t.IsAccessed (seen t addr R (MAP_Size + (GenIdx addr + i))) &&
        (t.IsAccessed (seen t addr R (MAP_Size + (GenIdx addr + 2 * i))) ||
          t.IsAccessed (seen t addr R (MAP_Size + (GenIdx addr + 2 * i + 1))))) := by
  have hacc : (t.readEntries addr).1.IsAccessed = t.IsAccessed := IsAccessed_congr (flags_readEntries t addr).1
  have hmode : (t.readEntries addr).1.PassiveMode = true := by rw [PassiveMode_readEntries, ht]
  have hmid : ∀ j < MAP_Size, seen t addr R (MAP_Size + j) =
      (t.readEntries addr).1.mapAt (t.readEntries addr).2.ent_m j := by
    intro j hj
    rw [seen_mid R hj, mapAt_readEntries]
  rw [bwdAt_passive hmode (GenIdx addr).isLt hmid, hacc, mapAt_readEntries]

/-- Where the candidates are near enough, what was left does not decide. -/
theorem bwdAt_of_near (ht : t.PassiveMode = true) (hnear : Near t addr) (hi : i < MAP_Size / 2)
    (R R' : ℕ → MemoryAccessMapState) :
    (t.readEntries addr).1.bwdAt (GenIdx addr) (seen t addr R) i =
      (t.readEntries addr).1.bwdAt (GenIdx addr) (seen t addr R') i := by
  rw [bwdAt_seen ht, bwdAt_seen ht]
  by_cases hc : i ≤ (GenIdx addr : ℕ) ∧ t.zoneAt addr (GenIdx addr - i) = .INIT
  · obtain ⟨h1, h2, h3⟩ := hnear i hi hc.1 hc.2
    rw [seen_mid R h1, seen_mid R' h1]
    -- Twice the distance lies in the zone, or ends with it, or the block at the distance was not accessed.
    rcases Nat.lt_or_ge (GenIdx addr + 2 * i) MAP_Size with hlt | hge
    · rw [seen_mid R hlt, seen_mid R' hlt]
      by_cases hmore : GenIdx addr + 2 * i + 1 < MAP_Size
      · rw [seen_mid R hmore, seen_mid R' hmore]
      · have h3' := h3 (by omega)
        cases hA : t.IsAccessed (t.zoneAt addr (GenIdx addr + i)) with
        | false => simp
        | true => simp [h3' hA]
    · simp [h2 hge]
  · simp [hc]

/-- Where they are not, it does. -/
theorem near_of_bwdAt (ht : t.PassiveMode = true) (hnone : ∀ j < MAP_Size, R (2 * MAP_Size + j) = .INIT)
    (hall : ∀ j < MAP_Size, R' (2 * MAP_Size + j) = .ACCESS)
    (heq : ∀ i < MAP_Size / 2, (t.readEntries addr).1.bwdAt (GenIdx addr) (seen t addr R) i =
      (t.readEntries addr).1.bwdAt (GenIdx addr) (seen t addr R') i) : Near t addr := by
  have hg : (GenIdx addr : ℕ) < MAP_Size := (GenIdx addr).isLt
  have hhigh : ∀ (S : ℕ → MemoryAccessMapState) (k : ℕ), MAP_Size ≤ k →
      seen t addr S (MAP_Size + k) = S (2 * MAP_Size + (k - MAP_Size)) := by
    intro S k hk
    have hidx : MAP_Size + k = 2 * MAP_Size + (k - MAP_Size) := by omega
    rw [seen, hidx, window_stale (readEntries_passive ht) (by omega)]
  -- above the zone of `addr`, one of the calls sees nothing accessed and the other one everything
  have hno : ∀ k, MAP_Size ≤ k → k < 2 * MAP_Size → t.IsAccessed (seen t addr R (MAP_Size + k)) = false := by
    intro k hk hk'
    rw [hhigh R k hk, hnone _ (by omega)]
    rfl
  have hyes : ∀ k, MAP_Size ≤ k → k < 2 * MAP_Size → t.IsAccessed (seen t addr R' (MAP_Size + k)) = true := by
    intro k hk hk'
    rw [hhigh R' k hk, hall _ (by omega)]
    rfl
  intro i hi hle hcand
  have hi' := heq i hi
  rw [bwdAt_seen ht, bwdAt_seen ht, decide_eq_true ⟨hle, hcand⟩, Bool.true_and, Bool.true_and] at hi'
  have h1 : (GenIdx addr : ℕ) + i < MAP_Size := by
    by_contra hge
    rw [hno _ (by omega) (by omega), hyes _ (by omega) (by omega), hyes (GenIdx addr + 2 * i) (by omega) (by omega)] at hi'
    simp at hi'
  rw [seen_mid R h1, seen_mid R' h1] at hi'
  refine ⟨h1, fun hge => ?_, fun hlast hA => ?_⟩
  · rw [hno _ hge (by omega), hno (GenIdx addr + 2 * i + 1) (by omega) (by omega), hyes _ hge (by omega)] at hi'
    simpa using hi'.symm
  · have hlt : (GenIdx addr : ℕ) + 2 * i < MAP_Size := by omega
    rw [seen_mid R hlt, seen_mid R' hlt, hno _ (le_of_eq hlast.symm) (by omega),
      hyes _ (le_of_eq hlast.symm) (by omega), hA] at hi'
    simpa using hi'

/-- Without the condition, a new program and one that swept the zone above differ. -/
theorem near_of_independent (hind : Independent t addr) (ht : t.PassiveMode = true) : Near t addr := by
  obtain ⟨w', hw', hall⟩ := exists_left
  obtain ⟨r, hr, h⟩ := IssuePrefetch_answers t addr .init false 0
  obtain ⟨r', hr', h'⟩ := IssuePrefetch_answers t addr w' false 0
  have hout : r.out = r'.out := hind t ⟨rfl, rfl, rfl, rfl⟩ _ _ left_init hw' _ _ _ _ r r' hr hr'
  refine near_of_bwdAt (R := Wires.init.ReadMap) ht (fun j _ => rfl) hall fun i hi => ?_
  have hb := h.BwdPrefMap ⟨i, hi⟩
  have hb' := h'.BwdPrefMap ⟨i, hi⟩
  rw [h.ReadMap, h.entries] at hb
  rw [h'.ReadMap, h'.entries, ← hout] at hb'
  exact hb.symm.trans hb'

/-- With it, two calls that agree have the same candidates. -/
theorem independent_of_near (hnear : t.PassiveMode = true → Near t addr) : Independent t addr := by
  have hg : (GenIdx addr : ℕ) < MAP_Size := (GenIdx addr).isLt
  intro t' hag w w' _ _ MSHR_hit MSHR_hit' extra extra' r r' hr hr'
  obtain ⟨u, hu, h⟩ := IssuePrefetch_answers t addr w MSHR_hit extra
  obtain ⟨u', hu', h'⟩ := IssuePrefetch_answers t' addr w' MSHR_hit' extra'
  obtain rfl : u = r := Option.some.inj (hu.symm.trans hr)
  obtain rfl : u' = r' := Option.some.inj (hu'.symm.trans hr')
  refine out_eq hag h h' fun i hi => ?_
  cases ht : t.PassiveMode with
  | true =>
    have hmode : (t.readEntries addr).1.PassiveMode = true := by rw [PassiveMode_readEntries, ht]
    exact ⟨fwdAt_passive hmode hg fun j hj => window_low hj, bwdAt_of_near ht (hnear ht) hi _ _⟩
  | false =>
    obtain ⟨q, hq⟩ : ∃ q, (t.readEntries addr).2.ent_h = some q := readEntries_active ht
    have hsame : ∀ j < 3 * MAP_Size, seen t addr w.ReadMap j = seen t addr w'.ReadMap j := fun j hj => window_high hq hj
    constructor
    · rw [fwdAt, fwdAt, hsame _ (by omega), hsame _ (by omega), hsame _ (by omega), hsame _ (by omega)]
    · rw [bwdAt, bwdAt, hsame _ (by omega), hsame _ (by omega), hsame _ (by omega), hsame _ (by omega)]

/-- **Candidates of an access.** They depend on nothing but what the access reads in the table exactly when
the mode is not passive, or the backward candidates are near enough. -/
theorem independent_iff (t : MemoryAccessMapTable) (addr : BitVec 64) :
    Independent t addr ↔ (t.PassiveMode = true → Near t addr) :=
  ⟨near_of_independent, independent_of_near⟩

/-- In passive mode, the candidates of an access of the last block of a new zone are not determined. -/
theorem not_independent : ¬Independent { MemoryAccessMapTable.init 0 0 with SaveEntry := true } 0x3fc0 := by
  intro hind
  have hlast := near_of_independent hind rfl 1 (by decide) (by decide) (by decide)
  exact absurd hlast.1 (by decide)

end TwoCalls

end Esesc.Core
