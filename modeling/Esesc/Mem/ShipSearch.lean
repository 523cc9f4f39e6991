import Mathlib.Logic.Function.Iterate
import Esesc.Lib.Machine
import Esesc.Suc.CacheSHIP
import Esesc.Mem.Cache

/-!
# The victim search of `CacheSHIP` and the class of its lines (`CacheCore.{h,cpp}`, `Cache.h`)

`findLine2Replace` scans the set for a line that has the tag, is invalid or is distant. While there is none, it calls
`incRRPV` on every line and scans again. That this ends is up to the line class: `StateGenericShip` counts, but in
`StateGeneric`, which `Cache::CState` inherits, `getRRPV` is 0 and `incRRPV` does nothing.

* `choose_isSome_iff`: the loop ends exactly when some line stops a scan after some number of increments.
* `findLine2Replace_ship`: with `StateGenericShip` lines this is the search of `CacheSHIP`.
* `ship_returns_iff`: which searches end, for both line classes.
-/

namespace Esesc.Suc

/-! ## The line classes -/

namespace StateGeneric

/-- In a release build: `I(0)` is compiled out of the setters. -/
def getSignature (_ : StateGeneric) : AddrType := 0
def setSignature (s : StateGeneric) (_ : AddrType) : StateGeneric := s
def getOutcome (_ : StateGeneric) : Bool := false
def setOutcome (s : StateGeneric) (_ : Bool) : StateGeneric := s
def getRRPV (_ : StateGeneric) : ℕ := 0
def setRRPV (s : StateGeneric) (_ : ℕ) : StateGeneric := s
def incRRPV (s : StateGeneric) : StateGeneric := s

end StateGeneric

instance : LineState StateGenericShip where
  new := ⟨0, RRIP_M - 1, 0, false⟩
  getTag s := s.tag
  setTag := StateGenericShip.setTag
  isValid := StateGenericShip.isValid
  invalidate := StateGenericShip.invalidate
  getTag_new := rfl
  getTag_setTag _ _ := rfl
  getTag_invalidate _ := rfl

/-- What `CacheSHIP` asks of the class its lines are made of. `M` are the methods by which the owner of the cache
changes a line that it was given. -/
class ShipState (S : Type) (M : outParam Type) extends LineState S where
  getSignature : S → AddrType
  setSignature : S → AddrType → S
  getOutcome : S → Bool
  setOutcome : S → Bool → S
  getRRPV : S → ℕ
  setRRPV : S → ℕ → S
  incRRPV : S → S
  own : M → S → S
  getTag_incRRPV : ∀ s, getTag (incRRPV s) = getTag s
  isValid_incRRPV : ∀ s, isValid (incRRPV s) = isValid s

export ShipState (getRRPV incRRPV)

instance : ShipState StateGenericShip Unit where
  getSignature s := s.signature
  setSignature := StateGenericShip.setSignature
  getOutcome s := s.outcome
  setOutcome := StateGenericShip.setOutcome
  getRRPV s := s.rrpv
  setRRPV := StateGenericShip.setRRPV
  incRRPV := StateGenericShip.incRRPV
  own _ := StateGenericShip.invalidate
  getTag_incRRPV _ := rfl
  isValid_incRRPV _ := rfl

end Esesc.Suc

namespace Esesc.Mem

open Esesc.Lib Esesc.Suc

/-- The methods by which `Cache` changes a line. -/
inductive CState.Method where
  | setModified
  | setExclusive
  | setShared
  | invalidate
  | setExtraBit
  | resetExtraBit
  | prefetchNone
  | prefetchPcore
  | prefetchHardware
  deriving Repr, DecidableEq

def CState.resetExtraBit (s : CState) : CState := { s with extraBit := 0 }

/-- A call of one of them. -/
def CState.call (s : CState) : CState.Method → CState
  | .setModified => s.setModified
  | .setExclusive => s.setExclusive
  | .setShared => s.setShared
  | .invalidate => Suc.invalidate s
  | .setExtraBit => s.setExtraBit
  | .resetExtraBit => s.resetExtraBit
  | .prefetchNone => s.prefetchNone
  | .prefetchPcore => s.prefetchPcore
  | .prefetchHardware => s.prefetchHardware

instance : ShipState CState CState.Method where
  getSignature s := s.toStateGeneric.getSignature
  setSignature s a := { s with toStateGeneric := s.toStateGeneric.setSignature a }
  getOutcome s := s.toStateGeneric.getOutcome
  setOutcome s a := { s with toStateGeneric := s.toStateGeneric.setOutcome a }
  getRRPV s := s.toStateGeneric.getRRPV
  setRRPV s a := { s with toStateGeneric := s.toStateGeneric.setRRPV a }
  incRRPV s := { s with toStateGeneric := s.toStateGeneric.incRRPV }
  own m s := s.call m
  getTag_incRRPV _ := rfl
  isValid_incRRPV _ := rfl

/-! ## The array -/

/-- A `CacheSHIP` with lines of class `S`. -/
structure ShipCache (S : Type) where
  mem : ℕ → S
  SHCT : ℕ → ℕ
  log2shct : ℕ

namespace ShipCache

open CacheSHIP (ways setOf)

variable {S M : Type} [ShipState S M]

/-- The constructor, on the memory that it finds for the table of counters. -/
def new (log2shct : ℕ) (table : ℕ → ℕ) : ShipCache S where
  mem _ := LineState.new
  SHCT j := if j < 2 ^^^ log2shct then 0 else table j
  log2shct := log2shct

/-- The usable signature. -/
def signature (s : ShipCache S) (SHIP_signature : AddrType) : AddrType :=
  (SHIP_signature ^^^ ((SHIP_signature >>> 1) + (SHIP_signature &&& 0xFFFFFFFF))) &&&
    BitVec.ofNat 64 (2 <<< s.log2shct - 1)

/-- Apply `f` to line `l`. -/
def updLine (s : ShipCache S) (l : ℕ) (f : S → S) : ShipCache S :=
  { s with mem := Function.update s.mem l (f (s.mem l)) }

/-- The update of a hit. -/
def hitSHIP (s : ShipCache S) (l : ℕ) (SHIP_signature : AddrType) : ShipCache S :=
  let signature := (s.signature SHIP_signature).toNat
  { s.updLine l (ShipState.setOutcome · true) with
    SHCT := if s.SHCT signature < 7 then Function.update s.SHCT signature (s.SHCT signature + 1) else s.SHCT }

/-- `CacheSHIP::findLinePrivate`. -/
def findLine (g : Geometry) (s : ShipCache S) (addr : AddrType) (updateSHIP : Bool) (SHIP_signature : AddrType) :
    Option ℕ × ShipCache S :=
  let tag := g.calcTag addr
  let theSet := g.calcIndex4Tag tag
  match (ways g theSet).find? fun l => getTag (s.mem l) = tag with
  | none => (none, s)
  | some l =>
    let s := if updateSHIP then s.hitSHIP l SHIP_signature else s
    (some l, s.updLine l (ShipState.setRRPV · 0))

/-- The scan of `findLine2Replace` ends here. -/
def stopsAt (s : ShipCache S) (tag : AddrType) (l : ℕ) : Bool :=
  getTag (s.mem l) = tag || !isValid (s.mem l) || decide (getRRPV (s.mem l) ≥ RRIP_M - 1)

/-- `incRRPV` on every line of the set. -/
def age (g : Geometry) (theSet : ℕ) (s : ShipCache S) : ShipCache S :=
  (ways g theSet).foldl (fun s l => s.updLine l incRRPV) s

/-- At most that many rounds of the loop of `findLine2Replace`: the line that it takes, if it has ended by then. -/
def choose (g : Geometry) (tag : AddrType) (theSet : ℕ) : ℕ → ShipCache S → Option (ℕ × ShipCache S)
  | 0, _ => none
  | rounds + 1, s =>
    match (ways g theSet).find? (s.stopsAt tag) with
    | some l => some (l, s)
    | none => choose g tag theSet rounds (age g theSet s)

/-- The update of a replacement. -/
def replaceSHIP (s : ShipCache S) (l : ℕ) (SHIP_signature : AddrType) : ShipCache S :=
  let signature := s.signature SHIP_signature
  let signature_m := (ShipState.getSignature (s.mem l)).toNat
  let SHCT :=
    if isValid (s.mem l) ∧ ShipState.getOutcome (s.mem l) = false ∧ 0 < s.SHCT signature_m then
      Function.update s.SHCT signature_m (s.SHCT signature_m - 1)
    else s.SHCT
  { s.updLine l fun line =>
      ShipState.setRRPV (ShipState.setSignature (ShipState.setOutcome line false) signature)
        (if SHCT signature.toNat = 0 then RRIP_M - 1 else RRIP_M / 2) with
    SHCT }

/-- `CacheSHIP::findLine2Replace`, if its loop has ended after that many rounds. -/
def findLine2Replace (g : Geometry) (s : ShipCache S) (addr : AddrType) (updateSHIP : Bool) (SHIP_signature : AddrType)
    (rounds : ℕ) : Option (ℕ × ShipCache S) :=
  let tag := g.calcTag addr
  let theSet := g.calcIndex4Tag tag
  (choose g tag theSet rounds s).map fun r =>
    (r.1, if updateSHIP then r.2.replaceSHIP r.1 SHIP_signature
      else r.2.updLine r.1 (ShipState.setRRPV · (RRIP_M / 2)))

/-- `fillLine(addr, rplcAddr, …)`. -/
def fillLine (g : Geometry) (s : ShipCache S) (addr : AddrType) (updateSHIP : Bool) (SHIP_signature : AddrType)
    (rounds : ℕ) : Option (ℕ × AddrType × ShipCache S) :=
  (s.findLine2Replace g addr updateSHIP SHIP_signature rounds).map fun r =>
    let newTag := g.calcTag addr
    let curTag := getTag (r.2.mem r.1)
    let rplcAddr := if isValid (r.2.mem r.1) ∧ curTag ≠ newTag then g.calcAddr4Tag curTag else 0
    (r.1, rplcAddr, r.2.updLine r.1 (setTag · newTag))

/-- The operations on the array, and the calls of the owner on its lines. -/
inductive Op (M : Type) where
  | findLine (addr : AddrType) (updateSHIP : Bool) (SHIP_signature : AddrType)
  | fillLine (addr : AddrType) (updateSHIP : Bool) (SHIP_signature : AddrType) (rounds : ℕ)
  | own (line : ℕ) (method : M)
  deriving Repr, DecidableEq

/-- One operation. Addresses have a tag, and lines are lines of the array. A fill is over when its loop has ended. -/
def step (g : Geometry) (s : ShipCache S) : Op M → Option (ShipCache S)
  | .findLine addr updateSHIP sig => if g.calcTag addr ≠ 0 then some (s.findLine g addr updateSHIP sig).2 else none
  | .fillLine addr updateSHIP sig rounds =>
    if g.calcTag addr ≠ 0 then (s.fillLine g addr updateSHIP sig rounds).map (·.2.2) else none
  | .own line method => if line < g.numLines then some (s.updLine line (ShipState.own method)) else none

/-! ## When the loop ends -/

section Loop

variable {g : Geometry} {s : ShipCache S} {tag : AddrType} {theSet : ℕ}

omit [ShipState S M] in
theorem foldl_updLine (ls : List ℕ) (hnd : ls.Nodup) (f : S → S) (s : ShipCache S) (x : ℕ) :
    (ls.foldl (fun s l => s.updLine l f) s).mem x = if x ∈ ls then f (s.mem x) else s.mem x := by
  induction ls generalizing s with
  | nil => simp
  | cons l ls ih =>
    obtain ⟨hl, hnd⟩ := List.nodup_cons.1 hnd
    rw [List.foldl_cons, ih hnd]
    by_cases hx : x = l
    · subst hx
      simp [hl, updLine]
    · simp [hx, updLine]

theorem age_mem (s : ShipCache S) {l : ℕ} (hl : l ∈ ways g theSet) : (age g theSet s).mem l = incRRPV (s.mem l) := by
  have hnd : (ways g theSet).Nodup := List.nodup_range'
  unfold age
  rw [foldl_updLine _ hnd, if_pos hl]

theorem iterate_age_mem (n : ℕ) (s : ShipCache S) {l : ℕ} (hl : l ∈ ways g theSet) :
    ((age g theSet)^[n] s).mem l = incRRPV^[n] (s.mem l) := by
  induction n generalizing s with
  | zero => rfl
  | succ n ih =>
    rw [Function.iterate_succ_apply, Function.iterate_succ_apply, ih, age_mem s hl]

omit [ShipState S M] in
theorem first_mem (g : Geometry) (theSet : ℕ) : theSet ∈ ways g theSet := by
  have := g.assoc_pos
  exact CacheSHIP.mem_ways.2 ⟨le_rfl, by omega⟩

theorem getTag_iterate (n : ℕ) (x : S) : getTag (incRRPV^[n] x) = getTag x := by
  induction n generalizing x with
  | zero => rfl
  | succ n ih => rw [Function.iterate_succ_apply, ih, ShipState.getTag_incRRPV]

theorem isValid_iterate (n : ℕ) (x : S) : isValid (incRRPV^[n] x) = isValid x := by
  induction n generalizing x with
  | zero => rfl
  | succ n ih => rw [Function.iterate_succ_apply, ih, ShipState.isValid_incRRPV]

/-- The loop has ended by a round exactly when a line stops one of the scans. -/
theorem choose_isSome_iff (rounds : ℕ) :
    (choose g tag theSet rounds s).isSome = true ↔
      ∃ n < rounds, ∃ l ∈ ways g theSet, ((age g theSet)^[n] s).stopsAt tag l = true := by
  induction rounds generalizing s with
  | zero => simp [choose]
  | succ rounds ih =>
    rw [choose]
    split
    · rename_i l hl
      have hstop : s.stopsAt tag l = true := List.find?_some hl
      exact ⟨fun _ => ⟨0, Nat.succ_pos _, l, List.mem_of_find?_eq_some hl, hstop⟩, fun _ => rfl⟩
    · rename_i hnone
      rw [ih]
      constructor
      · rintro ⟨n, hn, l, hl, hstop⟩
        exact ⟨n + 1, by omega, l, hl, hstop⟩
      · rintro ⟨n, hn, l, hl, hstop⟩
        cases n with
        | zero =>
          -- the scan of this round has found nothing
          exact absurd hstop (List.find?_eq_none.1 hnone l hl)
        | succ n => exact ⟨n, by omega, l, hl, hstop⟩

/-- What the loop takes is a line of the set. -/
theorem choose_mem {rounds : ℕ} {r : ℕ × ShipCache S} (h : choose g tag theSet rounds s = some r) :
    r.1 ∈ ways g theSet := by
  induction rounds generalizing s with
  | zero => cases h
  | succ rounds ih =>
    rw [choose] at h
    split at h
    · rename_i l hl
      obtain rfl := Option.some.inj h
      exact List.mem_of_find?_eq_some hl
    · exact ih h

theorem stopsAt_iterate (n : ℕ) {l : ℕ} (hl : l ∈ ways g theSet) :
    ((age g theSet)^[n] s).stopsAt tag l = true ↔
      getTag (s.mem l) = tag ∨ isValid (s.mem l) = false ∨ RRIP_M - 1 ≤ getRRPV (incRRPV^[n] (s.mem l)) := by
  unfold stopsAt
  rw [iterate_age_mem n s hl, getTag_iterate, isValid_iterate]
  simp [or_assoc]

end Loop

/-- **The search returns**: its loop ends, and the line is one of the set. -/
def Returns (g : Geometry) (s : ShipCache S) (addr : AddrType) (updateSHIP : Bool) (SHIP_signature : AddrType) : Prop :=
  ∃ rounds r, s.findLine2Replace g addr updateSHIP SHIP_signature rounds = some r ∧ r.1 ∈ setOf g addr

/-- It does when some line of the set has the tag, is invalid, or becomes distant when it is aged. -/
theorem returns_iff (g : Geometry) (s : ShipCache S) (addr : AddrType) (upd : Bool) (sig : AddrType) :
    s.Returns g addr upd sig ↔
      ∃ l ∈ setOf g addr, getTag (s.mem l) = g.calcTag addr ∨ isValid (s.mem l) = false ∨
        ∃ n, RRIP_M - 1 ≤ getRRPV (incRRPV^[n] (s.mem l)) := by
  have hends : s.Returns g addr upd sig ↔
      ∃ rounds, (choose g (g.calcTag addr) (g.calcIndex4Tag (g.calcTag addr)) rounds s).isSome = true := by
    constructor
    · rintro ⟨rounds, r, hr, -⟩
      obtain ⟨c, hc, -⟩ := Option.map_eq_some_iff.1 hr
      exact ⟨rounds, Option.isSome_iff_exists.2 ⟨c, hc⟩⟩
    · rintro ⟨rounds, hsome⟩
      obtain ⟨c, hc⟩ := Option.isSome_iff_exists.1 hsome
      have hmem : c.1 ∈ setOf g addr := choose_mem hc
      exact ⟨rounds, _, Option.map_eq_some_iff.2 ⟨c, hc, rfl⟩, hmem⟩
  rw [hends]
  constructor
  · rintro ⟨rounds, hsome⟩
    obtain ⟨n, -, l, hl, hstop⟩ := (choose_isSome_iff rounds).1 hsome
    refine ⟨l, hl, ?_⟩
    rcases (stopsAt_iterate n hl).1 hstop with htag | hinv | hfar
    · exact .inl htag
    · exact .inr (.inl hinv)
    · exact .inr (.inr ⟨n, hfar⟩)
  · rintro ⟨l, hl, hline⟩
    have hstop : ∃ n, ((age g (g.calcIndex4Tag (g.calcTag addr)))^[n] s).stopsAt (g.calcTag addr) l = true := by
      rcases hline with htag | hinv | ⟨n, hfar⟩
      · exact ⟨0, (stopsAt_iterate 0 hl).2 (.inl htag)⟩
      · exact ⟨0, (stopsAt_iterate 0 hl).2 (.inr (.inl hinv))⟩
      · exact ⟨n, (stopsAt_iterate n hl).2 (.inr (.inr hfar))⟩
    obtain ⟨n, hstop⟩ := hstop
    exact ⟨n + 1, (choose_isSome_iff (n + 1)).2 ⟨n, Nat.lt_succ_self n, l, hl, hstop⟩⟩

/-! ## Lines that count -/

section Counting

variable {g : Geometry} {tag : AddrType} {theSet : ℕ}

theorem rrpv_iterate (n : ℕ) (x : StateGenericShip) :
    min (x.rrpv + n) (RRIP_M - 1) ≤ (getRRPV (incRRPV^[n] x) : ℕ) := by
  induction n generalizing x with
  | zero => exact Nat.min_le_left _ _
  | succ n ih =>
    rw [Function.iterate_succ_apply]
    refine le_trans ?_ (ih (incRRPV x))
    show min (x.rrpv + (n + 1)) (RRIP_M - 1) ≤ min (x.incRRPV.rrpv + n) (RRIP_M - 1)
    unfold StateGenericShip.incRRPV
    simp only
    split <;> omega

/-- A `StateGenericShip` line becomes distant. -/
theorem ship_ripens (x : StateGenericShip) : ∃ n, RRIP_M - 1 ≤ getRRPV (incRRPV^[n] x) := by
  refine ⟨RRIP_M - 1, ?_⟩
  have := rrpv_iterate (RRIP_M - 1) x
  omega

/-- The array of `CacheSHIP`. -/
def toSHIP (s : ShipCache StateGenericShip) : CacheSHIP := ⟨s.mem, s.SHCT, s.log2shct⟩

theorem age_toSHIP (s : ShipCache StateGenericShip) : (age g theSet s).toSHIP = CacheSHIP.age g theSet s.toSHIP := by
  unfold age CacheSHIP.age
  induction ways g theSet generalizing s with
  | nil => rfl
  | cons l ls ih =>
    rw [List.foldl_cons, List.foldl_cons]
    exact ih _

theorem choose_toSHIP {rounds : ℕ} {s : ShipCache StateGenericShip} {r : ℕ × ShipCache StateGenericShip}
    (h : choose g tag theSet rounds s = some r) :
    CacheSHIP.choose g tag theSet rounds s.toSHIP = (r.1, r.2.toSHIP) := by
  induction rounds generalizing s with
  | zero => cases h
  | succ rounds ih =>
    have hscan : (ways g theSet).find? (s.toSHIP.stopsAt tag) = (ways g theSet).find? (s.stopsAt tag) := rfl
    rw [CacheSHIP.choose, hscan]
    cases hfind : (ways g theSet).find? (s.stopsAt tag) with
    | some l =>
      rw [choose, hfind] at h
      obtain rfl := Option.some.inj h
      rfl
    | none =>
      rw [choose, hfind] at h
      show CacheSHIP.choose g tag theSet rounds (CacheSHIP.age g theSet s.toSHIP) = _
      rw [← age_toSHIP]
      exact ih h

/-- **With `StateGenericShip` lines** the search ends within `RRIP_M` rounds, and it is the search of `CacheSHIP`. -/
theorem findLine2Replace_ship (g : Geometry) (s : ShipCache StateGenericShip) (addr : AddrType) (upd : Bool)
    (sig : AddrType) :
    (s.findLine2Replace g addr upd sig RRIP_M).map (fun r => (r.1, r.2.toSHIP)) =
      some (s.toSHIP.findLine2Replace g addr upd sig) := by
  have hends : (choose g (g.calcTag addr) (g.calcIndex4Tag (g.calcTag addr)) RRIP_M s).isSome = true := by
    have hfirst := first_mem g (g.calcIndex4Tag (g.calcTag addr))
    refine (choose_isSome_iff RRIP_M).2 ⟨RRIP_M - 1, by decide, _, hfirst, ?_⟩
    have := rrpv_iterate (RRIP_M - 1) (s.mem (g.calcIndex4Tag (g.calcTag addr)))
    exact (stopsAt_iterate _ hfirst).2 (.inr (.inr (by omega)))
  obtain ⟨r, hr⟩ := Option.isSome_iff_exists.1 hends
  unfold findLine2Replace CacheSHIP.findLine2Replace
  simp only [hr, choose_toSHIP hr]
  cases upd <;> rfl

end Counting

/-! ## Which searches end -/

section Search

open CacheCore (smallGeometry)

/-- The value of a `CState` line is 0 for good. -/
theorem cstate_iterate (n : ℕ) (x : CState) : getRRPV (incRRPV^[n] x) = 0 := by
  induction n generalizing x with
  | zero => rfl
  | succ n ih => rw [Function.iterate_succ_apply, ih]

/-- **Termination of the victim search.** In every reachable state of a `CacheSHIP` of `StateGenericShip` lines, every
search returns a line of the set. In every reachable state of one of `Cache::CState` lines, a search does so if and
only if some line of the set has the tag or is invalid; otherwise it loops forever. -/
theorem ship_returns_iff (g : Geometry) (k : ℕ) (table : ℕ → ℕ) :
    (∀ (ops : List (Op Unit)) (s : ShipCache StateGenericShip), run (step g) (new k table) ops = some s →
      ∀ addr upd sig, s.Returns g addr upd sig) ∧
    ∀ (ops : List (Op CState.Method)) (s : ShipCache CState), run (step g) (new k table) ops = some s →
      ∀ addr upd sig, s.Returns g addr upd sig ↔
        ∃ l ∈ setOf g addr, getTag (s.mem l) = g.calcTag addr ∨ isValid (s.mem l) = false := by
  constructor
  · intro ops s _ addr upd sig
    have hfirst : g.calcIndex4Tag (g.calcTag addr) ∈ setOf g addr := first_mem g _
    exact (returns_iff g s addr upd sig).2 ⟨_, hfirst, .inr (.inr (ship_ripens _))⟩
  · intro ops s _ addr upd sig
    rw [returns_iff]
    constructor
    · rintro ⟨l, hl, htag | hinv | ⟨n, hfar⟩⟩
      · exact ⟨l, hl, .inl htag⟩
      · exact ⟨l, hl, .inr hinv⟩
      · rw [cstate_iterate] at hfar
        exact absurd hfar (by decide)
    · rintro ⟨l, hl, htag | hinv⟩
      · exact ⟨l, hl, .inl htag⟩
      · exact ⟨l, hl, .inr (.inl hinv)⟩

/-- Two fills make both lines of a set valid; the search for a third line of the set does not end. -/
theorem ship_loops :
    ∃ s : ShipCache CState,
      run (step smallGeometry) (new 13 fun _ => 0)
        [.fillLine 0x20 false 0 1, .own 0 .setExclusive, .fillLine 0x40 false 0 1, .own 1 .setModified] = some s ∧
      ∀ rounds, s.findLine2Replace smallGeometry 0x60 false 0 rounds = none := by
  have hrun : ((run (step smallGeometry) (new (S := CState) 13 fun _ => 0)
      [.fillLine 0x20 false 0 1, .own 0 .setExclusive, .fillLine 0x40 false 0 1, .own 1 .setModified]).any fun s =>
        decide (∀ l ∈ setOf smallGeometry 0x60,
          getTag (s.mem l) ≠ smallGeometry.calcTag 0x60 ∧ isValid (s.mem l) = true)) = true := by
    decide +kernel
  obtain ⟨s, hs, hset⟩ := (Option.any_eq_true _ _).1 hrun
  refine ⟨s, hs, fun rounds => ?_⟩
  by_contra hsome
  obtain ⟨r, hr⟩ := Option.ne_none_iff_exists'.1 hsome
  obtain ⟨c, hc, -⟩ := Option.map_eq_some_iff.1 hr
  obtain ⟨n, -, l, hl, hstop⟩ := (choose_isSome_iff rounds).1 (Option.isSome_iff_exists.2 ⟨c, hc⟩)
  obtain ⟨htag, hvalid⟩ := of_decide_eq_true hset l hl
  rcases (stopsAt_iterate n hl).1 hstop with h | h | h
  · exact htag h
  · rw [hvalid] at h
    cases h
  · rw [cstate_iterate] at h
    exact absurd h (by decide)

end Search

end ShipCache

end Esesc.Mem
