import Mathlib.Algebra.Group.Nat.Defs
import Mathlib.Data.List.Basic
import Mathlib.Data.BitVec
import Esesc.Lib.Machine
import Esesc.Suc.CacheInv

/-!
# Caches with re-reference prediction (`CacheSHIP` in `CacheCore.{h,cpp}`)

A line has a re-reference value `rrpv`, a signature and an outcome; `SHCT` has a counter for each signature. A
hit sets the value of the line to 0. `findLine2Replace` takes the first way that has the tag, is invalid or is
distant, and while there is none it ages the set. Nothing moves within a set: `content[i]` is `&mem[i]` for good, so a
line is named by its position.

* `ShipOk`: invalid lines are distant, and lines with a tag are in their set.
* `choose_spec`: which way is taken, and how much the set has aged then.
* `run_ok`: every run keeps the invariant.
* `ship_unique_iff`: when no set holds a tag twice.
* `shct_iff`: when the constructor initialises the counters.
-/

namespace Esesc.Suc

open Esesc.Lib

def RRIP_M : ℕ := 4

structure StateGenericShip where
  tag : AddrType
  rrpv : ℕ
  signature : AddrType
  outcome : Bool
  deriving Repr, DecidableEq

namespace StateGenericShip

def initSHIP (s : StateGenericShip) : StateGenericShip :=
  { s with rrpv := RRIP_M - 1, signature := 0, outcome := false }

def clearTag (s : StateGenericShip) : StateGenericShip := { s with tag := 0 }.initSHIP

def invalidate (s : StateGenericShip) : StateGenericShip := s.clearTag

def isValid (s : StateGenericShip) : Bool := s.tag != 0

def setTag (s : StateGenericShip) (a : AddrType) : StateGenericShip := { s with tag := a }

def setSignature (s : StateGenericShip) (a : AddrType) : StateGenericShip := { s with signature := a }

def setOutcome (s : StateGenericShip) (a : Bool) : StateGenericShip := { s with outcome := a }

def setRRPV (s : StateGenericShip) (a : ℕ) : StateGenericShip :=
  { s with rrpv := if a > RRIP_M - 1 then RRIP_M - 1 else a }

def incRRPV (s : StateGenericShip) : StateGenericShip :=
  { s with rrpv := if s.rrpv < RRIP_M - 1 then s.rrpv + 1 else s.rrpv }

end StateGenericShip

/-- A cache array with its table of counters. -/
structure CacheSHIP where
  mem : ℕ → StateGenericShip
  SHCT : ℕ → ℕ
  log2shct : ℕ

namespace CacheSHIP

/-- The constructor, with what `new uint8_t[]` has found in memory. In the bound of the loop that clears the
table, `^` is an exclusive or. -/
def new (log2shct : ℕ) (table : ℕ → ℕ) : CacheSHIP where
  mem _ := ⟨0, RRIP_M - 1, 0, false⟩ -- `initialize` and `invalidate` set every field
  SHCT j := if j < 2 ^^^ log2shct then 0 else table j
  log2shct := log2shct

/-- The usable signature. -/
def signature (s : CacheSHIP) (SHIP_signature : AddrType) : AddrType :=
  (SHIP_signature ^^^ ((SHIP_signature >>> 1) + (SHIP_signature &&& 0xFFFFFFFF))) &&&
    BitVec.ofNat 64 (2 <<< s.log2shct - 1)

/-- Apply `f` to line `l`. -/
def updLine (s : CacheSHIP) (l : ℕ) (f : StateGenericShip → StateGenericShip) : CacheSHIP :=
  { s with mem := Function.update s.mem l (f (s.mem l)) }

/-- The positions of a set. -/
def ways (g : Geometry) (theSet : ℕ) : List ℕ := List.range' theSet g.assoc

/-- The update of a hit. -/
def hitSHIP (s : CacheSHIP) (l : ℕ) (SHIP_signature : AddrType) : CacheSHIP :=
  let signature := (s.signature SHIP_signature).toNat
  { s.updLine l (·.setOutcome true) with
    SHCT := if s.SHCT signature < 7 then Function.update s.SHCT signature (s.SHCT signature + 1) else s.SHCT }

/-- `CacheSHIP::findLinePrivate`. -/
def findLine (g : Geometry) (s : CacheSHIP) (addr : AddrType) (updateSHIP : Bool) (SHIP_signature : AddrType) :
    Option ℕ × CacheSHIP :=
  let tag := g.calcTag addr
  let theSet := g.calcIndex4Tag tag
  match (ways g theSet).find? fun l => (s.mem l).tag = tag with
  | none => (none, s)
  | some l =>
    let s := if updateSHIP then s.hitSHIP l SHIP_signature else s
    (some l, s.updLine l (·.setRRPV 0))

/-- The scan of `findLine2Replace` ends here: the tag matches, or the line is invalid or distant. -/
def stopsAt (s : CacheSHIP) (tag : AddrType) (l : ℕ) : Bool :=
  (s.mem l).tag = tag || !(s.mem l).isValid || decide ((s.mem l).rrpv ≥ RRIP_M - 1)

/-- Every line of the set is aged. -/
def age (g : Geometry) (theSet : ℕ) (s : CacheSHIP) : CacheSHIP :=
  (ways g theSet).foldl (fun s l => s.updLine l StateGenericShip.incRRPV) s

/-- The loop of `findLine2Replace`. It ends within `RRIP_M` rounds. -/
def choose (g : Geometry) (tag : AddrType) (theSet : ℕ) : ℕ → CacheSHIP → ℕ × CacheSHIP
  | 0, s => (theSet, s)
  | fuel + 1, s =>
    match (ways g theSet).find? (s.stopsAt tag) with
    | some l => (l, s)
    | none => choose g tag theSet fuel (age g theSet s)

/-- The update of a replacement: the counter of the line that goes, and the line for the one that comes. -/
def replaceSHIP (s : CacheSHIP) (l : ℕ) (SHIP_signature : AddrType) : CacheSHIP :=
  let signature := s.signature SHIP_signature
  let signature_m := (s.mem l).signature.toNat
  let SHCT :=
    if (s.mem l).isValid ∧ (s.mem l).outcome = false ∧ 0 < s.SHCT signature_m then
      Function.update s.SHCT signature_m (s.SHCT signature_m - 1)
    else s.SHCT
  { s.updLine l fun line =>
      ((line.setOutcome false).setSignature signature).setRRPV
        (if SHCT signature.toNat = 0 then RRIP_M - 1 else RRIP_M / 2) with
    SHCT }

/-- `CacheSHIP::findLine2Replace`. -/
def findLine2Replace (g : Geometry) (s : CacheSHIP) (addr : AddrType) (updateSHIP : Bool) (SHIP_signature : AddrType) :
    ℕ × CacheSHIP :=
  let tag := g.calcTag addr
  let theSet := g.calcIndex4Tag tag
  let r := choose g tag theSet RRIP_M s
  (r.1, if updateSHIP then r.2.replaceSHIP r.1 SHIP_signature else r.2.updLine r.1 (·.setRRPV (RRIP_M / 2)))

/-- `fillLine(addr, rplcAddr, …)`. -/
def fillLine (g : Geometry) (s : CacheSHIP) (addr : AddrType) (updateSHIP : Bool) (SHIP_signature : AddrType) :
    ℕ × AddrType × CacheSHIP :=
  let r := s.findLine2Replace g addr updateSHIP SHIP_signature
  let newTag := g.calcTag addr
  let curTag := (r.2.mem r.1).tag
  let rplcAddr := if (r.2.mem r.1).isValid ∧ curTag ≠ newTag then g.calcAddr4Tag curTag else 0
  (r.1, rplcAddr, r.2.updLine r.1 (·.setTag newTag))

/-- The operations on the array. -/
inductive Op where
  | findLine (addr : AddrType) (updateSHIP : Bool) (SHIP_signature : AddrType)
  | fillLine (addr : AddrType) (updateSHIP : Bool) (SHIP_signature : AddrType)
  | invalidate (line : ℕ)
  deriving Repr, DecidableEq

/-- One operation. Addresses have a tag, and lines are lines of the array. -/
def step (g : Geometry) (s : CacheSHIP) : Op → Option CacheSHIP
  | .findLine addr updateSHIP sig => if g.calcTag addr ≠ 0 then some (s.findLine g addr updateSHIP sig).2 else none
  | .fillLine addr updateSHIP sig => if g.calcTag addr ≠ 0 then some (s.fillLine g addr updateSHIP sig).2.2 else none
  | .invalidate line => if line < g.numLines then some (s.updLine line StateGenericShip.invalidate) else none

section Step

variable {g : Geometry} {s s' : CacheSHIP} {addr sig : AddrType} {upd : Bool}

theorem step_findLine (hs : step g s (.findLine addr upd sig) = some s') :
    g.calcTag addr ≠ 0 ∧ (s.findLine g addr upd sig).2 = s' := by
  simpa only [step, Option.ite_none_right_eq_some, Option.some.injEq] using hs

theorem step_fillLine (hs : step g s (.fillLine addr upd sig) = some s') :
    g.calcTag addr ≠ 0 ∧ (s.fillLine g addr upd sig).2.2 = s' := by
  simpa only [step, Option.ite_none_right_eq_some, Option.some.injEq] using hs

theorem step_invalidate {line : ℕ} (hs : step g s (.invalidate line) = some s') :
    line < g.numLines ∧ s.updLine line StateGenericShip.invalidate = s' := by
  simpa only [step, Option.ite_none_right_eq_some, Option.some.injEq] using hs

end Step

/-! ## Lines that change -/

section Lines

variable {s : CacheSHIP} {l x : ℕ} {f : StateGenericShip → StateGenericShip}

@[simp] theorem updLine_self (s : CacheSHIP) (l : ℕ) (f : StateGenericShip → StateGenericShip) :
    (s.updLine l f).mem l = f (s.mem l) := Function.update_self _ _ _

theorem updLine_of_ne (h : x ≠ l) : (s.updLine l f).mem x = s.mem x := Function.update_of_ne h _ _

theorem hitSHIP_self (s : CacheSHIP) (l : ℕ) (sig : AddrType) : (s.hitSHIP l sig).mem l = (s.mem l).setOutcome true :=
  Function.update_self _ _ _

theorem hitSHIP_of_ne (h : x ≠ l) (sig : AddrType) : (s.hitSHIP l sig).mem x = s.mem x := Function.update_of_ne h _ _

theorem setRRPV_low (line : StateGenericShip) (a : ℕ) : (line.setRRPV a).rrpv ≤ RRIP_M - 1 := by
  unfold StateGenericShip.setRRPV
  simp only
  split <;> omega

theorem replaceSHIP_low (s : CacheSHIP) (l : ℕ) (sig : AddrType) : ((s.replaceSHIP l sig).mem l).rrpv ≤ RRIP_M - 1 := by
  unfold replaceSHIP
  simp only [updLine_self]
  exact setRRPV_low _ _

theorem replaceSHIP_of_ne (h : x ≠ l) (sig : AddrType) : (s.replaceSHIP l sig).mem x = s.mem x :=
  Function.update_of_ne h _ _

end Lines

/-! ## The scans -/

section Scans

variable {g : Geometry} {s : CacheSHIP} {theSet l q d : ℕ} {tag addr sig : AddrType} {upd : Bool}

theorem mem_ways : l ∈ ways g theSet ↔ theSet ≤ l ∧ l < theSet + g.assoc := List.mem_range'_1

/-- The set after `d` rounds of aging in which no line was at its greatest value. -/
def aged (g : Geometry) (theSet d : ℕ) (s : CacheSHIP) : CacheSHIP :=
  { s with mem := fun x => if x ∈ ways g theSet then { s.mem x with rrpv := (s.mem x).rrpv + d } else s.mem x }

theorem aged_zero (s : CacheSHIP) : aged g theSet 0 s = s := by
  have hmem : (aged g theSet 0 s).mem = s.mem := by
    funext x
    simp only [aged]
    split <;> rfl
  show { s with mem := (aged g theSet 0 s).mem } = s
  rw [hmem]

theorem aged_tag (d x : ℕ) (s : CacheSHIP) : ((aged g theSet d s).mem x).tag = (s.mem x).tag := by
  simp only [aged]
  split <;> rfl

theorem aged_rrpv (h : l ∈ ways g theSet) (d : ℕ) (s : CacheSHIP) :
    ((aged g theSet d s).mem l).rrpv = (s.mem l).rrpv + d := by
  simp only [aged]
  rw [if_pos h]

theorem foldl_updLine (ls : List ℕ) (hnd : ls.Nodup) (f : StateGenericShip → StateGenericShip) (s : CacheSHIP) :
    ls.foldl (fun s l => s.updLine l f) s = { s with mem := fun x => if x ∈ ls then f (s.mem x) else s.mem x } := by
  induction ls generalizing s with
  | nil => simp
  | cons l ls ih =>
    obtain ⟨hl, hnd⟩ := List.nodup_cons.1 hnd
    rw [List.foldl_cons, ih hnd]
    unfold updLine
    simp only [CacheSHIP.mk.injEq, and_self, and_true]
    funext x
    by_cases hx : x = l
    · subst hx
      simp [hl]
    · simp [hx]

theorem age_eq (s : CacheSHIP) :
    age g theSet s = { s with mem := fun x => if x ∈ ways g theSet then (s.mem x).incRRPV else s.mem x } :=
  foldl_updLine _ List.nodup_range' _ s

/-- Where the scan does not end, aging adds one. -/
theorem age_aged (h : ∀ q ∈ ways g theSet, (aged g theSet d s).stopsAt tag q = false) :
    age g theSet (aged g theSet d s) = aged g theSet (d + 1) s := by
  rw [age_eq]
  unfold aged
  simp only [CacheSHIP.mk.injEq, and_self, and_true]
  funext x
  by_cases hx : x ∈ ways g theSet
  · have hstop := h x hx
    have hlow : (s.mem x).rrpv + d < RRIP_M - 1 := by
      unfold stopsAt at hstop
      rw [aged_rrpv hx] at hstop
      simp only [Bool.or_eq_false_iff, decide_eq_false_iff_not] at hstop
      omega
    simp only [if_pos hx, StateGenericShip.incRRPV, if_pos hlow]
    rfl
  · simp only [if_neg hx]

/-- The way that the scan ends at. -/
structure Stops (g : Geometry) (s : CacheSHIP) (tag : AddrType) (theSet l : ℕ) : Prop where
  mem : l ∈ ways g theSet
  stop : s.stopsAt tag l = true
  first : ∀ q ∈ ways g theSet, q < l → s.stopsAt tag q = false

theorem find_stop_some (h : (ways g theSet).find? (s.stopsAt tag) = some l) : Stops g s tag theSet l := by
  obtain ⟨hstop, hmem, hfirst⟩ := List.find?_range'_eq_some.1 h
  refine ⟨hmem, hstop, fun q hq hlt => ?_⟩
  have := hfirst q (mem_ways.1 hq).1 hlt
  rwa [Bool.not_eq_true'] at this

theorem find_stop_none (h : (ways g theSet).find? (s.stopsAt tag) = none) : ∀ q ∈ ways g theSet, s.stopsAt tag q = false := by
  intro q hq
  obtain ⟨h1, h2⟩ := mem_ways.1 hq
  have := List.find?_range'_eq_none.1 h q h1 h2
  rwa [Bool.not_eq_true'] at this

theorem Stops.unique {m : ℕ} (h : Stops g s tag theSet l) (h' : Stops g s tag theSet m) : l = m := by
  rcases Nat.lt_trichotomy l m with hlt | heq | hlt
  · have := h'.first l h.mem hlt
    rw [h.stop] at this
    cases this
  · exact heq
  · have := h.first m h'.mem hlt
    rw [h'.stop] at this
    cases this

/-- **Which way is taken.** The set ages until the scan ends, and no more. -/
theorem choose_spec (g : Geometry) (s : CacheSHIP) (tag : AddrType) (theSet : ℕ) :
    ∃ l d, choose g tag theSet RRIP_M s = (l, aged g theSet d s) ∧ Stops g (aged g theSet d s) tag theSet l ∧
      ∀ d' < d, ∀ q ∈ ways g theSet, (aged g theSet d' s).stopsAt tag q = false := by
  have hfirst : theSet ∈ ways g theSet := mem_ways.2 ⟨le_rfl, by have := g.assoc_pos; omega⟩
  -- there is no scan that goes on after `RRIP_M - 1` rounds
  have hloop : ∀ fuel d, RRIP_M ≤ fuel + d → (0 < fuel ∨ d < RRIP_M) →
      (∀ d' < d, ∀ q ∈ ways g theSet, (aged g theSet d' s).stopsAt tag q = false) →
      ∃ l e, choose g tag theSet fuel (aged g theSet d s) = (l, aged g theSet e s) ∧
        Stops g (aged g theSet e s) tag theSet l ∧
        ∀ d' < e, ∀ q ∈ ways g theSet, (aged g theSet d' s).stopsAt tag q = false := by
    intro fuel
    induction fuel with
    | zero => intro d hd hpos; omega
    | succ fuel ih =>
      intro d hd _ hbefore
      rw [choose]
      split
      · rename_i l hl
        exact ⟨l, d, rfl, find_stop_some hl, hbefore⟩
      · rename_i hnone
        have hgo := find_stop_none hnone
        have hlow : d < RRIP_M - 1 := by
          have hstop := hgo theSet hfirst
          unfold stopsAt at hstop
          rw [aged_rrpv hfirst] at hstop
          simp only [Bool.or_eq_false_iff, decide_eq_false_iff_not] at hstop
          omega
        rw [age_aged hgo]
        refine ih (d + 1) (by omega) (.inr (by omega)) fun d' hd' q hq => ?_
        rcases Nat.lt_or_eq_of_le (Nat.le_of_lt_succ hd') with hd' | rfl
        · exact hbefore d' hd' q hq
        · exact hgo q hq
  have hstart := hloop RRIP_M 0 le_rfl (.inl (by decide)) fun d' hd' => absurd hd' (Nat.not_lt_zero _)
  rwa [aged_zero] at hstart

end Scans

/-! ## The invariant -/

section Invariant

variable {g : Geometry} {s s' : CacheSHIP} {theSet l d k : ℕ} {tag addr sig : AddrType} {upd : Bool}

/-- The set of an address. -/
def setOf (g : Geometry) (addr : AddrType) : List ℕ := ways g (g.calcIndex4Tag (g.calcTag addr))

theorem mem_setOf : l ∈ setOf g addr ↔ l / g.assoc = g.calcSet4Tag (g.calcTag addr) := by
  rw [setOf, mem_ways, g.mem_set_iff]

theorem setOf_lt (h : l ∈ setOf g addr) : l < g.numLines := by
  have := g.set_le (g.calcTag addr)
  have := mem_ways.1 h
  omega

/-- The invariant of the array. -/
structure ShipOk (g : Geometry) (s : CacheSHIP) : Prop where
  low : ∀ x, (s.mem x).rrpv ≤ RRIP_M - 1
  /-- an invalid line is distant -/
  distant : ∀ x, (s.mem x).tag = 0 → (s.mem x).rrpv = RRIP_M - 1
  home : ∀ x < g.numLines, (s.mem x).tag ≠ 0 → x / g.assoc = g.calcSet4Tag (s.mem x).tag

theorem shipOk_new (g : Geometry) (k : ℕ) (table : ℕ → ℕ) : ShipOk g (new k table) :=
  ⟨fun _ => le_rfl, fun _ _ => rfl, fun _ _ h => absurd rfl h⟩

theorem isValid_iff (line : StateGenericShip) : line.isValid = true ↔ line.tag ≠ 0 := by
  simp [StateGenericShip.isValid]

/-- Lines that age together stay below the limit, and the invalid ones do not age. -/
theorem ShipOk.aged (h : ShipOk g s)
    (hgo : ∀ d' < d, ∀ q ∈ ways g theSet, (CacheSHIP.aged g theSet d' s).stopsAt tag q = false) :
    ShipOk g (CacheSHIP.aged g theSet d s) := by
  have hlast : 0 < d → ∀ q ∈ ways g theSet, (s.mem q).tag ≠ 0 ∧ (s.mem q).rrpv + d ≤ RRIP_M - 1 := by
    intro hd q hq
    have hstop := hgo (d - 1) (by omega) q hq
    unfold stopsAt at hstop
    rw [aged_rrpv hq] at hstop
    simp only [Bool.or_eq_false_iff, decide_eq_false_iff_not, Bool.not_eq_false', isValid_iff, aged_tag] at hstop
    exact ⟨hstop.1.2, by omega⟩
  refine ⟨fun x => ?_, fun x hx => ?_, fun x hx h0 => ?_⟩
  · by_cases hq : x ∈ ways g theSet
    · rw [aged_rrpv hq]
      by_cases hd : 0 < d
      · exact (hlast hd x hq).2
      · have := h.low x
        omega
    · simp only [CacheSHIP.aged, if_neg hq]
      exact h.low x
  · rw [aged_tag] at hx
    by_cases hq : x ∈ ways g theSet
    · rw [aged_rrpv hq]
      by_cases hd : 0 < d
      · exact absurd hx (hlast hd x hq).1
      · have := h.distant x hx
        omega
    · simp only [CacheSHIP.aged, if_neg hq]
      exact h.distant x hx
  · rw [aged_tag] at h0 ⊢
    exact h.home x hx h0

/-- **What a fill does.** Line `l`, at which the scan ends after `d` rounds, gets the tag; without an update of
the counters it gets the value in the middle. The other lines are only aged. -/
structure Filled (g : Geometry) (s : CacheSHIP) (addr : AddrType) (upd : Bool) (l d : ℕ) (s' : CacheSHIP) : Prop where
  stops : Stops g (CacheSHIP.aged g (g.calcIndex4Tag (g.calcTag addr)) d s) (g.calcTag addr)
    (g.calcIndex4Tag (g.calcTag addr)) l
  goes : ∀ d' < d, ∀ q ∈ setOf g addr,
    (CacheSHIP.aged g (g.calcIndex4Tag (g.calcTag addr)) d' s).stopsAt (g.calcTag addr) q = false
  tag : (s'.mem l).tag = g.calcTag addr
  low : (s'.mem l).rrpv ≤ RRIP_M - 1
  middle : upd = false → (s'.mem l).rrpv = RRIP_M / 2
  others : ∀ x, x ≠ l → s'.mem x = (CacheSHIP.aged g (g.calcIndex4Tag (g.calcTag addr)) d s).mem x

theorem fillLine_spec (g : Geometry) (s : CacheSHIP) (addr : AddrType) (upd : Bool) (sig : AddrType) :
    ∃ l d, (s.fillLine g addr upd sig).1 = l ∧ Filled g s addr upd l d (s.fillLine g addr upd sig).2.2 := by
  obtain ⟨l, d, hchoose, hstops, hgo⟩ := choose_spec g s (g.calcTag addr) (g.calcIndex4Tag (g.calcTag addr))
  have hpick : (s.findLine2Replace g addr upd sig).1 = l := by
    simp only [findLine2Replace, hchoose]
  have hstate : (s.findLine2Replace g addr upd sig).2 =
      if upd then (aged g (g.calcIndex4Tag (g.calcTag addr)) d s).replaceSHIP l sig
      else (aged g (g.calcIndex4Tag (g.calcTag addr)) d s).updLine l (·.setRRPV (RRIP_M / 2)) := by
    simp only [findLine2Replace, hchoose]
  have hfill : (s.fillLine g addr upd sig).2.2 =
      (s.findLine2Replace g addr upd sig).2.updLine l (·.setTag (g.calcTag addr)) := by
    simp only [fillLine, hpick]
  refine ⟨l, d, hpick, hstops, hgo, ?_, ?_, fun hupd => ?_, fun x hx => ?_⟩
  · rw [hfill, updLine_self]
    rfl
  · rw [hfill, updLine_self, hstate]
    show (CacheSHIP.mem _ l).rrpv ≤ _
    split
    · exact replaceSHIP_low _ _ _
    · rw [updLine_self]
      exact setRRPV_low _ _
  · rw [hfill, updLine_self, hstate, hupd, if_neg Bool.false_ne_true, updLine_self]
    rfl
  · rw [hfill, updLine_of_ne hx, hstate]
    split
    · exact replaceSHIP_of_ne hx sig
    · exact updLine_of_ne hx

theorem Filled.ok (h : ShipOk g s) (h0 : g.calcTag addr ≠ 0) (hf : Filled g s addr upd l d s') : ShipOk g s' := by
  have haged := h.aged hf.goes
  refine ⟨fun x => ?_, fun x hx => ?_, fun x hx hx0 => ?_⟩
  · by_cases hxl : x = l
    · rw [hxl]
      exact hf.low
    · rw [hf.others x hxl]
      exact haged.low x
  · by_cases hxl : x = l
    · rw [hxl, hf.tag] at hx
      exact absurd hx h0
    · rw [hf.others x hxl] at hx ⊢
      exact haged.distant x hx
  · by_cases hxl : x = l
    · rw [hxl, hf.tag]
      exact mem_setOf.1 hf.stops.mem
    · rw [hf.others x hxl] at hx0 ⊢
      exact haged.home x hx hx0

/-- What a search does: the first line with the tag is marked as used. -/
theorem findLine_cases (g : Geometry) (s : CacheSHIP) (addr : AddrType) (upd : Bool) (sig : AddrType) :
    (s.findLine g addr upd sig).1 = none ∧ (s.findLine g addr upd sig).2 = s ∧
        (∀ q ∈ setOf g addr, (s.mem q).tag ≠ g.calcTag addr) ∨
      ∃ l ∈ setOf g addr, (s.findLine g addr upd sig).1 = some l ∧ (s.mem l).tag = g.calcTag addr ∧
        (∀ q ∈ setOf g addr, q < l → (s.mem q).tag ≠ g.calcTag addr) ∧
        ((s.findLine g addr upd sig).2.mem l).tag = g.calcTag addr ∧
        ((s.findLine g addr upd sig).2.mem l).rrpv = 0 ∧
        ∀ x, x ≠ l → (s.findLine g addr upd sig).2.mem x = s.mem x := by
  cases hfind : (setOf g addr).find? fun l => (s.mem l).tag = g.calcTag addr with
  | none =>
    refine .inl ⟨?_, ?_, fun q hq => ?_⟩
    · simp only [findLine]
      rw [show (ways g _).find? _ = none from hfind]
    · simp only [findLine]
      rw [show (ways g _).find? _ = none from hfind]
    · have := List.find?_eq_none.1 hfind q hq
      simpa using this
  | some l =>
    obtain ⟨htag, hmem, hfirst⟩ := List.find?_range'_eq_some.1 hfind
    have htag : (s.mem l).tag = g.calcTag addr := of_decide_eq_true htag
    have hres : s.findLine g addr upd sig =
        (some l, (if upd then s.hitSHIP l sig else s).updLine l (·.setRRPV 0)) := by
      simp only [findLine]
      rw [show (ways g _).find? _ = some l from hfind]
    refine .inr ⟨l, hmem, by rw [hres], htag, fun q hq hlt => ?_, ?_, ?_, fun x hx => ?_⟩
    · have := hfirst q (mem_ways.1 hq).1 hlt
      simpa using this
    · rw [hres, updLine_self]
      show (CacheSHIP.mem _ l).tag = _
      split
      · rw [hitSHIP_self]
        exact htag
      · exact htag
    · rw [hres, updLine_self]
      rfl
    · rw [hres, updLine_of_ne hx]
      split
      · exact hitSHIP_of_ne hx sig
      · rfl

end Invariant

/-! ## Tags that are held twice -/

section Unique

open CacheCore (smallGeometry)

variable {g : Geometry} {s s' : CacheSHIP} {l d : ℕ} {addr sig : AddrType} {upd : Bool}

/-- No two lines of a set hold the same tag. -/
def Unique (g : Geometry) (s : CacheSHIP) : Prop :=
  ∀ p < g.numLines, ∀ q < g.numLines, p / g.assoc = q / g.assoc → (s.mem p).tag ≠ 0 → (s.mem p).tag = (s.mem q).tag → p = q

/-- In front of the line that holds the tag of the address, every line of the set is valid and not distant. -/
def Ahead (g : Geometry) (s : CacheSHIP) (addr : AddrType) : Prop :=
  ∀ p ∈ setOf g addr, (s.mem p).tag = g.calcTag addr →
    ∀ q ∈ setOf g addr, q < p → (s.mem q).isValid = true ∧ (s.mem q).rrpv < RRIP_M - 1

/-- If a line holds the tag of the address, a fill returns it. -/
def ReturnsResident (g : Geometry) (s : CacheSHIP) : Op → Prop
  | .fillLine addr upd sig => ∀ p ∈ setOf g addr, (s.mem p).tag = g.calcTag addr → (s.fillLine g addr upd sig).1 = p
  | _ => True

/-- The condition under which it does. -/
def FillsAhead (g : Geometry) (s : CacheSHIP) : Op → Prop
  | .fillLine addr _ _ => Ahead g s addr
  | _ => True

instance (g : Geometry) (s : CacheSHIP) (addr : AddrType) : Decidable (Ahead g s addr) :=
  inferInstanceAs (Decidable (∀ p ∈ setOf g addr, (s.mem p).tag = g.calcTag addr →
    ∀ q ∈ setOf g addr, q < p → (s.mem q).isValid = true ∧ (s.mem q).rrpv < RRIP_M - 1))

instance (g : Geometry) (s : CacheSHIP) : ∀ op, Decidable (FillsAhead g s op)
  | .fillLine addr _ _ => inferInstanceAs (Decidable (Ahead g s addr))
  | .findLine _ _ _ => .isTrue trivial
  | .invalidate _ => .isTrue trivial

/-- **A fill keeps the tags unique** exactly when it takes the line that holds the tag, if there is one. -/
theorem Filled.unique_iff (h0 : g.calcTag addr ≠ 0) (hf : Filled g s addr upd l d s') (hu : Unique g s) :
    Unique g s' ↔ ∀ p ∈ setOf g addr, (s.mem p).tag = g.calcTag addr → l = p := by
  have hl : l ∈ setOf g addr := hf.stops.mem
  have hother : ∀ x, x ≠ l → (s'.mem x).tag = (s.mem x).tag := by
    intro x hx
    rw [hf.others x hx, aged_tag]
  constructor
  · intro hu' p hp hpt
    by_contra hne
    have hset : l / g.assoc = p / g.assoc := by rw [mem_setOf.1 hl, mem_setOf.1 hp]
    have hsame := hu' l (setOf_lt hl) p (setOf_lt hp) hset (by rw [hf.tag]; exact h0)
      (by rw [hf.tag, hother p (Ne.symm hne), hpt])
    exact hne hsame
  · intro hres p hp q hq hset hp0 heq
    by_cases hpl : p = l
    · by_cases hql : q = l
      · rw [hpl, hql]
      · -- the other line would hold the tag already
        rw [hpl, hf.tag, hother q hql] at heq
        have hqset : q ∈ setOf g addr := mem_setOf.2 (by rw [← hset, hpl, mem_setOf.1 hl])
        exact absurd (hres q hqset heq.symm).symm hql
    · by_cases hql : q = l
      · rw [hql, hf.tag, hother p hpl] at heq
        have hpset : p ∈ setOf g addr := mem_setOf.2 (by rw [hset, hql, mem_setOf.1 hl])
        exact absurd (hres p hpset heq).symm hpl
      · rw [hother p hpl] at hp0
        rw [hother p hpl, hother q hql] at heq
        exact hu p hp q hq hset hp0 heq

/-- It does so exactly when that line is ahead of the invalid and the distant ones. -/
theorem Filled.resident_iff (h0 : g.calcTag addr ≠ 0) (hf : Filled g s addr upd l d s') (hu : Unique g s) :
    (∀ p ∈ setOf g addr, (s.mem p).tag = g.calcTag addr → l = p) ↔ Ahead g s addr := by
  -- with a resident line, the first scan ends
  have hnow : ∀ p ∈ setOf g addr, (s.mem p).tag = g.calcTag addr → Stops g s (g.calcTag addr) (g.calcIndex4Tag (g.calcTag addr)) l := by
    intro p hp hpt
    have hd : d = 0 := by
      by_contra hd
      have hgo := hf.goes 0 (by omega) p hp
      rw [aged_zero, stopsAt, hpt] at hgo
      simp at hgo
    have hstops := hf.stops
    rwa [hd, aged_zero] at hstops
  constructor
  · intro hres p hp hpt q hq hlt
    have hstops := hnow p hp hpt
    rw [hres p hp hpt] at hstops
    have hgo := hstops.first q hq hlt
    unfold stopsAt at hgo
    simp only [Bool.or_eq_false_iff, decide_eq_false_iff_not, Bool.not_eq_false'] at hgo
    exact ⟨hgo.1.2, by omega⟩
  · intro hahead p hp hpt
    refine (hnow p hp hpt).unique ⟨hp, ?_, fun q hq hlt => ?_⟩
    · simp [stopsAt, hpt]
    · obtain ⟨hvalid, hnear⟩ := hahead p hp hpt q hq hlt
      have hqt : (s.mem q).tag ≠ g.calcTag addr := by
        intro hqt
        have := hu q (setOf_lt hq) p (setOf_lt hp) (by rw [mem_setOf.1 hq, mem_setOf.1 hp]) (by rw [hqt]; exact h0)
          (by rw [hqt, hpt])
        omega
      have hdist : ¬(s.mem q).rrpv ≥ RRIP_M - 1 := by omega
      simp [stopsAt, hqt, hvalid, hdist]

theorem findLine_tag (g : Geometry) (s : CacheSHIP) (addr : AddrType) (upd : Bool) (sig : AddrType) (x : ℕ) :
    ((s.findLine g addr upd sig).2.mem x).tag = (s.mem x).tag := by
  rcases findLine_cases g s addr upd sig with ⟨-, hs, -⟩ | ⟨l, -, -, htag, -, htag', -, hother⟩
  · rw [hs]
  · by_cases hx : x = l
    · rw [hx, htag, htag']
    · rw [hother x hx]

/-- The state after a fill. -/
theorem filled_of_step (hs : step g s (.fillLine addr upd sig) = some s') :
    g.calcTag addr ≠ 0 ∧ ∃ l d, (s.fillLine g addr upd sig).1 = l ∧ Filled g s addr upd l d s' := by
  obtain ⟨h0, hs'⟩ := step_fillLine hs
  obtain ⟨l, d, hl, hf⟩ := fillLine_spec g s addr upd sig
  rw [hs'] at hf
  exact ⟨h0, l, d, hl, hf⟩

theorem ShipOk.step {op : Op} (hs : step g s op = some s') (h : ShipOk g s) : ShipOk g s' := by
  cases op with
  | findLine addr upd sig =>
    obtain ⟨h0, rfl⟩ := step_findLine hs
    rcases findLine_cases g s addr upd sig with ⟨-, hmiss, -⟩ | ⟨l, -, -, htag, -, htag', hrrpv, hother⟩
    · rw [hmiss]
      exact h
    · refine ⟨fun x => ?_, fun x hx => ?_, fun x hx hx0 => ?_⟩
      · by_cases hxl : x = l
        · rw [hxl, hrrpv]
          exact Nat.zero_le _
        · rw [hother x hxl]
          exact h.low x
      · by_cases hxl : x = l
        · rw [hxl, htag'] at hx
          exact absurd hx h0
        · rw [hother x hxl] at hx ⊢
          exact h.distant x hx
      · rw [findLine_tag] at hx0 ⊢
        exact h.home x hx hx0
  | fillLine addr upd sig =>
    obtain ⟨h0, l, d, -, hf⟩ := filled_of_step hs
    exact hf.ok h h0
  | invalidate line =>
    obtain ⟨-, rfl⟩ := step_invalidate hs
    refine ⟨fun x => ?_, fun x hx => ?_, fun x hx hx0 => ?_⟩
    · by_cases hxl : x = line
      · rw [hxl, updLine_self]
        exact le_rfl
      · rw [updLine_of_ne hxl]
        exact h.low x
    · by_cases hxl : x = line
      · rw [hxl, updLine_self]
        rfl
      · rw [updLine_of_ne hxl] at hx ⊢
        exact h.distant x hx
    · by_cases hxl : x = line
      · rw [hxl, updLine_self] at hx0
        exact absurd rfl hx0
      · rw [updLine_of_ne hxl] at hx0 ⊢
        exact h.home x hx hx0

/-- **Every run keeps the invariant.** -/
theorem run_ok {k : ℕ} {table : ℕ → ℕ} {ops : List Op} (h : run (step g) (new k table) ops = some s) : ShipOk g s :=
  run_inv (fun _ _ _ hs hok => ShipOk.step hs hok) h (shipOk_new g k table)

/-- One step: it keeps the tags unique exactly when it is no fill that passes over a resident line. -/
theorem unique_step {op : Op} (hs : step g s op = some s') (hu : Unique g s) :
    (Unique g s' ↔ FillsAhead g s op) ∧ (FillsAhead g s op → ReturnsResident g s op) := by
  cases op with
  | findLine addr upd sig =>
    refine ⟨⟨fun _ => trivial, fun _ => ?_⟩, fun _ => trivial⟩
    obtain ⟨-, rfl⟩ := step_findLine hs
    intro p hp q hq hset hp0 heq
    rw [findLine_tag] at hp0
    rw [findLine_tag, findLine_tag] at heq
    exact hu p hp q hq hset hp0 heq
  | fillLine addr upd sig =>
    obtain ⟨h0, l, d, hl, hf⟩ := filled_of_step hs
    refine ⟨(hf.unique_iff h0 hu).trans (hf.resident_iff h0 hu), fun hahead p hp hpt => ?_⟩
    rw [hl]
    exact (hf.resident_iff h0 hu).2 hahead p hp hpt
  | invalidate line =>
    refine ⟨⟨fun _ => trivial, fun _ => ?_⟩, fun _ => trivial⟩
    obtain ⟨-, rfl⟩ := step_invalidate hs
    intro p hp q hq hset hp0 heq
    -- the line that is invalid now is neither of them
    have hpl : p ≠ line := by
      rintro rfl
      rw [updLine_self] at hp0
      exact hp0 rfl
    have hql : q ≠ line := by
      rintro rfl
      rw [updLine_self] at heq
      exact hp0 heq
    rw [updLine_of_ne hpl] at hp0
    rw [updLine_of_ne hpl, updLine_of_ne hql] at heq
    exact hu p hp q hq hset hp0 heq

/-- As long as the tags are unique, a fill of a resident address returns its line. -/
theorem returns_along {ops : List Op} (h : run (step g) s ops = some s') (halong : Along (step g) (FillsAhead g) s ops)
    (hu : Unique g s) : Along (step g) (ReturnsResident g) s ops := by
  induction ops generalizing s with
  | nil => trivial
  | cons op ops ih =>
    obtain ⟨t, ht, hrest⟩ := run_cons.1 h
    obtain ⟨hiff, hreturns⟩ := unique_step ht hu
    refine ⟨hreturns halong.1, fun v hv => ?_⟩
    obtain rfl : t = v := Option.some.inj (ht.symm.trans hv)
    exact ih hrest (halong.2 t ht) (hiff.2 halong.1)

/-- **Duplicate tags.** In every run of a `CacheSHIP`, no set ever holds a tag twice and every fill of a resident
address returns its line if and only if at each fill, the resident line is in front of every invalid and every
distant line of its set. -/
theorem ship_unique_iff {k : ℕ} {table : ℕ → ℕ} {ops : List Op} (h : run (step g) (new k table) ops = some s) :
    ((∀ pre t, pre <+: ops → run (step g) (new k table) pre = some t → Unique g t) ∧
        Along (step g) (ReturnsResident g) (new k table) ops) ↔
      Along (step g) (FillsAhead g) (new k table) ops := by
  have hnew : Unique g (new k table) := fun p _ q _ _ h0 => absurd rfl h0
  have hexact := forall_prefix_iff_along (D := fun _ _ => True) (P := FillsAhead g) (I := Unique g) (E := Unique g)
    (fun _ hu => hu) (fun _ _ _ hs _ hP hu => (unique_step hs hu).1.2 hP)
    (fun _ _ _ hs _ hP hu hu' => hP ((unique_step hs hu).1.1 hu')) h (Along.of_forall (fun _ _ => trivial) _ _) hnew
  constructor
  · rintro ⟨hall, -⟩
    exact hexact.1 hall
  · intro halong
    exact ⟨hexact.2 halong, returns_along h halong hnew⟩

/-- A run in which the resident line is hit, filled again and ahead of the rest. -/
def refilled : List Op :=
  [.fillLine 0x20 false 0, .fillLine 0x40 true 7, .findLine 0x20 true 7, .fillLine 0x20 false 0, .invalidate 1,
    .fillLine 0x60 false 0]

theorem ship_unique_refilled :
    ∃ s, run (step smallGeometry) (new 1 fun _ => 255) refilled = some s ∧
      ∀ pre t, pre <+: refilled → run (step smallGeometry) (new 1 fun _ => 255) pre = some t → Unique smallGeometry t := by
  have hrun : (run (step smallGeometry) (new 1 fun _ => 255) refilled).isSome = true := by decide +kernel
  obtain ⟨s, hs⟩ := Option.isSome_iff_exists.1 hrun
  exact ⟨s, hs, ((ship_unique_iff hs).2 (by decide +kernel)).1⟩

/-- The line in front of the resident one is invalidated, and the next fill takes it. -/
theorem ship_duplicate :
    ∃ s, run (step smallGeometry) (new 1 fun _ => 0)
        [.fillLine 0x20 false 0, .fillLine 0x40 false 0, .invalidate 0, .fillLine 0x40 false 0] = some s ∧
      ¬Unique smallGeometry s := by
  have hrun : ((run (step smallGeometry) (new 1 fun _ => 0)
      [.fillLine 0x20 false 0, .fillLine 0x40 false 0, .invalidate 0, .fillLine 0x40 false 0]).any fun s =>
        (s.mem 0).tag = 4 ∧ (s.mem 1).tag = 4) = true := by
    decide +kernel
  obtain ⟨s, hs, htags⟩ := (Option.any_eq_true _ _).1 hrun
  obtain ⟨h0, h1⟩ := of_decide_eq_true htags
  refine ⟨s, hs, fun hu => ?_⟩
  have hsame := hu 0 (by decide) 1 (by decide) (by decide) (by rw [h0]; decide) (by rw [h0, h1])
  exact absurd hsame (by decide)

end Unique

/-! ## The counters -/

section Counters

open CacheCore (smallGeometry)

variable {g : Geometry} {s s' : CacheSHIP} {j k : ℕ}

/-- A hit counts up to 7. -/
theorem hitSHIP_counter (l : ℕ) (sig : AddrType) (h : s.SHCT j ≤ 7) : (s.hitSHIP l sig).SHCT j ≤ 7 := by
  unfold hitSHIP
  simp only
  split
  · rename_i hlow
    rw [Function.update_apply]
    split
    · exact hlow
    · exact h
  · exact h

/-- A replacement counts down to 0. -/
theorem replaceSHIP_counter (l : ℕ) (sig : AddrType) (h : s.SHCT j ≤ 7) : (s.replaceSHIP l sig).SHCT j ≤ 7 := by
  unfold replaceSHIP
  simp only
  split
  · rw [Function.update_apply]
    split
    · rename_i hj
      rw [← hj]
      omega
    · exact h
  · exact h

theorem findLine_counter (g : Geometry) (addr : AddrType) (upd : Bool) (sig : AddrType) (h : s.SHCT j ≤ 7) :
    (s.findLine g addr upd sig).2.SHCT j ≤ 7 := by
  simp only [findLine]
  split
  · exact h
  · cases upd with
    | false => exact h
    | true =>
      rename_i l _
      exact hitSHIP_counter l sig h

theorem fillLine_counter (g : Geometry) (addr : AddrType) (upd : Bool) (sig : AddrType) (h : s.SHCT j ≤ 7) :
    (s.fillLine g addr upd sig).2.2.SHCT j ≤ 7 := by
  -- aging leaves the counters alone
  obtain ⟨l, d, hchoose, -, -⟩ := choose_spec g s (g.calcTag addr) (g.calcIndex4Tag (g.calcTag addr))
  simp only [fillLine, findLine2Replace, hchoose, updLine]
  cases upd with
  | false => exact h
  | true => exact replaceSHIP_counter (s := aged g _ d s) _ _ h

/-- The counters stay in their range. -/
theorem counter_step {op : Op} (hs : step g s op = some s') (h : s.SHCT j ≤ 7) : s'.SHCT j ≤ 7 := by
  cases op with
  | findLine addr upd sig =>
    obtain ⟨-, rfl⟩ := step_findLine hs
    exact findLine_counter g addr upd sig h
  | fillLine addr upd sig =>
    obtain ⟨-, rfl⟩ := step_fillLine hs
    exact fillLine_counter g addr upd sig h
  | invalidate line =>
    obtain ⟨-, rfl⟩ := step_invalidate hs
    exact h

/-- **What is promised of a counter**: the constructor clears it, whatever it finds in memory, and then it stays in
its range in every reachable state. -/
def CounterOk (k j : ℕ) : Prop :=
  ∀ (g : Geometry) (table : ℕ → ℕ) (ops : List Op) (s : CacheSHIP), run (step g) (new k table) ops = some s →
    (new k table).SHCT j = 0 ∧ s.SHCT j ≤ 7

/-- **A counter is as promised** exactly when the loop of the constructor gets to it. -/
theorem counterOk_iff (k j : ℕ) : CounterOk k j ↔ j < 2 ^^^ k := by
  constructor
  · intro hok
    by_contra hj
    -- the counter keeps what was in memory
    obtain ⟨hzero, -⟩ := hok smallGeometry (fun _ => 255) [] _ rfl
    simp only [new] at hzero
    rw [if_neg hj] at hzero
    exact absurd hzero (by decide)
  · intro hj g table ops s hs
    have hzero : (new k table).SHCT j = 0 := if_pos hj
    refine ⟨hzero, run_inv (I := fun s => s.SHCT j ≤ 7) (fun _ _ _ hs h => counter_step hs h) hs ?_⟩
    rw [hzero]
    exact Nat.zero_le _

/-- Some signature selects a counter that is not cleared, unless the table has two entries. -/
theorem exists_uncleared : ∀ k < 30, k ≠ 0 →
    2 ^^^ k ≤ ((new k fun _ => 0).signature (if k = 1 then 3 else BitVec.ofNat 64 (2 ^ (k + 1)))).toNat := by
  decide

theorem signature_lt (s : CacheSHIP) (sig : AddrType) : (s.signature sig).toNat < 2 ^ (s.log2shct + 1) := by
  unfold signature
  have hsize : 2 <<< s.log2shct = 2 ^ (s.log2shct + 1) := by
    rw [Nat.shiftLeft_eq, Nat.pow_succ, Nat.mul_comm]
  have hpos : 0 < 2 ^ (s.log2shct + 1) := Nat.two_pow_pos _
  rw [BitVec.toNat_and, BitVec.toNat_ofNat, hsize]
  have hmask := Nat.mod_le (2 ^ (s.log2shct + 1) - 1) (2 ^ 64)
  refine lt_of_le_of_lt Nat.and_le_right ?_
  omega

/-- **The table of counters.** Of the sizes that the constructor accepts, `ship_signature_bits = 0` is the one for which
every counter that a signature can select is as promised. (For 30, the size does not fit the `int` that `new` gets.) -/
theorem shct_iff (hk : k < 30) :
    (∀ (table : ℕ → ℕ) (sig : AddrType), CounterOk k ((new k table).signature sig).toNat) ↔ k = 0 := by
  constructor
  · intro hall
    by_contra h0
    have hok := (counterOk_iff k _).1 (hall (fun _ => 0) (if k = 1 then 3 else BitVec.ofNat 64 (2 ^ (k + 1))))
    have hlow := exists_uncleared k hk h0
    omega
  · rintro rfl table sig
    rw [counterOk_iff]
    have hlt : ((new 0 table).signature sig).toNat < 2 ^ (0 + 1) := signature_lt (new 0 table) sig
    exact hlt

/-- With two counters, both are cleared. -/
theorem shct_iff_none :
    ((new 0 fun _ => 255).signature 0x22).toNat = 1 ∧ CounterOk 0 ((new 0 fun _ => 255).signature 0x22).toNat :=
  ⟨by decide, (shct_iff (by decide)).2 rfl _ _⟩

/-- With the 13 bits that are the default, the 16th counter is not cleared; it keeps what was in memory. -/
theorem shct_uncleared :
    ((new 13 fun _ => 200).signature 0x20).toNat = 16 ∧ (new 13 fun _ => 200).SHCT 16 = 200 ∧ ¬CounterOk 13 16 :=
  ⟨by decide, by decide, fun h => absurd ((counterOk_iff 13 16).1 h) (by decide)⟩

end Counters

end CacheSHIP

end Esesc.Suc
