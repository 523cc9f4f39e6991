import Mathlib.Data.BitVec
import Mathlib.Data.List.Infix
import Mathlib.Data.List.Induction
import Mathlib.Tactic.Common

/-!
# The demands that prefetchers see

`PrefetchInterface` keeps a prefetcher for each of the three levels of caches. A load that hits at a
level makes the prefetcher of this level, if its type says so, and goes into the demand lists: as a
hit of the level and as a miss of the closer ones.

* `executed_of_some`, `executed_of_none`: what a load does to one demand list.
* `prefetcher_isSome_iff`: the loads that made a prefetcher.
* `demands_iff`: the configurations and loads for which the demand lists are complete.
-/

namespace Esesc.Core

namespace PrefetchInterface

inductive LEVEL
  | L1
  | L2
  | L3
  | MEMORY
  | InvalidLevel
  | LoadForward
  deriving DecidableEq

/-- Types of prefetchers. -/
inductive TYPE
  | NONE
  | ASP
  | AMPM
  deriving DecidableEq

/-- The members of `PrefetchData_t` that are set. -/
structure PrefetchData where
  DataAddr : BitVec 64
  hit : Bool
  deriving DecidableEq

/-- A prefetcher is made of a type, for a cache. -/
structure Prefetcher where
  kind : TYPE
  myCache : String
  demandList : List PrefetchData
  deriving DecidableEq

/-- A load, with the flow of the unit that executes it and the name of the cache that it hits. -/
structure Load where
  myFid : ℕ
  loadForwarded : Bool
  addr : BitVec 64
  hitLevel : String

def getLevel (objName : String) : LEVEL :=
  if "DL1".toList <:+: objName.toList then .L1
  else if "L2".toList <:+: objName.toList then .L2
  else if "L3".toList <:+: objName.toList then .L3
  else if "niceCache".toList <:+: objName.toList then .MEMORY
  else .InvalidLevel

end PrefetchInterface

open PrefetchInterface

structure PrefetchInterface where
  l1pType : TYPE
  l2pType : TYPE
  l3pType : TYPE
  L1Prefetcher : Option Prefetcher
  L2Prefetcher : Option Prefetcher
  L3Prefetcher : Option Prefetcher
  deriving DecidableEq

namespace PrefetchInterface

def insertLevelDemand (prefetcher : Option Prefetcher) (addr : BitVec 64) (hit : Bool) : Option Prefetcher :=
  prefetcher.map fun p => { p with demandList := p.demandList ++ [⟨addr, hit⟩] }

/-- A prefetcher that does not exist is made, if there is one of the type for the level. With no type at
all `insertDemands` returns, so there is no result. -/
def make (made : List TYPE) (type : TYPE) (obj : String) : Option Prefetcher → Option (Option Prefetcher)
  | some p => some (some p)
  | none => if type = .NONE then none else some (if type ∈ made then some ⟨type, obj, []⟩ else none)

/-- The cases of `insertDemands`. -/
def insertAt (s : PrefetchInterface) (addr : BitVec 64) (obj : String) : LEVEL → PrefetchInterface
  | .LoadForward => s
  | .L1 =>
    match make [.ASP] s.l1pType obj s.L1Prefetcher with
    | none => s
    | some p => { s with L1Prefetcher := insertLevelDemand p addr true }
  | .L2 =>
    match make [.ASP] s.l2pType obj s.L2Prefetcher with
    | none => s
    | some p =>
      { s with
        L1Prefetcher := insertLevelDemand s.L1Prefetcher addr false
        L2Prefetcher := insertLevelDemand p addr true }
  | .L3 =>
    match make [.ASP, .AMPM] s.l3pType obj s.L3Prefetcher with
    | none => s
    | some p =>
      { s with
        L1Prefetcher := insertLevelDemand s.L1Prefetcher addr false
        L2Prefetcher := insertLevelDemand s.L2Prefetcher addr false
        L3Prefetcher := insertLevelDemand p addr true }
  | .MEMORY =>
    { s with
      L1Prefetcher := insertLevelDemand s.L1Prefetcher addr false
      L2Prefetcher := insertLevelDemand s.L2Prefetcher addr false
      L3Prefetcher := insertLevelDemand s.L3Prefetcher addr false }
  | .InvalidLevel => s

def insertDemands (s : PrefetchInterface) (dinst : Load) : PrefetchInterface :=
  let hitlevel := getLevel dinst.hitLevel
  if hitlevel = .InvalidLevel ∧ dinst.loadForwarded then s else s.insertAt dinst.addr dinst.hitLevel hitlevel

/-- A load of the main core that was not forwarded. -/
def Load.reported (ld : Load) : Bool := ld.myFid = 0 && !ld.loadForwarded

/-- What `FULoad::executed` does to the prefetchers. -/
def executed (s : PrefetchInterface) (dinst : Load) : PrefetchInterface :=
  if dinst.reported then insertDemands s dinst else s

/-- No prefetcher exists yet. -/
def start (l1p l2p l3p : TYPE) : PrefetchInterface := ⟨l1p, l2p, l3p, none, none, none⟩

def run (s : PrefetchInterface) (ls : List Load) : PrefetchInterface := ls.foldl executed s

/-! ## Complete demand lists -/

/-- The prefetcher of a level. -/
def prefetcher (s : PrefetchInterface) : LEVEL → Option Prefetcher
  | .L1 => s.L1Prefetcher
  | .L2 => s.L2Prefetcher
  | .L3 => s.L3Prefetcher
  | _ => none

/-- The type of the prefetcher of a level. -/
def typeOf (s : PrefetchInterface) : LEVEL → TYPE
  | .L1 => s.l1pType
  | .L2 => s.l2pType
  | .L3 => s.l3pType
  | _ => .NONE

/-- The distance of a level from the core. -/
def depth : LEVEL → Option ℕ
  | .L1 => some 0
  | .L2 => some 1
  | .L3 => some 2
  | .MEMORY => some 3
  | _ => none

/-- The first level is at least as close to the core as the second one. -/
def reaches (k m : LEVEL) : Bool :=
  match depth k, depth m with
  | some i, some j => i ≤ j
  | _, _ => false

/-- What the prefetcher of a level should see of a load. -/
def records (k : LEVEL) (ld : Load) : List PrefetchData :=
  if ld.reported && reaches k (getLevel ld.hitLevel) then [⟨ld.addr, getLevel ld.hitLevel = k⟩] else []

/-- **The demand lists are complete** after every part of the loads. Once a prefetcher exists its list
receives the record of every later load; and the load that made it is the first. -/
structure Complete (s : PrefetchInterface) (ls : List Load) : Prop where
  later : ∀ ls₁ ls₂ ls₃, ls = ls₁ ++ ls₂ ++ ls₃ → ∀ k p, (s.run ls₁).prefetcher k = some p →
    ∃ p', (s.run (ls₁ ++ ls₂)).prefetcher k = some p' ∧ p'.demandList = p.demandList ++ ls₂.flatMap (records k)
  first : ∀ ls₁ ld ls₃, ls = ls₁ ++ ld :: ls₃ → ∀ k p, (s.run ls₁).prefetcher k = none →
    (s.run (ls₁ ++ [ld])).prefetcher k = some p → p.demandList = records k ld

/-- **The levels that matter have a type.** After a load that makes the prefetcher of a level, no load
hits at a farther level of caches that has no type. -/
def Typed (s : PrefetchInterface) (ls : List Load) : Prop :=
  ∀ ls₁ a ls₂ b ls₃, ls = ls₁ ++ a :: ls₂ ++ b :: ls₃ → a.reported = true → b.reported = true →
    s.typeOf (getLevel a.hitLevel) = .ASP → getLevel a.hitLevel ≠ getLevel b.hitLevel →
    reaches (getLevel a.hitLevel) (getLevel b.hitLevel) = true →
    getLevel b.hitLevel = .L2 ∨ getLevel b.hitLevel = .L3 → s.typeOf (getLevel b.hitLevel) ≠ .NONE

/-! ## One load -/

variable {s : PrefetchInterface} {ld : Load} {ls : List Load} {k : LEVEL} {p : Prefetcher}

/-- A load returns early at a level of caches that has neither a prefetcher nor a type. -/
def early (s : PrefetchInterface) (m : LEVEL) : Bool :=
  m ∈ [.L1, .L2, .L3] && (s.prefetcher m).isNone && s.typeOf m = .NONE

/-- The types that a prefetcher of the level can be made of. -/
def makes : LEVEL → List TYPE
  | .L1 => [.ASP]
  | .L2 => [.ASP]
  | .L3 => [.ASP, .AMPM]
  | _ => []

theorem executed_eq : s.executed ld = if ld.reported then s.insertAt ld.addr ld.hitLevel (getLevel ld.hitLevel) else s := by
  unfold executed insertDemands
  split
  · simp only
    split
    · rename_i h
      rw [h.1]
      rfl
    · rfl
  · rfl

theorem typeOf_insertAt (addr : BitVec 64) (obj : String) (m k : LEVEL) :
    (s.insertAt addr obj m).typeOf k = s.typeOf k := by
  unfold insertAt
  repeat' split
  all_goals cases k <;> rfl

theorem run_concat : s.run (ls ++ [ld]) = (s.run ls).executed ld := by
  unfold run
  rw [List.foldl_append]
  rfl

theorem typeOf_run : (s.run ls).typeOf k = s.typeOf k := by
  induction ls using List.reverseRecOn with
  | nil => rfl
  | append_singleton ls ld ih =>
    rw [run_concat, executed_eq]
    split
    · rw [typeOf_insertAt, ih]
    · exact ih

/-- The prefetcher of a level, made if there is none and the type allows it. -/
def made (s : PrefetchInterface) (m : LEVEL) (obj : String) : Option Prefetcher :=
  match s.prefetcher m with
  | some p => some p
  | none => if s.typeOf m ∈ makes m then some ⟨s.typeOf m, obj, []⟩ else none

/-- The early return and the prefetcher made, at a level of caches. -/
theorem make_eq {obj : String} {m : LEVEL} (hm : m ∈ [.L1, .L2, .L3]) :
    make (makes m) (s.typeOf m) obj (s.prefetcher m) = if s.early m then none else some (s.made m obj) := by
  unfold make made early
  cases s.prefetcher m with
  | some p => simp
  | none => simp [hm]

/-- **One load, and the prefetcher of a level.** -/
theorem prefetcher_insertAt (addr : BitVec 64) (obj : String) (m : LEVEL) : (s.insertAt addr obj m).prefetcher k =
    if s.early m then s.prefetcher k
    else if k = m then insertLevelDemand (s.made k obj) addr true
    else if reaches k m then insertLevelDemand (s.prefetcher k) addr false
    else s.prefetcher k := by
  cases m with
  | L1 =>
    have hmake : make [.ASP] s.l1pType obj s.L1Prefetcher = _ := make_eq (s := s) (m := .L1) (by decide)
    unfold insertAt
    rw [hmake]
    cases s.early .L1 <;> cases k <;> rfl
  | L2 =>
    have hmake : make [.ASP] s.l2pType obj s.L2Prefetcher = _ := make_eq (s := s) (m := .L2) (by decide)
    unfold insertAt
    rw [hmake]
    cases s.early .L2 <;> cases k <;> rfl
  | L3 =>
    have hmake : make [.ASP, .AMPM] s.l3pType obj s.L3Prefetcher = _ := make_eq (s := s) (m := .L3) (by decide)
    unfold insertAt
    rw [hmake]
    cases s.early .L3 <;> cases k <;> rfl
  | MEMORY => cases k <;> rfl
  | InvalidLevel => cases k <;> rfl
  | LoadForward => cases k <;> rfl

theorem reaches_refl_of_made (h : s.prefetcher k = some p) : reaches k k = true := by
  cases k <;> first | rfl | cases h

theorem insertAt_of_some {addr : BitVec 64} {obj : String} {m : LEVEL} (h : s.prefetcher k = some p) :
    ∃ p', (s.insertAt addr obj m).prefetcher k = some p' ∧ p'.demandList =
      p.demandList ++ if s.early m then [] else if reaches k m then [⟨addr, m = k⟩] else [] := by
  rw [prefetcher_insertAt]
  cases s.early m with
  | true => exact ⟨p, h, (List.append_nil _).symm⟩
  | false =>
    by_cases hk : k = m
    · subst hk
      have hmade : s.made k obj = some p := by simp [made, h]
      simp [hmade, insertLevelDemand, reaches_refl_of_made h]
    · cases hr : reaches k m with
      | true => simp [hk, Ne.symm hk, h, insertLevelDemand]
      | false => simp [hk, h]

theorem insertAt_of_none {addr : BitVec 64} {obj : String} {m : LEVEL} (h : s.prefetcher k = none) :
    (s.insertAt addr obj m).prefetcher k =
      if k = m ∧ s.typeOf k ∈ makes k then some ⟨s.typeOf k, obj, [⟨addr, true⟩]⟩ else none := by
  rw [prefetcher_insertAt]
  by_cases hk : k = m
  · subst hk
    by_cases hmem : s.typeOf k ∈ makes k
    · have hearly : s.early k = false := by
        have htype : s.typeOf k ≠ .NONE := by
          intro ht
          rw [ht] at hmem
          cases k <;> simp [makes] at hmem
        simp [early, htype]
      simp [hearly, made, h, hmem, insertLevelDemand]
    · simp [made, h, hmem, insertLevelDemand]
  · simp [hk, h, insertLevelDemand]

/-- **One load, and the list of a prefetcher that exists.** It gets its record, unless the load returns
early. -/
theorem executed_of_some (ld : Load) (h : s.prefetcher k = some p) : ∃ p', (s.executed ld).prefetcher k = some p' ∧
    p'.demandList = p.demandList ++ if s.early (getLevel ld.hitLevel) then [] else records k ld := by
  rw [executed_eq]
  cases hr : ld.reported with
  | false => exact ⟨p, h, by simp [records, hr]⟩
  | true =>
    obtain ⟨p', hp', hlist⟩ := @insertAt_of_some s k p ld.addr ld.hitLevel (getLevel ld.hitLevel) h
    refine ⟨p', hp', hlist.trans ?_⟩
    simp [records, hr]

/-- **One load, and a prefetcher that does not exist.** -/
theorem executed_of_none (h : s.prefetcher k = none) : (s.executed ld).prefetcher k =
    if ld.reported = true ∧ k = getLevel ld.hitLevel ∧ s.typeOf k ∈ makes k then
      some ⟨s.typeOf k, ld.hitLevel, [⟨ld.addr, true⟩]⟩
    else none := by
  rw [executed_eq]
  cases hr : ld.reported with
  | false => simpa using h
  | true =>
    rw [if_pos rfl, insertAt_of_none h]
    simp

/-! ## Runs -/

/-- The loads that make the prefetcher of a level. -/
def Makes (s : PrefetchInterface) (k : LEVEL) (ld : Load) : Prop :=
  ld.reported = true ∧ k = getLevel ld.hitLevel ∧ s.typeOf k ∈ makes k

/-- A prefetcher exists when a load has made it. -/
theorem prefetcher_isSome_iff (ls : List Load) (hs : ∀ k, s.prefetcher k = none) :
    ((s.run ls).prefetcher k).isSome ↔ ∃ ld ∈ ls, s.Makes k ld := by
  induction ls using List.reverseRecOn with
  | nil => simp [run, hs]
  | append_singleton ls ld ih =>
    rw [run_concat]
    cases hp : (s.run ls).prefetcher k with
    | some p =>
      obtain ⟨p', hp', -⟩ := executed_of_some ld hp
      obtain ⟨a, ha, hm⟩ := ih.1 (by rw [hp]; rfl)
      rw [hp']
      exact iff_of_true rfl ⟨a, List.mem_append_left _ ha, hm⟩
    | none =>
      -- no load so far has made it, so this one does or none
      have hno : ∀ a ∈ ls, ¬s.Makes k a := by
        intro a ha hm
        have hsome := ih.2 ⟨a, ha, hm⟩
        rw [hp] at hsome
        cases hsome
      rw [executed_of_none hp, typeOf_run]
      constructor
      · intro h
        split at h
        · rename_i hm
          exact ⟨ld, by simp, hm⟩
        · cases h
      · rintro ⟨a, ha, hm⟩
        rcases List.mem_append.1 ha with ha | ha
        · exact absurd hm (hno a ha)
        · rw [List.mem_singleton.1 ha] at hm
          obtain ⟨hr, hk, ht⟩ := hm
          rw [if_pos ⟨hr, hk, ht⟩]
          rfl

theorem reaches_refl_of_makes {t : TYPE} (h : t ∈ makes k) : reaches k k = true := by
  cases k <;> simp_all [makes, reaches, depth]

/-- A closer level than one of the caches is one whose prefetchers have type `ASP`. -/
theorem makes_of_closer {m : LEVEL} {t : TYPE} (hm : m ∈ [.L1, .L2, .L3]) (hne : k ≠ m) (hr : reaches k m = true) :
    (t ∈ makes k ↔ t = .ASP) ∧ (m = .L2 ∨ m = .L3) := by
  cases k <;> cases m <;> simp_all [makes, reaches, depth]

theorem start_prefetcher (t₁ t₂ t₃ : TYPE) (k : LEVEL) : (start t₁ t₂ t₃).prefetcher k = none := by
  cases k <;> rfl

/-- The load that makes a prefetcher is the first in its list. -/
theorem demandList_first (h : s.prefetcher k = none) (h' : (s.executed ld).prefetcher k = some p) :
    p.demandList = records k ld := by
  rw [executed_of_none h] at h'
  split at h'
  · rename_i hm
    obtain rfl := Option.some.inj h'
    obtain ⟨hr, rfl, ht⟩ := hm
    simp [records, hr, reaches_refl_of_makes ht]
  · cases h'

/-- A load that returns early at a level of caches has a type to blame, and no load has made the
prefetcher of its level. -/
theorem early_iff {m : LEVEL} (hs : ∀ k, s.prefetcher k = none) :
    (s.run ls).early m = true ↔ m ∈ [LEVEL.L1, .L2, .L3] ∧ s.typeOf m = .NONE := by
  have hnone : s.typeOf m = .NONE → (s.run ls).prefetcher m = none := by
    intro ht
    rw [← Option.not_isSome_iff_eq_none, prefetcher_isSome_iff ls hs]
    rintro ⟨ld, -, -, -, hm⟩
    rw [ht] at hm
    cases m <;> simp [makes] at hm
  unfold early
  rw [typeOf_run, Bool.and_eq_true, Bool.and_eq_true, decide_eq_true_iff, decide_eq_true_iff, Option.isNone_iff_eq_none]
  constructor
  · rintro ⟨⟨hm, -⟩, ht⟩
    exact ⟨hm, ht⟩
  · rintro ⟨hm, ht⟩
    exact ⟨⟨hm, hnone ht⟩, ht⟩

/-- **The step of a run.** When the levels that matter have a type, no load that a prefetcher should see
returns early. -/
theorem Typed.early_false {ls₁ ls₂ ls₃ : List Load} (h : s.Typed (ls₁ ++ ls₂ ++ ld :: ls₃))
    (hs : ∀ k, s.prefetcher k = none) (hp : (s.run ls₁).prefetcher k = some p) (hrec : records k ld ≠ []) :
    (s.run (ls₁ ++ ls₂)).early (getLevel ld.hitLevel) = false := by
  rw [← Bool.not_eq_true, early_iff hs]
  rintro ⟨hm, ht⟩
  obtain ⟨a, ha, hmade⟩ := (prefetcher_isSome_iff ls₁ hs).1 (by rw [hp]; rfl)
  obtain ⟨har, hka, hka'⟩ := hmade
  have hshould : ld.reported = true ∧ reaches k (getLevel ld.hitLevel) = true := by
    unfold records at hrec
    split at hrec
    · rename_i hc
      exact Bool.and_eq_true_iff.1 hc
    · exact absurd rfl hrec
  have hne : k ≠ getLevel ld.hitLevel := by
    intro e
    rw [e, ht] at hka'
    generalize getLevel ld.hitLevel = m at hka'
    cases m <;> simp [makes] at hka'
  obtain ⟨hasp, hcache⟩ := makes_of_closer (t := s.typeOf k) hm hne hshould.2
  obtain ⟨x, y, rfl⟩ := List.append_of_mem ha
  refine h x a (y ++ ls₂) ld ls₃ (by simp) har hshould.1 ?_ ?_ ?_ hcache ht
  · rw [← hka]
    exact hasp.1 hka'
  · rw [← hka]
    exact hne
  · rw [← hka]
    exact hshould.2

/-- **Complete demand lists.** For every choice of types and every sequence of executed loads, the demand
lists are complete all along exactly if the levels that matter have a type. -/
theorem demands_iff (t₁ t₂ t₃ : TYPE) (ls : List Load) :
    Complete (start t₁ t₂ t₃) ls ↔ Typed (start t₁ t₂ t₃) ls := by
  have hstart := start_prefetcher t₁ t₂ t₃
  generalize start t₁ t₂ t₃ = s at *
  constructor
  · rintro hc ls₁ a ls₂ b ls₃ heq ha hb hasp hne hreach hcache hnone
    -- the second load returns early, although the first one has made a prefetcher
    have hmem : getLevel b.hitLevel ∈ [LEVEL.L1, .L2, .L3] := by
      rcases hcache with h | h <;> rw [h] <;> decide
    have hmade : s.Makes (getLevel a.hitLevel) a := ⟨ha, rfl, (makes_of_closer hmem hne hreach).1.2 hasp⟩
    obtain ⟨p, hp⟩ := Option.isSome_iff_exists.1
      ((prefetcher_isSome_iff (ls₁ ++ a :: ls₂) hstart).2 ⟨a, by simp, hmade⟩)
    obtain ⟨p', hp', hlist⟩ := hc.later (ls₁ ++ a :: ls₂) [b] ls₃ (by simp [heq]) _ p hp
    obtain ⟨p'', hp'', hlist'⟩ := executed_of_some b hp
    rw [run_concat, hp''] at hp'
    obtain rfl := Option.some.inj hp'
    have hrec : records (getLevel a.hitLevel) b ≠ [] := by simp [records, hb, hreach]
    rw [if_pos ((early_iff hstart).2 ⟨hmem, hnone⟩), hlist, List.flatMap_singleton] at hlist'
    exact hrec (List.append_cancel_left hlist')
  · intro htyped
    refine ⟨fun ls₁ ls₂ ls₃ heq k p hp => ?_, fun ls₁ ld ls₃ heq k p hp hp' => ?_⟩
    · induction ls₂ using List.reverseRecOn generalizing ls₃ with
      | nil => exact ⟨p, by simpa using hp, by simp⟩
      | append_singleton ls₂ ld ih =>
        have heq' : ls = ls₁ ++ ls₂ ++ ld :: ls₃ := by simp [heq]
        obtain ⟨p', hp', hlist⟩ := ih (ld :: ls₃) heq'
        obtain ⟨p'', hp'', hlist'⟩ := executed_of_some ld hp'
        refine ⟨p'', ?_, ?_⟩
        · rw [← List.append_assoc, run_concat]
          exact hp''
        · rw [hlist', hlist, List.flatMap_append, List.flatMap_singleton, List.append_assoc]
          -- an early return matters only for a load that should be recorded
          by_cases hrec : records k ld = []
          · rw [hrec]
            split <;> rfl
          · rw [Typed.early_false (heq' ▸ htyped) hstart hp hrec]
            rfl
    · rw [run_concat] at hp'
      exact demandList_first hp hp'

/-- With an L1 prefetcher and none for the L2, a miss of the L1 that hits the L2 is not reported. -/
theorem not_complete : ¬Complete (start .ASP .NONE .NONE) [⟨0, false, 64, "DL1(0)"⟩, ⟨0, false, 128, "L2(0)"⟩] := by
  intro h
  obtain ⟨p', hp', hlist⟩ := h.later [⟨0, false, 64, "DL1(0)"⟩] [⟨0, false, 128, "L2(0)"⟩] [] rfl .L1
    ⟨.ASP, "DL1(0)", [⟨64, true⟩]⟩ (by decide)
  have hp : ((start .ASP .NONE .NONE).run ([⟨0, false, 64, "DL1(0)"⟩] ++ [⟨0, false, 128, "L2(0)"⟩])).prefetcher .L1 =
      some ⟨.ASP, "DL1(0)", [⟨64, true⟩]⟩ := by decide
  rw [hp] at hp'
  obtain rfl := Option.some.inj hp'
  exact absurd hlist (by decide)

end PrefetchInterface

end Esesc.Core
