import Esesc.Core.BPredAgree
import Esesc.Suc.CacheVictim

/-!
# Whose target the branch target buffer compares with (`BPBTB::predict` in `BPred.cpp`)

A lookup without update reads the line that has the tag of the branch. A taken branch with update fills first: it
takes whatever line `findLine2Replace` gives it, reads the target that is left in it and writes its own. If the tag is
resident that line is the entry of the branch, and otherwise it is the entry of another one.

* `findLine2Replace_cases`: the line with the tag if the set has one, the victim of the policy if not.
* `btb_answer_iff`: when a correct answer comes from the entry of the branch.
-/

namespace Esesc.Suc.CacheCore

variable {S : Type} [LineState S] {g : Geometry} {org : Organisation} {s : CacheCore S} {addr : AddrType}

/-- The line that a fill takes when it misses. The skewed organisation counts up to choose among its three slots. -/
def victim (org : Organisation) (g : Geometry) (s : CacheCore S) (addr : AddrType) : ℕ :=
  let tag := g.calcTag addr
  match org with
  | .assoc policy => s.content (s.policyFree g policy (g.calcIndex4Tag tag)).1
  | .dm => s.content (g.calcIndex4Tag tag)
  | .dmSkew =>
    let r := Int.bmod (s.randNumber + 1) (2 ^ 32)
    if 2 < r ∨ r = 0 then s.content (g.calcIndex4Tag tag)
    else if r = 1 then s.content (g.calcIndex4Tag (skew2 tag))
    else s.content (g.calcIndex4Tag (skew3 tag))

/-- A skewed cache takes the line of the first slot that has the tag. -/
theorem findLine2ReplaceSkew_pick :
    (∃ p, Home .dmSkew g (g.calcTag addr) p ∧ s.tagAt p = g.calcTag addr ∧
        (s.findLine2ReplaceSkew g addr).1 = s.content p) ∨
      (∀ p, Home .dmSkew g (g.calcTag addr) p → s.tagAt p ≠ g.calcTag addr) ∧
        (s.findLine2ReplaceSkew g addr).1 = victim .dmSkew g s addr := by
  by_cases h1 : getTag (s.mem (s.content (g.calcIndex4Tag (g.calcTag addr)))) = g.calcTag addr
  · exact .inl ⟨_, .inl rfl, h1, by simp only [findLine2ReplaceSkew]; rw [if_pos h1]⟩
  by_cases h2 : getTag (s.mem (s.content (g.calcIndex4Tag (skew2 (g.calcTag addr))))) = g.calcTag addr
  · exact .inl ⟨_, .inr (.inl rfl), h2, by simp only [findLine2ReplaceSkew]; rw [if_neg h1, if_pos h2]⟩
  by_cases h3 : getTag (s.mem (s.content (g.calcIndex4Tag (skew3 (g.calcTag addr))))) = g.calcTag addr
  · exact .inl ⟨_, .inr (.inr rfl), h3, by simp only [findLine2ReplaceSkew]; rw [if_neg h1, if_neg h2, if_pos h3]⟩
  refine .inr ⟨?_, ?_⟩
  · rintro p (rfl | rfl | rfl)
    · exact h1
    · exact h2
    · exact h3
  · simp only [findLine2ReplaceSkew, victim]
    rw [if_neg h1, if_neg h2, if_neg h3]
    -- a counter above 2 starts again with the first slot
    by_cases hr : 2 < Int.bmod (s.randNumber + 1) (2 ^ 32)
    · rw [if_pos hr, if_pos (Or.inl hr)]
      rfl
    · rw [if_neg hr]
      simp only [hr, false_or]

/-- **The line that a fill takes** is one that has the tag, or, if no position of the tag has one, the victim. -/
theorem findLine2Replace_cases (org : Organisation) (g : Geometry) (s : CacheCore S) (addr : AddrType) :
    (∃ p, Home org g (g.calcTag addr) p ∧ s.tagAt p = g.calcTag addr ∧
        (s.findLine2Replace org g addr).1 = s.content p) ∨
      (∀ p, Home org g (g.calcTag addr) p → s.tagAt p ≠ g.calcTag addr) ∧
        (s.findLine2Replace org g addr).1 = victim org g s addr := by
  cases org with
  | assoc policy =>
    have hpos := g.assoc_pos
    simp only [findLine2Replace, findLine2ReplaceAssoc]
    split
    · rename_i hfirst
      exact .inl ⟨_, (g.mem_set_iff _ _).2 ⟨le_rfl, by omega⟩, hfirst, rfl⟩
    · split
      · rename_i l hs
        obtain ⟨h1, h2, h3⟩ := searchFree_some hs
        exact .inl ⟨l, (g.mem_set_iff _ _).2 ⟨h1, h2⟩, h3, rfl⟩
      · rename_i hs
        refine .inr ⟨fun p hp => ?_, ?_⟩
        · have hset := (g.mem_set_iff _ _).1 hp
          exact searchFree_none hs p hset.1 hset.2
        · rw [takeLine_fst, policyFree_content]
          rfl
  | dm =>
    by_cases htag : s.tagAt (g.calcIndex4Tag (g.calcTag addr)) = g.calcTag addr
    · exact .inl ⟨_, rfl, htag, rfl⟩
    · refine .inr ⟨?_, rfl⟩
      rintro p rfl
      exact htag
  | dmSkew => exact findLine2ReplaceSkew_pick

end Esesc.Suc.CacheCore

namespace Esesc.Core

open Esesc.Suc Esesc.Suc.CacheCore

namespace BPBTB

/-- Position `p` of the buffer has an entry for the branch: it is one of the tag of its key, and has that tag. -/
def EntryAt (b : BPBTB) (c : CacheCore BTBState) (d : CtrlInst) (p : ℕ) : Prop :=
  Home b.org b.geom (b.geom.calcTag (b.key d)) p ∧ c.tagAt p = b.geom.calcTag (b.key d)

/-- The buffer holds an entry for the branch with the target of the branch. -/
def Holds (b : BPBTB) (c : CacheCore BTBState) (d : CtrlInst) : Prop :=
  ∃ p, b.EntryAt c d p ∧ (c.mem (c.content p)).inst = d.addr

/-- The buffer holds no entry for the branch. -/
def Misses (b : BPBTB) (c : CacheCore BTBState) (d : CtrlInst) : Prop := ∀ p, ¬b.EntryAt c d p

/-- The target in the line that a miss replaces. -/
def leftTarget (b : BPBTB) (c : CacheCore BTBState) (d : CtrlInst) : AddrType :=
  (c.mem (victim b.org b.geom c (b.key d))).inst

variable {b : BPBTB} {c : CacheCore BTBState} {d : CtrlInst}

/-- What a taken branch compares with. -/
theorem stale_cases (b : BPBTB) (c : CacheCore BTBState) (d : CtrlInst) :
    (∃ p, b.EntryAt c d p ∧ b.stale c d = ((c.mem (c.content p)).inst == d.addr)) ∨
      b.Misses c d ∧ b.stale c d = (b.leftTarget c d == d.addr) := by
  rcases findLine2Replace_cases b.org b.geom c (b.key d) with ⟨p, hhome, htag, hpick⟩ | ⟨hmiss, hpick⟩
  · refine .inl ⟨p, ⟨hhome, htag⟩, ?_⟩
    rw [stale, hpick]
  · refine .inr ⟨fun p hp => hmiss p hp.1 hp.2, ?_⟩
    rw [stale, hpick]
    rfl

theorem predict_correct_iff (hc : b.data = some c) (ht : d.isTaken = true) :
    (b.predict d true).1 = .CorrectPrediction ↔ b.stale c d = true := by
  rw [predict_fill d hc ht]
  cases b.stale c d <;> simp

/-- **Whose entry answers.** In every state of the buffer, a correct answer to a taken branch comes from an entry of
the branch with its target if and only if the branch has an entry, or the line replaced for it has another target. -/
theorem btb_answer_iff (hc : b.data = some c) (ht : d.isTaken = true) :
    ((b.predict d true).1 = .CorrectPrediction → b.Holds c d) ↔ (b.Misses c d → b.leftTarget c d ≠ d.addr) := by
  rw [predict_correct_iff hc ht]
  constructor
  · intro hholds hmiss hleft
    rcases stale_cases b c d with ⟨p, hp, -⟩ | ⟨-, hstale⟩
    · exact hmiss p hp
    · obtain ⟨p, hp, -⟩ := hholds (by rw [hstale, hleft, beq_self_eq_true])
      exact hmiss p hp
  · intro hleft hstale
    rcases stale_cases b c d with ⟨p, hp, heq⟩ | ⟨hmiss, heq⟩
    · rw [heq, beq_iff_eq] at hstale
      exact ⟨p, hp, hstale⟩
    · rw [heq, beq_iff_eq] at hstale
      exact absurd hstale (hleft hmiss)

/-- A branch at `pc` that is taken to `target`. -/
def branch (pc target : AddrType) : CtrlInst := ⟨pc, target, ⟨.iBALU_LBRANCH, 0, 0, 0, 0⟩⟩

/-- Four entries, two in each set, that have seen two branches of one set. -/
def trained : BPBTB :=
  let b : BPBTB := ⟨0, .assoc .LRU, smallGeometry, some (CacheCore.new 0)⟩
  ((b.predict (branch 0x80 0x1000) true).2.predict (branch 0x100 0x2000) true).2

theorem btb_answer_trained :
    ∃ c, trained.data = some c ∧ (branch 0x100 0x2000).isTaken = true ∧
      ((trained.predict (branch 0x100 0x2000) true).1 = .CorrectPrediction → trained.Holds c (branch 0x100 0x2000)) := by
  obtain ⟨c, hc⟩ := Option.isSome_iff_exists.1 (show trained.data.isSome = true by decide +kernel)
  have hentry : (trained.data.any fun c => c.tagAt 0 = trained.geom.calcTag (trained.key (branch 0x100 0x2000))) = true := by
    decide +kernel
  have hhome : Home trained.org trained.geom (trained.geom.calcTag (trained.key (branch 0x100 0x2000))) 0 :=
    show 0 / 2 = smallGeometry.calcSet4Tag _ by decide +kernel
  refine ⟨c, hc, by decide, (btb_answer_iff hc (by decide)).2 fun hmiss => absurd ⟨hhome, ?_⟩ (hmiss 0)⟩
  rw [hc] at hentry
  exact of_decide_eq_true hentry

/-- A third branch of the set that has the target of the first one takes over its line, and is answered from it. -/
theorem btb_answers_foreign :
    ∃ c, trained.data = some c ∧ (branch 0x180 0x1000).isTaken = true ∧
      (trained.predict (branch 0x180 0x1000) true).1 = .CorrectPrediction ∧ ¬trained.Holds c (branch 0x180 0x1000) := by
  obtain ⟨c, hc⟩ := Option.isSome_iff_exists.1 (show trained.data.isSome = true by decide +kernel)
  have hset : (trained.data.all fun c => ∀ p < 2, c.tagAt p ≠ trained.geom.calcTag (trained.key (branch 0x180 0x1000))) =
      true := by
    decide +kernel
  refine ⟨c, hc, by decide, by decide +kernel, ?_⟩
  rintro ⟨p, ⟨hhome, htag⟩, -⟩
  rw [hc] at hset
  have hp : p < 2 := by
    have hdiv : p / 2 = 0 := hhome
    omega
  exact of_decide_eq_true hset p hp htag

end BPBTB

end Esesc.Core
