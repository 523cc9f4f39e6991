import Mathlib.Data.List.Basic
import Esesc.Suc.CacheInv

/-!
# Victims of an associative cache

`CacheAssoc` moves the line that it hits or fills to the front of its set, so the positions of a set are in
the order of last use. The LRU policy frees the last of them, and RANDOM the one that a counter says; both do so
whether or not the set has an invalid line, which the search before has looked for.

* `InOrder`: a later position was not used more recently.
* `lru_order`: this holds along every run, and the victim of LRU was used least recently.
* `invalid_first_iff`: a fill that misses evicts nothing if and only if the line that the policy frees is invalid.
-/

namespace Esesc.Suc

open LineState

namespace CacheCore

variable {S : Type} [LineState S] {g : Geometry} {s : CacheCore S} {policy : ReplacementPolicy}

/-! ## The order of last use -/

/-- How many uses ago the line was used last, where `log` has the latest use first. A line that was never used
comes behind all others. -/
def ago (log : List ℕ) (x : ℕ) : ℕ := log.idxOf x

@[simp] theorem ago_nil (x : ℕ) : ago [] x = 0 := rfl

@[simp] theorem ago_self (x : ℕ) (log : List ℕ) : ago (x :: log) x = 0 := List.idxOf_cons_self

theorem ago_of_ne {x y : ℕ} (h : y ≠ x) (log : List ℕ) : ago (x :: log) y = ago log y + 1 :=
  List.idxOf_cons_ne log (Ne.symm h)

/-- In each set, the line at a later position was not used more recently. -/
def InOrder (g : Geometry) (s : CacheCore S) (log : List ℕ) : Prop :=
  ∀ p q, q < g.numLines → p / g.assoc = q / g.assoc → p ≤ q → ago log (s.content p) ≤ ago log (s.content q)

omit [LineState S] in
theorem moveToFront_self (s : CacheCore S) (theSet : ℕ) : s.moveToFront theSet theSet = s := by
  unfold moveToFront
  rw [Nat.sub_self, shiftUp, Function.update_eq_self]

/-- **Using the line at `l`** and moving it to the front of its set. -/
theorem InOrder.touch {log : List ℕ} (h : InOrder g s log) (hok : CacheOk (.assoc policy) g s) {t : AddrType} {l : ℕ}
    (hl : l / g.assoc = g.calcSet4Tag t) :
    InOrder g (s.moveToFront (g.calcIndex4Tag t) l) (s.content l :: log) := by
  intro p q hq hpq hle
  have hset := (g.mem_set_iff t l).1 hl
  have hsetLe := g.set_le t
  have hdiv := before_div hl
  rw [moveToFront_content hset.1, moveToFront_content hset.1]
  -- where the two lines came from
  have hlt : ∀ j < g.numLines, before (g.calcIndex4Tag t) l j < g.numLines := by
    intro j hj
    unfold before
    split_ifs <;> omega
  have hne : ∀ j < g.numLines, j ≠ g.calcIndex4Tag t → s.content (before (g.calcIndex4Tag t) l j) ≠ s.content l := by
    intro j hj hjset heq
    have hbefore := hok.inj _ (hlt j hj) l (by omega) heq
    unfold before at hbefore
    split_ifs at hbefore <;> omega
  by_cases hp : p = g.calcIndex4Tag t
  · have hfront : before (g.calcIndex4Tag t) l p = l := by
      rw [before, if_pos hp]
    rw [hfront, ago_self]
    exact Nat.zero_le _
  · have hqset : q ≠ g.calcIndex4Tag t := by
      -- nothing of the set is in front of its first position
      intro heq
      have hpset : p / g.assoc = g.calcSet4Tag t := by
        rw [hpq, heq, g.mem_set_iff]
        have := g.assoc_pos
        omega
      have := (g.mem_set_iff t p).1 hpset
      omega
    rw [ago_of_ne (hne p (by omega) hp), ago_of_ne (hne q hq hqset)]
    have hmono : before (g.calcIndex4Tag t) l p ≤ before (g.calcIndex4Tag t) l q := by
      unfold before
      split_ifs <;> omega
    have := h _ _ (hlt q hq) (by rw [hdiv, hdiv, hpq]) hmono
    omega

theorem InOrder.touch_front {log : List ℕ} (h : InOrder g s log) (hok : CacheOk (.assoc policy) g s) (t : AddrType) :
    InOrder g s (s.content (g.calcIndex4Tag t) :: log) := by
  have hpos := g.assoc_pos
  have hmove := h.touch hok (t := t) ((g.mem_set_iff t _).2 ⟨le_rfl, by omega⟩)
  rw [moveToFront_self] at hmove
  exact hmove

/-! ## What is used -/

/-- The line that an operation hits or fills. -/
def use (org : Organisation) (g : Geometry) (s : CacheCore S) : Op → Option ℕ
  | .findLine addr => (s.findLine org g addr).1
  | .fillLine addr => some (s.fillLine org g addr).1
  | .invalidate _ => none
  | .otherSkew _ => none

/-- The lines that were hit or filled, the latest first. -/
def uses (org : Organisation) (g : Geometry) : CacheCore S → List Op → List ℕ
  | _, [] => []
  | s, op :: ops => uses org g (step org g s op) ops ++ (use org g s op).toList

theorem InOrder.findLine {log : List ℕ} (h : InOrder g s log) (hok : CacheOk (.assoc policy) g s) (addr : AddrType) :
    InOrder g (s.findLine (.assoc policy) g addr).2 ((s.findLine (.assoc policy) g addr).1.toList ++ log) := by
  simp only [CacheCore.findLine, findLineAssoc]
  split
  · exact h.touch_front hok _
  · split
    · exact h
    · rename_i l hs
      obtain ⟨h1, h2, -⟩ := searchHit_some hs
      exact h.touch hok ((g.mem_set_iff _ _).2 ⟨by omega, by omega⟩)

theorem InOrder.takeLine {log : List ℕ} (h : InOrder g s log) (hok : CacheOk (.assoc policy) g s) {t : AddrType} {l : ℕ}
    (hl : l / g.assoc = g.calcSet4Tag t) :
    InOrder g (s.takeLine (g.calcIndex4Tag t) l).2 ((s.takeLine (g.calcIndex4Tag t) l).1 :: log) := by
  unfold CacheCore.takeLine
  split
  · rename_i hfront
    rw [hfront]
    exact h.touch_front hok t
  · exact h.touch hok hl

theorem InOrder.fillLine {log : List ℕ} (h : InOrder g s log) (hok : CacheOk (.assoc policy) g s) (addr : AddrType) :
    InOrder g (s.fillLine (.assoc policy) g addr).2.2 ((s.fillLine (.assoc policy) g addr).1 :: log) := by
  -- the tag is written into a line where it is
  show InOrder g (s.findLine2ReplaceAssoc g policy addr).2 ((s.findLine2ReplaceAssoc g policy addr).1 :: log)
  simp only [findLine2ReplaceAssoc]
  split
  · exact h.touch_front hok _
  · split
    · rename_i l hs
      obtain ⟨h1, h2, -⟩ := searchFree_some hs
      exact h.touch hok ((g.mem_set_iff _ _).2 ⟨h1, h2⟩)
    · obtain ⟨hfree, -, hcontent, hl⟩ := hok.policyFree (g.calcTag addr)
      have horder : InOrder g (s.policyFree g policy (g.calcIndex4Tag (g.calcTag addr))).2 log := by
        unfold InOrder
        rw [hcontent]
        exact h
      exact horder.takeLine hfree hl

/-- One operation, whatever its address. -/
theorem ok_step (hok : CacheOk (.assoc policy) g s) (op : Op) : CacheOk (.assoc policy) g (step (.assoc policy) g s op) := by
  cases op with
  | findLine addr => exact hok.findLine addr
  | fillLine addr => exact hok.fill addr
  | invalidate line => exact hok.invalidate line
  | otherSkew r => exact hok.withRand r

theorem InOrder.step {log : List ℕ} (h : InOrder g s log) (hok : CacheOk (.assoc policy) g s) (op : Op) :
    InOrder g (step (.assoc policy) g s op) ((use (.assoc policy) g s op).toList ++ log) := by
  cases op with
  | findLine addr => exact h.findLine hok addr
  | fillLine addr => exact h.fillLine hok addr
  | invalidate line => exact h
  | otherSkew r => exact h

theorem InOrder.run {log : List ℕ} (h : InOrder g s log) (hok : CacheOk (.assoc policy) g s) (ops : List Op) :
    CacheOk (.assoc policy) g (run (.assoc policy) g s ops) ∧
      InOrder g (run (.assoc policy) g s ops) (uses (.assoc policy) g s ops ++ log) := by
  induction ops generalizing s log with
  | nil => exact ⟨hok, h⟩
  | cons op ops ih =>
    have hnext := ih (h.step hok op) (ok_step hok op)
    rw [← List.append_assoc] at hnext
    exact hnext

/-! ## Misses -/

/-- A search that misses has seen every position of the set. -/
theorem findLine_none {addr : AddrType} (h : (s.findLine (.assoc policy) g addr).1 = none) {p : ℕ}
    (hp : p / g.assoc = g.calcSet4Tag (g.calcTag addr)) : s.tagAt p ≠ g.calcTag addr := by
  have hset := (g.mem_set_iff _ p).1 hp
  simp only [CacheCore.findLine, findLineAssoc] at h
  split at h
  · cases h
  · rename_i hfirst
    split at h
    · rename_i hs
      rcases Nat.eq_or_lt_of_le hset.1 with heq | hlt
      · rw [← heq]
        exact hfirst
      · exact searchHit_none hs p (by omega) (by omega)
    · cases h

/-- A fill that misses takes the line that the policy frees. -/
theorem findLine2Replace_miss {addr : AddrType} (h : (s.findLine (.assoc policy) g addr).1 = none) :
    s.findLine2ReplaceAssoc g policy addr =
      (s.policyFree g policy (g.calcIndex4Tag (g.calcTag addr))).2.takeLine (g.calcIndex4Tag (g.calcTag addr))
        (s.policyFree g policy (g.calcIndex4Tag (g.calcTag addr))).1 := by
  have hpos := g.assoc_pos
  have hfirst := findLine_none h ((g.mem_set_iff (g.calcTag addr) _).2 ⟨le_rfl, by omega⟩)
  simp only [findLine2ReplaceAssoc]
  rw [if_neg hfirst]
  split
  · rename_i l hs
    obtain ⟨h1, h2, h3⟩ := searchFree_some hs
    exact absurd h3 (findLine_none h ((g.mem_set_iff _ _).2 ⟨h1, h2⟩))
  · rfl

omit [LineState S] in
theorem takeLine_fst (theSet l : ℕ) : (s.takeLine theSet l).1 = s.content l := by
  unfold CacheCore.takeLine
  split <;> rfl

omit [LineState S] in
theorem policyFree_content (theSet : ℕ) : (s.policyFree g policy theSet).2.content = s.content := by
  cases policy <;> rfl

theorem fillLine_miss {addr : AddrType} (h : (s.findLine (.assoc policy) g addr).1 = none) :
    (s.fillLine (.assoc policy) g addr).1 =
      s.content (s.policyFree g policy (g.calcIndex4Tag (g.calcTag addr))).1 := by
  show (s.findLine2ReplaceAssoc g policy addr).1 = _
  rw [findLine2Replace_miss h, takeLine_fst, policyFree_content]

/-- **The LRU order.** After every sequence of operations, the lines of each set are at their positions in the
order of their last hit or fill, the latest first; and a fill that misses takes a line of the set that no other line
of the set was used before. -/
theorem lru_order (g : Geometry) (r : ℤ) (ops : List Op) (s : CacheCore S) (hs : s = run (.assoc .LRU) g (new r) ops) :
    InOrder g s (uses (.assoc .LRU) g (new r : CacheCore S) ops) ∧
      ∀ addr, (s.findLine (.assoc .LRU) g addr).1 = none →
        (∃ q, q / g.assoc = g.calcSet4Tag (g.calcTag addr) ∧ s.content q = (s.fillLine (.assoc .LRU) g addr).1) ∧
          ∀ p, p / g.assoc = g.calcSet4Tag (g.calcTag addr) →
            ago (uses (.assoc .LRU) g (new r : CacheCore S) ops) (s.content p) ≤
              ago (uses (.assoc .LRU) g (new r : CacheCore S) ops) (s.fillLine (.assoc .LRU) g addr).1 := by
  have hstart : InOrder g (new r : CacheCore S) [] := fun p q _ _ _ => le_rfl
  obtain ⟨hok, horder⟩ := hstart.run (new_ok (.assoc .LRU) g r) ops
  rw [List.append_nil, ← hs] at horder
  rw [← hs] at hok
  refine ⟨horder, fun addr hmiss => ?_⟩
  have hpos := g.assoc_pos
  have hsetLe := g.set_le (g.calcTag addr)
  have hlast : (g.calcIndex4Tag (g.calcTag addr) + g.assoc - 1) / g.assoc = g.calcSet4Tag (g.calcTag addr) :=
    (g.mem_set_iff _ _).2 ⟨by omega, by omega⟩
  have hvictim : (s.fillLine (.assoc .LRU) g addr).1 =
      s.content (g.calcIndex4Tag (g.calcTag addr) + g.assoc - 1) := fillLine_miss hmiss
  rw [hvictim]
  refine ⟨⟨_, hlast, rfl⟩, fun p hp => horder p _ (by omega) (by rw [hp, hlast]) ?_⟩
  have := (g.mem_set_iff _ p).1 hp
  omega

/-- A set of two lines: a hit on the older one makes the other one the victim. -/
theorem lru_order_hit :
    ∃ s : CacheCore StateGeneric, s = run (.assoc .LRU) smallGeometry (new 0) [.fillLine 0x20, .fillLine 0x40, .findLine 0x20] ∧
      (s.findLine (.assoc .LRU) smallGeometry 0x60).1 = none ∧ (s.fillLine (.assoc .LRU) smallGeometry 0x60).2.1 = 0x40 ∧
      InOrder smallGeometry s
        (uses (.assoc .LRU) smallGeometry (new 0 : CacheCore StateGeneric) [.fillLine 0x20, .fillLine 0x40, .findLine 0x20]) :=
  ⟨_, rfl, by decide, by decide, (lru_order smallGeometry 0 _ _ rfl).1⟩

end CacheCore

/-! ## Invalid lines -/

namespace CacheCore

variable {g : Geometry} {policy : ReplacementPolicy}

/-- **Invalid ways.** In every state that a `CacheAssoc` can reach, a fill that misses evicts nothing, so that every
valid tag stays, if and only if the line at the position that the policy frees is invalid; it does not matter
whether the set has another invalid line. -/
theorem invalid_first_iff (r : ℤ) (ops : List Op) (hops : ∀ op ∈ ops, op.Ok g) (s : CacheCore StateGeneric)
    (hs : s = run (.assoc policy) g (new r) ops) {addr : AddrType} (h0 : g.calcTag addr ≠ 0)
    (hmiss : (s.findLine (.assoc policy) g addr).1 = none) :
    ((s.fillLine (.assoc policy) g addr).2.1 = 0 ∧
        resident g s ⊆ resident g (s.fillLine (.assoc policy) g addr).2.2) ↔
      isValid (s.mem (s.content (s.policyFree g policy (g.calcIndex4Tag (g.calcTag addr))).1)) = false := by
  have hok : CacheOk (.assoc policy) g s := by
    rw [hs]
    exact run_ok (new_ok (.assoc policy) g r) hops
  obtain ⟨-, hkeeps, -⟩ := fillLine_resident hok h0
  obtain ⟨-, -, -, hfree⟩ := hok.policyFree (g.calcTag addr)
  have hother := findLine_none hmiss hfree
  have hlt := (hok.findLine2Replace addr).2
  have hmem : (s.findLine2Replace (.assoc policy) g addr).2.mem = s.mem := s.findLine2Replace_mem _ g addr
  have hrpl := rplcAddr_eq (.assoc policy) g s addr
  rw [← hkeeps, and_self, hrpl, hmem, fillLine_miss hmiss]
  rw [show (s.findLine2Replace (.assoc policy) g addr).1 = _ from fillLine_miss hmiss] at hlt
  have hvalid := isValid_iff (s.mem (s.content (s.policyFree g policy (g.calcIndex4Tag (g.calcTag addr))).1))
  rw [← Bool.not_eq_true, hvalid]
  constructor
  · intro hzero hcur
    -- the address of a resident tag is not 0
    rw [if_pos ⟨hcur, hother⟩] at hzero
    exact (hok.addr_of_line hlt hcur).2 hzero
  · intro hcur
    rw [if_neg fun hboth => hcur hboth.1]

/-- The first line is filled over an invalid one. -/
theorem invalid_first_fresh :
    ((new 0 : CacheCore StateGeneric).fillLine (.assoc .RANDOM) smallGeometry 0x20).2.1 = 0 ∧
      resident smallGeometry (new 0 : CacheCore StateGeneric) ⊆
        resident smallGeometry ((new 0 : CacheCore StateGeneric).fillLine (.assoc .RANDOM) smallGeometry 0x20).2.2 :=
  (invalid_first_iff 0 [] (by decide) _ rfl (by decide) (by decide)).2 (by decide)

/-- The line that was used last is invalidated, and the other one of its set is evicted all the same. -/
theorem invalid_ignored :
    ∃ s : CacheCore StateGeneric,
      s = run (.assoc .LRU) smallGeometry (new 0) [.fillLine 0x20, .fillLine 0x40, .invalidate 0] ∧
        isValid (s.mem (s.content 0)) = false ∧ (s.findLine (.assoc .LRU) smallGeometry 0x60).1 = none ∧
        (s.fillLine (.assoc .LRU) smallGeometry 0x60).2.1 = 0x20 :=
  ⟨_, rfl, by decide, by decide, by decide⟩

end CacheCore

end Esesc.Suc
