import Mathlib.Data.Finset.Card
import Mathlib.Data.Finset.Range
import Esesc.Suc.CacheCore

/-!
# The cache array keeps its lines in their sets and its tags unique

The invariant `CacheOk` ties `content`, `mem` and the organisation together. Both
searches are described once for every organisation (`findLine_spec`,
`findLine2Replace_spec`); what `fillLine` does to the resident tags follows from the
second one.

* `run_ok`: every sequence of operations keeps the invariant.
* `cacheCore_correct`: the invariant, `findLine` and `fillLine`, in terms of tags.
-/

namespace Esesc.Suc

open LineState

/-! ## Geometry -/

theorem log2i_pow : ∀ k < 32, log2i (2 ^ k) = k := by decide

namespace Geometry

variable (g : Geometry)

theorem assoc_pos : 0 < g.assoc := by
  obtain ⟨k, hk⟩ := g.assoc_pow
  rw [hk]; exact Nat.two_pow_pos k

/-- A line is not larger than the array, or there would be no lines at all. -/
theorem sizes_pow : ∃ s < 31, ∃ l ≤ s, g.size = 2 ^ s ∧ g.lineSize = 2 ^ l := by
  obtain ⟨s, hs, hsize⟩ := g.size_pow
  obtain ⟨l, hline⟩ := g.lineSize_pow
  refine ⟨s, hs, l, ?_, hsize, hline⟩
  by_contra hlt
  have h0 : g.size / g.lineSize = 0 := by
    rw [hsize, hline]
    exact Nat.div_eq_of_lt (Nat.pow_lt_pow_right (by omega) (by omega))
  have := g.assoc_pos
  have := g.assoc_le
  omega

theorem lines_pow : ∃ n < 31, g.numLines = 2 ^ n ∧ ∃ a ≤ n, g.assoc = 2 ^ a := by
  obtain ⟨s, hs, l, hls, hsize, hline⟩ := g.sizes_pow
  obtain ⟨a, hassoc⟩ := g.assoc_pow
  have hle := g.assoc_le
  have hn : g.size / g.lineSize = 2 ^ (s - l) := by
    rw [hsize, hline]; exact Nat.pow_div hls (by omega)
  refine ⟨s - l, by omega, hn, a, ?_, hassoc⟩
  rw [hn, hassoc] at hle
  exact (Nat.pow_le_pow_iff_right (by omega)).1 hle

theorem numLines_eq : g.numLines = g.sets * g.assoc := by
  obtain ⟨n, -, hn, a, han, ha⟩ := g.lines_pow
  unfold sets
  change g.numLines = g.numLines / g.assoc * g.assoc
  rw [hn, ha]
  exact (Nat.div_mul_cancel (Nat.pow_dvd_pow 2 han)).symm

theorem sets_pow : ∃ k < 31, g.sets = 2 ^ k := by
  obtain ⟨n, hn31, hn, a, han, ha⟩ := g.lines_pow
  refine ⟨n - a, by omega, ?_⟩
  unfold sets
  change g.numLines / g.assoc = _
  rw [hn, ha]
  exact Nat.pow_div han (by omega)

theorem sets_pos : 0 < g.sets := by
  obtain ⟨k, -, hk⟩ := g.sets_pow
  rw [hk]; exact Nat.two_pow_pos k

theorem calcSet4Tag_eq (tag : AddrType) : g.calcSet4Tag tag = tag.toNat % g.sets := by
  obtain ⟨k, hk31, hk⟩ := g.sets_pow
  have hlt : 2 ^ k - 1 < 2 ^ 64 := by
    have := Nat.pow_lt_pow_right (show 1 < 2 by omega) (show k < 64 by omega)
    omega
  unfold calcSet4Tag maskSets
  rw [BitVec.toNat_and, BitVec.toNat_ofNat, hk, Nat.mod_eq_of_lt hlt, Nat.and_two_pow_sub_one_eq_mod]

theorem calcIndex4Tag_eq (tag : AddrType) : g.calcIndex4Tag tag = tag.toNat % g.sets * g.assoc := by
  obtain ⟨n, hn31, -, a, han, ha⟩ := g.lines_pow
  unfold calcIndex4Tag calcIndex4Set log2Assoc
  rw [calcSet4Tag_eq, ha, log2i_pow a (by omega), Nat.shiftLeft_eq]

/-- A set lies inside the array. -/
theorem set_le (tag : AddrType) : g.calcIndex4Tag tag + g.assoc ≤ g.numLines := by
  rw [calcIndex4Tag_eq, numLines_eq, ← Nat.succ_mul]
  exact Nat.mul_le_mul_right _ (Nat.mod_lt _ g.sets_pos)

theorem index_lt (tag : AddrType) : g.calcIndex4Tag tag < g.numLines := by
  have := g.set_le tag
  have := g.assoc_pos
  omega

/-- The positions of a tag's set are those from its index on. -/
theorem mem_set_iff (tag : AddrType) (p : ℕ) :
    p / g.assoc = g.calcSet4Tag tag ↔ g.calcIndex4Tag tag ≤ p ∧ p < g.calcIndex4Tag tag + g.assoc := by
  rw [calcSet4Tag_eq, calcIndex4Tag_eq, Nat.div_eq_iff g.assoc_pos]
  have := g.assoc_pos
  omega

/-- A tag that comes from an address is found again in the address `calcAddr4Tag` makes. -/
theorem calcTag_calcAddr4Tag (addr : AddrType) :
    g.calcTag (g.calcAddr4Tag (g.calcTag addr)) = g.calcTag addr := by
  unfold calcTag calcAddr4Tag
  generalize g.log2AddrLs = k
  apply BitVec.eq_of_toNat_eq
  have hle : addr.toNat / 2 ^ k * 2 ^ k ≤ addr.toNat := Nat.div_mul_le_self _ _
  have hlt : addr.toNat / 2 ^ k * 2 ^ k < 2 ^ 64 := lt_of_le_of_lt hle addr.isLt
  simp only [BitVec.toNat_ushiftRight, BitVec.toNat_shiftLeft, Nat.shiftRight_eq_div_pow, Nat.shiftLeft_eq]
  rw [Nat.mod_eq_of_lt hlt, Nat.mul_div_cancel _ (Nat.two_pow_pos k)]

theorem calcTag_zero : g.calcTag 0 = 0 := by
  unfold calcTag; simp

end Geometry

namespace CacheCore

variable {S : Type} [LineState S] {g : Geometry} {org : Organisation} {s : CacheCore S}

/-! ## The invariant -/

/-- The positions where a line with tag `t` may sit. -/
def Home (org : Organisation) (g : Geometry) (t : AddrType) (p : ℕ) : Prop :=
  match org with
  | .assoc _ => p / g.assoc = g.calcSet4Tag t
  | .dm => p = g.calcIndex4Tag t
  | .dmSkew => p = g.calcIndex4Tag t ∨ p = g.calcIndex4Tag (skew2 t) ∨ p = g.calcIndex4Tag (skew3 t)

/-- The invariant of a cache array. -/
structure CacheOk (org : Organisation) (g : Geometry) (s : CacheCore S) : Prop where
  /-- A line stays in its set. -/
  stay : ∀ p < g.numLines, s.content p / g.assoc = p / g.assoc
  /-- No line sits at two positions. -/
  inj : ∀ p < g.numLines, ∀ q < g.numLines, s.content p = s.content q → p = q
  /-- No two positions hold the same tag. -/
  uniq : ∀ p < g.numLines, ∀ q < g.numLines, s.tagAt p ≠ 0 → s.tagAt p = s.tagAt q → p = q
  /-- A line with a tag sits where its tag says. -/
  home : ∀ p < g.numLines, s.tagAt p ≠ 0 → Home org g (s.tagAt p) p
  /-- Tags come from addresses. -/
  canon : ∀ p < g.numLines, ∃ addr, s.tagAt p = g.calcTag addr
  irand : s.irand < g.assoc

/-- The counter of the skewed caches does not matter. -/
theorem CacheOk.withRand (h : CacheOk org g s) (r : ℤ) : CacheOk org g { s with randNumber := r } :=
  ⟨h.stay, h.inj, h.uniq, h.home, h.canon, h.irand⟩

/-- Positions and lines are numbered alike, so the lines of `content` are those of `mem`. -/
theorem CacheOk.content_lt (h : CacheOk org g s) {p : ℕ} (hp : p < g.numLines) :
    s.content p < g.numLines := by
  have hst := h.stay p hp
  rw [g.numLines_eq] at hp ⊢
  rw [← Nat.div_lt_iff_lt_mul g.assoc_pos] at hp ⊢
  omega

/-- **`content` is a permutation of the lines.** -/
theorem CacheOk.bijOn (h : CacheOk org g s) :
    Set.BijOn s.content (Set.Iio g.numLines) (Set.Iio g.numLines) := by
  have hmaps : Set.MapsTo s.content (Set.Iio g.numLines) (Set.Iio g.numLines) :=
    fun p hp => h.content_lt hp
  have hinj : Set.InjOn s.content (Set.Iio g.numLines) :=
    fun p hp q hq heq => h.inj p hp q hq heq
  refine ⟨hmaps, hinj, ?_⟩
  have := Finset.surjOn_of_injOn_of_card_le (s := Finset.range g.numLines) (t := Finset.range g.numLines)
    s.content (by simpa using hmaps) (by simpa using hinj) le_rfl
  simpa using this

/-! ## Moving a line to the front of its set -/

/-- Where the line that ends up at `j` was before the line at `l` moved to `theSet`. -/
def before (theSet l j : ℕ) : ℕ :=
  if j = theSet then l else if theSet < j ∧ j ≤ l then j - 1 else j

theorem shiftUp_apply (theSet : ℕ) : ∀ (n : ℕ) (c : ℕ → ℕ) (j : ℕ),
    shiftUp theSet n c j = if theSet < j ∧ j ≤ theSet + n then c (j - 1) else c j := by
  intro n
  induction n with
  | zero => intro c j; rw [shiftUp, if_neg (by omega)]
  | succ n ih =>
    intro c j
    rw [shiftUp, ih]
    by_cases hj : j = theSet + n + 1
    · subst hj
      rw [if_neg (by omega), if_pos (by omega), Function.update_self]
      rfl
    · by_cases hin : theSet < j ∧ j ≤ theSet + n
      · rw [if_pos hin, if_pos (by omega), Function.update_of_ne (by omega)]
      · rw [if_neg hin, if_neg (by omega), Function.update_of_ne hj]

omit [LineState S] in
theorem moveToFront_content {theSet l : ℕ} (hl : theSet ≤ l) (j : ℕ) :
    (s.moveToFront theSet l).content j = s.content (before theSet l j) := by
  simp only [moveToFront, before]
  by_cases hj : j = theSet
  · rw [hj, Function.update_self, if_pos rfl]
  · rw [Function.update_of_ne hj, shiftUp_apply, if_neg hj, Nat.add_sub_cancel' hl]
    split <;> rfl

/-- The move only touches the positions of one set. -/
theorem before_div {t : AddrType} {l : ℕ} (hl : l / g.assoc = g.calcSet4Tag t) (j : ℕ) :
    before (g.calcIndex4Tag t) l j / g.assoc = j / g.assoc := by
  unfold before
  split
  · rename_i hj
    rw [hj, hl, eq_comm, g.mem_set_iff]
    have := g.assoc_pos
    omega
  split
  · rename_i hj
    rw [g.mem_set_iff] at hl
    have h1 : j / g.assoc = g.calcSet4Tag t := by rw [g.mem_set_iff]; omega
    have h2 : (j - 1) / g.assoc = g.calcSet4Tag t := by rw [g.mem_set_iff]; omega
    rw [h1, h2]
  · rfl

theorem before_inj {theSet l : ℕ} (hl : theSet ≤ l) {i j : ℕ}
    (h : before theSet l i = before theSet l j) : i = j := by
  unfold before at h
  split_ifs at h <;> omega

theorem CacheOk.moveToFront {policy : ReplacementPolicy} (h : CacheOk (.assoc policy) g s) {t : AddrType}
    {l : ℕ} (hl : l / g.assoc = g.calcSet4Tag t) :
    CacheOk (.assoc policy) g (s.moveToFront (g.calcIndex4Tag t) l) := by
  -- position `p` gets the line that was at `before p`; this stays inside the set
  have htl : g.calcIndex4Tag t ≤ l := ((g.mem_set_iff t l).1 hl).1
  have hdiv := before_div (g := g) hl
  have hlt : ∀ p < g.numLines, before (g.calcIndex4Tag t) l p < g.numLines := by
    intro p hp
    rw [g.numLines_eq] at hp ⊢
    rw [← Nat.div_lt_iff_lt_mul g.assoc_pos] at hp ⊢
    rw [hdiv]; exact hp
  have htag : ∀ p, (s.moveToFront (g.calcIndex4Tag t) l).tagAt p = s.tagAt (before (g.calcIndex4Tag t) l p) := by
    intro p; unfold tagAt; rw [moveToFront_content htl]; rfl
  refine ⟨?_, ?_, ?_, ?_, ?_, h.irand⟩
  · intro p hp
    rw [moveToFront_content htl, h.stay _ (hlt p hp), hdiv]
  · intro p hp q hq heq
    rw [moveToFront_content htl, moveToFront_content htl] at heq
    exact before_inj htl (h.inj _ (hlt p hp) _ (hlt q hq) heq)
  · intro p hp q hq h0 heq
    rw [htag] at h0
    rw [htag, htag] at heq
    exact before_inj htl (h.uniq _ (hlt p hp) _ (hlt q hq) h0 heq)
  · intro p hp h0
    rw [htag] at h0 ⊢
    have := h.home _ (hlt p hp) h0
    simp only [Home] at this ⊢
    rw [← this, hdiv]
  · intro p hp
    rw [htag]; exact h.canon _ (hlt p hp)

/-! ## The searches -/

theorem searchHit_some {tag : AddrType} : ∀ {n l k : ℕ}, s.searchHit tag n l = some k →
    l ≤ k ∧ k < l + n ∧ s.tagAt k = tag := by
  intro n
  induction n with
  | zero => intro l k h; simp [searchHit] at h
  | succ n ih =>
    intro l k h
    simp only [searchHit] at h
    split at h
    · rename_i ht
      simp only [Option.some.injEq] at h
      subst h
      exact ⟨le_rfl, by omega, ht⟩
    · obtain ⟨h1, h2, h3⟩ := ih h
      exact ⟨by omega, by omega, h3⟩

theorem searchHit_none {tag : AddrType} : ∀ {n l : ℕ}, s.searchHit tag n l = none →
    ∀ k, l ≤ k → k < l + n → s.tagAt k ≠ tag := by
  intro n
  induction n with
  | zero => intro l _ k h1 h2; omega
  | succ n ih =>
    intro l h k h1 h2
    simp only [searchHit] at h
    split at h
    · simp at h
    · rename_i ht
      rcases Nat.eq_or_lt_of_le h1 with rfl | hlt
      · exact ht
      · exact ih h k (by omega) (by omega)

theorem searchFree_some {tag : AddrType} {theSet : ℕ} : ∀ {n k : ℕ} {free : Option ℕ},
    (s.searchFree tag theSet n free).1 = some k → theSet ≤ k ∧ k < theSet + n ∧ s.tagAt k = tag := by
  intro n
  induction n with
  | zero => intro k free h; simp [searchFree] at h
  | succ n ih =>
    intro k free h
    simp only [searchFree] at h
    split at h
    · rename_i ht
      simp only [Option.some.injEq] at h
      subst h
      exact ⟨by omega, by omega, ht⟩
    · split_ifs at h <;> (obtain ⟨h1, h2, h3⟩ := ih h; exact ⟨h1, by omega, h3⟩)

theorem searchFree_none {tag : AddrType} {theSet : ℕ} : ∀ {n : ℕ} {free : Option ℕ},
    (s.searchFree tag theSet n free).1 = none → ∀ k, theSet ≤ k → k < theSet + n → s.tagAt k ≠ tag := by
  intro n
  induction n with
  | zero => intro free _ k h1 h2; omega
  | succ n ih =>
    intro free h k h1 h2
    simp only [searchFree] at h
    split at h
    · simp at h
    · rename_i ht
      rcases Nat.eq_or_lt_of_le (Nat.lt_succ_iff.1 h2) with rfl | hlt
      · exact ht
      · split_ifs at h <;> exact ih h k h1 hlt

/-- What a search may answer: a line with the tag, or nothing if no line has it. -/
def Answers (g : Geometry) (s : CacheCore S) (tag : AddrType) : Option ℕ → Prop
  | some x => ∃ p < g.numLines, s.content p = x ∧ s.tagAt p = tag
  | none => ∀ p < g.numLines, s.tagAt p ≠ tag

/-- If no position of a tag's home holds the tag, no position does. -/
theorem CacheOk.absent (h : CacheOk org g s) {tag : AddrType} (h0 : tag ≠ 0)
    (hno : ∀ p, Home org g tag p → s.tagAt p ≠ tag) : ∀ p < g.numLines, s.tagAt p ≠ tag := by
  intro p hp heq
  have := h.home p hp (by rw [heq]; exact h0)
  rw [heq] at this
  exact hno p this heq

/-- A line that is found has the tag of the address. -/
theorem findLine_tag {addr : AddrType} {l : ℕ} (h : (s.findLine org g addr).1 = some l) :
    getTag (s.mem l) = g.calcTag addr := by
  cases org with
  | assoc policy =>
    simp only [findLine, findLineAssoc] at h
    split at h
    · rename_i ht
      obtain rfl := Option.some.inj h
      exact ht
    · split at h
      · cases h
      · rename_i p hs
        obtain rfl := Option.some.inj h
        exact (searchHit_some hs).2.2
  | dm =>
    simp only [findLine, findLineDM] at h
    split at h
    · rename_i ht
      obtain rfl := Option.some.inj h
      exact ht
    · cases h
  | dmSkew =>
    simp only [findLine, findLineSkew] at h
    split at h
    · rename_i ht
      obtain rfl := Option.some.inj h
      exact ht
    · split at h
      · rename_i ht
        obtain rfl := Option.some.inj h
        exact ht
      · split at h
        · rename_i ht
          obtain rfl := Option.some.inj h
          exact ht
        · cases h

theorem findLineAssoc_spec {policy : ReplacementPolicy} (h : CacheOk (.assoc policy) g s) {addr : AddrType}
    (h0 : g.calcTag addr ≠ 0) :
    CacheOk (.assoc policy) g (s.findLineAssoc g addr).2 ∧ (s.findLineAssoc g addr).2.mem = s.mem ∧
      Answers g s (g.calcTag addr) (s.findLineAssoc g addr).1 := by
  have hlt := g.set_le (g.calcTag addr)
  have hpos := g.assoc_pos
  unfold findLineAssoc
  simp only
  split
  · rename_i ht
    exact ⟨h, rfl, _, g.index_lt _, rfl, ht⟩
  rename_i hfirst
  split
  · rename_i hs
    refine ⟨h, rfl, h.absent h0 ?_⟩
    intro p hp
    have hr := (g.mem_set_iff _ _).1 hp
    rcases Nat.eq_or_lt_of_le hr.1 with heq | hgt
    · rw [← heq]; exact hfirst
    · exact searchHit_none hs p (by omega) (by omega)
  · rename_i l hs
    obtain ⟨h1, h2, h3⟩ := searchHit_some hs
    exact ⟨h.moveToFront ((g.mem_set_iff _ _).2 ⟨by omega, by omega⟩), rfl, l, by omega, rfl, h3⟩

/-- **`findLine`, in every organisation.** It only rearranges lines inside their sets, and
answers with the line that holds the tag, if there is one. -/
theorem findLine_spec (h : CacheOk org g s) {addr : AddrType} (h0 : g.calcTag addr ≠ 0) :
    CacheOk org g (s.findLine org g addr).2 ∧ (s.findLine org g addr).2.mem = s.mem ∧
      Answers g s (g.calcTag addr) (s.findLine org g addr).1 := by
  cases org with
  | assoc policy => exact findLineAssoc_spec h h0
  | dm =>
    simp only [findLine, findLineDM]
    split
    · rename_i ht
      exact ⟨h, rfl, _, g.index_lt _, rfl, ht⟩
    · rename_i ht
      refine ⟨h, rfl, h.absent h0 ?_⟩
      intro p hp
      rw [show p = _ from hp]; exact ht
  | dmSkew =>
    simp only [findLine, findLineSkew]
    split_ifs with h1 h2 h3
    · exact ⟨h, rfl, _, g.index_lt _, rfl, h1⟩
    · exact ⟨h, rfl, _, g.index_lt _, rfl, h2⟩
    · exact ⟨h, rfl, _, g.index_lt _, rfl, h3⟩
    · refine ⟨h, rfl, h.absent h0 ?_⟩
      rintro p (rfl | rfl | rfl)
      · exact h1
      · exact h2
      · exact h3

/-- What `findLine2Replace` promises about the line `x` it picks and the array `s'` it
leaves: `x` is at a position where the tag may sit, and if the tag is resident at all then
`x` holds it. -/
structure Picks (org : Organisation) (g : Geometry) (s : CacheCore S) (tag : AddrType) (x : ℕ)
    (s' : CacheCore S) : Prop where
  ok : CacheOk org g s'
  mem : s'.mem = s.mem
  at_home : ∃ p < g.numLines, s'.content p = x ∧ Home org g tag p
  resident : ∀ p < g.numLines, s.tagAt p = tag → s.content p = x

/-- Replacing by a line of the tag's own set, after moving it to the front. -/
theorem CacheOk.picks_front {policy : ReplacementPolicy} (h : CacheOk (.assoc policy) g s) {tag : AddrType}
    {l : ℕ} (hl : l / g.assoc = g.calcSet4Tag tag)
    (hres : ∀ p < g.numLines, s.tagAt p = tag → s.content p = s.content l) :
    Picks (.assoc policy) g s tag (s.content l) (s.moveToFront (g.calcIndex4Tag tag) l) := by
  have hr := (g.mem_set_iff _ _).1 hl
  refine ⟨h.moveToFront hl, rfl, ⟨g.calcIndex4Tag tag, g.index_lt tag, ?_, ?_⟩, hres⟩
  · rw [moveToFront_content hr.1, before, if_pos rfl]
  · have := g.assoc_pos
    exact (g.mem_set_iff _ _).2 ⟨le_rfl, by omega⟩

theorem CacheOk.picks_victim {policy : ReplacementPolicy} (h : CacheOk (.assoc policy) g s) {tag : AddrType}
    {l : ℕ} (hl : l / g.assoc = g.calcSet4Tag tag) (hmiss : ∀ p < g.numLines, s.tagAt p ≠ tag) :
    Picks (.assoc policy) g s tag (s.takeLine (g.calcIndex4Tag tag) l).1
      (s.takeLine (g.calcIndex4Tag tag) l).2 := by
  unfold takeLine
  split
  · rename_i heq
    subst heq
    exact ⟨h, rfl, ⟨_, g.index_lt _, rfl, hl⟩, fun p hp hpt => absurd hpt (hmiss p hp)⟩
  · exact h.picks_front hl (fun p hp hpt => absurd hpt (hmiss p hp))

/-- The policy frees a position of the set, and changes nothing but `irand`. -/
theorem CacheOk.policyFree {policy : ReplacementPolicy} (h : CacheOk (.assoc policy) g s) (tag : AddrType) :
    CacheOk (.assoc policy) g (s.policyFree g policy (g.calcIndex4Tag tag)).2 ∧
      (s.policyFree g policy (g.calcIndex4Tag tag)).2.mem = s.mem ∧
      (s.policyFree g policy (g.calcIndex4Tag tag)).2.content = s.content ∧
      (s.policyFree g policy (g.calcIndex4Tag tag)).1 / g.assoc = g.calcSet4Tag tag := by
  have hpos := g.assoc_pos
  have hir := h.irand
  cases policy with
  | RANDOM =>
    refine ⟨⟨h.stay, h.inj, h.uniq, h.home, h.canon, ?_⟩, rfl, rfl, ?_⟩
    · have h1 : (s.irand + 1) &&& g.maskAssoc ≤ g.maskAssoc := Nat.and_le_right
      have h2 := Nat.mod_le ((s.irand + 1) &&& g.maskAssoc) (2 ^ 16)
      simp only [CacheCore.policyFree]
      unfold Geometry.maskAssoc at h1 h2 ⊢
      omega
    · rw [g.mem_set_iff]; simp only [CacheCore.policyFree]; omega
  | LRU =>
    refine ⟨h, rfl, rfl, ?_⟩
    rw [g.mem_set_iff]; simp only [CacheCore.policyFree]; omega

theorem findLine2ReplaceAssoc_spec {policy : ReplacementPolicy} (h : CacheOk (.assoc policy) g s)
    {addr : AddrType} (h0 : g.calcTag addr ≠ 0) :
    Picks (.assoc policy) g s (g.calcTag addr) (s.findLine2ReplaceAssoc g policy addr).1
      (s.findLine2ReplaceAssoc g policy addr).2 := by
  have hlt := g.set_le (g.calcTag addr)
  have hpos := g.assoc_pos
  have hidx : g.calcIndex4Tag (g.calcTag addr) / g.assoc = g.calcSet4Tag (g.calcTag addr) :=
    (g.mem_set_iff _ _).2 ⟨le_rfl, by omega⟩
  unfold findLine2ReplaceAssoc
  simp only
  split
  · rename_i ht
    refine ⟨h, rfl, ⟨_, g.index_lt _, rfl, hidx⟩, ?_⟩
    intro p hp hpt
    rw [h.uniq p hp _ (g.index_lt _) (by rw [hpt]; exact h0) (by rw [hpt, ht])]
  split
  · rename_i l hs
    obtain ⟨h1, h2, h3⟩ := searchFree_some hs
    refine h.picks_front ((g.mem_set_iff _ _).2 ⟨h1, h2⟩) ?_
    intro p hp hpt
    rw [h.uniq p hp l (by omega) (by rw [hpt]; exact h0) (by rw [hpt, h3])]
  · rename_i hs
    -- a miss: no line holds the tag, so any line of the set will do
    have hmiss : ∀ p < g.numLines, s.tagAt p = g.calcTag addr → False := by
      intro p hp hpt
      refine h.absent h0 ?_ p hp hpt
      intro q hq
      have hr := (g.mem_set_iff _ _).1 hq
      exact searchFree_none hs q hr.1 hr.2
    obtain ⟨hok, hm, hc, hl⟩ := h.policyFree (g.calcTag addr)
    have hv := hok.picks_victim hl (fun p hp hpt => hmiss p hp (by rwa [tagAt, hm, hc] at hpt))
    exact ⟨hv.ok, hv.mem.trans hm, hv.at_home, fun p hp hpt => (hmiss p hp hpt).elim⟩

/-- **`findLine2Replace`, in every organisation.** -/
theorem findLine2Replace_spec (h : CacheOk org g s) {addr : AddrType} (h0 : g.calcTag addr ≠ 0) :
    Picks org g s (g.calcTag addr) (s.findLine2Replace org g addr).1 (s.findLine2Replace org g addr).2 := by
  have hold : ∀ {p q : ℕ}, p < g.numLines → q < g.numLines → s.tagAt p = g.calcTag addr →
      s.tagAt q = g.calcTag addr → s.content q = s.content p := by
    intro p q hp hq hpt hqt
    rw [h.uniq q hq p hp (by rw [hqt]; exact h0) (by rw [hqt, hpt])]
  cases org with
  | assoc policy => exact findLine2ReplaceAssoc_spec h h0
  | dm =>
    refine ⟨h, rfl, ⟨_, g.index_lt _, rfl, rfl⟩, ?_⟩
    intro p hp hpt
    have := h.home p hp (by rw [hpt]; exact h0)
    rw [hpt] at this
    rw [show p = _ from this]
    rfl
  | dmSkew =>
    simp only [findLine2Replace, findLine2ReplaceSkew]
    by_cases h1 : getTag (s.mem (s.content (g.calcIndex4Tag (g.calcTag addr)))) = g.calcTag addr
    · rw [if_pos h1]
      exact ⟨h, rfl, ⟨_, g.index_lt _, rfl, Or.inl rfl⟩, fun p hp => hold (g.index_lt _) hp h1⟩
    rw [if_neg h1]
    by_cases h2 : getTag (s.mem (s.content (g.calcIndex4Tag (skew2 (g.calcTag addr))))) = g.calcTag addr
    · rw [if_pos h2]
      exact ⟨h, rfl, ⟨_, g.index_lt _, rfl, Or.inr (Or.inl rfl)⟩, fun p hp => hold (g.index_lt _) hp h2⟩
    rw [if_neg h2]
    by_cases h3 : getTag (s.mem (s.content (g.calcIndex4Tag (skew3 (g.calcTag addr))))) = g.calcTag addr
    · rw [if_pos h3]
      exact ⟨h.withRand _, rfl, ⟨_, g.index_lt _, rfl, Or.inr (Or.inr rfl)⟩, fun p hp => hold (g.index_lt _) hp h3⟩
    rw [if_neg h3]
    -- a miss: one of the three slots, whichever the counter says
    have hmiss : ∀ p < g.numLines, s.tagAt p ≠ g.calcTag addr := by
      refine h.absent h0 ?_
      rintro p (rfl | rfl | rfl)
      · exact h1
      · exact h2
      · exact h3
    refine ⟨h.withRand _, rfl, ?_, fun p hp hpt => absurd hpt (hmiss p hp)⟩
    generalize (if 2 < Int.bmod (s.randNumber + 1) (2 ^ 32) then 0
      else Int.bmod (s.randNumber + 1) (2 ^ 32)) = r
    simp only
    split_ifs
    · exact ⟨_, g.index_lt _, rfl, Or.inl rfl⟩
    · exact ⟨_, g.index_lt _, rfl, Or.inr (Or.inl rfl)⟩
    · exact ⟨_, g.index_lt _, rfl, Or.inr (Or.inr rfl)⟩

/-! ## Filling and invalidating -/

/-- Every line sits somewhere. -/
theorem CacheOk.line_pos (h : CacheOk org g s) {x : ℕ} (hx : x < g.numLines) :
    ∃ p < g.numLines, s.content p = x := by
  obtain ⟨p, hp, hpx⟩ := h.bijOn.surjOn hx
  exact ⟨p, hp, hpx⟩

/-- **No two lines hold the same tag.** -/
theorem CacheOk.line_uniq (h : CacheOk org g s) {x y : ℕ} (hx : x < g.numLines) (hy : y < g.numLines)
    (h0 : getTag (s.mem x) ≠ 0) (heq : getTag (s.mem x) = getTag (s.mem y)) : x = y := by
  obtain ⟨p, hp, rfl⟩ := h.line_pos hx
  obtain ⟨q, hq, rfl⟩ := h.line_pos hy
  rw [h.uniq p hp q hq h0 heq]

theorem Picks.line_lt {tag : AddrType} {x : ℕ} {s' : CacheCore S} (hp : Picks org g s tag x s') :
    x < g.numLines := by
  obtain ⟨p, hlt, rfl, -⟩ := hp.at_home
  exact hp.ok.content_lt hlt

/-- A resident tag is held by the line picked for it. -/
theorem Picks.resident_line (h : CacheOk org g s) {tag : AddrType} {x : ℕ} {s' : CacheCore S}
    (hp : Picks org g s tag x s') {y : ℕ} (hy : y < g.numLines) (ht : getTag (s.mem y) = tag) : y = x := by
  obtain ⟨p, hlt, rfl⟩ := h.line_pos hy
  exact hp.resident p hlt ht

/-- Changing one line to tag `t`, where `t` is 0 or belongs at that line's position and no
other line holds it, keeps the invariant. -/
theorem CacheOk.updLine (h : CacheOk org g s) {p x : ℕ} (hp : p < g.numLines) (hpx : s.content p = x)
    {f : S → S} {t : AddrType} (hf : getTag (f (s.mem x)) = t) (hcan : ∃ addr, t = g.calcTag addr)
    (hhome : t ≠ 0 → Home org g t p)
    (huniq : t ≠ 0 → ∀ y < g.numLines, getTag (s.mem y) = t → y = x) :
    CacheOk org g (s.updLine x f) := by
  have htag : ∀ q < g.numLines, (s.updLine x f).tagAt q = if q = p then t else s.tagAt q := by
    intro q hq
    unfold tagAt CacheCore.updLine
    simp only
    by_cases hqp : q = p
    · rw [if_pos hqp, hqp, hpx, Function.update_self, hf]
    · rw [if_neg hqp, Function.update_of_ne]
      intro heq
      exact hqp (h.inj q hq p hp (heq.trans hpx.symm))
  -- the new tag is at no other position, neither before nor after
  have hother : ∀ q < g.numLines, t ≠ 0 → s.tagAt q = t → q = p := by
    intro q hq h0 hqt
    exact h.inj q hq p hp ((huniq h0 _ (h.content_lt hq) hqt).trans hpx.symm)
  refine ⟨h.stay, h.inj, ?_, ?_, ?_, h.irand⟩
  · intro q hq r hr h0 heq
    rw [htag q hq] at h0
    rw [htag q hq, htag r hr] at heq
    by_cases h1 : q = p <;> by_cases h2 : r = p
    · rw [h1, h2]
    · rw [if_pos h1] at h0
      rw [if_pos h1, if_neg h2] at heq
      exact absurd (hother r hr h0 heq.symm) h2
    · rw [if_neg h1] at h0
      rw [if_neg h1, if_pos h2] at heq
      exact absurd (hother q hq (by rwa [← heq]) heq) h1
    · rw [if_neg h1] at h0
      rw [if_neg h1, if_neg h2] at heq
      exact h.uniq q hq r hr h0 heq
  · intro q hq h0
    rw [htag q hq] at h0 ⊢
    by_cases h1 : q = p
    · rw [if_pos h1] at h0 ⊢
      rw [h1]; exact hhome h0
    · rw [if_neg h1] at h0 ⊢
      exact h.home q hq h0
  · intro q hq
    rw [htag q hq]
    split
    · exact hcan
    · exact h.canon q hq

theorem CacheOk.fillLine (h : CacheOk org g s) {addr : AddrType} (h0 : g.calcTag addr ≠ 0) :
    CacheOk org g (s.fillLine org g addr).2.2 := by
  have hp := findLine2Replace_spec h h0
  obtain ⟨p, hlt, hpx, hhome⟩ := hp.at_home
  refine hp.ok.updLine (f := (setTag · (g.calcTag addr))) hlt hpx (getTag_setTag _ _) ⟨addr, rfl⟩
    (fun _ => hhome) ?_
  intro _ y hy hyt
  rw [hp.mem] at hyt
  exact hp.resident_line h hy hyt

/-! The invariant does not need the address to have a tag: 0 marks an empty line, but nothing
in a set moves differently for it. -/

/-- A search keeps the invariant. -/
theorem CacheOk.findLine (h : CacheOk org g s) (addr : AddrType) : CacheOk org g (s.findLine org g addr).2 := by
  cases org with
  | assoc policy =>
    have hlt := g.set_le (g.calcTag addr)
    simp only [CacheCore.findLine, findLineAssoc]
    split
    · exact h
    · split
      · exact h
      · rename_i l hs
        obtain ⟨h1, h2, -⟩ := searchHit_some hs
        exact h.moveToFront ((g.mem_set_iff _ _).2 ⟨by omega, by omega⟩)
  | dm =>
    simp only [CacheCore.findLine, findLineDM]
    split <;> exact h
  | dmSkew =>
    simp only [CacheCore.findLine, findLineSkew]
    split_ifs <;> exact h

/-- The line to replace is one of the array, and finding it keeps the invariant. -/
theorem CacheOk.findLine2Replace (h : CacheOk org g s) (addr : AddrType) :
    CacheOk org g (s.findLine2Replace org g addr).2 ∧ (s.findLine2Replace org g addr).1 < g.numLines := by
  by_cases h0 : g.calcTag addr = 0
  swap
  · have hp := findLine2Replace_spec h h0
    exact ⟨hp.ok, hp.line_lt⟩
  cases org with
  | assoc policy =>
    have hlt := g.set_le (g.calcTag addr)
    have htake : ∀ {s : CacheCore S} {l : ℕ}, CacheOk (.assoc policy) g s → l / g.assoc = g.calcSet4Tag (g.calcTag addr) →
        CacheOk (.assoc policy) g (s.moveToFront (g.calcIndex4Tag (g.calcTag addr)) l) ∧ s.content l < g.numLines := by
      intro s l hs hl
      have hr := (g.mem_set_iff _ _).1 hl
      exact ⟨hs.moveToFront hl, hs.content_lt (by omega)⟩
    simp only [CacheCore.findLine2Replace, findLine2ReplaceAssoc]
    split
    · exact ⟨h, h.content_lt (g.index_lt _)⟩
    split
    · rename_i l hs
      obtain ⟨h1, h2, -⟩ := searchFree_some hs
      exact htake h ((g.mem_set_iff _ _).2 ⟨h1, h2⟩)
    · obtain ⟨hok, -, -, hl⟩ := h.policyFree (g.calcTag addr)
      have hr := (g.mem_set_iff _ _).1 hl
      unfold takeLine
      split
      · exact ⟨hok, hok.content_lt (by omega)⟩
      · exact htake hok hl
  | dm => exact ⟨h, h.content_lt (g.index_lt _)⟩
  | dmSkew =>
    refine ⟨?_, ?_⟩
    · simp only [CacheCore.findLine2Replace, findLine2ReplaceSkew]
      split_ifs <;> first | exact h | exact h.withRand _
    · rcases s.findLine2ReplaceSkew_cases g addr with hl | ⟨-, hl | ⟨-, hl⟩⟩ <;>
        (simp only [CacheCore.findLine2Replace, hl]; exact h.content_lt (g.index_lt _))

/-- A change that keeps the tag of a line, or clears it, keeps the invariant. -/
theorem CacheOk.setLine (h : CacheOk org g s) (l : ℕ) {f : S → S}
    (hf : getTag (f (s.mem l)) = getTag (s.mem l) ∨ getTag (f (s.mem l)) = 0) : CacheOk org g (s.updLine l f) := by
  by_cases hl : l < g.numLines
  · obtain ⟨p, hp, hpl⟩ := h.line_pos hl
    rcases hf with hf | hf
    · have htag : getTag (s.mem l) = s.tagAt p := by rw [tagAt, hpl]
      refine h.updLine hp hpl hf ?_ ?_ ?_
      · rw [htag]
        exact h.canon p hp
      · rw [htag]
        exact h.home p hp
      · exact fun h0 y hy hyt => h.line_uniq hy hl (by rw [hyt]; exact h0) hyt
    · exact h.updLine hp hpl hf ⟨0, g.calcTag_zero.symm⟩ (fun h0 => absurd rfl h0) (fun h0 => absurd rfl h0)
  · -- not a line of the array
    have hne : ∀ p < g.numLines, s.content p ≠ l := fun p hp e => hl (e ▸ h.content_lt hp)
    have htag : ∀ p < g.numLines, (s.updLine l f).tagAt p = s.tagAt p := by
      intro p hp
      unfold tagAt CacheCore.updLine
      simp only
      rw [Function.update_of_ne (hne p hp)]
    refine ⟨h.stay, h.inj, ?_, ?_, ?_, h.irand⟩
    · intro p hp q hq
      rw [htag p hp, htag q hq]
      exact h.uniq p hp q hq
    · intro p hp
      rw [htag p hp]
      exact h.home p hp
    · intro p hp
      rw [htag p hp]
      exact h.canon p hp

theorem CacheOk.invalidate (h : CacheOk org g s) (x : ℕ) : CacheOk org g (s.updLine x LineState.invalidate) :=
  h.setLine x (.inr (getTag_invalidate _))

/-- A fill keeps the invariant. -/
theorem CacheOk.fill (h : CacheOk org g s) (addr : AddrType) : CacheOk org g (s.fillLine org g addr).2.2 := by
  by_cases h0 : g.calcTag addr = 0
  · refine (h.findLine2Replace addr).1.setLine _ (f := (setTag · (g.calcTag addr))) (.inr ?_)
    rw [getTag_setTag, h0]
  · exact h.fillLine h0

/-- The tags some line holds. -/
def resident (g : Geometry) (s : CacheCore S) : Set AddrType :=
  {t | t ≠ 0 ∧ ∃ x < g.numLines, getTag (s.mem x) = t}

/-- The tags after `fillLine`: the new one, and those of the lines that were not picked. -/
theorem resident_fillLine (h : CacheOk org g s) {addr : AddrType} (h0 : g.calcTag addr ≠ 0) (t : AddrType) :
    t ∈ resident g (s.fillLine org g addr).2.2 ↔
      t = g.calcTag addr ∨ (t ≠ 0 ∧ ∃ y < g.numLines, y ≠ (s.fillLine org g addr).1 ∧ getTag (s.mem y) = t) := by
  have hp := findLine2Replace_spec h h0
  -- only the tag of the picked line changes
  have hmem : ∀ y, (s.fillLine org g addr).2.2.mem y =
      if y = (s.fillLine org g addr).1 then setTag (s.mem y) (g.calcTag addr) else s.mem y := by
    intro y
    simp only [CacheCore.fillLine, CacheCore.updLine, hp.mem, Function.update_apply]
    split
    · rename_i hy; rw [hy]
    · rfl
  constructor
  · rintro ⟨ht0, y, hy, hyt⟩
    rw [hmem] at hyt
    split at hyt
    · rw [getTag_setTag] at hyt
      exact Or.inl hyt.symm
    · rename_i hne
      exact Or.inr ⟨ht0, y, hy, hne, hyt⟩
  · rintro (rfl | ⟨ht0, y, hy, hne, hyt⟩)
    · refine ⟨h0, (s.fillLine org g addr).1, hp.line_lt, ?_⟩
      rw [hmem, if_pos rfl, getTag_setTag]
    · refine ⟨ht0, y, hy, ?_⟩
      rw [hmem, if_neg hne, hyt]

end CacheCore

/-! ## Arrays of `StateGeneric` lines -/

namespace CacheCore

variable {g : Geometry} {org : Organisation} {s : CacheCore StateGeneric}

theorem isValid_iff (l : StateGeneric) : isValid l = true ↔ getTag l ≠ 0 := by
  simp [isValid, getTag]

/-- What `fillLine` reports: the address of the tag it overwrites, or 0. -/
theorem rplcAddr_eq (org : Organisation) (g : Geometry) (s : CacheCore StateGeneric) (addr : AddrType) :
    (s.fillLine org g addr).2.1 =
      if getTag ((s.findLine2Replace org g addr).2.mem (s.fillLine org g addr).1) ≠ 0 ∧
          getTag ((s.findLine2Replace org g addr).2.mem (s.fillLine org g addr).1) ≠ g.calcTag addr then
        g.calcAddr4Tag (getTag ((s.findLine2Replace org g addr).2.mem (s.fillLine org g addr).1))
      else 0 := by
  simp only [fillLine, isValid_iff]

/-- The address of a resident tag is not 0, and has that tag. -/
theorem CacheOk.addr_of_line (h : CacheOk org g s) {x : ℕ} (hx : x < g.numLines) (h0 : getTag (s.mem x) ≠ 0) :
    g.calcTag (g.calcAddr4Tag (getTag (s.mem x))) = getTag (s.mem x) ∧
      g.calcAddr4Tag (getTag (s.mem x)) ≠ 0 := by
  have hcan : g.calcTag (g.calcAddr4Tag (getTag (s.mem x))) = getTag (s.mem x) := by
    obtain ⟨p, hlt, hpx⟩ := h.line_pos hx
    obtain ⟨a, ha⟩ := h.canon p hlt
    have htag : getTag (s.mem x) = g.calcTag a := by rw [← ha, ← hpx]; rfl
    rw [htag, g.calcTag_calcAddr4Tag]
  refine ⟨hcan, fun hz => ?_⟩
  rw [hz, g.calcTag_zero] at hcan
  exact h0 hcan.symm

/-- A line with another tag is evicted. -/
theorem fillLine_evicts (h : CacheOk org g s) {addr : AddrType} (h0 : g.calcTag addr ≠ 0)
    (hcur : getTag (s.mem (s.fillLine org g addr).1) ≠ 0)
    (hne : getTag (s.mem (s.fillLine org g addr).1) ≠ g.calcTag addr) :
    getTag (s.mem (s.fillLine org g addr).1) ∈ resident g s ∧
      resident g (s.fillLine org g addr).2.2 =
        (resident g s ∪ {g.calcTag addr}) \ {getTag (s.mem (s.fillLine org g addr).1)} := by
  have hp := findLine2Replace_spec h h0
  have hres := resident_fillLine h h0
  set x := (s.fillLine org g addr).1 with hx
  have hxlt : x < g.numLines := hp.line_lt
  refine ⟨⟨hcur, x, hxlt, rfl⟩, ?_⟩
  ext t
  rw [hres]
  simp only [Set.mem_sdiff, Set.mem_union, Set.mem_singleton_iff]
  constructor
  · rintro (rfl | ⟨ht0, y, hy, hyx, hyt⟩)
    · exact ⟨Or.inr rfl, fun heq => hne heq.symm⟩
    · -- no other line holds the tag of `x`
      refine ⟨Or.inl ⟨ht0, y, hy, hyt⟩, fun heq => ?_⟩
      exact hyx (h.line_uniq hy hxlt (by rw [hyt]; exact ht0) (hyt.trans heq))
  · rintro ⟨⟨ht0, y, hy, hyt⟩ | rfl, hnot⟩
    · refine Or.inr ⟨ht0, y, hy, fun hyx => ?_, hyt⟩
      rw [hyx] at hyt
      exact hnot hyt.symm
    · exact Or.inl rfl

/-- A line that was invalid, or already held the tag, is filled without loss. -/
theorem fillLine_keeps (h : CacheOk org g s) {addr : AddrType} (h0 : g.calcTag addr ≠ 0)
    (hcur : getTag (s.mem (s.fillLine org g addr).1) ≠ 0 →
      getTag (s.mem (s.fillLine org g addr).1) = g.calcTag addr) :
    resident g (s.fillLine org g addr).2.2 = resident g s ∪ {g.calcTag addr} := by
  have hres := resident_fillLine h h0
  set x := (s.fillLine org g addr).1 with hx
  ext t
  rw [hres]
  simp only [Set.mem_union, Set.mem_singleton_iff]
  constructor
  · rintro (rfl | ⟨ht0, y, hy, -, hyt⟩)
    · exact Or.inr rfl
    · exact Or.inl ⟨ht0, y, hy, hyt⟩
  · rintro (⟨ht0, y, hy, hyt⟩ | rfl)
    · by_cases hyx : y = x
      · rw [hyx] at hyt
        rw [hyt] at hcur
        exact Or.inl (hcur ht0)
      · exact Or.inr ⟨ht0, y, hy, hyx, hyt⟩
    · exact Or.inl rfl

/-- **`fillLine` replaces exactly the tag it reports.** -/
theorem fillLine_resident (h : CacheOk org g s) {addr : AddrType} (h0 : g.calcTag addr ≠ 0) :
    resident g (s.fillLine org g addr).2.2 =
        (resident g s ∪ {g.calcTag addr}) \
          {t | (s.fillLine org g addr).2.1 ≠ 0 ∧ t = g.calcTag (s.fillLine org g addr).2.1} ∧
      ((s.fillLine org g addr).2.1 = 0 ↔ resident g s ⊆ resident g (s.fillLine org g addr).2.2) ∧
      ((s.fillLine org g addr).2.1 ≠ 0 →
        g.calcTag (s.fillLine org g addr).2.1 ∈ resident g s ∧
          g.calcAddr4Tag (g.calcTag (s.fillLine org g addr).2.1) = (s.fillLine org g addr).2.1) := by
  have hp := findLine2Replace_spec h h0
  have hrpl := rplcAddr_eq org g s addr
  rw [hp.mem] at hrpl
  have hlt : (s.fillLine org g addr).1 < g.numLines := hp.line_lt
  set cur := getTag (s.mem (s.fillLine org g addr).1) with hcur
  by_cases hev : cur ≠ 0 ∧ cur ≠ g.calcTag addr
  · obtain ⟨hin, hres⟩ := fillLine_evicts h h0 hev.1 hev.2
    obtain ⟨hcan, hne⟩ := h.addr_of_line hlt hev.1
    rw [← hcur] at hcan hne hin hres
    rw [if_pos hev] at hrpl
    have hout : cur ∉ resident g (s.fillLine org g addr).2.2 := by
      rw [hres]
      exact fun hmem => hmem.2 rfl
    have hset : {t | g.calcAddr4Tag cur ≠ 0 ∧ t = cur} = {cur} := by
      ext t
      exact ⟨fun ht => ht.2, fun ht => ⟨hne, ht⟩⟩
    rw [hrpl, hcan, hset]
    exact ⟨hres, ⟨fun hz => absurd hz hne, fun hsub => absurd (hsub hin) hout⟩, fun _ => ⟨hin, rfl⟩⟩
  · have hres := fillLine_keeps h h0 fun hc => by_contra fun hn => hev ⟨hc, hn⟩
    rw [if_neg hev] at hrpl
    rw [hrpl, hres]
    refine ⟨?_, ⟨fun _ => Set.subset_union_left, fun _ => rfl⟩, fun hz => absurd rfl hz⟩
    simp

/-! ## Runs -/

/-- An operation on the array: the two methods, a user invalidating a line it was given, or
another skewed cache moving the shared counter. -/
inductive Op where
  | findLine (addr : AddrType)
  | fillLine (addr : AddrType)
  | invalidate (line : ℕ)
  | otherSkew (randNumber : ℤ)
  deriving Repr, DecidableEq

/-- Addresses have a tag, and lines are lines of the array. -/
def Op.Ok (g : Geometry) : Op → Prop
  | .findLine addr => g.calcTag addr ≠ 0
  | .fillLine addr => g.calcTag addr ≠ 0
  | .invalidate line => line < g.numLines
  | .otherSkew _ => True

instance (g : Geometry) : ∀ op : Op, Decidable (op.Ok g)
  | .findLine addr => inferInstanceAs (Decidable (g.calcTag addr ≠ 0))
  | .fillLine addr => inferInstanceAs (Decidable (g.calcTag addr ≠ 0))
  | .invalidate line => inferInstanceAs (Decidable (line < g.numLines))
  | .otherSkew _ => inferInstanceAs (Decidable True)

section

variable {S : Type} [LineState S]

def step (org : Organisation) (g : Geometry) (s : CacheCore S) : Op → CacheCore S
  | .findLine addr => (s.findLine org g addr).2
  | .fillLine addr => (s.fillLine org g addr).2.2
  | .invalidate line => s.updLine line LineState.invalidate
  | .otherSkew r => { s with randNumber := r }

/-- The array after a sequence of operations. -/
def run (org : Organisation) (g : Geometry) (s : CacheCore S) (ops : List Op) : CacheCore S :=
  ops.foldl (step org g) s

theorem new_ok (org : Organisation) (g : Geometry) (r : ℤ) : CacheOk org g (new r : CacheCore S) := by
  have htag : ∀ p, (new r : CacheCore S).tagAt p = 0 := fun p => LineState.getTag_new
  refine ⟨fun p _ => rfl, fun p _ q _ h => h, ?_, ?_, ?_, g.assoc_pos⟩
  · intro p _ q _ h0; exact absurd (htag p) h0
  · intro p _ h0; exact absurd (htag p) h0
  · intro p _; exact ⟨0, by rw [htag, g.calcTag_zero]⟩

theorem step_ok {org : Organisation} {g : Geometry} {s : CacheCore S} (h : CacheOk org g s) {op : Op}
    (hop : op.Ok g) : CacheOk org g (step org g s op) := by
  cases op with
  | findLine addr => exact (findLine_spec h hop).1
  | fillLine addr => exact h.fillLine hop
  | invalidate line => exact h.invalidate line
  | otherSkew r => exact h.withRand r

/-- **Every run keeps the invariant.** -/
theorem run_ok {org : Organisation} {g : Geometry} {s : CacheCore S} (h : CacheOk org g s) {ops : List Op}
    (hops : ∀ op ∈ ops, op.Ok g) : CacheOk org g (run org g s ops) := by
  induction ops generalizing s with
  | nil => exact h
  | cons op ops ih =>
    exact ih (step_ok h (hops op List.mem_cons_self)) (fun o ho => hops o (List.mem_cons_of_mem _ ho))

end

/-- **The cache array is correct along every run.** After any sequence of `findLine`,
`fillLine` and line invalidations, in any organisation and geometry: `content` is a
permutation that keeps every line in its set; no two lines hold the same tag; every valid
line sits where its tag says; `findLine` finds the line with the tag, if there is one; and
`fillLine` adds the new tag to the resident ones and removes exactly the one whose address
it reports, reporting 0 exactly when it removes none. -/
theorem cacheCore_correct (org : Organisation) (g : Geometry) (r : ℤ) (ops : List Op)
    (hops : ∀ op ∈ ops, op.Ok g) (s : CacheCore StateGeneric) (hs : s = run org g (new r) ops) :
    Set.BijOn s.content (Set.Iio g.numLines) (Set.Iio g.numLines) ∧
      (∀ p < g.numLines, s.content p / g.assoc = p / g.assoc) ∧
      (∀ x < g.numLines, ∀ y < g.numLines,
        getTag (s.mem x) ≠ 0 → getTag (s.mem x) = getTag (s.mem y) → x = y) ∧
      (∀ p < g.numLines, isValid (s.mem (s.content p)) = true → Home org g (s.tagAt p) p) ∧
      ∀ addr, g.calcTag addr ≠ 0 →
        (((s.findLine org g addr).1.isSome ↔ ∃ x < g.numLines, getTag (s.mem x) = g.calcTag addr) ∧
          ∀ x, (s.findLine org g addr).1 = some x → x < g.numLines ∧ getTag (s.mem x) = g.calcTag addr) ∧
        resident g (s.fillLine org g addr).2.2 =
          (resident g s ∪ {g.calcTag addr}) \
            {t | (s.fillLine org g addr).2.1 ≠ 0 ∧ t = g.calcTag (s.fillLine org g addr).2.1} ∧
        ((s.fillLine org g addr).2.1 = 0 ↔ resident g s ⊆ resident g (s.fillLine org g addr).2.2) ∧
        ((s.fillLine org g addr).2.1 ≠ 0 →
          g.calcTag (s.fillLine org g addr).2.1 ∈ resident g s ∧
            g.calcAddr4Tag (g.calcTag (s.fillLine org g addr).2.1) = (s.fillLine org g addr).2.1) := by
  have h : CacheOk org g s := by rw [hs]; exact run_ok (new_ok org g r) hops
  refine ⟨h.bijOn, h.stay, fun x hx y hy h0 heq => h.line_uniq hx hy h0 heq, ?_, ?_⟩
  · intro p hp hv
    exact h.home p hp ((isValid_iff _).1 hv)
  · intro addr h0
    refine ⟨?_, fillLine_resident h h0⟩
    obtain ⟨-, -, hans⟩ := findLine_spec h h0
    cases hf : (s.findLine org g addr).1 with
    | none =>
      rw [hf] at hans
      refine ⟨⟨fun hc => by simp at hc, ?_⟩, fun x hx => by simp at hx⟩
      rintro ⟨x, hx, hxt⟩
      obtain ⟨p, hp, rfl⟩ := h.line_pos hx
      exact absurd hxt (hans p hp)
    | some x =>
      rw [hf] at hans
      obtain ⟨p, hp, rfl, hpt⟩ := hans
      have hlt := h.content_lt hp
      refine ⟨⟨fun _ => ⟨_, hlt, hpt⟩, fun _ => rfl⟩, ?_⟩
      intro y hy
      simp only [Option.some.injEq] at hy
      rw [← hy]
      exact ⟨hlt, hpt⟩

/-- Four lines of 16 bytes, two per set. -/
def smallGeometry : Geometry where
  size := 64
  lineSize := 16
  addrUnit := 1
  assoc := 2
  size_pow := ⟨6, by decide, rfl⟩
  lineSize_pow := ⟨4, rfl⟩
  addrUnit_pow := Geometry.byte_pow
  assoc_pow := ⟨1, rfl⟩
  addrUnit_le := by decide
  assoc_le := by decide

/-- Filling a set of two lines with a third tag reports the oldest of them. -/
theorem cacheCore_correct_evict :
    (run (.assoc .LRU) smallGeometry (new 0 : CacheCore StateGeneric)
        [.fillLine 0x20, .fillLine 0x40]).fillLine (.assoc .LRU) smallGeometry 0x60 |>.2.1 = 0x20 ∧
      ∃ x < 4, getTag ((run (.assoc .LRU) smallGeometry (new 0 : CacheCore StateGeneric)
        [.fillLine 0x20, .fillLine 0x40]).mem x) = 2 := by
  have h := cacheCore_correct (.assoc .LRU) smallGeometry 0 [.fillLine 0x20, .fillLine 0x40]
    (by decide) _ rfl
  refine ⟨by decide, ?_⟩
  exact ((h.2.2.2.2 0x20 (by decide)).1.1).1 (by decide)

end CacheCore

end Esesc.Suc
