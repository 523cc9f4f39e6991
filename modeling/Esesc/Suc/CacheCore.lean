import Mathlib.Logic.Function.Basic
import Mathlib.Data.Nat.Log
import Mathlib.Data.BitVec

/-!
# The cache array (`misc/libsuc/CacheCore.{h,cpp}`)

`mem` holds the lines and `content` says which line sits at each position; positions
`[assoc * k, assoc * (k + 1))` are set `k`. A line is named by its index in `mem`.
The organisations differ in how they search (`findLinePrivate`) and how they choose a
victim (`findLine2Replace`); `fillLine` is common to all.

`CacheSHIP` has a module of its own; the SHIP arguments of the methods, which the others
ignore, are left out. Assertions are those of a build without `DEBUG`: none.
-/

namespace Esesc.Suc

/-- `AddrType`. -/
abbrev AddrType := BitVec 64

/-! ## `Snippets.cpp` -/

/-- `roundUpPower2`. -/
def roundUpPower2 (x : BitVec 32) : BitVec 32 :=
  let x := x - 1
  let x := x ||| (x >>> 1)
  let x := x ||| (x >>> 2)
  let x := x ||| (x >>> 4)
  let x := x ||| (x >>> 8)
  let x := x ||| (x >>> 16)
  x + 1

/-- The loop of `log2i`: `m` runs through the powers of two up to `n`. A 32-bit `m`
gets there in at most 31 rounds. -/
def log2Loop (n : ℕ) : ℕ → ℕ → ℕ → ℕ
  | 0, _, i => i
  | fuel + 1, m, i => if m < n then log2Loop n fuel (m * 2) (i + 1) else i

/-- `log2i`. -/
def log2i (n : ℕ) : ℕ :=
  if n = 1 then 0 else log2Loop (roundUpPower2 (BitVec.ofNat 32 n)).toNat 32 1 0

/-! ## Lines -/

/-- What the array asks of the `State` class a line is made of. -/
class LineState (S : Type) where
  /-- A line after construction, `initialize` and `invalidate`. -/
  new : S
  getTag : S → AddrType
  setTag : S → AddrType → S
  isValid : S → Bool
  invalidate : S → S
  getTag_new : getTag new = 0
  getTag_setTag : ∀ s t, getTag (setTag s t) = t
  getTag_invalidate : ∀ s, getTag (invalidate s) = 0

export LineState (getTag setTag isValid invalidate)

attribute [simp] LineState.getTag_new LineState.getTag_setTag LineState.getTag_invalidate

/-- `StateGeneric::PrefetchState`. -/
inductive PrefetchState where
  | noPref
  | pcore
  | hardware
  deriving Repr, DecidableEq

/-- `StateGeneric`. -/
structure StateGeneric where
  tag : AddrType
  prefetchState : PrefetchState
  extraBit : ℤ
  deriving Repr, DecidableEq

/-- A `StateGeneric` line is valid when it has a tag. -/
instance : LineState StateGeneric where
  new := ⟨0, .noPref, -1⟩ -- `prefetchState` is left unset by the source
  getTag s := s.tag
  setTag s a := { s with tag := a, extraBit := 1 }
  isValid s := s.tag != 0
  invalidate s := { s with tag := 0, extraBit := -1 }
  getTag_new := rfl
  getTag_setTag _ _ := rfl
  getTag_invalidate _ := rfl

/-! ## Geometry -/

/-- The sizes of a cache, as `CacheGeneric::create` accepts them: powers of two that
fit an `int32_t`, at least one set, and an addressable unit no larger than a line. -/
structure Geometry where
  size : ℕ
  lineSize : ℕ
  addrUnit : ℕ
  assoc : ℕ
  size_pow : ∃ k < 31, size = 2 ^ k
  lineSize_pow : ∃ k, lineSize = 2 ^ k
  addrUnit_pow : ∃ k, addrUnit = 2 ^ k
  assoc_pow : ∃ k, assoc = 2 ^ k
  addrUnit_le : addrUnit ≤ lineSize
  assoc_le : assoc ≤ size / lineSize

namespace Geometry

/-- Units of one byte. -/
theorem byte_pow : ∃ k, 1 = 2 ^ k := ⟨0, rfl⟩

variable (g : Geometry)

def log2Assoc : ℕ := log2i g.assoc
def log2AddrLs : ℕ := log2i (g.lineSize / g.addrUnit)
def maskAssoc : ℕ := g.assoc - 1
def sets : ℕ := g.size / g.lineSize / g.assoc
def maskSets : ℕ := g.sets - 1
def numLines : ℕ := g.size / g.lineSize

def calcTag (addr : AddrType) : AddrType := addr >>> g.log2AddrLs
def calcSet4Tag (tag : AddrType) : ℕ := (tag &&& BitVec.ofNat 64 g.maskSets).toNat
def calcIndex4Set (set : ℕ) : ℕ := set <<< g.log2Assoc
def calcIndex4Tag (tag : AddrType) : ℕ := g.calcIndex4Set (g.calcSet4Tag tag)
def calcAddr4Tag (tag : AddrType) : AddrType := tag <<< g.log2AddrLs

end Geometry

/-- `ReplacementPolicy` (of `CacheAssoc`). -/
inductive ReplacementPolicy where
  | LRU
  | RANDOM
  deriving Repr, DecidableEq

/-- The organisations. -/
inductive Organisation where
  | assoc (policy : ReplacementPolicy)
  | dm
  | dmSkew
  deriving Repr, DecidableEq

/-- A cache array. `irand` belongs to `CacheAssoc`; `randNumber` is the static counter of
`CacheDMSkew::findLine2Replace`. -/
structure CacheCore (S : Type) where
  mem : ℕ → S
  content : ℕ → ℕ
  irand : ℕ
  randNumber : ℤ

namespace CacheCore

variable {S : Type} [LineState S]

/-- The constructors: every line invalid, line `i` at position `i`. -/
def new (randNumber : ℤ) : CacheCore S := ⟨fun _ => LineState.new, id, 0, randNumber⟩

/-- The tag of the line at position `l`. -/
def tagAt (s : CacheCore S) (l : ℕ) : AddrType := getTag (s.mem (s.content l))

/-! ### `CacheAssoc` -/

/-- The loop that makes room at `theSet`: `n` entries move one position up. -/
def shiftUp (theSet : ℕ) : ℕ → (ℕ → ℕ) → ℕ → ℕ
  | 0, c => c
  | n + 1, c => shiftUp theSet n (Function.update c (theSet + n + 1) (c (theSet + n)))

/-- Move the line at position `l` to the front of its set. -/
def moveToFront (s : CacheCore S) (theSet l : ℕ) : CacheCore S :=
  { s with content := Function.update (shiftUp theSet (l - theSet) s.content) theSet (s.content l) }

/-- The search of `findLinePrivate` over the positions `l, …, l + n - 1`. -/
def searchHit (s : CacheCore S) (tag : AddrType) : ℕ → ℕ → Option ℕ
  | 0, _ => none
  | n + 1, l => if s.tagAt l = tag then some l else searchHit s tag n (l + 1)

/-- `CacheAssoc::findLinePrivate`. -/
def findLineAssoc (g : Geometry) (s : CacheCore S) (addr : AddrType) : Option ℕ × CacheCore S :=
  let tag := g.calcTag addr
  let theSet := g.calcIndex4Tag tag
  if s.tagAt theSet = tag then (some (s.content theSet), s)
  else match s.searchHit tag (g.assoc - 1) (theSet + 1) with
    | none => (none, s)
    | some lineHit => (some (s.content lineHit), s.moveToFront theSet lineHit)

/-- The search of `findLine2Replace`, from position `theSet + n - 1` down to `theSet`:
the hit if any, and the position the loop would free. -/
def searchFree (s : CacheCore S) (tag : AddrType) (theSet : ℕ) : ℕ → Option ℕ → Option ℕ × Option ℕ
  | 0, lineFree => (none, lineFree)
  | n + 1, lineFree =>
    let l := theSet + n
    if s.tagAt l = tag then (some l, lineFree)
    else if !isValid (s.mem (s.content l)) then searchFree s tag theSet n (some l)
    else if lineFree = none then searchFree s tag theSet n (some l)
    else searchFree s tag theSet n lineFree

/-- The position the policy frees on a miss, whatever `lineFree` the search found. -/
def policyFree (g : Geometry) (policy : ReplacementPolicy) (s : CacheCore S) (theSet : ℕ) : ℕ × CacheCore S :=
  match policy with
  | .RANDOM => (theSet + s.irand, { s with irand := ((s.irand + 1) &&& g.maskAssoc) % 2 ^ 16 })
  | .LRU => (theSet + g.assoc - 1, s)

/-- Return the line at `lineFree`, after moving it to the front unless it is there. -/
def takeLine (s : CacheCore S) (theSet lineFree : ℕ) : ℕ × CacheCore S :=
  if lineFree = theSet then (s.content lineFree, s)
  else (s.content lineFree, s.moveToFront theSet lineFree)

/-- `CacheAssoc::findLine2Replace`. -/
def findLine2ReplaceAssoc (g : Geometry) (policy : ReplacementPolicy) (s : CacheCore S) (addr : AddrType) :
    ℕ × CacheCore S :=
  let tag := g.calcTag addr
  let theSet := g.calcIndex4Tag tag
  if s.tagAt theSet = tag then (s.content theSet, s)
  else match (s.searchFree tag theSet g.assoc none).1 with
    | some lineHit => (s.content lineHit, s.moveToFront theSet lineHit)
    | none =>
      let r := s.policyFree g policy theSet
      r.2.takeLine theSet r.1

/-! ### `CacheDM` -/

/-- `CacheDM::findLinePrivate`. -/
def findLineDM (g : Geometry) (s : CacheCore S) (addr : AddrType) : Option ℕ × CacheCore S :=
  let tag := g.calcTag addr
  let line := s.content (g.calcIndex4Tag tag)
  if getTag (s.mem line) = tag then (some line, s) else (none, s)

/-- `CacheDM::findLine2Replace`. -/
def findLine2ReplaceDM (g : Geometry) (s : CacheCore S) (addr : AddrType) : ℕ × CacheCore S :=
  (s.content (g.calcIndex4Tag (g.calcTag addr)), s)

/-! ### `CacheDMSkew` -/

/-- The second hash of a tag. -/
def skew2 (tag1 : AddrType) : AddrType := tag1 ^^^ (tag1 >>> 1)

/-- The third hash of a tag. -/
def skew3 (tag1 : AddrType) : AddrType := tag1 ^^^ ((tag1 >>> 1) + (tag1 &&& 0xFFFF))

/-- `CacheDMSkew::findLinePrivate`. -/
def findLineSkew (g : Geometry) (s : CacheCore S) (addr : AddrType) : Option ℕ × CacheCore S :=
  let tag1 := g.calcTag addr
  let line1 := s.content (g.calcIndex4Tag tag1)
  let line2 := s.content (g.calcIndex4Tag (skew2 tag1))
  let line3 := s.content (g.calcIndex4Tag (skew3 tag1))
  if getTag (s.mem line1) = tag1 then (some line1, s)
  else if getTag (s.mem line2) = tag1 then (some line2, s)
  else if getTag (s.mem line3) = tag1 then (some line3, s)
  else (none, s)

/-- `CacheDMSkew::findLine2Replace`. The counter moves on before the third slot is tried,
and is brought back to range only on a miss. -/
def findLine2ReplaceSkew (g : Geometry) (s : CacheCore S) (addr : AddrType) : ℕ × CacheCore S :=
  let tag1 := g.calcTag addr
  let line1 := s.content (g.calcIndex4Tag tag1)
  let line2 := s.content (g.calcIndex4Tag (skew2 tag1))
  let line3 := s.content (g.calcIndex4Tag (skew3 tag1))
  if getTag (s.mem line1) = tag1 then (line1, s)
  else if getTag (s.mem line2) = tag1 then (line2, s)
  else
    let r := Int.bmod (s.randNumber + 1) (2 ^ 32)
    if getTag (s.mem line3) = tag1 then (line3, { s with randNumber := r })
    else
      let r := if 2 < r then 0 else r
      (if r = 0 then line1 else if r = 1 then line2 else line3, { s with randNumber := r })

/-! ### `CacheGeneric` -/

/-- `findLine` (and `readLine`, `writeLine`, which only differ in statistics). -/
def findLine (org : Organisation) (g : Geometry) (s : CacheCore S) (addr : AddrType) :
    Option ℕ × CacheCore S :=
  match org with
  | .assoc _ => s.findLineAssoc g addr
  | .dm => s.findLineDM g addr
  | .dmSkew => s.findLineSkew g addr

def findLine2Replace (org : Organisation) (g : Geometry) (s : CacheCore S) (addr : AddrType) :
    ℕ × CacheCore S :=
  match org with
  | .assoc policy => s.findLine2ReplaceAssoc g policy addr
  | .dm => s.findLine2ReplaceDM g addr
  | .dmSkew => s.findLine2ReplaceSkew g addr

/-- Apply `f` to line `l`. -/
def updLine (s : CacheCore S) (l : ℕ) (f : S → S) : CacheCore S :=
  { s with mem := Function.update s.mem l (f (s.mem l)) }

/-- `fillLine(addr, rplcAddr)`: the line, the address it displaces (0 for none), and the
array with the new tag. -/
def fillLine (org : Organisation) (g : Geometry) (s : CacheCore S) (addr : AddrType) :
    ℕ × AddrType × CacheCore S :=
  let r := s.findLine2Replace org g addr
  let l := r.1
  let newTag := g.calcTag addr
  let curTag := getTag (r.2.mem l)
  let rplcAddr := if isValid (r.2.mem l) ∧ curTag ≠ newTag then g.calcAddr4Tag curTag else 0
  (l, rplcAddr, r.2.updLine l (setTag · newTag))

/-! ### What a search leaves alone -/

section Frame

variable (org : Organisation) (g : Geometry) (s : CacheCore S) (addr : AddrType)

theorem findLine_mem : (s.findLine org g addr).2.mem = s.mem := by
  cases org with
  | assoc policy =>
    simp only [findLine, findLineAssoc]
    split
    · rfl
    · split <;> rfl
  | dm =>
    simp only [findLine, findLineDM]
    split <;> rfl
  | dmSkew =>
    simp only [findLine, findLineSkew]
    split
    · rfl
    · split
      · rfl
      · split <;> rfl

omit [LineState S] in
theorem policyFree_mem (policy : ReplacementPolicy) (theSet : ℕ) :
    (s.policyFree g policy theSet).2.mem = s.mem := by
  cases policy <;> rfl

omit [LineState S] in
theorem takeLine_mem (theSet l : ℕ) : (s.takeLine theSet l).2.mem = s.mem := by
  unfold takeLine
  split <;> rfl

omit [LineState S] in
/-- The line taken ends up at the front of its set. -/
theorem takeLine_front (theSet l : ℕ) : (s.takeLine theSet l).2.content theSet = (s.takeLine theSet l).1 := by
  unfold takeLine
  split
  · rename_i h
    rw [h]
  · exact Function.update_self _ _ _

theorem findLine2Replace_mem : (s.findLine2Replace org g addr).2.mem = s.mem := by
  cases org with
  | assoc policy =>
    simp only [findLine2Replace, findLine2ReplaceAssoc]
    split
    · rfl
    · split
      · rfl
      · rw [takeLine_mem, policyFree_mem]
  | dm => rfl
  | dmSkew =>
    simp only [findLine2Replace, findLine2ReplaceSkew]
    split
    · rfl
    · split
      · rfl
      · split <;> rfl

omit [LineState S] in
theorem updLine_self (l : ℕ) (f : S → S) : (s.updLine l f).mem l = f (s.mem l) := Function.update_self _ _ _

/-- What a fill leaves in its line: the old contents under the new tag. -/
theorem fillLine_mem :
    (s.fillLine org g addr).2.2.mem (s.fillLine org g addr).1 =
      setTag (s.mem (s.findLine2Replace org g addr).1) (g.calcTag addr) := by
  rw [← s.findLine2Replace_mem org g addr]
  exact updLine_self (s.findLine2Replace org g addr).2 _ (setTag · (g.calcTag addr))

/-- An associative cache leaves the line it picks at the front of its set. -/
theorem findLine2ReplaceAssoc_front (policy : ReplacementPolicy) :
    (s.findLine2ReplaceAssoc g policy addr).2.content (g.calcIndex4Tag (g.calcTag addr)) =
      (s.findLine2ReplaceAssoc g policy addr).1 := by
  simp only [findLine2ReplaceAssoc]
  split
  · rfl
  · split
    · exact Function.update_self _ _ _
    · exact takeLine_front _ _ _

/-- A skewed cache picks one of the three candidates, and a later one only if the tags of
those before differ from the address's. -/
theorem findLine2ReplaceSkew_cases :
    let tag1 := g.calcTag addr
    let line1 := s.content (g.calcIndex4Tag tag1)
    let line2 := s.content (g.calcIndex4Tag (skew2 tag1))
    let line3 := s.content (g.calcIndex4Tag (skew3 tag1))
    let l := (s.findLine2ReplaceSkew g addr).1
    l = line1 ∨ getTag (s.mem line1) ≠ tag1 ∧ (l = line2 ∨ getTag (s.mem line2) ≠ tag1 ∧ l = line3) := by
  intro tag1 line1 line2 line3 l
  by_cases h1 : getTag (s.mem line1) = tag1
  · exact .inl (by simp only [l, findLine2ReplaceSkew]; rw [if_pos h1])
  by_cases h2 : getTag (s.mem line2) = tag1
  · exact .inr ⟨h1, .inl (by simp only [l, findLine2ReplaceSkew]; rw [if_neg h1, if_pos h2])⟩
  by_cases h3 : getTag (s.mem line3) = tag1
  · exact .inr ⟨h1, .inr ⟨h2, by simp only [l, findLine2ReplaceSkew]; rw [if_neg h1, if_neg h2, if_pos h3]⟩⟩
  obtain ⟨r, hl⟩ : ∃ r : ℤ, l = if r = 0 then line1 else if r = 1 then line2 else line3 :=
    ⟨_, by simp only [l, findLine2ReplaceSkew]; rw [if_neg h1, if_neg h2, if_neg h3]⟩
  rw [hl]
  split
  · exact .inl rfl
  · split
    · exact .inr ⟨h1, .inl rfl⟩
    · exact .inr ⟨h1, .inr ⟨h2, rfl⟩⟩

/-- **Filling twice.** Once a line has been filled, a fill for the same address picks it again,
whatever else is written into it. -/
theorem findLine2Replace_again (f : S → S) (hf : ∀ l, getTag (f l) = getTag l) :
    let r := s.fillLine org g addr
    ((r.2.2.updLine r.1 f).findLine2Replace org g addr).1 = r.1 := by
  intro r
  -- the tags seen by the second search: the filled line's is the address's, the others are old
  have hmem := s.findLine2Replace_mem org g addr
  have htag : ∀ l, getTag ((r.2.2.updLine r.1 f).mem l) =
      if l = r.1 then g.calcTag addr else getTag (s.mem l) := by
    intro l
    show getTag (Function.update (Function.update (s.findLine2Replace org g addr).2.mem _ _) _ _ l) = _
    by_cases hl : l = r.1
    · subst hl
      rw [if_pos rfl, Function.update_self, hf]
      show getTag (Function.update (s.findLine2Replace org g addr).2.mem r.1 _ r.1) = _
      rw [Function.update_self]
      exact LineState.getTag_setTag _ _
    · have hl' : l ≠ (s.findLine2Replace org g addr).1 := hl
      rw [if_neg hl, Function.update_of_ne hl, Function.update_of_ne hl', hmem]
  have hcontent : (r.2.2.updLine r.1 f).content = (s.findLine2Replace org g addr).2.content := rfl
  cases org with
  | assoc policy =>
    have hfront := s.findLine2ReplaceAssoc_front g addr policy
    simp only [findLine2Replace, findLine2ReplaceAssoc]
    rw [if_pos]
    · rw [hcontent]
      exact hfront
    · rw [tagAt, htag, hcontent]
      exact if_pos hfront
  | dm => rfl
  | dmSkew =>
    -- the candidates are the same lines, and those passed over before still have other tags
    have hsame : (r.2.2.updLine r.1 f).content = s.content := by
      rw [hcontent]
      simp only [findLine2Replace, findLine2ReplaceSkew]
      split
      · rfl
      · split
        · rfl
        · split <;> rfl
    simp only [findLine2Replace, findLine2ReplaceSkew, htag, hsame]
    rcases s.findLine2ReplaceSkew_cases g addr with h1 | ⟨h1, h2 | ⟨h2, h3⟩⟩
    · have h1 : s.content (g.calcIndex4Tag (g.calcTag addr)) = r.1 := h1.symm
      rw [if_pos h1, if_pos rfl, h1]
    · have h2 : s.content (g.calcIndex4Tag (skew2 (g.calcTag addr))) = r.1 := h2.symm
      by_cases he : s.content (g.calcIndex4Tag (g.calcTag addr)) = r.1
      · rw [if_pos he, if_pos rfl, he]
      · rw [if_neg he, if_neg h1, if_pos h2, if_pos rfl, h2]
    · have h3 : s.content (g.calcIndex4Tag (skew3 (g.calcTag addr))) = r.1 := h3.symm
      by_cases he : s.content (g.calcIndex4Tag (g.calcTag addr)) = r.1
      · rw [if_pos he, if_pos rfl, he]
      · by_cases he2 : s.content (g.calcIndex4Tag (skew2 (g.calcTag addr))) = r.1
        · rw [if_neg he, if_neg h1, if_pos he2, if_pos rfl, he2]
        · rw [if_neg he, if_neg h1, if_neg he2, if_neg h2, if_pos h3, if_pos rfl, h3]

end Frame

end CacheCore

end Esesc.Suc
