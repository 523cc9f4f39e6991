import Mathlib.Data.Finset.Card
import Mathlib.Data.Finset.Range
import Mathlib.Data.BitVec
import Esesc.Lib.Machine
import Esesc.Lib.Rereference
import Esesc.Suc.CacheSHIP
import Esesc.Suc.CacheVictim

/-!
# Probes of a cache (`findLineDebug` and `findLineNoEffect`)

Both probes of `CacheGeneric` call `findLine`, which is virtual. In a `CacheAssoc` it moves the line that it hits to
the front of its set, and in a `CacheSHIP` it sets the re-reference value of the line to 0. Whether searches and
fills can tell that a probe was made is a question about two states, one with the probe and one without.

* `exists_fresh`: there is always an address that no line holds, in any set.
* `Apart`: two associative caches that differ in a stretch of one set. Fills with fresh addresses move the
  stretch until the policy frees a position in it.
* `EvictsAlike` (of re-reference values): the same for a `CacheSHIP`.
* `noEffect_iff`: a probe has no effect if and only if it leaves the state as it is.
-/

namespace Esesc.Suc

open Esesc.Lib LineState

/-! ## The methods -/

/-- A cache, as `create` makes it; the methods are virtual. -/
inductive CacheGeneric (S : Type) where
  | core (org : Organisation) (s : CacheCore S)
  | ship (s : CacheSHIP)

/-- A search or a fill, for an address that has a tag. -/
inductive Access (g : Geometry) where
  | findLine (addr : AddrType) (updateSHIP : Bool) (SHIP_signature : AddrType) (tagged : g.calcTag addr ≠ 0)
  | fillLine (addr : AddrType) (updateSHIP : Bool) (SHIP_signature : AddrType) (tagged : g.calcTag addr ≠ 0)

/-- What they return: the line that is hit, or the line that is filled and the address that it displaces. -/
inductive Answer where
  | hit (line : Option ℕ)
  | victim (line : ℕ) (rplcAddr : AddrType)
  deriving Repr, DecidableEq

namespace CacheGeneric

variable {S : Type} [LineState S]

/-- `findLine`, which calls `findLinePrivate` of the organisation. -/
def findLine (g : Geometry) (c : CacheGeneric S) (addr : AddrType) (updateSHIP : Bool) (SHIP_signature : AddrType) :
    Option ℕ × CacheGeneric S :=
  match c with
  | .core org s => ((s.findLine org g addr).1, .core org (s.findLine org g addr).2)
  | .ship s =>
    ((s.findLine g addr updateSHIP SHIP_signature).1, .ship (s.findLine g addr updateSHIP SHIP_signature).2)

def fillLine (g : Geometry) (c : CacheGeneric S) (addr : AddrType) (updateSHIP : Bool) (SHIP_signature : AddrType) :
    ℕ × AddrType × CacheGeneric S :=
  match c with
  | .core org s =>
    ((s.fillLine org g addr).1, (s.fillLine org g addr).2.1, .core org (s.fillLine org g addr).2.2)
  | .ship s =>
    ((s.fillLine g addr updateSHIP SHIP_signature).1, (s.fillLine g addr updateSHIP SHIP_signature).2.1,
      .ship (s.fillLine g addr updateSHIP SHIP_signature).2.2)

/-- The arguments for the counters are not passed on. -/
def findLineDebug (g : Geometry) (c : CacheGeneric S) (addr : AddrType) : Option ℕ × CacheGeneric S :=
  c.findLine g addr false 0

def findLineNoEffect (g : Geometry) (c : CacheGeneric S) (addr : AddrType) : Option ℕ × CacheGeneric S :=
  c.findLine g addr false 0

/-- One access, and what it returns. -/
def access (g : Geometry) (c : CacheGeneric S) : Access g → Answer × CacheGeneric S
  | .findLine addr updateSHIP sig _ => (.hit (c.findLine g addr updateSHIP sig).1, (c.findLine g addr updateSHIP sig).2)
  | .fillLine addr updateSHIP sig _ =>
    (.victim (c.fillLine g addr updateSHIP sig).1 (c.fillLine g addr updateSHIP sig).2.1,
      (c.fillLine g addr updateSHIP sig).2.2)

/-- No list of accesses tells the two caches apart. -/
abbrev SameAnswers (g : Geometry) (c d : CacheGeneric S) : Prop := Alike (access g) c d

/-- The states that a cache can get to. A `CacheSHIP` has at least two ways: with one, `create` makes a `CacheDM`. -/
inductive Reachable (g : Geometry) : CacheGeneric S → Prop where
  | core {org : Organisation} (r : ℤ) {ops : List CacheCore.Op} (hops : ∀ op ∈ ops, op.Ok g) :
    Reachable g (.core org (CacheCore.run org g (CacheCore.new r) ops))
  | ship (hassoc : 2 ≤ g.assoc) {k : ℕ} {table : ℕ → ℕ} {ops : List CacheSHIP.Op} {s : CacheSHIP}
    (h : run (CacheSHIP.step g) (CacheSHIP.new k table) ops = some s) : Reachable g (.ship s)

/-- **No effect**: no list of accesses tells whether the probe was made. -/
def NoEffect (g : Geometry) (c : CacheGeneric S) (addr : AddrType) : Prop :=
  SameAnswers g (c.findLineNoEffect g addr).2 c ∧ SameAnswers g (c.findLineDebug g addr).2 c

/-- The probe finds nothing to change: an associative cache has the line in front or not at all, and a `CacheSHIP`
has it at re-reference value 0 or not at all. -/
def Harmless (g : Geometry) : CacheGeneric S → AddrType → Prop
  | .core (.assoc _) s, addr =>
    s.tagAt (g.calcIndex4Tag (g.calcTag addr)) = g.calcTag addr ∨
      ∀ p, p / g.assoc = g.calcSet4Tag (g.calcTag addr) → s.tagAt p ≠ g.calcTag addr
  | .core _ _, _ => True
  | .ship s, addr =>
    ∀ l ∈ CacheSHIP.setOf g addr, (s.mem l).tag = g.calcTag addr →
      (∀ q ∈ CacheSHIP.setOf g addr, q < l → (s.mem q).tag ≠ g.calcTag addr) → (s.mem l).rrpv = 0

end CacheGeneric

/-! ## Fresh addresses -/

namespace Geometry

variable (g : Geometry)

theorem lineSize_pos : 0 < g.lineSize := by
  obtain ⟨l, hl⟩ := g.lineSize_pow
  rw [hl]
  exact Nat.two_pow_pos l

theorem log2AddrLs_le : 2 ^ g.log2AddrLs ≤ g.lineSize := by
  obtain ⟨s, hs, l, hls, -, hline⟩ := g.sizes_pow
  obtain ⟨u, hunit⟩ := g.addrUnit_pow
  have hle := g.addrUnit_le
  rw [hline, hunit] at hle
  have hul : u ≤ l := (Nat.pow_le_pow_iff_right (by omega)).1 hle
  unfold log2AddrLs
  rw [hline, hunit, Nat.pow_div hul (by omega), log2i_pow _ (by omega)]
  exact Nat.pow_le_pow_right (by omega) (by omega)

/-- A small tag is the tag of an address. -/
theorem calcTag_small {n : ℕ} (h : n * g.lineSize < 2 ^ 64) :
    g.calcTag (g.calcAddr4Tag (BitVec.ofNat 64 n)) = BitVec.ofNat 64 n := by
  have hle : n * 2 ^ g.log2AddrLs ≤ n * g.lineSize := Nat.mul_le_mul_left n g.log2AddrLs_le
  have hpos : 0 < 2 ^ g.log2AddrLs := Nat.two_pow_pos _
  have hn : n ≤ n * 2 ^ g.log2AddrLs := Nat.le_mul_of_pos_right n hpos
  unfold calcTag calcAddr4Tag
  apply BitVec.eq_of_toNat_eq
  rw [BitVec.toNat_ushiftRight, BitVec.toNat_shiftLeft, BitVec.toNat_ofNat, Nat.mod_eq_of_lt (by omega : n < 2 ^ 64),
    Nat.shiftLeft_eq, Nat.mod_eq_of_lt (by omega), Nat.shiftRight_eq_div_pow, Nat.mul_div_cancel _ hpos]

/-- The tags `k`, `k + sets`, … of a set fit. -/
theorem tags_fit {k j : ℕ} (hk : k < g.sets) (hj : j ≤ g.numLines) :
    (g.sets * (j + 1) + k) * g.lineSize < 2 ^ 64 := by
  obtain ⟨s, hs, l, hls, hsize, hline⟩ := g.sizes_pow
  have hlines : g.numLines * g.lineSize = g.size := by
    unfold numLines
    rw [hsize, hline, Nat.pow_div hls (by omega), ← Nat.pow_add, Nat.sub_add_cancel hls]
  have hsets : g.sets * g.lineSize ≤ g.size := by
    have hone : g.sets * 1 ≤ g.sets * g.assoc := Nat.mul_le_mul_left _ g.assoc_pos
    rw [← hlines, g.numLines_eq]
    exact Nat.mul_le_mul_right _ (by omega)
  have hsmall : g.size ≤ 2 ^ 30 := by
    rw [hsize]
    exact Nat.pow_le_pow_right (by omega) (by omega)
  have hnum : g.numLines ≤ 2 ^ 30 := by
    have := Nat.le_mul_of_pos_right g.numLines g.lineSize_pos
    omega
  calc (g.sets * (j + 1) + k) * g.lineSize
      ≤ (g.sets * (j + 2)) * g.lineSize := Nat.mul_le_mul_right _ (by rw [Nat.mul_succ g.sets (j + 1)]; omega)
    _ = (g.sets * g.lineSize) * (j + 2) := by rw [Nat.mul_right_comm]
    _ ≤ 2 ^ 30 * (2 ^ 30 + 2) := Nat.mul_le_mul (by omega) (by omega)
    _ < 2 ^ 64 := by decide

/-- **Fresh addresses.** Whatever tags the lines hold, there is one more in each set. -/
theorem exists_fresh (tags : ℕ → AddrType) (tag : AddrType) :
    ∃ addr, g.calcTag addr ≠ 0 ∧ g.calcSet4Tag (g.calcTag addr) = g.calcSet4Tag tag ∧
      ∀ x < g.numLines, tags x ≠ g.calcTag addr := by
  have hsets := g.sets_pos
  have hk : g.calcSet4Tag tag < g.sets := by
    rw [calcSet4Tag_eq]
    exact Nat.mod_lt _ hsets
  -- one tag more than there are lines
  obtain ⟨f, hf⟩ : ∃ f : ℕ → AddrType, ∀ j, f j = BitVec.ofNat 64 (g.sets * (j + 1) + g.calcSet4Tag tag) := ⟨_, fun _ => rfl⟩
  have hnat : ∀ j ≤ g.numLines, (f j).toNat = g.sets * (j + 1) + g.calcSet4Tag tag := by
    intro j hj
    have hfit := g.tags_fit hk hj
    have := Nat.le_mul_of_pos_right (g.sets * (j + 1) + g.calcSet4Tag tag) g.lineSize_pos
    rw [hf, BitVec.toNat_ofNat, Nat.mod_eq_of_lt (by omega)]
  have hinj : Set.InjOn f (Finset.range (g.numLines + 1)) := by
    intro i hi j hj heq
    have hi := Finset.mem_range.1 (Finset.mem_coe.1 hi)
    have hj := Finset.mem_range.1 (Finset.mem_coe.1 hj)
    have hnats := congrArg BitVec.toNat heq
    rw [hnat i (by omega), hnat j (by omega)] at hnats
    have := Nat.eq_of_mul_eq_mul_left hsets (Nat.add_right_cancel hnats)
    omega
  have hcard : ((Finset.range g.numLines).image tags).card < ((Finset.range (g.numLines + 1)).image f).card := by
    rw [Finset.card_image_of_injOn hinj, Finset.card_range]
    have := Finset.card_image_le (f := tags) (s := Finset.range g.numLines)
    rw [Finset.card_range] at this
    omega
  obtain ⟨t, ht, hnot⟩ := Finset.exists_mem_notMem_of_card_lt_card hcard
  obtain ⟨j, hj, rfl⟩ := Finset.mem_image.1 ht
  have hj : j ≤ g.numLines := Nat.lt_succ_iff.1 (Finset.mem_range.1 hj)
  have htag : g.calcTag (g.calcAddr4Tag (f j)) = f j := by
    rw [hf]
    exact g.calcTag_small (g.tags_fit hk hj)
  refine ⟨g.calcAddr4Tag (f j), ?_, ?_, fun x hx heq => hnot ?_⟩
  · rw [htag]
    intro h0
    have hzero := hnat j hj
    rw [h0, Nat.mul_succ] at hzero
    have : (0 : AddrType).toNat = 0 := rfl
    omega
  · rw [htag, g.calcSet4Tag_eq (f j), hnat j hj, Nat.mul_add_mod, Nat.mod_eq_of_lt hk]
  · rw [htag] at heq
    exact Finset.mem_image.2 ⟨x, Finset.mem_range.2 hx, heq⟩

end Geometry

/-! ## Associative caches -/

namespace CacheCore

variable {S : Type} [LineState S] {g : Geometry} {s t : CacheCore S} {policy : ReplacementPolicy}
  {theSet lo hi p : ℕ} {tag : AddrType}

/-- Two arrays with different lines at the positions from `lo` to `hi` of a set, and the same ones at all others. -/
structure Apart (g : Geometry) (theSet lo hi : ℕ) (s t : CacheCore S) : Prop where
  low : theSet ≤ lo
  high : hi < theSet + g.assoc
  mem : s.mem = t.mem
  irand : s.irand = t.irand
  same : ∀ p, p < lo ∨ hi < p → s.content p = t.content p
  differ : ∀ p, lo ≤ p → p ≤ hi → s.content p ≠ t.content p

omit [LineState S] in
theorem takeLine_eq (s : CacheCore S) (theSet l : ℕ) : s.takeLine theSet l = (s.content l, s.moveToFront theSet l) := by
  unfold CacheCore.takeLine
  split
  · rename_i hfront
    rw [hfront, moveToFront_self]
  · rfl

omit [LineState S] in
theorem Apart.updLine (h : Apart g theSet lo hi s t) (l : ℕ) (f : S → S) :
    Apart g theSet lo hi (s.updLine l f) (t.updLine l f) := by
  refine ⟨h.low, h.high, ?_, h.irand, h.same, h.differ⟩
  unfold CacheCore.updLine
  rw [h.mem]

omit [LineState S] in
/-- The policy frees the same position in both. -/
theorem Apart.policyFree (h : Apart g theSet lo hi s t) (policy : ReplacementPolicy) :
    (t.policyFree g policy theSet).1 = (s.policyFree g policy theSet).1 ∧
      Apart g theSet lo hi (s.policyFree g policy theSet).2 (t.policyFree g policy theSet).2 := by
  cases policy with
  | LRU => exact ⟨rfl, h⟩
  | RANDOM =>
    simp only [CacheCore.policyFree]
    rw [h.irand]
    exact ⟨rfl, h.low, h.high, h.mem, rfl, h.same, h.differ⟩

omit [LineState S] in
/-- A line of the set moves to the front of both: the stretch is where its lines go. -/
theorem Apart.moveToFront {lo' hi' : ℕ} (h : Apart g theSet lo hi s t) (hp : theSet ≤ p) (hlow : theSet ≤ lo')
    (hhigh : hi' < theSet + g.assoc)
    (hgo : ∀ q, lo' ≤ q ∧ q ≤ hi' ↔ lo ≤ before theSet p q ∧ before theSet p q ≤ hi) :
    Apart g theSet lo' hi' (s.moveToFront theSet p) (t.moveToFront theSet p) := by
  refine ⟨hlow, hhigh, h.mem, h.irand, fun q hq => ?_, fun q hlo hhi => ?_⟩
  · rw [moveToFront_content hp, moveToFront_content hp]
    have := hgo q
    exact h.same _ (by omega)
  · rw [moveToFront_content hp, moveToFront_content hp]
    obtain ⟨h1, h2⟩ := (hgo q).1 ⟨hlo, hhi⟩
    exact h.differ _ h1 h2

omit [LineState S] in
/-- A line from before the stretch moves to the front: the stretch stays. -/
theorem Apart.move_before (h : Apart g theSet lo hi s t) (hp : theSet ≤ p) (hlt : p < lo) :
    Apart g theSet lo hi (s.moveToFront theSet p) (t.moveToFront theSet p) := by
  refine h.moveToFront hp h.low h.high fun q => ?_
  unfold before
  split_ifs <;> omega

omit [LineState S] in
/-- A line from behind the stretch moves to the front: the stretch moves up. -/
theorem Apart.move_behind (h : Apart g theSet lo hi s t) (hp : hi < p) (hle : lo ≤ hi) (hlt : p < theSet + g.assoc) :
    Apart g theSet (lo + 1) (hi + 1) (s.moveToFront theSet p) (t.moveToFront theSet p) := by
  have hlow := h.low
  refine h.moveToFront (by omega) (by omega) (by omega) fun q => ?_
  unfold before
  split_ifs <;> omega

/-- A search for a tag that is not there. -/
theorem findLine_absent {addr : AddrType} (hs : CacheOk (.assoc policy) g s)
    (hno : ∀ x < g.numLines, getTag (s.mem x) ≠ g.calcTag addr) : (s.findLine (.assoc policy) g addr).1 = none := by
  cases hfind : (s.findLine (.assoc policy) g addr).1 with
  | none => rfl
  | some x =>
    have hlt : x < g.numLines := by
      have hset := g.set_le (g.calcTag addr)
      have hindex := g.index_lt (g.calcTag addr)
      simp only [CacheCore.findLine, findLineAssoc] at hfind
      split at hfind
      · rw [← Option.some.inj hfind]
        exact hs.content_lt hindex
      · split at hfind
        · cases hfind
        · rename_i l hl
          obtain ⟨-, hl2, -⟩ := searchHit_some hl
          rw [← Option.some.inj hfind]
          exact hs.content_lt (by omega)
    exact absurd (findLine_tag hfind) (hno x hlt)

/-- **A fill with a fresh address.** Arrays that are apart and alike free a position outside the stretch; after
the fill they are apart and alike again. -/
theorem Apart.fill (h : Apart g (g.calcIndex4Tag tag) lo hi s t) (hle : lo ≤ hi) (hs : CacheOk (.assoc policy) g s)
    (ht : CacheOk (.assoc policy) g t)
    (halike : CacheGeneric.SameAnswers g (.core (.assoc policy) s) (.core (.assoc policy) t)) :
    ∃ s' t' : CacheCore S, CacheOk (.assoc policy) g s' ∧ CacheOk (.assoc policy) g t' ∧
      CacheGeneric.SameAnswers g (.core (.assoc policy) s') (.core (.assoc policy) t') ∧
      s'.irand = (s.policyFree g policy (g.calcIndex4Tag tag)).2.irand ∧
      ((s.policyFree g policy (g.calcIndex4Tag tag)).1 < lo ∧ Apart g (g.calcIndex4Tag tag) lo hi s' t' ∨
        hi < (s.policyFree g policy (g.calcIndex4Tag tag)).1 ∧
          Apart g (g.calcIndex4Tag tag) (lo + 1) (hi + 1) s' t') := by
  obtain ⟨addr, h0, hset, hfresh⟩ := g.exists_fresh (fun x => getTag (s.mem x)) tag
  have hindex : g.calcIndex4Tag (g.calcTag addr) = g.calcIndex4Tag tag := by
    unfold Geometry.calcIndex4Tag
    rw [hset]
  have hmiss := findLine_absent hs hfresh
  have hmiss' : (t.findLine (.assoc policy) g addr).1 = none := findLine_absent ht (h.mem ▸ hfresh)
  obtain ⟨p, hp⟩ : ∃ p, p = (s.policyFree g policy (g.calcIndex4Tag tag)).1 := ⟨_, rfl⟩
  obtain ⟨hpt, hfree⟩ := h.policyFree policy
  -- the same line is filled in both
  have hline : (s.fillLine (.assoc policy) g addr).1 = s.content p := by
    rw [fillLine_miss hmiss, hindex, hp]
  have hline' : (t.fillLine (.assoc policy) g addr).1 = t.content p := by
    rw [fillLine_miss hmiss', hindex, hpt, hp]
  have hanswer := halike.answer (.fillLine addr false 0 h0)
  have hcontent : s.content p = t.content p := by
    rw [← hline, ← hline']
    exact (Answer.victim.inj hanswer).1
  have hstate : (s.fillLine (.assoc policy) g addr).2.2 =
      ((s.policyFree g policy (g.calcIndex4Tag tag)).2.moveToFront (g.calcIndex4Tag tag) p).updLine (s.content p)
        (setTag · (g.calcTag addr)) := by
    show (s.findLine2ReplaceAssoc g policy addr).2.updLine (s.findLine2ReplaceAssoc g policy addr).1
      (setTag · (g.calcTag addr)) = _
    rw [findLine2Replace_miss hmiss, takeLine_eq, hindex, ← hp, policyFree_content]
  have hstate' : (t.fillLine (.assoc policy) g addr).2.2 =
      ((t.policyFree g policy (g.calcIndex4Tag tag)).2.moveToFront (g.calcIndex4Tag tag) p).updLine (s.content p)
        (setTag · (g.calcTag addr)) := by
    show (t.findLine2ReplaceAssoc g policy addr).2.updLine (t.findLine2ReplaceAssoc g policy addr).1
      (setTag · (g.calcTag addr)) = _
    rw [findLine2Replace_miss hmiss', takeLine_eq, hindex, hpt, ← hp, policyFree_content, hcontent]
  have hin : g.calcIndex4Tag tag ≤ p ∧ p < g.calcIndex4Tag tag + g.assoc := by
    obtain ⟨-, -, -, hdiv⟩ := hs.policyFree tag
    rw [hp]
    exact (g.mem_set_iff tag _).1 hdiv
  refine ⟨_, _, hs.fill addr, ht.fill addr, halike.next (.fillLine addr false 0 h0), ?_, ?_⟩
  · rw [hstate]
    rfl
  · rw [hstate, hstate', ← hp]
    rcases Nat.lt_or_ge p lo with hlt | hge
    · exact .inl ⟨hlt, (hfree.move_before hin.1 hlt).updLine _ _⟩
    · rcases Nat.lt_or_ge hi p with hgt | hgt
      · exact .inr ⟨hgt, (hfree.move_behind hgt hle hin.2).updLine _ _⟩
      · exact absurd hcontent (h.differ p hge hgt)

/-- Under LRU, the stretch moves up until its end is freed. -/
theorem Apart.not_alike_lru (h : Apart g (g.calcIndex4Tag tag) lo hi s t) (hle : lo ≤ hi) (hs : CacheOk (.assoc .LRU) g s)
    (ht : CacheOk (.assoc .LRU) g t) :
    ¬CacheGeneric.SameAnswers g (.core (.assoc .LRU) s) (.core (.assoc .LRU) t) := by
  intro halike
  obtain ⟨m, hm⟩ : ∃ m, m = g.calcIndex4Tag tag + g.assoc - hi := ⟨_, rfl⟩
  induction m generalizing lo hi s t with
  | zero =>
    have := h.high
    omega
  | succ m ih =>
    obtain ⟨s', t', hs', ht', halike', -, hcase⟩ := h.fill hle hs ht halike
    rcases hcase with ⟨hlt, -⟩ | ⟨hgt, hnext⟩
    · -- the last position is not before the stretch
      have hlast : g.calcIndex4Tag tag + g.assoc - 1 < lo := hlt
      have := h.high
      omega
    · exact ih hnext (by omega) hs' ht' halike' (by omega)

/-- The counter of RANDOM, a `uint16_t`, runs through the numbers below some limit. -/
theorem counter_wraps (g : Geometry) (hassoc : 2 ≤ g.assoc) :
    ∃ W, 2 ≤ W ∧ ∀ i, (i &&& g.maskAssoc) % 2 ^ 16 = i % W := by
  obtain ⟨a, ha⟩ := g.assoc_pow
  have hmask : ∀ i, i &&& g.maskAssoc = i % 2 ^ a := by
    intro i
    unfold Geometry.maskAssoc
    rw [ha, Nat.and_two_pow_sub_one_eq_mod]
  rcases Nat.lt_or_ge a 16 with hlt | hge
  · refine ⟨2 ^ a, ha ▸ hassoc, fun i => ?_⟩
    have hpow : 2 ^ a ≤ 2 ^ 16 := Nat.pow_le_pow_right (by omega) hlt.le
    have := Nat.mod_lt i (Nat.two_pow_pos a)
    rw [hmask, Nat.mod_eq_of_lt (by omega)]
  · refine ⟨2 ^ 16, by decide, fun i => ?_⟩
    rw [hmask, Nat.mod_mod_of_dvd i (Nat.pow_dvd_pow 2 hge)]

/-- Under RANDOM, the counter comes to the stretch. Behind it, counter and stretch move up together until the counter starts
again; before it, the stretch stays where it is. -/
theorem Apart.not_alike_random {W : ℕ} (hwrap : ∀ i, (i &&& g.maskAssoc) % 2 ^ 16 = i % W)
    (h : Apart g (g.calcIndex4Tag tag) lo hi s t) (hle : lo ≤ hi) (hlo : lo < g.calcIndex4Tag tag + W)
    (hi' : s.irand < W) (hs : CacheOk (.assoc .RANDOM) g s) (ht : CacheOk (.assoc .RANDOM) g t) :
    ¬CacheGeneric.SameAnswers g (.core (.assoc .RANDOM) s) (.core (.assoc .RANDOM) t) := by
  intro halike
  obtain ⟨m, hm⟩ : ∃ m, m = if hi < g.calcIndex4Tag tag + s.irand then 2 * W - s.irand
    else lo - g.calcIndex4Tag tag - s.irand := ⟨_, rfl⟩
  induction m using Nat.strong_induction_on generalizing lo hi s t with
  | _ m ih =>
    obtain ⟨s', t', hs', ht', halike', hirand, hcase⟩ := h.fill hle hs ht halike
    have hnext : s'.irand = (s.irand + 1) % W := by
      rw [hirand, ← hwrap]
      rfl
    have hlow := h.low
    have hhigh := h.high
    rcases hcase with ⟨hlt, hsame⟩ | ⟨hgt, hmoved⟩
    · have hbefore : g.calcIndex4Tag tag + s.irand < lo := hlt
      rw [Nat.mod_eq_of_lt (by omega)] at hnext
      rw [if_neg (by omega)] at hm
      refine ih _ ?_ hsame hle hlo (by omega) hs' ht' halike' rfl
      rw [if_neg (by omega)]
      omega
    · have hbehind : hi < g.calcIndex4Tag tag + s.irand := hgt
      rw [if_pos hbehind] at hm
      by_cases hlast : s.irand + 1 = W
      · -- the counter starts again, in front of the stretch
        rw [hlast, Nat.mod_self] at hnext
        refine ih _ ?_ hmoved (by omega) (by omega) (by omega) hs' ht' halike' rfl
        rw [hnext, if_neg (by omega)]
        omega
      · rw [Nat.mod_eq_of_lt (by omega)] at hnext
        refine ih _ ?_ hmoved (by omega) (by omega) (by omega) hs' ht' halike' rfl
        rw [if_pos (by omega)]
        omega

/-- **Arrays that are apart are not alike**, if the stretch starts at the front. -/
theorem Apart.not_alike (h : Apart g (g.calcIndex4Tag tag) (g.calcIndex4Tag tag) hi s t) (hlt : g.calcIndex4Tag tag < hi)
    (hs : CacheOk (.assoc policy) g s) (ht : CacheOk (.assoc policy) g t) :
    ¬CacheGeneric.SameAnswers g (.core (.assoc policy) s) (.core (.assoc policy) t) := by
  cases policy with
  | LRU => exact h.not_alike_lru hlt.le hs ht
  | RANDOM =>
    intro halike
    have hhigh := h.high
    obtain ⟨W, hW, hwrap⟩ := counter_wraps g (by omega)
    -- one fill, and the counter is below the limit
    obtain ⟨s', t', hs', ht', halike', hirand, hcase⟩ := h.fill hlt.le hs ht halike
    have hnext : s'.irand = (s.irand + 1) % W := by
      rw [hirand, ← hwrap]
      rfl
    have hsmall : s'.irand < W := by
      rw [hnext]
      exact Nat.mod_lt _ (by omega)
    rcases hcase with ⟨-, hsame⟩ | ⟨-, hmoved⟩
    · exact hsame.not_alike_random hwrap hlt.le (by omega) hsmall hs' ht' halike'
    · exact hmoved.not_alike_random hwrap (by omega) (by omega) hsmall hs' ht' halike'

/-- A line that is not in front moves there: the array is apart from what it was. -/
theorem apart_moved (hs : CacheOk (.assoc policy) g s) {l : ℕ} (hlt : g.calcIndex4Tag tag < l)
    (hin : l < g.calcIndex4Tag tag + g.assoc) :
    Apart g (g.calcIndex4Tag tag) (g.calcIndex4Tag tag) l (s.moveToFront (g.calcIndex4Tag tag) l) s := by
  have hset := g.set_le tag
  refine ⟨le_rfl, hin, rfl, rfl, fun p hp => ?_, fun p hp1 hp2 heq => ?_⟩
  · have hstay : before (g.calcIndex4Tag tag) l p = p := by
      unfold before
      split_ifs <;> omega
    rw [moveToFront_content hlt.le, hstay]
  · rw [moveToFront_content hlt.le] at heq
    have hbefore : before (g.calcIndex4Tag tag) l p < g.numLines := by
      unfold before
      split_ifs <;> omega
    -- no line of the stretch comes from its own position
    have hsame := hs.inj _ hbefore p (by omega) heq
    unfold before at hsame
    split_ifs at hsame <;> omega

/-- A search of an associative cache leaves the array as it is, or moves a line that is not in front. -/
theorem findLineAssoc_cases (policy : ReplacementPolicy) (g : Geometry) (s : CacheCore S) (addr : AddrType) :
    (s.findLine (.assoc policy) g addr).2 = s ∧
        (s.tagAt (g.calcIndex4Tag (g.calcTag addr)) = g.calcTag addr ∨
          ∀ p, p / g.assoc = g.calcSet4Tag (g.calcTag addr) → s.tagAt p ≠ g.calcTag addr) ∨
      ∃ l, g.calcIndex4Tag (g.calcTag addr) < l ∧ l < g.calcIndex4Tag (g.calcTag addr) + g.assoc ∧
        s.tagAt (g.calcIndex4Tag (g.calcTag addr)) ≠ g.calcTag addr ∧ s.tagAt l = g.calcTag addr ∧
        (s.findLine (.assoc policy) g addr).2 = s.moveToFront (g.calcIndex4Tag (g.calcTag addr)) l := by
  simp only [CacheCore.findLine, findLineAssoc]
  split
  · rename_i hfront
    exact .inl ⟨rfl, .inl hfront⟩
  · rename_i hfront
    split
    · rename_i hnone
      refine .inl ⟨rfl, .inr fun p hp => ?_⟩
      obtain ⟨h1, h2⟩ := (g.mem_set_iff _ p).1 hp
      rcases Nat.eq_or_lt_of_le h1 with heq | hlt
      · rw [← heq]
        exact hfront
      · exact searchHit_none hnone p (by omega) (by omega)
    · rename_i l hl
      obtain ⟨h1, h2, htag⟩ := searchHit_some hl
      exact .inr ⟨l, by omega, by omega, hfront, htag, rfl⟩

/-- **A probe of an associative cache** has no effect exactly when it finds nothing to change. -/
theorem sameAnswers_iff (hs : CacheOk (.assoc policy) g s) (addr : AddrType) :
    CacheGeneric.SameAnswers g (.core (.assoc policy) (s.findLine (.assoc policy) g addr).2) (.core (.assoc policy) s) ↔
      CacheGeneric.Harmless g (.core (.assoc policy) s) addr := by
  rcases findLineAssoc_cases policy g s addr with ⟨hstay, hharmless⟩ | ⟨l, hlt, hin, hfront, htag, hmove⟩
  · rw [hstay]
    exact iff_of_true (.refl _) hharmless
  · have hdiv : l / g.assoc = g.calcSet4Tag (g.calcTag addr) := (g.mem_set_iff _ l).2 ⟨hlt.le, hin⟩
    rw [hmove]
    refine iff_of_false ((apart_moved hs hlt hin).not_alike hlt (hs.moveToFront hdiv) hs) ?_
    rintro (hin | hout)
    · exact hfront hin
    · exact hout l hdiv htag

end CacheCore

/-! ## Caches with re-reference prediction -/

namespace CacheSHIP

variable {S : Type} [LineState S] {g : Geometry} {s t s' : CacheSHIP} {l d : ℕ} {addr tag : AddrType}

/-- The re-reference values of a set. -/
def values (theSet : ℕ) (s : CacheSHIP) (i : ℕ) : ℕ := (s.mem (theSet + i)).rrpv

/-- **A fill with a fresh address** evicts by the re-reference values. -/
theorem Filled.evicts (hf : Filled g s addr false l d s') (hok : ShipOk g s)
    (hfresh : ∀ q ∈ setOf g addr, (s.mem q).tag ≠ g.calcTag addr) :
    ∃ v, l = g.calcIndex4Tag (g.calcTag addr) + v ∧
      Evicts g.assoc (RRIP_M - 1) (s.values (g.calcIndex4Tag (g.calcTag addr))) v
        (s'.values (g.calcIndex4Tag (g.calcTag addr))) := by
  obtain ⟨theSet, hT⟩ : ∃ theSet, theSet = g.calcIndex4Tag (g.calcTag addr) := ⟨_, rfl⟩
  have hstops := hf.stops
  have haged := hok.aged hf.goes
  have hothers := hf.others
  rw [← hT] at hstops haged hothers ⊢
  obtain ⟨h1, h2⟩ := mem_ways.1 hstops.mem
  have hin : ∀ i < g.assoc, theSet + i ∈ ways g theSet := fun i hi => mem_ways.2 ⟨by omega, by omega⟩
  have hlow : ∀ i < g.assoc, (s.mem (theSet + i)).rrpv + d ≤ RRIP_M - 1 := by
    intro i hi
    rw [← aged_rrpv (hin i hi)]
    exact haged.low _
  -- the line is distant when it is taken: it does not hold the tag, and invalid lines are distant
  have hfull : (s.mem l).rrpv + d = RRIP_M - 1 := by
    have hstop := hstops.stop
    unfold stopsAt at hstop
    simp only [Bool.or_eq_true, decide_eq_true_eq, Bool.not_eq_true', aged_tag] at hstop
    rw [← aged_rrpv hstops.mem]
    rcases hstop with (htag | hinvalid) | hge
    · exact absurd htag (hfresh l hf.stops.mem)
    · refine haged.distant l ?_
      by_contra hne
      rw [(isValid_iff _).2 hne] at hinvalid
      cases hinvalid
    · exact le_antisymm (haged.low l) hge
  obtain ⟨v, rfl⟩ : ∃ v, l = theSet + v := ⟨l - theSet, by omega⟩
  refine ⟨v, rfl, by omega, fun i hi => ?_, fun i hi => ?_, hf.middle rfl, fun i hi hiv => ?_⟩
  · have := hlow i hi
    unfold values
    omega
  · have hgo := hstops.first (theSet + i) (hin i (by omega)) (by omega)
    unfold stopsAt at hgo
    rw [aged_rrpv (hin i (by omega))] at hgo
    simp only [Bool.or_eq_false_iff, decide_eq_false_iff_not] at hgo
    unfold values
    omega
  · have hother : (s'.mem (theSet + i)).rrpv = (s.mem (theSet + i)).rrpv + d := by
      rw [hothers _ (by omega), aged_rrpv (hin i hi)]
    unfold values
    rw [hother]
    omega

/-- The values of a set in two arrays that are alike and hold the same tags. -/
def AlikeSets (S : Type) [LineState S] (g : Geometry) (theSet : ℕ) (r r₁ : ℕ → ℕ) : Prop :=
  ∃ s t : CacheSHIP, ShipOk g s ∧ ShipOk g t ∧ (∀ x, (s.mem x).tag = (t.mem x).tag) ∧
    CacheGeneric.SameAnswers g (.ship s : CacheGeneric S) (.ship t) ∧ (∀ i < g.assoc, r i = s.values theSet i) ∧
    ∀ i < g.assoc, r₁ i = t.values theSet i

theorem evictsAlike (S : Type) [LineState S] (g : Geometry) (tag : AddrType) :
    EvictsAlike g.assoc (RRIP_M - 1) (AlikeSets S g (g.calcIndex4Tag tag)) := by
  rintro r r₁ v r' ⟨s, t, hs, ht, htags, halike, hr, hr₁⟩ hev
  obtain ⟨addr, h0, hset, hfresh⟩ := g.exists_fresh (fun x => (s.mem x).tag) tag
  have hindex : g.calcIndex4Tag (g.calcTag addr) = g.calcIndex4Tag tag := by
    unfold Geometry.calcIndex4Tag
    rw [hset]
  have hfresh : ∀ q ∈ setOf g addr, (s.mem q).tag ≠ g.calcTag addr := fun q hq => hfresh q (setOf_lt hq)
  have hfresh' : ∀ q ∈ setOf g addr, (t.mem q).tag ≠ g.calcTag addr := fun q hq => htags q ▸ hfresh q hq
  -- the same line is filled in both
  obtain ⟨l, d, hl, hf⟩ := fillLine_spec g s addr false 0
  obtain ⟨l', d', hl', hf'⟩ := fillLine_spec g t addr false 0
  have hanswer := halike.answer (.fillLine addr false 0 h0)
  have hline : l = l' := by
    rw [← hl, ← hl']
    exact (Answer.victim.inj hanswer).1
  subst hline
  obtain ⟨w, hw, hevs⟩ := hf.evicts hs hfresh
  obtain ⟨w', hw', hevt⟩ := hf'.evicts ht hfresh'
  rw [hindex] at hw hw' hevs hevt
  obtain rfl : w = w' := by omega
  have hevr := hevs.congr hr
  obtain rfl : v = w := hev.unique hevr
  refine ⟨_, hevt.congr hr₁, _, _, hf.ok hs h0, hf'.ok ht h0, fun x => ?_,
    halike.next (.fillLine addr false 0 h0), hev.next_eq hevr, fun _ _ => rfl⟩
  by_cases hx : x = l
  · rw [hx, hf.tag, hf'.tag]
  · rw [hf.others x hx, hf'.others x hx, aged_tag, aged_tag, htags]

/-- A probe that hits sets the value, and no more. -/
theorem findLine_probe (h : (s.findLine g addr false 0).1 = some l) :
    (s.findLine g addr false 0).2 = s.updLine l (·.setRRPV 0) := by
  simp only [findLine] at h ⊢
  split at h
  · cases h
  · rename_i m hm
    obtain rfl : m = l := Option.some.inj h
    exact congrArg (fun s : CacheSHIP => s.updLine m (·.setRRPV 0)) (if_neg Bool.false_ne_true)

theorem updLine_setRRPV (h : (s.mem l).rrpv = 0) : s.updLine l (·.setRRPV 0) = s := by
  have hline : (s.mem l).setRRPV 0 = s.mem l := by
    unfold StateGenericShip.setRRPV
    rw [if_neg (by decide), ← h]
  have hmem : Function.update s.mem l ((s.mem l).setRRPV 0) = s.mem := by
    rw [hline, Function.update_eq_self]
  exact congrArg (fun mem => { s with mem := mem }) hmem

/-- **A probe of a `CacheSHIP`** has no effect exactly when it finds nothing to change. -/
theorem sameAnswers_iff (hs : ShipOk g s) (hassoc : 2 ≤ g.assoc) (h0 : g.calcTag addr ≠ 0) :
    CacheGeneric.SameAnswers g (.ship (s.findLine g addr false 0).2 : CacheGeneric S) (.ship s) ↔
      CacheGeneric.Harmless g (.ship s : CacheGeneric S) addr := by
  rcases findLine_cases g s addr false 0 with ⟨-, hmiss, hno⟩ | ⟨l, hl, hhit, htag, hfirst, -, hzero, hother⟩
  · rw [hmiss]
    exact iff_of_true (.refl _) fun l hl htag => absurd htag (hno l hl)
  · have hstate := findLine_probe hhit
    constructor
    · intro halike m hm hmtag hmfirst
      -- it is the line that was hit
      have hml : m = l := by
        rcases Nat.lt_trichotomy m l with hlt | heq | hlt
        · exact absurd hmtag (hfirst m hm hlt)
        · exact heq
        · exact absurd htag (hmfirst l hl hlt)
      rw [hml]
      by_contra hpos
      obtain ⟨h1, h2⟩ := mem_ways.1 hl
      have hprobed : ShipOk g (s.findLine g addr false 0).2 := by
        have hstep : CacheSHIP.step g s (.findLine addr false 0) = some (s.findLine g addr false 0).2 := if_pos h0
        exact hs.step hstep
      have hrel : AlikeSets S g (g.calcIndex4Tag (g.calcTag addr)) (s.values (g.calcIndex4Tag (g.calcTag addr)))
          ((s.findLine g addr false 0).2.values (g.calcIndex4Tag (g.calcTag addr))) :=
        ⟨s, _, hs, hprobed, fun x => (findLine_tag g s addr false 0 x).symm, halike.symm, fun _ _ => rfl, fun _ _ => rfl⟩
      have hback : g.calcIndex4Tag (g.calcTag addr) + (l - g.calcIndex4Tag (g.calcTag addr)) = l := by omega
      refine not_alike (a := l - g.calcIndex4Tag (g.calcTag addr)) (evictsAlike S g (g.calcTag addr)) hassoc (by decide)
        (by omega) hrel (fun i hi hil => ?_) ?_ fun i _ => hs.low _
      · unfold values
        rw [hother _ (by omega)]
      · unfold values
        rw [hback, hzero]
        omega
    · intro hharmless
      rw [hstate, updLine_setRRPV (hharmless l hl htag hfirst)]
      exact .refl _

end CacheSHIP

/-! ## Probes of all caches -/

section Probes

variable {S : Type} [LineState S] {g : Geometry} {c : CacheGeneric S} {addr : AddrType}

theorem dm_stays (s : CacheCore S) (addr : AddrType) : (s.findLine .dm g addr).2 = s := by
  simp only [CacheCore.findLine, CacheCore.findLineDM]
  split <;> rfl

theorem dmSkew_stays (s : CacheCore S) (addr : AddrType) : (s.findLine .dmSkew g addr).2 = s := by
  simp only [CacheCore.findLine, CacheCore.findLineSkew]
  split
  · rfl
  · split
    · rfl
    · split <;> rfl

/-- **Probes.** In every state that a cache of any organisation can reach, and for every address, a probe has no
effect that later searches and fills can tell if and only if it finds nothing to change. -/
theorem noEffect_iff (h : CacheGeneric.Reachable g c) (h0 : g.calcTag addr ≠ 0) :
    CacheGeneric.NoEffect g c addr ↔ CacheGeneric.Harmless g c addr := by
  -- the two probes are one function
  have hprobe : CacheGeneric.NoEffect g c addr ↔ CacheGeneric.SameAnswers g (c.findLine g addr false 0).2 c :=
    and_self_iff
  rw [hprobe]
  cases h with
  | @core org r ops hops =>
    cases org with
    | assoc policy => exact CacheCore.sameAnswers_iff (CacheCore.run_ok (CacheCore.new_ok _ g r) hops) addr
    | dm =>
      refine iff_of_true ?_ trivial
      simp only [CacheGeneric.findLine, dm_stays]
      exact .refl _
    | dmSkew =>
      refine iff_of_true ?_ trivial
      simp only [CacheGeneric.findLine, dmSkew_stays]
      exact .refl _
  | @ship hassoc k table ops s hrun =>
    exact CacheSHIP.sameAnswers_iff (CacheSHIP.run_ok hrun) hassoc h0

/-- The line that was filled last is in front. -/
theorem noEffect_front :
    CacheGeneric.NoEffect CacheCore.smallGeometry
      (.core (.assoc .LRU) (CacheCore.run (.assoc .LRU) CacheCore.smallGeometry (CacheCore.new 0 : CacheCore StateGeneric)
        [.fillLine 0x20, .fillLine 0x40])) 0x40 :=
  (noEffect_iff (.core 0 (by decide)) (by decide)).2 (.inl (by decide))

/-- A probe for the other line of the set makes the first one the victim. -/
theorem probe_moves :
    ∃ c : CacheGeneric StateGeneric,
      c = .core (.assoc .LRU) (CacheCore.run (.assoc .LRU) CacheCore.smallGeometry (CacheCore.new 0)
        [.fillLine 0x20, .fillLine 0x40]) ∧
      (c.fillLine CacheCore.smallGeometry 0x60 false 0).2.1 = 0x20 ∧
        ((c.findLineNoEffect CacheCore.smallGeometry 0x20).2.fillLine CacheCore.smallGeometry 0x60 false 0).2.1 = 0x40 ∧
          ¬CacheGeneric.NoEffect CacheCore.smallGeometry c 0x20 := by
  refine ⟨_, rfl, by decide, by decide, fun h => ?_⟩
  have hanswer := h.1.answer (.fillLine 0x60 false 0 (by decide))
  exact absurd hanswer (by decide)

end Probes

end Esesc.Suc
