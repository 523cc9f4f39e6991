import Mathlib.Tactic.Common
import Mathlib.Data.List.Perm.Basic
import Mathlib.Data.List.Induction
import Mathlib.Order.Basic
import Mathlib.Data.Int.Order.Basic

/-!
# The records of a configuration

`Config` keeps the records of the configuration file in a hash multimap, under the section and
the name in either case. A record of a vector covers the indices of a range. `addRecord` reports
ranges that overlap, `getRecord` returns the first record it meets that covers an index.

* `strcasecmp_eq_zero`, `hash_congr`: the equality of keys is equality but for case, and keys that
  are equal have the same hash.
* `overlaps_iff`: the four comparisons find every index that two ranges share.
* `errorReading_build`: the error is set exactly when two of the records share an index.
* `getRecord_congr`: without an error, what is found is the same for every order.
-/

namespace Esesc.Suc.Conf

/-! ## Keys -/

/-- A character of a C string. -/
abbrev Char8 := { c : BitVec 8 // c ≠ 0 }

abbrev CStr := List Char8

/-- `tolower` in the C locale. -/
def tolower (c : Char8) : BitVec 8 := if 65 ≤ c.1 ∧ c.1 ≤ 90 then c.1 + 32 else c.1

def strcasecmp : CStr → CStr → ℤ
  | [], [] => 0
  | [], b :: _ => 0 - (tolower b).toNat
  | a :: _, [] => (tolower a).toNat
  | a :: as, b :: bs => if tolower a = tolower b then strcasecmp as bs else (tolower a).toNat - (tolower b).toNat

/-- The section and the name of a record. -/
structure KeyIndex where
  s1 : CStr
  s2 : CStr
  deriving DecidableEq

/-- `operator==`. -/
def KeyIndex.eq (k a : KeyIndex) : Bool :=
  if strcasecmp a.s1 k.s1 ≠ 0 then false else strcasecmp a.s2 k.s2 = 0

/-- The hash of a string, from the one of what was hashed before. -/
def hash : CStr → BitVec 64 → BitVec 64
  | [], hval =>
    let hval := hval + (hval <<< 3)
    let hval := hval ^^^ (hval >>> 11)
    hval + (hval <<< 15)
  | c :: s, hval =>
    let hval := hval + (tolower c).signExtend 64
    let hval := hval + (hval <<< 10)
    hash s (hval ^^^ (hval >>> 6))

/-- `HashColin`. -/
def KeyIndex.hash (k : KeyIndex) : BitVec 64 := Conf.hash k.s2 (Conf.hash k.s1 0)

/-! ## Records -/

variable {V : Type*}

/-- A record: its value, the range of its indices, and whether it was asked for. -/
structure Record (V : Type*) where
  val : V
  vectorFirst : ℤ
  vectorLast : ℤ
  used : Bool
  deriving DecidableEq

def Record.setUsed (r : Record V) : Record V := { r with used := true }

abbrev Entry (V : Type*) := KeyIndex × Record V

/-- The hash multimap of the library: where it puts an entry among those it has, and how many
buckets it spreads them over. -/
structure HashMultimap (V : Type*) where
  insert : List (Entry V) → Entry V → List (Entry V)
  insert_perm : ∀ es e, (insert es e).Perm (e :: es)
  bucketCount : List (Entry V) → ℕ

/-- The entries of the key's bucket that are equal to the key. -/
def HashMultimap.equalRange (h : HashMultimap V) (es : List (Entry V)) (key : KeyIndex) : List (Entry V) :=
  es.filter fun e =>
    e.1.hash.toNat % h.bucketCount es = key.hash.toNat % h.bucketCount es && e.1.eq key

/-- What the message about an overlap says: the stored name and range, the new ones, and the
section. -/
structure Overlap where
  storedName : CStr
  stored : ℤ × ℤ
  name : CStr
  new : ℤ × ℤ
  block : CStr
  deriving DecidableEq

structure Config (V : Type*) where
  hashRecord : List (Entry V)
  errorReading : Bool
  msgs : List Overlap

def Config.empty : Config V := ⟨[], false, []⟩

/-- The test of `addRecord` for a stored record and a new one. -/
def overlaps (pos rec : Record V) : Bool :=
  (pos.vectorFirst ≤ rec.vectorFirst && pos.vectorLast ≥ rec.vectorFirst) ||
  (pos.vectorLast ≥ rec.vectorLast && pos.vectorFirst ≤ rec.vectorLast) ||
  (rec.vectorFirst ≤ pos.vectorFirst && rec.vectorLast ≥ pos.vectorFirst) ||
  (rec.vectorLast ≥ pos.vectorLast && rec.vectorFirst ≤ pos.vectorLast)

def addRecord (h : HashMultimap V) (c : Config V) (block name : CStr) (rec : Record V) : Config V :=
  let key : KeyIndex := ⟨block, name⟩
  let colliding := (h.equalRange c.hashRecord key).filter fun pos => overlaps pos.2 rec
  { hashRecord := h.insert c.hashRecord (key, rec)
    errorReading := c.errorReading || !colliding.isEmpty
    msgs := c.msgs ++ colliding.map fun pos =>
      ⟨pos.1.s2, (pos.2.vectorFirst, pos.2.vectorLast), name, (rec.vectorFirst, rec.vectorLast), block⟩ }

/-- The test of `getRecord`. -/
def covers (pos : Record V) (vectorPos : ℤ) : Bool := pos.vectorFirst ≤ vectorPos && pos.vectorLast ≥ vectorPos

/-- The first entry that passes a test is marked as used. -/
def markUsed (p : Entry V → Bool) : List (Entry V) → List (Entry V)
  | [] => []
  | e :: es => if p e then (e.1, e.2.setUsed) :: es else e :: markUsed p es

/-- The record found, and the records after the call. -/
def getRecord (h : HashMultimap V) (c : Config V) (block name : CStr) (vectorPos : ℤ) :
    Option (Record V) × Config V :=
  let key : KeyIndex := ⟨block, name⟩
  match (h.equalRange c.hashRecord key).find? fun pos => covers pos.2 vectorPos with
  | none => (none, c)
  | some pos => (some pos.2.setUsed, { c with hashRecord := markUsed (fun e => e.1.eq key && covers e.2 vectorPos) c.hashRecord })

/-- The table with one bucket that keeps the order of insertion. -/
def HashMultimap.chained : HashMultimap V where
  insert es e := es ++ [e]
  insert_perm es e := List.perm_append_singleton e es
  bucketCount _ := 1

/-- A call of `addRecord`. -/
structure Add (V : Type*) where
  block : CStr
  name : CStr
  record : Record V

/-- The configuration after a sequence of calls. -/
def build (h : HashMultimap V) (as : List (Add V)) : Config V :=
  as.foldl (fun c a => addRecord h c a.block a.name a.record) .empty

/-! ## What a configuration means -/

/-- A string in lower case. -/
def lower (s : CStr) : List (BitVec 8) := s.map tolower

/-- The record has this section and name, in some case, and covers the index. -/
def Add.at (a : Add V) (block name : CStr) (i : ℤ) : Prop :=
  lower a.block = lower block ∧ lower a.name = lower name ∧ a.record.vectorFirst ≤ i ∧ i ≤ a.record.vectorLast

/-- Two records of one key share an index. -/
def Clash (a b : Add V) : Prop :=
  lower a.block = lower b.block ∧ lower a.name = lower b.name ∧
    ∃ i, (a.record.vectorFirst ≤ i ∧ i ≤ a.record.vectorLast) ∧ b.record.vectorFirst ≤ i ∧ i ≤ b.record.vectorLast

/-- A call with its section and name in lower case. -/
def Add.lowered (a : Add V) : (List (BitVec 8) × List (BitVec 8)) × Record V := ((lower a.block, lower a.name), a.record)

/-! ## The keys are compared without case -/

theorem tolower_toNat_ne_zero (c : Char8) : (tolower c).toNat ≠ 0 := by
  have hc := c.2
  unfold tolower
  split
  · rename_i h
    obtain ⟨h1, h2⟩ := h
    bv_omega
  · bv_omega

theorem strcasecmp_eq_zero {a b : CStr} : strcasecmp a b = 0 ↔ lower a = lower b := by
  fun_induction strcasecmp a b with
  | case1 => simp
  | case2 b bs =>
    have := tolower_toNat_ne_zero b
    refine iff_of_false (by omega) (by simp [lower])
  | case3 a as =>
    have := tolower_toNat_ne_zero a
    refine iff_of_false (by omega) (by simp [lower])
  | case4 a as b bs h ih =>
    rw [ih]
    simp [lower, h]
  | case5 a as b bs h =>
    have hne : (tolower a).toNat ≠ (tolower b).toNat := fun e => h (BitVec.eq_of_toNat_eq e)
    refine iff_of_false (by omega) (by simp [lower, h])

theorem hash_congr {a b : CStr} (h : lower a = lower b) (hval : BitVec 64) : hash a hval = hash b hval := by
  induction a generalizing b hval with
  | nil =>
    cases b with
    | nil => rfl
    | cons c b => cases h
  | cons c a ih =>
    cases b with
    | nil => cases h
    | cons d b =>
      obtain ⟨hc, h⟩ := List.cons.inj h
      simp only [hash, hc]
      exact ih h _

theorem KeyIndex.eq_iff {k a : KeyIndex} : k.eq a = true ↔ lower k.s1 = lower a.s1 ∧ lower k.s2 = lower a.s2 := by
  unfold KeyIndex.eq
  split
  · rename_i h
    exact iff_of_false (by simp) fun he => h (strcasecmp_eq_zero.2 he.1.symm)
  · rename_i h
    rw [decide_eq_true_iff, strcasecmp_eq_zero]
    exact ⟨fun h2 => ⟨(strcasecmp_eq_zero.1 (not_not.1 h)).symm, h2.symm⟩, fun h2 => h2.2.symm⟩

/-- **Equal keys are in one bucket**, however many buckets there are. -/
theorem KeyIndex.hash_eq {k a : KeyIndex} (h : k.eq a = true) : k.hash = a.hash := by
  obtain ⟨h1, h2⟩ := KeyIndex.eq_iff.1 h
  unfold KeyIndex.hash
  rw [hash_congr h1, hash_congr h2]

theorem equalRange_eq (h : HashMultimap V) (es : List (Entry V)) (key : KeyIndex) :
    h.equalRange es key = es.filter fun e => e.1.eq key := by
  refine List.filter_congr fun e _ => ?_
  cases he : e.1.eq key with
  | false => simp
  | true => simp [KeyIndex.hash_eq he]

/-- **The four comparisons are complete.** -/
theorem overlaps_iff {p r : Record V} (hp : p.vectorFirst ≤ p.vectorLast) (hr : r.vectorFirst ≤ r.vectorLast) :
    overlaps p r = true ↔
      ∃ i, (p.vectorFirst ≤ i ∧ i ≤ p.vectorLast) ∧ r.vectorFirst ≤ i ∧ i ≤ r.vectorLast := by
  simp only [overlaps, Bool.or_eq_true, Bool.and_eq_true, decide_eq_true_iff]
  constructor
  · intro h
    -- the later of the two first indices is in both
    refine ⟨max p.vectorFirst r.vectorFirst, ?_⟩
    omega
  · rintro ⟨i, hi⟩
    omega

/-! ## Sequences of calls -/

variable {h h' : HashMultimap V} {c : Config V} {as as' : List (Add V)} {a : Add V} {block name : CStr} {i : ℤ}

/-- The entry of a call. -/
def Add.entry (a : Add V) : Entry V := (⟨a.block, a.name⟩, a.record)

theorem build_concat : build h (as ++ [a]) = addRecord h (build h as) a.block a.name a.record := by
  simp [build]

/-- The records stored are the ones added. -/
theorem build_perm (h : HashMultimap V) (as : List (Add V)) : (build h as).hashRecord.Perm (as.map Add.entry) := by
  induction as using List.reverseRecOn with
  | nil => exact .refl _
  | append_singleton as a ih =>
    rw [build_concat, List.map_append]
    refine (h.insert_perm _ _).trans ?_
    exact (ih.cons a.entry).trans (List.perm_append_singleton _ _).symm

/-- **One call.** The error is set by an entry of the same key that shares an index. -/
theorem errorReading_addRecord {rec : Record V} :
    (addRecord h c block name rec).errorReading = true ↔
      c.errorReading = true ∨ ∃ e ∈ c.hashRecord, e.1.eq ⟨block, name⟩ = true ∧ overlaps e.2 rec = true := by
  simp only [addRecord, equalRange_eq, Bool.or_eq_true, Bool.not_eq_true', List.isEmpty_eq_false_iff_exists_mem,
    List.mem_filter, and_assoc]

theorem entry_clash_iff {b : Add V} (hb : b.record.vectorFirst ≤ b.record.vectorLast)
    (ha : a.record.vectorFirst ≤ a.record.vectorLast) :
    b.entry.1.eq ⟨a.block, a.name⟩ = true ∧ overlaps b.entry.2 a.record = true ↔ Clash b a := by
  rw [KeyIndex.eq_iff, Add.entry, overlaps_iff hb ha, Clash, and_assoc]

theorem errorReading_build_concat (hle : ∀ b ∈ as, b.record.vectorFirst ≤ b.record.vectorLast)
    (ha : a.record.vectorFirst ≤ a.record.vectorLast) :
    (build h (as ++ [a])).errorReading = true ↔ (build h as).errorReading = true ∨ ∃ b ∈ as, Clash b a := by
  rw [build_concat, errorReading_addRecord]
  refine or_congr_right ?_
  constructor
  · rintro ⟨e, he, hclash⟩
    obtain ⟨b, hb, rfl⟩ := List.mem_map.1 ((build_perm h as).mem_iff.1 he)
    exact ⟨b, hb, (entry_clash_iff (hle b hb) ha).1 hclash⟩
  · rintro ⟨b, hb, hclash⟩
    exact ⟨b.entry, (build_perm h as).mem_iff.2 (List.mem_map_of_mem hb), (entry_clash_iff (hle b hb) ha).2 hclash⟩

theorem errorReading_build (h : HashMultimap V) (hle : ∀ a ∈ as, a.record.vectorFirst ≤ a.record.vectorLast) :
    (build h as).errorReading = false ↔ as.Pairwise fun a b => ¬Clash a b := by
  induction as using List.reverseRecOn with
  | nil => exact iff_of_true rfl .nil
  | append_singleton as a ih =>
    have hle' : ∀ b ∈ as, b.record.vectorFirst ≤ b.record.vectorLast := fun b hb => hle b (List.mem_append_left _ hb)
    have ha := hle a (by simp)
    rw [← Bool.not_eq_true, errorReading_build_concat hle' ha, not_or, Bool.not_eq_true, ih hle',
      List.pairwise_append]
    simp

/-! ## What is found -/

instance (a : Add V) (block name : CStr) (i : ℤ) : Decidable (a.at block name i) :=
  inferInstanceAs (Decidable (_ ∧ _))

/-- Two records of a clash-free list do not cover one index. -/
theorem length_filter_at_le (hp : as.Pairwise fun a b => ¬Clash a b) (block name : CStr) (i : ℤ) :
    (as.filter fun a => a.at block name i).length ≤ 1 := by
  have hp' := hp.filter fun a => decide (a.at block name i)
  rcases hf : as.filter fun a => decide (a.at block name i) with _ | ⟨a, _ | ⟨b, l⟩⟩
  · rw [hf]
    exact Nat.zero_le 1
  · rw [hf]
    exact Nat.le_refl 1
  · exfalso
    have ha : a ∈ as.filter fun a => decide (a.at block name i) := by rw [hf]; simp
    have hb : b ∈ as.filter fun a => decide (a.at block name i) := by rw [hf]; simp
    obtain ⟨ha1, ha2, ha3⟩ := of_decide_eq_true (List.mem_filter.1 ha).2
    obtain ⟨hb1, hb2, hb3⟩ := of_decide_eq_true (List.mem_filter.1 hb).2
    rw [hf] at hp'
    refine List.rel_of_pairwise_cons hp' (List.mem_cons_self (a := b)) ?_
    exact ⟨ha1.trans hb1.symm, ha2.trans hb2.symm, i, ha3, hb3⟩

/-- A search that can find one element at most does not depend on the order. -/
theorem find?_eq_of_perm {α : Type*} {p : α → Bool} {l l' : List α} (hl : l.Perm l') (h1 : (l.filter p).length ≤ 1) :
    l'.find? p = l.find? p := by
  have hf := hl.filter p
  rw [← List.head?_filter, ← List.head?_filter]
  rcases he : l.filter p with _ | ⟨a, _ | ⟨b, m⟩⟩
  · rw [he] at hf
    rw [List.nil_perm.1 hf]
  · rw [he] at hf
    rw [List.singleton_perm.1 hf]
  · rw [he] at h1
    simp at h1

/-- An entry with its key in lower case. -/
def loweredEntry (e : Entry V) : (List (BitVec 8) × List (BitVec 8)) × Record V := ((lower e.1.s1, lower e.1.s2), e.2)

theorem find?_equalRange (h : HashMultimap V) (es : List (Entry V)) (key : KeyIndex) (p : Entry V → Bool) :
    (h.equalRange es key).find? p = es.find? fun e => e.1.eq key && p e := by
  rw [equalRange_eq, List.find?_filter]
  congr 1
  funext e
  cases e.1.eq key <;> simp

theorem getRecord_find (h : HashMultimap V) (c : Config V) (block name : CStr) (i : ℤ) :
    (getRecord h c block name i).1 =
      (c.hashRecord.find? fun e => e.1.eq ⟨block, name⟩ && covers e.2 i).map fun e => e.2.setUsed := by
  simp only [getRecord]
  rw [find?_equalRange]
  cases c.hashRecord.find? fun e => e.1.eq ⟨block, name⟩ && covers e.2 i <;> rfl

/-- What is found is the first record that fits among those with the key in lower case. -/
theorem getRecord_fst (h : HashMultimap V) (c : Config V) (block name : CStr) (i : ℤ) :
    (getRecord h c block name i).1 =
      ((c.hashRecord.map loweredEntry).find? fun e =>
        decide (e.1 = (lower block, lower name)) && covers e.2 i).map fun e => e.2.setUsed := by
  have hpred : ((fun e : (List (BitVec 8) × List (BitVec 8)) × Record V =>
      decide (e.1 = (lower block, lower name)) && covers e.2 i) ∘ loweredEntry) =
      fun e : Entry V => e.1.eq ⟨block, name⟩ && covers e.2 i := by
    funext e
    have : e.1.eq ⟨block, name⟩ = decide ((lower e.1.s1, lower e.1.s2) = (lower block, lower name)) := by
      rw [Bool.eq_iff_iff, KeyIndex.eq_iff, decide_eq_true_iff, Prod.mk.injEq]
    simp [loweredEntry, this]
  rw [List.find?_map, hpred, Option.map_map, getRecord_find]
  rfl

theorem getRecord_congr (hle : ∀ a ∈ as, a.record.vectorFirst ≤ a.record.vectorLast)
    (herr : (build h as).errorReading = false) (hperm : (as'.map Add.lowered).Perm (as.map Add.lowered))
    {block' name' : CStr} (hb : lower block' = lower block) (hn : lower name' = lower name) :
    (getRecord h' (build h' as') block' name' i).1 = (getRecord h (build h as) block name i).1 := by
  have hentries : ∀ (h : HashMultimap V) (as : List (Add V)),
      ((build h as).hashRecord.map loweredEntry).Perm (as.map Add.lowered) := by
    intro h as
    have hp := (build_perm h as).map loweredEntry
    rwa [List.map_map] at hp
  have hall : ((build h as).hashRecord.map loweredEntry).Perm ((build h' as').hashRecord.map loweredEntry) :=
    (hentries h as).trans (hperm.symm.trans (hentries h' as').symm)
  rw [getRecord_fst, getRecord_fst, hb, hn, find?_eq_of_perm hall]
  have hlen := length_filter_at_le ((errorReading_build h hle).1 herr) block name i
  have hmap := ((hentries h as).filter fun e => decide (e.1 = (lower block, lower name)) && covers e.2 i).length_eq
  rw [hmap, List.filter_map, List.length_map]
  refine le_of_eq_of_le (congrArg List.length (List.filter_congr fun a _ => ?_)) hlen
  rw [Bool.eq_iff_iff, decide_eq_true_iff, Function.comp_apply, Bool.and_eq_true, decide_eq_true_iff]
  simp only [Add.lowered, Add.at, covers, Bool.and_eq_true, Prod.mk.injEq, and_assoc]
  exact and_congr_right fun _ => and_congr_right fun _ => and_congr decide_eq_true_iff decide_eq_true_iff

/-- **Configuration records never overlap.** Along any sequence of records with proper ranges,
`addRecord` sets the error exactly when the new range shares an index with one stored for the same
key, in any case. Without an error, no index of a key is covered twice, and what `getRecord` finds
depends neither on the order of the records, nor on the case of the keys, nor on the table. -/
theorem config_records (h : HashMultimap V) (as : List (Add V))
    (hle : ∀ a ∈ as, a.record.vectorFirst ≤ a.record.vectorLast) :
    (∀ a : Add V, a.record.vectorFirst ≤ a.record.vectorLast →
      ((addRecord h (build h as) a.block a.name a.record).errorReading = true ↔
        (build h as).errorReading = true ∨ ∃ b ∈ as, Clash b a)) ∧
    ((build h as).errorReading = false →
      (∀ block name i, (as.filter fun a => a.at block name i).length ≤ 1) ∧
      ∀ (h' : HashMultimap V) (as' : List (Add V)), (as'.map Add.lowered).Perm (as.map Add.lowered) →
        ∀ block name block' name' i, lower block' = lower block → lower name' = lower name →
          (getRecord h' (build h' as') block' name' i).1 = (getRecord h (build h as) block name i).1) := by
  refine ⟨fun a ha => ?_, fun herr => ⟨?_, ?_⟩⟩
  · rw [← build_concat]
    exact errorReading_build_concat hle ha
  · exact length_filter_at_le ((errorReading_build h hle).1 herr)
  · intro h' as' hperm block name block' name' i hb hn
    exact getRecord_congr hle herr hperm hb hn

/-- Two records of a vector with the name in either case, next to each other. -/
def vector : List (Add ℕ) := [⟨[], [⟨97, by decide⟩], ⟨0, 0, 2, false⟩⟩, ⟨[], [⟨65, by decide⟩], ⟨1, 3, 3, false⟩⟩]

/-- A third one that begins where the first one ends is refused. -/
theorem config_records_vector :
    (addRecord HashMultimap.chained (build HashMultimap.chained vector) [] [⟨65, by decide⟩] ⟨9, 2, 2, false⟩).errorReading =
      true :=
  ((config_records HashMultimap.chained vector (by decide)).1 ⟨[], [⟨65, by decide⟩], ⟨9, 2, 2, false⟩⟩ (by decide)).2
    (.inr ⟨_, List.mem_cons_self, by decide, by decide, 2, by decide⟩)

end Esesc.Suc.Conf
