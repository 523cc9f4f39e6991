import Esesc.Lib.Checked
import Esesc.Lib.Machine
import Mathlib.Data.BitVec
import Mathlib.Data.Fin.Basic
import Mathlib.Data.List.FinRange
import Mathlib.Tactic.Common

/-!
# The adaptive stream prefetcher

Sixteen slots follow streams of consecutive blocks, and two tables count how long streams get: the
one of the epoch that runs and the one of the epoch before, which decides how far to prefetch. An
access of the next block of a stream counts the new length and goes through the lengths that are left.

* `Update_eq`: what an access does to a slot that it hits.
* `mem_streamPrefetches`, `ahead_iff`: the prefetches of a stream hit, and the ones that are ahead.
* `good_iff`: the calls that stay in the tables and prefetch ahead.
* `along_good_iff`: the runs all of whose calls do.
-/

namespace Esesc.Core

open Esesc.Lib

/-! ## Blocks -/

def BLK_WIDTH : ℕ := 6

def BLK_BITS : ℕ := BLK_WIDTH

def BLK_SIZE : BitVec 64 := 1#64 <<< BLK_BITS

def BLK_MASK : BitVec 64 := (1#64 <<< BLK_WIDTH) - 1

/-- The number of the block of an address. -/
def block (addr : BitVec 64) : ℕ := (addr >>> BLK_BITS).toNat

theorem block_eq (addr : BitVec 64) : block addr = addr.toNat / 64 := by
  rw [block, BitVec.toNat_ushiftRight, Nat.shiftRight_eq_div_pow]
  rfl

/-- What is left of an address without the place in its block. -/
theorem toNat_and_not_mask (addr : BitVec 64) : (addr &&& ~~~BLK_MASK).toNat = addr.toNat / 64 * 64 := by
  have hmask : ~~~BLK_MASK = BitVec.allOnes 64 <<< BLK_BITS := by decide
  have hlt : addr.toNat < 2 ^ 64 := addr.isLt
  rw [hmask, ← BitVec.shiftLeft_ushiftRight, BitVec.toNat_shiftLeft, BitVec.toNat_ushiftRight,
    Nat.shiftRight_eq_div_pow, Nat.shiftLeft_eq]
  show addr.toNat / 64 * 64 % 2 ^ 64 = addr.toNat / 64 * 64
  omega

/-! ## Slots -/

def LIFETIME : ℕ := 1023

def LHT_SIZE : ℕ := 16

def SLOTSIZE : ℕ := 16

def EPOCH_MASK : ℕ := (1 <<< 16) - 1

structure AdaptiveStreamFilterSlot where
  Address : BitVec 64
  Lifetime : ℕ
  Length : ℕ
  Direction : Bool
  Valid : Bool
  deriving DecidableEq

namespace AdaptiveStreamFilterSlot

def Init (s : AdaptiveStreamFilterSlot) : AdaptiveStreamFilterSlot := { s with Valid := false }

def Assign (addr : BitVec 64) : AdaptiveStreamFilterSlot where
  Address := addr
  Lifetime := LIFETIME
  Length := 0
  Direction := true
  Valid := true

def Hit (s : AdaptiveStreamFilterSlot) (addr : BitVec 64) : Bool :=
  if !s.Valid then false
  else if s.Length = 0 then addr == s.Address || addr + BLK_SIZE == s.Address || addr - BLK_SIZE == s.Address
  else if s.Direction then
    let BaseAddress := s.Address - BitVec.ofNat 64 s.Length * BLK_SIZE
    BaseAddress ≤ addr && s.Address + BLK_SIZE ≥ addr
  else
    let BaseAddress := s.Address + BitVec.ofNat 64 s.Length * BLK_SIZE
    BaseAddress ≥ addr && s.Address - BLK_SIZE ≤ addr

/-- The slot after an access, and the length of the stream, or that the access is of an old block. -/
def Update (s : AdaptiveStreamFilterSlot) (addr : BitVec 64) : AdaptiveStreamFilterSlot × ℤ :=
  if !s.Hit addr then (s, 0)
  else
    let s := if s.Length = 0 ∧ s.Address - BLK_SIZE = addr then { s with Direction := false } else s
    let StreamAddr := s.Address + (if s.Direction then 1 else -1) * BLK_SIZE
    if StreamAddr = addr then
      ({ s with Lifetime := LIFETIME, Address := addr, Length := s.Length + 1 }, (s.Length + 1 : ℕ))
    else (s, -1)

def Housekeeping (s : AdaptiveStreamFilterSlot) : AdaptiveStreamFilterSlot :=
  if s.Valid then
    if s.Length ≥ LHT_SIZE then { s with Valid := false }
    else if s.Lifetime = 0 then { s with Valid := false }
    else { s with Lifetime := s.Lifetime - 1 }
  else s

/-- The direction that the stream of a slot has once `addr` is its next block. -/
def extends? (s : AdaptiveStreamFilterSlot) (addr : BitVec 64) : Option Bool :=
  if s.Length = 0 ∧ s.Address - BLK_SIZE = addr then some false
  else if s.Address + (if s.Direction then 1 else -1) * BLK_SIZE = addr then some s.Direction
  else none

/-- **A hit.** The access is of the next block of the stream, or the slot stays. -/
theorem Update_eq {s : AdaptiveStreamFilterSlot} {addr : BitVec 64} (h : s.Hit addr = true) :
    s.Update addr =
      match s.extends? addr with
      | some d =>
        ({ s with Lifetime := LIFETIME, Address := addr, Length := s.Length + 1, Direction := d }, (s.Length + 1 : ℕ))
      | none => (s, -1) := by
  rw [Update, h]
  by_cases hback : s.Length = 0 ∧ s.Address - BLK_SIZE = addr
  · have hnext : s.Address + -1 * BLK_SIZE = addr := by rw [← hback.2, BitVec.sub_eq_add_neg]; rfl
    simpa [extends?, hback] using hnext
  · by_cases hnext : s.Address + (if s.Direction then 1 else -1) * BLK_SIZE = addr
    · simp only [extends?, if_neg hback, hnext, if_true]
      rfl
    · simp only [extends?, if_neg hback, if_neg hnext]
      rfl

theorem Update_miss {s : AdaptiveStreamFilterSlot} {addr : BitVec 64} (h : s.Hit addr = false) :
    s.Update addr = (s, 0) := by
  rw [Update, h]
  rfl

theorem Update_ne_zero (s : AdaptiveStreamFilterSlot) (addr : BitVec 64) :
    decide ((s.Update addr).2 ≠ 0) = s.Hit addr := by
  cases h : s.Hit addr with
  | false => simp [Update_miss h]
  | true =>
    rw [Update_eq h]
    cases s.extends? addr with
    | none => rfl
    | some d => simp only [decide_eq_true_eq]; omega

end AdaptiveStreamFilterSlot

/-! ## The prefetcher -/

structure AdaptiveStreamPrefetcher where
  LHTnext : ℕ → Fin 2 → ℤ
  LHTcurr : ℕ → Fin 2 → ℤ
  slot : Fin SLOTSIZE → AdaptiveStreamFilterSlot

/-- Calls of a prefetcher. -/
inductive StreamCall
  | IssuePrefetch (addr : BitVec 64) (hit : Bool)
  | Housekeeping (cycle : ℕ)
  deriving DecidableEq

namespace AdaptiveStreamPrefetcher

/-- A new prefetcher. The slots are made of what was there, without their mark. -/
def init (slot : Fin SLOTSIZE → AdaptiveStreamFilterSlot) : AdaptiveStreamPrefetcher where
  LHTnext := fun _ _ => 0
  LHTcurr := fun _ _ => 0
  slot := fun i => (slot i).Init

variable (t : AdaptiveStreamPrefetcher) (addr : BitVec 64)

/-- The slot that stops the search. -/
def search : Option (Fin SLOTSIZE) := (List.finRange SLOTSIZE).find? fun i => ((t.slot i).Update addr).2 ≠ 0

/-- The index of a direction in the tables. -/
def dirIdx (Direction : Bool) : Fin 2 := if Direction then 0 else 1

/-- `LHT[i][dir] += 1`. -/
def incr (LHT : ℕ → Fin 2 → ℤ) (i : ℕ) (dir : Fin 2) : Option (ℕ → Fin 2 → ℤ) := do
  let row ← rd LHT_SIZE LHT i
  wr LHT_SIZE LHT i (Function.update row dir (row dir + 1))

/-- One length `j` of the loop of a stream hit. -/
def streamPrefetch (LHTcurr : ℕ → Fin 2 → ℤ) (addr : BitVec 64) (idx : ℕ) (dir : Fin 2) (out : List (BitVec 64))
    (j : ℕ) : Option (List (BitVec 64)) := do
  let before ← rd LHT_SIZE LHTcurr (idx - 1)
  let there ← rd LHT_SIZE LHTcurr j
  let here ← rd LHT_SIZE LHTcurr (idx - 0)
  if before dir ≥ 2 * there dir ∧ here dir < 2 * there dir then
    return out ++ [addr + BitVec.ofNat 64 (j - idx) * (if dir = 1 then -1 else 1) * BLK_SIZE]
  else return out

/-- What a stream hit prefetches. -/
def streamPrefetches (LHTcurr : ℕ → Fin 2 → ℤ) (addr : BitVec 64) (idx : ℕ) (dir : Fin 2) :
    Option (List (BitVec 64)) :=
  (List.range' idx (LHT_SIZE - idx)).foldlM (streamPrefetch LHTcurr addr idx dir) []

/-- One length `j` of the loop of a new stream. -/
def firstPrefetch (LHTcurr : ℕ → Fin 2 → ℤ) (addr : BitVec 64) (out : List (BitVec 64)) (j : ℕ) :
    Option (List (BitVec 64)) := do
  let first ← rd LHT_SIZE LHTcurr 0
  let there ← rd LHT_SIZE LHTcurr j
  let up := if first 0 < 2 * there 0 then [addr + BitVec.ofNat 64 j * BLK_SIZE] else []
  let down := if first 1 < 2 * there 1 then [addr - BitVec.ofNat 64 j * BLK_SIZE] else []
  return out ++ up ++ down

/-- What a new stream prefetches, both ways. -/
def firstPrefetches (LHTcurr : ℕ → Fin 2 → ℤ) (addr : BitVec 64) : Option (List (BitVec 64)) :=
  (List.range' 1 (LHT_SIZE - 1)).foldlM (firstPrefetch LHTcurr addr) []

/-- The access is answered by slot `i`. -/
def streamHit (i : Fin SLOTSIZE) : Option (AdaptiveStreamPrefetcher × List (BitVec 64)) :=
  let (s, idx) := (t.slot i).Update addr
  let dir := dirIdx s.Direction
  let t := { t with slot := Function.update t.slot i s }
  if idx < 0 then some (t, [])
  else if idx ≤ LHT_SIZE then do
    let LHTnext ← incr t.LHTnext idx.toNat dir
    let out ← streamPrefetches t.LHTcurr addr idx.toNat dir
    return ({ t with LHTnext }, out)
  else some (t, [])

/-- No slot answers: a miss starts a stream in the first slot that is free, if there is one. -/
def newStream (hit : Bool) : Option (AdaptiveStreamPrefetcher × List (BitVec 64)) :=
  if hit then some (t, [])
  else
    match (List.finRange SLOTSIZE).find? fun i => !(t.slot i).Valid with
    | none => some (t, [])
    | some i => do
      let LHTnext ← incr t.LHTnext 0 0
      let LHTnext ← incr LHTnext 0 1
      let out ← firstPrefetches t.LHTcurr addr
      return ({ t with LHTnext, slot := Function.update t.slot i (.Assign addr) }, out)

/-- The prefetcher after an access, and what it prefetches. There is no result where an index leaves a
table. -/
def IssuePrefetch (hit : Bool) : Option (AdaptiveStreamPrefetcher × List (BitVec 64)) :=
  let addr := addr &&& ~~~BLK_MASK
  match t.search addr with
  | some i => t.streamHit addr i
  | none => t.newStream addr hit

def Housekeeping (cycle : ℕ) : AdaptiveStreamPrefetcher :=
  let t := { t with slot := fun i => (t.slot i).Housekeeping }
  if cycle % EPOCH_MASK = 0 then { t with LHTcurr := t.LHTnext, LHTnext := fun _ _ => 0 } else t

/-- What a call leaves behind and prefetches. -/
def call (t : AdaptiveStreamPrefetcher) : StreamCall → Option (AdaptiveStreamPrefetcher × List (BitVec 64))
  | .IssuePrefetch addr hit => t.IssuePrefetch addr hit
  | .Housekeeping cycle => some (t.Housekeeping cycle, [])

def step (t : AdaptiveStreamPrefetcher) (c : StreamCall) : Option AdaptiveStreamPrefetcher := (t.call c).map Prod.fst

/-! ## What a call has to be -/

/-- A block strictly ahead of another one. -/
def Ahead (Direction : Bool) (addr p : BitVec 64) : Prop :=
  if Direction then block addr < block p else block p < block addr

/-- There are `k` more blocks in a direction. -/
def Room (Direction : Bool) (addr : BitVec 64) (k : ℕ) : Prop :=
  if Direction then block addr + k < 2 ^ (64 - BLK_BITS) else k ≤ block addr

/-- The test of the loop of a stream hit. -/
def Chosen (LHTcurr : ℕ → Fin 2 → ℤ) (idx : ℕ) (dir : Fin 2) (j : ℕ) : Prop :=
  LHTcurr (idx - 1) dir ≥ 2 * LHTcurr j dir ∧ LHTcurr idx dir < 2 * LHTcurr j dir

instance (Direction : Bool) (addr : BitVec 64) (k : ℕ) : Decidable (Room Direction addr k) := by
  unfold Room
  infer_instance

instance (LHTcurr : ℕ → Fin 2 → ℤ) (idx : ℕ) (dir : Fin 2) (j : ℕ) : Decidable (Chosen LHTcurr idx dir j) :=
  inferInstanceAs (Decidable (_ ∧ _))

/-- **A good call.** Every index is in its table, and on a stream hit every prefetch is ahead. -/
def Good (t : AdaptiveStreamPrefetcher) (c : StreamCall) : Prop :=
  ∃ t' out, t.call c = some (t', out) ∧
    match c with
    | .IssuePrefetch addr _ =>
      ∀ i, t.search (addr &&& ~~~BLK_MASK) = some i →
        ∀ p ∈ out, Ahead (t'.slot i).Direction (addr &&& ~~~BLK_MASK) p
    | .Housekeeping _ => True

/-- **A stream of `n` blocks that ends with `addr`.** Its length is not the size of the tables, the length
itself is not chosen, and what is chosen is in the address space. -/
structure Fits (LHTcurr : ℕ → Fin 2 → ℤ) (addr : BitVec 64) (n : ℕ) (Direction : Bool) : Prop where
  length : n ≠ LHT_SIZE
  apart : n < LHT_SIZE → ¬(2 * LHTcurr n (dirIdx Direction) ≤ LHTcurr (n - 1) (dirIdx Direction) ∧
    0 < LHTcurr n (dirIdx Direction))
  room : ∀ j < LHT_SIZE, n < j → Chosen LHTcurr n (dirIdx Direction) j → Room Direction addr (j - n)

/-- The stream that a call extends, if any, fits. -/
def Keeps (t : AdaptiveStreamPrefetcher) : StreamCall → Prop
  | .IssuePrefetch addr _ =>
    ∀ i d, ((List.finRange SLOTSIZE).find? fun i => (t.slot i).Hit (addr &&& ~~~BLK_MASK)) = some i →
      (t.slot i).extends? (addr &&& ~~~BLK_MASK) = some d →
      Fits t.LHTcurr (addr &&& ~~~BLK_MASK) ((t.slot i).Length + 1) d
  | .Housekeeping _ => True

instance (LHTcurr : ℕ → Fin 2 → ℤ) (addr : BitVec 64) (n : ℕ) (Direction : Bool) :
    Decidable (Fits LHTcurr addr n Direction) :=
  decidable_of_iff (n ≠ LHT_SIZE ∧
    (n < LHT_SIZE → ¬(2 * LHTcurr n (dirIdx Direction) ≤ LHTcurr (n - 1) (dirIdx Direction) ∧
      0 < LHTcurr n (dirIdx Direction))) ∧
    ∀ j < LHT_SIZE, n < j → Chosen LHTcurr n (dirIdx Direction) j → Room Direction addr (j - n))
    ⟨fun h => ⟨h.1, h.2.1, h.2.2⟩, fun h => ⟨h.length, h.apart, h.room⟩⟩

instance (t : AdaptiveStreamPrefetcher) (c : StreamCall) : Decidable (t.Keeps c) := by
  cases c <;> unfold Keeps <;> infer_instance

/-! ## One call -/

section Call

variable {LHT LHTcurr : ℕ → Fin 2 → ℤ} {n j k : ℕ} {dir : Fin 2} {d : Bool}

theorem search_eq : t.search addr = (List.finRange SLOTSIZE).find? fun i => (t.slot i).Hit addr := by
  rw [search]
  congr 1
  funext i
  exact AdaptiveStreamFilterSlot.Update_ne_zero _ _

theorem incr_isSome (hn : n < LHT_SIZE) : ∃ LHT', incr LHT n dir = some LHT' :=
  ⟨_, by rw [incr, rd_of_lt hn, Option.bind_eq_bind, Option.bind_some, wr_of_lt hn]⟩

theorem incr_size : incr LHT LHT_SIZE dir = none := by
  rw [incr, rd, if_neg (lt_irrefl _)]
  rfl

/-- A loop that collects what it chooses. -/
theorem foldlM_choose {α β : Type*} {f : List β → α → Option (List β)} {p : α → Prop} [DecidablePred p] {g : α → β}
    {l : List α} (h : ∀ a ∈ l, ∀ out, f out a = some (if p a then out ++ [g a] else out)) (out : List β) :
    l.foldlM f out = some (out ++ (l.filter p).map g) := by
  induction l generalizing out with
  | nil => simp
  | cons a l ih =>
    rw [List.foldlM_cons, h a List.mem_cons_self, Option.bind_eq_bind, Option.bind_some,
      ih fun b hb => h b (List.mem_cons_of_mem a hb)]
    by_cases hp : p a
    · simp [hp]
    · simp [hp]

theorem mem_streamPrefetches (hn : n < LHT_SIZE) :
    ∃ out, streamPrefetches LHTcurr addr n dir = some out ∧ ∀ p, p ∈ out ↔ ∃ j, n ≤ j ∧ j < LHT_SIZE ∧
      Chosen LHTcurr n dir j ∧ p = addr + BitVec.ofNat 64 (j - n) * (if dir = 1 then -1 else 1) * BLK_SIZE := by
  have hone : ∀ j ∈ List.range' n (LHT_SIZE - n), ∀ out, streamPrefetch LHTcurr addr n dir out j =
      some (if Chosen LHTcurr n dir j then
        out ++ [addr + BitVec.ofNat 64 (j - n) * (if dir = 1 then -1 else 1) * BLK_SIZE] else out) := by
    intro j hj out
    obtain ⟨hnj, hj⟩ := List.mem_range'_1.1 hj
    have hj16 : j < LHT_SIZE := by omega
    rw [streamPrefetch, rd_of_lt (by omega), rd_of_lt hj16, rd_of_lt (by omega)]
    simp only [Option.bind_eq_bind, Option.bind_some, Nat.sub_zero]
    by_cases hc : Chosen LHTcurr n dir j
    · rw [if_pos hc]
      exact if_pos hc
    · rw [if_neg hc]
      exact if_neg hc
  refine ⟨_, foldlM_choose hone [], fun p => ?_⟩
  simp only [List.nil_append, List.mem_map, List.mem_filter, List.mem_range'_1, decide_eq_true_eq]
  constructor
  · rintro ⟨j, ⟨⟨hnj, hj⟩, hc⟩, rfl⟩
    exact ⟨j, hnj, by omega, hc, rfl⟩
  · rintro ⟨j, hnj, hj, hc, rfl⟩
    exact ⟨j, ⟨⟨hnj, by omega⟩, hc⟩, rfl⟩

theorem firstPrefetches_isSome : ∃ out, firstPrefetches LHTcurr addr = some out := by
  have hone : ∀ j < LHT_SIZE, ∀ out, ∃ out', firstPrefetch LHTcurr addr out j = some out' := by
    intro j hj out
    exact ⟨_, by rw [firstPrefetch, rd_of_lt (by decide), rd_of_lt hj]; rfl⟩
  have hall : ∀ (l : List ℕ) (out : List (BitVec 64)), (∀ j ∈ l, j < LHT_SIZE) →
      ∃ out', l.foldlM (firstPrefetch LHTcurr addr) out = some out' := by
    intro l
    induction l with
    | nil => exact fun out _ => ⟨out, rfl⟩
    | cons j l ih =>
      intro out hl
      obtain ⟨out', hout'⟩ := hone j (hl j List.mem_cons_self) out
      rw [List.foldlM_cons, hout', Option.bind_eq_bind, Option.bind_some]
      exact ih out' fun b hb => hl b (List.mem_cons_of_mem j hb)
  refine hall _ _ fun j hj => ?_
  obtain ⟨hj1, hj⟩ := List.mem_range'_1.1 hj
  simp only [LHT_SIZE] at hj ⊢
  omega

theorem block_up (haddr : addr.toNat % 64 = 0) (hk : k < LHT_SIZE) :
    block (addr + BitVec.ofNat 64 k * 1 * BLK_SIZE) = (block addr + k) % 2 ^ (64 - BLK_BITS) := by
  have hoff : (BitVec.ofNat 64 k * 1 * BLK_SIZE).toNat = k * 64 := by
    have hk' : k < 16 := hk
    rw [show BLK_SIZE = 64#64 from rfl]
    bv_omega
  rw [block_eq, block_eq, BitVec.toNat_add, hoff]
  show (addr.toNat + k * 64) % 2 ^ 64 / 64 = (addr.toNat / 64 + k) % 2 ^ 58
  omega

theorem block_down (haddr : addr.toNat % 64 = 0) (hk : k < LHT_SIZE) :
    block (addr + BitVec.ofNat 64 k * -1 * BLK_SIZE) =
      (block addr + (2 ^ (64 - BLK_BITS) - k)) % 2 ^ (64 - BLK_BITS) := by
  have hoff : (BitVec.ofNat 64 k * -1 * BLK_SIZE).toNat = (2 ^ 64 - k * 64) % 2 ^ 64 := by
    have hk' : k < 16 := hk
    have hneg : BitVec.ofNat 64 k * -1 * 64#64 = -(BitVec.ofNat 64 k * 64#64) := by
      rw [mul_neg_one, neg_mul]
    rw [show BLK_SIZE = 64#64 from rfl, hneg]
    bv_omega
  have hk' : k < 16 := hk
  rw [block_eq, block_eq, BitVec.toNat_add, hoff]
  show (addr.toNat + (2 ^ 64 - k * 64) % 2 ^ 64) % 2 ^ 64 / 64 = (addr.toNat / 64 + (2 ^ 58 - k)) % 2 ^ 58
  omega

/-- **Ahead.** A block at a distance on the way of the stream is ahead when the distance is not zero and
the address space does not end before. -/
theorem ahead_iff (haddr : addr.toNat % 64 = 0) (hk : k < LHT_SIZE) :
    Ahead d addr (addr + BitVec.ofNat 64 k * (if dirIdx d = 1 then -1 else 1) * BLK_SIZE) ↔ 0 < k ∧ Room d addr k := by
  have hblock : block addr < 2 ^ 58 := by
    have hlt : addr.toNat < 2 ^ 64 := addr.isLt
    rw [block_eq]
    omega
  have hk' : k < 16 := hk
  cases d with
  | true =>
    rw [if_neg (by decide), Ahead, if_pos rfl, Room, if_pos rfl, block_up addr haddr hk]
    show block addr < (block addr + k) % 2 ^ 58 ↔ 0 < k ∧ block addr + k < 2 ^ 58
    omega
  | false =>
    rw [if_pos (by decide), Ahead, if_neg (by decide), Room, if_neg (by decide), block_down addr haddr hk]
    show (block addr + (2 ^ 58 - k)) % 2 ^ 58 < block addr ↔ 0 < k ∧ k ≤ block addr
    omega

/-- The prefetches of a stream of `n` blocks are ahead exactly when the stream fits. -/
theorem forall_ahead_iff (haddr : addr.toNat % 64 = 0) (hn : n < LHT_SIZE) {out : List (BitVec 64)}
    (hout : ∀ p, p ∈ out ↔ ∃ j, n ≤ j ∧ j < LHT_SIZE ∧ Chosen LHTcurr n (dirIdx d) j ∧
      p = addr + BitVec.ofNat 64 (j - n) * (if dirIdx d = 1 then -1 else 1) * BLK_SIZE) :
    (∀ p ∈ out, Ahead d addr p) ↔ Fits LHTcurr addr n d := by
  have hself : Chosen LHTcurr n (dirIdx d) n ↔
      2 * LHTcurr n (dirIdx d) ≤ LHTcurr (n - 1) (dirIdx d) ∧ 0 < LHTcurr n (dirIdx d) := by
    simp only [Chosen]
    omega
  have hahead : ∀ j < LHT_SIZE,
      (Ahead d addr (addr + BitVec.ofNat 64 (j - n) * (if dirIdx d = 1 then -1 else 1) * BLK_SIZE) ↔
        0 < j - n ∧ Room d addr (j - n)) := fun j hj => ahead_iff addr haddr (by omega)
  constructor
  · intro hall
    refine ⟨hn.ne, fun _ hc => ?_, fun j hj hnj hc => ?_⟩
    · have h := (hahead n hn).1 (hall _ ((hout _).2 ⟨n, le_refl n, hn, hself.2 hc, rfl⟩))
      omega
    · exact ((hahead j hj).1 (hall _ ((hout _).2 ⟨j, hnj.le, hj, hc, rfl⟩))).2
  · intro hfits p hp
    obtain ⟨j, hnj, hj, hc, rfl⟩ := (hout p).1 hp
    have hne : n ≠ j := by
      rintro rfl
      exact hfits.apart hn (hself.1 hc)
    exact (hahead j hj).2 ⟨by omega, hfits.room j hj (by omega) hc⟩

theorem newStream_isSome (hit : Bool) : ∃ t' out, t.newStream addr hit = some (t', out) := by
  obtain ⟨LHT₀, h₀⟩ : ∃ LHT', incr t.LHTnext 0 0 = some LHT' := incr_isSome (by decide)
  obtain ⟨LHT₁, h₁⟩ : ∃ LHT', incr LHT₀ 0 1 = some LHT' := incr_isSome (by decide)
  obtain ⟨out, hout⟩ : ∃ out, firstPrefetches t.LHTcurr addr = some out := firstPrefetches_isSome addr
  simp only [newStream, h₀, h₁, hout, Option.bind_eq_bind, Option.bind_some]
  split
  · exact ⟨_, _, rfl⟩
  · split <;> exact ⟨_, _, rfl⟩

/-- An old block of a stream. -/
theorem streamHit_old {i : Fin SLOTSIZE} (hhit : (t.slot i).Hit addr = true) (hx : (t.slot i).extends? addr = none) :
    ∃ t', t.streamHit addr i = some (t', []) := by
  simp only [streamHit, AdaptiveStreamFilterSlot.Update_eq hhit, hx]
  exact ⟨_, rfl⟩

/-- The next block of a stream is answered well exactly when the stream fits with it. -/
theorem streamHit_next {i : Fin SLOTSIZE} (haddr : addr.toNat % 64 = 0) (hhit : (t.slot i).Hit addr = true)
    (hx : (t.slot i).extends? addr = some d) :
    (∃ t' out, t.streamHit addr i = some (t', out) ∧ ∀ p ∈ out, Ahead (t'.slot i).Direction addr p) ↔
      Fits t.LHTcurr addr ((t.slot i).Length + 1) d := by
  simp only [streamHit, AdaptiveStreamFilterSlot.Update_eq hhit, hx, Int.toNat_natCast]
  generalize (t.slot i).Length + 1 = n
  rw [if_neg (by omega)]
  rcases Nat.lt_trichotomy n LHT_SIZE with hn | rfl | hn
  · obtain ⟨LHT', hLHT⟩ : ∃ LHT', incr t.LHTnext n (dirIdx d) = some LHT' := incr_isSome hn
    obtain ⟨out, hout, hmem⟩ : ∃ out, streamPrefetches t.LHTcurr addr n (dirIdx d) = some out ∧ _ :=
      mem_streamPrefetches addr hn
    rw [if_pos (by exact_mod_cast hn.le), hLHT, hout, ← forall_ahead_iff addr haddr hn hmem]
    constructor
    · rintro ⟨t', out', heq, hall⟩
      cases heq
      simpa using hall
    · exact fun hall => ⟨_, _, rfl, by simpa using hall⟩
  · rw [if_pos le_rfl, incr_size]
    refine ⟨?_, fun hfits => absurd rfl hfits.length⟩
    rintro ⟨t', out, heq, -⟩
    cases heq
  · rw [if_neg (by exact_mod_cast hn.not_ge)]
    refine ⟨fun _ => ⟨hn.ne', fun hlt => ?_, fun j hj hnj => ?_⟩, fun _ => ⟨_, _, rfl, fun p hp => by cases hp⟩⟩
    · exact absurd hlt hn.not_gt
    · exact absurd (hnj.trans hj) hn.not_gt

/-- **One call.** It is good exactly when the stream that it extends fits. -/
theorem good_iff (t : AdaptiveStreamPrefetcher) (c : StreamCall) : t.Good c ↔ t.Keeps c := by
  cases c with
  | Housekeeping cycle => exact ⟨fun _ => trivial, fun _ => ⟨_, _, rfl, trivial⟩⟩
  | IssuePrefetch addr hit =>
    simp only [Good, Keeps, call, IssuePrefetch]
    have haligned : (addr &&& ~~~BLK_MASK).toNat % 64 = 0 := by
      rw [toNat_and_not_mask]
      omega
    generalize addr &&& ~~~BLK_MASK = a at haligned ⊢
    rw [← search_eq]
    cases hs : t.search a with
    | none =>
      -- no slot is hit, so the call is good and nothing is asked of it
      obtain ⟨t', out, hcall⟩ := newStream_isSome t a hit
      constructor
      · intro _ i d hi
        cases hi
      · intro _
        refine ⟨t', out, hcall, ?_⟩
        intro i hi
        cases hi
    | some i =>
      have hhit : (t.slot i).Hit a = true := by
        rw [search_eq] at hs
        exact List.find?_some (p := fun i => (t.slot i).Hit a) hs
      cases hx : (t.slot i).extends? a with
      | none =>
        -- an old block of the stream
        obtain ⟨t', hcall⟩ := streamHit_old t a hhit hx
        constructor
        · rintro _ i' d ⟨⟩ hd
          rw [hx] at hd
          cases hd
        · intro _
          refine ⟨t', [], hcall, ?_⟩
          intro i' _ p hp
          cases hp
      | some d =>
        have hnext := streamHit_next t a haligned hhit hx
        constructor
        · rintro ⟨t', out, hcall, hall⟩ i' d' ⟨⟩ hd
          obtain rfl : d = d' := Option.some.inj (hx.symm.trans hd)
          exact hnext.1 ⟨t', out, hcall, hall i rfl⟩
        · intro h
          obtain ⟨t', out, hcall, hall⟩ := hnext.2 (h i d rfl hx)
          refine ⟨t', out, hcall, ?_⟩
          rintro i' ⟨⟩
          exact hall

end Call

/-! ## Every run -/

theorem along_iff (t : AdaptiveStreamPrefetcher) (calls : List StreamCall) :
    Along step Good t calls ↔ Along step Keeps t calls :=
  along_congr (I := fun _ => True) (fun _ _ _ _ _ => trivial) (fun t c _ => good_iff t c) trivial calls

/-- **Every call of a run is good** exactly when every stream that is extended on the way fits. -/
theorem along_good_iff (slot : Fin SLOTSIZE → AdaptiveStreamFilterSlot) (calls : List StreamCall) :
    Along step Good (init slot) calls ↔ Along step Keeps (init slot) calls :=
  along_iff (init slot) calls

/-- Slots that never were assigned. -/
def blank : Fin SLOTSIZE → AdaptiveStreamFilterSlot := fun _ => (AdaptiveStreamFilterSlot.Assign 0).Init

/-- A stream of the blocks from address 0 on, `n` blocks after the first. -/
def upward (n : ℕ) : List StreamCall :=
  (List.range (n + 1)).map fun k => .IssuePrefetch (BitVec.ofNat 64 (64 * k)) false

/-- A stream of two blocks and a new one, then an epoch, then the second block of the new one. -/
def secondBlock : List StreamCall :=
  [.IssuePrefetch 0x0000 false, .IssuePrefetch 0x0040 false, .IssuePrefetch 0x8000 false, .Housekeeping 0,
    .IssuePrefetch 0x8040 false]

example : Along step Keeps (init blank) (upward 15) := by decide +kernel

/-- The block that makes a stream 16 long is counted outside of the table, and the second block of a stream
is prefetched when it is accessed. -/
theorem not_along_good :
    ¬Along step Good (init blank) (upward 16) ∧ ¬Along step Good (init blank) secondBlock := by
  rw [along_iff, along_iff]
  decide +kernel

end AdaptiveStreamPrefetcher

end Esesc.Core
