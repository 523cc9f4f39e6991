import Esesc.Lib.Checked
import Esesc.Suc.CacheCore
import Mathlib.Tactic.Common

/-!
# The words of a VPC line (`simu/libmem/VPC.{h,cpp}`)

A line keeps data, a store PC, a store ID and a mark for each of its words, in vectors as long as the
line size. The index of an address is its low bits under a mask that is made with the line size as the
shift count.

* `getWord_eq`: the index of an address, where the shift is defined.
* `apart_of_inBounds`: different words of a line do not share what is at their indices.
* `words_right_iff`: the addresses whose words are right.
-/

namespace Esesc.Mem.VPC

open Esesc.Suc Esesc.Lib

/-- The coherence state of a line. -/
inductive VPCState
  | M
  | E
  | S
  | I
  deriving DecidableEq

/-- A line of the VPC. Its vectors have the line size as their length. -/
structure CState where
  tag : AddrType
  data : ℕ → BitVec 64
  storepc : ℕ → BitVec 64
  stid : ℕ → BitVec 64
  correct_override : Bool
  xCoreDataPresent : ℕ → Bool
  state : VPCState

namespace CState

variable (lineSize : ℕ) (st : CState) (addr : AddrType)

def new : CState where
  tag := 0
  data := fun _ => 0
  storepc := fun _ => 0
  stid := fun _ => 0
  correct_override := false
  xCoreDataPresent := fun _ => false
  state := .I

/-- `(1<<lineSize)-1`, where an `int` holds the shifted bit. -/
def wordMask : Option (BitVec 32) := if lineSize < 31 then some ((1#32 <<< lineSize) - 1) else none

def getWord : Option ℕ := do
  let wordMask ← wordMask lineSize
  return (addr.setWidth 32 &&& wordMask).toNat

def getData : Option (BitVec 64) := do rd lineSize st.data (← getWord lineSize addr)

def getStorePC : Option (BitVec 64) := do rd lineSize st.storepc (← getWord lineSize addr)

def getSTID : Option (BitVec 64) := do rd lineSize st.stid (← getWord lineSize addr)

def getXCoreStore : Option Bool := do rd lineSize st.xCoreDataPresent (← getWord lineSize addr)

def setData (write_data : BitVec 64) : Option CState := do
  let data ← wr lineSize st.data (← getWord lineSize addr) write_data
  return { st with data }

def setStorePC (pc : BitVec 64) : Option CState := do
  let storepc ← wr lineSize st.storepc (← getWord lineSize addr) pc
  return { st with storepc }

def setSTID (new_stid : BitVec 64) : Option CState := do
  let stid ← wr lineSize st.stid (← getWord lineSize addr) new_stid
  return { st with stid }

def setXCoreStore : Option CState := do
  let xCoreDataPresent ← wr lineSize st.xCoreDataPresent (← getWord lineSize addr) true
  return { st with xCoreDataPresent }

instance : LineState CState where
  new := new
  getTag s := s.tag
  setTag s a := { s with tag := a }
  isValid s := s.state != .I
  invalidate s := { s with state := .I, tag := 0 }
  getTag_new := rfl
  getTag_setTag _ _ := rfl
  getTag_invalidate _ := rfl

/-! ## What is meant by a word -/

/-- All that can be read of a line through an address. -/
def readAll : Option (BitVec 64) × Option (BitVec 64) × Option (BitVec 64) × Option Bool :=
  (st.getData lineSize addr, st.getStorePC lineSize addr, st.getSTID lineSize addr, st.getXCoreStore lineSize addr)

/-- Writing through `a` is defined and leaves alone what is read through `b`. -/
structure Keeps (lineSize : ℕ) (st : CState) (a b : AddrType) : Prop where
  setData : ∀ v, ∃ t, st.setData lineSize a v = some t ∧ t.readAll lineSize b = st.readAll lineSize b
  setStorePC : ∀ v, ∃ t, st.setStorePC lineSize a v = some t ∧ t.readAll lineSize b = st.readAll lineSize b
  setSTID : ∀ v, ∃ t, st.setSTID lineSize a v = some t ∧ t.readAll lineSize b = st.readAll lineSize b
  setXCoreStore : ∃ t, st.setXCoreStore lineSize a = some t ∧ t.readAll lineSize b = st.readAll lineSize b

/-- The index of an address is one of the vectors. -/
def InBounds (lineSize : ℕ) (addr : AddrType) : Prop := ∃ w, getWord lineSize addr = some w ∧ w < lineSize

/-- Words have four bytes, as in the write-combining buffer and where displaced words are written. -/
def DifferentWords (lineSize : ℕ) (a b : AddrType) : Prop :=
  a.toNat / lineSize = b.toNat / lineSize ∧ a.toNat / 4 ≠ b.toNat / 4

/-- **Right words.** Both indices are in bounds, and different words of the same line do not share anything. -/
def WordsRight (lineSize : ℕ) (a b : AddrType) : Prop :=
  InBounds lineSize a ∧ InBounds lineSize b ∧
    (DifferentWords lineSize a b → ∀ st, Keeps lineSize st a b ∧ Keeps lineSize st b a)

/-! ## Indices -/

section Index

variable {lineSize : ℕ} {a b : AddrType} {st : CState} {i j : ℕ}

/-- **The index.** It has as many bits as the line has bytes. -/
theorem getWord_eq (h : lineSize < 31) (addr : AddrType) : getWord lineSize addr = some (addr.toNat % 2 ^ lineSize) := by
  have hpow : 2 ^ lineSize ≤ 2 ^ 31 := Nat.pow_le_pow_right (by decide) h.le
  have hone : 1 ≤ 2 ^ lineSize := Nat.one_le_two_pow
  have hshift : (1#32 <<< lineSize).toNat = 2 ^ lineSize := by
    rw [BitVec.toNat_shiftLeft, Nat.shiftLeft_eq]
    show 1 * 2 ^ lineSize % 2 ^ 32 = 2 ^ lineSize
    omega
  have hmask : ((1#32 <<< lineSize) - 1).toNat = 2 ^ lineSize - 1 := by
    rw [BitVec.toNat_sub, hshift]
    show (2 ^ 32 - 1 + 2 ^ lineSize) % 2 ^ 32 = 2 ^ lineSize - 1
    omega
  have hdvd : 2 ^ lineSize ∣ 2 ^ 32 := Nat.pow_dvd_pow 2 (by omega)
  rw [getWord, wordMask, if_pos h, Option.bind_eq_bind, Option.bind_some]
  show some _ = some _
  rw [BitVec.toNat_and, hmask, Nat.and_two_pow_sub_one_eq_mod, BitVec.toNat_setWidth, Nat.mod_mod_of_dvd _ hdvd]

example : getWord 16 0x10004 = some 4 ∧ getWord 16 0x10 = some 16 := by decide

theorem getWord_none (h : ¬lineSize < 31) (addr : AddrType) : getWord lineSize addr = none := by
  rw [getWord, wordMask, if_neg h]
  rfl

/-- An index in bounds is defined by a shift of an `int`. -/
theorem inBounds_iff : InBounds lineSize a ↔ lineSize < 31 ∧ a.toNat % 2 ^ lineSize < lineSize := by
  constructor
  · rintro ⟨w, hw, hlt⟩
    by_cases h : lineSize < 31
    · rw [getWord_eq h, Option.some.injEq] at hw
      exact ⟨h, by omega⟩
    · rw [getWord_none h] at hw
      cases hw
  · rintro ⟨h, hlt⟩
    exact ⟨_, getWord_eq h a, hlt⟩

/-- Different addresses of a line have different indices. -/
theorem index_ne (hline : a.toNat / lineSize = b.toNat / lineSize) (hpos : 0 < lineSize) (hne : a.toNat ≠ b.toNat) :
    a.toNat % 2 ^ lineSize ≠ b.toNat % 2 ^ lineSize := by
  have hlt : lineSize < 2 ^ lineSize := Nat.lt_two_pow_self
  have ha := Nat.div_add_mod a.toNat lineSize
  have hb := Nat.div_add_mod b.toNat lineSize
  rw [hline] at ha
  have har := Nat.mod_lt a.toNat hpos
  have hbr := Nat.mod_lt b.toNat hpos
  intro heq
  -- Less than a line apart, they are equal if they are equal modulo more than a line.
  rcases Nat.lt_or_gt_of_ne hne with hab | hab
  · have hdvd : 2 ^ lineSize ∣ b.toNat - a.toNat := (Nat.modEq_iff_dvd' hab.le).1 heq
    have := Nat.le_of_dvd (by omega) hdvd
    omega
  · have hdvd : 2 ^ lineSize ∣ a.toNat - b.toNat := (Nat.modEq_iff_dvd' hab.le).1 heq.symm
    have := Nat.le_of_dvd (by omega) hdvd
    omega

/-- **Apart.** Writes at index `i` are not read at index `j`. -/
theorem apart_of_inBounds (ha : getWord lineSize a = some i) (hb : getWord lineSize b = some j) (hi : i < lineSize)
    (hne : j ≠ i) : Keeps lineSize st a b := by
  have hread : ∀ {α : Type} (f : ℕ → α) (v : α), rd lineSize (Function.update f i v) j = rd lineSize f j := by
    intro α f v
    rw [rd, rd, Function.update_of_ne hne]
  have hsame : ∀ t : CState, rd lineSize t.data j = rd lineSize st.data j →
      rd lineSize t.storepc j = rd lineSize st.storepc j → rd lineSize t.stid j = rd lineSize st.stid j →
      rd lineSize t.xCoreDataPresent j = rd lineSize st.xCoreDataPresent j →
      t.readAll lineSize b = st.readAll lineSize b := by
    intro t h1 h2 h3 h4
    simp only [readAll, getData, getStorePC, getSTID, getXCoreStore, hb, Option.bind_eq_bind, Option.bind_some, h1, h2,
      h3, h4]
  constructor
  · intro v
    have hset : st.setData lineSize a v = some { st with data := Function.update st.data i v } := by
      rw [setData, ha, Option.bind_eq_bind, Option.bind_some, wr_of_lt hi]
      rfl
    exact ⟨_, hset, hsame _ (hread _ _) rfl rfl rfl⟩
  · intro v
    have hset : st.setStorePC lineSize a v = some { st with storepc := Function.update st.storepc i v } := by
      rw [setStorePC, ha, Option.bind_eq_bind, Option.bind_some, wr_of_lt hi]
      rfl
    exact ⟨_, hset, hsame _ rfl (hread _ _) rfl rfl⟩
  · intro v
    have hset : st.setSTID lineSize a v = some { st with stid := Function.update st.stid i v } := by
      rw [setSTID, ha, Option.bind_eq_bind, Option.bind_some, wr_of_lt hi]
      rfl
    exact ⟨_, hset, hsame _ rfl rfl (hread _ _) rfl⟩
  · have hset : st.setXCoreStore lineSize a =
        some { st with xCoreDataPresent := Function.update st.xCoreDataPresent i true } := by
      rw [setXCoreStore, ha, Option.bind_eq_bind, Option.bind_some, wr_of_lt hi]
      rfl
    exact ⟨_, hset, hsame _ rfl rfl rfl (hread _ _)⟩

end Index

/-- **Words of a line.** They are right exactly when the shift is defined and both addresses have, in as many low
bits as the line has bytes, less than the number of bytes. -/
theorem words_right_iff {k : ℕ} (a b : AddrType) : WordsRight (2 ^ k) a b ↔
    2 ^ k < 31 ∧ a.toNat % 2 ^ 2 ^ k < 2 ^ k ∧ b.toNat % 2 ^ 2 ^ k < 2 ^ k := by
  have hpos : 0 < 2 ^ k := Nat.two_pow_pos k
  constructor
  · rintro ⟨ha, hb, -⟩
    exact ⟨(inBounds_iff.1 ha).1, (inBounds_iff.1 ha).2, (inBounds_iff.1 hb).2⟩
  · rintro ⟨h, ha, hb⟩
    refine ⟨inBounds_iff.2 ⟨h, ha⟩, inBounds_iff.2 ⟨h, hb⟩, fun hwords st => ?_⟩
    have hne : a.toNat ≠ b.toNat := by
      intro heq
      exact hwords.2 (by rw [heq])
    have hidx := index_ne hwords.1 hpos hne
    exact ⟨apart_of_inBounds (getWord_eq h a) (getWord_eq h b) ha hidx.symm,
      apart_of_inBounds (getWord_eq h b) (getWord_eq h a) hb hidx⟩

/-- Lines of 16 bytes: the first word of the second line has index 16. Lines of 32 bytes: no word has an index. -/
theorem words_not_right : ¬WordsRight (2 ^ 4) 16 20 ∧ ¬WordsRight (2 ^ 5) 0 4 := by
  constructor
  · rintro ⟨ha, -⟩
    exact absurd (inBounds_iff.1 ha).2 (by decide)
  · rintro ⟨ha, -⟩
    exact absurd (inBounds_iff.1 ha).1 (by decide)

end CState

end Esesc.Mem.VPC
