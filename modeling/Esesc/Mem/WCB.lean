import Esesc.Lib.Machine
import Esesc.Mem.VPC

/-!
# The write-combining buffer (`simu/libmem/WCB.h`)

Stores go into the entry that their address hashes to. An entry that is overwritten, by another address or
by a later store to its own, is put together as a line in which one word is set. Before a replay, the VPC
empties the buffer and should forget the lines of what was in it.

* `carries_displace_iff`: when the displaced line has the overwritten entry.
* `flushed_iff`: when a flush leaves no line of what was in the buffer.
* `run_handover_iff`: the runs in which both are so.
-/

namespace Esesc.Mem

open Esesc.Suc Esesc.Lib

inductive ValidStatus
  | INVALID
  | VALID
  | PENDING
  deriving DecidableEq

/-- The members of `WCBLine` that a write sets. -/
structure WCBLine where
  stID : ℕ → BitVec 64
  data : ℕ → BitVec 64
  storepc : ℕ → BitVec 64
  present : ℕ → Bool
  tag : AddrType
  valid : ValidStatus

/-- `sz` and `l` of the constructor: there are entries, and an `int` holds the number of words. -/
structure WCBGeometry where
  PatchSize : ℕ
  log2AddrLs : ℕ
  PatchSize_pos : 0 < PatchSize
  PatchSize_lt : PatchSize < 2 ^ 31
  log2AddrLs_lt : log2AddrLs < 31

namespace WCBGeometry

variable (g : WCBGeometry) (addr : AddrType)

def nWords : ℕ := 1 <<< g.log2AddrLs

/-- The word index of an address. -/
def calcWord : ℕ := ((addr &&& ((1#64 <<< g.log2AddrLs) - 1)) >>> 2).toNat

/-- The entry of an address. -/
def patchhash : ℕ := ((addr >>> 2) &&& BitVec.ofNat 64 (g.PatchSize - 1)).toNat

/-- The line of an address. -/
def line : AddrType := addr >>> g.log2AddrLs

/-- Every store has an entry. -/
theorem patchhash_lt : g.patchhash addr < g.PatchSize := by
  have hpos := g.PatchSize_pos
  have hlt := g.PatchSize_lt
  have hle : g.patchhash addr ≤ (BitVec.ofNat 64 (g.PatchSize - 1)).toNat := by
    rw [patchhash, BitVec.toNat_and]
    exact Nat.and_le_right
  rw [BitVec.toNat_ofNat, Nat.mod_eq_of_lt (by omega)] at hle
  omega

theorem calcWord_lt : g.calcWord addr < g.nWords := by
  have hmask := mask_lt addr (by have := g.log2AddrLs_lt; omega : g.log2AddrLs < 64)
  have hle := ushiftRight_lt hmask 2
  rw [nWords, Nat.shiftLeft_eq, Nat.one_mul]
  exact hle

end WCBGeometry

/-- What a write reads of a store. -/
structure StoreInst where
  addr : AddrType
  data : BitVec 64
  ID : BitVec 64
  pc : AddrType
  deriving DecidableEq

/-- The parallel arrays, and the line that was displaced last. -/
structure WCB where
  patchdata : ℕ → BitVec 64
  patchaddr : ℕ → AddrType
  patchid : ℕ → BitVec 64
  patchpc : ℕ → AddrType
  xCoreDataPresent : ℕ → Bool
  displaced : WCBLine

namespace WCB

variable (g : WCBGeometry) (s : WCB)

def init : WCB where
  patchdata := fun _ => 0
  patchaddr := fun _ => 0
  patchid := fun _ => 0
  patchpc := fun _ => 0
  xCoreDataPresent := fun _ => false
  displaced := {
    stID := fun _ => 0
    data := fun _ => 0
    storepc := fun _ => 0
    present := fun _ => false
    tag := 0
    valid := .INVALID }

/-- Another address is in the entry, or an older store to the same one. -/
def displaces (dinst : StoreInst) : Bool :=
  let h := g.patchhash dinst.addr
  (s.patchaddr h != dinst.addr && s.patchaddr h != 0) || (s.patchaddr h == dinst.addr && s.patchid h < dinst.ID)

/-- The line with the entry `h`, whose words are cleared and one of them set. -/
def displace (h : ℕ) : WCBLine :=
  let w := g.calcWord (s.patchdata h)
  let clear {α : Type} (zero : α) (words : ℕ → α) : ℕ → α := fun j => if j < g.nWords then zero else words j
  { stID := Function.update (clear 0 s.displaced.stID) w (s.patchid h)
    data := Function.update (clear 0 s.displaced.data) w (s.patchdata h)
    storepc := Function.update (clear 0 s.displaced.storepc) w (s.patchpc h)
    present := clear false s.displaced.present
    tag := s.patchaddr h >>> g.log2AddrLs
    valid := .VALID }

/-- The buffer after a store, and whether a displacement occurs. -/
def write (dinst : StoreInst) : WCB × Bool :=
  let h := g.patchhash dinst.addr
  let disp := s.displaces g dinst
  let s := if disp then { s with displaced := s.displace g h } else s
  ({ s with
    patchdata := Function.update s.patchdata h dinst.data
    patchaddr := Function.update s.patchaddr h dinst.addr
    patchid := Function.update s.patchid h dinst.ID
    patchpc := Function.update s.patchpc h dinst.pc
    xCoreDataPresent := Function.update s.xCoreDataPresent h false }, disp)

/-- The buffer is empty after this. The tags are collected in the argument, which is a copy of the caller's. -/
def clear (tags : List AddrType) : WCB × List AddrType :=
  ({ s with patchaddr := fun j => if j < g.PatchSize then 0 else s.patchaddr j },
    tags ++ (List.range g.PatchSize).map fun j => s.patchaddr j >>> g.log2AddrLs)

def checkSetXCoreStore (addr : AddrType) : WCB :=
  if s.patchaddr (g.patchhash addr) = addr then
    { s with xCoreDataPresent := Function.update s.xCoreDataPresent (g.patchhash addr) true }
  else s

end WCB

/-! ## The VPC -/

/-- A VPC as far as the buffer goes: its bank of lines has the organisation `org` and the sizes `geo`. -/
structure VPC where
  wcb : WCB
  VPCBank : CacheCore VPC.CState

/-- What happens to a VPC. The rest of what it does to its bank is one event, which leaves any bank. -/
inductive VPCEvent
  | write (dinst : StoreInst)
  | replayflush
  | checkSetXCoreStore (addr : AddrType)
  | bank (VPCBank : CacheCore VPC.CState)

namespace VPC

variable (g : WCBGeometry) (org : Organisation) (geo : Geometry)

/-- The line of an address is invalidated, if there is one. -/
def invalidateLine (VPCBank : CacheCore CState) (addr : AddrType) : CacheCore CState :=
  let (l, VPCBank) := VPCBank.findLine org geo addr
  match l with
  | some l => VPCBank.updLine l LineState.invalidate
  | none => VPCBank

/-- `clear` gets the vector of tags by value, so that it stays empty here. -/
def replayflush (v : VPC) : VPC :=
  let tags : List AddrType := []
  let (wcb, _) := v.wcb.clear g tags
  { wcb, VPCBank := tags.foldl (invalidateLine org geo) v.VPCBank }

def checkSetXCoreStore (v : VPC) (addr : AddrType) : VPC :=
  let wcb := v.wcb.checkSetXCoreStore g addr
  let (l, VPCBank) := v.VPCBank.findLine org geo addr
  match l with
  | some l =>
    { wcb, VPCBank := VPCBank.updLine l fun st => (st.setXCoreStore geo.lineSize addr).getD st }
  | none => { wcb, VPCBank }

def step (v : VPC) : VPCEvent → Option VPC
  | .write dinst => some { v with wcb := (v.wcb.write g dinst).1 }
  | .replayflush => some (v.replayflush g org geo)
  | .checkSetXCoreStore addr => some (v.checkSetXCoreStore g org geo addr)
  | .bank VPCBank => some { v with VPCBank }

/-- **The displaced line carries the entry `h`** of the buffer before: its line, and at its word what was stored,
with all other words empty. -/
def Carries (s : WCB) (h : ℕ) (l : WCBLine) : Prop :=
  l.tag = g.line (s.patchaddr h) ∧ l.valid = .VALID ∧ ∀ j < g.nWords,
    l.stID j = (if j = g.calcWord (s.patchaddr h) then s.patchid h else 0) ∧
    l.data j = (if j = g.calcWord (s.patchaddr h) then s.patchdata h else 0) ∧
    l.storepc j = (if j = g.calcWord (s.patchaddr h) then s.patchpc h else 0)

/-- The bank has no valid line of `addr`. -/
def Gone (VPCBank : CacheCore CState) (addr : AddrType) : Prop :=
  ∀ l, (VPCBank.findLine org geo addr).1 = some l → isValid (VPCBank.mem l) = false

/-- **Flushed.** The buffer is empty, and the lines of what was in it are gone. -/
def Flushed (v v' : VPC) : Prop :=
  (∀ h < g.PatchSize, v'.wcb.patchaddr h = 0) ∧
    ∀ h < g.PatchSize, v.wcb.patchaddr h ≠ 0 → Gone org geo v'.VPCBank (v.wcb.patchaddr h)

/-- What the events have to do. -/
def Good (v : VPC) : VPCEvent → Prop
  | .write dinst => (v.wcb.write g dinst).2 = true →
      Carries g v.wcb (g.patchhash dinst.addr) (v.wcb.write g dinst).1.displaced
  | .replayflush => Flushed g org geo v (v.replayflush g org geo)
  | _ => True

/-- The word index of the data is that of the address, or nothing but zeros was stored. -/
def SameWord (s : WCB) (h : ℕ) : Prop :=
  g.calcWord (s.patchdata h) = g.calcWord (s.patchaddr h) ∨
    (s.patchdata h = 0 ∧ s.patchid h = 0 ∧ s.patchpc h = 0)

instance (s : WCB) (h : ℕ) : Decidable (SameWord g s h) := inferInstanceAs (Decidable (_ ∨ _))

/-- A write overwrites such an entry, if any, and a flush finds no line of what is in the buffer. -/
def Lucky (v : VPC) : VPCEvent → Prop
  | .write dinst => v.wcb.displaces g dinst = true → SameWord g v.wcb (g.patchhash dinst.addr)
  | .replayflush => ∀ h < g.PatchSize, v.wcb.patchaddr h ≠ 0 → Gone org geo v.VPCBank (v.wcb.patchaddr h)
  | _ => True

/-! ## One event -/

/-- Words with one set are the same when it is the same word, or the value is that of an empty word. -/
theorem single_eq_iff {n w w' : ℕ} {x : BitVec 64} (hw : w < n) (hw' : w' < n) :
    (∀ j < n, (if j = w then x else 0) = if j = w' then x else 0) ↔ w = w' ∨ x = 0 := by
  constructor
  · intro h
    have hj := h w hw
    rw [if_pos rfl] at hj
    by_cases heq : w = w'
    · exact Or.inl heq
    · rw [if_neg heq] at hj
      exact Or.inr hj
  · rintro (rfl | rfl) j -
    · rfl
    · split <;> split <;> rfl

/-- A word of the displaced line. -/
theorem displaced_word {n w : ℕ} {x : BitVec 64} {words : ℕ → BitVec 64} {j : ℕ} (hj : j < n) :
    Function.update (fun j => if j < n then 0 else words j) w x j = if j = w then x else 0 := by
  by_cases h : j = w
  · rw [h, Function.update_self, if_pos rfl]
  · rw [Function.update_of_ne h, if_neg h, if_pos hj]

/-- **A displacement.** -/
theorem carries_displace_iff (s : WCB) (h : ℕ) : Carries g s h (s.displace g h) ↔ SameWord g s h := by
  have hw := g.calcWord_lt (s.patchdata h)
  have hw' := g.calcWord_lt (s.patchaddr h)
  have hid := single_eq_iff (x := s.patchid h) hw hw'
  have hdata := single_eq_iff (x := s.patchdata h) hw hw'
  have hpc := single_eq_iff (x := s.patchpc h) hw hw'
  have hwords : Carries g s h (s.displace g h) ↔ ∀ j < g.nWords,
      (if j = g.calcWord (s.patchdata h) then s.patchid h else 0) =
        (if j = g.calcWord (s.patchaddr h) then s.patchid h else 0) ∧
      (if j = g.calcWord (s.patchdata h) then s.patchdata h else 0) =
        (if j = g.calcWord (s.patchaddr h) then s.patchdata h else 0) ∧
      (if j = g.calcWord (s.patchdata h) then s.patchpc h else 0) =
        (if j = g.calcWord (s.patchaddr h) then s.patchpc h else 0) := by
    refine ⟨fun hc j hj => ?_, fun hall => ⟨rfl, rfl, fun j hj => ?_⟩⟩
    · have hj' := hc.2.2 j hj
      simpa only [WCB.displace, displaced_word hj] using hj'
    · simpa only [WCB.displace, displaced_word hj] using hall j hj
  -- the line has the entry at the word of its data, and should have it at that of its address
  rw [hwords, SameWord]
  constructor
  · intro hall
    rcases hid.1 fun j hj => (hall j hj).1 with h1 | h1
    · exact Or.inl h1
    · rcases hdata.1 fun j hj => (hall j hj).2.1 with h2 | h2
      · exact Or.inl h2
      · rcases hpc.1 fun j hj => (hall j hj).2.2 with h3 | h3
        · exact Or.inl h3
        · exact Or.inr ⟨h2, h1, h3⟩
  · rintro (heq | ⟨h2, h1, h3⟩) j hj
    · exact ⟨hid.2 (Or.inl heq) j hj, hdata.2 (Or.inl heq) j hj, hpc.2 (Or.inl heq) j hj⟩
    · exact ⟨hid.2 (Or.inr h1) j hj, hdata.2 (Or.inr h2) j hj, hpc.2 (Or.inr h3) j hj⟩

/-- **A flush.** -/
theorem flushed_iff (v : VPC) : Flushed g org geo v (v.replayflush g org geo) ↔
    ∀ h < g.PatchSize, v.wcb.patchaddr h ≠ 0 → Gone org geo v.VPCBank (v.wcb.patchaddr h) := by
  have hempty : ∀ h < g.PatchSize, (v.replayflush g org geo).wcb.patchaddr h = 0 := fun h hh => if_pos hh
  exact ⟨fun hf => hf.2, fun hgone => ⟨hempty, hgone⟩⟩

theorem good_iff (v : VPC) (e : VPCEvent) : Good g org geo v e ↔ Lucky g org geo v e := by
  cases e with
  | write dinst =>
    simp only [Good, Lucky]
    refine forall_congr' fun hdisp => ?_
    have hdisplaced : (v.wcb.write g dinst).1.displaced = v.wcb.displace g (g.patchhash dinst.addr) := by
      have hd : v.wcb.displaces g dinst = true := hdisp
      simp only [WCB.write, hd, if_true]
    rw [hdisplaced]
    exact carries_displace_iff g v.wcb _
  | replayflush => exact flushed_iff g org geo v
  | checkSetXCoreStore addr => exact Iff.rfl
  | bank VPCBank => exact Iff.rfl

/-! ## Runs -/

theorem along_iff (v : VPC) (es : List VPCEvent) :
    Along (step g org geo) (Good g org geo) v es ↔ Along (step g org geo) (Lucky g org geo) v es :=
  along_congr (I := fun _ => True) (fun _ _ _ _ _ => trivial) (fun v e _ => good_iff g org geo v e) trivial es

/-- **Hand-over.** In a run from an empty buffer, every displaced line carries the entry that was overwritten and
every flush forgets the lines of what was in the buffer, exactly when entries are overwritten whose data have the word
index of their address, and flushes come when there are no such lines. -/
theorem run_handover_iff (VPCBank : CacheCore CState) (es : List VPCEvent) :
    Along (step g org geo) (Good g org geo) ⟨.init, VPCBank⟩ es ↔
      Along (step g org geo) (Lucky g org geo) ⟨.init, VPCBank⟩ es :=
  along_iff g org geo _ es

/-- A buffer of 16 entries, for lines of 32 bytes. -/
def smallWCB : WCBGeometry where
  PatchSize := 16
  log2AddrLs := 5
  PatchSize_pos := by decide
  PatchSize_lt := by decide
  log2AddrLs_lt := by decide

/-- A bank of four lines of 32 bytes. -/
def smallBank : Geometry where
  size := 128
  lineSize := 32
  addrUnit := 1
  assoc := 1
  size_pow := ⟨7, by decide, rfl⟩
  lineSize_pow := ⟨5, rfl⟩
  addrUnit_pow := Geometry.byte_pow
  assoc_pow := ⟨0, rfl⟩
  addrUnit_le := by decide
  assoc_le := by decide

/-- The bank after the line of `addr` was filled. -/
def filledBank (addr : AddrType) : CacheCore CState :=
  let r := (CacheCore.new 0).fillLine .dm smallBank addr
  r.2.2.updLine r.1 fun st => { st with state := .M }

/-- Address 64 is the first word of its line. Its data 4 have the index of the second one, where a later store that
displaces them puts them. And a flush leaves the line of 64. -/
theorem not_handover : (¬Along (step smallWCB .dm smallBank) (Good smallWCB .dm smallBank) ⟨.init, .new 0⟩
      [.write ⟨64, 4, 1, 0x100⟩, .write ⟨128, 0, 2, 0x104⟩]) ∧
    ¬Along (step smallWCB .dm smallBank) (Good smallWCB .dm smallBank) ⟨.init, .new 0⟩
      [.write ⟨64, 4, 1, 0x100⟩, .bank (filledBank 64), .replayflush] := by
  rw [along_iff, along_iff]
  constructor
  · intro h
    -- The second store finds the first one in entry 0.
    have hlucky := ((along_cons_some rfl).1 ((along_cons_some rfl).1 h).2).1 (by decide)
    exact absurd hlucky (by decide)
  · intro h
    have hlucky := ((along_cons_some rfl).1 ((along_cons_some rfl).1 ((along_cons_some rfl).1 h).2).2).1
    have hgone := hlucky 0 (by decide) (by decide) 2 (by decide)
    exact absurd hgone (by decide)

end VPC

end Esesc.Mem
