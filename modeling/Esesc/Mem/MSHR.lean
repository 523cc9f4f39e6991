import Mathlib.Logic.Function.Basic
import Esesc.Suc.CacheCore

/-!
# Miss status holding registers (`simu/libmem/MSHR.{h,cpp}`)

A request that misses leaves an entry, with a callback when it has to wait for an
earlier miss. `retire` runs the next callback while it is itself still running: it is
split at that point into `retireBegin`, which says which callback to run, and
`retireEnd`, what is done after the callback has returned. The callbacks are a type
variable here; the cache says what they are.

`nFreeEntries` is an `int16_t` and wraps; `nUse` is an `int32_t`, which gets its width where it
is counted (`Accounting.lean`) and has none here. The statistics are left out.
-/

namespace Esesc.Mem

open Esesc.Suc

/-- The conversion to `int16_t`. -/
def int16 (x : ℤ) : ℤ := Int.bmod x (2 ^ 16)

/-- The arguments of `MSHR::create`, as the constructor asserts them. -/
structure MSHRConfig where
  size : ℕ
  lineSize : ℕ
  nSubEntries : ℤ
  size_pos : 0 < size
  size_lt : size < 1024 * 32

namespace MSHRConfig

variable (k : MSHRConfig)

def log2LineSize : ℕ := log2i k.lineSize
def nEntries : ℤ := k.size
def mshrSize : ℕ := (roundUpPower2 (BitVec.ofNat 32 k.size) * 4).toNat
def mshrMask : ℕ := k.mshrSize - 1

def calcLineAddr (addr : AddrType) : AddrType := addr >>> k.log2LineSize

/-- `FullMSHR::calcEntry`. -/
def calcEntry (paddr : AddrType) : ℕ :=
  let p := paddr >>> k.log2LineSize
  ((p ^^^ (p >>> 11)) &&& BitVec.ofNat 64 k.mshrMask).toNat

end MSHRConfig

variable {C : Type}

/-! ## `BlockingMSHR` and `NoMSHR` -/

/-- `OverflowField`. -/
structure OverflowField (C : Type) where
  addr : AddrType
  cb : Option C
  deriving Repr, DecidableEq

/-- The loop of `BlockingMSHR::retire` and `NoMSHR::retire`: fields without a callback are
dropped, the first callback found is run and ends the loop. -/
def popOverflow : List (OverflowField C) → Option C × List (OverflowField C)
  | [] => (none, [])
  | f :: overflow =>
    match f.cb with
    | some cb => (some cb, overflow)
    | none => popOverflow overflow

/-! ## `FullMSHR` -/

/-- `FullMSHR::EntryType`. The callback container is the chain of its callbacks. -/
structure EntryType (C : Type) where
  cc : List C
  nUse : ℤ
  deriving Repr, DecidableEq

structure FullMSHR (C : Type) where
  nFreeEntries : ℤ
  entry : ℕ → EntryType C

namespace FullMSHR

variable (k : MSHRConfig)

/-- The constructor. -/
def new : FullMSHR C := ⟨k.nEntries, fun _ => ⟨[], 0⟩⟩

def canAccept (m : FullMSHR C) (addr : AddrType) : Bool :=
  if m.nFreeEntries ≤ 0 then false
  else if k.nSubEntries ≤ (m.entry (k.calcEntry addr)).nUse then false
  else true

def canIssue (m : FullMSHR C) (addr : AddrType) : Bool :=
  if (m.entry (k.calcEntry addr)).nUse ≠ 0 then false else true

def addEntry (m : FullMSHR C) (addr : AddrType) (c : Option C) : FullMSHR C :=
  let pos := k.calcEntry addr
  let e := m.entry pos
  { nFreeEntries := int16 (m.nFreeEntries - 1)
    entry := Function.update m.entry pos ⟨e.cc ++ c.toList, e.nUse + 1⟩ }

/-- All the uses left in an entry are returned at once. -/
def release (m : FullMSHR C) (pos : ℕ) : FullMSHR C :=
  let e := m.entry pos
  { nFreeEntries := int16 (m.nFreeEntries + e.nUse)
    entry := Function.update m.entry pos { e with nUse := 0 } }

/-- One use of an entry is returned. -/
def returnUse (m : FullMSHR C) (pos : ℕ) : FullMSHR C :=
  let e := m.entry pos
  { nFreeEntries := int16 (m.nFreeEntries + 1)
    entry := Function.update m.entry pos { e with nUse := e.nUse - 1 } }

/-- `retire` up to `callNext`: the callback to run, if any. -/
def retireBegin (m : FullMSHR C) (addr : AddrType) : Option C × FullMSHR C :=
  let pos := k.calcEntry addr
  if (m.entry pos).nUse = 0 then (none, m)
  else
    let m := m.returnUse pos
    match (m.entry pos).cc with
    | [] => (none, m.release pos)
    | cb :: cc => (some cb, { m with entry := Function.update m.entry pos { m.entry pos with cc := cc } })

/-- `retire` after the callback has returned. -/
def retireEnd (m : FullMSHR C) (addr : AddrType) : FullMSHR C :=
  let pos := k.calcEntry addr
  match (m.entry pos).cc with
  | [] => m.release pos
  | _ :: _ => m

end FullMSHR

/-! ## `MSHR` -/

inductive MSHR (C : Type) where
  | blocking (overflow : List (OverflowField C))
  | none (overflow : List (OverflowField C))
  | full (m : FullMSHR C)

/-- The `type` of the configuration; any name but these gives a `full` one. -/
inductive MSHRType where
  | blocking
  | none
  | full
  deriving Repr, DecidableEq

namespace MSHR

variable (k : MSHRConfig)

def create : MSHRType → MSHR C
  | .blocking => .blocking []
  | .none => .none []
  | .full => .full (.new k)

def canAccept : MSHR C → AddrType → Bool
  | .blocking overflow, _ => overflow.isEmpty
  | .none _, _ => true
  | .full m, addr => m.canAccept k addr

def canIssue : MSHR C → AddrType → Bool
  | .blocking overflow, _ => overflow.isEmpty
  | .none _, _ => true
  | .full m, addr => m.canIssue k addr

def addEntry : MSHR C → AddrType → Option C → MSHR C
  | .blocking overflow, addr, c => .blocking (overflow ++ [⟨addr, c⟩])
  | .none overflow, addr, c => .none (overflow ++ [⟨addr, c⟩])
  | .full m, addr, c => .full (m.addEntry k addr c)

def retireBegin : MSHR C → AddrType → Option C × MSHR C
  | .blocking overflow, _ => let r := popOverflow overflow; (r.1, .blocking r.2)
  | .none overflow, _ => let r := popOverflow overflow; (r.1, .none r.2)
  | .full m, addr => let r := m.retireBegin k addr; (r.1, .full r.2)

/-- Nothing is left to do in the two other classes, which return right after the call. -/
def retireEnd : MSHR C → AddrType → MSHR C
  | .blocking overflow, _ => .blocking overflow
  | .none overflow, _ => .none overflow
  | .full m, addr => .full (m.retireEnd k addr)

/-- How many `retire` calls can be inside one another: one for each parked callback, and
the one that finds none. -/
def depth : MSHR C → ℕ
  | .blocking overflow | .none overflow => (overflow.filterMap (·.cb)).length + 1
  | .full m => ((List.range k.mshrSize).map fun p => (m.entry p).cc.length).sum + 1

end MSHR

end Esesc.Mem
