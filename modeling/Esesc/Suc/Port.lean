import Mathlib.Data.List.Basic

/-!
# Ports (`misc/libsuc/Port.cpp`)

A port hands out the cycles at which its users may start. `PortNPipe` is the
general one: `nUnits` units, each busy for `ocp` cycles per use. The others are
the special cases `PortGeneric::create` prefers because they are cheaper.

Every method reads `globalClock`, which is an argument here. Cycles are counted in
`ℕ`, so a port never wraps. The `avgTime` histogram is left out: no method reads it.
-/

namespace Esesc.Suc

/-- `PortUnlimited`: never busy. `lTime` is written by `lock4nCycles` and read by
nobody else. -/
structure PortUnlimited where
  lTime : ℕ
  deriving Repr, DecidableEq

namespace PortUnlimited

def nextSlot (p : PortUnlimited) (globalClock : ℕ) : ℕ × PortUnlimited := (globalClock, p)

def occupySlots (p : PortUnlimited) (globalClock _nSlots : ℕ) : ℕ × PortUnlimited :=
  (globalClock, p)

def calcNextSlot (_p : PortUnlimited) (globalClock : ℕ) : ℕ := globalClock

def lock4nCycles (p : PortUnlimited) (globalClock clks : ℕ) : PortUnlimited :=
  ⟨(if p.lTime < globalClock then globalClock else p.lTime) + clks⟩

end PortUnlimited

/-- `PortFullyPipe`: one unit, occupancy one. -/
structure PortFullyPipe where
  lTime : ℕ
  deriving Repr, DecidableEq

namespace PortFullyPipe

def new (globalClock : ℕ) : PortFullyPipe := ⟨globalClock⟩

def nextSlot (p : PortFullyPipe) (globalClock : ℕ) : ℕ × PortFullyPipe :=
  let lTime := if p.lTime < globalClock then globalClock else p.lTime
  (lTime, ⟨lTime + 1⟩)

def occupySlots (p : PortFullyPipe) (globalClock nSlots : ℕ) : ℕ × PortFullyPipe :=
  let lTime := if p.lTime < globalClock then globalClock else p.lTime
  (lTime, ⟨lTime + nSlots⟩)

def calcNextSlot (p : PortFullyPipe) (globalClock : ℕ) : ℕ :=
  if p.lTime < globalClock then globalClock else p.lTime

def lock4nCycles (p : PortFullyPipe) (globalClock clks : ℕ) : PortFullyPipe :=
  ⟨(if p.lTime < globalClock then globalClock else p.lTime) + clks⟩

end PortFullyPipe

/-- `PortFullyNPipe`: several units, occupancy one. `freeUnits` of them can still
start at `lTime`. -/
structure PortFullyNPipe where
  nUnitsMinusOne : ℕ
  freeUnits : ℕ
  lTime : ℕ
  deriving Repr, DecidableEq

namespace PortFullyNPipe

def new (nFU globalClock : ℕ) : PortFullyNPipe := ⟨nFU - 1, nFU, globalClock⟩

def nextSlot (p : PortFullyNPipe) (globalClock : ℕ) : ℕ × PortFullyNPipe :=
  if p.lTime < globalClock then
    (globalClock, { p with lTime := globalClock, freeUnits := p.nUnitsMinusOne })
  else if 0 < p.freeUnits then
    (p.lTime, { p with freeUnits := p.freeUnits - 1 })
  else
    (p.lTime + 1, { p with lTime := p.lTime + 1, freeUnits := p.nUnitsMinusOne })

def occupySlots (p : PortFullyNPipe) (globalClock nSlots : ℕ) : ℕ × PortFullyNPipe :=
  let t := if p.lTime < globalClock then globalClock else p.lTime
  (t, { p with lTime := t + nSlots / (p.nUnitsMinusOne + 1) })

def calcNextSlot (p : PortFullyNPipe) (globalClock : ℕ) : ℕ :=
  if p.lTime < globalClock then globalClock
  else p.lTime + (if p.freeUnits = 0 then 1 else 0)

def lock4nCycles (p : PortFullyNPipe) (globalClock clks : ℕ) : PortFullyNPipe :=
  let t := if p.lTime < globalClock then globalClock else p.lTime
  { p with lTime := t + clks, freeUnits := p.nUnitsMinusOne + 1 }

end PortFullyNPipe

/-- `PortPipe`: one unit, any occupancy. -/
structure PortPipe where
  ocp : ℕ
  lTime : ℕ
  deriving Repr, DecidableEq

namespace PortPipe

def new (occ globalClock : ℕ) : PortPipe :=
  ⟨occ, if occ < globalClock then globalClock - occ else 0⟩

def nextSlot (p : PortPipe) (globalClock : ℕ) : ℕ × PortPipe :=
  let st := if p.lTime < globalClock then globalClock else p.lTime
  (st, { p with lTime := st + p.ocp })

def occupySlots (p : PortPipe) (globalClock nSlots : ℕ) : ℕ × PortPipe :=
  let t := if p.lTime < globalClock then globalClock else p.lTime
  (t, { p with lTime := t + p.ocp * nSlots })

def calcNextSlot (p : PortPipe) (globalClock : ℕ) : ℕ :=
  if p.lTime < globalClock then globalClock else p.lTime

def lock4nCycles (p : PortPipe) (globalClock clks : ℕ) : PortPipe :=
  let t := if p.lTime < globalClock then globalClock else p.lTime
  { p with lTime := t + clks }

end PortPipe

/-- `PortNPipe`: the general port. `portBusyUntil` has one entry per unit. -/
structure PortNPipe where
  ocp : ℕ
  portBusyUntil : List ℕ
  deriving Repr, DecidableEq

namespace PortNPipe

def new (nFU occ globalClock : ℕ) : PortNPipe := ⟨occ, List.replicate nFU globalClock⟩

/-- Where the loop of `nextSlot` ends: at the first idle unit, or, when no unit is
idle, at the unit that frees first. -/
inductive Found where
  | idle (port : ℕ)
  | busy (bufPort bufTime : ℕ)
  deriving Repr, DecidableEq

/-- The loop of `nextSlot`, over the units from `i` on. -/
def search (globalClock : ℕ) : List ℕ → ℕ → ℕ → ℕ → Found
  | [], _, bufPort, bufTime => .busy bufPort bufTime
  | b :: bs, i, bufPort, bufTime =>
    if b < globalClock then .idle i
    else if b < bufTime then search globalClock bs (i + 1) i b
    else search globalClock bs (i + 1) bufPort bufTime

/-- `nextSlot(int32_t occupancy)`. -/
def nextSlotOcc (p : PortNPipe) (globalClock occupancy : ℕ) : ℕ × PortNPipe :=
  match p.portBusyUntil with
  | [] => (globalClock, p) -- no unit: `create` makes a `PortUnlimited` instead
  | b :: bs =>
    if b < globalClock then
      (globalClock, { p with portBusyUntil := (globalClock + occupancy) :: bs })
    else
      match search globalClock bs 1 0 b with
      | .idle i =>
        (globalClock, { p with portBusyUntil := (b :: bs).set i (globalClock + occupancy) })
      | .busy bufPort bufTime =>
        (bufTime, { p with portBusyUntil := (b :: bs).modify bufPort (· + occupancy) })

def nextSlot (p : PortNPipe) (globalClock : ℕ) : ℕ × PortNPipe :=
  p.nextSlotOcc globalClock p.ocp

/-- The calls of `nextSlot` that follow the first one in `occupySlots`. -/
def repeatSlot (globalClock : ℕ) : ℕ → PortNPipe → PortNPipe
  | 0, p => p
  | k + 1, p => repeatSlot globalClock k (p.nextSlot globalClock).2

def occupySlots (p : PortNPipe) (globalClock nSlots : ℕ) : ℕ × PortNPipe :=
  let r := p.nextSlot globalClock
  (r.1, repeatSlot globalClock (nSlots - 1) r.2)

/-- The loop of `calcNextSlot`: the earliest time any unit frees. -/
def firsttime : List ℕ → ℕ → ℕ
  | [], t => t
  | b :: bs, t => firsttime bs (if b < t then b else t)

def calcNextSlot (p : PortNPipe) (globalClock : ℕ) : ℕ :=
  match p.portBusyUntil with
  | [] => globalClock
  | b :: bs => if firsttime bs b < globalClock then globalClock else firsttime bs b

def lock4nCycles (p : PortNPipe) (globalClock clks : ℕ) : PortNPipe :=
  let cns := p.calcNextSlot globalClock + clks
  { p with portBusyUntil := p.portBusyUntil.map fun b => if b < cns then cns else b }

end PortNPipe

/-- A port of any class, as the users of `PortGeneric` see it. -/
inductive PortGeneric where
  | unlimited (p : PortUnlimited)
  | fullyPipe (p : PortFullyPipe)
  | fullyNPipe (p : PortFullyNPipe)
  | pipe (p : PortPipe)
  | nPipe (p : PortNPipe)
  deriving Repr, DecidableEq

namespace PortGeneric

/-- `PortGeneric::create`. -/
def create (nUnits occ globalClock : ℕ) : PortGeneric :=
  if occ = 0 ∨ nUnits = 0 then .unlimited ⟨0⟩ -- the constructor leaves `lTime` unset
  else if occ = 1 then
    if nUnits = 1 then .fullyPipe (.new globalClock) else .fullyNPipe (.new nUnits globalClock)
  else
    if nUnits = 1 then .pipe (.new occ globalClock) else .nPipe (.new nUnits occ globalClock)

def nextSlot (p : PortGeneric) (globalClock : ℕ) : ℕ × PortGeneric :=
  match p with
  | .unlimited p => ((p.nextSlot globalClock).1, .unlimited (p.nextSlot globalClock).2)
  | .fullyPipe p => ((p.nextSlot globalClock).1, .fullyPipe (p.nextSlot globalClock).2)
  | .fullyNPipe p => ((p.nextSlot globalClock).1, .fullyNPipe (p.nextSlot globalClock).2)
  | .pipe p => ((p.nextSlot globalClock).1, .pipe (p.nextSlot globalClock).2)
  | .nPipe p => ((p.nextSlot globalClock).1, .nPipe (p.nextSlot globalClock).2)

def calcNextSlot (p : PortGeneric) (globalClock : ℕ) : ℕ :=
  match p with
  | .unlimited p => p.calcNextSlot globalClock
  | .fullyPipe p => p.calcNextSlot globalClock
  | .fullyNPipe p => p.calcNextSlot globalClock
  | .pipe p => p.calcNextSlot globalClock
  | .nPipe p => p.calcNextSlot globalClock

end PortGeneric

end Esesc.Suc
