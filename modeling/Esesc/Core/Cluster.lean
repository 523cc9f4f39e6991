import Esesc.Core.InOrder
import Esesc.Core.OoO
import Mathlib.Algebra.Group.Nat.Defs

/-!
# Clusters and their functional units

What an instruction takes when it is issued and gives back later: a register of the pool, an entry of the
window of its cluster, and an entry of its functional unit (`libcore/Cluster.cpp`, `Resource.cpp`). The units
that take entries do so in `canIssue`, which also puts loads and stores into the store set and the load-store
queue. The three kinds of cluster give the entry of the window back at different moments.

The counters of the source are of 32 bits; they stay between zero and what was configured, so that integers
are the same here. The port of a unit, its latency and the requests to the cache decide when
`executing`, `executed` and `performed` are called, and have no part in what is counted.
-/

namespace Esesc.Core

open Esesc.Lib

/-- `recycleAt`. -/
inductive ClusterKind where
  | ExecutingCluster | ExecutedCluster | RetiredCluster
  deriving DecidableEq, Repr

/-- The functional units: `FURALU` and so on. -/
inductive FU where
  | RALU | Generic | Fuze | Branch
  | Load | Store | Load_noMemSpec | Store_noMemSpec | SCOORELoad | SCOOREStore
  deriving DecidableEq, Repr

/-- The section of a cluster. -/
structure ClusterConfig where
  kind : ClusterKind
  winSize : ℕ
  nRegs : ℕ

/-- The section of the core. -/
structure CpuConfig where
  scooreMemory : Bool
  noMemSpec : Bool
  maxBranches : ℕ
  maxLoads : ℕ
  maxStores : ℕ
  StoreSetSize : ℕ
  MaxROBSize : ℕ
  NoMemoryReplay : Bool
  serialize : ℕ
  cluster : ℕ → ClusterConfig

/-- A unit of a cluster serves one opcode. -/
abbrev UnitId := ℕ × InstOpcode

variable (k : CpuConfig)

/-- The switch of `buildUnit`. -/
def buildUnit : InstOpcode → FU
  | .iOpInvalid | .iRALU => .RALU
  | .iAALU | .iCALU_FPMULT | .iCALU_FPDIV | .iCALU_FPALU | .iCALU_MULT | .iCALU_DIV => .Generic
  | .iFUZE => .Fuze
  | .iBALU_LBRANCH | .iBALU_LJUMP | .iBALU_LCALL | .iBALU_RBRANCH | .iBALU_RJUMP | .iBALU_RCALL | .iBALU_RET => .Branch
  | .iLALU_LD => if k.scooreMemory then .SCOORELoad else if k.noMemSpec then .Load_noMemSpec else .Load
  | .iSALU_LL | .iSALU_SC | .iSALU_ST | .iSALU_ADDR =>
    if k.scooreMemory then .SCOOREStore else if k.noMemSpec then .Store_noMemSpec else .Store

/-- What the constructor of a unit puts into `freeEntries` or `freeBranches`, if it has them. -/
def FU.size : FU → ℕ
  | .Branch => if k.maxBranches = 0 then 2 ^ 31 - 1 else k.maxBranches
  | .Load | .Load_noMemSpec => if k.maxLoads = 0 then 256 * 1024 else k.maxLoads
  | .Store | .Store_noMemSpec => if k.maxStores = 0 then 256 * 1024 else k.maxStores
  | .RALU | .Generic | .Fuze | .SCOORELoad | .SCOOREStore => 0

/-! ## Store sets and the load-store queue -/

structure StoreSet where
  SSIT : ℕ → Option ℕ
  LFST : ℕ → Option ℕ

namespace StoreSet

def init : StoreSet := ⟨fun _ => none, fun _ => none⟩

def hashPC (size PC : ℕ) : ℕ := ((((PC >>> 2) ^^^ (PC >>> 11)) + PC) % 2 ^ 64 >>> 2) &&& (size - 1)

/-- The SSID that the instruction gets, and the last one fetched of its set, which it replaces. -/
def insert (size : ℕ) (ss : StoreSet) (PC i : ℕ) : Option ℕ × Option ℕ × StoreSet :=
  match ss.SSIT (hashPC size PC) with
  | none => (none, none, ss)
  | some SSID => (some SSID, ss.LFST SSID, { ss with LFST := Function.update ss.LFST SSID (some i) })

def remove (ss : StoreSet) (SSID : Option ℕ) (i : ℕ) : StoreSet :=
  match SSID with
  | none => ss
  | some SSID => if ss.LFST SSID = some i then { ss with LFST := Function.update ss.LFST SSID none } else ss

end StoreSet

/-- `instMap` of `LSQFull`, from words to instructions; that of `LSQNone` stays empty. -/
abbrev LSQ := List (ℕ × ℕ)

namespace LSQ

def insert (full : Bool) (lsq : LSQ) (addr i : ℕ) : LSQ := if full then lsq ++ [(addr >>> 2, i)] else lsq

def remove (full : Bool) (lsq : LSQ) (i : ℕ) : LSQ := if full then lsq.eraseP fun e => e.2 == i else lsq

end LSQ

/-! ## The state -/

/-- An instruction that comes to `addInst`, with what the units look at and the cluster that the cluster
manager has chosen for it. -/
structure Arriving where
  fetched : Fetched
  addr : ℕ
  data : ℕ
  cluster : ℕ

/-- What the units and the memory system note in the `DInst`. -/
structure Placed where
  cluster : ℕ
  SSID : Option ℕ
  performed : Bool

/-- The clusters of a core, by their number, and their units; `free` is `freeEntries` or `freeBranches`. -/
structure Clusters where
  windowSize : ℕ → ℤ
  regPool : ℕ → ℤ
  free : UnitId → ℤ
  blockUntil : UnitId → ℕ
  lsq : LSQ
  storeset : StoreSet
  placed : ℕ → Placed

namespace Clusters

def init : Clusters where
  windowSize c := (k.cluster c).winSize
  regPool c := (k.cluster c).nRegs
  free u := (buildUnit k u.2).size k
  blockUntil _ := 0
  lsq := []
  storeset := .init
  placed _ := ⟨0, none, false⟩

def delEntry (r : Clusters) (c : ℕ) : Clusters :=
  { r with windowSize := Function.update r.windowSize c (r.windowSize c + 1) }

def newEntry (r : Clusters) (c : ℕ) : Clusters :=
  { r with windowSize := Function.update r.windowSize c (r.windowSize c - 1) }

def addRegs (r : Clusters) (c : ℕ) (n : ℤ) : Clusters :=
  { r with regPool := Function.update r.regPool c (r.regPool c + n) }

def addFree (r : Clusters) (u : UnitId) (n : ℤ) : Clusters :=
  { r with free := Function.update r.free u (r.free u + n) }

end Clusters

/-! ## The units -/

/-- What `canIssue` answers: the last instruction fetched of the store set goes to the pend slots. -/
structure Answer where
  sc : StallCause
  lfs : Option ℕ
  clusters : Clusters

namespace FU

/-- What the instruction sees of the core it comes to: the clock, the kind of its `LSQ`, whether the ROB is
empty, and the number it gets. -/
structure Ask where
  globalClock : ℕ
  full : Bool
  isROBEmpty : Bool
  i : ℕ

/-- `storeset->insert(dinst); lsq->insert(dinst)`. -/
def speculate (x : Ask) (a : Arriving) (r : Clusters) : Option ℕ × Clusters :=
  let ss := r.storeset.insert k.StoreSetSize a.fetched.pc x.i
  (ss.2.1, { r with
    storeset := ss.2.2
    lsq := r.lsq.insert x.full a.addr x.i
    placed := Function.update r.placed x.i { r.placed x.i with SSID := ss.1 } })

/-- `canIssue` of the units for loads and stores that are not `SCOORE` ones. -/
def takeEntry (stall : StallCause) (insert : Clusters → Option ℕ × Clusters) (u : UnitId) (r : Clusters) : Answer :=
  if r.free u ≤ 0 then ⟨stall, none, r⟩ else ⟨.NoStall, (insert r).1, (insert r).2.addFree u (-1)⟩

/-- `FURALU::canIssue`. -/
def issueRALU (x : Ask) (a : Arriving) (u : UnitId) (r : Clusters) : Answer :=
  if a.fetched.pc = 0xf00df00d then ⟨.Suspend, none, r⟩
  else if a.fetched.pc = 0xdeaddead then
    if r.blockUntil u = 0 then
      ⟨.SyscallStall, none, { r with blockUntil := Function.update r.blockUntil u ((x.globalClock + a.data) % 2 ^ 64) }⟩
    else if r.blockUntil u ≤ x.globalClock then
      ⟨.NoStall, none, { r with blockUntil := Function.update r.blockUntil u 0 }⟩
    else ⟨.SyscallStall, none, r⟩
  else if !a.fetched.inst.hasDstRegister && !a.fetched.inst.hasSrc1Register && !a.fetched.inst.hasSrc2Register &&
      !k.scooreMemory then
    if x.isROBEmpty then ⟨.NoStall, none, r⟩ else ⟨.SyscallStall, none, r⟩
  else ⟨.NoStall, none, r⟩

/-- `FUBranch::canIssue`. -/
def issueBranch (u : UnitId) (r : Clusters) : Answer :=
  if r.free u = 0 then ⟨.OutsBranchesStall, none, r⟩ else ⟨.NoStall, none, r.addFree u (-1)⟩

def canIssue (x : Ask) (a : Arriving) (u : UnitId) (r : Clusters) : FU → Answer
  | .RALU => issueRALU k x a u r
  | .Generic | .Fuze => ⟨.NoStall, none, r⟩
  | .Branch => issueBranch u r
  | .Load => takeEntry .OutsLoadsStall (speculate k x a) u r
  | .Load_noMemSpec => takeEntry .OutsLoadsStall (fun r => (none, r)) u r
  | .Store =>
    if a.fetched.inst.isStoreAddress then ⟨.NoStall, none, r⟩
    else takeEntry .OutsStoresStall (speculate k x a) u r
  | .Store_noMemSpec =>
    if a.fetched.inst.isStoreAddress then ⟨.NoStall, none, r⟩
    else takeEntry .OutsStoresStall (fun r => (none, r)) u r
  | .SCOORELoad | .SCOOREStore => ⟨.NoStall, none, r⟩

/-- `executed`, up to the call of the cluster. -/
def executed (i : ℕ) (inst : Instruction) (u : UnitId) (r : Clusters) : FU → Clusters
  | .Branch => r.addFree u 1
  | .Load | .SCOORELoad => { r with storeset := r.storeset.remove (r.placed i).SSID i }
  | .Store | .SCOOREStore =>
    if inst.isStore then { r with storeset := r.storeset.remove (r.placed i).SSID i } else r
  | .RALU | .Generic | .Fuze | .Load_noMemSpec | .Store_noMemSpec => r

def retire (full : Bool) (i : ℕ) (inst : Instruction) (u : UnitId) (r : Clusters) : FU → Bool × Clusters
  | .RALU | .Generic | .Fuze | .Branch => (true, r)
  | .Load => (true, { r.addFree u 1 with lsq := r.lsq.remove full i })
  | .Load_noMemSpec => (true, r.addFree u 1)
  | .Store =>
    if inst.isStoreAddress then (true, r)
    else if !(r.placed i).performed then (false, r)
    else (true, { r.addFree u 1 with lsq := r.lsq.remove full i })
  | .Store_noMemSpec =>
    if inst.isStoreAddress then (true, r)
    else if !(r.placed i).performed then (false, r)
    else (true, r.addFree u 1)
  | .SCOORELoad => ((r.placed i).performed, r)
  | .SCOOREStore => (inst.isStoreAddress || (r.placed i).performed, r)

end FU

/-! ## The clusters -/

namespace Clusters

open FU

/-- `Cluster::canIssue`, on the unit of the instruction's opcode. -/
def canIssue (x : Ask) (a : Arriving) (r : Clusters) : Answer :=
  if r.regPool a.cluster ≤ 0 then ⟨.SmallREGStall, none, r⟩
  else if r.windowSize a.cluster ≤ 0 then ⟨.SmallWinStall, none, r⟩
  else (buildUnit k a.fetched.inst.opcode).canIssue k x a (a.cluster, a.fetched.inst.opcode) r

/-- `Cluster::addInst`, with what `setCluster` notes. -/
def addInst (i : ℕ) (a : Arriving) (r : Clusters) : Clusters :=
  let r := { r with placed := Function.update r.placed i { r.placed i with cluster := a.cluster, performed := false } }
  (if a.fetched.inst.hasDstRegister then r.addRegs a.cluster (-1) else r).newEntry a.cluster

/-- `executing` of the cluster. -/
def executing (i : ℕ) (r : Clusters) : Clusters :=
  match (k.cluster (r.placed i).cluster).kind with
  | .ExecutingCluster => r.delEntry (r.placed i).cluster
  | .ExecutedCluster | .RetiredCluster => r

/-- `executed` of the unit and of the cluster. -/
def executed (i : ℕ) (inst : Instruction) (r : Clusters) : Clusters :=
  let c := (r.placed i).cluster
  let r := (buildUnit k inst.opcode).executed i inst (c, inst.opcode) r
  match (k.cluster c).kind with
  | .ExecutedCluster => r.delEntry c
  | .ExecutingCluster | .RetiredCluster => r

/-- `retire` of the cluster. -/
def retire (full : Bool) (i : ℕ) (inst : Instruction) (r : Clusters) : Bool × Clusters :=
  let c := (r.placed i).cluster
  let u := (buildUnit k inst.opcode).retire full i inst (c, inst.opcode) r
  if !u.1 then (false, u.2)
  else
    let r := if inst.hasDstRegister then u.2.addRegs c 1 else u.2
    match (k.cluster c).kind with
    | .RetiredCluster => (true, r.delEntry c)
    | .ExecutingCluster | .ExecutedCluster => (true, r)

end Clusters

end Esesc.Core
