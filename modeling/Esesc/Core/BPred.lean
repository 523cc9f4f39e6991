import Esesc.Core.Instruction
import Esesc.Suc.CacheCore

/-!
# Branch prediction

The predictors of `libcore/BPred.{h,cpp}`: a return address stack (`BPRas`), a target buffer
(`BPBTB`) and the eleven direction predictors that sit on a target buffer of their own.
`BPredictor::predict` asks the stack first and the predictor second. Each `predict` takes
`doUpdate`, and does with it what the source does.

Most direction predictors end alike: a wrong direction is a miss, a right one that is taken is
up to the target buffer (`resolve`). The two O-GEHL predictors share their counters and their
training (`Gehl`). History lengths come out of floating-point powers in the constructors; here
they are fields. Statistics are left out, and so is the scratch array `T` of `geoidx`, of which
it reads only what it has written in the same call.
-/

namespace Esesc.Core

open Esesc.Suc

inductive PredType where
  | CorrectPrediction
  | NoPrediction
  | NoBTBPrediction
  | MissPrediction
  deriving DecidableEq, Repr

abbrev HistoryType := BitVec 64

/-- What the predictors look at in a control instruction. -/
structure CtrlInst where
  pc : AddrType
  addr : AddrType
  inst : Instruction
  deriving DecidableEq, Repr

/-- `DInst::isTaken`. -/
def CtrlInst.isTaken (d : CtrlInst) : Bool := d.addr != 0

/-- `BPred::calcHist`; `shift` is `bpred4CycleAddrShift`. -/
def calcHist (shift : ℕ) (pc : AddrType) : HistoryType :=
  let cid := pc >>> 2
  let cid := cid >>> shift
  (cid >>> 17) ^^^ cid

/-! ## Saturating counters (`libsuc/SCTable`) -/

structure SCTable where
  sizeMask : BitVec 64
  Saturate : ℕ
  MaxValue : ℕ
  table : ℕ → ℕ

namespace SCTable

/-- The constructor fills the table with alternating values around the threshold. -/
def new (size bits : ℕ) : SCTable :=
  let saturate := if bits > 1 then 2 ^ (bits - 1) else 1
  { sizeMask := BitVec.ofNat 64 (size - 1)
    Saturate := saturate
    MaxValue := 2 ^ bits - 1
    table := fun cnt => if cnt % 2 = 0 then 1 else saturate - 1 }

/-- `cid & sizeMask`; the argument is a `uint32_t`. -/
def slot (t : SCTable) (cid : HistoryType) : ℕ := ((cid.setWidth 32).setWidth 64 &&& t.sizeMask).toNat

/-- `predict(cid)`. -/
def predict (t : SCTable) (cid : HistoryType) : Bool := t.Saturate ≤ t.table (t.slot cid)

/-- `update(cid, taken)`. -/
def update (t : SCTable) (cid : HistoryType) (taken : Bool) : SCTable :=
  let entry := t.table (t.slot cid)
  let entry := if taken then (if entry < t.MaxValue then entry + 1 else entry) else entry - 1
  { t with table := Function.update t.table (t.slot cid) entry }

/-- `predict(cid, taken)`: the prediction before the update. -/
def predictUpdate (t : SCTable) (cid : HistoryType) (taken : Bool) : Bool × SCTable :=
  (t.predict cid, t.update cid taken)

def reset (t : SCTable) (cid : HistoryType) (taken : Bool) : SCTable :=
  { t with table := Function.update t.table (t.slot cid) (if taken then t.Saturate else t.Saturate - 1) }

/-- The two overloads of `predict`, as the predictors choose between them. -/
def lookup (t : SCTable) (cid : HistoryType) (taken doUpdate : Bool) : Bool × SCTable :=
  if doUpdate then t.predictUpdate cid taken else (t.predict cid, t)

end SCTable

/-! ## Return address stack -/

/-- `stack` is null when `rasSize` is zero. -/
structure BPRas where
  rasSize : ℕ
  stack : ℕ → AddrType
  index : ℕ

namespace BPRas

/-- The index one below, around the end. -/
def below (r : BPRas) : ℕ := if r.index = 0 then r.rasSize - 1 else r.index - 1

/-- `(stack[i]&~1) == (dinst->getAddr()&~1)`. -/
def targetAt (r : BPRas) (i : ℕ) (d : CtrlInst) : Bool := r.stack i &&& ~~~1#64 == d.addr &&& ~~~1#64

def predict (r : BPRas) (d : CtrlInst) (doUpdate : Bool) : PredType × BPRas :=
  if d.inst.isFuncRet then
    if r.rasSize = 0 then (.CorrectPrediction, r)
    else
      let r := if doUpdate then { r with index := r.below } else r
      (if r.targetAt r.index d then .CorrectPrediction else .MissPrediction, r)
  else if d.inst.isFuncCall ∧ r.rasSize ≠ 0 ∧ doUpdate then
    (.NoPrediction, { r with
      stack := Function.update r.stack r.index (d.pc + 4)
      index := if r.index + 1 ≥ r.rasSize then 0 else r.index + 1 })
  else (.NoPrediction, r)

end BPRas

/-! ## Branch target buffer -/

/-- `BTBState`: a line with a target. -/
structure BTBState extends StateGeneric where
  inst : AddrType
  deriving DecidableEq, Repr

instance : LineState BTBState where
  new := { toStateGeneric := LineState.new, inst := 0 }
  getTag s := getTag s.toStateGeneric
  setTag s a := { s with toStateGeneric := setTag s.toStateGeneric a }
  isValid s := isValid s.toStateGeneric
  invalidate s := { s with toStateGeneric := invalidate s.toStateGeneric }
  getTag_new := rfl
  getTag_setTag _ _ := rfl
  getTag_invalidate _ := rfl

/-- `data` is null when the buffer is an oracle. -/
structure BPBTB where
  shift : ℕ
  org : Organisation
  geom : Geometry
  data : Option (CacheCore BTBState)

namespace BPBTB

/-- The key is kept in a `uint32_t`. -/
def key (b : BPBTB) (d : CtrlInst) : AddrType := ((calcHist b.shift d.pc).setWidth 32).setWidth 64

/-- `fillLine(key)` and the new target; with the target the line had before. -/
def fill (b : BPBTB) (c : CacheCore BTBState) (d : CtrlInst) : AddrType × CacheCore BTBState :=
  let r := c.fillLine b.org b.geom (b.key d)
  ((r.2.2.mem r.1).inst, r.2.2.updLine r.1 fun l => { l with inst := d.addr })

def updateOnly (b : BPBTB) (d : CtrlInst) : BPBTB :=
  match b.data with
  | none => b
  | some c => if d.isTaken then { b with data := some (b.fill c d).2 } else b

def predict (b : BPBTB) (d : CtrlInst) (doUpdate : Bool) : PredType × BPBTB :=
  match b.data with
  | none => (if d.isTaken then .CorrectPrediction else .NoBTBPrediction, b)
  | some c =>
    if !d.isTaken || !doUpdate then
      let r := c.findLine b.org b.geom (b.key d)
      let pred := match r.1 with
        | none => .NoBTBPrediction
        | some l => if (c.mem l).inst = d.addr then .CorrectPrediction else .NoBTBPrediction
      (pred, { b with data := some r.2 })
    else
      let r := b.fill c d
      (if r.1 = d.addr then .CorrectPrediction else .NoBTBPrediction, { b with data := some r.2 })

end BPBTB

/-- The common end of the table predictors, once the direction is predicted. -/
def resolve (btb : BPBTB) (d : CtrlInst) (ptaken doUpdate : Bool) : PredType × BPBTB :=
  if d.isTaken ≠ ptaken then (.MissPrediction, if doUpdate then btb.updateOnly d else btb)
  else if ptaken then btb.predict d doUpdate else (.CorrectPrediction, btb)

/-! ## Predictors without tables -/

def oraclePredict (btb : BPBTB) (d : CtrlInst) (doUpdate : Bool) : PredType × BPBTB :=
  if !d.isTaken then (.CorrectPrediction, btb) else btb.predict d doUpdate

def takenPredict (btb : BPBTB) (d : CtrlInst) (doUpdate : Bool) : PredType × BPBTB :=
  if d.inst.isJump || d.isTaken then btb.predict d doUpdate else (.MissPrediction, btb)

def notTakenPredict (btb : BPBTB) (d : CtrlInst) (doUpdate : Bool) : PredType × BPBTB :=
  if d.inst.isJump then btb.predict d doUpdate
  else (if d.isTaken then .MissPrediction else .CorrectPrediction, btb)

/-- Backward branches are predicted as taken (loops). -/
def notTakenEnhancedPredict (btb : BPBTB) (d : CtrlInst) (doUpdate : Bool) : PredType × BPBTB :=
  if d.inst.isJump then btb.predict d doUpdate
  else if d.isTaken then
    if d.addr < d.pc then btb.predict d doUpdate else (.MissPrediction, btb)
  else (.CorrectPrediction, btb)

/-! ## Predictors with tables -/

/-- `(iID>>2 & 1)^(taken?1:0)`, the bit that enters a history. -/
def histBit (iID : HistoryType) (taken : Bool) : HistoryType := (iID >>> 2 &&& 1) ^^^ (if taken then 1 else 0)

/-- `((h ^ iID) & mask) | (iID << size)`, the index a history and an instruction share. -/
def histIndex (h iID mask : HistoryType) (size : ℕ) : HistoryType := ((h ^^^ iID) &&& mask) ||| (iID <<< size)

structure BP2bit where
  btb : BPBTB
  table : SCTable

def BP2bit.direction (p : BP2bit) (d : CtrlInst) (doUpdate : Bool) : Bool × BP2bit :=
  let r := p.table.lookup (calcHist p.btb.shift d.pc) d.isTaken doUpdate
  (r.1, { p with table := r.2 })

structure BP2level where
  btb : BPBTB
  l1SizeMask : BitVec 64
  historySize : ℕ
  historyMask : HistoryType
  globalTable : SCTable
  historyTable : ℕ → HistoryType

def BP2level.direction (p : BP2level) (d : CtrlInst) (doUpdate : Bool) : Bool × BP2level :=
  let taken := d.isTaken
  let iID := calcHist p.btb.shift d.pc
  let l1Index := ((iID &&& p.l1SizeMask).setWidth 16).toNat
  let l2Index := p.historyTable l1Index
  let historyTable :=
    if doUpdate then
      Function.update p.historyTable l1Index (((l2Index <<< 1) ||| histBit iID taken) &&& p.historyMask)
    else p.historyTable
  let r := p.globalTable.lookup (histIndex l2Index iID p.historyMask p.historySize) taken doUpdate
  (r.1, { p with historyTable := historyTable, globalTable := r.2 })

structure BPHybrid where
  btb : BPBTB
  historySize : ℕ
  historyMask : HistoryType
  globalTable : SCTable
  ghr : HistoryType
  localTable : SCTable
  metaTable : SCTable

/-- The meta table learns only where the two others disagree. -/
def BPHybrid.direction (p : BPHybrid) (d : CtrlInst) (doUpdate : Bool) : Bool × BPHybrid :=
  let taken := d.isTaken
  let iID := calcHist p.btb.shift d.pc
  let l2Index := histIndex p.ghr iID p.historyMask p.historySize
  let ghr := if doUpdate then ((p.ghr <<< 1) ||| histBit iID taken) &&& p.historyMask else p.ghr
  let globalR := p.globalTable.lookup l2Index taken doUpdate
  let localR := p.localTable.lookup iID taken doUpdate
  let metaR :=
    if !doUpdate then (p.metaTable.predict l2Index, p.metaTable)
    else if globalR.1 = taken ∧ localR.1 ≠ taken then p.metaTable.predictUpdate l2Index false
    else if globalR.1 ≠ taken ∧ localR.1 = taken then p.metaTable.predictUpdate l2Index true
    else (p.metaTable.predict l2Index, p.metaTable)
  (if metaR.1 then localR.1 else globalR.1,
    { p with ghr := ghr, globalTable := globalR.2, localTable := localR.2, metaTable := metaR.2 })

structure BP2BcgSkew where
  btb : BPBTB
  BIM : SCTable
  G0 : SCTable
  G0HistorySize : ℕ
  G0HistoryMask : HistoryType
  G1 : SCTable
  G1HistorySize : ℕ
  G1HistoryMask : HistoryType
  metaTable : SCTable
  MetaHistorySize : ℕ
  MetaHistoryMask : HistoryType
  history : HistoryType

namespace BP2BcgSkew

/-- The vote of the three tables. -/
def gskew (bim g0 g1 : Bool) : Bool := (g0.toNat + g1.toNat + bim.toNat) ≥ 2

/-- The tables after a wrong direction; the history is not shifted. -/
def learnMiss (p : BP2BcgSkew) (iID metaIndex g0Index g1Index : HistoryType) (taken : Bool) : BP2BcgSkew :=
  let p := { p with BIM := p.BIM.update iID taken, G0 := p.G0.update g0Index taken, G1 := p.G1.update g1Index taken }
  let bimOut := p.BIM.predict iID
  let gskewOut := gskew bimOut (p.G0.predict g0Index) (p.G1.predict g1Index)
  { p with metaTable :=
      if bimOut ≠ gskewOut then p.metaTable.update metaIndex (bimOut == taken)
      else p.metaTable.reset metaIndex (bimOut == taken) }

/-- The tables after a right direction: partial update. -/
def learnHit (p : BP2BcgSkew) (iID metaIndex g0Index g1Index : HistoryType) (taken : Bool) : BP2BcgSkew :=
  let metaOut := p.metaTable.predict metaIndex
  let bimOut := p.BIM.predict iID
  let g0Out := p.G0.predict g0Index
  let g1Out := p.G1.predict g1Index
  { p with
    BIM := if metaOut ∨ bimOut = taken then p.BIM.update iID taken else p.BIM
    G0 := if ¬metaOut ∧ g0Out = taken then p.G0.update g0Index taken else p.G0
    G1 := if ¬metaOut ∧ g1Out = taken then p.G1.update g1Index taken else p.G1
    metaTable :=
      if bimOut ≠ gskew bimOut g0Out g1Out then p.metaTable.update metaIndex (bimOut == taken)
      else p.metaTable
    history := p.history <<< 1 ||| histBit iID taken }

def direction (p : BP2BcgSkew) (d : CtrlInst) (doUpdate : Bool) : Bool × BP2BcgSkew :=
  let iID := calcHist p.btb.shift d.pc
  let taken := d.isTaken
  let metaIndex := ((p.history ^^^ iID) &&& p.MetaHistoryMask) ||| iID <<< p.MetaHistorySize
  let g0Index := ((p.history ^^^ (iID >>> 2)) &&& p.G0HistoryMask) ||| iID <<< p.G0HistorySize
  let g1Index := ((p.history ^^^ (iID >>> 4)) &&& p.G1HistoryMask) ||| iID <<< p.G1HistorySize
  let bimOut := p.BIM.predict iID
  let gskewOut := gskew bimOut (p.G0.predict g0Index) (p.G1.predict g1Index)
  let ptaken := if p.metaTable.predict metaIndex then bimOut else gskewOut
  (ptaken,
    if !doUpdate then p
    else if ptaken ≠ taken then p.learnMiss iID metaIndex g0Index g1Index taken
    else p.learnHit iID metaIndex g0Index g1Index taken)

end BP2BcgSkew

structure BPyags where
  btb : BPBTB
  historySize : ℕ
  historyMask : HistoryType
  table : SCTable
  ctableTaken : SCTable
  ctableNotTaken : SCTable
  ghr : HistoryType
  CacheTaken : ℕ → BitVec 8
  CacheTakenMask : HistoryType
  CacheTakenTagMask : HistoryType
  CacheNotTaken : ℕ → BitVec 8
  CacheNotTakenMask : HistoryType
  CacheNotTakenTagMask : HistoryType

/-- The choice table is overridden by the cache of the other direction. On a miss of the
not-taken cache the counter is trained under `iID`, on one of the taken cache under the history. -/
def BPyags.direction (p : BPyags) (d : CtrlInst) (doUpdate : Bool) : Bool × BPyags :=
  let taken := d.isTaken
  let iID := calcHist p.btb.shift d.pc
  let iIDHist := histIndex p.ghr iID p.historyMask p.historySize
  let ghr := if doUpdate then ((p.ghr <<< 1) ||| histBit iID taken) &&& p.historyMask else p.ghr
  let choiceR := p.table.lookup iID taken doUpdate
  let p := { p with ghr := ghr, table := choiceR.2 }
  if choiceR.1 then
    let cacheIndex := (iIDHist &&& p.CacheNotTakenMask).toNat
    let tag := iID &&& p.CacheNotTakenTagMask
    let cache := Function.update p.CacheNotTaken cacheIndex (tag.setWidth 8)
    if (p.CacheNotTaken cacheIndex).setWidth 64 = tag then
      let r := p.ctableNotTaken.lookup iIDHist taken doUpdate
      (r.1, { p with CacheNotTaken := if doUpdate then cache else p.CacheNotTaken, ctableNotTaken := r.2 })
    else if doUpdate ∧ taken = false then
      (true, { p with CacheNotTaken := cache, ctableNotTaken := p.ctableNotTaken.update iID taken })
    else (true, p)
  else
    let cacheIndex := (iIDHist &&& p.CacheTakenMask).toNat
    let tag := iID &&& p.CacheTakenTagMask
    let cache := Function.update p.CacheTaken cacheIndex (tag.setWidth 8)
    if (p.CacheTaken cacheIndex).setWidth 64 = tag then
      let r := p.ctableTaken.lookup iIDHist taken doUpdate
      (r.1, { p with CacheTaken := if doUpdate then cache else p.CacheTaken, ctableTaken := r.2 })
    else if doUpdate ∧ taken = true then
      (false, { p with CacheTaken := cache, ctableTaken := p.ctableTaken.update iIDHist taken })
    else (false, p)

/-! ## O-GEHL -/

/-- What a `signed char` keeps of an `int`. -/
def toChar (c : ℤ) : ℤ := Int.bmod c 256

/-- What the two O-GEHL predictors share. `pred[i][j]` are counters, each in a `signed char`. -/
structure Gehl where
  mtables : ℕ
  THETA : ℤ
  MAXTHETA : ℤ
  THETAUP : ℤ
  PREDUP : ℤ
  TC : ℤ
  AC : ℤ
  miniTag : ℤ
  MINITAG : ℕ → ℤ
  histLength : ℕ → ℤ
  usedHistLength : ℕ → ℤ
  pred : ℕ → ℕ → ℤ

namespace Gehl

/-- The sum `S` over the tables, at the indices `iID`. -/
def sum (g : Gehl) (iID : ℕ → ℕ) : ℤ :=
  (List.range g.mtables).foldl (fun S i => S + g.pred i (iID i)) (g.mtables / 2 : ℕ)

/-- `S < THETA && S >= -THETA`. -/
def lowConfidence (g : Gehl) (S : ℤ) : Bool := S < g.THETA && S ≥ -g.THETA

/-- The threshold follows the mispredictions. -/
def updateTheta (g : Gehl) (S : ℤ) (taken : Bool) : Gehl :=
  let ptaken := decide (0 ≤ S)
  if taken ≠ ptaken then
    let g := { g with TC := g.TC + 1 }
    if g.TC > g.THETAUP - 1 then
      if g.THETA < g.MAXTHETA then { g with TC := 0, THETA := g.THETA + 1 } else { g with TC := g.THETAUP - 1 }
    else g
  else if g.lowConfidence S then
    let g := { g with TC := g.TC - 1 }
    if g.TC < -g.THETAUP then
      if g.THETA > 0 then { g with TC := 0, THETA := g.THETA - 1 } else { g with TC := -g.THETAUP }
    else g
  else g

/-- The counters move towards the outcome. -/
def updateTables (g : Gehl) (iID : ℕ → ℕ) (taken : Bool) : Gehl :=
  { g with pred := (List.range g.mtables).foldl (fun pred i =>
      let c := pred i (iID i)
      let c :=
        if taken then (if c < g.PREDUP - 1 then toChar (c + 1) else c)
        else (if c > -g.PREDUP then toChar (c - 1) else c)
      Function.update pred i (Function.update (pred i) (iID i) c)) g.pred }

/-- The lengths of tables 6, 4 and 2. -/
def setLengths (g : Gehl) (l6 l4 l2 : ℤ) : Gehl :=
  { g with usedHistLength :=
      Function.update (Function.update (Function.update g.usedHistLength 6 l6) 4 l4) 2 l2 }

/-- Long or short histories, by how often the tag of the last table is wrong. -/
def updateLengths (g : Gehl) (iID : ℕ → ℕ) (pcBit : ℤ) (miss : Bool) : Gehl :=
  let last := iID (g.mtables - 1)
  if last % 2 ≠ 0 then g
  else
    let g :=
      if !miss then g
      else if g.MINITAG (last / 2) ≠ pcBit then
        let g := { g with miniTag := g.MINITAG (last / 2), AC := g.AC - 4 }
        if g.AC < -256 then
          { g.setLengths (g.histLength 6) (g.histLength 4) (g.histLength 2) with AC := -256 }
        else g
      else
        let g := { g with miniTag := g.MINITAG (last / 2), AC := g.AC + 1 }
        if g.AC > 256 - 1 then
          { g.setLengths (g.histLength (g.mtables + 2)) (g.histLength (g.mtables + 1)) (g.histLength g.mtables) with
            AC := 256 - 1 }
        else g
    { g with MINITAG := Function.update g.MINITAG (last / 2) pcBit }

/-- Whether the outcome trains the tables, given the threshold it has moved. -/
def trains (g : Gehl) (S : ℤ) (taken : Bool) : Bool :=
  taken != decide (0 ≤ S) || (g.updateTheta S taken).lowConfidence S

/-- The update of the counters, threshold and history lengths. -/
def train (g : Gehl) (iID : ℕ → ℕ) (S : ℤ) (taken : Bool) (pcBit : ℤ) : Gehl :=
  if g.trains S taken then
    ((g.updateTheta S taken).updateTables iID taken).updateLengths iID pcBit (taken != decide (0 ≤ S))
  else g.updateTheta S taken

end Gehl

/-- `dinst->getPC() & 1`. -/
def CtrlInst.pcBit (d : CtrlInst) : ℤ := (d.pc &&& 1).toNat

structure BPOgehl where
  btb : BPBTB
  gehl : Gehl
  glength : ℕ
  nentry : ℕ
  addwidth : ℕ
  logpred : ℕ
  ghist : ℕ → BitVec 64

namespace BPOgehl

/-- The first loop of `geoidx`: history bits at the positions `T`, from `i` on while `T[i] < m`.
It returns the position it stops at. -/
def histBits (T : ℕ → ℕ) (histo : ℕ → BitVec 64) (m : ℕ) :
    ℕ → ℕ → ℕ → BitVec 64 → BitVec 64 → ℕ × BitVec 64
  | 0, i, _, _, inter => (i, inter)
  | fuel + 1, i, PT, Hh, inter =>
    if T i < m then
      let same := T i &&& 0xffc0 = T (i - 1) &&& 0xffc0
      let shift := if same then T i - T (i - 1) else T i &&& 63
      let Hh := (if same then Hh else histo PT).sshiftRight shift
      histBits T histo m fuel (i + 1) (if same then PT else PT + 1) Hh ((inter <<< 1) ^^^ (Hh &&& 1))
    else (i, inter)

/-- The second loop: address bits. -/
def addrBits (T : ℕ → ℕ) (Add : BitVec 64) (m addwidth : ℕ) : ℕ → ℕ → BitVec 64 → BitVec 64
  | 0, _, inter => inter
  | fuel + 1, i, inter =>
    if T i < m + addwidth then
      addrBits T Add m addwidth fuel (i + 1) ((inter <<< 1) ^^^ (Add.sshiftRight (T i - m) &&& 1))
    else inter

/-- The folding loop: `nentry - 1` more pieces of `inter`, each rotated by its own amount. -/
def foldBits (logpred : ℕ) : ℕ → ℕ → BitVec 64 → BitVec 64 → BitVec 64
  | 0, _, _, Res => Res
  | n + 1, funct, inter, Res =>
    let inter := inter.sshiftRight logpred
    let Res := Res ^^^ ((inter &&& (1#64 <<< logpred - 1)) >>> funct) ^^^
      ((inter &&& (1#64 <<< funct - 1)) <<< (logpred - funct))
    foldBits logpred n ((funct + 1) % logpred) inter Res

def geoidx (nentry addwidth logpred : ℕ) (Add : BitVec 64) (histo : ℕ → BitVec 64) (m funct : ℕ) : ℕ :=
  let n := nentry * logpred
  let MinAdd : ℤ := min ((n : ℤ) - m) 20
  let inter :=
    if MinAdd ≥ 8 then
      ((histo 0 &&& (1#64 <<< m - 1)) <<< MinAdd.toNat) + (Add &&& (1#64 <<< MinAdd.toNat - 1))
    else
      let T := fun x => if x < n then x * (addwidth + m - 1) / (n - 1) else addwidth + m
      let Hh := (histo 0).sshiftRight (T 0)
      let r := histBits T histo m n 1 1 Hh (Hh &&& 1)
      addrBits T Add m addwidth (n + 1) r.1 r.2
  (foldBits logpred (nentry - 1) funct inter (inter &&& (1#64 <<< logpred - 1))).toNat

/-- Table 1 is half the size of the others. -/
def iID (p : BPOgehl) (d : CtrlInst) (i : ℕ) : ℕ :=
  geoidx p.nentry p.addwidth (if i = 1 then p.logpred - 1 else p.logpred) (d.pc >>> 2) p.ghist
    (p.gehl.usedHistLength i).toNat (i % 4 + 1)

/-- The history words move up by one bit, and the outcome enters. -/
def shiftHist (p : BPOgehl) (taken : Bool) : ℕ → BitVec 64 := fun i =>
  if i = 0 then p.ghist 0 <<< 1 + (if taken then 1 else 0)
  else if i ≤ p.glength / 64 then p.ghist i <<< 1 + (if (p.ghist (i - 1)).msb then 1 else 0)
  else p.ghist i

def direction (p : BPOgehl) (d : CtrlInst) (doUpdate : Bool) : Bool × BPOgehl :=
  let S := p.gehl.sum (p.iID d)
  (decide (0 ≤ S),
    if doUpdate then
      { p with gehl := p.gehl.train (p.iID d) S d.isTaken d.pcBit, ghist := p.shiftHist d.isTaken }
    else p)

end BPOgehl

structure BPSOgehl where
  btb : BPBTB
  gehl : Gehl
  glength : ℕ
  AddWidth : ℕ
  logtsize : ℕ
  ghr : ℕ → Bool

namespace BPSOgehl

/-- The loop of `geoidx2`, over the history bits from `i` on. -/
def geoLoop (ghr : ℕ → Bool) (logtsize : ℕ) : ℕ → ℕ → BitVec 32 → BitVec 32
  | 0, _, inter => inter
  | n + 1, i, inter =>
    let bit := ghr i ^^ inter.getLsbD 0
    let pos := i % logtsize
    geoLoop ghr logtsize n (i + 1)
      (if bit then inter ||| (1#32 <<< pos) else inter &&& ~~~(1#32 <<< pos))

def geoidx2 (AddWidth logtsize : ℕ) (ghr : ℕ → Bool) (Add : BitVec 64) (m : ℕ) : ℕ :=
  (geoLoop ghr logtsize m 0 ((Add &&& (1#64 <<< AddWidth - 1)).setWidth 32)).toNat

def iID (p : BPSOgehl) (d : CtrlInst) (i : ℕ) : ℕ :=
  geoidx2 p.AddWidth (if i = 1 then p.logtsize - 1 else p.logtsize) p.ghr (d.pc >>> 3)
    (p.gehl.usedHistLength i).toNat

/-- `ghr <<= 1; ghr[0] = taken`, in a bit set of `glength` bits. -/
def shiftHist (p : BPSOgehl) (taken : Bool) : ℕ → Bool := fun i =>
  if i = 0 then taken else if i < p.glength then p.ghr (i - 1) else false

/-- Unlike the others, this predictor brings the target into the buffer while it trains its
tables, before it asks the buffer for its prediction. -/
def predict (p : BPSOgehl) (d : CtrlInst) (doUpdate : Bool) : PredType × BPSOgehl :=
  if d.inst.isJump then
    let r := p.btb.predict d doUpdate
    (r.1, { p with btb := r.2 })
  else
    let S := p.gehl.sum (p.iID d)
    let ptaken := decide (0 ≤ S)
    let p :=
      if doUpdate then
        { p with
          gehl := p.gehl.train (p.iID d) S d.isTaken d.pcBit
          btb := if p.gehl.trains S d.isTaken then p.btb.updateOnly d else p.btb
          ghr := p.shiftHist d.isTaken }
      else p
    if d.isTaken ≠ ptaken then (.MissPrediction, p)
    else if ptaken then
      let r := p.btb.predict d doUpdate
      (r.1, { p with btb := r.2 })
    else (.CorrectPrediction, p)

end BPSOgehl

/-! ## `BPredictor` -/

/-- The types `getBPred` accepts. -/
inductive BPred where
  | oracle (btb : BPBTB)
  | notTaken (btb : BPBTB)
  | notTakenEnhanced (btb : BPBTB)
  | taken (btb : BPBTB)
  | twoBit (p : BP2bit)
  | twoLevel (p : BP2level)
  | twoBcgSkew (p : BP2BcgSkew)
  | hybrid (p : BPHybrid)
  | yags (p : BPyags)
  | ogehl (p : BPOgehl)
  | sogehl (p : BPSOgehl)

namespace BPred

def btb : BPred → BPBTB
  | oracle b | notTaken b | notTakenEnhanced b | taken b => b
  | twoBit p => p.btb
  | twoLevel p => p.btb
  | twoBcgSkew p => p.btb
  | hybrid p => p.btb
  | yags p => p.btb
  | ogehl p => p.btb
  | sogehl p => p.btb

def setBtb (b : BPBTB) : BPred → BPred
  | oracle _ => oracle b
  | notTaken _ => notTaken b
  | notTakenEnhanced _ => notTakenEnhanced b
  | taken _ => taken b
  | twoBit p => twoBit { p with btb := b }
  | twoLevel p => twoLevel { p with btb := b }
  | twoBcgSkew p => twoBcgSkew { p with btb := b }
  | hybrid p => hybrid { p with btb := b }
  | yags p => yags { p with btb := b }
  | ogehl p => ogehl { p with btb := b }
  | sogehl p => sogehl { p with btb := b }

/-- A table predictor: jumps go to the target buffer, branches get a direction first. -/
def tablePredict (p : BPred) (dir : Bool × BPred) (d : CtrlInst) (doUpdate : Bool) : PredType × BPred :=
  if d.inst.isJump then
    let r := p.btb.predict d doUpdate
    (r.1, p.setBtb r.2)
  else
    let r := resolve dir.2.btb d dir.1 doUpdate
    (r.1, dir.2.setBtb r.2)

def predict (p : BPred) (d : CtrlInst) (doUpdate : Bool) : PredType × BPred :=
  match p with
  | oracle b => (oraclePredict b d doUpdate).map id oracle
  | notTaken b => (notTakenPredict b d doUpdate).map id notTaken
  | notTakenEnhanced b => (notTakenEnhancedPredict b d doUpdate).map id notTakenEnhanced
  | taken b => (takenPredict b d doUpdate).map id taken
  | twoBit q => p.tablePredict ((q.direction d doUpdate).map id twoBit) d doUpdate
  | twoLevel q => p.tablePredict ((q.direction d doUpdate).map id twoLevel) d doUpdate
  | twoBcgSkew q => p.tablePredict ((q.direction d doUpdate).map id twoBcgSkew) d doUpdate
  | hybrid q => p.tablePredict ((q.direction d doUpdate).map id hybrid) d doUpdate
  | yags q => p.tablePredict ((q.direction d doUpdate).map id yags) d doUpdate
  | ogehl q => p.tablePredict ((q.direction d doUpdate).map id ogehl) d doUpdate
  | sogehl q => (q.predict d doUpdate).map id sogehl

end BPred

structure BPredictor where
  ras : BPRas
  pred : BPred

/-- `BPredictor::predict`. -/
def BPredictor.predict (s : BPredictor) (d : CtrlInst) (doUpdate : Bool) : PredType × BPredictor :=
  let r := s.ras.predict d doUpdate
  if r.1 ≠ .NoPrediction then (r.1, { s with ras := r.2 })
  else
    let q := s.pred.predict d doUpdate
    (q.1, ⟨r.2, q.2⟩)

end Esesc.Core
