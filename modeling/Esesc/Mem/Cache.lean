import Esesc.Suc.CacheCore
import Esesc.Mem.MSHR

/-!
# A cache (`simu/libmem/Cache.{h,cpp}`)

Every message leaves through the event queue, so a handler never runs another object: it
changes the cache and lists what it sends in `out`. The only nesting is `retire`, which
runs a parked request (`Retry`) before it returns; a request that is run again is never
parked again, so the nesting is at most as deep as there are parked requests
(`doPushUp_isSome` in `Retire.lean`).

Delays and statistics are left out, with the ports that give the delays.
-/

namespace Esesc.Mem

open Esesc.Suc

/-! ## Lines -/

/-- The states of `Cache::CState`. -/
inductive LineMESI where
  | M
  | E
  | S
  | I
  deriving Repr, DecidableEq

/-- `Cache::CState`. -/
structure CState extends StateGeneric where
  state : LineMESI
  deriving Repr, DecidableEq

namespace CState

def isModified (s : CState) : Bool := s.state == .M
def setModified (s : CState) : CState := { s with state := .M }
def setExclusive (s : CState) : CState := { s with state := .E }
def isShared (s : CState) : Bool := s.state == .S
def setShared (s : CState) : CState := { s with state := .S }
def setExtraBit (s : CState) : CState := { s with extraBit := 1 }
def prefetchNone (s : CState) : CState := { s with prefetchState := .noPref }
def prefetchPcore (s : CState) : CState := { s with prefetchState := .pcore }
def prefetchHardware (s : CState) : CState := { s with prefetchState := .hardware }

end CState

instance : LineState CState where
  new := ⟨LineState.new, .I⟩
  getTag s := s.tag
  setTag s a := { s with toStateGeneric := setTag s.toStateGeneric a }
  isValid s := s.state != .I
  invalidate s := ⟨invalidate s.toStateGeneric, .I⟩
  getTag_new := rfl
  getTag_setTag _ _ := rfl
  getTag_invalidate _ := rfl

/-! ## Requests -/

/-- `MemRequest::msgType`. -/
inductive MsgType where
  | read
  | write
  | writeAddress
  | writeback
  | invalidate
  | vpcwriteupdate
  deriving Repr, DecidableEq

/-- `MemRequest`. Memory objects are named by numbers. -/
structure MemRequest where
  addr : AddrType
  type : MsgType
  homeNode : ℕ
  lineSize : ℕ := 0
  pending : ℤ := 0
  prefetch : Bool := false
  capInvalidate : Bool := false
  coreID : ℤ := 0
  deriving Repr, DecidableEq

namespace MemRequest

def isRead (mreq : MemRequest) : Bool := mreq.type == .read
def isWrite (mreq : MemRequest) : Bool := mreq.type == .write
def isInvalidate (mreq : MemRequest) : Bool := mreq.type == .invalidate

/-- `pending` is an `int16_t`. -/
def decPending (mreq : MemRequest) : MemRequest := { mreq with pending := Int.bmod (mreq.pending - 1) (2 ^ 16) }

end MemRequest

/-- What an object does with a request: acknowledge it, forward it, or call its `destroy`. -/
inductive Action where
  | ack (mreq : MemRequest)
  | busRead (mreq : MemRequest)
  | pushUp (mreq : MemRequest)
  | pushDown (mreq : MemRequest)
  | invalidate (upNode : ℕ) (mreq : MemRequest)
  | destroy (mreq : MemRequest)
  deriving Repr, DecidableEq

/-- The callbacks parked in the MSHR: `doReadCB`, `doWriteCB` and `doBusReadCB`, always
created with `retrying = true`. -/
inductive Retry where
  | doRead (mreq : MemRequest)
  | doWrite (mreq : MemRequest)
  | doBusRead (mreq : MemRequest)
  deriving Repr, DecidableEq

def Retry.mreq : Retry → MemRequest
  | .doRead mreq | .doWrite mreq | .doBusRead mreq => mreq

/-! ## The cache -/

/-- The configuration of a cache and its place: its own name `self`, the objects above it
and the one on the way to each home node (`up_map`). -/
structure CacheConfig where
  g : Geometry
  org : Organisation
  mshr : MSHRConfig
  mshrType : MSHRType
  inclusive : Bool
  llc : Bool
  maxPendingReads : ℤ
  maxPendingWrites : ℤ
  self : ℕ
  upNode : List ℕ
  upMap : ℕ → ℕ

structure Cache where
  bank : CacheCore CState
  mshr : MSHR Retry
  pendingReads : ℤ
  pendingWrites : ℤ
  out : List Action

variable (k : CacheConfig)

/-- `MemRequest::isHomeNode` of a request that is at this cache. -/
def CacheConfig.isHomeNode (mreq : MemRequest) : Bool := mreq.homeNode == k.self

namespace Cache

def new : Cache := ⟨.new 0, .create k.mshr k.mshrType, 0, 0, []⟩

def canAcceptRead (c : Cache) (addr : AddrType) : Bool :=
  if k.maxPendingReads ≤ c.pendingReads then false
  else if !c.mshr.canAccept k.mshr addr then false
  else true

def canAcceptWrite (c : Cache) (addr : AddrType) : Bool :=
  if k.maxPendingWrites ≤ c.pendingWrites then false
  else if !c.mshr.canAccept k.mshr addr then false
  else true

/-- `cacheBank->readLine`. -/
def readLine (c : Cache) (addr : AddrType) : Option ℕ × Cache :=
  let r := c.bank.findLine k.org k.g addr
  (r.1, { c with bank := r.2 })

def line (c : Cache) (l : ℕ) : CState := c.bank.mem l

def updLine (c : Cache) (l : ℕ) (f : CState → CState) : Cache := { c with bank := c.bank.updLine l f }

def send (c : Cache) (a : Action) : Cache := { c with out := c.out ++ [a] }

/-- `mshr->addEntry`. -/
def addEntry (c : Cache) (addr : AddrType) (cb : Option Retry) : Cache :=
  { c with mshr := c.mshr.addEntry k.mshr addr cb }

/-! ### `MRouter` -/

/-- The invalidates a broadcast sends. The first one is created here and counts the
answers; the others are created from it, where it already is. -/
def invalidates (lsize : ℕ) (naddr : AddrType) (capacity : Bool) : List ℕ → List Action
  | [] => []
  | up :: ups =>
    let ireq : MemRequest :=
      { addr := naddr, type := .invalidate, homeNode := k.self, lineSize := lsize % 2 ^ 16
        pending := 1 + ups.length, capInvalidate := capacity }
    .invalidate up ireq :: ups.map fun u => .invalidate u { ireq with homeNode := up, pending := 0 }

/-- `MRouter::sendInvalidateOthers`. -/
def sendInvalidateOthers (c : Cache) (lsize : ℕ) (mreq : MemRequest) (naddr : AddrType) : Bool × Cache :=
  if k.upNode.length ≤ 1 then (false, c)
  else
    let skip := k.upMap mreq.homeNode
    (true, { c with out := c.out ++ invalidates k lsize naddr false (k.upNode.filter (· ≠ skip)) })

/-- `MRouter::sendInvalidateAll`. -/
def sendInvalidateAll (c : Cache) (lsize : ℕ) (naddr : AddrType) : Bool × Cache :=
  if k.upNode.isEmpty then (false, c)
  else (true, { c with out := c.out ++ invalidates k lsize naddr true k.upNode })

/-! ### Displacements -/

def doWriteback (c : Cache) (addr : AddrType) : Cache :=
  c.send (.pushDown { addr := addr, type := .writeback, homeNode := k.self })

def displaceLine (c : Cache) (addr : AddrType) (modified : Bool) : Cache :=
  let c := if k.inclusive then (c.sendInvalidateAll k k.g.lineSize addr).2 else c
  if modified then c.doWriteback k addr else c

/-- `allocateLine`. A displaced line keeps its state until the fill sets it. -/
def allocateLine (c : Cache) (addr : AddrType) : ℕ × Cache :=
  let r := c.bank.fillLine k.org k.g addr
  let l := r.1
  let rpl_addr := r.2.1
  let c := { c with bank := r.2.2 }
  let c := c.updLine l .setExtraBit
  let c := if isValid (c.line l) then c.displaceLine k rpl_addr (c.line l).isModified else c
  (l, c)

/-! ### Requests from above

`doRead`, `doWrite` and `doBusRead` call `mshr->retire` at most once, on a hit of a request
that is run again. They are split at that call: `doReadBegin` and its like give the cache
before it and whether the request hit, `finish` is what is left to do after it. -/

/-- `doRead` up to `mshr->retire`. -/
def doReadBegin (c : Cache) (mreq : MemRequest) (retrying : Bool) : Bool × Cache :=
  let addr := mreq.addr
  let c := if retrying then { c with pendingReads := c.pendingReads - 1 } else c
  match c.readLine k addr with
  | (none, c) =>
    let c := { c with pendingReads := c.pendingReads + 1 }
    if !retrying && !c.mshr.canIssue k.mshr addr then (false, c.addEntry k addr (some (.doRead mreq)))
    else (false, (c.addEntry k addr none).send (.busRead mreq))
  | (some l, c) => (true, c.updLine l .prefetchNone)

/-- `doWrite` up to `mshr->retire`. -/
def doWriteBegin (c : Cache) (mreq : MemRequest) (retrying : Bool) : Bool × Cache :=
  let addr := mreq.addr
  let c := if retrying then { c with pendingWrites := c.pendingWrites - 1 } else c
  match c.readLine k addr with
  | (none, c) =>
    let c := { c with pendingWrites := c.pendingWrites + 1 }
    if !retrying && !c.mshr.canIssue k.mshr addr then (false, c.addEntry k addr (some (.doWrite mreq)))
    else (false, (c.addEntry k addr none).send (.busRead mreq))
  | (some l, c) =>
    let c := c.updLine l .prefetchNone
    if (c.line l).isShared then
      let c := c.updLine l invalidate
      if !k.llc then (false, (c.addEntry k addr none).send (.busRead mreq))
      else (true, c.updLine l .setModified)
    else (true, c.updLine l .setModified)

/-- The state an inclusive cache leaves the line of a `doBusRead` in. -/
def busReadLine (c : Cache) (mreq : MemRequest) (l : ℕ) : Cache :=
  if mreq.isWrite then c.updLine l .setModified
  else
    let c := if (c.line l).isModified then c.doWriteback k mreq.addr else c
    c.updLine l .setShared

/-- `doBusRead` up to `mshr->retire`: the request is pushed up before that call. -/
def doBusReadBegin (c : Cache) (mreq : MemRequest) (retrying : Bool) : Bool × Cache :=
  let addr := mreq.addr
  match c.readLine k addr with
  | (none, c) =>
    if !retrying && !c.mshr.canIssue k.mshr addr then (false, c.addEntry k addr (some (.doBusRead mreq)))
    else (false, (c.addEntry k addr none).send (.busRead mreq))
  | (some l, c) =>
    if mreq.isRead then (true, c.send (.pushUp mreq))
    else
      let c := c.updLine l .prefetchNone
      if k.inclusive then
        if (c.line l).isShared && mreq.isWrite then
          let c := c.updLine l invalidate
          let r := c.sendInvalidateOthers k k.g.lineSize mreq addr
          let c := r.2
          if r.1 then (false, (c.addEntry k addr none).send (.busRead mreq))
          else if !k.llc then (false, (c.addEntry k addr none).send (.busRead mreq))
          else (true, (c.busReadLine k mreq l).send (.pushUp mreq))
        else (true, (c.busReadLine k mreq l).send (.pushUp mreq))
      else (true, c.send (.pushUp mreq))

/-- A handler up to `mshr->retire`. -/
def begin (c : Cache) (cb : Retry) (retrying : Bool) : Bool × Cache :=
  match cb with
  | .doRead mreq => c.doReadBegin k mreq retrying
  | .doWrite mreq => c.doWriteBegin k mreq retrying
  | .doBusRead mreq => c.doBusReadBegin k mreq retrying

/-- A handler after `mshr->retire`. -/
def finish (c : Cache) : Retry → Cache
  | .doRead mreq => c.send (.ack mreq)
  | .doWrite mreq => c.send (.ack mreq)
  | .doBusRead _ => c

/-- A handler with `retrying = false`: `mshr->retire` is not called. -/
def firstTry (c : Cache) (cb : Retry) : Cache :=
  let r := c.begin k cb false
  if r.1 then r.2.finish cb else r.2

/-- `mshr->retire`, with room for `fuel` calls inside one another. The callback that it
runs is a handler with `retrying = true`. -/
def retire : ℕ → Cache → AddrType → Option Cache
  | 0, _, _ => none
  | fuel + 1, c, addr =>
    match c.mshr.retireBegin k.mshr addr with
    | (none, m) => some { c with mshr := m }
    | (some cb, m) =>
      let r := begin k { c with mshr := m } cb true
      let c := if r.1 then (retire fuel r.2 cb.mreq.addr).map (·.finish cb) else some r.2
      c.map fun c => { c with mshr := c.mshr.retireEnd k.mshr addr }

/-! ### Answers from below -/

/-- The first half of `doPushUp`, before `mshr->retire`: the line is brought in. -/
def fill (c : Cache) (mreq : MemRequest) : Cache :=
  let r := match c.readLine k mreq.addr with
    | (some l, c) => (l, c)
    | (none, c) => c.allocateLine k mreq.addr
  let l := r.1
  let c := r.2
  let c := if mreq.isWrite then c.updLine l .setModified else c.updLine l .setExclusive
  if mreq.coreID ≠ 0 ∧ mreq.prefetch then (c.updLine l .prefetchPcore).updLine l .setShared
  else if mreq.prefetch then c.updLine l .prefetchHardware
  else c.updLine l .prefetchNone

/-- The second half of `doPushUp`, after `mshr->retire`. -/
def answer (c : Cache) (mreq : MemRequest) : Cache :=
  if k.isHomeNode mreq then
    let c := if mreq.isRead then { c with pendingReads := c.pendingReads - 1 }
      else { c with pendingWrites := c.pendingWrites - 1 }
    c.send (.ack mreq)
  else c.send (.pushUp mreq)

def doPushUp (c : Cache) (mreq : MemRequest) : Option Cache :=
  let c := c.fill k mreq
  (retire k (c.mshr.depth k.mshr) c mreq.addr).map (·.answer k mreq)

def doPushDown (c : Cache) (mreq : MemRequest) : Cache :=
  if mreq.isInvalidate then c.send (.destroy mreq.decPending)
  else
    let c := match c.readLine k mreq.addr with
      | (some l, c) => c.updLine l .setModified
      | (none, c) => c
    c.send (.destroy mreq)

/-- The loop of `doInvalidate` and `ffinvalidate` over `n` lines; was any of them there? -/
def invalidateLines (addr : AddrType) : ℕ → Cache → Bool × Cache
  | 0, c => (false, c)
  | n + 1, c =>
    match c.readLine k addr with
    | (some l, c) => (true, (invalidateLines (addr + BitVec.ofNat 64 k.g.lineSize) n (c.updLine l invalidate)).2)
    | (none, c) => invalidateLines (addr + BitVec.ofNat 64 k.g.lineSize) n c

def doInvalidate (c : Cache) (mreq : MemRequest) : Cache :=
  if !k.inclusive then c.send (.pushDown mreq)
  else
    let maxLines := mreq.lineSize / (k.g.lineSize + 1) + 1
    let r := c.invalidateLines k mreq.addr maxLines
    let c := r.2
    if !r.1 then c.send (.pushDown mreq)
    else (c.sendInvalidateAll k mreq.lineSize mreq.addr).2.send (.pushDown mreq)

/-! ### Entry points -/

def doRead (c : Cache) (mreq : MemRequest) : Cache := c.firstTry k (.doRead mreq)
def doWrite (c : Cache) (mreq : MemRequest) : Cache := c.firstTry k (.doWrite mreq)
def doBusRead (c : Cache) (mreq : MemRequest) : Cache := c.firstTry k (.doBusRead mreq)

def read (c : Cache) (mreq : MemRequest) : Cache :=
  if mreq.addr = 0 then c.send (.ack mreq) else c.doRead k mreq

def write (c : Cache) (mreq : MemRequest) : Cache :=
  if mreq.addr = 0 then c.send (.ack mreq) else c.doWrite k mreq

def writeAddress (c : Cache) (mreq : MemRequest) : Cache := c.send (.ack mreq)

def busRead (c : Cache) (mreq : MemRequest) : Cache := c.doBusRead k mreq

/-- The request `prefetch` creates. Its `coreID` is whatever its storage held before. -/
def prefetchReq (addr : AddrType) (coreID : ℤ) : MemRequest :=
  { addr := addr, type := .read, homeNode := k.self, prefetch := true, coreID := coreID }

def prefetch (c : Cache) (addr : AddrType) (coreID : ℤ) : Cache := c.send (.busRead (prefetchReq k addr coreID))

/-- `ffread` and `ffwrite` in this cache: on a miss the line is filled and `f` sets its state. -/
def ffaccess (f : CState → CState) (c : Cache) (addr : AddrType) : Cache :=
  match c.readLine k addr with
  | (some _, c) => c
  | (none, c) =>
    let r := c.bank.fillLine k.org k.g addr
    { c with bank := r.2.2.updLine r.1 f }

def ffread (c : Cache) (addr : AddrType) : Cache := c.ffaccess k .setShared addr
def ffwrite (c : Cache) (addr : AddrType) : Cache := c.ffaccess k .setExclusive addr

def ffinvalidate (c : Cache) (addr : AddrType) (ilineSize : ℕ) : Cache :=
  (c.invalidateLines k addr (ilineSize / (k.g.lineSize + 1) + 1)).2

end Cache

end Esesc.Mem
