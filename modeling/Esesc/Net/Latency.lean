import Mathlib.Tactic.Common
import Esesc.Net.LinkRows
import Esesc.Suc.PortOccupy

/-!
# Messages in a network (`simu/libnet/Router.cpp`, `InterConn.cpp`)

A router launches a message, the routers on the way forward it, and the last one receives it. Point-to-point
messages have one call scheduled at any time, until they are received.

* `NetType.oneLatency`: the links of the policies.
* `InterConnection.forwardMsg_cases`: one call; `InterConnection.Routed.hop`: one hop.
* `InterConnection.takes_of_linked`, `InterConnection.not_takes_of_not_linked`: one hop, and more than one.
* `InterConnection.latency_iff`: the latency where there is no contention.
-/

namespace Esesc.Net

open Esesc.Suc RoutingPolicy

/-- The ports of a router are in vectors of this size. -/
abbrev MAX_PORTS : ℕ := 200

/-- The `type` of a network. -/
inductive NetType
  | mesh (width : ℕ)
  | hypercube
  | uniring
  | biring
  | full
  deriving DecidableEq

namespace NetType

def nPorts (nRouters : ℕ) : NetType → ℕ
  | mesh _ => 4
  | hypercube => Nat.log2 nRouters
  | uniring => 1
  | biring => 2
  | full => nRouters - 1

def create (p : RoutingPolicy) : NetType → Adjacent
  | mesh width => MeshMultiPathRoutingPolicy.create width p
  | hypercube => HypercubeRoutingPolicy.create p
  | uniring => UniRingRoutingPolicy.create p
  | biring => BiRingRoutingPolicy.create p
  | full => FullyConnectedRoutingPolicy.create p

/-- The latency of a link. -/
def latency (wireLat : ℕ) : NetType → ℕ
  | mesh width => MeshMultiPathRoutingPolicy.latency width wireLat
  | _ => wireLat

/-- The numbers of routers for which `create` stays inside the matrix. -/
def Fits (nRouters : ℕ) : NetType → Prop
  | mesh width => 2 ≤ width ∧ nRouters = width * width
  | hypercube => nRouters = 2 ^ Nat.log2 nRouters
  | _ => True

/-- **The policies** make links that all take the same time. -/
theorem oneLatency (type : NetType) (p : RoutingPolicy) (hports : p.nPorts = type.nPorts p.nRouters)
    (hfits : type.Fits p.nRouters) (hids : p.nRouters < 2 ^ 16) (hwire : p.wireLat < 2 ^ 16) :
    OneLatency p.nRouters p.nPorts (type.latency p.wireLat) (type.create p) := by
  have hle : p.wireLat ≤ noLink := by
    rw [noLink_eq]
    omega
  cases type with
  | mesh width =>
    have hfour : p.nPorts = 4 := hports
    have hmesh : MeshMultiPathRoutingPolicy.MeshPorts fun port => 0 < port ∧ port ≤ p.nPorts := by
      rw [hfour]
      exact ⟨by decide, by decide, by decide, by decide⟩
    refine ⟨MeshMultiPathRoutingPolicy.made p hfits.1 hfits.2 hmesh, ?_, .inl (by rw [hfour]; decide)⟩
    rw [latency, MeshMultiPathRoutingPolicy.latency]
    split
    · decide
    · exact hle
  | hypercube =>
    have hlog : p.nPorts = Nat.log2 p.nRouters := hports
    have hpow : p.nRouters = 2 ^ p.nPorts := by rw [hlog]; exact hfits
    refine ⟨HypercubeRoutingPolicy.made p hpow fun j hj => ⟨Nat.succ_pos j, hj⟩, hle, .inl ?_⟩
    -- a network with 16-bit router ids has fewer than 16 dimensions
    rw [hpow] at hids
    exact Nat.lt_trans ((Nat.pow_lt_pow_iff_right (by omega : 1 < 2)).1 hids) (by decide)
  | uniring =>
    have hone : p.nPorts = 1 := hports
    exact ⟨UniRingRoutingPolicy.made p (by rw [hone]; decide), hle, .inl (by rw [hone]; decide)⟩
  | biring =>
    have htwo : p.nPorts = 2 := hports
    exact ⟨BiRingRoutingPolicy.made p (by rw [htwo]; decide) (by rw [htwo]; decide), hle, .inl (by rw [htwo]; decide)⟩
  | full =>
    have hall : p.nPorts = p.nRouters - 1 := hports
    refine ⟨hall ▸ FullyConnectedRoutingPolicy.made p, hle, .inr fun i hi j hj hij => ?_⟩
    show (at0 ((FullyConnectedRoutingPolicy.create p).row i j)).port ≠ DISABLED_PORT
    rw [FullyConnectedRoutingPolicy.create_spec, if_pos ⟨hi, hij.symm, hj⟩]
    show FullyConnectedRoutingPolicy.port i j ≠ 0
    rw [FullyConnectedRoutingPolicy.port]
    split <;> omega

end NetType

/-- What the constructors read of the configuration. -/
structure NetConfig where
  type : NetType
  nRouters : ℕ
  crossLat : ℕ
  wireLat : ℕ
  localNum : ℕ
  localOcc : ℕ
  localPort : ℕ
  fixMessagePath : Bool
  congestionFree : Bool
  addFixDelay : ℕ
  fits : type.Fits nRouters
  nRouters_lt : nRouters < 2 ^ 16
  wireLat_lt : wireLat < 2 ^ 16
  nPorts_lt : type.nPorts nRouters < MAX_PORTS

namespace NetConfig

variable (cfg : NetConfig)

def nPorts : ℕ := cfg.type.nPorts cfg.nRouters

def policy : RoutingPolicy := ⟨cfg.nRouters, cfg.nPorts, cfg.crossLat, cfg.wireLat⟩

def adjacent : Adjacent := cfg.type.create cfg.policy

theorem oneLatency : OneLatency cfg.nRouters cfg.nPorts (cfg.type.latency cfg.wireLat) cfg.adjacent :=
  cfg.type.oneLatency cfg.policy rfl cfg.fits cfg.nRouters_lt cfg.wireLat_lt

end NetConfig

/-! ## Routers -/

/-- The vectors of ports hold pointers, which are null where there is no port. -/
structure Router where
  rTable : RoutingTable
  l2rPort : ℕ → Option PortGeneric
  r2rPort : ℕ → Option PortFullyPipe

/-- The members of all routers that are the same, and the routers. -/
structure InterConnection where
  crossLat : ℕ
  congestionFree : Bool
  addFixDelay : ℕ
  routers : ℕ → Router

/-- A `PT_TO_PT` message, with its `calcNumFlits`. -/
structure Message where
  srcRouterID : ℕ
  srcPortID : ℕ
  dstRouterID : ℕ
  dstPortID : ℕ
  numFlits : ℕ

/-- A call of a router that is scheduled. -/
inductive Call
  | forwardMsg (time : ℕ) (router : ℕ)
  | receiveMsg (time : ℕ) (router : ℕ)
  deriving DecidableEq

def Call.time : Call → ℕ
  | forwardMsg time _ => time
  | receiveMsg time _ => time

/-- The constructors. Between routers there are the ports 1 to `nPorts`, and for devices the local ones. -/
def NetConfig.interConnection (cfg : NetConfig) (globalClock : ℕ) : Option InterConnection := do
  let adjacent ← make cfg.nRouters cfg.crossLat cfg.adjacent
  return {
    crossLat := cfg.crossLat
    congestionFree := cfg.congestionFree
    addFixDelay := cfg.addFixDelay
    routers := fun i =>
      { rTable := getRoutingTable cfg.nRouters cfg.fixMessagePath adjacent i
        l2rPort := fun p =>
          if LOCAL_PORT1 ≤ p ∧ p < LOCAL_PORT1 + cfg.localNum then some (.create cfg.localPort cfg.localOcc globalClock)
          else none
        r2rPort := fun p => if 0 < p ∧ p ≤ cfg.nPorts then some (.new globalClock) else none } }

namespace InterConnection

variable (net : InterConnection) (msg : Message)

def setRouter (i : ℕ) (r : Router) : InterConnection := { net with routers := Function.update net.routers i r }

/-- The cycle that the local port of the source gives the message, and the port after that. -/
def launchSlot (globalClock : ℕ) : Option (ℕ × PortGeneric) := do
  let port ← (net.routers msg.srcRouterID).l2rPort msg.srcPortID
  port.occupySlots globalClock msg.numFlits

def launchMsg (globalClock : ℕ) : Option (Call × InterConnection) :=
  if msg.dstRouterID = msg.srcRouterID ∧ msg.dstPortID = msg.srcPortID then
    some (.receiveMsg globalClock msg.dstRouterID, net)
  else do
    let slot ← net.launchSlot msg globalClock
    let r := net.routers msg.srcRouterID
    let net' := net.setRouter msg.srcRouterID
      { r with l2rPort := Function.update r.l2rPort msg.srcPortID (some slot.2) }
    let time := slot.1 + net.addFixDelay
    return (if net.congestionFree = true then .receiveMsg time msg.dstRouterID
      else .forwardMsg time msg.srcRouterID, net')

def forwardMsg (globalClock myID : ℕ) : Option (Call × InterConnection) :=
  if msg.dstRouterID = myID then some (.receiveMsg globalClock myID, net)
  else do
    let r := net.routers myID
    let lookup := r.rTable.getWire msg.dstRouterID
    let wire ← lookup.1
    let port ← r.r2rPort wire.port
    let slot := port.occupySlots globalClock msg.numFlits
    let net' := net.setRouter myID
      { r with rTable := lookup.2, r2rPort := Function.update r.r2rPort wire.port (some slot.2) }
    return (.forwardMsg (slot.1 + net.crossLat + wire.dist) wire.rID, net')

/-- The router that receives the message and when, within so many calls. -/
def deliver (net : InterConnection) (msg : Message) : ℕ → Call → Option (ℕ × ℕ)
  | _, .receiveMsg time router => some (router, time)
  | 0, .forwardMsg _ _ => none
  | fuel + 1, .forwardMsg time router =>
    match net.forwardMsg msg time router with
    | some (call, net') => deliver net' msg fuel call
    | none => none

/-- **Latency.** The message reaches `receiveMsg` of its destination `cycles` after the slot it is launched in. -/
def Takes (globalClock slot cycles : ℕ) : Prop :=
  ∃ call net', net.launchMsg msg globalClock = some (call, net') ∧
    ∃ fuel, deliver net' msg fuel call = some (msg.dstRouterID, slot + cycles)

/-- The distance to `t` in the table of `s`. All wires of a vector have the same. -/
def distance (s t : ℕ) : ℕ := (at0 ((net.routers s).rTable.nextHop t).succs).dist

/-- **An idle network** of a configuration: no port between routers is in use from `time` on. There may have been
other messages. -/
structure Idle (cfg : NetConfig) (time : ℕ) (net : InterConnection) : Prop where
  crossLat : net.crossLat = cfg.crossLat
  addFixDelay : net.addFixDelay = cfg.addFixDelay
  congestionFree : net.congestionFree = cfg.congestionFree
  rTable : ∃ A, make cfg.nRouters cfg.crossLat cfg.adjacent = some A ∧ ∀ i < cfg.nRouters,
    (getRoutingTable cfg.nRouters cfg.fixMessagePath A i).Used (net.routers i).rTable
  r2rPort : ∀ i < cfg.nRouters, ∀ p, (0 < p ∧ p ≤ cfg.nPorts → ∃ port, (net.routers i).r2rPort p = some port ∧
    port.lTime ≤ time) ∧ (¬(0 < p ∧ p ≤ cfg.nPorts) → (net.routers i).r2rPort p = none)

/-! ## One call -/

section Calls

variable {net net' : InterConnection} {msg : Message} {cfg : NetConfig} {globalClock slot time time' router : ℕ}
  {call : Call} {port : PortGeneric}

/-- A new network is idle. -/
theorem idle_new (h : cfg.interConnection globalClock = some net) (htime : globalClock ≤ time) : Idle cfg time net := by
  obtain ⟨A, hA, hnet⟩ := Option.bind_eq_some_iff.1 h
  obtain rfl := Option.some.inj hnet
  refine ⟨rfl, rfl, rfl, ⟨A, hA, fun i _ => .refl⟩, fun i _ p => ⟨fun hp => ?_, fun hp => ?_⟩⟩
  · exact ⟨.new globalClock, if_pos hp, htime⟩
  · exact if_neg hp

/-- A point-to-point message to another router. -/
theorem launchMsg_eq (hne : msg.srcRouterID ≠ msg.dstRouterID) (hfree : net.congestionFree = false)
    (hslot : net.launchSlot msg globalClock = some (slot, port)) :
    ∃ net', net.launchMsg msg globalClock = some (.forwardMsg (slot + net.addFixDelay) msg.srcRouterID, net') ∧
      net'.crossLat = net.crossLat ∧ ∀ i, (net'.routers i).rTable = (net.routers i).rTable ∧
        (net'.routers i).r2rPort = (net.routers i).r2rPort := by
  have hother : ¬(msg.dstRouterID = msg.srcRouterID ∧ msg.dstPortID = msg.srcPortID) := fun h => hne h.1.symm
  rw [launchMsg, if_neg hother, hslot, hfree]
  refine ⟨_, rfl, rfl, fun i => ?_⟩
  by_cases hi : i = msg.srcRouterID
  · subst hi
    simp [setRouter]
  · simp [setRouter, hi]

/-- **One call** of `forwardMsg`: the message is received, or goes on to the router that the lookup answers. -/
theorem forwardMsg_cases (h : net.forwardMsg msg time router = some (call, net')) :
    (msg.dstRouterID = router ∧ call = .receiveMsg time router) ∨
    (msg.dstRouterID ≠ router ∧ ∃ wire port, ((net.routers router).rTable.getWire msg.dstRouterID).1 = some wire ∧
      (net.routers router).r2rPort wire.port = some port ∧
      call = .forwardMsg ((port.occupySlots time msg.numFlits).1 + net.crossLat + wire.dist) wire.rID ∧
      net'.crossLat = net.crossLat ∧ ∀ i, (net'.routers i).rTable =
        if i = router then ((net.routers router).rTable.getWire msg.dstRouterID).2 else (net.routers i).rTable) := by
  rw [forwardMsg] at h
  split at h
  · rename_i hdst
    cases h
    exact .inl ⟨hdst, rfl⟩
  · rename_i hdst
    obtain ⟨wire, hwire, h⟩ := Option.bind_eq_some_iff.1 h
    obtain ⟨port, hport, h⟩ := Option.bind_eq_some_iff.1 h
    cases h
    refine .inr ⟨hdst, wire, port, hwire, hport, rfl, rfl, fun i => ?_⟩
    by_cases hi : i = router
    · subst hi
      simp [setRouter]
    · simp [setRouter, hi]

theorem forwardMsg_hop {wire : Wire} {port : PortFullyPipe} (hne : msg.dstRouterID ≠ router)
    (hget : ((net.routers router).rTable.getWire msg.dstRouterID).1 = some wire)
    (hport : (net.routers router).r2rPort wire.port = some port) :
    ∃ net', net.forwardMsg msg time router =
      some (.forwardMsg ((port.occupySlots time msg.numFlits).1 + net.crossLat + wire.dist) wire.rID, net') := by
  rw [forwardMsg, if_neg hne]
  simp only [hget, hport, Option.bind_eq_bind, Option.bind_some]
  exact ⟨_, rfl⟩

/-- A port never answers an earlier cycle. -/
theorem le_occupySlots (p : PortFullyPipe) (globalClock n : ℕ) : globalClock ≤ (p.occupySlots globalClock n).1 := by
  rw [PortFullyPipe.occupySlots]
  show globalClock ≤ if p.lTime < globalClock then globalClock else p.lTime
  split <;> omega

/-- An idle one answers this cycle. -/
theorem occupySlots_idle {p : PortFullyPipe} (h : p.lTime ≤ globalClock) (n : ℕ) :
    (p.occupySlots globalClock n).1 = globalClock := by
  rw [PortFullyPipe.occupySlots]
  show (if p.lTime < globalClock then globalClock else p.lTime) = globalClock
  split <;> omega

/-- A message that is forwarded and received later was forwarded by one call. -/
theorem deliver_forwardMsg {fuel : ℕ} {r : ℕ × ℕ} (h : deliver net msg fuel (.forwardMsg time router) = some r) :
    ∃ fuel' call net', fuel = fuel' + 1 ∧ net.forwardMsg msg time router = some (call, net') ∧
      deliver net' msg fuel' call = some r := by
  cases fuel with
  | zero => cases h
  | succ fuel =>
    rw [deliver] at h
    cases hstep : net.forwardMsg msg time router with
    | none =>
      rw [hstep] at h
      cases h
    | some next =>
      rw [hstep] at h
      exact ⟨fuel, next.1, next.2, rfl, rfl, h⟩

/-- **A run.** No message is received before the call that is scheduled for it. -/
theorem time_le_of_deliver {fuel : ℕ} (h : deliver net msg fuel call = some (router, time)) :
    call.time ≤ time := by
  induction fuel generalizing net call with
  | zero =>
    cases call with
    | forwardMsg t r => cases h
    | receiveMsg t r =>
      cases h
      exact Nat.le_refl _
  | succ fuel ih =>
    cases call with
    | receiveMsg t r =>
      cases h
      exact Nat.le_refl _
    | forwardMsg t r =>
      obtain ⟨fuel', call, net', hfuel, hstep, hrun⟩ := deliver_forwardMsg h
      obtain rfl : fuel = fuel' := Nat.succ.inj hfuel
      have hrest := ih hrun
      rcases forwardMsg_cases hstep with ⟨-, hcall⟩ | ⟨-, wire, port, -, -, hcall, -⟩
      · rw [hcall] at hrest
        exact hrest
      · rw [hcall] at hrest
        have hport := le_occupySlots port t msg.numFlits
        simp only [Call.time] at hrest ⊢
        omega

end Calls

/-! ## Routes -/

section Routes

variable {net net' : InterConnection} {msg : Message} {cfg : NetConfig} {globalClock slot time s t : ℕ} {call : Call}
  {A : Adjacent}

/-- The network of a message on its way: the tables are those of the matrix `A`, and were looked up in. -/
structure Routed (cfg : NetConfig) (A : Adjacent) (net : InterConnection) : Prop where
  crossLat : net.crossLat = cfg.crossLat
  rTable : ∀ i < cfg.nRouters, (getRoutingTable cfg.nRouters cfg.fixMessagePath A i).Used (net.routers i).rTable

/-- **One hop.** The message goes on along a wire of the matrix, no earlier than that and the crossing take. -/
theorem Routed.hop (hnet : Routed cfg A net) (hA : LinkRows cfg.nPorts (cfg.type.latency cfg.wireLat) cfg.adjacent A)
    (hs : s < cfg.nRouters) (ht : msg.dstRouterID < cfg.nRouters) (hne : s ≠ msg.dstRouterID)
    (hstep : net.forwardMsg msg time s = some (call, net')) :
    ∃ y ∈ A.row s msg.dstRouterID, ∃ port, ((net.routers s).r2rPort y.port = some port ∧
      call = .forwardMsg ((port.occupySlots time msg.numFlits).1 + cfg.crossLat + y.dist) y.rID) ∧
      y.dist = (at0 (A.row s msg.dstRouterID)).dist ∧ Routed cfg A net' := by
  rcases forwardMsg_cases hstep with ⟨hdst, -⟩ | ⟨-, wire, port, hwire, hport, hcall, hcross, htables⟩
  · exact absurd hdst.symm hne
  · obtain ⟨y, hy, hget, hdist, -⟩ := hA.getWire cfg.oneLatency hne ht (hnet.rTable s hs)
    obtain rfl : wire = y := Option.some.inj (hwire.symm.trans hget)
    rw [hnet.crossLat] at hcall hcross
    refine ⟨wire, hy, port, ⟨hport, hcall⟩, hdist, hcross, fun i hi => ?_⟩
    rw [htables]
    split
    · rename_i his
      subst his
      exact .getWire _ (hnet.rTable i hi)
    · exact hnet.rTable i hi

/-- **Neighbours.** The message takes the link. -/
theorem Routed.takes_of_linked (hnet : Routed cfg A net)
    (hA : LinkRows cfg.nPorts (cfg.type.latency cfg.wireLat) cfg.adjacent A) (hs : s < cfg.nRouters)
    (hne : s ≠ msg.dstRouterID) (hl : Linked cfg.adjacent s msg.dstRouterID)
    (hidle : ∀ p, 0 < p ∧ p ≤ cfg.nPorts → ∃ port, (net.routers s).r2rPort p = some port ∧ port.lTime ≤ time) :
    deliver net msg 2 (.forwardMsg time s) = some (msg.dstRouterID,
      time + cfg.crossLat + (at0 (A.row s msg.dstRouterID)).dist) := by
  obtain ⟨-, ht, link, hpos, hle, hrow⟩ := cfg.oneLatency.row_link hl
  obtain ⟨y, hy, hget, hdist, -⟩ := hA.getWire cfg.oneLatency hne ht (hnet.rTable s hs)
  rw [(hA.holds s _ hne).1 hl, hrow] at hy hdist ⊢
  obtain rfl := List.mem_singleton.1 hy
  obtain ⟨port, hport, htime⟩ := hidle link ⟨hpos, hle⟩
  have hcall : ∃ net', net.forwardMsg msg time s = some (.forwardMsg (time + cfg.crossLat +
      cfg.type.latency cfg.wireLat) msg.dstRouterID, net') := by
    have hhop : ∃ net', net.forwardMsg msg time s = _ := forwardMsg_hop hne.symm hget hport
    rwa [occupySlots_idle htime, hnet.crossLat] at hhop
  obtain ⟨net', hcall⟩ := hcall
  have hlast : net'.forwardMsg msg (time + cfg.crossLat + cfg.type.latency cfg.wireLat) msg.dstRouterID =
      some (.receiveMsg (time + cfg.crossLat + cfg.type.latency cfg.wireLat) msg.dstRouterID, net') := if_pos rfl
  simp only [deliver, hcall, hlast]
  rfl

/-- **Others.** When the first hop has taken the whole distance, the next one takes more. -/
theorem Routed.later_of_not_linked (hnet : Routed cfg A net)
    (hA : LinkRows cfg.nPorts (cfg.type.latency cfg.wireLat) cfg.adjacent A) (hs : s < cfg.nRouters)
    (ht : msg.dstRouterID < cfg.nRouters) (hne : s ≠ msg.dstRouterID) (hl : ¬Linked cfg.adjacent s msg.dstRouterID)
    (hnull : (net.routers s).r2rPort DISABLED_PORT = none) {fuel τ : ℕ}
    (h : deliver net msg fuel (.forwardMsg time s) = some (t, τ)) :
    time + cfg.crossLat + (at0 (A.row s msg.dstRouterID)).dist < τ := by
  obtain ⟨fuel, call, net', -, hstep, h⟩ := deliver_forwardMsg h
  obtain ⟨y, hy, port, ⟨hport, rfl⟩, hdist, hnet'⟩ := hnet.hop hA hs ht hne hstep
  have hport0 : y.port ≠ DISABLED_PORT := by
    intro h0
    rw [h0, hnull] at hport
    cases hport
  -- the first router on the way is not the destination, as there is no link
  have hdet := (((hA.holds s _ hne).2 hl).wires y hy).resolve_left hport0
  have hnext : y.rID ≠ msg.dstRouterID := by
    intro heq
    exact hl (heq ▸ hdet.link)
  have hin := (cfg.oneLatency.row_link hdet.link).2.1
  have hfirst := le_occupySlots port time msg.numFlits
  obtain ⟨fuel', call', net'', -, hstep', h⟩ := deliver_forwardMsg h
  obtain ⟨z, hz, port', ⟨-, rfl⟩, hdist', -⟩ := hnet'.hop hA hin ht hnext hstep'
  have hsecond := le_occupySlots port' ((port.occupySlots time msg.numFlits).1 + cfg.crossLat + y.dist) msg.numFlits
  have hpos := (hA.holds _ _ hnext).dist_pos cfg.oneLatency hdet.far
  have hrest := time_le_of_deliver h
  simp only [Call.time] at hrest
  omega

/-- A message between different routers of an idle network, that was launched. -/
structure Launched (cfg : NetConfig) (net : InterConnection) (msg : Message) (globalClock slot : ℕ) (A : Adjacent)
    (net' : InterConnection) : Prop where
  rows : LinkRows cfg.nPorts (cfg.type.latency cfg.wireLat) cfg.adjacent A
  launchMsg : net.launchMsg msg globalClock = some (.forwardMsg (slot + cfg.addFixDelay) msg.srcRouterID, net')
  routed : Routed cfg A net'
  distance : net.distance msg.srcRouterID msg.dstRouterID = (at0 (A.row msg.srcRouterID msg.dstRouterID)).dist
  idle : ∀ p, 0 < p ∧ p ≤ cfg.nPorts →
    ∃ port, (net'.routers msg.srcRouterID).r2rPort p = some port ∧ port.lTime ≤ slot + cfg.addFixDelay
  null : (net'.routers msg.srcRouterID).r2rPort DISABLED_PORT = none

variable {port : PortGeneric}

theorem Idle.launched (hnet : Idle cfg slot net) (hfree : cfg.congestionFree = false)
    (hs : msg.srcRouterID < cfg.nRouters) (ht : msg.dstRouterID < cfg.nRouters)
    (hne : msg.srcRouterID ≠ msg.dstRouterID) (hslot : net.launchSlot msg globalClock = some (slot, port)) :
    ∃ A net', Launched cfg net msg globalClock slot A net' := by
  obtain ⟨A, hmake, htables⟩ := hnet.rTable
  obtain ⟨A', hmake', hA⟩ := make_rows (c := cfg.crossLat) cfg.oneLatency
  obtain rfl : A = A' := Option.some.inj (hmake.symm.trans hmake')
  obtain ⟨-, -, -, -, hdist⟩ := hA.getWire cfg.oneLatency hne ht (htables _ hs)
  obtain ⟨net', hlaunch, hcross, hrouters⟩ := launchMsg_eq hne (hnet.congestionFree.trans hfree) hslot
  rw [hnet.addFixDelay] at hlaunch
  have hports := hnet.r2rPort _ hs
  simp only [← (hrouters msg.srcRouterID).2] at hports
  refine ⟨A, net', hA, hlaunch, ⟨hcross.trans hnet.crossLat, fun i hi => ?_⟩, hdist, fun p hp => ?_, ?_⟩
  · rw [(hrouters i).1]
    exact htables i hi
  · obtain ⟨port, hport, htime⟩ := (hports p).1 hp
    exact ⟨port, hport, by omega⟩
  · exact (hports DISABLED_PORT).2 fun h => absurd h.1 (by decide)

theorem takes_of_linked (hnet : Idle cfg slot net) (hfree : cfg.congestionFree = false)
    (hs : msg.srcRouterID < cfg.nRouters) (ht : msg.dstRouterID < cfg.nRouters)
    (hne : msg.srcRouterID ≠ msg.dstRouterID) (hslot : net.launchSlot msg globalClock = some (slot, port))
    (hl : Linked cfg.adjacent msg.srcRouterID msg.dstRouterID) : net.Takes msg globalClock slot
      (cfg.addFixDelay + cfg.crossLat + net.distance msg.srcRouterID msg.dstRouterID) := by
  obtain ⟨A, net', h⟩ := hnet.launched hfree hs ht hne hslot
  refine ⟨_, net', h.launchMsg, 2, ?_⟩
  rw [h.routed.takes_of_linked h.rows hs hne hl h.idle, h.distance]
  simp only [Nat.add_assoc]

theorem not_takes_of_not_linked (hnet : Idle cfg slot net) (hfree : cfg.congestionFree = false)
    (hs : msg.srcRouterID < cfg.nRouters) (ht : msg.dstRouterID < cfg.nRouters)
    (hne : msg.srcRouterID ≠ msg.dstRouterID) (hslot : net.launchSlot msg globalClock = some (slot, port))
    (hl : ¬Linked cfg.adjacent msg.srcRouterID msg.dstRouterID) : ¬net.Takes msg globalClock slot
      (cfg.addFixDelay + cfg.crossLat + net.distance msg.srcRouterID msg.dstRouterID) := by
  obtain ⟨A, net', h⟩ := hnet.launched hfree hs ht hne hslot
  rintro ⟨call, net₁, hcall, fuel, hrun⟩
  rw [h.launchMsg, Option.some.injEq, Prod.mk.injEq] at hcall
  obtain ⟨rfl, rfl⟩ := hcall
  have hlater := h.routed.later_of_not_linked h.rows hs ht hne hl h.null hrun
  rw [h.distance] at hlater
  omega

/-- **Uncontended latency.** A message between different routers of an idle network that models contention takes the
fixed delay, one crossing and the distance in the table of its source exactly when the policy made a link between the
two routers. -/
theorem latency_iff (hnet : Idle cfg slot net) (hfree : cfg.congestionFree = false)
    (hs : msg.srcRouterID < cfg.nRouters) (ht : msg.dstRouterID < cfg.nRouters)
    (hne : msg.srcRouterID ≠ msg.dstRouterID) (hslot : net.launchSlot msg globalClock = some (slot, port)) :
    net.Takes msg globalClock slot
        (cfg.addFixDelay + cfg.crossLat + net.distance msg.srcRouterID msg.dstRouterID) ↔
      Linked cfg.adjacent msg.srcRouterID msg.dstRouterID := by
  constructor
  · intro htakes
    by_contra hl
    exact not_takes_of_not_linked hnet hfree hs ht hne hslot hl htakes
  · exact takes_of_linked hnet hfree hs ht hne hslot

/-- A bidirectional ring of four routers. -/
def ring : NetConfig where
  type := .biring
  nRouters := 4
  crossLat := 1
  wireLat := 1
  localNum := 1
  localOcc := 1
  localPort := 1
  fixMessagePath := false
  congestionFree := false
  addFixDelay := 0
  fits := trivial
  nRouters_lt := by decide
  wireLat_lt := by decide
  nPorts_lt := by decide

theorem exists_ring : ∃ net, ring.interConnection 0 = some net ∧ Idle ring 0 net ∧
    ∀ dst, net.launchSlot ⟨0, LOCAL_PORT1, dst, LOCAL_PORT1, 1⟩ 0 = some (0, .fullyPipe ⟨1⟩) := by
  obtain ⟨A, hA, -⟩ := make_rows (c := ring.crossLat) ring.oneLatency
  have hnet : ∃ net, ring.interConnection 0 = some net ∧
      ∀ dst, net.launchSlot ⟨0, LOCAL_PORT1, dst, LOCAL_PORT1, 1⟩ 0 = some (0, .fullyPipe ⟨1⟩) := by
    rw [NetConfig.interConnection, hA]
    exact ⟨_, rfl, fun _ => rfl⟩
  obtain ⟨net, hnew, hslot⟩ := hnet
  exact ⟨net, hnew, idle_new hnew (Nat.le_refl 0), hslot⟩

/-- From the router 0 to the router 1. -/
theorem latency_ring : ∃ net, ring.interConnection 0 = some net ∧
    net.Takes ⟨0, LOCAL_PORT1, 1, LOCAL_PORT1, 1⟩ 0 0 (0 + 1 + net.distance 0 1) := by
  obtain ⟨net, hnew, hidle, hslot⟩ := exists_ring
  exact ⟨net, hnew, (latency_iff hidle rfl (by decide) (by decide) (by decide) (hslot 1)).2 (by decide +kernel)⟩

/-- From the router 0 to the router 2, which is two hops away. -/
theorem not_latency_ring : ∃ net, ring.interConnection 0 = some net ∧ Idle ring 0 net ∧
    ¬net.Takes ⟨0, LOCAL_PORT1, 2, LOCAL_PORT1, 1⟩ 0 0 (0 + 1 + net.distance 0 2) := by
  obtain ⟨net, hnew, hidle, hslot⟩ := exists_ring
  exact ⟨net, hnew, hidle,
    not_takes_of_not_linked hidle rfl (by decide) (by decide) (by decide) (hslot 2) (by decide +kernel)⟩

end Routes

end InterConnection

end Esesc.Net
