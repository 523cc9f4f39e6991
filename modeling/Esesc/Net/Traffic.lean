import Mathlib.Tactic.Common
import Mathlib.Data.List.Perm.Basic
import Esesc.Lib.Machine
import Esesc.Net.Distances

/-!
# Traffic (`simu/libnet/Router.cpp`, `Message.cpp`, `InterConn.cpp`)

Any number of messages in one network. A message has one callback scheduled, and the callbacks that are due may come in
any order. Messages are launched at any time, and wait for the same ports.

* `Traffic.step`: a launch, a callback that is due, or the next cycle.
* `Traffic.Effect`: all that a step can do.
* `Flowing`: what every run keeps; `Flowing.effect`, `Flowing.ready`: no call ever finds a null port or no wire.
* `traffic_delivered`: every message is in the network or was notified, once, where it was sent to.
* `traffic_drains`: how many callbacks it takes until the network is empty.
-/

namespace Esesc.Net

open Esesc.Lib Esesc.Suc RoutingPolicy

/-- The callbacks of a message. -/
inductive Event
  | forwardMsg (router : ℕ)
  | receiveMsg (router : ℕ)
  | notifyMsg (router : ℕ)
  deriving DecidableEq

def Call.event : Call → Event
  | forwardMsg _ router => .forwardMsg router
  | receiveMsg _ router => .receiveMsg router

/-- A hop that a message has made: the cycle in which it was forwarded, the one it left in, and the wire. -/
structure Hop where
  router : ℕ
  time : ℕ
  slot : ℕ
  wire : Wire

/-- A message in the network and the callback that is scheduled for it. The other fields are its history, which no call
reads: its number, when it was launched and when its first callback was due, its hops, the last one first, and when it
was received. -/
structure Flight where
  id : ℕ
  msg : Message
  launchTime : ℕ
  start : ℕ
  hops : List Hop
  received : Option ℕ
  event : Event
  time : ℕ

/-- A network with its messages. The ports from routers to devices are not among those of `Router`. All messages that
were launched are kept with their numbers, the last one first. -/
structure Traffic where
  net : InterConnection
  r2lPort : ℕ → ℕ → Option PortGeneric
  globalClock : ℕ
  launched : List (ℕ × Message)
  flights : List Flight
  notified : List Flight

/-- What can come next. -/
inductive Act
  | launch (msg : Message)
  | call (k : ℕ)
  | tick

/-- The source and the destination are one port. -/
def Message.Same (msg : Message) : Prop := msg.dstRouterID = msg.srcRouterID ∧ msg.dstPortID = msg.srcPortID

instance (msg : Message) : Decidable msg.Same := inferInstanceAs (Decidable (_ ∧ _))

/-- The devices of a router are at these ports. -/
def NetConfig.LocalPort (cfg : NetConfig) (p : ℕ) : Prop := LOCAL_PORT1 ≤ p ∧ p < LOCAL_PORT1 + cfg.localNum

instance (cfg : NetConfig) (p : ℕ) : Decidable (cfg.LocalPort p) := inferInstanceAs (Decidable (_ ∧ _))

/-- The constructors. -/
def NetConfig.traffic (cfg : NetConfig) (globalClock : ℕ) : Option Traffic := do
  let net ← cfg.interConnection globalClock
  return {
    net := net
    r2lPort := fun _ p => if cfg.LocalPort p then some (.create cfg.localPort cfg.localOcc globalClock) else none
    globalClock := globalClock
    launched := []
    flights := []
    notified := [] }

/-- The hop that `forwardMsg` makes. -/
def InterConnection.hop (net : InterConnection) (msg : Message) (globalClock myID : ℕ) : Option Hop := do
  let wire ← ((net.routers myID).rTable.getWire msg.dstRouterID).1
  let port ← (net.routers myID).r2rPort wire.port
  return ⟨myID, globalClock, (port.occupySlots globalClock msg.numFlits).1, wire⟩

namespace Traffic

/-- `Router::receiveMsg` -/
def receiveMsg (s : Traffic) (f : Flight) (myID : ℕ) : Option Traffic := do
  let port ← s.r2lPort myID f.msg.dstPortID
  let slot ← port.occupySlots s.globalClock f.msg.numFlits
  return { s with
    r2lPort := Function.update s.r2lPort myID (Function.update (s.r2lPort myID) f.msg.dstPortID (some slot.2))
    flights := { f with
      received := some s.globalClock
      event := .notifyMsg myID
      time := slot.1 + f.msg.numFlits } :: s.flights }

/-- `Message::launchMsg`, which sets `launchTime`, and `Router::launchMsg`, which receives a message to where it is. -/
def launchMsg (s : Traffic) (msg : Message) : Option Traffic := do
  let call ← s.net.launchMsg msg s.globalClock
  let f : Flight := ⟨s.launched.length, msg, s.globalClock, call.1.time, [], none, call.1.event, call.1.time⟩
  let s' := { s with net := call.2, launched := (s.launched.length, msg) :: s.launched }
  if msg.Same then s'.receiveMsg f msg.dstRouterID
  else return { s' with flights := f :: s'.flights }

/-- `Router::forwardMsg`, which receives the messages that have arrived. -/
def forwardMsg (s : Traffic) (f : Flight) (myID : ℕ) : Option Traffic := do
  let call ← s.net.forwardMsg f.msg s.globalClock myID
  match call.1 with
  | .receiveMsg _ router => s.receiveMsg f router
  | .forwardMsg time router =>
    let hop ← s.net.hop f.msg s.globalClock myID
    return { s with
      net := call.2
      flights := { f with hops := hop :: f.hops, event := .forwardMsg router, time := time } :: s.flights }

/-- `Router::notifyMsg`, which gives the message to the device. -/
def notifyMsg (s : Traffic) (f : Flight) : Traffic := { s with notified := f :: s.notified }

/-- The callback of a message that is no longer scheduled. -/
def fire (s : Traffic) (f : Flight) : Option Traffic :=
  match f.event with
  | .forwardMsg router => s.forwardMsg f router
  | .receiveMsg router => s.receiveMsg f router
  | .notifyMsg _ => some (s.notifyMsg f)

/-- The clock goes on when no callback is due. -/
def step (s : Traffic) : Act → Option Traffic
  | .launch msg => s.launchMsg msg
  | .call k => do
    let f ← s.flights[k]?
    if f.time = s.globalClock then fire { s with flights := s.flights.eraseIdx k } f else none
  | .tick =>
    if ∀ f ∈ s.flights, f.time ≠ s.globalClock then some { s with globalClock := s.globalClock + 1 } else none

end Traffic

/-! ## Ports -/

/-- The configuration allows no longer occupancy, and then the products of `PortPipe` fit for every message. -/
def Sized : PortGeneric → Prop
  | .pipe p => p.ocp ≤ 32700
  | _ => True

section Ports

variable {p : PortGeneric} {c n occ nUnits : ℕ}

theorem sized_create (hocc : occ ≤ 32700) (nUnits c : ℕ) : Sized (.create nUnits occ c) := by
  unfold PortGeneric.create
  split
  · trivial
  · split
    · split <;> trivial
    · split
      · exact hocc
      · trivial

theorem le_nextSlotOcc (p : PortNPipe) (c occ : ℕ) : c ≤ (p.nextSlotOcc c occ).1 := by
  by_cases hne : p.portBusyUntil = []
  · rw [PortNPipe.nextSlotOcc, hne]
  · obtain ⟨k, b, r, hr, hk, hspec⟩ := p.nextSlotOcc_spec c occ hne
    rw [hr]
    rcases hspec with ⟨-, rfl⟩ | ⟨rfl, -, hbusy⟩
    · exact Nat.le_refl _
    · exact hbusy b (List.mem_of_getElem? hk)

/-- **A port** serves every message, and not before it is asked. -/
theorem Sized.occupySlots (h : Sized p) (c : ℕ) (hn : n < 2 ^ 16) :
    ∃ slot p', p.occupySlots c n = some (slot, p') ∧ c ≤ slot ∧ Sized p' := by
  have hmax : ∀ t : ℕ, c ≤ if t < c then c else t := by
    intro t
    split <;> omega
  cases p with
  | unlimited p => exact ⟨_, _, rfl, Nat.le_refl c, trivial⟩
  | fullyPipe p => exact ⟨_, _, rfl, hmax p.lTime, trivial⟩
  | fullyNPipe p => exact ⟨_, _, rfl, hmax p.lTime, trivial⟩
  | pipe p =>
    have hle : p.ocp * n ≤ 32700 * 65535 := Nat.mul_le_mul h (by omega)
    refine ⟨_, _, if_pos (by omega), hmax p.lTime, ?_⟩
    exact h
  | nPipe p => exact ⟨_, _, rfl, le_nextSlotOcc p c p.ocp, trivial⟩

end Ports

/-! ## The network -/

section Network

variable {cfg : NetConfig} {A : Adjacent} {net : InterConnection} {r2lPort : ℕ → ℕ → Option PortGeneric}
  {msg : Message} {s t : Traffic} {f : Flight} {c r p : ℕ}

/-- What the callers of a network promise, and `calcNumFlits` answers an `ushort`. -/
structure NetConfig.Accepts (cfg : NetConfig) (msg : Message) : Prop where
  src : msg.srcRouterID < cfg.nRouters
  srcPort : cfg.LocalPort msg.srcPortID
  dst : msg.dstRouterID < cfg.nRouters
  dstPort : cfg.LocalPort msg.dstPortID
  numFlits : msg.numFlits < 2 ^ 16

instance (cfg : NetConfig) (msg : Message) : Decidable (cfg.Accepts msg) :=
  decidable_of_iff (msg.srcRouterID < cfg.nRouters ∧ cfg.LocalPort msg.srcPortID ∧ msg.dstRouterID < cfg.nRouters ∧
    cfg.LocalPort msg.dstPortID ∧ msg.numFlits < 2 ^ 16)
    ⟨fun ⟨h₁, h₂, h₃, h₄, h₅⟩ => ⟨h₁, h₂, h₃, h₄, h₅⟩, fun ⟨h₁, h₂, h₃, h₄, h₅⟩ => ⟨h₁, h₂, h₃, h₄, h₅⟩⟩

/-- The ports to and from devices. -/
def LocalPorts (cfg : NetConfig) (ports : ℕ → ℕ → Option PortGeneric) : Prop :=
  ∀ i < cfg.nRouters, ∀ p, cfg.LocalPort p → ∃ port, ports i p = some port ∧ Sized port

/-- The network of a configuration, whatever messages it has served. -/
structure Alive (cfg : NetConfig) (A : Adjacent) (net : InterConnection) (r2lPort : ℕ → ℕ → Option PortGeneric) :
    Prop where
  crossLat : net.crossLat = cfg.crossLat
  addFixDelay : net.addFixDelay = cfg.addFixDelay
  congestionFree : net.congestionFree = cfg.congestionFree
  rTable : ∀ i < cfg.nRouters, (getRoutingTable cfg.nRouters cfg.fixMessagePath A i).Used (net.routers i).rTable
  r2rPort : ∀ i < cfg.nRouters, ∀ p, 0 < p → p ≤ cfg.nPorts → ∃ port, (net.routers i).r2rPort p = some port
  l2rPort : LocalPorts cfg fun i p => (net.routers i).l2rPort p
  r2lPort : LocalPorts cfg r2lPort

/-- The wires in the table of the router `r` for the destination `dst`. -/
def NetConfig.wires (cfg : NetConfig) (A : Adjacent) (r dst : ℕ) : List Wire :=
  ((getRoutingTable cfg.nRouters cfg.fixMessagePath A r).nextHop dst).succs

/-- One port between routers was used, from `slot` on. -/
def LinkUse (net : InterConnection) (r p c n slot : ℕ) (net' : InterConnection) : Prop :=
  ∃ port, (net.routers r).r2rPort p = some port ∧ slot = (port.occupySlots c n).1 ∧ ∀ i q, (net'.routers i).r2rPort q =
    if i = r ∧ q = p then some (port.occupySlots c n).2 else (net.routers i).r2rPort q

/-- **Steps.** All that a step can do, with `Alive` networks before and after it. -/
inductive Traffic.Effect (cfg : NetConfig) (A : Adjacent) (s : Traffic) : Act → Traffic → Prop
  | same (msg : Message) (slot : ℕ) (r2lPort : ℕ → ℕ → Option PortGeneric) : cfg.Accepts msg → msg.Same →
      s.globalClock ≤ slot → Alive cfg A s.net r2lPort →
      Effect cfg A s (.launch msg) { s with
        r2lPort := r2lPort
        launched := (s.launched.length, msg) :: s.launched
        flights := ⟨s.launched.length, msg, s.globalClock, s.globalClock, [], some s.globalClock,
          .notifyMsg msg.dstRouterID, slot + msg.numFlits⟩ :: s.flights }
  | launch (msg : Message) (slot : ℕ) (net : InterConnection) : cfg.Accepts msg → ¬msg.Same → s.globalClock ≤ slot →
      Alive cfg A net s.r2lPort → (∀ i, (net.routers i).r2rPort = (s.net.routers i).r2rPort) →
      Effect cfg A s (.launch msg) { s with
        net := net
        launched := (s.launched.length, msg) :: s.launched
        flights := ⟨s.launched.length, msg, s.globalClock, slot + cfg.addFixDelay, [], none,
          if cfg.congestionFree = true then .receiveMsg msg.dstRouterID else .forwardMsg msg.srcRouterID,
          slot + cfg.addFixDelay⟩ :: s.flights }
  | hop (k : ℕ) (f : Flight) (fs : List Flight) (r slot : ℕ) (y : Wire) (net : InterConnection) :
      (f :: fs).Perm s.flights → f.time = s.globalClock → f.event = .forwardMsg r → r ≠ f.msg.dstRouterID →
      y ∈ cfg.wires A r f.msg.dstRouterID → cfg.Closer r f.msg.dstRouterID y → s.globalClock ≤ slot →
      LinkUse s.net r y.port s.globalClock f.msg.numFlits slot net → Alive cfg A net s.r2lPort →
      Effect cfg A s (.call k) { s with
        net := net
        flights := { f with
          hops := ⟨r, s.globalClock, slot, y⟩ :: f.hops
          event := .forwardMsg y.rID
          time := slot + cfg.crossLat + y.dist } :: fs }
  | receive (k : ℕ) (f : Flight) (fs : List Flight) (slot : ℕ) (r2lPort : ℕ → ℕ → Option PortGeneric) :
      (f :: fs).Perm s.flights → f.time = s.globalClock →
      f.event = .forwardMsg f.msg.dstRouterID ∨ f.event = .receiveMsg f.msg.dstRouterID → s.globalClock ≤ slot →
      Alive cfg A s.net r2lPort →
      Effect cfg A s (.call k) { s with
        r2lPort := r2lPort
        flights := { f with
          received := some s.globalClock
          event := .notifyMsg f.msg.dstRouterID
          time := slot + f.msg.numFlits } :: fs }
  | notify (k : ℕ) (f : Flight) (fs : List Flight) : (f :: fs).Perm s.flights → f.time = s.globalClock →
      f.event = .notifyMsg f.msg.dstRouterID →
      Effect cfg A s (.call k) { s with flights := fs, notified := f :: s.notified }
  | tick : (∀ f ∈ s.flights, f.time ≠ s.globalClock) →
      Effect cfg A s .tick { s with globalClock := s.globalClock + 1 }

/-- A new network. -/
theorem Alive.new (hocc : cfg.localOcc ≤ 32700) (h : cfg.traffic c = some s) :
    ∃ A, make cfg.nRouters cfg.crossLat cfg.adjacent = some A ∧ Alive cfg A s.net s.r2lPort ∧ s.globalClock = c ∧
      s.launched = [] ∧ s.flights = [] ∧ s.notified = [] := by
  obtain ⟨net, hnet, h⟩ := Option.bind_eq_some_iff.1 h
  obtain ⟨A, hA, hnet⟩ := Option.bind_eq_some_iff.1 hnet
  obtain rfl := Option.some.inj hnet
  obtain rfl := Option.some.inj h
  have hlocal : ∀ p, cfg.LocalPort p →
      ∃ port, (if cfg.LocalPort p then some (PortGeneric.create cfg.localPort cfg.localOcc c) else none) = some port ∧
        Sized port := fun p hp => ⟨_, if_pos hp, sized_create hocc _ _⟩
  refine ⟨A, hA, ⟨rfl, rfl, rfl, fun i _ => .refl, fun i _ p hpos hle => ?_, fun i _ => hlocal, fun i _ => hlocal⟩,
    rfl, rfl, rfl, rfl⟩
  exact ⟨.new c, if_pos ⟨hpos, hle⟩⟩

theorem LocalPorts.update {ports ports' : ℕ → ℕ → Option PortGeneric} {port : PortGeneric}
    (h : LocalPorts cfg ports) (hport : Sized port)
    (hports : ∀ i q, ports' i q = if i = r ∧ q = p then some port else ports i q) : LocalPorts cfg ports' := by
  intro i hi q hq
  rw [hports]
  split
  · exact ⟨port, rfl, hport⟩
  · exact h i hi q hq

theorem update_update {α : Type*} (g : ℕ → ℕ → α) (i q r p : ℕ) (x : α) :
    Function.update g r (Function.update (g r) p x) i q = if i = r ∧ q = p then x else g i q := by
  by_cases hi : i = r
  · subst hi
    simp [Function.update_apply]
  · simp [hi]

/-- **Receiving** a message at its destination. -/
theorem Traffic.receiveMsg_spec (hs : Alive cfg A s.net s.r2lPort) (hmsg : cfg.Accepts f.msg) :
    ∃ slot r2lPort, s.receiveMsg f f.msg.dstRouterID = some { s with
        r2lPort := r2lPort
        flights := { f with
          received := some s.globalClock
          event := .notifyMsg f.msg.dstRouterID
          time := slot + f.msg.numFlits } :: s.flights } ∧ s.globalClock ≤ slot ∧ Alive cfg A s.net r2lPort := by
  obtain ⟨port, hport, hsized⟩ := hs.r2lPort _ hmsg.dst _ hmsg.dstPort
  obtain ⟨slot, port', hslot, hle, hsized'⟩ := hsized.occupySlots s.globalClock hmsg.numFlits
  refine ⟨slot, Function.update s.r2lPort f.msg.dstRouterID
    (Function.update (s.r2lPort f.msg.dstRouterID) f.msg.dstPortID (some port')), ?_, hle, ?_⟩
  · rw [Traffic.receiveMsg, hport]
    simp only [Option.bind_eq_bind, Option.bind_some, hslot]
    rfl
  · exact { hs with r2lPort := hs.r2lPort.update hsized' fun i q => update_update _ i q _ _ _ }

/-- **Launching** a message to another port. -/
theorem InterConnection.launchMsg_spec (hs : Alive cfg A net r2lPort) (hmsg : cfg.Accepts msg) (hsame : ¬msg.Same)
    (c : ℕ) : ∃ slot net', net.launchMsg msg c = some
        (if cfg.congestionFree = true then .receiveMsg (slot + cfg.addFixDelay) msg.dstRouterID
          else .forwardMsg (slot + cfg.addFixDelay) msg.srcRouterID, net') ∧ c ≤ slot ∧
      Alive cfg A net' r2lPort ∧ ∀ i, (net'.routers i).r2rPort = (net.routers i).r2rPort := by
  obtain ⟨port, hport, hsized⟩ := hs.l2rPort _ hmsg.src _ hmsg.srcPort
  obtain ⟨slot, port', hslot, hle, hsized'⟩ := hsized.occupySlots c hmsg.numFlits
  have hother : ¬(msg.dstRouterID = msg.srcRouterID ∧ msg.dstPortID = msg.srcPortID) := hsame
  have hlaunch : net.launchSlot msg c = some (slot, port') := by
    have hbind : ((net.routers msg.srcRouterID).l2rPort msg.srcPortID).bind
        (fun port => port.occupySlots c msg.numFlits) = some (slot, port') :=
      Option.bind_eq_some_iff.2 ⟨port, hport, hslot⟩
    exact hbind
  have hrouter : ∀ i, (net.setRouter msg.srcRouterID { net.routers msg.srcRouterID with
      l2rPort := Function.update (net.routers msg.srcRouterID).l2rPort msg.srcPortID (some port') }).routers i =
      if i = msg.srcRouterID then { net.routers msg.srcRouterID with
        l2rPort := Function.update (net.routers msg.srcRouterID).l2rPort msg.srcPortID (some port') }
      else net.routers i := fun i => Function.update_apply _ _ _ _
  refine ⟨slot, net.setRouter msg.srcRouterID { net.routers msg.srcRouterID with
      l2rPort := Function.update (net.routers msg.srcRouterID).l2rPort msg.srcPortID (some port') }, ?_, hle,
    ⟨hs.crossLat, hs.addFixDelay, hs.congestionFree, fun i hi => ?_, fun i hi => ?_, ?_, hs.r2lPort⟩, fun i => ?_⟩
  · rw [InterConnection.launchMsg, if_neg hother, hlaunch]
    simp only [Option.bind_eq_bind, Option.bind_some, hs.addFixDelay, hs.congestionFree]
    rfl
  · have hused := hs.rTable i hi
    rw [hrouter]
    split
    · rename_i heq
      subst heq
      exact hused
    · exact hused
  · have hports := hs.r2rPort i hi
    rw [hrouter]
    split
    · rename_i heq
      subst heq
      exact hports
    · exact hports
  · refine hs.l2rPort.update (r := msg.srcRouterID) (p := msg.srcPortID) hsized' fun i q => ?_
    simp only [hrouter]
    by_cases hi : i = msg.srcRouterID
    · subst hi
      simp [Function.update_apply]
    · simp [hi]
  · rw [hrouter]
    split
    · rename_i heq
      subst heq
      rfl
    · rfl

/-- **Forwarding** a message that has not arrived. -/
theorem InterConnection.forwardMsg_spec (h : cfg.Routable) (hA : make cfg.nRouters cfg.crossLat cfg.adjacent = some A)
    (hs : Alive cfg A net r2lPort) (hmsg : cfg.Accepts msg) (hr : r < cfg.nRouters) (hne : r ≠ msg.dstRouterID)
    (c : ℕ) : ∃ y ∈ cfg.wires A r msg.dstRouterID, ∃ slot net', net.hop msg c r = some ⟨r, c, slot, y⟩ ∧
      net.forwardMsg msg c r = some (.forwardMsg (slot + cfg.crossLat + y.dist) y.rID, net') ∧
      cfg.Closer r msg.dstRouterID y ∧ c ≤ slot ∧ LinkUse net r y.port c msg.numFlits slot net' ∧
      Alive cfg A net' r2lPort := by
  obtain ⟨y, hy, hget, hcloser⟩ := h.getWire hA hr hmsg.dst hne (hs.rTable r hr)
  obtain ⟨-, -, q, hpos, hle, hrow⟩ := cfg.oneLatency.row_link hcloser.link
  have hyport : 0 < y.port ∧ y.port ≤ cfg.nPorts := by
    rw [hcloser.port, hrow]
    exact ⟨hpos, hle⟩
  obtain ⟨port, hport⟩ := hs.r2rPort r hr _ hyport.1 hyport.2
  have hrouter : ∀ i, (net.setRouter r { net.routers r with
      rTable := ((net.routers r).rTable.getWire msg.dstRouterID).2
      r2rPort := Function.update (net.routers r).r2rPort y.port (some (port.occupySlots c msg.numFlits).2) }).routers i =
      if i = r then { net.routers r with
        rTable := ((net.routers r).rTable.getWire msg.dstRouterID).2
        r2rPort := Function.update (net.routers r).r2rPort y.port (some (port.occupySlots c msg.numFlits).2) }
      else net.routers i := fun i => Function.update_apply _ _ _ _
  -- the table rotates its row, and one port is occupied: nothing else of the network changes
  refine ⟨y, hy, _, net.setRouter r { net.routers r with
      rTable := ((net.routers r).rTable.getWire msg.dstRouterID).2
      r2rPort := Function.update (net.routers r).r2rPort y.port (some (port.occupySlots c msg.numFlits).2) }, ?_, ?_,
    hcloser, InterConnection.le_occupySlots port c msg.numFlits, ⟨port, hport, rfl, fun i q => ?_⟩,
    ⟨hs.crossLat, hs.addFixDelay, hs.congestionFree, fun i hi => ?_, fun i hi q hq hqle => ?_, fun i hi q hq => ?_,
      hs.r2lPort⟩⟩
  · rw [InterConnection.hop, hget]
    simp only [Option.bind_eq_bind, Option.bind_some, hport]
    rfl
  · rw [InterConnection.forwardMsg, if_neg hne.symm]
    simp only [hget, hport, Option.bind_eq_bind, Option.bind_some, hs.crossLat]
    rfl
  · rw [hrouter]
    by_cases hi : i = r
    · subst hi
      simp [Function.update_apply]
    · simp [hi]
  · rw [hrouter]
    split
    · rename_i heq
      subst heq
      exact .getWire _ (hs.rTable i hi)
    · exact hs.rTable i hi
  · rw [hrouter]
    split
    · by_cases hq' : q = y.port
      · exact ⟨(port.occupySlots c msg.numFlits).2, by simp [hq']⟩
      · obtain ⟨port', hport'⟩ := hs.r2rPort r hr q hq hqle
        exact ⟨port', by simpa [hq'] using hport'⟩
    · exact hs.r2rPort i hi q hq hqle
  · have hports := hs.l2rPort i hi q hq
    simp only [hrouter]
    split
    · rename_i heq
      subst heq
      exact hports
    · exact hports

end Network

/-! ## Every run -/

/-- A message on its way. -/
structure Flight.Ok (cfg : NetConfig) (globalClock : ℕ) (f : Flight) : Prop where
  accepts : cfg.Accepts f.msg
  due : globalClock ≤ f.time
  place : match f.event with
    | .forwardMsg router => router < cfg.nRouters
    | .receiveMsg router => router = f.msg.dstRouterID
    | .notifyMsg router => router = f.msg.dstRouterID

/-- The number and the message. -/
def Flight.sent (f : Flight) : ℕ × Message := (f.id, f.msg)

/-- **What every run keeps.** -/
structure Flowing (cfg : NetConfig) (A : Adjacent) (s : Traffic) : Prop where
  alive : Alive cfg A s.net s.r2lPort
  flights : ∀ f ∈ s.flights, f.Ok cfg s.globalClock
  notified : ∀ f ∈ s.notified, f.event = .notifyMsg f.msg.dstRouterID
  sent : ((s.flights ++ s.notified).map Flight.sent).Perm s.launched
  numbers : s.launched.map Prod.fst = (List.range s.launched.length).reverse

/-- The callbacks that are still to come for a message. -/
def Flight.work (cfg : NetConfig) (f : Flight) : ℕ :=
  match f.event with
  | .forwardMsg router => cfg.hops router f.msg.dstRouterID + 2
  | .receiveMsg _ => 2
  | .notifyMsg _ => 1

/-- And for all messages. -/
def totalWork (cfg : NetConfig) : List Flight → ℕ
  | [] => 0
  | f :: fs => f.work cfg + totalWork cfg fs

/-- The messages that are launched. -/
def launches : List Act → List Message
  | [] => []
  | .launch msg :: as => msg :: launches as
  | _ :: as => launches as

/-- The number of callbacks. -/
def calls : List Act → ℕ
  | [] => 0
  | .call _ :: as => calls as + 1
  | _ :: as => calls as

/-- Only messages that the network accepts are launched. -/
def Accepted (cfg : NetConfig) : Act → Prop
  | .launch msg => cfg.Accepts msg
  | _ => True

section Runs

variable {cfg : NetConfig} {A : Adjacent} {s t : Traffic} {f : Flight} {fs gs : List Flight} {a : Act} {as : List Act}
  {msg : Message} {k c : ℕ}

theorem totalWork_perm (h : fs.Perm gs) : totalWork cfg fs = totalWork cfg gs := by
  induction h with
  | nil => rfl
  | cons f _ ih => rw [totalWork, totalWork, ih]
  | swap f g fs =>
    simp only [totalWork]
    omega
  | trans _ _ ih₁ ih₂ => exact ih₁.trans ih₂

theorem Flowing.of_perm (hs : Flowing cfg A s) (hfs : (f :: fs).Perm s.flights) :
    f.Ok cfg s.globalClock ∧ ∀ g ∈ fs, g.Ok cfg s.globalClock :=
  ⟨hs.flights f (hfs.mem_iff.1 List.mem_cons_self), fun g hg => hs.flights g (hfs.mem_iff.1 (List.mem_cons_of_mem f hg))⟩

/-- The callback of a message can be carried out. -/
theorem Flowing.fire (h : cfg.Routable) (hA : make cfg.nRouters cfg.crossLat cfg.adjacent = some A)
    (hs : Flowing cfg A s) (hfs : (f :: fs).Perm s.flights) (htime : f.time = s.globalClock) (k : ℕ) :
    ∃ t, Traffic.fire { s with flights := fs } f = some t ∧ s.Effect cfg A (.call k) t := by
  obtain ⟨hf, -⟩ := hs.of_perm hfs
  have halive : Alive cfg A { s with flights := fs }.net { s with flights := fs }.r2lPort := hs.alive
  have hplace := hf.place
  cases hevent : f.event with
  | forwardMsg router =>
    rw [hevent] at hplace
    -- a message that has arrived is received in the same callback
    by_cases hdst : router = f.msg.dstRouterID
    · subst hdst
      obtain ⟨slot, r2lPort, hreceive, hle, halive'⟩ := Traffic.receiveMsg_spec halive hf.accepts
      refine ⟨_, ?_, .receive k f fs slot r2lPort hfs htime (.inl hevent) hle halive'⟩
      have hforward : s.net.forwardMsg f.msg s.globalClock f.msg.dstRouterID =
          some (.receiveMsg s.globalClock f.msg.dstRouterID, s.net) := if_pos rfl
      rw [Traffic.fire, hevent]
      simp only [Traffic.forwardMsg, hforward, Option.bind_eq_bind, Option.bind_some, hreceive]
    · obtain ⟨y, hy, slot, net', hhop, hforward, hcloser, hle, huse, halive'⟩ :=
        InterConnection.forwardMsg_spec h hA hs.alive hf.accepts hplace hdst s.globalClock
      refine ⟨_, ?_, .hop k f fs router slot y net' hfs htime hevent hdst hy hcloser hle huse halive'⟩
      rw [Traffic.fire, hevent]
      simp only [Traffic.forwardMsg, hforward, hhop, Option.bind_eq_bind, Option.bind_some]
      rfl
  | receiveMsg router =>
    rw [hevent] at hplace
    subst hplace
    obtain ⟨slot, r2lPort, hreceive, hle, halive'⟩ := Traffic.receiveMsg_spec halive hf.accepts
    refine ⟨_, ?_, .receive k f fs slot r2lPort hfs htime (.inr hevent) hle halive'⟩
    rw [Traffic.fire, hevent]
    simp only [hreceive]
  | notifyMsg router =>
    rw [hevent] at hplace
    subst hplace
    refine ⟨_, ?_, .notify k f fs hfs htime hevent⟩
    rw [Traffic.fire, hevent]
    rfl

/-- **No call fails.** A message that the network accepts can be launched, and a callback that is due be carried out. -/
theorem Flowing.ready (h : cfg.Routable) (hA : make cfg.nRouters cfg.crossLat cfg.adjacent = some A)
    (hs : Flowing cfg A s) : (∀ msg, cfg.Accepts msg → ∃ t, s.step (.launch msg) = some t ∧ s.Effect cfg A (.launch msg) t) ∧
      ∀ k f, s.flights[k]? = some f → f.time = s.globalClock →
        ∃ t, s.step (.call k) = some t ∧ s.Effect cfg A (.call k) t := by
  refine ⟨fun msg hmsg => ?_, fun k f hk htime => ?_⟩
  · by_cases hsame : msg.Same
    · -- to the router it came from: the launch is all
      let s' := { s with launched := (s.launched.length, msg) :: s.launched }
      obtain ⟨slot, r2lPort, hreceive, hle, halive⟩ := Traffic.receiveMsg_spec (s := s')
        (f := ⟨s.launched.length, msg, s.globalClock, s.globalClock, [], none, .receiveMsg msg.dstRouterID,
          s.globalClock⟩) hs.alive hmsg
      refine ⟨_, ?_, .same msg slot r2lPort hmsg hsame hle halive⟩
      have hlaunch : s.net.launchMsg msg s.globalClock = some (.receiveMsg s.globalClock msg.dstRouterID, s.net) :=
        if_pos hsame
      rw [Traffic.step, Traffic.launchMsg, hlaunch]
      simp only [Option.bind_eq_bind, Option.bind_some, if_pos hsame]
      exact hreceive
    · obtain ⟨slot, net', hlaunch, hle, halive, hports⟩ :=
        InterConnection.launchMsg_spec hs.alive hmsg hsame s.globalClock
      refine ⟨_, ?_, .launch msg slot net' hmsg hsame hle halive hports⟩
      rw [Traffic.step, Traffic.launchMsg, hlaunch]
      simp only [Option.bind_eq_bind, Option.bind_some, if_neg hsame]
      split <;> rfl
  · have hfs : (f :: s.flights.eraseIdx k).Perm s.flights := by
      obtain ⟨hlt, rfl⟩ := List.getElem?_eq_some_iff.1 hk
      exact List.getElem_cons_eraseIdx_perm hlt
    obtain ⟨t, hfire, heffect⟩ := hs.fire h hA hfs htime k
    refine ⟨t, ?_, heffect⟩
    simp only [Traffic.step, hk, Option.bind_eq_bind, Option.bind_some, if_pos htime, hfire]

/-- **Every step** is one of `Effect`. -/
theorem Flowing.effect (h : cfg.Routable) (hA : make cfg.nRouters cfg.crossLat cfg.adjacent = some A)
    (hs : Flowing cfg A s) (ha : Accepted cfg a) (hstep : s.step a = some t) : s.Effect cfg A a t := by
  cases a with
  | launch msg =>
    obtain ⟨t', hstep', heffect⟩ := (hs.ready h hA).1 msg ha
    rwa [Option.some.inj (hstep.symm.trans hstep')]
  | call k =>
    have hcall := hstep
    obtain ⟨f, hk, hstep⟩ := Option.bind_eq_some_iff.1 hstep
    split at hstep
    · rename_i htime
      obtain ⟨t', hstep', heffect⟩ := (hs.ready h hA).2 k f hk htime
      rwa [Option.some.inj (hcall.symm.trans hstep')]
    · cases hstep
  | tick =>
    rw [Traffic.step] at hstep
    split at hstep
    · rename_i hidle
      obtain rfl := Option.some.inj hstep
      exact .tick hidle
    · cases hstep

theorem Flowing.new (hocc : cfg.localOcc ≤ 32700) (hnew : cfg.traffic c = some s) :
    ∃ A, make cfg.nRouters cfg.crossLat cfg.adjacent = some A ∧ Flowing cfg A s := by
  obtain ⟨A, hA, halive, -, hlaunched, hflights, hnotified⟩ := Alive.new hocc hnew
  refine ⟨A, hA, halive, ?_, ?_, ?_, ?_⟩
  · simp [hflights]
  · simp [hnotified]
  · simp [hflights, hnotified, hlaunched]
  · simp [hlaunched]

/-- The number of a new message. -/
theorem numbers_cons {l : List (ℕ × Message)} (h : l.map Prod.fst = (List.range l.length).reverse) (msg : Message) :
    ((l.length, msg) :: l).map Prod.fst = (List.range ((l.length, msg) :: l).length).reverse := by
  rw [List.map_cons, h, List.length_cons, List.range_succ, List.reverse_append]
  rfl

/-- A message is somewhere else, or notified. -/
theorem sent_perm {notified : List Flight} {l : List (ℕ × Message)}
    (h : ((s.flights ++ notified).map Flight.sent).Perm l) (hfs : (f :: fs).Perm s.flights) :
    (f.sent :: (fs ++ notified).map Flight.sent).Perm l :=
  ((hfs.append_right notified).map Flight.sent).trans h

/-- **The step lemma.** -/
theorem Flowing.step (hs : Flowing cfg A s) (heffect : s.Effect cfg A a t) : Flowing cfg A t := by
  cases heffect with
  | same msg slot r2lPort hmsg hsame hle halive =>
    refine ⟨halive, ?_, hs.notified, hs.sent.cons _, numbers_cons hs.numbers msg⟩
    exact List.forall_mem_cons.2 ⟨⟨hmsg, Nat.le_trans hle (Nat.le_add_right _ _), rfl⟩, hs.flights⟩
  | launch msg slot net hmsg hsame hle halive hports =>
    refine ⟨halive, ?_, hs.notified, hs.sent.cons _, numbers_cons hs.numbers msg⟩
    refine List.forall_mem_cons.2 ⟨⟨hmsg, Nat.le_trans hle (Nat.le_add_right _ _), ?_⟩, hs.flights⟩
    by_cases hfree : cfg.congestionFree = true
    · simp only [if_pos hfree]
    · simp only [if_neg hfree]
      exact hmsg.src
  | hop k f fs r slot y net hfs htime hevent hne hy hcloser hle huse halive =>
    obtain ⟨hf, hrest⟩ := hs.of_perm hfs
    have hsent := sent_perm hs.sent hfs
    refine ⟨halive, ?_, hs.notified, hsent, hs.numbers⟩
    refine List.forall_mem_cons.2 ⟨⟨hf.accepts, ?_, hcloser.inside⟩, hrest⟩
    show s.globalClock ≤ slot + cfg.crossLat + y.dist
    omega
  | receive k f fs slot r2lPort hfs htime hevent hle halive =>
    obtain ⟨hf, hrest⟩ := hs.of_perm hfs
    have hsent := sent_perm hs.sent hfs
    refine ⟨halive, ?_, hs.notified, hsent, hs.numbers⟩
    exact List.forall_mem_cons.2 ⟨⟨hf.accepts, Nat.le_trans hle (Nat.le_add_right _ _), rfl⟩, hrest⟩
  | notify k f fs hfs htime hevent =>
    refine ⟨hs.alive, (hs.of_perm hfs).2, List.forall_mem_cons.2 ⟨hevent, hs.notified⟩, ?_, hs.numbers⟩
    -- only here a message leaves the network
    have hmiddle : (fs ++ f :: s.notified).Perm (f :: (fs ++ s.notified)) := List.perm_middle
    exact (hmiddle.map Flight.sent).trans (sent_perm hs.sent hfs)
  | tick hidle =>
    refine ⟨hs.alive, fun f hf => ?_, hs.notified, hs.sent, hs.numbers⟩
    obtain ⟨haccepts, hdue, hplace⟩ := hs.flights f hf
    -- no message is due, so each one is due later
    have := hidle f hf
    exact ⟨haccepts, by show s.globalClock + 1 ≤ f.time; omega, hplace⟩

/-- **The run lemma.** -/
theorem Flowing.of_run (h : cfg.Routable) (hA : make cfg.nRouters cfg.crossLat cfg.adjacent = some A)
    (hs : Flowing cfg A s) (has : ∀ a ∈ as, Accepted cfg a) (hrun : run Traffic.step s as = some t) : Flowing cfg A t :=
  run_inv_along (fun _ _ _ hstep ha hs => hs.step (hs.effect h hA ha hstep)) hrun (.of_forall_mem (fun a ha _ => has a ha) s) hs

theorem launched_run (h : cfg.Routable) (hA : make cfg.nRouters cfg.crossLat cfg.adjacent = some A)
    (hs : Flowing cfg A s) (has : ∀ a ∈ as, Accepted cfg a) (hrun : run Traffic.step s as = some t) :
    t.launched.map Prod.snd = (launches as).reverse ++ s.launched.map Prod.snd := by
  induction as generalizing s with
  | nil =>
    obtain rfl := Option.some.inj hrun
    rfl
  | cons a as ih =>
    obtain ⟨u, hstep, hrun⟩ := run_cons.1 hrun
    have heffect := hs.effect h hA (has a List.mem_cons_self) hstep
    have hrest := ih (hs.step heffect) (fun b hb => has b (List.mem_cons_of_mem a hb)) hrun
    rw [hrest]
    cases heffect with
    | same | launch => simp [launches]
    | hop | receive | notify | tick => rfl

/-- **Delivery.** In a network of any type, with any traffic: a message that is launched is in the network or was
notified, never both and never twice, and it is notified where it was sent to. No callback is late, a callback that is
due can be carried out, and a message that the network accepts can be launched. -/
theorem traffic_delivered (cfg : NetConfig) (h : cfg.Routable) (hocc : cfg.localOcc ≤ 32700)
    (hnew : cfg.traffic c = some s) (has : ∀ a ∈ as, Accepted cfg a) (hrun : run Traffic.step s as = some t) :
    t.launched.map Prod.snd = (launches as).reverse ∧ (t.launched.map Prod.fst).Nodup ∧
      ((t.flights ++ t.notified).map Flight.sent).Perm t.launched ∧
      (∀ f ∈ t.notified, f.event = .notifyMsg f.msg.dstRouterID) ∧
      (∀ f ∈ t.flights, t.globalClock ≤ f.time) ∧
      (∀ msg, cfg.Accepts msg → ∃ u, t.step (.launch msg) = some u) ∧
      ∀ k f, t.flights[k]? = some f → f.time = t.globalClock → ∃ u, t.step (.call k) = some u := by
  obtain ⟨A, hA, hs⟩ := Flowing.new hocc hnew
  have ht := hs.of_run h hA has hrun
  obtain ⟨hlaunch, hcall⟩ := ht.ready h hA
  refine ⟨?_, ?_, ht.sent, ht.notified, fun f hf => (ht.flights f hf).due, fun msg hmsg => ?_, fun k f hk htime => ?_⟩
  · obtain ⟨-, -, -, -, hlaunched, -⟩ := Alive.new hocc hnew
    -- the network starts with no message launched
    rw [launched_run h hA hs has hrun, hlaunched, List.map_nil, List.append_nil]
  · rw [ht.numbers, List.nodup_reverse]
    exact List.nodup_range
  · obtain ⟨u, hu, -⟩ := hlaunch msg hmsg
    exact ⟨u, hu⟩
  · obtain ⟨u, hu, -⟩ := hcall k f hk htime
    exact ⟨u, hu⟩

/-- A message over two hops of the ring of four, and another one on its way. -/
def ringActs : List Act :=
  [.launch ⟨0, LOCAL_PORT1, 2, LOCAL_PORT1, 1⟩, .call 0, .tick, .tick, .tick, .tick, .call 0, .tick, .tick, .call 0, .tick,
    .call 0, .launch ⟨1, LOCAL_PORT1, 3, LOCAL_PORT1, 1⟩, .call 0]

theorem exists_ringActs : ∃ s t, InterConnection.ring.traffic 0 = some s ∧ run Traffic.step s ringActs = some t := by
  have hsome : ((InterConnection.ring.traffic 0).bind fun s => run Traffic.step s ringActs).isSome = true := by
    decide +kernel
  obtain ⟨t, ht⟩ := Option.isSome_iff_exists.1 hsome
  obtain ⟨s, hs, hrun⟩ := Option.bind_eq_some_iff.1 ht
  exact ⟨s, t, hs, hrun⟩

theorem accepted_ringActs : ∀ a ∈ ringActs, Accepted InterConnection.ring a := by
  have hmsg : InterConnection.ring.Accepts ⟨0, LOCAL_PORT1, 2, LOCAL_PORT1, 1⟩ ∧
      InterConnection.ring.Accepts ⟨1, LOCAL_PORT1, 3, LOCAL_PORT1, 1⟩ := by decide
  simp [ringActs, Accepted, hmsg]

theorem traffic_delivered_ring : ∃ s t, InterConnection.ring.traffic 0 = some s ∧ run Traffic.step s ringActs = some t ∧
    ((t.flights ++ t.notified).map Flight.sent).Perm t.launched ∧
      t.launched.map (fun x => x.2.dstRouterID) = [3, 2] := by
  obtain ⟨s, t, hs, hrun⟩ := exists_ringActs
  have hall := traffic_delivered InterConnection.ring NetConfig.routable_ring (by decide) hs accepted_ringActs hrun
  refine ⟨s, t, hs, hrun, hall.2.2.1, ?_⟩
  have hdst : t.launched.map (fun x => x.2.dstRouterID) = (t.launched.map Prod.snd).map Message.dstRouterID := by
    rw [List.map_map]
    rfl
  rw [hdst, hall.1]
  rfl

/-! ### Draining -/

/-- No message is launched. -/
def Quiet : Act → Prop
  | .launch _ => False
  | _ => True

theorem Quiet.accepted (h : Quiet a) : Accepted cfg a := by
  cases a with
  | launch msg => exact h.elim
  | call k => trivial
  | tick => trivial

/-- A callback is work done, and nothing else is. -/
theorem Traffic.Effect.work (heffect : s.Effect cfg A a t) (ha : Quiet a) :
    totalWork cfg s.flights = totalWork cfg t.flights + calls [a] := by
  cases heffect with
  | same | launch => exact ha.elim
  | hop k f fs r slot y net hfs htime hevent hne hy hcloser =>
    -- one link less is left
    have hone := hcloser.hop
    rw [← totalWork_perm hfs, totalWork, totalWork, Flight.work, Flight.work, hevent]
    simp only [calls]
    omega
  | receive k f fs slot r2lPort hfs htime hevent =>
    have hwork : f.work cfg = 2 := by
      rcases hevent with hevent | hevent
      · rw [Flight.work, hevent]
        simp only [cfg.descends.self]
      · rw [Flight.work, hevent]
    rw [← totalWork_perm hfs, totalWork, totalWork, hwork]
    simp only [Flight.work, calls]
    omega
  | notify k f fs hfs htime hevent =>
    rw [← totalWork_perm hfs, totalWork, Flight.work, hevent]
    simp only [calls]
    omega
  | tick => rfl

theorem calls_cons (a : Act) (as : List Act) : calls (a :: as) = calls [a] + calls as := by
  cases a with
  | launch | tick => simp [calls]
  | call k =>
    simp only [calls]
    omega

theorem Flowing.work_run (h : cfg.Routable) (hA : make cfg.nRouters cfg.crossLat cfg.adjacent = some A)
    (hs : Flowing cfg A s) (has : ∀ a ∈ as, Quiet a) (hrun : run Traffic.step s as = some t) :
    totalWork cfg s.flights = totalWork cfg t.flights + calls as := by
  induction as generalizing s with
  | nil =>
    obtain rfl := Option.some.inj hrun
    rfl
  | cons a as ih =>
    obtain ⟨u, hstep, hrun⟩ := run_cons.1 hrun
    have ha := has a List.mem_cons_self
    have heffect := hs.effect h hA ha.accepted hstep
    have hone := heffect.work ha
    have hrest := ih (hs.step heffect) (fun b hb => has b (List.mem_cons_of_mem a hb)) hrun
    rw [calls_cons]
    omega

theorem work_pos (cfg : NetConfig) (f : Flight) : 0 < f.work cfg := by
  rw [Flight.work]
  split <;> omega

theorem totalWork_eq_zero : totalWork cfg fs = 0 ↔ fs = [] := by
  cases fs with
  | nil => exact ⟨fun _ => rfl, fun _ => rfl⟩
  | cons f fs =>
    have := work_pos cfg f
    refine ⟨fun hzero => ?_, fun h => by cases h⟩
    rw [totalWork] at hzero
    omega

/-- The next callback comes: with `d` more cycles for some message, and `w` callbacks for all. -/
theorem Flowing.exists_drain (h : cfg.Routable) (hA : make cfg.nRouters cfg.crossLat cfg.adjacent = some A) (w : ℕ) :
    ∀ s, Flowing cfg A s → totalWork cfg s.flights ≤ w →
      ∃ as t, (∀ a ∈ as, Quiet a) ∧ run Traffic.step s as = some t ∧ t.flights = [] := by
  induction w with
  | zero =>
    intro s hs hw
    exact ⟨[], s, by simp, rfl, totalWork_eq_zero.1 (Nat.le_zero.1 hw)⟩
  | succ w ih =>
    have hwait : ∀ d s, Flowing cfg A s → totalWork cfg s.flights ≤ w + 1 → (∃ f ∈ s.flights, f.time ≤ s.globalClock + d) →
        ∃ as t, (∀ a ∈ as, Quiet a) ∧ run Traffic.step s as = some t ∧ t.flights = [] := by
      intro d
      induction d with
      | zero =>
        -- its callback is due, and takes some of the work away
        rintro s hs hw ⟨f, hf, htime⟩
        have hdue := (hs.flights f hf).due
        obtain ⟨k, hk⟩ := List.mem_iff_getElem?.1 hf
        obtain ⟨u, hstep, heffect⟩ := (hs.ready h hA).2 k f hk (by omega)
        have hone := heffect.work trivial
        simp only [calls] at hone
        obtain ⟨as, t, has, hrun, ht⟩ := ih u (hs.step heffect) (by omega)
        exact ⟨.call k :: as, t, List.forall_mem_cons.2 ⟨trivial, has⟩, run_cons.2 ⟨u, hstep, hrun⟩, ht⟩
      | succ d ihd =>
        rintro s hs hw ⟨f, hf, htime⟩
        by_cases hidle : ∀ g ∈ s.flights, g.time ≠ s.globalClock
        · -- nothing is due: the clock moves on
          have hstep : s.step .tick = some { s with globalClock := s.globalClock + 1 } := if_pos hidle
          obtain ⟨as, t, has, hrun, ht⟩ := ihd { s with globalClock := s.globalClock + 1 } (hs.step (.tick hidle)) hw
            ⟨f, hf, by show f.time ≤ s.globalClock + 1 + d; omega⟩
          exact ⟨.tick :: as, t, List.forall_mem_cons.2 ⟨trivial, has⟩, run_cons.2 ⟨_, hstep, hrun⟩, ht⟩
        · -- another callback is due
          simp only [not_forall, not_not] at hidle
          obtain ⟨g, hg, hdue⟩ := hidle
          exact ihd s hs hw ⟨g, hg, by omega⟩
    intro s hs hw
    by_cases hempty : s.flights = []
    · exact ⟨[], s, by simp, rfl, hempty⟩
    · obtain ⟨f, hf⟩ := List.exists_mem_of_ne_nil _ hempty
      exact hwait f.time s hs hw ⟨f, hf, Nat.le_add_left _ _⟩

/-- **Draining.** From every state of a network, when no more messages are launched: there is a way on that empties
it, every way on has made the callbacks that the distances of the messages say when the network is empty, and none
makes more. -/
theorem traffic_drains (cfg : NetConfig) (h : cfg.Routable) (hocc : cfg.localOcc ≤ 32700)
    (hnew : cfg.traffic c = some s) (has : ∀ a ∈ as, Accepted cfg a) (hrun : run Traffic.step s as = some t) :
    (∃ bs u, (∀ b ∈ bs, Quiet b) ∧ run Traffic.step t bs = some u ∧ u.flights = []) ∧
      ∀ bs u, (∀ b ∈ bs, Quiet b) → run Traffic.step t bs = some u →
        calls bs ≤ totalWork cfg t.flights ∧ (u.flights = [] ↔ calls bs = totalWork cfg t.flights) := by
  obtain ⟨A, hA, hs⟩ := Flowing.new hocc hnew
  have ht := hs.of_run h hA has hrun
  refine ⟨ht.exists_drain h hA _ t (Nat.le_refl _), fun bs u hbs hu => ?_⟩
  have hwork := ht.work_run h hA hbs hu
  have hempty : totalWork cfg u.flights = 0 ↔ u.flights = [] := totalWork_eq_zero
  refine ⟨by omega, ?_⟩
  rw [← hempty]
  omega

theorem traffic_drains_ring : ∃ s t, InterConnection.ring.traffic 0 = some s ∧ run Traffic.step s ringActs = some t ∧
    ∃ bs u, (∀ b ∈ bs, Quiet b) ∧ run Traffic.step t bs = some u ∧ u.flights = [] := by
  obtain ⟨s, t, hs, hrun⟩ := exists_ringActs
  exact ⟨s, t, hs, hrun,
    (traffic_drains InterConnection.ring NetConfig.routable_ring (by decide) hs accepted_ringActs hrun).1⟩

end Runs

end Esesc.Net
