import Mathlib.Tactic.Common
import Mathlib.Tactic.Ring
import Mathlib.Algebra.Group.Nat.Defs
import Esesc.Net.RoutingPolicy

/-!
# Topologies

What `shortestPaths` expects of the links that `create` makes, and that every policy makes such
links when the latency of a wire is one: not zero, and below the distance that stands for no link.

* `Made`: what `create` makes, with any latency.
* `Topology`: links inside the matrix, each in the place of the router it leads to.
* `FullyConnectedRoutingPolicy.topology`, `UniRingRoutingPolicy.topology`,
  `BiRingRoutingPolicy.topology`, `MeshMultiPathRoutingPolicy.topology`,
  `HypercubeRoutingPolicy.topology`: the policies.
-/

namespace Esesc.Net

/-- Every vector has one wire. If it is a link, it joins two of the `n` routers, leads to the one it is
kept for, and has a port with `P`. -/
def Links (n : ℕ) (P : ℕ → Prop) (adj : Adjacent) : Prop :=
  ∀ i j, ∃ y, adj.row i j = [y] ∧
    (y.dist = noLink ∨ (i < n ∧ j < n ∧ y.rID = j ∧ P y.port ∧ 0 < y.dist ∧ y.dist < noLink))

/-- The ports of the links between routers. -/
def RemotePort (port : ℕ) : Prop := UP_PORT ≤ port ∧ port < LOCAL_PORT1

theorem remotePort_mesh :
    RemotePort UP_PORT ∧ RemotePort DOWN_PORT ∧ RemotePort RIGHT_PORT ∧ RemotePort LEFT_PORT := by
  unfold RemotePort
  decide

/-- Links that the search handles. It passes wires on only if they leave through the port of a link;
other ports do no harm where no way round is as short as a link. -/
structure Topology where
  nRouters : ℕ
  crossLat : ℕ
  adjacent : Adjacent
  ids : nRouters < 2 ^ 16
  links : Links nRouters (fun _ => True) adjacent
  ports : Links nRouters RemotePort adjacent ∨
    ∃ B, ∀ i < nRouters, ∀ j < nRouters, i ≠ j → (at0 (adjacent.row i j)).dist = B

/-- The wire of every vector before `create`. -/
def noWire : Wire := { MyWire with dist := noLink }

/-- What `create` makes: every vector has one wire, which is no link or joins two of the `n` routers, leads to
the one it is kept for, takes `lat` cycles and has a port with `P`. -/
def Made (n : ℕ) (P : ℕ → Prop) (lat : ℕ) (adj : Adjacent) : Prop :=
  ∀ i j, adj.row i j = [noWire] ∨ (i < n ∧ j < n ∧ ∃ port, P port ∧ adj.row i j = [⟨j, port, lat⟩])

section Links

variable {n a i port lat : ℕ} {P : ℕ → Prop} {adj : Adjacent}

theorem made_noLinks : Made n P lat noLinks := fun _ _ => .inl rfl

theorem Adjacent.set_of_not {x y : ℕ} (ws : List Wire) (h : ¬(x = a ∧ y = i)) : (adj.set a i ws).row x y = adj.row x y := by
  by_cases hx : x = a
  · subst hx
    exact Adjacent.set_of_ne _ _ fun hy => h ⟨rfl, hy⟩
  · rw [Adjacent.set_row_of_ne _ _ hx]

theorem Made.link (h : Made n P lat adj) (ha : a < n) (hi : i < n) (hP : P port) :
    Made n P lat (adj.link a i port lat) := by
  intro x y
  by_cases hxy : x = a ∧ y = i
  · obtain ⟨rfl, rfl⟩ := hxy
    exact .inr ⟨ha, hi, port, hP, Adjacent.set_self _ _ _ _⟩
  · rw [Adjacent.link, Adjacent.set_of_not _ hxy]
    exact h x y

/-- A loop that makes links, one or more for every `i`. -/
theorem Made.foldl {f : Adjacent → ℕ → Adjacent} {m : ℕ} (h : Made n P lat adj)
    (hf : ∀ adj, ∀ i < m, Made n P lat adj → Made n P lat (f adj i)) :
    Made n P lat ((List.range m).foldl f adj) :=
  List.foldlRecOn (List.range m) f h fun adj h i hi => hf adj i (List.mem_range.1 hi) h

/-- Links whose latency can be told from that of no link. -/
theorem Made.links (h : Made n P lat adj) (hlat : 0 < lat ∧ lat < noLink) : Links n P adj := by
  intro i j
  rcases h i j with hrow | ⟨hi, hj, port, hP, hrow⟩
  · exact ⟨_, hrow, .inl rfl⟩
  · exact ⟨_, hrow, .inr ⟨hi, hj, rfl, hP, hlat⟩⟩

theorem Links.mono {Q : ℕ → Prop} (h : Links n P adj) (hPQ : ∀ port, P port → Q port) : Links n Q adj := by
  intro i j
  obtain ⟨y, hy, hlink⟩ := h i j
  exact ⟨y, hy, hlink.imp id fun ⟨hi, hj, hr, hp, hd⟩ => ⟨hi, hj, hr, hPQ _ hp, hd⟩⟩

end Links

/-- A topology with the ports of links between routers. -/
def Topology.ofLinks (p : RoutingPolicy) (adj : Adjacent) (ids : p.nRouters < 2 ^ 16)
    (h : Links p.nRouters RemotePort adj) : Topology where
  nRouters := p.nRouters
  crossLat := p.crossLat
  adjacent := adj
  ids := ids
  links := h.mono fun _ _ => trivial
  ports := .inl h

/-! ## Rings -/

theorem UniRingRoutingPolicy.made (p : RoutingPolicy) {P : ℕ → Prop} (hup : P UP_PORT) :
    Made p.nRouters P p.wireLat (create p) := by
  refine made_noLinks.foldl fun adj i hi h => h.link ?_ hi hup
  split <;> omega

theorem UniRingRoutingPolicy.links (p : RoutingPolicy) (hlat : 0 < p.wireLat ∧ p.wireLat < noLink) :
    Links p.nRouters RemotePort (create p) := (made p remotePort_mesh.1).links hlat

def UniRingRoutingPolicy.topology (p : RoutingPolicy) (ids : p.nRouters < 2 ^ 16)
    (hlat : 0 < p.wireLat ∧ p.wireLat < noLink) : Topology :=
  .ofLinks p (create p) ids (links p hlat)

theorem BiRingRoutingPolicy.made (p : RoutingPolicy) {P : ℕ → Prop} (hup : P UP_PORT) (hdown : P DOWN_PORT) :
    Made p.nRouters P p.wireLat (create p) := by
  refine (UniRingRoutingPolicy.made p hup).foldl fun adj i hi h => h.link ?_ hi hdown
  split <;> omega

theorem BiRingRoutingPolicy.links (p : RoutingPolicy) (hlat : 0 < p.wireLat ∧ p.wireLat < noLink) :
    Links p.nRouters RemotePort (create p) := (made p remotePort_mesh.1 remotePort_mesh.2.1).links hlat

def BiRingRoutingPolicy.topology (p : RoutingPolicy) (ids : p.nRouters < 2 ^ 16)
    (hlat : 0 < p.wireLat ∧ p.wireLat < noLink) : Topology :=
  .ofLinks p (create p) ids (links p hlat)

/-! ## Meshes -/

namespace MeshMultiPathRoutingPolicy

/-- The latency of the links. -/
def latency (width wireLat : ℕ) : ℕ := if width = 2 then 1 else wireLat

/-- The ports of a mesh are in `P`. -/
def MeshPorts (P : ℕ → Prop) : Prop := P UP_PORT ∧ P DOWN_PORT ∧ P RIGHT_PORT ∧ P LEFT_PORT

/-- The neighbours of a router in a mesh of `width * width`. -/
theorem createFor_made {width lat i : ℕ} {adj : Adjacent} {P : ℕ → Prop} (hwidth : 2 ≤ width)
    (hi : i < width * width) (hports : MeshPorts P) (h : Made (width * width) P lat adj) :
    Made (width * width) P lat (createFor width lat adj i) := by
  have hcol : i % width < width := Nat.mod_lt i (by omega)
  have hrow : i / width < width := Nat.div_lt_of_lt_mul hi
  have hdiv : width * (i / width) + i % width = i := Nat.div_add_mod i width
  have hrows : ∀ m, i / width + m ≤ width → width * (i / width) + width * m ≤ width * width := by
    intro m hm
    rw [← Nat.mul_add]
    exact Nat.mul_le_mul_left width hm
  have hone := hrows 1 (by omega)
  have hlast : (width - 1) * width + width = width * width := by
    rw [← Nat.succ_mul, Nat.succ_eq_add_one, Nat.sub_add_cancel (by omega)]
  obtain ⟨hup, hdown, hright, hleft⟩ := hports
  simp only [createFor]
  have hvertical : Made (width * width) P lat
      (if i / width = 0 then (adj.link ((width - 1) * width + i) i UP_PORT lat).link (i + width) i DOWN_PORT lat
      else if i / width = width - 1 then (adj.link (i - width) i UP_PORT lat).link (i % width) i DOWN_PORT lat
      else (adj.link (i - width) i UP_PORT lat).link (i + width) i DOWN_PORT lat) := by
    split
    · rename_i hfirst
      have htwo := hrows 2 (by omega)
      rw [hfirst] at hdiv htwo
      exact (h.link (by omega) hi hup).link (by omega) hi hdown
    · split
      · exact (h.link (by omega) hi hup).link (by omega) hi hdown
      · have htwo := hrows 2 (by omega)
        exact (h.link (by omega) hi hup).link (by omega) hi hdown
  split
  · exact (hvertical.link (by omega) hi hleft).link (by omega) hi hright
  · split
    · exact (hvertical.link (by omega) hi hleft).link (by omega) hi hright
    · exact (hvertical.link (by omega) hi hleft).link (by omega) hi hright

theorem made {width : ℕ} (p : RoutingPolicy) {P : ℕ → Prop} (hwidth : 2 ≤ width) (hn : p.nRouters = width * width)
    (hports : MeshPorts P) : Made p.nRouters P (latency width p.wireLat) (create width p) := by
  rw [create, latency]
  split
  · rename_i htwo
    have hall : ∀ x ∈ links2x2, x.1 < 4 ∧ x.2.1 < 4 ∧
        (x.2.2 = UP_PORT ∨ x.2.2 = DOWN_PORT ∨ x.2.2 = RIGHT_PORT ∨ x.2.2 = LEFT_PORT) := by decide
    have hlinks : Made 4 P 1 (links2x2.foldl (fun adj l => adj.link l.1 l.2.1 l.2.2 1) noLinks) := by
      refine List.foldlRecOn _ _ made_noLinks fun adj h l hl => ?_
      obtain ⟨ha, hi, hport⟩ := hall l hl
      refine h.link ha hi ?_
      rcases hport with h | h | h | h
      · exact h ▸ hports.1
      · exact h ▸ hports.2.1
      · exact h ▸ hports.2.2.1
      · exact h ▸ hports.2.2.2
    rw [hn, htwo]
    exact hlinks
  · rw [hn]
    exact made_noLinks.foldl fun adj i hi h => createFor_made hwidth hi hports h

theorem links {width : ℕ} (p : RoutingPolicy) (hwidth : 2 ≤ width) (hn : p.nRouters = width * width)
    (hlat : 0 < p.wireLat ∧ p.wireLat < noLink) : Links p.nRouters RemotePort (create width p) := by
  refine (made p hwidth hn remotePort_mesh).links ?_
  rw [latency]
  split
  · decide
  · exact hlat

def topology (width : ℕ) (p : RoutingPolicy) (hwidth : 2 ≤ width) (hn : p.nRouters = width * width)
    (ids : p.nRouters < 2 ^ 16) (hlat : 0 < p.wireLat ∧ p.wireLat < noLink) : Topology :=
  .ofLinks p (create width p) ids (links p hwidth hn hlat)

end MeshMultiPathRoutingPolicy

/-! ## Hypercubes -/

namespace HypercubeRoutingPolicy

/-- To set a bit that is clear does not lead out of the cube. -/
theorem add_mask_lt {i j m : ℕ} (hi : i < 2 ^ m) (hj : j < m) (hbit : i &&& 1 <<< j = 0) : i + 1 <<< j < 2 ^ m := by
  rw [Nat.one_shiftLeft] at hbit ⊢
  have hpos : 0 < 2 ^ j := Nat.two_pow_pos j
  have heven : i / 2 ^ j % 2 = 0 := by
    have hclear : (i &&& 2 ^ j).testBit j = false := by rw [hbit, Nat.zero_testBit]
    rw [Nat.testBit_and, Nat.testBit_two_pow_self, Bool.and_true, Nat.testBit_eq_decide_div_mod_eq] at hclear
    have hne := of_decide_eq_false hclear
    omega
  obtain ⟨r, rfl⟩ : ∃ r, m = j + (r + 1) := ⟨m - j - 1, by omega⟩
  have hq : i / 2 ^ j < 2 ^ (r + 1) := by
    rw [Nat.pow_add] at hi
    exact Nat.div_lt_of_lt_mul hi
  rw [Nat.pow_succ] at hq
  have htwo : i / 2 ^ j + 2 ≤ 2 ^ (r + 1) := by
    rw [Nat.pow_succ]
    omega
  have hle : 2 ^ j * (i / 2 ^ j + 2) ≤ 2 ^ (j + (r + 1)) := by
    rw [Nat.pow_add]
    exact Nat.mul_le_mul_left _ htwo
  have hdiv := Nat.div_add_mod i (2 ^ j)
  have hmod := Nat.mod_lt i hpos
  rw [Nat.mul_add] at hle
  omega

theorem made (p : RoutingPolicy) {P : ℕ → Prop} (hn : p.nRouters = 2 ^ p.nPorts) (hP : ∀ j < p.nPorts, P (j + 1)) :
    Made p.nRouters P p.wireLat (create p) := by
  refine made_noLinks.foldl fun adj i hi h => h.foldl fun adj j hj h => h.link hi ?_ (hP j hj)
  split
  · exact Nat.lt_of_le_of_lt (Nat.sub_le _ _) hi
  · rename_i hbit
    rw [hn] at hi ⊢
    exact add_mask_lt hi hj (by simpa using hbit)

theorem links (p : RoutingPolicy) (hn : p.nRouters = 2 ^ p.nPorts) (ids : p.nRouters < 2 ^ 16)
    (hlat : 0 < p.wireLat ∧ p.wireLat < noLink) : Links p.nRouters RemotePort (create p) := by
  have hports : p.nPorts < 16 := by
    rw [hn] at ids
    exact (Nat.pow_lt_pow_iff_right (by omega)).1 ids
  refine (made p hn fun j hj => ⟨?_, ?_⟩).links hlat
  · simp
  · simp only [LOCAL_PORT1]
    omega

def topology (p : RoutingPolicy) (hn : p.nRouters = 2 ^ p.nPorts) (ids : p.nRouters < 2 ^ 16)
    (hlat : 0 < p.wireLat ∧ p.wireLat < noLink) : Topology :=
  .ofLinks p (create p) ids (links p hn ids hlat)

end HypercubeRoutingPolicy

/-! ## Full connection -/

namespace FullyConnectedRoutingPolicy

/-- The port of the link from `i` to `j`. -/
def port (i j : ℕ) : ℕ := if j < i then j + 1 else j

/-- A router gets its links, with the ports in their order. -/
theorem createFor_spec (lat i : ℕ) (adj : Adjacent) (n : ℕ) :
    let r := (List.range n).foldl (fun (adj, last) j =>
      if i ≠ j then (adj.link i j (last + 1) lat, last + 1) else (adj, last)) (adj, DISABLED_PORT)
    r.2 = (if i < n then n - 1 else n) ∧
      ∀ x y, r.1.row x y = if x = i ∧ y ≠ i ∧ y < n then [⟨y, port i y, lat⟩] else adj.row x y := by
  induction n with
  | zero => exact ⟨rfl, fun x y => by simp⟩
  | succ n ih =>
    obtain ⟨hlast, hrow⟩ := ih
    simp only [List.range_succ, List.foldl_append, List.foldl_cons, List.foldl_nil] at hlast hrow ⊢
    by_cases hin : i = n
    · subst hin
      simp only [ne_eq, not_true_eq_false, if_false]
      refine ⟨by rw [hlast]; simp, fun x y => ?_⟩
      have hiff : (x = i ∧ ¬y = i ∧ y < i + 1) ↔ (x = i ∧ ¬y = i ∧ y < i) := by omega
      rw [hrow]
      simp only [ne_eq, hiff]
    · simp only [ne_eq, hin, not_false_eq_true, if_true]
      have hport : (if i < n then n - 1 else n) + 1 = port i n := by
        rw [port]
        split <;> split <;> omega
      refine ⟨?_, fun x y => ?_⟩
      · rw [hlast]
        split <;> split <;> omega
      · rw [hlast, hport, Adjacent.link]
        by_cases hxy : x = i ∧ y = n
        · obtain ⟨rfl, rfl⟩ := hxy
          rw [Adjacent.set_self, if_pos ⟨rfl, fun h => hin h.symm, Nat.lt_succ_self y⟩]
        · have hiff : (x = i ∧ ¬y = i ∧ y < n + 1) ↔ (x = i ∧ ¬y = i ∧ y < n) := by omega
          rw [Adjacent.set_of_not _ hxy, hrow]
          simp only [ne_eq, hiff]

/-- **All links.** -/
theorem create_spec (p : RoutingPolicy) (x y : ℕ) : (create p).row x y =
    if x < p.nRouters ∧ y ≠ x ∧ y < p.nRouters then [⟨y, port x y, p.wireLat⟩] else [noWire] := by
  have hrows : ∀ m, ((List.range m).foldl (createFor p.nRouters p.wireLat) noLinks).row x y =
      if x < m ∧ y ≠ x ∧ y < p.nRouters then [⟨y, port x y, p.wireLat⟩] else [noWire] := by
    intro m
    induction m with
    | zero => simp [noLinks, noWire]
    | succ m ih =>
      simp only [List.range_succ, List.foldl_append, List.foldl_cons, List.foldl_nil]
      rw [createFor, (createFor_spec p.wireLat m _ p.nRouters).2 x y, ih]
      by_cases hxm : x = m
      · subst hxm
        simp
      · have hiff : (x < m + 1 ∧ y ≠ x ∧ y < p.nRouters) ↔ (x < m ∧ y ≠ x ∧ y < p.nRouters) := by omega
        simp only [hxm, false_and, if_false, hiff]
  exact hrows p.nRouters

theorem made (p : RoutingPolicy) : Made p.nRouters (fun port => 0 < port ∧ port ≤ p.nRouters - 1) p.wireLat (create p) := by
  intro x y
  rw [create_spec]
  split
  · rename_i h
    refine .inr ⟨h.1, h.2.2, port x y, ?_, rfl⟩
    rw [port]
    split <;> omega
  · exact .inl rfl

theorem links (p : RoutingPolicy) (hlat : 0 < p.wireLat ∧ p.wireLat < noLink) :
    Links p.nRouters (fun _ => True) (create p) :=
  ((made p).links hlat).mono fun _ _ => trivial

/-- The ports grow past those of links when there are a hundred routers. -/
def topology (p : RoutingPolicy) (ids : p.nRouters < 2 ^ 16) (hlat : 0 < p.wireLat ∧ p.wireLat < noLink) :
    Topology where
  nRouters := p.nRouters
  crossLat := p.crossLat
  adjacent := create p
  ids := ids
  links := links p hlat
  ports := .inr ⟨p.wireLat, fun i hi j hj hij => by
    rw [create_spec, if_pos ⟨hi, hij.symm, hj⟩]
    rfl⟩

end FullyConnectedRoutingPolicy

end Esesc.Net
