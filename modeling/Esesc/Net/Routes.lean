import Mathlib.Tactic.Common
import Mathlib.Algebra.Group.Nat.Defs
import Esesc.Lib.ShortestPath
import Esesc.Net.Search
import Esesc.Net.Topology

/-!
# Routes

The rows are searched one after the other in the same matrix, so a search meets rows that hold whole
routes already. They are shortcuts: they change no distance.

* `Done`: the matrix after the rows below `m`.
* `make_done`: all rows.
* `routingTables_shortest`: the wires of the tables, and where they lead.
-/

namespace Esesc.Net

open Esesc.Lib RoutingPolicy

/-- A wire of `s` on a shortest path to `t`, with the length of the path. A hop takes the crossing of
its router and its link, and the first router of a path is not crossed. -/
structure OnShortestPath (n crossLat : ℕ) (links : Adjacent) (s t : ℕ) (y : Wire) : Prop where
  firstHop : FirstHop (cost n crossLat links) s t y.rID
  port : y.port = (at0 (links.row s y.rID)).port
  dist : Shortest (cost n crossLat links) s t (y.dist + crossLat)

/-- A message on its way to `t`: from router to router it takes what a lookup answers, and lookups for
other messages come between. -/
def Follows (table : ℕ → RoutingTable) (t : ℕ) (r : ℕ → ℕ) : Prop :=
  ∀ m, (∀ j ≤ m, r j ≠ t) → ∃ tab y, (table (r m)).Used tab ∧ (tab.getWire t).1 = some y ∧ r (m + 1) = y.rID

namespace Topology

/-- The lengths of the links of a topology. -/
def cost (g : Topology) : ℕ → ℕ → Option ℕ := Net.cost g.nRouters g.crossLat g.adjacent

def port (g : Topology) (s v : ℕ) : ℕ := (at0 (g.adjacent.row s v)).port

/-- The matrix when the rows below `m` are done. -/
structure Done (g : Topology) (m : ℕ) (A : Adjacent) : Prop where
  todo : ∀ x, m ≤ x → A.row x = g.adjacent.row x
  self : ∀ x < m, A.row x x = [⟨x, LOCAL_PORT1, 0⟩]
  final : ∀ x < m, ∀ i < g.nRouters, i ≠ x → ∃ L, Final g.cost x g.crossLat (g.port x) i (A.row x i) L

variable {g : Topology} {m s t i j d : ℕ} {A : Adjacent}

theorem dist_pos (g : Topology) (i j : ℕ) : 0 < (at0 (g.adjacent.row i j)).dist := by
  obtain ⟨y, hrow, hlink⟩ := g.links i j
  rw [hrow]
  rcases hlink with h | ⟨-, -, -, -, h, -⟩
  · simp [at0, h, noLink_eq]
  · exact h

theorem dist_le (g : Topology) (i j : ℕ) : (at0 (g.adjacent.row i j)).dist ≤ noLink := by
  obtain ⟨y, hrow, hlink⟩ := g.links i j
  rw [hrow]
  rcases hlink with h | ⟨-, -, -, -, -, h⟩
  · exact Nat.le_of_eq h
  · exact Nat.le_of_lt h

theorem cost_pos (g : Topology) (i j a : ℕ) (h : g.cost i j = some a) : 0 < a := by
  obtain ⟨-, -, -, -, rfl⟩ := cost_eq_some h
  have := g.dist_pos i j
  omega

/-- A router that is done has the distances in the place of its links. -/
theorem Done.shortcuts (h : g.Done m A) (hm : m ≤ g.nRouters) : Shortcuts g.cost (Net.cost g.nRouters g.crossLat A) := by
  intro x y
  by_cases hx : x < m
  · by_cases hxy : y < g.nRouters ∧ y ≠ x
    · obtain ⟨L, hfin⟩ := h.final x hx y hxy.1 hxy.2
      refine .inr ⟨L + g.crossLat, ?_, hfin.shortest⟩
      have hhead := hfin.head
      have hne := hfin.lt
      rw [Net.cost, if_pos ⟨by omega, hxy.1, Ne.symm hxy.2, by omega⟩, hhead]
    · -- there is nothing outside the matrix, and no way from a router to itself
      left
      rw [cost, Net.cost, Net.cost, if_neg, if_neg]
      · exact fun hlink => hxy ⟨hlink.2.1, Ne.symm hlink.2.2.1⟩
      · exact fun hlink => hxy ⟨hlink.2.1, Ne.symm hlink.2.2.1⟩
  · left
    rw [cost, Net.cost, Net.cost, h.todo x (by omega)]

/-- Where all routers have one distance, it is that of the shortest routes. -/
theorem dist_eq_of_shortest {B : ℕ} (hB : ∀ i < g.nRouters, ∀ j < g.nRouters, i ≠ j → (at0 (g.adjacent.row i j)).dist = B)
    (hi : i < g.nRouters) (hj : j < g.nRouters) (hne : i ≠ j) (h : Shortest g.cost i j d) : d = B + g.crossLat := by
  have hall : ∀ x y a, g.cost x y = some a → a = B + g.crossLat := by
    intro x y a hw
    obtain ⟨hx, hy, hxy, -, rfl⟩ := cost_eq_some hw
    rw [hB x hx y hy hxy]
  have hle : B + g.crossLat ≤ d := by
    cases h.route with
    | nil => exact absurd rfl hne
    | cons hw _ =>
      have := hall _ _ _ hw
      omega
  obtain ⟨v, a, e, hw, -⟩ := exists_firstHop h hne
  -- one router has a link, so all have
  have hlink : B ≠ noLink := by
    obtain ⟨hx, hy, hxy, hd, -⟩ := cost_eq_some hw
    rwa [hB i hx v hy hxy] at hd
  have hedge : g.cost i j = some (B + g.crossLat) := by
    rw [cost, Net.cost, if_pos ⟨hi, hj, hne, by rwa [hB i hi j hj hne]⟩, hB i hi j hj hne]
  have hroute : Route g.cost i j (B + g.crossLat + 0) := .cons hedge (.nil j)
  have := h.le _ hroute
  omega

/-- The next row may be searched. -/
theorem Done.searchable (h : g.Done m A) (hm : m < g.nRouters)
    (hnear : ∀ i < g.nRouters, ∃ d < noLink + g.crossLat, Route g.cost m i d) :
    Searchable g.nRouters g.crossLat m A := by
  refine ⟨hm, fun i hi j hj hne => ?_, fun i _ _ => ?_, fun i hi _ => ?_, ?_⟩
  · by_cases him : i < m
    · obtain ⟨L, hfin⟩ := h.final i him j hj hne.symm
      rw [hfin.head]
      exact ⟨hfin.pos, Nat.le_of_lt hfin.lt⟩
    · rw [h.todo i (by omega)]
      exact ⟨g.dist_pos i j, g.dist_le i j⟩
  · obtain ⟨y, hrow, hlink⟩ := g.links m i
    rw [h.todo m (Nat.le_refl m)]
    exact ⟨y, hrow, fun hd => (hlink.resolve_left hd).2.2.1⟩
  · obtain ⟨d, hd, hr⟩ := hnear i hi
    obtain ⟨e, he, hr'⟩ := (h.shortcuts (by omega)).exists_route hr
    exact ⟨e, by omega, hr'⟩
  · -- the row to be searched is still that of the links
    rcases g.ports with hports | ⟨B, hB⟩
    · left
      intro v a hw
      have hd := (cost_eq_some hw).2.2.2.1
      rw [h.todo m (Nat.le_refl m)] at hd ⊢
      obtain ⟨y, hrow, hlink⟩ := hports m v
      rw [hrow] at hd ⊢
      exact (hlink.resolve_left hd).2.2.2.1
    · right
      refine ⟨B, fun i hi j hj hne => ?_⟩
      by_cases him : i < m
      · obtain ⟨L, hfin⟩ := h.final i him j hj hne.symm
        have := dist_eq_of_shortest hB hi hj hne hfin.shortest
        rw [hfin.head]
        omega
      · rw [h.todo i (by omega)]
        exact hB i hi j hj hne

/-- What the search finds through shortcuts it would find through links. -/
theorem Done.final_row (h : g.Done m A) (hm : m < g.nRouters) {ws : List Wire} {L : ℕ}
    (hfin : Final (Net.cost g.nRouters g.crossLat A) m g.crossLat (fun v => (at0 (A.row m v)).port) i ws L) :
    Final g.cost m g.crossLat (g.port m) i ws L := by
  have hsc := h.shortcuts (by omega)
  have hrow : ∀ y, Net.cost g.nRouters g.crossLat A m y = g.cost m y := by
    intro y
    rw [cost, Net.cost, Net.cost, h.todo m (Nat.le_refl m)]
  have hshort := hsc.shortest_iff.1 hfin.shortest
  refine ⟨hfin.ne_nil, hfin.nodup, hfin.pos, hfin.lt, hshort, fun y => ?_⟩
  rw [hfin.mem_iff, hsc.firstHop_iff hrow hshort, h.todo m (Nat.le_refl m)]
  rfl

/-- **Row after row.** -/
theorem Done.step (h : g.Done m A) (hm : m < g.nRouters)
    (hnear : ∀ i < g.nRouters, ∃ d < noLink + g.crossLat, Route g.cost m i d) :
    ∃ A', shortestPaths g.nRouters g.crossLat A m = some A' ∧ g.Done (m + 1) A' := by
  obtain ⟨A', hrun, hrows, hself, hfinal⟩ := shortestPaths_final (h.searchable hm hnear)
  refine ⟨A', hrun, fun x hx => ?_, fun x hx => ?_, fun x hx i hi hne => ?_⟩
  · rw [hrows x (by omega), h.todo x (by omega)]
  · by_cases hxm : x = m
    · subst hxm
      obtain ⟨y, hrow, -⟩ := g.links x x
      rw [hself, h.todo x (Nat.le_refl x), hrow]
      rfl
    · rw [hrows x hxm]
      exact h.self x (by omega)
  · by_cases hxm : x = m
    · subst hxm
      obtain ⟨L, hfin⟩ := hfinal i hi hne
      exact ⟨L, h.final_row hm hfin⟩
    · rw [hrows x hxm]
      exact h.final x (by omega) i hi hne

/-- **The whole matrix.** `make` ends, and every row is done. -/
theorem make_done (hnear : ∀ s < g.nRouters, ∀ t < g.nRouters, ∃ d < noLink + g.crossLat, Route g.cost s t d) :
    ∃ A, make g.nRouters g.crossLat g.adjacent = some A ∧ g.Done g.nRouters A := by
  have hrows : ∀ m ≤ g.nRouters, ∃ A,
      (List.range m).foldlM (shortestPaths g.nRouters g.crossLat) g.adjacent = some A ∧ g.Done m A := by
    intro m
    induction m with
    | zero =>
      exact fun _ => ⟨g.adjacent, rfl, fun _ _ => rfl, fun x hx => absurd hx (Nat.not_lt_zero x),
        fun x hx => absurd hx (Nat.not_lt_zero x)⟩
    | succ m ih =>
      intro hm
      obtain ⟨A, hrun, hdone⟩ := ih (by omega)
      obtain ⟨A', hstep, hdone'⟩ := hdone.step hm (hnear m hm)
      refine ⟨A', ?_, hdone'⟩
      rw [List.range_succ, List.foldlM_append, hrun]
      simpa using hstep
  exact hrows g.nRouters (Nat.le_refl _)

/-! ## The tables -/

theorem Done.ne_nil (h : g.Done g.nRouters A) (hs : s < g.nRouters) (ht : t < g.nRouters) : A.row s t ≠ [] := by
  by_cases hst : t = s
  · subst hst
    simp [h.self t hs]
  · obtain ⟨L, hfin⟩ := h.final s hs t ht hst
    exact hfin.ne_nil

/-- What a table keeps of a row. -/
theorem Done.kept (h : g.Done g.nRouters A) (fix : Bool) (hs : s < g.nRouters) (ht : t < g.nRouters) :
    RoutingTable.Kept fix (A.row s t) ((getRoutingTable g.nRouters fix A s).nextHop t).succs :=
  RoutingTable.fill_succs (fun _ hj => h.ne_nil hs hj) ht

theorem Done.onShortestPath (h : g.Done g.nRouters A) (hs : s < g.nRouters) (ht : t < g.nRouters) (hst : s ≠ t)
    (y : Wire) : y ∈ A.row s t ↔ OnShortestPath g.nRouters g.crossLat g.adjacent s t y := by
  obtain ⟨L, hfin⟩ := h.final s hs t ht hst.symm
  rw [hfin.mem_iff]
  constructor
  · rintro ⟨hv, hport, rfl⟩
    exact ⟨hv, hport, hfin.shortest⟩
  · rintro ⟨hv, hport, hdist⟩
    have := hdist.unique hfin.shortest
    exact ⟨hv, hport, by omega⟩

/-- A lookup answers a wire of the table, whatever was looked up before. -/
theorem Done.getWire (h : g.Done g.nRouters A) {fix : Bool} (hs : s < g.nRouters) (ht : t < g.nRouters)
    {tab : RoutingTable} (htab : (getRoutingTable g.nRouters fix A s).Used tab) :
    ∃ y ∈ ((getRoutingTable g.nRouters fix A s).nextHop t).succs, (tab.getWire t).1 = some y := by
  have hne := (h.kept fix hs ht).ne_nil (h.ne_nil hs ht)
  rw [← htab.succs] at hne ⊢
  exact RoutingTable.getWire_mem hne

/-- Following the lookups ends at the destination. -/
theorem Done.reach (h : g.Done g.nRouters A) {fix : Bool} (ht : t < g.nRouters) {r : ℕ → ℕ} (hr : r 0 < g.nRouters)
    (hfollows : Follows (getRoutingTable g.nRouters fix A) t r) (hd : Shortest g.cost (r 0) t d) : ∃ m, r m = t := by
  have hhop : ∀ m, r m < g.nRouters → (∀ j ≤ m, r j ≠ t) → FirstHop g.cost (r m) t (r (m + 1)) := by
    intro m hm hyet
    obtain ⟨tab, y, htab, hy, hnext⟩ := hfollows m hyet
    obtain ⟨z, hz, hget⟩ := h.getWire hm ht htab
    obtain rfl : y = z := Option.some.inj (hy.symm.trans hget)
    rw [hnext]
    exact ((h.onShortestPath hm ht (hyet m (Nat.le_refl m)) y).1 ((h.kept fix hm ht).subset hz)).firstHop
  -- a first hop stays inside the matrix
  have hin : ∀ m, (∀ j < m, r j ≠ t) → r m < g.nRouters := by
    intro m
    induction m with
    | zero => exact fun _ => hr
    | succ m ih =>
      intro hyet
      obtain ⟨a, e, hw, -⟩ := hhop m (ih fun j hj => hyet j (by omega)) fun j hj => hyet j (by omega)
      exact (cost_eq_some hw).2.1
  exact exists_reach g.cost_pos hd fun m hyet => hhop m (hin m fun j hj => hyet j (by omega)) hyet

/-- **Routing tables.** In a connected topology whose shortest paths are shorter than the distance that
stands for no link, the tables hold the wires on shortest paths: all of them, or with
`fixMessagePath` one. A lookup answers such a wire, and messages that follow the lookups arrive. -/
theorem routingTables_shortest (g : Topology) (fixMessagePath : Bool)
    (hconnected : ∀ s < g.nRouters, ∀ t < g.nRouters, ∃ d, Route g.cost s t d)
    (hshort : ∀ s t d, Shortest g.cost s t d → d < noLink + g.crossLat) :
    ∃ A, make g.nRouters g.crossLat g.adjacent = some A ∧ ∀ s < g.nRouters, ∀ t < g.nRouters,
      (s = t → ((getRoutingTable g.nRouters fixMessagePath A s).nextHop t).succs = [⟨s, LOCAL_PORT1, 0⟩]) ∧
      (s ≠ t → fixMessagePath = false → ((getRoutingTable g.nRouters fixMessagePath A s).nextHop t).succs.Nodup ∧
        ∀ y, y ∈ ((getRoutingTable g.nRouters fixMessagePath A s).nextHop t).succs ↔
          OnShortestPath g.nRouters g.crossLat g.adjacent s t y) ∧
      (s ≠ t → fixMessagePath = true → ∃ y, OnShortestPath g.nRouters g.crossLat g.adjacent s t y ∧
        ((getRoutingTable g.nRouters fixMessagePath A s).nextHop t).succs = [y]) ∧
      (∀ tab, (getRoutingTable g.nRouters fixMessagePath A s).Used tab →
        ∃ y ∈ ((getRoutingTable g.nRouters fixMessagePath A s).nextHop t).succs, (tab.getWire t).1 = some y) ∧
      ∀ r, r 0 = s → Follows (getRoutingTable g.nRouters fixMessagePath A) t r → ∃ m, r m = t := by
  have hshortest : ∀ s < g.nRouters, ∀ t < g.nRouters, ∃ d, Shortest g.cost s t d := by
    intro s hs t ht
    obtain ⟨n, hr⟩ := hconnected s hs t ht
    obtain ⟨d, -, hd⟩ := exists_shortest hr
    exact ⟨d, hd⟩
  have hnear : ∀ s < g.nRouters, ∀ t < g.nRouters, ∃ d < noLink + g.crossLat, Route g.cost s t d := by
    intro s hs t ht
    obtain ⟨d, hd⟩ := hshortest s hs t ht
    exact ⟨d, hshort s t d hd, hd.route⟩
  obtain ⟨A, hrun, hdone⟩ := make_done hnear
  refine ⟨A, hrun, fun s hs t ht => ?_⟩
  have hkept := hdone.kept fixMessagePath hs ht
  refine ⟨fun hst => ?_, fun hst hfix => ?_, fun hst hfix => ?_, fun tab htab => ?_, fun r hr hfollows => ?_⟩
  · subst hst
    rw [hdone.self s hs] at hkept
    cases fixMessagePath with
    | false => simpa [RoutingTable.Kept] using hkept
    | true => simpa [RoutingTable.Kept] using hkept
  · obtain ⟨L, hfin⟩ := hdone.final s hs t ht (Ne.symm hst)
    subst hfix
    have hall : ((getRoutingTable g.nRouters false A s).nextHop t).succs = A.row s t := by
      simpa [RoutingTable.Kept] using hkept
    rw [hall]
    exact ⟨hfin.nodup, hdone.onShortestPath hs ht hst⟩
  · subst hfix
    have hone : ∃ y ∈ A.row s t, ((getRoutingTable g.nRouters true A s).nextHop t).succs = [y] := by
      simpa [RoutingTable.Kept] using hkept
    obtain ⟨y, hy, hsuccs⟩ := hone
    exact ⟨y, (hdone.onShortestPath hs ht hst y).1 hy, hsuccs⟩
  · exact hdone.getWire hs ht htab
  · subst hr
    obtain ⟨d, hd⟩ := hshortest (r 0) hs t ht
    exact hdone.reach ht hs hfollows hd

/-- A ring of four routers, with both first hops to the one across. -/
theorem routingTables_shortest_ring : ∃ A, make 4 1 (BiRingRoutingPolicy.create ⟨4, 2, 1, 1⟩) = some A ∧
    ∀ y, y ∈ ((getRoutingTable 4 false A 0).nextHop 2).succs ↔
      OnShortestPath 4 1 (BiRingRoutingPolicy.create ⟨4, 2, 1, 1⟩) 0 2 y := by
  let g : Topology := BiRingRoutingPolicy.topology ⟨4, 2, 1, 1⟩ (by decide) (by decide)
  have htwo : ∀ s < 4, ∀ t < 4, s = t ∨ g.cost s t = some 2 ∨ ∃ v < 4, g.cost s v = some 2 ∧ g.cost v t = some 2 := by
    decide +kernel
  have hroute : ∀ s < 4, ∀ t < 4, ∃ d ≤ 4, Route g.cost s t d := by
    intro s hs t ht
    rcases htwo s hs t ht with rfl | hst | ⟨v, -, hsv, hvt⟩
    · exact ⟨0, by omega, .nil s⟩
    · exact ⟨2 + 0, by omega, .cons hst (.nil t)⟩
    · exact ⟨2 + (2 + 0), by omega, .cons hsv (.cons hvt (.nil t))⟩
  have hshort : ∀ s t d, Shortest g.cost s t d → d < noLink + 1 := by
    intro s t d hd
    rw [noLink_eq]
    by_cases hst : s = t
    · subst hst
      have := hd.le 0 (.nil s)
      omega
    · obtain ⟨v, a, n, hw, -⟩ := exists_firstHop hd hst
      obtain ⟨u, m, b, -, hw', -⟩ := hd.route.last.resolve_left fun h => hst h.1
      obtain ⟨e, he, hr⟩ := hroute s (cost_eq_some hw).1 t (cost_eq_some hw').2.1
      have := hd.le e hr
      omega
  obtain ⟨A, hrun, htables⟩ := routingTables_shortest g false
    (fun s hs t ht => (hroute s hs t ht).imp fun _ h => h.2) hshort
  exact ⟨A, hrun, ((htables 0 (by decide) 2 (by decide)).2.1 (by decide) rfl).2⟩

/-! ## Lost first hops -/

/-- A wire on a shortest path from `s` to `t` is not in the table of `s`. -/
def LosesFirstHop (n crossLat : ℕ) (links : Adjacent) (fixMessagePath : Bool) (s t : ℕ) : Prop :=
  ∃ A, make n crossLat links = some A ∧ ∃ y, OnShortestPath n crossLat links s t y ∧
    y ∉ ((getRoutingTable n fixMessagePath A s).nextHop t).succs

/-- Where all links take the same time, two hops are a shortest path if one is none. -/
theorem onShortestPath_of_two {n c : ℕ} {links : Adjacent} (lat v : ℕ)
    (hall : ∀ i < n, ∀ j < n, (at0 (links.row i j)).dist = noLink ∨ (at0 (links.row i j)).dist = lat)
    (hne : s ≠ t) (hst : Net.cost n c links s t = none) (hsv : Net.cost n c links s v = some (lat + c))
    (hvt : Net.cost n c links v t = some (lat + c)) :
    OnShortestPath n c links s t ⟨v, (at0 (links.row s v)).port, lat + (lat + c)⟩ := by
  have hcost : ∀ i j a, Net.cost n c links i j = some a → a = lat + c := by
    intro i j a h
    obtain ⟨hi, hj, -, hd, rfl⟩ := cost_eq_some h
    rw [(hall i hi j hj).resolve_left hd]
  have hedge : Route (Net.cost n c links) v t (lat + c + 0) := .cons hvt (.nil t)
  have hshort : Shortest (Net.cost n c links) s t (lat + c + (lat + c + 0)) := by
    refine ⟨.cons hsv hedge, fun m hm => ?_⟩
    cases hm with
    | nil => exact absurd rfl hne
    | cons hw hr =>
      have := hcost _ _ _ hw
      cases hr with
      | nil => simp [hst] at hw
      | cons hw' _ =>
        have := hcost _ _ _ hw'
        omega
  refine ⟨⟨lat + c, lat + c + 0, hsv, hedge, hshort⟩, rfl, ?_⟩
  have heq : lat + (lat + c) + c = lat + c + (lat + c + 0) := by omega
  rw [heq]
  exact hshort

theorem losesFirstHop_of_run {n c : ℕ} {links : Adjacent} {fix : Bool} {ws : List Wire} {y : Wire}
    (hrun : (make n c links).map (fun A => ((getRoutingTable n fix A s).nextHop t).succs) = some ws)
    (hy : OnShortestPath n c links s t y) (hmem : y ∉ ws) : LosesFirstHop n c links fix s t := by
  obtain ⟨A, hA, rfl⟩ := Option.map_eq_some_iff.1 hrun
  exact ⟨A, hA, y, hy, hmem⟩

/-- **Lost first hops.** In a bidirectional ring of four, with `fixMessagePath`, the table of the router
0 has one of the two wires on shortest paths to the router 2. In a ring of three it has none when a
wire takes no cycle, and none when it takes 40000. -/
theorem routingTables_lose_firstHop :
    LosesFirstHop 4 1 (BiRingRoutingPolicy.create ⟨4, 2, 1, 1⟩) true 0 2 ∧
      LosesFirstHop 3 1 (UniRingRoutingPolicy.create ⟨3, 1, 1, 0⟩) false 0 2 ∧
      LosesFirstHop 3 1 (UniRingRoutingPolicy.create ⟨3, 1, 1, 40000⟩) false 0 2 := by
  refine ⟨?_, ?_, ?_⟩
  · have hrun : (make 4 1 (BiRingRoutingPolicy.create ⟨4, 2, 1, 1⟩)).map
        (fun A => ((getRoutingTable 4 true A 0).nextHop 2).succs) = some [⟨3, DOWN_PORT, 3⟩] := by decide +kernel
    have hone : OnShortestPath 4 1 (BiRingRoutingPolicy.create ⟨4, 2, 1, 1⟩) 0 2 ⟨1, _, 3⟩ :=
      onShortestPath_of_two 1 1 (by decide +kernel) (by decide) (by decide +kernel) (by decide +kernel)
        (by decide +kernel)
    exact losesFirstHop_of_run hrun hone (by simp)
  · have hrun : (make 3 1 (UniRingRoutingPolicy.create ⟨3, 1, 1, 0⟩)).map
        (fun A => ((getRoutingTable 3 false A 0).nextHop 2).succs) = some [⟨0, DISABLED_PORT, noLink⟩] := by
      decide +kernel
    have hone : OnShortestPath 3 1 (UniRingRoutingPolicy.create ⟨3, 1, 1, 0⟩) 0 2 ⟨1, _, 1⟩ :=
      onShortestPath_of_two 0 1 (by decide +kernel) (by decide) (by decide +kernel) (by decide +kernel)
        (by decide +kernel)
    exact losesFirstHop_of_run hrun hone (by simp)
  · have hrun : (make 3 1 (UniRingRoutingPolicy.create ⟨3, 1, 1, 40000⟩)).map
        (fun A => ((getRoutingTable 3 false A 0).nextHop 2).succs) = some [⟨0, DISABLED_PORT, noLink⟩] := by
      decide +kernel
    have hone : OnShortestPath 3 1 (UniRingRoutingPolicy.create ⟨3, 1, 1, 40000⟩) 0 2 ⟨1, _, 80001⟩ :=
      onShortestPath_of_two 40000 1 (by decide +kernel) (by decide) (by decide +kernel) (by decide +kernel)
        (by decide +kernel)
    exact losesFirstHop_of_run hrun hone (by simp)

end Topology

end Esesc.Net
