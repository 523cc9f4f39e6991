import Mathlib.Tactic.Common
import Esesc.Net.Search
import Esesc.Net.Topology

/-!
# Rows of links

What `make` leaves of links that all take the same time, whatever that time is and however far the routers are
apart. A router keeps its links, and the other wires of its row begin with one of them.

* `Holds`: what a vector of the matrix holds.
* `Holds.relaxed`: passing wires on keeps that.
* `make_rows`: `make` ends, and every vector is so.
* `LinkRows.getWire`: what a lookup answers.
-/

namespace Esesc.Net

open RoutingPolicy

/-- The policy made a link from `s` to `t`. -/
def Linked (links : Adjacent) (s t : ℕ) : Prop := (at0 (links.row s t)).port ≠ DISABLED_PORT

instance (links : Adjacent) (s t : ℕ) : Decidable (Linked links s t) := inferInstanceAs (Decidable (_ ≠ _))

/-- Links that all take `lat` cycles. If their ports are not those of links between routers, then all routers are
linked. -/
structure OneLatency (n nPorts lat : ℕ) (links : Adjacent) : Prop where
  made : Made n (fun port => 0 < port ∧ port ≤ nPorts) lat links
  lat_le : lat ≤ noLink
  remote : nPorts < LOCAL_PORT1 ∨ ∀ i < n, ∀ j < n, i ≠ j → Linked links i j

/-- A wire that was passed on begins with a link. Where links take no time, that does not lead next to `j`. -/
structure Detour (nPorts lat : ℕ) (links : Adjacent) (i j : ℕ) (y : Wire) : Prop where
  link : Linked links i y.rID
  port : y.port ≤ nPorts
  far : lat = 0 → ¬Linked links y.rID j

/-- A vector where there is no link: all its wires have one distance, which is that of no link as long as the first
of them is none. -/
structure Indirect (nPorts lat : ℕ) (links : Adjacent) (i j : ℕ) (ws : List Wire) : Prop where
  ne_nil : ws ≠ []
  same : ∀ y ∈ ws, y.dist = (at0 ws).dist
  wires : ∀ y ∈ ws, y.port = DISABLED_PORT ∨ Detour nPorts lat links i j y
  pos : 0 < (at0 ws).dist
  ge : lat ≤ (at0 ws).dist
  le : (at0 ws).dist ≤ noLink
  free : lat = 0 → (at0 ws).dist = noLink
  none : (at0 ws).port = DISABLED_PORT → (at0 ws).dist = noLink

/-- **A vector** is the link, if there is one. -/
def Holds (nPorts lat : ℕ) (links : Adjacent) (i j : ℕ) (ws : List Wire) : Prop :=
  (Linked links i j → ws = links.row i j) ∧ (¬Linked links i j → Indirect nPorts lat links i j ws)

variable {n nPorts lat c d i j k : ℕ} {links adj : Adjacent} {viaK ws : List Wire} {y : Wire} {tentative : ℕ → Bool}

/-! ## Vectors -/

theorem OneLatency.row_link (h : OneLatency n nPorts lat links) (hl : Linked links i j) :
    i < n ∧ j < n ∧ ∃ port, 0 < port ∧ port ≤ nPorts ∧ links.row i j = [⟨j, port, lat⟩] := by
  rcases h.made i j with hrow | ⟨hi, hj, port, ⟨hpos, hle⟩, hrow⟩
  · exact absurd (by rw [hrow]; rfl) hl
  · exact ⟨hi, hj, port, hpos, hle, hrow⟩

theorem OneLatency.row_noLink (h : OneLatency n nPorts lat links) (hl : ¬Linked links i j) :
    links.row i j = [noWire] := by
  rcases h.made i j with hrow | ⟨-, -, port, ⟨hpos, -⟩, hrow⟩
  · exact hrow
  · have hlink : Linked links i j := by
      rw [Linked, hrow]
      exact Nat.ne_of_gt hpos
    exact absurd hlink hl

theorem OneLatency.holds (h : OneLatency n nPorts lat links) (i j : ℕ) : Holds nPorts lat links i j (links.row i j) := by
  refine ⟨fun _ => rfl, fun hl => ?_⟩
  rw [h.row_noLink hl]
  have hlat := h.lat_le
  refine ⟨by simp, ?_, ?_, ?_, hlat, Nat.le_refl _, fun _ => rfl, fun _ => rfl⟩
  · intro y hy
    rw [List.mem_singleton.1 hy]
    rfl
  · intro y hy
    rw [List.mem_singleton.1 hy]
    exact .inl rfl
  · show 0 < noLink
    rw [noLink_eq]
    decide

/-- A vector whose wires have one distance. -/
theorem Indirect.of_dist {N : ℕ} (hne : ws ≠ [])
    (hall : ∀ y ∈ ws, y.dist = N ∧ (y.port = DISABLED_PORT ∨ Detour nPorts lat links i j y)) (hpos : 0 < N)
    (hge : lat ≤ N) (hle : N ≤ noLink) (hfree : lat = 0 → N = noLink)
    (hnone : (at0 ws).port = DISABLED_PORT → N = noLink) : Indirect nPorts lat links i j ws := by
  have hat : (at0 ws).dist = N := (hall _ (at0_mem hne)).1
  refine ⟨hne, fun y hy => ?_, fun y hy => (hall y hy).2, ?_, ?_, ?_, ?_, ?_⟩
  · rw [hat]
    exact (hall y hy).1
  · rwa [hat]
  · rwa [hat]
  · rwa [hat]
  · rwa [hat]
  · rwa [hat]

namespace Holds

theorem ne_nil (hw : Holds nPorts lat links i j ws) (h : OneLatency n nPorts lat links) : ws ≠ [] := by
  by_cases hl : Linked links i j
  · obtain ⟨-, -, port, -, -, hrow⟩ := h.row_link hl
    rw [hw.1 hl, hrow]
    simp
  · exact (hw.2 hl).ne_nil

theorem same (hw : Holds nPorts lat links i j ws) (h : OneLatency n nPorts lat links) :
    ∀ y ∈ ws, y.dist = (at0 ws).dist := by
  by_cases hl : Linked links i j
  · obtain ⟨-, -, port, -, -, hrow⟩ := h.row_link hl
    intro y hy
    rw [hw.1 hl, hrow] at hy ⊢
    rw [List.mem_singleton.1 hy]
    rfl
  · exact (hw.2 hl).same

theorem ge (hw : Holds nPorts lat links i j ws) (h : OneLatency n nPorts lat links) : lat ≤ (at0 ws).dist := by
  by_cases hl : Linked links i j
  · obtain ⟨-, -, port, -, -, hrow⟩ := h.row_link hl
    rw [hw.1 hl, hrow]
    exact Nat.le_refl _
  · exact (hw.2 hl).ge

/-- Only links take no time. -/
theorem dist_pos (hw : Holds nPorts lat links i j ws) (h : OneLatency n nPorts lat links)
    (hl : lat = 0 → ¬Linked links i j) : 0 < (at0 ws).dist := by
  by_cases hlat : lat = 0
  · exact (hw.2 (hl hlat)).pos
  · have := hw.ge h
    omega

/-- The wires that may be passed on have the ports of links between routers. -/
theorem port (hw : Holds nPorts lat links d k viaK) (h : OneLatency n nPorts lat links)
    (hrem : nPorts < LOCAL_PORT1) (hlt : (at0 viaK).dist < noLink ∨ Linked links d k) :
    UP_PORT ≤ (at0 viaK).port ∧ (at0 viaK).port < LOCAL_PORT1 := by
  by_cases hl : Linked links d k
  · obtain ⟨-, -, port, hpos, hle, hrow⟩ := h.row_link hl
    rw [hw.1 hl, hrow]
    exact ⟨hpos, Nat.lt_of_le_of_lt hle hrem⟩
  · have hind := hw.2 hl
    have hport : (at0 viaK).port ≠ DISABLED_PORT := by
      intro hnone
      have hdist := hind.none hnone
      have hless := hlt.resolve_right hl
      omega
    have hle := ((hind.wires _ (at0_mem hind.ne_nil)).resolve_left hport).port
    exact ⟨Nat.one_le_iff_ne_zero.2 hport, Nat.lt_of_le_of_lt hle hrem⟩

/-- A wire to `k` that is passed on to a router next to which there is no link. -/
theorem farther (hw : Holds nPorts lat links d k viaK) (h : OneLatency n nPorts lat links) (hy : y ∈ viaK) {far : ℕ}
    (hfree : lat = 0 → Linked links d k ∧ ¬Linked links k i) (hsum : (at0 viaK).dist + far ≤ noLink) :
    (y.farther far).dist = (at0 viaK).dist + far ∧
      ((y.farther far).port = DISABLED_PORT ∨ Detour nPorts lat links d i (y.farther far)) := by
  have hdist : (y.farther far).dist = (at0 viaK).dist + far := by
    rw [Wire.farther, hw.same h y hy]
    rw [noLink_eq] at hsum
    exact Nat.mod_eq_of_lt (by omega)
  refine ⟨hdist, ?_⟩
  by_cases hl : Linked links d k
  · obtain ⟨-, -, port, -, hle, hrow⟩ := h.row_link hl
    rw [hw.1 hl, hrow] at hy
    obtain rfl := List.mem_singleton.1 hy
    exact .inr ⟨hl, hle, fun hlat => (hfree hlat).2⟩
  · rcases (hw.2 hl).wires y hy with hport | hdet
    · exact .inl hport
    · exact .inr ⟨hdet.link, hdet.port, fun hlat => absurd (hfree hlat).1 hl⟩

/-- Where there is no link, a router that is near enough passes on wires that are as far as it is, with this router
behind it. -/
theorem passed (hind : Indirect nPorts lat links d i ws) (h : OneLatency n nPorts lat links)
    (hk : Holds nPorts lat links d k viaK) {wki : List Wire} (hki : Holds nPorts lat links k i wki) (hd : d < n)
    (hi : i < n) (hdi : d ≠ i) (hl : ¬Linked links d i) (hne : (at0 wki).dist ≠ 0)
    (hle : (at0 viaK).dist + (at0 wki).dist + c ≤ (at0 ws).dist) :
    (UP_PORT ≤ (at0 viaK).port ∧ (at0 viaK).port < LOCAL_PORT1) ∧ (lat = 0 → ¬Linked links k i) ∧
      ∀ y ∈ viaK, (y.farther ((at0 wki).dist + c)).dist = (at0 viaK).dist + (at0 wki).dist + c ∧
        ((y.farther ((at0 wki).dist + c)).port = DISABLED_PORT ∨
          Detour nPorts lat links d i (y.farther ((at0 wki).dist + c))) := by
  have hmax := hind.le
  have hrem : nPorts < LOCAL_PORT1 := h.remote.resolve_right fun hall => hl (hall d hd i hi hdi)
  have hfree : lat = 0 → Linked links d k ∧ ¬Linked links k i := by
    intro hlat
    refine ⟨?_, fun hlki => ?_⟩
    · by_contra hdk
      have := (hk.2 hdk).free hlat
      omega
    · obtain ⟨-, -, port, -, -, hrow⟩ := h.row_link hlki
      rw [hki.1 hlki, hrow] at hne
      exact hne hlat
  refine ⟨hk.port h hrem (.inl (by omega)), fun hlat => (hfree hlat).2, fun y hy => ?_⟩
  rw [Nat.add_assoc]
  exact hk.farther h hy hfree (by omega)

/-- **Passing wires on** replaces no link. -/
theorem relaxed (hws : Holds nPorts lat links d i ws) (h : OneLatency n nPorts lat links)
    (hk : Holds nPorts lat links d k viaK) {wki : List Wire} (hki : Holds nPorts lat links k i wki)
    (hd : d < n) (hi : i < n) (hdi : d ≠ i) :
    Holds nPorts lat links d i (RoutingPolicy.relaxed c viaK (at0 wki).dist ws) := by
  have hge := hk.ge h
  rw [RoutingPolicy.relaxed]
  split
  · rename_i hcond
    obtain ⟨hne, hle⟩ := hcond
    refine ⟨fun hl => ?_, fun hl => ?_⟩
    · -- a link is not longer than any way to `k`
      obtain ⟨-, -, port, -, -, hrow⟩ := h.row_link hl
      have hlink : (at0 ws).dist = lat := by
        rw [hws.1 hl, hrow]
        rfl
      omega
    · have hind := hws.2 hl
      have hmax := hind.le
      obtain ⟨hport, hfree, hpass⟩ := passed hind h hk hki hd hi hdi hl hne hle
      obtain ⟨v, vs, hv⟩ := List.exists_cons_of_ne_nil (hk.ne_nil h)
      rw [passOn_eq_addNew hport]
      split
      · rename_i hlt
        -- all wires are new, and the first is the first to `k`
        have hat : at0 (addNew [] (viaK.map (Wire.farther ((at0 wki).dist + c)))) =
            (at0 viaK).farther ((at0 wki).dist + c) := by
          rw [hv, List.map_cons, addNew_cons, if_neg List.not_mem_nil, List.nil_append, at0_addNew (by simp)]
          rfl
        refine .of_dist (N := (at0 viaK).dist + (at0 wki).dist + c)
          (addNew_ne_nil ⟨_, .inr (List.mem_map_of_mem (by simp [hv] : v ∈ viaK))⟩) (fun y hy => ?_)
          (by omega) (by omega) (by omega) (fun hlat => ?_) (fun hnone => ?_)
        · obtain ⟨z, hz, rfl⟩ := List.mem_map.1 ((mem_addNew.1 hy).resolve_left List.not_mem_nil)
          exact hpass z hz
        · -- without a link the distance is that of none, which is not less
          have := (hki.2 (hfree hlat)).free hlat
          omega
        · have hport0 : (at0 viaK).port = DISABLED_PORT := by
            rw [hat] at hnone
            exact hnone
          rw [hport0] at hport
          exact absurd hport.1 (by decide)
      · rename_i hlt
        have hat : at0 (addNew ws (viaK.map (Wire.farther ((at0 wki).dist + c)))) = at0 ws := at0_addNew hind.ne_nil
        refine .of_dist (addNew_ne_nil ⟨_, .inl (at0_mem hind.ne_nil)⟩) (fun y hy => ?_) hind.pos hind.ge hind.le
          hind.free (fun hnone => hind.none (hat ▸ hnone))
        rcases mem_addNew.1 hy with hy | hy
        · exact ⟨hind.same y hy, hind.wires y hy⟩
        · obtain ⟨z, hz, rfl⟩ := List.mem_map.1 hy
          exact ⟨by rw [(hpass z hz).1]; omega, (hpass z hz).2⟩
  · exact hws

end Holds

/-! ## The matrix -/

/-- Every vector between different routers, and that there are wires to a router itself. -/
structure LinkRows (nPorts lat : ℕ) (links adj : Adjacent) : Prop where
  holds : ∀ i j, i ≠ j → Holds nPorts lat links i j (adj.row i j)
  self : ∀ i, adj.row i i ≠ []

/-- The matrix on the way, in the search from `d`. -/
structure Passing (nPorts lat : ℕ) (links : Adjacent) (d : ℕ) (tentative : ℕ → Bool) (adj : Adjacent) : Prop where
  rows : LinkRows nPorts lat links adj
  local0 : at0 (adj.row d d) = ⟨d, LOCAL_PORT1, 0⟩
  settled : tentative d = false

theorem OneLatency.rows (h : OneLatency n nPorts lat links) : LinkRows nPorts lat links links := by
  refine ⟨fun i j _ => h.holds i j, fun i => ?_⟩
  rcases h.made i i with hrow | ⟨-, -, port, -, hrow⟩
  · simp [hrow]
  · simp [hrow]

/-- The first loop of a round. -/
theorem Passing.sweep (hp : Passing nPorts lat links d tentative adj) (h : OneLatency n nPorts lat links) (hd : d < n)
    (hk : tentative k = false) : Passing nPorts lat links d tentative (sweep n c d k tentative adj) := by
  obtain ⟨hrows, hrow⟩ := sweep_spec c d adj hk n
  have hself : (RoutingPolicy.sweep n c d k tentative adj).row d d = adj.row d d := by
    rw [hrow, if_neg (by simp [hp.settled])]
  refine ⟨⟨fun i j hij => ?_, fun i => ?_⟩, hself ▸ hp.local0, hp.settled⟩
  · by_cases hid : i = d
    · subst hid
      rw [hrow]
      split
      · rename_i hj
        by_cases hki : k = i
        · -- the router passes nothing on to its neighbours
          subst hki
          rw [relaxed_local hp.local0]
          exact hp.rows.holds k j hij
        · have hkj : k ≠ j := by
            rintro rfl
            simp [hk] at hj
          exact (hp.rows.holds i j hij).relaxed h (hp.rows.holds i k (Ne.symm hki)) (hp.rows.holds k j hkj) hd hj.1 hij
      · exact hp.rows.holds i j hij
    · rw [hrows i hid]
      exact hp.rows.holds i j hij
  · by_cases hid : i = d
    · subst hid
      rw [hself]
      exact hp.rows.self i
    · rw [hrows i hid]
      exact hp.rows.self i

/-- **The rounds** end, for every round settles a router. -/
theorem Passing.search (h : OneLatency n nPorts lat links) (hd : d < n) : ∀ fuel k tentative adj,
    Passing nPorts lat links d tentative adj → tentative k = false → (List.range n).countP tentative < fuel →
    ∃ adj', search n c d fuel k tentative adj = some adj' ∧ LinkRows nPorts lat links adj' := by
  intro fuel
  induction fuel with
  | zero => exact fun _ _ _ _ _ hfuel => absurd hfuel (Nat.not_lt_zero _)
  | succ fuel ih =>
    intro k tentative adj hp hk hfuel
    have hsweep := hp.sweep (c := c) h hd hk
    rw [RoutingPolicy.search]
    cases hnext : nearest n tentative ((RoutingPolicy.sweep n c d k tentative adj).row d) with
    | none => exact ⟨_, rfl, hsweep.rows⟩
    | some k' =>
      obtain ⟨hk', htk', -⟩ := (nearest_spec tentative _ n).2 k' hnext
      have hk'd : d ≠ k' := by
        rintro rfl
        simp [hp.settled] at htk'
      refine ih k' _ _ ⟨hsweep.rows, hsweep.local0, ?_⟩ (Function.update_self _ _ _) ?_
      · rw [Function.update_of_ne hk'd]
        exact hp.settled
      · have := countP_update_lt (List.mem_range.2 hk') htk'
        omega

/-- One row. -/
theorem LinkRows.shortestPaths (hr : LinkRows nPorts lat links adj) (h : OneLatency n nPorts lat links) (hd : d < n) :
    ∃ adj', shortestPaths n c adj d = some adj' ∧ LinkRows nPorts lat links adj' := by
  refine Passing.search h hd n d _ _ ⟨⟨fun i j hij => ?_, fun i => ?_⟩, ?_, by simp⟩ (by simp) (countP_ne_lt hd)
  · rw [Adjacent.set_of_not _ fun hx => hij (hx.1.trans hx.2.symm)]
    exact hr.holds i j hij
  · by_cases hid : i = d
    · subst hid
      rw [Adjacent.set_self]
      simp [localWires]
    · rw [Adjacent.set_row_of_ne _ _ hid]
      exact hr.self i
  · rw [Adjacent.set_self]
    rfl

/-- **All rows.** -/
theorem make_rows (h : OneLatency n nPorts lat links) :
    ∃ A, make n c links = some A ∧ LinkRows nPorts lat links A := by
  have hrows : ∀ m ≤ n, ∃ A, (List.range m).foldlM (RoutingPolicy.shortestPaths n c) links = some A ∧
      LinkRows nPorts lat links A := by
    intro m
    induction m with
    | zero => exact fun _ => ⟨links, rfl, h.rows⟩
    | succ m ih =>
      intro hm
      obtain ⟨A, hrun, hA⟩ := ih (by omega)
      obtain ⟨A', hstep, hA'⟩ := hA.shortestPaths (c := c) h hm
      refine ⟨A', ?_, hA'⟩
      rw [List.range_succ, List.foldlM_append, hrun]
      simpa using hstep
  exact hrows n (Nat.le_refl n)

/-! ## The tables -/

theorem LinkRows.row_ne_nil (hr : LinkRows nPorts lat links adj) (h : OneLatency n nPorts lat links) (i j : ℕ) :
    adj.row i j ≠ [] := by
  by_cases hij : i = j
  · subst hij
    exact hr.self i
  · exact (hr.holds i j hij).ne_nil h

/-- **A lookup** answers a wire of the vector, whose distance is the one of the vector and of the table. -/
theorem LinkRows.getWire (hr : LinkRows nPorts lat links adj) (h : OneLatency n nPorts lat links) {fix : Bool}
    (hij : i ≠ j) (hj : j < n) {tab : RoutingTable} (htab : (getRoutingTable n fix adj i).Used tab) :
    ∃ y ∈ adj.row i j, (tab.getWire j).1 = some y ∧ y.dist = (at0 (adj.row i j)).dist ∧
      (at0 (tab.nextHop j).succs).dist = (at0 (adj.row i j)).dist := by
  have hkept : RoutingTable.Kept fix (adj.row i j) ((getRoutingTable n fix adj i).nextHop j).succs :=
    RoutingTable.fill_succs (fun j' _ => hr.row_ne_nil h i j') hj
  rw [← htab.succs] at hkept
  have hne := hkept.ne_nil (hr.row_ne_nil h i j)
  have hsame := (hr.holds i j hij).same h
  obtain ⟨y, hy, hget⟩ := RoutingTable.getWire_mem hne
  exact ⟨y, hkept.subset hy, hget, hsame y (hkept.subset hy), hsame _ (hkept.subset (at0_mem hne))⟩

end Esesc.Net
