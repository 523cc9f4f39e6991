import Mathlib.Tactic.Common
import Mathlib.Data.List.Nodup
import Mathlib.Algebra.Group.Nat.Defs
import Esesc.Lib.ShortestPath
import Esesc.Net.RoutingPolicy

/-!
# The search for shortest paths

`shortestPaths` on one row of the matrix, whatever the other rows are.

* `Entry`, `Final`: what the row holds of a router that is tentative, and of one that is settled.
* `Entry.relaxed`: a settled router passes its wires on.
* `shortestPaths_final`: in the end the row holds all first hops and nothing else.
-/

namespace Esesc.Net

open Esesc.Lib

/-- The length of a link with the crossing of the router before it, where there is a link. -/
def cost (n crossLat : ℕ) (adj : Adjacent) (i j : ℕ) : Option ℕ :=
  if i < n ∧ j < n ∧ i ≠ j ∧ (at0 (adj.row i j)).dist ≠ noLink then some ((at0 (adj.row i j)).dist + crossLat)
  else none

/-- The vector `ws` after the wires `opts` that are not in it yet were pushed back. -/
def addNew (ws opts : List Wire) : List Wire :=
  opts.foldl (fun ws y => if y ∈ ws then ws else ws ++ [y]) ws

/-- A wire to `k`, as one to a router that is `far` from `k`. -/
def Wire.farther (far : ℕ) (opt : Wire) : Wire := { opt with dist := (opt.dist + far) % 2 ^ 16 }

namespace RoutingPolicy

/-! ## Passing wires on -/

section PassOn

variable {viaK ws opts : List Wire} {far : ℕ} {y : Wire}

theorem at0_mem (h : ws ≠ []) : at0 ws ∈ ws := by
  obtain ⟨y, ys, rfl⟩ := List.exists_cons_of_ne_nil h
  exact List.mem_cons_self

theorem addNew_cons : addNew ws (y :: opts) = addNew (if y ∈ ws then ws else ws ++ [y]) opts := rfl

theorem mem_addNew : y ∈ addNew ws opts ↔ y ∈ ws ∨ y ∈ opts := by
  induction opts generalizing ws with
  | nil => simp [addNew]
  | cons z zs ih =>
    rw [addNew_cons, ih]
    by_cases hz : z ∈ ws
    · rw [if_pos hz, List.mem_cons]
      constructor
      · tauto
      · rintro (h | rfl | h)
        · exact .inl h
        · exact .inl hz
        · exact .inr h
    · rw [if_neg hz, List.mem_append, List.mem_singleton, List.mem_cons, or_assoc]

theorem addNew_nodup (h : ws.Nodup) : (addNew ws opts).Nodup := by
  induction opts generalizing ws with
  | nil => exact h
  | cons z zs ih =>
    rw [addNew_cons]
    apply ih
    split
    · exact h
    · rename_i hz
      have hdisj : ∀ a ∈ ws, ∀ b ∈ [z], a ≠ b := by
        rintro a ha b hb rfl
        exact hz (List.mem_singleton.1 hb ▸ ha)
      exact List.nodup_append.2 ⟨h, List.nodup_singleton z, hdisj⟩

/-- The wire that was first stays first. -/
theorem at0_addNew (h : ws ≠ []) : at0 (addNew ws opts) = at0 ws := by
  induction opts generalizing ws with
  | nil => rfl
  | cons z zs ih =>
    obtain ⟨y, ys, rfl⟩ := List.exists_cons_of_ne_nil h
    rw [addNew_cons]
    split
    · exact ih h
    · exact ih (by simp)

theorem addNew_ne_nil (h : ∃ y, y ∈ ws ∨ y ∈ opts) : addNew ws opts ≠ [] := by
  obtain ⟨y, hy⟩ := h
  exact List.ne_nil_of_mem (mem_addNew.2 hy)

theorem passOn_eq_addNew (hport : UP_PORT ≤ (at0 viaK).port ∧ (at0 viaK).port < LOCAL_PORT1) :
    passOn viaK far ws = addNew ws (viaK.map (Wire.farther far)) := by
  obtain ⟨hup, hlocal⟩ := hport
  have hbody : ∀ (ws : List Wire) (opt : Wire),
      (if UP_PORT ≤ (at0 viaK).port ∧ (at0 viaK).port < LOCAL_PORT1 ∧ opt.farther far ∉ ws then
        ws ++ [opt.farther far] else ws) =
      if opt.farther far ∈ ws then ws else ws ++ [opt.farther far] := by
    intro ws opt
    by_cases hmem : opt.farther far ∈ ws <;> simp [hmem, hup, hlocal]
  rw [addNew, List.foldl_map]
  exact congrArg (fun f => viaK.foldl f ws) (funext₂ hbody)

/-- A router that is behind no link passes nothing on. -/
theorem passOn_local (hport : LOCAL_PORT1 ≤ (at0 viaK).port) : passOn viaK far ws = ws := by
  have hnot : ¬(at0 viaK).port < LOCAL_PORT1 := Nat.not_lt.2 hport
  simp only [passOn, hnot, false_and, and_false, if_false]
  exact List.foldl_fixed viaK

end PassOn

/-! ## What the row holds -/

/-- The wires to the router `i`, with the routes that the search has seen: the first hops of those
that are not longer than others. -/
structure Entry (w : ℕ → ℕ → Option ℕ) (s c : ℕ) (port : ℕ → ℕ) (S : ℕ → Prop) (i : ℕ) (ws : List Wire) :
    Prop where
  ne_nil : ws ≠ []
  nodup : ws.Nodup
  pos : 0 < (at0 ws).dist
  le : (at0 ws).dist ≤ noLink
  lower : ∀ v x, Cand w s S i v x → (at0 ws).dist + c ≤ x
  mem_iff : (at0 ws).dist < noLink → ∀ y, y ∈ ws ↔
    Cand w s S i y.rID ((at0 ws).dist + c) ∧ y.port = port y.rID ∧ y.dist = (at0 ws).dist

/-- The wires to a router at the distance `L`: the first hops of the shortest routes. -/
structure Final (w : ℕ → ℕ → Option ℕ) (s c : ℕ) (port : ℕ → ℕ) (i : ℕ) (ws : List Wire) (L : ℕ) : Prop where
  ne_nil : ws ≠ []
  nodup : ws.Nodup
  pos : 0 < L
  lt : L < noLink
  shortest : Shortest w s i (L + c)
  mem_iff : ∀ y, y ∈ ws ↔ FirstHop w s i y.rID ∧ y.port = port y.rID ∧ y.dist = L

section Relax

variable {w : ℕ → ℕ → Option ℕ} {s c : ℕ} {port : ℕ → ℕ} {S : ℕ → Prop} {i k v x dist L : ℕ}
  {ws viaK : List Wire} {y : Wire}

theorem Final.head (hk : Final w s c port k viaK L) : (at0 viaK).dist = L :=
  ((hk.mem_iff _).1 (at0_mem hk.ne_nil)).2.2

/-- The routes through `k` that the search sees once `k` is settled. -/
theorem Final.cand_insert (hk : Final w s c port k viaK L) (hks : k ≠ s) (hw : w k i = some (dist + c)) :
    Cand w s (fun j => S j ∨ j = k) i v x ↔
      Cand w s S i v x ∨ (FirstHop w s k v ∧ x = L + dist + c + c) := by
  rw [Lib.cand_insert]
  apply or_congr Iff.rfl
  constructor
  · rintro ⟨-, d, a, hs, hv, ha, rfl⟩
    have hd := hs.unique hk.shortest
    have hadist : a = dist + c := Option.some.inj (ha.symm.trans hw)
    exact ⟨hv, by omega⟩
  · rintro ⟨hv, rfl⟩
    exact ⟨hks, L + c, dist + c, hk.shortest, hv, hw, by omega⟩

theorem Final.cand_insert_none (hw : w k i = none) :
    Cand w s (fun j => S j ∨ j = k) i v x ↔ Cand w s S i v x := by
  rw [Lib.cand_insert]
  simp [hw]

/-- The wires that `k` passes on. -/
theorem Final.mem_farther (hk : Final w s c port k viaK L) (hle : L + dist + c ≤ noLink) :
    y ∈ viaK.map (Wire.farther (dist + c)) ↔
      FirstHop w s k y.rID ∧ y.port = port y.rID ∧ y.dist = L + dist + c := by
  have hmod : (L + (dist + c)) % 2 ^ 16 = L + dist + c := by
    rw [noLink_eq] at hle
    omega
  rw [List.mem_map]
  constructor
  · rintro ⟨opt, hopt, rfl⟩
    obtain ⟨hv, hp, hd⟩ := (hk.mem_iff opt).1 hopt
    exact ⟨hv, hp, by simp only [Wire.farther, hd, hmod]⟩
  · rintro ⟨hv, hp, hd⟩
    refine ⟨{ y with dist := L }, (hk.mem_iff _).2 ⟨hv, hp, rfl⟩, ?_⟩
    simp only [Wire.farther, hmod, ← hd]

/-- Only the routes that the search has seen matter. -/
theorem Entry.congr {S' : ℕ → Prop} (hi : Entry w s c port S i ws)
    (hcand : ∀ v x, Cand w s S' i v x ↔ Cand w s S i v x) : Entry w s c port S' i ws := by
  obtain ⟨hne, hnd, hpos, hle, hlower, hmem⟩ := hi
  exact ⟨hne, hnd, hpos, hle, by simpa only [hcand], by simpa only [hcand]⟩

/-- A router that `k` is no shorter way to keeps its wires. -/
theorem Entry.skip (hi : Entry w s c port S i ws) (hk : Final w s c port k viaK L) (hks : k ≠ s)
    (hlink : w k i = none ∨ w k i = some (dist + c)) (hlt : (at0 ws).dist < L + dist + c) :
    Entry w s c port (fun j => S j ∨ j = k) i ws := by
  rcases hlink with hw | hw
  · exact hi.congr fun _ _ => Final.cand_insert_none hw
  · -- a route through `k` is longer than the routes that the wires stand for
    obtain ⟨hne, hnd, hpos, hle, hlower, hmem⟩ := hi
    refine ⟨hne, hnd, hpos, hle, fun v x hc => ?_, fun hL y => ?_⟩
    · rcases (hk.cand_insert hks hw).1 hc with hc | ⟨-, rfl⟩
      · exact hlower v x hc
      · omega
    · rw [hmem hL y, hk.cand_insert hks hw]
      constructor
      · exact fun ⟨hc, h⟩ => ⟨.inl hc, h⟩
      · rintro ⟨hc | ⟨-, heq⟩, h⟩
        · exact ⟨hc, h⟩
        · omega

/-- One that `k` is a shorter way to has the wires of `k` instead. -/
theorem Entry.shorter (hi : Entry w s c port S i ws) (hk : Final w s c port k viaK L) (hks : k ≠ s)
    (hw : w k i = some (dist + c)) (hlt : L + dist + c < (at0 ws).dist) :
    Entry w s c port (fun j => S j ∨ j = k) i (addNew [] (viaK.map (Wire.farther (dist + c)))) := by
  have hle := hi.le
  have hpos := hk.pos
  have hmem : ∀ y, y ∈ addNew [] (viaK.map (Wire.farther (dist + c))) ↔
      FirstHop w s k y.rID ∧ y.port = port y.rID ∧ y.dist = L + dist + c := by
    intro y
    rw [mem_addNew, hk.mem_farther (by omega)]
    simp
  have hne : addNew [] (viaK.map (Wire.farther (dist + c))) ≠ [] :=
    addNew_ne_nil ⟨_, .inr (List.mem_map_of_mem (at0_mem hk.ne_nil))⟩
  have hdist := ((hmem _).1 (at0_mem hne)).2.2
  refine ⟨hne, addNew_nodup List.nodup_nil, ?_, ?_, fun v x hc => ?_, fun hL y => ?_⟩
  · omega
  · omega
  · rcases (hk.cand_insert hks hw).1 hc with hc | ⟨-, rfl⟩
    · have := hi.lower v x hc
      omega
    · omega
  · rw [hmem, hdist, hk.cand_insert hks hw]
    constructor
    · exact fun ⟨hv, h⟩ => ⟨.inr ⟨hv, rfl⟩, h⟩
    · rintro ⟨hc | ⟨hv, -⟩, h⟩
      · -- a route that was seen before is longer
        have := hi.lower _ _ hc
        omega
      · exact ⟨hv, h⟩

/-- One that `k` is another way to has them too. -/
theorem Entry.equal (hi : Entry w s c port S i ws) (hk : Final w s c port k viaK L) (hks : k ≠ s)
    (hw : w k i = some (dist + c)) (heq : L + dist + c = (at0 ws).dist) :
    Entry w s c port (fun j => S j ∨ j = k) i (addNew ws (viaK.map (Wire.farther (dist + c)))) := by
  have hle := hi.le
  have hhead : at0 (addNew ws (viaK.map (Wire.farther (dist + c)))) = at0 ws := at0_addNew hi.ne_nil
  have hne : addNew ws (viaK.map (Wire.farther (dist + c))) ≠ [] :=
    addNew_ne_nil ⟨_, .inl (at0_mem hi.ne_nil)⟩
  refine ⟨hne, addNew_nodup hi.nodup, ?_, ?_, fun v x hc => ?_, fun hL y => ?_⟩
  · rw [hhead]
    exact hi.pos
  · rw [hhead]
    exact hi.le
  · rw [hhead]
    rcases (hk.cand_insert hks hw).1 hc with hc | ⟨-, rfl⟩
    · exact hi.lower v x hc
    · omega
  · rw [hhead] at hL ⊢
    rw [mem_addNew, hi.mem_iff hL, hk.mem_farther (by omega), hk.cand_insert hks hw, heq]
    constructor
    · rintro (⟨hc, h⟩ | ⟨hv, h⟩)
      · exact ⟨.inl hc, h⟩
      · exact ⟨.inr ⟨hv, rfl⟩, h⟩
    · rintro ⟨hc | ⟨hv, -⟩, h⟩
      · exact .inl ⟨hc, h⟩
      · exact .inr ⟨hv, h⟩

/-- **Relaxing.** A settled router passes its wires on to a tentative one. -/
theorem Entry.relaxed (hi : Entry w s c port S i ws) (hk : Final w s c port k viaK L) (hks : k ≠ s)
    (hlink : (dist = noLink ∧ w k i = none) ∨ (0 < dist ∧ w k i = some (dist + c)))
    (hport : (UP_PORT ≤ (at0 viaK).port ∧ (at0 viaK).port < LOCAL_PORT1) ∨ (at0 ws).dist < L + dist + c) :
    Entry w s c port (fun j => S j ∨ j = k) i (RoutingPolicy.relaxed c viaK dist ws) := by
  have hL := hk.head
  have hLpos := hk.pos
  have hle := hi.le
  by_cases hlt : (at0 ws).dist < L + dist + c
  · have hsame : RoutingPolicy.relaxed c viaK dist ws = ws := by
      rw [RoutingPolicy.relaxed, if_neg (by omega)]
    rw [hsame]
    exact hi.skip hk hks (hlink.imp And.right And.right) hlt
  · rcases hlink with ⟨rfl, -⟩ | ⟨hdist, hw⟩
    · -- no link is longer than any route
      omega
    · have hup := hport.resolve_right hlt
      rw [RoutingPolicy.relaxed, if_pos (by omega), passOn_eq_addNew hup, hL]
      split
      · rename_i hshort
        exact hi.shorter hk hks hw hshort
      · exact hi.equal hk hks hw (by omega)

/-- Nothing is passed on by the router itself. -/
theorem Entry.insert_self (hi : Entry w s c port S i ws) : Entry w s c port (fun j => S j ∨ j = s) i ws := by
  refine hi.congr fun v x => ?_
  rw [Lib.cand_insert]
  simp

theorem relaxed_local (h : at0 viaK = ⟨s, LOCAL_PORT1, 0⟩) :
    RoutingPolicy.relaxed c viaK (at0 ws).dist ws = ws := by
  have hport : LOCAL_PORT1 ≤ (at0 viaK).port := by rw [h]
  have hdist : (at0 viaK).dist = 0 := by rw [h]
  rw [RoutingPolicy.relaxed]
  split
  · rw [if_neg (by omega), passOn_local hport]
  · rfl

end Relax

/-! ## The loops of a round -/

section Loops

variable {k : ℕ} {tentative : ℕ → Bool}

/-- The first loop changes nothing but the row of `dest`, and there every tentative router once. -/
theorem sweep_spec (c s : ℕ) (adj : Adjacent) (hk : tentative k = false) (n : ℕ) :
    (∀ x, x ≠ s → (sweep n c s k tentative adj).row x = adj.row x) ∧
      ∀ i, (sweep n c s k tentative adj).row s i = if i < n ∧ tentative i = true then
        relaxed c (adj.row s k) (at0 (adj.row k i)).dist (adj.row s i) else adj.row s i := by
  induction n with
  | zero => exact ⟨fun _ _ => rfl, fun i => by simp [sweep]⟩
  | succ n ih =>
    obtain ⟨hrows, hrow⟩ := ih
    have hstep : sweep (n + 1) c s k tentative adj =
        let adj' := sweep n c s k tentative adj
        if tentative n = true then
          adj'.set s n (relaxed c (adj'.row s k) (at0 (adj'.row k n)).dist (adj'.row s n))
        else adj' := by
      simp only [sweep, List.range_succ, List.foldl_append, List.foldl_cons, List.foldl_nil]
    -- `k` is not tentative, so what the step reads is as it was before the loop
    have hsk : (sweep n c s k tentative adj).row s k = adj.row s k := by
      rw [hrow, if_neg (by simp [hk])]
    have hsn : (sweep n c s k tentative adj).row s n = adj.row s n := by
      rw [hrow, if_neg (by omega)]
    have hkn : (sweep n c s k tentative adj).row k n = adj.row k n := by
      by_cases hks : k = s
      · subst hks
        exact hsn
      · rw [hrows k hks]
    rw [hstep]
    cases hn : tentative n with
    | true =>
      simp only [if_true, hsk, hsn, hkn]
      refine ⟨fun x hx => ?_, fun i => ?_⟩
      · rw [Adjacent.set_row_of_ne _ _ hx, hrows x hx]
      · by_cases hin : i = n
        · subst hin
          rw [Adjacent.set_self, if_pos ⟨Nat.lt_succ_self i, hn⟩]
        · have hlt : i < n + 1 ↔ i < n := by omega
          rw [Adjacent.set_of_ne _ _ hin, hrow]
          simp only [hlt]
    | false =>
      simp only [Bool.false_eq_true, if_false]
      refine ⟨hrows, fun i => ?_⟩
      have hlt : (i < n + 1 ∧ tentative i = true) ↔ (i < n ∧ tentative i = true) := by
        constructor
        · rintro ⟨hi, ht⟩
          have hin : i ≠ n := by
            rintro rfl
            simp [hn] at ht
          exact ⟨by omega, ht⟩
        · exact fun ⟨hi, ht⟩ => ⟨by omega, ht⟩
      rw [hrow]
      simp only [hlt]

/-- The second loop finds a tentative router that no tentative router is nearer than. -/
theorem nearest_spec (tentative : ℕ → Bool) (row : ℕ → List Wire) (n : ℕ) :
    (nearest n tentative row = none → ∀ i < n, tentative i = true → INT_MAX ≤ (at0 (row i)).dist) ∧
      ∀ k, nearest n tentative row = some k →
        k < n ∧ tentative k = true ∧ ∀ i < n, tentative i = true → (at0 (row k)).dist ≤ (at0 (row i)).dist := by
  let found : ℕ → Option ℕ × ℕ := fun n => (List.range n).foldl (fun km i =>
    if tentative i = true ∧ (at0 (row i)).dist < km.2 then (some i, (at0 (row i)).dist) else km)
    (none, INT_MAX)
  -- the second component is the distance of the first
  have hinv : ∀ n, (∀ i < n, tentative i = true → (found n).2 ≤ (at0 (row i)).dist) ∧
      ((found n).1 = none → (found n).2 = INT_MAX) ∧
      ∀ k, (found n).1 = some k → k < n ∧ tentative k = true ∧ (at0 (row k)).dist = (found n).2 := by
    intro n
    induction n with
    | zero =>
      refine ⟨fun i hi => absurd hi (Nat.not_lt_zero i), fun _ => rfl, fun k hk => ?_⟩
      cases hk
    | succ n ih =>
      obtain ⟨hmin, hnone, hsome⟩ := ih
      have hstep : found (n + 1) = if tentative n = true ∧ (at0 (row n)).dist < (found n).2 then
          (some n, (at0 (row n)).dist) else found n := by
        simp only [found, List.range_succ, List.foldl_append, List.foldl_cons, List.foldl_nil]
      rw [hstep]
      split
      · rename_i hnew
        refine ⟨fun i hi ht => ?_, fun h => ?_, fun k hk => ?_⟩
        · by_cases hin : i = n
          · rw [hin]
          · have := hmin i (by omega) ht
            omega
        · cases h
        · obtain rfl := Option.some.inj hk
          exact ⟨Nat.lt_succ_self n, hnew.1, rfl⟩
      · rename_i hold
        refine ⟨fun i hi ht => ?_, hnone, fun k hk => ?_⟩
        · by_cases hin : i = n
          · subst hin
            exact Nat.le_of_not_lt fun h => hold ⟨ht, h⟩
          · exact hmin i (by omega) ht
        · obtain ⟨hkn, hrest⟩ := hsome k hk
          exact ⟨by omega, hrest⟩
  obtain ⟨hmin, hnone, hsome⟩ := hinv n
  refine ⟨fun h i hi ht => ?_, fun k hk => ?_⟩
  · rw [← hnone h]
    exact hmin i hi ht
  · obtain ⟨hkn, ht, hd⟩ := hsome k hk
    refine ⟨hkn, ht, fun i hi hti => ?_⟩
    rw [hd]
    exact hmin i hi hti

end Loops

/-! ## The rounds -/

/-- What the search from `s` needs of the matrix it begins with: distances are positive, the row of
`s` has one wire to each router, no router is too far, and if ports are not those of links then no
way round is as short as a link. -/
structure Searchable (n c s : ℕ) (A : Adjacent) : Prop where
  lt : s < n
  dist : ∀ i < n, ∀ j < n, i ≠ j → 0 < (at0 (A.row i j)).dist ∧ (at0 (A.row i j)).dist ≤ noLink
  single : ∀ i < n, i ≠ s → ∃ y, A.row s i = [y] ∧ (y.dist ≠ noLink → y.rID = i)
  near : ∀ i < n, i ≠ s → ∃ d < noLink + c, Route (cost n c A) s i d
  ports : (∀ v a, cost n c A s v = some a → UP_PORT ≤ (at0 (A.row s v)).port ∧ (at0 (A.row s v)).port < LOCAL_PORT1) ∨
    ∃ B, ∀ i < n, ∀ j < n, i ≠ j → (at0 (A.row i j)).dist = B

/-- A matrix on the way: `S` are the routers whose wires were passed on. -/
structure Searching (n c s : ℕ) (A : Adjacent) (S : ℕ → Prop) (tentative : ℕ → Bool) (adj : Adjacent) : Prop where
  rows : ∀ x, x ≠ s → adj.row x = A.row x
  self : adj.row s s = localWires s (A.row s s)
  settled : tentative s = false
  final : ∀ i < n, i ≠ s → tentative i = false →
    ∃ L, Final (cost n c A) s c (fun v => (at0 (A.row s v)).port) i (adj.row s i) L
  entry : ∀ i < n, tentative i = true →
    Entry (cost n c A) s c (fun v => (at0 (A.row s v)).port) S i (adj.row s i)

section Rounds

variable {n c s k : ℕ} {A adj : Adjacent} {S : ℕ → Prop} {tentative : ℕ → Bool} {i j d : ℕ}

theorem cost_eq_some {a : ℕ} (h : cost n c A i j = some a) :
    i < n ∧ j < n ∧ i ≠ j ∧ (at0 (A.row i j)).dist ≠ noLink ∧ a = (at0 (A.row i j)).dist + c := by
  rw [cost] at h
  split at h
  · rename_i hlink
    exact ⟨hlink.1, hlink.2.1, hlink.2.2.1, hlink.2.2.2, (Option.some.inj h).symm⟩
  · cases h

theorem cost_pos (hA : Searchable n c s A) (i j a : ℕ) (h : cost n c A i j = some a) : 0 < a := by
  obtain ⟨hi, hj, hne, -, rfl⟩ := cost_eq_some h
  have := (hA.dist i hi j hj hne).1
  omega

/-- What `Entry.relaxed` asks of the distance between two routers. -/
theorem cost_cases (hA : Searchable n c s A) (hi : i < n) (hj : j < n) (hne : i ≠ j) :
    ((at0 (A.row i j)).dist = noLink ∧ cost n c A i j = none) ∨
      (0 < (at0 (A.row i j)).dist ∧ cost n c A i j = some ((at0 (A.row i j)).dist + c)) := by
  by_cases hlink : (at0 (A.row i j)).dist = noLink
  · exact .inl ⟨hlink, by simp [cost, hlink]⟩
  · exact .inr ⟨(hA.dist i hi j hj hne).1, by simp [cost, hi, hj, hne, hlink]⟩

/-- The wires of a settled router may be passed on, or need not be. -/
theorem Searching.ports (hA : Searchable n c s A) (h : Searching n c s A S tentative adj) (hi : i < n)
    (hti : tentative i = true) (hk : k < n) (hks : k ≠ s) (hki : k ≠ i) {L : ℕ}
    (hfin : Final (cost n c A) s c (fun v => (at0 (A.row s v)).port) k (adj.row s k) L) :
    (UP_PORT ≤ (at0 (adj.row s k)).port ∧ (at0 (adj.row s k)).port < LOCAL_PORT1) ∨
      (at0 (adj.row s i)).dist < L + (at0 (A.row k i)).dist + c := by
  have hentry := h.entry i hi hti
  rcases hA.ports with hlinks | ⟨B, hB⟩
  · left
    obtain ⟨⟨a, m, hw, -⟩, hport, -⟩ := (hfin.mem_iff _).1 (at0_mem hfin.ne_nil)
    rw [hport]
    exact hlinks _ a hw
  · right
    have his : i ≠ s := by
      rintro rfl
      simp [h.settled] at hti
    have hpos := hfin.pos
    have hle := hentry.le
    have hdirect : (at0 (adj.row s i)).dist ≤ B := by
      rcases cost_cases hA hA.lt hi his.symm with ⟨heq, -⟩ | ⟨-, hw⟩
      · rw [← hB s hA.lt i hi his.symm, heq]
        exact hle
      · have := hentry.lower i _ (.inl ⟨hw, rfl⟩)
        rw [hB s hA.lt i hi his.symm] at this
        omega
    -- so the way round through `k` is longer
    rw [hB k hk i hi hki]
    omega

/-- The first loop of a round passes on the wires of `k`. -/
theorem Searching.sweep (hA : Searchable n c s A) (hk : k < n) (htk : tentative k = false)
    (h : Searching n c s A S tentative adj) :
    Searching n c s A (fun j => S j ∨ j = k) tentative (sweep n c s k tentative adj) := by
  obtain ⟨hrows, hrow⟩ := sweep_spec c s adj htk n
  have hkept : ∀ i, tentative i = false → (RoutingPolicy.sweep n c s k tentative adj).row s i = adj.row s i := by
    intro i hti
    rw [hrow, if_neg (by simp [hti])]
  refine ⟨fun x hx => (hrows x hx).trans (h.rows x hx), (hkept s h.settled).trans h.self, h.settled, ?_, ?_⟩
  · intro i hi his hti
    rw [hkept i hti]
    exact h.final i hi his hti
  · intro i hi hti
    have hentry := h.entry i hi hti
    rw [hrow, if_pos ⟨hi, hti⟩]
    by_cases hks : k = s
    · -- the first round: the router itself passes nothing on
      subst hks
      rw [relaxed_local (by rw [h.self]; rfl)]
      exact hentry.insert_self
    · have hki : k ≠ i := by
        rintro rfl
        simp [hti] at htk
      obtain ⟨L, hfin⟩ := h.final k hk hks htk
      rw [h.rows k hks]
      exact hentry.relaxed hfin hks (cost_cases hA hk hi hki) (h.ports hA hi hti hk hks hki hfin)

/-- The nearest tentative router has all its first hops. -/
theorem Searching.settle (hA : Searchable n c s A) (h : Searching n c s A S tentative adj)
    (hS : ∀ j, S j ↔ tentative j = false) (hk : k < n) (htk : tentative k = true)
    (hmin : ∀ i < n, tentative i = true → (at0 (adj.row s k)).dist ≤ (at0 (adj.row s i)).dist) :
    Final (cost n c A) s c (fun v => (at0 (A.row s v)).port) k (adj.row s k) (at0 (adj.row s k)).dist := by
  have hentry := h.entry k hk htk
  have hks : k ≠ s := by
    rintro rfl
    simp [h.settled] at htk
  have hSs : S s := (hS s).2 h.settled
  have hnotS : ∀ j, ¬S j → tentative j = true := by
    intro j hj
    rw [hS] at hj
    simpa using hj
  have hfrontier : ∀ y v x, ¬S y → Cand (cost n c A) s S y v x → (at0 (adj.row s k)).dist + c ≤ x := by
    intro y v x hy hc
    obtain ⟨u, a, hw⟩ := hc.edge
    have hyn := (cost_eq_some hw).2.1
    have hlower := (h.entry y hyn (hnotS y hy)).lower v x hc
    have := hmin y hyn (hnotS y hy)
    omega
  have hroute : ∀ j m, ¬S j → Route (cost n c A) s j m → (at0 (adj.row s k)).dist + c ≤ m :=
    fun j m hj hr => le_route_of_cand hSs hfrontier hj hr
  have hSk : ¬S k := by
    rw [hS, htk]
    simp
  obtain ⟨d, hd, hr⟩ := hA.near k hk hks
  have hlt : (at0 (adj.row s k)).dist < noLink := by
    have := hroute k d hSk hr
    omega
  -- its first wire is that of a route, and no route is shorter
  have hshort : Shortest (cost n c A) s k ((at0 (adj.row s k)).dist + c) := by
    have hcand := ((hentry.mem_iff hlt _).1 (at0_mem hentry.ne_nil)).1
    exact ⟨hcand.route, fun m hm => hroute k m hSk hm⟩
  refine ⟨hentry.ne_nil, hentry.nodup, hentry.pos, hlt, hshort, fun y => ?_⟩
  rw [hentry.mem_iff hlt]
  constructor
  · exact fun ⟨hc, hy⟩ => ⟨hc.firstHop hshort, hy⟩
  · rintro ⟨hv, hy⟩
    refine ⟨firstHop_cand (cost_pos hA) hshort (fun j e hj he => ?_) hv, hy⟩
    -- whatever is nearer is settled
    by_contra hSj
    have := hroute j e hSj hj.route
    omega

/-- A tentative router fewer. -/
theorem countP_update_lt {l : List ℕ} (hk : k ∈ l) (htk : tentative k = true) :
    l.countP (Function.update tentative k false) < l.countP tentative := by
  have hle : ∀ l : List ℕ, l.countP (Function.update tentative k false) ≤ l.countP tentative := by
    intro l
    refine List.countP_mono_left fun x _ hx => ?_
    by_cases hxk : x = k
    · simp [hxk] at hx
    · simpa [hxk] using hx
  induction l with
  | nil => cases hk
  | cons x l ih =>
    have := hle l
    by_cases hxk : x = k
    · subst hxk
      simp [htk]
      omega
    · have hrest := ih ((List.mem_cons.1 hk).resolve_left (Ne.symm hxk))
      simp only [List.countP_cons, Function.update_of_ne hxk]
      omega

/-- At first all but one are tentative. -/
theorem countP_ne_lt (hs : s < n) : (List.range n).countP (fun i => decide (i ≠ s)) < n := by
  have htent : (fun i => decide (i ≠ s)) = Function.update (fun _ => true) s false := by
    funext i
    by_cases his : i = s
    · simp [his]
    · simp [his]
  have hone : (List.range n).countP (Function.update (fun _ => true) s false) <
      (List.range n).countP (fun _ => true) := countP_update_lt (List.mem_range.2 hs) rfl
  rw [htent]
  simpa using hone

/-- The rounds settle every router, if the fuel is enough for those that are tentative. -/
theorem Searching.search (hA : Searchable n c s A) : ∀ fuel k tentative adj,
    Searching n c s A (fun j => tentative j = false ∧ j ≠ k) tentative adj → k < n → tentative k = false →
    (List.range n).countP tentative < fuel →
    ∃ adj', search n c s fuel k tentative adj = some adj' ∧ (∀ x, x ≠ s → adj'.row x = A.row x) ∧
      adj'.row s s = localWires s (A.row s s) ∧ ∀ i < n, i ≠ s →
        ∃ L, Final (cost n c A) s c (fun v => (at0 (A.row s v)).port) i (adj'.row s i) L := by
  intro fuel
  induction fuel with
  | zero => exact fun _ _ _ _ _ _ hfuel => absurd hfuel (Nat.not_lt_zero _)
  | succ fuel ih =>
    intro k tentative adj h hk htk hfuel
    have hsweep := h.sweep hA hk htk
    -- now the wires of every settled router were passed on
    have hS : (fun j => (tentative j = false ∧ j ≠ k) ∨ j = k) = fun j => tentative j = false := by
      funext j
      by_cases hjk : j = k
      · simp [hjk, htk]
      · simp [hjk]
    rw [hS] at hsweep
    obtain ⟨hnone, hsome⟩ := nearest_spec tentative ((RoutingPolicy.sweep n c s k tentative adj).row s) n
    rw [RoutingPolicy.search]
    cases hnext : nearest n tentative ((RoutingPolicy.sweep n c s k tentative adj).row s) with
    | none =>
      refine ⟨_, rfl, hsweep.rows, hsweep.self, fun i hi his => hsweep.final i hi his ?_⟩
      -- a distance is never `INT_MAX`
      cases hti : tentative i with
      | false => rfl
      | true =>
        have hmax := hnone hnext i hi hti
        have hle := (hsweep.entry i hi hti).le
        rw [noLink_eq] at hle
        have : INT_MAX = 2147483647 := by decide
        omega
    | some k' =>
      obtain ⟨hk', htk', hmin⟩ := hsome k' hnext
      have hfinal := hsweep.settle hA (fun _ => Iff.rfl) hk' htk' hmin
      have hk's : k' ≠ s := by
        rintro rfl
        simp [h.settled] at htk'
      refine ih k' (Function.update tentative k' false) _ ⟨hsweep.rows, hsweep.self, ?_, ?_, ?_⟩ hk' (by simp) ?_
      · rw [Function.update_of_ne hk's.symm]
        exact h.settled
      · intro i hi his hti
        by_cases hik : i = k'
        · subst hik
          exact ⟨_, hfinal⟩
        · rw [Function.update_of_ne hik] at hti
          exact hsweep.final i hi his hti
      · intro i hi hti
        have hik : i ≠ k' := by
          rintro rfl
          simp at hti
        -- `k'` is settled, but its wires were not passed on yet
        have hS' : (fun j => Function.update tentative k' false j = false ∧ j ≠ k') = fun j => tentative j = false := by
          funext j
          by_cases hjk : j = k'
          · simp [hjk, htk']
          · simp [hjk]
        rw [Function.update_of_ne hik] at hti
        rw [hS']
        exact hsweep.entry i hi hti
      · have := countP_update_lt (List.mem_range.2 hk') htk'
        omega

/-- A link is all that is known of a router at first. -/
theorem Searchable.entry (hA : Searchable n c s A) (hS : ∀ j, S j → j = s) (hi : i < n) (his : i ≠ s) :
    Entry (cost n c A) s c (fun v => (at0 (A.row s v)).port) S i (A.row s i) := by
  obtain ⟨y, hrow, hrID⟩ := hA.single i hi his
  have hdist := hA.dist s hA.lt i hi (Ne.symm his)
  have hat : at0 (A.row s i) = y := by
    rw [hrow]
    rfl
  have hcand : ∀ v x, Cand (cost n c A) s S i v x ↔ cost n c A s i = some x ∧ v = i := by
    intro v x
    constructor
    · rintro (h | ⟨k, d, a, hk, hks, -⟩)
      · exact h
      · exact absurd (hS k hk) hks
    · exact .inl
  refine ⟨by simp [hrow], by simp [hrow], hdist.1, hdist.2, fun v x hc => ?_, fun hlt z => ?_⟩
  · obtain ⟨-, -, -, -, rfl⟩ := cost_eq_some ((hcand v x).1 hc).1
    exact Nat.le_refl _
  · have hlink : cost n c A s i = some ((at0 (A.row s i)).dist + c) :=
      ((cost_cases hA hA.lt hi (Ne.symm his)).resolve_left fun h => by omega).2
    rw [hat] at hlt hlink ⊢
    have hyi : y.rID = i := hrID (by omega)
    rw [hcand, hrow, List.mem_singleton]
    constructor
    · rintro rfl
      refine ⟨⟨hlink, hyi⟩, ?_, rfl⟩
      rw [hyi, hat]
    · rintro ⟨⟨-, hzi⟩, hport, hd⟩
      rw [hzi, hat] at hport
      obtain ⟨r, p, d⟩ := z
      obtain ⟨r', p', d'⟩ := y
      simp only at hzi hport hd hyi
      rw [hzi, hport, hd, hyi]

/-- **One row.** `shortestPaths` ends; it changes no other row, and in its own every router has the
first hops of all shortest routes to it. -/
theorem shortestPaths_final (hA : Searchable n c s A) :
    ∃ adj, shortestPaths n c A s = some adj ∧ (∀ x, x ≠ s → adj.row x = A.row x) ∧
      adj.row s s = localWires s (A.row s s) ∧ ∀ i < n, i ≠ s →
        ∃ L, Final (cost n c A) s c (fun v => (at0 (A.row s v)).port) i (adj.row s i) L := by
  refine Searching.search hA n s _ _ ⟨fun x hx => ?_, Adjacent.set_self _ _ _ _, by simp, ?_, ?_⟩ hA.lt (by simp)
    (countP_ne_lt hA.lt)
  · exact Adjacent.set_row_of_ne _ _ hx
  · intro i _ his hti
    simp [his] at hti
  · intro i hi hti
    have his : i ≠ s := by simpa using hti
    rw [Adjacent.set_of_ne _ _ his]
    exact hA.entry (fun j ⟨hj, _⟩ => by simpa using hj) hi his

end Rounds

end RoutingPolicy

end Esesc.Net
