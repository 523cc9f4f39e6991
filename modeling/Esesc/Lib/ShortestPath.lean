import Mathlib.Tactic.Common
import Mathlib.Data.Nat.Find
import Mathlib.Algebra.Group.Nat.Defs

/-!
# Shortest routes

Graphs whose edges have lengths: `w s t` is the length of the edge from `s` to `t`, if there is one.

* `exists_shortest`, `Shortest.rest`, `Shortest.init`: shortest routes and their parts.
* `Shortest.of_hops`: counting the edges of shortest routes, where all have one length.
* `exists_reach`: going from first hop to first hop ends at the target.
* `Cand`: what a search from one vertex knows of another after it has settled some.
* `le_route_of_cand`, `firstHop_cand`: what it knows of the nearest one that is not settled.
* `Shortcuts.shortest_iff`: edges that stand for shortest routes change no distance.
-/

namespace Esesc.Lib

variable {V : Type*}

/-- A route, and its length. -/
inductive Route (w : V → V → Option ℕ) : V → V → ℕ → Prop
  | nil (s : V) : Route w s s 0
  | cons {s v t : V} {a n : ℕ} : w s v = some a → Route w v t n → Route w s t (a + n)

structure Shortest (w : V → V → Option ℕ) (s t : V) (n : ℕ) : Prop where
  route : Route w s t n
  le : ∀ m, Route w s t m → n ≤ m

/-- A shortest route from `s` to `t` goes to `v` first. -/
def FirstHop (w : V → V → Option ℕ) (s t v : V) : Prop :=
  ∃ a n, w s v = some a ∧ Route w v t n ∧ Shortest w s t (a + n)

variable {w : V → V → Option ℕ} {s t u v : V} {a d m n : ℕ}

/-! ## Routes -/

theorem Route.append (h : Route w s t n) (h' : Route w t u m) : Route w s u (n + m) := by
  induction h with
  | nil s => simpa using h'
  | cons hw _ ih =>
    rw [Nat.add_assoc]
    exact .cons hw (ih h')

theorem Route.snoc (h : Route w s t n) (hw : w t u = some a) : Route w s u (n + a) := by
  have hedge : Route w t u (a + 0) := .cons hw (.nil u)
  exact h.append hedge

/-- The last edge of a route. -/
theorem Route.last (h : Route w s t n) :
    (s = t ∧ n = 0) ∨ ∃ u m a, Route w s u m ∧ w u t = some a ∧ n = m + a := by
  induction h with
  | nil s => exact .inl ⟨rfl, rfl⟩
  | @cons s v t b n hw _ ih =>
    rcases ih with ⟨rfl, rfl⟩ | ⟨u, m, a, hr, ha, rfl⟩
    · exact .inr ⟨s, 0, b, .nil s, hw, by omega⟩
    · exact .inr ⟨u, b + m, a, .cons hw hr, ha, by omega⟩

/-- A route that leaves a set has an edge on which it does. -/
theorem Route.exit {S : V → Prop} (h : Route w s t n) (hs : S s) (ht : ¬S t) :
    ∃ x y n₁ a n₂, S x ∧ ¬S y ∧ Route w s x n₁ ∧ w x y = some a ∧ Route w y t n₂ ∧ n = n₁ + a + n₂ := by
  induction h with
  | nil s => exact absurd hs ht
  | @cons s v t b n hw hr ih =>
    by_cases hv : S v
    · obtain ⟨x, y, n₁, a, n₂, hx, hy, h₁, ha, h₂, rfl⟩ := ih hv ht
      exact ⟨x, y, b + n₁, a, n₂, hx, hy, .cons hw h₁, ha, h₂, by omega⟩
    · exact ⟨s, v, 0, b, n, hs, hv, .nil s, hw, hr, by omega⟩

/-! ## Shortest routes -/

theorem Shortest.unique (h : Shortest w s t n) (h' : Shortest w s t m) : n = m :=
  Nat.le_antisymm (h.le m h'.route) (h'.le n h.route)

theorem exists_shortest (h : Route w s t n) : ∃ d ≤ n, Shortest w s t d := by
  classical
  have hex : ∃ d, Route w s t d := ⟨n, h⟩
  exact ⟨Nat.find hex, Nat.find_min' hex h, Nat.find_spec hex, fun _ hm => Nat.find_min' hex hm⟩

/-- What remains of a shortest route is shortest. -/
theorem Shortest.rest (h : Shortest w s t (a + n)) (hw : w s v = some a) (hr : Route w v t n) : Shortest w v t n := by
  refine ⟨hr, fun m hm => ?_⟩
  have := h.le _ (.cons hw hm)
  omega

/-- What a shortest route has done so far is shortest. -/
theorem Shortest.init (h : Shortest w s t (n + a)) (hr : Route w s u n) (hw : w u t = some a) : Shortest w s u n := by
  refine ⟨hr, fun m hm => ?_⟩
  have := h.le _ (hm.snoc hw)
  omega

theorem exists_firstHop (h : Shortest w s t d) (hne : s ≠ t) : ∃ v, FirstHop w s t v := by
  obtain ⟨hr, hle⟩ := h
  cases hr with
  | nil => exact absurd rfl hne
  | cons hw hr => exact ⟨_, _, _, hw, hr, .cons hw hr, hle⟩

theorem firstHop_iff (h : Shortest w s t d) :
    FirstHop w s t v ↔ ∃ a n, w s v = some a ∧ Shortest w v t n ∧ d = a + n := by
  constructor
  · rintro ⟨a, n, hw, hr, hs⟩
    exact ⟨a, n, hw, hs.rest hw hr, h.unique hs⟩
  · rintro ⟨a, n, hw, hs, rfl⟩
    exact ⟨a, n, hw, hs.route, h⟩

/-- **Counting edges.** Where all edges have one length, a function that no edge lowers by more than one, and that
from everywhere but the target some edge lowers by one, says how many edges the shortest routes have. -/
theorem Shortest.of_hops {h : V → ℕ} {P : V → Prop} {L : ℕ} (ht : h t = 0)
    (hedge : ∀ s v a, w s v = some a → a = L ∧ h s ≤ h v + 1)
    (hdown : ∀ s, P s → s ≠ t → ∃ v, P v ∧ w s v = some L ∧ h v + 1 = h s) (hs : P s) : Shortest w s t (h s * L) := by
  refine ⟨?_, fun m hm => ?_⟩
  · generalize hk : h s = k
    induction k generalizing s with
    | zero =>
      by_cases hst : s = t
      · subst hst
        rw [Nat.zero_mul]
        exact .nil s
      · obtain ⟨v, -, -, hv⟩ := hdown s hs hst
        omega
    | succ k ih =>
      have hst : s ≠ t := by
        rintro rfl
        omega
      obtain ⟨v, hv, hw, hone⟩ := hdown s hs hst
      rw [Nat.succ_mul, Nat.add_comm]
      exact .cons hw (ih hv (by omega))
  · clear hdown hs
    induction hm with
    | nil s => rw [ht, Nat.zero_mul]
    | @cons s v t a n hw _ ih =>
      obtain ⟨rfl, hle⟩ := hedge _ _ _ hw
      calc h s * a ≤ (h v + 1) * a := Nat.mul_le_mul_right a hle
        _ = a + h v * a := by rw [Nat.succ_mul, Nat.add_comm]
        _ ≤ a + n := Nat.add_le_add_left (ih ht) a

/-- **Arriving.** Whoever takes a first hop to the target wherever he is gets there, with edges of
positive lengths. -/
theorem exists_reach (hpos : ∀ s t a, w s t = some a → 0 < a) {r : ℕ → V} (h : Shortest w (r 0) t d)
    (hstep : ∀ m, (∀ j ≤ m, r j ≠ t) → FirstHop w (r m) t (r (m + 1))) : ∃ m, r m = t := by
  have hgo : ∀ d k, Shortest w (r k) t d → (∀ j < k, r j ≠ t) → ∃ m, r m = t := by
    intro d
    induction d using Nat.strongRecOn with
    | ind d ih =>
      intro k hk hbefore
      by_cases ht : r k = t
      · exact ⟨k, ht⟩
      · have hyet : ∀ j ≤ k, r j ≠ t := by
          intro j hj
          rcases Nat.lt_or_eq_of_le hj with hlt | rfl
          · exact hbefore j hlt
          · exact ht
        obtain ⟨a, n, hw, hs, rfl⟩ := (firstHop_iff hk).1 (hstep k hyet)
        have := hpos _ _ _ hw
        exact ih n (by omega) (k + 1) hs fun j hj => hyet j (by omega)
  exact hgo d 0 h fun j hj => absurd hj (Nat.not_lt_zero j)

/-! ## Searching from one vertex -/

/-- A route to `i` that the search from `s` has seen: an edge from `s`, or a shortest route to a settled
vertex and an edge from there. -/
def Cand (w : V → V → Option ℕ) (s : V) (S : V → Prop) (i v : V) (x : ℕ) : Prop :=
  (w s i = some x ∧ v = i) ∨
    ∃ k d a, S k ∧ k ≠ s ∧ Shortest w s k d ∧ FirstHop w s k v ∧ w k i = some a ∧ x = d + a

variable {S : V → Prop} {i k : V} {x : ℕ}

theorem Cand.route (h : Cand w s S i v x) : Route w s i x := by
  rcases h with ⟨hw, -⟩ | ⟨k, d, a, -, -, hs, -, hw, rfl⟩
  · exact (Route.nil s).snoc hw |> fun h => by simpa using h
  · exact hs.route.snoc hw

theorem Cand.edge (h : Cand w s S i v x) : ∃ k a, w k i = some a := by
  rcases h with ⟨hw, -⟩ | ⟨k, d, a, -, -, -, -, hw, -⟩
  · exact ⟨s, x, hw⟩
  · exact ⟨k, a, hw⟩

/-- If it is shortest, its first hop is one. -/
theorem Cand.firstHop (h : Cand w s S i v x) (hs : Shortest w s i x) : FirstHop w s i v := by
  rcases h with ⟨hw, rfl⟩ | ⟨k, d, a, -, -, hk, hv, hw, rfl⟩
  · exact ⟨x, 0, hw, .nil v, hs⟩
  · obtain ⟨b, n, hb, hr, rfl⟩ := (firstHop_iff hk).1 hv
    refine ⟨b, n + a, hb, hr.route.snoc hw, ?_⟩
    rwa [← Nat.add_assoc]

theorem cand_insert : Cand w s (fun j => S j ∨ j = k) i v x ↔ Cand w s S i v x ∨
    (k ≠ s ∧ ∃ d a, Shortest w s k d ∧ FirstHop w s k v ∧ w k i = some a ∧ x = d + a) := by
  constructor
  · rintro (h | ⟨j, d, a, hj | rfl, hne, h⟩)
    · exact .inl (.inl h)
    · exact .inl (.inr ⟨j, d, a, hj, hne, h⟩)
    · exact .inr ⟨hne, d, a, h⟩
  · rintro ((h | ⟨j, d, a, hj, hne, h⟩) | ⟨hne, d, a, h⟩)
    · exact .inl h
    · exact .inr ⟨j, d, a, .inl hj, hne, h⟩
    · exact .inr ⟨k, d, a, .inr rfl, hne, h⟩

/-- **The frontier.** No route to a vertex that is not settled is shorter than all that the search has
seen of such vertices. -/
theorem le_route_of_cand (hS : S s) (hle : ∀ y v x, ¬S y → Cand w s S y v x → d ≤ x) (hi : ¬S i)
    (hr : Route w s i n) : d ≤ n := by
  obtain ⟨x, y, n₁, a, n₂, hx, hy, h₁, ha, -, rfl⟩ := hr.exit hS hi
  by_cases hxs : x = s
  · have := hle y y a hy (.inl ⟨hxs ▸ ha, rfl⟩)
    omega
  · obtain ⟨b, hb, hs⟩ := exists_shortest h₁
    obtain ⟨v, hv⟩ := exists_firstHop hs (Ne.symm hxs)
    have := hle y v (b + a) hy (.inr ⟨x, b, a, hx, hxs, hs, hv, ha, rfl⟩)
    omega

/-- **All first hops.** The search has seen a shortest route with every first hop, once all that is
nearer is settled. -/
theorem firstHop_cand (hpos : ∀ s t a, w s t = some a → 0 < a) (hk : Shortest w s k d)
    (hS : ∀ j e, Shortest w s j e → e < d → S j) (hv : FirstHop w s k v) : Cand w s S k v d := by
  obtain ⟨a, n, hw, hr, rfl⟩ := (firstHop_iff hk).1 hv
  rcases hr.route.last with ⟨rfl, rfl⟩ | ⟨u, m, b, hu, hb, rfl⟩
  · exact .inl ⟨hw, rfl⟩
  · have ha := hpos _ _ _ hw
    have hbpos := hpos _ _ _ hb
    have hsu : Shortest w s u (a + m) := by
      refine Shortest.init (a := b) ?_ (.cons hw hu) hb
      rwa [Nat.add_assoc]
    have hne : u ≠ s := by
      rintro rfl
      have := hsu.le 0 (.nil u)
      omega
    refine .inr ⟨u, a + m, b, hS u _ hsu (by omega), hne, hsu, ⟨a, m, hw, hu, hsu⟩, hb, by omega⟩

/-! ## Shortcuts -/

/-- Every edge of `w'` is one of `w`, or stands for a shortest route. -/
def Shortcuts (w w' : V → V → Option ℕ) : Prop :=
  ∀ x y, w' x y = w x y ∨ ∃ d, w' x y = some d ∧ Shortest w x y d

variable {w' : V → V → Option ℕ}

theorem Shortcuts.route (h : Shortcuts w w') (hr : Route w' s t n) : Route w s t n := by
  induction hr with
  | nil s => exact .nil s
  | @cons s v t a n hw _ ih =>
    rcases h s v with heq | ⟨d, heq, hs⟩
    · exact .cons (heq ▸ hw) ih
    · obtain rfl : a = d := Option.some.inj (hw.symm.trans heq)
      exact hs.route.append ih

theorem Shortcuts.exists_route (h : Shortcuts w w') (hr : Route w s t n) : ∃ m ≤ n, Route w' s t m := by
  induction hr with
  | nil s => exact ⟨0, Nat.le_refl 0, .nil s⟩
  | @cons s v t a n hw _ ih =>
    obtain ⟨m, hm, hr'⟩ := ih
    rcases h s v with heq | ⟨d, heq, hs⟩
    · exact ⟨a + m, by omega, .cons (heq.trans hw) hr'⟩
    · have := hs.le _ (.cons hw (.nil v))
      exact ⟨d + m, by omega, .cons heq hr'⟩

/-- **Distances.** Shortcuts do not change them. -/
theorem Shortcuts.shortest_iff (h : Shortcuts w w') : Shortest w' s t d ↔ Shortest w s t d := by
  constructor
  · rintro ⟨hr, hle⟩
    refine ⟨h.route hr, fun m hm => ?_⟩
    obtain ⟨m', hm', hr'⟩ := h.exists_route hm
    exact Nat.le_trans (hle m' hr') hm'
  · rintro ⟨hr, hle⟩
    obtain ⟨m, hm, hr'⟩ := h.exists_route hr
    have heq : m = d := Nat.le_antisymm hm (hle m (h.route hr'))
    exact ⟨heq ▸ hr', fun n hn => hle n (h.route hn)⟩

/-- Nor the first hops of a vertex whose own edges are kept. -/
theorem Shortcuts.firstHop_iff (h : Shortcuts w w') (hs : ∀ y, w' s y = w s y) (hd : Shortest w s t d) :
    FirstHop w' s t v ↔ FirstHop w s t v := by
  rw [Lib.firstHop_iff hd, Lib.firstHop_iff (h.shortest_iff.2 hd), hs]
  simp only [h.shortest_iff]

end Esesc.Lib
