import Mathlib.Tactic.Common
import Mathlib.Data.Finset.Card
import Esesc.Net.Latency
import Esesc.Net.Routes

/-!
# Distances in the networks

How many links are between two routers, for each type of network, and that this is what the tables hold. A neighbour
is never more than one link closer, and some neighbour is closer.

* `linked_foldl`: the links that a loop of `create` makes.
* `UniRingRoutingPolicy.linked`, `BiRingRoutingPolicy.linked`, `MeshMultiPathRoutingPolicy.linked`,
  `HypercubeRoutingPolicy.linked`, `FullyConnectedRoutingPolicy.linked`: the links of each policy.
* `NetType.hops`, `NetType.hops_spec`: the number of links.
* `NetConfig.lookups_hops`: the tables after `make`.
-/

namespace Esesc.Net

open Esesc.Lib RoutingPolicy

/-! ## Links -/

section Links

variable {a i s t port lat m : ℕ} {adj : Adjacent}

theorem not_linked_noLinks : ¬Linked noLinks s t := fun h => h rfl

theorem linked_link (hport : port ≠ DISABLED_PORT) :
    Linked (adj.link a i port lat) s t ↔ (s = a ∧ t = i) ∨ Linked adj s t := by
  by_cases hst : s = a ∧ t = i
  · obtain ⟨rfl, rfl⟩ := hst
    simp only [Linked, Adjacent.link, Adjacent.set_self, and_self, true_or, iff_true]
    exact hport
  · rw [Linked, Adjacent.link, Adjacent.set_of_not _ hst]
    exact ⟨.inr, fun h => h.resolve_left hst⟩

/-- A loop that makes links, for every `i` those that meet `P`. -/
theorem linked_foldl {f : Adjacent → ℕ → Adjacent} {P : ℕ → Prop}
    (hf : ∀ adj i, Linked (f adj i) s t ↔ P i ∨ Linked adj s t) :
    Linked ((List.range m).foldl f adj) s t ↔ (∃ i < m, P i) ∨ Linked adj s t := by
  induction m with
  | zero => simp
  | succ m ih =>
    rw [List.range_succ, List.foldl_append, List.foldl_cons, List.foldl_nil, hf, ih, ← or_assoc]
    refine or_congr_left ⟨?_, ?_⟩
    · rintro (hm | ⟨i, hi, hP⟩)
      · exact ⟨m, Nat.lt_succ_self m, hm⟩
      · exact ⟨i, Nat.lt_succ_of_lt hi, hP⟩
    · rintro ⟨i, hi, hP⟩
      rcases Nat.lt_succ_iff_lt_or_eq.1 hi with hi | rfl
      · exact .inr ⟨i, hi, hP⟩
      · exact .inl hP

end Links

/-! ## Rings -/

/-- The routers before and after another one on a ring. -/
def ringPrev (n i : ℕ) : ℕ := if i = 0 then n - 1 else i - 1

def ringNext (n i : ℕ) : ℕ := if i = n - 1 then 0 else i + 1

/-- How far it is up the ring. -/
def up (n s t : ℕ) : ℕ := if s ≤ t then t - s else n - (s - t)

/-- How far it is the shorter way round. -/
def around (n s t : ℕ) : ℕ := min (up n s t) (up n t s)

/-- Neighbours on a ring. -/
def Beside (n s v : ℕ) : Prop := s = ringPrev n v ∨ s = ringNext n v

section Ring

variable {n s t v : ℕ}

theorem UniRingRoutingPolicy.linked (p : RoutingPolicy) :
    Linked (create p) s t ↔ t < p.nRouters ∧ s = ringPrev p.nRouters t := by
  have hf : ∀ adj i, Linked (adj.link (if i = 0 then p.nRouters - 1 else i - 1) i UP_PORT p.wireLat) s t ↔
      (s = ringPrev p.nRouters i ∧ t = i) ∨ Linked adj s t := fun adj i => linked_link (by decide)
  rw [create, linked_foldl hf]
  constructor
  · rintro (⟨i, hi, hs, rfl⟩ | h)
    · exact ⟨hi, hs⟩
    · exact absurd h not_linked_noLinks
  · exact fun h => .inl ⟨t, h.1, h.2, rfl⟩

theorem BiRingRoutingPolicy.linked (p : RoutingPolicy) :
    Linked (create p) s t ↔ t < p.nRouters ∧ Beside p.nRouters s t := by
  have hf : ∀ adj i, Linked (adj.link (if i = p.nRouters - 1 then 0 else i + 1) i DOWN_PORT p.wireLat) s t ↔
      (s = ringNext p.nRouters i ∧ t = i) ∨ Linked adj s t := fun adj i => linked_link (by decide)
  rw [create, linked_foldl hf, UniRingRoutingPolicy.linked]
  constructor
  · rintro (⟨i, hi, hs, rfl⟩ | ⟨hi, hs⟩)
    · exact ⟨hi, .inr hs⟩
    · exact ⟨hi, .inl hs⟩
  · rintro ⟨hi, hs | hs⟩
    · exact .inr ⟨hi, hs⟩
    · exact .inl ⟨t, hi, hs, rfl⟩

@[simp] theorem up_self (n t : ℕ) : up n t t = 0 := by simp [up]

@[simp] theorem around_self (n t : ℕ) : around n t t = 0 := by simp [around]

theorem up_add (hs : s < n) (ht : t < n) (hne : s ≠ t) : up n s t + up n t s = n := by
  unfold up
  split <;> split <;> omega

theorem ringNext_lt (hs : s < n) : ringNext n s < n := by
  unfold ringNext
  split <;> omega

theorem ringPrev_lt (hs : s < n) : ringPrev n s < n := by
  unfold ringPrev
  split <;> omega

theorem ringPrev_next (n s : ℕ) : ringPrev n (ringNext n s) = s := by
  unfold ringPrev ringNext
  split <;> split <;> omega

theorem ringNext_prev (hs : s < n) : ringNext n (ringPrev n s) = s := by
  unfold ringPrev ringNext
  split <;> split <;> omega

theorem up_next (hs : s < n) (ht : t < n) (hne : s ≠ t) : up n (ringNext n s) t + 1 = up n s t := by
  unfold up ringNext
  split <;> split <;> split <;> omega

/-- One router up the ring. -/
theorem exists_up (hs : s < n) (ht : t < n) (hne : s ≠ t) :
    ∃ v < n, s = ringPrev n v ∧ up n v t + 1 = up n s t :=
  ⟨ringNext n s, ringNext_lt hs, (ringPrev_next n s).symm, up_next hs ht hne⟩

theorem up_le (hs : s < n) (hv : v < n) (ht : t < n) (h : s = ringPrev n v) : up n s t ≤ up n v t + 1 := by
  by_cases hst : s = t
  · subst hst
    simp
  · have hnext := up_next hs ht hst
    rw [h, ringNext_prev hv] at hnext
    rw [h]
    exact hnext.ge

/-- One router the shorter way round. -/
theorem exists_around (hs : s < n) (ht : t < n) (hne : s ≠ t) :
    ∃ v < n, Beside n s v ∧ around n v t + 1 = around n s t := by
  have hsum := up_add hs ht hne
  -- the two ways round make up the ring, so one of them is the shorter one
  by_cases hup : up n s t ≤ up n t s
  · have hone := up_next hs ht hne
    refine ⟨ringNext n s, ringNext_lt hs, .inl (ringPrev_next n s).symm, ?_⟩
    by_cases hvt : ringNext n s = t
    · rw [hvt] at hone ⊢
      simp only [around, up_self] at hone ⊢
      omega
    · have hsum' := up_add (ringNext_lt hs) ht hvt
      unfold around
      omega
  · have hv := ringPrev_lt hs
    refine ⟨ringPrev n s, hv, .inr (ringNext_prev hs).symm, ?_⟩
    by_cases hvt : ringPrev n s = t
    · have hone : up n t s = 1 := by
        have hnext := up_next hv hs fun h => hne (h ▸ hvt)
        rw [ringNext_prev hs, up_self, hvt] at hnext
        exact hnext.symm
      rw [hvt, around_self, around]
      omega
    · have hsum' := up_add hv ht hvt
      have hone := up_next hv ht hvt
      rw [ringNext_prev hs] at hone
      unfold around
      omega

/-- Neighbours are as far, but for one link. -/
theorem around_next (hs : s < n) (ht : t < n) :
    around n (ringNext n s) t ≤ around n s t + 1 ∧ around n s t ≤ around n (ringNext n s) t + 1 := by
  have hv := ringNext_lt hs
  by_cases hsv : s = ringNext n s
  · rw [← hsv]
    omega
  · by_cases hst : s = t
    · have hone := up_next hs hv hsv
      rw [up_self] at hone
      rw [← hst, around_self, around]
      omega
    · have hone := up_next hs ht hst
      by_cases hvt : ringNext n s = t
      · rw [hvt, up_self] at hone
        rw [hvt, around_self, around]
        omega
      · have hsum := up_add hs ht hst
        have hsum' := up_add hv ht hvt
        unfold around
        omega

theorem around_le (hv : v < n) (ht : t < n) (h : Beside n s v) : around n s t ≤ around n v t + 1 := by
  rcases h with rfl | rfl
  · have hnext := (around_next (ringPrev_lt hv) ht).2
    rwa [ringNext_prev hv] at hnext
  · exact (around_next hv ht).1

end Ring

/-! ## Meshes -/

namespace MeshMultiPathRoutingPolicy

/-- Neighbours in a mesh, whose rows and columns are rings. -/
def Beside (width s v : ℕ) : Prop :=
  (s % width = v % width ∧ Net.Beside width (s / width) (v / width)) ∨
    (s / width = v / width ∧ Net.Beside width (s % width) (v % width))

/-- How far it is along rows and columns. -/
def hops (width s t : ℕ) : ℕ := around width (s / width) (t / width) + around width (s % width) (t % width)

variable {width lat i s t v r c : ℕ} {adj : Adjacent}

instance (n s v : ℕ) : Decidable (Net.Beside n s v) := inferInstanceAs (Decidable (_ ∨ _))

instance (width s v : ℕ) : Decidable (Beside width s v) := inferInstanceAs (Decidable (_ ∨ _))

/-- The row and the column of a router. -/
theorem eq_at_iff (hc : c < width) : s = width * r + c ↔ s / width = r ∧ s % width = c := by
  rw [Nat.div_mod_unique (by omega), Nat.add_comm]
  exact ⟨fun h => ⟨h.symm, hc⟩, fun h => h.1.symm⟩

theorem at_div (hc : c < width) : (width * r + c) / width = r := ((eq_at_iff hc).1 rfl).1

theorem at_mod (hc : c < width) : (width * r + c) % width = c := ((eq_at_iff hc).1 rfl).2

theorem at_lt (hr : r < width) (hc : c < width) : width * r + c < width * width :=
  calc width * r + c < width * r + width := Nat.add_lt_add_left hc _
    _ = width * (r + 1) := (Nat.mul_succ width r).symm
    _ ≤ width * width := Nat.mul_le_mul_left width hr

/-- The links to a router come from the routers above, below, and on both sides of it. -/
theorem createFor_eq (hwidth : 2 ≤ width) (i : ℕ) : createFor width lat adj i =
    (((adj.link (width * ringPrev width (i / width) + i % width) i UP_PORT lat).link
      (width * ringNext width (i / width) + i % width) i DOWN_PORT lat).link
      (width * (i / width) + ringPrev width (i % width)) i LEFT_PORT lat).link
      (width * (i / width) + ringNext width (i % width)) i RIGHT_PORT lat := by
  have hdiv : width * (i / width) + i % width = i := Nat.div_add_mod i width
  have hcol : i % width < width := Nat.mod_lt i (by omega)
  have hvertical : (if i / width = 0 then (adj.link ((width - 1) * width + i) i UP_PORT lat).link (i + width) i DOWN_PORT lat
      else if i / width = width - 1 then (adj.link (i - width) i UP_PORT lat).link (i % width) i DOWN_PORT lat
      else (adj.link (i - width) i UP_PORT lat).link (i + width) i DOWN_PORT lat) =
      (adj.link (width * ringPrev width (i / width) + i % width) i UP_PORT lat).link
        (width * ringNext width (i / width) + i % width) i DOWN_PORT lat := by
    unfold ringPrev ringNext
    by_cases hfirst : i / width = 0
    · have hlast : i / width ≠ width - 1 := by
        rw [hfirst]
        omega
      -- the first row: the router above is in the last one
      rw [hfirst, Nat.mul_zero, Nat.zero_add] at hdiv
      rw [if_pos hfirst, if_pos hfirst, if_neg hlast, hfirst, hdiv, Nat.mul_comm width (width - 1), Nat.zero_add,
        Nat.mul_one, Nat.add_comm width i]
    · have habove : width * (i / width - 1) + i % width = i - width := by
        have hle : width * 1 ≤ width * (i / width) := Nat.mul_le_mul_left width (Nat.pos_of_ne_zero hfirst)
        rw [Nat.mul_sub]
        omega
      have hbelow : width * (i / width + 1) + i % width = i + width := by
        rw [Nat.mul_succ]
        omega
      rw [if_neg hfirst, if_neg hfirst, habove]
      split
      · rw [Nat.mul_zero, Nat.zero_add]
      · rw [hbelow]
  simp only [createFor]
  rw [hvertical]
  -- what is above and below does not matter for the two sides
  generalize (adj.link (width * ringPrev width (i / width) + i % width) i UP_PORT lat).link
    (width * ringNext width (i / width) + i % width) i DOWN_PORT lat = adj'
  unfold ringPrev ringNext
  by_cases hleft : i % width = 0
  · have hfar : width * (i / width) + (width - 1) = i + width - 1 := by omega
    have hnear : width * (i / width) + (i % width + 1) = i + 1 := by omega
    rw [if_pos hleft, if_pos hleft, if_neg (by omega), hfar, hnear]
  · have hnear : width * (i / width) + (i % width - 1) = i - 1 := by omega
    rw [if_neg hleft, if_neg hleft, hnear]
    by_cases hright : i % width = width - 1
    · have hfar : width * (i / width) + 0 = i + 1 - width := by omega
      rw [if_pos hright, if_pos hright, hfar]
    · have hnext : width * (i / width) + (i % width + 1) = i + 1 := by omega
      rw [if_neg hright, if_neg hright, hnext]

theorem linked_createFor (hwidth : 2 ≤ width) :
    Linked (createFor width lat adj i) s t ↔ (t = i ∧ Beside width s i) ∨ Linked adj s t := by
  have hcol : i % width < width := Nat.mod_lt i (by omega)
  rw [createFor_eq hwidth, linked_link (by decide), linked_link (by decide), linked_link (by decide),
    linked_link (by decide), eq_at_iff hcol, eq_at_iff hcol, eq_at_iff (ringPrev_lt hcol), eq_at_iff (ringNext_lt hcol)]
  unfold Beside Net.Beside
  tauto

theorem beside_lt (hwidth : 2 ≤ width) (ht : t < width * width) (h : Beside width s t) : s < width * width := by
  have hcol : t % width < width := Nat.mod_lt t (by omega)
  have hrow : t / width < width := Nat.div_lt_of_lt_mul ht
  have hlt : s / width < width := by
    rcases h with ⟨-, h | h⟩ | ⟨h, -⟩
    · rw [h]
      exact ringPrev_lt hrow
    · rw [h]
      exact ringNext_lt hrow
    · rwa [h]
  rw [← Nat.div_add_mod s width]
  exact at_lt hlt (Nat.mod_lt s (by omega))

theorem linked (p : RoutingPolicy) (hwidth : 2 ≤ width) (hn : p.nRouters = width * width) :
    Linked (create width p) s t ↔ t < width * width ∧ Beside width s t := by
  by_cases htwo : width = 2
  · subst htwo
    -- four routers have a table of their own
    have hall : ∀ s < 4, ∀ t < 4, Linked (create 2 p) s t ↔ Beside 2 s t := by
      rw [create, if_pos rfl]
      decide
    constructor
    · intro hl
      rcases made p (P := fun _ => True) hwidth hn ⟨trivial, trivial, trivial, trivial⟩ s t with h | ⟨hs, ht, -⟩
      · exact absurd (by rw [h]; rfl) hl
      · rw [hn] at hs ht
        exact ⟨ht, (hall s hs t ht).1 hl⟩
    · rintro ⟨ht, h⟩
      exact (hall s (beside_lt hwidth ht h) t ht).2 h
  · rw [create, if_neg htwo, hn]
    -- after `m` rounds the first `m` routers have their links
    have hloop : ∀ m ≤ width * width, Linked ((List.range m).foldl (createFor width p.wireLat) noLinks) s t ↔
        t < m ∧ Beside width s t := by
      intro m
      induction m with
      | zero => exact fun _ => ⟨fun h => absurd h not_linked_noLinks, fun h => absurd h.1 (Nat.not_lt_zero t)⟩
      | succ m ih =>
        intro hm
        rw [List.range_succ, List.foldl_append, List.foldl_cons, List.foldl_nil, linked_createFor hwidth, ih (by omega)]
        constructor
        · rintro (⟨rfl, h⟩ | ⟨ht, h⟩)
          · exact ⟨Nat.lt_succ_self t, h⟩
          · exact ⟨Nat.lt_succ_of_lt ht, h⟩
        · rintro ⟨ht, h⟩
          rcases Nat.lt_succ_iff_lt_or_eq.1 ht with ht | rfl
          · exact .inr ⟨ht, h⟩
          · exact .inl ⟨rfl, h⟩
    exact hloop _ (Nat.le_refl _)

theorem exists_hop (hs : s < width * width) (ht : t < width * width) (hne : s ≠ t) :
    ∃ v < width * width, Beside width s v ∧ hops width v t + 1 = hops width s t := by
  have hpos : 0 < width := Nat.pos_of_mul_pos_left (Nat.zero_lt_of_lt hs)
  have hcol : ∀ x, x % width < width := fun x => Nat.mod_lt x hpos
  have hrow := Nat.div_lt_of_lt_mul hs
  by_cases hrows : s / width = t / width
  · have hcols : s % width ≠ t % width := by
      intro hcols
      rw [← Nat.div_add_mod s width, ← Nat.div_add_mod t width, hrows, hcols] at hne
      exact hne rfl
    obtain ⟨c, hc, hbeside, hone⟩ := exists_around (hcol s) (hcol t) hcols
    refine ⟨width * (s / width) + c, at_lt hrow hc, .inr ?_, ?_⟩
    · rw [at_div hc, at_mod hc]
      exact ⟨rfl, hbeside⟩
    · rw [hops, hops, at_div hc, at_mod hc]
      omega
  · obtain ⟨r, hr, hbeside, hone⟩ := exists_around hrow (Nat.div_lt_of_lt_mul ht) hrows
    refine ⟨width * r + s % width, at_lt hr (hcol s), .inl ?_, ?_⟩
    · rw [at_div (hcol s), at_mod (hcol s)]
      exact ⟨rfl, hbeside⟩
    · rw [hops, hops, at_div (hcol s), at_mod (hcol s)]
      omega

theorem hops_le (hv : v < width * width) (ht : t < width * width) (h : Beside width s v) :
    hops width s t ≤ hops width v t + 1 := by
  have hpos : 0 < width := Nat.pos_of_mul_pos_left (Nat.zero_lt_of_lt hv)
  rcases h with ⟨hsame, h⟩ | ⟨hsame, h⟩
  · have hone := around_le (Nat.div_lt_of_lt_mul hv) (Nat.div_lt_of_lt_mul ht) h
    rw [hops, hops, hsame]
    omega
  · have hone := around_le (Nat.mod_lt v hpos) (Nat.mod_lt t hpos) h
    rw [hops, hops, hsame]
    omega

end MeshMultiPathRoutingPolicy

/-! ## Hypercubes -/

namespace HypercubeRoutingPolicy

/-- The neighbour along the dimension `j`. -/
def neighbor (i j : ℕ) : ℕ := if i &&& 1 <<< j ≠ 0 then i - 1 <<< j else i + 1 <<< j

/-- In how many of the dimensions two routers differ. -/
def hops (dims s t : ℕ) : ℕ := ((Finset.range dims).filter fun j => s.testBit j ≠ t.testBit j).card

variable {dims i j s t v : ℕ}

theorem and_shiftLeft_ne_zero (i j : ℕ) : i &&& 1 <<< j ≠ 0 ↔ i / 2 ^ j % 2 = 1 := by
  have hbit : (i &&& 1 <<< j).testBit j = decide (i / 2 ^ j % 2 = 1) := by
    rw [Nat.one_shiftLeft, Nat.testBit_and, Nat.testBit_two_pow_self, Bool.and_true, Nat.testBit_eq_decide_div_mod_eq]
  constructor
  · intro hne
    by_contra hodd
    refine hne (Nat.eq_of_testBit_eq fun k => ?_)
    rw [Nat.zero_testBit, Nat.one_shiftLeft, Nat.testBit_and, Nat.testBit_two_pow]
    by_cases hk : j = k
    · subst hk
      rw [Nat.testBit_eq_decide_div_mod_eq, decide_eq_false hodd, Bool.false_and]
    · rw [decide_eq_false hk, Bool.and_false]
  · intro hodd hzero
    rw [hzero, Nat.zero_testBit] at hbit
    exact absurd hbit.symm (by simpa using hodd)

theorem neighbor_eq (i j : ℕ) : neighbor i j =
    2 ^ j * (if i / 2 ^ j % 2 = 1 then i / 2 ^ j - 1 else i / 2 ^ j + 1) + i % 2 ^ j := by
  have hdiv := Nat.div_add_mod i (2 ^ j)
  rw [neighbor]
  by_cases hodd : i / 2 ^ j % 2 = 1
  · have hpos : 0 < i / 2 ^ j := Nat.pos_of_ne_zero fun h => by simp [h] at hodd
    have hle : 2 ^ j * 1 ≤ 2 ^ j * (i / 2 ^ j) := Nat.mul_le_mul_left _ hpos
    rw [if_pos ((and_shiftLeft_ne_zero i j).2 hodd), if_pos hodd, Nat.one_shiftLeft, Nat.mul_sub]
    omega
  · rw [if_neg fun h => hodd ((and_shiftLeft_ne_zero i j).1 h), if_neg hodd, Nat.one_shiftLeft,
      Nat.mul_succ]
    omega

/-- The bits of a number whose last bit is turned over. -/
theorem testBit_turned (x k : ℕ) :
    (if x % 2 = 1 then x - 1 else x + 1).testBit k = if k = 0 then !decide (x % 2 = 1) else x.testBit k := by
  cases k with
  | zero =>
    rw [Nat.testBit_zero, if_pos rfl]
    by_cases hodd : x % 2 = 1
    · rw [if_pos hodd, decide_eq_true hodd, decide_eq_false (by omega)]
      rfl
    · rw [if_neg hodd, decide_eq_false hodd, decide_eq_true (by omega)]
      rfl
  | succ k =>
    have hhalf : (if x % 2 = 1 then x - 1 else x + 1) / 2 = x / 2 := by split <;> omega
    rw [Nat.testBit_add_one, hhalf, if_neg (Nat.succ_ne_zero k), Nat.testBit_add_one]

/-- It differs in this dimension only. -/
theorem testBit_neighbor (i j k : ℕ) : (neighbor i j).testBit k = if k = j then !i.testBit j else i.testBit k := by
  have hmod : i % 2 ^ j < 2 ^ j := Nat.mod_lt i (Nat.two_pow_pos j)
  have hi : i.testBit k = (2 ^ j * (i / 2 ^ j) + i % 2 ^ j).testBit k := by rw [Nat.div_add_mod]
  rw [neighbor_eq, hi, Nat.testBit_two_pow_mul_add _ hmod, Nat.testBit_two_pow_mul_add _ hmod,
    testBit_turned]
  rcases Nat.lt_trichotomy k j with hk | rfl | hk
  · rw [if_pos hk, if_pos hk, if_neg (Nat.ne_of_lt hk)]
  · rw [if_neg (Nat.lt_irrefl k), if_pos rfl, Nat.sub_self, if_pos rfl, Nat.testBit_eq_decide_div_mod_eq]
  · rw [if_neg (Nat.lt_asymm hk), if_neg (Nat.lt_asymm hk), if_neg (Nat.ne_of_gt hk), if_neg (Nat.sub_ne_zero_of_lt hk)]

theorem neighbor_lt (hi : i < 2 ^ dims) (hj : j < dims) : neighbor i j < 2 ^ dims := by
  refine Nat.lt_pow_two_of_testBit _ fun k hk => ?_
  rw [testBit_neighbor, if_neg (by omega)]
  exact Nat.testBit_lt_two_pow (Nat.lt_of_lt_of_le hi (Nat.pow_le_pow_right (by decide) hk))

theorem linked (p : RoutingPolicy) :
    Linked (create p) s t ↔ s < p.nRouters ∧ ∃ j < p.nPorts, t = neighbor s j := by
  have hinner : ∀ i adj, Linked ((List.range p.nPorts).foldl (fun adj j => adj.link i (neighbor i j) (j + 1) p.wireLat)
      adj) s t ↔ (∃ j < p.nPorts, s = i ∧ t = neighbor i j) ∨ Linked adj s t :=
    fun i adj => linked_foldl fun adj j => linked_link (Nat.succ_ne_zero j)
  have houter : Linked (create p) s t ↔
      (∃ i < p.nRouters, ∃ j < p.nPorts, s = i ∧ t = neighbor i j) ∨ Linked noLinks s t :=
    linked_foldl fun adj i => hinner i adj
  rw [houter]
  constructor
  · rintro (⟨i, hi, j, hj, rfl, ht⟩ | h)
    · exact ⟨hi, j, hj, ht⟩
    · exact absurd h not_linked_noLinks
  · rintro ⟨hs, j, hj, ht⟩
    exact .inl ⟨s, hs, j, hj, rfl, ht⟩

@[simp] theorem hops_self (dims t : ℕ) : hops dims t t = 0 := by simp [hops]

theorem exists_hop (hs : s < 2 ^ dims) (ht : t < 2 ^ dims) (hne : s ≠ t) :
    ∃ j < dims, hops dims (neighbor s j) t + 1 = hops dims s t := by
  obtain ⟨j, hbit⟩ := Nat.exists_testBit_ne_of_ne hne
  have hj : j < dims := by
    by_contra hj
    have hzero : ∀ x < 2 ^ dims, x.testBit j = false := fun x hx =>
      Nat.testBit_lt_two_pow (Nat.lt_of_lt_of_le hx (Nat.pow_le_pow_right (by decide) (by omega)))
    exact hbit ((hzero s hs).trans (hzero t ht).symm)
  refine ⟨j, hj, ?_⟩
  -- the neighbour no longer differs in the dimension `j`
  have herase : (Finset.range dims).filter (fun k => (neighbor s j).testBit k ≠ t.testBit k) =
      ((Finset.range dims).filter fun k => s.testBit k ≠ t.testBit k).erase j := by
    ext k
    rw [Finset.mem_erase, Finset.mem_filter, Finset.mem_filter, testBit_neighbor]
    by_cases hk : k = j
    · subst hk
      simp [Bool.not_eq_eq_eq_not, Bool.eq_not_of_ne hbit]
    · simp [hk]
  rw [hops, hops, herase]
  exact Finset.card_erase_add_one (Finset.mem_filter.2 ⟨Finset.mem_range.2 hj, hbit⟩)

theorem hops_le (s t j : ℕ) : hops dims s t ≤ hops dims (neighbor s j) t + 1 := by
  refine Nat.le_trans (Finset.card_le_card fun k hk => ?_) (Finset.card_insert_le j _)
  rw [Finset.mem_filter] at hk
  rw [Finset.mem_insert, Finset.mem_filter, testBit_neighbor]
  by_cases hkj : k = j
  · exact .inl hkj
  · rw [if_neg hkj]
    exact .inr hk

end HypercubeRoutingPolicy

theorem FullyConnectedRoutingPolicy.linked {s t : ℕ} (p : RoutingPolicy) :
    Linked (create p) s t ↔ s < p.nRouters ∧ t ≠ s ∧ t < p.nRouters := by
  rw [Linked, create_spec]
  split
  · rename_i h
    refine ⟨fun _ => h, fun _ => ?_⟩
    show port s t ≠ 0
    rw [port]
    split <;> omega
  · rename_i h
    exact ⟨fun hl => absurd rfl hl, fun hl => absurd hl h⟩

/-! ## All types -/

/-- `hops` says how many links it is: no link lowers it by more than one, and from everywhere else some link does. -/
structure Descends (n : ℕ) (links : Adjacent) (hops : ℕ → ℕ → ℕ) : Prop where
  self : ∀ t, hops t t = 0
  down : ∀ s < n, ∀ t < n, s ≠ t → ∃ v < n, Linked links s v ∧ hops v t + 1 = hops s t
  le : ∀ s v t, s < n → v < n → t < n → Linked links s v → hops s t ≤ hops v t + 1

namespace NetType

/-- The number of links between two routers. -/
def hops (nRouters : ℕ) : NetType → ℕ → ℕ → ℕ
  | mesh width => MeshMultiPathRoutingPolicy.hops width
  | hypercube => HypercubeRoutingPolicy.hops (Nat.log2 nRouters)
  | uniring => up nRouters
  | biring => around nRouters
  | full => fun s t => if s = t then 0 else 1

theorem descends (type : NetType) (p : RoutingPolicy) (hports : p.nPorts = type.nPorts p.nRouters)
    (hfits : type.Fits p.nRouters) : Descends p.nRouters (type.create p) (type.hops p.nRouters) := by
  cases type with
  | mesh width =>
    obtain ⟨hwidth, hn⟩ := hfits
    refine ⟨fun t => by simp [hops, MeshMultiPathRoutingPolicy.hops], fun s hs t ht hne => ?_,
      fun s v t hs hv ht hl => ?_⟩
    · rw [hn] at hs ht
      obtain ⟨v, hv, hbeside, hone⟩ := MeshMultiPathRoutingPolicy.exists_hop hs ht hne
      exact ⟨v, hn ▸ hv, (MeshMultiPathRoutingPolicy.linked p hwidth hn).2 ⟨hv, hbeside⟩, hone⟩
    · rw [hn] at ht
      obtain ⟨hv, hbeside⟩ := (MeshMultiPathRoutingPolicy.linked p hwidth hn).1 hl
      exact MeshMultiPathRoutingPolicy.hops_le hv ht hbeside
  | hypercube =>
    have hn : p.nRouters = 2 ^ Nat.log2 p.nRouters := hfits
    have hdims : p.nPorts = Nat.log2 p.nRouters := hports
    refine ⟨fun t => HypercubeRoutingPolicy.hops_self _ t, fun s hs t ht hne => ?_, fun s v t hs hv ht hl => ?_⟩
    · rw [hn] at hs ht
      obtain ⟨j, hj, hone⟩ := HypercubeRoutingPolicy.exists_hop hs ht hne
      have hv := HypercubeRoutingPolicy.neighbor_lt hs hj
      exact ⟨_, hn ▸ hv, (HypercubeRoutingPolicy.linked p).2 ⟨hn ▸ hs, j, hdims ▸ hj, rfl⟩, hone⟩
    · obtain ⟨-, j, -, rfl⟩ := (HypercubeRoutingPolicy.linked p).1 hl
      exact HypercubeRoutingPolicy.hops_le s t j
  | uniring =>
    refine ⟨up_self _, fun s hs t ht hne => ?_, fun s v t hs hv ht hl => ?_⟩
    · obtain ⟨v, hv, hprev, hone⟩ := exists_up hs ht hne
      exact ⟨v, hv, (UniRingRoutingPolicy.linked p).2 ⟨hv, hprev⟩, hone⟩
    · exact up_le hs hv ht ((UniRingRoutingPolicy.linked p).1 hl).2
  | biring =>
    refine ⟨around_self _, fun s hs t ht hne => ?_, fun s v t hs hv ht hl => ?_⟩
    · obtain ⟨v, hv, hbeside, hone⟩ := exists_around hs ht hne
      exact ⟨v, hv, (BiRingRoutingPolicy.linked p).2 ⟨hv, hbeside⟩, hone⟩
    · exact around_le hv ht ((BiRingRoutingPolicy.linked p).1 hl).2
  | full =>
    refine ⟨fun t => if_pos rfl, fun s hs t ht hne => ?_, fun s v t hs hv ht hl => ?_⟩
    · refine ⟨t, ht, (FullyConnectedRoutingPolicy.linked p).2 ⟨hs, hne.symm, ht⟩, ?_⟩
      simp [hops, hne]
    · simp only [hops]
      split <;> omega

end NetType

namespace NetConfig

variable (cfg : NetConfig)

def hops : ℕ → ℕ → ℕ := cfg.type.hops cfg.nRouters

/-- The latency of a link. -/
def latency : ℕ := cfg.type.latency cfg.wireLat

/-- A hop crosses a router and takes a link. -/
def hopLat : ℕ := cfg.latency + cfg.crossLat

/-- The latency of a link can be told from that of no link, and so can the distances. -/
structure Routable : Prop where
  latency_pos : 0 < cfg.latency
  latency_lt : cfg.latency < noLink
  near : ∀ s < cfg.nRouters, ∀ t < cfg.nRouters, cfg.hops s t * cfg.hopLat < noLink + cfg.crossLat

/-- A wire of `s` to a router that is one link closer to `t`. -/
structure Closer (s t : ℕ) (y : Wire) : Prop where
  inside : y.rID < cfg.nRouters
  link : Linked cfg.adjacent s y.rID
  port : y.port = (at0 (cfg.adjacent.row s y.rID)).port
  dist : y.dist + cfg.crossLat = cfg.hops s t * cfg.hopLat
  hop : cfg.hops y.rID t + 1 = cfg.hops s t

variable {cfg} {s t v a : ℕ} {A : Adjacent}

theorem descends : Descends cfg.nRouters cfg.adjacent cfg.hops := cfg.type.descends cfg.policy rfl cfg.fits

theorem cost_iff (h : cfg.Routable) : cost cfg.nRouters cfg.crossLat cfg.adjacent s v = some a ↔
    s ≠ v ∧ Linked cfg.adjacent s v ∧ a = cfg.hopLat := by
  constructor
  · intro hcost
    obtain ⟨-, -, hne, hdist, ha⟩ := cost_eq_some hcost
    have hl : Linked cfg.adjacent s v := by
      by_contra hl
      exact hdist (by rw [cfg.oneLatency.row_noLink hl]; rfl)
    obtain ⟨-, -, port, -, -, hrow⟩ := cfg.oneLatency.row_link hl
    rw [hrow] at ha
    exact ⟨hne, hl, ha⟩
  · rintro ⟨hne, hl, rfl⟩
    obtain ⟨hs, hv, port, -, -, hrow⟩ := cfg.oneLatency.row_link hl
    have hdist : (at0 (cfg.adjacent.row s v)).dist = cfg.latency := by rw [hrow]; rfl
    rw [cost, if_pos ⟨hs, hv, hne, by rw [hdist]; exact Nat.ne_of_lt h.latency_lt⟩, hdist]
    rfl

/-- **Distances.** A shortest path has as many links as the type of the network says. -/
theorem Routable.shortest (h : cfg.Routable) (hs : s < cfg.nRouters) (ht : t < cfg.nRouters) :
    Shortest (cost cfg.nRouters cfg.crossLat cfg.adjacent) s t (cfg.hops s t * cfg.hopLat) := by
  refine Shortest.of_hops (h := fun x => cfg.hops x t) (P := fun x => x < cfg.nRouters) (cfg.descends.self t) ?_ ?_ hs
  · intro x v a hcost
    obtain ⟨-, hl, rfl⟩ := (cost_iff h).1 hcost
    obtain ⟨hx, hv, -⟩ := cost_eq_some hcost
    exact ⟨rfl, cfg.descends.le x v t hx hv ht hl⟩
  · intro x hx hne
    obtain ⟨v, hv, hl, hone⟩ := cfg.descends.down x hx t ht hne
    refine ⟨v, hv, (cost_iff h).2 ⟨?_, hl, rfl⟩, hone⟩
    rintro rfl
    omega

theorem Routable.firstHop_iff (h : cfg.Routable) (hs : s < cfg.nRouters) (ht : t < cfg.nRouters) :
    FirstHop (cost cfg.nRouters cfg.crossLat cfg.adjacent) s t v ↔
      v < cfg.nRouters ∧ Linked cfg.adjacent s v ∧ cfg.hops v t + 1 = cfg.hops s t := by
  have hpos : 0 < cfg.hopLat := Nat.add_pos_left h.latency_pos _
  rw [Esesc.Lib.firstHop_iff (h.shortest hs ht)]
  constructor
  · rintro ⟨a, m, hcost, hrest, hsum⟩
    obtain ⟨-, hl, rfl⟩ := (cost_iff h).1 hcost
    have hv := (cost_eq_some hcost).2.1
    rw [hrest.unique (h.shortest hv ht), Nat.add_comm, ← Nat.succ_mul] at hsum
    exact ⟨hv, hl, (Nat.eq_of_mul_eq_mul_right hpos hsum).symm⟩
  · rintro ⟨hv, hl, hone⟩
    refine ⟨_, _, (cost_iff h).2 ⟨?_, hl, rfl⟩, h.shortest hv ht, ?_⟩
    · rintro rfl
      omega
    · rw [← hone, Nat.succ_mul, Nat.add_comm]

/-- The links of the network, as the search expects them. -/
def topology (h : cfg.Routable) : Topology where
  nRouters := cfg.nRouters
  crossLat := cfg.crossLat
  adjacent := cfg.adjacent
  ids := cfg.nRouters_lt
  links := (cfg.oneLatency.made.links ⟨h.latency_pos, h.latency_lt⟩).mono fun _ _ => trivial
  ports := by
    rcases cfg.oneLatency.remote with hlt | hall
    · refine .inl ((cfg.oneLatency.made.links ⟨h.latency_pos, h.latency_lt⟩).mono fun port hport => ?_)
      exact ⟨hport.1, Nat.lt_of_le_of_lt hport.2 hlt⟩
    · refine .inr ⟨cfg.latency, fun i hi j hj hne => ?_⟩
      obtain ⟨-, -, port, -, -, hrow⟩ := cfg.oneLatency.row_link (hall i hi j hj hne)
      rw [hrow]
      rfl

/-- **The matrix.** The rows hold the wires to the routers that are one link closer, and no others. -/
theorem Routable.rows (h : cfg.Routable) : ∃ A, make cfg.nRouters cfg.crossLat cfg.adjacent = some A ∧
    (topology h).Done cfg.nRouters A ∧ ∀ s < cfg.nRouters, ∀ t < cfg.nRouters, s ≠ t → ∀ y,
      y ∈ A.row s t ↔ cfg.Closer s t y := by
  have hnear : ∀ s < cfg.nRouters, ∀ t < cfg.nRouters, ∃ d < noLink + cfg.crossLat,
      Route (topology h).cost s t d :=
    fun s hs t ht => ⟨_, h.near s hs t ht, (h.shortest hs ht).route⟩
  obtain ⟨A, hmake, hdone⟩ := (topology h).make_done hnear
  refine ⟨A, hmake, hdone, fun s hs t ht hne y => ?_⟩
  rw [hdone.onShortestPath hs ht hne y]
  have hdist : ∀ d, Shortest (cost cfg.nRouters cfg.crossLat cfg.adjacent) s t d ↔ d = cfg.hops s t * cfg.hopLat :=
    fun d => ⟨fun hd => hd.unique (h.shortest hs ht), fun hd => hd ▸ h.shortest hs ht⟩
  constructor
  · rintro ⟨hfirst, hport, hd⟩
    obtain ⟨hv, hl, hone⟩ := (h.firstHop_iff hs ht).1 hfirst
    exact ⟨hv, hl, hport, (hdist _).1 hd, hone⟩
  · rintro ⟨hv, hl, hport, hd, hone⟩
    exact ⟨(h.firstHop_iff hs ht).2 ⟨hv, hl, hone⟩, hport, (hdist _).2 hd⟩

/-- **Lookups.** Whatever was looked up before, the table of a router answers a wire to a router one link closer. -/
theorem Routable.getWire (h : cfg.Routable) (hmake : make cfg.nRouters cfg.crossLat cfg.adjacent = some A)
    (hs : s < cfg.nRouters) (ht : t < cfg.nRouters) (hne : s ≠ t) {tab : RoutingTable}
    (htab : (getRoutingTable cfg.nRouters cfg.fixMessagePath A s).Used tab) :
    ∃ y ∈ ((getRoutingTable cfg.nRouters cfg.fixMessagePath A s).nextHop t).succs,
      (tab.getWire t).1 = some y ∧ cfg.Closer s t y := by
  obtain ⟨A', hmake', hdone, hrows⟩ := h.rows
  obtain rfl : A = A' := Option.some.inj (hmake.symm.trans hmake')
  obtain ⟨y, hy, hget⟩ := hdone.getWire hs ht htab
  have hkept : RoutingTable.Kept cfg.fixMessagePath (A.row s t)
      ((getRoutingTable cfg.nRouters cfg.fixMessagePath A s).nextHop t).succs := hdone.kept cfg.fixMessagePath hs ht
  exact ⟨y, hy, hget, (hrows s hs t ht hne y).1 (hkept.subset hy)⟩

/-- **Routing distances.** In a mesh, a hypercube, a ring of either kind or a full connection whose distances are
below the one that stands for no link, the table of every router holds for every other router the wires to the
routers one link closer, all of them or with `fixMessagePath` one, and their distance: the number of links, each with
the crossing of a router, but for one crossing. -/
theorem lookups_hops (cfg : NetConfig) (h : cfg.Routable) :
    ∃ A, make cfg.nRouters cfg.crossLat cfg.adjacent = some A ∧
      ∀ s < cfg.nRouters, ∀ t < cfg.nRouters, s ≠ t →
        (cfg.fixMessagePath = false → ∀ y,
          y ∈ ((getRoutingTable cfg.nRouters cfg.fixMessagePath A s).nextHop t).succs ↔ cfg.Closer s t y) ∧
        (cfg.fixMessagePath = true → ∃ y, cfg.Closer s t y ∧
          ((getRoutingTable cfg.nRouters cfg.fixMessagePath A s).nextHop t).succs = [y]) ∧
        ∀ tab, (getRoutingTable cfg.nRouters cfg.fixMessagePath A s).Used tab →
          ∃ y, (tab.getWire t).1 = some y ∧ cfg.Closer s t y := by
  obtain ⟨A, hmake, hdone, hrows⟩ := h.rows
  refine ⟨A, hmake, fun s hs t ht hne => ⟨fun hfix y => ?_, fun hfix => ?_, fun tab htab => ?_⟩⟩
  · have hall : ((getRoutingTable cfg.nRouters cfg.fixMessagePath A s).nextHop t).succs = A.row s t := by
      have hkept := hdone.kept cfg.fixMessagePath hs ht
      rw [RoutingTable.Kept, if_neg (by simp [hfix])] at hkept
      exact hkept
    rw [hall]
    exact hrows s hs t ht hne y
  · have hkept := hdone.kept cfg.fixMessagePath hs ht
    rw [RoutingTable.Kept, if_pos hfix] at hkept
    obtain ⟨y, hy, hsuccs⟩ := hkept
    exact ⟨y, (hrows s hs t ht hne y).1 hy, hsuccs⟩
  · obtain ⟨y, -, hget, hcloser⟩ := h.getWire hmake hs ht hne htab
    exact ⟨y, hget, hcloser⟩

/-- The ring of four. -/
theorem routable_ring : InterConnection.ring.Routable where
  latency_pos := by decide
  latency_lt := by decide
  near := by decide

theorem lookups_hops_ring : ∃ A, make 4 1 InterConnection.ring.adjacent = some A ∧
    ∀ y, y ∈ ((getRoutingTable 4 false A 0).nextHop 2).succs ↔ InterConnection.ring.Closer 0 2 y := by
  obtain ⟨A, hmake, hrows⟩ := lookups_hops InterConnection.ring routable_ring
  exact ⟨A, hmake, (hrows 0 (by decide) 2 (by decide) (by decide)).1 rfl⟩

end NetConfig

end Esesc.Net
