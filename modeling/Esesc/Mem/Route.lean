import Mathlib.Logic.Relation
import Mathlib.Order.WellFounded
import Mathlib.Data.Finite.Defs
import Mathlib.Order.RelClasses
import Mathlib.Data.Set.Finite.Basic
import Esesc.Lib.Machine

/-!
# The push-up routes (`simu/libcore/MRouter.cpp`)

Each object has a table that says, for every object that can be the home of a request, which
of the objects above it is on the way there. `fillRouteTables` of a first-level object goes
down through the hierarchy, along every path, and enters that object and every object it
meets on the way into the tables of what is below them.

* `updateRouteTables_spec`: what one call enters, and that it returns.
* `follow_reaches`: from any table entry, the tables lead to the home.
* `routes_complete`: after `fillRouteTables` of every first-level object, there is an entry for
  every object that reaches another, and following the entries leads back to it.
-/

namespace Esesc.Mem

open Esesc.Lib Relation

/-- A memory hierarchy: the calls of `addLowerLevel`, each from the object above to the one
below, which go round no cycle. -/
structure Wiring (Obj : Type) where
  links : List (Obj × Obj)
  acyclic : ∀ x, ¬TransGen (fun up down => (up, down) ∈ links) x x

/-- The tables `up_map`, of every object and for every home. -/
abbrev UpMap (Obj : Type) := Obj → Obj → Option Obj

namespace Wiring

variable {Obj : Type} [DecidableEq Obj] (W : Wiring Obj)

/-- `down` is right below `up`. -/
def Link (up down : Obj) : Prop := (up, down) ∈ W.links

instance (up down : Obj) : Decidable (W.Link up down) := inferInstanceAs (Decidable ((up, down) ∈ W.links))

/-- `down_node`, in the order in which they were added. -/
def downNode (x : Obj) : List Obj := (W.links.filter (·.1 = x)).map (·.2)

/-- `up_node`. -/
def upNode (x : Obj) : List Obj := (W.links.filter (·.2 = x)).map (·.1)

/-- `up_map[top_node] = upmobj` in the router of `self`. -/
def enter (T : UpMap Obj) (self top_node upmobj : Obj) : UpMap Obj :=
  Function.update T self (Function.update (T self) top_node (some upmobj))

/-- `updateRouteTables(upmobj, top_node)` of the router of `self`, with room for `fuel` calls
inside one another. -/
def updateRouteTables : ℕ → UpMap Obj → Obj → Obj → Obj → Option (UpMap Obj)
  | 0, _, _, _, _ => none
  | fuel + 1, T, self, upmobj, top_node =>
    run (fun T down => (updateRouteTables fuel T down self top_node).bind fun T =>
        updateRouteTables fuel T down self self)
      (enter T self top_node upmobj) (W.downNode self)

/-- `fillRouteTables` of the router of `self`. -/
def fillRouteTables (fuel : ℕ) (T : UpMap Obj) (self : Obj) : Option (UpMap Obj) :=
  run (fun T down => W.updateRouteTables fuel T down self self) T (W.downNode self)

/-- `fillRouteTables` of one object after another, on empty tables. -/
def fillAll (fuel : ℕ) (objs : List Obj) : Option (UpMap Obj) := run (W.fillRouteTables fuel) (fun _ _ => none) objs

/-- The object that `fwdPushUp` of `self` sends a request to. -/
def fwdPushUp (T : UpMap Obj) (self homeNode : Obj) : Option Obj :=
  if 1 < (W.upNode self).length then T self homeNode else (W.upNode self).head?

/-- `n` hops along the tables, for a request with this home. -/
def follow (T : UpMap Obj) (homeNode : Obj) : ℕ → Obj → Option Obj
  | 0, x => some x
  | n + 1, x => (T x homeNode).bind (follow T homeNode n)

variable {W}

theorem mem_downNode {x d : Obj} : d ∈ W.downNode x ↔ W.Link x d := by
  simp [downNode, Link]

theorem mem_upNode {x u : Obj} : u ∈ W.upNode x ↔ W.Link u x := by
  simp [upNode, Link]

/-! ## The order of the hierarchy -/

omit [DecidableEq Obj] in
/-- Going down ends. -/
theorem wf_down [Finite Obj] (W : Wiring Obj) : WellFounded fun down up => W.Link up down := by
  have hirr : Std.Irrefl (fun a b => TransGen W.Link b a) := ⟨fun x h => W.acyclic x h⟩
  have htr : IsTrans Obj (fun a b => TransGen W.Link b a) := ⟨fun _ _ _ h1 h2 => h2.trans h1⟩
  have hwf := Finite.wellFounded_of_trans_of_irrefl (fun a b => TransGen W.Link b a)
  exact Subrelation.wf (fun h => TransGen.single h) hwf

omit [DecidableEq Obj] in
/-- Going up ends. -/
theorem wf_up [Finite Obj] (W : Wiring Obj) : WellFounded W.Link := by
  have hirr : Std.Irrefl (TransGen W.Link) := ⟨fun x h => W.acyclic x h⟩
  have hwf := Finite.wellFounded_of_trans_of_irrefl (TransGen W.Link)
  exact Subrelation.wf (fun h => TransGen.single h) hwf

/-- Every object is at or below one of the first level. -/
theorem exists_first [Finite Obj] (x : Obj) : ∃ first, W.upNode first = [] ∧ ReflTransGen W.Link first x := by
  induction x using W.wf_up.induction with
  | h x ih =>
    cases hup : W.upNode x with
    | nil => exact ⟨x, hup, .refl⟩
    | cons u us =>
      have hlink : W.Link u x := mem_upNode.1 (by rw [hup]; exact List.mem_cons_self)
      obtain ⟨first, hfirst, hreach⟩ := ih u hlink
      exact ⟨first, hfirst, hreach.tail hlink⟩

/-! ## The tables while they are filled -/

variable {T T' T'' : UpMap Obj} {x up top : Obj}

/-- Entries are overwritten but never removed. -/
def Grows (T T' : UpMap Obj) : Prop := ∀ y h, (T y h).isSome → (T' y h).isSome

omit [DecidableEq Obj] in
theorem Grows.trans (h : Grows T T') (h' : Grows T' T'') : Grows T T'' := fun y t hs => h' y t (h y t hs)

/-- An entry names an object right above, which is the home or has an entry itself. -/
def Sound (W : Wiring Obj) (T : UpMap Obj) : Prop :=
  ∀ y h u, T y h = some u → W.Link u y ∧ (u = h ∨ (T u h).isSome)

theorem enter_self (T : UpMap Obj) (x top up : Obj) : enter T x top up x top = some up := by
  simp [enter]

theorem enter_of_ne (T : UpMap Obj) (up : Obj) {y h : Obj} (hne : ¬(y = x ∧ h = top)) :
    enter T x top up y h = T y h := by
  unfold enter
  by_cases hy : y = x
  · subst hy
    rw [Function.update_self, Function.update_of_ne fun hh => hne ⟨rfl, hh⟩]
  · rw [Function.update_of_ne hy]

theorem grows_enter (T : UpMap Obj) (x top up : Obj) : Grows T (enter T x top up) := by
  intro y h hs
  by_cases hne : y = x ∧ h = top
  · obtain ⟨rfl, rfl⟩ := hne
    rw [enter_self]
    rfl
  · rwa [enter_of_ne T up hne]

theorem Sound.enter (hT : W.Sound T) (hlink : W.Link up x) (htop : up = top ∨ (T up top).isSome) :
    W.Sound (Wiring.enter T x top up) := by
  intro y h u hu
  have hgrow := grows_enter T x top up
  by_cases hne : y = x ∧ h = top
  · obtain ⟨rfl, rfl⟩ := hne
    obtain rfl : up = u := Option.some.inj ((enter_self T y h up).symm.trans hu)
    exact ⟨hlink, htop.imp_right (hgrow up h)⟩
  · rw [enter_of_ne T up hne] at hu
    obtain ⟨hl, ht⟩ := hT y h u hu
    exact ⟨hl, ht.imp_right (hgrow u h)⟩

/-- Below `x`, and in `x` itself, there is an entry for `top`; and below every object there is one
for that object. -/
structure Filled (W : Wiring Obj) (x top : Obj) (T : UpMap Obj) : Prop where
  top : ∀ y, ReflTransGen W.Link x y → (T y top).isSome
  below : ∀ z y, ReflTransGen W.Link x z → TransGen W.Link z y → (T y z).isSome

omit [DecidableEq Obj] in
theorem Filled.grows (h : W.Filled x top T) (hg : Grows T T') : W.Filled x top T' :=
  ⟨fun y hy => hg _ _ (h.top y hy), fun z y hz hy => hg _ _ (h.below z y hz hy)⟩

omit [DecidableEq Obj] in
/-- A bound for each of a list is one for all of them. -/
theorem exists_fuel {P : Obj → ℕ → Prop} (l : List Obj) (h : ∀ d ∈ l, ∃ N, ∀ fuel ≥ N, P d fuel) :
    ∃ N, ∀ d ∈ l, ∀ fuel ≥ N, P d fuel := by
  induction l with
  | nil => exact ⟨0, by simp⟩
  | cons d l ih =>
    obtain ⟨N, hN⟩ := h d List.mem_cons_self
    obtain ⟨M, hM⟩ := ih fun e he => h e (List.mem_cons_of_mem d he)
    refine ⟨max N M, fun e he fuel hfuel => ?_⟩
    rcases List.mem_cons.1 he with rfl | he
    · exact hN fuel (le_trans (le_max_left _ _) hfuel)
    · exact hM e he fuel (le_trans (le_max_right _ _) hfuel)

/-- What a call of `updateRouteTables` is for. -/
def Updates (W : Wiring Obj) (x : Obj) (fuel : ℕ) : Prop :=
  ∀ T up top, W.Sound T → W.Link up x → (up = top ∨ (T up top).isSome) →
    ∃ T', W.updateRouteTables fuel T x up top = some T' ∧ W.Sound T' ∧ Grows T T' ∧ W.Filled x top T'

/-- The calls for the objects below `x`. -/
theorem updates_succ {fuel : ℕ} (h : ∀ d ∈ W.downNode x, W.Updates d fuel) : W.Updates x (fuel + 1) := by
  intro T up top hT hlink htop
  -- both calls for one object below
  have hstep : ∀ d ∈ W.downNode x, ∀ T : UpMap Obj, W.Sound T ∧ (T x top).isSome →
      ∃ T', (W.updateRouteTables fuel T d x top).bind (fun T => W.updateRouteTables fuel T d x x) = some T' ∧
        (W.Sound T' ∧ (T' x top).isSome) ∧ Grows T T' ∧ W.Filled d top T' ∧ W.Filled d x T' := by
    rintro d hd T ⟨hT, hx⟩
    obtain ⟨T₁, h1, hs1, hg1, hf1⟩ := h d hd T x top hT (mem_downNode.1 hd) (.inr hx)
    obtain ⟨T₂, h2, hs2, hg2, hf2⟩ := h d hd T₁ x x hs1 (mem_downNode.1 hd) (.inl rfl)
    refine ⟨T₂, by rw [h1]; exact h2, ⟨hs2, hg2 _ _ (hg1 _ _ hx)⟩, hg1.trans hg2, hf1.grows hg2, hf2⟩
  have hentered : (enter T x top up x top).isSome := by
    rw [enter_self]
    rfl
  obtain ⟨T', hrun, ⟨hs, hx⟩, hg, hall⟩ := run_collect (I := fun T => W.Sound T ∧ (T x top).isSome) (R := Grows)
    (Q := fun d T => W.Filled d top T ∧ W.Filled d x T) (fun _ _ _ hs => hs) (fun _ _ _ => Grows.trans)
    (fun _ _ _ hg hQ => ⟨hQ.1.grows hg, hQ.2.grows hg⟩) hstep ⟨hT.enter hlink htop, hentered⟩
  refine ⟨T', hrun, hs, (grows_enter T x top up).trans hg, ⟨?_, ?_⟩⟩
  · intro y hy
    rcases hy.cases_head with rfl | ⟨d, hd, hdy⟩
    · exact hx
    · exact (hall d (mem_downNode.2 hd)).1.top y hdy
  · intro z y hz hy
    rcases hz.cases_head with rfl | ⟨d, hd, hdz⟩
    · obtain ⟨d, hd, hdy⟩ := TransGen.head'_iff.1 hy
      exact (hall d (mem_downNode.2 hd)).2.top y hdy
    · exact (hall d (mem_downNode.2 hd)).1.below z y hdz hy

/-- **`updateRouteTables` returns**, and does what it is for. -/
theorem updateRouteTables_spec [Finite Obj] (W : Wiring Obj) (x : Obj) : ∃ N, ∀ fuel ≥ N, W.Updates x fuel := by
  induction x using W.wf_down.induction with
  | h x ih =>
    obtain ⟨N, hN⟩ := exists_fuel (P := fun d fuel => W.Updates d fuel) (W.downNode x)
      fun d hd => ih d (mem_downNode.1 hd)
    refine ⟨N + 1, fun fuel hfuel => ?_⟩
    obtain ⟨fuel, rfl⟩ : ∃ m, fuel = m + 1 := ⟨fuel - 1, by omega⟩
    exact updates_succ fun d hd => hN d hd fuel (by omega)

/-- `fillRouteTables` of `x` enters every object at or below `x` into the tables of what is below it. -/
theorem fillRouteTables_spec [Finite Obj] (W : Wiring Obj) (x : Obj) :
    ∃ N, ∀ fuel ≥ N, ∀ T, W.Sound T → ∃ T', W.fillRouteTables fuel T x = some T' ∧ W.Sound T' ∧ Grows T T' ∧
      ∀ z y, ReflTransGen W.Link x z → TransGen W.Link z y → (T' y z).isSome := by
  obtain ⟨N, hN⟩ := exists_fuel (P := fun d fuel => W.Updates d fuel) (W.downNode x)
    fun d _ => W.updateRouteTables_spec d
  refine ⟨N, fun fuel hfuel T hT => ?_⟩
  obtain ⟨T', hrun, hs, hg, hall⟩ := run_collect (I := W.Sound) (R := Grows) (Q := fun d T => W.Filled d x T)
    (fun _ _ _ hs => hs) (fun _ _ _ => Grows.trans) (fun _ _ _ hg hQ => hQ.grows hg)
    (fun d hd T hT => hN d hd fuel hfuel T x x hT (mem_downNode.1 hd) (.inl rfl)) hT
  refine ⟨T', hrun, hs, hg, ?_⟩
  intro z y hz hy
  rcases hz.cases_head with rfl | ⟨d, hd, hdz⟩
  · obtain ⟨d, hd, hdy⟩ := TransGen.head'_iff.1 hy
    exact (hall d (mem_downNode.2 hd)).top y hdy
  · exact (hall d (mem_downNode.2 hd)).below z y hdz hy

/-! More room does not change what a call returns. -/

theorem updateRouteTables_mono {fuel fuel' : ℕ} (hle : fuel ≤ fuel') (h : W.updateRouteTables fuel T x up top = some T') :
    W.updateRouteTables fuel' T x up top = some T' := by
  induction fuel generalizing fuel' T x up top T' with
  | zero => cases h
  | succ fuel ih =>
    obtain ⟨fuel', rfl⟩ : ∃ m, fuel' = m + 1 := ⟨fuel' - 1, by omega⟩
    refine run_mono (fun S d S' hS => ?_) h
    obtain ⟨S₁, h1, h2⟩ := Option.bind_eq_some_iff.1 hS
    exact Option.bind_eq_some_iff.2 ⟨S₁, ih (by omega) h1, ih (by omega) h2⟩

theorem fillAll_mono {fuel fuel' : ℕ} (hle : fuel ≤ fuel') {objs : List Obj} (h : W.fillAll fuel objs = some T) :
    W.fillAll fuel' objs = some T :=
  run_mono (fun _ _ _ hfill => run_mono (fun _ _ _ hup => updateRouteTables_mono hle hup) hfill) h

/-! ## Following the tables -/

omit [DecidableEq Obj] in
/-- **The tables lead to the home** from wherever there is an entry for it. -/
theorem follow_reaches [Finite Obj] (hT : W.Sound T) {home u : Obj} (h : T x home = some u) :
    ∃ n, follow T home n x = some home := by
  induction x using W.wf_up.induction generalizing u with
  | h x ih =>
    obtain ⟨hlink, hu⟩ := hT x home u h
    rcases hu with rfl | hu
    · exact ⟨1, by simp [follow, h]⟩
    · obtain ⟨v, hv⟩ := Option.isSome_iff_exists.1 hu
      obtain ⟨n, hn⟩ := ih u hlink hv
      exact ⟨n + 1, by simp [follow, h, hn]⟩

/-- `fwdPushUp` goes along the tables, also where it does not look at them. -/
theorem fwdPushUp_eq (hT : W.Sound T) {home u : Obj} (h : T x home = some u) : W.fwdPushUp T x home = some u := by
  unfold fwdPushUp
  have hmem : u ∈ W.upNode x := mem_upNode.2 (hT x home u h).1
  split
  · exact h
  · rename_i hlen
    -- there is only one object above
    rcases hup : W.upNode x with _ | ⟨v, _ | ⟨w, ws⟩⟩
    · rw [hup] at hmem
      cases hmem
    · rw [hup] at hmem
      rw [List.mem_singleton.1 hmem]
      rfl
    · rw [hup] at hlen
      exact absurd (by simp) hlen

/-- **Push-up routing.** In every acyclic hierarchy, once `fillRouteTables` has run for every
first-level object, which it does in finitely many calls: for every `H` that reaches `X` through
lower-level links, the table of `X` has an entry for `H`, which is an object right above `X` and
where `fwdPushUp` sends requests of `H`, and following the entries from `X` leads to `H`. -/
theorem routes_complete [Finite Obj] (W : Wiring Obj) (objs : List Obj) (hfirst : ∀ x, W.upNode x = [] → x ∈ objs) :
    ∃ N T, (∀ fuel ≥ N, W.fillAll fuel objs = some T) ∧
      ∀ X H, TransGen W.Link H X → ∃ U, T X H = some U ∧ U ∈ W.upNode X ∧ W.fwdPushUp T X H = some U ∧
        ∃ n, follow T H n X = some H := by
  obtain ⟨N, hN⟩ := exists_fuel objs fun x _ => W.fillRouteTables_spec x
  have hempty : W.Sound fun _ _ => none := fun _ _ _ h => by cases h
  obtain ⟨T, hrun, hs, -, hall⟩ := run_collect (I := W.Sound) (R := Grows)
    (Q := fun x T => ∀ z y, ReflTransGen W.Link x z → TransGen W.Link z y → (T y z).isSome) (fun _ _ _ h => h)
    (fun _ _ _ => Grows.trans) (fun _ _ _ hg hQ z y hz hy => hg _ _ (hQ z y hz hy))
    (fun x hx T hT => hN x hx N le_rfl T hT) hempty
  refine ⟨N, T, fun fuel hfuel => fillAll_mono hfuel hrun, ?_⟩
  intro X H hreach
  obtain ⟨first, hnone, hfH⟩ := W.exists_first H
  obtain ⟨U, hU⟩ := Option.isSome_iff_exists.1 (hall first (hfirst first hnone) H X hfH hreach)
  exact ⟨U, hU, mem_upNode.2 (hs X H U hU).1, fwdPushUp_eq hs hU, follow_reaches hs hU⟩

omit [DecidableEq Obj] in
/-- Links that all go up in some numbering go round no cycle. -/
theorem acyclic_of_rank {links : List (Obj × Obj)} (rank : Obj → ℕ) (h : ∀ p ∈ links, rank p.1 < rank p.2) :
    ∀ x, ¬TransGen (fun up down => (up, down) ∈ links) x x := by
  have hlt : ∀ x y, TransGen (fun up down => (up, down) ∈ links) x y → rank x < rank y := by
    intro x y hxy
    induction hxy with
    | single hl => exact h _ hl
    | tail _ hl ih => exact ih.trans (h _ hl)
  exact fun x hx => (hlt x x hx).ne rfl

/-- Two first-level caches over a shared one, which has two banks over the same memory. -/
def diamond : Wiring (Fin 6) where
  links := [(0, 2), (1, 2), (2, 3), (2, 4), (3, 5), (4, 5)]
  acyclic := acyclic_of_rank Fin.val (by decide)

theorem routes_complete_diamond :
    (∀ x, diamond.upNode x = [] → x ∈ [(0 : Fin 6), 1]) ∧
      ∃ N T, (∀ fuel ≥ N, diamond.fillAll fuel [0, 1] = some T) ∧ ∃ n, follow T 1 n 5 = some 1 := by
  have hfirst : ∀ x, diamond.upNode x = [] → x ∈ [(0 : Fin 6), 1] := by decide
  obtain ⟨N, T, hT, hall⟩ := diamond.routes_complete [0, 1] hfirst
  have h12 : diamond.Link 1 2 := by decide
  have h23 : diamond.Link 2 3 := by decide
  have h35 : diamond.Link 3 5 := by decide
  obtain ⟨U, -, -, -, hn⟩ := hall 5 1 (((TransGen.single h12).tail h23).tail h35)
  exact ⟨hfirst, N, T, hT, hn⟩

end Wiring

end Esesc.Mem
