import Mathlib.Algebra.Group.Nat.Defs
import Esesc.Suc.PortEquiv

/-!
# Several slots at once (`PortGeneric::occupySlots`)

`Port.h` says that `occupySlots(n)` is equivalent to `n` calls of `nextSlot()`. The classes with one unit
keep this by arithmetic and `PortNPipe` makes the calls. `PortFullyNPipe` moves `lTime` by the whole cycles
and leaves `freeUnits` as it is.

* `PortFullyNPipe.position`: a port with `n` units per cycle is a counter of slots.
* `PortFullyNPipe.alike_iff`: its later answers tell this counter, and nothing else.
* `occupySlots_iff`: when `occupySlots` does what it says.
-/

namespace Esesc.Suc

open Esesc.Lib

namespace PortGeneric

/-- `occupySlots`. The product in `PortPipe::occupySlots` is an `int`. -/
def occupySlots (p : PortGeneric) (globalClock nSlots : ℕ) : Option (ℕ × PortGeneric) :=
  match p with
  | .unlimited p => some ((p.occupySlots globalClock nSlots).1, .unlimited (p.occupySlots globalClock nSlots).2)
  | .fullyPipe p => some ((p.occupySlots globalClock nSlots).1, .fullyPipe (p.occupySlots globalClock nSlots).2)
  | .fullyNPipe p => some ((p.occupySlots globalClock nSlots).1, .fullyNPipe (p.occupySlots globalClock nSlots).2)
  | .pipe p =>
    if p.ocp * nSlots < 2 ^ 31 then
      some ((p.occupySlots globalClock nSlots).1, .pipe (p.occupySlots globalClock nSlots).2)
    else none
  | .nPipe p => some ((p.occupySlots globalClock nSlots).1, .nPipe (p.occupySlots globalClock nSlots).2)

def lock4nCycles (p : PortGeneric) (globalClock clks : ℕ) : PortGeneric :=
  match p with
  | .unlimited p => .unlimited (p.lock4nCycles globalClock clks)
  | .fullyPipe p => .fullyPipe (p.lock4nCycles globalClock clks)
  | .fullyNPipe p => .fullyNPipe (p.lock4nCycles globalClock clks)
  | .pipe p => .pipe (p.lock4nCycles globalClock clks)
  | .nPipe p => .nPipe (p.lock4nCycles globalClock clks)

/-- The port after `n` calls of `nextSlot` in one cycle. -/
def nextSlots (globalClock : ℕ) : ℕ → PortGeneric → PortGeneric
  | 0, p => p
  | n + 1, p => nextSlots globalClock n (p.nextSlot globalClock).2

end PortGeneric

/-! ## Uses of a port -/

/-- The calls that change a port. -/
inductive PortUse where
  | nextSlot
  | occupySlots (nSlots : ℕ)
  | lock4nCycles (clks : ℕ)
  deriving Repr, DecidableEq

/-- One use of a port, after the clock has moved on by `u.1` cycles. -/
def useStep (s : ℕ × PortGeneric) (u : ℕ × PortUse) : Option (ℕ × PortGeneric) :=
  let globalClock := s.1 + u.1
  match u.2 with
  | .nextSlot => some (globalClock, (s.2.nextSlot globalClock).2)
  | .occupySlots nSlots => (s.2.occupySlots globalClock nSlots).map fun r => (globalClock, r.2)
  | .lock4nCycles clks => some (globalClock, s.2.lock4nCycles globalClock clks)

/-- No later call tells the two ports apart, from this clock on. -/
def SameAnswers (globalClock : ℕ) (p p' : PortGeneric) : Prop :=
  Alike (portStep PortGeneric.nextSlot PortGeneric.calcNextSlot) (globalClock, p) (globalClock, p')

/-- What `Port.h` says of `occupySlots(n)`: it answers what the first of `n` calls of `nextSlot` answers, and
no later call of `nextSlot` or `calcNextSlot` tells the port from the one after these calls. -/
def OccupyOk (globalClock : ℕ) (p : PortGeneric) (n : ℕ) : Prop :=
  ∃ r p', p.occupySlots globalClock n = some (r, p') ∧ r = (p.nextSlot globalClock).1 ∧
    SameAnswers globalClock p' (PortGeneric.nextSlots globalClock n p)

/-- When it is so. -/
def Fits (globalClock : ℕ) (p : PortGeneric) (n : ℕ) : Prop :=
  match p with
  | .fullyNPipe p =>
    if p.lTime < globalClock then p.freeUnits + n % (p.nUnitsMinusOne + 1) = p.nUnitsMinusOne + 1
    else 0 < p.freeUnits ∧ p.nUnitsMinusOne + 1 ∣ n
  | .pipe p => p.ocp * n < 2 ^ 31
  | _ => True

/-! ## Ports with several units, as counters -/

namespace PortFullyNPipe

variable {p q : PortFullyNPipe} {c c' n : ℕ}

/-- The next slot, where the slots of all cycles are numbered through. -/
def position (p : PortFullyNPipe) (c : ℕ) : ℕ :=
  if p.lTime < c then c * (p.nUnitsMinusOne + 1)
  else p.lTime * (p.nUnitsMinusOne + 1) + (p.nUnitsMinusOne + 1 - p.freeUnits)

/-- There are not more free units than units. -/
def Ok (p : PortFullyNPipe) : Prop := p.freeUnits ≤ p.nUnitsMinusOne + 1

theorem position_later (h : p.Ok) (hc : c ≤ c') :
    p.position c' = max (c' * (p.nUnitsMinusOne + 1)) (p.position c) := by
  unfold position
  unfold Ok at h
  have hmono : c * (p.nUnitsMinusOne + 1) ≤ c' * (p.nUnitsMinusOne + 1) := Nat.mul_le_mul_right _ hc
  by_cases hold : p.lTime < c
  · rw [if_pos hold, if_pos (by omega)]
    omega
  · rw [if_neg hold]
    by_cases hnew : p.lTime < c'
    · -- what was free in the last cycle is lost
      have hlast : (p.lTime + 1) * (p.nUnitsMinusOne + 1) ≤ c' * (p.nUnitsMinusOne + 1) := Nat.mul_le_mul_right _ hnew
      rw [Nat.succ_mul] at hlast
      rw [if_pos hnew]
      omega
    · have hle : c' * (p.nUnitsMinusOne + 1) ≤ p.lTime * (p.nUnitsMinusOne + 1) :=
        Nat.mul_le_mul_right _ (by omega)
      rw [if_neg hnew]
      omega

theorem calcNextSlot_eq (h : p.Ok) : p.calcNextSlot c = p.position c / (p.nUnitsMinusOne + 1) := by
  unfold position calcNextSlot
  unfold Ok at h
  have hpos : 0 < p.nUnitsMinusOne + 1 := Nat.succ_pos _
  split
  · rw [Nat.mul_div_cancel _ hpos]
  · rw [Nat.mul_comm, Nat.mul_add_div hpos]
    congr 1
    split
    · rename_i h0
      rw [h0, Nat.sub_zero, Nat.div_self hpos]
    · rw [Nat.div_eq_of_lt (by omega)]

theorem nextSlot_eq (p : PortFullyNPipe) (c : ℕ) : (p.nextSlot c).1 = p.calcNextSlot c := by
  unfold nextSlot calcNextSlot
  split
  · rfl
  · split
    · rw [if_neg (by omega), Nat.add_zero]
    · rw [if_pos (by omega)]

theorem nextSlot_units (p : PortFullyNPipe) (c : ℕ) : (p.nextSlot c).2.nUnitsMinusOne = p.nUnitsMinusOne := by
  unfold nextSlot
  split
  · rfl
  · split <;> rfl

theorem Ok.nextSlot (h : p.Ok) (c : ℕ) : (p.nextSlot c).2.Ok := by
  unfold Ok at h ⊢
  unfold PortFullyNPipe.nextSlot
  split
  · exact Nat.le_succ _
  · split
    · simp only
      omega
    · exact Nat.le_succ _

/-- A call takes one slot. -/
theorem nextSlot_position (h : p.Ok) (c : ℕ) : (p.nextSlot c).2.position c = p.position c + 1 := by
  unfold Ok at h
  unfold PortFullyNPipe.nextSlot position
  by_cases hidle : p.lTime < c
  · simp only [if_pos hidle, lt_irrefl, if_false]
    omega
  · by_cases hfree : 0 < p.freeUnits
    · simp only [if_neg hidle, if_pos hfree]
      omega
    · simp only [if_neg hidle, if_neg hfree]
      rw [if_neg (by omega), Nat.succ_mul]
      omega

theorem occupySlots_position (p : PortFullyNPipe) (c n : ℕ) :
    (p.occupySlots c n).2.position c =
      (max c p.lTime + n / (p.nUnitsMinusOne + 1)) * (p.nUnitsMinusOne + 1) +
        (p.nUnitsMinusOne + 1 - p.freeUnits) := by
  have hmax : (if p.lTime < c then c else p.lTime) = max c p.lTime := by split <;> omega
  unfold occupySlots position
  simp only [hmax]
  rw [if_neg (not_lt.2 (Nat.le_trans (le_max_left _ _) (Nat.le_add_right _ _)))]

/-- Two ports with the same counter. -/
structure Same (c : ℕ) (p q : PortFullyNPipe) : Prop where
  left : p.Ok
  right : q.Ok
  units : p.nUnitsMinusOne = q.nUnitsMinusOne
  position : p.position c = q.position c

theorem Same.later (h : Same c p q) (hc : c ≤ c') : Same c' p q :=
  ⟨h.left, h.right, h.units, by rw [position_later h.left hc, position_later h.right hc, h.units, h.position]⟩

theorem Same.calcNextSlot (h : Same c p q) : p.calcNextSlot c = q.calcNextSlot c := by
  rw [calcNextSlot_eq h.left, calcNextSlot_eq h.right, h.units, h.position]

theorem Same.nextSlot (h : Same c p q) :
    (p.nextSlot c).1 = (q.nextSlot c).1 ∧ Same c (p.nextSlot c).2 (q.nextSlot c).2 := by
  refine ⟨by rw [nextSlot_eq, nextSlot_eq, h.calcNextSlot], h.left.nextSlot c, h.right.nextSlot c, ?_, ?_⟩
  · rw [nextSlot_units, nextSlot_units, h.units]
  · rw [nextSlot_position h.left, nextSlot_position h.right, h.position]

/-- Counters that are in the same cycle after every number of further slots are equal. -/
theorem eq_of_div_eq {u x y : ℕ} (hu : 0 < u) (h : ∀ i, (x + i) / u = (y + i) / u) : x = y := by
  -- the larger one gets to a new cycle first
  have hle : ∀ {x y : ℕ}, (∀ i, (x + i) / u = (y + i) / u) → ¬x < y := by
    intro x y h hlt
    have hi := h (y * (u - 1))
    have hy : y + y * (u - 1) = y * u := by
      rw [Nat.add_comm, ← Nat.mul_succ, Nat.succ_eq_add_one, Nat.sub_add_cancel hu]
    rw [hy, Nat.mul_div_cancel _ hu] at hi
    have hx : (x + y * (u - 1)) / u < y := (Nat.div_lt_iff_lt_mul hu).2 (by omega)
    omega
  have h1 := hle h
  have h2 := hle fun i => (h i).symm
  omega

/-- The port after further calls in the same cycle. -/
theorem nextSlots_fullyNPipe (h : p.Ok) (n : ℕ) :
    ∃ q : PortFullyNPipe, PortGeneric.nextSlots c n (.fullyNPipe p) = .fullyNPipe q ∧ q.Ok ∧
      q.nUnitsMinusOne = p.nUnitsMinusOne ∧ q.position c = p.position c + n := by
  induction n generalizing p with
  | zero => exact ⟨p, rfl, h, rfl, rfl⟩
  | succ n ih =>
    obtain ⟨q, hq, hok, hunits, hpos⟩ := ih (h.nextSlot c)
    refine ⟨q, hq, hok, ?_, ?_⟩
    · rw [hunits, nextSlot_units]
    · rw [hpos, nextSlot_position h]
      omega

end PortFullyNPipe

/-! ## Alike ports -/

section Alike

variable {c n : ℕ} {g g' : PortGeneric}

theorem SameAnswers.nextSlots (h : SameAnswers c g g') (i : ℕ) :
    SameAnswers c (PortGeneric.nextSlots c i g) (PortGeneric.nextSlots c i g') := by
  induction i generalizing g g' with
  | zero => exact h
  | succ i ih => exact ih (h.next (0, .nextSlot))

theorem SameAnswers.calcNextSlot (h : SameAnswers c g g') : g.calcNextSlot c = g'.calcNextSlot c :=
  h.answer (0, .calcNextSlot)

/-- **What later calls can tell** of a port with several units is its counter. -/
theorem PortFullyNPipe.alike_iff {p q : PortFullyNPipe} (hp : p.Ok) (hq : q.Ok)
    (hunits : p.nUnitsMinusOne = q.nUnitsMinusOne) :
    SameAnswers c (.fullyNPipe p) (.fullyNPipe q) ↔ p.position c = q.position c := by
  constructor
  · intro h
    refine eq_of_div_eq (Nat.succ_pos q.nUnitsMinusOne) fun i => ?_
    -- ask for the next slot after `i` more calls
    obtain ⟨p', hp', hok, hu, hpos⟩ := nextSlots_fullyNPipe (c := c) hp i
    obtain ⟨q', hq', hok', hu', hpos'⟩ := nextSlots_fullyNPipe (c := c) hq i
    have hcalc := (h.nextSlots i).calcNextSlot
    rw [hp', hq'] at hcalc
    have hcalc : p'.calcNextSlot c = q'.calcNextSlot c := hcalc
    rw [calcNextSlot_eq hok, calcNextSlot_eq hok', hu, hu', hpos, hpos', hunits] at hcalc
    exact hcalc
  · intro h
    refine portTimes_eq_of_sim (fun c g g' => ∃ p q, g = .fullyNPipe p ∧ g' = .fullyNPipe q ∧ Same c p q) ?_ ?_ ?_
      ⟨p, q, rfl, rfl, hp, hq, hunits, h⟩
    · rintro c c' _ _ hc ⟨p, q, rfl, rfl, hsame⟩
      exact ⟨p, q, rfl, rfl, hsame.later hc⟩
    · rintro c _ _ ⟨p, q, rfl, rfl, hsame⟩
      exact ⟨hsame.nextSlot.1, _, _, rfl, rfl, hsame.nextSlot.2⟩
    · rintro c _ _ ⟨p, q, rfl, rfl, hsame⟩
      exact hsame.calcNextSlot

end Alike

/-! ## The classes -/

section Classes

variable {c n : ℕ}

theorem nextSlots_unlimited (p : PortUnlimited) (n : ℕ) : PortGeneric.nextSlots c n (.unlimited p) = .unlimited p := by
  induction n with
  | zero => rfl
  | succ n ih => exact ih

theorem nextSlots_fullyPipe (p : PortFullyPipe) (n : ℕ) :
    PortGeneric.nextSlots c (n + 1) (.fullyPipe p) = .fullyPipe (p.occupySlots c (n + 1)).2 := by
  induction n generalizing p with
  | zero => rfl
  | succ n ih =>
    rw [PortGeneric.nextSlots, PortGeneric.nextSlot, ih]
    unfold PortFullyPipe.occupySlots PortFullyPipe.nextSlot
    simp only [PortGeneric.fullyPipe.injEq, PortFullyPipe.mk.injEq]
    split <;> split <;> omega

theorem nextSlots_pipe (p : PortPipe) (n : ℕ) :
    PortGeneric.nextSlots c (n + 1) (.pipe p) = .pipe (p.occupySlots c (n + 1)).2 := by
  induction n generalizing p with
  | zero =>
    rw [PortGeneric.nextSlots, PortGeneric.nextSlot, PortGeneric.nextSlots]
    unfold PortPipe.occupySlots PortPipe.nextSlot
    simp only [Nat.zero_add, Nat.mul_one]
  | succ n ih =>
    rw [PortGeneric.nextSlots, PortGeneric.nextSlot, ih]
    unfold PortPipe.occupySlots PortPipe.nextSlot
    simp only [PortGeneric.pipe.injEq, PortPipe.mk.injEq, true_and]
    rw [if_neg (by split <;> omega), Nat.mul_succ p.ocp (n + 1)]
    omega

/-- `PortNPipe` makes the calls. -/
theorem nextSlots_nPipe (p : PortNPipe) (n : ℕ) :
    PortGeneric.nextSlots c (n + 1) (.nPipe p) = .nPipe (p.occupySlots c (n + 1)).2 := by
  have hrepeat : ∀ (n : ℕ) (p : PortNPipe),
      PortGeneric.nextSlots c n (.nPipe p) = .nPipe (PortNPipe.repeatSlot c n p) := by
    intro n
    induction n with
    | zero => exact fun p => rfl
    | succ n ih => exact fun p => ih _
  exact hrepeat n _

theorem occupyOk_of_eq {p p' : PortGeneric} {r : ℕ} (h : p.occupySlots c n = some (r, p'))
    (hr : r = (p.nextSlot c).1) (hp : PortGeneric.nextSlots c n p = p') : OccupyOk c p n :=
  ⟨r, p', h, hr, hp ▸ Alike.refl _⟩

/-- **`PortFullyNPipe`**: an idle port has to be left with the units that the last cycle does not need, and a
port that is ahead of the clock needs a free unit and whole cycles. -/
theorem occupyOk_fullyNPipe {p : PortFullyNPipe} (h : p.Ok) :
    OccupyOk c (.fullyNPipe p) n ↔ Fits c (.fullyNPipe p) n := by
  obtain ⟨q, hq, hok, hunits, hpos⟩ := PortFullyNPipe.nextSlots_fullyNPipe (c := c) h n
  have hocc : (p.occupySlots c n).2.Ok := h
  have hsame := PortFullyNPipe.alike_iff (c := c) hocc hok (hunits.symm)
  rw [p.occupySlots_position, hpos] at hsame
  have hstart : (p.occupySlots c n).1 = (p.nextSlot c).1 ↔ p.lTime < c ∨ 0 < p.freeUnits := by
    rw [p.nextSlot_eq]
    unfold PortFullyNPipe.occupySlots PortFullyNPipe.calcNextSlot
    simp only
    split
    · simp [*]
    · split <;> omega
  have hiff : OccupyOk c (.fullyNPipe p) n ↔
      (p.occupySlots c n).1 = (p.nextSlot c).1 ∧ SameAnswers c (.fullyNPipe (p.occupySlots c n).2) (.fullyNPipe q) := by
    unfold OccupyOk
    rw [hq]
    constructor
    · rintro ⟨r, p', hp', hr, halike⟩
      obtain ⟨rfl, rfl⟩ := Prod.mk.inj (Option.some.inj hp')
      exact ⟨hr, halike⟩
    · rintro ⟨hr, halike⟩
      exact ⟨_, _, rfl, hr, halike⟩
  rw [hiff, hstart, hsame]
  unfold Fits PortFullyNPipe.position
  unfold PortFullyNPipe.Ok at h
  simp only
  -- the slots of the whole cycles drop out on both sides
  have hdiv := Nat.div_add_mod' n (p.nUnitsMinusOne + 1)
  have hmod := Nat.mod_lt n (Nat.succ_pos p.nUnitsMinusOne)
  rw [Nat.add_mul, Nat.dvd_iff_mod_eq_zero]
  generalize n / (p.nUnitsMinusOne + 1) * (p.nUnitsMinusOne + 1) = whole at hdiv ⊢
  by_cases hidle : p.lTime < c
  · rw [if_pos hidle, if_pos hidle, max_eq_left hidle.le]
    omega
  · rw [if_neg hidle, if_neg hidle, max_eq_right (not_lt.1 hidle)]
    omega

end Classes

/-! ## Every state -/

/-- What every port keeps. -/
def PortGeneric.Ok : PortGeneric → Prop
  | .fullyNPipe p => p.Ok
  | _ => True

theorem create_ok (nUnits occ c : ℕ) : (PortGeneric.create nUnits occ c).Ok := by
  unfold PortGeneric.create
  split
  · trivial
  · split
    · split
      · trivial
      · show nUnits ≤ nUnits - 1 + 1
        omega
    · split <;> trivial

theorem useStep_ok {s s' : ℕ × PortGeneric} {u : ℕ × PortUse} (h : useStep s u = some s') (hs : s.2.Ok) : s'.2.Ok := by
  obtain ⟨c, p⟩ := s
  obtain ⟨dt, u⟩ := u
  cases u with
  | nextSlot =>
    obtain rfl := Option.some.inj h
    cases p with
    | fullyNPipe p => exact PortFullyNPipe.Ok.nextSlot hs _
    | _ => trivial
  | occupySlots n =>
    obtain ⟨⟨r, p'⟩, hp', rfl⟩ := Option.map_eq_some_iff.1 h
    cases p with
    | fullyNPipe p =>
      obtain ⟨-, rfl⟩ := Prod.mk.inj (Option.some.inj hp')
      exact hs
    | pipe p =>
      simp only [PortGeneric.occupySlots] at hp'
      split at hp'
      · obtain ⟨-, rfl⟩ := Prod.mk.inj (Option.some.inj hp')
        trivial
      · cases hp'
    | _ =>
      obtain ⟨-, rfl⟩ := Prod.mk.inj (Option.some.inj hp')
      trivial
  | lock4nCycles clks =>
    obtain rfl := Option.some.inj h
    cases p with
    | fullyNPipe p => exact le_rfl
    | _ => trivial

/-- **Several slots at once.** In every state that a port made by `create` can reach, at every clock and for
every number of slots, `occupySlots` is as good as the calls of `nextSlot` that it stands for if and only if the
request fits. -/
theorem occupySlots_iff {nUnits occ globalClock c : ℕ} {us : List (ℕ × PortUse)} {p : PortGeneric}
    (h : run useStep (globalClock, .create nUnits occ globalClock) us = some (c, p)) (dt : ℕ) {n : ℕ} (hn : 1 ≤ n) :
    OccupyOk (c + dt) p n ↔ Fits (c + dt) p n := by
  have hok : p.Ok := run_inv (I := fun s => s.2.Ok) (fun s u s' hs => useStep_ok hs) h
    (create_ok nUnits occ globalClock)
  obtain ⟨m, rfl⟩ := Nat.exists_eq_add_of_le' hn
  cases p with
  | unlimited p => exact ⟨fun _ => trivial, fun _ => occupyOk_of_eq rfl rfl (nextSlots_unlimited p _)⟩
  | fullyPipe p => exact ⟨fun _ => trivial, fun _ => occupyOk_of_eq rfl rfl (nextSlots_fullyPipe p m)⟩
  | fullyNPipe p => exact occupyOk_fullyNPipe hok
  | pipe p =>
    constructor
    · rintro ⟨r, p', hp', -⟩
      by_contra hlong
      have hlong : ¬p.ocp * (m + 1) < 2 ^ 31 := hlong
      simp only [PortGeneric.occupySlots] at hp'
      rw [if_neg hlong] at hp'
      cases hp'
    · intro hshort
      exact occupyOk_of_eq (if_pos hshort) rfl (nextSlots_pipe p m)
  | nPipe p => exact ⟨fun _ => trivial, fun _ => occupyOk_of_eq rfl rfl (nextSlots_nPipe p m)⟩

/-- Two units: after one call and one cycle, three slots fit into what is free. -/
theorem occupySlots_two_units :
    OccupyOk 8 (.fullyNPipe ⟨1, 1, 7⟩) 3 ↔ Fits 8 (.fullyNPipe ⟨1, 1, 7⟩) 3 := by
  have hrun : run useStep (7, .create 2 1 7) [(0, .nextSlot)] = some (7, .fullyNPipe ⟨1, 1, 7⟩) := by decide
  exact occupySlots_iff hrun 1 (by decide)

/-- **One slot of two.** The unit is not marked as used, so two more calls start in the same cycle. -/
theorem occupySlots_lost : ¬OccupyOk 7 (PortGeneric.create 2 1 7) 1 := by
  rintro ⟨r, p', hp', -, halike⟩
  have htimes := halike [(0, .nextSlot), (0, .nextSlot)]
  have hp : p' = .fullyNPipe ⟨1, 2, 7⟩ := (Prod.mk.inj (Option.some.inj hp')).2.symm
  subst hp
  revert htimes
  decide

end Esesc.Suc
