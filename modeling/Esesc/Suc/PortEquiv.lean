import Mathlib.Data.List.Basic
import Mathlib.Data.List.MinMax
import Esesc.Lib.Machine
import Esesc.Suc.Port

/-!
# The specialised ports agree with `PortNPipe`

`nextSlotOcc_spec` says what one call of the general port does: it picks a unit that
is idle, or the earliest one when none is idle, and books it. The simulations from
the specialised ports follow from it.

* `FullyNSim`: `freeUnits` counts the units that are free at `lTime`, no unit is
  booked beyond `lTime + 1`, and no unit lags behind `lTime` once `lTime` is ahead of
  the clock.
* `ports_agree`: along every sequence of calls, whatever the clock does in between,
  the specialised ports answer what `PortNPipe` answers.
-/

namespace Esesc.Suc

open Esesc.Lib

namespace PortNPipe

/-- The loop ends at an idle unit, or at the earliest of the units it has seen. -/
theorem search_spec (globalClock : ℕ) (all : List ℕ) :
    ∀ (bs : List ℕ) (i bufPort bufTime : ℕ), all.drop i = bs → all[bufPort]? = some bufTime →
      (∀ b ∈ all.take i, bufTime ≤ b) → (∀ b ∈ all.take i, globalClock ≤ b) →
      (∃ k b, search globalClock bs i bufPort bufTime = .idle k ∧ all[k]? = some b ∧
          b < globalClock) ∨
        ∃ k b, search globalClock bs i bufPort bufTime = .busy k b ∧ all[k]? = some b ∧
          (∀ x ∈ all, b ≤ x) ∧ ∀ x ∈ all, globalClock ≤ x := by
  intro bs
  induction bs with
  | nil =>
    intro i bufPort bufTime hd hbuf hmin hbusy
    have ht : all.take i = all := by
      rw [List.drop_eq_nil_iff] at hd; exact List.take_of_length_le hd
    rw [ht] at hmin hbusy
    exact Or.inr ⟨bufPort, bufTime, rfl, hbuf, hmin, hbusy⟩
  | cons b bs ih =>
    intro i bufPort bufTime hd hbuf hmin hbusy
    have hi : all[i]? = some b := by
      have := congrArg List.head? hd
      rwa [List.head?_drop] at this
    have hd' : all.drop (i + 1) = bs := by
      have := congrArg List.tail hd
      rwa [List.tail_drop] at this
    have htake : all.take (i + 1) = all.take i ++ [b] := by
      rw [List.take_add_one, hi]; rfl
    simp only [search]
    -- a port that is free by now ends the search
    split
    · rename_i hlt
      exact Or.inl ⟨i, b, rfl, hi, hlt⟩
    rename_i hge
    have hbusy' : ∀ x ∈ all.take (i + 1), globalClock ≤ x := by
      intro x hx
      rw [htake, List.mem_append, List.mem_singleton] at hx
      rcases hx with hx | rfl
      · exact hbusy x hx
      · omega
    -- the earliest of the busy ones is kept
    split
    · rename_i hlt
      refine ih (i + 1) i b hd' hi ?_ hbusy'
      intro x hx
      rw [htake, List.mem_append, List.mem_singleton] at hx
      rcases hx with hx | rfl
      · have := hmin x hx; omega
      · exact le_rfl
    · rename_i hle
      refine ih (i + 1) bufPort bufTime hd' hbuf ?_ hbusy'
      intro x hx
      rw [htake, List.mem_append, List.mem_singleton] at hx
      rcases hx with hx | rfl
      · exact hmin x hx
      · omega

/-- **What `nextSlot` does.** It books one unit `k`, from the time it returns: an idle
unit from the clock on, or, when none is idle, the earliest unit from when it frees. -/
theorem nextSlotOcc_spec (p : PortNPipe) (globalClock occupancy : ℕ) (hp : p.portBusyUntil ≠ []) :
    ∃ k b r, p.nextSlotOcc globalClock occupancy =
        (r, { p with portBusyUntil := p.portBusyUntil.set k (r + occupancy) }) ∧
      p.portBusyUntil[k]? = some b ∧
      ((b < globalClock ∧ r = globalClock) ∨
        (b = r ∧ (∀ x ∈ p.portBusyUntil, r ≤ x) ∧ ∀ x ∈ p.portBusyUntil, globalClock ≤ x)) := by
  obtain ⟨b, bs, hbs⟩ := List.exists_cons_of_ne_nil hp
  unfold nextSlotOcc
  rw [hbs]
  simp only
  split
  · rename_i hlt
    exact ⟨0, b, globalClock, rfl, rfl, Or.inl ⟨hlt, rfl⟩⟩
  rename_i hge
  rcases search_spec globalClock (b :: bs) bs 1 0 b rfl rfl (by simp)
    (by simp; omega) with ⟨k, x, hs, hk, hlt⟩ | ⟨k, x, hs, hk, hmin, hbusy⟩
  · rw [hs]
    exact ⟨k, x, globalClock, rfl, hk, Or.inl ⟨hlt, rfl⟩⟩
  · rw [hs]
    refine ⟨k, x, x, ?_, hk, Or.inr ⟨rfl, hmin, hbusy⟩⟩
    simp only
    rw [List.modify_eq_set_getElem?, hk]
    rfl

theorem firsttime_le (bs : List ℕ) : ∀ t, firsttime bs t ≤ t ∧ ∀ b ∈ bs, firsttime bs t ≤ b := by
  induction bs with
  | nil => intro t; simp [firsttime]
  | cons b bs ih =>
    intro t
    simp only [firsttime]
    obtain ⟨h1, h2⟩ := ih (if b < t then b else t)
    have h3 : (if b < t then b else t) ≤ t ∧ (if b < t then b else t) ≤ b := by split <;> omega
    refine ⟨by omega, ?_⟩
    intro x hx
    rcases List.mem_cons.1 hx with rfl | hx
    · omega
    · exact h2 x hx

theorem firsttime_mem (bs : List ℕ) : ∀ t, firsttime bs t = t ∨ firsttime bs t ∈ bs := by
  induction bs with
  | nil => intro t; simp [firsttime]
  | cons b bs ih =>
    intro t
    simp only [firsttime, List.mem_cons]
    rcases ih (if b < t then b else t) with h | h
    · rw [h]; split <;> simp
    · exact Or.inr (Or.inr h)

/-- **What `calcNextSlot` answers**: the clock, or the time the earliest unit frees if
that is later. -/
theorem calcNextSlot_spec (p : PortNPipe) (globalClock : ℕ) (hp : p.portBusyUntil ≠ []) :
    ∃ m ∈ p.portBusyUntil, (∀ x ∈ p.portBusyUntil, m ≤ x) ∧
      p.calcNextSlot globalClock = max globalClock m := by
  obtain ⟨b, bs, hbs⟩ := List.exists_cons_of_ne_nil hp
  refine ⟨firsttime bs b, ?_, ?_, ?_⟩
  · rw [hbs, List.mem_cons]; exact firsttime_mem bs b
  · intro x hx
    rw [hbs, List.mem_cons] at hx
    obtain ⟨h1, h2⟩ := firsttime_le bs b
    rcases hx with rfl | hx
    · exact h1
    · exact h2 x hx
  · unfold calcNextSlot
    rw [hbs]
    simp only
    split <;> omega

end PortNPipe

/-! ## Calls along a run -/

/-- The two calls that hand out times. -/
inductive PortCall where
  | nextSlot
  | calcNextSlot
  deriving Repr, DecidableEq

section Run

variable {π : Type*}

/-- One call on a port: first the clock moves on by `i.1` cycles, then the call is made.
The state is the clock and the port. -/
def portStep (nextSlot : π → ℕ → ℕ × π) (calcNextSlot : π → ℕ → ℕ) (s : ℕ × π) (i : ℕ × PortCall) :
    ℕ × (ℕ × π) :=
  let globalClock := s.1 + i.1
  match i.2 with
  | .nextSlot => ((nextSlot s.2 globalClock).1, globalClock, (nextSlot s.2 globalClock).2)
  | .calcNextSlot => (calcNextSlot s.2 globalClock, globalClock, s.2)

/-- The times a port hands out along a sequence of calls. -/
def portTimes (nextSlot : π → ℕ → ℕ × π) (calcNextSlot : π → ℕ → ℕ) (globalClock : ℕ) (p : π)
    (calls : List (ℕ × PortCall)) : List ℕ :=
  outs (portStep nextSlot calcNextSlot) (globalClock, p) calls

/-- Two ports hand out the same times if a relation, indexed by the clock and kept when
the clock moves on, makes both calls agree. -/
theorem portTimes_eq_of_sim {ρ : Type*} {n₁ : π → ℕ → ℕ × π} {c₁ : π → ℕ → ℕ} {n₂ : ρ → ℕ → ℕ × ρ}
    {c₂ : ρ → ℕ → ℕ} (R : ℕ → π → ρ → Prop) (hmono : ∀ c c' p q, c ≤ c' → R c p q → R c' p q)
    (hnext : ∀ c p q, R c p q → (n₁ p c).1 = (n₂ q c).1 ∧ R c (n₁ p c).2 (n₂ q c).2)
    (hcalc : ∀ c p q, R c p q → c₁ p c = c₂ q c) {c : ℕ} {p : π} {q : ρ} (h : R c p q)
    (calls : List (ℕ × PortCall)) : portTimes n₁ c₁ c p calls = portTimes n₂ c₂ c q calls := by
  refine outs_eq_of_sim (fun s t => s.1 = t.1 ∧ R s.1 s.2 t.2) ?_ ⟨rfl, h⟩ calls
  rintro ⟨c, p⟩ ⟨c', q⟩ ⟨dt, call⟩ ⟨hc, hR⟩
  simp only at hc hR
  subst hc
  have hR' := hmono c (c + dt) p q (Nat.le_add_right c dt) hR
  cases call with
  | nextSlot =>
    obtain ⟨h1, h2⟩ := hnext _ p q hR'
    exact ⟨h1, rfl, h2⟩
  | calcNextSlot => exact ⟨hcalc _ p q hR', rfl, hR'⟩

end Run

/-! ## One unit: `PortFullyPipe` and `PortPipe` -/

/-- A single unit that frees at `t`, seen by two ports: they agree on every time from
the clock on. -/
def SameFrom (c t : ℕ) (busy : List ℕ) : Prop := ∃ b, busy = [b] ∧ max c b = max c t

theorem SameFrom.mono {c c' t : ℕ} {busy : List ℕ} (hc : c ≤ c') (h : SameFrom c t busy) :
    SameFrom c' t busy := by
  obtain ⟨b, hb, hm⟩ := h
  exact ⟨b, hb, by omega⟩

theorem nextSlot_one {c t : ℕ} {q : PortNPipe} (h : SameFrom c t q.portBusyUntil) :
    q.nextSlot c = (max c t, { q with portBusyUntil := [max c t + q.ocp] }) := by
  obtain ⟨b, hb, hm⟩ := h
  obtain ⟨k, x, r, hn, hk, hr⟩ := q.nextSlotOcc_spec c q.ocp (by rw [hb]; simp)
  rw [hb] at hk hr hn
  have hk0 : k = 0 := by
    rcases k with _ | k
    · rfl
    · simp at hk
  subst hk0
  simp only [List.getElem?_cons_zero, Option.some.injEq] at hk
  subst hk
  have hrt : r = max c t := by
    rcases hr with ⟨h1, h2⟩ | ⟨h1, -, h2⟩
    · omega
    · have := h2 b (by simp); omega
  rw [PortNPipe.nextSlot, hn, hrt]
  rfl

theorem calcNextSlot_one {c t : ℕ} {q : PortNPipe} (h : SameFrom c t q.portBusyUntil) :
    q.calcNextSlot c = max c t := by
  obtain ⟨b, hb, hm⟩ := h
  obtain ⟨m, hmem, -, hc⟩ := q.calcNextSlot_spec c (by rw [hb]; simp)
  rw [hb, List.mem_singleton] at hmem
  rw [hc, hmem, hm]

/-- `PortFullyPipe` against `PortNPipe(1, 1)`. -/
def FullySim (c : ℕ) (p : PortFullyPipe) (q : PortNPipe) : Prop :=
  q.ocp = 1 ∧ SameFrom c p.lTime q.portBusyUntil

theorem FullySim.nextSlot {c : ℕ} {p : PortFullyPipe} {q : PortNPipe} (h : FullySim c p q) :
    (p.nextSlot c).1 = (q.nextSlot c).1 ∧ FullySim c (p.nextSlot c).2 (q.nextSlot c).2 := by
  have hp : p.nextSlot c = (max c p.lTime, ⟨max c p.lTime + 1⟩) := by
    have : (if p.lTime < c then c else p.lTime) = max c p.lTime := by split <;> omega
    simp only [PortFullyPipe.nextSlot, this]
  rw [hp, nextSlot_one h.2]
  exact ⟨rfl, h.1, max c p.lTime + q.ocp, rfl, by rw [h.1]⟩

theorem FullySim.calcNextSlot {c : ℕ} {p : PortFullyPipe} {q : PortNPipe} (h : FullySim c p q) :
    p.calcNextSlot c = q.calcNextSlot c := by
  rw [calcNextSlot_one h.2]
  unfold PortFullyPipe.calcNextSlot
  split <;> omega

/-- `PortPipe(occ)` against `PortNPipe(1, occ)`. -/
def PipeSim (c : ℕ) (p : PortPipe) (q : PortNPipe) : Prop :=
  q.ocp = p.ocp ∧ SameFrom c p.lTime q.portBusyUntil

theorem PipeSim.nextSlot {c : ℕ} {p : PortPipe} {q : PortNPipe} (h : PipeSim c p q) :
    (p.nextSlot c).1 = (q.nextSlot c).1 ∧ PipeSim c (p.nextSlot c).2 (q.nextSlot c).2 := by
  have hp : p.nextSlot c = (max c p.lTime, { p with lTime := max c p.lTime + p.ocp }) := by
    have : (if p.lTime < c then c else p.lTime) = max c p.lTime := by split <;> omega
    simp only [PortPipe.nextSlot, this]
  rw [hp, nextSlot_one h.2]
  exact ⟨rfl, h.1, max c p.lTime + q.ocp, rfl, by rw [h.1]⟩

theorem PipeSim.calcNextSlot {c : ℕ} {p : PortPipe} {q : PortNPipe} (h : PipeSim c p q) :
    p.calcNextSlot c = q.calcNextSlot c := by
  rw [calcNextSlot_one h.2]
  unfold PortPipe.calcNextSlot
  split <;> omega

/-! ## Several units, occupancy one: `PortFullyNPipe` -/

/-- `PortFullyNPipe(n)` against `PortNPipe(n, 1)`. -/
structure FullyNSim (c : ℕ) (p : PortFullyNPipe) (q : PortNPipe) : Prop where
  ocp : q.ocp = 1
  units : q.portBusyUntil.length = p.nUnitsMinusOne + 1
  free : q.portBusyUntil.countP (· ≤ p.lTime) = p.freeUnits
  le : ∀ b ∈ q.portBusyUntil, b ≤ p.lTime + 1
  ahead : c < p.lTime → ∀ b ∈ q.portBusyUntil, p.lTime ≤ b

theorem FullyNSim.mono {c c' : ℕ} {p : PortFullyNPipe} {q : PortNPipe} (hc : c ≤ c')
    (h : FullyNSim c p q) : FullyNSim c' p q :=
  ⟨h.ocp, h.units, h.free, h.le, fun hl => h.ahead (by omega)⟩

theorem FullyNSim.ne_nil {c : ℕ} {p : PortFullyNPipe} {q : PortNPipe} (h : FullyNSim c p q) :
    q.portBusyUntil ≠ [] := by
  intro hn
  have := h.units
  rw [hn] at this
  simp at this

/-- Booking a unit that is free at `t` until `t + 1` leaves one unit less free at `t`. -/
theorem countP_book {busy : List ℕ} {k b t : ℕ} (hk : busy[k]? = some b) (hb : b ≤ t) :
    (busy.set k (t + 1)).countP (· ≤ t) = busy.countP (· ≤ t) - 1 := by
  obtain ⟨hlt, hget⟩ := List.getElem?_eq_some_iff.1 hk
  rw [List.countP_set hlt, hget]
  simp [hb]

theorem countP_all {busy : List ℕ} {t : ℕ} (h : ∀ b ∈ busy, b ≤ t) :
    busy.countP (· ≤ t) = busy.length := by
  rw [List.countP_eq_length]
  intro b hb
  simpa using h b hb

/-- The port after a call that returned `t`, given what the call saw of the units. -/
theorem FullyNSim.book {c : ℕ} {p p' : PortFullyNPipe} {q : PortNPipe} {k b t : ℕ}
    (h : FullyNSim c p q) (hk : q.portBusyUntil[k]? = some b) (hbt : b ≤ t)
    (hu : p'.nUnitsMinusOne = p.nUnitsMinusOne) (ht : p'.lTime = t)
    (hf : p'.freeUnits = q.portBusyUntil.countP (· ≤ t) - 1)
    (hle : ∀ x ∈ q.portBusyUntil, x ≤ t + 1) (hah : c < t → ∀ x ∈ q.portBusyUntil, t ≤ x) :
    FullyNSim c p' { q with portBusyUntil := q.portBusyUntil.set k (t + q.ocp) } := by
  rw [h.ocp]
  refine ⟨rfl, ?_, ?_, ?_, ?_⟩
  · rw [List.length_set, hu, h.units]
  · rw [ht, countP_book hk hbt, hf]
  · intro x hx
    rw [ht]
    rcases List.mem_or_eq_of_mem_set hx with hx | rfl
    · exact hle x hx
    · exact le_rfl
  · intro hc x hx
    rw [ht] at hc ⊢
    rcases List.mem_or_eq_of_mem_set hx with hx | rfl
    · exact hah hc x hx
    · omega

theorem FullyNSim.nextSlot {c : ℕ} {p : PortFullyNPipe} {q : PortNPipe} (h : FullyNSim c p q) :
    (p.nextSlot c).1 = (q.nextSlot c).1 ∧ FullyNSim c (p.nextSlot c).2 (q.nextSlot c).2 := by
  obtain ⟨k, b, r, hn, hk, hr⟩ := q.nextSlotOcc_spec c q.ocp h.ne_nil
  have hbm : b ∈ q.portBusyUntil := List.mem_of_getElem? hk
  have hble := h.le b hbm
  rw [PortNPipe.nextSlot, hn]
  unfold PortFullyNPipe.nextSlot
  split
  · -- the port has been idle: every unit is free at the clock
    rename_i hlt
    have hrc : r = c := by
      rcases hr with ⟨-, h2⟩ | ⟨h1, -, h2⟩
      · exact h2
      · have := h2 b hbm; omega
    subst hrc
    have hall : ∀ x ∈ q.portBusyUntil, x ≤ r := fun x hx => by have := h.le x hx; omega
    refine ⟨rfl, h.book hk (by omega) rfl rfl ?_ (fun x hx => by have := hall x hx; omega) (by omega)⟩
    simp only
    rw [countP_all hall, h.units]
    rfl
  rename_i hge
  split
  · -- a unit is still free at `lTime`
    rename_i hfree
    have hex : ∃ x ∈ q.portBusyUntil, x ≤ p.lTime := by
      rw [← h.free, List.countP_pos_iff] at hfree
      simpa using hfree
    obtain ⟨x, hx, hxt⟩ := hex
    have hrt : r = p.lTime ∧ b ≤ p.lTime := by
      rcases Nat.lt_or_ge c p.lTime with hc | hc
      · have hbt := h.ahead hc b hbm
        rcases hr with ⟨h1, -⟩ | ⟨h1, h2, -⟩
        · omega
        · have := h2 x hx; omega
      · rcases hr with ⟨h1, h2⟩ | ⟨h1, h2, h3⟩
        · omega
        · have := h2 x hx; have := h3 b hbm; omega
    obtain ⟨rfl, hbt⟩ := hrt
    exact ⟨rfl, h.book hk hbt rfl rfl (by simp only; rw [h.free]) h.le h.ahead⟩
  · -- every unit is taken at `lTime`
    rename_i hnone
    have hall : ∀ x ∈ q.portBusyUntil, x = p.lTime + 1 := by
      intro x hx
      have h0 : q.portBusyUntil.countP (· ≤ p.lTime) = 0 := by rw [h.free]; omega
      rw [List.countP_eq_zero] at h0
      have h1 := h0 x hx
      have h2 := h.le x hx
      simp only [decide_eq_true_eq] at h1
      omega
    have hrt : r = p.lTime + 1 := by
      have := hall b hbm
      rcases hr with ⟨h1, -⟩ | ⟨h1, -, -⟩ <;> omega
    subst hrt
    refine ⟨rfl, h.book hk (by rw [hall b hbm]) rfl rfl ?_ ?_ ?_⟩
    · simp only
      rw [countP_all (fun x hx => le_of_eq (hall x hx)), h.units]
      rfl
    · intro x hx; rw [hall x hx]; omega
    · intro _ x hx; rw [hall x hx]

theorem FullyNSim.calcNextSlot {c : ℕ} {p : PortFullyNPipe} {q : PortNPipe} (h : FullyNSim c p q) :
    p.calcNextSlot c = q.calcNextSlot c := by
  obtain ⟨m, hm, hmin, hc⟩ := q.calcNextSlot_spec c h.ne_nil
  have hle := h.le m hm
  rw [hc]
  unfold PortFullyNPipe.calcNextSlot
  split
  · omega
  rename_i hge
  split
  · rename_i h0
    have hz : q.portBusyUntil.countP (· ≤ p.lTime) = 0 := by rw [h.free, h0]
    rw [List.countP_eq_zero] at hz
    have := hz m hm
    simp only [decide_eq_true_eq] at this
    omega
  · rename_i h0
    obtain ⟨x, hx, hxt⟩ : ∃ x ∈ q.portBusyUntil, x ≤ p.lTime := by
      have hpos : 0 < q.portBusyUntil.countP (· ≤ p.lTime) := by rw [h.free]; omega
      rw [List.countP_pos_iff] at hpos
      simpa using hpos
    have hmx := hmin x hx
    by_cases hcl : c < p.lTime
    · have := h.ahead hcl m hm; omega
    · omega

/-! ## The ports agree -/

theorem fullySim_new (c : ℕ) : FullySim c (.new c) (.new 1 1 c) :=
  ⟨rfl, c, rfl, rfl⟩

theorem pipeSim_new (occ c : ℕ) : PipeSim c (.new occ c) (.new 1 occ c) := by
  refine ⟨rfl, c, rfl, ?_⟩
  simp only [PortPipe.new]
  split <;> omega

theorem fullyNSim_new {n : ℕ} (hn : 1 ≤ n) (c : ℕ) : FullyNSim c (.new n c) (.new n 1 c) := by
  have hmem : ∀ b ∈ (PortNPipe.new n 1 c).portBusyUntil, b = c := fun b hb => List.eq_of_mem_replicate hb
  refine ⟨rfl, ?_, ?_, ?_, ?_⟩
  · simp only [PortNPipe.new, PortFullyNPipe.new, List.length_replicate]; omega
  · have ht : (PortFullyNPipe.new n c).lTime = c := rfl
    rw [ht, countP_all (fun b hb => le_of_eq (hmem b hb))]
    simp [PortNPipe.new, PortFullyNPipe.new]
  · intro b hb; rw [hmem b hb]; simp only [PortFullyNPipe.new]; omega
  · intro hc; simp only [PortFullyNPipe.new] at hc; omega

theorem fullyPipe_times (c : ℕ) (calls : List (ℕ × PortCall)) :
    portTimes PortFullyPipe.nextSlot PortFullyPipe.calcNextSlot c (.new c) calls =
      portTimes PortNPipe.nextSlot PortNPipe.calcNextSlot c (.new 1 1 c) calls :=
  portTimes_eq_of_sim FullySim (fun _ _ _ _ hc h => ⟨h.1, h.2.mono hc⟩) (fun _ _ _ => FullySim.nextSlot)
    (fun _ _ _ => FullySim.calcNextSlot) (fullySim_new c) calls

theorem fullyNPipe_times {n : ℕ} (hn : 1 ≤ n) (c : ℕ) (calls : List (ℕ × PortCall)) :
    portTimes PortFullyNPipe.nextSlot PortFullyNPipe.calcNextSlot c (.new n c) calls =
      portTimes PortNPipe.nextSlot PortNPipe.calcNextSlot c (.new n 1 c) calls :=
  portTimes_eq_of_sim FullyNSim (fun _ _ _ _ hc h => h.mono hc) (fun _ _ _ => FullyNSim.nextSlot)
    (fun _ _ _ => FullyNSim.calcNextSlot) (fullyNSim_new hn c) calls

theorem pipe_times (occ c : ℕ) (calls : List (ℕ × PortCall)) :
    portTimes PortPipe.nextSlot PortPipe.calcNextSlot c (.new occ c) calls =
      portTimes PortNPipe.nextSlot PortNPipe.calcNextSlot c (.new 1 occ c) calls :=
  portTimes_eq_of_sim PipeSim (fun _ _ _ _ hc h => ⟨h.1, h.2.mono hc⟩) (fun _ _ _ => PipeSim.nextSlot)
    (fun _ _ _ => PipeSim.calcNextSlot) (pipeSim_new occ c) calls

/-- A port seen through `PortGeneric` hands out its own times. -/
theorem generic_times {π : Type*} (wrap : π → PortGeneric) {n : π → ℕ → ℕ × π} {k : π → ℕ → ℕ}
    (hn : ∀ p c, (wrap p).nextSlot c = ((n p c).1, wrap (n p c).2))
    (hk : ∀ p c, (wrap p).calcNextSlot c = k p c) (c : ℕ) (p : π) (calls : List (ℕ × PortCall)) :
    portTimes PortGeneric.nextSlot PortGeneric.calcNextSlot c (wrap p) calls = portTimes n k c p calls := by
  refine portTimes_eq_of_sim (fun _ g q => g = wrap q) (fun _ _ _ _ _ h => h) ?_ ?_ rfl calls
  · rintro c g q rfl; rw [hn]; exact ⟨rfl, rfl⟩
  · rintro c g q rfl; exact hk q c

/-- The port `create` picks for limited resources hands out the times of `PortNPipe`. -/
theorem create_times {n occ : ℕ} (hn : 1 ≤ n) (ho : 1 ≤ occ) (c : ℕ) (calls : List (ℕ × PortCall)) :
    portTimes PortGeneric.nextSlot PortGeneric.calcNextSlot c (.create n occ c) calls =
      portTimes PortNPipe.nextSlot PortNPipe.calcNextSlot c (.new n occ c) calls := by
  unfold PortGeneric.create
  rw [if_neg (by omega)]
  by_cases h1 : occ = 1
  · subst h1
    rw [if_pos rfl]
    by_cases h2 : n = 1
    · subst h2
      rw [if_pos rfl, ← fullyPipe_times]
      exact generic_times .fullyPipe (fun _ _ => rfl) (fun _ _ => rfl) c _ calls
    · rw [if_neg h2, ← fullyNPipe_times hn]
      exact generic_times .fullyNPipe (fun _ _ => rfl) (fun _ _ => rfl) c _ calls
  · rw [if_neg h1]
    by_cases h2 : n = 1
    · subst h2
      rw [if_pos rfl, ← pipe_times]
      exact generic_times .pipe (fun _ _ => rfl) (fun _ _ => rfl) c _ calls
    · rw [if_neg h2]
      exact generic_times .nPipe (fun _ _ => rfl) (fun _ _ => rfl) c _ calls

/-- **The specialised ports agree with the general one.** For every number of units,
occupancy, starting clock and sequence of calls, with the clock moving on by any number
of cycles before each: `PortFullyPipe` hands out the times of `PortNPipe(1, 1)`,
`PortFullyNPipe(n)` those of `PortNPipe(n, 1)` and `PortPipe(occ)` those of
`PortNPipe(1, occ)`; so the port `create` picks hands out those of `PortNPipe(n, occ)`. -/
theorem ports_agree (nUnits occ : ℕ) (hn : 1 ≤ nUnits) (ho : 1 ≤ occ) (globalClock : ℕ)
    (calls : List (ℕ × PortCall)) :
    portTimes PortFullyPipe.nextSlot PortFullyPipe.calcNextSlot globalClock (.new globalClock) calls =
        portTimes PortNPipe.nextSlot PortNPipe.calcNextSlot globalClock (.new 1 1 globalClock) calls ∧
      portTimes PortFullyNPipe.nextSlot PortFullyNPipe.calcNextSlot globalClock
          (.new nUnits globalClock) calls =
        portTimes PortNPipe.nextSlot PortNPipe.calcNextSlot globalClock
          (.new nUnits 1 globalClock) calls ∧
      portTimes PortPipe.nextSlot PortPipe.calcNextSlot globalClock (.new occ globalClock) calls =
        portTimes PortNPipe.nextSlot PortNPipe.calcNextSlot globalClock
          (.new 1 occ globalClock) calls ∧
      portTimes PortGeneric.nextSlot PortGeneric.calcNextSlot globalClock
          (.create nUnits occ globalClock) calls =
        portTimes PortNPipe.nextSlot PortNPipe.calcNextSlot globalClock
          (.new nUnits occ globalClock) calls :=
  ⟨fullyPipe_times globalClock calls, fullyNPipe_times hn globalClock calls,
    pipe_times occ globalClock calls, create_times hn ho globalClock calls⟩

/-- Two units of occupancy three, five calls: the clock stands still for the first four
and then jumps. -/
theorem ports_agree_two_three :
    portTimes PortGeneric.nextSlot PortGeneric.calcNextSlot 7 (.create 2 3 7)
        [(0, .nextSlot), (0, .nextSlot), (0, .calcNextSlot), (0, .nextSlot), (5, .nextSlot)] =
      [7, 7, 10, 10, 12] := by
  rw [(ports_agree 2 3 (by decide) (by decide) 7 _).2.2.2]
  decide

end Esesc.Suc
