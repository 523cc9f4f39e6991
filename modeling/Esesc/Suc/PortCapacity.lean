import Mathlib.Data.Nat.Basic
import Esesc.Suc.PortOccupy

/-!
# What a port promises its users

The users of a `PortNPipe` with `n` units are granted start times, and each keeps a unit for the occupancy.

* `Fair`: the grants so far, seen from the units. At the clock and later, as many grants are running as units are
  busy; before the clock, at most `n` ever ran at once.
* `port_capacity`: starts are not early and do not go back, no more than `n` grants run at once, and as long as a
  request waits all units are in use; and `calcNextSlot` tells what `nextSlot` will return, for every class.
-/

namespace Esesc.Suc

namespace PortNPipe

variable {n occ c t : ℕ} {p : PortNPipe} {starts : List ℕ}

/-- The clock and the start of each call of `nextSlot`, with the clock moving on by some cycles before each. -/
def grants (globalClock : ℕ) (p : PortNPipe) : List ℕ → List (ℕ × ℕ)
  | [] => []
  | dt :: dts =>
    let r := p.nextSlot (globalClock + dt)
    (globalClock + dt, r.1) :: grants (globalClock + dt) r.2 dts

/-- How many of the uses that start at these times take place in cycle `t`. -/
def running (occ t : ℕ) (starts : List ℕ) : ℕ := starts.countP fun s => s ≤ t ∧ t < s + occ

theorem running_append (l l' : List ℕ) : running occ t (l ++ l') = running occ t l + running occ t l' :=
  List.countP_append

theorem running_single (s : ℕ) : running occ t [s] = if s ≤ t ∧ t < s + occ then 1 else 0 := by
  simp [running, List.countP_cons]

/-- The units that are still in use at `t`. -/
def busyAt (p : PortNPipe) (t : ℕ) : ℕ := p.portBusyUntil.countP (t < ·)

/-- The grants so far, with the state of the port and the clock. -/
structure Fair (n c : ℕ) (p : PortNPipe) (starts : List ℕ) : Prop where
  units : p.portBusyUntil.length = n
  atMost : ∀ t, running p.ocp t starts ≤ n
  inUse : ∀ t, c ≤ t → running p.ocp t starts = p.busyAt t
  past : ∀ s ∈ starts, ∀ b ∈ p.portBusyUntil, s ≤ max c b

theorem busyAt_le (p : PortNPipe) (t : ℕ) : p.busyAt t ≤ p.portBusyUntil.length := List.countP_le_length

/-- Booking a unit until `e`. -/
theorem busyAt_set {k b e : ℕ} (hk : p.portBusyUntil[k]? = some b) (t : ℕ) :
    PortNPipe.busyAt { p with portBusyUntil := p.portBusyUntil.set k e } t + (if t < b then 1 else 0) =
      p.busyAt t + if t < e then 1 else 0 := by
  obtain ⟨hlt, hget⟩ := List.getElem?_eq_some_iff.1 hk
  unfold busyAt
  rw [List.countP_set hlt, hget]
  have hpos : t < b → 0 < p.portBusyUntil.countP (t < ·) := fun htb =>
    List.countP_pos_iff.2 ⟨b, List.mem_of_getElem? hk, by simpa using htb⟩
  by_cases htb : t < b
  · have := hpos htb
    simp only [htb, decide_true, if_true, decide_eq_true_eq]
    omega
  · simp [htb]

/-- **One request**: what it is granted, and that the next ones start from a fair state again. -/
theorem Fair.nextSlot (h : Fair n c p starts) (hn : 1 ≤ n) (dt : ℕ) :
    c + dt ≤ (p.nextSlot (c + dt)).1 ∧ (∀ s ∈ starts, s ≤ (p.nextSlot (c + dt)).1) ∧
      (∀ t, c + dt ≤ t → t < (p.nextSlot (c + dt)).1 → running p.ocp t starts = n) ∧
      (p.nextSlot (c + dt)).2.ocp = p.ocp ∧
      Fair n (c + dt) (p.nextSlot (c + dt)).2 (starts ++ [(p.nextSlot (c + dt)).1]) := by
  have hne : p.portBusyUntil ≠ [] := by
    intro hnil
    have := h.units
    rw [hnil, List.length_nil] at this
    omega
  obtain ⟨k, b, r, hr, hk, hspec⟩ := p.nextSlotOcc_spec (c + dt) p.ocp hne
  rw [PortNPipe.nextSlot, hr]
  have hbmem : b ∈ p.portBusyUntil := List.mem_of_getElem? hk
  -- the start is the clock or the time the first unit frees, whichever is later
  have hclock : c + dt ≤ r := by
    rcases hspec with ⟨-, hrc⟩ | ⟨rfl, -, hbusy⟩
    · exact hrc.ge
    · exact hbusy _ hbmem
  have hbr : b ≤ r := by
    rcases hspec with ⟨hb, -⟩ | ⟨rfl, -, -⟩
    · omega
    · exact le_rfl
  have hwait : ∀ t, c + dt ≤ t → t < r → ∀ x ∈ p.portBusyUntil, t < x := by
    intro t hct htr x hx
    rcases hspec with ⟨-, hrc⟩ | ⟨-, hall, -⟩
    · omega
    · exact lt_of_lt_of_le htr (hall x hx)
  have hfull : ∀ t, c + dt ≤ t → t < r → running p.ocp t starts = n := by
    intro t hct htr
    rw [h.inUse t (by omega), busyAt, List.countP_eq_length.2, h.units]
    exact fun x hx => decide_eq_true (hwait t hct htr x hx)
  have hsorted : ∀ s ∈ starts, s ≤ r := by
    intro s hs
    have := h.past s hs b hbmem
    omega
  have hlater : ∀ t, c + dt ≤ t → running p.ocp t (starts ++ [r]) =
      PortNPipe.busyAt { p with portBusyUntil := p.portBusyUntil.set k (r + p.ocp) } t := by
    intro t hct
    have hset := busyAt_set (e := r + p.ocp) hk t
    have huse := h.inUse t (by omega)
    -- before the start, the unit is in use by an earlier grant
    have hbefore : t < r → t < b := fun htr => hwait t hct htr b hbmem
    rw [running_append, running_single, huse]
    split_ifs at hset ⊢ <;> omega
  have hunits : (p.portBusyUntil.set k (r + p.ocp)).length = n := by rw [List.length_set, h.units]
  refine ⟨hclock, hsorted, hfull, rfl, hunits, fun t => ?_, hlater, ?_⟩
  · by_cases hct : c + dt ≤ t
    · rw [hlater t hct]
      exact le_trans (busyAt_le _ t) hunits.le
    · -- nothing new is granted before the clock
      rw [running_append, running_single, if_neg (by omega)]
      exact h.atMost t
  · intro s hs x hx
    have hsr : s ≤ r := by
      rcases List.mem_append.1 hs with hs | hs
      · exact hsorted s hs
      · exact (List.mem_singleton.1 hs).le
    rcases List.mem_or_eq_of_mem_set hx with hx | rfl
    · rcases hspec with ⟨-, hrc⟩ | ⟨-, hall, -⟩
      · omega
      · have := hall x hx
        omega
    · omega

theorem fair_new (n occ c : ℕ) : Fair n c (.new n occ c) [] where
  units := List.length_replicate
  atMost t := Nat.zero_le _
  inUse t ht := by
    have hzero : (PortNPipe.new n occ c).busyAt t = 0 := by
      refine List.countP_eq_zero.2 fun b hb => ?_
      rw [List.eq_of_mem_replicate hb, decide_eq_true_eq]
      omega
    rw [hzero]
    rfl
  past s hs := by cases hs

/-- **What the users are promised** of the grants `gs`, behind the grants that started at `starts`. -/
structure Promised (n occ : ℕ) (starts : List ℕ) (gs : List (ℕ × ℕ)) : Prop where
  /-- no start is before the clock of its call -/
  notEarly : ∀ g ∈ gs, g.1 ≤ g.2
  sorted : (gs.map Prod.snd).Pairwise (· ≤ ·)
  behind : ∀ g ∈ gs, ∀ s ∈ starts, s ≤ g.2
  /-- no more uses than units at once -/
  atMost : ∀ t, running occ t (starts ++ gs.map Prod.snd) ≤ n
  /-- while a request waits, every unit is in use -/
  noDelay : ∀ gs₁ g gs₂, gs = gs₁ ++ g :: gs₂ → ∀ t, g.1 ≤ t → t < g.2 →
    running occ t (starts ++ gs₁.map Prod.snd) = n

/-- From a fair state on, every sequence of requests is served as promised. -/
theorem Fair.promised (h : Fair n c p starts) (hn : 1 ≤ n) (dts : List ℕ) :
    Promised n p.ocp starts (grants c p dts) := by
  induction dts generalizing c p starts with
  | nil =>
    refine ⟨fun g hg => (by cases hg), List.Pairwise.nil, fun g hg => (by cases hg), fun t => ?_, fun gs₁ g gs₂ hgs => ?_⟩
    · rw [grants, List.map_nil, List.append_nil]
      exact h.atMost t
    · cases gs₁ <;> cases hgs
  | cons dt dts ih =>
    obtain ⟨hclock, hsorted, hfull, hocp, hnext⟩ := h.nextSlot hn dt
    have hrest := ih hnext
    rw [hocp] at hrest
    rw [grants]
    have hassoc : ∀ l : List ℕ, starts ++ (p.nextSlot (c + dt)).1 :: l = starts ++ [(p.nextSlot (c + dt)).1] ++ l :=
      fun l => (List.append_cons _ _ _)
    refine ⟨?_, ?_, ?_, fun t => ?_, fun gs₁ g gs₂ hgs t => ?_⟩
    · intro g hg
      rcases List.mem_cons.1 hg with rfl | hg
      · exact hclock
      · exact hrest.notEarly g hg
    · rw [List.map_cons, List.pairwise_cons]
      refine ⟨fun s hs => ?_, hrest.sorted⟩
      obtain ⟨g, hg, rfl⟩ := List.mem_map.1 hs
      exact hrest.behind g hg _ (List.mem_append_right _ (List.mem_singleton_self _))
    · intro g hg s hs
      rcases List.mem_cons.1 hg with rfl | hg
      · exact hsorted s hs
      · exact hrest.behind g hg s (List.mem_append_left _ hs)
    · rw [List.map_cons, hassoc]
      exact hrest.atMost t
    · cases gs₁ with
      | nil =>
        obtain ⟨rfl, -⟩ := List.cons.inj hgs
        rw [List.map_nil, List.append_nil]
        exact hfull t
      | cons g₁ gs₁ =>
        obtain ⟨rfl, htail⟩ := List.cons.inj hgs
        rw [List.map_cons, hassoc]
        exact hrest.noDelay gs₁ g gs₂ htail t

/-- `calcNextSlot` gives the start of the next call. -/
theorem nextSlot_eq_calcNextSlot (p : PortNPipe) (c : ℕ) : p.calcNextSlot c = (p.nextSlot c).1 := by
  by_cases hne : p.portBusyUntil = []
  · unfold calcNextSlot nextSlot nextSlotOcc
    rw [hne]
  · obtain ⟨k, b, r, hr, hk, hspec⟩ := p.nextSlotOcc_spec c p.ocp hne
    obtain ⟨m, hm, hmin, hcalc⟩ := p.calcNextSlot_spec c hne
    have hmb := hmin b (List.mem_of_getElem? hk)
    rw [PortNPipe.nextSlot, hr, hcalc]
    show max c m = r
    rcases hspec with ⟨hb, rfl⟩ | ⟨rfl, hall, hbusy⟩
    · omega
    · have := hall m hm
      have := hbusy m hm
      omega

end PortNPipe

/-- In every state of a port of any class, `calcNextSlot` gives the start of the next call. -/
theorem calcNextSlot_eq_nextSlot (p : PortGeneric) (c : ℕ) : p.calcNextSlot c = (p.nextSlot c).1 := by
  cases p with
  | unlimited p => rfl
  | fullyPipe p => rfl
  | fullyNPipe p => exact (p.nextSlot_eq c).symm
  | pipe p => rfl
  | nPipe p => exact p.nextSlot_eq_calcNextSlot c

/-- **Port capacity.** A `PortNPipe` keeps its promises along every sequence of `nextSlot` calls whose clock does
not go back. A port of any class, in whatever state, tells the next start without being used. -/
theorem port_capacity {n : ℕ} (hn : 1 ≤ n) (occ globalClock : ℕ) (dts : List ℕ) :
    PortNPipe.Promised n occ [] (PortNPipe.grants globalClock (.new n occ globalClock) dts) ∧
      ∀ (p : PortGeneric) (c : ℕ), p.calcNextSlot c = (p.nextSlot c).1 :=
  ⟨(PortNPipe.fair_new n occ globalClock).promised hn dts, calcNextSlot_eq_nextSlot⟩

/-- Three units with occupancy two, used four times in cycle 5 and once in cycle 6. -/
theorem port_capacity_three_two :
    PortNPipe.grants 5 (.new 3 2 5) [0, 0, 0, 0, 1] = [(5, 5), (5, 5), (5, 5), (5, 7), (6, 7)] ∧
      PortNPipe.Promised 3 2 [] (PortNPipe.grants 5 (.new 3 2 5) [0, 0, 0, 0, 1]) :=
  ⟨by decide, (port_capacity (by decide) 2 5 [0, 0, 0, 0, 1]).1⟩

end Esesc.Suc
