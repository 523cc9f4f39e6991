import Mathlib.Tactic.Common
import Mathlib.Data.List.Basic
import Mathlib.Logic.Function.Basic

/-!
# `RoutingTable`

The wires a router may send a message through, for every destination, and the turns it takes with
them.

* `fill_succs`: the loop of `RoutingPolicy::make` that fills a table, without and with
  `fixMessagePath`.
* `getWire_mem`, `Used.succs`: what a lookup answers, whatever has been looked up before.
-/

namespace Esesc.Net

/-! ## Ports -/

abbrev DISABLED_PORT : ℕ := 0
abbrev UP_PORT : ℕ := 1
abbrev DOWN_PORT : ℕ := 2
abbrev RIGHT_PORT : ℕ := 3
abbrev LEFT_PORT : ℕ := 4
abbrev LOCAL_PORT1 : ℕ := 100

/-- A wire to the router `rID`, and how far its destination is through it. -/
structure Wire where
  rID : ℕ
  port : ℕ
  dist : ℕ
  deriving DecidableEq

structure Wires4Router where
  succs : List Wire
  prevTurn : ℕ

/-- The vector `nextHop` is its size and its elements. -/
structure RoutingTable where
  fixMessagePath : Bool
  size : ℕ
  nextHop : ℕ → Wires4Router

namespace RoutingTable

/-- The constructor: `nextHop.resize(size)`. -/
def new (fixMessagePath : Bool) (size : ℕ) : RoutingTable := ⟨fixMessagePath, size, fun _ => ⟨[], 0⟩⟩

/-- `cntr[port]`: for how many destinations the first wire uses the port. -/
def cntr (t : RoutingTable) (port : ℕ) : ℕ :=
  (List.range t.size).countP fun i => (t.nextHop i).succs.head?.map Wire.port = some port

def setSuccs (t : RoutingTable) (id : ℕ) (ws : List Wire) : RoutingTable :=
  { t with nextHop := Function.update t.nextHop id { t.nextHop id with succs := ws } }

def addNeighborWire (t : RoutingTable) (id : ℕ) (wire : Wire) : RoutingTable :=
  let t := { t with size := max t.size id }
  match t.fixMessagePath, (t.nextHop id).succs with
  | true, first :: _ =>
    if t.cntr first.port > t.cntr wire.port then
      -- the new wire uses a port less used
      t.setSuccs id [wire]
    else t
  | _, succs => t.setSuccs id (succs ++ [wire])

/-- The wire to use next, none if the destination has no wire. -/
def getWire (t : RoutingTable) (destid : ℕ) : Option Wire × RoutingTable :=
  let w := t.nextHop destid
  let pos := if t.fixMessagePath = true ∨ w.succs.length ≤ w.prevTurn + 1 then 0 else w.prevTurn + 1
  (w.succs[pos]?, { t with nextHop := Function.update t.nextHop destid { w with prevTurn := pos } })

/-- The loop of `RoutingPolicy::make` over the wires to a destination. -/
def addWires (j : ℕ) (ws : List Wire) (t : RoutingTable) : RoutingTable :=
  ws.foldl (fun t w => t.addNeighborWire j w) t

/-- And that over the destinations. -/
def fill (t : RoutingTable) (n : ℕ) (row : ℕ → List Wire) : RoutingTable :=
  (List.range n).foldl (fun t j => t.addWires j (row j)) t

variable {t t' : RoutingTable} {id j n : ℕ} {ws : List Wire} {w : Wire}

/-! ## Adding wires -/

@[simp] theorem setSuccs_self : ((t.setSuccs id ws).nextHop id).succs = ws := by simp [setSuccs]

theorem setSuccs_of_ne (h : j ≠ id) : (t.setSuccs id ws).nextHop j = t.nextHop j := by simp [setSuccs, h]

theorem addNeighborWire_append (h : t.fixMessagePath = false ∨ (t.nextHop id).succs = []) :
    ((t.addNeighborWire id w).nextHop id).succs = (t.nextHop id).succs ++ [w] := by
  simp only [addNeighborWire]
  split
  · rename_i hfix hsuccs
    rcases h with h | h
    · simp [hfix] at h
    · simp [hsuccs] at h
  · exact setSuccs_self

/-- With `fixMessagePath` the second wire of a destination is never added. -/
theorem addNeighborWire_fix (hfix : t.fixMessagePath = true) (h : (t.nextHop id).succs ≠ []) :
    ((t.addNeighborWire id w).nextHop id).succs = [w] ∨
      ((t.addNeighborWire id w).nextHop id).succs = (t.nextHop id).succs := by
  obtain ⟨first, rest, hsuccs⟩ := List.exists_cons_of_ne_nil h
  simp only [addNeighborWire, hfix, hsuccs]
  split
  · exact .inl setSuccs_self
  · exact .inr hsuccs

@[simp] theorem addNeighborWire_fixMessagePath : (t.addNeighborWire id w).fixMessagePath = t.fixMessagePath := by
  simp only [addNeighborWire]
  split
  · split <;> rfl
  · rfl

theorem addNeighborWire_of_ne (h : j ≠ id) : (t.addNeighborWire id w).nextHop j = t.nextHop j := by
  simp only [addNeighborWire]
  split
  · split
    · exact setSuccs_of_ne h
    · rfl
  · exact setSuccs_of_ne h

/-! ## Filling a table -/

/-- What a table keeps of the wires to a destination: all, or with `fixMessagePath` one. -/
def Kept (fixMessagePath : Bool) (ws succs : List Wire) : Prop :=
  if fixMessagePath = true then ∃ w ∈ ws, succs = [w] else succs = ws

theorem Kept.subset {fix : Bool} (h : Kept fix ws succs) : succs ⊆ ws := by
  cases fix with
  | false =>
    simp only [Kept, Bool.false_eq_true, if_false] at h
    simp [h]
  | true =>
    simp only [Kept, if_true] at h
    obtain ⟨w, hw, rfl⟩ := h
    simpa using hw

theorem Kept.ne_nil {fix : Bool} (h : Kept fix ws succs) (hws : ws ≠ []) : succs ≠ [] := by
  cases fix with
  | false =>
    simp only [Kept, Bool.false_eq_true, if_false] at h
    simpa [h] using hws
  | true =>
    simp only [Kept, if_true] at h
    obtain ⟨w, -, rfl⟩ := h
    simp

theorem addWires_cons : t.addWires j (w :: ws) = (t.addNeighborWire j w).addWires j ws := rfl

theorem addWires_fixMessagePath (ws : List Wire) : (t.addWires j ws).fixMessagePath = t.fixMessagePath := by
  induction ws generalizing t with
  | nil => rfl
  | cons w ws ih => rw [addWires_cons, ih, addNeighborWire_fixMessagePath]

theorem addWires_of_ne (h : id ≠ j) (ws : List Wire) : (t.addWires j ws).nextHop id = t.nextHop id := by
  induction ws generalizing t with
  | nil => rfl
  | cons w ws ih => rw [addWires_cons, ih, addNeighborWire_of_ne h]

/-- All wires are added in their order. -/
theorem addWires_all (ws : List Wire) (hfix : t.fixMessagePath = false) :
    ((t.addWires j ws).nextHop j).succs = (t.nextHop j).succs ++ ws := by
  induction ws generalizing t with
  | nil => simp [addWires]
  | cons w ws ih =>
    have hone : ((t.addNeighborWire j w).nextHop j).succs = (t.nextHop j).succs ++ [w] :=
      addNeighborWire_append (.inl hfix)
    rw [addWires_cons, ih (by simpa using hfix), hone, List.append_assoc, List.singleton_append]

/-- One of them is in the table at every time once there is one. -/
theorem addWires_one (ws : List Wire) (hfix : t.fixMessagePath = true) {v : Wire} (hv : (t.nextHop j).succs = [v]) :
    ∃ w ∈ v :: ws, ((t.addWires j ws).nextHop j).succs = [w] := by
  induction ws generalizing t v with
  | nil => exact ⟨v, List.mem_singleton_self v, hv⟩
  | cons u ws ih =>
    have hne : (t.nextHop j).succs ≠ [] := by simp [hv]
    rw [addWires_cons]
    rcases addNeighborWire_fix (w := u) hfix hne with h | h
    · -- the new one takes the place of the old
      obtain ⟨w, hw, heq⟩ := ih (by simpa using hfix) h
      exact ⟨w, List.mem_cons_of_mem v hw, heq⟩
    · obtain ⟨w, hw, heq⟩ := ih (by simpa using hfix) (h.trans hv)
      refine ⟨w, ?_, heq⟩
      rcases List.mem_cons.1 hw with rfl | hw
      · exact List.mem_cons_self
      · exact List.mem_cons_of_mem v (List.mem_cons_of_mem u hw)

theorem addWires_kept (hempty : (t.nextHop j).succs = []) (hws : ws ≠ []) :
    Kept t.fixMessagePath ws ((t.addWires j ws).nextHop j).succs := by
  cases hfix : t.fixMessagePath with
  | false =>
    have hall := addWires_all (j := j) ws hfix
    simpa [Kept, hempty] using hall
  | true =>
    obtain ⟨v, ws, rfl⟩ := List.exists_cons_of_ne_nil hws
    -- the first wire is added to none
    have hone : ((t.addNeighborWire j v).nextHop j).succs = [v] := by
      rw [addNeighborWire_append (.inr hempty), hempty, List.nil_append]
    have hrest := addWires_one (j := j) ws (by simpa using hfix) hone
    simpa [Kept, addWires_cons] using hrest

/-- The table after the destinations below `n`: those have their wires, the others none. -/
theorem fill_spec (fix : Bool) (size : ℕ) (row : ℕ → List Wire) (n : ℕ) (hrow : ∀ j < n, row j ≠ []) :
    ((new fix size).fill n row).fixMessagePath = fix ∧
      (∀ j < n, Kept fix (row j) (((new fix size).fill n row).nextHop j).succs) ∧
      ∀ j, n ≤ j → (((new fix size).fill n row).nextHop j).succs = [] := by
  induction n with
  | zero => exact ⟨rfl, fun _ hj => absurd hj (Nat.not_lt_zero _), fun _ _ => rfl⟩
  | succ n ih =>
    obtain ⟨hfix, hdone, htodo⟩ := ih fun j hj => hrow j (by omega)
    have hsucc : (new fix size).fill (n + 1) row = ((new fix size).fill n row).addWires n (row n) := by
      simp [fill, List.range_succ]
    rw [hsucc]
    refine ⟨(addWires_fixMessagePath _).trans hfix, fun j hj => ?_, fun j hj => ?_⟩
    · by_cases hjn : j = n
      · subst hjn
        have hkept := addWires_kept (htodo j (Nat.le_refl j)) (hrow j hj)
        rwa [hfix] at hkept
      · rw [addWires_of_ne hjn]
        exact hdone j (by omega)
    · rw [addWires_of_ne (by omega)]
      exact htodo j (by omega)

/-- **Filling.** A table has every wire of every destination, with `fixMessagePath` one for each. -/
theorem fill_succs {fix : Bool} {size : ℕ} {row : ℕ → List Wire} (hrow : ∀ j < n, row j ≠ []) (hj : j < n) :
    Kept fix (row j) (((new fix size).fill n row).nextHop j).succs :=
  (fill_spec fix size row n hrow).2.1 j hj

/-! ## Lookups -/

/-- `t'` is `t` after some lookups. -/
inductive Used (t : RoutingTable) : RoutingTable → Prop
  | refl : Used t t
  | getWire {t' : RoutingTable} (destid : ℕ) : Used t t' → Used t (t'.getWire destid).2

/-- **A lookup** answers one of the wires to the destination. -/
theorem getWire_mem (h : (t.nextHop id).succs ≠ []) : ∃ w ∈ (t.nextHop id).succs, (t.getWire id).1 = some w := by
  have hlen : 0 < (t.nextHop id).succs.length := List.length_pos_iff.2 h
  have hpos : ∃ pos < (t.nextHop id).succs.length, (t.getWire id).1 = (t.nextHop id).succs[pos]? := by
    simp only [getWire]
    split
    · exact ⟨0, hlen, rfl⟩
    · exact ⟨_, by omega, rfl⟩
  obtain ⟨pos, hlt, heq⟩ := hpos
  exact ⟨_, List.getElem_mem hlt, heq.trans (List.getElem?_eq_getElem hlt)⟩

theorem getWire_succs : (((t.getWire id).2).nextHop j).succs = (t.nextHop j).succs := by
  by_cases hj : j = id
  · subst hj
    simp [getWire]
  · simp [getWire, hj]

/-- It changes no wires. -/
theorem Used.succs (h : Used t t') : (t'.nextHop j).succs = (t.nextHop j).succs := by
  induction h with
  | refl => rfl
  | getWire destid _ ih => exact getWire_succs.trans ih

end RoutingTable

end Esesc.Net
