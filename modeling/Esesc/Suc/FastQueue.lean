import Esesc.Lib.Machine
import Esesc.Lib.Ring
import Mathlib.Data.BitVec
import Mathlib.Data.Nat.Log
import Mathlib.Tactic.Common

/-!
# The fast queue (`misc/libsuc/FastQueue.h`)

`FastQueue` keeps its elements in a ring with the least power of two of cells that is not smaller than the size that
was asked for. `start`, `end` and `nElems` are words.

* `roundUp_eq`: the loop of the constructor.
* `Carries.push`, `Carries.pop`: the operations in terms of a list.
* `Carries.visit`: an iteration from `getIdFromTop(0)` to `isEnd` visits the list, unless it fills the ring.
* `run_top_size`, `agrees_iff`: what agrees with a list in every run, and when the iteration does.
* `not_agrees`: a full queue that an iteration takes for an empty one.
-/

namespace Esesc.Suc

open Esesc.Lib

structure FastQueue (α : Type*) where
  pipe : BitVec 32 → α
  pipeMask : BitVec 32
  start : BitVec 32
  end_ : BitVec 32
  nElems : BitVec 32

namespace FastQueue

variable {α : Type*}

/-- `while(pipeMask & (pipeMask - 1)) pipeMask++`. -/
def roundUp (pipeMask : BitVec 32) : BitVec 32 :=
  if pipeMask &&& (pipeMask - 1) = 0 then pipeMask else roundUp (pipeMask + 1)
termination_by (-pipeMask).toNat
decreasing_by
  rename_i h
  have hne : pipeMask ≠ 0 := by
    rintro rfl
    exact h (by decide)
  bv_omega

/-- The constructor. The cells hold whatever memory held. -/
def new (pipe : BitVec 32 → α) (size : ℕ) : FastQueue α := ⟨pipe, roundUp (BitVec.ofNat 32 size) - 1, 0, 0, 0⟩

variable (q : FastQueue α)

def push (d : α) : FastQueue α :=
  { q with
    pipe := Function.update q.pipe q.end_ d
    end_ := (q.end_ + 1) &&& q.pipeMask
    nElems := q.nElems + 1 }

def top : α := q.pipe q.start

def pop : FastQueue α := { q with nElems := q.nElems - 1, start := (q.start + 1) &&& q.pipeMask }

def getIdFromTop (i : BitVec 32) : BitVec 32 := (q.start + i) &&& q.pipeMask

def getNextId (id : BitVec 32) : BitVec 32 := (id + 1) &&& q.pipeMask

def isEnd (id : BitVec 32) : Bool := id = q.end_

def getData (id : BitVec 32) : α := q.pipe id

def size : ℕ := q.nElems.toNat

/-- `for(id = ..; !isEnd(id); id = getNextId(id))`, with the data on the way. -/
def visit : ℕ → BitVec 32 → Option (List α)
  | 0, _ => none
  | fuel + 1, id => if q.isEnd id then some [] else (visit fuel (q.getNextId id)).map (q.getData id :: ·)

/-! ## The constructor -/

section Cells

variable {k n : ℕ}

theorem two_pow_lt (hk : k < 32) : 2 ^ k < 2 ^ 32 := Nat.pow_lt_pow_right (by decide) hk

/-- The test of the loop. -/
theorem and_sub_one_eq_zero_iff (hpos : 0 < n) (hn : n < 2 ^ 32) :
    BitVec.ofNat 32 n &&& (BitVec.ofNat 32 n - 1) = 0 ↔ n.isPowerOfTwo := by
  have hpred : BitVec.ofNat 32 n - 1 = BitVec.ofNat 32 (n - 1) :=
    BitVec.ofNat_sub_ofNat_of_le n 1 (by decide) hpos
  rw [hpred, ← BitVec.toNat_inj, BitVec.toNat_and, BitVec.toNat_ofNat, BitVec.toNat_ofNat, Nat.mod_eq_of_lt hn,
    Nat.mod_eq_of_lt (by omega : n - 1 < 2 ^ 32)]
  exact Nat.and_sub_one_eq_zero_iff_isPowerOfTwo hpos.ne'

/-- **The loop** ends at the least power of two that is not smaller. -/
theorem roundUp_eq (hk : k < 32) (hpos : 0 < n) (hn : n ≤ 2 ^ k) (hleast : ∀ j, n ≤ 2 ^ j → k ≤ j) :
    roundUp (BitVec.ofNat 32 n) = BitVec.ofNat 32 (2 ^ k) := by
  have hlt := two_pow_lt hk
  induction hd : 2 ^ k - n generalizing n with
  | zero =>
    obtain rfl : n = 2 ^ k := by omega
    rw [roundUp, if_pos ((and_sub_one_eq_zero_iff hpos hlt).2 ⟨k, rfl⟩)]
  | succ d ih =>
    -- a power of two from `n` on is not below the least one
    have hnot : ¬n.isPowerOfTwo := by
      rintro ⟨j, hj⟩
      have hle : 2 ^ k ≤ 2 ^ j := Nat.pow_le_pow_right (by decide) (hleast j hj.le)
      omega
    have hnext : BitVec.ofNat 32 n + 1 = BitVec.ofNat 32 (n + 1) := (BitVec.ofNat_add ..).symm
    rw [roundUp, if_neg fun h => hnot ((and_sub_one_eq_zero_iff hpos (by omega)).1 h), hnext]
    exact ih (by omega) (by omega) (fun j hj => hleast j (by omega)) (by omega)

/-- A position of the ring, as an index. -/
def cell (k i : ℕ) : BitVec 32 := BitVec.ofNat 32 (i % 2 ^ k)

theorem toNat_cell (hk : k < 32) (i : ℕ) : (cell k i).toNat = i % 2 ^ k := by
  have hlt := two_pow_lt hk
  have hmod : i % 2 ^ k < 2 ^ k := Nat.mod_lt _ (Nat.two_pow_pos k)
  rw [cell, BitVec.toNat_ofNat]
  exact Nat.mod_eq_of_lt (by omega)

theorem isRing_cell (hk : k < 32) : IsRing (cell k) (2 ^ k) := by
  intro i j
  rw [← BitVec.toNat_inj, toNat_cell hk, toNat_cell hk]

/-- What the mask does. -/
theorem cell_add (hk : k < 32) (i j : ℕ) :
    (cell k i + BitVec.ofNat 32 j) &&& BitVec.ofNat 32 (2 ^ k - 1) = cell k (i + j) := by
  have hlt := two_pow_lt hk
  have hdvd : 2 ^ k ∣ 2 ^ 32 := Nat.pow_dvd_pow 2 hk.le
  rw [← BitVec.toNat_inj, BitVec.toNat_and, BitVec.toNat_add, toNat_cell hk, toNat_cell hk, BitVec.toNat_ofNat,
    BitVec.toNat_ofNat, Nat.mod_eq_of_lt (by omega : 2 ^ k - 1 < 2 ^ 32), Nat.and_two_pow_sub_one_eq_mod,
    Nat.mod_mod_of_dvd _ hdvd, Nat.add_mod, Nat.mod_mod, Nat.mod_mod_of_dvd _ hdvd, ← Nat.add_mod]

end Cells

/-! ## The queue as a list -/

/-- **What a queue stands for**, after `out` elements were taken from it. -/
structure Carries (k : ℕ) (q : FastQueue α) (out : ℕ) (l : List α) : Prop where
  pipeMask : q.pipeMask = BitVec.ofNat 32 (2 ^ k - 1)
  start : q.start = cell k out
  end_ : q.end_ = cell k (out + l.length)
  nElems : q.nElems = BitVec.ofNat 32 l.length
  holds : Holds (cell k) q.pipe out l
  room : l.length ≤ 2 ^ k

section Carries

variable {q} {k out : ℕ} {l : List α} {x d : α}

theorem carries_new (pipe : BitVec 32 → α) {size : ℕ} (hpos : 0 < size) (hsize : size ≤ 2 ^ 31) :
    (new pipe size).Carries (Nat.clog 2 size) 0 [] where
  pipeMask := by
    have hk : Nat.clog 2 size < 32 := Nat.lt_succ_of_le (Nat.clog_le_of_le_pow hsize)
    show roundUp (BitVec.ofNat 32 size) - 1 = _
    rw [roundUp_eq hk hpos (Nat.le_pow_clog (by decide) size) fun j hj => Nat.clog_le_of_le_pow hj]
    exact BitVec.ofNat_sub_ofNat_of_le _ 1 (by decide) (Nat.two_pow_pos _)
  start := by rw [cell, Nat.zero_mod]; rfl
  end_ := by rw [List.length_nil, cell, Nat.zero_mod]; rfl
  nElems := rfl
  holds := .nil
  room := Nat.zero_le _

/-- Only cells of the ring are read and written. -/
theorem Carries.index_le (h : q.Carries k out l) (hk : k < 32) :
    q.start.toNat ≤ q.pipeMask.toNat ∧ q.end_.toNat ≤ q.pipeMask.toNat := by
  have hlt := two_pow_lt hk
  have hmask : q.pipeMask.toNat = 2 ^ k - 1 := by
    rw [h.pipeMask, BitVec.toNat_ofNat]
    exact Nat.mod_eq_of_lt (by omega)
  rw [hmask, h.start, h.end_, toNat_cell hk, toNat_cell hk]
  have hout := Nat.mod_lt out (Nat.two_pow_pos k)
  have hin := Nat.mod_lt (out + l.length) (Nat.two_pow_pos k)
  omega

theorem Carries.push (h : q.Carries k out l) (hk : k < 32) (hroom : l.length < 2 ^ k) (d : α) :
    (q.push d).Carries k out (l ++ [d]) where
  pipeMask := h.pipeMask
  start := h.start
  end_ := by
    show (q.end_ + 1) &&& q.pipeMask = cell k (out + (l ++ [d]).length)
    rw [h.end_, h.pipeMask, List.length_append, List.length_singleton, ← Nat.add_assoc]
    exact cell_add hk _ 1
  nElems := by
    show q.nElems + 1 = _
    rw [h.nElems, List.length_append, List.length_singleton, BitVec.ofNat_add]
    rfl
  holds := by
    have hwrite := h.holds.write (isRing_cell hk) hroom d
    rw [← h.end_] at hwrite
    refine hwrite.concat ?_
    rw [← h.end_]
    exact Function.update_self ..
  room := by
    rw [List.length_append, List.length_singleton]
    omega

theorem Carries.pop (h : q.Carries k out (x :: l)) (hk : k < 32) : q.pop.Carries k (out + 1) l where
  pipeMask := h.pipeMask
  start := by
    show (q.start + 1) &&& q.pipeMask = _
    rw [h.start, h.pipeMask]
    exact cell_add hk _ 1
  end_ := by
    have hend := h.end_
    rw [List.length_cons, ← Nat.add_assoc, Nat.add_right_comm] at hend
    exact hend
  nElems := by
    show q.nElems - 1 = _
    rw [h.nElems, List.length_cons, BitVec.ofNat_add]
    exact BitVec.add_sub_cancel ..
  holds := h.holds.tail
  room := Nat.le_of_succ_le h.room

theorem Carries.size (h : q.Carries k out l) (hk : k < 32) : q.size = l.length := by
  have hlt := two_pow_lt hk
  have hroom := h.room
  rw [FastQueue.size, h.nElems, BitVec.toNat_ofNat]
  exact Nat.mod_eq_of_lt (by omega)

theorem Carries.top (h : q.Carries k out (x :: l)) : q.top = x := by
  rw [FastQueue.top, h.start]
  exact h.holds.head

theorem Carries.getIdFromTop (h : q.Carries k out l) (hk : k < 32) (i : ℕ) :
    q.getIdFromTop (BitVec.ofNat 32 i) = cell k (out + i) := by
  rw [FastQueue.getIdFromTop, h.start, h.pipeMask]
  exact cell_add hk out i

/-- From a cell on, an iteration visits the elements that are left. -/
theorem visit_of_holds (hk : k < 32) (hmask : q.pipeMask = BitVec.ofNat 32 (2 ^ k - 1)) {b : ℕ}
    (hholds : Holds (cell k) q.pipe b l) (hend : q.end_ = cell k (b + l.length)) (hroom : l.length < 2 ^ k) :
    q.visit (l.length + 1) (cell k b) = some l := by
  induction l generalizing b with
  | nil => exact if_pos (decide_eq_true hend.symm)
  | cons x l ih =>
    rw [List.length_cons] at hend hroom
    -- the end is less than one turn away
    have hne : cell k b ≠ q.end_ := by
      rw [hend]
      intro heq
      have := (isRing_cell hk).inj (b := b) (Nat.two_pow_pos k) hroom heq
      omega
    have hnext : q.getNextId (cell k b) = cell k (b + 1) := by
      rw [FastQueue.getNextId, hmask]
      exact cell_add hk b 1
    have hrest := ih hholds.tail (by rw [hend]; congr 1; omega) (by omega)
    rw [List.length_cons, visit, if_neg (by rw [isEnd, decide_eq_true_iff]; exact hne), hnext, hrest, getData,
      hholds.head]
    rfl

/-- **An iteration visits the queue**, in order, while a cell is free. -/
theorem Carries.visit (h : q.Carries k out l) (hk : k < 32) (hroom : l.length < 2 ^ k) :
    q.visit (l.length + 1) (q.getIdFromTop 0) = some l := by
  have hid : q.getIdFromTop 0 = cell k out := h.getIdFromTop hk 0
  rw [hid]
  exact visit_of_holds hk h.pipeMask h.holds h.end_ hroom

/-- **When no cell is free** it visits nothing: the end is where it starts. -/
theorem Carries.visit_full (h : q.Carries k out l) (hk : k < 32) (hfull : l.length = 2 ^ k) (fuel : ℕ) :
    q.visit fuel (q.getIdFromTop 0) ≠ some l := by
  have hid : q.getIdFromTop 0 = cell k out := h.getIdFromTop hk 0
  have hend : q.isEnd (cell k out) = true := by
    rw [isEnd, decide_eq_true_iff, h.end_, hfull, cell, cell, Nat.add_mod_right]
  have hpos := Nat.two_pow_pos k
  cases fuel with
  | zero => nofun
  | succ fuel =>
    rw [hid, FastQueue.visit, if_pos hend]
    intro heq
    obtain rfl := Option.some.inj heq
    rw [List.length_nil] at hfull
    omega

end Carries

/-! ## Runs -/

/-- A queue, with the list that it stands for. -/
structure Fifo (α : Type*) where
  queue : FastQueue α
  elems : List α

inductive Op (α : Type*)
  | push (d : α)
  | pop

namespace Fifo

def init (pipe : BitVec 32 → α) (size : ℕ) : Fifo α := ⟨new pipe size, []⟩

/-- At most `size` elements are queued, and only a queue that is not empty is popped. -/
def step (size : ℕ) (s : Fifo α) : Op α → Option (Fifo α)
  | .push d => if s.elems.length < size then some ⟨s.queue.push d, s.elems ++ [d]⟩ else none
  | .pop =>
    match s.elems with
    | [] => none
    | _ :: l => some ⟨s.queue.pop, l⟩

/-- **The queue agrees with the list.** -/
structure Agrees (s : Fifo α) : Prop where
  size : s.queue.size = s.elems.length
  top : ∀ x, s.elems.head? = some x → s.queue.top = x
  visit : ∃ fuel, s.queue.visit fuel (s.queue.getIdFromTop 0) = some s.elems

/-- The last element goes into a queue that has a cell more than it was asked for. -/
def Fits (size : ℕ) (s : Fifo α) : Op α → Prop
  | .push _ => size.isPowerOfTwo → s.elems.length + 1 < size
  | .pop => True

/-- What a run keeps. -/
def Queued (size : ℕ) (s : Fifo α) : Prop :=
  s.elems.length ≤ size ∧ ∃ out, s.queue.Carries (Nat.clog 2 size) out s.elems

section Runs

variable {size : ℕ} {s s' : Fifo α} {op : Op α} {ops : List (Op α)} {pipe : BitVec 32 → α}

theorem clog_lt (hsize : size ≤ 2 ^ 31) : Nat.clog 2 size < 32 := Nat.lt_succ_of_le (Nat.clog_le_of_le_pow hsize)

theorem step_queued (hsize : size ≤ 2 ^ 31) (hstep : step size s op = some s') (hs : Queued size s) :
    Queued size s' := by
  obtain ⟨hlen, out, hcarries⟩ := hs
  cases op with
  | push d =>
    rw [step, Option.ite_none_right_eq_some] at hstep
    obtain ⟨hroom, hstep⟩ := hstep
    obtain rfl := Option.some.inj hstep
    have hcells : size ≤ 2 ^ Nat.clog 2 size := Nat.le_pow_clog (by decide) size
    refine ⟨?_, out, hcarries.push (clog_lt hsize) (by omega) d⟩
    rw [List.length_append, List.length_singleton]
    exact hroom
  | pop =>
    rcases s with ⟨queue, _ | ⟨x, l⟩⟩
    · cases hstep
    · obtain rfl := Option.some.inj hstep
      exact ⟨Nat.le_of_succ_le hlen, out + 1, hcarries.pop (clog_lt hsize)⟩

theorem queued_init (pipe : BitVec 32 → α) (hpos : 0 < size) (hsize : size ≤ 2 ^ 31) : Queued size (init pipe size) :=
  ⟨Nat.zero_le _, 0, carries_new pipe hpos hsize⟩

theorem Queued.size_eq (hs : Queued size s) (hsize : size ≤ 2 ^ 31) : s.queue.size = s.elems.length := by
  obtain ⟨-, out, hcarries⟩ := hs
  exact hcarries.size (clog_lt hsize)

theorem Queued.top_eq (hs : Queued size s) {x : α} (hx : s.elems.head? = some x) : s.queue.top = x := by
  obtain ⟨-, out, hcarries⟩ := hs
  obtain ⟨l, hl⟩ := List.head?_eq_some_iff.1 hx
  rw [hl] at hcarries
  exact hcarries.top

/-- **Every run**, across any number of wrap-arounds. -/
theorem run_top_size (hpos : 0 < size) (hsize : size ≤ 2 ^ 31) (hrun : run (step size) (init pipe size) ops = some s) :
    s.queue.size = s.elems.length ∧ ∀ x, s.elems.head? = some x → s.queue.top = x := by
  have hs := run_inv (fun _ _ _ hstep hs => step_queued hsize hstep hs) hrun (queued_init pipe hpos hsize)
  exact ⟨hs.size_eq hsize, fun _ hx => hs.top_eq hx⟩

/-- A queue with a free cell agrees with the list. -/
theorem Queued.agrees (hs : Queued size s) (hsize : size ≤ 2 ^ 31) (hroom : s.elems.length < 2 ^ Nat.clog 2 size) :
    s.Agrees := by
  refine ⟨hs.size_eq hsize, fun _ hx => hs.top_eq hx, s.elems.length + 1, ?_⟩
  obtain ⟨-, out, hcarries⟩ := hs
  exact hcarries.visit (clog_lt hsize) hroom

theorem Queued.not_visited (hs : Queued size s) (hsize : size ≤ 2 ^ 31) (hfull : s.elems.length = 2 ^ Nat.clog 2 size) :
    ¬s.Agrees := by
  rintro ⟨-, -, fuel, hvisit⟩
  obtain ⟨-, out, hcarries⟩ := hs
  exact hcarries.visit_full (clog_lt hsize) hfull fuel hvisit

/-- A size that is not a power of two leaves a cell free. -/
theorem lt_cells (hsize : ¬size.isPowerOfTwo) : size < 2 ^ Nat.clog 2 size :=
  lt_of_le_of_ne (Nat.le_pow_clog (by decide) size) fun h => hsize ⟨_, h⟩

theorem cells_eq (hsize : size.isPowerOfTwo) : 2 ^ Nat.clog 2 size = size := by
  obtain ⟨k, rfl⟩ := hsize
  rw [Nat.clog_pow 2 k (by decide)]

theorem step_room (hstep : step size s op = some s') (hfits : Fits size s op)
    (hroom : s.elems.length < 2 ^ Nat.clog 2 size) (hle : s'.elems.length ≤ size) :
    s'.elems.length < 2 ^ Nat.clog 2 size := by
  by_cases hpow : size.isPowerOfTwo
  · -- all cells were asked for
    cases op with
    | push d =>
      rw [step, Option.ite_none_right_eq_some] at hstep
      obtain rfl := Option.some.inj hstep.2
      rw [cells_eq hpow, List.length_append, List.length_singleton]
      exact hfits hpow
    | pop =>
      rcases s with ⟨queue, _ | ⟨x, l⟩⟩
      · cases hstep
      · obtain rfl := Option.some.inj hstep
        exact Nat.lt_of_succ_lt hroom
  · -- a cell is free whatever is queued
    exact hle.trans_lt (lt_cells hpow)

/-- The push that fills the ring. -/
theorem step_full (hstep : step size s op = some s') (hfits : ¬Fits size s op) :
    s'.elems.length = 2 ^ Nat.clog 2 size := by
  cases op with
  | push d =>
    obtain ⟨hpow, hfull⟩ := Classical.not_imp.1 hfits
    rw [step, Option.ite_none_right_eq_some] at hstep
    obtain ⟨hlt, hstep⟩ := hstep
    obtain rfl := Option.some.inj hstep
    rw [cells_eq hpow, List.length_append, List.length_singleton]
    omega
  | pop => exact absurd trivial hfits

/-- **The iteration agrees** all along a run exactly when no push fills a queue whose size is a power of two. -/
theorem agrees_iff (hpos : 0 < size) (hsize : size ≤ 2 ^ 31) (hrun : run (step size) (init pipe size) ops = some s) :
    (∀ bs t, bs <+: ops → run (step size) (init pipe size) bs = some t → t.Agrees) ↔
      Along (step size) (Fits size) (init pipe size) ops := by
  refine forall_prefix_iff_along (D := fun _ _ => True)
    (I := fun s => Queued size s ∧ s.elems.length < 2 ^ Nat.clog 2 size) (fun s hs => hs.1.agrees hsize hs.2) ?_ ?_ hrun
    (Along.of_forall (fun _ _ => trivial) _ _) ⟨queued_init pipe hpos hsize, Nat.two_pow_pos _⟩
  · rintro s op s' hstep - hfits ⟨hs, hroom⟩
    have hs' := step_queued hsize hstep hs
    exact ⟨hs', step_room hstep hfits hroom hs'.1⟩
  · rintro s op s' hstep - hfits ⟨hs, -⟩
    have hs' := step_queued hsize hstep hs
    exact hs'.not_visited hsize (step_full hstep hfits)

instance Fits.decidable (size : ℕ) (s : Fifo α) : ∀ op, Decidable (Fits size s op)
  | .push _ => inferInstanceAs (Decidable (size.isPowerOfTwo → s.elems.length + 1 < size))
  | .pop => .isTrue trivial

theorem agrees_iff_three : ∃ s, run (step 3) (init (fun _ => 0) 3) [.push 5, .push 6, .push 7, .pop, .push 8] = some s ∧
    ∀ bs t, bs <+: [.push 5, .push 6, .push 7, .pop, .push 8] → run (step 3) (init (fun _ => 0) 3) bs = some t →
      t.Agrees := by
  obtain ⟨s, hs⟩ := Option.isSome_iff_exists.1 (by decide :
    (run (step 3) (init (fun _ => 0) 3) [.push 5, .push 6, .push 7, .pop, .push 8]).isSome = true)
  exact ⟨s, hs, (agrees_iff (by decide) (by decide) hs).2 (by decide)⟩

/-- **A full queue of four** looks empty to an iteration. -/
theorem not_agrees : ¬∀ (size : ℕ) (pipe : BitVec 32 → ℕ) (ops : List (Op ℕ)) (s : Fifo ℕ), 0 < size → size ≤ 2 ^ 31 →
    run (step size) (init pipe size) ops = some s → s.Agrees := by
  intro hall
  have hnew : new (fun _ => 0) 4 = (⟨fun _ => 0, 3, 0, 0, 0⟩ : FastQueue ℕ) := by
    rw [new, roundUp, if_pos (by decide)]
    rfl
  obtain ⟨fuel, hvisit⟩ := (hall 4 (fun _ => 0) [.push 5, .push 6, .push 7, .push 8] _ (by decide) (by decide)
    (by rw [init, hnew]; rfl)).visit
  cases fuel with
  | zero => cases hvisit
  | succ fuel => cases hvisit

end Runs

end Fifo

end FastQueue

end Esesc.Suc
