import Esesc.Lib.Machine
import Esesc.Lib.Ring
import Mathlib.Tactic.Ring

/-!
# The replay queue of dynamic instructions

`EmuDInstQueue` (`libemulint/EmuDInstQueue.{h,cpp}`) keeps the instructions of a flow from the
moment they are cracked until they retire. `tail` is the next to retire, `head` the next to
execute, `insertpoint` the next free cell of `trace`, a ring whose size is a power of two and
doubles when it fills. A replay puts `head` back to `tail`; the instructions in between are
cloned, and `ndrop` counts the retirements of the old copies still to come.

Above it stands `Cursor`: the list of all instructions ever added, how many have retired, and
where the reader is. Clones are new objects, so the two levels are compared through what a clone
copies (`Cloner`).

* `Rep.add`, `Rep.popHead`, `Rep.advanceTail`, `Rep.moveHead2Tail`: one operation.
* `Rep.adjustTrace`: growth moves the ring and nothing that is in it.
* `queue_refines_cursor`: every sequence of operations.
-/

namespace Esesc.Emul

open Esesc.Lib

variable {α β : Type*}

/-- `DInst::clone`: a new object with the same `payload`. -/
structure Cloner (α β : Type*) where
  clone : α → α
  payload : α → β
  payload_clone : ∀ x, payload (clone x) = payload x

/-- The queue; `trace` is the vector of instruction pointers, of `traceSize` cells. -/
structure EmuDInstQueue (α : Type*) where
  head : ℕ
  tail : ℕ
  ndrop : ℕ
  insertpoint : ℕ
  nFreeElems : ℕ
  traceSize : ℕ
  trace : ℕ → Option α

namespace EmuDInstQueue

def init : EmuDInstQueue α where
  head := 0
  tail := 0
  ndrop := 0
  insertpoint := 0
  nFreeElems := 1024
  traceSize := 1024
  trace := fun _ => none

/-- `i & (trace.size()-1)`. -/
def mask (q : EmuDInstQueue α) (i : ℕ) : ℕ := i &&& (q.traceSize - 1)

def empty (q : EmuDInstQueue α) : Bool := q.head == q.insertpoint

def size (q : EmuDInstQueue α) : ℕ := q.traceSize - q.nFreeElems

def getHead (q : EmuDInstQueue α) : Option α := q.trace q.head

def popHead (q : EmuDInstQueue α) : EmuDInstQueue α := { q with head := q.mask (q.head + 1) }

/-- The copying loop of `adjust_trace`, cell by cell: it reads below `n` and writes above. -/
def copyUp (trace : ℕ → Option α) (n tail : ℕ) : ℕ → ℕ → Option α
  | 0 => trace
  | i + 1 =>
    let t := copyUp trace n tail i
    Function.update t (n + i) (t ((tail + i) &&& (n - 1)))

def adjustTrace (q : EmuDInstQueue α) : EmuDInstQueue α :=
  let newTail := q.traceSize
  { q with
    traceSize := q.traceSize * 2
    trace := copyUp q.trace newTail q.tail newTail
    head := if q.head ≥ q.tail then newTail + q.head - q.tail else newTail + newTail - (q.tail - q.head)
    tail := newTail
    insertpoint := 0
    nFreeElems := newTail }

/-- The cell is filled through `getInsertPointRef`, or by `add(DInst *)` itself. -/
def add (q : EmuDInstQueue α) (d : α) : EmuDInstQueue α :=
  let q' := { q with
    trace := Function.update q.trace q.insertpoint (some d)
    insertpoint := q.mask (q.insertpoint + 1)
    nFreeElems := q.nFreeElems - 1 }
  if q'.nFreeElems = 0 then q'.adjustTrace else q'

def advanceTail (q : EmuDInstQueue α) : Bool × EmuDInstQueue α :=
  if q.ndrop ≠ 0 then (true, { q with ndrop := q.ndrop - 1 })
  else if q.insertpoint = q.tail then (false, q)
  else (true, { q with tail := q.mask (q.tail + 1), nFreeElems := q.nFreeElems + 1 })

/-- The loop of `moveHead2Tail`; the fuel bounds its turns. -/
def cloneLoop (clone : α → α) : ℕ → EmuDInstQueue α → EmuDInstQueue α
  | 0, q => q
  | fuel + 1, q =>
    if q.head = q.tail then q
    else cloneLoop clone fuel { q with
      trace := Function.update q.trace q.tail ((q.trace q.tail).map clone)
      tail := q.mask (q.tail + 1)
      ndrop := (q.ndrop + 1) % 2 ^ 32 }

def moveHead2Tail (clone : α → α) (q : EmuDInstQueue α) : EmuDInstQueue α :=
  { cloneLoop clone q.traceSize q with head := q.tail, tail := q.tail }

/-- The operations the reader and the pipeline use. -/
inductive Op (α : Type*) where
  | add (d : α)
  /-- `getHead` and `popHead`, as `executeHead` calls them. -/
  | popHead
  | advanceTail
  | moveHead2Tail

/-- What an operation answers. -/
inductive Ret (α : Type*) where
  | none
  | inst (d : Option α)
  | bool (b : Bool)

/-- The assertions of the source. That of `advanceTail` is commented out there, and stands for
what the header comment says of the tail: it follows the head. -/
def Allowed (q : EmuDInstQueue α) : Op α → Prop
  | .add _ => q.nFreeElems ≠ 0 ∧ (q.nFreeElems = 1 → q.traceSize < 1024 * 64)
  | .popHead => q.empty = false
  | .advanceTail => q.ndrop = 0 → q.insertpoint ≠ q.tail → q.tail ≠ q.head
  | .moveHead2Tail => True

instance (q : EmuDInstQueue α) : ∀ o, Decidable (q.Allowed o)
  | .add _ => inferInstanceAs (Decidable (_ ∧ _))
  | .popHead => inferInstanceAs (Decidable (_ = _))
  | .advanceTail => inferInstanceAs (Decidable (_ → _))
  | .moveHead2Tail => inferInstanceAs (Decidable True)

def exec (clone : α → α) (q : EmuDInstQueue α) : Op α → Ret α × EmuDInstQueue α
  | .add d => (.none, q.add d)
  | .popHead => (.inst q.getHead, q.popHead)
  | .advanceTail => (.bool q.advanceTail.1, q.advanceTail.2)
  | .moveHead2Tail => (.none, q.moveHead2Tail clone)

end EmuDInstQueue

open EmuDInstQueue

/-- A queue in use, with its answers so far. -/
structure Session (α : Type*) where
  queue : EmuDInstQueue α
  answers : List (Ret α)

namespace Session

def init : Session α := ⟨.init, []⟩

def step (C : Cloner α β) (s : Session α) (o : Op α) : Option (Session α) :=
  if s.queue.Allowed o then
    some ⟨(s.queue.exec C.clone o).2, s.answers ++ [(s.queue.exec C.clone o).1]⟩
  else none

end Session

def EmuDInstQueue.Op.map (f : α → β) : Op α → Op β
  | .add d => .add (f d)
  | .popHead => .popHead
  | .advanceTail => .advanceTail
  | .moveHead2Tail => .moveHead2Tail

def EmuDInstQueue.Ret.map (f : α → β) : Ret α → Ret β
  | .none => .none
  | .inst d => .inst (d.map f)
  | .bool b => .bool b

/-- **The abstract queue**: everything added, how much of it retired, the next to read, and how
many retirements of replayed instructions are still to be ignored (a 32-bit counter). -/
structure Cursor (β : Type*) where
  added : List β
  retired : ℕ
  next : ℕ
  drop : ℕ

namespace Cursor

def init : Cursor β := ⟨[], 0, 0, 0⟩

def step (c : Cursor β) : Op β → Ret β × Cursor β
  | .add d => (.none, { c with added := c.added ++ [d] })
  | .popHead => (.inst c.added[c.next]?, { c with next := c.next + 1 })
  | .advanceTail =>
    if c.drop ≠ 0 then (.bool true, { c with drop := c.drop - 1 })
    else if c.retired = c.added.length then (.bool false, c)
    else (.bool true, { c with retired := c.retired + 1 })
  | .moveHead2Tail =>
    (.none, { c with next := c.retired, drop := (c.drop + (c.next - c.retired)) % 2 ^ 32 })

/-- Where a sequence of operations leads. -/
def after (c : Cursor β) (os : List (Op β)) : Cursor β := os.foldl (fun c o => (c.step o).2) c

end Cursor

section Refinement

/-- **Representation.** `items` are the pointers from `tail` to `insertpoint`; their payloads are
the instructions added and not yet retired, and `head` is where the cursor is. -/
structure Rep (C : Cloner α β) (q : EmuDInstQueue α) (c : Cursor β) (items : List α) : Prop where
  pow : ∃ k, q.traceSize = 2 ^ k
  tail_lt : q.tail < q.traceSize
  cells : Holds (· % q.traceSize) q.trace q.tail (items.map some)
  short : items.length < q.traceSize
  free : q.nFreeElems + items.length = q.traceSize
  insertpoint : q.insertpoint = (q.tail + items.length) % q.traceSize
  head : q.head = (q.tail + (c.next - c.retired)) % q.traceSize
  payload : items.map C.payload = c.added.drop c.retired
  retired_le : c.retired ≤ c.next
  next_le : c.next ≤ c.added.length
  ndrop : q.ndrop = c.drop
  drop_lt : c.drop < 2 ^ 32

theorem isRing_mod (n : ℕ) : IsRing (· % n) n := fun _ _ => Iff.rfl

theorem mask_eq {q : EmuDInstQueue α} (h : ∃ k, q.traceSize = 2 ^ k) (i : ℕ) : q.mask i = i % q.traceSize := by
  obtain ⟨k, hk⟩ := h
  rw [mask, hk, Nat.and_two_pow_sub_one_eq_mod]

variable {C : Cloner α β} {q : EmuDInstQueue α} {c : Cursor β} {items : List α}

theorem rep_init : Rep C init Cursor.init [] where
  pow := ⟨10, rfl⟩
  tail_lt := Nat.zero_lt_succ 1023
  cells := .nil
  short := Nat.zero_lt_succ 1023
  free := rfl
  insertpoint := rfl
  head := rfl
  payload := rfl
  retired_le := le_rfl
  next_le := le_rfl
  ndrop := rfl
  drop_lt := Nat.two_pow_pos 32

theorem Rep.length (h : Rep C q c items) : items.length = c.added.length - c.retired := by
  rw [← List.length_drop, ← h.payload, List.length_map]

theorem Rep.size (h : Rep C q c items) : q.size = c.added.length - c.retired := by
  have := h.free
  rw [← h.length, EmuDInstQueue.size]
  omega

/-- The head has caught up with the insertpoint exactly when everything was read: the ring
never fills. -/
theorem Rep.empty_iff (h : Rep C q c items) : q.empty = true ↔ c.next = c.added.length := by
  have hlen := h.length
  have hs := h.short
  have hr := h.retired_le
  have hn := h.next_le
  rw [EmuDInstQueue.empty, beq_iff_eq, h.head, h.insertpoint]
  constructor
  · intro he
    have := (isRing_mod q.traceSize).inj (by omega) hs he
    omega
  · intro he
    rw [he, ← hlen]

/-- What `getHead` returns is the instruction under the cursor. -/
theorem Rep.getHead (h : Rep C q c items) : q.getHead.map C.payload = c.added[c.next]? ∨ q.empty = true := by
  by_cases he : q.empty = true
  · exact .inr he
  have hr := h.retired_le
  have hn := h.next_le
  rw [h.empty_iff] at he
  have hlen := h.length
  have hi : c.next - c.retired < items.length := by omega
  refine .inl ?_
  have hcell : q.trace q.head = some items[c.next - c.retired] := by
    rw [h.head]
    refine h.cells _ _ ?_
    rw [List.getElem?_map, List.getElem?_eq_getElem hi]
    rfl
  have hpay : (items.map C.payload)[c.next - c.retired]? = c.added[c.next]? := by
    rw [h.payload, List.getElem?_drop]
    congr 1
    omega
  rw [EmuDInstQueue.getHead, hcell, ← hpay, List.getElem?_map, List.getElem?_eq_getElem hi]

theorem Rep.popHead (h : Rep C q c items) (hne : q.empty = false) :
    Rep C q.popHead { c with next := c.next + 1 } items := by
  have hr := h.retired_le
  have hn := h.next_le
  have he : c.next ≠ c.added.length := fun he => by simp [h.empty_iff.2 he] at hne
  refine { h with head := ?_, retired_le := Nat.le_succ_of_le hr, next_le := Nat.lt_of_le_of_ne hn he }
  show q.mask (q.head + 1) = (q.tail + (c.next + 1 - c.retired)) % q.traceSize
  rw [mask_eq h.pow, h.head, Nat.mod_add_mod]
  congr 1
  omega

/-- The copying loop moves the `n` cells from `tail` on to the upper half, in order. -/
theorem copyUp_apply (trace : ℕ → Option α) {n : ℕ} (tail : ℕ) (hn : ∃ k, n = 2 ^ k) (i k : ℕ) :
    copyUp trace n tail i k =
      if n ≤ k ∧ k < n + i then trace ((tail + (k - n)) % n) else trace k := by
  have hmask : ∀ j, j &&& (n - 1) = j % n := by
    obtain ⟨m, rfl⟩ := hn
    exact fun j => Nat.and_two_pow_sub_one_eq_mod j m
  have hpos : 0 < n := by
    obtain ⟨m, rfl⟩ := hn
    exact Nat.two_pow_pos m
  induction i generalizing k with
  | zero => rw [if_neg (by omega), copyUp]
  | succ i ih =>
    have hlt := Nat.mod_lt (tail + i) hpos
    simp only [copyUp]
    by_cases hk : k = n + i
    · subst hk
      rw [Function.update_self, hmask, ih, if_neg (by omega), if_pos (by omega), Nat.add_sub_cancel_left]
    · rw [Function.update_of_ne hk, ih]
      congr 1
      exact propext ⟨fun h => ⟨h.1, by omega⟩, fun h => ⟨h.1, by omega⟩⟩

/-- **Growth.** A queue that has just become full keeps its items, in order, and its cursor. -/
theorem Rep.adjustTrace (hpow : ∃ k, q.traceSize = 2 ^ k) (htail : q.tail < q.traceSize)
    (hcells : Holds (· % q.traceSize) q.trace q.tail (items.map some)) (hfull : items.length = q.traceSize)
    (hhead : q.head = (q.tail + (c.next - c.retired)) % q.traceSize)
    (hpay : items.map C.payload = c.added.drop c.retired) (hr : c.retired ≤ c.next)
    (hn : c.next < c.added.length) (hdrop : q.ndrop = c.drop) (hlt : c.drop < 2 ^ 32) :
    Rep C q.adjustTrace c items := by
  have hlen : items.length = c.added.length - c.retired := by
    rw [← List.length_drop, ← hpay, List.length_map]
  have hpos : 0 < q.traceSize := by omega
  refine ⟨?_, ?_, ?_, ?_, ?_, ?_, ?_, hpay, hr, hn.le, hdrop, hlt⟩
  · obtain ⟨k, hk⟩ := hpow
    exact ⟨k + 1, by rw [pow_succ, ← hk]; rfl⟩
  · show q.traceSize < q.traceSize * 2
    omega
  · -- position `i` of the new layout was copied from position `i` of the old one
    intro i x hx
    have hi : i < items.length := by
      have := (List.getElem?_eq_some_iff.1 hx).1
      rwa [List.length_map] at this
    show copyUp q.trace q.traceSize q.tail q.traceSize ((q.traceSize + i) % (q.traceSize * 2)) = x
    rw [Nat.mod_eq_of_lt (by omega), copyUp_apply _ _ hpow, if_pos (by omega), Nat.add_sub_cancel_left]
    exact hcells i x hx
  · show items.length < q.traceSize * 2
    omega
  · show q.traceSize + items.length = q.traceSize * 2
    omega
  · show 0 = (q.traceSize + items.length) % (q.traceSize * 2)
    rw [hfull, ← Nat.mul_two, Nat.mod_self]
  · -- the cursor is less than one turn ahead of the tail
    show (if q.head ≥ q.tail then _ else _) = (q.traceSize + (c.next - c.retired)) % (q.traceSize * 2)
    rw [Nat.mod_eq_of_lt (a := q.traceSize + (c.next - c.retired)) (by omega)]
    have hmod := hhead
    rcases Nat.lt_or_ge (q.tail + (c.next - c.retired)) q.traceSize with hw | hw
    · rw [Nat.mod_eq_of_lt hw] at hmod
      rw [if_pos (by omega)]
      omega
    · rw [Nat.mod_eq_sub_mod hw, Nat.mod_eq_of_lt (by omega)] at hmod
      rw [if_neg (by omega)]
      omega

theorem Rep.add (h : Rep C q c items) (d : α) :
    Rep C (q.add d) { c with added := c.added ++ [C.payload d] } (items ++ [d]) := by
  have hs := h.short
  have hf := h.free
  have hn := h.next_le
  have hr := h.retired_le
  have hpay : (items ++ [d]).map C.payload = (c.added ++ [C.payload d]).drop c.retired := by
    rw [List.map_append, h.payload, List.drop_append_of_le_length (by omega)]
    rfl
  have hcells : Holds (· % q.traceSize) (Function.update q.trace q.insertpoint (some d)) q.tail
      ((items ++ [d]).map some) := by
    have hw := h.cells.write (isRing_mod q.traceSize) (by rwa [List.length_map]) (some d)
    rw [List.length_map] at hw
    simp only [← h.insertpoint] at hw
    rw [List.map_append]
    refine hw.concat ?_
    rw [List.length_map, ← h.insertpoint, Function.update_self]
  have hins : q.mask (q.insertpoint + 1) = (q.tail + (items ++ [d]).length) % q.traceSize := by
    rw [mask_eq h.pow, h.insertpoint, Nat.mod_add_mod, List.length_append, List.length_singleton,
      Nat.add_assoc]
  have hadded : (c.added ++ [C.payload d]).length = c.added.length + 1 := by
    rw [List.length_append, List.length_singleton]
  have hlen : (items ++ [d]).length = items.length + 1 := by
    rw [List.length_append, List.length_singleton]
  unfold EmuDInstQueue.add
  dsimp only
  split
  · rename_i hfree
    have hfree : q.nFreeElems - 1 = 0 := hfree
    -- the trace is full now and grows
    refine Rep.adjustTrace (q := { q with
      trace := Function.update q.trace q.insertpoint (some d)
      insertpoint := q.mask (q.insertpoint + 1), nFreeElems := q.nFreeElems - 1 })
      h.pow h.tail_lt hcells ?_ h.head hpay hr ?_ h.ndrop h.drop_lt
    · show (items ++ [d]).length = q.traceSize
      omega
    · show c.next < (c.added ++ [C.payload d]).length
      omega
  · rename_i hfree
    have hfree : ¬q.nFreeElems - 1 = 0 := hfree
    refine ⟨h.pow, h.tail_lt, hcells, ?_, ?_, hins, h.head, hpay, hr, ?_, h.ndrop, h.drop_lt⟩
    · show (items ++ [d]).length < q.traceSize
      omega
    · show q.nFreeElems - 1 + (items ++ [d]).length = q.traceSize
      omega
    · show c.next ≤ (c.added ++ [C.payload d]).length
      omega

/-- Tail and insertpoint meet only on an empty ring. -/
theorem Rep.insertpoint_eq_tail (h : Rep C q c items) :
    q.insertpoint = q.tail ↔ c.retired = c.added.length := by
  have hlen := h.length
  have hs := h.short
  have hr := h.retired_le
  have hn := h.next_le
  rw [h.insertpoint]
  constructor
  · intro he
    have he' : (q.tail + items.length) % q.traceSize = (q.tail + 0) % q.traceSize := by
      rw [he, Nat.add_zero, Nat.mod_eq_of_lt h.tail_lt]
    have := (isRing_mod q.traceSize).inj hs (by omega) he'
    omega
  · intro he
    have h0 : items.length = 0 := by omega
    rw [h0, Nat.add_zero, Nat.mod_eq_of_lt h.tail_lt]

theorem Rep.tail_ne_head (h : Rep C q c items) (hne : q.tail ≠ q.head) : c.retired < c.next := by
  have hr := h.retired_le
  refine lt_of_le_of_ne hr fun he => hne ?_
  rw [h.head, he, Nat.sub_self, Nat.add_zero, Nat.mod_eq_of_lt h.tail_lt]

theorem Rep.advanceTail (h : Rep C q c items) (hok : q.Allowed .advanceTail) :
    q.advanceTail.1 = (decide (c.drop ≠ 0) || decide (c.retired ≠ c.added.length)) ∧
      ∃ items', Rep C q.advanceTail.2 (c.step .advanceTail).2 items' := by
  unfold EmuDInstQueue.advanceTail Cursor.step
  have hd := h.ndrop
  have hlt := h.drop_lt
  by_cases hdrop : c.drop = 0
  · have hq : q.ndrop = 0 := hd.trans hdrop
    by_cases hret : c.retired = c.added.length
    · rw [if_neg (by omega), if_pos (h.insertpoint_eq_tail.2 hret)]
      dsimp only
      rw [if_neg (by omega), if_pos hret]
      exact ⟨by simp [hdrop, hret], items, h⟩
    · have hne : q.insertpoint ≠ q.tail := fun he => hret (h.insertpoint_eq_tail.1 he)
      have hnext := h.tail_ne_head (hok hq hne)
      have hn := h.next_le
      have hs := h.short
      have hf := h.free
      have hlen := h.length
      obtain ⟨x, rest, rfl⟩ : ∃ x rest, items = x :: rest := by
        refine List.exists_cons_of_ne_nil fun hnil => ?_
        rw [hnil, List.length_nil] at hlen
        omega
      rw [List.length_cons] at hs hf hlen
      rw [if_neg (by omega), if_neg hne]
      dsimp only
      rw [if_neg (by omega), if_neg hret]
      refine ⟨by simp [hret], rest, h.pow, ?_, ?_, ?_, ?_, ?_, ?_, ?_, ?_, ?_, hd, hlt⟩
      · show q.mask (q.tail + 1) < q.traceSize
        rw [mask_eq h.pow]
        exact Nat.mod_lt _ (by omega)
      · -- the ring seen from the folded tail is the ring seen from the next position
        have ht := h.cells.tail
        intro i y hy
        show q.trace ((q.mask (q.tail + 1) + i) % q.traceSize) = y
        rw [mask_eq h.pow, Nat.mod_add_mod]
        exact ht i y hy
      · show rest.length < q.traceSize
        omega
      · show q.nFreeElems + 1 + rest.length = q.traceSize
        omega
      · show q.insertpoint = (q.mask (q.tail + 1) + rest.length) % q.traceSize
        rw [mask_eq h.pow, Nat.mod_add_mod, h.insertpoint, List.length_cons]
        congr 1
        omega
      · show q.head = (q.mask (q.tail + 1) + (c.next - (c.retired + 1))) % q.traceSize
        rw [mask_eq h.pow, Nat.mod_add_mod, h.head]
        congr 1
        omega
      · show rest.map C.payload = c.added.drop (c.retired + 1)
        have hp := congrArg List.tail h.payload
        rwa [List.tail_drop] at hp
      · show c.retired + 1 ≤ c.next
        omega
      · exact hn
  · rw [if_pos (by omega)]
    dsimp only
    rw [if_pos hdrop]
    refine ⟨by simp [hdrop], items, { h with ndrop := ?_, drop_lt := ?_ }⟩
    · show q.ndrop - 1 = c.drop - 1
      omega
    · show c.drop - 1 < 2 ^ 32
      omega

/-- The cloning loop stops at the head after `d` turns, `d` the distance to it. It has cloned the
cells on its way and touched no other. -/
theorem cloneLoop_spec (clone : α → α) {n : ℕ} (hpow : ∃ k, n = 2 ^ k) (d fuel : ℕ) (q : EmuDInstQueue α)
    (hsize : q.traceSize = n) (hfuel : d ≤ fuel) (hd : d < n) (htail : q.tail < n)
    (hhead : q.head = (q.tail + d) % n) (hdrop : q.ndrop < 2 ^ 32) :
    ∃ t, cloneLoop clone fuel q =
        { q with trace := t, tail := q.head, ndrop := (q.ndrop + d) % 2 ^ 32 } ∧
      (∀ i < d, t ((q.tail + i) % n) = (q.trace ((q.tail + i) % n)).map clone) ∧
      ∀ k, (∀ i < d, k ≠ (q.tail + i) % n) → t k = q.trace k := by
  induction d generalizing fuel q with
  | zero =>
    have he : q.head = q.tail := by rw [hhead, Nat.add_zero, Nat.mod_eq_of_lt htail]
    refine ⟨q.trace, ?_, by simp, fun _ _ => rfl⟩
    have hq : cloneLoop clone fuel q = q := by
      cases fuel with
      | zero => rfl
      | succ fuel => rw [cloneLoop, if_pos he]
    rw [hq, Nat.add_zero, Nat.mod_eq_of_lt hdrop]
    exact congrArg (fun tl => { q with tail := tl }) he.symm
  | succ d ih =>
    obtain ⟨fuel, rfl⟩ : ∃ f, fuel = f + 1 := ⟨fuel - 1, by omega⟩
    have hne : q.head ≠ q.tail := by
      intro he
      have h0 : (q.tail + (d + 1)) % n = (q.tail + 0) % n := by
        rw [← hhead, he, Nat.add_zero, Nat.mod_eq_of_lt htail]
      have := (isRing_mod n).inj hd (by omega) h0
      omega
    rw [cloneLoop, if_neg hne]
    have hmask : q.mask (q.tail + 1) = (q.tail + 1) % n := by
      rw [mask_eq (by rwa [hsize]), hsize]
    obtain ⟨t, ht, hin, hout⟩ := ih fuel { q with
        trace := Function.update q.trace q.tail ((q.trace q.tail).map clone)
        tail := q.mask (q.tail + 1), ndrop := (q.ndrop + 1) % 2 ^ 32 }
      hsize (by omega) (by omega) (by rw [hmask]; exact Nat.mod_lt _ (by omega))
      (by rw [hmask, Nat.mod_add_mod, hhead]; congr 1; omega) (Nat.mod_lt _ (by norm_num))
    simp only [hmask, Nat.mod_add_mod] at hin hout
    -- the loop went on one position further
    have hshift : ∀ i, q.tail + 1 + i = q.tail + (i + 1) := fun i => by omega
    simp only [hshift] at hin hout
    -- the cell just cloned is not met again within the turn
    have hfresh : ∀ i < d, q.tail ≠ (q.tail + (i + 1)) % n := by
      intro i hi he
      have h0 : (q.tail + (i + 1)) % n = (q.tail + 0) % n := by
        rw [← he, Nat.add_zero, Nat.mod_eq_of_lt htail]
      have := (isRing_mod n).inj (by omega) (by omega) h0
      omega
    refine ⟨t, ?_, ?_, ?_⟩
    · rw [ht]
      simp only [Nat.mod_add_mod]
      congr 2
      omega
    · intro i hi
      cases i with
      | zero =>
        rw [Nat.add_zero, Nat.mod_eq_of_lt htail, hout q.tail hfresh, Function.update_self]
      | succ i =>
        rw [hin i (by omega), Function.update_of_ne (hfresh i (by omega)).symm]
    · intro k hk
      have h0 := hk 0 (by omega)
      rw [Nat.add_zero, Nat.mod_eq_of_lt htail] at h0
      rw [hout k fun i hi => hk (i + 1) (by omega), Function.update_of_ne h0]

/-- **Replay.** The instructions read and not retired are cloned in place, the cursor goes back
to the oldest, and as many retirements will be ignored. -/
theorem Rep.moveHead2Tail (h : Rep C q c items) :
    ∃ items', Rep C (q.moveHead2Tail C.clone) (c.step .moveHead2Tail).2 items' := by
  have hr := h.retired_le
  have hn := h.next_le
  have hs := h.short
  have hlen := h.length
  have hdrop := h.ndrop
  have hlt := h.drop_lt
  obtain ⟨t, ht, hin, hout⟩ := cloneLoop_spec C.clone h.pow (c.next - c.retired) q.traceSize q rfl
    (by omega) (by omega) h.tail_lt h.head (by omega)
  refine ⟨(items.take (c.next - c.retired)).map C.clone ++ items.drop (c.next - c.retired), ?_⟩
  have hlen' : ((items.take (c.next - c.retired)).map C.clone ++
      items.drop (c.next - c.retired)).length = items.length := by
    rw [List.length_append, List.length_map, ← List.length_append, List.take_append_drop]
  unfold EmuDInstQueue.moveHead2Tail
  rw [ht]
  refine ⟨h.pow, h.tail_lt, ?_, by rwa [hlen'], by rw [hlen']; exact h.free,
    by rw [hlen']; exact h.insertpoint, ?_, ?_, le_rfl, hr.trans hn, ?_, Nat.mod_lt _ (by norm_num)⟩
  · intro i x hx
    show t ((q.tail + i) % q.traceSize) = x
    rw [List.map_append, List.map_map] at hx
    -- a copy, or an element behind the copies
    rcases Nat.lt_or_ge i (c.next - c.retired) with hi | hi
    · rw [List.getElem?_append_left (by rw [List.length_map, List.length_take]; omega), List.getElem?_map,
        List.getElem?_take_of_lt hi, Option.map_eq_some_iff] at hx
      obtain ⟨y, hy, rfl⟩ := hx
      have hcell := h.cells i (some y) (by rw [List.getElem?_map, hy]; rfl)
      rw [hin i hi, hcell]
      rfl
    · have htake : (items.take (c.next - c.retired)).length = c.next - c.retired := by
        rw [List.length_take]
        omega
      rw [List.getElem?_append_right (by rwa [List.length_map, htake]), List.length_map, htake,
        List.getElem?_map, List.getElem?_drop, Nat.add_sub_cancel' hi] at hx
      obtain ⟨y, hy, rfl⟩ := Option.map_eq_some_iff.1 hx
      have hi' := (List.getElem?_eq_some_iff.1 hy).1
      rw [hout _ fun j hj he => ?_]
      · exact h.cells i (some y) (by rw [List.getElem?_map, hy]; rfl)
      · have := (isRing_mod q.traceSize).inj (by omega) (by omega) he
        omega
  · show q.tail = (q.tail + (c.retired - c.retired)) % q.traceSize
    rw [Nat.sub_self, Nat.add_zero, Nat.mod_eq_of_lt h.tail_lt]
  · show _ = c.added.drop c.retired
    rw [← h.payload, List.map_append, List.map_map]
    have hpc : C.payload ∘ C.clone = C.payload := funext C.payload_clone
    rw [hpc, ← List.map_append, List.take_append_drop]
  · show (q.ndrop + (c.next - c.retired)) % 2 ^ 32 = (c.drop + (c.next - c.retired)) % 2 ^ 32
    rw [hdrop]

/-- **One operation** answers as the cursor does, and leads to a queue that represents the
cursor's next state. -/
theorem Rep.exec (h : Rep C q c items) {o : Op α} (hok : q.Allowed o) :
    (q.exec C.clone o).1.map C.payload = (c.step (o.map C.payload)).1 ∧
      ∃ items', Rep C (q.exec C.clone o).2 (c.step (o.map C.payload)).2 items' := by
  cases o with
  | add d => exact ⟨rfl, _, h.add d⟩
  | popHead =>
    have hne : q.empty = false := hok
    refine ⟨?_, items, h.popHead hne⟩
    rcases h.getHead with hg | he
    · exact congrArg Ret.inst hg
    · simp [he] at hne
  | advanceTail =>
    obtain ⟨hret, hrep⟩ := h.advanceTail hok
    refine ⟨?_, hrep⟩
    show Ret.bool q.advanceTail.1 = _
    rw [hret]
    simp only [Op.map, Cursor.step]
    split
    · rename_i hd
      simp [hd]
    · rename_i hd
      split <;> rename_i hret' <;> simp_all
  | moveHead2Tail => exact ⟨rfl, h.moveHead2Tail⟩

/-- A session from a queue that represents `c` goes on as the cursor does. -/
theorem Rep.run {s s' : Session α} {os : List (Op α)} (hrun : run (Session.step C) s os = some s')
    (h : Rep C s.queue c items) :
    s'.answers.map (Ret.map C.payload) =
        s.answers.map (Ret.map C.payload) ++ outs Cursor.step c (os.map (Op.map C.payload)) ∧
      ∃ items', Rep C s'.queue (c.after (os.map (Op.map C.payload))) items' := by
  induction os generalizing s c items with
  | nil =>
    obtain rfl : s = s' := by simpa only [Lib.run, Option.some.injEq] using hrun
    exact ⟨(List.append_nil _).symm, items, h⟩
  | cons o os ih =>
    obtain ⟨t, ht, hrun⟩ := run_cons.1 hrun
    simp only [Session.step, Option.ite_none_right_eq_some, Option.some.injEq] at ht
    obtain ⟨hok, rfl⟩ := ht
    obtain ⟨hans, items', hrep⟩ := h.exec hok
    obtain ⟨hrest, hfin⟩ := ih hrun hrep
    refine ⟨?_, hfin⟩
    rw [hrest, List.map_append, List.map_singleton, hans, List.append_assoc]
    rfl

/-- **The queue is a list with a cursor.** Whatever sequence of operations the assertions let
through, growth included: the answers are those of the list with its read cursor. The cells
from `tail` to `insertpoint` are the instructions added and not yet retired, in program order,
`head` is where the cursor is, `size()` counts the instructions not yet retired, and `empty()`
says whether any is still unread. -/
theorem queue_refines_cursor (C : Cloner α β) (os : List (Op α)) (s : Session α)
    (h : run (Session.step C) Session.init os = some s) :
    let c := Cursor.init.after (os.map (Op.map C.payload))
    s.answers.map (Ret.map C.payload) = outs Cursor.step Cursor.init (os.map (Op.map C.payload)) ∧
      c.retired ≤ c.next ∧ c.next ≤ c.added.length ∧ c.added.length - c.retired < s.queue.traceSize ∧
      (∀ i < c.added.length - c.retired,
        (s.queue.trace (s.queue.mask (s.queue.tail + i))).map C.payload = c.added[c.retired + i]?) ∧
      s.queue.insertpoint = s.queue.mask (s.queue.tail + (c.added.length - c.retired)) ∧
      s.queue.head = s.queue.mask (s.queue.tail + (c.next - c.retired)) ∧
      s.queue.size = c.added.length - c.retired ∧
      (s.queue.empty = true ↔ c.next = c.added.length) := by
  intro c
  obtain ⟨hans, items, hrep⟩ := Rep.run h rep_init
  have hlen := hrep.length
  refine ⟨hans, hrep.retired_le, hrep.next_le, ?_, ?_, ?_, ?_, hrep.size, hrep.empty_iff⟩
  · rw [← hlen]
    exact hrep.short
  · intro i hi
    rw [← hlen] at hi
    have hcell := hrep.cells i (some items[i]) (by rw [List.getElem?_map, List.getElem?_eq_getElem hi]; rfl)
    rw [mask_eq hrep.pow, hcell, ← List.getElem?_drop, ← hrep.payload, List.getElem?_map,
      List.getElem?_eq_getElem hi]
  · rw [mask_eq hrep.pow, ← hlen]
    exact hrep.insertpoint
  · rw [mask_eq hrep.pow]
    exact hrep.head

/-- Three instructions, the first two read and the first retired, then a replay. -/
theorem queue_refines_cursor_three :
    ∃ s : Session ℕ, run (Session.step ⟨id, id, fun _ => rfl⟩) Session.init
        [.add 5, .add 6, .popHead, .popHead, .add 7, .advanceTail, .moveHead2Tail, .popHead] = some s ∧
      s.queue.size = 2 := by
  have hrun : (run (Session.step (⟨id, id, fun _ => rfl⟩ : Cloner ℕ ℕ)) Session.init
      [.add 5, .add 6, .popHead, .popHead, .add 7, .advanceTail, .moveHead2Tail, .popHead]).isSome = true := by
    decide +kernel
  obtain ⟨s, hs⟩ := Option.isSome_iff_exists.1 hrun
  exact ⟨s, hs, (queue_refines_cursor _ _ s hs).2.2.2.2.2.2.2.1⟩

/-- **`size()` does not count the unread.** After one instruction was added and read, none is
unread, and `size()` is one: it waits for its retirement. -/
theorem size_counts_read :
    ∃ s : Session ℕ, run (Session.step ⟨id, id, fun _ => rfl⟩) Session.init [.add 5, .popHead] = some s ∧
      (let c := (Cursor.init : Cursor ℕ).after [.add 5, .popHead]; c.added.length - c.next = 0) ∧
      s.queue.empty = true ∧ s.queue.size = 1 := by
  have hrun : ((run (Session.step (⟨id, id, fun _ => rfl⟩ : Cloner ℕ ℕ)) Session.init
      [.add 5, .popHead]).any fun s => s.queue.empty && s.queue.size == 1) = true := by
    decide +kernel
  obtain ⟨s, hs, h⟩ := (Option.any_eq_true _ _).1 hrun
  simp only [Bool.and_eq_true, beq_iff_eq] at h
  exact ⟨s, hs, rfl, h.1, h.2⟩

end Refinement

end Esesc.Emul
