import Esesc.Lib.Machine
import Esesc.Lib.Ring

/-!
# The instruction FIFO between the emulator and the simulator

`ThreadSafeFIFO` (`libsuc/ThreadSafeFIFO.h`) is a ring of 256 slots with one byte for each
end. The producer advances `tail`, the consumer advances `head`, and each side reads the
other's index while it moves. `Carries` says what the two bytes and the slots stand for: the
elements pushed, split into those already popped and those still queued.

The second half runs one producer and one consumer against each other, one memory access a
step. Each keeps what it has read so far in its own registers, so the tests work on stale
values.

* `full_iff`: when the producer's test says full.
* `Carries.write`, `Carries.push`, `Carries.pop`: the operations in terms of the sequence.
* `exchange_in_order`: the consumer obtains what was pushed, in order, each element once.
-/

namespace Esesc.Emul

open Esesc.Lib

/-- The ring: `IndexType` is a byte, and the array has one slot for each value of it. -/
structure ThreadSafeFIFO (α : Type*) where
  tail : UInt8
  head : UInt8
  array : UInt8 → α

namespace ThreadSafeFIFO

variable {α : Type*}

/-- The constructor: both indices are zero, the slots hold whatever memory held. -/
def init (array : UInt8 → α) : ThreadSafeFIFO α := ⟨0, 0, array⟩

/-- A constant in the source, whatever the contents. -/
def size (_ : ThreadSafeFIFO α) : ℕ := 237

def realsize (f : ThreadSafeFIFO α) : ℕ :=
  if f.head = f.tail then 0
  else if f.tail < f.head then 256 - (f.head.toNat - f.tail.toNat - 1)
  else f.tail.toNat - f.head.toNat - 1

/-- The first comparison promotes to `int`, so it does not wrap; the second does. -/
def full (f : ThreadSafeFIFO α) : Bool :=
  f.tail.toNat + 2 == f.head.toNat || f.tail + 1 == f.head

def empty (f : ThreadSafeFIFO α) : Bool := f.tail == f.head

/-- The slot that `getTailRef` points to, written through the pointer. -/
def setTailRef (f : ThreadSafeFIFO α) (x : α) : ThreadSafeFIFO α :=
  { f with array := Function.update f.array f.tail x }

/-- `push` without an object: the slot was filled through `getTailRef`. -/
def push (f : ThreadSafeFIFO α) : ThreadSafeFIFO α := { f with tail := f.tail + 1 }

def pop (f : ThreadSafeFIFO α) : ThreadSafeFIFO α := { f with head := f.head + 1 }

def getHeadRef (f : ThreadSafeFIFO α) : α := f.array f.head

def getNextHeadRef (f : ThreadSafeFIFO α) : α := f.array (f.head + 1)

@[simp] theorem setTailRef_tail (f : ThreadSafeFIFO α) (x : α) : (f.setTailRef x).tail = f.tail := rfl
@[simp] theorem setTailRef_head (f : ThreadSafeFIFO α) (x : α) : (f.setTailRef x).head = f.head := rfl
@[simp] theorem push_tail (f : ThreadSafeFIFO α) : f.push.tail = f.tail + 1 := rfl
@[simp] theorem push_head (f : ThreadSafeFIFO α) : f.push.head = f.head := rfl
@[simp] theorem push_array (f : ThreadSafeFIFO α) : f.push.array = f.array := rfl
@[simp] theorem pop_tail (f : ThreadSafeFIFO α) : f.pop.tail = f.tail := rfl
@[simp] theorem pop_head (f : ThreadSafeFIFO α) : f.pop.head = f.head + 1 := rfl
@[simp] theorem pop_array (f : ThreadSafeFIFO α) : f.pop.array = f.array := rfl

/-- The two comparisons of `full`. -/
theorem full_eq_false_iff {f : ThreadSafeFIFO α} :
    f.full = false ↔ f.tail.toNat + 2 ≠ f.head.toNat ∧ f.tail + 1 ≠ f.head := by
  rw [full, Bool.or_eq_false_iff, beq_eq_false_iff_ne, beq_eq_false_iff_ne]

/-- A byte addresses a ring of 256 cells. -/
theorem isRing_ofNat : IsRing UInt8.ofNat 256 := by
  intro i j
  rw [← UInt8.toNat_inj, UInt8.toNat_ofNat', UInt8.toNat_ofNat']

/-- **What the bytes stand for.** `out` was popped and `q` is queued: the indices are the two
counts folded onto a byte, and the slots from `head` on hold `q`. -/
structure Carries (f : ThreadSafeFIFO α) (out q : List α) : Prop where
  tail : f.tail = UInt8.ofNat (out.length + q.length)
  head : f.head = UInt8.ofNat out.length
  slots : Holds UInt8.ofNat f.array out.length q
  room : q.length ≤ 255

section Carries

variable {f : ThreadSafeFIFO α} {out q : List α} {x : α}

theorem carries_init (array : UInt8 → α) : (init array).Carries [] [] :=
  ⟨rfl, rfl, .nil, Nat.zero_le _⟩

theorem Carries.tail_toNat (h : f.Carries out q) : f.tail.toNat = (out.length + q.length) % 256 := by
  rw [h.tail, UInt8.toNat_ofNat']

theorem Carries.head_toNat (h : f.Carries out q) : f.head.toNat = out.length % 256 := by
  rw [h.head, UInt8.toNat_ofNat']

theorem Carries.empty_iff (h : f.Carries out q) : f.empty = true ↔ q = [] := by
  have ht := h.tail_toNat
  have hh := h.head_toNat
  have hr := h.room
  rw [empty, beq_iff_eq, ← UInt8.toNat_inj, ← List.length_eq_zero_iff]
  omega

/-- **The producer's test**, in terms of the number of queued elements. The slot kept free by
the first comparison is used when `tail` is 254 or 255, where the sum does not wrap. -/
theorem Carries.full_iff (h : f.Carries out q) :
    f.full = true ↔ q.length = 255 ∨ q.length = 254 ∧ f.tail.toNat < 254 := by
  have ht := h.tail_toNat
  have hh := h.head_toNat
  have hr := h.room
  have h1 : (f.tail + 1).toNat = (f.tail.toNat + 1) % 256 := by
    rw [UInt8.toNat_add]
    rfl
  rw [full, Bool.or_eq_true, beq_iff_eq, beq_iff_eq, ← UInt8.toNat_inj, h1]
  omega

/-- Filling the slot behind the tail disturbs nothing that is queued. -/
theorem Carries.write (h : f.Carries out q) (x : α) : (f.setTailRef x).Carries out q where
  tail := h.tail
  head := h.head
  slots := by
    have hw := h.slots.write isRing_ofNat (Nat.lt_succ_of_le h.room) x
    rwa [← h.tail] at hw
  room := h.room

theorem ofNat_succ (n : ℕ) : UInt8.ofNat (n + 1) = UInt8.ofNat n + 1 := by
  rw [UInt8.ofNat_add]
  rfl

/-- Publishing the slot behind the tail queues what the slot holds. -/
theorem Carries.push (h : f.Carries out q) (hx : f.array f.tail = x) (hroom : q.length < 255) :
    f.push.Carries out (q ++ [x]) where
  tail := by
    rw [push_tail, h.tail, List.length_append, List.length_singleton, ← Nat.add_assoc, ofNat_succ]
  head := h.head
  slots := by
    rw [h.tail] at hx
    exact h.slots.concat hx
  room := by
    rw [List.length_append, List.length_singleton]
    omega

theorem Carries.getHeadRef (h : f.Carries out (x :: q)) : f.getHeadRef = x := by
  rw [ThreadSafeFIFO.getHeadRef, h.head]
  exact h.slots.head

theorem Carries.getNextHeadRef {y : α} (h : f.Carries out (x :: y :: q)) : f.getNextHeadRef = y := by
  rw [ThreadSafeFIFO.getNextHeadRef, h.head, ← ofNat_succ]
  exact h.slots.tail.head

theorem Carries.pop (h : f.Carries out (x :: q)) : f.pop.Carries (out ++ [x]) q where
  tail := by
    rw [pop_tail, h.tail, List.length_append, List.length_singleton, List.length_cons]
    congr 1
    omega
  head := by
    rw [pop_head, h.head, List.length_append, List.length_singleton, ofNat_succ]
  slots := by
    rw [List.length_append, List.length_singleton]
    exact h.slots.tail
  room := by
    have := h.room
    rw [List.length_cons] at this
    omega

end Carries

end ThreadSafeFIFO

section Exchange

variable {α : Type*}

/-- Where the producer stands, with what it has read. It runs `while (full()) ; push(&x)`. -/
inductive Producer (α : Type*) where
  | idle
  /-- `tail` is read for `(tail+2) == head`. -/
  | fullTail (x : α)
  /-- `head` is read, and the first comparison is made. -/
  | fullHead (x : α) (tail : UInt8)
  /-- `tail` is read for `nextTail`. -/
  | nextTail (x : α)
  /-- `head` is read again, and the second comparison is made. -/
  | nextHead (x : α) (nextTail : UInt8)
  /-- `tail` is read for `array[tail]`. -/
  | slot (x : α)
  | write (x : α) (tail : UInt8)
  /-- `AtomicAdd(&tail,1)`. -/
  | add (x : α)

/-- Where the consumer stands. It runs `while (empty()) ; pop(&obj)`. -/
inductive Consumer (α : Type*) where
  /-- `tail` is read for `tail == head`. -/
  | emptyTail
  | emptyHead (tail : UInt8)
  /-- `head` is read for `array[head]`. -/
  | slot
  | read (head : UInt8)
  /-- `AtomicAdd(&head,1)`. -/
  | add (obj : α)

/-- Both threads and the ring. `pushed` and `popped` record the completed calls. -/
structure Exchange (α : Type*) where
  fifo : ThreadSafeFIFO α
  producer : Producer α
  consumer : Consumer α
  pushed : List α
  popped : List α

/-- `offer` gives an idle producer its next element; the others let one thread do its next
access. -/
inductive Exchange.Act (α : Type*) where
  | offer (x : α)
  | producer
  | consumer

namespace Exchange

open ThreadSafeFIFO

def init (array : UInt8 → α) : Exchange α := ⟨.init array, .idle, .emptyTail, [], []⟩

def stepProducer (s : Exchange α) : Option (Exchange α) :=
  match s.producer with
  | .idle => none
  | .fullTail x => some { s with producer := .fullHead x s.fifo.tail }
  | .fullHead x t =>
    if t.toNat + 2 = s.fifo.head.toNat then some { s with producer := .fullTail x }
    else some { s with producer := .nextTail x }
  | .nextTail x => some { s with producer := .nextHead x (s.fifo.tail + 1) }
  | .nextHead x nt =>
    if nt = s.fifo.head then some { s with producer := .fullTail x }
    else some { s with producer := .slot x }
  | .slot x => some { s with producer := .write x s.fifo.tail }
  | .write x t =>
    some { s with producer := .add x, fifo := { s.fifo with array := Function.update s.fifo.array t x } }
  | .add x => some { s with producer := .idle, fifo := s.fifo.push, pushed := s.pushed ++ [x] }

def stepConsumer (s : Exchange α) : Exchange α :=
  match s.consumer with
  | .emptyTail => { s with consumer := .emptyHead s.fifo.tail }
  | .emptyHead t => if t = s.fifo.head then { s with consumer := .emptyTail } else { s with consumer := .slot }
  | .slot => { s with consumer := .read s.fifo.head }
  | .read h => { s with consumer := .add (s.fifo.array h) }
  | .add obj => { s with consumer := .emptyTail, fifo := s.fifo.pop, popped := s.popped ++ [obj] }

def step (s : Exchange α) : Act α → Option (Exchange α)
  | .offer x =>
    match s.producer with
    | .idle => some { s with producer := .fullTail x }
    | _ => none
  | .producer => s.stepProducer
  | .consumer => some s.stepConsumer

/-- What the producer's registers are worth. Its own index does not move under it, and the
consumer only makes room. -/
def ProducerOk (f : ThreadSafeFIFO α) (q : List α) : Producer α → Prop
  | .idle | .fullTail _ | .fullHead _ _ | .nextTail _ => True
  | .nextHead _ nt => nt = f.tail + 1
  | .slot _ => q.length < 255
  | .write _ t => t = f.tail ∧ q.length < 255
  | .add x => f.array f.tail = x ∧ q.length < 255

/-- What the consumer's registers are worth. The tail it has read may be old: it is the
position of some element queued since, or of the free slot. -/
def ConsumerOk (f : ThreadSafeFIFO α) (out q : List α) : Consumer α → Prop
  | .emptyTail => True
  | .emptyHead t => ∃ k ≤ q.length, t = UInt8.ofNat (out.length + k)
  | .slot => q ≠ []
  | .read h => h = f.head ∧ q ≠ []
  | .add obj => q.head? = some obj

/-- The invariant of the exchange, with `q` the elements under way. -/
structure Ok (s : Exchange α) (q : List α) : Prop where
  split : s.pushed = s.popped ++ q
  carries : s.fifo.Carries s.popped q
  producer : ProducerOk s.fifo q s.producer
  consumer : ConsumerOk s.fifo s.popped q s.consumer

theorem ok_init (array : UInt8 → α) : (init array).Ok [] :=
  ⟨rfl, carries_init array, trivial, trivial⟩

/-- Queueing one more element leaves the consumer where it was. -/
theorem ConsumerOk.concat {f g : ThreadSafeFIFO α} {out q : List α} {c : Consumer α}
    (h : ConsumerOk f out q c) (hg : g.head = f.head) (x : α) : ConsumerOk g out (q ++ [x]) c := by
  cases c with
  | emptyTail => trivial
  | emptyHead t =>
    obtain ⟨k, hk, ht⟩ := h
    refine ⟨k, ?_, ht⟩
    rw [List.length_append]
    omega
  | slot => exact List.append_ne_nil_of_left_ne_nil h _
  | read hd => exact ⟨h.1.trans hg.symm, List.append_ne_nil_of_left_ne_nil h.2 _⟩
  | add obj =>
    have hne : q ≠ [] := by
      rintro rfl
      cases h
    rw [ConsumerOk, List.head?_append_of_ne_nil _ hne]
    exact h

theorem ConsumerOk.congr {f g : ThreadSafeFIFO α} {out q : List α} {c : Consumer α}
    (h : ConsumerOk f out q c) (hg : g.head = f.head) : ConsumerOk g out q c := by
  cases c with
  | read hd => exact ⟨h.1.trans hg.symm, h.2⟩
  | _ => exact h

/-- Popping leaves the producer where it was, with more room. -/
theorem ProducerOk.pop {f : ThreadSafeFIFO α} {x : α} {q : List α} {p : Producer α}
    (h : ProducerOk f (x :: q) p) : ProducerOk f.pop q p := by
  cases p with
  | idle => trivial
  | fullTail => trivial
  | fullHead => trivial
  | nextTail => trivial
  | nextHead y nt => exact h
  | slot y => exact Nat.lt_of_succ_lt h
  | write y t => exact ⟨h.1, Nat.lt_of_succ_lt h.2⟩
  | add y => exact ⟨h.1, Nat.lt_of_succ_lt h.2⟩

theorem Ok.stepProducer {s s' : Exchange α} {q : List α} (h : s.Ok q)
    (hs : s.stepProducer = some s') : ∃ q', s'.Ok q' := by
  have hprod := h.producer
  unfold Exchange.stepProducer at hs
  cases hp : s.producer with
  | idle => simp [hp] at hs
  | fullTail x =>
    obtain rfl : _ = s' := by simpa [hp] using hs
    exact ⟨q, h.split, h.carries, trivial, h.consumer⟩
  | fullHead x t =>
    simp only [hp] at hs
    split at hs
    all_goals
      obtain rfl : _ = s' := Option.some.inj hs
      exact ⟨q, h.split, h.carries, trivial, h.consumer⟩
  | nextTail x =>
    obtain rfl : _ = s' := by simpa [hp] using hs
    exact ⟨q, h.split, h.carries, rfl, h.consumer⟩
  | nextHead x nt =>
    rw [hp] at hprod
    simp only [hp] at hs
    split at hs
    · obtain rfl : _ = s' := Option.some.inj hs
      exact ⟨q, h.split, h.carries, trivial, h.consumer⟩
    · rename_i hne
      obtain rfl : _ = s' := Option.some.inj hs
      refine ⟨q, h.split, h.carries, ?_, h.consumer⟩
      -- 255 queued elements would put the tail right before the head
      obtain rfl : nt = s.fifo.tail + 1 := hprod
      refine lt_of_le_of_ne h.carries.room fun h255 => hne ?_
      rw [h.carries.tail, h.carries.head, ← ofNat_succ, h255]
      exact (isRing_ofNat _ _).2 (by omega)
  | slot x =>
    rw [hp] at hprod
    obtain rfl : _ = s' := by simpa [hp] using hs
    exact ⟨q, h.split, h.carries, ⟨rfl, hprod⟩, h.consumer⟩
  | write x t =>
    rw [hp] at hprod
    obtain ⟨rfl, hroom⟩ := hprod
    obtain rfl : _ = s' := by simpa [hp] using hs
    refine ⟨q, h.split, h.carries.write x, ⟨?_, hroom⟩, h.consumer.congr rfl⟩
    exact Function.update_self _ _ _
  | add x =>
    rw [hp] at hprod
    obtain rfl : _ = s' := by simpa [hp] using hs
    refine ⟨q ++ [x], ?_, h.carries.push hprod.1 hprod.2, trivial, h.consumer.concat rfl x⟩
    show s.pushed ++ [x] = s.popped ++ (q ++ [x])
    rw [h.split, List.append_assoc]

theorem Ok.stepConsumer {s : Exchange α} {q : List α} (h : s.Ok q) : ∃ q', s.stepConsumer.Ok q' := by
  have hcons := h.consumer
  unfold Exchange.stepConsumer
  cases hc : s.consumer with
  | emptyTail => exact ⟨q, h.split, h.carries, h.producer, q.length, le_rfl, h.carries.tail⟩
  | emptyHead t =>
    rw [hc] at hcons
    obtain ⟨k, hk, rfl⟩ := hcons
    dsimp only
    split
    · exact ⟨q, h.split, h.carries, h.producer, trivial⟩
    · rename_i hne
      refine ⟨q, h.split, h.carries, h.producer, ?_⟩
      -- the tail read earlier was already past the head, and elements only leave through here
      rintro rfl
      obtain rfl : k = 0 := Nat.le_zero.1 hk
      exact hne h.carries.head.symm
  | slot =>
    rw [hc] at hcons
    exact ⟨q, h.split, h.carries, h.producer, rfl, hcons⟩
  | read hd =>
    rw [hc] at hcons
    obtain ⟨rfl, hne⟩ := hcons
    obtain ⟨x, q', rfl⟩ := List.exists_cons_of_ne_nil hne
    refine ⟨x :: q', h.split, h.carries, h.producer, ?_⟩
    exact congrArg some h.carries.getHeadRef.symm
  | add obj =>
    rw [hc] at hcons
    obtain ⟨q', rfl⟩ := List.head?_eq_some_iff.1 hcons
    refine ⟨q', ?_, h.carries.pop, h.producer.pop, trivial⟩
    show s.pushed = s.popped ++ [obj] ++ q'
    rw [h.split, List.append_assoc]
    rfl

theorem Ok.step {s s' : Exchange α} {a : Act α} (hs : s.step a = some s') (h : ∃ q, s.Ok q) :
    ∃ q, s'.Ok q := by
  obtain ⟨q, h⟩ := h
  cases a with
  | offer x =>
    cases hp : s.producer <;> simp only [Exchange.step, hp, reduceCtorEq, Option.some.injEq] at hs
    subst hs
    exact ⟨q, h.split, h.carries, trivial, h.consumer⟩
  | producer => exact h.stepProducer hs
  | consumer =>
    obtain rfl : s.stepConsumer = s' := Option.some.inj hs
    exact h.stepConsumer

/-- **One producer, one consumer.** However the accesses of the two threads interleave, what
was pushed is what was popped followed by the elements under way, in order. Those are exactly
the slots from `head` to `tail`; the FIFO reads as empty only when everything pushed was popped;
and the slot the consumer reads, like the object it takes away, is the oldest of them. -/
theorem exchange_in_order (array : UInt8 → α) (as : List (Act α)) (s : Exchange α)
    (h : run step (init array) as = some s) :
    ∃ q, s.pushed = s.popped ++ q ∧
      s.fifo.tail = s.fifo.head + UInt8.ofNat q.length ∧ q.length ≤ 255 ∧
      (∀ i x, q[i]? = some x → s.fifo.array (s.fifo.head + UInt8.ofNat i) = x) ∧
      (s.fifo.empty = true ↔ s.popped = s.pushed) ∧
      (∀ hd, s.consumer = .read hd → ∃ x, q.head? = some x ∧ s.fifo.array hd = x) ∧
      (∀ obj, s.consumer = .add obj → q.head? = some obj) := by
  obtain ⟨q, hq⟩ := run_inv (I := fun s => ∃ q, s.Ok q) (fun _ _ _ => Ok.step) h ⟨[], ok_init array⟩
  have hc := hq.carries
  have hcons := hq.consumer
  refine ⟨q, hq.split, ?_, hc.room, ?_, ?_, ?_, ?_⟩
  · rw [hc.head, ← UInt8.ofNat_add]
    exact hc.tail
  · intro i x hx
    rw [hc.head, ← UInt8.ofNat_add]
    exact hc.slots i x hx
  · rw [hc.empty_iff, hq.split, List.self_eq_append_right]
  · intro hd hr
    rw [hr] at hcons
    obtain ⟨rfl, hne⟩ := hcons
    obtain ⟨x, q', rfl⟩ := List.exists_cons_of_ne_nil hne
    exact ⟨x, rfl, hc.getHeadRef⟩
  · intro obj ho
    rw [ho] at hcons
    exact hcons

/-- One element offered and published, and the consumer up to the slot. -/
theorem exchange_in_order_one :
    ∃ s : Exchange ℕ, run step (init fun _ => 0)
        (.offer 7 :: List.replicate 7 .producer ++ List.replicate 3 .consumer) = some s ∧
      s.pushed = [7] ∧ s.consumer = .read 0 ∧ s.fifo.array 0 = 7 := by
  refine ⟨_, rfl, rfl, rfl, ?_⟩
  obtain ⟨q, hq, -, -, -, -, hread, -⟩ := exchange_in_order (fun _ => 0) _ _
    (rfl : run step (init fun _ => (0 : ℕ))
      (.offer 7 :: List.replicate 7 .producer ++ List.replicate 3 .consumer) = some _)
  obtain ⟨x, hx, h0⟩ := hread 0 rfl
  obtain rfl : q = [7] := hq.symm
  exact h0.trans (Option.some.inj hx).symm

end Exchange

end Exchange

end Esesc.Emul
