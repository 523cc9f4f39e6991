import Esesc.Lib.Machine
import Esesc.Lib.Ring
import Esesc.Emul.ThreadSafeFIFO

/-!
# The strict FIFO

`StrictThreadSafeFIFO` is a ring whose indices are bytes, with a count of its elements beside
them. An element is pushed by `push` with the object, or written through `getTailRef` and
published by the `push` without one. One producer and one consumer run against each other, one
memory access a step, and keep what they have read in registers.

`push` with an object advances `tail` before it stores the object. In between the element is
published and its slot is not written: `pending` is that element, if there is one.

* `ConsumerOk.mono`, `ProducerOk.mono`: what a move of one side leaves the other.
* `Ok.producer`, `Ok.consumer`: the invariant, one access at a time.
* `strictFIFO_delivers_iff`: the runs on which the consumer obtains what was pushed.
-/

namespace Esesc.Suc.StrictThreadSafeFIFO

open Esesc.Lib Esesc.Emul.ThreadSafeFIFO

variable {α : Type*}

/-- The ring: `IndexType32` is a byte. The array has 4096 slots, of which a byte reaches 256. -/
structure Ring (α : Type*) where
  tail : UInt8
  head : UInt8
  validSize : UInt8
  array : UInt8 → α

/-- The two ways of pushing an element. -/
inductive Way
  /-- `push(&x)`. -/
  | item
  /-- `*getTailRef() = x; push()`. -/
  | ref
  deriving DecidableEq

/-- Where the producer stands, with what it has read. It waits while `full()`. -/
inductive Producer (α : Type*)
  | idle
  /-- `tail` is read for `nextTail`. -/
  | fullTail (w : Way) (x : α)
  /-- `head` is read and compared. -/
  | fullHead (w : Way) (x : α) (nextTail : UInt8)
  /-- `otail = AtomicAdd(&tail,1)`. -/
  | itemTail (x : α)
  /-- `AtomicAdd(&valid_size,1)`. -/
  | itemSize (x : α) (otail : UInt8)
  /-- `array[otail] = *item_`. -/
  | itemStore (x : α) (otail : UInt8)
  /-- `tail` is read for `&array[tail]`. -/
  | refSlot (x : α)
  /-- The slot is written through the pointer. -/
  | refStore (x : α) (tail : UInt8)
  /-- `AtomicAdd(&tail,1)`. -/
  | refTail (x : α)
  /-- `AtomicAdd(&valid_size,1)`. -/
  | refSize
  deriving DecidableEq

/-- Where the consumer stands. It waits while `empty()`. -/
inductive Consumer (α : Type*)
  /-- `tail` is read for `tail == head`. -/
  | emptyTail
  | emptyHead (tail : UInt8)
  /-- `head` is read for `array[head]`. -/
  | slot
  | read (head : UInt8)
  /-- `AtomicAdd(&head,1)`. -/
  | addHead (obj : α)
  /-- `AtomicSub(&valid_size,1)`. -/
  | subSize
  deriving DecidableEq

/-- Both threads and the ring. `published` are the elements that `tail` has gone past, `popped`
the ones that `head` has, and `stale` says whether the consumer has read a slot before its
element was stored. -/
structure Exchange (α : Type*) where
  ring : Ring α
  producer : Producer α
  consumer : Consumer α
  published : List α
  popped : List α
  stale : Bool

/-- `offer` gives an idle producer its next element; the others let one thread do its next
access. -/
inductive Act (α : Type*)
  | offer (w : Way) (x : α)
  | producer
  | consumer

namespace Exchange

/-- The constructor and `allocate`: the slots hold whatever memory held. -/
def init (array : UInt8 → α) : Exchange α := ⟨⟨0, 0, 0, array⟩, .idle, .emptyTail, [], [], false⟩

/-- The element that is published and not stored yet. -/
def pending : Producer α → List α
  | .itemSize x _ => [x]
  | .itemStore x _ => [x]
  | _ => []

/-- The slot `h` is published and its element is not stored yet. -/
def Unstored (h : UInt8) : Producer α → Prop
  | .itemSize _ otail => otail = h
  | .itemStore _ otail => otail = h
  | _ => False

instance (h : UInt8) (p : Producer α) : Decidable (Unstored h p) := by
  cases p <;> unfold Unstored <;> infer_instance

def stepProducer (s : Exchange α) : Option (Exchange α) :=
  match s.producer with
  | .idle => none
  | .fullTail w x => some { s with producer := .fullHead w x (s.ring.tail + 1) }
  | .fullHead w x nextTail =>
    if nextTail = s.ring.head then some { s with producer := .fullTail w x }
    else match w with
      | .item => some { s with producer := .itemTail x }
      | .ref => some { s with producer := .refSlot x }
  | .itemTail x =>
    some { s with
      producer := .itemSize x s.ring.tail
      ring := { s.ring with tail := s.ring.tail + 1 }
      published := s.published ++ [x] }
  | .itemSize x otail =>
    some { s with producer := .itemStore x otail, ring := { s.ring with validSize := s.ring.validSize + 1 } }
  | .itemStore x otail =>
    some { s with producer := .idle, ring := { s.ring with array := Function.update s.ring.array otail x } }
  | .refSlot x => some { s with producer := .refStore x s.ring.tail }
  | .refStore x tail =>
    some { s with producer := .refTail x, ring := { s.ring with array := Function.update s.ring.array tail x } }
  | .refTail x =>
    some { s with
      producer := .refSize
      ring := { s.ring with tail := s.ring.tail + 1 }
      published := s.published ++ [x] }
  | .refSize => some { s with producer := .idle, ring := { s.ring with validSize := s.ring.validSize + 1 } }

def stepConsumer (s : Exchange α) : Exchange α :=
  match s.consumer with
  | .emptyTail => { s with consumer := .emptyHead s.ring.tail }
  | .emptyHead tail =>
    if tail = s.ring.head then { s with consumer := .emptyTail } else { s with consumer := .slot }
  | .slot => { s with consumer := .read s.ring.head }
  | .read head =>
    { s with consumer := .addHead (s.ring.array head), stale := s.stale || decide (Unstored head s.producer) }
  | .addHead obj =>
    { s with consumer := .subSize, ring := { s.ring with head := s.ring.head + 1 }, popped := s.popped ++ [obj] }
  | .subSize => { s with consumer := .emptyTail, ring := { s.ring with validSize := s.ring.validSize - 1 } }

def step (s : Exchange α) : Act α → Option (Exchange α)
  | .offer w x =>
    match s.producer with
    | .idle => some { s with producer := .fullTail w x }
    | _ => none
  | .producer => s.stepProducer
  | .consumer => some s.stepConsumer

/-- **A correct queue**: the consumer has obtained the first elements that were published, in
order, and all of them when the indices meet; and it never read a slot whose element had not been
stored. -/
structure Delivers (s : Exchange α) : Prop where
  inOrder : s.popped <+: s.published
  all : s.ring.tail = s.ring.head → s.popped = s.published
  stored : s.stale = false

/-! ## The invariant -/

/-- What the producer's registers are worth, with `n` elements in the ring. -/
def ProducerOk (r : Ring α) (n : ℕ) : Producer α → Prop
  | .idle | .fullTail _ _ | .refSize => True
  | .fullHead _ _ nextTail => nextTail = r.tail + 1
  | .itemTail _ | .refSlot _ => n < 255
  | .itemSize _ otail | .itemStore _ otail => otail + 1 = r.tail
  | .refStore _ tail => tail = r.tail ∧ n < 255
  | .refTail x => r.array r.tail = x ∧ n < 255

/-- What the consumer's registers are worth, with the stored elements `st` and `n` elements in all,
the first of them at position `b`. The tail it has read may be old. -/
def ConsumerOk (r : Ring α) (b n : ℕ) (st : List α) : Consumer α → Prop
  | .emptyTail | .subSize => True
  | .emptyHead tail => ∃ k ≤ n, tail = UInt8.ofNat (b + k)
  | .slot => 0 < n
  | .read head => head = r.head ∧ 0 < n
  | .addHead obj => st.head? = some obj

/-- The invariant, with `st` the elements that are stored and not popped. -/
structure Ok (s : Exchange α) (st : List α) : Prop where
  split : s.published = s.popped ++ (st ++ pending s.producer)
  tail : s.ring.tail = UInt8.ofNat (s.popped.length + (st ++ pending s.producer).length)
  head : s.ring.head = UInt8.ofNat s.popped.length
  slots : Holds UInt8.ofNat s.ring.array s.popped.length st
  room : (st ++ pending s.producer).length ≤ 255
  producer : ProducerOk s.ring (st ++ pending s.producer).length s.producer
  consumer : ConsumerOk s.ring s.popped.length (st ++ pending s.producer).length st s.consumer
  stored : s.stale = false

variable {s s' : Exchange α} {st : List α} {x : α}

theorem ok_init (array : UInt8 → α) : (init array).Ok [] :=
  ⟨rfl, rfl, rfl, .nil, Nat.zero_le _, trivial, trivial, rfl⟩

theorem Ok.delivers (h : s.Ok st) : s.Delivers := by
  refine ⟨⟨_, h.split.symm⟩, fun he => ?_, h.stored⟩
  have hroom := h.room
  have hmod : (s.popped.length + (st ++ pending s.producer).length) % 256 = s.popped.length % 256 := by
    rw [← isRing_ofNat, ← h.tail, ← h.head, he]
  have hnil : st ++ pending s.producer = [] := List.length_eq_zero_iff.1 (by omega)
  rw [h.split, hnil, List.append_nil]

/-- The producer adds elements and stores them, which leaves the consumer where it was. -/
theorem ConsumerOk.mono {r r' : Ring α} {b n n' : ℕ} {st st' : List α} {c : Consumer α}
    (h : ConsumerOk r b n st c) (hr : r'.head = r.head) (hn : n ≤ n') (hst : st <+: st') :
    ConsumerOk r' b n' st' c := by
  cases c with
  | emptyTail => trivial
  | emptyHead tail =>
    obtain ⟨k, hk, ht⟩ := h
    exact ⟨k, hk.trans hn, ht⟩
  | slot => exact lt_of_lt_of_le h hn
  | read head => exact ⟨h.1.trans hr.symm, lt_of_lt_of_le h.2 hn⟩
  | addHead obj =>
    obtain ⟨rest, rfl⟩ := hst
    obtain ⟨l, rfl⟩ := List.head?_eq_some_iff.1 h
    rfl
  | subSize => trivial

/-- The consumer makes room, which leaves the producer where it was. -/
theorem ProducerOk.mono {r r' : Ring α} {n n' : ℕ} {p : Producer α} (h : ProducerOk r n p)
    (ht : r'.tail = r.tail) (ha : r'.array = r.array) (hn : n' ≤ n) : ProducerOk r' n' p := by
  cases p with
  | idle => trivial
  | fullTail w x => trivial
  | fullHead w x nextTail => exact h.trans (congrArg (· + 1) ht.symm)
  | itemTail x => exact lt_of_le_of_lt hn h
  | itemSize x otail => exact h.trans ht.symm
  | itemStore x otail => exact h.trans ht.symm
  | refSlot x => exact lt_of_le_of_lt hn h
  | refStore x tail => exact ⟨h.1.trans ht.symm, lt_of_le_of_lt hn h.2⟩
  | refTail x => exact ⟨by rw [ht, ha]; exact h.1, lt_of_le_of_lt hn h.2⟩
  | refSize => trivial

/-- The slot of the element that is not stored yet is the one behind the stored ones. -/
theorem Ok.otail (h : s.Ok st) {otail : UInt8} (hp : pending s.producer = [x]) (ho : otail + 1 = s.ring.tail) :
    otail = UInt8.ofNat (s.popped.length + st.length) := by
  have ht := h.tail
  rw [hp, List.length_append, List.length_singleton, ← Nat.add_assoc, ofNat_succ, ← ho] at ht
  exact (UInt8.add_left_inj 1).1 ht

/-- The tail moves past an element. -/
theorem tail_succ {b n : ℕ} {tail : UInt8} (h : tail = UInt8.ofNat (b + n)) : tail + 1 = UInt8.ofNat (b + (n + 1)) := by
  rw [h, ← Nat.add_assoc, ofNat_succ]

/-- The producer goes on by itself: at most the count of the elements changes. -/
theorem Ok.goesOn (h : s.Ok st) {p : Producer α} (hp : pending p = pending s.producer)
    (hok : ProducerOk s.ring (st ++ pending s.producer).length p) (v : UInt8) :
    Ok { s with producer := p, ring := { s.ring with validSize := v } } st := by
  obtain ⟨hsplit, htail, hhead, hslots, hroom, -, hcons, hstored⟩ := h
  rw [← hp] at hsplit htail hroom hok hcons
  exact ⟨hsplit, htail, hhead, hslots, hroom, hok.mono rfl rfl le_rfl,
    hcons.mono rfl le_rfl (List.prefix_refl st), hstored⟩

/-- With 255 elements the tail is right before the head. -/
theorem Ok.room_of_ne (h : s.Ok st) (hne : s.ring.tail + 1 ≠ s.ring.head) : (st ++ pending s.producer).length < 255 := by
  refine lt_of_le_of_ne h.room fun h255 => hne ?_
  rw [tail_succ h.tail, h.head, h255]
  exact (isRing_ofNat _ _).2 (by omega)

theorem Ok.stepProducer (h : s.Ok st) (hs : s.stepProducer = some s') : ∃ st', s'.Ok st' := by
  have hprod := h.producer
  have hsplit := h.split
  have htail := h.tail
  have hroom := h.room
  have hcons := h.consumer
  have hgo := fun p => h.goesOn (p := p)
  have hfull := h.room_of_ne
  unfold Exchange.stepProducer at hs
  cases hp : s.producer with
  | idle => simp [hp] at hs
  | fullTail w x =>
    rw [hp] at hgo
    obtain rfl : _ = s' := by simpa [hp] using hs
    exact ⟨st, hgo (.fullHead w x _) rfl rfl s.ring.validSize⟩
  | fullHead w x nextTail =>
    rw [hp] at hgo hfull hprod
    obtain rfl : nextTail = s.ring.tail + 1 := hprod
    simp only [hp] at hs
    split at hs
    · obtain rfl := Option.some.inj hs
      exact ⟨st, hgo (.fullTail w x) rfl trivial s.ring.validSize⟩
    · rename_i hne
      cases w <;> obtain rfl := Option.some.inj hs
      · exact ⟨st, hgo (.itemTail x) rfl (hfull hne) s.ring.validSize⟩
      · exact ⟨st, hgo (.refSlot x) rfl (hfull hne) s.ring.validSize⟩
  | itemTail x =>
    -- published, and not stored: `st` stays, the element is pending
    rw [hp] at hsplit htail hroom hcons hprod
    simp only [pending, List.append_nil] at hsplit htail hroom hcons hprod
    obtain rfl : _ = s' := by simpa [hp] using hs
    refine ⟨st, ?_, ?_, h.head, h.slots, ?_, rfl, ?_, h.stored⟩ <;>
      simp only [pending, List.length_append, List.length_singleton]
    · rw [hsplit, List.append_assoc]
    · exact tail_succ htail
    · exact hprod
    · exact hcons.mono rfl (Nat.le_succ _) (List.prefix_refl st)
  | itemSize x otail =>
    rw [hp] at hgo hprod
    obtain rfl : _ = s' := by simpa [hp] using hs
    exact ⟨st, hgo (.itemStore x otail) rfl hprod _⟩
  | itemStore x otail =>
    -- stored at last, in the slot behind the stored ones
    have hpending : pending s.producer = [x] := by rw [hp]; rfl
    have hpos := h.otail hpending (by rw [hp] at hprod; exact hprod)
    rw [hp] at hsplit htail hroom hcons
    simp only [pending, List.length_append, List.length_singleton] at hsplit htail hroom hcons
    obtain rfl : _ = s' := by simpa [hp] using hs
    refine ⟨st ++ [x], ?_, ?_, h.head, ?_, ?_, trivial, ?_, h.stored⟩ <;>
      simp only [pending, List.append_nil, List.length_append, List.length_singleton]
    · exact hsplit
    · exact htail
    · rw [hpos]
      exact (h.slots.write isRing_ofNat (by omega) x).concat (Function.update_self _ _ _)
    · exact hroom
    · exact hcons.mono rfl le_rfl (List.prefix_append st [x])
  | refSlot x =>
    rw [hp] at hgo hprod
    obtain rfl : _ = s' := by simpa [hp] using hs
    exact ⟨st, hgo (.refStore x _) rfl ⟨rfl, hprod⟩ s.ring.validSize⟩
  | refStore x tail =>
    -- stored in a free slot, where nobody looks yet
    rw [hp] at hsplit htail hroom hcons hprod
    obtain ⟨rfl, hlt⟩ := hprod
    simp only [pending, List.append_nil] at hsplit htail hroom hcons hlt
    obtain rfl : _ = s' := by simpa [hp] using hs
    refine ⟨st, ?_, ?_, h.head, ?_, ?_, ⟨Function.update_self _ _ _, ?_⟩, ?_, h.stored⟩ <;>
      simp only [pending, List.append_nil]
    · exact hsplit
    · exact htail
    · rw [htail]
      exact h.slots.write isRing_ofNat (by omega) x
    · exact hroom
    · exact hlt
    · exact hcons.mono rfl le_rfl (List.prefix_refl st)
  | refTail x =>
    rw [hp] at hsplit htail hroom hcons hprod
    simp only [pending, List.append_nil] at hsplit htail hroom hcons hprod
    obtain ⟨harr, hlt⟩ := hprod
    obtain rfl : _ = s' := by simpa [hp] using hs
    refine ⟨st ++ [x], ?_, ?_, h.head, ?_, ?_, trivial, ?_, h.stored⟩ <;>
      simp only [pending, List.append_nil, List.length_append, List.length_singleton]
    · rw [hsplit, List.append_assoc]
    · exact tail_succ htail
    · rw [htail] at harr
      exact h.slots.concat harr
    · exact hlt
    · exact hcons.mono rfl (Nat.le_succ _) (List.prefix_append st [x])
  | refSize =>
    rw [hp] at hgo
    obtain rfl : _ = s' := by simpa [hp] using hs
    exact ⟨st, hgo .idle rfl trivial _⟩

theorem Ok.stepConsumer (h : s.Ok st) (hread : ∀ hd, s.consumer = .read hd → ¬Unstored hd s.producer) :
    ∃ st', s.stepConsumer.Ok st' := by
  have hcons := h.consumer
  unfold Exchange.stepConsumer
  cases hc : s.consumer with
  | emptyTail => exact ⟨st, h.split, h.tail, h.head, h.slots, h.room, h.producer, ⟨_, le_rfl, h.tail⟩, h.stored⟩
  | emptyHead tail =>
    rw [hc] at hcons
    obtain ⟨k, hk, rfl⟩ := hcons
    dsimp only
    split
    · exact ⟨st, h.split, h.tail, h.head, h.slots, h.room, h.producer, trivial, h.stored⟩
    · rename_i hne
      refine ⟨st, h.split, h.tail, h.head, h.slots, h.room, h.producer, ?_, h.stored⟩
      -- the tail read earlier was already past the head, and elements only leave through here
      refine Nat.pos_of_ne_zero fun h0 => hne ?_
      obtain rfl : k = 0 := Nat.le_zero.1 (hk.trans_eq h0)
      exact h.head.symm
  | slot =>
    rw [hc] at hcons
    exact ⟨st, h.split, h.tail, h.head, h.slots, h.room, h.producer, ⟨rfl, hcons⟩, h.stored⟩
  | read hd =>
    have hstored := hread hd hc
    rw [hc] at hcons
    obtain ⟨rfl, hpos⟩ := hcons
    cases st with
    | nil =>
      -- then the only element is the one that is not stored, in the slot at `head`
      exfalso
      have hprod := h.producer
      have hotail : ∀ x otail, pending s.producer = [x] → otail + 1 = s.ring.tail → otail = s.ring.head :=
        fun x otail hp ho => (h.otail hp ho).trans h.head.symm
      cases hp : s.producer <;> rw [hp] at hpos hprod hotail hstored <;> simp [pending] at hpos
      · exact hstored (hotail _ _ rfl hprod)
      · exact hstored (hotail _ _ rfl hprod)
    | cons y st =>
      refine ⟨y :: st, h.split, h.tail, h.head, h.slots, h.room, h.producer, ?_, ?_⟩
      · refine congrArg some ?_
        rw [h.head]
        exact h.slots.head.symm
      · simp [h.stored, hstored]
  | addHead obj =>
    rw [hc] at hcons
    obtain ⟨st, rfl⟩ := List.head?_eq_some_iff.1 hcons
    have hroom := h.room
    have hsplit := h.split
    have htail := h.tail
    rw [List.cons_append, List.length_cons] at hroom htail
    refine ⟨st, ?_, ?_, ?_, ?_, Nat.le_of_succ_le hroom, h.producer.mono rfl rfl ?_, trivial, h.stored⟩ <;>
      simp only [List.length_append, List.length_singleton]
    · rw [hsplit, List.append_assoc]
      rfl
    · rw [htail, List.length_append]
      congr 1
      omega
    · rw [h.head, ofNat_succ]
    · exact h.slots.tail
    · simp
  | subSize => exact ⟨st, h.split, h.tail, h.head, h.slots, h.room, h.producer.mono rfl rfl le_rfl, trivial, h.stored⟩

/-! ## The runs on which the queue is correct -/

/-- The consumer does not read a slot that `push` has published and not stored. -/
def Waits (s : Exchange α) : Act α → Prop
  | .consumer => ∀ hd, s.consumer = .read hd → ¬Unstored hd s.producer
  | _ => True

instance (s : Exchange α) (a : Act α) : Decidable (s.Waits a) := by
  cases a with
  | consumer =>
    unfold Waits
    cases s.consumer with
    | read hd => exact decidable_of_iff (¬Unstored hd s.producer) (by simp)
    | _ => exact .isTrue fun _ h => by cases h
  | _ => exact .isTrue trivial

theorem Ok.step {a : Act α} (hs : s.step a = some s') (ha : s.Waits a) (h : ∃ st, s.Ok st) : ∃ st, s'.Ok st := by
  obtain ⟨st, h⟩ := h
  cases a with
  | offer w x =>
    have hsplit := h.split
    have htail := h.tail
    have hroom := h.room
    have hcons := h.consumer
    cases hp : s.producer <;> simp only [Exchange.step, hp, reduceCtorEq, Option.some.injEq] at hs
    rw [hp] at hsplit htail hroom hcons
    subst hs
    exact ⟨st, hsplit, htail, h.head, h.slots, hroom, trivial, hcons, h.stored⟩
  | producer => exact h.stepProducer hs
  | consumer =>
    obtain rfl : s.stepConsumer = s' := Option.some.inj hs
    exact h.stepConsumer ha

/-- A slot read too early stays on record. -/
theorem not_delivers {a : Act α} (hs : s.step a = some s') (ha : ¬s.Waits a) : ¬s'.Delivers := by
  intro hd
  cases a with
  | consumer =>
    obtain rfl : s.stepConsumer = s' := Option.some.inj hs
    simp only [Waits, not_forall, not_not] at ha
    obtain ⟨hd', hc, hun⟩ := ha
    have hst := hd.stored
    simp [Exchange.stepConsumer, hc, hun] at hst
  | offer w x => exact ha trivial
  | producer => exact ha trivial

/-- **When the strict FIFO is a queue.** However the accesses of one producer and one consumer
interleave, the consumer obtains what was pushed, in order, from slots that were stored, all along
the run, exactly when it never reads the slot of a `push` with an object between the push's
advance of `tail` and its store. -/
theorem strictFIFO_delivers_iff (array : UInt8 → α) (as : List (Act α)) (s : Exchange α)
    (h : run step (init array) as = some s) :
    (∀ bs t, bs <+: as → run step (init array) bs = some t → t.Delivers) ↔ Along step Waits (init array) as := by
  have hD : Along step (fun (_ : Exchange α) (_ : Act α) => True) (init array) as :=
    Along.of_forall (fun _ _ => trivial) _ _
  refine forall_prefix_iff_along (I := fun s => ∃ st, s.Ok st) ?_ ?_ ?_ h hD ⟨[], ok_init array⟩
  · rintro s ⟨st, hst⟩
    exact hst.delivers
  · exact fun _ _ _ hs _ ha => Ok.step hs ha
  · exact fun _ _ _ hs _ ha _ => not_delivers hs ha

/-- An object pushed and popped. -/
theorem strictFIFO_delivers_item :
    ∃ s : Exchange ℕ, run step (init fun _ => 0)
        (.offer .item 7 :: List.replicate 5 .producer ++ List.replicate 6 .consumer) = some s ∧
      ∀ bs t, bs <+: .offer .item 7 :: List.replicate 5 .producer ++ List.replicate 6 .consumer →
        run step (init fun _ => 0) bs = some t → t.Delivers :=
  ⟨_, rfl, (strictFIFO_delivers_iff (fun _ => 0) _ _ rfl).2 (by decide)⟩

/-- The consumer runs between the two writes of `push(&x)`: it finds the FIFO not empty and pops
what the slot held before. -/
theorem strictFIFO_stale_read :
    ∃ s : Exchange ℕ, run step (init fun _ => 0)
        (.offer .item 7 :: List.replicate 3 .producer ++ List.replicate 5 .consumer) = some s ∧
      s.published = [7] ∧ s.popped = [0] ∧ ¬s.Delivers :=
  ⟨_, rfl, rfl, rfl, fun h => absurd h.stored (by decide)⟩

end Exchange

end Esesc.Suc.StrictThreadSafeFIFO
