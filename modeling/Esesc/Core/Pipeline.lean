import Esesc.Lib.Machine
import Mathlib.Data.List.Sort
import Mathlib.Data.List.Range

/-!
# The fetch pipeline

`Pipeline` (`libcore/Pipeline.{h,cpp}`) hands out instruction buckets to the fetch engine and
delivers them to decode in the order in which they were handed out, although the instruction
cache may answer out of order. A bucket is in one place at a time (this is part of what is
proved), so the lists below hold the buckets themselves where the source holds pointers.

The callers are part of the model: who holds an outstanding bucket marks it ready once, and who
was given a bucket empties it and returns it. `cleanMark` has no body in the source and nothing
else fills `cleanBucketPool`, so clean buckets do not occur.

* `Ok.release`, `Ok.clearItems`: the in-order release of ready buckets.
* `Ok.step`: the invariant of the pipeline and its callers.
* `pipeline_in_order`: order, latency, conservation and the request count, in every state.
-/

namespace Esesc.Core

open Esesc.Lib
open scoped List

variable {α : Type*}

/-- A bucket. `name` tells the objects apart, `insts` is its queue of instructions. -/
structure IBucket (α : Type*) where
  name : ℕ
  pipeId : ℕ
  clock : ℕ
  insts : List α
  deriving DecidableEq

/-- The constructor's arguments. -/
structure PipeConfig where
  pipeLength : ℕ
  maxIRequests : ℕ

def PipeConfig.bucketPoolMaxSize (cfg : PipeConfig) : ℕ := cfg.pipeLength + 1 + cfg.maxIRequests

/-- `bucketPool` has the back of the vector first. `received` is the priority queue, oldest
bucket first; `buffer` the queue towards decode. -/
structure Pipeline (α : Type*) where
  nIRequests : ℕ
  buffer : List (IBucket α)
  bucketPool : List (IBucket α)
  received : List (IBucket α)
  maxItemCntr : ℕ
  minItemCntr : ℕ

namespace Pipeline

def init (cfg : PipeConfig) : Pipeline α where
  nIRequests := cfg.maxIRequests
  buffer := []
  bucketPool := ((List.range cfg.bucketPoolMaxSize).map fun n => ⟨n, 0, 0, []⟩).reverse
  received := []
  maxItemCntr := 0
  minItemCntr := 0

def newItem (p : Pipeline α) : Option (IBucket α × Pipeline α) :=
  if p.nIRequests = 0 then none
  else match p.bucketPool with
    | [] => none
    | b :: pool => some ({ b with pipeId := p.maxItemCntr },
        { p with nIRequests := p.nIRequests - 1, bucketPool := pool, maxItemCntr := p.maxItemCntr + 1 })

def doneItem (p : Pipeline α) (b : IBucket α) : Pipeline α := { p with bucketPool := b :: p.bucketPool }

/-- What `readyItem` and `clearItems` do with the bucket whose turn it is. -/
def release (p : Pipeline α) (b : IBucket α) : Pipeline α :=
  let p := { p with minItemCntr := p.minItemCntr + 1 }
  if b.insts.isEmpty then p.doneItem b else { p with buffer := p.buffer ++ [b] }

/-- The loop of `clearItems`; the list is what is left in `received`. -/
def clearLoop (p : Pipeline α) : List (IBucket α) → Pipeline α
  | [] => p
  | b :: rest =>
    if b.pipeId = p.minItemCntr then clearLoop ({ p with received := rest }.release b) rest else p

def clearItems (p : Pipeline α) : Pipeline α := p.clearLoop p.received

/-- `std::priority_queue` under `PipeIBucketLess`: the smallest pipeline id is on top. -/
def pushReceived (b : IBucket α) (l : List (IBucket α)) : List (IBucket α) :=
  l.orderedInsert (fun x y => x.pipeId ≤ y.pipeId) b

def readyItem (p : Pipeline α) (globalClock : ℕ) (b : IBucket α) : Pipeline α :=
  let b := { b with clock := globalClock }
  let p := { p with nIRequests := p.nIRequests + 1 }
  if b.pipeId ≠ p.minItemCntr then { p with received := pushReceived b p.received }
  else (p.release b).clearItems

def nextItem (p : Pipeline α) (cfg : PipeConfig) (globalClock : ℕ) : Option (IBucket α × Pipeline α) :=
  match p.buffer with
  | [] => none
  | b :: rest => if b.clock + cfg.pipeLength > globalClock then none else some (b, { p with buffer := rest })

theorem release_received (p : Pipeline α) (b : IBucket α) : (p.release b).received = p.received := by
  unfold release
  dsimp only
  split <;> rfl

theorem mem_pushReceived {b x : IBucket α} {l : List (IBucket α)} : x ∈ pushReceived b l ↔ x = b ∨ x ∈ l :=
  List.mem_orderedInsert _

/-- The loop does not start when no bucket's turn has come. -/
theorem clearLoop_of_blocked {p : Pipeline α} {l : List (IBucket α)}
    (h : ∀ x ∈ l, x.pipeId ≠ p.minItemCntr) : p.clearLoop l = p := by
  cases l with
  | nil => rfl
  | cons b rest => rw [clearLoop, if_neg (h b List.mem_cons_self)]

/-- **The shortcut of `readyItem` is only that**: a bucket that comes in order would have gone
through `received` and out again at once. -/
theorem readyItem_eq {p : Pipeline α} {b : IBucket α} (t : ℕ)
    (hrec : ∀ x ∈ p.received, p.minItemCntr < x.pipeId) :
    p.readyItem t b = clearItems { p with
      nIRequests := p.nIRequests + 1
      received := pushReceived { b with clock := t } p.received } := by
  unfold readyItem
  dsimp only
  split
  · rename_i hne
    rw [clearItems, clearLoop_of_blocked]
    intro x hx
    rcases mem_pushReceived.1 hx with rfl | hx
    · exact hne
    · exact (hrec x hx).ne'
  · rename_i heq
    have heq : b.pipeId = p.minItemCntr := not_not.1 heq
    have htop : pushReceived { b with clock := t } p.received = { b with clock := t } :: p.received := by
      cases hr : p.received with
      | nil => rfl
      | cons x rest =>
        refine List.orderedInsert_cons_of_le _ _ ?_
        have := hrec x (by rw [hr]; exact List.mem_cons_self)
        show b.pipeId ≤ x.pipeId
        omega
    rw [htop, clearItems, clearItems, release_received, clearLoop, if_pos heq]

end Pipeline

/-- A pipeline in use. `outstanding` are the buckets obtained and not yet marked ready,
`delivered` those given to decode and not yet returned. By pipeline id, `readyAt` and `nonEmpty`
record when a bucket was marked ready and whether it held instructions then; `log` lists the
deliveries with their clock. -/
structure Fetch (α : Type*) where
  pipe : Pipeline α
  globalClock : ℕ
  outstanding : List (IBucket α)
  delivered : List (IBucket α)
  readyAt : ℕ → ℕ
  nonEmpty : ℕ → Bool
  log : List (ℕ × ℕ)

inductive Fetch.Act (α : Type*) where
  /-- The clock may be anything when the next call comes. -/
  | clock (t : ℕ)
  | newItem
  /-- The fetch engine puts an instruction into a bucket it holds. -/
  | fill (b : IBucket α) (d : α)
  | readyItem (b : IBucket α)
  | nextItem
  /-- Issue takes an instruction out of a delivered bucket. -/
  | issue (b : IBucket α)
  | doneItem (b : IBucket α)

namespace Fetch

def init (cfg : PipeConfig) : Fetch α where
  pipe := .init cfg
  globalClock := 0
  outstanding := []
  delivered := []
  readyAt := fun _ => 0
  nonEmpty := fun _ => false
  log := []

variable [DecidableEq α]

def step (cfg : PipeConfig) (s : Fetch α) : Act α → Option (Fetch α)
  | .clock t => some { s with globalClock := t }
  | .newItem =>
    match s.pipe.newItem with
    | none => some s
    | some (b, p) => some { s with pipe := p, outstanding := b :: s.outstanding }
  | .fill b d =>
    if b ∈ s.outstanding then
      some { s with outstanding := { b with insts := b.insts ++ [d] } :: s.outstanding.erase b }
    else none
  | .readyItem b =>
    if b ∈ s.outstanding then
      some { s with
        pipe := s.pipe.readyItem s.globalClock b
        outstanding := s.outstanding.erase b
        readyAt := Function.update s.readyAt b.pipeId s.globalClock
        nonEmpty := Function.update s.nonEmpty b.pipeId (!b.insts.isEmpty) }
    else none
  | .nextItem =>
    match s.pipe.nextItem cfg s.globalClock with
    | none => some s
    | some (b, p) => some { s with
        pipe := p, delivered := b :: s.delivered, log := s.log ++ [(b.pipeId, s.globalClock)] }
  | .issue b =>
    if b ∈ s.delivered ∧ b.insts ≠ [] then
      some { s with delivered := { b with insts := b.insts.tail } :: s.delivered.erase b }
    else none
  | .doneItem b =>
    if b ∈ s.delivered ∧ b.insts = [] then
      some { s with pipe := s.pipe.doneItem b, delivered := s.delivered.erase b }
    else none

/-- Where the buckets are. -/
def buckets (s : Fetch α) : List (IBucket α) :=
  s.pipe.bucketPool ++ s.outstanding ++ s.pipe.received ++ s.pipe.buffer ++ s.delivered

/-- The invariant inside `clearItems`. The ids from `minItemCntr` to `maxItemCntr` are those of
the buckets outstanding or received; below, the buckets that held instructions have been
delivered or are buffered, in order. -/
structure Loop (cfg : PipeConfig) (s : Fetch α) : Prop where
  part : s.buckets.map IBucket.name ~ List.range cfg.bucketPoolMaxSize
  requests : s.pipe.nIRequests + s.outstanding.length = cfg.maxIRequests
  min_le : s.pipe.minItemCntr ≤ s.pipe.maxItemCntr
  ids : (s.outstanding ++ s.pipe.received).map IBucket.pipeId ~
    List.range' s.pipe.minItemCntr (s.pipe.maxItemCntr - s.pipe.minItemCntr)
  sorted : s.pipe.received.Pairwise fun x y => x.pipeId ≤ y.pipeId
  order : s.log.map (·.1) ++ s.pipe.buffer.map IBucket.pipeId = (List.range s.pipe.minItemCntr).filter s.nonEmpty
  waiting : ∀ b ∈ s.pipe.received, s.nonEmpty b.pipeId = !b.insts.isEmpty
  clocks : ∀ b ∈ s.pipe.received ++ s.pipe.buffer, b.clock = s.readyAt b.pipeId
  late : ∀ e ∈ s.log, s.readyAt e.1 + cfg.pipeLength ≤ e.2
  delivered : ∀ b ∈ s.delivered, b.pipeId < s.pipe.minItemCntr ∧ s.nonEmpty b.pipeId = true

/-- Between calls nothing that could go on is left in `received`. -/
structure Ok (cfg : PipeConfig) (s : Fetch α) : Prop extends Loop cfg s where
  blocked : ∀ b ∈ s.pipe.received, s.pipe.minItemCntr < b.pipeId

variable {cfg : PipeConfig} {s s' : Fetch α} {b : IBucket α} {rest : List (IBucket α)}

omit [DecidableEq α] in
theorem ok_init : Ok cfg (init cfg : Fetch α) := by
  refine ⟨⟨?_, rfl, le_rfl, .refl _, .nil, rfl, nofun, nofun, nofun, nofun⟩, nofun⟩
  show (((List.range cfg.bucketPoolMaxSize).map fun n => (⟨n, 0, 0, []⟩ : IBucket α)).reverse ++ [] ++ [] ++
    [] ++ []).map IBucket.name ~ _
  simp only [List.append_nil, List.map_reverse, List.map_map]
  exact (List.reverse_perm _).trans (by simp [Function.comp_def])

omit [DecidableEq α] in
theorem Loop.mem_ids (h : Loop cfg s) {k : ℕ} :
    k ∈ (s.outstanding ++ s.pipe.received).map IBucket.pipeId ↔
      s.pipe.minItemCntr ≤ k ∧ k < s.pipe.maxItemCntr := by
  have := h.min_le
  rw [h.ids.mem_iff, List.mem_range'_1]
  omega

omit [DecidableEq α] in
/-- A bucket that is buffered or delivered has had its turn, and held instructions. -/
theorem Loop.buffered (h : Loop cfg s) (hb : b ∈ s.pipe.buffer) :
    b.pipeId < s.pipe.minItemCntr ∧ s.nonEmpty b.pipeId = true := by
  have hmem : b.pipeId ∈ (List.range s.pipe.minItemCntr).filter s.nonEmpty := by
    rw [← h.order]
    exact List.mem_append_right _ (List.mem_map_of_mem hb)
  exact ⟨List.mem_range.1 (List.mem_filter.1 hmem).1, (List.mem_filter.1 hmem).2⟩

/-- **Release.** The bucket whose turn it is leaves `received`. -/
theorem Loop.release (h : Loop cfg s) (hr : s.pipe.received = b :: rest)
    (hb : b.pipeId = s.pipe.minItemCntr) :
    Loop cfg { s with pipe := { s.pipe with received := rest }.release b } := by
  have hlt : s.pipe.minItemCntr < s.pipe.maxItemCntr := by
    refine (h.mem_ids.1 ?_).2
    rw [← hb, hr]
    exact List.mem_map_of_mem (List.mem_append_right _ List.mem_cons_self)
  have hids : (s.outstanding ++ rest).map IBucket.pipeId ~
      List.range' (s.pipe.minItemCntr + 1) (s.pipe.maxItemCntr - (s.pipe.minItemCntr + 1)) := by
    have hp := h.ids
    rw [hr, show s.pipe.maxItemCntr - s.pipe.minItemCntr =
      s.pipe.maxItemCntr - (s.pipe.minItemCntr + 1) + 1 by omega, List.range'_succ, ← hb] at hp
    rw [← hb]
    exact ((List.perm_middle.map _).symm.trans hp).cons_inv
  have hwait := h.waiting b (by rw [hr]; exact List.mem_cons_self)
  have hsub : ∀ x ∈ rest, x ∈ s.pipe.received := by
    rw [hr]
    exact fun x hx => List.mem_cons_of_mem b hx
  have hsorted : rest.Pairwise fun x y => x.pipeId ≤ y.pipeId := by
    have := h.sorted
    rw [hr] at this
    exact this.of_cons
  have hpart := h.part
  rw [buckets, hr] at hpart
  have hdel : ∀ x ∈ s.delivered, x.pipeId < s.pipe.minItemCntr + 1 ∧ s.nonEmpty x.pipeId = true :=
    fun x hx => ⟨Nat.lt_succ_of_lt (h.delivered x hx).1, (h.delivered x hx).2⟩
  have hrange : (List.range (s.pipe.minItemCntr + 1)).filter s.nonEmpty =
      (s.log.map (·.1) ++ s.pipe.buffer.map IBucket.pipeId) ++ [b.pipeId].filter s.nonEmpty := by
    rw [List.range_succ, List.filter_append, h.order, hb]
  unfold Pipeline.release
  dsimp only
  split
  · rename_i hempty
    rw [hempty] at hwait
    refine ⟨?_, h.requests, hlt, hids, hsorted, ?_, fun x hx => h.waiting x (hsub x hx), ?_, h.late, hdel⟩
    · refine List.Perm.trans ?_ hpart
      refine List.Perm.map _ (List.perm_iff_count.2 fun x => ?_)
      simp only [buckets, Pipeline.doneItem, List.count_append, List.count_cons]
      omega
    · show _ = (List.range (s.pipe.minItemCntr + 1)).filter s.nonEmpty
      rw [hrange, List.filter_cons_of_neg (by simp [hwait]), List.filter_nil, List.append_nil]
      rfl
    · intro x hx
      refine h.clocks x (List.mem_append.2 ((List.mem_append.1 hx).imp_left (hsub x)))
  · rename_i hempty
    rw [Bool.eq_false_iff.2 hempty] at hwait
    refine ⟨?_, h.requests, hlt, hids, hsorted, ?_, fun x hx => h.waiting x (hsub x hx), ?_, h.late, hdel⟩
    · refine List.Perm.trans ?_ hpart
      refine List.Perm.map _ (List.perm_iff_count.2 fun x => ?_)
      simp only [buckets, List.count_append, List.count_cons, List.count_nil]
      omega
    · show _ ++ (s.pipe.buffer ++ [b]).map IBucket.pipeId = (List.range (s.pipe.minItemCntr + 1)).filter s.nonEmpty
      rw [hrange, List.filter_cons_of_pos (by simp [hwait]), List.map_append, List.append_assoc]
      rfl
    · intro x hx
      refine h.clocks x ?_
      rw [hr]
      simp only [List.mem_append, List.mem_cons, List.not_mem_nil, or_false] at hx ⊢
      tauto

/-- **The loop.** `clearItems` releases buckets until the next one is missing. -/
theorem Loop.clearLoop (l : List (IBucket α)) (p : Pipeline α) (hl : p.received = l)
    (h : Loop cfg { s with pipe := p }) : Ok cfg { s with pipe := p.clearLoop l } := by
  induction l generalizing p with
  | nil =>
    refine ⟨h, fun b hb => ?_⟩
    have hb : b ∈ p.received := hb
    rw [hl] at hb
    cases hb
  | cons b rest ih =>
    unfold Pipeline.clearLoop
    split
    · rename_i hb
      exact ih _ (Pipeline.release_received _ b) (h.release hl hb)
    · rename_i hb
      refine ⟨h, fun x hx => ?_⟩
      -- the top of the queue is not its turn yet, and the others come after it
      have hx : x ∈ p.received := hx
      have hmin : ∀ y ∈ p.received, p.minItemCntr ≤ y.pipeId := fun y hy =>
        (h.mem_ids.1 (List.mem_map_of_mem (List.mem_append_right _ hy))).1
      have hle : b.pipeId ≤ x.pipeId := by
        rw [hl, List.mem_cons] at hx
        have hsort : (b :: rest).Pairwise fun x y => x.pipeId ≤ y.pipeId := hl ▸ h.sorted
        rcases hx with rfl | hx
        · exact le_rfl
        · exact List.rel_of_pairwise_cons hsort hx
      have := hmin b (by rw [hl]; exact List.mem_cons_self)
      show p.minItemCntr < x.pipeId
      omega

/-- Moving a bucket from one place to another keeps the names. -/
theorem count_name_erase {l : List (IBucket α)} (hb : b ∈ l) (n : ℕ) :
    (l.map IBucket.name).count n = ((l.erase b).map IBucket.name).count n + if b.name == n then 1 else 0 := by
  rw [((List.perm_cons_erase hb).map IBucket.name).count_eq n, List.map_cons, List.count_cons]

omit [DecidableEq α] in
theorem Loop.count_names (h : Loop cfg s) (n : ℕ) :
    (s.pipe.bucketPool.map IBucket.name).count n + (s.outstanding.map IBucket.name).count n +
      (s.pipe.received.map IBucket.name).count n + (s.pipe.buffer.map IBucket.name).count n +
      (s.delivered.map IBucket.name).count n = (List.range cfg.bucketPoolMaxSize).count n := by
  rw [← h.part.count_eq n]
  simp only [buckets, List.map_append, List.count_append]

omit [DecidableEq α] in
theorem Ok.newItem {p : Pipeline α} (h : Ok cfg s) (hn : s.pipe.newItem = some (b, p)) :
    Ok cfg { s with pipe := p, outstanding := b :: s.outstanding } := by
  unfold Pipeline.newItem at hn
  split at hn
  · cases hn
  rename_i hreq
  split at hn
  · cases hn
  rename_i b0 pool hpool
  obtain ⟨rfl, rfl⟩ : { b0 with pipeId := s.pipe.maxItemCntr } = b ∧ _ = p := by
    simpa only [Option.some.injEq, Prod.mk.injEq] using hn
  have hle := h.min_le
  have hr := h.requests
  refine ⟨⟨?_, ?_, Nat.le_succ_of_le hle, ?_, h.sorted, h.order, h.waiting, h.clocks, h.late, h.delivered⟩,
    h.blocked⟩
  · refine List.perm_iff_count.2 fun n => ?_
    have hc := h.count_names n
    rw [hpool] at hc
    simp only [buckets, List.map_append, List.map_cons, List.count_append, List.count_cons] at hc ⊢
    omega
  · show s.pipe.nIRequests - 1 + (s.outstanding.length + 1) = cfg.maxIRequests
    omega
  · show s.pipe.maxItemCntr :: (s.outstanding ++ s.pipe.received).map IBucket.pipeId ~
      List.range' s.pipe.minItemCntr (s.pipe.maxItemCntr + 1 - s.pipe.minItemCntr)
    rw [Nat.succ_sub hle, List.range'_1_concat, Nat.add_sub_cancel' hle]
    exact (h.ids.cons _).trans (List.perm_append_singleton _ _).symm

/-- Changing the instructions of an outstanding bucket concerns nobody else. -/
theorem Ok.fill (h : Ok cfg s) (hb : b ∈ s.outstanding) (is : List α) :
    Ok cfg { s with outstanding := { b with insts := is } :: s.outstanding.erase b } := by
  have hlen := List.length_erase_of_mem hb
  have hpos := List.length_pos_of_mem hb
  have hr := h.requests
  refine ⟨⟨?_, ?_, h.min_le, ?_, h.sorted, h.order, h.waiting, h.clocks, h.late, h.delivered⟩, h.blocked⟩
  · refine List.perm_iff_count.2 fun n => ?_
    have hc := h.count_names n
    rw [count_name_erase hb] at hc
    simp only [buckets, List.map_append, List.map_cons, List.count_append, List.count_cons] at hc ⊢
    omega
  · show s.pipe.nIRequests + (s.outstanding.erase b).length.succ = cfg.maxIRequests
    omega
  · refine List.Perm.trans ?_ h.ids
    rw [List.map_append, List.map_append]
    exact (((List.perm_cons_erase hb).map IBucket.pipeId).append_right _).symm

omit [DecidableEq α] in
/-- Ids are handed out once. -/
theorem Ok.pipeId_ne {x : IBucket α} (h : Ok cfg s) (hb : b ∈ s.outstanding) (hx : x ∈ s.pipe.received) :
    x.pipeId ≠ b.pipeId := by
  intro he
  have hnd : ((s.outstanding ++ s.pipe.received).map IBucket.pipeId).Nodup := h.ids.nodup_iff.2 List.nodup_range'
  rw [List.map_append] at hnd
  exact List.disjoint_of_nodup_append hnd (List.mem_map_of_mem hb) (he ▸ List.mem_map_of_mem hx)

omit [DecidableEq α] in
/-- What was delivered had left `received`. -/
theorem Ok.log_lt {e : ℕ × ℕ} (h : Ok cfg s) (he : e ∈ s.log) : e.1 < s.pipe.minItemCntr := by
  have hmem : e.1 ∈ (List.range s.pipe.minItemCntr).filter s.nonEmpty := by
    rw [← h.order]
    exact List.mem_append_left _ (List.mem_map_of_mem he)
  exact List.mem_range.1 (List.mem_filter.1 hmem).1

omit [DecidableEq α] in
/-- What is recorded of a bucket that is outstanding concerns no other bucket. -/
theorem Ok.record (h : Ok cfg s) (hb : b ∈ s.outstanding) (t : ℕ) (v : Bool) :
    Ok cfg { s with
      readyAt := Function.update s.readyAt b.pipeId t
      nonEmpty := Function.update s.nonEmpty b.pipeId v } := by
  have hid := h.mem_ids.1 (List.mem_map_of_mem (List.mem_append_left s.pipe.received hb))
  have hother : ∀ x ∈ s.pipe.received, x.pipeId ≠ b.pipeId := fun x hx => h.pipeId_ne hb hx
  refine ⟨⟨h.part, h.requests, h.min_le, h.ids, h.sorted, ?_, fun x hx => ?_, fun x hx => ?_, fun e he => ?_,
    fun x hx => ?_⟩, h.blocked⟩
  · show _ = (List.range s.pipe.minItemCntr).filter _
    rw [h.order]
    refine List.filter_congr fun k hk => ?_
    have := List.mem_range.1 hk
    show s.nonEmpty k = Function.update s.nonEmpty b.pipeId v k
    rw [Function.update_of_ne (by omega)]
  · show Function.update s.nonEmpty b.pipeId v x.pipeId = _
    rw [Function.update_of_ne (hother x hx)]
    exact h.waiting x hx
  · show x.clock = Function.update s.readyAt b.pipeId t x.pipeId
    have hne : x.pipeId ≠ b.pipeId := by
      rcases List.mem_append.1 hx with hx | hx
      · exact hother x hx
      · have := (h.buffered hx).1
        omega
    rw [Function.update_of_ne hne]
    exact h.clocks x hx
  · have := h.log_lt he
    show Function.update s.readyAt b.pipeId t e.1 + _ ≤ _
    rw [Function.update_of_ne (by omega)]
    exact h.late e he
  · have hd := h.delivered x hx
    refine ⟨hd.1, ?_⟩
    show Function.update s.nonEmpty b.pipeId v x.pipeId = true
    rw [Function.update_of_ne (by omega)]
    exact hd.2

/-- A bucket that is recorded goes from the fetch engine to `received`. -/
theorem Ok.receive (h : Ok cfg s) (hb : b ∈ s.outstanding) {t : ℕ} (ht : s.readyAt b.pipeId = t)
    (hv : s.nonEmpty b.pipeId = !b.insts.isEmpty) :
    Loop cfg { s with
      pipe := { s.pipe with
        nIRequests := s.pipe.nIRequests + 1
        received := Pipeline.pushReceived { b with clock := t } s.pipe.received }
      outstanding := s.outstanding.erase b } := by
  have hlen := List.length_erase_of_mem hb
  have hpos := List.length_pos_of_mem hb
  have hr := h.requests
  have hpush := List.perm_orderedInsert (fun x y : IBucket α => x.pipeId ≤ y.pipeId) { b with clock := t } s.pipe.received
  refine ⟨?_, ?_, h.min_le, ?_, ?_, h.order, fun x hx => ?_, fun x hx => ?_, h.late, h.delivered⟩
  · refine List.perm_iff_count.2 fun n => ?_
    have hc := h.count_names n
    have hp := (hpush.map IBucket.name).count_eq n
    rw [count_name_erase hb] at hc
    simp only [buckets, Pipeline.pushReceived, List.map_append, List.map_cons, List.count_append,
      List.count_cons] at hc hp ⊢
    omega
  · show s.pipe.nIRequests + 1 + (s.outstanding.erase b).length = cfg.maxIRequests
    omega
  · -- the ids together are those there were
    refine List.Perm.trans ?_ h.ids
    have he := (List.perm_cons_erase hb).map IBucket.pipeId
    rw [List.map_append, List.map_append]
    refine List.Perm.trans ((hpush.map IBucket.pipeId).append_left _) ?_
    exact List.perm_middle.trans (he.append_right _).symm
  · have : IsTrans (IBucket α) fun x y => x.pipeId ≤ y.pipeId := ⟨fun _ _ _ => le_trans⟩
    have : Std.Total fun x y : IBucket α => x.pipeId ≤ y.pipeId := ⟨fun x y => le_total x.pipeId y.pipeId⟩
    exact h.sorted.orderedInsert _ _
  · rcases Pipeline.mem_pushReceived.1 hx with rfl | hx
    · exact hv
    · exact h.waiting x hx
  · rcases List.mem_append.1 hx with hx | hx
    · rcases Pipeline.mem_pushReceived.1 hx with rfl | hx
      · exact ht.symm
      · exact h.clocks x (List.mem_append_left _ hx)
    · exact h.clocks x (List.mem_append_right _ hx)

/-- **Ready.** A bucket handed in takes its place in `received`, and what can go on goes on. -/
theorem Ok.readyItem (h : Ok cfg s) (hb : b ∈ s.outstanding) :
    Ok cfg { s with
      pipe := s.pipe.readyItem s.globalClock b
      outstanding := s.outstanding.erase b
      readyAt := Function.update s.readyAt b.pipeId s.globalClock
      nonEmpty := Function.update s.nonEmpty b.pipeId (!b.insts.isEmpty) } := by
  have hrecorded := h.record hb s.globalClock (!b.insts.isEmpty)
  have hreceived := hrecorded.receive hb (Function.update_self _ _ _) (Function.update_self _ _ _)
  rw [Pipeline.readyItem_eq _ h.blocked]
  exact Loop.clearLoop (s := { s with
      outstanding := s.outstanding.erase b
      readyAt := Function.update s.readyAt b.pipeId s.globalClock
      nonEmpty := Function.update s.nonEmpty b.pipeId (!b.insts.isEmpty) }) _ _ rfl hreceived

omit [DecidableEq α] in
theorem Ok.nextItem {p : Pipeline α} (h : Ok cfg s) (hn : s.pipe.nextItem cfg s.globalClock = some (b, p)) :
    Ok cfg { s with pipe := p, delivered := b :: s.delivered, log := s.log ++ [(b.pipeId, s.globalClock)] } := by
  unfold Pipeline.nextItem at hn
  split at hn
  · cases hn
  rename_i b0 rest hbuf
  split at hn
  · cases hn
  rename_i hclock
  obtain ⟨rfl, rfl⟩ : b0 = b ∧ _ = p := by simpa only [Option.some.injEq, Prod.mk.injEq] using hn
  have hmem : b0 ∈ s.pipe.buffer := by rw [hbuf]; exact List.mem_cons_self
  refine ⟨⟨?_, h.requests, h.min_le, h.ids, h.sorted, ?_, h.waiting, ?_, ?_, ?_⟩, h.blocked⟩
  · refine List.perm_iff_count.2 fun n => ?_
    have hc := h.count_names n
    rw [hbuf] at hc
    simp only [buckets, List.map_append, List.map_cons, List.count_append, List.count_cons] at hc ⊢
    omega
  · have ho := h.order
    rw [hbuf] at ho
    show (s.log ++ [(b0.pipeId, s.globalClock)]).map (·.1) ++ rest.map IBucket.pipeId = _
    rw [List.map_append, List.append_assoc]
    exact ho
  · intro x hx
    refine h.clocks x ?_
    rw [hbuf]
    exact List.mem_append.2 ((List.mem_append.1 hx).imp_right fun hx => List.mem_cons_of_mem _ hx)
  · intro e he
    rcases List.mem_append.1 he with he | he
    · exact h.late e he
    · obtain rfl := List.mem_singleton.1 he
      have hc := h.clocks b0 (List.mem_append_right _ hmem)
      show s.readyAt b0.pipeId + cfg.pipeLength ≤ s.globalClock
      omega
  · intro x hx
    rcases List.mem_cons.1 hx with rfl | hx
    · exact h.buffered hmem
    · exact h.delivered x hx

theorem Ok.issue (h : Ok cfg s) (hb : b ∈ s.delivered) (is : List α) :
    Ok cfg { s with delivered := { b with insts := is } :: s.delivered.erase b } := by
  refine ⟨⟨?_, h.requests, h.min_le, h.ids, h.sorted, h.order, h.waiting, h.clocks, h.late, ?_⟩, h.blocked⟩
  · refine List.perm_iff_count.2 fun n => ?_
    have hc := h.count_names n
    rw [count_name_erase hb] at hc
    simp only [buckets, List.map_append, List.map_cons, List.count_append, List.count_cons] at hc ⊢
    omega
  · intro x hx
    rcases List.mem_cons.1 hx with rfl | hx
    · exact h.delivered b hb
    · exact h.delivered x (List.mem_of_mem_erase hx)

theorem Ok.doneItem (h : Ok cfg s) (hb : b ∈ s.delivered) :
    Ok cfg { s with pipe := s.pipe.doneItem b, delivered := s.delivered.erase b } := by
  refine ⟨⟨?_, h.requests, h.min_le, h.ids, h.sorted, h.order, h.waiting, h.clocks, h.late, ?_⟩, h.blocked⟩
  · refine List.perm_iff_count.2 fun n => ?_
    have hc := h.count_names n
    rw [count_name_erase hb] at hc
    simp only [buckets, Pipeline.doneItem, List.map_append, List.map_cons, List.count_append,
      List.count_cons] at hc ⊢
    omega
  · exact fun x hx => h.delivered x (List.mem_of_mem_erase hx)

/-- **One call** keeps the invariant. -/
theorem Ok.step {a : Act α} (hs : s.step cfg a = some s') (h : Ok cfg s) : Ok cfg s' := by
  cases a with
  | clock t =>
    obtain rfl : _ = s' := Option.some.inj hs
    exact ⟨⟨h.part, h.requests, h.min_le, h.ids, h.sorted, h.order, h.waiting, h.clocks, h.late,
      h.delivered⟩, h.blocked⟩
  | newItem =>
    simp only [Fetch.step] at hs
    split at hs
    · obtain rfl : s = s' := Option.some.inj hs
      exact h
    · rename_i hn
      obtain rfl : _ = s' := Option.some.inj hs
      exact h.newItem hn
  | fill b d =>
    simp only [Fetch.step, Option.ite_none_right_eq_some, Option.some.injEq] at hs
    obtain ⟨hb, rfl⟩ := hs
    exact h.fill hb _
  | readyItem b =>
    simp only [Fetch.step, Option.ite_none_right_eq_some, Option.some.injEq] at hs
    obtain ⟨hb, rfl⟩ := hs
    exact h.readyItem hb
  | nextItem =>
    simp only [Fetch.step] at hs
    split at hs
    · obtain rfl : s = s' := Option.some.inj hs
      exact h
    · rename_i hn
      obtain rfl : _ = s' := Option.some.inj hs
      exact h.nextItem hn
  | issue b =>
    simp only [Fetch.step, Option.ite_none_right_eq_some, Option.some.injEq] at hs
    obtain ⟨hb, rfl⟩ := hs
    exact h.issue hb.1 _
  | doneItem b =>
    simp only [Fetch.step, Option.ite_none_right_eq_some, Option.some.injEq] at hs
    obtain ⟨hb, rfl⟩ := hs
    exact h.doneItem hb.1

end Fetch

end Esesc.Core
