import Esesc.Suc.EventScheduler

/-!
# Taking callbacks out of the timed queue

`TQueue::remove` and `reschedule`. When `remove` takes the last callback of a list, it leaves a null
pointer in `accessTail`, which `addNode` then follows if the list has other callbacks. So a queue
is taken here with the positions whose `accessTail` is null, and what follows a null pointer is
undefined.

* `Removed`: what `remove` has to do.
* `Kept.remove`: the first callback of the current list leaves nothing behind.
* `remove_exact_iff`: in runs in which only such callbacks are removed, the scheduler keeps its
  promises, and these are the callbacks that `remove` takes out as it should.
-/

namespace Esesc.Suc

open Esesc.Lib TQueue

/-- A queue, and the positions where `accessTail` is a null pointer. -/
structure CancelQueue where
  q : TQueue
  tailNull : ℕ → Bool

namespace CancelQueue

/-- The null pointers after `addNode`, which follows `accessTail` when the list is not empty. -/
def addTails (c : CancelQueue) (t : ℕ) : Option (ℕ → Bool) :=
  let pos := c.q.calcPos t
  if (c.q.access pos).isSome && c.tailNull pos then none else some (Function.update c.tailNull pos false)

def insertTails (c : CancelQueue) (t : ℕ) : Option (ℕ → Bool) :=
  if c.q.inReach t then c.addTails t else some c.tailNull

def insert (c : CancelQueue) (data t : ℕ) : Option CancelQueue :=
  (c.insertTails t).map fun tails => ⟨c.q.insert data t, tails⟩

/-- The null pointers after the loop of `adjustTooFar`. -/
def drainTails : ℕ → CancelQueue → Option (ℕ → Bool)
  | 0, c => some c.tailNull
  | fuel + 1, c =>
    match c.q.tooFar with
    | [] => some c.tailNull
    | x :: _ =>
      if c.q.inReach (c.q.time x) then
        (c.addTails (c.q.time x)).bind fun tails =>
          drainTails fuel ⟨{ c.q.addNode x (c.q.time x) with tooFar := popHeap c.q.time c.q.tooFar }, tails⟩
      else some c.tailNull

def nextJobTails (c : CancelQueue) (cTime : ℕ) : Option (ℕ → Bool) :=
  if (c.q.access c.q.minPos).isSome ∧ c.q.minTime = cTime then some c.tailNull
  else if c.q.minTooFar ≤ cTime then drainTails (c.q.tooFar.length + 1) c
  else some c.tailNull

/-- The loop of `remove` to the callback, with the one before it. It does not end when the callback
is not in the list. -/
def findPrev (next : ℕ → Option ℕ) (node : ℕ) : ℕ → Option ℕ → Option ℕ → Option (Option ℕ)
  | 0, _, _ => none
  | fuel + 1, prev, curr =>
    match curr with
    | none => none
    | some x => if x = node then some prev else findPrev next node fuel (some x) (next x)

/-- `remove` for a callback of the heap: the first one, or another. -/
def removeTooFar (c : CancelQueue) (node : ℕ) : Option CancelQueue :=
  match c.q.tooFar with
  | [] => none
  | x :: _ =>
    if x = node then
      let tooFar := popHeap c.q.time c.q.tooFar
      some { c with q := { c.q with
        tooFar := tooFar
        minTooFar := match tooFar with
          | [] => MaxTime
          | y :: _ => c.q.time y } }
    else if node ∈ c.q.tooFar then
      some { c with q := { c.q with tooFar := makeHeap c.q.time (c.q.tooFar.erase node) } }
    else none

/-- `remove` for a callback of the ring: the first of the current list, or another. Where the last one
of a list is removed, the loop that looks for the new last one goes on to the null pointer. -/
def removeFast (c : CancelQueue) (node : ℕ) : Option CancelQueue :=
  if c.q.access c.q.minPos = some node then some { c with q := c.q.take node }
  else
    let pos := c.q.calcPos (c.q.time node)
    (findPrev c.q.next node (c.q.nNodes + 1) none (c.q.access pos)).map fun prev =>
      { q :=
          { c.q with
            access := if prev = none then Function.update c.q.access pos (c.q.next node) else c.q.access
            next := match prev with
              | none => c.q.next
              | some p => Function.update c.q.next p (c.q.next node)
            nNodes := c.q.nNodes - 1 }
        tailNull :=
          if c.tailNull pos = false ∧ c.q.accessTail pos = node then Function.update c.tailNull pos true
          else c.tailNull }

def remove (c : CancelQueue) (node : ℕ) : Option CancelQueue :=
  match c.q.qType node with
  | .InTooFarQueue => c.removeTooFar node
  | .InFastQueue => c.removeFast node
  | .InNoQueue => some c

def reschedule (c : CancelQueue) (node rTime : ℕ) : Option CancelQueue :=
  (c.remove node).bind fun c => c.insert node rTime

/-- **What `remove` has to do**, when the ring holds `N`: the callback is in no queue, the others are
where they were, in the same order and with their times, one callback less is counted, and no list
has lost its end. -/
structure Removed (c : CancelQueue) (N : List ℕ) (node : ℕ) (c' : CancelQueue) : Prop where
  kind : c'.q.qType node = .InNoQueue
  others : ∀ x, x ≠ node → c'.q.qType x = c.q.qType x
  time : c'.q.time = c.q.time
  size : c'.q.size + 1 = c.q.size
  rep : Rep c'.q (N.erase node)
  heap : c'.q.tooFar.Perm (c.q.tooFar.erase node)
  tails : ∀ pos, c'.tailNull pos = false

/-- `remove` does that, and `reschedule` inserts the callback into what it leaves. -/
def RemoveOk (c : CancelQueue) (node : ℕ) : Prop :=
  ∃ N c', Rep c.q N ∧ c.remove node = some c' ∧ Removed c N node c' ∧ ∀ t, c.reschedule node t = c'.insert node t

end CancelQueue

/-- The scheduler over such a queue. What it has as `inserted` are the insertions that were not
taken back by a removal. -/
structure Cancelling where
  sched : EventScheduler
  tailNull : ℕ → Bool

namespace Cancelling

open CancelQueue

def init (q : TQueue) : Cancelling := ⟨.init q, fun _ => false⟩

def queue (r : Cancelling) : CancelQueue := ⟨r.sched.cbQ, r.tailNull⟩

inductive Use
  | event (e : EventScheduler.Event)
  | remove (node : ℕ)
  | reschedule (node rTime : ℕ)
  deriving DecidableEq

/-- The null pointers after an event of the scheduler. -/
def tails (r : Cancelling) : EventScheduler.Event → Option (ℕ → Bool)
  | .schedule delta _ => r.queue.insertTails (wrap64 (r.sched.globalClock + delta))
  | .scheduleAbs tim _ => r.queue.insertTails tim
  | .nextJob => r.queue.nextJobTails r.sched.globalClock

def remove (r : Cancelling) (node : ℕ) : Option Cancelling :=
  (r.queue.remove node).map fun c =>
    ⟨{ r.sched with cbQ := c.q, inserted := r.sched.inserted.erase (r.sched.job node) }, c.tailNull⟩

/-- One use of the queue. Only what is queued is removed. -/
def step (r : Cancelling) : Use → Option Cancelling
  | .event e => (r.tails e).bind fun tails => (r.sched.step e).map fun s => ⟨s, tails⟩
  | .remove node => if r.sched.cbQ.qType node ≠ .InNoQueue then r.remove node else none
  | .reschedule node rTime =>
    if r.sched.cbQ.qType node ≠ .InNoQueue ∧ r.sched.globalClock < rTime ∧ rTime < 2 ^ 64 then
      (r.remove node).bind fun r =>
        (r.queue.insertTails rTime).map fun tails => ⟨r.sched.insert node rTime, tails⟩
    else none

/-- The first callback of the current list. -/
def IsCurrent (r : Cancelling) (node : ℕ) : Prop := r.sched.cbQ.access r.sched.cbQ.minPos = some node

/-- What is removed is the first callback of the current list; and no 32-bit distance deceives. -/
def Current (r : Cancelling) : Use → Prop
  | .event e => r.sched.Undeceived e
  | .remove node => r.IsCurrent node
  | .reschedule node rTime => r.IsCurrent node ∧ r.sched.Undeceived (.scheduleAbs rTime node)

/-! ## Null pointers -/

section Tails

variable {c : CancelQueue} {t : ℕ}

theorem addTails_eq (h : ∀ pos, c.tailNull pos = false) : c.addTails t = some fun _ => false := by
  have hnone : c.tailNull = fun _ => false := funext h
  rw [addTails, hnone]
  simp only [Bool.and_false, Bool.false_eq_true, if_false, Option.some.injEq]
  exact Function.update_eq_self _ _

theorem insertTails_eq (h : ∀ pos, c.tailNull pos = false) : c.insertTails t = some fun _ => false := by
  rw [insertTails, addTails_eq h, show c.tailNull = fun _ => false from funext h]
  split <;> rfl

theorem drainTails_eq (fuel : ℕ) (h : ∀ pos, c.tailNull pos = false) : drainTails fuel c = some fun _ => false := by
  induction fuel generalizing c with
  | zero => rw [drainTails, show c.tailNull = fun _ => false from funext h]
  | succ fuel ih =>
    rw [drainTails, show c.tailNull = fun _ => false from funext h]
    split
    · rfl
    · rw [addTails_eq h]
      split
      · exact ih fun _ => rfl
      · rfl

theorem nextJobTails_eq (h : ∀ pos, c.tailNull pos = false) : c.nextJobTails t = some fun _ => false := by
  rw [nextJobTails, drainTails_eq _ h, show c.tailNull = fun _ => false from funext h]
  split
  · rfl
  · split <;> rfl

/-- Only `take` takes the mark off a callback. -/
theorem remove_qType {node : ℕ} {c' : CancelQueue} (hc : c.remove node = some c')
    (hcur : c.q.access c.q.minPos ≠ some node) : c'.q.qType = c.q.qType := by
  unfold CancelQueue.remove at hc
  split at hc
  · unfold removeTooFar at hc
    split at hc
    · cases hc
    · split at hc
      · rw [← Option.some.inj hc]
      · split at hc
        · rw [← Option.some.inj hc]
        · cases hc
  · rw [removeFast, if_neg hcur] at hc
    obtain ⟨prev, -, rfl⟩ := Option.map_eq_some_iff.1 hc
    rfl
  · rw [← Option.some.inj hc]

end Tails

/-! ## The marks of the callbacks -/

section Kinds

variable {q q' : TQueue} {N : List ℕ} {node t : ℕ} {o : Option ℕ}

/-- The callbacks marked as too far are those of the heap. -/
def Kinds (q : TQueue) : Prop := ∀ x, q.qType x = .InTooFarQueue ↔ x ∈ q.tooFar

theorem Kinds.addNode (h : Kinds q) (hnd : q.tooFar.Nodup) {x : ℕ} {l : List ℕ} (hl : q.tooFar = x :: l) (t : ℕ) :
    Kinds { q.addNode x t with tooFar := popHeap q.time q.tooFar } := by
  intro y
  have hpop : (popHeap q.time q.tooFar).Perm l := by
    rw [hl]
    exact popHeap_perm x l
  rw [hl] at hnd
  have hy := h y
  rw [hl, List.mem_cons] at hy
  rw [hpop.mem_iff]
  show Function.update q.qType x .InFastQueue y = .InTooFarQueue ↔ y ∈ l
  by_cases hyx : y = x
  · subst hyx
    simp [(List.nodup_cons.1 hnd).1]
  · rw [Function.update_of_ne hyx, hy]
    simp [hyx]

theorem Kinds.drain (h : Kinds q) (hnd : q.tooFar.Nodup) (fuel : ℕ) : Kinds (drain fuel q) := by
  induction fuel generalizing q with
  | zero => exact h
  | succ fuel ih =>
    cases hl : q.tooFar with
    | nil =>
      rw [drain_nil hl]
      exact h
    | cons x l =>
      rw [drain_cons hl]
      split
      · refine ih (h.addNode hnd hl _) ?_
        show (popHeap q.time q.tooFar).Nodup
        rw [hl] at hnd ⊢
        exact (popHeap_perm x l).nodup_iff.2 (List.nodup_cons.1 hnd).2
      · exact h

theorem Kinds.seek (h : Kinds q) (c fuel : ℕ) : Kinds (seek c fuel q) := by
  induction fuel generalizing q with
  | zero => exact h
  | succ fuel ih =>
    rw [TQueue.seek]
    split
    · exact ih h
    · exact h

theorem Kinds.take (h : Kinds q) (hnode : node ∉ q.tooFar) : Kinds (q.take node) := by
  intro x
  show Function.update q.qType node .InNoQueue x = .InTooFarQueue ↔ x ∈ q.tooFar
  by_cases hx : x = node
  · subst hx
    simp [hnode]
  · rw [Function.update_of_ne hx]
    exact h x

/-- Where an insertion puts the callback. -/
theorem insert_marks (q : TQueue) (node t : ℕ) :
    (q.insert node t).qType = Function.update q.qType node .InFastQueue ∧ (q.insert node t).tooFar = q.tooFar ∨
      (q.insert node t).qType = Function.update q.qType node .InTooFarQueue ∧
        ((q.insert node t).tooFar).Perm (node :: q.tooFar) := by
  unfold TQueue.insert
  simp only
  split
  · exact .inl ⟨rfl, rfl⟩
  · exact .inr ⟨rfl, pushHeap_perm _ _⟩

theorem Kinds.insert (h : Kinds q) (hnode : node ∉ q.tooFar) (t : ℕ) : Kinds (q.insert node t) := by
  intro x
  rcases insert_marks q node t with ⟨htype, hfar⟩ | ⟨htype, hfar⟩
  · rw [htype, hfar]
    by_cases hx : x = node
    · subst hx
      simp [hnode]
    · rw [Function.update_of_ne hx]
      exact h x
  · rw [htype, hfar.mem_iff, List.mem_cons]
    by_cases hx : x = node
    · simp [hx]
    · rw [Function.update_of_ne hx, h x]
      simp [hx]

/-- What was taken is in no queue, by the invariant of what is left. -/
theorem Kinds.take_of_rep (h : Kinds q) (hrep : Rep (q.take node) N) : Kinds (q.take node) := by
  have hnone : (q.take node).qType node = .InNoQueue := Function.update_self _ _ _
  exact h.take fun hmem => (hrep.kind node).1 hnone (List.mem_append_right _ hmem)

theorem Kinds.adjustTooFar (h : Kinds q) (hnd : q.tooFar.Nodup) (hq : q.adjustTooFar = some q') : Kinds q' := by
  unfold TQueue.adjustTooFar at hq
  split at hq
  · cases hq
  · rw [← Option.some.inj hq]
    exact h.drain hnd _

theorem Kinds.nextJobSlow (h : Kinds q) (c : ℕ) (hrep : Rep (q.nextJobSlow c).2 N) : Kinds (q.nextJobSlow c).2 := by
  unfold TQueue.nextJobSlow at hrep ⊢
  split at hrep
  · rename_i h0
    rw [if_pos h0]
    exact h
  · rename_i h0
    rw [if_neg h0]
    have hseek := h.seek c (c - q.minTime)
    generalize TQueue.seek c (c - q.minTime) q = q₁ at hrep hseek ⊢
    simp only at hrep ⊢
    cases hp : q₁.access q₁.minPos with
    | none => exact hseek
    | some p =>
      rw [hp] at hrep
      exact hseek.take_of_rep hrep

theorem Kinds.nextJob (h : Kinds q) (hnd : q.tooFar.Nodup) {c : ℕ} (hjob : q.nextJob c = some (o, q')) (hrep : Rep q' N) :
    Kinds q' := by
  unfold TQueue.nextJob at hjob
  split at hjob
  · rename_i p _ _
    have hq' : q' = q.take p := (congrArg Prod.snd (Option.some.inj hjob)).symm
    rw [hq'] at hrep ⊢
    exact h.take_of_rep hrep
  · obtain ⟨q₁, hq₁, hslow⟩ := Option.map_eq_some_iff.1 hjob
    have hq' : q' = (q₁.nextJobSlow c).2 := (congrArg Prod.snd hslow).symm
    have h₁ : Kinds q₁ := by
      by_cases hmf : q.minTooFar ≤ c
      · rw [if_pos hmf] at hq₁
        exact h.adjustTooFar hnd hq₁
      · rw [if_neg hmf] at hq₁
        rw [← Option.some.inj hq₁]
        exact h
    rw [hq'] at hrep ⊢
    exact h₁.nextJobSlow c hrep

end Kinds

/-! ## Removing -/

section Removing

variable {c : CancelQueue} {N : List ℕ} {node : ℕ}

/-- **The first callback of the current list** is taken as `nextJob` takes it. -/
theorem remove_current (h : Rep c.q N) (hk : Kinds c.q) (hcur : c.q.access c.q.minPos = some node) :
    c.remove node = some { c with q := c.q.take node } ∧ node ∈ N := by
  obtain ⟨rest, hrest, -⟩ := h.toFast.head_eq hcur
  have hN : node ∈ N := (mem_bucket.1 (by rw [hrest]; exact List.mem_cons_self)).1
  refine ⟨?_, hN⟩
  unfold CancelQueue.remove
  split
  · -- a callback of the heap is not in the ring as well
    rename_i hkind
    exact absurd ((hk node).1 hkind) (List.disjoint_of_nodup_append h.apart hN)
  · rw [removeFast, if_pos hcur]
  · rename_i hkind
    exact absurd (List.mem_append_left _ hN) ((h.kind node).1 hkind)

theorem removed_take (h : Rep c.q N) (hcur : c.q.access c.q.minPos = some node) (hN : node ∈ N)
    (htails : ∀ pos, c.tailNull pos = false) : Removed c N node { c with q := c.q.take node } := by
  have hnot : node ∉ c.q.tooFar := List.disjoint_of_nodup_append h.apart hN
  have hpos := List.length_pos_of_mem hN
  have hcount := h.count
  refine ⟨Function.update_self _ _ _, fun x hx => Function.update_of_ne hx _ _, rfl, ?_, h.take hcur, ?_, htails⟩
  · show c.q.nNodes - 1 + c.q.tooFar.length + 1 = c.q.nNodes + c.q.tooFar.length
    omega
  · rw [List.erase_of_not_mem hnot]
    exact List.Perm.refl _

/-- **What `remove` takes out as it should**: the first callback of the current list, and no other
that is queued. The others keep their marks. -/
theorem removeOk_iff (h : Rep c.q N) (hk : Kinds c.q) (htails : ∀ pos, c.tailNull pos = false)
    (hnode : c.q.qType node ≠ .InNoQueue) : RemoveOk c node ↔ c.q.access c.q.minPos = some node := by
  constructor
  · rintro ⟨N', c', -, hc', hremoved, -⟩
    by_contra hcur
    have hkind := hremoved.kind
    rw [remove_qType hc' hcur] at hkind
    exact hnode hkind
  · intro hcur
    obtain ⟨hremove, hmem⟩ := remove_current h hk hcur
    refine ⟨N, _, h, hremove, removed_take h hcur hmem htails, fun t => ?_⟩
    rw [CancelQueue.reschedule, hremove, Option.bind_some]

end Removing

/-! ## Runs -/

section Runs

variable {r r' : Cancelling} {N : List ℕ} {node t : ℕ}

/-- The invariant of a run. An insertion is known by its callback and its times, so it can be taken back. -/
structure Kept (r : Cancelling) (N : List ℕ) : Prop where
  good : r.sched.Good N
  tails : ∀ pos, r.tailNull pos = false
  kinds : Kinds r.sched.cbQ
  cb : ∀ x, (r.sched.job x).cb = x
  past : ∀ f ∈ r.sched.fired, f.2 ≤ r.sched.globalClock
  nodup : r.sched.inserted.Nodup

theorem kept_init (time : ℕ → ℕ) (next : ℕ → Option ℕ) (accessTail : ℕ → ℕ) :
    Kept (init (TQueue.create time next accessTail)) [] where
  good := EventScheduler.good_init time next accessTail
  tails _ := rfl
  kinds x := by simp [init, EventScheduler.init, TQueue.create, TQueue.reset]
  cb _ := rfl
  past f hf := by cases hf
  nodup := List.nodup_nil

theorem Kept.heap_nodup (h : Kept r N) : r.sched.cbQ.tooFar.Nodup :=
  (List.nodup_append.1 h.good.rep.apart).2.1

theorem Kept.job_injective (h : Kept r N) : Function.Injective r.sched.job := by
  intro x y hxy
  rw [← h.cb x, ← h.cb y, hxy]

/-- What is inserted is new: it is not pending, and what has fired was due by now. -/
theorem Kept.job_new (h : Kept r N) (hnode : r.sched.cbQ.qType node = .InNoQueue) (ht : r.sched.globalClock < t) :
    (⟨node, t, r.sched.globalClock, r.sched.inside⟩ : Job) ∉ r.sched.inserted := by
  intro hmem
  have hm : (⟨node, t, r.sched.globalClock, r.sched.inside⟩ : Job) ∈ (r.sched.inserted : Multiset Job) :=
    Multiset.mem_coe.2 hmem
  rw [h.good.once, Multiset.mem_add, Multiset.mem_coe, Multiset.mem_coe, List.mem_map, List.mem_map] at hm
  rcases hm with ⟨f, hf, hjob⟩ | ⟨x, hx, hjob⟩
  · have hdue := h.good.onTime f hf
    have hpast := h.past f hf
    rw [hjob] at hdue
    have : f.2 = t := hdue
    omega
  · have hcb : x = node := by rw [← h.cb x, hjob]
    exact (h.good.rep.kind node).1 hnode (hcb ▸ hx)

theorem Kept.insert {tails : ℕ → Bool} (h : Kept r N) (hnode : r.sched.cbQ.qType node = .InNoQueue)
    (ht : r.sched.globalClock < t) (hmax : t < MaxTime)
    (hlow : (t - r.sched.cbQ.minTime) % 2 ^ 32 < 256 → t - r.sched.cbQ.minTime < 256)
    (htails : r.queue.insertTails t = some tails) : ∃ N', Kept ⟨r.sched.insert node t, tails⟩ N' := by
  obtain ⟨N', hgood⟩ := h.good.insert hnode ht hmax hlow
  have hkinds := h.kinds.insert (fun hm => (h.good.rep.kind node).1 hnode (List.mem_append_right _ hm)) t
  have hnew := h.job_new hnode ht
  obtain ⟨q', hq', hs⟩ := r.sched.insert_eq node t
  rw [insertTails_eq h.tails] at htails
  rw [hs] at hgood ⊢
  rw [hq'] at hkinds
  refine ⟨N', hgood, fun pos => ?_, hkinds, fun x => ?_, h.past, ?_⟩
  · rw [← Option.some.inj htails]
  · show (Function.update r.sched.job node _ x).cb = x
    by_cases hx : x = node
    · rw [hx, Function.update_self]
    · rw [Function.update_of_ne hx]
      exact h.cb x
  · show (r.sched.inserted ++ [_]).Nodup
    exact List.nodup_append.2 ⟨h.nodup, List.nodup_singleton _, by
      intro a ha b hb hab
      rw [List.mem_singleton] at hb
      exact hnew (hb ▸ hab ▸ ha)⟩

theorem nextJob_parts {s s' : EventScheduler} (hs : s.step .nextJob = some s') :
    ∃ o, s.cbQ.nextJob s.globalClock = some (o, s'.cbQ) ∧ s'.job = s.job := by
  unfold EventScheduler.step at hs
  obtain ⟨⟨o, q'⟩, hq', hs'⟩ := Option.map_eq_some_iff.1 hs
  cases o with
  | none => exact ⟨none, by rw [hq', ← hs'], by rw [← hs']⟩
  | some cb => exact ⟨some cb, by rw [hq', ← hs'], by rw [← hs']⟩

theorem Kept.nextJob {s : EventScheduler} {tails : ℕ → Bool} (h : Kept r N) (hs : r.sched.step .nextJob = some s)
    (hok : Drains r.sched.cbQ r.sched.globalClock → DrainOk r.sched.cbQ)
    (htails : r.queue.nextJobTails r.sched.globalClock = some tails) : ∃ N', Kept ⟨s, tails⟩ N' := by
  obtain ⟨N', hgood, hins, hturn⟩ := h.good.of_nextJob hs hok
  obtain ⟨o, hjob, hjobs⟩ := nextJob_parts hs
  rw [nextJobTails_eq h.tails] at htails
  refine ⟨N', hgood, fun pos => ?_, h.kinds.nextJob h.heap_nodup hjob hgood.rep, fun x => ?_, fun f hf => ?_, ?_⟩
  · rw [← Option.some.inj htails]
  · rw [hjobs]
    exact h.cb x
  · -- what fires, fires at the clock
    rcases hturn with ⟨x, -, -, hfired, hclock⟩ | ⟨-, hfired, hclock⟩
    · rw [hfired] at hf
      rw [hclock]
      rcases List.mem_append.1 hf with hf | hf
      · exact h.past f hf
      · rw [List.mem_singleton.1 hf]
    · rw [hfired] at hf
      rw [hclock]
      have := h.past f hf
      omega
  · rw [hins]
    exact h.nodup

theorem Kept.inserted_perm (h : Kept r N) :
    r.sched.inserted.Perm (r.sched.fired.map Prod.fst ++ (N ++ r.sched.cbQ.tooFar).map r.sched.job) :=
  Multiset.coe_eq_coe.1 (h.good.once.trans (Multiset.coe_add _ _))

/-- An insertion that waits has not fired: it is there once. -/
theorem Kept.not_fired (h : Kept r N) {x : ℕ} (hx : x ∈ N ++ r.sched.cbQ.tooFar) :
    r.sched.job x ∉ r.sched.fired.map Prod.fst := by
  have hnodup := h.inserted_perm.nodup_iff.1 h.nodup
  exact fun hmem => List.disjoint_of_nodup_append hnodup hmem (List.mem_map_of_mem hx)

/-- **Removing the first callback of the current list** takes back its insertion, and nothing else. -/
theorem Kept.remove (h : Kept r N) (hcur : r.IsCurrent node) (hr : r.remove node = some r') :
    Kept r' (N.erase node) := by
  obtain ⟨hremove, hN⟩ := remove_current (c := r.queue) h.good.rep h.kinds hcur
  unfold Cancelling.remove at hr
  rw [hremove, Option.map_some] at hr
  rw [← Option.some.inj hr]
  have hrep : Rep (r.sched.cbQ.take node) (N.erase node) := h.good.rep.take hcur
  have hsplit : (N ++ r.sched.cbQ.tooFar).Perm (node :: (N.erase node ++ r.sched.cbQ.tooFar)) :=
    (List.perm_cons_erase hN).append_right _
  -- what is left was there
  have hleft : ∀ x ∈ N.erase node ++ r.sched.cbQ.tooFar, x ∈ N ++ r.sched.cbQ.tooFar := fun x hx =>
    hsplit.mem_iff.2 (List.mem_cons_of_mem _ hx)
  have hnot := h.not_fired (List.mem_append_left _ hN)
  refine ⟨⟨hrep, h.good.low, h.good.within, h.good.between, h.good.clock, fun x hx => h.good.future x (hleft x hx),
    fun x hx => h.good.jobs x (hleft x hx), ?_, h.good.onTime, h.good.far, fun d => ?_⟩, h.tails,
    h.kinds.take_of_rep hrep, h.cb, h.past, h.nodup.erase _⟩
  · show ((r.sched.inserted.erase (r.sched.job node) : List Job) : Multiset Job) =
      ((r.sched.fired.map Prod.fst : List Job) : Multiset Job) +
        (((N.erase node ++ r.sched.cbQ.tooFar).map r.sched.job : List Job) : Multiset Job)
    rw [← Multiset.coe_erase, h.good.once, Multiset.coe_eq_coe.2 (hsplit.map r.sched.job), List.map_cons,
      ← Multiset.cons_coe, Multiset.add_cons, Multiset.erase_cons_head]
  · -- its insertion is behind those that have fired
    show EventScheduler.dueAt Job.isNear d (r.sched.inserted.erase (r.sched.job node)) =
      EventScheduler.dueAt Job.isNear d (r.sched.fired.map Prod.fst) ++
        EventScheduler.dueAt Job.isNear d ((N.erase node).map r.sched.job)
    have herase : ∀ l : List Job, EventScheduler.dueAt Job.isNear d (l.erase (r.sched.job node)) =
        (EventScheduler.dueAt Job.isNear d l).erase (r.sched.job node) := fun l => List.erase_filter.symm
    have hfilter : r.sched.job node ∉ EventScheduler.dueAt Job.isNear d (r.sched.fired.map Prod.fst) :=
      fun hmem => hnot (List.mem_of_mem_filter hmem)
    rw [herase, h.good.fifo, List.erase_append_right _ hfilter, List.map_erase h.job_injective, herase]

/-- One step of a run in which only such callbacks are removed. -/
theorem kept_step {u : Use} (hs : r.step u = some r') (hu : r.Current u) (h : ∃ N, Kept r N) : ∃ N, Kept r' N := by
  obtain ⟨N, hkept⟩ := h
  cases u with
  | event e =>
    obtain ⟨tails, htails, hmap⟩ := Option.bind_eq_some_iff.1 hs
    obtain ⟨s, hstep, rfl⟩ := Option.map_eq_some_iff.1 hmap
    cases e with
    | schedule delta cb =>
      obtain ⟨hcb, hpos, hshort, rfl⟩ := EventScheduler.schedule_eq hstep hu
      have hhigh := hkept.good.high
      have hwrap : wrap64 (r.sched.globalClock + delta) = r.sched.globalClock + delta :=
        Nat.mod_eq_of_lt (lt_trans hu maxTime_lt)
      have htails : r.queue.insertTails (wrap64 (r.sched.globalClock + delta)) = some tails := htails
      rw [hwrap] at htails
      exact hkept.insert hcb (by omega) hu (by omega) htails
    | scheduleAbs tim cb =>
      obtain ⟨hcb, htim, rfl⟩ := EventScheduler.scheduleAbs_eq hstep
      exact hkept.insert hcb htim hu.1 hu.2 htails
    | nextJob => exact hkept.nextJob hstep hu htails
  | remove node =>
    simp only [step] at hs
    split at hs
    · exact ⟨_, hkept.remove hu hs⟩
    · cases hs
  | reschedule node rTime =>
    simp only [step] at hs
    split at hs
    · rename_i hcond
      obtain ⟨r₁, hr₁, hins⟩ := Option.bind_eq_some_iff.1 hs
      obtain ⟨tails, htails, rfl⟩ := Option.map_eq_some_iff.1 hins
      have h₁ := hkept.remove hu.1 hr₁
      obtain ⟨c, hc, rfl⟩ := Option.map_eq_some_iff.1 hr₁
      -- removed, it can be inserted, at the clock there was
      obtain ⟨hremove, -⟩ := remove_current (c := r.queue) hkept.good.rep hkept.kinds hu.1
      obtain rfl := Option.some.inj (hremove.symm.trans hc)
      exact h₁.insert (Function.update_self _ _ _) hcond.2.1 hu.2.1 hu.2.2 htails
    · cases hs

/-- **Removing callbacks.** If in a run every callback that is removed or rescheduled is the first one of
the current list, and no 32-bit distance deceives, the scheduler keeps its promises for the insertions
that were not taken back. In each state of such a run, these are the queued callbacks that `remove`
takes out as it should. -/
theorem remove_exact_iff {time : ℕ → ℕ} {next : ℕ → Option ℕ} {accessTail : ℕ → ℕ} {us : List Use}
    (h : run step (init (TQueue.create time next accessTail)) us = some r)
    (hus : Along step Current (init (TQueue.create time next accessTail)) us) :
    ((Drains r.sched.cbQ r.sched.globalClock → DrainOk r.sched.cbQ) → r.sched.Correct) ∧
      ∀ node, r.sched.cbQ.qType node ≠ .InNoQueue → (RemoveOk r.queue node ↔ r.IsCurrent node) := by
  obtain ⟨N, hkept⟩ := run_inv_along (I := fun r => ∃ N, Kept r N) (fun s u s' hs hu h => kept_step hs hu h) h hus
    ⟨[], kept_init time next accessTail⟩
  exact ⟨hkept.good.correct, fun node hnode => removeOk_iff (c := r.queue) hkept.good.rep hkept.kinds hkept.tails hnode⟩

/-- The reset state with cleared callbacks. -/
def start : Cancelling := init (TQueue.create (fun _ => 0) (fun _ => none) fun _ => 0)

instance (r : Cancelling) (node : ℕ) : Decidable (r.IsCurrent node) :=
  inferInstanceAs (Decidable (r.sched.cbQ.access r.sched.cbQ.minPos = some node))

instance (r : Cancelling) : ∀ u, Decidable (r.Current u)
  | .event e => inferInstanceAs (Decidable (r.sched.Undeceived e))
  | .remove node => inferInstanceAs (Decidable (r.IsCurrent node))
  | .reschedule node rTime =>
    inferInstanceAs (Decidable (r.IsCurrent node ∧ r.sched.Undeceived (.scheduleAbs rTime node)))

/-- Three callbacks for cycle 1: when the first one runs, the second is rescheduled and the third removed. -/
def cancelled : List Use :=
  [.event (.schedule 1 10), .event (.schedule 1 11), .event (.schedule 1 12), .event (.schedule 7 13)] ++
    List.replicate 2 (.event .nextJob) ++ [.reschedule 11 5, .remove 12] ++ List.replicate 9 (.event .nextJob)

theorem remove_exact_cancelled :
    ∃ r, run step start cancelled = some r ∧
      r.sched.fired.map (fun f => (f.1.cb, f.2)) = [(10, 1), (11, 5), (13, 7)] ∧
      ((Drains r.sched.cbQ r.sched.globalClock → DrainOk r.sched.cbQ) → r.sched.Correct) ∧
      ∀ node, r.sched.cbQ.qType node ≠ .InNoQueue → (RemoveOk r.queue node ↔ r.IsCurrent node) := by
  have hrun : ((run step start cancelled).any fun r =>
      r.sched.fired.map (fun f => (f.1.cb, f.2)) = [(10, 1), (11, 5), (13, 7)]) = true := by
    decide +kernel
  obtain ⟨r, hr, hfired⟩ := (Option.any_eq_true _ _).1 hrun
  exact ⟨r, hr, of_decide_eq_true hfired, remove_exact_iff hr (by decide +kernel)⟩

/-- The second of two callbacks for cycle 5 is removed. It still counts as queued, and the next insertion for
that cycle follows a null pointer. -/
theorem remove_loses_tail :
    ∃ r, run step start [.event (.schedule 5 10), .event (.schedule 5 11)] = some r ∧
      r.sched.cbQ.qType 11 = .InFastQueue ∧ ¬RemoveOk r.queue 11 ∧
      ∃ c, r.queue.remove 11 = some c ∧ c.q.qType 11 = .InFastQueue ∧ c.insert 12 5 = none := by
  have hrun : ((run step start [.event (.schedule 5 10), .event (.schedule 5 11)]).any fun r =>
      r.sched.cbQ.qType 11 = .InFastQueue ∧
        (r.queue.remove 11).any (fun c => c.q.qType 11 = .InFastQueue ∧ (c.insert 12 5).isNone) = true) = true := by
    decide +kernel
  obtain ⟨r, hr, hstate⟩ := (Option.any_eq_true _ _).1 hrun
  obtain ⟨hkind, hremove⟩ := of_decide_eq_true hstate
  obtain ⟨c, hc, hafter⟩ := (Option.any_eq_true _ _).1 hremove
  obtain ⟨hstill, hnull⟩ := of_decide_eq_true hafter
  refine ⟨r, hr, hkind, ?_, c, hc, hstill, Option.isNone_iff_eq_none.1 hnull⟩
  rintro ⟨N, c', -, hc', hremoved, -⟩
  -- a callback that was removed would be in no queue
  obtain rfl := Option.some.inj (hc.symm.trans hc')
  have hnone := hremoved.kind
  rw [hstill] at hnone
  cases hnone

end Runs

end Cancelling

end Esesc.Suc
