import Esesc.Suc.TQueue
import Esesc.Lib.Linked
import Mathlib.Data.List.Perm.Basic

/-!
# What the timed queue holds

The ring holds a list of callbacks, in the order in which they were added, all due within
`AccessSize` cycles of `minTime`; the list of a cycle is the part that is due then. The heap
holds the others. The positions of the ring move with `minTime`, so the list of a time stays
where it is while the window slides.

* `Fast`, `Rep`: the ring, and the whole queue.
* `Fast.addNode`, `Fast.take`, `Fast.shift`: the operations on the ring.
* `Rep.insert_near`, `Rep.insert_far`, `Rep.nextJob`: the operations of the queue.
-/

namespace Esesc.Suc

open Esesc.Lib

namespace TQueue

variable {q : TQueue} {N : List ℕ} {p : ℕ} {t c : ℕ} {d e : ℕ}

/-- The position of the list of the time `d` cycles after `minTime`. -/
def slot (q : TQueue) (d : ℕ) : ℕ := (q.minPos + d) % 256

/-- The callbacks of the ring that are due `d` cycles after `minTime`. -/
def bucket (q : TQueue) (N : List ℕ) (d : ℕ) : List ℕ := N.filter fun p => q.time p = q.minTime + d

/-- The ring holds the callbacks of `N`, added in this order. -/
structure Fast (q : TQueue) (N : List ℕ) : Prop where
  pos : q.minPos < 256
  base : q.minTime < 2 ^ 64
  window : ∀ p ∈ N, q.minTime ≤ q.time p ∧ q.time p < q.minTime + 256
  nodup : N.Nodup
  chain : ∀ d < 256, Linked q.next (q.access (q.slot d)) (q.bucket N d)
  tail : ∀ d < 256, ∀ x, (q.bucket N d).getLast? = some x → q.accessTail (q.slot d) = x
  count : q.nNodes = N.length

/-! ## Arithmetic of times and positions -/

theorem sub64_eq (h : q.minTime ≤ t) (ht : t < 2 ^ 64) : sub64 t q.minTime = t - q.minTime := by
  unfold sub64
  omega

theorem inReach_iff (h : q.minTime ≤ t) (ht : t < 2 ^ 64) :
    q.inReach t = true ↔ (t - q.minTime) % 2 ^ 32 < 256 := by
  unfold inReach low32 AccessSize
  rw [sub64_eq h ht, decide_eq_true_eq]

theorem and_mask (x : ℕ) : x &&& AccessMask = x % 256 := Nat.and_two_pow_sub_one_eq_mod x 8

theorem calcPos_eq (h : q.minTime ≤ t) (ht : t < 2 ^ 64) : q.calcPos t = q.slot (t - q.minTime) := by
  unfold calcPos slot
  rw [and_mask]
  unfold low32 sub64 wrap64
  omega

theorem slot_inj (hd : d < 256) (he : e < 256) (h : q.slot d = q.slot e) : d = e := by
  unfold slot at h
  omega

theorem slot_zero (h : q.minPos < 256) : q.slot 0 = q.minPos := Nat.mod_eq_of_lt h

/-! ## The ring -/

theorem mem_bucket : p ∈ q.bucket N d ↔ p ∈ N ∧ q.time p = q.minTime + d := by
  unfold bucket
  rw [List.mem_filter, decide_eq_true_eq]

theorem update_slot {β : Type*} (f : ℕ → β) (x : β) (hd : d < 256) (he : e < 256) :
    Function.update f (q.slot e) x (q.slot d) = Function.update (fun d => f (q.slot d)) e x d := by
  by_cases hde : d = e
  · rw [hde, Function.update_self, Function.update_self]
  · rw [Function.update_of_ne hde, Function.update_of_ne fun hs => hde (slot_inj hd he hs)]

/-- The lists of the ring, by how far ahead they are. -/
theorem Fast.threads (h : Fast q N) :
    Threads (· < 256) q.next (fun d => q.access (q.slot d)) (fun d => q.accessTail (q.slot d)) (q.bucket N) := by
  refine ⟨h.chain, ?_, fun d => h.nodup.filter _, ?_⟩
  · intro d x hx
    refine h.tail d ?_ x hx
    obtain ⟨hN, ht⟩ := mem_bucket.1 (List.mem_of_getLast? hx)
    have := (h.window x hN).2
    omega
  · intro d e x hd he
    have hd := (mem_bucket.1 hd).2
    have he := (mem_bucket.1 he).2
    omega

/-- **`addNode`** puts the callback behind the others of its list. -/
theorem Fast.addNode (h : Fast q N) (hp : p ∉ N) (ht : q.time p = t) (hlo : q.minTime ≤ t)
    (hhi : t < q.minTime + 256) (h64 : t < 2 ^ 64) : Fast (q.addNode p t) (N ++ [p]) := by
  have hpos := calcPos_eq (q := q) hlo h64
  set e := t - q.minTime with he
  have hte : t = q.minTime + e := by omega
  have he256 : e < 256 := by omega
  -- the new callback goes to the list of its own time
  have hbucket : ∀ d, (q.addNode p t).bucket (N ++ [p]) d =
      Function.update (q.bucket N) e (q.bucket N e ++ [p]) d := by
    intro d
    show (N ++ [p]).filter (fun p => q.time p = q.minTime + d) = _
    rw [List.filter_append]
    by_cases hd : d = e
    · rw [hd, Function.update_self]
      simp [bucket, ht, hte]
    · rw [Function.update_of_ne hd]
      simp [bucket, ht, hte, Ne.symm hd]
  have hth := h.threads.concat he256 fun d hm => hp (mem_bucket.1 hm).1
  refine ⟨h.pos, h.base, ?_, ?_, ?_, ?_, ?_⟩
  · intro x hx
    rcases List.mem_append.1 hx with hx | hx
    · exact h.window x hx
    · rw [List.mem_singleton.1 hx]
      show q.minTime ≤ q.time p ∧ q.time p < q.minTime + 256
      omega
  · refine List.Nodup.append h.nodup (List.nodup_singleton p) ?_
    intro x hx hx'
    exact hp (List.mem_singleton.1 hx' ▸ hx)
  · intro d hd
    have hchain := hth.chain d hd
    rw [hbucket]
    show Linked (q.addNode p t).next ((q.addNode p t).access (q.slot d)) _
    unfold TQueue.addNode
    simp only [hpos]
    cases hacc : q.access (q.slot e) with
    | none =>
      simp only [hacc, if_true] at hchain
      simp only [update_slot q.access _ hd he256]
      exact hchain
    | some a =>
      simp only [hacc, reduceCtorEq, if_false] at hchain
      exact hchain
  · intro d hd x hx
    rw [hbucket] at hx
    show Function.update q.accessTail (q.calcPos t) p (q.slot d) = x
    rw [hpos, update_slot _ _ hd he256]
    exact hth.ends d x hx
  · show q.nNodes + 1 = _
    rw [h.count, List.length_append, List.length_singleton]

theorem Fast.head_eq (h : Fast q N) (hp : q.access q.minPos = some p) :
    ∃ rest, q.bucket N 0 = p :: rest ∧
      Threads (· < 256) q.next (Function.update (fun d => q.access (q.slot d)) 0 (q.next p))
        (fun d => q.accessTail (q.slot d)) (Function.update (q.bucket N) 0 rest) := by
  refine h.threads.tail (by omega) ?_
  rw [slot_zero h.pos, hp]

/-- **`take`** removes the first callback that is due at `minTime`. -/
theorem Fast.take (h : Fast q N) (hp : q.access q.minPos = some p) : Fast (q.take p) (N.erase p) := by
  obtain ⟨rest, hrest, hth⟩ := h.head_eq hp
  have hmem : p ∈ q.bucket N 0 := by
    rw [hrest]
    exact List.mem_cons_self
  obtain ⟨hpN, hpt⟩ := mem_bucket.1 hmem
  have hbucket : ∀ d, (q.take p).bucket (N.erase p) d = Function.update (q.bucket N) 0 rest d := by
    intro d
    show (N.erase p).filter (fun x => q.time x = q.minTime + d) = _
    rw [← List.erase_filter]
    by_cases hd : d = 0
    · rw [hd, Function.update_self]
      show (q.bucket N 0).erase p = rest
      rw [hrest, List.erase_cons_head]
    · rw [Function.update_of_ne hd]
      refine List.erase_of_not_mem fun hm => ?_
      have := (mem_bucket.1 hm).2
      omega
  refine ⟨h.pos, h.base, fun x hx => h.window x (List.mem_of_mem_erase hx), h.nodup.erase p, ?_, ?_, ?_⟩
  · intro d hd
    rw [hbucket]
    show Linked q.next (Function.update q.access q.minPos (q.next p) (q.slot d)) _
    rw [← slot_zero h.pos, update_slot _ _ hd (by omega)]
    exact hth.chain d hd
  · intro d hd x hx
    rw [hbucket] at hx
    exact hth.ends d x hx
  · show q.nNodes - 1 = _
    rw [h.count, List.length_erase_of_mem hpN]

/-- **The window slides** over a cycle without callbacks. -/
theorem Fast.shift (h : Fast q N) (hnone : q.access q.minPos = none) (htop : q.minTime + 1 < 2 ^ 64) :
    Fast { q with minPos := (q.minPos + 1) &&& AccessMask, minTime := wrap64 (q.minTime + 1) } N := by
  have hchain := h.chain 0 (by omega)
  rw [slot_zero h.pos] at hchain
  have hempty := hchain.eq_none_iff.1 hnone
  have hnext : wrap64 (q.minTime + 1) = q.minTime + 1 := Nat.mod_eq_of_lt htop
  have hwin : ∀ x ∈ N, q.minTime + 1 ≤ q.time x ∧ q.time x < q.minTime + 1 + 256 := by
    intro x hx
    obtain ⟨hlo, hhi⟩ := h.window x hx
    refine ⟨?_, by omega⟩
    by_contra hlt
    have hm : x ∈ q.bucket N 0 := mem_bucket.2 ⟨hx, by omega⟩
    rw [hempty] at hm
    exact absurd hm List.not_mem_nil
  rw [hnext, and_mask]
  set q' : TQueue := { q with minPos := (q.minPos + 1) % 256, minTime := q.minTime + 1 } with hq'
  have hslot : ∀ d, q'.slot d = q.slot (d + 1) := by
    intro d
    show ((q.minPos + 1) % 256 + d) % 256 = (q.minPos + (d + 1)) % 256
    omega
  have hbucket : ∀ d, q'.bucket N d = q.bucket N (d + 1) := by
    intro d
    refine List.filter_congr fun x _ => ?_
    show decide (q.time x = q.minTime + 1 + d) = decide (q.time x = q.minTime + (d + 1))
    rw [Nat.add_assoc, Nat.add_comm 1 d]
  -- the last list of the window is the one that was left behind
  have hlast : q.bucket N 256 = [] := by
    refine List.filter_eq_nil_iff.2 fun x hx => ?_
    have := (h.window x hx).2
    simp only [decide_eq_true_eq]
    omega
  have hslot256 : q.slot 256 = q.minPos := by
    have := h.pos
    unfold slot
    omega
  -- the list at offset `d` is the one that was at `d + 1`, but for the last offset
  refine ⟨Nat.mod_lt _ (by omega), htop, hwin, h.nodup, ?_, ?_, h.count⟩
  · intro d hd
    rw [hslot, hbucket]
    by_cases hd' : d + 1 < 256
    · exact h.chain (d + 1) hd'
    · obtain rfl : d = 255 := by omega
      rw [hlast, hslot256]
      exact hnone
  · intro d hd x hx
    rw [hbucket] at hx
    rw [hslot]
    by_cases hd' : d + 1 < 256
    · exact h.tail (d + 1) hd' x hx
    · obtain rfl : d = 255 := by omega
      rw [hlast] at hx
      cases hx

/-- An empty ring can start anywhere. -/
theorem Fast.rebase (h : Fast q []) (hc : c < 2 ^ 64) : Fast { q with minTime := c, minPos := 0 } [] := by
  refine ⟨by show 0 < 256; omega, hc, by simp, List.nodup_nil, ?_, ?_, h.count⟩
  · intro d hd
    -- position `d` belonged to some offset of the old base, and all lists were empty
    have hchain := h.chain ((d + 256 - q.minPos) % 256) (Nat.mod_lt _ (by omega))
    have hslot : q.slot ((d + 256 - q.minPos) % 256) = d := by
      have := h.pos
      unfold slot
      omega
    rw [hslot] at hchain
    have hd0 : ({ q with minTime := c, minPos := 0 } : TQueue).slot d = d := by
      show (0 + d) % 256 = d
      omega
    rw [hd0]
    exact hchain
  · intro d _ x hx
    cases hx

/-- The loop of `nextJob` stops at the current time, if nothing is due before. -/
theorem Fast.seek (h : Fast q N) (hlo : q.minTime ≤ c) (hc : c < 2 ^ 64) (hfut : ∀ x ∈ N, c ≤ q.time x) :
    Fast (seek c (c - q.minTime) q) N ∧ (seek c (c - q.minTime) q).minTime = c ∧
      (seek c (c - q.minTime) q).time = q.time ∧ (seek c (c - q.minTime) q).tooFar = q.tooFar ∧
      (seek c (c - q.minTime) q).minTooFar = q.minTooFar ∧ (seek c (c - q.minTime) q).qType = q.qType := by
  induction hk : c - q.minTime generalizing q with
  | zero =>
    refine ⟨h, ?_, rfl, rfl, rfl, rfl⟩
    show q.minTime = c
    omega
  | succ k ih =>
    have hchain := h.chain 0 (by omega)
    rw [slot_zero h.pos] at hchain
    have hempty : q.bucket N 0 = [] := by
      refine List.filter_eq_nil_iff.2 fun x hx => ?_
      have := hfut x hx
      simp only [decide_eq_true_eq]
      omega
    have hnone := hchain.eq_none_iff.2 hempty
    -- nothing is due before `c`, so every list on the way is empty and the window slides over it
    have hnext : wrap64 (q.minTime + 1) = q.minTime + 1 := Nat.mod_eq_of_lt (by omega)
    have hshift := h.shift hnone (by omega)
    unfold TQueue.seek
    rw [if_pos ⟨hnone, by omega⟩]
    refine ih hshift ?_ hfut ?_
    · show wrap64 (q.minTime + 1) ≤ c
      omega
    · show c - wrap64 (q.minTime + 1) = k
      omega

/-- Only the times of the callbacks in the ring matter. -/
theorem Fast.retime (h : Fast q N) (time : ℕ → ℕ) (ht : ∀ x ∈ N, time x = q.time x) :
    Fast { q with time := time } N := by
  have hbucket : ∀ d, ({ q with time := time } : TQueue).bucket N d = q.bucket N d := by
    intro d
    refine List.filter_congr fun x hx => ?_
    show decide (time x = q.minTime + d) = _
    rw [ht x hx]
  refine ⟨h.pos, h.base, ?_, h.nodup, ?_, ?_, h.count⟩
  · intro x hx
    show q.minTime ≤ time x ∧ time x < q.minTime + 256
    rw [ht x hx]
    exact h.window x hx
  · intro d hd
    rw [hbucket]
    exact h.chain d hd
  · intro d hd x hx
    rw [hbucket] at hx
    exact h.tail d hd x hx

/-- Neither the heap nor the kinds of the callbacks matter. -/
theorem Fast.heap (h : Fast q N) (qType : ℕ → QueueType) (tooFar : List ℕ) (minTooFar : ℕ) :
    Fast { q with qType := qType, tooFar := tooFar, minTooFar := minTooFar } N :=
  ⟨h.pos, h.base, h.window, h.nodup, h.chain, h.tail, h.count⟩

/-! ## The queue -/

/-- The ring holds `N` and the heap holds the rest. -/
structure Held (q : TQueue) (N : List ℕ) : Prop extends Fast q N where
  heap : IsHeap q.time q.tooFar
  apart : (N ++ q.tooFar).Nodup
  top : ∀ p ∈ N ++ q.tooFar, q.time p < MaxTime
  kind : ∀ p, q.qType p = .InNoQueue ↔ p ∉ N ++ q.tooFar

/-- And `minTooFar` is the least time of the heap, or `MaxTime` if that is empty. -/
structure Rep (q : TQueue) (N : List ℕ) : Prop extends Held q N where
  below : ∀ p ∈ q.tooFar, q.minTooFar ≤ q.time p
  reached : q.minTooFar = MaxTime ∨ ∃ p ∈ q.tooFar, q.time p = q.minTooFar

theorem maxTime_lt : MaxTime < 2 ^ 64 := by decide

theorem rep_create (time : ℕ → ℕ) (next : ℕ → Option ℕ) (accessTail : ℕ → ℕ) :
    Rep (create time next accessTail) [] := by
  have hfast : Fast (create time next accessTail) [] := by
    refine ⟨?_, ?_, by simp, List.nodup_nil, fun d _ => rfl, fun d _ x hx => (by cases hx), rfl⟩
    · show 0 < 256
      omega
    · show 0 < 2 ^ 64
      omega
  have hheap : IsHeap (create time next accessTail).time [] := by
    intro j p x hp
    cases hp
  refine ⟨⟨hfast, hheap, List.nodup_nil, ?_, ?_⟩, ?_, .inl rfl⟩
  all_goals simp [create, reset]

theorem insert_time (q : TQueue) (p t : ℕ) : (q.insert p t).time = Function.update q.time p t := by
  unfold TQueue.insert
  simp only
  split <;> rfl

theorem insert_minTime (q : TQueue) (p t : ℕ) : (q.insert p t).minTime = q.minTime := by
  unfold TQueue.insert
  simp only
  split <;> rfl

/-- What an insertion has to show: where it puts the callback, in the ring or in the heap. -/
theorem Held.insert {q' : TQueue} {N' : List ℕ} {k : QueueType} (h : Held q N) (hp : p ∉ N ++ q.tooFar)
    (ht : t < MaxTime) (htime : q'.time = Function.update q.time p t)
    (hkind : q'.qType = Function.update q.qType p k) (hk : k ≠ .InNoQueue)
    (hperm : (N' ++ q'.tooFar).Perm (p :: (N ++ q.tooFar))) (hfast : Fast q' N')
    (hheap : IsHeap q'.time q'.tooFar) : Held q' N' := by
  refine ⟨hfast, hheap, hperm.nodup_iff.2 (List.nodup_cons.2 ⟨hp, h.apart⟩), ?_, ?_⟩
  · intro x hx
    rw [htime]
    rcases List.mem_cons.1 (hperm.mem_iff.1 hx) with rfl | hx
    · rw [Function.update_self]
      exact ht
    · have hne : x ≠ p := fun e => hp (e ▸ hx)
      rw [Function.update_of_ne hne]
      exact h.top x hx
  · intro x
    rw [hkind, hperm.mem_iff, List.mem_cons]
    by_cases hx : x = p
    · simp [hx, hk]
    · rw [Function.update_of_ne hx, h.kind x]
      simp [hx]

/-- **A callback due within the window** goes to the ring. -/
theorem Rep.insert_near (h : Rep q N) (hp : q.qType p = .InNoQueue) (hlo : q.minTime ≤ t)
    (hnear : t < q.minTime + 256) (ht : t < MaxTime) :
    Rep (q.insert p t) (N ++ [p]) ∧ (q.insert p t).tooFar = q.tooFar := by
  have h64 : t < 2 ^ 64 := ht.trans maxTime_lt
  have hnot := (h.kind p).1 hp
  have hpN : p ∉ N := fun hm => hnot (List.mem_append_left _ hm)
  have hpF : ∀ x ∈ q.tooFar, x ≠ p := fun x hx e => hnot (List.mem_append_right _ (e ▸ hx))
  set q₁ : TQueue := { q with time := Function.update q.time p t } with hq₁
  have hold : ∀ x, x ≠ p → q₁.time x = q.time x := fun x hx => Function.update_of_ne hx _ _
  have hreach : q₁.inReach t = true := (inReach_iff hlo h64).2 (by show (t - q.minTime) % _ < _; omega)
  have hins : q.insert p t = q₁.addNode p t := by
    unfold TQueue.insert
    exact if_pos hreach
  have hfast : Fast (q₁.addNode p t) (N ++ [p]) := by
    refine Fast.addNode ?_ hpN (Function.update_self _ _ _) hlo hnear h64
    exact h.toFast.retime _ fun x hx => hold x fun e => hpN (e ▸ hx)
  have hperm : (N ++ [p] ++ q.tooFar).Perm (p :: (N ++ q.tooFar)) := by
    rw [List.append_assoc]
    exact List.perm_middle
  have hheap : IsHeap q₁.time q.tooFar := h.heap.congr fun x hx => hold x (hpF x hx)
  have hheld : Held (q₁.addNode p t) (N ++ [p]) :=
    h.toHeld.insert hnot ht rfl rfl (by decide) hperm hfast hheap
  rw [hins]
  refine ⟨⟨hheld, ?_, ?_⟩, rfl⟩
  · intro x hx
    show q.minTooFar ≤ q₁.time x
    rw [hold x (hpF x hx)]
    exact h.below x hx
  · rcases h.reached with hr | ⟨x, hx, hxt⟩
    · exact .inl hr
    · refine .inr ⟨x, hx, ?_⟩
      show q₁.time x = q.minTooFar
      rw [hold x (hpF x hx)]
      exact hxt

/-- **A callback due behind the window** goes to the heap. -/
theorem Rep.insert_far (h : Rep q N) (hp : q.qType p = .InNoQueue) (hlo : q.minTime ≤ t)
    (hfar : 256 ≤ (t - q.minTime) % 2 ^ 32) (ht : t < MaxTime) :
    Rep (q.insert p t) N ∧ (q.insert p t).tooFar.Perm (p :: q.tooFar) := by
  have h64 : t < 2 ^ 64 := ht.trans maxTime_lt
  have hnot := (h.kind p).1 hp
  have hpN : p ∉ N := fun hm => hnot (List.mem_append_left _ hm)
  have hpF : ∀ x ∈ q.tooFar, x ≠ p := fun x hx e => hnot (List.mem_append_right _ (e ▸ hx))
  set q₁ : TQueue := { q with time := Function.update q.time p t } with hq₁
  have hold : ∀ x, x ≠ p → q₁.time x = q.time x := fun x hx => Function.update_of_ne hx _ _
  have hnew : q₁.time p = t := Function.update_self _ _ _
  have hreach : ¬q₁.inReach t = true := by
    rw [inReach_iff (q := q₁) hlo h64]
    show ¬(t - q.minTime) % _ < _
    omega
  set q' : TQueue :=
    { q₁ with
      qType := Function.update q.qType p .InTooFarQueue
      tooFar := pushHeap q₁.time q.tooFar p
      minTooFar := if t < q.minTooFar then t else q.minTooFar } with hq'
  have hins : q.insert p t = q' := by
    unfold TQueue.insert
    exact if_neg hreach
  have hpush : q'.tooFar.Perm (p :: q.tooFar) := pushHeap_perm q.tooFar p
  have hfast := h.toFast.retime q₁.time fun x hx => hold x fun e => hpN (e ▸ hx)
  have hheap : IsHeap q'.time q'.tooFar := isHeap_pushHeap (h.heap.congr fun x hx => hold x (hpF x hx)) p
  have hheld := h.toHeld.insert hnot ht rfl rfl (by decide) ((hpush.append_left N).trans List.perm_middle) (hfast.heap _ _ _) hheap
  rw [hins]
  refine ⟨⟨hheld, ?_, ?_⟩, hpush⟩
  · -- `minTooFar` bounds the heap with the new element in it, and is reached there
    intro x hx
    show (if t < q.minTooFar then t else q.minTooFar) ≤ q₁.time x
    rcases List.mem_cons.1 (hpush.mem_iff.1 hx) with rfl | hx
    · rw [hnew]
      split <;> omega
    · rw [hold x (hpF x hx)]
      have := h.below x hx
      split <;> omega
  · show (if t < q.minTooFar then t else q.minTooFar) = MaxTime ∨ ∃ x ∈ q'.tooFar,
      q₁.time x = if t < q.minTooFar then t else q.minTooFar
    by_cases hlt : t < q.minTooFar
    · rw [if_pos hlt]
      exact .inr ⟨p, hpush.mem_iff.2 List.mem_cons_self, hnew⟩
    · rw [if_neg hlt]
      rcases h.reached with hr | ⟨x, hx, hxt⟩
      · exact .inl hr
      · refine .inr ⟨x, hpush.mem_iff.2 (List.mem_cons_of_mem p hx), ?_⟩
        rw [hold x (hpF x hx)]
        exact hxt

/-! ## Draining the heap -/

/-- The first callback that is too far for the ring is also too far by the 32-bit comparison. -/
def DrainOk (q : TQueue) : Prop :=
  ∀ x ∈ q.tooFar, 256 ≤ q.time x - q.minTime →
    (∀ y ∈ q.tooFar, 256 ≤ q.time y - q.minTime → q.time x ≤ q.time y) → 256 ≤ (q.time x - q.minTime) % 2 ^ 32

/-- One turn of the loop of `adjustTooFar`. -/
theorem Held.move {x : ℕ} {l : List ℕ} (h : Held q N) (hl : q.tooFar = x :: l) (hlo : q.minTime ≤ q.time x)
    (hhi : q.time x < q.minTime + 256) :
    Held { q.addNode x (q.time x) with tooFar := popHeap q.time q.tooFar } (N ++ [x]) ∧
      (popHeap q.time q.tooFar).Perm l := by
  have hapart := h.apart
  rw [hl] at hapart
  have hxN : x ∉ N := fun hm => (List.disjoint_of_nodup_append hapart) hm List.mem_cons_self
  have h64 : q.time x < 2 ^ 64 := (h.top x (by rw [hl]; simp)).trans maxTime_lt
  have hfast := h.toFast.addNode hxN rfl hlo hhi h64
  have hpop : (popHeap q.time q.tooFar).Perm l := by
    rw [hl]
    exact popHeap_perm x l
  have hperm : (N ++ [x] ++ popHeap q.time q.tooFar).Perm (N ++ q.tooFar) := by
    rw [List.append_assoc]
    have hcons := (hpop.cons x).append_left N
    rw [← hl] at hcons
    exact hcons
  refine ⟨⟨hfast.heap _ _ _, ?_, ?_, ?_, ?_⟩, hpop⟩
  · have hheap := h.heap
    rw [hl] at hheap
    show IsHeap q.time (popHeap q.time q.tooFar)
    rw [hl]
    exact isHeap_popHeap hheap
  · exact hperm.nodup_iff.2 h.apart
  · intro y hy
    exact h.top y (hperm.mem_iff.1 hy)
  · intro y
    show Function.update q.qType x .InFastQueue y = .InNoQueue ↔ y ∉ N ++ [x] ++ popHeap q.time q.tooFar
    rw [hperm.mem_iff]
    by_cases hyx : y = x
    · subst hyx
      simp [hl]
    · rw [Function.update_of_ne hyx]
      exact h.kind y

theorem drain_nil {fuel : ℕ} (hl : q.tooFar = []) : drain (fuel + 1) q = { q with minTooFar := MaxTime } := by
  unfold TQueue.drain
  rw [hl]

theorem drain_cons {fuel x : ℕ} {l : List ℕ} (hl : q.tooFar = x :: l) :
    drain (fuel + 1) q =
      if q.inReach (q.time x) then
        drain fuel { q.addNode x (q.time x) with tooFar := popHeap q.time q.tooFar }
      else { q with minTooFar := q.time x } := by
  rw [TQueue.drain, hl]
  simp only
  rw [← hl]
  rfl

/-- The loop ends with `minTooFar` at the least time of what is left. -/
theorem Held.close {m : ℕ} (h : Held q N) (hb : ∀ p ∈ q.tooFar, m ≤ q.time p)
    (hr : m = MaxTime ∨ ∃ p ∈ q.tooFar, q.time p = m) : Rep { q with minTooFar := m } N :=
  ⟨⟨h.toFast.heap _ _ m, h.heap, h.apart, h.top, h.kind⟩, hb, hr⟩

/-- **Draining.** What is due within the window moves to the ring, in the order of the heap. -/
theorem Held.drain (fuel : ℕ) (h : Held q N) (hok : DrainOk q) (hlo : ∀ x ∈ q.tooFar, q.minTime ≤ q.time x)
    (hfuel : q.tooFar.length < fuel) :
    ∃ D, Rep (drain fuel q) (N ++ D) ∧ (drain fuel q).time = q.time ∧ (drain fuel q).minTime = q.minTime ∧
      (D ++ (drain fuel q).tooFar).Perm q.tooFar ∧
      ∀ x ∈ (drain fuel q).tooFar, 256 ≤ q.time x - q.minTime := by
  induction fuel generalizing q N with
  | zero => omega
  | succ fuel ih =>
    cases hl : q.tooFar with
    | nil =>
      have hnone : ∀ x, x ∉ q.tooFar := by
        rw [hl]
        exact fun x => List.not_mem_nil
      rw [drain_nil hl, ← hl]
      refine ⟨[], ?_, rfl, rfl, List.Perm.refl _, fun x hx => absurd hx (hnone x)⟩
      rw [List.append_nil]
      exact h.close (fun x hx => absurd hx (hnone x)) (.inl rfl)
    | cons x l =>
      have hx : x ∈ q.tooFar := by
        rw [hl]
        exact List.mem_cons_self
      have hheap := h.heap
      rw [hl] at hheap
      have hleast : ∀ y ∈ q.tooFar, q.time x ≤ q.time y := by
        intro y hy
        rw [hl] at hy
        rcases List.mem_cons.1 hy with rfl | hy
        · exact le_rfl
        · exact hheap.head_le y hy
      have h64 : q.time x < 2 ^ 64 := (h.top x (List.mem_append_right _ hx)).trans maxTime_lt
      have hreach := inReach_iff (hlo x hx) h64
      rw [drain_cons hl, ← hl]
      split
      · -- the first one is in the window, and not only by its low bits
        rename_i hin
        have hmod := hreach.1 hin
        have hwin : q.time x - q.minTime < 256 := by
          by_contra hge
          have := hok x hx (by omega) fun y hy _ => hleast y hy
          omega
        obtain ⟨hmove, hpop⟩ := h.move hl (hlo x hx) (by omega)
        set q' : TQueue := { q.addNode x (q.time x) with tooFar := popHeap q.time q.tooFar } with hq'
        have hsub : ∀ y, y ∈ q'.tooFar ↔ y ∈ l := fun y => hpop.mem_iff
        have hmem : ∀ y, y ∈ q'.tooFar → y ∈ q.tooFar := by
          intro y hy
          rw [hl]
          exact List.mem_cons_of_mem x ((hsub y).1 hy)
        -- the earliest callback too far is the same one after the move
        have hok' : DrainOk q' := by
          intro y hy hge hall
          refine hok y (hmem y hy) hge fun z hz hzge => hall z ?_ hzge
          rw [hl] at hz
          rcases List.mem_cons.1 hz with hzx | hz
          · have hxge : 256 ≤ q.time x - q.minTime := hzx ▸ hzge
            omega
          · exact (hsub z).2 hz
        obtain ⟨D, hrep, htime, hmin, hperm, hrest⟩ := ih hmove hok' (fun y hy => hlo y (hmem y hy)) (by
          rw [hpop.length_eq]
          rw [hl, List.length_cons] at hfuel
          omega)
        refine ⟨x :: D, ?_, htime, hmin, ?_, hrest⟩
        · rw [List.append_assoc, List.singleton_append] at hrep
          exact hrep
        · rw [hl, List.cons_append]
          exact (hperm.trans hpop).cons x
      · rename_i hout
        have hfar : 256 ≤ q.time x - q.minTime := by
          by_contra hlt
          exact hout (hreach.2 (by omega))
        refine ⟨[], ?_, rfl, rfl, List.Perm.refl _, fun y hy => ?_⟩
        · rw [List.append_nil]
          exact h.close hleast (.inr ⟨x, hx, rfl⟩)
        · have hle := hleast y hy
          omega

/-! ## The next job -/

/-- `nextJob` gets to `adjustTooFar`. -/
def Drains (q : TQueue) (c : ℕ) : Prop :=
  ¬((q.access q.minPos).isSome = true ∧ q.minTime = c) ∧ q.minTooFar ≤ c

/-- What `nextJob` has to give: the first callback of the ring that is due, if any is due. -/
structure Served (q : TQueue) (N : List ℕ) (c : ℕ) (o : Option ℕ) (q' : TQueue) (D : List ℕ) : Prop where
  time : q'.time = q.time
  minTime : q'.minTime = c
  heap : (D ++ q'.tooFar).Perm q.tooFar
  idle : o = none → Rep q' (N ++ D) ∧ ∀ x ∈ N ++ q.tooFar, q.time x ≠ c
  gives : ∀ p, o = some p → Rep q' ((N ++ D).erase p) ∧ ∃ l, (N ++ D).filter (fun x => q.time x = c) = p :: l

/-- Taking a callback leaves the heap alone. -/
theorem Rep.take (h : Rep q N) (hp : q.access q.minPos = some p) : Rep (q.take p) (N.erase p) := by
  obtain ⟨rest, hrest, -⟩ := h.toFast.head_eq hp
  have hpN : p ∈ N := (mem_bucket.1 (by rw [hrest]; exact List.mem_cons_self)).1
  have hfast := h.toFast.take hp
  have herase : N.erase p ++ q.tooFar = (N ++ q.tooFar).erase p := (List.erase_append_left _ hpN).symm
  refine ⟨⟨hfast, h.heap, ?_, ?_, ?_⟩, h.below, h.reached⟩
  · show (N.erase p ++ q.tooFar).Nodup
    rw [herase]
    exact h.apart.erase p
  · intro x hx
    have hx : x ∈ N.erase p ++ q.tooFar := hx
    rw [herase] at hx
    exact h.top x (List.mem_of_mem_erase hx)
  · intro x
    show Function.update q.qType p .InNoQueue x = .InNoQueue ↔ x ∉ N.erase p ++ q.tooFar
    rw [herase, h.apart.mem_erase_iff]
    by_cases hx : x = p
    · simp [hx]
    · rw [Function.update_of_ne hx, h.kind x]
      simp [hx]

theorem Rep.served_take (h : Rep q N) (hp : q.access q.minPos = some p) :
    Served q N q.minTime (some p) (q.take p) [] := by
  obtain ⟨rest, hrest, -⟩ := h.toFast.head_eq hp
  refine ⟨rfl, rfl, List.Perm.refl _, fun h0 => (by cases h0), fun x hx => ?_⟩
  obtain rfl := Option.some.inj hx
  rw [List.append_nil]
  exact ⟨h.take hp, rest, hrest⟩

/-- The loop that seeks the current time, on the whole queue. -/
theorem Rep.seek (h : Rep q N) (hlo : q.minTime ≤ c) (hc : c < MaxTime) (hfut : ∀ x ∈ N, c ≤ q.time x) :
    Rep (seek c (c - q.minTime) q) N ∧ (seek c (c - q.minTime) q).minTime = c ∧
      (seek c (c - q.minTime) q).time = q.time ∧ (seek c (c - q.minTime) q).tooFar = q.tooFar := by
  obtain ⟨hfast, hmin, htime, hfar, hmf, hkind⟩ := h.toFast.seek hlo (hc.trans maxTime_lt) hfut
  refine ⟨⟨⟨hfast, ?_, ?_, ?_, ?_⟩, ?_, ?_⟩, hmin, htime, hfar⟩
  · rw [htime, hfar]
    exact h.heap
  · rw [hfar]
    exact h.apart
  · rw [hfar, htime]
    exact h.top
  · rw [hfar, hkind]
    exact h.kind
  · rw [hfar, htime, hmf]
    exact h.below
  · rw [hfar, htime, hmf]
    exact h.reached

/-- `nextJob` once nothing in the heap is due. -/
theorem Rep.nextJobSlow (h : Rep q N) (hlo : q.minTime ≤ c) (hc : c < MaxTime) (hfut : ∀ x ∈ N, c ≤ q.time x)
    (hfar : ∀ x ∈ q.tooFar, c < q.time x) :
    Served q N c (q.nextJobSlow c).1 (q.nextJobSlow c).2 [] := by
  unfold TQueue.nextJobSlow
  by_cases h0 : q.nNodes = 0
  · rw [if_pos h0]
    have hN : N = [] := List.eq_nil_of_length_eq_zero (h.count.symm.trans h0)
    subst hN
    have hfast := h.toFast.rebase (hc.trans maxTime_lt)
    refine ⟨rfl, rfl, List.Perm.refl _, fun _ => ⟨?_, fun x hx => ?_⟩, fun p hp => by cases hp⟩
    · exact ⟨⟨hfast, h.heap, h.apart, h.top, h.kind⟩, h.below, h.reached⟩
    · have := hfar x hx
      omega
  · rw [if_neg h0]
    obtain ⟨hrep, hmin, htime, htooFar⟩ := h.seek hlo hc hfut
    simp only
    split
    · rename_i hnone
      have hchain := hrep.chain 0 (by omega)
      rw [slot_zero hrep.pos] at hchain
      have hempty := hchain.eq_none_iff.1 hnone
      refine ⟨htime, hmin, ?_, fun _ => ⟨?_, fun x hx => ?_⟩, fun p hp => by cases hp⟩
      · rw [htooFar]
        exact List.Perm.refl _
      · rw [List.append_nil]
        exact hrep
      · rcases List.mem_append.1 hx with hx | hx
        · intro ht
          have hm := (mem_bucket (q := TQueue.seek c (c - q.minTime) q) (d := 0)).2 ⟨hx, by rw [htime, hmin]; exact ht⟩
          rw [hempty] at hm
          exact absurd hm List.not_mem_nil
        · have := hfar x hx
          omega
    · rename_i p hp
      have hs := hrep.served_take hp
      rw [hmin] at hs
      refine ⟨hs.time.trans htime, hs.minTime, ?_, fun h0 => (by cases h0), fun x hx => ?_⟩
      · rw [← htooFar]
        exact hs.heap
      · obtain ⟨hrep', l, hl⟩ := hs.gives x hx
        rw [htime] at hl
        exact ⟨hrep', l, hl⟩

/-- **The next job.** With nothing due before the current time, `nextJob` gives the first callback of the ring
that is due now, the ones that come from the heap last. -/
theorem Rep.nextJob (h : Rep q N) (hlo : q.minTime ≤ c) (hhi : c ≤ q.minTime + 1) (hc : c < MaxTime)
    (hfut : ∀ x ∈ N ++ q.tooFar, c ≤ q.time x) (hok : Drains q c → DrainOk q) :
    ∃ o q' D, q.nextJob c = some (o, q') ∧ Served q N c o q' D := by
  have hheapLo : ∀ x ∈ q.tooFar, q.minTime ≤ q.time x := fun x hx =>
    hlo.trans (hfut x (List.mem_append_right _ hx))
  -- the queue after `adjustTooFar`, if that is called
  have hslow : ¬((q.access q.minPos).isSome = true ∧ q.minTime = c) →
      ∃ q₁ D, (if q.minTooFar ≤ c then q.adjustTooFar else some q) = some q₁ ∧ Rep q₁ (N ++ D) ∧
        q₁.time = q.time ∧ q₁.minTime = q.minTime ∧ (D ++ q₁.tooFar).Perm q.tooFar ∧
        ∀ x ∈ q₁.tooFar, c < q.time x := by
    intro hnot
    by_cases hmf : q.minTooFar ≤ c
    · rw [if_pos hmf]
      -- below `MaxTime`, `minTooFar` is the time of some callback, so `tooFar` is not empty
      obtain ⟨x, hx, hxt⟩ : ∃ x ∈ q.tooFar, q.time x = q.minTooFar := by
        rcases h.reached with hr | hr
        · omega
        · exact hr
      obtain ⟨D, hrep, htime, hmin, hperm, hrest⟩ :=
        Held.drain (q.tooFar.length + 1) h.toHeld (hok ⟨hnot, hmf⟩) hheapLo (by omega)
      have hadj : q.adjustTooFar = some (TQueue.drain (q.tooFar.length + 1) q) := by
        unfold TQueue.adjustTooFar
        cases hl : q.tooFar with
        | nil =>
          rw [hl] at hx
          cases hx
        | cons y l => rfl
      refine ⟨_, D, hadj, hrep, htime, hmin, hperm, fun y hy => ?_⟩
      have := hrest y hy
      omega
    · rw [if_neg hmf]
      refine ⟨q, [], rfl, ?_, rfl, rfl, List.Perm.refl _, fun x hx => ?_⟩
      · rw [List.append_nil]
        exact h
      · have := h.below x hx
        omega
  by_cases hfast : (q.access q.minPos).isSome = true ∧ q.minTime = c
  · obtain ⟨p, hp⟩ := Option.isSome_iff_exists.1 hfast.1
    refine ⟨some p, q.take p, [], ?_, ?_⟩
    · unfold TQueue.nextJob
      rw [hp, decide_eq_true hfast.2]
    · rw [← hfast.2]
      exact h.served_take hp
  · obtain ⟨q₁, D, hq₁, hrep, htime, hmin, hperm, hfar⟩ := hslow hfast
    -- the drain moves callbacks and adds none
    have hmemD : ∀ x ∈ N ++ D, x ∈ N ++ q.tooFar := by
      intro x hx
      rcases List.mem_append.1 hx with hx | hx
      · exact List.mem_append_left _ hx
      · exact List.mem_append_right _ (hperm.mem_iff.1 (List.mem_append_left _ hx))
    have hs := hrep.nextJobSlow (c := c) (by omega) hc (fun x hx => by rw [htime]; exact hfut x (hmemD x hx))
      (fun x hx => by rw [htime]; exact hfar x hx)
    refine ⟨(q₁.nextJobSlow c).1, (q₁.nextJobSlow c).2, D, ?_, hs.time.trans htime, hs.minTime, ?_, fun h0 => ?_,
      fun p hp => ?_⟩
    · unfold TQueue.nextJob
      split
      · rename_i p hp hdec
        exact absurd ⟨by rw [hp]; rfl, of_decide_eq_true hdec⟩ hfast
      · rw [hq₁]
        rfl
    · exact (hs.heap.append_left D).trans hperm
    · obtain ⟨hrep', hne⟩ := hs.idle h0
      rw [List.append_nil] at hrep'
      refine ⟨hrep', fun x hx => ?_⟩
      rw [← htime]
      refine hne x ?_
      rcases List.mem_append.1 hx with hx | hx
      · exact List.mem_append_left _ (List.mem_append_left _ hx)
      · rcases List.mem_append.1 (hperm.mem_iff.2 hx) with hx | hx
        · exact List.mem_append_left _ (List.mem_append_right _ hx)
        · exact List.mem_append_right _ hx
    · obtain ⟨hrep', l, hl⟩ := hs.gives p hp
      rw [List.append_nil] at hrep' hl
      rw [htime] at hl
      exact ⟨hrep', l, hl⟩

end TQueue

end Esesc.Suc
