import Esesc.Suc.TQueueRep
import Esesc.Lib.Machine
import Mathlib.Data.Multiset.AddSub

/-!
# Runs of the event scheduler

`minTime` is the clock while a callback runs, and one cycle behind it between two calls of
`advanceClock`. A callback that is inserted within the window goes to its list at once; one
behind the window goes to the heap, and to its list only in the cycle in which it is due,
behind all that went there before.

* `Good`: what the queue holds is what was inserted and has not fired.
* `Good.insert`, `Good.nextJob`: every step keeps it, if the 32-bit distances do not deceive.
* `scheduler_correct`: with 16-bit delays they do not. Every callback fires once and in its
  cycle, and in insertion order if it was inserted within the window.
* `not_early`: with absolute times, no callback fires early while they do not.
-/

namespace Esesc.Suc

open Esesc.Lib TQueue

/-- Inserted within the window of the queue: less than 256 cycles before it is due from a callback that runs,
and less than 255 between two cycles. -/
def Job.isNear (j : Job) : Bool := j.due - j.clock < if j.inside ∨ j.clock = 0 then 256 else 255

namespace EventScheduler

variable {s s' : EventScheduler} {N : List ℕ} {t cb : ℕ}

/-- The callbacks for a given cycle that meet `P`. -/
def dueAt (P : Job → Bool) (d : ℕ) (js : List Job) : List Job := js.filter fun j => P j && decide (j.due = d)

/-- The queue holds the callbacks that were inserted and have not fired; `N` are the ones in the ring. -/
structure Good (s : EventScheduler) (N : List ℕ) : Prop where
  rep : Rep s.cbQ N
  low : s.cbQ.minTime ≤ s.globalClock
  within : s.inside = true ∨ s.globalClock = 0 → s.globalClock = s.cbQ.minTime
  between : ¬(s.inside = true ∨ s.globalClock = 0) → s.globalClock = s.cbQ.minTime + 1
  clock : s.globalClock ≤ MaxTime
  future : ∀ x ∈ N ++ s.cbQ.tooFar, s.globalClock ≤ s.cbQ.time x
  jobs : ∀ x ∈ N ++ s.cbQ.tooFar, (s.job x).due = s.cbQ.time x
  once : (s.inserted : Multiset Job) =
    ((s.fired.map Prod.fst : List Job) : Multiset Job) + (((N ++ s.cbQ.tooFar).map s.job : List Job) : Multiset Job)
  onTime : ∀ r ∈ s.fired, r.2 = r.1.due
  far : ∀ x ∈ s.cbQ.tooFar, (s.job x).isNear = false
  fifo : ∀ d, dueAt Job.isNear d s.inserted =
    dueAt Job.isNear d (s.fired.map Prod.fst) ++ dueAt Job.isNear d (N.map s.job)

theorem Good.high (h : Good s N) : s.globalClock ≤ s.cbQ.minTime + 1 := by
  by_cases hb : s.inside = true ∨ s.globalClock = 0
  · have := h.within hb
    omega
  · exact (h.between hb).le

/-! ## The start -/

theorem good_init (time : ℕ → ℕ) (next : ℕ → Option ℕ) (accessTail : ℕ → ℕ) :
    Good (init (TQueue.create time next accessTail)) [] := by
  have hrep := rep_create time next accessTail
  refine ⟨hrep, ?_, ?_, ?_, ?_, ?_, ?_, ?_, ?_, ?_, ?_⟩
  all_goals simp [init, TQueue.create, reset, dueAt]

/-! ## Insertions -/

theorem insert_isNear (h : Good s N) (ht : s.globalClock < t) (cb : ℕ) :
    (⟨cb, t, s.globalClock, s.inside⟩ : Job).isNear = true ↔ t < s.cbQ.minTime + 256 := by
  unfold Job.isNear
  rw [decide_eq_true_eq]
  by_cases hb : s.inside = true ∨ s.globalClock = 0
  · have := h.within hb
    simp only [hb, if_true]
    omega
  · have := h.between hb
    simp only [hb, if_false]
    omega

/-- What is in the queue was inserted. -/
theorem Good.job_mem (h : Good s N) {x : ℕ} (hx : x ∈ N ++ s.cbQ.tooFar) : s.job x ∈ s.inserted := by
  have hm : s.job x ∈ (s.inserted : Multiset Job) := by
    rw [h.once]
    exact Multiset.mem_add.2 (.inr (Multiset.mem_coe.2 (List.mem_map_of_mem hx)))
  exact Multiset.mem_coe.1 hm

/-- The queue is named here, so that no proof unfolds its insertion. -/
theorem insert_eq (s : EventScheduler) (cb t : ℕ) :
    ∃ q', s.cbQ.insert cb t = q' ∧ s.insert cb t =
      { s with
        cbQ := q'
        job := Function.update s.job cb ⟨cb, t, s.globalClock, s.inside⟩
        inserted := s.inserted ++ [⟨cb, t, s.globalClock, s.inside⟩] } := ⟨_, rfl, rfl⟩

theorem dueAt_append (P : Job → Bool) (d : ℕ) (l l' : List Job) :
    dueAt P d (l ++ l') = dueAt P d l ++ dueAt P d l' := List.filter_append _ _

/-- The callbacks that were in the queue keep their jobs. -/
theorem map_job_of_notMem {job : ℕ → Job} {l : List ℕ} (hcb : cb ∉ l) (j : Job) :
    l.map (Function.update job cb j) = l.map job :=
  List.map_congr_left fun _ hx => Function.update_of_ne (ne_of_mem_of_not_mem hx hcb) _ _

/-- The invariant after an insertion, once the new members `N'` of the ring are known. -/
theorem Good.insert_members {q' : TQueue} {j : Job} {N' : List ℕ} (h : Good s N) (hnot : cb ∉ N ++ s.cbQ.tooFar)
    (ht : s.globalClock < t) (hdue : j.due = t) (htime : q'.time = Function.update s.cbQ.time cb t)
    (hmin : q'.minTime = s.cbQ.minTime) (hrep : Rep q' N')
    (hperm : (N' ++ q'.tooFar).Perm (cb :: (N ++ s.cbQ.tooFar)))
    (hfar : ∀ x ∈ q'.tooFar, (Function.update s.job cb j x).isNear = false)
    (hfifo : ∀ d, dueAt Job.isNear d (s.inserted ++ [j]) =
      dueAt Job.isNear d (s.fired.map Prod.fst) ++ dueAt Job.isNear d (N'.map (Function.update s.job cb j))) :
    Good { s with cbQ := q', job := Function.update s.job cb j, inserted := s.inserted ++ [j] } N' := by
  -- every member is the new callback or one that was there
  have hcases : ∀ x ∈ N' ++ q'.tooFar, x = cb ∨ x ≠ cb ∧ x ∈ N ++ s.cbQ.tooFar := by
    intro x hx
    rcases List.mem_cons.1 (hperm.mem_iff.1 hx) with hx | hx
    · exact .inl hx
    · exact .inr ⟨fun e => hnot (e ▸ hx), hx⟩
  refine ⟨hrep, ?_, ?_, ?_, h.clock, ?_, ?_, ?_, h.onTime, hfar, hfifo⟩
  · show q'.minTime ≤ s.globalClock
    rw [hmin]
    exact h.low
  · show _ → s.globalClock = q'.minTime
    rw [hmin]
    exact h.within
  · show _ → s.globalClock = q'.minTime + 1
    rw [hmin]
    exact h.between
  · intro x hx
    show s.globalClock ≤ q'.time x
    rw [htime]
    rcases hcases x hx with rfl | ⟨hne, hx⟩
    · rw [Function.update_self]
      exact ht.le
    · rw [Function.update_of_ne hne]
      exact h.future x hx
  · intro x hx
    show (Function.update s.job cb j x).due = q'.time x
    rw [htime]
    rcases hcases x hx with rfl | ⟨hne, hx⟩
    · rw [Function.update_self, Function.update_self]
      exact hdue
    · rw [Function.update_of_ne hne, Function.update_of_ne hne]
      exact h.jobs x hx
  · show ((s.inserted ++ [j] : List Job) : Multiset Job) =
      ((s.fired.map Prod.fst : List Job) : Multiset Job) +
        (((N' ++ q'.tooFar).map (Function.update s.job cb j) : List Job) : Multiset Job)
    rw [Multiset.coe_eq_coe.2 (hperm.map _), List.map_cons, map_job_of_notMem hnot, Function.update_self,
      ← Multiset.cons_coe, Multiset.add_cons, ← h.once, Multiset.cons_coe, Multiset.coe_eq_coe]
    exact List.perm_append_singleton _ _

/-- **An insertion** keeps the invariant, if the 32-bit distance does not deceive. -/
theorem Good.insert (h : Good s N) (hcb : s.cbQ.qType cb = .InNoQueue) (ht : s.globalClock < t)
    (hmax : t < MaxTime) (hlow : (t - s.cbQ.minTime) % 2 ^ 32 < 256 → t - s.cbQ.minTime < 256) :
    ∃ N', Good (s.insert cb t) N' := by
  have hlo := h.low
  have hnot := (h.rep.kind cb).1 hcb
  have hnear := insert_isNear (t := t) h ht cb
  set j : Job := ⟨cb, t, s.globalClock, s.inside⟩ with hj
  obtain ⟨q', hq', hs⟩ := s.insert_eq cb t
  have htime : q'.time = Function.update s.cbQ.time cb t := by rw [← hq', insert_time]
  have hmin : q'.minTime = s.cbQ.minTime := by rw [← hq', insert_minTime]
  have hnotN : cb ∉ N := fun hm => hnot (List.mem_append_left _ hm)
  have hnotFar : cb ∉ s.cbQ.tooFar := fun hm => hnot (List.mem_append_right _ hm)
  rw [hs]
  by_cases hwin : t < s.cbQ.minTime + 256
  · obtain ⟨hrep, hfar⟩ := h.rep.insert_near hcb (by omega) hwin hmax
    rw [hq'] at hrep hfar
    refine ⟨N ++ [cb], h.insert_members hnot ht rfl htime hmin hrep ?_ ?_ ?_⟩
    · rw [hfar, List.append_assoc]
      exact List.perm_middle
    · intro x hx
      rw [hfar] at hx
      rw [Function.update_of_ne (ne_of_mem_of_not_mem hx hnotFar)]
      exact h.far x hx
    · -- the new one is the last of its cycle in both lists
      intro d
      rw [List.map_append, map_job_of_notMem hnotN, List.map_singleton, Function.update_self, dueAt_append,
        dueAt_append, h.fifo, List.append_assoc]
  · obtain ⟨hrep, hperm⟩ := h.rep.insert_far hcb (by omega) (by omega) hmax
    rw [hq'] at hrep hperm
    -- a callback that goes to the heap is not of the ones that are kept in order
    have hjfar : j.isNear = false := Bool.eq_false_iff.2 fun hn => hwin (hnear.1 hn)
    refine ⟨N, h.insert_members hnot ht rfl htime hmin hrep ?_ ?_ ?_⟩
    · exact (hperm.append_left N).trans List.perm_middle
    · intro x hx
      rcases List.mem_cons.1 (hperm.mem_iff.1 hx) with rfl | hx
      · rw [Function.update_self]
        exact hjfar
      · rw [Function.update_of_ne (ne_of_mem_of_not_mem hx hnotFar)]
        exact h.far x hx
    · intro d
      have hnil : dueAt Job.isNear d [j] = [] := by simp [dueAt, hjfar]
      rw [map_job_of_notMem hnotN, dueAt_append, hnil, List.append_nil, h.fifo]

/-! ## The turns of the loop -/

theorem dueAt_map (P : Job → Bool) (d : ℕ) {time : ℕ → ℕ} {job : ℕ → Job} {l : List ℕ}
    (h : ∀ x ∈ l, (job x).due = time x) :
    dueAt P d (l.map job) = ((l.filter fun x => time x = d).filter fun x => P (job x)).map job := by
  unfold dueAt
  rw [List.filter_map, List.filter_filter]
  congr 1
  refine List.filter_congr fun x hx => ?_
  simp only [Function.comp_apply, h x hx]

/-- Erasing the first callback of a cycle takes it away from the front of that cycle, and from no other. -/
theorem dueAt_erase (P : Job → Bool) (d : ℕ) {time : ℕ → ℕ} {job : ℕ → Job} {l rest : List ℕ} {c p : ℕ}
    (h : ∀ x ∈ l, (job x).due = time x) (hp : l.filter (fun x => time x = c) = p :: rest) :
    dueAt P d (l.map job) = dueAt P d [job p] ++ dueAt P d ((l.erase p).map job) := by
  have hmem : p ∈ l.filter fun x => time x = c := by
    rw [hp]
    exact List.mem_cons_self
  obtain ⟨hpl, hpc⟩ := List.mem_filter.1 hmem
  rw [decide_eq_true_eq] at hpc
  have herase : (l.erase p).filter (fun x => time x = d) = (l.filter fun x => time x = d).erase p :=
    List.erase_filter.symm
  rw [dueAt_map P d h, dueAt_map P d fun x hx => h x (List.mem_of_mem_erase hx), herase]
  by_cases hd : d = c
  · rw [hd, hp, List.erase_cons_head, List.filter_cons]
    unfold dueAt
    by_cases hP : P (job p) = true
    · simp [hP, h p hpl, hpc]
    · simp [hP]
  · have hnot : p ∉ l.filter fun x => time x = d := by
      intro hm
      have := (List.mem_filter.1 hm).2
      rw [decide_eq_true_eq] at this
      omega
    have hnil : dueAt P d [job p] = [] := by
      unfold dueAt
      simp [h p hpl, hpc, Ne.symm hd]
    rw [List.erase_of_not_mem hnot, hnil, List.nil_append]

/-- What a turn of the loop does: it runs a callback that is due, if there is one, and ends the cycle
otherwise. -/
def Turn (s s' : EventScheduler) (N : List ℕ) : Prop :=
  s'.inserted = s.inserted ∧
    ((∃ x ∈ N ++ s.cbQ.tooFar, s.cbQ.time x = s.globalClock ∧
        s'.fired = s.fired ++ [(s.job x, s.globalClock)] ∧ s'.globalClock = s.globalClock) ∨
      ((∀ x ∈ N ++ s.cbQ.tooFar, s.cbQ.time x ≠ s.globalClock) ∧
        s'.fired = s.fired ∧ s'.globalClock = s.globalClock + 1))

section Served

variable {o : Option ℕ} {q' : TQueue} {D : List ℕ} {p : ℕ}

/-- Serving the clock moves callbacks from the heap to the ring, and nothing else. -/
theorem served_perm (hsv : Served s.cbQ N s.globalClock o q' D) :
    (N ++ D ++ q'.tooFar).Perm (N ++ s.cbQ.tooFar) := by
  rw [List.append_assoc]
  exact hsv.heap.append_left N

/-- What is left in the heap was there before. -/
theorem Good.far_served (h : Good s N) (hsv : Served s.cbQ N s.globalClock o q' D) :
    ∀ x ∈ q'.tooFar, (s.job x).isNear = false :=
  fun x hx => h.far x (hsv.heap.mem_iff.1 (List.mem_append_right _ hx))

/-- The callbacks from the heap were inserted behind the window. -/
theorem Good.fifo_served (h : Good s N) (hsv : Served s.cbQ N s.globalClock o q' D) (d : ℕ) :
    dueAt Job.isNear d s.inserted =
      dueAt Job.isNear d (s.fired.map Prod.fst) ++ dueAt Job.isNear d ((N ++ D).map s.job) := by
  have hnil : dueAt Job.isNear d (D.map s.job) = [] := by
    refine List.filter_eq_nil_iff.2 fun j hj => ?_
    obtain ⟨x, hx, rfl⟩ := List.mem_map.1 hj
    simp [h.far x (hsv.heap.mem_iff.1 (List.mem_append_left _ hx))]
  rw [List.map_append, dueAt_append, hnil, List.append_nil, h.fifo]

/-- Nothing is due: the cycle ends. -/
theorem Good.idle (h : Good s N) (hc : s.globalClock < MaxTime) (hsv : Served s.cbQ N s.globalClock none q' D) :
    Good { s with cbQ := q', inside := false, globalClock := s.globalClock + 1 } (N ++ D) := by
  have hperm := served_perm hsv
  obtain ⟨hrep, hidle⟩ := hsv.idle rfl
  refine ⟨hrep, ?_, ?_, ?_, hc, ?_, ?_, ?_, h.onTime, h.far_served hsv, h.fifo_served hsv⟩
  · show q'.minTime ≤ s.globalClock + 1
    rw [hsv.minTime]
    exact Nat.le_succ _
  · rintro (hi | hi)
    · cases hi
    · cases hi
  · intro _
    show s.globalClock + 1 = q'.minTime + 1
    rw [hsv.minTime]
  · intro x hx
    have hx := hperm.mem_iff.1 hx
    have h1 := h.future x hx
    have h2 := hidle x hx
    show s.globalClock + 1 ≤ q'.time x
    rw [hsv.time]
    omega
  · intro x hx
    show (s.job x).due = q'.time x
    rw [hsv.time]
    exact h.jobs x (hperm.mem_iff.1 hx)
  · rw [h.once, Multiset.coe_eq_coe.2 (hperm.map s.job).symm]

/-- The callback that is taken was in the queue, and is due. -/
theorem served_due (hsv : Served s.cbQ N s.globalClock (some p) q' D) :
    p ∈ N ++ D ∧ s.cbQ.time p = s.globalClock := by
  obtain ⟨-, rest, hp⟩ := hsv.gives p rfl
  have hm : p ∈ (N ++ D).filter fun x => s.cbQ.time x = s.globalClock := by
    rw [hp]
    exact List.mem_cons_self
  rw [List.mem_filter, decide_eq_true_eq] at hm
  exact hm

/-- The first callback that is due is taken and runs. -/
theorem Good.gives (h : Good s N) (hsv : Served s.cbQ N s.globalClock (some p) q' D) :
    Good { s with cbQ := q', inside := true, fired := s.fired ++ [(s.job p, s.globalClock)] } ((N ++ D).erase p) := by
  have hperm := served_perm hsv
  obtain ⟨hpM, hpc⟩ := served_due hsv
  obtain ⟨hrep, rest, hp⟩ := hsv.gives p rfl
  have hring : ∀ x ∈ N ++ D, x ∈ N ++ s.cbQ.tooFar := fun x hx => hperm.mem_iff.1 (List.mem_append_left _ hx)
  have hcons : (p :: ((N ++ D).erase p ++ q'.tooFar)).Perm (N ++ s.cbQ.tooFar) :=
    ((List.perm_cons_erase hpM).symm.append_right q'.tooFar).trans hperm
  -- what is left was in the queue
  have hleft : ∀ x ∈ (N ++ D).erase p ++ q'.tooFar, x ∈ N ++ s.cbQ.tooFar := fun x hx =>
    hcons.mem_iff.1 (List.mem_cons_of_mem p hx)
  refine ⟨hrep, ?_, ?_, ?_, h.clock, ?_, ?_, ?_, ?_, h.far_served hsv, ?_⟩
  · exact hsv.minTime.le
  · intro _
    exact hsv.minTime.symm
  · intro hi
    exact absurd (.inl rfl) hi
  · intro x hx
    show s.globalClock ≤ q'.time x
    rw [hsv.time]
    exact h.future x (hleft x hx)
  · intro x hx
    show (s.job x).due = q'.time x
    rw [hsv.time]
    exact h.jobs x (hleft x hx)
  · show (s.inserted : Multiset Job) =
      (((s.fired ++ [(s.job p, s.globalClock)]).map Prod.fst : List Job) : Multiset Job) +
        ((((N ++ D).erase p ++ q'.tooFar).map s.job : List Job) : Multiset Job)
    have hlast : (s.fired ++ [(s.job p, s.globalClock)]).map Prod.fst = s.fired.map Prod.fst ++ [s.job p] :=
      List.map_append
    rw [h.once, Multiset.coe_eq_coe.2 (hcons.map s.job).symm, hlast, ← Multiset.coe_add, Multiset.add_assoc,
      Multiset.coe_add [s.job p]]
    rfl
  · intro r hr
    rcases List.mem_append.1 hr with hr | hr
    · exact h.onTime r hr
    · rw [List.mem_singleton.1 hr, h.jobs p (hring p hpM), hpc]
  · intro d
    show _ = dueAt Job.isNear d ((s.fired ++ [(s.job p, s.globalClock)]).map Prod.fst) ++ _
    rw [h.fifo_served hsv, dueAt_erase _ _ (fun x hx => h.jobs x (hring x hx)) hp, List.map_append, dueAt_append,
      List.append_assoc]
    rfl

end Served

/-- **A turn of the loop** keeps the invariant, if the 32-bit distances do not deceive. -/
theorem Good.nextJob (h : Good s N) (hc : s.globalClock < MaxTime)
    (hok : Drains s.cbQ s.globalClock → DrainOk s.cbQ) :
    ∃ s' N', s.step .nextJob = some s' ∧ Good s' N' ∧ Turn s s' N := by
  obtain ⟨o, q', D, hq', hsv⟩ := h.rep.nextJob h.low h.high hc h.future hok
  cases o with
  | none =>
    have hnext : wrap64 (s.globalClock + 1) = s.globalClock + 1 := by
      have := maxTime_lt
      exact Nat.mod_eq_of_lt (by omega)
    refine ⟨_, N ++ D, ?_, h.idle hc hsv, rfl, .inr ⟨(hsv.idle rfl).2, rfl, rfl⟩⟩
    unfold step
    rw [hq', Option.map_some, hnext]
  | some p =>
    obtain ⟨hpM, hpc⟩ := served_due hsv
    have hpN : p ∈ N ++ s.cbQ.tooFar := (served_perm hsv).mem_iff.1 (List.mem_append_left _ hpM)
    refine ⟨_, (N ++ D).erase p, ?_, h.gives hsv, rfl, .inl ⟨p, hpN, hpc, rfl, rfl⟩⟩
    unfold step
    rw [hq', Option.map_some]

/-- At `MaxTime` the queue is empty, and the loop reads its empty heap. -/
theorem Good.nextJob_maxTime (h : Good s N) (hc : s.globalClock = MaxTime) : s.step .nextJob = none := by
  have hempty : N ++ s.cbQ.tooFar = [] := by
    refine List.eq_nil_iff_forall_not_mem.2 fun x hx => ?_
    have h1 := h.future x hx
    have h2 := h.rep.top x hx
    omega
  obtain ⟨hN, hF⟩ := List.append_eq_nil_iff.1 hempty
  have hmf : s.cbQ.minTooFar = MaxTime := by
    rcases h.rep.reached with hr | ⟨x, hx, -⟩
    · exact hr
    · rw [hF] at hx
      cases hx
  have hnone : s.cbQ.access s.cbQ.minPos = none := by
    have hchain := h.rep.chain 0 (by omega)
    rw [slot_zero h.rep.pos, hN] at hchain
    exact hchain
  have hadj : s.cbQ.adjustTooFar = none := by
    unfold TQueue.adjustTooFar
    rw [hF]
  unfold step TQueue.nextJob
  rw [hnone]
  simp only
  rw [if_pos (by omega), hadj]
  rfl

theorem Good.clock_lt (h : Good s N) (hs : s.step .nextJob = some s') : s.globalClock < MaxTime := by
  refine lt_of_le_of_ne h.clock fun hc => ?_
  rw [h.nextJob_maxTime hc] at hs
  cases hs

theorem Good.of_nextJob (h : Good s N) (hs : s.step .nextJob = some s')
    (hok : Drains s.cbQ s.globalClock → DrainOk s.cbQ) : ∃ N', Good s' N' ∧ Turn s s' N := by
  obtain ⟨s₁, N', hs₁, hgood, hturn⟩ := h.nextJob (h.clock_lt hs) hok
  obtain rfl := Option.some.inj (hs₁.symm.trans hs)
  exact ⟨N', hgood, hturn⟩

theorem schedule_eq {delta : ℕ} (hs : s.step (.schedule delta cb) = some s')
    (hmax : s.globalClock + delta < MaxTime) :
    s.cbQ.qType cb = .InNoQueue ∧ 0 < delta ∧ delta < 2 ^ 16 ∧ s' = s.insert cb (s.globalClock + delta) := by
  have hwrap : wrap64 (s.globalClock + delta) = s.globalClock + delta := Nat.mod_eq_of_lt (hmax.trans maxTime_lt)
  simp only [step, hwrap] at hs
  split at hs
  · rename_i hcond
    exact ⟨hcond.1, hcond.2.1, hcond.2.2, (Option.some.inj hs).symm⟩
  · cases hs

theorem scheduleAbs_eq {tim : ℕ} (hs : s.step (.scheduleAbs tim cb) = some s') :
    s.cbQ.qType cb = .InNoQueue ∧ s.globalClock < tim ∧ s' = s.insert cb tim := by
  simp only [step] at hs
  split at hs
  · rename_i hcond
    exact ⟨hcond.1, hcond.2.1, (Option.some.inj hs).symm⟩
  · cases hs

/-- A callback that is scheduled by a delay is always seen where it is. -/
theorem Good.schedule {delta : ℕ} (h : Good s N) (hs : s.step (.schedule delta cb) = some s')
    (hmax : s.globalClock + delta < MaxTime) : ∃ N', Good s' N' := by
  obtain ⟨hcb, hpos, hshort, rfl⟩ := schedule_eq hs hmax
  have hhigh := h.high
  exact h.insert hcb (by omega) hmax (by omega)

/-! ## Runs with delays -/

/-- What was inserted and has not fired. -/
def pending (s : EventScheduler) : Multiset Job :=
  (s.inserted : Multiset Job) - ((s.fired.map Prod.fst : List Job) : Multiset Job)

/-- The callbacks that meet `P` fire in the order of insertion, in every cycle. -/
def Fifo (P : Job → Bool) (s : EventScheduler) : Prop :=
  ∀ d, dueAt P d (s.fired.map Prod.fst) <+: dueAt P d s.inserted

/-- **What the scheduler promises.** Nothing fires that was not inserted, or more often. What is pending is
counted by `size` and not overdue; so what has become overdue has fired, and it has in its cycle. The loop of
`advanceClock` goes on: a turn fires a callback that is due, and only if there is none it ends the cycle. -/
structure Correct (s : EventScheduler) : Prop where
  once : ((s.fired.map Prod.fst : List Job) : Multiset Job) ≤ s.inserted
  size : s.cbQ.size = s.pending.card
  waiting : ∀ j ∈ s.pending, s.globalClock ≤ j.due
  onTime : ∀ r ∈ s.fired, r.2 = r.1.due
  fifo : s.Fifo Job.isNear
  progress : s.globalClock < MaxTime → ∃ s', s.step .nextJob = some s' ∧ s'.inserted = s.inserted ∧
    ((∃ j ∈ s.pending, j.due = s.globalClock ∧
        s'.fired = s.fired ++ [(j, s.globalClock)] ∧ s'.globalClock = s.globalClock) ∨
      ((∀ j ∈ s.pending, j.due ≠ s.globalClock) ∧
        s'.fired = s.fired ∧ s'.globalClock = s.globalClock + 1))

theorem Good.pending_eq (h : Good s N) : s.pending = (((N ++ s.cbQ.tooFar).map s.job : List Job) : Multiset Job) := by
  unfold pending
  rw [h.once, Multiset.add_comm, Multiset.add_sub_cancel_right]

theorem Good.mem_pending (h : Good s N) {j : Job} : j ∈ s.pending ↔ ∃ x ∈ N ++ s.cbQ.tooFar, s.job x = j := by
  rw [h.pending_eq, Multiset.mem_coe, List.mem_map]

theorem Good.correct (h : Good s N) (hok : Drains s.cbQ s.globalClock → DrainOk s.cbQ) : Correct s := by
  refine ⟨?_, ?_, ?_, h.onTime, ?_, ?_⟩
  · rw [h.once]
    exact Multiset.le_add_right _ _
  · rw [h.pending_eq, Multiset.coe_card, List.length_map, List.length_append, ← h.rep.count]
    rfl
  · intro j hj
    obtain ⟨x, hx, rfl⟩ := h.mem_pending.1 hj
    rw [h.jobs x hx]
    exact h.future x hx
  · intro d
    rw [h.fifo d]
    exact List.prefix_append _ _
  · intro hc
    obtain ⟨s', N', hs, -, hins, hturn⟩ := h.nextJob hc hok
    refine ⟨s', hs, hins, ?_⟩
    rcases hturn with ⟨x, hx, hxc, hfire, hclock⟩ | ⟨hnone, hfire, hclock⟩
    · exact .inl ⟨s.job x, h.mem_pending.2 ⟨x, hx, rfl⟩, (h.jobs x hx).trans hxc, hfire, hclock⟩
    · refine .inr ⟨fun j hj => ?_, hfire, hclock⟩
      obtain ⟨x, hx, rfl⟩ := h.mem_pending.1 hj
      rw [h.jobs x hx]
      exact hnone x hx

/-- With 16-bit delays, no callback is further away than that. -/
def Short (s : EventScheduler) : Prop := ∀ j ∈ s.inserted, j.due ≤ s.globalClock + 65535

/-- Far below the range of the 32-bit comparison. -/
theorem Good.drainOk (h : Good s N) (hshort : Short s) : DrainOk s.cbQ := by
  intro x hx hfar _
  have hmem : x ∈ N ++ s.cbQ.tooFar := List.mem_append_right _ hx
  have h1 := hshort _ (h.job_mem hmem)
  rw [h.jobs x hmem] at h1
  have h2 := h.high
  omega

/-- The callbacks are scheduled by delays, and the due times stay below the time that marks an empty heap. -/
def Delayed (s : EventScheduler) : Event → Prop
  | .schedule delta _ => s.globalClock + delta < MaxTime
  | .scheduleAbs _ _ => False
  | .nextJob => True

instance (s : EventScheduler) : ∀ e, Decidable (s.Delayed e)
  | .schedule delta _ => inferInstanceAs (Decidable (s.globalClock + delta < MaxTime))
  | .scheduleAbs _ _ => .isFalse id
  | .nextJob => .isTrue trivial

theorem delayed_step {e : Event} (hs : s.step e = some s') (he : s.Delayed e)
    (h : (∃ N, Good s N) ∧ Short s) : (∃ N, Good s' N) ∧ Short s' := by
  obtain ⟨⟨N, hgood⟩, hshort⟩ := h
  cases e with
  | schedule delta cb =>
    refine ⟨hgood.schedule hs he, ?_⟩
    obtain ⟨-, -, hdelta, rfl⟩ := schedule_eq hs he
    intro j hj
    obtain ⟨q', -, hs'⟩ := s.insert_eq cb (s.globalClock + delta)
    rw [hs'] at hj ⊢
    rcases List.mem_append.1 hj with hj | hj
    · exact hshort j hj
    · rw [List.mem_singleton.1 hj]
      show s.globalClock + delta ≤ s.globalClock + 65535
      omega
  | scheduleAbs tim cb => exact he.elim
  | nextJob =>
    -- nothing is inserted and the clock does not go back
    obtain ⟨N', hgood', hins, hturn⟩ := hgood.of_nextJob hs fun _ => hgood.drainOk hshort
    refine ⟨⟨N', hgood'⟩, fun j hj => ?_⟩
    rw [hins] at hj
    have hle := hshort j hj
    rcases hturn with ⟨_, _, _, _, hclock⟩ | ⟨_, _, hclock⟩ <;> omega

/-- **Scheduling by delays.** In every run from the reset state, by callbacks or from outside, every callback
fires exactly once and in its cycle, and in the order of insertion if it was inserted within the window. -/
theorem scheduler_correct {time : ℕ → ℕ} {next : ℕ → Option ℕ} {accessTail : ℕ → ℕ} {es : List Event}
    (h : run step (init (TQueue.create time next accessTail)) es = some s)
    (hes : Along step Delayed (init (TQueue.create time next accessTail)) es) : s.Correct := by
  have hinit : Short (init (TQueue.create time next accessTail)) := fun j hj => by cases hj
  obtain ⟨⟨N, hgood⟩, hshort⟩ := run_inv_along (I := fun s => (∃ N, Good s N) ∧ Short s)
    (fun s e s' hs he h => delayed_step hs he h) h hes ⟨⟨[], good_init time next accessTail⟩, hinit⟩
  exact hgood.correct fun _ => hgood.drainOk hshort

/-- The reset state with cleared callbacks. -/
def start : EventScheduler := init (TQueue.create (fun _ => 0) (fun _ => none) fun _ => 0)

/-- Three callbacks for cycle 301: the first is inserted behind the window, the others within it. -/
def farAndNear : List Event :=
  [.schedule 301 10, .schedule 2 11] ++ List.replicate 200 .nextJob ++ [.schedule 102 12] ++
    List.replicate 50 .nextJob ++ [.schedule 52 13] ++ List.replicate 55 .nextJob

theorem scheduler_correct_farAndNear :
    ∃ s, run step start farAndNear = some s ∧
      s.fired.map (fun r => (r.1.cb, r.2)) = [(11, 2), (12, 301), (13, 301), (10, 301)] ∧ s.Correct := by
  have hrun : ((run step start farAndNear).any fun s =>
      s.fired.map (fun r => (r.1.cb, r.2)) = [(11, 2), (12, 301), (13, 301), (10, 301)]) = true := by
    decide +kernel
  obtain ⟨s, hs, hfired⟩ := (Option.any_eq_true _ _).1 hrun
  exact ⟨s, hs, of_decide_eq_true hfired, scheduler_correct hs (by decide +kernel)⟩

/-- The state after `n` cycles without callbacks. -/
def idle (n : ℕ) : EventScheduler :=
  { start with cbQ := { start.cbQ with minTime := n - 1 }, globalClock := n }

theorem idle_step {n : ℕ} (hn : n < MaxTime) : (idle n).step .nextJob = some (idle (n + 1)) := by
  have hwrap : wrap64 (n + 1) = n + 1 := by
    have := maxTime_lt
    exact Nat.mod_eq_of_lt (by omega)
  have hjob : (idle n).cbQ.nextJob n = some (none, { start.cbQ with minTime := n }) := by
    unfold TQueue.nextJob
    show Option.map _ (if MaxTime ≤ n then _ else _) = _
    rw [if_neg (by omega)]
    rfl
  unfold step
  show Option.map _ ((idle n).cbQ.nextJob n) = _
  rw [hjob]
  show some { start with cbQ := { start.cbQ with minTime := n }, inside := false, globalClock := wrap64 (n + 1) } = _
  rw [hwrap]
  rfl

theorem run_idle {m n : ℕ} (h : n + m ≤ MaxTime) (es : List Event) :
    run step (idle n) (List.replicate m Event.nextJob ++ es) = run step (idle (n + m)) es := by
  induction m generalizing n with
  | zero => rfl
  | succ m ih =>
    rw [List.replicate_succ, List.cons_append]
    show ((idle n).step .nextJob).bind _ = _
    rw [idle_step (by omega), Option.bind_some, ih (by omega), Nat.add_assoc, Nat.add_comm 1 m]

/-- Both callbacks are inserted less than 256 cycles before cycle 256, between two cycles. The first one is 256
cycles from `minTime`, so it goes to the heap. -/
def overtaken : List Event :=
  [.nextJob, .schedule 255 10, .nextJob, .schedule 254 11] ++ List.replicate 257 .nextJob

/-- A callback that is due behind `MaxTime`. -/
def horizon : List Event := List.replicate (MaxTime - 1) .nextJob ++ [.schedule 2 10, .nextJob]

/-- Counted from the clock, the window is too large by one; and the loop cannot go on at `MaxTime`. -/
theorem fifo_missed :
    (∃ s, run step start overtaken = some s ∧ ¬s.Fifo fun j => j.due - j.clock < 256) ∧
      ∃ s, run step start horizon = some s ∧ s.cbQ.size = 1 ∧ s.step .nextJob = none := by
  constructor
  · have hrun : ((run step start overtaken).any fun s =>
        ¬dueAt (fun j => j.due - j.clock < 256) 256 (s.fired.map Prod.fst) <+:
          dueAt (fun j => j.due - j.clock < 256) 256 s.inserted) = true := by
      decide +kernel
    obtain ⟨s, hs, hnot⟩ := (Option.any_eq_true _ _).1 hrun
    exact ⟨s, hs, fun hfifo => of_decide_eq_true hnot (hfifo 256)⟩
  · have hstart : start = idle 0 := rfl
    unfold horizon
    rw [hstart, run_idle (n := 0) (m := MaxTime - 1) (by omega)]
    -- the rest of the run is short
    have hrun : ((run step (idle (0 + (MaxTime - 1))) [.schedule 2 10, .nextJob]).any fun s =>
        s.cbQ.size = 1 ∧ (s.step .nextJob).isNone) = true := by
      decide +kernel
    obtain ⟨s, hs, hstuck⟩ := (Option.any_eq_true _ _).1 hrun
    obtain ⟨hsize, hnone⟩ := of_decide_eq_true hstuck
    exact ⟨s, hs, hsize, Option.isNone_iff_eq_none.1 hnone⟩

/-! ## Runs with absolute times -/

/-- No 32-bit distance deceives. An insertion is seen within reach of the ring only if it is; and when the heap
is drained, so is the first of its callbacks that is not to be drained. -/
def Undeceived (s : EventScheduler) : Event → Prop
  | .schedule delta _ => s.globalClock + delta < MaxTime
  | .scheduleAbs tim _ => tim < MaxTime ∧ ((tim - s.cbQ.minTime) % 2 ^ 32 < 256 → tim - s.cbQ.minTime < 256)
  | .nextJob => Drains s.cbQ s.globalClock → DrainOk s.cbQ

instance (q : TQueue) (c : ℕ) : Decidable (Drains q c) :=
  inferInstanceAs (Decidable (¬((q.access q.minPos).isSome = true ∧ q.minTime = c) ∧ q.minTooFar ≤ c))

instance (q : TQueue) : Decidable (DrainOk q) :=
  inferInstanceAs (Decidable (∀ x ∈ q.tooFar, 256 ≤ q.time x - q.minTime →
    (∀ y ∈ q.tooFar, 256 ≤ q.time y - q.minTime → q.time x ≤ q.time y) → 256 ≤ (q.time x - q.minTime) % 2 ^ 32))

instance (s : EventScheduler) : ∀ e, Decidable (s.Undeceived e)
  | .schedule delta _ => inferInstanceAs (Decidable (s.globalClock + delta < MaxTime))
  | .scheduleAbs tim _ =>
    inferInstanceAs (Decidable (tim < MaxTime ∧ ((tim - s.cbQ.minTime) % 2 ^ 32 < 256 → tim - s.cbQ.minTime < 256)))
  | .nextJob => inferInstanceAs (Decidable (Drains s.cbQ s.globalClock → DrainOk s.cbQ))

theorem undeceived_step {e : Event} (hs : s.step e = some s') (he : s.Undeceived e) (h : ∃ N, Good s N) :
    ∃ N, Good s' N := by
  obtain ⟨N, hgood⟩ := h
  cases e with
  | schedule delta cb => exact hgood.schedule hs he
  | scheduleAbs tim cb =>
    obtain ⟨hcb, htim, rfl⟩ := scheduleAbs_eq hs
    exact hgood.insert hcb htim he.1 he.2
  | nextJob =>
    obtain ⟨N', hgood', -⟩ := hgood.of_nextJob hs he
    exact ⟨N', hgood'⟩

/-- **No early callback.** In every run from the reset state in which the 32-bit distances do not deceive, no
callback fires before it is due. -/
theorem not_early {time : ℕ → ℕ} {next : ℕ → Option ℕ} {accessTail : ℕ → ℕ} {es : List Event}
    (h : run step (init (TQueue.create time next accessTail)) es = some s)
    (hes : Along step Undeceived (init (TQueue.create time next accessTail)) es) :
    ∀ r ∈ s.fired, r.1.due ≤ r.2 := by
  obtain ⟨N, hgood⟩ := run_inv_along (I := fun s => ∃ N, Good s N)
    (fun s e s' hs he h => undeceived_step hs he h) h hes ⟨[], good_init time next accessTail⟩
  intro r hr
  exact (hgood.onTime r hr).ge

/-- One callback far beyond the 32-bit distances, and one that is drained. -/
def farAbs : List Event :=
  [.scheduleAbs (2 ^ 33 + 1000) 10, .scheduleAbs 300 11] ++ List.replicate 303 .nextJob

theorem not_early_farAbs :
    ∃ s, run step start farAbs = some s ∧ s.fired.map (fun r => (r.1.cb, r.2)) = [(11, 300)] ∧
      ∀ r ∈ s.fired, r.1.due ≤ r.2 := by
  have hrun : ((run step start farAbs).any fun s => s.fired.map (fun r => (r.1.cb, r.2)) = [(11, 300)]) = true := by
    decide +kernel
  obtain ⟨s, hs, hfired⟩ := (Option.any_eq_true _ _).1 hrun
  exact ⟨s, hs, of_decide_eq_true hfired, not_early hs (by decide +kernel)⟩

/-- The distance is `2 ^ 32 + 3`, and its low 32 bits are 3. -/
theorem early_scheduleAbs :
    ∃ s, run step start ([.scheduleAbs (2 ^ 32 + 3) 10] ++ List.replicate 4 .nextJob) = some s ∧
      ∃ r ∈ s.fired, r.1.due = 2 ^ 32 + 3 ∧ r.2 = 3 := by
  have hrun : ((run step start ([.scheduleAbs (2 ^ 32 + 3) 10] ++ List.replicate 4 .nextJob)).any fun s =>
      ∃ r ∈ s.fired, r.1.due = 2 ^ 32 + 3 ∧ r.2 = 3) = true := by
    decide +kernel
  obtain ⟨s, hs, hearly⟩ := (Option.any_eq_true _ _).1 hrun
  exact ⟨s, hs, of_decide_eq_true hearly⟩

end EventScheduler

end Esesc.Suc
