import Esesc.Lib.Machine
import Mathlib.Data.List.Nodup
import Mathlib.Data.List.Perm.Subperm

/-!
# Running flows and their ids (`TaskHandler.cpp`, `QEMUEmulInterface.cpp`)

Whether a flow is active is kept in three places: the flag in `allmaps`, the list `running` that the main loop goes over,
and the pool that new ids come from. Starting a flow takes an id from the pool and sets the flag; pausing one takes it
out of the list, gives the id back and clears the flag.

The list is an array of 100 entries, whatever the number of flows. A write behind them has no result here.

* `scan_spec`: what the search for an id finds.
* `Ok.resumeThread`, `Ok.pauseThread`: list and flags agree after each operation.
* `getFid_spec`: a new id was free.
* `start_pause_agree`: list, flags and pool agree after every sequence of starts and pauses.
* `start_pause_agree_iff`: for which systems there are such sequences.
-/

namespace Esesc.Core

open Esesc.Lib

/-- The number of a flow. -/
abbrev FlowID := ℕ

/-- The entries of `fidFreePool`. -/
inductive FidState where
  | FID_NOT_AVAILABLE
  | FID_FREE
  | FID_TAKEN
  | FID_FREED
  deriving DecidableEq, Repr

/-- `allmaps` has the flag `active` of each flow; `running` is the array up to `running_size`. -/
structure TaskHandler where
  allmaps : List Bool
  running : List FlowID
  fidFreePool : List FidState
  deriving DecidableEq, Repr

namespace TaskHandler

/-- `allmaps[fid].active`. -/
def active (t : TaskHandler) (fid : FlowID) : Prop := t.allmaps[fid]? = some true

instance (t : TaskHandler) (fid : FlowID) : Decidable (t.active fid) := inferInstanceAs (Decidable (_ = _))

/-- The entries of `running`: `new FlowID[100]`. -/
def entries : ℕ := 100

/-- After `plugEnd`: flow 0 is active, and its id is taken. -/
def plugged (others : List Bool) : TaskHandler where
  allmaps := true :: others.map fun _ => false
  running := [0]
  fidFreePool := .FID_TAKEN :: others.map fun qemu => if qemu then .FID_FREE else .FID_NOT_AVAILABLE

/-- `plugEnd`. For each flow but the first: is its emulator of QEMU's type? It writes an entry of `running` for every
flow, behind `running_size` but for the first. -/
def plugEnd (others : List Bool) : Option TaskHandler :=
  if others.length + 1 ≤ entries then some (plugged others) else none

/-! ## Operations -/

/-- The flow is set active, and `running[running_size]` is written. -/
def enter (t : TaskHandler) (fid : FlowID) : Option (FlowID × TaskHandler) :=
  if t.running.length < entries then
    some (fid, { t with allmaps := t.allmaps.set fid true, running := t.running ++ [fid] })
  else none

/-- `resumeThread(uid, fid)`; the `uid` is not looked at. There is no result for a flow that the system does not have. -/
def resumeThread (t : TaskHandler) (fid : FlowID) : Option (FlowID × TaskHandler) :=
  t.allmaps[fid]?.bind fun active => if active then some (0, t) else t.enter fid

/-- `resumeThread(fid)`, for flows of a GPU. -/
def resumeThreadGPU (t : TaskHandler) (fid : FlowID) : Option (FlowID × TaskHandler) :=
  t.allmaps[fid]?.bind fun active =>
    if fid ∈ t.running then some (fid, { t with allmaps := t.allmaps.set fid true })
    else if active then some (fid, t)
    else t.enter fid

/-- The first occurrence goes, and what is behind it moves up. `freeFid` gives the id of an active flow back. -/
def removeFromRunning (t : TaskHandler) (fid : FlowID) : TaskHandler :=
  { t with
    running := t.running.erase fid
    fidFreePool := if t.active fid then t.fidFreePool.set fid .FID_FREED else t.fidFreePool }

def pauseThread (t : TaskHandler) (fid : FlowID) : Option TaskHandler :=
  t.allmaps[fid]?.map fun active =>
    if active then { t.removeFromRunning fid with allmaps := t.allmaps.set fid false } else t

/-- A loop of `getFid` over the pool from `i` on: the first entry in state `want`, unless `last_fid` is in it. With
`true`, the loop has returned. -/
def scan (want : FidState) (last_fid : FlowID) : ℕ → Option FlowID → List FidState → Bool × Option FlowID
  | _, fid, [] => (false, fid)
  | i, fid, x :: xs =>
    if x = want then
      let fid := fid.or (some i)
      if last_fid ≠ i then scan want last_fid (i + 1) fid xs else (true, some i)
    else scan want last_fid (i + 1) fid xs

/-- Freed ids come before new ones, and `last_fid` before the others. Without any, the simulator exits. -/
def getFid (t : TaskHandler) (last_fid : FlowID) : Option (FlowID × TaskHandler) :=
  let freed := scan .FID_FREED last_fid 0 none t.fidFreePool
  let free := scan .FID_FREE last_fid 0 none t.fidFreePool
  let fid := if freed.1 then freed.2 else if free.1 then free.2 else freed.2.or free.2
  fid.map fun fid => (fid, { t with fidFreePool := t.fidFreePool.set fid .FID_TAKEN })

/-- `QEMUReader_resumeThread`. -/
def start (t : TaskHandler) (last_fid : FlowID) : Option TaskHandler :=
  (t.getFid last_fid).bind fun r => (r.2.resumeThread r.1).map Prod.snd

/-! ## List and flags -/

/-- **The invariant**: the list has every active flow once, and no other. -/
structure Ok (t : TaskHandler) : Prop where
  nodup : t.running.Nodup
  mem_iff : ∀ fid, fid ∈ t.running ↔ t.active fid

variable {t t' : TaskHandler} {fid f r last_fid : FlowID}

theorem Ok.plugged (others : List Bool) : Ok (plugged others) := by
  refine ⟨List.nodup_singleton 0, fun fid => ?_⟩
  rw [TaskHandler.plugged, List.mem_singleton, active]
  cases fid with
  | zero => simp
  | succ fid => simp [List.getElem?_replicate]

theorem plugEnd_eq_some {others : List Bool} (h : plugEnd others = some t) : others.length + 1 ≤ entries ∧ t = plugged others := by
  unfold plugEnd at h
  split at h
  · rename_i hlen
    exact ⟨hlen, (Option.some.inj h).symm⟩
  · cases h

/-- **What a start does** to flags and list. -/
theorem resumeThread_cases (h : t.resumeThread fid = some (r, t')) :
    t.allmaps[fid]? = some true ∧ t' = t ∨
      t.allmaps[fid]? = some false ∧ t' = { t with allmaps := t.allmaps.set fid true, running := t.running ++ [fid] } := by
  unfold resumeThread at h
  obtain ⟨flag, hflag, hr⟩ := Option.bind_eq_some_iff.1 h
  cases flag with
  | true =>
    obtain ⟨-, rfl⟩ := Prod.mk.inj (Option.some.inj hr)
    exact .inl ⟨hflag, rfl⟩
  | false =>
    simp only [Bool.false_eq_true, if_false, enter, Option.ite_none_right_eq_some, Option.some.injEq] at hr
    exact .inr ⟨hflag, (Prod.mk.inj hr.2).2.symm⟩

theorem resumeThreadGPU_cases (h : t.resumeThreadGPU fid = some (r, t')) :
    (∃ flag, t.allmaps[fid]? = some flag ∧ fid ∈ t.running ∧ t' = { t with allmaps := t.allmaps.set fid true }) ∨
      t.allmaps[fid]? = some true ∧ t' = t ∨
      t.allmaps[fid]? = some false ∧ t' = { t with allmaps := t.allmaps.set fid true, running := t.running ++ [fid] } := by
  unfold resumeThreadGPU at h
  obtain ⟨flag, hflag, hr⟩ := Option.bind_eq_some_iff.1 h
  split at hr
  · rename_i hmem
    obtain ⟨-, rfl⟩ := Prod.mk.inj (Option.some.inj hr)
    exact .inl ⟨flag, hflag, hmem, rfl⟩
  · cases flag with
    | true =>
      obtain ⟨-, rfl⟩ := Prod.mk.inj (Option.some.inj hr)
      exact .inr (.inl ⟨hflag, rfl⟩)
    | false =>
      simp only [Bool.false_eq_true, if_false, enter, Option.ite_none_right_eq_some, Option.some.injEq] at hr
      exact .inr (.inr ⟨hflag, (Prod.mk.inj hr.2).2.symm⟩)

/-- The flag of one flow is set. -/
theorem active_set {flag b : Bool} (h : t.allmaps[fid]? = some flag) {running : List FlowID} {pool : List FidState} :
    active ⟨t.allmaps.set fid b, running, pool⟩ f ↔ if f = fid then b = true else t.active f := by
  have hlt : fid < t.allmaps.length := (List.getElem?_eq_some_iff.1 h).1
  unfold active
  by_cases hf : f = fid
  · subst hf
    simp [hlt]
  · rw [List.getElem?_set_ne (Ne.symm hf), if_neg hf]

/-- A flow that is not active enters at the end. -/
theorem Ok.append (h : t.Ok) (hflag : t.allmaps[fid]? = some false) (pool : List FidState) :
    Ok ⟨t.allmaps.set fid true, t.running ++ [fid], pool⟩ := by
  have hnot : fid ∉ t.running := by
    rw [h.mem_iff, active, hflag]
    simp
  refine ⟨?_, fun f => ?_⟩
  · exact List.nodup_append.2 ⟨h.nodup, List.nodup_singleton fid, by
      rintro a ha b hb rfl
      exact hnot (List.mem_singleton.1 hb ▸ ha)⟩
  · rw [active_set hflag, List.mem_append, List.mem_singleton]
    by_cases hf : f = fid
    · simp [hf]
    · rw [if_neg hf, ← h.mem_iff]
      simp [hf]

theorem Ok.resumeThread (h : t.Ok) (hstep : t.resumeThread fid = some (r, t')) : t'.Ok := by
  obtain ⟨-, rfl⟩ | ⟨hflag, rfl⟩ := resumeThread_cases hstep
  · exact h
  · exact h.append hflag _

theorem Ok.resumeThreadGPU (h : t.Ok) (hstep : t.resumeThreadGPU fid = some (r, t')) : t'.Ok := by
  obtain ⟨flag, hflag, hmem, rfl⟩ | ⟨-, rfl⟩ | ⟨hflag, rfl⟩ := resumeThreadGPU_cases hstep
  · refine ⟨h.nodup, fun f => ?_⟩
    rw [active_set hflag]
    by_cases hf : f = fid
    · simp [hf, hmem]
    · rw [if_neg hf]
      exact h.mem_iff f
  · exact h
  · exact h.append hflag _

theorem Ok.pauseThread (h : t.Ok) (hstep : t.pauseThread fid = some t') : t'.Ok := by
  unfold TaskHandler.pauseThread at hstep
  obtain ⟨flag, hflag, hr⟩ := Option.map_eq_some_iff.1 hstep
  cases flag with
  | true =>
    obtain rfl := hr
    refine ⟨h.nodup.erase fid, fun f => ?_⟩
    refine Iff.trans ?_ (active_set (t := t) hflag).symm
    show f ∈ t.running.erase fid ↔ _
    rw [h.nodup.mem_erase_iff, h.mem_iff]
    by_cases hf : f = fid
    · simp [hf]
    · simp [hf]
  | false =>
    obtain rfl := hr
    exact h

/-! ## The pool -/

/-- **The search** finds an entry in the wanted state, if it finds one. -/
theorem scan_spec {want : FidState} {pool xs : List FidState} {i : ℕ} {fid : Option FlowID}
    (hxs : ∀ k, xs[k]? = pool[i + k]?) (hfid : ∀ r ∈ fid, pool[r]? = some want) :
    ∀ r ∈ (scan want last_fid i fid xs).2, pool[r]? = some want := by
  induction xs generalizing i fid with
  | nil => exact hfid
  | cons x xs ih =>
    have htail : ∀ k, xs[k]? = pool[i + 1 + k]? := by
      intro k
      have hk := hxs (k + 1)
      rw [List.getElem?_cons_succ] at hk
      rw [hk]
      congr 1
      omega
    have hhead : pool[i]? = some x := (hxs 0).symm
    rw [scan]
    split
    · rename_i hx
      subst hx
      split
      · refine ih htail fun r hr => ?_
        cases fid with
        | none =>
          obtain rfl := Option.some.inj hr
          exact hhead
        | some r' => exact hfid r hr
      · rintro r hr
        obtain rfl := Option.some.inj hr
        exact hhead
    · exact ih htail hfid

theorem scan_pool (want : FidState) (last_fid : FlowID) (pool : List FidState) :
    ∀ r ∈ (scan want last_fid 0 none pool).2, pool[r]? = some want :=
  scan_spec (fun k => by rw [Nat.zero_add]) (by simp)

/-- **A new id** was free, and is taken now. -/
theorem getFid_spec (h : t.getFid last_fid = some (r, t')) :
    (t.fidFreePool[r]? = some .FID_FREED ∨ t.fidFreePool[r]? = some .FID_FREE) ∧
      t' = { t with fidFreePool := t.fidFreePool.set r .FID_TAKEN } := by
  have hfreed := scan_pool .FID_FREED last_fid t.fidFreePool
  have hfree := scan_pool .FID_FREE last_fid t.fidFreePool
  unfold getFid at h
  obtain ⟨fid, hfid, hr⟩ := Option.map_eq_some_iff.1 h
  obtain ⟨rfl, rfl⟩ := Prod.mk.inj hr
  refine ⟨?_, rfl⟩
  split at hfid
  · exact .inl (hfreed fid hfid)
  · split at hfid
    · exact .inr (hfree fid hfid)
    · rcases Option.or_eq_some_iff.1 hfid with hfid | ⟨-, hfid⟩
      · exact .inl (hfreed fid hfid)
      · exact .inr (hfree fid hfid)

/-- **The invariant of the pool**: the ids that are taken are those of the active flows. -/
def PoolOk (t : TaskHandler) : Prop := ∀ fid, t.fidFreePool[fid]? = some .FID_TAKEN ↔ t.active fid

theorem PoolOk.plugged (others : List Bool) : PoolOk (plugged others) := by
  intro fid
  rw [TaskHandler.plugged, active]
  cases fid with
  | zero => simp
  | succ fid =>
    rw [List.getElem?_cons_succ, List.getElem?_cons_succ, List.getElem?_map, List.getElem?_map]
    cases others[fid]? with
    | none => simp
    | some qemu => cases qemu <;> simp

/-- An id in a free state is that of a flow that is not active. -/
theorem PoolOk.not_active (h : t.PoolOk)
    (hfree : t.fidFreePool[fid]? = some .FID_FREED ∨ t.fidFreePool[fid]? = some .FID_FREE) : ¬t.active fid := by
  rw [← h fid]
  rcases hfree with hfree | hfree <;> rw [hfree] <;> simp

theorem pool_set {x y : FidState} (h : t.fidFreePool[fid]? = some x) :
    (t.fidFreePool.set fid y)[f]? = some .FID_TAKEN ↔
      if f = fid then y = .FID_TAKEN else t.fidFreePool[f]? = some .FID_TAKEN := by
  have hlt : fid < t.fidFreePool.length := (List.getElem?_eq_some_iff.1 h).1
  by_cases hf : f = fid
  · subst hf
    simp [hlt]
  · rw [List.getElem?_set_ne (Ne.symm hf), if_neg hf]

/-! ## Starts and pauses -/

/-- What the emulator asks for. -/
inductive Request where
  | start (last_fid : FlowID)
  | pauseThread (fid : FlowID)

def request (t : TaskHandler) : Request → Option TaskHandler
  | .start last_fid => t.start last_fid
  | .pauseThread fid => t.pauseThread fid

/-- **A start** takes an id that was free, and its flow enters. -/
theorem start_spec (hok : t.Ok) (hpool : t.PoolOk) (hstep : t.start last_fid = some t') : t'.Ok ∧ t'.PoolOk := by
  unfold start at hstep
  obtain ⟨⟨fid, t1⟩, hget, hsnd⟩ := Option.bind_eq_some_iff.1 hstep
  obtain ⟨hfree, rfl⟩ := getFid_spec hget
  obtain ⟨⟨r, t2⟩, hresume, rfl⟩ := Option.map_eq_some_iff.1 hsnd
  have hinactive := hpool.not_active hfree
  have hok1 : Ok { t with fidFreePool := t.fidFreePool.set fid .FID_TAKEN } := ⟨hok.nodup, hok.mem_iff⟩
  refine ⟨hok1.resumeThread hresume, ?_⟩
  obtain ⟨hflag, -⟩ | ⟨hflag, rfl⟩ := resumeThread_cases hresume
  · exact absurd hflag hinactive
  · intro f
    obtain ⟨x, hx⟩ : ∃ x, t.fidFreePool[fid]? = some x := by
      rcases hfree with hfree | hfree <;> exact ⟨_, hfree⟩
    rw [active_set (t := t) hflag]
    refine (pool_set hx).trans ?_
    by_cases hf : f = fid
    · rw [if_pos hf, if_pos hf]
      simp
    · rw [if_neg hf, if_neg hf]
      exact hpool f

/-- **A pause** gives the id of an active flow back, and does nothing for another. -/
theorem pauseThread_spec (hok : t.Ok) (hpool : t.PoolOk) (hstep : t.pauseThread fid = some t') : t'.Ok ∧ t'.PoolOk := by
  refine ⟨hok.pauseThread hstep, ?_⟩
  unfold TaskHandler.pauseThread at hstep
  obtain ⟨flag, hflag, hr⟩ := Option.map_eq_some_iff.1 hstep
  cases flag with
  | true =>
    obtain rfl := hr
    intro f
    have htaken := (hpool fid).2 hflag
    refine Iff.trans ?_ (active_set (t := t) hflag).symm
    show (if t.active fid then t.fidFreePool.set fid .FID_FREED else t.fidFreePool)[f]? = _ ↔ _
    rw [if_pos (show t.active fid from hflag)]
    refine (pool_set htaken).trans ?_
    by_cases hf : f = fid
    · rw [if_pos hf, if_pos hf]
      simp
    · rw [if_neg hf, if_neg hf]
      exact hpool f
  | false =>
    obtain rfl := hr
    exact hpool

/-- **Agreement**: the list has exactly the active flows, each once, the ids taken are theirs, and a new id is never that
of an active flow. -/
structure Agrees (t : TaskHandler) : Prop where
  nodup : t.running.Nodup
  running : ∀ fid, fid ∈ t.running ↔ t.active fid
  taken : ∀ fid, t.fidFreePool[fid]? = some .FID_TAKEN ↔ t.active fid
  fresh : ∀ last_fid fid t', t.getFid last_fid = some (fid, t') → ¬t.active fid

/-- The simulator exits for want of an id, or there is no such flow. -/
def Refused (t : TaskHandler) : Request → Prop
  | .start last_fid => t.getFid last_fid = none
  | .pauseThread fid => t.allmaps.length ≤ fid

/-- The tables have an entry for each flow, and `running` has one. -/
structure Sized (t : TaskHandler) : Prop where
  pool : t.fidFreePool.length = t.allmaps.length
  fits : t.allmaps.length ≤ entries

theorem Sized.start (h : t.Sized) (hstep : t.start last_fid = some t') : t'.Sized := by
  unfold TaskHandler.start at hstep
  obtain ⟨⟨fid, t1⟩, hget, hsnd⟩ := Option.bind_eq_some_iff.1 hstep
  obtain ⟨-, rfl⟩ := getFid_spec hget
  obtain ⟨⟨r, t2⟩, hresume, rfl⟩ := Option.map_eq_some_iff.1 hsnd
  obtain ⟨-, rfl⟩ | ⟨-, rfl⟩ := resumeThread_cases hresume
  · exact ⟨by simpa using h.pool, h.fits⟩
  · exact ⟨by simpa using h.pool, by simpa using h.fits⟩

theorem Sized.pauseThread (h : t.Sized) (hstep : t.pauseThread fid = some t') : t'.Sized := by
  unfold TaskHandler.pauseThread at hstep
  obtain ⟨flag, -, rfl⟩ := Option.map_eq_some_iff.1 hstep
  split
  · refine ⟨?_, by simpa using h.fits⟩
    simp only [removeFromRunning, List.length_set]
    split <;> simpa using h.pool
  · exact h

/-- With a flow that is not active, the list has an entry to spare. -/
theorem running_lt (hok : t.Ok) (hsized : t.Sized) (hflag : t.allmaps[fid]? = some false) : t.running.length < entries := by
  have hnot : fid ∉ t.running := by
    rw [hok.mem_iff, active, hflag]
    simp
  have hnodup : (fid :: t.running).Nodup := List.nodup_cons.2 ⟨hnot, hok.nodup⟩
  have hsub : fid :: t.running ⊆ List.range t.allmaps.length := by
    intro f hf
    rw [List.mem_range]
    rcases List.mem_cons.1 hf with rfl | hf
    · exact (List.getElem?_eq_some_iff.1 hflag).1
    · exact (List.getElem?_eq_some_iff.1 ((hok.mem_iff f).1 hf)).1
  have hle := (List.subperm_of_subset hnodup hsub).length_le
  rw [List.length_cons, List.length_range] at hle
  have hfits := hsized.fits
  omega

/-- **Nothing is written behind the list**: a request without a result is refused. -/
theorem refused_of_none (hok : t.Ok) (hpool : t.PoolOk) (hsized : t.Sized) {req : Request}
    (h : t.request req = none) : t.Refused req := by
  cases req with
  | start last_fid =>
    cases hget : t.getFid last_fid with
    | none => exact hget
    | some r =>
      obtain ⟨fid, t1⟩ := r
      obtain ⟨hfree, rfl⟩ := getFid_spec hget
      obtain ⟨flag, hflag⟩ : ∃ flag, t.allmaps[fid]? = some flag := by
        have hlt : fid < t.fidFreePool.length := by
          rcases hfree with hfree | hfree <;> exact (List.getElem?_eq_some_iff.1 hfree).1
        rw [hsized.pool] at hlt
        exact ⟨_, List.getElem?_eq_getElem hlt⟩
      cases flag with
      | true => exact absurd hflag (hpool.not_active hfree)
      | false =>
        have hroom := running_lt hok hsized hflag
        simp [request, TaskHandler.start, hget, TaskHandler.resumeThread, enter, hflag, hroom] at h
  | pauseThread fid =>
    have hnone : t.allmaps[fid]? = none := Option.map_eq_none_iff.1 h
    exact List.getElem?_eq_none_iff.1 hnone

/-- **Every sequence of starts and pauses** keeps the three tables in agreement. -/
theorem start_pause_agree {others : List Bool} {t₀ : TaskHandler} {rs : List Request} (h₀ : plugEnd others = some t₀)
    (h : run request t₀ rs = some t) : t.Agrees ∧ ∀ req, t.request req = none → t.Refused req := by
  obtain ⟨hlen, rfl⟩ := plugEnd_eq_some h₀
  have hstep : ∀ s a s', request s a = some s' → s.Ok ∧ s.PoolOk ∧ s.Sized → s'.Ok ∧ s'.PoolOk ∧ s'.Sized := by
    rintro s (last_fid | fid) s' hs ⟨hok, hpool, hsized⟩
    · obtain ⟨hok', hpool'⟩ := start_spec hok hpool hs
      exact ⟨hok', hpool', hsized.start hs⟩
    · obtain ⟨hok', hpool'⟩ := pauseThread_spec hok hpool hs
      exact ⟨hok', hpool', hsized.pauseThread hs⟩
  have hsized : Sized (plugged others) := ⟨by simp [plugged], by simpa [plugged] using hlen⟩
  obtain ⟨hok, hpool, hsized⟩ := run_inv (I := fun s => s.Ok ∧ s.PoolOk ∧ s.Sized) hstep h
    ⟨.plugged others, .plugged others, hsized⟩
  refine ⟨⟨hok.nodup, hok.mem_iff, hpool, fun last_fid fid t' hget => ?_⟩, fun req => refused_of_none hok hpool hsized⟩
  exact hpool.not_active (getFid_spec hget).1

/-- **At most 100 flows.** For them, and no more, `plugEnd` has a result, and after every sequence of starts and pauses
the tables agree and the next request is carried out unless it is refused. -/
theorem start_pause_agree_iff (others : List Bool) :
    (∃ t₀, plugEnd others = some t₀ ∧ ∀ rs t, run request t₀ rs = some t →
      t.Agrees ∧ ∀ req, t.request req = none → t.Refused req) ↔ others.length + 1 ≤ 100 := by
  constructor
  · rintro ⟨t₀, h₀, -⟩
    exact (plugEnd_eq_some h₀).1
  · intro hlen
    have h₀ : plugEnd others = some (plugged others) := if_pos hlen
    exact ⟨_, h₀, fun rs t h => start_pause_agree h₀ h⟩

/-- **The array is too short.** With 101 flows `plugEnd` writes `running[100]`. -/
theorem plugEnd_overruns : plugEnd (List.replicate 100 true) = none := by decide

/-- Two starts and two pauses, one of them for nothing, with one emulator of another type between. -/
example : ((plugEnd [true, false, true]).bind fun t =>
    (run request t [.start 7, .start 3, .pauseThread 1, .pauseThread 2, .start 1]).map running) = some [0, 3, 1] := by
  decide

end TaskHandler

end Esesc.Core
