import Esesc.Core.AccessMap
import Esesc.Core.PrefetchInterface
import Esesc.Core.PrefetchMSHR

/-!
# The access map prefetcher

Once per cycle the prefetcher issues a prefetch, requests two more of the candidates of the last access,
and reads the candidates of the demands of the cycle. A request goes into a register first.

A run is watched: the log has what was done with the prefetch registers, and the outstanding misses
are the demands that were entered in a register until the cache has them.

* `run_cycles`: the events of cycles are calls of `IssuePrefetches`.
* `run_requests`: the prefetch registers over a run.
-/

namespace Esesc.Core

open Esesc.Lib

structure AccessMapPrefetcher where
  mshr : MissStatusHandlingRegister
  mshrpf : PrefetchMissStatusHandlingRegister
  pref : MemoryAccessMapTable
  NumFwdPref : ℕ
  NumBwdPref : ℕ
  FwdPrefMap : Fin (MAP_Size / 2) → Bool
  BwdPrefMap : Fin (MAP_Size / 2) → Bool
  AddressRegister : BitVec 64

/-- What the cache says about addresses in the stages of a cycle. -/
structure CacheView where
  cycle : BitVec 64
  atStart : BitVec 64 → ℤ
  atIssue : BitVec 64 → ℤ
  atRequest : BitVec 64 → ℤ

/-- A demand, with what the cache says when its turn comes and what the statics of the tables hold then. -/
structure Demand where
  data : PrefetchInterface.PrefetchData
  extra : BitVec 64 → ℤ
  wires : Wires

/-- What a call of `IssuePrefetches` gets. -/
structure PrefetchCycle where
  view : CacheView
  demandList : List Demand

/-- What was done with prefetch registers. -/
abbrev RequestActs := List (MSHRAct PREF_MSHR_SIZE)

namespace AccessMapPrefetcher

def MAX_ISSUE : ℕ := 1

/-- A new prefetcher. The maps of candidates, the address register and two counters of the table get no value. -/
def init (PrefFail PrefSucc : ℤ) (FwdPrefMap BwdPrefMap : Fin (MAP_Size / 2) → Bool) (AddressRegister : BitVec 64) :
    AccessMapPrefetcher where
  mshr := .init ()
  mshrpf := .init false
  pref := .init PrefFail PrefSucc
  NumFwdPref := 0
  NumBwdPref := 0
  FwdPrefMap := FwdPrefMap
  BwdPrefMap := BwdPrefMap
  AddressRegister := AddressRegister

/-! ## A cycle -/

def housekeeping (s : AccessMapPrefetcher) (c : CacheView) : AccessMapPrefetcher × RequestActs :=
  let (mshrpf, acts) := s.mshrpf.Housekeeping c.atStart
  ({ s with mshrpf, mshr := (s.mshr.Housekeeping c.atStart).1, pref := s.pref.Housekeeping c.cycle }, acts)

/-- Stage 3. -/
def issueStage (s : AccessMapPrefetcher) (c : CacheView) : AccessMapPrefetcher × RequestActs :=
  let (mshrpf, acts) := s.mshrpf.PrefetchHousekeeping s.mshr c.atIssue
  ({ s with mshrpf }, acts)

/-- A candidate is noted in the map of its zone, and requested if there is no demand miss of it. -/
def request (s : AccessMapPrefetcher) (c : CacheView) (PrefAddress : BitVec 64) : AccessMapPrefetcher × RequestActs :=
  let s := { s with pref := s.pref.UpdateEntry PrefAddress }
  if !s.mshr.Search PrefAddress then
    let (mshrpf, acts) := s.mshrpf.Issue false c.atRequest PrefAddress
    ({ s with mshrpf }, acts)
  else (s, [])

/-- One round of the forward loop of stage 2, with the count of the requests. -/
def fwdRound (c : CacheView) (x : AccessMapPrefetcher × RequestActs × ℕ) (i : Fin (MAP_Size / 2)) :
    AccessMapPrefetcher × RequestActs × ℕ :=
  let (s, acts, count) := x
  if s.NumFwdPref ≠ 0 ∧ count < MAX_ISSUE ∧ s.mshrpf.Full = false ∧ s.FwdPrefMap i = true then
    let PrefAddress := s.AddressRegister + BitVec.ofNat 64 i * BLK_SIZE
    let s := { s with FwdPrefMap := Function.update s.FwdPrefMap i false }
    let (s, new) := s.request c PrefAddress
    ({ s with NumFwdPref := s.NumFwdPref - 1 }, acts ++ new, count + 1)
  else x

/-- One round of the backward loop. -/
def bwdRound (c : CacheView) (x : AccessMapPrefetcher × RequestActs × ℕ) (i : Fin (MAP_Size / 2)) :
    AccessMapPrefetcher × RequestActs × ℕ :=
  let (s, acts, count) := x
  if s.NumBwdPref ≠ 0 ∧ count < MAX_ISSUE ∧ s.mshrpf.Full = false ∧
      s.BwdPrefMap i = true ∧ s.AddressRegister > BitVec.ofNat 64 i * BLK_SIZE then
    let PrefAddress := s.AddressRegister - BitVec.ofNat 64 i * BLK_SIZE
    let s := { s with BwdPrefMap := Function.update s.BwdPrefMap i false }
    let (s, new) := s.request c PrefAddress
    ({ s with NumBwdPref := s.NumBwdPref - 1 }, acts ++ new, count + 1)
  else x

/-- A loop over the distances from 1 on. -/
def requestLoop (round : AccessMapPrefetcher × RequestActs × ℕ → Fin (MAP_Size / 2) → AccessMapPrefetcher × RequestActs × ℕ)
    (s : AccessMapPrefetcher) : AccessMapPrefetcher × RequestActs :=
  let x := (List.finRange (MAP_Size / 2)).tail.foldl round (s, [], 0)
  (x.1, x.2.1)

/-- All that comes before the demands. -/
def stages (s : AccessMapPrefetcher) (c : CacheView) : AccessMapPrefetcher × RequestActs :=
  let kept := s.housekeeping c
  let issued := kept.1.issueStage c
  let forward := requestLoop (fwdRound c) issued.1
  let backward := requestLoop (bwdRound c) forward.1
  (backward.1, kept.2 ++ issued.2 ++ forward.2 ++ backward.2)

def MSHR_hit (s : AccessMapPrefetcher) (d : Demand) : Bool :=
  s.mshr.Search d.data.DataAddr || s.mshrpf.Search d.data.DataAddr

/-- The demand is a miss that gets an entry. -/
def enters (s : AccessMapPrefetcher) (d : Demand) : Bool := !s.MSHR_hit d && !d.data.hit

/-- Stage 1, for one demand. -/
def demand (s : AccessMapPrefetcher) (d : Demand) : Option AccessMapPrefetcher := do
  let mshr := if s.enters d then (s.mshr.Issue () d.extra d.data.DataAddr).1 else s.mshr
  let r ← s.pref.IssuePrefetch d.data.DataAddr d.wires (s.MSHR_hit d) (d.extra d.data.DataAddr)
  return { s with
    mshr
    pref := r.table
    NumFwdPref := r.out.NumFwdPref
    NumBwdPref := r.out.NumBwdPref
    FwdPrefMap := r.out.FwdPrefMap
    BwdPrefMap := r.out.BwdPrefMap
    AddressRegister := d.data.DataAddr &&& ~~~(BLK_SIZE - 1) }

def IssuePrefetches (s : AccessMapPrefetcher) (c : PrefetchCycle) : Option AccessMapPrefetcher :=
  c.demandList.foldlM demand (s.stages c.view).1

end AccessMapPrefetcher

/-! ## Watched runs -/

/-- What a call of `IssuePrefetches` does in turn. -/
inductive PrefetchEvent
  | stages (c : CacheView)
  | demand (d : Demand)

def PrefetchCycle.events (c : PrefetchCycle) : List PrefetchEvent := .stages c.view :: c.demandList.map .demand

/-- A prefetcher, what was done with its prefetch registers, and the demand misses that were entered and that the
cache did not have since. -/
structure Watched where
  self : AccessMapPrefetcher
  log : RequestActs
  outstanding : List (BitVec 64)

namespace Watched

open AccessMapPrefetcher

def init (s : AccessMapPrefetcher) : Watched := ⟨s, [], []⟩

/-- Misses that the cache does not have at the start of a cycle. -/
def kept (w : Watched) (c : CacheView) : List (BitVec 64) := w.outstanding.filter fun a => c.atStart a < 0

def step (w : Watched) : PrefetchEvent → Option Watched
  | .stages c => some ⟨(w.self.stages c).1, w.log ++ (w.self.stages c).2, w.kept c⟩
  | .demand d => do
    let s ← w.self.demand d
    return { w with
      self := s
      outstanding :=
        if w.self.enters d ∧ d.extra d.data.DataAddr < 0 then d.data.DataAddr :: w.outstanding else w.outstanding }

/-- The events of a cycle are a call of `IssuePrefetches`. -/
theorem run_events (w : Watched) (c : PrefetchCycle) :
    (run step w c.events).map self = w.self.IssuePrefetches c := by
  have hdemands : ∀ (ds : List Demand) (w : Watched),
      (run step w (ds.map .demand)).map self = ds.foldlM demand w.self := by
    intro ds
    induction ds with
    | nil => exact fun w => rfl
    | cons d ds ih =>
      intro w
      rw [List.map_cons, List.foldlM_cons, run, step]
      cases w.self.demand d with
      | none => rfl
      | some s => exact ih _
  rw [PrefetchCycle.events, run, step, Option.bind_some, hdemands, IssuePrefetches]

/-- And those of cycles are calls. -/
theorem run_cycles (w : Watched) (cycles : List PrefetchCycle) :
    (run step w (cycles.flatMap PrefetchCycle.events)).map self = cycles.foldlM IssuePrefetches w.self := by
  induction cycles generalizing w with
  | nil => rfl
  | cons c cycles ih =>
    rw [List.flatMap_cons, run_append, List.foldlM_cons, ← run_events]
    cases run step w c.events with
    | none => rfl
    | some u => exact ih u

/-! ## The prefetch registers -/

section Requests

/-- `acts` lead from the requests of `s` to those of `t`. -/
def Follows (s : AccessMapPrefetcher) (acts : RequestActs) (t : AccessMapPrefetcher) : Prop :=
  run Slots.step s.mshrpf.view acts = some t.mshrpf.view

variable {s t u : AccessMapPrefetcher} {as bs : RequestActs}

theorem Follows.refl (h : t.mshrpf = s.mshrpf) : Follows s [] t := by
  rw [Follows, run, h]

theorem Follows.trans (h : Follows s as t) (h' : Follows t bs u) : Follows s (as ++ bs) u := by
  rw [Follows, run_append, h, Option.bind_some]
  exact h'

theorem follows_request (c : CacheView) (PrefAddress : BitVec 64) (hfree : s.mshrpf.Full = false) :
    Follows s (s.request c PrefAddress).2 (s.request c PrefAddress).1 := by
  rw [request]
  dsimp only
  split
  · exact MSHRegisters.run_Issue hfree c.atRequest PrefAddress
  · exact .refl rfl

/-- A round requests only when the next register is free. -/
theorem follows_fwdRound (c : CacheView) {x : AccessMapPrefetcher × RequestActs × ℕ} (h : Follows s x.2.1 x.1)
    (i : Fin (MAP_Size / 2)) : Follows s (fwdRound c x i).2.1 (fwdRound c x i).1 := by
  obtain ⟨t, acts, count⟩ := x
  rw [fwdRound]
  dsimp only
  split
  · next hc =>
    have hreq := follows_request (s := { t with FwdPrefMap := Function.update t.FwdPrefMap i false }) c
      (t.AddressRegister + BitVec.ofNat 64 i * BLK_SIZE) hc.2.2.1
    exact h.trans hreq
  · exact h

theorem follows_bwdRound (c : CacheView) {x : AccessMapPrefetcher × RequestActs × ℕ} (h : Follows s x.2.1 x.1)
    (i : Fin (MAP_Size / 2)) : Follows s (bwdRound c x i).2.1 (bwdRound c x i).1 := by
  obtain ⟨t, acts, count⟩ := x
  rw [bwdRound]
  dsimp only
  split
  · next hc =>
    have hreq := follows_request (s := { t with BwdPrefMap := Function.update t.BwdPrefMap i false }) c
      (t.AddressRegister - BitVec.ofNat 64 i * BLK_SIZE) hc.2.2.1
    exact h.trans hreq
  · exact h

theorem follows_requestLoop
    {round : AccessMapPrefetcher × RequestActs × ℕ → Fin (MAP_Size / 2) → AccessMapPrefetcher × RequestActs × ℕ}
    (hround : ∀ x, Follows s x.2.1 x.1 → ∀ i, Follows s (round x i).2.1 (round x i).1) :
    Follows s (requestLoop round s).2 (requestLoop round s).1 := by
  have hall : ∀ (l : List (Fin (MAP_Size / 2))) x, Follows s x.2.1 x.1 →
      Follows s (l.foldl round x).2.1 (l.foldl round x).1 := by
    intro l
    induction l with
    | nil => exact fun x h => h
    | cons i l ih => exact fun x h => ih _ (hround x h i)
  rw [requestLoop]
  exact hall _ (s, [], 0) (.refl rfl)

theorem follows_stages (s : AccessMapPrefetcher) (c : CacheView) : Follows s (s.stages c).2 (s.stages c).1 := by
  have hkeep : Follows s (s.housekeeping c).2 (s.housekeeping c).1 := MSHRegisters.run_Housekeeping s.mshrpf c.atStart
  have hissue : ∀ t : AccessMapPrefetcher, Follows t (t.issueStage c).2 (t.issueStage c).1 := fun t =>
    MSHRegisters.run_PrefetchHousekeeping t.mshrpf t.mshr c.atIssue
  have hfwd : ∀ t : AccessMapPrefetcher, Follows t (requestLoop (fwdRound c) t).2 (requestLoop (fwdRound c) t).1 :=
    fun t => follows_requestLoop fun x h i => follows_fwdRound c h i
  have hbwd : ∀ t : AccessMapPrefetcher, Follows t (requestLoop (bwdRound c) t).2 (requestLoop (bwdRound c) t).1 :=
    fun t => follows_requestLoop fun x h i => follows_bwdRound c h i
  have hall := ((hkeep.trans (hissue _)).trans (hfwd _)).trans (hbwd _)
  simpa only [stages] using hall

/-- Each demand goes through, and leaves the prefetch registers alone. -/
theorem demand_isSome (s : AccessMapPrefetcher) (d : Demand) : ∃ t, s.demand d = some t ∧ t.mshrpf = s.mshrpf ∧
    t.mshr = if s.enters d then (s.mshr.Issue () d.extra d.data.DataAddr).1 else s.mshr := by
  obtain ⟨r, hr, -⟩ := MemoryAccessMapTable.IssuePrefetch_answers s.pref d.data.DataAddr d.wires (s.MSHR_hit d)
    (d.extra d.data.DataAddr)
  simp only [demand, hr, Option.bind_eq_bind, Option.bind_some]
  exact ⟨_, rfl, rfl, rfl⟩

theorem step_isSome (w : Watched) (e : PrefetchEvent) : ∃ w', w.step e = some w' := by
  cases e with
  | stages c => exact ⟨_, rfl⟩
  | demand d =>
    obtain ⟨t, ht, -⟩ := demand_isSome w.self d
    simp only [step, ht, Option.bind_eq_bind, Option.bind_some]
    exact ⟨_, rfl⟩

/-- The log is a lawful history of the registers. -/
def Logged (w : Watched) : Prop := run Slots.step (fun _ => none) w.log = some w.self.mshrpf.view

theorem step_logged {w w' : Watched} {e : PrefetchEvent} (h : w.step e = some w') (hw : w.Logged) : w'.Logged := by
  cases e with
  | stages c =>
    obtain rfl := Option.some.inj h
    have hstages := follows_stages w.self c
    rw [Follows] at hstages
    simp only [Logged, run_append] at hw ⊢
    rw [hw, Option.bind_some, hstages]
  | demand d =>
    obtain ⟨t, ht, hsame, -⟩ := demand_isSome w.self d
    rw [step, ht] at h
    obtain rfl := Option.some.inj h
    rw [Logged, hsame]
    exact hw

/-- **Prefetch requests.** Over every run of cycles: a block is in one entry at most, between two assignments of
an entry it is released, and between two issues it is assigned. -/
theorem run_requests (PrefFail PrefSucc : ℤ) (FwdPrefMap BwdPrefMap : Fin (MAP_Size / 2) → Bool)
    (AddressRegister : BitVec 64) (cycles : List PrefetchCycle) : ∃ w,
    run step (init (.init PrefFail PrefSucc FwdPrefMap BwdPrefMap AddressRegister)) (cycles.flatMap PrefetchCycle.events) =
      some w ∧
    cycles.foldlM IssuePrefetches (.init PrefFail PrefSucc FwdPrefMap BwdPrefMap AddressRegister) = some w.self ∧
    w.Logged ∧
    (∀ p q, (w.self.mshrpf.mshr p).Valid = true → (w.self.mshrpf.mshr q).Valid = true →
      block (w.self.mshrpf.mshr p).Addr = block (w.self.mshrpf.mshr q).Addr → p = q) ∧
    (∀ p b b' l₁ l₂ l₃, w.log = l₁ ++ .assign p b :: (l₂ ++ .assign p b' :: l₃) → SlotAct.release p ∈ l₂) ∧
    ∀ p x y l₁ l₂ l₃, w.log = l₁ ++ .issue p x :: (l₂ ++ .issue p y :: l₃) → ∃ b, SlotAct.assign p b ∈ l₂ := by
  set s := AccessMapPrefetcher.init PrefFail PrefSucc FwdPrefMap BwdPrefMap AddressRegister
  have hinit : (init s).Logged := rfl
  have htotal : (run step (init s) (cycles.flatMap PrefetchCycle.events)).isSome = true := by
    refine run_total (I := Logged) (fun w e hw => ?_) hinit _
    obtain ⟨w', hw'⟩ := step_isSome w e
    exact ⟨w', hw', step_logged hw' hw⟩
  obtain ⟨w, hw⟩ := Option.isSome_iff_exists.1 htotal
  have hlog : w.Logged := run_inv (I := Logged) (fun _ _ _ => step_logged) hw hinit
  have hcalls : cycles.foldlM IssuePrefetches s = some w.self := by
    have h := run_cycles (init s) cycles
    rw [hw, Option.map_some] at h
    exact h.symm
  have hdistinct : w.self.mshrpf.view.Distinct :=
    Slots.run_distinct hlog (by intro i j k hi; cases hi)
  refine ⟨w, hw, hcalls, hlog, ?_, ?_, ?_⟩
  · intro p q hp hq hb
    refine hdistinct p q (block (w.self.mshrpf.mshr p).Addr) ?_ ?_
    · rw [MSHRegisters.key_view, if_pos hp]
    · rw [MSHRegisters.key_view, if_pos hq, hb]
  · -- the log is a history in which an entry in use is not assigned
    intro p b b' l₁ l₂ l₃ hl
    rw [Logged, hl] at hlog
    exact Slots.release_between hlog
  · intro p x y l₁ l₂ l₃ hl
    rw [Logged, hl] at hlog
    exact Slots.assign_between hlog

end Requests

end Watched

end Esesc.Core
