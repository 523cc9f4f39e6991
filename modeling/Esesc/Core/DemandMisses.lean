import Esesc.Core.AccessMapPrefetcher

/-!
# Demand misses of the access map prefetcher

A demand miss gets a register, so that no prefetch of its block is issued while the cache waits for it.
The registers are assigned in turn, also when the next one is still in use.

* `Tracks.issue`, `Tracks.housekeeping`: the registers have the outstanding misses while no register in use is
  assigned.
* `Holds.lost`: a register in use that is assigned loses its miss.
* `run_misses_iff`: the runs on which every outstanding miss is found and no prefetch of its block is issued.
-/

namespace Esesc.Core

open Esesc.Lib

namespace Watched

open AccessMapPrefetcher

/-- The outstanding misses are found. -/
def Found (w : Watched) : Prop := ∀ a ∈ w.outstanding, w.self.mshr.Search a = true

/-- In stage 3 of a cycle, no prefetch is issued for the block of an outstanding miss. -/
def Spares (w : Watched) (c : CacheView) : Prop :=
  ∀ p, .issue p true ∈ ((w.self.housekeeping c).1.issueStage c).2 → ∀ a ∈ w.kept c,
    block a ≠ block ((w.self.housekeeping c).1.mshrpf.mshr p).Addr

/-- **A good event** leaves the outstanding misses found, and spares their blocks. -/
def Good (w : Watched) (e : PrefetchEvent) : Prop :=
  ∃ w', w.step e = some w' ∧ w'.Found ∧
    match e with
    | .stages c => w.Spares c
    | .demand _ => True

/-- A miss is entered only in a register that is free. -/
def Free (w : Watched) : PrefetchEvent → Prop
  | .stages _ => True
  | .demand d => w.self.enters d = true → (w.self.mshr.mshr w.self.mshr.ptr).Valid = false

section Misses

variable {r : MissStatusHandlingRegister} {extra : BitVec 64 → ℤ} {addr a : BitVec 64} {out : List (BitVec 64)}

/-- **The registers in use.** They hold outstanding misses, of different blocks. -/
structure Holds (r : MissStatusHandlingRegister) (out : List (BitVec 64)) : Prop where
  mem : ∀ i, (r.mshr i).Valid = true → (r.mshr i).Addr ∈ out ∧ (r.mshr i).Addr ≠ 0
  inj : ∀ i j, (r.mshr i).Valid = true → (r.mshr j).Valid = true →
    block (r.mshr i).Addr = block (r.mshr j).Addr → i = j

/-- **Tracking.** Every outstanding miss has its register. -/
structure Tracks (r : MissStatusHandlingRegister) (out : List (BitVec 64)) : Prop extends Holds r out where
  has : ∀ a ∈ out, ∃ i, (r.mshr i).Valid = true ∧ (r.mshr i).Addr = a

theorem Tracks.search (h : Tracks r out) (ha : a ∈ out) : r.Search a = true := by
  obtain ⟨i, hv, haddr⟩ := h.has a ha
  exact MSHRegisters.Search_iff.2 (Or.inr ⟨i, hv, by rw [haddr]⟩)

/-- An address of the block of an outstanding miss is found as well. -/
theorem Tracks.search_block (h : Tracks r out) (ha : a ∈ out) (hb : block a = block addr) : r.Search addr = true := by
  obtain ⟨i, hv, haddr⟩ := h.has a ha
  exact MSHRegisters.Search_iff.2 (Or.inr ⟨i, hv, by rw [haddr, hb]⟩)

/-- **Housekeeping.** -/
theorem Tracks.housekeeping (h : Tracks r out) (extra : BitVec 64 → ℤ) :
    Tracks (r.Housekeeping extra).1 (out.filter fun a => extra a < 0) := by
  have hmshr : ∀ i, (r.Housekeeping extra).1.mshr i =
      if (r.mshr i).Valid then (r.mshr i).Housekeeping extra else r.mshr i := fun _ => rfl
  have hvalid : ∀ i, ((r.Housekeeping extra).1.mshr i).Valid = true ↔
      (r.mshr i).Valid = true ∧ extra (r.mshr i).Addr < 0 := by
    intro i
    rw [hmshr, MSHREntry.Housekeeping]
    by_cases hv : (r.mshr i).Valid = true
    · by_cases hx : extra (r.mshr i).Addr ≥ 0
      · simp [hv, hx]
      · simp [hv, hx, not_le.1 hx]
    · simp [hv]
  have haddr : ∀ i, ((r.Housekeeping extra).1.mshr i).Addr = (r.mshr i).Addr := by
    intro i
    rw [hmshr, MSHREntry.Housekeeping]
    split
    · split <;> rfl
    · rfl
  refine ⟨⟨fun i hi => ?_, fun i j hi hj hb => ?_⟩, fun a ha => ?_⟩
  · obtain ⟨hv, hx⟩ := (hvalid i).1 hi
    obtain ⟨hmem, hne⟩ := h.mem i hv
    rw [haddr]
    exact ⟨List.mem_filter.2 ⟨hmem, by simpa using hx⟩, hne⟩
  · rw [haddr, haddr] at hb
    exact h.inj i j ((hvalid i).1 hi).1 ((hvalid j).1 hj).1 hb
  · obtain ⟨hmem, hx⟩ := List.mem_filter.1 ha
    obtain ⟨i, hv, rfl⟩ := h.has a hmem
    exact ⟨i, (hvalid i).2 ⟨hv, by simpa using hx⟩, haddr i⟩

/-- The register that a miss gets. -/
theorem Issue_mshr (hs : r.Search addr = false) (extra : BitVec 64 → ℤ) (i : Fin MSHR_SIZE) :
    (r.Issue () extra addr).1.mshr i =
      if i = r.ptr then (MSHREntry.Entry () addr).Housekeeping extra else r.mshr i := by
  rw [MSHRegisters.Issue, hs]
  by_cases hi : i = r.ptr
  · simp [hi]
  · simp [hi]

theorem Entry_Housekeeping (extra : BitVec 64 → ℤ) (addr : BitVec 64) :
    ((MSHREntry.Entry () addr).Housekeeping extra).Addr = addr ∧
      (((MSHREntry.Entry () addr).Housekeeping extra).Valid = true ↔ extra addr < 0) := by
  rw [MSHREntry.Housekeeping]
  by_cases hx : extra addr ≥ 0
  · simp [MSHREntry.Entry, hx]
  · simp [MSHREntry.Entry, hx, not_le.1 hx]

/-- A miss that is not found is of a block of its own. -/
theorem search_false (hs : r.Search addr = false) :
    addr ≠ 0 ∧ ∀ i, (r.mshr i).Valid = true → block addr ≠ block (r.mshr i).Addr := by
  constructor
  · rintro rfl
    rw [MSHRegisters.Search_iff.2 (Or.inl rfl)] at hs
    cases hs
  · intro i hi hb
    rw [MSHRegisters.Search_iff.2 (Or.inr ⟨i, hi, hb⟩)] at hs
    cases hs

/-- What is in use after a miss: its register, if the cache does not have the block yet, and others as before. -/
theorem issue_entry (hs : r.Search addr = false) (extra : BitVec 64 → ℤ) {i : Fin MSHR_SIZE}
    (hi : ((r.Issue () extra addr).1.mshr i).Valid = true) :
    (i = r.ptr ∧ extra addr < 0 ∧ ((r.Issue () extra addr).1.mshr i).Addr = addr) ∨
      ((r.mshr i).Valid = true ∧ (r.Issue () extra addr).1.mshr i = r.mshr i) := by
  obtain ⟨hnew, hnewv⟩ := Entry_Housekeeping extra addr
  rw [Issue_mshr hs] at hi ⊢
  split
  · rename_i hptr
    rw [if_pos hptr] at hi
    exact Or.inl ⟨hptr, hnewv.1 hi, hnew⟩
  · rename_i hptr
    rw [if_neg hptr] at hi
    exact Or.inr ⟨hi, rfl⟩

theorem Holds.issue (h : Holds r out) (hs : r.Search addr = false) (extra : BitVec 64 → ℤ) :
    Holds (r.Issue () extra addr).1 (if extra addr < 0 then addr :: out else out) := by
  obtain ⟨hzero, hnone⟩ := search_false hs
  refine ⟨fun i hi => ?_, fun i j hi hj hb => ?_⟩
  · rcases issue_entry hs extra hi with ⟨-, hx, haddr⟩ | ⟨hv, hsame⟩
    · rw [haddr, if_pos hx]
      exact ⟨List.mem_cons_self, hzero⟩
    · rw [hsame]
      obtain ⟨hmem, hne⟩ := h.mem i hv
      refine ⟨?_, hne⟩
      split
      · exact List.mem_cons_of_mem _ hmem
      · exact hmem
  · rcases issue_entry hs extra hi with ⟨hi', -, haddr⟩ | ⟨hv, hsame⟩
    · rcases issue_entry hs extra hj with ⟨hj', -, -⟩ | ⟨hv', hsame'⟩
      · rw [hi', hj']
      · rw [haddr, hsame'] at hb
        exact absurd hb (hnone j hv')
    · rcases issue_entry hs extra hj with ⟨-, -, haddr'⟩ | ⟨hv', hsame'⟩
      · rw [haddr', hsame] at hb
        exact absurd hb.symm (hnone i hv)
      · rw [hsame, hsame'] at hb
        exact h.inj i j hv hv' hb

/-- **A miss in a free register.** -/
theorem Tracks.issue (h : Tracks r out) (hs : r.Search addr = false) (hfree : (r.mshr r.ptr).Valid = false)
    (extra : BitVec 64 → ℤ) :
    Tracks (r.Issue () extra addr).1 (if extra addr < 0 then addr :: out else out) := by
  obtain ⟨hnew, hnewv⟩ := Entry_Housekeeping extra addr
  refine ⟨h.toHolds.issue hs extra, fun a ha => ?_⟩
  have hold : a ∈ out → ∃ i, ((r.Issue () extra addr).1.mshr i).Valid = true ∧
      ((r.Issue () extra addr).1.mshr i).Addr = a := by
    intro ha
    obtain ⟨i, hv, haddr⟩ := h.has a ha
    have hne : i ≠ r.ptr := by
      rintro rfl
      rw [hfree] at hv
      cases hv
    refine ⟨i, ?_⟩
    rw [Issue_mshr hs, if_neg hne]
    exact ⟨hv, haddr⟩
  split at ha
  · next hx =>
    rcases List.mem_cons.1 ha with rfl | ha
    · refine ⟨r.ptr, ?_⟩
      rw [Issue_mshr hs, if_pos rfl]
      exact ⟨hnewv.2 hx, hnew⟩
    · exact hold ha
  · exact hold ha

/-- **A miss in a register in use.** The miss that was there is not found any more. -/
theorem Holds.lost (h : Holds r out) (hs : r.Search addr = false) (hused : (r.mshr r.ptr).Valid = true)
    (extra : BitVec 64 → ℤ) : (r.Issue () extra addr).1.Search (r.mshr r.ptr).Addr = false := by
  obtain ⟨hnew, -⟩ := Entry_Housekeeping extra addr
  rw [Bool.eq_false_iff]
  intro hfound
  rcases MSHRegisters.Search_iff.1 hfound with hzero | ⟨i, hv, hb⟩
  · exact (h.mem r.ptr hused).2 hzero
  · rw [Issue_mshr hs] at hv hb
    split at hv
    · next hi =>
      rw [if_pos hi, hnew] at hb
      rw [MSHRegisters.Search_iff.2 (Or.inr ⟨r.ptr, hused, hb.symm⟩)] at hs
      cases hs
    · next hi =>
      rw [if_neg hi] at hb
      exact hi (h.inj r.ptr i hused hv hb).symm

end Misses

/-! ## Events -/

section Events

variable {w w' : Watched} {c : CacheView} {d : Demand}

/-- The stages of a cycle do to the demand registers what housekeeping does. -/
theorem mshr_stages (s : AccessMapPrefetcher) (c : CacheView) :
    (s.stages c).1.mshr = (s.mshr.Housekeeping c.atStart).1 := by
  have hrequest : ∀ (t : AccessMapPrefetcher) a, (t.request c a).1.mshr = t.mshr := by
    intro t a
    rw [request]
    dsimp only
    split <;> rfl
  have hfwd : ∀ x i, (fwdRound c x i).1.mshr = x.1.mshr := by
    intro x i
    rw [fwdRound]
    dsimp only
    split
    · exact hrequest _ _
    · rfl
  have hbwd : ∀ x i, (bwdRound c x i).1.mshr = x.1.mshr := by
    intro x i
    rw [bwdRound]
    dsimp only
    split
    · exact hrequest _ _
    · rfl
  have hloop : ∀ round, (∀ x i, (round x i).1.mshr = x.1.mshr) → ∀ t, (requestLoop round t).1.mshr = t.mshr := by
    intro round hround t
    have hall : ∀ (l : List (Fin (MAP_Size / 2))) x, (l.foldl round x).1.mshr = x.1.mshr := by
      intro l
      induction l with
      | nil => exact fun x => rfl
      | cons i l ih => exact fun x => (ih _).trans (hround x i)
    rw [requestLoop]
    exact hall _ (t, [], 0)
  simp only [stages]
  rw [hloop _ hbwd, hloop _ hfwd]
  rfl

/-- A prefetch that is issued is not of a block that the demand registers have. -/
theorem spares_of_tracks (h : Tracks w.self.mshr w.outstanding) (c : CacheView) : w.Spares c := by
  intro p hp a ha hb
  have htracks := h.housekeeping c.atStart
  have hfound := htracks.search_block ha hb
  simp only [issueStage, MSHRegisters.PrefetchHousekeeping] at hp
  split at hp
  · cases hp
  · next q hq =>
    split at hp
    · simp at hp
    · next hs =>
      have hpq : p = q := by
        simp only [List.mem_singleton, SlotAct.issue.injEq] at hp
        exact hp.1
      rw [hpq] at hfound
      exact hs hfound

theorem enters_iff (s : AccessMapPrefetcher) (d : Demand) (h : s.enters d = true) :
    s.mshr.Search d.data.DataAddr = false := by
  simp only [enters, MSHR_hit, Bool.and_eq_true, Bool.not_eq_true', Bool.or_eq_false_iff] at h
  exact h.1.1

/-- What the cache waits for after a demand. -/
def waits (w : Watched) (d : Demand) : List (BitVec 64) :=
  if w.self.enters d ∧ d.extra d.data.DataAddr < 0 then d.data.DataAddr :: w.outstanding else w.outstanding

theorem step_demand (w : Watched) (d : Demand) : ∃ t, w.step (.demand d) = some ⟨t, w.log, w.waits d⟩ ∧
    t.mshr = if w.self.enters d then (w.self.mshr.Issue () d.extra d.data.DataAddr).1 else w.self.mshr := by
  obtain ⟨t, ht, -, hmshr⟩ := demand_isSome w.self d
  refine ⟨t, ?_, hmshr⟩
  rw [step, ht]
  rfl

/-- A demand that is not entered in a register in use keeps track. -/
theorem Tracks.demand (h : Tracks w.self.mshr w.outstanding) (hfree : w.Free (.demand d)) :
    Tracks (if w.self.enters d then (w.self.mshr.Issue () d.extra d.data.DataAddr).1 else w.self.mshr) (w.waits d) := by
  rw [waits]
  by_cases henters : w.self.enters d = true
  · simp only [henters, if_true, true_and]
    exact h.issue (enters_iff w.self d henters) (hfree henters) d.extra
  · simp only [henters]
    exact h

/-- A demand that is entered in a register in use loses the miss that the cache still waits for. -/
theorem lost_demand (h : Tracks w.self.mshr w.outstanding) (henters : w.self.enters d = true)
    (hused : (w.self.mshr.mshr w.self.mshr.ptr).Valid = true) :
    ∃ a ∈ w.waits d, (w.self.mshr.Issue () d.extra d.data.DataAddr).1.Search a = false := by
  have hmem := (h.mem w.self.mshr.ptr hused).1
  refine ⟨_, ?_, h.toHolds.lost (enters_iff w.self d henters) hused d.extra⟩
  rw [waits]
  split
  · exact List.mem_cons_of_mem _ hmem
  · exact hmem

/-- **One event.** Where the registers have the outstanding misses, it is good exactly when it enters no miss in
a register in use, and then the registers still have them. -/
theorem good_iff_free (h : Tracks w.self.mshr w.outstanding) (e : PrefetchEvent) :
    (w.Good e ↔ w.Free e) ∧ ∀ w', w.step e = some w' → w.Free e → Tracks w'.self.mshr w'.outstanding := by
  cases e with
  | stages c =>
    have htracks : Tracks (w.self.stages c).1.mshr (w.kept c) := by
      rw [mshr_stages]
      exact h.housekeeping c.atStart
    have hstep : w.step (.stages c) = some ⟨(w.self.stages c).1, w.log ++ (w.self.stages c).2, w.kept c⟩ := rfl
    generalize w.self.stages c = x at htracks hstep
    refine ⟨⟨fun _ => trivial, fun _ => ⟨_, hstep, fun a ha => htracks.search ha, spares_of_tracks h c⟩⟩, ?_⟩
    rintro w' hw' -
    obtain rfl := Option.some.inj (hstep.symm.trans hw')
    exact htracks
  | demand d =>
    obtain ⟨t, hstep, hmshr⟩ := step_demand w d
    have htracks : w.Free (.demand d) → Tracks t.mshr (w.waits d) := by
      intro hfree
      rw [hmshr]
      exact h.demand hfree
    refine ⟨⟨?_, fun hfree => ⟨_, hstep, fun a ha => (htracks hfree).search ha, trivial⟩⟩, ?_⟩
    · rintro ⟨w', hw', hfound, -⟩ henters
      obtain rfl := Option.some.inj (hstep.symm.trans hw')
      by_contra hused
      rw [Bool.not_eq_false] at hused
      -- the miss of the register is outstanding, and not found after the call
      obtain ⟨a, ha, hlost⟩ := lost_demand h henters hused
      have hfind := hfound a ha
      simp only [hmshr, henters, if_true] at hfind
      rw [hlost] at hfind
      cases hfind
    · intro w' hw' hfree
      obtain rfl := Option.some.inj (hstep.symm.trans hw')
      exact htracks hfree

theorem tracks_init (s : AccessMapPrefetcher) (h : s.mshr = .init ()) : Tracks (init s).self.mshr (init s).outstanding := by
  refine ⟨⟨fun i hi => ?_, fun i j hi => ?_⟩, fun a ha => ?_⟩
  · rw [init, h] at hi
    cases hi
  · rw [init, h] at hi
    cases hi
  · cases ha

end Events

/-! ## Runs -/

theorem along_good_free (s : AccessMapPrefetcher) (h : s.mshr = .init ()) (es : List PrefetchEvent) :
    Along step Good (init s) es ↔ Along step Free (init s) es :=
  along_iff_of_inv (I := fun w => Tracks w.self.mshr w.outstanding)
    (fun _ e w' hs hfree hI => (good_iff_free hI e).2 w' hs hfree) (fun _ e hI => (good_iff_free hI e).1)
    (tracks_init s h) es

/-- **Demand misses.** Over a run of cycles, every outstanding miss is found, and no prefetch of its block is issued,
exactly when no miss is entered in a register that is still in use. -/
theorem run_misses_iff (PrefFail PrefSucc : ℤ) (FwdPrefMap BwdPrefMap : Fin (MAP_Size / 2) → Bool)
    (AddressRegister : BitVec 64) (cycles : List PrefetchCycle) :
    Along step Good (init (.init PrefFail PrefSucc FwdPrefMap BwdPrefMap AddressRegister))
      (cycles.flatMap PrefetchCycle.events) ↔
    Along step Free (init (.init PrefFail PrefSucc FwdPrefMap BwdPrefMap AddressRegister))
      (cycles.flatMap PrefetchCycle.events) :=
  along_good_free _ rfl _

/-! ## A burst of misses -/

section Burst

/-- Some of the demands is entered in a register in use, when the registers are `r` before and the prefetch registers
are `pf` all the time. -/
def entersUsed (pf : PrefetchMissStatusHandlingRegister) : MissStatusHandlingRegister → List Demand → Bool
  | _, [] => false
  | r, d :: ds =>
    let enters := !(r.Search d.data.DataAddr || pf.Search d.data.DataAddr) && !d.data.hit
    enters && (r.mshr r.ptr).Valid ||
      entersUsed pf (if enters then (r.Issue () d.extra d.data.DataAddr).1 else r) ds

theorem not_along_free {w : Watched} {ds : List Demand} (h : entersUsed w.self.mshrpf w.self.mshr ds = true) :
    ¬Along step Free w (ds.map .demand) := by
  induction ds generalizing w with
  | nil => cases h
  | cons d ds ih =>
    intro halong
    rw [entersUsed, Bool.or_eq_true, Bool.and_eq_true] at h
    rcases h with ⟨henters, hused⟩ | h
    · have hfree := halong.1 henters
      rw [hused] at hfree
      cases hfree
    · obtain ⟨t, ht, hpf, hmshr⟩ := demand_isSome w.self d
      refine ih ?_ (halong.2 _ (by rw [step, ht]; rfl))
      rw [hpf, hmshr]
      exact h

/-- A cycle with misses of the `n` blocks from address 64 on, none of which the cache ever has. -/
def burst (n : ℕ) : PrefetchCycle where
  view := ⟨1, fun _ => -1, fun _ => -1, fun _ => -1⟩
  demandList := (List.range n).map fun k => ⟨⟨BitVec.ofNat 64 (64 * (k + 1)), false⟩, fun _ => -1, .init⟩

/-- The seventeenth of a burst of misses takes the register of the first one. -/
theorem not_along_burst : ¬Along step Good (init (.init 0 0 (fun _ => false) (fun _ => false) 0))
    ([burst 17].flatMap PrefetchCycle.events) := by
  have hevents : [burst 17].flatMap PrefetchCycle.events = .stages (burst 17).view :: (burst 17).demandList.map .demand :=
    List.flatMap_singleton _ _
  rw [along_good_free _ rfl, hevents]
  intro halong
  refine not_along_free ?_ (halong.2 _ rfl)
  decide +kernel

end Burst

end Watched

end Esesc.Core
