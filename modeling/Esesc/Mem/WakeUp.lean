import Esesc.Mem.System

/-!
# No parked request is forgotten

`Sound` ties the registers to the requests that are still to be answered: an entry in use
has one that maps to it, and a parked request is in an entry that is in use. While an
answer is handled the entry it is for is exempt, until `retire` has either freed it or
forwarded a request for it again.

* `retires_sound`: `retire` ends with no entry exempt.
* `run_sound`: so does every run.
* `no_lost_wakeup`: a parked request waits for an answer that is still to come.
-/

namespace Esesc.Mem

open Esesc.Suc Esesc.Lib

/-! ## Sound registers -/

/-- Some request of `un` maps to entry `p`. -/
def Awaited (k : MSHRConfig) (un : Multiset MemRequest) (p : ℕ) : Prop :=
  ∃ mreq ∈ un, k.calcEntry mreq.addr = p

/-- An entry holds requests that map to it, and is used once more than they need. -/
structure EntryOk (k : MSHRConfig) (p : ℕ) (e : EntryType Retry) : Prop where
  nonneg : 0 ≤ e.nUse
  covered : e.cc ≠ [] → (e.cc.length : ℤ) + 1 ≤ e.nUse
  mapped : ∀ cb ∈ e.cc, k.calcEntry cb.mreq.addr = p

/-- The registers agree with the requests `un` that are to be answered, the entry of
`ex` apart. -/
def Sound (k : MSHRConfig) (ex : Option AddrType) (un : Multiset MemRequest) : MSHR Retry → Prop
  | .full m => ∀ p, EntryOk k p (m.entry p) ∧
      ((m.entry p).nUse ≠ 0 → ex.map k.calcEntry ≠ some p → Awaited k un p)
  | .blocking overflow => overflow ≠ [] → ex = none → un ≠ 0
  | .none overflow => overflow.filterMap (·.cb) = []

variable {k : MSHRConfig} {ex : Option AddrType} {un un' : Multiset MemRequest} {m m' : MSHR Retry}
  {addr : AddrType} {mreq : MemRequest} {cb : Retry}

theorem EntryOk.free (k : MSHRConfig) (p : ℕ) : EntryOk k p ⟨[], 0⟩ := by
  constructor <;> simp

/-- Registers of the kind that keep no callbacks. -/
theorem sound_none {q : List (OverflowField Retry)} {f : OverflowField Retry} (h : Sound k ex un (.none q)) (hf : f ∈ q) :
    f.cb = none := by
  by_contra hcb
  obtain ⟨cb, hcb⟩ := Option.ne_none_iff_exists'.1 hcb
  have hmem : cb ∈ q.filterMap (·.cb) := List.mem_filterMap.2 ⟨f, hf, hcb⟩
  rw [show q.filterMap (·.cb) = [] from h] at hmem
  cases hmem

theorem sound_create (t : MSHRType) : Sound k none un (.create k t) := by
  cases t with
  | blocking => exact fun h => absurd rfl h
  | none => rfl
  | full => exact fun p => ⟨EntryOk.free k p, fun h => absurd rfl h⟩

theorem Sound.mono (h : Sound k ex un m) (hle : un ≤ un') : Sound k ex un' m := by
  cases m with
  | blocking q =>
    intro hq hex h0
    rw [h0] at hle
    exact h hq hex (Multiset.le_zero.1 hle)
  | none q => exact h
  | full m =>
    intro p
    refine ⟨(h p).1, fun hu hp => ?_⟩
    obtain ⟨mreq, hmem, hmap⟩ := (h p).2 hu hp
    exact ⟨mreq, Multiset.mem_of_le hle hmem, hmap⟩

/-- An answer arrives: its entry is exempt until it is handled. -/
theorem Sound.answer (h : Sound k none un m) (mreq : MemRequest) : Sound k (some mreq.addr) (un - {mreq}) m := by
  cases m with
  | blocking q => intro _ hex; cases hex
  | none q => exact h
  | full m =>
    intro p
    refine ⟨(h p).1, fun hu hp => ?_⟩
    obtain ⟨mreq', hmem, hmap⟩ := (h p).2 hu (by simp)
    -- the request that awaits the entry is not the answered one, which maps to the exempt entry
    have hne : mreq' ≠ mreq := by
      rintro rfl
      exact hp (by rw [Option.map_some, hmap])
    refine ⟨mreq', ?_, hmap⟩
    rw [Multiset.sub_singleton]
    exact (Multiset.mem_erase_of_ne hne).2 hmem

/-- A request that is forwarded takes a use of its entry, which is no longer exempt. -/
theorem Sound.send (h : Sound k ex un m) (mreq : MemRequest)
    (hex : ∀ a ∈ ex, k.calcEntry a = k.calcEntry mreq.addr) :
    Sound k none (mreq ::ₘ un) (m.addEntry k mreq.addr none) := by
  cases m with
  | blocking q => intro _ _; exact Multiset.cons_ne_zero
  | none q =>
    change List.filterMap _ _ = _
    rw [List.filterMap_append, h]
    rfl
  | full m =>
    intro p
    by_cases hp : p = k.calcEntry mreq.addr
    · subst hp
      obtain ⟨hok, -⟩ := h (k.calcEntry mreq.addr)
      simp only [FullMSHR.addEntry, Function.update_self, Option.toList_none, List.append_nil]
      have h0 := hok.nonneg
      refine ⟨⟨by simp only; omega, fun hne => ?_, hok.mapped⟩, fun _ _ => ⟨mreq, by simp, rfl⟩⟩
      have := hok.covered hne
      simp only
      omega
    · obtain ⟨hok, haw⟩ := h p
      simp only [FullMSHR.addEntry, Function.update_of_ne hp]
      refine ⟨hok, fun hu _ => ?_⟩
      have hexp : ex.map k.calcEntry ≠ some p := by
        intro hmap
        obtain ⟨a, ha, hap⟩ := Option.map_eq_some_iff.1 hmap
        exact hp (by rw [← hap, hex a ha])
      obtain ⟨mreq', hmem, hmap⟩ := haw hu hexp
      exact ⟨mreq', Multiset.mem_cons_of_mem hmem, hmap⟩

/-- A request is only parked behind one that is to be answered. -/
theorem Sound.park (h : Sound k none un m) (hissue : m.canIssue k cb.mreq.addr = false) :
    Sound k none un (m.addEntry k cb.mreq.addr (some cb)) := by
  cases m with
  | blocking q =>
    -- the queue is not empty, or the request could be issued
    have hq : q ≠ [] := by
      rintro rfl
      exact absurd hissue (by simp [MSHR.canIssue])
    intro _ _
    exact h hq rfl
  | none q => simp [MSHR.canIssue] at hissue
  | full m =>
    -- the entry is in use, or the request could be issued
    have huse : (m.entry (k.calcEntry cb.mreq.addr)).nUse ≠ 0 := by
      simpa [MSHR.canIssue, FullMSHR.canIssue] using hissue
    intro p
    by_cases hp : p = k.calcEntry cb.mreq.addr
    · subst hp
      obtain ⟨hok, haw⟩ := h (k.calcEntry cb.mreq.addr)
      have h0 := hok.nonneg
      simp only [FullMSHR.addEntry, Function.update_self, Option.toList_some]
      refine ⟨⟨by simp only; omega, fun _ => ?_, ?_⟩, fun _ => haw huse⟩
      · by_cases hnil : (m.entry (k.calcEntry cb.mreq.addr)).cc = []
        · simp only [hnil, List.nil_append, List.length_singleton]
          omega
        · have := hok.covered hnil
          simp only [List.length_append, List.length_singleton, Nat.cast_add, Nat.cast_one]
          omega
      · intro cb' hmem
        rcases List.mem_append.1 hmem with hmem | hmem
        · exact hok.mapped cb' hmem
        · rw [List.mem_singleton.1 hmem]
    · simpa only [FullMSHR.addEntry, Function.update_of_ne hp] using h p

/-- With no callback to run, `retire` frees the entry. -/
theorem Sound.retireBegin_none (h : Sound k (some addr) un m) (hm : m.retireBegin k addr = (none, m')) :
    Sound k none un m' := by
  cases m with
  | blocking q =>
    obtain ⟨q', rfl, hr⟩ := MSHR.blocking_retireBegin hm
    intro hq
    exact absurd (popOverflow_none hr).1 hq
  | none q =>
    obtain ⟨q', rfl, hr⟩ := MSHR.none_retireBegin hm
    change List.filterMap _ q' = []
    rw [(popOverflow_none hr).1, List.filterMap_nil]
  | full m =>
    obtain ⟨m1, rfl, hr⟩ := MSHR.full_retireBegin hm
    intro p
    rcases FullMSHR.retireBegin_cases hr with
      ⟨-, huse, hm⟩ | ⟨-, -, -, hm⟩ | ⟨cb, cc, hcb, -⟩
    · rw [hm]
      refine ⟨(h p).1, fun hu _ => (h p).2 hu ?_⟩
      rw [Option.map_some, Ne, Option.some.injEq]
      rintro rfl
      exact hu huse
    · rw [hm]
      by_cases hp : p = k.calcEntry addr
      · subst hp
        rw [Function.update_self]
        exact ⟨EntryOk.free k _, fun hu => absurd rfl hu⟩
      · rw [Function.update_of_ne hp]
        exact ⟨(h p).1, fun hu _ => (h p).2 hu (by rw [Option.map_some, Ne, Option.some.injEq]; exact Ne.symm hp)⟩
    · cases hcb

/-- The callback `retire` runs, in sound full registers. -/
theorem Sound.full_some {m : FullMSHR Retry} (h : Sound k (some addr) un (.full m))
    (hr : (MSHR.full m).retireBegin k addr = (some cb, m')) :
    ∃ m1 cc, m' = .full m1 ∧ k.calcEntry cb.mreq.addr = k.calcEntry addr ∧
      (m.entry (k.calcEntry addr)).cc = cb :: cc ∧ (cc.length : ℤ) + 2 ≤ (m.entry (k.calcEntry addr)).nUse ∧
      m1.entry = Function.update m.entry (k.calcEntry addr) ⟨cc, (m.entry (k.calcEntry addr)).nUse - 1⟩ := by
  obtain ⟨m1, rfl, hr1⟩ := MSHR.full_retireBegin hr
  rcases FullMSHR.retireBegin_cases hr1 with ⟨hcb, -⟩ | ⟨hcb, -⟩ | ⟨cb', cc, hcb, -, hcc, hm1⟩
  · cases hcb
  · cases hcb
  obtain rfl : cb = cb' := Option.some.inj hcb
  obtain ⟨hok, -⟩ := h (k.calcEntry addr)
  -- one use for each parked callback and one more, so two are left beside the one that runs
  have hcov := hok.covered (by simp [hcc])
  rw [hcc, List.length_cons] at hcov
  push_cast at hcov
  exact ⟨m1, cc, rfl, hok.mapped cb (by simp [hcc]), hcc, by omega, hm1⟩

/-- The callback that `retire` runs maps to the entry that is exempt. -/
theorem Sound.retireBegin_some (h : Sound k (some addr) un m) (hm : m.retireBegin k addr = (some cb, m')) :
    Sound k (some cb.mreq.addr) un m' := by
  cases m with
  | blocking q =>
    obtain ⟨q', rfl, -⟩ := MSHR.blocking_retireBegin hm
    intro _ hex
    cases hex
  | none q =>
    -- `NoMSHR` parks no callbacks here, so there is none to run
    obtain ⟨q', -, hr⟩ := MSHR.none_retireBegin hm
    have hq := popOverflow_some hr
    rw [show q.filterMap (·.cb) = [] from h] at hq
    cases hq
  | full m =>
    obtain ⟨m1, cc, rfl, hmap, hcc, hcov, hm1⟩ := h.full_some hm
    intro p
    rw [hm1, Option.map_some, hmap]
    by_cases hp : p = k.calcEntry addr
    · subst hp
      rw [Function.update_self]
      refine ⟨⟨by simp only; omega, fun _ => by simp only; omega, ?_⟩, fun _ hne => absurd rfl hne⟩
      intro cb' hmem
      exact (h (k.calcEntry addr)).1.mapped cb' (by rw [hcc]; exact List.mem_cons_of_mem _ hmem)
    · rw [Function.update_of_ne hp]
      exact h p

/-- In sound registers `retire` goes through the requests of one queue. -/
theorem Sound.queue_none (h : Sound k (some addr) un m) (hm : m.retireBegin k addr = (none, m')) :
    m.queue k addr = [] := by
  cases m with
  | blocking q =>
    obtain ⟨q', -, hr⟩ := MSHR.blocking_retireBegin hm
    exact (popOverflow_none hr).2
  | none q => exact h
  | full m =>
    obtain ⟨m1, -, hr⟩ := MSHR.full_retireBegin hm
    rcases FullMSHR.retireBegin_cases hr with ⟨-, huse, -⟩ | ⟨-, -, hcc, -⟩ | ⟨cb, cc, hcb, -⟩
    · by_contra hne
      have hcov := (h (k.calcEntry addr)).1.covered hne
      omega
    · exact hcc
    · cases hcb

/-- The requests parked in an entry map to it. -/
def MSHR.Mapped (k : MSHRConfig) : MSHR Retry → Prop
  | .full m => ∀ p, ∀ cb ∈ (m.entry p).cc, k.calcEntry cb.mreq.addr = p
  | _ => True

theorem Sound.mapped (h : Sound k ex un m) : m.Mapped k := by
  cases m with
  | blocking q => trivial
  | none q => trivial
  | full m => exact fun p => (h p).1.mapped

/-- `retire` runs the first callback of the queue, and goes on with the rest. -/
theorem MSHR.Mapped.queue_some (h : m.Mapped k) (hm : m.retireBegin k addr = (some cb, m')) :
    m.queue k addr = cb :: m'.queue k cb.mreq.addr := by
  cases m with
  | blocking q =>
    obtain ⟨q', rfl, hr⟩ := MSHR.blocking_retireBegin hm
    exact popOverflow_some hr
  | none q =>
    obtain ⟨q', rfl, hr⟩ := MSHR.none_retireBegin hm
    exact popOverflow_some hr
  | full m =>
    obtain ⟨m1, rfl, hr⟩ := MSHR.full_retireBegin hm
    rcases FullMSHR.retireBegin_cases hr with ⟨hcb, -⟩ | ⟨hcb, -⟩ | ⟨cb', cc, hcb, -, hcc, hm1⟩
    · cases hcb
    · cases hcb
    obtain rfl : cb = cb' := Option.some.inj hcb
    have hmap : k.calcEntry cb.mreq.addr = k.calcEntry addr := h _ cb (by rw [hcc]; simp)
    simp only [MSHR.queue, hmap, hm1, Function.update_self, hcc]

theorem Sound.retireEnd (h : Sound k none un m) (addr : AddrType) : Sound k none un (m.retireEnd k addr) := by
  cases m with
  | blocking q => exact h
  | none q => exact h
  | full m =>
    intro p
    rw [FullMSHR.retireEnd_entry]
    split
    · by_cases hp : p = k.calcEntry addr
      · subst hp
        rw [Function.update_self]
        exact ⟨EntryOk.free k _, fun hu => absurd rfl hu⟩
      · rw [Function.update_of_ne hp]
        exact h p
    · exact h p

/-! ## Runs -/

section Runs

variable {k : CacheConfig} {c c' : Cache}

/-- A request forwarded is one more to be answered. -/
theorem cons_unanswered (un : Multiset MemRequest) (sent : List MemRequest) (mreq : MemRequest) :
    un + ((sent ++ [mreq] : List MemRequest) : Multiset MemRequest) = mreq ::ₘ (un + (sent : Multiset MemRequest)) := by
  rw [← Multiset.coe_add, Multiset.coe_singleton, ← add_assoc, add_comm, Multiset.singleton_add]

/-- `retire` leaves no entry exempt: it frees the one it is called for, or the last callback
it runs is forwarded. -/
theorem retires_sound {addr : AddrType} (h : c.Retires k addr c') (un : Multiset MemRequest)
    (hs : Sound k.mshr (some addr) (un + busReads c.out) c.mshr) :
    Sound k.mshr none (un + busReads c'.out) c'.mshr := by
  induction h with
  | done hm => exact hs.retireBegin_none hm
  | @stop c addr cb m hm hb =>
    obtain ⟨-, he⟩ := Cache.begin_stop hb
    have hsend := (hs.retireBegin_some hm).send cb.mreq (by simp)
    simp only [Cache.endRetire]
    rw [he.sent, he.mshr, cons_unanswered]
    exact hsend.retireEnd addr
  | @next c c' addr cb m hm hb _ ih =>
    obtain ⟨-, he⟩ := Cache.begin_next hb
    -- the callback that hits retires its own address, which is of the same entry
    have hin := hs.retireBegin_some hm
    have hout := ih (by rw [he.sent, he.mshr, List.append_nil]; exact hin)
    have hfin := c'.finish_effect cb
    simp only [Cache.endRetire]
    rw [hfin.sent, hfin.mshr, List.append_nil]
    exact hout.retireEnd addr

/-- The first try of a request parks it behind another, forwards it, or needs neither. -/
theorem firstTry_sound (cb : Retry) (un : Multiset MemRequest)
    (hs : Sound k.mshr none (un + busReads c.out) c.mshr) :
    Sound k.mshr none (un + busReads (c.firstTry k cb).out) (c.firstTry k cb).mshr := by
  rcases c.firstTry_cases (k := k) cb with ⟨-, he⟩ | ⟨-, he⟩ | ⟨-, hcan, he⟩ | ⟨-, -, he⟩
  · rw [he.sent, he.mshr, List.append_nil]
    exact hs
  · rw [he.sent, he.mshr, cons_unanswered]
    exact hs.send _ (by simp)
  · rw [he.sent, he.mshr, List.append_nil]
    exact hs.park hcan
  · rw [he.sent, he.mshr, cons_unanswered]
    exact hs.send _ (by simp)

/-- What a state between events has: sound registers. -/
def Sys.Sound (k : CacheConfig) (s : Sys) : Prop := Mem.Sound k.mshr none s.unanswered s.cache.mshr

theorem step_sound (s : Sys) (ev : Event) (s' : Sys) (h : s.step k ev = some s') (hs : s.Sound k) :
    s'.Sound k := by
  unfold Sys.Sound at hs ⊢
  rw [step_unanswered h]
  rcases step_cases h with ⟨cb, -, hans, hc⟩ | ⟨mreq, c, rfl, -, hc, hret⟩ | ⟨-, hans, he⟩
  · rw [hans, tsub_zero, hc]
    exact firstTry_sound cb s.unanswered (by simpa using hs)
  · have hfill := Cache.quiet_fill (k := k) s.cache.idle mreq
    have hans := c.answer_effect (k := k) mreq
    rw [hc, hans.sent, hans.mshr, List.append_nil]
    apply retires_sound hret
    rw [hfill.sent, hfill.mshr]
    exact (hs.answer mreq).mono (Multiset.le_add_right _ _)
  · rw [hans, tsub_zero, he.mshr]
    exact hs.mono (Multiset.le_add_right _ _)

theorem run_sound {evs : List Event} {s : Sys} (h : run (Sys.step k) (Sys.new k) evs = some s) : s.Sound k :=
  run_inv step_sound h (sound_create k.mshrType)

/-- A request parked in an entry waits for an answer that maps to the entry, and one parked
in the overflow queue for some answer. -/
def Sys.WakeUp (k : CacheConfig) (s : Sys) : Prop :=
  match s.cache.mshr with
  | .full m => ∀ p, (m.entry p).cc ≠ [] → ∃ mreq ∈ s.unanswered, k.mshr.calcEntry mreq.addr = p
  | .blocking overflow => (∃ f ∈ overflow, f.cb ≠ none) → ∃ mreq, mreq ∈ s.unanswered
  | .none overflow => (∃ f ∈ overflow, f.cb ≠ none) → ∃ mreq, mreq ∈ s.unanswered

/-- **No lost wake-up.** Whatever the class of the registers and the order of events, a
parked request has an answer still to come that will run it. -/
theorem no_lost_wakeup (k : CacheConfig) (evs : List Event) (s : Sys)
    (h : run (Sys.step k) (Sys.new k) evs = some s) : s.WakeUp k := by
  have hs := run_sound h
  unfold Sys.Sound at hs
  unfold Sys.WakeUp
  cases hm : s.cache.mshr with
  | full m =>
    rw [hm] at hs
    intro p hcc
    obtain ⟨hok, haw⟩ := hs p
    have hcov := hok.covered hcc
    exact haw (by omega) (by simp)
  | blocking q =>
    rw [hm] at hs
    rintro ⟨f, hf, -⟩
    exact Multiset.exists_mem_of_ne_zero (hs (List.ne_nil_of_mem hf) rfl)
  | none q =>
    rw [hm] at hs
    rintro ⟨f, hf, hcb⟩
    exact absurd (sound_none hs hf) hcb

end Runs

/-- A first-level cache of sixteen lines, with four entries in its registers. -/
def smallL1 : CacheConfig where
  g := ⟨1024, 64, 1, 1, ⟨10, by decide⟩, ⟨6, rfl⟩, Geometry.byte_pow, Geometry.byte_pow, by decide, by decide⟩
  org := .dm
  mshr := Nested.oneEntry
  mshrType := .full
  inclusive := true
  llc := false
  maxPendingReads := 8
  maxPendingWrites := 8
  self := 0
  upNode := []
  upMap := id

/-- A read homed at `smallL1`. -/
def readReq (addr : AddrType) : MemRequest := { addr := addr, type := .read, homeNode := 0 }

/-- A read that misses, and one of another line that maps to the same entry. -/
def conflict : List Event := [.read (readReq 64), .read (readReq 320)]

/-- The second read of `conflict` is parked, and waits for the answer to the first. -/
theorem no_lost_wakeup_conflict :
    ∃ s, run (Sys.step smallL1) (Sys.new smallL1) conflict = some s ∧
      s.cache.mshr.queue smallL1.mshr 64 = [.doRead (readReq 320)] ∧ s.WakeUp smallL1 := by
  obtain ⟨s, hs⟩ : ∃ s, run (Sys.step smallL1) (Sys.new smallL1) conflict = some s :=
    Option.isSome_iff_exists.1 (by decide)
  have hq : (run (Sys.step smallL1) (Sys.new smallL1) conflict).map (·.cache.mshr.queue smallL1.mshr 64) =
      some [.doRead (readReq 320)] := by decide
  rw [hs, Option.map_some, Option.some.injEq] at hq
  exact ⟨s, hs, hq, no_lost_wakeup smallL1 conflict s hs⟩

end Esesc.Mem
