import Esesc.Mem.WakeUp

/-!
# When `FullMSHR` keeps the requests of one line apart

The registers keep two requests of one line apart as long as an entry is in use exactly
while one request that maps to it is to be answered (`Exclusive`). An answer for another
line of the same entry may break this: the parked requests are run again, and if the
first one that does not hit is also the last one parked, it is forwarded and the entry is
freed all the same.

* `retires_left`: what `retire` leaves of the entry.
* `addrDep_iff`: the requests of one line are kept apart in every state of a run exactly
  when no answer of the run is of that kind.
-/

namespace Esesc.Mem

open Esesc.Suc Esesc.Lib

/-! ## Exclusive entries -/

section Entries

variable {k : MSHRConfig} {un : Multiset MemRequest}

/-- How many of the requests map to entry `p`. -/
def inEntry (k : MSHRConfig) (un : Multiset MemRequest) (p : ℕ) : ℕ :=
  un.countP fun mreq => k.calcEntry mreq.addr = p

/-- Entry `p` is in use while one request that maps to it is to be answered, else free. -/
def Exclusive (k : MSHRConfig) (un : Multiset MemRequest) (p : ℕ) (e : EntryType Retry) : Prop :=
  inEntry k un p = if e.nUse = 0 then 0 else 1

theorem inEntry_cons (mreq : MemRequest) (p : ℕ) :
    inEntry k (mreq ::ₘ un) p = inEntry k un p + if k.calcEntry mreq.addr = p then 1 else 0 := by
  unfold inEntry
  rw [Multiset.countP_cons]

theorem inEntry_pos {mreq : MemRequest} (h : mreq ∈ un) : 0 < inEntry k un (k.calcEntry mreq.addr) :=
  Multiset.countP_pos.2 ⟨mreq, h, rfl⟩

theorem inEntry_answer {mreq : MemRequest} (h : mreq ∈ un) (p : ℕ) :
    inEntry k un p = inEntry k (un - {mreq}) p + if k.calcEntry mreq.addr = p then 1 else 0 := by
  rw [← inEntry_cons, Multiset.sub_singleton, Multiset.cons_erase h]

/-- Requests of one line map to one entry. -/
theorem calcEntry_of_line {a b : AddrType} (h : k.calcLineAddr a = k.calcLineAddr b) :
    k.calcEntry a = k.calcEntry b := by
  unfold MSHRConfig.calcLineAddr at h
  unfold MSHRConfig.calcEntry
  rw [h]

end Entries

variable {k : CacheConfig} {c c' : Cache}

/-- From `un` and `m` to `un'` and `m'` nothing happens outside entry `p`; in it the first
of the requests `rest` was forwarded and the others stay parked. The entry is in use when
any stays parked. -/
structure Left (k : MSHRConfig) (p : ℕ) (un : Multiset MemRequest) (m : FullMSHR Retry)
    (un' : Multiset MemRequest) (m' : FullMSHR Retry) (rest : List Retry) : Prop where
  others : ∀ q, q ≠ p → (m'.entry q).nUse = (m.entry q).nUse ∧ inEntry k un' q = inEntry k un q
  parked : (m'.entry p).cc = rest.tail
  inUse : (m'.entry p).nUse ≠ 0 ↔ 2 ≤ rest.length
  sent : inEntry k un' p = if rest = [] then 0 else 1

theorem Left.retireEnd {k : MSHRConfig} {addr : AddrType} {un un' : Multiset MemRequest} {m m' : FullMSHR Retry}
    {rest : List Retry} (h : Left k (k.calcEntry addr) un m un' m' rest) :
    Left k (k.calcEntry addr) un m un' (m'.retireEnd k addr) rest := by
  by_cases hcc : (m'.entry (k.calcEntry addr)).cc = []
  · have hlen : rest.length ≤ 1 := by
      have htail := congrArg List.length (h.parked.symm.trans hcc)
      rw [List.length_tail, List.length_nil] at htail
      omega
    refine ⟨fun q hq => ?_, ?_, ?_, h.sent⟩
    · rw [FullMSHR.retireEnd_entry, if_pos hcc, Function.update_of_ne hq]
      exact h.others q hq
    · rw [FullMSHR.retireEnd_entry, if_pos hcc, Function.update_self, ← h.parked, hcc]
    · rw [FullMSHR.retireEnd_entry, if_pos hcc, Function.update_self]
      simp only [ne_eq, not_true_eq_false, false_iff]
      omega
  · refine ⟨fun q hq => ?_, ?_, ?_, h.sent⟩
    · rw [FullMSHR.retireEnd_entry, if_neg hcc]
      exact h.others q hq
    · rw [FullMSHR.retireEnd_entry, if_neg hcc]
      exact h.parked
    · rw [FullMSHR.retireEnd_entry, if_neg hcc]
      exact h.inUse

/-- **What `retire` leaves of an entry** whose only request was just answered: the requests
parked in it from the first one that does not hit on. -/
theorem retires_left {addr : AddrType} (h : c.Retires k addr c') (un : Multiset MemRequest)
    {m : FullMSHR Retry} (hm : c.mshr = .full m)
    (hs : Sound k.mshr (some addr) (un + busReads c.out) c.mshr)
    (huse : (m.entry (k.mshr.calcEntry addr)).nUse ≠ 0)
    (hun : inEntry k.mshr (un + busReads c.out) (k.mshr.calcEntry addr) = 0) :
    ∃ m', c'.mshr = .full m' ∧ Left k.mshr (k.mshr.calcEntry addr) (un + busReads c.out) m
      (un + busReads c'.out) m' (walk k c.bank (c.mshr.queue k.mshr addr)).2 := by
  induction h generalizing m with
  | @done c addr m1 hr =>
    rw [hs.queue_none hr]
    rw [hm] at hr
    obtain ⟨m1, rfl, hr1⟩ := MSHR.full_retireBegin hr
    refine ⟨m1, rfl, ?_⟩
    rcases FullMSHR.retireBegin_cases hr1 with ⟨-, h0, -⟩ | ⟨-, -, -, hm1⟩ | ⟨cb, cc, hcb, -⟩
    · exact absurd h0 huse
    · refine ⟨fun q hq => ?_, ?_, ?_, hun⟩
      · rw [hm1, Function.update_of_ne hq]
        exact ⟨rfl, rfl⟩
      · rw [hm1, Function.update_self]
        rfl
      · rw [hm1, Function.update_self]
        simp [walk]
    · cases hcb
  | @stop c addr cb m1 hr hb =>
    obtain ⟨hlook, he⟩ := Cache.begin_stop hb
    rw [hs.mapped.queue_some hr, walk_stop _ hlook]
    rw [hm] at hs hr
    obtain ⟨m1, cc, rfl, hmap, hcc, hcov, hm1⟩ := hs.full_some hr
    refine ⟨(m1.addEntry k.mshr cb.mreq.addr none).retireEnd k.mshr addr, ?_, ?_⟩
    · simp only [Cache.endRetire, he.mshr]
      rfl
    have hadd : (m1.addEntry k.mshr cb.mreq.addr none).entry =
        Function.update m.entry (k.mshr.calcEntry addr) ⟨cc, (m.entry (k.mshr.calcEntry addr)).nUse⟩ := by
      simp [FullMSHR.addEntry, hmap, hm1]
    have hqueue : (MSHR.full m1).queue k.mshr cb.mreq.addr = cc := by
      simp only [MSHR.queue, hmap, hm1, Function.update_self]
    have hun' : un + busReads (Cache.endRetire k (Cache.begin k { c with mshr := .full m1 } cb true).2 addr).out =
        cb.mreq ::ₘ (un + busReads c.out) := by
      rw [← cons_unanswered, ← he.sent]
      rfl
    rw [hun', hqueue]
    refine ⟨fun q hq => ?_, ?_, ?_, ?_⟩
    · rw [FullMSHR.retireEnd_entry, hadd, inEntry_cons, hmap, if_neg (Ne.symm hq)]
      split <;> simp [hq]
    · rw [FullMSHR.retireEnd_entry, hadd, Function.update_self]
      split <;> rename_i hnil
      · simpa using hnil.symm
      · simp
    · -- The use that the request takes is given back when no other is parked.
      rw [FullMSHR.retireEnd_entry, hadd, Function.update_self]
      cases cc with
      | nil => simp
      | cons cb' cc => simpa using huse
    · rw [inEntry_cons, hun, hmap]
      simp
  | @next c c' addr cb m1 hr hb _ ih =>
    obtain ⟨hlook, he⟩ := Cache.begin_next hb
    have hin := hs.retireBegin_some hr
    have hq := hs.mapped.queue_some hr
    rw [hq, walk_hit _ hlook]
    rw [hm] at hs hr
    obtain ⟨m1, cc, rfl, hmap, hcc, hcov, hm1⟩ := hs.full_some hr
    have hout : busReads (Cache.begin k { c with mshr := .full m1 } cb true).2.out = busReads c.out := by
      rw [he.sent, List.append_nil]
    obtain ⟨m', hm', hleft⟩ := ih he.mshr (by rw [hout, he.mshr]; exact hin)
      (by rw [hmap, hm1, Function.update_self]; simp only; omega) (by rw [hout, hmap]; exact hun)
    rw [hout, hmap, he.bank, he.mshr] at hleft
    refine ⟨m'.retireEnd k.mshr addr, ?_, ?_⟩
    · simp only [Cache.endRetire, (c'.finish_effect cb).mshr, hm']
      rfl
    have hfin : busReads (Cache.endRetire k (c'.finish cb) addr).out = busReads c'.out := by
      have := (c'.finish_effect cb).sent
      rwa [List.append_nil] at this
    rw [hfin]
    apply Left.retireEnd
    refine ⟨fun q hq => ?_, hleft.parked, hleft.inUse, hleft.sent⟩
    have hoth := hleft.others q hq
    rw [hm1, Function.update_of_ne hq] at hoth
    exact hoth

/-! ## Runs -/

namespace Sys

/-- The registers are full ones, sound, with every entry exclusive. -/
structure Exclusive (k : CacheConfig) (s : Sys) (m : FullMSHR Retry) : Prop where
  mshr : s.cache.mshr = .full m
  sound : s.Sound k
  excl : ∀ p, Mem.Exclusive k.mshr s.unanswered p (m.entry p)

/-- The requests of one line are kept apart: no request can be issued while one of its
line is to be answered, and of each line at most one is. -/
def Enforced (k : CacheConfig) (s : Sys) : Prop :=
  (∀ mreq ∈ s.unanswered, s.cache.mshr.canIssue k.mshr mreq.addr = false) ∧
    ∀ line, s.unanswered.countP (fun mreq => k.mshr.calcLineAddr mreq.addr = line) ≤ 1

/-- The runs in question: nothing is prefetched, and a request of a line that is present
is not forwarded. -/
def Plain (k : CacheConfig) (s : Sys) (ev : Event) : Prop :=
  ev.sends k = [] ∧ ∀ cb ∈ ev.first, (look k s.cache.bank cb).1 ≠ .upgrade

/-- An answer leaves none or at least two of the requests parked in its entry, counted from
the first one that does not hit in the array with the new line. -/
def FillOk (k : CacheConfig) (s : Sys) : Event → Prop
  | .pushUp mreq => (walk k (s.cache.fill k mreq).bank (s.cache.mshr.queue k.mshr mreq.addr)).2.length ≠ 1
  | _ => True

instance (k : CacheConfig) (s : Sys) (ev : Event) : Decidable (Plain k s ev) :=
  inferInstanceAs (Decidable (_ ∧ ∀ cb ∈ ev.first, _))

instance (k : CacheConfig) (s : Sys) : ∀ ev, Decidable (FillOk k s ev)
  | .pushUp _ => inferInstanceAs (Decidable (_ ≠ _))
  | .read _ | .write _ | .writeAddress _ | .busRead _ | .pushDown _ | .invalidate _ | .prefetch _ _
  | .ffread _ | .ffwrite _ | .ffinvalidate _ _ => .isTrue trivial

variable {s s' : Sys} {m : FullMSHR Retry} {ev : Event}

theorem Exclusive.enforced (h : s.Exclusive k m) : s.Enforced k := by
  constructor
  · intro mreq hmem
    have hpos := inEntry_pos (k := k.mshr) hmem
    have hex := h.excl (k.mshr.calcEntry mreq.addr)
    unfold Mem.Exclusive at hex
    have huse : (m.entry (k.mshr.calcEntry mreq.addr)).nUse ≠ 0 := by
      intro h0
      rw [if_pos h0] at hex
      omega
    rw [h.mshr]
    simp [MSHR.canIssue, FullMSHR.canIssue, huse]
  · intro line
    by_cases hex : ∃ mreq ∈ s.unanswered, k.mshr.calcLineAddr mreq.addr = line
    · obtain ⟨mreq, -, rfl⟩ := hex
      have hone : inEntry k.mshr s.unanswered (k.mshr.calcEntry mreq.addr) ≤ 1 := by
        rw [h.excl (k.mshr.calcEntry mreq.addr)]
        split <;> omega
      refine le_trans ?_ hone
      unfold inEntry
      rw [Multiset.countP_eq_card_filter, Multiset.countP_eq_card_filter]
      exact Multiset.card_le_card (Multiset.monotone_filter_right _ fun mreq' hline => calcEntry_of_line hline)
    · rw [Multiset.countP_eq_zero.2 (fun mreq hmem hline => hex ⟨mreq, hmem, hline⟩)]
      omega

/-- The first try of a request keeps entries exclusive: it is forwarded only into a free one. -/
theorem Exclusive.request {cb : Retry} (h : s.Exclusive k m) (hstep : s.step k ev = some s')
    (hans : ev.answered = 0) (hup : (look k s.cache.bank cb).1 ≠ .upgrade)
    (hc : s'.cache = s.cache.idle.firstTry k cb) : ∃ m', s'.Exclusive k m' := by
  have hsound := step_sound s ev s' hstep h.sound
  have hun := step_unanswered hstep
  rw [hans, tsub_zero] at hun
  have hnonneg : 0 ≤ (m.entry (k.mshr.calcEntry cb.mreq.addr)).nUse := by
    have := h.sound
    rw [Sound, h.mshr] at this
    exact (this (k.mshr.calcEntry cb.mreq.addr)).1.nonneg
  rcases request_cases k s.cache cb with
    ⟨-, he⟩ | ⟨hu, -⟩ | ⟨-, hcan, he⟩ | ⟨-, hcan, he⟩
  · rw [← hc] at he
    refine ⟨m, he.mshr.trans h.mshr, hsound, ?_⟩
    rw [hun, he.sent]
    simpa using h.excl
  · exact absurd hu hup
  · rw [← hc] at he
    have huse : (m.entry (k.mshr.calcEntry cb.mreq.addr)).nUse ≠ 0 := by
      simpa [h.mshr, MSHR.canIssue, FullMSHR.canIssue] using hcan
    refine ⟨m.addEntry k.mshr cb.mreq.addr (some cb), by rw [he.mshr, h.mshr]; rfl, hsound, fun p => ?_⟩
    have hp := h.excl p
    unfold Mem.Exclusive at hp ⊢
    rw [hun, he.sent, List.append_nil, Cache.idle_busReads, Multiset.coe_nil, add_zero, hp]
    by_cases hpe : p = k.mshr.calcEntry cb.mreq.addr
    · subst hpe
      simp only [FullMSHR.addEntry, Function.update_self]
      rw [if_neg huse, if_neg (by omega)]
    · simp only [FullMSHR.addEntry, Function.update_of_ne hpe]
  · rw [← hc] at he
    have huse : (m.entry (k.mshr.calcEntry cb.mreq.addr)).nUse = 0 := by
      simpa [h.mshr, MSHR.canIssue, FullMSHR.canIssue] using hcan
    refine ⟨m.addEntry k.mshr cb.mreq.addr none, by rw [he.mshr, h.mshr]; rfl, hsound, fun p => ?_⟩
    have hp := h.excl p
    unfold Mem.Exclusive at hp ⊢
    rw [hun, he.sent, cons_unanswered, inEntry_cons, Cache.idle_busReads, Multiset.coe_nil, add_zero, hp]
    by_cases hpe : p = k.mshr.calcEntry cb.mreq.addr
    · subst hpe
      simp [FullMSHR.addEntry, huse]
    · simp [FullMSHR.addEntry, Function.update_of_ne hpe, Ne.symm hpe]

/-- An answer keeps entries exclusive, except when it leaves one request. Then that request is
forwarded and could be issued again. -/
theorem Exclusive.answer {mreq : MemRequest} {c : Cache} (h : s.Exclusive k m)
    (hstep : s.step k (.pushUp mreq) = some s') (hmem : mreq ∈ s.unanswered) (hc : s'.cache = c.answer k mreq)
    (hret : (s.cache.idle.fill k mreq).Retires k mreq.addr c) :
    (FillOk k s (.pushUp mreq) → ∃ m', s'.Exclusive k m') ∧ (¬FillOk k s (.pushUp mreq) → ¬s'.Enforced k) := by
  have hsound := step_sound s _ s' hstep h.sound
  have hfill := Cache.quiet_fill (k := k) s.cache.idle mreq
  have hansw := c.answer_effect (k := k) mreq
  have hout : busReads (s.cache.idle.fill k mreq).out = [] := hfill.sent
  have hun : s'.unanswered = s.unanswered - {mreq} + busReads c.out := by
    rw [step_unanswered hstep, hc, hansw.sent, List.append_nil]
    rfl
  -- The entry of the answered request is in use, and no other request maps to it.
  have hone := h.excl (k.mshr.calcEntry mreq.addr)
  have hsub := inEntry_answer (k := k.mshr) hmem
  have huse : (m.entry (k.mshr.calcEntry mreq.addr)).nUse ≠ 0 := by
    intro h0
    have := inEntry_pos (k := k.mshr) hmem
    rw [Mem.Exclusive, if_pos h0] at hone
    omega
  have hnone : inEntry k.mshr (s.unanswered - {mreq}) (k.mshr.calcEntry mreq.addr) = 0 := by
    have := hsub (k.mshr.calcEntry mreq.addr)
    rw [hone, if_neg huse, if_pos rfl] at this
    omega
  obtain ⟨m', hm', hleft⟩ := retires_left hret (s.unanswered - {mreq}) (hfill.mshr.trans h.mshr)
    (by rw [hout, hfill.mshr, Multiset.coe_nil, add_zero]; exact h.sound.answer _) huse
    (by rw [hout, Multiset.coe_nil, add_zero]; exact hnone)
  rw [hout, Multiset.coe_nil, add_zero, ← hun, hfill.mshr, Cache.fill_bank, Cache.idle_mshr] at hleft
  have hmshr : s'.cache.mshr = .full m' := by rw [hc, hansw.mshr, hm']
  simp only [FillOk]
  generalize (walk k (s.cache.fill k mreq).bank (s.cache.mshr.queue k.mshr mreq.addr)).2 = rest at hleft ⊢
  constructor
  · intro hlen
    refine ⟨m', hmshr, hsound, fun p => ?_⟩
    unfold Mem.Exclusive
    by_cases hp : p = k.mshr.calcEntry mreq.addr
    · subst hp
      rw [hleft.sent]
      cases rest with
      | nil =>
        have : (m'.entry (k.mshr.calcEntry mreq.addr)).nUse = 0 := by
          by_contra hne
          have := hleft.inUse.1 hne
          simp at this
        simp [this]
      | cons cb rest =>
        have : (m'.entry (k.mshr.calcEntry mreq.addr)).nUse ≠ 0 :=
          hleft.inUse.2 (by simp only [List.length_cons] at hlen ⊢; omega)
        simp [this]
    · obtain ⟨huse', hin⟩ := hleft.others p hp
      have hpe := hsub p
      rw [if_neg (Ne.symm hp), add_zero] at hpe
      rw [hin, huse', ← hpe]
      exact h.excl p
  · intro hlen henf
    have hlen1 : rest.length = 1 := not_not.1 hlen
    have hsent : 0 < inEntry k.mshr s'.unanswered (k.mshr.calcEntry mreq.addr) := by
      rw [hleft.sent, if_neg (by rintro rfl; simp at hlen1)]
      exact one_pos
    obtain ⟨mreq', hmem', hmap⟩ := Multiset.countP_pos.1 hsent
    have hfree : (m'.entry (k.mshr.calcEntry mreq.addr)).nUse = 0 := by
      by_contra hne
      have := hleft.inUse.1 hne
      omega
    have hcan := henf.1 mreq' hmem'
    rw [hmshr] at hcan
    simp [MSHR.canIssue, FullMSHR.canIssue, hmap, hfree] at hcan

theorem step_exclusive (hstep : s.step k ev = some s') (hplain : Plain k s ev) (h : ∃ m, s.Exclusive k m) :
    (FillOk k s ev → ∃ m', s'.Exclusive k m') ∧ (¬FillOk k s ev → ¬s'.Enforced k) := by
  obtain ⟨m, h⟩ := h
  rcases step_cases hstep with ⟨cb, hfirst, hans, hc⟩ | ⟨mreq, c, rfl, hmem, hc, hret⟩ | ⟨hfirst, hans, he⟩
  · refine ⟨fun _ => h.request hstep hans (hplain.2 cb hfirst) hc, fun hbad => absurd ?_ hbad⟩
    cases ev <;> trivial
  · exact h.answer hstep hmem hc hret
  · refine ⟨fun _ => ⟨m, he.mshr.trans h.mshr, step_sound s ev s' hstep h.sound, ?_⟩, fun hbad => absurd ?_ hbad⟩
    · rw [step_unanswered hstep, hans, tsub_zero, he.sent, hplain.1]
      simpa using h.excl
    · cases ev <;> first | trivial | simp [Event.answered] at hans

end Sys

variable {evs : List Event} {s : Sys}

/-- **Address dependences.** In the runs in question, the requests of one line are kept apart
in every state exactly when no answer leaves a single request of its entry. -/
theorem addrDep_iff (hfull : k.mshrType = .full) (h : run (Sys.step k) (Sys.new k) evs = some s)
    (hplain : Along (Sys.step k) (Sys.Plain k) (Sys.new k) evs) :
    (∀ evs' s', evs' <+: evs → run (Sys.step k) (Sys.new k) evs' = some s' → s'.Enforced k) ↔
      Along (Sys.step k) (Sys.FillOk k) (Sys.new k) evs := by
  apply forall_prefix_iff_along (D := Sys.Plain k) (I := fun s => ∃ m, s.Exclusive k m) _ _ _ h hplain
  · refine ⟨.new k.mshr, by simp [Sys.new, Cache.new, hfull, MSHR.create], sound_create _, fun p => ?_⟩
    simp [Sys.new, Exclusive, inEntry, FullMSHR.new]
  · rintro s ⟨m, hm⟩
    exact hm.enforced
  · intro s ev s' hstep hpl hok hm
    exact (Sys.step_exclusive hstep hpl hm).1 hok
  · intro s ev s' hstep hpl hbad hm
    exact (Sys.step_exclusive hstep hpl hm).2 hbad

/-- Two reads of other lines parked behind the answered one: the first is forwarded, and the
second keeps the entry in use. -/
def twoParked : List Event :=
  [.read (readReq 64), .read (readReq 320), .read (readReq 576), .pushUp (readReq 64)]

theorem addrDep_iff_twoParked :
    (∃ s, run (Sys.step smallL1) (Sys.new smallL1) twoParked = some s) ∧
      ∀ evs' s', evs' <+: twoParked → run (Sys.step smallL1) (Sys.new smallL1) evs' = some s' →
        s'.Enforced smallL1 := by
  obtain ⟨s, hs⟩ : ∃ s, run (Sys.step smallL1) (Sys.new smallL1) twoParked = some s :=
    Option.isSome_iff_exists.1 (by decide)
  exact ⟨⟨s, hs⟩, (addrDep_iff rfl hs (by decide)).2 (by decide)⟩

/-- One read of another line parked behind the answered one, and a second read of that line
after the answer. -/
def oneParked : List Event :=
  [.read (readReq 64), .read (readReq 320), .pushUp (readReq 64), .read (readReq 320)]

/-- After `oneParked` line 5 has been asked for twice and answered not once. -/
theorem addrDep_broken :
    Along (Sys.step smallL1) (Sys.Plain smallL1) (Sys.new smallL1) oneParked ∧
      ∃ s, run (Sys.step smallL1) (Sys.new smallL1) oneParked = some s ∧
        s.unanswered.countP (fun mreq => smallL1.mshr.calcLineAddr mreq.addr = 5) = 2 := by
  obtain ⟨s, hs⟩ : ∃ s, run (Sys.step smallL1) (Sys.new smallL1) oneParked = some s :=
    Option.isSome_iff_exists.1 (by decide)
  have htwo : (run (Sys.step smallL1) (Sys.new smallL1) oneParked).map
      (fun s => s.unanswered.countP fun mreq => smallL1.mshr.calcLineAddr mreq.addr = 5) = some 2 := by decide
  rw [hs, Option.map_some, Option.some.injEq] at htwo
  exact ⟨by decide, s, hs, htwo⟩

end Esesc.Mem
