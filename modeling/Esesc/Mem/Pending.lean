import Esesc.Mem.WakeUp

/-!
# The pending reads and writes of a cache

A request homed at the cache waits while it is parked or forwarded and not answered.
`pendingReads` and `pendingWrites` follow the requests that wait, with two exceptions:
`prefetch` forwards a read that is not counted, and a write that needs an upgrade is not
counted, or no longer, when it is forwarded. Both are subtracted once they are answered.

* `retires_followed`: what `retire` does to the requests that wait and to the counters.
* `pending_iff`: the counters are right in every state of a run exactly when it has
  neither exception.
-/

namespace Esesc.Mem

open Esesc.Suc Esesc.Lib

variable {k : CacheConfig} {c c' : Cache} {cb : Retry}

/-! ## Requests that wait -/

/-- A request is of the kind, and at the home, that its handler is for. -/
def Retry.Ok (k : CacheConfig) : Retry → Prop
  | .doRead mreq => mreq.isRead = true ∧ k.isHomeNode mreq = true
  | .doWrite mreq => mreq.isWrite = true ∧ k.isHomeNode mreq = true
  | .doBusRead mreq => k.isHomeNode mreq = false

/-- A request homed at the cache is a read or a write. -/
def Kind (k : CacheConfig) (mreq : MemRequest) : Prop :=
  k.isHomeNode mreq = true → mreq.isRead = true ∨ mreq.isWrite = true

theorem Retry.Ok.kind (h : cb.Ok k) : Kind k cb.mreq := by
  cases cb with
  | doRead mreq => exact fun _ => .inl h.1
  | doWrite mreq => exact fun _ => .inr h.1
  | doBusRead mreq => exact fun hh => absurd (hh.symm.trans h) (by simp)

/-- The requests homed at the cache among those parked and those to be answered. -/
def waiting (k : CacheConfig) (parked : Multiset Retry) (un : Multiset MemRequest) : Multiset MemRequest :=
  parked.bind (fun cb => (cb.home : Multiset MemRequest)) + un.filter fun mreq => k.isHomeNode mreq

def nReads (w : Multiset MemRequest) : ℤ := w.countP fun mreq => mreq.isRead
def nWrites (w : Multiset MemRequest) : ℤ := w.countP fun mreq => mreq.isWrite

@[simp] theorem nReads_add (v w : Multiset MemRequest) : nReads (v + w) = nReads v + nReads w := by
  unfold nReads
  rw [Multiset.countP_add]
  push_cast
  rfl

@[simp] theorem nWrites_add (v w : Multiset MemRequest) : nWrites (v + w) = nWrites v + nWrites w := by
  unfold nWrites
  rw [Multiset.countP_add]
  push_cast
  rfl

theorem nReads_singleton (mreq : MemRequest) : nReads {mreq} = if mreq.isRead then 1 else 0 := by
  unfold nReads
  rw [← Multiset.cons_zero, Multiset.countP_cons]
  split <;> rfl

theorem nWrites_singleton (mreq : MemRequest) : nWrites {mreq} = if mreq.isWrite then 1 else 0 := by
  unfold nWrites
  rw [← Multiset.cons_zero, Multiset.countP_cons]
  split <;> rfl

theorem isRead_of_isWrite {mreq : MemRequest} (h : mreq.isWrite = true) : mreq.isRead = false := by
  unfold MemRequest.isWrite at h
  unfold MemRequest.isRead
  rw [beq_iff_eq.1 h]
  rfl

theorem isWrite_of_isRead {mreq : MemRequest} (h : mreq.isRead = true) : mreq.isWrite = false := by
  unfold MemRequest.isRead at h
  unfold MemRequest.isWrite
  rw [beq_iff_eq.1 h]
  rfl

/-- A request is counted by its handler as it is by its type. -/
theorem Retry.Ok.nReads_home (h : cb.Ok k) : nReads cb.home = cb.reads := by
  cases cb with
  | doRead mreq => simp [Retry.home, Retry.reads, nReads_singleton, h.1]
  | doWrite mreq => simp [Retry.home, Retry.reads, nReads_singleton, isRead_of_isWrite h.1]
  | doBusRead mreq => rfl

theorem Retry.Ok.nWrites_home (h : cb.Ok k) : nWrites cb.home = cb.writes := by
  cases cb with
  | doRead mreq => simp [Retry.home, Retry.writes, nWrites_singleton, isWrite_of_isRead h.1]
  | doWrite mreq => simp [Retry.home, Retry.writes, nWrites_singleton, h.1]
  | doBusRead mreq => rfl

/-- The request of a handler is homed at the cache when the handler acknowledges it. -/
theorem Retry.Ok.filter_mreq (h : cb.Ok k) :
    Multiset.filter (fun mreq => k.isHomeNode mreq) {cb.mreq} = (cb.home : Multiset MemRequest) := by
  cases cb with
  | doRead mreq => simp [Retry.mreq, Retry.home, Multiset.filter_singleton, h.2]
  | doWrite mreq => simp [Retry.mreq, Retry.home, Multiset.filter_singleton, h.2]
  | doBusRead mreq =>
    have hh : k.isHomeNode mreq = false := h
    simp [Retry.mreq, Retry.home, Multiset.filter_singleton, hh]

/-- Only a write asks for an upgrade among the requests homed at the cache. -/
theorem look_reads (b : CacheCore CState) (h : (look k b cb).1 = .upgrade) : cb.reads = 0 := by
  cases cb with
  | doRead mreq =>
    unfold look at h
    simp only at h
    split at h <;> simp_all
  | doWrite mreq => rfl
  | doBusRead mreq => rfl

theorem waiting_cons (cb : Retry) (parked : Multiset Retry) (un : Multiset MemRequest) :
    waiting k (cb ::ₘ parked) un = waiting k parked un + cb.home := by
  unfold waiting
  rw [Multiset.cons_bind]
  abel

theorem waiting_send (h : cb.Ok k) (parked : Multiset Retry) (un : Multiset MemRequest) :
    waiting k parked (cb.mreq ::ₘ un) = waiting k parked un + cb.home := by
  unfold waiting
  rw [← Multiset.singleton_add, Multiset.filter_add, h.filter_mreq]
  abel

/-- The answered request, if it is homed at the cache. -/
def homed (k : CacheConfig) (mreq : MemRequest) : List MemRequest := if k.isHomeNode mreq then [mreq] else []

theorem waiting_answer {mreq : MemRequest} (parked : Multiset Retry) {un : Multiset MemRequest} (h : mreq ∈ un) :
    waiting k parked un = waiting k parked (un - {mreq}) + homed k mreq := by
  have hfilter : Multiset.filter (fun mreq => k.isHomeNode mreq) {mreq} = (homed k mreq : Multiset MemRequest) := by
    rw [Multiset.filter_singleton]
    unfold homed
    split <;> rfl
  unfold waiting
  rw [← hfilter, add_assoc, ← Multiset.filter_add, Multiset.sub_singleton, add_comm (un.erase mreq),
    Multiset.singleton_add, Multiset.cons_erase h]

theorem nReads_homed (mreq : MemRequest) :
    nReads (homed k mreq) = if k.isHomeNode mreq && mreq.isRead then 1 else 0 := by
  unfold homed
  by_cases hh : k.isHomeNode mreq
  · simp [hh, nReads_singleton]
  · simp [hh, nReads]

/-- An answered request homed at the cache that is not a read is a write. -/
theorem nWrites_homed {mreq : MemRequest} (h : Kind k mreq) :
    nWrites (homed k mreq) = if k.isHomeNode mreq && !mreq.isRead then 1 else 0 := by
  unfold homed
  by_cases hh : k.isHomeNode mreq
  · rcases h hh with hr | hw
    · simp [hh, hr, nWrites_singleton, isWrite_of_isRead hr]
    · simp [hh, hw, nWrites_singleton, isRead_of_isWrite hw]
  · simp [hh, nWrites]

/-! ## `retire` -/

/-- The write that `retire` forwards without counting it: the first of the parked requests
`cbs` that does not hit asks for an upgrade. -/
def leak (k : CacheConfig) (b : CacheCore CState) (cbs : List Retry) : ℤ :=
  match walk k b cbs with
  | (.upgrade, cb :: _) => cb.writes
  | _ => 0

/-- From `c` to `c'`, with the requests `un` to be answered besides those the cache lists:
what no longer waits is acknowledged, the counters follow what waits, and `lost` writes
are missed. -/
structure Followed (k : CacheConfig) (un : Multiset MemRequest) (c c' : Cache) (lost : ℤ) : Prop where
  ok : ∀ cb ∈ c'.mshr.parked k.mshr, cb.Ok k
  kinds : ∀ mreq ∈ busReads c'.out, mreq ∈ busReads c.out ∨ Kind k mreq
  conserved : waiting k (c'.mshr.parked k.mshr) (un + busReads c'.out) + acks c'.out =
    waiting k (c.mshr.parked k.mshr) (un + busReads c.out) + acks c.out
  reads : c'.pendingReads - nReads (waiting k (c'.mshr.parked k.mshr) (un + busReads c'.out)) =
    c.pendingReads - nReads (waiting k (c.mshr.parked k.mshr) (un + busReads c.out))
  writes : c'.pendingWrites - nWrites (waiting k (c'.mshr.parked k.mshr) (un + busReads c'.out)) =
    c.pendingWrites - nWrites (waiting k (c.mshr.parked k.mshr) (un + busReads c.out)) - lost

theorem retires_followed {addr : AddrType} (h : c.Retires k addr c') (un : Multiset MemRequest)
    (hs : Sound k.mshr (some addr) (un + busReads c.out) c.mshr)
    (hok : ∀ cb ∈ c.mshr.parked k.mshr, cb.Ok k) :
    Followed k un c c' (leak k c.bank (c.mshr.queue k.mshr addr)) := by
  induction h with
  | @done c addr m hm =>
    have hpark := MSHR.parked_retireBegin_none hm
    rw [hs.queue_none hm]
    refine ⟨?_, fun _ => .inl, ?_, ?_, ?_⟩ <;> simp only [hpark]
    · exact hok
    · simp [leak, walk]
  | @stop c addr cb m hm hb =>
    obtain ⟨hlook, he⟩ := Cache.begin_stop hb
    have hpark := MSHR.parked_retireBegin_some hm
    have hcb : cb.Ok k := hok cb (by rw [hpark]; exact Multiset.mem_cons_self _ _)
    have hpark' : (Cache.endRetire k (Cache.begin k { c with mshr := m } cb true).2 addr).mshr.parked k.mshr =
        m.parked k.mshr := by
      simp only [Cache.endRetire, MSHR.parked_retireEnd, he.mshr, MSHR.parked_addEntry, Option.toList_none,
        Multiset.coe_nil, add_zero]
    -- The request moves from the parked ones to those to be answered.
    have hwait : waiting k (m.parked k.mshr)
        (un + busReads (Cache.endRetire k (Cache.begin k { c with mshr := m } cb true).2 addr).out) =
        waiting k (c.mshr.parked k.mshr) (un + busReads c.out) := by
      simp only [Cache.endRetire]
      rw [he.sent, cons_unanswered, waiting_send hcb, hpark, waiting_cons]
    refine ⟨?_, ?_, ?_, ?_, ?_⟩ <;> try simp only [hpark', hwait]
    · intro cb' hmem
      exact hok cb' (by rw [hpark]; exact Multiset.mem_cons_of_mem hmem)
    · simp only [Cache.endRetire, he.sent, List.mem_append, List.mem_singleton]
      rintro mreq (hmem | rfl)
      · exact .inl hmem
      · exact .inr hcb.kind
    · simp only [Cache.endRetire, he.acked, List.append_nil]
    · have hreads : (if (look k c.bank cb).1 = .upgrade then -cb.reads else 0) = 0 := by
        split
        · rename_i hup
          rw [look_reads _ hup, neg_zero]
        · rfl
      simp only [Cache.endRetire, he.reads, hreads, add_zero]
    · rw [hs.mapped.queue_some hm, leak, walk_stop _ hlook]
      simp only [Cache.endRetire, he.writes]
      rcases hlk : (look k c.bank cb).1 <;> simp
      ring
  | @next c c' addr cb m hm hb _ ih =>
    obtain ⟨hlook, he⟩ := Cache.begin_next hb
    have hpark := MSHR.parked_retireBegin_some hm
    have hcb : cb.Ok k := hok cb (by rw [hpark]; exact Multiset.mem_cons_self _ _)
    have hout : busReads (Cache.begin k { c with mshr := m } cb true).2.out = busReads c.out := by
      rw [he.sent, List.append_nil]
    have hin := ih (by rw [hout, he.mshr]; exact hs.retireBegin_some hm) (by
      rw [he.mshr]
      intro cb' hmem
      exact hok cb' (by rw [hpark]; exact Multiset.mem_cons_of_mem hmem))
    have hfin := c'.finish_effect cb
    have hwait : waiting k (c.mshr.parked k.mshr) (un + busReads c.out) =
        waiting k (m.parked k.mshr) (un + busReads c.out) + cb.home := by rw [hpark, waiting_cons]
    have hpark' : (Cache.endRetire k (c'.finish cb) addr).mshr.parked k.mshr = c'.mshr.parked k.mshr := by
      simp only [Cache.endRetire, MSHR.parked_retireEnd, hfin.mshr]
    have hout' : busReads (Cache.endRetire k (c'.finish cb) addr).out = busReads c'.out := by
      simp only [Cache.endRetire, hfin.sent, List.append_nil]
    obtain ⟨hok', hkinds, hcons, hr, hw⟩ := hin
    rw [hout] at hkinds
    rw [hout, he.mshr] at hcons hr hw
    rw [he.acked, List.append_nil] at hcons
    refine ⟨?_, ?_, ?_, ?_, ?_⟩ <;> simp only [hpark', hout', hwait]
    · exact hok'
    · exact hkinds
    · simp only [Cache.endRetire, hfin.acked, ← Multiset.coe_add]
      rw [← add_assoc, hcons]
      abel
    · simp only [Cache.endRetire, hfin.reads, add_zero, nReads_add, hcb.nReads_home]
      rw [hr, he.reads]
      ring
    · rw [hs.mapped.queue_some hm, leak, walk_hit _ hlook, ← leak]
      simp only [Cache.endRetire, hfin.writes, add_zero, nWrites_add, hcb.nWrites_home]
      rw [hw, he.writes, he.bank]
      ring

/-! ## Runs -/

namespace Sys

/-- The requests homed at the cache that wait. -/
def waiting (k : CacheConfig) (s : Sys) : Multiset MemRequest :=
  Mem.waiting k (s.cache.mshr.parked k.mshr) s.unanswered

/-- Requests are at the right handlers, and those that came wait or were acknowledged. -/
structure Conserved (k : CacheConfig) (s : Sys) : Prop where
  sound : s.Sound k
  ok : ∀ cb ∈ s.cache.mshr.parked k.mshr, cb.Ok k
  kinds : ∀ mreq ∈ s.unanswered, Kind k mreq
  conserved : s.accepted = s.acked + s.waiting k

/-- The counters are the numbers of reads and writes homed at the cache that came and were
not acknowledged, by a hit or by an answer. So they are not negative, and they are zero
when no request is parked or to be answered. -/
structure Counted (k : CacheConfig) (s : Sys) : Prop where
  reads : s.cache.pendingReads = nReads (s.accepted - s.acked)
  writes : s.cache.pendingWrites = nWrites (s.accepted - s.acked)
  nonneg : 0 ≤ s.cache.pendingReads ∧ 0 ≤ s.cache.pendingWrites
  idle : s.cache.mshr.parked k.mshr = 0 → s.unanswered = 0 →
    s.cache.pendingReads = 0 ∧ s.cache.pendingWrites = 0

/-- The reads and the writes that an event forwards without counting them. -/
def missed (k : CacheConfig) (s : Sys) : Event → ℤ × ℤ
  | .prefetch _ _ => (1, 0)
  | .pushUp mreq => (0, leak k (s.cache.fill k mreq).bank (s.cache.mshr.queue k.mshr mreq.addr))
  | ev =>
    match ev.first with
    | some cb => (0, if (look k s.cache.bank cb).1 = .upgrade then cb.writes else 0)
    | none => (0, 0)

/-- The counters of `s'` follow those of `s`, except for what is missed. -/
structure Follows (k : CacheConfig) (s s' : Sys) (missed : ℤ × ℤ) : Prop where
  reads : s'.cache.pendingReads - nReads (s'.waiting k) = s.cache.pendingReads - nReads (s.waiting k) - missed.1
  writes : s'.cache.pendingWrites - nWrites (s'.waiting k) = s.cache.pendingWrites - nWrites (s.waiting k) - missed.2

variable {s s' : Sys} {ev : Event}

theorem first_ok (hen : s.enabled k ev = true) (h : ev.first = some cb) :
    cb.Ok k ∧ ev.accepted k = (cb.home : Multiset MemRequest) := by
  cases ev with
  | read mreq =>
    simp only [Event.first] at h
    split at h
    · cases h
    · cases h
      simp only [enabled, Bool.and_eq_true] at hen
      exact ⟨hen, rfl⟩
  | write mreq =>
    simp only [Event.first] at h
    split at h
    · cases h
    · cases h
      simp only [enabled, Bool.and_eq_true] at hen
      exact ⟨hen, rfl⟩
  | busRead mreq =>
    cases h
    simp only [enabled, Bool.and_eq_true, Bool.not_eq_true'] at hen
    exact ⟨hen.2, rfl⟩
  | _ => simp [Event.first] at h

theorem step_fields (h : s.step k ev = some s') :
    s'.accepted = s.accepted + ev.accepted k ∧ s'.acked = s.acked + acks s'.cache.out := by
  obtain ⟨-, c, -, rfl⟩ := step_eq h
  exact ⟨rfl, rfl⟩

theorem missed_first (h : ev.first = some cb) :
    s.missed k ev = (0, if (look k s.cache.bank cb).1 = .upgrade then cb.writes else 0) := by
  cases ev with
  | read mreq => simp only [missed, h]
  | write mreq => simp only [missed, h]
  | busRead mreq => simp only [missed, h]
  | _ => simp [Event.first] at h

/-- What a request that is tried for the first time has to leave: it is parked, to be answered,
or acknowledged. -/
theorem Conserved.request (hs : s.Conserved k) (hstep : s.step k ev = some s') (hfirst : ev.first = some cb)
    (hpark : ∀ cb' ∈ s'.cache.mshr.parked k.mshr, cb' ∈ s.cache.mshr.parked k.mshr ∨ cb' = cb)
    (hun : ∀ mreq ∈ s'.unanswered, mreq ∈ s.unanswered ∨ mreq = cb.mreq)
    (hwait : s'.waiting k + acks s'.cache.out = s.waiting k + cb.home) : s'.Conserved k := by
  obtain ⟨hok, hacc⟩ := first_ok (step_eq hstep).1 hfirst
  obtain ⟨haccepted, hacked⟩ := step_fields hstep
  refine ⟨step_sound s ev s' hstep hs.sound, ?_, ?_, ?_⟩
  · intro cb' hmem
    rcases hpark cb' hmem with hmem | rfl
    · exact hs.ok cb' hmem
    · exact hok
  · intro mreq hmem
    rcases hun mreq hmem with hmem | rfl
    · exact hs.kinds mreq hmem
    · exact hok.kind
  · rw [haccepted, hacked, hs.conserved, hacc, add_assoc, ← hwait]
    abel

/-- A request that is forwarded on its first try. -/
theorem Conserved.sent (hs : s.Conserved k) (hstep : s.step k ev = some s') (hfirst : ev.first = some cb)
    (hans : ev.answered = 0) {b : CacheCore CState} {r w : ℤ}
    (he : s.cache.idle.Effect s'.cache b (s.cache.mshr.addEntry k.mshr cb.mreq.addr none)
      [cb.mreq] [] r w) : s'.Conserved k ∧ s'.waiting k = s.waiting k + cb.home := by
  obtain ⟨hok, -⟩ := first_ok (step_eq hstep).1 hfirst
  have hun : s'.unanswered = cb.mreq ::ₘ s.unanswered := by
    rw [step_unanswered hstep, hans, tsub_zero, he.sent, cons_unanswered]
    simp
  have hpark : s'.cache.mshr.parked k.mshr = s.cache.mshr.parked k.mshr := by
    rw [he.mshr, MSHR.parked_addEntry]
    simp
  have hwait : s'.waiting k = s.waiting k + cb.home := by
    unfold waiting
    rw [hun, hpark, waiting_send hok]
  refine ⟨hs.request hstep hfirst (fun cb' h => .inl (hpark ▸ h)) (fun mreq h => ?_) ?_, hwait⟩
  · exact (Multiset.mem_cons.1 (hun ▸ h)).symm
  · rw [hwait, he.acked]
    simp

/-- The first try of a request misses the write that it forwards to ask for an upgrade. -/
theorem step_request (hs : s.Conserved k) (hstep : s.step k ev = some s') (hfirst : ev.first = some cb)
    (hans : ev.answered = 0) (hc : s'.cache = s.cache.idle.firstTry k cb) :
    s'.Conserved k ∧ s.Follows k s' (s.missed k ev) := by
  obtain ⟨hok, -⟩ := first_ok (step_eq hstep).1 hfirst
  have hun := step_unanswered hstep
  rw [hans, tsub_zero] at hun
  rw [missed_first hfirst]
  rcases request_cases k s.cache cb with
    ⟨hlook, he⟩ | ⟨hlook, he⟩ | ⟨hlook, -, he⟩ | ⟨hlook, -, he⟩ <;> rw [← hc] at he
  · -- a hit: it is acknowledged at once
    have hun' : s'.unanswered = s.unanswered := by
      rw [hun, he.sent]
      simp
    have hwait : s'.waiting k = s.waiting k := by
      unfold waiting
      rw [hun', he.mshr]
    refine ⟨hs.request hstep hfirst (fun cb' h => .inl (he.mshr ▸ h)) (fun mreq h => .inl (hun' ▸ h)) ?_, ?_, ?_⟩
    · rw [hwait, he.acked]
      rfl
    · simp [hwait, he.reads]
    · simp [hwait, he.writes, hlook]
  · obtain ⟨hs', hwait⟩ := hs.sent hstep hfirst hans he
    refine ⟨hs', ?_, ?_⟩
    · simp [hwait, he.reads, hok.nReads_home, look_reads _ hlook]
    · simp [hwait, he.writes, hlook, hok.nWrites_home]
      ring
  · -- another request has the line: it is parked
    have hun' : s'.unanswered = s.unanswered := by
      rw [hun, he.sent]
      simp
    have hpark : s'.cache.mshr.parked k.mshr = cb ::ₘ s.cache.mshr.parked k.mshr := by
      rw [he.mshr, MSHR.parked_addEntry, Option.toList_some, Multiset.coe_singleton, add_comm, Multiset.singleton_add]
    have hwait : s'.waiting k = s.waiting k + cb.home := by
      unfold waiting
      rw [hun', hpark, waiting_cons]
    refine ⟨hs.request hstep hfirst (fun cb' h => ?_) (fun mreq h => .inl (hun' ▸ h)) ?_, ?_, ?_⟩
    · exact (Multiset.mem_cons.1 (hpark ▸ h)).symm
    · rw [hwait, he.acked]
      simp
    · simp [hwait, he.reads, hok.nReads_home]
    · simp [hwait, he.writes, hlook, hok.nWrites_home]
  · obtain ⟨hs', hwait⟩ := hs.sent hstep hfirst hans he
    refine ⟨hs', ?_, ?_⟩
    · simp [hwait, he.reads, hok.nReads_home]
    · simp [hwait, he.writes, hlook, hok.nWrites_home]

/-- An answer misses the write that `retire` forwards to ask for an upgrade. -/
theorem step_answer {mreq : MemRequest} {c : Cache} (hs : s.Conserved k) (hstep : s.step k (.pushUp mreq) = some s')
    (hmem : mreq ∈ s.unanswered) (hc : s'.cache = c.answer k mreq)
    (hret : (s.cache.idle.fill k mreq).Retires k mreq.addr c) :
    s'.Conserved k ∧ s.Follows k s' (s.missed k (.pushUp mreq)) := by
  have hfill := Cache.quiet_fill (k := k) s.cache.idle mreq
  have hansw := c.answer_effect (k := k) mreq
  have hout : busReads (s.cache.idle.fill k mreq).out = [] := hfill.sent
  have hacks : acks (s.cache.idle.fill k mreq).out = [] := hfill.acked
  obtain ⟨haccepted, hacked⟩ := step_fields hstep
  have hun : s'.unanswered = s.unanswered - {mreq} + busReads c.out := by
    rw [step_unanswered hstep, hc, hansw.sent, List.append_nil]
    rfl
  obtain ⟨hok, hkinds, hcons, hreads, hwrites⟩ := retires_followed hret (s.unanswered - {mreq})
    (by rw [hout, hfill.mshr, Multiset.coe_nil, add_zero]; exact hs.sound.answer _)
    (by rw [hfill.mshr]; exact hs.ok)
  rw [hout] at hkinds
  simp only [hout, hacks, hfill.mshr, hfill.reads, hfill.writes, Cache.fill_bank, Multiset.coe_nil, add_zero,
    ← hun, Cache.idle_mshr, Cache.idle_pendingReads, Cache.idle_pendingWrites] at hcons hreads hwrites
  have hwait' : s'.waiting k = Mem.waiting k (c.mshr.parked k.mshr) s'.unanswered := by
    unfold waiting
    rw [hc, hansw.mshr]
  -- The answered request no longer waits, and is acknowledged if it is homed here.
  have hwait : s.waiting k = _ := waiting_answer (s.cache.mshr.parked k.mshr) hmem
  refine ⟨⟨step_sound s _ s' hstep hs.sound, ?_, ?_, ?_⟩, ?_, ?_⟩
  · rw [hc, hansw.mshr]
    exact hok
  · intro mreq' hmem'
    rw [hun] at hmem'
    rcases Multiset.mem_add.1 hmem' with hmem' | hmem'
    · exact hs.kinds mreq' (Multiset.mem_of_le (Multiset.sub_le_self _ _) hmem')
    · exact (hkinds mreq' hmem').resolve_left (by simp)
  · rw [haccepted, hacked, hs.conserved, hwait, hwait', hc, hansw.acked, ← Multiset.coe_add, ← hcons]
    simp only [Event.accepted, homed]
    abel
  · rw [hwait', hc, hansw.reads, hwait, nReads_add, nReads_homed]
    simp only [missed]
    split <;> omega
  · rw [hwait', hc, hansw.writes, hwait, nWrites_add, nWrites_homed (hs.kinds mreq hmem)]
    simp only [missed]
    split <;> omega

theorem missed_quiet (hfirst : ev.first = none) (hans : ev.answered = 0) :
    s.missed k ev = (nReads (ev.sends k), nWrites (ev.sends k)) := by
  cases ev with
  | pushUp mreq => simp [Event.answered] at hans
  | busRead mreq => simp [Event.first] at hfirst
  | prefetch addr coreID =>
    simp [missed, Event.sends, nReads_singleton, nWrites_singleton, Cache.prefetchReq, MemRequest.isRead,
      MemRequest.isWrite]
  | _ =>
    simp only [missed, hfirst]
    rfl

/-- An event that is neither a request nor an answer misses the read that it prefetches. -/
theorem step_quiet (hs : s.Conserved k) (hstep : s.step k ev = some s') (hfirst : ev.first = none)
    (hans : ev.answered = 0)
    (he : s.cache.idle.Effect s'.cache s'.cache.bank s.cache.mshr (ev.sends k) ev.acksNow 0 0) :
    s'.Conserved k ∧ s.Follows k s' (s.missed k ev) := by
  obtain ⟨haccepted, hacked⟩ := step_fields hstep
  have hun : s'.unanswered = s.unanswered + ev.sends k := by
    rw [step_unanswered hstep, hans, tsub_zero, he.sent, Cache.idle_busReads, List.nil_append]
  have hwait : s'.waiting k = s.waiting k + ev.sends k := by
    unfold waiting Mem.waiting
    rw [hun, he.mshr, Multiset.filter_add, add_assoc]
    congr 2
    cases ev <;> simp [Event.sends, Cache.prefetchReq, CacheConfig.isHomeNode]
  refine ⟨⟨step_sound s _ s' hstep hs.sound, ?_, ?_, ?_⟩, ?_, ?_⟩
  · rw [he.mshr]
    exact hs.ok
  · intro mreq hmem
    rw [hun] at hmem
    rcases Multiset.mem_add.1 hmem with hmem | hmem
    · exact hs.kinds mreq hmem
    · cases ev <;> simp [Event.sends] at hmem
      rw [hmem]
      exact fun _ => .inl rfl
  · have hacc : ev.accepted k = ev.acksNow + (ev.sends k : Multiset MemRequest) := by
      cases ev <;> rfl
    rw [haccepted, hacked, hs.conserved, hwait, he.acked, Cache.idle_acks, List.nil_append, hacc]
    abel
  · rw [hwait, he.reads, nReads_add, missed_quiet hfirst hans, Cache.idle_pendingReads]
    ring
  · rw [hwait, he.writes, nWrites_add, missed_quiet hfirst hans, Cache.idle_pendingWrites]
    ring

theorem step_conserved (hstep : s.step k ev = some s') (hs : s.Conserved k) :
    s'.Conserved k ∧ s.Follows k s' (s.missed k ev) := by
  rcases step_cases hstep with ⟨cb, hfirst, hans, hc⟩ | ⟨mreq, c, rfl, hmem, hc, hret⟩ | ⟨hfirst, hans, he⟩
  · exact step_request hs hstep hfirst hans hc
  · exact step_answer hs hstep hmem hc hret
  · exact step_quiet hs hstep hfirst hans he

/-- What came and was not acknowledged waits. -/
theorem Conserved.counted_iff (hs : s.Conserved k) :
    s.Counted k ↔ s.cache.pendingReads = nReads (s.waiting k) ∧ s.cache.pendingWrites = nWrites (s.waiting k) := by
  have hwait : s.accepted - s.acked = s.waiting k := by rw [hs.conserved, add_tsub_cancel_left]
  constructor
  · intro h
    exact ⟨hwait ▸ h.reads, hwait ▸ h.writes⟩
  · rintro ⟨hr, hw⟩
    refine ⟨by rw [hwait, hr], by rw [hwait, hw], ?_, ?_⟩
    · rw [hr, hw]
      exact ⟨Int.natCast_nonneg _, Int.natCast_nonneg _⟩
    · intro hpark hun
      have h0 : s.waiting k = 0 := by
        unfold waiting
        rw [hpark, hun]
        rfl
      rw [hr, hw, h0]
      exact ⟨rfl, rfl⟩

theorem new_conserved (k : CacheConfig) : (new k).Conserved k := by
  have hpark : (new k).cache.mshr.parked k.mshr = 0 := MSHR.parked_create k.mshrType
  refine ⟨sound_create k.mshrType, ?_, ?_, ?_⟩
  · rw [hpark]
    simp
  · simp [new]
  · unfold waiting
    rw [hpark]
    simp [new, Mem.waiting]

end Sys

/-- **Pending operations.** The counters are the numbers of reads and writes homed at the cache
that wait, in every state of a run, exactly when no event of the run forwards a read or a
write without counting it: a prefetch, or a write that needs an upgrade. -/
theorem pending_iff (k : CacheConfig) (evs : List Event) (s : Sys)
    (h : run (Sys.step k) (Sys.new k) evs = some s) :
    (∀ evs' s', evs' <+: evs → run (Sys.step k) (Sys.new k) evs' = some s' → s'.Counted k) ↔
      Along (Sys.step k) (fun s ev => s.missed k ev = (0, 0)) (Sys.new k) evs := by
  apply forall_prefix_iff_along (D := fun _ _ => True) (I := fun s => s.Conserved k ∧ s.Counted k) _ _ _ h
    (Along.of_forall (fun _ _ => trivial) _ _)
  · refine ⟨Sys.new_conserved k, (Sys.new_conserved k).counted_iff.2 ?_⟩
    have hpark : (Sys.new k).cache.mshr.parked k.mshr = 0 := MSHR.parked_create k.mshrType
    unfold Sys.waiting
    rw [hpark]
    exact ⟨rfl, rfl⟩
  · exact fun s hs => hs.2
  · rintro s ev s' hstep - hmiss ⟨hs, hcount⟩
    obtain ⟨hs', hfol⟩ := Sys.step_conserved hstep hs
    obtain ⟨hr, hw⟩ := hs.counted_iff.1 hcount
    have hreads := hfol.reads
    have hwrites := hfol.writes
    rw [hmiss] at hreads hwrites
    exact ⟨hs', hs'.counted_iff.2 ⟨by omega, by omega⟩⟩
  · rintro s ev s' hstep - hmiss ⟨hs, hcount⟩ hcount'
    obtain ⟨hs', hfol⟩ := Sys.step_conserved hstep hs
    obtain ⟨hr, hw⟩ := hs.counted_iff.1 hcount
    obtain ⟨hr', hw'⟩ := hs'.counted_iff.1 hcount'
    have hreads := hfol.reads
    have hwrites := hfol.writes
    exact hmiss (Prod.ext (by omega) (by omega))

/-- A read and a write that miss, the second behind the first, and the answer. -/
def readWrite : List Event :=
  [.read (readReq 64), .write { readReq 320 with type := .write }, .pushUp (readReq 64)]

theorem pending_iff_readWrite :
    (∃ s, run (Sys.step smallL1) (Sys.new smallL1) readWrite = some s) ∧
      ∀ evs' s', evs' <+: readWrite → run (Sys.step smallL1) (Sys.new smallL1) evs' = some s' →
        s'.Counted smallL1 := by
  obtain ⟨s, hs⟩ : ∃ s, run (Sys.step smallL1) (Sys.new smallL1) readWrite = some s :=
    Option.isSome_iff_exists.1 (by decide)
  exact ⟨⟨s, hs⟩, (pending_iff smallL1 readWrite s hs).2 (by decide)⟩

/-- A prefetch and its answer. -/
def prefetched : List Event := [.prefetch 64 0, .pushUp (Cache.prefetchReq smallL1 64 0)]

/-- A line warmed by `ffread` is `Shared`; a write to it is forwarded, and answered. -/
def upgraded : List Event :=
  [.ffread 64, .write { readReq 64 with type := .write }, .pushUp { readReq 64 with type := .write }]

/-- Each of the two leaves a counter at `-1`, with nothing left to answer. -/
theorem pending_negative :
    (∃ s, run (Sys.step smallL1) (Sys.new smallL1) prefetched = some s ∧ s.unanswered = 0 ∧
      s.cache.pendingReads = -1) ∧
    (∃ s, run (Sys.step smallL1) (Sys.new smallL1) upgraded = some s ∧ s.unanswered = 0 ∧
      s.cache.pendingWrites = -1) := by
  constructor
  · obtain ⟨s, hs⟩ : ∃ s, run (Sys.step smallL1) (Sys.new smallL1) prefetched = some s :=
      Option.isSome_iff_exists.1 (by decide)
    have hun : (run (Sys.step smallL1) (Sys.new smallL1) prefetched).map (·.unanswered) = some 0 := by decide
    have hneg : (run (Sys.step smallL1) (Sys.new smallL1) prefetched).map (·.cache.pendingReads) = some (-1) := by
      decide
    rw [hs, Option.map_some, Option.some.injEq] at hun hneg
    exact ⟨s, hs, hun, hneg⟩
  · obtain ⟨s, hs⟩ : ∃ s, run (Sys.step smallL1) (Sys.new smallL1) upgraded = some s :=
      Option.isSome_iff_exists.1 (by decide)
    have hun : (run (Sys.step smallL1) (Sys.new smallL1) upgraded).map (·.unanswered) = some 0 := by decide
    have hneg : (run (Sys.step smallL1) (Sys.new smallL1) upgraded).map (·.cache.pendingWrites) = some (-1) := by
      decide
    rw [hs, Option.map_some, Option.some.injEq] at hun hneg
    exact ⟨s, hs, hun, hneg⟩

end Esesc.Mem
