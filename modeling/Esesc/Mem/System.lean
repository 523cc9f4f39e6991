import Esesc.Lib.Machine
import Esesc.Mem.Retire

/-!
# A cache between its processor, the caches above and the level below

`Sys` adds to a cache what the rest of the system knows of it: the requests it forwarded
below and that are not answered yet, those homed at it that it accepted, and those it
acknowledged. An event is a call of one entry point; the level below answers
(`pushUp`) only what was forwarded to it, each request once.

* `exec_isSome`: every event is handled to its end.
* `exec_quiet`: an event that is neither a request nor an answer leaves the registers
  and the counters as they are.
* `step_cases`: the three kinds of step.
-/

namespace Esesc.Mem

open Esesc.Suc Esesc.Lib

variable {k : CacheConfig}

/-- The entry points of a cache. -/
inductive Event where
  | read (mreq : MemRequest)
  | write (mreq : MemRequest)
  | writeAddress (mreq : MemRequest)
  | busRead (mreq : MemRequest)
  | pushDown (mreq : MemRequest)
  | pushUp (mreq : MemRequest)
  | invalidate (mreq : MemRequest)
  | prefetch (addr : AddrType) (coreID : ℤ)
  | ffread (addr : AddrType)
  | ffwrite (addr : AddrType)
  | ffinvalidate (addr : AddrType) (ilineSize : ℕ)
  deriving Repr, DecidableEq

namespace Event

/-- The handler of an event. -/
def exec (k : CacheConfig) (c : Cache) : Event → Option Cache
  | .read mreq => some (c.read k mreq)
  | .write mreq => some (c.write k mreq)
  | .writeAddress mreq => some (c.writeAddress mreq)
  | .busRead mreq => some (c.busRead k mreq)
  | .pushDown mreq => some (c.doPushDown k mreq)
  | .pushUp mreq => c.doPushUp k mreq
  | .invalidate mreq => some (c.doInvalidate k mreq)
  | .prefetch addr coreID => some (c.prefetch k addr coreID)
  | .ffread addr => some (c.ffread k addr)
  | .ffwrite addr => some (c.ffwrite k addr)
  | .ffinvalidate addr ilineSize => some (c.ffinvalidate k addr ilineSize)

/-- The request an event makes of the array, if any. Those for address 0 (predicated
instructions) are acknowledged at once. -/
def first : Event → Option Retry
  | .read mreq => if mreq.addr = 0 then none else some (.doRead mreq)
  | .write mreq => if mreq.addr = 0 then none else some (.doWrite mreq)
  | .busRead mreq => some (.doBusRead mreq)
  | _ => none

/-- The request the level below answers with an event. -/
def answered : Event → Multiset MemRequest
  | .pushUp mreq => {mreq}
  | _ => 0

/-- The request homed at this cache that comes with an event. -/
def accepted (k : CacheConfig) : Event → Multiset MemRequest
  | .read mreq => {mreq}
  | .write mreq => {mreq}
  | .writeAddress mreq => {mreq}
  | .prefetch addr coreID => {Cache.prefetchReq k addr coreID}
  | _ => 0

/-- What an event that makes no request forwards below. -/
def sends (k : CacheConfig) : Event → List MemRequest
  | .prefetch addr coreID => [Cache.prefetchReq k addr coreID]
  | _ => []

/-- What an event that makes no request acknowledges. -/
def acksNow : Event → List MemRequest
  | .read mreq => [mreq]
  | .write mreq => [mreq]
  | .writeAddress mreq => [mreq]
  | _ => []

end Event

/-- A cache, with the requests forwarded and not yet answered, and the requests homed at
it that came and that were acknowledged. -/
structure Sys where
  cache : Cache
  unanswered : Multiset MemRequest
  accepted : Multiset MemRequest
  acked : Multiset MemRequest

namespace Cache

/-- The cache before an event, with nothing sent yet. -/
def idle (c : Cache) : Cache := { c with out := [] }

@[simp] theorem idle_bank (c : Cache) : c.idle.bank = c.bank := rfl
@[simp] theorem idle_mshr (c : Cache) : c.idle.mshr = c.mshr := rfl
@[simp] theorem idle_pendingReads (c : Cache) : c.idle.pendingReads = c.pendingReads := rfl
@[simp] theorem idle_pendingWrites (c : Cache) : c.idle.pendingWrites = c.pendingWrites := rfl
@[simp] theorem idle_busReads (c : Cache) : busReads c.idle.out = [] := rfl
@[simp] theorem idle_acks (c : Cache) : acks c.idle.out = [] := rfl

end Cache

namespace Sys

def new (k : CacheConfig) : Sys := ⟨.new k, 0, 0, 0⟩

/-- Requests reach the object they are homed at by `read` and `write`, those below it by
`busRead`; answers are to requests that were forwarded. -/
def enabled (k : CacheConfig) (s : Sys) : Event → Bool
  | .read mreq => mreq.isRead && k.isHomeNode mreq
  | .write mreq => mreq.isWrite && k.isHomeNode mreq
  | .busRead mreq => (mreq.isRead || mreq.isWrite) && !k.isHomeNode mreq
  | .pushUp mreq => mreq ∈ s.unanswered
  | _ => true

def step (k : CacheConfig) (s : Sys) (ev : Event) : Option Sys :=
  if s.enabled k ev then
    (ev.exec k s.cache.idle).map fun c =>
      { cache := c
        unanswered := s.unanswered - ev.answered + busReads c.out
        accepted := s.accepted + ev.accepted k
        acked := s.acked + acks c.out }
  else none

end Sys

/-! ## Handlers that make no request -/

namespace Cache

/-- Nothing is forwarded, acknowledged or counted, and the registers are untouched. -/
abbrev Quiet (c c' : Cache) : Prop := c.Effect c' c'.bank c.mshr [] [] 0 0

theorem Quiet.trans {c c' c'' : Cache} (h : c.Quiet c') (h' : c'.Quiet c'') : c.Quiet c'' := by
  have := Effect.trans h h'
  rw [h.mshr] at this
  exact this

theorem quiet_refl (c : Cache) : c.Quiet c := by constructor <;> simp

theorem quiet_bank (c : Cache) (b : CacheCore CState) : c.Quiet { c with bank := b } := by
  constructor <;> simp

theorem quiet_ite {c c' : Cache} {p : Prop} [Decidable p] (h : c.Quiet c') : c.Quiet (if p then c' else c) := by
  split
  · exact h
  · exact c.quiet_refl

theorem quiet_out (c : Cache) {as : List Action} (hb : busReads as = []) (ha : acks as = []) :
    c.Quiet { c with out := c.out ++ as } := by
  constructor <;> simp [hb, ha]

theorem quiet_updLine (c : Cache) (l : ℕ) (f : CState → CState) : c.Quiet (c.updLine l f) := c.quiet_bank _

theorem quiet_send (c : Cache) {a : Action} (hb : busReads [a] = []) (ha : acks [a] = []) : c.Quiet (c.send a) :=
  c.quiet_out hb ha

theorem quiet_sendInvalidateAll (c : Cache) (lsize : ℕ) (naddr : AddrType) :
    c.Quiet (c.sendInvalidateAll k lsize naddr).2 := by
  unfold sendInvalidateAll
  split
  · exact c.quiet_refl
  · exact c.quiet_out (quiet_invalidates ..).1 (quiet_invalidates ..).2

theorem quiet_displaceLine (c : Cache) (addr : AddrType) (modified : Bool) :
    c.Quiet (c.displaceLine k addr modified) := by
  unfold displaceLine
  have hinv : c.Quiet (if k.inclusive then (c.sendInvalidateAll k k.g.lineSize addr).2 else c) :=
    quiet_ite (c.quiet_sendInvalidateAll _ _)
  exact hinv.trans (quiet_ite (quiet_out _ rfl rfl))

/-- **The rule for a fill.** A relation from cache to cache is kept by it that is kept when only the array
changes, and when a line is displaced. -/
theorem fill_related {R : Cache → Cache → Prop} (htrans : ∀ {a b c}, R a b → R b c → R a c)
    (hbank : ∀ (c : Cache) b, R c { c with bank := b })
    (hdisplace : ∀ (c : Cache) addr modified, R c (c.displaceLine k addr modified))
    (c : Cache) (mreq : MemRequest) : R c (c.fill k mreq) := by
  have hite : ∀ {c c' c'' : Cache} {p : Prop} [Decidable p], R c c' → R c c'' → R c (if p then c' else c'') := by
    intro c c' c'' p _ h h'
    split
    · exact h
    · exact h'
  have hupd : ∀ (c : Cache) l f, R c (c.updLine l f) := fun c l f => hbank c _
  have halloc : ∀ c : Cache, R c (c.allocateLine k mreq.addr).2 := by
    intro c
    unfold allocateLine
    simp only
    apply htrans (htrans (hbank c _) (hupd _ _ .setExtraBit))
    exact hite (hdisplace _ _ _) (hbank _ _)
  have hline : ∀ (c : Cache) (l : ℕ), R c
      (let c := if mreq.isWrite then c.updLine l .setModified else c.updLine l .setExclusive
       if mreq.coreID ≠ 0 ∧ mreq.prefetch then (c.updLine l .prefetchPcore).updLine l .setShared
       else if mreq.prefetch then c.updLine l .prefetchHardware
       else c.updLine l .prefetchNone) := by
    intro c l
    have hstate : R c (if mreq.isWrite then c.updLine l .setModified else c.updLine l .setExclusive) :=
      hite (hupd c l _) (hupd c l _)
    exact htrans hstate (hite (htrans (hupd _ l _) (hupd _ l _)) (hite (hupd _ l _) (hupd _ l _)))
  unfold fill
  cases hl : (c.bank.findLine k.org k.g mreq.addr).1 with
  | some l =>
    simp only [readLine, hl]
    exact htrans (hbank c _) (hline _ l)
  | none =>
    simp only [readLine, hl]
    exact htrans (htrans (hbank c _) (halloc _)) (hline _ _)

theorem quiet_fill (c : Cache) (mreq : MemRequest) : c.Quiet (c.fill k mreq) :=
  fill_related (R := Quiet) Quiet.trans quiet_bank quiet_displaceLine c mreq

theorem displaceLine_bank (c : Cache) (addr : AddrType) (modified : Bool) :
    (c.displaceLine k addr modified).bank = c.bank := by
  unfold displaceLine sendInvalidateAll doWriteback send
  cases k.inclusive <;> cases modified <;> cases k.upNode <;> rfl

theorem allocateLine_bank (c : Cache) (addr : AddrType) :
    (c.allocateLine k addr).2.bank =
      (c.bank.fillLine k.org k.g addr).2.2.updLine (c.bank.fillLine k.org k.g addr).1 .setExtraBit := by
  unfold allocateLine
  simp only
  split
  · rw [displaceLine_bank]
    rfl
  · rfl

/-- The array after a fill does not depend on what was sent before. -/
theorem fill_bank (c : Cache) (mreq : MemRequest) : (c.idle.fill k mreq).bank = (c.fill k mreq).bank := by
  unfold fill idle
  cases hl : (c.bank.findLine k.org k.g mreq.addr).1 with
  | some l =>
    simp only [readLine, hl]
    split <;> split <;> (try split) <;> rfl
  | none =>
    have hbank : ∀ as, (allocateLine k { c with bank := (c.bank.findLine k.org k.g mreq.addr).2, out := as } mreq.addr).2.bank
        = _ := fun as => allocateLine_bank _ _
    simp only [readLine, hl]
    split <;> split <;> (try split) <;> simp only [updLine, hbank] <;> rfl

theorem quiet_invalidateLines (c : Cache) (addr : AddrType) (n : ℕ) :
    c.Quiet (c.invalidateLines k addr n).2 := by
  induction n generalizing c addr with
  | zero => exact c.quiet_refl
  | succ n ih =>
    cases hl : (c.bank.findLine k.org k.g addr).1 with
    | some l =>
      simp only [invalidateLines, readLine, hl]
      exact ((c.quiet_bank _).trans (quiet_updLine _ l _)).trans (ih _ _)
    | none =>
      simp only [invalidateLines, readLine, hl]
      exact (c.quiet_bank _).trans (ih _ _)

theorem quiet_doInvalidate (c : Cache) (mreq : MemRequest) : c.Quiet (c.doInvalidate k mreq) := by
  unfold doInvalidate
  split
  · exact c.quiet_out rfl rfl
  · simp only
    have hlines := c.quiet_invalidateLines (k := k) mreq.addr (mreq.lineSize / (k.g.lineSize + 1) + 1)
    split
    · exact hlines.trans (quiet_out _ rfl rfl)
    · exact (hlines.trans (quiet_sendInvalidateAll _ _ _)).trans (quiet_out _ rfl rfl)

theorem quiet_doPushDown (c : Cache) (mreq : MemRequest) : c.Quiet (c.doPushDown k mreq) := by
  unfold doPushDown
  split
  · exact c.quiet_out rfl rfl
  · cases hl : (c.bank.findLine k.org k.g mreq.addr).1 with
    | some l =>
      simp only [readLine, hl]
      exact ((c.quiet_bank _).trans (quiet_updLine _ l _)).trans (quiet_send _ rfl rfl)
    | none =>
      simp only [readLine, hl]
      exact (c.quiet_bank _).trans (quiet_send _ rfl rfl)

theorem quiet_ffaccess (f : CState → CState) (c : Cache) (addr : AddrType) : c.Quiet (c.ffaccess k f addr) := by
  unfold ffaccess
  cases hl : (c.bank.findLine k.org k.g addr).1 with
  | some l =>
    simp only [readLine, hl]
    exact c.quiet_bank _
  | none =>
    simp only [readLine, hl]
    exact c.quiet_bank _

end Cache

/-! ## Events -/

theorem exec_first {c : Cache} {ev : Event} {cb : Retry} (h : ev.first = some cb) :
    ev.exec k c = some (c.firstTry k cb) := by
  cases ev with
  | read mreq =>
    by_cases h0 : mreq.addr = 0
    · simp [Event.first, h0] at h
    · simp only [Event.first, if_neg h0, Option.some.injEq] at h
      subst h
      simp only [Event.exec, Cache.read, if_neg h0, Cache.doRead]
  | write mreq =>
    by_cases h0 : mreq.addr = 0
    · simp [Event.first, h0] at h
    · simp only [Event.first, if_neg h0, Option.some.injEq] at h
      subst h
      simp only [Event.exec, Cache.write, if_neg h0, Cache.doWrite]
  | busRead mreq =>
    simp only [Event.first, Option.some.injEq] at h
    subst h
    rfl
  | _ => simp [Event.first] at h

/-- An event that is neither a request nor an answer forwards at most a prefetch and
acknowledges at most itself. -/
theorem exec_quiet (c : Cache) {ev : Event} (hfirst : ev.first = none) (hans : ev.answered = 0) :
    ∃ c', ev.exec k c = some c' ∧ c.Effect c' c'.bank c.mshr (ev.sends k) ev.acksNow 0 0 := by
  cases ev with
  | read mreq =>
    have h0 : mreq.addr = 0 := by simpa [Event.first] using hfirst
    refine ⟨_, rfl, ?_⟩
    simp only [Cache.read, h0, if_true]
    constructor <;> simp [Cache.send, busReads, acks, Event.sends, Event.acksNow]
  | write mreq =>
    have h0 : mreq.addr = 0 := by simpa [Event.first] using hfirst
    refine ⟨_, rfl, ?_⟩
    simp only [Cache.write, h0, if_true]
    constructor <;> simp [Cache.send, busReads, acks, Event.sends, Event.acksNow]
  | writeAddress mreq =>
    refine ⟨_, rfl, ?_⟩
    constructor <;> simp [Cache.writeAddress, Cache.send, busReads, acks, Event.sends, Event.acksNow]
  | busRead mreq => simp [Event.first] at hfirst
  | pushDown mreq => exact ⟨_, rfl, c.quiet_doPushDown mreq⟩
  | pushUp mreq => simp [Event.answered] at hans
  | invalidate mreq => exact ⟨_, rfl, c.quiet_doInvalidate mreq⟩
  | prefetch addr coreID =>
    refine ⟨_, rfl, ?_⟩
    constructor <;> simp [Cache.prefetch, Cache.send, busReads, acks, Event.sends, Event.acksNow]
  | ffread addr => exact ⟨_, rfl, c.quiet_ffaccess _ addr⟩
  | ffwrite addr => exact ⟨_, rfl, c.quiet_ffaccess _ addr⟩
  | ffinvalidate addr ilineSize => exact ⟨_, rfl, c.quiet_invalidateLines addr _⟩

/-- Every event is handled to its end: the parked requests that `retire` runs are finite. -/
theorem exec_isSome (c : Cache) (ev : Event) : (ev.exec k c).isSome := by
  cases hfirst : ev.first with
  | some cb => rw [exec_first hfirst]; rfl
  | none =>
    cases ev with
    | pushUp mreq => exact c.doPushUp_isSome mreq
    | _ =>
      obtain ⟨c', hc', -⟩ := exec_quiet (k := k) c hfirst rfl
      rw [hc']
      rfl

/-! ## Steps -/

theorem step_eq {s s' : Sys} {ev : Event} (h : s.step k ev = some s') :
    s.enabled k ev = true ∧ ∃ c, ev.exec k s.cache.idle = some c ∧
      s' = ⟨c, s.unanswered - ev.answered + busReads c.out, s.accepted + ev.accepted k, s.acked + acks c.out⟩ := by
  unfold Sys.step at h
  split at h
  · rename_i hen
    obtain ⟨c, hc, rfl⟩ := Option.map_eq_some_iff.1 h
    exact ⟨hen, c, hc, rfl⟩
  · cases h

/-- The three kinds of step: a request, an answer, anything else. -/
theorem step_cases {s s' : Sys} {ev : Event} (h : s.step k ev = some s') :
    (∃ cb, ev.first = some cb ∧ ev.answered = 0 ∧ s'.cache = s.cache.idle.firstTry k cb) ∨
    (∃ mreq c, ev = .pushUp mreq ∧ mreq ∈ s.unanswered ∧ s'.cache = c.answer k mreq ∧
      (s.cache.idle.fill k mreq).Retires k mreq.addr c) ∨
    (ev.first = none ∧ ev.answered = 0 ∧
      s.cache.idle.Effect s'.cache s'.cache.bank s.cache.mshr (ev.sends k) ev.acksNow 0 0) := by
  obtain ⟨hen, c, hc, rfl⟩ := step_eq h
  cases hfirst : ev.first with
  | some cb =>
    left
    rw [exec_first hfirst, Option.some.injEq] at hc
    refine ⟨cb, rfl, ?_, hc.symm⟩
    cases ev <;> first | rfl | simp [Event.first] at hfirst
  | none =>
    right
    by_cases hans : ev.answered = 0
    · right
      obtain ⟨c', hc', he⟩ := exec_quiet (k := k) s.cache.idle hfirst hans
      obtain rfl : c = c' := Option.some.inj (hc.symm.trans hc')
      exact ⟨rfl, hans, he⟩
    · left
      cases ev with
      | pushUp mreq =>
        obtain ⟨c', hc', hret⟩ := Cache.doPushUp_retires (k := k) s.cache.idle mreq
        obtain rfl : c = c'.answer k mreq := Option.some.inj (hc.symm.trans hc')
        exact ⟨mreq, c', rfl, by simpa [Sys.enabled] using hen, rfl, hret⟩
      | _ => exact absurd rfl hans

/-- `firstTry_cases` in the terms of the state before the event. -/
theorem request_cases (k : CacheConfig) (c : Cache) (cb : Retry) :
    ((look k c.bank cb).1 = .hit ∧
      c.idle.Effect (c.idle.firstTry k cb) (look k c.bank cb).2 c.mshr [] cb.home 0 0) ∨
    ((look k c.bank cb).1 = .upgrade ∧ c.idle.Effect (c.idle.firstTry k cb) (look k c.bank cb).2
      (c.mshr.addEntry k.mshr cb.mreq.addr none) [cb.mreq] [] 0 0) ∨
    ((look k c.bank cb).1 = .miss ∧ c.mshr.canIssue k.mshr cb.mreq.addr = false ∧
      c.idle.Effect (c.idle.firstTry k cb) (look k c.bank cb).2 (c.mshr.addEntry k.mshr cb.mreq.addr (some cb)) [] []
        cb.reads cb.writes) ∨
    ((look k c.bank cb).1 = .miss ∧ c.mshr.canIssue k.mshr cb.mreq.addr = true ∧
      c.idle.Effect (c.idle.firstTry k cb) (look k c.bank cb).2 (c.mshr.addEntry k.mshr cb.mreq.addr none) [cb.mreq] []
        cb.reads cb.writes) :=
  c.idle.firstTry_cases cb

theorem step_unanswered {s s' : Sys} {ev : Event} (h : s.step k ev = some s') :
    s'.unanswered = s.unanswered - ev.answered + busReads s'.cache.out := by
  obtain ⟨-, c, -, rfl⟩ := step_eq h
  rfl

end Esesc.Mem
