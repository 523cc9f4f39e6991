import Esesc.Mem.Cache
import Esesc.Mem.Parked

/-!
# What a request does, and what `retire` does

A request finds its line present (`hit`), absent (`miss`) or, for a write, present but
`Shared` in a cache that has to ask below for the right to write it (`upgrade`). That
depends on the array alone (`look`). Everything else a handler does up to
`mshr->retire` is one `Effect` for each answer.

* `begin_begun`: the effect of a handler; `begin_next`, `begin_stop` for a request run again.
* `Retires`: `retire` as a relation, one rule for each way it goes.
* `retire_retires`, `doPushUp_isSome`: `retire` always returns, and follows the relation.
-/

namespace Esesc.Mem

open Esesc.Suc

variable {k : CacheConfig}

/-! ## Messages -/

/-- The requests forwarded below. -/
def busReads (out : List Action) : List MemRequest :=
  out.filterMap fun | .busRead mreq => some mreq | _ => none

/-- The requests acknowledged. -/
def acks (out : List Action) : List MemRequest :=
  out.filterMap fun | .ack mreq => some mreq | _ => none

@[simp] theorem busReads_append (as bs : List Action) : busReads (as ++ bs) = busReads as ++ busReads bs :=
  List.filterMap_append

@[simp] theorem acks_append (as bs : List Action) : acks (as ++ bs) = acks as ++ acks bs :=
  List.filterMap_append

theorem quiet_invalidates (lsize : ℕ) (naddr : AddrType) (capacity : Bool) (ups : List ℕ) :
    busReads (Cache.invalidates k lsize naddr capacity ups) = [] ∧
      acks (Cache.invalidates k lsize naddr capacity ups) = [] := by
  cases ups with
  | nil => exact ⟨rfl, rfl⟩
  | cons up ups => simp [Cache.invalidates, busReads, acks]

/-! ## Effects -/

namespace Cache

/-- From `c` to `c'` the array and the registers become `bank` and `mshr`, the requests
`sent` are forwarded below, `acked` are acknowledged, and the counters move by `reads`
and `writes`. -/
structure Effect (c c' : Cache) (bank : CacheCore CState) (mshr : MSHR Retry)
    (sent acked : List MemRequest) (reads writes : ℤ) : Prop where
  bank : c'.bank = bank
  mshr : c'.mshr = mshr
  sent : busReads c'.out = busReads c.out ++ sent
  acked : acks c'.out = acks c.out ++ acked
  reads : c'.pendingReads = c.pendingReads + reads
  writes : c'.pendingWrites = c.pendingWrites + writes

end Cache

/-- What a request finds. -/
inductive Look where
  | hit
  | miss
  | upgrade
  deriving Repr, DecidableEq

/-- `busReadLine` on the array. -/
def lookLine (mreq : MemRequest) (b : CacheCore CState) (l : ℕ) : CacheCore CState :=
  if mreq.isWrite then b.updLine l .setModified else b.updLine l .setShared

/-- What a request finds, and the array it leaves. -/
def look (k : CacheConfig) (b : CacheCore CState) (cb : Retry) : Look × CacheCore CState :=
  let r := b.findLine k.org k.g cb.mreq.addr
  match r.1, cb with
  | none, _ => (.miss, r.2)
  | some l, .doRead _ => (.hit, r.2.updLine l .prefetchNone)
  | some l, .doWrite _ =>
    let b := r.2.updLine l .prefetchNone
    if (b.mem l).isShared then
      let b := b.updLine l invalidate
      if !k.llc then (.upgrade, b) else (.hit, b.updLine l .setModified)
    else (.hit, b.updLine l .setModified)
  | some l, .doBusRead mreq =>
    if mreq.isRead then (.hit, r.2)
    else
      let b := r.2.updLine l .prefetchNone
      if k.inclusive then
        if (b.mem l).isShared && mreq.isWrite then
          let b := b.updLine l invalidate
          if 1 < k.upNode.length || !k.llc then (.upgrade, b) else (.hit, lookLine mreq b l)
        else (.hit, lookLine mreq b l)
      else (.hit, b)

/-- Run requests one after the other on the array, as long as they hit: what the first one
that does not finds, and the requests from that one on. -/
def walk (k : CacheConfig) (b : CacheCore CState) : List Retry → Look × List Retry
  | [] => (.hit, [])
  | cb :: cbs =>
    match look k b cb with
    | (.hit, b) => walk k b cbs
    | (o, _) => (o, cb :: cbs)

theorem walk_hit {b : CacheCore CState} {cb : Retry} (cbs : List Retry) (h : (look k b cb).1 = .hit) :
    walk k b (cb :: cbs) = walk k (look k b cb).2 cbs := by
  rcases hlk : look k b cb with ⟨o, b'⟩
  obtain rfl : o = .hit := by simpa [hlk] using h
  simp only [walk, hlk]

theorem walk_stop {b : CacheCore CState} {cb : Retry} (cbs : List Retry) (h : (look k b cb).1 ≠ .hit) :
    walk k b (cb :: cbs) = ((look k b cb).1, cb :: cbs) := by
  rcases hlk : look k b cb with ⟨o, b'⟩
  rw [hlk] at h
  cases o with
  | hit => exact absurd rfl h
  | miss => simp only [walk, hlk]
  | upgrade => simp only [walk, hlk]

namespace Retry

/-- The request counts as a pending read while it waits. -/
def reads : Retry → ℤ
  | .doRead _ => 1
  | _ => 0

/-- The request counts as a pending write while it waits. -/
def writes : Retry → ℤ
  | .doWrite _ => 1
  | _ => 0

/-- The request is acknowledged here once it hits. -/
def home : Retry → List MemRequest
  | .doRead mreq => [mreq]
  | .doWrite mreq => [mreq]
  | .doBusRead _ => []

end Retry

namespace Cache

theorem busReadLine_effect (c : Cache) (mreq : MemRequest) (l : ℕ) :
    c.Effect (c.busReadLine k mreq l) (lookLine mreq c.bank l) c.mshr [] [] 0 0 := by
  unfold busReadLine lookLine
  by_cases hw : mreq.isWrite
  · rw [if_pos hw, if_pos hw]
    constructor <;> simp [updLine]
  · rw [if_neg hw, if_neg hw]
    by_cases hm : (c.line l).isModified
    · constructor <;> simp [hm, updLine, doWriteback, send, busReads, acks]
    · constructor <;> simp [hm, updLine]

theorem Effect.trans {c c' c'' : Cache} {b b' : CacheCore CState} {m m' : MSHR Retry} {s s' a a' : List MemRequest}
    {r r' w w' : ℤ} (h : c.Effect c' b m s a r w) (h' : c'.Effect c'' b' m' s' a' r' w') :
    c.Effect c'' b' m' (s ++ s') (a ++ a') (r + r') (w + w') where
  bank := h'.bank
  mshr := h'.mshr
  sent := by rw [h'.sent, h.sent, List.append_assoc]
  acked := by rw [h'.acked, h.acked, List.append_assoc]
  reads := by rw [h'.reads, h.reads, add_assoc]
  writes := by rw [h'.writes, h.writes, add_assoc]

/-- Neither the array a handler starts from nor a request it pushes up is part of its effect. -/
theorem Effect.pushUp {c c' : Cache} {b b' : CacheCore CState} {m : MSHR Retry} {reads writes : ℤ}
    (h : Effect { c with bank := b } c' b' m [] [] reads writes) (mreq : MemRequest) :
    c.Effect (c'.send (.pushUp mreq)) b' m [] [] reads writes where
  bank := h.bank
  mshr := h.mshr
  sent := by simpa [send, busReads] using h.sent
  acked := by simpa [send, acks] using h.acked
  reads := h.reads
  writes := h.writes

/-- The effect of a handler up to `mshr->retire`, by what the request finds: the request
of a miss waits in the registers behind an earlier one, or is forwarded, and is pending;
that of a hit or of an upgrade is not. -/
def Begun (k : CacheConfig) (c : Cache) (cb : Retry) (retrying : Bool) (r : Bool × Cache) :
    Look × CacheCore CState → Prop
  | (.hit, b) => r.1 = true ∧ c.Effect r.2 b c.mshr [] []
      (if retrying then -cb.reads else 0) (if retrying then -cb.writes else 0)
  | (.upgrade, b) => r.1 = false ∧ c.Effect r.2 b (c.mshr.addEntry k.mshr cb.mreq.addr none) [cb.mreq] []
      (if retrying then -cb.reads else 0) (if retrying then -cb.writes else 0)
  | (.miss, b) => r.1 = false ∧
      if !retrying && !c.mshr.canIssue k.mshr cb.mreq.addr then
        c.Effect r.2 b (c.mshr.addEntry k.mshr cb.mreq.addr (some cb)) [] [] cb.reads cb.writes
      else c.Effect r.2 b (c.mshr.addEntry k.mshr cb.mreq.addr none) [cb.mreq] []
        (if retrying then 0 else cb.reads) (if retrying then 0 else cb.writes)

theorem doReadBegin_begun (c : Cache) (mreq : MemRequest) (retrying : Bool) :
    Begun k c (.doRead mreq) retrying (c.doReadBegin k mreq retrying) (look k c.bank (.doRead mreq)) := by
  cases hl : (c.bank.findLine k.org k.g mreq.addr).1 with
  | none =>
    cases retrying <;> cases hi : c.mshr.canIssue k.mshr mreq.addr <;>
      simp [Begun, doReadBegin, readLine, look, Retry.mreq, hl, hi] <;> constructor <;>
      simp [addEntry, send, busReads, acks, Retry.reads, Retry.writes]
  | some l =>
    cases retrying <;> simp [Begun, doReadBegin, readLine, look, Retry.mreq, hl] <;> constructor <;>
      simp [updLine, Retry.reads, Retry.writes, sub_eq_add_neg]

theorem doWriteBegin_begun (c : Cache) (mreq : MemRequest) (retrying : Bool) :
    Begun k c (.doWrite mreq) retrying (c.doWriteBegin k mreq retrying) (look k c.bank (.doWrite mreq)) := by
  cases hl : (c.bank.findLine k.org k.g mreq.addr).1 with
  | none =>
    cases retrying <;> cases hi : c.mshr.canIssue k.mshr mreq.addr <;>
      simp [Begun, doWriteBegin, readLine, look, Retry.mreq, hl, hi] <;> constructor <;>
      simp [addEntry, send, busReads, acks, Retry.reads, Retry.writes]
  | some l =>
    cases hs : (((c.bank.findLine k.org k.g mreq.addr).2.updLine l .prefetchNone).mem l).isShared <;>
      cases hllc : k.llc <;> cases retrying <;>
      simp [Begun, doWriteBegin, readLine, look, line, updLine, Retry.mreq, hl, hs, hllc] <;> constructor <;>
      simp [addEntry, send, busReads, acks, Retry.reads, Retry.writes, sub_eq_add_neg]

theorem doBusReadBegin_begun (c : Cache) (mreq : MemRequest) (retrying : Bool) :
    Begun k c (.doBusRead mreq) retrying (c.doBusReadBegin k mreq retrying) (look k c.bank (.doBusRead mreq)) := by
  cases hl : (c.bank.findLine k.org k.g mreq.addr).1 with
  | none =>
    cases retrying <;> cases hi : c.mshr.canIssue k.mshr mreq.addr <;>
      simp [Begun, doBusReadBegin, readLine, look, Retry.mreq, hl, hi] <;> constructor <;>
      simp [addEntry, send, busReads, acks, Retry.reads, Retry.writes]
  | some l =>
    by_cases hr : mreq.isRead
    · simp [Begun, doBusReadBegin, readLine, look, Retry.mreq, hl, hr, Retry.reads, Retry.writes]
      constructor <;> simp [send, busReads, acks]
    by_cases hinc : k.inclusive
    swap
    · simp [Begun, doBusReadBegin, readLine, look, Retry.mreq, hl, hr, hinc, Retry.reads, Retry.writes]
      constructor <;> simp [updLine, send, busReads, acks]
    cases hs : ((((c.bank.findLine k.org k.g mreq.addr).2.updLine l .prefetchNone).mem l).isShared && mreq.isWrite) with
    | false =>
      have he := busReadLine_effect (k := k)
        { c with bank := (c.bank.findLine k.org k.g mreq.addr).2.updLine l .prefetchNone } mreq l
      simp only [Begun, doBusReadBegin, readLine, look, line, updLine, Retry.mreq, hl, hr, hinc, hs, if_true,
        if_false, Bool.false_eq_true, true_and]
      simpa [Retry.reads, Retry.writes] using he.pushUp mreq
    | true =>
      simp only [Begun, doBusReadBegin, readLine, look, line, updLine, Retry.mreq, hl, hr, hinc, hs, if_true,
        if_false, Bool.false_eq_true]
      by_cases hup : k.upNode.length ≤ 1
      · cases hllc : k.llc with
        | false =>
          simp [sendInvalidateOthers, hup, Nat.not_lt.2 hup, Retry.reads, Retry.writes]
          constructor <;> simp [addEntry, send, busReads, acks]
        | true =>
          have he := busReadLine_effect (k := k) { c with bank :=
            ((c.bank.findLine k.org k.g mreq.addr).2.updLine l .prefetchNone).updLine l invalidate } mreq l
          simp [sendInvalidateOthers, hup, Nat.not_lt.2 hup, Retry.reads, Retry.writes]
          simpa using he.pushUp mreq
      · simp [sendInvalidateOthers, hup, Nat.not_le.1 hup, Retry.reads, Retry.writes]
        constructor <;> simp [addEntry, send, quiet_invalidates] <;> rfl

theorem begin_begun (c : Cache) (cb : Retry) (retrying : Bool) :
    Begun k c cb retrying (c.begin k cb retrying) (look k c.bank cb) := by
  cases cb with
  | doRead mreq => exact c.doReadBegin_begun mreq retrying
  | doWrite mreq => exact c.doWriteBegin_begun mreq retrying
  | doBusRead mreq => exact c.doBusReadBegin_begun mreq retrying

theorem finish_effect (c : Cache) (cb : Retry) : c.Effect (c.finish cb) c.bank c.mshr [] cb.home 0 0 := by
  cases cb <;> constructor <;> simp [finish, send, busReads, acks, Retry.home]

theorem answer_effect (c : Cache) (mreq : MemRequest) :
    c.Effect (c.answer k mreq) c.bank c.mshr [] (if k.isHomeNode mreq then [mreq] else [])
      (if k.isHomeNode mreq && mreq.isRead then -1 else 0)
      (if k.isHomeNode mreq && !mreq.isRead then -1 else 0) := by
  unfold answer
  by_cases hh : k.isHomeNode mreq
  · by_cases hr : mreq.isRead
    · constructor <;> simp [hh, hr, send, busReads, acks, sub_eq_add_neg]
    · constructor <;> simp [hh, hr, send, busReads, acks, sub_eq_add_neg]
  · constructor <;> simp [hh, send, busReads, acks]

/-- The first try of a request: it hits, asks for an upgrade, waits behind another, or is
forwarded. -/
theorem firstTry_cases (c : Cache) (cb : Retry) :
    ((look k c.bank cb).1 = .hit ∧ c.Effect (c.firstTry k cb) (look k c.bank cb).2 c.mshr [] cb.home 0 0) ∨
    ((look k c.bank cb).1 = .upgrade ∧ c.Effect (c.firstTry k cb) (look k c.bank cb).2
      (c.mshr.addEntry k.mshr cb.mreq.addr none) [cb.mreq] [] 0 0) ∨
    ((look k c.bank cb).1 = .miss ∧ c.mshr.canIssue k.mshr cb.mreq.addr = false ∧
      c.Effect (c.firstTry k cb) (look k c.bank cb).2 (c.mshr.addEntry k.mshr cb.mreq.addr (some cb)) [] []
        cb.reads cb.writes) ∨
    ((look k c.bank cb).1 = .miss ∧ c.mshr.canIssue k.mshr cb.mreq.addr = true ∧
      c.Effect (c.firstTry k cb) (look k c.bank cb).2 (c.mshr.addEntry k.mshr cb.mreq.addr none) [cb.mreq] []
        cb.reads cb.writes) := by
  have hb := c.begin_begun (k := k) cb false
  rcases hlk : look k c.bank cb with ⟨o, b⟩
  rw [hlk] at hb
  unfold firstTry
  cases o with
  | hit =>
    obtain ⟨hfst, he⟩ := hb
    left
    simp only [hfst, if_true]
    refine ⟨trivial, ?_⟩
    have hfin := he.trans (finish_effect _ cb)
    rw [he.bank, he.mshr] at hfin
    simpa using hfin
  | upgrade =>
    obtain ⟨hfst, he⟩ := hb
    simp only [hfst, Bool.false_eq_true, if_false] at he ⊢
    exact .inr (.inl ⟨trivial, he⟩)
  | miss =>
    obtain ⟨hfst, he⟩ := hb
    cases hcan : c.mshr.canIssue k.mshr cb.mreq.addr with
    | false =>
      simp only [hfst, hcan, Bool.false_eq_true, if_false, Bool.not_false, Bool.and_self, if_true] at he ⊢
      exact .inr (.inr (.inl ⟨trivial, trivial, he⟩))
    | true =>
      simp only [hfst, hcan, Bool.false_eq_true, if_false, Bool.not_false, Bool.not_true, Bool.and_false] at he ⊢
      exact .inr (.inr (.inr ⟨trivial, trivial, he⟩))

/-! ## `retire` -/

/-- `retire` after the callback has returned. -/
def endRetire (k : CacheConfig) (c : Cache) (addr : AddrType) : Cache :=
  { c with mshr := c.mshr.retireEnd k.mshr addr }

/-- `c.Retires k addr c'`: `mshr->retire(addr)` takes `c` to `c'`. There is no callback
to run (`done`), the callback is forwarded or waits again (`stop`), or it hits and calls
`retire` in its turn (`next`). -/
inductive Retires (k : CacheConfig) : Cache → AddrType → Cache → Prop
  | done {c : Cache} {addr : AddrType} {m : MSHR Retry}
      (hm : c.mshr.retireBegin k.mshr addr = (none, m)) : Retires k c addr { c with mshr := m }
  | stop {c : Cache} {addr : AddrType} {cb : Retry} {m : MSHR Retry}
      (hm : c.mshr.retireBegin k.mshr addr = (some cb, m))
      (hb : (begin k { c with mshr := m } cb true).1 = false) :
      Retires k c addr (endRetire k (begin k { c with mshr := m } cb true).2 addr)
  | next {c c' : Cache} {addr : AddrType} {cb : Retry} {m : MSHR Retry}
      (hm : c.mshr.retireBegin k.mshr addr = (some cb, m))
      (hb : (begin k { c with mshr := m } cb true).1 = true)
      (h : Retires k (begin k { c with mshr := m } cb true).2 cb.mreq.addr c') :
      Retires k c addr (endRetire k (c'.finish cb) addr)

/-- A handler hits exactly when the line is there and the request may use it. -/
theorem begin_fst (c : Cache) (cb : Retry) (retrying : Bool) :
    (c.begin k cb retrying).1 = true ↔ (look k c.bank cb).1 = .hit := by
  have h := c.begin_begun (k := k) cb retrying
  rcases hlk : look k c.bank cb with ⟨o, b⟩
  rw [hlk] at h
  cases o <;> simp [h.1]

/-- A request that is run again and hits is no longer pending. -/
theorem begin_next {c : Cache} {cb : Retry} (h : (c.begin k cb true).1 = true) :
    (look k c.bank cb).1 = .hit ∧
      c.Effect (c.begin k cb true).2 (look k c.bank cb).2 c.mshr [] [] (-cb.reads) (-cb.writes) := by
  have hhit := (c.begin_fst cb true).1 h
  have hb := c.begin_begun (k := k) cb true
  rw [← Prod.mk.eta (p := look k c.bank cb), hhit] at hb
  exact ⟨hhit, hb.2⟩

/-- A request that is run again and does not hit is forwarded. If it needs an upgrade it is
no longer pending. -/
theorem begin_stop {c : Cache} {cb : Retry} (h : (c.begin k cb true).1 = false) :
    (look k c.bank cb).1 ≠ .hit ∧
      c.Effect (c.begin k cb true).2 (look k c.bank cb).2 (c.mshr.addEntry k.mshr cb.mreq.addr none) [cb.mreq] []
        (if (look k c.bank cb).1 = .upgrade then -cb.reads else 0)
        (if (look k c.bank cb).1 = .upgrade then -cb.writes else 0) := by
  have hnot : (look k c.bank cb).1 ≠ .hit := by
    rw [Ne, ← c.begin_fst cb true, h]
    simp
  have hb := c.begin_begun (k := k) cb true
  refine ⟨hnot, ?_⟩
  rcases hlk : look k c.bank cb with ⟨o, b⟩
  rw [hlk] at hb hnot
  cases o with
  | hit => exact absurd rfl hnot
  | miss => exact hb.2
  | upgrade => exact hb.2

/-- **`retire` returns**, when it has room for as many calls as there are parked requests. -/
theorem retire_retires (c : Cache) (addr : AddrType) (fuel : ℕ)
    (hfuel : Multiset.card (c.mshr.parked k.mshr) < fuel) :
    ∃ c', retire k fuel c addr = some c' ∧ c.Retires k addr c' := by
  induction fuel generalizing c addr with
  | zero => omega
  | succ fuel ih =>
    rcases hm : c.mshr.retireBegin k.mshr addr with ⟨_ | cb, m⟩
    · exact ⟨_, by simp only [retire, hm], .done hm⟩
    have hcard := congrArg Multiset.card (MSHR.parked_retireBegin_some hm)
    rw [Multiset.card_cons] at hcard
    cases hb : (begin k { c with mshr := m } cb true).1 with
    | false => exact ⟨_, by simp [retire, hm, hb]; rfl, .stop hm hb⟩
    | true =>
      -- The handler leaves one parked request fewer to the call inside it.
      have hmshr : (begin k { c with mshr := m } cb true).2.mshr = m := (begin_next hb).2.mshr
      obtain ⟨c', hc', hret⟩ := ih (begin k { c with mshr := m } cb true).2 cb.mreq.addr (by rw [hmshr]; omega)
      exact ⟨_, by simp [retire, hm, hb, hc']; rfl, .next hm hb hret⟩

theorem doPushUp_retires (c : Cache) (mreq : MemRequest) :
    ∃ c', c.doPushUp k mreq = some (c'.answer k mreq) ∧ (c.fill k mreq).Retires k mreq.addr c' := by
  obtain ⟨c', hc', hret⟩ := retire_retires (k := k) (c.fill k mreq) mreq.addr
    ((c.fill k mreq).mshr.depth k.mshr) (by rw [MSHR.depth_eq]; omega)
  exact ⟨c', by simp only [doPushUp, hc', Option.map_some], hret⟩

theorem doPushUp_isSome (c : Cache) (mreq : MemRequest) : (c.doPushUp k mreq).isSome := by
  obtain ⟨c', hc', -⟩ := c.doPushUp_retires (k := k) mreq
  rw [hc']
  rfl

end Cache

end Esesc.Mem
