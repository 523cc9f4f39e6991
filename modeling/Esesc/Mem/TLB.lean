import Esesc.Mem.WakeUp

/-!
# The TLB (`simu/libmem/TLB.{h,cpp}`)

A request that misses here and in the lower TLB walks the page table: three reads, one
after another, and the answer to the third fills the page and calls `retire`. A request
that has to wait for the walk of another is parked in the registers, as in a cache, and
is run again by `retire`. One that is run again and finds its page in the lower TLB is
forwarded at once, and neither walks nor calls `retire`: what is parked behind it stays.

The lower TLB is another object, whose answers are part of each event. Delays, ports and
statistics are left out, with the `mmu` mark of the walk's requests that only they read.

* `retire_retires`: `retire` returns, and goes one of four ways.
* `retires_sound`: it keeps the registers sound, if no request that it leaves parked is
  behind one found in the lower TLB.
* `walk_outstanding_along`: then a parked request always has a walk to wait for.
* `parked_forever`: a run that leaves one with nothing to wait for.
-/

namespace Esesc.Mem

open Esesc.Suc Esesc.Lib

/-! ## Page-table addresses -/

def pteIndex (addr : AddrType) : AddrType := (addr >>> 12) &&& (512 - 1)
def pmdIndex (addr : AddrType) : AddrType := (addr >>> 21) &&& (512 - 1)
def pgdIndex (addr : AddrType) : AddrType := (addr >>> 30) &&& (4 - 1)

def calcPage1Addr (addr : AddrType) : AddrType := 2147483648 + pgdIndex addr
def calcPage2Addr (addr : AddrType) : AddrType := 4194304 + pmdIndex addr
def calcPage3Addr (addr : AddrType) : AddrType := 49152 + pteIndex addr

/-- The callbacks of a walk's requests. -/
inductive Page where
  | readPage1
  | readPage2
  | readPage3
  deriving Repr, DecidableEq

/-- What a request to the page table is for: the callback it runs when it is answered. -/
structure Walk where
  page : Page
  mreq : MemRequest
  deriving Repr, DecidableEq

/-! ## The TLB -/

/-- The configuration; `lowerTLB` says whether there is one. -/
structure TLBConfig where
  g : Geometry
  org : Organisation
  mshr : MSHRConfig
  mshrType : MSHRType
  lowerTLB : Bool
  self : ℕ

/-- What the TLB sends; `walk` is a request to the page table for `addr`. -/
inductive TLBAction where
  | ack (mreq : MemRequest)
  | busRead (mreq : MemRequest)
  | walk (addr : AddrType) (w : Walk)
  | pushUp (mreq : MemRequest)
  deriving Repr, DecidableEq

structure TLB where
  tlbBank : CacheCore StateGeneric
  bmshr : MSHR Retry
  out : List TLBAction

/-- What the lower TLB answers to `checkL2TLBHit`. -/
abbrev L2 := MemRequest → Bool

namespace TLB

variable (k : TLBConfig)

def new : TLB := ⟨.new 0, .create k.mshr k.mshrType, []⟩

def send (t : TLB) (a : TLBAction) : TLB := { t with out := t.out ++ [a] }

/-- `tlbBank->readLine`. -/
def readLine (t : TLB) (addr : AddrType) : Option ℕ × TLB :=
  let r := t.tlbBank.findLine k.org k.g addr
  (r.1, { t with tlbBank := r.2 })

/-- `tlbBank->fillLine`. -/
def fillLine (t : TLB) (addr : AddrType) : TLB := { t with tlbBank := (t.tlbBank.fillLine k.org k.g addr).2.2 }

/-- `bmshr->addEntry`. -/
def addEntry (t : TLB) (addr : AddrType) (cb : Option Retry) : TLB :=
  { t with bmshr := t.bmshr.addEntry k.mshr addr cb }

/-- `doRead` up to `bmshr->retire`, and whether the request hit. -/
def doReadBegin (t : TLB) (l2 : L2) (mreq : MemRequest) (retrying : Bool) : Bool × TLB :=
  let addr := mreq.addr
  match t.readLine k addr with
  | (some _, t) => (true, t)
  | (none, t) =>
    if k.lowerTLB && l2 mreq then (false, (t.fillLine k addr).send (.busRead mreq))
    else if !retrying && !t.bmshr.canIssue k.mshr addr then (false, t.addEntry k addr (some (.doRead mreq)))
    else (false, (t.addEntry k addr none).send (.walk (calcPage1Addr addr) ⟨.readPage1, mreq⟩))

/-- `doRead` with `retrying = false`. -/
def doRead (t : TLB) (l2 : L2) (mreq : MemRequest) : TLB :=
  let r := t.doReadBegin k l2 mreq false
  if r.1 then r.2.send (.busRead mreq) else r.2

/-- `bmshr->retire`, with room for `fuel` calls inside one another. The callback that it
runs is `doRead` with `retrying = true`, which calls it again on a hit. -/
def retire (l2 : L2) : ℕ → TLB → AddrType → Option TLB
  | 0, _, _ => none
  | fuel + 1, t, addr =>
    match t.bmshr.retireBegin k.mshr addr with
    | (none, m) => some { t with bmshr := m }
    | (some cb, m) =>
      let r := doReadBegin k { t with bmshr := m } l2 cb.mreq true
      let t := if r.1 then (retire l2 fuel r.2 cb.mreq.addr).map (·.send (.busRead cb.mreq)) else some r.2
      t.map fun t => { t with bmshr := t.bmshr.retireEnd k.mshr addr }

def read (t : TLB) (l2 : L2) (mreq : MemRequest) : TLB :=
  if mreq.addr = 0 then t.send (.ack mreq) else t.doRead k l2 mreq

def write (t : TLB) (l2 : L2) (mreq : MemRequest) : TLB :=
  if mreq.addr = 0 then t.send (.ack mreq) else t.doRead k l2 mreq

def writeAddress (t : TLB) (mreq : MemRequest) : TLB := t.send (.ack mreq)

def busRead (t : TLB) (l2 : L2) (mreq : MemRequest) : TLB := t.doRead k l2 mreq

def readPage1 (t : TLB) (mreq : MemRequest) : TLB :=
  t.send (.walk (calcPage2Addr mreq.addr) ⟨.readPage2, mreq⟩)

def readPage2 (t : TLB) (mreq : MemRequest) : TLB :=
  t.send (.walk (calcPage3Addr mreq.addr) ⟨.readPage3, mreq⟩)

def readPage3 (t : TLB) (l2 : L2) (mreq : MemRequest) : Option TLB :=
  let t := t.fillLine k mreq.addr
  (retire k l2 (t.bmshr.depth k.mshr) t mreq.addr).map (·.send (.busRead mreq))

/-- `pushUp` of a request that was forwarded. That of a walk's request runs its callback. -/
def pushUp (t : TLB) (mreq : MemRequest) : TLB :=
  if mreq.homeNode ≠ k.self then t.send (.pushUp mreq) else t.send (.ack mreq)

def ffread (t : TLB) (addr : AddrType) : TLB := t.fillLine k addr

def ffwrite (t : TLB) (addr : AddrType) : TLB := t.fillLine k addr

/-- `checkL2TLBHit`, when a TLB above asks this one. -/
def checkL2TLBHit (t : TLB) (mreq : MemRequest) : Bool × TLB :=
  let r := t.readLine k mreq.addr
  (r.1.isSome, r.2)

end TLB

/-! ## The TLB and what it waits for -/

/-- What happens to a TLB. The answers of the lower TLB come with the events that ask it. -/
inductive TLBEvent where
  | read (l2 : L2) (mreq : MemRequest)
  | write (l2 : L2) (mreq : MemRequest)
  | writeAddress (mreq : MemRequest)
  | busRead (l2 : L2) (mreq : MemRequest)
  | walked (l2 : L2) (w : Walk)
  | pushUp (mreq : MemRequest)
  | ffread (addr : AddrType)
  | ffwrite (addr : AddrType)
  | checkL2TLBHit (mreq : MemRequest)

/-- A TLB, with the requests of its walks and the requests it forwarded that are not
answered yet. -/
structure TLBSys where
  tlb : TLB
  walks : Multiset Walk
  forwarded : Multiset MemRequest

/-- The requests to the page table among what a TLB sends. -/
def walksOf (out : List TLBAction) : List Walk := out.filterMap fun | .walk _ w => some w | _ => none

/-- The requests forwarded among what a TLB sends. -/
def forwardsOf (out : List TLBAction) : List MemRequest := out.filterMap fun | .busRead mreq => some mreq | _ => none

namespace TLBEvent

def exec (k : TLBConfig) (t : TLB) : TLBEvent → Option TLB
  | .read l2 mreq => some (t.read k l2 mreq)
  | .write l2 mreq => some (t.write k l2 mreq)
  | .writeAddress mreq => some (t.writeAddress mreq)
  | .busRead l2 mreq => some (t.busRead k l2 mreq)
  | .walked l2 w =>
    match w.page with
    | .readPage1 => some (t.readPage1 w.mreq)
    | .readPage2 => some (t.readPage2 w.mreq)
    | .readPage3 => t.readPage3 k l2 w.mreq
  | .pushUp mreq => some (t.pushUp k mreq)
  | .ffread addr => some (t.ffread k addr)
  | .ffwrite addr => some (t.ffwrite k addr)
  | .checkL2TLBHit mreq => some (t.checkL2TLBHit k mreq).2

/-- The request to the page table that an event answers. -/
def ended : TLBEvent → Multiset Walk
  | .walked _ w => {w}
  | _ => 0

/-- The forwarded request that an event answers. -/
def answered : TLBEvent → Multiset MemRequest
  | .pushUp mreq => {mreq}
  | _ => 0

end TLBEvent

/-- The TLB before an event, with nothing sent yet. -/
def TLB.idle (t : TLB) : TLB := { t with out := [] }

namespace TLBSys

def new (k : TLBConfig) : TLBSys := ⟨.new k, 0, 0⟩

/-- Only requests that are outstanding are answered. -/
def enabled (s : TLBSys) : TLBEvent → Bool
  | .walked _ w => w ∈ s.walks
  | .pushUp mreq => mreq ∈ s.forwarded
  | _ => true

def step (k : TLBConfig) (s : TLBSys) (ev : TLBEvent) : Option TLBSys :=
  if s.enabled ev then
    (ev.exec k s.tlb.idle).map fun t =>
      { tlb := t
        walks := s.walks - ev.ended + walksOf t.out
        forwarded := s.forwarded - ev.answered + forwardsOf t.out }
  else none

end TLBSys

/-! ## What `doRead` and `retire` do -/

@[simp] theorem walksOf_append (as bs : List TLBAction) : walksOf (as ++ bs) = walksOf as ++ walksOf bs :=
  List.filterMap_append

namespace TLB

variable {k : TLBConfig} {l2 : L2}

/-- From `t` to `t'` the registers become `m`, and walks begin for the requests `sent`. -/
structure Effect (t t' : TLB) (m : MSHR Retry) (sent : List Walk) : Prop where
  bmshr : t'.bmshr = m
  walks : walksOf t'.out = walksOf t.out ++ sent

/-- The request hits, and `readLine` is all that happened. -/
theorem doReadBegin_hit {t : TLB} {mreq : MemRequest} {retrying : Bool}
    (h : (t.doReadBegin k l2 mreq retrying).1 = true) :
    (t.tlbBank.findLine k.org k.g mreq.addr).1 ≠ none ∧
      (t.doReadBegin k l2 mreq retrying).2 = { t with tlbBank := (t.tlbBank.findLine k.org k.g mreq.addr).2 } := by
  cases hl : (t.tlbBank.findLine k.org k.g mreq.addr).1 with
  | some l => simp [doReadBegin, readLine, hl]
  | none =>
    simp only [doReadBegin, readLine, hl] at h
    split at h
    · cases h
    · split at h <;> cases h

/-- The request misses: it is found in the lower TLB, waits behind another, or walks. -/
theorem doReadBegin_miss {t : TLB} {mreq : MemRequest} {retrying : Bool}
    (h : (t.doReadBegin k l2 mreq retrying).1 = false) :
    (t.tlbBank.findLine k.org k.g mreq.addr).1 = none ∧
      (((k.lowerTLB && l2 mreq) = true ∧ t.Effect (t.doReadBegin k l2 mreq retrying).2 t.bmshr []) ∨
       (retrying = false ∧ t.bmshr.canIssue k.mshr mreq.addr = false ∧
          t.Effect (t.doReadBegin k l2 mreq retrying).2
            (t.bmshr.addEntry k.mshr mreq.addr (some (.doRead mreq))) []) ∨
       t.Effect (t.doReadBegin k l2 mreq retrying).2 (t.bmshr.addEntry k.mshr mreq.addr none)
          [⟨.readPage1, mreq⟩]) := by
  cases hl : (t.tlbBank.findLine k.org k.g mreq.addr).1 with
  | some l => simp [doReadBegin, readLine, hl] at h
  | none =>
    refine ⟨rfl, ?_⟩
    simp only [doReadBegin, readLine, hl]
    by_cases hlow : (k.lowerTLB && l2 mreq) = true
    · rw [if_pos hlow]
      exact .inl ⟨hlow, rfl, by simp [send, fillLine, walksOf]⟩
    rw [if_neg hlow]
    by_cases hpark : (!retrying && !t.bmshr.canIssue k.mshr mreq.addr) = true
    · rw [if_pos hpark]
      obtain ⟨hr, hi⟩ : retrying = false ∧ t.bmshr.canIssue k.mshr mreq.addr = false := by simpa using hpark
      exact .inr (.inl ⟨hr, hi, rfl, by simp [addEntry]⟩)
    · rw [if_neg hpark]
      exact .inr (.inr ⟨rfl, by simp [send, addEntry, walksOf]⟩)

/-- `retire` after the callback has returned. -/
def endRetire (k : TLBConfig) (t : TLB) (addr : AddrType) : TLB :=
  { t with bmshr := t.bmshr.retireEnd k.mshr addr }

/-- `t.Retires k l2 addr t'`: `bmshr->retire(addr)` takes `t` to `t'`. There is no callback
to run, the callback misses, or it hits and calls `retire` in its turn. -/
inductive Retires (k : TLBConfig) (l2 : L2) : TLB → AddrType → TLB → Prop
  | done {t : TLB} {addr : AddrType} {m : MSHR Retry}
      (hm : t.bmshr.retireBegin k.mshr addr = (none, m)) : Retires k l2 t addr { t with bmshr := m }
  | stop {t : TLB} {addr : AddrType} {cb : Retry} {m : MSHR Retry}
      (hm : t.bmshr.retireBegin k.mshr addr = (some cb, m))
      (hb : (doReadBegin k { t with bmshr := m } l2 cb.mreq true).1 = false) :
      Retires k l2 t addr (endRetire k (doReadBegin k { t with bmshr := m } l2 cb.mreq true).2 addr)
  | next {t t' : TLB} {addr : AddrType} {cb : Retry} {m : MSHR Retry}
      (hm : t.bmshr.retireBegin k.mshr addr = (some cb, m))
      (hb : (doReadBegin k { t with bmshr := m } l2 cb.mreq true).1 = true)
      (h : Retires k l2 (doReadBegin k { t with bmshr := m } l2 cb.mreq true).2 cb.mreq.addr t') :
      Retires k l2 t addr (endRetire k (t'.send (.busRead cb.mreq)) addr)

variable (k l2) in
/-- **`retire` returns**, when it has room for as many calls as there are parked requests. -/
theorem retire_retires (t : TLB) (addr : AddrType) (fuel : ℕ)
    (hfuel : Multiset.card (t.bmshr.parked k.mshr) < fuel) :
    ∃ t', retire k l2 fuel t addr = some t' ∧ t.Retires k l2 addr t' := by
  induction fuel generalizing t addr with
  | zero => omega
  | succ fuel ih =>
    rcases hm : t.bmshr.retireBegin k.mshr addr with ⟨_ | cb, m⟩
    · exact ⟨_, by simp only [retire, hm], .done hm⟩
    have hcard := congrArg Multiset.card (MSHR.parked_retireBegin_some hm)
    rw [Multiset.card_cons] at hcard
    cases hb : (doReadBegin k { t with bmshr := m } l2 cb.mreq true).1 with
    | false => exact ⟨_, by simp [retire, hm, hb]; rfl, .stop hm hb⟩
    | true =>
      -- the callback leaves one parked request fewer to the call inside it
      have hbmshr : (doReadBegin k { t with bmshr := m } l2 cb.mreq true).2.bmshr = m := by
        rw [(doReadBegin_hit hb).2]
      obtain ⟨t', ht', hret⟩ := ih (doReadBegin k { t with bmshr := m } l2 cb.mreq true).2 cb.mreq.addr
        (by rw [hbmshr]; omega)
      exact ⟨_, by simp [retire, hm, hb, ht']; rfl, .next hm hb hret⟩

variable (k l2) in
theorem readPage3_retires (t : TLB) (mreq : MemRequest) :
    ∃ t', t.readPage3 k l2 mreq = some (t'.send (.busRead mreq)) ∧
      (t.fillLine k mreq.addr).Retires k l2 mreq.addr t' := by
  obtain ⟨t', ht', hret⟩ := retire_retires k l2 (t.fillLine k mreq.addr) mreq.addr
    ((t.fillLine k mreq.addr).bmshr.depth k.mshr) (by rw [MSHR.depth_eq]; omega)
  exact ⟨t', by simp only [readPage3, ht', Option.map_some], hret⟩

end TLB

/-! ## Requests left behind -/

/-- What `retire(addr)` and the calls inside it go through: fields with a callback, or without. -/
def MSHR.fields (k : MSHRConfig) : MSHR Retry → AddrType → List (Option Retry)
  | .blocking overflow, _ | .none overflow, _ => overflow.map (·.cb)
  | .full m, addr => (m.entry (k.calcEntry addr)).cc.map some

/-- The requests that are run again hit until one misses. It is found in the lower TLB, and
there are fields left behind it. -/
def TLBConfig.strands (k : TLBConfig) (l2 : L2) : CacheCore StateGeneric → List (Option Retry) → Bool
  | _, [] => false
  | b, none :: fs => k.strands l2 b fs
  | b, some cb :: fs =>
    match b.findLine k.org k.g cb.mreq.addr with
    | (some _, b) => k.strands l2 b fs
    | (none, _) => k.lowerTLB && l2 cb.mreq && !fs.isEmpty

section Behind

variable {k : TLBConfig} {l2 : L2} {un : Multiset MemRequest} {m m' : MSHR Retry} {addr : AddrType} {cb : Retry}

theorem strands_popOverflow {b : CacheCore StateGeneric} {q q' : List (OverflowField Retry)}
    (h : popOverflow q = (some cb, q')) :
    k.strands l2 b (q.map (·.cb)) = k.strands l2 b (some cb :: q'.map (·.cb)) := by
  induction q with
  | nil => simp [popOverflow] at h
  | cons f q ih =>
    unfold popOverflow at h
    cases hf : f.cb with
    | none =>
      rw [hf] at h
      rw [List.map_cons, hf]
      exact ih h
    | some cb' =>
      rw [hf] at h
      obtain ⟨rfl, rfl⟩ : cb' = cb ∧ q = q' := by simpa using h
      rw [List.map_cons, hf]

/-- `retire` goes on with the fields behind the callback it runs. -/
theorem Sound.strands_some {b : CacheCore StateGeneric} (h : Sound k.mshr (some addr) un m)
    (hm : m.retireBegin k.mshr addr = (some cb, m')) :
    k.strands l2 b (m.fields k.mshr addr) = k.strands l2 b (some cb :: m'.fields k.mshr cb.mreq.addr) := by
  cases m with
  | blocking q =>
    obtain ⟨q', rfl, hr⟩ := MSHR.blocking_retireBegin hm
    exact strands_popOverflow hr
  | none q =>
    obtain ⟨q', rfl, hr⟩ := MSHR.none_retireBegin hm
    exact strands_popOverflow hr
  | full m =>
    obtain ⟨m1, cc, rfl, hmap, hcc, -, hm1⟩ := h.full_some hm
    simp only [MSHR.fields, hmap, hm1, Function.update_self, hcc, List.map_cons]

/-- The callback that `retire` runs maps to the entry it is called for. -/
theorem Sound.same_entry (h : Sound k.mshr (some addr) un m) (hm : m.retireBegin k.mshr addr = (some cb, m'))
    {m1 : FullMSHR Retry} (h1 : m' = .full m1) :
    k.mshr.calcEntry cb.mreq.addr = k.mshr.calcEntry addr := by
  subst h1
  cases m with
  | blocking q =>
    obtain ⟨q', hq', -⟩ := MSHR.blocking_retireBegin hm
    cases hq'
  | none q =>
    obtain ⟨q', hq', -⟩ := MSHR.none_retireBegin hm
    cases hq'
  | full m =>
    obtain ⟨-, -, -, hmap, -⟩ := h.full_some hm
    exact hmap

/-- With nothing left behind the callback it ran, `retire` frees the entry. -/
theorem Sound.retireEnd_empty (h : Sound k.mshr (some addr) un m) (he : m.fields k.mshr addr = []) {addr' : AddrType}
    (hmap : ∀ m1, m = .full m1 → k.mshr.calcEntry addr = k.mshr.calcEntry addr') :
    Sound k.mshr none un (m.retireEnd k.mshr addr') := by
  cases m with
  | blocking q =>
    intro hq
    exact absurd (List.map_eq_nil_iff.1 he) hq
  | none q => exact h
  | full m =>
    have hsame := hmap m rfl
    intro p
    have hcc : (m.entry (k.mshr.calcEntry addr')).cc = [] := by
      rw [← hsame]
      exact List.map_eq_nil_iff.1 he
    rw [FullMSHR.retireEnd_entry, if_pos hcc]
    by_cases hp : p = k.mshr.calcEntry addr'
    · subst hp
      rw [Function.update_self]
      exact ⟨EntryOk.free _ _, fun hu => absurd rfl hu⟩
    · rw [Function.update_of_ne hp]
      refine ⟨(h p).1, fun hu _ => (h p).2 hu ?_⟩
      rw [Option.map_some, Ne, Option.some.injEq, hsame]
      exact Ne.symm hp

end Behind

/-! ## Runs -/

section Runs

variable {k : TLBConfig} {l2 : L2} {t t' : TLB}

/-- The requests that a list of walks is for. -/
def walkers (ws : List Walk) : Multiset MemRequest := (ws.map (·.mreq) : List MemRequest)

/-- `retire` leaves no entry exempt, if it leaves nothing parked behind a request that the
lower TLB has. -/
theorem TLB.retires_sound {addr : AddrType} (h : t.Retires k l2 addr t') (un : Multiset MemRequest)
    (hstr : k.strands l2 t.tlbBank (t.bmshr.fields k.mshr addr) = false)
    (hs : Sound k.mshr (some addr) (un + walkers (walksOf t.out)) t.bmshr) :
    Sound k.mshr none (un + walkers (walksOf t'.out)) t'.bmshr := by
  induction h with
  | done hm => exact hs.retireBegin_none hm
  | @stop t addr cb m hm hb =>
    have hin := hs.retireBegin_some hm
    rw [hs.strands_some hm] at hstr
    obtain ⟨hmiss, ⟨hlow, he⟩ | ⟨hr, -⟩ | he⟩ := TLB.doReadBegin_miss hb
    · -- the lower TLB has the page, so nothing may be left behind
      have hlast : m.fields k.mshr cb.mreq.addr = [] := by
        rcases hf : t.tlbBank.findLine k.org k.g cb.mreq.addr with ⟨o, b⟩
        obtain rfl : o = none := by simpa [hf] using hmiss
        simpa [TLBConfig.strands, hf, hlow] using hstr
      simp only [TLB.endRetire]
      rw [he.walks, he.bmshr, List.append_nil]
      exact hin.retireEnd_empty hlast fun m1 h1 => hs.same_entry hm h1
    · cases hr
    · have hsend := hin.send cb.mreq (by simp)
      simp only [TLB.endRetire]
      rw [he.walks, he.bmshr]
      have hwalk : un + walkers (walksOf t.out ++ [⟨.readPage1, cb.mreq⟩]) =
          cb.mreq ::ₘ (un + walkers (walksOf t.out)) := by
        rw [walkers, List.map_append]
        exact cons_unanswered un _ cb.mreq
      rw [hwalk]
      exact hsend.retireEnd addr
  | @next t t' addr cb m hm hb _ ih =>
    obtain ⟨hhit, heq⟩ := TLB.doReadBegin_hit hb
    have hin := hs.retireBegin_some hm
    rw [heq] at ih
    have hout := ih ?_ hin
    · simp only [TLB.endRetire, TLB.send, walksOf_append]
      rw [show walksOf [TLBAction.busRead cb.mreq] = [] from rfl, List.append_nil]
      exact hout.retireEnd addr
    · rw [hs.strands_some hm] at hstr
      rcases hf : t.tlbBank.findLine k.org k.g cb.mreq.addr with ⟨_ | l, b⟩
      · exact absurd (congrArg Prod.fst hf) hhit
      · simpa [TLBConfig.strands, hf] using hstr

/-- What a state between events has: registers that agree with the walks. -/
def TLBSys.Sound (k : TLBConfig) (s : TLBSys) : Prop :=
  Mem.Sound k.mshr none (s.walks.map (·.mreq)) s.tlb.bmshr

/-- The event ends a walk, and leaves requests parked behind one that the lower TLB has. -/
def TLBSys.strands (k : TLBConfig) (s : TLBSys) : TLBEvent → Bool
  | .walked l2 ⟨.readPage3, mreq⟩ =>
    k.strands l2 (s.tlb.fillLine k mreq.addr).tlbBank (s.tlb.bmshr.fields k.mshr mreq.addr)
  | _ => false

/-- A request that is not run again parks behind a walk, begins one, or needs none. -/
theorem TLB.doRead_sound (l2 : L2) (mreq : MemRequest) (un : Multiset MemRequest) (ht : t.out = [])
    (hs : Sound k.mshr none un t.bmshr) :
    Sound k.mshr none (un + walkers (walksOf (t.doRead k l2 mreq).out)) (t.doRead k l2 mreq).bmshr := by
  have hnone : walksOf t.out = [] := by rw [ht]; rfl
  unfold TLB.doRead
  cases hb : (t.doReadBegin k l2 mreq false).1 with
  | true =>
    simp only [hb, if_true, TLB.send]
    rw [(TLB.doReadBegin_hit hb).2]
    exact hs.mono (Multiset.le_add_right _ _)
  | false =>
    simp only [hb, Bool.false_eq_true, if_false]
    obtain ⟨-, ⟨-, he⟩ | ⟨-, hcan, he⟩ | he⟩ := TLB.doReadBegin_miss hb
    · rw [he.bmshr]
      exact hs.mono (Multiset.le_add_right _ _)
    · rw [he.bmshr]
      have hpark := hs.park (show t.bmshr.canIssue k.mshr (Retry.doRead mreq).mreq.addr = false from hcan)
      exact hpark.mono (Multiset.le_add_right _ _)
    · rw [he.bmshr, he.walks, hnone]
      have hsend := hs.send mreq (by simp)
      rw [← Multiset.singleton_add, add_comm] at hsend
      exact hsend

/-- What an event does: it makes a request, leaves the registers alone, goes on with a walk,
or ends one. -/
theorem TLBEvent.exec_cases {ev : TLBEvent} (h : ev.exec k t = some t') :
    (ev.ended = 0 ∧ ∃ l2 mreq, t' = t.doRead k l2 mreq) ∨
    (ev.ended = 0 ∧ t'.bmshr = t.bmshr) ∨
    (∃ l2 w addr page, ev = .walked l2 w ∧ t' = t.send (.walk addr ⟨page, w.mreq⟩)) ∨
    (∃ l2 mreq t1, ev = .walked l2 ⟨.readPage3, mreq⟩ ∧ t' = t1.send (.busRead mreq) ∧
      (t.fillLine k mreq.addr).Retires k l2 mreq.addr t1) := by
  cases ev with
  | read l2 mreq =>
    obtain rfl := Option.some.inj h
    by_cases h0 : mreq.addr = 0
    · exact .inr (.inl ⟨rfl, by rw [TLB.read, if_pos h0]; rfl⟩)
    · exact .inl ⟨rfl, l2, mreq, by rw [TLB.read, if_neg h0]⟩
  | write l2 mreq =>
    obtain rfl := Option.some.inj h
    by_cases h0 : mreq.addr = 0
    · exact .inr (.inl ⟨rfl, by rw [TLB.write, if_pos h0]; rfl⟩)
    · exact .inl ⟨rfl, l2, mreq, by rw [TLB.write, if_neg h0]⟩
  | busRead l2 mreq =>
    obtain rfl := Option.some.inj h
    exact .inl ⟨rfl, l2, mreq, rfl⟩
  | walked l2 w =>
    right; right
    obtain ⟨page, mreq⟩ := w
    cases page with
    | readPage1 => exact .inl ⟨l2, _, _, _, rfl, (Option.some.inj h).symm⟩
    | readPage2 => exact .inl ⟨l2, _, _, _, rfl, (Option.some.inj h).symm⟩
    | readPage3 =>
      obtain ⟨t1, ht1, hret⟩ := t.readPage3_retires k l2 mreq
      exact .inr ⟨l2, mreq, t1, rfl, Option.some.inj (h.symm.trans ht1), hret⟩
  | writeAddress mreq | ffread addr | ffwrite addr | checkL2TLBHit mreq =>
    obtain rfl := Option.some.inj h
    exact .inr (.inl ⟨rfl, rfl⟩)
  | pushUp mreq =>
    obtain rfl := Option.some.inj h
    refine .inr (.inl ⟨rfl, ?_⟩)
    rw [TLB.pushUp]
    split <;> rfl

/-- The requests that walk, without the one whose walk's request was answered. -/
theorem map_walks_sub {ws : Multiset Walk} {w : Walk} (h : w ∈ ws) :
    (ws - {w}).map (·.mreq) = ws.map (·.mreq) - {w.mreq} := by
  obtain ⟨ws, rfl⟩ := Multiset.exists_cons_of_mem h
  simp

theorem TLBSys.step_sound (s : TLBSys) (ev : TLBEvent) (s' : TLBSys) (h : s.step k ev = some s')
    (hev : s.strands k ev = false) (hs : s.Sound k) : s'.Sound k := by
  unfold TLBSys.Sound at hs ⊢
  unfold TLBSys.step at h
  split at h
  swap
  · cases h
  rename_i hen
  obtain ⟨t, hexec, rfl⟩ := Option.map_eq_some_iff.1 h
  simp only [Multiset.map_add]
  change Mem.Sound _ _ (_ + walkers (walksOf t.out)) _
  rcases TLBEvent.exec_cases hexec with ⟨h0, l2, mreq, rfl⟩ | ⟨h0, ht⟩ | ⟨l2, w, addr, page, rfl, rfl⟩ |
    ⟨l2, mreq, t1, rfl, rfl, hret⟩
  · rw [h0, tsub_zero]
    exact TLB.doRead_sound l2 mreq _ rfl hs
  · rw [h0, tsub_zero, ht]
    exact hs.mono (Multiset.le_add_right _ _)
  · -- the next request of the walk takes the place of the answered one
    have hmem : w ∈ s.walks := by simpa [TLBSys.enabled] using hen
    rw [TLBEvent.ended, map_walks_sub hmem, show walkers _ = {w.mreq} from rfl, Multiset.sub_singleton, add_comm,
      Multiset.singleton_add, Multiset.cons_erase (Multiset.mem_map_of_mem _ hmem)]
    exact hs
  · have hmem : ⟨.readPage3, mreq⟩ ∈ s.walks := by simpa [TLBSys.enabled] using hen
    rw [TLBEvent.ended, map_walks_sub hmem]
    simp only [TLB.send, walksOf_append]
    rw [show walksOf [TLBAction.busRead mreq] = [] from rfl, List.append_nil]
    exact TLB.retires_sound hret _ hev ((hs.answer mreq).mono (Multiset.le_add_right _ _))

/-- A request parked in an entry waits for a walk, or an access forwarded below, that maps to
the entry; one parked in the overflow queue for any. -/
def TLBSys.WakeUp (k : TLBConfig) (s : TLBSys) : Prop :=
  match s.tlb.bmshr with
  | .full m => ∀ p, (m.entry p).cc ≠ [] →
      (∃ w ∈ s.walks, k.mshr.calcEntry w.mreq.addr = p) ∨ ∃ mreq ∈ s.forwarded, k.mshr.calcEntry mreq.addr = p
  | .blocking overflow => (∃ f ∈ overflow, f.cb ≠ none) → s.walks ≠ 0 ∨ s.forwarded ≠ 0
  | .none overflow => (∃ f ∈ overflow, f.cb ≠ none) → s.walks ≠ 0 ∨ s.forwarded ≠ 0

/-- **Waiting for a walk.** If no walk that ends leaves a request parked behind one that the
lower TLB has, then a parked request has a walk still to come that will run it. -/
theorem TLBSys.walk_outstanding_along (k : TLBConfig) (evs : List TLBEvent) (s : TLBSys)
    (h : run (TLBSys.step k) (TLBSys.new k) evs = some s)
    (hev : Along (TLBSys.step k) (fun s ev => s.strands k ev = false) (TLBSys.new k) evs) : s.WakeUp k := by
  have hs : s.Sound k := run_inv_along TLBSys.step_sound h hev (sound_create k.mshrType)
  unfold TLBSys.Sound at hs
  unfold TLBSys.WakeUp
  cases hm : s.tlb.bmshr with
  | full m =>
    rw [hm] at hs
    intro p hcc
    obtain ⟨hok, haw⟩ := hs p
    have hcov := hok.covered hcc
    obtain ⟨mreq, hmem, hmap⟩ := haw (by omega) (by simp)
    obtain ⟨w, hw, rfl⟩ := Multiset.mem_map.1 hmem
    exact .inl ⟨w, hw, hmap⟩
  | blocking q =>
    rw [hm] at hs
    rintro ⟨f, hf, -⟩
    have hne := hs (List.ne_nil_of_mem hf) rfl
    exact .inl fun h0 => hne (by rw [h0]; rfl)
  | none q =>
    rw [hm] at hs
    rintro ⟨f, hf, hcb⟩
    exact absurd (sound_none hs hf) hcb

/-- With nothing outstanding, nothing is parked. -/
theorem TLBSys.WakeUp.queue_nil {s : TLBSys} (h : s.WakeUp k) (hw : s.walks = 0) (hf : s.forwarded = 0)
    (addr : AddrType) : s.tlb.bmshr.queue k.mshr addr = [] := by
  unfold TLBSys.WakeUp at h
  cases hm : s.tlb.bmshr with
  | full m =>
    rw [hm] at h
    by_contra hne
    rcases h (k.mshr.calcEntry addr) hne with ⟨w, hmem, -⟩ | ⟨mreq, hmem, -⟩
    · simp [hw] at hmem
    · simp [hf] at hmem
  | blocking q | none q =>
    rw [hm] at h
    by_contra hne
    obtain ⟨cb, hcb⟩ := List.exists_mem_of_ne_nil _ hne
    obtain ⟨f, hmem, hcb⟩ := List.mem_filterMap.1 hcb
    rcases h ⟨f, hmem, by simp [hcb]⟩ with h | h
    · exact h hw
    · exact h hf

end Runs

/-- A TLB of four pages with one entry in its registers, over a lower TLB. -/
def smallTLB : TLBConfig where
  g := ⟨16384, 4096, 1, 1, ⟨14, by decide⟩, ⟨12, rfl⟩, Geometry.byte_pow, Geometry.byte_pow, by decide, by decide⟩
  org := .dm
  mshr := { Nested.oneEntry with lineSize := 4096 }
  mshrType := .full
  lowerTLB := true
  self := 0

/-- A read that comes from the cache above `smallTLB`. -/
def pageReq (page : ℕ) : MemRequest := { addr := BitVec.ofNat 64 (4096 * page), type := .read, homeNode := 1 }

/-- The three requests of the walk for `mreq` are answered, the last while the lower TLB
answers `l2`. -/
def walkEvents (l2 : L2) (mreq : MemRequest) : List TLBEvent :=
  [.walked l2 ⟨.readPage1, mreq⟩, .walked l2 ⟨.readPage2, mreq⟩, .walked l2 ⟨.readPage3, mreq⟩]

/-- Two pages that share an entry: the second waits for the walk of the first, then walks. -/
def twoPages : List TLBEvent :=
  [.busRead (fun _ => false) (pageReq 1), .busRead (fun _ => false) (pageReq 5)] ++
    walkEvents (fun _ => false) (pageReq 1)

theorem TLBSys.walk_outstanding_along_twoPages :
    ∃ s, run (TLBSys.step smallTLB) (TLBSys.new smallTLB) twoPages = some s ∧
      s.walks = {⟨.readPage1, pageReq 5⟩} ∧ s.WakeUp smallTLB := by
  have hrun : ((run (TLBSys.step smallTLB) (TLBSys.new smallTLB) twoPages).any fun s =>
      decide (s.walks = {⟨.readPage1, pageReq 5⟩})) = true := by decide +kernel
  obtain ⟨s, hs, hw⟩ := (Option.any_eq_true _ _).1 hrun
  exact ⟨s, hs, of_decide_eq_true hw, walk_outstanding_along smallTLB twoPages s hs
    (by decide +kernel)⟩

/-- Three pages that share an entry. When the walk of the first ends, the second is in the
lower TLB; both are then answered from below. -/
def threePages : List TLBEvent :=
  [.busRead (fun _ => false) (pageReq 1), .busRead (fun _ => false) (pageReq 5),
    .busRead (fun _ => false) (pageReq 9)] ++
    walkEvents (fun mreq => mreq.addr == 4096 * 5) (pageReq 1) ++
    [.pushUp (pageReq 5), .pushUp (pageReq 1)]

/-- The third request of `threePages` is parked, and nothing is outstanding. -/
theorem TLBSys.parked_forever :
    ∃ s, run (TLBSys.step smallTLB) (TLBSys.new smallTLB) threePages = some s ∧
      s.tlb.bmshr.queue smallTLB.mshr (pageReq 9).addr = [.doRead (pageReq 9)] ∧
      s.walks = 0 ∧ s.forwarded = 0 ∧ ¬s.WakeUp smallTLB := by
  have hrun : ((run (TLBSys.step smallTLB) (TLBSys.new smallTLB) threePages).any fun s =>
      decide (s.tlb.bmshr.queue smallTLB.mshr (pageReq 9).addr = [.doRead (pageReq 9)] ∧
        s.walks = 0 ∧ s.forwarded = 0)) = true := by decide +kernel
  obtain ⟨s, hs, hd⟩ := (Option.any_eq_true _ _).1 hrun
  obtain ⟨hq, hw, hf⟩ := of_decide_eq_true hd
  refine ⟨s, hs, hq, hw, hf, ?_⟩
  intro hwake
  rw [hwake.queue_nil hw hf] at hq
  cases hq

end Esesc.Mem
