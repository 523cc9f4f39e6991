import Esesc.Mem.LineTag

/-!
# What becomes of a request

Every entry point of an object is given a request, which it has to acknowledge, forward, park or
destroy. `uses` lists what an entry point does with the request that it is given, in order, for
the caches and for the two crossbars (`simu/libmem/GXBar.h`, `MemXBar.cpp`, `UnMemXBar.cpp`).
The requests that it creates on the way, and the parked ones that `retire` runs again, are
other requests. A call of `destroy` is a use only if the request has no answers to wait for.

* `Cache.entry_does`: `calls` are what the handlers of `Cache.lean` do.
* `one_use_iff`: the list of uses has one element, but for three entry points of the crossbars and
  for answers to invalidates that are not the last.
-/

namespace Esesc.Mem

open Esesc.Suc Esesc.Lib

/-- Where a request is forwarded. -/
inductive Hop where
  /-- `fwdBusReadPos`; `fwdBusRead` is the one to position 0. -/
  | busRead (pos : ℕ)
  /-- `fwdPushDownPos`; `fwdPushDown` is the one to position 0. -/
  | pushDown (pos : ℕ)
  | pushUp
  | pushUpPos (pos : ℕ)
  deriving Repr, DecidableEq

/-- What is done with a request. -/
inductive Use where
  | ack
  | forward (hop : Hop)
  | park
  | destroy
  deriving Repr, DecidableEq

/-- The entry points of an object. -/
inductive Entry where
  | read
  | write
  | writeAddress
  | busRead
  | pushDown
  | pushUp
  | invalidate
  deriving Repr, DecidableEq

/-! ## Crossbars -/

/-- The configuration of a crossbar and its place: its own name and the objects above. -/
structure XBarConfig where
  LineSize : ℕ
  Modfactor : ℕ
  numLowerLevelBanks : ℕ
  self : ℕ
  upNode : List ℕ
  deriving Repr, DecidableEq

namespace XBarConfig

variable (x : XBarConfig) (mreq : MemRequest)

/-- `GXBar::addrHash`. `Modfactor` is not used. -/
def addrHash (addr : AddrType) : ℕ :=
  let addr := addr.toNat >>> log2i x.LineSize
  (addr % 7 ^^^ addr % 1023) &&& (x.numLowerLevelBanks - 1)

/-- What a crossbar does: something with the request that it is given, or a request of its own. -/
inductive Move where
  | use (u : Use)
  | create (a : Action)
  deriving Repr, DecidableEq

/-- `MRouter::sendInvalidateAll`: the first request counts the answers, the others are created
from it where it already is. -/
def sendInvalidateAll : List Move :=
  match x.upNode with
  | [] => []
  | up :: ups =>
    let ireq : MemRequest :=
      { addr := mreq.addr, type := .invalidate, homeNode := x.self, lineSize := mreq.lineSize % 2 ^ 16
        pending := 1 + ups.length, capInvalidate := true }
    .create (.invalidate up ireq) ::
      ups.map fun u => .create (.invalidate u { ireq with homeNode := up, pending := 0 })

/-- `MemXBar`. -/
def memXBar : Entry → List Move
  | .read | .write | .busRead =>
    if mreq.addr = 0 then [.use .ack] else [.use (.forward (.busRead (x.addrHash mreq.addr)))]
  | .writeAddress => .use .ack :: if mreq.addr = 0 then [.use .ack] else []
  | .pushDown => [.use (.forward (.pushDown (x.addrHash mreq.addr)))]
  | .pushUp => if mreq.homeNode = x.self then [.use .ack] else [.use (.forward .pushUp)]
  | .invalidate => x.sendInvalidateAll mreq ++ [.use (.forward (.pushDown (x.addrHash mreq.addr)))]

/-- `UnMemXBar`. -/
def unMemXBar : Entry → List Move
  | .read | .write | .busRead => if mreq.addr = 0 then [.use .ack] else [.use (.forward (.busRead 0))]
  | .writeAddress => if mreq.addr = 0 then [.use .ack] else []
  | .pushDown => [.use (.forward (.pushDown 0))]
  | .pushUp => [.use (.forward (.pushUpPos (x.addrHash mreq.addr)))]
  | .invalidate => x.sendInvalidateAll mreq

/-- What is done with the request that was given. -/
def uses (moves : List Move) : List Use := moves.filterMap fun | .use u => some u | .create _ => none

/-- A broadcast does nothing with the request that it is for. -/
theorem uses_sendInvalidateAll (ms : List Move) : uses (x.sendInvalidateAll mreq ++ ms) = uses ms := by
  have hnone : ∀ us : List ℕ, ∀ f : ℕ → Action, uses (us.map fun u => .create (f u)) = [] := by
    intro us f
    simp [uses, List.filterMap_map]
  unfold sendInvalidateAll
  cases x.upNode with
  | nil => rfl
  | cons up ups =>
    have hups := hnone ups fun u => .invalidate u
      { addr := mreq.addr, type := .invalidate, homeNode := up, lineSize := mreq.lineSize % 2 ^ 16, capInvalidate := true }
    simp only [uses, List.cons_append, List.filterMap_cons, List.filterMap_append] at hups ⊢
    rw [hups, List.nil_append]

end XBarConfig

/-! ## Caches -/

/-- The request as `doPushDown` leaves it to `destroy`: an answer is counted down. -/
def MemRequest.pushedDown (mreq : MemRequest) : MemRequest := if mreq.isInvalidate then mreq.decPending else mreq

/-- Is the call a use of the request? `destroy` returns at once while `pending > 0`. -/
def Use.counts (mreq : MemRequest) : Use → Bool
  | .destroy => mreq.pushedDown.pending ≤ 0
  | _ => true

namespace Cache

variable (k : CacheConfig) (c : Cache) (mreq : MemRequest)

/-- The first try of a request. -/
def firstTryUses (cb : Retry) : List Use :=
  match (look k c.bank cb).1, cb with
  | .hit, .doBusRead _ => [.forward .pushUp]
  | .hit, _ => [.ack]
  | .upgrade, _ => [.forward (.busRead 0)]
  | .miss, _ => if c.mshr.canIssue k.mshr cb.mreq.addr then [.forward (.busRead 0)] else [.park]

/-- `Cache`: what an entry point calls with the request. -/
def calls : Entry → List Use
  | .read => if mreq.addr = 0 then [.ack] else c.firstTryUses k (.doRead mreq)
  | .write => if mreq.addr = 0 then [.ack] else c.firstTryUses k (.doWrite mreq)
  | .writeAddress => [.ack]
  | .busRead => c.firstTryUses k (.doBusRead mreq)
  | .pushDown => [.destroy]
  | .pushUp => if k.isHomeNode mreq then [.ack] else [.forward .pushUp]
  | .invalidate => [.forward (.pushDown 0)]

def uses (e : Entry) : List Use := (c.calls k mreq e).filter (·.counts mreq)

/-- The entry points. -/
def entry : Entry → Option Cache
  | .read => some (c.read k mreq)
  | .write => some (c.write k mreq)
  | .writeAddress => some (c.writeAddress mreq)
  | .busRead => some (c.busRead k mreq)
  | .pushDown => some (c.doPushDown k mreq)
  | .pushUp => c.doPushUp k mreq
  | .invalidate => some (c.doInvalidate k mreq)

/-- The callback that an entry point parks. -/
def retryOf : Entry → Retry
  | .read => .doRead mreq
  | .write => .doWrite mreq
  | _ => .doBusRead mreq

end Cache

/-- What a call with a request sends. A parked request stays. -/
def Use.action (mreq : MemRequest) : Use → Option Action
  | .ack => some (.ack mreq)
  | .forward (.busRead _) => some (.busRead mreq)
  | .forward (.pushDown _) => some (.pushDown mreq)
  | .forward _ => some (.pushUp mreq)
  | .park => none
  | .destroy => some (.destroy mreq.pushedDown)

/-- A message with a request that the cache itself creates. -/
inductive Created (k : CacheConfig) : Action → Prop
  | invalidate (up : ℕ) (mreq : MemRequest) : Created k (.invalidate up mreq)
  | writeback (addr : AddrType) : Created k (.pushDown { addr := addr, type := .writeback, homeNode := k.self })

/-! ## What the handlers do -/

namespace Cache

variable {k : CacheConfig} {c c' c'' : Cache} {mreq : MemRequest}

/-- From `c` to `c'` the cache only sends requests that it creates. -/
def Makes (k : CacheConfig) (c c' : Cache) : Prop := ∃ made, (∀ a ∈ made, Created k a) ∧ c'.out = c.out ++ made

/-- From `c` to `c'` an entry point does `us` with `mreq`, last. Before, it creates requests, and an
answer from below lets `retire` run parked requests again. No other request is parked. -/
structure Does (k : CacheConfig) (e : Entry) (mreq : MemRequest) (us : List Use) (c c' : Cache) : Prop where
  out : ∃ c₁ c₂, Makes k c c₁ ∧ (c₂ = c₁ ∨ e = .pushUp ∧ c₁.Retires k mreq.addr c₂) ∧
    c'.out = c₂.out ++ us.filterMap (·.action mreq)
  parked : c'.mshr.parked k.mshr ≤ c.mshr.parked k.mshr + if .park ∈ us then {retryOf mreq e} else 0
  park : .park ∈ us → retryOf mreq e ∈ c'.mshr.parked k.mshr

theorem Makes.of_out_eq (h : c'.out = c.out) : Makes k c c' := ⟨[], by simp, by rw [h, List.append_nil]⟩

theorem Makes.trans (h : Makes k c c') (h' : Makes k c' c'') : Makes k c c'' := by
  obtain ⟨made, hmade, hout⟩ := h
  obtain ⟨made', hmade', hout'⟩ := h'
  refine ⟨made ++ made', ?_, by rw [hout', hout, List.append_assoc]⟩
  intro a ha
  rcases List.mem_append.1 ha with ha | ha
  · exact hmade a ha
  · exact hmade' a ha

theorem created_invalidates (lsize : ℕ) (naddr : AddrType) (cap : Bool) (ups : List ℕ) :
    ∀ a ∈ invalidates k lsize naddr cap ups, Created k a := by
  cases ups with
  | nil => simp [invalidates]
  | cons up ups =>
    intro a ha
    rcases List.mem_cons.1 ha with rfl | ha
    · exact .invalidate _ _
    · obtain ⟨u, -, rfl⟩ := List.mem_map.1 ha
      exact .invalidate _ _

theorem makes_sendInvalidateAll (c : Cache) (lsize : ℕ) (naddr : AddrType) :
    Makes k c (c.sendInvalidateAll k lsize naddr).2 := by
  unfold sendInvalidateAll
  split
  · exact .of_out_eq rfl
  · exact ⟨_, created_invalidates lsize naddr true k.upNode, rfl⟩

theorem makes_sendInvalidateOthers (c : Cache) (lsize : ℕ) (mreq : MemRequest) (naddr : AddrType) :
    Makes k c (c.sendInvalidateOthers k lsize mreq naddr).2 := by
  unfold sendInvalidateOthers
  split
  · exact .of_out_eq rfl
  · exact ⟨_, created_invalidates lsize naddr false _, rfl⟩

theorem makes_doWriteback (c : Cache) (addr : AddrType) : Makes k c (c.doWriteback k addr) := by
  refine ⟨_, ?_, rfl⟩
  intro a ha
  obtain rfl := List.mem_singleton.1 ha
  exact .writeback addr

theorem makes_ite {p : Prop} [Decidable p] (h : Makes k c c') (h' : Makes k c c'') :
    Makes k c (if p then c' else c'') := by
  split
  · exact h
  · exact h'

theorem makes_displaceLine (c : Cache) (addr : AddrType) (modified : Bool) :
    Makes k c (c.displaceLine k addr modified) := by
  have hinv : Makes k c (if k.inclusive then (c.sendInvalidateAll k k.g.lineSize addr).2 else c) :=
    makes_ite (makes_sendInvalidateAll _ _ _) (.of_out_eq rfl)
  exact hinv.trans (makes_ite (makes_doWriteback _ _) (.of_out_eq rfl))

theorem makes_fill (c : Cache) (mreq : MemRequest) : Makes k c (c.fill k mreq) :=
  fill_related (R := Makes k) Makes.trans (fun _ _ => .of_out_eq rfl) makes_displaceLine c mreq

theorem makes_busReadLine (c : Cache) (mreq : MemRequest) (l : ℕ) : Makes k c (c.busReadLine k mreq l) := by
  unfold busReadLine
  split
  · exact .of_out_eq rfl
  · have hwb : Makes k c (if (c.line l).isModified then c.doWriteback k mreq.addr else c) :=
      makes_ite (makes_doWriteback _ _) (.of_out_eq rfl)
    exact hwb.trans (.of_out_eq rfl)

theorem invalidateLines_out (c : Cache) (addr : AddrType) (n : ℕ) : (c.invalidateLines k addr n).2.out = c.out := by
  induction n generalizing c addr with
  | zero => rfl
  | succ n ih =>
    cases hl : (c.bank.findLine k.org k.g addr).1 with
    | some l =>
      simp only [invalidateLines, readLine, hl]
      exact ih _ _
    | none =>
      simp only [invalidateLines, readLine, hl]
      exact ih _ _

theorem firstTry_doRead_out (c : Cache) (mreq : MemRequest) :
    (c.firstTry k (.doRead mreq)).out = c.out ++ (c.firstTryUses k (.doRead mreq)).filterMap (·.action mreq) := by
  cases hl : (c.bank.findLine k.org k.g mreq.addr).1 with
  | none =>
    cases hi : c.mshr.canIssue k.mshr mreq.addr <;>
      simp [firstTry, begin, doReadBegin, readLine, firstTryUses, look, Retry.mreq, hl, hi, addEntry, send, Use.action]
  | some l =>
    simp [firstTry, begin, doReadBegin, readLine, firstTryUses, look, Retry.mreq, hl, finish, updLine, send, Use.action]

theorem firstTry_doWrite_out (c : Cache) (mreq : MemRequest) :
    (c.firstTry k (.doWrite mreq)).out = c.out ++ (c.firstTryUses k (.doWrite mreq)).filterMap (·.action mreq) := by
  cases hl : (c.bank.findLine k.org k.g mreq.addr).1 with
  | none =>
    cases hi : c.mshr.canIssue k.mshr mreq.addr <;>
      simp [firstTry, begin, doWriteBegin, readLine, firstTryUses, look, Retry.mreq, hl, hi, addEntry, send, Use.action]
  | some l =>
    cases hs : (((c.bank.findLine k.org k.g mreq.addr).2.updLine l .prefetchNone).mem l).isShared <;>
      cases hllc : k.llc <;>
      simp [firstTry, begin, doWriteBegin, readLine, line, firstTryUses, look, Retry.mreq, hl, hs, hllc, finish, updLine,
        addEntry, send, Use.action]

theorem firstTry_doBusRead_out (c : Cache) (mreq : MemRequest) :
    ∃ c₁, Makes k c c₁ ∧ (c.firstTry k (.doBusRead mreq)).out =
      c₁.out ++ (c.firstTryUses k (.doBusRead mreq)).filterMap (·.action mreq) := by
  have hsame : ∀ b, Makes k c { c with bank := b } := fun _ => .of_out_eq rfl
  cases hl : (c.bank.findLine k.org k.g mreq.addr).1 with
  | none =>
    refine ⟨c, .of_out_eq rfl, ?_⟩
    cases hi : c.mshr.canIssue k.mshr mreq.addr <;>
      simp [firstTry, begin, doBusReadBegin, readLine, firstTryUses, look, Retry.mreq, hl, hi, addEntry, send, Use.action]
  | some l =>
    by_cases hr : mreq.isRead
    · refine ⟨c, .of_out_eq rfl, ?_⟩
      simp [firstTry, begin, doBusReadBegin, readLine, firstTryUses, look, Retry.mreq, hl, hr, finish, send, Use.action]
    by_cases hinc : k.inclusive
    swap
    · refine ⟨c, .of_out_eq rfl, ?_⟩
      simp [firstTry, begin, doBusReadBegin, readLine, firstTryUses, look, Retry.mreq, hl, hr, hinc, finish, updLine,
        send, Use.action]
    set b := (c.bank.findLine k.org k.g mreq.addr).2.updLine l .prefetchNone with hb
    cases hs : ((b.mem l).isShared && mreq.isWrite) with
    | false =>
      refine ⟨_, (hsame b).trans (makes_busReadLine _ mreq l), ?_⟩
      simp [firstTry, begin, doBusReadBegin, readLine, line, firstTryUses, look, Retry.mreq, hl, hr, hinc, ← hb, hs,
        finish, updLine, send, Use.action]
    | true =>
      have hothers := (hsame (b.updLine l invalidate)).trans
        (makes_sendInvalidateOthers _ k.g.lineSize mreq mreq.addr)
      by_cases hup : k.upNode.length ≤ 1
      · cases hllc : k.llc with
        | false =>
          refine ⟨_, hsame (b.updLine l invalidate), ?_⟩
          simp [firstTry, begin, doBusReadBegin, readLine, line, firstTryUses, look, Retry.mreq, hl, hr, hinc, ← hb, hs,
            hllc, sendInvalidateOthers, hup, addEntry, updLine, send, Use.action]
        | true =>
          refine ⟨_, (hsame (b.updLine l invalidate)).trans (makes_busReadLine _ mreq l), ?_⟩
          simp [firstTry, begin, doBusReadBegin, readLine, line, firstTryUses, look, Retry.mreq, hl, hr, hinc, ← hb, hs,
            hllc, sendInvalidateOthers, hup, Nat.not_lt.2 hup, finish, updLine, send, Use.action]
      · refine ⟨_, hothers, ?_⟩
        simp [firstTry, begin, doBusReadBegin, readLine, line, firstTryUses, look, Retry.mreq, hl, hr, hinc, ← hb, hs,
          sendInvalidateOthers, hup, Nat.not_le.1 hup, addEntry, updLine, send, Use.action]

/-- A first try parks the request if that is its use, and nothing else. -/
theorem firstTry_parked (c : Cache) (cb : Retry) :
    (c.firstTry k cb).mshr.parked k.mshr ≤ c.mshr.parked k.mshr + (if .park ∈ c.firstTryUses k cb then {cb} else 0) ∧
      (.park ∈ c.firstTryUses k cb → cb ∈ (c.firstTry k cb).mshr.parked k.mshr) := by
  rcases c.firstTry_cases (k := k) cb with ⟨ho, he⟩ | ⟨ho, he⟩ | ⟨ho, hi, he⟩ | ⟨ho, hi, he⟩
  · have hno : .park ∉ c.firstTryUses k cb := by
      cases cb <;> simp [firstTryUses, ho]
    exact ⟨by rw [he.mshr, if_neg hno, add_zero], fun h => absurd h hno⟩
  · have hno : .park ∉ c.firstTryUses k cb := by
      cases cb <;> simp [firstTryUses, ho]
    exact ⟨by rw [he.mshr, MSHR.parked_addEntry, if_neg hno]; rfl, fun h => absurd h hno⟩
  · have hpark : c.firstTryUses k cb = [.park] := by
      cases cb <;> simp [firstTryUses, ho, hi]
    have hparked : (c.firstTry k cb).mshr.parked k.mshr = c.mshr.parked k.mshr + {cb} := by
      rw [he.mshr, MSHR.parked_addEntry]
      rfl
    rw [hpark]
    exact ⟨by rw [hparked, if_pos List.mem_cons_self], fun _ => by rw [hparked]; simp⟩
  · have hno : .park ∉ c.firstTryUses k cb := by
      cases cb <;> simp [firstTryUses, ho, hi]
    exact ⟨by rw [he.mshr, MSHR.parked_addEntry, if_neg hno]; rfl, fun h => absurd h hno⟩

theorem firstTry_out (c : Cache) (cb : Retry) :
    ∃ c₁, Makes k c c₁ ∧ (c.firstTry k cb).out = c₁.out ++ (c.firstTryUses k cb).filterMap (·.action cb.mreq) := by
  cases cb with
  | doRead mreq => exact ⟨c, .of_out_eq rfl, c.firstTry_doRead_out mreq⟩
  | doWrite mreq => exact ⟨c, .of_out_eq rfl, c.firstTry_doWrite_out mreq⟩
  | doBusRead mreq => exact c.firstTry_doBusRead_out mreq

theorem firstTry_does (c : Cache) (e : Entry) (mreq : MemRequest) :
    Does k e mreq (c.firstTryUses k (retryOf mreq e)) c (c.firstTry k (retryOf mreq e)) := by
  have hmreq : (retryOf mreq e).mreq = mreq := by cases e <;> rfl
  obtain ⟨c₁, hmake, hout⟩ := c.firstTry_out (k := k) (retryOf mreq e)
  rw [hmreq] at hout
  obtain ⟨hparked, hpark⟩ := c.firstTry_parked (k := k) (retryOf mreq e)
  exact ⟨⟨c₁, c₁, hmake, .inl rfl, hout⟩, hparked, hpark⟩

/-- An entry point that ends with one use of the request, other than parking it. -/
theorem Does.single {e : Entry} {c₁ c₂ : Cache} (u : Use) (hu : u ≠ .park) (hmake : Makes k c c₁)
    (hret : c₂ = c₁ ∨ e = .pushUp ∧ c₁.Retires k mreq.addr c₂) (hout : c'.out = c₂.out ++ (u.action mreq).toList)
    (hparked : c'.mshr.parked k.mshr ≤ c.mshr.parked k.mshr) : Does k e mreq [u] c c' := by
  have hno : Use.park ∉ [u] := fun h => hu (List.mem_singleton.1 h).symm
  refine ⟨⟨c₁, c₂, hmake, hret, ?_⟩, by rw [if_neg hno, add_zero]; exact hparked, fun h => absurd h hno⟩
  rw [hout]
  cases ha : u.action mreq <;> simp [ha]

theorem doPushDown_does (c : Cache) (mreq : MemRequest) :
    Does k .pushDown mreq [.destroy] c (c.doPushDown k mreq) := by
  refine .single .destroy (by decide) (.of_out_eq (c := c) rfl) (.inl rfl) ?_ ?_
  · unfold doPushDown
    split
    · rename_i hinv
      simp [send, Use.action, MemRequest.pushedDown, hinv]
    · rename_i hinv
      cases hl : (c.bank.findLine k.org k.g mreq.addr).1 <;> simp [readLine, hl, send, updLine, Use.action, MemRequest.pushedDown, hinv]
  · rw [(c.quiet_doPushDown (k := k) mreq).mshr]

theorem doInvalidate_does (c : Cache) (mreq : MemRequest) :
    Does k .invalidate mreq [.forward (.pushDown 0)] c (c.doInvalidate k mreq) := by
  have hlines : Makes k c (c.invalidateLines k mreq.addr (mreq.lineSize / (k.g.lineSize + 1) + 1)).2 :=
    .of_out_eq (invalidateLines_out c _ _)
  have hsent : ∃ c₁, Makes k c c₁ ∧ (c.doInvalidate k mreq).out = c₁.out ++ [.pushDown mreq] := by
    unfold doInvalidate
    split
    · exact ⟨c, .of_out_eq rfl, rfl⟩
    · simp only
      split
      · exact ⟨_, hlines, rfl⟩
      · exact ⟨_, hlines.trans (makes_sendInvalidateAll _ _ _), rfl⟩
  obtain ⟨c₁, hmake, hout⟩ := hsent
  refine .single _ (by decide) hmake (.inl rfl) hout ?_
  rw [(c.quiet_doInvalidate (k := k) mreq).mshr]

/-- `retire` parks nothing. -/
theorem retires_parked {addr : AddrType} (h : c.Retires k addr c') :
    c'.mshr.parked k.mshr ≤ c.mshr.parked k.mshr := by
  induction h with
  | done hm => rw [MSHR.parked_retireBegin_none hm]
  | @stop c addr cb m hm hstop =>
    obtain ⟨-, he⟩ := begin_stop hstop
    rw [endRetire, MSHR.parked_retireEnd, he.mshr, MSHR.parked_addEntry, MSHR.parked_retireBegin_some hm]
    exact (add_zero _).le.trans (Multiset.le_cons_self _ _)
  | @next c c' addr cb m hm hnext _ ih =>
    obtain ⟨-, he⟩ := begin_next hnext
    rw [endRetire, MSHR.parked_retireEnd, (c'.finish_effect cb).mshr, MSHR.parked_retireBegin_some hm]
    rw [he.mshr] at ih
    exact ih.trans (Multiset.le_cons_self _ _)

theorem doPushUp_does (c : Cache) (mreq : MemRequest) :
    ∃ c', c.doPushUp k mreq = some c' ∧ Does k .pushUp mreq (c.calls k mreq .pushUp) c c' := by
  obtain ⟨c₁, hc₁, hret⟩ := c.doPushUp_retires (k := k) mreq
  have hparked : (c₁.answer k mreq).mshr.parked k.mshr ≤ c.mshr.parked k.mshr := by
    rw [(c₁.answer_effect (k := k) mreq).mshr, ← (c.quiet_fill (k := k) mreq).mshr]
    exact retires_parked hret
  refine ⟨_, hc₁, ?_⟩
  simp only [calls]
  split
  · rename_i hhome
    refine .single .ack (by decide) (makes_fill c mreq) (.inr ⟨rfl, hret⟩) ?_ hparked
    simp only [answer, hhome, if_true, send]
    split <;> rfl
  · rename_i hhome
    refine .single _ (by decide) (makes_fill c mreq) (.inr ⟨rfl, hret⟩) ?_ hparked
    simp only [answer, hhome, Bool.false_eq_true, if_false, send]
    rfl

/-- **The calls are what the cache does**, at every entry point. -/
theorem entry_does (k : CacheConfig) (c : Cache) (mreq : MemRequest) (e : Entry) :
    ∃ c', c.entry k mreq e = some c' ∧ Does k e mreq (c.calls k mreq e) c c' := by
  have hack : ∀ {e : Entry}, Does k e mreq [.ack] c (c.send (.ack mreq)) := fun {e} =>
    .single .ack (by decide) (.of_out_eq (c := c) rfl) (.inl rfl) rfl le_rfl
  cases e with
  | read =>
    refine ⟨_, rfl, ?_⟩
    simp only [calls, read]
    split
    · exact hack
    · exact c.firstTry_does .read mreq
  | write =>
    refine ⟨_, rfl, ?_⟩
    simp only [calls, write]
    split
    · exact hack
    · exact c.firstTry_does .write mreq
  | writeAddress => exact ⟨_, rfl, hack⟩
  | busRead => exact ⟨_, rfl, c.firstTry_does .busRead mreq⟩
  | pushDown => exact ⟨_, rfl, c.doPushDown_does mreq⟩
  | pushUp => exact c.doPushUp_does mreq
  | invalidate => exact ⟨_, rfl, c.doInvalidate_does mreq⟩

end Cache

/-! ## One use -/

/-- An object that takes part: a cache in some state, or a crossbar, which has none. -/
inductive MemObj where
  | cache (k : CacheConfig) (c : Cache)
  | memXBar (x : XBarConfig)
  | unMemXBar (x : XBarConfig)

/-- What an entry point does with the request that it is given. -/
def MemObj.uses (o : MemObj) (e : Entry) (mreq : MemRequest) : List Use :=
  match o with
  | .cache k c => c.uses k mreq e
  | .memXBar x => XBarConfig.uses (x.memXBar mreq e)
  | .unMemXBar x => XBarConfig.uses (x.unMemXBar mreq e)

/-- The entry points that lose a request or complete it twice, and the answers that are not the
last ones their request waits for. -/
def MemObj.slips (o : MemObj) (e : Entry) (mreq : MemRequest) : Bool :=
  match o, e with
  | .cache _ _, .pushDown => 0 < mreq.pushedDown.pending
  | .memXBar _, .writeAddress => mreq.addr = 0
  | .unMemXBar _, .writeAddress => mreq.addr ≠ 0
  | .unMemXBar _, .invalidate => true
  | _, _ => false

theorem Cache.firstTryUses_length (k : CacheConfig) (c : Cache) (cb : Retry) : (c.firstTryUses k cb).length = 1 := by
  unfold firstTryUses
  cases (look k c.bank cb).1 with
  | hit => cases cb <;> rfl
  | upgrade => cases cb <;> rfl
  | miss =>
    simp only
    split <;> rfl

theorem Cache.calls_length (k : CacheConfig) (c : Cache) (mreq : MemRequest) (e : Entry) :
    (c.calls k mreq e).length = 1 := by
  cases e with
  | read | write =>
    simp only [calls]
    split
    · rfl
    · exact firstTryUses_length k c _
  | busRead => exact firstTryUses_length k c _
  | pushUp =>
    simp only [calls]
    split <;> rfl
  | writeAddress | pushDown | invalidate => rfl

theorem Cache.destroy_not_mem_firstTryUses (k : CacheConfig) (c : Cache) (cb : Retry) : .destroy ∉ c.firstTryUses k cb := by
  unfold firstTryUses
  cases (look k c.bank cb).1 with
  | hit => cases cb <;> simp
  | upgrade => cases cb <;> simp
  | miss =>
    simp only
    split <;> simp

/-- Only `pushDown` calls `destroy`. -/
theorem Cache.destroy_not_mem_calls (k : CacheConfig) (c : Cache) (mreq : MemRequest) {e : Entry} (he : e ≠ .pushDown) :
    .destroy ∉ c.calls k mreq e := by
  cases e with
  | read | write =>
    simp only [calls]
    split
    · simp
    · exact destroy_not_mem_firstTryUses k c _
  | busRead => exact destroy_not_mem_firstTryUses k c _
  | pushUp =>
    simp only [calls]
    split <;> simp
  | pushDown => exact absurd rfl he
  | writeAddress | invalidate => simp [calls]

/-- A call other than that of `destroy` is a use. -/
theorem Cache.uses_eq_calls (k : CacheConfig) (c : Cache) (mreq : MemRequest) {e : Entry} (he : e ≠ .pushDown) :
    c.uses k mreq e = c.calls k mreq e := by
  refine List.filter_eq_self.2 fun u hu => ?_
  cases u with
  | destroy => exact absurd hu (c.destroy_not_mem_calls k mreq he)
  | ack | forward hop | park => rfl

theorem Cache.uses_length_iff (k : CacheConfig) (c : Cache) (mreq : MemRequest) (e : Entry) :
    (c.uses k mreq e).length = 1 ↔ (MemObj.cache k c).slips e mreq = false := by
  by_cases he : e = .pushDown
  · subst he
    have hslips : (MemObj.cache k c).slips .pushDown mreq = false ↔ mreq.pushedDown.pending ≤ 0 := by simp [MemObj.slips]
    have huses : c.uses k mreq .pushDown = if mreq.pushedDown.pending ≤ 0 then [.destroy] else [] := by
      simp [uses, calls, Use.counts, List.filter_cons]
    rw [hslips, huses]
    split
    · rename_i hpending
      exact iff_of_true rfl hpending
    · rename_i hpending
      exact iff_of_false (by simp) hpending
  · rw [uses_eq_calls k c mreq he]
    refine iff_of_true (calls_length k c mreq e) ?_
    cases e with
    | pushDown => exact absurd rfl he
    | _ => rfl

/-- **One use of every request.** Whatever the object, its state and the request, an entry point does
exactly one of acknowledging, forwarding, parking and destroying the request that it is given,
once, if and only if it is none of: `MemXBar::writeAddress` of address 0, which acknowledges
twice; `UnMemXBar::writeAddress` of another address and `UnMemXBar::invalidate`, which do
nothing with it; `Cache::pushDown` of a request that waits for answers when it is destroyed. What
the caches are said to call is what their handlers do. -/
theorem one_use_iff (o : MemObj) (e : Entry) (mreq : MemRequest) :
    ((o.uses e mreq).length = 1 ↔ o.slips e mreq = false) ∧
      ∀ (k : CacheConfig) (c : Cache),
        ∃ c', c.entry k mreq e = some c' ∧ Cache.Does k e mreq (c.calls k mreq e) c c' := by
  refine ⟨?_, fun k c => Cache.entry_does k c mreq e⟩
  cases o with
  | cache k c => exact Cache.uses_length_iff k c mreq e
  | memXBar x =>
    cases e with
    | read | write | busRead =>
      simp only [MemObj.uses, MemObj.slips, XBarConfig.memXBar]
      split <;> simp [XBarConfig.uses]
    | writeAddress =>
      simp only [MemObj.uses, MemObj.slips, XBarConfig.memXBar]
      split <;> simp_all [XBarConfig.uses]
    | pushUp =>
      simp only [MemObj.uses, MemObj.slips, XBarConfig.memXBar]
      split <;> simp [XBarConfig.uses]
    | pushDown => exact iff_of_true rfl rfl
    | invalidate =>
      simp only [MemObj.uses, MemObj.slips, XBarConfig.memXBar, XBarConfig.uses_sendInvalidateAll]
      exact iff_of_true rfl trivial
  | unMemXBar x =>
    cases e with
    | read | write | busRead =>
      simp only [MemObj.uses, MemObj.slips, XBarConfig.unMemXBar]
      split <;> simp [XBarConfig.uses]
    | writeAddress =>
      simp only [MemObj.uses, MemObj.slips, XBarConfig.unMemXBar]
      split <;> simp_all [XBarConfig.uses]
    | pushDown | pushUp => exact iff_of_true rfl rfl
    | invalidate =>
      have hnone := x.uses_sendInvalidateAll mreq []
      rw [List.append_nil] at hnone
      simp only [MemObj.uses, MemObj.slips, XBarConfig.unMemXBar, hnone]
      simp [XBarConfig.uses]

/-- A crossbar to four banks. -/
def fourBanks : XBarConfig := ⟨64, 1024, 4, 0, [5, 6]⟩

/-- A store without an address is acknowledged twice by a `MemXBar`, and an invalidate is lost in an
`UnMemXBar`, like a store with an address. The first of two answers to an invalidate is not destroyed
by the cache that it comes to. -/
theorem request_slips :
    (MemObj.memXBar fourBanks).uses .writeAddress { addr := 0, type := .writeAddress, homeNode := 0 } = [.ack, .ack] ∧
      (MemObj.unMemXBar fourBanks).uses .writeAddress { addr := 64, type := .writeAddress, homeNode := 0 } = [] ∧
      (MemObj.unMemXBar fourBanks).uses .invalidate { addr := 64, type := .invalidate, homeNode := 1 } = [] ∧
      ∀ k c, (MemObj.cache k c).uses .pushDown
        { addr := 64, type := .invalidate, homeNode := 1, lineSize := 64, pending := 2 } = [] :=
  ⟨by decide, by decide, by decide, fun _ _ => rfl⟩

end Esesc.Mem
