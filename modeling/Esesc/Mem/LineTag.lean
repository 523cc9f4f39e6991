import Mathlib.Logic.Relation
import Esesc.Suc.CacheInv
import Esesc.Mem.WakeUp

/-!
# A line is invalid exactly when it has no tag

`invalidate` clears the state and the tag of a line, a fill sets the tag and a handler
then sets the state; in between they disagree. Two kinds of step leave them so: a handler
that sets the state of a line it found or filled for tag 0, and a write that goes on with
a Shared line it has just invalidated, which it does in a last-level cache.

* `look_touches`: one request only touches lines, unless it `slips`.
* `retires_touches`: so does `retire`, unless one of the requests it runs slips.
* `state_tag_agree_along`: state and tag agree after every sequence of handlers that do not slip.
* `write_shared_slips`: a write to a Shared line of a last-level cache does not.
-/

namespace Esesc.Mem

open Esesc.Suc Esesc.Lib

/-! ## Sequences of handlers -/

/-- The handlers of a cache. -/
inductive Handler where
  | doRead (mreq : MemRequest)
  | doWrite (mreq : MemRequest)
  | doBusRead (mreq : MemRequest)
  | doPushDown (mreq : MemRequest)
  | doPushUp (mreq : MemRequest)
  | doInvalidate (mreq : MemRequest)
  | ffread (addr : AddrType)
  | ffwrite (addr : AddrType)
  | ffinvalidate (addr : AddrType) (ilineSize : ℕ)
  deriving Repr, DecidableEq

def Handler.exec (k : CacheConfig) (c : Cache) : Handler → Option Cache
  | .doRead mreq => some (c.doRead k mreq)
  | .doWrite mreq => some (c.doWrite k mreq)
  | .doBusRead mreq => some (c.doBusRead k mreq)
  | .doPushDown mreq => some (c.doPushDown k mreq)
  | .doPushUp mreq => c.doPushUp k mreq
  | .doInvalidate mreq => some (c.doInvalidate k mreq)
  | .ffread addr => some (c.ffread k addr)
  | .ffwrite addr => some (c.ffwrite k addr)
  | .ffinvalidate addr ilineSize => some (c.ffinvalidate k addr ilineSize)

/-- State and tag of a line agree. -/
def CState.Agree (s : CState) : Prop := s.state = .I ↔ s.tag = 0

/-- State and tag of every line agree. -/
def StateTagAgree (b : CacheCore CState) : Prop := ∀ l, (b.mem l).Agree

/-! ## Steps that slip -/

/-- The request finds a line and sets its state, though the line has no tag: the tag it asked
for is 0, or the line was Shared, is invalidated and then written without asking below. -/
def slips (k : CacheConfig) (b : CacheCore CState) (cb : Retry) : Bool :=
  match (b.findLine k.org k.g cb.mreq.addr).1, cb with
  | none, _ => false
  | some _, .doRead _ => false
  | some l, .doWrite mreq => k.g.calcTag mreq.addr == 0 || ((b.mem l).isShared && k.llc)
  | some l, .doBusRead mreq => !mreq.isRead && k.inclusive &&
      (k.g.calcTag mreq.addr == 0 ||
        ((b.mem l).isShared && mreq.isWrite && k.llc && decide (k.upNode.length ≤ 1)))

/-- One of the requests slips, of those that are run again one after another as long as
they hit. -/
def slipsAlong (k : CacheConfig) : CacheCore CState → List Retry → Bool
  | _, [] => false
  | b, cb :: cbs => slips k b cb || ((look k b cb).1 == .hit && slipsAlong k (look k b cb).2 cbs)

/-- The handler sets the state of a line without a tag. -/
def Handler.slips (k : CacheConfig) (c : Cache) : Handler → Bool
  | .doRead mreq => Mem.slips k c.bank (.doRead mreq)
  | .doWrite mreq => Mem.slips k c.bank (.doWrite mreq)
  | .doBusRead mreq => Mem.slips k c.bank (.doBusRead mreq)
  | .doPushDown mreq =>
    !mreq.isInvalidate && (c.bank.findLine k.org k.g mreq.addr).1.isSome && k.g.calcTag mreq.addr == 0
  | .doPushUp mreq => k.g.calcTag mreq.addr == 0 ||
      slipsAlong k (c.fill k mreq).bank (c.mshr.queue k.mshr mreq.addr)
  | .ffread addr => (c.bank.findLine k.org k.g addr).1.isNone && k.g.calcTag addr == 0
  | .ffwrite addr => (c.bank.findLine k.org k.g addr).1.isNone && k.g.calcTag addr == 0
  | .doInvalidate _ => false
  | .ffinvalidate _ _ => false

/-! ## One line -/

namespace CState

theorem agree_of_valid {s : CState} (hs : s.state ≠ .I) (ht : s.tag ≠ 0) : s.Agree :=
  ⟨fun h => absurd h hs, fun h => absurd h ht⟩

/-- What requests and invalidates do to a line, one change at a time. Only a line with a tag is
given a state, and only one that is not Shared is written. -/
inductive Touched : CState → CState → Prop
  | prefetchNone (s : CState) : Touched s s.prefetchNone
  | invalidate (s : CState) : Touched s (LineState.invalidate s)
  | setModified {s : CState} (ht : s.tag ≠ 0) (hs : ¬s.isShared = true) : Touched s s.setModified
  | setShared {s : CState} (ht : s.tag ≠ 0) : Touched s s.setShared

theorem Touched.agree {s s' : CState} (h : s.Touched s') (hs : s.Agree) : s'.Agree := by
  cases h with
  | prefetchNone => exact hs
  | invalidate => exact ⟨fun _ => rfl, fun _ => rfl⟩
  | setModified ht _ => exact agree_of_valid (by simp [CState.setModified]) ht
  | setShared ht => exact agree_of_valid (by simp [CState.setShared]) ht

theorem agree_of_touched {s s' : CState} (h : Relation.ReflTransGen Touched s s') (hs : s.Agree) : s'.Agree := by
  induction h with
  | refl => exact hs
  | tail _ ht ih => exact ht.agree ih

end CState

/-- Every line was touched any number of times. -/
def Touches (b b' : CacheCore CState) : Prop :=
  ∀ l, Relation.ReflTransGen CState.Touched (b.mem l) (b'.mem l)

namespace Touches

variable {b b' b'' : CacheCore CState} {l : ℕ} {f : CState → CState}

theorem of_mem_eq (h : b'.mem = b.mem) : Touches b b' := fun l => by
  rw [h]

theorem findLine (b : CacheCore CState) (org : Organisation) (g : Geometry) (addr : AddrType) :
    Touches b (b.findLine org g addr).2 := .of_mem_eq (b.findLine_mem org g addr)

theorem trans (h : Touches b b') (h' : Touches b' b'') : Touches b b'' := fun l => (h l).trans (h' l)

theorem updLine (h : Touches b b') (hf : (b'.mem l).Touched (f (b'.mem l))) : Touches b (b'.updLine l f) := by
  intro l'
  by_cases hl : l' = l
  · subst hl
    rw [CacheCore.updLine_self]
    exact (h l').tail hf
  · rw [show (b'.updLine l f).mem l' = b'.mem l' from Function.update_of_ne hl _ _]
    exact h l'

theorem agree (h : Touches b b') (hb : StateTagAgree b) : StateTagAgree b' :=
  fun l => CState.agree_of_touched (h l) (hb l)

end Touches

namespace StateTagAgree

variable {b : CacheCore CState} {org : Organisation} {g : Geometry} {addr : AddrType} {l : ℕ} {f : CState → CState}

theorem new (r : ℤ) : StateTagAgree (.new r) := fun _ => ⟨fun _ => rfl, fun _ => rfl⟩

theorem findLine (h : StateTagAgree b) (org : Organisation) (g : Geometry) (addr : AddrType) :
    StateTagAgree (b.findLine org g addr).2 := by
  intro l
  rw [CacheCore.findLine_mem]
  exact h l

/-- Only the line that changes has to be looked at. -/
theorem updLine (h : ∀ l', l' ≠ l → (b.mem l').Agree) (hf : (f (b.mem l)).Agree) :
    StateTagAgree (b.updLine l f) := by
  intro l'
  by_cases hl : l' = l
  · subst hl
    rw [CacheCore.updLine_self]
    exact hf
  · rw [show (b.updLine l f).mem l' = b.mem l' from Function.update_of_ne hl _ _]
    exact h l' hl

/-- A line that has a tag may be given any state but `I`. -/
theorem setState (h : StateTagAgree b) (ht : (f (b.mem l)).tag ≠ 0) (hs : (f (b.mem l)).state ≠ .I) :
    StateTagAgree (b.updLine l f) :=
  updLine (fun l' _ => h l') (CState.agree_of_valid hs ht)

/-- A line that is filled, then given a state. -/
theorem fillLine (h : StateTagAgree b) (h0 : g.calcTag addr ≠ 0)
    (hf : ∀ s : CState, (f s).state ≠ .I ∧ (f s).tag = s.tag) :
    StateTagAgree ((b.fillLine org g addr).2.2.updLine (b.fillLine org g addr).1 f) := by
  refine updLine (fun l' hl => ?_) (CState.agree_of_valid (hf _).1 ?_)
  · have hmem : (b.fillLine org g addr).2.2.mem l' = b.mem l' := by
      rw [← CacheCore.findLine2Replace_mem org g b addr]
      exact Function.update_of_ne hl _ _
    rw [hmem]
    exact h l'
  · rw [(hf _).2, CacheCore.fillLine_mem]
    exact h0

end StateTagAgree

/-! ## Requests -/

section Requests

variable {k : CacheConfig} {b : CacheCore CState} {l : ℕ}

/-- The line that a request finds, as its handler sees it. -/
theorem found_line {mreq : MemRequest} (hl : (b.findLine k.org k.g mreq.addr).1 = some l) :
    ((b.findLine k.org k.g mreq.addr).2.updLine l .prefetchNone).mem l = (b.mem l).prefetchNone ∧
      (b.mem l).tag = k.g.calcTag mreq.addr := by
  refine ⟨?_, CacheCore.findLine_tag hl⟩
  rw [CacheCore.updLine_self, CacheCore.findLine_mem]

theorem look_doWrite_touches {mreq : MemRequest} (hl : (b.findLine k.org k.g mreq.addr).1 = some l)
    (hslip : slips k b (.doWrite mreq) = false) : Touches b (look k b (.doWrite mreq)).2 := by
  obtain ⟨h0, hsh⟩ : k.g.calcTag mreq.addr ≠ 0 ∧ ((b.mem l).isShared = true → k.llc = false) := by
    simpa [slips, Retry.mreq, hl] using hslip
  obtain ⟨hline, htag⟩ := found_line hl
  have hpre := (Touches.findLine b k.org k.g mreq.addr).updLine (.prefetchNone ((b.findLine _ _ _).2.mem l))
  simp only [look, Retry.mreq, hl, hline]
  split
  · rename_i hs
    rw [hsh hs]
    exact hpre.updLine (.invalidate _)
  · rename_i hs
    refine hpre.updLine (f := .setModified) ?_
    rw [hline]
    exact .setModified (htag.symm ▸ h0) hs

theorem look_doBusRead_touches {mreq : MemRequest} (hl : (b.findLine k.org k.g mreq.addr).1 = some l)
    (hslip : slips k b (.doBusRead mreq) = false) : Touches b (look k b (.doBusRead mreq)).2 := by
  have hfind := Touches.findLine b k.org k.g mreq.addr
  have hpre := hfind.updLine (.prefetchNone ((b.findLine _ _ _).2.mem l))
  by_cases hr : mreq.isRead
  · simp only [look, Retry.mreq, hl, hr, if_true]
    exact hfind
  by_cases hinc : k.inclusive
  swap
  · simp only [look, Retry.mreq, hl, hr, hinc, if_false, Bool.false_eq_true]
    exact hpre
  obtain ⟨h0, hsh⟩ : k.g.calcTag mreq.addr ≠ 0 ∧
      ((b.mem l).isShared = true → mreq.isWrite = true → k.llc = true → 1 < k.upNode.length) := by
    simpa [slips, Retry.mreq, hl, hr, hinc] using hslip
  obtain ⟨hline, htag⟩ := found_line hl
  rw [← htag] at h0
  simp only [look, Retry.mreq, hl, hr, hinc, hline, if_true, if_false, Bool.false_eq_true]
  by_cases hw : ((b.mem l).prefetchNone.isShared && mreq.isWrite) = true
  · -- the line is invalidated, and asked for below
    obtain ⟨hs, hwr⟩ := Bool.and_eq_true_iff.1 hw
    have hask : (decide (1 < k.upNode.length) || !k.llc) = true := by
      cases hllc : k.llc with
      | false => simp
      | true => simpa using hsh hs hwr hllc
    rw [if_pos hw, if_pos hask]
    exact hpre.updLine (.invalidate _)
  · rw [if_neg hw, lookLine]
    split
    · rename_i hwr
      refine hpre.updLine (f := .setModified) ?_
      rw [hline]
      exact .setModified h0 fun hs => hw (Bool.and_eq_true_iff.2 ⟨hs, hwr⟩)
    · refine hpre.updLine (f := .setShared) ?_
      rw [hline]
      exact .setShared h0

/-- **One request** touches the line it finds, unless it slips. -/
theorem look_touches {cb : Retry} (hslip : slips k b cb = false) : Touches b (look k b cb).2 := by
  have hfind := Touches.findLine b k.org k.g cb.mreq.addr
  cases hl : (b.findLine k.org k.g cb.mreq.addr).1 with
  | none =>
    simp only [look, hl]
    exact hfind
  | some l =>
    cases cb with
    | doRead mreq =>
      simp only [look, hl]
      exact hfind.updLine (.prefetchNone _)
    | doWrite mreq => exact look_doWrite_touches hl hslip
    | doBusRead mreq => exact look_doBusRead_touches hl hslip

end Requests

/-! ## `retire` -/

section Mapped

variable {k : MSHRConfig} {m m' : MSHR Retry} {addr : AddrType} {cb : Retry}

theorem mapped_create (t : MSHRType) : (MSHR.create k t).Mapped k := by
  cases t with
  | full =>
    intro p cb h
    cases h
  | blocking => trivial
  | none => trivial

namespace MSHR.Mapped

theorem addEntry (h : m.Mapped k) (o : Option Retry) (ho : ∀ cb ∈ o, k.calcEntry cb.mreq.addr = k.calcEntry addr) :
    (m.addEntry k addr o).Mapped k := by
  cases m with
  | blocking q => trivial
  | none q => trivial
  | full m =>
    intro p cb hmem
    simp only [FullMSHR.addEntry] at hmem
    by_cases hp : p = k.calcEntry addr
    · subst hp
      rw [Function.update_self] at hmem
      rcases List.mem_append.1 hmem with hmem | hmem
      · exact h _ cb hmem
      · exact ho cb (Option.mem_toList.1 hmem)
    · rw [Function.update_of_ne hp] at hmem
      exact h p cb hmem

theorem retireBegin {o : Option Retry} (h : m.Mapped k) (hm : m.retireBegin k addr = (o, m')) : m'.Mapped k := by
  cases m with
  | blocking q =>
    obtain ⟨q', rfl, -⟩ := MSHR.blocking_retireBegin hm
    trivial
  | none q =>
    obtain ⟨q', rfl, -⟩ := MSHR.none_retireBegin hm
    trivial
  | full m =>
    obtain ⟨m1, rfl, hr⟩ := MSHR.full_retireBegin hm
    intro p cb hmem
    rcases FullMSHR.retireBegin_cases hr with ⟨-, -, rfl⟩ | ⟨-, -, -, hm1⟩ | ⟨cb', cc, -, -, hcc, hm1⟩
    · exact h p cb hmem
    · rw [hm1] at hmem
      by_cases hp : p = k.calcEntry addr
      · rw [hp, Function.update_self] at hmem
        cases hmem
      · rw [Function.update_of_ne hp] at hmem
        exact h p cb hmem
    · rw [hm1] at hmem
      by_cases hp : p = k.calcEntry addr
      · subst hp
        rw [Function.update_self] at hmem
        exact h _ cb (by rw [hcc]; exact List.mem_cons_of_mem _ hmem)
      · rw [Function.update_of_ne hp] at hmem
        exact h p cb hmem

theorem retireEnd (h : m.Mapped k) (addr : AddrType) : (m.retireEnd k addr).Mapped k := by
  cases m with
  | blocking q => trivial
  | none q => trivial
  | full m =>
    intro p cb hmem
    rw [FullMSHR.retireEnd_entry] at hmem
    split at hmem
    · by_cases hp : p = k.calcEntry addr
      · rw [hp, Function.update_self] at hmem
        cases hmem
      · rw [Function.update_of_ne hp] at hmem
        exact h p cb hmem
    · exact h p cb hmem

end MSHR.Mapped

end Mapped

section Runs

variable {k : CacheConfig} {c c' : Cache} {addr : AddrType}

/-- State and tag agree, and parked requests are where they map. -/
structure Cache.Agrees (k : CacheConfig) (c : Cache) : Prop where
  bank : StateTagAgree c.bank
  mshr : c.mshr.Mapped k.mshr

theorem agrees_new (k : CacheConfig) : (Cache.new k).Agrees k := ⟨.new 0, mapped_create _⟩

/-- `retire` leaves parked requests where they map. -/
theorem retires_mapped (h : c.Retires k addr c') (hm : c.mshr.Mapped k.mshr) : c'.mshr.Mapped k.mshr := by
  induction h with
  | done hb => exact hm.retireBegin hb
  | @stop c addr cb m hb hstop =>
    obtain ⟨-, he⟩ := Cache.begin_stop hstop
    rw [Cache.endRetire, he.mshr]
    exact ((hm.retireBegin hb).addEntry none (by simp)).retireEnd addr
  | @next c c' addr cb m hb hnext _ ih =>
    obtain ⟨-, he⟩ := Cache.begin_next hnext
    rw [Cache.endRetire, (c'.finish_effect cb).mshr]
    exact (ih (he.mshr ▸ hm.retireBegin hb)).retireEnd addr

/-- **`retire`** touches the lines of the requests that it runs, unless one of them slips. -/
theorem retires_touches (h : c.Retires k addr c') (hm : c.mshr.Mapped k.mshr)
    (hslip : slipsAlong k c.bank (c.mshr.queue k.mshr addr) = false) : Touches c.bank c'.bank := by
  induction h with
  | done hb => exact .of_mem_eq rfl
  | @stop c addr cb m hb hstop =>
    rw [hm.queue_some hb] at hslip
    obtain ⟨hcb, -⟩ := Bool.or_eq_false_iff.1 hslip
    obtain ⟨-, he⟩ := Cache.begin_stop hstop
    rw [Cache.endRetire, he.bank]
    exact look_touches hcb
  | @next c c' addr cb m hb hnext _ ih =>
    rw [hm.queue_some hb] at hslip
    obtain ⟨hcb, hcbs⟩ := Bool.or_eq_false_iff.1 hslip
    obtain ⟨hhit, he⟩ := Cache.begin_next hnext
    rw [he.bank, he.mshr] at ih
    have hrest : slipsAlong k (look k c.bank cb).2 (m.queue k.mshr cb.mreq.addr) = false := by
      simpa [show (look k c.bank cb).1 = .hit from hhit] using hcbs
    rw [Cache.endRetire, (c'.finish_effect cb).bank]
    exact (look_touches hcb).trans (ih (hm.retireBegin hb) hrest)

/-! ## Handlers -/

/-- The state `doPushUp` leaves a line in. -/
def fillState (mreq : MemRequest) (s : CState) : CState :=
  let s := if mreq.isWrite then s.setModified else s.setExclusive
  if mreq.coreID ≠ 0 ∧ mreq.prefetch then s.prefetchPcore.setShared
  else if mreq.prefetch then s.prefetchHardware
  else s.prefetchNone

theorem fillState_valid (mreq : MemRequest) (s : CState) :
    (fillState mreq s).state ≠ .I ∧ (fillState mreq s).tag = s.tag := by
  unfold fillState
  split <;> split <;> (try split) <;> exact ⟨nofun, rfl⟩

theorem updLine_updLine (b : CacheCore CState) (l : ℕ) (f g : CState → CState) :
    (b.updLine l f).updLine l g = b.updLine l fun s => g (f s) := by
  simp only [CacheCore.updLine, Function.update_self, Function.update_idem]

/-- What `doPushUp` does to the array before `retire`. -/
theorem fill_bank_eq (c : Cache) (mreq : MemRequest) :
    (c.fill k mreq).bank =
      match c.bank.findLine k.org k.g mreq.addr with
      | (some l, b) => b.updLine l (fillState mreq)
      | (none, b) => (b.fillLine k.org k.g mreq.addr).2.2.updLine (b.fillLine k.org k.g mreq.addr).1
          fun s => fillState mreq s.setExtraBit := by
  have hline : ∀ (c : Cache) (l : ℕ),
      (let c := if mreq.isWrite then c.updLine l .setModified else c.updLine l .setExclusive
       if mreq.coreID ≠ 0 ∧ mreq.prefetch then (c.updLine l .prefetchPcore).updLine l .setShared
       else if mreq.prefetch then c.updLine l .prefetchHardware
       else c.updLine l .prefetchNone).bank = c.bank.updLine l (fillState mreq) := by
    intro c l
    unfold fillState
    simp only [Cache.updLine]
    split <;> split <;> (try split) <;> simp only [updLine_updLine]
  unfold Cache.fill
  rcases hl : c.bank.findLine k.org k.g mreq.addr with ⟨_ | l, b⟩
  · simp only [Cache.readLine, hl]
    rw [hline, Cache.allocateLine_bank]
    exact updLine_updLine _ _ _ _
  · simp only [Cache.readLine, hl]
    exact hline _ l

theorem fill_agree (hc : c.Agrees k) (mreq : MemRequest) (h0 : k.g.calcTag mreq.addr ≠ 0) :
    (c.fill k mreq).Agrees k := by
  refine ⟨?_, by rw [(c.quiet_fill mreq).mshr]; exact hc.mshr⟩
  have hfind := hc.bank.findLine k.org k.g mreq.addr
  rw [fill_bank_eq]
  rcases hl : c.bank.findLine k.org k.g mreq.addr with ⟨_ | l, b⟩
  · rw [hl] at hfind
    exact hfind.fillLine h0 fun s => fillState_valid mreq s.setExtraBit
  · rw [hl] at hfind
    have htag : (c.bank.mem l).tag = k.g.calcTag mreq.addr := CacheCore.findLine_tag (congrArg Prod.fst hl)
    have hmem : b.mem = c.bank.mem := by rw [← c.bank.findLine_mem k.org k.g mreq.addr, hl]
    refine hfind.setState ?_ (fillState_valid mreq _).1
    rw [(fillState_valid mreq _).2, hmem, htag]
    exact h0

theorem firstTry_mapped (hm : c.mshr.Mapped k.mshr) (cb : Retry) : (c.firstTry k cb).mshr.Mapped k.mshr := by
  rcases c.firstTry_cases (k := k) cb with ⟨-, he⟩ | ⟨-, he⟩ | ⟨-, -, he⟩ | ⟨-, -, he⟩
  · exact he.mshr ▸ hm
  · exact he.mshr ▸ hm.addEntry none (by simp)
  · exact he.mshr ▸ hm.addEntry (some cb) (by simp)
  · exact he.mshr ▸ hm.addEntry none (by simp)

theorem firstTry_touches (cb : Retry) (hslip : slips k c.bank cb = false) :
    Touches c.bank (c.firstTry k cb).bank := by
  have hlook := look_touches hslip
  rcases c.firstTry_cases (k := k) cb with ⟨-, he⟩ | ⟨-, he⟩ | ⟨-, -, he⟩ | ⟨-, -, he⟩ <;> exact he.bank ▸ hlook

theorem invalidateLines_touches (c : Cache) (addr : AddrType) (n : ℕ) :
    Touches c.bank (c.invalidateLines k addr n).2.bank := by
  induction n generalizing c addr with
  | zero => exact .of_mem_eq rfl
  | succ n ih =>
    have hfind := Touches.findLine c.bank k.org k.g addr
    cases hl : (c.bank.findLine k.org k.g addr).1 with
    | some l =>
      simp only [Cache.invalidateLines, Cache.readLine, hl]
      refine Touches.trans ?_ (ih _ _)
      exact hfind.updLine (.invalidate _)
    | none =>
      simp only [Cache.invalidateLines, Cache.readLine, hl]
      refine Touches.trans ?_ (ih _ _)
      exact hfind

theorem doInvalidate_touches (c : Cache) (mreq : MemRequest) : Touches c.bank (c.doInvalidate k mreq).bank := by
  have hlines := invalidateLines_touches (k := k) c mreq.addr (mreq.lineSize / (k.g.lineSize + 1) + 1)
  unfold Cache.doInvalidate
  split
  · exact .of_mem_eq rfl
  · simp only
    split
    · exact hlines
    · simp only [Cache.send, Cache.sendInvalidateAll]
      split <;> exact hlines

theorem doPushDown_agree (hc : StateTagAgree c.bank) (mreq : MemRequest)
    (hslip : (Handler.doPushDown mreq).slips k c = false) : StateTagAgree (c.doPushDown k mreq).bank := by
  have hfind := hc.findLine k.org k.g mreq.addr
  unfold Cache.doPushDown
  by_cases hinv : mreq.isInvalidate
  · rw [if_pos hinv]
    exact hc
  rw [if_neg hinv]
  cases hl : (c.bank.findLine k.org k.g mreq.addr).1 with
  | none =>
    simp only [Cache.readLine, hl]
    exact hfind
  | some l =>
    have h0 : k.g.calcTag mreq.addr ≠ 0 := by simpa [Handler.slips, hinv, hl] using hslip
    have htag : (c.bank.mem l).tag = k.g.calcTag mreq.addr := CacheCore.findLine_tag hl
    simp only [Cache.readLine, hl]
    refine hfind.setState (f := .setModified) ?_ (by simp [CState.setModified])
    rw [CacheCore.findLine_mem]
    exact htag ▸ h0

theorem ffaccess_agree (hc : StateTagAgree c.bank) {f : CState → CState}
    (hf : ∀ s : CState, (f s).state ≠ .I ∧ (f s).tag = s.tag) (addr : AddrType)
    (hslip : ((c.bank.findLine k.org k.g addr).1.isNone && k.g.calcTag addr == 0) = false) :
    StateTagAgree (c.ffaccess k f addr).bank := by
  have hfind := hc.findLine k.org k.g addr
  unfold Cache.ffaccess
  cases hl : (c.bank.findLine k.org k.g addr).1 with
  | some l =>
    simp only [Cache.readLine, hl]
    exact hfind
  | none =>
    have h0 : k.g.calcTag addr ≠ 0 := by simpa [hl] using hslip
    simp only [Cache.readLine, hl]
    exact hfind.fillLine h0 hf

/-- Every handler leaves parked requests where they map. -/
theorem exec_mapped (c : Cache) (op : Handler) (c' : Cache) (h : op.exec k c = some c')
    (hm : c.mshr.Mapped k.mshr) : c'.mshr.Mapped k.mshr := by
  cases op with
  | doRead mreq | doWrite mreq | doBusRead mreq =>
    obtain rfl := Option.some.inj h
    exact firstTry_mapped hm _
  | doPushUp mreq =>
    obtain ⟨c1, hc1, hret⟩ := c.doPushUp_retires (k := k) mreq
    obtain rfl : c1.answer k mreq = c' := Option.some.inj (hc1.symm.trans h)
    rw [(c1.answer_effect (k := k) mreq).mshr]
    exact retires_mapped hret (by rw [(c.quiet_fill mreq).mshr]; exact hm)
  | doPushDown mreq =>
    obtain rfl := Option.some.inj h
    rw [(c.quiet_doPushDown mreq).mshr]
    exact hm
  | doInvalidate mreq =>
    obtain rfl := Option.some.inj h
    rw [(c.quiet_doInvalidate mreq).mshr]
    exact hm
  | ffread addr | ffwrite addr =>
    obtain rfl := Option.some.inj h
    exact (c.quiet_ffaccess (k := k) _ addr).mshr ▸ hm
  | ffinvalidate addr ilineSize =>
    obtain rfl := Option.some.inj h
    exact (c.quiet_invalidateLines (k := k) addr _).mshr ▸ hm

theorem exec_agree (c : Cache) (op : Handler) (c' : Cache) (h : op.exec k c = some c') (hslip : op.slips k c = false)
    (hc : c.Agrees k) : c'.Agrees k := by
  refine ⟨?_, exec_mapped c op c' h hc.mshr⟩
  cases op with
  | doRead mreq | doWrite mreq | doBusRead mreq =>
    obtain rfl := Option.some.inj h
    exact (firstTry_touches _ hslip).agree hc.bank
  | doPushDown mreq =>
    obtain rfl := Option.some.inj h
    exact doPushDown_agree hc.bank mreq hslip
  | doPushUp mreq =>
    obtain ⟨h0, hq⟩ := Bool.or_eq_false_iff.1 hslip
    obtain ⟨c1, hc1, hret⟩ := c.doPushUp_retires (k := k) mreq
    obtain rfl : c1.answer k mreq = c' := Option.some.inj (hc1.symm.trans h)
    have hfill := fill_agree hc mreq (by simpa using h0)
    have htouch := retires_touches hret hfill.mshr (by rw [(c.quiet_fill mreq).mshr]; exact hq)
    rw [(c1.answer_effect (k := k) mreq).bank]
    exact htouch.agree hfill.bank
  | doInvalidate mreq =>
    obtain rfl := Option.some.inj h
    exact (doInvalidate_touches c mreq).agree hc.bank
  | ffread addr =>
    obtain rfl := Option.some.inj h
    exact ffaccess_agree hc.bank (f := .setShared) (fun s => ⟨nofun, rfl⟩) addr hslip
  | ffwrite addr =>
    obtain rfl := Option.some.inj h
    exact ffaccess_agree hc.bank (f := .setExclusive) (fun s => ⟨nofun, rfl⟩) addr hslip
  | ffinvalidate addr ilineSize =>
    obtain rfl := Option.some.inj h
    exact (invalidateLines_touches c addr _).agree hc.bank

/-- **State and tag agree** in every line after every sequence of handlers none of which
slips. -/
theorem state_tag_agree_along (k : CacheConfig) (ops : List Handler) (c : Cache)
    (h : run (Handler.exec k) (Cache.new k) ops = some c)
    (hops : Along (Handler.exec k) (fun c op => op.slips k c = false) (Cache.new k) ops) (l : ℕ) :
    (c.bank.mem l).state = .I ↔ getTag (c.bank.mem l) = 0 := by
  have hc : c.Agrees k := run_inv_along (I := Cache.Agrees k) exec_agree h hops (agrees_new k)
  exact hc.bank l

end Runs

/-- A last-level cache of sixteen lines. -/
def smallLLC : CacheConfig := { smallL1 with mshr := ⟨4, 64, 4, by decide, by decide⟩, llc := true }

/-- A write homed at `smallLLC`. -/
def writeReq (addr : AddrType) : MemRequest := { addr := addr, type := .write, homeNode := 0 }

/-- A write that misses and is answered, then one that hits the line it brought in. -/
def writeTwice : List Handler := [.doWrite (writeReq 64), .doPushUp (writeReq 64), .doWrite (writeReq 64)]

theorem state_tag_agree_along_writeTwice :
    ∃ c, run (Handler.exec smallLLC) (Cache.new smallLLC) writeTwice = some c ∧
      (c.bank.mem 1).state = .M ∧ ((c.bank.mem 1).state = .I ↔ getTag (c.bank.mem 1) = 0) := by
  have hrun : ((run (Handler.exec smallLLC) (Cache.new smallLLC) writeTwice).any fun c =>
      decide ((c.bank.mem 1).state = .M)) = true := by decide +kernel
  obtain ⟨c, hc, hm⟩ := (Option.any_eq_true _ _).1 hrun
  exact ⟨c, hc, of_decide_eq_true hm, state_tag_agree_along smallLLC writeTwice c hc (by decide +kernel) 1⟩

/-- A fast-forward read, and a write to the line that it leaves Shared. -/
def writeShared : List Handler := [.ffread 64, .doWrite (writeReq 64)]

/-- The write of `writeShared` invalidates the line, then marks it Modified. -/
theorem write_shared_slips :
    ∃ c, run (Handler.exec smallLLC) (Cache.new smallLLC) writeShared = some c ∧
      (c.bank.mem 1).state = .M ∧ getTag (c.bank.mem 1) = 0 ∧
      ¬((c.bank.mem 1).state = .I ↔ getTag (c.bank.mem 1) = 0) := by
  have hrun : ((run (Handler.exec smallLLC) (Cache.new smallLLC) writeShared).any fun c =>
      decide ((c.bank.mem 1).state = .M ∧ getTag (c.bank.mem 1) = 0)) = true := by decide +kernel
  obtain ⟨c, hc, hd⟩ := (Option.any_eq_true _ _).1 hrun
  obtain ⟨hm, ht⟩ := of_decide_eq_true hd
  refine ⟨c, hc, hm, ht, fun hiff => ?_⟩
  rw [hm] at hiff
  exact absurd (hiff.2 ht) nofun

end Esesc.Mem
