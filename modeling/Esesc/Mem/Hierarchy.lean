import Esesc.Mem.Cover
import Esesc.Mem.LinearUse

/-!
# Caches that share a lower level

Several caches, the siblings, sit above one inclusive cache. Requests go down and answers come
up as messages that are delivered in any order; `MRouter` finds the sibling on the way to a
request's home node. What is above the siblings and what is below the shared cache is the
environment: it makes requests and writes lines back, and answers what is forwarded to it.

A sibling keeps a line that it has, or that an answer is bringing, unless an invalidate of it is
on the way. It comes to keep one when the shared cache answers it, when it fills the line itself,
in fast-forward mode, or when the invalidate arrives ahead of the answer. The shared cache answers
a read from its own copy and does not ask the other siblings.

* `Touches.tame`: requests, first tried or run again, and invalidates give a sibling nothing.
* `exec_pushUps`: the requests that a handler answers are those that hit.
* `keeps_of_step`: a sibling comes to keep only the lines that a step gives it.
* `coherent_along`: once nothing is in flight the siblings are coherent, if no line is given to
  one of them while another keeps it.
* `readers_own_line`: two siblings that read a line both end up with it Exclusive.
-/

namespace Esesc.Mem

open Esesc.Suc Esesc.Lib

/-! ## The hierarchy -/

/-- The caches of a hierarchy. Siblings are named as the shared cache names them, and have
lines of the same size. -/
structure Hierarchy where
  sib : ℕ → CacheConfig
  low : CacheConfig
  self_sib : ∀ i ∈ low.upNode, (sib i).self = i
  inclusive : low.inclusive = true
  sameLine : ∀ i j a, (sib i).g.calcTag a = (sib j).g.calcTag a

/-- Messages between the siblings and the shared cache, and requests to the level below it. -/
inductive Msg where
  | busRead (mreq : MemRequest)
  | pushDown (mreq : MemRequest)
  | pushUp (i : ℕ) (mreq : MemRequest)
  | invalidate (i : ℕ) (mreq : MemRequest)
  | memory (mreq : MemRequest)
  deriving Repr, DecidableEq

structure Hier where
  sib : ℕ → Cache
  low : Cache
  flight : Multiset Msg

inductive Hier.Event where
  /-- A request, a writeback or a fast-forward access comes to sibling `i` from above. -/
  | above (i : ℕ) (op : Handler)
  | deliver (m : Msg)

/-- What a sibling sends to the shared cache. Acknowledgements and what goes to the objects
above it leave the hierarchy. -/
def sentBelow (out : List Action) : List Msg :=
  out.filterMap fun
    | .busRead mreq => some (.busRead mreq)
    | .pushDown mreq => some (.pushDown mreq)
    | _ => none

namespace Hierarchy

variable (H : Hierarchy)

/-- The sibling that `MRouter::fwdPushUp` sends an answer to. -/
def route (mreq : MemRequest) : ℕ :=
  if 1 < H.low.upNode.length then H.low.upMap mreq.homeNode else H.low.upNode.headD 0

/-- What the shared cache sends. Its writebacks leave the hierarchy. -/
def sentByLow (out : List Action) : List Msg :=
  out.filterMap fun
    | .busRead mreq => some (.memory mreq)
    | .pushUp mreq => some (.pushUp (H.route mreq) mreq)
    | .invalidate i mreq => some (.invalidate i mreq)
    | _ => none

/-- What comes from above: requests that are not prefetches, and for addresses other than 0
where the processor makes them directly; writebacks and acknowledged invalidates; fast-forward
accesses. -/
def fromAbove : Handler → Bool
  | .doRead mreq => mreq.isRead && !mreq.prefetch && mreq.addr != 0
  | .doWrite mreq => mreq.isWrite && !mreq.prefetch && mreq.addr != 0
  | .doBusRead mreq => (mreq.isRead || mreq.isWrite) && !mreq.prefetch
  | .doPushDown _ => true
  | .ffread _ => true
  | .ffwrite _ => true
  | .ffinvalidate _ _ => true
  | .doPushUp _ => false
  | .doInvalidate _ => false

/-- A fast-forward access that misses goes on at the shared cache. -/
def ffBelow (c low : Cache) (k : CacheConfig) : Handler → Cache
  | .ffread addr => if (c.bank.findLine k.org k.g addr).1.isNone then low.ffread H.low addr else low
  | .ffwrite addr => if (c.bank.findLine k.org k.g addr).1.isNone then low.ffwrite H.low addr else low
  | _ => low

/-- A handler runs at sibling `i`. -/
def stepSib (s : Hier) (i : ℕ) (op : Handler) : Option Hier :=
  (op.exec (H.sib i) (s.sib i).idle).map fun c =>
    { sib := Function.update s.sib i c
      low := H.ffBelow (s.sib i) s.low (H.sib i) op
      flight := s.flight + sentBelow c.out }

/-- A handler runs at the shared cache. -/
def stepLow (s : Hier) (op : Handler) : Option Hier :=
  (op.exec H.low s.low.idle).map fun c => { s with low := c, flight := s.flight + H.sentByLow c.out }

def step (s : Hier) : Hier.Event → Option Hier
  | .above i op => if i ∈ H.low.upNode ∧ fromAbove op = true then H.stepSib s i op else none
  | .deliver m =>
    if m ∈ s.flight then
      let s := { s with flight := s.flight - {m} }
      match m with
      | .pushUp i mreq => H.stepSib s i (.doPushUp mreq)
      | .invalidate i mreq => H.stepSib s i (.doInvalidate mreq)
      | .busRead mreq => H.stepLow s (.doBusRead mreq)
      | .pushDown mreq => H.stepLow s (.doPushDown mreq)
      | .memory mreq => H.stepLow s (.doPushUp mreq)
    else none

def new : Hier := ⟨fun i => .new (H.sib i), .new H.low, 0⟩

end Hierarchy

/-! ## What a sibling has -/

/-- The line may be written without asking. -/
def CState.owned (s : CState) : Prop := s.state = .M ∨ s.state = .E

instance (s : CState) : Decidable s.owned := inferInstanceAs (Decidable (_ ∨ _))

/-- What is left of a line when nothing is gained: the same tag, and no more rights. -/
structure CState.Below (s' s : CState) : Prop where
  valid : s'.state ≠ .I → s.state ≠ .I ∧ s'.tag = s.tag
  owned : s'.owned → s.owned

namespace CState.Below

variable {s s' s'' : CState}

theorem refl (s : CState) : s.Below s := ⟨fun h => ⟨h, rfl⟩, id⟩

theorem trans (h : s'.Below s) (h' : s''.Below s') : s''.Below s := by
  refine ⟨fun hv => ?_, fun ho => h.owned (h'.owned ho)⟩
  obtain ⟨hv', ht'⟩ := h'.valid hv
  obtain ⟨hv, ht⟩ := h.valid hv'
  exact ⟨hv, ht'.trans ht⟩

/-- An invalid line has nothing. -/
theorem of_invalid (h : s'.state = .I) : s'.Below s := by
  refine ⟨fun hv => absurd h hv, fun ho => ?_⟩
  rcases ho with hm | he
  · rw [h] at hm
    cases hm
  · rw [h] at he
    cases he

/-- A line that is owned may be written. -/
theorem of_owned (hs : s.owned) (ht : s'.tag = s.tag) : s'.Below s := by
  refine ⟨fun _ => ⟨?_, ht⟩, fun _ => hs⟩
  rcases hs with hm | he
  · rw [hm]
    nofun
  · rw [he]
    nofun

end CState.Below

/-- No line has more than before. -/
def Tame (b b' : CacheCore CState) : Prop := ∀ l, (b'.mem l).Below (b.mem l)

/-- No line has more than before, but lines of tag `t`. -/
def Fills (t : AddrType) (b b' : CacheCore CState) : Prop :=
  ∀ l, (b'.mem l).Below (b.mem l) ∨ (b'.mem l).tag = t

section Tame

variable {k : CacheConfig} {b b' b'' : CacheCore CState} {c c' : Cache} {addr t : AddrType} {l : ℕ}
  {f : CState → CState}

theorem Tame.of_mem_eq (h : b'.mem = b.mem) : Tame b b' := fun l => by
  rw [h]
  exact .refl _

theorem Tame.updLine (h : Tame b b') (hf : (f (b'.mem l)).Below (b'.mem l)) : Tame b (b'.updLine l f) := by
  intro l'
  by_cases hl : l' = l
  · subst hl
    rw [CacheCore.updLine_self]
    exact (h l').trans hf
  · rw [show (b'.updLine l f).mem l' = b'.mem l' from Function.update_of_ne hl _ _]
    exact h l'

theorem Tame.findLine (b : CacheCore CState) (org : Organisation) (g : Geometry) (addr : AddrType) :
    Tame b (b.findLine org g addr).2 := .of_mem_eq (b.findLine_mem org g addr)

theorem Tame.fills (h : Tame b b') (t : AddrType) : Fills t b b' := fun l => .inl (h l)

theorem Fills.tame (h : Fills t b b') (h' : Tame b' b'') : Fills t b b'' := by
  intro l
  rcases h l with hl | ht
  · exact .inl (hl.trans (h' l))
  · by_cases hv : (b''.mem l).state = .I
    · exact .inl (.of_invalid hv)
    · exact .inr (((h' l).valid hv).2.trans ht)

end Tame

/-! ## Handlers that give nothing -/

section Handlers

variable {k : CacheConfig} {b : CacheCore CState} {c c' : Cache} {addr : AddrType} {l : ℕ}

/-- A valid line that is not Shared is owned. -/
theorem owned_of_not_shared {s : CState} (hs : ¬s.isShared = true) (hv : s.state ≠ .I) : s.owned := by
  cases hst : s.state with
  | M => exact .inl hst
  | E => exact .inr hst
  | S => exact absurd (by rw [CState.isShared, hst]; rfl) hs
  | I => exact absurd hst hv

/-- A line with a tag is valid. -/
theorem valid_of_tag {s : CState} (h : s.Agree) (ht : s.tag ≠ 0) : s.state ≠ .I := fun hI => ht (h.1 hI)

theorem CState.Touched.below {s s' : CState} (h : s.Touched s') (hs : s.Agree) : s'.Below s := by
  cases h with
  | prefetchNone => exact ⟨fun hv => ⟨hv, rfl⟩, id⟩
  | invalidate => exact .of_invalid rfl
  | setModified ht hsh => exact .of_owned (owned_of_not_shared hsh (valid_of_tag hs ht)) rfl
  | setShared ht => exact ⟨fun _ => ⟨valid_of_tag hs ht, rfl⟩, fun ho => by rcases ho with h | h <;> cases h⟩

theorem below_of_touched {s s' : CState} (h : Relation.ReflTransGen CState.Touched s s') (hs : s.Agree) :
    s'.Below s := by
  induction h with
  | refl => exact .refl _
  | tail hpre ht ih => exact ih.trans (ht.below (CState.agree_of_touched hpre hs))

/-- **Requests and invalidates give nothing.** They keep the rights to a line, or give them
back. -/
theorem Touches.tame {b' : CacheCore CState} (h : Touches b b') (hb : StateTagAgree b) : Tame b b' :=
  fun l => below_of_touched (h l) (hb l)

/-! ## Fills -/

theorem Fills.updLine {b' : CacheCore CState} {t : AddrType} {f : CState → CState} (h : Fills t b b')
    (hf : (f (b'.mem l)).tag = t) : Fills t b (b'.updLine l f) := by
  intro l'
  by_cases hl : l' = l
  · subst hl
    rw [CacheCore.updLine_self]
    exact .inr hf
  · rw [show (b'.updLine l f).mem l' = b'.mem l' from Function.update_of_ne hl _ _]
    exact h l'

theorem fillLine_fills (b : CacheCore CState) (org : Organisation) (g : Geometry) (addr : AddrType) :
    Fills (g.calcTag addr) b (b.fillLine org g addr).2.2 := by
  have hpick := Tame.of_mem_eq (b.findLine2Replace_mem org g addr)
  exact (hpick.fills _).updLine (f := (setTag · (g.calcTag addr))) rfl

theorem Tame.fills_trans {b' b'' : CacheCore CState} {t : AddrType} (h : Tame b b') (h' : Fills t b' b'') :
    Fills t b b'' := by
  intro l
  rcases h' l with hl | ht
  · exact .inl ((h l).trans hl)
  · exact .inr ht

/-- An answer fills the line that it is for. -/
theorem fill_fills (c : Cache) (mreq : MemRequest) :
    Fills (k.g.calcTag mreq.addr) c.bank (c.fill k mreq).bank := by
  have hfind := Tame.findLine c.bank k.org k.g mreq.addr
  rw [fill_bank_eq]
  rcases hl : c.bank.findLine k.org k.g mreq.addr with ⟨_ | l, b⟩
  · rw [hl] at hfind
    refine Fills.updLine (hfind.fills_trans (fillLine_fills b k.org k.g mreq.addr)) ?_
    rw [(fillState_valid mreq _).2, CState.setExtraBit, CacheCore.fillLine_mem]
    rfl
  · rw [hl] at hfind
    have htag : (c.bank.mem l).tag = k.g.calcTag mreq.addr := CacheCore.findLine_tag (congrArg Prod.fst hl)
    have hmem : b.mem = c.bank.mem := by rw [← c.bank.findLine_mem k.org k.g mreq.addr, hl]
    refine Fills.updLine (hfind.fills _) ?_
    rw [(fillState_valid mreq _).2, hmem]
    exact htag

/-- The line that is found for an address is Shared. -/
def sharedHere (k : CacheConfig) (c : Cache) (addr : AddrType) : Bool :=
  match (c.bank.findLine k.org k.g addr).1 with
  | some l => (c.bank.mem l).isShared
  | none => false

/-- A writeback gives the right to write a line only if it finds the line Shared. -/
theorem doPushDown_fills (c : Cache) (mreq : MemRequest) :
    Fills (k.g.calcTag mreq.addr) c.bank (c.doPushDown k mreq).bank := by
  have hfind := Tame.findLine c.bank k.org k.g mreq.addr
  unfold Cache.doPushDown
  split
  · exact (Tame.of_mem_eq rfl).fills _
  · cases hl : (c.bank.findLine k.org k.g mreq.addr).1 with
    | none =>
      simp only [Cache.readLine, hl]
      exact hfind.fills _
    | some l =>
      simp only [Cache.readLine, hl]
      refine Fills.updLine (f := .setModified) (hfind.fills _) ?_
      rw [CacheCore.findLine_mem]
      exact CacheCore.findLine_tag hl

theorem doPushDown_tame (hc : StateTagAgree c.bank) (mreq : MemRequest)
    (hslip : (Handler.doPushDown mreq).slips k c = false)
    (hsh : (!mreq.isInvalidate && sharedHere k c mreq.addr) = false) :
    Tame c.bank (c.doPushDown k mreq).bank := by
  have hfind := Tame.findLine c.bank k.org k.g mreq.addr
  unfold Cache.doPushDown
  by_cases hinv : mreq.isInvalidate
  · rw [if_pos hinv]
    exact .of_mem_eq rfl
  rw [if_neg hinv]
  cases hl : (c.bank.findLine k.org k.g mreq.addr).1 with
  | none =>
    simp only [Cache.readLine, hl]
    exact hfind
  | some l =>
    have h0 : k.g.calcTag mreq.addr ≠ 0 := by simpa [Handler.slips, hinv, hl] using hslip
    have hs : ¬(c.bank.mem l).isShared = true := by simpa [sharedHere, hinv, hl] using hsh
    simp only [Cache.readLine, hl]
    refine hfind.updLine (f := .setModified) (.of_owned ?_ rfl)
    rw [CacheCore.findLine_mem]
    refine owned_of_not_shared hs (valid_of_tag (hc l) ?_)
    rw [show (c.bank.mem l).tag = k.g.calcTag mreq.addr from CacheCore.findLine_tag hl]
    exact h0

/-- A fast-forward access fills the line on a miss, with the state that `f` sets. -/
theorem ffaccess_lines {f : CState → CState} (hf : ∀ s : CState, (f s).tag = s.tag) (c : Cache) (addr : AddrType)
    (l : ℕ) :
    ((c.ffaccess k f addr).bank.mem l).Below (c.bank.mem l) ∨
      (c.bank.findLine k.org k.g addr).1 = none ∧ ((c.ffaccess k f addr).bank.mem l).tag = k.g.calcTag addr ∧
        ∃ s, (c.ffaccess k f addr).bank.mem l = f s := by
  have hfind := Tame.findLine c.bank k.org k.g addr
  unfold Cache.ffaccess
  cases hl : (c.bank.findLine k.org k.g addr).1 with
  | some l' =>
    simp only [Cache.readLine, hl]
    exact .inl (hfind l)
  | none =>
    simp only [Cache.readLine, hl]
    set b := (c.bank.findLine k.org k.g addr).2
    have hfill : ∀ l', l' ≠ (b.fillLine k.org k.g addr).1 →
        (b.fillLine k.org k.g addr).2.2.mem l' = b.mem l' := by
      intro l' hne
      rw [← b.findLine2Replace_mem k.org k.g addr]
      exact Function.update_of_ne hne _ _
    by_cases he : l = (b.fillLine k.org k.g addr).1
    · subst he
      right
      rw [CacheCore.updLine_self, hf, CacheCore.fillLine_mem]
      exact ⟨trivial, rfl, _, rfl⟩
    · left
      rw [show ((b.fillLine k.org k.g addr).2.2.updLine (b.fillLine k.org k.g addr).1 f).mem l =
        (b.fillLine k.org k.g addr).2.2.mem l from Function.update_of_ne he _ _, hfill l he]
      exact hfind l

/-- The address whose line a handler may give to the cache. -/
def Handler.fillsAddr (k : CacheConfig) (c : Cache) : Handler → Option AddrType
  | .doPushUp mreq => some mreq.addr
  | .doPushDown mreq => if !mreq.isInvalidate && sharedHere k c mreq.addr then some mreq.addr else none
  | .ffread addr => if (c.bank.findLine k.org k.g addr).1.isNone then some addr else none
  | .ffwrite addr => if (c.bank.findLine k.org k.g addr).1.isNone then some addr else none
  | _ => none

/-- The line is given for reading only. -/
def Handler.fillsShared : Handler → Bool
  | .ffread _ => true
  | _ => false

/-- **What a handler gives**: at most the line of `fillsAddr`. -/
theorem exec_lines {op : Handler} (h : op.exec k c = some c') (hc : c.Agrees k) (hslip : op.slips k c = false)
    (l : ℕ) :
    (c'.bank.mem l).Below (c.bank.mem l) ∨
      ∃ addr, op.fillsAddr k c = some addr ∧ (c'.bank.mem l).tag = k.g.calcTag addr ∧
        (op.fillsShared = true → ¬(c'.bank.mem l).owned) := by
  cases op with
  | doRead mreq | doWrite mreq | doBusRead mreq =>
    obtain rfl := Option.some.inj h
    exact .inl ((firstTry_touches _ hslip).tame hc.bank l)
  | doPushDown mreq =>
    obtain rfl := Option.some.inj h
    -- a push down that shares the line fills it again
    by_cases hsh : (!mreq.isInvalidate && sharedHere k c mreq.addr) = true
    · rcases doPushDown_fills (k := k) c mreq l with hl | ht
      · exact .inl hl
      · exact .inr ⟨mreq.addr, if_pos hsh, ht, fun hf => absurd hf Bool.false_ne_true⟩
    · exact .inl (doPushDown_tame hc.bank mreq hslip (Bool.eq_false_iff.2 hsh) l)
  | doPushUp mreq =>
    -- the fill, and then the parked requests that it lets go on
    obtain ⟨h0, hq⟩ := Bool.or_eq_false_iff.1 hslip
    obtain ⟨c1, hc1, hret⟩ := c.doPushUp_retires (k := k) mreq
    obtain rfl : c1.answer k mreq = c' := Option.some.inj (hc1.symm.trans h)
    have hfill := fill_agree hc mreq (by simpa using h0)
    have htouch := retires_touches hret hfill.mshr (by rw [(c.quiet_fill mreq).mshr]; exact hq)
    rw [(c1.answer_effect (k := k) mreq).bank]
    rcases (fill_fills (k := k) c mreq).tame (htouch.tame hfill.bank) l with hl | ht
    · exact .inl hl
    · exact .inr ⟨mreq.addr, rfl, ht, fun hf => absurd hf Bool.false_ne_true⟩
  | doInvalidate mreq =>
    obtain rfl := Option.some.inj h
    exact .inl ((doInvalidate_touches c mreq).tame hc.bank l)
  | ffread addr =>
    obtain rfl := Option.some.inj h
    rcases ffaccess_lines (k := k) (f := .setShared) (fun _ => rfl) c addr l with hl | ⟨hmiss, ht, s, hs⟩
    · exact .inl hl
    · refine .inr ⟨addr, by simp [Handler.fillsAddr, hmiss], ht, fun _ ho => ?_⟩
      rw [Cache.ffread, hs] at ho
      rcases ho with ho | ho <;> cases ho
  | ffwrite addr =>
    obtain rfl := Option.some.inj h
    rcases ffaccess_lines (k := k) (f := .setExclusive) (fun _ => rfl) c addr l with hl | ⟨hmiss, ht, -⟩
    · exact .inl hl
    · exact .inr ⟨addr, by simp [Handler.fillsAddr, hmiss], ht, fun hf => absurd hf Bool.false_ne_true⟩
  | ffinvalidate addr ilineSize =>
    obtain rfl := Option.some.inj h
    exact .inl ((invalidateLines_touches c addr _).tame hc.bank l)

end Handlers

/-! ## What a handler answers -/

section Answers

variable {k : CacheConfig} {c c' : Cache} {addr : AddrType}

/-- The requests pushed up. -/
def pushUps (out : List Action) : List MemRequest :=
  out.filterMap fun | .pushUp mreq => some mreq | _ => none

@[simp] theorem pushUps_append (as bs : List Action) : pushUps (as ++ bs) = pushUps as ++ pushUps bs :=
  List.filterMap_append

/-- The request is pushed up once it hits. -/
def Retry.up : Retry → List MemRequest
  | .doBusRead mreq => [mreq]
  | _ => []

/-- The requests pushed up, of those that are run again one after another as long as they hit. -/
def upAlong (k : CacheConfig) : CacheCore CState → List Retry → List MemRequest
  | _, [] => []
  | b, cb :: cbs => if (look k b cb).1 = .hit then cb.up ++ upAlong k (look k b cb).2 cbs else []

/-- The requests that a handler answers: the one that it is given, if that hits or comes from
below, and the parked ones that are run again and hit. -/
def Handler.answers (k : CacheConfig) (c : Cache) : Handler → List MemRequest
  | .doBusRead mreq => if (look k c.bank (.doBusRead mreq)).1 = .hit then [mreq] else []
  | .doPushUp mreq =>
    upAlong k (c.fill k mreq).bank (c.mshr.queue k.mshr mreq.addr) ++ if k.isHomeNode mreq then [] else [mreq]
  | _ => []

theorem Cache.Makes.pushUps (h : Cache.Makes k c c') : pushUps c'.out = pushUps c.out := by
  obtain ⟨made, hmade, hout⟩ := h
  have hnone : Mem.pushUps made = [] := by
    refine List.filterMap_eq_nil_iff.2 fun a ha => ?_
    cases hmade a ha <;> rfl
  rw [hout, pushUps_append, hnone, List.append_nil]

/-- What an entry point pushes up, apart from answers to parked requests. -/
theorem Cache.Does.pushUps {e : Entry} {mreq : MemRequest} {us : List Use} (h : Cache.Does k e mreq us c c')
    (he : e ≠ .pushUp) (hus : Mem.pushUps (us.filterMap (·.action mreq)) = []) :
    Mem.pushUps c'.out = Mem.pushUps c.out := by
  obtain ⟨c₁, c₂, hmake, hret, hout⟩ := h.out
  obtain rfl : c₂ = c₁ := hret.resolve_right fun h => he h.1
  rw [hout, pushUps_append, hmake.pushUps, hus, List.append_nil]

theorem firstTry_pushUps (c : Cache) (cb : Retry) : pushUps (c.firstTry k cb).out =
    pushUps c.out ++ if (look k c.bank cb).1 = .hit then cb.up else [] := by
  obtain ⟨c₁, hmake, hout⟩ := c.firstTry_out (k := k) cb
  rw [hout, pushUps_append, hmake.pushUps]
  congr 1
  cases hlk : (look k c.bank cb).1 with
  | hit => cases cb <;> simp [Cache.firstTryUses, hlk, Use.action, pushUps, Retry.up, Retry.mreq]
  | upgrade => cases cb <;> simp [Cache.firstTryUses, hlk, Use.action, pushUps]
  | miss => cases cb <;> simp only [Cache.firstTryUses, hlk] <;> split <;> simp [Use.action, pushUps]

theorem doBusReadBegin_pushUps (c : Cache) (mreq : MemRequest) : pushUps (c.doBusReadBegin k mreq true).2.out =
    pushUps c.out ++ if (look k c.bank (.doBusRead mreq)).1 = .hit then [mreq] else [] := by
  have htry := firstTry_pushUps (k := k) c (.doBusRead mreq)
  cases hl : (c.bank.findLine k.org k.g mreq.addr).1 with
  | none =>
    simp [Cache.doBusReadBegin, Cache.readLine, look, Retry.mreq, hl, Cache.addEntry, Cache.send, pushUps]
  | some l =>
    -- a request that finds its line does the same when it is run again
    have hsame : c.doBusReadBegin k mreq true = c.doBusReadBegin k mreq false := by
      simp only [Cache.doBusReadBegin, Cache.readLine, hl]
    rw [hsame]
    have hfin : ∀ c : Cache, c.finish (.doBusRead mreq) = c := fun _ => rfl
    rwa [Cache.firstTry, hfin, ite_self] at htry

/-- What a handler pushes up when it is run again. -/
theorem begin_pushUps (c : Cache) (cb : Retry) : pushUps (c.begin k cb true).2.out =
    pushUps c.out ++ if (look k c.bank cb).1 = .hit then cb.up else [] := by
  cases cb with
  | doBusRead mreq => exact doBusReadBegin_pushUps c mreq
  | doRead mreq =>
    cases hl : (c.bank.findLine k.org k.g mreq.addr).1 <;>
      simp [Cache.begin, Cache.doReadBegin, Cache.readLine, hl, Cache.addEntry, Cache.send, Cache.updLine, pushUps, Retry.up]
  | doWrite mreq =>
    cases hl : (c.bank.findLine k.org k.g mreq.addr).1 with
    | none =>
      simp [Cache.begin, Cache.doWriteBegin, Cache.readLine, hl, Cache.addEntry, Cache.send, pushUps, Retry.up]
    | some l =>
      cases hs : (((c.bank.findLine k.org k.g mreq.addr).2.updLine l .prefetchNone).mem l).isShared <;> cases hllc : k.llc <;>
        simp [Cache.begin, Cache.doWriteBegin, Cache.readLine, Cache.line, Cache.updLine, hl, hs, hllc, Cache.addEntry,
          Cache.send, pushUps, Retry.up]

/-- `retire` answers no request but those that are run again and hit. -/
theorem retires_pushUps (h : c.Retires k addr c') (hm : c.mshr.Mapped k.mshr) :
    pushUps c'.out ⊆ pushUps c.out ++ upAlong k c.bank (c.mshr.queue k.mshr addr) := by
  induction h with
  | done hb => exact List.subset_append_left _ _
  | @stop c addr cb m hb hstop =>
    have hbegin := begin_pushUps (k := k) { c with mshr := m } cb
    rw [if_neg (Cache.begin_stop hstop).1, List.append_nil] at hbegin
    rw [Cache.endRetire, hbegin]
    exact List.subset_append_left _ _
  | @next c c' addr cb m hb hnext _ ih =>
    obtain ⟨hhit, he⟩ := Cache.begin_next hnext
    have hbegin := begin_pushUps (k := k) { c with mshr := m } cb
    rw [if_pos hhit] at hbegin
    rw [he.bank, he.mshr, hbegin, List.append_assoc] at ih
    have hfin : pushUps (c'.finish cb).out = pushUps c'.out := by
      cases cb <;> simp [Cache.finish, Cache.send, pushUps]
    rw [hm.queue_some hb, upAlong, if_pos hhit, Cache.endRetire, hfin]
    exact ih (hm.retireBegin hb)

/-- **What a handler answers.** -/
theorem exec_pushUps {op : Handler} (h : op.exec k c = some c') (hm : c.mshr.Mapped k.mshr) :
    pushUps c'.out ⊆ pushUps c.out ++ op.answers k c := by
  have hsame : pushUps c'.out = pushUps c.out → pushUps c'.out ⊆ pushUps c.out ++ op.answers k c := by
    intro he
    rw [he]
    exact List.subset_append_left _ _
  cases op with
  | doRead mreq | doWrite mreq =>
    obtain rfl := Option.some.inj h
    refine hsame ((firstTry_pushUps c _).trans ?_)
    simp [Retry.up]
  | doBusRead mreq =>
    obtain rfl := Option.some.inj h
    rw [Cache.doBusRead, firstTry_pushUps]
    exact fun r hr => hr
  | doPushDown mreq =>
    obtain rfl := Option.some.inj h
    exact hsame <| (Cache.doPushDown_does (k := k) c mreq).pushUps (by decide) rfl
  | doPushUp mreq =>
    obtain ⟨c1, hc1, hret⟩ := c.doPushUp_retires (k := k) mreq
    obtain rfl : c1.answer k mreq = c' := Option.some.inj (hc1.symm.trans h)
    have hfill := (Cache.makes_fill (k := k) c mreq).pushUps
    have hmshr := (c.quiet_fill (k := k) mreq).mshr
    have hrun := retires_pushUps hret (by rw [hmshr]; exact hm)
    have hans : pushUps (c1.answer k mreq).out = pushUps c1.out ++ if k.isHomeNode mreq then [] else [mreq] := by
      unfold Cache.answer
      split
      · split <;> simp [Cache.send, pushUps]
      · simp [Cache.send, pushUps]
    rw [hfill, hmshr] at hrun
    rw [hans]
    intro r hr
    rw [Handler.answers, ← List.append_assoc]
    rcases List.mem_append.1 hr with hr | hr
    · exact List.mem_append_left _ (hrun hr)
    · exact List.mem_append_right _ hr
  | doInvalidate mreq =>
    obtain rfl := Option.some.inj h
    exact hsame <| (Cache.doInvalidate_does (k := k) c mreq).pushUps (by decide) rfl
  | ffread addr | ffwrite addr =>
    obtain rfl := Option.some.inj h
    refine hsame (congrArg pushUps ?_)
    simp only [Cache.ffread, Cache.ffwrite, Cache.ffaccess, Cache.readLine]
    cases (c.bank.findLine k.org k.g addr).1 <;> rfl
  | ffinvalidate addr ilineSize =>
    obtain rfl := Option.some.inj h
    exact hsame (congrArg pushUps (Cache.invalidateLines_out c addr _))

end Answers

/-! ## What a sibling holds -/

/-- The cache holds the line of an address. -/
def Cache.holds (k : CacheConfig) (c : Cache) (addr : AddrType) : Prop :=
  ∃ l < k.g.numLines, (c.bank.mem l).tag = k.g.calcTag addr ∧ (c.bank.mem l).state ≠ .I

/-- The cache holds the line of an address Modified or Exclusive. -/
def Cache.owns (k : CacheConfig) (c : Cache) (addr : AddrType) : Prop :=
  ∃ l < k.g.numLines, (c.bank.mem l).tag = k.g.calcTag addr ∧ (c.bank.mem l).owned

instance (k : CacheConfig) (c : Cache) (addr : AddrType) : Decidable (c.holds k addr) :=
  inferInstanceAs (Decidable (∃ l < _, _))

instance (k : CacheConfig) (c : Cache) (addr : AddrType) : Decidable (c.owns k addr) :=
  inferInstanceAs (Decidable (∃ l < _, _))

/-- The cache holds the line of an address; if `own`, it owns it. -/
def Cache.has (own : Bool) (k : CacheConfig) (c : Cache) (addr : AddrType) : Prop :=
  if own then c.owns k addr else c.holds k addr

instance (own : Bool) (k : CacheConfig) (c : Cache) (addr : AddrType) : Decidable (c.has own k addr) :=
  inferInstanceAs (Decidable (if own then _ else _))

section Holding

variable {k : CacheConfig} {c c' : Cache} {op : Handler} {own : Bool} {a addr : AddrType}

theorem owned_valid {st : CState} (h : st.owned) : st.state ≠ .I := by
  intro hI
  rcases h with h | h <;> rw [hI] at h <;> cases h

theorem holds_of_owns (h : c.owns k addr) : c.holds k addr := by
  obtain ⟨l, hl, ht, ho⟩ := h
  exact ⟨l, hl, ht, owned_valid ho⟩

theorem holds_of_has (h : c.has own k addr) : c.holds k addr := by
  cases own with
  | true => exact holds_of_owns h
  | false => exact h

/-- Addresses of one line are held together. -/
theorem has_congr (h : k.g.calcTag addr = k.g.calcTag a) : c.has own k addr ↔ c.has own k a := by
  unfold Cache.has Cache.owns Cache.holds
  rw [h]

/-- What a cache has after a handler, it had before, or the handler fills it. -/
theorem has_of_exec (h : op.exec k c = some c') (hc : c.Agrees k) (hslip : op.slips k c = false)
    (hh : c'.has own k addr) :
    c.has own k addr ∨ ∃ a, op.fillsAddr k c = some a ∧ k.g.calcTag addr = k.g.calcTag a ∧
      (own = true → op.fillsShared = false) := by
  cases own with
  | true =>
    obtain ⟨l, hl, ht, hown⟩ := hh
    rcases exec_lines h hc hslip l with hbelow | ⟨a, ha, hta, hsh⟩
    · obtain ⟨-, ht'⟩ := hbelow.valid (owned_valid hown)
      exact .inl ⟨l, hl, ht'.symm.trans ht, hbelow.owned hown⟩
    · exact .inr ⟨a, ha, ht.symm.trans hta, fun _ => Bool.eq_false_iff.2 fun h => hsh h hown⟩
  | false =>
    obtain ⟨l, hl, ht, hv⟩ := hh
    rcases exec_lines h hc hslip l with hbelow | ⟨a, ha, hta, -⟩
    · obtain ⟨hv', ht'⟩ := hbelow.valid hv
      exact .inl ⟨l, hl, ht'.symm.trans ht, hv'⟩
    · exact .inr ⟨a, ha, ht.symm.trans hta, nofun⟩

/-- The lines that an invalidate looks for. -/
def MemRequest.covers (k : CacheConfig) (mreq : MemRequest) (addr : AddrType) : Prop :=
  Visited k mreq.addr (mreq.lineSize / (k.g.lineSize + 1) + 1) (k.g.calcTag addr)

instance (k : CacheConfig) (mreq : MemRequest) (addr : AddrType) : Decidable (mreq.covers k addr) :=
  inferInstanceAs (Decidable (∃ i < _, _))

/-- An inclusive cache does not hold a line after an invalidate of it. -/
theorem not_holds_of_doInvalidate {mreq : MemRequest} (hinc : k.inclusive = true) (hok : BankOk k c.bank)
    (hagree : StateTagAgree c.bank) (hcov : mreq.covers k addr) : ¬(c.doInvalidate k mreq).holds k addr := by
  rintro ⟨l, hl, ht, hv⟩
  have hafter := (doInvalidate_touches (k := k) c mreq).agree hagree
  have h0 : k.g.calcTag addr ≠ 0 := fun h0 => hv ((hafter l).2 (ht.trans h0))
  have hspec := invalidateLines_spec c hok mreq.addr (mreq.lineSize / (k.g.lineSize + 1) + 1)
  rw [doInvalidate_bank hinc] at ht
  exact hspec.gone _ hcov h0 l hl ht

end Holding

/-! ## Coherence -/

namespace Hierarchy

variable (H : Hierarchy)

/-- No line that a sibling holds is owned by another. -/
def Coherent (s : Hier) : Prop :=
  ∀ i ∈ H.low.upNode, ∀ j ∈ H.low.upNode, i ≠ j → ∀ addr,
    ¬((s.sib i).owns (H.sib i) addr ∧ (s.sib j).holds (H.sib j) addr)

/-- The message brings the line of an address to sibling `j`. -/
def brings (j : ℕ) (addr : AddrType) : Msg → Prop
  | .pushUp i mreq => i = j ∧ (H.sib j).g.calcTag addr = (H.sib j).g.calcTag mreq.addr
  | _ => False

/-- The message takes the line of an address from sibling `j`. A cache that is not inclusive
only acknowledges it. -/
def removes (j : ℕ) (addr : AddrType) : Msg → Prop
  | .invalidate i mreq => i = j ∧ (H.sib j).inclusive = true ∧ mreq.covers (H.sib j) addr
  | _ => False

instance (j : ℕ) (addr : AddrType) : DecidablePred (H.brings j addr)
  | .pushUp _ _ => inferInstanceAs (Decidable (_ ∧ _))
  | .busRead _ | .pushDown _ | .invalidate _ _ | .memory _ => inferInstanceAs (Decidable False)

instance (j : ℕ) (addr : AddrType) : DecidablePred (H.removes j addr)
  | .invalidate _ _ => inferInstanceAs (Decidable (_ ∧ _))
  | .busRead _ | .pushDown _ | .pushUp _ _ | .memory _ => inferInstanceAs (Decidable False)

/-- Sibling `j` has the line of an address, and owns it if `own`, or is about to get it, and
no invalidate of it is on the way. -/
def Keeps (s : Hier) (own : Bool) (j : ℕ) (addr : AddrType) : Prop :=
  ((s.sib j).has own (H.sib j) addr ∨ ∃ m ∈ s.flight, H.brings j addr m) ∧ ∀ m ∈ s.flight, ¬H.removes j addr m

instance (s : Hier) (own : Bool) (j : ℕ) (addr : AddrType) : Decidable (H.Keeps s own j addr) :=
  have : Decidable (∃ m ∈ s.flight, H.brings j addr m) := Multiset.decidableExistsMultiset
  inferInstanceAs (Decidable ((_ ∨ _) ∧ _))

/-- The sibling that an event is for, with the handler it runs there. -/
def handler : Hier.Event → Option (ℕ × Handler)
  | .above i op => some (i, op)
  | .deliver (.pushUp i mreq) => some (i, .doPushUp mreq)
  | .deliver (.invalidate i mreq) => some (i, .doInvalidate mreq)
  | .deliver _ => none

/-- The handler that an event runs at the shared cache. -/
def lowHandler : Hier.Event → Option Handler
  | .deliver (.busRead mreq) => some (.doBusRead mreq)
  | .deliver (.pushDown mreq) => some (.doPushDown mreq)
  | .deliver (.memory mreq) => some (.doPushUp mreq)
  | _ => none

/-- What a handler of the shared cache answers, with the siblings that it answers. -/
def answered (s : Hier) (op : Handler) : Multiset (ℕ × AddrType) :=
  (op.answers H.low s.low.idle).map fun mreq => (H.route mreq, mreq.addr)

/-- The answers that an invalidate arrives ahead of. -/
def overtaken (s : Hier) (i : ℕ) (mreq : MemRequest) : Multiset (ℕ × AddrType) :=
  s.flight.filterMap fun
    | .pushUp j mreq' => if j = i ∧ mreq.covers (H.sib i) mreq'.addr then some (i, mreq'.addr) else none
    | _ => none

/-- The lines that an event gives to siblings: what the shared cache answers, what a sibling fills
on its own, and what an answer brings that is left behind by an invalidate. -/
def gives (s : Hier) : Hier.Event → Multiset (ℕ × AddrType)
  | .above i op => (op.fillsAddr (H.sib i) (s.sib i).idle).toList.map fun addr => (i, addr)
  | .deliver (.busRead mreq) => H.answered s (.doBusRead mreq)
  | .deliver (.memory mreq) => H.answered s (.doPushUp mreq)
  | .deliver (.invalidate i mreq) => H.overtaken s i mreq
  | .deliver (.pushDown _) => 0
  | .deliver (.pushUp _ _) => 0

/-- The event gives a line for reading only. -/
def readOnly : Hier.Event → Bool
  | .above _ op => op.fillsShared
  | .deliver _ => false

/-- A line is given to one sibling only, and no other sibling keeps it; if it is given for reading
only, none keeps it as its owner. -/
def Alone (s : Hier) (ev : Hier.Event) : Prop :=
  ∀ x ∈ H.gives s ev,
    (∀ j ∈ H.low.upNode, j ≠ x.1 → ¬H.Keeps s (readOnly ev) j x.2) ∧
    ∀ y ∈ H.gives s ev, y.1 ≠ x.1 → (H.sib x.1).g.calcTag y.2 ≠ (H.sib x.1).g.calcTag x.2

/-- A handler of a sibling leaves a line valid without a tag. -/
def slips (s : Hier) (ev : Hier.Event) : Bool :=
  match handler ev with
  | none => false
  | some (i, op) => op.slips (H.sib i) (s.sib i).idle

/-- The event gives no line to a sibling while another keeps it, and does not slip. -/
def Careful (s : Hier) (ev : Hier.Event) : Prop := H.Alone s ev ∧ H.slips s ev = false

instance (s : Hier) (ev : Hier.Event) : Decidable (H.Careful s ev) :=
  inferInstanceAs (Decidable ((∀ x ∈ _, _) ∧ _))

/-- What is in flight while an event is handled. -/
def rest (s : Hier) : Hier.Event → Multiset Msg
  | .above _ _ => s.flight
  | .deliver m => s.flight - {m}

end Hierarchy

section Runs

variable {H : Hierarchy} {s s' : Hier} {ev : Hier.Event} {own : Bool} {i j : ℕ} {a addr : AddrType}

theorem Hierarchy.ffBelow_mshr (c low : Cache) (k : CacheConfig) (op : Handler) :
    (H.ffBelow c low k op).mshr = low.mshr := by
  cases op <;> simp only [Hierarchy.ffBelow] <;> split
  all_goals first | rfl | exact (low.quiet_ffaccess (k := H.low) _ _).mshr

/-- A step runs a handler at one sibling, or at the shared cache. -/
theorem Hierarchy.step_cases (h : H.step s ev = some s') :
    (∃ i op c, handler ev = some (i, op) ∧ op.exec (H.sib i) (s.sib i).idle = some c ∧
      s'.sib = Function.update s.sib i c ∧ s'.low.mshr = s.low.mshr ∧ s'.flight = rest s ev + sentBelow c.out) ∨
    ∃ op c, lowHandler ev = some op ∧ op.exec H.low s.low.idle = some c ∧ s'.sib = s.sib ∧ s'.low = c ∧
      s'.flight = rest s ev + H.sentByLow c.out := by
  have hsib : ∀ {s0 : Hier} {i : ℕ} {op : Handler}, H.stepSib s0 i op = some s' → s0.sib = s.sib → s0.low = s.low →
      ∃ c, op.exec (H.sib i) (s.sib i).idle = some c ∧ s'.sib = Function.update s.sib i c ∧
        s'.low.mshr = s.low.mshr ∧ s'.flight = s0.flight + sentBelow c.out := by
    intro s0 i op hs h0 hl0
    obtain ⟨c, hc, rfl⟩ := Option.map_eq_some_iff.1 hs
    rw [h0] at hc
    exact ⟨c, hc, by rw [← h0], by rw [← hl0]; exact Hierarchy.ffBelow_mshr _ _ _ _, rfl⟩
  have hlow : ∀ {s0 : Hier} {op : Handler}, H.stepLow s0 op = some s' → s0.sib = s.sib → s0.low = s.low →
      ∃ c, op.exec H.low s.low.idle = some c ∧ s'.sib = s.sib ∧ s'.low = c ∧
        s'.flight = s0.flight + H.sentByLow c.out := by
    intro s0 op hs h0 hl0
    obtain ⟨c, hc, rfl⟩ := Option.map_eq_some_iff.1 hs
    rw [hl0] at hc
    exact ⟨c, hc, h0, rfl, rfl⟩
  cases ev with
  | above i op =>
    simp only [Hierarchy.step, Option.ite_none_right_eq_some] at h
    obtain ⟨c, hc, hs⟩ := hsib h.2 rfl rfl
    exact .inl ⟨i, op, c, rfl, hc, hs⟩
  | deliver m =>
    simp only [Hierarchy.step, Option.ite_none_right_eq_some] at h
    cases m with
    | busRead mreq | pushDown mreq | memory mreq =>
      obtain ⟨c, hc, hs⟩ := hlow h.2 rfl rfl
      exact .inr ⟨_, c, rfl, hc, hs⟩
    | pushUp i mreq | invalidate i mreq =>
      obtain ⟨c, hc, hs⟩ := hsib h.2 rfl rfl
      exact .inl ⟨i, _, c, rfl, hc, hs⟩

theorem Hierarchy.mem_of_mem_rest {m : Msg} (h : m ∈ rest s ev) : m ∈ s.flight := by
  cases ev with
  | above i op => exact h
  | deliver m' => exact Multiset.mem_of_le (Multiset.sub_le_self _ _) h

/-- A message stays in flight until it is delivered. -/
theorem Hierarchy.mem_rest_or {m : Msg} (h : m ∈ s.flight) : m ∈ rest s ev ∨ ev = .deliver m := by
  cases ev with
  | above i op => exact .inl h
  | deliver m' =>
    by_cases he : m = m'
    · exact .inr (by rw [he])
    · left
      rw [Hierarchy.rest, Multiset.sub_singleton]
      exact (Multiset.mem_erase_of_ne he).2 h

theorem Hierarchy.mem_flight_of_step {m : Msg} (h : H.step s (.deliver m) = some s') : m ∈ s.flight := by
  rw [Hierarchy.step] at h
  exact (Option.ite_none_right_eq_some.1 h).1

/-- Siblings answer nobody. -/
theorem Hierarchy.not_brings_sentBelow {m : Msg} {out : List Action} (h : m ∈ sentBelow out) : ¬H.brings j addr m := by
  obtain ⟨act, -, hact⟩ := List.mem_filterMap.1 h
  cases act <;> cases hact <;> exact id

theorem Hierarchy.brings_sentByLow {m : Msg} {out : List Action} (h : m ∈ H.sentByLow out) (hb : H.brings j addr m) :
    ∃ mreq ∈ pushUps out, m = .pushUp (H.route mreq) mreq := by
  obtain ⟨act, hmem, hact⟩ := List.mem_filterMap.1 h
  cases act with
  | pushUp mreq =>
    obtain rfl := Option.some.inj hact
    exact ⟨mreq, List.mem_filterMap.2 ⟨_, hmem, rfl⟩, rfl⟩
  | busRead mreq | invalidate i mreq =>
    obtain rfl := Option.some.inj hact
    exact hb.elim
  | ack mreq | pushDown mreq | destroy mreq => cases hact

theorem Hierarchy.gives_of_lowHandler {op : Handler} (h : lowHandler ev = some op) :
    H.gives s ev = H.answered s op := by
  cases ev with
  | above i op => cases h
  | deliver m => cases m <;> cases h <;> rfl

/-- Invariant of a careful run. -/
structure Hierarchy.Ok (H : Hierarchy) (s : Hier) : Prop where
  agrees : ∀ i, (s.sib i).Agrees (H.sib i)
  bankOk : ∀ i, BankOk (H.sib i) (s.sib i).bank
  mapped : s.low.mshr.Mapped H.low.mshr
  apart : ∀ i ∈ H.low.upNode, ∀ j ∈ H.low.upNode, i ≠ j → ∀ addr, ¬(H.Keeps s true i addr ∧ H.Keeps s false j addr)

/-- A step of the shared cache makes siblings keep what it answers. -/
theorem Hierarchy.keeps_of_low {op : Handler} {c : Cache} (hs : H.Ok s) (hop : lowHandler ev = some op)
    (hc : op.exec H.low s.low.idle = some c) (hsib : s'.sib = s.sib) (hflight : s'.flight = rest s ev + H.sentByLow c.out)
    (hk : H.Keeps s' own j addr) :
    H.Keeps s own j addr ∨ ∃ a, (j, a) ∈ H.gives s ev ∧ (H.sib j).g.calcTag addr = (H.sib j).g.calcTag a := by
  obtain ⟨hget, hno⟩ := hk
  -- the message that is delivered is not an invalidate
  have hno' : ∀ m ∈ s.flight, ¬H.removes j addr m := by
    intro m hm hrem
    have hcases : m ∈ rest s ev ∨ ev = .deliver m := Hierarchy.mem_rest_or hm
    rcases hcases with hm | rfl
    · exact hno m (by rw [hflight]; exact Multiset.mem_add.2 (.inl hm)) hrem
    · cases m with
      | invalidate i mreq | pushUp i mreq => cases hop
      | busRead mreq | pushDown mreq | memory mreq => exact hrem
  rw [hsib, hflight] at hget
  rcases hget with hhas | ⟨m, hm, hb⟩
  · exact .inl ⟨.inl hhas, hno'⟩
  rcases Multiset.mem_add.1 hm with hm | hm
  · exact .inl ⟨.inr ⟨m, Hierarchy.mem_of_mem_rest hm, hb⟩, hno'⟩
  · obtain ⟨mreq, hmreq, rfl⟩ := Hierarchy.brings_sentByLow (Multiset.mem_coe.1 hm) hb
    have hans : mreq ∈ op.answers H.low s.low.idle := exec_pushUps hc hs.mapped hmreq
    refine .inr ⟨mreq.addr, ?_, hb.2⟩
    rw [Hierarchy.gives_of_lowHandler hop, ← hb.1]
    exact Multiset.mem_coe.2 (List.mem_map.2 ⟨mreq, hans, rfl⟩)

/-- A sibling that is handed an invalidate keeps what an answer brings that is left behind. -/
theorem Hierarchy.overtaken_of_removes {op : Handler} {c : Cache} {m : Msg} (hs : H.Ok s)
    (hop : handler (.deliver m) = some (i, op)) (hc : op.exec (H.sib i) (s.sib i).idle = some c)
    (hrem : H.removes j addr m)
    (hget : (Function.update s.sib i c j).has own (H.sib j) addr ∨ ∃ m' ∈ rest s (.deliver m), H.brings j addr m') :
    ∃ a, (j, a) ∈ H.gives s (.deliver m) ∧ (H.sib j).g.calcTag addr = (H.sib j).g.calcTag a := by
  cases m with
  | invalidate i' mreq =>
    obtain ⟨rfl, hinc, hcov⟩ := hrem
    obtain ⟨rfl, rfl⟩ : i' = i ∧ Handler.doInvalidate mreq = op := by simpa [handler] using hop
    obtain rfl := Option.some.inj hc
    rw [Function.update_self] at hget
    have hgone : ¬((s.sib i').idle.doInvalidate (H.sib i') mreq).holds (H.sib i') addr :=
      not_holds_of_doInvalidate hinc (hs.bankOk i') (hs.agrees i').bank hcov
    obtain ⟨m, hm, hb⟩ := hget.resolve_left fun hhas => hgone (holds_of_has hhas)
    cases m with
    | pushUp j mreq' =>
      obtain ⟨rfl, htag⟩ := hb
      have hcov' : mreq.covers (H.sib j) mreq'.addr := by rwa [MemRequest.covers, ← htag]
      refine ⟨mreq'.addr, ?_, htag⟩
      exact (Multiset.mem_filterMap _ _).2 ⟨_, Hierarchy.mem_of_mem_rest hm, if_pos ⟨rfl, hcov'⟩⟩
    | busRead _ | pushDown _ | invalidate _ _ | memory _ => exact hb.elim
  | busRead _ | pushDown _ | pushUp _ _ | memory _ => exact hrem.elim

/-- What a sibling fills it is given, or it was on its way. -/
theorem Hierarchy.gives_of_fillsAddr {op : Handler} (hop : handler ev = some (j, op))
    (ha : op.fillsAddr (H.sib j) (s.sib j).idle = some a) :
    (j, a) ∈ H.gives s ev ∧ readOnly ev = op.fillsShared ∨ ∃ mreq, ev = .deliver (.pushUp j mreq) ∧ mreq.addr = a := by
  cases ev with
  | above i op' =>
    obtain ⟨rfl, rfl⟩ : i = j ∧ op' = op := by simpa [handler] using hop
    exact .inl ⟨by simp [Hierarchy.gives, ha], rfl⟩
  | deliver m =>
    cases m with
    | pushUp i mreq =>
      obtain ⟨rfl, rfl⟩ : i = j ∧ Handler.doPushUp mreq = op := by simpa [handler] using hop
      exact .inr ⟨mreq, rfl, Option.some.inj ha⟩
    | invalidate i mreq =>
      obtain ⟨rfl, rfl⟩ : i = j ∧ Handler.doInvalidate mreq = op := by simpa [handler] using hop
      cases ha
    | busRead _ | pushDown _ | memory _ => cases hop

/-- A step of a sibling makes it keep what it fills, or what it has been sent ahead of the
invalidate that it is handed. -/
theorem Hierarchy.keeps_of_sib {op : Handler} {c : Cache} (hs : H.Ok s) (h : H.step s ev = some s')
    (hop : handler ev = some (i, op)) (hc : op.exec (H.sib i) (s.sib i).idle = some c)
    (hslip : op.slips (H.sib i) (s.sib i).idle = false) (hsib : s'.sib = Function.update s.sib i c)
    (hflight : s'.flight = rest s ev + sentBelow c.out) (hk : H.Keeps s' own j addr) :
    H.Keeps s own j addr ∨ ∃ a, (j, a) ∈ H.gives s ev ∧ (H.sib j).g.calcTag addr = (H.sib j).g.calcTag a ∧
      (own = true → readOnly ev = false) := by
  obtain ⟨hget, hno⟩ := hk
  have hold : (s.sib i).idle.Agrees (H.sib i) := ⟨(hs.agrees i).bank, (hs.agrees i).mshr⟩
  have hget : (s'.sib j).has own (H.sib j) addr ∨ ∃ m ∈ rest s ev, H.brings j addr m := by
    refine hget.imp_right ?_
    rintro ⟨m, hm, hb⟩
    rw [hflight] at hm
    refine ⟨m, (Multiset.mem_add.1 hm).resolve_right fun hm => ?_, hb⟩
    exact Hierarchy.not_brings_sentBelow (Multiset.mem_coe.1 hm) hb
  rw [hsib] at hget
  by_cases hrem : ∃ m ∈ s.flight, H.removes j addr m
  · -- the invalidate is the message that is delivered
    obtain ⟨m, hm, hrem⟩ := hrem
    obtain rfl : ev = .deliver m := (Hierarchy.mem_rest_or hm).resolve_left fun hm =>
      hno m (by rw [hflight]; exact Multiset.mem_add.2 (.inl hm)) hrem
    obtain ⟨a, ha, htag⟩ := Hierarchy.overtaken_of_removes hs hop hc hrem hget
    exact .inr ⟨a, ha, htag, fun _ => rfl⟩
  · have hno' : ∀ m ∈ s.flight, ¬H.removes j addr m := fun m hm hm' => hrem ⟨m, hm, hm'⟩
    rcases hget with hhas | ⟨m, hm, hb⟩
    swap
    · exact .inl ⟨.inr ⟨m, Hierarchy.mem_of_mem_rest hm, hb⟩, hno'⟩
    by_cases hji : j = i
    swap
    · rw [Function.update_of_ne hji] at hhas
      exact .inl ⟨.inl hhas, hno'⟩
    subst hji
    rw [Function.update_self] at hhas
    rcases has_of_exec hc hold hslip hhas with hhas | ⟨a, ha, htag, hsh⟩
    · exact .inl ⟨.inl hhas, hno'⟩
    rcases Hierarchy.gives_of_fillsAddr hop ha with ⟨hgives, hread⟩ | ⟨mreq, rfl, rfl⟩
    · exact .inr ⟨a, hgives, htag, hread ▸ hsh⟩
    · exact .inl ⟨.inr ⟨_, Hierarchy.mem_flight_of_step h, rfl, htag⟩, hno'⟩

/-- **A step makes a sibling keep** only the lines that it gives. -/
theorem Hierarchy.keeps_of_step (hs : H.Ok s) (h : H.step s ev = some s') (hslip : H.slips s ev = false)
    (hk : H.Keeps s' own j addr) :
    H.Keeps s own j addr ∨ ∃ a, (j, a) ∈ H.gives s ev ∧ (H.sib j).g.calcTag addr = (H.sib j).g.calcTag a ∧
      (own = true → readOnly ev = false) := by
  rcases Hierarchy.step_cases h with ⟨i, op, c, hop, hc, hsib, -, hflight⟩ | ⟨op, c, hop, hc, hsib, -, hflight⟩
  · exact Hierarchy.keeps_of_sib hs h hop hc (by simpa [Hierarchy.slips, hop] using hslip) hsib hflight hk
  · have hread : readOnly ev = false := by
      cases ev with
      | above i op => cases hop
      | deliver m => rfl
    exact (Hierarchy.keeps_of_low hs hop hc hsib hflight hk).imp_right
      fun ⟨a, ha, htag⟩ => ⟨a, ha, htag, fun _ => hread⟩

theorem Hierarchy.Keeps.weaken (h : H.Keeps s own j addr) : H.Keeps s false j addr :=
  ⟨h.1.imp_left holds_of_has, h.2⟩

/-- Addresses of one line are kept together. -/
theorem Hierarchy.keeps_congr (h : (H.sib j).g.calcTag addr = (H.sib j).g.calcTag a) (hk : H.Keeps s own j addr) :
    H.Keeps s own j a := by
  have hbrings : ∀ m, H.brings j addr m → H.brings j a m := by
    intro m hm
    cases m with
    | pushUp i mreq => exact ⟨hm.1, h ▸ hm.2⟩
    | busRead _ | pushDown _ | invalidate _ _ | memory _ => exact hm
  have hremoves : ∀ m, H.removes j a m → H.removes j addr m := by
    intro m hm
    cases m with
    | invalidate i mreq => exact ⟨hm.1, hm.2.1, by rw [MemRequest.covers, h]; exact hm.2.2⟩
    | busRead _ | pushDown _ | pushUp _ _ | memory _ => exact hm
  refine ⟨hk.1.imp (has_congr h).1 fun ⟨m, hm, hb⟩ => ⟨m, hm, hbrings m hb⟩, fun m hm hr => ?_⟩
  exact hk.2 m hm (hremoves m hr)

theorem Hierarchy.ok_new (H : Hierarchy) : H.Ok H.new := by
  refine ⟨fun i => agrees_new (H.sib i), fun i => CacheCore.new_ok _ _ 0, mapped_create _, ?_⟩
  rintro i - j - - addr ⟨⟨hget, -⟩, -⟩
  rcases hget with ⟨l, -, -, ho⟩ | ⟨m, hm, -⟩
  · exact owned_valid ho rfl
  · exact Multiset.notMem_zero m hm

/-- The cache that moves keeps its own invariants. -/
theorem Hierarchy.caches_of_step (hs : H.Ok s) (h : H.step s ev = some s') (hslip : H.slips s ev = false) :
    (∀ i, (s'.sib i).Agrees (H.sib i)) ∧ (∀ i, BankOk (H.sib i) (s'.sib i).bank) ∧
      s'.low.mshr.Mapped H.low.mshr := by
  rcases Hierarchy.step_cases h with ⟨i, op, c, hop, hc, hsib, hlow, -⟩ | ⟨op, c, hop, hc, hsib, hlow, -⟩
  · have hold : (s.sib i).idle.Agrees (H.sib i) := ⟨(hs.agrees i).bank, (hs.agrees i).mshr⟩
    have hop' : op.slips (H.sib i) (s.sib i).idle = false := by simpa [Hierarchy.slips, hop] using hslip
    rw [hsib, hlow]
    refine ⟨fun j => ?_, fun j => ?_, hs.mapped⟩
    · by_cases hji : j = i
      · subst hji
        rw [Function.update_self]
        exact exec_agree _ op c hc hop' hold
      · rw [Function.update_of_ne hji]
        exact hs.agrees j
    · by_cases hji : j = i
      · subst hji
        rw [Function.update_self]
        exact exec_ok _ op c hc (hs.bankOk j)
      · rw [Function.update_of_ne hji]
        exact hs.bankOk j
  · rw [hsib, hlow]
    exact ⟨hs.agrees, hs.bankOk, exec_mapped _ op c hc hs.mapped⟩

/-- **A careful step** keeps the siblings apart. -/
theorem Hierarchy.Ok.step (s : Hier) (ev : Hier.Event) (s' : Hier) (h : H.step s ev = some s')
    (hev : H.Careful s ev) (hs : H.Ok s) : H.Ok s' := by
  obtain ⟨halone, hslip⟩ := hev
  have hkeeps : ∀ {own j addr}, H.Keeps s' own j addr → H.Keeps s own j addr ∨ ∃ a, (j, a) ∈ H.gives s ev ∧
      (H.sib j).g.calcTag addr = (H.sib j).g.calcTag a ∧ (own = true → readOnly ev = false) :=
    fun hk => Hierarchy.keeps_of_step hs h hslip hk
  have hline : ∀ {i j : ℕ} {a addr : AddrType}, (H.sib i).g.calcTag addr = (H.sib i).g.calcTag a →
      (H.sib j).g.calcTag addr = (H.sib j).g.calcTag a := by
    intro i j a addr htag
    rwa [H.sameLine i j, H.sameLine i j] at htag
  obtain ⟨hagrees, hbank, hmapped⟩ := Hierarchy.caches_of_step hs h hslip
  refine ⟨hagrees, hbank, hmapped, ?_⟩
  rintro i hi j hj hne addr ⟨hown, hkeep⟩
  rcases hkeeps hown with hown | ⟨a, ha, hta, hread⟩ <;> rcases hkeeps hkeep with hkeep | ⟨a', ha', hta', -⟩
  · exact hs.apart i hi j hj hne addr ⟨hown, hkeep⟩
  · -- `j` is given a line that `i` keeps
    have hnot := (halone _ ha').1 i hi hne
    have hown := Hierarchy.keeps_congr (hline hta') hown
    cases hr : readOnly ev with
    | true => exact hnot (hr ▸ hown)
    | false => exact hnot (hr ▸ hown.weaken)
  · -- `i` is given a line that `j` keeps
    refine (halone _ ha).1 j hj (Ne.symm hne) ?_
    rw [hread rfl]
    exact Hierarchy.keeps_congr (hline hta) hkeep
  · -- both are given the line
    exact (halone _ ha).2 _ ha' (Ne.symm hne) ((hline hta').symm.trans hta)

/-- **Coherence.** If no line is given to a sibling while another one keeps it, then no line that a
sibling holds is Modified or Exclusive in another, once no message is in flight. -/
theorem Hierarchy.coherent_along (H : Hierarchy) (evs : List Hier.Event) (s : Hier)
    (h : run H.step H.new evs = some s) (hev : Along H.step (fun s ev => H.Careful s ev) H.new evs)
    (hflight : s.flight = 0) : H.Coherent s := by
  have hok : H.Ok s := run_inv_along (I := H.Ok) Hierarchy.Ok.step h hev H.ok_new
  -- what a sibling has it keeps, as nothing is on the way
  have hkeeps : ∀ own j addr, (s.sib j).has own (H.sib j) addr → H.Keeps s own j addr := by
    intro own j addr hhas
    refine ⟨.inl hhas, fun m hm => ?_⟩
    rw [hflight] at hm
    exact absurd hm (Multiset.notMem_zero m)
  rintro i hi j hj hne addr ⟨hown, hholds⟩
  exact hok.apart i hi j hj hne addr ⟨hkeeps true i addr hown, hkeeps false j addr hholds⟩

end Runs

/-- Two first-level caches over one shared cache. -/
def twoSiblings : Hierarchy where
  sib i := { smallLLC with llc := false, self := i }
  low := { smallLLC with upNode := [1, 2] }
  self_sib _ _ := rfl
  inclusive := rfl
  sameLine _ _ _ := rfl

/-- A read made at sibling `i`. -/
def readAt (i : ℕ) (addr : AddrType) : MemRequest := { addr := addr, type := .read, homeNode := i }

/-- The read misses in both levels, and is answered from below. -/
def readMiss (i : ℕ) (addr : AddrType) : List Hier.Event :=
  [.above i (.doRead (readAt i addr)), .deliver (.busRead (readAt i addr)), .deliver (.memory (readAt i addr)),
    .deliver (.pushUp i (readAt i addr))]

/-- The read misses in the sibling, and is answered by the shared cache. -/
def readHit (i : ℕ) (addr : AddrType) : List Hier.Event :=
  [.above i (.doRead (readAt i addr)), .deliver (.busRead (readAt i addr)), .deliver (.pushUp i (readAt i addr))]

/-- Both siblings bring a line in, in fast-forward mode, and the first one writes it. The write is
answered, and the answer delivered, while the invalidate for the other is still on its way. -/
def upgrade : List Hier.Event :=
  let wreq : MemRequest := { readAt 1 64 with type := .write }
  let ireq : MemRequest := { addr := 64, type := .invalidate, homeNode := 0, lineSize := 64, pending := 1 }
  [.above 1 (.ffread 64), .above 2 (.ffread 64), .above 1 (.doWrite wreq), .deliver (.busRead wreq),
    .deliver (.memory wreq), .deliver (.pushUp 1 wreq), .deliver (.invalidate 2 ireq), .deliver (.pushDown ireq)]

/-- The second sibling reads a line of its own, and the first one gets the line that both had. -/
theorem Hierarchy.coherent_along_upgrade :
    ∃ s, run twoSiblings.step twoSiblings.new (readMiss 2 128 ++ upgrade) = some s ∧ s.flight = 0 ∧
      (s.sib 1).owns (twoSiblings.sib 1) 64 ∧ (s.sib 2).owns (twoSiblings.sib 2) 128 ∧ twoSiblings.Coherent s := by
  have hrun : ((run twoSiblings.step twoSiblings.new (readMiss 2 128 ++ upgrade)).any fun s =>
      decide (s.flight = 0 ∧ (s.sib 1).owns (twoSiblings.sib 1) 64 ∧ (s.sib 2).owns (twoSiblings.sib 2) 128)) = true := by
    decide +kernel
  obtain ⟨s, hs, hd⟩ := (Option.any_eq_true _ _).1 hrun
  obtain ⟨hf, h1, h2⟩ := of_decide_eq_true hd
  exact ⟨s, hs, hf, h1, h2, coherent_along twoSiblings _ s hs (by decide +kernel) hf⟩

/-- Both siblings read a line; the first one then writes it. -/
def readBoth : List Hier.Event :=
  readMiss 1 64 ++ readHit 2 64 ++ [.above 1 (.doWrite { readAt 1 64 with type := .write })]

/-- **Both siblings own the line**, with nothing in flight: each read was answered with the line
Exclusive, and the write asked nobody. -/
theorem Hierarchy.readers_own_line :
    ∃ s, run twoSiblings.step twoSiblings.new readBoth = some s ∧ s.flight = 0 ∧
      ((s.sib 1).bank.mem 1).tag = 1 ∧ ((s.sib 1).bank.mem 1).state = .M ∧
      ((s.sib 2).bank.mem 1).tag = 1 ∧ ((s.sib 2).bank.mem 1).state = .E ∧ ¬twoSiblings.Coherent s := by
  have hrun : ((run twoSiblings.step twoSiblings.new readBoth).any fun s =>
      decide (s.flight = 0 ∧ (s.sib 1).owns (twoSiblings.sib 1) 64 ∧ (s.sib 2).holds (twoSiblings.sib 2) 64 ∧
        ((s.sib 1).bank.mem 1).tag = 1 ∧ ((s.sib 1).bank.mem 1).state = .M ∧
        ((s.sib 2).bank.mem 1).tag = 1 ∧ ((s.sib 2).bank.mem 1).state = .E)) = true := by decide +kernel
  obtain ⟨s, hs, hd⟩ := (Option.any_eq_true _ _).1 hrun
  obtain ⟨hf, ho, hh, ht1, hm1, ht2, he2⟩ := of_decide_eq_true hd
  refine ⟨s, hs, hf, ht1, hm1, ht2, he2, fun hco => ?_⟩
  exact hco 1 (by decide) 2 (by decide) (by decide) 64 ⟨ho, hh⟩

end Esesc.Mem
