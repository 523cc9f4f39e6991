import Esesc.Core.Cluster

/-!
# The processors and their clusters

The processors of `OoO` and `InOrder` on top of the clusters: what was an input there, the stall
that a cluster answers and the last instruction fetched of a store set, is computed here.

* `Flight`: the instructions in flight, each at one stage of its way.
* `Flight.insert`, `Flight.fire`: an instruction enters, or takes its next step.
* `run_ooo`, `run_inOrder`: the processor of a machine runs as it does alone.
-/

namespace Esesc.Core

open Esesc.Lib InFlight

variable (k : CpuConfig)

def CpuConfig.ooo : OoOConfig := ⟨k.MaxROBSize, k.scooreMemory, k.NoMemoryReplay, k.serialize⟩

/-- The two processors. -/
inductive GProcessor where
  | OoO (o : OoO)
  | InOrder (o : InOrder)

namespace GProcessor

/-- Which of the two, with what the constructor of the first leaves as it is. -/
inductive Kind where
  | OoO (logical : RegType) (pc : ℕ)
  | InOrder

def init : Kind → GProcessor
  | .OoO logical pc => .OoO (.init logical pc)
  | .InOrder => .InOrder .init

def core : GProcessor → InFlight
  | .OoO o => o.core
  | .InOrder o => o.core

def ROB : GProcessor → List ℕ
  | .OoO o => o.ROB
  | .InOrder o => o.ROB

def rROB : GProcessor → List ℕ
  | .OoO o => o.rROB
  | .InOrder o => o.rROB

def isROBEmpty (p : GProcessor) : Bool := p.ROB.isEmpty && p.rROB.isEmpty

/-- The out-of-order processor has an `LSQFull`, the other an `LSQNone`. -/
def fullLSQ : GProcessor → Bool
  | .OoO _ => true
  | .InOrder _ => false

/-- The tests of `addInst` that come before the one of the cluster. -/
def test (f : Fetched) : GProcessor → StallCause
  | .OoO o =>
    if o.replayRecovering = true ∧ o.replayID < f.ID then .ReplaysStall
    else if k.MaxROBSize ≤ o.ROB.length + o.rROB.length then .SmallROBStall
    else .NoStall
  | .InOrder o =>
    if InOrder.ratTest o.core f.inst then .SmallWinStall
    else if k.MaxROBSize ≤ o.ROB.length + o.rROB.length then .SmallROBStall
    else .NoStall

/-- The insertion of an instruction that does not stall. -/
def insert (f : Fetched) (lfs : Option ℕ) : GProcessor → GProcessor
  | .OoO o => .OoO (o.insert k.ooo f lfs)
  | .InOrder o => .InOrder (o.insert f lfs)

def fire (i : ℕ) : GProcessor → Option GProcessor
  | .OoO o => (OoO.step k.ooo o (.fire i)).map .OoO
  | .InOrder o => (InOrder.step k.MaxROBSize o (.fire i)).map .InOrder

def preretire : GProcessor → Option GProcessor
  | .OoO o => (OoO.step k.ooo o .preretire).map .OoO
  | .InOrder o => (InOrder.step k.MaxROBSize o .preretire).map .InOrder

/-- `retire`, on an instruction that its cluster lets go. -/
def retire : GProcessor → Option GProcessor
  | .OoO o => (OoO.step k.ooo o .retire).map .OoO
  | .InOrder o => (InOrder.step k.MaxROBSize o .retire).map .InOrder

/-- The in-order processor only reports a replay. -/
def replay (target : ℕ) : GProcessor → GProcessor
  | .OoO o => .OoO (o.replay k.ooo target)
  | .InOrder o => .InOrder o

def recover : GProcessor → Option GProcessor
  | .OoO o => (OoO.step k.ooo o .recover).map .OoO
  | .InOrder _ => none

end GProcessor

/-- A processor and its clusters. -/
structure Machine where
  proc : GProcessor
  clusters : Clusters

namespace Machine

open FU

def init (kind : GProcessor.Kind) : Machine := ⟨.init kind, .init k⟩

/-- What an instruction that comes to `addInst` finds. -/
def ask (m : Machine) (globalClock : ℕ) : Ask := ⟨globalClock, m.proc.fullLSQ, m.proc.isROBEmpty, m.proc.core.n⟩

/-- `addInst`. -/
def addInst (globalClock : ℕ) (a : Arriving) (m : Machine) : StallCause × Machine :=
  if m.proc.test k a.fetched ≠ .NoStall then (m.proc.test k a.fetched, m)
  else
    let r := m.clusters.canIssue k (m.ask globalClock) a
    if r.sc ≠ .NoStall then (r.sc, { m with clusters := r.clusters })
    else (.NoStall, ⟨m.proc.insert k a.fetched r.lfs, r.clusters.addInst m.proc.core.n a⟩)

/-- What the callback of an instruction does to its cluster. -/
def called (m : Machine) (i : ℕ) : Clusters :=
  match (m.proc.core.insts i).cb with
  | some .executing => m.clusters.executing k i
  | some .executed => m.clusters.executed k i (m.proc.core.insts i).inst
  | some .select | none => m.clusters

/-- `performed` is what the memory system reports. Violations, merges and the clearing timer rewrite the
tables of the store set at any time. -/
inductive Event where
  | addInst (globalClock : ℕ) (a : Arriving)
  | fire (i : ℕ)
  | performed (i : ℕ)
  | preretire
  | retire
  | replay (target : ℕ)
  | recover
  | storeset (ss : StoreSet)

def step (m : Machine) : Event → Option Machine
  | .addInst globalClock a => some (m.addInst k globalClock a).2
  | .fire i => (m.proc.fire k i).map fun p => ⟨p, m.called k i⟩
  | .performed i =>
    some { m with clusters := { m.clusters with
      placed := Function.update m.clusters.placed i { m.clusters.placed i with performed := true } } }
  | .preretire => (m.proc.preretire k).map fun p => ⟨p, m.clusters⟩
  | .retire =>
    match m.proc.rROB with
    | [] => none
    | i :: _ =>
      if (m.proc.core.insts i).executed then
        let r := m.clusters.retire k m.proc.fullLSQ i (m.proc.core.insts i).inst
        if r.1 then (m.proc.retire k).map fun p => ⟨p, r.2⟩ else some { m with clusters := r.2 }
      else none
  | .replay target => some { m with proc := m.proc.replay k target }
  | .recover => (m.proc.recover k).map fun p => { m with proc := p }
  | .storeset ss => some { m with clusters := { m.clusters with storeset := ss } }

/-- The instructions in flight, oldest first. -/
def inFlight (m : Machine) : List ℕ := m.proc.rROB ++ m.proc.ROB

/-- `executing` was called for the instruction. -/
def begun (x : DInst) : Bool := x.executed || x.cb == some .executed

/-! ## Instructions in flight -/

/-- Every instruction is in flight or has executed, and one that has executed has no callback left. -/
structure Flight (s : InFlight) (l : List ℕ) : Prop where
  deps : Deps s none
  nodup : l.Nodup
  lt : ∀ i ∈ l, i < s.n
  gone : ∀ i < s.n, i ∉ l → (s.insts i).executed = true
  done : ∀ i, (s.insts i).executed = true → (s.insts i).cb = none

/-- The callback `cb` of instruction `i` moves that instruction and no other. -/
structure Fired (s s' : InFlight) (i : ℕ) (cb : Callback) : Prop where
  was : (s.insts i).cb = some cb
  n : s'.n = s.n
  inst : ∀ j, (s'.insts j).inst = (s.insts j).inst
  executed : ∀ j, (s'.insts j).executed = ((s.insts j).executed || (decide (j = i) && cb == .executed))
  begun : ∀ j, begun (s'.insts j) = (begun (s.insts j) || (decide (j = i) && cb == .executing))
  done : ∀ j, ((s.insts j).executed = true → (s.insts j).cb = none) → (s'.insts j).executed = true →
    (s'.insts j).cb = none

variable {k} {s s' : InFlight} {l : List ℕ} {i : ℕ}

/-- An instruction that is not issued has not begun. -/
theorem not_begun (h : Deps s none) (hi : (s.insts i).issued = false) :
    (s.insts i).executed = false ∧ (s.insts i).cb = none := by
  have hstage := h.stage i
  rw [hi] at hstage
  constructor
  · exact Bool.eq_false_iff.2 fun he => Bool.false_ne_true (hstage (.inl he))
  · exact Option.not_isSome_iff_eq_none.1 fun hc => Bool.false_ne_true (hstage (.inr hc))

/-- **The loop of `executed`** issues instructions, which moves none of them on. -/
theorem wakeAll_stage (h : Deps s none) (p fuel : ℕ) (j : ℕ) :
    ((DepWindow.wakeAll p fuel s).insts j).inst = (s.insts j).inst ∧
      ((DepWindow.wakeAll p fuel s).insts j).executed = (s.insts j).executed ∧
      (((DepWindow.wakeAll p fuel s).insts j).cb = (s.insts j).cb ∨
        (s.insts j).issued = false ∧ ((DepWindow.wakeAll p fuel s).insts j).cb = some .select) := by
  have hinv := wakeAll_inv (p := p) (I := fun t => Deps t none ∧ ∀ j, (t.insts j).inst = (s.insts j).inst ∧
      (t.insts j).executed = (s.insts j).executed ∧ ((s.insts j).issued = true → (t.insts j).issued = true) ∧
      ((t.insts j).cb = (s.insts j).cb ∨ (s.insts j).issued = false ∧ (t.insts j).cb = some .select))
    ?_ fuel s ⟨h, fun j => ⟨rfl, rfl, id, .inl rfl⟩⟩
  · obtain ⟨hinst, hex, -, hcb⟩ := hinv.2 j
    exact ⟨hinst, hex, hcb⟩
  · rintro t d t' ⟨hD, hall⟩ hpop
    refine ⟨hD.wake hpop, fun j => ?_⟩
    obtain ⟨hinst, hex, hiss, hcb⟩ := hall j
    obtain ⟨-, -, hd⟩ := hD.pop hpop
    obtain ⟨slot, rest, -, -, -, hat⟩ := getNextPending_spec hpop
    split
    · rw [hat]
      exact ⟨hinst, hex, hiss, hcb⟩
    · rw [preSelect_insts, hat]
      by_cases hj : j = d
      · -- what is taken off a list was not issued, now or when the loop began
        subst hj
        have hs : (s.insts j).issued = false := by
          refine Bool.eq_false_iff.2 fun hs => ?_
          rw [hiss hs] at hd
          cases hd
        refine ⟨hinst, hex, fun _ => ?_, .inr ⟨hs, ?_⟩⟩
        · simp
        · simp
      · simp only [hj, if_false]
        exact ⟨hinst, hex, hiss, hcb⟩

/-- `select` and `executing` schedule the next callback. -/
theorem fired_of_modify {cb cb' : Callback} (hcb : (s.insts i).cb = some cb) (hn : s'.n = s.n)
    (hat : ∀ j, s'.insts j = if j = i then { s.insts j with cb := some cb' } else s.insts j)
    (hne : cb ≠ .executed) (hcb' : (cb' == .executed) = (cb == .executing)) : Fired s s' i cb := by
  have hex : ∀ j, (s'.insts j).executed = (s.insts j).executed := by
    intro j
    rw [hat]
    split <;> rfl
  refine ⟨hcb, hn, ?_, ?_, ?_, ?_⟩
  · intro j
    rw [hat]
    split <;> rfl
  · intro j
    rw [hex, beq_false_of_ne hne, Bool.and_false, Bool.or_false]
  · intro j
    unfold begun
    rw [hex, hat]
    by_cases hj : j = i
    · subst hj
      rw [if_pos rfl, hcb]
      simp [hcb', beq_false_of_ne hne]
    · simp [hj]
  · intro j hdone hj
    rw [hex] at hj
    rw [hat, if_neg, hdone hj]
    rintro rfl
    rw [hdone hj] at hcb
    cases hcb

/-- **A callback** moves its instruction on. -/
theorem fired_of_fire (h : Deps s none) (hf : s.fire i = some s') : ∃ cb, Fired s s' i cb := by
  have hn := fire_n hf
  have hi := h.fire_issued hf
  cases hcb : (s.insts i).cb with
  | none =>
    simp only [InFlight.fire, hcb] at hf
    cases hf
  | some cb =>
    refine ⟨cb, ?_⟩
    cases cb with
    | select =>
      simp only [InFlight.fire, hcb, Option.some.injEq] at hf
      subst hf
      exact fired_of_modify hcb hn (fun j => modify_insts _ _ _ _) (by decide) (by decide)
    | executing =>
      simp only [InFlight.fire, hcb, Option.some.injEq] at hf
      subst hf
      exact fired_of_modify hcb hn (fun j => modify_insts _ _ _ _) (by decide) (by decide)
    | executed =>
      simp only [InFlight.fire, hcb, Option.some.injEq, Resource.executed, DepWindow.executed] at hf
      -- the instruction is marked, and then the loop runs
      have hmark : Deps ((s.modify i fun x => { x with executed := true, cb := none }).clearRATEntry i) none := by
        refine Deps.clearRATEntry ?_ i
        exact h.modify i (fun y => ⟨rfl, rfl, rfl, rfl⟩) (fun y hy => hy) fun _ => hi
      have hat : ∀ j, ((s.modify i fun x => { x with executed := true, cb := none }).clearRATEntry i).insts j =
          if j = i then { s.insts j with executed := true, cb := none } else s.insts j := by
        intro j
        rw [clearRATEntry_insts, modify_insts]
      have hstage := wakeAll_stage hmark i
        ((((s.modify i fun x => { x with executed := true, cb := none }).clearRATEntry i).insts i).first.length)
      rw [hf] at hstage
      generalize (s.modify i fun x => { x with executed := true, cb := none }).clearRATEntry i = t at hmark hat hstage
      refine ⟨hcb, hn, ?_, ?_, ?_, ?_⟩
      · intro j
        rw [(hstage j).1, hat]
        split <;> rfl
      · intro j
        rw [(hstage j).2.1, hat]
        by_cases hj : j = i <;> simp [hj]
      · intro j
        unfold begun
        rw [(hstage j).2.1]
        by_cases hj : j = i
        · subst hj
          simp [hat, hcb]
        · rcases (hstage j).2.2 with hsame | ⟨hnot, hsel⟩
          · rw [hsame, hat, if_neg hj]
            simp [hj]
          · obtain ⟨hex, hnone⟩ := not_begun hmark hnot
            rw [hsel, hex]
            rw [hat, if_neg hj] at hex hnone
            simp [hex, hnone, hj, show (Callback.select == Callback.executed) = false from rfl]
      · intro j hdone hj
        rw [(hstage j).2.1] at hj
        rcases (hstage j).2.2 with hsame | ⟨hnot, -⟩
        · rw [hsame, hat]
          split
          · rfl
          · rename_i hji
            rw [hat, if_neg hji] at hj
            exact hdone hj
        · rw [(not_begun hmark hnot).1] at hj
          cases hj

theorem Flight.fire (h : Flight s l) (hf : s.fire i = some s') : Flight s' l ∧ i ∈ l ∧ ∃ cb, Fired s s' i cb := by
  obtain ⟨cb, hfired⟩ := fired_of_fire h.deps hf
  refine ⟨⟨h.deps.fire hf, h.nodup, ?_, ?_, fun j => hfired.done j (h.done j)⟩, ?_, cb, hfired⟩
  · rw [hfired.n]
    exact h.lt
  · intro j hj hnot
    rw [hfired.n] at hj
    rw [hfired.executed, h.gone j hj hnot, Bool.true_or]
  · -- an instruction that is no longer in flight has no callback
    by_contra hnot
    have hlt : i < s.n := by
      by_contra hge
      have hiss := h.deps.fire_issued hf
      rw [(h.deps.fresh i (Nat.le_of_not_lt hge)).1] at hiss
      cases hiss
    have hcb := hfired.was
    rw [h.done i (h.gone i hlt hnot)] at hcb
    cases hcb

/-- The instruction `f` is entered behind the others, which stay where they are. -/
structure Inserted (s s' : InFlight) (f : Fetched) : Prop where
  deps : Deps s' none
  n : s'.n = s.n + 1
  old : ∀ j < s.n, (s'.insts j).inst = (s.insts j).inst ∧ (s'.insts j).executed = (s.insts j).executed ∧
    (s'.insts j).cb = (s.insts j).cb
  inst : (s'.insts s.n).inst = f.inst
  new : (s'.insts s.n).executed = false ∧ (s'.insts s.n).cb ≠ some .executed
  later : ∀ j, s.n < j → (s'.insts j).executed = false

theorem Entering.inserted {t : InFlight} {f : Fetched} (h : Entering s t f)
    (ht : ∀ j, s'.insts j = (DepWindow.addInst t s.n).insts j) (hD : Deps s' none) (hn : s'.n = s.n + 1) :
    Inserted s s' f := by
  have hnew := h.deps.next s.n rfl
  refine ⟨hD, hn, ?_, ?_, ⟨?_, ?_⟩, ?_⟩
  · intro j hj
    rw [ht, (addInst_insts t s.n j).2 (Nat.ne_of_lt hj), h.old j hj]
    exact ⟨rfl, rfl, rfl⟩
  · rw [ht, (addInst_insts t s.n s.n).1]
    exact h.inst
  · rw [ht, (addInst_insts t s.n s.n).1]
    exact h.notYet
  · rw [ht]
    unfold DepWindow.addInst
    split
    · rw [modify_insts, if_pos rfl]
      intro hcb
      have := h.deps.stage s.n (.inr (by rw [hcb]; rfl))
      rw [hnew] at this
      cases this
    · rw [preSelect_insts]
      simp
  · intro j hj
    have hfresh := (hD.fresh j (by omega)).1
    exact (not_begun hD hfresh).1

theorem Flight.insert {f : Fetched} (h : Flight s l) (hs : Inserted s s' f) : Flight s' (l ++ [s.n]) := by
  refine ⟨hs.deps, ?_, ?_, ?_, ?_⟩
  · refine List.Nodup.append h.nodup (List.nodup_singleton _) ?_
    intro j hj hj'
    rw [List.mem_singleton.1 hj'] at hj
    exact absurd (h.lt _ hj) (Nat.lt_irrefl _)
  · intro j hj
    rw [hs.n]
    rcases List.mem_append.1 hj with hj | hj
    · exact Nat.lt_succ_of_lt (h.lt j hj)
    · rw [List.mem_singleton.1 hj]
      exact Nat.lt_succ_self _
  · intro j hj hnot
    rw [List.mem_append, not_or, List.mem_singleton] at hnot
    rw [hs.n] at hj
    have hlt : j < s.n := by omega
    rw [(hs.old j hlt).2.1]
    exact h.gone j hlt hnot.1
  · intro j hj
    rcases Nat.lt_trichotomy j s.n with hlt | rfl | hgt
    · rw [(hs.old j hlt).2.1] at hj
      rw [(hs.old j hlt).2.2]
      exact h.done j hj
    · rw [hs.new.1] at hj
      cases hj
    · rw [hs.later j hgt] at hj
      cases hj

end Machine

/-! ## The processors -/

namespace GProcessor

open Machine

variable {k : CpuConfig} {p p' : GProcessor} {i : ℕ}

theorem inserted_ooo {o : Core.OoO} (h : Deps o.core none) (f : Fetched) (lfs : Option ℕ) :
    Inserted o.core (o.insert k.ooo f lfs).core f := by
  obtain ⟨hE, -⟩ := (Ready.storeSetInsert (k := k.ooo) h f lfs o.replayRecovering o.serial).link
  generalize ht : OoO.link (OoO.serialize k.ooo o.replayRecovering (OoO.storeSetInsert k.ooo (o.core.rename f) lfs
    o.core.n) o.serial o.core.n).1 o.core.n = t at hE
  have hE' : Entering o.core (t.setRATEntries o.core.n) f :=
    hE.modify (g := fun y => { y with RAT1Entry := some y.inst.dst1, RAT2Entry := some y.inst.dst2 })
      (by simp) (by simp) t.serializeRAT
  have hcore : (o.insert k.ooo f lfs).core = (DepWindow.addInst (t.setRATEntries o.core.n) o.core.n).setRAT o.core.n := by
    rw [← ht]
    rfl
  rw [hcore]
  have hD := hE'.deps.addInst (by have := hE'.n; omega)
  exact Entering.inserted hE' (fun j => rfl) (hD.tables _ _) ((addInst_n _ _).trans hE'.n)

theorem inserted_inOrder {o : Core.InOrder} (h : Deps o.core none) (f : Fetched) (lfs : Option ℕ) :
    Inserted o.core (o.insert f lfs).core f := by
  have hready := (Ready.rename h f).addSrc3 (by rw [rename_insts, if_pos rfl]; rfl) lfs
  generalize ht : (o.core.rename f).addSrcIf 2 lfs o.core.n = t at hready
  have hE : Entering o.core (t.setRATEntries o.core.n) f :=
    hready.toEntering.modify (g := fun y => { y with RAT1Entry := some y.inst.dst1, RAT2Entry := some y.inst.dst2 })
      (by simp) (by simp) t.serializeRAT
  have hcore : (o.insert f lfs).core = DepWindow.addInst ((t.setRATEntries o.core.n).setRAT o.core.n) o.core.n := by
    rw [← ht]
    rfl
  rw [hcore]
  refine Entering.inserted hE ?_ ?_ ((addInst_n _ _).trans hE.n)
  · -- the window does not look at the alias table
    intro j
    unfold DepWindow.addInst
    show (if ((t.setRATEntries o.core.n).insts o.core.n).hasDeps then _ else _ : InFlight).insts j = _
    split
    · rw [modify_insts, modify_insts]
      rfl
    · rw [preSelect_insts, preSelect_insts]
      rfl
  · refine (hE.deps.tables _ _).addInst (s := (t.setRATEntries o.core.n).setRAT o.core.n) ?_
    show o.core.n < (t.setRATEntries o.core.n).n
    have := hE.n
    omega

theorem inserted (h : Deps p.core none) (f : Fetched) (lfs : Option ℕ) :
    Inserted p.core (p.insert k f lfs).core f ∧ (p.insert k f lfs).rROB = p.rROB ∧
      (p.insert k f lfs).ROB = p.ROB ++ [p.core.n] := by
  cases p with
  | OoO o => exact ⟨inserted_ooo h f lfs, rfl, rfl⟩
  | InOrder o => exact ⟨inserted_inOrder h f lfs, rfl, rfl⟩

theorem fire_eq (h : p.fire k i = some p') :
    p.core.fire i = some p'.core ∧ p'.rROB = p.rROB ∧ p'.ROB = p.ROB := by
  cases p with
  | OoO o =>
    simp only [GProcessor.fire, OoO.step, Option.map_eq_some_iff] at h
    obtain ⟨_, ⟨s, hs, rfl⟩, rfl⟩ := h
    exact ⟨hs, rfl, rfl⟩
  | InOrder o =>
    simp only [GProcessor.fire, InOrder.step, Option.map_eq_some_iff] at h
    obtain ⟨_, ⟨s, hs, rfl⟩, rfl⟩ := h
    exact ⟨hs, rfl, rfl⟩

theorem preretire_eq (h : p.preretire k = some p') :
    p'.core = p.core ∧ p'.rROB ++ p'.ROB = p.rROB ++ p.ROB := by
  cases p with
  | OoO o =>
    simp only [GProcessor.preretire, OoO.step, Option.map_eq_some_iff] at h
    obtain ⟨o', ho, rfl⟩ := h
    split at ho
    · cases ho
    · rename_i hR
      simp only [Option.ite_none_right_eq_some, Option.some.injEq] at ho
      obtain ⟨-, rfl⟩ := ho
      exact ⟨rfl, by simp [GProcessor.ROB, GProcessor.rROB, hR]⟩
  | InOrder o =>
    simp only [GProcessor.preretire, InOrder.step, Option.map_eq_some_iff] at h
    obtain ⟨o', ho, rfl⟩ := h
    split at ho
    · cases ho
    · rename_i hR
      simp only [Option.ite_none_right_eq_some, Option.some.injEq] at ho
      obtain ⟨-, rfl⟩ := ho
      exact ⟨rfl, by simp [GProcessor.ROB, GProcessor.rROB, hR]⟩

theorem retire_eq {rest : List ℕ} (hr : p.rROB = i :: rest) (h : p.retire k = some p') :
    (p.core.insts i).executed = true ∧ p'.core = p.core ∧ p'.rROB = rest ∧ p'.ROB = p.ROB := by
  cases p with
  | OoO o =>
    have hr : o.rROB = i :: rest := hr
    simp only [GProcessor.retire, OoO.step, Option.map_eq_some_iff, hr, Option.ite_none_right_eq_some,
      Option.some.injEq] at h
    obtain ⟨_, ⟨hex, rfl⟩, rfl⟩ := h
    exact ⟨hex, rfl, rfl, rfl⟩
  | InOrder o =>
    have hr : o.rROB = i :: rest := hr
    simp only [GProcessor.retire, InOrder.step, Option.map_eq_some_iff, hr, Option.ite_none_right_eq_some,
      Option.some.injEq] at h
    obtain ⟨_, ⟨hex, rfl⟩, rfl⟩ := h
    exact ⟨hex, rfl, rfl, rfl⟩

theorem replay_eq (p : GProcessor) (target : ℕ) :
    (p.replay k target).core = p.core ∧ (p.replay k target).rROB = p.rROB ∧ (p.replay k target).ROB = p.ROB := by
  cases p with
  | OoO o =>
    simp only [GProcessor.replay, OoO.replay]
    split <;> exact ⟨rfl, rfl, rfl⟩
  | InOrder o => exact ⟨rfl, rfl, rfl⟩

theorem recover_eq (h : p.recover k = some p') : p'.core = p.core ∧ p'.rROB = p.rROB ∧ p'.ROB = p.ROB := by
  cases p with
  | OoO o =>
    simp only [GProcessor.recover, OoO.step, Option.map_eq_some_iff, Option.ite_none_right_eq_some,
      Option.some.injEq] at h
    obtain ⟨_, ⟨-, rfl⟩, rfl⟩ := h
    exact ⟨rfl, rfl, rfl⟩
  | InOrder o => cases h

end GProcessor

/-! ## The processors alone -/

namespace GProcessor

variable {k : CpuConfig} {p p' : GProcessor}

/-- `addInst`, with what the cluster and the store set answer. -/
def addInst (k : CpuConfig) (f : Fetched) (sc : StallCause) (lfs : Option ℕ) : GProcessor → GProcessor
  | .OoO o => .OoO (o.addInst k.ooo f sc lfs).2
  | .InOrder o => .InOrder (o.addInst k.MaxROBSize f sc lfs).2

/-- What can become of a processor. -/
inductive Moves (k : CpuConfig) (p : GProcessor) : GProcessor → Prop where
  | stay : Moves k p p
  | addInst (f : Fetched) (sc : StallCause) (lfs : Option ℕ) : Moves k p (p.addInst k f sc lfs)
  | fire {p' : GProcessor} {i : ℕ} (h : p.fire k i = some p') : Moves k p p'
  | preretire {p' : GProcessor} (h : p.preretire k = some p') : Moves k p p'
  | retire {p' : GProcessor} (h : p.retire k = some p') : Moves k p p'
  | replay (target : ℕ) : Moves k p (p.replay k target)
  | recover {p' : GProcessor} (h : p.recover k = some p') : Moves k p p'

theorem Moves.ooo {o : Core.OoO} (h : Moves k (.OoO o) p') :
    ∃ es o', run (OoO.step k.ooo) o es = some o' ∧ p' = .OoO o' := by
  have hone : ∀ e o', OoO.step k.ooo o e = some o' → run (OoO.step k.ooo) o [e] = some o' :=
    fun e o' he => run_cons.2 ⟨o', he, rfl⟩
  cases h with
  | stay => exact ⟨[], o, rfl, rfl⟩
  | addInst f sc lfs => exact ⟨[.addInst f sc lfs], _, hone _ _ rfl, rfl⟩
  | fire h | preretire h | retire h | recover h =>
    obtain ⟨o', ho, rfl⟩ := Option.map_eq_some_iff.1 h
    exact ⟨_, o', hone _ _ ho, rfl⟩
  | replay target => exact ⟨[.replay target], _, hone _ _ rfl, rfl⟩

theorem Moves.inOrder {o : Core.InOrder} (h : Moves k (.InOrder o) p') :
    ∃ es o', run (InOrder.step k.MaxROBSize) o es = some o' ∧ p' = .InOrder o' := by
  have hone : ∀ e o', InOrder.step k.MaxROBSize o e = some o' → run (InOrder.step k.MaxROBSize) o [e] = some o' :=
    fun e o' he => run_cons.2 ⟨o', he, rfl⟩
  cases h with
  | stay | replay target => exact ⟨[], o, rfl, rfl⟩
  | addInst f sc lfs => exact ⟨[.addInst f sc lfs], _, hone _ _ rfl, rfl⟩
  | fire h | preretire h | retire h =>
    obtain ⟨o', ho, rfl⟩ := Option.map_eq_some_iff.1 h
    exact ⟨_, o', hone _ _ ho, rfl⟩
  | recover h => cases h

end GProcessor

namespace Machine

variable {k : CpuConfig} {m m' : Machine} {e : Event}

/-- The tests of the processor come first in its own `addInst` too. -/
theorem addInst_proc (m : Machine) (t : ℕ) (a : Arriving) :
    (m.addInst k t a).2.proc = m.proc.addInst k a.fetched (m.clusters.canIssue k (m.ask t) a).sc
      (m.clusters.canIssue k (m.ask t) a).lfs := by
  unfold addInst
  generalize m.clusters.canIssue k (m.ask t) a = r
  obtain ⟨p, clusters⟩ := m
  cases p with
  | OoO o =>
    simp only [GProcessor.addInst, OoO.addInst, GProcessor.test, CpuConfig.ooo]
    by_cases hrec : o.replayRecovering = true ∧ o.replayID < a.fetched.ID
    · simp [hrec]
    by_cases hrob : k.MaxROBSize ≤ o.ROB.length + o.rROB.length
    · simp [hrec, hrob]
    by_cases hsc : r.sc = .NoStall
    · simp [hrec, hrob, hsc, GProcessor.insert, CpuConfig.ooo]
    · simp [hrec, hrob, hsc]
  | InOrder o =>
    simp only [GProcessor.addInst, InOrder.addInst, GProcessor.test]
    by_cases hrat : InOrder.ratTest o.core a.fetched.inst = true
    · simp [hrat]
    by_cases hrob : k.MaxROBSize ≤ o.ROB.length + o.rROB.length
    · simp [hrat, hrob]
    by_cases hsc : r.sc = .NoStall
    · simp [hrat, hrob, hsc, GProcessor.insert]
    · simp [hrat, hrob, hsc]

/-- **A step of the machine** is a step of its processor, or leaves it alone. -/
theorem step_moves (hs : step k m e = some m') : GProcessor.Moves k m.proc m'.proc := by
  cases e with
  | addInst t a =>
    obtain rfl := Option.some.inj hs
    rw [addInst_proc]
    exact .addInst _ _ _
  | fire i =>
    simp only [step, Option.map_eq_some_iff] at hs
    obtain ⟨p, hp, rfl⟩ := hs
    exact .fire hp
  | preretire =>
    simp only [step, Option.map_eq_some_iff] at hs
    obtain ⟨p, hp, rfl⟩ := hs
    exact .preretire hp
  | retire =>
    simp only [step] at hs
    split at hs
    · cases hs
    · simp only [Option.ite_none_right_eq_some] at hs
      obtain ⟨-, hs⟩ := hs
      split at hs
      · obtain ⟨p, hp, rfl⟩ := Option.map_eq_some_iff.1 hs
        exact .retire hp
      · obtain rfl := Option.some.inj hs
        exact .stay
  | replay target =>
    obtain rfl := Option.some.inj hs
    exact .replay target
  | recover =>
    simp only [step, Option.map_eq_some_iff] at hs
    obtain ⟨p, hp, rfl⟩ := hs
    exact .recover hp
  | performed i | storeset ss =>
    obtain rfl := Option.some.inj hs
    exact .stay

/-- **The processor of a machine** runs as it does alone, on what its clusters and its store set answer. -/
theorem run_ooo {logical : RegType} {pc : ℕ} {es : List Event}
    (h : run (step k) (init k (.OoO logical pc)) es = some m) :
    ∃ es' o, run (OoO.step k.ooo) (OoO.init logical pc) es' = some o ∧ m.proc = .OoO o := by
  refine run_refines (R := fun m o => m.proc = .OoO o) ?_ h rfl
  intro m e m' o hs hp
  have hmoves := step_moves hs
  rw [hp] at hmoves
  exact hmoves.ooo

theorem run_inOrder {es : List Event} (h : run (step k) (init k .InOrder) es = some m) :
    ∃ es' o, run (InOrder.step k.MaxROBSize) InOrder.init es' = some o ∧ m.proc = .InOrder o := by
  refine run_refines (R := fun m o => m.proc = .InOrder o) ?_ h rfl
  intro m e m' o hs hp
  have hmoves := step_moves hs
  rw [hp] at hmoves
  exact hmoves.inOrder

end Machine

end Esesc.Core
