import Mathlib.Logic.Relation
import Esesc.Emul.ExecuteHead

/-!
# Giving up in the middle of a pass

`executeHead` returns from inside a pass when it cannot wait for the FIFO any longer. It has
then reported the raw instruction at the head, and may have added some of its micro-operations,
but has not popped it.

`Cracker` says what a flow reports and adds when nothing has to be waited for: it cracks the
sequence pushed, pass after pass. A flow that never gave up is somewhere along that path,
whatever the timing of the two threads; one that gave up, and starts another pass, has left it.

* `stepCall_sim`: a part of a call is at most one step of the `Cracker`.
* `Cracker.Inv`: the `Cracker` reports no raw instruction twice.
* `unlagged_iff`: records stay on the path exactly as long as no pass starts after a call that
  gave up.
* `reports_twice`: a run that leaves it.
-/

namespace Esesc.Emul

open Esesc.Lib

/-! ## Cracking without waiting -/

/-- Where a pass is, with everything it waits for left out. -/
inductive Spot where
  | loop (p : Pass)
  | uop (p : Pass) (j : ℕ)
  | next (p : Pass) (j : ℕ)
  | create (p : Pass) (j : ℕ)
  | pop (p : Pass)
  deriving DecidableEq

/-- What the tests of micro-operation `j` lead to. -/
def Spot.afterTests (p : Pass) (r : RAWDInst) (j : ℕ) : Spot :=
  if r.getNumInst ≤ j then .pop p
  else if r.skips j then .uop p (j + 1)
  else if p.mayMerge r j then .next p j
  else .create p j

/-- The passes of `executeHead` over a sequence of raw instructions, one after another. -/
structure Cracker where
  pos : ℕ
  spot : Spot
  reported : List (ℕ × RAWDInst)
  added : List UOp

namespace Cracker

def init : Cracker := ⟨0, .loop .start, [], []⟩

/-- One step over the sequence `tr`; none if it is not that long. -/
def step (tr : List RAWDInst) (u : Cracker) : Option Cracker :=
  match u.spot with
  | .loop p =>
    if p.i < 237 then
      tr[u.pos]?.map fun r => { u with spot := .uop p 0, reported := u.reported ++ [(u.pos, r)] }
    else some { u with spot := .loop .start }
  | .uop p j =>
    tr[u.pos]?.map fun r => { u with spot := .afterTests p r j }
  | .next p j =>
    tr[u.pos]?.bind fun r => tr[u.pos + 1]?.map fun r2 =>
      if r2.pc = r.pc then
        { u with
          pos := u.pos + 1
          spot := .create p (r2.mergedIndex j)
          reported := u.reported ++ [(u.pos + 1, r2)] }
      else { u with spot := .create p j }
  | .create p j =>
    tr[u.pos]?.map fun r => { u with
      added := u.added ++ [r.crack j]
      spot := if r.breaks j then .pop (p.note r j) else .uop (p.note r j) (j + 1) }
  | .pop p => some { u with pos := u.pos + 1, spot := .loop { p with i := p.i + 1 } }

/-- What the `Cracker` gets to on the sequence `tr`. -/
def Reaches (tr : List RAWDInst) (u : Cracker) : Prop :=
  Relation.ReflTransGen (fun a b => step tr a = some b) init u

/-- The places reported are distinct, the last of them is the current one, if it was reported. -/
structure Inv (u : Cracker) : Prop where
  nodup : (u.reported.map Prod.fst).Nodup
  below : ∀ n ∈ u.reported.map Prod.fst, n ≤ u.pos
  fresh : ∀ p, u.spot = .loop p → u.pos ∉ u.reported.map Prod.fst
  current : (∀ p, u.spot ≠ .loop p) → u.pos ∈ u.reported.map Prod.fst

theorem inv_init : Inv init where
  nodup := List.nodup_nil
  below := nofun
  fresh := fun _ _ => List.not_mem_nil
  current := fun h => absurd rfl (h .start)

section Inv

variable {tr tr' : List RAWDInst} {u v : Cracker}

/-- A place above all those reported. -/
theorem Inv.nodup_concat (h : u.Inv) {n : ℕ} {r : RAWDInst} (hn : n ∉ u.reported.map Prod.fst) :
    ((u.reported ++ [(n, r)]).map Prod.fst).Nodup := by
  rw [List.map_append]
  refine List.pairwise_append.2 ⟨h.nodup, List.pairwise_singleton _ _, fun m hm b hb hmb => hn ?_⟩
  rwa [hmb, List.mem_singleton.1 hb] at hm

theorem Inv.below_concat (h : u.Inv) {n : ℕ} {r : RAWDInst} (hn : u.pos ≤ n) :
    ∀ m ∈ (u.reported ++ [(n, r)]).map Prod.fst, m ≤ n := by
  intro m hm
  rw [List.map_append, List.mem_append] at hm
  rcases hm with hm | hm
  · exact (h.below m hm).trans hn
  · rw [List.mem_singleton.1 hm]

theorem mem_concat (l : List (ℕ × RAWDInst)) (n : ℕ) (r : RAWDInst) : n ∈ (l ++ [(n, r)]).map Prod.fst := by
  simp

/-- Going on at the same place. -/
theorem Inv.sameSpot (h : u.Inv) (hu : ∀ p, u.spot ≠ .loop p) {spot : Spot} (hs : ∀ p, spot ≠ .loop p)
    (added : List UOp) : Inv { u with spot := spot, added := added } :=
  ⟨h.nodup, h.below, fun p hp => absurd hp (hs p), fun _ => h.current hu⟩

theorem Inv.step (h : u.Inv) (hs : u.step tr = some v) : v.Inv := by
  unfold Cracker.step at hs
  cases hspot : u.spot with
  | loop p =>
    have hfresh := h.fresh p hspot
    simp only [hspot] at hs
    split at hs
    · obtain ⟨r, -, rfl⟩ := Option.map_eq_some_iff.1 hs
      exact ⟨h.nodup_concat hfresh, h.below_concat le_rfl, nofun, fun _ => mem_concat _ _ _⟩
    · obtain rfl := Option.some.inj hs
      exact ⟨h.nodup, h.below, fun _ _ => hfresh, fun hn => absurd rfl (hn .start)⟩
  | uop p j =>
    simp only [hspot] at hs
    obtain ⟨r, -, rfl⟩ := Option.map_eq_some_iff.1 hs
    refine h.sameSpot (by simp [hspot]) (fun q => ?_) u.added
    unfold Spot.afterTests
    split
    · nofun
    · split
      · nofun
      · split <;> nofun
  | next p j =>
    simp only [hspot] at hs
    obtain ⟨r, -, hs⟩ := Option.bind_eq_some_iff.1 hs
    obtain ⟨r2, -, rfl⟩ := Option.map_eq_some_iff.1 hs
    split
    · have hnot : u.pos + 1 ∉ u.reported.map Prod.fst := fun hmem => absurd (h.below _ hmem) (by omega)
      exact ⟨h.nodup_concat hnot, h.below_concat (Nat.le_succ _), nofun, fun _ => mem_concat _ _ _⟩
    · exact h.sameSpot (by simp [hspot]) (fun q hq => by cases hq) u.added
  | create p j =>
    simp only [hspot] at hs
    obtain ⟨r, -, rfl⟩ := Option.map_eq_some_iff.1 hs
    refine h.sameSpot (by simp [hspot]) (fun q => ?_) _
    split <;> nofun
  | pop p =>
    simp only [hspot] at hs
    obtain rfl := Option.some.inj hs
    refine ⟨h.nodup, fun n hn => (h.below n hn).trans (Nat.le_succ _), fun _ _ hmem => ?_, ?_⟩
    · exact absurd (h.below _ hmem) (by simp)
    · exact fun hn => absurd rfl (hn _)

theorem Reaches.inv (h : Reaches tr u) : u.Inv := by
  induction h with
  | refl => exact inv_init
  | tail _ hs ih => exact ih.step hs

/-- More to crack changes nothing about what was cracked. -/
theorem step_mono (hpre : tr <+: tr') (hs : u.step tr = some v) : u.step tr' = some v := by
  obtain ⟨l, rfl⟩ := hpre
  have hget : ∀ {n : ℕ} {r : RAWDInst}, tr[n]? = some r → (tr ++ l)[n]? = some r := by
    intro n r hr
    rw [List.getElem?_append_left (List.getElem?_eq_some_iff.1 hr).1]
    exact hr
  unfold Cracker.step at hs ⊢
  cases hspot : u.spot with
  | loop p =>
    simp only [hspot] at hs ⊢
    split at hs
    · rename_i hi
      obtain ⟨r, hr, rfl⟩ := Option.map_eq_some_iff.1 hs
      rw [if_pos hi, hget hr]
      rfl
    · rename_i hi
      rw [if_neg hi]
      exact hs
  | uop p j =>
    simp only [hspot] at hs ⊢
    obtain ⟨r, hr, rfl⟩ := Option.map_eq_some_iff.1 hs
    rw [hget hr]
    rfl
  | next p j =>
    simp only [hspot] at hs ⊢
    obtain ⟨r, hr, hs⟩ := Option.bind_eq_some_iff.1 hs
    obtain ⟨r2, hr2, rfl⟩ := Option.map_eq_some_iff.1 hs
    rw [hget hr, hget hr2]
    rfl
  | create p j =>
    simp only [hspot] at hs ⊢
    obtain ⟨r, hr, rfl⟩ := Option.map_eq_some_iff.1 hs
    rw [hget hr]
    rfl
  | pop p =>
    simp only [hspot] at hs ⊢
    exact hs

theorem Reaches.mono (hpre : tr <+: tr') (h : Reaches tr u) : Reaches tr' u :=
  Relation.ReflTransGen.mono (fun _ _ hs => step_mono hpre hs) _ _ h

end Inv

end Cracker

/-! ## The flow and the `Cracker` -/

/-- The spot a call is at; between passes, the next pass is about to start. -/
def Call.spot : Call → Spot
  | .idle | .full1 _ | .full2 _ | .active | .ret => .loop .start
  | .loop p => .loop p
  | .uop f => .uop f.toPass f.j
  | .realsize1 f | .realsize2 f | .realsize3 f _ | .wait1 f _ | .wait2 f _ | .waitActive f
  | .waitEmpty f | .next f => .next f.toPass f.j
  | .create f => .create f.toPass f.j
  | .pop f => .pop f.toPass

namespace Reader

open Cracker

/-- The records of a flow, as a `Cracker` has them. -/
def cracker (s : Reader) : Cracker := ⟨s.flow.popped.length, s.call.spot, s.reported, s.added⟩

/-- The records are those of cracking the sequence pushed without waiting. -/
def Unlagged (s : Reader) : Prop :=
  ∃ u, Reaches s.flow.pushed u ∧ u.reported = s.reported ∧ u.added = s.added

/-- No pass starts after a call gave up. -/
def keepsOut (s : Reader) : Act → Bool
  | .simulator _ =>
    match s.call with
    | .loop _ => !s.gaveUp
    | _ => true
  | _ => true

section Sim

variable {s s' : Reader}

theorem spot_between {c : Call} (hc : c.between = true) : c.spot = .loop .start := by
  cases c with
  | idle | full1 again | full2 again | active | ret => rfl
  | _ => cases hc

theorem spot_waiting {c : Call} {f : Frame} (hc : c.waiting = some f) : c.spot = .next f.toPass f.j := by
  cases c <;> cases hc <;> rfl

theorem spot_afterTests (f : Frame) (r : RAWDInst) : (f.afterTests r).spot = .afterTests f.toPass r f.j := by
  unfold Frame.afterTests Spot.afterTests
  split
  · rfl
  · split
    · rfl
    · split <;> rfl

/-- **A part of a call** is a step of the `Cracker`, or none, unless the call gives up. -/
theorem stepCall_sim {b : Bool} (h : s.Ok) (hspare : s.spare (.simulator b) = true)
    (hs : s.stepCall b = some s') :
    (s' = s.giveUp ∧ ∃ f : Frame, s.call.spot = .next f.toPass f.j) ∨
    (s'.flow.pushed = s.flow.pushed ∧ s'.gaveUp = s.gaveUp ∧
      (s'.cracker = s.cracker ∨ s.cracker.step s.flow.pushed = some s'.cracker)) := by
  have hpub := h.touchesPublished hspare
  -- what a turn reads at the head is what the `Cracker` has there
  have hderef : ∀ {f : Frame}, s.call = .uop f ∨ s.call = .next f ∨ s.call = .create f →
      s.flow.pushed[s.flow.popped.length]? = some (s.deref f.rinst) := by
    rintro f (hc | hc | hc) <;> exact hpub (s.flow.popped.length, s.deref f.rinst) (by simp [touches, hc])
  cases stepCall_part hs with
  | between hc hc' =>
    refine .inr ⟨rfl, rfl, .inl ?_⟩
    simp only [cracker, spot_between hc, spot_between hc']
  | start hc _ =>
    refine .inr ⟨rfl, rfl, .inl ?_⟩
    simp only [cracker, spot_between hc]
    rfl
  | turn hc hi =>
    have hr := hpub (s.flow.popped.length, s.flow.tsfifo.getHeadRef) (by simp [touches, hc, hi, ThreadSafeFIFO.size])
    refine .inr ⟨rfl, rfl, .inr ?_⟩
    simp only [cracker, hc, Call.spot, Cracker.step, hr, Option.map_some, if_pos hi]
    rfl
  | finish hc hi =>
    refine .inr ⟨rfl, rfl, .inr ?_⟩
    simp only [cracker, hc, Call.spot, Cracker.step, if_neg hi]
  | tests hc =>
    refine .inr ⟨rfl, rfl, .inr ?_⟩
    simp only [cracker, spot_afterTests]
    simp only [hc, Call.spot, Cracker.step, hderef (.inl hc), Option.map_some]
  | wait hf hc =>
    refine .inr ⟨rfl, rfl, .inl ?_⟩
    simp only [cracker, spot_waiting hf, spot_waiting hc]
  | giveUp hf => exact .inl ⟨rfl, _, spot_waiting hf⟩
  | merge hc =>
    have hr2 := hpub (s.flow.popped.length + 1, s.flow.tsfifo.getNextHeadRef) (by simp [touches, hc])
    refine .inr ?_
    simp only [cracker, hc, Call.spot, Cracker.step, hderef (.inr (.inl hc)), hr2, Option.bind_some,
      Option.map_some, merge]
    split
    · refine ⟨rfl, rfl, .inr ?_⟩
      simp [report, popFIFO]
    · exact ⟨rfl, rfl, .inr rfl⟩
  | create hc =>
    refine .inr ⟨rfl, rfl, .inr ?_⟩
    simp only [cracker, hc, Call.spot, Cracker.step, hderef (.inr (.inr hc)), Option.map_some, createUOp]
    split <;> rfl
  | pop hc =>
    refine .inr ⟨rfl, rfl, .inr ?_⟩
    simp [cracker, hc, Call.spot, Cracker.step, popFIFO]
  | ret hc =>
    refine .inr ⟨rfl, rfl, .inl ?_⟩
    simp only [cracker, hc]
    rfl

/-- Between passes, or at the very start of one. -/
def outside : Call → Bool
  | .idle | .full1 _ | .full2 _ | .active | .ret => true
  | .loop p => p == .start
  | _ => false

theorem outside_between {c : Call} (hc : c.between = true) : outside c = true := by
  cases c with
  | idle | full1 again | full2 again | active | ret => rfl
  | _ => cases hc

theorem outside_waiting {c : Call} {f : Frame} (hc : c.waiting = some f) : outside c = false := by
  cases c <;> cases hc <;> rfl

/-- What the records say of a flow: it is where the `Cracker` is, or it gave up at a raw
instruction that was reported and is still at the head. -/
structure Tracks (s : Reader) : Prop where
  ok : s.Ok
  going : s.gaveUp = false → Reaches s.flow.pushed s.cracker
  stopped : s.gaveUp = true →
    s.Unlagged ∧ s.flow.popped.length ∈ s.reported.map Prod.fst ∧ outside s.call = true

theorem tracks_init (array : UInt8 → RAWDInst) : (init array).Tracks :=
  ⟨ok_init array, fun _ => .refl, nofun⟩

theorem Tracks.unlagged (h : s.Tracks) : s.Unlagged := by
  cases hg : s.gaveUp with
  | false => exact ⟨s.cracker, h.going hg, rfl, rfl⟩
  | true => exact (h.stopped hg).1

/-- A flow whose records and head do not change keeps track. -/
theorem Tracks.same (h : s.Tracks) (hok : s'.Ok) (hpush : s.flow.pushed <+: s'.flow.pushed)
    (hpop : s'.flow.popped = s.flow.popped) (hrep : s'.reported = s.reported) (hadd : s'.added = s.added)
    (hgave : s'.gaveUp = s.gaveUp) (hspot : s'.call.spot = s.call.spot)
    (hout : outside s.call = true → outside s'.call = true) : s'.Tracks where
  ok := hok
  going hg := by
    have hcracker : s'.cracker = s.cracker := by simp only [cracker, hpop, hspot, hrep, hadd]
    rw [hcracker]
    exact (h.going (hgave ▸ hg)).mono hpush
  stopped hg := by
    obtain ⟨⟨u, hu, hur, hua⟩, hmem, ho⟩ := h.stopped (hgave ▸ hg)
    refine ⟨⟨u, hu.mono hpush, hur.trans hrep.symm, hua.trans hadd.symm⟩, ?_, hout ho⟩
    rw [hpop, hrep]
    exact hmem

/-- A call that gives up has reported the raw instruction at the head. -/
theorem Tracks.giveUp (h : s.Tracks) (hg : s.gaveUp = false) {f : Frame}
    (hf : s.call.spot = .next f.toPass f.j) (hok : s.giveUp.Ok) : s.giveUp.Tracks where
  ok := hok
  going := nofun
  stopped _ := by
    have hreach := h.going hg
    refine ⟨⟨s.cracker, hreach, rfl, rfl⟩, ?_, rfl⟩
    refine hreach.inv.current fun p hp => ?_
    rw [show s.cracker.spot = _ from hf] at hp
    cases hp

/-- After a call gave up, the parts of a call outside a pass leave the records alone. -/
theorem stepCall_outside {b : Bool} (hs : s.stepCall b = some s') (hout : outside s.call = true)
    (hloop : ∀ p, s.call ≠ .loop p) :
    s'.flow = s.flow ∧ s'.reported = s.reported ∧ s'.added = s.added ∧ s'.gaveUp = s.gaveUp ∧
      s'.call.spot = s.call.spot ∧ outside s'.call = true := by
  cases stepCall_part hs with
  | between hc hc' => exact ⟨rfl, rfl, rfl, rfl, (spot_between hc').trans (spot_between hc).symm, outside_between hc'⟩
  | start hc _ => exact ⟨rfl, rfl, rfl, rfl, (spot_between hc).symm, rfl⟩
  | turn hc _ | finish hc _ => exact absurd hc (hloop _)
  | tests hc | merge hc | create hc | pop hc =>
    rw [hc] at hout
    cases hout
  | wait hf _ | giveUp hf =>
    rw [outside_waiting hf] at hout
    cases hout
  | ret hc => exact ⟨rfl, rfl, rfl, rfl, by rw [hc]; rfl, rfl⟩

theorem Tracks.stepCall {b : Bool} (h : s.Tracks) (hs : s.stepCall b = some s')
    (hspare : s.spare (.simulator b) = true) (hkeep : ∀ p, s.call = .loop p → s.gaveUp = false) : s'.Tracks := by
  have hok : s'.Ok := Ok.step s (.simulator b) s' hs hspare h.ok
  cases hg : s.gaveUp with
  | true =>
    have hloop : ∀ p, s.call ≠ .loop p := by
      intro p hp
      rw [hkeep p hp] at hg
      cases hg
    obtain ⟨hflow, hrep, hadd, hgave, hspot, hout⟩ := stepCall_outside hs (h.stopped hg).2.2 hloop
    exact h.same hok (hflow ▸ List.prefix_rfl) (by rw [hflow]) hrep hadd hgave hspot fun _ => hout
  | false =>
    rcases stepCall_sim h.ok hspare hs with ⟨rfl, f, hf⟩ | ⟨hpush, hgave, hsim⟩
    · exact h.giveUp hg hf hok
    · refine ⟨hok, fun _ => ?_, fun hg' => ?_⟩
      · rw [hpush]
        rcases hsim with heq | hstep
        · rw [heq]
          exact h.going hg
        · exact .tail (h.going hg) hstep
      · rw [hgave, hg] at hg'
        cases hg'

theorem Tracks.step (s : Reader) (a : Act) (s' : Reader) (hs : s.step a = some s') (hspare : s.spare a = true)
    (hkeep : s.keepsOut a = true) (h : s.Tracks) : s'.Tracks := by
  have hok : s'.Ok := Ok.step s a s' hs hspare h.ok
  have hemul : ∀ {b : Flow.Act} {fl : Flow}, s.flow.step b = some fl → b ≠ .pop → s' = { s with flow := fl } →
      s'.Tracks := by
    rintro b fl hb hne rfl
    obtain ⟨hpop, -, hpush⟩ := Flow.step_emulator hb hne
    exact h.same hok hpush hpop rfl rfl rfl rfl id
  cases a with
  | queueInstruction r =>
    obtain ⟨fl, hb, rfl⟩ := Option.map_eq_some_iff.1 hs
    exact hemul hb nofun rfl
  | syscall num time =>
    obtain ⟨fl, hb, rfl⟩ := Option.map_eq_some_iff.1 hs
    exact hemul hb nofun rfl
  | emulator =>
    obtain ⟨fl, hb, rfl⟩ := Option.map_eq_some_iff.1 hs
    exact hemul hb nofun rfl
  | executeHead =>
    simp only [Reader.step, Option.ite_none_right_eq_some, Option.some.injEq] at hs
    obtain ⟨hidle, rfl⟩ := hs
    refine h.same hok List.prefix_rfl rfl rfl rfl rfl ?_ fun _ => ?_
    · rw [hidle]
      simp only
      split <;> rfl
    · simp only
      split <;> rfl
  | simulator b => exact h.stepCall hs hspare fun p hp => by simpa [keepsOut, hp] using hkeep
  | reexecuteTail =>
    simp only [Reader.step, Option.ite_none_right_eq_some, Option.some.injEq] at hs
    obtain ⟨-, rfl⟩ := hs
    exact h.same hok List.prefix_rfl rfl rfl rfl rfl rfl id
  | syncHeadTail =>
    simp only [Reader.step, Option.ite_none_right_eq_some, Option.some.injEq] at hs
    obtain ⟨-, rfl⟩ := hs
    exact h.same hok List.prefix_rfl rfl rfl rfl rfl rfl id

/-- A pass that starts after a call gave up reports the raw instruction at the head again. -/
theorem not_unlagged {a : Act} (hs : s.step a = some s') (hkeep : ¬s.keepsOut a = true) (h : s.Tracks) :
    ¬s'.Unlagged := by
  obtain ⟨b, p, rfl, hc, hg⟩ : ∃ b p, a = .simulator b ∧ s.call = .loop p ∧ s.gaveUp = true := by
    cases a with
    | simulator b =>
      cases hc : s.call with
      | loop p => exact ⟨b, p, rfl, rfl, by simpa [keepsOut, hc] using hkeep⟩
      | _ => simp [keepsOut, hc] at hkeep
    | _ => simp [keepsOut] at hkeep
  obtain ⟨-, hmem, hout⟩ := h.stopped hg
  obtain rfl : p = .start := by simpa [hc, outside] using hout
  have hrep : s'.reported = s.reported ++ [(s.flow.popped.length, s.flow.tsfifo.getHeadRef)] := by
    simp only [Reader.step, Reader.stepCall, hc] at hs
    have hi : Pass.start.i < s.flow.tsfifo.size := by simp [Pass.start, ThreadSafeFIFO.size]
    rw [if_pos hi] at hs
    obtain rfl := Option.some.inj hs
    rfl
  rintro ⟨u, hu, hur, -⟩
  have hnodup := hu.inv.nodup
  rw [hur, hrep, List.map_append] at hnodup
  exact (List.pairwise_append.1 hnodup).2.2 _ hmem _ (List.mem_singleton.2 rfl) rfl

end Sim

/-- **Giving up and starting again.** Let a pass always have enough queued (`spare`). Then the
raw instructions reported and the micro-operations added are those of cracking the sequence
pushed without waiting, at every moment of a run, exactly when no pass starts after a call gave
up in the middle of one. -/
theorem unlagged_iff (array : UInt8 → RAWDInst) (as : List Act) (s : Reader)
    (h : run step (init array) as = some s) (hspare : Along step (fun s a => s.spare a = true) (init array) as) :
    (∀ bs t, bs <+: as → run step (init array) bs = some t → t.Unlagged) ↔
      Along step (fun s a => s.keepsOut a = true) (init array) as :=
  forall_prefix_iff_along (fun _ ht => ht.unlagged) (fun s a s' hs hsp hk ht => Tracks.step s a s' hs hsp hk ht)
    (fun _ _ _ hs _ hk ht => not_unlagged hs hk ht) h hspare (tracks_init array)

/-- A full FIFO, and a pass up to its first merge. -/
theorem unlagged_iff_pass :
    Along step (fun s a => s.keepsOut a = true) (init fun _ => load) (pushes (.replicate 255 load) ++ calls 14) ∧
      ∀ bs t, bs <+: pushes (.replicate 255 load) ++ calls 14 →
        run step (init fun _ => load) bs = some t → t.Unlagged := by
  have hrun : (run step (init fun _ => load) (pushes (.replicate 255 load) ++ calls 14)).isSome = true := by
    decide +kernel
  have hkeep : Along step (fun s a => s.keepsOut a = true) (init fun _ => load)
      (pushes (.replicate 255 load) ++ calls 14) := by
    decide +kernel
  obtain ⟨s, hs⟩ := Option.isSome_iff_exists.1 hrun
  exact ⟨hkeep, (unlagged_iff _ _ s hs (by decide +kernel)).2 hkeep⟩

/-- A load at address 0, which is skipped. -/
def skipped : RAWDInst := { load with pc := 0x9000, addr := 0 }

/-- Two loads that the decoder made of one instruction. -/
def twoLoads : RAWDInst :=
  { load with pc := 0xb000, predec := [⟨.iLALU_LD, 0, 0, 0, 0⟩, ⟨.iLALU_LD, 0, 0, 0, 0⟩] }

/-- A full FIFO in which a pass makes 49 merges; the second load of `twoLoads` then finds 16
elements queued. -/
def merging : List RAWDInst :=
  .replicate 99 load ++ .replicate 139 skipped ++ [{ Flow.nop with pc := 0xa000 }, twoLoads] ++ .replicate 15 skipped

/-- A pass over `merging`, in which the sampler stops while the second load of `twoLoads` waits;
52 calls that hand out what was added; and another pass, once the FIFO is full again. -/
def resumed : List Act :=
  pushes merging ++ calls 1018 ++ [.simulator false] ++ (List.replicate 52 (calls 1)).flatten ++
    pushes (.replicate 238 skipped) ++ calls 4

/-- **Reported twice, added twice.** The pass after the one that gave up reports `twoLoads`
again, and adds its first load again. -/
theorem reports_twice :
    ∃ s, run step (init fun _ => load) resumed = some s ∧
      (s.reported.drop 239).map Prod.fst = [239, 239] ∧
      s.added.drop 51 = [twoLoads.crack 0, twoLoads.crack 0] ∧ ¬s.Unlagged := by
  have hrun : ((run step (init fun _ => load) resumed).any fun s =>
      (s.reported.drop 239).map Prod.fst == [239, 239] &&
        s.added.drop 51 == [twoLoads.crack 0, twoLoads.crack 0]) = true := by
    simp only [resumed, List.append_assoc]
    rw [run_append, ← filled_nil, run_pushes _ _ (by decide +kernel) (by decide +kernel)]
    decide +kernel
  obtain ⟨s, hs, h⟩ := (Option.any_eq_true _ _).1 hrun
  simp only [Bool.and_eq_true, beq_iff_eq] at h
  obtain ⟨hrep, hadd⟩ := h
  refine ⟨s, hs, hrep, hadd, ?_⟩
  rintro ⟨u, hu, hur, -⟩
  have hsub : [239, 239].Sublist (s.reported.map Prod.fst) := by
    rw [← hrep]
    exact (List.drop_sublist _ _).map _
  have hnodup := hu.inv.nodup
  rw [hur] at hnodup
  exact absurd (hnodup.sublist hsub) (by decide)

end Reader

end Esesc.Emul
