import Mathlib.Tactic.Common
import Mathlib.Algebra.Group.Nat.Defs
import Mathlib.Data.List.GetD
import Mathlib.Data.List.Nodup
import Esesc.Emul.Sampler

/-!
# The sampling schedule (`simu/libsampler/SamplerSMARTS.cpp`)

`SamplerSMARTS` goes through the cyclic sequence of its intervals. `fetchNextMode` moves on in the sequence before
the mode is read, also the first time.

* `queue_of_switches`, `queue_of_not_switches`: what a call of `queue` does to the schedule.
* `run_shifted`: every run follows the sequence from its second interval on.
* `run_schedule_iff`: when it follows the sequence from the first one on.
-/

namespace Esesc.Emul.Sampler

open Esesc.Lib EmuSampler

/-- The interval `k` of the cyclic sequence. -/
def Config.interval (c : Config) (k : ℕ) : EmuMode × Word := c.sequence.getD (k % c.sequence.length) (.rabbit, 0)

/-- The instructions before the switch `k`, when the first switch is to the interval `first`. -/
def Config.before (c : Config) (first : ℕ) : ℕ → ℕ
  | 0 => c.nInstSkip.toNat
  | k + 1 => c.before first k + (c.interval (first + k)).2.toNat

/-- The call of `queue` switches the mode. -/
def Switches (c : Config) (s : EmuSampler) (fid : ℕ) (icount : Word) : Prop :=
  (s.execute icount).done fid = false ∧ (s.execute icount).nextSwitch ≤ (s.execute icount).totalnInst ∧
    ¬((s.execute icount).totalnInst ≥ c.nInstMax ∨ (s.execute icount).endSimSiged = true)

instance (c : Config) (s : EmuSampler) (fid : ℕ) (icount : Word) : Decidable (Switches c s fid icount) :=
  inferInstanceAs (Decidable (_ ∧ _ ∧ _))

/-- A sampler, with the number of switches so far. -/
structure Counted where
  sampler : EmuSampler
  switches : ℕ

def countedStep (c : Config) (s : Counted) (e : Event) : Option Counted :=
  (step c s.sampler e).map fun t =>
    ⟨t, match e with
      | .queue fid icount _ => if Switches c s.sampler fid icount then s.switches + 1 else s.switches
      | _ => s.switches⟩

/-- **The schedule.** A switch is to the next interval of the sequence, not before all instructions of those before it,
and the next one is due when the instructions of this interval are over. -/
def OnSchedule (c : Config) (first : ℕ) (s : Counted) : Event → Prop
  | .queue fid icount w => Switches c s.sampler fid icount →
    (s.sampler.queue c fid icount w).mode = (c.interval (first + s.switches)).1 ∧
      c.before first s.switches ≤ (s.sampler.queue c fid icount w).totalnInst.toNat ∧
      (s.sampler.queue c fid icount w).nextSwitch.toNat =
        s.sampler.nextSwitch.toNat + (c.interval (first + s.switches)).2.toNat
  | _ => True

/-- The counter of the next switch does not wrap round. -/
def NoWrap (c : Config) (s : Counted) : Event → Prop
  | .queue fid icount _ => Switches c s.sampler fid icount →
    s.sampler.nextSwitch.toNat + (c.interval (1 + s.switches)).2.toNat < 2 ^ 64
  | _ => True

/-- Switches come only in a sequence of one interval. -/
def OneInterval (c : Config) (s : Counted) : Event → Prop
  | .queue fid icount _ => Switches c s.sampler fid icount →
    c.sequence.length = 1 ∧ s.sampler.nextSwitch.toNat + (c.interval 0).2.toNat < 2 ^ 64
  | _ => True

section

variable {c : Config} {s : EmuSampler} {m : EmuMode} {fid k first : ℕ} {icount : Word} {w : EmuSampler.Outside}

/-! ## The sequence -/

/-- No mode is in the sequence twice. -/
theorem modes_nodup (c : Config) : (c.sequence.map Prod.fst).Nodup := by
  unfold Config.sequence
  split <;> split <;> split <;> split <;> simp

theorem interval_eq_get (hne : c.sequence ≠ []) (k : ℕ) :
    c.interval k = c.sequence.get ⟨k % c.sequence.length, Nat.mod_lt k (List.length_pos_iff.2 hne)⟩ :=
  List.getD_eq_getElem _ _ _

/-- The position after `k`. -/
theorem next_pos {n : ℕ} (hn : 0 < n) (k : ℕ) : (if k % n + 1 ≥ n then 0 else k % n + 1) = (1 + k) % n := by
  have hlt := Nat.mod_lt k hn
  rw [Nat.add_comm 1 k, ← Nat.mod_add_mod]
  split
  · have hlast : k % n + 1 = n := by omega
    rw [hlast, Nat.mod_self]
  · exact (Nat.mod_eq_of_lt (by omega)).symm

/-- Consecutive intervals have different modes, unless there is one only. -/
theorem interval_succ_mode (hne : c.sequence ≠ []) (h : (c.interval (1 + k)).1 = (c.interval k).1) :
    c.sequence.length = 1 := by
  have hlt := Nat.mod_lt k (List.length_pos_iff.2 hne)
  have hnext := next_pos (List.length_pos_iff.2 hne) k
  rw [interval_eq_get hne, interval_eq_get hne] at h
  have hget := List.inj_on_of_nodup_map (modes_nodup c) (List.get_mem _ _) (List.get_mem _ _) h
  have hidx := List.nodup_iff_injective_get.1 (modes_nodup c).of_map hget
  rw [Fin.mk.injEq, ← hnext] at hidx
  split at hidx <;> omega

theorem interval_of_one (h : c.sequence.length = 1) (k : ℕ) : c.interval k = c.interval 0 := by
  rw [Config.interval, Config.interval, h, Nat.mod_one, Nat.mod_one]

theorem before_of_one (h : c.sequence.length = 1) (k : ℕ) : c.before 1 k = c.before 0 k := by
  induction k with
  | zero => rfl
  | succ k ih => rw [Config.before, Config.before, ih, interval_of_one h, interval_of_one h (0 + k)]

/-! ## One call -/

/-- What the schedule reads of a sampler. -/
structure SameSchedule (s t : EmuSampler) : Prop where
  nextSwitch : t.nextSwitch = s.nextSwitch
  sequencePos : t.sequencePos = s.sequencePos

theorem sameSchedule_stop (s : EmuSampler) : SameSchedule s s.stop := by
  rw [stop]
  split <;> exact ⟨rfl, rfl⟩

theorem sameSchedule_setMode (s : EmuSampler) (m : EmuMode) : SameSchedule s (s.setMode m) := by
  have hstop := sameSchedule_stop s
  cases m with
  | init => exact hstop
  | rabbit => exact ⟨hstop.nextSwitch, hstop.sequencePos⟩
  | warmup => exact ⟨hstop.nextSwitch, hstop.sequencePos⟩
  | detail => exact ⟨hstop.nextSwitch, hstop.sequencePos⟩
  | timing => exact ⟨hstop.nextSwitch, hstop.sequencePos⟩

theorem sameSchedule_markDone (s : EmuSampler) (c : Config) : SameSchedule s (s.markDone c) :=
  ⟨(sameSchedule_stop s).nextSwitch, (sameSchedule_stop s).sequencePos⟩

theorem sameSchedule_execute (s : EmuSampler) (icount : Word) : SameSchedule s (s.execute icount) := by
  rw [execute]
  split <;> exact ⟨rfl, rfl⟩

theorem setMode_mode (hm : m ≠ .init) : (s.setMode m).mode = m := by
  cases m with
  | init => exact absurd rfl hm
  | rabbit => rfl
  | warmup => rfl
  | detail => rfl
  | timing => rfl

theorem setMode_totalnInst (s : EmuSampler) (m : EmuMode) : (s.setMode m).totalnInst = s.totalnInst := by
  have hstop : s.stop.totalnInst = s.totalnInst := by
    rw [stop]
    split <;> rfl
  cases m <;> exact hstop

/-- **No switch.** -/
theorem queue_of_not_switches (hk : c.kind = .smarts) (h : ¬Switches c s fid icount) :
    SameSchedule s (s.queue c fid icount w) := by
  have hexec := sameSchedule_execute s icount
  rw [Switches] at h
  simp only [queue, hk, queueSMARTS]
  generalize s.execute icount = t at h hexec
  split
  · exact hexec
  · rename_i hdone
    split
    · exact hexec
    · rename_i hdue
      split
      · have hmark := sameSchedule_markDone (t.markThisDone fid) c
        split
        · exact ⟨hmark.nextSwitch.trans hexec.nextSwitch, hmark.sequencePos.trans hexec.sequencePos⟩
        · exact ⟨hexec.nextSwitch, hexec.sequencePos⟩
      · rename_i hmax
        exact absurd ⟨by simpa using hdone, BitVec.not_lt.1 hdue, hmax⟩ h

theorem nextModeSMARTS_spec (hne : c.sequence ≠ []) (hpos : s.sequencePos = k % c.sequence.length) :
    (s.nextModeSMARTS c).mode = (c.interval (1 + k)).1 ∧ (s.nextModeSMARTS c).totalnInst = s.totalnInst ∧
      (s.nextModeSMARTS c).nextSwitch = s.nextSwitch + (c.interval (1 + k)).2 ∧
      (s.nextModeSMARTS c).sequencePos = (1 + k) % c.sequence.length := by
  have hnext : (s.fetchNextMode c).sequencePos = (1 + k) % c.sequence.length := by
    rw [← next_pos (List.length_pos_iff.2 hne), ← hpos]
    rfl
  have hat : (s.fetchNextMode c).sequenceAt c = c.interval (1 + k) := by
    rw [sequenceAt, hnext]
    rfl
  have hinit := sequenceAt_ne_init c (s.fetchNextMode c)
  have hset := sameSchedule_setMode (s.fetchNextMode c) (c.interval (1 + k)).1
  have hat' : ((s.fetchNextMode c).setMode (c.interval (1 + k)).1).sequenceAt c = c.interval (1 + k) := by
    rw [sequenceAt, hset.sequencePos, hnext]
    rfl
  rw [hat] at hinit
  rw [nextModeSMARTS]
  simp only [hat, hat']
  refine ⟨setMode_mode hinit, setMode_totalnInst _ _, ?_, hset.sequencePos.trans hnext⟩
  rw [hset.nextSwitch]
  rfl

/-- **A switch** to the interval after the one the sampler is in. -/
theorem queue_of_switches (hk : c.kind = .smarts) (hne : c.sequence ≠ []) (h : Switches c s fid icount)
    (hpos : s.sequencePos = k % c.sequence.length) :
    (s.queue c fid icount w).mode = (c.interval (1 + k)).1 ∧
      (s.queue c fid icount w).totalnInst = (s.execute icount).totalnInst ∧
      (s.queue c fid icount w).nextSwitch = s.nextSwitch + (c.interval (1 + k)).2 ∧
      (s.queue c fid icount w).sequencePos = (1 + k) % c.sequence.length := by
  obtain ⟨hdone, hdue, hmax⟩ := h
  have hexec := sameSchedule_execute s icount
  simp only [queue, hk, queueSMARTS]
  rw [if_neg (by simp [hdone]), if_neg (BitVec.not_lt.2 hdue), if_neg hmax, ← hexec.nextSwitch]
  exact nextModeSMARTS_spec (s := { (s.execute icount) with lastMode := (s.execute icount).mode }) hne
    (hexec.sequencePos.trans hpos)

/-! ## Runs -/

/-- The sampler is where the number of switches says. -/
structure InStep (c : Config) (s : Counted) : Prop where
  sequencePos : s.sampler.sequencePos = s.switches % c.sequence.length
  nextSwitch : s.sampler.nextSwitch.toNat = c.before 1 s.switches

theorem inStep_init (c : Config) (finished done : ℕ → Bool) : InStep c ⟨EmuSampler.init c finished done, 0⟩ := by
  have hstart : (EmuSampler.init c finished done).sequencePos = 0 ∧
      (EmuSampler.init c finished done).nextSwitch = c.nInstSkip := by
    unfold EmuSampler.init
    simp only
    split
    · exact ⟨rfl, rfl⟩
    · split <;> exact ⟨rfl, rfl⟩
  refine ⟨hstart.1.trans (Nat.zero_mod _).symm, ?_⟩
  rw [hstart.2]
  rfl

theorem InStep.same {s : Counted} {t : EmuSampler} (h : InStep c s) (ht : SameSchedule s.sampler t) :
    InStep c ⟨t, s.switches⟩ := by
  refine ⟨ht.sequencePos.trans h.sequencePos, ?_⟩
  rw [ht.nextSwitch]
  exact h.nextSwitch

/-- **One event** keeps in step, if the counter does not wrap round. -/
theorem InStep.step {s s' : Counted} {e : Event} (hk : c.kind = .smarts) (hne : c.sequence ≠ [])
    (hs : countedStep c s e = some s') (hwrap : NoWrap c s e) (h : InStep c s) : InStep c s' := by
  cases e with
  | queue fid icount w =>
    obtain rfl := Option.some.inj hs
    -- only a switch moves on in the sequence, and it is counted
    by_cases hsw : Switches c s.sampler fid icount
    · obtain ⟨-, -, hnext, hpos⟩ := queue_of_switches (w := w) hk hne hsw h.sequencePos
      simp only [if_pos hsw]
      refine ⟨?_, ?_⟩
      · rw [Nat.add_comm]
        exact hpos
      · show (s.sampler.queue c fid icount w).nextSwitch.toNat = _
        rw [hnext, BitVec.toNat_add, Nat.mod_eq_of_lt (hwrap hsw), h.nextSwitch]
        rfl
    · simp only [if_neg hsw]
      exact h.same (queue_of_not_switches hk hsw)
  | setMode mod =>
    obtain rfl := Option.some.inj hs
    exact h.same (sameSchedule_setMode _ _)
  | syncStats =>
    obtain rfl := Option.some.inj hs
    refine h.same ?_
    rw [syncStats, hk]
    exact ⟨rfl, rfl⟩
  | markDone =>
    obtain rfl := Option.some.inj hs
    exact h.same (sameSchedule_markDone _ _)
  | stop =>
    obtain rfl := Option.some.inj hs
    exact h.same (sameSchedule_stop _)
  | others finished done =>
    obtain rfl := Option.some.inj hs
    exact h.same ⟨rfl, rfl⟩

/-- In step, a switch is to the next interval of the sequence that begins with its second one. -/
theorem onSchedule_iff {s : Counted} {e : Event} (hk : c.kind = .smarts) (hne : c.sequence ≠ []) (h : InStep c s) :
    OnSchedule c 1 s e ↔ NoWrap c s e := by
  cases e with
  | queue fid icount w =>
    refine forall_congr' fun hsw => ?_
    obtain ⟨hmode, htotal, hnext, -⟩ := queue_of_switches (w := w) hk hne hsw h.sequencePos
    have hdue := hsw.2.1
    rw [(sameSchedule_execute s.sampler icount).nextSwitch, BitVec.le_def, h.nextSwitch] at hdue
    have hsum := (s.sampler.nextSwitch + (c.interval (1 + s.switches)).2).isLt
    rw [hmode, htotal, hnext, BitVec.toNat_add]
    constructor
    · rintro ⟨-, -, hadd⟩
      omega
    · exact fun hlt => ⟨rfl, hdue, Nat.mod_eq_of_lt hlt⟩
  | setMode mod => exact Iff.rfl
  | syncStats => exact Iff.rfl
  | markDone => exact Iff.rfl
  | stop => exact Iff.rfl
  | others finished done => exact Iff.rfl

/-- **Shifted.** As long as the counter does not wrap round, every run follows the sequence from its second interval
on. -/
theorem run_shifted (hk : c.kind = .smarts) (hne : c.sequence ≠ []) (finished done : ℕ → Bool) (es : List Event) :
    Along (countedStep c) (OnSchedule c 1) ⟨EmuSampler.init c finished done, 0⟩ es ↔
      Along (countedStep c) (NoWrap c) ⟨EmuSampler.init c finished done, 0⟩ es :=
  along_iff_of_inv (I := InStep c) (fun _ _ _ hs hwrap h => h.step hk hne hs hwrap) (fun _ _ h => onSchedule_iff hk hne h)
    (inStep_init c finished done) es

/-- To begin with the second interval is to begin with the first one if there is only one. -/
theorem onSchedule_zero_iff {s : Counted} {e : Event} (hk : c.kind = .smarts) (hne : c.sequence ≠ [])
    (h : InStep c s) : OnSchedule c 0 s e ↔ OneInterval c s e := by
  have hone := onSchedule_iff (e := e) hk hne h
  cases e with
  | queue fid icount w =>
    refine forall_congr' fun hsw => ?_
    have hone := (forall_prop_of_true hsw).symm.trans (hone.trans (forall_prop_of_true hsw))
    obtain ⟨hmode, -⟩ := queue_of_switches (w := w) hk hne hsw h.sequencePos
    by_cases hlen : c.sequence.length = 1
    · rw [before_of_one hlen, interval_of_one hlen (1 + _)] at hone
      rw [interval_of_one hlen (0 + _), hone]
      exact ⟨fun hlt => ⟨hlen, hlt⟩, fun hlt => hlt.2⟩
    · refine ⟨fun hsched => ?_, fun hcond => absurd hcond.1 hlen⟩
      rw [hmode, Nat.zero_add] at hsched
      exact absurd (interval_succ_mode hne hsched.1) hlen
  | setMode mod => exact Iff.rfl
  | syncStats => exact Iff.rfl
  | markDone => exact Iff.rfl
  | stop => exact Iff.rfl
  | others finished done => exact Iff.rfl

theorem NoWrap.of_oneInterval {s : Counted} {e : Event} (h : OneInterval c s e) : NoWrap c s e := by
  cases e with
  | queue fid icount w =>
    intro hsw
    obtain ⟨hlen, hlt⟩ := h hsw
    rwa [interval_of_one hlen]
  | setMode mod => trivial
  | syncStats => trivial
  | markDone => trivial
  | stop => trivial
  | others finished done => trivial

/-- **The schedule.** In a run of `SamplerSMARTS`, every switch is to the next interval of the configured sequence from
its first one on, exactly when switches come only in a sequence of one interval, while the counter of the next switch
does not wrap round. -/
theorem run_schedule_iff (hk : c.kind = .smarts) (hne : c.sequence ≠ []) (finished done : ℕ → Bool)
    (es : List Event) : Along (countedStep c) (OnSchedule c 0) ⟨EmuSampler.init c finished done, 0⟩ es ↔
      Along (countedStep c) (OneInterval c) ⟨EmuSampler.init c finished done, 0⟩ es :=
  along_iff_of_inv (I := InStep c) (fun _ _ _ hs hcond h => h.step hk hne hs (.of_oneInterval hcond))
    (fun _ _ h => onSchedule_zero_iff hk hne h) (inStep_init c finished done) es

/-- One interval, of timing. -/
theorem run_schedule_one : Along (countedStep ⟨.smarts, 1000, 1000000, 0, 0, 0, 1000, 1, 1⟩)
    (OnSchedule ⟨.smarts, 1000, 1000000, 0, 0, 0, 1000, 1, 1⟩ 0)
    ⟨EmuSampler.init ⟨.smarts, 1000, 1000000, 0, 0, 0, 1000, 1, 1⟩ (fun _ => false) (fun _ => false), 0⟩
    [.queue 0 1000 ⟨0, none, false⟩] :=
  (run_schedule_iff rfl (by decide) _ _ _).2 ⟨fun _ => by decide, fun _ _ => trivial⟩

/-- Timing and rabbit: after the skipped instructions, the first switch is to rabbit again. -/
theorem not_run_schedule : ¬Along (countedStep ⟨.smarts, 1000, 1000000, 1000, 0, 0, 1000, 1, 1⟩)
    (OnSchedule ⟨.smarts, 1000, 1000000, 1000, 0, 0, 1000, 1, 1⟩ 0)
    ⟨EmuSampler.init ⟨.smarts, 1000, 1000000, 1000, 0, 0, 1000, 1, 1⟩ (fun _ => false) (fun _ => false), 0⟩
    [.queue 0 1000 ⟨0, none, false⟩] := by
  intro h
  exact absurd (h.1 (by decide)).1 (by decide)

end

end Esesc.Emul.Sampler
