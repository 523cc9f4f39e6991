import Mathlib.Tactic.Common
import Mathlib.Logic.Function.Basic
import Esesc.Lib.Machine

/-!
# The samplers' instruction accounts

A sampler goes through modes and counts instructions twice: in `totalnInst`, and in
`phasenInst` for the mode that runs, which `stop` moves to the mode's own counter `iusage`.
`EmuSampler` holds the counters, `SamplerSMARTS` and `SamplerPeriodic` decide when the mode
changes. All counters are machine words.

* `Balanced`: what the modes were given, with the phase that runs, is the total.
* `lost_beginTiming`, `lost_markDone`, `lost_queue`: what each call loses.
* `balanced_step_iff`: one call keeps the balance exactly when it loses nothing.
* `sampler_accounting_iff`: the same along runs.
-/

namespace Esesc.Emul.Sampler

open Esesc.Lib

/-- A 64-bit counter. -/
abbrev Word := BitVec 64

inductive EmuMode
  | init
  | rabbit
  | warmup
  | detail
  | timing
  deriving DecidableEq

/-- Which of the two samplers. -/
inductive Kind
  | smarts
  | periodic
  deriving DecidableEq

/-- What the constructors read from the configuration. -/
structure Config where
  kind : Kind
  nInstSkip : Word
  nInstMax : Word
  nInstRabbit : Word
  nInstWarmup : Word
  nInstDetail : Word
  nInstTiming : Word
  numEmuls : ℕ
  numFlows : ℕ

/-- `sequence_mode` and `sequence_size`. Rabbit is last because the run starts with `nInstSkip`. -/
def Config.sequence (c : Config) : List (EmuMode × Word) :=
  (if c.nInstWarmup > 0 then [(.warmup, c.nInstWarmup)] else []) ++
  (if c.nInstDetail > 0 then [(.detail, c.nInstDetail)] else []) ++
  (if c.nInstTiming > 0 then [(.timing, c.nInstTiming)] else []) ++
  (if c.nInstRabbit > 0 then [(.rabbit, c.nInstRabbit)] else [])

/-- The `next2EmuTiming` of `SamplerPeriodic`. -/
def Config.next2EmuTiming (c : Config) : EmuMode :=
  if c.nInstRabbit > 0 then .rabbit
  else if c.nInstWarmup > 0 then .warmup
  else if c.nInstDetail > 0 then .detail
  else .timing

/-- A sampler. `finished` and `done` are static, so other samplers write to them too. -/
structure EmuSampler where
  mode : EmuMode
  lastMode : EmuMode
  phasenInst : Word
  totalnInst : Word
  localIcount : Word
  stopJustCalled : Bool
  iusage : EmuMode → Word
  nextSwitch : Word
  sequencePos : ℕ
  endSimSiged : Bool
  finished : ℕ → Bool
  done : ℕ → Bool

namespace EmuSampler

/-! ## `EmuSampler` -/

def beginTiming (s : EmuSampler) (mod : EmuMode) : EmuSampler :=
  { s with stopJustCalled := false, phasenInst := 0, mode := mod }

def stop (s : EmuSampler) : EmuSampler :=
  if s.stopJustCalled then s
  else { s with
    iusage := Function.update s.iusage s.mode (s.iusage s.mode + s.phasenInst)
    phasenInst := 0
    stopJustCalled := true }

def startInit (s : EmuSampler) : EmuSampler := s.beginTiming .init

def startRabbit (s : EmuSampler) : EmuSampler := s.beginTiming .rabbit

def startWarmup (s : EmuSampler) : EmuSampler := s.beginTiming .warmup

def startDetail (s : EmuSampler) : EmuSampler := s.beginTiming .detail

def startTiming (s : EmuSampler) : EmuSampler := s.beginTiming .timing

def setMode (s : EmuSampler) : EmuMode → EmuSampler
  | .rabbit => s.stop.startRabbit
  | .warmup => s.stop.startWarmup
  | .detail => s.stop.startDetail
  | .timing => s.stop.startTiming
  | .init => s.stop

/-- What `execute` adds to the two counters: nothing, until a hundred instructions are there. -/
def flushed (s : EmuSampler) (icount : Word) : Word :=
  if s.localIcount + icount < 100 then 0 else s.localIcount + icount

/-- The counters after `execute`, which returns `!done[fid]`. -/
def execute (s : EmuSampler) (icount : Word) : EmuSampler :=
  if s.localIcount + icount < 100 then { s with localIcount := s.localIcount + icount }
  else { s with
    phasenInst := s.phasenInst + (s.localIcount + icount)
    totalnInst := s.totalnInst + (s.localIcount + icount)
    localIcount := 0 }

def markDone (c : Config) (s : EmuSampler) : EmuSampler :=
  let s := s.stop
  { s with done := fun i => decide (i < c.numEmuls - 1) || s.done i, phasenInst := 0 }

/-! ## `SamplerBase` -/

/-- `SamplerSMARTS` has an empty one of its own. -/
def syncStats (c : Config) (s : EmuSampler) : EmuSampler :=
  match c.kind with
  | .smarts => s
  | .periodic => if s.phasenInst = 0 ∨ s.mode = .init then s else s.stop.beginTiming s.mode

def fetchNextMode (c : Config) (s : EmuSampler) : EmuSampler :=
  { s with sequencePos := if s.sequencePos + 1 ≥ c.sequence.length then 0 else s.sequencePos + 1 }

/-- The mode of the sequence and its size, where the sampler is in it. -/
def sequenceAt (c : Config) (s : EmuSampler) : EmuMode × Word := c.sequence.getD s.sequencePos (.rabbit, 0)

/-! ## `SamplerSMARTS` and `SamplerPeriodic` -/

/-- What the two samplers take from outside: `SamplerPeriodic` computes the next switch in
floating point, and the clock and the power model may end the simulation or ask for the
statistics. -/
structure Outside where
  nextSwitch : Word
  endSim : Option Bool
  doPWTH : Bool

def markThisDone (s : EmuSampler) (fid : ℕ) : EmuSampler := { s with finished := Function.update s.finished fid true }

def allDone (c : Config) (s : EmuSampler) : Bool := (List.range c.numFlows).all s.finished

def nextModeSMARTS (c : Config) (s : EmuSampler) : EmuSampler :=
  let s := s.fetchNextMode c
  let s := s.setMode (s.sequenceAt c).1
  { s with nextSwitch := s.nextSwitch + (s.sequenceAt c).2 }

def queueSMARTS (c : Config) (s : EmuSampler) (fid : ℕ) (icount : Word) (w : Outside) : EmuSampler :=
  let s := s.execute icount
  if s.done fid then s
  else if s.nextSwitch > s.totalnInst then s
  else if s.totalnInst ≥ c.nInstMax ∨ s.endSimSiged then
    let s := s.markThisDone fid
    if s.allDone c then s.markDone c else s
  else
    let s := { s with lastMode := s.mode }.nextModeSMARTS c
    { s with endSimSiged := w.endSim.getD s.endSimSiged }

/-- `nextMode(ROTATE, fid)`. -/
def rotate (c : Config) (s : EmuSampler) (w : Outside) : EmuSampler :=
  let s := s.setMode (s.sequenceAt c).1
  { s with nextSwitch := w.nextSwitch }

/-- `nextMode(SET_MODE, fid, mod)`. -/
def nextModeTo (s : EmuSampler) (mod : EmuMode) (w : Outside) : EmuSampler :=
  let s := s.setMode mod
  { s with
    nextSwitch := w.nextSwitch
    sequencePos := match mod with
      | .rabbit => 3
      | .warmup => 0
      | .detail => 1
      | .timing => 2
      | .init => s.sequencePos }

/-- The rest of `queue` once `isItDone` answered no. That it did does not mean that the
instruction limit was not reached: `isItDone` marks the sampler as done then, and answers no. -/
def coordinateWithOthersAndNextMode (c : Config) (s : EmuSampler) (w : Outside) : EmuSampler :=
  let s := s.fetchNextMode c
  let s :=
    if s.mode = .detail ∧ s.lastMode = .timing then { s with lastMode := s.mode }.nextModeTo c.next2EmuTiming w
    else { s with lastMode := s.mode }.rotate c w
  let s := { s with endSimSiged := w.endSim.getD s.endSimSiged }
  if w.doPWTH then s.syncStats c else s

def queuePeriodic (c : Config) (s : EmuSampler) (fid : ℕ) (icount : Word) (w : Outside) : EmuSampler :=
  let s := s.execute icount
  if s.done fid then s
  else if s.nextSwitch > s.totalnInst then s
  else
    let s := if s.totalnInst ≥ c.nInstMax then s.markDone c else s
    if s.endSimSiged then s.markDone c else s.coordinateWithOthersAndNextMode c w

def queue (c : Config) (s : EmuSampler) (fid : ℕ) (icount : Word) (w : Outside) : EmuSampler :=
  match c.kind with
  | .smarts => s.queueSMARTS c fid icount w
  | .periodic => s.queuePeriodic c fid icount w

/-- The constructors: the skipped instructions are run in rabbit mode by one sampler and in init
mode by the other, and without any there is no `start` at all. -/
def init (c : Config) (finished done : ℕ → Bool) : EmuSampler :=
  let s : EmuSampler :=
    { mode := .init, lastMode := .init, phasenInst := 0, totalnInst := 0, localIcount := 0, stopJustCalled := true,
      iusage := fun _ => 0, nextSwitch := c.nInstSkip, sequencePos := 0, endSimSiged := false, finished := finished,
      done := done }
  if c.nInstSkip = 0 then s
  else match c.kind with
    | .smarts => s.startRabbit
    | .periodic => s.startInit

end EmuSampler

/-- A call on the sampler, or what other samplers write to the static tables. -/
inductive Event
  | queue (fid : ℕ) (icount : Word) (w : EmuSampler.Outside)
  | setMode (mod : EmuMode)
  | syncStats
  | markDone
  | stop
  | others (finished done : ℕ → Bool)

def step (c : Config) (s : EmuSampler) : Event → Option EmuSampler
  | .queue fid icount w => some (s.queue c fid icount w)
  | .setMode mod => some (s.setMode mod)
  | .syncStats => some (s.syncStats c)
  | .markDone => some (s.markDone c)
  | .stop => some s.stop
  | .others finished done => some { s with finished := finished, done := done }

/-! ## The account -/

/-- The instructions given to a mode. -/
def attributed (iusage : EmuMode → Word) : Word :=
  iusage .init + iusage .rabbit + iusage .warmup + iusage .detail + iusage .timing

/-- **Every instruction counted is attributed to one mode**, or to the phase that runs. -/
def Balanced (s : EmuSampler) : Prop := attributed s.iusage + s.phasenInst = s.totalnInst

instance (s : EmuSampler) : Decidable (Balanced s) := inferInstanceAs (Decidable (_ = _))

/-- The instructions that no mode was given. -/
def lost (s : EmuSampler) : Word := s.totalnInst - (attributed s.iusage + s.phasenInst)

/-- The instructions counted since the last `stop`, if no mode was started since. -/
def unsettled (s : EmuSampler) : Word := if s.stopJustCalled then s.phasenInst else 0

section

variable {c : Config} {s : EmuSampler} {m : EmuMode} {fid : ℕ} {icount : Word} {w : EmuSampler.Outside}

open EmuSampler

theorem lost_eq_zero : lost s = 0 ↔ Balanced s := by
  unfold lost Balanced
  bv_omega

theorem attributed_update (f : EmuMode → Word) (m : EmuMode) (n : Word) :
    attributed (Function.update f m (f m + n)) = attributed f + n := by
  unfold attributed
  cases m <;> simp <;> ac_rfl

theorem stop_phasenInst : s.stop.phasenInst = unsettled s := by
  unfold stop unsettled
  split <;> rfl

theorem lost_stop : lost s.stop = lost s := by
  unfold lost stop
  split
  · rfl
  · simp [attributed_update]

/-- Clearing the phase loses what is in it. -/
theorem lost_beginTiming : lost (s.beginTiming m) = lost s + s.phasenInst := by
  simp only [lost, beginTiming]
  bv_omega

theorem lost_setMode (hm : m ≠ .init) : lost (s.setMode m) = lost s + unsettled s := by
  rw [← stop_phasenInst, ← lost_stop (s := s)]
  cases m with
  | init => exact absurd rfl hm
  | rabbit => exact lost_beginTiming
  | warmup => exact lost_beginTiming
  | detail => exact lost_beginTiming
  | timing => exact lost_beginTiming

theorem setMode_phasenInst (hm : m ≠ .init) : (s.setMode m).phasenInst = 0 := by
  cases m <;> first | exact absurd rfl hm | rfl

theorem lost_markDone : lost (s.markDone c) = lost s + unsettled s := by
  rw [← stop_phasenInst, ← lost_stop (s := s)]
  simp only [lost, markDone]
  bv_omega

theorem unsettled_markDone : unsettled (s.markDone c) = 0 := by
  unfold unsettled markDone
  exact ite_self _

theorem lost_syncStats :
    lost (s.syncStats c) = lost s + (if c.kind = .periodic ∧ s.mode ≠ .init then unsettled s else 0) := by
  cases hk : c.kind with
  | smarts => simp [syncStats, hk]
  | periodic =>
    simp only [syncStats, hk]
    split
    · rename_i hor
      have h0 : s.mode ≠ .init → unsettled s = 0 := by
        intro hmode
        simp [unsettled, hor.resolve_right hmode]
      split
      · rename_i hmode
        rw [h0 hmode.2]
        simp
      · simp
    · rename_i hor
      rw [lost_beginTiming, lost_stop, stop_phasenInst, if_pos ⟨trivial, fun e => hor (.inr e)⟩]

/-- Once the phase is cleared, the statistics are up to date. -/
theorem syncStats_of_phasenInst (h : s.phasenInst = 0) : s.syncStats c = s := by
  unfold syncStats
  split
  · rfl
  · exact if_pos (.inl h)

/-! ## A call of `queue` -/

theorem sequenceAt_ne_init (c : Config) (s : EmuSampler) : (s.sequenceAt c).1 ≠ .init := by
  have hmem : ∀ p ∈ c.sequence, p.1 ≠ .init := by
    intro p hp
    simp only [Config.sequence, List.mem_append] at hp
    rcases hp with ((hp | hp) | hp) | hp <;> split at hp <;> simp_all
  unfold sequenceAt
  rw [List.getD_eq_getElem?_getD]
  cases hget : c.sequence[s.sequencePos]? with
  | none => simp
  | some p => exact hmem p (List.mem_of_getElem? hget)

theorem next2EmuTiming_ne_init (c : Config) : c.next2EmuTiming ≠ .init := by
  unfold Config.next2EmuTiming
  repeat' split
  all_goals simp

theorem lost_fetchNextMode : lost (s.fetchNextMode c) = lost s := by
  simp only [lost, fetchNextMode]

theorem unsettled_fetchNextMode : unsettled (s.fetchNextMode c) = unsettled s := by
  unfold unsettled fetchNextMode
  rfl

theorem lost_lastMode : lost { s with lastMode := m } = lost s := by
  simp only [lost]

theorem unsettled_lastMode : unsettled { s with lastMode := m } = unsettled s := by
  unfold unsettled
  rfl

theorem lost_endSimSiged {b : Bool} : lost { s with endSimSiged := b } = lost s := by
  simp only [lost]

theorem lost_nextModeSMARTS : lost (s.nextModeSMARTS c) = lost s + unsettled s := by
  have hmode := lost_setMode (s := s.fetchNextMode c) (sequenceAt_ne_init c (s.fetchNextMode c))
  rw [lost_fetchNextMode, unsettled_fetchNextMode] at hmode
  rw [← hmode]
  simp only [lost, nextModeSMARTS]

theorem lost_nextModeTo (hm : m ≠ .init) : lost (s.nextModeTo m w) = lost s + unsettled s := by
  rw [← lost_setMode hm]
  simp only [lost, nextModeTo]

theorem lost_rotate : lost (s.rotate c w) = lost s + unsettled s := by
  rw [← lost_setMode (sequenceAt_ne_init c s)]
  simp only [lost, rotate]

theorem lost_coordinate : lost (s.coordinateWithOthersAndNextMode c w) = lost s + unsettled s := by
  set t : EmuSampler := { s.fetchNextMode c with lastMode := (s.fetchNextMode c).mode }
  have hcount : lost t = lost s := lost_lastMode.trans lost_fetchNextMode
  have hphase : unsettled t = unsettled s := unsettled_lastMode.trans unsettled_fetchNextMode
  -- whichever way the mode changes, the phase is cleared and there is nothing to synchronise
  have hend : ∀ u : EmuSampler, u.phasenInst = 0 → lost u = lost t + unsettled t →
      lost (if w.doPWTH then { u with endSimSiged := w.endSim.getD u.endSimSiged }.syncStats c
        else { u with endSimSiged := w.endSim.getD u.endSimSiged }) = lost s + unsettled s := by
    intro u h0 hu
    have hended : lost { u with endSimSiged := w.endSim.getD u.endSimSiged } = lost u := lost_endSimSiged
    rw [syncStats_of_phasenInst (s := { u with endSimSiged := w.endSim.getD u.endSimSiged }) h0, ite_self, hended,
      hu, hcount, hphase]
  unfold coordinateWithOthersAndNextMode
  refine hend _ ?_ ?_
  · split
    · exact setMode_phasenInst (next2EmuTiming_ne_init c)
    · exact setMode_phasenInst (sequenceAt_ne_init c t)
  · split
    · exact lost_nextModeTo (next2EmuTiming_ne_init c)
    · exact lost_rotate

theorem lost_execute : lost (s.execute icount) = lost s := by
  unfold lost execute
  split
  · rfl
  · bv_omega

theorem unsettled_execute :
    unsettled (s.execute icount) = if s.stopJustCalled then s.phasenInst + s.flushed icount else 0 := by
  unfold unsettled execute flushed
  split <;> simp

/-- The call ends the phase: it marks the sampler as done, or goes to another mode. -/
def Ends (c : Config) (s : EmuSampler) (fid : ℕ) (icount : Word) : Prop :=
  s.done fid = false ∧ s.nextSwitch ≤ s.totalnInst + s.flushed icount ∧
    (c.kind = .smarts → c.nInstMax ≤ s.totalnInst + s.flushed icount ∨ s.endSimSiged = true →
      (s.markThisDone fid).allDone c = true)

/-- The same, from the counters that `execute` left. -/
theorem ends_iff : Ends c s fid icount ↔
    (s.execute icount).done fid = false ∧ (s.execute icount).nextSwitch ≤ (s.execute icount).totalnInst ∧
      (c.kind = .smarts → c.nInstMax ≤ (s.execute icount).totalnInst ∨ (s.execute icount).endSimSiged = true →
        ((s.execute icount).markThisDone fid).allDone c = true) := by
  unfold Ends execute flushed
  split <;> simp [markThisDone, allDone]

theorem lost_queueSMARTS (hk : c.kind = .smarts) :
    (Ends c s fid icount → lost (s.queueSMARTS c fid icount w) = lost s + unsettled (s.execute icount)) ∧
      (¬Ends c s fid icount → lost (s.queueSMARTS c fid icount w) = lost s) := by
  rw [ends_iff, ← @lost_execute s icount]
  unfold queueSMARTS
  generalize s.execute icount = t
  simp only
  split
  · rename_i hd
    exact ⟨fun he => absurd he.1 (by simp [hd]), fun _ => rfl⟩
  rename_i hd
  split
  · rename_i hsw
    exact ⟨fun he => absurd he.2.1 (BitVec.not_le.2 hsw), fun _ => rfl⟩
  rename_i hsw
  have hle := BitVec.not_lt.1 hsw
  split
  · rename_i hmax
    split
    · -- all flows are done, and so is the sampler
      rename_i hdone
      exact ⟨fun _ => lost_markDone, fun he => absurd ⟨by simpa using hd, hle, fun _ _ => hdone⟩ he⟩
    · rename_i hdone
      exact ⟨fun he => absurd (he.2.2 hk hmax) hdone, fun _ => rfl⟩
  · rename_i hmax
    refine ⟨fun _ => lost_endSimSiged.trans ?_, fun he => absurd ⟨by simpa using hd, hle, fun _ hm => absurd hm hmax⟩ he⟩
    rw [lost_nextModeSMARTS, lost_lastMode, unsettled_lastMode]

theorem lost_queuePeriodic (hk : c.kind = .periodic) :
    (Ends c s fid icount → lost (s.queuePeriodic c fid icount w) = lost s + unsettled (s.execute icount)) ∧
      (¬Ends c s fid icount → lost (s.queuePeriodic c fid icount w) = lost s) := by
  rw [ends_iff, ← @lost_execute s icount]
  unfold queuePeriodic
  generalize s.execute icount = t
  simp only
  split
  · rename_i hd
    exact ⟨fun he => absurd he.1 (by simp [hd]), fun _ => rfl⟩
  rename_i hd
  split
  · rename_i hsw
    exact ⟨fun he => absurd he.2.1 (BitVec.not_le.2 hsw), fun _ => rfl⟩
  rename_i hsw
  have hrest : ∀ u : EmuSampler,
      lost (if u.endSimSiged then u.markDone c else u.coordinateWithOthersAndNextMode c w) = lost u + unsettled u := by
    intro u
    split
    · exact lost_markDone
    · exact lost_coordinate
  refine ⟨fun _ => ?_, fun he => absurd ⟨by simpa using hd, BitVec.not_lt.1 hsw, ?_⟩ he⟩
  · rw [hrest]
    split
    · -- the second time the phase is cleared, it is empty
      rw [unsettled_markDone, lost_markDone]
      simp
    · rfl
  · exact fun hs => absurd (hk.symm.trans hs) (by decide)

theorem lost_queue :
    (Ends c s fid icount → lost (s.queue c fid icount w) = lost s + unsettled (s.execute icount)) ∧
      (¬Ends c s fid icount → lost (s.queue c fid icount w) = lost s) := by
  unfold queue
  cases hk : c.kind with
  | smarts => exact lost_queueSMARTS hk
  | periodic => exact lost_queuePeriodic hk

/-! ## The runs on which the account is balanced -/

/-- No phase is ended that counted instructions while the sampler was stopped. -/
def Kept (c : Config) (s : EmuSampler) : Event → Prop
  | .queue fid icount _ => Ends c s fid icount → s.stopJustCalled = true → s.phasenInst + s.flushed icount = 0
  | .setMode mod => mod ≠ .init → s.stopJustCalled = true → s.phasenInst = 0
  | .syncStats => c.kind = .periodic → s.mode ≠ .init → s.stopJustCalled = true → s.phasenInst = 0
  | .markDone => s.stopJustCalled = true → s.phasenInst = 0
  | .stop => True
  | .others _ _ => True

theorem balanced_iff_of_lost {t : EmuSampler} {n : Word} (h : Balanced s) (ht : lost t = lost s + n) :
    Balanced t ↔ n = 0 := by
  rw [← lost_eq_zero, ht, lost_eq_zero.2 h]
  simp

theorem unsettled_eq_zero : unsettled s = 0 ↔ (s.stopJustCalled = true → s.phasenInst = 0) := by
  unfold unsettled
  split <;> simp_all

/-- **One call.** It leaves a balanced account balanced exactly when it ends no such phase. -/
theorem balanced_step_iff {t : EmuSampler} {e : Event} (ht : step c s e = some t) (h : Balanced s) :
    Balanced t ↔ Kept c s e := by
  cases e with
  | queue fid icount w =>
    obtain rfl := Option.some.inj ht
    by_cases he : Ends c s fid icount
    · rw [balanced_iff_of_lost h (lost_queue.1 he), unsettled_execute]
      simp [Kept, he]
    · rw [← lost_eq_zero, lost_queue.2 he, lost_eq_zero]
      exact iff_of_true h fun h' => absurd h' he
  | setMode mod =>
    obtain rfl := Option.some.inj ht
    by_cases hm : mod = .init
    · subst hm
      rw [← lost_eq_zero, show s.setMode .init = s.stop from rfl, lost_stop, lost_eq_zero]
      exact iff_of_true h fun h' => absurd rfl h'
    · rw [balanced_iff_of_lost h (lost_setMode hm), unsettled_eq_zero]
      exact ⟨fun hs _ => hs, fun hs => hs hm⟩
  | syncStats =>
    obtain rfl := Option.some.inj ht
    rw [balanced_iff_of_lost h lost_syncStats]
    split
    · rename_i hp
      rw [unsettled_eq_zero]
      exact ⟨fun hs _ _ => hs, fun hs => hs hp.1 hp.2⟩
    · rename_i hp
      exact iff_of_true rfl fun hk hm => absurd ⟨hk, hm⟩ hp
  | markDone =>
    obtain rfl := Option.some.inj ht
    rw [balanced_iff_of_lost h lost_markDone, unsettled_eq_zero]
    rfl
  | stop =>
    obtain rfl := Option.some.inj ht
    rw [← lost_eq_zero, lost_stop, lost_eq_zero]
    exact iff_of_true h trivial
  | others finished done =>
    obtain rfl := Option.some.inj ht
    exact iff_of_true h trivial

theorem balanced_init (c : Config) (finished done : ℕ → Bool) : Balanced (EmuSampler.init c finished done) := by
  unfold EmuSampler.init
  simp only
  split
  · rfl
  · split <;> rfl

/-- Every call returns. -/
theorem exists_run (c : Config) (s : EmuSampler) (es : List Event) : ∃ t, run (step c) s es = some t := by
  induction es generalizing s with
  | nil => exact ⟨s, rfl⟩
  | cons e es ih =>
    obtain ⟨u, hu⟩ : ∃ u, step c s e = some u := by cases e <;> exact ⟨_, rfl⟩
    obtain ⟨t, ht⟩ := ih u
    exact ⟨t, run_cons.2 ⟨u, hu, ht⟩⟩

/-- **When the account is right.** For every configuration and every run, the modes' counters and
the phase add up to the total after every call, exactly when no call ends a phase in which
instructions were counted while the sampler was stopped. -/
theorem sampler_accounting_iff (c : Config) (finished done : ℕ → Bool) (es : List Event) :
    (∀ ds s, ds <+: es → run (step c) (EmuSampler.init c finished done) ds = some s → Balanced s) ↔
      Along (step c) (Kept c) (EmuSampler.init c finished done) es := by
  obtain ⟨t, ht⟩ := exists_run c (EmuSampler.init c finished done) es
  have hD : Along (step c) (fun _ _ => True) (EmuSampler.init c finished done) es :=
    Along.of_forall (fun _ _ => trivial) _ _
  refine forall_prefix_iff_along (I := Balanced) (fun _ h => h) ?_ ?_ ht hD (balanced_init c finished done)
  · intro s e s' hs _ hk h
    exact (balanced_step_iff hs h).2 hk
  · intro s e s' hs _ hk h
    exact fun hb => hk ((balanced_step_iff hs h).1 hb)

/-- Without skipped instructions no mode is started, and the first hundred instructions are
counted in the total but lost when the first mode begins. -/
theorem sampler_first_hundred_lost :
    ∃ s, run (step ⟨.smarts, 0, 1000000, 1000, 0, 0, 1000, 1, 1⟩)
        (EmuSampler.init ⟨.smarts, 0, 1000000, 1000, 0, 0, 1000, 1, 1⟩ (fun _ => false) (fun _ => false))
        [.queue 0 100 ⟨0, none, false⟩] = some s ∧
      s.totalnInst = 100 ∧ s.phasenInst = 0 ∧ attributed s.iusage = 0 ∧ ¬Balanced s :=
  ⟨_, rfl, by decide, by decide, by decide, by decide⟩

end

end Esesc.Emul.Sampler
