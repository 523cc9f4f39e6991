import Mathlib.Tactic.Common
import Esesc.Emul.Sampler

/-!
# The end of a simulation (`emul/libemulint/EmuSampler.cpp`)

Every emulated flow has a sampler, and the samplers share the tables `done` and `finished`. `markDone` of any of them
should stop all flows.

* `queue_of_done`: a flow that is done is only counted.
* `nothing_iff`: nothing more is simulated exactly when all flows are done.
* `markDone_iff`: when that is so after `markDone`.
-/

namespace Esesc.Emul.Sampler

open Esesc.Lib

/-- What `execute` returns. -/
def EmuSampler.executes (s : EmuSampler) (fid : ℕ) (icount : Word) : Bool := !(s.execute icount).done fid

/-- The instruction of a call of `queue` is passed to `queueInstruction`. -/
def EmuSampler.queuesInstruction (s : EmuSampler) (fid : ℕ) (icount : Word) : Bool :=
  s.executes fid icount && decide ((s.execute icount).nextSwitch > (s.execute icount).totalnInst) &&
    (s.mode == .detail || s.mode == .timing)

/-- The samplers, with the static tables. -/
structure Samplers where
  own : ℕ → EmuSampler
  finished : ℕ → Bool
  done : ℕ → Bool

/-- A call of `queue` of a sampler. -/
structure QueueCall where
  sampler : ℕ
  fid : ℕ
  icount : Word
  w : EmuSampler.Outside

namespace Samplers

/-- The sampler `i` sees the static tables. -/
def view (S : Samplers) (i : ℕ) : EmuSampler := { S.own i with finished := S.finished, done := S.done }

/-- The sampler `i` is `t`, which wrote to the static tables. -/
def set (S : Samplers) (i : ℕ) (t : EmuSampler) : Samplers := ⟨Function.update S.own i t, t.finished, t.done⟩

def markDone (c : Config) (S : Samplers) (i : ℕ) : Samplers := S.set i ((S.view i).markDone c)

def step (c : ℕ → Config) (S : Samplers) (e : QueueCall) : Option Samplers :=
  some (S.set e.sampler ((S.view e.sampler).queue (c e.sampler) e.fid e.icount e.w))

/-- **Nothing more is simulated** of the flows below `n`: after any calls of `queue` for them, `execute` answers no for
all of them, and none of the calls passes an instruction on. -/
def Nothing (c : ℕ → Config) (n : ℕ) (S : Samplers) : Prop :=
  ∀ es : List QueueCall, (∀ e ∈ es, e.fid < n) →
    Along (step c) (fun S e => (S.view e.sampler).queuesInstruction e.fid e.icount = false) S es ∧
      ∀ S', run (step c) S es = some S' → ∀ i, ∀ fid < n, ∀ icount, (S'.view i).executes fid icount = false

variable {c : ℕ → Config} {S S' : Samplers} {n i fid : ℕ} {icount : Word} {w : EmuSampler.Outside} {s : EmuSampler}

@[simp] theorem view_done (S : Samplers) (i : ℕ) : (S.view i).done = S.done := rfl

theorem execute_done (s : EmuSampler) (icount : Word) : (s.execute icount).done = s.done := by
  rw [EmuSampler.execute]
  split <;> rfl

theorem executes_eq (s : EmuSampler) (fid : ℕ) (icount : Word) : s.executes fid icount = !s.done fid := by
  rw [EmuSampler.executes, execute_done]

/-- **A flow that is done.** Its instructions are counted, and that is all. -/
theorem queue_of_done (c : Config) (h : s.done fid = true) : s.queue c fid icount w = s.execute icount := by
  have hdone : (s.execute icount).done fid = true := by rw [execute_done, h]
  cases hk : c.kind with
  | smarts =>
    simp only [EmuSampler.queue, hk, EmuSampler.queueSMARTS]
    exact if_pos hdone
  | periodic =>
    simp only [EmuSampler.queue, hk, EmuSampler.queuePeriodic]
    exact if_pos hdone

/-- **One call** leaves all flows done. -/
theorem done_step {e : QueueCall} (hs : step c S e = some S') (he : e.fid < n) (h : ∀ fid < n, S.done fid = true) :
    ∀ fid < n, S'.done fid = true := by
  obtain rfl := Option.some.inj hs
  have hqueue : (S.view e.sampler).queue (c e.sampler) e.fid e.icount e.w = (S.view e.sampler).execute e.icount :=
    queue_of_done (c e.sampler) (h e.fid he)
  intro fid hfid
  show ((S.view e.sampler).queue (c e.sampler) e.fid e.icount e.w).done fid = true
  rw [hqueue, execute_done]
  exact h fid hfid

/-- Nothing more is simulated exactly when all flows are done. -/
theorem nothing_iff : Nothing c n S ↔ ∀ fid < n, S.done fid = true := by
  constructor
  · intro h fid hfid
    have hexec := (h [] (by simp)).2 S rfl 0 fid hfid 0
    rw [executes_eq, view_done] at hexec
    simpa using hexec
  · -- a call for a flow that is done passes nothing on, and leaves all of them done
    intro h es
    induction es generalizing S with
    | nil =>
      refine fun _ => ⟨trivial, fun S' hrun i fid hfid icount => ?_⟩
      obtain rfl := Option.some.inj hrun
      rw [executes_eq, view_done, h fid hfid]
      rfl
    | cons e es ih =>
      intro hes
      have he : e.fid < n := hes e List.mem_cons_self
      have hquiet : (S.view e.sampler).queuesInstruction e.fid e.icount = false := by
        have hdone : (S.view e.sampler).done e.fid = true := h e.fid he
        rw [EmuSampler.queuesInstruction, executes_eq, hdone]
        rfl
      have hrest := fun S' (hs : step c S e = some S') =>
        ih (done_step hs he h) fun e' he' => hes e' (List.mem_cons_of_mem e he')
      refine ⟨⟨hquiet, fun S' hs => (hrest S' hs).1⟩, fun S' hrun => ?_⟩
      obtain ⟨T, hT, hrun⟩ := run_cons.1 hrun
      exact (hrest T hT).2 S' hrun

/-- The flows that `markDone` reaches: all but the last one. -/
theorem markDone_done (c : Config) (S : Samplers) (i fid : ℕ) :
    (S.markDone c i).done fid = (decide (fid < c.numEmuls - 1) || S.done fid) := by
  have hstop : (S.view i).stop.done = S.done := by
    rw [EmuSampler.stop]
    split <;> rfl
  show (decide (fid < c.numEmuls - 1) || (S.view i).stop.done fid) = _
  rw [hstop]

/-- The flows before the last one stop. -/
theorem nothing_markDone_pred (c : ℕ → Config) (S : Samplers) (i : ℕ) :
    Nothing c ((c i).numEmuls - 1) (S.markDone (c i) i) := by
  refine nothing_iff.2 fun fid hfid => ?_
  rw [markDone_done]
  simp [hfid]

/-- **After `markDone`** of a sampler, nothing more is simulated of the emulated flows exactly when the last one was
done before. -/
theorem markDone_iff (c : ℕ → Config) (S : Samplers) (i : ℕ) (hn : 1 ≤ (c i).numEmuls) :
    Nothing c (c i).numEmuls (S.markDone (c i) i) ↔ S.done ((c i).numEmuls - 1) = true := by
  rw [nothing_iff]
  constructor
  · intro h
    have hlast := h ((c i).numEmuls - 1) (by omega)
    rw [markDone_done] at hlast
    simpa using hlast
  · intro h fid hfid
    rw [markDone_done]
    by_cases hlast : fid < (c i).numEmuls - 1
    · simp [hlast]
    · have heq : fid = (c i).numEmuls - 1 := by omega
      rw [heq, h, Bool.or_true]

/-- Two flows, with a thousand instructions to skip and then timing. -/
def twoFlows : Config := ⟨.periodic, 1000, 1000000, 0, 0, 0, 1000, 2, 2⟩

def started (done : ℕ → Bool) : Samplers :=
  ⟨fun _ => EmuSampler.init twoFlows (fun _ => false) done, fun _ => false, done⟩

/-- The last flow was done before. -/
theorem markDone_last : Nothing (fun _ => twoFlows) 2 ((started fun fid => fid == 1).markDone twoFlows 0) :=
  (markDone_iff (fun _ => twoFlows) (started fun fid => fid == 1) 0 (by decide)).2 rfl

/-- The flow 1 is in timing when the sampler of the flow 0 marks all as done. `execute` goes on to answer yes for it,
and its instructions are passed on. -/
theorem not_nothing : ∃ S, run (step fun _ => twoFlows) (started fun _ => false) [⟨1, 1, 1000, ⟨2000, none, false⟩⟩] = some S ∧
    ¬Nothing (fun _ => twoFlows) 2 (S.markDone twoFlows 0) ∧
    ((S.markDone twoFlows 0).view 1).executes 1 1 = true ∧
    ((S.markDone twoFlows 0).view 1).queuesInstruction 1 1 = true := by
  refine ⟨_, rfl, fun h => ?_, by decide, by decide⟩
  exact absurd (nothing_iff.1 h 1 (by decide)) (by decide)

end Samplers

end Esesc.Emul.Sampler
