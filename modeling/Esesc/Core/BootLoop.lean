import Esesc.Core.TaskHandler

/-!
# The main loop (`TaskHandler::boot`)

A pass of the main loop goes over `running` by its index and re-reads `running_size`, while the emulator starts and
pauses flows. A flow that is started enters behind; a flow that is paused leaves its place, and what is behind moves up.
When this place is one that the loop has passed, the flow at the next index moves to an index that is passed, too.

* `idxOf_erase`: the place of a flow after another has left.
* `Waiting.step`, `Passed.step`: what a step does to a flow that is still to come, and to one that is not.
* `pass_serves_iff`: a flow that is active during a pass is fetched and executed once, unless a pause moves it so.
-/

namespace Esesc.Core

open Esesc.Lib

/-- Where the loop is. -/
inductive Phase where
  /-- before `i<running_size` -/
  | test (i : ℕ)
  /-- before `simu->fetch(fid)` -/
  | fetch (i : ℕ) (fid : FlowID)
  /-- before `simu->execute()` -/
  | execute (i : ℕ) (fid : FlowID)
  /-- before the calls of `psimu` -/
  | pcore (i : ℕ) (fid : FlowID)
  /-- behind the loop over `running` -/
  | clock
  deriving DecidableEq, Repr

/-- The calls of processors, with the flow they are for. -/
inductive Call where
  | fetch (fid : FlowID)
  | execute (fid : FlowID)
  | pfetch (fid : FlowID)
  | pexecute (fid : FlowID)
  deriving DecidableEq, Repr

/-- The tasks and the loop; `calls` are those of this pass. -/
structure Boot where
  task : TaskHandler
  phase : Phase
  calls : List Call
  globalClock : ℕ
  deriving DecidableEq, Repr

/-- A call of the emulator, or a step of the loop. `needIncreaseClock` is what the samplers say when nothing runs. -/
inductive Act where
  | resumeThread (fid : FlowID)
  | resumeThreadGPU (fid : FlowID)
  | pauseThread (fid : FlowID)
  | boot (needIncreaseClock : Bool)
  deriving DecidableEq, Repr

namespace Boot

/-- A step of the loop. The processors do not call back. -/
def boot (b : Boot) (needIncreaseClock : Bool) : Boot :=
  match b.phase with
  | .test i =>
    match b.task.running[i]? with
    | some fid => { b with phase := .fetch i fid }
    | none => { b with phase := .clock }
  | .fetch i fid => { b with phase := .execute i fid, calls := b.calls ++ [.fetch fid] }
  | .execute i fid => { b with phase := .pcore i fid, calls := b.calls ++ [.execute fid] }
  | .pcore i fid => { b with phase := .test (i + 1), calls := b.calls ++ [.pfetch (fid + 1), .pexecute fid] }
  | .clock =>
    { b with
      phase := .test 0
      calls := []
      globalClock :=
        if b.task.running.length = 0 then (if needIncreaseClock then b.globalClock + 1 else b.globalClock)
        else b.globalClock + 1 }

def step (b : Boot) : Act → Option Boot
  | .resumeThread fid => (b.task.resumeThread fid).map fun r => { b with task := r.2 }
  | .resumeThreadGPU fid => (b.task.resumeThreadGPU fid).map fun r => { b with task := r.2 }
  | .pauseThread fid => (b.task.pauseThread fid).map fun task => { b with task }
  | .boot needIncreaseClock => some (b.boot needIncreaseClock)

/-- After `plugEnd`, before the first pass. -/
def start (others : List Bool) : Option Boot :=
  (TaskHandler.plugEnd others).map fun task => ⟨task, .test 0, [], 0⟩

/-- The step belongs to the pass: it is not that of the clock. -/
def InPass (b : Boot) : Act → Prop
  | .boot _ => b.phase ≠ .clock
  | _ => True

/-- The index that the loop reads next. -/
def next (b : Boot) : Option ℕ :=
  match b.phase with
  | .test i => some i
  | .fetch i _ => some (i + 1)
  | .execute i _ => some (i + 1)
  | .pcore i _ => some (i + 1)
  | .clock => none

/-- A pause of a flow that the loop has passed, with `f` at the index that it reads next. -/
def Skips (f : FlowID) (b : Boot) : Act → Prop
  | .pauseThread fid => b.next = some (b.task.running.idxOf f) ∧ b.task.running.idxOf fid < b.task.running.idxOf f
  | _ => False

instance (b : Boot) (a : Act) : Decidable (b.InPass a) := by
  cases a <;> unfold InPass <;> infer_instance

instance (f : FlowID) (b : Boot) (a : Act) : Decidable (Skips f b a) := by
  cases a <;> unfold Skips <;> infer_instance

/-! ## Places in the list -/

/-- **The place of a flow** after another has left the list. -/
theorem idxOf_erase {l : List FlowID} {f g : FlowID} (hne : f ≠ g) (hf : f ∈ l) :
    (l.erase g).idxOf f = if l.idxOf g < l.idxOf f then l.idxOf f - 1 else l.idxOf f := by
  induction l with
  | nil => exact absurd hf List.not_mem_nil
  | cons x xs ih =>
    by_cases hxg : x = g
    · subst hxg
      rw [List.erase_cons_head, List.idxOf_cons_self, List.idxOf_cons_ne _ (Ne.symm hne), if_pos (Nat.succ_pos _)]
      rfl
    · rw [List.erase_cons_tail (by simpa using hxg)]
      by_cases hxf : x = f
      · subst hxf
        rw [List.idxOf_cons_self, List.idxOf_cons_self, if_neg (Nat.not_lt_zero _)]
      · have hmem : f ∈ xs := (List.mem_cons.1 hf).resolve_left (Ne.symm hxf)
        rw [List.idxOf_cons_ne _ hxf, List.idxOf_cons_ne _ hxf, List.idxOf_cons_ne _ hxg, ih hmem]
        split <;> split <;> omega

variable {b b' : Boot} {a : Act} {f g r : FlowID} {t t' : TaskHandler} {c n : ℕ}

theorem idxOf_lt (hok : t.Ok) (hf : t.active f) : t.running.idxOf f < t.running.length :=
  List.idxOf_lt_length_of_mem ((hok.mem_iff f).2 hf)

/-- A start leaves all places. -/
theorem idxOf_resumeThread (hok : t.Ok) (hf : t.active f) (hstep : t.resumeThread g = some (r, t')) :
    t'.running.idxOf f = t.running.idxOf f := by
  obtain ⟨-, rfl⟩ | ⟨-, rfl⟩ := TaskHandler.resumeThread_cases hstep
  · rfl
  · exact List.idxOf_append_of_mem ((hok.mem_iff f).2 hf)

theorem idxOf_resumeThreadGPU (hok : t.Ok) (hf : t.active f) (hstep : t.resumeThreadGPU g = some (r, t')) :
    t'.running.idxOf f = t.running.idxOf f := by
  obtain ⟨_, -, -, rfl⟩ | ⟨-, rfl⟩ | ⟨-, rfl⟩ := TaskHandler.resumeThreadGPU_cases hstep
  · rfl
  · rfl
  · exact List.idxOf_append_of_mem ((hok.mem_iff f).2 hf)

/-- A pause moves a flow up by one when it is behind the one that leaves. -/
theorem idxOf_pauseThread (hok : t.Ok) (hf : t.active f) (hstep : t.pauseThread g = some t') (hf' : t'.active f) :
    t'.running.idxOf f =
      if t.running.idxOf g < t.running.idxOf f then t.running.idxOf f - 1 else t.running.idxOf f := by
  unfold TaskHandler.pauseThread at hstep
  obtain ⟨flag, hflag, hr⟩ := Option.map_eq_some_iff.1 hstep
  cases flag with
  | true =>
    obtain rfl := hr
    have hne : f ≠ g := by
      rintro rfl
      rw [if_pos rfl] at hf'
      have hset := (TaskHandler.active_set (t := t) (b := false) hflag).1 hf'
      rw [if_pos rfl] at hset
      exact Bool.false_ne_true hset
    exact idxOf_erase hne ((hok.mem_iff f).2 hf)
  | false =>
    obtain rfl := hr
    have hnot : g ∉ t.running := by
      rw [hok.mem_iff, TaskHandler.active, hflag]
      simp
    have hlt := idxOf_lt hok hf
    rw [if_neg Bool.false_ne_true, List.idxOf_eq_length hnot, if_neg (by omega)]

/-! ## A flow in a pass -/

/-- The calls of `fetch` for a flow in this pass, with the one that the loop is about to make. -/
def fetches (f : FlowID) (b : Boot) : ℕ :=
  b.calls.count (.fetch f) + match b.phase with
    | .fetch _ fid => if fid = f then 1 else 0
    | _ => 0

/-- The same for `execute`. -/
def executes (f : FlowID) (b : Boot) : ℕ :=
  b.calls.count (.execute f) + match b.phase with
    | .fetch _ fid => if fid = f then 1 else 0
    | .execute _ fid => if fid = f then 1 else 0
    | _ => 0

/-- The flow is still to come. -/
structure Waiting (f : FlowID) (b : Boot) : Prop where
  ahead : ∃ n, b.next = some n ∧ n ≤ b.task.running.idxOf f
  calls : b.fetches f = 0 ∧ b.executes f = 0

/-- The loop has passed the place of the flow, with `c` calls of `fetch` and `execute` for it. -/
structure Passed (c : ℕ) (f : FlowID) (b : Boot) : Prop where
  behind : ∀ n, b.next = some n → b.task.running.idxOf f < n
  calls : b.fetches f = c ∧ b.executes f = c

/-- Calls for others do not count, and those that are made were about to be. -/
theorem calls_boot (hphase : ∀ i, b.phase ≠ .test i) (hclock : b.phase ≠ .clock) (need : Bool) :
    (b.boot need).task = b.task ∧ (b.boot need).next = b.next ∧ (b.boot need).fetches f = b.fetches f ∧
      (b.boot need).executes f = b.executes f := by
  obtain ⟨task, phase, calls, clk⟩ := b
  cases phase with
  | test i => exact absurd rfl (hphase i)
  | fetch i fid => simp [boot, next, fetches, executes, List.count_singleton]
  | execute i fid => simp [boot, next, fetches, executes, List.count_singleton]
  | pcore i fid => simp [boot, next, fetches, executes]
  | clock => exact absurd rfl hclock

/-- The test finds the next flow, or the end. -/
theorem test_boot {i : ℕ} (hphase : b.phase = .test i) (need : Bool) :
    (b.boot need).task = b.task ∧
      ((∃ fid, b.task.running[i]? = some fid ∧ (b.boot need).next = some (i + 1) ∧
          (b.boot need).fetches f = b.fetches f + (if fid = f then 1 else 0) ∧
          (b.boot need).executes f = b.executes f + (if fid = f then 1 else 0)) ∨
        b.task.running.length ≤ i ∧ (b.boot need).next = none ∧ (b.boot need).fetches f = b.fetches f ∧
          (b.boot need).executes f = b.executes f) := by
  obtain ⟨task, phase, calls, clk⟩ := b
  obtain rfl := hphase
  cases hget : task.running[i]? with
  | some fid =>
    have hboot : boot ⟨task, .test i, calls, clk⟩ need = ⟨task, .fetch i fid, calls, clk⟩ := by
      simp only [boot, hget]
    rw [hboot]
    exact ⟨rfl, .inl ⟨fid, rfl, rfl, rfl, rfl⟩⟩
  | none =>
    have hboot : boot ⟨task, .test i, calls, clk⟩ need = ⟨task, .clock, calls, clk⟩ := by
      simp only [boot, hget]
    rw [hboot]
    exact ⟨rfl, .inr ⟨List.getElem?_eq_none_iff.1 hget, rfl, rfl, rfl⟩⟩

/-- **A flow that is to come** stays so with a step of the loop, or it is its turn. -/
theorem Waiting.boot (h : Waiting f b) (hok : b.task.Ok) (hf : b.task.active f) (need : Bool) :
    Waiting f (b.boot need) ∨ Passed 1 f (b.boot need) := by
  obtain ⟨⟨n, hnext, hle⟩, hfetches, hexecutes⟩ := h
  have hlt := idxOf_lt hok hf
  by_cases hphase : ∀ i, b.phase ≠ .test i
  · have hclock : b.phase ≠ .clock := by
      intro hclock
      rw [next, hclock] at hnext
      cases hnext
    obtain ⟨htask, hnext', hf', he'⟩ := calls_boot (f := f) hphase hclock need
    left
    rw [← hnext'] at hnext
    exact ⟨⟨n, hnext, by rw [htask]; exact hle⟩, by rw [hf']; exact hfetches, by rw [he']; exact hexecutes⟩
  · push Not at hphase
    obtain ⟨i, hphase⟩ := hphase
    obtain rfl : i = n := by
      rw [next, hphase] at hnext
      exact Option.some.inj hnext
    obtain ⟨htask, ⟨fid, hget, hnext', hf', he'⟩ | ⟨hend, -⟩⟩ := test_boot (f := f) hphase need
    · by_cases hfid : fid = f
      · right
        subst hfid
        have hidx : b.task.running.idxOf fid = i := by
          obtain ⟨hi, rfl⟩ := List.getElem?_eq_some_iff.1 hget
          exact hok.nodup.idxOf_getElem i hi
        rw [if_pos rfl] at hf' he'
        refine ⟨fun m hm => ?_, by omega, by omega⟩
        rw [hnext'] at hm
        obtain rfl := Option.some.inj hm
        rw [htask]
        omega
      · left
        rw [if_neg hfid] at hf' he'
        have hidx : b.task.running.idxOf f ≠ i := by
          rintro rfl
          have hself := List.getElem?_idxOf ((hok.mem_iff f).2 hf)
          rw [hself] at hget
          exact hfid (Option.some.inj hget).symm
        exact ⟨⟨i + 1, hnext', by rw [htask]; omega⟩, by omega, by omega⟩
    · omega

/-- One that has been passed is not called again. -/
theorem Passed.boot (h : Passed c f b) (hok : b.task.Ok) (hf : b.task.active f) (hclock : b.phase ≠ .clock) (need : Bool) :
    Passed c f (b.boot need) := by
  obtain ⟨hbehind, hfetches, hexecutes⟩ := h
  by_cases hphase : ∀ i, b.phase ≠ .test i
  · obtain ⟨htask, hnext', hf', he'⟩ := calls_boot (f := f) hphase hclock need
    refine ⟨fun n hn => ?_, hf'.trans hfetches, he'.trans hexecutes⟩
    rw [htask]
    exact hbehind n (hnext' ▸ hn)
  · push Not at hphase
    obtain ⟨i, hphase⟩ := hphase
    have hi : b.task.running.idxOf f < i := hbehind i (by rw [next, hphase])
    obtain ⟨htask, ⟨fid, hget, hnext', hf', he'⟩ | ⟨-, hnext', hf', he'⟩⟩ := test_boot (f := f) hphase need
    · have hfid : fid ≠ f := by
        rintro rfl
        obtain ⟨hlt, hself⟩ := List.getElem?_eq_some_iff.1 hget
        have hidx := hok.nodup.idxOf_getElem i hlt
        rw [hself] at hidx
        omega
      rw [if_neg hfid] at hf' he'
      refine ⟨fun n hn => ?_, by omega, by omega⟩
      rw [hnext'] at hn
      obtain rfl := Option.some.inj hn
      rw [htask]
      omega
    · refine ⟨fun n hn => ?_, hf'.trans hfetches, he'.trans hexecutes⟩
      rw [hnext'] at hn
      cases hn

/-- A call of the emulator changes the tasks only. -/
theorem emulator_step (hact : ∀ need, a ≠ .boot need) (hok : b.task.Ok) (hf : b.task.active f) (hf' : b'.task.active f)
    (hstep : b.step a = some b') :
    b'.task.Ok ∧ b'.next = b.next ∧ b'.fetches f = b.fetches f ∧ b'.executes f = b.executes f ∧
      (b'.task.running.idxOf f = b.task.running.idxOf f ∧ ¬Skips f b a ∨
        b'.task.running.idxOf f = b.task.running.idxOf f - 1 ∧ 0 < b.task.running.idxOf f ∧
          (Skips f b a ↔ b.next = some (b.task.running.idxOf f))) := by
  cases a with
  | resumeThread g =>
    obtain ⟨⟨r, t⟩, ht, rfl⟩ := Option.map_eq_some_iff.1 hstep
    exact ⟨hok.resumeThread ht, rfl, rfl, rfl, .inl ⟨idxOf_resumeThread hok hf ht, fun h => h⟩⟩
  | resumeThreadGPU g =>
    obtain ⟨⟨r, t⟩, ht, rfl⟩ := Option.map_eq_some_iff.1 hstep
    exact ⟨hok.resumeThreadGPU ht, rfl, rfl, rfl, .inl ⟨idxOf_resumeThreadGPU hok hf ht, fun h => h⟩⟩
  | pauseThread g =>
    obtain ⟨t, ht, rfl⟩ := Option.map_eq_some_iff.1 hstep
    refine ⟨hok.pauseThread ht, rfl, rfl, rfl, ?_⟩
    have hidx := idxOf_pauseThread hok hf ht hf'
    by_cases hlt : b.task.running.idxOf g < b.task.running.idxOf f
    · rw [if_pos hlt] at hidx
      exact .inr ⟨hidx, by omega, fun h => h.1, fun h => ⟨h, hlt⟩⟩
    · rw [if_neg hlt] at hidx
      exact .inl ⟨hidx, fun h => hlt h.2⟩
  | boot need => exact absurd rfl (hact need)

/-- **A flow that is to come**: it stays so, it is its turn, or a pause skips it. -/
theorem Waiting.step (h : Waiting f b) (hok : b.task.Ok) (hf : b.task.active f) (hf' : b'.task.active f)
    (hstep : b.step a = some b') :
    (¬Skips f b a ∧ (Waiting f b' ∨ Passed 1 f b')) ∨ Skips f b a ∧ Passed 0 f b' := by
  by_cases hact : ∀ need, a ≠ .boot need
  · obtain ⟨-, hnext, hfetches, hexecutes, hidx⟩ := emulator_step hact hok hf hf' hstep
    obtain ⟨⟨n, hn, hle⟩, hf0, he0⟩ := h
    rcases hidx with ⟨hsame, hnot⟩ | ⟨hup, hpos, hskips⟩
    · exact .inl ⟨hnot, .inl ⟨⟨n, hnext.trans hn, by omega⟩, by omega, by omega⟩⟩
    · by_cases heq : n = b.task.running.idxOf f
      · refine .inr ⟨hskips.2 (by rw [hn, heq]), fun m hm => ?_, by omega, by omega⟩
        rw [hnext, hn] at hm
        obtain rfl := Option.some.inj hm
        omega
      · refine .inl ⟨fun hs => heq ?_, .inl ⟨⟨n, hnext.trans hn, by omega⟩, by omega, by omega⟩⟩
        have hn' := hskips.1 hs
        rw [hn] at hn'
        exact Option.some.inj hn'
  · push Not at hact
    obtain ⟨need, rfl⟩ := hact
    obtain rfl := Option.some.inj hstep
    exact .inl ⟨fun hs => hs, h.boot hok hf need⟩

/-- One that has been passed cannot be skipped. -/
theorem Passed.step (h : Passed c f b) (hok : b.task.Ok) (hf : b.task.active f) (hf' : b'.task.active f)
    (hin : b.InPass a) (hstep : b.step a = some b') : ¬Skips f b a ∧ Passed c f b' := by
  have hnot : b.next ≠ some (b.task.running.idxOf f) := fun hn => Nat.lt_irrefl _ (h.behind _ hn)
  by_cases hact : ∀ need, a ≠ .boot need
  · obtain ⟨-, hnext, hfetches, hexecutes, hidx⟩ := emulator_step hact hok hf hf' hstep
    obtain ⟨hbehind, hfc, hec⟩ := h
    have hpassed : Passed c f b' := by
      refine ⟨fun n hn => ?_, hfetches.trans hfc, hexecutes.trans hec⟩
      have hlt := hbehind n (hnext ▸ hn)
      rcases hidx with ⟨hsame, -⟩ | ⟨hup, -, -⟩ <;> omega
    refine ⟨?_, hpassed⟩
    cases a with
    | pauseThread g => exact fun hs => hnot hs.1
    | resumeThread g => exact fun hs => hs
    | resumeThreadGPU g => exact fun hs => hs
    | boot need => exact fun hs => hs
  · push Not at hact
    obtain ⟨need, rfl⟩ := hact
    obtain rfl := Option.some.inj hstep
    exact ⟨fun hs => hs, h.boot hok hf hin need⟩

/-! ## Passes -/

/-- The flow is active all along. -/
def ActiveAlong (f : FlowID) (b : Boot) (as : List Act) (b' : Boot) : Prop :=
  Along step (fun b _ => b.task.active f) b as ∧ b'.task.active f

theorem step_ok (b : Boot) (a : Act) (b' : Boot) (hstep : b.step a = some b') (hok : b.task.Ok) : b'.task.Ok := by
  cases a with
  | resumeThread g =>
    obtain ⟨⟨r, t⟩, ht, rfl⟩ := Option.map_eq_some_iff.1 hstep
    exact hok.resumeThread ht
  | resumeThreadGPU g =>
    obtain ⟨⟨r, t⟩, ht, rfl⟩ := Option.map_eq_some_iff.1 hstep
    exact hok.resumeThreadGPU ht
  | pauseThread g =>
    obtain ⟨t, ht, rfl⟩ := Option.map_eq_some_iff.1 hstep
    exact hok.pauseThread ht
  | boot need =>
    obtain rfl := Option.some.inj hstep
    show (b.boot need).task.Ok
    unfold boot
    split
    · split <;> exact hok
    all_goals exact hok

theorem ActiveAlong.cons {as : List Act} {b'' : Boot} (h : ActiveAlong f b (a :: as) b'') (hstep : b.step a = some b')
    (hrun : run step b' as = some b'') : b.task.active f ∧ b'.task.active f ∧ ActiveAlong f b' as b'' := by
  obtain ⟨⟨hf, hrest⟩, hend⟩ := h
  have hrest := hrest b' hstep
  refine ⟨hf, ?_, hrest, hend⟩
  cases as with
  | nil =>
    obtain rfl : b' = b'' := Option.some.inj hrun
    exact hend
  | cons a' as => exact hrest.1

/-- What has been passed stays so until the end of the pass. -/
theorem Passed.run {as : List Act} {b'' : Boot} (h : Passed c f b) (hok : b.task.Ok) (hrun : Lib.run Boot.step b as = some b'')
    (hin : Along Boot.step InPass b as) (hactive : ActiveAlong f b as b'') :
    Along Boot.step (fun b a => ¬Skips f b a) b as ∧ Passed c f b'' := by
  induction as generalizing b with
  | nil =>
    obtain rfl := Option.some.inj hrun
    exact ⟨trivial, h⟩
  | cons a as ih =>
    obtain ⟨b', hstep, hrest⟩ := run_cons.1 hrun
    obtain ⟨hf, hf', hactive'⟩ := hactive.cons hstep hrest
    obtain ⟨hskip, hpassed⟩ := h.step hok hf hf' hin.1 hstep
    obtain ⟨halong, hend⟩ := ih hpassed (step_ok b a b' hstep hok) hrest (hin.2 b' hstep) hactive'
    exact ⟨(along_cons_some hstep).2 ⟨hskip, halong⟩, hend⟩

/-- **The rest of a pass**, for a flow that is still to come. -/
theorem Waiting.run {as : List Act} {b'' : Boot} (h : Waiting f b) (hok : b.task.Ok) (hrun : Lib.run Boot.step b as = some b'')
    (hin : Along Boot.step InPass b as) (hactive : ActiveAlong f b as b'') :
    Along Boot.step (fun b a => ¬Skips f b a) b as ∧ (Waiting f b'' ∨ Passed 1 f b'') ∨
      ¬Along Boot.step (fun b a => ¬Skips f b a) b as ∧ Passed 0 f b'' := by
  induction as generalizing b with
  | nil =>
    obtain rfl := Option.some.inj hrun
    exact .inl ⟨trivial, .inl h⟩
  | cons a as ih =>
    obtain ⟨b', hstep, hrest⟩ := run_cons.1 hrun
    obtain ⟨hf, hf', hactive'⟩ := hactive.cons hstep hrest
    have hok' := step_ok b a b' hstep hok
    have hin' := hin.2 b' hstep
    rw [along_cons_some hstep]
    rcases h.step hok hf hf' hstep with ⟨hskip, hwaiting | hpassed⟩ | ⟨hskip, hpassed⟩
    · rw [and_iff_right hskip]
      exact ih hwaiting hok' hrest hin' hactive'
    · obtain ⟨halong, hend⟩ := hpassed.run hok' hrest hin' hactive'
      exact .inl ⟨⟨hskip, halong⟩, .inr hend⟩
    · obtain ⟨-, hend⟩ := hpassed.run hok' hrest hin' hactive'
      exact .inr ⟨fun hb => hb.1 hskip, hend⟩

/-- At the beginning of a pass there were no calls. -/
theorem calls_of_test (b : Boot) (a : Act) (b' : Boot) (hstep : b.step a = some b')
    (h : b.phase = .test 0 → b.calls = []) : b'.phase = .test 0 → b'.calls = [] := by
  cases a with
  | resumeThread g =>
    obtain ⟨⟨r, t⟩, ht, rfl⟩ := Option.map_eq_some_iff.1 hstep
    exact h
  | resumeThreadGPU g =>
    obtain ⟨⟨r, t⟩, ht, rfl⟩ := Option.map_eq_some_iff.1 hstep
    exact h
  | pauseThread g =>
    obtain ⟨t, ht, rfl⟩ := Option.map_eq_some_iff.1 hstep
    exact h
  | boot need =>
    obtain rfl := Option.some.inj hstep
    unfold boot
    split
    · split <;> intro hphase <;> cases hphase
    · intro hphase; cases hphase
    · intro hphase; cases hphase
    · intro hphase; cases hphase
    · exact fun _ => rfl

/-- **Fairness.** In a pass of the loop, from its first test to the clock, a flow that is active all along is fetched and
executed once exactly when no pause of a flow that the loop has passed moves it away from the index that is next. -/
theorem pass_serves_iff {others : List Bool} {b₀ : Boot} {before pass : List Act} (h₀ : start others = some b₀)
    (hbefore : run step b₀ before = some b) (hstart : b.phase = .test 0) (hpass : run step b pass = some b') (hin : Along step InPass b pass)
    (hclock : b'.phase = .clock) (hactive : ActiveAlong f b pass b') :
    b'.calls.count (.fetch f) = 1 ∧ b'.calls.count (.execute f) = 1 ↔ Along step (fun b a => ¬Skips f b a) b pass := by
  obtain ⟨t₀, ht₀, rfl⟩ := Option.map_eq_some_iff.1 h₀
  obtain ⟨-, rfl⟩ := TaskHandler.plugEnd_eq_some ht₀
  have hok : b.task.Ok := run_inv (I := fun b => b.task.Ok) step_ok hbefore (.plugged others)
  have hcalls : b.calls = [] := run_inv (I := fun b => b.phase = .test 0 → b.calls = []) calls_of_test hbefore (fun _ => rfl) hstart
  have hwaiting : Waiting f b := by
    refine ⟨⟨0, by rw [next, hstart], Nat.zero_le _⟩, ?_, ?_⟩
    · rw [fetches, hstart, hcalls]
      rfl
    · rw [executes, hstart, hcalls]
      rfl
  have hfetches : b'.fetches f = b'.calls.count (.fetch f) := by rw [fetches, hclock]; rfl
  have hexecutes : b'.executes f = b'.calls.count (.execute f) := by rw [executes, hclock]; rfl
  rw [← hfetches, ← hexecutes]
  rcases hwaiting.run hok hpass hin hactive with ⟨halong, ⟨⟨n, hn, -⟩, -⟩ | hpassed⟩ | ⟨halong, hpassed⟩
  · rw [next, hclock] at hn
    cases hn
  · exact iff_of_true hpassed.calls halong
  · refine iff_of_false ?_ halong
    rw [hpassed.calls.1]
    rintro ⟨h, -⟩
    cases h

/-- The first of two flows is paused before the loop has come to it. -/
theorem pass_serves_two :
    ∃ b b', (start [true]).bind (fun b₀ => run step b₀ [.resumeThread 1]) = some b ∧
      run step b [.pauseThread 0, .boot false, .boot false, .boot false, .boot false, .boot false] = some b' ∧
      b'.phase = .clock ∧ b'.calls.count (.fetch 1) = 1 ∧ b'.calls.count (.execute 1) = 1 := by
  refine ⟨_, _, rfl, rfl, by decide, ?_⟩
  exact (@pass_serves_iff _ _ 1 [true] _ [.resumeThread 1]
    [.pauseThread 0, .boot false, .boot false, .boot false, .boot false, .boot false] rfl rfl rfl rfl (by decide) (by decide) ⟨by decide, by decide⟩).2 (by decide)

/-- When it is paused after its turn, the other flow has none in this pass. -/
theorem pass_skips :
    ∃ b b', (start [true]).bind (fun b₀ => run step b₀ [.resumeThread 1]) = some b ∧ b.phase = .test 0 ∧
      run step b [.boot false, .boot false, .boot false, .boot false, .pauseThread 0, .boot false] = some b' ∧
      Along step InPass b [.boot false, .boot false, .boot false, .boot false, .pauseThread 0, .boot false] ∧
      b'.phase = .clock ∧
      ActiveAlong 1 b [.boot false, .boot false, .boot false, .boot false, .pauseThread 0, .boot false] b' ∧
      b'.calls.count (.fetch 1) = 0 ∧ b'.calls.count (.execute 1) = 0 :=
  ⟨_, _, rfl, rfl, rfl, by decide, rfl, ⟨by decide, by decide⟩, by decide, by decide⟩

end Boot

end Esesc.Core
