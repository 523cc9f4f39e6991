import Esesc.Core.Instruction
import Esesc.Emul.ThreadSafeFIFO

/-!
# The emulator's side of `QEMUReader`

`QEMUReader` (`libqemuint/QEMUReader.cpp`) feeds one `ThreadSafeFIFO` of raw instructions for
each flow. The emulator thread of the flow calls `queueInstruction` for every instruction and
`syscall` after every system call; the simulator pops. `queueInstruction` waits while the FIFO
is full. `syscall` has its wait compiled out, and pushes at once.

A call is cut at the points where a pop can come between: the two comparisons of `full`, each of
which reads `head`, the slot write and the push.

* `Flow.Ok.step`: the invariant of a flow whose system calls find room.
* `Flow.Seen.full_eq_false`: when the two comparisons together mean that there is room.
* `pushes_find_room_iff`: exactly when no push meets a full FIFO.
-/

namespace Esesc.Emul

open Esesc.Lib
open Esesc.Core (Instruction LREG_NoDependence LREG_InvalidOutput)

/-- What `queueInstruction` is told about operands and branches, for the slice constructor. -/
structure Operands where
  srcReg : ℕ × ℕ × ℕ
  dstReg : ℕ
  implReg : ℕ
  srcVal : ℕ × ℕ × ℕ
  dstVal : ℕ
  implVal : ℕ
  isBranch : Bool
  isCond : Bool
  taken : Bool
  targetAddr : ℕ
  deriving DecidableEq, Repr

/-- A raw instruction with its micro-operations: `predec` up to `ninst`. -/
structure RAWDInst where
  insn : ℕ
  pc : ℕ
  addr : ℕ
  data : ℕ
  keepStats : Bool
  operands : Operands
  predec : List Instruction
  deriving DecidableEq, Repr

namespace RAWDInst

def getNumInst (r : RAWDInst) : ℕ := r.predec.length

/-- What `syscall` writes into a slot. `set` leaves the operands of the slot's last user. -/
def ofSyscall (num time : ℕ) (old : RAWDInst) : RAWDInst where
  insn := 0
  pc := 0xdeaddead
  addr := num
  data := time
  keepStats := false
  operands := old.operands
  predec := [⟨.iRALU, LREG_NoDependence, LREG_NoDependence, LREG_InvalidOutput, LREG_InvalidOutput⟩]

end RAWDInst

/-- Where the emulator thread of the flow stands. -/
inductive Caller where
  | idle
  /-- `tsfifo[fid].full()` of `queueInstruction`: `head` is read for `(tail+2) == head`. -/
  | wait (r : RAWDInst)
  /-- `head` is read again, for `nextTail == head`; the first comparison saw `seen`. -/
  | waitNext (r : RAWDInst) (seen : UInt8)
  /-- `rinst->set(...)` and `expand`, through `getTailRef`. -/
  | set (r : RAWDInst) (seen : UInt8)
  /-- The test of `getNumInst()`, and the push. -/
  | push (r : RAWDInst) (seen : UInt8)
  | syscallSet (num time : ℕ)
  | syscallPush (r : RAWDInst)
  deriving DecidableEq

/-- One flow. `pushed` and `popped` record the elements that went in and out, `overrun` that a
push was made into a full FIFO. -/
structure Flow where
  tsfifo : ThreadSafeFIFO RAWDInst
  caller : Caller
  pushed : List RAWDInst
  popped : List RAWDInst
  overrun : Bool

/-- How many elements are published and not popped. -/
def Flow.queued (s : Flow) : ℕ := s.pushed.length - s.popped.length

inductive Flow.Act where
  /-- `r` is the slot's content after `set` and `expand`. -/
  | queueInstruction (r : RAWDInst)
  | syscall (num time : ℕ)
  /-- The emulator thread does the next part of its call. -/
  | emulator
  /-- The simulator pops. -/
  | pop
  deriving DecidableEq

namespace Flow

open ThreadSafeFIFO

def init (array : UInt8 → RAWDInst) : Flow := ⟨.init array, .idle, [], [], false⟩

/-- `tsfifo[fid].push()`, with what it publishes put on record. -/
def publish (s : Flow) (r : RAWDInst) : Flow :=
  { s with
    tsfifo := s.tsfifo.push
    caller := .idle
    pushed := s.pushed ++ [r]
    overrun := s.overrun || s.tsfifo.full }

def stepCaller (s : Flow) : Option Flow :=
  match s.caller with
  | .idle => none
  | .wait r =>
    if s.tsfifo.tail.toNat + 2 = s.tsfifo.head.toNat then some s
    else some { s with caller := .waitNext r s.tsfifo.head }
  | .waitNext r seen =>
    if s.tsfifo.tail + 1 = s.tsfifo.head then some { s with caller := .wait r }
    else some { s with caller := .set r seen }
  | .set r seen => some { s with tsfifo := s.tsfifo.setTailRef r, caller := .push r seen }
  -- an instruction that cracks into nothing is legal in IT blocks, and is not pushed
  | .push r _ => if r.getNumInst = 0 then some { s with caller := .idle } else some (s.publish r)
  | .syscallSet num time =>
    let r := RAWDInst.ofSyscall num time (s.tsfifo.array s.tsfifo.tail)
    some { s with tsfifo := s.tsfifo.setTailRef r, caller := .syscallPush r }
  | .syscallPush r => some (s.publish r)

def step (s : Flow) : Act → Option Flow
  | .queueInstruction r => if s.caller = .idle then some { s with caller := .wait r } else none
  | .syscall num time => if s.caller = .idle then some { s with caller := .syscallSet num time } else none
  | .emulator => s.stepCaller
  | .pop => some { s with tsfifo := s.tsfifo.pop, popped := s.popped ++ [s.tsfifo.getHeadRef] }

/-- The simulator pops only what is there. -/
def PopsQueued (s : Flow) (a : Act) : Prop := a = .pop → s.tsfifo.empty = false

instance (s : Flow) (a : Act) : Decidable (PopsQueued s a) :=
  inferInstanceAs (Decidable (a = .pop → s.tsfifo.empty = false))

/-- A system call that is about to push finds the FIFO not full. -/
def SyscallFindsRoom (s : Flow) (a : Act) : Prop :=
  a = .emulator → ∀ r, s.caller = .syscallPush r → s.tsfifo.full = false

/-- One pop since the first comparison of `full`, which saw 255 elements queued. -/
def PoppedOnce (f : ThreadSafeFIFO RAWDInst) (seen : UInt8) : Prop :=
  seen = f.tail + 1 ∧ f.tail.toNat < 254 ∧ f.head = seen + 1

/-- A `queueInstruction` that is about to push has not had just one pop since then. -/
def QueueUnraced (s : Flow) (a : Act) : Prop :=
  a = .emulator → ∀ r seen, s.caller = .push r seen → r.getNumInst ≠ 0 → ¬PoppedOnce s.tsfifo seen

/-- What was pushed and not yet popped is still in the slots between `head` and `tail`, all of
it and in order. -/
def Carried (s : Flow) : Prop := ∃ q, s.pushed = s.popped ++ q ∧ s.tsfifo.Carries s.popped q

/-- No push so far met a full FIFO, and no unread element was overwritten or dropped. -/
def Intact (s : Flow) : Prop := s.overrun = false ∧ s.Carried

/-- What the first comparison has seen is worth, with `n` elements queued now. -/
structure Seen (f : ThreadSafeFIFO RAWDInst) (n : ℕ) (seen : UInt8) : Prop where
  differs : f.tail.toNat + 2 ≠ seen.toNat
  pops : ∃ k, f.head = seen + UInt8.ofNat k ∧ n + k ≤ 255

/-- What each part of a call has made sure of, with `n` elements queued. -/
def CallerOk (f : ThreadSafeFIFO RAWDInst) (n : ℕ) : Caller → Prop
  | .idle | .wait _ | .syscallSet _ _ => True
  | .waitNext _ seen => Seen f n seen
  | .set _ seen => Seen f n seen ∧ n < 255
  | .push r seen => (Seen f n seen ∧ n < 255) ∧ f.array f.tail = r
  | .syscallPush r => f.array f.tail = r

structure Ok (s : Flow) : Prop where
  carried : s.Carried
  caller : CallerOk s.tsfifo s.queued s.caller

theorem ok_init (array : UInt8 → RAWDInst) : (init array).Ok := ⟨⟨[], rfl, carries_init array⟩, trivial⟩

section Ok

variable {s s' : Flow} {q : List RAWDInst} {r : RAWDInst} {seen : UInt8}

theorem queued_eq (hq : s.pushed = s.popped ++ q) : s.queued = q.length := by
  rw [queued, hq, List.length_append]
  omega

/-- The slot right behind the tail is the head when 255 elements are queued. -/
theorem next_eq_head_iff (hc : s.tsfifo.Carries s.popped q) : s.tsfifo.tail + 1 = s.tsfifo.head ↔ q.length = 255 := by
  have hr := hc.room
  rw [hc.tail, hc.head, ← ofNat_succ, isRing_ofNat]
  omega

/-- **When the test means room.** Both comparisons passed, but not at one moment. Pops since the
first only make room, unless it saw 255 elements and there was a single one. -/
theorem Seen.full_eq_false (h : Seen s.tsfifo s.queued seen) (hroom : s.queued < 255) (hs : s.Carried)
    (hrace : ¬PoppedOnce s.tsfifo seen) : s.tsfifo.full = false := by
  obtain ⟨q, hq, hc⟩ := hs
  obtain ⟨k, hk, hle⟩ := h.pops
  rw [queued_eq hq] at hroom hle
  rw [Bool.eq_false_iff, Ne, hc.full_iff]
  rintro (h255 | ⟨h254, ht⟩)
  · omega
  have htail : s.tsfifo.tail.toNat + 2 = s.tsfifo.head.toNat := by
    have := hc.tail_toNat
    have := hc.head_toNat
    omega
  have hsucc : s.tsfifo.head = s.tsfifo.tail + 1 + 1 := by
    rw [← UInt8.toNat_inj, ← htail, UInt8.toNat_add, UInt8.toNat_add]
    simp
    omega
  -- 254 are queued now, so at most one was popped
  obtain rfl | rfl : k = 0 ∨ k = 1 := by omega
  · refine h.differs ?_
    rw [htail, hk]
    simp
  · refine hrace ⟨?_, ht, hk⟩
    exact (UInt8.add_left_inj 1).1 (hk.symm.trans hsucc)

theorem Ok.publish (h : s.Ok) (hroom : s.queued < 255) (hr : s.tsfifo.array s.tsfifo.tail = r) :
    (s.publish r).Ok := by
  obtain ⟨q, hq, hc⟩ := h.carried
  rw [queued_eq hq] at hroom
  refine ⟨⟨q ++ [r], ?_, hc.push hr hroom⟩, trivial⟩
  show s.pushed ++ [r] = s.popped ++ (q ++ [r])
  rw [hq, List.append_assoc]

/-- Filling the free slot changes nothing for the queued elements. -/
theorem Ok.fill (h : s.Ok) (r : RAWDInst) {c : Caller} (hc : CallerOk (s.tsfifo.setTailRef r) s.queued c) :
    Ok { s with tsfifo := s.tsfifo.setTailRef r, caller := c } := by
  obtain ⟨q, hq, hcar⟩ := h.carried
  exact ⟨⟨q, hq, hcar.write r⟩, hc⟩

theorem setTailRef_self (f : ThreadSafeFIFO RAWDInst) (r : RAWDInst) :
    (f.setTailRef r).array (f.setTailRef r).tail = r := Function.update_self _ _ _

/-- A FIFO that is not full has a slot besides the one at the tail. -/
theorem queued_lt_of_not_full (h : s.Carried) (hfull : s.tsfifo.full = false) : s.queued < 255 := by
  obtain ⟨q, hq, hc⟩ := h
  rw [queued_eq hq]
  refine lt_of_le_of_ne hc.room fun h255 => ?_
  rw [hc.full_iff.2 (.inl h255)] at hfull
  cases hfull

theorem Ok.stepCaller (h : s.Ok) (hs : s.stepCaller = some s')
    (hroom : ∀ r, s.caller = .syscallPush r → s.tsfifo.full = false) : s'.Ok := by
  have hcaller := h.caller
  unfold Flow.stepCaller at hs
  cases hc : s.caller with
  | idle => simp [hc] at hs
  | wait r =>
    simp only [hc] at hs
    split at hs
    · obtain rfl : s = s' := Option.some.inj hs
      exact h
    · rename_i hdiffers
      obtain rfl : _ = s' := Option.some.inj hs
      obtain ⟨q, hq, hcar⟩ := h.carried
      refine ⟨⟨q, hq, hcar⟩, hdiffers, 0, by simp, ?_⟩
      exact (queued_eq hq).trans_le hcar.room
  | waitNext r seen =>
    rw [hc] at hcaller
    simp only [hc] at hs
    split at hs
    · obtain rfl : _ = s' := Option.some.inj hs
      exact ⟨h.carried, trivial⟩
    · rename_i hne
      obtain rfl : _ = s' := Option.some.inj hs
      obtain ⟨q, hq, hcar⟩ := h.carried
      refine ⟨⟨q, hq, hcar⟩, hcaller, ?_⟩
      rw [next_eq_head_iff hcar] at hne
      exact (queued_eq hq).trans_lt (lt_of_le_of_ne hcar.room hne)
  | set r seen =>
    rw [hc] at hcaller
    obtain rfl : _ = s' := by simpa [hc] using hs
    exact h.fill r ⟨⟨⟨hcaller.1.differs, hcaller.1.pops⟩, hcaller.2⟩, setTailRef_self _ r⟩
  | push r seen =>
    rw [hc] at hcaller
    simp only [hc] at hs
    split at hs
    · obtain rfl : _ = s' := Option.some.inj hs
      exact ⟨h.carried, trivial⟩
    · obtain rfl : s.publish r = s' := Option.some.inj hs
      exact h.publish hcaller.1.2 hcaller.2
  | syscallSet num time =>
    obtain rfl : _ = s' := by simpa [hc] using hs
    exact h.fill _ (setTailRef_self _ _)
  | syscallPush r =>
    have hfull := hroom r hc
    rw [hc] at hcaller
    obtain rfl : s.publish r = s' := by simpa [hc] using hs
    exact h.publish (queued_lt_of_not_full h.carried hfull) hcaller

/-- A pop is one more since the first comparison. -/
theorem Seen.pop {f : ThreadSafeFIFO RAWDInst} {n : ℕ} (h : Seen f (n + 1) seen) : Seen f.pop n seen := by
  obtain ⟨k, hk, hle⟩ := h.pops
  refine ⟨h.differs, k + 1, ?_, by omega⟩
  rw [pop_head, hk, ofNat_succ, UInt8.add_assoc]

theorem CallerOk.pop {f : ThreadSafeFIFO RAWDInst} {n : ℕ} {c : Caller} (h : CallerOk f (n + 1) c) :
    CallerOk f.pop n c := by
  cases c with
  | waitNext r seen => exact Seen.pop h
  | set r seen => exact ⟨h.1.pop, Nat.lt_of_succ_lt h.2⟩
  | push r seen => exact ⟨⟨h.1.1.pop, Nat.lt_of_succ_lt h.1.2⟩, h.2⟩
  | _ => exact h

/-- **One step.** A flow keeps its invariant as long as pops find an element and system calls
find room. -/
theorem Ok.step {a : Act} (hs : s.step a = some s') (hpop : PopsQueued s a) (hroom : SyscallFindsRoom s a)
    (h : s.Ok) : s'.Ok := by
  cases a with
  | queueInstruction r =>
    simp only [Flow.step, Option.ite_none_right_eq_some, Option.some.injEq] at hs
    obtain ⟨-, rfl⟩ := hs
    exact ⟨h.carried, trivial⟩
  | syscall num time =>
    simp only [Flow.step, Option.ite_none_right_eq_some, Option.some.injEq] at hs
    obtain ⟨-, rfl⟩ := hs
    exact ⟨h.carried, trivial⟩
  | emulator => exact h.stepCaller hs (hroom rfl)
  | pop =>
    obtain rfl : _ = s' := Option.some.inj hs
    obtain ⟨q, hq, hc⟩ := h.carried
    have hne : q ≠ [] := by
      intro hnil
      rw [PopsQueued, hc.empty_iff.2 hnil] at hpop
      cases hpop rfl
    obtain ⟨x, q, rfl⟩ := List.exists_cons_of_ne_nil hne
    have hq' : s.pushed = s.popped ++ [s.tsfifo.getHeadRef] ++ q := by
      rw [hc.getHeadRef, hq, List.append_assoc]
      rfl
    have hcaller := h.caller
    rw [queued_eq hq, List.length_cons] at hcaller
    refine ⟨⟨q, hq', ?_⟩, ?_⟩
    · show s.tsfifo.pop.Carries (s.popped ++ [s.tsfifo.getHeadRef]) q
      rw [hc.getHeadRef]
      exact hc.pop
    · rw [queued_eq hq']
      exact hcaller.pop

end Ok

/-- The emulator thread only adds to what was pushed, and leaves the head alone. -/
theorem step_emulator {s s' : Flow} {a : Act} (hs : s.step a = some s') (ha : a ≠ .pop) :
    s'.popped = s.popped ∧ s'.tsfifo.head = s.tsfifo.head ∧ s.pushed <+: s'.pushed := by
  cases a with
  | queueInstruction r =>
    simp only [Flow.step, Option.ite_none_right_eq_some, Option.some.injEq] at hs
    obtain ⟨-, rfl⟩ := hs
    exact ⟨rfl, rfl, List.prefix_rfl⟩
  | syscall num time =>
    simp only [Flow.step, Option.ite_none_right_eq_some, Option.some.injEq] at hs
    obtain ⟨-, rfl⟩ := hs
    exact ⟨rfl, rfl, List.prefix_rfl⟩
  | pop => exact absurd rfl ha
  | emulator =>
    simp only [Flow.step, Flow.stepCaller] at hs
    cases hc : s.caller with
    | idle => simp [hc] at hs
    | wait r | waitNext r seen =>
      simp only [hc] at hs
      split at hs
      · obtain rfl := Option.some.inj hs
        exact ⟨rfl, rfl, List.prefix_rfl⟩
      · obtain rfl := Option.some.inj hs
        exact ⟨rfl, rfl, List.prefix_rfl⟩
    | set r seen =>
      obtain rfl : _ = s' := by simpa [hc] using hs
      exact ⟨rfl, rfl, List.prefix_rfl⟩
    | push r seen =>
      simp only [hc] at hs
      split at hs
      · obtain rfl := Option.some.inj hs
        exact ⟨rfl, rfl, List.prefix_rfl⟩
      · obtain rfl := Option.some.inj hs
        exact ⟨rfl, rfl, List.prefix_append _ _⟩
    | syscallSet num time =>
      obtain rfl : _ = s' := by simpa [hc] using hs
      exact ⟨rfl, rfl, List.prefix_rfl⟩
    | syscallPush r =>
      obtain rfl : s.publish r = s' := by simpa [hc] using hs
      exact ⟨rfl, rfl, List.prefix_append _ _⟩

/-- System calls find room, and no `queueInstruction` is overtaken by a single pop. -/
def FindsRoom (s : Flow) (a : Act) : Prop := SyscallFindsRoom s a ∧ QueueUnraced s a

/-- A push that finds room leaves the record clean. -/
theorem publish_overrun {s : Flow} {r : RAWDInst} (h : s.overrun = false) (hfull : s.tsfifo.full = false) :
    (s.publish r).overrun = false := by
  show (s.overrun || s.tsfifo.full) = false
  rw [h, hfull]
  rfl

/-- With room found, no step makes a push into a full FIFO. -/
theorem overrun_step {s s' : Flow} {a : Act} (hs : s.step a = some s') (hroom : FindsRoom s a) (h : s.Ok)
    (hov : s.overrun = false) : s'.overrun = false := by
  cases a with
  | queueInstruction r =>
    simp only [Flow.step, Option.ite_none_right_eq_some, Option.some.injEq] at hs
    obtain ⟨-, rfl⟩ := hs
    exact hov
  | syscall num time =>
    simp only [Flow.step, Option.ite_none_right_eq_some, Option.some.injEq] at hs
    obtain ⟨-, rfl⟩ := hs
    exact hov
  | pop =>
    obtain rfl : _ = s' := Option.some.inj hs
    exact hov
  | emulator =>
    have hcaller := h.caller
    simp only [Flow.step, Flow.stepCaller] at hs
    cases hc : s.caller with
    | idle => simp [hc] at hs
    | wait r | waitNext r seen =>
      simp only [hc] at hs
      split at hs
      · obtain rfl := Option.some.inj hs
        exact hov
      · obtain rfl := Option.some.inj hs
        exact hov
    | set r seen =>
      obtain rfl : _ = s' := by simpa [hc] using hs
      exact hov
    | push r seen =>
      rw [hc] at hcaller
      simp only [hc] at hs
      split at hs
      · obtain rfl := Option.some.inj hs
        exact hov
      · rename_i hr
        obtain rfl := Option.some.inj hs
        have hrace : ¬PoppedOnce s.tsfifo seen := hroom.2 rfl r seen hc hr
        exact publish_overrun hov (hcaller.1.1.full_eq_false hcaller.1.2 h.carried hrace)
    | syscallSet num time =>
      obtain rfl : _ = s' := by simpa [hc] using hs
      exact hov
    | syscallPush r =>
      obtain rfl : s.publish r = s' := by simpa [hc] using hs
      exact publish_overrun hov (hroom.1 rfl r hc)

/-- After the single pop the first comparison would say full again. -/
theorem PoppedOnce.full {f : ThreadSafeFIFO RAWDInst} {seen : UInt8} (h : PoppedOnce f seen) : f.full = true := by
  obtain ⟨rfl, htail, hhead⟩ := h
  rw [ThreadSafeFIFO.full, Bool.or_eq_true, beq_iff_eq, hhead, UInt8.toNat_add, UInt8.toNat_add]
  left
  simp
  omega

/-- A push without room overruns the FIFO. -/
theorem not_intact_of_not_findsRoom {s s' : Flow} {a : Act} (hs : s.step a = some s') (hroom : ¬FindsRoom s a) :
    ¬s'.Intact := by
  have hpublish : ∀ r, s' = s.publish r → s.tsfifo.full = true → ¬s'.Intact := by
    rintro r rfl hfull hi
    have hov : (s.overrun || s.tsfifo.full) = false := hi.1
    rw [hfull, Bool.or_true] at hov
    cases hov
  rw [FindsRoom, Classical.not_and_iff_not_or_not] at hroom
  rcases hroom with hroom | hroom
  · unfold SyscallFindsRoom at hroom
    push Not at hroom
    obtain ⟨rfl, r, hc, hfull⟩ := hroom
    refine hpublish r ?_ (Bool.eq_true_of_not_eq_false hfull)
    simpa [Flow.step, Flow.stepCaller, hc, eq_comm] using hs
  · unfold QueueUnraced at hroom
    push Not at hroom
    obtain ⟨rfl, r, seen, hc, hr, hrace⟩ := hroom
    refine hpublish r ?_ hrace.full
    simpa [Flow.step, Flow.stepCaller, hc, hr, eq_comm] using hs

/-- **Pushes and room.** Let the simulator pop only what is there. Then along a run no push is
made into a full FIFO and no unread element is overwritten or dropped, exactly when every
system call finds the FIFO not full at its push, and no `queueInstruction` that pushes had its
first comparison see 255 elements, below tail 254, and just one pop since. -/
theorem pushes_find_room_iff (array : UInt8 → RAWDInst) (as : List Act) (s : Flow)
    (h : run step (init array) as = some s) (hpop : Along step PopsQueued (init array) as) :
    (∀ bs t, bs <+: as → run step (init array) bs = some t → t.Intact) ↔
      Along step FindsRoom (init array) as :=
  forall_prefix_iff_along (I := fun t => t.Ok ∧ t.overrun = false) (fun _ ht => ⟨ht.2, ht.1.carried⟩)
    (fun _ _ _ hs hp hr ht => ⟨ht.1.step hs hp hr.1, overrun_step hs hr ht.1 ht.2⟩)
    (fun _ _ _ hs _ hr _ => not_intact_of_not_findsRoom hs hr) h hpop ⟨ok_init array, rfl⟩

/-- An instruction of one micro-operation. -/
def nop : RAWDInst where
  insn := 1
  pc := 0x8000
  addr := 0
  data := 0
  keepStats := false
  operands := ⟨(16, 16, 16), 16, 16, (0, 0, 0), 0, 0, false, false, false, 0⟩
  predec := [⟨.iRALU, 0, 0, 0, 0⟩]

/-- `n` calls of `queueInstruction` that do not have to wait. -/
def queueRun (n : ℕ) : List Act :=
  (List.replicate n [Act.queueInstruction nop, .emulator, .emulator, .emulator, .emulator]).flatten

/-- An instruction and a system call, with a pop between the two. -/
def oneOfEach : List Act := queueRun 1 ++ [.syscall 4 0, .pop, .emulator, .emulator]

/-- A FIFO that is not full has room for either push. -/
theorem findsRoom_of_not_full {s : Flow} (a : Act) (h : s.tsfifo.full = false) : FindsRoom s a := by
  refine ⟨fun _ _ _ => h, fun _ r seen _ _ hrace => ?_⟩
  rw [hrace.full] at h
  cases h

theorem pushes_find_room_iff_one :
    Along step FindsRoom (init fun _ => nop) oneOfEach ∧
      ∀ bs t, bs <+: oneOfEach → run step (init fun _ => nop) bs = some t → t.Intact := by
  have hrun : (run step (init fun _ => nop) oneOfEach).isSome = true := by decide +kernel
  have hnot : Along step (fun s _ => s.tsfifo.full = false) (init fun _ => nop) oneOfEach := by decide +kernel
  have hroom : Along step FindsRoom (init fun _ => nop) oneOfEach :=
    hnot.of_inv (I := fun _ => True) (fun _ _ _ _ _ _ => trivial) (fun _ a h _ => findsRoom_of_not_full a h) trivial
  obtain ⟨s, hs⟩ := Option.isSome_iff_exists.1 hrun
  exact ⟨hroom, (pushes_find_room_iff (fun _ => nop) oneOfEach s hs (by decide +kernel)).2 hroom⟩

/-- **Pushes into a full FIFO.** With 255 unread instructions queued, the push of a system call
brings `tail` back to `head`: the FIFO reads as empty, with 256 elements pushed and none popped.
And a pop between the two comparisons of `full` lets `queueInstruction` through to a push while
`full` holds. -/
theorem pushes_overrun :
    (∃ s, run step (init fun _ => nop) (queueRun 255 ++ [.syscall 4 0, .emulator, .emulator]) = some s ∧
      s.popped = [] ∧ s.pushed.length = 256 ∧ s.tsfifo.empty = true ∧ ¬s.Intact) ∧
    ∃ s, run step (init fun _ => nop) (queueRun 255 ++ [.pop] ++ queueRun 1 ++
        [.queueInstruction nop, .emulator, .pop, .emulator, .emulator]) = some s ∧
      s.caller = .push nop 1 ∧ s.tsfifo.full = true := by
  constructor
  · have hrun : ((run step (init fun _ => nop)
        (queueRun 255 ++ [.syscall 4 0, .emulator, .emulator])).any fun s =>
          s.popped.isEmpty && s.pushed.length == 256 && s.tsfifo.empty && s.overrun) = true := by
      decide +kernel
    obtain ⟨s, hs, h⟩ := (Option.any_eq_true _ _).1 hrun
    simp only [Bool.and_eq_true, List.isEmpty_iff, beq_iff_eq] at h
    obtain ⟨⟨⟨hpop, hlen⟩, hempty⟩, hover⟩ := h
    refine ⟨s, hs, hpop, hlen, hempty, fun hi => ?_⟩
    rw [hi.1] at hover
    cases hover
  · have hrun : ((run step (init fun _ => nop) (queueRun 255 ++ [.pop] ++ queueRun 1 ++
        [.queueInstruction nop, .emulator, .pop, .emulator, .emulator])).any fun s =>
          decide (s.caller = .push nop 1) && s.tsfifo.full) = true := by
      decide +kernel
    obtain ⟨s, hs, h⟩ := (Option.any_eq_true _ _).1 hrun
    simp only [Bool.and_eq_true, decide_eq_true_eq] at h
    exact ⟨s, hs, h⟩

end Flow

end Esesc.Emul
