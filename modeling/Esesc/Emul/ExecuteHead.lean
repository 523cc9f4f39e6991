import Esesc.Emul.EmuDInstQueue
import Esesc.Emul.QEMUReader

/-!
# The simulator's side of `QEMUReader`

`executeHead` (`libqemuint/QEMUReader.cpp`) hands out the micro-operations of a flow. When its
replay queue is empty it waits for the FIFO to be full and cracks 205 raw instructions in one
pass, reporting each to the slice constructor. A load or store multiple comes from the emulator
as several raw instructions with one PC: the pass then pops more than one in a turn, after a
test on `realsize` that lets it go on whenever the FIFO is not empty.

The emulator thread runs between any two reads of its index `tail`, so `full` and `realsize`
are cut at these reads; `head` is the simulator's own. Everything else a call does reads and
writes memory that only the simulator touches, or the slots behind `head`.

* `Reader.Ok.step`: one step, of either thread, while a pass has more queued than turns left.
* `reads_published_along`: then every read and every pop finds a published element.
* `pass_reads_unpublished`: a run where a pass empties the FIFO and reads past the tail.
-/

namespace Esesc.Emul

open Esesc.Lib
open Esesc.Core (Instruction)

/-! ## Cracking one raw instruction -/

/-- A `DInst`, as `DInst::create` fills it. -/
structure UOp where
  inst : Instruction
  pc : ℕ
  addr : ℕ
  data : ℕ
  keepStats : Bool
  deriving DecidableEq, Repr

/-- `DInst::create`. -/
def UOp.create (inst : Instruction) (rinst : RAWDInst) (address : ℕ) : UOp :=
  ⟨inst, rinst.pc, address, rinst.data, rinst.keepStats⟩

/-- `getInstRef`; past the last micro-operation the source reads what `predec` held before. -/
def RAWDInst.getInstRef (r : RAWDInst) (j : ℕ) : Instruction := r.predec[j]?.getD ⟨.iOpInvalid, 0, 0, 0, 0⟩

/-- Micro-operation `j` accesses memory or returns through it. -/
def RAWDInst.isMemoryOrRet (r : RAWDInst) (j : ℕ) : Bool := (r.getInstRef j).isMemory || (r.getInstRef j).isFuncRet

/-- The variables of `executeHead` that last for a pass. -/
structure Pass where
  i : ℕ
  first : Bool
  lastPC : ℕ
  deriving DecidableEq, Repr

namespace Pass

def start : Pass := ⟨32, true, 0⟩

/-- The turns left, the current one included. -/
def left (p : Pass) : ℕ := 237 - p.i

/-- `first` and `last_PC` after micro-operation `j` of `rinst`. -/
def note (p : Pass) (rinst : RAWDInst) (j : ℕ) : Pass :=
  let first := if rinst.pc ≠ p.lastPC then true else p.first
  { p with
    first := if rinst.isMemoryOrRet j then false else first
    lastPC := rinst.pc }

/-- Micro-operation `j` is one that the emulator may have cracked already. -/
def mayMerge (p : Pass) (rinst : RAWDInst) (j : ℕ) : Bool := rinst.isMemoryOrRet j && !p.first

end Pass

namespace RAWDInst

/-- Memory operations at address 0 come from system calls, and are skipped. -/
def skips (r : RAWDInst) (j : ℕ) : Bool := (r.getInstRef j).isMemory && r.addr == 0

/-- Where the micro-operations go on after `rinst2` took the place of its predecessor. -/
def mergedIndex (rinst2 : RAWDInst) (j : ℕ) : ℕ := if rinst2.getNumInst ≤ j then rinst2.getNumInst - 1 else j

/-- Control flow in the middle of the micro-operations. -/
def exitBranch (r : RAWDInst) (j : ℕ) : Bool := (r.getInstRef j).isControl && j != r.getNumInst - 1

/-- The branch is taken, and leaves the micro-operations behind it out. -/
def breaks (r : RAWDInst) (j : ℕ) : Bool := r.exitBranch j && r.addr == 0

/-- The instruction created from micro-operation `j`. -/
def crack (r : RAWDInst) (j : ℕ) : UOp :=
  .create (r.getInstRef j) r <|
    if r.exitBranch j then (if r.addr = 0 then (r.pc + 4) % 2 ^ 64 else 0) else r.addr

end RAWDInst

/-! ## A call -/

/-- What a pass keeps while it is at one raw instruction: `rinst` points into the FIFO. -/
structure Frame extends Pass where
  rinst : UInt8
  j : ℕ
  deriving DecidableEq, Repr

/-- Where the simulator stands in `executeHead`. -/
inductive Call where
  | idle
  /-- `tsfifo.full()` before a pass: the first read of `tail`. -/
  | full1 (again : Bool)
  /-- The second read. -/
  | full2 (again : Bool)
  /-- `isActive` between the two tests. -/
  | active
  /-- `i<tsfifo.size()`, `getHeadRef` and `recieveInstruction`. -/
  | loop (p : Pass)
  /-- `j<rinst->getNumInst()` and the tests of micro-operation `j`. -/
  | uop (f : Frame)
  /-- `realsize()`: `head == tail`, `head > tail`, and the difference. -/
  | realsize1 (f : Frame)
  | realsize2 (f : Frame)
  | realsize3 (f : Frame) (wrapped : Bool)
  /-- `tsfifo.full()` of `wait_until_FIFO_full`: the two reads. -/
  | wait1 (f : Frame) (again : Bool)
  | wait2 (f : Frame) (again : Bool)
  | waitActive (f : Frame)
  | waitEmpty (f : Frame)
  /-- `getNextHeadRef`, and the merge. -/
  | next (f : Frame)
  /-- `DInst::create` and `ruffer.add`. -/
  | create (f : Frame)
  | pop (f : Frame)
  /-- `getHead` and `popHead`. -/
  | ret
  deriving DecidableEq, Repr

/-- The call is between passes. -/
def Call.between : Call → Bool
  | .idle | .full1 _ | .full2 _ | .active | .ret => true
  | _ => false

/-- The call is on its way to a merge. -/
def Call.waiting : Call → Option Frame
  | .realsize1 f | .realsize2 f | .realsize3 f _ | .wait1 f _ | .wait2 f _ | .waitActive f
  | .waitEmpty f | .next f => some f
  | _ => none

/-- What the tests of a micro-operation of `rinst` lead to. -/
def Frame.afterTests (f : Frame) (rinst : RAWDInst) : Call :=
  if rinst.getNumInst ≤ f.j then .pop f
  else if rinst.skips f.j then .uop { f with j := f.j + 1 }
  else if f.mayMerge rinst f.j then .realsize1 f
  else .create f

/-- A flow with both its threads. On record: the raw instructions reported, with their places in
the sequence pushed, the micro-operations added to the replay queue, and whether a call has
returned from inside a pass. -/
structure Reader where
  flow : Flow
  ruffer : EmuDInstQueue UOp
  call : Call
  reported : List (ℕ × RAWDInst)
  added : List UOp
  gaveUp : Bool

inductive Reader.Act where
  /-- The emulator starts a call. -/
  | queueInstruction (r : RAWDInst)
  | syscall (num time : ℕ)
  /-- The emulator does the next part of its call. -/
  | emulator
  /-- The simulator calls `executeHead`. -/
  | executeHead
  /-- The simulator does the next part of its call; `isActive` answers `active`. -/
  | simulator (active : Bool)
  | reexecuteTail
  | syncHeadTail

namespace Reader

open ThreadSafeFIFO

def init (array : UInt8 → RAWDInst) : Reader := ⟨.init array, .init, .idle, [], [], false⟩

/-- What a pointer into the FIFO points to. -/
def deref (s : Reader) (slot : UInt8) : RAWDInst := s.flow.tsfifo.array slot

/-- `recieveInstruction` for the element at the head. -/
def report (s : Reader) (r : RAWDInst) : Reader :=
  { s with reported := s.reported ++ [(s.flow.popped.length, r)] }

def popFIFO (s : Reader) : Reader :=
  { s with flow := { s.flow with
      tsfifo := s.flow.tsfifo.pop
      popped := s.flow.popped ++ [s.flow.tsfifo.getHeadRef] } }

/-- `return 0` from inside the pass. -/
def giveUp (s : Reader) : Reader := { s with call := .idle, gaveUp := true }

/-- `(tail+2) == head`, which does not wrap. -/
def full1 (f : ThreadSafeFIFO RAWDInst) : Bool := f.tail.toNat + 2 == f.head.toNat

/-- `nextTail == head`. -/
def full2 (f : ThreadSafeFIFO RAWDInst) : Bool := f.tail + 1 == f.head

/-- The value of `realsize`, a `uint16_t`, once the branch is taken. -/
def difference (f : ThreadSafeFIFO RAWDInst) (wrapped : Bool) : ℤ :=
  (if wrapped then 256 - ((f.head.toNat : ℤ) - f.tail.toNat - 1) else (f.tail.toNat : ℤ) - f.head.toNat - 1) % 2 ^ 16

/-- `getNextHeadRef` and what follows when the PCs are equal. -/
def merge (s : Reader) (f : Frame) : Reader :=
  let rinst2 := s.flow.tsfifo.getNextHeadRef
  if rinst2.pc = (s.deref f.rinst).pc then
    let s' := s.popFIFO.report rinst2
    { s' with call := .create { f with rinst := s.flow.tsfifo.head + 1, j := rinst2.mergedIndex f.j } }
  else { s with call := .create f }

/-- `DInst::create`, `add`, and on to the next micro-operation or out of the loop. -/
def createUOp (s : Reader) (f : Frame) : Reader :=
  let rinst := s.deref f.rinst
  let f' := { f with toPass := f.toPass.note rinst f.j, j := f.j + 1 }
  { s with
    ruffer := s.ruffer.add (rinst.crack f.j)
    added := s.added ++ [rinst.crack f.j]
    call := if rinst.breaks f.j then .pop f' else .uop f' }

/-- One part of a call. -/
def stepCall (s : Reader) (active : Bool) : Option Reader :=
  let tsfifo := s.flow.tsfifo
  match s.call with
  | .idle => none
  | .full1 again => some { s with call := if full1 tsfifo then .loop .start else .full2 again }
  | .full2 again =>
    some { s with call := if full2 tsfifo then .loop .start else if again then .idle else .active }
  | .active => some { s with call := if active then .full1 true else .idle }
  | .loop p =>
    if p.i < tsfifo.size then
      some { s.report tsfifo.getHeadRef with call := .uop { p with rinst := tsfifo.head, j := 0 } }
    else some { s with call := .ret }
  | .uop f =>
    let rinst := s.deref f.rinst
    some { s with call :=
      if rinst.getNumInst ≤ f.j then .pop f
      else if rinst.skips f.j then .uop { f with j := f.j + 1 }
      else if f.mayMerge rinst f.j then .realsize1 f
      else .create f }
  | .realsize1 f => some { s with call := if tsfifo.head = tsfifo.tail then .wait1 f false else .realsize2 f }
  | .realsize2 f => some { s with call := .realsize3 f (decide (tsfifo.tail < tsfifo.head)) }
  | .realsize3 f wrapped =>
    some { s with call := if difference tsfifo wrapped < 16 then .wait1 f false else .next f }
  | .wait1 f again => some { s with call := if full1 tsfifo then .next f else .wait2 f again }
  | .wait2 f again =>
    some { s with call := if full2 tsfifo then .next f else if again then .waitEmpty f else .waitActive f }
  | .waitActive f => some (if active then { s with call := .wait1 f true } else s.giveUp)
  | .waitEmpty f => some (if tsfifo.empty then s.giveUp else { s with call := .next f })
  | .next f => some (s.merge f)
  | .create f => some (s.createUOp f)
  | .pop f => some { s.popFIFO with call := .loop { f.toPass with i := f.i + 1 } }
  | .ret => some { s with ruffer := s.ruffer.popHead, call := .idle }

def step (s : Reader) : Act → Option Reader
  | .queueInstruction r => (s.flow.step (.queueInstruction r)).map fun fl => { s with flow := fl }
  | .syscall num time => (s.flow.step (.syscall num time)).map fun fl => { s with flow := fl }
  | .emulator => (s.flow.step .emulator).map fun fl => { s with flow := fl }
  | .executeHead =>
    if s.call = .idle then some { s with call := if s.ruffer.empty then .full1 false else .ret } else none
  | .simulator active => s.stepCall active
  | .reexecuteTail => if s.call = .idle then some { s with ruffer := s.ruffer.advanceTail.2 } else none
  | .syncHeadTail => if s.call = .idle then some { s with ruffer := s.ruffer.moveHead2Tail id } else none

/-! ## What a part of a call does -/

/-- `s.Part s'`: one part of a call takes `s` to `s'`. -/
inductive Part (s : Reader) : Reader → Prop
  | between {c : Call} (hs : s.call.between = true) (hc : c.between = true) : Part s { s with call := c }
  | start (hs : s.call.between = true) (hfull : s.flow.tsfifo.full = true) :
      Part s { s with call := .loop .start }
  | turn {p : Pass} (hs : s.call = .loop p) (hi : p.i < 237) :
      Part s { s.report s.flow.tsfifo.getHeadRef with
        call := .uop { p with rinst := s.flow.tsfifo.head, j := 0 } }
  | finish {p : Pass} (hs : s.call = .loop p) (hi : ¬p.i < 237) : Part s { s with call := .ret }
  | tests {f : Frame} (hs : s.call = .uop f) : Part s { s with call := f.afterTests (s.deref f.rinst) }
  | wait {f : Frame} {c : Call} (hs : s.call.waiting = some f) (hc : c.waiting = some f) :
      Part s { s with call := c }
  | giveUp {f : Frame} (hs : s.call.waiting = some f) : Part s s.giveUp
  | merge {f : Frame} (hs : s.call = .next f) : Part s (s.merge f)
  | create {f : Frame} (hs : s.call = .create f) : Part s (s.createUOp f)
  | pop {f : Frame} (hs : s.call = .pop f) :
      Part s { s.popFIFO with call := .loop { f.toPass with i := f.i + 1 } }
  | ret (hs : s.call = .ret) : Part s { s with ruffer := s.ruffer.popHead, call := .idle }

theorem stepCall_part {s s' : Reader} {active : Bool} (h : s.stepCall active = some s') : s.Part s' := by
  -- between passes and on the way to a merge, only `call` changes
  have hbetween : ∀ {c : Call}, s.call.between = true → c.between = true → some { s with call := c } = some s' →
      s.Part s' := by
    rintro c hs hc ⟨⟩
    exact .between hs hc
  have hwait : ∀ {f : Frame} {c : Call}, s.call.waiting = some f → c.waiting = some f →
      some { s with call := c } = some s' → s.Part s' := by
    rintro f c hs hc ⟨⟩
    exact .wait hs hc
  unfold stepCall at h
  cases hc : s.call with
  | idle => simp [hc] at h
  | full1 again =>
    simp only [hc] at h
    split at h
    · rename_i hf
      obtain rfl := Option.some.inj h
      exact .start (by rw [hc]; rfl) (Bool.or_eq_true_iff.2 (.inl hf))
    · exact hbetween (by rw [hc]; rfl) rfl h
  | full2 again =>
    simp only [hc] at h
    split at h
    · rename_i hf
      obtain rfl := Option.some.inj h
      exact .start (by rw [hc]; rfl) (Bool.or_eq_true_iff.2 (.inr hf))
    · refine hbetween (by rw [hc]; rfl) ?_ h
      split <;> rfl
  | active =>
    simp only [hc] at h
    refine hbetween (by rw [hc]; rfl) ?_ h
    split <;> rfl
  | loop p =>
    simp only [hc] at h
    split at h
    · rename_i hi
      obtain rfl := Option.some.inj h
      exact .turn hc hi
    · rename_i hi
      obtain rfl := Option.some.inj h
      exact .finish hc hi
  | uop f =>
    simp only [hc] at h
    obtain rfl := Option.some.inj h
    exact .tests hc
  | realsize1 f | realsize3 f wrapped | wait1 f again =>
    simp only [hc] at h
    refine hwait (by rw [hc]; rfl) ?_ h
    split <;> rfl
  | realsize2 f =>
    simp only [hc] at h
    exact hwait (by rw [hc]; rfl) rfl h
  | wait2 f again =>
    simp only [hc] at h
    refine hwait (by rw [hc]; rfl) ?_ h
    split
    · rfl
    · split <;> rfl
  | waitActive f =>
    simp only [hc] at h
    split at h
    · exact hwait (by rw [hc]; rfl) rfl h
    · obtain rfl := Option.some.inj h
      exact .giveUp (by rw [hc]; rfl)
  | waitEmpty f =>
    simp only [hc] at h
    split at h
    · obtain rfl := Option.some.inj h
      exact .giveUp (by rw [hc]; rfl)
    · exact hwait (by rw [hc]; rfl) rfl h
  | next f =>
    simp only [hc] at h
    obtain rfl := Option.some.inj h
    exact .merge hc
  | create f =>
    simp only [hc] at h
    obtain rfl := Option.some.inj h
    exact .create hc
  | pop f =>
    simp only [hc] at h
    obtain rfl := Option.some.inj h
    exact .pop hc
  | ret =>
    simp only [hc] at h
    obtain rfl := Option.some.inj h
    exact .ret hc

/-! ## What a call reads -/

/-- The elements that the next part of a call reads or pops, with their places in the sequence
pushed. None of these places was popped before. -/
def touches (s : Reader) : Act → List (ℕ × RAWDInst)
  | .simulator _ =>
    let n := s.flow.popped.length
    let tsfifo := s.flow.tsfifo
    match s.call with
    | .loop p => if p.i < tsfifo.size then [(n, tsfifo.getHeadRef)] else []
    | .uop f | .create f => [(n, s.deref f.rinst)]
    | .next f => [(n, s.deref f.rinst), (n, tsfifo.getHeadRef), (n + 1, tsfifo.getNextHeadRef)]
    | .pop _ => [(n, tsfifo.getHeadRef)]
    | _ => []
  | _ => []

/-- What is read or popped was pushed before. -/
def TouchesPublished (s : Reader) (a : Act) : Prop := ∀ x ∈ s.touches a, s.flow.pushed[x.1]? = some x.2

/-- A system call that is about to push finds room, and a pass that is about to look for a merge
has more elements queued than turns left. -/
def spare (s : Reader) : Act → Bool
  | .emulator =>
    match s.flow.caller with
    | .syscallPush _ => !s.flow.tsfifo.full
    | _ => true
  | .simulator _ =>
    match s.call with
    | .next f => decide (f.left < s.flow.queued)
    | _ => true
  | _ => true

/-- In the middle of a turn: `rinst` is the head, and the turns left are covered. -/
structure FrameOk (flow : Flow) (f : Frame) : Prop where
  turn : f.i < 237
  covered : f.left ≤ flow.queued
  rinst : f.rinst = flow.tsfifo.head

/-- What a call relies on where it stands. -/
def CallOk (flow : Flow) : Call → Prop
  | .idle | .full1 _ | .full2 _ | .active | .ret => True
  | .loop p => p.left ≤ flow.queued
  | .uop f | .realsize1 f | .realsize2 f | .realsize3 f _ | .wait1 f _ | .wait2 f _ | .waitActive f
  | .waitEmpty f | .next f | .create f | .pop f => FrameOk flow f

structure Ok (s : Reader) : Prop where
  flow : s.flow.Ok
  call : CallOk s.flow s.call

theorem ok_init (array : UInt8 → RAWDInst) : (init array).Ok := ⟨Flow.ok_init array, trivial⟩

section Flows

variable {flow flow' : Flow} {f : Frame}

/-- The queued elements, as a list. -/
theorem queue_of_ok (h : flow.Ok) :
    ∃ q, flow.pushed = flow.popped ++ q ∧ flow.tsfifo.Carries flow.popped q ∧ q.length = flow.queued := by
  obtain ⟨q, hq, hc⟩ := h.carried
  exact ⟨q, hq, hc, (Flow.queued_eq hq).symm⟩

theorem getHeadRef_published (h : flow.Ok) (hq : 0 < flow.queued) :
    flow.pushed[flow.popped.length]? = some flow.tsfifo.getHeadRef := by
  obtain ⟨q, hpush, hc, hlen⟩ := queue_of_ok h
  obtain ⟨x, q, rfl⟩ := List.exists_cons_of_ne_nil (List.ne_nil_of_length_pos (by omega : 0 < q.length))
  rw [hpush, hc.getHeadRef, List.getElem?_append_right le_rfl, Nat.sub_self]
  rfl

theorem getNextHeadRef_published (h : flow.Ok) (hq : 1 < flow.queued) :
    flow.pushed[flow.popped.length + 1]? = some flow.tsfifo.getNextHeadRef := by
  obtain ⟨q, hpush, hc, hlen⟩ := queue_of_ok h
  match q, hlen with
  | x :: y :: q, _ =>
    rw [hpush, hc.getNextHeadRef, List.getElem?_append_right (Nat.le_add_right _ 1), Nat.add_sub_cancel_left]
    rfl
  | [_], hlen => simp at hlen; omega
  | [], hlen => simp at hlen; omega

/-- Before a pass the FIFO is full: more is queued than a pass has turns. -/
theorem start_covered (h : flow.Ok) (hfull : flow.tsfifo.full = true) : Pass.start.left ≤ flow.queued := by
  obtain ⟨q, -, hc, hlen⟩ := queue_of_ok h
  rcases hc.full_iff.1 hfull with h255 | ⟨h254, -⟩ <;> simp only [Pass.left, Pass.start] <;> omega

theorem FrameOk.pos (hf : FrameOk flow f) : 0 < flow.queued := by
  have := hf.turn
  have := hf.covered
  unfold Pass.left at this
  omega

/-- The pointer of a frame is all that matters of where it is in a turn. -/
theorem FrameOk.next (hf : FrameOk flow f) (p : Pass) (hp : p.i = f.i) (j : ℕ) :
    FrameOk flow { f with toPass := p, j := j } :=
  ⟨hp ▸ hf.turn, by have := hf.covered; unfold Pass.left at this ⊢; rw [hp]; exact this, hf.rinst⟩

theorem callOk_between {c : Call} (hc : c.between = true) : CallOk flow c := by
  cases c with
  | idle | full1 again | full2 again | active | ret => trivial
  | _ => cases hc

theorem callOk_waiting {c : Call} (hc : c.waiting = some f) : CallOk flow c ↔ FrameOk flow f := by
  cases c <;> cases hc <;> exact Iff.rfl

/-- A call relies on nothing that the emulator takes away. -/
theorem CallOk.emulator {c : Call} (h : CallOk flow c) (hpop : flow'.popped = flow.popped)
    (hhead : flow'.tsfifo.head = flow.tsfifo.head) (hpush : flow.pushed <+: flow'.pushed) : CallOk flow' c := by
  have hq : flow.queued ≤ flow'.queued := by
    have := hpush.length_le
    simp only [Flow.queued, hpop]
    omega
  have hframe : ∀ {f}, FrameOk flow f → FrameOk flow' f :=
    fun hf => ⟨hf.turn, hf.covered.trans hq, hf.rinst.trans hhead.symm⟩
  cases c with
  | idle | full1 again | full2 again | active | ret => trivial
  | loop p => exact Nat.le_trans h hq
  | _ => exact hframe h

end Flows

section Steps

variable {s s' : Reader} {f : Frame}

/-- A pop of what is there. -/
theorem popFIFO_ok (h : s.flow.Ok) (hq : 0 < s.flow.queued) :
    s.popFIFO.flow.Ok ∧ s.popFIFO.flow.queued + 1 = s.flow.queued := by
  obtain ⟨q, hpush, hc, hlen⟩ := queue_of_ok h
  have hstep : s.flow.step .pop = some s.popFIFO.flow := rfl
  constructor
  · refine Flow.Ok.step hstep ?_ nofun h
    intro _
    rw [Bool.eq_false_iff, Ne, hc.empty_iff]
    rintro rfl
    simp at hlen
    omega
  · simp only [Flow.queued, Reader.popFIFO, List.length_append, List.length_singleton] at hq ⊢
    omega

/-- A merge takes one element more than the turn does; there is one to spare. -/
theorem Ok.merge (h : s.flow.Ok) (hf : FrameOk s.flow f) (hspare : f.left < s.flow.queued) : (s.merge f).Ok := by
  unfold Reader.merge
  simp only
  split
  · obtain ⟨hflow, hq⟩ := popFIFO_ok h hf.pos
    have hcov : f.left ≤ s.popFIFO.flow.queued := by omega
    exact ⟨hflow, hf.turn, hcov, rfl⟩
  · exact ⟨h, hf⟩

theorem Ok.createUOp (h : s.flow.Ok) (hf : FrameOk s.flow f) : (s.createUOp f).Ok := by
  refine ⟨h, ?_⟩
  have hnext := hf.next (f.toPass.note (s.deref f.rinst) f.j) rfl (f.j + 1)
  simp only [Reader.createUOp]
  split <;> exact hnext

/-- **One part of a call.** -/
theorem Ok.stepCall (h : s.Ok) {active : Bool} (hs : s.stepCall active = some s')
    (hspare : ∀ f, s.call = .next f → f.left < s.flow.queued) : s'.Ok := by
  have hcall := h.call
  cases stepCall_part hs with
  | between _ hc => exact ⟨h.flow, callOk_between hc⟩
  | start _ hfull => exact ⟨h.flow, start_covered h.flow hfull⟩
  | turn hc hi =>
    rw [hc] at hcall
    exact ⟨h.flow, hi, hcall, rfl⟩
  | finish _ _ => exact ⟨h.flow, trivial⟩
  | tests hc =>
    rw [hc] at hcall
    refine ⟨h.flow, ?_⟩
    simp only [Frame.afterTests]
    split
    · exact hcall
    · split
      · exact FrameOk.next hcall _ rfl _
      · split <;> exact hcall
  | wait hf hc => exact ⟨h.flow, (callOk_waiting hc).2 ((callOk_waiting hf).1 hcall)⟩
  | giveUp _ => exact ⟨h.flow, trivial⟩
  | merge hc =>
    rw [hc] at hcall
    exact Ok.merge h.flow hcall (hspare _ hc)
  | create hc =>
    rw [hc] at hcall
    exact Ok.createUOp h.flow hcall
  | @pop f hc =>
    rw [hc] at hcall
    obtain ⟨hflow, hq⟩ := popFIFO_ok h.flow (FrameOk.pos hcall)
    refine ⟨hflow, ?_⟩
    show 237 - (f.i + 1) ≤ s.popFIFO.flow.queued
    have := FrameOk.covered hcall
    unfold Pass.left at this
    omega
  | ret _ => exact ⟨h.flow, trivial⟩

/-- What `spare` says of the emulator. -/
theorem syscallFindsRoom_of_spare (h : s.spare .emulator = true) : Flow.SyscallFindsRoom s.flow .emulator := by
  intro _ r hr
  simpa [spare, hr] using h

/-- **One step**, of either thread. -/
theorem Ok.step (s : Reader) (a : Act) (s' : Reader) (hs : s.step a = some s') (hspare : s.spare a = true)
    (h : s.Ok) : s'.Ok := by
  have hemul : ∀ {b : Flow.Act} {fl : Flow}, s.flow.step b = some fl → b ≠ .pop →
      Flow.SyscallFindsRoom s.flow b → Ok { s with flow := fl } := by
    intro b fl hb hne hroom
    obtain ⟨hpop, hhead, hpush⟩ := Flow.step_emulator hb hne
    exact ⟨Flow.Ok.step hb (fun hp => absurd hp hne) hroom h.flow, h.call.emulator hpop hhead hpush⟩
  cases a with
  | queueInstruction r =>
    obtain ⟨fl, hb, rfl⟩ := Option.map_eq_some_iff.1 hs
    exact hemul hb nofun nofun
  | syscall num time =>
    obtain ⟨fl, hb, rfl⟩ := Option.map_eq_some_iff.1 hs
    exact hemul hb nofun nofun
  | emulator =>
    obtain ⟨fl, hb, rfl⟩ := Option.map_eq_some_iff.1 hs
    exact hemul hb nofun (syscallFindsRoom_of_spare hspare)
  | executeHead =>
    simp only [Reader.step, Option.ite_none_right_eq_some, Option.some.injEq] at hs
    obtain ⟨-, rfl⟩ := hs
    refine ⟨h.flow, ?_⟩
    simp only
    split <;> trivial
  | simulator active =>
    refine h.stepCall hs fun f hf => ?_
    simpa [spare, hf] using hspare
  | reexecuteTail =>
    simp only [Reader.step, Option.ite_none_right_eq_some, Option.some.injEq] at hs
    obtain ⟨-, rfl⟩ := hs
    exact ⟨h.flow, h.call⟩
  | syncHeadTail =>
    simp only [Reader.step, Option.ite_none_right_eq_some, Option.some.injEq] at hs
    obtain ⟨-, rfl⟩ := hs
    exact ⟨h.flow, h.call⟩

theorem Ok.touchesPublished {a : Act} (h : s.Ok) (hspare : s.spare a = true) : s.TouchesPublished a := by
  have hcall := h.call
  intro x hx
  cases a with
  | simulator active =>
    simp only [touches] at hx
    have hhead : ∀ {f}, FrameOk s.flow f →
        s.flow.pushed[s.flow.popped.length]? = some s.flow.tsfifo.getHeadRef :=
      fun hf => getHeadRef_published h.flow hf.pos
    have hderef : ∀ {f}, FrameOk s.flow f →
        s.flow.pushed[s.flow.popped.length]? = some (s.deref f.rinst) := by
      intro f hf
      rw [hhead hf, Reader.deref, hf.rinst]
      rfl
    cases hc : s.call with
    | loop p =>
      rw [hc] at hcall
      simp only [hc] at hx
      split at hx
      · rename_i hi
        obtain rfl := List.mem_singleton.1 hx
        have hq : 0 < s.flow.queued := lt_of_lt_of_le (Nat.sub_pos_of_lt hi) hcall
        exact getHeadRef_published h.flow hq
      · cases hx
    | uop f | create f =>
      rw [hc] at hcall
      simp only [hc] at hx
      obtain rfl := List.mem_singleton.1 hx
      exact hderef hcall
    | pop f =>
      rw [hc] at hcall
      simp only [hc] at hx
      obtain rfl := List.mem_singleton.1 hx
      exact hhead hcall
    | next f =>
      rw [hc] at hcall
      simp only [hc, List.mem_cons, List.not_mem_nil, or_false] at hx
      have hf : FrameOk s.flow f := hcall
      have hq : f.left < s.flow.queued := by simpa [spare, hc] using hspare
      have hturn : 0 < f.left := Nat.sub_pos_of_lt hf.turn
      -- the next element is read as well, and `spare` says that there is one
      rcases hx with rfl | rfl | rfl
      · exact hderef hf
      · exact hhead hf
      · exact getNextHeadRef_published h.flow (by omega)
    | _ => simp [hc] at hx
  | _ => simp [touches] at hx

end Steps

/-- **Only published elements are read.** If no system call pushes into a full FIFO, and a pass
looks for a merge only with more elements queued than it has turns left, then everything that a
call reads or pops was pushed, and not popped before. -/
theorem reads_published_along (array : UInt8 → RAWDInst) (as : List Act)
    (h : Along step (fun s a => s.spare a = true) (init array) as) :
    Along step TouchesPublished (init array) as :=
  h.of_inv Ok.step (fun _ _ hspare hok => hok.touchesPublished hspare) (ok_init array)

/-- A load of its own address, one of several that the emulator made of a load multiple. -/
def load : RAWDInst where
  insn := 1
  pc := 0x8000
  addr := 64
  data := 0
  keepStats := false
  operands := ⟨(16, 16, 16), 16, 16, (0, 0, 0), 0, 0, false, false, false, 0⟩
  predec := [⟨.iLALU_LD, 0, 0, 0, 0⟩]

/-- Calls of `queueInstruction` that do not have to wait. -/
def pushes (rs : List RAWDInst) : List Act :=
  rs.flatMap fun r => [.queueInstruction r, .emulator, .emulator, .emulator, .emulator]

/-- A call of `executeHead` that goes on for `n` parts, while the sampler is active. -/
def calls (n : ℕ) : List Act := .executeHead :: List.replicate n (.simulator true)

/-- Both threads at rest, with `rs` pushed into the slots from the first on. -/
def filled (array : UInt8 → RAWDInst) (rs : List RAWDInst) : Reader :=
  ⟨⟨⟨UInt8.ofNat rs.length, 0, fun i => rs[i.toNat]?.getD (array i)⟩, .idle, rs, [], false⟩, .init, .idle, [], [], false⟩

section Filled

variable (array : UInt8 → RAWDInst) {rs : List RAWDInst}

theorem filled_nil : filled array [] = init array := rfl

theorem toNat_length (h : rs.length < 255) : (UInt8.ofNat rs.length).toNat = rs.length :=
  UInt8.toNat_ofNat_of_lt' (Nat.lt_succ_of_lt h)

theorem filled_full (h : rs.length < 255) : (filled array rs).flow.tsfifo.full = false := by
  have hnext : (UInt8.ofNat rs.length + 1).toNat = rs.length + 1 := by
    rw [UInt8.toNat_add, toNat_length h]
    exact Nat.mod_eq_of_lt (Nat.succ_lt_succ h)
  simp [filled, full, ← UInt8.toNat_inj, hnext]

/-- The next element goes to the slot behind the last one. -/
theorem filled_set (h : rs.length < 255) (r : RAWDInst) :
    ((filled array rs).flow.tsfifo.setTailRef r).push = (filled array (rs ++ [r])).flow.tsfifo := by
  have harray : Function.update (fun i : UInt8 => rs[i.toNat]?.getD (array i)) (UInt8.ofNat rs.length) r =
      fun i => (rs ++ [r])[i.toNat]?.getD (array i) := by
    funext i
    simp only [Function.update_apply, ← UInt8.toNat_inj, toNat_length h]
    rcases Nat.lt_trichotomy i.toNat rs.length with hi | hi | hi
    · rw [if_neg hi.ne, List.getElem?_append_left hi]
    · rw [if_pos hi, hi, List.getElem?_concat_length]
      rfl
    · rw [if_neg hi.ne', List.getElem?_eq_none hi.le, List.getElem?_eq_none (by simp; omega)]
  simp only [filled, setTailRef, push, harray, List.length_append, List.length_singleton, ofNat_succ]

/-- A call of `queueInstruction` that does not have to wait. -/
theorem run_queueInstruction {s : Reader} (hidle : s.flow.caller = .idle) (hfull : s.flow.tsfifo.full = false)
    {r : RAWDInst} (hr : r.getNumInst ≠ 0) :
    run step s [.queueInstruction r, .emulator, .emulator, .emulator, .emulator] =
      some { s with flow := { s.flow with tsfifo := s.flow.tsfifo.setTailRef r }.publish r } := by
  obtain ⟨hfirst, hsecond⟩ := full_eq_false_iff.1 hfull
  simp [run, step, Flow.step, Flow.stepCaller, Flow.publish, hidle, hfirst, hsecond, hr]

theorem filled_publish (h : rs.length < 255) (r : RAWDInst) :
    { (filled array rs).flow with tsfifo := (filled array rs).flow.tsfifo.setTailRef r }.publish r =
      (filled array (rs ++ [r])).flow := by
  have hfull : ((filled array rs).flow.tsfifo.setTailRef r).full = false := filled_full array h
  simp only [Flow.publish, filled_set array h r, hfull]
  rfl

/-- **Calls that do not have to wait** fill the slots in order. -/
theorem run_pushes (qs : List RAWDInst) (hlen : rs.length + qs.length ≤ 255) (hqs : ∀ r ∈ qs, r.getNumInst ≠ 0) :
    run step (filled array rs) (pushes qs) = some (filled array (rs ++ qs)) := by
  induction qs generalizing rs with
  | nil => rw [List.append_nil]; rfl
  | cons r qs ih =>
    rw [List.length_cons] at hlen
    have hnext : run step (filled array (rs ++ [r])) (pushes qs) = some (filled array (rs ++ [r] ++ qs)) :=
      ih (by simp; omega) fun x hx => hqs x (List.mem_cons_of_mem _ hx)
    have hone := run_queueInstruction (s := filled array rs) rfl (filled_full array (by omega))
      (hqs r List.mem_cons_self)
    rw [filled_publish array (by omega)] at hone
    rw [List.append_assoc] at hnext
    rw [pushes, List.flatMap_cons, run_append, hone]
    exact hnext
end Filled

/-- A full FIFO, and a pass up to its first merge. -/
theorem reads_published_along_pass :
    Along step TouchesPublished (init fun _ => load) (pushes (.replicate 255 load) ++ calls 14) :=
  reads_published_along _ _ (by decide +kernel)

/-- **A pass reads past the tail.** With a full FIFO of loads of one PC and an emulator that does
not push meanwhile, each turn but the first pops two. After 128 of its 205 turns the FIFO is
empty, and the next turn reads and reports the slot at the tail. -/
theorem pass_reads_unpublished :
    ∃ s, run step (init fun _ => load) (pushes (.replicate 255 load) ++ calls 1198) = some s ∧
      s.flow.pushed.length = 255 ∧ s.flow.popped.length = 255 ∧ s.call = .loop ⟨160, false, 0x8000⟩ ∧
      ¬s.TouchesPublished (.simulator true) := by
  have hrun : ((run step (init fun _ => load) (pushes (.replicate 255 load) ++ calls 1198)).any fun s =>
      s.flow.pushed.length == 255 && s.flow.popped.length == 255 &&
        s.call == .loop ⟨160, false, 0x8000⟩) = true := by
    rw [run_append, ← filled_nil, run_pushes _ _ (by decide +kernel) (by decide +kernel)]
    decide +kernel
  obtain ⟨s, hs, h⟩ := (Option.any_eq_true _ _).1 hrun
  simp only [Bool.and_eq_true, beq_iff_eq] at h
  obtain ⟨⟨hpush, hpop⟩, hcall⟩ := h
  refine ⟨s, hs, hpush, hpop, hcall, fun hpub => ?_⟩
  have hread := hpub (255, s.flow.tsfifo.getHeadRef) (by simp [touches, hcall, hpop, size])
  rw [List.getElem?_eq_none (le_of_eq hpush)] at hread
  cases hread

end Reader

end Esesc.Emul
