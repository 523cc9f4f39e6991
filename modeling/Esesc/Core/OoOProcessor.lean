import Esesc.Core.OoO
import Esesc.Core.Pipeline
import Esesc.Emul.EmuDInstQueue

/-!
# The out-of-order processor, from fetch to retirement

`OoOProcessor` (`simu/libcore/OoOProcessor.cpp`) with the parts of `FetchEngine` and `GProcessor` that move
instructions: they come out of the trace queue of their flow, go through the fetch pipeline in
buckets, wait in `instQueue`, enter the ROB, pass to the rROB and leave it at retirement.

What the clusters, the branch predictor, the instruction cache and the clock do is an input of each
event: which instruction stalls fetch, what `canIssue` answers, how many instructions have executed and
are let through by `preretire` and `retire`. A bucket takes its instructions in the call of `fetch`: the
callbacks of `realfetch` are for cores with several processing elements.

* `Room`: the space accounting of `instQueue`, with what the buckets on the way hold.
* `Room.issue`: what issue takes out is what it gives back.
* `front_end_room`: the accounting and the size of the ROB, in every state.
-/

namespace Esesc.Core

open Esesc.Lib Esesc.Emul

/-- A `DInst` on its way: its place in the trace, which is all that `clone` keeps, and `isReplay`. -/
structure Traced where
  pos : ℕ
  replay : Bool
  deriving DecidableEq, Repr

/-- `DInst::clone`. -/
def Traced.cloner : Cloner Traced ℕ where
  clone d := ⟨d.pos, false⟩
  payload := Traced.pos
  payload_clone _ := rfl

/-- The section's integers. -/
structure ProcConfig where
  pipe : PipeConfig
  fetchWidth : ℕ
  issueWidth : ℕ
  retireWidth : ℕ
  instQueueSize : ℕ
  maxROBSize : ℕ

/-- `outstanding` are the buckets that wait for the instruction cache, `traced` counts the instructions
that the reader has put into the trace queue, and `committed` has the places of those that
`nCommitted` was incremented for, in order. -/
structure OoOProcessor where
  ruffer : EmuDInstQueue Traced
  traced : ℕ
  pipeLine : Pipeline Traced
  outstanding : List (IBucket Traced)
  instQueue : List (IBucket Traced)
  spaceInInstQueue : ℤ
  ROB : List Traced
  rROB : List Traced
  replayRecovering : Bool
  flushing : Bool
  committed : List ℕ

namespace OoOProcessor

def init (k : ProcConfig) : OoOProcessor where
  ruffer := .init
  traced := 0
  pipeLine := .init k.pipe
  outstanding := []
  instQueue := []
  spaceInInstQueue := k.instQueueSize
  ROB := []
  rROB := []
  replayRecovering := false
  flushing := false
  committed := []

variable (k : ProcConfig)

/-! ## Fetch -/

/-- `executeHead`, once the reader has done what it can. -/
def executeHead (q : EmuDInstQueue Traced) : Option (Traced × EmuDInstQueue Traced) :=
  if q.empty then none else q.getHead.map fun d => (d, q.popHead)

/-- The loop of `realfetch`, with `n2Fetched` to go. `stall` says which of its instructions is a branch that
stalls fetch. -/
def realfetch (stall : ℕ → Bool) : ℕ → EmuDInstQueue Traced → List Traced × EmuDInstQueue Traced
  | 0, q => ([], q)
  | n2Fetched + 1, q =>
    match executeHead q with
    | none => ([], q)
    | some (d, q) =>
      if stall n2Fetched then ([d], q)
      else ((d :: (realfetch stall n2Fetched q).1), (realfetch stall n2Fetched q).2)

/-- `fetch`, when the fetch engine is not blocked. -/
def fetch (stall : ℕ → Bool) (s : OoOProcessor) : OoOProcessor :=
  match s.pipeLine.newItem with
  | none => s
  | some (b, p) =>
    let r := realfetch stall k.fetchWidth s.ruffer
    { s with pipeLine := p, ruffer := r.2, outstanding := { b with insts := b.insts ++ r.1 } :: s.outstanding }

/-! ## Decode and issue -/

/-- The ID stage of `execute`. -/
def decode (now : ℕ) (s : OoOProcessor) : OoOProcessor :=
  if (k.fetchWidth : ℤ) ≤ s.spaceInInstQueue then
    match s.pipeLine.nextItem k.pipe now with
    | none => s
    | some (b, p) =>
      { s with
        pipeLine := p, spaceInInstQueue := s.spaceInInstQueue - b.insts.length, instQueue := s.instQueue ++ [b] }
  else s

/-- The tests of `addInst`; `sc` is what the test of `replayID` and the cluster answer. -/
def canAdd (s : OoOProcessor) (sc : StallCause) : StallCause :=
  if k.maxROBSize ≤ s.ROB.length + s.rROB.length then .SmallROBStall else sc

/-- `ROB.push(dinst)` and `bucket->pop()`, for the first bucket of `instQueue`: one that is empty then goes back
to the pipeline. -/
def takeTop (s : OoOProcessor) (b : IBucket Traced) (rest : List (IBucket Traced)) (d : Traced) (ds : List Traced) :
    OoOProcessor :=
  let s := { s with ROB := s.ROB ++ [d] }
  if ds = [] then { s with instQueue := rest, pipeLine := s.pipeLine.doneItem { b with insts := [] } }
  else { s with instQueue := { b with insts := ds } :: rest }

/-- The loops of `GProcessor::issue`, with room for `n` more instructions: the count and the state. -/
def issue (answer : ℕ → StallCause) : ℕ → OoOProcessor → ℕ × OoOProcessor
  | 0, s => (0, s)
  | n + 1, s =>
    match s.instQueue with
    | [] => (0, s)
    | b :: rest =>
      match b.insts with
      | [] => (0, s)
      | d :: ds =>
        if canAdd k s (answer n) ≠ .NoStall then (0, s)
        else ((issue answer n (s.takeTop b rest d ds)).1 + 1, (issue answer n (s.takeTop b rest d ds)).2)

/-! ## Retirement -/

/-- The first loop of `retire`: `n` instructions at the top of the ROB have executed and are let through. -/
def preretire (n : ℕ) (s : OoOProcessor) : OoOProcessor :=
  { s with ROB := s.ROB.drop n, rROB := s.rROB ++ s.ROB.take n }

/-- The body of the second loop, on the instruction at the top of the rROB: `destroy` advances the tail of the
trace queue. -/
def retireTop (s : OoOProcessor) : OoOProcessor :=
  match s.rROB with
  | [] => s
  | d :: rest =>
    let flushing := s.flushing || d.replay
    { s with
      flushing := flushing
      committed := if flushing then s.committed else s.committed ++ [d.pos]
      ruffer := s.ruffer.advanceTail.2
      rROB := rest }

/-- `retire`: `pre` instructions pass to the rROB, and at most `ret` retire. -/
def retire (pre ret : ℕ) (s : OoOProcessor) : OoOProcessor := retireTop^[min k.retireWidth ret] (s.preretire pre)

/-- The end of a recovery: `syncHeadTail`. -/
def recover (s : OoOProcessor) : OoOProcessor :=
  { s with ruffer := s.ruffer.moveHead2Tail Traced.cloner.clone, replayRecovering := false, flushing := false }

/-- `execute`, when the processor is active, busy and not throttled. -/
def execute (now : ℕ) (answer : ℕ → StallCause) (pre ret : ℕ) (s : OoOProcessor) : OoOProcessor :=
  let s := s.decode k now
  if s.replayRecovering = true ∧ ¬(s.rROB = [] ∧ s.ROB = []) then s.retire k pre ret
  else
    let s := if s.replayRecovering then s.recover else s
    if s.instQueue ≠ [] then
      let r := issue k answer k.issueWidth s
      { r.2 with spaceInInstQueue := r.2.spaceInInstQueue + r.1 }.retire k pre ret
    else if s.ROB = [] ∧ s.rROB = [] then s
    else s.retire k pre ret

/-- `replay`, when it is not turned away, on the `i`-th instruction of the ROB. -/
def replay (i : ℕ) (s : OoOProcessor) : OoOProcessor :=
  { s with ROB := s.ROB.modify i fun d => { d with replay := true }, replayRecovering := true }

/-! ## Runs -/

inductive Event where
  /-- The reader cracks the next instruction of the flow into the trace queue. -/
  | add
  | fetch (stall : ℕ → Bool)
  /-- The instruction cache has answered. -/
  | ready (b : IBucket Traced) (now : ℕ)
  | replay (i : ℕ)
  | execute (now : ℕ) (answer : ℕ → StallCause) (pre ret : ℕ)

def step (s : OoOProcessor) : Event → Option OoOProcessor
  | .add =>
    if s.ruffer.Allowed (.add ⟨s.traced, false⟩) then
      some { s with ruffer := s.ruffer.add ⟨s.traced, false⟩, traced := s.traced + 1 }
    else none
  | .fetch stall => some (s.fetch k stall)
  | .ready b now =>
    if b ∈ s.outstanding then
      some { s with pipeLine := s.pipeLine.readyItem now b, outstanding := s.outstanding.erase b }
    else none
  | .replay i => if i < s.ROB.length then some (s.replay i) else none
  | .execute now answer pre ret => some (s.execute k now answer pre ret)

/-! ## Buckets on the way -/

/-- The buckets in the pool are empty, those that are ready hold no more than `w` instructions, and those
that wait for decode hold some. -/
structure Buckets (w : ℕ) (p : Pipeline Traced) : Prop where
  pool : ∀ b ∈ p.bucketPool, b.insts = []
  received : ∀ b ∈ p.received, b.insts.length ≤ w
  buffer : ∀ b ∈ p.buffer, b.insts ≠ [] ∧ b.insts.length ≤ w

variable {k} {s s' : OoOProcessor} {p : Pipeline Traced} {b : IBucket Traced} {w : ℕ}

theorem buckets_init (cfg : PipeConfig) : Buckets w (.init cfg) := by
  refine ⟨?_, nofun, nofun⟩
  intro b hb
  simp only [Pipeline.init, List.mem_reverse, List.mem_map] at hb
  obtain ⟨n, -, rfl⟩ := hb
  rfl

theorem Buckets.doneItem (h : Buckets w p) (hb : b.insts = []) : Buckets w (p.doneItem b) := by
  refine ⟨?_, h.received, h.buffer⟩
  intro x hx
  rcases List.mem_cons.1 hx with rfl | hx
  · exact hb
  · exact h.pool x hx

theorem Buckets.release (h : Buckets w p) (hb : b.insts.length ≤ w) : Buckets w (p.release b) := by
  unfold Pipeline.release
  dsimp only
  split
  · rename_i hempty
    have hm : Buckets w { p with minItemCntr := p.minItemCntr + 1 } := ⟨h.pool, h.received, h.buffer⟩
    exact hm.doneItem (List.isEmpty_iff.1 hempty)
  · rename_i hempty
    refine ⟨h.pool, h.received, ?_⟩
    intro x hx
    rcases List.mem_append.1 hx with hx | hx
    · exact h.buffer x hx
    · rw [List.mem_singleton.1 hx]
      exact ⟨fun e => hempty (List.isEmpty_iff.2 e), hb⟩

theorem Buckets.clearLoop (l : List (IBucket Traced)) (h : Buckets w p) (hl : ∀ b ∈ l, b.insts.length ≤ w) :
    Buckets w (p.clearLoop l) := by
  induction l generalizing p with
  | nil => exact h
  | cons b rest ih =>
    unfold Pipeline.clearLoop
    split
    · have hrest : ∀ x ∈ rest, x.insts.length ≤ w := fun x hx => hl x (List.mem_cons_of_mem b hx)
      have hr : Buckets w { p with received := rest } := ⟨h.pool, hrest, h.buffer⟩
      exact ih (hr.release (hl b List.mem_cons_self)) hrest
    · exact h

theorem Buckets.readyItem {now : ℕ} (h : Buckets w p) (hb : b.insts.length ≤ w) : Buckets w (p.readyItem now b) := by
  unfold Pipeline.readyItem
  dsimp only
  split
  · refine ⟨h.pool, ?_, h.buffer⟩
    intro x hx
    rcases Pipeline.mem_pushReceived.1 hx with rfl | hx
    · exact hb
    · exact h.received x hx
  · have hm : Buckets w { p with nIRequests := p.nIRequests + 1 } := ⟨h.pool, h.received, h.buffer⟩
    have hr : Buckets w ({ p with nIRequests := p.nIRequests + 1 }.release { b with clock := now }) := hm.release hb
    exact hr.clearLoop _ hr.received

theorem length_realfetch (stall : ℕ → Bool) (n : ℕ) (q : EmuDInstQueue Traced) :
    (realfetch stall n q).1.length ≤ n := by
  induction n generalizing q with
  | zero => exact Nat.le_refl 0
  | succ n ih =>
    unfold realfetch
    split
    · simp
    · split
      · simp
      · rename_i d q' _ _
        exact Nat.succ_le_succ (ih q')

/-! ## Space -/

/-- The instructions in the buckets of `instQueue`. -/
def queued (s : OoOProcessor) : ℕ := (s.instQueue.map fun b => b.insts.length).sum

/-- The accounting, while `c` instructions are issued and not given back yet. -/
structure Room (k : ProcConfig) (c : ℕ) (s : OoOProcessor) : Prop where
  space : s.spaceInInstQueue + s.queued + c = k.instQueueSize
  nonneg : 0 ≤ s.spaceInInstQueue
  rob : s.ROB.length + s.rROB.length ≤ k.maxROBSize
  buckets : Buckets k.fetchWidth s.pipeLine
  fetched : ∀ b ∈ s.outstanding, b.insts.length ≤ k.fetchWidth
  held : ∀ b ∈ s.instQueue, b.insts ≠ []

theorem room_init (k : ProcConfig) : Room k 0 (init k) :=
  ⟨by simp [init, queued], by simp [init], by simp [init], buckets_init k.pipe, nofun, nofun⟩

theorem Room.fetch (h : Room k 0 s) (stall : ℕ → Bool) : Room k 0 (s.fetch k stall) := by
  unfold OoOProcessor.fetch
  split
  · exact h
  · rename_i b p hnew
    unfold Pipeline.newItem at hnew
    split at hnew
    · cases hnew
    split at hnew
    · cases hnew
    rename_i b₀ pool hpool
    obtain ⟨rfl, rfl⟩ : { b₀ with pipeId := s.pipeLine.maxItemCntr } = b ∧ _ = p := by
      simpa only [Option.some.injEq, Prod.mk.injEq] using hnew
    have hb₀ : b₀.insts = [] := h.buckets.pool b₀ (by rw [hpool]; exact List.mem_cons_self)
    refine ⟨h.space, h.nonneg, h.rob, ⟨?_, h.buckets.received, h.buckets.buffer⟩, ?_, h.held⟩
    · exact fun x hx => h.buckets.pool x (by rw [hpool]; exact List.mem_cons_of_mem _ hx)
    · intro x hx
      rcases List.mem_cons.1 hx with rfl | hx
      · rw [hb₀, List.nil_append]
        exact length_realfetch stall _ _
      · exact h.fetched x hx

theorem Room.decode (h : Room k 0 s) (now : ℕ) : Room k 0 (s.decode k now) := by
  unfold OoOProcessor.decode
  split
  · rename_i hspace
    split
    · exact h
    · rename_i b p hnext
      unfold Pipeline.nextItem at hnext
      split at hnext
      · cases hnext
      split at hnext
      · cases hnext
      rename_i b₀ rest hbuf _
      obtain ⟨rfl, rfl⟩ : b₀ = b ∧ _ = p := by simpa only [Option.some.injEq, Prod.mk.injEq] using hnext
      obtain ⟨hne, hlen⟩ := h.buckets.buffer b₀ (by rw [hbuf]; exact List.mem_cons_self)
      have hsp := h.space
      refine ⟨?_, ?_, h.rob, ⟨h.buckets.pool, h.buckets.received, ?_⟩, h.fetched, ?_⟩
      · simp only [queued, List.map_append, List.sum_append, List.map_cons, List.map_nil, List.sum_cons, List.sum_nil]
        unfold queued at hsp
        push_cast at hsp ⊢
        omega
      · show 0 ≤ s.spaceInInstQueue - _
        omega
      · exact fun x hx => h.buckets.buffer x (by rw [hbuf]; exact List.mem_cons_of_mem _ hx)
      · intro x hx
        rcases List.mem_append.1 hx with hx | hx
        · exact h.held x hx
        · rw [List.mem_singleton.1 hx]
          exact hne
  · exact h

/-- A turn of the loops of `issue`: they stop, or the first instruction of the first bucket goes to the ROB. -/
theorem issue_succ (k : ProcConfig) (answer : ℕ → StallCause) (n : ℕ) (s : OoOProcessor) :
    issue k answer (n + 1) s = (0, s) ∨
    ∃ b rest d ds, s.instQueue = b :: rest ∧ b.insts = d :: ds ∧ s.ROB.length + s.rROB.length < k.maxROBSize ∧
      issue k answer (n + 1) s =
        ((issue k answer n (s.takeTop b rest d ds)).1 + 1, (issue k answer n (s.takeTop b rest d ds)).2) := by
  cases hq : s.instQueue with
  | nil => exact .inl (by simp only [issue, hq])
  | cons b rest =>
    cases hb : b.insts with
    | nil => exact .inl (by simp only [issue, hq, hb])
    | cons d ds =>
      by_cases hadd : canAdd k s (answer n) = .NoStall
      · have hrob : s.ROB.length + s.rROB.length < k.maxROBSize := by
          by_contra hfull
          simp [canAdd, Nat.le_of_not_lt hfull] at hadd
        exact .inr ⟨b, rest, d, ds, rfl, hb, hrob, by simp only [issue, hq, hb, hadd, ne_eq, not_true, if_false]⟩
      · exact .inl (by simp only [issue, hq, hb, hadd, ne_eq, not_false_iff, if_true])

theorem Room.takeTop {c : ℕ} {rest : List (IBucket Traced)} {d : Traced} {ds : List Traced} (h : Room k c s)
    (hq : s.instQueue = b :: rest) (hb : b.insts = d :: ds) (hrob : s.ROB.length + s.rROB.length < k.maxROBSize) :
    Room k (c + 1) (s.takeTop b rest d ds) := by
  have hsp := h.space
  have hroom : (s.ROB ++ [d]).length + s.rROB.length ≤ k.maxROBSize := by
    rw [List.length_append, List.length_singleton]
    omega
  have hheld : ∀ x ∈ rest, x.insts ≠ [] := fun x hx => h.held x (by rw [hq]; exact List.mem_cons_of_mem _ hx)
  unfold OoOProcessor.takeTop
  dsimp only
  split
  · rename_i hds
    refine ⟨?_, h.nonneg, hroom, h.buckets.doneItem rfl, h.fetched, hheld⟩
    simp only [queued, hq, List.map_cons, List.sum_cons, hb, hds, List.length_singleton] at hsp ⊢
    push_cast at hsp ⊢
    omega
  · rename_i hds
    refine ⟨?_, h.nonneg, hroom, h.buckets, h.fetched, ?_⟩
    · simp only [queued, hq, List.map_cons, List.sum_cons, hb, List.length_cons] at hsp ⊢
      push_cast at hsp ⊢
      omega
    · intro x hx
      rcases List.mem_cons.1 hx with rfl | hx
      · exact hds
      · exact hheld x hx

/-- **Issue** counts what it takes out. -/
theorem Room.issue {c : ℕ} (h : Room k c s) (answer : ℕ → StallCause) (n : ℕ) :
    Room k (c + (OoOProcessor.issue k answer n s).1) (OoOProcessor.issue k answer n s).2 := by
  induction n generalizing s c with
  | zero => exact h
  | succ n ih =>
    rcases issue_succ k answer n s with heq | ⟨b, rest, d, ds, hq, hb, hrob, heq⟩
    · rw [heq]
      exact h
    · rw [heq]
      have hrest := ih (h.takeTop hq hb hrob)
      rwa [Nat.add_right_comm, Nat.add_assoc] at hrest

theorem Room.giveBack {c : ℕ} (h : Room k c s) : Room k 0 { s with spaceInInstQueue := s.spaceInInstQueue + c } := by
  have hsp := h.space
  have hnn := h.nonneg
  refine ⟨?_, by dsimp only; omega, h.rob, h.buckets, h.fetched, h.held⟩
  show s.spaceInInstQueue + c + s.queued + (0 : ℕ) = _
  push_cast
  omega

theorem Room.retireTop (h : Room k 0 s) : Room k 0 s.retireTop := by
  unfold OoOProcessor.retireTop
  split
  · exact h
  · rename_i d rest hr
    have hrob := h.rob
    rw [hr, List.length_cons] at hrob
    exact ⟨h.space, h.nonneg, by dsimp only; omega, h.buckets, h.fetched, h.held⟩

theorem Room.retire (h : Room k 0 s) (pre ret : ℕ) : Room k 0 (s.retire k pre ret) := by
  have hpre : Room k 0 (s.preretire pre) := by
    have hrob := h.rob
    refine ⟨h.space, h.nonneg, ?_, h.buckets, h.fetched, h.held⟩
    simp only [preretire, List.length_drop, List.length_append, List.length_take]
    omega
  unfold OoOProcessor.retire
  generalize s.preretire pre = t at hpre
  induction min k.retireWidth ret generalizing t with
  | zero => exact hpre
  | succ n ih => exact ih t.retireTop hpre.retireTop

theorem Room.execute (h : Room k 0 s) (now : ℕ) (answer : ℕ → StallCause) (pre ret : ℕ) :
    Room k 0 (s.execute k now answer pre ret) := by
  have hdec := h.decode now
  unfold OoOProcessor.execute
  generalize s.decode k now = t at hdec
  dsimp only
  split
  · exact hdec.retire pre ret
  · have hrec : Room k 0 (if t.replayRecovering then t.recover else t) := by
      split
      · exact ⟨hdec.space, hdec.nonneg, hdec.rob, hdec.buckets, hdec.fetched, hdec.held⟩
      · exact hdec
    generalize (if t.replayRecovering then t.recover else t) = u at hrec
    split
    · have hiss := hrec.issue answer k.issueWidth
      rw [Nat.zero_add] at hiss
      exact hiss.giveBack.retire pre ret
    split
    · exact hrec
    · exact hrec.retire pre ret

theorem Room.step {e : Event} (hs : step k s e = some s') (h : Room k 0 s) : Room k 0 s' := by
  cases e <;> simp only [OoOProcessor.step, Option.ite_none_right_eq_some, Option.some.injEq] at hs
  case add =>
    obtain ⟨-, rfl⟩ := hs
    exact ⟨h.space, h.nonneg, h.rob, h.buckets, h.fetched, h.held⟩
  case fetch stall =>
    subst hs
    exact h.fetch stall
  case ready b now =>
    obtain ⟨hb, rfl⟩ := hs
    refine ⟨h.space, h.nonneg, h.rob, h.buckets.readyItem (h.fetched b hb), ?_, h.held⟩
    exact fun x hx => h.fetched x (List.mem_of_mem_erase hx)
  case replay i =>
    obtain ⟨-, rfl⟩ := hs
    refine ⟨h.space, h.nonneg, ?_, h.buckets, h.fetched, h.held⟩
    simpa [OoOProcessor.replay] using h.rob
  case execute now answer pre ret =>
    subst hs
    exact h.execute now answer pre ret

/-- **The front end keeps its accounts.** In every state of every run: the space and the instructions in the
buckets of `instQueue` make `InstQueueSize`, the space is not negative, none of these buckets is
empty, and the ROB and the rROB hold no more than `MaxROBSize` instructions. -/
theorem front_end_room (k : ProcConfig) (es : List Event) {s : OoOProcessor}
    (h : run (step k) (init k) es = some s) :
    s.spaceInInstQueue + s.queued = k.instQueueSize ∧ 0 ≤ s.spaceInInstQueue ∧
      (∀ b ∈ s.instQueue, b.insts ≠ []) ∧ s.ROB.length + s.rROB.length ≤ k.maxROBSize := by
  have hroom : Room k 0 s := run_inv (fun _ _ _ hs hI => hI.step hs) h (room_init k)
  exact ⟨by simpa using hroom.space, hroom.nonneg, hroom.held, hroom.rob⟩

/-- Two instructions are fetched and one is issued in a cycle. -/
def smallCore : ProcConfig where
  pipe := ⟨1, 2⟩
  fetchWidth := 2
  issueWidth := 1
  retireWidth := 2
  instQueueSize := 4
  maxROBSize := 2

/-- Two instructions go to `instQueue`, and one of them to the ROB. -/
def oneIssued : List Event :=
  [.add, .add, .fetch fun _ => false, .ready ⟨3, 0, 0, [⟨0, false⟩, ⟨1, false⟩]⟩ 0, .execute 1 (fun _ => .NoStall) 0 0]

theorem front_end_room_oneIssued :
    ∃ s, run (step smallCore) (init smallCore) oneIssued = some s ∧ s.ROB = [⟨0, false⟩] ∧ s.queued = 1 ∧
      s.spaceInInstQueue + s.queued = 4 := by
  have hend : (run (step smallCore) (init smallCore) oneIssued).any
      (fun s => s.ROB == [⟨0, false⟩] && s.queued == 1) = true := by
    decide +kernel
  obtain ⟨s, hrun, hs⟩ := (Option.any_eq_true _ _).1 hend
  rw [Bool.and_eq_true, beq_iff_eq, beq_iff_eq] at hs
  exact ⟨s, hrun, hs.1, hs.2, (front_end_room smallCore oneIssued hrun).1⟩

end OoOProcessor

end Esesc.Core
