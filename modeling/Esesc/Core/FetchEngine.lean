import Mathlib.Data.List.Perm.Basic
import Mathlib.Data.List.Range
import Esesc.Suc.CallbackContainer
import Esesc.Core.BPred

/-!
# `FetchEngine`

`fetch` fills a bucket with instructions of the emulator. An instruction of a processing element
(PE) whose fetch is blocked by a branch is parked with its bucket, as a callback of the PE; when
the branch unblocks the PE, the callbacks parked so far run, and a branch among them may block the
PE again and send the others to the end of the list.

An instruction is its number in the stream, in the order in which `executeHead` gives them, and a
bucket the number of the call of `fetch` that gets it. Which delay or unit unblocks a branch is
part of the log; when that happens is up to the run.

* `Inv`: what holds at every point inside `fetch` and an unblock, for the parked callbacks `G`.
* `Idle.fetch`, `Idle.unblock`: both keep what holds between them.
* `Idle.drains`: unblocks alone lead to a state with nothing parked.
* `fetch_delivers`: every instruction once, in order, not past a branch that blocks its PE.
-/

namespace Esesc.Core

open Esesc.Lib Esesc.Suc Esesc.Suc.CallbackContainer
open scoped List

/-- What is asked of an instruction, and what `bpred->predict` answers for it. -/
structure FetchInst where
  pe : ℕ
  isControl : Bool
  isTaken : Bool
  doesJump2Label : Bool
  prediction : PredType
  deriving DecidableEq

/-- The members that the constructor reads, with the range it requires of `fetchWidth`, and the
instruction stream. -/
structure FetchConfig where
  FetchWidth : ℕ
  BB4Cycle : ℕ
  bpredDelay : ℕ
  BTACDelay : ℕ
  IL1HitDelay : ℕ
  enableICache : Bool
  inst : ℕ → FetchInst
  between : 1 ≤ FetchWidth ∧ FetchWidth ≤ 1024

/-- The arguments of a parked `realfetch`. -/
structure RealfetchCB where
  bucket : ℕ
  oldinst : ℕ
  n2Fetched : ℕ
  deriving DecidableEq

/-- What will unblock a branch: a callback scheduled with a delay, or its execution. -/
inductive Wake
  | schedule (delay : ℕ)
  | lockFetch
  deriving DecidableEq

/-- How `markFetchedCB` is triggered: by the cache when it has read the line of the first
instruction, or after a delay. -/
inductive Notice
  | createRead (top : ℕ)
  | schedule (delay : ℕ)
  deriving DecidableEq

/-- What the engine does to the world outside. -/
inductive FetchAct
  | push (bucket dinst : ℕ)
  | block (dinst : ℕ) (w : Wake)
  | unblock (dinst : ℕ)
  | mark (bucket : ℕ) (n : Notice)
  deriving DecidableEq

namespace FetchAct

def pushed : FetchAct → Option ℕ
  | .push _ d => some d
  | _ => none

def pushedTo (b : ℕ) : FetchAct → Option ℕ
  | .push b' d => if b' = b then some d else none
  | _ => none

def marked : FetchAct → Option ℕ
  | .mark b _ => some b
  | _ => none

end FetchAct

/-- The instructions pushed, into any bucket. -/
def pushed (log : List FetchAct) : List ℕ := log.filterMap FetchAct.pushed

/-- What is in a bucket. -/
def pushedTo (b : ℕ) (log : List FetchAct) : List ℕ := log.filterMap (FetchAct.pushedTo b)

/-- The buckets whose notification was triggered. -/
def marked (log : List FetchAct) : List ℕ := log.filterMap FetchAct.marked

/-- The members that change. `taken` counts the instructions `executeHead` has given, `passed` the
calls of `fetch`. -/
structure FetchEngine where
  missInst : ℕ → Bool
  lastd : ℕ → Option ℕ
  cbPending : ℕ → CallbackContainer RealfetchCB
  maxBB : ℕ
  taken : ℕ
  passed : ℕ
  log : List FetchAct

namespace FetchEngine

variable (cfg : FetchConfig)

def init : FetchEngine where
  missInst _ := false
  lastd _ := none
  cbPending _ := .init
  maxBB := 0
  taken := 0
  passed := 0
  log := []

def act (e : FetchEngine) (a : FetchAct) : FetchEngine := { e with log := e.log ++ [a] }

def setMissInst (e : FetchEngine) (d : ℕ) : FetchEngine :=
  { e with
    missInst := Function.update e.missInst (cfg.inst d).pe true
    lastd := Function.update e.lastd (cfg.inst d).pe (some d) }

/-- `maxBB--` on a `uint16_t`. -/
def decMaxBB (e : FetchEngine) : FetchEngine := { e with maxBB := (e.maxBB + 65535) % 65536 }

/-- The answer is whether the fetch stalls. -/
def processBranch (e : FetchEngine) (d : ℕ) : Bool × FetchEngine :=
  if (cfg.inst d).prediction = .CorrectPrediction then
    if (cfg.inst d).isTaken then
      let e := if cfg.bpredDelay > 1 then (e.setMissInst cfg d).act (.block d (.schedule (cfg.bpredDelay - 1))) else e
      if e.maxBB ≤ 1 ∧ e.missInst (cfg.inst d).pe = false then (true, e)
      else (decide (cfg.bpredDelay > 1), e.decMaxBB)
    else (false, e)
  else if cfg.BTACDelay ≠ 0 ∧ (cfg.inst d).prediction = .NoBTBPrediction ∧ (cfg.inst d).doesJump2Label then
    (true, (e.setMissInst cfg d).act (.block d (.schedule cfg.BTACDelay)))
  else (true, (e.setMissInst cfg d).act (.block d .lockFetch))

/-- `cbPending[dinst->getPE()].add(realfetchCB::create(..))`. -/
def park (e : FetchEngine) (c : RealfetchCB) : FetchEngine :=
  let p := (cfg.inst c.oldinst).pe
  { e with cbPending := Function.update e.cbPending p ((e.cbPending p).add c) }

/-- The end of `realfetch`. -/
def notify (e : FetchEngine) (b : ℕ) : FetchEngine :=
  match (pushedTo b e.log).head? with
  | some top => e.act (.mark b (if cfg.enableICache then .createRead top else .schedule cfg.IL1HitDelay))
  | none => e.act (.mark b (.schedule cfg.IL1HitDelay))

/-- `realfetch` for an instruction that was parked. -/
def resume (e : FetchEngine) (c : RealfetchCB) : FetchEngine :=
  if e.missInst (cfg.inst c.oldinst).pe then
    if e.lastd (cfg.inst c.oldinst).pe ≠ some c.oldinst then e.park cfg c else e
  else
    let e := if (cfg.inst c.oldinst).isControl then (e.processBranch cfg c.oldinst).2 else e
    (e.act (.push c.bucket c.oldinst)).notify cfg c.bucket

/-- The loop of `realfetch` for new instructions, while `executeHead` has `avail` more of them.
The answer is whether `realfetch` returned with one parked. -/
def fetchLoop (b : ℕ) : ℕ → ℕ → FetchEngine → Bool × FetchEngine
  | 0, _, e => (false, e)
  | avail + 1, n2Fetched, e =>
    let d := e.taken
    let e := { e with taken := d + 1 }
    if e.missInst (cfg.inst d).pe then (true, e.park cfg ⟨b, d, n2Fetched⟩)
    else
      let e := e.act (.push b d)
      let r := if (cfg.inst d).isControl then e.processBranch cfg d else (false, e)
      if r.1 = true ∨ n2Fetched - 1 = 0 then (false, r.2) else fetchLoop b avail (n2Fetched - 1) r.2

/-- `maxBB = BB4Cycle` with `USHRT_MAX` for no limit, then `realfetch` with a new bucket. -/
def fetch (e : FetchEngine) (avail : ℕ) : FetchEngine :=
  let b := e.passed
  let r := fetchLoop cfg b avail cfg.FetchWidth
    { e with maxBB := if cfg.BB4Cycle = 0 then 65535 else cfg.BB4Cycle, passed := b + 1 }
  if r.1 then r.2 else r.2.notify cfg b

/-- A round of the loop of `mycall`. -/
def round (p : ℕ) (c : RealfetchCB) (e : FetchEngine) : FetchEngine :=
  let e := { e with cbPending := Function.update e.cbPending p ((e.cbPending p).unlink c) }
  let e := e.resume cfg c
  { e with cbPending := Function.update e.cbPending p { e.cbPending p with size := (e.cbPending p).size - 1 } }

/-- The loop of `mycall` from its test on, `while (first && (mysize > 0))`. -/
def rounds (p : ℕ) : ℕ → FetchEngine → FetchEngine
  | 0, e => e
  | mysize + 1, e =>
    match (e.cbPending p).first with
    | none => e
    | some c => rounds p mysize (e.round cfg p c)

def mycall (p : ℕ) (e : FetchEngine) : FetchEngine :=
  match (e.cbPending p).first with
  | none => e
  | some c => rounds cfg p ((e.cbPending p).size - 1) (e.round cfg p c)

def clearMissInst (e : FetchEngine) (d : ℕ) : FetchEngine :=
  mycall cfg (cfg.inst d).pe { e with missInst := Function.update e.missInst (cfg.inst d).pe false }

/-- A fetch while `executeHead` has so many instructions, or the unblock event of a branch. -/
inductive Event
  | fetch (avail : ℕ)
  | unblock (dinst : ℕ)
  deriving DecidableEq

/-- One event. A branch that blocks its PE has one unblock event to come. -/
def step (e : FetchEngine) : Event → Option FetchEngine
  | .fetch avail => some (e.fetch cfg avail)
  | .unblock d =>
    if e.missInst (cfg.inst d).pe = true ∧ e.lastd (cfg.inst d).pe = some d then
      some ((e.act (.unblock d)).clearMissInst cfg d)
    else none

/-! ## The log -/

/-- The branch that each PE waits for, read off the log. A PE that waits gets no instruction but
the branch itself, and is not blocked by another one. -/
def watch (waits : ℕ → Option ℕ) : FetchAct → Option (ℕ → Option ℕ)
  | .push _ d => if waits (cfg.inst d).pe = none ∨ waits (cfg.inst d).pe = some d then some waits else none
  | .block d _ => if waits (cfg.inst d).pe = none then some (Function.update waits (cfg.inst d).pe (some d)) else none
  | .unblock d => if waits (cfg.inst d).pe = some d then some (Function.update waits (cfg.inst d).pe none) else none
  | .mark _ _ => some waits

variable {cfg}

/-- **Until it is unblocked**, a PE waits for the branch that blocked it. -/
theorem watch_waits {w w' : ℕ → Option ℕ} {log : List FetchAct} {d : ℕ} (h : run (watch cfg) w log = some w')
    (hw : w (cfg.inst d).pe = some d) (hd : FetchAct.unblock d ∉ log) : w' (cfg.inst d).pe = some d := by
  induction log generalizing w with
  | nil =>
    obtain rfl : w = w' := by simpa only [run, Option.some.injEq] using h
    exact hw
  | cons a log ih =>
    obtain ⟨u, hu, h⟩ := run_cons.1 h
    refine ih h ?_ fun hmem => hd (List.mem_cons_of_mem a hmem)
    cases a with
    | push b x =>
      simp only [watch] at hu
      split at hu
      · exact Option.some.inj hu ▸ hw
      · cases hu
    | block x w =>
      simp only [watch] at hu
      split at hu
      · rename_i hnone
        have hne : (cfg.inst d).pe ≠ (cfg.inst x).pe := fun e => by simp [← e, hw] at hnone
        rw [← Option.some.inj hu, Function.update_of_ne hne]
        exact hw
      · cases hu
    | unblock x =>
      simp only [watch] at hu
      split at hu
      · rename_i hsome
        have hne : (cfg.inst d).pe ≠ (cfg.inst x).pe := by
          intro e
          rw [← e, hw] at hsome
          exact hd (Option.some.inj hsome ▸ List.mem_cons_self)
        rw [← Option.some.inj hu, Function.update_of_ne hne]
        exact hw
      · cases hu
    | mark b n => exact Option.some.inj hu ▸ hw

section Log

variable {log : List FetchAct} {b b' d x : ℕ} {w : Wake} {n : Notice}

@[simp] theorem pushed_push : pushed (log ++ [.push b d]) = pushed log ++ [d] := by
  simp [pushed, FetchAct.pushed]

@[simp] theorem pushed_block : pushed (log ++ [.block d w]) = pushed log := by
  simp [pushed, FetchAct.pushed]

@[simp] theorem pushed_unblock : pushed (log ++ [.unblock d]) = pushed log := by
  simp [pushed, FetchAct.pushed]

@[simp] theorem pushed_mark : pushed (log ++ [.mark b n]) = pushed log := by
  simp [pushed, FetchAct.pushed]

@[simp] theorem pushedTo_push :
    pushedTo b' (log ++ [.push b d]) = if b = b' then pushedTo b' log ++ [d] else pushedTo b' log := by
  by_cases h : b = b' <;> simp [pushedTo, FetchAct.pushedTo, h]

@[simp] theorem pushedTo_block : pushedTo b' (log ++ [.block d w]) = pushedTo b' log := by
  simp [pushedTo, FetchAct.pushedTo]

@[simp] theorem pushedTo_unblock : pushedTo b' (log ++ [.unblock d]) = pushedTo b' log := by
  simp [pushedTo, FetchAct.pushedTo]

@[simp] theorem pushedTo_mark : pushedTo b' (log ++ [.mark b n]) = pushedTo b' log := by
  simp [pushedTo, FetchAct.pushedTo]

@[simp] theorem marked_push : marked (log ++ [.push b d]) = marked log := by
  simp [marked, FetchAct.marked]

@[simp] theorem marked_block : marked (log ++ [.block d w]) = marked log := by
  simp [marked, FetchAct.marked]

@[simp] theorem marked_unblock : marked (log ++ [.unblock d]) = marked log := by
  simp [marked, FetchAct.marked]

@[simp] theorem marked_mark : marked (log ++ [.mark b n]) = marked log ++ [b] := by
  simp [marked, FetchAct.marked]

end Log

/-! ## The invariant -/

/-- The instructions of a PE, among some. -/
def ofPE (cfg : FetchConfig) (p : ℕ) (l : List ℕ) : List ℕ := l.filter fun d => (cfg.inst d).pe = p

/-- What `e.missInst` and `e.lastd` say that the PEs wait for. -/
def waits (e : FetchEngine) (p : ℕ) : Option ℕ := if e.missInst p then e.lastd p else none

/-- **What holds at every point.** `G` are the parked callbacks, in the order of the stream; an
instruction `hand` was taken but neither pushed nor parked, and a bucket `opened` was passed but
neither marked nor parked. -/
structure Inv (cfg : FetchConfig) (e : FetchEngine) (G : List RealfetchCB) (hand opened : List ℕ) : Prop where
  watched : run (watch cfg) (fun _ => none) e.log = some e.waits
  last : ∀ p, e.missInst p = true →
    ∃ d, e.lastd p = some d ∧ (cfg.inst d).pe = p ∧ d < e.taken ∧ d ∉ G.map RealfetchCB.oldinst
  order : ∀ p, ofPE cfg p (pushed e.log ++ hand ++ G.map RealfetchCB.oldinst) = ofPE cfg p (List.range e.taken)
  marks : ∀ b, (marked e.log).count b + opened.count b + (G.map RealfetchCB.bucket).count b =
    if b < e.passed then 1 else 0
  width : ∀ b, (pushedTo b e.log).length ≤ cfg.FetchWidth
  fresh : ∀ b, e.passed ≤ b → pushedTo b e.log = []
  room : ∀ c ∈ G, (pushedTo c.bucket e.log).length + c.n2Fetched = cfg.FetchWidth ∧ 1 ≤ c.n2Fetched

variable {e : FetchEngine} {G : List RealfetchCB} {hand opened : List ℕ} {b d n p : ℕ} {c : RealfetchCB}

theorem Inv.init : Inv cfg FetchEngine.init [] [] [] where
  watched := rfl
  last p hp := by cases hp
  order p := rfl
  marks b := by simp [FetchEngine.init, marked]
  width b := Nat.zero_le _
  fresh b _ := rfl
  room c hc := by cases hc

/-- The containers and `maxBB` are not part of it. -/
theorem Inv.congr (h : Inv cfg e G hand opened) (cbs : ℕ → CallbackContainer RealfetchCB) (m : ℕ) :
    Inv cfg { e with cbPending := cbs, maxBB := m } G hand opened :=
  ⟨h.watched, h.last, h.order, h.marks, h.width, h.fresh, h.room⟩

/-- **Every instruction is in one place.** -/
theorem Inv.count (h : Inv cfg e G hand opened) (d : ℕ) :
    (pushed e.log).count d + hand.count d + (G.map RealfetchCB.oldinst).count d = if d < e.taken then 1 else 0 := by
  have hfilter : ∀ l : List ℕ, (ofPE cfg (cfg.inst d).pe l).count d = l.count d :=
    fun l => List.count_filter (by simp)
  have heq := congrArg (List.count d) (h.order (cfg.inst d).pe)
  rw [hfilter, hfilter, List.count_append, List.count_append] at heq
  rw [heq, List.nodup_range.count]
  simp only [List.mem_range]

theorem Inv.taken_notMem (h : Inv cfg e G hand opened) : e.taken ∉ G.map RealfetchCB.oldinst := by
  have hcount := h.count e.taken
  rw [if_neg (Nat.lt_irrefl _)] at hcount
  exact fun hmem => absurd (List.count_pos_iff.2 hmem) (by omega)

/-- A new instruction is taken whose PE has nothing parked. -/
theorem Inv.take (h : Inv cfg e G [] opened) (hfree : ∀ c ∈ G, (cfg.inst c.oldinst).pe ≠ (cfg.inst e.taken).pe) :
    Inv cfg { e with taken := e.taken + 1 } G [e.taken] opened where
  watched := h.watched
  last p hp := by
    obtain ⟨d, hd, hpe, hlt, hG⟩ := h.last p hp
    exact ⟨d, hd, hpe, Nat.lt_succ_of_lt hlt, hG⟩
  order p := by
    have horder := h.order p
    simp only [ofPE, List.append_nil, List.filter_append, List.range_succ] at horder ⊢
    rw [← horder]
    by_cases hp : (cfg.inst e.taken).pe = p
    · -- its PE has nothing behind it
      have hnil : (G.map RealfetchCB.oldinst).filter (fun d => (cfg.inst d).pe = p) = [] := by
        rw [List.filter_eq_nil_iff]
        intro d hd
        obtain ⟨c, hc, rfl⟩ := List.mem_map.1 hd
        simpa [← hp] using hfree c hc
      simp [hnil]
    · simp [hp]
  marks := h.marks
  width := h.width
  fresh := h.fresh
  room := h.room

/-- A new instruction is taken and parked with its bucket. -/
theorem Inv.park (h : Inv cfg e G [] [b]) (hroom : (pushedTo b e.log).length + n = cfg.FetchWidth) (hn : 1 ≤ n) :
    Inv cfg { e with taken := e.taken + 1 } (G ++ [⟨b, e.taken, n⟩]) [] [] where
  watched := h.watched
  last p hp := by
    obtain ⟨d, hd, hpe, hlt, hG⟩ := h.last p hp
    refine ⟨d, hd, hpe, Nat.lt_succ_of_lt hlt, ?_⟩
    simp only [List.map_append, List.map_cons, List.map_nil, List.mem_append, List.mem_singleton, not_or]
    exact ⟨hG, hlt.ne⟩
  order p := by
    have horder := h.order p
    simp only [ofPE, List.append_nil, List.filter_append, List.range_succ, List.map_append] at horder ⊢
    rw [← horder, List.append_assoc]
    rfl
  marks b' := by
    have hmarks := h.marks b'
    simp only [List.map_append, List.map_cons, List.map_nil, List.count_append, List.count_nil] at hmarks ⊢
    omega
  width := h.width
  fresh := h.fresh
  room c hc := by
    rcases List.mem_append.1 hc with hc | hc
    · exact h.room c hc
    · obtain rfl := List.mem_singleton.1 hc
      exact ⟨hroom, hn⟩

/-- **The first callback of a PE leaves the list**, and its instruction and bucket are in hand. -/
theorem Inv.unpark {A B : List RealfetchCB} (h : Inv cfg e (A ++ c :: B) [] [])
    (hA : ∀ x ∈ A, (cfg.inst x.oldinst).pe ≠ (cfg.inst c.oldinst).pe) : Inv cfg e (A ++ B) [c.oldinst] [c.bucket] where
  watched := h.watched
  last p hp := by
    obtain ⟨d, hd, hpe, hlt, hG⟩ := h.last p hp
    refine ⟨d, hd, hpe, hlt, fun hmem => hG ?_⟩
    simp only [List.map_append, List.map_cons, List.mem_append, List.mem_cons] at hmem ⊢
    exact hmem.imp_right .inr
  order p := by
    rw [← h.order p]
    simp only [ofPE, List.append_nil, List.filter_append, List.map_append, List.map_cons, List.append_assoc]
    congr 1
    by_cases hp : (cfg.inst c.oldinst).pe = p
    · have hnil : (A.map RealfetchCB.oldinst).filter (fun d => (cfg.inst d).pe = p) = [] := by
        rw [List.filter_eq_nil_iff]
        intro d hd
        obtain ⟨x, hx, rfl⟩ := List.mem_map.1 hd
        simpa [← hp] using hA x hx
      simp [hnil, hp]
    · simp [hp]
  marks b := by
    have hmarks := h.marks b
    simp only [List.map_append, List.map_cons, List.count_append, List.count_cons, List.count_nil] at hmarks ⊢
    omega
  width := h.width
  fresh := h.fresh
  room x hx := h.room x (by
    rcases List.mem_append.1 hx with hx | hx
    · exact List.mem_append_left _ hx
    · exact List.mem_append_right _ (List.mem_cons_of_mem c hx))

/-- The instruction in hand is pushed into an opened bucket. -/
theorem Inv.push (h : Inv cfg e G [d] opened) (hd : e.waits (cfg.inst d).pe = none ∨ e.waits (cfg.inst d).pe = some d)
    (hb : b ∈ opened) (hlt : (pushedTo b e.log).length < cfg.FetchWidth) :
    Inv cfg (e.act (.push b d)) G [] opened := by
  have hmarks := h.marks b
  have hpos := List.count_pos_iff.2 hb
  have hpassed : b < e.passed := by
    by_contra hge
    rw [if_neg hge] at hmarks
    omega
  rw [if_pos hpassed] at hmarks
  constructor
  · have hwatched := h.watched
    simp only [act]
    rw [run_append, hwatched, Option.bind_some, run_cons]
    exact ⟨e.waits, by rw [watch, if_pos hd], rfl⟩
  · exact h.last
  · intro p
    simpa [act] using h.order p
  · intro b'
    rw [act, marked_push]
    exact h.marks b'
  · intro b'
    have hwidth := h.width b'
    simp only [act, pushedTo_push]
    split
    · rename_i hbb
      subst hbb
      rw [List.length_append, List.length_singleton]
      exact hlt
    · exact hwidth
  · intro b' hb'
    have hne : b ≠ b' := by
      rintro rfl
      exact absurd hpassed (Nat.not_lt.2 hb')
    simp only [act, pushedTo_push, if_neg hne]
    exact h.fresh b' hb'
  · intro c hc
    -- the bucket is not one of those that are parked
    have hne : b ≠ c.bucket := by
      rintro rfl
      have hcount := List.count_pos_iff.2 (List.mem_map_of_mem (f := RealfetchCB.bucket) hc)
      omega
    simp only [act, pushedTo_push, if_neg hne]
    exact h.room c hc

/-- An instruction that is not parked blocks its PE. -/
theorem Inv.block (h : Inv cfg e G hand opened) (hm : e.missInst (cfg.inst d).pe = false) (hd : d < e.taken)
    (hG : d ∉ G.map RealfetchCB.oldinst) (w : Wake) :
    Inv cfg ((e.setMissInst cfg d).act (.block d w)) G hand opened := by
  constructor
  · have hwatched := h.watched
    have hnone : e.waits (cfg.inst d).pe = none := by simp [waits, hm]
    simp only [act, setMissInst]
    rw [run_append, hwatched, Option.bind_some, run_cons]
    refine ⟨_, by rw [watch, if_pos hnone], ?_⟩
    simp only [run, Option.some.injEq]
    funext p
    by_cases hp : p = (cfg.inst d).pe
    · subst hp
      simp [waits]
    · simp [waits, hp]
  · intro p hp
    by_cases hpd : p = (cfg.inst d).pe
    · subst hpd
      exact ⟨d, by simp [act, setMissInst], rfl, hd, hG⟩
    · simp only [act, setMissInst, Function.update_of_ne hpd] at hp ⊢
      exact h.last p hp
  · intro p
    simpa [act, setMissInst] using h.order p
  · intro b
    rw [act, setMissInst, marked_block]
    exact h.marks b
  · intro b
    simpa [act, setMissInst] using h.width b
  · intro b hb
    simpa [act, setMissInst] using h.fresh b hb
  · intro c hc
    simpa [act, setMissInst] using h.room c hc

/-- An opened bucket is marked. -/
theorem Inv.mark (h : Inv cfg e G hand (b :: opened)) (n : Notice) : Inv cfg (e.act (.mark b n)) G hand opened := by
  constructor
  · have hwatched := h.watched
    simp only [act]
    rw [run_append, hwatched, Option.bind_some, run_cons]
    exact ⟨e.waits, rfl, rfl⟩
  · exact h.last
  · intro p
    simpa [act] using h.order p
  · intro b'
    have hmarks : _ = if b' < (e.act (.mark b n)).passed then 1 else 0 := h.marks b'
    rw [← hmarks, act, marked_mark]
    simp only [List.count_append, List.count_cons, List.count_nil]
    omega
  · intro b
    simpa [act] using h.width b
  · intro b hb
    simpa [act] using h.fresh b hb
  · intro c hc
    simpa [act] using h.room c hc

/-- The branch that a PE waits for unblocks it. -/
theorem Inv.unblock (h : Inv cfg e G hand opened) (hd : e.waits (cfg.inst d).pe = some d) :
    Inv cfg { e.act (.unblock d) with missInst := Function.update e.missInst (cfg.inst d).pe false } G hand opened := by
  constructor
  · have hwatched := h.watched
    simp only [act]
    rw [run_append, hwatched, Option.bind_some, run_cons]
    refine ⟨_, by rw [watch, if_pos hd], ?_⟩
    simp only [run, Option.some.injEq]
    funext p
    by_cases hp : p = (cfg.inst d).pe
    · subst hp
      simp [waits]
    · simp [waits, hp]
  · intro p hp
    have hne : p ≠ (cfg.inst d).pe := by
      rintro rfl
      simp at hp
    simp only [Function.update_of_ne hne] at hp
    exact h.last p hp
  · intro p
    simpa [act] using h.order p
  · intro b
    rw [act, marked_unblock]
    exact h.marks b
  · intro b
    simpa [act] using h.width b
  · intro b hb
    simpa [act] using h.fresh b hb
  · intro c hc
    simpa [act] using h.room c hc

/-! ## The functions -/

/-- What the functions of one PE leave to the others. -/
structure Frame (p : ℕ) (e e' : FetchEngine) : Prop where
  taken : e'.taken = e.taken
  passed : e'.passed = e.passed
  missInst : ∀ q, q ≠ p → e'.missInst q = e.missInst q
  cbPending : ∀ q, q ≠ p → e'.cbPending q = e.cbPending q

theorem Frame.refl (p : ℕ) (e : FetchEngine) : Frame p e e := ⟨rfl, rfl, fun _ _ => rfl, fun _ _ => rfl⟩

theorem Frame.trans {e' e'' : FetchEngine} (h : Frame p e e') (h' : Frame p e' e'') : Frame p e e'' :=
  ⟨h'.taken.trans h.taken, h'.passed.trans h.passed, fun q hq => (h'.missInst q hq).trans (h.missInst q hq),
    fun q hq => (h'.cbPending q hq).trans (h.cbPending q hq)⟩

/-- **What `processBranch` can do**: change `maxBB`, and block the PE, when it answers so. -/
theorem processBranch_cases (cfg : FetchConfig) (e : FetchEngine) (d : ℕ) :
    ∃ m, (e.processBranch cfg d).2 = { e with maxBB := m } ∨
      (e.processBranch cfg d).1 = true ∧
        ∃ w, (e.processBranch cfg d).2 = { (e.setMissInst cfg d).act (.block d w) with maxBB := m } := by
  unfold processBranch
  split
  · split
    · by_cases hdelay : cfg.bpredDelay > 1
      · simp only [if_pos hdelay]
        split
        · exact ⟨e.maxBB, .inr ⟨rfl, _, rfl⟩⟩
        · exact ⟨_, .inr ⟨decide_eq_true hdelay, _, rfl⟩⟩
      · simp only [if_neg hdelay]
        split
        · exact ⟨e.maxBB, .inl rfl⟩
        · exact ⟨_, .inl rfl⟩
    · exact ⟨e.maxBB, .inl rfl⟩
  · split
    · exact ⟨e.maxBB, .inr ⟨rfl, _, rfl⟩⟩
    · exact ⟨e.maxBB, .inr ⟨rfl, _, rfl⟩⟩

/-- **`processBranch`**, for an instruction that is not parked and whose PE is not blocked. -/
theorem Inv.processBranch (h : Inv cfg e G hand opened) (hm : e.missInst (cfg.inst d).pe = false) (hd : d < e.taken)
    (hG : d ∉ G.map RealfetchCB.oldinst) :
    Inv cfg (e.processBranch cfg d).2 G hand opened ∧ Frame (cfg.inst d).pe e (e.processBranch cfg d).2 ∧
      (e.processBranch cfg d).2.cbPending = e.cbPending ∧
      (∀ b, pushedTo b (e.processBranch cfg d).2.log = pushedTo b e.log) ∧
      ((e.processBranch cfg d).2.waits (cfg.inst d).pe = none ∨
        (e.processBranch cfg d).2.waits (cfg.inst d).pe = some d) := by
  obtain ⟨m, hb | ⟨-, w, hb⟩⟩ := processBranch_cases cfg e d
  · rw [hb]
    refine ⟨h.congr _ m, ⟨rfl, rfl, fun _ _ => rfl, fun _ _ => rfl⟩, rfl, fun _ => rfl, .inl ?_⟩
    simp [waits, hm]
  · rw [hb]
    refine ⟨(h.block hm hd hG w).congr _ m, ⟨rfl, rfl, fun q hq => ?_, fun _ _ => rfl⟩, rfl, fun b => ?_, .inr ?_⟩
    · simp [act, setMissInst, hq]
    · simp [act, setMissInst]
    · simp [act, setMissInst, waits]

theorem notify_eq (cfg : FetchConfig) (e : FetchEngine) (b : ℕ) : ∃ n, e.notify cfg b = e.act (.mark b n) := by
  unfold notify
  split
  · exact ⟨_, rfl⟩
  · exact ⟨_, rfl⟩

/-- The callbacks of a PE. -/
def parkedAt (cfg : FetchConfig) (p : ℕ) (G : List RealfetchCB) : List RealfetchCB :=
  G.filter fun c => (cfg.inst c.oldinst).pe = p

theorem mem_parkedAt : c ∈ parkedAt cfg p G ↔ c ∈ G ∧ (cfg.inst c.oldinst).pe = p := by
  simp [parkedAt]

theorem parkedAt_concat :
    parkedAt cfg p (G ++ [c]) = if (cfg.inst c.oldinst).pe = p then parkedAt cfg p G ++ [c] else parkedAt cfg p G := by
  by_cases hp : (cfg.inst c.oldinst).pe = p <;> simp [parkedAt, hp]

/-- **Between two events**, and in the loop of `realfetch`: every container holds the callbacks of its
PE, and only the PEs that are blocked have any. -/
structure Idle (cfg : FetchConfig) (e : FetchEngine) (G : List RealfetchCB) (opened : List ℕ) : Prop where
  inv : Inv cfg e G [] opened
  holds : ∀ p, Holds (e.cbPending p) (parkedAt cfg p G) 0
  blocked : ∀ c ∈ G, e.missInst (cfg.inst c.oldinst).pe = true

theorem Idle.init : Idle cfg FetchEngine.init [] [] :=
  ⟨.init, fun _ => .init, fun c hc => by cases hc⟩

/-- **Parking.** A new instruction of a blocked PE goes behind the others, with the bucket. -/
theorem Idle.park (h : Idle cfg e G [b]) (hm : e.missInst (cfg.inst e.taken).pe = true)
    (hroom : (pushedTo b e.log).length + n = cfg.FetchWidth) (hn : 1 ≤ n) :
    Idle cfg (FetchEngine.park cfg { e with taken := e.taken + 1 } ⟨b, e.taken, n⟩) (G ++ [⟨b, e.taken, n⟩]) [] := by
  have hinv := h.inv.park hroom hn
  refine ⟨hinv.congr _ e.maxBB, fun p => ?_, fun c hc => ?_⟩
  · have hholds := h.holds p
    rw [parkedAt_concat]
    by_cases hp : p = (cfg.inst e.taken).pe
    · subst hp
      have hnew : (⟨b, e.taken, n⟩ : RealfetchCB) ∉ parkedAt cfg (cfg.inst e.taken).pe G := fun hmem =>
        h.inv.taken_notMem (List.mem_map_of_mem (f := RealfetchCB.oldinst) (mem_parkedAt.1 hmem).1)
      simp only [FetchEngine.park, Function.update_self, if_true]
      exact hholds.add hnew
    · simp only [FetchEngine.park, Function.update_of_ne hp, if_neg (Ne.symm hp)]
      exact hholds
  · rcases List.mem_append.1 hc with hc | hc
    · exact h.blocked c hc
    · obtain rfl := List.mem_singleton.1 hc
      exact hm

/-- **A new instruction is pushed** into the bucket of the loop, and blocks its PE or not. -/
theorem Idle.pushNew (h : Idle cfg e G [b]) (hm : e.missInst (cfg.inst e.taken).pe = false)
    (hlt : (pushedTo b e.log).length < cfg.FetchWidth) :
    Idle cfg (({ e with taken := e.taken + 1 } : FetchEngine).act (.push b e.taken)) G [b] ∧
      Idle cfg ((({ e with taken := e.taken + 1 } : FetchEngine).act (.push b e.taken)).processBranch cfg e.taken).2 G [b] ∧
      pushedTo b ((({ e with taken := e.taken + 1 } : FetchEngine).act (.push b e.taken)).processBranch cfg e.taken).2.log =
        pushedTo b e.log ++ [e.taken] := by
  have hpe : ∀ c ∈ G, (cfg.inst c.oldinst).pe ≠ (cfg.inst e.taken).pe := by
    intro c hc heq
    have hblocked := h.blocked c hc
    rw [heq, hm] at hblocked
    cases hblocked
  have hwaits : e.waits (cfg.inst e.taken).pe = none := by simp [waits, hm]
  have hpush := (h.inv.take hpe).push (b := b) (.inl hwaits) List.mem_cons_self hlt
  obtain ⟨hinv, hframe, hcbs, hpushed, -⟩ :=
    hpush.processBranch (d := e.taken) hm (Nat.lt_succ_self e.taken) h.inv.taken_notMem
  refine ⟨⟨hpush, h.holds, h.blocked⟩, ⟨hinv, fun p => ?_, fun c hc => ?_⟩, ?_⟩
  · rw [hcbs]
    exact h.holds p
  · rw [hframe.missInst _ (hpe c hc)]
    exact h.blocked c hc
  · rw [hpushed b, act, pushedTo_push, if_pos rfl]

/-- How the loop of `realfetch` ends: with one instruction parked, or with a bucket to be marked. -/
def Looped (cfg : FetchConfig) (b : ℕ) (G : List RealfetchCB) (r : Bool × FetchEngine) : Prop :=
  (r.1 = true → ∃ G', Idle cfg r.2 G' []) ∧ (r.1 = false → Idle cfg r.2 G [b])

theorem Idle.looped {r : Bool × FetchEngine} (h : Idle cfg r.2 G [b]) (hr : r.1 = false) : Looped cfg b G r :=
  ⟨fun ht => absurd (hr.symm.trans ht) Bool.false_ne_true, fun _ => h⟩

theorem Idle.fetchLoop (h : Idle cfg e G [b]) (avail : ℕ)
    (hroom : (pushedTo b e.log).length + n = cfg.FetchWidth) (hn : 1 ≤ n) :
    Looped cfg b G (fetchLoop cfg b avail n e) := by
  induction avail generalizing e n with
  | zero => exact Idle.looped h rfl
  | succ avail ih =>
    rw [FetchEngine.fetchLoop]
    by_cases hm : e.missInst (cfg.inst e.taken).pe = true
    · simp only [hm, if_true]
      exact ⟨fun _ => ⟨_, h.park hm hroom hn⟩, fun hr => absurd hr Bool.noConfusion⟩
    · simp only [hm, Bool.false_eq_true, if_false]
      obtain ⟨hplain, hbranch, hlog⟩ := h.pushNew (Bool.eq_false_iff.2 hm) (by omega)
      -- what the rest of the loop starts from, after a branch or another instruction
      set r := if (cfg.inst e.taken).isControl = true then
          ((({ e with taken := e.taken + 1 } : FetchEngine).act (.push b e.taken)).processBranch cfg e.taken)
        else (false, ({ e with taken := e.taken + 1 } : FetchEngine).act (.push b e.taken)) with hr
      have hnext : Idle cfg r.2 G [b] ∧ pushedTo b r.2.log = pushedTo b e.log ++ [e.taken] := by
        rw [hr]
        split
        · exact ⟨hbranch, hlog⟩
        · exact ⟨hplain, by simp [act]⟩
      by_cases hstop : r.1 = true ∨ n - 1 = 0
      · rw [if_pos hstop]
        exact Idle.looped hnext.1 rfl
      · rw [if_neg hstop]
        have hn1 : n - 1 ≠ 0 := fun h0 => hstop (.inr h0)
        refine ih hnext.1 ?_ (by omega)
        rw [hnext.2, List.length_append, List.length_singleton]
        omega

/-- **A fetch keeps what holds between events.** -/
theorem Idle.fetch (h : Idle cfg e G []) (avail : ℕ) : ∃ G', Idle cfg (e.fetch cfg avail) G' [] := by
  have hopen : Idle cfg { e with maxBB := if cfg.BB4Cycle = 0 then 65535 else cfg.BB4Cycle, passed := e.passed + 1 } G
      [e.passed] := by
    refine ⟨⟨h.inv.watched, h.inv.last, h.inv.order, fun b => ?_, h.inv.width, fun b hb => ?_, h.inv.room⟩,
      h.holds, h.blocked⟩
    · have hmarks := h.inv.marks b
      simp only [List.count_cons, List.count_nil, beq_iff_eq] at hmarks ⊢
      split_ifs at hmarks ⊢ <;> omega
    · exact h.inv.fresh b (by simp only at hb; omega)
  have hempty : (pushedTo e.passed e.log).length = 0 := by rw [h.inv.fresh e.passed le_rfl]; rfl
  have hloop := hopen.fetchLoop avail (n := cfg.FetchWidth) (by simp only; omega) cfg.between.1
  unfold FetchEngine.fetch
  dsimp only
  generalize FetchEngine.fetchLoop cfg e.passed avail cfg.FetchWidth _ = r at hloop ⊢
  split
  · rename_i hr
    exact hloop.1 hr
  · rename_i hr
    have hidle := hloop.2 (Bool.eq_false_iff.2 hr)
    obtain ⟨n, hn⟩ := notify_eq cfg r.2 e.passed
    rw [hn]
    exact ⟨G, hidle.inv.mark n, hidle.holds, hidle.blocked⟩

/-! ## Unblocking -/

/-- **While the callbacks of a PE run**: `rest` are still to run, and those of `back` were parked
again, which happens to all of them from the first branch on that blocks the PE. -/
structure Draining (cfg : FetchConfig) (e : FetchEngine) (G : List RealfetchCB) (p : ℕ) (rest back : List RealfetchCB) :
    Prop where
  inv : Inv cfg e G [] []
  here : Holds (e.cbPending p) (rest ++ back) 0
  there : ∀ q, q ≠ p → Holds (e.cbPending q) (parkedAt cfg q G) 0
  split : parkedAt cfg p G = back ++ rest
  blocked : ∀ c ∈ G, (cfg.inst c.oldinst).pe ≠ p → e.missInst (cfg.inst c.oldinst).pe = true
  again : back ≠ [] → e.missInst p = true

variable {rest back : List RealfetchCB}

theorem Draining.idle (h : Draining cfg e G p [] back) : Idle cfg e G [] := by
  have hsplit := h.split
  rw [List.append_nil] at hsplit
  refine ⟨h.inv, fun q => ?_, fun c hc => ?_⟩
  · by_cases hq : q = p
    · subst hq
      rw [hsplit]
      exact h.here
    · exact h.there q hq
  · by_cases hp : (cfg.inst c.oldinst).pe = p
    · rw [hp]
      refine h.again fun hnil => ?_
      have hmem : c ∈ parkedAt cfg p G := mem_parkedAt.2 ⟨hc, hp⟩
      rw [hsplit, hnil] at hmem
      cases hmem
    · exact h.blocked c hc hp

/-- **A parked instruction goes on**: it is pushed and its bucket marked. -/
theorem Inv.resume {A B : List RealfetchCB} (h : Inv cfg e (A ++ c :: B) [] [])
    (hA : ∀ x ∈ A, (cfg.inst x.oldinst).pe ≠ (cfg.inst c.oldinst).pe)
    (hm : e.missInst (cfg.inst c.oldinst).pe = false) :
    Inv cfg (e.resume cfg c) (A ++ B) [] [] ∧ Frame (cfg.inst c.oldinst).pe e (e.resume cfg c) ∧
      (e.resume cfg c).cbPending = e.cbPending := by
  obtain ⟨hlen, hpos⟩ := h.room c (List.mem_append_right _ List.mem_cons_self)
  have hcount := h.count c.oldinst
  simp only [List.map_append, List.map_cons, List.count_append, List.count_cons_self, List.count_nil] at hcount
  have hlt : c.oldinst < e.taken := by
    by_contra hge
    rw [if_neg hge] at hcount
    omega
  rw [if_pos hlt] at hcount
  have hG : c.oldinst ∉ (A ++ B).map RealfetchCB.oldinst := by
    rw [← List.count_eq_zero, List.map_append, List.count_append]
    omega
  have hunpark := h.unpark hA
  obtain ⟨n, hn⟩ := notify_eq cfg
    ((if (cfg.inst c.oldinst).isControl then (e.processBranch cfg c.oldinst).2 else e).act (.push c.bucket c.oldinst)) c.bucket
  have hresume : e.resume cfg c = ((if (cfg.inst c.oldinst).isControl then (e.processBranch cfg c.oldinst).2 else e).act
      (.push c.bucket c.oldinst)).act (.mark c.bucket n) := by
    rw [FetchEngine.resume, if_neg (by rw [hm]; exact Bool.false_ne_true)]
    exact hn
  rw [hresume]
  split
  · obtain ⟨hinv, hframe, hcbs, hpushed, hwaits⟩ := hunpark.processBranch hm hlt hG
    refine ⟨(hinv.push hwaits List.mem_cons_self ?_).mark n,
      hframe.trans ⟨rfl, rfl, fun _ _ => rfl, fun _ _ => rfl⟩, hcbs⟩
    rw [hpushed]
    omega
  · have hwaits : e.waits (cfg.inst c.oldinst).pe = none := by simp [waits, hm]
    exact ⟨(hunpark.push (.inl hwaits) List.mem_cons_self (by omega)).mark n,
      ⟨rfl, rfl, fun _ _ => rfl, fun _ _ => rfl⟩, rfl⟩

/-- The callback of a PE that was blocked again goes to the end of the list. -/
theorem Draining.round_again (h : Draining cfg e G p (c :: rest) back) (hcG : c ∈ G) (hcp : (cfg.inst c.oldinst).pe = p)
    (hm : e.missInst p = true) :
    Draining cfg (e.round cfg p c) G p rest (back ++ [c]) ∧ Frame p e (e.round cfg p c) := by
  have hunlink := Holds.unlink (l := rest ++ back) h.here
  -- it is not the branch that blocks the PE, which was pushed
  have hlast : e.lastd p ≠ some c.oldinst := by
    intro heq
    obtain ⟨d, hd, -, -, hdG⟩ := h.inv.last p hm
    obtain rfl := Option.some.inj (hd.symm.trans heq)
    exact hdG (List.mem_map_of_mem hcG)
  set cc := ((e.cbPending p).unlink c).add c with hcc
  have hround : e.round cfg p c =
      { e with cbPending := Function.update e.cbPending p { cc with size := cc.size - 1 } } := by
    simp [FetchEngine.round, FetchEngine.resume, FetchEngine.park, hcp, hm, hlast, hcc]
  have hnew : c ∉ rest ++ back := (List.nodup_cons.1 h.here.nodup).1
  have hadd := (hunlink.add hnew).counted
  rw [hround]
  refine ⟨⟨h.inv.congr _ e.maxBB, ?_, fun q hq => ?_, ?_, h.blocked, fun _ => hm⟩,
    ⟨rfl, rfl, fun _ _ => rfl, fun q hq => ?_⟩⟩
  · simpa using hadd
  · simpa [hq] using h.there q hq
  · simpa using h.split
  · simp [hq]

/-- The callback of a PE that is not blocked is pushed. -/
theorem Draining.round_on (h : Draining cfg e G p (c :: rest) []) (hcp : (cfg.inst c.oldinst).pe = p)
    (hm : e.missInst p = false) :
    ∃ G', Draining cfg (e.round cfg p c) G' p rest [] ∧ Frame p e (e.round cfg p c) := by
  have hunlink := Holds.unlink (l := rest ++ []) h.here
  obtain ⟨A, B, rfl, hA, -, hB⟩ := List.filter_eq_cons_iff.1 h.split
  have hA : ∀ x ∈ A, (cfg.inst x.oldinst).pe ≠ p := fun x hx => by simpa using hA x hx
  set e' : FetchEngine := { e with cbPending := Function.update e.cbPending p ((e.cbPending p).unlink c) } with he'
  have hinv' : Inv cfg e' (A ++ c :: B) [] [] := h.inv.congr _ e.maxBB
  have hresume := hinv'.resume (fun x hx => by rw [hcp]; exact hA x hx) (by rw [hcp]; exact hm)
  rw [hcp] at hresume
  obtain ⟨hinv, hframe, hcbs⟩ := hresume
  set cc := (e.cbPending p).unlink c with hcc
  have hround : e.round cfg p c =
      { e'.resume cfg c with cbPending := Function.update e.cbPending p { cc with size := cc.size - 1 } } := by
    simp only [FetchEngine.round, ← hcc, ← he', hcbs]
    congr 1
    funext q
    by_cases hq : q = p
    · subst hq
      simp [he']
    · simp [he', hq]
  have hother : ∀ q, q ≠ p → parkedAt cfg q (A ++ B) = parkedAt cfg q (A ++ c :: B) := by
    intro q hq
    simp [parkedAt, hcp, Ne.symm hq]
  have hrest : parkedAt cfg p (A ++ B) = rest := by
    have hnil : A.filter (fun x => (cfg.inst x.oldinst).pe = p) = [] :=
      List.filter_eq_nil_iff.2 fun x hx => by simpa using hA x hx
    rw [parkedAt, List.filter_append, hnil]
    exact hB
  rw [hround]
  refine ⟨A ++ B, ⟨hinv.congr _ (e'.resume cfg c).maxBB, ?_, fun q hq => ?_, ?_, fun x hx hxp => ?_,
    fun hne => absurd rfl hne⟩, ⟨hframe.taken, hframe.passed, hframe.missInst, fun q hq => ?_⟩⟩
  · simpa using hunlink.counted
  · simpa [hq, hother q hq] using h.there q hq
  · rw [List.nil_append]
    exact hrest
  · have hmem : x ∈ A ++ c :: B := by
      rcases List.mem_append.1 hx with hx | hx
      · exact List.mem_append_left _ hx
      · exact List.mem_append_right _ (List.mem_cons_of_mem c hx)
    have hblocked := h.blocked x hmem hxp
    rwa [← hframe.missInst _ hxp] at hblocked
  · simp [hq]

/-- **A round**: the first callback goes on, or is parked again behind the others. -/
theorem Draining.round (h : Draining cfg e G p (c :: rest) back) :
    ∃ G' back', Draining cfg (e.round cfg p c) G' p rest back' ∧ Frame p e (e.round cfg p c) ∧
      (e.missInst p = false → back' = []) ∧ back'.length ≤ back.length + 1 := by
  have hc : c ∈ G ∧ (cfg.inst c.oldinst).pe = p := by
    rw [← mem_parkedAt, h.split]
    exact List.mem_append_right _ List.mem_cons_self
  obtain ⟨hcG, hcp⟩ := hc
  by_cases hm : e.missInst p = true
  · obtain ⟨hnext, hframe⟩ := h.round_again hcG hcp hm
    refine ⟨G, back ++ [c], hnext, hframe, fun hf => absurd (hf.symm.trans hm) Bool.false_ne_true, ?_⟩
    rw [List.length_append, List.length_singleton]
  · have hm : e.missInst p = false := Bool.eq_false_iff.2 hm
    have hback : back = [] := by
      by_contra hne
      exact absurd ((h.again hne).symm.trans hm) Bool.true_eq_false.mp
    subst hback
    obtain ⟨G', hnext, hframe⟩ := h.round_on hcp hm
    exact ⟨G', [], hnext, hframe, fun _ => rfl, Nat.zero_le _⟩

theorem Draining.rounds (h : Draining cfg e G p rest back) :
    ∃ G' back', Draining cfg (rounds cfg p rest.length e) G' p [] back' ∧ Frame p e (rounds cfg p rest.length e) ∧
      back'.length ≤ back.length + rest.length := by
  induction rest generalizing e G back with
  | nil => exact ⟨G, back, h, Frame.refl p e, Nat.le_refl _⟩
  | cons c rest ih =>
    obtain ⟨G', back', hround, hframe, -, hlen⟩ := h.round
    obtain ⟨G'', back'', hrounds, hframe', hlen'⟩ := ih hround
    have hfirst : (e.cbPending p).first = some c := h.here.first_eq
    rw [List.length_cons, FetchEngine.rounds, hfirst]
    exact ⟨G'', back'', hrounds, hframe.trans hframe', by omega⟩

/-- **An unblock keeps what holds between events**, and leaves the PE free or with fewer callbacks. -/
theorem Idle.unblock (h : Idle cfg e G []) (hm : e.missInst (cfg.inst d).pe = true)
    (hd : e.lastd (cfg.inst d).pe = some d) :
    ∃ G', Idle cfg ((e.act (.unblock d)).clearMissInst cfg d) G' [] ∧
      Frame (cfg.inst d).pe e ((e.act (.unblock d)).clearMissInst cfg d) ∧
      (((e.act (.unblock d)).clearMissInst cfg d).missInst (cfg.inst d).pe = false ∨
        (parkedAt cfg (cfg.inst d).pe G').length < (parkedAt cfg (cfg.inst d).pe G).length) := by
  have hwaits : e.waits (cfg.inst d).pe = some d := by simp [waits, hm, hd]
  set p := (cfg.inst d).pe with hp
  set e' : FetchEngine := { e.act (.unblock d) with missInst := Function.update e.missInst p false } with he'
  have hclear : (e.act (.unblock d)).clearMissInst cfg d = mycall cfg p e' := rfl
  have hframe : Frame p e e' := ⟨rfl, rfl, fun q hq => by simp [he', hq], fun _ _ => rfl⟩
  have hfree : e'.missInst p = false := by simp [he']
  have hdrain : Draining cfg e' G p (parkedAt cfg p G) [] := by
    refine ⟨h.inv.unblock hwaits, ?_, fun q _ => h.holds q, rfl, fun c hc hcp => ?_, fun hne => absurd rfl hne⟩
    · rw [List.append_nil]
      exact h.holds p
    · simpa [he', hcp] using h.blocked c hc
  have hsize := hdrain.here.size
  have hfirst := hdrain.here.first_eq
  rw [hclear, mycall]
  cases hG : parkedAt cfg p G with
  | nil =>
    rw [hG] at hfirst hdrain
    simp only [hfirst, List.append_nil, List.head?_nil]
    exact ⟨G, hdrain.idle, hframe, .inl hfree⟩
  | cons c rest =>
    rw [hG] at hfirst hdrain hsize
    simp only [List.append_nil, List.length_cons] at hsize
    simp only [hfirst, List.cons_append, List.head?_cons, hsize, Nat.add_zero, Nat.add_sub_cancel]
    obtain ⟨G', back', hround, hframe', hback, -⟩ := hdrain.round
    obtain ⟨G'', back'', hrounds, hframe'', hlen⟩ := hround.rounds
    -- the first callback has gone on
    rw [hback hfree, List.length_nil] at hlen
    refine ⟨G'', hrounds.idle, (hframe.trans hframe').trans hframe'', .inr ?_⟩
    have hsplit := hrounds.split
    rw [List.append_nil] at hsplit
    rw [hsplit, List.length_cons]
    omega

/-! ## Runs -/

theorem Idle.step {e' : FetchEngine} {ev : Event} (h : Idle cfg e G []) (hs : e.step cfg ev = some e') :
    ∃ G', Idle cfg e' G' [] := by
  cases ev with
  | fetch avail => exact Option.some.inj hs ▸ h.fetch avail
  | unblock d =>
    simp only [FetchEngine.step] at hs
    split at hs
    · rename_i hd
      obtain ⟨G', hG', -⟩ := h.unblock hd.1 hd.2
      exact ⟨G', Option.some.inj hs ▸ hG'⟩
    · cases hs

theorem Idle.of_run {es : List Event} {e : FetchEngine} (h : run (FetchEngine.step cfg) FetchEngine.init es = some e) :
    ∃ G, Idle cfg e G [] :=
  run_inv (I := fun e => ∃ G, Idle cfg e G []) (fun _ _ _ hs ⟨_, hG⟩ => hG.step hs) h ⟨[], .init⟩

/-- Only the PEs of instructions that were taken are blocked. -/
theorem Idle.missInst_of_notMem (h : Idle cfg e G opened) (hp : p ∉ (List.range e.taken).map fun d => (cfg.inst d).pe) :
    e.missInst p = false := by
  by_contra hm
  obtain ⟨d, -, hpe, hlt, -⟩ := h.inv.last p (by simpa using hm)
  exact hp (List.mem_map.2 ⟨d, List.mem_range.2 hlt, hpe⟩)

/-- Enough unblocks free a PE, and leave the others as they are. -/
theorem Idle.free (h : Idle cfg e G []) (p : ℕ) :
    ∃ (ds : List ℕ) (G' : List RealfetchCB) (t : FetchEngine), run (FetchEngine.step cfg) e (ds.map Event.unblock) = some t ∧ Idle cfg t G' [] ∧ Frame p e t ∧
      t.missInst p = false := by
  -- by induction on a bound for the callbacks of the PE
  obtain ⟨n, hn⟩ : ∃ n, (parkedAt cfg p G).length ≤ n := ⟨_, le_rfl⟩
  induction n generalizing e G with
  | zero =>
    by_cases hm : e.missInst p = true
    · obtain ⟨d, hd, rfl, -⟩ := h.inv.last p hm
      obtain ⟨G', hG', hframe, hfree⟩ := h.unblock hm hd
      refine ⟨[d], G', _, run_cons.2 ⟨_, ?_, rfl⟩, hG', hframe, hfree.resolve_right (by omega)⟩
      rw [FetchEngine.step, if_pos ⟨hm, hd⟩]
    · exact ⟨[], G, e, rfl, h, Frame.refl p e, Bool.eq_false_iff.2 hm⟩
  | succ n ih =>
    by_cases hm : e.missInst p = true
    · obtain ⟨d, hd, rfl, -⟩ := h.inv.last p hm
      obtain ⟨G', hG', hframe, hfree⟩ := h.unblock hm hd
      have hstep : e.step cfg (.unblock d) = some ((e.act (.unblock d)).clearMissInst cfg d) := by
        rw [FetchEngine.step, if_pos ⟨hm, hd⟩]
      rcases hfree with hfree | hlt
      · exact ⟨[d], G', _, run_cons.2 ⟨_, hstep, rfl⟩, hG', hframe, hfree⟩
      · obtain ⟨ds, G'', t, hrun, ht, hframe', hfree⟩ := ih hG' (by omega)
        exact ⟨d :: ds, G'', t, run_cons.2 ⟨_, hstep, hrun⟩, ht, hframe.trans hframe', hfree⟩
    · exact ⟨[], G, e, rfl, h, Frame.refl p e, Bool.eq_false_iff.2 hm⟩

/-- **Unblocks alone lead to a state in which no PE is blocked**, with the same instructions and
buckets. -/
theorem Idle.drains (h : Idle cfg e G []) :
    ∃ (ds : List ℕ) (G' : List RealfetchCB) (t : FetchEngine), run (FetchEngine.step cfg) e (ds.map Event.unblock) = some t ∧ Idle cfg t G' [] ∧
      t.taken = e.taken ∧ t.passed = e.passed ∧ ∀ p, t.missInst p = false := by
  have hall : ∀ ps : List ℕ, ∃ (ds : List ℕ) (G' : List RealfetchCB) (t : FetchEngine), run (FetchEngine.step cfg) e (ds.map Event.unblock) = some t ∧
      Idle cfg t G' [] ∧ t.taken = e.taken ∧ t.passed = e.passed ∧ ∀ p ∈ ps, t.missInst p = false := by
    intro ps
    induction ps with
    | nil => exact ⟨[], G, e, rfl, h, rfl, rfl, fun p hp => by cases hp⟩
    | cons p ps ih =>
      obtain ⟨ds, G', t, hrun, ht, htaken, hpassed, hps⟩ := ih
      obtain ⟨ds', G'', u, hrun', hu, hframe, hp⟩ := ht.free p
      refine ⟨ds ++ ds', G'', u, ?_, hu, hframe.taken.trans htaken, hframe.passed.trans hpassed, fun q hq => ?_⟩
      · rw [List.map_append, run_append, hrun]
        exact hrun'
      · by_cases hqp : q = p
        · rw [hqp]
          exact hp
        · rw [hframe.missInst q hqp]
          exact hps q ((List.mem_cons.1 hq).resolve_left hqp)
  obtain ⟨ds, G', t, hrun, ht, htaken, hpassed, hps⟩ := hall ((List.range e.taken).map fun d => (cfg.inst d).pe)
  refine ⟨ds, G', t, hrun, ht, htaken, hpassed, fun p => ?_⟩
  by_cases hp : p ∈ (List.range e.taken).map fun d => (cfg.inst d).pe
  · exact hps p hp
  · rw [← htaken] at hp
    exact ht.missInst_of_notMem hp

/-- **What the buckets have got**: of every PE the instructions taken, in order, up to one from which
on they wait for a branch. No bucket has more than its width, none was marked twice, and every
bucket that was not marked yet waits for a blocked PE. -/
structure Delivered (cfg : FetchConfig) (e : FetchEngine) : Prop where
  order : ∀ p, ofPE cfg p (pushed e.log) <+: ofPE cfg p (List.range e.taken)
  all : ∀ p, e.missInst p = false → ofPE cfg p (pushed e.log) = ofPE cfg p (List.range e.taken)
  once : ∀ d < e.taken, (pushed e.log).count d ≤ 1 ∧ (e.missInst (cfg.inst d).pe = false → (pushed e.log).count d = 1)
  only : ∀ d ∈ pushed e.log, d < e.taken
  marks : ∀ b, (marked e.log).count b ≤ 1
  marked : ∀ b < e.passed, (∀ p, e.missInst p = false) → (marked e.log).count b = 1
  width : ∀ b, (pushedTo b e.log).length ≤ cfg.FetchWidth

theorem Idle.delivered (h : Idle cfg e G []) : Delivered cfg e := by
  have horder : ∀ p, ofPE cfg p (pushed e.log) ++ ofPE cfg p (G.map RealfetchCB.oldinst) =
      ofPE cfg p (List.range e.taken) := fun p => by
    rw [← h.inv.order p, List.append_nil, ofPE, ofPE, ofPE, List.filter_append]
  have hfree : ∀ p, e.missInst p = false → ofPE cfg p (G.map RealfetchCB.oldinst) = [] := by
    intro p hp
    refine List.filter_eq_nil_iff.2 fun d hd => ?_
    obtain ⟨c, hc, rfl⟩ := List.mem_map.1 hd
    have hblocked := h.blocked c hc
    intro hcp
    rw [of_decide_eq_true hcp, hp] at hblocked
    cases hblocked
  have hall : ∀ p, e.missInst p = false → ofPE cfg p (pushed e.log) = ofPE cfg p (List.range e.taken) := by
    intro p hp
    rw [← horder p, hfree p hp, List.append_nil]
  refine ⟨fun p => ⟨_, horder p⟩, hall, fun d hd => ?_, fun d hd => ?_, fun b => ?_, fun b hb hp => ?_, h.inv.width⟩
  · have hcount := h.inv.count d
    rw [if_pos hd, List.count_nil] at hcount
    refine ⟨by omega, fun hp => ?_⟩
    have hnil : (G.map RealfetchCB.oldinst).count d = 0 := by
      rw [List.count_eq_zero]
      intro hmem
      have hofPE : d ∈ ofPE cfg (cfg.inst d).pe (G.map RealfetchCB.oldinst) := List.mem_filter.2 ⟨hmem, by simp⟩
      rw [hfree _ hp] at hofPE
      cases hofPE
    omega
  · have hcount := h.inv.count d
    have hpos := List.count_pos_iff.2 hd
    by_contra hge
    rw [if_neg hge] at hcount
    omega
  · have hmarks := h.inv.marks b
    split_ifs at hmarks <;> omega
  · have hmarks := h.inv.marks b
    have hG : G = [] := by
      by_contra hne
      obtain ⟨c, hc⟩ := List.exists_mem_of_ne_nil G hne
      exact absurd ((h.blocked c hc).symm.trans (hp _)) Bool.true_eq_false.mp
    rw [if_pos hb, hG, List.map_nil, List.count_nil] at hmarks
    exact hmarks

/-- **Not past a branch.** After a branch has blocked its PE and until it unblocks it, nothing of the
PE is pushed but the branch. -/
theorem Inv.not_past (h : Inv cfg e G hand opened) {A B C : List FetchAct} {b d x : ℕ} {w : Wake}
    (hlog : e.log = A ++ .block d w :: (B ++ .push b x :: C)) (hB : FetchAct.unblock d ∉ B)
    (hx : (cfg.inst x).pe = (cfg.inst d).pe) : x = d := by
  have hwatched := h.watched
  rw [hlog, run_append] at hwatched
  obtain ⟨u, -, hu⟩ := Option.bind_eq_some_iff.1 hwatched
  obtain ⟨v, hv, hrest⟩ := run_cons.1 hu
  rw [run_append] at hrest
  obtain ⟨w', hw', hrest⟩ := Option.bind_eq_some_iff.1 hrest
  obtain ⟨z, hz, -⟩ := run_cons.1 hrest
  -- the PE waits for the branch when it is blocked, and still when `x` is pushed
  have hvd : v (cfg.inst d).pe = some d := by
    simp only [watch] at hv
    split at hv
    · rw [← Option.some.inj hv, Function.update_self]
    · cases hv
  have hwd := watch_waits hw' hvd hB
  simp only [watch, hx, hwd] at hz
  split at hz
  · rename_i hsome
    rcases hsome with hnone | hsome
    · cases hnone
    · exact (Option.some.inj hsome).symm
  · cases hz

/-- **Fetch delivers every instruction once and in order**, in every run: not past a branch that
blocks the PE, and in such a way that unblocks alone deliver all that was taken and mark every
bucket. -/
theorem fetch_delivers {es : List Event} {e : FetchEngine}
    (h : run (FetchEngine.step cfg) FetchEngine.init es = some e) :
    Delivered cfg e ∧
      (∀ A B C b d x w, e.log = A ++ .block d w :: (B ++ .push b x :: C) → FetchAct.unblock d ∉ B →
        (cfg.inst x).pe = (cfg.inst d).pe → x = d) ∧
      ∃ (ds : List ℕ) (t : FetchEngine), run (FetchEngine.step cfg) e (ds.map Event.unblock) = some t ∧ t.taken = e.taken ∧ t.passed = e.passed ∧
        (∀ p, t.missInst p = false) ∧ Delivered cfg t := by
  obtain ⟨G, hG⟩ := Idle.of_run h
  obtain ⟨ds, G', t, hrun, ht, htaken, hpassed, hfree⟩ := hG.drains
  exact ⟨hG.delivered, fun A B C b d x w hlog hB hx => hG.inv.not_past hlog hB hx,
    ds, t, hrun, htaken, hpassed, hfree, ht.delivered⟩

/-- Two PEs, and a branch every third instruction: those of the second PE miss. -/
def smallFetch : FetchConfig where
  FetchWidth := 4
  BB4Cycle := 2
  bpredDelay := 3
  BTACDelay := 2
  IL1HitDelay := 1
  enableICache := false
  inst i := ⟨i % 2, i % 3 = 0, true, true, if i % 2 = 0 then .CorrectPrediction else .NoBTBPrediction⟩
  between := by decide

/-- A bucket waits with instruction 2, behind branch 0, and another one with instruction 5. -/
theorem fetch_delivers_small :
    ∃ e : FetchEngine, run (FetchEngine.step smallFetch) FetchEngine.init
        [.fetch 10, .fetch 5, .fetch 3, .unblock 0, .fetch 4] = some e ∧
      pushed e.log = [0, 1, 3, 2, 4] ∧ marked e.log = [0, 2, 1] ∧ e.passed = 4 ∧ Delivered smallFetch e := by
  obtain ⟨e, he⟩ : ∃ e, run (FetchEngine.step smallFetch) FetchEngine.init
      [.fetch 10, .fetch 5, .fetch 3, .unblock 0, .fetch 4] = some e := ⟨_, rfl⟩
  have hlog : pushed e.log = [0, 1, 3, 2, 4] ∧ marked e.log = [0, 2, 1] ∧ e.passed = 4 := by
    rw [← Option.some.inj he]
    decide
  exact ⟨e, he, hlog.1, hlog.2.1, hlog.2.2, (fetch_delivers he).1⟩

end FetchEngine

end Esesc.Core
