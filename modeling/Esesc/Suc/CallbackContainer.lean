import Mathlib.Tactic.Common
import Esesc.Lib.Machine
import Esesc.Lib.Linked

/-!
# `CallbackContainer`

The queue of callbacks of an MSHR entry and of a fetch engine. Callbacks are linked through
their own `nextCB4Container`, between `first` and `last`, and counted in `size`. A callback
that runs may use the container again, so a run goes by single events: what is called, and
when the callback on top of the stack returns.

* `waiting`, `gone`: what the history of a container says, by itself, about what is in it.
* `Exact`: the container holds what its history says, and counts it.
* `callbackContainer_exact_iff`: the runs on which it does.
-/

namespace Esesc.Suc

open Esesc.Lib

variable {α : Type*}

/-- The members of the container and the `nextCB4Container` of every callback. -/
structure CallbackContainer (α : Type*) where
  first : Option α
  last : Option α
  size : ℕ
  next : α → Option α

namespace CallbackContainer

def init : CallbackContainer α := ⟨none, none, 0, fun _ => none⟩

def add [DecidableEq α] (cc : CallbackContainer α) (c : α) : CallbackContainer α :=
  let next := Function.update cc.next c none
  match cc.last with
  | none => { first := some c, last := some c, size := cc.size + 1, next := next }
  | some l => { cc with last := some c, size := cc.size + 1, next := Function.update next l (some c) }

/-- `first = first->next; if (first == 0) last = 0;`, the head of every round of the three
functions that run callbacks. -/
def unlink (cc : CallbackContainer α) (cb : α) : CallbackContainer α :=
  { cc with first := cc.next cb, last := if cc.next cb = none then none else cc.last }

def empty (cc : CallbackContainer α) : Bool := cc.first = none

def makeEmpty (cc : CallbackContainer α) : CallbackContainer α := { cc with first := none }

/-! ## Runs -/

/-- Which function is running a callback. The one of `mycall` keeps `mysize`. -/
inductive Frame
  | call
  | mycall (mysize : ℕ)
  | callNext
  deriving DecidableEq

/-- How a callback left the container. -/
inductive Fate
  | ran
  | dropped
  deriving DecidableEq

/-- The account of the users of a container, kept apart from it: the callbacks that were added,
those that were run or dropped, and those that are neither yet, each oldest first. -/
structure Ledger (α : Type*) where
  added : List α
  gone : List (α × Fate)
  waiting : List α

namespace Ledger

def init : Ledger α := ⟨[], [], []⟩

def add (l : Ledger α) (c : α) : Ledger α := { l with added := l.added ++ [c], waiting := l.waiting ++ [c] }

def run [DecidableEq α] (l : Ledger α) (c : α) : Ledger α :=
  { l with gone := l.gone ++ [(c, .ran)], waiting := l.waiting.erase c }

def drop (l : Ledger α) : Ledger α :=
  { l with gone := l.gone ++ l.waiting.map (·, .dropped), waiting := [] }

end Ledger

/-- A container, the functions on the stack with a callback running, innermost first, and the
users' account. -/
structure Calls (α : Type*) where
  cc : CallbackContainer α
  frames : List Frame
  book : Ledger α

def Calls.init : Calls α := ⟨.init, [], .init⟩

/-- A use of the container, from outside or by the running callback, or the return of the
running callback. -/
inductive Use (α : Type*)
  | add (c : α)
  | call
  | mycall
  | callNext
  | makeEmpty
  | ret
  deriving DecidableEq

/-- A round begins: the first callback leaves the list and is run. -/
def Calls.round [DecidableEq α] (s : Calls α) (f : Frame) (cb : α) : Calls α :=
  { cc := s.cc.unlink cb, frames := f :: s.frames, book := s.book.run cb }

/-- A round of `call` or `mycall` ends: the callback is counted out. -/
def Calls.endRound (s : Calls α) (fs : List Frame) : Calls α :=
  { s with cc := { s.cc with size := s.cc.size - 1 }, frames := fs }

/-- One event. A caller adds a callback that is not in the container already: the source
asserts that its `nextCB4Container` is not set. -/
def Calls.step [DecidableEq α] (s : Calls α) : Use α → Option (Calls α)
  | .add c => if c ∈ s.book.waiting then none else some { s with cc := s.cc.add c, book := s.book.add c }
  | .call =>
    match s.cc.first with
    | none => some s
    | some cb => some (s.round .call cb)
  | .mycall =>
    match s.cc.first with
    | none => some s
    | some cb => some (s.round (.mycall s.cc.size) cb)
  | .callNext =>
    match s.cc.first with
    | none => some s
    | some cb => some (s.round .callNext cb)
  | .makeEmpty => some { s with cc := s.cc.makeEmpty, book := s.book.drop }
  | .ret =>
    match s.frames with
    | [] => none
    | .call :: fs =>
      match s.cc.first with
      | none => some (s.endRound fs)
      | some cb => some ((s.endRound fs).round .call cb)
    | .mycall mysize :: fs =>
      match s.cc.first with
      | none => some (s.endRound fs)
      | some cb =>
        if mysize - 1 > 0 then some ((s.endRound fs).round (.mycall (mysize - 1)) cb) else some (s.endRound fs)
    | .callNext :: fs => some { s with frames := fs }

/-- **The container is an exact queue**: what left it, run or dropped, is what was added first,
each once and in order; the list from `first` on is what waits; and `size` is the number of
callbacks that wait or are being run. -/
structure Exact (s : Calls α) : Prop where
  order : s.book.added = s.book.gone.map Prod.fst ++ s.book.waiting
  chain : Linked s.cc.next s.cc.first s.book.waiting
  size : s.cc.size = s.book.waiting.length + s.frames.length

/-- With what the container keeps to stay one: `last` is the last of the list, and no callback
is in it twice. -/
structure Good (s : Calls α) : Prop extends Exact s where
  nodup : s.book.waiting.Nodup
  last : s.cc.last = s.book.waiting.getLast?

theorem Good.init : Good (Calls.init : Calls α) :=
  ⟨⟨rfl, rfl, rfl⟩, List.nodup_nil, rfl⟩

variable {s t : Calls α} {c cb : α} {f : Frame} {fs : List Frame}

theorem Good.endRound (h : Good s) (hfs : s.frames = f :: fs) : Good (s.endRound fs) := by
  have hsize := h.size
  rw [hfs, List.length_cons] at hsize
  exact ⟨⟨h.order, h.chain, by simp only [Calls.endRound]; omega⟩, h.nodup, h.last⟩

/-- An empty container is left as it is. -/
theorem Good.makeEmpty (h : Good s) (hf : s.cc.first = none) :
    Good { s with cc := s.cc.makeEmpty, book := s.book.drop } := by
  have hnil := h.chain.eq_none_iff.1 hf
  refine ⟨⟨?_, ?_, ?_⟩, List.nodup_nil, ?_⟩
  · simp [Ledger.drop, hnil, h.order]
  · simp [CallbackContainer.makeEmpty, Ledger.drop, Linked]
  · simpa [CallbackContainer.makeEmpty, Ledger.drop, hnil] using h.size
  · simpa [CallbackContainer.makeEmpty, Ledger.drop, hnil] using h.last

variable [DecidableEq α]

/-- **Adding.** The callback goes to the end of the list. -/
theorem Good.add (h : Good s) (hc : c ∉ s.book.waiting) :
    Good { s with cc := s.cc.add c, book := s.book.add c } := by
  have hnd : (s.book.waiting ++ [c]).Nodup :=
    List.Nodup.append h.nodup (List.nodup_singleton c) (by simpa using hc)
  have hsize := h.size
  refine ⟨⟨?_, ?_, ?_⟩, hnd, ?_⟩
  · simp only [Ledger.add, h.order, List.append_assoc]
  · cases hl : s.cc.last with
    | none =>
      have hnil : s.book.waiting = [] := List.getLast?_eq_none_iff.1 (h.last.symm.trans hl)
      simp [CallbackContainer.add, Ledger.add, hl, hnil, Linked]
    | some l =>
      have hlast : s.book.waiting.getLast? = some l := h.last.symm.trans hl
      have hne : l ≠ c := ne_of_mem_of_not_mem (List.mem_of_getLast? hlast) hc
      have hchain := h.chain.concat hlast h.nodup hc
      rw [Function.update_comm hne] at hchain
      simpa only [CallbackContainer.add, Ledger.add, hl] using hchain
  · cases hl : s.cc.last <;> simp [CallbackContainer.add, Ledger.add, hl] <;> omega
  · cases hl : s.cc.last <;> simp [CallbackContainer.add, Ledger.add, hl]

/-- **Running.** The callback run is the oldest one, and leaves the list. -/
theorem Good.round (h : Good s) (hf : s.cc.first = some cb) (f : Frame) : Good (s.round f cb) := by
  have hchain := h.chain
  have hnd := h.nodup
  have horder := h.order
  have hsize := h.size
  have hlast := h.last
  cases hw : s.book.waiting with
  | nil =>
    rw [hw, hf] at hchain
    cases hchain
  | cons a rest =>
    rw [hw] at hchain hnd horder hsize hlast
    obtain ⟨ha, hrest⟩ := hchain
    obtain rfl : cb = a := Option.some.inj (hf.symm.trans ha)
    have hwait : (s.book.run cb).waiting = rest := by simp [Ledger.run, hw]
    refine ⟨⟨?_, ?_, ?_⟩, ?_, ?_⟩
    · simp only [Calls.round, hwait]
      simp [Ledger.run, horder]
    · simpa only [Calls.round, unlink, hwait] using hrest
    · simp only [Calls.round, unlink, hwait, List.length_cons] at hsize ⊢
      omega
    · simpa only [Calls.round, hwait] using hnd.of_cons
    · simp only [Calls.round, unlink, hwait]
      split
      · rename_i hnone
        rw [hrest.eq_none_iff.1 hnone, List.getLast?_nil]
      · rename_i hsome
        cases rest with
        | nil => exact absurd hrest hsome
        | cons b rest => rwa [List.getLast?_cons_cons] at hlast

/-! ## A container by its list -/

/-- The container holds the callbacks of `l`, while `k` callbacks that were in it run. -/
structure Holds (cc : CallbackContainer α) (l : List α) (k : ℕ) : Prop where
  chain : Linked cc.next cc.first l
  nodup : l.Nodup
  last : cc.last = l.getLast?
  size : cc.size = l.length + k

variable {cc : CallbackContainer α} {l : List α} {k : ℕ}

omit [DecidableEq α] in
theorem Holds.init : Holds (CallbackContainer.init : CallbackContainer α) [] 0 :=
  ⟨rfl, List.nodup_nil, rfl, rfl⟩

omit [DecidableEq α] in
/-- The same, said of a history: `l` was added, and `k` callbacks run. -/
theorem holds_iff_good : Holds cc l k ↔ Good ⟨cc, List.replicate k .call, ⟨l, [], l⟩⟩ := by
  constructor
  · intro h
    have hsize := h.size
    exact ⟨⟨rfl, h.chain, by simpa using hsize⟩, h.nodup, h.last⟩
  · intro h
    have hsize := h.size
    exact ⟨h.chain, h.nodup, h.last, by simpa using hsize⟩

theorem Holds.add (h : Holds cc l k) (hc : c ∉ l) : Holds (cc.add c) (l ++ [c]) k := by
  have hgood := (holds_iff_good.1 h).add hc
  exact holds_iff_good.2 hgood

omit [DecidableEq α] in
theorem Holds.first_eq (h : Holds cc l k) : cc.first = l.head? := by
  have hchain := h.chain
  cases l with
  | nil => exact hchain
  | cons a l => exact hchain.1

theorem Holds.unlink (h : Holds cc (c :: l) k) : Holds (cc.unlink c) l (k + 1) := by
  have hfirst : cc.first = some c := h.first_eq
  have hgood := (holds_iff_good.1 h).round hfirst .call
  have hsize := hgood.size
  have hchain := hgood.chain
  have hlast := hgood.last
  have hwait : (Ledger.run ⟨c :: l, [], c :: l⟩ c).waiting = l := by simp [Ledger.run]
  simp only [Calls.round, hwait] at hsize hchain hlast
  exact ⟨hchain, h.nodup.of_cons, hlast, by simpa using hsize⟩

omit [DecidableEq α] in
/-- A callback that ran is counted out. -/
theorem Holds.counted (h : Holds cc l (k + 1)) : Holds { cc with size := cc.size - 1 } l k := by
  have hsize := h.size
  exact ⟨h.chain, h.nodup, h.last, by simp only; omega⟩

/-! ## The runs on which it is exact -/

/-- Neither does a callback that `callNext` runs return, nor does `makeEmpty` find a callback. -/
def Counted (s : Calls α) : Use α → Prop
  | .ret => s.frames.head? ≠ some .callNext
  | .makeEmpty => s.cc.empty = true
  | _ => True

instance (s : Calls α) : DecidablePred (Counted s) := fun u => by
  unfold Counted
  split <;> infer_instance

/-- A use that begins with the test for an empty container. -/
theorem good_of_round_or_none (h : Good s)
    (ht : (match s.cc.first with
      | none => some s
      | some cb => some (s.round f cb)) = some t) : Good t := by
  split at ht
  · exact Option.some.inj ht ▸ h
  · rename_i hf
    exact Option.some.inj ht ▸ h.round hf f

theorem Good.step {u : Use α} (h : Good s) (ht : s.step u = some t) (hu : Counted s u) : Good t := by
  cases u with
  | add c =>
    simp only [Calls.step] at ht
    split at ht
    · cases ht
    · rename_i hc
      exact Option.some.inj ht ▸ h.add hc
  | call => exact good_of_round_or_none h ht
  | mycall => exact good_of_round_or_none h ht
  | callNext => exact good_of_round_or_none h ht
  | makeEmpty => exact Option.some.inj ht ▸ h.makeEmpty (by simpa [Counted, CallbackContainer.empty] using hu)
  | ret =>
    simp only [Calls.step] at ht
    split at ht
    · cases ht
    · rename_i fs hfs
      exact good_of_round_or_none (h.endRound hfs) ht
    · rename_i mysize fs hfs
      split at ht
      · exact Option.some.inj ht ▸ h.endRound hfs
      · rename_i cb hf
        split at ht
        · exact Option.some.inj ht ▸ (h.endRound hfs).round hf _
        · exact Option.some.inj ht ▸ h.endRound hfs
    · rename_i fs hfs
      exact absurd (by rw [hfs]; rfl) hu

/-- The other uses leave a wrong count. -/
theorem Good.not_exact {u : Use α} (h : Good s) (ht : s.step u = some t) (hu : ¬Counted s u) : ¬Exact t := by
  intro hex
  have hsize := h.size
  have hsize' := hex.size
  cases u with
  | ret =>
    have hhead : s.frames.head? = some .callNext := not_not.1 hu
    obtain ⟨fs, hfs⟩ := List.head?_eq_some_iff.1 hhead
    simp only [Calls.step, hfs, Option.some.injEq] at ht
    subst ht
    simp only [hfs, List.length_cons] at hsize hsize'
    omega
  | makeEmpty =>
    obtain rfl := Option.some.inj ht
    have hne : s.book.waiting ≠ [] := fun e => hu (by simpa [Counted, CallbackContainer.empty] using h.chain.eq_none_iff.2 e)
    have hpos := List.length_pos_iff.2 hne
    simp only [CallbackContainer.makeEmpty, Ledger.drop, List.length_nil] at hsize'
    omega
  | add c => exact hu trivial
  | call => exact hu trivial
  | mycall => exact hu trivial
  | callNext => exact hu trivial

/-- **When the container is exact.** It is, in every state of a run, exactly when no callback
that `callNext` ran returns and `makeEmpty` is called on empty containers only. -/
theorem callbackContainer_exact_iff {us : List (Use α)} {s : Calls α} (h : run Calls.step Calls.init us = some s) :
    (∀ vs t, vs <+: us → run Calls.step Calls.init vs = some t → Exact t) ↔
      Along Calls.step Counted Calls.init us := by
  have hD : Along Calls.step (fun (_ : Calls α) (_ : Use α) => True) Calls.init us :=
    Along.of_forall (fun _ _ => trivial) _ _
  exact forall_prefix_iff_along (fun _ h => h.toExact) (fun _ _ _ ht _ hu hg => hg.step ht hu)
    (fun _ _ _ ht _ hu hg => hg.not_exact ht hu) h hD Good.init

/-- A container used with `add` and `call` only, where the first callback adds another. -/
theorem callbackContainer_exact_add_call :
    ∃ s : Calls ℕ, run Calls.step Calls.init [.add 0, .call, .add 1, .ret, .ret] = some s ∧
      ∀ vs t, vs <+: [.add 0, .call, .add 1, .ret, .ret] → run Calls.step Calls.init vs = some t → Exact t :=
  ⟨_, rfl, (callbackContainer_exact_iff rfl).2 (by decide)⟩

/-- After `makeEmpty`, `last` still points to a callback that was dropped: the next one added
is linked behind it and lost, and both are counted for ever. -/
theorem callbackContainer_add_lost :
    ∃ s : Calls ℕ, run Calls.step Calls.init [.add 0, .makeEmpty, .add 1] = some s ∧ s.book.waiting = [1] ∧
      s.cc.first = none ∧ s.cc.size = 2 ∧ ¬Exact s :=
  ⟨_, rfl, rfl, rfl, rfl, fun h => absurd h.size (by decide)⟩

end CallbackContainer

end Esesc.Suc
