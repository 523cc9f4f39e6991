import Mathlib.Data.BitVec
import Mathlib.Tactic.Common
import Mathlib.Data.List.Induction
import Mathlib.Data.List.Nodup
import Mathlib.Algebra.BigOperators.Group.List.Basic

/-!
# Slices of delinquent loads

`PsliceConstructor` watches the instructions that run. For each delinquent PC it collects the
instructions between two occurrences, records the trace, or counts it when an equal one is
recorded already, and gives up on a trace that gets too long. The tables of the source have one
place for each delinquent PC; here the places of one PC are a `Track`.

* `after`, `tracesOf`: the traces of a PC, read off the instructions alone.
* `Pslice.isEqual_iff`: the comparison of two slices is the equality of their sets of PCs.
* `Sliced.step`: what a track says of the instructions so far is kept by the next one.
* `slices_account`: for every stream and every PC, what is recorded accounts for all occurrences.
-/

namespace Esesc.Emul

/-- The limit on the length of a trace. -/
def PSLICE_MAX_SIZE : ℕ := 300

/-- An instruction as it is recorded. A register is the number that `ARMReg` gives it. -/
structure ExecIns where
  PC : BitVec 64
  opcode : BitVec 32
  addr : BitVec 64
  data : BitVec 64
  src1_reg : BitVec 5
  src2_reg : BitVec 5
  src3_reg : BitVec 5
  dst_reg : BitVec 5
  impl_reg : BitVec 5
  src1_val : BitVec 32
  src2_val : BitVec 32
  src3_val : BitVec 32
  dst_val : BitVec 32
  impl_val : BitVec 32
  isBranch : Bool
  isCond : Bool
  taken : Bool
  targetAddr : BitVec 64
  deriving DecidableEq, Inhabited

/-! ## Slices -/

/-- `std::set::insert`. -/
def setInsert : List (BitVec 64) → BitVec 64 → List (BitVec 64)
  | [], x => [x]
  | y :: ys, x => if x < y then x :: y :: ys else if x = y then y :: ys else y :: setInsert ys x

structure Pslice where
  delPC : BitVec 64
  iterationNumber : BitVec 32
  frequency : BitVec 32
  ptrace : List ExecIns
  ptraceSet : List (BitVec 64)

namespace Pslice

/-- A new slice represents one occurrence. -/
def new (pc : BitVec 64) (iter : BitVec 32) : Pslice := ⟨pc, iter, 1, [], []⟩

def insertInst (p : Pslice) (ins : ExecIns) : Pslice :=
  { p with ptrace := p.ptrace ++ [ins], ptraceSet := setInsert p.ptraceSet ins.PC }

def size (p : Pslice) : ℕ := p.ptrace.length

/-- The loop of `isEqual` over both sets. It ends with the first one. -/
def sameElements : List (BitVec 64) → List (BitVec 64) → Bool
  | [], _ => true
  | _ :: _, [] => false
  | x :: xs, y :: ys => if x ≠ y then false else sameElements xs ys

def isEqual (p other : Pslice) : Bool :=
  if p.ptraceSet.length ≠ other.ptraceSet.length then false else sameElements p.ptraceSet other.ptraceSet

end Pslice

/-! ## The constructor of slices -/

/-- The places of one delinquent PC. The last two members are not in the source: they log the
traces completed and count the ones discarded. -/
structure Track where
  delinqPC : BitVec 64
  currentIter : BitVec 32
  active : Option Pslice
  all : List Pslice
  completed : List (List ExecIns)
  discarded : ℕ

namespace Track

def init (pc : BitVec 64) : Track := ⟨pc, 0, none, [], [], 0⟩

/-- The first loop: the slice that is collected gets the instruction. -/
def insertInst (ins : ExecIns) (t : Track) : Track := { t with active := t.active.map (·.insertInst ins) }

/-- The second loop: a slice that is too long is discarded. -/
def discard (t : Track) : Track :=
  match t.active with
  | none => t
  | some p => if p.size > PSLICE_MAX_SIZE then { t with active := none, discarded := t.discarded + 1 } else t

/-- A completed slice counts for the one recorded that is equal, or is recorded itself. -/
def record : List Pslice → Pslice → List Pslice
  | [], p => [p]
  | q :: qs, p => if q.isEqual p then { q with frequency := q.frequency + 1 } :: qs else q :: record qs p

/-- The slice that is collected is wrapped up. -/
def wrapUp (t : Track) : Track :=
  match t.active with
  | none => t
  | some p => { t with all := record t.all p, active := none, completed := t.completed ++ [p.ptrace] }

/-- The third loop: an occurrence of the PC wraps up a slice and begins one. -/
def occurrence (ins : ExecIns) (t : Track) : Track :=
  if t.delinqPC = ins.PC then
    let t := { t with currentIter := t.currentIter + 1 }.wrapUp
    { t with active := some (.new ins.PC t.currentIter) }
  else t

end Track

def recieveInstruction (s : List Track) (ins : ExecIns) : List Track :=
  ((s.map (Track.insertInst ins)).map Track.discard).map (Track.occurrence ins)

/-- The tracks after a stream of instructions. -/
def slices (pcs : List (BitVec 64)) (is : List ExecIns) : List Track :=
  is.foldl recieveInstruction (pcs.map Track.init)

/-! ## The traces of a stream -/

def occurrences (pc : BitVec 64) (is : List ExecIns) : ℕ := is.countP fun i => i.PC = pc

/-- The instructions after the last occurrence of a PC. -/
def after (pc : BitVec 64) (is : List ExecIns) : List ExecIns :=
  (is.reverse.takeWhile fun i => i.PC ≠ pc).reverse

/-- The trace of every occurrence but the first one: the instructions after the occurrence before
it, up to and including itself. -/
def tracesOf (pc : BitVec 64) (is : List ExecIns) : List (List ExecIns) :=
  (List.range is.length).filterMap fun n =>
    is[n]?.bind fun i =>
      if i.PC = pc ∧ 0 < occurrences pc (is.take n) then some (after pc (is.take n) ++ [i]) else none

/-- The number of slices that are being collected. -/
def Track.collecting (t : Track) : ℕ := if t.active.isSome then 1 else 0

/-- **What a track says of the instructions so far.** All occurrences are accounted for by the
recorded frequencies, the traces discarded and the one collected, in the 32 bits that the
frequencies have, so exactly for fewer than `2^32` occurrences. No two recorded slices are equal.
The traces completed are the traces of the stream within the limit, and the one collected is
what came after the last occurrence. -/
structure Sliced (is : List ExecIns) (t : Track) : Prop where
  seen : t.currentIter = BitVec.ofNat 32 (occurrences t.delinqPC is)
  account : BitVec.ofNat 32 (occurrences t.delinqPC is) =
    (t.all.map (·.frequency)).sum + BitVec.ofNat 32 (t.discarded + t.collecting)
  exact : occurrences t.delinqPC is < 2 ^ 32 →
    occurrences t.delinqPC is = (t.all.map (·.frequency.toNat)).sum + t.discarded + t.collecting
  distinct : t.all.Pairwise fun p q => p.isEqual q = false ∧ q.isEqual p = false
  completed : t.completed = (tracesOf t.delinqPC is).filter fun l => l.length ≤ PSLICE_MAX_SIZE
  collected : ∀ p, t.active = some p →
    0 < occurrences t.delinqPC is ∧ p.ptrace = after t.delinqPC is ∧ p.ptrace.length ≤ PSLICE_MAX_SIZE
  given_up : t.active = none →
    occurrences t.delinqPC is = 0 ∨ PSLICE_MAX_SIZE < (after t.delinqPC is).length

/-! ## Streams, one instruction longer -/

variable {pc : BitVec 64} {is : List ExecIns} {i : ExecIns} {t : Track} {p : Pslice}

theorem occurrences_concat : occurrences pc (is ++ [i]) = occurrences pc is + if i.PC = pc then 1 else 0 := by
  simp [occurrences, List.countP_append, List.countP_singleton]

theorem after_concat : after pc (is ++ [i]) = if i.PC = pc then [] else after pc is ++ [i] := by
  unfold after
  rw [List.reverse_append]
  simp only [List.reverse_singleton, List.singleton_append, List.takeWhile_cons]
  split <;> rename_i h <;> simp_all

theorem tracesOf_concat : tracesOf pc (is ++ [i]) =
    tracesOf pc is ++ if i.PC = pc ∧ 0 < occurrences pc is then [after pc is ++ [i]] else [] := by
  unfold tracesOf
  rw [List.length_append, List.length_singleton, List.range_succ, List.filterMap_append]
  congr 1
  · refine List.filterMap_congr fun n hn => ?_
    have hlt : n < is.length := List.mem_range.1 hn
    rw [List.getElem?_append_left hlt, List.take_append_of_le_length (Nat.le_of_lt hlt)]
  · simp only [List.filterMap_cons, List.filterMap_nil]
    rw [List.getElem?_concat_length, List.take_left]
    simp only [Option.bind_some]
    split <;> simp_all

/-! ## Sets of PCs -/

theorem Pslice.sameElements_iff {xs ys : List (BitVec 64)} (h : xs.length = ys.length) :
    sameElements xs ys = true ↔ xs = ys := by
  induction xs generalizing ys with
  | nil => simp [sameElements, List.length_eq_zero_iff.1 h.symm]
  | cons x xs ih =>
    cases ys with
    | nil => simp at h
    | cons y ys =>
      have hl : xs.length = ys.length := by simpa using h
      by_cases hxy : x = y <;> simp [sameElements, hxy, ih hl]

/-- **Two slices are equal when their sets of PCs are.** -/
theorem Pslice.isEqual_iff {p q : Pslice} : p.isEqual q = true ↔ p.ptraceSet = q.ptraceSet := by
  unfold isEqual
  split
  · rename_i h
    exact iff_of_false (by simp) fun e => h (congrArg List.length e)
  · rename_i h
    exact sameElements_iff (not_not.1 h)

theorem Pslice.isEqual_comm {p q : Pslice} : p.isEqual q = q.isEqual p := by
  rw [Bool.eq_iff_iff, isEqual_iff, isEqual_iff, eq_comm]

/-! ## Recording -/

variable {l : List Pslice}

theorem record_sum (hp : p.frequency = 1) :
    ((Track.record l p).map (·.frequency)).sum = (l.map (·.frequency)).sum + 1 := by
  induction l with
  | nil => simp [Track.record, hp]
  | cons q l ih =>
    unfold Track.record
    split
    · simp only [List.map_cons, List.sum_cons]
      ac_rfl
    · simp only [List.map_cons, List.sum_cons, ih]
      ac_rfl

theorem record_toNat_le (hp : p.frequency = 1) :
    ((Track.record l p).map (·.frequency.toNat)).sum ≤ (l.map (·.frequency.toNat)).sum + 1 := by
  induction l with
  | nil => simp [Track.record, hp]
  | cons q l ih =>
    unfold Track.record
    split
    · have hle : (q.frequency + 1).toNat ≤ q.frequency.toNat + 1 := by
        rw [BitVec.toNat_add]
        exact Nat.mod_le _ _
      simp only [List.map_cons, List.sum_cons]
      omega
    · simp only [List.map_cons, List.sum_cons]
      omega

/-- A slice is recorded when no slice with its set of PCs is. -/
theorem record_sets : (Track.record l p).map (·.ptraceSet) =
    if p.ptraceSet ∈ l.map (·.ptraceSet) then l.map (·.ptraceSet) else l.map (·.ptraceSet) ++ [p.ptraceSet] := by
  induction l with
  | nil => rfl
  | cons q l ih =>
    unfold Track.record
    split
    · rename_i h
      rw [if_pos (by simp [Pslice.isEqual_iff.1 h])]
      rfl
    · rename_i h
      have hne : p.ptraceSet ≠ q.ptraceSet := fun e => h (Pslice.isEqual_iff.2 e.symm)
      simp only [List.map_cons, ih, List.mem_cons, hne, false_or]
      split <;> rfl

theorem distinct_iff : (l.Pairwise fun p q => p.isEqual q = false ∧ q.isEqual p = false) ↔
    (l.map (·.ptraceSet)).Nodup := by
  rw [List.Nodup, List.pairwise_map]
  refine List.Pairwise.iff fun p q => ?_
  rw [Pslice.isEqual_comm (p := q), and_self, ← Bool.not_eq_true, Pslice.isEqual_iff]

theorem record_nodup (h : (l.map (·.ptraceSet)).Nodup) : ((Track.record l p).map (·.ptraceSet)).Nodup := by
  rw [record_sets]
  split
  · exact h
  · rename_i hn
    exact List.Nodup.append h (List.nodup_singleton _) (by simpa using hn)

/-- The frequencies as machine words and as numbers. -/
theorem toNat_sum (l : List Pslice) :
    (l.map Pslice.frequency).sum.toNat = (l.map (·.frequency.toNat)).sum % 2 ^ 32 := by
  induction l with
  | nil => rfl
  | cons q l ih =>
    rw [List.map_cons, List.map_cons, List.sum_cons, List.sum_cons, BitVec.toNat_add, ih, Nat.add_mod_mod]

/-! ## One instruction -/

/-- The three loops, at one PC. -/
def Track.step (t : Track) (ins : ExecIns) : Track := ((t.insertInst ins).discard).occurrence ins

/-- What holds of a track all along, where `tail` is what the slice that is collected holds. -/
structure Booked (is tail : List ExecIns) (t : Track) : Prop where
  seen : t.currentIter = BitVec.ofNat 32 (occurrences t.delinqPC is)
  count : occurrences t.delinqPC is = t.completed.length + t.discarded + t.collecting
  freqs : (t.all.map Pslice.frequency).sum = BitVec.ofNat 32 t.completed.length
  few : (t.all.map (·.frequency.toNat)).sum ≤ t.completed.length
  distinct : (t.all.map Pslice.ptraceSet).Nodup
  completed : t.completed = (tracesOf t.delinqPC is).filter fun l => l.length ≤ PSLICE_MAX_SIZE
  collected : ∀ p, t.active = some p →
    0 < occurrences t.delinqPC is ∧ p.ptrace = tail ∧ p.ptrace.length ≤ PSLICE_MAX_SIZE ∧ p.frequency = 1
  given_up : t.active = none → occurrences t.delinqPC is = 0 ∨ PSLICE_MAX_SIZE < tail.length

theorem Booked.init (pc : BitVec 64) : Booked [] [] (.init pc) where
  seen := rfl
  count := rfl
  freqs := rfl
  few := Nat.le_refl 0
  distinct := List.nodup_nil
  completed := rfl
  collected p hp := by cases hp
  given_up _ := .inl rfl

variable {tail : List ExecIns}

/-- The first two loops: the trace gets the instruction, or is given up. -/
theorem Booked.insert (h : Booked is tail t) (i : ExecIns) : Booked is (tail ++ [i]) (t.insertInst i).discard := by
  have hcount := h.count
  cases ha : t.active with
  | none =>
    have heq : (t.insertInst i).discard = t := by
      have hins : t.insertInst i = t := by
        unfold Track.insertInst
        rw [ha]
        exact congrArg (fun a => { t with active := a }) ha.symm
      rw [hins]
      simp [Track.discard, ha]
    rw [heq]
    refine { h with collected := fun p hp => by simp [ha] at hp, given_up := fun hn => ?_ }
    rw [List.length_append]
    exact (h.given_up hn).imp_right fun hlt => Nat.lt_add_right _ hlt
  | some p =>
    obtain ⟨hocc, htrace, hlen, hfreq⟩ := h.collected p ha
    by_cases hsize : (p.insertInst i).size > PSLICE_MAX_SIZE
    · have heq : (t.insertInst i).discard = { t with active := none, discarded := t.discarded + 1 } := by
        simp [Track.insertInst, Track.discard, ha, hsize]
      rw [heq]
      refine { h with count := ?_, collected := fun p hp => (by simp at hp), given_up := fun _ => .inr ?_ }
      · simp only [Track.collecting, ha, Option.isSome_some, Option.isSome_none, if_true] at hcount ⊢
        simp only [Bool.false_eq_true, if_false]
        omega
      · rw [← htrace]
        exact hsize
    · have heq : (t.insertInst i).discard = { t with active := some (p.insertInst i) } := by
        simp [Track.insertInst, Track.discard, ha, hsize]
      rw [heq]
      refine { h with count := ?_, collected := ?_, given_up := fun hn => (by simp at hn) }
      · simpa [Track.collecting, ha] using hcount
      · intro q hq
        obtain rfl := Option.some.inj hq
        exact ⟨hocc, by rw [← htrace]; rfl, Nat.not_lt.1 hsize, hfreq⟩

/-- Wrapping up, at an occurrence: the trace is completed if it was not given up. -/
theorem Booked.wrapUp (h : Booked is (after t.delinqPC is ++ [i]) t) (hpc : i.PC = t.delinqPC) :
    t.wrapUp.completed = (tracesOf t.delinqPC (is ++ [i])).filter (fun l => l.length ≤ PSLICE_MAX_SIZE) ∧
      occurrences t.delinqPC is = t.wrapUp.completed.length + t.wrapUp.discarded ∧
      (t.wrapUp.all.map Pslice.frequency).sum = BitVec.ofNat 32 t.wrapUp.completed.length ∧
      (t.wrapUp.all.map (·.frequency.toNat)).sum ≤ t.wrapUp.completed.length ∧
      (t.wrapUp.all.map Pslice.ptraceSet).Nodup := by
  have hcount := h.count
  rw [tracesOf_concat, List.filter_append, ← h.completed]
  cases ha : t.active with
  | none =>
    have heq : t.wrapUp = t := by simp [Track.wrapUp, ha]
    rw [heq]
    refine ⟨?_, ?_, h.freqs, h.few, h.distinct⟩
    · rcases h.given_up ha with h0 | hlong
      · simp [h0]
      · have hfilter : ([after t.delinqPC is ++ [i]].filter fun l => l.length ≤ PSLICE_MAX_SIZE) = [] := by
          simpa using hlong
        split <;> simp_all
    · simpa [Track.collecting, ha] using hcount
  | some p =>
    obtain ⟨hocc, htrace, hlen, hfreq⟩ := h.collected p ha
    have heq : t.wrapUp =
        { t with all := Track.record t.all p, active := none, completed := t.completed ++ [p.ptrace] } := by
      simp [Track.wrapUp, ha]
    rw [heq]
    refine ⟨?_, ?_, ?_, ?_, record_nodup h.distinct⟩
    · rw [if_pos ⟨hpc, hocc⟩, ← htrace]
      simp [hlen]
    · simp only [Track.collecting, ha, Option.isSome_some, if_true, List.length_append, List.length_singleton] at hcount ⊢
      omega
    · simp only [record_sum hfreq, h.freqs, List.length_append, List.length_singleton]
      rw [BitVec.ofNat_add]
      rfl
    · simp only [List.length_append, List.length_singleton]
      exact Nat.le_trans (record_toNat_le hfreq) (Nat.add_le_add_right h.few 1)

/-- The third loop. -/
theorem Booked.occurrence (h : Booked is (after t.delinqPC is ++ [i]) t) :
    Booked (is ++ [i]) (after t.delinqPC (is ++ [i])) (t.occurrence i) := by
  by_cases hpc : t.delinqPC = i.PC
  · -- the slice that was collected is booked, and the next one begins empty
    obtain ⟨hcompleted, hcount, hfreqs, hfew, hdistinct⟩ := h.wrapUp hpc.symm
    have heq : t.occurrence i =
        { t.wrapUp with currentIter := t.currentIter + 1, active := some (.new i.PC (t.currentIter + 1)) } := by
      unfold Track.occurrence Track.wrapUp
      rw [if_pos hpc]
      cases t.active <;> rfl
    have hsame : t.wrapUp.delinqPC = t.delinqPC := by
      unfold Track.wrapUp
      split <;> rfl
    have hocc : occurrences t.delinqPC (is ++ [i]) = occurrences t.delinqPC is + 1 := by
      rw [occurrences_concat, if_pos hpc.symm]
    have hafter : after t.delinqPC (is ++ [i]) = [] := by rw [after_concat, if_pos hpc.symm]
    rw [heq, hafter]
    constructor
    · simp only [hsame, hocc, h.seen]
      rw [BitVec.ofNat_add]
      rfl
    · simp only [hsame, hocc, hcount, Track.collecting]
      rfl
    · exact hfreqs
    · exact hfew
    · exact hdistinct
    · simpa only [hsame] using hcompleted
    · intro p hp
      obtain rfl := Option.some.inj hp
      simp only [hsame, hocc]
      exact ⟨Nat.succ_pos _, rfl, Nat.zero_le _, rfl⟩
    · intro hn
      cases hn
  · have hne : i.PC ≠ t.delinqPC := fun e => hpc e.symm
    have heq : t.occurrence i = t := if_neg hpc
    have hocc : occurrences t.delinqPC (is ++ [i]) = occurrences t.delinqPC is := by
      rw [occurrences_concat, if_neg hne, Nat.add_zero]
    have htraces : tracesOf t.delinqPC (is ++ [i]) = tracesOf t.delinqPC is := by
      rw [tracesOf_concat, if_neg fun hc => hne hc.1, List.append_nil]
    have hafter : after t.delinqPC (is ++ [i]) = after t.delinqPC is ++ [i] := by rw [after_concat, if_neg hne]
    rw [heq, hafter]
    exact
      { h with
        seen := by rw [hocc]; exact h.seen
        count := by rw [hocc]; exact h.count
        completed := by rw [htraces]; exact h.completed
        collected := by rw [hocc]; exact h.collected
        given_up := by rw [hocc]; exact h.given_up }

theorem delinqPC_step : (t.step i).delinqPC = t.delinqPC := by
  unfold Track.step Track.occurrence Track.wrapUp Track.discard Track.insertInst
  repeat' split
  all_goals rfl

theorem Booked.step (h : Booked is (after t.delinqPC is) t) (i : ExecIns) :
    Booked (is ++ [i]) (after (t.step i).delinqPC (is ++ [i])) (t.step i) := by
  have hsame : (t.insertInst i).discard.delinqPC = t.delinqPC := by
    unfold Track.discard Track.insertInst
    repeat' split
    all_goals rfl
  have hins := h.insert i
  rw [← hsame] at hins
  rw [delinqPC_step, ← hsame]
  exact hins.occurrence

/-! ## Streams of instructions -/

/-- The loops over the PCs do not mix them. -/
theorem slices_eq (pcs : List (BitVec 64)) (is : List ExecIns) :
    slices pcs is = pcs.map fun pc => is.foldl Track.step (.init pc) := by
  induction is using List.reverseRecOn with
  | nil => rfl
  | append_singleton is i ih =>
    unfold slices at ih ⊢
    rw [List.foldl_append, ih]
    simp [recieveInstruction, Track.step]

theorem booked_foldl (pc : BitVec 64) (is : List ExecIns) :
    Booked is (after (is.foldl Track.step (.init pc)).delinqPC is) (is.foldl Track.step (.init pc)) := by
  induction is using List.reverseRecOn with
  | nil => exact .init pc
  | append_singleton is i ih =>
    rw [List.foldl_append]
    exact ih.step i

theorem Booked.sliced (h : Booked is (after t.delinqPC is) t) : Sliced is t where
  seen := h.seen
  account := by
    rw [h.count, h.freqs, Nat.add_assoc, BitVec.ofNat_add]
  exact hlt := by
    have hcount := h.count
    have hfew := h.few
    have hsum := toNat_sum t.all
    rw [h.freqs, BitVec.toNat_ofNat] at hsum
    omega
  distinct := distinct_iff.2 h.distinct
  completed := h.completed
  collected p hp := ⟨(h.collected p hp).1, (h.collected p hp).2.1, (h.collected p hp).2.2.1⟩
  given_up := h.given_up

/-- **Slice construction over whole streams.** For every list of delinquent PCs and every stream
of instructions there is a track for each PC, which says what it should of the stream. -/
theorem slices_account (pcs : List (BitVec 64)) (is : List ExecIns) :
    (slices pcs is).map Track.delinqPC = pcs ∧ ∀ t ∈ slices pcs is, Sliced is t := by
  have hpc : ∀ pc, (is.foldl Track.step (.init pc)).delinqPC = pc := by
    intro pc
    induction is using List.reverseRecOn with
    | nil => rfl
    | append_singleton is i ih => rw [List.foldl_append, List.foldl_cons, List.foldl_nil, delinqPC_step, ih]
  rw [slices_eq]
  refine ⟨?_, fun t ht => ?_⟩
  · simp [Function.comp_def, hpc]
  · obtain ⟨pc, _, rfl⟩ := List.mem_map.1 ht
    exact (booked_foldl pc is).sliced

/-- What is left when a delinquent load runs `n + 1` times in a row. -/
structure Repeated (n : ℕ) (t : Track) : Prop where
  one : n = 0 ∧ t.all = [] ∨
    ∃ q, t.all = [q] ∧ q.ptraceSet = [t.delinqPC] ∧ q.frequency = BitVec.ofNat 32 n
  active : ∃ p, t.active = some p ∧ p.ptrace = [] ∧ p.ptraceSet = [] ∧ p.frequency = 1
  discarded : t.discarded = 0

theorem Repeated.step {n : ℕ} (h : Repeated n t) (hpc : t.delinqPC = i.PC) : Repeated (n + 1) (t.step i) := by
  obtain ⟨p, ha, htrace, hset, hfreq⟩ := h.active
  have hsize : ¬(p.insertInst i).size > PSLICE_MAX_SIZE := by
    simp [Pslice.insertInst, Pslice.size, htrace, PSLICE_MAX_SIZE]
  have hset' : (p.insertInst i).ptraceSet = [t.delinqPC] := by
    simp [Pslice.insertInst, hset, setInsert, hpc]
  have heq : t.step i = { t with
      currentIter := t.currentIter + 1, all := Track.record t.all (p.insertInst i),
      active := some (.new i.PC (t.currentIter + 1)), completed := t.completed ++ [(p.insertInst i).ptrace] } := by
    simp [Track.step, Track.insertInst, Track.discard, Track.occurrence, Track.wrapUp, ha, hsize, hpc]
  rw [heq]
  refine ⟨.inr ?_, ⟨_, rfl, rfl, rfl, rfl⟩, h.discarded⟩
  rcases h.one with ⟨rfl, hall⟩ | ⟨q, hall, hq, hqf⟩
  · exact ⟨p.insertInst i, by simp [hall, Track.record], hset', hfreq⟩
  · refine ⟨{ q with frequency := q.frequency + 1 }, ?_, hq, ?_⟩
    · simp [hall, Track.record, Pslice.isEqual_iff, hq, hset']
    · simp only [hqf]
      rw [BitVec.ofNat_add]
      rfl

theorem repeated_replicate (i : ExecIns) (n : ℕ) :
    Repeated n ((List.replicate (n + 1) i).foldl Track.step (.init i.PC)) := by
  induction n with
  | zero =>
    have heq : [i].foldl Track.step (.init i.PC) = { Track.init i.PC with currentIter := 1, active := some (.new i.PC 1) } := by
      simp [Track.step, Track.insertInst, Track.discard, Track.occurrence, Track.wrapUp, Track.init]
    exact heq ▸ ⟨.inl ⟨rfl, rfl⟩, ⟨_, rfl, rfl, rfl, rfl⟩, rfl⟩
  | succ n ih =>
    rw [List.replicate_succ', List.foldl_append]
    refine ih.step ?_
    have hpcs := (slices_account [i.PC] (List.replicate (n + 1) i)).1
    rw [slices_eq] at hpcs
    simpa using hpcs

/-- The frequency is a 32-bit number. When it wraps, only the slice being collected is accounted for. -/
theorem Repeated.sum_eq_one {n : ℕ} (h : Repeated n t) (hn : BitVec.ofNat 32 n = 0) :
    (t.all.map (·.frequency.toNat)).sum + t.discarded + t.collecting = 1 := by
  obtain ⟨p, ha, -⟩ := h.active
  rcases h.one with ⟨-, hall⟩ | ⟨q, hall, -, hq⟩
  · simp [hall, h.discarded, Track.collecting, ha]
  · simp [hall, h.discarded, Track.collecting, ha, hq, hn]

/-- After `n + 1` occurrences in a row only one is accounted for, if the frequency `n` wraps to 0. -/
theorem not_accounted {n : ℕ} (hn : BitVec.ofNat 32 n = 0) (hpos : 0 < n) (i : ExecIns) :
    ∃ t ∈ slices [i.PC] (List.replicate (n + 1) i), occurrences i.PC (List.replicate (n + 1) i) ≠
      (t.all.map (·.frequency.toNat)).sum + t.discarded + t.collecting := by
  have hocc : occurrences i.PC (List.replicate (n + 1) i) = n + 1 := by
    unfold occurrences
    rw [List.countP_replicate, decide_eq_true rfl, if_pos rfl]
  refine ⟨_, by rw [slices_eq]; exact List.mem_singleton_self _, ?_⟩
  rw [hocc]
  refine ne_of_ne_of_eq ?_ ((repeated_replicate i n).sum_eq_one hn).symm
  omega

/-- A delinquent load that runs `2^32 + 1` times in a row completes `2^32` equal traces, which are
recorded with frequency 0. -/
theorem slices_account_wraps :
    ∃ t ∈ slices [(default : ExecIns).PC] (List.replicate (2 ^ 32 + 1) default),
      occurrences (default : ExecIns).PC (List.replicate (2 ^ 32 + 1) default) ≠
        (t.all.map (·.frequency.toNat)).sum + t.discarded + t.collecting :=
  not_accounted (by decide) (by decide) default

end Esesc.Emul
