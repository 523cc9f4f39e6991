import Mathlib.Data.List.Basic
import Mathlib.Tactic.Common

/-!
# Definitions and uses in a trace

An instruction of a trace uses registers, each with the value it had there, and writes one register
or none. A use depends on the latest earlier instruction that writes its register, and on nothing in
the trace if there is none: then its value comes from outside.

* `firstUse_eq_some`: the first use of a register that nothing has written before.
* `InSlice`: the instructions that the last one depends on, along uses and latest writes.
* `backward_inSlice`: one pass from the end with a set of registers finds them.
* `firstUse_slice_eq_some`: what the slice takes from outside is what the trace had there.
-/

namespace Esesc.Lib

section DefUse

variable {ι R V : Type*} (uses : ι → R → Option V) (dst : ι → Option R)

/-- The value of the first use of a register, if no instruction before it writes the register. -/
def firstUse [DecidableEq R] : List ι → R → Option V
  | [], _ => none
  | i :: is, r =>
    match uses i r with
    | some v => some v
    | none => if dst i = some r then none else firstUse is r

/-- The instruction at a position writes a register. -/
def Writes (t : List ι) (n : ℕ) (r : R) : Prop := ∃ i, t[n]? = some i ∧ dst i = some r

/-- The latest write of a register before a position. -/
structure LatestWrite (t : List ι) (r : R) (n m : ℕ) : Prop where
  lt : m < n
  writes : Writes dst t m r
  latest : ∀ k, m < k → k < n → ¬Writes dst t k r

/-- **The slice of the last instruction**: itself, and with an instruction the latest earlier writes
of the registers it uses. -/
inductive InSlice (t : List ι) : ℕ → Prop
  | last (n : ℕ) (h : n + 1 = t.length) : InSlice t n
  | dep (n m : ℕ) (i : ι) (r : R) (hn : InSlice t n) (hi : t[n]? = some i) (hr : (uses i r).isSome)
      (hm : LatestWrite dst t r n m) : InSlice t m

/-- The registers whose writers are still to come, and the slice so far. -/
structure Backward (ι R : Type*) where
  needed : R → Bool
  slice : List ι

namespace Backward

def start (i : ι) : Backward ι R := ⟨fun r => (uses i r).isSome, [i]⟩

/-- An instruction that writes a needed register comes into the slice. -/
def step [DecidableEq R] (i : ι) (b : Backward ι R) : Backward ι R :=
  match dst i with
  | none => b
  | some d => if b.needed d then ⟨fun r => (uses i r).isSome || (r ≠ d && b.needed r), i :: b.slice⟩ else b

end Backward

/-- The pass from the end of a trace whose last instruction is `i`. -/
def backward [DecidableEq R] (is : List ι) (i : ι) : Backward ι R :=
  is.foldr (Backward.step uses dst) (Backward.start uses i)

variable {uses dst} {is t : List ι} {i : ι} {r : R} {v : V} {n m p : ℕ}

/-! ## First uses -/

section FirstUse

variable [DecidableEq R]

theorem firstUse_cons_of_some (h : uses i r = some v) : firstUse uses dst (i :: is) r = some v := by
  simp [firstUse, h]

theorem firstUse_cons_of_none (h : uses i r = none) :
    firstUse uses dst (i :: is) r = if dst i = some r then none else firstUse uses dst is r := by
  simp [firstUse, h]

/-- **The first use**, by what comes before it. -/
theorem firstUse_eq_some : firstUse uses dst is r = some v ↔ ∃ pre i post, is = pre ++ i :: post ∧
    uses i r = some v ∧ ∀ j ∈ pre, uses j r = none ∧ dst j ≠ some r := by
  induction is with
  | nil => simp [firstUse]
  | cons i is ih =>
    cases hu : uses i r with
    | some w =>
      rw [firstUse_cons_of_some hu]
      constructor
      · intro h
        exact ⟨[], i, is, rfl, hu.trans h, by simp⟩
      · rintro ⟨pre, j, post, heq, hj, hpre⟩
        cases pre with
        | nil =>
          obtain ⟨rfl, -⟩ := List.cons.inj heq
          rw [← hu, hj]
        | cons k pre =>
          obtain ⟨rfl, -⟩ := List.cons.inj heq
          have hnone := (hpre i (List.mem_cons_self ..)).1
          rw [hu] at hnone
          cases hnone
    | none =>
      rw [firstUse_cons_of_none hu]
      constructor
      · intro h
        split at h
        · cases h
        · rename_i hd
          obtain ⟨pre, j, post, rfl, hj, hpre⟩ := ih.1 h
          refine ⟨i :: pre, j, post, rfl, hj, fun k hk => ?_⟩
          rcases List.mem_cons.1 hk with rfl | hk
          · exact ⟨hu, hd⟩
          · exact hpre k hk
      · rintro ⟨pre, j, post, heq, hj, hpre⟩
        cases pre with
        | nil =>
          obtain ⟨rfl, -⟩ := List.cons.inj heq
          rw [hu] at hj
          cases hj
        | cons k pre =>
          obtain ⟨rfl, rfl⟩ := List.cons.inj heq
          rw [if_neg (hpre i (List.mem_cons_self ..)).2]
          exact ih.2 ⟨pre, j, post, rfl, hj, fun k hk => hpre k (List.mem_cons_of_mem i hk)⟩

/-- A register has a first use when some instruction uses it before any writes it. -/
theorem firstUse_isSome : (firstUse uses dst is r).isSome ↔ ∃ pre i post, is = pre ++ i :: post ∧
    (uses i r).isSome ∧ ∀ j ∈ pre, dst j ≠ some r := by
  constructor
  · intro h
    obtain ⟨v, hv⟩ := Option.isSome_iff_exists.1 h
    obtain ⟨pre, i, post, heq, hi, hpre⟩ := firstUse_eq_some.1 hv
    exact ⟨pre, i, post, heq, by rw [hi]; rfl, fun j hj => (hpre j hj).2⟩
  · rintro ⟨pre, i, post, rfl, hi, hpre⟩
    induction pre with
    | nil =>
      obtain ⟨v, hv⟩ := Option.isSome_iff_exists.1 hi
      rw [List.nil_append, firstUse_cons_of_some hv]
      rfl
    | cons k pre ih =>
      rw [List.cons_append]
      cases hk : uses k r with
      | some v =>
        rw [firstUse_cons_of_some hk]
        rfl
      | none =>
        rw [firstUse_cons_of_none hk, if_neg (hpre k (List.mem_cons_self ..))]
        exact ih fun j hj => hpre j (List.mem_cons_of_mem k hj)

end FirstUse

/-! ## The pass from the end -/

/-- A register is needed before position `p`: the slice uses it from there on, and nothing writes it
in between. -/
def Needed (uses : ι → R → Option V) (dst : ι → Option R) (t : List ι) (p : ℕ) (r : R) : Prop :=
  ∃ j i, p ≤ j ∧ InSlice uses dst t j ∧ t[j]? = some i ∧ (uses i r).isSome ∧ ∀ k, p ≤ k → k < j → ¬Writes dst t k r

theorem inSlice_iff : InSlice uses dst t p ↔
    p + 1 = t.length ∨ ∃ r, Writes dst t p r ∧ Needed uses dst t (p + 1) r := by
  constructor
  · intro h
    cases h with
    | last _ h => exact .inl h
    | dep n _ i r hn hi hr hm => exact .inr ⟨r, hm.writes, n, i, hm.lt, hn, hi, hr, hm.latest⟩
  · rintro (h | ⟨r, hw, n, i, hlt, hn, hi, hr, hlatest⟩)
    · exact .last p h
    · exact .dep n p i r hn hi hr ⟨hlt, hw, hlatest⟩

theorem needed_iff (hi : t[p]? = some i) : Needed uses dst t p r ↔
    InSlice uses dst t p ∧ (uses i r).isSome ∨ dst i ≠ some r ∧ Needed uses dst t (p + 1) r := by
  have hw : Writes dst t p r ↔ dst i = some r := by
    constructor
    · rintro ⟨j, hj, hd⟩
      rw [hi] at hj
      obtain rfl := Option.some.inj hj
      exact hd
    · exact fun hd => ⟨i, hi, hd⟩
  constructor
  · rintro ⟨j, k, hle, hj, hk, hr, hno⟩
    rcases Nat.eq_or_lt_of_le hle with rfl | hlt
    · rw [hi] at hk
      obtain rfl := Option.some.inj hk
      exact .inl ⟨hj, hr⟩
    · refine .inr ⟨fun hd => hno p (Nat.le_refl p) hlt (hw.2 hd), j, k, hlt, hj, hk, hr, ?_⟩
      exact fun q hq hqj => hno q (by omega) hqj
  · rintro (⟨hp, hr⟩ | ⟨hd, j, k, hlt, hj, hk, hr, hno⟩)
    · exact ⟨p, i, Nat.le_refl p, hp, hi, hr, fun k h1 h2 => absurd h2 (by omega)⟩
    · refine ⟨j, k, by omega, hj, hk, hr, fun q hq hqj => ?_⟩
      rcases Nat.eq_or_lt_of_le hq with rfl | hlt'
      · exact fun h => hd (hw.1 h)
      · exact hno q hlt' hqj

/-- A list of instructions is the slice of a trace from a position on. -/
structure SliceFrom (uses : ι → R → Option V) (dst : ι → Option R) (t : List ι) (p : ℕ) (l : List ι) (ps : List ℕ) : Prop where
  increasing : ps.Pairwise (· < ·)
  positions : ∀ n, n ∈ ps ↔ p ≤ n ∧ InSlice uses dst t n
  instructions : l.map some = ps.map (t[·]?)

/-- What the pass knows at position `p`. -/
structure Backward.Inv (uses : ι → R → Option V) (dst : ι → Option R) (t : List ι) (p : ℕ) (b : Backward ι R) : Prop where
  needed : ∀ r, b.needed r = true ↔ Needed uses dst t p r
  slice : ∃ ps, SliceFrom uses dst t p b.slice ps

theorem SliceFrom.skip {l : List ι} {ps : List ℕ} (h : SliceFrom uses dst t (p + 1) l ps)
    (hp : ¬InSlice uses dst t p) : SliceFrom uses dst t p l ps := by
  refine ⟨h.increasing, fun n => ?_, h.instructions⟩
  rw [h.positions]
  constructor
  · exact fun hn => ⟨by omega, hn.2⟩
  · rintro ⟨hle, hn⟩
    refine ⟨?_, hn⟩
    rcases Nat.eq_or_lt_of_le hle with rfl | hlt
    · exact absurd hn hp
    · exact hlt

theorem SliceFrom.cons {l : List ι} {ps : List ℕ} (h : SliceFrom uses dst t (p + 1) l ps)
    (hi : t[p]? = some i) (hp : InSlice uses dst t p) : SliceFrom uses dst t p (i :: l) (p :: ps) := by
  refine ⟨?_, fun n => ?_, ?_⟩
  · apply List.Pairwise.cons _ h.increasing
    exact fun n hn => ((h.positions n).1 hn).1
  · rw [List.mem_cons, h.positions]
    constructor
    · rintro (rfl | ⟨hle, hn⟩)
      · exact ⟨Nat.le_refl n, hp⟩
      · exact ⟨by omega, hn⟩
    · rintro ⟨hle, hn⟩
      rcases Nat.eq_or_lt_of_le hle with rfl | hlt
      · exact .inl rfl
      · exact .inr ⟨hlt, hn⟩
  · rw [List.map_cons, List.map_cons, h.instructions, hi]

/-- The pass begins with the last instruction. -/
theorem Backward.Inv.start (hi : t[p]? = some i) (hp : p + 1 = t.length) :
    Inv uses dst t p (Backward.start uses i) := by
  have hend : ∀ r, ¬Needed uses dst t (p + 1) r := by
    rintro r ⟨j, k, hle, -, hk, -⟩
    have hlt := (List.getElem?_eq_some_iff.1 hk).1
    omega
  have hin : InSlice uses dst t p := .last p hp
  constructor
  · intro r
    rw [needed_iff hi]
    simp [Backward.start, hin, hend]
  · have hnil : SliceFrom uses dst t (p + 1) [] [] := by
      refine ⟨.nil, fun n => ?_, rfl⟩
      refine ⟨fun h => (by cases h), fun ⟨hle, hn⟩ => ?_⟩
      exfalso
      rcases inSlice_iff.1 hn with h | ⟨r, ⟨j, hj, -⟩, -⟩
      · omega
      · have hlt := (List.getElem?_eq_some_iff.1 hj).1
        omega
    exact ⟨[p], hnil.cons hi hin⟩

/-- One instruction before. -/
theorem Backward.Inv.step [DecidableEq R] {b : Backward ι R} (h : Inv uses dst t (p + 1) b) (hi : t[p]? = some i)
    (hp : p + 1 < t.length) : Inv uses dst t p (b.step uses dst i) := by
  obtain ⟨ps, hps⟩ := h.slice
  have hin : InSlice uses dst t p ↔ ∃ d, dst i = some d ∧ b.needed d = true := by
    rw [inSlice_iff]
    constructor
    · rintro (hlen | ⟨r, ⟨j, hj, hd⟩, hr⟩)
      · omega
      · rw [hi] at hj
        obtain rfl := Option.some.inj hj
        exact ⟨r, hd, (h.needed r).2 hr⟩
    · rintro ⟨d, hd, hb⟩
      exact .inr ⟨d, ⟨i, hi, hd⟩, (h.needed d).1 hb⟩
  by_cases hs : InSlice uses dst t p
  · obtain ⟨d, hd, hb⟩ := hin.1 hs
    have heq : b.step uses dst i = ⟨fun r => (uses i r).isSome || (r ≠ d && b.needed r), i :: b.slice⟩ := by
      simp [Backward.step, hd, hb]
    rw [heq]
    constructor
    · intro r
      rw [needed_iff hi, ← h.needed r, hd]
      have hne : some d ≠ some r ↔ r ≠ d := by
        rw [Ne, Option.some.injEq, eq_comm]
      simp [hs, hne]
    · exact ⟨p :: ps, hps.cons hi hs⟩
  · have heq : b.step uses dst i = b := by
      unfold Backward.step
      cases hd : dst i with
      | none => rfl
      | some d => exact if_neg fun hb => hs (hin.2 ⟨d, hd, hb⟩)
    rw [heq]
    refine ⟨fun r => ?_, ps, hps.skip hs⟩
    rw [needed_iff hi, ← h.needed r]
    constructor
    · exact fun hr => .inr ⟨fun hd => hs (hin.2 ⟨r, hd, hr⟩), hr⟩
    · rintro (⟨hs', -⟩ | ⟨-, hr⟩)
      · exact absurd hs' hs
      · exact hr

theorem Backward.Inv.foldr [DecidableEq R] (suf pre : List ι) (i : ι) :
    Inv uses dst (pre ++ suf ++ [i]) pre.length (suf.foldr (Backward.step uses dst) (Backward.start uses i)) := by
  induction suf generalizing pre with
  | nil => exact Inv.start (by simp) (by simp)
  | cons j suf ih =>
    have hrest := ih (pre ++ [j])
    rw [List.append_assoc pre [j] suf, List.length_append, List.length_singleton, List.singleton_append] at hrest
    exact hrest.step (by simp) (by simp)

/-- **The pass finds the slice.** -/
theorem backward_inSlice [DecidableEq R] (is : List ι) (i : ι) :
    ∃ ps, SliceFrom uses dst (is ++ [i]) 0 (backward uses dst is i).slice ps :=
  (Backward.Inv.foldr is [] i).slice

/-! ## What the slice takes from outside -/

theorem exists_latest {P : ℕ → Prop} {k n : ℕ} (hk : P k) (hlt : k < n) :
    ∃ m, m < n ∧ P m ∧ ∀ j, m < j → j < n → ¬P j := by
  induction n with
  | zero => omega
  | succ n ih =>
    by_cases hn : P n
    · exact ⟨n, by omega, hn, fun j h1 h2 => by omega⟩
    · have hkn : k ≠ n := fun e => hn (e ▸ hk)
      obtain ⟨m, hm, hP, hlast⟩ := ih (by omega)
      refine ⟨m, by omega, hP, fun j h1 h2 => ?_⟩
      rcases Nat.eq_or_lt_of_le (Nat.le_of_lt_succ h2) with rfl | h
      · exact hn
      · exact hlast j h1 h

/-- A register that the slice uses and does not write before is not written before in the trace: the
latest write would be in the slice. -/
theorem InSlice.not_writes (hn : InSlice uses dst t n) (hi : t[n]? = some i) (hr : (uses i r).isSome)
    (hno : ∀ k, k < n → InSlice uses dst t k → ¬Writes dst t k r) : ∀ k, k < n → ¬Writes dst t k r := by
  intro k hk hw
  obtain ⟨m, hm, hwm, hlast⟩ := exists_latest (P := fun k => Writes dst t k r) hw hk
  exact hno m hm (.dep n m i r hn hi hr ⟨hm, hwm, hlast⟩) hwm

/-- The first use in a list of instructions, by their positions in a trace. -/
theorem firstUse_positions [DecidableEq R] {f : ℕ → Option ι} {l : List ι} {ps : List ℕ} (hps : ps.Pairwise (· < ·))
    (hl : l.map some = ps.map f) : firstUse uses dst l r = some v ↔ ∃ n i, n ∈ ps ∧ f n = some i ∧
      uses i r = some v ∧ ∀ k ∈ ps, k < n → ∀ j, f k = some j → uses j r = none ∧ dst j ≠ some r := by
  rw [firstUse_eq_some]
  constructor
  · rintro ⟨pre, i, post, rfl, hi, hpre⟩
    -- the positions are split where the instructions are
    rw [List.map_append, List.map_cons] at hl
    obtain ⟨before, rest, rfl, hbefore, hrest⟩ := List.map_eq_append_iff.1 hl.symm
    obtain ⟨n, after, rfl, hn, -⟩ := List.map_eq_cons_iff.1 hrest
    obtain ⟨-, hafter, -⟩ := List.pairwise_append.1 hps
    refine ⟨n, i, by simp, hn, hi, fun k hk hlt j hj => hpre j ?_⟩
    have hk : k ∈ before := by
      rcases List.mem_append.1 hk with hk | hk
      · exact hk
      · rcases List.mem_cons.1 hk with rfl | hk
        · omega
        · exact absurd ((List.pairwise_cons.1 hafter).1 k hk) (by omega)
    have hmem : some j ∈ pre.map some := by
      rw [← hbefore, ← hj]
      exact List.mem_map_of_mem hk
    simpa using hmem
  · rintro ⟨n, i, hn, hi, hv, hfirst⟩
    obtain ⟨before, after, rfl⟩ := List.append_of_mem hn
    rw [List.map_append, List.map_cons, hi] at hl
    obtain ⟨pre, rest, rfl, hpre, hrest⟩ := List.map_eq_append_iff.1 hl
    obtain ⟨i', post, rfl, hi', -⟩ := List.map_eq_cons_iff.1 hrest
    obtain rfl := Option.some.inj hi'
    refine ⟨pre, i', post, rfl, hv, fun j hj => ?_⟩
    have hmem : some j ∈ before.map f := by
      rw [← hpre]
      exact List.mem_map_of_mem hj
    obtain ⟨k, hk, hkj⟩ := List.mem_map.1 hmem
    have hlt : k < n := (List.pairwise_append.1 hps).2.2 k hk n (List.mem_cons_self ..)
    exact hfirst k (List.mem_append_left _ hk) hlt j hkj

/-- **What the slice takes from outside** is what the whole trace has there: the values of the
registers that the slice uses and that nothing in the trace has written before. -/
theorem firstUse_slice_eq_some [DecidableEq R] {l : List ι} {ps : List ℕ} (h : SliceFrom uses dst t 0 l ps) :
    firstUse uses dst l r = some v ↔ ∃ n i, InSlice uses dst t n ∧ t[n]? = some i ∧ uses i r = some v ∧
      (∀ k, k < n → ¬Writes dst t k r) ∧
      ∀ k, k < n → InSlice uses dst t k → ∀ j, t[k]? = some j → uses j r = none := by
  have hmem : ∀ n, n ∈ ps ↔ InSlice uses dst t n := by
    intro n
    rw [h.positions]
    exact and_iff_right (Nat.zero_le n)
  rw [firstUse_positions h.increasing h.instructions]
  constructor
  · rintro ⟨n, i, hn, hi, hv, hbefore⟩
    have hin := (hmem n).1 hn
    refine ⟨n, i, hin, hi, hv, hin.not_writes hi (by rw [hv]; rfl) ?_, ?_⟩
    · rintro k hk hkin ⟨j, hj, hd⟩
      exact (hbefore k ((hmem k).2 hkin) hk j hj).2 hd
    · exact fun k hk hkin j hj => (hbefore k ((hmem k).2 hkin) hk j hj).1
  · rintro ⟨n, i, hn, hi, hv, hno, hfirst⟩
    refine ⟨n, i, (hmem n).2 hn, hi, hv, fun k hk hlt j hj => ?_⟩
    exact ⟨hfirst k hlt ((hmem k).1 hk) j hj, fun hd => hno k hlt ⟨j, hj, hd⟩⟩

/-- A register that the slice takes from outside. -/
theorem firstUse_slice_isSome [DecidableEq R] {l : List ι} {ps : List ℕ} (h : SliceFrom uses dst t 0 l ps) :
    (firstUse uses dst l r).isSome ↔ ∃ n i, InSlice uses dst t n ∧ t[n]? = some i ∧ (uses i r).isSome ∧
      ∀ k, k < n → ¬Writes dst t k r := by
  constructor
  · intro hs
    obtain ⟨v, hv⟩ := Option.isSome_iff_exists.1 hs
    obtain ⟨n, i, hn, hi, hiv, hno, -⟩ := (firstUse_slice_eq_some h).1 hv
    exact ⟨n, i, hn, hi, by rw [hiv]; rfl, hno⟩
  · rintro ⟨n, i, hn, hi, hr, hno⟩
    -- an earlier use in the slice, if there is one, does as well
    induction n using Nat.strongRecOn generalizing i with
    | ind n ih =>
      by_cases hex : ∃ k j, k < n ∧ InSlice uses dst t k ∧ t[k]? = some j ∧ (uses j r).isSome
      · obtain ⟨k, j, hk, hkin, hj, hjr⟩ := hex
        exact ih k hk j hkin hj hjr fun q hq => hno q (by omega)
      · obtain ⟨v, hv⟩ := Option.isSome_iff_exists.1 hr
        rw [(firstUse_slice_eq_some h).2 ⟨n, i, hn, hi, hv, hno, fun k hk hkin j hj => ?_⟩]
        · rfl
        · rw [← Option.not_isSome_iff_eq_none]
          exact fun hjr => hex ⟨k, j, hk, hkin, hj, hjr⟩

end DefUse

end Esesc.Lib
