import Esesc.Core.DInst
import Mathlib.Tactic.FinCases
import Mathlib.Data.Fintype.Basic

/-!
# Dependence lists

An instruction waits in the window while one of its pend slots is in use, and a slot in use
is in the list of one instruction. The lists are drained only by `executed`, so what is
linked behind an instruction is not issued before that instruction has executed.

* `addSrc_insts`, `getNextPending_spec`, `preSelect_insts`: what each operation does to every
  instruction.
* `Deps.addSrc`, `Deps.pop`, `Deps.preSelect`: the lists stay sound, one slot at a time.
* `Deps.not_linked`: an issued instruction is in no list.
-/

namespace Esesc.Core

open InFlight

variable {s s' : InFlight} {i j p d : Nat} {k : Fin 3} {x : Option Nat}

/-! ## What the operations do -/

theorem modify_insts (s : InFlight) (i j : Nat) (f : DInst → DInst) :
    (s.modify i f).insts j = if j = i then f (s.insts j) else s.insts j := by
  unfold InFlight.modify
  by_cases h : j = i
  · subst h
    simp
  · simp [h]

@[simp] theorem modify_n (s : InFlight) (i : Nat) (f : DInst → DInst) : (s.modify i f).n = s.n := rfl
@[simp] theorem modify_RAT (s : InFlight) (i : Nat) (f : DInst → DInst) : (s.modify i f).RAT = s.RAT := rfl
@[simp] theorem clearRATEntry_insts (s : InFlight) (i : Nat) : (s.clearRATEntry i).insts = s.insts := rfl
@[simp] theorem clearRATEntry_n (s : InFlight) (i : Nat) : (s.clearRATEntry i).n = s.n := rfl

@[simp] theorem addSrc_n (k : Fin 3) (s : InFlight) (p d : Nat) : (s.addSrc k p d).n = s.n := rfl
@[simp] theorem addSrc_RAT (k : Fin 3) (s : InFlight) (p d : Nat) : (s.addSrc k p d).RAT = s.RAT := rfl

theorem addSrc_insts (k : Fin 3) (s : InFlight) (p d j : Nat) :
    (s.addSrc k p d).insts j = { s.insts j with
      nDeps := if j = d then (s.insts j).nDeps + 1 else (s.insts j).nDeps
      pend := if j = d then Function.update (s.insts j).pend k true else (s.insts j).pend
      first := if j = p then (s.insts j).first ++ [(d, k)] else (s.insts j).first } := by
  unfold InFlight.addSrc
  rw [modify_insts, modify_insts]
  rcases eq_or_ne j p with rfl | hp <;> rcases eq_or_ne j d with rfl | hd <;> simp [*]

/-- The state after the first node is taken off the list of `p`. -/
theorem getNextPending_spec (h : s.getNextPending p = some (d, s')) :
    ∃ k rest, (s.insts p).first = (d, k) :: rest ∧ s'.n = s.n ∧ s'.RAT = s.RAT ∧
      ∀ j, s'.insts j = { s.insts j with
        nDeps := if j = d then (s.insts j).nDeps - 1 else (s.insts j).nDeps
        pend := if j = d then Function.update (s.insts j).pend k false else (s.insts j).pend
        first := if j = p then rest else (s.insts j).first } := by
  unfold InFlight.getNextPending at h
  split at h
  · cases h
  rename_i d' k rest hfirst
  rw [Option.some.injEq, Prod.mk.injEq] at h
  obtain ⟨rfl, rfl⟩ := h
  refine ⟨k, rest, hfirst, rfl, rfl, fun j => ?_⟩
  rw [modify_insts, modify_insts]
  rcases eq_or_ne j p with rfl | hp <;> rcases eq_or_ne j d' with rfl | hd <;> simp [*]

theorem preSelect_insts (s : InFlight) (i j : Nat) :
    (DepWindow.preSelect s i).insts j = { s.insts j with
      issued := if j = i then true else (s.insts j).issued
      cb := if j = i then some .select else (s.insts j).cb } := by
  unfold DepWindow.preSelect
  rw [clearRATEntry_insts, modify_insts]
  by_cases h : j = i <;> simp only [h, if_true, if_false]

@[simp] theorem preSelect_n (s : InFlight) (i : Nat) : (DepWindow.preSelect s i).n = s.n := rfl

theorem clearEntry_apply (rat : RegType → Option Nat) (e : Option RegType) (i : Nat) (r : RegType) :
    clearEntry rat e i r = if rat r = some i ∧ e = some r then none else rat r := by
  unfold clearEntry
  cases e with
  | none => simp
  | some t =>
    by_cases hr : t = r
    · subst hr
      by_cases h : rat t = some i <;> simp [h]
    · have hne : ¬(rat r = some i ∧ some t = some r) := fun h => hr (Option.some.inj h.2)
      rw [if_neg hne]
      simp only
      split
      · exact Function.update_of_ne (Ne.symm hr) _ _
      · rfl

theorem clearRATEntry_RAT (s : InFlight) (i : Nat) (r : RegType) :
    (s.clearRATEntry i).RAT r =
      if s.RAT r = some i ∧ ((s.insts i).RAT1Entry = some r ∨ (s.insts i).RAT2Entry = some r) then none
      else s.RAT r := by
  unfold InFlight.clearRATEntry
  simp only [clearEntry_apply]
  by_cases hi : s.RAT r = some i
  · by_cases h1 : (s.insts i).RAT1Entry = some r <;> by_cases h2 : (s.insts i).RAT2Entry = some r <;>
      simp [hi, h1, h2]
  · simp [hi]

/-- When the entries of an instruction are the ones of its destinations, and the table names it under these
only, it leaves the table. -/
theorem clearRATEntry_RAT_of {r : RegType}
    (h : s.RAT r = some i → ((s.insts i).RAT1Entry = some (s.insts i).inst.dst1 ∧
      (s.insts i).RAT2Entry = some (s.insts i).inst.dst2) ∧ (s.insts i).inst.writes r = true) :
    (s.clearRATEntry i).RAT r = if s.RAT r = some i then none else s.RAT r := by
  rw [clearRATEntry_RAT]
  by_cases hi : s.RAT r = some i
  · obtain ⟨⟨h1, h2⟩, hw⟩ := h hi
    have hor : (s.insts i).RAT1Entry = some r ∨ (s.insts i).RAT2Entry = some r := by
      rw [h1, h2]
      simpa [Instruction.writes] using hw
    rw [if_pos ⟨hi, hor⟩, if_pos hi]
  · rw [if_neg (fun hc => hi hc.1), if_neg hi]

theorem preSelect_RAT (s : InFlight) (i : Nat) (r : RegType) :
    (DepWindow.preSelect s i).RAT r =
      if s.RAT r = some i ∧ ((s.insts i).RAT1Entry = some r ∨ (s.insts i).RAT2Entry = some r) then none
      else s.RAT r := by
  unfold DepWindow.preSelect
  rw [clearRATEntry_RAT, modify_insts, if_pos rfl]
  rfl

theorem setRAT_apply (s : InFlight) (i : Nat) (r : RegType) :
    (s.setRAT i).RAT r = if (s.insts i).inst.writes r then some i else s.RAT r := by
  unfold InFlight.setRAT
  simp only [Function.update_apply, Instruction.writes, Bool.or_eq_true, beq_iff_eq, eq_comm (b := r)]
  by_cases h1 : r = (s.insts i).inst.dst1 <;> by_cases h2 : r = (s.insts i).inst.dst2 <;> simp [h1, h2]

theorem modify_congr {f g : DInst → DInst} (h : f (s.insts i) = g (s.insts i)) : s.modify i f = s.modify i g := by
  unfold InFlight.modify
  rw [h]

theorem clearRATEntry_modify {f : DInst → DInst} (h : ∀ y, (f y).RAT1Entry = y.RAT1Entry ∧
    (f y).RAT2Entry = y.RAT2Entry ∧ (f y).serializeEntry = y.serializeEntry) :
    (s.modify i f).clearRATEntry i = (s.clearRATEntry i).modify i f := by
  obtain ⟨h1, h2, h3⟩ := h (s.insts i)
  unfold InFlight.clearRATEntry
  rw [modify_insts, if_pos rfl, h1, h2, h3]
  rfl

/-- A turn of the loop of `executed` executes nothing. -/
theorem wake_frame (hpop : s.getNextPending p = some (d, s')) :
    (if (s'.insts d).hasDeps then s' else DepWindow.preSelect s' d).n = s.n ∧
      ∀ j, ((if (s'.insts d).hasDeps then s' else DepWindow.preSelect s' d).insts j).executed =
        (s.insts j).executed := by
  obtain ⟨k, rest, -, hn, -, hat⟩ := getNextPending_spec hpop
  split
  · exact ⟨hn, fun j => by rw [hat]⟩
  · exact ⟨hn, fun j => by rw [preSelect_insts, hat]⟩

/-! ## Slots in use -/

theorem used_pos {y : DInst} (h : y.pend k = true) : 0 < y.used := by
  have hk : (y.pend k).toNat = 1 := by rw [h]; rfl
  unfold DInst.used
  fin_cases k <;> simp only [Fin.zero_eta, Fin.mk_one, Fin.reduceFinMk] at hk <;> omega

theorem used_set {y : DInst} (h : y.pend k = false) :
    { y with nDeps := y.nDeps + 1, pend := Function.update y.pend k true }.used = y.used + 1 := by
  unfold DInst.used
  fin_cases k <;> simp_all <;> omega

theorem used_clear {y : DInst} (h : y.pend k = true) :
    { y with nDeps := y.nDeps - 1, pend := Function.update y.pend k false }.used = y.used - 1 := by
  unfold DInst.used
  fin_cases k <;> simp_all
  omega

/-! ## The invariant -/

/-- The dependence lists are sound. The instruction `x` is on its way into the window, or has
just lost a dependence, and is not issued yet. -/
structure Deps (s : InFlight) (x : Option Nat) : Prop where
  count : ∀ i, (s.insts i).nDeps = (s.insts i).used
  slot : ∀ p i k, (i, k) ∈ (s.insts p).first → (s.insts i).pend k = true
  one : ∀ p q i k, (i, k) ∈ (s.insts p).first → (i, k) ∈ (s.insts q).first → p = q
  nodup : ∀ p, (s.insts p).first.Nodup
  ready : ∀ i < s.n, some i ≠ x → ((s.insts i).issued = true ↔ (s.insts i).nDeps = 0)
  waiting : ∀ i < s.n, some i ≠ x → (s.insts i).issued = false → (s.insts i).waited = true
  stage : ∀ i, (s.insts i).executed = true ∨ (s.insts i).cb.isSome = true → (s.insts i).issued = true
  next : ∀ i, some i = x → (s.insts i).issued = false
  fresh : ∀ i, s.n ≤ i → (s.insts i).issued = false ∧ (s.insts i).nDeps = 0

namespace Deps

theorem nDeps_pos (h : Deps s x) (hl : (i, k) ∈ (s.insts p).first) : 0 < (s.insts i).nDeps := by
  rw [h.count]
  exact used_pos (h.slot p i k hl)

theorem linked_lt (h : Deps s x) (hl : (i, k) ∈ (s.insts p).first) : i < s.n := by
  by_contra hn
  have h0 := (h.fresh i (by omega)).2
  have hpos := h.nDeps_pos hl
  omega

/-- **What is issued waits for nobody.** -/
theorem not_linked (h : Deps s none) (hi : (s.insts i).issued = true) (k : Fin 3) (p : Nat) :
    (i, k) ∉ (s.insts p).first := by
  intro hl
  have h0 := (h.ready i (h.linked_lt hl) (by simp)).1 hi
  have hpos := h.nDeps_pos hl
  omega

/-- The new instruction takes its position. -/
theorem rename (h : Deps s none) (f : Fetched) : Deps (s.rename f) (some s.n) := by
  have hat : ∀ j, (s.rename f).insts j =
      if j = s.n then DInst.setup f (s.insts s.n).first else s.insts j := by
    intro j
    unfold InFlight.rename
    exact Function.update_apply _ _ _ _
  -- `setup` does not touch the list: a stale pointer may have linked something behind this position
  have hfirst : ∀ j, ((s.rename f).insts j).first = (s.insts j).first := by
    intro j
    rw [hat]
    split
    · rename_i hj
      rw [hj]
      rfl
    · rfl
  have hold : ∀ j, j < s.n + 1 → some j ≠ some s.n → (s.rename f).insts j = s.insts j ∧ j < s.n := by
    intro j hj hne
    have hne : j ≠ s.n := fun e => hne (e ▸ rfl)
    rw [hat, if_neg hne]
    exact ⟨rfl, by omega⟩
  have hnew : (s.rename f).insts s.n = DInst.setup f (s.insts s.n).first := by rw [hat, if_pos rfl]
  constructor
  · intro i
    rw [hat]
    split
    · rfl
    · exact h.count i
  · intro p i k hl
    rw [hfirst] at hl
    have hi := h.linked_lt hl
    rw [hat, if_neg (by omega)]
    exact h.slot p i k hl
  · intro p q i k hp hq
    rw [hfirst] at hp hq
    exact h.one p q i k hp hq
  · intro p
    rw [hfirst]
    exact h.nodup p
  · intro i hi hne
    obtain ⟨he, hlt⟩ := hold i hi hne
    rw [he]
    exact h.ready i hlt (by simp)
  · intro i hi hne
    obtain ⟨he, hlt⟩ := hold i hi hne
    rw [he]
    exact h.waiting i hlt (by simp)
  · intro i
    rw [hat]
    split
    · simp [DInst.setup]
    · exact h.stage i
  · intro i hi
    obtain rfl := Option.some.inj hi
    rw [hnew]
    rfl
  · intro i hi
    have hi : s.n + 1 ≤ i := hi
    rw [hat, if_neg (by omega)]
    exact h.fresh i (by omega)

/-- A free slot of the instruction on its way in is linked. -/
theorem addSrc (h : Deps s (some d)) (hd : d < s.n) (hk : (s.insts d).pend k = false) (p : Nat) :
    Deps (s.addSrc k p d) (some d) := by
  -- the slot is free, so its node is in no list yet
  have hnew : ∀ q, (d, k) ∉ (s.insts q).first := by
    intro q hq
    have ht := h.slot q d k hq
    rw [hk] at ht
    cases ht
  have hmem : ∀ q i k', (i, k') ∈ ((s.addSrc k p d).insts q).first →
      (i, k') ∈ (s.insts q).first ∨ (q = p ∧ i = d ∧ k' = k) := by
    intro q i k' hq
    rw [addSrc_insts] at hq
    simp only at hq
    split at hq
    · rename_i hqp
      rcases List.mem_append.1 hq with hq | hq
      · exact .inl hq
      · exact .inr ⟨hqp, by simpa using hq⟩
    · exact .inl hq
  constructor
  · intro i
    rw [addSrc_insts]
    by_cases hi : i = d
    · subst hi
      simp only [if_true]
      rw [h.count]
      exact (used_set hk).symm
    · simp only [hi, if_false]
      exact h.count i
  · intro q i k' hq
    rw [addSrc_insts]
    by_cases hi : i = d
    · simp only [hi, if_true, Function.update_apply]
      split
      · rfl
      · rename_i hkk
        rcases hmem q i k' hq with hq | ⟨-, -, rfl⟩
        · rw [← hi]
          exact h.slot q i k' hq
        · exact absurd rfl hkk
    · simp only [hi, if_false]
      rcases hmem q i k' hq with hq | ⟨-, rfl, -⟩
      · exact h.slot q i k' hq
      · exact absurd rfl hi
  · intro q q' i k' hq hq'
    rcases hmem q i k' hq with hq | ⟨rfl, rfl, rfl⟩ <;> rcases hmem q' i k' hq' with hq' | ⟨hqp, hid, hkk⟩
    · exact h.one q q' i k' hq hq'
    · exact absurd (hid ▸ hkk ▸ hq) (hnew q)
    · exact absurd hq' (hnew q')
    · exact hqp.symm
  · intro q
    rw [addSrc_insts]
    simp only
    split
    · refine List.Nodup.append (h.nodup q) (List.nodup_singleton _) ?_
      intro y hy hy'
      rw [List.mem_singleton.1 hy'] at hy
      exact hnew q hy
    · exact h.nodup q
  · intro i hi hne
    have hid : i ≠ d := fun e => hne (e ▸ rfl)
    rw [addSrc_insts]
    simp only [hid, if_false]
    exact h.ready i hi hne
  · intro i hi hne
    rw [addSrc_insts]
    exact h.waiting i hi hne
  · intro i
    rw [addSrc_insts]
    exact h.stage i
  · intro i hi
    rw [addSrc_insts]
    exact h.next i hi
  · intro i hi
    have hi : s.n ≤ i := hi
    rw [addSrc_insts]
    simp only [show i ≠ d by omega, if_false]
    exact h.fresh i hi

/-- A first node is taken off a list: its instruction may now be without dependences. -/
theorem pop (h : Deps s none) (hpop : s.getNextPending p = some (d, s')) :
    Deps s' (some d) ∧ d < s.n ∧ (s.insts d).issued = false := by
  obtain ⟨k, rest, hfirst, hn, -, hat⟩ := getNextPending_spec hpop
  have hl : (d, k) ∈ (s.insts p).first := by
    rw [hfirst]
    exact List.mem_cons_self
  have hd := h.linked_lt hl
  have hnot : (s.insts d).issued = false := by
    by_contra hi
    exact h.not_linked (Bool.not_eq_false _ ▸ hi) k p hl
  have hnd := h.nodup p
  rw [hfirst, List.nodup_cons] at hnd
  -- the node that was taken off is in no list any more: it was once in the list of `p`, and in no other
  have hmem : ∀ q i k', (i, k') ∈ (s'.insts q).first → (i, k') ∈ (s.insts q).first ∧ ¬(i = d ∧ k' = k) := by
    intro q i k' hq
    rw [hat] at hq
    simp only at hq
    split at hq
    · rename_i hqp
      refine ⟨?_, ?_⟩
      · rw [hqp, hfirst]
        exact List.mem_cons_of_mem _ hq
      · rintro ⟨rfl, rfl⟩
        exact hnd.1 hq
    · rename_i hqp
      refine ⟨hq, ?_⟩
      rintro ⟨rfl, rfl⟩
      exact hqp (h.one q p i k' hq hl)
  refine ⟨?_, hd, hnot⟩
  constructor
  · intro i
    rw [hat]
    by_cases hi : i = d
    · subst hi
      simp only [if_true]
      rw [h.count]
      exact (used_clear (h.slot p i k hl)).symm
    · simp only [hi, if_false]
      exact h.count i
  · intro q i k' hq
    obtain ⟨hq, hne⟩ := hmem q i k' hq
    rw [hat]
    by_cases hi : i = d
    · have hkk : k' ≠ k := fun e => hne ⟨hi, e⟩
      simp only [hi, if_true, Function.update_of_ne hkk]
      rw [← hi]
      exact h.slot q i k' hq
    · simp only [hi, if_false]
      exact h.slot q i k' hq
  · intro q q' i k' hq hq'
    exact h.one q q' i k' (hmem q i k' hq).1 (hmem q' i k' hq').1
  · intro q
    rw [hat]
    simp only
    split
    · exact hnd.2
    · exact h.nodup q
  · intro i hi hne
    have hid : i ≠ d := fun e => hne (e ▸ rfl)
    rw [hn] at hi
    rw [hat]
    simp only [hid, if_false]
    exact h.ready i hi (by simp)
  · intro i hi hne
    rw [hn] at hi
    rw [hat]
    exact h.waiting i hi (by simp)
  · intro i
    rw [hat]
    exact h.stage i
  · intro i hi
    obtain rfl := Option.some.inj hi
    rw [hat]
    exact hnot
  · intro i hi
    rw [hn] at hi
    rw [hat]
    simp only [show i ≠ d by omega, if_false]
    exact h.fresh i hi

/-- Without dependences left, the instruction is issued. -/
theorem preSelect (h : Deps s (some d)) (hd : d < s.n) (h0 : (s.insts d).nDeps = 0) :
    Deps (DepWindow.preSelect s d) none := by
  constructor
  · intro i
    rw [preSelect_insts]
    exact h.count i
  · intro q i k hq
    rw [preSelect_insts] at hq ⊢
    exact h.slot q i k hq
  · intro q q' i k hq hq'
    rw [preSelect_insts] at hq hq'
    exact h.one q q' i k hq hq'
  · intro q
    rw [preSelect_insts]
    exact h.nodup q
  · intro i hi _
    rw [preSelect_insts]
    by_cases hid : i = d
    · simp only [hid, if_true, h0]
    · simp only [hid, if_false]
      exact h.ready i hi fun e => hid (Option.some.inj e)
  · intro i hi _
    rw [preSelect_insts]
    by_cases hid : i = d
    · simp only [hid, if_true]
      intro hf
      cases hf
    · simp only [hid, if_false]
      exact h.waiting i hi fun e => hid (Option.some.inj e)
  · intro i
    rw [preSelect_insts]
    by_cases hid : i = d
    · simp only [hid, if_true, implies_true]
    · simp only [hid, if_false]
      exact h.stage i
  · intro i hi
    cases hi
  · intro i hi
    have hi : s.n ≤ i := hi
    rw [preSelect_insts]
    simp only [show i ≠ d by omega, if_false]
    exact h.fresh i hi

/-- With dependences left, it goes on waiting. -/
theorem keep (h : Deps s (some d)) (h0 : (s.insts d).nDeps ≠ 0) (hw : (s.insts d).waited = true) :
    Deps s none where
  count := h.count
  slot := h.slot
  one := h.one
  nodup := h.nodup
  ready i hi _ := by
    by_cases hid : i = d
    · rw [hid, h.next d rfl]
      simp [h0]
    · exact h.ready i hi fun e => hid (Option.some.inj e)
  waiting i hi _ hf := by
    by_cases hid : i = d
    · rw [hid]
      exact hw
    · exact h.waiting i hi (fun e => hid (Option.some.inj e)) hf
  stage := h.stage
  next i hi := by cases hi
  fresh := h.fresh

/-- An update of one instruction that leaves its dependences and its issue alone. -/
theorem modify (h : Deps s x) (i : Nat) {f : DInst → DInst}
    (hdep : ∀ y, (f y).nDeps = y.nDeps ∧ (f y).pend = y.pend ∧ (f y).first = y.first ∧ (f y).issued = y.issued)
    (hw : ∀ y, y.waited = true → (f y).waited = true)
    (hst : (f (s.insts i)).executed = true ∨ (f (s.insts i)).cb.isSome = true → (s.insts i).issued = true) :
    Deps (s.modify i f) x := by
  have hfield : ∀ j, ((s.modify i f).insts j).nDeps = (s.insts j).nDeps ∧
      ((s.modify i f).insts j).pend = (s.insts j).pend ∧ ((s.modify i f).insts j).first = (s.insts j).first ∧
      ((s.modify i f).insts j).issued = (s.insts j).issued := by
    intro j
    rw [modify_insts]
    split
    · exact hdep _
    · exact ⟨rfl, rfl, rfl, rfl⟩
  constructor
  · intro j
    obtain ⟨hn, hp, -, -⟩ := hfield j
    unfold DInst.used
    rw [hn, hp]
    exact h.count j
  · intro q j k hq
    rw [(hfield q).2.2.1] at hq
    rw [(hfield j).2.1]
    exact h.slot q j k hq
  · intro q q' j k hq hq'
    rw [(hfield q).2.2.1] at hq
    rw [(hfield q').2.2.1] at hq'
    exact h.one q q' j k hq hq'
  · intro q
    rw [(hfield q).2.2.1]
    exact h.nodup q
  · intro j hj hne
    rw [(hfield j).2.2.2, (hfield j).1]
    exact h.ready j hj hne
  · -- who waits goes on waiting
    intro j hj hne hf
    rw [(hfield j).2.2.2] at hf
    have := h.waiting j hj hne hf
    rw [modify_insts]
    split
    · exact hw _ this
    · exact this
  · intro j hj
    rw [(hfield j).2.2.2]
    rw [modify_insts] at hj
    split at hj
    · rename_i hji
      subst hji
      exact hst hj
    · exact h.stage j hj
  · intro j hj
    rw [(hfield j).2.2.2]
    exact h.next j hj
  · intro j hj
    rw [(hfield j).2.2.2, (hfield j).1]
    exact h.fresh j hj

/-- The alias tables do not matter. -/
theorem tables (h : Deps s x) (RAT serializeRAT : RegType → Option Nat) :
    Deps { s with RAT := RAT, serializeRAT := serializeRAT } x :=
  ⟨h.count, h.slot, h.one, h.nodup, h.ready, h.waiting, h.stage, h.next, h.fresh⟩

theorem clearRATEntry (h : Deps s x) (i : Nat) : Deps (s.clearRATEntry i) x := h.tables _ _

/-- One turn of the loop of `executed`. -/
theorem wake (h : Deps s none) (hpop : s.getNextPending p = some (d, s')) :
    Deps (if (s'.insts d).hasDeps then s' else DepWindow.preSelect s' d) none := by
  obtain ⟨h', hd, hi⟩ := h.pop hpop
  obtain ⟨k, rest, -, hn, -, hat⟩ := getNextPending_spec hpop
  split
  · rename_i h0
    refine h'.keep (by simpa [DInst.hasDeps] using h0) ?_
    rw [hat]
    exact h.waiting d hd (by simp) hi
  · rename_i h0
    exact h'.preSelect (hn ▸ hd) (by simpa [DInst.hasDeps] using h0)

/-- The new instruction enters the window. -/
theorem addInst (h : Deps s (some d)) (hd : d < s.n) : Deps (DepWindow.addInst s d) none := by
  unfold DepWindow.addInst
  split
  · rename_i h0
    have hm : Deps (s.modify d fun y => { y with waited := true }) (some d) := by
      refine h.modify d (fun y => ⟨rfl, rfl, rfl, rfl⟩) (fun y _ => rfl) ?_
      exact h.stage d
    refine hm.keep ?_ ?_
    · rw [modify_insts, if_pos rfl]
      simpa [DInst.hasDeps] using h0
    · rw [modify_insts, if_pos rfl]
  · rename_i h0
    exact h.preSelect hd (by simpa [DInst.hasDeps] using h0)

end Deps

/-! ## The loop of `executed` -/

/-- What every turn keeps, the loop keeps. -/
theorem wakeAll_inv {I : InFlight → Prop}
    (hI : ∀ s d s', I s → s.getNextPending p = some (d, s') →
      I (if (s'.insts d).hasDeps then s' else DepWindow.preSelect s' d)) :
    ∀ fuel s, I s → I (DepWindow.wakeAll p fuel s) := by
  intro fuel
  induction fuel with
  | zero => exact fun s h => h
  | succ fuel ih =>
    intro s h
    unfold DepWindow.wakeAll
    split
    · exact h
    · rename_i d s' hpop
      exact ih _ (hI s d s' h hpop)

theorem wakeAll_n (p fuel : Nat) (s : InFlight) : (DepWindow.wakeAll p fuel s).n = s.n :=
  wakeAll_inv (I := fun t => t.n = s.n) (fun _ _ _ ht hpop => (wake_frame hpop).1.trans ht) fuel s rfl

theorem fire_n (hf : s.fire i = some s') : s'.n = s.n := by
  unfold InFlight.fire at hf
  split at hf <;> cases hf
  · rfl
  · rfl
  · exact wakeAll_n _ _ _

/-- Only issued instructions have callbacks. -/
theorem Deps.fire_issued (h : Deps s none) (hf : s.fire i = some s') : (s.insts i).issued = true := by
  refine h.stage i (.inr ?_)
  unfold InFlight.fire at hf
  cases hcb : (s.insts i).cb with
  | none =>
    rw [hcb] at hf
    cases hf
  | some cb => rfl

theorem Deps.fire (h : Deps s none) (hf : s.fire i = some s') : Deps s' none := by
  have hi := h.fire_issued hf
  unfold InFlight.fire at hf
  split at hf <;> cases hf
  · exact h.modify i (fun y => ⟨rfl, rfl, rfl, rfl⟩) (fun y hy => hy) fun _ => hi
  · exact (h.clearRATEntry i).modify i (fun y => ⟨rfl, rfl, rfl, rfl⟩) (fun y hy => hy) fun _ => hi
  · unfold Resource.executed DepWindow.executed
    refine wakeAll_inv (I := fun s => Deps s none) (fun s d s' hs hpop => hs.wake hpop) _ _ (clearRATEntry ?_ i)
    exact h.modify i (fun y => ⟨rfl, rfl, rfl, rfl⟩) (fun y hy => hy) fun _ => hi

end Esesc.Core
