import Esesc.Core.OoO

/-!
# Register dependences of the out-of-order core

An instruction that is linked behind the writer of its source is not issued before that
writer has executed. It is linked when the alias table still names the writer. The table
does so while the writer waits for its own dependences, and, if it had none, until it
starts executing: `preSelect` of an instruction that had to wait and `wakeUpDeps` both
clear the entry of an instruction that has not executed.

* `Renamed`: what the alias table and the dependence lists say about the last writers.
* `Renamed.fire`, `Entered.renamed`: every event keeps it, a rename if it finds its writers.
* `issued_after_sources`: in a run whose renames find their writers, no instruction is issued
  before the last writers of its sources have executed.
-/

namespace Esesc.Core

open Esesc.Lib InFlight

variable {s s' : InFlight} {i j m p d w : Nat} {r : RegType}

/-! ## Last writers -/

theorem lastWriter_some (h : lastWriter s r m = some w) : w < m ∧ (s.insts w).inst.writes r = true := by
  induction m with
  | zero => cases h
  | succ m ih =>
    unfold lastWriter at h
    split at h
    · rename_i hw
      obtain rfl := Option.some.inj h
      exact ⟨Nat.lt_succ_self _, hw⟩
    · obtain ⟨hlt, hw⟩ := ih h
      exact ⟨by omega, hw⟩

theorem lastWriter_congr (h : ∀ j < m, (s'.insts j).inst = (s.insts j).inst) (r : RegType) :
    lastWriter s' r m = lastWriter s r m := by
  induction m with
  | zero => rfl
  | succ m ih =>
    unfold lastWriter
    rw [h m (Nat.lt_succ_self m), ih fun j hj => h j (by omega)]

theorem lastWriter_succ (s : InFlight) (r : RegType) (m : Nat) :
    lastWriter s r (m + 1) = if (s.insts m).inst.writes r then some m else lastWriter s r m := rfl

/-! ## The invariant -/

/-- The alias table still names the instruction: it has not been issued, or it was issued when it
entered the window and does not execute yet. -/
def Findable (x : DInst) : Prop :=
  x.issued = false ∨ (x.waited = false ∧ (x.cb = some .select ∨ x.cb = some .executing))

instance (x : DInst) : Decidable (Findable x) := by
  unfold Findable
  infer_instance

/-- What the alias table and the lists say about the first `m` instructions. -/
structure Renamed (s : InFlight) (m : Nat) : Prop where
  entry : ∀ i < m, (s.insts i).RAT1Entry = some (s.insts i).inst.dst1 ∧
    (s.insts i).RAT2Entry = some (s.insts i).inst.dst2
  named : ∀ r w, s.RAT r = some w → lastWriter s r m = some w ∧ (s.insts w).executed = false
  kept : ∀ r w, lastWriter s r m = some w → Findable (s.insts w) → s.RAT r = some w
  linked : ∀ i < m, ∀ k w, (s.insts i).inst.src k ≠ LREG_NoDependence →
    lastWriter s ((s.insts i).inst.src k) i = some w →
      (s.insts w).executed = true ∨ (i, srcSlot k) ∈ (s.insts w).first

/-- The state after a step that leaves the instructions below `m` as they are, but for their progress and
what is linked behind them. -/
structure Same (s s' : InFlight) (m : Nat) : Prop where
  inst : ∀ j < m, (s'.insts j).inst = (s.insts j).inst
  entry : ∀ j < m, (s'.insts j).RAT1Entry = (s.insts j).RAT1Entry ∧
    (s'.insts j).RAT2Entry = (s.insts j).RAT2Entry

namespace Renamed

/-- The entries that `clearRATEntry` clears are all that name the instruction. -/
theorem clear_RAT (h : Renamed s m) (i : Nat) (r : RegType) :
    (s.clearRATEntry i).RAT r = if s.RAT r = some i then none else s.RAT r := by
  refine clearRATEntry_RAT_of fun hi => ?_
  obtain ⟨hlt, hw⟩ := lastWriter_some (h.named r i hi).1
  exact ⟨h.entry i hlt, hw⟩

/-- **One instruction leaves the table.** It makes progress and is not findable any more; nothing else
changes. -/
theorem leave (h : Renamed s m) (hs : Same s s' m)
    (hRAT : ∀ r, s'.RAT r = if s.RAT r = some i then none else s.RAT r)
    (hfirst : ∀ j < m, (s'.insts j).executed = true ∨ (s.insts j).first ⊆ (s'.insts j).first)
    (hmono : ∀ j < m, (s.insts j).executed = true → (s'.insts j).executed = true)
    (hexec : ∀ j < m, j ≠ i → (s'.insts j).executed = (s.insts j).executed)
    (hfind : ∀ j < m, Findable (s'.insts j) → j ≠ i ∧ Findable (s.insts j)) : Renamed s' m := by
  constructor
  · intro j hj
    rw [(hs.entry j hj).1, (hs.entry j hj).2, hs.inst j hj]
    exact h.entry j hj
  · intro r w hr
    rw [hRAT] at hr
    split at hr
    · cases hr
    · rename_i hne
      obtain ⟨hlast, hex⟩ := h.named r w hr
      have hwm := (lastWriter_some hlast).1
      have hwi : w ≠ i := fun e => hne (e ▸ hr)
      rw [lastWriter_congr hs.inst, hexec w hwm hwi]
      exact ⟨hlast, hex⟩
  · intro r w hlast hf
    rw [lastWriter_congr hs.inst] at hlast
    have hwm := (lastWriter_some hlast).1
    obtain ⟨hwi, hf⟩ := hfind w hwm hf
    have hr := h.kept r w hlast hf
    rw [hRAT, if_neg, hr]
    rw [hr]
    exact fun e => hwi (Option.some.inj e)
  · intro j hj k w hsrc hlast
    rw [hs.inst j hj] at hsrc hlast
    rw [lastWriter_congr fun j' hj' => hs.inst j' (by omega)] at hlast
    have hwj := (lastWriter_some hlast).1
    have hwm : w < m := by omega
    rcases h.linked j hj k w hsrc hlast with hex | hl
    · exact .inl (hmono w hwm hex)
    · rcases hfirst w hwm with hex | hf
      · exact .inl hex
      · exact .inr (hf hl)

/-- The table is left as it is. -/
theorem stay (h : Renamed s m) (hs : Same s s' m) (hRAT : s'.RAT = s.RAT)
    (hfirst : ∀ j < m, (s'.insts j).executed = true ∨ (s.insts j).first ⊆ (s'.insts j).first)
    (hexec : ∀ j < m, (s'.insts j).executed = (s.insts j).executed)
    (hfind : ∀ j < m, Findable (s'.insts j) → Findable (s.insts j)) : Renamed s' m := by
  refine h.leave (i := m) hs ?_ hfirst (fun j hj he => (hexec j hj).trans he) (fun j hj _ => hexec j hj)
    fun j hj hf => ⟨by omega, hfind j hj hf⟩
  intro r
  rw [hRAT, if_neg]
  intro hr
  have := (lastWriter_some (h.named r m hr).1).1
  omega

/-- One turn of the loop of `executed`. -/
theorem wake (h : Renamed s s.n) (hD : Deps s none) (hp : (s.insts p).executed = true)
    (hpop : s.getNextPending p = some (d, s')) :
    Renamed (if (s'.insts d).hasDeps then s' else DepWindow.preSelect s' d) s.n := by
  obtain ⟨k, rest, hfirst, hn, hR, hat⟩ := getNextPending_spec hpop
  obtain ⟨-, hd, hi⟩ := hD.pop hpop
  -- the list of `p` gets shorter, but `p` has executed
  have h' : Renamed s' s.n := by
    refine h.stay ⟨fun j _ => ?_, fun j _ => ?_⟩ hR (fun j _ => ?_) (fun j _ => ?_) fun j _ hf => ?_
    · rw [hat]
    · rw [hat]
      exact ⟨rfl, rfl⟩
    · rw [hat]
      by_cases hjp : j = p
      · exact .inl (hjp ▸ hp)
      · simp only [hjp, if_false]
        exact .inr (List.Subset.refl _)
    · rw [hat]
    · rw [hat] at hf
      exact hf
  split
  · exact h'
  -- the instruction that is issued had to wait
  have hw : (s'.insts d).waited = true := by
    rw [hat]
    exact hD.waiting d hd (by simp) hi
  refine h'.leave (i := d) ⟨fun j _ => ?_, fun j _ => ?_⟩ ?_ (fun j _ => .inr ?_) (fun j _ hj => ?_)
    (fun j _ _ => ?_) fun j _ hf => ?_
  · rw [preSelect_insts]
  · rw [preSelect_insts]
    exact ⟨rfl, rfl⟩
  · intro r
    rw [preSelect_RAT, ← clearRATEntry_RAT]
    exact h'.clear_RAT d r
  · rw [preSelect_insts]
    exact List.Subset.refl _
  · rw [preSelect_insts]
    exact hj
  · rw [preSelect_insts]
  · rw [preSelect_insts] at hf
    by_cases hjd : j = d
    · subst hjd
      simp [Findable, hw] at hf
    · simp only [hjd, if_false] at hf
      exact ⟨hjd, hf⟩

/-- The whole loop of `executed`. -/
theorem wakeAll (h : Renamed s s.n) (hD : Deps s none) (hp : (s.insts p).executed = true) (fuel : Nat) :
    Renamed (DepWindow.wakeAll p fuel s) s.n := by
  have hw := wakeAll_inv (p := p)
    (I := fun t => Deps t none ∧ (t.insts p).executed = true ∧ t.n = s.n ∧ Renamed t s.n) ?_ fuel s ⟨hD, hp, rfl, h⟩
  · exact hw.2.2.2
  · rintro t d t' ⟨hDt, hex, hnt, ht⟩ hpop
    obtain ⟨hn', hex'⟩ := wake_frame hpop
    refine ⟨hDt.wake hpop, (hex' p).trans hex, hn'.trans hnt, ?_⟩
    rw [← hnt] at ht ⊢
    exact ht.wake hDt hex hpop

/-- An instruction whose progress changes leaves the table. -/
theorem progress (h : Renamed s m) (i : Nat) (e : Bool) (c : Option Callback)
    (he : e = false → (s.insts i).executed = false)
    (hfind : ¬Findable { s.insts i with executed := e, cb := c }) :
    Renamed ((s.clearRATEntry i).modify i fun x => { x with executed := e, cb := c }) m := by
  refine h.leave (i := i) ⟨fun j _ => ?_, fun j _ => ?_⟩ (h.clear_RAT i) (fun j _ => .inr ?_) (fun j _ hj => ?_)
    (fun j _ hji => ?_) fun j _ hf => ?_
  · rw [modify_insts]
    split <;> rfl
  · rw [modify_insts]
    split <;> exact ⟨rfl, rfl⟩
  · rw [modify_insts]
    split <;> exact List.Subset.refl _
  · rw [modify_insts]
    split
    · rename_i hji
      subst hji
      cases e with
      | true => rfl
      | false => exact absurd hj (by simp [he rfl])
    · exact hj
  · rw [modify_insts, if_neg hji]
    rfl
  · rw [modify_insts] at hf
    split at hf
    · rename_i hji
      subst hji
      exact absurd hf hfind
    · rename_i hji
      exact ⟨hji, hf⟩

/-- **Every callback keeps the invariant.** -/
theorem fire (h : Renamed s s.n) (hD : Deps s none) (hf : s.fire i = some s') : Renamed s' s.n := by
  unfold InFlight.fire at hf
  split at hf
  · cases hf
  · -- `select`
    rename_i hcb
    cases hf
    refine h.stay ⟨fun j _ => ?_, fun j _ => ?_⟩ rfl (fun j _ => .inr ?_) (fun j _ => ?_) fun j _ hf => ?_
    all_goals unfold DepWindow.select at *
    · rw [modify_insts]
      split <;> rfl
    · rw [modify_insts]
      split <;> exact ⟨rfl, rfl⟩
    · rw [modify_insts]
      split <;> exact List.Subset.refl _
    · rw [modify_insts]
      split <;> rfl
    · rw [modify_insts] at hf
      split at hf
      · rename_i hji
        subst hji
        refine hf.imp id fun hw => ⟨hw.1, .inl hcb⟩
      · exact hf
  · -- `executing`
    rename_i hcb
    cases hf
    have hi := hD.stage i (.inr (by rw [hcb]; rfl))
    have hp := h.progress i (s.insts i).executed (some .executed) id (by simp [Findable, hi])
    unfold Resource.executing DepWindow.wakeUpDeps
    rw [modify_congr (g := fun x => { x with executed := (s.insts i).executed, cb := some .executed }) (by rfl)]
    exact hp
  · -- `executed`
    rename_i hcb
    cases hf
    have hi := hD.stage i (.inr (by rw [hcb]; rfl))
    unfold Resource.executed DepWindow.executed
    rw [clearRATEntry_modify (by simp)]
    have hp := h.progress i true none (by simp) (by simp [Findable, hi])
    have hD' : Deps ((s.clearRATEntry i).modify i fun x => { x with executed := true, cb := none }) none :=
      (hD.clearRATEntry i).modify i (fun y => ⟨rfl, rfl, rfl, rfl⟩) (fun y hy => hy) fun _ => hi
    exact hp.wakeAll hD' (by rw [modify_insts, if_pos rfl]) _

end Renamed

/-! ## Rename -/

/-- An instruction is on its way into the window: it has its position, and the others are as they were
in `s₀`, but for what is linked behind them. -/
structure Entering (s₀ s : InFlight) (f : Fetched) : Prop where
  n : s.n = s₀.n + 1
  RAT : s.RAT = s₀.RAT
  deps : Deps s (some s₀.n)
  old : ∀ j < s₀.n, s.insts j = { s₀.insts j with first := (s.insts j).first }
  first : ∀ j, (s₀.insts j).first ⊆ (s.insts j).first
  inst : (s.insts s₀.n).inst = f.inst
  notYet : (s.insts s₀.n).executed = false

theorem rename_insts (s : InFlight) (f : Fetched) (j : Nat) :
    (s.rename f).insts j = if j = s.n then DInst.setup f (s.insts s.n).first else s.insts j :=
  Function.update_apply _ _ _ _

theorem addSrcIf_first {q : Option Nat} {k : Fin 3} (s : InFlight) (i j : Nat) :
    (s.insts j).first ⊆ ((s.addSrcIf k q i).insts j).first := by
  unfold InFlight.addSrcIf
  cases q with
  | none => exact List.Subset.refl _
  | some p =>
    simp only
    rw [addSrc_insts]
    simp only
    split
    · exact List.subset_append_left _ _
    · exact List.Subset.refl _

theorem addSrcIf_mem {k : Fin 3} (s : InFlight) (i w : Nat) :
    (i, k) ∈ ((s.addSrcIf k (some w) i).insts w).first := by
  unfold InFlight.addSrcIf
  simp only
  rw [addSrc_insts]
  simp

theorem addSrcIf_pend {q : Option Nat} {k k' : Fin 3} (hk : k' ≠ k) (s : InFlight) (i j : Nat) :
    ((s.addSrcIf k q i).insts j).pend k' = (s.insts j).pend k' := by
  unfold InFlight.addSrcIf
  cases q with
  | none => rfl
  | some p =>
    simp only
    rw [addSrc_insts]
    simp only
    split
    · exact Function.update_of_ne hk _ _
    · rfl

namespace Entering

variable {s₀ : InFlight} {f : Fetched}

theorem rename (h : Deps s₀ none) (f : Fetched) : Entering s₀ (s₀.rename f) f where
  n := rfl
  RAT := rfl
  deps := h.rename f
  old j hj := by
    rw [rename_insts, if_neg (by omega)]
  first j := by
    rw [rename_insts]
    split
    · rename_i hj
      rw [hj]
      exact List.Subset.refl _
    · exact List.Subset.refl _
  inst := by
    rw [rename_insts, if_pos rfl]
    rfl
  notYet := by
    rw [rename_insts, if_pos rfl]
    rfl

/-- A free slot is linked, or not. -/
theorem addSrcIf (h : Entering s₀ s f) {k : Fin 3} {q : Option Nat}
    (hk : (s.insts s₀.n).pend k = false) : Entering s₀ (s.addSrcIf k q s₀.n) f := by
  cases q with
  | none => exact h
  | some p =>
    refine ⟨h.n, h.RAT, h.deps.addSrc (by have := h.n; omega) hk p, fun j hj => ?_, fun j => ?_, ?_, ?_⟩
    · unfold InFlight.addSrcIf
      simp only
      rw [addSrc_insts, h.old j hj]
      simp [show j ≠ s₀.n by omega]
    · exact fun y hy => addSrcIf_first s s₀.n j (h.first j hy)
    · unfold InFlight.addSrcIf
      simp only
      rw [addSrc_insts]
      exact h.inst
    · unfold InFlight.addSrcIf
      simp only
      rw [addSrc_insts]
      exact h.notYet

/-- The new instruction gets its entries of the alias tables. -/
theorem modify (h : Entering s₀ s f) {g : DInst → DInst}
    (hg : ∀ y, (g y).nDeps = y.nDeps ∧ (g y).pend = y.pend ∧ (g y).first = y.first ∧ (g y).issued = y.issued)
    (hw : ∀ y, (g y).waited = y.waited ∧ (g y).executed = y.executed ∧ (g y).cb = y.cb ∧ (g y).inst = y.inst)
    (rat : RegType → Option Nat) :
    Entering s₀ { s.modify s₀.n g with serializeRAT := rat } f := by
  have hD : Deps (s.modify s₀.n g) (some s₀.n) := by
    refine h.deps.modify s₀.n hg (fun y hy => (hw y).1.trans hy) ?_
    rw [(hw _).2.1, (hw _).2.2.1]
    exact h.deps.stage s₀.n
  refine ⟨h.n, h.RAT, hD.tables _ rat,
    fun j hj => ?_, fun j => ?_, ?_, ?_⟩
  · show (s.modify s₀.n g).insts j = _
    rw [modify_insts, if_neg (by omega), h.old j hj]
  · show _ ⊆ ((s.modify s₀.n g).insts j).first
    rw [modify_insts]
    split
    · rw [(hg _).2.2.1]
      exact h.first j
    · exact h.first j
  · show ((s.modify s₀.n g).insts s₀.n).inst = _
    rw [modify_insts, if_pos rfl, (hw _).2.2.2]
    exact h.inst
  · show ((s.modify s₀.n g).insts s₀.n).executed = _
    rw [modify_insts, if_pos rfl, (hw _).2.1]
    exact h.notYet

end Entering

/-- The slots of its sources are still free. -/
structure Ready (s₀ s : InFlight) (f : Fetched) : Prop extends Entering s₀ s f where
  free : ∀ k ≠ 2, (s.insts s₀.n).pend k = false

namespace Ready

variable {s₀ : InFlight} {f : Fetched}

theorem rename (h : Deps s₀ none) (f : Fetched) : Ready s₀ (s₀.rename f) f := by
  refine ⟨.rename h f, fun k _ => ?_⟩
  rw [rename_insts, if_pos rfl]
  rfl

theorem addSrc3 (h : Ready s₀ s f) (hk : (s.insts s₀.n).pend 2 = false) (q : Option Nat) :
    Ready s₀ (s.addSrcIf 2 q s₀.n) f :=
  ⟨h.toEntering.addSrcIf hk, fun k' hk' => (addSrcIf_pend hk' s s₀.n s₀.n).trans (h.free k' hk')⟩

theorem linkLast (h : Ready s₀ s f) (hk : (s.insts s₀.n).pend 2 = false) (done : DInst → Bool)
    (last : Option Nat) : Ready s₀ (OoO.linkLast done s last s₀.n) f := by
  unfold OoO.linkLast
  split
  · exact h
  · rename_i p
    split
    · exact h
    · exact h.addSrc3 hk (some p)

theorem linkSame (h : Ready s₀ s f) (hk : (s.insts s₀.n).pend 2 = false) (r : RegType) :
    Ready s₀ (OoO.linkSame s r s₀.n) f := by
  unfold OoO.linkSame
  split
  · exact h
  · rename_i p _
    split
    · exact h
    · exact h.addSrc3 hk (some p)

theorem setSerializeEntry (h : Ready s₀ s f) (r : RegType) : Ready s₀ (OoO.setSerializeEntry s r s₀.n) f := by
  unfold OoO.setSerializeEntry
  refine ⟨h.toEntering.modify (g := fun y => { y with serializeEntry := some r }) (by simp) (by simp) _,
    fun k hk => ?_⟩
  simp only [modify_insts, if_true]
  exact h.free k hk

theorem clearSerialize (h : Ready s₀ s f) : Ready s₀ (OoO.clearSerialize s s₀.n) f := by
  obtain ⟨⟨hn, hR, hD, ho, hf, hi, he⟩, hfree⟩ := h
  exact ⟨⟨hn, hR, hD.tables _ _, ho, hf, hi, he⟩, hfree⟩

theorem serializeAll (h : Ready s₀ s f) (done : DInst → Bool) (z : Serial) :
    Ready s₀ (OoO.serializeAll done s z s₀.n).1 f := by
  unfold OoO.serializeAll
  split
  · rename_i hc
    refine h.linkLast ?_ done _
    simpa [DInst.isSrc3Ready] using (Bool.and_eq_true_iff.1 hc).2
  · exact h

theorem serializeStores (h : Ready s₀ s f) (z : Serial) : Ready s₀ (OoO.serializeStores s z s₀.n).1 f := by
  unfold OoO.serializeStores
  split
  · rename_i hc
    refine h.linkLast ?_ _ _
    simpa [DInst.isSrc3Ready] using (Bool.and_eq_true_iff.1 hc).2
  · split
    · rename_i hc
      refine h.linkLast ?_ _ _
      simpa [DInst.isSrc3Ready] using (Bool.and_eq_true_iff.1 hc).2
    · exact h

theorem serializeSame (h : Ready s₀ s f) (hk : (s.insts s₀.n).pend 2 = false) (z : Serial) :
    Ready s₀ (OoO.serializeSame s z s₀.n).1 f := by
  unfold OoO.serializeSame
  simp only
  split
  · split
    · exact (h.linkSame hk _).setSerializeEntry _
    · exact h.clearSerialize
  · exact h

/-- The serialization links the third slot at most. With `scooreMemory` it does not look whether the slot is
free: no store set has linked it. -/
theorem serialize {k : OoOConfig} (h : Ready s₀ s f)
    (hk : k.scooreMemory = true → (s.insts s₀.n).pend 2 = false) (recovering : Bool) (z : Serial) :
    Ready s₀ (OoO.serialize k recovering s z s₀.n).1 f := by
  unfold OoO.serialize
  split
  · simp only
    split
    · exact h.serializeAll _ _
    · rename_i hsc
      have hsc : k.scooreMemory = true := by simpa using hsc
      split
      · exact h.serializeAll _ _
      · split
        · exact h.serializeStores _
        · exact h.serializeSame (hk hsc) _
  · exact h

/-- From the store set to the serialization. -/
theorem storeSetInsert {k : OoOConfig} (h : Deps s₀ none) (f : Fetched) (lfs : Option Nat) (recovering : Bool)
    (z : Serial) :
    Ready s₀ (OoO.serialize k recovering (OoO.storeSetInsert k (s₀.rename f) lfs s₀.n) z s₀.n).1 f := by
  have h0 := Ready.rename h f
  have hfree : ((s₀.rename f).insts s₀.n).pend 2 = false := by
    rw [rename_insts, if_pos rfl]
    rfl
  unfold OoO.storeSetInsert
  by_cases hsc : k.scooreMemory = true
  · rw [if_pos hsc]
    exact h0.serialize (fun _ => hfree) recovering z
  · rw [if_neg hsc]
    exact (h0.addSrc3 hfree lfs).serialize (fun hc => absurd hc hsc) recovering z

/-- **The links of the sources.** Each source is linked behind the instruction that the alias table names
for it. -/
theorem link (h : Ready s₀ s f) :
    Entering s₀ (OoO.link s s₀.n) f ∧
      ∀ k w, s₀.RAT (f.inst.src k) = some w → (s₀.n, srcSlot k) ∈ ((OoO.link s s₀.n).insts w).first := by
  have h0 := h.free 0 (by decide)
  have h1 := h.free 1 (by decide)
  unfold OoO.link
  rw [if_neg (by simp [DInst.isSrc2Ready, h1]), h.inst, h.RAT]
  have hE := h.toEntering.addSrcIf (q := s₀.RAT f.inst.src1) h0
  have hE' := hE.addSrcIf (k := 1) (q := s₀.RAT f.inst.src2) (by rw [addSrcIf_pend (by decide)]; exact h1)
  refine ⟨hE', ?_⟩
  intro k w hw
  cases k with
  | false =>
    have hw : s₀.RAT f.inst.src1 = some w := hw
    rw [hw]
    exact addSrcIf_first _ _ _ (addSrcIf_mem s s₀.n w)
  | true =>
    have hw : s₀.RAT f.inst.src2 = some w := hw
    rw [hw]
    exact addSrcIf_mem _ _ _

end Ready

/-- The new instruction is in the window and not yet in the alias table. -/
structure Entered (s₀ s : InFlight) (f : Fetched) : Prop where
  RAT : ∀ r, s.RAT r = s₀.RAT r
  old : ∀ j < s₀.n, s.insts j = { s₀.insts j with first := (s.insts j).first }
  first : ∀ j, (s₀.insts j).first ⊆ (s.insts j).first
  inst : (s.insts s₀.n).inst = f.inst
  notYet : (s.insts s₀.n).executed = false
  entry : (s.insts s₀.n).RAT1Entry = some f.inst.dst1 ∧ (s.insts s₀.n).RAT2Entry = some f.inst.dst2

/-- With the new instruction too, the entries of the table are those of the destinations. -/
theorem entry_setRAT {s₀ : InFlight} {f : Fetched} (hinst : (s.insts s₀.n).inst = f.inst)
    (hold : ∀ j < s₀.n, s.insts j = { s₀.insts j with first := (s.insts j).first })
    (hnew : (s.insts s₀.n).RAT1Entry = some f.inst.dst1 ∧ (s.insts s₀.n).RAT2Entry = some f.inst.dst2)
    (h₀ : ∀ j < s₀.n, (s₀.insts j).RAT1Entry = some (s₀.insts j).inst.dst1 ∧
      (s₀.insts j).RAT2Entry = some (s₀.insts j).inst.dst2) :
    ∀ j < s₀.n + 1, ((s.setRAT s₀.n).insts j).RAT1Entry = some ((s.setRAT s₀.n).insts j).inst.dst1 ∧
      ((s.setRAT s₀.n).insts j).RAT2Entry = some ((s.setRAT s₀.n).insts j).inst.dst2 := by
  intro j hj
  show (s.insts j).RAT1Entry = some (s.insts j).inst.dst1 ∧ (s.insts j).RAT2Entry = some (s.insts j).inst.dst2
  by_cases hjn : j = s₀.n
  · rw [hjn, hinst]
    exact hnew
  · rw [hold j (by omega)]
    exact h₀ j (by omega)

theorem addInst_insts (s : InFlight) (i j : Nat) :
    (DepWindow.addInst s i).insts j = { s.insts j with
      issued := ((DepWindow.addInst s i).insts j).issued
      cb := ((DepWindow.addInst s i).insts j).cb
      waited := ((DepWindow.addInst s i).insts j).waited } ∧
      (j ≠ i → (DepWindow.addInst s i).insts j = s.insts j) := by
  unfold DepWindow.addInst
  split
  · rw [modify_insts]
    refine ⟨by split <;> rfl, fun hj => if_neg hj⟩
  · rw [preSelect_insts]
    exact ⟨rfl, fun hj => by simp [hj]⟩

theorem addInst_n (s : InFlight) (i : Nat) : (DepWindow.addInst s i).n = s.n := by
  unfold DepWindow.addInst
  split <;> rfl

theorem Entering.addInst {s₀ : InFlight} {f : Fetched} (h : Entering s₀ s f) (h₀ : Renamed s₀ s₀.n)
    (hentry : (s.insts s₀.n).RAT1Entry = some f.inst.dst1 ∧ (s.insts s₀.n).RAT2Entry = some f.inst.dst2) :
    Entered s₀ (DepWindow.addInst s s₀.n) f := by
  constructor
  · -- the table does not name the new instruction yet, so there is nothing to clear
    intro r
    have hne : s₀.RAT r ≠ some s₀.n := by
      intro hr
      have := (lastWriter_some (h₀.named r _ hr).1).1
      omega
    unfold DepWindow.addInst
    split
    · rw [modify_RAT, h.RAT]
    · rw [preSelect_RAT, h.RAT, if_neg fun hc => hne hc.1]
  · intro j hj
    rw [(addInst_insts s s₀.n j).2 (by omega)]
    exact h.old j hj
  · intro j
    rw [(addInst_insts s s₀.n j).1]
    exact h.first j
  · rw [(addInst_insts s s₀.n s₀.n).1]
    exact h.inst
  · rw [(addInst_insts s s₀.n s₀.n).1]
    exact h.notYet
  · rw [(addInst_insts s s₀.n s₀.n).1]
    exact hentry

namespace Entered

variable {s₀ : InFlight} {f : Fetched}

theorem setRAT_RAT (h : Entered s₀ s f) (r : RegType) :
    (s.setRAT s₀.n).RAT r = if f.inst.writes r then some s₀.n else s₀.RAT r := by
  rw [setRAT_apply, h.inst, h.RAT]

theorem inst_old (h : Entered s₀ s f) : ∀ j < s₀.n, ((s.setRAT s₀.n).insts j).inst = (s₀.insts j).inst := by
  intro j hj
  show (s.insts j).inst = _
  rw [h.old j hj]

theorem lastWriter_setRAT (h : Entered s₀ s f) (r : RegType) :
    lastWriter (s.setRAT s₀.n) r (s₀.n + 1) = if f.inst.writes r then some s₀.n else lastWriter s₀ r s₀.n := by
  rw [lastWriter_succ, lastWriter_congr h.inst_old]
  show (if (s.insts s₀.n).inst.writes r = true then _ else _) = _
  rw [h.inst]

/-- **The invariant after a rename** whose sources are linked behind their last writers. -/
theorem renamed (h : Entered s₀ s f) (h₀ : Renamed s₀ s₀.n)
    (hlink : ∀ k w, f.inst.src k ≠ LREG_NoDependence → lastWriter s₀ (f.inst.src k) s₀.n = some w →
      (s₀.insts w).executed = true ∨ (s₀.n, srcSlot k) ∈ (s.insts w).first) :
    Renamed (s.setRAT s₀.n) (s₀.n + 1) := by
  constructor
  · exact entry_setRAT h.inst h.old h.entry h₀.entry
  · -- the table now names the new instruction for what it writes
    intro r w hr
    rw [h.setRAT_RAT] at hr
    rw [h.lastWriter_setRAT]
    by_cases hw : f.inst.writes r = true
    · rw [if_pos hw] at hr ⊢
      obtain rfl := Option.some.inj hr
      exact ⟨rfl, h.notYet⟩
    · rw [if_neg hw] at hr ⊢
      obtain ⟨hl, hex⟩ := h₀.named r w hr
      refine ⟨hl, ?_⟩
      show (s.insts w).executed = false
      rw [h.old w (lastWriter_some hl).1]
      exact hex
  · intro r w hl hf
    rw [h.lastWriter_setRAT] at hl
    rw [h.setRAT_RAT]
    by_cases hw : f.inst.writes r = true
    · rw [if_pos hw] at hl ⊢
      exact hl
    · rw [if_neg hw] at hl ⊢
      have hf : Findable (s.insts w) := hf
      rw [h.old w (lastWriter_some hl).1] at hf
      exact h₀.kept r w hl hf
  · intro j hj k w hsrc hl
    show (s.insts w).executed = true ∨ (j, srcSlot k) ∈ (s.insts w).first
    have hsrc : (s.insts j).inst.src k ≠ LREG_NoDependence := hsrc
    have hl : lastWriter (s.setRAT s₀.n) ((s.insts j).inst.src k) j = some w := hl
    rw [lastWriter_congr fun j' hj' => h.inst_old j' (by omega)] at hl
    have hwj := (lastWriter_some hl).1
    -- the new instruction is linked to its writers by `hlink`, the others as before
    by_cases hjn : j = s₀.n
    · subst hjn
      rw [h.inst] at hsrc hl
      rw [h.old w hwj]
      exact hlink k w hsrc hl
    · rw [h.old j (by omega)] at hsrc hl
      refine (h₀.linked j (by omega) k w hsrc hl).imp ?_ fun hm => h.first w hm
      rw [h.old w (by omega)]
      exact id

end Entered

/-! ## Runs -/

namespace OoO

/-- `addInst` finds no reason to stall. -/
def Accepts (k : OoOConfig) (o : OoO) (f : Fetched) (sc : StallCause) : Prop :=
  ¬(o.replayRecovering = true ∧ o.replayID < f.ID) ∧ o.ROB.length + o.rROB.length < k.MaxROBSize ∧ sc = .NoStall

instance (k : OoOConfig) (o : OoO) (f : Fetched) (sc : StallCause) : Decidable (Accepts k o f sc) := by
  unfold Accepts
  infer_instance

/-- The last writer of each source of a renamed instruction has executed, or the alias table still names it. -/
def FindsWriters (k : OoOConfig) (o : OoO) : Event → Prop
  | .addInst f sc _ =>
    Accepts k o f sc → ∀ src, f.inst.src src ≠ LREG_NoDependence →
      ∀ w ∈ lastWriter o.core (f.inst.src src) o.core.n,
        (o.core.insts w).executed = true ∨ Findable (o.core.insts w)
  | _ => True

instance (k : OoOConfig) (o : OoO) : ∀ e, Decidable (FindsWriters k o e)
  | .addInst f sc _ => inferInstanceAs (Decidable (Accepts k o f sc → ∀ src,
      f.inst.src src ≠ LREG_NoDependence → ∀ w ∈ lastWriter o.core (f.inst.src src) o.core.n,
        (o.core.insts w).executed = true ∨ Findable (o.core.insts w)))
  | .fire _ | .replay _ | .recover | .preretire | .retire => inferInstanceAs (Decidable True)

/-- The last writers of the sources of every issued instruction have executed. -/
def AfterSources (s : InFlight) : Prop :=
  ∀ i < s.n, (s.insts i).issued = true → ∀ src, (s.insts i).inst.src src ≠ LREG_NoDependence →
    ∀ w ∈ lastWriter s ((s.insts i).inst.src src) i, (s.insts w).executed = true

instance (s : InFlight) : Decidable (AfterSources s) := by
  unfold AfterSources
  infer_instance

/-- The invariant of the core. -/
structure Inv (o : OoO) : Prop where
  deps : Deps o.core none
  renamed : Renamed o.core o.core.n

theorem Inv.afterSources {o : OoO} (h : Inv o) : AfterSources o.core := by
  intro i hi hiss src hsrc w hw
  rcases h.renamed.linked i hi src w hsrc hw with hex | hl
  · exact hex
  · exact absurd hl (h.deps.not_linked hiss _ w)

theorem inv_init (logical : RegType) (pc : Nat) : Inv (init logical pc) := by
  refine ⟨⟨?_, ?_, ?_, ?_, ?_, ?_, ?_, ?_, ?_⟩, ⟨?_, ?_, ?_, ?_⟩⟩
  all_goals simp [init, InFlight.empty, DInst.setup, DInst.used, lastWriter]

theorem Inv.insert {k : OoOConfig} {o : OoO} {f : Fetched} {lfs : Option Nat} (h : Inv o)
    (hf : ∀ src, f.inst.src src ≠ LREG_NoDependence → ∀ w ∈ lastWriter o.core (f.inst.src src) o.core.n,
      (o.core.insts w).executed = true ∨ Findable (o.core.insts w)) : Inv (OoO.insert k o f lfs) := by
  have hready := Ready.storeSetInsert (k := k) h.deps f lfs o.replayRecovering o.serial
  obtain ⟨hE, hmem⟩ := hready.link
  set t := OoO.link (serialize k o.replayRecovering (storeSetInsert k (o.core.rename f) lfs o.core.n) o.serial
    o.core.n).1 o.core.n with ht
  have hE' : Entering o.core (t.setRATEntries o.core.n) f :=
    hE.modify (g := fun y => { y with RAT1Entry := some y.inst.dst1, RAT2Entry := some y.inst.dst2 })
      (by simp) (by simp) t.serializeRAT
  have hentry : ((t.setRATEntries o.core.n).insts o.core.n).RAT1Entry = some f.inst.dst1 ∧
      ((t.setRATEntries o.core.n).insts o.core.n).RAT2Entry = some f.inst.dst2 := by
    unfold InFlight.setRATEntries
    rw [modify_insts, if_pos rfl, ← hE.inst]
    exact ⟨rfl, rfl⟩
  have hlink : ∀ src w, f.inst.src src ≠ LREG_NoDependence →
      lastWriter o.core (f.inst.src src) o.core.n = some w → (o.core.insts w).executed = true ∨
        (o.core.n, srcSlot src) ∈ ((DepWindow.addInst (t.setRATEntries o.core.n) o.core.n).insts w).first := by
    intro src w hsrc hw
    refine (hf src hsrc w hw).imp id fun hfind => ?_
    -- a writer that can be found is named by the table, and so it is linked
    have hRAT := h.renamed.kept _ w hw hfind
    rw [(addInst_insts _ _ w).1]
    unfold InFlight.setRATEntries
    simp only
    rw [modify_insts]
    have hm := hmem src w hRAT
    split <;> exact hm
  -- `setRAT` comes after the window and touches the table only
  have hD := hE'.deps.addInst (by have := hE'.n; omega)
  refine ⟨hD.tables _ _, ?_⟩
  have hn : (OoO.insert k o f lfs).core.n = o.core.n + 1 := (addInst_n _ _).trans hE'.n
  rw [hn]
  exact (hE'.addInst h.renamed hentry).renamed h.renamed hlink

/-- **One step.** -/
theorem Inv.step {k : OoOConfig} {o o' : OoO} {e : Event} (hs : OoO.step k o e = some o')
    (hok : FindsWriters k o e) (h : Inv o) : Inv o' := by
  cases e with
  | addInst f sc lfs =>
    obtain rfl := Option.some.inj hs
    unfold OoO.addInst
    split
    · exact h
    · rename_i hrec
      split
      · exact h
      · rename_i hrob
        split
        · exact h
        · rename_i hsc
          exact h.insert (hok ⟨hrec, by omega, not_not.1 hsc⟩)
  | fire i =>
    simp only [OoO.step, Option.map_eq_some_iff] at hs
    obtain ⟨s, hf, rfl⟩ := hs
    refine ⟨h.deps.fire hf, ?_⟩
    show Renamed s s.n
    rw [fire_n hf]
    exact h.renamed.fire h.deps hf
  | replay target =>
    obtain rfl := Option.some.inj hs
    unfold OoO.replay
    split
    · exact h
    · exact ⟨h.deps, h.renamed⟩
  | recover =>
    simp only [OoO.step, Option.ite_none_right_eq_some, Option.some.injEq] at hs
    obtain ⟨-, rfl⟩ := hs
    exact ⟨h.deps, h.renamed⟩
  | preretire =>
    simp only [OoO.step] at hs
    split at hs
    · cases hs
    · simp only [Option.ite_none_right_eq_some, Option.some.injEq] at hs
      obtain ⟨-, rfl⟩ := hs
      exact ⟨h.deps, h.renamed⟩
  | retire =>
    simp only [OoO.step] at hs
    split at hs
    · cases hs
    · simp only [Option.ite_none_right_eq_some, Option.some.injEq] at hs
      obtain ⟨-, rfl⟩ := hs
      exact ⟨h.deps, h.renamed⟩

/-- **Register dependences.** In every run whose renames find the last writers of their sources, not yet
executed, in the alias table, an instruction is issued only after these writers have executed. -/
theorem issued_after_sources {k : OoOConfig} {logical : RegType} {pc : Nat} {es : List Event} {o : OoO}
    (h : run (OoO.step k) (init logical pc) es = some o)
    (hok : Along (OoO.step k) (FindsWriters k) (init logical pc) es) : AfterSources o.core :=
  (run_inv_along (I := Inv) (fun _ _ _ hs hp hi => hi.step hs hp) h hok (inv_init logical pc)).afterSources

/-- A core without serialization. -/
def smallOoO : OoOConfig := ⟨8, false, false, 0⟩

/-- An arithmetic instruction. -/
def alu (src1 src2 dst1 : RegType) : Event :=
  .addInst ⟨⟨.iAALU, src1, src2, dst1, LREG_InvalidOutput⟩, 0, 0⟩ .NoStall none

/-- A reader that is renamed at once waits until the writer has executed. -/
theorem issued_after_sources_linked :
    ∃ o, run (OoO.step smallOoO) (init 0 0) [alu 0 0 1, alu 1 0 2, .fire 0, .fire 0, .fire 0] = some o ∧
      (o.core.insts 1).issued = true ∧ AfterSources o.core := by
  obtain ⟨o, ho⟩ := Option.isSome_iff_exists.1
    (show (run (OoO.step smallOoO) (init 0 0) [alu 0 0 1, alu 1 0 2, .fire 0, .fire 0, .fire 0]).isSome = true by decide)
  refine ⟨o, ho, ?_, issued_after_sources ho (by decide)⟩
  have : (run (OoO.step smallOoO) (init 0 0) [alu 0 0 1, alu 1 0 2, .fire 0, .fire 0, .fire 0]).map
      (fun o => (o.core.insts 1).issued) = some true := by decide
  rw [ho] at this
  exact Option.some.inj this

/-- A reader that is renamed after the writer has started executing is issued before it has executed. -/
theorem issued_before_source :
    ∃ o, run (OoO.step smallOoO) (init 0 0) [alu 0 0 1, .fire 0, .fire 0, alu 1 0 2] = some o ∧
      ¬AfterSources o.core := by
  obtain ⟨o, ho⟩ := Option.isSome_iff_exists.1
    (show (run (OoO.step smallOoO) (init 0 0) [alu 0 0 1, .fire 0, .fire 0, alu 1 0 2]).isSome = true by decide)
  refine ⟨o, ho, ?_⟩
  have : (run (OoO.step smallOoO) (init 0 0) [alu 0 0 1, .fire 0, .fire 0, alu 1 0 2]).map
      (fun o => decide (AfterSources o.core)) = some false := by decide
  rw [ho] at this
  exact of_decide_eq_false (Option.some.inj this)

end OoO

end Esesc.Core
