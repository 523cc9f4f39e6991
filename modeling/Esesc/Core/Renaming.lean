import Mathlib.Data.Finset.Sort
import Mathlib.Data.Finset.Image
import Esesc.Core.MegaOp

/-!
# Renaming for fusion

`MegaOpCluster::rename` of the `ESESC_FUZE` build goes through the pending mega-ops from the last
one. A mega-op that writes a register which is overwritten later gets a temporary register for it,
and the reads up to the next write follow. It is meant to keep the data flow.

* `renameUpTo_get`, `renameAll_spec`: the reads that follow a register.
* `sources_cons`, `unshared_cons`, `lastWriters_cons`: what one more mega-op does to the data flow.
* `rename_right_iff`: the lists whose data flow is kept.
-/

namespace Esesc.Core

def LREG_FUZE0 : RegType := 1700

namespace MegaOp

def renameSrcs (op : MegaOp) (oldReg newReg : RegType) : MegaOp :=
  if oldReg ∈ op.srcs then { op with srcs := insert newReg (op.srcs.erase oldReg) } else op

def renameDsts (op : MegaOp) (oldReg newReg : RegType) : MegaOp :=
  if oldReg ∈ op.dsts then { op with dsts := insert newReg (op.dsts.erase oldReg) } else op

end MegaOp

/-- A mega-op that is renamed. The last two members are not in the source: they log the register that
each source and each destination has become. -/
structure RenamedOp extends MegaOp where
  srcName : RegType → RegType
  dstName : RegType → RegType

namespace RenamedOp

def ofMegaOp (op : MegaOp) : RenamedOp := ⟨op, id, id⟩

def renameSrcs (p : RenamedOp) (oldReg newReg : RegType) : RenamedOp :=
  { p with
    toMegaOp := p.toMegaOp.renameSrcs oldReg newReg
    srcName := fun r => if p.srcName r = oldReg then newReg else p.srcName r }

def renameDsts (p : RenamedOp) (oldReg newReg : RegType) : RenamedOp :=
  { p with
    toMegaOp := p.toMegaOp.renameDsts oldReg newReg
    dstName := fun r => if p.dstName r = oldReg then newReg else p.dstName r }

end RenamedOp

namespace MegaOpCluster

/-- The inner loop. It ends with the first mega-op that writes the register, whose sources are still
renamed. -/
def renameUpTo (chng tmpReg : RegType) : List RenamedOp → List RenamedOp
  | [] => []
  | p :: ps =>
    if (p.renameSrcs chng tmpReg).matchDsts {chng} then p.renameSrcs chng tmpReg :: ps
    else p.renameSrcs chng tmpReg :: renameUpTo chng tmpReg ps

/-- The loop over `fuzeDsts`, in their order. -/
def renameAll (tmpReg : RegType) (fuzeDsts : List RegType) (focus : RenamedOp) (later : List RenamedOp) :
    RenamedOp × List RenamedOp :=
  fuzeDsts.foldl (fun s chng => (s.1.renameDsts chng tmpReg, renameUpTo chng tmpReg s.2)) (focus, later)

/-- The variables of `rename`, with the mega-ops from `renameFocus` on. Temporary registers are
numbered on from `LREG_FUZE0`. -/
structure RenameWalk where
  ops : List RenamedOp
  tmpReg : RegType
  fuzeDsts : RegSet

/-- One step of `renameFocus` towards the begin of the list. -/
def RenameWalk.step (op : MegaOp) (w : RenameWalk) : RenameWalk :=
  if op.matchDsts w.fuzeDsts then
    let s := renameAll w.tmpReg w.fuzeDsts.sort (.ofMegaOp op) w.ops
    ⟨s.1 :: s.2, w.tmpReg + 1, w.fuzeDsts⟩
  else ⟨.ofMegaOp op :: w.ops, w.tmpReg, w.fuzeDsts ∪ op.dsts⟩

def renameWalk (pendingMegaOps : List MegaOp) : RenameWalk :=
  pendingMegaOps.foldr RenameWalk.step ⟨[], LREG_FUZE0, ∅⟩

/-- There is no last mega-op of an empty list. -/
def rename (pendingMegaOps : List MegaOp) : Option (List RenamedOp) :=
  if pendingMegaOps = [] then none else some (renameWalk pendingMegaOps).ops

end MegaOpCluster

open MegaOpCluster

/-! ## Data flow -/

/-- The latest place before `n` whose mega-op writes a register. -/
def producer : List RegSet → ℕ → RegType → Option ℕ
  | d :: ds, n + 1, r =>
    match producer ds n r with
    | some j => some (j + 1)
    | none => if r ∈ d then some 0 else none
  | _, _, _ => none

/-- A mega-op of the list reads a register before any writes it. -/
def live : List MegaOp → RegType → Bool
  | [], _ => false
  | op :: ops, r => r ∈ op.srcs || (r ∉ op.dsts && live ops r)

/-- A live value of the list, which the mega-op at place `i` writes to `r`, and the register that it
has become. -/
def LiveValue (ops : List MegaOp) (names : List (RegType → RegType)) (i : ℕ) (r x : RegType) : Prop :=
  ∃ op name, ops[i]? = some op ∧ names[i]? = some name ∧ r ∈ op.dsts ∧ live (ops.drop (i + 1)) r = true ∧ name r = x

/-- What the log says of a mega-op. -/
def Logged (op : MegaOp) (p : RenamedOp) : Prop := p.srcs = op.srcs.image p.srcName ∧ p.dsts = op.dsts.image p.dstName

/-- Every source resolves to the mega-op that it did, or to the value before the list. -/
def SourcesKept (ops : List MegaOp) (rs : List RenamedOp) : Prop :=
  ∀ n op p, ops[n]? = some op → rs[n]? = some p → ∀ r ∈ op.srcs,
    producer (rs.map (·.dsts)) n (p.srcName r) = producer (ops.map (·.dsts)) n r

/-- No two live values share a temporary register. -/
def Unshared (ops : List MegaOp) (names : List (RegType → RegType)) : Prop :=
  ∀ x, LREG_FUZE0 ≤ x → ∀ i j r r', LiveValue ops names i r x → LiveValue ops names j r' x → i = j ∧ r = r'

/-- The last writer of every architectural register is the same. -/
def LastWritersKept (ops : List MegaOp) (rs : List RenamedOp) : Prop :=
  ∀ r, r < LREG_FUZE0 → producer (rs.map (·.dsts)) rs.length r = producer (ops.map (·.dsts)) ops.length r

/-- **The data flow is kept.** -/
structure FlowKept (ops : List MegaOp) (rs : List RenamedOp) : Prop where
  logged : List.Forall₂ Logged ops rs
  sources : SourcesKept ops rs
  temporaries : Unshared ops (rs.map (·.dstName))
  lastWriters : LastWritersKept ops rs

/-- The destinations of the mega-ops that are kept as they are: from the end of the list, those that
share no destination with one kept after them. -/
def keptDsts : List MegaOp → RegSet
  | [] => ∅
  | op :: ops => if Disjoint op.dsts (keptDsts ops) then op.dsts ∪ keptDsts ops else keptDsts ops

/-- **A mega-op does no harm** to the ones after it. If it is not kept, no register that it does not
write, but a kept one after it does, is live after it; and at most one of its destinations that a kept
one writes is. -/
structure Harmless (op : MegaOp) (later : List MegaOp) : Prop where
  others : ¬Disjoint op.dsts (keptDsts later) → ∀ r ∈ keptDsts later, r ∉ op.dsts → live later r = false
  single : ∀ r ∈ op.dsts ∩ keptDsts later, ∀ r' ∈ op.dsts ∩ keptDsts later,
    live later r = true → live later r' = true → r = r'

/-- Mega-ops over architectural registers. -/
def Architectural (ops : List MegaOp) : Prop := ∀ op ∈ ops, (∀ r ∈ op.srcs, r < LREG_FUZE0) ∧ ∀ r ∈ op.dsts, r < LREG_FUZE0

/-! ## Lists of destinations -/

variable {ds : List RegSet} {d : RegSet} {n j : ℕ} {r x c t : RegType} {op : MegaOp} {ops : List MegaOp}
  {p p' : RenamedOp} {rs : List RenamedOp} {cs : List RegType} {w : RenameWalk}

theorem producer_zero : producer ds 0 r = none := by
  cases ds <;> rfl

theorem producer_cons_of_some (h : producer ds n r = some j) : producer (d :: ds) (n + 1) r = some (j + 1) := by
  simp [producer, h]

theorem producer_cons_of_none (h : producer ds n r = none) :
    producer (d :: ds) (n + 1) r = if r ∈ d then some 0 else none := by
  simp [producer, h]

/-- A mega-op before the place writes the register, or none does. -/
theorem producer_cons_eq_none : producer (d :: ds) (n + 1) r = none ↔ r ∉ d ∧ producer ds n r = none := by
  cases h : producer ds n r with
  | some j => simp [producer_cons_of_some h]
  | none => simp [producer_cons_of_none h]

theorem producer_eq_none : producer ds n r = none ↔ ∀ k, k < n → ∀ d, ds[k]? = some d → r ∉ d := by
  induction ds generalizing n with
  | nil => cases n <;> simp [producer]
  | cons d ds ih =>
    cases n with
    | zero => simp [producer_zero]
    | succ n =>
      rw [producer_cons_eq_none, ih]
      constructor
      · rintro ⟨hd, hds⟩ k hk e he
        cases k with
        | zero =>
          obtain rfl := Option.some.inj he
          exact hd
        | succ k => exact hds k (by omega) e he
      · intro h
        exact ⟨h 0 (by omega) d rfl, fun k hk e he => h (k + 1) (by omega) e he⟩

theorem producer_of_not_mem (h : ∀ d ∈ ds, r ∉ d) : producer ds n r = none := by
  induction ds generalizing n with
  | nil => cases n <;> rfl
  | cons d ds ih =>
    cases n with
    | zero => exact producer_zero
    | succ n =>
      refine producer_cons_eq_none.2 ⟨h d (List.mem_cons_self ..), ih fun e he => ?_⟩
      exact h e (List.mem_cons_of_mem d he)

theorem live_iff : live ops r = true ↔
    ∃ n op, ops[n]? = some op ∧ r ∈ op.srcs ∧ producer (ops.map (·.dsts)) n r = none := by
  induction ops with
  | nil => simp [live]
  | cons q ops ih =>
    have hlive : live (q :: ops) r = true ↔ r ∈ q.srcs ∨ r ∉ q.dsts ∧ live ops r = true := by simp [live]
    rw [hlive, ih]
    constructor
    · rintro (h | ⟨hq, n, op, hop, hr, hnone⟩)
      · exact ⟨0, q, rfl, h, producer_zero⟩
      · exact ⟨n + 1, op, hop, hr, producer_cons_eq_none.2 ⟨hq, hnone⟩⟩
    · rintro ⟨n, op, hop, hr, hnone⟩
      cases n with
      | zero =>
        obtain rfl := Option.some.inj hop
        exact .inl hr
      | succ n =>
        obtain ⟨hq, hnone⟩ := producer_cons_eq_none.1 hnone
        exact .inr ⟨hq, n, op, hop, hr, hnone⟩

/-! ## Renaming one mega-op -/

theorem matchDsts_disjoint {s : RegSet} : op.matchDsts s = true ↔ ¬Disjoint op.dsts s := by
  rw [matchDsts_iff, Finset.not_disjoint_iff]

theorem matchDsts_singleton : op.matchDsts {c} = true ↔ c ∈ op.dsts := by
  rw [matchDsts_disjoint, Finset.disjoint_singleton_right, not_not]

/-- One register of a set of names is replaced. -/
theorem image_rename (s : RegSet) (f : RegType → RegType) :
    (if c ∈ s.image f then insert t ((s.image f).erase c) else s.image f) =
      s.image fun r => if f r = c then t else f r := by
  split
  · rename_i hc
    obtain ⟨a, ha, hfa⟩ := Finset.mem_image.1 hc
    ext x
    simp only [Finset.mem_insert, Finset.mem_erase, Finset.mem_image]
    constructor
    · rintro (rfl | ⟨hne, b, hb, rfl⟩)
      · exact ⟨a, ha, if_pos hfa⟩
      · exact ⟨b, hb, if_neg hne⟩
    · rintro ⟨b, hb, rfl⟩
      by_cases hfb : f b = c
      · exact .inl (if_pos hfb)
      · rw [if_neg hfb]
        exact .inr ⟨hfb, b, hb, rfl⟩
  · rename_i hc
    refine Finset.image_congr fun b hb => ?_
    have hne : f b ≠ c := fun e => hc (Finset.mem_image.2 ⟨b, hb, e⟩)
    exact (if_neg hne).symm

@[simp] theorem dsts_renameSrcs : (p.renameSrcs c t).dsts = p.dsts := by
  unfold RenamedOp.renameSrcs MegaOp.renameSrcs
  split <;> rfl

theorem Logged.ofMegaOp (op : MegaOp) : Logged op (.ofMegaOp op) :=
  ⟨Finset.image_id.symm, Finset.image_id.symm⟩

theorem Logged.renameSrcs (h : Logged op p) (c t : RegType) : Logged op (p.renameSrcs c t) := by
  refine ⟨?_, dsts_renameSrcs.trans h.2⟩
  have hsrcs : (p.renameSrcs c t).srcs = if c ∈ p.srcs then insert t (p.srcs.erase c) else p.srcs := by
    unfold RenamedOp.renameSrcs MegaOp.renameSrcs
    split <;> rfl
  rw [hsrcs, h.1]
  exact image_rename op.srcs p.srcName

theorem Logged.renameDsts (h : Logged op p) (c t : RegType) : Logged op (p.renameDsts c t) := by
  have hsrcs : (p.renameDsts c t).srcs = p.srcs := by
    unfold RenamedOp.renameDsts MegaOp.renameDsts
    split <;> rfl
  have hdsts : (p.renameDsts c t).dsts = if c ∈ p.dsts then insert t (p.dsts.erase c) else p.dsts := by
    unfold RenamedOp.renameDsts MegaOp.renameDsts
    split <;> rfl
  refine ⟨hsrcs.trans h.1, ?_⟩
  rw [hdsts, h.2]
  exact image_rename op.dsts p.dstName

/-! ## The loops -/

/-- **The inner loop** renames the sources up to the next write of the register. -/
theorem renameUpTo_get (c t : RegType) (rs : List RenamedOp) (n : ℕ) : (renameUpTo c t rs)[n]? =
    rs[n]?.map fun p => if producer (rs.map (·.dsts)) n c = none then p.renameSrcs c t else p := by
  induction rs generalizing n with
  | nil => rfl
  | cons p rs ih =>
    have hmatch : (p.renameSrcs c t).matchDsts {c} = true ↔ c ∈ p.dsts := by
      rw [matchDsts_singleton, dsts_renameSrcs]
    unfold renameUpTo
    rw [List.map_cons]
    cases n with
    | zero => split <;> simp [producer_zero]
    | succ n =>
      by_cases hc : c ∈ p.dsts
      · -- the loop has ended before
        have hsome : producer (p.dsts :: rs.map (·.dsts)) (n + 1) c ≠ none :=
          fun h => (producer_cons_eq_none.1 h).1 hc
        simp [hmatch.2 hc, hsome]
      · have hiff : producer (p.dsts :: rs.map (·.dsts)) (n + 1) c = none ↔ producer (rs.map (·.dsts)) n c = none := by
          rw [producer_cons_eq_none]
          exact and_iff_right hc
        rw [if_neg fun h => hc (hmatch.1 h)]
        simp only [List.getElem?_cons_succ, hiff]
        exact ih n

/-- What renaming does to the later mega-ops: the sources in `m` become `t`, as far as they are not
written in between. -/
structure Followed (m : RegSet) (t : RegType) (rs rs' : List RenamedOp) : Prop where
  length : rs'.length = rs.length
  dsts : rs'.map (·.dsts) = rs.map (·.dsts)
  dstName : rs'.map (·.dstName) = rs.map (·.dstName)
  srcName : ∀ n p p', rs[n]? = some p → rs'[n]? = some p' → ∀ r, p'.srcName r =
    if p.srcName r ∈ m ∧ producer (rs.map (·.dsts)) n (p.srcName r) = none then t else p.srcName r
  logged : ∀ ops, List.Forall₂ Logged ops rs → List.Forall₂ Logged ops rs'

theorem Followed.get {m : RegSet} {rs' : List RenamedOp} (h : Followed m t rs rs') (hp' : rs'[n]? = some p') :
    ∃ p, rs[n]? = some p := by
  have hlt : n < rs.length := by
    rw [← h.length]
    exact (List.getElem?_eq_some_iff.1 hp').1
  exact ⟨_, List.getElem?_eq_getElem hlt⟩

theorem followed_renameUpTo (c t : RegType) (rs : List RenamedOp) : Followed {c} t rs (renameUpTo c t rs) := by
  have hkeep : ∀ {α : Type} (f : RenamedOp → α), (∀ p : RenamedOp, f (p.renameSrcs c t) = f p) →
      (renameUpTo c t rs).map f = rs.map f := by
    intro α f hf
    apply List.ext_getElem?
    intro n
    rw [List.getElem?_map, List.getElem?_map, renameUpTo_get]
    cases rs[n]? with
    | none => rfl
    | some p =>
      simp only [Option.map_some]
      split
      · rw [hf]
      · rfl
  refine ⟨?_, hkeep _ fun p => dsts_renameSrcs, hkeep _ fun p => rfl, fun n p p' hp hp' r => ?_, fun ops h => ?_⟩
  · have hlen := congrArg List.length (hkeep (fun _ => ()) fun _ => rfl)
    simpa using hlen
  · rw [renameUpTo_get, hp, Option.map_some] at hp'
    obtain rfl := Option.some.inj hp'
    by_cases hname : p.srcName r = c
    · rw [hname]
      split <;> simp [RenamedOp.renameSrcs, *]
    · split <;> simp [RenamedOp.renameSrcs, hname]
  · clear hkeep
    induction h with
    | nil => exact .nil
    | cons hp hrs ih =>
      unfold renameUpTo
      split
      · exact .cons (hp.renameSrcs c t) hrs
      · exact .cons (hp.renameSrcs c t) ih

theorem Followed.refl (t : RegType) (rs : List RenamedOp) : Followed ∅ t rs rs where
  length := rfl
  dsts := rfl
  dstName := rfl
  srcName n p p' hp hp' r := by
    rw [hp] at hp'
    obtain rfl := Option.some.inj hp'
    simp
  logged ops h := h

/-- One register after the other, as the temporary is none of them. -/
theorem Followed.trans {m : RegSet} {rs₁ rs₂ : List RenamedOp} (h : Followed {c} t rs rs₁)
    (h' : Followed m t rs₁ rs₂) (ht : t ∉ m) : Followed (insert c m) t rs rs₂ where
  length := h'.length.trans h.length
  dsts := h'.dsts.trans h.dsts
  dstName := h'.dstName.trans h.dstName
  srcName n p p' hp hp' r := by
    have hlt : n < rs₁.length := by
      rw [h.length]
      exact (List.getElem?_eq_some_iff.1 hp).1
    have hq : rs₁[n]? = some rs₁[n] := List.getElem?_eq_getElem hlt
    have h1 := h.srcName n p rs₁[n] hp hq r
    have h2 := h'.srcName n rs₁[n] p' hq hp' r
    rw [h.dsts] at h2
    rw [h2]
    by_cases hc : p.srcName r = c ∧ producer (rs.map (·.dsts)) n (p.srcName r) = none
    · -- renamed by the first turn, and then left alone
      have hname : rs₁[n].srcName r = t := h1.trans (if_pos ⟨Finset.mem_singleton.2 hc.1, hc.2⟩)
      rw [hname, if_neg fun e => ht e.1, if_pos ⟨Finset.mem_insert.2 (.inl hc.1), hc.2⟩]
    · have hname : rs₁[n].srcName r = p.srcName r :=
        h1.trans (if_neg fun e => hc ⟨Finset.mem_singleton.1 e.1, e.2⟩)
      have hiff : (p.srcName r ∈ insert c m ∧ producer (rs.map (·.dsts)) n (p.srcName r) = none) ↔
          p.srcName r ∈ m ∧ producer (rs.map (·.dsts)) n (p.srcName r) = none := by
        rw [Finset.mem_insert]
        constructor
        · rintro ⟨heq | hmem, hnone⟩
          · exact absurd ⟨heq, hnone⟩ hc
          · exact ⟨hmem, hnone⟩
        · exact fun e => ⟨.inr e.1, e.2⟩
      rw [hname]
      simp only [hiff]
  logged ops h₀ := h'.logged ops (h.logged ops h₀)

/-- **The loop over `fuzeDsts`**: what it does to the mega-op in the focus and to the later ones. -/
theorem renameAll_spec (rs : List RenamedOp) (hp : Logged op p) (ht : t ∉ cs) :
    Followed cs.toFinset t rs (renameAll t cs p rs).2 ∧ Logged op (renameAll t cs p rs).1 ∧
      (renameAll t cs p rs).1.srcName = p.srcName ∧
      ∀ r, (renameAll t cs p rs).1.dstName r = if p.dstName r ∈ cs then t else p.dstName r := by
  induction cs generalizing p rs with
  | nil => exact ⟨.refl t rs, hp, rfl, fun r => (if_neg List.not_mem_nil).symm⟩
  | cons c cs ih =>
    have htc : t ≠ c := fun e => ht (e ▸ List.mem_cons_self ..)
    have htcs : t ∉ cs := fun e => ht (List.mem_cons_of_mem c e)
    have hstep : renameAll t (c :: cs) p rs = renameAll t cs (p.renameDsts c t) (renameUpTo c t rs) := rfl
    obtain ⟨hf, hl, hs, hd⟩ := ih (renameUpTo c t rs) (hp.renameDsts c t) htcs
    rw [hstep, List.toFinset_cons]
    refine ⟨(followed_renameUpTo c t rs).trans hf (by simpa using htcs), hl, hs, fun r => ?_⟩
    have hname : (p.renameDsts c t).dstName r = if p.dstName r = c then t else p.dstName r := rfl
    rw [hd, hname]
    by_cases hc : p.dstName r = c
    · simp [hc, htcs]
    · simp [hc]

/-! ## One mega-op more -/

/-- The registers that are renamed for a mega-op. -/
def renamed (op : MegaOp) (ops : List MegaOp) : RegSet := if Disjoint op.dsts (keptDsts ops) then ∅ else keptDsts ops

/-- What the walk knows of the mega-ops from the focus on. -/
structure Walked (ops : List MegaOp) (w : RenameWalk) : Prop where
  kept : w.fuzeDsts = keptDsts ops
  tmp : LREG_FUZE0 ≤ w.tmpReg
  logged : List.Forall₂ Logged ops w.ops
  fresh : ∀ d ∈ w.ops.map (·.dsts), ∀ x ∈ d, x < w.tmpReg
  names : ∀ n p, w.ops[n]? = some p → ∀ r, r < LREG_FUZE0 →
    p.srcName r = r ∨ LREG_FUZE0 ≤ p.srcName r ∧ producer (w.ops.map (·.dsts)) n (p.srcName r) ≠ none

/-- What one step of the walk does: `focus` is the mega-op that it adds to the later ones. -/
structure Stepped (op : MegaOp) (ops : List MegaOp) (w : RenameWalk) (focus : RenamedOp) (later : List RenamedOp) : Prop where
  followed : Followed (renamed op ops) w.tmpReg w.ops later
  logged : Logged op focus
  srcName : ∀ r, focus.srcName r = r
  dstName : ∀ r, focus.dstName r = if r ∈ renamed op ops then w.tmpReg else r

theorem keptDsts_subset (h : r ∈ keptDsts ops) : ∃ op ∈ ops, r ∈ op.dsts := by
  induction ops with
  | nil => simp [keptDsts] at h
  | cons q ops ih =>
    have hcases : r ∈ q.dsts ∨ r ∈ keptDsts ops := by
      unfold keptDsts at h
      split at h
      · exact Finset.mem_union.1 h
      · exact .inr h
    rcases hcases with h | h
    · exact ⟨q, List.mem_cons_self .., h⟩
    · obtain ⟨o, ho, hr⟩ := ih h
      exact ⟨o, List.mem_cons_of_mem q ho, hr⟩

theorem renamed_subset (h : r ∈ renamed op ops) : ¬Disjoint op.dsts (keptDsts ops) ∧ r ∈ keptDsts ops := by
  unfold renamed at h
  split at h
  · exact absurd h (Finset.notMem_empty r)
  · rename_i hd
    exact ⟨hd, h⟩

theorem mem_renamed_iff (hd : ¬Disjoint op.dsts (keptDsts ops)) : r ∈ renamed op ops ↔ r ∈ keptDsts ops := by
  rw [renamed, if_neg hd]

theorem Architectural.kept (h : Architectural ops) (hr : r ∈ keptDsts ops) : r < LREG_FUZE0 := by
  obtain ⟨o, ho, hro⟩ := keptDsts_subset hr
  exact (h o ho).2 r hro

theorem Architectural.tail (h : Architectural (op :: ops)) : Architectural ops :=
  fun o ho => h o (List.mem_cons_of_mem op ho)

theorem Architectural.get (h : Architectural ops) (hn : ops[n]? = some op) (hr : r ∈ op.srcs) : r < LREG_FUZE0 :=
  (h op (List.mem_of_getElem? hn)).1 r hr

section Step

variable {focus : RenamedOp} {later : List RenamedOp} (h : Walked ops w) (harch : Architectural (op :: ops))

include h

/-- The temporary register is new. -/
theorem tmpReg_fresh : producer (w.ops.map (·.dsts)) n w.tmpReg = none :=
  producer_of_not_mem fun d hd hm => Nat.lt_irrefl _ (h.fresh d hd _ hm)

/-- The architectural registers that the mega-op still writes. -/
theorem Stepped.mem_dsts (hs : Stepped op ops w focus later) (hr : r < LREG_FUZE0) :
    r ∈ focus.dsts ↔ r ∈ op.dsts ∧ r ∉ renamed op ops := by
  have htmp := h.tmp
  rw [hs.logged.2, Finset.mem_image]
  constructor
  · rintro ⟨a, ha, hname⟩
    rw [hs.dstName] at hname
    split at hname
    · exact absurd (hname ▸ hr) (Nat.not_lt.2 htmp)
    · rename_i hm
      exact ⟨hname ▸ ha, hname ▸ hm⟩
  · rintro ⟨hd, hm⟩
    exact ⟨r, hd, (hs.dstName r).trans (if_neg hm)⟩

omit h in
/-- When a register is renamed, the mega-op writes the temporary register. -/
theorem Stepped.tmpReg_mem (hs : Stepped op ops w focus later) (hr : r ∈ renamed op ops) : w.tmpReg ∈ focus.dsts := by
  have hd := (renamed_subset hr).1
  obtain ⟨a, ha, hak⟩ := Finset.not_disjoint_iff.1 hd
  rw [hs.logged.2, Finset.mem_image]
  exact ⟨a, ha, (hs.dstName a).trans (if_pos ((mem_renamed_iff hd).2 hak))⟩

include harch

/-- **One step of the walk**, whether the mega-op is kept or not. -/
theorem step_spec : ∃ focus later, (w.step op).ops = focus :: later ∧ Stepped op ops w focus later ∧
    (w.step op).fuzeDsts = keptDsts (op :: ops) ∧ w.tmpReg ≤ (w.step op).tmpReg ∧
    ∀ r ∈ renamed op ops, w.tmpReg < (w.step op).tmpReg := by
  have hkept : keptDsts (op :: ops) = if Disjoint op.dsts (keptDsts ops) then op.dsts ∪ keptDsts ops else keptDsts ops := rfl
  by_cases hd : Disjoint op.dsts (keptDsts ops)
  · have hmatch : ¬op.matchDsts w.fuzeDsts = true := by
      rw [matchDsts_disjoint, h.kept, not_not]
      exact hd
    have hstep : w.step op = ⟨.ofMegaOp op :: w.ops, w.tmpReg, w.fuzeDsts ∪ op.dsts⟩ := if_neg hmatch
    have hnone : renamed op ops = ∅ := if_pos hd
    rw [hstep, hnone]
    refine ⟨.ofMegaOp op, w.ops, rfl, ?_, ?_, Nat.le_refl _, fun r hr => absurd hr (Finset.notMem_empty r)⟩
    · refine ⟨?_, .ofMegaOp op, fun r => rfl, fun r => ?_⟩
      · rw [hnone]
        exact .refl w.tmpReg w.ops
      · rw [hnone, if_neg (Finset.notMem_empty r)]
        rfl
    · rw [hkept, if_pos hd, h.kept, Finset.union_comm]
  · have hmatch : op.matchDsts w.fuzeDsts = true := by
      rw [matchDsts_disjoint, h.kept]
      exact hd
    have hstep : w.step op = ⟨(renameAll w.tmpReg w.fuzeDsts.sort (.ofMegaOp op) w.ops).1 ::
        (renameAll w.tmpReg w.fuzeDsts.sort (.ofMegaOp op) w.ops).2, w.tmpReg + 1, w.fuzeDsts⟩ := if_pos hmatch
    have hren : renamed op ops = w.fuzeDsts := (if_neg hd).trans h.kept.symm
    have ht : w.tmpReg ∉ w.fuzeDsts.sort := by
      rw [Finset.mem_sort, h.kept]
      exact fun hm => absurd (harch.tail.kept hm) (Nat.not_lt.2 h.tmp)
    obtain ⟨hf, hl, hs, hdst⟩ := renameAll_spec w.ops (Logged.ofMegaOp op) ht
    rw [hstep]
    refine ⟨_, _, rfl, ⟨?_, hl, fun r => congrFun hs r, fun r => ?_⟩, ?_, Nat.le_succ _, fun r hr => Nat.lt_succ_self _⟩
    · rw [hren]
      simpa using hf
    · rw [hdst r, hren]
      simp [RenamedOp.ofMegaOp]
    · rw [hkept, if_neg hd, h.kept]

/-- What the walk knows, one step on. -/
theorem Walked.step : Walked (op :: ops) (w.step op) := by
  obtain ⟨focus, later, heq, hs, hkept, hle, hlt⟩ := step_spec h harch
  have htmp := h.tmp
  have hops : (w.step op).ops.map (·.dsts) = focus.dsts :: w.ops.map (·.dsts) := by
    rw [heq, List.map_cons, hs.followed.dsts]
  refine ⟨hkept, Nat.le_trans htmp hle, ?_, ?_, ?_⟩
  · rw [heq]
    exact .cons hs.logged (hs.followed.logged ops h.logged)
  · rw [hops]
    intro d hd x hx
    rcases List.mem_cons.1 hd with rfl | hd
    · rw [hs.logged.2, Finset.mem_image] at hx
      obtain ⟨a, ha, rfl⟩ := hx
      rw [hs.dstName]
      split
      · rename_i hm
        exact hlt a hm
      · have hlt' : a < LREG_FUZE0 := (harch op (List.mem_cons_self ..)).2 a ha
        exact Nat.lt_of_lt_of_le hlt' (Nat.le_trans htmp hle)
    · exact Nat.lt_of_lt_of_le (h.fresh d hd x hx) hle
  · intro n p' hp' r hr
    rw [hops]
    rw [heq] at hp'
    cases n with
    | zero =>
      obtain rfl := Option.some.inj hp'
      exact .inl (hs.srcName r)
    | succ n =>
      obtain ⟨p, hp⟩ := hs.followed.get hp'
      rw [hs.followed.srcName n p p' hp hp' r]
      split
      · rename_i hm
        exact .inr ⟨htmp, fun hnone => (producer_cons_eq_none.1 hnone).1 (hs.tmpReg_mem hm.1)⟩
      · rcases h.names n p hp r hr with hname | ⟨hge, hsome⟩
        · exact .inl hname
        · exact .inr ⟨hge, fun hnone => hsome (producer_cons_eq_none.1 hnone).2⟩

end Step

theorem walked_renameWalk (harch : Architectural ops) : Walked ops (renameWalk ops) := by
  induction ops with
  | nil => exact ⟨rfl, Nat.le_refl _, .nil, by simp [renameWalk], by simp [renameWalk]⟩
  | cons op ops ih => exact (ih harch.tail).step harch

/-! ## The data flow of one mega-op more -/

section DataFlow

variable {focus : RenamedOp} {later : List RenamedOp} (h : Walked ops w) (harch : Architectural (op :: ops))
  (hs : Stepped op ops w focus later)

include h harch hs

omit harch in
/-- One source of a later mega-op. If it is renamed, the mega-op must be its producer. -/
theorem source_cons {E : List RegSet} {p' : RenamedOp} (hp : w.ops[n]? = some p) (hp' : later[n]? = some p')
    (hr : r < LREG_FUZE0) :
    producer (focus.dsts :: w.ops.map (·.dsts)) (n + 1) (p'.srcName r) = producer (op.dsts :: E) (n + 1) r ↔
      producer (w.ops.map (·.dsts)) n (p.srcName r) = producer E n r ∧
        (r ∈ renamed op ops → producer E n r = none → r ∈ op.dsts) := by
  have hname := hs.followed.srcName n p p' hp hp' r
  generalize hD : w.ops.map (·.dsts) = D at *
  rcases h.names n p hp r hr with hx | ⟨hge, hsome⟩
  · rw [hx] at hname ⊢
    by_cases hm : r ∈ renamed op ops ∧ producer D n r = none
    · -- the source is renamed to the temporary register, which the focus writes
      have hfresh : producer D n w.tmpReg = none := by
        rw [← hD]
        exact tmpReg_fresh h
      rw [hname, if_pos hm, producer_cons_of_none hfresh, if_pos (hs.tmpReg_mem hm.1), hm.2]
      cases hb : producer E n r with
      | some j => simp [producer_cons_of_some hb]
      | none => simp [producer_cons_of_none hb, hm.1]
    · rw [hname, if_neg hm]
      cases ha : producer D n r with
      | some i =>
        rw [producer_cons_of_some ha]
        cases hb : producer E n r with
        | some j => simp [producer_cons_of_some hb]
        | none =>
          rw [producer_cons_of_none hb]
          split <;> simp
      | none =>
        have hnm : r ∉ renamed op ops := fun e => hm ⟨e, ha⟩
        have hiff : r ∈ focus.dsts ↔ r ∈ op.dsts := (hs.mem_dsts h hr).trans (and_iff_left hnm)
        rw [producer_cons_of_none ha]
        cases hb : producer E n r with
        | some j =>
          rw [producer_cons_of_some hb]
          split <;> simp
        | none => simp [producer_cons_of_none hb, hiff, hnm]
  · -- a source that has become a temporary register stays there
    obtain ⟨i, ha⟩ := Option.ne_none_iff_exists'.1 hsome
    rw [hD] at ha
    rw [hname, if_neg fun e => (by rw [ha] at e; cases e.2), ha, producer_cons_of_some ha]
    cases hb : producer E n r with
    | some j => simp [producer_cons_of_some hb]
    | none =>
      rw [producer_cons_of_none hb]
      split <;> simp

/-- **The sources**, with one mega-op more. -/
theorem sources_cons : SourcesKept (op :: ops) (focus :: later) ↔
    SourcesKept ops w.ops ∧ ∀ r ∈ renamed op ops, r ∉ op.dsts → live ops r = false := by
  have hcons : SourcesKept (op :: ops) (focus :: later) ↔ ∀ n o p p', ops[n]? = some o → w.ops[n]? = some p →
      later[n]? = some p' → ∀ r ∈ o.srcs,
        producer (w.ops.map (·.dsts)) n (p.srcName r) = producer (ops.map (·.dsts)) n r ∧
          (r ∈ renamed op ops → producer (ops.map (·.dsts)) n r = none → r ∈ op.dsts) := by
    have hds : (focus :: later).map (·.dsts) = focus.dsts :: w.ops.map (·.dsts) := by
      rw [List.map_cons, hs.followed.dsts]
    constructor
    · intro hsrc n o p p' ho hp hp' r hr
      have heq := hsrc (n + 1) o p' ho hp' r hr
      rw [hds, List.map_cons] at heq
      exact (source_cons h hs hp hp' (harch.tail.get ho hr)).1 heq
    · intro hall n o p' ho hp' r hr
      cases n with
      | zero => rw [producer_zero, producer_zero]
      | succ n =>
        obtain ⟨p, hp⟩ := hs.followed.get hp'
        rw [hds, List.map_cons]
        exact (source_cons h hs hp hp' (harch.tail.get ho hr)).2 (hall n o p p' ho hp hp' r hr)
  have hget : ∀ (n : ℕ) (o : MegaOp), ops[n]? = some o → ∃ p p', w.ops[n]? = some p ∧ later[n]? = some p' := by
    intro n o ho
    have hlt : n < later.length := by
      rw [hs.followed.length, ← h.logged.length_eq]
      exact (List.getElem?_eq_some_iff.1 ho).1
    have hp' : later[n]? = some later[n] := List.getElem?_eq_getElem hlt
    obtain ⟨p, hp⟩ := hs.followed.get hp'
    exact ⟨p, later[n], hp, hp'⟩
  rw [hcons]
  constructor
  · intro hall
    refine ⟨fun n o p ho hp r hr => ?_, fun r hr hd => ?_⟩
    · obtain ⟨q, p', hq, hp'⟩ := hget n o ho
      exact (hall n o p p' ho hp hp' r hr).1
    · -- a reader of the register, if there is one, has become a reader of the focus
      rw [← Bool.not_eq_true]
      intro hlive
      obtain ⟨n, o, ho, hro, hnone⟩ := live_iff.1 hlive
      obtain ⟨p, p', hp, hp'⟩ := hget n o ho
      exact hd ((hall n o p p' ho hp hp' r hro).2 hr hnone)
  · rintro ⟨hsrc, hothers⟩ n o p p' ho hp hp' r hr
    refine ⟨hsrc n o p ho hp r hr, fun hm hnone => ?_⟩
    -- without a write in the focus the reader would make the register live
    by_contra hd
    have hlive : live ops r = true := live_iff.2 ⟨n, o, ho, hr, hnone⟩
    rw [hothers r hm hd] at hlive
    cases hlive

omit h harch hs in
theorem liveValue_zero {names : List (RegType → RegType)} {name : RegType → RegType} :
    LiveValue (op :: ops) (name :: names) 0 r x ↔ r ∈ op.dsts ∧ live ops r = true ∧ name r = x := by
  simp [LiveValue]

omit h harch hs in
theorem liveValue_succ {names : List (RegType → RegType)} {name : RegType → RegType} {i : ℕ} :
    LiveValue (op :: ops) (name :: names) (i + 1) r x ↔ LiveValue ops names i r x := Iff.rfl

omit harch hs in
/-- A later live value is not in the temporary register of the focus. -/
theorem liveValue_lt {i : ℕ} (hv : LiveValue ops (w.ops.map (·.dstName)) i r x) : x < w.tmpReg := by
  obtain ⟨o, name, ho, hname, hr, -, rfl⟩ := hv
  rw [List.getElem?_map] at hname
  obtain ⟨p, hp, rfl⟩ := Option.map_eq_some_iff.1 hname
  have hlog : Logged o p := by
    obtain ⟨hi, rfl⟩ := List.getElem?_eq_some_iff.1 ho
    obtain ⟨hi', rfl⟩ := List.getElem?_eq_some_iff.1 hp
    exact h.logged.get hi hi'
  refine h.fresh p.dsts (List.mem_map.2 ⟨p, List.mem_of_getElem? hp, rfl⟩) _ ?_
  rw [hlog.2]
  exact Finset.mem_image.2 ⟨r, hr, rfl⟩

omit h in
/-- A live value of the focus that is in a temporary register. -/
theorem liveValue_focus {names : List (RegType → RegType)} (hx : LREG_FUZE0 ≤ x)
    (hv : LiveValue (op :: ops) (focus.dstName :: names) 0 r x) :
    x = w.tmpReg ∧ r ∈ op.dsts ∩ keptDsts ops ∧ live ops r = true := by
  obtain ⟨hr, hlive, hname⟩ := liveValue_zero.1 hv
  rw [hs.dstName] at hname
  split at hname
  · rename_i hm
    exact ⟨hname.symm, Finset.mem_inter.2 ⟨hr, (renamed_subset hm).2⟩, hlive⟩
  · have hlt : r < LREG_FUZE0 := (harch op (List.mem_cons_self ..)).2 r hr
    exact absurd (hname ▸ hlt) (Nat.not_lt.2 hx)

/-- **The live values**, with one mega-op more. -/
theorem unshared_cons : Unshared (op :: ops) ((focus :: later).map (·.dstName)) ↔
    Unshared ops (w.ops.map (·.dstName)) ∧ ∀ r ∈ op.dsts ∩ keptDsts ops, ∀ r' ∈ op.dsts ∩ keptDsts ops,
      live ops r = true → live ops r' = true → r = r' := by
  rw [List.map_cons, hs.followed.dstName]
  constructor
  · intro hun
    constructor
    · intro x hx i j r r' hv hv'
      obtain ⟨hij, hrr⟩ := hun x hx (i + 1) (j + 1) r r' (liveValue_succ.2 hv) (liveValue_succ.2 hv')
      exact ⟨Nat.succ.inj hij, hrr⟩
    · intro r hr r' hr' hl hl'
      obtain ⟨hd, hk⟩ := Finset.mem_inter.1 hr
      obtain ⟨hd', hk'⟩ := Finset.mem_inter.1 hr'
      have hdis : ¬Disjoint op.dsts (keptDsts ops) := Finset.not_disjoint_iff.2 ⟨r, hd, hk⟩
      -- both are in the temporary register of the focus
      have hname : focus.dstName r = w.tmpReg := (hs.dstName r).trans (if_pos ((mem_renamed_iff hdis).2 hk))
      have hname' : focus.dstName r' = w.tmpReg := (hs.dstName r').trans (if_pos ((mem_renamed_iff hdis).2 hk'))
      exact (hun w.tmpReg h.tmp 0 0 r r' (liveValue_zero.2 ⟨hd, hl, hname⟩) (liveValue_zero.2 ⟨hd', hl', hname'⟩)).2
  · rintro ⟨hun, hsingle⟩ x hx i j r r' hv hv'
    cases i with
    | zero =>
      obtain ⟨hxt, hr, hl⟩ := liveValue_focus harch hs hx hv
      cases j with
      | zero =>
        obtain ⟨-, hr', hl'⟩ := liveValue_focus harch hs hx hv'
        exact ⟨rfl, hsingle r hr r' hr' hl hl'⟩
      | succ j => exact absurd (liveValue_lt h (liveValue_succ.1 hv')) (hxt ▸ Nat.lt_irrefl _)
    | succ i =>
      cases j with
      | zero =>
        obtain ⟨hxt, -, -⟩ := liveValue_focus harch hs hx hv'
        exact absurd (liveValue_lt h (liveValue_succ.1 hv)) (hxt ▸ Nat.lt_irrefl _)
      | succ j =>
        obtain ⟨rfl, hrr⟩ := hun x hx i j r r' (liveValue_succ.1 hv) (liveValue_succ.1 hv')
        exact ⟨rfl, hrr⟩

omit harch in
/-- **The last writers** stay what they are: the last one of all is kept. -/
theorem lastWriters_cons (hlast : LastWritersKept ops w.ops) : LastWritersKept (op :: ops) (focus :: later) := by
  intro r hr
  have hlen : w.ops.length = ops.length := h.logged.length_eq.symm
  have hrest := hlast r hr
  rw [hlen] at hrest
  rw [List.map_cons, List.map_cons, hs.followed.dsts, List.length_cons, List.length_cons, hs.followed.length, hlen]
  cases hp : producer (ops.map (·.dsts)) ops.length r with
  | some j => rw [producer_cons_of_some hp, producer_cons_of_some (hrest.trans hp)]
  | none =>
    -- a register that is renamed in the focus is written again after it
    have hm : r ∉ renamed op ops := by
      intro hm
      obtain ⟨o, ho, hro⟩ := keptDsts_subset (renamed_subset hm).2
      obtain ⟨k, hk, hget⟩ := List.getElem_of_mem ho
      refine producer_eq_none.1 hp k hk o.dsts ?_ hro
      rw [List.getElem?_map, List.getElem?_eq_getElem hk, hget]
      rfl
    have hiff : r ∈ focus.dsts ↔ r ∈ op.dsts := (hs.mem_dsts h hr).trans (and_iff_left hm)
    rw [producer_cons_of_none hp, producer_cons_of_none (hrest.trans hp)]
    simp only [hiff]

end DataFlow

/-! ## Whole lists -/

/-- Every mega-op does no harm to the ones after it. -/
def Renamable (ops : List MegaOp) : Prop := ∀ pre op later, ops = pre ++ op :: later → Harmless op later

theorem renamable_cons : Renamable (op :: ops) ↔ Harmless op ops ∧ Renamable ops := by
  constructor
  · intro h
    exact ⟨h [] op ops rfl, fun pre o later heq => h (op :: pre) o later (by rw [heq]; rfl)⟩
  · rintro ⟨hop, hops⟩ pre o later heq
    cases pre with
    | nil =>
      obtain ⟨rfl, rfl⟩ := List.cons.inj heq
      exact hop
    | cons q pre =>
      obtain ⟨-, rfl⟩ := List.cons.inj heq
      exact hops pre o later rfl

theorem harmless_iff : Harmless op ops ↔ (∀ r ∈ renamed op ops, r ∉ op.dsts → live ops r = false) ∧
    ∀ r ∈ op.dsts ∩ keptDsts ops, ∀ r' ∈ op.dsts ∩ keptDsts ops, live ops r = true → live ops r' = true → r = r' := by
  constructor
  · intro h
    exact ⟨fun r hr => h.others (renamed_subset hr).1 r (renamed_subset hr).2, h.single⟩
  · rintro ⟨hothers, hsingle⟩
    exact ⟨fun hd r hr => hothers r ((mem_renamed_iff hd).2 hr), hsingle⟩

/-- **The data flow of a walk**, mega-op by mega-op from the end. -/
theorem flowKept_iff (harch : Architectural ops) : FlowKept ops (renameWalk ops).ops ↔ Renamable ops := by
  have hparts : SourcesKept ops (renameWalk ops).ops ∧ Unshared ops ((renameWalk ops).ops.map (·.dstName)) ↔ Renamable ops := by
    induction ops with
    | nil =>
      refine iff_of_true ⟨fun n op p hop => (by cases n <;> cases hop), ?_⟩ ?_
      · rintro x hx i j r r' ⟨o, name, ho, -⟩
        cases i <;> cases ho
      · intro pre op later heq
        cases pre <;> cases heq
    | cons op ops ih =>
      have hw := walked_renameWalk harch.tail
      obtain ⟨focus, later, heq, hs, -⟩ := step_spec hw harch
      have hops : (renameWalk (op :: ops)).ops = focus :: later := heq
      rw [hops, sources_cons hw harch hs, unshared_cons hw harch hs, renamable_cons, harmless_iff, ← ih harch.tail]
      tauto
  have hlast : LastWritersKept ops (renameWalk ops).ops := by
    clear hparts
    induction ops with
    | nil => exact fun r hr => rfl
    | cons op ops ih =>
      have hw := walked_renameWalk harch.tail
      obtain ⟨focus, later, heq, hs, -⟩ := step_spec hw harch
      have hops : (renameWalk (op :: ops)).ops = focus :: later := heq
      rw [hops]
      exact lastWriters_cons hw hs (ih harch.tail)
  rw [← hparts]
  constructor
  · exact fun h => ⟨h.sources, h.temporaries⟩
  · rintro ⟨hsrc, htmp⟩
    exact ⟨(walked_renameWalk harch).logged, hsrc, htmp, hlast⟩

/-- **Where renaming keeps the data flow.** For every list of mega-ops over architectural registers that
is not empty, exactly if every mega-op does no harm to the ones after it. -/
theorem rename_right_iff (hne : ops ≠ []) (harch : Architectural ops) :
    (∃ rs, MegaOpCluster.rename ops = some rs ∧ FlowKept ops rs) ↔ Renamable ops := by
  have hrename : MegaOpCluster.rename ops = some (renameWalk ops).ops := if_neg hne
  rw [← flowKept_iff harch]
  constructor
  · rintro ⟨rs, hrs, hflow⟩
    rw [hrename] at hrs
    obtain rfl := Option.some.inj hrs
    exact hflow
  · exact fun hflow => ⟨_, hrename, hflow⟩

/-- A mega-op with given sources and destinations. -/
def aluOp (srcs dsts : RegSet) : MegaOp := { MegaOp.empty .iAALU with srcs, dsts }

/-- The first write of register 1 and its read get a temporary register. -/
theorem rename_right_chain : ∃ rs, MegaOpCluster.rename [aluOp ∅ {1}, aluOp {1} {2}, aluOp {2} {1}] = some rs ∧
    FlowKept [aluOp ∅ {1}, aluOp {1} {2}, aluOp {2} {1}] rs := by
  refine (rename_right_iff (by decide) (by unfold Architectural; decide)).2 ?_
  have hnil : Renamable [] := fun pre op later heq => by cases pre <;> cases heq
  have hlast : Renamable [aluOp {2} {1}] := renamable_cons.2 ⟨⟨by decide, by decide⟩, hnil⟩
  have hmiddle : Renamable [aluOp {1} {2}, aluOp {2} {1}] := renamable_cons.2 ⟨⟨by decide, by decide⟩, hlast⟩
  exact renamable_cons.2 ⟨⟨by decide, by decide⟩, hmiddle⟩

/-- The last mega-op overwrites registers 1 and 2. Of the ones before it, the first writes register 1
and the second reads register 2, and is made to read what the first has written. Or the first writes
both, the next two read one each, and both values are in one temporary register. -/
theorem not_flowKept :
    (∃ rs, MegaOpCluster.rename [aluOp ∅ {1}, aluOp {2} ∅, aluOp ∅ {1, 2}] = some rs ∧
      ¬FlowKept [aluOp ∅ {1}, aluOp {2} ∅, aluOp ∅ {1, 2}] rs) ∧
    ∃ rs, MegaOpCluster.rename [aluOp ∅ {1, 2}, aluOp {1} ∅, aluOp {2} ∅, aluOp ∅ {1, 2}] = some rs ∧
      ¬FlowKept [aluOp ∅ {1, 2}, aluOp {1} ∅, aluOp {2} ∅, aluOp ∅ {1, 2}] rs := by
  constructor
  · refine ⟨_, if_neg (by decide), fun h => ?_⟩
    have hren := (flowKept_iff (by unfold Architectural; decide)).1 h
    have hharm := (renamable_cons.1 hren).1
    exact absurd (hharm.others (by decide) 2 (by decide) (by decide)) (by decide)
  · refine ⟨_, if_neg (by decide), fun h => ?_⟩
    have hren := (flowKept_iff (by unfold Architectural; decide)).1 h
    have hharm := (renamable_cons.1 hren).1
    exact absurd (hharm.single 1 (by decide) 2 (by decide) (by decide) (by decide)) (by decide)

end Esesc.Core
