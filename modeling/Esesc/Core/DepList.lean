import Esesc.Core.DepWindow
import Esesc.Lib.Linked
import Esesc.Lib.Machine

/-!
# Dependence lists in memory (`emul/libemulint/DInst.h`, `simu/libcore/DepWindow.cpp`)

An instruction owns three nodes, one for each pend slot, and a list of the nodes that wait for it. The
list is linked through the nodes themselves, so a node can be in one list only. `last` is set when a
node is linked and never reset: it means something only while the list is not empty.

Instructions come from a pool. `setup` leaves `nDeps`, `last` and the links of the nodes as the
instruction before left them, so here these start with anything that the memory may hold.

The simulator runs one call at a time, so the calls are taken apart but not mixed: between the first link of
an instruction and its `DepWindow::addInst`, or between two turns of the loop of `executed`, nothing
else happens.

* `Lists`: the lists that the links spell, each used slot once in one of them.
* `Lists.addSrc`, `Lists.pop`: linking and taking off keep them.
* `Shows.addSrc`, `Shows.getNextPending`: they do what the model with lists for `first` does.
* `deps_exact`: in every run the counts are exact, the lists are disjoint, and every instruction is
  issued once, when its count reaches 0 inside the window.
-/

namespace Esesc.Core

open Esesc.Lib

/-- The call that is under way: a processor's `addInst`, from its first link on, or the loop of
`DepWindow::executed`. -/
inductive DepCall where
  | adding (d : ℕ)
  | waking (p : ℕ)
  deriving DecidableEq, Repr

/-- The memory of the instructions, field by field. The last four are no fields of the source: `live` (taken
from the pool), `entered` (handed to `DepWindow::addInst`), `handed` (the `ID`s given to `preSelect`, in
order) and `call`. -/
structure DepHeap where
  isUsed : DInstNext → Bool
  nextDep : DInstNext → Option DInstNext
  first : ℕ → Option DInstNext
  last : ℕ → DInstNext
  nDeps : ℕ → ℤ
  issued : ℕ → Bool
  executed : ℕ → Bool
  ID : ℕ → ℕ
  currentID : ℕ
  live : ℕ → Bool
  entered : ℕ → Bool
  handed : List ℕ
  call : Option DepCall

namespace DepHeap

open Function

/-- `create` and `clone`, as far as `setup` goes. -/
def create (h : DepHeap) (d : ℕ) : DepHeap :=
  { h with
    ID := update h.ID d h.currentID, currentID := h.currentID + 1, first := update h.first d none
    isUsed := fun n => if n.1 = d then false else h.isUsed n
    issued := update h.issued d false, executed := update h.executed d false
    live := update h.live d true, entered := update h.entered d false }

/-- `p->addSrc1(d)`, `p->addSrc2(d)` and `p->addSrc3(d)`. -/
def addSrc (k : Fin 3) (h : DepHeap) (p d : ℕ) : DepHeap :=
  { h with
    nDeps := update h.nDeps d (h.nDeps d + 1)
    isUsed := update h.isUsed (d, k) true
    first := if h.first p = none then update h.first p (some (d, k)) else h.first
    nextDep := update (if h.first p = none then h.nextDep else update h.nextDep (h.last p) (some (d, k))) (d, k) none
    last := update h.last p (d, k) }

def getNextPending (h : DepHeap) (p : ℕ) : Option (ℕ × DepHeap) :=
  (h.first p).map fun n =>
    (n.1, { h with
      nDeps := update h.nDeps n.1 (h.nDeps n.1 - 1)
      isUsed := update h.isUsed n false
      first := update h.first p (h.nextDep n) })

def hasDeps (h : DepHeap) (d : ℕ) : Bool := h.nDeps d != 0

def preSelect (h : DepHeap) (d : ℕ) : DepHeap :=
  { h with issued := update h.issued d true, handed := h.handed ++ [h.ID d] }

/-- `DepWindow::addInst`. -/
def addInst (h : DepHeap) (d : ℕ) : DepHeap :=
  let h := { h with entered := update h.entered d true }
  if h.hasDeps d then h else h.preSelect d

/-- The body of the loop of `DepWindow::executed`. -/
def wake (h : DepHeap) (p : ℕ) : Option DepHeap :=
  (h.getNextPending p).map fun (d, h) => if h.hasDeps d then h else h.preSelect d

/-- `markExecuted`, before the call of `DepWindow::executed`. -/
def markExecuted (h : DepHeap) (p : ℕ) : DepHeap := { h with executed := update h.executed p true }

/-- `destroy`: back to the pool. -/
def destroy (h : DepHeap) (d : ℕ) : DepHeap := { h with live := update h.live d false }

/-- What may happen to the instructions, with the calls taken apart. -/
inductive Event where
  | create (d : ℕ)
  | add (d : ℕ)
  | addSrc (k : Fin 3) (p : ℕ)
  | addInst
  | executed (p : ℕ)
  | wake
  | done
  | destroy (d : ℕ)

/-- An instruction is added once. While it is, it is linked behind live instructions that have not executed, each
slot at most once. An instruction executes once, after it was issued, and the loop runs until nobody is
left to wake. -/
def step (h : DepHeap) : Event → Option DepHeap
  | .create d => if h.call = none ∧ h.live d = false then some (h.create d) else none
  | .add d =>
    if h.call = none ∧ h.live d = true ∧ h.entered d = false then some { h with call := some (.adding d) } else none
  | .addSrc k p =>
    match h.call with
    | some (.adding d) =>
      if h.live p = true ∧ h.executed p = false ∧ h.isUsed (d, k) = false then some (h.addSrc k p d) else none
    | _ => none
  | .addInst =>
    match h.call with
    | some (.adding d) => some { h.addInst d with call := none }
    | _ => none
  | .executed p =>
    if h.call = none ∧ h.live p = true ∧ h.issued p = true ∧ h.executed p = false then
      some { h.markExecuted p with call := some (.waking p) }
    else none
  | .wake =>
    match h.call with
    | some (.waking p) => h.wake p
    | _ => none
  | .done =>
    match h.call with
    | some (.waking p) => if h.first p = none then some { h with call := none } else none
    | _ => none
  | .destroy d => if h.call = none ∧ h.live d = true ∧ h.executed d = true then some (h.destroy d) else none

/-! ## The lists -/

variable {h h' : DepHeap} {L : ℕ → List DInstNext} {k : Fin 3} {p d : ℕ} {n : DInstNext}

/-- The lists that the links spell: each slot in use is once in one of them. -/
structure Lists (h : DepHeap) (L : ℕ → List DInstNext) : Prop where
  chain : ∀ p, h.live p = true → Linked h.nextDep (h.first p) (L p)
  ends : ∀ p n, (L p).getLast? = some n → h.last p = n
  nodup : ∀ p, (L p).Nodup
  one : ∀ p q n, n ∈ L p → n ∈ L q → p = q
  inside : ∀ p n, n ∈ L p → h.live p = true ∧ h.live n.1 = true ∧ h.isUsed n = true
  covered : ∀ n, h.live n.1 = true → h.isUsed n = true → ∃ p, n ∈ L p

namespace Lists

theorem free (hl : Lists h L) (hn : h.isUsed n = false) (q : ℕ) : n ∉ L q := by
  intro hq
  have := (hl.inside q n hq).2.2
  rw [hn] at this
  cases this

theorem threads (hl : Lists h L) : Threads (fun p => h.live p = true) h.nextDep h.first h.last L :=
  ⟨hl.chain, hl.ends, hl.nodup, hl.one⟩

/-- **Linking** makes the slot one in use. -/
theorem addSrc (hl : Lists h L) (hp : h.live p = true) (hd : h.live d = true) (hk : h.isUsed (d, k) = false) :
    Lists (h.addSrc k p d) (update L p (L p ++ [(d, k)])) := by
  have hfree := hl.free hk
  obtain ⟨hchain, hends, hnodup, hone⟩ := hl.threads.concat hp hfree
  refine ⟨hchain, hends, hnodup, hone, ?_, ?_⟩
  · intro q n hn
    show h.live q = true ∧ h.live n.1 = true ∧ update h.isUsed (d, k) true n = true
    rcases mem_update_concat.1 hn with hn | ⟨rfl, rfl⟩
    · obtain ⟨hlq, hln, hu⟩ := hl.inside q n hn
      refine ⟨hlq, hln, ?_⟩
      rw [update_of_ne (ne_of_mem_of_not_mem hn (hfree q))]
      exact hu
    · exact ⟨hp, hd, update_self _ _ _⟩
  · intro n hln hu
    have hu : update h.isUsed (d, k) true n = true := hu
    rcases eq_or_ne n (d, k) with rfl | hne
    · exact ⟨p, mem_update_concat.2 (.inr ⟨rfl, rfl⟩)⟩
    · rw [update_of_ne hne] at hu
      obtain ⟨q, hq⟩ := hl.covered n hln hu
      exact ⟨q, mem_update_concat.2 (.inl hq)⟩

/-- **Taking off** the first node of a list. -/
theorem pop (hl : Lists h L) (hp : h.live p = true) (hpop : h.getNextPending p = some (d, h')) :
    ∃ k rest, L p = (d, k) :: rest ∧ Lists h' (update L p rest) ∧
      h' = { h with
        nDeps := update h.nDeps d (h.nDeps d - 1), isUsed := update h.isUsed (d, k) false
        first := update h.first p (h.nextDep (d, k)) } := by
  obtain ⟨⟨d', k⟩, hf, heq⟩ := Option.map_eq_some_iff.1 hpop
  obtain ⟨rfl, rfl⟩ := Prod.mk.inj heq
  obtain ⟨rest, hL, hchain, hends, hnodup, hone⟩ := hl.threads.tail hp hf
  refine ⟨k, rest, hL, ⟨hchain, hends, hnodup, hone, ?_, ?_⟩, rfl⟩
  · intro q n hn
    obtain ⟨hn, hne⟩ := (hl.threads.mem_update_tail hL).1 hn
    obtain ⟨hlq, hln, hu⟩ := hl.inside q n hn
    refine ⟨hlq, hln, ?_⟩
    show update h.isUsed (d', k) false n = true
    rwa [update_of_ne hne]
  · intro n hln hu
    have hu : update h.isUsed (d', k) false n = true := hu
    have hne : n ≠ (d', k) := by
      rintro rfl
      rw [update_self] at hu
      cases hu
    rw [update_of_ne hne] at hu
    obtain ⟨q, hq⟩ := hl.covered n hln hu
    exact ⟨q, (hl.threads.mem_update_tail hL).2 ⟨hq, hne⟩⟩

end Lists

/-! ## The model with lists -/

/-- The memory holds the instructions of `s`. -/
structure Shows (h : DepHeap) (s : InFlight) : Prop where
  lists : Lists h fun p => (s.insts p).first
  pend : ∀ d k, h.isUsed (d, k) = (s.insts d).pend k
  count : ∀ d, h.nDeps d = (s.insts d).nDeps

theorem update_slot (used : DInstNext → Bool) (d d' : ℕ) (k k' : Fin 3) (b : Bool) :
    update used (d, k) b (d', k') =
      if d' = d then update (fun j => used (d', j)) k b k' else used (d', k') := by
  rcases eq_or_ne d' d with rfl | hd
  · rw [if_pos rfl]
    rcases eq_or_ne k' k with rfl | hk
    · rw [update_self, update_self]
    · rw [update_of_ne hk, update_of_ne (by simpa using hk)]
  · rw [if_neg hd, update_of_ne (by simp [hd])]

theorem Shows.addSrc {s : InFlight} (hs : Shows h s) (hp : h.live p = true) (hd : h.live d = true)
    (hk : h.isUsed (d, k) = false) : Shows (h.addSrc k p d) (s.addSrc k p d) := by
  constructor
  · have heq : (fun q => ((s.addSrc k p d).insts q).first) =
        update (fun q => (s.insts q).first) p ((s.insts p).first ++ [(d, k)]) := by
      funext q
      rw [addSrc_insts]
      rcases eq_or_ne q p with rfl | hq <;> simp [*]
    rw [heq]
    exact hs.lists.addSrc hp hd hk
  · intro d' k'
    show update h.isUsed (d, k) true (d', k') = _
    rw [update_slot, addSrc_insts]
    simp only [hs.pend]
    split <;> rfl
  · intro d'
    show update h.nDeps d (h.nDeps d + 1) d' = _
    rw [addSrc_insts]
    rcases eq_or_ne d' d with rfl | hd'
    · simp [hs.count]
    · simp [hd', hs.count]

theorem Shows.getNextPending {s : InFlight} (hs : Shows h s) (hdeps : Deps s none) (hp : h.live p = true)
    (hpop : h.getNextPending p = some (d, h')) :
    ∃ s', s.getNextPending p = some (d, s') ∧ Shows h' s' := by
  obtain ⟨k, rest, hL, hlists, rfl⟩ := hs.lists.pop hp hpop
  have hpos : 0 < (s.insts d).nDeps := hdeps.nDeps_pos (p := p) (k := k) (by rw [hL]; exact List.mem_cons_self)
  cases hget : s.getNextPending p with
  | none => simp [InFlight.getNextPending, hL] at hget
  | some r =>
    obtain ⟨d', s'⟩ := r
    obtain ⟨k', rest', hfirst, -, -, hat⟩ := getNextPending_spec hget
    obtain ⟨hhead, rfl⟩ := List.cons.inj (hL.symm.trans hfirst)
    obtain ⟨rfl, rfl⟩ := Prod.mk.inj hhead
    refine ⟨s', rfl, ?_, ?_, ?_⟩
    · have heq : (fun q => (s'.insts q).first) = update (fun q => (s.insts q).first) p rest := by
        funext q
        rw [hat]
        rcases eq_or_ne q p with rfl | hq <;> simp [*]
      rw [heq]
      exact hlists
    · intro d' k'
      show update h.isUsed (d, k) false (d', k') = _
      rw [update_slot, hat]
      simp only [hs.pend]
      split <;> rfl
    · intro d'
      show update h.nDeps d (h.nDeps d - 1) d' = _
      rw [hat]
      rcases eq_or_ne d' d with rfl | hd'
      · simp only [update_self, if_true, hs.count]
        omega
      · simp [hd', hs.count]

/-! ## Every run -/

/-- The number of slots in use. -/
def usedSlots (h : DepHeap) (d : ℕ) : ℤ := (List.finRange 3).countP fun k => h.isUsed (d, k)

/-- The counts are those of the slots, and exactly the instructions in the window without dependences are
issued. The instruction `x` has just entered or lost a dependence, and is not issued yet. -/
structure Counted (h : DepHeap) (x : Option ℕ) : Prop where
  count : ∀ d, h.live d = true → h.nDeps d = h.usedSlots d
  idle : ∀ d, h.live d = false → h.nDeps d = 0
  ready : ∀ d, h.live d = true → some d ≠ x → (h.issued d = true ↔ h.entered d = true ∧ h.nDeps d = 0)
  next : ∀ d, x = some d → h.issued d = false
  stage : ∀ d, h.live d = true → h.executed d = true → h.issued d = true

/-- The log names each issued instruction once, and all that are gone. -/
structure Logged (h : DepHeap) : Prop where
  below : ∀ d, h.live d = true → h.ID d < h.currentID
  inj : ∀ d e, h.live d = true → h.live e = true → h.ID d = h.ID e → d = e
  nodup : h.handed.Nodup
  old : ∀ i ∈ h.handed, i < h.currentID
  issued : ∀ d, h.live d = true → (h.ID d ∈ h.handed ↔ h.issued d = true)
  gone : ∀ i < h.currentID, i ∈ h.handed ∨ ∃ d, h.live d = true ∧ h.ID d = i

/-- What the call under way stands for: only the instruction that is being added has links without
being in the window, and only the list of the one that wakes others outlives its execution. -/
structure Called (h : DepHeap) (L : ℕ → List DInstNext) : Prop where
  unlinked : ∀ d, h.live d = true → h.entered d = false → h.call ≠ some (.adding d) → h.nDeps d = 0
  drained : ∀ p, h.executed p = true → h.call ≠ some (.waking p) → L p = []
  adding : ∀ d, h.call = some (.adding d) → h.live d = true ∧ h.entered d = false
  waking : ∀ p, h.call = some (.waking p) → h.live p = true ∧ h.executed p = true

structure Sound (h : DepHeap) (L : ℕ → List DInstNext) : Prop where
  lists : Lists h L
  counted : Counted h none
  logged : Logged h
  called : Called h L

theorem usedSlots_eq (h : DepHeap) (d : ℕ) :
    h.usedSlots d = (h.isUsed (d, 0)).toNat + (h.isUsed (d, 1)).toNat + (h.isUsed (d, 2)).toNat := by
  have hlist : List.finRange 3 = [0, 1, 2] := rfl
  rw [usedSlots, hlist]
  simp only [List.countP_cons, List.countP_nil]
  cases h.isUsed (d, 0) <;> cases h.isUsed (d, 1) <;> cases h.isUsed (d, 2) <;> rfl

theorem usedSlots_update (used : DInstNext → Bool) {d : ℕ} {k : Fin 3} {b : Bool} (hk : used (d, k) = !b) :
    ((update used (d, k) b (d, 0)).toNat + (update used (d, k) b (d, 1)).toNat +
      (update used (d, k) b (d, 2)).toNat : ℤ) =
    (used (d, 0)).toNat + (used (d, 1)).toNat + (used (d, 2)).toNat + (if b then 1 else -1) := by
  simp only [update_slot, if_true]
  fin_cases k <;> cases b <;> simp_all <;> omega

theorem usedSlots_nonneg (h : DepHeap) (d : ℕ) : 0 ≤ h.usedSlots d :=
  Int.natCast_nonneg _

theorem usedSlots_pos (hk : h.isUsed (d, k) = true) : 0 < h.usedSlots d :=
  Int.natCast_pos.2 (List.countP_pos_iff.2 ⟨k, List.mem_finRange k, hk⟩)

theorem Sound.not_issued (hs : Sound h L) (hd : h.live d = true) (hk : h.isUsed (d, k) = true) :
    h.issued d = false := by
  have hpos := usedSlots_pos hk
  have hcount := hs.counted.count d hd
  by_contra hi
  have := ((hs.counted.ready d hd (by simp)).1 (Bool.not_eq_false _ ▸ hi)).2
  omega

theorem Counted.preSelect (hc : Counted h (some d)) (he : h.entered d = true) (h0 : h.nDeps d = 0) :
    Counted (h.preSelect d) none := by
  refine ⟨hc.count, hc.idle, ?_, by simp, ?_⟩
  · intro e hl _
    show update h.issued d true e = true ↔ _
    rcases eq_or_ne e d with rfl | hne
    · rw [update_self]
      exact iff_of_true rfl ⟨he, h0⟩
    · rw [update_of_ne hne]
      exact hc.ready e hl (by simpa using hne)
  · intro e hl hx
    show update h.issued d true e = true
    rcases eq_or_ne e d with rfl | hne
    · exact update_self _ _ _
    · rw [update_of_ne hne]
      exact hc.stage e hl hx

theorem Counted.keep (hc : Counted h (some d)) (h0 : h.nDeps d ≠ 0) : Counted h none := by
  refine ⟨hc.count, hc.idle, ?_, by simp, hc.stage⟩
  intro e hl _
  rcases eq_or_ne e d with rfl | hne
  · exact iff_of_false (by simp [hc.next e rfl]) fun h' => h0 h'.2
  · exact hc.ready e hl (by simpa using hne)

/-- The instruction that was not issued yet is logged. -/
theorem Logged.preSelect (hg : Logged h) (hd : h.live d = true) (hi : h.issued d = false) :
    Logged (h.preSelect d) := by
  have hnew : h.ID d ∉ h.handed := by
    rw [hg.issued d hd, hi]
    simp
  refine ⟨hg.below, hg.inj, ?_, ?_, ?_, ?_⟩
  · show (h.handed ++ [h.ID d]).Nodup
    exact List.Nodup.append hg.nodup (List.nodup_singleton _) (by simpa using hnew)
  · intro i hi
    rcases List.mem_append.1 hi with hi | hi
    · exact hg.old i hi
    · rw [List.mem_singleton.1 hi]
      exact hg.below d hd
  · intro e hl
    show h.ID e ∈ h.handed ++ [h.ID d] ↔ update h.issued d true e = true
    rcases eq_or_ne e d with rfl | hne
    · rw [update_self]
      simp
    · have hid : h.ID e ≠ h.ID d := fun e' => hne (hg.inj e d hl hd e')
      rw [update_of_ne hne, ← hg.issued e hl]
      simp [hid]
  · intro i hi
    rcases hg.gone i hi with hin | hex
    · exact .inl (List.mem_append_left _ hin)
    · exact .inr hex

/-! ### One lemma for each event -/

/-- Whoever is live after a creation is the new instruction or was live before. -/
theorem live_create {e : ℕ} (he : (h.create d).live e = true) (hne : e ≠ d) : h.live e = true := by
  have he : update h.live d true e = true := he
  rwa [update_of_ne hne] at he

theorem Lists.nil_of_dead (hl : Lists h L) (hd : h.live d = false) : L d = [] := by
  refine List.eq_nil_iff_forall_not_mem.2 fun n hn => ?_
  have := (hl.inside d n hn).1
  rw [hd] at this
  cases this

theorem Lists.create (hl : Lists h L) (hd : h.live d = false) : Lists (h.create d) L := by
  have hnone : ∀ p n, n ∈ L p → p ≠ d ∧ n.1 ≠ d := by
    intro p n hn
    obtain ⟨hp, hn, -⟩ := hl.inside p n hn
    constructor <;> rintro rfl <;> simp_all
  refine ⟨?_, hl.ends, hl.nodup, hl.one, ?_, ?_⟩
  · intro q hq
    show Linked h.nextDep (update h.first d none q) (L q)
    rcases eq_or_ne q d with rfl | hne
    · rw [update_self, hl.nil_of_dead hd]
      rfl
    · rw [update_of_ne hne]
      exact hl.chain q (live_create hq hne)
  · intro q n hn
    obtain ⟨hq, hn1⟩ := hnone q n hn
    obtain ⟨hlq, hln, hu⟩ := hl.inside q n hn
    simp only [DepHeap.create, update_of_ne hq, update_of_ne hn1, if_neg hn1]
    exact ⟨hlq, hln, hu⟩
  · intro n hn hu
    have hn1 : n.1 ≠ d := by
      intro e
      simp [DepHeap.create, e] at hu
    simp only [DepHeap.create, if_neg hn1] at hu
    exact hl.covered n (live_create hn hn1) hu

theorem Counted.create (hc : Counted h none) (hd : h.live d = false) : Counted (h.create d) none := by
  refine ⟨?_, ?_, ?_, by simp, ?_⟩
  · intro e he
    show h.nDeps e = _
    rcases eq_or_ne e d with rfl | hne
    · rw [hc.idle e hd]
      simp [usedSlots, DepHeap.create]
    · rw [hc.count e (live_create he hne)]
      simp [usedSlots, DepHeap.create, hne]
  · intro e he
    have he : update h.live d true e = false := he
    rcases eq_or_ne e d with rfl | hne
    · rw [update_self] at he
      cases he
    · rw [update_of_ne hne] at he
      exact hc.idle e he
  · intro e he _
    rcases eq_or_ne e d with rfl | hne
    · simp [DepHeap.create]
    · simp only [DepHeap.create, update_of_ne hne]
      exact hc.ready e (live_create he hne) (by simp)
  · intro e he hx
    rcases eq_or_ne e d with rfl | hne
    · simp [DepHeap.create] at hx
    · simp only [DepHeap.create, update_of_ne hne] at hx ⊢
      exact hc.stage e (live_create he hne) hx

/-- The new instruction has an `ID` that nobody had. -/
theorem Logged.create (hg : Logged h) (hd : h.live d = false) : Logged (h.create d) := by
  have hsame : ∀ e, e ≠ d → (h.create d).ID e = h.ID e := fun e hne => update_of_ne hne _ _
  have hnew : (h.create d).ID d = h.currentID := update_self _ _ _
  refine ⟨?_, ?_, hg.nodup, ?_, ?_, ?_⟩
  · intro e he
    rcases eq_or_ne e d with rfl | hne
    · rw [hnew]
      exact Nat.lt_succ_self _
    · rw [hsame e hne]
      exact Nat.lt_succ_of_lt (hg.below e (live_create he hne))
  · intro e e' he he' hid
    rcases eq_or_ne e d with hed | hne <;> rcases eq_or_ne e' d with hed' | hne'
    · rw [hed, hed']
    · rw [hed, hnew, hsame e' hne'] at hid
      have := hg.below e' (live_create he' hne')
      omega
    · rw [hed', hnew, hsame e hne] at hid
      have := hg.below e (live_create he hne)
      omega
    · rw [hsame e hne, hsame e' hne'] at hid
      exact hg.inj e e' (live_create he hne) (live_create he' hne') hid
  · intro i hi
    exact Nat.lt_succ_of_lt (hg.old i hi)
  · intro e he
    rcases eq_or_ne e d with rfl | hne
    · rw [hnew]
      exact iff_of_false (fun hi => Nat.lt_irrefl _ (hg.old _ hi)) (by simp [DepHeap.create])
    · rw [hsame e hne]
      simp only [DepHeap.create, update_of_ne hne]
      exact hg.issued e (live_create he hne)
  · intro i hi
    rcases Nat.lt_succ_iff_lt_or_eq.1 hi with hi | rfl
    · rcases hg.gone i hi with hin | ⟨e, he, rfl⟩
      · exact .inl hin
      · have hne : e ≠ d := by
          rintro rfl
          rw [hd] at he
          cases he
        exact .inr ⟨e, by simp [DepHeap.create, hne, he], hsame e hne⟩
    · exact .inr ⟨d, by simp [DepHeap.create], hnew⟩

/-- No call is under way. -/
theorem Called.of_none {h : DepHeap} (hcall : h.call = none)
    (hunlinked : ∀ d, h.live d = true → h.entered d = false → h.nDeps d = 0)
    (hdrained : ∀ p, h.executed p = true → L p = []) : Called h L := by
  refine ⟨fun d hd he _ => hunlinked d hd he, fun p hp _ => hdrained p hp, ?_, ?_⟩
  · intro d hd
    rw [hcall] at hd
    cases hd
  · intro p hp
    rw [hcall] at hp
    cases hp

theorem Sound.create (hs : Sound h L) (hcall : h.call = none) (hd : h.live d = false) : Sound (h.create d) L := by
  refine ⟨hs.lists.create hd, hs.counted.create hd, hs.logged.create hd, .of_none hcall ?_ ?_⟩
  · intro e he hent
    show h.nDeps e = 0
    rcases eq_or_ne e d with rfl | hne
    · exact hs.counted.idle e hd
    · simp only [DepHeap.create, update_of_ne hne] at hent
      exact hs.called.unlinked e (live_create he hne) hent (by simp [hcall])
  · intro q hq
    rcases eq_or_ne q d with rfl | hne
    · exact hs.lists.nil_of_dead hd
    · simp only [DepHeap.create, update_of_ne hne] at hq
      exact hs.called.drained q hq (by simp [hcall])

theorem Sound.add (hs : Sound h L) (hcall : h.call = none) (hd : h.live d = true) (he : h.entered d = false) :
    Sound { h with call := some (.adding d) } L := by
  obtain ⟨⟨h₁, h₂, h₃, h₄, h₅, h₆⟩, ⟨c₁, c₂, c₃, c₄, c₅⟩, ⟨g₁, g₂, g₃, g₄, g₅, g₆⟩, hcalled⟩ := hs
  refine ⟨⟨h₁, h₂, h₃, h₄, h₅, h₆⟩, ⟨c₁, c₂, c₃, c₄, c₅⟩, ⟨g₁, g₂, g₃, g₄, g₅, g₆⟩, ?_, ?_, ?_, ?_⟩
  · exact fun e hl hent _ => hcalled.unlinked e hl hent (by simp [hcall])
  · exact fun p hp _ => hcalled.drained p hp (by simp [hcall])
  · intro e hcl
    obtain rfl : d = e := by simpa using hcl
    exact ⟨hd, he⟩
  · intro p hcl
    simp at hcl

theorem usedSlots_addSrc (hk : h.isUsed (d, k) = false) (e : ℕ) :
    (h.addSrc k p d).usedSlots e = if e = d then h.usedSlots d + 1 else h.usedSlots e := by
  rcases eq_or_ne e d with rfl | hne
  · rw [if_pos rfl]
    simp only [usedSlots_eq]
    exact usedSlots_update h.isUsed hk
  · rw [if_neg hne]
    simp only [usedSlots, DepHeap.addSrc, update_slot, if_neg hne]

theorem Counted.addSrc (hc : Counted h none) (hd : h.live d = true) (hi : h.issued d = false)
    (hk : h.isUsed (d, k) = false) : Counted (h.addSrc k p d) none := by
  have hdeps : ∀ e, (h.addSrc k p d).nDeps e = if e = d then h.nDeps d + 1 else h.nDeps e :=
    fun e => update_apply _ _ _ _
  refine ⟨?_, ?_, ?_, by simp, hc.stage⟩
  · intro e he
    rw [hdeps, usedSlots_addSrc hk]
    split
    · rw [hc.count d hd]
    · exact hc.count e he
  · intro e he
    have hne : e ≠ d := by
      rintro rfl
      have he : h.live e = false := he
      rw [hd] at he
      cases he
    rw [hdeps, if_neg hne]
    exact hc.idle e he
  · intro e he _
    rw [hdeps]
    split
    · rename_i hed
      subst hed
      have hpos : 0 ≤ h.nDeps e := by
        rw [hc.count e hd]
        exact usedSlots_nonneg h e
      refine iff_of_false ?_ fun h' => ?_
      · simp [DepHeap.addSrc, hi]
      · omega
    · exact hc.ready e he (by simp)

theorem Sound.addSrc (hs : Sound h L) (hcall : h.call = some (.adding d)) (hp : h.live p = true)
    (hx : h.executed p = false) (hk : h.isUsed (d, k) = false) :
    Sound (h.addSrc k p d) (update L p (L p ++ [(d, k)])) := by
  obtain ⟨hd, he⟩ := hs.called.adding d hcall
  have hi : h.issued d = false := by
    rw [← Bool.not_eq_true, hs.counted.ready d hd (by simp), he]
    simp
  obtain ⟨g₁, g₂, g₃, g₄, g₅, g₆⟩ := hs.logged
  refine ⟨hs.lists.addSrc hp hd hk, hs.counted.addSrc hd hi hk, ⟨g₁, g₂, g₃, g₄, g₅, g₆⟩, ?_, ?_, ?_, ?_⟩
  · intro e hl hent hcl
    have hne : e ≠ d := by
      rintro rfl
      exact hcl hcall
    show update h.nDeps d _ e = 0
    rw [update_of_ne hne]
    exact hs.called.unlinked e hl hent hcl
  · intro q hq hcl
    have hne : q ≠ p := by
      rintro rfl
      exact absurd (hx.symm.trans hq) (by simp)
    rw [update_of_ne hne]
    exact hs.called.drained q hq hcl
  · exact hs.called.adding
  · exact hs.called.waking

theorem Sound.addInst (hs : Sound h L) (hcall : h.call = some (.adding d)) :
    Sound { h.addInst d with call := none } L := by
  obtain ⟨hd, he⟩ := hs.called.adding d hcall
  have hi : h.issued d = false := by
    rw [← Bool.not_eq_true, hs.counted.ready d hd (by simp), he]
    simp
  obtain ⟨⟨h₁, h₂, h₃, h₄, h₅, h₆⟩, hcounted, ⟨g₁, g₂, g₃, g₄, g₅, g₆⟩, hcalled⟩ := hs
  -- the instruction has entered, and is the only one whose issue is open
  have hc : Counted { h with entered := update h.entered d true } (some d) := by
    refine ⟨hcounted.count, hcounted.idle, ?_, ?_, hcounted.stage⟩
    · intro e hl hne
      have hne : e ≠ d := by simpa using hne
      simp only [update_of_ne hne]
      exact hcounted.ready e hl (by simp)
    · intro e hed
      obtain rfl := Option.some.inj hed
      exact hi
  have hg : Logged { h with entered := update h.entered d true } := ⟨g₁, g₂, g₃, g₄, g₅, g₆⟩
  have hunlinked : ∀ e, h.live e = true → update h.entered d true e = false → h.nDeps e = 0 := by
    intro e hl hent
    have hne : e ≠ d := by
      rintro rfl
      rw [update_self] at hent
      cases hent
    rw [update_of_ne hne] at hent
    exact hcalled.unlinked e hl hent (by rw [hcall]; simpa using hne.symm)
  have hdrained : ∀ p, h.executed p = true → L p = [] :=
    fun p hp => hcalled.drained p hp (by simp [hcall])
  unfold DepHeap.addInst
  simp only
  split
  · rename_i h0
    have h0 : h.nDeps d ≠ 0 := by simpa [hasDeps] using h0
    obtain ⟨c₁, c₂, c₃, c₄, c₅⟩ := hc.keep h0
    exact ⟨⟨h₁, h₂, h₃, h₄, h₅, h₆⟩, ⟨c₁, c₂, c₃, c₄, c₅⟩, ⟨g₁, g₂, g₃, g₄, g₅, g₆⟩,
      .of_none rfl hunlinked hdrained⟩
  · rename_i h0
    have h0 : h.nDeps d = 0 := by simpa [hasDeps] using h0
    obtain ⟨c₁, c₂, c₃, c₄, c₅⟩ := hc.preSelect (update_self _ _ _) h0
    obtain ⟨g₁, g₂, g₃, g₄, g₅, g₆⟩ := hg.preSelect hd hi
    exact ⟨⟨h₁, h₂, h₃, h₄, h₅, h₆⟩, ⟨c₁, c₂, c₃, c₄, c₅⟩, ⟨g₁, g₂, g₃, g₄, g₅, g₆⟩,
      .of_none rfl hunlinked hdrained⟩

theorem Sound.executed (hs : Sound h L) (hcall : h.call = none) (hp : h.live p = true) (hi : h.issued p = true) :
    Sound { h.markExecuted p with call := some (.waking p) } L := by
  obtain ⟨⟨h₁, h₂, h₃, h₄, h₅, h₆⟩, ⟨c₁, c₂, c₃, c₄, c₅⟩, ⟨g₁, g₂, g₃, g₄, g₅, g₆⟩, hcalled⟩ := hs
  refine ⟨⟨h₁, h₂, h₃, h₄, h₅, h₆⟩, ⟨c₁, c₂, c₃, c₄, ?_⟩, ⟨g₁, g₂, g₃, g₄, g₅, g₆⟩, ?_, ?_, ?_, ?_⟩
  · intro e hl hx
    have hx : update h.executed p true e = true := hx
    rcases eq_or_ne e p with rfl | hne
    · exact hi
    · rw [update_of_ne hne] at hx
      exact c₅ e hl hx
  · exact fun e hl hent _ => hcalled.unlinked e hl hent (by simp [hcall])
  · intro q hq hcl
    have hq : update h.executed p true q = true := hq
    have hne : q ≠ p := by
      rintro rfl
      exact hcl rfl
    rw [update_of_ne hne] at hq
    exact hcalled.drained q hq (by simp [hcall])
  · intro e hcl
    simp at hcl
  · intro q hcl
    obtain rfl : p = q := by simpa using hcl
    exact ⟨hp, update_self _ _ _⟩

theorem usedSlots_pop {first : ℕ → Option DInstNext} {nDeps : ℕ → ℤ} (hk : h.isUsed (d, k) = true) (e : ℕ) :
    { h with nDeps := nDeps, isUsed := update h.isUsed (d, k) false, first := first }.usedSlots e =
      if e = d then h.usedSlots d - 1 else h.usedSlots e := by
  rcases eq_or_ne e d with rfl | hne
  · rw [if_pos rfl]
    simp only [usedSlots_eq]
    exact usedSlots_update h.isUsed hk
  · rw [if_neg hne]
    simp only [usedSlots, update_slot, if_neg hne]

/-- A dependence is taken off: the instruction that it belongs to may now be without. -/
theorem Counted.pop {first : ℕ → Option DInstNext} (hc : Counted h none) (hd : h.live d = true)
    (hi : h.issued d = false) (hk : h.isUsed (d, k) = true) :
    Counted { h with
      nDeps := update h.nDeps d (h.nDeps d - 1), isUsed := update h.isUsed (d, k) false, first := first } (some d) := by
  have hdeps : ∀ e, update h.nDeps d (h.nDeps d - 1) e = if e = d then h.nDeps d - 1 else h.nDeps e :=
    fun e => update_apply _ _ _ _
  refine ⟨?_, ?_, ?_, ?_, hc.stage⟩
  · intro e he
    rw [usedSlots_pop hk]
    show update h.nDeps d (h.nDeps d - 1) e = _
    rw [hdeps]
    split
    · rw [hc.count d hd]
    · exact hc.count e he
  · intro e he
    have hne : e ≠ d := by
      rintro rfl
      exact absurd (hd.symm.trans he) (by simp)
    show update h.nDeps d (h.nDeps d - 1) e = 0
    rw [hdeps, if_neg hne]
    exact hc.idle e he
  · intro e he hne
    have hne : e ≠ d := by simpa using hne
    show h.issued e = true ↔ h.entered e = true ∧ update h.nDeps d (h.nDeps d - 1) e = 0
    rw [hdeps, if_neg hne]
    exact hc.ready e he (by simp)
  · intro e hed
    obtain rfl := Option.some.inj hed
    exact hi

theorem Sound.wake (hs : Sound h L) (hcall : h.call = some (.waking p)) (hw : h.wake p = some h') :
    ∃ n rest, L p = n :: rest ∧ Sound h' (update L p rest) ∧ h'.call = some (.waking p) := by
  obtain ⟨hp, hx⟩ := hs.called.waking p hcall
  unfold DepHeap.wake at hw
  rw [Option.map_eq_some_iff] at hw
  obtain ⟨⟨d, t⟩, hpop, hw⟩ := hw
  obtain ⟨k, rest, hL, hlists, ht⟩ := hs.lists.pop hp hpop
  have hin : (d, k) ∈ L p := by
    rw [hL]
    exact List.mem_cons_self
  obtain ⟨-, hd, hu⟩ := hs.lists.inside p (d, k) hin
  have hi := hs.not_issued hd hu
  have hc : Counted t (some d) := by
    rw [ht]
    exact hs.counted.pop hd hi hu
  have hg : Logged t := by
    obtain ⟨g₁, g₂, g₃, g₄, g₅, g₆⟩ := hs.logged
    rw [ht]
    exact ⟨g₁, g₂, g₃, g₄, g₅, g₆⟩
  -- nobody is being added, so whoever has a link has entered
  have hent : h.entered d = true := by
    by_contra hent
    have h0 := hs.called.unlinked d hd (by simpa using hent) (by simp [hcall])
    have hpos := usedSlots_pos hu
    rw [hs.counted.count d hd] at h0
    omega
  have hcalled : Called t (update L p rest) := by
    rw [ht]
    refine ⟨?_, ?_, ?_, ?_⟩
    · intro e hl he _
      have hne : e ≠ d := by
        rintro rfl
        exact absurd (hent.symm.trans he) (by simp)
      show update h.nDeps d _ e = 0
      rw [update_of_ne hne]
      exact hs.called.unlinked e hl he (by simp [hcall])
    · intro q hq hcl
      have hne : q ≠ p := by
        rintro rfl
        exact hcl hcall
      rw [update_of_ne hne]
      exact hs.called.drained q hq hcl
    · exact hs.called.adding
    · exact hs.called.waking
  have htent : t.entered d = true ∧ t.live d = true ∧ t.issued d = false ∧ t.call = some (.waking p) := by
    rw [ht]
    exact ⟨hent, hd, hi, hcall⟩
  obtain ⟨hte, htl, hti, htc⟩ := htent
  refine ⟨(d, k), rest, hL, ?_, ?_⟩
  · simp only at hw
    split at hw
    · rename_i h0
      subst hw
      exact ⟨hlists, hc.keep (by simpa [hasDeps] using h0), hg, hcalled⟩
    · rename_i h0
      subst hw
      obtain ⟨h₁, h₂, h₃, h₄, h₅, h₆⟩ := hlists
      obtain ⟨k₁, k₂, k₃, k₄⟩ := hcalled
      exact ⟨⟨h₁, h₂, h₃, h₄, h₅, h₆⟩, hc.preSelect hte (by simpa [hasDeps] using h0), hg.preSelect htl hti,
        ⟨k₁, k₂, k₃, k₄⟩⟩
  · simp only at hw
    split at hw <;> subst hw <;> exact htc

theorem Sound.done (hs : Sound h L) (hcall : h.call = some (.waking p)) (hf : h.first p = none) :
    Sound { h with call := none } L := by
  obtain ⟨hp, -⟩ := hs.called.waking p hcall
  have hL : L p = [] := (hs.lists.chain p hp).eq_none_iff.1 hf
  obtain ⟨⟨h₁, h₂, h₃, h₄, h₅, h₆⟩, ⟨c₁, c₂, c₃, c₄, c₅⟩, ⟨g₁, g₂, g₃, g₄, g₅, g₆⟩, hcalled⟩ := hs
  refine ⟨⟨h₁, h₂, h₃, h₄, h₅, h₆⟩, ⟨c₁, c₂, c₃, c₄, c₅⟩, ⟨g₁, g₂, g₃, g₄, g₅, g₆⟩, .of_none rfl ?_ ?_⟩
  · exact fun e hl he => hcalled.unlinked e hl he (by simp [hcall])
  · intro q hq
    rcases eq_or_ne q p with rfl | hne
    · exact hL
    · exact hcalled.drained q hq (by rw [hcall]; simpa using hne.symm)

/-- An instruction that has executed goes back to the pool in the state that the assertions of `scrap` ask
for. -/
theorem Sound.scrap (hs : Sound h L) (hcall : h.call = none) (hd : h.live d = true) (hx : h.executed d = true) :
    h.nDeps d = 0 ∧ h.first d = none ∧ L d = [] := by
  have hL := hs.called.drained d hx (by simp [hcall])
  have hi := hs.counted.stage d hd hx
  exact ⟨((hs.counted.ready d hd (by simp)).1 hi).2, (hs.lists.chain d hd).eq_none_iff.2 hL, hL⟩

theorem Sound.destroy (hs : Sound h L) (hcall : h.call = none) (hd : h.live d = true) (hx : h.executed d = true) :
    Sound (h.destroy d) L := by
  obtain ⟨h0, -, hL⟩ := hs.scrap hcall hd hx
  have hi := hs.counted.stage d hd hx
  have hlive : ∀ e, (h.destroy d).live e = true → h.live e = true ∧ e ≠ d := by
    intro e he
    have he : update h.live d false e = true := he
    have hne : e ≠ d := by
      rintro rfl
      rw [update_self] at he
      cases he
    rw [update_of_ne hne] at he
    exact ⟨he, hne⟩
  have hkeep : ∀ e, h.live e = true → e ≠ d → (h.destroy d).live e = true := by
    intro e he hne
    show update h.live d false e = true
    rwa [update_of_ne hne]
  refine ⟨⟨?_, hs.lists.ends, hs.lists.nodup, hs.lists.one, ?_, ?_⟩, ⟨?_, ?_, ?_, by simp, ?_⟩,
    ⟨?_, ?_, hs.logged.nodup, hs.logged.old, ?_, ?_⟩, .of_none hcall ?_ ?_⟩
  · exact fun q hq => hs.lists.chain q (hlive q hq).1
  · intro q n hn
    obtain ⟨hlq, hln, hu⟩ := hs.lists.inside q n hn
    refine ⟨hkeep q hlq ?_, hkeep n.1 hln ?_, hu⟩
    · rintro rfl
      rw [hL] at hn
      cases hn
    · -- no slot of the instruction is in use
      intro hnd
      have hpos : 0 < h.usedSlots n.1 := usedSlots_pos (k := n.2) hu
      rw [← hs.counted.count n.1 hln, hnd] at hpos
      omega
  · exact fun n hn hu => hs.lists.covered n (hlive n.1 hn).1 hu
  · exact fun e he => hs.counted.count e (hlive e he).1
  · intro e he
    rcases eq_or_ne e d with rfl | hne
    · exact h0
    · have he : update h.live d false e = false := he
      rw [update_of_ne hne] at he
      exact hs.counted.idle e he
  · exact fun e he _ => hs.counted.ready e (hlive e he).1 (by simp)
  · exact fun e he hxe => hs.counted.stage e (hlive e he).1 hxe
  · exact fun e he => hs.logged.below e (hlive e he).1
  · exact fun e e' he he' hid => hs.logged.inj e e' (hlive e he).1 (hlive e' he').1 hid
  · exact fun e he => hs.logged.issued e (hlive e he).1
  · intro i hlt
    rcases hs.logged.gone i hlt with hin | ⟨e, he, rfl⟩
    · exact .inl hin
    · rcases eq_or_ne e d with rfl | hne
      · exact .inl ((hs.logged.issued e hd).2 hi)
      · exact .inr ⟨e, hkeep e he hne, rfl⟩
  · exact fun e he hent => hs.called.unlinked e (hlive e he).1 hent (by simp [hcall])
  · exact fun q hq => hs.called.drained q hq (by simp [hcall])

theorem Sound.step {e : Event} (hs : Sound h L) (hstep : step h e = some h') : ∃ L', Sound h' L' := by
  cases e <;> simp only [DepHeap.step] at hstep
  case create d =>
    split at hstep <;> cases hstep
    rename_i hg
    exact ⟨L, hs.create hg.1 hg.2⟩
  case add d =>
    split at hstep <;> cases hstep
    rename_i hg
    exact ⟨L, hs.add hg.1 hg.2.1 hg.2.2⟩
  case addSrc k p =>
    split at hstep
    · rename_i d hcall
      split at hstep <;> cases hstep
      rename_i hg
      exact ⟨_, hs.addSrc hcall hg.1 hg.2.1 hg.2.2⟩
    · cases hstep
  case addInst =>
    split at hstep <;> cases hstep
    rename_i d hcall
    exact ⟨L, hs.addInst hcall⟩
  case executed p =>
    split at hstep <;> cases hstep
    rename_i hg
    exact ⟨L, hs.executed hg.1 hg.2.1 hg.2.2.1⟩
  case wake =>
    split at hstep
    · rename_i p hcall
      obtain ⟨n, rest, -, hs', -⟩ := hs.wake hcall hstep
      exact ⟨_, hs'⟩
    · cases hstep
  case done =>
    split at hstep
    · rename_i p hcall
      split at hstep <;> cases hstep
      rename_i hf
      exact ⟨L, hs.done hcall hf⟩
    · cases hstep
  case destroy d =>
    split at hstep <;> cases hstep
    rename_i hg
    exact ⟨L, hs.destroy hg.1 hg.2.1 hg.2.2⟩

/-- The loop ends: it takes a turn for each node of the list. -/
theorem Sound.wakes (hs : Sound h L) (hcall : h.call = some (.waking p)) :
    ∃ t, run DepHeap.step h (List.replicate (L p).length .wake ++ [.done]) = some t ∧ t.call = none := by
  induction hlen : (L p).length generalizing h L with
  | zero =>
    have hf : h.first p = none := by
      have hp := (hs.called.waking p hcall).1
      exact (hs.lists.chain p hp).eq_none_iff.2 (List.length_eq_zero_iff.1 hlen)
    exact ⟨{ h with call := none }, by simp [run, DepHeap.step, hcall, hf], rfl⟩
  | succ m ih =>
    have hne : L p ≠ [] := by
      rintro e
      rw [e] at hlen
      cases hlen
    have hf : h.first p ≠ none := by
      have hp := (hs.called.waking p hcall).1
      exact fun e => hne ((hs.lists.chain p hp).eq_none_iff.1 e)
    obtain ⟨n, hfirst⟩ := Option.ne_none_iff_exists'.1 hf
    obtain ⟨t, ht⟩ : ∃ t, h.wake p = some t := by simp [DepHeap.wake, getNextPending, hfirst]
    obtain ⟨n, rest, hL, hs', hcall'⟩ := hs.wake hcall ht
    have hrest : (update L p rest p).length = m := by
      rw [update_self]
      rw [hL] at hlen
      simpa using hlen
    obtain ⟨u, hu, hnone⟩ := ih hs' hcall' hrest
    refine ⟨u, ?_, hnone⟩
    rw [List.replicate_succ, List.cons_append]
    exact run_cons.2 ⟨t, by simpa only [DepHeap.step, hcall] using ht, hu⟩

/-- Before the first instruction. The pool's constructor has set `nDeps`, and nothing else. -/
structure Fresh (h : DepHeap) : Prop where
  live : ∀ d, h.live d = false
  nDeps : ∀ d, h.nDeps d = 0
  currentID : h.currentID = 0
  handed : h.handed = []
  call : h.call = none

theorem Fresh.sound (hf : Fresh h) : Sound h fun _ => [] := by
  have hno : ∀ d, ¬h.live d = true := fun d => by simp [hf.live d]
  refine ⟨⟨fun p hp => absurd hp (hno p), by simp, by simp, by simp, by simp, fun n hn => absurd hn (hno n.1)⟩,
    ⟨fun d hd => absurd hd (hno d), fun d _ => hf.nDeps d, fun d hd => absurd hd (hno d), by simp,
      fun d hd => absurd hd (hno d)⟩,
    ⟨fun d hd => absurd hd (hno d), fun d _ hd => absurd hd (hno d), by simp [hf.handed], by simp [hf.handed],
      fun d hd => absurd hd (hno d), by simp [hf.currentID]⟩,
    .of_none hf.call (fun d hd => absurd hd (hno d)) fun _ _ => rfl⟩

/-- **Exact dependences.** In every state of every run: `nDeps` is the number of slots in use; the links
spell lists in which each slot in use is once, in one of them; no instruction is handed to `preSelect`
twice, those that were are the ones in the window without dependences, and of the ones created before
none is missing; and a loop of `executed` that is under way comes to its end. -/
theorem deps_exact {h₀ : DepHeap} (hfresh : Fresh h₀) (es : List Event) {h : DepHeap}
    (hrun : run step h₀ es = some h) :
    (∀ d, h.live d = true → h.nDeps d = h.usedSlots d) ∧
    (∃ L : ℕ → List DInstNext,
      (∀ p, h.live p = true → Linked h.nextDep (h.first p) (L p)) ∧
      (∀ n, h.live n.1 = true → (h.isUsed n = true ↔ ∃ p, h.live p = true ∧ n ∈ L p)) ∧
      (∀ p, (L p).Nodup) ∧ ∀ p q n, n ∈ L p → n ∈ L q → p = q) ∧
    h.handed.Nodup ∧
    (∀ d e, h.live d = true → h.live e = true → h.ID d = h.ID e → d = e) ∧
    (∀ d, h.live d = true → (h.ID d ∈ h.handed ↔ h.entered d = true ∧ h.nDeps d = 0)) ∧
    (∀ i < h.currentID, i ∈ h.handed ∨ ∃ d, h.live d = true ∧ h.ID d = i) ∧
    ∀ p, h.call = some (.waking p) →
      ∃ m t, run step h (List.replicate m .wake ++ [.done]) = some t ∧ t.call = none := by
  obtain ⟨L, hs⟩ : ∃ L, Sound h L :=
    run_inv (I := fun h => ∃ L, Sound h L) (fun _ _ _ hstep ⟨_, hs⟩ => hs.step hstep) hrun ⟨_, hfresh.sound⟩
  refine ⟨hs.counted.count, ⟨L, hs.lists.chain, ?_, hs.lists.nodup, hs.lists.one⟩, hs.logged.nodup, hs.logged.inj,
    ?_, hs.logged.gone, fun p hcall => ⟨_, hs.wakes hcall⟩⟩
  · intro n hn
    constructor
    · intro hu
      obtain ⟨p, hp⟩ := hs.lists.covered n hn hu
      exact ⟨p, (hs.lists.inside p n hp).1, hp⟩
    · rintro ⟨p, -, hp⟩
      exact (hs.lists.inside p n hp).2.2
  · intro d hd
    rw [hs.logged.issued d hd, hs.counted.ready d hd (by simp)]

/-- A pool whose memory is not clean. -/
def usedPool : DepHeap where
  isUsed _ := true
  nextDep _ := some (0, srcSlot false)
  first _ := some (1, srcSlot true)
  last _ := (2, Fin.last 2)
  nDeps _ := 0
  issued _ := true
  executed _ := true
  ID _ := 7
  currentID := 0
  live _ := false
  entered _ := true
  handed := []
  call := none

/-- Two instructions, the second behind the first with two of its slots. -/
def twoLinked : List Event :=
  [.create 0, .create 1, .add 0, .addInst, .add 1, .addSrc (srcSlot false) 0, .addSrc (Fin.last 2) 0, .addInst,
    .executed 0, .wake, .wake, .done, .executed 1, .done, .destroy 0]

theorem fresh_usedPool : Fresh usedPool := ⟨fun _ => rfl, fun _ => rfl, rfl, rfl, rfl⟩

theorem deps_exact_twoLinked :
    ∃ h, run step usedPool twoLinked = some h ∧ h.handed = [0, 1] ∧ h.nDeps 1 = h.usedSlots 1 := by
  have hend : (run step usedPool twoLinked).any (fun h => h.handed == [0, 1] && h.live 1) = true := by
    decide +kernel
  obtain ⟨h, hrun, hh⟩ := (Option.any_eq_true _ _).1 hend
  rw [Bool.and_eq_true, beq_iff_eq] at hh
  exact ⟨h, hrun, hh.1, (deps_exact fresh_usedPool twoLinked hrun).1 1 hh.2⟩

end DepHeap

end Esesc.Core
