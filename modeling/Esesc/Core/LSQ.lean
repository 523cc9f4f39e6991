import Esesc.Core.Instruction
import Esesc.Lib.Machine
import Esesc.Lib.Multimap
import Esesc.Suc.CacheCore
import Mathlib.Data.List.Nodup
import Mathlib.Logic.Function.Basic

/-!
# Load and store queues (`LSQ.cpp`)

`LSQFull` keeps the loads and stores of a core under their words, without an order. When a store executes, it looks for a
younger load of its word that has been executed already, and when a load does, for an older store. `LSQVPC` keeps them
in a sorted map, and looks at one word only: from what `find` returns, as long as the key of the iterator is the word.

* `foldl_scan`: what the loop of `LSQFull::executing` has found.
* `foldl_pick`: among several loads, it is the youngest that stays.
* `executing_law_iff`: the oldest one is returned exactly when there is one at most.
* `replayLaw_iff`, `removeLaw_iff`: the queues in which the loops of `LSQVPC` stay inside the map and are right.
* `lookups_iff`: so after every sequence of operations.
-/

namespace Esesc.Core

open Esesc.Lib Esesc.Suc

/-- What the queues look at in a memory instruction. -/
structure MemInst where
  ID : ℕ
  pc : AddrType
  addr : AddrType
  inst : Instruction
  executed : Bool
  loadForwarded : Bool
  statsFlag : Bool
  deriving DecidableEq

/-- A `DInst *`. -/
abbrev DPtr := ℕ

/-- The instructions that the pointers lead to. -/
abbrev Insts := DPtr → MemInst

def calcWord (d : MemInst) : AddrType := d.addr >>> 2

/-! ## `LSQFull` -/

/-- The multimap in the order of its iterators, which is not specified. -/
structure LSQFull where
  instMap : List (AddrType × DPtr)
  stldForwarding : ℕ

namespace LSQFull

/-- The new entry is at some place of the order. -/
def insert (q : LSQFull) (place : ℕ) (insts : Insts) (d : DPtr) : LSQFull :=
  { q with instMap := q.instMap.take place ++ (calcWord (insts d), d) :: q.instMap.drop place }

/-- The variables of the loop. -/
structure Scan where
  insts : Insts
  faulty : Option DPtr
  stldForwarding : ℕ

/-- `faulty` after another load: the younger one. -/
def pick (insts : Insts) (faulty : Option DPtr) (q : DPtr) : Option DPtr :=
  match faulty with
  | none => some q
  | some f => if (insts f).ID < (insts q).ID then some q else some f

/-- The body of the loop. -/
def scan (tag : AddrType) (d : DPtr) (s : Scan) (e : AddrType × DPtr) : Scan :=
  if e.1 ≠ tag then s
  else if e.2 = d then s
  else if (s.insts e.2).ID > (s.insts d).ID then
    if (s.insts e.2).executed ∧ (s.insts e.2).pc ≠ (s.insts d).pc then
      if (s.insts d).inst.isStore ∧ (s.insts e.2).inst.isLoad then { s with faulty := pick s.insts s.faulty e.2 } else s
    else s
  else if !(s.insts d).loadForwarded ∧ (s.insts d).inst.isLoad ∧ (s.insts e.2).inst.isStore ∧ (s.insts e.2).executed then
    { s with
      insts := Function.update s.insts d { s.insts d with loadForwarded := true }
      stldForwarding := s.stldForwarding + if (s.insts d).statsFlag then 1 else 0 }
  else s

def executing (q : LSQFull) (insts : Insts) (d : DPtr) : Option DPtr × Insts × LSQFull :=
  let s := q.instMap.foldl (scan (calcWord (insts d)) d) ⟨insts, none, q.stldForwarding⟩
  (s.faulty, s.insts, { q with stldForwarding := s.stldForwarding })

/-- The first entry of the instruction goes. -/
def remove (q : LSQFull) (d : DPtr) : LSQFull := { q with instMap := q.instMap.eraseP fun e => e.2 == d }

/-- The instructions in the queue. -/
def ptrs (q : LSQFull) : List DPtr := q.instMap.map Prod.snd

/-- **A content** of the queue, while `d` executes: entries are under their words, none is there twice, and no two
instructions have the same number. -/
structure Content (insts : Insts) (q : LSQFull) (d : DPtr) : Prop where
  keys : ∀ e ∈ q.instMap, e.1 = calcWord (insts e.2)
  nodup : q.ptrs.Nodup
  ids : ∀ p ∈ q.ptrs, (insts p).ID = (insts d).ID → p = d
  ids_queue : ∀ p ∈ q.ptrs, ∀ p' ∈ q.ptrs, (insts p).ID = (insts p').ID → p = p'

/-- An executed load that is younger than the store `d`, of the same word and another address of code. -/
def Victim (insts : Insts) (q : LSQFull) (d p : DPtr) : Prop :=
  p ∈ q.ptrs ∧ calcWord (insts p) = calcWord (insts d) ∧ (insts d).ID < (insts p).ID ∧ (insts p).executed = true ∧
    (insts p).inst.isLoad = true ∧ (insts p).pc ≠ (insts d).pc

/-- An executed store that is older than the load `d`, of the same word. -/
def Source (insts : Insts) (q : LSQFull) (d p : DPtr) : Prop :=
  p ∈ q.ptrs ∧ calcWord (insts p) = calcWord (insts d) ∧ (insts p).ID < (insts d).ID ∧ (insts p).executed = true ∧
    (insts p).inst.isStore = true

/-- The instruction that has the smallest number among those with `P`, or none when there are none. -/
def IsOldest (insts : Insts) (P : DPtr → Prop) (r : Option DPtr) : Prop :=
  (r = none → ∀ p, ¬P p) ∧ ∀ p, r = some p → P p ∧ ∀ p', P p' → (insts p).ID ≤ (insts p').ID

def IsYoungest (insts : Insts) (P : DPtr → Prop) (r : Option DPtr) : Prop :=
  (r = none → ∀ p, ¬P p) ∧ ∀ p, r = some p → P p ∧ ∀ p', P p' → (insts p').ID ≤ (insts p).ID

/-- **The law.** A store returns the oldest load that it comes too late for, a load is marked when there is a store to
forward from, and a removal takes one instruction out. -/
structure Law (insts : Insts) (q : LSQFull) (d : DPtr) : Prop where
  store : (insts d).inst.isStore = true → IsOldest insts (Victim insts q d) (q.executing insts d).1
  load : (insts d).inst.isLoad = true →
    (((q.executing insts d).2.1 d).loadForwarded = true ↔ (insts d).loadForwarded = true ∨ ∃ p, Source insts q d p)
  remove : (q.remove d).instMap = q.instMap.filter fun e => e.2 != d

variable {insts : Insts} {q : LSQFull} {d p : DPtr} {tag : AddrType} {b : Bool} {f r : Option DPtr} {n : ℕ}

/-! ### The loop -/

/-- The entry is a load that the loop takes into account. -/
def Violates (insts : Insts) (tag : AddrType) (d : DPtr) (e : AddrType × DPtr) : Prop :=
  e.1 = tag ∧ e.2 ≠ d ∧ (insts e.2).ID > (insts d).ID ∧ ((insts e.2).executed = true ∧ (insts e.2).pc ≠ (insts d).pc) ∧
    (insts d).inst.isStore = true ∧ (insts e.2).inst.isLoad = true

/-- The entry is a store that the loop forwards from. -/
def Forwards (insts : Insts) (tag : AddrType) (d : DPtr) (e : AddrType × DPtr) : Prop :=
  e.1 = tag ∧ e.2 ≠ d ∧ ¬(insts e.2).ID > (insts d).ID ∧ (insts d).inst.isLoad = true ∧ (insts e.2).inst.isStore = true ∧
    (insts e.2).executed = true

instance (e : AddrType × DPtr) : Decidable (Violates insts tag d e) := inferInstanceAs (Decidable (_ ∧ _))

instance (e : AddrType × DPtr) : Decidable (Forwards insts tag d e) := inferInstanceAs (Decidable (_ ∧ _))

/-- The instructions with the mark of `d` set to `b`. -/
def marked (insts : Insts) (d : DPtr) (b : Bool) : Insts := Function.update insts d { insts d with loadForwarded := b }

theorem marked_other (h : p ≠ d) : marked insts d b p = insts p := Function.update_of_ne h _ _

theorem marked_self : marked insts d b d = { insts d with loadForwarded := b } := Function.update_self _ _ _

theorem marked_ID (p : DPtr) : (marked insts d b p).ID = (insts p).ID := by
  by_cases h : p = d
  · rw [h, marked_self]
  · rw [marked_other h]

theorem pick_marked (f : Option DPtr) (p : DPtr) : pick (marked insts d b) f p = pick insts f p := by
  cases f with
  | none => rfl
  | some f => simp only [pick, marked_ID]

theorem marked_marked (b' : Bool) :
    Function.update (marked insts d b) d { insts d with loadForwarded := b' } = marked insts d b' :=
  Function.update_idem _ _ _

/-- **One entry**: the mark of `d` and `faulty` are all that changes. -/
theorem scan_marked (insts : Insts) (tag : AddrType) (d : DPtr) (b : Bool) (f : Option DPtr) (n : ℕ) (e : AddrType × DPtr) :
    ∃ n', scan tag d ⟨marked insts d b, f, n⟩ e =
      ⟨marked insts d (b || decide (Forwards insts tag d e)), if Violates insts tag d e then pick insts f e.2 else f, n'⟩ := by
  -- without a change, both conditions fail
  have hkeep : ∀ s, s = (⟨marked insts d b, f, n⟩ : Scan) → ¬Violates insts tag d e → ¬Forwards insts tag d e →
      ∃ n', s = ⟨marked insts d (b || decide (Forwards insts tag d e)),
        if Violates insts tag d e then pick insts f e.2 else f, n'⟩ := by
    rintro s rfl hv hf
    refine ⟨n, ?_⟩
    rw [if_neg hv, decide_eq_false hf, Bool.or_false]
  unfold scan
  by_cases htag : e.1 = tag
  · rw [if_neg (not_not.2 htag)]
    by_cases hd : e.2 = d
    · rw [if_pos hd]
      exact hkeep _ rfl (fun h => h.2.1 hd) fun h => h.2.1 hd
    · rw [if_neg hd]
      simp only [marked_other hd, marked_self]
      by_cases hage : (insts e.2).ID > (insts d).ID
      · have hf : ¬Forwards insts tag d e := fun h => h.2.2.1 hage
        rw [if_pos hage]
        by_cases hx : (insts e.2).executed = true ∧ (insts e.2).pc ≠ (insts d).pc
        · rw [if_pos hx]
          by_cases hk : (insts d).inst.isStore = true ∧ (insts e.2).inst.isLoad = true
          · refine ⟨n, ?_⟩
            rw [if_pos hk, if_pos ⟨htag, hd, hage, hx, hk⟩, decide_eq_false hf, Bool.or_false, pick_marked]
          · rw [if_neg hk]
            exact hkeep _ rfl (fun h => hk h.2.2.2.2) hf
        · rw [if_neg hx]
          exact hkeep _ rfl (fun h => hx h.2.2.2.1) hf
      · have hv : ¬Violates insts tag d e := fun h => hage h.2.2.1
        rw [if_neg hage]
        by_cases hk : (insts d).inst.isLoad = true ∧ (insts e.2).inst.isStore = true ∧ (insts e.2).executed = true
        · have hf : Forwards insts tag d e := ⟨htag, hd, hage, hk⟩
          rw [if_neg hv, decide_eq_true hf, Bool.or_true]
          cases b with
          | true => exact ⟨n, if_neg fun h => Bool.false_ne_true h.1⟩
          | false =>
            rw [if_pos ⟨rfl, hk⟩, marked_marked]
            exact ⟨_, rfl⟩
        · rw [if_neg fun h => hk h.2]
          exact hkeep _ rfl hv fun h => hk h.2.2.2
  · rw [if_pos htag]
    exact hkeep _ rfl (fun h => htag h.1) fun h => htag h.1

/-- **The loop.** -/
theorem foldl_scan (insts : Insts) (tag : AddrType) (d : DPtr) (l : List (AddrType × DPtr)) (b : Bool) (f : Option DPtr) (n : ℕ) :
    ∃ n', l.foldl (scan tag d) ⟨marked insts d b, f, n⟩ =
      ⟨marked insts d (b || l.any fun e => decide (Forwards insts tag d e)),
        l.foldl (fun f e => if Violates insts tag d e then pick insts f e.2 else f) f, n'⟩ := by
  induction l generalizing b f n with
  | nil => exact ⟨n, by rw [List.any_nil, Bool.or_false]; rfl⟩
  | cons e l ih =>
    obtain ⟨n1, hscan⟩ := scan_marked insts tag d b f n e
    obtain ⟨n', hrest⟩ := ih (b || decide (Forwards insts tag d e)) (if Violates insts tag d e then pick insts f e.2 else f) n1
    refine ⟨n', ?_⟩
    rw [List.foldl_cons, hscan, hrest, List.any_cons, Bool.or_assoc]
    rfl

theorem isYoungest_some {P : DPtr → Prop} (hp : P p) (hmax : ∀ p', P p' → (insts p').ID ≤ (insts p).ID) :
    IsYoungest insts P (some p) := by
  refine ⟨fun hnone => absurd hnone (Option.some_ne_none p), fun p' hp' => ?_⟩
  obtain rfl := Option.some.inj hp'
  exact ⟨hp, hmax⟩

theorem pick_youngest {P : DPtr → Prop} (h : IsYoungest insts P f) (q : DPtr) :
    IsYoungest insts (fun p => P p ∨ q = p) (pick insts f q) := by
  cases f with
  | none =>
    apply isYoungest_some (.inr rfl)
    rintro p' (hp' | rfl)
    · exact absurd hp' (h.1 rfl p')
    · exact le_rfl
  | some f =>
    obtain ⟨hf, hmax⟩ := h.2 f rfl
    rw [pick]
    split
    · rename_i hlt
      apply isYoungest_some (.inr rfl)
      rintro p' (hp' | rfl)
      · exact le_trans (hmax p' hp') (le_of_lt hlt)
      · exact le_rfl
    · rename_i hge
      apply isYoungest_some (.inl hf)
      rintro p' (hp' | rfl)
      · exact hmax p' hp'
      · exact not_lt.1 hge

/-- **Of several loads**, the youngest stays. -/
theorem foldl_pick (tag : AddrType) (d : DPtr) (l : List (AddrType × DPtr)) {P : DPtr → Prop} (h : IsYoungest insts P f) :
    IsYoungest insts (fun p => P p ∨ ∃ e ∈ l, Violates insts tag d e ∧ e.2 = p)
      (l.foldl (fun f e => if Violates insts tag d e then pick insts f e.2 else f) f) := by
  induction l generalizing f P with
  | nil => simpa using h
  | cons e l ih =>
    rw [List.foldl_cons]
    have hcons : ∀ p, ((P p ∨ Violates insts tag d e ∧ e.2 = p) ∨ ∃ e ∈ l, Violates insts tag d e ∧ e.2 = p) ↔
        (P p ∨ ∃ e' ∈ e :: l, Violates insts tag d e' ∧ e'.2 = p) := by
      intro p
      rw [List.exists_mem_cons_iff, or_assoc]
    have hnext : IsYoungest insts (fun p => P p ∨ Violates insts tag d e ∧ e.2 = p)
        (if Violates insts tag d e then pick insts f e.2 else f) := by
      by_cases hv : Violates insts tag d e
      · rw [if_pos hv]
        simpa only [hv, true_and] using pick_youngest h e.2
      · rw [if_neg hv]
        simpa only [hv, false_and, or_false] using h
    have hih := ih hnext
    simp only [hcons] at hih
    exact hih

/-! ### Executing and removing -/

theorem executing_eq (q : LSQFull) (insts : Insts) (d : DPtr) :
    (q.executing insts d).1 = q.instMap.foldl
        (fun f e => if Violates insts (calcWord (insts d)) d e then pick insts f e.2 else f) none ∧
      ((q.executing insts d).2.1 d).loadForwarded =
        ((insts d).loadForwarded || q.instMap.any fun e => decide (Forwards insts (calcWord (insts d)) d e)) := by
  have hself : marked insts d (insts d).loadForwarded = insts := Function.update_eq_self d insts
  obtain ⟨n', hloop⟩ := foldl_scan insts (calcWord (insts d)) d q.instMap
    (insts d).loadForwarded none q.stldForwarding
  rw [hself] at hloop
  unfold executing
  simp only
  rw [hloop]
  refine ⟨rfl, ?_⟩
  simp only
  rw [marked_self]

/-- The loads that the loop takes into account are the victims. -/
theorem Content.victim_iff (hc : q.Content insts d) (hstore : (insts d).inst.isStore = true) (p : DPtr) :
    (∃ e ∈ q.instMap, Violates insts (calcWord (insts d)) d e ∧ e.2 = p) ↔ Victim insts q d p := by
  constructor
  · rintro ⟨e, he, ⟨htag, -, hage, ⟨hexec, hpc⟩, -, hload⟩, rfl⟩
    exact ⟨List.mem_map_of_mem he, (hc.keys e he).symm.trans htag, hage, hexec, hload, hpc⟩
  · rintro ⟨hmem, hword, hage, hexec, hload, hpc⟩
    obtain ⟨e, he, rfl⟩ := List.mem_map.1 hmem
    refine ⟨e, he, ⟨(hc.keys e he).trans hword, ?_, hage, ⟨hexec, hpc⟩, hstore, hload⟩, rfl⟩
    intro hd
    rw [hd] at hage
    exact Nat.lt_irrefl _ hage

theorem Content.source_iff (hc : q.Content insts d) (hload : (insts d).inst.isLoad = true) :
    (q.instMap.any fun e => decide (Forwards insts (calcWord (insts d)) d e)) = true ↔ ∃ p, Source insts q d p := by
  rw [List.any_eq_true]
  constructor
  · rintro ⟨e, he, hfwd⟩
    obtain ⟨htag, hd, hage, -, hstore, hexec⟩ := of_decide_eq_true hfwd
    have hmem : e.2 ∈ q.ptrs := List.mem_map_of_mem he
    have hne : (insts e.2).ID ≠ (insts d).ID := fun h => hd (hc.ids e.2 hmem h)
    exact ⟨e.2, hmem, (hc.keys e he).symm.trans htag, by omega, hexec, hstore⟩
  · rintro ⟨p, hmem, hword, hage, hexec, hstore⟩
    obtain ⟨e, he, rfl⟩ := List.mem_map.1 hmem
    refine ⟨e, he, decide_eq_true ⟨(hc.keys e he).trans hword, ?_, by omega, hload, hstore, hexec⟩⟩
    intro hd
    rw [hd] at hage
    exact Nat.lt_irrefl _ hage

/-- The youngest is the oldest when there is one at most. -/
theorem IsYoungest.isOldest_iff {P : DPtr → Prop} (h : IsYoungest insts P r)
    (hids : ∀ p p', P p → P p' → (insts p).ID = (insts p').ID → p = p') :
    IsOldest insts P r ↔ ∀ p p', P p → P p' → p = p' := by
  constructor
  · rintro ⟨-, hold⟩ p p' hp hp'
    cases r with
    | none => exact absurd hp (h.1 rfl p)
    | some f =>
      have hmax := (h.2 f rfl).2
      have hmin := (hold f rfl).2
      have h1 := hmax p hp
      have h2 := hmin p hp
      have h3 := hmax p' hp'
      have h4 := hmin p' hp'
      exact hids p p' hp hp' (by omega)
  · intro hone
    refine ⟨h.1, fun p hp => ⟨(h.2 p hp).1, fun p' hp' => ?_⟩⟩
    rw [hone p p' (h.2 p hp).1 hp']

/-- An instruction that is in the queue once leaves it. -/
theorem eraseP_eq_filter {l : List (AddrType × DPtr)} (h : (l.map Prod.snd).Nodup) (d : DPtr) :
    l.eraseP (fun e => e.2 == d) = l.filter fun e => e.2 != d := by
  induction l with
  | nil => rfl
  | cons e l ih =>
    rw [List.map_cons, List.nodup_cons] at h
    by_cases hd : e.2 = d
    · rw [List.eraseP_cons_of_pos (by simpa using hd), List.filter_cons_of_neg (by simpa using hd)]
      symm
      rw [List.filter_eq_self]
      intro e' he'
      rw [bne_iff_ne]
      intro hd'
      exact h.1 (List.mem_map.2 ⟨e', he', hd'.trans hd.symm⟩)
    · rw [List.eraseP_cons_of_neg (by simpa using hd), List.filter_cons_of_pos (by simpa using hd), ih h.2]

/-- The queue is kept by insertions of instructions with new numbers. -/
theorem Content.insert (hc : q.Content insts d) (place : ℕ) (hnew : ∀ p' ∈ q.ptrs, (insts p).ID ≠ (insts p').ID)
    (hd : (insts p).ID = (insts d).ID → p = d) : (q.insert place insts p).Content insts d := by
  have hperm : (q.insert place insts p).instMap.Perm ((calcWord (insts p), p) :: q.instMap) := by
    refine List.perm_middle.trans ?_
    rw [List.take_append_drop]
  have hmem : ∀ p', p' ∈ (q.insert place insts p).ptrs ↔ p' = p ∨ p' ∈ q.ptrs := by
    intro p'
    rw [ptrs, (hperm.map Prod.snd).mem_iff, List.map_cons, List.mem_cons]
    rfl
  refine ⟨fun e he => ?_, ?_, fun p' hp' => ?_, fun p1 h1 p2 h2 hid => ?_⟩
  · rcases List.mem_cons.1 (hperm.mem_iff.1 he) with rfl | he
    · rfl
    · exact hc.keys e he
  · rw [ptrs, (hperm.map Prod.snd).nodup_iff, List.map_cons, List.nodup_cons]
    exact ⟨fun hp => hnew p hp rfl, hc.nodup⟩
  · rcases (hmem p').1 hp' with rfl | hp'
    · exact hd
    · exact hc.ids p' hp'
  · rcases (hmem p1).1 h1 with rfl | h1'
    · rcases (hmem p2).1 h2 with rfl | h2'
      · rfl
      · exact absurd hid (hnew p2 h2')
    · rcases (hmem p2).1 h2 with rfl | h2'
      · exact absurd hid.symm (hnew p1 h1')
      · exact hc.ids_queue p1 h1' p2 h2' hid

theorem Content.remove (hc : q.Content insts d) (p : DPtr) : (q.remove p).Content insts d := by
  have hsub : (q.remove p).instMap.Sublist q.instMap := List.eraseP_sublist
  have hmem : ∀ p' ∈ (q.remove p).ptrs, p' ∈ q.ptrs := fun p' hp' => (hsub.map Prod.snd).subset hp'
  exact ⟨fun e he => hc.keys e (hsub.subset he), hc.nodup.sublist (hsub.map Prod.snd), fun p' hp' => hc.ids p' (hmem p' hp'),
    fun p1 h1 p2 h2 => hc.ids_queue p1 (hmem p1 h1) p2 (hmem p2 h2)⟩

/-- **Order checks.** A store returns the oldest of its victims exactly when it has one at most; loads are marked and
instructions removed as they should be. -/
theorem executing_law_iff (hc : q.Content insts d) :
    Law insts q d ↔ ((insts d).inst.isStore = true → ∀ p p', Victim insts q d p → Victim insts q d p' → p = p') := by
  obtain ⟨hfaulty, hmark⟩ := executing_eq q insts d
  have hyoung : (insts d).inst.isStore = true → IsYoungest insts (Victim insts q d) (q.executing insts d).1 := by
    intro hstore
    have hnone : IsYoungest insts (fun _ => False) none :=
      ⟨fun _ _ h => h, fun p hp => absurd hp.symm (Option.some_ne_none p)⟩
    have hloop := foldl_pick (calcWord (insts d)) d q.instMap hnone
    rw [hfaulty]
    simpa only [false_or, hc.victim_iff hstore] using hloop
  have hids : ∀ p p', Victim insts q d p → Victim insts q d p' → (insts p).ID = (insts p').ID → p = p' :=
    fun p p' hp hp' => hc.ids_queue p hp.1 p' hp'.1
  constructor
  · intro hlaw hstore
    exact ((hyoung hstore).isOldest_iff hids).1 (hlaw.store hstore)
  · intro hone
    refine ⟨fun hstore => ((hyoung hstore).isOldest_iff hids).2 (hone hstore), fun hload => ?_, ?_⟩
    · rw [hmark, Bool.or_eq_true, hc.source_iff hload]
    · exact eraseP_eq_filter hc.nodup d

/-- A store of a word, and two loads of it that have been executed before. -/
def sample : Insts := fun p =>
  if p = 0 then ⟨1, 0x10, 0x100, ⟨.iSALU_ST, 0, 0, 0, 0⟩, false, false, true⟩
  else if p = 1 then ⟨2, 0x14, 0x100, ⟨.iLALU_LD, 0, 0, 0, 0⟩, true, false, true⟩
  else ⟨p + 1, 0x18, 0x102, ⟨.iLALU_LD, 0, 0, 0, 0⟩, true, false, true⟩

/-- With the first load only, it is returned. -/
theorem executing_law_one : Law sample ⟨[(0x40, 0), (0x40, 1)], 0⟩ 0 := by
  refine (executing_law_iff ⟨by decide, by decide, by decide, by decide⟩).2 ?_
  rintro - p p' ⟨hp, -, hage, -⟩ ⟨hp', -, hage', -⟩
  have hptrs : ptrs ⟨[(0x40, 0), (0x40, 1)], 0⟩ = [0, 1] := rfl
  rw [hptrs, List.mem_cons, List.mem_singleton] at hp hp'
  rcases hp with rfl | rfl
  · exact absurd hage (Nat.lt_irrefl _)
  · rcases hp' with rfl | rfl
    · exact absurd hage' (Nat.lt_irrefl _)
    · rfl

/-- With both, the younger one is, and the older one keeps its stale data. -/
theorem executing_younger :
    (executing ⟨[(0x40, 0), (0x40, 1), (0x40, 2)], 0⟩ sample 0).1 = some 2 ∧
      ¬Law sample ⟨[(0x40, 0), (0x40, 1), (0x40, 2)], 0⟩ 0 := by
  have hresult : (executing ⟨[(0x40, 0), (0x40, 1), (0x40, 2)], 0⟩ sample 0).1 = some 2 := by decide
  refine ⟨hresult, fun hlaw => ?_⟩
  have hold := ((hlaw.store rfl).2 2 hresult).2 1 ⟨by decide, by decide, by decide, by decide, by decide, by decide⟩
  exact absurd hold (by decide)

end LSQFull

/-! ## `LSQVPC` -/

/-- The map is sorted by the words as numbers. -/
structure LSQVPC where
  instMap : Multimap ℕ DPtr
  LSQVPC_replays : ℕ

namespace LSQVPC

def tag (insts : Insts) (d : DPtr) : ℕ := (calcWord (insts d)).toNat

def insert (q : LSQVPC) (insts : Insts) (d : DPtr) : LSQVPC := { q with instMap := q.instMap.insert (tag insts d) d }

/-- What the loop of `replayCheck` asks of an entry. -/
def conflicts (insts : Insts) (d : DPtr) (e : ℕ × DPtr) : Bool :=
  decide ((insts e.2).ID < (insts d).ID ∧ (insts e.2).addr = (insts d).addr)

/-- Without a result when the loop dereferences the end of the map. -/
def replayCheck (q : LSQVPC) (insts : Insts) (d : DPtr) : Option (AddrType × LSQVPC) :=
  (Multimap.walk (tag insts d) (conflicts insts d) (q.instMap.find (tag insts d))).map fun replay =>
    if replay then (1, { q with LSQVPC_replays := q.LSQVPC_replays + if (insts d).statsFlag then 1 else 0 }) else (0, q)

/-- The entry that the loop stops at is erased. -/
def remove (q : LSQVPC) (insts : Insts) (d : DPtr) : Option LSQVPC :=
  (Multimap.walk (tag insts d) (fun e => e.2 == d) (q.instMap.find (tag insts d))).map fun found =>
    if found then { q with instMap := q.instMap.erase fun e => e.1 == tag insts d && e.2 == d } else q

/-- The instructions in the queue. -/
def ptrs (q : LSQVPC) : List DPtr := q.instMap.entries.map Prod.snd

/-- A queue and the instructions that are around. -/
structure State where
  insts : Insts
  queue : LSQVPC

/-- `setup` gives a `DInst` other contents: while it is in the queue it keeps its address, later it may be used again. -/
inductive Op
  | insert (d : DPtr)
  | remove (d : DPtr)
  | replayCheck (d : DPtr)
  | setup (d : DPtr) (c : MemInst)

def step (s : State) : Op → Option State
  | .insert d => some { s with queue := s.queue.insert s.insts d }
  | .remove d => (s.queue.remove s.insts d).map fun q => { s with queue := q }
  | .replayCheck d => (s.queue.replayCheck s.insts d).map fun r => { s with queue := r.2 }
  | .setup d c =>
    if d ∈ s.queue.ptrs ∧ c.addr ≠ (s.insts d).addr then none else some { s with insts := Function.update s.insts d c }

/-- The queue of the constructor. -/
def init (insts : Insts) : State := ⟨insts, ⟨.empty, 0⟩⟩

/-- An instruction of the queue that is older than `d` and has its address. -/
def Older (s : State) (d : DPtr) : Prop :=
  ∃ p ∈ s.queue.ptrs, (s.insts p).ID < (s.insts d).ID ∧ (s.insts p).addr = (s.insts d).addr

/-- The word of `d` is in the queue, and a greater one too: the loop over the word ends inside the map. -/
def Bounded (s : State) (d : DPtr) : Prop :=
  (∃ p ∈ s.queue.ptrs, tag s.insts p = tag s.insts d) ∧ ∃ p ∈ s.queue.ptrs, tag s.insts d < tag s.insts p

/-- **The law of `replayCheck`.** -/
def ReplayLaw (s : State) (d : DPtr) : Prop :=
  ∃ r, s.queue.replayCheck s.insts d = some r ∧ (r.1 ≠ 0 ↔ Older s d)

/-- **The law of `remove`.** -/
def RemoveLaw (s : State) (d : DPtr) : Prop :=
  ∃ q, s.queue.remove s.insts d = some q ∧ q.instMap.entries = s.queue.instMap.entries.erase (tag s.insts d, d)

/-- Entries are under their words. -/
def Keyed (s : State) : Prop := ∀ e ∈ s.queue.instMap.entries, e.1 = tag s.insts e.2

variable {s t : State} {d : DPtr} {insts : Insts} {ops : List Op} {op : Op}

/-! ### Runs -/

theorem remove_entries {q : LSQVPC} (h : s.queue.remove s.insts d = some q) :
    ∀ e ∈ q.instMap.entries, e ∈ s.queue.instMap.entries := by
  obtain ⟨found, -, rfl⟩ := Option.map_eq_some_iff.1 h
  intro e he
  cases found with
  | true => exact List.mem_of_mem_eraseP he
  | false => exact he

theorem replayCheck_instMap {r : AddrType × LSQVPC} (h : s.queue.replayCheck s.insts d = some r) :
    r.2.instMap = s.queue.instMap := by
  obtain ⟨replay, -, rfl⟩ := Option.map_eq_some_iff.1 h
  cases replay <;> rfl

theorem Keyed.of_step (hs : Keyed s) (h : step s op = some t) : Keyed t := by
  cases op with
  | insert d =>
    obtain rfl := Option.some.inj h
    intro e he
    rcases Multimap.mem_insert.1 he with rfl | he
    · rfl
    · exact hs e he
  | remove d =>
    obtain ⟨q, hq, rfl⟩ := Option.map_eq_some_iff.1 h
    exact fun e he => hs e (remove_entries hq e he)
  | replayCheck d =>
    obtain ⟨r, hr, rfl⟩ := Option.map_eq_some_iff.1 h
    intro e he
    exact hs e (replayCheck_instMap hr ▸ he)
  | setup d c =>
    rw [LSQVPC.step] at h
    split at h
    · exact absurd h (Option.some_ne_none t).symm
    · rename_i hkeep
      obtain rfl := Option.some.inj h
      intro e he
      rw [hs e he, tag, tag]
      by_cases hd : e.2 = d
      · -- an instruction of the queue keeps its address
        have haddr : c.addr = (s.insts d).addr :=
          not_not.1 fun hne => hkeep ⟨hd ▸ List.mem_map_of_mem he, hne⟩
        simp only [hd, Function.update_self, calcWord, haddr]
      · simp only [Function.update_of_ne hd]

theorem Keyed.of_run (h : run step (init insts) ops = some t) : Keyed t :=
  run_inv (fun _ _ _ hstep hs => hs.of_step hstep) h fun _ he => absurd he List.not_mem_nil

/-! ### Lookups -/

theorem Keyed.exists_key (hs : Keyed s) (P : ℕ → Prop) :
    (∃ e ∈ s.queue.instMap.entries, P e.1) ↔ ∃ p ∈ s.queue.ptrs, P (tag s.insts p) := by
  simp only [ptrs, List.mem_map, exists_exists_and_eq_and]
  exact exists_congr fun e => and_congr_right fun he => by rw [hs e he]

/-- **A loop over the word of `d`** that does not find anything. -/
theorem Keyed.walk_false_iff (hs : Keyed s) (d : DPtr) (p : ℕ × DPtr → Bool) :
    Multimap.walk (tag s.insts d) p (s.queue.instMap.find (tag s.insts d)) = some false ↔
      (¬∃ e ∈ s.queue.instMap.entries, e.1 = tag s.insts d ∧ p e = true) ∧ Bounded s d := by
  rw [Multimap.walk_false_iff, hs.exists_key (· = tag s.insts d), hs.exists_key (tag s.insts d < ·)]
  rfl

theorem Keyed.conflicts_iff (hs : Keyed s) (d : DPtr) :
    (∃ e ∈ s.queue.instMap.entries, e.1 = tag s.insts d ∧ conflicts s.insts d e = true) ↔ Older s d := by
  constructor
  · rintro ⟨e, he, -, hc⟩
    exact ⟨e.2, List.mem_map_of_mem he, of_decide_eq_true hc⟩
  · rintro ⟨p, hp, hid, haddr⟩
    obtain ⟨e, he, rfl⟩ := List.mem_map.1 hp
    refine ⟨e, he, ?_, decide_eq_true ⟨hid, haddr⟩⟩
    rw [hs e he, tag, tag, calcWord, calcWord, haddr]

theorem Keyed.found_iff (hs : Keyed s) (d : DPtr) :
    (∃ e ∈ s.queue.instMap.entries, e.1 = tag s.insts d ∧ (e.2 == d) = true) ↔ d ∈ s.queue.ptrs := by
  constructor
  · rintro ⟨e, he, -, hd⟩
    exact beq_iff_eq.1 hd ▸ List.mem_map_of_mem he
  · intro hd
    obtain ⟨e, he, rfl⟩ := List.mem_map.1 hd
    exact ⟨e, he, hs e he, beq_self_eq_true e.2⟩

/-- **`replayCheck`** has its law exactly when there is something to find, or something behind it. -/
theorem replayLaw_iff (hs : Keyed s) (d : DPtr) : ReplayLaw s d ↔ Older s d ∨ Bounded s d := by
  have htrue := (Multimap.walk_true_iff (m := s.queue.instMap)).trans (hs.conflicts_iff d)
  have hfalse := (hs.walk_false_iff d (conflicts s.insts d)).trans (and_congr_left' (not_congr (hs.conflicts_iff d)))
  unfold ReplayLaw replayCheck
  constructor
  · rintro ⟨r, hr, -⟩
    obtain ⟨replay, hwalk, -⟩ := Option.map_eq_some_iff.1 hr
    cases replay with
    | true => exact .inl (htrue.1 hwalk)
    | false => exact .inr (hfalse.1 hwalk).2
  · intro h
    by_cases hold : Older s d
    · rw [htrue.2 hold]
      exact ⟨_, rfl, iff_of_true (by simp) hold⟩
    · rw [hfalse.2 ⟨hold, h.resolve_left hold⟩]
      exact ⟨_, rfl, iff_of_false (not_not.2 rfl) hold⟩

/-- **`remove`** likewise. -/
theorem removeLaw_iff (hs : Keyed s) (d : DPtr) : RemoveLaw s d ↔ d ∈ s.queue.ptrs ∨ Bounded s d := by
  have htrue := (Multimap.walk_true_iff (m := s.queue.instMap)).trans (hs.found_iff d)
  have hfalse := (hs.walk_false_iff d fun e => e.2 == d).trans (and_congr_left' (not_congr (hs.found_iff d)))
  unfold RemoveLaw remove
  constructor
  · rintro ⟨q, hq, -⟩
    obtain ⟨found, hwalk, -⟩ := Option.map_eq_some_iff.1 hq
    cases found with
    | true => exact .inl (htrue.1 hwalk)
    | false => exact .inr (hfalse.1 hwalk).2
  · intro h
    by_cases hd : d ∈ s.queue.ptrs
    · rw [htrue.2 hd]
      exact ⟨_, rfl, (List.erase_eq_eraseP' (tag s.insts d, d) s.queue.instMap.entries).symm⟩
    · rw [hfalse.2 ⟨hd, h.resolve_left hd⟩]
      refine ⟨_, rfl, (List.erase_of_not_mem fun he => hd ?_).symm⟩
      exact List.mem_map_of_mem (f := Prod.snd) he

/-- **Lookups in the map**: in every queue that insertions and removals lead to, and for every instruction. -/
theorem lookups_iff (h : run step (init insts) ops = some s) (d : DPtr) :
    (ReplayLaw s d ↔ Older s d ∨ Bounded s d) ∧ (RemoveLaw s d ↔ d ∈ s.queue.ptrs ∨ Bounded s d) :=
  ⟨replayLaw_iff (Keyed.of_run h) d, removeLaw_iff (Keyed.of_run h) d⟩

/-- Four instructions: two of a word, and two of a greater one. -/
def sample : Insts := fun p =>
  if p < 2 then ⟨p, 0x10, 0x100, ⟨.iSALU_ST, 0, 0, 0, 0⟩, true, false, true⟩
  else ⟨p, 0x14, 0x200, ⟨.iSALU_ST, 0, 0, 0, 0⟩, true, false, true⟩

/-- A store of a word and one of a greater word: lookups of the first word end between them. -/
theorem lookups_two : ∃ s, run step (init sample) [.insert 0, .insert 2] = some s ∧ ReplayLaw s 1 ∧ RemoveLaw s 1 := by
  have hbound : Bounded ⟨sample, ⟨(Multimap.empty.insert (tag sample 0) 0).insert (tag sample 2) 2, 0⟩⟩ 1 :=
    ⟨⟨0, by decide, rfl⟩, 2, by decide, by decide⟩
  have hrun : run step (init sample) [.insert 0, .insert 2] =
      some ⟨sample, ⟨(Multimap.empty.insert (tag sample 0) 0).insert (tag sample 2) 2, 0⟩⟩ := rfl
  have hlaw := lookups_iff hrun 1
  exact ⟨_, hrun, hlaw.1.2 (.inr hbound), hlaw.2.2 (.inr hbound)⟩

/-- With one store in the queue, lookups of its word pass it, and lookups of another word begin at the end of the map. -/
theorem lookups_end : ∃ s, run step (init sample) [.insert 0] = some s ∧
    s.queue.replayCheck s.insts 1 = some (1, ⟨s.queue.instMap, 1⟩) ∧ s.queue.replayCheck s.insts 2 = none ∧
      s.queue.replayCheck s.insts 0 = none ∧ s.queue.remove s.insts 1 = none ∧ ¬ReplayLaw s 0 ∧ ¬RemoveLaw s 1 := by
  refine ⟨_, rfl, rfl, rfl, rfl, rfl, ?_, ?_⟩
  · rintro ⟨r, hr, -⟩
    exact absurd hr (Option.some_ne_none r).symm
  · rintro ⟨q, hq, -⟩
    exact absurd hq (Option.some_ne_none q).symm

end LSQVPC

end Esesc.Core
