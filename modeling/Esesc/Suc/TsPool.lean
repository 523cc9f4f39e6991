import Esesc.Lib.Linked
import Esesc.Lib.Machine
import Mathlib.Algebra.BigOperators.Group.Finset.Basic
import Mathlib.Algebra.Order.BigOperators.Group.Finset
import Mathlib.Data.List.Count
import Mathlib.Tactic.Common

/-!
# The lock-free pool (`misc/libsuc/pool.h`)

`tspool` links its free objects from `first` on. Threads take them off and put them back with a compare-and-swap of
`first`, and one load, store or swap is one step here. Objects are numbered in the order in which they were made.

* `Counted`: every object is free, in use or in the hands of one thread, once.
* `safe_iff_steady`: when no object is handed out twice, none is lost and no null head is followed.
* `run_safe_alone`: a pool of one thread.
* `not_safe`, `not_safe_head`: a node that leaves and returns between two steps, and an `out` before `reproduce`.
-/

namespace Esesc.Suc

open Esesc.Lib

/-! ## Threads -/

/-- Where an `insert` goes on: it was called by `in` (`put`), or by `reproduce` in an `out` that returns `h`. -/
inductive Caller
  | put
  | reproduce (h left : ℕ)
  deriving DecidableEq

/-- The next access of a thread, with its variables. -/
inductive PC
  | idle
  | insertFirst (h : ℕ) (k : Caller)
  | insertNext (h : ℕ) (cFirst : Option ℕ) (k : Caller)
  | insertSwap (h : ℕ) (cFirst : Option ℕ) (k : Caller)
  | outFirst
  | outNext (cFirst : Option ℕ)
  | outSwap (cFirst : ℕ) (next : Option ℕ)
  | outCheck (h : ℕ)
  | reproduce (h left : ℕ)
  deriving DecidableEq

/-- The objects that the code of the pool has in its hands. -/
def Caller.held : Caller → List ℕ
  | .put => []
  | .reproduce h _ => [h]

def PC.held : PC → List ℕ
  | .idle | .outFirst | .outNext _ | .outSwap _ _ => []
  | .insertFirst h k | .insertNext h _ k | .insertSwap h _ k => h :: k.held
  | .outCheck h | .reproduce h _ => [h]

def Caller.resume : Caller → PC
  | .put => .idle
  | .reproduce h left => .reproduce h left

theorem Caller.held_resume (k : Caller) : k.resume.held = k.held := by
  cases k <;> rfl

/-- The memory, the threads, and which of them took the objects that are in use. -/
structure TsPool (T : Type*) where
  first : Option ℕ
  holderNext : ℕ → Option ℕ
  made : ℕ
  pc : T → PC
  owned : List (T × ℕ)

namespace TsPool

inductive Action (T : Type*)
  | put (t owner : T) (h : ℕ)
  | out (t : T)
  | move (t : T)
  deriving DecidableEq

variable {T : Type*}

section Moves

variable [DecidableEq T]

/-- The thread goes on at `p`. -/
def go (s : TsPool T) (t : T) (p : PC) : TsPool T := { s with pc := Function.update s.pc t p }

theorem go_pc_self (s : TsPool T) (t : T) (p : PC) : (s.go t p).pc t = p := Function.update_self ..

theorem go_pc_of_ne (s : TsPool T) (p : PC) {t u : T} (hu : u ≠ t) : (s.go t p).pc u = s.pc u :=
  Function.update_of_ne hu ..

/-- One access. `out` reads `holderNext` before it swaps, and looks whether the list is empty after that. -/
def move (Size : ℕ) (s : TsPool T) (t : T) : Option (TsPool T) :=
  match s.pc t with
  | .idle => none
  | .insertFirst h k => some (s.go t (.insertNext h s.first k))
  | .insertNext h c k => some ({ s with holderNext := Function.update s.holderNext h c }.go t (.insertSwap h c k))
  | .insertSwap h c k =>
    if s.first = c then some ({ s with first := some h }.go t k.resume) else some (s.go t (.insertFirst h k))
  | .outFirst => some (s.go t (.outNext s.first))
  | .outNext none => none
  | .outNext (some c) => some (s.go t (.outSwap c (s.holderNext c)))
  | .outSwap c n =>
    if s.first = some c then some ({ s with first := n }.go t (.outCheck c)) else some (s.go t .outFirst)
  | .outCheck h => some (s.go t (.reproduce h (if s.first = none then Size else 0)))
  | .reproduce h 0 => some ({ s with owned := (t, h) :: s.owned }.go t .idle)
  | .reproduce h (left + 1) => some ({ s with made := s.made + 1 }.go t (.insertFirst s.made (.reproduce h left)))

/-- A thread calls `in`, with an object in use, or `out`, or goes on with its call. -/
def step (Size : ℕ) (s : TsPool T) : Action T → Option (TsPool T)
  | .put t owner h =>
    if s.pc t = .idle ∧ (owner, h) ∈ s.owned then
      some ({ s with owned := s.owned.erase (owner, h) }.go t (.insertFirst h .put))
    else none
  | .out t => if s.pc t = .idle then some (s.go t .outFirst) else none
  | .move t => s.move Size t

end Moves

/-- An object that the constructor makes and inserts. -/
def make (s : TsPool T) : TsPool T :=
  { s with first := some s.made, holderNext := Function.update s.holderNext s.made s.first, made := s.made + 1 }

/-- The constructor, before any other thread knows of the pool. -/
def new (T : Type*) (Size : ℕ) : TsPool T := make^[Size] ⟨none, fun _ => none, 0, fun _ => .idle, []⟩

/-- An object that nobody uses and no thread is about to return or to insert. -/
def Free (s : TsPool T) (x : ℕ) : Prop := x < s.made ∧ x ∉ s.owned.map Prod.snd ∧ ∀ t, x ∉ (s.pc t).held

/-- **The pool is safe.** No object is in use twice, the list has the free objects and no other ones, and no thread is
about to follow a null head. -/
structure Safe (s : TsPool T) : Prop where
  owned : (s.owned.map Prod.snd).Nodup
  list : ∃ l, Linked s.holderNext s.first l ∧ l.Nodup ∧ ∀ x, x ∈ l ↔ s.Free x
  head : ∀ t, s.pc t ≠ .outNext none

/-- A load finds a head, and a swap that takes the head off finds it linked as it was when `holderNext` was read. -/
def SteadyAt (s : TsPool T) : PC → Prop
  | .outFirst => s.first ≠ none
  | .outSwap c n => s.first = some c → n = s.holderNext c
  | _ => True

def Steady (s : TsPool T) : Action T → Prop
  | .move t => s.SteadyAt (s.pc t)
  | _ => True

instance SteadyAt.decidable (s : TsPool T) : ∀ p, Decidable (s.SteadyAt p)
  | .outFirst => inferInstanceAs (Decidable (s.first ≠ none))
  | .outSwap c n => inferInstanceAs (Decidable (s.first = some c → n = s.holderNext c))
  | .idle | .insertFirst .. | .insertNext .. | .insertSwap .. => .isTrue trivial
  | .outNext _ | .outCheck _ | .reproduce .. => .isTrue trivial

instance Steady.decidable (s : TsPool T) : ∀ a, Decidable (s.Steady a)
  | .put .. | .out _ => .isTrue trivial
  | .move t => SteadyAt.decidable s (s.pc t)

/-- The node that a swap takes off is not free any more. -/
theorem free_outSwap [DecidableEq T] {s : TsPool T} {t : T} {c : ℕ} {n : Option ℕ} (ht : s.pc t = .outSwap c n)
    (x : ℕ) : ({ s with first := n }.go t (.outCheck c)).Free x ↔ s.Free x ∧ x ≠ c := by
  constructor
  · rintro ⟨hmade, howned, hhands⟩
    refine ⟨⟨hmade, howned, fun u => ?_⟩, fun hx => ?_⟩
    · rcases eq_or_ne u t with rfl | hu
      · rw [ht]
        exact List.not_mem_nil
      · have hx := hhands u
        rwa [go_pc_of_ne _ _ hu] at hx
    · have hc := hhands t
      rw [go_pc_self] at hc
      exact hc (List.mem_singleton.2 hx)
  · rintro ⟨⟨hmade, howned, hhands⟩, hne⟩
    refine ⟨hmade, howned, fun u hx => ?_⟩
    rcases eq_or_ne u t with rfl | hu
    · rw [go_pc_self] at hx
      exact hne (List.mem_singleton.1 hx)
    · rw [go_pc_of_ne _ _ hu] at hx
      exact hhands u hx

/-! ## Counting the objects -/

section Counting

variable [Fintype T] {Size : ℕ} {s s' : TsPool T} {l l' : List ℕ} {t : T} {p : PC} {x : ℕ}

/-- How many times the threads have an object in their hands. -/
def hands (pc : T → PC) (x : ℕ) : ℕ := ∑ t, (pc t).held.count x

theorem count_held_le (pc : T → PC) (t : T) (x : ℕ) : (pc t).held.count x ≤ hands pc x :=
  Finset.single_le_sum (fun u _ => Nat.zero_le ((pc u).held.count x)) (Finset.mem_univ t)

theorem hands_eq_zero_iff {pc : T → PC} : hands pc x = 0 ↔ ∀ t, x ∉ (pc t).held := by
  rw [hands, Finset.sum_eq_zero_iff]
  exact ⟨fun h t => List.count_eq_zero.1 (h t (Finset.mem_univ t)), fun h t _ => List.count_eq_zero.2 (h t)⟩

/-- **Every object that was made is in one place**, once, and a swap that puts one back has written its `holderNext`. -/
structure Counted (s : TsPool T) (l : List ℕ) : Prop where
  linked : Linked s.holderNext s.first l
  once : ∀ x, l.count x + (s.owned.map Prod.snd).count x + hands s.pc x = if x < s.made then 1 else 0
  head : ∀ t, s.pc t ≠ .outNext none
  swap : ∀ t h c k, s.pc t = .insertSwap h c k → s.holderNext h = c

theorem Counted.le_one (hs : Counted s l) (x : ℕ) :
    l.count x + (s.owned.map Prod.snd).count x + hands s.pc x ≤ 1 := by
  rw [hs.once x]
  split <;> omega

theorem Counted.mem_iff (hs : Counted s l) (x : ℕ) : x ∈ l ↔ s.Free x := by
  have honce := hs.once x
  rw [Free, ← List.count_eq_zero, ← hands_eq_zero_iff, ← List.count_pos_iff]
  split at honce <;> omega

theorem Counted.nodup (hs : Counted s l) : l.Nodup :=
  List.nodup_iff_count_le_one.2 fun x => by
    have := hs.le_one x
    omega

theorem Counted.safe (hs : Counted s l) : Safe s where
  owned := List.nodup_iff_count_le_one.2 fun x => by
    have := hs.le_one x
    omega
  list := ⟨l, hs.linked, hs.nodup, hs.mem_iff⟩
  head := hs.head

variable [DecidableEq T]

theorem hands_update (pc : T → PC) (t : T) (p : PC) (x : ℕ) :
    hands (Function.update pc t p) x + (pc t).held.count x = hands pc x + p.held.count x := by
  have hrest : ∑ u ∈ Finset.univ.erase t, (Function.update pc t p u).held.count x =
      ∑ u ∈ Finset.univ.erase t, (pc u).held.count x := by
    refine Finset.sum_congr rfl fun u hu => ?_
    rw [Function.update_of_ne (Finset.ne_of_mem_erase hu)]
  have hnew := Finset.add_sum_erase Finset.univ (fun u => (Function.update pc t p u).held.count x) (Finset.mem_univ t)
  have hold := Finset.add_sum_erase Finset.univ (fun u => (pc u).held.count x) (Finset.mem_univ t)
  simp only [Function.update_self] at hnew
  unfold hands
  omega

/-- What is in the hands of a thread is not in the list, and in the hands of no other one. -/
theorem Counted.held (hs : Counted s l) (hx : x ∈ (s.pc t).held) : x ∉ l ∧ ∀ u ≠ t, x ∉ (s.pc u).held := by
  have hle := hs.le_one x
  have hpos := List.count_pos_iff.2 hx
  have hhands := count_held_le s.pc t x
  refine ⟨fun hl => ?_, fun u hu hxu => ?_⟩
  · have := List.count_pos_iff.2 hl
    omega
  · -- without `t`, the object would still be in the hands of `u`
    have hupdate := hands_update s.pc t .idle x
    have hle' := count_held_le (Function.update s.pc t .idle) u x
    rw [Function.update_of_ne hu] at hle'
    have := List.count_pos_iff.2 hxu
    have hidle : PC.idle.held.count x = 0 := rfl
    omega

/-- **One access.** The objects stay counted if those of the thread, the list and the users do. -/
theorem Counted.change (hs : Counted s l) (hpc : s'.pc = Function.update s.pc t p)
    (hlinked : Linked s'.holderNext s'.first l')
    (honce : ∀ x, l'.count x + (s'.owned.map Prod.snd).count x + p.held.count x + (if x < s.made then 1 else 0) =
      l.count x + (s.owned.map Prod.snd).count x + (s.pc t).held.count x + if x < s'.made then 1 else 0)
    (hhead : p ≠ .outNext none) (hswap : ∀ h c k, p = .insertSwap h c k → s'.holderNext h = c)
    (hkeep : ∀ u ≠ t, ∀ h ∈ (s.pc u).held, s'.holderNext h = s.holderNext h) : Counted s' l' := by
  refine ⟨hlinked, fun x => ?_, fun u => ?_, fun u h c k hu => ?_⟩
  · have hx := hs.once x
    have hx' := honce x
    have hupdate := hands_update s.pc t p x
    rw [hpc]
    omega
  · rw [hpc]
    rcases eq_or_ne u t with rfl | hut
    · rwa [Function.update_self]
    · rw [Function.update_of_ne hut]
      exact hs.head u
  · rw [hpc] at hu
    rcases eq_or_ne u t with rfl | hut
    · rw [Function.update_self] at hu
      exact hswap h c k hu
    · rw [Function.update_of_ne hut] at hu
      rw [hkeep u hut h (by rw [hu]; exact List.mem_cons_self)]
      exact hs.swap u h c k hu

/-- An access that only the thread notices. -/
theorem Counted.go (hs : Counted s l) (hheld : p.held = (s.pc t).held) (hhead : p ≠ .outNext none)
    (hswap : ∀ h c k, p = .insertSwap h c k → s.holderNext h = c) : Counted (s.go t p) l :=
  hs.change rfl hs.linked (fun x => by rw [hheld]; rfl) hhead hswap fun _ _ _ _ => rfl

end Counting

/-! ## Steps -/

section Steps

variable [Fintype T] {Size : ℕ} {s s' : TsPool T} {l : List ℕ} {a : Action T} {t u : T} {h x : ℕ}

theorem count_cons (h x : ℕ) (l : List ℕ) : (h :: l).count x = (if h = x then 1 else 0) + l.count x := by
  rw [List.count_cons, Nat.add_comm]
  simp only [beq_iff_eq]

/-- **A new object.** -/
theorem counted_make (hs : Counted s l) : Counted s.make (s.made :: l) := by
  have hnew := hs.once s.made
  rw [if_neg (lt_irrefl _)] at hnew
  refine ⟨⟨rfl, ?_⟩, fun x => ?_, hs.head, fun t h c k ht => ?_⟩
  · show Linked (Function.update s.holderNext s.made s.first) (Function.update s.holderNext s.made s.first s.made) l
    rw [Function.update_self]
    refine hs.linked.congr fun x hx => Function.update_of_ne ?_ ..
    -- an object that is not made yet is in no place
    rintro rfl
    have := List.count_pos_iff.2 hx
    omega
  · have hx := hs.once x
    show (s.made :: l).count x + (s.owned.map Prod.snd).count x + hands s.pc x = if x < s.made + 1 then 1 else 0
    rw [count_cons]
    split_ifs at hx ⊢ <;> omega
  · show Function.update s.holderNext s.made s.first h = c
    rw [Function.update_of_ne ?_]
    · exact hs.swap t h c k ht
    · rintro rfl
      have hmem : s.made ∈ (s.pc t).held := by
        rw [show s.pc t = _ from ht]
        exact List.mem_cons_self
      have := List.count_pos_iff.2 hmem
      have := count_held_le s.pc t s.made
      omega

theorem counted_new (T : Type*) [Fintype T] (Size : ℕ) : ∃ l, Counted (new T Size) l := by
  induction Size with
  | zero =>
    refine ⟨[], rfl, fun x => ?_, fun _ => nofun, fun _ _ _ _ => nofun⟩
    exact (Nat.zero_add _).trans (hands_eq_zero_iff.2 fun _ => List.not_mem_nil)
  | succ n ih =>
    obtain ⟨l, hl⟩ := ih
    rw [new, Function.iterate_succ_apply']
    exact ⟨_, counted_make hl⟩

variable [DecidableEq T]

/-- An object that is used goes into the hands of the thread that returns it. -/
theorem counted_put (hs : Counted s l) (ht : s.pc t = .idle) (howned : (u, h) ∈ s.owned) :
    Counted ({ s with owned := s.owned.erase (u, h) }.go t (.insertFirst h .put)) l := by
  refine hs.change rfl hs.linked (fun x => ?_) nofun nofun fun _ _ _ _ => rfl
  have hperm : (s.owned.map Prod.snd).count x = (h :: (s.owned.erase (u, h)).map Prod.snd).count x :=
    ((List.perm_cons_erase howned).map Prod.snd).count_eq x
  rw [count_cons] at hperm
  show l.count x + ((s.owned.erase (u, h)).map Prod.snd).count x + [h].count x + (if x < s.made then 1 else 0) =
    l.count x + (s.owned.map Prod.snd).count x + (s.pc t).held.count x + if x < s.made then 1 else 0
  rw [ht, hperm, count_cons]
  show _ + (_ + 0) + _ = _ + _ + 0 + _
  omega

/-- The store of an `insert`. -/
theorem counted_insertNext {c : Option ℕ} {k : Caller} (hs : Counted s l) (ht : s.pc t = .insertNext h c k) :
    Counted ({ s with holderNext := Function.update s.holderNext h c }.go t (.insertSwap h c k)) l := by
  have hmem : h ∈ (s.pc t).held := by
    rw [ht]
    exact List.mem_cons_self
  obtain ⟨hlist, hothers⟩ := hs.held hmem
  refine hs.change rfl (hs.linked.congr fun x hx => ?_) (fun x => by rw [ht]; rfl) nofun ?_ ?_
  · exact Function.update_of_ne (ne_of_mem_of_not_mem hx hlist) ..
  · intro h' c' k' hp
    cases hp
    exact Function.update_self ..
  · intro u hu x hx
    exact Function.update_of_ne (ne_of_mem_of_not_mem hx (hothers u hu)) ..

/-- The swap of an `insert`. -/
theorem counted_insertSwap {c : Option ℕ} {k : Caller} (hs : Counted s l) (ht : s.pc t = .insertSwap h c k)
    (hfirst : s.first = c) : Counted ({ s with first := some h }.go t k.resume) (h :: l) := by
  have hnext := hs.swap t h c k ht
  refine hs.change rfl ⟨rfl, ?_⟩ (fun x => ?_) ?_ ?_ fun _ _ _ _ => rfl
  · show Linked s.holderNext (s.holderNext h) l
    rw [hnext, ← hfirst]
    exact hs.linked
  · show (h :: l).count x + (s.owned.map Prod.snd).count x + k.resume.held.count x + (if x < s.made then 1 else 0) =
      l.count x + (s.owned.map Prod.snd).count x + (s.pc t).held.count x + if x < s.made then 1 else 0
    have hheld : (s.pc t).held = h :: k.held := by rw [ht]; rfl
    rw [hheld, Caller.held_resume, count_cons, count_cons]
    omega
  · cases k <;> nofun
  · cases k <;> nofun

/-- The swap of an `out` that finds its node linked as it was. -/
theorem counted_outSwap {c : ℕ} (hs : Counted s l) (ht : s.pc t = .outSwap c (s.holderNext c))
    (hfirst : s.first = some c) :
    ∃ l', Counted ({ s with first := s.holderNext c }.go t (.outCheck c)) l' := by
  cases l with
  | nil => cases hfirst.symm.trans hs.linked
  | cons d l =>
    obtain rfl := Option.some.inj (hfirst.symm.trans hs.linked.1)
    refine ⟨l, hs.change rfl hs.linked.2 (fun x => ?_) nofun nofun fun _ _ _ _ => rfl⟩
    show l.count x + (s.owned.map Prod.snd).count x + [c].count x + (if x < s.made then 1 else 0) =
      (c :: l).count x + (s.owned.map Prod.snd).count x + (s.pc t).held.count x + if x < s.made then 1 else 0
    have hheld : (s.pc t).held = [] := by rw [ht]; rfl
    rw [hheld, count_cons, count_cons, List.count_nil]
    omega

/-- An `out` returns. -/
theorem counted_return (hs : Counted s l) (ht : s.pc t = .reproduce h 0) :
    Counted ({ s with owned := (t, h) :: s.owned }.go t .idle) l := by
  refine hs.change rfl hs.linked (fun x => ?_) nofun nofun fun _ _ _ _ => rfl
  show l.count x + (h :: s.owned.map Prod.snd).count x + 0 + (if x < s.made then 1 else 0) =
    l.count x + (s.owned.map Prod.snd).count x + (s.pc t).held.count x + if x < s.made then 1 else 0
  have hheld : (s.pc t).held = [h] := by rw [ht]; rfl
  rw [hheld, count_cons, count_cons, List.count_nil]
  omega

/-- An `out` makes an object. -/
theorem counted_reproduce {left : ℕ} (hs : Counted s l) (ht : s.pc t = .reproduce h (left + 1)) :
    Counted ({ s with made := s.made + 1 }.go t (.insertFirst s.made (.reproduce h left))) l := by
  refine hs.change rfl hs.linked (fun x => ?_) nofun nofun fun _ _ _ _ => rfl
  show l.count x + (s.owned.map Prod.snd).count x + [s.made, h].count x + (if x < s.made then 1 else 0) =
    l.count x + (s.owned.map Prod.snd).count x + (s.pc t).held.count x + if x < s.made + 1 then 1 else 0
  have hheld : (s.pc t).held = [h] := by rw [ht]; rfl
  rw [hheld, count_cons]
  split_ifs <;> omega

/-- **Every access** of a steady run keeps the objects counted. -/
theorem counted_move (hs : Counted s l) (hsteady : Steady s (.move t)) (hmove : s.move Size t = some s') :
    ∃ l', Counted s' l' := by
  cases hpc : s.pc t with
  | idle =>
    simp only [move, hpc] at hmove
    cases hmove
  | insertFirst | outCheck =>
    simp only [move, hpc, Option.some.injEq] at hmove
    subst hmove
    exact ⟨l, hs.go (by rw [hpc]; rfl) nofun nofun⟩
  | insertNext h c k =>
    simp only [move, hpc, Option.some.injEq] at hmove
    subst hmove
    exact ⟨l, counted_insertNext hs hpc⟩
  | insertSwap h c k =>
    simp only [move, hpc] at hmove
    split at hmove
    · rename_i hfirst
      obtain rfl := Option.some.inj hmove
      exact ⟨_, counted_insertSwap hs hpc hfirst⟩
    · -- another thread came first, and the loop starts again
      obtain rfl := Option.some.inj hmove
      exact ⟨l, hs.go (by rw [hpc]; rfl) nofun nofun⟩
  | outFirst =>
    simp only [move, hpc, Option.some.injEq] at hmove
    simp only [Steady, hpc, SteadyAt] at hsteady
    subst hmove
    refine ⟨l, hs.go (by rw [hpc]; rfl) (fun hnone => ?_) nofun⟩
    exact hsteady (PC.outNext.inj hnone)
  | outNext c =>
    cases c with
    | none =>
      simp only [move, hpc] at hmove
      cases hmove
    | some c =>
      simp only [move, hpc, Option.some.injEq] at hmove
      subst hmove
      exact ⟨l, hs.go (by rw [hpc]; rfl) nofun nofun⟩
  | outSwap c n =>
    simp only [move, hpc] at hmove
    simp only [Steady, hpc, SteadyAt] at hsteady
    split at hmove
    · rename_i hfirst
      obtain rfl := Option.some.inj hmove
      -- what the thread read of the node is what the list goes on with
      obtain rfl := hsteady hfirst
      exact counted_outSwap hs hpc hfirst
    · obtain rfl := Option.some.inj hmove
      exact ⟨l, hs.go (by rw [hpc]; rfl) nofun nofun⟩
  | reproduce h left =>
    cases left with
    | zero =>
      simp only [move, hpc, Option.some.injEq] at hmove
      subst hmove
      exact ⟨l, counted_return hs hpc⟩
    | succ left =>
      simp only [move, hpc, Option.some.injEq] at hmove
      subst hmove
      exact ⟨l, counted_reproduce hs hpc⟩

theorem counted_step (hs : Counted s l) (hsteady : Steady s a) (hstep : step Size s a = some s') :
    ∃ l', Counted s' l' := by
  cases a with
  | put t u h =>
    rw [step, Option.ite_none_right_eq_some] at hstep
    obtain ⟨⟨ht, howned⟩, hstep⟩ := hstep
    obtain rfl := Option.some.inj hstep
    exact ⟨l, counted_put hs ht howned⟩
  | out t =>
    rw [step, Option.ite_none_right_eq_some] at hstep
    obtain ⟨ht, hstep⟩ := hstep
    obtain rfl := Option.some.inj hstep
    exact ⟨l, hs.go (by rw [ht]; rfl) nofun nofun⟩
  | move t => exact counted_move hs hsteady hstep

/-- **A step that is not steady** is one after which the pool is not safe. -/
theorem not_safe_of_step (hs : Counted s l) (hsteady : ¬Steady s a) (hstep : step Size s a = some s') : ¬s'.Safe := by
  intro hsafe
  cases a with
  | put t u h => exact hsteady trivial
  | out t => exact hsteady trivial
  | move t =>
    cases hpc : s.pc t with
    | outFirst =>
      simp only [Steady, hpc, SteadyAt, ne_eq, not_not] at hsteady
      simp only [step, move, hpc, Option.some.injEq] at hstep
      subst hstep
      refine hsafe.head t ?_
      rw [hsteady]
      exact go_pc_self ..
    | outSwap c n =>
      simp only [Steady, hpc, SteadyAt, Classical.not_imp] at hsteady
      obtain ⟨hfirst, hne⟩ := hsteady
      simp only [step, move, hpc, if_pos hfirst, Option.some.injEq] at hstep
      subst hstep
      -- the new list has the nodes of the old one but the first, so it starts where that one went on
      obtain ⟨l', hlinked, -, hmem⟩ := hsafe.list
      cases l with
      | nil => cases hfirst.symm.trans hs.linked
      | cons d l =>
        obtain rfl := Option.some.inj (hfirst.symm.trans hs.linked.1)
        obtain ⟨hcl, hnodup⟩ := List.nodup_cons.1 hs.nodup
        refine hne (Linked.head_eq hs.linked.2 hlinked hnodup fun x => ?_)
        rw [hmem x, free_outSwap hpc x, ← hs.mem_iff x, List.mem_cons]
        constructor
        · rintro ⟨hx | hx, hxc⟩
          · exact absurd hx hxc
          · exact hx
        · intro hx
          exact ⟨Or.inr hx, ne_of_mem_of_not_mem hx hcl⟩
    | idle | insertFirst | insertNext | insertSwap | outNext | outCheck | reproduce =>
      refine hsteady ?_
      simp only [Steady, hpc, SteadyAt]

theorem run_safe {as : List (Action T)} (hrun : run (step Size) (new T Size) as = some s)
    (hsteady : Along (step Size) Steady (new T Size) as) : s.Safe := by
  have hinv : ∃ l, Counted s l :=
    run_inv_along (I := fun s => ∃ l, Counted s l)
      (fun _ _ _ hstep hsteady ⟨_, hs⟩ => counted_step hs hsteady hstep) hrun hsteady (counted_new T Size)
  exact hinv.elim fun _ hs => hs.safe

/-- **A pool is safe** all along a run exactly when the run is steady. -/
theorem safe_iff_steady {as : List (Action T)} (hrun : run (step Size) (new T Size) as = some s) :
    (∀ bs t, bs <+: as → run (step Size) (new T Size) bs = some t → t.Safe) ↔
      Along (step Size) Steady (new T Size) as :=
  forall_prefix_iff_along (D := fun _ _ => True) (I := fun s => ∃ l, Counted s l) (fun _ ⟨_, hs⟩ => hs.safe)
    (fun _ _ _ hstep _ hsteady ⟨_, hs⟩ => counted_step hs hsteady hstep)
    (fun _ _ _ hstep _ hsteady ⟨_, hs⟩ => not_safe_of_step hs hsteady hstep) hrun
    (Along.of_forall (fun _ _ => trivial) _ _) (counted_new T Size)

end Steps

/-! ## One thread -/

section Alone

variable {Size : ℕ} {s s' : TsPool T} {a : Action T}

/-- What a thread knows when nobody else uses the pool: the list is empty only while it takes the last object. -/
def AloneAt (s : TsPool T) : PC → Prop
  | .idle | .outFirst => s.first ≠ none
  | .outNext c => s.first = c
  | .outSwap c n => s.first = some c ∧ n = s.holderNext c
  | .reproduce _ left => left = 0 → s.first ≠ none
  | .insertFirst .. | .insertNext .. | .insertSwap .. | .outCheck _ => True

def Alone (s : TsPool T) : Prop := ∀ t, s.AloneAt (s.pc t)

theorem Alone.steady (hs : s.Alone) (a : Action T) : s.Steady a := by
  cases a with
  | put | out => trivial
  | move t =>
    have ht := hs t
    show s.SteadyAt (s.pc t)
    cases hpc : s.pc t with
    | outFirst => rwa [hpc] at ht
    | outSwap c n =>
      rw [hpc] at ht
      exact fun _ => ht.2
    | idle | insertFirst | insertNext | insertSwap | outNext | outCheck | reproduce => trivial

theorem new_pc (T : Type*) (n : ℕ) (t : T) : (new T n).pc t = .idle := by
  induction n with
  | zero => rfl
  | succ n ih =>
    rw [new, Function.iterate_succ_apply']
    exact ih

theorem aloneAt_resume {h : ℕ} (hfirst : s.first = some h) (k : Caller) : s.AloneAt k.resume := by
  have hne : s.first ≠ none := by
    rw [hfirst]
    nofun
  cases k with
  | put => exact hne
  | reproduce => exact fun _ => hne

variable [DecidableEq T] [Subsingleton T]

theorem alone_go {t : T} {p : PC} (hp : s.AloneAt p) : (s.go t p).Alone := by
  intro u
  obtain rfl := Subsingleton.elim u t
  rw [go_pc_self]
  exact hp

theorem alone_move {t : T} (hsize : 0 < Size) (hmove : s.move Size t = some s') (hs : s.Alone) : s'.Alone := by
  have ht := hs t
  cases hpc : s.pc t with
  | idle =>
    simp only [move, hpc] at hmove
    cases hmove
  | insertSwap h c k =>
    simp only [move, hpc] at hmove
    split at hmove
    · obtain rfl := Option.some.inj hmove
      exact alone_go (aloneAt_resume rfl k)
    · obtain rfl := Option.some.inj hmove
      exact alone_go trivial
  | outNext c =>
    cases c with
    | none =>
      simp only [move, hpc] at hmove
      cases hmove
    | some c =>
      simp only [move, hpc, Option.some.injEq] at hmove
      subst hmove
      rw [hpc] at ht
      exact alone_go ⟨ht, rfl⟩
  | outSwap c n =>
    rw [hpc] at ht
    simp only [move, hpc, if_pos ht.1, Option.some.injEq] at hmove
    subst hmove
    exact alone_go trivial
  | outCheck h =>
    simp only [move, hpc, Option.some.injEq] at hmove
    subst hmove
    -- the list is empty, and `Size` objects are left to make
    refine alone_go fun hleft hfirst => ?_
    rw [if_pos hfirst] at hleft
    omega
  | reproduce h left =>
    rw [hpc] at ht
    cases left with
    | zero =>
      simp only [move, hpc, Option.some.injEq] at hmove
      subst hmove
      exact alone_go (ht rfl)
    | succ left =>
      simp only [move, hpc, Option.some.injEq] at hmove
      subst hmove
      exact alone_go trivial
  | insertFirst | insertNext | outFirst =>
    simp only [move, hpc, Option.some.injEq] at hmove
    subst hmove
    exact alone_go (by first | rfl | trivial)

theorem alone_step (hsize : 0 < Size) (hstep : step Size s a = some s') (hs : s.Alone) : s'.Alone := by
  cases a with
  | put t u h =>
    rw [step, Option.ite_none_right_eq_some] at hstep
    obtain rfl := Option.some.inj hstep.2
    exact alone_go trivial
  | out t =>
    rw [step, Option.ite_none_right_eq_some] at hstep
    obtain ⟨hidle, hstep⟩ := hstep
    obtain rfl := Option.some.inj hstep
    have ht := hs t
    rw [hidle] at ht
    exact alone_go ht
  | move t => exact alone_move hsize hstep hs

theorem alone_new (T : Type*) (hsize : 0 < Size) : (new T Size).Alone := by
  intro t
  rw [new_pc]
  obtain ⟨n, rfl⟩ : ∃ n, Size = n + 1 := ⟨Size - 1, by omega⟩
  rw [new, Function.iterate_succ_apply']
  nofun

/-- **A pool of one thread** is safe. -/
theorem run_safe_alone [Fintype T] (hsize : 0 < Size) {as : List (Action T)}
    (hrun : run (step Size) (new T Size) as = some s) : s.Safe := by
  have hsteady : Along (step Size) Steady (new T Size) as :=
    Along.of_inv (P := fun _ _ => True) (fun _ _ _ hstep _ hs => alone_step hsize hstep hs)
      (fun _ a _ hs => hs.steady a) (Along.of_forall (fun _ _ => trivial) _ _) (alone_new T hsize)
  exact run_safe hrun hsteady

end Alone

/-! ## Schedules of two threads -/

section Schedules

/-- So many accesses of a thread. -/
def moves {T : Type*} (t : T) (n : ℕ) : List (Action T) := List.replicate n (.move t)

/-- One thread takes the only object, then the other one takes the next, and the first one returns its own. -/
def turns : List (Action Bool) :=
  [.out true] ++ moves true 9 ++ [.out false] ++ moves false 9 ++ [.put true true 0] ++ moves true 3

theorem safe_iff_steady_turns : ∃ s, run (step 1) (new Bool 1) turns = some s ∧
    ∀ bs t, bs <+: turns → run (step 1) (new Bool 1) bs = some t → t.Safe := by
  obtain ⟨s, hs⟩ := Option.isSome_iff_exists.1 (by decide : (run (step 1) (new Bool 1) turns).isSome = true)
  exact ⟨s, hs, (safe_iff_steady hs).2 (by decide)⟩

/-- Between the load of `holderNext` and the swap of one thread, the other one takes two objects and returns the
first one. -/
def leavesAndReturns : List (Action Bool) :=
  [.out true] ++ moves true 2 ++ [.out false] ++ moves false 5 ++ [.out false] ++ moves false 5 ++
    [.put false false 2] ++ moves false 3 ++ moves true 3 ++ [.out true] ++ moves true 5

/-- **An object with two owners.** -/
theorem not_safe : ¬∀ (Size : ℕ) (as : List (Action Bool)) (s : TsPool Bool), 0 < Size →
    run (step Size) (new Bool Size) as = some s → s.Safe := by
  intro hsafe
  obtain ⟨s, hs, howned⟩ := Option.map_eq_some_iff.1 (by decide :
    (run (step 3) (new Bool 3) leavesAndReturns).map owned = some [(true, 1), (true, 2), (false, 1)])
  have hnodup := (hsafe 3 leavesAndReturns s (by decide) hs).owned
  rw [howned] at hnodup
  exact absurd hnodup (by decide)

/-- **A null head.** The only object is gone, and the thread that took it has not come to `reproduce`. -/
theorem not_safe_head : ∃ s, run (step 1) (new Bool 1) ([.out true] ++ moves true 3 ++ [.out false] ++ moves false 1) =
    some s ∧ s.pc false = .outNext none := by
  obtain ⟨s, hs, hpc⟩ := Option.map_eq_some_iff.1 (by decide :
    (run (step 1) (new Bool 1) ([.out true] ++ moves true 3 ++ [.out false] ++ moves false 1)).map
      (fun s => s.pc false) = some (.outNext none))
  exact ⟨s, hs, hpc⟩

end Schedules

end TsPool

end Esesc.Suc
