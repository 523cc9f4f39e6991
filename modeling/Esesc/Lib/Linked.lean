import Mathlib.Data.List.Nodup
import Mathlib.Logic.Function.Basic

/-!
# Linked lists

Nodes that point to the next node, as a map from nodes to nodes. `Linked next h l` says that
the nodes from `h` on are the ones of `l`.

* `Linked.congr`: only the nodes of the list matter.
* `Linked.unique`, `Linked.head_eq`: the first node determines the list, and the set of its nodes the first one.
* `Linked.concat`: a node is linked behind the last one.
* `Threads`: many lists over the same nodes, each with a first and a last node, no node in two of them.
* `Threads.concat`, `Threads.tail`: one of them gets a node at its end or loses its first one.
-/

namespace Esesc.Lib

variable {α : Type*} {next next' : α → Option α} {h h' : Option α} {l l' : List α} {a b : α}

/-- The nodes from `h` on, along `next`, are the ones of the list. -/
def Linked (next : α → Option α) : Option α → List α → Prop
  | h, [] => h = none
  | h, a :: l => h = some a ∧ Linked next (next a) l

theorem Linked.congr (hl : Linked next h l) (hn : ∀ a ∈ l, next' a = next a) : Linked next' h l := by
  induction l generalizing h with
  | nil => exact hl
  | cons a l ih =>
    refine ⟨hl.1, ?_⟩
    rw [hn a List.mem_cons_self]
    exact ih hl.2 fun b hb => hn b (List.mem_cons_of_mem a hb)

theorem Linked.eq_none_iff (hl : Linked next h l) : h = none ↔ l = [] := by
  cases l with
  | nil => exact iff_of_true hl rfl
  | cons a l => simp [hl.1]

theorem Linked.unique (hl : Linked next h l) (hl' : Linked next h l') : l = l' := by
  induction l generalizing h l' with
  | nil => exact (hl'.eq_none_iff.1 hl).symm
  | cons a l ih =>
    cases l' with
    | nil => cases hl.1.symm.trans hl'
    | cons b l' =>
      obtain rfl := Option.some.inj (hl.1.symm.trans hl'.1)
      rw [ih hl.2 hl'.2]

theorem Linked.of_append (hl : Linked next h (l ++ a :: l')) : Linked next (some a) (a :: l') := by
  induction l generalizing h with
  | nil => exact ⟨rfl, hl.2⟩
  | cons b l ih => exact ih hl.2

/-- Lists with the same nodes start at the same node. -/
theorem Linked.head_eq (hl : Linked next h l) (hl' : Linked next h' l') (hd : l.Nodup) (hmem : ∀ a, a ∈ l' ↔ a ∈ l) :
    h' = h := by
  cases l' with
  | nil =>
    have hnil : l = [] := List.eq_nil_iff_forall_not_mem.2 fun a ha => List.not_mem_nil ((hmem a).2 ha)
    rw [hl.eq_none_iff.2 hnil]
    exact hl'
  | cons a r =>
    obtain ⟨l₁, l₂, rfl⟩ := List.append_of_mem ((hmem a).1 List.mem_cons_self)
    cases l₁ with
    | nil => rw [hl.1, hl'.1]
    | cons b l₁ =>
      -- `b` is before `a`, and would be behind it as well
      have hr : a :: r = a :: l₂ := Linked.unique ⟨rfl, hl'.2⟩ hl.of_append
      have hb : b ∈ a :: r := (hmem b).2 List.mem_cons_self
      rw [hr] at hb
      exact absurd (List.mem_append_right l₁ hb) (List.nodup_cons.1 hd).1

/-- **Linking at the end.** The last node gets the new one as its next, and the new one gets none. -/
theorem Linked.concat [DecidableEq α] (hl : Linked next h l) (hb : l.getLast? = some b) (hd : l.Nodup) (ha : a ∉ l) :
    Linked (Function.update (Function.update next b (some a)) a none) h (l ++ [a]) := by
  induction l generalizing h with
  | nil => cases hb
  | cons c l ih =>
    obtain ⟨hc, hd⟩ := List.nodup_cons.1 hd
    have hca : c ≠ a := fun e => ha (e ▸ List.mem_cons_self)
    refine ⟨hl.1, ?_⟩
    rw [Function.update_of_ne hca]
    cases l with
    | nil =>
      obtain rfl : c = b := by simpa using hb
      rw [Function.update_self]
      exact ⟨rfl, by simp [Linked]⟩
    | cons d l =>
      have hb' : (d :: l).getLast? = some b := by rwa [List.getLast?_cons_cons] at hb
      have hcb : c ≠ b := fun e => hc (e ▸ List.mem_of_getLast? hb')
      rw [Function.update_of_ne hcb]
      exact ih hl.2 hb' hd fun hm => ha (List.mem_cons_of_mem c hm)

/-! ## Lists that share their nodes -/

variable {ι : Type*} {live : ι → Prop} {first : ι → Option α} {last : ι → α} {L : ι → List α} {p q : ι}

/-- The lists of the owners that are `live`. The last node of an empty list is any node. -/
structure Threads (live : ι → Prop) (next : α → Option α) (first : ι → Option α) (last : ι → α)
    (L : ι → List α) : Prop where
  chain : ∀ p, live p → Linked next (first p) (L p)
  ends : ∀ p a, (L p).getLast? = some a → last p = a
  nodup : ∀ p, (L p).Nodup
  one : ∀ p q a, a ∈ L p → a ∈ L q → p = q

theorem Threads.getLast? (h : Threads live next first last L) (hp : live p) (hf : first p ≠ none) :
    (L p).getLast? = some (last p) := by
  have hne : L p ≠ [] := fun e => hf ((h.chain p hp).eq_none_iff.2 e)
  have hlast := List.getLast?_eq_some_getLast hne
  rw [hlast, h.ends p _ hlast]

variable [DecidableEq ι]

theorem mem_update_concat : b ∈ Function.update L p (L p ++ [a]) q ↔ b ∈ L q ∨ q = p ∧ b = a := by
  by_cases hq : q = p
  · subst hq
    simp
  · simp [hq]

/-- **Linking.** The node goes to the end of the list, also of one that was empty when `last` was set
for the last time. -/
theorem Threads.concat [DecidableEq α] (h : Threads live next first last L) (hp : live p) (ha : ∀ q, a ∉ L q) :
    Threads live
      (Function.update (if first p = none then next else Function.update next (last p) (some a)) a none)
      (if first p = none then Function.update first p (some a) else first) (Function.update last p a)
      (Function.update L p (L p ++ [a])) := by
  constructor
  · intro q hq
    have hchain := h.chain q hq
    by_cases hqp : q = p
    · subst hqp
      rw [Function.update_self]
      split
      · rename_i hnone
        rw [hchain.eq_none_iff.1 hnone, Function.update_self]
        exact ⟨rfl, by simp [Linked]⟩
      · rename_i hsome
        exact hchain.concat (h.getLast? hq hsome) (h.nodup q) (ha q)
    · rw [Function.update_of_ne hqp]
      have hfirst : (if first p = none then Function.update first p (some a) else first) q = first q := by
        split
        · exact Function.update_of_ne hqp _ _
        · rfl
      rw [hfirst]
      refine hchain.congr fun b hb => ?_
      rw [Function.update_of_ne (ne_of_mem_of_not_mem hb (ha q))]
      split
      · rfl
      · -- the node written to is the last one of another list
        rename_i hsome
        refine Function.update_of_ne ?_ _ _
        rintro rfl
        exact hqp (h.one q p _ hb (List.mem_of_getLast? (h.getLast? hp hsome)))
  · intro q b hb
    by_cases hqp : q = p
    · subst hqp
      rw [Function.update_self] at hb ⊢
      simpa using hb
    · rw [Function.update_of_ne hqp] at hb ⊢
      exact h.ends q b hb
  · intro q
    by_cases hqp : q = p
    · subst hqp
      rw [Function.update_self]
      exact List.Nodup.append (h.nodup q) (List.nodup_singleton _) (by simpa using ha q)
    · rw [Function.update_of_ne hqp]
      exact h.nodup q
  · intro q q' b hq hq'
    rcases mem_update_concat.1 hq with hq | ⟨hqp, hb⟩ <;> rcases mem_update_concat.1 hq' with hq' | ⟨hqp', hb'⟩
    · exact h.one q q' b hq hq'
    · exact absurd (hb' ▸ hq) (ha q)
    · exact absurd (hb ▸ hq') (ha q')
    · rw [hqp, hqp']

theorem Threads.mem_update_tail (h : Threads live next first last L) {rest : List α} (hL : L p = a :: rest) :
    b ∈ Function.update L p rest q ↔ b ∈ L q ∧ b ≠ a := by
  have hnd := h.nodup p
  rw [hL, List.nodup_cons] at hnd
  have ha : a ∈ L p := by rw [hL]; exact List.mem_cons_self
  by_cases hqp : q = p
  · subst hqp
    rw [Function.update_self, hL, List.mem_cons]
    constructor
    · exact fun hb => ⟨.inr hb, ne_of_mem_of_not_mem hb hnd.1⟩
    · exact fun hb => hb.1.resolve_left hb.2
  · rw [Function.update_of_ne hqp]
    refine ⟨fun hb => ⟨hb, ?_⟩, fun hb => hb.1⟩
    rintro rfl
    exact hqp (h.one q p _ hb ha)

/-- **Taking off.** The first node leaves the list. -/
theorem Threads.tail (h : Threads live next first last L) (hp : live p) (hf : first p = some a) :
    ∃ rest, L p = a :: rest ∧
      Threads live next (Function.update first p (next a)) last (Function.update L p rest) := by
  have hchain := h.chain p hp
  have hnd := h.nodup p
  cases hL : L p with
  | nil =>
    rw [hL, hf] at hchain
    cases hchain
  | cons b rest =>
    rw [hL, hf] at hchain
    obtain ⟨hb, hrest⟩ := hchain
    obtain rfl := Option.some.inj hb
    rw [hL, List.nodup_cons] at hnd
    refine ⟨rest, rfl, ?_, ?_, ?_, ?_⟩
    · intro q hq
      by_cases hqp : q = p
      · subst hqp
        rw [Function.update_self, Function.update_self]
        exact hrest
      · rw [Function.update_of_ne hqp, Function.update_of_ne hqp]
        exact h.chain q hq
    · intro q b hb
      refine h.ends q b ?_
      by_cases hqp : q = p
      · subst hqp
        rw [Function.update_self] at hb
        rw [hL]
        cases rest with
        | nil => cases hb
        | cons c rest => rwa [List.getLast?_cons_cons]
      · rwa [Function.update_of_ne hqp] at hb
    · intro q
      by_cases hqp : q = p
      · subst hqp
        rw [Function.update_self]
        exact hnd.2
      · rw [Function.update_of_ne hqp]
        exact h.nodup q
    · intro q q' b hq hq'
      exact h.one q q' b ((h.mem_update_tail hL).1 hq).1 ((h.mem_update_tail hL).1 hq').1

end Esesc.Lib
