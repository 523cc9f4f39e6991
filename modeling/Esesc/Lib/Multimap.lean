import Mathlib.Data.List.Basic
import Mathlib.Data.List.TakeWhile
import Mathlib.Order.Lattice

/-!
# Sorted multimaps

A multimap as the list that its iterators go over: sorted by key, and entries of one key in the order in which they were
inserted. An iterator is the list of the entries from it on; the one behind the last entry is empty, and has no key.

* `mem_insert`, `mem_erase`: what operations change.
* `mem_find`: the iterator that is found for a key has all entries from this key on.
* `walk_find`: a loop over the entries of one key that looks for an entry with a property, and ends by the key of the
  next one. It goes behind the end of the map when there is no greater key.
-/

namespace Esesc.Lib

variable {κ ν : Type*} [LinearOrder κ]

structure Multimap (κ ν : Type*) [LinearOrder κ] where
  entries : List (κ × ν)
  sorted : entries.Pairwise fun a b => a.1 ≤ b.1

namespace Multimap

variable {m : Multimap κ ν} {k : κ} {v : ν} {e : κ × ν} {l : List (κ × ν)}

def empty : Multimap κ ν := ⟨[], .nil⟩

/-- Behind all entries with keys up to that of the new one. -/
def insertEntry (x : κ × ν) : List (κ × ν) → List (κ × ν)
  | [] => [x]
  | y :: ys => if x.1 < y.1 then x :: y :: ys else y :: insertEntry x ys

theorem mem_insertEntry (x : κ × ν) : e ∈ insertEntry x l ↔ e = x ∨ e ∈ l := by
  induction l with
  | nil => rw [insertEntry, List.mem_singleton]; simp
  | cons y ys ih =>
    rw [insertEntry]
    split
    · exact List.mem_cons
    · rw [List.mem_cons, ih, List.mem_cons]
      exact or_left_comm

theorem insertEntry_sorted (x : κ × ν) (h : l.Pairwise fun a b => a.1 ≤ b.1) :
    (insertEntry x l).Pairwise fun a b => a.1 ≤ b.1 := by
  induction l with
  | nil => exact List.pairwise_singleton _ x
  | cons y ys ih =>
    obtain ⟨hy, hys⟩ := List.pairwise_cons.1 h
    rw [insertEntry]
    split
    · rename_i hlt
      refine List.pairwise_cons.2 ⟨fun e he => ?_, h⟩
      rcases List.mem_cons.1 he with rfl | he
      · exact le_of_lt hlt
      · exact le_trans (le_of_lt hlt) (hy e he)
    · rename_i hge
      refine List.pairwise_cons.2 ⟨fun e he => ?_, ih hys⟩
      rcases (mem_insertEntry x).1 he with rfl | he
      · exact not_lt.1 hge
      · exact hy e he

def insert (m : Multimap κ ν) (k : κ) (v : ν) : Multimap κ ν := ⟨insertEntry (k, v) m.entries, insertEntry_sorted _ m.sorted⟩

theorem mem_insert : e ∈ (m.insert k v).entries ↔ e = (k, v) ∨ e ∈ m.entries := mem_insertEntry _

/-- The first entry with a property goes. -/
def erase (m : Multimap κ ν) (p : κ × ν → Bool) : Multimap κ ν := ⟨m.entries.eraseP p, m.sorted.sublist List.eraseP_sublist⟩

/-- The first entry of a key, or the end. -/
def find (m : Multimap κ ν) (k : κ) : List (κ × ν) := m.entries.dropWhile fun e => e.1 ≠ k

theorem find_eq_nil (h : ∀ e ∈ m.entries, e.1 ≠ k) : m.find k = [] := by
  rw [find, List.dropWhile_eq_nil_iff]
  exact fun e he => decide_eq_true (h e he)

theorem find_sorted (m : Multimap κ ν) (k : κ) : (m.find k).Pairwise fun a b => a.1 ≤ b.1 :=
  m.sorted.sublist (List.dropWhile_sublist _)

/-- **What is found.** -/
theorem mem_dropWhile (hl : l.Pairwise fun a b => a.1 ≤ b.1) (hk : ∃ x ∈ l, x.1 = k) :
    e ∈ l.dropWhile (fun e => e.1 ≠ k) ↔ e ∈ l ∧ k ≤ e.1 := by
  induction l with
  | nil =>
    obtain ⟨x, hx, -⟩ := hk
    exact absurd hx List.not_mem_nil
  | cons y ys ih =>
    obtain ⟨hy, hys⟩ := List.pairwise_cons.1 hl
    by_cases hyk : y.1 = k
    · rw [List.dropWhile_cons_of_neg (by simpa using hyk)]
      refine (and_iff_left_of_imp fun he => ?_).symm
      rcases List.mem_cons.1 he with rfl | he
      · exact le_of_eq hyk.symm
      · exact hyk ▸ hy e he
    · rw [List.dropWhile_cons_of_pos (by simpa using hyk)]
      obtain ⟨x, hx, hxk⟩ := hk
      have hx' : x ∈ ys := (List.mem_cons.1 hx).resolve_left fun h => hyk (h ▸ hxk)
      have hlt : y.1 < k := lt_of_le_of_ne (hxk ▸ hy x hx') hyk
      rw [ih hys ⟨x, hx', hxk⟩, List.mem_cons]
      constructor
      · exact fun h => ⟨.inr h.1, h.2⟩
      · rintro ⟨rfl | he, hle⟩
        · exact absurd hle (not_le.2 hlt)
        · exact ⟨he, hle⟩

theorem mem_find (hk : ∃ x ∈ m.entries, x.1 = k) : e ∈ m.find k ↔ e ∈ m.entries ∧ k ≤ e.1 := mem_dropWhile m.sorted hk

/-- `while (it->first == k) { if (p(it)) return true; it++; } return false;`. There is no result when the end is
dereferenced. -/
def walk (k : κ) (p : κ × ν → Bool) : List (κ × ν) → Option Bool
  | [] => none
  | e :: es => if e.1 = k then (if p e then some true else walk k p es) else some false

variable {p : κ × ν → Bool}

/-- **The loop**, from an entry of the key on. -/
theorem walk_eq (hl : l.Pairwise fun a b => a.1 ≤ b.1) (hk : ∀ e ∈ l, k ≤ e.1) :
    walk k p l =
      if ∃ e ∈ l, e.1 = k ∧ p e = true then some true else if ∃ e ∈ l, k < e.1 then some false else none := by
  induction l with
  | nil => simp [walk]
  | cons y ys ih =>
    obtain ⟨hy, hys⟩ := List.pairwise_cons.1 hl
    rw [walk]
    by_cases hyk : y.1 = k
    · rw [if_pos hyk]
      by_cases hp : p y = true
      · rw [if_pos hp, if_pos ⟨y, List.mem_cons_self, hyk, hp⟩]
      · rw [if_neg hp, ih hys fun e he => hk e (List.mem_cons_of_mem y he)]
        simp only [List.exists_mem_cons_iff, hyk, hp, lt_irrefl, Bool.false_eq_true, and_false, false_or]
    · have hlt : k < y.1 := lt_of_le_of_ne (hk y List.mem_cons_self) (Ne.symm hyk)
      have hnone : ¬∃ e ∈ y :: ys, e.1 = k ∧ p e = true := by
        rintro ⟨e, he, hek, -⟩
        rcases List.mem_cons.1 he with rfl | he
        · exact hyk hek
        · exact absurd (hy e he) (not_le.2 (hek ▸ hlt))
      rw [if_neg hyk, if_neg hnone, if_pos ⟨y, List.mem_cons_self, hlt⟩]

/-- **The loop over a key.** -/
theorem walk_find (m : Multimap κ ν) (k : κ) (p : κ × ν → Bool) :
    walk k p (m.find k) =
      if ∃ e ∈ m.entries, e.1 = k ∧ p e = true then some true
      else if (∃ e ∈ m.entries, e.1 = k) ∧ ∃ e ∈ m.entries, k < e.1 then some false
      else none := by
  by_cases hk : ∃ e ∈ m.entries, e.1 = k
  · have hmem : ∀ q : κ × ν → Prop, (∀ e, q e → k ≤ e.1) → ((∃ e ∈ m.find k, q e) ↔ ∃ e ∈ m.entries, q e) := by
      intro q hq
      refine exists_congr fun e => ?_
      rw [mem_find hk]
      exact ⟨fun h => ⟨h.1.1, h.2⟩, fun h => ⟨⟨h.1, hq e h.2⟩, h.2⟩⟩
    rw [walk_eq (m.find_sorted k) fun e he => ((mem_find hk).1 he).2]
    simp only [hmem (fun e => e.1 = k ∧ p e = true) fun e h => le_of_eq h.1.symm, hmem (fun e => k < e.1) fun e h => le_of_lt h,
      hk, true_and]
  · have hnone : ¬∃ e ∈ m.entries, e.1 = k ∧ p e = true := fun ⟨e, he, hek, _⟩ => hk ⟨e, he, hek⟩
    rw [find_eq_nil fun e he hek => hk ⟨e, he, hek⟩, if_neg hnone, if_neg fun h => hk h.1]
    rfl

theorem walk_true_iff : walk k p (m.find k) = some true ↔ ∃ e ∈ m.entries, e.1 = k ∧ p e = true := by
  rw [walk_find]
  split
  · rename_i h
    exact iff_of_true rfl h
  · rename_i h
    refine iff_of_false ?_ h
    split <;> simp

theorem walk_false_iff : walk k p (m.find k) = some false ↔
    (¬∃ e ∈ m.entries, e.1 = k ∧ p e = true) ∧ (∃ e ∈ m.entries, e.1 = k) ∧ ∃ e ∈ m.entries, k < e.1 := by
  rw [walk_find]
  split
  · rename_i h
    exact iff_of_false (by simp) fun hn => hn.1 h
  · rename_i h
    split
    · rename_i hin
      exact iff_of_true rfl ⟨h, hin⟩
    · rename_i hout
      exact iff_of_false (by simp) fun hn => hout hn.2

end Multimap

end Esesc.Lib
