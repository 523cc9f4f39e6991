import Mathlib.Data.List.Basic

/-!
# Microcode

A sequence of micro-operations runs one after the other. Each may get stuck, and each may leave: what
follows it in the sequence is then not run. `WP` says that a sequence runs to its end or leaves, and what
holds then.

* `WP.cons`, `WP.leave`, `WP.append`: a micro-operation, one that leaves, and two sequences.
-/

namespace Esesc.Lib

/-- The micro-operations, and the states in which the rest of a sequence is not run. -/
structure Microcode (O S : Type*) where
  exec : O → S → Option S
  left : S → Bool

namespace Microcode

variable {O S : Type*} (m : Microcode O S)

/-- A sequence. -/
def runSeq : List O → S → Option S
  | [], s => some s
  | o :: os, s => (m.exec o s).bind fun s' => if m.left s' then some s' else runSeq os s'

/-- What holds after a sequence that does not get stuck. -/
def WP (os : List O) (s : S) (Q : S → Prop) : Prop := ∃ s', m.runSeq os s = some s' ∧ Q s'

variable {m} {o : O} {os os' : List O} {s s' : S} {Q R : S → Prop}

theorem WP.nil (h : Q s) : m.WP [] s Q := ⟨s, rfl, h⟩

theorem WP.cons {t : S} (ho : m.exec o s = some t) (hs : m.left t = false) (h : m.WP os t Q) : m.WP (o :: os) s Q := by
  obtain ⟨u, hu, hq⟩ := h
  refine ⟨u, ?_, hq⟩
  simp only [runSeq, ho, Option.bind_some, hs, Bool.false_eq_true, if_false]
  exact hu

theorem WP.leave (ho : m.exec o s = some s') (hs : m.left s' = true) (h : Q s') : m.WP (o :: os) s Q := by
  refine ⟨s', ?_, h⟩
  simp only [runSeq, ho, Option.bind_some, hs, if_true]

theorem WP.mono (h : m.WP os s Q) (hQ : ∀ t, Q t → R t) : m.WP os s R := by
  obtain ⟨t, ht, hq⟩ := h
  exact ⟨t, ht, hQ t hq⟩

/-- **Two sequences.** The second one runs unless the first one leaves. -/
theorem WP.append (hs : m.left s = false)
    (h : m.WP os s fun t => if m.left t = true then Q t else m.WP os' t Q) : m.WP (os ++ os') s Q := by
  induction os generalizing s with
  | nil =>
    obtain ⟨t, ht, hq⟩ := h
    obtain rfl : s = t := by simpa only [runSeq, Option.some.injEq] using ht
    rw [if_neg (by simp [hs])] at hq
    exact hq
  | cons o os ih =>
    obtain ⟨t, ht, hq⟩ := h
    simp only [runSeq, Option.bind_eq_some_iff] at ht
    obtain ⟨u, hu, ht⟩ := ht
    by_cases hleft : m.left u = true
    · rw [if_pos hleft, Option.some.injEq] at ht
      subst ht
      rw [if_pos hleft] at hq
      exact WP.leave hu hleft hq
    · rw [if_neg hleft] at ht
      have hrest := ih (Bool.not_eq_true _ ▸ hleft) ⟨t, ht, hq⟩
      exact WP.cons hu (Bool.not_eq_true _ ▸ hleft) hrest

/-- The first sequence does not leave. -/
theorem WP.append_of_stay (hs : m.left s = false) (h : m.WP os s fun t => m.left t = false ∧ m.WP os' t Q) :
    m.WP (os ++ os') s Q := by
  refine WP.append hs (h.mono ?_)
  rintro t ⟨ht, hq⟩
  rw [if_neg (by simp [ht])]
  exact hq

end Microcode

end Esesc.Lib
