import Mathlib.Data.List.Basic

/-!
# Machines and their runs

Two kinds of machine. One answers every input: `outs` is what it answers along a list
of inputs. The other moves by actions that may not be enabled: `run` is where a list of
actions leads, and `Along` says that every action taken on the way meets a condition on
the state it is taken in.

* `outs_eq_of_sim`: two machines related by a simulation give the same answers.
* `Alike`: no list of inputs tells two states of a machine apart.
* `run_inv`, `run_inv_along`, `Along.of_inv`: what every step keeps, every run keeps.
* `run_total`: when every list of actions is a run.
* `run_refines`, `run_lockstep`: a run of one machine is matched by a run of another.
* `run_collect`: what each action of a list establishes, and later ones keep, holds after the list.
* `along_congr`, `along_iff_of_inv`: conditions that agree along a run.
* `forall_prefix_iff_along`: when a property of states fails exactly at the steps that miss
  a condition, it holds all along a run exactly when the condition does.
-/

namespace Esesc.Lib

section Answering

variable {σ τ ι ο : Type*}

/-- The answers of a machine along a list of inputs. -/
def outs (step : σ → ι → ο × σ) : σ → List ι → List ο
  | _, [] => []
  | s, i :: is => (step s i).1 :: outs step (step s i).2 is

/-- **Simulation.** If `R` is kept by every input and related states answer alike,
then related states answer every list of inputs alike. -/
theorem outs_eq_of_sim {f : σ → ι → ο × σ} {g : τ → ι → ο × τ} (R : σ → τ → Prop)
    (hR : ∀ s t i, R s t → (f s i).1 = (g t i).1 ∧ R (f s i).2 (g t i).2) {s : σ} {t : τ}
    (h : R s t) (is : List ι) : outs f s is = outs g t is := by
  induction is generalizing s t with
  | nil => rfl
  | cons i is ih =>
    obtain ⟨ho, hn⟩ := hR s t i h
    simp only [outs]
    rw [ho, ih hn]

/-- Two states that no list of inputs tells apart. -/
def Alike (step : σ → ι → ο × σ) (s t : σ) : Prop := ∀ is, outs step s is = outs step t is

variable {step : σ → ι → ο × σ} {s t : σ}

theorem Alike.refl (s : σ) : Alike step s s := fun _ => rfl

theorem Alike.symm (h : Alike step s t) : Alike step t s := fun is => (h is).symm

theorem Alike.answer (h : Alike step s t) (i : ι) : (step s i).1 = (step t i).1 := (List.cons.inj (h [i])).1

theorem Alike.next (h : Alike step s t) (i : ι) : Alike step (step s i).2 (step t i).2 :=
  fun is => (List.cons.inj (h (i :: is))).2

end Answering

section Moving

variable {σ α : Type*} {step : σ → α → Option σ}

/-- Where a list of actions leads, if each is enabled when its turn comes. -/
def run (step : σ → α → Option σ) : σ → List α → Option σ
  | s, [] => some s
  | s, a :: as => (step s a).bind fun s' => run step s' as

/-- Every action of the run meets `P` in the state it is taken in. -/
def Along (step : σ → α → Option σ) (P : σ → α → Prop) : σ → List α → Prop
  | _, [] => True
  | s, a :: as => P s a ∧ ∀ s', step s a = some s' → Along step P s' as

theorem along_cons_none {P : σ → α → Prop} {s : σ} {a : α} {as : List α} (h : step s a = none) :
    Along step P s (a :: as) ↔ P s a := by
  simp [Along, h]

theorem along_cons_some {P : σ → α → Prop} {s t : σ} {a : α} {as : List α} (h : step s a = some t) :
    Along step P s (a :: as) ↔ P s a ∧ Along step P t as := by
  simp [Along, h]

theorem Along.of_forall {P : σ → α → Prop} (h : ∀ s a, P s a) (s : σ) (as : List α) : Along step P s as := by
  induction as generalizing s with
  | nil => trivial
  | cons a as ih => exact ⟨h s a, fun s' _ => ih s'⟩

theorem Along.of_forall_mem {P : σ → α → Prop} {as : List α} (h : ∀ a ∈ as, ∀ s, P s a) (s : σ) : Along step P s as := by
  induction as generalizing s with
  | nil => trivial
  | cons a as ih => exact ⟨h a List.mem_cons_self s, fun s' _ => ih (fun b hb => h b (List.mem_cons_of_mem a hb)) s'⟩

theorem Along.append {P : σ → α → Prop} {s : σ} {as bs : List α} (h : Along step P s as)
    (h' : ∀ t, run step s as = some t → Along step P t bs) : Along step P s (as ++ bs) := by
  induction as generalizing s with
  | nil => exact h' s rfl
  | cons a as ih =>
    refine ⟨h.1, fun t ht => ih (h.2 t ht) fun u hu => h' u ?_⟩
    simp only [run, ht, Option.bind_some]
    exact hu

theorem Along.of_append {P : σ → α → Prop} {s t : σ} {as bs : List α} (h : Along step P s (as ++ bs))
    (hrun : run step s as = some t) : Along step P t bs := by
  induction as generalizing s with
  | nil =>
    obtain rfl : s = t := by simpa only [run, Option.some.injEq] using hrun
    exact h
  | cons a as ih =>
    rw [run, Option.bind_eq_some_iff] at hrun
    obtain ⟨u, hu, hrun⟩ := hrun
    exact ih (h.2 u hu) hrun

/-- A condition that can be decided at each step can be decided along a run. -/
instance Along.decidable {P : σ → α → Prop} [∀ s a, Decidable (P s a)] :
    ∀ s as, Decidable (Along step P s as)
  | _, [] => .isTrue trivial
  | s, a :: as =>
    match h : step s a with
    | none => decidable_of_iff _ (along_cons_none h).symm
    | some t => have := Along.decidable (P := P) t as; decidable_of_iff _ (along_cons_some h).symm

theorem run_cons {s s' : σ} {a : α} {as : List α} :
    run step s (a :: as) = some s' ↔ ∃ t, step s a = some t ∧ run step t as = some s' := by
  simp only [run, Option.bind_eq_some_iff]

theorem run_append (s : σ) (as bs : List α) :
    run step s (as ++ bs) = (run step s as).bind fun t => run step t bs := by
  induction as generalizing s with
  | nil => rfl
  | cons a as ih =>
    simp only [List.cons_append, run, Option.bind_assoc]
    congr 1
    funext t
    exact ih t

/-- **Invariants.** What every step keeps under `P` is kept by every run that meets `P`
all along. -/
theorem run_inv_along {P : σ → α → Prop} {I : σ → Prop}
    (hstep : ∀ s a s', step s a = some s' → P s a → I s → I s') {s s' : σ} {as : List α}
    (h : run step s as = some s') (hP : Along step P s as) (hI : I s) : I s' := by
  induction as generalizing s with
  | nil =>
    obtain rfl : s = s' := by simpa only [run, Option.some.injEq] using h
    exact hI
  | cons a as ih =>
    obtain ⟨t, ht, h⟩ := run_cons.1 h
    exact ih h (hP.2 t ht) (hstep s a t ht hP.1 hI)

/-- What a condition and an invariant that it keeps give together holds at every action. -/
theorem Along.of_inv {P Q : σ → α → Prop} {I : σ → Prop}
    (hstep : ∀ s a s', step s a = some s' → P s a → I s → I s') (hQ : ∀ s a, P s a → I s → Q s a) {s : σ}
    {as : List α} (hP : Along step P s as) (hI : I s) : Along step Q s as := by
  induction as generalizing s with
  | nil => trivial
  | cons a as ih => exact ⟨hQ s a hP.1 hI, fun s' hs => ih (hP.2 s' hs) (hstep s a s' hs hP.1 hI)⟩

theorem run_inv {I : σ → Prop} (hstep : ∀ s a s', step s a = some s' → I s → I s') {s s' : σ}
    {as : List α} (h : run step s as = some s') (hI : I s) : I s' := by
  induction as generalizing s with
  | nil =>
    obtain rfl : s = s' := by simpa only [run, Option.some.injEq] using h
    exact hI
  | cons a as ih =>
    obtain ⟨t, ht, h⟩ := run_cons.1 h
    exact ih h (hstep s a t ht hI)

/-- If every action is enabled under `I` and keeps it, every list of actions is a run. -/
theorem run_total {I : σ → Prop} (hstep : ∀ s a, I s → ∃ s', step s a = some s' ∧ I s') {s : σ} (hI : I s)
    (as : List α) : (run step s as).isSome = true := by
  induction as generalizing s with
  | nil => rfl
  | cons a as ih =>
    obtain ⟨t, ht, hIt⟩ := hstep s a hI
    rw [run, ht, Option.bind_some]
    exact ih hIt

/-- **Collecting.** If every action of a list is enabled under `I`, keeps it and establishes its
own `Q`, and later states keep what was established, then the list leads to a state where
all of it holds. -/
theorem run_collect {I : σ → Prop} {R : σ → σ → Prop} {Q : α → σ → Prop} (hrefl : ∀ s, R s s)
    (htrans : ∀ s t u, R s t → R t u → R s u) (hQ : ∀ a s t, R s t → Q a s → Q a t) {as : List α}
    (hstep : ∀ a ∈ as, ∀ s, I s → ∃ t, step s a = some t ∧ I t ∧ R s t ∧ Q a t) {s : σ} (hI : I s) :
    ∃ t, run step s as = some t ∧ I t ∧ R s t ∧ ∀ a ∈ as, Q a t := by
  induction as generalizing s with
  | nil => exact ⟨s, rfl, hI, hrefl s, by simp⟩
  | cons a as ih =>
    obtain ⟨u, hu, hIu, hsu, hQu⟩ := hstep a List.mem_cons_self s hI
    obtain ⟨t, ht, hIt, hut, hall⟩ := ih (fun b hb => hstep b (List.mem_cons_of_mem a hb)) hIu
    refine ⟨t, run_cons.2 ⟨u, hu, ht⟩, hIt, htrans s u t hsu hut, ?_⟩
    intro b hb
    rcases List.mem_cons.1 hb with rfl | hb
    · exact hQ b u t hut hQu
    · exact hall b hb

/-- **Refinement.** If every action of one machine is matched by a run of another, every run is. -/
theorem run_refines {τ β : Type*} {step' : τ → β → Option τ} {R : σ → τ → Prop}
    (hstep : ∀ s a s' t, step s a = some s' → R s t → ∃ bs t', run step' t bs = some t' ∧ R s' t') {s s' : σ} {t : τ}
    {as : List α} (h : run step s as = some s') (hR : R s t) : ∃ bs t', run step' t bs = some t' ∧ R s' t' := by
  induction as generalizing s t with
  | nil =>
    obtain rfl : s = s' := by simpa only [run, Option.some.injEq] using h
    exact ⟨[], t, rfl, hR⟩
  | cons a as ih =>
    obtain ⟨u, hu, h⟩ := run_cons.1 h
    obtain ⟨bs, v, hv, hRv⟩ := hstep s a u t hu hR
    obtain ⟨cs, w, hw, hRw⟩ := ih h hRv
    refine ⟨bs ++ cs, w, ?_, hRw⟩
    rw [run_append, hv]
    exact hw

/-- **Step by step.** If every action of one machine is matched by the same action of another, every run is. -/
theorem run_lockstep {τ : Type*} {step' : τ → α → Option τ} {R : σ → τ → Prop}
    (hstep : ∀ s a s' t, step s a = some s' → R s t → ∃ t', step' t a = some t' ∧ R s' t') {s s' : σ} {t : τ}
    {as : List α} (h : run step s as = some s') (hR : R s t) : ∃ t', run step' t as = some t' ∧ R s' t' := by
  induction as generalizing s t with
  | nil =>
    obtain rfl : s = s' := by simpa only [run, Option.some.injEq] using h
    exact ⟨t, rfl, hR⟩
  | cons a as ih =>
    obtain ⟨u, hu, h⟩ := run_cons.1 h
    obtain ⟨v, hv, hRv⟩ := hstep s a u t hu hR
    obtain ⟨w, hw, hRw⟩ := ih h hRv
    exact ⟨w, run_cons.2 ⟨v, hv, hw⟩, hRw⟩

/-- More enabled actions do not change a run that was possible. -/
theorem run_mono {step' : σ → α → Option σ} (h : ∀ s a t, step s a = some t → step' s a = some t) {s t : σ}
    {as : List α} (hrun : run step s as = some t) : run step' s as = some t := by
  induction as generalizing s with
  | nil => exact hrun
  | cons a as ih =>
    obtain ⟨u, hu, hrun⟩ := run_cons.1 hrun
    exact run_cons.2 ⟨u, h s a u hu, ih hrun⟩

/-- Conditions that agree on the states with an invariant agree along every run. -/
theorem along_congr {P Q : σ → α → Prop} {I : σ → Prop} (hstep : ∀ s a s', step s a = some s' → I s → I s')
    (hPQ : ∀ s a, I s → (P s a ↔ Q s a)) {s : σ} (hI : I s) (as : List α) :
    Along step P s as ↔ Along step Q s as := by
  induction as generalizing s with
  | nil => rfl
  | cons a as ih =>
    unfold Along
    rw [hPQ s a hI]
    refine and_congr_right fun _ => forall_congr' fun s' => ?_
    exact forall_congr' fun hs => ih (hstep s a s' hs hI)

/-- It is enough that they agree on the states with an invariant that one of them keeps. -/
theorem along_iff_of_inv {P Q : σ → α → Prop} {I : σ → Prop}
    (hstep : ∀ s a s', step s a = some s' → Q s a → I s → I s') (hPQ : ∀ s a, I s → (P s a ↔ Q s a)) {s : σ} (hI : I s)
    (as : List α) : Along step P s as ↔ Along step Q s as := by
  induction as generalizing s with
  | nil => rfl
  | cons a as ih =>
    unfold Along
    rw [hPQ s a hI]
    refine and_congr_right fun hQ => forall_congr' fun s' => ?_
    exact forall_congr' fun hs => ih (hstep s a s' hs hQ hI)

/-- **Exact conditions.** Let every step taken in a domain `D` from a state with the
invariant `I` keep it under `P` and break `E` otherwise, and let `I` give `E`. Then `E`
holds in every state of a run exactly when `P` holds along it. -/
theorem forall_prefix_iff_along {D P : σ → α → Prop} {I E : σ → Prop} (hE : ∀ s, I s → E s)
    (hkeep : ∀ s a s', step s a = some s' → D s a → P s a → I s → I s')
    (hbreak : ∀ s a s', step s a = some s' → D s a → ¬P s a → I s → ¬E s') {s s' : σ} {as : List α}
    (h : run step s as = some s') (hD : Along step D s as) (hI : I s) :
    (∀ bs t, bs <+: as → run step s bs = some t → E t) ↔ Along step P s as := by
  induction as generalizing s with
  | nil =>
    refine ⟨fun _ => trivial, ?_⟩
    rintro - bs t hbs ht
    obtain rfl : bs = [] := List.prefix_nil.1 hbs
    obtain rfl : s = t := by simpa only [run, Option.some.injEq] using ht
    exact hE s hI
  | cons a as ih =>
    obtain ⟨u, hu, h⟩ := run_cons.1 h
    have hDu := hD.2 u hu
    by_cases hP : P s a
    · have hIu := hkeep s a u hu hD.1 hP hI
      rw [along_cons_some hu, and_iff_right hP, ← ih h hDu hIu]
      constructor
      · intro hall bs t hbs ht
        exact hall (a :: bs) t ((List.prefix_cons_inj a).2 hbs) (run_cons.2 ⟨u, hu, ht⟩)
      · intro hall bs t hbs ht
        cases bs with
        | nil =>
          obtain rfl : s = t := by simpa only [run, Option.some.injEq] using ht
          exact hE s hI
        | cons b bs =>
          obtain ⟨rfl, hpre⟩ := List.cons_prefix_cons.1 hbs
          obtain ⟨v, hv, ht⟩ := run_cons.1 ht
          obtain rfl : u = v := Option.some.inj (hu.symm.trans hv)
          exact hall bs t hpre ht
    · constructor
      · intro hall
        have hEu := hall [a] u (by simp) (run_cons.2 ⟨u, hu, rfl⟩)
        exact absurd hEu (hbreak s a u hu hD.1 hP hI)
      · intro hP'
        exact absurd hP'.1 hP

end Moving

end Esesc.Lib
