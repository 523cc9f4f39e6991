import Mathlib.Data.List.Nodup
import Mathlib.Data.List.Count

/-!
# Recycled objects (`misc/libsuc/pool.h`)

`pool` keeps the free objects in a list and makes `Size` new ones when the last of them is
taken. Objects are numbered in the order in which they were made; the checks of a `DEBUG`
build are left out.

* `Pool.out_spec`: an object that is taken was free, or not made yet, and is not free any more.
* `Pool.count_put`: an object is in the list as many times as it was returned.
-/

namespace Esesc.Suc

/-- `pool`: the free objects from `first` on, and how many objects were made. -/
structure Pool where
  Size : ℕ
  first : List ℕ
  made : ℕ
  deriving Repr, DecidableEq

namespace Pool

/-- `reproduce`: each new object goes to the front. -/
def reproduce (p : Pool) : Pool :=
  { p with first := (List.range' p.made p.Size).reverse ++ p.first, made := p.made + p.Size }

/-- `pool(s, n)`. -/
def new (s : ℕ) : Pool := reproduce ⟨s, [], 0⟩

/-- `in`. -/
def put (p : Pool) (h : ℕ) : Pool := { p with first := h :: p.first }

/-- `out`. -/
def out (p : Pool) : Option (ℕ × Pool) :=
  match p.first with
  | [] => none
  | [h] => some (h, { p with first := [] }.reproduce)
  | h :: next :: rest => some (h, { p with first := next :: rest })

/-- There is always a free object, and none is free twice. -/
structure Ok (p : Pool) : Prop where
  size : 0 < p.Size
  free : p.first ≠ []
  nodup : p.first.Nodup
  made : ∀ h ∈ p.first, h < p.made

/-- An object in use. -/
def Live (p : Pool) (h : ℕ) : Prop := h < p.made ∧ h ∉ p.first

variable {p : Pool} {h : ℕ}

theorem Live.count (hl : p.Live h) : p.first.count h = 0 := List.count_eq_zero.2 hl.2

theorem reproduce_ok (hs : 0 < p.Size) (hf : p.first = []) : p.reproduce.Ok where
  size := hs
  free := by
    simp only [reproduce, hf, List.append_nil, ne_eq, List.reverse_eq_nil_iff, List.range'_eq_nil_iff]
    omega
  nodup := by simp [reproduce, hf, List.nodup_range']
  made := by
    simp only [reproduce, hf, List.append_nil, List.mem_reverse, List.mem_range'_1]
    omega

theorem new_ok {s : ℕ} (hs : 0 < s) : (new s).Ok := reproduce_ok hs rfl

/-- **Taking an object.** It was not in use, and is now, with those that were. -/
theorem out_spec (hp : p.Ok) :
    ∃ h p', p.out = some (h, p') ∧ p'.Ok ∧ ¬p.Live h ∧ p'.Live h ∧ ∀ x, p.Live x → p'.Live x := by
  rcases p with ⟨size, _ | ⟨h, _ | ⟨next, rest⟩⟩, made⟩
  · exact absurd rfl hp.free
  · -- the last one: the pool makes more
    have hlt : h < made := hp.made h (by simp)
    refine ⟨h, _, rfl, reproduce_ok hp.size rfl, fun hl => hl.2 (by simp), ?_, ?_⟩
    · simp only [Live, reproduce, List.append_nil, List.mem_reverse, List.mem_range'_1]
      omega
    · rintro x ⟨hx, -⟩
      simp only [Live, reproduce, List.append_nil, List.mem_reverse, List.mem_range'_1] at hx ⊢
      omega
  · obtain ⟨hnew, hnodup⟩ := List.nodup_cons.1 hp.nodup
    refine ⟨h, _, rfl, ⟨hp.size, by simp, hnodup, ?_⟩, fun hl => hl.2 (by simp), ⟨hp.made h (by simp), hnew⟩, ?_⟩
    · intro x hx
      exact hp.made x (List.mem_cons_of_mem h hx)
    · rintro x ⟨hx, hfree⟩
      exact ⟨hx, fun hm => hfree (List.mem_cons_of_mem h hm)⟩

theorem count_put (p : Pool) (h x : ℕ) : (p.put h).first.count x = p.first.count x + if h = x then 1 else 0 := by
  simp [put, List.count_cons]

end Pool

end Esesc.Suc
