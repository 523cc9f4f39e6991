import Mathlib.Data.List.Basic
import Esesc.Core.BPred
import Esesc.Lib.Machine

/-!
# Returns and their calls (`BPRas` in `BPred.cpp`)

`nest` counts the calls that are open, so a stretch of instructions that leads from 0 open calls to 0 is balanced: the
call in front of it and the return behind it match. From the call on, the return address of the call sits still in its
entry, and the index is as many entries above it as calls are open (`Kept`). An entry is written again only when
the index comes around to it, and that takes as many open calls as there are entries.

* `Kept.step`: one prediction moves the index with the open calls, and spares the entry.
* `return_answered_iff`: what a return is answered.
-/

namespace Esesc.Core

open Esesc.Lib Esesc.Suc

namespace BPRas

/-- The constructor, for `rasSize ≥ 1`, on the memory that `new AddrType[]` gets. -/
def new (rasSize : ℕ) (memory : ℕ → AddrType) : BPRas := ⟨rasSize, memory, 0⟩

/-- The stack after a sequence of updating predictions. -/
def predicted (r : BPRas) (ds : List CtrlInst) : BPRas := ds.foldl (fun r d => (r.predict d true).2) r

/-- The calls that are open: a call opens one, a return closes one, and there must be one to close. -/
def nest (n : ℕ) (d : CtrlInst) : Option ℕ :=
  if d.inst.isFuncRet then (if n = 0 then none else some (n - 1))
  else if d.inst.isFuncCall then some (n + 1)
  else some n

section Index

variable {s i a : ℕ}

theorem wrap_up (hi : i < s) : (if i + 1 ≥ s then 0 else i + 1) = (i + 1) % s := by
  split
  · rename_i hge
    rw [show i + 1 = s by omega, Nat.mod_self]
  · rename_i hlt
    rw [Nat.mod_eq_of_lt (by omega)]

theorem wrap_down (hs : 0 < s) : (if (a + 1) % s = 0 then s - 1 else (a + 1) % s - 1) = a % s := by
  have hlt := Nat.mod_lt a hs
  rw [← Nat.mod_add_mod a s 1]
  rcases Nat.lt_or_ge (a % s + 1) s with hlow | hhigh
  · rw [Nat.mod_eq_of_lt hlow, if_neg (by omega)]
    omega
  · rw [show a % s + 1 = s by omega, Nat.mod_self, if_pos rfl]
    omega

/-- Fewer than `s` entries apart, entries are different. -/
theorem entry_ne {n : ℕ} (hi : i < s) (hn : n + 1 < s) : (i + 1 + n) % s ≠ i := by
  rcases Nat.lt_or_ge (i + 1 + n) s with hlow | hhigh
  · rw [Nat.mod_eq_of_lt hlow]
    omega
  · rw [Nat.mod_eq_sub_mod hhigh, Nat.mod_eq_of_lt (by omega)]
    omega

end Index

variable {r : BPRas} {i n m : ℕ} {pc : AddrType} {d : CtrlInst}

/-- What a call does. -/
theorem predict_call (h : r.index < r.rasSize) (hcall : d.inst.isFuncCall = true) (hret : d.inst.isFuncRet = false) :
    (r.predict d true).2 =
      { r with stack := Function.update r.stack r.index (d.pc + 4), index := (r.index + 1) % r.rasSize } := by
  unfold predict
  rw [if_neg (by simp [hret]), if_pos ⟨hcall, by omega, rfl⟩, wrap_up h]

/-- What a return does, and what it is answered. -/
theorem predict_ret (h : 0 < r.rasSize) (hret : d.inst.isFuncRet = true) :
    r.predict d true =
      (if ({ r with index := r.below } : BPRas).targetAt r.below d then .CorrectPrediction else .MissPrediction,
        { r with index := r.below }) := by
  unfold predict
  rw [if_pos hret, if_neg (by omega)]
  rfl

/-- An opcode is not both a call and a return. -/
theorem not_ret_of_call (hcall : d.inst.isFuncCall = true) : d.inst.isFuncRet = false := by
  unfold Instruction.isFuncCall at hcall
  unfold Instruction.isFuncRet
  cases hop : d.inst.opcode <;> simp [hop] at hcall ⊢

theorem predict_rasSize (r : BPRas) (d : CtrlInst) : (r.predict d true).2.rasSize = r.rasSize := by
  unfold predict
  split
  · split <;> rfl
  · split <;> rfl

theorem predict_other (hcall : d.inst.isFuncCall ≠ true) (hret : d.inst.isFuncRet ≠ true) :
    (r.predict d true).2 = r := by
  unfold predict
  rw [if_neg hret, if_neg fun hc => hcall hc.1]

/-- The index stays in the stack. -/
theorem predict_index_lt (h : r.index < r.rasSize) (d : CtrlInst) : (r.predict d true).2.index < r.rasSize := by
  by_cases hret : d.inst.isFuncRet = true
  · rw [predict_ret (by omega) hret]
    show r.below < r.rasSize
    unfold BPRas.below
    split <;> omega
  · by_cases hcall : d.inst.isFuncCall = true
    · rw [predict_call h hcall (not_ret_of_call hcall)]
      exact Nat.mod_lt _ (by omega)
    · rw [predict_other hcall hret]
      exact h

theorem predicted_index_lt (h : r.index < r.rasSize) (ds : List CtrlInst) :
    (r.predicted ds).index < (r.predicted ds).rasSize ∧ (r.predicted ds).rasSize = r.rasSize := by
  induction ds generalizing r with
  | nil => exact ⟨h, rfl⟩
  | cons d ds ih =>
    have hlt := predict_index_lt h d
    have hsize := predict_rasSize r d
    obtain ⟨hlt', hsize'⟩ := ih (by rw [hsize]; exact hlt)
    exact ⟨hlt', hsize'.trans hsize⟩

/-- **The entry of an open call.** Entry `i` has its return address, and the index is above it by `n + 1` entries,
the call and the `n` that were opened since. -/
structure Kept (r : BPRas) (i : ℕ) (pc : AddrType) (n : ℕ) : Prop where
  lt : i < r.rasSize
  index : r.index = (i + 1 + n) % r.rasSize
  entry : r.stack i = pc + 4

theorem Kept.below (h : Kept r i pc (n + 1)) : r.below = (i + 1 + n) % r.rasSize := by
  unfold BPRas.below
  rw [h.index, show i + 1 + (n + 1) = i + 1 + n + 1 by omega]
  exact wrap_down (by have := h.lt; omega)

/-- The call itself. -/
theorem Kept.open (h : r.index < r.rasSize) (hcall : d.inst.isFuncCall = true) :
    Kept (r.predict d true).2 r.index d.pc 0 := by
  rw [predict_call h hcall (not_ret_of_call hcall)]
  exact ⟨h, rfl, Function.update_self _ _ _⟩

/-- **One prediction** moves the index with the open calls. With fewer open calls than entries, a call writes
another entry. -/
theorem Kept.step (h : Kept r i pc n) (hnest : nest n d = some m) (hm : m + 1 ≤ r.rasSize) :
    Kept (r.predict d true).2 i pc m := by
  have hpos : 0 < r.rasSize := by have := h.lt; omega
  have hidx : r.index < r.rasSize := by
    rw [h.index]
    exact Nat.mod_lt _ hpos
  unfold nest at hnest
  split at hnest
  · rename_i hret
    split at hnest
    · cases hnest
    · rename_i hn
      obtain rfl := Option.some.inj hnest
      obtain ⟨k, rfl⟩ := Nat.exists_eq_succ_of_ne_zero hn
      rw [predict_ret hpos hret]
      exact ⟨h.lt, h.below, h.entry⟩
  · rename_i hret
    split at hnest
    · rename_i hcall
      obtain rfl := Option.some.inj hnest
      rw [predict_call hidx hcall (not_ret_of_call hcall)]
      refine ⟨h.lt, ?_, ?_⟩
      · show (r.index + 1) % r.rasSize = (i + 1 + (n + 1)) % r.rasSize
        rw [h.index, Nat.mod_add_mod]
        rfl
      · show Function.update r.stack r.index (d.pc + 4) i = pc + 4
        rw [Function.update_of_ne, h.entry]
        rw [h.index]
        exact (entry_ne h.lt (by omega)).symm
    · rename_i hcall
      obtain rfl := Option.some.inj hnest
      rw [predict_other hcall hret]
      exact h

/-- A stretch that never has more calls open than there are entries, the first one counted. -/
theorem Kept.run {ds : List CtrlInst} (h : Kept r i pc n) (hrun : Lib.run nest n ds = some m)
    (hdepth : ∀ p k, p <+: ds → Lib.run nest n p = some k → k + 1 ≤ r.rasSize) : Kept (r.predicted ds) i pc m := by
  induction ds generalizing r n with
  | nil =>
    obtain rfl : n = m := Option.some.inj hrun
    exact h
  | cons d ds ih =>
    obtain ⟨k, hk, hrest⟩ := run_cons.1 hrun
    have hk1 : k + 1 ≤ r.rasSize := hdepth [d] k ⟨ds, rfl⟩ (run_cons.2 ⟨k, hk, rfl⟩)
    refine ih (h.step hk hk1) hrest fun p j hp hj => ?_
    rw [predict_rasSize]
    exact hdepth (d :: p) j ((List.prefix_cons_inj d).2 hp) (run_cons.2 ⟨k, hk, hj⟩)

/-- **Returns find their calls.** Whatever was predicted before, a return that matches a call, with never more than
`rasSize` calls open from the call to the return (the call included), is answered correct if and only if it goes to
the instruction behind the call, up to bit 0. -/
theorem return_answered_iff {rasSize : ℕ} (hsize : 1 ≤ rasSize) (memory : ℕ → AddrType) (before between : List CtrlInst)
    {call ret : CtrlInst} (hcall : call.inst.isFuncCall = true) (hret : ret.inst.isFuncRet = true)
    (hmatch : Lib.run nest 0 between = some 0)
    (hdepth : ∀ p k, p <+: between → Lib.run nest 0 p = some k → k + 1 ≤ rasSize) :
    (((new rasSize memory).predicted (before ++ call :: between)).predict ret true).1 = .CorrectPrediction ↔
      ret.addr &&& ~~~1#64 = (call.pc + 4) &&& ~~~1#64 := by
  obtain ⟨hidx, hsame⟩ := predicted_index_lt (r := new rasSize memory) hsize before
  have hsplit : (new rasSize memory).predicted (before ++ call :: between) =
      ((((new rasSize memory).predicted before).predict call true).2).predicted between := by
    unfold predicted
    rw [List.foldl_append, List.foldl_cons]
  have hopen := Kept.open hidx hcall
  have hkept := hopen.run hmatch fun p k hp hk => by
    rw [predict_rasSize, hsame]
    exact hdepth p k hp hk
  rw [hsplit]
  generalize ((((new rasSize memory).predicted before).predict call true).2).predicted between = q at hkept ⊢
  have hpos : 0 < q.rasSize := by have := hkept.lt; omega
  have hbelow : q.below = ((new rasSize memory).predicted before).index := by
    -- the return goes back to the entry of the call
    have hlt := hkept.lt
    unfold BPRas.below
    rw [hkept.index, Nat.add_zero, wrap_down hpos, Nat.mod_eq_of_lt hlt]
  rw [predict_ret hpos hret, hbelow]
  simp only [targetAt, hkept.entry]
  rw [eq_comm (a := ret.addr &&& ~~~1#64)]
  split <;> simp_all

/-- A call and a return. -/
def callAt (pc target : AddrType) : CtrlInst := ⟨pc, target, ⟨.iBALU_LCALL, 0, 0, 0, 0⟩⟩

def retTo (pc target : AddrType) : CtrlInst := ⟨pc, target, ⟨.iBALU_RET, 0, 0, 0, 0⟩⟩

/-- After a return without a call and a call without a return: a call, with a call and its return in between, on a
stack of two entries. -/
theorem return_answered_nested :
    (((new 2 fun _ => 0).predicted
      ([retTo 0x900 0x100, callAt 0x1000 0x2000] ++
        callAt 0x2000 0x3000 :: [callAt 0x3000 0x4000, retTo 0x4000 0x3004])).predict (retTo 0x3008 0x2005) true).1 =
      .CorrectPrediction := by
  have hdepth : ∀ p ∈ [callAt 0x3000 0x4000, retTo 0x4000 0x3004].inits, ∀ k ∈ Lib.run nest 0 p, k + 1 ≤ 2 := by decide
  exact (return_answered_iff (show 1 ≤ 2 by decide) (fun _ => 0) [retTo 0x900 0x100, callAt 0x1000 0x2000]
    [callAt 0x3000 0x4000, retTo 0x4000 0x3004] rfl rfl (by decide)
    fun p k hp hk => hdepth p ((List.mem_inits p _).2 hp) k hk).2 (by decide)

end BPRas

end Esesc.Core
