import Esesc.Emul.ThumbIsa
import Esesc.Lib.Machine

/-!
# The emulator

`Scexec`: an instruction is fetched and cracked, and its micro-ops are executed. The conditions of an IT
block wait in the cracker. Only 16-bit Thumb instructions are in the model.

* `pending`: the conditions that are left in `ITSTATE`, as the cracker keeps them.
* `popCond_pending`, `itPush_eq`: the vector of conditions is `ITSTATE`.
-/

namespace Esesc.Emul

open Esesc.Lib Isa

variable {M : Type*}

/-! ## The vector of conditions -/

/-- The conditions of the next instructions in an IT block, of which there are at most `k`. -/
def pendingUpTo : ℕ → BitVec 8 → List (BitVec 4)
  | 0, _ => []
  | k + 1, itstate => if itstate &&& 0xF = 0 then [] else (itstate >>> 4).setWidth 4 :: pendingUpTo k (itAdvance itstate)

def pending (itstate : BitVec 8) : List (BitVec 4) := pendingUpTo 4 itstate

/-- What holds of the sixteen conditions with the sixteen masks. -/
theorem forall_itstate {P : BitVec 8 → Prop} (h : ∀ cond mask : Fin 16, P (BitVec.ofNat 8 (16 * cond.val + mask.val)))
    (itstate : BitVec 8) : P itstate := by
  have hlt := itstate.isLt
  have hx := h ⟨itstate.toNat / 16, by omega⟩ ⟨itstate.toNat % 16, by omega⟩
  rw [show 16 * (itstate.toNat / 16) + itstate.toNat % 16 = itstate.toNat by omega, BitVec.ofNat_toNat,
    BitVec.setWidth_eq] at hx
  exact hx

/-- **`IT` pushes the block that `ITSTATE` stands for.** -/
theorem itPush_eq : ∀ itstate : BitVec 8, itstate &&& 0xF ≠ 0 →
    itPush ((itstate >>> 4).setWidth 4) (itstate.setWidth 4) = pending itstate :=
  forall_itstate (by decide)

/-- **Every instruction takes the condition of `ITSTATE`.** -/
theorem popCond_pending : ∀ itstate : BitVec 8, popCond (pending itstate) =
    (if itstate &&& 0xF ≠ 0 then (itstate >>> 4).setWidth 4 else 14, pending (itAdvance itstate)) :=
  forall_itstate (by decide)

/-! ## The emulator -/

/-- `Scexec`: the core, and the vector of the cracker. -/
structure Scexec (M : Type*) where
  core : Sccore M
  itblockVector : List (BitVec 4)

/-- `ThumbCrack::expand`: bits 15 to 11 of an instruction of 32 bits. -/
def thumb32 (insn : BitVec 32) : Bool := 29 ≤ ((insn >>> 11) &&& 0x1F).toNat

/-- `resetNOPStatus`. -/
def Sccore.resetNOPStatus (c : Sccore M) : Sccore M := { c with state := { c.state with nop := false } }

/-- The end of `Scexec::execute`: the flush is reset, or `advPC` moves on. -/
def Sccore.advance (c : Sccore M) : Sccore M :=
  if c.state.flush then { c with state := { c.state with flush := false } }
  else { c with state := { c.state with pc := c.state.pc + 2 } }

/-- `fetch_crack` and `execute`. ARM instructions and those of 32 bits are outside of the model. -/
def Scexec.step (prog : Prog M) (s : Scexec M) : Option (Scexec M) :=
  if s.core.state.rf LREG_TTYPE = 0 then none
  else
    let pc : BitVec 32 := s.core.state.pc.setWidth 32
    let insn := prog.get_code32 s.core.mem (pc &&& 0xFFFFFFFE)
    if thumb32 insn then none
    else
      (thumb16expand s.itblockVector insn pc).bind fun (rinst, itblockVector) =>
        ((uops prog).runSeq rinst s.core.resetNOPStatus).map fun core => ⟨core.advance, itblockVector⟩

end Esesc.Emul
