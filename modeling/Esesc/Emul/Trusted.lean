import Esesc.Emul.CrackSound

/-!
# Flags that can be trusted

Not all flags are right after every cracked instruction. Which ones are is known before a program runs: an
instruction reads some flags, sets others, and leaves the rest.

* `needs`, `defines`, `sureAfter`: the flags that an instruction reads and sets, and those that are right after it.
* `Agree.exec`: states that agree on the flags it reads agree after it.
* `Agree.trans`: what is known of two steps together.
-/

namespace Esesc.Emul

open Esesc.Lib Isa

variable {M : Type*} {prog : Prog M} {s t : Sure} {a b e : State M}

/-! ## Sets of flags -/

namespace Sure

/-- The flags of `s` are among those of `t`. -/
structure Le (s t : Sure) : Prop where
  n : s.n = true → t.n = true
  z : s.z = true → t.z = true
  c : s.c = true → t.c = true
  v : s.v = true → t.v = true

def or (s t : Sure) : Sure := ⟨s.n || t.n, s.z || t.z, s.c || t.c, s.v || t.v⟩

def and (s t : Sure) : Sure := ⟨s.n && t.n, s.z && t.z, s.c && t.c, s.v && t.v⟩

instance : Decidable (Le s t) :=
  decidable_of_iff ((s.n = true → t.n = true) ∧ (s.z = true → t.z = true) ∧ (s.c = true → t.c = true) ∧
      (s.v = true → t.v = true))
    ⟨fun h => ⟨h.1, h.2.1, h.2.2.1, h.2.2.2⟩, fun h => ⟨h.n, h.z, h.c, h.v⟩⟩

theorem Le.refl (s : Sure) : Le s s := ⟨id, id, id, id⟩

theorem Le.trans {u : Sure} (h : Le s t) (h' : Le t u) : Le s u :=
  ⟨h'.n ∘ h.n, h'.z ∘ h.z, h'.c ∘ h.c, h'.v ∘ h.v⟩

theorem le_or_left : Le s (s.or t) := by
  constructor <;> intro h <;> simp [or, h]

theorem le_or_right : Le t (s.or t) := by
  constructor <;> intro h <;> simp [or, h]

theorem or_le {u : Sure} (h : Le s u) (h' : Le t u) : Le (s.or t) u := by
  constructor <;> intro hor <;> simp only [or, Bool.or_eq_true] at hor
  · exact hor.elim h.n h'.n
  · exact hor.elim h.z h'.z
  · exact hor.elim h.c h'.c
  · exact hor.elim h.v h'.v

end Sure

/-! ## What an instruction reads and sets -/

/-- The flags of a condition. -/
def flagsOf (cond : BitVec 4) : Sure :=
  match (cond >>> 1).toNat with
  -- in pairs: EQ and NE, CS and CC, MI and PL, VS and VC, HI and LS, GE and LT, GT and LE
  | 0 => ⟨false, true, false, false⟩
  | 1 => ⟨false, false, true, false⟩
  | 2 => ⟨true, false, false, false⟩
  | 3 => ⟨false, false, false, true⟩
  | 4 => ⟨false, true, true, false⟩
  | 5 => ⟨true, false, false, true⟩
  | 6 => ⟨true, true, false, true⟩
  | _ => .no

/-- The flags that an instruction computes with. -/
def reads : Instr → Sure
  | .bcond cond _ => flagsOf cond
  | .dp .ADC _ _ | .dp .SBC _ _ => ⟨false, false, true, false⟩
  | _ => .no

def needs (cond : Option CondCode) (i : Instr) : Sure :=
  (match cond with
    | some k => flagsOf (BitVec.ofNat 4 k.val)
    | none => .no).or (reads i)

/-- The flags that an instruction outside of an IT block sets, whatever they were. -/
def defines : Instr → Sure
  -- a shift leaves the overflow flag, and `LSL` by zero the carry too
  | .shiftImm op _ _ imm => if op = .LSL ∧ imm = 0 then .nz else ⟨true, true, true, false⟩
  | .addSub _ _ _ _ | .cmp _ _ | .dp .CMN _ _ => .exact
  | .movImm _ _ | .dp .TST _ _ => .nz
  | _ => .no

/-- The flags that are right after an instruction. -/
def sureAfter (s : Sure) (cond : Option CondCode) (i : Instr) : Sure :=
  (sure cond i).and (if cond.isSome then s else s.or (defines i))

/-! ## Agreement -/

namespace Agree

theorem mono (h : Agree t b e) (hs : s.Le t) : Agree s b e :=
  ⟨h.r, h.pc, h.thumb, h.itstate, h.mem, h.n ∘ hs.n, h.z ∘ hs.z, h.c ∘ hs.c, h.v ∘ hs.v⟩

theorem trans (h : Agree s a b) (h' : Agree t b e) : Agree (s.and t) a e where
  r := h.r.trans h'.r
  pc := h.pc.trans h'.pc
  thumb := h.thumb.trans h'.thumb
  itstate := h.itstate.trans h'.itstate
  mem := h.mem.trans h'.mem
  n hn := by
    simp only [Sure.and, Bool.and_eq_true] at hn
    exact (h.n hn.1).trans (h'.n hn.2)
  z hz := by
    simp only [Sure.and, Bool.and_eq_true] at hz
    exact (h.z hz.1).trans (h'.z hz.2)
  c hc := by
    simp only [Sure.and, Bool.and_eq_true] at hc
    exact (h.c hc.1).trans (h'.c hc.2)
  v hv := by
    simp only [Sure.and, Bool.and_eq_true] at hv
    exact (h.v hv.1).trans (h'.v hv.2)

section

variable (h : Agree s b e)

include h

theorem get (i : Reg) : b.get i = e.get i := by
  unfold State.get
  rw [h.r, h.pc]

theorem getNat : Isa.getNat b = Isa.getNat e := funext fun i => h.get (Fin.ofNat 16 i)

theorem operand (y : Operand) : y.val b = y.val e := by
  cases y with
  | reg m => exact h.get m
  | imm x => rfl

theorem next : Agree s b.next e.next :=
  ⟨h.r, congrArg (· + 2) h.pc, h.thumb, h.itstate, h.mem, h.n, h.z, h.c, h.v⟩

theorem set (i : Reg) (x : BitVec 32) : Agree s (b.set i x) (e.set i x) := by
  unfold State.set
  split
  · exact ⟨by rw [h.r], h.pc, h.thumb, h.itstate, h.mem, h.n, h.z, h.c, h.v⟩
  · exact ⟨h.r, rfl, h.thumb, h.itstate, h.mem, h.n, h.z, h.c, h.v⟩

theorem withMem (m : M) : Agree s { b with mem := m } { e with mem := m } :=
  ⟨h.r, h.pc, h.thumb, h.itstate, rfl, h.n, h.z, h.c, h.v⟩

theorem withIT (x : BitVec 8) : Agree s { b with itstate := x } { e with itstate := x } :=
  ⟨h.r, h.pc, h.thumb, rfl, h.mem, h.n, h.z, h.c, h.v⟩

theorem exchange (x : BitVec 32) : Agree s (b.exchange x) (e.exchange x) :=
  ⟨h.r, rfl, rfl, h.itstate, h.mem, h.n, h.z, h.c, h.v⟩

theorem loadRegs (is : List ℕ) (addr : BitVec 32) : Agree s (Isa.loadRegs prog is addr b) (Isa.loadRegs prog is addr e) := by
  induction is generalizing b e addr with
  | nil => exact h
  | cons i is ih =>
    rw [Isa.loadRegs, Isa.loadRegs, h.mem]
    exact ih (h.set _ _) (addr + 4)

/-- All flags are set. -/
theorem setAll {n z c v : Bool} : Agree (s.or .exact) { b with n := n, z := z, c := c, v := v }
    { e with n := n, z := z, c := c, v := v } :=
  ⟨h.r, h.pc, h.thumb, h.itstate, h.mem, fun _ => rfl, fun _ => rfl, fun _ => rfl, fun _ => rfl⟩

/-- The overflow flag stays. -/
theorem setThree (x : BitVec 32) (cb : Bool) : Agree (s.or ⟨true, true, true, false⟩) (b.setNZC x cb) (e.setNZC x cb) := by
  refine ⟨h.r, h.pc, h.thumb, h.itstate, h.mem, fun _ => rfl, fun _ => rfl, fun _ => rfl, fun hv => ?_⟩
  simp only [Sure.or, Bool.or_false] at hv
  exact h.v hv

/-- The carry and the overflow flag stay. -/
theorem setTwo (x : BitVec 32) : Agree (s.or .nz) (b.setNZ x) (e.setNZ x) := by
  refine ⟨h.r, h.pc, h.thumb, h.itstate, h.mem, fun _ => rfl, fun _ => rfl, fun hc => ?_, fun hv => ?_⟩
  · simp only [Sure.or, Sure.nz, Bool.or_false] at hc
    exact h.c hc
  · simp only [Sure.or, Sure.nz, Bool.or_false] at hv
    exact h.v hv

theorem passed {cond : BitVec 4} (hneeds : (flagsOf cond).Le s) : b.passed cond = e.passed cond := by
  have hn := fun hf => h.n (hneeds.n hf)
  have hz := fun hf => h.z (hneeds.z hf)
  have hc := fun hf => h.c (hneeds.c hf)
  have hv := fun hf => h.v (hneeds.v hf)
  unfold flagsOf at hn hz hc hv
  unfold State.passed condition
  generalize (cond >>> 1).toNat = k at hn hz hc hv ⊢
  match k with
  | 0 => simp only [hz rfl]
  | 1 => simp only [hc rfl]
  | 2 => simp only [hn rfl]
  | 3 => simp only [hv rfl]
  | 4 => simp only [hz rfl, hc rfl]
  | 5 => simp only [hn rfl, hv rfl]
  | 6 => simp only [hn rfl, hz rfl, hv rfl]
  | k + 7 => rfl

end

/-- An instruction that sets no flag. -/
theorem keep {it : Bool} (h : Agree s b e) : Agree (if it then s else s.or .no) b e := by
  refine h.mono ?_
  split
  · exact Sure.Le.refl s
  · exact Sure.or_le (Sure.Le.refl s) ⟨nofun, nofun, nofun, nofun⟩

/-- One that sets them, in an IT block too. -/
theorem always {it : Bool} (h : Agree (s.or t) b e) : Agree (if it then s else s.or t) b e := by
  refine h.mono ?_
  split
  · exact Sure.le_or_left
  · exact Sure.Le.refl _

/-- One that sets them outside of an IT block. -/
theorem ifFlags {a a' : State M} {f g : State M → State M} (hIT : a.itstate = a'.itstate) (h : Agree s b e)
    (hf : Agree (s.or t) (f b) (g e)) : Agree (if a.inIT then s else s.or t) (a.ifFlags f b) (a'.ifFlags g e) := by
  have hin : a'.inIT = a.inIT := by
    unfold State.inIT
    rw [hIT]
  unfold State.ifFlags
  rw [hin]
  split
  · exact h
  · exact hf

theorem noMore (h : Agree (s.or t) b e) : Agree (s.or .no) b e :=
  h.mono (Sure.or_le Sure.le_or_left ⟨nofun, nofun, nofun, nofun⟩)

/-- A carry that is as sure as it was. -/
theorem setCarry {c c' : Bool} (h : Agree s b e) (hc : s.c = true → c = c') (x : BitVec 32) :
    Agree (s.or .nz) (b.setNZC x c) (e.setNZC x c') := by
  refine ⟨h.r, h.pc, h.thumb, h.itstate, h.mem, fun _ => rfl, fun _ => rfl, fun hor => ?_, fun hor => ?_⟩
  · simp only [Sure.or, Sure.nz, Bool.or_false] at hor
    exact hc hor
  · simp only [Sure.or, Sure.nz, Bool.or_false] at hor
    exact h.v hor

end Agree

/-! ## An instruction in two states -/

theorem shiftC_fst (op : ShiftOp) (x : BitVec 32) (n : ℕ) (carry carry' : Bool) :
    (shiftC op x n carry).1 = (shiftC op x n carry').1 := by
  unfold shiftC
  split
  · rfl
  · cases op <;> rfl

theorem shiftC_snd (op : ShiftOp) (x : BitVec 32) {n : ℕ} (hn : n ≠ 0) (carry carry' : Bool) :
    (shiftC op x n carry).2 = (shiftC op x n carry').2 := by
  unfold shiftC
  rw [if_neg hn, if_neg hn]

namespace Agree

variable (h : Agree s b e)

include h

theorem shiftImm (op : ShiftOp) (d m : Reg) (imm : ℕ) :
    Agree (if b.inIT then s else s.or (defines (.shiftImm op d m imm))) (exec prog b (.shiftImm op d m imm))
      (exec prog e (.shiftImm op d m imm)) := by
  dsimp only [Isa.exec]
  generalize hn : (if op ≠ .LSL ∧ imm = 0 then 32 else imm) = n
  rw [← h.get m, shiftC_fst op (b.get m) n e.c b.c]
  refine ifFlags h.itstate (h.next.set d _) ?_
  rw [show defines (.shiftImm op d m imm) = if op = .LSL ∧ imm = 0 then .nz else ⟨true, true, true, false⟩ from rfl]
  split
  · rename_i hzero
    refine (h.next.set d _).setCarry (fun hc => ?_) _
    rw [h.c hc]
  · rename_i hzero
    have hn0 : n ≠ 0 := by
      rintro rfl
      split at hn
      · exact absurd hn (by decide)
      · rename_i hop
        exact hzero ⟨by_contra fun hLSL => hop ⟨hLSL, hn⟩, hn⟩
    rw [shiftC_snd op (b.get m) hn0 e.c b.c]
    exact (h.next.set d _).setThree _ _

theorem dp (op : DpOp) (d m : Reg) (hneeds : (reads (.dp op d m)).Le s) :
    Agree (if b.inIT then s else s.or (defines (.dp op d m))) (execDp b op d m) (execDp e op d m) := by
  have hlogical (x : BitVec 32) : Agree (if b.inIT then s else s.or .no) (b.ifFlags (fun s => s.setNZ x) (b.next.set d x))
      (e.ifFlags (fun s => s.setNZ x) (e.next.set d x)) :=
    ifFlags h.itstate (h.next.set d x) (((h.next.set d x).setTwo x).mono
      (Sure.or_le Sure.le_or_left ⟨nofun, nofun, nofun, nofun⟩))
  dsimp only [execDp]
  rw [← h.get d, ← h.get m]
  cases op with
  | AND => exact hlogical _
  | EOR => exact hlogical _
  | shift op =>
    dsimp only
    rw [shiftC_fst op (b.get d) _ e.c b.c]
    refine ifFlags h.itstate (h.next.set d _) ((h.next.set d _).setCarry (fun hc => ?_) _).noMore
    rw [h.c hc]
  | ADC =>
    have hc : b.c = e.c := h.c (hneeds.c rfl)
    rw [hc]
    exact ifFlags h.itstate (h.next.set d _) (h.next.set d _).setAll.noMore
  | SBC =>
    have hc : b.c = e.c := h.c (hneeds.c rfl)
    rw [hc]
    exact ifFlags h.itstate (h.next.set d _) (h.next.set d _).setAll.noMore
  | TST => exact (h.next.setTwo _).always
  | RSB => exact ifFlags h.itstate (h.next.set d _) (h.next.set d _).setAll.noMore
  | CMN => exact h.next.setAll.always
  | ORR => exact hlogical _
  | MUL => exact hlogical _
  | BIC => exact hlogical _
  | MVN => exact hlogical _

theorem access (op : Access) (t : Reg) (addr : BitVec 32) :
    Agree s (execAccess prog b op t addr) (execAccess prog e op t addr) := by
  unfold execAccess
  cases op <;> dsimp only <;> rw [← h.mem]
  all_goals first | exact h.next.set t _ | rw [← h.get t]; exact h.next.withMem _

/-- **States that agree on the flags it reads** agree after an instruction, and also on those it sets. -/
theorem exec (i : Instr) (hneeds : (reads i).Le s) :
    Agree (if b.inIT then s else s.or (defines i)) (Isa.exec prog b i) (Isa.exec prog e i) := by
  cases i with
  | shiftImm op d m imm => exact h.shiftImm op d m imm
  | addSub sub d n y =>
    have hx := h.get n
    have hy := h.operand y
    cases sub <;> dsimp only [Isa.exec] <;> rw [← hx, ← hy] <;>
      exact ifFlags h.itstate (h.next.set d _) (h.next.set d _).setAll
  | movImm d imm =>
    have hset := h.next.set d imm
    exact ifFlags (f := fun s => s.setNZ imm) (g := fun s => s.setNZ imm) h.itstate hset (hset.setTwo imm)
  | cmp n y =>
    dsimp only [Isa.exec]
    rw [← h.get n, ← h.operand y]
    exact h.next.setAll.always
  | dp op d m => exact h.dp op d m hneeds
  | addReg d m =>
    dsimp only [Isa.exec]
    rw [← h.get d, ← h.get m]
    exact (h.next.set d _).keep
  | movReg d m =>
    dsimp only [Isa.exec]
    rw [← h.get m]
    exact (h.next.set d _).keep
  | bx m =>
    dsimp only [Isa.exec]
    rw [← h.get m]
    exact (h.exchange _).keep
  | blx m =>
    dsimp only [Isa.exec]
    rw [← h.get m, ← h.pc]
    exact ((h.set 14 _).exchange _).keep
  | ldrLiteral t imm =>
    dsimp only [Isa.exec]
    rw [← h.mem, ← h.pc]
    exact (h.next.set t _).keep
  | access op t n y =>
    dsimp only [Isa.exec]
    rw [← h.get n, ← h.operand y]
    exact (h.access op t _).keep
  | adr d imm =>
    dsimp only [Isa.exec]
    rw [← h.pc]
    exact (h.next.set d _).keep
  | addSp d imm =>
    dsimp only [Isa.exec]
    rw [← h.get 13]
    exact (h.next.set d _).keep
  | adjustSp sub imm =>
    dsimp only [Isa.exec]
    rw [← h.get 13]
    exact (h.next.set 13 _).keep
  | cbz nonzero n imm =>
    dsimp only [Isa.exec]
    rw [← h.get n, ← h.pc]
    by_cases hz : (b.get n = 0) = (nonzero = false)
    · rw [if_pos hz, if_pos hz]
      exact (h.set 15 _).keep
    · rw [if_neg hz, if_neg hz]
      exact h.next.keep
  | extend op d m =>
    dsimp only [Isa.exec]
    rw [← h.get m]
    exact (h.next.set d _).keep
  | push list =>
    dsimp only [Isa.exec]
    rw [← h.get 13, ← h.getNat, ← h.mem]
    exact ((h.next.set 13 _).withMem _).keep
  | pop list =>
    dsimp only [Isa.exec]
    rw [← h.get 13, ← h.mem]
    have hload : Agree s (Isa.loadRegs prog (regsOf (list.setWidth 15)) (b.get 13) b.next) _ := h.next.loadRegs _ _
    have hs := hload.set 13 (b.get 13 + listBytes list)
    by_cases hpc : list.getLsbD 15 = true
    · rw [if_pos hpc, if_pos hpc]
      exact (hs.exchange _).keep
    · rw [if_neg hpc, if_neg hpc]
      exact hs.keep
  | stm n list =>
    dsimp only [Isa.exec]
    rw [← h.get n, ← h.getNat, ← h.mem]
    exact ((h.next.set n _).withMem _).keep
  | ldm n list =>
    dsimp only [Isa.exec]
    rw [← h.get n]
    have hs : Agree s (Isa.loadRegs prog (regsOf list) (b.get n) b.next) _ := h.next.loadRegs (regsOf list) (b.get n)
    by_cases hn : list.getLsbD n.val = true
    · rw [if_pos hn, if_pos hn]
      exact hs.keep
    · rw [if_neg hn, if_neg hn]
      exact (hs.set n _).keep
  | it itstate => exact (h.next.withIT itstate).keep
  | nop => exact h.next.keep
  | bcond cond offset =>
    have hpassed : b.passed cond = e.passed cond := h.passed hneeds
    dsimp only [Isa.exec]
    rw [← hpassed, ← h.pc]
    by_cases hb : b.passed cond = true
    · rw [if_pos hb, if_pos hb]
      exact (h.set 15 _).keep
    · rw [if_neg hb, if_neg hb]
      exact h.next.keep
  | b offset =>
    dsimp only [Isa.exec]
    rw [← h.pc]
    exact (h.set 15 _).keep

theorem holds {k : CondCode} (hneeds : (flagsOf (BitVec.ofNat 4 k.val)).Le s) : Emul.holds b k = Emul.holds e k :=
  h.passed hneeds

/-- The same under a condition. -/
theorem expected {cond : Option CondCode} {i : Instr} (hIT : b.inIT = cond.isSome) (hneeds : (needs cond i).Le s) :
    Agree (if cond.isSome then s else s.or (defines i)) (Emul.expected prog b cond i) (Emul.expected prog e cond i) := by
  have hexec : Agree (if cond.isSome then s else s.or (defines i)) (Isa.exec prog b i) (Isa.exec prog e i) :=
    hIT ▸ h.exec i (Sure.le_or_right.trans hneeds)
  cases cond with
  | none => exact hexec
  | some k =>
    have hk : Emul.holds b.next k = Emul.holds e.next k := h.next.holds (Sure.le_or_left.trans hneeds)
    show Agree s (if Emul.holds b.next k = true then Isa.exec prog b i else b.next)
      (if Emul.holds e.next k = true then Isa.exec prog e i else e.next)
    rw [hk]
    by_cases he : Emul.holds e.next k = true
    · rw [if_pos he, if_pos he]
      exact hexec
    · rw [if_neg he, if_neg he]
      exact h.next

end Agree

end Esesc.Emul
