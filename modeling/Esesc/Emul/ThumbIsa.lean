import Mathlib.Data.Nat.BitIndices
import Mathlib.Logic.Function.Basic
import Esesc.Emul.Thumb16Crack

/-!
# The Thumb instruction set

What a 16-bit Thumb instruction is for: the registers, the flags, the mode, the state of the IT block and
the memory after it. Nothing here is taken from the cracker. The memory is the one that the program has.

* `decode`: the instruction that a word stands for.
* `exec`: one instruction, of which the condition holds.
* `step`: one instruction at the PC.
-/

namespace Esesc.Emul.Isa

/-- Registers; 13 is the stack pointer, 14 the link register and 15 the PC. -/
abbrev Reg := Fin 16

/-- The state that a program sees. -/
structure State (M : Type*) where
  r : Fin 15 → BitVec 32
  pc : BitVec 32
  n : Bool
  z : Bool
  c : Bool
  v : Bool
  thumb : Bool
  itstate : BitVec 8
  mem : M

namespace State

variable {M : Type*} (a : State M)

/-- The PC reads as the address of the instruction plus four. -/
def get (i : Reg) : BitVec 32 := if h : i.val < 15 then a.r ⟨i.val, h⟩ else a.pc + 4

/-- A write to the PC is a branch. -/
def set (i : Reg) (x : BitVec 32) : State M :=
  if h : i.val < 15 then { a with r := Function.update a.r ⟨i.val, h⟩ x } else { a with pc := x &&& 0xFFFFFFFE }

/-- On to the next instruction. -/
def next : State M := { a with pc := a.pc + 2 }

def setNZ (x : BitVec 32) : State M := { a with n := x.msb, z := x = 0 }

def setNZC (x : BitVec 32) (c : Bool) : State M := { a with n := x.msb, z := x = 0, c := c }

/-- The flags of an addition. -/
def addFlags (x y : BitVec 32) : State M :=
  { a with n := (x + y).msb, z := x + y = 0, c := x.uaddOverflow y, v := x.saddOverflow y }

/-- The flags of a subtraction; the carry is set when nothing is borrowed. -/
def subFlags (x y : BitVec 32) : State M :=
  { a with n := (x - y).msb, z := x - y = 0, c := !x.usubOverflow y, v := x.ssubOverflow y }

/-- A branch that takes the mode from bit 0 of its target. -/
def exchange (x : BitVec 32) : State M := { a with pc := x &&& 0xFFFFFFFE, thumb := x.getLsbD 0 }

end State

/-! ## IT blocks -/

section

variable {M : Type*} (a : State M)

def State.inIT : Bool := a.itstate &&& 0xF ≠ 0

/-- The condition of the next instruction. -/
def State.cond : BitVec 4 := if a.inIT then (a.itstate >>> 4).setWidth 4 else 14

/-- `ConditionPassed`, of the four flags. -/
def condition (cond : BitVec 4) (n z c v : Bool) : Bool :=
  let result := match (cond >>> 1).toNat with
    | 0 => z
    | 1 => c
    | 2 => n
    | 3 => v
    | 4 => c && !z
    | 5 => n == v
    | 6 => n == v && !z
    | _ => true
  if cond.getLsbD 0 && cond ≠ 15 then !result else result

def State.passed (cond : BitVec 4) : Bool := condition cond a.n a.z a.c a.v

/-- `ITAdvance`. -/
def itAdvance (itstate : BitVec 8) : BitVec 8 :=
  if itstate &&& 0x7 = 0 then 0 else itstate &&& 0xE0 ||| (itstate <<< 1) &&& 0x1F

end

/-! ## Instructions -/

inductive Operand
  | reg (m : Reg)
  | imm (x : BitVec 32)

inductive ShiftOp
  | LSL
  | LSR
  | ASR
  | ROR
  deriving DecidableEq

/-- Data processing, of which the first operand is also the destination. -/
inductive DpOp
  | AND
  | EOR
  | shift (op : ShiftOp)
  | ADC
  | SBC
  | TST
  | RSB
  | CMN
  | ORR
  | MUL
  | BIC
  | MVN
  deriving DecidableEq

inductive Access
  | STR
  | STRH
  | STRB
  | LDRSB
  | LDR
  | LDRH
  | LDRB
  | LDRSH
  deriving DecidableEq

inductive Extend
  | SXTH
  | SXTB
  | UXTH
  | UXTB
  | REV
  | REV16
  | REVSH
  deriving DecidableEq

inductive Instr
  | shiftImm (op : ShiftOp) (d m : Reg) (imm : ℕ)
  | addSub (sub : Bool) (d n : Reg) (y : Operand)
  | movImm (d : Reg) (imm : BitVec 32)
  | cmp (n : Reg) (y : Operand)
  | dp (op : DpOp) (d m : Reg)
  | addReg (d m : Reg)
  | movReg (d m : Reg)
  | bx (m : Reg)
  | blx (m : Reg)
  | ldrLiteral (t : Reg) (imm : BitVec 32)
  | access (op : Access) (t n : Reg) (y : Operand)
  | adr (d : Reg) (imm : BitVec 32)
  | addSp (d : Reg) (imm : BitVec 32)
  | adjustSp (sub : Bool) (imm : BitVec 32)
  | cbz (nonzero : Bool) (n : Reg) (imm : BitVec 32)
  | extend (op : Extend) (d m : Reg)
  | push (list : BitVec 16)
  | pop (list : BitVec 16)
  | stm (n : Reg) (list : BitVec 8)
  | ldm (n : Reg) (list : BitVec 8)
  | it (itstate : BitVec 8)
  | nop
  | bcond (c : BitVec 4) (offset : BitVec 32)
  | b (offset : BitVec 32)

/-! ## Encodings -/

section

variable (insn : BitVec 32)

/-- A register number of three bits. -/
def lo (k : ℕ) : Reg := ⟨(insn >>> k).toNat % 8, by omega⟩

/-- Bits 6 to 3. -/
def hiM : Reg := ⟨(insn >>> 3).toNat % 16, by omega⟩

/-- Bit 7 and bits 2 to 0. -/
def hiD : Reg := ⟨(insn >>> 7).toNat % 2 * 8 + insn.toNat % 8, by omega⟩

/-- `n` bits from bit `k` on. -/
def field (k n : ℕ) : BitVec 32 := (insn.extractLsb' k n).setWidth 32

/-- Shift, add, subtract, move and compare. -/
def decodeShift : Instr :=
  let b := insn.getLsbD
  let y := if b 10 then .imm (field insn 6 3) else .reg (lo insn 6)
  match b 13, b 12, b 11 with
  | false, false, false => .shiftImm .LSL (lo insn 0) (lo insn 3) (field insn 6 5).toNat
  | false, false, true => .shiftImm .LSR (lo insn 0) (lo insn 3) (field insn 6 5).toNat
  | false, true, false => .shiftImm .ASR (lo insn 0) (lo insn 3) (field insn 6 5).toNat
  | false, true, true => .addSub (b 9) (lo insn 0) (lo insn 3) y
  | true, false, false => .movImm (lo insn 8) (field insn 0 8)
  | true, false, true => .cmp (lo insn 8) (.imm (field insn 0 8))
  | true, true, sub => .addSub sub (lo insn 8) (lo insn 8) (.imm (field insn 0 8))

def decodeDp : Instr :=
  let d := lo insn 0
  let m := lo insn 3
  match (field insn 6 4).toNat with
  | 0 => .dp .AND d m
  | 1 => .dp .EOR d m
  | 2 => .dp (.shift .LSL) d m
  | 3 => .dp (.shift .LSR) d m
  | 4 => .dp (.shift .ASR) d m
  | 5 => .dp .ADC d m
  | 6 => .dp .SBC d m
  | 7 => .dp (.shift .ROR) d m
  | 8 => .dp .TST d m
  | 9 => .dp .RSB d m
  | 10 => .cmp d (.reg m)
  | 11 => .dp .CMN d m
  | 12 => .dp .ORR d m
  | 13 => .dp .MUL d m
  | 14 => .dp .BIC d m
  | _ => .dp .MVN d m

def decodeSpecial : Option Instr :=
  let d := hiD insn
  let m := hiM insn
  match (field insn 6 4).toNat with
  | 0 | 1 | 2 | 3 => some (.addReg d m)
  | 4 => none
  | 5 | 6 | 7 => some (.cmp d (.reg m))
  | 8 | 9 | 10 | 11 => some (.movReg d m)
  | 12 | 13 => some (.bx m)
  | _ => some (.blx m)

def accessOf : ℕ → Access
  | 0 => .STR
  | 1 => .STRH
  | 2 => .STRB
  | 3 => .LDRSB
  | 4 => .LDR
  | 5 => .LDRH
  | 6 => .LDRB
  | _ => .LDRSH

def decodeMisc : Option Instr :=
  let b := insn.getLsbD
  let d := lo insn 0
  let m := lo insn 3
  let list := (insn.extractLsb' 0 8).setWidth 16
  match b 11, b 10, b 9, b 8 with
  | false, false, false, false => some (.adjustSp (b 7) (field insn 0 7 <<< 2))
  | nonzero, false, i, true =>
    some (.cbz nonzero d ((if i then 64 else 0 : BitVec 32) + field insn 3 5 <<< 1))
  | false, false, true, false =>
    some (.extend (match b 7, b 6 with
      | false, false => .SXTH
      | false, true => .SXTB
      | true, false => .UXTH
      | true, true => .UXTB) d m)
  | false, true, false, lr => some (.push (if lr then list ||| 0x4000 else list))
  | true, false, true, false =>
    match b 7, b 6 with
    | false, false => some (.extend .REV d m)
    | false, true => some (.extend .REV16 d m)
    | true, false => none
    | true, true => some (.extend .REVSH d m)
  | true, true, false, pc => some (.pop (if pc then list ||| 0x8000 else list))
  | true, true, true, true => if field insn 0 4 = 0 then some .nop else some (.it (insn.extractLsb' 0 8))
  | _, _, _, _ => none

/-- The instruction that a word stands for, where it is one that a program may run outside of an operating
system. -/
def decode : Option Instr :=
  let b := insn.getLsbD
  match b 15, b 14, b 13, b 12, b 11 with
  | false, false, _, _, _ => some (decodeShift insn)
  | false, true, false, false, false => if b 10 then decodeSpecial insn else some (decodeDp insn)
  | false, true, false, false, true => some (.ldrLiteral (lo insn 8) (field insn 0 8 <<< 2))
  | false, true, false, true, _ =>
    some (.access (accessOf (field insn 9 3).toNat) (lo insn 0) (lo insn 3) (.reg (lo insn 6)))
  | false, true, true, byte, load =>
    let imm := field insn 6 5
    some (.access (match byte, load with
      | false, false => .STR
      | false, true => .LDR
      | true, false => .STRB
      | true, true => .LDRB) (lo insn 0) (lo insn 3) (.imm (if byte then imm else imm <<< 2)))
  | true, false, false, false, load =>
    some (.access (if load then .LDRH else .STRH) (lo insn 0) (lo insn 3) (.imm (field insn 6 5 <<< 1)))
  | true, false, false, true, load =>
    some (.access (if load then .LDR else .STR) (lo insn 8) 13 (.imm (field insn 0 8 <<< 2)))
  | true, false, true, false, false => some (.adr (lo insn 8) (field insn 0 8 <<< 2))
  | true, false, true, false, true => some (.addSp (lo insn 8) (field insn 0 8 <<< 2))
  | true, false, true, true, _ => decodeMisc insn
  | true, true, false, false, false => some (.stm (lo insn 8) (insn.extractLsb' 0 8))
  | true, true, false, false, true => some (.ldm (lo insn 8) (insn.extractLsb' 0 8))
  | true, true, false, true, _ =>
    if (field insn 8 4).toNat < 14 then some (.bcond (insn.extractLsb' 8 4) ((insn.extractLsb' 0 8).signExtend 32 <<< 1))
    else none
  | true, true, true, false, false => some (.b ((insn.extractLsb' 0 11).signExtend 32 <<< 1))
  | true, true, true, _, _ => none

end

/-! ## Values -/

/-- A shift with its carry, which stays when nothing is shifted out. -/
def shiftC (op : ShiftOp) (x : BitVec 32) (n : ℕ) (carry : Bool) : BitVec 32 × Bool :=
  if n = 0 then (x, carry)
  else match op with
    | .LSL => (x <<< n, decide (n ≤ 32) && x.getLsbD (32 - n))
    | .LSR => (x >>> n, x.getLsbD (n - 1))
    | .ASR => (x.sshiftRight n, x.getLsbD (min n 32 - 1))
    | .ROR => (x.rotateRight n, (x.rotateRight n).msb)

def bytes (x : BitVec 32) (k : ℕ) : BitVec 8 := x.extractLsb' (8 * k) 8

def Extend.ap (x : BitVec 32) : Extend → BitVec 32
  | .SXTH => (x.setWidth 16).signExtend 32
  | .SXTB => (x.setWidth 8).signExtend 32
  | .UXTH => (x.setWidth 16).setWidth 32
  | .UXTB => (x.setWidth 8).setWidth 32
  | .REV => bytes x 0 ++ bytes x 1 ++ bytes x 2 ++ bytes x 3
  | .REV16 => bytes x 2 ++ bytes x 3 ++ bytes x 0 ++ bytes x 1
  | .REVSH => (bytes x 0 ++ bytes x 1).signExtend 32

section

variable {M : Type*} (prog : Prog M) (a : State M)

def Operand.val : Operand → BitVec 32
  | .reg m => a.get m
  | .imm x => x

/-- Outside of an IT block an instruction sets the flags. -/
def State.ifFlags (f : State M → State M) (s : State M) : State M := if a.inIT then s else f s

/-- Data processing: the result and the flags. -/
def execDp (op : DpOp) (d m : Reg) : State M :=
  let x := a.get d
  let y := a.get m
  let carry := (BitVec.ofBool a.c).setWidth 32
  let logical (res : BitVec 32) := a.ifFlags (fun s => s.setNZ res) (a.next.set d res)
  match op with
  | .AND => logical (x &&& y)
  | .EOR => logical (x ^^^ y)
  | .shift op =>
    let res := shiftC op x (y.setWidth 8).toNat a.c
    a.ifFlags (fun s => s.setNZC res.1 res.2) (a.next.set d res.1)
  | .ADC => a.ifFlags (fun s =>
      { s.setNZC (x + y + carry) (2 ^ 32 ≤ x.toNat + y.toNat + a.c.toNat) with
        v := !decide ((x + y + carry).toInt = x.toInt + y.toInt + a.c.toNat) }) (a.next.set d (x + y + carry))
  | .SBC => a.ifFlags (fun s =>
      { s.setNZC (x - y - 1 + carry) (y.toNat + 1 ≤ x.toNat + a.c.toNat) with
        v := !decide ((x - y - 1 + carry).toInt = x.toInt - y.toInt - 1 + a.c.toNat) })
      (a.next.set d (x - y - 1 + carry))
  | .TST => a.next.setNZ (x &&& y)
  | .RSB => a.ifFlags (fun s => s.subFlags 0 y) (a.next.set d (0 - y))
  | .CMN => a.next.addFlags x y
  | .ORR => logical (x ||| y)
  | .MUL => logical (x * y)
  | .BIC => logical (x &&& ~~~y)
  | .MVN => logical (~~~y)

/-- A word in the memory. Bit 0 of the address does not count. -/
def wordAt (m : M) (addr : BitVec 32) : BitVec 32 := prog.ldu32 m (addr &&& 0xFFFFFFFE)

def putWord (m : M) (addr x : BitVec 32) : M := prog.st32 m (addr &&& 0xFFFFFFFE) x

def execAccess (op : Access) (t : Reg) (addr : BitVec 32) : State M :=
  match op with
  | .STR => { a.next with mem := putWord prog a.mem addr (a.get t) }
  | .STRH => { a.next with mem := prog.st16 a.mem addr ((a.get t).setWidth 16) }
  | .STRB => { a.next with mem := prog.st08 a.mem addr ((a.get t).setWidth 8) }
  | .LDRSB => a.next.set t ((prog.lds08 a.mem addr).signExtend 32)
  | .LDR => a.next.set t (wordAt prog a.mem addr)
  | .LDRH => a.next.set t ((prog.ldu16 a.mem addr).setWidth 32)
  | .LDRB => a.next.set t ((prog.ldu08 a.mem addr).setWidth 32)
  | .LDRSH => a.next.set t ((prog.lds16 a.mem addr).signExtend 32)

/-! ## Lists of registers -/

/-- The registers of a list, from the lowest. -/
def regsOf {w : ℕ} (list : BitVec w) : List ℕ := list.toNat.bitIndices

/-- Registers stored to words that follow one another. -/
def storeRegs (get : ℕ → BitVec 32) : List ℕ → BitVec 32 → M → M
  | [], _, m => m
  | i :: is, addr, m => storeRegs get is (addr + 4) (putWord prog m addr (get i))

/-- Registers loaded from them. -/
def loadRegs : List ℕ → BitVec 32 → State M → State M
  | [], _, s => s
  | i :: is, addr, s => loadRegs is (addr + 4) (s.set (Fin.ofNat 16 i) (wordAt prog s.mem addr))

def getNat (i : ℕ) : BitVec 32 := a.get (Fin.ofNat 16 i)

/-- The bytes that a list takes. -/
def listBytes {w : ℕ} (list : BitVec w) : BitVec 32 := BitVec.ofNat 32 (4 * (regsOf list).length)

/-- One instruction. -/
def exec (i : Instr) : State M :=
  match i with
  | .shiftImm op d m imm =>
    -- the amount 0 stands for 32, but not of `LSL`
    let n := if op ≠ .LSL ∧ imm = 0 then 32 else imm
    let res := shiftC op (a.get m) n a.c
    a.ifFlags (fun s => s.setNZC res.1 res.2) (a.next.set d res.1)
  | .addSub false d n y => a.ifFlags (fun s => s.addFlags (a.get n) (y.val a)) (a.next.set d (a.get n + y.val a))
  | .addSub true d n y => a.ifFlags (fun s => s.subFlags (a.get n) (y.val a)) (a.next.set d (a.get n - y.val a))
  | .movImm d imm => a.ifFlags (fun s => s.setNZ imm) (a.next.set d imm)
  | .cmp n y => a.next.subFlags (a.get n) (y.val a)
  | .dp op d m => execDp a op d m
  | .addReg d m => a.next.set d (a.get d + a.get m)
  | .movReg d m => a.next.set d (a.get m)
  | .bx m => a.exchange (a.get m)
  | .blx m => (a.set 14 ((a.pc + 2) ||| 1)).exchange (a.get m)
  | .ldrLiteral t imm => a.next.set t (wordAt prog a.mem (((a.pc + 4) &&& 0xFFFFFFFC) + imm))
  | .access op t n y => execAccess prog a op t (a.get n + y.val a)
  | .adr d imm => a.next.set d (((a.pc + 4) &&& 0xFFFFFFFC) + imm)
  | .addSp d imm => a.next.set d (a.get 13 + imm)
  | .adjustSp sub imm => a.next.set 13 (if sub then a.get 13 - imm else a.get 13 + imm)
  | .cbz nonzero n imm => if (a.get n = 0) = (nonzero = false) then a.set 15 (a.pc + 4 + imm) else a.next
  | .extend op d m => a.next.set d (op.ap (a.get m))
  | .push list =>
    let base := a.get 13 - listBytes list
    { a.next.set 13 base with mem := storeRegs prog (getNat a) (regsOf list) base a.mem }
  | .pop list =>
    let s := (loadRegs prog (regsOf (list.setWidth 15)) (a.get 13) a.next).set 13 (a.get 13 + listBytes list)
    if list.getLsbD 15 then s.exchange (wordAt prog a.mem (a.get 13 + listBytes (list.setWidth 15))) else s
  | .stm n list =>
    { a.next.set n (a.get n + listBytes list) with mem := storeRegs prog (getNat a) (regsOf list) (a.get n) a.mem }
  | .ldm n list =>
    let s := loadRegs prog (regsOf list) (a.get n) a.next
    if list.getLsbD n.val then s else s.set n (a.get n + listBytes list)
  | .it itstate => { a.next with itstate := itstate }
  | .bcond c offset => if a.passed c then a.set 15 (a.pc + 4 + offset) else a.next
  | .b offset => a.set 15 (a.pc + 4 + offset)
  | .nop => a.next

end

/-- One step of the processor: the instruction at the PC, if its condition holds. In an IT block the next
condition follows. -/
def step {M : Type*} (prog : Prog M) (a : State M) (i : Instr) : State M :=
  let s := if a.passed a.cond then exec prog a i else a.next
  match i with
  | .it _ => s
  | _ => { s with itstate := itAdvance a.itstate }

end Esesc.Emul.Isa
