import Mini8086.Instruction
import Mini8086.Machine.Alu
import Mini8086.Machine.Cpu
import Mini8086.Machine.Memory

/-!
# Operations

`Operation` is what an instruction tells the machine to do.  `Instruction.operation?` finds it from
the mnemonic and the operands; the bytes of the instruction play no part.  An instruction whose
operands do not suit its mnemonic has none: such an instruction is put together by hand, not
assembled.

`Operation.exec` carries an operation out on the processor and the memory (`State`).  It gives the
new state and where execution goes on (`Next`), or a `Fault`, and then there is no new state.
-/

namespace Mini8086

/-! ## what an instruction does -/

/-- Where a result can go. -/
inductive Place where
  | reg (r : Register)
  | mem (pointer : WordRegister)
  deriving DecidableEq, Repr

/-- Where a value can come from. -/
inductive Source where
  | reg (r : Register)
  | mem (pointer : WordRegister)
  | imm (value : Word)
  deriving DecidableEq, Repr

inductive Operation where
  | move (dst : Place) (src : Source)
  | alu (op : AluOp) (dst : Register) (src : Source)
  | unary (op : UnaryOp) (dst : Register)
  | multiply (src : Register)
  | divide (src : Register)
  | shift (d : Direction) (dst : Register)
  | clearCarry
  | nothing
  | halt
  | jump (c : Condition) (target : Option Address)
  | loop (target : Option Address)
  deriving DecidableEq, Repr

def Operand.place? : Operand → Option Place
  | .reg r => some (.reg r)
  | .indirect p => some (.mem p)
  | _ => none

def Operand.source? : Operand → Option Source
  | .reg r => some (.reg r)
  | .indirect p => some (.mem p)
  | .imm v => some (.imm v)
  | _ => none

/-- the operation of a branch with the given target -/
def Branch.operation (b : Branch) (target : Option Address) : Operation :=
  match b.condition? with
  | some c => .jump c target
  | none => .loop target

/-- The operation of an instruction.  The number of a shift does not matter, since only shifts by
one have an encoding. -/
def Instruction.operation? (i : Instruction) : Option Operation :=
  match i.mnemonic, i.operands with
  | .mov, [d, s] => do return .move (← d.place?) (← s.source?)
  | .alu op, [.reg d, s] => s.source?.map (.alu op d)
  | .unary op, [.reg r] => some (.unary op r)
  | .mul, [.reg r] => some (.multiply r)
  | .div, [.reg r] => some (.divide r)
  | .shift d, [.reg r, _] => some (.shift d r)
  | .clc, _ => some .clearCarry
  | .nop, _ => some .nothing
  | .hlt, _ => some .halt
  | .branch b, _ => some (b.operation i.target?)
  | _, _ => none

/-! ## the state it works on -/

structure State where
  cpu : Cpu := {}
  memory : Memory := .empty

namespace State

/-- the address that a pointer register holds -/
def pointee (s : State) (p : WordRegister) : Address := (s.cpu.registers.getWord p).toNat

/-- the value of a source at a width -/
def value (s : State) (w : Width) : Source → BitVec w.bits
  | .reg r => (s.cpu.get r).setWidth w.bits
  | .mem p => s.memory.fetch (s.pointee p) w
  | .imm v => v.setWidth w.bits

/-- a value put in its place -/
def put (s : State) (w : Width) (v : BitVec w.bits) : Place → State
  | .reg r => { s with cpu := s.cpu.set r (v.setWidth r.width.bits) }
  | .mem p => { s with memory := s.memory.store (s.pointee p) w v }

/-- a result put into a register, with the flags after it -/
def setResult (s : State) (r : Register) (v : BitVec r.width.bits) (f : Flags) : State :=
  { s with cpu := { s.cpu.set r v with flags := f } }

def setFlags (s : State) (f : Flags) : State := { s with cpu := { s.cpu with flags := f } }

end State

/-- the width of a move: that of its destination, else that of its source, else a word -/
def moveWidth : Place → Source → Width
  | .reg r, _ => r.width
  | .mem _, .reg r => r.width
  | .mem _, _ => .word

/-! ## carrying it out -/

/-- Why an instruction cannot be carried out. -/
inductive Fault where
  | divideByZero (address : Address)
  | divideOverflow (address : Address) (quotient : Nat)
  | invalidTarget (address target : Address)
  | noInstruction (address : Address)
  | malformed (address : Address)
  deriving DecidableEq, Repr

def Fault.message : Fault → String
  | .divideByZero a => s!"Divide by zero at {String.ofList (hexPadded 4 a)}"
  | .divideOverflow a q =>
    s!"Divide overflow at {String.ofList (hexPadded 4 a)}: " ++
      s!"quotient {String.ofList (hex q)} does not fit"
  | .invalidTarget a t =>
    s!"Invalid jump address {String.ofList (hexPadded 4 t)} at {String.ofList (hexPadded 4 a)}"
  | .noInstruction a => s!"No instruction at address {String.ofList (hexPadded 4 a)}"
  | .malformed a => s!"Malformed instruction at {String.ofList (hexPadded 4 a)}"

/-- Where execution goes on after an instruction. -/
inductive Next where
  | following
  | jump (index : Nat) (target : Address)
  | halt
  deriving DecidableEq, Repr

/-- the place in a program of the first instruction at an address -/
def indexOf? (code : List Instruction) (a : Address) : Option Nat :=
  code.findIdx? fun i => i.address == a

/-- the jump from the instruction at `a` to its target -/
def jumpTo (code : List Instruction) (a : Address) : Option Address → Except Fault Next
  | none => .error (.malformed a)
  | some t =>
    match indexOf? code t with
    | some k => .ok (.jump k t)
    | none => .error (.invalidTarget a t)

/-- quotient and remainder of a number of twice the width, if the quotient fits -/
def quotient {n : Nat} (a : Address) (dividend : BitVec (n + n)) (divisor : BitVec n) :
    Except Fault (BitVec n × BitVec n) :=
  if divisor = 0 then .error (.divideByZero a)
  else
    let q := dividend.toNat / divisor.toNat
    if 1 <<< n ≤ q then .error (.divideOverflow a q)
    else .ok (BitVec.ofNat n q, BitVec.ofNat n (dividend.toNat % divisor.toNat))

/-- `AX` becomes the product of `AL` and a byte register, or `DX` and `AX` that of `AX` and a word
register.  The flags are those of the whole product. -/
def State.multiply (s : State) : Register → State
  | .byte r =>
    let p : Word := product (s.cpu.registers.getByte .al) (s.cpu.registers.getByte r)
    { s with cpu := { s.cpu.setWord .ax p with flags := s.cpu.flags.after p } }
  | .word r =>
    let p : BitVec 32 := product (s.cpu.registers.getWord .ax) (s.cpu.registers.getWord r)
    { s with cpu := { (s.cpu.setWord .ax (p.setWidth 16)).setWord .dx (p.extractLsb' 16 16) with
        flags := s.cpu.flags.after p } }

/-- `AX` divided by a byte register into `AL` and the remainder `AH`, or `DX` and `AX` by a word
register into `AX` and the remainder `DX`.  Flags stay as they are. -/
def State.divide (s : State) (a : Address) : Register → Except Fault State
  | .byte r =>
    (quotient a (s.cpu.registers.getWord .ax) (s.cpu.registers.getByte r)).map fun p =>
      { s with cpu := (s.cpu.set (.byte .al) p.1).set (.byte .ah) p.2 }
  | .word r =>
    (quotient a (s.cpu.registers.getWord .dx ++ s.cpu.registers.getWord .ax)
      (s.cpu.registers.getWord r)).map fun p =>
        { s with cpu := (s.cpu.setWord .ax p.1).setWord .dx p.2 }

/-- The operation of the instruction at address `a` of the program `code`.  A target is looked up
only when the branch is taken, and before anything is written. -/
def Operation.exec (code : List Instruction) (a : Address) (s : State) :
    Operation → Except Fault (State × Next)
  | .move dst src =>
    let w := moveWidth dst src
    .ok (s.put w (s.value w src) dst, .following)
  | .alu op dst src =>
    let (r, f) := op.eval s.cpu.flags (s.cpu.get dst) (s.value dst.width src)
    .ok (if op = .cmp then s.setFlags f else s.setResult dst r f, .following)
  | .unary op dst =>
    let (r, f) := op.eval s.cpu.flags (s.cpu.get dst)
    .ok (s.setResult dst r f, .following)
  | .multiply src => .ok (s.multiply src, .following)
  | .divide src => (s.divide a src).map fun t => (t, .following)
  | .shift d dst =>
    let (r, f) := d.eval s.cpu.flags (s.cpu.get dst)
    .ok (s.setResult dst r f, .following)
  | .clearCarry => .ok (s.setFlags { s.cpu.flags with carry := false }, .following)
  | .nothing => .ok (s, .following)
  | .halt => .ok (s, .halt)
  | .jump c target =>
    if c.holds s.cpu.flags then (jumpTo code a target).map fun next => (s, next)
    else .ok (s, .following)
  | .loop target =>
    let cx := s.cpu.registers.getWord .cx - 1
    let t : State := { s with cpu := s.cpu.setWord .cx cx }
    if cx = 0 then .ok (t, .following) else (jumpTo code a target).map fun next => (t, next)

/-- an instruction of the program `code` carried out -/
def Instruction.exec (i : Instruction) (code : List Instruction) (s : State) :
    Except Fault (State × Next) :=
  match i.operation? with
  | some op => op.exec code i.address s
  | none => .error (.malformed i.address)

end Mini8086
