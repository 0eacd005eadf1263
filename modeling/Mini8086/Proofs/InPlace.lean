import Mini8086.Proofs.Stepping

/-!
# Execution in place

`Machine.step` gives a new machine or a fault.  A processor has one machine only: it reads and
writes registers, flags and memory one after the other, and what it wrote before a fault stays
written.  `InPlace` is work of this kind.  An operand that does not suit its mnemonic, a branch
without a target and an index outside the program stop it with `Fault.malformed`.

How the flags are kept makes no difference to the work: it is done on any `Device`.  One is a
`Machine`, with five flags; a machine with one word of flags is another.

* `Instruction.execInPlace`   one instruction, each read, check and write in its own place;
* `Machine.stepInPlace`, `Machine.seekInPlace`, `Machine.runInPlace`   what may be asked of a
                             machine;
* `Machine.callsInPlace`      calls one after the other, a failing one leaving what it has written.
-/

namespace Mini8086

/-- The parts of a machine, each of which is read and written by itself.  The flags are read all
together and written one by one. -/
class Device (σ : Type) where
  registers : σ → Registers
  flags : σ → Flags
  memory : σ → Memory
  program : σ → List Instruction
  pc : σ → Nat
  halted : σ → Bool
  setRegisters : Registers → σ → σ
  setFlag : Flag → Bool → σ → σ
  setMemory : Memory → σ → σ
  setPc : Nat → σ → σ
  setHalted : Bool → σ → σ
  /-- one instruction more executed -/
  count : σ → σ

instance : Device Machine where
  registers m := m.cpu.registers
  flags m := m.cpu.flags
  memory m := m.memory
  program m := m.program
  pc m := m.pc
  halted m := m.halted
  setRegisters r m := { m with cpu := { m.cpu with registers := r } }
  setFlag g v m := { m with cpu := { m.cpu with flags := m.cpu.flags.set g v } }
  setMemory mem m := { m with memory := mem }
  setPc k m := { m with pc := k }
  setHalted h m := { m with halted := h }
  count m := { m with executed := m.executed + 1 }

/-- whether there is no instruction left -/
def Device.isDone {σ : Type} [Device σ] (m : σ) : Bool :=
  halted m || decide ((program m).length ≤ pc m)

/-- Work on one machine.  A failure keeps what was written before it. -/
abbrev InPlace (σ : Type) := EStateM Fault σ

namespace InPlace
variable {σ : Type} [Device σ]

/-! ## reading and writing -/

def getWord (r : WordRegister) : InPlace σ Word := return (Device.registers (← get)).getWord r
def getRegister (r : Register) : InPlace σ (BitVec r.width.bits) :=
  return (Device.registers (← get)).get r
def getFlags : InPlace σ Flags := return Device.flags (← get)

def setWord (r : WordRegister) (v : Word) : InPlace σ Unit :=
  modify fun m => Device.setRegisters ((Device.registers m).setWord r v) m
def setRegister (r : Register) (v : BitVec r.width.bits) : InPlace σ Unit :=
  modify fun m => Device.setRegisters ((Device.registers m).set r v) m
def setFlag (g : Flag) (v : Bool) : InPlace σ Unit := modify (Device.setFlag g v)

/-- zero, sign and parity of a result -/
def showResult {n : Nat} (v : BitVec n) : InPlace σ Unit := do
  setFlag .zero (v == 0)
  setFlag .sign v.msb
  setFlag .parity (Flags.evenOnes (v.setWidth 8))

/-- Where an operand lies, once its pointer has been read. -/
inductive Location where
  | reg (r : Register)
  | mem (a : Address)

def locate (i : Instruction) : Operand → InPlace σ Location
  | .reg r => return .reg r
  | .indirect p => return .mem (← getWord p).toNat
  | _ => throw (.malformed i.address)

def fetch (w : Width) : Location → InPlace σ (BitVec w.bits)
  | .reg r => return (← getRegister r).setWidth w.bits
  | .mem a => return (Device.memory (← get)).fetch a w

def store (w : Width) (v : BitVec w.bits) : Location → InPlace σ Unit
  | .reg r => setRegister r (v.setWidth r.width.bits)
  | .mem a => modify fun m => Device.setMemory ((Device.memory m).store a w v) m

/-- the value of an operand at a width -/
def fetchOperand (i : Instruction) (w : Width) : Operand → InPlace σ (BitVec w.bits)
  | .imm v => return v.setWidth w.bits
  | o => do fetch w (← locate i o)

end InPlace

/-! ## instructions -/

def Operand.width? : Operand → Option Width
  | .reg r => some r.width
  | _ => none

/-- the result and the carry of a sum or a difference; there is none for the logical operations -/
def AluOp.sum? {n : Nat} (c : Bool) (a b : BitVec n) : AluOp → Option (BitVec n × Bool)
  | .add => some (addWith a b false)
  | .adc => some (addWith a b c)
  | .sub | .cmp => some (subWith a b false)
  | .sbb => some (subWith a b c)
  | .and | .or | .xor => none

/-- the result of a logical operation; there is none for sums and differences -/
def AluOp.logic? {n : Nat} (a b : BitVec n) : AluOp → Option (BitVec n)
  | .and => some (a &&& b)
  | .or => some (a ||| b)
  | .xor => some (a ^^^ b)
  | _ => none

namespace Instruction
open InPlace
variable {σ : Type} [Device σ]

def execMove (i : Instruction) : InPlace σ Unit := do
  match i.operands with
  | [d, s] =>
    let w := (d.width?.or s.width?).getD .word
    let v ← fetchOperand i w s
    let place ← locate i d
    store w v place
  | _ => throw (.malformed i.address)

def execSum (i : Instruction) (op : AluOp) : InPlace σ Unit := do
  match i.operands with
  | [.reg d, s] =>
    let a ← getRegister d
    let b ← fetchOperand i d.width s
    let f ← getFlags
    match op.sum? f.carry a b with
    | some (v, carry) =>
      if op ≠ .cmp then setRegister d v
      setFlag .carry carry
      showResult v
    | none => throw (.malformed i.address)
  | _ => throw (.malformed i.address)

def execLogic (i : Instruction) (op : AluOp) : InPlace σ Unit := do
  match i.operands with
  | [.reg d, s] =>
    let a ← getRegister d
    let b ← fetchOperand i d.width s
    match op.logic? a b with
    | some v =>
      setRegister d v
      showResult v
      if op ≠ .or then
        setFlag .carry false
        setFlag .overflow false
    | none => throw (.malformed i.address)
  | _ => throw (.malformed i.address)

def execUnary (i : Instruction) (op : UnaryOp) : InPlace σ Unit := do
  match i.operands with
  | [.reg r] =>
    let v ← getRegister r
    let result ← match op with
      | .inc => pure (v + 1)
      | .dec => pure (v - 1)
      | .not => pure (~~~v)
      | .neg => do
        setFlag .carry (v != 0)
        pure (-v)
    setRegister r result
    showResult result
  | _ => throw (.malformed i.address)

def execShift (i : Instruction) (d : Direction) : InPlace σ Unit := do
  match i.operands with
  | [.reg r, _] =>
    let v ← getRegister r
    let (result, carry) := match d with
      | .left => (v <<< 1, v.msb)
      | .right => (v >>> 1, v.getLsbD 0)
    setRegister r result
    setFlag .carry carry
    showResult result
  | _ => throw (.malformed i.address)

def execMultiply (i : Instruction) : InPlace σ Unit := do
  match i.operands with
  | [.reg (.byte r)] =>
    let v ← getRegister (.byte r)
    let al ← getRegister (.byte .al)
    let p : Word := product (n := 8) al v
    setWord .ax p
    showResult p
  | [.reg (.word r)] =>
    let v ← getWord r
    let ax ← getWord .ax
    let p : BitVec 32 := product (n := 16) ax v
    setWord .ax (p.setWidth 16)
    setWord .dx (p.extractLsb' 16 16)
    showResult p
  | _ => throw (.malformed i.address)

/-- quotient and remainder, checked before anything is written -/
def divideBy {n : Nat} (i : Instruction) (dividend : BitVec (n + n)) (divisor : BitVec n) :
    InPlace σ (BitVec n × BitVec n) := do
  if divisor = 0 then throw (.divideByZero i.address)
  let q := dividend.toNat / divisor.toNat
  if 1 <<< n ≤ q then throw (.divideOverflow i.address q)
  return (BitVec.ofNat n q, BitVec.ofNat n (dividend.toNat % divisor.toNat))

def execDivide (i : Instruction) : InPlace σ Unit := do
  match i.operands with
  | [.reg (.byte r)] =>
    let divisor ← getRegister (.byte r)
    let ax ← getWord .ax
    let (q, remainder) ← i.divideBy (n := 8) ax divisor
    setRegister (.byte .al) q
    setRegister (.byte .ah) remainder
  | [.reg (.word r)] =>
    let divisor ← getWord r
    let dx ← getWord .dx
    let ax ← getWord .ax
    let (q, remainder) ← i.divideBy (n := 16) (dx ++ ax) divisor
    setWord .ax q
    setWord .dx remainder
  | _ => throw (.malformed i.address)

/-- the jump of a branch that is taken -/
def branchTarget (i : Instruction) : InPlace σ Next := do
  match i.target? with
  | some t =>
    match indexOf? (Device.program (← get)) t with
    | some k => return .jump k t
    | none => throw (.invalidTarget i.address t)
  | none => throw (.malformed i.address)

def execBranch (i : Instruction) (b : Branch) : InPlace σ Next := do
  let f ← getFlags
  match b.condition? with
  | some c => if c.holds f then i.branchTarget else return .following
  | none => throw (.malformed i.address)

/-- The target is looked up before the count is written. -/
def execLoop (i : Instruction) : InPlace σ Next := do
  let cx := (← getWord .cx) - 1
  let next ← if cx ≠ 0 then i.branchTarget else pure .following
  setWord .cx cx
  return next

/-- the work of an instruction after which the next one follows -/
def thenFollowing (work : InPlace σ Unit) : InPlace σ Next := do
  work
  return .following

def execInPlace (i : Instruction) : InPlace σ Next :=
  match i.mnemonic with
  | .mov => thenFollowing i.execMove
  | .alu .and => thenFollowing (i.execLogic .and)
  | .alu .or => thenFollowing (i.execLogic .or)
  | .alu .xor => thenFollowing (i.execLogic .xor)
  | .alu op => thenFollowing (i.execSum op)
  | .unary op => thenFollowing (i.execUnary op)
  | .mul => thenFollowing i.execMultiply
  | .div => thenFollowing i.execDivide
  | .shift d => thenFollowing (i.execShift d)
  | .clc => thenFollowing (setFlag .carry false)
  | .nop => thenFollowing (return ())
  | .hlt => return .halt
  | .branch .loop => i.execLoop
  | .branch b => i.execBranch b

end Instruction

/-! ## machines -/

namespace Machine
open InPlace

section
variable {σ : Type} [Device σ]

/-- the index moved on after instruction `i`, and the address that it stands for then -/
def moveOn (i : Instruction) : Next → InPlace σ Address
  | .following => do
    modify fun m => Device.setPc (Device.pc m + 1) m
    return i.nextAddress
  | .jump k _ => do
    modify (Device.setPc k)
    match (Device.program (← get))[k]? with
    | some j => return j.address
    | none => throw (.malformed i.address)
  | .halt => do
    modify (Device.setHalted true)
    return i.nextAddress

def stepInPlace : InPlace σ (Option Visit) := do
  let m ← get
  if Device.isDone m then return none
  match (Device.program m)[Device.pc m]? with
  | none => throw (.malformed (Device.pc m))
  | some i =>
    let next ← i.execInPlace
    let address ← moveOn i next
    setWord .ip (BitVec.ofNat 16 address)
    modify Device.count
    return some ⟨i.address, i.line⟩

def seekInPlace (a : Address) : InPlace σ Unit := do
  match indexOf? (Device.program (← get)) a with
  | none => throw (.noInstruction a)
  | some k =>
    modify (Device.setPc k)
    modify (Device.setHalted false)
    setWord .ip (BitVec.ofNat 16 a)

/-- instructions executed on top of `before`, the latest of them first -/
def runAfterInPlace (before : List Visit) : Nat → InPlace σ Answer
  | 0 => do
    let m ← get
    return .ran before.reverse (Device.halted m) (!Device.isDone m)
  | budget + 1 => do
    let m ← get
    if Device.isDone m then return .ran before.reverse (Device.halted m) false
    match ← stepInPlace with
    | none => return .ran before.reverse (Device.halted (← get)) false
    | some v => runAfterInPlace (v :: before) budget

def runInPlace (budget : Nat) : InPlace σ Answer := runAfterInPlace [] budget

def runAtInPlace (a : Address) (budget : Nat) : InPlace σ Answer := do
  seekInPlace a
  runInPlace budget

def callInPlace : Call → InPlace σ Answer
  | .step => return .stepped (← stepInPlace)
  | .run budget => runInPlace budget
  | .seek a => do
    seekInPlace a
    return .sought
  | .runAt a budget => runAtInPlace a budget

/-- calls one after the other; a call that fails leaves what it has written -/
def callsFrom (m : σ) : List Call → List (Except Fault Answer) × σ
  | [] => ([], m)
  | c :: cs =>
    match (callInPlace c).run m with
    | .ok answer next => (.ok answer :: (callsFrom next cs).1, (callsFrom next cs).2)
    | .error f next => (.error f :: (callsFrom next cs).1, (callsFrom next cs).2)

end

/-- `Machine.calls` with every call in place -/
def callsInPlace (m : Machine) (cs : List Call) : List (Except Fault Answer) × Machine :=
  callsFrom m cs

end Machine

end Mini8086
