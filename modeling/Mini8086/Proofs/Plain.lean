import Mini8086.Machine.Operation

/-!
# Instructions up to their spelling

Two commands may be spelled differently and yet say the same: three branches have a second name, a
byte register takes only the low byte of a number, and a branch leads to an address, whether a label
or a number named it.  `Instruction.plain` keeps what is said.

* `Branch.operation_plain`      a branch does the same by each of its names;
* `Operation.exec_cut`          an operation uses only as many bits of its number as its destination
                                 has;
* `operation?_of_plain_eq`      instructions that say the same have the same operation, once its
                                 number is cut.
-/

namespace Mini8086

/-! ## names and numbers -/

/-- the branch by its first name -/
def Branch.plain : Branch → Branch
  | .jc => .jb
  | .jnc => .jnb
  | .jnl => .jge
  | b => b

@[simp] theorem Branch.condition?_plain (b : Branch) : b.plain.condition? = b.condition? := by
  cases b <;> rfl

theorem Branch.operation_plain (b : Branch) (target : Option Address) :
    b.plain.operation target = b.operation target := by
  simp [Branch.operation]

def Mnemonic.plain : Mnemonic → Mnemonic
  | .branch b => .branch b.plain
  | m => m

@[simp] theorem Mnemonic.isBranch_plain (m : Mnemonic) : m.plain.isBranch = m.isBranch := by
  cases m <;> rfl

theorem Mnemonic.plain_of_not_isBranch {m : Mnemonic} (h : m.isBranch = false) : m.plain = m := by
  cases m with
  | branch b => cases h
  | _ => rfl

/-- a number without the bits that are above a width -/
def cutTo (w : Width) (v : Word) : Word := (v.setWidth w.bits).setWidth 16

theorem setWidth_cutTo (w : Width) (v : Word) : (cutTo w v).setWidth w.bits = v.setWidth w.bits := by
  apply BitVec.eq_of_toNat_eq
  have hv := v.isLt
  rw [cutTo, BitVec.toNat_setWidth, BitVec.toNat_setWidth, BitVec.toNat_setWidth]
  cases w with
  | byte =>
    show v.toNat % 2 ^ 8 % 2 ^ 16 % 2 ^ 8 = v.toNat % 2 ^ 8
    omega
  | word =>
    show v.toNat % 2 ^ 16 % 2 ^ 16 % 2 ^ 16 = v.toNat % 2 ^ 16
    omega
  | dword =>
    show v.toNat % 2 ^ 32 % 2 ^ 16 % 2 ^ 32 = v.toNat % 2 ^ 32
    omega

def Operand.cut (w : Width) : Operand → Operand
  | .imm v => .imm (cutTo w v)
  | o => o

/-- the width of the first operand, which the others take over -/
def destinationWidth : List Operand → Width
  | .reg r :: _ => r.width
  | _ => .word

/-! ## what an instruction says -/

/-- What an instruction says: a branch has a target, and other commands have operands. -/
structure Plain where
  mnemonic : Mnemonic
  operands : List Operand
  target : Option Address
  deriving DecidableEq, Repr

/-- the instruction by the first name of its mnemonic, its number cut to the destination -/
def Instruction.plain (i : Instruction) : Plain where
  mnemonic := i.mnemonic.plain
  operands :=
    if i.mnemonic.isBranch then []
    else i.operands.map (Operand.cut (destinationWidth i.operands))
  target := i.target?

/-! ## what it does -/

def Source.cut (w : Width) : Source → Source
  | .imm v => .imm (cutTo w v)
  | src => src

def Operation.cut : Operation → Operation
  | .move dst src => .move dst (src.cut (moveWidth dst src))
  | .alu op dst src => .alu op dst (src.cut dst.width)
  | op => op

theorem State.value_cut (s : State) (w : Width) (src : Source) :
    s.value w (src.cut w) = s.value w src := by
  cases src with
  | imm v => exact setWidth_cutTo w v
  | _ => rfl

theorem moveWidth_cut (dst : Place) (src : Source) (w : Width) :
    moveWidth dst (src.cut w) = moveWidth dst src := by
  cases dst <;> cases src <;> rfl

theorem Operation.exec_cut (code : List Instruction) (a : Address) (s : State) (op : Operation) :
    op.cut.exec code a s = op.exec code a s := by
  cases op with
  | move dst src =>
    dsimp only [Operation.cut, Operation.exec]
    rw [moveWidth_cut, State.value_cut]
  | alu op dst src =>
    dsimp only [Operation.cut, Operation.exec]
    rw [State.value_cut]
  | _ => rfl

/-- an instruction that says what is given -/
def Plain.instruction (p : Plain) : Instruction where
  opcode := []
  length := 0
  imm := p.target.map .value
  address := 0
  mnemonic := p.mnemonic
  operands := p.operands
  line := []
  lineNumber := 0

theorem target?_plain (i : Instruction) : i.plain.instruction.target? = i.target? := by
  cases ht : i.target? with
  | none =>
    unfold Instruction.target? Plain.instruction Instruction.plain
    rw [ht]
    rfl
  | some t =>
    -- only a branch has a target
    have hb : i.mnemonic.isBranch = true := by
      unfold Instruction.target? at ht
      split at ht
      · split at ht
        · assumption
        · contradiction
      · contradiction
    unfold Instruction.target? Plain.instruction Instruction.plain
    rw [ht]
    show (if i.mnemonic.plain.isBranch then some t else none) = some t
    simp [hb]

theorem operation?_plain (i : Instruction) :
    i.operation?.map Operation.cut = i.plain.instruction.operation? := by
  unfold Instruction.operation? Instruction.plain Plain.instruction
  cases hm : i.mnemonic with
  | branch b =>
    have ht := target?_plain i
    unfold Instruction.plain Plain.instruction at ht
    rw [hm] at ht
    show some (b.operation i.target?).cut = some (b.plain.operation _)
    rw [ht, Branch.operation_plain]
    unfold Branch.operation
    cases b.condition? <;> rfl
  | mov =>
    match i.operands with
    | [] | [_] | _ :: _ :: _ :: _ => rfl
    | [d, s] => cases d <;> cases s <;> rfl
  | alu op =>
    match i.operands with
    | [] => rfl
    | [d] | d :: _ :: _ :: _ => cases d <;> rfl
    | [d, s] => cases d <;> cases s <;> rfl
  | unary | mul | div =>
    match i.operands with
    | [] => rfl
    | [d] | d :: _ :: _ => cases d <;> rfl
  | shift d =>
    match i.operands with
    | [] => rfl
    | [d] | [d, _] | d :: _ :: _ :: _ => cases d <;> rfl
  | clc | nop | hlt => rfl

/-- Instructions that say the same do the same. -/
theorem operation?_of_plain_eq {i j : Instruction} (h : i.plain = j.plain) :
    i.operation?.map Operation.cut = j.operation?.map Operation.cut := by
  rw [operation?_plain, operation?_plain, h]

end Mini8086
