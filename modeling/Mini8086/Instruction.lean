import Mini8086.Encoding

/-!
# Instructions

An `Instruction` is a command with its encoding, at an address, together with the source line that
it comes from.  Nothing ties its fields to each other: an assembled instruction carries the
encoding of its command, but an instruction may also be put together by hand.

`Instruction.target?` is where a resolved branch leads, `Instruction.displacement?` how far that is
from the next instruction, and `Instruction.emit?` the bytes of the instruction.
-/

namespace Mini8086

structure Instruction extends Encoding where
  address : Address
  mnemonic : Mnemonic
  operands : List Operand
  /-- the text of the source line, without comment and outer blanks -/
  line : Text
  lineNumber : Nat
  deriving DecidableEq, Repr

namespace Instruction

/-- the command in normal form: the mnemonic, and a tab before the operands if there are any -/
def text (i : Instruction) : Text :=
  if i.operands = [] then i.mnemonic.name.toList
  else i.mnemonic.name.toList ++ '\t' :: operandsText i.operands

/-- the address just after the instruction -/
def nextAddress (i : Instruction) : Address := i.address + i.length

/-- the address that a branch leads to, once it is resolved -/
def target? (i : Instruction) : Option Address :=
  match i.imm with
  | some (.value n) => if i.mnemonic.isBranch then some n else none
  | _ => none

/-- the distance from the next instruction to the target of a branch -/
def displacement? (i : Instruction) : Option Int :=
  i.target?.map fun t => (t : Int) - i.nextAddress

/-- whether a name still has to be resolved -/
def isUnresolved (i : Instruction) : Bool :=
  match i.imm with
  | some (.name _) => true
  | _ => false

/-- a number in the `n` bytes after an opcode, low byte first; there are at most two of them -/
def numberBytes (v : Nat) : Nat → List Byte
  | 0 => []
  | 1 => [BitVec.ofNat 8 v]
  | _ => [BitVec.ofNat 8 v, BitVec.ofNat 8 (v / 0x100)]

/-- The bytes of the instruction: the opcode, and after it the low byte of the displacement of a
branch or the number of another command.  There are none as long as a name is unresolved, or if the
opcode alone is longer than the instruction says it is. -/
def emit? (i : Instruction) : Option (List Byte) :=
  match i.imm with
  | none => some i.opcode
  | some (.name _) => none
  | some (.value v) =>
    match i.displacement? with
    | some d => some (i.opcode ++ [BitVec.ofInt 8 d])
    | none =>
      if i.opcode.length ≤ i.length then
        some (i.opcode ++ numberBytes v (i.length - i.opcode.length))
      else none

end Instruction

end Mini8086
