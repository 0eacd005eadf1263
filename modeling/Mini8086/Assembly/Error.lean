import Mini8086.Statement
import Mini8086.Text.Hex

/-!
# Assembly errors

`AssemblyError` is why a source does not assemble.  All but one of the causes lie in one line and
are told with its number; a branch that is too far from its target is told with both addresses.
-/

namespace Mini8086

/-- What can be wrong with one line. -/
inductive LineError where
  | statement (e : StatementError)
  | duplicateLabel (label : Text) (previousLine : Nat)
  | unsupportedOperands (m : Mnemonic) (ops : List Operand)
  | shiftCount (m : Mnemonic) (count : Word)
  | immediateWidth (value : Word) (width : Width)
  | undefinedLabel (label : Text)
  deriving DecidableEq, Repr

inductive AssemblyError where
  | atLine (line : Nat) (e : LineError)
  | tooFar (address target : Address) (displacement : Int)
  deriving DecidableEq, Repr

def LineError.message : LineError → String
  | .statement e => e.message
  | .duplicateLabel label previous =>
    s!"Label {String.ofList label} already defined on line {previous}"
  | .unsupportedOperands m ops => s!"Unsupported {m.name} {String.ofList (operandsText ops)}"
  | .shiftCount m count =>
    s!"{m.name} only supports shift by 1, got {String.ofList (hex count.toNat)}"
  | .immediateWidth v w =>
    s!"Immediate {String.ofList (hex v.toNat)} does not fit in {w.bits} bits"
  | .undefinedLabel label => s!"Undefined label: {String.ofList label}"

def AssemblyError.message : AssemblyError → String
  | .atLine line e => s!"Line {line}: {e.message}"
  | .tooFar a t d =>
    s!"Jump at {String.ofList (hexPadded 4 a)} to {String.ofList (hexPadded 4 t)} " ++
      s!"too far ({d} bytes)"

/-- the number of the line that the error lies in -/
def AssemblyError.line? : AssemblyError → Option Nat
  | .atLine line _ => some line
  | .tooFar .. => none

/-- whether the error is in how a line is written, rather than in where a branch leads -/
def AssemblyError.isInText : AssemblyError → Bool
  | .atLine _ (.undefinedLabel _) => false
  | .atLine _ _ => true
  | .tooFar .. => false

/-- the error of a line whose command has no encoding -/
def EncodeError.inCommand (c : Command) : EncodeError → LineError
  | .unsupported => .unsupportedOperands c.mnemonic c.operands
  | .shiftCount count => .shiftCount c.mnemonic count
  | .immediateWidth v w => .immediateWidth v w

end Mini8086
