import Mini8086.Encoding
import Mini8086.Text.Blank

/-!
# Statements

A source line is a statement: an optional label with a colon, then an optional command, then an
optional comment after `;`.  `Statement.read` takes a line apart in this order:

* the text before the first `;`, without outer blanks, is the text of the statement;
* if it has a colon, the part before the first one must be a name, the label;
* what remains is empty or a command: a mnemonic up to the first blank, and operands in which blanks
  do not count, separated by commas.
-/

namespace Mini8086

structure Command where
  mnemonic : Mnemonic
  operands : List Operand
  deriving DecidableEq, Repr

structure Statement where
  /-- the label in upper case -/
  label : Option Text
  command : Option Command
  /-- the line without comment and outer blanks -/
  text : Text
  deriving DecidableEq, Repr

/-- whether the line neither defines a label nor holds a command -/
def Statement.isEmpty (s : Statement) : Bool := s.label.isNone && s.command.isNone

/-- Why a line is no statement. -/
inductive StatementError where
  | badLabel (text : Text)
  | unknownMnemonic (text : Text)
  | malformedOperands (text : Text)
  | operand (e : OperandError)
  deriving DecidableEq, Repr

def StatementError.message : StatementError → String
  | .badLabel t => s!"Bad label {String.ofList t}"
  | .unknownMnemonic t => s!"Unknown instruction {String.ofList t}"
  | .malformedOperands t => s!"Malformed operand list {String.ofList t}"
  | .operand e => e.message

/-- one piece of the operand list `list` of a command -/
def readOperand (m : Mnemonic) (list piece : Text) : Except StatementError Operand :=
  if piece = [] then .error (.malformedOperands list)
  else (if m.isBranch then Operand.readTarget piece else Operand.readData piece).mapError .operand

/-- an operand list without blanks -/
def readOperands (m : Mnemonic) (list : Text) : Except StatementError (List Operand) :=
  if list = [] then .ok [] else (pieces ',' list).mapM (readOperand m list)

def Command.read (t : Text) : Except StatementError Command :=
  let (word, field) := takeWord t
  match Mnemonic.ofText? word with
  | none => .error (.unknownMnemonic (upper word))
  | some m => (readOperands m (dropBlanks field)).map (Command.mk m)

/-- a command, unless there is nothing left -/
def Command.read? (t : Text) : Except StatementError (Option Command) :=
  if t = [] then .ok none else (Command.read t).map some

/-- the text of a line that counts: what stands before the comment, without outer blanks -/
def statementText (line : Text) : Text := trim (line.takeWhile (· ≠ ';'))

def Statement.read (line : Text) : Except StatementError Statement :=
  let text := statementText line
  match splitFirst? ':' text with
  | none => (Command.read? text).map fun c => ⟨none, c, text⟩
  | some (before, after) =>
    if isName (trim before) then
      (Command.read? (trim after)).map fun c => ⟨some (upper (trim before)), c, text⟩
    else .error (.badLabel (trim before))

end Mini8086
