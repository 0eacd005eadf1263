import Mini8086.Register
import Mini8086.Text.Name
import Mini8086.Text.Numeral

/-!
# Operands

An operand is a register, the memory at a pointer register, a number of 16 bits, the address of a
branch, or a name.  `Operand.text` writes it in normal form.

How an operand is read depends on the mnemonic in front of it:

* `Operand.readData`    for data: a bracketed pointer, else a register, else a numeral, else a
                         name;
* `Operand.readTarget`  for branches: a name, else a numeral without a sign.

So `AH`, `ADD` and `CAFE` are a register and two numbers as data, and three names as targets.
-/

namespace Mini8086

inductive Operand where
  | reg (r : Register)
  | indirect (pointer : WordRegister)
  | imm (value : Word)
  | addr (a : Address)
  | label (name : Text)
  deriving DecidableEq, Repr

/-! ## writing -/

def Operand.text : Operand → Text
  | .reg r => r.name.toList
  | .indirect r => '[' :: r.name.toList ++ [']']
  | .imm v => hex v.toNat
  | .addr a => hex a
  | .label name => name

/-- the operands in normal form, with commas between them -/
def operandsText (ops : List Operand) : Text := joined ',' (ops.map Operand.text)

/-! ## reading -/

/-- Why a text is no operand; each case keeps the text in upper case. -/
inductive OperandError where
  | addressingMode (text : Text)
  | tooWide (text : Text)
  | notData (text : Text)
  | notTarget (text : Text)
  deriving DecidableEq, Repr

def OperandError.message : OperandError → String
  | .addressingMode t => s!"Unsupported addressing mode {String.ofList t}"
  | .tooWide t => s!"Immediate {String.ofList t} does not fit in 16 bits"
  | .notData t => s!"Bad operand {String.ofList t}"
  | .notTarget t => s!"Bad jump target {String.ofList t}"

/-- the text between brackets, if it starts with one and ends with one -/
def insideBrackets? : Text → Option Text
  | '[' :: t => if t.getLast? = some ']' then some t.dropLast else none
  | _ => none

/-- the operand of a data instruction, from a text in upper case -/
def readUpperData (t : Text) : Except OperandError Operand :=
  match insideBrackets? t with
  | some inner =>
    if inner = "SI".toList then .ok (.indirect .si)
    else if inner = "DI".toList then .ok (.indirect .di)
    else .error (.addressingMode t)
  | none =>
    match Register.ofText? t with
    | some r => .ok (.reg r)
    | none =>
      match readHex? t with
      | some n => if n < 0x10000 then .ok (.imm (BitVec.ofNat 16 n)) else .error (.tooWide t)
      | none => if isName t then .ok (.label t) else .error (.notData t)

/-- the operand of a branch, from a text in upper case; a number counts modulo `2 ^ 20` -/
def readUpperTarget (t : Text) : Except OperandError Operand :=
  if isName t then .ok (.label t)
  else
    match readHex? t with
    | some n => if t.head? = some '-' then .error (.notTarget t) else .ok (.addr (n % 0x100000))
    | none => .error (.notTarget t)

def Operand.readData (t : Text) : Except OperandError Operand := readUpperData (upper t)
def Operand.readTarget (t : Text) : Except OperandError Operand := readUpperTarget (upper t)

end Mini8086
