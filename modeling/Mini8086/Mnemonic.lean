import Mini8086.Text.Basic

/-!
# Mnemonics

The 35 mnemonics, grouped by what they do:

* `AluOp`      two-operand arithmetic and logic, in the order of their opcodes;
* `UnaryOp`    one register changed in place;
* `Direction`  shifts by one bit;
* `Branch`     jumps, conditional or not, and the counting loop.  `JC`, `JNC` and `JNL` are other
               spellings of `JB`, `JNB` and `JGE`.

`Mnemonic.ofText?` reads a mnemonic in upper or lower case.
-/

namespace Mini8086

inductive AluOp where
  | add | or | adc | sbb | and | sub | xor | cmp
  deriving DecidableEq, Repr

inductive UnaryOp where
  | inc | dec | not | neg
  deriving DecidableEq, Repr

inductive Direction where
  | left | right
  deriving DecidableEq, Repr

inductive Branch where
  | jmp | jz | jnz | jb | jnb | ja | jna | jg | jl | jge | jle | jc | jnc | jnl | loop
  deriving DecidableEq, Repr

inductive Mnemonic where
  | mov
  | alu (op : AluOp)
  | unary (op : UnaryOp)
  | mul
  | div
  | shift (d : Direction)
  | clc
  | hlt
  | nop
  | branch (b : Branch)
  deriving DecidableEq, Repr

/-- whether the mnemonic takes a place in the program as its operand -/
def Mnemonic.isBranch : Mnemonic → Bool
  | .branch _ => true
  | _ => false

/-! ## names -/

def AluOp.all : List AluOp := [.add, .or, .adc, .sbb, .and, .sub, .xor, .cmp]
def UnaryOp.all : List UnaryOp := [.inc, .dec, .not, .neg]
def Direction.all : List Direction := [.left, .right]
def Branch.all : List Branch :=
  [.jmp, .jz, .jnz, .jb, .jnb, .ja, .jna, .jg, .jl, .jge, .jle, .jc, .jnc, .jnl, .loop]

def Mnemonic.all : List Mnemonic :=
  [.mov, .mul, .div, .clc, .hlt, .nop] ++ AluOp.all.map .alu ++ UnaryOp.all.map .unary ++
    Direction.all.map .shift ++ Branch.all.map .branch

def AluOp.name : AluOp → String
  | .add => "ADD"
  | .or => "OR"
  | .adc => "ADC"
  | .sbb => "SBB"
  | .and => "AND"
  | .sub => "SUB"
  | .xor => "XOR"
  | .cmp => "CMP"

def UnaryOp.name : UnaryOp → String
  | .inc => "INC"
  | .dec => "DEC"
  | .not => "NOT"
  | .neg => "NEG"

def Branch.name : Branch → String
  | .jmp => "JMP"
  | .jz => "JZ"
  | .jnz => "JNZ"
  | .jb => "JB"
  | .jnb => "JNB"
  | .ja => "JA"
  | .jna => "JNA"
  | .jg => "JG"
  | .jl => "JL"
  | .jge => "JGE"
  | .jle => "JLE"
  | .jc => "JC"
  | .jnc => "JNC"
  | .jnl => "JNL"
  | .loop => "LOOP"

def Mnemonic.name : Mnemonic → String
  | .mov => "MOV"
  | .alu op => op.name
  | .unary op => op.name
  | .mul => "MUL"
  | .div => "DIV"
  | .shift .left => "SHL"
  | .shift .right => "SHR"
  | .clc => "CLC"
  | .hlt => "HLT"
  | .nop => "NOP"
  | .branch b => b.name

/-- the mnemonic that the text names, in upper or lower case -/
def Mnemonic.ofText? (t : Text) : Option Mnemonic :=
  Mnemonic.all.find? fun m => m.name.toList == upper t

theorem Mnemonic.mem_all (m : Mnemonic) : m ∈ Mnemonic.all := by
  cases m with
  | alu op => cases op <;> decide
  | unary op => cases op <;> decide
  | shift d => cases d <;> decide
  | branch b => cases b <;> decide
  | _ => decide

/-- A mnemonic is read back from its name. -/
theorem Mnemonic.ofText?_name (m : Mnemonic) : Mnemonic.ofText? m.name.toList = some m := by
  have h : ∀ m ∈ Mnemonic.all, Mnemonic.ofText? m.name.toList = some m := by decide +kernel
  exact h m m.mem_all

example : Mnemonic.all.length = 35 := by decide

end Mini8086
