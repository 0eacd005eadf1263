import Mini8086.Mnemonic
import Mini8086.Operand

/-!
# Encodings

`encode` gives a command its opcode bytes, its length and the number that follows the opcode.  The
operand shapes that have an encoding are

* `mov`                      register and number, register and memory, memory and register, two
                             registers of one width;
* the two-operand group      register and number, two registers of one width, and for `add`, `sub`
                             and `cmp` register and memory;
* `not neg mul div inc dec`  one register;
* shifts                     a register and the number 1;
* branches                   a name or an address;
* `clc hlt nop`              nothing.

An encoding between two registers is one fixed opcode for each operation and width: it does not say
which registers are meant.
-/

namespace Mini8086

/-- What follows an opcode: a number, or a name that still has to be resolved. -/
inductive Immediate where
  | value (n : Nat)
  | name (label : Text)
  deriving DecidableEq, Repr

structure Encoding where
  opcode : List Byte
  /-- the number of bytes of the instruction, the opcode included -/
  length : Nat
  imm : Option Immediate
  deriving DecidableEq, Repr

/-- Why a command has no encoding. -/
inductive EncodeError where
  | unsupported
  | shiftCount (count : Word)
  | immediateWidth (value : Word) (width : Width)
  deriving DecidableEq, Repr

/-! ## parts of an opcode -/

/-- the lowest bit of an opcode: 1 for words -/
def Width.opcodeBit : Width → Byte
  | .word => 1
  | _ => 0

/-- the second opcode byte with a register as operand and three bits `ext` of the operation -/
def registerByte (ext : Byte) (r : Register) : Byte := 0xc0 ||| ext <<< 3 ||| r.code

/-- the second opcode byte with a register and the memory at a pointer as operands -/
def memoryByte (r : Register) (pointer : WordRegister) : Byte :=
  r.code <<< 3 ||| if pointer = .di then 5 else 4

def Encoding.plain (opcode : List Byte) : Encoding := ⟨opcode, opcode.length, none⟩

/-- an encoding that ends in a number of the given width -/
def Encoding.withNumber (opcode : List Byte) (v : Word) (w : Width) : Encoding :=
  ⟨opcode, opcode.length + w.bytes, some (.value v.toNat)⟩

/-! ## the two-operand group -/

/-- the three bits of the operation: its place in the order of the opcodes -/
def AluOp.ext : AluOp → Byte
  | .add => 0
  | .or => 1
  | .adc => 2
  | .sbb => 3
  | .and => 4
  | .sub => 5
  | .xor => 6
  | .cmp => 7

/-- the first opcode of the operation -/
def AluOp.base (op : AluOp) : Byte := op.ext <<< 3

/-- the second opcode byte of the form between two registers -/
def AluOp.registersByte : AluOp → Byte
  | .add | .or | .and | .sub => 0xd8
  | .adc | .sbb | .xor | .cmp => 0xc0

/-- whether the operation takes its second operand from memory -/
def AluOp.readsMemory : AluOp → Bool
  | .add | .sub | .cmp => true
  | _ => false

def AluOp.encode (op : AluOp) : List Operand → Except EncodeError Encoding
  | [.reg dst, .imm v] =>
    if !dst.width.fits v then .error (.immediateWidth v dst.width)
    else if dst.isAccumulator then
      .ok (.withNumber [op.base ||| 4 ||| dst.width.opcodeBit] v dst.width)
    else
      .ok (.withNumber [0x80 ||| dst.width.opcodeBit, registerByte op.ext dst] v dst.width)
  | [.reg dst, .indirect p] =>
    if op.readsMemory then
      .ok (.plain [op.base ||| 2 ||| dst.width.opcodeBit, memoryByte dst p])
    else .error .unsupported
  | [.reg dst, .reg src] =>
    if dst.width = src.width then
      .ok (.plain [op.base ||| dst.width.opcodeBit, op.registersByte])
    else .error .unsupported
  | _ => .error .unsupported

/-! ## the other groups -/

def encodeMove : List Operand → Except EncodeError Encoding
  | [.reg dst, .imm v] =>
    if !dst.width.fits v then .error (.immediateWidth v dst.width)
    else
      let base : Byte := match dst with
        | .byte _ => 0xb0
        | .word _ => 0xb8
      .ok (.withNumber [base ||| dst.code] v dst.width)
  | [.reg dst, .indirect p] => .ok (.plain [0x8a ||| dst.width.opcodeBit, memoryByte dst p])
  | [.indirect p, .reg src] => .ok (.plain [0x88 ||| src.width.opcodeBit, memoryByte src p])
  | [.reg dst, .reg src] =>
    if dst.width = src.width then .ok (.plain [0x88 ||| dst.width.opcodeBit, 0xc0])
    else .error .unsupported
  | _ => .error .unsupported

/-- the group of one-register operations whose three bits are `ext` -/
def encodeSingle (ext : Byte) : List Operand → Except EncodeError Encoding
  | [.reg r] => .ok (.plain [0xf6 ||| r.width.opcodeBit, registerByte ext r])
  | _ => .error .unsupported

/-- `inc` (0) and `dec` (1), which have short opcodes for words -/
def encodeCount (ext : Byte) : List Operand → Except EncodeError Encoding
  | [.reg (.word r)] => .ok (.plain [0x40 ||| ext <<< 3 ||| (Register.word r).code])
  | [.reg (.byte r)] => .ok (.plain [0xfe, registerByte ext (.byte r)])
  | _ => .error .unsupported

def UnaryOp.encode : UnaryOp → List Operand → Except EncodeError Encoding
  | .inc => encodeCount 0
  | .dec => encodeCount 1
  | .not => encodeSingle 2
  | .neg => encodeSingle 3

def Direction.ext : Direction → Byte
  | .left => 4
  | .right => 5

def Direction.encode (d : Direction) : List Operand → Except EncodeError Encoding
  | [.reg r, .imm count] =>
    if count = 1 then .ok (.plain [0xd0 ||| r.width.opcodeBit, registerByte d.ext r])
    else .error (.shiftCount count)
  | _ => .error .unsupported

def Branch.opcode : Branch → Byte
  | .jmp => 0xeb
  | .jz => 0x74
  | .jnz => 0x75
  | .jb | .jc => 0x72
  | .jnb | .jnc => 0x73
  | .jna => 0x76
  | .ja => 0x77
  | .jl => 0x7c
  | .jge | .jnl => 0x7d
  | .jle => 0x7e
  | .jg => 0x7f
  | .loop => 0xe2

def Branch.encode (b : Branch) : List Operand → Except EncodeError Encoding
  | [.label name] => .ok ⟨[b.opcode], 2, some (.name name)⟩
  | [.addr a] => .ok ⟨[b.opcode], 2, some (.value a)⟩
  | _ => .error .unsupported

/-- a command that takes no operands -/
def encodeBare (opcode : Byte) : List Operand → Except EncodeError Encoding
  | [] => .ok (.plain [opcode])
  | _ => .error .unsupported

/-! ## all commands -/

def encode (m : Mnemonic) (ops : List Operand) : Except EncodeError Encoding :=
  match m with
  | .mov => encodeMove ops
  | .alu op => op.encode ops
  | .unary op => op.encode ops
  | .mul => encodeSingle 4 ops
  | .div => encodeSingle 6 ops
  | .shift d => d.encode ops
  | .clc => encodeBare 0xf8 ops
  | .hlt => encodeBare 0xf4 ops
  | .nop => encodeBare 0x90 ops
  | .branch b => b.encode ops

end Mini8086
