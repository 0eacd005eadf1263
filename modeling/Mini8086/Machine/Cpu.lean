import Mini8086.Machine.Flags
import Mini8086.Register
import Mini8086.Text.Hex

/-!
# The processor

`Registers` holds the eight word registers; a byte register is a half of its owner and is not
stored.  `Cpu` is the registers with the flags.  At power-on everything is zero except `SP`.

`Registers.get` and `Registers.set` work on registers of both kinds, at the width of the register;
`Registers.getWord_setWord` says what a write changes.
-/

namespace Mini8086

structure Registers where
  ax : Word := 0
  bx : Word := 0
  cx : Word := 0
  dx : Word := 0
  si : Word := 0
  di : Word := 0
  ip : Word := 0
  sp : Word := 0xfffe
  deriving DecidableEq, Repr

namespace Registers

def getWord (s : Registers) : WordRegister → Word
  | .ax => s.ax
  | .bx => s.bx
  | .cx => s.cx
  | .dx => s.dx
  | .si => s.si
  | .di => s.di
  | .ip => s.ip
  | .sp => s.sp

def setWord (s : Registers) (r : WordRegister) (v : Word) : Registers :=
  match r with
  | .ax => { s with ax := v }
  | .bx => { s with bx := v }
  | .cx => { s with cx := v }
  | .dx => { s with dx := v }
  | .si => { s with si := v }
  | .di => { s with di := v }
  | .ip => { s with ip := v }
  | .sp => { s with sp := v }

@[simp] theorem getWord_setWord (s : Registers) (r q : WordRegister) (v : Word) :
    (s.setWord r v).getWord q = if q = r then v else s.getWord q := by
  cases r <;> cases q <;> rfl

/-! ## halves -/

/-- the high or the low half of a word -/
def half (high : Bool) (w : Word) : Byte := if high then w.extractLsb' 8 8 else w.setWidth 8

/-- the word with one half replaced -/
def withHalf (high : Bool) (w : Word) (b : Byte) : Word :=
  if high then b ++ w.setWidth 8 else w.extractLsb' 8 8 ++ b

def getByte (s : Registers) (r : ByteRegister) : Byte := half r.isHigh (s.getWord r.owner)

def setByte (s : Registers) (r : ByteRegister) (b : Byte) : Registers :=
  s.setWord r.owner (withHalf r.isHigh (s.getWord r.owner) b)

/-! ## both kinds -/

def get (s : Registers) : (r : Register) → BitVec r.width.bits
  | .word r => s.getWord r
  | .byte r => s.getByte r

def set (s : Registers) : (r : Register) → BitVec r.width.bits → Registers
  | .word r, v => s.setWord r v
  | .byte r, v => s.setByte r v

end Registers

structure Cpu where
  registers : Registers := {}
  flags : Flags := {}
  deriving DecidableEq, Repr

namespace Cpu

def get (c : Cpu) (r : Register) : BitVec r.width.bits := c.registers.get r

def set (c : Cpu) (r : Register) (v : BitVec r.width.bits) : Cpu :=
  { c with registers := c.registers.set r v }

def setWord (c : Cpu) (r : WordRegister) (v : Word) : Cpu :=
  { c with registers := c.registers.setWord r v }

/-- the instruction pointer set to the low 16 bits of an address -/
def pointTo (c : Cpu) (a : Address) : Cpu := c.setWord .ip (BitVec.ofNat 16 a)

/-! ## writing -/

def flagText (name : String) (b : Bool) : Text := name.toList ++ ['=', if b then '1' else '0']

/-- the registers and the flags on one line -/
def text (c : Cpu) : Text :=
  let register (r : WordRegister) : Text :=
    r.name.toList ++ '=' :: hexPadded 4 (c.registers.getWord r).toNat ++ [' ']
  WordRegister.all.flatMap register ++ ' ' :: joined ' '
    [flagText "CF" c.flags.carry, flagText "ZF" c.flags.zero, flagText "SF" c.flags.sign,
      flagText "OF" c.flags.overflow, flagText "PF" c.flags.parity]

end Cpu

end Mini8086
