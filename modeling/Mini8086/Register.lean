import Mini8086.Width

/-!
# Registers

The processor has eight word registers.  Each of `AX`, `BX`, `CX`, `DX` is also two byte registers,
its high half and its low half.  `Register` is either of both kinds.

Every register but `IP` can be named in a program text (`Register.ofText?`) and has a number of
three bits that stands for it in an opcode (`Register.code`).
-/

namespace Mini8086

inductive WordRegister where
  | ax | bx | cx | dx | si | di | ip | sp
  deriving DecidableEq, Repr

inductive ByteRegister where
  | al | cl | dl | bl | ah | ch | dh | bh
  deriving DecidableEq, Repr

inductive Register where
  | word (r : WordRegister)
  | byte (r : ByteRegister)
  deriving DecidableEq, Repr

/-! ## word registers -/

/-- the word registers in the order in which they are shown -/
def WordRegister.all : List WordRegister := [.ax, .bx, .cx, .dx, .si, .di, .ip, .sp]

def WordRegister.name : WordRegister → String
  | .ax => "AX"
  | .bx => "BX"
  | .cx => "CX"
  | .dx => "DX"
  | .si => "SI"
  | .di => "DI"
  | .ip => "IP"
  | .sp => "SP"

/-- the number of the register in an opcode; `IP` has none -/
def WordRegister.code? : WordRegister → Option Byte
  | .ax => some 0
  | .cx => some 1
  | .dx => some 2
  | .bx => some 3
  | .sp => some 4
  | .si => some 6
  | .di => some 7
  | .ip => none

/-! ## byte registers -/

def ByteRegister.all : List ByteRegister := [.al, .cl, .dl, .bl, .ah, .ch, .dh, .bh]

def ByteRegister.name : ByteRegister → String
  | .al => "AL"
  | .cl => "CL"
  | .dl => "DL"
  | .bl => "BL"
  | .ah => "AH"
  | .ch => "CH"
  | .dh => "DH"
  | .bh => "BH"

def ByteRegister.code : ByteRegister → Byte
  | .al => 0
  | .cl => 1
  | .dl => 2
  | .bl => 3
  | .ah => 4
  | .ch => 5
  | .dh => 6
  | .bh => 7

/-- the word register that the byte register is a half of -/
def ByteRegister.owner : ByteRegister → WordRegister
  | .al | .ah => .ax
  | .bl | .bh => .bx
  | .cl | .ch => .cx
  | .dl | .dh => .dx

theorem ByteRegister.owner_ne_ip (r : ByteRegister) : r.owner ≠ .ip := by
  cases r <;> exact WordRegister.noConfusion

/-- whether the byte register is the high half of its owner -/
def ByteRegister.isHigh : ByteRegister → Bool
  | .al | .cl | .dl | .bl => false
  | .ah | .ch | .dh | .bh => true

/-! ## both -/

def Register.name : Register → String
  | .word r => r.name
  | .byte r => r.name

def Register.width : Register → Width
  | .word _ => .word
  | .byte _ => .byte

/-- the number of the register in an opcode, 0 where there is none -/
def Register.code : Register → Byte
  | .word r => r.code?.getD 0
  | .byte r => r.code

/-- whether the register is the one that has short opcodes of its own -/
def Register.isAccumulator (r : Register) : Bool := r == .word .ax || r == .byte .al

/-- the registers that a program text can name -/
def Register.named : List Register :=
  (WordRegister.all.filter (· ≠ .ip)).map .word ++ ByteRegister.all.map .byte

/-- the register that the text names, in upper or lower case -/
def Register.ofText? (t : Text) : Option Register :=
  Register.named.find? fun r => r.name.toList == upper t

theorem Register.ofText?_eq_some {t : Text} {r : Register} (h : Register.ofText? t = some r) :
    r ∈ Register.named ∧ r.name.toList = upper t :=
  ⟨List.mem_of_find?_eq_some h, by simpa using List.find?_some h⟩

example : Register.ofText? "dH".toList = some (.byte .dh) ∧
    Register.ofText? "IP".toList = none := by decide

end Mini8086
