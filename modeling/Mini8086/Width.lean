import Mini8086.Text.Basic

/-!
# Widths of data

Data is a byte, a word of two bytes, or a double word of four; only a product is a double word.
`Width.mask`, `Width.signBit` and `Width.fits` look at a number through the low bits of one width.

Addresses are natural numbers.  Memory sees an address modulo `2 ^ 20`, the instruction pointer
modulo `2 ^ 16`.
-/

namespace Mini8086

abbrev Byte := BitVec 8
abbrev Word := BitVec 16
abbrev Address := Nat

/-- The number that two numbers are, put side by side. -/
theorem toNat_append_eq {m n : Nat} (x : BitVec m) (y : BitVec n) :
    (x ++ y).toNat = x.toNat * 1 <<< n + y.toNat := by
  rw [BitVec.toNat_append, ← Nat.shiftLeft_add_eq_or_of_lt y.isLt, Nat.shiftLeft_eq,
    Nat.one_shiftLeft]

inductive Width where
  | byte
  | word
  | dword
  deriving DecidableEq, Repr

def Width.bytes : Width → Nat
  | .byte => 1
  | .word => 2
  | .dword => 4

def Width.bits : Width → Nat
  | .byte => 8
  | .word => 16
  | .dword => 32

theorem Width.bits_eq (w : Width) : w.bits = 8 * w.bytes := by cases w <;> rfl

/-- the greatest number of the width -/
def Width.mask (w : Width) : Nat := 1 <<< w.bits - 1

/-- the number cut to the width -/
def Width.cut (w : Width) (n : Nat) : BitVec w.bits := BitVec.ofNat w.bits n

/-- the highest bit of the number cut to the width -/
def Width.signBit (w : Width) (n : Nat) : Bool := (w.cut n).msb

/-- whether a number of 16 bits stands for one of the width: it is one already, or it is the
two's complement of a negative one -/
def Width.fits (w : Width) (v : Word) : Bool :=
  decide (v.toNat < 1 <<< w.bits) || decide (0x10000 ≤ v.toNat + 1 <<< (w.bits - 1))

example : Width.byte.fits 0xff = true ∧ Width.byte.fits 0xff80 = true ∧
    Width.byte.fits 0x100 = false ∧ Width.byte.fits 0xff7f = false := by decide

end Mini8086
