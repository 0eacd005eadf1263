import Mini8086.Text.Hex

/-!
# Signed hexadecimal numerals

A numeral is an optional minus sign, an optional `0x` or `0X`, and one or more hexadecimal digits.
`Numeral.read?` takes a text apart, `Numeral.value?` says which number it stands for, and `readHex?`
does both:

* without a sign the magnitude itself, which must be below `2 ^ 32`;
* with a sign the two's complement in 16 bits, for a magnitude of at most `8000` (hexadecimal).
-/

namespace Mini8086

structure Numeral where
  negative : Bool
  magnitude : Nat
  deriving DecidableEq, Repr

/-- the text after an optional `0x` or `0X` -/
def dropBasePrefix : Text → Text
  | '0' :: 'x' :: t => t
  | '0' :: 'X' :: t => t
  | t => t

/-- the numeral that a text spells -/
def Numeral.read? : Text → Option Numeral
  | '-' :: t => (hexValue? (dropBasePrefix t)).map (Numeral.mk true)
  | t => (hexValue? (dropBasePrefix t)).map (Numeral.mk false)

/-- the integer that a numeral writes down -/
def Numeral.toInt (n : Numeral) : Int := if n.negative then -n.magnitude else n.magnitude

/-- the number below `2 ^ 32` that a numeral stands for, if it is not too large -/
def Numeral.value? (n : Numeral) : Option Nat :=
  if 0x100000000 ≤ n.magnitude then none
  else if n.negative then
    if 0x8000 < n.magnitude then none else some ((0x10000 - n.magnitude) % 0x10000)
  else some n.magnitude

/-- the number that a text stands for as a signed hexadecimal numeral -/
def readHex? (t : Text) : Option Nat := (Numeral.read? t).bind Numeral.value?

example : readHex? "-1".toList = some 0xffff ∧ readHex? "-0".toList = some 0 := by decide
example : readHex? "0x0x1".toList = none ∧ readHex? "0x".toList = none := by decide
example : readHex? "-8001".toList = none ∧ readHex? "100000000".toList = none := by decide

end Mini8086
