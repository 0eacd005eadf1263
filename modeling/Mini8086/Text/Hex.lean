import Mini8086.Text.Basic

/-!
# Hexadecimal digits

Numbers are written in base sixteen with the digits `0` to `9` and `A` to `F`: `hex` with as few
digits as the number needs, `hexPadded` with zeros in front up to a least width.  `hexDigit?` reads
one digit in either case and `hexValue?` a text of digits.
-/

namespace Mini8086

/-- the number in base sixteen, without leading zeros (zero is one digit) -/
def hex (n : Nat) : Text := upper (Nat.toDigits 16 n)

/-- the number in base sixteen, with at least `width` digits -/
def hexPadded (width n : Nat) : Text := (hex n).leftpad width '0'

/-- the value of a digit of base sixteen -/
def hexDigit? (c : Char) : Option Nat :=
  if '0' ≤ c ∧ c ≤ '9' then some (c.toNat - '0'.toNat)
  else if 'A' ≤ c ∧ c ≤ 'F' then some (c.toNat - 'A'.toNat + 10)
  else if 'a' ≤ c ∧ c ≤ 'f' then some (c.toNat - 'a'.toNat + 10)
  else none

/-- the number that starts with the digits of `high` and goes on with those of the text -/
def hexValueFrom? (high : Nat) : Text → Option Nat
  | [] => some high
  | c :: t => (hexDigit? c).bind fun d => hexValueFrom? (16 * high + d) t

/-- the value of a text of digits; a text without any digit has none -/
def hexValue? (t : Text) : Option Nat := if t = [] then none else hexValueFrom? 0 t

@[simp] theorem hexValueFrom?_nil (high : Nat) : hexValueFrom? high [] = some high := rfl
@[simp] theorem hexValueFrom?_cons (high : Nat) (c : Char) (t : Text) :
    hexValueFrom? high (c :: t) = (hexDigit? c).bind fun d => hexValueFrom? (16 * high + d) t := rfl

example : hex 0x1F4 = "1F4".toList ∧ hexPadded 4 0x2A = "002A".toList := by decide
example : hexValue? "00fF".toList = some 255 ∧ hexValue? [] = none := by decide

end Mini8086
