import Mini8086.Text.Blank
import Mini8086.Text.Numeral
import Mini8086.Width

/-!
# Values of options

* an address is a signed hexadecimal numeral;
* a length is a decimal number below `2 ^ 64`, with an optional plus sign;
* a range of memory is `ADDR:LEN`;
* a poke is `ADDR:HEXBYTES`, where blanks of ASCII between the digits do not count.

In a range and in a poke the part after the colon is read first.  Two characters of a poke are one
byte: two digits, or a plus sign and a digit.
-/

namespace Mini8086

/-- Why a text is no length. -/
inductive LengthError where
  | empty
  | notDigit
  | tooLarge
  deriving DecidableEq, Repr

def LengthError.message : LengthError → String
  | .empty => "cannot parse integer from empty string"
  | .notDigit => "invalid digit found in string"
  | .tooLarge => "number too large to fit in target type"

/-- Why the value of an option is refused. -/
inductive ValueError where
  | address (text : Text)
  | noRange (text : Text)
  | length (text : Text) (e : LengthError)
  | noPoke (text : Text)
  | digitCount (text : Text)
  | byte (text : Text)
  | number (e : LengthError)
  deriving DecidableEq, Repr

def ValueError.message : ValueError → String
  | .address t => s!"Invalid hex address {String.ofList t}"
  | .noRange t => s!"Expected ADDR:LEN, got {String.ofList t}"
  | .length t e => s!"Invalid length {String.ofList t}: {e.message}"
  | .noPoke t => s!"Expected ADDR:HEXBYTES, got {String.ofList t}"
  | .digitCount t => s!"Expected an even number of hex digits, got {String.ofList t}"
  | .byte t => s!"Invalid hex byte in {String.ofList t}"
  | .number e => e.message

/-! ## addresses and lengths -/

def readAddress (t : Text) : Except ValueError Address :=
  match readHex? t with
  | some a => .ok a
  | none => .error (.address t)

/-- The number that starts with the digits of `high` and goes on with those of the text.  It is too
large as soon as its digits up to some place are. -/
def decimalFrom (high : Nat) : Text → Except LengthError Nat
  | [] => .ok high
  | c :: t =>
    if !c.isDigit then .error .notDigit
    else
      let n := 10 * high + (c.toNat - '0'.toNat)
      if n < 0x10000000000000000 then decimalFrom n t else .error .tooLarge

def readLength : Text → Except LengthError Nat
  | [] => .error .empty
  | '+' :: t => if t = [] then .error .notDigit else decimalFrom 0 t
  | t => decimalFrom 0 t

/-- A part of memory. -/
structure MemoryRange where
  address : Address
  length : Nat
  deriving DecidableEq, Repr

def MemoryRange.read (t : Text) : Except ValueError MemoryRange :=
  match splitFirst? ':' t with
  | none => .error (.noRange t)
  | some (addr, len) =>
    match readLength len with
    | .error e => .error (.length len e)
    | .ok n => (readAddress addr).map fun a => ⟨a, n⟩

/-! ## pokes -/

/-- Bytes to be put into memory. -/
structure Poke where
  address : Address
  bytes : List Byte
  deriving DecidableEq, Repr

/-- the byte that two characters spell -/
def pairByte? (a b : Char) : Option Byte :=
  if a = '+' then (hexDigit? b).map (BitVec.ofNat 8)
  else (hexDigit? a).bind fun x => (hexDigit? b).map fun y => BitVec.ofNat 8 (16 * x + y)

/-- the bytes that a text of pairs spells -/
def pairsBytes? : Text → Option (List Byte)
  | [] => some []
  | [_] => none
  | a :: b :: t => (pairByte? a b).bind fun x => (pairsBytes? t).map (x :: ·)

/-- the number of bytes that a text takes when it is stored -/
def storedSize (t : Text) : Nat := t.foldr (fun c n => c.utf8Size + n) 0

def readBytes (t : Text) : Except ValueError (List Byte) :=
  let digits := t.filter fun c => !isAsciiBlank c
  if digits = [] || storedSize digits % 2 ≠ 0 then .error (.digitCount t)
  else
    match pairsBytes? digits with
    | some bs => .ok bs
    | none => .error (.byte t)

def Poke.read (t : Text) : Except ValueError Poke :=
  match splitFirst? ':' t with
  | none => .error (.noPoke t)
  | some (addr, bytes) => do
    let bs ← readBytes bytes
    let a ← readAddress addr
    return ⟨a, bs⟩

end Mini8086
