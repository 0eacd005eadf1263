import Mini8086.Machine.Flags
import Mini8086.Mnemonic

/-!
# Arithmetic and logic

What the operations compute, at any width `n`, and which flags they leave.

* `AluOp.eval`      sums, differences and logic of two numbers;
* `UnaryOp.eval`    one number counted up or down, complemented or negated;
* `Direction.eval`  one number shifted by one bit;
* `product`         the full product, at twice the width;
* `Condition.holds` whether the flags let a branch be taken.

Sums and differences never touch the overflow flag, and only `and` and `xor` clear it.
-/

namespace Mini8086

variable {n : Nat}

/-! ## two operands -/

/-- the sum with an incoming carry, and the carry out of the highest bit -/
def addWith (a b : BitVec n) (c : Bool) : BitVec n × Bool :=
  (a + b + BitVec.ofNat n c.toNat, decide (1 <<< n ≤ a.toNat + b.toNat + c.toNat))

/-- the difference with an incoming borrow, and the borrow that it takes -/
def subWith (a b : BitVec n) (c : Bool) : BitVec n × Bool :=
  (a - b - BitVec.ofNat n c.toNat, decide (a.toNat < b.toNat + c.toNat))

/-- a result with its carry, as result and flags -/
def Flags.afterCarry (f : Flags) (p : BitVec n × Bool) : BitVec n × Flags :=
  (p.1, { f with carry := p.2 }.after p.1)

/-- the flags without carry and overflow -/
def Flags.logical (f : Flags) : Flags := { f with carry := false, overflow := false }

/-- The result of the operation on `a` and `b`, and the flags after it.  `cmp` is the difference,
which the machine does not store. -/
def AluOp.eval (f : Flags) (a b : BitVec n) : AluOp → BitVec n × Flags
  | .add => f.afterCarry (addWith a b false)
  | .adc => f.afterCarry (addWith a b f.carry)
  | .sub => f.afterCarry (subWith a b false)
  | .sbb => f.afterCarry (subWith a b f.carry)
  | .cmp => f.afterCarry (subWith a b false)
  | .or => (a ||| b, f.after (a ||| b))
  | .and => (a &&& b, f.logical.after (a &&& b))
  | .xor => (a ^^^ b, f.logical.after (a ^^^ b))

/-! ## one operand -/

def UnaryOp.eval (f : Flags) (v : BitVec n) : UnaryOp → BitVec n × Flags
  | .inc => (v + 1, f.after (v + 1))
  | .dec => (v - 1, f.after (v - 1))
  | .not => (~~~v, f.after (~~~v))
  | .neg => f.afterCarry (-v, v != 0)

/-- the number shifted by one bit; the bit that falls out is the carry -/
def Direction.eval (f : Flags) (v : BitVec n) : Direction → BitVec n × Flags
  | .left => f.afterCarry (v <<< 1, v.msb)
  | .right => f.afterCarry (v >>> 1, v.getLsbD 0)

/-! ## products -/

/-- the full product of two numbers -/
def product (a b : BitVec n) : BitVec (n + n) := a.setWidth (n + n) * b.setWidth (n + n)

theorem toNat_product (a b : BitVec n) : (product a b).toNat = a.toNat * b.toNat := by
  have ha : a.toNat < 2 ^ n := a.isLt
  have hb : b.toNat < 2 ^ n := b.isLt
  have hle : 2 ^ n ≤ 2 ^ (n + n) := Nat.pow_le_pow_right (by decide) (Nat.le_add_right n n)
  have hab : a.toNat * b.toNat < 2 ^ (n + n) := by
    rw [Nat.pow_add]
    exact Nat.mul_lt_mul'' ha hb
  rw [product, BitVec.toNat_mul, BitVec.toNat_setWidth, BitVec.toNat_setWidth,
    Nat.mod_eq_of_lt (Nat.lt_of_lt_of_le ha hle), Nat.mod_eq_of_lt (Nat.lt_of_lt_of_le hb hle),
    Nat.mod_eq_of_lt hab]

/-! ## conditions -/

/-- What a branch asks of the flags.  After a comparison, `below` and `above` speak of numbers
without sign, `less` and `greater` of numbers with one. -/
inductive Condition where
  | always
  | equal
  | notEqual
  | below
  | notBelow
  | above
  | notAbove
  | greater
  | less
  | notLess
  | notGreater
  deriving DecidableEq, Repr

def Condition.holds (f : Flags) : Condition → Bool
  | .always => true
  | .equal => f.zero
  | .notEqual => !f.zero
  | .below => f.carry
  | .notBelow => !f.carry
  | .above => !f.carry && !f.zero
  | .notAbove => f.carry || f.zero
  | .greater => !f.zero && f.sign == f.overflow
  | .less => f.sign != f.overflow
  | .notLess => f.sign == f.overflow
  | .notGreater => f.zero || f.sign != f.overflow

/-- the condition of a branch; the counting loop depends on a register instead -/
def Branch.condition? : Branch → Option Condition
  | .jmp => some .always
  | .jz => some .equal
  | .jnz => some .notEqual
  | .jb | .jc => some .below
  | .jnb | .jnc => some .notBelow
  | .ja => some .above
  | .jna => some .notAbove
  | .jg => some .greater
  | .jl => some .less
  | .jge | .jnl => some .notLess
  | .jle => some .notGreater
  | .loop => none

end Mini8086
