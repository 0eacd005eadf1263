import Mini8086.Machine.Alu

/-!
# Arithmetic in 32 bits

Bytes and words can be worked on in numbers of 32 bits.  The result may then have bits above the
width, the carry is found by comparing what was not cut, and the flags are those of the result under
a mask.  Cut to its width, the result is that of the operation at this width, and the flags are the
same.

* `Flags.afterMasked_eq`   flags from a number under a mask;
* `AluOp.evalWide_eq`, `UnaryOp.evalWide_eq`, `Direction.evalWide_eq`   the operations.
-/

namespace Mini8086

/-! ## flags under a mask -/

/-- the mask of a width, in 32 bits -/
def Width.wideMask (w : Width) : BitVec 32 := BitVec.ofNat 32 w.mask

/-- the highest bit of a width, in 32 bits -/
def Width.wideSign (w : Width) : BitVec 32 := BitVec.ofNat 32 (1 <<< (w.bits - 1))

/-- The flags after a result of which only the bits under the mask of the width count. -/
def Flags.afterMasked (f : Flags) (w : Width) (raw : BitVec 32) : Flags :=
  let r := raw &&& w.wideMask
  { f with zero := r == 0, sign := r &&& w.wideSign != 0, parity := evenOnes (r.setWidth 8) }

theorem Width.bits_le (w : Width) : w.bits ≤ 32 := by cases w <;> decide

theorem Width.bits_pos (w : Width) : 0 < w.bits := by cases w <;> decide

/-- Whether a bit is set is whether anything is left under it. -/
theorem and_twoPow_bne {k : Nat} (hk : k < 32) (x : BitVec 32) :
    (x &&& BitVec.twoPow 32 k != 0) = x.getLsbD k := by
  have hne : BitVec.twoPow 32 k ≠ 0 := by
    rw [ne_eq, ← BitVec.toNat_inj, BitVec.toNat_twoPow_of_lt hk]
    exact Nat.ne_of_gt (Nat.two_pow_pos k)
  rw [BitVec.and_twoPow]
  cases x.getLsbD k with
  | true => simpa using hne
  | false => rfl

section
variable {w : Width}

/-! ### widened numbers -/

section
variable (a : BitVec w.bits)

theorem setWidth_wide : (a.setWidth 32).setWidth w.bits = a := by
  rw [BitVec.setWidth_setWidth_of_le _ w.bits_le, BitVec.setWidth_eq]

theorem toNat_wide : (a.setWidth 32).toNat = a.toNat := by
  rw [BitVec.toNat_setWidth]
  exact Nat.mod_eq_of_lt (Nat.lt_of_lt_of_le a.isLt (Nat.pow_le_pow_right (by decide) w.bits_le))

theorem wide_beq_zero : (a.setWidth 32 == 0) = (a == 0) := by
  rw [Bool.beq_eq_decide_eq, Bool.beq_eq_decide_eq, decide_eq_decide, ← BitVec.toNat_inj,
    toNat_wide, ← BitVec.toNat_inj]
  rfl

theorem getLsbD_wide : (a.setWidth 32).getLsbD (w.bits - 1) = a.msb := by
  have hlt : w.bits - 1 < 32 := Nat.lt_of_lt_of_le (Nat.sub_lt w.bits_pos Nat.one_pos) w.bits_le
  rw [BitVec.getLsbD_setWidth, decide_eq_true hlt, Bool.true_and, BitVec.msb_eq_getLsbD_last]

end

/-! ### masked numbers -/

variable (x : BitVec 32)

/-- To mask a number is to cut it and to widen it again. -/
theorem Width.and_wideMask : x &&& w.wideMask = (x.setWidth w.bits).setWidth 32 := by
  apply BitVec.eq_of_toNat_eq
  have hmask : w.wideMask.toNat = 2 ^ w.bits - 1 := by cases w <;> rfl
  rw [BitVec.toNat_and, hmask, Nat.and_two_pow_sub_one_eq_mod, toNat_wide, BitVec.toNat_setWidth]

theorem setWidth_masked : (x &&& w.wideMask).setWidth w.bits = x.setWidth w.bits := by
  rw [w.and_wideMask, setWidth_wide]

theorem Width.and_wideSign : (x &&& w.wideSign != 0) = x.getLsbD (w.bits - 1) := by
  have hsign : w.wideSign = BitVec.twoPow 32 (w.bits - 1) := by cases w <;> rfl
  have hlt : w.bits - 1 < 32 := Nat.lt_of_lt_of_le (Nat.sub_lt w.bits_pos Nat.one_pos) w.bits_le
  rw [hsign, and_twoPow_bne hlt]

theorem Flags.afterMasked_eq (f : Flags) : f.afterMasked w x = f.after (x.setWidth w.bits) := by
  unfold Flags.afterMasked Flags.after
  dsimp only
  rw [w.and_wideSign, w.and_wideMask, wide_beq_zero, getLsbD_wide,
    BitVec.setWidth_setWidth_of_le _ (by decide)]

end

/-! ## the operations -/

/-- a carry in 32 bits -/
def wideCarry (c : Bool) : BitVec 32 := (BitVec.ofBool c).setWidth 32

/-- a result of 32 bits with its carry, as result and flags -/
def Flags.afterWide (f : Flags) (w : Width) (raw : BitVec 32) (carry : Bool) :
    BitVec 32 × Flags :=
  (raw, { f with carry := carry }.afterMasked w raw)

/-- The operation in 32 bits on two numbers of the width. -/
def AluOp.evalWide (f : Flags) (w : Width) (a b : BitVec 32) : AluOp → BitVec 32 × Flags
  | .add => f.afterWide w (a + b) (decide (w.wideMask < a + b))
  | .adc =>
    let sum := a + b + wideCarry f.carry
    f.afterWide w sum (decide (w.wideMask < sum))
  | .sub | .cmp => f.afterWide w (a - b) (decide (a < b))
  | .sbb => f.afterWide w (a - b - wideCarry f.carry) (decide (a < b + wideCarry f.carry))
  | .or => (a ||| b, f.afterMasked w (a ||| b))
  | .and => (a &&& b, (f.afterMasked w (a &&& b)).logical)
  | .xor => (a ^^^ b, (f.afterMasked w (a ^^^ b)).logical)

def UnaryOp.evalWide (f : Flags) (w : Width) (v : BitVec 32) : UnaryOp → BitVec 32 × Flags
  | .inc => ((v + 1) &&& w.wideMask, f.afterMasked w ((v + 1) &&& w.wideMask))
  | .dec => ((v - 1) &&& w.wideMask, f.afterMasked w ((v - 1) &&& w.wideMask))
  | .not => (~~~v &&& w.wideMask, f.afterMasked w (~~~v &&& w.wideMask))
  | .neg => f.afterWide w ((0 - v) &&& w.wideMask) (v != 0)

def Direction.evalWide (f : Flags) (w : Width) (v : BitVec 32) : Direction → BitVec 32 × Flags
  | .left => f.afterWide w ((v <<< 1) &&& w.wideMask) (v &&& w.wideSign != 0)
  | .right => f.afterWide w (v >>> 1) (v &&& 1 != 0)

/-! ## cut to the width -/

/-- a result of 32 bits cut to the width -/
def cutResult (w : Width) (p : BitVec 32 × Flags) : BitVec w.bits × Flags :=
  (p.1.setWidth w.bits, p.2)

section
variable {w : Width} {f : Flags}

theorem cutResult_afterWide (raw : BitVec 32) (c : Bool) :
    cutResult w (f.afterWide w raw c) = f.afterCarry (raw.setWidth w.bits, c) := by
  unfold cutResult Flags.afterWide Flags.afterCarry
  rw [Flags.afterMasked_eq]

theorem cutResult_afterMasked (raw : BitVec 32) :
    cutResult w (raw, f.afterMasked w raw) =
      (raw.setWidth w.bits, f.after (raw.setWidth w.bits)) := by
  unfold cutResult
  rw [Flags.afterMasked_eq]

theorem toNat_wideCarry (c : Bool) : (wideCarry c).toNat = c.toNat := by cases c <;> rfl

theorem setWidth_wideCarry (c : Bool) :
    (wideCarry c).setWidth w.bits = BitVec.ofNat w.bits c.toNat := by
  apply BitVec.eq_of_toNat_eq
  rw [BitVec.toNat_setWidth, toNat_wideCarry, BitVec.toNat_ofNat]

theorem setWidth_wideSub (x y : BitVec 32) :
    (x - y).setWidth w.bits = x.setWidth w.bits - y.setWidth w.bits := by
  rw [BitVec.sub_eq_add_neg, BitVec.setWidth_add _ _ w.bits_le, BitVec.setWidth_neg_of_le w.bits_le,
    ← BitVec.sub_eq_add_neg]

section
variable (hw : w.bits ≤ 16) (a b : BitVec w.bits) (c : Bool)
include hw

/-- Two numbers and a carry are added without loss. -/
theorem toNat_wideSum : (a.setWidth 32 + b.setWidth 32 + wideCarry c).toNat =
    a.toNat + b.toNat + c.toNat := by
  have hle := Nat.pow_le_pow_right (n := 2) (by decide) hw
  have ha := a.isLt
  have hb := b.isLt
  have hc := c.toNat_le
  rw [BitVec.toNat_add, BitVec.toNat_add, toNat_wide, toNat_wide, toNat_wideCarry]
  omega

theorem wideSum_eq :
    ((a.setWidth 32 + b.setWidth 32 + wideCarry c).setWidth w.bits,
      decide (w.wideMask < a.setWidth 32 + b.setWidth 32 + wideCarry c)) = addWith a b c := by
  have hmask : w.wideMask.toNat + 1 = 1 <<< w.bits := by cases w <;> rfl
  unfold addWith
  rw [Prod.mk.injEq]
  constructor
  · rw [BitVec.setWidth_add _ _ w.bits_le, BitVec.setWidth_add _ _ w.bits_le, setWidth_wide,
      setWidth_wide, setWidth_wideCarry]
  · rw [decide_eq_decide, BitVec.lt_def, toNat_wideSum hw, ← hmask]
    rfl

theorem wideDifference_eq :
    ((a.setWidth 32 - b.setWidth 32 - wideCarry c).setWidth w.bits,
      decide (a.setWidth 32 < b.setWidth 32 + wideCarry c)) = subWith a b c := by
  have hsum : (b.setWidth 32 + wideCarry c).toNat = b.toNat + c.toNat := by
    simpa using toNat_wideSum hw 0 b c
  unfold subWith
  rw [Prod.mk.injEq]
  constructor
  · rw [setWidth_wideSub, setWidth_wideSub, setWidth_wide, setWidth_wide, setWidth_wideCarry]
  · rw [decide_eq_decide, BitVec.lt_def, hsum, toNat_wide]

theorem AluOp.evalWide_eq (op : AluOp) :
    cutResult w (op.evalWide f w (a.setWidth 32) (b.setWidth 32)) = op.eval f a b := by
  have hnone : wideCarry false = 0#32 := rfl
  have hsum := wideSum_eq hw a b false
  have hdifference := wideDifference_eq hw a b false
  rw [hnone, BitVec.add_zero] at hsum
  rw [hnone, BitVec.add_zero, BitVec.sub_zero] at hdifference
  cases op with
  | add => exact (cutResult_afterWide _ _).trans (congrArg f.afterCarry hsum)
  | adc => exact (cutResult_afterWide _ _).trans (congrArg f.afterCarry (wideSum_eq hw a b _))
  | sub | cmp => exact (cutResult_afterWide _ _).trans (congrArg f.afterCarry hdifference)
  | sbb =>
    exact (cutResult_afterWide _ _).trans (congrArg f.afterCarry (wideDifference_eq hw a b _))
  | or =>
    refine (cutResult_afterMasked _).trans ?_
    rw [BitVec.setWidth_or, setWidth_wide, setWidth_wide]
    rfl
  | and =>
    unfold AluOp.evalWide cutResult
    dsimp only
    rw [Flags.afterMasked_eq, BitVec.setWidth_and, setWidth_wide, setWidth_wide]
    rfl
  | xor =>
    unfold AluOp.evalWide cutResult
    dsimp only
    rw [Flags.afterMasked_eq, BitVec.setWidth_xor, setWidth_wide, setWidth_wide]
    rfl

end

variable (v : BitVec w.bits)

theorem UnaryOp.evalWide_eq (op : UnaryOp) :
    cutResult w (op.evalWide f w (v.setWidth 32)) = op.eval f v := by
  have hone : (1 : BitVec 32).setWidth w.bits = 1 := by cases w <;> rfl
  cases op with
  | inc =>
    refine (cutResult_afterMasked _).trans ?_
    rw [setWidth_masked, BitVec.setWidth_add _ _ w.bits_le, setWidth_wide, hone]
    rfl
  | dec =>
    refine (cutResult_afterMasked _).trans ?_
    rw [setWidth_masked, setWidth_wideSub, setWidth_wide, hone]
    rfl
  | not =>
    refine (cutResult_afterMasked _).trans ?_
    rw [setWidth_masked, BitVec.setWidth_not w.bits_le, setWidth_wide]
    rfl
  | neg =>
    have hneg : (0 - v.setWidth 32).setWidth w.bits = -v := by
      rw [setWidth_wideSub, setWidth_wide]
      simp
    refine (cutResult_afterWide _ _).trans ?_
    rw [setWidth_masked, hneg, bne, wide_beq_zero]
    rfl

theorem Direction.evalWide_eq (d : Direction) :
    cutResult w (d.evalWide f w (v.setWidth 32)) = d.eval f v := by
  cases d with
  | left =>
    refine (cutResult_afterWide _ _).trans ?_
    rw [setWidth_masked, BitVec.setWidth_shiftLeft_of_le w.bits_le, setWidth_wide, w.and_wideSign,
      getLsbD_wide]
    rfl
  | right =>
    have hlow : (v.setWidth 32 &&& 1 != 0) = v.getLsbD 0 := by
      refine (and_twoPow_bne (k := 0) (by decide) _).trans ?_
      rw [BitVec.getLsbD_setWidth]
      rfl
    have hshift : (v.setWidth 32 >>> 1).setWidth w.bits = v >>> 1 := by
      rw [← BitVec.setWidth_ushiftRight w.bits_le, setWidth_wide]
    refine (cutResult_afterWide _ _).trans ?_
    rw [hlow, hshift]
    rfl

end

end Mini8086
