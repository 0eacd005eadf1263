import Mini8086.Width

/-!
# Flags

The five flags are kept apart; `Flags.toWord` is the word in which each has its bit (`Flag.bit`).
Whole sets of flags are given as such words, and a word with any other bit names no set
(`Flags.isSet`).  `Status` is the word itself, as the processor keeps it.

`Flags.after` takes over what a result says: whether it is zero, its highest bit, and whether the
ones in its low byte are even in number.  It leaves carry and overflow alone.
-/

namespace Mini8086

inductive Flag where
  | carry | parity | zero | sign | overflow
  deriving DecidableEq, Repr

namespace Flag

def all : List Flag := [.carry, .parity, .zero, .sign, .overflow]

/-- the place of the flag in the word of flags -/
def bit : Flag → Nat
  | .carry => 0
  | .parity => 2
  | .zero => 6
  | .sign => 7
  | .overflow => 11

theorem bit_lt (g : Flag) : g.bit < 16 := by cases g <;> decide

/-- A place is that of a flag, or that of none. -/
theorem bit_or_ne (k : Nat) : (∃ g : Flag, g.bit = k) ∨ ∀ g : Flag, g.bit ≠ k :=
  (Classical.em (∃ g : Flag, g.bit = k)).imp_right not_exists.mp

theorem bit_inj {g h : Flag} : g.bit = h.bit ↔ g = h := by cases g <;> cases h <;> decide

end Flag

structure Flags where
  carry : Bool := false
  parity : Bool := false
  zero : Bool := false
  sign : Bool := false
  overflow : Bool := false
  deriving DecidableEq, Repr

namespace Flags

def get (f : Flags) : Flag → Bool
  | .carry => f.carry
  | .parity => f.parity
  | .zero => f.zero
  | .sign => f.sign
  | .overflow => f.overflow

def set (f : Flags) (g : Flag) (v : Bool) : Flags :=
  match g with
  | .carry => { f with carry := v }
  | .parity => { f with parity := v }
  | .zero => { f with zero := v }
  | .sign => { f with sign := v }
  | .overflow => { f with overflow := v }

theorem ext_get {f g : Flags} (h : ∀ k, f.get k = g.get k) : f = g := by
  rcases f with ⟨c, p, z, s, o⟩
  obtain rfl : c = g.carry := h .carry
  obtain rfl : p = g.parity := h .parity
  obtain rfl : z = g.zero := h .zero
  obtain rfl : s = g.sign := h .sign
  obtain rfl : o = g.overflow := h .overflow
  rfl

@[simp] theorem get_set (f : Flags) (g h : Flag) (v : Bool) :
    (f.set g v).get h = if h = g then v else f.get h := by
  cases g <;> cases h <;> rfl

/-- the bits that are flags -/
def mask : Word := 0x8c5

def toWord (f : Flags) : Word :=
  (BitVec.ofBool f.carry).setWidth 16 ||| (BitVec.ofBool f.parity).setWidth 16 <<< 2 |||
    (BitVec.ofBool f.zero).setWidth 16 <<< 6 ||| (BitVec.ofBool f.sign).setWidth 16 <<< 7 |||
    (BitVec.ofBool f.overflow).setWidth 16 <<< 11

/-- the flags whose bits are one in a word -/
def ofWord (w : Word) : Flags where
  carry := w.getLsbD 0
  parity := w.getLsbD 2
  zero := w.getLsbD 6
  sign := w.getLsbD 7
  overflow := w.getLsbD 11

@[simp] theorem get_ofWord (w : Word) (g : Flag) : (ofWord w).get g = w.getLsbD g.bit := by
  cases g <;> rfl

theorem ofWord_toWord (f : Flags) : ofWord f.toWord = f := by
  rcases f with ⟨c, p, z, s, o⟩
  cases c <;> cases p <;> cases z <;> cases s <;> cases o <;> rfl

/-- A bit of the word is one if it is that of a flag and the flag is set. -/
theorem getLsbD_toWord (f : Flags) (k : Nat) :
    f.toWord.getLsbD k = Flag.all.any fun g => g.bit == k && f.get g := by
  have hlow : ∀ c p z s o : Bool, ∀ k < 16, (Flags.mk c p z s o).toWord.getLsbD k =
      Flag.all.any fun g => g.bit == k && (Flags.mk c p z s o).get g := by decide +kernel
  by_cases hk : k < 16
  · exact hlow f.carry f.parity f.zero f.sign f.overflow k hk
  · rw [BitVec.getLsbD_of_ge _ _ (Nat.le_of_not_lt hk), eq_comm, List.any_eq_false]
    intro g _ hg
    rw [Bool.and_eq_true, beq_iff_eq] at hg
    exact hk (hg.1 ▸ g.bit_lt)

@[simp] theorem getLsbD_toWord_bit (f : Flags) (g : Flag) : f.toWord.getLsbD g.bit = f.get g := by
  rw [getLsbD_toWord]
  cases g <;> simp [Flag.all, Flag.bit]

/-- whether a word has ones only at flags -/
def isSet (w : Word) : Bool := w &&& ~~~mask == 0

theorem getLsbD_mask (k : Nat) : mask.getLsbD k = Flag.all.any fun g => g.bit == k := by
  have hall := getLsbD_toWord ⟨true, true, true, true, true⟩ k
  simp only [Flag.all, get, Bool.and_true, List.any_cons, List.any_nil] at hall ⊢
  exact hall

theorem getLsbD_mask_bit (g : Flag) : mask.getLsbD g.bit = true := by cases g <;> rfl

theorem getLsbD_mask_of_ne {k : Nat} (hk : ∀ g : Flag, g.bit ≠ k) : mask.getLsbD k = false := by
  rw [getLsbD_mask]
  exact List.any_eq_false.mpr fun g _ => by simp [hk g]

theorem isSet_iff {w : Word} :
    isSet w = true ↔ ∀ k, (∀ g : Flag, g.bit ≠ k) → w.getLsbD k = false := by
  have hbit (k : Nat) (hk : k < 16) :
      (w &&& ~~~mask).getLsbD k = (w.getLsbD k && !mask.getLsbD k) := by
    simp [hk]
  rw [isSet, beq_iff_eq]
  constructor
  · intro h k hg
    by_cases hk : k < 16
    · have hz := hbit k hk
      rw [h, getLsbD_mask_of_ne hg] at hz
      simpa using hz.symm
    · exact BitVec.getLsbD_of_ge _ _ (Nat.le_of_not_lt hk)
  · intro h
    refine BitVec.eq_of_getLsbD_eq fun k hk => (hbit k hk).trans ?_
    obtain ⟨g, rfl⟩ | hg := Flag.bit_or_ne k
    · simp [getLsbD_mask_bit]
    · simp [h k hg]

/-- the flags of the word set, unless it is no set of flags -/
def setAll? (f : Flags) (w : Word) : Option Flags :=
  if isSet w then some (ofWord (f.toWord ||| w)) else none

/-- the flags of the word cleared, unless it is no set of flags -/
def clearAll? (f : Flags) (w : Word) : Option Flags :=
  if isSet w then some (ofWord (f.toWord &&& ~~~w)) else none

/-- whether the number of ones in a byte is even -/
def evenOnes (b : Byte) : Bool := (List.range 8).countP (b.getLsbD ·) % 2 == 0

/-- the flags after a result: zero, sign and parity are those of the result -/
def after {n : Nat} (f : Flags) (r : BitVec n) : Flags :=
  { f with zero := r == 0, sign := r.msb, parity := evenOnes (r.setWidth 8) }

end Flags

end Mini8086
