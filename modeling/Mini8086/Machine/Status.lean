import Mini8086.Machine.Flags

/-!
# The word of flags

The processor keeps its flags in one word.  A flag is read by a shift and a mask; it is written by
clearing its bit and then putting the value in.  Nothing in the type keeps the other bits clear:
that they stay as they are is a law of every way to write the word.

* `Status.getLsbD_set`     one bit is written, and no other one;
* `Flags.inWord`           flags put into a word; every word is such (`Status.inWord_flags`);
* `Flags.set_inWord`, `Flags.setAll?_inWord`, `Flags.clearAll?_inWord`
                           what is written into the word is what is written into the flags, and
                           its other bits stay.
-/

namespace Mini8086

structure Status where
  word : Word := 0
  deriving DecidableEq, Repr

namespace Status

/-- whether the bit at a place is one -/
def bit (s : Status) (k : Nat) : Bool := s.word >>> k &&& 1 != 0

/-- the bit at a place cleared, and the value put there -/
def withBit (s : Status) (k : Nat) (v : Bool) : Status :=
  ⟨s.word &&& ~~~((1 : Word) <<< k) ||| (BitVec.ofBool v).setWidth 16 <<< k⟩

def get (s : Status) (g : Flag) : Bool := s.bit g.bit

def set (s : Status) (g : Flag) (v : Bool) : Status := s.withBit g.bit v

/-- the flags of the word set, unless it is no set of flags -/
def setAll? (s : Status) (w : Word) : Option Status :=
  if Flags.isSet w then some ⟨s.word ||| w⟩ else none

/-- the flags of the word cleared, unless it is no set of flags -/
def clearAll? (s : Status) (w : Word) : Option Status :=
  if Flags.isSet w then some ⟨s.word &&& ~~~w⟩ else none

/-- the flags one by one -/
def flags (s : Status) : Flags where
  carry := s.get .carry
  parity := s.get .parity
  zero := s.get .zero
  sign := s.get .sign
  overflow := s.get .overflow

/-! ## bits -/

theorem bit_eq (s : Status) (k : Nat) : s.bit k = s.word.getLsbD k := by
  have hone (w : Word) : (w &&& 1 != 0) = w.getLsbD 0 := by
    rw [show (1 : Word) = 1#16 from rfl, BitVec.and_one_eq_setWidth_ofBool_getLsbD]
    cases w.getLsbD 0 <;> rfl
  rw [bit, hone, BitVec.getLsbD_ushiftRight, Nat.add_zero]

theorem getLsbD_withBit (s : Status) (hk : k < 16) (v : Bool) (j : Nat) :
    (s.withBit k v).word.getLsbD j = if j = k then v else s.word.getLsbD j := by
  by_cases hj : j < 16
  · simp only [withBit, BitVec.getLsbD_or, BitVec.getLsbD_and, BitVec.getLsbD_not,
      BitVec.getLsbD_shiftLeft, BitVec.getLsbD_setWidth, BitVec.getLsbD_ofBool]
    by_cases hjk : j = k
    · simp [hjk, hk]
    · by_cases hlt : j < k
      · simp [hj, hjk, hlt]
      · simp [hj, hjk, hlt, show j - k ≠ 0 by omega]
  · have hge : 16 ≤ j := Nat.le_of_not_lt hj
    rw [BitVec.getLsbD_of_ge _ _ hge, BitVec.getLsbD_of_ge _ _ hge, if_neg (by omega)]

theorem get_eq (s : Status) (g : Flag) : s.get g = s.word.getLsbD g.bit := s.bit_eq g.bit

@[simp] theorem getLsbD_set (s : Status) (g : Flag) (v : Bool) (k : Nat) :
    (s.set g v).word.getLsbD k = if k = g.bit then v else s.word.getLsbD k :=
  s.getLsbD_withBit g.bit_lt v k

@[simp] theorem get_set (s : Status) (g h : Flag) (v : Bool) :
    (s.set g v).get h = if h = g then v else s.get h := by
  simp [get_eq, Flag.bit_inj]

@[simp] theorem get_flags (s : Status) (g : Flag) : s.flags.get g = s.get g := by cases g <;> rfl

/-- A word is known by its flags and its other bits. -/
theorem ext_flags {s t : Status} (hf : ∀ g, s.get g = t.get g)
    (hs : ∀ k, (∀ g : Flag, g.bit ≠ k) → s.word.getLsbD k = t.word.getLsbD k) : s = t := by
  have hw : s.word = t.word := by
    refine BitVec.eq_of_getLsbD_eq fun k _ => ?_
    obtain ⟨g, rfl⟩ | hg := Flag.bit_or_ne k
    · rw [← get_eq, ← get_eq, hf]
    · exact hs k hg
  cases s
  cases t
  exact congrArg Status.mk hw

end Status

/-! ## flags in a word -/

/-- the word with the given flags in it; its other bits stay as they are -/
def Flags.inWord (f : Flags) (w : Word) : Status := ⟨w &&& ~~~mask ||| f.toWord⟩

namespace Flags
variable (f : Flags) (w b : Word)

theorem getLsbD_inWord (k : Nat) :
    (f.inWord w).word.getLsbD k = (w.getLsbD k && !mask.getLsbD k || f.toWord.getLsbD k) := by
  by_cases hk : k < 16
  · simp [inWord, hk]
  · have hge : 16 ≤ k := Nat.le_of_not_lt hk
    simp [inWord, BitVec.getLsbD_of_ge _ _ hge]

@[simp] theorem getLsbD_inWord_bit (g : Flag) : (f.inWord w).word.getLsbD g.bit = f.get g := by
  simp [getLsbD_inWord, getLsbD_mask_bit]

@[simp] theorem get_inWord (g : Flag) : (f.inWord w).get g = f.get g := by simp [Status.get_eq]

/-- the other bits are those of the word -/
theorem getLsbD_inWord_of_ne {k : Nat} (hk : ∀ g : Flag, g.bit ≠ k) :
    (f.inWord w).word.getLsbD k = w.getLsbD k := by
  rw [getLsbD_inWord, getLsbD_toWord, getLsbD_mask_of_ne hk, List.any_eq_false.mpr]
  · simp
  · simp [hk]

@[simp] theorem flags_inWord : (f.inWord w).flags = f :=
  Flags.ext_get fun g => by simp

theorem isSet_inWord : isSet (f.inWord w).word = isSet w := by
  rw [Bool.eq_iff_iff, isSet_iff, isSet_iff]
  exact forall_congr' fun k => forall_congr' fun hk => by rw [getLsbD_inWord_of_ne f w hk]

theorem set_inWord (g : Flag) (v : Bool) : (f.inWord w).set g v = (f.set g v).inWord w := by
  refine Status.ext_flags (by simp) fun k hk => ?_
  rw [Status.getLsbD_set, if_neg (hk g).symm, getLsbD_inWord_of_ne _ _ hk,
    getLsbD_inWord_of_ne _ _ hk]

theorem setAll?_inWord : (f.inWord w).setAll? b = (f.setAll? b).map (·.inWord w) := by
  unfold Status.setAll? setAll?
  by_cases hb : isSet b = true
  · rw [if_pos hb, if_pos hb]
    refine congrArg some (Status.ext_flags (fun g => ?_) fun k hk => ?_)
    · simp [Status.get_eq]
    · simp [getLsbD_inWord_of_ne _ _ hk, isSet_iff.mp hb k hk]
  · rw [if_neg hb, if_neg hb]
    rfl

theorem clearAll?_inWord : (f.inWord w).clearAll? b = (f.clearAll? b).map (·.inWord w) := by
  unfold Status.clearAll? clearAll?
  by_cases hb : isSet b = true
  · rw [if_pos hb, if_pos hb]
    refine congrArg some (Status.ext_flags (fun g => ?_) fun k hk => ?_)
    · simp [Status.get_eq, g.bit_lt, -BitVec.getLsbD_eq_getElem]
    · by_cases hlt : k < 16
      · simp [getLsbD_inWord_of_ne _ _ hk, isSet_iff.mp hb k hk, hlt, -BitVec.getLsbD_eq_getElem]
      · simp [BitVec.getLsbD_of_ge _ _ (Nat.le_of_not_lt hlt)]
  · rw [if_neg hb, if_neg hb]
    rfl

end Flags

/-- Every word is that of its flags, put into itself. -/
theorem Status.inWord_flags (s : Status) : s.flags.inWord s.word = s :=
  ext_flags (by simp) fun _ hk => Flags.getLsbD_inWord_of_ne _ _ hk

end Mini8086
