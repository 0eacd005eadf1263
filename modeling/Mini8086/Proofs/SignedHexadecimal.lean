import Mathlib.Data.Nat.Digits.Defs
import Mini8086.Proofs.PokeGrammar

/-!
# Signed hexadecimal

What a text must be to stand for a number, and for which: an optional minus sign, an optional base,
and digits of base sixteen, whose value has its place in 32 bits, or with the sign in 16 bits.

* `Grammar.Digits`, `Grammar.SignedHex`   digits with their value, and what may stand in front;
* `read?_eq_some_iff`     the reader of numerals finds exactly these parts;
* `readHexWord?_eq`       reading digit by digit in a word of 32 bits, and complementing the word
                          under a mask, comes to the same number;
* `readHex?_withSign`     numbers of 16 bits that are printed with their sign;
* `signed_hexadecimal`    the numbers that texts stand for, and printed numbers read back.
-/

namespace Mini8086

/-! ## the grammar -/

/-- The character is the digit of base sixteen, in either case, with the value `d`. -/
def Grammar.Digit (c : Char) (d : Nat) : Prop :=
  "0123456789abcdef".toList[d]? = some c ∨ "0123456789ABCDEF".toList[d]? = some c

instance (c : Char) (d : Nat) : Decidable (Grammar.Digit c d) :=
  inferInstanceAs (Decidable (_ ∨ _))

/-- The text is one or more digits, the highest first, and `v` is their value in base sixteen. -/
structure Grammar.Digits (t : Text) (v : Nat) : Prop where
  ne_nil : t ≠ []
  value : ∃ ds, List.Forall₂ Digit t ds ∧ v = Nat.ofDigits 16 ds.reverse

/-- what may stand in front of digits -/
def Grammar.bases : List Text := [[], "0x".toList, "0X".toList]

/-- The text is an optional minus sign, an optional base, and digits with the value `v`. -/
inductive Grammar.SignedHex : Text → Bool → Nat → Prop
  | plain {base digits : Text} {v : Nat} (hb : base ∈ bases) (hd : Digits digits v) :
      SignedHex (base ++ digits) false v
  | negative {base digits : Text} {v : Nat} (hb : base ∈ bases) (hd : Digits digits v) :
      SignedHex ('-' :: (base ++ digits)) true v

/-! ## digits -/

/-- Characters that have the values from 0 to 15 in their order have their places as values. -/
theorem hexDigit?_of_getElem? {l : Text} (hl : l.map hexDigit? = (List.range 16).map some)
    {c : Char} {d : Nat} (h : l[d]? = some c) : hexDigit? c = some d := by
  have hplace : some (hexDigit? c) = ((List.range 16)[d]?).map some := by
    rw [← List.getElem?_map, ← hl, List.getElem?_map, h]
    rfl
  obtain ⟨e, he, hc⟩ := Option.map_eq_some_iff.mp hplace.symm
  obtain ⟨hlt, hd⟩ := List.getElem?_eq_some_iff.mp he
  rw [← hc, ← hd, List.getElem_range]

theorem hexDigit?_eq_some_iff {c : Char} {d : Nat} : hexDigit? c = some d ↔ Grammar.Digit c d := by
  constructor
  · intro h
    have hc := toNat_lt_of_isHexDigit (isHexDigit_of_hexDigit? h)
    have hall : ∀ d ∈ hexDigit? c, Grammar.Digit c d := by
      apply of_ascii hc
      decide +kernel
    exact hall d h
  · rintro (h | h)
    · exact hexDigit?_of_getElem? (by decide) h
    · exact hexDigit?_of_getElem? (by decide) h

/-- The number at the front takes the place of a digit. -/
theorem ofDigits_cons_reverse (d high : Nat) (ds : List Nat) :
    Nat.ofDigits 16 ((d :: ds).reverse ++ [high]) =
      Nat.ofDigits 16 (ds.reverse ++ [16 * high + d]) := by
  have hpair : Nat.ofDigits 16 [d, high] = 16 * high + d := by
    rw [Nat.ofDigits_cons, Nat.ofDigits_singleton, Nat.add_comm]
  rw [List.reverse_cons, List.append_assoc, List.singleton_append, Nat.ofDigits_append, hpair,
    Nat.ofDigits_append, Nat.ofDigits_singleton]

theorem hexValueFrom?_eq_some_iff {high v : Nat} {t : Text} :
    hexValueFrom? high t = some v ↔
      ∃ ds, List.Forall₂ Grammar.Digit t ds ∧ v = Nat.ofDigits 16 (ds.reverse ++ [high]) := by
  induction t generalizing high with
  | nil =>
    rw [hexValueFrom?_nil, Option.some.injEq]
    constructor
    · rintro rfl
      exact ⟨[], .nil, Nat.ofDigits_singleton.symm⟩
    · rintro ⟨ds, hds, rfl⟩
      rw [List.forall₂_nil_left_iff.mp hds]
      exact Nat.ofDigits_singleton.symm
  | cons c t ih =>
    rw [hexValueFrom?_cons, Option.bind_eq_some_iff]
    constructor
    · rintro ⟨d, hd, ht⟩
      obtain ⟨ds, hds, rfl⟩ := ih.mp ht
      exact ⟨d :: ds, .cons (hexDigit?_eq_some_iff.mp hd) hds,
        (ofDigits_cons_reverse d high ds).symm⟩
    · rintro ⟨_, h, rfl⟩
      obtain ⟨d, ds, hd, hds, rfl⟩ := List.forall₂_cons_left_iff.mp h
      exact ⟨d, hexDigit?_eq_some_iff.mpr hd, ih.mpr ⟨ds, hds, ofDigits_cons_reverse d high ds⟩⟩

theorem hexValue?_eq_some_iff {t : Text} {v : Nat} : hexValue? t = some v ↔ Grammar.Digits t v := by
  have hzero (ds : List Nat) :
      Nat.ofDigits 16 (ds.reverse ++ [0]) = Nat.ofDigits 16 ds.reverse := by
    rw [Nat.ofDigits_append, Nat.ofDigits_singleton, Nat.mul_zero, Nat.add_zero]
  unfold hexValue?
  split
  · next hnil => exact ⟨nofun, fun h => absurd hnil h.ne_nil⟩
  · next hne =>
    rw [hexValueFrom?_eq_some_iff]
    constructor
    · rintro ⟨ds, hds, rfl⟩
      exact ⟨hne, ds, hds, hzero ds⟩
    · rintro ⟨-, ds, hds, rfl⟩
      exact ⟨ds, hds, (hzero ds).symm⟩

theorem Grammar.Digits.isHexDigit_of_mem {t : Text} {v : Nat} (h : Digits t v) :
    ∀ c ∈ t, isHexDigit c = true :=
  isHexDigit_of_hexValue? (hexValue?_eq_some_iff.mpr h)

/-! ## the base and the sign -/

theorem exists_base (t : Text) : ∃ base ∈ Grammar.bases, t = base ++ dropBasePrefix t := by
  unfold dropBasePrefix
  split
  · exact ⟨"0x".toList, by decide, rfl⟩
  · exact ⟨"0X".toList, by decide, rfl⟩
  · exact ⟨[], by decide, rfl⟩

theorem dropBasePrefix_append {base digits : Text} (hb : base ∈ Grammar.bases)
    (hd : ∀ c ∈ digits, isHexDigit c = true) : dropBasePrefix (base ++ digits) = digits := by
  rcases List.mem_cons.mp hb with rfl | hb
  · exact dropBasePrefix_of_isHexDigit hd
  · rcases List.mem_pair.mp hb with rfl | rfl <;> rfl

theorem head?_base_append_ne {base digits : Text} (hb : base ∈ Grammar.bases)
    (hd : ∀ c ∈ digits, isHexDigit c = true) : (base ++ digits).head? ≠ some '-' := by
  rcases List.mem_cons.mp hb with rfl | hb
  · exact head?_ne_of_isHexDigit hd
  · rcases List.mem_pair.mp hb with rfl | rfl <;> exact nofun

/-- The reader finds exactly the parts of a numeral. -/
theorem read?_eq_some_iff {t : Text} {negative : Bool} {v : Nat} :
    Numeral.read? t = some ⟨negative, v⟩ ↔ Grammar.SignedHex t negative v := by
  constructor
  · intro h
    unfold Numeral.read? at h
    split at h
    · next u =>
      obtain ⟨w, hw, heq⟩ := Option.map_eq_some_iff.mp h
      cases heq
      obtain ⟨base, hb, hu⟩ := exists_base u
      rw [hu]
      exact .negative hb (hexValue?_eq_some_iff.mp hw)
    · obtain ⟨w, hw, heq⟩ := Option.map_eq_some_iff.mp h
      cases heq
      obtain ⟨base, hb, ht⟩ := exists_base t
      rw [ht]
      exact .plain hb (hexValue?_eq_some_iff.mp hw)
  · rintro (⟨hb, hd⟩ | ⟨hb, hd⟩)
    · rw [Numeral.read?_of_head?_ne (head?_base_append_ne hb hd.isHexDigit_of_mem),
        dropBasePrefix_append hb hd.isHexDigit_of_mem, hexValue?_eq_some_iff.mpr hd]
      rfl
    · show (hexValue? (dropBasePrefix _)).map (Numeral.mk true) = _
      rw [dropBasePrefix_append hb hd.isHexDigit_of_mem, hexValue?_eq_some_iff.mpr hd]
      rfl

/-- A text is a numeral in one way only. -/
theorem Grammar.SignedHex.unique {t : Text} {negative negative' : Bool} {v v' : Nat}
    (h : SignedHex t negative v) (h' : SignedHex t negative' v') :
    negative = negative' ∧ v = v' := by
  have heq := (read?_eq_some_iff.mpr h).symm.trans (read?_eq_some_iff.mpr h')
  exact Numeral.mk.inj (Option.some.inj heq)

theorem Numeral.value?_eq_some_iff {n : Numeral} {w : Nat} :
    n.value? = some w ↔ n.magnitude < 2 ^ 32 ∧ (n.negative = true → n.magnitude ≤ 0x8000) ∧
      w = if n.negative then (2 ^ 16 - n.magnitude) % 2 ^ 16 else n.magnitude := by
  obtain ⟨negative, m⟩ := n
  unfold Numeral.value?
  cases negative <;> grind

/-- The numbers that texts stand for. -/
theorem readHex?_eq_some_iff {t : Text} {w : Nat} :
    readHex? t = some w ↔ ∃ negative v, Grammar.SignedHex t negative v ∧ v < 2 ^ 32 ∧
      (negative = true → v ≤ 0x8000) ∧
      w = if negative then (2 ^ 16 - v) % 2 ^ 16 else v := by
  rw [readHex?, Option.bind_eq_some_iff]
  constructor
  · rintro ⟨⟨negative, v⟩, hread, hvalue⟩
    exact ⟨negative, v, read?_eq_some_iff.mp hread, Numeral.value?_eq_some_iff.mp hvalue⟩
  · rintro ⟨negative, v, h, hvalue⟩
    exact ⟨⟨negative, v⟩, read?_eq_some_iff.mpr h, Numeral.value?_eq_some_iff.mpr hvalue⟩

/-! ## numerals in a word of 32 bits -/

/-- the number in 32 bits, if they hold it -/
def fitWord? (n : Nat) : Option (BitVec 32) :=
  if n < 2 ^ 32 then some (BitVec.ofNat 32 n) else none

/-- The word that starts with the digits of `high` and goes on with those of the text.  Every
product and every sum on the way must fit. -/
def wordFrom? (high : BitVec 32) : Text → Option (BitVec 32)
  | [] => some high
  | c :: t =>
    (fitWord? (high.toNat * 16)).bind fun shifted =>
      (hexDigit? c).bind fun d =>
        (fitWord? (shifted.toNat + d)).bind fun next => wordFrom? next t

/-- the word that a text spells without a sign, or with a plus sign -/
def readWord? (t : Text) : Option (BitVec 32) :=
  if afterPlus t = [] then none else wordFrom? 0 (afterPlus t)

/-- The word, or with a minus sign the complement of the word and one more, cut by a mask. -/
def signedWord? (negative : Bool) (v : BitVec 32) : Option (BitVec 32) :=
  if negative then if 0x8000 < v then none else some ((~~~v + 1) &&& 0xffff)
  else some v

/-- The word that a text stands for.  Its sign and its base are dropped, and what is left must be
digits. -/
def readHexWord? (t : Text) : Option (BitVec 32) :=
  let negative := t.head? == some '-'
  let digits := dropBasePrefix (if negative then t.tail else t)
  if digits = [] || !digits.all isHexDigit then none
  else (readWord? digits).bind (signedWord? negative)

theorem fitWord?_of_lt {n : Nat} (h : n < 2 ^ 32) : fitWord? n = some (BitVec.ofNat 32 n) :=
  if_pos h

theorem fitWord?_of_le {n : Nat} (h : 2 ^ 32 ≤ n) : fitWord? n = none :=
  if_neg (Nat.not_lt.mpr h)

theorem le_of_hexValueFrom? {high v : Nat} {t : Text} (h : hexValueFrom? high t = some v) :
    high ≤ v := by
  induction t generalizing high with
  | nil => exact Nat.le_of_eq (Option.some.inj h)
  | cons c t ih =>
    obtain ⟨d, -, ht⟩ := Option.bind_eq_some_iff.mp h
    have hle := ih ht
    omega

/-- Digits that follow make a number that does not fit no smaller. -/
theorem hexValueFrom?_bind_of_le {high : Nat} (h : 2 ^ 32 ≤ high) (t : Text) :
    (hexValueFrom? high t).bind fitWord? = none := by
  cases hv : hexValueFrom? high t with
  | none => rfl
  | some v => exact fitWord?_of_le (h.trans (le_of_hexValueFrom? hv))

/-- To see at every digit that the number fits is to see it at the end. -/
theorem wordFrom?_eq (high : BitVec 32) (t : Text) :
    wordFrom? high t = (hexValueFrom? high.toNat t).bind fitWord? := by
  induction t generalizing high with
  | nil =>
    show some high = fitWord? high.toNat
    rw [fitWord?_of_lt high.isLt, BitVec.ofNat_toNat, BitVec.setWidth_eq]
  | cons c t ih =>
    rw [wordFrom?, hexValueFrom?_cons, Nat.mul_comm]
    by_cases hshift : 16 * high.toNat < 2 ^ 32
    · rw [fitWord?_of_lt hshift, Option.bind_some, BitVec.toNat_ofNat, Nat.mod_eq_of_lt hshift]
      cases hexDigit? c with
      | none => rfl
      | some d =>
        show (fitWord? (16 * high.toNat + d)).bind _ =
          (hexValueFrom? (16 * high.toNat + d) t).bind fitWord?
        by_cases hsum : 16 * high.toNat + d < 2 ^ 32
        · rw [fitWord?_of_lt hsum, Option.bind_some, ih, BitVec.toNat_ofNat, Nat.mod_eq_of_lt hsum]
        · have hle := Nat.le_of_not_lt hsum
          rw [fitWord?_of_le hle, hexValueFrom?_bind_of_le hle]
          rfl
    · -- a character that is no digit ends both, and no digit makes the number fit again
      have hle := Nat.le_of_not_lt hshift
      rw [fitWord?_of_le hle]
      cases hexDigit? c with
      | none => rfl
      | some d => exact (hexValueFrom?_bind_of_le (hle.trans (Nat.le_add_right _ d)) t).symm

theorem afterPlus_of_isHexDigit {t : Text} (h : ∀ c ∈ t, isHexDigit c = true) :
    afterPlus t = t := by
  unfold afterPlus
  split
  · exact absurd rfl (ne_plus_of_isHexDigit (h '+' List.mem_cons_self))
  · rfl

theorem readWord?_eq {t : Text} (h : ∀ c ∈ t, isHexDigit c = true) :
    readWord? t = (hexValue? t).bind fitWord? := by
  rw [readWord?, afterPlus_of_isHexDigit h, hexValue?]
  split
  · rfl
  · exact wordFrom?_eq 0 t

/-- The complement under a mask is taken from `2 ^ 16`. -/
theorem toNat_complement {v : BitVec 32} (h : v.toNat ≤ 0x8000) :
    ((~~~v + 1) &&& 0xffff).toNat = (0x10000 - v.toNat) % 0x10000 := by
  have hmask : (0xffff : BitVec 32).toNat = 2 ^ 16 - 1 := rfl
  have hneg : ~~~v + 1 = -v := (BitVec.neg_eq_not_add v).symm
  rw [hneg, BitVec.toNat_and, hmask, Nat.and_two_pow_sub_one_eq_mod, BitVec.toNat_neg]
  omega

theorem map_signedWord? (negative : Bool) (v : BitVec 32) :
    (signedWord? negative v).map BitVec.toNat = Numeral.value? ⟨negative, v.toNat⟩ := by
  have hfit : ¬ 2 ^ 32 ≤ v.toNat := Nat.not_le.mpr v.isLt
  cases negative with
  | false => exact (if_neg hfit).symm
  | true =>
    refine Eq.trans ?_ (if_neg hfit).symm
    show Option.map _ (if 0x8000 < v.toNat then none else _) = if 0x8000 < v.toNat then none else _
    split
    · rfl
    · next hlow => exact congrArg some (toNat_complement (Nat.le_of_not_lt hlow))

theorem map_fitWord? (negative : Bool) (n : Nat) :
    ((fitWord? n).bind (signedWord? negative)).map BitVec.toNat = Numeral.value? ⟨negative, n⟩ := by
  by_cases h : n < 2 ^ 32
  · rw [fitWord?_of_lt h, Option.bind_some, map_signedWord?, BitVec.toNat_ofNat,
      Nat.mod_eq_of_lt h]
  · have hle := Nat.le_of_not_lt h
    rw [fitWord?_of_le hle]
    exact (if_pos hle).symm

theorem readHex?_eq (t : Text) : readHex? t =
    (hexValue? (dropBasePrefix (if t.head? == some '-' then t.tail else t))).bind fun v =>
      Numeral.value? ⟨t.head? == some '-', v⟩ := by
  by_cases h : t.head? = some '-'
  · obtain ⟨u, rfl⟩ := List.head?_eq_some_iff.mp h
    show ((hexValue? (dropBasePrefix u)).map (Numeral.mk true)).bind _ = _
    rw [Option.bind_map]
    rfl
  · rw [beq_eq_false_iff_ne.mpr h, readHex?, Numeral.read?_of_head?_ne h, Option.bind_map]
    rfl

/-- Reading in 32 bits gives the same number. -/
theorem readHexWord?_eq (t : Text) : (readHexWord? t).map BitVec.toNat = readHex? t := by
  rw [readHex?_eq]
  show Option.map _ (if _ then _ else _) = _
  generalize (t.head? == some '-') = negative
  generalize dropBasePrefix (if negative = true then t.tail else t) = digits
  split
  · next hno =>
    have hnone : hexValue? digits = none := by
      cases hv : hexValue? digits with
      | none => rfl
      | some v =>
        have hdigits := hexValue?_eq_some_iff.mp hv
        have hall := List.all_eq_true.mpr hdigits.isHexDigit_of_mem
        rw [hall, Bool.not_true, Bool.or_false, decide_eq_true_iff] at hno
        exact absurd hno hdigits.ne_nil
    rw [hnone]
    rfl
  · next hyes =>
    rw [Bool.or_eq_true, not_or, Bool.not_eq_true', Bool.not_eq_false] at hyes
    rw [readWord?_eq (List.all_eq_true.mp hyes.2), Option.bind_assoc, Option.map_bind]
    exact congrArg (Option.bind _) (funext fun v => map_fitWord? negative v)

example : readHexWord? "-8000".toList = some 0x8000 ∧ readHexWord? "+1".toList = none := by decide

/-! ## printed numbers -/

/-- the number in base sixteen, with letters in lower case -/
def lowerHex (n : Nat) : Text := Nat.toDigits 16 n

/-- the digits, behind a minus sign if the number is negative -/
def withSign (z : Int) (digits : Text) : Text := if z < 0 then '-' :: digits else digits

theorem digits_hex (n : Nat) : Grammar.Digits (hex n) n :=
  hexValue?_eq_some_iff.mp (hexValue?_hex n)

theorem digits_lowerHex (n : Nat) : Grammar.Digits (lowerHex n) n :=
  hexValue?_eq_some_iff.mp ((hexValue?_upper _).symm.trans (hexValue?_hex n))

section
variable {base digits : Text} (hb : base ∈ Grammar.bases)
include hb

/-- Digits of a number of 32 bits are read back, with zeros in front of them or a base. -/
theorem readHex?_digits {n : BitVec 32} (hd : Grammar.Digits digits n.toNat) :
    readHex? (base ++ digits) = some n.toNat :=
  readHex?_eq_some_iff.mpr ⟨false, n.toNat, .plain hb hd, n.isLt, nofun, rfl⟩

/-- What is printed with its sign is a numeral that writes down the integer. -/
theorem read?_withSign {z : Int} (hd : Grammar.Digits digits z.natAbs) :
    ∃ n, Numeral.read? (withSign z (base ++ digits)) = some n ∧ n.toInt = z := by
  unfold withSign
  split
  · next h =>
    refine ⟨⟨true, z.natAbs⟩, read?_eq_some_iff.mpr (.negative hb hd), ?_⟩
    show -(z.natAbs : Int) = z
    omega
  · next h =>
    refine ⟨⟨false, z.natAbs⟩, read?_eq_some_iff.mpr (.plain hb hd), ?_⟩
    show (z.natAbs : Int) = z
    omega

/-- A number of 16 bits that is printed with its sign is read as its two's complement. -/
theorem readHex?_withSign {z : BitVec 16} (hd : Grammar.Digits digits z.toInt.natAbs) :
    readHex? (withSign z.toInt (base ++ digits)) = some z.toNat := by
  obtain ⟨n, hread, hint⟩ := read?_withSign hb hd
  have hlow : -0x8000 ≤ z.toInt := z.le_toInt
  have hhigh : z.toInt < 0x8000 := z.toInt_lt
  rw [readHex?_of_read? hread, Numeral.value?_eq, hint, if_pos ⟨hlow, by omega⟩,
    BitVec.ofInt_toInt]

end

/-- A text stands for a number if and only if it is an optional minus sign, an optional base and
digits, in one way only, whose value is below `2 ^ 32`, and at most `8000` (hexadecimal) behind a
sign: for the value itself, or with the sign for its two's complement in 16 bits.  Reading in words
of 32 bits agrees.  So numbers of 32 bits that are printed in upper or in lower case are read back,
and numbers of 16 bits that are printed with their sign are read as their two's complement. -/
theorem signed_hexadecimal :
    (∀ (t : Text) (w : Nat), readHex? t = some w ↔
      ∃ negative v, Grammar.SignedHex t negative v ∧ v < 2 ^ 32 ∧ (negative = true → v ≤ 0x8000) ∧
        w = if negative then (2 ^ 16 - v) % 2 ^ 16 else v) ∧
    (∀ (t : Text) (negative negative' : Bool) (v v' : Nat), Grammar.SignedHex t negative v →
      Grammar.SignedHex t negative' v' → negative = negative' ∧ v = v') ∧
    (∀ t : Text, (readHexWord? t).map BitVec.toNat = readHex? t) ∧
    (∀ n : BitVec 32, readHex? (hex n.toNat) = some n.toNat ∧
      readHex? (lowerHex n.toNat) = some n.toNat) ∧
    ∀ z : BitVec 16, readHex? (withSign z.toInt (hex z.toInt.natAbs)) = some z.toNat ∧
      readHex? (withSign z.toInt (lowerHex z.toInt.natAbs)) = some z.toNat := by
  have hnone : [] ∈ Grammar.bases := by decide
  refine ⟨fun t w => readHex?_eq_some_iff, fun t negative negative' v v' h h' => h.unique h',
    readHexWord?_eq, fun n => ⟨?_, ?_⟩, fun z => ⟨?_, ?_⟩⟩
  · exact readHex?_digits hnone (digits_hex n.toNat)
  · exact readHex?_digits hnone (digits_lowerHex n.toNat)
  · exact readHex?_withSign hnone (digits_hex z.toInt.natAbs)
  · exact readHex?_withSign hnone (digits_lowerHex z.toInt.natAbs)

/-- the lowest number of 16 bits, and the one below it -/
theorem signed_hexadecimal_of_lowest : readHex? "-0X008000".toList = some 0x8000 ∧
    readHex? "-0X008001".toList = none := by
  obtain ⟨hread, hunique, -⟩ := signed_hexadecimal
  have hbase : "0X".toList ∈ Grammar.bases := by decide
  have hdigits : Grammar.Digits "008000".toList 0x8000 := hexValue?_eq_some_iff.mp (by decide)
  have hdigits' : Grammar.Digits "008001".toList 0x8001 := hexValue?_eq_some_iff.mp (by decide)
  have hlowest : Grammar.SignedHex "-0X008000".toList true 0x8000 := .negative hbase hdigits
  have hbelow : Grammar.SignedHex "-0X008001".toList true 0x8001 := .negative hbase hdigits'
  refine ⟨(hread _ _).mpr ⟨true, 0x8000, hlowest, by decide, fun _ => Nat.le_refl _, rfl⟩, ?_⟩
  apply Option.eq_none_iff_forall_ne_some.mpr
  intro w hw
  obtain ⟨negative, v, h, -, hle, -⟩ := (hread _ _).mp hw
  obtain ⟨rfl, rfl⟩ := hunique _ _ _ _ _ hbelow h
  exact absurd (hle rfl) (by decide)

end Mini8086
