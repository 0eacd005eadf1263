import Mini8086.Proofs.Encodable
import Mini8086.Statement

/-!
# Numerals and the characters they are made of

The case of letters does not matter in a numeral, and its characters are digits, a sign and the `x`
of its base.  So a numeral is no register and stands in no brackets, and as a data operand it is a
number, unless it is too large.

* `Numeral.read?_upper`            a numeral in upper case is the same numeral;
* `Numeral.isNumeralChar_of_read?` the characters of a numeral;
* `isHexDigit_of_mem_hexPadded`    the characters of a printed number;
* `readUpperData_of_read?`         what a numeral is as a data operand, in terms of its integer.
-/

namespace Mini8086

/-! ## upper case -/

def lowerLetters : List Char := "abcdefghijklmnopqrstuvwxyz".toList

theorem ofNat_mem_lowerLetters : ∀ n < 123, 97 ≤ n → Char.ofNat n ∈ lowerLetters := by decide

/-- upper case changes nothing but the lower-case letters -/
theorem toUpper_eq_self_or (c : Char) : c.toUpper = c ∨ c ∈ lowerLetters := by
  by_cases h : 'a'.val ≤ c.val ∧ c.val ≤ 'z'.val
  · have h1 : 97 ≤ c.toNat := h.1
    have h2 : c.toNat ≤ 122 := h.2
    rw [← Char.ofNat_toNat c]
    exact .inr (ofNat_mem_lowerLetters c.toNat (Nat.lt_succ_of_le h2) h1)
  · exact .inl (dif_neg h)

/-- What is the same for the letters in both cases does not depend on case. -/
theorem apply_toUpper {α : Type} (f : Char → α)
    (h : lowerLetters.map (fun c => f c.toUpper) = lowerLetters.map f) (c : Char) :
    f c.toUpper = f c := by
  obtain hc | hc := toUpper_eq_self_or c
  · rw [hc]
  · exact List.map_inj_left.mp h c hc

theorem toUpper_toUpper (c : Char) : c.toUpper.toUpper = c.toUpper :=
  apply_toUpper Char.toUpper (by decide) c

/-- only the character itself becomes one that is no letter -/
theorem eq_of_toUpper_eq {c d : Char} (hd : d ∉ lowerLetters.map Char.toUpper)
    (h : c.toUpper = d) : c = d := by
  obtain hc | hc := toUpper_eq_self_or c
  · rw [← hc, h]
  · exact absurd (List.mem_map.mpr ⟨c, hc, h⟩) hd

@[simp] theorem hexDigit?_toUpper (c : Char) : hexDigit? c.toUpper = hexDigit? c :=
  apply_toUpper hexDigit? (by decide) c

/-! ## numerals in upper case -/

@[simp] theorem hexValueFrom?_upper (high : Nat) (t : Text) :
    hexValueFrom? high (upper t) = hexValueFrom? high t := by
  induction t generalizing high with
  | nil => rfl
  | cons c t ih =>
    simp [ih]

@[simp] theorem hexValue?_upper (t : Text) : hexValue? (upper t) = hexValue? t := by
  cases t with
  | nil => rfl
  | cons c t => exact hexValueFrom?_upper 0 (c :: t)

theorem dropBasePrefix_of_toUpper_eq {c : Char} (h : c.toUpper = 'X') (t : Text) :
    dropBasePrefix ('0' :: c :: t) = t := by
  have hletters : lowerLetters.map (fun c => c.toUpper.toLower) = lowerLetters.map id := by decide
  obtain hc | hc := toUpper_eq_self_or c
  · obtain rfl : c = 'X' := hc.symm.trans h
    rfl
  · have hx : c.toUpper.toLower = c := List.map_inj_left.mp hletters c hc
    obtain rfl : 'x' = c := by
      rw [← hx, h]
      rfl
    rfl

theorem dropBasePrefix_eq_self {t : Text} (h : ∀ c u, t = '0' :: c :: u → c.toUpper ≠ 'X') :
    dropBasePrefix t = t := by
  unfold dropBasePrefix
  split
  · exact absurd (by decide) (h 'x' _ rfl)
  · exact absurd (by decide) (h 'X' _ rfl)
  · rfl

@[simp] theorem dropBasePrefix_upper (t : Text) :
    dropBasePrefix (upper t) = upper (dropBasePrefix t) := by
  by_cases h : ∃ c u, t = '0' :: c :: u ∧ c.toUpper = 'X'
  · obtain ⟨c, u, rfl, hc⟩ := h
    rw [dropBasePrefix_of_toUpper_eq hc, upper_cons, upper_cons]
    exact dropBasePrefix_of_toUpper_eq ((toUpper_toUpper c).trans hc) (upper u)
  · rw [dropBasePrefix_eq_self fun c u ht hc => h ⟨c, u, ht, hc⟩]
    apply dropBasePrefix_eq_self
    intro c u ht hc
    obtain ⟨a, t', rfl, ha, ht'⟩ := List.map_eq_cons_iff.mp ht
    obtain ⟨b, u', rfl, rfl, -⟩ := List.map_eq_cons_iff.mp ht'
    rw [eq_of_toUpper_eq (by decide) ha] at h
    exact h ⟨b, u', rfl, (toUpper_toUpper b).symm.trans hc⟩

theorem Numeral.read?_of_head?_ne {t : Text} (h : t.head? ≠ some '-') :
    Numeral.read? t = (hexValue? (dropBasePrefix t)).map (Numeral.mk false) := by
  unfold Numeral.read?
  split
  · exact absurd rfl h
  · rfl

/-- The case of its letters does not count in a numeral. -/
theorem Numeral.read?_upper (t : Text) : Numeral.read? (upper t) = Numeral.read? t := by
  by_cases h : t.head? = some '-'
  · obtain ⟨u, rfl⟩ := List.head?_eq_some_iff.mp h
    show (hexValue? (dropBasePrefix (upper u))).map _ = (hexValue? (dropBasePrefix u)).map _
    rw [dropBasePrefix_upper, hexValue?_upper]
  · have hup : (upper t).head? ≠ some '-' := by
      intro hu
      rw [upper, List.head?_map, Option.map_eq_some_iff] at hu
      obtain ⟨c, hc, hcu⟩ := hu
      rw [eq_of_toUpper_eq (by decide) hcu] at hc
      exact h hc
    rw [Numeral.read?_of_head?_ne h, Numeral.read?_of_head?_ne hup, dropBasePrefix_upper,
      hexValue?_upper]

/-! ## the characters of a numeral -/

def isHexDigit (c : Char) : Bool := (hexDigit? c).isSome

/-- the characters that occur in numerals -/
def isNumeralChar (c : Char) : Bool := isHexDigit c || c == '-' || c == 'x' || c == 'X'

theorem isHexDigit_of_hexValueFrom? {high v : Nat} {t : Text} (h : hexValueFrom? high t = some v) :
    ∀ c ∈ t, isHexDigit c = true := by
  induction t generalizing high with
  | nil => exact fun c hc => absurd hc List.not_mem_nil
  | cons c t ih =>
    rw [hexValueFrom?_cons] at h
    obtain ⟨d, hd, ht⟩ := Option.bind_eq_some_iff.mp h
    refine List.forall_mem_cons.mpr ⟨?_, ih ht⟩
    rw [isHexDigit, hd]
    rfl

theorem isHexDigit_of_hexValue? {v : Nat} {t : Text} (h : hexValue? t = some v) :
    ∀ c ∈ t, isHexDigit c = true := by
  unfold hexValue? at h
  split at h
  · cases h
  · exact isHexDigit_of_hexValueFrom? h

theorem isNumeralChar_of_dropBasePrefix {t : Text}
    (h : ∀ c ∈ dropBasePrefix t, isHexDigit c = true) : ∀ c ∈ t, isNumeralChar c = true := by
  have hdigits : ∀ u : Text, (∀ c ∈ u, isHexDigit c = true) → ∀ c ∈ u, isNumeralChar c = true := by
    intro u hu c hc
    rw [isNumeralChar, hu c hc]
    rfl
  unfold dropBasePrefix at h
  split at h
  · exact List.forall_mem_cons.mpr ⟨by decide, List.forall_mem_cons.mpr ⟨by decide, hdigits _ h⟩⟩
  · exact List.forall_mem_cons.mpr ⟨by decide, List.forall_mem_cons.mpr ⟨by decide, hdigits _ h⟩⟩
  · exact hdigits _ h

theorem Numeral.isNumeralChar_of_read? {t : Text} {n : Numeral} (h : Numeral.read? t = some n) :
    ∀ c ∈ t, isNumeralChar c = true := by
  unfold Numeral.read? at h
  split at h
  · obtain ⟨v, hv, -⟩ := Option.map_eq_some_iff.mp h
    exact List.forall_mem_cons.mpr
      ⟨by decide, isNumeralChar_of_dropBasePrefix (isHexDigit_of_hexValue? hv)⟩
  · obtain ⟨v, hv, -⟩ := Option.map_eq_some_iff.mp h
    exact isNumeralChar_of_dropBasePrefix (isHexDigit_of_hexValue? hv)

/-! ## the characters of a printed number -/

theorem isHexDigit_toUpper (c : Char) : isHexDigit c.toUpper = isHexDigit c := by
  rw [isHexDigit, hexDigit?_toUpper]
  rfl

/-- digits have no sign in front of them -/
theorem head?_ne_of_isHexDigit {t : Text} (h : ∀ c ∈ t, isHexDigit c = true) :
    t.head? ≠ some '-' := by
  intro hhead
  have hc := h '-' (List.mem_of_head? hhead)
  exact absurd hc (by decide)

/-- nor a base -/
theorem dropBasePrefix_of_isHexDigit {t : Text} (h : ∀ c ∈ t, isHexDigit c = true) :
    dropBasePrefix t = t := by
  refine dropBasePrefix_eq_self fun c u ht hx => ?_
  have hc := h c (ht ▸ List.mem_cons_of_mem _ List.mem_cons_self)
  rw [← isHexDigit_toUpper, hx] at hc
  exact absurd hc (by decide)

theorem isHexDigit_digitChar : ∀ d < 16, isHexDigit (Nat.digitChar d) = true := by decide

theorem isHexDigit_of_mem_toDigits (n : Nat) : ∀ c ∈ Nat.toDigits 16 n, isHexDigit c = true := by
  induction n using Nat.strong_induction_on with
  | _ n ih =>
    rw [Nat.toDigits_eq_if (by decide)]
    split
    · next h =>
      intro c hc
      rw [List.mem_singleton.mp hc]
      exact isHexDigit_digitChar n h
    · next h =>
      have hlt : n / 16 < n := Nat.div_lt_self (by omega) (by decide)
      intro c hc
      obtain hc | hc := List.mem_append.mp hc
      · exact ih _ hlt c hc
      · rw [List.mem_singleton.mp hc]
        exact isHexDigit_digitChar _ (Nat.mod_lt _ (by decide))

theorem isHexDigit_of_mem_hex {n : Nat} {c : Char} (h : c ∈ hex n) : isHexDigit c = true := by
  obtain ⟨d, hd, rfl⟩ := List.mem_map.mp h
  rw [isHexDigit_toUpper]
  exact isHexDigit_of_mem_toDigits n d hd

theorem isHexDigit_of_mem_hexPadded {w n : Nat} {c : Char} (h : c ∈ hexPadded w n) :
    isHexDigit c = true := by
  rw [hexPadded, List.leftpad] at h
  obtain h | h := List.mem_append.mp h
  · rw [List.eq_of_mem_replicate h]
    decide
  · exact isHexDigit_of_mem_hex h

/-! ## numerals as data -/

/-- no register is spelled like a numeral -/
theorem read?_name_eq_none : ∀ r ∈ Register.named, Numeral.read? r.name.toList = none := by
  decide +kernel

theorem ofText?_of_read? {t : Text} {n : Numeral} (h : Numeral.read? t = some n) :
    Register.ofText? t = none := by
  cases hr : Register.ofText? t with
  | none => rfl
  | some r =>
    obtain ⟨hmem, hname⟩ := Register.ofText?_eq_some hr
    have hnone := read?_name_eq_none r hmem
    rw [hname, Numeral.read?_upper, h] at hnone
    cases hnone

theorem insideBrackets?_of_read? {t : Text} {n : Numeral} (h : Numeral.read? t = some n) :
    insideBrackets? t = none := by
  unfold insideBrackets?
  split
  · have hc := Numeral.isNumeralChar_of_read? h '[' List.mem_cons_self
    exact absurd hc (by decide)
  · rfl

/-- The number that a numeral stands for, in terms of the integer that it writes down: 16 bits of it
when it has a 16-bit form, with or without a sign. -/
theorem Numeral.value?_eq (n : Numeral) :
    n.value? = if -0x8000 ≤ n.toInt ∧ n.toInt ≤ 0xffff then some (BitVec.ofInt 16 n.toInt).toNat
      else if 0 ≤ n.toInt ∧ n.toInt ≤ 0xffffffff then some n.magnitude
      else none := by
  obtain ⟨negative, m⟩ := n
  cases negative with
  | false =>
    show (if 0x100000000 ≤ m then none else some m) =
      if -0x8000 ≤ (m : Int) ∧ (m : Int) ≤ 0xffff then some (BitVec.ofInt 16 m).toNat
      else if 0 ≤ (m : Int) ∧ (m : Int) ≤ 0xffffffff then some m else none
    by_cases hword : m ≤ 0xffff
    · have hm : (BitVec.ofInt 16 m).toNat = m := by
        rw [BitVec.ofInt_natCast, BitVec.toNat_ofNat]
        omega
      rw [if_neg (by omega), if_pos (by omega), hm]
    · rw [if_neg (by omega : ¬ (-0x8000 ≤ (m : Int) ∧ (m : Int) ≤ 0xffff))]
      by_cases hdword : m ≤ 0xffffffff
      · rw [if_neg (by omega), if_pos (by omega)]
      · rw [if_pos (by omega), if_neg (by omega)]
  | true =>
    show (if 0x100000000 ≤ m then none else if 0x8000 < m then none
        else some ((0x10000 - m) % 0x10000)) =
      if -0x8000 ≤ -(m : Int) ∧ -(m : Int) ≤ 0xffff then some (BitVec.ofInt 16 (-m)).toNat
      else if 0 ≤ -(m : Int) ∧ -(m : Int) ≤ 0xffffffff then some m else none
    by_cases hword : m ≤ 0x8000
    · have hm : (BitVec.ofInt 16 (-m)).toNat = (0x10000 - m) % 0x10000 := by
        rw [BitVec.toNat_ofInt]
        omega
      rw [if_neg (by omega), if_neg (by omega), if_pos (by omega), hm]
    · -- too large for 16 bits with its sign, and no number without it
      rw [if_neg (by omega : ¬ (-0x8000 ≤ -(m : Int) ∧ -(m : Int) ≤ 0xffff)),
        if_neg (by omega : ¬ (0 ≤ -(m : Int) ∧ -(m : Int) ≤ 0xffffffff)),
        if_pos (Nat.lt_of_not_le hword), ite_self]

theorem Numeral.toInt_le_magnitude (n : Numeral) : n.toInt ≤ n.magnitude := by
  unfold Numeral.toInt
  split <;> omega

theorem readHex?_of_read? {t : Text} {n : Numeral} (h : Numeral.read? t = some n) :
    readHex? t = n.value? := by
  rw [readHex?, h]
  rfl

/-- What a numeral is as a data operand: a number of 16 bits if it has such a form, else an error,
unless it could be a name. -/
theorem readUpperData_of_read? {t : Text} {n : Numeral} (h : Numeral.read? t = some n) :
    readUpperData t =
      if -0x8000 ≤ n.toInt ∧ n.toInt ≤ 0xffff then .ok (.imm (BitVec.ofInt 16 n.toInt))
      else if 0 ≤ n.toInt ∧ n.toInt ≤ 0xffffffff then .error (.tooWide t)
      else if isName t then .ok (.label t)
      else .error (.notData t) := by
  rw [readUpperData, insideBrackets?_of_read? h, ofText?_of_read? h, readHex?_of_read? h,
    Numeral.value?_eq]
  dsimp only
  by_cases hword : -0x8000 ≤ n.toInt ∧ n.toInt ≤ 0xffff
  · rw [if_pos hword, if_pos hword]
    dsimp only
    rw [if_pos (BitVec.isLt _), BitVec.ofNat_toNat, BitVec.setWidth_eq]
  · rw [if_neg hword, if_neg hword]
    by_cases hpos : 0 ≤ n.toInt ∧ n.toInt ≤ 0xffffffff
    · have hwide : ¬ n.magnitude < 0x10000 := by
        have hle := n.toInt_le_magnitude
        omega
      rw [if_pos hpos, if_pos hpos]
      exact if_neg hwide
    · rw [if_neg hpos, if_neg hpos]

end Mini8086
