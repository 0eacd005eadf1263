import Mini8086.Proofs.Literals

/-!
# Normal forms read back

`Instruction.text` writes a command in normal form.  The reader takes it apart again: the mnemonic
before the tab, and the operands between commas.  Every operand comes back as it was, but for the
address of a branch whose digits start with a letter: these spell a name (`Operand.readBack`).

* `readHex?_hex`              a number is read back from its digits;
* `isPlain_of_mem_text`       the characters of a written operand, none of which separates anything;
* `readOperand_text`          an operand that a source can have (`Operand.Legible`);
* `Statement.read_text`       the line of an instruction;
* `Statement.read_labelLine`  the line of a label.
-/

namespace Mini8086

/-! ## digits -/

theorem hexValueFrom?_append (high : Nat) (s : Text) (c : Char) :
    hexValueFrom? high (s ++ [c]) =
      (hexValueFrom? high s).bind fun v => (hexDigit? c).map (16 * v + ·) := by
  induction s generalizing high with
  | nil =>
    show (hexDigit? c).bind (fun d => some (16 * high + d)) = (hexDigit? c).map (16 * high + ·)
    cases hexDigit? c <;> rfl
  | cons d s ih =>
    cases hd : hexDigit? d with
    | none => simp [hd]
    | some v => simp [hd, ih]

theorem hexDigit?_digitChar : ∀ d < 16, hexDigit? (Nat.digitChar d) = some d := by decide

theorem hexValueFrom?_toDigits (n : Nat) : hexValueFrom? 0 (Nat.toDigits 16 n) = some n := by
  induction n using Nat.strong_induction_on with
  | _ n ih =>
    rw [Nat.toDigits_eq_if (by decide)]
    split
    · next h =>
      rw [hexValueFrom?_cons, hexDigit?_digitChar n h]
      show some (16 * 0 + n) = some n
      rw [Nat.mul_zero, Nat.zero_add]
    · next h =>
      have hlt : n / 16 < n := Nat.div_lt_self (by omega) (by decide)
      rw [hexValueFrom?_append, ih _ hlt, hexDigit?_digitChar _ (Nat.mod_lt _ (by decide))]
      exact congrArg some (Nat.div_add_mod n 16)

@[simp] theorem upper_upper (t : Text) : upper (upper t) = upper t := by
  rw [upper, upper, List.map_map]
  exact List.map_congr_left fun c _ => toUpper_toUpper c

theorem upper_hex (n : Nat) : upper (hex n) = hex n := upper_upper _

theorem hex_ne_nil (n : Nat) : hex n ≠ [] := by
  intro h
  have hnil : Nat.toDigits 16 n = [] := List.map_eq_nil_iff.mp h
  have hv := hexValueFrom?_toDigits n
  rw [Nat.toDigits_eq_if (by decide)] at hnil
  split at hnil
  · cases hnil
  · exact List.append_ne_nil_of_right_ne_nil _ (List.cons_ne_nil _ _) hnil

@[simp] theorem hexValue?_hex (n : Nat) : hexValue? (hex n) = some n := by
  rw [hexValue?, if_neg (hex_ne_nil n), hex, hexValueFrom?_upper, hexValueFrom?_toDigits]

/-- digits have no sign and no base in front of them -/
theorem read?_hex (n : Nat) : Numeral.read? (hex n) = some ⟨false, n⟩ := by
  have hdigits : ∀ c ∈ hex n, isHexDigit c = true := fun _ => isHexDigit_of_mem_hex
  rw [Numeral.read?_of_head?_ne (head?_ne_of_isHexDigit hdigits),
    dropBasePrefix_of_isHexDigit hdigits, hexValue?_hex]
  rfl

theorem readHex?_hex {n : Nat} (h : n < 2 ^ 32) : readHex? (hex n) = some n := by
  rw [readHex?_of_read? (read?_hex n)]
  exact if_neg (Nat.not_le.mpr h)

/-! ## characters -/

/-- the characters of written operands -/
def isPlain (c : Char) : Bool := isNameChar c || c == '[' || c == ']'

/-- the characters that take a line or an operand list apart -/
def separators : List Char := [',', ':', ';', '\n']

theorem toNat_lt_of_isNameChar {c : Char} (h : isNameChar c = true) : c.toNat < 128 := by
  have hchar : c.isAlphanum = ((c.isUpper || c.isLower) || c.isDigit) := rfl
  rw [isNameChar, hchar] at h
  simp only [Bool.or_eq_true, beq_iff_eq] at h
  rcases h with (((h | h) | h) | rfl) | rfl
  · have hle : c.toNat ≤ 90 := (of_decide_eq_true h).2
    omega
  · have hle : c.toNat ≤ 122 := of_decide_eq_true (Bool.and_eq_true_iff.mp h).2
    omega
  · have hle : c.toNat ≤ 57 := of_decide_eq_true (Bool.and_eq_true_iff.mp h).2
    omega
  · decide
  · decide

theorem toNat_lt_of_isPlain {c : Char} (h : isPlain c = true) : c.toNat < 128 := by
  rw [isPlain, Bool.or_eq_true, Bool.or_eq_true, beq_iff_eq, beq_iff_eq] at h
  rcases h with (h | rfl) | rfl
  · exact toNat_lt_of_isNameChar h
  · decide
  · decide

theorem toNat_lt_of_isHexDigit {c : Char} (h : isHexDigit c = true) : c.toNat < 128 := by
  unfold isHexDigit hexDigit? at h
  split at h
  · next hc =>
    have hle : c.toNat ≤ 57 := hc.2
    omega
  · split at h
    · next hc =>
      have hle : c.toNat ≤ 70 := hc.2
      omega
    · split at h
      · next hc =>
        have hle : c.toNat ≤ 102 := hc.2
        omega
      · cases h

/-- What is to be shown of a character of ASCII can be decided for them all. -/
theorem of_ascii {P : Char → Prop} {c : Char} (hc : c.toNat < 128)
    (h : ∀ n < 128, P (Char.ofNat n)) : P c :=
  Char.ofNat_toNat c ▸ h c.toNat hc

/-- plain characters are no blanks and separate nothing -/
theorem not_blank_of_isPlain {c : Char} (h : isPlain c = true) :
    isBlank c = false ∧ c ∉ separators := by
  have hc := toNat_lt_of_isPlain h
  revert h
  apply of_ascii hc
  decide +kernel

theorem isNameChar_of_isHexDigit {c : Char} (h : isHexDigit c = true) : isNameChar c = true := by
  have hc := toNat_lt_of_isHexDigit h
  revert h
  apply of_ascii hc
  decide +kernel

theorem isPlain_of_isNameChar {c : Char} (h : isNameChar c = true) : isPlain c = true := by
  rw [isPlain, h, Bool.true_or, Bool.true_or]

theorem isNameChar_of_mem_name {name : Text} (h : isName name = true) :
    ∀ c ∈ name, isNameChar c = true := by
  cases name with
  | nil => cases h
  | cons c t =>
    obtain ⟨hc, ht⟩ := Bool.and_eq_true_iff.mp h
    refine List.forall_mem_cons.mpr ⟨?_, List.all_eq_true.mp ht⟩
    simp only [isNameStart, isNameChar, Char.isAlphanum, Bool.or_eq_true] at hc ⊢
    tauto

theorem isNameStart_toUpper (c : Char) : isNameStart c.toUpper = isNameStart c :=
  apply_toUpper isNameStart (by decide) c

theorem isNameChar_toUpper (c : Char) : isNameChar c.toUpper = isNameChar c :=
  apply_toUpper isNameChar (by decide) c

theorem isName_upper (t : Text) : isName (upper t) = isName t := by
  cases t with
  | nil => rfl
  | cons c t =>
    show (isNameStart c.toUpper && (upper t).all isNameChar) = (isNameStart c && t.all isNameChar)
    rw [isNameStart_toUpper, upper, List.all_map]
    congr 2
    exact funext isNameChar_toUpper

/-! ## operands -/

def startsWithLetter (t : Text) : Bool := t.head?.any Char.isAlpha

/-- the operand that the normal form of an operand is read as -/
def Operand.readBack : Operand → Operand
  | .addr a => if startsWithLetter (hex a) then .label (hex a) else .addr a
  | o => o

/-- an operand as a source can have it, of a branch or of another command -/
inductive Operand.Legible : Bool → Operand → Prop
  | reg {r : Register} (h : r ∈ Register.named) : Legible false (.reg r)
  | indirect {p : WordRegister} (h : p = .si ∨ p = .di) : Legible false (.indirect p)
  | imm (v : Word) : Legible false (.imm v)
  | addr {a : Address} (h : a < 2 ^ 20) : Legible true (.addr a)
  | label {name : Text} (hn : isName name = true) (hu : upper name = name) :
      Legible true (.label name)

/-- Digits are a name exactly if they start with a letter. -/
theorem isName_hex (n : Nat) : isName (hex n) = startsWithLetter (hex n) := by
  have hdigits : ∀ c ∈ hex n, isHexDigit c = true := fun c => isHexDigit_of_mem_hex
  cases hx : hex n with
  | nil => rfl
  | cons c t =>
    rw [hx] at hdigits
    obtain ⟨hc, ht⟩ := List.forall_mem_cons.mp hdigits
    have hall : t.all isNameChar = true :=
      List.all_eq_true.mpr fun d hd => isNameChar_of_isHexDigit (ht d hd)
    have hdash : c ≠ '_' := fun h => absurd (h ▸ hc) (by decide)
    have hdot : c ≠ '.' := fun h => absurd (h ▸ hc) (by decide)
    show ((c.isAlpha || c == '_' || c == '.') && t.all isNameChar) = c.isAlpha
    rw [hall, beq_eq_false_iff_ne.mpr hdash, beq_eq_false_iff_ne.mpr hdot, Bool.or_false,
      Bool.or_false, Bool.and_true]

theorem readUpperData_hex (v : Word) : readUpperData (hex v.toNat) = .ok (.imm v) := by
  have hlt := v.isLt
  have hint : (⟨false, v.toNat⟩ : Numeral).toInt = v.toNat := rfl
  rw [readUpperData_of_read? (read?_hex v.toNat), hint, if_pos (by omega), BitVec.ofInt_natCast,
    BitVec.ofNat_toNat, BitVec.setWidth_eq]

theorem readUpperTarget_hex {a : Address} (h : a < 2 ^ 20) :
    readUpperTarget (hex a) = .ok (Operand.readBack (.addr a)) := by
  show _ = Except.ok (if startsWithLetter (hex a) then Operand.label (hex a) else .addr a)
  unfold readUpperTarget
  rw [isName_hex]
  by_cases hletter : startsWithLetter (hex a) = true
  · rw [if_pos hletter, if_pos hletter]
  · have hhead : (hex a).head? ≠ some '-' := by
      intro hd
      obtain ⟨t, ht⟩ := List.head?_eq_some_iff.mp hd
      exact absurd (isHexDigit_of_mem_hex (n := a) (ht ▸ List.mem_cons_self)) (by decide)
    rw [if_neg hletter, if_neg hletter, readHex?_hex (Nat.lt_trans h (by decide))]
    dsimp only
    rw [if_neg hhead, Nat.mod_eq_of_lt (show a < 0x100000 from h)]

namespace Operand.Legible
variable {b : Bool} {o : Operand}

theorem text_ne_nil (h : o.Legible b) : o.text ≠ [] := by
  have hnames : ∀ r ∈ Register.named, r.name.toList ≠ [] := by decide +kernel
  cases h with
  | reg hr => exact hnames _ hr
  | indirect hp => exact List.cons_ne_nil _ _
  | imm v => exact hex_ne_nil _
  | addr ha => exact hex_ne_nil _
  | @label name hn hu =>
    intro hnil
    obtain rfl : name = [] := hnil
    cases hn

theorem isPlain_of_mem_text (h : o.Legible b) : ∀ c ∈ o.text, isPlain c = true := by
  have hnames : ∀ r ∈ Register.named, r.name.toList.all isPlain = true := by decide +kernel
  have hhex (n : Nat) : ∀ c ∈ hex n, isPlain c = true := fun c hc =>
    isPlain_of_isNameChar (isNameChar_of_isHexDigit (isHexDigit_of_mem_hex hc))
  cases h with
  | reg hr => exact List.all_eq_true.mp (hnames _ hr)
  | indirect hp => rcases hp with rfl | rfl <;> exact List.all_eq_true.mp (by decide)
  | imm v => exact hhex _
  | addr ha => exact hhex _
  | label hn hu => exact fun c hc => isPlain_of_isNameChar (isNameChar_of_mem_name hn c hc)

/-- A legible operand is read back from its normal form. -/
theorem readOperand_text {m : Mnemonic} (h : o.Legible m.isBranch) (list : Text) :
    readOperand m list o.text = .ok o.readBack := by
  have hne := h.text_ne_nil
  rw [readOperand, if_neg hne]
  generalize m.isBranch = b at h
  have hnames : ∀ r ∈ Register.named, upper r.name.toList = r.name.toList := by decide +kernel
  cases h with
  | reg hr =>
    show (readUpperData (upper _)).mapError _ = _
    rw [Operand.text, hnames _ hr, readUpperData_name _ hr]
    rfl
  | indirect hp => rcases hp with rfl | rfl <;> decide
  | imm v =>
    show (readUpperData (upper (hex v.toNat))).mapError _ = _
    rw [upper_hex, readUpperData_hex]
    rfl
  | addr ha =>
    show (readUpperTarget (upper (hex _))).mapError _ = _
    rw [upper_hex, readUpperTarget_hex ha]
    rfl
  | label hn hu =>
    show (readUpperTarget (upper _)).mapError _ = _
    rw [Operand.text, hu, readUpperTarget, if_pos hn]
    rfl

end Operand.Legible

section
variable {m : Mnemonic} {ops : List Operand} (h : ∀ o ∈ ops, o.Legible m.isBranch)
include h

theorem comma_not_mem_text : ∀ p ∈ ops.map Operand.text, ',' ∉ p := by
  intro p hp hc
  obtain ⟨o, ho, rfl⟩ := List.mem_map.mp hp
  exact (not_blank_of_isPlain ((h o ho).isPlain_of_mem_text _ hc)).2 (by decide)

theorem pieces_operandsText (hne : ops ≠ []) :
    pieces ',' (operandsText ops) = ops.map Operand.text :=
  pieces_joined (fun hnil => hne (List.map_eq_nil_iff.mp hnil)) (comma_not_mem_text h)

theorem operandsText_ne_nil (hne : ops ≠ []) : operandsText ops ≠ [] := by
  intro hnil
  have hp := pieces_operandsText h hne
  rw [hnil] at hp
  obtain ⟨o, rest, rfl⟩ := List.exists_cons_of_ne_nil hne
  exact (h o List.mem_cons_self).text_ne_nil (List.cons.inj hp).1.symm

theorem readOperands_text : readOperands m (operandsText ops) = .ok (ops.map Operand.readBack) := by
  by_cases hne : ops = []
  · subst hne
    rfl
  · rw [readOperands, if_neg (operandsText_ne_nil h hne), pieces_operandsText h hne, mapM_eq_ok,
      List.forall₂_map_left_iff, List.forall₂_map_right_iff, List.forall₂_same]
    exact fun o ho => (h o ho).readOperand_text _

theorem not_blank_of_mem_operandsText :
    ∀ c ∈ operandsText ops, isBlank c = false ∧ (c = ',' ∨ c ∉ separators) := by
  intro c hc
  obtain rfl | ⟨p, hp, hcp⟩ := mem_of_mem_joined hc
  · exact ⟨by decide, .inl rfl⟩
  · obtain ⟨o, ho, rfl⟩ := List.mem_map.mp hp
    obtain ⟨hb, hs⟩ := not_blank_of_isPlain ((h o ho).isPlain_of_mem_text c hcp)
    exact ⟨hb, .inr hs⟩

end

/-! ## lines -/

theorem isPlain_of_mem_mnemonic (m : Mnemonic) : ∀ c ∈ m.name.toList, isPlain c = true := by
  have hall : ∀ m ∈ Mnemonic.all, m.name.toList.all isPlain = true := by decide +kernel
  exact List.all_eq_true.mp (hall m m.mem_all)

theorem mnemonic_name_ne_nil (m : Mnemonic) : m.name.toList ≠ [] := by
  have hall : ∀ m ∈ Mnemonic.all, m.name.toList ≠ [] := by decide +kernel
  exact hall m m.mem_all

/-- A line without a comment and without blanks at its ends counts as it is. -/
theorem statementText_eq_self {line : Text} (hc : ';' ∉ line)
    (hs : ∀ c, line.head? = some c → isBlank c = false)
    (he : ∀ c, line.getLast? = some c → isBlank c = false) : statementText line = line := by
  have hbody : (line ++ []).takeWhile (· ≠ ';') = line ++ [] :=
    List.takeWhile_append_of_pos fun c hmem => decide_eq_true fun h => hc (h ▸ hmem)
  rw [List.append_nil] at hbody
  rw [statementText, hbody]
  exact trim_eq_self hs he

section
variable {i : Instruction} (h : ∀ o ∈ i.operands, o.Legible i.mnemonic.isBranch)
include h

/-- the normal form is the mnemonic with the operands behind a blank, if there are any -/
theorem takeWord_text : ∃ field, takeWord i.text = (i.mnemonic.name.toList, field) ∧
    dropBlanks field = operandsText i.operands := by
  have hname : ∀ c ∈ i.mnemonic.name.toList, isBlank c = false :=
    fun c hc => (not_blank_of_isPlain (isPlain_of_mem_mnemonic _ c hc)).1
  unfold Instruction.text
  split
  · next hops =>
    refine ⟨[], ?_, ?_⟩
    · have htake := takeWord_eq (t := []) hname fun c hc => nomatch hc
      rw [List.append_nil] at htake
      exact htake
    · rw [hops]
      rfl
  · refine ⟨'\t' :: operandsText i.operands, takeWord_eq hname fun c hc => ?_, ?_⟩
    · cases hc
      decide
    · rw [dropBlanks_cons_of_blank (by decide)]
      exact dropBlanks_eq_self fun c hc => (not_blank_of_mem_operandsText h c hc).1

theorem Command.read_text :
    Command.read i.text = .ok ⟨i.mnemonic, i.operands.map Operand.readBack⟩ := by
  obtain ⟨field, hword, hfield⟩ := takeWord_text h
  rw [Command.read_eq_ok, hword]
  refine ⟨i.mnemonic.ofText?_name, ?_⟩
  rw [hfield]
  exact readOperands_text h

/-- the characters of a normal form do not take a line apart -/
theorem mem_text {c : Char} (hc : c ∈ i.text) : c = '\t' ∨ c = ',' ∨ c ∉ separators := by
  have hname (hc : c ∈ i.mnemonic.name.toList) : c ∉ separators :=
    (not_blank_of_isPlain (isPlain_of_mem_mnemonic _ c hc)).2
  unfold Instruction.text at hc
  split at hc
  · exact .inr (.inr (hname hc))
  · obtain hc | hc := List.mem_append.mp hc
    · exact .inr (.inr (hname hc))
    · obtain hc | hc := List.mem_cons.mp hc
      · exact .inl hc
      · exact .inr (not_blank_of_mem_operandsText h c hc).2

theorem not_mem_text {c : Char} (hc : c ∈ [':', ';', '\n']) : c ∉ i.text := by
  intro hmem
  obtain rfl | rfl | hno := mem_text h hmem
  · exact absurd hc (by decide)
  · exact absurd hc (by decide)
  · exact hno (List.mem_cons_of_mem _ hc)

theorem text_ends : (∀ c, i.text.head? = some c → isBlank c = false) ∧
    ∀ c, i.text.getLast? = some c → isBlank c = false := by
  have hname : ∀ c ∈ i.mnemonic.name.toList, isBlank c = false :=
    fun c hc => (not_blank_of_isPlain (isPlain_of_mem_mnemonic _ c hc)).1
  have hne := mnemonic_name_ne_nil i.mnemonic
  unfold Instruction.text
  split
  · exact ⟨fun c hc => hname c (List.mem_of_head? hc),
      fun c hc => hname c (List.mem_of_getLast? hc)⟩
  · next hops =>
    have hlist := operandsText_ne_nil h hops
    constructor
    · intro c hc
      rw [List.head?_append_of_ne_nil _ hne] at hc
      exact hname c (List.mem_of_head? hc)
    · intro c hc
      rw [List.append_cons, List.getLast?_append_of_ne_nil _ hlist] at hc
      exact (not_blank_of_mem_operandsText h c (List.mem_of_getLast? hc)).1

/-- The line of an instruction is read as its command. -/
theorem Statement.read_text :
    Statement.read i.text =
      .ok ⟨none, some ⟨i.mnemonic, i.operands.map Operand.readBack⟩, i.text⟩ := by
  have hself : statementText i.text = i.text :=
    statementText_eq_self (not_mem_text h (by decide)) (text_ends h).1 (text_ends h).2
  have hcolon : splitFirst? ':' i.text = none :=
    splitFirst?_eq_none.mpr (not_mem_text h (by decide))
  have hne : i.text ≠ [] := by
    unfold Instruction.text
    split
    · exact mnemonic_name_ne_nil _
    · exact List.append_ne_nil_of_right_ne_nil _ (List.cons_ne_nil _ _)
  unfold Statement.read
  dsimp only
  rw [hself, hcolon]
  dsimp only
  rw [Command.read?, if_neg hne, Command.read_text h]
  rfl

end

/-- the line that defines a label -/
def labelLine (name : Text) : Text := name ++ [':']

theorem Statement.read_labelLine {name : Text} (hn : isName name = true) (hu : upper name = name) :
    Statement.read (labelLine name) = .ok ⟨some name, none, labelLine name⟩ := by
  have hplain : ∀ c ∈ name, isBlank c = false ∧ c ∉ separators :=
    fun c hc => not_blank_of_isPlain (isPlain_of_isNameChar (isNameChar_of_mem_name hn c hc))
  have hne : name ≠ [] := by
    rintro rfl
    cases hn
  have hsemicolon : ';' ∉ labelLine name := by
    intro hc
    obtain hc | hc := List.mem_append.mp hc
    · exact (hplain _ hc).2 (by decide)
    · exact absurd hc (by decide)
  have hself : statementText (labelLine name) = labelLine name := by
    refine statementText_eq_self hsemicolon (fun c hc => ?_) fun c hc => ?_
    · rw [labelLine, List.head?_append_of_ne_nil _ hne] at hc
      exact (hplain c (List.mem_of_head? hc)).1
    · rw [labelLine, List.getLast?_concat] at hc
      cases hc
      decide
  have hcolon : splitFirst? ':' (labelLine name) = some (name, []) :=
    splitFirst?_append (fun hc => (hplain _ hc).2 (by decide)) []
  have htrim : trim name = name :=
    trim_eq_self (fun c hc => (hplain c (List.mem_of_head? hc)).1)
      fun c hc => (hplain c (List.mem_of_getLast? hc)).1
  unfold Statement.read
  dsimp only
  rw [hself, hcolon]
  dsimp only
  rw [htrim, if_pos hn, hu]
  rfl

end Mini8086
