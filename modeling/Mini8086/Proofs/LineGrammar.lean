import Mini8086.Proofs.Spelling

/-!
# The grammar of lines

The reader of statements takes a line apart step by step.  `Grammar` says what a line is without
these steps: which texts its parts are, and what makes each of them well formed.  Registers, names
and numbers overlap as texts, so every form of an operand also says which forms come before it.

* `Grammar.Name`, `Grammar.Trimmed`, `Grammar.FirstWord`   names and the parts of a text;
* `Grammar.Classified`    what a piece of an operand list is, to a branch or to another command;
* `Grammar.OperandList`   an operand list: its operands, or the error of the first that is none;
* `Grammar.CommandText`   a command, or nothing;
* `Grammar.Line`          a line: the statement that it is, or why it is none;
* `Grammar.Accepted`      a line that is a statement;
* `line_grammar`          the reader agrees with the grammar on every line.
-/

namespace Mini8086

/-! ## names -/

/-- a letter, `_` or `.` -/
def Grammar.NameStart (c : Char) : Prop :=
  ('A' ≤ c ∧ c ≤ 'Z') ∨ ('a' ≤ c ∧ c ≤ 'z') ∨ c = '_' ∨ c = '.'

/-- A letter, `_` or `.`, followed by letters, digits, `_` and `.`. -/
inductive Grammar.Name : Text → Prop
  | intro {c : Char} {t : Text} (hc : NameStart c) (ht : ∀ d ∈ t, NameStart d ∨ '0' ≤ d ∧ d ≤ '9') :
      Name (c :: t)

theorem isNameStart_iff {c : Char} : isNameStart c = true ↔ Grammar.NameStart c := by
  unfold isNameStart Char.isAlpha Char.isUpper Char.isLower Grammar.NameStart
  simp only [Bool.or_eq_true, Bool.and_eq_true, decide_eq_true_iff, beq_iff_eq, or_assoc]
  rfl

theorem isNameChar_iff {c : Char} :
    isNameChar c = true ↔ Grammar.NameStart c ∨ '0' ≤ c ∧ c ≤ '9' := by
  rw [← isNameStart_iff]
  unfold isNameChar isNameStart Char.isAlphanum Char.isDigit
  simp only [Bool.or_eq_true, Bool.and_eq_true, decide_eq_true_iff, beq_iff_eq]
  show _ ↔ _ ∨ (c.val ≥ 48 ∧ c.val ≤ 57)
  tauto

theorem isName_iff {t : Text} : isName t = true ↔ Grammar.Name t := by
  cases t with
  | nil => exact ⟨fun h => (Bool.false_ne_true h).elim, fun h => nomatch h⟩
  | cons c t =>
    rw [isName, Bool.and_eq_true, List.all_eq_true, isNameStart_iff]
    constructor
    · rintro ⟨hc, ht⟩
      exact .intro hc fun d hd => isNameChar_iff.mp (ht d hd)
    · rintro ⟨hc, ht⟩
      exact ⟨hc, fun d hd => isNameChar_iff.mpr (ht d hd)⟩

/-! ## the parts of a text -/

/-- `s` is the text without the blanks at its ends. -/
structure Grammar.Trimmed (t s : Text) : Prop where
  text : ∃ left right, t = left ++ (s ++ right) ∧ (∀ c ∈ left, isBlank c = true) ∧
    ∀ c ∈ right, isBlank c = true
  head : ∀ c, s.head? = some c → isBlank c = false
  last : ∀ c, s.getLast? = some c → isBlank c = false

/-- `t` is what stands in front of the comment of the line, without blanks at its ends. -/
inductive Grammar.Uncommented (line : Text) : Text → Prop
  | intro {body comment t : Text} (hline : line = body ++ comment) (hbody : ';' ∉ body)
      (hcomment : ∀ c, comment.head? = some c → c = ';') (ht : Trimmed body t) : Uncommented line t

/-- The text starts with a word that a blank ends, or the end of the text. -/
structure Grammar.FirstWord (t word rest : Text) : Prop where
  text : t = word ++ rest
  word : ∀ c ∈ word, isBlank c = false
  rest : ∀ c, rest.head? = some c → isBlank c = true

theorem trimmed_trim (t : Text) : Grammar.Trimmed t (trim t) := by
  obtain ⟨right, hright, hend⟩ := exists_trimEnd_append (trimStart t)
  refine ⟨⟨t.takeWhile isBlank, right, ?_, fun c hc => ?_, hright⟩, fun c hc => ?_,
    fun c hc => not_blank_of_trimEnd hc⟩
  · rw [trim, ← hend]
    exact List.takeWhile_append_dropWhile.symm
  · exact List.all_eq_true.mp List.all_takeWhile c hc
  · obtain ⟨s, hs⟩ := List.head?_eq_some_iff.mp hc
    rw [show trimEnd (trimStart t) = c :: s from hs] at hend
    exact not_blank_of_trimStart hend

theorem trim_eq_iff {t s : Text} : trim t = s ↔ Grammar.Trimmed t s := by
  refine ⟨fun h => h ▸ trimmed_trim t, fun h => ?_⟩
  obtain ⟨⟨left, right, rfl, hleft, hright⟩, hhead, hlast⟩ := h
  have hs : trim s = s := trim_eq_self hhead hlast
  have hnil : trimStart right = [] := by
    rw [← List.append_nil right, trimStart_append_of_blank hright]
    rfl
  rw [trim, trimStart_append_of_blank hleft, trimStart_append, hnil]
  split
  · next hnone =>
    rw [← hs, trim, hnone]
  · rw [trimEnd_append_of_blank _ hright]
    exact hs

theorem statementText_eq_iff {line t : Text} :
    statementText line = t ↔ Grammar.Uncommented line t := by
  constructor
  · intro h
    exact .intro (uncommented_append_comment line).symm (semicolon_not_mem_uncommented line)
      (fun _ => head?_comment) (trim_eq_iff.mp h)
  · rintro ⟨rfl, hbody, hcomment, ht⟩
    have hnone : uncommented _ = [] := uncommented_eq_nil hcomment
    rw [statementText, ← uncommented, uncommented_append, if_neg hbody, hnone, List.append_nil]
    exact trim_eq_iff.mpr ht

theorem takeWord_eq_iff {t word rest : Text} :
    takeWord t = (word, rest) ↔ Grammar.FirstWord t word rest := by
  constructor
  · intro h
    obtain ⟨rfl, rfl⟩ : (takeWord t).1 = word ∧ (takeWord t).2 = rest := Prod.mk.inj h
    refine ⟨(takeWord_append t).symm, fun c hc => not_blank_of_mem_takeWord hc, fun c hc => ?_⟩
    have hblank := head?_takeWord (List.ne_nil_of_mem (List.mem_of_head? hc))
    rw [hc] at hblank
    exact hblank
  · rintro ⟨rfl, hword, hrest⟩
    exact takeWord_eq hword hrest

/-! ## operands -/

/-- The text, in upper case, as the target of a branch: a name, else a number without a sign. -/
inductive Grammar.Target (t : Text) : Except OperandError Operand → Prop
  | name (hn : Name t) : Target t (.ok (.label t))
  | address {v : Nat} (hn : ¬ Name t) (hs : t.head? ≠ some '-') (hv : readHex? t = some v) :
      Target t (.ok (.addr (v % 2 ^ 20)))
  | neither (hn : ¬ Name t) (h : t.head? = some '-' ∨ readHex? t = none) :
      Target t (.error (.notTarget t))

/-- The text is neither in brackets nor a register. -/
structure Grammar.Free (t : Text) : Prop where
  brackets : ∀ inner, t ≠ '[' :: (inner ++ [']'])
  register : ∀ r ∈ Register.named, t ≠ r.name.toList

/-- The text, in upper case, as data: a pointer in brackets, else a register, else a number, else a
name. -/
inductive Grammar.Datum : Text → Except OperandError Operand → Prop
  | pointer {p : WordRegister} (hp : p = .si ∨ p = .di) :
      Datum ('[' :: (p.name.toList ++ [']'])) (.ok (.indirect p))
  | brackets {inner : Text} (hs : inner ≠ "SI".toList) (hd : inner ≠ "DI".toList) :
      Datum ('[' :: (inner ++ [']'])) (.error (.addressingMode ('[' :: (inner ++ [']']))))
  | register {r : Register} (hr : r ∈ Register.named) : Datum r.name.toList (.ok (.reg r))
  | number {t : Text} {v : Nat} (hf : Free t) (hv : readHex? t = some v) (hlt : v ≤ 0xffff) :
      Datum t (.ok (.imm (BitVec.ofNat 16 v)))
  | tooWide {t : Text} {v : Nat} (hf : Free t) (hv : readHex? t = some v) (hlt : 0xffff < v) :
      Datum t (.error (.tooWide t))
  | name {t : Text} (hf : Free t) (hv : readHex? t = none) (hn : Name t) : Datum t (.ok (.label t))
  | neither {t : Text} (hf : Free t) (hv : readHex? t = none) (hn : ¬ Name t) :
      Datum t (.error (.notData t))

theorem readUpperTarget_eq_iff {t : Text} {r : Except OperandError Operand} :
    readUpperTarget t = r ↔ Grammar.Target t r := by
  constructor
  · rintro rfl
    unfold readUpperTarget
    split
    · next hn => exact .name (isName_iff.mp hn)
    · next hn =>
      rw [isName_iff] at hn
      split
      · next v hv =>
        split
        · next hs => exact .neither hn (.inl hs)
        · next hs => exact .address hn hs hv
      · next hv => exact .neither hn (.inr hv)
  · intro h
    cases h with
    | name hn => exact if_pos (isName_iff.mpr hn)
    | address hn hs hv =>
      rw [readUpperTarget, if_neg (mt isName_iff.mp hn), hv]
      exact if_neg hs
    | neither hn h =>
      rw [readUpperTarget, if_neg (mt isName_iff.mp hn)]
      cases hv : readHex? t with
      | none => rfl
      | some v =>
        rw [hv] at h
        exact if_pos (h.resolve_right (Option.some_ne_none v))

theorem insideBrackets?_eq_some {t inner : Text} :
    insideBrackets? t = some inner ↔ t = '[' :: (inner ++ [']']) := by
  constructor
  · intro h
    unfold insideBrackets? at h
    split at h
    · next u =>
      split at h
      · next hlast =>
        rw [← Option.some.inj h, List.dropLast_append_getLast? _ hlast]
      · cases h
    · cases h
  · rintro rfl
    rw [insideBrackets?, List.getLast?_concat, if_pos rfl, List.dropLast_concat]

theorem Register.ofText?_eq_none {t : Text} :
    Register.ofText? t = none ↔ ∀ r ∈ Register.named, r.name.toList ≠ upper t := by
  rw [Register.ofText?, List.find?_eq_none]
  simp only [beq_iff_eq, ne_eq]

theorem insideBrackets?_eq_none {t : Text} :
    insideBrackets? t = none ↔ ∀ inner, t ≠ '[' :: (inner ++ [']']) := by
  rw [Option.eq_none_iff_forall_ne_some]
  exact forall_congr' fun inner => not_congr insideBrackets?_eq_some

theorem Grammar.free_iff {t : Text} (ht : upper t = t) :
    Grammar.Free t ↔ insideBrackets? t = none ∧ Register.ofText? t = none := by
  rw [insideBrackets?_eq_none, Register.ofText?_eq_none, ht]
  exact ⟨fun h => ⟨h.brackets, fun r hr heq => h.register r hr heq.symm⟩,
    fun h => ⟨h.1, fun r hr heq => h.2 r hr heq.symm⟩⟩

theorem readUpperData_eq_iff {t : Text} (ht : upper t = t) {r : Except OperandError Operand} :
    readUpperData t = r ↔ Grammar.Datum t r := by
  constructor
  · rintro rfl
    unfold readUpperData
    split
    · next inner h =>
      obtain rfl := insideBrackets?_eq_some.mp h
      split
      · next hs =>
        rw [hs]
        exact .pointer (p := .si) (.inl rfl)
      · next hs =>
        split
        · next hd =>
          rw [hd]
          exact .pointer (p := .di) (.inr rfl)
        · next hd => exact .brackets hs hd
    · next h =>
      split
      · next r hr =>
        obtain ⟨hmem, hname⟩ := Register.ofText?_eq_some hr
        rw [ht] at hname
        exact hname ▸ .register hmem
      · next hr =>
        have hf := (Grammar.free_iff ht).mpr ⟨h, hr⟩
        split
        · next v hv =>
          split
          · next hlt => exact .number hf hv (Nat.le_of_lt_succ hlt)
          · next hlt => exact .tooWide hf hv (Nat.not_lt.mp hlt)
        · next hv =>
          split
          · next hn => exact .name hf hv (isName_iff.mp hn)
          · next hn => exact .neither hf hv (mt isName_iff.mpr hn)
  · intro h
    have hfree (hf : Grammar.Free t) := (Grammar.free_iff ht).mp hf
    cases h with
    | pointer hp => rcases hp with rfl | rfl <;> rfl
    | brackets hs hd =>
      rw [readUpperData, insideBrackets?_eq_some.mpr rfl]
      exact (if_neg hs).trans (if_neg hd)
    | register hr => exact readUpperData_name _ hr
    | number hf hv hlt =>
      rw [readUpperData, (hfree hf).1, (hfree hf).2, hv]
      exact if_pos (Nat.lt_succ_of_le hlt)
    | tooWide hf hv hlt =>
      rw [readUpperData, (hfree hf).1, (hfree hf).2, hv]
      exact if_neg (Nat.not_lt.mpr hlt)
    | name hf hv hn =>
      rw [readUpperData, (hfree hf).1, (hfree hf).2, hv]
      exact if_pos (isName_iff.mpr hn)
    | neither hf hv hn =>
      rw [readUpperData, (hfree hf).1, (hfree hf).2, hv]
      exact if_neg (mt isName_iff.mp hn)

/-! ## operand lists -/

/-- What a piece of an operand list is, of a branch or of another command.  The case of its letters
does not matter. -/
def Grammar.Classified (branch : Bool) (piece : Text) (r : Except OperandError Operand) : Prop :=
  if branch then Target (upper piece) r else Datum (upper piece) r

/-- A piece of the operand list of a command: it must not be empty. -/
inductive Grammar.Piece (m : Mnemonic) (list : Text) : Text → Except StatementError Operand → Prop
  | empty : Piece m list [] (.error (.malformedOperands list))
  | operand {p : Text} {o : Operand} (hp : p ≠ []) (h : Classified m.isBranch p (.ok o)) :
      Piece m list p (.ok o)
  | refused {p : Text} {e : OperandError} (hp : p ≠ [])
      (h : Classified m.isBranch p (.error e)) : Piece m list p (.error (.operand e))

/-- The list, without blanks, is the pieces with commas between them. -/
structure Grammar.Separated (list : Text) (ps : List Text) : Prop where
  text : list = joined ',' ps
  ne_nil : list ≠ []
  comma : ∀ p ∈ ps, ',' ∉ p

/-- An operand list without blanks: nothing, or pieces with commas between them.  The error of a
list is that of the first piece that has one. -/
inductive Grammar.OperandList (m : Mnemonic) (list : Text) :
    Except StatementError (List Operand) → Prop
  | none (hlist : list = []) : OperandList m list (.ok [])
  | operands {ps : List Text} {ops : List Operand} (hps : Separated list ps)
      (h : List.Forall₂ (fun p o => Piece m list p (.ok o)) ps ops) : OperandList m list (.ok ops)
  | fault {before after : List Text} {p : Text} {e : StatementError}
      (hps : Separated list (before ++ p :: after))
      (hbefore : ∀ q ∈ before, ∃ o, Piece m list q (.ok o)) (h : Piece m list p (.error e)) :
      OperandList m list (.error e)

theorem classified_iff {m : Mnemonic} {p : Text} {r : Except OperandError Operand} :
    (if m.isBranch then Operand.readTarget p else Operand.readData p) = r ↔
      Grammar.Classified m.isBranch p r := by
  cases hb : m.isBranch with
  | true => exact readUpperTarget_eq_iff
  | false => exact readUpperData_eq_iff (upper_upper p)

/-- A piece is read in one way. -/
theorem existsUnique_classified (branch : Bool) (piece : Text) :
    ∃! r, Grammar.Classified branch piece r := by
  cases branch with
  | true => exact ⟨_, readUpperTarget_eq_iff.mp rfl, fun r h => (readUpperTarget_eq_iff.mpr h).symm⟩
  | false =>
    have hdata {r} := readUpperData_eq_iff (upper_upper piece) (r := r)
    exact ⟨_, hdata.mp rfl, fun r h => (hdata.mpr h).symm⟩

theorem readOperand_eq_iff {m : Mnemonic} {list p : Text} {r : Except StatementError Operand} :
    readOperand m list p = r ↔ Grammar.Piece m list p r := by
  constructor
  · rintro rfl
    unfold readOperand
    split
    · next hp => exact hp ▸ .empty
    · next hp =>
      generalize hread : (if m.isBranch then Operand.readTarget p else Operand.readData p) = r
      have h := classified_iff.mp hread
      cases r with
      | ok o => exact .operand hp h
      | error e => exact .refused hp h
  · intro h
    cases h with
    | empty => exact if_pos rfl
    | operand hp h | refused hp h =>
      rw [readOperand, if_neg hp, classified_iff.mpr h]
      rfl

theorem separated_iff {list : Text} (hne : list ≠ []) {ps : List Text} :
    pieces ',' list = ps ↔ Grammar.Separated list ps := by
  constructor
  · rintro rfl
    exact ⟨(joined_pieces ',' list).symm, hne, fun p hp => not_mem_of_mem_pieces hp⟩
  · rintro ⟨rfl, -, hcomma⟩
    refine pieces_joined ?_ hcomma
    rintro rfl
    exact hne rfl

theorem readOperands_eq_iff {m : Mnemonic} {list : Text}
    {r : Except StatementError (List Operand)} :
    readOperands m list = r ↔ Grammar.OperandList m list r := by
  constructor
  · intro h
    by_cases hne : list = []
    · rw [readOperands, if_pos hne] at h
      exact h ▸ .none hne
    · rw [readOperands, if_neg hne] at h
      cases r with
      | ok ops =>
        have hall := mapM_eq_ok.mp h
        exact .operands ((separated_iff hne).mp rfl) (hall.imp fun p o => readOperand_eq_iff.mp)
      | error e =>
        obtain ⟨before, p, after, hps, hbefore, hp⟩ := mapM_eq_error.mp h
        exact .fault ((separated_iff hne).mp hps)
          (fun q hq => (hbefore q hq).imp fun o => readOperand_eq_iff.mp) (readOperand_eq_iff.mp hp)
  · intro h
    cases h with
    | none hlist => exact if_pos hlist
    | operands hps h =>
      rw [readOperands, if_neg hps.ne_nil, (separated_iff hps.ne_nil).mpr hps, mapM_eq_ok]
      exact h.imp fun p o => readOperand_eq_iff.mpr
    | fault hps hbefore h =>
      rw [readOperands, if_neg hps.ne_nil, (separated_iff hps.ne_nil).mpr hps, mapM_eq_error]
      exact ⟨_, _, _, rfl, fun q hq => (hbefore q hq).imp fun o => readOperand_eq_iff.mpr,
        readOperand_eq_iff.mpr h⟩

/-- Each piece of the list is an operand; there may be none. -/
inductive Grammar.AllClassified (m : Mnemonic) (list : Text) : Prop
  | none (hlist : list = [])
  | pieces {ps : List Text} (hps : Separated list ps)
      (h : ∀ p ∈ ps, p ≠ [] ∧ ∃ o, Classified m.isBranch p (.ok o))

theorem exists_right_of_forall₂ {α β : Type} {R : α → β → Prop} {as : List α} {bs : List β}
    (h : List.Forall₂ R as bs) : ∀ a ∈ as, ∃ b, R a b := by
  induction h with
  | nil => exact List.forall_mem_nil _
  | cons hab _ ih => exact List.forall_mem_cons.mpr ⟨⟨_, hab⟩, ih⟩

/-- A list has operands unless one of its pieces is none. -/
theorem exists_operandList_iff {m : Mnemonic} {list : Text} :
    (∃ ops, Grammar.OperandList m list (.ok ops)) ↔ Grammar.AllClassified m list := by
  constructor
  · rintro ⟨ops, h⟩
    cases h with
    | none hlist => exact .none hlist
    | operands hps h =>
      refine .pieces hps fun p hp => ?_
      obtain ⟨o, ho⟩ := exists_right_of_forall₂ h p hp
      cases ho with
      | operand hne h => exact ⟨hne, o, h⟩
  · intro h
    cases h with
    | none hlist => exact ⟨[], .none hlist⟩
    | @pieces ps hps h =>
      have hread : ∀ p ∈ ps, ∃ o, readOperand m list p = .ok o := by
        intro p hp
        obtain ⟨hne, o, ho⟩ := h p hp
        exact ⟨o, readOperand_eq_iff.mpr (.operand hne ho)⟩
      obtain ⟨ops, hops⟩ := exists_mapM_eq_ok hread
      exact ⟨ops, .operands hps ((mapM_eq_ok.mp hops).imp fun p o => readOperand_eq_iff.mp)⟩

/-! ## commands -/

/-- A command, or nothing: a word that is a mnemonic in any case, and behind it the operand list, in
which blanks do not count. -/
inductive Grammar.CommandText (t : Text) : Except StatementError (Option Command) → Prop
  | none (ht : t = []) : CommandText t (.ok none)
  | unknown {word rest : Text} (ht : t ≠ []) (hw : FirstWord t word rest)
      (hm : ∀ m : Mnemonic, m.name.toList ≠ upper word) :
      CommandText t (.error (.unknownMnemonic (upper word)))
  | command {word rest : Text} {m : Mnemonic} {ops : List Operand} (ht : t ≠ [])
      (hw : FirstWord t word rest) (hm : m.name.toList = upper word)
      (h : OperandList m (dropBlanks rest) (.ok ops)) : CommandText t (.ok (some ⟨m, ops⟩))
  | fault {word rest : Text} {m : Mnemonic} {e : StatementError} (ht : t ≠ [])
      (hw : FirstWord t word rest) (hm : m.name.toList = upper word)
      (h : OperandList m (dropBlanks rest) (.error e)) : CommandText t (.error e)

theorem Mnemonic.ofText?_eq_some {word : Text} {m : Mnemonic} :
    Mnemonic.ofText? word = some m ↔ m.name.toList = upper word := by
  constructor
  · intro h
    simpa using List.find?_some h
  · intro h
    rw [← ofText?_upper, ← h, m.ofText?_name]

theorem Mnemonic.ofText?_eq_none {word : Text} :
    Mnemonic.ofText? word = none ↔ ∀ m : Mnemonic, m.name.toList ≠ upper word := by
  rw [Option.eq_none_iff_forall_ne_some]
  exact forall_congr' fun m => not_congr Mnemonic.ofText?_eq_some

theorem read?_eq_iff {t : Text} {r : Except StatementError (Option Command)} :
    Command.read? t = r ↔ Grammar.CommandText t r := by
  constructor
  · rintro rfl
    by_cases ht : t = []
    · rw [Command.read?, if_pos ht]
      exact .none ht
    · have hw := takeWord_eq_iff.mp (Prod.eta (takeWord t)).symm
      rw [Command.read?, if_neg ht, Command.read]
      dsimp only
      cases hm : Mnemonic.ofText? (takeWord t).1 with
      | none => exact .unknown ht hw (Mnemonic.ofText?_eq_none.mp hm)
      | some m =>
        have hname := Mnemonic.ofText?_eq_some.mp hm
        dsimp only
        cases hops : readOperands m (dropBlanks (takeWord t).2) with
        | ok ops => exact .command ht hw hname (readOperands_eq_iff.mp hops)
        | error e => exact .fault ht hw hname (readOperands_eq_iff.mp hops)
  · intro h
    cases h with
    | none ht => exact if_pos ht
    | unknown ht hw hm =>
      rw [Command.read?, if_neg ht, Command.read, takeWord_eq_iff.mpr hw]
      dsimp only
      rw [Mnemonic.ofText?_eq_none.mpr hm]
      rfl
    | command ht hw hm h | fault ht hw hm h =>
      rw [Command.read?, if_neg ht, Command.read, takeWord_eq_iff.mpr hw]
      dsimp only
      rw [Mnemonic.ofText?_eq_some.mpr hm]
      dsimp only
      rw [readOperands_eq_iff.mpr h]
      rfl

/-! ## lines -/

/-- The label of a text and what remains behind it; all of the text if it has no label. -/
inductive Grammar.Front (t : Text) : Option Text → Text → Prop
  | none (ht : ':' ∉ t) : Front t none t
  | label {before after name rest : Text} (ht : t = before ++ ':' :: after) (hbefore : ':' ∉ before)
      (hname : Trimmed before name) (hn : Name name) (hrest : Trimmed after rest) :
      Front t (some (upper name)) rest

/-- A line: the statement that it is, or why it is none. -/
inductive Grammar.Line (line : Text) : Except StatementError Statement → Prop
  | statement {t rest : Text} {label : Option Text} {c : Option Command}
      (ht : Uncommented line t) (hf : Front t label rest) (h : CommandText rest (.ok c)) :
      Line line (.ok ⟨label, c, t⟩)
  | fault {t rest : Text} {label : Option Text} {e : StatementError}
      (ht : Uncommented line t) (hf : Front t label rest) (h : CommandText rest (.error e)) :
      Line line (.error e)
  | badLabel {before after name : Text} (ht : Uncommented line (before ++ ':' :: after))
      (hbefore : ':' ∉ before) (hname : Trimmed before name) (hn : ¬ Name name) :
      Line line (.error (.badLabel name))

/-- A text with a label is read by what remains behind the label. -/
theorem read_eq_of_front {line t rest : Text} {label : Option Text}
    (ht : Grammar.Uncommented line t) (hf : Grammar.Front t label rest) :
    Statement.read line = (Command.read? rest).map fun c => ⟨label, c, t⟩ := by
  rw [Statement.read, statementText_eq_iff.mpr ht]
  cases hf with
  | none hno => rw [splitFirst?_eq_none.mpr hno]
  | label heq hbefore hname hn hrest =>
    rw [splitFirst?_eq_some.mpr ⟨hbefore, heq⟩]
    dsimp only
    rw [trim_eq_iff.mpr hname, if_pos (isName_iff.mpr hn), trim_eq_iff.mpr hrest]

theorem read_eq_iff {line : Text} {r : Except StatementError Statement} :
    Statement.read line = r ↔ Grammar.Line line r := by
  constructor
  · rintro rfl
    have ht : Grammar.Uncommented line (statementText line) := statementText_eq_iff.mp rfl
    have command {label : Option Text} {rest : Text}
        (hf : Grammar.Front (statementText line) label rest) :
        Grammar.Line line (Statement.read line) := by
      rw [read_eq_of_front ht hf]
      cases hc : Command.read? rest with
      | ok c => exact .statement ht hf (read?_eq_iff.mp hc)
      | error e => exact .fault ht hf (read?_eq_iff.mp hc)
    cases hsplit : splitFirst? ':' (statementText line) with
    | none => exact command (.none (splitFirst?_eq_none.mp hsplit))
    | some parts =>
      obtain ⟨hbefore, htext⟩ := splitFirst?_eq_some.mp hsplit
      have hname := trim_eq_iff.mp (rfl : trim parts.1 = trim parts.1)
      by_cases hn : isName (trim parts.1)
      · exact command (.label htext hbefore hname (isName_iff.mp hn) (trim_eq_iff.mp rfl))
      · rw [htext] at ht
        have hread : Statement.read line = .error (.badLabel (trim parts.1)) := by
          rw [Statement.read, hsplit]
          exact if_neg hn
        rw [hread]
        exact .badLabel ht hbefore hname (mt isName_iff.mpr hn)
  · intro h
    cases h with
    | statement ht hf h | fault ht hf h =>
      rw [read_eq_of_front ht hf, read?_eq_iff.mpr h]
      rfl
    | badLabel ht hbefore hname hn =>
      rw [Statement.read, statementText_eq_iff.mpr ht, splitFirst?_append hbefore]
      dsimp only
      rw [trim_eq_iff.mpr hname, if_neg (mt isName_iff.mp hn)]

/-- A line that is a statement: behind its label there is nothing, or a mnemonic with a list of
operands. -/
inductive Grammar.Accepted (line : Text) : Prop
  | empty {t : Text} {label : Option Text} (ht : Uncommented line t) (hf : Front t label []) :
      Accepted line
  | command {t rest word field : Text} {label : Option Text} {m : Mnemonic}
      (ht : Uncommented line t) (hf : Front t label rest) (hrest : rest ≠ [])
      (hw : FirstWord rest word field) (hm : m.name.toList = upper word)
      (hlist : AllClassified m (dropBlanks field)) : Accepted line

theorem exists_read_iff {line : Text} :
    (∃ s, Statement.read line = .ok s) ↔ Grammar.Accepted line := by
  constructor
  · rintro ⟨s, hs⟩
    cases read_eq_iff.mp hs with
    | statement ht hf h =>
      cases h with
      | none hrest => exact .empty ht (hrest ▸ hf)
      | command hrest hw hm h =>
        exact .command ht hf hrest hw hm (exists_operandList_iff.mp ⟨_, h⟩)
  · rintro (⟨ht, hf⟩ | ⟨ht, hf, hrest, hw, hm, hlist⟩)
    · exact ⟨_, read_eq_iff.mpr (.statement ht hf (.none rfl))⟩
    · obtain ⟨ops, hops⟩ := exists_operandList_iff.mpr hlist
      exact ⟨_, read_eq_iff.mpr (.statement ht hf (.command hrest hw hm hops))⟩

/-- The reader of statements and the grammar of lines agree: every line has one reading, each piece
of an operand list has one, and a line is a statement if all pieces of its operand list classify. -/
theorem line_grammar (line : Text) :
    (∀ r, Statement.read line = r ↔ Grammar.Line line r) ∧
    (∃! r, Grammar.Line line r) ∧
    (∀ branch piece, ∃! r, Grammar.Classified branch piece r) ∧
    ((∃ s, Statement.read line = .ok s) ↔ Grammar.Accepted line) := by
  refine ⟨fun r => read_eq_iff, ?_, existsUnique_classified, exists_read_iff⟩
  exact ⟨_, read_eq_iff.mp rfl, fun r h => (read_eq_iff.mpr h).symm⟩

/-- One text read in three ways: behind a colon, as data and as the target of a branch; and three
lines that are no statements. -/
theorem line_grammar_of_overlapping :
    Grammar.Line "Add: MOV ax , Add ; 7".toList
      (.ok ⟨some "ADD".toList, some ⟨.mov, [.reg (.word .ax), .imm 0xadd]⟩,
        "Add: MOV ax , Add".toList⟩) ∧
    Grammar.Line "jb add".toList
      (.ok ⟨none, some ⟨.branch .jb, [.label "ADD".toList]⟩, "jb add".toList⟩) ∧
    Grammar.Line "jmp -1".toList (.error (.operand (.notTarget "-1".toList))) ∧
    Grammar.Line "mov ax,,bx".toList (.error (.malformedOperands "ax,,bx".toList)) ∧
    Grammar.Line "1abc: frob".toList (.error (.badLabel "1abc".toList)) :=
  ⟨((line_grammar _).1 _).mp rfl, ((line_grammar _).1 _).mp rfl, ((line_grammar _).1 _).mp rfl,
    ((line_grammar _).1 _).mp rfl, ((line_grammar _).1 _).mp rfl⟩

end Mini8086
