import Mathlib.Data.List.TakeWhile
import Mini8086.Proofs.CanonicalSource
import Mini8086.Proofs.Lockstep
import Mini8086.Proofs.Respelled

/-!
# Branches to names and to numbers

A branch to a label may as well have the address of the label as its operand, and a name of digits
that is no label may as well have a zero in front: `SameTarget`.  A source in which some operands
are changed in this way (`Retargeted`) is assembled to the same program but for these operands and
the texts of lines.  The name stays in the instruction until all lines are laid out and is resolved
then, the number is read with its line, so the two are compared stage by stage:

* `Replaces.read_eq`        the two lines are read alike, each with its operands;
* `layoutLines_retargeted`  the lines are laid out in the same places, names before numbers
                            (`Instruction.Numbered`);
* `Instruction.Numbered.resolve`   names become the numbers that are there already
                            (`Instruction.Retargeted`);
* `exists_retargeted`       the second source has a program, since its branches are as far;
* `Program.Retargeted.alike`   the programs run alike from every state of the machine.

`exists_replaces` says that the operands of every line can be replaced, so there are such sources.
-/

namespace Mini8086

/-! ## operands replaced in a line -/

/-- The lines differ in the operands of their command, whose mnemonic is `m`: what is `u` in the one
is `t` in the other, but for blanks. -/
inductive Replaces (m : Mnemonic) (u t : Text) : Text → Text → Prop
  | intro {front word field field' rest : Text} (lead : Leads front (word ++ field))
      (mnemonic : Mnemonic.ofText? word = some m) (solid : ∀ c ∈ word, isBlank c = false)
      (blank : field.head?.any isBlank = true) (blank' : field'.head?.any isBlank = true)
      (operands : dropBlanks field = u) (operands' : dropBlanks field' = t)
      (code : ';' ∉ front ++ (word ++ field)) (comment : uncommented rest = []) :
      Replaces m u t (front ++ (word ++ (field ++ rest))) (front ++ (word ++ (field' ++ rest)))

section
variable {m : Mnemonic} {u t line line' : Text}

theorem uncommented_eq_self {x : Text} (h : ';' ∉ x) : uncommented x = x := by
  have hx := uncommented_append x []
  rw [if_neg h, List.append_nil] at hx
  exact hx.trans (List.append_nil x)

/-- A line says what its text in front of a comment says. -/
theorem gist_append {front word field rest : Text} (hcode : ';' ∉ front ++ (word ++ field))
    (hrest : uncommented rest = []) :
    gist (front ++ (word ++ (field ++ rest))) = gistOf (front ++ (word ++ field)) := by
  unfold gist
  rw [← List.append_assoc word, ← List.append_assoc front, uncommented_append, if_neg hcode, hrest,
    List.append_nil]

theorem words_of_field {word field : Text} (hm : Mnemonic.ofText? word = some m)
    (hw : ∀ c ∈ word, isBlank c = false) (hf : field.head?.any isBlank = true) :
    words (word ++ field) = (upper word, upper (dropBlanks field)) := by
  have hne : word ≠ [] := by
    rintro rfl
    cases hm
  refine words_eq hne hw fun c hc => ?_
  rw [hc] at hf
  exact hf

/-- The label and the mnemonic stay. -/
theorem Replaces.gist (h : Replaces m u t line line') (ht : ∀ c ∈ t, c ∉ separators) :
    ∃ label word, Mnemonic.ofText? word = some m ∧ gist line = (label, word, upper u) ∧
      gist line' = (label, word, upper t) := by
  cases h with
  | @intro front word field field' rest lead mnemonic solid blank blank' operands operands' code
      comment =>
    have hsep {c : Char} (hc : c ∈ separators) (hb : isBlank c = false) : c ∉ field' := by
      intro hm
      refine ht c (operands' ▸ List.mem_filter.mpr ⟨hm, ?_⟩) hc
      rw [hb]
      rfl
    have hsemicolon : ';' ∉ field' := hsep (by decide) (by decide)
    have hcolon : ':' ∉ field' := hsep (by decide) (by decide)
    obtain ⟨hfront, hword, hfield⟩ : ';' ∉ front ∧ ';' ∉ word ∧ ';' ∉ field := by
      rwa [List.mem_append, List.mem_append, not_or, not_or] at code
    have hcommand : ';' ∉ word ++ field := by
      rw [List.mem_append, not_or]
      exact ⟨hword, hfield⟩
    have hcode' : ';' ∉ front ++ (word ++ field') := by
      rw [List.mem_append, List.mem_append, not_or, not_or]
      exact ⟨hfront, hword, hsemicolon⟩
    obtain ⟨label, hlabel⟩ := lead.exists_label
    rw [uncommented_eq_self hcommand] at hlabel
    have hkeep : ':' ∈ word ++ field' → ':' ∈ word ++ field := fun hm =>
      List.mem_append_left _ ((List.mem_append.mp hm).resolve_right hcolon)
    refine ⟨label, upper word, (ofText?_upper word).trans mnemonic, ?_, ?_⟩
    · rw [gist_append code comment, hlabel _ id, words_of_field mnemonic solid blank, operands]
    · rw [gist_append hcode' comment, hlabel _ hkeep, words_of_field mnemonic solid blank',
        operands']

/-- the words of a line with a command are its mnemonic and its operands -/
theorem commandOf?_eq_ok {w : Text × Text} {c : Command} :
    commandOf? w = .ok (some c) ↔
      Mnemonic.ofText? w.1 = some c.mnemonic ∧ readOperands c.mnemonic w.2 = .ok c.operands := by
  unfold commandOf? commandOf
  by_cases hw : w.1 = []
  · have hnone : Mnemonic.ofText? [] = none := by decide
    rw [if_pos hw, hw, hnone]
    exact ⟨(nomatch ·), fun h => nomatch h.1⟩
  · rw [if_neg hw]
    cases hm : Mnemonic.ofText? w.1 with
    | none => exact ⟨(nomatch ·), fun h => nomatch h.1⟩
    | some m =>
      dsimp only
      rw [map_eq_ok, Option.some.injEq]
      constructor
      · rintro ⟨d, hd, hc⟩
        cases hc
        obtain ⟨ops, hops, rfl⟩ := map_eq_ok.mp hd
        exact ⟨rfl, hops⟩
      · rintro ⟨rfl, hops⟩
        rw [hops]
        exact ⟨c, rfl, rfl⟩

theorem commandOf?_of_readingOf {label l : Option Text} {w : Text × Text} {c : Option Command}
    (h : readingOf (label, w) = .ok (l, c)) : commandOf? w = .ok c := by
  cases label with
  | none =>
    obtain ⟨d, hd, heq⟩ := map_eq_ok.mp h
    exact hd.trans (congrArg Except.ok (congrArg Prod.snd heq))
  | some name =>
    rw [readingOf] at h
    split at h
    · obtain ⟨d, hd, heq⟩ := map_eq_ok.mp h
      exact hd.trans (congrArg Except.ok (congrArg Prod.snd heq))
    · cases h

/-- Another command can stand behind the same label. -/
theorem readingOf_replaced {label l : Option Text} {w w' : Text × Text} {c d : Option Command}
    (h : readingOf (label, w) = .ok (l, c)) (hw : commandOf? w' = .ok d) :
    readingOf (label, w') = .ok (l, d) := by
  cases label with
  | none =>
    obtain ⟨_, -, heq⟩ := map_eq_ok.mp h
    cases heq
    rw [readingOf, hw]
    rfl
  | some name =>
    rw [readingOf] at h ⊢
    split at h
    · next hn =>
      obtain ⟨_, -, heq⟩ := map_eq_ok.mp h
      cases heq
      rw [if_pos hn, hw]
      rfl
    · cases h

theorem readingOf_gist {s : Statement} (h : Statement.read line = .ok s) :
    readingOf (gist line) = .ok (s.label, s.command) := by
  have hr : Statement.reading line = .ok (s.label, s.command) := mapBoth_eq_ok.mpr ⟨s, h, rfl⟩
  rwa [Statement.reading_eq, mapError_eq_ok] at hr

/-- Both lines are read with the same label, each with its operands. -/
theorem Replaces.read_eq (h : Replaces m u t line line') (ht : ∀ c ∈ t, c ∉ separators)
    {ops ops' : List Operand} (hu : readOperands m (upper u) = .ok ops)
    (hu' : readOperands m (upper t) = .ok ops') {s : Statement} (hs : Statement.read line = .ok s) :
    s.command = some ⟨m, ops⟩ ∧
      ∃ s', Statement.read line' = .ok s' ∧ s'.label = s.label ∧ s'.command = some ⟨m, ops'⟩ := by
  obtain ⟨label, word, hm, hg, hg'⟩ := h.gist ht
  have hr := readingOf_gist hs
  rw [hg] at hr
  have hc : commandOf? (word, upper u) = .ok (some ⟨m, ops⟩) := commandOf?_eq_ok.mpr ⟨hm, hu⟩
  have hc' : commandOf? (word, upper t) = .ok (some ⟨m, ops'⟩) := commandOf?_eq_ok.mpr ⟨hm, hu'⟩
  have hread : Statement.reading line' = .ok (s.label, some ⟨m, ops'⟩) := by
    rw [Statement.reading_eq, mapError_eq_ok, hg', readingOf_replaced hr hc']
  obtain ⟨s', hs', heq⟩ := mapBoth_eq_ok.mp hread
  refine ⟨?_, s', hs', congrArg Prod.fst heq, congrArg Prod.snd heq⟩
  exact Except.ok.inj ((commandOf?_of_readingOf hr).symm.trans hc)

/-- the command of a text without a comment, and what stands in front of it -/
theorem exists_lead (body : Text) : ∃ before command, body = before ++ command ∧
    (gistOf body).2 = words command ∧ ∀ b rest, command = b ++ rest →
      (∀ c ∈ b, isBlank c = true) → Leads (before ++ b) rest := by
  by_cases h : ':' ∈ body
  · obtain ⟨u, v, rfl, hu⟩ := List.eq_append_cons_of_mem h
    refine ⟨u ++ [':'], v, List.append_cons u ':' v, ?_, fun b rest _ hb => ?_⟩
    · rw [gistOf_append hu]
    · rw [List.append_assoc]
      exact .label hu hb
  · refine ⟨[], body, rfl, ?_, fun b rest hrest hb => .blank hb fun hm => h ?_⟩
    · rw [gistOf_of_not_mem h]
    · rw [hrest]
      exact List.mem_append_right _ ((List.takeWhile_sublist _).subset hm)

/-- Every line is what stands in front of its command, the mnemonic, the operands with a blank in
front of them, and the comment. -/
theorem exists_parts (line : Text) : ∃ front word field rest,
    line = front ++ (word ++ (field ++ rest)) ∧ Leads front (word ++ field) ∧
      (gist line).2 = (upper word, upper (dropBlanks field)) ∧ (∀ c ∈ word, isBlank c = false) ∧
      (field ≠ [] → field.head?.any isBlank = true) ∧ ';' ∉ front ++ (word ++ field) ∧
      uncommented rest = [] := by
  have hline := uncommented_append_comment line
  have hcomment : uncommented (line.dropWhile (· ≠ ';')) = [] :=
    uncommented_eq_nil fun _ => head?_comment
  obtain ⟨before, command, hbody, hwords, hlead⟩ := exists_lead (uncommented line)
  have hcommand : command = command.takeWhile isBlank ++ trimStart command :=
    List.takeWhile_append_dropWhile.symm
  have hsplit := takeWord_append (trimStart command)
  have hbody' : uncommented line = before ++ command.takeWhile isBlank ++
      ((takeWord (trimStart command)).1 ++ (takeWord (trimStart command)).2) := by
    rw [hsplit, List.append_assoc, ← hcommand, hbody]
  refine ⟨before ++ command.takeWhile isBlank, (takeWord (trimStart command)).1,
    (takeWord (trimStart command)).2, line.dropWhile (· ≠ ';'), ?_, ?_, hwords, ?_, ?_, ?_,
    hcomment⟩
  · rw [← List.append_assoc (takeWord _).1, ← List.append_assoc, ← hbody', hline]
  · rw [hsplit]
    exact hlead _ _ hcommand fun c hc => List.mem_takeWhile_imp hc
  · exact fun c hc => not_blank_of_mem_takeWord hc
  · exact head?_takeWord
  · rw [← hbody']
    exact semicolon_not_mem_uncommented line

/-- The operands of every command that has some can be replaced. -/
theorem exists_replaces {s : Statement} (hs : Statement.read line = .ok s) {c : Command}
    (hc : s.command = some c) (hne : c.operands ≠ []) :
    ∃ u, readOperands c.mnemonic (upper u) = .ok c.operands ∧
      ∀ t, (∀ d ∈ t, isBlank d = false) → ∃ line', Replaces c.mnemonic u t line line' ∧
        ∀ d ∈ line', d ∈ line ∨ d = ' ' ∨ d ∈ t := by
  obtain ⟨front, word, field, rest, hline, hlead, hwords, hword, hfield, hcode, hrest⟩ :=
    exists_parts line
  have hr := readingOf_gist hs
  have hcommand : commandOf? (gist line).2 = .ok (some c) := hc ▸ commandOf?_of_readingOf hr
  rw [hwords] at hcommand
  obtain ⟨hm, hops⟩ := commandOf?_eq_ok.mp hcommand
  have hblank : field.head?.any isBlank = true := by
    apply hfield
    rintro rfl
    exact hne (Except.ok.inj hops).symm
  rw [hline]
  refine ⟨dropBlanks field, hops, fun t ht => ⟨front ++ (word ++ (' ' :: t ++ rest)), ?_, ?_⟩⟩
  · have hkeep : dropBlanks (' ' :: t) = t := by
      rw [dropBlanks_cons_of_blank rfl]
      exact List.filter_eq_self.mpr fun d hd => by rw [ht d hd]; rfl
    exact .intro hlead ((ofText?_upper word).symm.trans hm) hword hblank rfl rfl hkeep hcode hrest
  · intro d hd
    simp only [List.mem_append, List.mem_cons] at hd ⊢
    tauto

end

/-! ## numbers in place of names -/

/-- The text is a zero, or `0x`, and behind it the digits of the number. -/
inductive NumberText (a : Nat) : Text → Prop
  | zero {ds : Text} (h : hexValue? ds = some a) : NumberText a ('0' :: ds)
  | base {c : Char} {ds : Text} (hc : c.toUpper = 'X') (h : hexValue? ds = some a) :
      NumberText a ('0' :: c :: ds)

/-- The text `t` is `u`, a name of digits and not of a label, with a zero in front of it. -/
structure ZeroPrefixed (labels : List Label) (u t : Text) : Prop where
  name : isName u = true
  undefined : findLabel? labels (upper u) = none
  digits : (readHex? u).isSome
  prefixed : t = '0' :: u

/-- The text `t` is a number that a branch takes where it takes the name `u`: that of the label, or
else the name itself with a zero in front of it. -/
inductive SameTarget (labels : List Label) (u t : Text) : Prop
  | label {d : Label} (hd : findLabel? labels (upper u) = some d) (ha : d.address < 2 ^ 20)
      (ht : NumberText d.address t) : SameTarget labels u t
  | number (h : ZeroPrefixed labels u t) : SameTarget labels u t

section
variable {a v : Nat} {t u : Text}

theorem readHex?_upper (t : Text) : readHex? (upper t) = readHex? t := by
  rw [readHex?, Numeral.read?_upper, readHex?]

theorem readHex?_of_hexValue? (hhead : t.head? ≠ some '-')
    (h : hexValue? (dropBasePrefix t) = some a) (ha : a < 2 ^ 32) : readHex? t = some a := by
  have hread : Numeral.read? t = some ⟨false, a⟩ := by
    rw [Numeral.read?_of_head?_ne hhead, h]
    rfl
  rw [readHex?_of_read? hread]
  exact if_neg (Nat.not_le.mpr ha)

theorem NumberText.readHex?_eq (h : NumberText a t) (ha : a < 2 ^ 32) : readHex? t = some a := by
  have hhead {r : Text} : ('0' :: r).head? ≠ some '-' := by
    rintro ⟨⟩
  cases h with
  | @zero ds h =>
    have hkeep : dropBasePrefix ('0' :: ds) = '0' :: ds :=
      dropBasePrefix_of_isHexDigit
        (List.forall_mem_cons.mpr ⟨by decide, isHexDigit_of_hexValue? h⟩)
    have hzero : hexValue? ('0' :: ds) = some a := by
      unfold hexValue? at h
      split at h
      · cases h
      · exact h
    exact readHex?_of_hexValue? hhead (hkeep.symm ▸ hzero) ha
  | base hc h =>
    exact readHex?_of_hexValue? hhead ((dropBasePrefix_of_toUpper_eq hc _).symm ▸ h) ha

theorem NumberText.isNameChar_of_mem (h : NumberText a t) : ∀ c ∈ t, isNameChar c = true := by
  have hdigits {ds : Text} (h : hexValue? ds = some a) : ∀ c ∈ ds, isNameChar c = true :=
    fun c hc => isNameChar_of_isHexDigit (isHexDigit_of_hexValue? h c hc)
  cases h with
  | zero h => exact List.forall_mem_cons.mpr ⟨by decide, hdigits h⟩
  | base hc h =>
    refine List.forall_mem_cons.mpr ⟨by decide, List.forall_mem_cons.mpr ⟨?_, hdigits h⟩⟩
    rw [← isNameChar_toUpper, hc]
    decide

/-- A branch takes the number, since no name starts with a digit. -/
theorem NumberText.readTarget_eq (h : NumberText a t) (ha : a < 2 ^ 32) :
    Operand.readTarget (upper t) = .ok (.addr (a % 0x100000)) := by
  obtain ⟨r, hr⟩ : ∃ r, upper t = '0' :: r := by
    cases h with
    | zero h => exact ⟨_, rfl⟩
    | base hc h => exact ⟨_, rfl⟩
  have hvalue : readHex? (upper t) = some a := (readHex?_upper t).trans (h.readHex?_eq ha)
  rw [Operand.readTarget, upper_upper, readUpperTarget, hvalue, hr]
  rfl

theorem hexValue?_of_name (hn : isName u = true) (h : readHex? u = some v) :
    hexValue? u = some v ∧ v < 2 ^ 32 := by
  cases u with
  | nil => cases hn
  | cons c r =>
    have hc : isNameStart c = true := (Bool.and_eq_true_iff.mp hn).1
    have hhead : (c :: r).head? ≠ some '-' := by
      rintro ⟨⟩
      cases hc
    have hkeep : dropBasePrefix (c :: r) = c :: r := by
      refine dropBasePrefix_eq_self fun d s hs => ?_
      cases hs
      cases hc
    rw [readHex?, Numeral.read?_of_head?_ne hhead, hkeep] at h
    obtain ⟨n, hn, hv⟩ := Option.bind_eq_some_iff.mp h
    obtain ⟨w, hw, rfl⟩ := Option.map_eq_some_iff.mp hn
    unfold Numeral.value? at hv
    split at hv
    · cases hv
    · next hlt =>
      cases hv
      exact ⟨hw, Nat.not_le.mp hlt⟩

/-- The name is the operand of a branch, and so is the number, which is the target of the name. -/
theorem SameTarget.readTarget_eq {labels : List Label} (hnames : ∀ d ∈ labels, isName d.name = true)
    (h : SameTarget labels u t) : isName u = true ∧ (∀ c ∈ t, isNameChar c = true) ∧
      ∃ a, targetOf? labels (upper u) = some a ∧ Operand.readTarget (upper t) = .ok (.addr a) := by
  cases h with
  | @label d hd ha ht =>
    obtain ⟨hmem, hname⟩ := name_of_findLabel? hd
    have hn : isName u = true := by
      rw [← isName_upper, ← hname]
      exact hnames _ hmem
    refine ⟨hn, ht.isNameChar_of_mem, d.address, ?_, ?_⟩
    · rw [targetOf?, hd]
    · have hmod : d.address % 0x100000 = d.address := Nat.mod_eq_of_lt ha
      rw [ht.readTarget_eq (Nat.lt_trans ha (by decide)), hmod]
  | number h =>
    obtain ⟨hn, hnone, hdigits, rfl⟩ := h
    obtain ⟨v, hv⟩ := Option.isSome_iff_exists.mp hdigits
    obtain ⟨hvalue, hlt⟩ := hexValue?_of_name hn hv
    have ht : NumberText v ('0' :: u) := .zero hvalue
    refine ⟨hn, ht.isNameChar_of_mem, v % 0x100000, ?_, ht.readTarget_eq hlt⟩
    rw [targetOf?, hnone, readHex?_upper, hv]
    rfl

theorem readOperands_target {b : Branch} {o : Operand} (hne : t ≠ [])
    (ht : ∀ c ∈ t, isNameChar c = true) (h : Operand.readTarget (upper t) = .ok o) :
    readOperands (.branch b) (upper t) = .ok [o] := by
  have hne' : upper t ≠ [] := fun hnil => hne (List.map_eq_nil_iff.mp hnil)
  have hcomma : ',' ∉ upper t := by
    intro hm
    obtain ⟨c, hc, hup⟩ := List.mem_map.mp hm
    have hn := ht c hc
    rw [← isNameChar_toUpper, hup] at hn
    cases hn
  rw [readOperands, if_neg hne', pieces_of_not_mem hcomma, mapM_eq_ok]
  refine .cons ?_ .nil
  rw [readOperand, if_neg hne']
  show (Operand.readTarget (upper t)).mapError _ = _
  rw [h]
  rfl

end

/-! ## lines laid out -/

/-- The lines are the same, or the operand of a branch is replaced as `S` allows. -/
def Retargeted (S : Text → Text → Prop) (line line' : Text) : Prop :=
  line' = line ∨ ∃ b u t, S u t ∧ Replaces (.branch b) u t line line'

/-- Instructions before their names are resolved.  They are the same, or the second has the target
of the name `u` in its place, which is replaced as `S` allows. -/
inductive Instruction.Numbered (S : Text → Text → Prop) (labels : List Label) (i : Instruction) :
    Instruction → Prop
  | same : Numbered S labels i i
  | number {b : Branch} {u t line : Text} {a : Address} (replaced : S u t)
      (mnemonic : i.mnemonic = .branch b) (operands : i.operands = [.label (upper u)])
      (imm : i.imm = some (.name (upper u))) (target : targetOf? labels (upper u) = some a) :
      Numbered S labels i { i with operands := [.addr a], imm := some (.value a), line := line }

section
variable {S : Text → Text → Prop} {labels : List Label}
  (hnames : ∀ d ∈ labels, isName d.name = true)
  (hS : ∀ u t, S u t → SameTarget labels u t) {a : Address} {n : Nat} {seen : List Label}

theorem Instruction.Numbered.length_eq {i j : Instruction} (h : i.Numbered S labels j) :
    j.length = i.length := by
  cases h with
  | same | number => rfl

theorem codeLength_numbered {is js : List Instruction}
    (h : List.Forall₂ (Instruction.Numbered S labels) is js) : codeLength js = codeLength is := by
  induction h with
  | nil => rfl
  | cons hij _ ih => simp [hij.length_eq, ih]

include hnames hS

/-- A line with another target has the same labels, and an instruction in the same place. -/
theorem layoutLine_retargeted {line line' : Text} (h : Retargeted S line line') {head : Layout}
    (hh : layoutLine a n seen line = .ok head) : ∃ head', layoutLine a n seen line' = .ok head' ∧
      head'.labels = head.labels ∧
      List.Forall₂ (Instruction.Numbered S labels) head.instructions head'.instructions := by
  obtain rfl | ⟨b, u, t, hut, h⟩ := h
  · exact ⟨head, hh, rfl, List.forall₂_same.mpr fun i _ => .same⟩
  obtain ⟨hn, ht, v, hv, hread⟩ := (hS u t hut).readTarget_eq hnames
  have hsep : ∀ c ∈ t, c ∉ separators := fun c hc =>
    (not_blank_of_isPlain (isPlain_of_isNameChar (ht c hc))).2
  have hname : readOperands (.branch b) (upper u) = .ok [.label (upper u)] := by
    refine readOperands_target (by rintro rfl; cases hn) (isNameChar_of_mem_name hn) ?_
    rw [Operand.readTarget, upper_upper, readUpperTarget, isName_upper, if_pos hn]
  have hnumber : readOperands (.branch b) (upper t) = .ok [.addr v] := by
    refine readOperands_target ?_ ht hread
    rintro rfl
    cases hread
  obtain ⟨s, hs, hlabels, hinstructions⟩ := layoutLine_eq_ok.mp hh
  obtain ⟨hc, s', hs', hlabel', hc'⟩ := h.read_eq hsep hname hnumber hs
  have hbefore : head.instructions = [{
      opcode := [b.opcode], length := 2, imm := some (.name (upper u)), address := a,
      mnemonic := .branch b, operands := [.label (upper u)], line := s.text,
      lineNumber := n }] := by
    rw [hc] at hinstructions
    exact (Except.ok.inj hinstructions).symm
  refine ⟨⟨head.labels, [{
      opcode := [b.opcode], length := 2, imm := some (.value v), address := a,
      mnemonic := .branch b, operands := [.addr v], line := s'.text, lineNumber := n }]⟩,
    layoutLine_eq_ok.mpr ⟨s', hs', ?_, ?_⟩, rfl, ?_⟩
  · rw [hlabel']
    exact hlabels
  · rw [hc']
    rfl
  · rw [hbefore]
    exact .cons (.number hut rfl rfl rfl hv) .nil

theorem layoutLines_retargeted {lines lines' : List Text}
    (h : List.Forall₂ (Retargeted S) lines lines') {l : Layout}
    (hl : layoutLines a n seen lines = .ok l) : ∃ l', layoutLines a n seen lines' = .ok l' ∧
      l'.labels = l.labels ∧
      List.Forall₂ (Instruction.Numbered S labels) l.instructions l'.instructions := by
  induction h generalizing a n seen l with
  | nil => exact ⟨l, hl, rfl, List.forall₂_same.mpr fun i _ => .same⟩
  | @cons line line' lines lines' hline _ ih =>
    obtain ⟨head, tail, hh, ht, rfl⟩ := layoutLines_cons_eq_ok.mp hl
    obtain ⟨head', hh', hlabels, his⟩ := layoutLine_retargeted hnames hS hline hh
    obtain ⟨tail', ht', htlabels, hjs⟩ := ih ht
    have hsize : head'.size = head.size := codeLength_numbered his
    refine ⟨head'.append tail', layoutLines_cons_eq_ok.mpr ⟨head', tail', hh', ?_, rfl⟩, ?_,
      List.rel_append his hjs⟩
    · rw [hsize, hlabels]
      exact ht'
    · simp [hlabels, htlabels]

end

/-! ## names resolved -/

/-- The instructions are the same, or the second is a branch that has the number of its target where
the first has a name; then the lines may differ too. -/
inductive Instruction.Retargeted (i : Instruction) : Instruction → Prop
  | same : Retargeted i i
  | number {b : Branch} {name line : Text} {a : Address} (mnemonic : i.mnemonic = .branch b)
      (operands : i.operands = [.label name]) (target : i.imm = some (.value a)) :
      Retargeted i { i with operands := [.addr a], line := line }

section
variable {S : Text → Text → Prop} {labels : List Label} {i j : Instruction}

/-- Resolving names takes the numbers as they are. -/
theorem Instruction.Numbered.resolve (h : i.Numbered S labels j) {i' : Instruction}
    (hi : i.resolve labels = .ok i') :
    ∃ j', j.resolve labels = .ok j' ∧ Instruction.Retargeted i' j' := by
  cases h with
  | same => exact ⟨i', hi, .same⟩
  | @number b u t line a replaced mnemonic operands imm target =>
    have hbranch : i.mnemonic.isBranch = true := by
      rw [mnemonic]
      rfl
    unfold Instruction.resolve at hi
    rw [imm] at hi
    dsimp only at hi
    rw [if_pos hbranch, target] at hi
    cases hi
    exact ⟨_, rfl, .number mnemonic operands rfl⟩

/-- Replacing other names does not change which instructions are branches to a name. -/
theorem any_names_numbered {name : Text} (hname : ∀ u t, S u t → upper u ≠ name)
    {is js : List Instruction} (h : List.Forall₂ (Instruction.Numbered S labels) is js) :
    (js.any fun i => i.names name) = is.any fun i => i.names name := by
  induction h with
  | nil => rfl
  | @cons i j is js hij _ ih =>
    rw [List.any_cons, List.any_cons, ih]
    cases hij with
    | same => rfl
    | @number b u t line a replaced mnemonic operands imm target =>
      have hne : i.imm ≠ some (.name name) := by
        rw [imm]
        rintro ⟨⟩
        exact hname u t replaced rfl
      have hne' : some (Immediate.value a) ≠ some (.name name) := nofun
      unfold Instruction.names
      dsimp only
      rw [beq_false_of_ne hne, beq_false_of_ne hne']

theorem forall₂_resolve_numbered {is is' js : List Instruction}
    (h : List.Forall₂ (Instruction.Numbered S labels) is js)
    (hi : List.Forall₂ (fun i i' => i.resolve labels = .ok i') is is') :
    ∃ js', List.Forall₂ (fun j j' => j.resolve labels = .ok j') js js' ∧
      List.Forall₂ Instruction.Retargeted is' js' := by
  induction h generalizing is' with
  | nil =>
    cases hi
    exact ⟨[], .nil, .nil⟩
  | cons hij _ ih =>
    cases hi with
    | cons hhead htail =>
      obtain ⟨j', hj, hr⟩ := hij.resolve hhead
      obtain ⟨js', hjs, hrs⟩ := ih htail
      exact ⟨j' :: js', .cons hj hjs, .cons hr hrs⟩

namespace Instruction.Retargeted
variable (h : Instruction.Retargeted i j)
include h

theorem displacement?_eq : j.displacement? = i.displacement? := by
  cases h with
  | same | number => rfl

theorem listed_bare : j.listed.bare = i.listed.bare := by
  cases h with
  | same | number => rfl

theorem plain_eq : i.plain = j.plain := by
  cases h with
  | same => rfl
  | number mnemonic operands target =>
    have hbranch : i.mnemonic.isBranch = true := by
      rw [mnemonic]
      rfl
    unfold Instruction.plain
    dsimp only
    rw [if_pos hbranch, if_pos hbranch]
    rfl

theorem twin : i.Twin j := by
  refine ⟨?_, ?_, operation?_of_plain_eq h.plain_eq⟩
  · exact (congrArg Entry.address h.listed_bare).symm
  · cases h with
    | same | number => rfl

end Instruction.Retargeted

end

/-! ## programs -/

/-- The programs are the same but for names and numbers as targets of branches, and for the texts of
lines. -/
structure Program.Retargeted (p q : Program) : Prop where
  origin : q.origin = p.origin
  labels : q.labels = p.labels
  instructions : List.Forall₂ Instruction.Retargeted p.instructions q.instructions
  listing : q.listing.map Entry.bare = p.listing.map Entry.bare

section
variable {S : Text → Text → Prop} {source source' : Text} {origin : Address} {p : Program}
  (hp : assemble source origin = .ok p)
include hp

/-- Both sources are laid out with the same labels, and their names are resolved. -/
theorem layouts_of_retargeted (hS : ∀ u t, S u t → SameTarget p.labels u t)
    (h : List.Forall₂ (Retargeted S) (sourceLines source) (sourceLines source')) :
    ∃ draft l draft' l', layout source origin = .ok draft ∧ draft.resolve = .ok l ∧
      (∀ i ∈ l.instructions, i.InReach) ∧ p = l.program origin ∧
      layout source' origin = .ok draft' ∧ draft'.resolve = .ok l' ∧
      draft'.labels = draft.labels ∧ l'.labels = l.labels ∧
      List.Forall₂ (Instruction.Numbered S p.labels) draft.instructions draft'.instructions ∧
      List.Forall₂ Instruction.Retargeted l.instructions l'.instructions := by
  have hnames : ∀ d ∈ p.labels, isName d.name = true := fun d hd =>
    (isName_of_assemble hp d hd).1
  obtain ⟨draft, l, hd, hl, hreach, rfl⟩ := assemble_eq_ok_iff_inReach.mp hp
  obtain ⟨hlabels, hresolve⟩ := Layout.resolve_eq_ok.mp hl
  obtain ⟨draft', hd', hlabels', hnumbered⟩ := layoutLines_retargeted hnames hS h hd
  rw [← hlabels] at hresolve
  obtain ⟨js, hjs, hretargeted⟩ := forall₂_resolve_numbered hnumbered hresolve
  have hl' : draft'.resolve = .ok ⟨l.labels, js⟩ :=
    Layout.resolve_eq_ok.mpr ⟨hlabels.trans hlabels'.symm, by rwa [hlabels', ← hlabels]⟩
  exact ⟨draft, l, draft', ⟨l.labels, js⟩, hd, hl, hreach, rfl, hd', hl', hlabels', rfl, hnumbered,
    hretargeted⟩

/-- A source with other operands that are the same targets is assembled to the same program but for
these operands. -/
theorem exists_retargeted
    (h : List.Forall₂ (Retargeted (SameTarget p.labels)) (sourceLines source)
      (sourceLines source')) :
    ∃ q, assemble source' origin = .ok q ∧ p.Retargeted q := by
  obtain ⟨draft, l, draft', l', -, -, hreach, rfl, hd', hl', -, hlabels, -, hretargeted⟩ :=
    layouts_of_retargeted hp (fun _ _ => id) h
  have hreach' : ∀ j ∈ l'.instructions, j.InReach := by
    intro j hj
    obtain ⟨k, hk, rfl⟩ := List.mem_iff_getElem.mp hj
    have hk' : k < l.instructions.length := hretargeted.length_eq ▸ hk
    have hdisplacement := (hretargeted.get hk' hk).displacement?_eq
    intro d hd
    exact hreach _ (List.getElem_mem hk') d (hdisplacement.symm.trans hd)
  refine ⟨l'.program origin, assemble_eq_ok_iff_inReach.mpr ⟨draft', l', hd', hl', hreach', rfl⟩,
    rfl, hlabels, hretargeted, ?_⟩
  show (l'.instructions.map Instruction.listed).map Entry.bare =
    (l.instructions.map Instruction.listed).map Entry.bare
  rw [List.map_map, List.map_map, ← List.forall₂_eq_eq_eq, List.forall₂_map_left_iff,
    List.forall₂_map_right_iff]
  exact hretargeted.flip.imp fun j i hij => hij.listed_bare

/-- Zeros in front of names that are no labels leave the labels as used as they are. -/
theorem unusedLabels_of_zeroPrefixed
    (h : List.Forall₂ (Retargeted (ZeroPrefixed p.labels)) (sourceLines source)
      (sourceLines source')) :
    unusedLabels source' origin = unusedLabels source origin := by
  obtain ⟨draft, l, draft', l', hd, hl, -, rfl, hd', hl', hlabels, -, hnumbered, -⟩ :=
    layouts_of_retargeted hp (fun _ _ => .number) h
  have hsame : l.labels = draft.labels := (Layout.resolve_eq_ok.mp hl).1
  have hunused : draft'.unused = draft.unused := by
    unfold Layout.unused
    rw [hlabels]
    refine List.filter_congr fun d hmem => congrArg (!·) (any_names_numbered (fun u t hut => ?_)
      hnumbered)
    rw [← hsame] at hmem
    intro hname
    exact findLabel?_eq_none.mp hut.undefined (hname ▸ List.mem_map_of_mem hmem)
  unfold unusedLabels
  rw [hd, hd']
  dsimp only
  rw [hl, hl']
  exact hunused

end

/-! ## runs -/

theorem loadListing_bare (listing : List Entry) (memory : Memory) :
    Machine.loadListing memory (listing.map Entry.bare) = Machine.loadListing memory listing :=
  List.foldl_map

/-- The programs are loaded in the same way. -/
theorem Program.Retargeted.load {p q : Program} (h : p.Retargeted q) (m : Machine) :
    m.load q = { m.load p with program := q.instructions } := by
  unfold Machine.load
  rw [← loadListing_bare, h.listing, loadListing_bare, h.origin]
  rfl

/-- From every state of the machine the programs do the same. -/
theorem Program.Retargeted.alike {p q : Program} (h : p.Retargeted q) (m : Machine) :
    Machine.Alike noCell 0 0 { m with program := p.instructions }
      { m with program := q.instructions } where
  state := ⟨rfl, fun _ _ => rfl⟩
  program := h.instructions.imp fun _ _ hij => hij.twin
  pc := rfl
  halted := rfl
  executed := rfl

/-- Names and numbers are interchangeable as targets of branches.  In a source that assembles, the
operand of every branch to a name can be replaced; when names of labels, any of them, are replaced
by the addresses that they stand for, and names of digits get a zero in front, the source assembles
to the same program but for these operands and the texts of lines, and the program does the same
from every state of the machine, but for the source lines told.  With zeros in front of names only,
the labels that no branch names are the same, too. -/
theorem assemble_retargeted {source : Text} {origin : Address} {p : Program}
    (hp : assemble source origin = .ok p) :
    (∀ line ∈ sourceLines source, ∀ s, Statement.read line = .ok s → ∀ b name,
      s.command = some ⟨.branch b, [.label name]⟩ → ∃ u, upper u = name ∧
        ∀ t, (∀ c ∈ t, isBlank c = false) →
          ∃ line', Replaces (.branch b) u t line line' ∧ '\n' ∉ line') ∧
    ∀ source', List.Forall₂ (Retargeted (SameTarget p.labels)) (sourceLines source)
        (sourceLines source') →
      ∃ q, assemble source' origin = .ok q ∧ p.Retargeted q ∧
        (∀ m : Machine, m.load q = { m.load p with program := q.instructions }) ∧
        (∀ (m : Machine) (cs : List Machine.Call), ∃ answers m' answers' n',
          ({ m with program := p.instructions } : Machine).calls cs = (answers, m') ∧
          ({ m with program := q.instructions } : Machine).calls cs = (answers', n') ∧
          answers'.map (Except.map Machine.Answer.bare) =
            answers.map (Except.map Machine.Answer.bare) ∧
          n'.cpu = m'.cpu ∧ (∀ a, n'.memory.read a = m'.memory.read a) ∧ n'.pc = m'.pc ∧
          n'.halted = m'.halted ∧ n'.executed = m'.executed) ∧
        (List.Forall₂ (Retargeted (ZeroPrefixed p.labels)) (sourceLines source)
          (sourceLines source') → unusedLabels source' origin = unusedLabels source origin) := by
  refine ⟨fun line hl s hs b name hc => ?_, fun source' h => ?_⟩
  · obtain ⟨u, hu, hreplaces⟩ := exists_replaces hs hc (List.cons_ne_nil _ _)
    have hread : readUpperTarget (upper u) = .ok (.label name) := by
      rw [← upper_upper]
      exact readTarget_of_readOperands hu
    refine ⟨u, ?_, fun t ht => ?_⟩
    · obtain ⟨-, hname⟩ | ⟨-, -, v, -, hname⟩ := readUpperTarget_eq_ok hread
      · cases hname
        rfl
      · cases hname
    · obtain ⟨line', hr, hchars⟩ := hreplaces t ht
      refine ⟨line', hr, fun hm => ?_⟩
      obtain hm | hm | hm := hchars _ hm
      · exact not_mem_of_mem_pieces hl hm
      · cases hm
      · cases ht _ hm
  · obtain ⟨q, hq, hr⟩ := exists_retargeted hp h
    refine ⟨q, hq, hr, hr.load, fun m cs => ?_, unusedLabels_of_zeroPrefixed hp⟩
    obtain ⟨hanswers, hlast⟩ := Machine.calls_alike (hr.alike m) cs
    exact ⟨_, _, _, _, rfl, rfl, hanswers.symm, hlast.state.cpu.symm,
      fun a => (hlast.state.memory a id).symm, hlast.pc.symm, hlast.halted.symm,
      hlast.executed.symm⟩

/-- a loop to a label with a name of digits, and a jump to a name of digits that is no label -/
def namedSource : Text := "a: INC AX\nLOOP a\nJMP fe".toList

/-- the same with numbers -/
def numberedSource : Text := "a: INC AX\nLOOP 0x100\nJMP 0fe".toList

def namedProgram : Program where
  origin := 0x100
  instructions := [
    { opcode := [0x40], length := 1, imm := none, address := 0x100, mnemonic := .unary .inc,
      operands := [.reg (.word .ax)], line := "a: INC AX".toList, lineNumber := 1 },
    { opcode := [0xe2], length := 2, imm := some (.value 0x100), address := 0x101,
      mnemonic := .branch .loop, operands := [.label "A".toList], line := "LOOP a".toList,
      lineNumber := 2 },
    { opcode := [0xeb], length := 2, imm := some (.value 0xfe), address := 0x103,
      mnemonic := .branch .jmp, operands := [.label "FE".toList], line := "JMP fe".toList,
      lineNumber := 3 }]
  listing := [⟨0x100, [0x40], "a: INC AX".toList⟩, ⟨0x101, [0xe2, 0xfd], "LOOP a".toList⟩,
    ⟨0x103, [0xeb, 0xf9], "JMP fe".toList⟩]
  labels := [⟨"A".toList, 0x100, 1⟩]

theorem assemble_namedSource : assemble namedSource 0x100 = .ok namedProgram := by
  decide +kernel

theorem assemble_retargeted_of_named : assemble namedSource 0x100 = .ok namedProgram ∧
    List.Forall₂ (Retargeted (SameTarget namedProgram.labels)) (sourceLines namedSource)
      (sourceLines numberedSource) ∧
    ∃ q, assemble numberedSource 0x100 = .ok q ∧ q ≠ namedProgram ∧ namedProgram.Retargeted q := by
  have hloop : Replaces (.branch .loop) "a".toList "0x100".toList "LOOP a".toList
      "LOOP 0x100".toList :=
    @Replaces.intro _ _ _ [] "LOOP".toList " a".toList " 0x100".toList []
      (.blank (List.all_eq_true.mp rfl) (by decide)) rfl (List.all_iff_forall_prop.mp rfl) rfl rfl
      rfl rfl (by decide) rfl
  have hjump : Replaces (.branch .jmp) "fe".toList "0fe".toList "JMP fe".toList
      "JMP 0fe".toList :=
    @Replaces.intro _ _ _ [] "JMP".toList " fe".toList " 0fe".toList []
      (.blank (List.all_eq_true.mp rfl) (by decide)) rfl (List.all_iff_forall_prop.mp rfl) rfl rfl
      rfl rfl (by decide) rfl
  have hlines : List.Forall₂ (Retargeted (SameTarget namedProgram.labels))
      (sourceLines namedSource) (sourceLines numberedSource) :=
    .cons (.inl rfl) (.cons
      (.inr ⟨.loop, _, _, .label (d := ⟨"A".toList, 0x100, 1⟩) rfl (by decide) (.base rfl rfl),
        hloop⟩)
      (.cons (.inr ⟨.jmp, _, _, .number ⟨rfl, rfl, rfl, rfl⟩, hjump⟩) .nil))
  obtain ⟨q, hq, hr, -⟩ := (assemble_retargeted assemble_namedSource).2 numberedSource hlines
  refine ⟨assemble_namedSource, hlines, q, hq, ?_, hr⟩
  rintro rfl
  revert hq
  decide +kernel

end Mini8086
