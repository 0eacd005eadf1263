import Mathlib.Logic.Relation
import Mini8086.Proofs.ReadBack

/-!
# Lines spelled in different ways

A line is read as a label and a command.  Neither depends on the case of letters, on the comment, or
on blanks around the label, in front of the mnemonic, at the end of the line and in the operands.
`gist` is what is left of a line, in upper case: the label without outer blanks, the mnemonic, and
the operands without any blanks.

* `reading_of_gist`     lines with the same gist are read as the same label and the same command, or
                        have the same error, but for the case of a text in it;
* `Respelling`          one change of a line: of case, of the comment, or one more blank;
* `gist_of_respelling`  none of these changes the gist, nor does any number of them
                        (`gist_of_eqvGen`).
-/

namespace Mini8086

/-! ## upper case -/

theorem isBlank_toUpper (c : Char) : isBlank c.toUpper = isBlank c :=
  apply_toUpper isBlank (by decide) c

theorem toUpper_eq_iff {c d : Char} (hd : d ∉ lowerLetters.map Char.toUpper)
    (hself : d.toUpper = d) : c.toUpper = d ↔ c = d :=
  ⟨eq_of_toUpper_eq hd, fun h => h ▸ hself⟩

section
variable {sep : Char} (hsep : sep ∉ lowerLetters.map Char.toUpper) (hself : sep.toUpper = sep)
include hsep hself

theorem splitFirst?_upper (t : Text) :
    splitFirst? sep (upper t) = (splitFirst? sep t).map fun p => (upper p.1, upper p.2) := by
  induction t with
  | nil => rfl
  | cons c t ih =>
    rw [upper_cons]
    by_cases hc : c = sep
    · subst hc
      rw [hself, splitFirst?_cons_self, splitFirst?_cons_self]
      rfl
    · have hc' : c.toUpper ≠ sep := fun h => hc ((toUpper_eq_iff hsep hself).mp h)
      rw [splitFirst?_cons_of_ne hc', splitFirst?_cons_of_ne hc, ih, Option.map_map, Option.map_map]
      rfl

theorem pieces_upper (t : Text) : pieces sep (upper t) = (pieces sep t).map upper := by
  induction t with
  | nil => rfl
  | cons c t ih =>
    rw [upper_cons]
    by_cases hc : c = sep
    · subst hc
      rw [hself, pieces_cons_self, pieces_cons_self, ih]
      rfl
    · have hc' : c.toUpper ≠ sep := fun h => hc ((toUpper_eq_iff hsep hself).mp h)
      simp only [pieces, if_neg hc, if_neg hc', ih]
      cases hp : pieces sep t with
      | nil => exact absurd hp (pieces_ne_nil sep t)
      | cons p ps => rfl

end

theorem trimStart_upper (t : Text) : trimStart (upper t) = upper (trimStart t) := by
  rw [trimStart, upper, List.dropWhile_map]
  exact congrArg (fun p => upper (t.dropWhile p)) (funext isBlank_toUpper)

theorem trim_upper (t : Text) : trim (upper t) = upper (trim t) := by
  rw [trim, trimStart_upper]
  show (trimStart (upper (trimStart t)).reverse).reverse =
    upper (trimStart (trimStart t).reverse).reverse
  rw [upper, ← List.map_reverse, ← upper, trimStart_upper, upper, upper, List.map_reverse]

theorem takeWord_upper (t : Text) :
    takeWord (upper t) = (upper (takeWord t).1, upper (takeWord t).2) := by
  have hblank : (fun c => !isBlank c) ∘ Char.toUpper = fun c => !isBlank c :=
    funext fun c => congrArg Bool.not (isBlank_toUpper c)
  rw [takeWord, upper, List.takeWhile_map, List.dropWhile_map, hblank]
  rfl

theorem dropBlanks_upper (t : Text) : dropBlanks (upper t) = upper (dropBlanks t) := by
  have hblank : (fun c => !isBlank c) ∘ Char.toUpper = fun c => !isBlank c :=
    funext fun c => congrArg Bool.not (isBlank_toUpper c)
  rw [dropBlanks, upper, List.filter_map, hblank]
  rfl

/-! ## operands and commands -/

/-- the error with the text that it quotes in upper case -/
def StatementError.inUpperCase : StatementError → StatementError
  | .badLabel t => .badLabel (upper t)
  | .unknownMnemonic t => .unknownMnemonic (upper t)
  | .malformedOperands t => .malformedOperands (upper t)
  | .operand e => .operand e

theorem readOperand_upper (m : Mnemonic) (list piece : Text) :
    (readOperand m (upper list) (upper piece)).mapError StatementError.inUpperCase =
      (readOperand m list piece).mapError StatementError.inUpperCase := by
  unfold readOperand
  by_cases hp : piece = []
  · subst hp
    rw [if_pos rfl, upper_nil, if_pos rfl]
    show Except.error (StatementError.malformedOperands (upper (upper list))) = _
    rw [upper_upper]
    rfl
  · have hp' : upper piece ≠ [] := fun h => hp (List.map_eq_nil_iff.mp h)
    rw [if_neg hp, if_neg hp', Operand.readTarget, Operand.readTarget, Operand.readData,
      Operand.readData, upper_upper]

/-- The case of operands counts only in an error. -/
theorem readOperands_upper (m : Mnemonic) (list : Text) :
    (readOperands m (upper list)).mapError StatementError.inUpperCase =
      (readOperands m list).mapError StatementError.inUpperCase := by
  unfold readOperands
  by_cases hl : list = []
  · subst hl
    rfl
  · have hl' : upper list ≠ [] := fun h => hl (List.map_eq_nil_iff.mp h)
    rw [if_neg hl, if_neg hl', pieces_upper (by decide) (by decide), List.mapM_map]
    exact (mapM_mapError fun piece _ => rfl).symm.trans
      (mapM_mapError fun piece _ => readOperand_upper m list piece)

/-! ## the gist of a line -/

/-- a first word and what is behind it, in upper case and without blanks -/
def wordsFrom (t : Text) : Text × Text :=
  (upper (takeWord t).1, upper (dropBlanks (takeWord t).2))

/-- the mnemonic and the operands of a text, in upper case and without blanks -/
def words (t : Text) : Text × Text := wordsFrom (trimStart t)

/-- the label of a text without a comment, and its words -/
def gistOf (t : Text) : Option Text × Text × Text :=
  match splitFirst? ':' t with
  | none => (none, words t)
  | some p => (some (upper (trim p.1)), words p.2)

/-- the part of a line before its comment -/
def uncommented (line : Text) : Text := line.takeWhile (· ≠ ';')

/-- what counts of a line: its label, its mnemonic and its operands -/
def gist (line : Text) : Option Text × Text × Text := gistOf (uncommented line)

theorem wordsFrom_append_of_blank (t : Text) {b : Text} (h : ∀ c ∈ b, isBlank c = true) :
    wordsFrom (t ++ b) = wordsFrom t := by
  have hb : dropBlanks b = [] := by
    refine List.filter_eq_nil_iff.mpr fun c hc => ?_
    rw [h c hc]
    exact Bool.false_ne_true
  rw [wordsFrom, takeWord_append_of_blank t h, dropBlanks_append, hb, List.append_nil]
  rfl

theorem words_append_of_blank (t : Text) {b : Text} (h : ∀ c ∈ b, isBlank c = true) :
    words (t ++ b) = words t := by
  rw [words, trimStart_append]
  split
  · next ht =>
    have hb := trimStart_append_of_blank h []
    rw [List.append_nil] at hb
    rw [words, ht, hb]
    rfl
  · exact wordsFrom_append_of_blank _ h

theorem words_cons_of_blank {c : Char} (h : isBlank c = true) (t : Text) :
    words (c :: t) = words t := by
  rw [words, trimStart_cons_of_blank h]
  rfl

/-- Trimming a text does not change its words. -/
theorem wordsFrom_trim (t : Text) : wordsFrom (trim t) = words t := by
  obtain ⟨b, hb, heq⟩ := exists_trimEnd_append (trimStart t)
  have h := wordsFrom_append_of_blank (trim t) hb
  rw [trim, ← heq] at h
  exact h.symm

theorem words_trimEnd (t : Text) : words (trimEnd t) = words t := by
  obtain ⟨b, hb, heq⟩ := exists_trimEnd_append t
  have h := words_append_of_blank (trimEnd t) hb
  rw [← heq] at h
  exact h.symm

/-- A trimmed text with an empty first word is empty. -/
theorem trim_eq_nil_of_words {t : Text} (h : (words t).1 = []) : trim t = [] := by
  have htrim : trim t = trimEnd (trimStart t) := rfl
  have hword : (takeWord (trimStart t)).1 = [] := List.map_eq_nil_iff.mp h
  cases hs : trimStart t with
  | nil =>
    rw [htrim, hs]
    rfl
  | cons c s =>
    have hc : (!isBlank c) = true := by rw [not_blank_of_trimStart hs, Bool.not_false]
    rw [hs, takeWord, List.takeWhile_cons_of_pos (p := fun c => !isBlank c) hc] at hword
    cases hword

theorem trim_eq_nil_iff (t : Text) : trim t = [] ↔ (words t).1 = [] := by
  refine ⟨fun h => ?_, trim_eq_nil_of_words⟩
  rw [← wordsFrom_trim, h]
  rfl

/-- A mnemonic is read in any case. -/
theorem ofText?_upper (word : Text) : Mnemonic.ofText? (upper word) = Mnemonic.ofText? word := by
  rw [Mnemonic.ofText?, Mnemonic.ofText?, upper_upper]

/-- the command that a mnemonic and operands in normal form make -/
def commandOf (w : Text × Text) : Except StatementError Command :=
  match Mnemonic.ofText? w.1 with
  | none => .error (.unknownMnemonic w.1)
  | some m => (readOperands m w.2).map (Command.mk m)

def commandOf? (w : Text × Text) : Except StatementError (Option Command) :=
  if w.1 = [] then .ok none else (commandOf w).map some

/-- the label and the command that are read in a line with this gist -/
def readingOf : Option Text × Text × Text → Except StatementError (Option Text × Option Command)
  | (none, w) => (commandOf? w).map fun c => (none, c)
  | (some name, w) =>
    if isName name then (commandOf? w).map fun c => (some name, c) else .error (.badLabel name)

theorem Command.read_eq_commandOf (t : Text) :
    (Command.read t).mapError StatementError.inUpperCase =
      (commandOf (wordsFrom t)).mapError StatementError.inUpperCase := by
  unfold Command.read commandOf wordsFrom
  dsimp only
  rw [ofText?_upper]
  cases Mnemonic.ofText? (takeWord t).1 with
  | none => rfl
  | some m => rw [mapError_map, mapError_map, readOperands_upper]

theorem Command.read?_trim (t : Text) :
    (Command.read? (trim t)).mapError StatementError.inUpperCase =
      (commandOf? (words t)).mapError StatementError.inUpperCase := by
  unfold Command.read? commandOf?
  by_cases ht : trim t = []
  · rw [if_pos ht, if_pos ((trim_eq_nil_iff t).mp ht)]
  · rw [if_neg ht, if_neg fun hw => ht (trim_eq_nil_of_words hw), mapError_map, mapError_map,
      Command.read_eq_commandOf, wordsFrom_trim]

/-- The text of a statement has its first colon where the line has it. -/
theorem splitFirst?_trim (t : Text) :
    splitFirst? ':' (trim t) = (splitFirst? ':' t).map fun p => (trimStart p.1, trimEnd p.2) := by
  cases hs : splitFirst? ':' t with
  | none =>
    refine splitFirst?_eq_none.mpr fun hmem => splitFirst?_eq_none.mp hs ?_
    exact mem_of_mem_trimStart (mem_of_mem_trimEnd hmem)
  | some p =>
    obtain ⟨hno, rfl⟩ := splitFirst?_eq_some.mp hs
    rw [trim, trimStart_append_cons (by decide), trimEnd_append_cons (by decide)]
    exact splitFirst?_append (fun hmem => hno (mem_of_mem_trimStart hmem)) _

/-- the label and the command of a line, or its error in upper case -/
def Statement.reading (line : Text) : Except StatementError (Option Text × Option Command) :=
  mapBoth StatementError.inUpperCase (fun s => (s.label, s.command)) (Statement.read line)

/-- A line is read as its gist says. -/
theorem Statement.reading_eq (line : Text) :
    Statement.reading line = (readingOf (gist line)).mapError StatementError.inUpperCase := by
  have htext : statementText line = trim (uncommented line) := rfl
  unfold Statement.reading mapBoth Statement.read gist gistOf
  dsimp only
  rw [htext, splitFirst?_trim]
  cases splitFirst? ':' (uncommented line) with
  | none =>
    show (((Command.read? (trim (uncommented line))).map _).map _).mapError _ =
      ((commandOf? (words (uncommented line))).map _).mapError _
    rw [mapError_map, mapError_map, mapError_map, Command.read?_trim]
    cases (commandOf? (words (uncommented line))) <;> rfl
  | some p =>
    have hbefore : trim (trimStart p.1) = trim p.1 := congrArg trimEnd (trimStart_trimStart p.1)
    dsimp only [Option.map_some]
    rw [hbefore, readingOf, isName_upper]
    split
    · rw [mapError_map, mapError_map, mapError_map, Command.read?_trim, words_trimEnd]
      cases (commandOf? (words p.2)) <;> rfl
    · show Except.error (StatementError.badLabel (upper (trim p.1))) =
        .error (.badLabel (upper (upper (trim p.1))))
      rw [upper_upper]

theorem reading_of_gist {line line' : Text} (h : gist line = gist line') :
    Statement.reading line = Statement.reading line' := by
  rw [Statement.reading_eq, Statement.reading_eq, h]

/-! ## changes that do not count -/

/-- What stands in front of a command: blanks, if the line has no colon before its comment, or a
label with blanks behind its colon. -/
inductive Leads : Text → Text → Prop
  | blank {b command : Text} (hb : ∀ c ∈ b, isBlank c = true) (hno : ':' ∉ uncommented command) :
      Leads b command
  | label {u b command : Text} (hu : ':' ∉ u) (hb : ∀ c ∈ b, isBlank c = true) :
      Leads (u ++ ':' :: b) command

/-- One change of a line: of the case of its letters, of its comment, or a blank more at its start,
at its end, next to its first colon, or anywhere behind its mnemonic if a blank is there already. -/
inductive Respelling : Text → Text → Prop
  | letters {s t : Text} (h : upper s = upper t) : Respelling s t
  | comment {s t : Text} (h : uncommented s = uncommented t) : Respelling s t
  | atStart {c : Char} (hc : isBlank c = true) (t : Text) : Respelling t (c :: t)
  | atEnd {c : Char} (hc : isBlank c = true) (t : Text) : Respelling t (t ++ [c])
  | beforeColon {c : Char} (hc : isBlank c = true) {u v : Text} (hu : ':' ∉ u) :
      Respelling (u ++ ':' :: v) (u ++ c :: ':' :: v)
  | afterColon {c : Char} (hc : isBlank c = true) {u v : Text} (hu : ':' ∉ u) :
      Respelling (u ++ ':' :: v) (u ++ ':' :: c :: v)
  | behindMnemonic {c : Char} (hc : isBlank c = true) {front word r s : Text}
      (hf : Leads front (word ++ (r ++ s))) (hne : word ≠ [])
      (hw : ∀ c ∈ word, isBlank c = false) (hb : (r ++ s).head?.any isBlank = true) :
      Respelling (front ++ (word ++ (r ++ s))) (front ++ (word ++ (r ++ c :: s)))

theorem uncommented_append (x y : Text) :
    uncommented (x ++ y) = if ';' ∈ x then uncommented x else x ++ uncommented y := by
  unfold uncommented
  split
  · next h =>
    obtain ⟨u, v, rfl, -⟩ := List.eq_append_cons_of_mem h
    rw [List.append_assoc, List.cons_append, List.takeWhile_append, List.takeWhile_append]
    have hstop (w : Text) : (';' :: w).takeWhile (· ≠ ';') = [] :=
      List.takeWhile_cons_of_neg (by decide)
    rw [hstop, hstop]
  · next h =>
    exact List.takeWhile_append_of_pos fun c hc => decide_eq_true fun heq => h (heq ▸ hc)

theorem uncommented_cons {c : Char} (h : c ≠ ';') (t : Text) :
    uncommented (c :: t) = c :: uncommented t :=
  List.takeWhile_cons_of_pos (decide_eq_true h)

theorem semicolon_not_mem_uncommented (line : Text) : ';' ∉ uncommented line := by
  intro hmem
  have hall : (uncommented line).all (fun c => decide (c ≠ ';')) = true := List.all_takeWhile
  exact of_decide_eq_true (List.all_eq_true.mp hall ';' hmem) rfl

theorem uncommented_append_comment (line : Text) :
    uncommented line ++ line.dropWhile (· ≠ ';') = line := List.takeWhile_append_dropWhile

theorem head?_comment {line : Text} {c : Char}
    (h : (line.dropWhile (· ≠ ';')).head? = some c) : c = ';' := by
  have hhead := List.head?_dropWhile_not (fun c => decide (c ≠ ';')) line
  rw [h] at hhead
  simpa using hhead

/-- Nothing is left of a text that is a comment. -/
theorem uncommented_eq_nil {comment : Text} (h : ∀ c, comment.head? = some c → c = ';') :
    uncommented comment = [] := by
  cases comment with
  | nil => rfl
  | cons c t =>
    rw [h c rfl]
    exact List.takeWhile_cons_of_neg (by decide)

theorem uncommented_upper (t : Text) : uncommented (upper t) = upper (uncommented t) := by
  have hstop : (fun c : Char => decide (c ≠ ';')) ∘ Char.toUpper = fun c => decide (c ≠ ';') :=
    funext fun c => decide_eq_decide.mpr (not_congr (toUpper_eq_iff (by decide) (by decide)))
  rw [uncommented, upper, List.takeWhile_map, hstop]
  rfl

theorem gistOf_of_not_mem {t : Text} (h : ':' ∉ t) : gistOf t = (none, words t) := by
  rw [gistOf, splitFirst?_eq_none.mpr h]

theorem gistOf_append {u : Text} (h : ':' ∉ u) (v : Text) :
    gistOf (u ++ ':' :: v) = (some (upper (trim u)), words v) := by
  rw [gistOf, splitFirst?_append h]

theorem words_upper (t : Text) : words (upper t) = words t := by
  unfold words wordsFrom
  rw [trimStart_upper, takeWord_upper, upper_upper, dropBlanks_upper, upper_upper]

/-- The case of letters does not count. -/
theorem gist_upper (line : Text) : gist (upper line) = gist line := by
  unfold gist gistOf
  rw [uncommented_upper, splitFirst?_upper (by decide) (by decide)]
  cases splitFirst? ':' (uncommented line) with
  | none => exact congrArg (Prod.mk none) (words_upper _)
  | some p =>
    dsimp only [Option.map_some]
    rw [trim_upper, upper_upper, words_upper]

section
variable {c : Char} (hc : isBlank c = true)
include hc

theorem ne_of_isBlank {d : Char} (hd : isBlank d = false) : c ≠ d := by
  rintro rfl
  rw [hc] at hd
  cases hd

/-- A character more counts if it stands before the comment. -/
theorem gist_insert {x y : Text}
    (h : ';' ∉ x → gistOf (x ++ c :: uncommented y) = gistOf (x ++ uncommented y)) :
    gist (x ++ c :: y) = gist (x ++ y) := by
  unfold gist
  rw [uncommented_append, uncommented_append, uncommented_cons (ne_of_isBlank hc (by decide))]
  split
  · rfl
  · next hx => exact h hx

theorem gistOf_cons_of_blank (t : Text) : gistOf (c :: t) = gistOf t := by
  have hcolon : ':' ≠ c := (ne_of_isBlank hc (by decide)).symm
  by_cases h : ':' ∈ t
  · obtain ⟨u, v, rfl, hu⟩ := List.eq_append_cons_of_mem h
    have hcu : ':' ∉ c :: u := fun hm => (List.mem_cons.mp hm).elim hcolon hu
    rw [gistOf_append hu, ← List.cons_append, gistOf_append hcu, trim, trimStart_cons_of_blank hc]
    rfl
  · have hct : ':' ∉ c :: t := fun hm => (List.mem_cons.mp hm).elim hcolon h
    rw [gistOf_of_not_mem h, gistOf_of_not_mem hct, words_cons_of_blank hc]

theorem gistOf_append_of_blank (t : Text) : gistOf (t ++ [c]) = gistOf t := by
  have hcolon : ':' ∉ [c] := fun hm => ne_of_isBlank hc (by decide) (List.mem_singleton.mp hm).symm
  have hblank : ∀ d ∈ [c], isBlank d = true := fun d hd => List.mem_singleton.mp hd ▸ hc
  by_cases h : ':' ∈ t
  · obtain ⟨u, v, rfl, hu⟩ := List.eq_append_cons_of_mem h
    rw [List.append_assoc, List.cons_append, gistOf_append hu, gistOf_append hu,
      words_append_of_blank v hblank]
  · have ht : ':' ∉ t ++ [c] := fun hm => (List.mem_append.mp hm).elim h hcolon
    rw [gistOf_of_not_mem h, gistOf_of_not_mem ht, words_append_of_blank t hblank]

theorem trim_append_of_blank (u : Text) : trim (u ++ [c]) = trim u := by
  have hblank : ∀ d ∈ [c], isBlank d = true := fun d hd => List.mem_singleton.mp hd ▸ hc
  rw [trim, trimStart_append]
  split
  · next h =>
    rw [trim, h, trimStart_cons_of_blank hc]
    rfl
  · exact trimEnd_append_of_blank _ hblank

end

/-- the words of a mnemonic, and of what is behind its first blank -/
theorem words_eq {word field : Text} (hne : word ≠ []) (hw : ∀ c ∈ word, isBlank c = false)
    (hf : ∀ c, field.head? = some c → isBlank c = true) :
    words (word ++ field) = (upper word, upper (dropBlanks field)) := by
  obtain ⟨c, w, rfl⟩ := List.exists_cons_of_ne_nil hne
  have hc := hw c List.mem_cons_self
  rw [words, List.cons_append, trimStart_cons_of_not_blank hc, ← List.cons_append, wordsFrom,
    takeWord_eq hw hf]

/-- What stands in front of a command decides the label, for each command with no new colon. -/
theorem Leads.exists_label {front command : Text} (h : Leads front command) :
    ∃ label, ∀ t, (':' ∈ t → ':' ∈ uncommented command) →
      gistOf (front ++ t) = (label, words t) := by
  cases h with
  | blank hb hno =>
    refine ⟨none, fun t ht => ?_⟩
    have hfront : ':' ∉ front := fun h => absurd (hb _ h) (by decide)
    rw [gistOf_of_not_mem fun h => (List.mem_append.mp h).elim hfront fun h => hno (ht h), words,
      trimStart_append_of_blank hb]
    rfl
  | @label u b _ hu hb =>
    refine ⟨some (upper (trim u)), fun t _ => ?_⟩
    rw [List.append_assoc, List.cons_append, gistOf_append hu, words, trimStart_append_of_blank hb]
    rfl

theorem head?_uncommented {r s : Text} (hb : (r ++ s).head?.any isBlank = true) :
    ∀ b, (r ++ uncommented s).head? = some b → isBlank b = true := by
  intro b h
  cases r with
  | nil =>
    cases s with
    | nil => cases h
    | cons d s =>
      rw [uncommented_cons (ne_of_isBlank hb (by decide))] at h
      cases h
      exact hb
  | cons d r =>
    cases h
    exact hb

/-- Blanks do not count from the first blank behind the mnemonic on. -/
theorem gist_behindMnemonic {front word r s : Text} {c : Char} (hc : isBlank c = true)
    (hf : Leads front (word ++ (r ++ s))) (hne : word ≠ []) (hw : ∀ c ∈ word, isBlank c = false)
    (hb : (r ++ s).head?.any isBlank = true) :
    gist (front ++ (word ++ (r ++ c :: s))) = gist (front ++ (word ++ (r ++ s))) := by
  have hassoc (t : Text) : front ++ (word ++ (r ++ t)) = front ++ (word ++ r) ++ t := by
    rw [List.append_assoc, List.append_assoc]
  rw [hassoc, hassoc]
  refine gist_insert hc fun hx => ?_
  rw [← hassoc, ← hassoc]
  obtain ⟨label, hlabel⟩ := hf.exists_label
  have hcommand : uncommented (word ++ (r ++ s)) = word ++ (r ++ uncommented s) := by
    rw [← List.append_assoc, uncommented_append, if_neg fun h => hx (List.mem_append_right _ h),
      List.append_assoc]
  rw [hcommand] at hlabel
  have hcolon : ':' ∈ word ++ (r ++ c :: uncommented s) → ':' ∈ word ++ (r ++ uncommented s) := by
    have hne : ':' ≠ c := (ne_of_isBlank hc (by decide)).symm
    simp only [List.mem_append, List.mem_cons, or_iff_right hne]
    exact id
  have hhead : ∀ b, (r ++ c :: uncommented s).head? = some b → isBlank b = true := by
    intro b h
    cases r with
    | nil =>
      cases h
      exact hc
    | cons d r =>
      cases h
      exact hb
  rw [hlabel _ hcolon, hlabel _ id, words_eq hne hw hhead, words_eq hne hw (head?_uncommented hb),
    dropBlanks_append, dropBlanks_append, dropBlanks_cons_of_blank hc]

/-- None of the changes counts. -/
theorem gist_of_respelling {line line' : Text} (h : Respelling line line') :
    gist line' = gist line := by
  cases h with
  | letters h => rw [← gist_upper line', ← h, gist_upper]
  | comment h => rw [gist, ← h, gist]
  | atStart hc t => exact gist_insert (x := []) hc fun _ => gistOf_cons_of_blank hc _
  | @atEnd c hc t =>
    have hend := gist_insert (x := line) (y := []) hc fun _ => by
      show gistOf (line ++ [c]) = gistOf (line ++ [])
      rw [List.append_nil, gistOf_append_of_blank hc]
    rw [List.append_nil] at hend
    exact hend
  | @beforeColon c hc u v hu =>
    refine gist_insert hc fun _ => ?_
    have huc : ':' ∉ u ++ [c] := by
      simp only [List.mem_append, List.mem_singleton, not_or]
      exact ⟨hu, (ne_of_isBlank hc (by decide)).symm⟩
    rw [uncommented_cons (by decide), List.append_cons, gistOf_append huc, gistOf_append hu,
      trim_append_of_blank hc]
  | @afterColon c hc u v hu =>
    rw [List.append_cons, List.append_cons u ':' v]
    refine gist_insert hc fun _ => ?_
    rw [← List.append_cons, ← List.append_cons, gistOf_append hu, gistOf_append hu,
      words_cons_of_blank hc]
  | behindMnemonic hc hf hne hw hb => exact gist_behindMnemonic hc hf hne hw hb

/-- Nor does any number of them, made or taken back. -/
theorem gist_of_eqvGen {line line' : Text} (h : Relation.EqvGen Respelling line line') :
    gist line = gist line' := by
  induction h with
  | rel s t h => exact (gist_of_respelling h).symm
  | refl s => rfl
  | symm s t _ ih => exact ih.symm
  | trans s t u _ _ ih ih' => exact ih.trans ih'

end Mini8086
