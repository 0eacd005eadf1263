import Mathlib.Data.Bool.AllAny
import Mini8086.Proofs.Relocation
import Mini8086.Proofs.Spelling

/-!
# Sources spelled in different ways

Two sources with the same lines but for their spelling are assembled to the same program but for the
texts of lines that it quotes, or have the same error in the same line, but for the case of a text
that it quotes.

* `Instruction.bare`, `Program.bare`   without the texts of lines;
* `bared`                              a result without them, its error in upper case;
* `layoutLine_bared`      one line is laid out as its label and its command say;
* `layoutLines_bared`     lines are laid out in the same way, one after the other;
* `Layout.finish_bare`    the later stages do not look at the texts of lines;
* `respelled_of_upper`    a source in another case is one of another spelling;
* `assemble_respelled`    the two programs, or the two errors.
-/

namespace Mini8086

/-- The sources have the same number of lines, and each line of the one is a line of the other after
some changes that do not count, made or taken back. -/
def Respelled (source source' : Text) : Prop :=
  List.Forall₂ (Relation.EqvGen Respelling) (sourceLines source) (sourceLines source')

/-! ## without the texts of lines -/

def Instruction.bare (i : Instruction) : Instruction := { i with line := [] }

def Layout.bare (l : Layout) : Layout := ⟨l.labels, l.instructions.map Instruction.bare⟩

def Entry.bare (e : Entry) : Entry := { e with line := [] }

def Program.bare (p : Program) : Program :=
  { p with
    instructions := p.instructions.map Instruction.bare
    listing := p.listing.map Entry.bare }

/-- the error with the text that it quotes in upper case -/
def AssemblyError.inUpperCase : AssemblyError → AssemblyError
  | .atLine n (.statement e) => .atLine n (.statement e.inUpperCase)
  | e => e

/-- what a stage of assembling gives, but for the texts of lines and for case -/
def bared {α β : Type} (f : α → β) : Except AssemblyError α → Except AssemblyError β :=
  mapBoth AssemblyError.inUpperCase f

theorem AssemblyError.line?_inUpperCase (e : AssemblyError) : e.inUpperCase.line? = e.line? := by
  cases e with
  | atLine n e => cases e <;> rfl
  | tooFar a t d => rfl

@[simp] theorem Layout.size_bare (l : Layout) : l.bare.size = l.size :=
  codeLength_map Instruction.bare (fun _ => rfl) l.instructions

theorem Layout.append_bare (x y : Layout) : (x.append y).bare = x.bare.append y.bare := by
  simp [Layout.bare, Layout.append]

/-! ## laying out lines -/

section
variable {a : Address} {n : Nat} {seen : List Label}

theorem layoutLabel_bared (o : Option Text) :
    bared id (layoutLabel a n seen o) = layoutLabel a n seen o := by
  cases o with
  | none => rfl
  | some name =>
    unfold layoutLabel
    dsimp only
    cases findLabel? seen name <;> rfl

theorem layoutCommand_bared (text : Text) (c : Option Command) :
    bared (List.map Instruction.bare) (layoutCommand a n text c) = layoutCommand a n [] c := by
  cases c with
  | none => rfl
  | some c =>
    unfold layoutCommand
    dsimp only
    cases encode c.mnemonic c.operands with
    | ok enc => rfl
    | error e => cases e <;> rfl

/-- the layout of a line with this label and this command, without the text of the line -/
def layoutRead (a : Address) (n : Nat) (seen : List Label) (r : Option Text × Option Command) :
    Except AssemblyError Layout := do
  let labels ← layoutLabel a n seen r.1
  let instructions ← layoutCommand a n [] r.2
  return ⟨labels, instructions⟩

theorem layoutLine_bared (line : Text) :
    bared Layout.bare (layoutLine a n seen line) =
      (Statement.reading line).mapError (fun e => .atLine n (.statement e)) >>=
        layoutRead a n seen := by
  unfold layoutLine Statement.reading
  cases Statement.read line with
  | error e => rfl
  | ok s =>
    have hcommand (labels : List Label) :
        (layoutCommand a n [] s.command >>= fun is => .ok ⟨labels, is⟩) = bared Layout.bare
          (layoutCommand a n s.text s.command >>= fun is => .ok ⟨labels, is⟩) := by
      rw [← layoutCommand_bared s.text]
      exact mapBoth_bind fun is _ => rfl
    calc bared Layout.bare (layoutLabel a n seen s.label >>= _)
        = bared id (layoutLabel a n seen s.label) >>= _ :=
          (mapBoth_bind (f := id) fun labels _ => hcommand labels).symm
      _ = layoutRead a n seen (s.label, s.command) := by
          rw [layoutLabel_bared]
          rfl

/-- Lines are laid out one after the other as they are, without the texts of lines. -/
theorem layoutLines_bared (line : Text) (lines : List Text) :
    bared Layout.bare (layoutLines a n seen (line :: lines)) = (do
      let head ← bared Layout.bare (layoutLine a n seen line)
      let tail ← bared Layout.bare (layoutLines (a + head.size) (n + 1) (seen ++ head.labels) lines)
      return head.append tail) := by
  refine (mapBoth_bind fun head _ => ?_).symm
  rw [Layout.size_bare]
  refine mapBoth_bind fun tail _ => ?_
  rw [← Layout.append_bare]
  rfl

/-- Lines with the same gists have the same layout but for their texts. -/
theorem layoutLines_of_gists {lines lines' : List Text}
    (h : List.Forall₂ (fun s t => gist s = gist t) lines lines') :
    bared Layout.bare (layoutLines a n seen lines) =
      bared Layout.bare (layoutLines a n seen lines') := by
  induction h generalizing a n seen with
  | nil => rfl
  | @cons line line' lines lines' hline _ ih =>
    rw [layoutLines_bared, layoutLines_bared, layoutLine_bared, layoutLine_bared,
      reading_of_gist hline]
    simp only [ih]

end

/-! ## the later stages -/

theorem instruction_resolve_bare (labels : List Label) (i : Instruction) :
    i.bare.resolve labels = bared Instruction.bare (i.resolve labels) := by
  have himm : i.bare.imm = i.imm := rfl
  unfold Instruction.resolve
  rw [himm]
  cases i.imm with
  | none => rfl
  | some imm =>
    cases imm with
    | value v => rfl
    | name name =>
      show (if i.mnemonic.isBranch then _ else _) = bared _ (if i.mnemonic.isBranch then _ else _)
      split
      · cases targetOf? labels name <;> rfl
      · rfl

theorem Layout.resolve_bare (l : Layout) : l.bare.resolve = bared Layout.bare l.resolve := by
  unfold Layout.resolve
  show ((l.instructions.map Instruction.bare).mapM (Instruction.resolve l.labels)).map _ = _
  rw [mapM_mapBoth fun i _ => instruction_resolve_bare l.labels i]
  cases l.instructions.mapM (Instruction.resolve l.labels) <;> rfl

theorem checkReach_bare (i : Instruction) : i.bare.checkReach = bared id i.checkReach := by
  show i.checkReach = _
  unfold Instruction.checkReach
  split
  · split <;> rfl
  · rfl

theorem entry_bare (i : Instruction) : i.bare.entry = bared Entry.bare i.entry := by
  have hemit : i.bare.emit? = i.emit? := rfl
  unfold Instruction.entry
  rw [checkReach_bare, hemit]
  refine mapBoth_bind fun u _ => ?_
  cases i.emit? <;> rfl

theorem Layout.listing_bare (l : Layout) :
    l.bare.listing = bared (List.map Entry.bare) l.listing :=
  mapM_mapBoth fun i _ => entry_bare i

/-- what is left to do after the layout -/
def Layout.finish (origin : Address) (draft : Layout) : Except AssemblyError Program := do
  let l ← draft.resolve
  let listing ← l.listing
  return ⟨origin, l.instructions, listing, l.labels⟩

theorem Layout.finish_bare (origin : Address) (draft : Layout) :
    draft.bare.finish origin = bared Program.bare (draft.finish origin) := by
  unfold Layout.finish
  rw [Layout.resolve_bare]
  refine mapBoth_bind fun l _ => ?_
  rw [Layout.listing_bare]
  exact mapBoth_bind fun listing _ => rfl

theorem assemble_bared (source : Text) (origin : Address) :
    bared Program.bare (assemble source origin) =
      bared Layout.bare (layout source origin) >>= Layout.finish origin :=
  (mapBoth_bind fun draft _ => draft.finish_bare origin).symm

/-! ## sources -/

/-- The case of the letters of a source, wherever they are. -/
theorem respelled_of_upper {source source' : Text} (h : upper source = upper source') :
    Respelled source source' := by
  have hlines : (sourceLines source).map upper = (sourceLines source').map upper := by
    unfold sourceLines
    rw [← pieces_upper (by decide) (by decide), ← pieces_upper (by decide) (by decide), h]
  rw [← List.forall₂_eq_eq_eq, List.forall₂_map_left_iff, List.forall₂_map_right_iff] at hlines
  exact hlines.imp fun s t heq => .rel s t (.letters heq)

/-- What a source is assembled to, without the texts of lines, does not depend on its spelling. -/
theorem bared_of_respelled {source source' : Text} (h : Respelled source source')
    (origin : Address) :
    bared Program.bare (assemble source' origin) = bared Program.bare (assemble source origin) := by
  have hgists : List.Forall₂ (fun s t => gist s = gist t) (sourceLines source)
      (sourceLines source') := h.imp fun _ _ => gist_of_eqvGen
  rw [assemble_bared, assemble_bared, layout, layout, layoutLines_of_gists hgists]

/-- The spelling of a source does not count.  Whatever changes are made to the case of letters, to
comments, and to blanks at the ends of lines, around their first colons and behind their mnemonics,
the source is assembled to the same program but for the texts of lines in it, or has the same error
in the same line but for the case of a text in it. -/
theorem assemble_respelled {source source' : Text} (h : Respelled source source')
    (origin : Address) :
    (∀ p, assemble source origin = .ok p →
      ∃ p', assemble source' origin = .ok p' ∧ p'.bare = p.bare) ∧
    ∀ e, assemble source origin = .error e →
      ∃ e', assemble source' origin = .error e' ∧ e'.line? = e.line? ∧
        e'.inUpperCase = e.inUpperCase := by
  have hb := bared_of_respelled h origin
  refine ⟨fun p hp => ?_, fun e he => ?_⟩
  · rw [hp] at hb
    exact mapBoth_eq_ok.mp hb
  · rw [he] at hb
    obtain ⟨e', he', heq⟩ := mapBoth_eq_error.mp hb
    refine ⟨e', he', ?_, heq⟩
    rw [← e'.line?_inUpperCase, heq, e.line?_inUpperCase]

/-- the counting source without comments, with other blanks and in another case -/
def respelledSource : Text := "\nTop : inc\t AX\nLOOP top ".toList

theorem assemble_respelled_of_counting : Respelled countingSource respelledSource ∧
    (∃ p, assemble respelledSource 0x100 = .ok p ∧ p.bare = countingProgram.bare) ∧
    ∃ p, assemble (upper countingSource) 0x100 = .ok p ∧ p.bare = countingProgram.bare := by
  have hcomment : Relation.EqvGen Respelling "; count down".toList [] :=
    .rel _ _ (.comment (by decide))
  have hlabel : Relation.EqvGen Respelling "top: INC AX ; once more".toList
      "Top : inc\t AX".toList := by
    have hf : Leads "top : ".toList "INC AX".toList :=
      .label (u := "top ".toList) (b := " ".toList) (by decide) (List.all_eq_true.mp (by decide))
    have htab : Respelling "top : INC AX".toList "top : INC\t AX".toList :=
      .behindMnemonic (c := '\t') (r := []) (s := " AX".toList) (by decide) hf
        (List.cons_ne_nil 'I' "NC".toList) (List.all_iff_forall_prop.mp (by decide)) (by decide)
    have hcolon : Respelling "top: INC AX".toList "top : INC AX".toList :=
      .beforeColon (c := ' ') (u := "top".toList) (v := " INC AX".toList) (by decide) (by decide)
    refine .trans _ "top: INC AX ".toList _ (.rel _ _ (.comment (by decide))) ?_
    refine .trans _ "top: INC AX".toList _ (.symm _ _ (.rel _ _ (.atEnd (c := ' ') rfl _))) ?_
    refine .trans _ "top : INC AX".toList _ (.rel _ _ hcolon) ?_
    exact .trans _ "top : INC\t AX".toList _ (.rel _ _ htab) (.rel _ _ (.letters (by decide)))
  have hbranch : Relation.EqvGen Respelling "  LOOP top".toList "LOOP top ".toList := by
    refine .trans _ " LOOP top".toList _ (.symm _ _ (.rel _ _ (.atStart (c := ' ') rfl _))) ?_
    refine .trans _ "LOOP top".toList _ (.symm _ _ (.rel _ _ (.atStart (c := ' ') rfl _))) ?_
    exact .rel _ _ (.atEnd (c := ' ') rfl _)
  have hs : Respelled countingSource respelledSource :=
    .cons hcomment (.cons hlabel (.cons hbranch .nil))
  have hu : Respelled countingSource (upper countingSource) := respelled_of_upper (by decide +kernel)
  exact ⟨hs, (assemble_respelled hs 0x100).1 countingProgram assemble_countingSource,
    (assemble_respelled hu 0x100).1 countingProgram assemble_countingSource⟩

end Mini8086
