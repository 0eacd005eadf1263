import Mini8086.Proofs.Concatenation

/-!
# The first error of a source

A source has three kinds of errors, and one of a later kind is told only if there is none of an
earlier kind: a line that is wrong in itself or defines a label again, a branch to a name that
stands for nothing, and a branch that is too far from its target.  Of each kind the first is told.

* `Flaw above line e`    what is wrong with a line below the lines `above`;
* `Flawless`             lines of which none has a flaw: those that can be laid out;
* `layoutLines_eq_error`   laying out lines fails at the first flaw, whatever is below it;
* `Dangles`              a branch to a name that is neither a label nor a number;
* `resolve_of_dangles`   resolving names fails at the first of these;
* `assemble_first_error` the error of a source, or that it has none.
-/

namespace Mini8086

/-! ## flaws -/

/-- What is wrong with a line below the lines `above`: the statement first, then a label that is
defined above, and then a command without an encoding. -/
inductive Flaw (above : List Text) (line : Text) : LineError → Prop
  | statement {e : StatementError} (h : Statement.read line = .error e) :
      Flaw above line (.statement e)
  | duplicate {s : Statement} {name other : Text} {n : Nat} (hs : Statement.read line = .ok s)
      (hn : definedLabel? line = some name) (ho : (other, n) ∈ above.zipIdx 1)
      (hon : definedLabel? other = some name) : Flaw above line (.duplicateLabel name n)
  | command {s : Statement} {c : Command} {e : EncodeError} (hs : Statement.read line = .ok s)
      (hnew : ∀ name, definedLabel? line = some name →
        ∀ other ∈ above, definedLabel? other ≠ some name)
      (hc : s.command = some c) (he : encode c.mnemonic c.operands = .error e) :
      Flaw above line (e.inCommand c)

/-- No line has a flaw below the lines before it. -/
def Flawless (lines : List Text) : Prop :=
  ∀ above line below, lines = above ++ line :: below → ∀ e, ¬ Flaw above line e

section
variable {a : Address} {n : Nat} {seen : List Label} {err : AssemblyError}

theorem layoutLabel_eq_error {o : Option Text} :
    layoutLabel a n seen o = .error err ↔ ∃ name previous, o = some name ∧
      findLabel? seen name = some previous ∧
        err = .atLine n (.duplicateLabel name previous.line) := by
  unfold layoutLabel
  cases o with
  | none =>
    refine ⟨(nomatch ·), ?_⟩
    rintro ⟨name, previous, h, -⟩
    cases h
  | some name =>
    dsimp only
    cases hf : findLabel? seen name with
    | none =>
      refine ⟨(nomatch ·), ?_⟩
      rintro ⟨other, previous, h, hp, -⟩
      cases h
      rw [hf] at hp
      cases hp
    | some previous =>
      constructor
      · intro h
        exact ⟨name, previous, rfl, hf, (Except.error.inj h).symm⟩
      · rintro ⟨other, d, h, hd, rfl⟩
        cases h
        rw [hf] at hd
        cases hd
        rfl

theorem layoutCommand_eq_error {text : Text} {o : Option Command} :
    layoutCommand a n text o = .error err ↔ ∃ c e, o = some c ∧
      encode c.mnemonic c.operands = .error e ∧ err = .atLine n (e.inCommand c) := by
  unfold layoutCommand
  cases o with
  | none =>
    refine ⟨(nomatch ·), ?_⟩
    rintro ⟨c, e, h, -⟩
    cases h
  | some c =>
    dsimp only
    cases he : encode c.mnemonic c.operands with
    | ok enc =>
      refine ⟨(nomatch ·), ?_⟩
      rintro ⟨d, e, h, hd, -⟩
      cases h
      rw [he] at hd
      cases hd
    | error e =>
      constructor
      · intro h
        exact ⟨c, e, rfl, he, (Except.error.inj h).symm⟩
      · rintro ⟨d, e', h, hd, rfl⟩
        cases h
        rw [he] at hd
        cases hd
        rfl

theorem layoutLine_eq_error {line : Text} :
    layoutLine a n seen line = .error err ↔
      (∃ e, Statement.read line = .error e ∧ err = .atLine n (.statement e)) ∨
      ∃ s, Statement.read line = .ok s ∧
        (layoutLabel a n seen s.label = .error err ∨
          (∃ labels, layoutLabel a n seen s.label = .ok labels) ∧
            layoutCommand a n s.text s.command = .error err) := by
  unfold layoutLine
  cases hs : Statement.read line with
  | error e =>
    constructor
    · intro h
      exact .inl ⟨e, rfl, (Except.error.inj h).symm⟩
    · rintro (⟨e', h, rfl⟩ | ⟨s, h, -⟩)
      · cases h
        rfl
      · cases h
  | ok s =>
    dsimp only [Except.mapError]
    rw [bind_eq_error]
    constructor
    · rintro (h | ⟨t, ht, h⟩)
      · cases h
      · cases ht
        rw [bind_eq_error] at h
        refine .inr ⟨s, rfl, h.imp_right ?_⟩
        rintro ⟨labels, hl, h⟩
        obtain h | ⟨is, -, h⟩ := bind_eq_error.mp h
        · exact ⟨⟨labels, hl⟩, h⟩
        · cases h
    · rintro (⟨e, h, -⟩ | ⟨t, ht, h⟩)
      · cases h
      · cases ht
        refine .inr ⟨s, rfl, bind_eq_error.mpr (h.imp_right ?_)⟩
        rintro ⟨⟨labels, hl⟩, h⟩
        exact ⟨labels, hl, bind_eq_error.mpr (.inl h)⟩

/-- a name that none of the lines defines -/
theorem LaidOut.findLabel?_eq_none_of_lines {b : Address} {k : Nat} {lines : List Text} {l : Layout}
    (h : LaidOut b (lines.zipIdx k) l) {name : Text} :
    findLabel? l.labels name = none ↔ ∀ other ∈ lines, definedLabel? other ≠ some name := by
  rw [findLabel?_eq_none, h.map_name_of_lines, List.mem_filterMap, not_exists]
  exact forall_congr' fun other => not_and

/-- A line fails below others that are laid out exactly if it has a flaw. -/
theorem layoutLine_eq_error_iff {b : Address} {above : List Text} {l : Layout} {line : Text}
    (hl : LaidOut b (above.zipIdx 1) l) (hn : (l.labels.map Label.name).Nodup) :
    layoutLine a n l.labels line = .error err ↔
      ∃ e, Flaw above line e ∧ err = .atLine n e := by
  rw [layoutLine_eq_error]
  constructor
  · rintro (⟨e, hs, rfl⟩ | ⟨s, hs, h⟩)
    · exact ⟨_, .statement hs, rfl⟩
    · have hlabel := (Statement.read_eq_ok hs).1
      rw [hlabel] at h
      obtain h | ⟨⟨labels, hok⟩, h⟩ := h
      · obtain ⟨name, previous, hname, hf, rfl⟩ := layoutLabel_eq_error.mp h
        obtain ⟨hd, rfl⟩ := name_of_findLabel? hf
        obtain ⟨⟨other, k⟩, hq, ho, hk⟩ := hl.exists_line_of_label hd
        change k = previous.line at hk
        rw [hk] at hq
        exact ⟨_, .duplicate hs hname hq ho, rfl⟩
      · obtain ⟨c, e, hc, he, rfl⟩ := layoutCommand_eq_error.mp h
        have hnew := (layoutLabel_eq_ok.mp hok).1
        exact ⟨_, .command hs (fun name hname =>
          hl.findLabel?_eq_none_of_lines.mp (hnew name hname)) hc he, rfl⟩
  · rintro ⟨e, hf, rfl⟩
    cases hf with
    | statement hs => exact .inl ⟨_, hs, rfl⟩
    | @duplicate s name other k hs hname ho hon =>
      refine .inr ⟨s, hs, .inl ?_⟩
      obtain ⟨d, hd, rfl, hk⟩ := hl.exists_label ho hon
      change d.line = k at hk
      rw [(Statement.read_eq_ok hs).1, ← hk]
      exact layoutLabel_eq_error.mpr ⟨_, d, hname, (findLabel?_eq_some hn).mpr ⟨hd, rfl⟩, rfl⟩
    | @command s c e hs hnew hc he =>
      have hok : ∀ name, s.label = some name → findLabel? l.labels name = none := by
        rw [(Statement.read_eq_ok hs).1]
        exact fun name hname => hl.findLabel?_eq_none_of_lines.mpr (hnew name hname)
      exact .inr ⟨s, hs, .inr ⟨⟨_, layoutLabel_eq_ok.mpr ⟨hok, rfl⟩⟩,
        layoutCommand_eq_error.mpr ⟨c, e, hc, he, rfl⟩⟩⟩

/-- Laying out lines fails at the first line that fails, below those that do not. -/
theorem layoutLines_eq_error {lines : List Text} :
    layoutLines a n seen lines = .error err ↔ ∃ above line below l,
      lines = above ++ line :: below ∧ layoutLines a n seen above = .ok l ∧
      layoutLine (a + l.size) (n + above.length) (seen ++ l.labels) line = .error err := by
  induction lines generalizing a n seen with
  | nil =>
    refine ⟨(nomatch ·), ?_⟩
    rintro ⟨above, line, below, l, h, -⟩
    cases above <;> cases h
  | cons line lines ih =>
    rw [layoutLines, bind_eq_error]
    constructor
    · rintro (h | ⟨head, hh, h⟩)
      · refine ⟨[], line, lines, .empty, rfl, rfl, ?_⟩
        show layoutLine a n (seen ++ []) line = _
        rw [List.append_nil]
        exact h
      · obtain h | ⟨tail, -, h⟩ := bind_eq_error.mp h
        · obtain ⟨above, other, below, l, rfl, hl, ho⟩ := ih.mp h
          refine ⟨line :: above, other, below, head.append l, rfl,
            layoutLines_cons_eq_ok.mpr ⟨head, l, hh, hl, rfl⟩, ?_⟩
          simpa [Nat.add_assoc, Nat.add_comm 1] using ho
        · cases h
    · rintro ⟨above, other, below, l, h, hl, ho⟩
      cases above with
      | nil =>
        cases h
        cases hl
        refine .inl ?_
        change layoutLine a n (seen ++ []) line = _ at ho
        rw [List.append_nil] at ho
        exact ho
      | cons first above =>
        cases h
        obtain ⟨head, tail, hh, ht, rfl⟩ := layoutLines_cons_eq_ok.mp hl
        refine .inr ⟨head, hh, bind_eq_error.mpr (.inl (ih.mpr ?_))⟩
        refine ⟨above, other, below, tail, rfl, ht, ?_⟩
        simpa [Nat.add_assoc, Nat.add_comm 1] using ho

end

section
variable {a : Address} {lines above below : List Text} {line : Text} {l : Layout}

/-- a line below others that are laid out from the top of a source -/
theorem layoutLine_below_eq_error (hl : layoutLines a 1 [] above = .ok l) {b : Address} {n : Nat}
    {err : AssemblyError} :
    layoutLine b n ([] ++ l.labels) line = .error err ↔
      ∃ e, Flaw above line e ∧ err = .atLine n e :=
  layoutLine_eq_error_iff (layoutLines_laidOut hl) (layoutLines_nodup hl List.nodup_nil)

theorem layoutLines_of_flaw (hl : layoutLines a 1 [] above = .ok l) {e : LineError}
    (h : Flaw above line e) :
    layoutLines a 1 [] (above ++ line :: below) = .error (.atLine (above.length + 1) e) := by
  refine layoutLines_eq_error.mpr ⟨above, line, below, l, rfl, hl, ?_⟩
  rw [Nat.add_comm 1]
  exact (layoutLine_below_eq_error hl).mpr ⟨e, h, rfl⟩

/-- Lines that are laid out have no flaw. -/
theorem flawless_of_layoutLines (h : layoutLines a 1 [] lines = .ok l) : Flawless lines := by
  rintro above line below rfl e hf
  cases hx : layoutLines a 1 [] above with
  | ok x =>
    rw [layoutLines_of_flaw hx hf] at h
    cases h
  | error err =>
    -- what fails in the lines above fails in all of them
    obtain ⟨upper, other, lower, x, rfl, hx, ho⟩ := layoutLines_eq_error.mp hx
    have herr : layoutLines a 1 [] (upper ++ other :: lower ++ line :: below) = .error err :=
      layoutLines_eq_error.mpr ⟨upper, other, lower ++ line :: below, x, by simp, hx, ho⟩
    rw [herr] at h
    cases h

/-- Lines are laid out, or one of them is the first with a flaw. -/
theorem layoutLines_or_flaw (a : Address) (lines : List Text) :
    (∃ l, layoutLines a 1 [] lines = .ok l) ∨ ∃ above line below e,
      lines = above ++ line :: below ∧ Flawless above ∧ Flaw above line e := by
  cases h : layoutLines a 1 [] lines with
  | ok l => exact .inl ⟨l, rfl⟩
  | error err =>
    obtain ⟨above, line, below, x, rfl, hx, ho⟩ := layoutLines_eq_error.mp h
    obtain ⟨e, hf, -⟩ := (layoutLine_below_eq_error hx).mp ho
    exact .inr ⟨above, line, below, e, rfl, flawless_of_layoutLines hx, hf⟩

theorem Flawless.exists_layoutLines (h : Flawless lines) (a : Address) :
    ∃ l, layoutLines a 1 [] lines = .ok l := by
  obtain hl | ⟨above, line, below, e, hs, -, hf⟩ := layoutLines_or_flaw a lines
  · exact hl
  · exact absurd hf (h above line below hs e)

end

/-- A source fails at its first line with a flaw, whatever is below it and wherever it starts. -/
theorem assemble_of_flaw {source : Text} {above below : List Text} {line : Text} {e : LineError}
    (hs : sourceLines source = above ++ line :: below) (ha : Flawless above)
    (h : Flaw above line e) (origin : Address) :
    assemble source origin = .error (.atLine (above.length + 1) e) := by
  obtain ⟨l, hl⟩ := ha.exists_layoutLines origin
  have hlayout : layout source origin = .error (.atLine (above.length + 1) e) := by
    rw [layout, hs]
    exact layoutLines_of_flaw hl h
  rw [assemble, hlayout]
  rfl

/-! ## names that stand for nothing -/

/-- The branch on the line has a name as its operand that is neither a label of the source nor a
number. -/
def Dangles (source line name : Text) : Prop :=
  branchName? line = some name ∧ name ∉ definedLabels source ∧ readHex? name = none

theorem branchName?_eq_some {line name : Text} :
    branchName? line = some name ↔
      ∃ b, Command.read (commandText line) = .ok ⟨.branch b, [.label name]⟩ := by
  unfold branchName?
  constructor
  · intro h
    split at h
    · next b other hread =>
      cases h
      exact ⟨b, hread⟩
    · cases h
  · rintro ⟨b, hread⟩
    rw [hread]

theorem hasCommand_of_branchName? {q : Text × Nat} {name : Text}
    (h : branchName? q.1 = some name) : hasCommand q = true := by
  obtain ⟨b, hread⟩ := branchName?_eq_some.mp h
  refine decide_eq_true fun hnil => ?_
  rw [hnil] at hread
  cases hread

section
variable {source : Text} {origin : Address} {draft : Layout} {i : Instruction} {q : Text × Nat}

/-- A branch cannot be resolved exactly if its name stands for nothing. -/
theorem instruction_resolve_eq_error (hl : LaidOut origin (numberedLines source) draft)
    (hd : i.Drafted) (hc : Carries q i) {err : AssemblyError} :
    i.resolve draft.labels = .error err ↔
      ∃ name, Dangles source q.1 name ∧ err = .atLine q.2 (.undefinedLabel name) := by
  constructor
  · intro h
    unfold Instruction.resolve at h
    split at h
    · next name hname =>
      obtain ⟨b, hm, hops⟩ := hd.operands_of_name hname
      have hread := hc.command
      rw [hm, hops] at hread
      rw [hm, if_pos (show (Mnemonic.branch b).isBranch = true from rfl)] at h
      split at h
      · cases h
      · next ht =>
        refine ⟨name, ⟨branchName?_eq_some.mpr ⟨b, hread⟩, ?_⟩, ?_⟩
        · unfold targetOf? at ht
          split at ht
          · cases ht
          · next hf => exact ⟨hl.findLabel?_eq_none_iff.mp hf, Option.map_eq_none_iff.mp ht⟩
        · rw [← hc.number]
          exact (Except.error.inj h).symm
    · cases h
  · rintro ⟨name, ⟨hname, hnew, hhex⟩, rfl⟩
    obtain ⟨b, hread⟩ := branchName?_eq_some.mp hname
    obtain ⟨hm, hops⟩ := Command.mk.inj (Except.ok.inj (hc.command.symm.trans hread))
    have himm := hd.imm_of_name hm hops
    have ht : targetOf? draft.labels name = none := by
      rw [targetOf?, hl.findLabel?_eq_none_iff.mpr hnew, hhex]
      rfl
    unfold Instruction.resolve
    rw [himm]
    dsimp only
    rw [hm, if_pos (show (Mnemonic.branch b).isBranch = true from rfl), ht, ← hc.number]

theorem exists_resolve_of_not_dangles (hl : LaidOut origin (numberedLines source) draft)
    (hd : i.Drafted) (hc : Carries q i) (hn : ∀ name, ¬ Dangles source q.1 name) :
    ∃ j, i.resolve draft.labels = .ok j := by
  cases hr : i.resolve draft.labels with
  | ok j => exact ⟨j, rfl⟩
  | error err =>
    obtain ⟨name, hdangles, -⟩ := (instruction_resolve_eq_error hl hd hc).mp hr
    exact absurd hdangles (hn name)

end

/-- Lists that are related part by part. -/
theorem exists_append_of_forall₂ {α β : Type} {R : α → β → Prop} {upper lower : List α}
    {l : List β} (h : List.Forall₂ R (upper ++ lower) l) :
    ∃ x y, l = x ++ y ∧ List.Forall₂ R upper x ∧ List.Forall₂ R lower y := by
  induction upper generalizing l with
  | nil => exact ⟨[], l, rfl, .nil, h⟩
  | cons a upper ih =>
    cases h with
    | cons hab h =>
      obtain ⟨x, y, rfl, hx, hy⟩ := ih h
      exact ⟨_ :: x, y, rfl, .cons hab hx, hy⟩

section
variable {source : Text} {origin : Address} {draft : Layout}

/-- Resolving names fails at the first line whose branch dangles. -/
theorem resolve_of_dangles (hd : layout source origin = .ok draft) {above below : List Text}
    {line name : Text} (hs : sourceLines source = above ++ line :: below)
    (ha : ∀ other ∈ above, ∀ name, ¬ Dangles source other name) (h : Dangles source line name) :
    draft.resolve = .error (.atLine (above.length + 1) (.undefinedLabel name)) := by
  have hl : LaidOut origin (numberedLines source) draft := layoutLines_laidOut hd
  have hdrafted := (layoutLines_drafted hd).2
  have hcommand : hasCommand (line, above.length + 1) = true :=
    hasCommand_of_branchName? (q := (line, above.length + 1)) h.1
  have hcode : (numberedLines source).filter hasCommand = (above.zipIdx 1).filter hasCommand ++
      (line, above.length + 1) :: (below.zipIdx (above.length + 1 + 1)).filter hasCommand := by
    rw [numberedLines, hs, List.zipIdx_append, List.zipIdx_cons, List.filter_append,
      Nat.add_comm 1 above.length, List.filter_cons_of_pos hcommand]
  have hcarries := hl.instructions
  rw [hcode] at hcarries
  obtain ⟨upper, lower, his, hup, hlow⟩ := exists_append_of_forall₂ hcarries
  obtain ⟨i, rest, hi, -, rfl⟩ := List.forall₂_cons_left_iff.mp hlow
  rw [his] at hdrafted
  rw [Layout.resolve, map_eq_error, mapM_eq_error]
  refine ⟨upper, i, rest, his, fun j hj => ?_, ?_⟩
  · obtain ⟨k, hk, rfl⟩ := List.getElem_of_mem hj
    have hk' := hup.length_eq.symm ▸ hk
    have hmem := (List.mem_filter.mp (List.getElem_mem hk')).1
    exact exists_resolve_of_not_dangles hl (hdrafted _ (List.mem_append_left _ hj))
      (hup.get hk' hk) (ha _ (List.fst_mem_of_mem_zipIdx hmem))
  · exact (instruction_resolve_eq_error hl (hdrafted i (by simp)) hi).mpr ⟨name, h, rfl⟩

theorem assemble_of_dangles (hf : Flawless (sourceLines source)) {above below : List Text}
    {line name : Text} (hs : sourceLines source = above ++ line :: below)
    (ha : ∀ other ∈ above, ∀ name, ¬ Dangles source other name) (h : Dangles source line name)
    (origin : Address) :
    assemble source origin = .error (.atLine (above.length + 1) (.undefinedLabel name)) := by
  obtain ⟨draft, hd⟩ := hf.exists_layoutLines origin
  have hlayout : layout source origin = .ok draft := hd
  have hresolve := resolve_of_dangles hlayout hs ha h
  rw [assemble, hlayout]
  show (draft.resolve >>= fun _ => _) = _
  rw [hresolve]
  rfl

/-- Without dangling branches every name is resolved. -/
theorem exists_resolve_of_flawless (hf : Flawless (sourceLines source))
    (hn : ∀ line ∈ sourceLines source, ∀ name, ¬ Dangles source line name) (origin : Address) :
    ∃ draft l, layout source origin = .ok draft ∧ draft.resolve = .ok l := by
  obtain ⟨draft, hd⟩ := hf.exists_layoutLines origin
  have hlayout : layout source origin = .ok draft := hd
  have hl : LaidOut origin (numberedLines source) draft := layoutLines_laidOut hd
  obtain ⟨is, his⟩ : ∃ is, draft.instructions.mapM (Instruction.resolve draft.labels) = .ok is := by
    refine exists_mapM_eq_ok fun i hi => ?_
    obtain ⟨q, hq, -, hc⟩ := hl.exists_line_of_instruction hi
    exact exists_resolve_of_not_dangles hl ((layoutLines_drafted hd).2 i hi) hc
      (hn q.1 (List.fst_mem_of_mem_zipIdx hq))
  refine ⟨draft, ⟨draft.labels, is⟩, hlayout, ?_⟩
  rw [Layout.resolve, his]
  rfl

end

/-! ## the error of a source -/

/-- the first element with a property -/
theorem exists_first {α : Type} {P : α → Prop} {l : List α} (h : ∃ a ∈ l, P a) :
    ∃ upper a lower, l = upper ++ a :: lower ∧ (∀ b ∈ upper, ¬ P b) ∧ P a := by
  induction l with
  | nil =>
    obtain ⟨a, ha, -⟩ := h
    cases ha
  | cons b l ih =>
    by_cases hb : P b
    · exact ⟨[], b, l, rfl, fun c hc => absurd hc List.not_mem_nil, hb⟩
    · obtain ⟨a, ha, hp⟩ := h
      have hl : ∃ a ∈ l, P a := by
        rcases List.mem_cons.mp ha with rfl | ha
        · exact absurd hp hb
        · exact ⟨a, ha, hp⟩
      obtain ⟨upper, c, lower, rfl, hup, hc⟩ := ih hl
      exact ⟨b :: upper, c, lower, rfl, List.forall_mem_cons.mpr ⟨hb, hup⟩, hc⟩

/-- The error of a source is that of its first line with a flaw, and every source with the same
lines down to this one has it too.  If no line has a flaw, it is that of the first line whose branch
has a name that is neither a label nor a number of 32 bits.  If there is none either, it is that of
the first branch that is too far from its target, and without such a branch the source assembles. -/
theorem assemble_first_error (source : Text) (origin : Address) :
    (¬ Flawless (sourceLines source) → ∃ above line below e,
      sourceLines source = above ++ line :: below ∧ Flawless above ∧ Flaw above line e ∧
      ∀ source' origin' below', sourceLines source' = above ++ line :: below' →
        assemble source' origin' = .error (.atLine (above.length + 1) e)) ∧
    (Flawless (sourceLines source) →
      (∃ line ∈ sourceLines source, ∃ name, Dangles source line name) →
      ∃ above line below name, sourceLines source = above ++ line :: below ∧
        (∀ other ∈ above, ¬ ∃ name, Dangles source other name) ∧ Dangles source line name ∧
        assemble source origin = .error (.atLine (above.length + 1) (.undefinedLabel name))) ∧
    (Flawless (sourceLines source) →
      (¬ ∃ line ∈ sourceLines source, ∃ name, Dangles source line name) →
      ∃ l : Layout, LaidOut origin (numberedLines source) l ∧ (l.labels.map Label.name).Nodup ∧
        Contiguous origin l.instructions ∧
        List.Forall₂ (Linked l.labels) (codeLines source) l.instructions ∧
        (∀ e, assemble source origin = .error e ↔
          ∃ upper i lower t d, l.instructions = upper ++ i :: lower ∧
            (∀ j ∈ upper, ∀ t d, ¬ j.OutOfReach t d) ∧ i.OutOfReach t d ∧
            e = .tooFar i.address t d) ∧
        ((∃ p, assemble source origin = .ok p) ↔
          ∀ i ∈ l.instructions, ∀ t d, ¬ i.OutOfReach t d)) := by
  refine ⟨fun h => ?_, fun hf h => ?_, fun hf h => ?_⟩
  · obtain ⟨l, hl⟩ | ⟨above, line, below, e, hs, ha, he⟩ :=
      layoutLines_or_flaw origin (sourceLines source)
    · exact absurd (flawless_of_layoutLines hl) h
    · exact ⟨above, line, below, e, hs, ha, he, fun source' origin' below' hs' =>
        assemble_of_flaw hs' ha he origin'⟩
  · obtain ⟨above, line, below, hs, ha, name, hn⟩ := exists_first h
    exact ⟨above, line, below, name, hs, ha, hn,
      assemble_of_dangles hf hs (fun other ho => not_exists.mp (ha other ho)) hn origin⟩
  · have hn : ∀ line ∈ sourceLines source, ∀ name, ¬ Dangles source line name :=
      fun line hl name hd => h ⟨line, hl, name, hd⟩
    obtain ⟨draft, l, hd, hl⟩ := exists_resolve_of_flawless hf hn origin
    obtain ⟨hlaid, hnodup⟩ := laidOut_of_resolve hd hl
    obtain ⟨hc, ha⟩ := resolve_assembled hd hl
    refine ⟨l, hlaid, hnodup, hc, forall₂_linked hlaid.instructions ha,
      fun e => assemble_eq_error hd hl, ?_⟩
    constructor
    · rintro ⟨p, hp⟩ i hi t d hfar
      obtain ⟨a, u, c, herr⟩ := (exists_tooFar_iff hd hl).mpr ⟨i, hi, t, d, hfar⟩
      rw [hp] at herr
      cases herr
    · intro hr
      cases hp : assemble source origin with
      | ok p => exact ⟨p, rfl⟩
      | error e =>
        obtain ⟨upper, i, lower, t, d, his, -, hfar, -⟩ := (assemble_eq_error hd hl).mp hp
        exact absurd hfar (hr i (by rw [his]; simp) t d)

/-- a source that is wrong in three ways: a name that stands for nothing, a label defined again, and
a command without an encoding below that -/
def faultySource : Text := "JMP nowhere\na: HLT\na: MOV 1,2".toList

/-- of the faulty source the label is told, from every origin, and without its last line the name -/
theorem assemble_first_error_of_faulty :
    (∃ above line, sourceLines faultySource = above ++ [line] ∧
      Flaw above line (.duplicateLabel "A".toList 2) ∧
      ∀ origin, assemble faultySource origin = .error (.atLine 3 (.duplicateLabel "A".toList 2))) ∧
    ∃ line n name, Dangles "JMP nowhere\na: HLT".toList line name ∧
      assemble "JMP nowhere\na: HLT".toList 0 = .error (.atLine n (.undefinedLabel name)) := by
  constructor
  · have hlayout : layout faultySource 0 = .error (.atLine 3 (.duplicateLabel "A".toList 2)) := by
      decide +kernel
    have hnot : ¬ Flawless (sourceLines faultySource) := by
      intro hf
      obtain ⟨l, hl⟩ := hf.exists_layoutLines 0
      rw [layout, hl] at hlayout
      cases hlayout
    obtain ⟨above, line, below, e, hs, -, he, h⟩ := (assemble_first_error faultySource 0).1 hnot
    have hfirst := h faultySource 0 below hs
    rw [assemble, hlayout] at hfirst
    obtain ⟨hlength, rfl⟩ := AssemblyError.atLine.inj (Except.error.inj hfirst)
    have hcount := congrArg List.length hs
    have hbelow : below.length = 0 := by
      rw [List.length_append, List.length_cons, ← Nat.succ.inj hlength] at hcount
      exact Nat.succ.inj (Nat.add_left_cancel hcount.symm)
    rw [List.length_eq_zero_iff.mp hbelow] at hs
    rw [← hlength] at h
    exact ⟨above, line, hs, he, fun origin => h faultySource origin [] hs⟩
  · have hf : Flawless (sourceLines "JMP nowhere\na: HLT".toList) := by
      obtain ⟨l, hl⟩ : ∃ l, layoutLines 0 1 [] (sourceLines "JMP nowhere\na: HLT".toList) = .ok l :=
        ⟨_, rfl⟩
      exact flawless_of_layoutLines hl
    have hd : ∃ line ∈ sourceLines "JMP nowhere\na: HLT".toList, ∃ name,
        Dangles "JMP nowhere\na: HLT".toList line name :=
      ⟨"JMP nowhere".toList, by decide, "NOWHERE".toList, by decide +kernel, by decide +kernel,
        by decide⟩
    obtain ⟨above, line, below, name, -, -, hn, h⟩ :=
      (assemble_first_error "JMP nowhere\na: HLT".toList 0).2.1 hf hd
    exact ⟨line, _, name, hn, h⟩

end Mini8086
