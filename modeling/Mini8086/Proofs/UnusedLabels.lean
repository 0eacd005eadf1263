import Mini8086.Proofs.CanonicalSource
import Mini8086.Proofs.FirstError

/-!
# Labels that no branch names

While names are resolved, a pass over the instructions can mark the labels that it comes across; the
labels left unmarked are warned about.  A label is looked for before a name is read as a number, so
that a name that is a number marks nothing, and a branch to the address of a label does not mark it
either.

* `Marks`                       what is marked after some of the instructions;
* `Marks.step`, `Marks.run`     one instruction more, and all of them;
* `unmarkedLabels_eq`           the labels left unmarked are those that no branch names;
* `map_unused`                  these labels, read off the lines of the source;
* `nodup_unusedMessages`        no two warnings are equal;
* `unused_labels`               the warnings of a source.
-/

namespace Mini8086

/-! ## the pass that marks -/

/-- the branch with its name replaced by an address, and the name marked if it is that of a label -/
def Instruction.resolveMarking (labels : List Label) (marked : List Text) (i : Instruction) :
    Except AssemblyError (List Text × Instruction) :=
  match i.imm with
  | some (.name name) =>
    if i.mnemonic.isBranch then
      match findLabel? labels name with
      | some d => .ok (name :: marked, i.withImm (some (.value d.address)))
      | none =>
        match readHex? name with
        | some n => .ok (marked, i.withImm (some (.value (n % 0x100000))))
        | none => .error (.atLine i.lineNumber (.undefinedLabel name))
    else .ok (marked, i)
  | _ => .ok (marked, i)

/-- the instructions resolved one after the other, with the names that are marked -/
def resolveAll (labels : List Label) : List Text → List Instruction →
    Except AssemblyError (List Text × List Instruction)
  | marked, [] => .ok (marked, [])
  | marked, i :: is => do
    let r ← i.resolveMarking labels marked
    let s ← resolveAll labels r.1 is
    return (s.1, r.2 :: s.2)

/-- the labels of a source that are not marked when all names are resolved -/
def unmarkedLabels (source : Text) (origin : Address) : List Label :=
  match layout source origin with
  | .error _ => []
  | .ok draft =>
    match resolveAll draft.labels [] draft.instructions with
    | .error _ => []
    | .ok (marked, _) => draft.labels.filter fun d => d.name ∉ marked

/-- The names `marked` are those of labels that the instructions name. -/
def Marks (labels : List Label) (is : List Instruction) (marked : List Text) : Prop :=
  ∀ name, name ∈ marked ↔ name ∈ labels.map Label.name ∧ ∃ i ∈ is, i.names name = true

section
variable {labels : List Label} {is js done : List Instruction} {i j : Instruction}
  {marked marked' : List Text}

theorem names_eq_true {name : Text} :
    i.names name = true ↔ i.mnemonic.isBranch = true ∧ i.imm = some (.name name) := by
  rw [Instruction.names, Bool.and_eq_true, beq_iff_eq]

theorem marks_nil (labels : List Label) : Marks labels [] [] := by
  intro name
  refine ⟨fun h => absurd h List.not_mem_nil, ?_⟩
  rintro ⟨-, i, hi, -⟩
  exact absurd hi List.not_mem_nil

/-- An instruction that names no label marks nothing. -/
theorem Marks.skip (h : Marks labels done marked)
    (hi : ∀ name ∈ labels.map Label.name, i.names name = false) :
    Marks labels (done ++ [i]) marked := by
  intro name
  rw [h name]
  refine and_congr_right fun hname => ?_
  constructor
  · rintro ⟨k, hk, hn⟩
    exact ⟨k, List.mem_append_left _ hk, hn⟩
  · rintro ⟨k, hk, hn⟩
    obtain hk | hk := List.mem_append.mp hk
    · exact ⟨k, hk, hn⟩
    · rw [List.mem_singleton.mp hk, hi name hname] at hn
      cases hn

/-- An instruction that names a label marks its name. -/
theorem Marks.mark (h : Marks labels done marked) {name : Text}
    (hname : name ∈ labels.map Label.name) (hi : ∀ other, i.names other = true ↔ other = name) :
    Marks labels (done ++ [i]) (name :: marked) := by
  intro other
  rw [List.mem_cons, h other]
  constructor
  · rintro (rfl | ⟨hother, k, hk, hn⟩)
    · exact ⟨hname, i, List.mem_append_right _ List.mem_cons_self, (hi other).mpr rfl⟩
    · exact ⟨hother, k, List.mem_append_left _ hk, hn⟩
  · rintro ⟨hother, k, hk, hn⟩
    obtain hk | hk := List.mem_append.mp hk
    · exact .inr ⟨hother, k, hk, hn⟩
    · rw [List.mem_singleton.mp hk] at hn
      exact .inl ((hi other).mp hn)

theorem Marks.step (h : Marks labels done marked)
    (hi : i.resolveMarking labels marked = .ok (marked', j)) :
    Marks labels (done ++ [i]) marked' := by
  have hnames (other : Text) : i.names other = true ↔
      i.mnemonic.isBranch = true ∧ i.imm = some (.name other) := names_eq_true
  unfold Instruction.resolveMarking at hi
  split at hi
  · next name himm =>
    split at hi
    · next hb =>
      have hiff : ∀ other, i.names other = true ↔ other = name := by
        intro other
        rw [hnames, himm, Option.some.injEq, Immediate.name.injEq, eq_comm (a := name)]
        exact and_iff_right hb
      split at hi
      · next d hd =>
        cases hi
        obtain ⟨hmem, rfl⟩ := name_of_findLabel? hd
        exact h.mark (List.mem_map_of_mem hmem) hiff
      · next hnone =>
        -- a name that is read as a number is that of no label
        have hskip : ∀ other ∈ labels.map Label.name, i.names other = false := by
          intro other hother
          refine Bool.eq_false_iff.mpr fun hn => ?_
          rw [(hiff other).mp hn] at hother
          exact findLabel?_eq_none.mp hnone hother
        split at hi
        · cases hi
          exact h.skip hskip
        · cases hi
    · next hb =>
      cases hi
      exact h.skip fun other _ => Bool.eq_false_iff.mpr fun hn => hb ((hnames other).mp hn).1
  · next hno =>
    cases hi
    exact h.skip fun other _ => Bool.eq_false_iff.mpr fun hn => hno other ((hnames other).mp hn).2

/-- What is marked after the whole pass, by induction on the instructions that are left. -/
theorem Marks.run (h : Marks labels done marked)
    (his : resolveAll labels marked is = .ok (marked', js)) :
    Marks labels (done ++ is) marked' := by
  induction is generalizing done marked js with
  | nil =>
    cases his
    rw [List.append_nil]
    exact h
  | cons i is ih =>
    obtain ⟨r, hi, his⟩ := bind_eq_ok.mp his
    obtain ⟨s, hrest, hend⟩ := bind_eq_ok.mp his
    cases hend
    have hall := ih (h.step hi) hrest
    rw [List.append_assoc] at hall
    exact hall

/-- Marking aside, an instruction is resolved in the same way. -/
theorem map_resolveMarking (labels : List Label) (marked : List Text) (i : Instruction) :
    (i.resolveMarking labels marked).map Prod.snd = i.resolve labels := by
  unfold Instruction.resolveMarking Instruction.resolve targetOf?
  cases i.imm with
  | none => rfl
  | some imm =>
    cases imm with
    | value n => rfl
    | name name =>
      dsimp only
      by_cases hb : i.mnemonic.isBranch = true
      · rw [if_pos hb, if_pos hb]
        cases findLabel? labels name with
        | some d => rfl
        | none => cases readHex? name <;> rfl
      · rw [if_neg hb, if_neg hb]
        rfl

theorem map_resolveAll (labels : List Label) (marked : List Text) (is : List Instruction) :
    (resolveAll labels marked is).map Prod.snd = is.mapM (Instruction.resolve labels) := by
  induction is generalizing marked with
  | nil => rfl
  | cons i is ih =>
    rw [List.mapM_cons, ← map_resolveMarking labels marked i, resolveAll]
    cases i.resolveMarking labels marked with
    | error e => rfl
    | ok r =>
      show (resolveAll labels r.1 is >>= fun s => .ok (s.1, r.2 :: s.2)).map Prod.snd =
        is.mapM (Instruction.resolve labels) >>= fun js => .ok (r.2 :: js)
      rw [← ih r.1]
      cases resolveAll labels r.1 is <;> rfl

end

/-- The labels left unmarked are those that no branch names. -/
theorem unmarkedLabels_eq (source : Text) (origin : Address) :
    unmarkedLabels source origin = unusedLabels source origin := by
  unfold unmarkedLabels unusedLabels
  cases layout source origin with
  | error e => rfl
  | ok draft =>
    dsimp only
    have hmap := map_resolveAll draft.labels [] draft.instructions
    rw [Layout.resolve, ← hmap]
    cases hall : resolveAll draft.labels [] draft.instructions with
    | error e => rfl
    | ok r =>
      have hmarks := (marks_nil draft.labels).run hall
      rw [List.nil_append] at hmarks
      show draft.labels.filter _ = draft.labels.filter _
      refine List.filter_congr fun d hd => ?_
      have hiff : d.name ∈ r.1 ↔ (draft.instructions.any fun i => i.names d.name) = true := by
        rw [hmarks, List.any_eq_true]
        exact and_iff_right (List.mem_map_of_mem hd)
      rw [decide_not]
      exact congrArg not (Bool.eq_iff_iff.mpr (decide_eq_true_iff.trans hiff))

/-! ## the labels of a source -/

/-- Every line can be laid out, and every name of a branch is a label or a number. -/
def Resolvable (source : Text) : Prop :=
  Flawless (sourceLines source) ∧ ∀ line ∈ sourceLines source, ∀ name, ¬ Dangles source line name

/-- the labels that the lines of a source define and none of its branches names, with the numbers of
their lines -/
def unusedDefinitions (source : Text) : List (Text × Nat) :=
  ((numberedLines source).filterMap labelOfLine?).filter fun q => q.1 ∉ branchNames source

section
variable {source : Text} {origin : Address} {draft : Layout}

theorem mem_branchNames_iff (hd : layout source origin = .ok draft) {name : Text} :
    name ∈ branchNames source ↔ ∃ i ∈ draft.instructions, i.names name = true := by
  have hl : LaidOut origin (numberedLines source) draft := layoutLines_laidOut hd
  have hdrafted := (layoutLines_drafted hd).2
  constructor
  · intro h
    obtain ⟨line, hline, hname⟩ := List.mem_filterMap.mp h
    have hlines : (numberedLines source).map Prod.fst = sourceLines source :=
      List.zipIdx_map_fst ..
    rw [← hlines] at hline
    obtain ⟨q, hq, rfl⟩ := List.mem_map.mp hline
    obtain ⟨i, hi, hc⟩ := hl.exists_instruction_of_line hq (hasCommand_of_branchName? hname)
    obtain ⟨b, hread⟩ := branchName?_eq_some.mp hname
    obtain ⟨hm, hops⟩ := Command.mk.inj (Except.ok.inj (hc.command.symm.trans hread))
    refine ⟨i, hi, names_eq_true.mpr ⟨?_, (hdrafted i hi).imm_of_name hm hops⟩⟩
    rw [hm]
    rfl
  · rintro ⟨i, hi, hn⟩
    exact hl.mem_branchNames hi (hdrafted i hi) (names_eq_true.mp hn).2

theorem map_unused (hd : layout source origin = .ok draft) :
    draft.unused.map (fun d => (d.name, d.line)) = unusedDefinitions source := by
  have hl : LaidOut origin (numberedLines source) draft := layoutLines_laidOut hd
  rw [unusedDefinitions, ← hl.labels, List.filter_map, Layout.unused]
  refine congrArg _ (List.filter_congr fun d _ => ?_)
  show (!draft.instructions.any fun i => i.names d.name) = decide (d.name ∉ branchNames source)
  rw [decide_not]
  refine congrArg not (Bool.eq_iff_iff.mpr ?_)
  rw [List.any_eq_true, decide_eq_true_iff, mem_branchNames_iff hd]

/-- The names of a source are resolved exactly if it is resolvable. -/
theorem resolvable_iff (origin : Address) : Resolvable source ↔
    ∃ draft l, layout source origin = .ok draft ∧ draft.resolve = .ok l := by
  constructor
  · rintro ⟨hf, hn⟩
    exact exists_resolve_of_flawless hf hn origin
  · rintro ⟨draft, l, hd, hl⟩
    refine ⟨flawless_of_layoutLines hd, fun line hline name hdangles => ?_⟩
    obtain ⟨above, other, below, hs, ha, first, hfirst⟩ :=
      exists_first (P := fun line => ∃ name, Dangles source line name)
        ⟨line, hline, name, hdangles⟩
    rw [resolve_of_dangles hd hs (fun other ho => not_exists.mp (ha other ho)) hfirst] at hl
    cases hl

theorem unusedLabels_eq_unused {l : Layout} (hd : layout source origin = .ok draft)
    (hl : draft.resolve = .ok l) : unusedLabels source origin = draft.unused := by
  rw [unusedLabels, hd]
  dsimp only
  rw [hl]

theorem unusedLabels_eq_nil (h : ¬ Resolvable source) (origin : Address) :
    unusedLabels source origin = [] := by
  rw [resolvable_iff origin] at h
  unfold unusedLabels
  cases hd : layout source origin with
  | error e => rfl
  | ok draft =>
    dsimp only
    cases hl : draft.resolve with
    | error e => rfl
    | ok l => exact absurd ⟨draft, l, hd, hl⟩ h

/-- A source that is not resolvable has an error in one of its lines. -/
theorem assemble_of_not_resolvable (h : ¬ Resolvable source) (origin : Address) :
    ∃ n e, assemble source origin = .error (.atLine n e) := by
  by_cases hf : Flawless (sourceLines source)
  · have hdangles : ∃ line ∈ sourceLines source, ∃ name, Dangles source line name := by
      by_contra hno
      exact h ⟨hf, fun line hl name hd => hno ⟨line, hl, name, hd⟩⟩
    obtain ⟨above, line, below, hs, ha, name, hn⟩ := exists_first hdangles
    exact ⟨_, _, assemble_of_dangles hf hs (fun other ho => not_exists.mp (ha other ho)) hn origin⟩
  · obtain ⟨l, hl⟩ | ⟨above, line, below, e, hs, ha, he⟩ :=
      layoutLines_or_flaw origin (sourceLines source)
    · exact absurd (flawless_of_layoutLines hl) hf
    · exact ⟨_, _, assemble_of_flaw hs ha he origin⟩

/-- The names of a resolvable source are resolved, and all that can be wrong is the distance of a
branch from its target. -/
theorem assemble_of_resolvable (h : Resolvable source) (origin : Address) :
    (∃ p, assemble source origin = .ok p) ∨
      ∃ a t d, assemble source origin = .error (.tooFar a t d) := by
  obtain ⟨draft, l, hd, hl⟩ := (resolvable_iff origin).mp h
  cases hp : assemble source origin with
  | ok p => exact .inl ⟨p, rfl⟩
  | error e =>
    obtain ⟨-, i, -, t, d, -, -, -, rfl⟩ := (assemble_eq_error hd hl).mp hp
    exact .inr ⟨_, _, _, rfl⟩

end

/-! ## warnings -/

/-- the warning about a label that is defined on a line -/
def unusedMessage (q : Text × Nat) : String :=
  s!"Label \"{String.ofList q.1}\" on line {q.2} is never used"

theorem map_unusedWarning (labels : List Label) :
    labels.map Label.unusedWarning =
      (labels.map fun d => (d.name, d.line)).map unusedMessage := by
  rw [List.map_map]
  rfl

/-- The name is between the quotation marks of the warning. -/
theorem fst_eq_of_unusedMessage {q r : Text × Nat} (hq : '"' ∉ q.1) (hr : '"' ∉ r.1)
    (h : unusedMessage q = unusedMessage r) : q.1 = r.1 := by
  have htext (q : Text × Nat) : (unusedMessage q).toList = "Label \"".toList ++
      (q.1 ++ '"' :: (" on line ".toList ++ (toString q.2).toList ++ " is never used".toList)) := by
    rw [unusedMessage]
    simp only [String.toList_append, String.toList_ofList, toString, List.append_assoc]
    rfl
  have hlist := congrArg String.toList h
  rw [htext, htext] at hlist
  have hsplit := congrArg (splitFirst? '"') (List.append_cancel_left hlist)
  rw [splitFirst?_append hq, splitFirst?_append hr] at hsplit
  exact (Prod.mk.inj (Option.some.inj hsplit)).1

theorem warnings_perm (source : Text) (origin : Address) :
    (warnings source origin).Perm ((unusedLabels source origin).map Label.unusedWarning) :=
  List.mergeSort_perm _ _

section
variable {source : Text} {origin : Address} {draft : Layout} (hd : layout source origin = .ok draft)
include hd

theorem quote_not_mem_unused {q : Text × Nat} (hq : q ∈ unusedDefinitions source) : '"' ∉ q.1 := by
  rw [← map_unused hd] at hq
  obtain ⟨d, hmem, rfl⟩ := List.mem_map.mp hq
  intro hquote
  have hname := (isName_of_layoutLines hd d (List.mem_of_mem_filter hmem)).1
  exact absurd (isNameChar_of_mem_name hname '"' hquote) (by decide)

theorem nodup_unusedDefinitions : ((unusedDefinitions source).map Prod.fst).Nodup := by
  have hnames := layoutLines_nodup hd List.nodup_nil
  rw [List.nil_append] at hnames
  rw [← map_unused hd, List.map_map]
  exact hnames.sublist (List.filter_sublist.map Label.name)

theorem nodup_unusedMessages : ((unusedDefinitions source).map unusedMessage).Nodup := by
  have hnames := nodup_unusedDefinitions hd
  refine List.Nodup.map_on (fun q hq r hr h => ?_) hnames.of_map
  exact List.inj_on_of_nodup_map hnames hq hr
    (fst_eq_of_unusedMessage (quote_not_mem_unused hd hq) (quote_not_mem_unused hd hr) h)

end

/-- The warnings about unused labels are exact.  A pass that marks the labels which it comes across,
while it resolves the names of branches one after the other, leaves the labels unmarked that are
warned about.  If every line can be laid out and every name is resolved, these are the labels that
lines of the source define and that none of its branches names: there is one warning for each, with
the line that defines it, and this does not depend on whether a branch is too far from its target,
which is all that can then be wrong.  Otherwise the source has another error, and there is no
warning. -/
theorem unused_labels (source : Text) (origin : Address) :
    warnings source origin =
      ((unmarkedLabels source origin).map Label.unusedWarning).mergeSort
        (fun a b => decide (a ≤ b)) ∧
    (Resolvable source ↔
      ∃ draft l, layout source origin = .ok draft ∧ draft.resolve = .ok l) ∧
    (Resolvable source →
      (unusedLabels source origin).map (fun d => (d.name, d.line)) = unusedDefinitions source ∧
      ((unusedDefinitions source).map Prod.fst).Nodup ∧
      (warnings source origin).Perm ((unusedDefinitions source).map unusedMessage) ∧
      (warnings source origin).Nodup ∧
      ((∃ p, assemble source origin = .ok p) ∨
        ∃ a t d, assemble source origin = .error (.tooFar a t d))) ∧
    (¬ Resolvable source →
      unusedLabels source origin = [] ∧ warnings source origin = [] ∧
      ∃ n e, assemble source origin = .error (.atLine n e)) := by
  refine ⟨?_, resolvable_iff origin, fun h => ?_, fun h => ?_⟩
  · rw [unmarkedLabels_eq]
    rfl
  · obtain ⟨draft, l, hd, hl⟩ := (resolvable_iff origin).mp h
    have hunused : (unusedLabels source origin).map (fun d => (d.name, d.line)) =
        unusedDefinitions source := by
      rw [unusedLabels_eq_unused hd hl, map_unused hd]
    have hperm := warnings_perm source origin
    rw [map_unusedWarning, hunused] at hperm
    exact ⟨hunused, nodup_unusedDefinitions hd, hperm,
      hperm.nodup_iff.mpr (nodup_unusedMessages hd), assemble_of_resolvable h origin⟩
  · have hnil := unusedLabels_eq_nil h origin
    refine ⟨hnil, ?_, assemble_of_not_resolvable h origin⟩
    rw [warnings, hnil, List.map_nil, List.mergeSort_nil]

/-- a source with a label that is reached only by its address, another that nothing reaches, one
that a branch names, and a name that is a number far away -/
def reachedSource : Text := "top: NOP\nface: JMP 0x1000\nback: JMP back\n JMP cafe".toList

/-- two labels of the source are not used, although its last branch is too far from its target; the
label of a source with an undefined name is not warned about -/
theorem unused_labels_of_reached :
    assemble reachedSource 0x1000 = .error (.tooFar 0x1005 0xcafe 0xbaf7) ∧
    (warnings reachedSource 0x1000).Perm
      [unusedMessage ("TOP".toList, 1), unusedMessage ("FACE".toList, 2)] ∧
    warnings "a: JMP nowhere".toList 0x1000 = [] := by
  have hlayout : ∃ draft l, layout reachedSource 0x1000 = .ok draft ∧ draft.resolve = .ok l :=
    ⟨_, _, rfl, rfl⟩
  obtain ⟨-, hiff, h, -⟩ := unused_labels reachedSource 0x1000
  have hunused : unusedDefinitions reachedSource = [("TOP".toList, 1), ("FACE".toList, 2)] := by
    decide +kernel
  have hperm := (h (hiff.mpr hlayout)).2.2.1
  rw [hunused] at hperm
  have hno : ¬ Resolvable "a: JMP nowhere".toList := by
    intro hr
    have herr : assemble "a: JMP nowhere".toList 0x1000 =
        .error (.atLine 1 (.undefinedLabel "NOWHERE".toList)) := by decide +kernel
    obtain ⟨p, hp⟩ | ⟨a, t, d, hp⟩ := assemble_of_resolvable hr 0x1000
    · rw [herr] at hp
      cases hp
    · rw [herr] at hp
      cases hp
  exact ⟨by decide +kernel, hperm, ((unused_labels _ 0x1000).2.2.2 hno).2.1⟩

end Mini8086
