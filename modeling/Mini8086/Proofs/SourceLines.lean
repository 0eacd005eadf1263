import Mathlib.Data.List.Nodup
import Mini8086.Proofs.Assembled

/-!
# A program and the lines of its source

What a line contributes to a program can be read off its text: `definedLabel?` is the label that it
defines, `commandText` the command that it carries, and nothing else counts.  `numberedLines` are
the lines of a source with their numbers, `codeLines` those of them that carry a command.

* `LaidOut a ls l`    the layout `l` has one instruction for each command of the numbered lines `ls`
                      and one label for each definition, and a label stands for the address `a` plus
                      the length of the instructions on the lines before it;
* `LaidOut.append`    layouts of lines one below the other;
* `before_eq_take`    the instructions on the lines before a line are the first ones;
* `laidOut_of_assemble`   an assembled program is laid out in this way.

The last theorem says what a program is in terms of its source.
-/

namespace Mini8086

/-! ## what a line says -/

/-- the label that a line defines, in upper case: the part of its text before the first colon -/
def definedLabel? (line : Text) : Option Text :=
  (splitFirst? ':' (statementText line)).map fun p => upper (trim p.1)

/-- the command that a line carries, after its label; empty if it carries none -/
def commandText (line : Text) : Text :=
  match splitFirst? ':' (statementText line) with
  | none => statementText line
  | some p => trim p.2

theorem Command.read?_eq_ok {t : Text} {c : Option Command} :
    Command.read? t = .ok c ↔
      (t = [] ∧ c = none) ∨ t ≠ [] ∧ ∃ d, Command.read t = .ok d ∧ c = some d := by
  unfold Command.read?
  by_cases ht : t = []
  · rw [if_pos ht]
    constructor
    · intro h
      exact .inl ⟨ht, (Except.ok.inj h).symm⟩
    · rintro (⟨-, rfl⟩ | ⟨hne, -⟩)
      · rfl
      · exact absurd ht hne
  · rw [if_neg ht, map_eq_ok]
    constructor
    · rintro ⟨d, hd, hc⟩
      exact .inr ⟨ht, d, hd, hc.symm⟩
    · rintro (⟨hnil, -⟩ | ⟨-, d, hd, hc⟩)
      · exact absurd hnil ht
      · exact ⟨d, hd, hc.symm⟩

/-- A statement is the label and the command of its line, and the text that counts. -/
theorem Statement.read_eq_ok {line : Text} {s : Statement} (h : Statement.read line = .ok s) :
    s.label = definedLabel? line ∧ Command.read? (commandText line) = .ok s.command ∧
      s.text = statementText line := by
  unfold Statement.read at h
  unfold definedLabel? commandText
  dsimp only at h
  split at h
  · next hs =>
    obtain ⟨c, hc, rfl⟩ := map_eq_ok.mp h
    rw [hs]
    exact ⟨rfl, hc, rfl⟩
  · next before after hs =>
    split at h
    · obtain ⟨c, hc, rfl⟩ := map_eq_ok.mp h
      rw [hs]
      exact ⟨rfl, hc, rfl⟩
    · contradiction

/-! ## numbered lines -/

/-- the lines of a source with their numbers, which count from 1 -/
def numberedLines (source : Text) : List (Text × Nat) := (sourceLines source).zipIdx 1

def hasCommand (l : Text × Nat) : Bool := commandText l.1 ≠ []

/-- the lines of a source that carry a command -/
def codeLines (source : Text) : List (Text × Nat) := (numberedLines source).filter hasCommand

/-- the label of a line with the number of the line -/
def labelOfLine? (l : Text × Nat) : Option (Text × Nat) := (definedLabel? l.1).map fun t => (t, l.2)

theorem labelOfLine?_eq_some {l : Text × Nat} {name : Text} {n : Nat} :
    labelOfLine? l = some (name, n) ↔ definedLabel? l.1 = some name ∧ l.2 = n := by
  unfold labelOfLine?
  rw [Option.map_eq_some_iff]
  constructor
  · rintro ⟨t, ht, he⟩
    obtain ⟨rfl, hn⟩ := Prod.mk.inj he
    exact ⟨ht, hn⟩
  · rintro ⟨ht, rfl⟩
    exact ⟨name, ht, rfl⟩

/-- The instruction is what the numbered line says. -/
structure Carries (l : Text × Nat) (i : Instruction) : Prop where
  number : i.lineNumber = l.2
  text : i.line = statementText l.1
  command : Command.read (commandText l.1) = .ok ⟨i.mnemonic, i.operands⟩

/-- the instructions on the lines before line `n` -/
def before (n : Nat) (is : List Instruction) : List Instruction :=
  is.filter fun i => i.lineNumber < n

theorem before_append (n : Nat) (is js : List Instruction) :
    before n (is ++ js) = before n is ++ before n js := List.filter_append ..

theorem before_eq_self {n : Nat} {is : List Instruction} (h : ∀ i ∈ is, i.lineNumber < n) :
    before n is = is :=
  List.filter_eq_self.mpr fun i hi => decide_eq_true (h i hi)

theorem before_eq_nil {n : Nat} {is : List Instruction} (h : ∀ i ∈ is, n ≤ i.lineNumber) :
    before n is = [] :=
  List.filter_eq_nil_iff.mpr fun i hi hlt => Nat.not_lt.mpr (h i hi) (of_decide_eq_true hlt)

/-! ## laying out lines -/

/-- The layout from address `a` of numbered lines. -/
structure LaidOut (a : Address) (ls : List (Text × Nat)) (l : Layout) : Prop where
  instructions : List.Forall₂ Carries (ls.filter hasCommand) l.instructions
  labels : l.labels.map (fun d => (d.name, d.line)) = ls.filterMap labelOfLine?
  addresses : ∀ d ∈ l.labels, d.address = a + codeLength (before d.line l.instructions)

section
variable {a : Address} {ls ls' : List (Text × Nat)} {l x y : Layout}

theorem laidOut_empty (a : Address) : LaidOut a [] .empty :=
  ⟨.nil, rfl, fun _ hd => absurd hd List.not_mem_nil⟩

theorem LaidOut.exists_line_of_instruction (h : LaidOut a ls l) {i : Instruction}
    (hi : i ∈ l.instructions) : ∃ q ∈ ls, hasCommand q = true ∧ Carries q i := by
  obtain ⟨k, hk, rfl⟩ := List.getElem_of_mem hi
  have hk' := h.instructions.length_eq.symm ▸ hk
  obtain ⟨hq, hc⟩ := List.mem_filter.mp (List.getElem_mem hk')
  exact ⟨_, hq, hc, h.instructions.get hk' hk⟩

theorem LaidOut.exists_instruction_of_line (h : LaidOut a ls l) {q : Text × Nat} (hq : q ∈ ls)
    (hc : hasCommand q = true) : ∃ i ∈ l.instructions, Carries q i := by
  obtain ⟨k, hk, rfl⟩ := List.getElem_of_mem (List.mem_filter.mpr ⟨hq, hc⟩)
  have hk' := h.instructions.length_eq ▸ hk
  exact ⟨_, List.getElem_mem hk', h.instructions.get hk hk'⟩

theorem LaidOut.exists_line_of_label (h : LaidOut a ls l) {d : Label} (hd : d ∈ l.labels) :
    ∃ q ∈ ls, definedLabel? q.1 = some d.name ∧ q.2 = d.line := by
  have hm : (d.name, d.line) ∈ ls.filterMap labelOfLine? :=
    h.labels ▸ List.mem_map_of_mem (f := fun d : Label => (d.name, d.line)) hd
  obtain ⟨q, hq, he⟩ := List.mem_filterMap.mp hm
  exact ⟨q, hq, labelOfLine?_eq_some.mp he⟩

theorem LaidOut.exists_label (h : LaidOut a ls l) {q : Text × Nat} {name : Text} (hq : q ∈ ls)
    (hn : definedLabel? q.1 = some name) : ∃ d ∈ l.labels, d.name = name ∧ d.line = q.2 := by
  have hm : (name, q.2) ∈ l.labels.map fun d => (d.name, d.line) := by
    rw [h.labels]
    exact List.mem_filterMap.mpr ⟨q, hq, labelOfLine?_eq_some.mpr ⟨hn, rfl⟩⟩
  obtain ⟨d, hd, he⟩ := List.mem_map.mp hm
  exact ⟨d, hd, Prod.mk.inj he⟩

/-- The layout of lines, followed by that of lines further down from the address reached. -/
theorem LaidOut.append (hx : LaidOut a ls x) (hy : LaidOut (a + x.size) ls' y)
    (hlt : ∀ q ∈ ls, ∀ r ∈ ls', q.2 < r.2) : LaidOut a (ls ++ ls') (x.append y) := by
  refine ⟨?_, ?_, fun d hd => ?_⟩
  · rw [List.filter_append]
    exact List.rel_append hx.instructions hy.instructions
  · simp [hx.labels, hy.labels]
  · rw [Layout.instructions_append, before_append, codeLength_append]
    rw [Layout.labels_append] at hd
    rcases List.mem_append.mp hd with hd | hd
    · -- a label of the upper lines has none of the lower instructions before it
      have hnil : before d.line y.instructions = [] := by
        apply before_eq_nil
        intro i hi
        obtain ⟨q, hq, -, hqd⟩ := hx.exists_line_of_label hd
        obtain ⟨r, hr, -, hri⟩ := hy.exists_line_of_instruction hi
        rw [← hqd, hri.number]
        exact Nat.le_of_lt (hlt q hq r hr)
      simpa [hnil] using hx.addresses d hd
    · -- a label of the lower lines has all of the upper instructions before it
      have hall : before d.line x.instructions = x.instructions := by
        apply before_eq_self
        intro i hi
        obtain ⟨q, hq, -, hqi⟩ := hx.exists_line_of_instruction hi
        obtain ⟨r, hr, -, hrd⟩ := hy.exists_line_of_label hd
        rw [← hrd, hqi.number]
        exact hlt q hq r hr
      rw [hall, hy.addresses d hd, Layout.size_eq, Nat.add_assoc]

end

/-! ## the lines before a line -/

theorem numberedLines_pairwise (source : Text) :
    (numberedLines source).Pairwise fun q r => q.2 < r.2 := by
  rw [← List.pairwise_map, numberedLines, List.zipIdx_map_snd]
  exact List.pairwise_lt_range' 1

theorem forall₂_carries_lineNumber {ls : List (Text × Nat)} {is : List Instruction}
    (h : List.Forall₂ Carries ls is) : is.map (fun i => i.lineNumber) = ls.map Prod.snd := by
  induction h with
  | nil => rfl
  | cons hq _ ih => rw [List.map_cons, List.map_cons, hq.number, ih]

/-- Instructions have ascending line numbers if their lines have. -/
theorem LaidOut.pairwise_lineNumber {a : Address} {ls : List (Text × Nat)} {l : Layout}
    (h : LaidOut a ls l) (hls : ls.Pairwise fun q r => q.2 < r.2) :
    l.instructions.Pairwise fun i j => i.lineNumber < j.lineNumber := by
  rw [← List.pairwise_map, forall₂_carries_lineNumber h.instructions, List.pairwise_map]
  exact hls.filter _

/-- the instructions before a line are as many as the lines before it that carry a command -/
theorem LaidOut.length_before {a : Address} {ls : List (Text × Nat)} {l : Layout}
    (h : LaidOut a ls l) (n : Nat) :
    (before n l.instructions).length = ((ls.filter hasCommand).filter fun q => q.2 < n).length := by
  have hnum := congrArg (fun ns => (ns.filter (· < n)).length)
    (forall₂_carries_lineNumber h.instructions)
  rw [List.filter_map, List.filter_map, List.length_map, List.length_map] at hnum
  exact hnum

theorem before_cons_of_lt {n : Nat} {i : Instruction} (h : i.lineNumber < n)
    (is : List Instruction) : before n (i :: is) = i :: before n is :=
  List.filter_cons_of_pos (decide_eq_true h)

theorem before_cons_eq_nil {n : Nat} {i : Instruction} {is : List Instruction}
    (h : n ≤ i.lineNumber) (his : ∀ j ∈ is, i.lineNumber < j.lineNumber) :
    before n (i :: is) = [] := by
  apply before_eq_nil
  intro j hj
  rcases List.mem_cons.mp hj with rfl | hj
  · exact h
  · exact Nat.le_trans h (Nat.le_of_lt (his j hj))

section
variable {is : List Instruction} (h : is.Pairwise fun i j => i.lineNumber < j.lineNumber)
include h

/-- With ascending line numbers the instructions before a line are the first ones. -/
theorem before_eq_take (n : Nat) : before n is = is.take (before n is).length := by
  induction h with
  | nil => rfl
  | @cons i is hi _ ih =>
    by_cases hlt : i.lineNumber < n
    · rw [before_cons_of_lt hlt, List.length_cons, List.take_succ_cons, ← ih]
    · rw [before_cons_eq_nil (Nat.le_of_not_lt hlt) hi]
      rfl

theorem lt_length_before_iff {n k : Nat} {i : Instruction} (hi : is[k]? = some i) :
    k < (before n is).length ↔ i.lineNumber < n := by
  induction h generalizing k with
  | nil => cases hi
  | @cons j is hj _ ih =>
    by_cases hlt : j.lineNumber < n
    · rw [before_cons_of_lt hlt, List.length_cons]
      cases k with
      | zero =>
        cases hi
        exact ⟨fun _ => hlt, fun _ => Nat.succ_pos _⟩
      | succ k =>
        rw [Nat.succ_lt_succ_iff]
        exact ih hi
    · have hle := Nat.le_of_not_lt hlt
      rw [before_cons_eq_nil hle hj]
      refine ⟨fun hk => absurd hk (Nat.not_lt_zero k), fun hin => ?_⟩
      have hji : j.lineNumber ≤ i.lineNumber := by
        rcases List.mem_cons.mp (List.mem_of_getElem? hi) with rfl | hm
        · exact Nat.le_refl _
        · exact Nat.le_of_lt (hj i hm)
      exact absurd (Nat.lt_of_le_of_lt hji hin) hlt

end

/-! ## the layout of a source -/

theorem layoutLabel_eq_ok {a : Address} {n : Nat} {seen labels : List Label} {o : Option Text} :
    layoutLabel a n seen o = .ok labels ↔ (∀ name, o = some name → findLabel? seen name = none) ∧
      labels = (o.map fun name => ⟨name, a, n⟩).toList := by
  unfold layoutLabel
  cases o with
  | none =>
    constructor
    · intro h
      refine ⟨fun name hn => ?_, (Except.ok.inj h).symm⟩
      cases hn
    · rintro ⟨-, rfl⟩
      rfl
  | some name =>
    dsimp only
    cases hf : findLabel? seen name with
    | none =>
      constructor
      · intro h
        refine ⟨?_, (Except.ok.inj h).symm⟩
        intro m hm
        cases hm
        exact hf
      · rintro ⟨-, rfl⟩
        rfl
    | some previous =>
      refine ⟨(nomatch ·), fun h => ?_⟩
      have hnone := h.1 name rfl
      rw [hf] at hnone
      cases hnone

theorem layoutCommand_carries {a : Address} {n : Nat} {line : Text} {c : Option Command}
    {is : List Instruction} (h : layoutCommand a n (statementText line) c = .ok is)
    (hc : Command.read? (commandText line) = .ok c) :
    List.Forall₂ Carries ([(line, n)].filter hasCommand) is ∧ ∀ i ∈ is, i.lineNumber = n := by
  obtain ⟨rfl, rfl⟩ | ⟨d, enc, rfl, -, rfl⟩ := layoutCommand_eq_ok h
  · have ht : commandText line = [] := by
      obtain ⟨ht, -⟩ | ⟨-, d, -, hd⟩ := Command.read?_eq_ok.mp hc
      · exact ht
      · cases hd
    have hnone : ¬ hasCommand (line, n) = true := fun hs => of_decide_eq_true hs ht
    rw [List.filter_cons_of_neg hnone]
    exact ⟨.nil, fun i hi => absurd hi List.not_mem_nil⟩
  · obtain ⟨-, hd⟩ | ⟨ht, e, he, hd⟩ := Command.read?_eq_ok.mp hc
    · cases hd
    · cases hd
      have hsome : hasCommand (line, n) = true := decide_eq_true ht
      rw [List.filter_cons_of_pos hsome]
      refine ⟨.cons ⟨rfl, rfl, he⟩ .nil, fun i hi => ?_⟩
      rw [List.mem_singleton.mp hi]

theorem layoutLine_laidOut {a : Address} {n : Nat} {seen : List Label} {line : Text} {l : Layout}
    (h : layoutLine a n seen line = .ok l) : LaidOut a [(line, n)] l := by
  obtain ⟨s, hs, hl, hi⟩ := layoutLine_eq_ok.mp h
  obtain ⟨hlabel, hcommand, htext⟩ := Statement.read_eq_ok hs
  have hlabels := (layoutLabel_eq_ok.mp hl).2
  rw [hlabel] at hlabels
  rw [htext] at hi
  obtain ⟨hcarries, hnumber⟩ := layoutCommand_carries hi hcommand
  refine ⟨hcarries, ?_, fun d hd => ?_⟩
  · rw [hlabels]
    show _ = (labelOfLine? (line, n)).toList
    unfold labelOfLine?
    cases definedLabel? line <;> rfl
  · have hd' : d.address = a ∧ d.line = n := by
      rw [hlabels] at hd
      obtain ⟨name, -, rfl⟩ := Option.map_eq_some_iff.mp (Option.mem_toList.mp hd)
      exact ⟨rfl, rfl⟩
    -- the instruction of the line itself does not count
    have hnil : before d.line l.instructions = [] :=
      before_eq_nil fun i hi => by rw [hd'.2, hnumber i hi]
    simpa [hnil] using hd'.1

theorem layoutLines_laidOut {a : Address} {n : Nat} {seen : List Label} {lines : List Text}
    {l : Layout} (h : layoutLines a n seen lines = .ok l) : LaidOut a (lines.zipIdx n) l := by
  induction lines generalizing a n seen l with
  | nil =>
    cases h
    exact laidOut_empty a
  | cons line lines ih =>
    obtain ⟨head, tail, hh, ht, rfl⟩ := layoutLines_cons_eq_ok.mp h
    refine (layoutLine_laidOut hh).append (ih ht) fun q hq r hr => ?_
    rw [List.mem_singleton.mp hq]
    exact List.le_snd_of_mem_zipIdx hr

/-! ## one label for each name -/

theorem findLabel?_eq_none {labels : List Label} {name : Text} :
    findLabel? labels name = none ↔ name ∉ labels.map Label.name := by
  unfold findLabel?
  rw [List.find?_eq_none, List.mem_map, not_exists]
  refine forall_congr' fun d => ?_
  rw [decide_eq_true_iff, not_and]

theorem name_of_findLabel? {labels : List Label} {name : Text} {d : Label}
    (h : findLabel? labels name = some d) : d ∈ labels ∧ d.name = name := by
  unfold findLabel? at h
  exact ⟨List.mem_of_find?_eq_some h, by simpa using List.find?_some h⟩

theorem findLabel?_eq_some {labels : List Label} (h : (labels.map Label.name).Nodup) {name : Text}
    {d : Label} : findLabel? labels name = some d ↔ d ∈ labels ∧ d.name = name := by
  refine ⟨name_of_findLabel?, ?_⟩
  rintro ⟨hd, rfl⟩
  cases hf : findLabel? labels d.name with
  | none => exact absurd (List.mem_map_of_mem hd) (findLabel?_eq_none.mp hf)
  | some e =>
    obtain ⟨he, hname⟩ := name_of_findLabel? hf
    rw [List.inj_on_of_nodup_map h he hd hname]

theorem layoutLines_nodup {a : Address} {n : Nat} {seen : List Label} {lines : List Text}
    {l : Layout} (h : layoutLines a n seen lines = .ok l) (hs : (seen.map Label.name).Nodup) :
    ((seen ++ l.labels).map Label.name).Nodup := by
  induction lines generalizing a n seen l with
  | nil =>
    cases h
    rw [Layout.empty, List.append_nil]
    exact hs
  | cons line lines ih =>
    obtain ⟨head, tail, hh, ht, rfl⟩ := layoutLines_cons_eq_ok.mp h
    rw [Layout.labels_append, ← List.append_assoc]
    apply ih ht
    obtain ⟨s, -, hl, -⟩ := layoutLine_eq_ok.mp hh
    obtain ⟨hnew, hlabels⟩ := layoutLabel_eq_ok.mp hl
    rw [hlabels]
    cases hlabel : s.label with
    | none =>
      show ((seen ++ []).map Label.name).Nodup
      rw [List.append_nil]
      exact hs
    | some name =>
      show ((seen ++ [(⟨name, a, n⟩ : Label)]).map Label.name).Nodup
      rw [List.map_append, List.map_singleton]
      exact hs.append (List.nodup_singleton _)
        (List.disjoint_singleton.mpr (findLabel?_eq_none.mp (hnew name hlabel)))

/-! ## after the names are resolved -/

/-- the instructions without the numbers after their opcodes -/
def blanked (is : List Instruction) : List Instruction := is.map fun i => i.withImm none

theorem codeLength_blanked (is : List Instruction) : codeLength (blanked is) = codeLength is :=
  codeLength_map (fun i => i.withImm none) (fun _ => rfl) is

theorem before_blanked (n : Nat) (is : List Instruction) :
    before n (blanked is) = blanked (before n is) := List.filter_map

theorem blanked_resolve {labels : List Label} {is js : List Instruction}
    (hd : ∀ i ∈ is, i.Drafted) (h : List.Forall₂ (fun i j => i.resolve labels = .ok j) is js) :
    blanked js = blanked is := by
  induction h with
  | nil => rfl
  | @cons i j is js hij _ ih =>
    obtain ⟨imm, rfl, -⟩ := Instruction.resolve_eq_ok (hd i List.mem_cons_self) hij
    exact congrArg (i.withImm none :: ·) (ih fun i hi => hd i (List.mem_cons_of_mem _ hi))

theorem forall₂_carries_blanked {ls : List (Text × Nat)} {is : List Instruction} :
    List.Forall₂ Carries ls (blanked is) ↔ List.Forall₂ Carries ls is := by
  unfold blanked
  rw [List.forall₂_map_right_iff]
  constructor
  · exact List.Forall₂.imp fun _ _ h => ⟨h.number, h.text, h.command⟩
  · exact List.Forall₂.imp fun _ _ h => ⟨h.number, h.text, h.command⟩

/-- Resolving names changes nothing of a layout that its source decides line by line. -/
theorem LaidOut.of_blanked {a : Address} {ls : List (Text × Nat)} {x y : Layout}
    (h : LaidOut a ls x) (hl : y.labels = x.labels)
    (hi : blanked y.instructions = blanked x.instructions) : LaidOut a ls y := by
  refine ⟨?_, hl ▸ h.labels, fun d hd => ?_⟩
  · rw [← forall₂_carries_blanked, hi, forall₂_carries_blanked]
    exact h.instructions
  · rw [h.addresses d (hl ▸ hd), ← codeLength_blanked, ← before_blanked, ← hi, before_blanked,
      codeLength_blanked]

theorem laidOut_of_resolve {source : Text} {origin : Address} {draft l : Layout}
    (hd : layout source origin = .ok draft) (hl : draft.resolve = .ok l) :
    LaidOut origin (numberedLines source) l ∧ (l.labels.map Label.name).Nodup := by
  obtain ⟨hlabels, hi⟩ := Layout.resolve_eq_ok.mp hl
  have hdrafted := (layoutLines_drafted hd).2
  refine ⟨(layoutLines_laidOut hd).of_blanked hlabels (blanked_resolve hdrafted hi), ?_⟩
  rw [hlabels]
  exact layoutLines_nodup hd List.nodup_nil

theorem laidOut_of_assemble {source : Text} {origin : Address} {p : Program}
    (h : assemble source origin = .ok p) :
    LaidOut origin (numberedLines source) ⟨p.labels, p.instructions⟩ ∧
      (p.labels.map Label.name).Nodup := by
  obtain ⟨draft, l, listing, hd, hl, -, rfl⟩ := assemble_eq_ok.mp h
  exact laidOut_of_resolve hd hl

/-! ## addresses -/

theorem Contiguous.le_address {a : Address} {is : List Instruction} (hc : Contiguous a is)
    {i : Instruction} (hi : i ∈ is) : a ≤ i.address := by
  obtain ⟨k, hk⟩ := List.getElem?_of_mem hi
  rw [hc.address_eq hk]
  exact Nat.le_add_right _ _

/-- Instructions in a row that are not empty have ascending addresses. -/
theorem Contiguous.pairwise_lt {a : Address} {is : List Instruction} (hc : Contiguous a is)
    (hl : ∀ i ∈ is, 1 ≤ i.length) : is.Pairwise fun i j => i.address < j.address := by
  induction is generalizing a with
  | nil => exact .nil
  | cons i is ih =>
    refine .cons (fun j hj => ?_) (ih hc.2 fun j hj => hl j (List.mem_cons_of_mem _ hj))
    calc i.address = a := hc.1
      _ < a + i.length := Nat.lt_add_of_pos_right (hl i List.mem_cons_self)
      _ ≤ j.address := hc.2.le_address hj

theorem sum_length (is : List Instruction) :
    (is.map fun i => i.length).sum = codeLength is := by
  induction is with
  | nil => rfl
  | cons i is ih => simp [ih]

/-! ## programs -/

/-- The listing entry of an instruction. -/
structure Lists (i : Instruction) (e : Entry) : Prop where
  address : e.address = i.address
  line : e.line = i.line
  bytes : i.emit? = some e.bytes
  length : e.bytes.length = i.length

theorem Program.Assembled.forall₂_lists {p : Program} (h : p.Assembled) :
    List.Forall₂ Lists p.instructions p.listing := by
  rw [h.listing, List.forall₂_map_right_iff, List.forall₂_same]
  intro i hi
  obtain ⟨hb, hl⟩ := (h.instructions i hi).emit?
  exact ⟨rfl, rfl, hb, hl⟩

/-- A label of a program is found under its name, at the address that its line has reached. -/
theorem LaidOut.findAddress_eq_some {a b : Address} {ls : List (Text × Nat)} {l : Layout}
    (h : LaidOut a ls l) (hn : (l.labels.map Label.name).Nodup) {name : Text} :
    (findLabel? l.labels name).map Label.address = some b ↔ ∃ line n, (line, n) ∈ ls ∧
      definedLabel? line = some name ∧ b = a + codeLength (before n l.instructions) := by
  rw [Option.map_eq_some_iff]
  constructor
  · rintro ⟨d, hd, rfl⟩
    obtain ⟨hmem, rfl⟩ := name_of_findLabel? hd
    obtain ⟨⟨line, n⟩, hq, hname, hline⟩ := h.exists_line_of_label hmem
    change n = d.line at hline
    subst hline
    exact ⟨line, d.line, hq, hname, h.addresses d hmem⟩
  · rintro ⟨line, n, hq, hname, rfl⟩
    obtain ⟨d, hd, rfl, hline⟩ := h.exists_label hq hname
    change d.line = n at hline
    subst hline
    exact ⟨d, (findLabel?_eq_some hn).mpr ⟨hd, rfl⟩, h.addresses d hd⟩

/-- An assembled program is its source: one instruction after the other for the lines that carry a
command, from the origin without gaps, each with its entry and as many bytes as it is long; and one
label for each definition, at the origin plus the length of the instructions above its line. -/
theorem program_of_source {source : Text} {origin : Address} {p : Program}
    (h : assemble source origin = .ok p) :
    List.Forall₂ Carries (codeLines source) p.instructions ∧
    (∀ i, p.instructions[0]? = some i → i.address = origin) ∧
    (∀ k i j, p.instructions[k]? = some i → p.instructions[k + 1]? = some j →
      j.address = i.address + i.length) ∧
    p.instructions.Pairwise (fun i j => i.address < j.address) ∧
    List.Forall₂ Lists p.instructions p.listing ∧
    (∀ i ∈ p.instructions, 1 ≤ i.length ∧ i.length ≤ 4) ∧
    p.bytes.length = (p.instructions.map fun i => i.length).sum ∧
    p.labels.map (fun d => (d.name, d.line)) = (numberedLines source).filterMap labelOfLine? ∧
    (p.labels.map Label.name).Nodup ∧
    ∀ name a, (findLabel? p.labels name).map Label.address = some a ↔
      ∃ line n, (line, n) ∈ numberedLines source ∧ definedLabel? line = some name ∧
        a = origin + codeLength (before n p.instructions) := by
  have ha := (assembled_of_assemble h).2
  obtain ⟨hc, hpos⟩ := contiguous_of_assemble h
  obtain ⟨hl, hn⟩ := laidOut_of_assemble h
  refine ⟨hl.instructions, fun i hi => ?_, fun k i j hi hj => ?_, ?_, ha.forall₂_lists,
    fun i hi => ?_, ?_, hl.labels, hn, fun name a => hl.findAddress_eq_some hn⟩
  · rw [hc.address_eq hi, addressAt_zero]
  · rw [hc.address_eq hj, ← hc.nextAddress_eq hi, Instruction.nextAddress]
  · exact hc.pairwise_lt hpos
  · exact ⟨hpos i hi, (ha.instructions i hi).length_le⟩
  · rw [ha.length_bytes, sum_length]

/-- a source that counts `CX` down, with a label and a comment -/
def countingSource : Text := "; count down\ntop: INC AX ; once more\n  LOOP top".toList

def countingProgram : Program where
  origin := 0x100
  instructions := [
    { opcode := [0x40], length := 1, imm := none, address := 0x100, mnemonic := .unary .inc,
      operands := [.reg (.word .ax)], line := "top: INC AX".toList, lineNumber := 2 },
    { opcode := [0xe2], length := 2, imm := some (.value 0x100), address := 0x101,
      mnemonic := .branch .loop, operands := [.label "TOP".toList], line := "LOOP top".toList,
      lineNumber := 3 }]
  listing := [⟨0x100, [0x40], "top: INC AX".toList⟩, ⟨0x101, [0xe2, 0xfd], "LOOP top".toList⟩]
  labels := [⟨"TOP".toList, 0x100, 2⟩]

theorem assemble_countingSource : assemble countingSource 0x100 = .ok countingProgram := by
  decide +kernel

theorem countingProgram_of_source : assemble countingSource 0x100 = .ok countingProgram ∧
    List.Forall₂ Carries (codeLines countingSource) countingProgram.instructions ∧
    countingProgram.bytes.length = 3 ∧
    ∃ line n, (line, n) ∈ numberedLines countingSource ∧
      definedLabel? line = some "TOP".toList ∧
      0x100 = 0x100 + codeLength (before n countingProgram.instructions) := by
  obtain ⟨hi, -, -, -, -, -, hb, -, -, hl⟩ := program_of_source assemble_countingSource
  exact ⟨assemble_countingSource, hi, hb, (hl "TOP".toList 0x100).mp rfl⟩

end Mini8086
