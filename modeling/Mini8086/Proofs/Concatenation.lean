import Mini8086.Proofs.BranchTargets

/-!
# Sources one below the other

Two sources with a line feed between them are one source.  What a layout is depends on the lines
above it in three ways: they decide its address, they count in its line numbers, and their labels
are in sight.  `Layout.down k l` is the layout `l` with `k` more lines above it.

* `layoutLines_append`   lines are laid out part by part, each from the address and below the labels
                         that the part above it leaves;
* `layoutLines_down`     more lines above change the line numbers and nothing else, unless they
                         define a label that is defined here too;
* `Separate`             two sources of which neither defines a label that the other one defines, or
                         takes for a number;
* `resolve_append`       each of them finds the targets that it has on its own;
* `assemble_append`      the program of the two is the one program followed by the other.
-/

namespace Mini8086

/-! ## lines put on top -/

def Label.down (k : Nat) (d : Label) : Label := { d with line := d.line + k }

def Instruction.down (k : Nat) (i : Instruction) : Instruction :=
  { i with lineNumber := i.lineNumber + k }

def Layout.down (k : Nat) (l : Layout) : Layout :=
  ⟨l.labels.map (Label.down k), l.instructions.map (Instruction.down k)⟩

@[simp] theorem codeLength_down (k : Nat) (is : List Instruction) :
    codeLength (is.map (Instruction.down k)) = codeLength is :=
  codeLength_map (Instruction.down k) (fun _ => rfl) is

@[simp] theorem Layout.size_down (k : Nat) (l : Layout) : (l.down k).size = l.size :=
  codeLength_down k l.instructions

theorem Layout.append_down (k : Nat) (x y : Layout) :
    (x.append y).down k = (x.down k).append (y.down k) := by
  simp [Layout.down, Layout.append]

/-! ## labels of both -/

section
variable {xs ys : List Label} {name : Text}

theorem findLabel?_append :
    findLabel? (xs ++ ys) name = (findLabel? xs name).or (findLabel? ys name) :=
  List.find?_append

theorem findLabel?_append_eq_none :
    findLabel? (xs ++ ys) name = none ↔ findLabel? xs name = none ∧ findLabel? ys name = none := by
  rw [findLabel?_append, Option.or_eq_none_iff]

theorem findLabel?_down (k : Nat) :
    findLabel? (xs.map (Label.down k)) name = (findLabel? xs name).map (Label.down k) :=
  List.find?_map

theorem findLabel?_down_eq_none (k : Nat) :
    findLabel? (xs.map (Label.down k)) name = none ↔ findLabel? xs name = none := by
  rw [findLabel?_down, Option.map_eq_none_iff]

theorem targetOf?_down (k : Nat) : targetOf? (xs.map (Label.down k)) name = targetOf? xs name := by
  unfold targetOf?
  rw [findLabel?_down]
  cases findLabel? xs name with
  | none => rfl
  | some d => rfl

/-- labels further down do not count for a name that is a label above, or is none below -/
theorem targetOf?_append_left (h : findLabel? xs name = none → findLabel? ys name = none) :
    targetOf? (xs ++ ys) name = targetOf? xs name := by
  unfold targetOf?
  rw [findLabel?_append]
  cases hx : findLabel? xs name with
  | none => rw [h hx, Option.none_or]
  | some d => rfl

theorem targetOf?_append_right (h : findLabel? xs name = none) :
    targetOf? (xs ++ ys) name = targetOf? ys name := by
  unfold targetOf?
  rw [findLabel?_append, h, Option.none_or]

end

/-! ## layouts -/

theorem layoutCommand_down {a : Address} {n : Nat} {text : Text} {c : Option Command}
    {is : List Instruction} (k : Nat) (h : layoutCommand a n text c = .ok is) :
    layoutCommand a (n + k) text c = .ok (is.map (Instruction.down k)) := by
  unfold layoutCommand at h ⊢
  cases c with
  | none =>
    cases h
    rfl
  | some c =>
    dsimp only at h ⊢
    cases henc : encode c.mnemonic c.operands with
    | error e =>
      rw [henc] at h
      cases h
    | ok enc =>
      rw [henc] at h
      cases h
      rfl

section
variable {a : Address} {n : Nat} {seen above : List Label}

/-- A line with `k` more lines above it that define the labels `above`. -/
theorem layoutLine_down {line : Text} {l : Layout} (k : Nat)
    (h : layoutLine a n seen line = .ok l)
    (hnew : ∀ name, definedLabel? line = some name → findLabel? above name = none) :
    layoutLine a (n + k) (above ++ seen.map (Label.down k)) line = .ok (l.down k) := by
  obtain ⟨s, hs, hl, hi⟩ := layoutLine_eq_ok.mp h
  obtain ⟨hseen, hlabels⟩ := layoutLabel_eq_ok.mp hl
  refine layoutLine_eq_ok.mpr ⟨s, hs, layoutLabel_eq_ok.mpr ⟨fun name hn => ?_, ?_⟩,
    layoutCommand_down k hi⟩
  · rw [findLabel?_append_eq_none, findLabel?_down_eq_none]
    exact ⟨hnew name ((Statement.read_eq_ok hs).1 ▸ hn), hseen name hn⟩
  · show l.labels.map (Label.down k) = _
    rw [hlabels]
    cases s.label with
    | none => rfl
    | some name => rfl

theorem layoutLines_down {lines : List Text} {l : Layout} (k : Nat)
    (h : layoutLines a n seen lines = .ok l)
    (hnew : ∀ name ∈ lines.filterMap definedLabel?, findLabel? above name = none) :
    layoutLines a (n + k) (above ++ seen.map (Label.down k)) lines = .ok (l.down k) := by
  induction lines generalizing a n seen l with
  | nil =>
    cases h
    rfl
  | cons line lines ih =>
    obtain ⟨head, tail, hh, ht, rfl⟩ := layoutLines_cons_eq_ok.mp h
    have hline : ∀ name, definedLabel? line = some name → findLabel? above name = none := by
      intro name hn
      apply hnew
      rw [List.filterMap_cons_some hn]
      exact List.mem_cons_self
    have hlines : ∀ name ∈ lines.filterMap definedLabel?, findLabel? above name = none := by
      intro name hn
      apply hnew
      obtain ⟨x, hx, hxn⟩ := List.mem_filterMap.mp hn
      exact List.mem_filterMap.mpr ⟨x, List.mem_cons_of_mem _ hx, hxn⟩
    refine layoutLines_cons_eq_ok.mpr
      ⟨head.down k, tail.down k, layoutLine_down k hh hline, ?_, (head.append_down k tail).symm⟩
    have hd := ih ht hlines
    rw [List.map_append, ← List.append_assoc, Nat.add_right_comm] at hd
    rw [Layout.size_down]
    exact hd

theorem layoutLines_append {lines lines' : List Text} {x y : Layout}
    (hx : layoutLines a n seen lines = .ok x)
    (hy : layoutLines (a + x.size) (n + lines.length) (seen ++ x.labels) lines' = .ok y) :
    layoutLines a n seen (lines ++ lines') = .ok (x.append y) := by
  induction lines generalizing a n seen x with
  | nil =>
    cases hx
    rw [Layout.empty, List.append_nil] at hy
    exact hy
  | cons line lines ih =>
    obtain ⟨head, tail, hh, ht, rfl⟩ := layoutLines_cons_eq_ok.mp hx
    refine layoutLines_cons_eq_ok.mpr ⟨head, tail.append y, hh, ih ht ?_, ?_⟩
    · simpa [Nat.add_assoc, Nat.add_comm 1] using hy
    · simp [Layout.append]

end

/-! ## two sources -/

/-- the name that the branch on a line has as its operand -/
def branchName? (line : Text) : Option Text :=
  match Command.read (commandText line) with
  | .ok ⟨.branch _, [.label name]⟩ => some name
  | _ => none

/-- the names that the branches of a source have as their operands -/
def branchNames (source : Text) : List Text := (sourceLines source).filterMap branchName?

/-- No label is defined by both sources, and no branch of one of them has a name as its operand that
is no label there but is one in the other. -/
structure Separate (upper lower : Text) : Prop where
  labels : (definedLabels upper).Disjoint (definedLabels lower)
  ofUpper : ∀ name ∈ branchNames upper, name ∉ definedLabels upper → name ∉ definedLabels lower
  ofLower : ∀ name ∈ branchNames lower, name ∉ definedLabels lower → name ∉ definedLabels upper

theorem sourceLines_append (upper lower : Text) :
    sourceLines (upper ++ '\n' :: lower) = sourceLines upper ++ sourceLines lower :=
  pieces_append '\n' upper lower

theorem length_sourceLines (source : Text) :
    (sourceLines source).length = source.count '\n' + 1 := length_pieces '\n' source

/-- the name of an unresolved branch is one of the source -/
theorem LaidOut.mem_branchNames {a : Address} {source : Text} {l : Layout}
    (h : LaidOut a (numberedLines source) l) {i : Instruction} (hi : i ∈ l.instructions)
    (hd : i.Drafted) {name : Text} (hn : i.imm = some (.name name)) :
    name ∈ branchNames source := by
  obtain ⟨b, hm, hops⟩ := hd.operands_of_name hn
  obtain ⟨q, hq, -, hc⟩ := h.exists_line_of_instruction hi
  have hread := hc.command
  rw [hm, hops] at hread
  refine List.mem_filterMap.mpr ⟨q.1, List.fst_mem_of_mem_zipIdx hq, ?_⟩
  rw [branchName?, hread]

/-! ## targets -/

theorem Resolves.congr {xs ys : List Label} {imm after : Option Immediate}
    (h : Resolves xs imm after)
    (hxy : ∀ name, imm = some (.name name) → targetOf? xs name = targetOf? ys name) :
    Resolves ys imm after := by
  cases h with
  | none => exact .none
  | value n => exact .value n
  | name ht => exact .name (hxy _ rfl ▸ ht)

section
variable {i j : Instruction} {labels : List Label}

theorem resolve_of_resolves {imm : Option Immediate} (hi : i.Drafted)
    (h : Resolves labels i.imm imm) : i.resolve labels = .ok (i.withImm imm) := by
  unfold Instruction.resolve
  generalize himm : i.imm = before at h ⊢
  cases h with
  | none | value n =>
    show Except.ok i = _
    rw [← himm]
    rfl
  | name ht =>
    obtain ⟨b, hm, -⟩ := hi.operands_of_name himm
    have hb : i.mnemonic.isBranch = true := by
      rw [hm]
      rfl
    dsimp only
    rw [if_pos hb, ht]
    rfl

theorem Instruction.Drafted.down (hi : i.Drafted) (k : Nat) : (i.down k).Drafted :=
  ⟨hi.encodes, hi.written⟩

theorem resolve_down (k : Nat) (hi : i.Drafted) (h : i.resolve labels = .ok j) :
    (i.down k).resolve labels = .ok (j.down k) := by
  obtain ⟨imm, rfl, hr⟩ := Instruction.resolve_eq_ok hi h
  exact resolve_of_resolves (hi.down k) hr

variable {is js : List Instruction}

/-- What branches are resolved to depends only on what their names stand for. -/
theorem forall₂_resolve_congr {labels' : List Label} (hd : ∀ i ∈ is, i.Drafted)
    (hname : ∀ i ∈ is, ∀ name, i.imm = some (.name name) →
      targetOf? labels name = targetOf? labels' name)
    (h : List.Forall₂ (fun i j => i.resolve labels = .ok j) is js) :
    List.Forall₂ (fun i j => i.resolve labels' = .ok j) is js := by
  induction h with
  | nil => exact .nil
  | @cons i j is js hij _ ih =>
    obtain ⟨hdi, hds⟩ := List.forall_mem_cons.mp hd
    obtain ⟨hi, his⟩ := List.forall_mem_cons.mp hname
    obtain ⟨imm, rfl, hr⟩ := Instruction.resolve_eq_ok hdi hij
    exact .cons (resolve_of_resolves hdi (hr.congr hi)) (ih hds his)

theorem forall₂_resolve_down (k : Nat) (hd : ∀ i ∈ is, i.Drafted)
    (h : List.Forall₂ (fun i j => i.resolve labels = .ok j) is js) :
    List.Forall₂ (fun i j => i.resolve labels = .ok j) (is.map (Instruction.down k))
      (js.map (Instruction.down k)) := by
  induction h with
  | nil => exact .nil
  | cons hij _ ih =>
    obtain ⟨hdi, hds⟩ := List.forall_mem_cons.mp hd
    exact .cons (resolve_down k hdi hij) (ih hds)

end

theorem LaidOut.findLabel?_eq_none_iff {a : Address} {source : Text} {l : Layout}
    (h : LaidOut a (numberedLines source) l) {name : Text} :
    findLabel? l.labels name = none ↔ name ∉ definedLabels source := by
  rw [findLabel?_eq_none, h.map_name]

section
variable {upper lower : Text} {a b : Address} {x y x' y' : Layout}

/-- Every branch of two separate sources finds the target that it has in its own source. -/
theorem resolve_append (h : Separate upper lower) (k : Nat) (hx : layout upper a = .ok x)
    (hy : layout lower b = .ok y) (hx' : x.resolve = .ok x') (hy' : y.resolve = .ok y') :
    (x.append (y.down k)).resolve = .ok (x'.append (y'.down k)) := by
  obtain ⟨hxl, hxi⟩ := Layout.resolve_eq_ok.mp hx'
  obtain ⟨hyl, hyi⟩ := Layout.resolve_eq_ok.mp hy'
  have hxd := (layoutLines_drafted hx).2
  have hyd := (layoutLines_drafted hy).2
  have hxlaid : LaidOut a (numberedLines upper) x := layoutLines_laidOut hx
  have hylaid : LaidOut b (numberedLines lower) y := layoutLines_laidOut hy
  have hlabels : (x'.append (y'.down k)).labels = (x.append (y.down k)).labels := by
    simp [hxl, Layout.down, hyl]
  have hup : ∀ i ∈ x.instructions, ∀ name, i.imm = some (.name name) →
      targetOf? x.labels name = targetOf? (x.append (y.down k)).labels name := by
    intro i hi name hn
    refine (targetOf?_append_left fun hnone => (findLabel?_down_eq_none k).mpr ?_).symm
    rw [hxlaid.findLabel?_eq_none_iff] at hnone
    rw [hylaid.findLabel?_eq_none_iff]
    exact h.ofUpper name (hxlaid.mem_branchNames hi (hxd i hi) hn) hnone
  have hlow : ∀ i ∈ y.instructions, ∀ name, i.imm = some (.name name) →
      targetOf? y.labels name = targetOf? (x.append (y.down k)).labels name := by
    intro i hi name hn
    have hnone : findLabel? x.labels name = none := by
      rw [hxlaid.findLabel?_eq_none_iff]
      by_cases hname : name ∈ definedLabels lower
      · exact fun hu => h.labels hu hname
      · exact h.ofLower name (hylaid.mem_branchNames hi (hyd i hi) hn) hname
    rw [Layout.labels_append, targetOf?_append_right hnone]
    exact (targetOf?_down k).symm
  refine Layout.resolve_eq_ok.mpr ⟨hlabels, List.rel_append ?_ ?_⟩
  · exact forall₂_resolve_congr hxd hup hxi
  · exact forall₂_resolve_down k hyd (forall₂_resolve_congr hyd hlow hyi)

/-- The lower source goes on where the upper one ends. -/
theorem layout_append (h : (definedLabels upper).Disjoint (definedLabels lower))
    (hx : layout upper a = .ok x) (hy : layout lower (a + x.size) = .ok y) :
    layout (upper ++ '\n' :: lower) a =
      .ok (x.append (y.down (upper.count '\n' + 1))) := by
  have hxlaid : LaidOut a (numberedLines upper) x := layoutLines_laidOut hx
  unfold layout
  rw [sourceLines_append]
  refine layoutLines_append hx ?_
  rw [length_sourceLines, List.nil_append, ← List.append_nil x.labels]
  exact layoutLines_down _ hy fun name hn =>
    hxlaid.findLabel?_eq_none_iff.mpr fun hu => h hu hn

end

/-! ## programs -/

theorem Layout.listing_program_append (x y : Layout) (k : Nat) (a b : Address) :
    ((x.append (y.down k)).program a).listing = (x.program a).listing ++ (y.program b).listing := by
  show (x.instructions ++ y.instructions.map (Instruction.down k)).map Instruction.listed = _
  rw [List.map_append, List.map_map]
  rfl

/-- The labels of both, each with its address. -/
theorem findAddress_append (xs ys : List Label) (k : Nat) (name : Text) :
    (findLabel? (xs ++ ys.map (Label.down k)) name).map Label.address =
      ((findLabel? xs name).map Label.address).or ((findLabel? ys name).map Label.address) := by
  rw [findLabel?_append, findLabel?_down, Option.map_or, Option.map_map]
  rfl

/-- Two sources that assemble, the lower one from the address that the upper one ends at, and that
do not interfere in their labels, assemble together: to the upper program followed by the lower one,
of which only the line numbers are others. -/
theorem assemble_append {upper lower : Text} {origin : Address} {p q : Program}
    (h : Separate upper lower) (hp : assemble upper origin = .ok p)
    (hq : assemble lower (origin + p.bytes.length) = .ok q) :
    ∃ r, assemble (upper ++ '\n' :: lower) origin = .ok r ∧
      r.instructions =
        p.instructions ++ q.instructions.map (Instruction.down (upper.count '\n' + 1)) ∧
      r.listing = p.listing ++ q.listing ∧ r.bytes = p.bytes ++ q.bytes ∧
      r.labels = p.labels ++ q.labels.map (Label.down (upper.count '\n' + 1)) ∧
      ∀ name, (findLabel? r.labels name).map Label.address =
        ((findLabel? p.labels name).map Label.address).or
          ((findLabel? q.labels name).map Label.address) := by
  have hlength := (assembled_of_assemble hp).2.length_bytes
  obtain ⟨x, x', hx, hx', hxr, rfl⟩ := assemble_eq_ok_iff_inReach.mp hp
  have hsize : codeLength x'.instructions = x.size :=
    codeLength_resolve (layoutLines_drafted hx).2 (Layout.resolve_eq_ok.mp hx').2
  rw [hlength.trans hsize] at hq
  obtain ⟨y, y', hy, hy', hyr, rfl⟩ := assemble_eq_ok_iff_inReach.mp hq
  have hz := layout_append h.labels hx hy
  have hz' := resolve_append h (upper.count '\n' + 1) hx hy hx' hy'
  -- a branch keeps its distance from its target when lines are put on top of it
  have hzr : ∀ i ∈ (x'.append (y'.down (upper.count '\n' + 1))).instructions, i.InReach := by
    intro i hi
    obtain hi | hi := List.mem_append.mp hi
    · exact hxr i hi
    · obtain ⟨j, hj, rfl⟩ := List.mem_map.mp hi
      exact hyr j hj
  have hlisting := x'.listing_program_append y' (upper.count '\n' + 1) origin (origin + x.size)
  refine ⟨_, assemble_eq_ok_iff_inReach.mpr ⟨_, _, hz, hz', hzr, rfl⟩, rfl, hlisting, ?_, rfl,
    findAddress_append _ _ _⟩
  rw [Program.bytes, hlisting, List.flatMap_append]
  rfl

/-- a source with a jump to a number that is spelled like a name -/
def jumpSource : Text := "JMP FF\nstop: HLT".toList

def jumpProgram : Program where
  origin := 0x103
  instructions := [
    { opcode := [0xeb], length := 2, imm := some (.value 0xff), address := 0x103,
      mnemonic := .branch .jmp, operands := [.label "FF".toList], line := "JMP FF".toList,
      lineNumber := 1 },
    { opcode := [0xf4], length := 1, imm := none, address := 0x105, mnemonic := .hlt,
      operands := [], line := "stop: HLT".toList, lineNumber := 2 }]
  listing := [⟨0x103, [0xeb, 0xfa], "JMP FF".toList⟩, ⟨0x105, [0xf4], "stop: HLT".toList⟩]
  labels := [⟨"STOP".toList, 0x105, 2⟩]

theorem separate_counting_jump : Separate countingSource jumpSource where
  labels := by
    rw [show definedLabels countingSource = ["TOP".toList] by decide +kernel,
      show definedLabels jumpSource = ["STOP".toList] by decide +kernel]
    exact List.disjoint_singleton.mpr (by decide)
  ofUpper := by decide +kernel
  ofLower := by decide +kernel

/-- below the counting program the jump still leads to `FF`, and its label is on line 5 -/
theorem assemble_append_of_counting :
    assemble countingSource 0x100 = .ok countingProgram ∧
    assemble jumpSource (0x100 + countingProgram.bytes.length) = .ok jumpProgram ∧
    ∃ r, assemble (countingSource ++ '\n' :: jumpSource) 0x100 = .ok r ∧
      r.bytes = [0x40, 0xe2, 0xfd, 0xeb, 0xfa, 0xf4] ∧
      r.labels = [⟨"TOP".toList, 0x100, 2⟩, ⟨"STOP".toList, 0x105, 5⟩] := by
  have hjump : assemble jumpSource (0x100 + countingProgram.bytes.length) = .ok jumpProgram := by
    decide +kernel
  obtain ⟨r, hr, -, -, hbytes, hlabels, -⟩ :=
    assemble_append separate_counting_jump assemble_countingSource hjump
  exact ⟨assemble_countingSource, hjump, r, hr, hbytes, hlabels⟩

end Mini8086
