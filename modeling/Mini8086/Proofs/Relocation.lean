import Mini8086.Proofs.BranchTargets

/-!
# Sources assembled at another origin

The bytes of a branch say how far its target is, not where.  So a source whose branches lead to its
own labels is assembled to the same bytes at every origin: `k` bytes further up there are `k` more
in every address, in the labels and in the targets of branches, and nothing else is changed.
Numbers as targets stay where they are, and are left out.

* `Instruction.raise`, `Program.raise`   `k` bytes further up;
* `BranchesToLabels`                     every operand of a branch is a label of the source;
* `layoutLines_raise`                    laying out lines further up;
* `resolve_raise`                        names that are labels move with their labels;
* `entry_raise`                          a resolved instruction has the same bytes further up;
* `assemble_raise`                       the program further up, or the error.
-/

namespace Mini8086

/-! ## further up -/

def Label.raise (k : Nat) (d : Label) : Label := { d with address := d.address + k }

/-- the address that a branch leads to, if it is known already -/
def Immediate.raise (k : Nat) : Immediate → Immediate
  | .value n => .value (n + k)
  | .name label => .name label

/-- the instruction `k` bytes further up, and the target of a branch with it -/
def Instruction.raise (k : Nat) (i : Instruction) : Instruction :=
  { i with
    address := i.address + k
    imm := if i.mnemonic.isBranch then i.imm.map (Immediate.raise k) else i.imm }

@[simp] theorem mnemonic_raise (k : Nat) (i : Instruction) :
    (i.raise k).mnemonic = i.mnemonic := rfl
@[simp] theorem operands_raise (k : Nat) (i : Instruction) :
    (i.raise k).operands = i.operands := rfl

def Layout.raise (k : Nat) (l : Layout) : Layout :=
  ⟨l.labels.map (Label.raise k), l.instructions.map (Instruction.raise k)⟩

def Entry.raise (k : Nat) (e : Entry) : Entry := { e with address := e.address + k }

def Program.raise (k : Nat) (p : Program) : Program where
  origin := p.origin + k
  instructions := p.instructions.map (Instruction.raise k)
  listing := p.listing.map (Entry.raise k)
  labels := p.labels.map (Label.raise k)

/-- the same error further up: the number of a line stays, and so does a distance -/
def AssemblyError.raise (k : Nat) : AssemblyError → AssemblyError
  | .atLine n e => .atLine n e
  | .tooFar a t d => .tooFar (a + k) (t + k) d

/-- what a stage of assembling gives further up, where `f` raises its result -/
def raised {α : Type} (k : Nat) (f : α → α) : Except AssemblyError α → Except AssemblyError α :=
  mapBoth (AssemblyError.raise k) f

@[simp] theorem codeLength_raise (k : Nat) (is : List Instruction) :
    codeLength (is.map (Instruction.raise k)) = codeLength is :=
  codeLength_map (Instruction.raise k) (fun _ => rfl) is

@[simp] theorem Layout.size_raise (k : Nat) (l : Layout) : (l.raise k).size = l.size :=
  codeLength_raise k l.instructions

theorem Layout.append_raise (k : Nat) (x y : Layout) :
    (x.append y).raise k = (x.raise k).append (y.raise k) := by
  simp [Layout.raise, Layout.append]

theorem findLabel?_raise (k : Nat) (labels : List Label) (name : Text) :
    findLabel? (labels.map (Label.raise k)) name = (findLabel? labels name).map (Label.raise k) :=
  List.find?_map

/-! ## laying out lines -/

/-- the operands of the branch on a line; none if the line has no branch -/
def branchOperands (line : Text) : List Operand :=
  match Command.read (commandText line) with
  | .ok ⟨.branch _, ops⟩ => ops
  | _ => []

/-- Every operand of a branch is a name, and the name is a label of the source. -/
def BranchesToLabels (source : Text) : Prop :=
  ∀ line ∈ sourceLines source, ∀ o ∈ branchOperands line,
    ∃ name ∈ definedLabels source, o = .label name

instance (source : Text) : Decidable (BranchesToLabels source) :=
  inferInstanceAs (Decidable (∀ line ∈ sourceLines source, ∀ o ∈ branchOperands line,
    ∃ name ∈ definedLabels source, o = .label name))

section
variable {a : Address} {n : Nat} {seen : List Label} (k : Nat)

theorem layoutLabel_raise (o : Option Text) :
    layoutLabel (a + k) n (seen.map (Label.raise k)) o =
      raised k (List.map (Label.raise k)) (layoutLabel a n seen o) := by
  unfold layoutLabel
  cases o with
  | none => rfl
  | some name =>
    dsimp only
    rw [findLabel?_raise]
    cases findLabel? seen name with
    | none => rfl
    | some previous => rfl

/-- a command whose encoding holds no address -/
theorem layoutCommand_raise {text : Text} {c : Option Command}
    (h : ∀ b ops, c = some ⟨.branch b, ops⟩ → ∀ o ∈ ops, ∃ name, o = .label name) :
    layoutCommand (a + k) n text c =
      raised k (List.map (Instruction.raise k)) (layoutCommand a n text c) := by
  unfold layoutCommand
  cases c with
  | none => rfl
  | some c =>
    dsimp only
    cases henc : encode c.mnemonic c.operands with
    | error e => rfl
    | ok enc =>
      have himm : (if c.mnemonic.isBranch then enc.imm.map (Immediate.raise k) else enc.imm) =
          enc.imm := by
        obtain ⟨m, ops⟩ := c
        cases encode_eq_ok.mp henc with
        | branchName b name => rfl
        | branchAddress b t =>
          obtain ⟨name, ho⟩ := h b _ rfl (.addr t) List.mem_cons_self
          cases ho
        | _ => exact if_neg Bool.false_ne_true
      show Except.ok _ = Except.ok [Instruction.raise k _]
      unfold Instruction.raise
      dsimp only
      rw [himm]

/-- the operands of a branch that a statement has are those of its line -/
theorem mem_branchOperands {line : Text} {s : Statement} (hs : Statement.read line = .ok s)
    {b : Branch} {ops : List Operand} (hc : s.command = some ⟨.branch b, ops⟩) {o : Operand}
    (ho : o ∈ ops) : o ∈ branchOperands line := by
  have hread := (Statement.read_eq_ok hs).2.1
  rw [hc] at hread
  obtain ⟨-, hnone⟩ | ⟨-, d, hd, hsome⟩ := Command.read?_eq_ok.mp hread
  · cases hnone
  · cases hsome
    rw [branchOperands, hd]
    exact ho

theorem layoutLine_raise {line : Text} (h : ∀ o ∈ branchOperands line, ∃ name, o = .label name) :
    layoutLine (a + k) n (seen.map (Label.raise k)) line =
      raised k (Layout.raise k) (layoutLine a n seen line) := by
  unfold layoutLine
  cases hs : Statement.read line with
  | error e => rfl
  | ok s =>
    have hc : ∀ b ops, s.command = some ⟨.branch b, ops⟩ → ∀ o ∈ ops, ∃ name, o = .label name :=
      fun b ops hc o ho => h o (mem_branchOperands hs hc ho)
    dsimp only [Except.mapError, bind, Except.bind]
    rw [layoutLabel_raise, layoutCommand_raise k hc]
    exact mapBoth_bind fun labels _ => mapBoth_bind fun is _ => rfl

/-- Lines are laid out further up as they are here, from one address to the next. -/
theorem layoutLines_raise {lines : List Text}
    (h : ∀ line ∈ lines, ∀ o ∈ branchOperands line, ∃ name, o = .label name) :
    layoutLines (a + k) n (seen.map (Label.raise k)) lines =
      raised k (Layout.raise k) (layoutLines a n seen lines) := by
  induction lines generalizing a n seen with
  | nil => rfl
  | cons line lines ih =>
    obtain ⟨hline, hlines⟩ := List.forall_mem_cons.mp h
    rw [layoutLines, layoutLines, layoutLine_raise k hline]
    refine mapBoth_bind fun head _ => ?_
    have htail : layoutLines (a + k + head.size) (n + 1)
        (seen.map (Label.raise k) ++ (head.raise k).labels) lines =
          raised k (Layout.raise k)
            (layoutLines (a + head.size) (n + 1) (seen ++ head.labels) lines) := by
      rw [Layout.raise, ← List.map_append, Nat.add_right_comm]
      exact ih hlines
    rw [Layout.size_raise, htail]
    refine mapBoth_bind fun tail _ => ?_
    show Except.ok ((head.raise k).append (tail.raise k)) = Except.ok ((head.append tail).raise k)
    rw [Layout.append_raise]

end

/-! ## targets -/

theorem targetOf?_raise (k : Nat) {labels : List Label} {name : Text}
    (h : findLabel? labels name ≠ none) :
    targetOf? (labels.map (Label.raise k)) name = (targetOf? labels name).map (· + k) := by
  unfold targetOf?
  rw [findLabel?_raise]
  cases hf : findLabel? labels name with
  | none => exact absurd hf h
  | some d => rfl

/-- A branch to a label is resolved to the label, wherever it is. -/
theorem instruction_resolve_raise (k : Nat) {labels : List Label} {i : Instruction}
    (h : ∀ name, i.imm = some (.name name) → findLabel? labels name ≠ none) :
    (i.raise k).resolve (labels.map (Label.raise k)) =
      raised k (Instruction.raise k) (i.resolve labels) := by
  unfold Instruction.resolve
  by_cases hb : i.mnemonic.isBranch = true
  · have himm : (i.raise k).imm = i.imm.map (Immediate.raise k) := if_pos hb
    rw [himm]
    cases hi : i.imm with
    | none => rfl
    | some imm =>
      cases imm with
      | value t => rfl
      | name name =>
        have hb' : (i.raise k).mnemonic.isBranch = true := hb
        dsimp only [Option.map_some, Immediate.raise]
        rw [if_pos hb, if_pos hb', targetOf?_raise k (h name hi)]
        cases targetOf? labels name with
        | none => rfl
        | some t =>
          show Except.ok _ = Except.ok (Instruction.raise k _)
          unfold Instruction.raise
          dsimp only
          rw [if_pos hb]
          rfl
  · -- without a branch there is nothing to resolve, neither here nor further up
    have himm : (i.raise k).imm = i.imm := if_neg hb
    have hb' : ¬ (i.raise k).mnemonic.isBranch = true := hb
    rw [himm]
    cases i.imm with
    | none => rfl
    | some imm =>
      cases imm with
      | value v => rfl
      | name name =>
        dsimp only
        rw [if_neg hb, if_neg hb']
        rfl

theorem Layout.resolve_raise (k : Nat) {l : Layout}
    (h : ∀ i ∈ l.instructions, ∀ name, i.imm = some (.name name) →
      findLabel? l.labels name ≠ none) :
    (l.raise k).resolve = raised k (Layout.raise k) l.resolve := by
  unfold Layout.resolve
  show ((l.instructions.map (Instruction.raise k)).mapM
    (Instruction.resolve (l.labels.map (Label.raise k)))).map _ = _
  rw [mapM_mapBoth fun i hi => instruction_resolve_raise k (h i hi)]
  cases l.instructions.mapM (Instruction.resolve l.labels) <;> rfl

/-! ## bytes -/

section
variable (k : Nat) (i : Instruction)

@[simp] theorem target?_raise : (i.raise k).target? = i.target?.map (· + k) := by
  unfold Instruction.target? Instruction.raise
  dsimp only
  by_cases hb : i.mnemonic.isBranch = true
  · rw [if_pos hb]
    cases i.imm with
    | none => rfl
    | some imm =>
      cases imm with
      | value t =>
        show (if i.mnemonic.isBranch then some (t + k) else none) =
          (if i.mnemonic.isBranch then some t else none : Option Address).map (· + k)
        rw [if_pos hb, if_pos hb]
        rfl
      | name name => rfl
  · rw [if_neg hb]
    cases i.imm with
    | none => rfl
    | some imm =>
      cases imm with
      | value t =>
        dsimp only
        rw [if_neg hb]
        rfl
      | name name => rfl

@[simp] theorem nextAddress_raise : (i.raise k).nextAddress = i.nextAddress + k :=
  Nat.add_right_comm ..

/-- the distance of a target does not depend on where its branch is -/
@[simp] theorem displacement?_raise : (i.raise k).displacement? = i.displacement? := by
  unfold Instruction.displacement?
  rw [target?_raise, nextAddress_raise]
  cases i.target? with
  | none => rfl
  | some t =>
    show some (((t + k : Nat) : Int) - (i.nextAddress + k : Nat)) = some ((t : Int) - i.nextAddress)
    rw [Option.some.injEq]
    omega

theorem displacement?_of_value {t : Nat} (hb : i.mnemonic.isBranch = true)
    (hi : i.imm = some (.value t)) : i.displacement? = some ((t : Int) - i.nextAddress) := by
  have ht : i.target? = some t := by
    rw [Instruction.target?, hi]
    exact if_pos hb
  rw [Instruction.displacement?, ht]
  rfl

@[simp] theorem emit?_raise : (i.raise k).emit? = i.emit? := by
  unfold Instruction.emit?
  rw [displacement?_raise]
  by_cases hb : i.mnemonic.isBranch = true
  · have himm : (i.raise k).imm = i.imm.map (Immediate.raise k) := if_pos hb
    rw [himm]
    cases hi : i.imm with
    | none => rfl
    | some imm =>
      cases imm with
      | value t =>
        dsimp only [Option.map_some, Immediate.raise]
        rw [displacement?_of_value i hb hi]
        rfl
      | name name => rfl
  · have himm : (i.raise k).imm = i.imm := if_neg hb
    rw [himm]
    rfl

theorem checkReach_raise : (i.raise k).checkReach = raised k id i.checkReach := by
  unfold Instruction.checkReach
  rw [target?_raise, displacement?_raise]
  cases i.target? with
  | none => rfl
  | some t =>
    cases i.displacement? with
    | none => rfl
    | some d =>
      dsimp only [Option.map_some]
      split <;> rfl

@[simp] theorem pendingName_raise : (i.raise k).pendingName = i.pendingName := by
  unfold Instruction.pendingName Instruction.raise
  dsimp only
  by_cases hb : i.mnemonic.isBranch = true
  · rw [if_pos hb]
    cases i.imm with
    | none => rfl
    | some imm => cases imm <;> rfl
  · rw [if_neg hb]

/-- An instruction has the same bytes further up, or is as far from its target. -/
theorem entry_raise : (i.raise k).entry = raised k (Entry.raise k) i.entry := by
  unfold Instruction.entry
  rw [checkReach_raise, emit?_raise, pendingName_raise]
  refine mapBoth_bind fun u _ => ?_
  cases i.emit? with
  | none => rfl
  | some bytes => rfl

end

theorem Layout.listing_raise (k : Nat) (l : Layout) :
    (l.raise k).listing = raised k (List.map (Entry.raise k)) l.listing :=
  mapM_mapBoth fun i _ => entry_raise k i

/-! ## programs -/

section
variable {source : Text} {origin : Address}

/-- the names in the layout of a source whose branches lead to labels are labels -/
theorem BranchesToLabels.findLabel?_ne_none (h : BranchesToLabels source) {draft : Layout}
    (hd : layout source origin = .ok draft) {i : Instruction} (hi : i ∈ draft.instructions)
    {name : Text} (hn : i.imm = some (.name name)) : findLabel? draft.labels name ≠ none := by
  have hlaid : LaidOut origin (numberedLines source) draft := layoutLines_laidOut hd
  obtain ⟨b, hm, hops⟩ := ((layoutLines_drafted hd).2 i hi).operands_of_name hn
  obtain ⟨q, hq, -, hc⟩ := hlaid.exists_line_of_instruction hi
  have hread := hc.command
  rw [hm, hops] at hread
  have ho : Operand.label name ∈ branchOperands q.1 := by
    rw [branchOperands, hread]
    exact List.mem_cons_self
  obtain ⟨other, hother, heq⟩ := h q.1 (List.fst_mem_of_mem_zipIdx hq) _ ho
  cases heq
  rw [Ne, findLabel?_eq_none, hlaid.map_name, not_not]
  exact hother

/-- A source whose branches lead to its labels is assembled further up to the same program further
up, or to the same error there. -/
theorem assemble_raise (h : BranchesToLabels source) (k : Nat) :
    assemble source (origin + k) = raised k (Program.raise k) (assemble source origin) := by
  have hlayout : layout source (origin + k) = raised k (Layout.raise k) (layout source origin) := by
    show layoutLines (origin + k) 1 (([] : List Label).map (Label.raise k)) _ = _
    refine layoutLines_raise k fun line hl o ho => ?_
    obtain ⟨name, -, he⟩ := h line hl o ho
    exact ⟨name, he⟩
  unfold assemble
  rw [hlayout]
  refine mapBoth_bind fun draft hd => ?_
  rw [Layout.resolve_raise k fun i hi name hn => h.findLabel?_ne_none hd hi hn]
  refine mapBoth_bind fun l _ => ?_
  rw [Layout.listing_raise]
  exact mapBoth_bind fun listing _ => rfl

end

end Mini8086
