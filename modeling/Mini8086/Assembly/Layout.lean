import Mini8086.Assembly.Error
import Mini8086.Instruction

/-!
# Layout

A layout places the commands of a source one after the other from an origin.  `layoutLines` goes
through the lines once: a line may define a label, which then stands for the address reached, and
may add one instruction, which moves that address on by its length.  Branches keep the names of
their targets, since a label may be defined further down.

* `layoutLine`     one line;
* `layoutLines`    lines, from an address, a line number and the labels defined above;
* `Layout.resolve` every name replaced by the address that it stands for: that of the label, or else
                   the name itself read as a hexadecimal number;
* `Layout.unused`  the labels that no branch names.
-/

namespace Mini8086

/-- A label with the address that it stands for and the line that defines it. -/
structure Label where
  name : Text
  address : Address
  line : Nat
  deriving DecidableEq, Repr

structure Layout where
  labels : List Label
  instructions : List Instruction
  deriving DecidableEq, Repr

/-- the number of bytes of the instructions -/
def codeLength : List Instruction → Nat
  | [] => 0
  | i :: is => i.length + codeLength is

@[simp] theorem codeLength_nil : codeLength [] = 0 := rfl
@[simp] theorem codeLength_cons (i : Instruction) (is : List Instruction) :
    codeLength (i :: is) = i.length + codeLength is := rfl
@[simp] theorem codeLength_append (is js : List Instruction) :
    codeLength (is ++ js) = codeLength is + codeLength js := by
  induction is with
  | nil => simp
  | cons i is ih => simp [ih, Nat.add_assoc]

/-- A change that keeps the length of every instruction keeps that of the code. -/
theorem codeLength_map (f : Instruction → Instruction) (h : ∀ i, (f i).length = i.length)
    (is : List Instruction) : codeLength (is.map f) = codeLength is := by
  induction is with
  | nil => rfl
  | cons i is ih => simp [h, ih]

namespace Layout

def empty : Layout := ⟨[], []⟩

/-- one layout followed by another -/
def append (a b : Layout) : Layout := ⟨a.labels ++ b.labels, a.instructions ++ b.instructions⟩

def size (l : Layout) : Nat := codeLength l.instructions

@[simp] theorem size_empty : empty.size = 0 := rfl
@[simp] theorem labels_append (a b : Layout) : (a.append b).labels = a.labels ++ b.labels := rfl
@[simp] theorem instructions_append (a b : Layout) :
    (a.append b).instructions = a.instructions ++ b.instructions := rfl
@[simp] theorem size_append (a b : Layout) : (a.append b).size = a.size + b.size :=
  codeLength_append a.instructions b.instructions

end Layout

/-- the label with the given name -/
def findLabel? (labels : List Label) (name : Text) : Option Label :=
  labels.find? fun l => l.name = name

/-! ## one line -/

/-- the label that a statement defines at an address, if it is not defined already -/
def layoutLabel (a : Address) (n : Nat) (seen : List Label) :
    Option Text → Except AssemblyError (List Label)
  | none => .ok []
  | some name =>
    match findLabel? seen name with
    | some previous => .error (.atLine n (.duplicateLabel name previous.line))
    | none => .ok [⟨name, a, n⟩]

/-- the instruction that a command becomes at an address -/
def layoutCommand (a : Address) (n : Nat) (text : Text) :
    Option Command → Except AssemblyError (List Instruction)
  | none => .ok []
  | some c =>
    match encode c.mnemonic c.operands with
    | .error e => .error (.atLine n (e.inCommand c))
    | .ok enc => .ok [{ enc with
        address := a, mnemonic := c.mnemonic, operands := c.operands,
        line := text, lineNumber := n }]

/-- Line number `n` at address `a`, below the labels `seen`.  What is wrong with the statement comes
before a label that is defined twice, and that before a command without an encoding. -/
def layoutLine (a : Address) (n : Nat) (seen : List Label) (line : Text) :
    Except AssemblyError Layout := do
  let s ← (Statement.read line).mapError fun e => .atLine n (.statement e)
  let labels ← layoutLabel a n seen s.label
  let instructions ← layoutCommand a n s.text s.command
  return ⟨labels, instructions⟩

/-! ## a source -/

/-- the lines of a source; a line ends at its line feed, and a carriage return before that is a
blank of the line -/
def sourceLines (source : Text) : List Text := pieces '\n' source

def layoutLines (a : Address) (n : Nat) (seen : List Label) :
    List Text → Except AssemblyError Layout
  | [] => .ok .empty
  | line :: lines => do
    let head ← layoutLine a n seen line
    let tail ← layoutLines (a + head.size) (n + 1) (seen ++ head.labels) lines
    return head.append tail

/-- the layout of a source from an origin; lines count from 1 -/
def layout (source : Text) (origin : Address) : Except AssemblyError Layout :=
  layoutLines origin 1 [] (sourceLines source)

/-! ## names of branch targets -/

/-- what a name stands for as the target of a branch -/
def targetOf? (labels : List Label) (name : Text) : Option Address :=
  match findLabel? labels name with
  | some l => some l.address
  | none => (readHex? name).map (· % 0x100000)

/-- the branch with its name replaced by an address; other instructions stay as they are -/
def Instruction.resolve (labels : List Label) (i : Instruction) :
    Except AssemblyError Instruction :=
  match i.imm with
  | some (.name name) =>
    if i.mnemonic.isBranch then
      match targetOf? labels name with
      | some t => .ok { i with imm := some (.value t) }
      | none => .error (.atLine i.lineNumber (.undefinedLabel name))
    else .ok i
  | _ => .ok i

def Layout.resolve (l : Layout) : Except AssemblyError Layout :=
  (l.instructions.mapM (Instruction.resolve l.labels)).map fun is => ⟨l.labels, is⟩

/-- whether the instruction is a branch to the name -/
def Instruction.names (i : Instruction) (name : Text) : Bool :=
  i.mnemonic.isBranch && i.imm == some (.name name)

/-- the labels of a layout that no branch names, before the names are resolved -/
def Layout.unused (l : Layout) : List Label :=
  l.labels.filter fun label => !l.instructions.any fun i => i.names label.name

end Mini8086
