import Mini8086.Assembly.Layout

/-!
# Assembled programs

`assemble` takes a source to a program: its layout, every branch resolved and in reach, and the
listing with the bytes of each instruction.  The three stages fail in this order, each at its first
line or instruction:

1. a line that is no statement, defines a label again or has no encoding (`layout`);
2. a branch whose target is neither a label nor a number (`Layout.resolve`);
3. a branch whose target is more than 128 bytes before or 127 bytes after the next instruction
   (`Layout.listing`).

`Entry.text` is one line of the printed listing, `unusedLabels` the labels to warn about.
-/

namespace Mini8086

/-- One instruction of a listing. -/
structure Entry where
  address : Address
  bytes : List Byte
  line : Text
  deriving DecidableEq, Repr

structure Program where
  origin : Address
  instructions : List Instruction
  listing : List Entry
  labels : List Label
  deriving DecidableEq, Repr

/-! ## the listing -/

def byteText (b : Byte) : Text := hexPadded 2 b.toNat

/-- bytes in hexadecimal, with blanks between them -/
def bytesText (bs : List Byte) : Text := joined ' ' (bs.map byteText)

/-- the address, two blanks, the bytes in a column of twelve characters, and the source line -/
def Entry.text (e : Entry) : Text :=
  hexPadded 4 e.address ++ "  ".toList ++ (bytesText e.bytes).rightpad 12 ' ' ++ e.line

/-- whether a displacement fits in a signed byte -/
def inReach (d : Int) : Bool := decide (-128 ≤ d) && decide (d ≤ 127)

/-- the error of a branch that is out of reach of its target -/
def Instruction.checkReach (i : Instruction) : Except AssemblyError Unit :=
  match i.target?, i.displacement? with
  | some t, some d => if inReach d then .ok () else .error (.tooFar i.address t d)
  | _, _ => .ok ()

/-- the name that an instruction still refers to, empty if there is none -/
def Instruction.pendingName (i : Instruction) : Text :=
  match i.imm with
  | some (.name name) => name
  | _ => []

/-- the listing entry of a resolved instruction -/
def Instruction.entry (i : Instruction) : Except AssemblyError Entry := do
  i.checkReach
  match i.emit? with
  | some bytes => return ⟨i.address, bytes, i.line⟩
  | none => throw (.atLine i.lineNumber (.undefinedLabel i.pendingName))

def Layout.listing (l : Layout) : Except AssemblyError (List Entry) :=
  l.instructions.mapM Instruction.entry

/-! ## programs -/

/-- the bytes of the program in the order of their addresses -/
def Program.bytes (p : Program) : List Byte := p.listing.flatMap fun e => e.bytes

def assemble (source : Text) (origin : Address) : Except AssemblyError Program := do
  let draft ← layout source origin
  let l ← draft.resolve
  let listing ← l.listing
  return ⟨origin, l.instructions, listing, l.labels⟩

/-- the labels of a source that no branch names; a source with an undefined name has none -/
def unusedLabels (source : Text) (origin : Address) : List Label :=
  match layout source origin with
  | .error _ => []
  | .ok draft =>
    match draft.resolve with
    | .error _ => []
    | .ok _ => draft.unused

/-- the warning about a label that no branch names -/
def Label.unusedWarning (l : Label) : String :=
  s!"Label \"{String.ofList l.name}\" on line {l.line} is never used"

/-- the warnings about the labels of a source that no branch names, in the order of their texts -/
def warnings (source : Text) (origin : Address) : List String :=
  ((unusedLabels source origin).map Label.unusedWarning).mergeSort fun a b => decide (a ≤ b)

/-- the labels in the order of their names -/
def labelsByName (labels : List Label) : List Label :=
  labels.mergeSort fun a b => decide (String.ofList a.name ≤ String.ofList b.name)

/-- the labels in the order of their addresses, those of one address in the order in which they come
-/
def labelsByAddress (labels : List Label) : List Label :=
  labels.mergeSort fun a b => decide (a.address ≤ b.address)

end Mini8086
