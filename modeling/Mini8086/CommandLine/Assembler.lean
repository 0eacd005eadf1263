import Mini8086.Assembly.Program
import Mini8086.CommandLine.Arguments

/-!
# The assembler as a program

The command line of the assembler takes one input and prints its listing, or with `--raw` only its
bytes.  The origin is a hexadecimal number, which is looked at only after the input has been read.
With `--dump-labels` the labels go to the error output, in the order of their addresses.

Labels are kept in a table, and nothing fixes the order in which it goes through them: `outcomeOn`
takes that order as a parameter, together with the contents of the input.  `outcome` goes through
the labels in the order of definition, and cuts the blanks at the end of the input.
-/

namespace Mini8086

/-- the labels with their addresses, below a heading, when the table goes through them in this order
-/
def labelLines (labels : List Label) : List Text :=
  "labels:".toList ::
    (labelsByAddress labels).map fun l => l.name ++ ":\t".toList ++ hexPadded 4 l.address

/-- the outcome when the input cannot be read, for a reason that the system gives -/
def unreadable (reason : String) : Outcome := failure s!"Error reading input: {reason}"

/-- the reason that the system gives when there is no input of the name -/
def noSuchInput : String := "No such file or directory (os error 2)"

/-- an input as it is assembled: without the blanks at its end -/
def inputSource (input : Text) : Text := trimEnd input

namespace Assembler

structure Options where
  input : Option Text := none
  origin : Text := "1000".toList
  raw : Bool := false
  dumpLabels : Bool := false
  deriving DecidableEq, Repr

def originForm : OptionForm := ⟨"origin", some 'o', true, false⟩
def rawForm : OptionForm := ⟨"raw", none, false, false⟩
def dumpLabelsForm : OptionForm := ⟨"dump-labels", none, false, false⟩
def forms : List OptionForm := [originForm, rawForm, dumpLabelsForm]

def Options.take (o : Options) : Argument → Except EarlyEnd Options
  | .input name => (placeInput o.input name).map fun i => { o with input := i }
  | .option form v =>
    if form = originForm then .ok { o with origin := v }
    else if form = rawForm then .ok { o with raw := true }
    else .ok { o with dumpLabels := true }

/-- the options of a command line, and the input that it names -/
def Options.read (args : List Text) : Except EarlyEnd (Options × Text) := do
  let o ← readArguments forms Options.take {} args
  return (o, ← requiredInput o.input)

/-- what is printed for a program -/
def output (o : Options) (p : Program) : List Text :=
  if o.raw then [bytesText p.bytes] else p.listing.map Entry.text

/-- The program run on the contents of its input, which are a text or the reason why there is none;
`order` is how the table goes through the labels. -/
def outcomeOn (order : List Label → List Label) (o : Options) (contents : Except String Text) :
    Outcome :=
  match contents with
  | .error reason => unreadable reason
  | .ok source =>
    match readHex? o.origin with
    | none => failure s!"Bad origin {String.ofList o.origin}"
    | some origin =>
      match assemble source origin with
      | .error e => failure e.message
      | .ok p => ⟨0, output o p, if o.dumpLabels then labelLines (order p.labels) else []⟩

def outcome (o : Options) (input : Except String Text) : Outcome :=
  outcomeOn id o (input.map inputSource)

end Assembler

end Mini8086
