import Mini8086.CommandLine.Assembler
import Mini8086.CommandLine.Values
import Mini8086.Session

/-!
# The interpreter as a program

The command line of the interpreter takes one input, pokes bytes into memory, assembles the input
and runs it, and dumps parts of the memory afterwards.

There are two ways to run.  Without `--step` the program runs as a whole, and the instructions that
it executed are printed if it ends without a fault.  With `--step` it is executed instruction by
instruction, each followed by the registers as it left them, so that a fault comes after what was
printed before it.  At the end the registers are printed once more in both cases.

* `Interpreter.stepAll`  the instructions of a stepwise run;
* `Interpreter.dumpRows` a dump in rows of sixteen bytes;
* `Interpreter.outcomeOn` the whole program, on the contents of its input.
-/

namespace Mini8086.Interpreter

/-! ## options -/

structure Options where
  input : Option Text := none
  origin : Option Address := none
  start : Option Address := none
  maxSteps : Nat := 10000
  step : Bool := false
  listing : Bool := false
  dumpLabels : Bool := false
  pokes : List Poke := []
  dumps : List MemoryRange := []
  deriving DecidableEq, Repr

/-- the origin of a program for which none is given -/
def defaultOrigin : Address := 0x1000

def originForm : OptionForm := ⟨"origin", some 'o', true, false⟩
def startForm : OptionForm := ⟨"start", none, true, false⟩
def maxStepsForm : OptionForm := ⟨"max-steps", none, true, false⟩
def stepForm : OptionForm := ⟨"step", none, false, false⟩
def listingForm : OptionForm := ⟨"listing", none, false, false⟩
def dumpLabelsForm : OptionForm := ⟨"dump-labels", none, false, false⟩
def pokeForm : OptionForm := ⟨"poke", none, true, true⟩
def dumpMemForm : OptionForm := ⟨"dump-mem", none, true, true⟩
def forms : List OptionForm :=
  [originForm, startForm, maxStepsForm, stepForm, listingForm, dumpLabelsForm, pokeForm,
    dumpMemForm]

/-- the value of an option, or the complaint about it -/
def valueOf {α : Type} (o : OptionForm) (v : Text) (r : Except ValueError α) :
    Except EarlyEnd α :=
  r.mapError fun e => .refused (.invalidValue o v e.message)

def Options.take (o : Options) : Argument → Except EarlyEnd Options
  | .input name => (placeInput o.input name).map fun i => { o with input := i }
  | .option form v =>
    if form = originForm then
      (valueOf form v (readAddress v)).map fun a => { o with origin := some a }
    else if form = startForm then
      (valueOf form v (readAddress v)).map fun a => { o with start := some a }
    else if form = maxStepsForm then
      (valueOf form v ((readLength v).mapError .number)).map fun n => { o with maxSteps := n }
    else if form = pokeForm then
      (valueOf form v (Poke.read v)).map fun p => { o with pokes := o.pokes ++ [p] }
    else if form = dumpMemForm then
      (valueOf form v (MemoryRange.read v)).map fun d => { o with dumps := o.dumps ++ [d] }
    else if form = stepForm then .ok { o with step := true }
    else if form = listingForm then .ok { o with listing := true }
    else .ok { o with dumpLabels := true }

/-- the options of a command line, and the input that it names -/
def Options.read (args : List Text) : Except EarlyEnd (Options × Text) := do
  let o ← readArguments forms Options.take {} args
  return (o, ← requiredInput o.input)

/-! ## running -/

/-- the line about an instruction that was executed -/
def visitLine (v : Visit) : Text := hexPadded 4 v.address ++ "  ".toList ++ v.line

/-- the line with the registers below such a line -/
def registersLine (c : Cpu) : Text := List.replicate 6 ' ' ++ c.text

/-- the line that says that the budget is used up -/
def stoppedLine (n : Nat) : Text := s!"Stopped after {n} instructions".toList

/-- What a run prints, the session after it, and the error that ended it if there was one. -/
structure Report where
  out : List Text
  err : List Text
  session : Session
  error : Option SessionError

/-- at most `budget` steps, on top of the output `before`, the latest of it first -/
def stepsAfter (before : List Text) (s : Session) (total : Nat) : Nat → Report
  | 0 => ⟨before.reverse, [stoppedLine total], s, none⟩
  | budget + 1 =>
    match s.step with
    | .ok none => ⟨before.reverse, [], s, none⟩
    | .ok (some (v, next)) =>
      stepsAfter (registersLine next.machine.cpu :: visitLine v :: before) next total budget
    | .error e => ⟨before.reverse, [], s, some e⟩

/-- At most `budget` steps.  The last of them is told to be the last even if nothing is left to
execute after it. -/
def stepAll (s : Session) (budget : Nat) : Report := stepsAfter [] s budget budget

/-- a stepwise run, from `start` if it is given -/
def runStepwise (s : Session) (start : Option Address) (budget : Nat) : Report :=
  match start with
  | none => stepAll s budget
  | some a =>
    match s.seek a with
    | .ok s => stepAll s budget
    | .error e => ⟨[], [], s, some e⟩

/-- a run as a whole, from `start` or else from the origin -/
def runFreely (s : Session) (start : Option Address) (budget : Nat) : Report :=
  match s.run start budget with
  | .error e => ⟨[], [], s, some e⟩
  | .ok r =>
    let after : Session := { s with machine := r.machine }
    match r.stop with
    | .fault f => ⟨[], [], after, some (.fault f)⟩
    | .done => ⟨r.trace.map visitLine, [], after, none⟩
    | .budget => ⟨r.trace.map visitLine, [stoppedLine r.trace.length], after, none⟩

/-! ## dumps -/

/-- One row of a dump. -/
structure DumpRow where
  address : Address
  bytes : List Byte
  deriving DecidableEq, Repr

/-- the rows of a dump, sixteen bytes each but for the last -/
def dumpRows (m : Memory) (r : MemoryRange) : List DumpRow :=
  (List.range ((r.length + 15) / 16)).map fun k =>
    ⟨r.address + 16 * k, m.bytes (r.address + 16 * k) (min 16 (r.length - 16 * k))⟩

/-- the address as a number of 32 bits, with at least five digits, and the bytes -/
def DumpRow.text (r : DumpRow) : Text :=
  hexPadded 5 (r.address % 0x100000000) ++ ": ".toList ++ bytesText r.bytes

/-! ## the whole program -/

/-- bytes put into the memory of a session -/
def applyPoke (s : Session) (p : Poke) : Session := s.mapMemory fun m => m.load p.address p.bytes

/-- the session in which the input is assembled -/
def prepared (o : Options) : Session := o.pokes.foldl applyPoke {}

/-- the session with the input assembled in it -/
def loaded (o : Options) (source : Text) : Except SessionError Session :=
  (prepared o).assemble source (o.origin.getD defaultOrigin)

/-- the run that the options ask for -/
def execute (o : Options) (s : Session) : Report :=
  if o.step then runStepwise s o.start o.maxSteps else runFreely s o.start o.maxSteps

/-- what is printed about the program before it runs; `order` is how the table goes through the
labels -/
def preamble (order : List Label → List Label) (o : Options) (p : Option Program) : Outcome :=
  match p with
  | none => ⟨0, [], []⟩
  | some p =>
    ⟨0, if o.listing then p.listing.map Entry.text else [],
      if o.dumpLabels then labelLines (order p.labels) else []⟩

/-- what is printed after a run -/
def conclusion (o : Options) (r : Report) : Outcome :=
  let m := r.session.machine
  match r.error with
  | some e => ⟨1, [m.cpu.text], [e.message.toList]⟩
  | none =>
    ⟨0, m.cpu.text :: (o.dumps.flatMap (dumpRows m.memory)).map DumpRow.text,
      [s!"Executed {m.executed} instructions".toList]⟩

/-- The program run on the contents of its input, which are a text or the reason why there is none.
-/
def outcomeOn (order : List Label → List Label) (o : Options) (contents : Except String Text) :
    Outcome :=
  match contents with
  | .error reason => unreadable reason
  | .ok source =>
    match loaded o source with
    | .error e => failure e.message
    | .ok s =>
      let before := preamble order o s.program
      let report := execute o s
      let after := conclusion o report
      ⟨after.exit, before.out ++ report.out ++ after.out, before.err ++ report.err ++ after.err⟩

def outcome (o : Options) (input : Except String Text) : Outcome :=
  outcomeOn id o (input.map inputSource)

end Mini8086.Interpreter
