import Mini8086.Text.ControlSequence

/-!
# Command line arguments

A command line is a list of arguments: inputs, and options that start with `-`.  An option with a
value takes it from the same argument after `=`, or else from the next argument; a short option may
also have its value right after its letter.  A single `-` is an input, and after `--` everything is
one.

`readArguments` goes through the arguments from left to right and hands each input and option to
`take`, which says what it means; what is refused first ends the reading.  A value that stands in an
argument of its own is looked at only once the argument after it has been recognised, so that an
unknown option is complained about before the value in front of it.

Every command line may ask for help, with `--help` or `-h`.  That ends the reading as well, after
the value in front of it has been looked at.

This is the outermost layer of the programs, and stands for a library that reads command lines.
Beyond it there are only options with their values, on which everything else depends.
-/

namespace Mini8086

/-- What an option looks like. -/
structure OptionForm where
  long : String
  short : Option Char
  takesValue : Bool
  /-- whether the option may be given more than once -/
  repeatable : Bool
  deriving DecidableEq, Repr

/-- the option as messages show it, with the name of its value -/
def OptionForm.shown (o : OptionForm) : Text :=
  let value := upper (o.long.toList.map fun c => if c = '-' then '_' else c)
  "--".toList ++ o.long.toList ++ if o.takesValue then " <".toList ++ value ++ ['>'] else []

/-- the option that asks for help -/
def helpForm : OptionForm := ⟨"help", some 'h', false, false⟩

/-! ## complaints -/

/-- Why a command line is refused. -/
inductive UsageError where
  | invalidValue (o : OptionForm) (value : Text) (reason : String)
  | unexpected (argument : Text)
  | missingValue (o : OptionForm)
  | unwantedValue (o : OptionForm) (value : Text)
  | repeated (o : OptionForm)
  | missingInput
  deriving DecidableEq, Repr

/-- a highlighted part of a message between quotes -/
def quoted (t : Text) : Text := '\'' :: highlighted t ++ ['\'']

def UsageError.message : UsageError → Text
  | .invalidValue o v reason =>
    "invalid value ".toList ++ quoted v ++ " for ".toList ++ quoted o.shown ++ ": ".toList ++
      reason.toList
  | .unexpected a => "unexpected argument ".toList ++ quoted a ++ " found".toList
  | .missingValue o =>
    "a value is required for ".toList ++ quoted o.shown ++ " but none was supplied".toList
  | .unwantedValue o v =>
    "unexpected value ".toList ++ quoted v ++ " for ".toList ++ quoted o.shown ++
      " found; no more were expected".toList
  | .repeated o =>
    "the argument ".toList ++ quoted o.shown ++ " cannot be used multiple times".toList
  | .missingInput =>
    "the following required arguments were not provided:\n  ".toList ++
      highlighted "INPUT".toList

/-- the whole complaint, as it is written for a terminal -/
def UsageError.complaint (e : UsageError) : Text :=
  highlighted "error:".toList ++ ' ' :: e.message ++ "\n\nFor more information, try ".toList ++
    quoted helpForm.shown ++ ".\n".toList

/-- What ends the reading of a command line before its end: a complaint, or the wish for help. -/
inductive EarlyEnd where
  | refused (e : UsageError)
  | help (forms : List OptionForm)
  deriving DecidableEq, Repr

def refuse {α : Type} (e : UsageError) : Except EarlyEnd α := .error (.refused e)

/-! ## one argument -/

/-- One thing that a command line says. -/
inductive Argument where
  | input (name : Text)
  | option (o : OptionForm) (value : Text)
  deriving DecidableEq, Repr

/-- whether an argument is an option by its looks -/
def looksLikeOption (arg : Text) : Bool := arg.head? = some '-' && arg.length > 1

/-- The option that an argument names, and the value that the same argument gives it.  What follows
the letter of a short option without a value is not looked at. -/
def findOption? (forms : List OptionForm) : Text → Option (OptionForm × Option Text)
  | '-' :: '-' :: t =>
    match splitFirst? '=' t with
    | some (name, v) => (forms.find? fun o => o.long.toList = name).map fun o => (o, some v)
    | none => (forms.find? fun o => o.long.toList = t).map fun o => (o, none)
  | '-' :: c :: t =>
    (forms.find? fun o => o.short = some c).map fun o =>
      match o.takesValue, t with
      | false, _ | _, [] => (o, none)
      | true, '=' :: v => (o, some v)
      | true, v => (o, some v)
  | _ => none

/-- the option as messages about an unknown one show it: without a value -/
def withoutValue (arg : Text) : Text :=
  match arg with
  | '-' :: '-' :: _ => arg.takeWhile (· ≠ '=')
  | _ => arg.take 2

/-! ## all arguments -/

/-- How far a command line has been read. -/
structure Reading (σ : Type) where
  state : σ
  /-- the options that were handed on -/
  given : List OptionForm
  /-- the last option, as long as its value is not known or not looked at -/
  waiting : Option (OptionForm × Option Text)

namespace Reading

variable {σ : Type} (take : σ → Argument → Except EarlyEnd σ)

/-- an option with its value handed on -/
def give (r : Reading σ) (o : OptionForm) (v : Text) : Except EarlyEnd (Reading σ) :=
  if o ∈ r.given && !o.repeatable then refuse (.repeated o)
  else (take r.state (.option o v)).map fun s => { r with state := s, given := o :: r.given }

/-- the waiting option handed on, if there is one -/
def settle (r : Reading σ) : Except EarlyEnd (Reading σ) :=
  match r.waiting with
  | none => .ok r
  | some (o, none) => refuse (.missingValue o)
  | some (o, some v) => { r with waiting := none }.give take o v

def input (r : Reading σ) (name : Text) : Except EarlyEnd (Reading σ) := do
  let s ← take r.state (.input name)
  settle take { r with state := s }

def option (forms : List OptionForm) (r : Reading σ) (arg : Text) :
    Except EarlyEnd (Reading σ) :=
  match findOption? (helpForm :: forms) arg with
  | none => refuse (.unexpected (withoutValue arg))
  | some (o, v) =>
    match o.takesValue, v with
    | false, some v => refuse (.unwantedValue o v)
    | false, none => do
      let r ← r.settle take
      if o = helpForm then .error (.help forms) else r.give take o []
    | true, some v => do (← r.settle take).give take o v
    | true, none => (r.settle take).map fun r => { r with waiting := some (o, none) }

def argument (forms : List OptionForm) (r : Reading σ) (arg : Text) :
    Except EarlyEnd (Reading σ) :=
  if looksLikeOption arg then r.option take forms arg
  else
    match r.waiting with
    | some (o, none) => .ok { r with waiting := some (o, some arg) }
    | _ => r.input take arg

end Reading

/-- The arguments of a command line handed to `take`, which starts from `s`. -/
def readArguments {σ : Type} (forms : List OptionForm)
    (take : σ → Argument → Except EarlyEnd σ) (s : σ) (args : List Text) :
    Except EarlyEnd σ := do
  let (before, after) := args.span (· ≠ "--".toList)
  let r ← before.foldlM (Reading.argument take forms) ⟨s, [], none⟩
  let r ← (after.drop 1).foldlM (Reading.input take) r
  (r.settle take).map Reading.state

/-! ## the input -/

/-- the input of a command line that takes only one, after the next input is met -/
def placeInput (given : Option Text) (name : Text) : Except EarlyEnd (Option Text) :=
  match given with
  | none => .ok (some name)
  | some _ => refuse (.unexpected name)

/-- the input of a command line that must name one -/
def requiredInput : Option Text → Except EarlyEnd Text
  | some name => .ok name
  | none => refuse .missingInput

/-! ## outcomes -/

/-- What a program leaves behind: its exit code, and the lines of its two outputs. -/
structure Outcome where
  exit : Nat
  out : List Text
  err : List Text
  deriving DecidableEq, Repr

/-- lines as one text, each with its line feed -/
def linesText (lines : List Text) : String := String.ofList (lines.flatMap (· ++ ['\n']))

/-- an option among others -/
def OptionForm.helpLine (o : OptionForm) : Text :=
  match o.short with
  | some c => "  -".toList ++ c :: ", ".toList ++ o.shown
  | none => "      ".toList ++ o.shown

/-- the lines of help about a command line with the options -/
def helpLines (forms : List OptionForm) : List Text :=
  "usage: [OPTION ...] INPUT".toList :: (forms ++ [helpForm]).map OptionForm.helpLine

/-- The outcome of a command line that is not carried out.  There may be no terminal, so that a
complaint is without control sequences, with no regard to where they come from. -/
def EarlyEnd.outcome : EarlyEnd → Outcome
  | .refused e => ⟨2, [], endedLines (shown e.complaint)⟩
  | .help forms => ⟨0, helpLines forms, []⟩

/-- the outcome of a failure that is told in one line -/
def failure (message : String) : Outcome := ⟨1, [], [message.toList]⟩

end Mini8086
