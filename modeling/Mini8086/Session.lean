import Mini8086.Machine.Basic

/-!
# Sessions

A `Session` is one machine with the program that was assembled for it last.  Assembling a source
loads the program; a source with an error changes nothing.  A reset takes the program away and puts
the processor back to power-on, but keeps the memory.
-/

namespace Mini8086

structure Session where
  machine : Machine := {}
  program : Option Program := none

/-- Why a session does not do what it is asked to. -/
inductive SessionError where
  | noProgram
  | assembly (e : AssemblyError)
  | fault (f : Fault)
  deriving DecidableEq, Repr

def SessionError.message : SessionError → String
  | .noProgram => "No program loaded"
  | .assembly e => e.message
  | .fault f => f.message

namespace Session

/-- the session after its memory has been changed -/
def mapMemory (s : Session) (f : Memory → Memory) : Session :=
  { s with machine := { s.machine with memory := f s.machine.memory } }

def assemble (s : Session) (source : Text) (origin : Address) : Except SessionError Session :=
  match Mini8086.assemble source origin with
  | .ok p => .ok ⟨s.machine.load p, some p⟩
  | .error e => .error (.assembly e)

def reset (s : Session) : Session := ⟨s.machine.reset, none⟩

def seek (s : Session) (a : Address) : Except SessionError Session :=
  match s.program with
  | none => .error .noProgram
  | some _ =>
    match s.machine.seek a with
    | .ok m => .ok { s with machine := m }
    | .error f => .error (.fault f)

/-- one instruction, if there is one left -/
def step (s : Session) : Except SessionError (Option (Visit × Session)) :=
  match s.program with
  | none => .error .noProgram
  | some _ =>
    match s.machine.step with
    | .ok none => .ok none
    | .ok (some (v, m)) => .ok (some (v, { s with machine := m }))
    | .error f => .error (.fault f)

/-- a run from `start`, or else from the origin of the program -/
def run (s : Session) (start : Option Address) (budget : Nat) : Except SessionError Machine.Run :=
  match s.program with
  | none => .error .noProgram
  | some p => .ok (s.machine.runAt (start.getD p.origin) budget)

end Session

end Mini8086
