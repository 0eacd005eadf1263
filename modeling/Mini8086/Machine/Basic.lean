import Mini8086.Assembly.Program
import Mini8086.Machine.Operation

/-!
# The machine

A `Machine` is a processor and a memory with a program, the index of the next instruction, whether
it has halted, and how many instructions it has executed since power-on.

* `Machine.load`  takes a program in and copies its bytes to memory;
* `Machine.step`  executes one instruction; there is nothing to execute once the machine is done,
                  that is halted or past the last instruction;
* `Machine.seek`  makes the instruction at an address the next one;
* `Machine.run`   executes instructions until the machine is done, a number of instructions is used
                  up, or one of them fails.

A failing step has no next machine: the one before it stays as it is.
-/

namespace Mini8086

structure Machine extends State where
  program : List Instruction := []
  /-- the index of the next instruction in the program -/
  pc : Nat := 0
  halted : Bool := false
  /-- how many instructions were executed since power-on -/
  executed : Nat := 0

/-- An instruction that was executed: its address and its source line. -/
structure Visit where
  address : Address
  line : Text
  deriving DecidableEq, Repr

namespace Machine

def isDone (m : Machine) : Bool := m.halted || decide (m.program.length ≤ m.pc)

/-- the instruction pointer set to an address -/
def pointTo (m : Machine) (a : Address) : Machine := { m with cpu := m.cpu.pointTo a }

/-! ## programs -/

/-- the bytes of every listing entry at the address of the entry -/
def loadListing (mem : Memory) (listing : List Entry) : Memory :=
  listing.foldl (fun mem e => mem.load e.address e.bytes) mem

/-- The program taken in, with its bytes in memory and the instruction pointer at its origin; other
registers and the count of instructions stay as they are. -/
def load (m : Machine) (p : Program) : Machine :=
  { m with
    memory := loadListing m.memory p.listing
    program := p.instructions
    pc := 0
    halted := false }.pointTo p.origin

/-- power-on state of everything but the memory -/
def reset (m : Machine) : Machine := { memory := m.memory }

def seek (m : Machine) (a : Address) : Except Fault Machine :=
  match indexOf? m.program a with
  | some k => .ok ({ m with pc := k, halted := false }.pointTo a)
  | none => .error (.noInstruction a)

/-! ## one instruction -/

/-- the machine after instruction `i` has led to a state -/
def advance (m : Machine) (i : Instruction) (s : State) (next : Next) : Machine :=
  let m := { m with toState := s, executed := m.executed + 1 }
  match next with
  | .following => { m with pc := m.pc + 1 }.pointTo i.nextAddress
  | .jump k target => { m with pc := k }.pointTo target
  | .halt => { m with halted := true }.pointTo i.nextAddress

def step (m : Machine) : Except Fault (Option (Visit × Machine)) :=
  if m.halted then .ok none
  else
    match m.program[m.pc]? with
    | none => .ok none
    | some i => (i.exec m.program m.toState).map fun (s, next) =>
        some (⟨i.address, i.line⟩, m.advance i s next)

/-! ## many instructions -/

/-- Why a run has ended. -/
inductive Stop where
  | done
  | budget
  | fault (f : Fault)
  deriving DecidableEq, Repr

/-- What a run has done: the instructions it executed, the machine after the last of them, and why
it went no further. -/
structure Run where
  trace : List Visit
  machine : Machine
  stop : Stop

/-- instructions executed on top of `before`, the latest of them first -/
def runAfter (before : List Visit) (m : Machine) : Nat → Run
  | 0 => ⟨before.reverse, m, if m.isDone then .done else .budget⟩
  | budget + 1 =>
    match m.step with
    | .ok none => ⟨before.reverse, m, .done⟩
    | .ok (some (v, next)) => runAfter (v :: before) next budget
    | .error f => ⟨before.reverse, m, .fault f⟩

def run (m : Machine) (budget : Nat) : Run := runAfter [] m budget

/-- a run from the instruction at an address -/
def runAt (m : Machine) (a : Address) (budget : Nat) : Run :=
  match m.seek a with
  | .ok start => start.run budget
  | .error f => ⟨[], m, .fault f⟩

end Machine

end Mini8086
