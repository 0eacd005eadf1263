import Mini8086.Proofs.Footprint
import Mini8086.Proofs.Lockstep
import Mini8086.Proofs.RelocatedRuns

/-!
# What execution takes from memory

A machine takes from memory what its instructions load through a pointer (`Machine.loaded`), and
nothing else: instructions come from the program, never from the bytes of the code in memory.  So
two machines that differ only in cells that the first never loads from do the same
(`Machine.AgreeOff`), however many of these cells are written on the way.

* `Instruction.Assembled.avoids`   what an assembled instruction loads is all that it fetches;
* `Machine.AgreeOff.step`          one step, successful or not;
* `Machine.AgreeOff.run`           a run of any length;
* `Machine.AgreeOff.disturbed`     calls with writes to memory between them;
* `runs_read_only_loads`           both for assembled programs.
-/

namespace Mini8086

/-! ## loads -/

/-- the cells that an instruction loads its source from -/
def Instruction.loads (i : Instruction) (s : State) : List Nat :=
  match i.operands with
  | [.reg r, .indirect p] => cellsFrom (s.pointee p) r.width.bytes
  | _ => []

/-- An assembled instruction fetches nothing but what it loads. -/
theorem Instruction.Assembled.avoids {labels : List Label} {i : Instruction}
    (hi : i.Assembled labels) {D : Nat → Prop} {s : State} (hD : ∀ c ∈ i.loads s, ¬ D c) :
    i.Avoids D s := by
  obtain ⟨enc, he⟩ := hi.exists_encodes
  intro op hop
  unfold Instruction.operation? at hop
  unfold Instruction.loads at hD
  generalize i.mnemonic = m at he hop
  generalize i.operands = ops at he hop hD
  cases he with
  | load r p | aluMemory _ r p =>
    cases hop
    exact fun k hk => hD _ (mem_cellsFrom hk)
  | branchName b name | branchAddress b a =>
    cases hop
    unfold Branch.operation
    cases b.condition? <;> exact trivial
  | _ =>
    cases hop
    exact trivial

theorem Instruction.loads_of_not_readsMemory {i : Instruction} (h : i.readsMemory = false)
    (s : State) : i.loads s = [] := by
  unfold Instruction.readsMemory at h
  unfold Instruction.loads
  split
  · next r p ho =>
    rw [ho] at h
    cases h
  · rfl

namespace Machine

/-- the cells that the next step loads its source from -/
def loads (m : Machine) : List Nat :=
  if m.halted then []
  else
    match m.program[m.pc]? with
    | none => []
    | some i => i.loads m.toState

/-- the cells that are loaded from in the next `n` steps -/
def loaded (m : Machine) : Nat → List Nat
  | 0 => []
  | n + 1 => m.loads ++
    match m.step with
    | .ok (some (_, next)) => next.loaded n
    | _ => []

/-! ## machines with different memories -/

/-- The machine `n` is `m` with another memory, which differs in the cells of `D` at most. -/
structure AgreeOff (D : Nat → Prop) (m n : Machine) : Prop where
  rest : n = { m with memory := n.memory }
  memory : m.memory.AgreeOff D n.memory

variable {D : Nat → Prop} {m n : Machine}

theorem AgreeOff.of_memory {memory : Memory} (h : m.memory.AgreeOff D memory) :
    m.AgreeOff D { m with memory := memory } :=
  ⟨rfl, h⟩

theorem AgreeOff.alike (h : m.AgreeOff D n) : m.toState.Alike D n.toState := by
  refine ⟨?_, h.memory⟩
  rw [h.rest]

theorem AgreeOff.isDone (h : m.AgreeOff D n) : n.isDone = m.isDone := by
  rw [h.rest]
  rfl

/-- Machines that agree go on in the same way from states that are alike. -/
theorem AgreeOff.advance (h : m.AgreeOff D n) (i : Instruction) {s t : State} (hs : s.Alike D t)
    (next : Next) : (m.advance i s next).AgreeOff D (n.advance i t next) := by
  obtain ⟨c, x⟩ := s
  obtain ⟨d, y⟩ := t
  obtain ⟨rfl, hmem⟩ := hs
  rw [h.rest]
  cases next with
  | following | jump | halt => exact ⟨rfl, hmem⟩

section
variable {p : Program}

/-- Machines that agree make the same step, or fail in the same way, if the first loads nothing
from where they differ. -/
theorem AgreeOff.step (hp : p.Assembled) (hm : m.program = p.instructions) (h : m.AgreeOff D n)
    (hD : ∀ c ∈ m.loads, ¬ D c) :
    SameOutcome (Option.Rel fun x y => x.1 = y.1 ∧ x.2.AgreeOff D y.2) m.step n.step := by
  cases hd : m.isDone with
  | true =>
    rw [step_of_isDone hd, step_of_isDone (h.isDone.trans hd)]
    exact .ok .none
  | false =>
    obtain ⟨hh, i, hi⟩ := exists_instruction hd
    have hprogram : n.program = m.program := by rw [h.rest]
    have hhn : n.halted = false := by
      rw [h.rest]
      exact hh
    have hin : n.program[n.pc]? = some i := by
      rw [h.rest]
      exact hi
    have havoids : i.Avoids D m.toState := by
      rw [loads, hh, hi] at hD
      exact (hp.instructions i (hm ▸ List.mem_of_getElem? hi)).avoids hD
    rw [step_of_getElem? hh hi, step_of_getElem? hhn hin, hprogram]
    have htwin : i.Twin i := ⟨rfl, rfl, rfl⟩
    refine (htwin.exec_alike rfl h.alike havoids).map fun x y hxy => ?_
    obtain ⟨hs, hnext⟩ := hxy
    rw [hnext]
    exact .some ⟨rfl, h.advance i hs y.2⟩

/-- runs with the same trace to machines that agree, and that stop for the same reason -/
structure Run.AgreeOff (D : Nat → Prop) (r r' : Run) : Prop where
  trace : r'.trace = r.trace
  stop : r'.stop = r.stop
  machine : r.machine.AgreeOff D r'.machine

theorem AgreeOff.run (hp : p.Assembled) (hm : m.program = p.instructions) (h : m.AgreeOff D n)
    {k : Nat} (hD : ∀ c ∈ m.loaded k, ¬ D c) : (m.run k).AgreeOff D (n.run k) := by
  induction k generalizing m n with
  | zero =>
    rw [run_zero, run_zero, h.isDone]
    exact ⟨rfl, rfl, h⟩
  | succ k ih =>
    unfold loaded at hD
    have hfirst := fun c hc => hD c (List.mem_append_left _ hc)
    have hrest := fun c hc => hD c (List.mem_append_right _ hc)
    have hs := h.step hp hm hfirst
    cases hx : m.step with
    | error f =>
      rw [hx] at hs
      generalize hy : n.step = y at hs
      cases hs
      rw [run_of_step_eq_error hx, run_of_step_eq_error hy]
      exact ⟨rfl, rfl, h⟩
    | ok o =>
      rw [hx] at hs hrest
      generalize hy : n.step = y at hs
      cases hs with
      | ok ho =>
        cases ho with
        | none =>
          rw [run_of_isDone (step_eq_none.mp hx), run_of_isDone (step_eq_none.mp hy)]
          exact ⟨rfl, rfl, h⟩
        | @some x y hxy =>
          obtain ⟨v, next⟩ := x
          obtain ⟨w, next'⟩ := y
          obtain ⟨rfl, hnext⟩ := hxy
          have hr := ih ((step_program hx).trans hm) hnext hrest
          rw [run_of_step hx, run_of_step hy]
          exact ⟨congrArg (List.cons _) hr.trace, hr.stop, hr.machine⟩

/-! ## programs that load nothing -/

theorem loads_eq_nil (h : ∀ i ∈ m.program, i.readsMemory = false) : m.loads = [] := by
  unfold loads
  split
  · rfl
  · split
    · rfl
    · next i hi => exact Instruction.loads_of_not_readsMemory (h i (List.mem_of_getElem? hi)) _

theorem loaded_eq_nil (h : ∀ i ∈ m.program, i.readsMemory = false) (k : Nat) :
    m.loaded k = [] := by
  induction k generalizing m with
  | zero => rfl
  | succ k ih =>
    unfold loaded
    rw [loads_eq_nil h, List.nil_append]
    split
    · next next hx =>
      rw [← step_program hx] at h
      exact ih h
    · rfl

theorem AgreeOff.seek (h : m.AgreeOff D n) (a : Address) :
    SameOutcome (AgreeOff D) (m.seek a) (n.seek a) := by
  rw [h.rest]
  unfold Machine.seek
  dsimp only
  cases indexOf? m.program a with
  | none => exact .error _
  | some k => exact .ok ⟨rfl, h.memory⟩

theorem AgreeOff.run_of_not_readsMemory (hp : p.Assembled) (hm : m.program = p.instructions)
    (hr : ∀ i ∈ p.instructions, i.readsMemory = false) (h : m.AgreeOff D n) (k : Nat) :
    (m.run k).AgreeOff D (n.run k) := by
  refine h.run hp hm fun c hc => ?_
  rw [loaded_eq_nil (hm ▸ hr)] at hc
  exact absurd hc List.not_mem_nil

theorem Run.AgreeOff.answer {r r' : Run} (h : r.AgreeOff D r') : r'.answer = r.answer := by
  have hhalted : r'.machine.halted = r.machine.halted := by rw [h.machine.rest]
  rw [Run.answer, Run.answer, h.stop, h.trace, hhalted]

/-- All calls have the same answers, since nothing is loaded. -/
theorem AgreeOff.call (hp : p.Assembled) (hm : m.program = p.instructions)
    (hr : ∀ i ∈ p.instructions, i.readsMemory = false) (h : m.AgreeOff D n) (c : Call) :
    (n.call c).1 = (m.call c).1 ∧ (m.call c).2.AgreeOff D (n.call c).2 := by
  unfold Machine.call
  cases c with
  | step =>
    have hs := h.step hp hm fun c hc => by
      rw [loads_eq_nil (hm ▸ hr)] at hc
      exact absurd hc List.not_mem_nil
    dsimp only
    generalize m.step = x at hs
    generalize n.step = y at hs
    cases hs with
    | error f => exact ⟨rfl, h⟩
    | ok ho =>
      cases ho with
      | none => exact ⟨rfl, h⟩
      | some hxy =>
        exact ⟨congrArg (fun v => Except.ok (Answer.stepped (some v))) hxy.1.symm, hxy.2⟩
  | run budget =>
    have hrun := h.run_of_not_readsMemory hp hm hr budget
    exact ⟨hrun.answer, hrun.machine⟩
  | seek a =>
    have hs := h.seek a
    dsimp only
    generalize m.seek a = x at hs
    generalize n.seek a = y at hs
    cases hs with
    | error f => exact ⟨rfl, h⟩
    | ok hnext => exact ⟨rfl, hnext⟩
  | runAt a budget =>
    have hs := h.seek a
    unfold runAt
    dsimp only
    generalize hx : m.seek a = x at hs
    generalize n.seek a = y at hs
    cases hs with
    | error f => exact ⟨rfl, h⟩
    | ok hnext =>
      have hrun := hnext.run_of_not_readsMemory hp ((seek_program hx).trans hm) hr budget
      exact ⟨hrun.answer, hrun.machine⟩

end

/-- calls one after the other, with a change of the memory before each of them -/
def disturbed (m : Machine) :
    List ((Memory → Memory) × Call) → List (Except Fault Answer) × Machine
  | [] => ([], m)
  | (change, c) :: cs =>
    let r := Machine.call { m with memory := change m.memory } c
    (r.1 :: (r.2.disturbed cs).1, (r.2.disturbed cs).2)

/-- the set of all cells -/
def anyCell : Nat → Prop := fun _ => True

theorem AgreeOff.change (h : m.AgreeOff anyCell n) (memory : Memory) :
    m.AgreeOff anyCell { n with memory := memory } := by
  refine ⟨?_, fun a ha => absurd trivial ha⟩
  rw [h.rest]

theorem AgreeOff.disturbed {p : Program} (hp : p.Assembled) (hm : m.program = p.instructions)
    (hr : ∀ i ∈ p.instructions, i.readsMemory = false) (h : m.AgreeOff anyCell n)
    (cs : List ((Memory → Memory) × Call)) :
    (n.disturbed cs).1 = (m.calls (cs.map Prod.snd)).1 ∧
      (m.calls (cs.map Prod.snd)).2.AgreeOff anyCell (n.disturbed cs).2 := by
  induction cs generalizing m n with
  | nil => exact ⟨rfl, h⟩
  | cons d cs ih =>
    obtain ⟨change, c⟩ := d
    obtain ⟨hanswer, hnext⟩ := (h.change (change n.memory)).call hp hm hr c
    obtain ⟨hanswers, hlast⟩ := ih ((call_program m c).trans hm) hnext
    exact ⟨congrArg₂ List.cons hanswer hanswers, hlast⟩

end Machine

/-- Execution takes nothing from memory but what the instructions load.  Machines whose memories
differ in cells that the first never loads from make the same run, with the same trace and the same
error, and still differ in these cells at most.  If no instruction loads anything, writes to memory
between the calls, wherever they go, change no answer. -/
theorem runs_read_only_loads {source : Text} {origin : Address} {p : Program}
    (hp : assemble source origin = .ok p) {m : Machine} (hm : m.program = p.instructions) :
    (∀ (D : Nat → Prop) (n : Machine) (k : Nat), m.AgreeOff D n → (∀ c ∈ m.loaded k, ¬ D c) →
      (m.run k).AgreeOff D (n.run k)) ∧
    ((∀ i ∈ p.instructions, i.readsMemory = false) →
      ∀ cs : List ((Memory → Memory) × Machine.Call),
        (m.disturbed cs).1 = (m.calls (cs.map Prod.snd)).1 ∧
        (m.calls (cs.map Prod.snd)).2.AgreeOff Machine.anyCell (m.disturbed cs).2) := by
  have hp := (assembled_of_assemble hp).2
  refine ⟨fun D n k h hD => h.run hp hm hD, fun hr cs => ?_⟩
  exact Machine.AgreeOff.disturbed hp hm hr ⟨rfl, fun _ _ => rfl⟩ cs

/-- a program that loads a byte -/
def loadingProgram : Program where
  origin := 0
  instructions := [{
    opcode := [0x8a, 0x04], length := 2, imm := none, address := 0, mnemonic := .mov,
    operands := [.reg (.byte .al), .indirect .si], line := "MOV AL,[SI]".toList, lineNumber := 1 }]
  listing := [⟨0, [0x8a, 0x04], "MOV AL,[SI]".toList⟩]
  labels := []

/-- the byte is taken from cell 5 -/
def loadingMachine : Machine :=
  { program := loadingProgram.instructions, cpu := { registers := { si := 5 } } }

/-- other bytes of the code in memory, and code that is written over while it runs -/
theorem runs_read_only_loads_of_examples :
    assemble "MOV AL,[SI]".toList 0 = .ok loadingProgram ∧
    (loadingMachine.run 1).AgreeOff (· ≠ 5)
      (Machine.run { loadingMachine with memory := Memory.empty.write 0 0x90 } 1) ∧
    assemble countingSource 0x100 = .ok countingProgram ∧
    (Machine.disturbed (.load {} countingProgram)
        [(id, .run 4), (fun memory => memory.write 0x100 0x90, .run 4)]).1 =
      (Machine.calls (.load {} countingProgram) [.run 4, .run 4]).1 := by
  have hload : assemble "MOV AL,[SI]".toList 0 = .ok loadingProgram := rfl
  have hmemory : Memory.empty.AgreeOff (· ≠ 5) (Memory.empty.write 0 0x90) := by
    intro a ha
    have hne : cell 0 ≠ cell a := by
      rw [not_not.mp ha]
      decide
    rw [Memory.read_write, if_neg hne]
  have hloaded : ∀ c ∈ loadingMachine.loaded 1, ¬ c ≠ 5 := by
    intro c hc
    obtain rfl : c = 5 := List.mem_singleton.mp hc
    exact fun hne => hne rfl
  refine ⟨hload, ?_, assemble_countingSource, ?_⟩
  · exact (runs_read_only_loads hload rfl).1 (· ≠ 5) _ 1 (.of_memory hmemory) hloaded
  · exact ((runs_read_only_loads assemble_countingSource (m := .load {} countingProgram) rfl).2
      (by decide) [(id, .run 4), (fun memory => memory.write 0x100 0x90, .run 4)]).1

end Mini8086
