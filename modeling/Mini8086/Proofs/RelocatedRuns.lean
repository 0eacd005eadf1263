import Mini8086.Proofs.Lockstep
import Mini8086.Proofs.Relocation
import Mini8086.Proofs.Runs

/-!
# Programs that run at another origin

A program knows where it lies by `IP` and by the addresses that its branches lead to, and no
operand of a source names `IP`.  So the program `k` bytes further up executes the same instructions
in the same order, and what it leaves in flags and registers is the same but for `IP`, as long as
none of its instructions reads from memory: the bytes of the program itself lie elsewhere.

* `State.Beside`            states that differ in memory and in `IP` at most;
* `Operation.exec_raise`    an operation from states beside each other;
* `Machine.step_raise`, `Machine.run_raise`   a step and a run, beside those further up;
* `Machine.trace_eq`        a run tells of the instructions at the places of `Machine.indices`.

The last theorem is for sources whose branches lead to labels, from text to runs.
-/

namespace Mini8086

/-! ## what depends on the place -/

def Operation.raise (k : Nat) : Operation → Operation
  | .jump c target => .jump c (target.map (· + k))
  | .loop target => .loop (target.map (· + k))
  | op => op

def Next.raise (k : Nat) : Next → Next
  | .jump index target => .jump index (target + k)
  | next => next

/-- the same fault further up -/
def Fault.raise (k : Nat) : Fault → Fault
  | .divideByZero a => .divideByZero (a + k)
  | .divideOverflow a q => .divideOverflow (a + k) q
  | .invalidTarget a t => .invalidTarget (a + k) (t + k)
  | .noInstruction a => .noInstruction (a + k)
  | .malformed a => .malformed (a + k)

def Visit.raise (k : Nat) (v : Visit) : Visit := { v with address := v.address + k }

def Machine.Stop.raise (k : Nat) : Machine.Stop → Machine.Stop
  | .fault f => .fault (f.raise k)
  | stop => stop

theorem operation?_raise (k : Nat) (i : Instruction) :
    (i.raise k).operation? = i.operation?.map (Operation.raise k) := by
  unfold Instruction.operation?
  rw [target?_raise, mnemonic_raise, operands_raise]
  generalize i.mnemonic = m
  generalize i.operands = ops
  split
  · next d s => cases d.place? <;> cases s.source? <;> rfl
  · next s => cases s.source? <;> rfl
  · rfl
  · rfl
  · rfl
  · rfl
  · rfl
  · rfl
  · rfl
  · next b =>
    unfold Branch.operation
    cases b.condition? <;> rfl
  · rfl

theorem indexOf?_raise (k : Nat) (code : List Instruction) (a : Address) :
    indexOf? (code.map (Instruction.raise k)) (a + k) = indexOf? code a := by
  unfold indexOf?
  rw [List.findIdx?_map]
  congr 1
  funext i
  show (i.address + k == a + k) = (i.address == a)
  rw [Bool.eq_iff_iff, beq_iff_eq, beq_iff_eq, Nat.add_right_cancel_iff]

theorem jumpTo_raise (k : Nat) (code : List Instruction) (a : Address) (target : Option Address) :
    jumpTo (code.map (Instruction.raise k)) (a + k) (target.map (· + k)) =
      ((jumpTo code a target).map (Next.raise k)).mapError (Fault.raise k) := by
  cases target with
  | none => rfl
  | some t =>
    unfold jumpTo
    dsimp only [Option.map_some]
    rw [indexOf?_raise]
    cases indexOf? code t <;> rfl

/-! ## states beside each other -/

/-- The states differ in memory and in `IP` at most. -/
structure State.Beside (s t : State) : Prop where
  flags : s.cpu.flags = t.cpu.flags
  word : ∀ r, r ≠ .ip → s.cpu.registers.getWord r = t.cpu.registers.getWord r

/-- The source is neither memory nor `IP`. -/
def Source.Steady : Source → Prop
  | .reg r => r ≠ .word .ip
  | .mem _ => False
  | .imm _ => True

/-- The operation takes nothing from memory and nothing from `IP`. -/
def Operation.Steady : Operation → Prop
  | .move _ src => src.Steady
  | .alu _ dst src => dst ≠ .word .ip ∧ src.Steady
  | .unary _ r | .multiply r | .divide r | .shift _ r => r ≠ .word .ip
  | _ => True

namespace State
variable {s t : State}

theorem Beside.byte (h : s.Beside t) (r : ByteRegister) :
    s.cpu.registers.getByte r = t.cpu.registers.getByte r :=
  congrArg (Registers.half r.isHigh) (h.word r.owner r.owner_ne_ip)

theorem Beside.get (h : s.Beside t) {r : Register} (hr : r ≠ .word .ip) :
    s.cpu.get r = t.cpu.get r := by
  cases r with
  | word r => exact h.word r fun he => hr (congrArg Register.word he)
  | byte r => exact h.byte r

theorem Beside.value (h : s.Beside t) (w : Width) {src : Source} (hs : src.Steady) :
    s.value w src = t.value w src := by
  cases src with
  | reg r => exact congrArg (BitVec.setWidth w.bits) (h.get hs)
  | mem p => exact hs.elim
  | imm v => rfl

theorem Beside.setWord (h : s.Beside t) (r : WordRegister) (v : Word) :
    Beside { s with cpu := s.cpu.setWord r v } { t with cpu := t.cpu.setWord r v } := by
  refine ⟨h.flags, fun q hq => ?_⟩
  show (s.cpu.registers.setWord r v).getWord q = (t.cpu.registers.setWord r v).getWord q
  simp [h.word q hq]

theorem Beside.set (h : s.Beside t) (r : Register) (v : BitVec r.width.bits) :
    Beside { s with cpu := s.cpu.set r v } { t with cpu := t.cpu.set r v } := by
  cases r with
  | word r => exact h.setWord r v
  | byte r =>
    -- the other half of the owner is written back
    refine ⟨h.flags, fun q hq => ?_⟩
    show (s.cpu.registers.setWord r.owner _).getWord q =
      (t.cpu.registers.setWord r.owner _).getWord q
    simp [h.word r.owner r.owner_ne_ip, h.word q hq]

theorem Beside.setFlags (h : s.Beside t) (f : Flags) : (s.setFlags f).Beside (t.setFlags f) :=
  ⟨rfl, h.word⟩

theorem Beside.setResult (h : s.Beside t) (r : Register) (v : BitVec r.width.bits) (f : Flags) :
    (s.setResult r v f).Beside (t.setResult r v f) :=
  (h.set r v).setFlags f

theorem Beside.put (h : s.Beside t) (w : Width) (v : BitVec w.bits) (dst : Place) :
    (s.put w v dst).Beside (t.put w v dst) := by
  cases dst with
  | reg r => exact h.set r (v.setWidth r.width.bits)
  | mem p => exact ⟨h.flags, h.word⟩

theorem Beside.pointTo (h : s.Beside t) (a b : Address) :
    Beside { s with cpu := s.cpu.pointTo a } { t with cpu := t.cpu.pointTo b } := by
  refine ⟨h.flags, fun q hq => ?_⟩
  show (s.cpu.registers.setWord .ip _).getWord q = (t.cpu.registers.setWord .ip _).getWord q
  simp [hq, h.word q hq]

theorem Beside.multiply (h : s.Beside t) {r : Register} (hr : r ≠ .word .ip) :
    (s.multiply r).Beside (t.multiply r) := by
  unfold State.multiply
  cases r with
  | byte r =>
    dsimp only
    rw [h.byte .al, h.byte r, h.flags]
    exact (h.setWord .ax _).setFlags _
  | word r =>
    dsimp only
    have hr' : r ≠ .ip := fun he => hr (congrArg Register.word he)
    rw [h.word .ax WordRegister.noConfusion, h.word r hr', h.flags]
    exact ((h.setWord .ax _).setWord .dx _).setFlags _

/-- A quotient does not depend on where the division is. -/
theorem quotient_raise {n : Nat} (k : Nat) (a : Address) (x : BitVec (n + n)) (y : BitVec n) :
    quotient (a + k) x y = (quotient a x y).mapError (Fault.raise k) := by
  unfold quotient
  split
  · rfl
  · dsimp only
    split <;> rfl

theorem Beside.divide (h : s.Beside t) (k : Nat) (a : Address) {r : Register}
    (hr : r ≠ .word .ip) :
    SameOutcome Beside ((s.divide a r).mapError (Fault.raise k)) (t.divide (a + k) r) := by
  unfold State.divide
  cases r with
  | byte r =>
    dsimp only
    rw [h.word .ax WordRegister.noConfusion, h.byte r, quotient_raise k]
    cases quotient a (t.cpu.registers.getWord .ax) (t.cpu.registers.getByte r) with
    | error f => exact .error _
    | ok p => exact .ok ((h.set (.byte .al) p.1).set (.byte .ah) p.2)
  | word r =>
    dsimp only
    have hr' : r ≠ .ip := fun he => hr (congrArg Register.word he)
    rw [h.word .ax WordRegister.noConfusion, h.word .dx WordRegister.noConfusion, h.word r hr',
      quotient_raise k]
    cases quotient a (t.cpu.registers.getWord .dx ++ t.cpu.registers.getWord .ax)
      (t.cpu.registers.getWord r) with
    | error f => exact .error _
    | ok p => exact .ok ((h.setWord .ax p.1).setWord .dx p.2)

end State

/-! ## operations -/

section
variable {s t : State} {k : Nat} {code : List Instruction} {a : Address}

/-- states beside each other, and the same way on, further up -/
def BesideNext (k : Nat) (p q : State × Next) : Prop := p.1.Beside q.1 ∧ q.2 = p.2.raise k

theorem jumpTo_beside (h : s.Beside t) (target : Option Address) :
    SameOutcome (BesideNext k)
      (((jumpTo code a target).map fun next => (s, next)).mapError (Fault.raise k))
      ((jumpTo (code.map (Instruction.raise k)) (a + k) (target.map (· + k))).map
        fun next => (t, next)) := by
  rw [jumpTo_raise]
  cases jumpTo code a target with
  | error f => exact .error _
  | ok next => exact .ok ⟨h, rfl⟩

/-- A steady operation has the same outcome further up. -/
theorem Operation.exec_raise (h : s.Beside t) {op : Operation} (hop : op.Steady) :
    SameOutcome (BesideNext k) ((op.exec code a s).mapError (Fault.raise k))
      ((op.raise k).exec (code.map (Instruction.raise k)) (a + k) t) := by
  cases op with
  | move dst src =>
    dsimp only [Operation.raise, Operation.exec]
    rw [h.value _ hop]
    exact .ok ⟨h.put _ _ dst, rfl⟩
  | alu op dst src =>
    dsimp only [Operation.raise, Operation.exec]
    rw [h.value _ hop.2, h.get hop.1, h.flags]
    refine .ok ⟨?_, rfl⟩
    split
    · exact h.setFlags _
    · exact h.setResult dst _ _
  | unary op r =>
    dsimp only [Operation.raise, Operation.exec]
    rw [h.get hop, h.flags]
    exact .ok ⟨h.setResult r _ _, rfl⟩
  | shift d r =>
    dsimp only [Operation.raise, Operation.exec]
    rw [h.get hop, h.flags]
    exact .ok ⟨h.setResult r _ _, rfl⟩
  | multiply r => exact .ok ⟨h.multiply hop, rfl⟩
  | divide r =>
    have hd := h.divide k a hop
    dsimp only [Operation.raise, Operation.exec]
    generalize s.divide a r = x at hd ⊢
    generalize t.divide (a + k) r = y at hd ⊢
    cases x with
    | error f =>
      cases hd
      exact .error _
    | ok s' =>
      cases hd with
      | ok hs => exact .ok ⟨hs, rfl⟩
  | clearCarry =>
    dsimp only [Operation.raise, Operation.exec]
    rw [h.flags]
    exact .ok ⟨h.setFlags _, rfl⟩
  | nothing | halt => exact .ok ⟨h, rfl⟩
  | jump c target =>
    dsimp only [Operation.raise, Operation.exec]
    rw [h.flags]
    split
    · exact jumpTo_beside h target
    · exact .ok ⟨h, rfl⟩
  | loop target =>
    dsimp only [Operation.raise, Operation.exec]
    rw [h.word .cx WordRegister.noConfusion]
    have hcx := h.setWord .cx (t.cpu.registers.getWord .cx - 1)
    split
    · exact .ok ⟨hcx, rfl⟩
    · exact jumpTo_beside hcx target

/-! ## instructions -/

/-- whether the instruction has memory as its second operand, which it reads from -/
def Instruction.readsMemory (i : Instruction) : Bool :=
  match i.operands with
  | [_, .indirect _] => true
  | _ => false

theorem Operand.Written.steady {o : Operand} (h : o.Written) (hm : ∀ p, o ≠ .indirect p)
    {src : Source} (hs : o.source? = some src) : src.Steady := by
  cases o with
  | reg r =>
    cases hs
    exact h.ne_ip
  | indirect p => exact absurd rfl (hm p)
  | imm v =>
    cases hs
    exact trivial
  | addr a => cases hs
  | label name => cases hs

/-- An instruction of a source is steady unless it reads from memory. -/
theorem Instruction.steady {i : Instruction} (hw : ∀ o ∈ i.operands, o.Written)
    (hm : i.readsMemory = false) {op : Operation} (h : i.operation? = some op) : op.Steady := by
  have hreg {r : Register} {ops : List Operand} (ho : i.operands = .reg r :: ops) :
      r ≠ .word .ip := (hw (.reg r) (ho ▸ List.mem_cons_self)).ne_ip
  have hsrc {d o : Operand} {src : Source} (ho : i.operands = [d, o]) (hs : o.source? = some src) :
      src.Steady := by
    refine (hw o (ho ▸ List.mem_cons_of_mem _ List.mem_cons_self)).steady (fun p he => ?_) hs
    rw [Instruction.readsMemory, ho, he] at hm
    cases hm
  unfold Instruction.operation? at h
  split at h
  · next d o _ ho =>
    obtain ⟨dst, -, hd⟩ := Option.bind_eq_some_iff.mp h
    obtain ⟨src, hs, heq⟩ := Option.bind_eq_some_iff.mp hd
    cases heq
    exact hsrc ho hs
  · next op d o _ ho =>
    obtain ⟨src, hs, rfl⟩ := Option.map_eq_some_iff.mp h
    exact ⟨hreg ho, hsrc ho hs⟩
  · next ho =>
    cases h
    exact hreg ho
  · next ho =>
    cases h
    exact hreg ho
  · next ho =>
    cases h
    exact hreg ho
  · next ho =>
    cases h
    exact hreg ho
  · cases h
    exact trivial
  · cases h
    exact trivial
  · cases h
    exact trivial
  · next b _ =>
    cases h
    unfold Branch.operation
    cases b.condition? with
    | none => exact trivial
    | some c => exact trivial
  · cases h

theorem Instruction.exec_raise (h : s.Beside t) {i : Instruction}
    (hi : ∀ op, i.operation? = some op → op.Steady) :
    SameOutcome (BesideNext k) ((i.exec code s).mapError (Fault.raise k))
      ((i.raise k).exec (code.map (Instruction.raise k)) t) := by
  unfold Instruction.exec
  rw [operation?_raise]
  cases ho : i.operation? with
  | none => exact .error _
  | some op => exact Operation.exec_raise h (hi op ho)

end

/-! ## machines -/

namespace Machine

/-- The second machine has the program of the first one `k` bytes further up, is at the same place
in it, and differs in memory and in `IP` at most; the counts of instructions are `c` and `d` from
each other. -/
structure Raised (k c d : Nat) (m n : Machine) : Prop where
  state : m.toState.Beside n.toState
  program : n.program = m.program.map (Instruction.raise k)
  pc : m.pc = n.pc
  halted : m.halted = n.halted
  executed : m.executed + c = n.executed + d

/-- Every instruction of the program is steady. -/
def Steady (m : Machine) : Prop := ∀ i ∈ m.program, ∀ op, i.operation? = some op → op.Steady

variable {k c d : Nat} {m n next : Machine} {v : Visit}

theorem Steady.step (h : m.Steady) (hs : m.step = .ok (some (v, next))) : next.Steady := by
  obtain ⟨i, s, nx, -, -, -, -, rfl⟩ := step_eq_some.mp hs
  cases nx <;> exact h

theorem Raised.isDone (h : m.Raised k c d n) : n.isDone = m.isDone := by
  rw [Machine.isDone, Machine.isDone, h.halted, h.pc, h.program, List.length_map]

theorem Raised.goOn (h : m.Raised k c d n) {s t : State} (hs : s.Beside t) (pc : Nat)
    (halted : Bool) (a b : Address) : Raised k c d
      ({ m with toState := s, pc := pc, halted := halted, executed := m.executed + 1 }.pointTo a)
      ({ n with toState := t, pc := pc, halted := halted, executed := n.executed + 1 }.pointTo b) :=
  have he : m.executed + 1 + c = n.executed + 1 + d := by
    have := h.executed
    omega
  ⟨hs.pointTo a b, h.program, rfl, rfl, he⟩

theorem Raised.advance (h : m.Raised k c d n) (i : Instruction) {s t : State} (hs : s.Beside t)
    (next : Next) : (m.advance i s next).Raised k c d (n.advance (i.raise k) t (next.raise k)) := by
  unfold Machine.advance
  dsimp only
  rw [h.pc, h.halted]
  cases next with
  | following => exact h.goOn hs (n.pc + 1) n.halted _ _
  | jump index target => exact h.goOn hs index n.halted target _
  | halt => exact h.goOn hs n.pc true _ _

/-- the same step further up -/
def RaisedStep (k c d : Nat) (p q : Visit × Machine) : Prop :=
  q.1 = p.1.raise k ∧ p.2.Raised k c d q.2

theorem step_raise (h : m.Raised k c d n) (hm : m.Steady) :
    SameOutcome (Option.Rel (RaisedStep k c d)) (m.step.mapError (Fault.raise k)) n.step := by
  cases hd : m.isDone with
  | true =>
    rw [step_of_isDone hd, step_of_isDone (h.isDone.trans hd)]
    exact .ok .none
  | false =>
    obtain ⟨hh, i, hi⟩ := exists_instruction hd
    have hj : n.program[n.pc]? = some (i.raise k) := by
      rw [h.program, ← h.pc, List.getElem?_map, hi]
      rfl
    have hx : SameOutcome (BesideNext k) ((i.exec m.program m.toState).mapError (Fault.raise k))
        ((i.raise k).exec (m.program.map (Instruction.raise k)) n.toState) :=
      Instruction.exec_raise h.state (hm i (List.mem_of_getElem? hi))
    rw [step_of_getElem? hh hi, step_of_getElem? (h.halted ▸ hh) hj, h.program]
    generalize i.exec m.program m.toState = x at hx ⊢
    generalize (i.raise k).exec (m.program.map (Instruction.raise k)) n.toState = y at hx ⊢
    cases x with
    | error f =>
      cases hx
      exact .error _
    | ok p =>
      cases hx with
      | @ok _ q hpq =>
        obtain ⟨hs, hnext⟩ := hpq
        refine .ok (.some ⟨rfl, ?_⟩)
        show (m.advance i p.1 p.2).Raised k c d (n.advance (i.raise k) q.1 q.2)
        rw [hnext]
        exact h.advance i hs p.2

/-! ## runs -/

/-- the places in the program of the instructions that a run executes, in their order -/
def indices (m : Machine) : Nat → List Nat
  | 0 => []
  | budget + 1 =>
    match m.step with
    | .ok (some (_, next)) => m.pc :: next.indices budget
    | _ => []

/-- an instruction as it is told of -/
def visitAt (code : List Instruction) (index : Nat) : Option Visit :=
  code[index]?.map fun i => ⟨i.address, i.line⟩

theorem indices_of_step (h : m.step = .ok (some (v, next))) (budget : Nat) :
    m.indices (budget + 1) = m.pc :: next.indices budget := by
  rw [indices, h]

/-- A run tells of the instructions at its indices. -/
theorem trace_eq (m : Machine) (budget : Nat) :
    (m.run budget).trace = (m.indices budget).filterMap (visitAt m.program) := by
  induction budget generalizing m with
  | zero => rfl
  | succ budget ih =>
    cases hd : m.isDone with
    | true =>
      rw [run_of_isDone hd, indices, step_of_isDone hd]
      rfl
    | false =>
      obtain ⟨f, hs⟩ | ⟨⟨v, next⟩, hs⟩ := step_of_isDone_eq_false hd
      · rw [run_of_step_eq_error hs, indices, hs]
        rfl
      · obtain ⟨i, s, nx, -, hi, -, rfl, rfl⟩ := step_eq_some.mp hs
        have hprog : (m.advance i s nx).program = m.program := by cases nx <;> rfl
        have hv : visitAt m.program m.pc = some ⟨i.address, i.line⟩ := by
          rw [visitAt, hi]
          rfl
        rw [run_of_step hs, indices_of_step hs, List.filterMap_cons_some hv, ← hprog, ← ih]
        rfl

/-- Runs of which the second executes the instructions of the first further up, and leaves what the
first leaves, but for memory and `IP`. -/
structure Run.Raised (k c d : Nat) (r r' : Run) : Prop where
  trace : r'.trace = r.trace.map (Visit.raise k)
  machine : r.machine.Raised k c d r'.machine
  stop : r'.stop = r.stop.raise k

theorem indices_raise (h : m.Raised k c d n) (hm : m.Steady) (budget : Nat) :
    n.indices budget = m.indices budget := by
  induction budget generalizing m n with
  | zero => rfl
  | succ budget ih =>
    have hs := step_raise h hm
    unfold indices
    generalize hx : m.step = x at hs
    generalize n.step = y at hs
    cases x with
    | error f =>
      cases hs
      rfl
    | ok o =>
      cases hs with
      | ok ho =>
        cases ho with
        | none => rfl
        | some hpq =>
          dsimp only
          rw [h.pc, ih hpq.2 (hm.step hx)]

theorem Run.Raised.after {r r' : Run} (h : r.Raised k c d r') (v : Visit) :
    (r.after [v]).Raised k c d (r'.after [v.raise k]) :=
  ⟨congrArg (v.raise k :: ·) h.trace, h.machine, h.stop⟩

/-- A run of steady instructions goes the same way further up. -/
theorem run_raise (h : m.Raised k c d n) (hm : m.Steady) (budget : Nat) :
    (m.run budget).Raised k c d (n.run budget) := by
  induction budget generalizing m n with
  | zero =>
    refine ⟨rfl, h, ?_⟩
    rw [run_zero, run_zero]
    dsimp only
    rw [h.isDone]
    split <;> rfl
  | succ budget ih =>
    cases hd : m.isDone with
    | true =>
      rw [run_of_isDone hd, run_of_isDone (h.isDone.trans hd)]
      exact ⟨rfl, h, rfl⟩
    | false =>
      have hr := step_raise h hm
      obtain ⟨f, hs⟩ | ⟨⟨v, next⟩, hs⟩ := step_of_isDone_eq_false hd
      · rw [hs] at hr
        generalize hy : n.step = y at hr
        cases hr
        rw [run_of_step_eq_error hs, run_of_step_eq_error hy]
        exact ⟨rfl, h, rfl⟩
      · rw [hs] at hr
        generalize hy : n.step = y at hr
        cases hr with
        | ok ho =>
          cases ho with
          | @some _ q hpq =>
            obtain ⟨w, next'⟩ := q
            obtain ⟨rfl, hnext⟩ := hpq
            rw [run_of_step hs, run_of_step hy]
            exact (ih hnext (hm.step hs)).after v

end Machine

/-! ## sources -/

theorem Program.Assembled.steady {p : Program} (h : p.Assembled)
    (hm : ∀ i ∈ p.instructions, i.readsMemory = false) (m : Machine) : (m.load p).Steady :=
  fun i hi _ ho => Instruction.steady (h.instructions i hi).written (hm i hi) ho

/-- A program and the one further up, loaded into machines that differ in memory and `IP`. -/
theorem Machine.load_raise {m n : Machine} (h : m.toState.Beside n.toState) (p : Program)
    (k : Nat) : (m.load p).Raised k n.executed m.executed (n.load (p.raise k)) where
  state := ⟨h.flags, (h.pointTo p.origin (p.origin + k)).word⟩
  program := rfl
  pc := rfl
  halted := rfl
  executed := Nat.add_comm _ _

/-- A source whose branches lead to its own labels does not depend on its origin.  `k` bytes further
up it is assembled to the program further up, with the same bytes, or to the same error.  If no
instruction reads from memory, the two programs, loaded into machines with the same flags and the
same registers but `IP`, execute the same instructions within any budget: those at the same places of
the program, which are the ones that the run tells of.  They leave the same flags, registers but
`IP`, place and halt, with as many instructions executed, and stop for the same reason. -/
theorem position_independent {source : Text} (h : BranchesToLabels source) (origin k : Address) :
    assemble source (origin + k) = raised k (Program.raise k) (assemble source origin) ∧
    (∀ p : Program, (p.raise k).bytes = p.bytes) ∧
    ∀ p, assemble source origin = .ok p → (∀ i ∈ p.instructions, i.readsMemory = false) →
      ∀ m n : Machine, m.toState.Beside n.toState → ∀ budget,
        (n.load (p.raise k)).indices budget = (m.load p).indices budget ∧
        ((m.load p).run budget).trace =
          ((m.load p).indices budget).filterMap (Machine.visitAt p.instructions) ∧
        ((m.load p).run budget).Raised k n.executed m.executed
          ((n.load (p.raise k)).run budget) := by
  refine ⟨assemble_raise h k, fun p => ?_, fun p hp hm m n hs budget => ?_⟩
  · show (p.listing.map (Entry.raise k)).flatMap _ = _
    rw [List.flatMap_map]
    rfl
  · have hraised := Machine.load_raise hs p k
    have hsteady := (assembled_of_assemble hp).2.steady hm m
    exact ⟨Machine.indices_raise hraised hsteady budget, Machine.trace_eq (m.load p) budget,
      Machine.run_raise hraised hsteady budget⟩

/-- the counting program runs at two origins, whatever the memories hold -/
theorem position_independent_of_counting : BranchesToLabels countingSource ∧
    assemble countingSource (0x100 + 0x20) = .ok (countingProgram.raise 0x20) ∧
    ∀ memory memory' : Memory, ∀ budget, ∃ r r' : Machine.Run,
      (Machine.load { memory := memory } countingProgram).run budget = r ∧
      (Machine.load { memory := memory' } (countingProgram.raise 0x20)).run budget = r' ∧
      r'.trace = r.trace.map (Visit.raise 0x20) ∧ r'.machine.executed = r.machine.executed := by
  have hb : BranchesToLabels countingSource := by decide +kernel
  obtain ⟨hraise, -, hrun⟩ := position_independent hb 0x100 0x20
  rw [assemble_countingSource] at hraise
  refine ⟨hb, hraise, fun memory memory' budget => ⟨_, _, rfl, rfl, ?_⟩⟩
  obtain ⟨-, -, hr⟩ := hrun countingProgram assemble_countingSource (by decide)
    { memory := memory } { memory := memory' } ⟨rfl, fun _ _ => rfl⟩ budget
  exact ⟨hr.trace, hr.machine.executed.symm⟩

end Mini8086
