import Mini8086.Proofs.Plain
import Mini8086.Proofs.Stepping

/-!
# Machines in lockstep

Two machines are `Alike` when they have the same processor and are at the same place of programs
that do the same, instruction by instruction (`Instruction.Twin`), while their memories may differ
in the cells of a set `D`.  As long as nothing is fetched from these cells (`Instruction.Avoids`),
the machines stay alike, and the calls made of them have the same answers, but for the source lines
that are told (`Answer.bare`).

* `Operation.exec_alike`, `Machine.step_alike`   one operation and one step;
* `Machine.runAfter_alike`                       a run, as far as it does not fetch from `D`;
* `Machine.calls_alike`                          any calls, when the memories hold the same.

How many instructions were executed is counted on from different numbers, so alike machines have
counts at a fixed distance.
-/

namespace Mini8086

/-! ## outcomes -/

/-- Both fail in the same way, or both succeed with results that are related. -/
inductive SameOutcome {ε α β : Type} (R : α → β → Prop) : Except ε α → Except ε β → Prop
  | ok {a : α} {b : β} (h : R a b) : SameOutcome R (.ok a) (.ok b)
  | error (e : ε) : SameOutcome R (.error e) (.error e)

section
variable {ε α β γ δ : Type} {R : α → β → Prop} {S : γ → δ → Prop}

theorem SameOutcome.map {x : Except ε α} {y : Except ε β} {f : α → γ} {g : β → δ}
    (h : SameOutcome R x y) (hf : ∀ a b, R a b → S (f a) (g b)) :
    SameOutcome S (x.map f) (y.map g) := by
  cases h with
  | ok h => exact .ok (hf _ _ h)
  | error e => exact .error e

theorem SameOutcome.of_eq (x : Except ε α) : SameOutcome Eq x x := by
  cases x with
  | ok a => exact .ok rfl
  | error e => exact .error e

end

/-! ## memories -/

namespace Memory

/-- The memories hold the same in every cell that is not in `D`. -/
def AgreeOff (D : Nat → Prop) (m n : Memory) : Prop := ∀ a, ¬ D (cell a) → m.read a = n.read a

variable {D : Nat → Prop} {m n : Memory}

theorem AgreeOff.write (h : m.AgreeOff D n) (a : Address) (b : Byte) :
    (m.write a b).AgreeOff D (n.write a b) := by
  intro c hc
  rw [read_write, read_write, h c hc]

theorem AgreeOff.writeWord (h : m.AgreeOff D n) (a : Address) (v : Word) :
    (m.writeWord a v).AgreeOff D (n.writeWord a v) :=
  (h.write _ _).write _ _

theorem AgreeOff.store (h : m.AgreeOff D n) (a : Address) (w : Width) (v : BitVec w.bits) :
    (m.store a w v).AgreeOff D (n.store a w v) := by
  cases w with
  | byte => exact h.write a v
  | word => exact h.writeWord a v
  | dword => exact (h.writeWord _ _).writeWord _ _

theorem AgreeOff.load (h : m.AgreeOff D n) (a : Address) (bs : List Byte) :
    (m.load a bs).AgreeOff D (n.load a bs) := by
  induction bs generalizing m n a with
  | nil => exact h
  | cons b bs ih => exact ih (h.write a b) (a + 1)

theorem AgreeOff.readWord (h : m.AgreeOff D n) {a : Address} (h0 : ¬ D (cell a))
    (h1 : ¬ D (cell (a + 1))) : m.readWord a = n.readWord a := by
  rw [Memory.readWord, Memory.readWord, h _ h0, h _ h1]

/-- What is fetched from outside `D` is the same. -/
theorem AgreeOff.fetch (h : m.AgreeOff D n) {a : Address} {w : Width}
    (ha : ∀ k < w.bytes, ¬ D (cell (a + k))) : m.fetch a w = n.fetch a w := by
  cases w with
  | byte => exact h a (ha 0 (by decide))
  | word => exact h.readWord (ha 0 (by decide)) (ha 1 (by decide))
  | dword =>
    have hlow := h.readWord (ha 0 (by decide)) (ha 1 (by decide))
    have hhigh := h.readWord (ha 2 (by decide)) (ha 3 (by decide))
    exact congrArg₂ (· ++ ·) hhigh hlow

end Memory

/-! ## states -/

/-- The same processor, and memories that differ in the cells of `D` at most. -/
structure State.Alike (D : Nat → Prop) (s t : State) : Prop where
  cpu : s.cpu = t.cpu
  memory : s.memory.AgreeOff D t.memory

/-- The source is not in the cells of `D`. -/
def Source.Avoids (D : Nat → Prop) (s : State) (w : Width) : Source → Prop
  | .mem p => ∀ k < w.bytes, ¬ D (cell (s.pointee p + k))
  | _ => True

/-- The operation does not fetch from the cells of `D`. -/
def Operation.Avoids (D : Nat → Prop) (s : State) : Operation → Prop
  | .move dst src => src.Avoids D s (moveWidth dst src)
  | .alu _ dst src => src.Avoids D s dst.width
  | _ => True

section
variable {D : Nat → Prop} {s t : State}

theorem State.Alike.value (h : s.Alike D t) {w : Width} {src : Source} (hD : src.Avoids D s w) :
    s.value w src = t.value w src := by
  cases src with
  | reg r => exact congrArg (fun c : Cpu => (c.get r).setWidth w.bits) h.cpu
  | mem p =>
    have hp : s.pointee p = t.pointee p := by rw [pointee, pointee, h.cpu]
    show s.memory.fetch (s.pointee p) w = t.memory.fetch (t.pointee p) w
    rw [← hp]
    exact h.memory.fetch hD
  | imm v => rfl

theorem State.Alike.put (h : s.Alike D t) (w : Width) (v : BitVec w.bits) (dst : Place) :
    (s.put w v dst).Alike D (t.put w v dst) := by
  cases dst with
  | reg r => exact ⟨congrArg (fun c : Cpu => c.set r (v.setWidth r.width.bits)) h.cpu, h.memory⟩
  | mem p =>
    have hp : s.pointee p = t.pointee p := by rw [pointee, pointee, h.cpu]
    refine ⟨h.cpu, ?_⟩
    show (s.memory.store (s.pointee p) w v).AgreeOff D (t.memory.store (t.pointee p) w v)
    rw [← hp]
    exact h.memory.store _ w v

theorem State.Alike.setFlags (h : s.Alike D t) (f : Flags) :
    (s.setFlags f).Alike D (t.setFlags f) :=
  ⟨congrArg (fun c : Cpu => { c with flags := f }) h.cpu, h.memory⟩

theorem State.Alike.setResult (h : s.Alike D t) (r : Register) (v : BitVec r.width.bits)
    (f : Flags) : (s.setResult r v f).Alike D (t.setResult r v f) :=
  ⟨congrArg (fun c : Cpu => { c.set r v with flags := f }) h.cpu, h.memory⟩

/-- states that are alike, and the same way on -/
def SameNext (D : Nat → Prop) (p q : State × Next) : Prop := p.1.Alike D q.1 ∧ p.2 = q.2

theorem State.Alike.divide (h : s.Alike D t) (a : Address) (src : Register) :
    SameOutcome (State.Alike D) (s.divide a src) (t.divide a src) := by
  obtain ⟨c, m⟩ := s
  obtain ⟨d, n⟩ := t
  obtain ⟨rfl, hm⟩ := h
  cases src with
  | byte r =>
    refine (SameOutcome.of_eq _).map fun p q hpq => ?_
    rw [hpq]
    exact ⟨rfl, hm⟩
  | word r =>
    refine (SameOutcome.of_eq _).map fun p q hpq => ?_
    rw [hpq]
    exact ⟨rfl, hm⟩

theorem jumpTo_congr {code code' : List Instruction} (hc : indexOf? code = indexOf? code')
    (a : Address) (target : Option Address) : jumpTo code a target = jumpTo code' a target := by
  unfold jumpTo
  rw [hc]

/-- An operation that does not fetch from `D` leads alike states to alike states. -/
theorem Operation.exec_alike {code code' : List Instruction} (hc : indexOf? code = indexOf? code')
    (h : s.Alike D t) {op : Operation} (hD : op.Avoids D s) (a : Address) :
    SameOutcome (SameNext D) (op.exec code a s) (op.exec code' a t) := by
  cases op with
  | move dst src =>
    dsimp only [Operation.exec]
    rw [h.value hD]
    exact .ok ⟨h.put _ _ dst, rfl⟩
  | divide src =>
    exact (h.divide a src).map fun p q hpq => ⟨hpq, rfl⟩
  | alu op dst src =>
    dsimp only [Operation.exec]
    rw [h.value hD, h.cpu]
    refine .ok ⟨?_, rfl⟩
    split
    · exact h.setFlags _
    · exact h.setResult dst _ _
  | jump c target =>
    dsimp only [Operation.exec]
    rw [h.cpu, jumpTo_congr hc]
    split
    · refine (SameOutcome.of_eq _).map fun p q hpq => ?_
      rw [hpq]
      exact ⟨h, rfl⟩
    · exact .ok ⟨h, rfl⟩
  | loop target =>
    dsimp only [Operation.exec]
    rw [h.cpu, jumpTo_congr hc]
    split
    · exact .ok ⟨⟨rfl, h.memory⟩, rfl⟩
    · refine (SameOutcome.of_eq _).map fun p q hpq => ?_
      rw [hpq]
      exact ⟨⟨rfl, h.memory⟩, rfl⟩
  | multiply src =>
    dsimp only [Operation.exec]
    refine .ok ⟨?_, rfl⟩
    unfold State.multiply
    rw [h.cpu]
    cases src with
    | byte r => exact ⟨rfl, h.memory⟩
    | word r => exact ⟨rfl, h.memory⟩
  | unary op dst =>
    dsimp only [Operation.exec]
    rw [h.cpu]
    exact .ok ⟨h.setResult dst _ _, rfl⟩
  | shift d dst =>
    dsimp only [Operation.exec]
    rw [h.cpu]
    exact .ok ⟨h.setResult dst _ _, rfl⟩
  | clearCarry =>
    dsimp only [Operation.exec]
    rw [h.cpu]
    exact .ok ⟨h.setFlags _, rfl⟩
  | nothing | halt => exact .ok ⟨h, rfl⟩

end

/-! ## instructions -/

/-- Instructions at one address, of one length, that do the same. -/
structure Instruction.Twin (i j : Instruction) : Prop where
  address : i.address = j.address
  length : i.length = j.length
  operation : i.operation?.map Operation.cut = j.operation?.map Operation.cut

/-- The instruction does not fetch from the cells of `D`. -/
def Instruction.Avoids (D : Nat → Prop) (s : State) (i : Instruction) : Prop :=
  ∀ op, i.operation?.map Operation.cut = some op → op.Avoids D s

/-- the empty set of cells -/
def noCell : Nat → Prop := fun _ => False

theorem Instruction.avoids_noCell (i : Instruction) (s : State) : i.Avoids noCell s := by
  intro op _
  have hsrc (w : Width) (src : Source) : src.Avoids noCell s w := by
    cases src with
    | mem p => exact fun k _ h => h
    | _ => exact trivial
  cases op with
  | move dst src => exact hsrc _ src
  | alu op dst src => exact hsrc _ src
  | _ => exact trivial

theorem indexOf?_congr {code code' : List Instruction}
    (h : List.Forall₂ Instruction.Twin code code') : indexOf? code = indexOf? code' := by
  funext a
  induction h with
  | nil => rfl
  | @cons i j is js hij _ ih =>
    unfold indexOf? at ih ⊢
    rw [List.findIdx?_cons, List.findIdx?_cons, hij.address, ih]

theorem Instruction.exec_cut (i : Instruction) (code : List Instruction) (s : State) :
    i.exec code s =
      match i.operation?.map Operation.cut with
      | some op => op.exec code i.address s
      | none => .error (.malformed i.address) := by
  unfold Instruction.exec
  cases i.operation? with
  | none => rfl
  | some op => exact (op.exec_cut code i.address s).symm

theorem Instruction.Twin.exec_alike {i j : Instruction} (hij : i.Twin j)
    {code code' : List Instruction} (hc : indexOf? code = indexOf? code') {D : Nat → Prop}
    {s t : State} (h : s.Alike D t) (hD : i.Avoids D s) :
    SameOutcome (SameNext D) (i.exec code s) (j.exec code' t) := by
  rw [Instruction.exec_cut, Instruction.exec_cut, ← hij.operation, ← hij.address]
  unfold Instruction.Avoids at hD
  cases ho : i.operation?.map Operation.cut with
  | none => exact .error _
  | some op => exact Operation.exec_alike hc h (hD op ho) i.address

/-! ## machines -/

/-- the visit without its source line -/
def Visit.bare (v : Visit) : Visit := { v with line := [] }

namespace Machine

/-- The same processor, the same place in programs that do the same, and memories that differ in the
cells of `D` at most; the counts of instructions are `k` and `l` from each other. -/
structure Alike (D : Nat → Prop) (k l : Nat) (m n : Machine) : Prop where
  state : m.toState.Alike D n.toState
  program : List.Forall₂ Instruction.Twin m.program n.program
  pc : m.pc = n.pc
  halted : m.halted = n.halted
  executed : m.executed + k = n.executed + l

variable {D : Nat → Prop} {k l : Nat} {m n : Machine}

theorem Alike.isDone (h : m.Alike D k l n) : m.isDone = n.isDone := by
  rw [Machine.isDone, Machine.isDone, h.halted, h.pc, h.program.length_eq]

theorem Alike.twin (h : m.Alike D k l n) {i j : Instruction} (hi : m.program[m.pc]? = some i)
    (hj : n.program[n.pc]? = some j) : i.Twin j := by
  rw [← h.pc] at hj
  obtain ⟨hlt, rfl⟩ := List.getElem?_eq_some_iff.mp hi
  obtain ⟨hlt', rfl⟩ := List.getElem?_eq_some_iff.mp hj
  exact h.program.get hlt hlt'

/-- Alike machines that go on in the same place, with `c` instructions more, are alike. -/
theorem Alike.goOn (h : m.Alike D k l n) {s t : State} (hs : s.Alike D t) (pc c : Nat)
    (halted : Bool) (a : Address) : Alike D k l
      ({ m with toState := s, pc := pc, halted := halted, executed := m.executed + c }.pointTo a)
      ({ n with toState := t, pc := pc, halted := halted, executed := n.executed + c }.pointTo a) :=
  have he : m.executed + c + k = n.executed + c + l := by
    have := h.executed
    omega
  ⟨⟨congrArg (fun c : Cpu => c.pointTo a) hs.cpu, hs.memory⟩, h.program, rfl, rfl, he⟩

theorem Alike.advance (h : m.Alike D k l n) {i j : Instruction} (hij : i.Twin j) {s t : State}
    (hs : s.Alike D t) (next : Next) :
    (m.advance i s next).Alike D k l (n.advance j t next) := by
  have hn : i.nextAddress = j.nextAddress := by
    rw [Instruction.nextAddress, Instruction.nextAddress, hij.address, hij.length]
  unfold Machine.advance
  dsimp only
  rw [hn, h.pc, h.halted]
  cases next with
  | following => exact h.goOn hs (n.pc + 1) 1 n.halted _
  | jump index target => exact h.goOn hs index 1 n.halted target
  | halt => exact h.goOn hs n.pc 1 true _

/-- steps with the same visit to alike machines -/
def SameStep (D : Nat → Prop) (k l : Nat) (p q : Visit × Machine) : Prop :=
  p.1.bare = q.1.bare ∧ p.2.Alike D k l q.2

/-- Alike machines make the same step, if it does not fetch from `D`. -/
theorem step_alike (h : m.Alike D k l n)
    (hD : ∀ i, m.program[m.pc]? = some i → i.Avoids D m.toState) :
    SameOutcome (Option.Rel (SameStep D k l)) m.step n.step := by
  cases hd : m.isDone with
  | true =>
    rw [step_of_isDone hd, step_of_isDone (h.isDone ▸ hd)]
    exact .ok .none
  | false =>
    obtain ⟨hh, i, hi⟩ := exists_instruction hd
    obtain ⟨hh', j, hj⟩ := exists_instruction (h.isDone ▸ hd)
    have hij := h.twin hi hj
    rw [step_of_getElem? hh hi, step_of_getElem? hh' hj]
    refine (hij.exec_alike (indexOf?_congr h.program) h.state (hD i hi)).map fun p q hpq => ?_
    obtain ⟨hs, hnext⟩ := hpq
    rw [hnext]
    exact .some ⟨congrArg (fun a => Visit.mk a []) hij.address, h.advance hij hs q.2⟩

theorem seek_alike (h : m.Alike D k l n) (a : Address) :
    SameOutcome (Alike D k l) (m.seek a) (n.seek a) := by
  unfold seek
  rw [indexOf?_congr h.program]
  cases indexOf? n.program a with
  | none => exact .error _
  | some index => exact .ok (h.goOn h.state index 0 false a)

/-! ## runs -/

/-- runs with the same visits to alike machines that stop for the same reason -/
structure Run.Alike (D : Nat → Prop) (k l : Nat) (r r' : Run) : Prop where
  trace : r.trace.map Visit.bare = r'.trace.map Visit.bare
  machine : r.machine.Alike D k l r'.machine
  stop : r.stop = r'.stop

/-- A run from alike machines goes the same way, if it never fetches from `D`. -/
theorem runAfter_alike {before before' : List Visit}
    (hb : before.map Visit.bare = before'.map Visit.bare) (h : m.Alike D k l n) {budget : Nat}
    (hD : ∀ vs last, vs.length < budget → Steps m vs last →
      ∀ i, last.program[last.pc]? = some i → i.Avoids D last.toState) :
    (runAfter before m budget).Alike D k l (runAfter before' n budget) := by
  have hrev : before.reverse.map Visit.bare = before'.reverse.map Visit.bare := by
    rw [List.map_reverse, List.map_reverse, hb]
  induction budget generalizing before before' m n with
  | zero =>
    refine ⟨hrev, h, ?_⟩
    unfold runAfter
    rw [h.isDone]
  | succ budget ih =>
    have hs := step_alike h (hD [] m (Nat.succ_pos _) (.none m))
    unfold runAfter
    generalize hx : m.step = x at hs
    generalize n.step = y at hs
    cases hs with
    | error f => exact ⟨hrev, h, rfl⟩
    | ok ho =>
      cases ho with
      | none => exact ⟨hrev, h, rfl⟩
      | @some p q hpq =>
        obtain ⟨v, next⟩ := p
        obtain ⟨w, next'⟩ := q
        obtain ⟨hv, hnext⟩ := hpq
        have hb' : (v :: before).map Visit.bare = (w :: before').map Visit.bare :=
          congrArg₂ List.cons hv hb
        refine ih hb' hnext (fun vs last hl hsteps => ?_) ?_
        · exact hD (v :: vs) last (Nat.succ_lt_succ hl) (.more hx hsteps)
        · rw [List.map_reverse, List.map_reverse, hb']

/-! ## calls -/

/-- the answer without source lines -/
def Answer.bare : Answer → Answer
  | .stepped v => .stepped (v.map Visit.bare)
  | .ran trace halted cut => .ran (trace.map Visit.bare) halted cut
  | .sought => .sought

theorem Run.Alike.answer {r r' : Run} (h : r.Alike D k l r') :
    r.answer.map Answer.bare = r'.answer.map Answer.bare := by
  unfold Run.answer
  rw [h.stop, h.machine.halted]
  cases r'.stop with
  | done => exact congrArg (fun t => Except.ok (Answer.ran t r'.machine.halted false)) h.trace
  | budget => exact congrArg (fun t => Except.ok (Answer.ran t r'.machine.halted true)) h.trace
  | fault f => rfl

theorem run_alike (h : m.Alike noCell k l n) (budget : Nat) :
    (m.run budget).Alike noCell k l (n.run budget) :=
  runAfter_alike rfl h fun _ last _ _ i _ => i.avoids_noCell last.toState

theorem runAt_alike (h : m.Alike noCell k l n) (a : Address) (budget : Nat) :
    (m.runAt a budget).Alike noCell k l (n.runAt a budget) := by
  have hs := seek_alike h a
  unfold runAt
  generalize m.seek a = x at hs
  generalize n.seek a = y at hs
  cases hs with
  | ok hstart => exact run_alike hstart budget
  | error f => exact ⟨rfl, h, rfl⟩

/-- Alike machines with memories that hold the same give the same answer to a call. -/
theorem call_alike (h : m.Alike noCell k l n) (c : Call) :
    (m.call c).1.map Answer.bare = (n.call c).1.map Answer.bare ∧
      (m.call c).2.Alike noCell k l (n.call c).2 := by
  unfold call
  cases c with
  | step =>
    have hs := step_alike h fun i _ => i.avoids_noCell m.toState
    dsimp only
    generalize m.step = x at hs
    generalize n.step = y at hs
    cases hs with
    | error f => exact ⟨rfl, h⟩
    | ok ho =>
      cases ho with
      | none => exact ⟨rfl, h⟩
      | some hpq => exact ⟨congrArg (fun v => Except.ok (Answer.stepped (some v))) hpq.1, hpq.2⟩
  | run budget => exact ⟨(run_alike h budget).answer, (run_alike h budget).machine⟩
  | seek a =>
    have hs := seek_alike h a
    dsimp only
    generalize m.seek a = x at hs
    generalize n.seek a = y at hs
    cases hs with
    | error f => exact ⟨rfl, h⟩
    | ok hnext => exact ⟨rfl, hnext⟩
  | runAt a budget => exact ⟨(runAt_alike h a budget).answer, (runAt_alike h a budget).machine⟩

theorem calls_alike (h : m.Alike noCell k l n) (cs : List Call) :
    (m.calls cs).1.map (Except.map Answer.bare) = (n.calls cs).1.map (Except.map Answer.bare) ∧
      (m.calls cs).2.Alike noCell k l (n.calls cs).2 := by
  induction cs generalizing m n with
  | nil => exact ⟨rfl, h⟩
  | cons c cs ih =>
    obtain ⟨hanswer, hnext⟩ := call_alike h c
    obtain ⟨hanswers, hlast⟩ := ih hnext
    exact ⟨congrArg₂ List.cons hanswer hanswers, hlast⟩

end Machine

end Mini8086
