import Mini8086.Machine.Basic
import Mini8086.Proofs.Encodable

/-!
# Steps and runs of a machine

What a step can do is said once (`step_eq_some`, `step_eq_error`, `exec_next`), and what a run does
once (`runAfter_spec`): it makes steps (`Steps`) until the machine is done, the budget is used up,
or a step fails.  A property that every step keeps is then kept by every run (`Steps.keeps`).

`Call` is what may be asked of a machine, `Machine.call` what it answers and becomes, and
`Machine.calls` goes through a list of calls, a failing call being followed by the next one.
-/

namespace Mini8086

/-! ## where execution goes on -/

theorem indexOf?_eq_some {code : List Instruction} {a : Address} {k : Nat}
    (h : indexOf? code a = some k) : ∃ i, code[k]? = some i ∧ i.address = a := by
  obtain ⟨hk, ha, -⟩ := List.findIdx?_eq_some_iff_getElem.mp h
  exact ⟨code[k], List.getElem?_eq_getElem hk, beq_iff_eq.mp ha⟩

theorem indexOf?_eq_none {code : List Instruction} {a : Address} :
    indexOf? code a = none ↔ ∀ i ∈ code, i.address ≠ a := by
  rw [indexOf?, List.findIdx?_eq_none_iff]
  simp only [beq_eq_false_iff_ne]

theorem jumpTo_eq_ok {code : List Instruction} {a : Address} {target : Option Address}
    {next : Next} (h : jumpTo code a target = .ok next) :
    ∃ k t, next = .jump k t ∧ indexOf? code t = some k := by
  unfold jumpTo at h
  split at h
  · contradiction
  · next t =>
    split at h
    · next k hk => exact ⟨k, t, (Except.ok.inj h).symm, hk⟩
    · contradiction

/-- After an operation execution goes on with the instruction behind, with that of the target, or
stops, and only `halt` stops it. -/
theorem Operation.exec_next {code : List Instruction} {a : Address} {s t : State} {op : Operation}
    {next : Next} (h : op.exec code a s = .ok (t, next)) :
    next = .following ∨ (next = .halt ∧ op = .halt) ∨
      ∃ k target, next = .jump k target ∧ indexOf? code target = some k := by
  cases op with
  | halt =>
    cases h
    exact .inr (.inl ⟨rfl, rfl⟩)
  | divide src =>
    obtain ⟨u, -, hu⟩ := map_eq_ok.mp h
    cases hu
    exact .inl rfl
  | jump c target =>
    dsimp only [Operation.exec] at h
    split at h
    · obtain ⟨n, hn, hp⟩ := map_eq_ok.mp h
      cases hp
      exact .inr (.inr (jumpTo_eq_ok hn))
    · cases h
      exact .inl rfl
  | loop target =>
    dsimp only [Operation.exec] at h
    split at h
    · cases h
      exact .inl rfl
    · obtain ⟨n, hn, hp⟩ := map_eq_ok.mp h
      cases hp
      exact .inr (.inr (jumpTo_eq_ok hn))
  | _ =>
    cases h
    exact .inl rfl

/-- an operation of an instruction that halts comes from `hlt` -/
theorem Instruction.mnemonic_of_operation?_halt {i : Instruction}
    (h : i.operation? = some .halt) : i.mnemonic = .hlt := by
  unfold Instruction.operation? at h
  split at h
  · next d s _ _ =>
    cases hd : d.place? <;> cases hs : s.source? <;> rw [hd, hs] at h <;> cases h
  · next op d s _ _ =>
    cases hs : s.source? <;> rw [hs] at h <;> cases h
  · cases h
  · cases h
  · cases h
  · cases h
  · cases h
  · cases h
  · assumption
  · next b ops _ _ =>
    unfold Branch.operation at h
    split at h <;> cases h
  · cases h

theorem Instruction.exec_eq_ok {i : Instruction} {code : List Instruction} {s : State}
    {r : State × Next} (h : i.exec code s = .ok r) :
    ∃ op, i.operation? = some op ∧ op.exec code i.address s = .ok r := by
  unfold Instruction.exec at h
  split at h
  · next op ho => exact ⟨op, ho, h⟩
  · contradiction

theorem Instruction.exec_next {i : Instruction} {code : List Instruction} {s t : State}
    {next : Next} (h : i.exec code s = .ok (t, next)) :
    next = .following ∨ (next = .halt ∧ i.mnemonic = .hlt) ∨
      ∃ k target, next = .jump k target ∧ indexOf? code target = some k := by
  obtain ⟨op, ho, hx⟩ := Instruction.exec_eq_ok h
  rcases Operation.exec_next hx with hn | ⟨hn, rfl⟩ | hn
  · exact .inl hn
  · exact .inr (.inl ⟨hn, Instruction.mnemonic_of_operation?_halt ho⟩)
  · exact .inr (.inr hn)

namespace Machine
variable {m : Machine}

/-! ## one step -/

theorem isDone_eq_false : m.isDone = false ↔ m.halted = false ∧ m.pc < m.program.length := by
  rw [isDone, Bool.or_eq_false_iff, decide_eq_false_iff_not, Nat.not_le]

theorem step_of_isDone (h : m.isDone = true) : m.step = .ok none := by
  unfold step
  cases hh : m.halted with
  | true => rfl
  | false =>
    rw [isDone, hh, Bool.false_or, decide_eq_true_iff] at h
    rw [if_neg Bool.false_ne_true, List.getElem?_eq_none h]

theorem step_of_getElem? {i : Instruction} (hh : m.halted = false)
    (hi : m.program[m.pc]? = some i) :
    m.step = (i.exec m.program m.toState).map fun r =>
      some (⟨i.address, i.line⟩, m.advance i r.1 r.2) := by
  rw [step, hh, if_neg Bool.false_ne_true, hi]

/-- a machine that is not done is at an instruction -/
theorem exists_instruction (h : m.isDone = false) :
    m.halted = false ∧ ∃ i, m.program[m.pc]? = some i :=
  have h := isDone_eq_false.mp h
  ⟨h.1, _, List.getElem?_eq_getElem h.2⟩

theorem step_eq_none : m.step = .ok none ↔ m.isDone = true := by
  refine ⟨?_, step_of_isDone⟩
  intro h
  by_contra hd
  obtain ⟨hh, i, hi⟩ := exists_instruction (Bool.eq_false_iff.mpr hd)
  rw [step_of_getElem? hh hi] at h
  obtain ⟨r, -, hr⟩ := map_eq_ok.mp h
  cases hr

/-- a machine whose step does something is not done -/
theorem isDone_of_step_ne (h : m.step ≠ .ok none) : m.isDone = false := by
  by_contra hd
  exact h (step_of_isDone (eq_true_of_ne_false hd))

theorem step_eq_some {v : Visit} {next : Machine} :
    m.step = .ok (some (v, next)) ↔ ∃ i s n, m.halted = false ∧ m.program[m.pc]? = some i ∧
      i.exec m.program m.toState = .ok (s, n) ∧ v = ⟨i.address, i.line⟩ ∧
      next = m.advance i s n := by
  constructor
  · intro h
    have hne : m.step ≠ .ok none := by
      rw [h]
      intro hn
      cases hn
    obtain ⟨hh, i, hi⟩ := exists_instruction (isDone_of_step_ne hne)
    rw [step_of_getElem? hh hi] at h
    obtain ⟨⟨s, n⟩, hx, hr⟩ := map_eq_ok.mp h
    cases hr
    exact ⟨i, s, n, hh, hi, hx, rfl, rfl⟩
  · rintro ⟨i, s, n, hh, hi, hx, rfl, rfl⟩
    rw [step_of_getElem? hh hi, hx]
    rfl

theorem step_eq_error {f : Fault} :
    m.step = .error f ↔ ∃ i, m.halted = false ∧ m.program[m.pc]? = some i ∧
      i.exec m.program m.toState = .error f := by
  constructor
  · intro h
    have hne : m.step ≠ .ok none := by
      rw [h]
      intro hn
      cases hn
    obtain ⟨hh, i, hi⟩ := exists_instruction (isDone_of_step_ne hne)
    rw [step_of_getElem? hh hi, map_eq_error] at h
    exact ⟨i, hh, hi, h⟩
  · rintro ⟨i, hh, hi, hx⟩
    rw [step_of_getElem? hh hi, hx]
    rfl

theorem advance_program (i : Instruction) (s : State) (n : Next) :
    (m.advance i s n).program = m.program := by
  cases n <;> rfl

theorem step_program {v : Visit} {next : Machine} (h : m.step = .ok (some (v, next))) :
    next.program = m.program := by
  obtain ⟨i, s, n, -, -, -, -, rfl⟩ := step_eq_some.mp h
  exact advance_program i s n

theorem seek_eq_ok {a : Address} {next : Machine} (h : m.seek a = .ok next) :
    ∃ k, indexOf? m.program a = some k ∧
      next = { m with pc := k, halted := false }.pointTo a := by
  unfold seek at h
  split at h
  · next k hk => exact ⟨k, hk, (Except.ok.inj h).symm⟩
  · contradiction

theorem seek_eq_error {a : Address} {f : Fault} (h : m.seek a = .error f) : f = .noInstruction a := by
  unfold seek at h
  split at h
  · contradiction
  · exact (Except.error.inj h).symm

theorem seek_program {a : Address} {next : Machine} (h : m.seek a = .ok next) :
    next.program = m.program := by
  obtain ⟨k, -, rfl⟩ := seek_eq_ok h
  rfl

/-! ## many steps -/

/-- Successful steps one after the other, with the instructions that they executed. -/
inductive Steps : Machine → List Visit → Machine → Prop
  | none (m : Machine) : Steps m [] m
  | more {m next last : Machine} {v : Visit} {vs : List Visit} (h : m.step = .ok (some (v, next)))
      (hs : Steps next vs last) : Steps m (v :: vs) last

/-- What every step keeps, any number of steps keep. -/
theorem Steps.keeps {P : Machine → Prop}
    (hP : ∀ m v next, P m → m.step = .ok (some (v, next)) → P next) {last : Machine}
    {vs : List Visit} (hs : Steps m vs last) (hm : P m) : P last := by
  induction hs with
  | none m => exact hm
  | more h _ ih => exact ih (hP _ _ _ hm h)

/-- Why a run of `n` steps goes no further than its last machine. -/
def Stop.Explains (stop : Stop) (last : Machine) (budget n : Nat) : Prop :=
  match stop with
  | .done => last.isDone = true
  | .budget => last.isDone = false ∧ n = budget
  | .fault f => last.step = .error f ∧ n < budget

/-- A run makes steps, at most as many as its budget, and then has a reason to stop. -/
theorem runAfter_spec (before : List Visit) (m : Machine) (budget : Nat) :
    ∃ vs, (runAfter before m budget).trace = before.reverse ++ vs ∧ vs.length ≤ budget ∧
      Steps m vs (runAfter before m budget).machine ∧
      (runAfter before m budget).stop.Explains (runAfter before m budget).machine budget
        vs.length := by
  induction budget generalizing before m with
  | zero =>
    refine ⟨[], (List.append_nil _).symm, Nat.le_refl _, .none m, ?_⟩
    unfold runAfter
    cases hd : m.isDone with
    | true => exact hd
    | false => exact ⟨hd, rfl⟩
  | succ budget ih =>
    unfold runAfter
    split
    · next h =>
      exact ⟨[], (List.append_nil _).symm, Nat.zero_le _, .none m, step_eq_none.mp h⟩
    · next v next h =>
      obtain ⟨vs, ht, hl, hs, hstop⟩ := ih (v :: before) next
      refine ⟨v :: vs, ?_, Nat.succ_le_succ hl, .more h hs, ?_⟩
      · rw [ht, List.reverse_cons, List.append_assoc]
        rfl
      · -- one more step on both sides of the bound
        revert hstop
        cases (runAfter (v :: before) next budget).stop with
        | done => exact id
        | budget => exact fun hstop => ⟨hstop.1, congrArg Nat.succ hstop.2⟩
        | fault f => exact fun hstop => ⟨hstop.1, Nat.succ_lt_succ hstop.2⟩
    · next f h =>
      exact ⟨[], (List.append_nil _).symm, Nat.zero_le _, .none m, h, Nat.succ_pos _⟩

theorem run_spec (m : Machine) (budget : Nat) :
    (m.run budget).trace.length ≤ budget ∧ Steps m (m.run budget).trace (m.run budget).machine ∧
      (m.run budget).stop.Explains (m.run budget).machine budget (m.run budget).trace.length := by
  obtain ⟨vs, ht, hl, hs, hstop⟩ := runAfter_spec [] m budget
  rw [List.reverse_nil, List.nil_append] at ht
  unfold run
  rw [ht]
  exact ⟨hl, hs, hstop⟩

/-! ## calls -/

/-- What may be asked of a machine. -/
inductive Call where
  | step
  | run (budget : Nat)
  | seek (a : Address)
  | runAt (a : Address) (budget : Nat)
  deriving DecidableEq, Repr

/-- What a machine answers to a call that does not fail. -/
inductive Answer where
  | stepped (v : Option Visit)
  /-- the instructions executed, whether the last was a halt, whether the budget ended the run -/
  | ran (trace : List Visit) (halted cut : Bool)
  | sought
  deriving DecidableEq, Repr

def Run.answer (r : Run) : Except Fault Answer :=
  match r.stop with
  | .done => .ok (.ran r.trace r.machine.halted false)
  | .budget => .ok (.ran r.trace r.machine.halted true)
  | .fault f => .error f

theorem Run.answer_eq_error {r : Run} {f : Fault} : r.answer = .error f ↔ r.stop = .fault f := by
  unfold Run.answer
  cases r.stop with
  | done | budget => exact ⟨(nomatch ·), (nomatch ·)⟩
  | fault g =>
    dsimp only
    rw [Except.error.injEq, Stop.fault.injEq]

/-- the answer to a call, and the machine after it -/
def call (m : Machine) : Call → Except Fault Answer × Machine
  | .step =>
    match m.step with
    | .ok none => (.ok (.stepped none), m)
    | .ok (some (v, next)) => (.ok (.stepped (some v)), next)
    | .error f => (.error f, m)
  | .run budget => ((m.run budget).answer, (m.run budget).machine)
  | .seek a =>
    match m.seek a with
    | .ok next => (.ok .sought, next)
    | .error f => (.error f, m)
  | .runAt a budget => ((m.runAt a budget).answer, (m.runAt a budget).machine)

/-- the answers to calls one after the other, and the machine after the last -/
def calls (m : Machine) : List Call → List (Except Fault Answer) × Machine
  | [] => ([], m)
  | c :: cs => ((m.call c).1 :: ((m.call c).2.calls cs).1, ((m.call c).2.calls cs).2)

/-- What steps and seeks keep, every call keeps. -/
theorem call_keeps {P : Machine → Prop}
    (hstep : ∀ m v next, P m → m.step = .ok (some (v, next)) → P next)
    (hseek : ∀ m a next, P m → m.seek a = .ok next → P next) (hm : P m) (c : Call) :
    P (m.call c).2 := by
  cases c with
  | step =>
    unfold call
    dsimp only
    split
    · exact hm
    · next v next h => exact hstep m v next hm h
    · exact hm
  | run budget => exact (run_spec m budget).2.1.keeps hstep hm
  | seek a =>
    unfold call
    dsimp only
    split
    · next next h => exact hseek m a next hm h
    · exact hm
  | runAt a budget =>
    unfold call runAt
    dsimp only
    split
    · next next h => exact (run_spec next budget).2.1.keeps hstep (hseek m a next hm h)
    · exact hm

theorem call_program (m : Machine) (c : Call) : (m.call c).2.program = m.program :=
  call_keeps (P := fun n => n.program = m.program)
    (fun _ _ _ hm h => (step_program h).trans hm)
    (fun _ _ _ hm h => (seek_program h).trans hm) rfl c

theorem calls_program (m : Machine) (cs : List Call) : (m.calls cs).2.program = m.program := by
  induction cs generalizing m with
  | nil => rfl
  | cons c cs ih => exact (ih (m.call c).2).trans (call_program m c)

end Machine

end Mini8086
