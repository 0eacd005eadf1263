import Mini8086.CommandLine.Interpreter
import Mini8086.Proofs.Numerals
import Mini8086.Proofs.Runs

/-!
# Running stepwise and as a whole

The interpreter has one loop that asks a session for step after step and prints what each of them
does, and one that makes a run of the machine.  Both are the run of the machine from the same place:
a program is loaded with its first instruction as the next one, so that a stepwise run, which goes
on from there, starts where a run as a whole starts, which goes to the origin.

* `stepAll_eq`, `runFreely_of_seek`   either loop in terms of the run of the machine;
* `seek_origin_of_load`              going to the origin of a loaded program changes nothing;
* `stepwise_agrees_freely`           the two print the same instructions and end in the same way;
* `stopped_of_outcome`               when they say that the budget is used up.

A run as a whole says so when something is left to execute.  A stepwise run says so when it has
executed as many instructions as the budget allows, even if the last of them ends the program.
-/

namespace Mini8086

/-! ## the machine after each instruction -/

namespace Machine
variable {m next : Machine} {v : Visit} {n : Nat}

/-- the instructions of a run, each with the machine after it -/
def traced (m : Machine) : Nat → List (Visit × Machine)
  | 0 => []
  | budget + 1 =>
    match m.step with
    | .ok (some (v, next)) => (v, next) :: next.traced budget
    | _ => []

theorem traced_of_isDone (h : m.isDone = true) (n : Nat) : m.traced n = [] := by
  cases n with
  | zero => rfl
  | succ n => rw [traced, step_of_isDone h]

theorem traced_of_step (h : m.step = .ok (some (v, next))) (n : Nat) :
    m.traced (n + 1) = (v, next) :: next.traced n := by
  rw [traced, h]

theorem traced_of_step_eq_error {f : Fault} (h : m.step = .error f) (n : Nat) :
    m.traced (n + 1) = [] := by
  rw [traced, h]

theorem map_fst_traced (m : Machine) (n : Nat) : (m.traced n).map Prod.fst = (m.run n).trace := by
  induction n generalizing m with
  | zero => rfl
  | succ n ih =>
    cases hd : m.isDone with
    | true =>
      rw [traced_of_isDone hd, run_of_isDone hd]
      rfl
    | false =>
      obtain ⟨f, hs⟩ | ⟨⟨v, next⟩, hs⟩ := step_of_isDone_eq_false hd
      · rw [traced_of_step_eq_error hs, run_of_step_eq_error hs]
        rfl
      · rw [traced_of_step hs, run_of_step hs, List.map_cons, ih]
        rfl

/-- the fault that has ended a run -/
def Stop.fault? : Stop → Option Fault
  | .fault f => some f
  | _ => none

theorem run_executed (m : Machine) (n : Nat) :
    (m.run n).machine.executed = m.executed + (m.run n).trace.length :=
  (run_spec m n).2.1.executed_eq

/-- a run without a fault is cut short exactly if the machine is not done -/
theorem run_stop_eq_budget (h : (m.run n).stop.fault? = none) :
    (m.run n).stop = .budget ↔ (m.run n).machine.isDone = false := by
  obtain ⟨-, -, hx⟩ := run_spec m n
  generalize (m.run n).stop = stop at h hx ⊢
  cases stop with
  | done =>
    rw [show (m.run n).machine.isDone = true from hx]
    exact ⟨(nomatch ·), (nomatch ·)⟩
  | budget => exact ⟨fun _ => hx.1, fun _ => rfl⟩
  | fault f => cases h

/-- a run that leaves the machine not done has made all the steps of its budget -/
theorem run_length_of_budget (h : (m.run n).stop = .budget) : (m.run n).trace.length = n := by
  obtain ⟨-, -, hx⟩ := run_spec m n
  rw [h] at hx
  exact hx.2

/-- Going to the origin of a program that was loaded changes nothing. -/
theorem seek_origin_of_load {p : Program} (h : Contiguous p.origin p.instructions)
    (hne : p.instructions ≠ []) (m : Machine) : (m.load p).seek p.origin = .ok (m.load p) := by
  obtain ⟨i, is, hi⟩ := List.exists_cons_of_ne_nil hne
  rw [hi] at h
  have hk : indexOf? (m.load p).program p.origin = some 0 := by
    show indexOf? p.instructions p.origin = some 0
    rw [hi, indexOf?, List.findIdx?_cons, if_pos (beq_iff_eq.mpr h.1)]
  rw [seek, hk]
  rfl

end Machine

namespace Interpreter
open Machine
variable {m next : Machine} {p : Program} {v : Visit}

/-! ## the loop over single steps -/

/-- what a stepwise run prints about an instruction -/
def stepLines (e : Visit × Machine) : List Text := [visitLine e.1, registersLine e.2.cpu]

section
variable (before : List Text) (total n : Nat)

theorem stepsAfter_of_isDone (h : m.isDone = true) :
    stepsAfter before ⟨m, some p⟩ total (n + 1) = ⟨before.reverse, [], ⟨m, some p⟩, none⟩ := by
  rw [stepsAfter, Session.step]
  dsimp only
  rw [step_of_isDone h]

theorem stepsAfter_of_step (h : m.step = .ok (some (v, next))) :
    stepsAfter before ⟨m, some p⟩ total (n + 1) =
      stepsAfter (registersLine next.cpu :: visitLine v :: before) ⟨next, some p⟩ total n := by
  rw [stepsAfter, Session.step]
  dsimp only
  rw [h]

theorem stepsAfter_of_step_eq_error {f : Fault} (h : m.step = .error f) :
    stepsAfter before ⟨m, some p⟩ total (n + 1) =
      ⟨before.reverse, [], ⟨m, some p⟩, some (.fault f)⟩ := by
  rw [stepsAfter, Session.step]
  dsimp only
  rw [h]

end

/-- The loop on top of printed lines makes the run with the rest of the budget. -/
theorem stepsAfter_eq (before : List Text) (m : Machine) (p : Program) (total n : Nat) :
    stepsAfter before ⟨m, some p⟩ total n =
      ⟨before.reverse ++ (m.traced n).flatMap stepLines,
        if (m.run n).trace.length = n then [stoppedLine total] else [],
        ⟨(m.run n).machine, some p⟩, (m.run n).stop.fault?.map .fault⟩ := by
  induction n generalizing before m with
  | zero =>
    have hstop : (m.run 0).stop.fault? = none := by
      rw [run_zero]
      dsimp only
      split <;> rfl
    rw [hstop, stepsAfter, traced, List.flatMap_nil, List.append_nil]
    rfl
  | succ n ih =>
    cases hd : m.isDone with
    | true =>
      rw [stepsAfter_of_isDone before total n hd, run_of_isDone hd, traced_of_isDone hd,
        List.flatMap_nil, List.append_nil]
      rfl
    | false =>
      obtain ⟨f, hs⟩ | ⟨⟨v, next⟩, hs⟩ := step_of_isDone_eq_false hd
      · rw [stepsAfter_of_step_eq_error before total n hs, run_of_step_eq_error hs,
          traced_of_step_eq_error hs, List.flatMap_nil, List.append_nil]
        rfl
      · -- the two lines of the step go on top of the others, and `total` stays as it is
        have hlines : (registersLine next.cpu :: visitLine v :: before).reverse =
            before.reverse ++ stepLines (v, next) := by
          rw [List.reverse_cons, List.reverse_cons, List.append_assoc]
          rfl
        have hlength : ((next.run n).after [v]).trace.length = n + 1 ↔
            (next.run n).trace.length = n := by
          rw [Run.after, List.length_append, List.length_singleton, Nat.add_comm 1]
          exact Nat.succ_inj
        rw [stepsAfter_of_step before total n hs, ih, run_of_step hs, traced_of_step hs, hlines,
          List.flatMap_cons, List.append_assoc]
        simp only [hlength]
        rfl

/-- A stepwise run makes the run of its machine, and says that the budget is used up when it has
made as many steps as the budget allows. -/
theorem stepAll_eq (m : Machine) (p : Program) (n : Nat) :
    stepAll ⟨m, some p⟩ n =
      ⟨(m.traced n).flatMap stepLines,
        if (m.run n).trace.length = n then [stoppedLine n] else [],
        ⟨(m.run n).machine, some p⟩, (m.run n).stop.fault?.map .fault⟩ :=
  stepsAfter_eq [] m p n n

/-! ## the run as a whole -/

/-- A run of the machine as a whole: what it prints is nothing if it ends in a fault. -/
def runAll (m : Machine) (p : Program) (n : Nat) : Report :=
  ⟨if (m.run n).stop.fault? = none then (m.run n).trace.map visitLine else [],
    if (m.run n).stop = .budget then [stoppedLine n] else [],
    ⟨(m.run n).machine, some p⟩, (m.run n).stop.fault?.map .fault⟩

section
variable {start : Option Address}

theorem runFreely_of_seek (h : m.seek (start.getD p.origin) = .ok next) (n : Nat) :
    runFreely ⟨m, some p⟩ start n = runAll next p n := by
  have hrun : Session.run ⟨m, some p⟩ start n = .ok (next.run n) := by
    unfold Session.run runAt
    dsimp only
    rw [h]
  rw [runFreely, hrun, runAll]
  dsimp only
  cases hstop : (next.run n).stop with
  | done | fault f => rfl
  | budget =>
    rw [run_length_of_budget hstop]
    rfl

theorem runFreely_of_seek_eq_error {f : Fault} (h : m.seek (start.getD p.origin) = .error f)
    (n : Nat) : runFreely ⟨m, some p⟩ start n = ⟨[], [], ⟨m, some p⟩, some (.fault f)⟩ := by
  have hrun : Session.run ⟨m, some p⟩ start n = .ok ⟨[], m, .fault f⟩ := by
    unfold Session.run runAt
    dsimp only
    rw [h]
  rw [runFreely, hrun]

/-- the machine that a stepwise run starts with -/
def stepStart (m : Machine) : Option Address → Except Fault Machine
  | none => .ok m
  | some a => m.seek a

theorem runStepwise_of_stepStart (h : stepStart m start = .ok next) (n : Nat) :
    runStepwise ⟨m, some p⟩ start n = stepAll ⟨next, some p⟩ n := by
  cases start with
  | none =>
    cases h
    rfl
  | some a =>
    unfold runStepwise Session.seek
    dsimp only
    rw [show m.seek a = .ok next from h]

theorem runStepwise_of_stepStart_eq_error {f : Fault} (h : stepStart m start = .error f)
    (n : Nat) : runStepwise ⟨m, some p⟩ start n = ⟨[], [], ⟨m, some p⟩, some (.fault f)⟩ := by
  cases start with
  | none => cases h
  | some a =>
    unfold runStepwise Session.seek
    dsimp only
    rw [show m.seek a = .error f from h]

end

/-! ## the lines about instructions -/

/-- whether a printed line is one with registers, which start further to the right -/
def isRegistersLine (line : Text) : Bool := line.head? == some ' '

@[simp] theorem isRegistersLine_registersLine (c : Cpu) : isRegistersLine (registersLine c) = true := rfl

theorem isRegistersLine_visitLine (v : Visit) : isRegistersLine (visitLine v) = false := by
  unfold visitLine
  cases ht : hexPadded 4 v.address with
  | nil =>
    have hlength := congrArg List.length ht
    rw [hexPadded, List.length_leftpad] at hlength
    exact absurd (Nat.max_eq_zero_iff.mp hlength).1 (by decide)
  | cons c t =>
    have hc : isHexDigit c = true := by
      apply isHexDigit_of_mem_hexPadded (w := 4) (n := v.address)
      rw [ht]
      exact List.mem_cons_self
    show (some c == some ' ') = false
    rw [beq_eq_false_iff_ne]
    intro h
    rw [Option.some.inj h] at hc
    exact absurd hc (by decide)

/-- Without the registers a stepwise run prints its instructions, as a run as a whole does. -/
theorem filter_flatMap_stepLines (l : List (Visit × Machine)) :
    (l.flatMap stepLines).filter (fun line => !isRegistersLine line) =
      (l.map Prod.fst).map visitLine := by
  induction l with
  | nil => rfl
  | cons e l ih =>
    have he : (stepLines e).filter (fun line => !isRegistersLine line) = [visitLine e.1] := by
      rw [stepLines, List.filter_cons, isRegistersLine_visitLine, List.filter_cons,
        isRegistersLine_registersLine]
      rfl
    rw [List.flatMap_cons, List.filter_append, ih, he]
    rfl

/-! ## agreement -/

/-- A stepwise run and a run as a whole that end alike, and print the same instructions unless they
fail. -/
structure Agree (stepwise freely : Report) : Prop where
  session : stepwise.session = freely.session
  error : stepwise.error = freely.error
  lines : freely.error = none →
    stepwise.out.filter (fun line => !isRegistersLine line) = freely.out

theorem agree_of_eq_start (m : Machine) (p : Program) (n : Nat) :
    Agree (stepAll ⟨m, some p⟩ n) (runAll m p n) := by
  rw [stepAll_eq]
  refine ⟨rfl, rfl, fun h => ?_⟩
  have hfault : (m.run n).stop.fault? = none := Option.map_eq_none_iff.mp h
  rw [runAll, if_pos hfault, ← map_fst_traced]
  exact filter_flatMap_stepLines _

/-- The two runs start at the same place of a loaded program. -/
theorem stepStart_of_load (h : Contiguous p.origin p.instructions) (hne : p.instructions ≠ [])
    (m : Machine) (start : Option Address) :
    stepStart (m.load p) start = (m.load p).seek (start.getD p.origin) := by
  cases start with
  | none => exact (seek_origin_of_load h hne m).symm
  | some a => rfl

theorem agree_of_load (h : Contiguous p.origin p.instructions) (hne : p.instructions ≠ [])
    (m : Machine) (start : Option Address) (n : Nat) :
    Agree (runStepwise ⟨m.load p, some p⟩ start n) (runFreely ⟨m.load p, some p⟩ start n) := by
  have hstart := stepStart_of_load h hne m start
  cases hs : (m.load p).seek (start.getD p.origin) with
  | ok next =>
    rw [runStepwise_of_stepStart (hstart.trans hs), runFreely_of_seek hs]
    exact agree_of_eq_start next p n
  | error f =>
    rw [runStepwise_of_stepStart_eq_error (hstart.trans hs), runFreely_of_seek_eq_error hs]
    exact ⟨rfl, rfl, (nomatch ·)⟩

theorem Agree.conclusion_eq {r f : Report} (h : Agree r f) (o : Options) :
    conclusion o r = conclusion o f := by
  rw [conclusion, conclusion, h.session, h.error]

/-! ## the whole program -/

/-- what is printed about a program, its run and what is printed after it -/
def framed (before : Outcome) (r : Report) (after : Outcome) : Outcome :=
  ⟨after.exit, before.out ++ r.out ++ after.out, before.err ++ r.err ++ after.err⟩

section
variable {o : Options} {source : Text} {s : Session} (order : List Label → List Label)

theorem loaded_eq_ok (h : loaded o source = .ok s) :
    ∃ p, assemble source (o.origin.getD defaultOrigin) = .ok p ∧
      s = ⟨(prepared o).machine.load p, some p⟩ := by
  unfold loaded Session.assemble at h
  split at h
  · next p hp => exact ⟨p, hp, (Except.ok.inj h).symm⟩
  · contradiction

theorem outcomeOn_of_loaded (h : loaded o source = .ok s) :
    outcomeOn order o (.ok source) = framed (preamble order o s.program) (execute o s)
      (conclusion o (execute o s)) := by
  rw [outcomeOn]
  dsimp only
  rw [h]
  rfl

/-- A program with at least one instruction is run alike in both ways, from the same start with the
same budget: they leave the same session, succeed or fail alike, and print the same instructions if
they succeed.  What the interpreter prints differs in the lines of the run alone. -/
theorem stepwise_agrees_freely (hl : loaded o source = .ok s) (hp : s.program = some p)
    (hne : p.instructions ≠ []) :
    Agree (runStepwise s o.start o.maxSteps) (runFreely s o.start o.maxSteps) ∧
    ∀ order, outcomeOn order { o with step := true } (.ok source) =
        framed (preamble order o s.program) (runStepwise s o.start o.maxSteps)
          (conclusion o (runFreely s o.start o.maxSteps)) ∧
      outcomeOn order { o with step := false } (.ok source) =
        framed (preamble order o s.program) (runFreely s o.start o.maxSteps)
          (conclusion o (runFreely s o.start o.maxSteps)) := by
  have hagree : Agree (runStepwise s o.start o.maxSteps) (runFreely s o.start o.maxSteps) := by
    obtain ⟨q, hq, rfl⟩ := loaded_eq_ok hl
    obtain rfl : q = p := Option.some.inj hp
    obtain ⟨horigin, ha⟩ := assembled_of_assemble hq
    exact agree_of_load ha.contiguous hne _ _ _
  refine ⟨hagree, fun order => ⟨?_, ?_⟩⟩
  · rw [← hagree.conclusion_eq]
    exact outcomeOn_of_loaded (o := { o with step := true }) order hl
  · exact outcomeOn_of_loaded (o := { o with step := false }) order hl

/-- a program that starts at its second instruction and is cut short -/
theorem stepwise_agrees_freely_of_counting :
    ∃ s, loaded { origin := some 0x100, start := some 0x101, maxSteps := 2 } countingSource = .ok s ∧
      Agree (runStepwise s (some 0x101) 2) (runFreely s (some 0x101) 2) :=
  have hl : loaded { origin := some 0x100, start := some 0x101, maxSteps := 2 } countingSource =
      .ok ⟨({} : Machine).load countingProgram, some countingProgram⟩ := by
    show Session.assemble {} countingSource 0x100 = _
    rw [Session.assemble, assemble_countingSource]
  ⟨_, hl, (stepwise_agrees_freely hl rfl (by decide)).1⟩

/-! ## the message about the budget -/

theorem applyPokes_executed (pokes : List Poke) (s : Session) :
    (pokes.foldl applyPoke s).machine.executed = s.machine.executed := by
  induction pokes generalizing s with
  | nil => rfl
  | cons poke pokes ih => exact ih (applyPoke s poke)

theorem seek_executed {a : Address} (h : m.seek a = .ok next) : next.executed = m.executed := by
  obtain ⟨k, -, rfl⟩ := seek_eq_ok h
  rfl

theorem stepStart_executed {start : Option Address} (h : stepStart m start = .ok next) :
    next.executed = m.executed := by
  cases start with
  | none =>
    cases h
    rfl
  | some a => exact seek_executed h

/-- whether the interpreter says that the budget is used up, after a run that leaves the machine
`last` -/
def saysStopped (o : Options) (last : Machine) : Bool :=
  if o.step then last.executed == o.maxSteps else !last.isDone

/-- Without an error either way of running is the run of a machine that has executed nothing yet. -/
theorem execute_of_loaded (hl : loaded o source = .ok s) (hx : (execute o s).error = none) :
    ∃ m : Machine, m.executed = 0 ∧ (m.run o.maxSteps).stop.fault? = none ∧
      (execute o s).session.machine = (m.run o.maxSteps).machine ∧
      (execute o s).err =
        if saysStopped o (m.run o.maxSteps).machine then [stoppedLine o.maxSteps] else [] := by
  obtain ⟨p, -, rfl⟩ := loaded_eq_ok hl
  have hzero : ((prepared o).machine.load p).executed = 0 := applyPokes_executed o.pokes {}
  unfold execute at hx ⊢
  unfold saysStopped
  split at hx
  · next hstep =>
    rw [if_pos hstep]
    cases hs : stepStart ((prepared o).machine.load p) o.start with
    | error f =>
      rw [runStepwise_of_stepStart_eq_error hs] at hx
      cases hx
    | ok m =>
      have hm := (stepStart_executed hs).trans hzero
      rw [runStepwise_of_stepStart hs, stepAll_eq] at hx ⊢
      refine ⟨m, hm, Option.map_eq_none_iff.mp hx, ?_⟩
      dsimp only
      rw [hstep, if_pos rfl, run_executed, hm, Nat.zero_add]
      simp only [beq_iff_eq, true_and]
  · next hstep =>
    rw [if_neg hstep]
    cases hs : ((prepared o).machine.load p).seek (o.start.getD p.origin) with
    | error f =>
      rw [runFreely_of_seek_eq_error hs] at hx
      cases hx
    | ok m =>
      rw [runFreely_of_seek hs] at hx ⊢
      have hfault : (m.run o.maxSteps).stop.fault? = none := Option.map_eq_none_iff.mp hx
      refine ⟨m, (seek_executed hs).trans hzero, hfault, ?_⟩
      rw [if_neg hstep, runAll]
      simp only [run_stop_eq_budget hfault, Bool.not_eq_true', true_and]

/-- A run without an error leaves on the error stream whether the budget is used up, and how many
instructions were executed.  A run as a whole says that the budget is used up exactly if the machine
is not done; a stepwise run says so if it has executed as many instructions as the budget allows,
which it has whenever the machine is not done. -/
theorem stopped_of_outcome (hl : loaded o source = .ok s)
    (hx : (execute o s).error = none) {last : Machine}
    (hlast : (execute o s).session.machine = last) :
    (outcomeOn order o (.ok source)).err = (preamble order o s.program).err ++
        (if saysStopped o last then [stoppedLine o.maxSteps] else []) ++
        [s!"Executed {last.executed} instructions".toList] ∧
      last.executed ≤ o.maxSteps ∧ (last.isDone = false → last.executed = o.maxSteps) := by
  obtain ⟨m, hm, hfault, hmachine, herr⟩ := execute_of_loaded hl hx
  obtain ⟨hle, -, -⟩ := run_spec m o.maxSteps
  have hcount := run_executed m o.maxSteps
  rw [hm, Nat.zero_add] at hcount
  subst hlast
  refine ⟨?_, ?_, fun hd => ?_⟩
  · rw [outcomeOn_of_loaded order hl, framed, herr, ← hmachine]
    unfold conclusion
    dsimp only
    rw [hx]
  · rw [hmachine, hcount]
    exact hle
  · rw [hmachine] at hd ⊢
    rw [hcount]
    exact run_length_of_budget ((run_stop_eq_budget hfault).mpr hd)

/-- the options of a stepwise run of one instruction -/
def oneStep : Options := { maxSteps := 1, step := true }

/-- a stepwise run that ends with a halt and uses up its budget -/
theorem stopped_of_outcome_of_halt :
    ∃ s, loaded oneStep "hlt".toList = .ok s ∧
      (execute oneStep s).session.machine.isDone = true ∧
      (outcomeOn id oneStep (.ok "hlt".toList)).err =
        ["Stopped after 1 instructions".toList, "Executed 1 instructions".toList] := by
  obtain ⟨s, hl, hx, hd, htold, hlabels, hcount⟩ :
      ∃ s, loaded oneStep "hlt".toList = .ok s ∧
        (execute oneStep s).error = none ∧ (execute oneStep s).session.machine.isDone = true ∧
        saysStopped oneStep (execute oneStep s).session.machine = true ∧
        (preamble id oneStep s.program).err = [] ∧
        (execute oneStep s).session.machine.executed = 1 :=
    ⟨_, rfl, rfl, rfl, rfl, rfl, rfl⟩
  have herr := (stopped_of_outcome id hl hx rfl).1
  rw [htold, hlabels, hcount] at herr
  exact ⟨s, hl, hd, herr⟩

/-- a halt that uses up the budget: the machine is done, and only the stepwise run says that it was
stopped -/
theorem stopped_of_halt :
    (outcomeOn id oneStep (.ok "hlt".toList)).err =
      ["Stopped after 1 instructions".toList, "Executed 1 instructions".toList] ∧
    (outcomeOn id { maxSteps := 1 } (.ok "hlt".toList)).err = ["Executed 1 instructions".toList] ∧
    (loaded oneStep "hlt".toList).map
      (fun s => (execute oneStep s).session.machine.isDone) = .ok true := by
  decide

end

end Interpreter

end Mini8086
