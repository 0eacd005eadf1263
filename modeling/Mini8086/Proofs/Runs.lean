import Mini8086.Proofs.ControlFlow

/-!
# Runs as repeated steps

`runCounted` is a run as a loop over steps in place, with a counter of its own and a `Report` that
grows with every step.  A run is decided by the steps that it makes, and a run on top of another is
one run with the sum of the budgets.

* `run_of_steps`     the steps that a run makes can be split off it;
* `run_add`, `run_add_of_fault`   a run that does not fail, followed by a second one; one that fails;
* `runCounted_eq`    the loop does what the run does, and reports it;
* `runCounted_eq_ok`, `runCounted_eq_error`   its outcomes in terms of steps.
-/

namespace Mini8086

namespace Machine
open InPlace
variable {m next last : Machine} {v : Visit} {vs : List Visit} {n : Nat} {f : Fault}

/-! ## the steps of a run -/

/-- a run after the instructions `vs` -/
def Run.after (vs : List Visit) (r : Run) : Run := { r with trace := vs ++ r.trace }

@[simp] theorem Run.after_nil (r : Run) : r.after [] = r := rfl
@[simp] theorem Run.after_append (us vs : List Visit) (r : Run) :
    r.after (us ++ vs) = (r.after vs).after us := by
  rw [Run.after, Run.after, Run.after, List.append_assoc]

theorem runAfter_eq (before : List Visit) (m : Machine) (n : Nat) :
    runAfter before m n = (m.run n).after before.reverse := by
  induction n generalizing before m with
  | zero => rw [Run.after, run, runAfter, runAfter, List.reverse_nil, List.append_nil]
  | succ n ih =>
    unfold run runAfter
    cases m.step with
    | error f =>
      dsimp only [Run.after]
      rw [List.reverse_nil, List.append_nil]
    | ok o =>
      cases o with
      | none =>
        dsimp only [Run.after]
        rw [List.reverse_nil, List.append_nil]
      | some p =>
        dsimp only
        rw [ih, ih, ← Run.after_append, List.reverse_cons]
        rfl

theorem run_zero (m : Machine) : m.run 0 = ⟨[], m, if m.isDone then .done else .budget⟩ := rfl

theorem run_of_isDone (h : m.isDone = true) (n : Nat) : m.run n = ⟨[], m, .done⟩ := by
  cases n with
  | zero => rw [run_zero, if_pos h]
  | succ n =>
    rw [run, runAfter, step_of_isDone h]
    rfl

/-- a machine that is not done makes a step or fails -/
theorem step_of_isDone_eq_false (h : m.isDone = false) :
    (∃ f, m.step = .error f) ∨ ∃ p, m.step = .ok (some p) := by
  cases hs : m.step with
  | error f => exact .inl ⟨f, rfl⟩
  | ok o =>
    cases o with
    | none =>
      rw [step_eq_none.mp hs] at h
      cases h
    | some p => exact .inr ⟨p, rfl⟩

theorem run_of_step_eq_error (h : m.step = .error f) (n : Nat) :
    m.run (n + 1) = ⟨[], m, .fault f⟩ := by
  rw [run, runAfter, h]
  rfl

theorem run_of_step (h : m.step = .ok (some (v, next))) (n : Nat) :
    m.run (n + 1) = (next.run n).after [v] := by
  rw [run, runAfter, h]
  exact runAfter_eq [v] next n

/-- A run makes its steps one by one: what is left after some of them is the run from there. -/
theorem run_of_steps (hs : Steps m vs last) (n : Nat) :
    m.run (vs.length + n) = (last.run n).after vs := by
  induction hs with
  | none m => simp
  | @more m next last v vs h _ ih =>
    rw [List.length_cons, Nat.succ_add, run_of_step h, ih, ← Run.after_append]
    rfl

/-- A run is decided by its steps and the reason to stop after them. -/
theorem run_eq_of_steps {stop : Stop} (hs : Steps m vs last) (hle : vs.length ≤ n)
    (hx : stop.Explains last n vs.length) : m.run n = ⟨vs, last, stop⟩ := by
  obtain ⟨d, rfl⟩ := Nat.exists_eq_add_of_le hle
  rw [run_of_steps hs]
  cases stop with
  | done => rw [run_of_isDone hx, Run.after, List.append_nil]
  | budget =>
    have hd : d = 0 := Nat.left_eq_add.mp hx.2
    rw [hd, run_zero, hx.1, Run.after, List.append_nil]
    rfl
  | fault f =>
    obtain ⟨e, rfl⟩ := Nat.exists_eq_succ_of_ne_zero (Nat.ne_of_gt (Nat.lt_add_right_iff_pos.mp hx.2))
    rw [run_of_step_eq_error hx.1, Run.after, List.append_nil]

theorem Steps.executed_eq (hs : Steps m vs last) : last.executed = m.executed + vs.length := by
  induction hs with
  | none m => rfl
  | @more m next last v vs h _ ih =>
    have hn : next.executed = m.executed + 1 := by
      obtain ⟨i, s, n, -, -, -, -, rfl⟩ := step_eq_some.mp h
      cases n <;> rfl
    rw [ih, hn, List.length_cons, Nat.add_assoc, Nat.add_comm 1]

/-! ## one run after another -/

/-- A run that is done, or has used up its budget, is continued by a second one. -/
theorem run_add (h : ∀ f, (m.run n).stop ≠ .fault f) (k : Nat) :
    m.run (n + k) = ((m.run n).machine.run k).after (m.run n).trace := by
  obtain ⟨hle, hs, hx⟩ := run_spec m n
  generalize (m.run n).stop = stop at h hx
  cases stop with
  | done =>
    rw [run_of_isDone hx, Run.after, List.append_nil]
    exact run_eq_of_steps hs (Nat.le_add_right_of_le hle) hx
  | budget =>
    -- the first run has made `n` steps, so that the second has its whole budget left
    have hsplit := run_of_steps hs k
    rw [hx.2] at hsplit
    exact hsplit
  | fault f => exact absurd rfl (h f)

/-- A run that fails goes no further with a larger budget. -/
theorem run_add_of_fault (h : (m.run n).stop = .fault f) (k : Nat) : m.run (n + k) = m.run n := by
  obtain ⟨hle, hs, hx⟩ := run_spec m n
  have hx' : (m.run n).stop.Explains (m.run n).machine (n + k) (m.run n).trace.length := by
    rw [h] at hx ⊢
    exact ⟨hx.1, Nat.lt_add_right k hx.2⟩
  exact run_eq_of_steps hs (Nat.le_add_right_of_le hle) hx'

/-- A run that is repeated after a failure fails again. -/
theorem run_machine_of_fault (h : (m.run n).stop = .fault f) (k : Nat) :
    (m.run n).machine.run (k + 1) = ⟨[], (m.run n).machine, .fault f⟩ := by
  obtain ⟨-, -, hx⟩ := run_spec m n
  rw [h] at hx
  exact run_of_step_eq_error hx.1 k

/-- Two runs leave the machine that one run with both budgets leaves. -/
theorem run_add_machine (m : Machine) (n k : Nat) :
    (m.run (n + k)).machine = ((m.run n).machine.run k).machine := by
  by_cases h : ∃ f, (m.run n).stop = .fault f
  · obtain ⟨f, hf⟩ := h
    rw [run_add_of_fault hf]
    cases k with
    | zero => rfl
    | succ k => rw [run_machine_of_fault hf]
  · rw [run_add (not_exists.mp h)]
    rfl

/-! ## reports -/

/-- What a run reports: the instructions it executed and their number, whether the machine has
halted, and whether the budget has cut the run short. -/
structure Report where
  trace : List Visit
  steps : Nat
  halted : Bool
  cut : Bool
  deriving DecidableEq, Repr

/-- the report of a second run on top of that of the first -/
def Report.append (r s : Report) : Report := ⟨r.trace ++ s.trace, r.steps + s.steps, s.halted, s.cut⟩

def Run.report (r : Run) : Except Fault Report :=
  match r.stop with
  | .done => .ok ⟨r.trace, r.trace.length, r.machine.halted, false⟩
  | .budget => .ok ⟨r.trace, r.trace.length, r.machine.halted, true⟩
  | .fault f => .error f

/-- Steps until the machine is done, the budget is used up or a step fails, on top of the
instructions `trace`, which are `steps` in number. -/
def runCountedAfter (trace : List Visit) (steps budget : Nat) : InPlace Machine Report := do
  let m ← get
  if m.isDone then return ⟨trace, steps, m.halted, false⟩
  if budget ≤ steps then return ⟨trace, steps, m.halted, true⟩
  match ← stepInPlace with
  | none => return ⟨trace, steps, (← get).halted, false⟩
  | some v => runCountedAfter (trace ++ [v]) (steps + 1) budget
termination_by budget - steps

def runCounted (budget : Nat) : InPlace Machine Report := runCountedAfter [] 0 budget

theorem Run.report_after {r : Report} (h : r.steps = r.trace.length) (s : Run) :
    (s.after r.trace).report = s.report.map r.append := by
  unfold Run.report Run.after
  dsimp only
  rw [List.length_append, ← h]
  cases s.stop <;> rfl

/-- what a run reports that does not fail -/
theorem Run.exists_report {s : Run} (h : ¬ ∃ f, s.stop = .fault f) :
    ∃ r, s.report = .ok r ∧ r.trace = s.trace ∧ r.steps = r.trace.length := by
  unfold Run.report
  cases hs : s.stop with
  | done => exact ⟨_, rfl, rfl, rfl⟩
  | budget => exact ⟨_, rfl, rfl, rfl⟩
  | fault f => exact absurd ⟨f, hs⟩ h

theorem Run.report_eq_error {s : Run} : s.report = .error f ↔ s.stop = .fault f := by
  unfold Run.report
  cases s.stop with
  | done | budget => exact ⟨(nomatch ·), (nomatch ·)⟩
  | fault g =>
    dsimp only
    rw [Except.error.injEq, Stop.fault.injEq]

/-! ## the ways through the loop -/

section
variable (trace : List Visit) {steps budget : Nat}

theorem runCountedAfter_of_isDone (h : m.isDone = true) :
    (runCountedAfter trace steps budget).run m = .ok ⟨trace, steps, m.halted, false⟩ m := by
  rw [runCountedAfter, EStateM.run_bind, EStateM.run_get]
  dsimp only
  rw [if_pos h]
  rfl

theorem runCountedAfter_of_le (h : m.isDone = false) (hle : budget ≤ steps) :
    (runCountedAfter trace steps budget).run m = .ok ⟨trace, steps, m.halted, true⟩ m := by
  rw [runCountedAfter, EStateM.run_bind, EStateM.run_get]
  dsimp only
  rw [h, if_neg Bool.false_ne_true, if_pos hle]
  rfl

/-- within its budget the loop makes a step -/
theorem runCountedAfter_of_lt (h : m.isDone = false) (hlt : steps < budget) :
    (runCountedAfter trace steps budget).run m =
      match m.step with
      | .ok none => .ok ⟨trace, steps, m.halted, false⟩ m
      | .ok (some (v, next)) => (runCountedAfter (trace ++ [v]) (steps + 1) budget).run next
      | .error f => .error f m := by
  rw [runCountedAfter, EStateM.run_bind, EStateM.run_get]
  dsimp only
  rw [h, if_neg Bool.false_ne_true, if_neg (Nat.not_le.mpr hlt), EStateM.run_bind, stepInPlace_eq]
  cases m.step with
  | error f => rfl
  | ok o =>
    cases o with
    | none => rfl
    | some p => rfl

end

/-- The loop on top of instructions does what the run with the rest of the budget does. -/
theorem runCountedAfter_eq (trace : List Visit) (m : Machine) (n : Nat) :
    (runCountedAfter trace trace.length (trace.length + n)).run m =
      leave (m.run n).machine ((m.run n).after trace).report := by
  induction n generalizing trace m with
  | zero =>
    cases hd : m.isDone with
    | true =>
      rw [runCountedAfter_of_isDone trace hd, run_of_isDone hd, Run.after, List.append_nil]
      rfl
    | false =>
      have hle : trace.length + 0 ≤ trace.length := Nat.le_of_eq (Nat.add_zero _)
      rw [runCountedAfter_of_le trace hd hle, run_zero, hd, Run.after, List.append_nil]
      rfl
  | succ n ih =>
    cases hd : m.isDone with
    | true =>
      rw [runCountedAfter_of_isDone trace hd, run_of_isDone hd, Run.after, List.append_nil]
      rfl
    | false =>
      have hlt : trace.length < trace.length + (n + 1) := by omega
      rw [runCountedAfter_of_lt trace hd hlt]
      obtain ⟨f, hs⟩ | ⟨p, hs⟩ := step_of_isDone_eq_false hd
      · rw [hs, run_of_step_eq_error hs]
        rfl
      · -- one instruction more on top, one less in the budget: the bound of the loop stays
        have hih := ih (trace ++ [p.1]) p.2
        rw [List.length_append, List.length_singleton, Nat.add_assoc, Nat.add_comm 1] at hih
        rw [hs, run_of_step hs, ← Run.after_append]
        exact hih

theorem runCounted_eq (m : Machine) (n : Nat) :
    (runCounted n).run m = leave (m.run n).machine (m.run n).report := by
  simpa [runCounted] using runCountedAfter_eq [] m n

/-! ## outcomes of the loop -/

/-- The report of a run, and the machine after it, in terms of its steps. -/
structure Reported (m : Machine) (budget : Nat) (r : Report) (last : Machine) : Prop where
  steps : Steps m r.trace last
  count : r.steps = r.trace.length
  le_budget : r.steps ≤ budget
  complete : last.isDone = true ∨ r.steps = budget
  halted : r.halted = last.halted
  cut : r.cut = !last.isDone

theorem Reported.run_eq {r : Report} (h : Reported m n r last) :
    m.run n = ⟨r.trace, last, if last.isDone then .done else .budget⟩ := by
  have hle : r.trace.length ≤ n := h.count ▸ h.le_budget
  apply run_eq_of_steps h.steps hle
  cases hd : last.isDone with
  | true => exact hd
  | false =>
    have hn := h.complete.resolve_left (Bool.eq_false_iff.mp hd)
    exact ⟨hd, h.count.symm.trans hn⟩

theorem runCounted_eq_ok {r : Report} :
    (runCounted n).run m = .ok r last ↔ Reported m n r last := by
  rw [runCounted_eq, leave_eq_ok]
  constructor
  · rintro ⟨hr, rfl⟩
    obtain ⟨hle, hs, hx⟩ := run_spec m n
    unfold Run.report at hr
    generalize (m.run n).stop = stop at hr hx
    cases stop with
    | done =>
      cases hr
      refine ⟨hs, rfl, hle, .inl hx, rfl, ?_⟩
      rw [show (m.run n).machine.isDone = true from hx]
      rfl
    | budget =>
      cases hr
      refine ⟨hs, rfl, hle, .inr hx.2, rfl, ?_⟩
      rw [hx.1]
      rfl
    | fault f => cases hr
  · intro h
    rw [h.run_eq]
    refine ⟨?_, rfl⟩
    obtain ⟨trace, steps, halted, cut⟩ := r
    obtain rfl : steps = trace.length := h.count
    obtain rfl : halted = last.halted := h.halted
    obtain rfl : cut = !last.isDone := h.cut
    unfold Run.report
    dsimp only
    cases last.isDone <;> rfl

/-- A run fails exactly if a step fails that it reaches within its budget. -/
theorem runCounted_eq_error :
    (runCounted n).run m = .error f last ↔
      ∃ vs, Steps m vs last ∧ vs.length < n ∧ last.step = .error f := by
  rw [runCounted_eq, leave_eq_error, Run.report_eq_error]
  constructor
  · rintro ⟨hstop, rfl⟩
    obtain ⟨-, hs, hx⟩ := run_spec m n
    rw [hstop] at hx
    exact ⟨_, hs, hx.2, hx.1⟩
  · rintro ⟨vs, hs, hlt, hf⟩
    have hx : (Stop.fault f).Explains last n vs.length := ⟨hf, hlt⟩
    rw [run_eq_of_steps hs (Nat.le_of_lt hlt) hx]
    exact ⟨rfl, rfl⟩

/-- A run with two budgets is a run with the first, and if that does not fail one with the second,
with their reports joined. -/
theorem runCounted_add (m : Machine) (n k : Nat) :
    (runCounted (n + k)).run m =
      (do return (← runCounted n).append (← runCounted k) : InPlace Machine Report).run m := by
  rw [EStateM.run_bind, runCounted_eq, runCounted_eq]
  by_cases h : ∃ f, (m.run n).stop = .fault f
  · obtain ⟨f, hf⟩ := h
    rw [run_add_of_fault hf, Run.report_eq_error.mpr hf]
    rfl
  · obtain ⟨r, hr, htrace, hsteps⟩ := Run.exists_report h
    have hsum : m.run (n + k) = ((m.run n).machine.run k).after r.trace := by
      rw [htrace]
      exact run_add (not_exists.mp h) k
    have hfirst : leave (m.run n).machine (m.run n).report = .ok r (m.run n).machine := by
      rw [hr]
      rfl
    rw [hsum, Run.report_after hsteps, hfirst]
    dsimp only
    rw [EStateM.run_bind, runCounted_eq]
    cases ((m.run n).machine.run k).report with
    | ok s => rfl
    | error f => rfl

/-- A run is the steps that it makes until the machine is done, the budget is used up or a step
fails; it reports them and counts them, and says that the budget has cut it short exactly if the
machine is not done.  A run with two budgets is two runs, in its report, its failure and the machine
that it leaves; a second run after a failure fails in the same way. -/
theorem run_iterates_and_splits (m : Machine) (n : Nat) :
    (runCounted n).run m = leave (m.run n).machine (m.run n).report ∧
    (∀ r last, (runCounted n).run m = .ok r last ↔ Reported m n r last) ∧
    (∀ r last, (runCounted n).run m = .ok r last → last.executed = m.executed + r.steps) ∧
    (∀ f last, (runCounted n).run m = .error f last ↔
      ∃ vs, Steps m vs last ∧ vs.length < n ∧ last.step = .error f) ∧
    (∀ k, (runCounted (n + k)).run m =
      (do return (← runCounted n).append (← runCounted k) : InPlace Machine Report).run m) ∧
    (∀ k, (m.run (n + k)).machine = ((m.run n).machine.run k).machine) ∧
    ∀ k f last, (runCounted n).run m = .error f last →
      (runCounted (k + 1)).run last = .error f last := by
  refine ⟨runCounted_eq m n, fun r last => runCounted_eq_ok, fun r last h => ?_,
    fun f last => runCounted_eq_error, runCounted_add m n, run_add_machine m n,
    fun k f last h => ?_⟩
  · have hr := runCounted_eq_ok.mp h
    rw [hr.count]
    exact hr.steps.executed_eq
  · obtain ⟨vs, -, -, hf⟩ := runCounted_eq_error.mp h
    exact runCounted_eq_error.mpr ⟨[], .none last, Nat.succ_pos k, hf⟩

/-- the counting machine is done after three steps, and a budget of three does not cut it short -/
theorem countingMachine_runs : ∃ r last, (runCounted 3).run countingMachine = .ok r last ∧
    Reported countingMachine 3 r last ∧ r.steps = 3 ∧ r.cut = false ∧
    last.executed = countingMachine.executed + 3 := by
  obtain ⟨heq, hok, hexec, -⟩ := run_iterates_and_splits countingMachine 3
  obtain ⟨r, hr, hsteps, hcut⟩ : ∃ r, (countingMachine.run 3).report = .ok r ∧ r.steps = 3 ∧
      r.cut = false := ⟨_, rfl, rfl, rfl⟩
  rw [hr] at heq
  have hcount := hexec r (countingMachine.run 3).machine heq
  rw [hsteps] at hcount
  exact ⟨r, _, heq, (hok r _).mp heq, hsteps, hcut, hcount⟩

end Machine

end Mini8086
