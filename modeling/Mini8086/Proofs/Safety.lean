import Mini8086.Proofs.CheckedAssembly
import Mini8086.Proofs.Faults
import Mini8086.Proofs.SourceLines

/-!
# Assembled programs never go wrong

A machine whose program was assembled has an operation for every instruction and a target for every
branch, and it keeps its program.  So whatever is asked of it, in whatever state, no call ends with
a malformed instruction.

* `step_isRegular`       a failing step fails by a division or by a branch to nowhere;
* `calls_ne_malformed`   no call of any list fails with a malformed instruction.

With `checkedAssemble_eq` this gives that nothing goes wrong from the source to the last call.
-/

namespace Mini8086

/-- the faults that a program may run into; the others mean that it was not assembled, or that it
was asked for an address where no instruction is -/
def Fault.isRegular : Fault → Bool
  | .divideByZero _ | .divideOverflow .. | .invalidTarget .. => true
  | .noInstruction _ | .malformed _ => false

theorem Instruction.Faults.isRegular {i : Instruction} {code : List Instruction} {s : State}
    {f : Fault} (h : i.Faults code s f) : f.isRegular = true := by
  cases h <;> rfl

/-- instructions that come from an assembled program -/
def AllAssembled (code : List Instruction) : Prop := ∃ labels, ∀ i ∈ code, i.Assembled labels

namespace Machine
variable {m : Machine}

theorem step_isRegular (h : AllAssembled m.program) {f : Fault} (hf : m.step = .error f) :
    f.isRegular = true := by
  obtain ⟨labels, ha⟩ := h
  obtain ⟨i, -, hi, hx⟩ := step_eq_error.mp hf
  exact ((ha i (List.mem_of_getElem? hi)).exec_eq_error.mp hx).isRegular

theorem run_isRegular (h : AllAssembled m.program) {budget : Nat} {f : Fault}
    (hf : (m.run budget).answer = .error f) : f.isRegular = true := by
  obtain ⟨-, hs, hx⟩ := run_spec m budget
  rw [Run.answer_eq_error.mp hf] at hx
  have hp := hs.keeps (P := fun n => n.program = m.program)
    (fun _ _ _ hn hstep => (step_program hstep).trans hn) rfl
  exact step_isRegular (hp ▸ h) hx.1

/-- a call that fails does so regularly, or because it asks for an address without instruction -/
theorem call_eq_error (h : AllAssembled m.program) {c : Call} {f : Fault}
    (hf : (m.call c).1 = .error f) : f.isRegular = true ∨ ∃ a, f = .noInstruction a := by
  cases c with
  | step =>
    unfold call at hf
    dsimp only at hf
    split at hf
    · cases hf
    · cases hf
    · next g hg =>
      cases hf
      exact .inl (step_isRegular h hg)
  | run budget => exact .inl (run_isRegular h hf)
  | seek a =>
    unfold call at hf
    dsimp only at hf
    split at hf
    · cases hf
    · next g hg =>
      cases hf
      exact .inr ⟨a, seek_eq_error hg⟩
  | runAt a budget =>
    unfold call runAt at hf
    dsimp only at hf
    split at hf
    · next start hs =>
      rw [← seek_program hs] at h
      exact .inl (run_isRegular h hf)
    · next g hg =>
      cases hf
      exact .inr ⟨a, seek_eq_error hg⟩

theorem call_ne_malformed (h : AllAssembled m.program) (c : Call) (a : Address) :
    (m.call c).1 ≠ .error (.malformed a) := by
  intro hf
  obtain hr | ⟨b, hb⟩ := call_eq_error h hf
  · cases hr
  · cases hb

theorem calls_ne_malformed (h : AllAssembled m.program) (cs : List Call) (a : Address) :
    .error (.malformed a) ∉ (m.calls cs).1 := by
  induction cs generalizing m with
  | nil => exact List.not_mem_nil
  | cons c cs ih =>
    rw [calls, List.mem_cons, not_or]
    refine ⟨(call_ne_malformed h c a).symm, ih ?_⟩
    rw [call_program]
    exact h

/-- Where addresses fit, assembling a source gives a program or an error of the source, whatever it
takes for granted.  When the program is loaded into any machine, no calls find anything malformed,
and after them a step is made, or there is none to make, or it fails regularly. -/
theorem safe_from_source_to_calls {source : Text} {origin : Address}
    (h : AddressesFit source origin) :
    checkedAssemble source origin = (assemble source origin).mapError .error ∧
      ∀ p, assemble source origin = .ok p → (∀ i ∈ p.instructions, i.nextAddress < 2 ^ 32) ∧
        ∀ (m : Machine) (cs : List Call),
          (∀ a, .error (.malformed a) ∉ ((m.load p).callsInPlace cs).1) ∧
          match stepInPlace.run ((m.load p).callsInPlace cs).2 with
          | .ok _ _ => True
          | .error f _ => f.isRegular = true := by
  refine ⟨checkedAssemble_eq h, fun p hp => ⟨fun i hi => ?_, fun m cs => ?_⟩⟩
  · obtain ⟨draft, l, listing, hd, hl, -, rfl⟩ := assemble_eq_ok.mp hp
    exact h.nextAddress_lt hd hl hi
  · have ha : AllAssembled (m.load p).program := ⟨_, (assembled_of_assemble hp).2.instructions⟩
    rw [callsInPlace_eq]
    refine ⟨calls_ne_malformed ha cs, ?_⟩
    split
    · exact trivial
    · next f next hf =>
      refine step_isRegular ?_ (stepInPlace_eq_error.mp hf).1
      rw [calls_program]
      exact ha

/-- The counting program has a branch to a name, which is gone when its bytes are put down. -/
theorem safe_from_source_to_calls_of_counting : AddressesFit countingSource 0x100 ∧
    checkedAssemble countingSource 0x100 = .ok countingProgram ∧
    ∀ (m : Machine) (cs : List Call) (a : Address),
      .error (.malformed a) ∉ ((m.load countingProgram).callsInPlace cs).1 := by
  have hp := assemble_countingSource
  obtain ⟨draft, -, -, hd, -⟩ := assemble_eq_ok.mp hp
  have hend : draft.size = 3 := by
    have h3 : (layout countingSource 0x100).map Layout.size = .ok 3 := rfl
    rw [hd] at h3
    exact Except.ok.inj h3
  have h : AddressesFit countingSource 0x100 := .of_layout hd (by rw [hend]; decide)
  obtain ⟨hc, hs⟩ := safe_from_source_to_calls h
  refine ⟨h, ?_, fun m cs => ((hs countingProgram hp).2 m cs).1⟩
  rw [hc, hp]
  rfl

end Machine

end Mini8086
