import Mini8086.Proofs.InPlace

/-!
# Execution in place agrees with execution

What is executed in place leaves the machine that `Machine.step` gives, or the fault that it gives,
and then nothing has been written.  This holds for every machine and every program, also for those
that nobody would assemble.

* `Instruction.execInPlace_eq`  one instruction: where it fails, it fails before its first write;
* `Machine.stepInPlace_eq`, `Machine.seekInPlace_eq`, `Machine.runInPlace_eq`   one step, one seek,
                               a run;
* `Machine.callsInPlace_eq`     any calls.
-/

namespace Mini8086

/-! ## what the parts do -/

namespace InPlace
variable {m : Machine}

/-- the end of work that leaves the machine `m` -/
def leave {α : Type} (m : Machine) : Except Fault α → EStateM.Result Fault Machine α
  | .ok a => .ok a m
  | .error f => .error f m

theorem leave_eq_ok {α : Type} {x : Except Fault α} {a : α} {next : Machine} :
    leave m x = .ok a next ↔ x = .ok a ∧ next = m := by
  cases x with
  | ok b =>
    show EStateM.Result.ok b m = _ ↔ _
    rw [EStateM.Result.ok.injEq, Except.ok.injEq]
    exact and_congr_right fun _ => eq_comm
  | error f => exact ⟨(nomatch ·), fun h => nomatch h.1⟩

theorem leave_eq_error {α : Type} {x : Except Fault α} {f : Fault} {next : Machine} :
    leave m x = .error f next ↔ x = .error f ∧ next = m := by
  cases x with
  | ok a => exact ⟨(nomatch ·), fun h => nomatch h.1⟩
  | error g =>
    show EStateM.Result.error g m = _ ↔ _
    rw [EStateM.Result.error.injEq, Except.error.injEq]
    exact and_congr_right fun _ => eq_comm

@[simp] theorem run_getWord (r : WordRegister) :
    (getWord r).run m = .ok (m.cpu.registers.getWord r) m := rfl
@[simp] theorem run_getRegister (r : Register) : (getRegister r).run m = .ok (m.cpu.get r) m := rfl
@[simp] theorem run_getFlags : getFlags.run m = .ok m.cpu.flags m := rfl

@[simp] theorem device_isDone (m : Machine) : Device.isDone m = m.isDone := rfl

end InPlace

namespace Instruction
open InPlace
variable {i : Instruction}

theorem divideBy_run {n : Nat} (i : Instruction) (dividend : BitVec (n + n)) (divisor : BitVec n)
    (m : Machine) :
    (i.divideBy dividend divisor).run m = leave m (quotient i.address dividend divisor) := by
  unfold divideBy quotient
  by_cases hz : divisor = 0
  · rw [if_pos hz, if_pos hz]
    rfl
  · rw [if_neg hz, if_neg hz]
    dsimp only
    by_cases hq : 1 <<< n ≤ dividend.toNat / divisor.toNat
    · rw [if_pos hq, if_pos hq]
      rfl
    · rw [if_neg hq, if_neg hq]
      rfl

theorem branchTarget_run (i : Instruction) (m : Machine) :
    i.branchTarget.run m = leave m (jumpTo m.program i.address i.target?) := by
  unfold branchTarget jumpTo
  cases i.target? with
  | none => rfl
  | some t =>
    rw [EStateM.run_bind]
    dsimp only [EStateM.run_get]
    cases indexOf? m.program t with
    | none => rfl
    | some k => rfl

/-! ## instructions one by one

Where an instruction does not look at what it reads, both sides compute, whatever the operands. -/

/-- what carrying an instruction out in place comes to -/
def settle (m : Machine) : Except Fault (State × Next) → EStateM.Result Fault Machine Next
  | .ok (s, next) => .ok next { m with toState := s }
  | .error f => .error f m

theorem execMove_eq (hm : i.mnemonic = .mov) (m : Machine) :
    i.execInPlace.run m = settle m (i.exec m.program m.toState) := by
  unfold execInPlace Instruction.exec Instruction.operation?
  rw [hm]
  show (thenFollowing i.execMove).run m = _
  unfold execMove
  match i.operands with
  | [] => rfl
  | [_] => rfl
  | _ :: _ :: _ :: _ => rfl
  | [d, s] => cases d <;> cases s <;> rfl

theorem execAlu_eq {op : AluOp} (hm : i.mnemonic = .alu op) (m : Machine) :
    i.execInPlace.run m = settle m (i.exec m.program m.toState) := by
  unfold execInPlace Instruction.exec Instruction.operation?
  rw [hm]
  unfold execLogic execSum
  match i.operands with
  | [] => cases op <;> rfl
  | [d] => cases op <;> cases d <;> rfl
  | d :: _ :: _ :: _ => cases op <;> cases d <;> rfl
  | [d, s] =>
    cases d with
    | reg r => cases op <;> cases s <;> rfl
    | _ => cases op <;> rfl

theorem execUnary_eq {op : UnaryOp} (hm : i.mnemonic = .unary op) (m : Machine) :
    i.execInPlace.run m = settle m (i.exec m.program m.toState) := by
  unfold execInPlace Instruction.exec Instruction.operation?
  rw [hm]
  show (thenFollowing (i.execUnary op)).run m = _
  unfold execUnary
  match i.operands with
  | [] => rfl
  | [o] =>
    cases o with
    | reg r => cases op <;> rfl
    | _ => rfl
  | o :: _ :: _ => cases o <;> rfl

theorem execShift_eq {d : Direction} (hm : i.mnemonic = .shift d) (m : Machine) :
    i.execInPlace.run m = settle m (i.exec m.program m.toState) := by
  unfold execInPlace Instruction.exec Instruction.operation?
  rw [hm]
  show (thenFollowing (i.execShift d)).run m = _
  unfold execShift
  match i.operands with
  | [] => rfl
  | [o] => cases o <;> rfl
  | o :: _ :: _ :: _ => cases o <;> rfl
  | [o, _] =>
    cases o with
    | reg r => cases d <;> rfl
    | _ => rfl

theorem execMultiply_eq (hm : i.mnemonic = .mul) (m : Machine) :
    i.execInPlace.run m = settle m (i.exec m.program m.toState) := by
  unfold execInPlace Instruction.exec Instruction.operation?
  rw [hm]
  show (thenFollowing i.execMultiply).run m = _
  unfold execMultiply
  match i.operands with
  | [] => rfl
  | o :: _ :: _ =>
    cases o with
    | reg r => cases r <;> rfl
    | _ => rfl
  | [o] =>
    cases o with
    | reg r => cases r <;> rfl
    | _ => rfl

theorem execDivide_eq (hm : i.mnemonic = .div) (m : Machine) :
    i.execInPlace.run m = settle m (i.exec m.program m.toState) := by
  unfold execInPlace Instruction.exec Instruction.operation?
  rw [hm]
  show (thenFollowing i.execDivide).run m = _
  unfold execDivide
  match i.operands with
  | [] => rfl
  | [.indirect _] | [.imm _] | [.addr _] | [.label _] => rfl
  | o :: _ :: _ =>
    cases o with
    | reg r => cases r <;> rfl
    | _ => rfl
  | [.reg (.byte r)] =>
    have hq := divideBy_run (n := 8) i (m.cpu.registers.getWord .ax) (m.cpu.registers.getByte r) m
    rw [thenFollowing, EStateM.run_bind, EStateM.run_bind, run_getRegister]
    dsimp only
    rw [EStateM.run_bind, run_getWord]
    dsimp only
    rw [EStateM.run_bind, Cpu.get, Registers.get, hq]
    show _ = settle m ((Except.map _ (quotient ..)).map _)
    cases quotient i.address (m.cpu.registers.getWord .ax) (m.cpu.registers.getByte r) with
    | error f => rfl
    | ok p => rfl
  | [.reg (.word r)] =>
    have hq := divideBy_run (n := 16) i (m.cpu.registers.getWord .dx ++ m.cpu.registers.getWord .ax)
      (m.cpu.registers.getWord r) m
    rw [thenFollowing, EStateM.run_bind, EStateM.run_bind, run_getWord]
    dsimp only
    rw [EStateM.run_bind, run_getWord]
    dsimp only
    rw [EStateM.run_bind, run_getWord]
    dsimp only
    rw [EStateM.run_bind, hq]
    show _ = settle m ((Except.map _ (quotient ..)).map _)
    cases quotient i.address (m.cpu.registers.getWord .dx ++ m.cpu.registers.getWord .ax)
        (m.cpu.registers.getWord r) with
    | error f => rfl
    | ok p => rfl

theorem condition?_eq_none {b : Branch} : b.condition? = none ↔ b = .loop := by
  cases b <;> decide

theorem execBranch_eq {b : Branch} {c : Condition} (hm : i.mnemonic = .branch b)
    (hc : b.condition? = some c) (m : Machine) :
    i.execInPlace.run m = settle m (i.exec m.program m.toState) := by
  have hp : (i.execInPlace : InPlace Machine Next) = i.execBranch b := by
    unfold execInPlace
    rw [hm]
    cases b with
    | loop => cases hc
    | _ => rfl
  have ho : i.operation? = some (.jump c i.target?) := by
    unfold operation?
    rw [hm]
    show some (b.operation i.target?) = _
    rw [Branch.operation, hc]
  unfold Instruction.exec
  rw [hp, ho, execBranch, EStateM.run_bind, run_getFlags, hc]
  dsimp only [Operation.exec]
  by_cases ht : c.holds m.cpu.flags = true
  · rw [if_pos ht, if_pos ht, branchTarget_run]
    cases jumpTo m.program i.address i.target? with
    | error f => rfl
    | ok next => rfl
  · rw [if_neg ht, if_neg ht]
    rfl

theorem execLoop_eq (hm : i.mnemonic = .branch .loop) (m : Machine) :
    i.execInPlace.run m = settle m (i.exec m.program m.toState) := by
  have hp : (i.execInPlace : InPlace Machine Next) = i.execLoop := by
    unfold execInPlace
    rw [hm]
  have ho : i.operation? = some (.loop i.target?) := by
    unfold operation?
    rw [hm]
    rfl
  unfold Instruction.exec
  rw [hp, ho, execLoop, EStateM.run_bind, run_getWord]
  dsimp only [Operation.exec]
  by_cases hz : m.cpu.registers.getWord .cx - 1 = 0
  · rw [if_pos hz, if_neg (not_not_intro hz)]
    rfl
  · rw [if_neg hz, if_pos hz, EStateM.run_bind, branchTarget_run]
    cases jumpTo m.program i.address i.target? with
    | error f => rfl
    | ok next => rfl

/-- Carrying an instruction out in place leaves the state that `Instruction.exec` gives, or the
fault that it gives and nothing written. -/
theorem execInPlace_eq (i : Instruction) (m : Machine) :
    i.execInPlace.run m = settle m (i.exec m.program m.toState) := by
  cases hm : i.mnemonic with
  | mov => exact execMove_eq hm m
  | alu op => exact execAlu_eq hm m
  | unary op => exact execUnary_eq hm m
  | mul => exact execMultiply_eq hm m
  | div => exact execDivide_eq hm m
  | shift d => exact execShift_eq hm m
  | clc | nop | hlt =>
    unfold execInPlace Instruction.exec Instruction.operation?
    rw [hm]
    rfl
  | branch b =>
    cases hc : b.condition? with
    | none => exact execLoop_eq (condition?_eq_none.mp hc ▸ hm) m
    | some c => exact execBranch_eq hm hc m

end Instruction

/-! ## machines -/

namespace Machine
open InPlace Instruction
variable {m : Machine}

/-- what a step in place comes to -/
def settleStep (m : Machine) :
    Except Fault (Option (Visit × Machine)) → EStateM.Result Fault Machine (Option Visit)
  | .ok none => .ok none m
  | .ok (some (v, next)) => .ok (some v) next
  | .error f => .error f m

theorem moveOn_jump (i : Instruction) (target : Address) {s : State} {k : Nat} {j : Instruction}
    (hj : m.program[k]? = some j) :
    (moveOn i (.jump k target)).run { m with toState := s } =
      .ok j.address { m with toState := s, pc := k } := by
  have hp : (Device.program (Device.setPc k ({ m with toState := s } : Machine)))[k]? = some j := hj
  unfold moveOn
  rw [EStateM.run_bind, EStateM.run_modify]
  dsimp only
  rw [EStateM.run_bind, EStateM.run_get]
  dsimp only
  rw [hp]
  rfl

theorem stepInPlace_eq (m : Machine) : stepInPlace.run m = settleStep m m.step := by
  unfold stepInPlace
  rw [EStateM.run_bind, EStateM.run_get]
  dsimp only
  rw [device_isDone]
  cases hd : m.isDone with
  | true =>
    rw [if_pos rfl, step_of_isDone hd]
    rfl
  | false =>
    obtain ⟨hh, i, hi⟩ := exists_instruction hd
    have hp : (Device.program m)[Device.pc m]? = some i := hi
    have hx := execInPlace_eq i m
    rw [if_neg Bool.false_ne_true, step_of_getElem? hh hi, hp]
    dsimp only
    cases hr : i.exec m.program m.toState with
    | error f =>
      rw [hr] at hx
      rw [EStateM.run_bind, hx]
      rfl
    | ok r =>
      obtain ⟨s, next⟩ := r
      rw [hr] at hx
      rw [EStateM.run_bind, hx]
      rcases Instruction.exec_next hr with rfl | ⟨rfl, -⟩ | ⟨k, target, rfl, hk⟩
      · rfl
      · rfl
      · -- the instruction at the index found is the one at the target
        obtain ⟨j, hj, rfl⟩ := indexOf?_eq_some hk
        dsimp only [settle]
        rw [EStateM.run_bind, moveOn_jump i j.address hj]
        rfl

theorem seekInPlace_eq (m : Machine) (a : Address) :
    (seekInPlace a).run m =
      match m.seek a with
      | .ok next => .ok () next
      | .error f => .error f m := by
  unfold seekInPlace seek
  rw [EStateM.run_bind, EStateM.run_get]
  dsimp only
  cases indexOf? m.program a with
  | none => rfl
  | some k => rfl

theorem runAfterInPlace_eq (before : List Visit) (m : Machine) (budget : Nat) :
    (runAfterInPlace before budget).run m =
      leave (runAfter before m budget).machine (runAfter before m budget).answer := by
  induction budget generalizing before m with
  | zero =>
    unfold runAfterInPlace runAfter
    rw [EStateM.run_bind, EStateM.run_get]
    dsimp only
    rw [device_isDone]
    cases m.isDone with
    | true => rfl
    | false => rfl
  | succ budget ih =>
    unfold runAfterInPlace runAfter
    rw [EStateM.run_bind, EStateM.run_get]
    dsimp only
    rw [device_isDone]
    cases hd : m.isDone with
    | true =>
      rw [if_pos rfl, step_of_isDone hd]
      rfl
    | false =>
      rw [if_neg Bool.false_ne_true, EStateM.run_bind, stepInPlace_eq]
      cases hs : m.step with
      | error f => rfl
      | ok o =>
        cases o with
        | none => rfl
        | some p => exact ih (p.1 :: before) p.2

theorem runInPlace_eq (m : Machine) (budget : Nat) :
    (runInPlace budget).run m = leave (m.run budget).machine (m.run budget).answer :=
  runAfterInPlace_eq [] m budget

/-- Every call in place answers and leaves what the call answers and leaves. -/
theorem callInPlace_eq (m : Machine) (c : Call) :
    (callInPlace c).run m = leave (m.call c).2 (m.call c).1 := by
  unfold callInPlace call
  cases c with
  | step =>
    dsimp only
    rw [EStateM.run_bind, stepInPlace_eq]
    cases m.step with
    | error f => rfl
    | ok o =>
      cases o with
      | none => rfl
      | some p => rfl
  | run budget => exact runInPlace_eq m budget
  | seek a =>
    dsimp only
    rw [EStateM.run_bind, seekInPlace_eq]
    cases m.seek a with
    | error f => rfl
    | ok next => rfl
  | runAt a budget =>
    unfold runAtInPlace runAt
    dsimp only
    rw [EStateM.run_bind, seekInPlace_eq]
    cases m.seek a with
    | error f => rfl
    | ok next => exact runInPlace_eq next budget

theorem callsInPlace_eq (m : Machine) (cs : List Call) : m.callsInPlace cs = m.calls cs := by
  induction cs generalizing m with
  | nil => rfl
  | cons c cs ih =>
    rw [callsInPlace, callsFrom, calls, callInPlace_eq]
    cases (m.call c).1 with
    | error f =>
      show (_ :: ((m.call c).2.callsInPlace cs).1, ((m.call c).2.callsInPlace cs).2) = _
      rw [ih]
    | ok answer =>
      show (_ :: ((m.call c).2.callsInPlace cs).1, ((m.call c).2.callsInPlace cs).2) = _
      rw [ih]

end Machine

end Mini8086
