import Mini8086.Proofs.InPlace

/-!
# Work on devices that are alike

A map of devices that keeps what is read and turns every write into the same write (`Device.Hom`)
takes work on the one side to the same work on the other: whatever is done in place ends on both
sides in the same way, with the same answer or the same fault, and in devices that belong together.

* `InPlace.Alike`               the same work on both sides of a map;
* `Instruction.execInPlace_alike`  one instruction;
* `Machine.stepInPlace_alike`, `Machine.callInPlace_alike`  one step, one call;
* `Machine.callsFrom_map`       any calls.
-/

namespace Mini8086

/-- What is read is the same on both sides of the map, and a write is the same write. -/
structure Device.Hom {σ τ : Type} [Device σ] [Device τ] (h : σ → τ) : Prop where
  registers : ∀ m, registers (h m) = registers m
  flags : ∀ m, flags (h m) = flags m
  memory : ∀ m, memory (h m) = memory m
  program : ∀ m, program (h m) = program m
  pc : ∀ m, pc (h m) = pc m
  halted : ∀ m, halted (h m) = halted m
  setRegisters : ∀ r m, h (setRegisters r m) = setRegisters r (h m)
  setFlag : ∀ g v m, h (setFlag g v m) = setFlag g v (h m)
  setMemory : ∀ mem m, h (setMemory mem m) = setMemory mem (h m)
  setPc : ∀ k m, h (setPc k m) = setPc k (h m)
  setHalted : ∀ b m, h (setHalted b m) = setHalted b (h m)
  count : ∀ m, h (count m) = count (h m)

namespace InPlace

/-! ## work in parts -/

section
variable {σ τ α β : Type} {h : σ → τ}

/-- the end of work seen through a map -/
def through (h : σ → τ) : EStateM.Result Fault σ α → EStateM.Result Fault τ α
  | .ok a m => .ok a (h m)
  | .error f m => .error f (h m)

/-- Work on the other side of the map ends as the work on this side. -/
def Alike (h : σ → τ) (x : InPlace σ α) (y : InPlace τ α) : Prop :=
  ∀ m, y.run (h m) = through h (x.run m)

namespace Alike
variable {x x' : InPlace σ α} {y y' : InPlace τ α}

theorem pure (a : α) : Alike h (Pure.pure a : InPlace σ α) (Pure.pure a : InPlace τ α) :=
  fun _ => rfl

theorem throw (f : Fault) :
    Alike h (MonadExcept.throw f : InPlace σ α) (MonadExcept.throw f : InPlace τ α) :=
  fun _ => rfl

theorem bind {f : α → InPlace σ β} {g : α → InPlace τ β} (hx : Alike h x y)
    (hf : ∀ a, Alike h (f a) (g a)) : Alike h (x >>= f) (y >>= g) := by
  intro m
  rw [EStateM.run_bind, EStateM.run_bind, hx m]
  cases x.run m with
  | ok a n => exact hf a n
  | error f n => rfl

theorem ite {c : Prop} [Decidable c] (hx : Alike h x y) (hx' : Alike h x' y') :
    Alike h (if c then x else x') (if c then y else y') := by
  by_cases hc : c
  · simpa [hc] using hx
  · simpa [hc] using hx'

theorem modify {f : σ → σ} {g : τ → τ} (hf : ∀ m, h (f m) = g (h m)) :
    Alike h (modify f : InPlace σ Unit) (modify g : InPlace τ Unit) := fun m => by
  rw [EStateM.run_modify, EStateM.run_modify, ← hf]
  rfl

/-- work that goes on from the device as it is -/
theorem get {f : σ → InPlace σ α} {g : τ → InPlace τ α} (hf : ∀ m, Alike h (f m) (g (h m))) :
    Alike h (MonadState.get >>= f) (MonadState.get >>= g) := fun m => hf m m

end Alike

end

/-! ## reading and writing -/

section
variable {σ τ : Type} [Device σ] [Device τ] {h : σ → τ} (hh : Device.Hom h)
include hh

theorem getWord_alike (r : WordRegister) : Alike h (getWord r) (getWord r) :=
  .get fun m => by
    rw [hh.registers]
    exact .pure _

theorem getRegister_alike (r : Register) : Alike h (getRegister r) (getRegister r) :=
  .get fun m => by
    rw [hh.registers]
    exact .pure _

theorem getFlags_alike : Alike h getFlags getFlags :=
  .get fun m => by
    rw [hh.flags]
    exact .pure _

theorem setWord_alike (r : WordRegister) (v : Word) : Alike h (setWord r v) (setWord r v) :=
  .modify fun m => by rw [hh.setRegisters, hh.registers]

theorem setRegister_alike (r : Register) (v : BitVec r.width.bits) :
    Alike h (setRegister r v) (setRegister r v) :=
  .modify fun m => by rw [hh.setRegisters, hh.registers]

theorem setFlag_alike (g : Flag) (v : Bool) : Alike h (setFlag g v) (setFlag g v) :=
  .modify (hh.setFlag g v)

theorem showResult_alike {n : Nat} (v : BitVec n) : Alike h (showResult v) (showResult v) :=
  .bind (setFlag_alike hh _ _) fun _ => .bind (setFlag_alike hh _ _) fun _ => setFlag_alike hh _ _

theorem locate_alike (i : Instruction) (o : Operand) : Alike h (locate i o) (locate i o) := by
  cases o with
  | reg r => exact .pure _
  | indirect p => exact .bind (getWord_alike hh p) fun _ => .pure _
  | imm | addr | label => exact .throw _

theorem fetch_alike (w : Width) (l : Location) : Alike h (fetch w l) (fetch w l) := by
  cases l with
  | reg r => exact .bind (getRegister_alike hh r) fun _ => .pure _
  | mem a =>
    refine .get fun m => ?_
    rw [hh.memory]
    exact .pure _

theorem store_alike (w : Width) (v : BitVec w.bits) (l : Location) :
    Alike h (store w v l) (store w v l) := by
  cases l with
  | reg r => exact setRegister_alike hh r _
  | mem a => exact .modify fun m => by rw [hh.setMemory, hh.memory]

theorem fetchOperand_alike (i : Instruction) (w : Width) (o : Operand) :
    Alike h (fetchOperand i w o) (fetchOperand i w o) := by
  cases o with
  | imm v => exact .pure _
  | _ => exact .bind (locate_alike hh i _) (fetch_alike hh w)

end

end InPlace

/-! ## instructions -/

namespace Instruction
open InPlace

theorem divideBy_alike {σ τ : Type} {h : σ → τ} (i : Instruction) {n : Nat}
    (dividend : BitVec (n + n)) (divisor : BitVec n) :
    Alike h (i.divideBy dividend divisor) (i.divideBy dividend divisor) := by
  unfold divideBy
  refine .ite (.bind (.throw _) fun _ => ?_) ?_
  all_goals exact .ite (.bind (.throw _) fun _ => .pure _) (.pure _)

section
variable {σ τ : Type} [Device σ] [Device τ] {h : σ → τ} (hh : Device.Hom h) (i : Instruction)
include hh

theorem execMove_alike : Alike h i.execMove i.execMove := by
  unfold execMove
  split
  · exact .bind (fetchOperand_alike hh i _ _) fun _ => .bind (locate_alike hh i _) fun _ =>
      store_alike hh _ _ _
  · exact .throw _

theorem execSum_alike (op : AluOp) : Alike h (i.execSum op) (i.execSum op) := by
  unfold execSum
  split
  · next d s _ =>
    refine .bind (getRegister_alike hh d) fun a => .bind (fetchOperand_alike hh i _ s) fun b =>
      .bind (getFlags_alike hh) fun f => ?_
    cases op.sum? f.carry a b with
    | none => exact .throw _
    | some p =>
      have hflags (_ : Unit) := Alike.bind (setFlag_alike hh .carry p.2)
        fun _ => showResult_alike hh p.1
      exact .ite (.bind (setRegister_alike hh d p.1) hflags) (hflags ())
  · exact .throw _

theorem execLogic_alike (op : AluOp) : Alike h (i.execLogic op) (i.execLogic op) := by
  unfold execLogic
  split
  · next d s _ =>
    refine .bind (getRegister_alike hh d) fun a => .bind (fetchOperand_alike hh i _ s) fun b => ?_
    cases op.logic? a b with
    | none => exact .throw _
    | some v =>
      refine .bind (setRegister_alike hh d v) fun _ => .bind (showResult_alike hh v) fun _ => ?_
      exact .ite (.bind (setFlag_alike hh .carry false) fun _ => setFlag_alike hh .overflow false)
        (.pure ())
  · exact .throw _

theorem execUnary_alike (op : UnaryOp) : Alike h (i.execUnary op) (i.execUnary op) := by
  unfold execUnary
  split
  · next r _ =>
    have hrest (v : BitVec r.width.bits) := Alike.bind (setRegister_alike hh r v)
      fun _ => showResult_alike hh v
    refine .bind (getRegister_alike hh r) fun v => ?_
    cases op with
    | inc | dec | not => exact .bind (.pure _) hrest
    | neg => exact .bind (setFlag_alike hh .carry _) fun _ => .bind (.pure _) hrest
  · exact .throw _

theorem execShift_alike (d : Direction) : Alike h (i.execShift d) (i.execShift d) := by
  unfold execShift
  split
  · next r _ _ =>
    refine .bind (getRegister_alike hh r) fun v => ?_
    have hrest (p : BitVec r.width.bits × Bool) := Alike.bind (setRegister_alike hh r p.1)
      fun _ => .bind (setFlag_alike hh .carry p.2) fun _ => showResult_alike hh p.1
    cases d with
    | left => exact hrest (v <<< 1, v.msb)
    | right => exact hrest (v >>> 1, v.getLsbD 0)
  · exact .throw _

theorem execMultiply_alike : Alike h i.execMultiply i.execMultiply := by
  unfold execMultiply
  split
  · exact .bind (getRegister_alike hh _) fun _ => .bind (getRegister_alike hh _) fun _ =>
      .bind (setWord_alike hh .ax _) fun _ => showResult_alike hh _
  · exact .bind (getWord_alike hh _) fun _ => .bind (getWord_alike hh _) fun _ =>
      .bind (setWord_alike hh .ax _) fun _ => .bind (setWord_alike hh .dx _) fun _ =>
        showResult_alike hh _
  · exact .throw _

theorem execDivide_alike : Alike h i.execDivide i.execDivide := by
  unfold execDivide
  split
  · exact .bind (getRegister_alike hh _) fun _ => .bind (getWord_alike hh .ax) fun _ =>
      .bind (divideBy_alike i _ _) fun _ => .bind (setRegister_alike hh _ _) fun _ =>
        setRegister_alike hh _ _
  · exact .bind (getWord_alike hh _) fun _ => .bind (getWord_alike hh .dx) fun _ =>
      .bind (getWord_alike hh .ax) fun _ => .bind (divideBy_alike i _ _) fun _ =>
        .bind (setWord_alike hh .ax _) fun _ => setWord_alike hh .dx _
  · exact .throw _

theorem branchTarget_alike : Alike h i.branchTarget i.branchTarget := by
  unfold branchTarget
  split
  · next t _ =>
    refine .get fun m => ?_
    rw [hh.program]
    cases indexOf? (Device.program m) t with
    | some k => exact .pure _
    | none => exact .throw _
  · exact .throw _

theorem execBranch_alike (b : Branch) : Alike h (i.execBranch b) (i.execBranch b) := by
  unfold execBranch
  refine .bind (getFlags_alike hh) fun f => ?_
  cases b.condition? with
  | some c => exact .ite (branchTarget_alike hh i) (.pure _)
  | none => exact .throw _

theorem execLoop_alike : Alike h i.execLoop i.execLoop := by
  unfold execLoop
  refine .bind (getWord_alike hh .cx) fun cx => ?_
  have hrest (next : Next) := Alike.bind (setWord_alike hh .cx (cx - 1)) fun _ => .pure next
  exact .ite (.bind (branchTarget_alike hh i) hrest) (.bind (.pure _) hrest)

/-- An instruction is carried out alike on both sides of the map. -/
theorem execInPlace_alike : Alike h i.execInPlace i.execInPlace := by
  have hthen {x : InPlace σ Unit} {y : InPlace τ Unit} (hx : Alike h x y) :
      Alike h (thenFollowing x) (thenFollowing y) := .bind hx fun _ => .pure _
  unfold execInPlace
  cases i.mnemonic with
  | mov => exact hthen (execMove_alike hh i)
  | alu op =>
    cases op with
    | and | or | xor => exact hthen (execLogic_alike hh i _)
    | _ => exact hthen (execSum_alike hh i _)
  | unary op => exact hthen (execUnary_alike hh i op)
  | mul => exact hthen (execMultiply_alike hh i)
  | div => exact hthen (execDivide_alike hh i)
  | shift d => exact hthen (execShift_alike hh i d)
  | clc => exact hthen (setFlag_alike hh .carry false)
  | nop => exact hthen (.pure ())
  | hlt => exact .pure _
  | branch b =>
    cases b with
    | loop => exact execLoop_alike hh i
    | _ => exact execBranch_alike hh i _

end

end Instruction

/-! ## machines -/

namespace Machine
open InPlace Instruction

section
variable {σ τ : Type} [Device σ] [Device τ] {h : σ → τ} (hh : Device.Hom h)
include hh

theorem isDone_alike (m : σ) : Device.isDone (h m) = Device.isDone m := by
  simp [Device.isDone, hh.halted, hh.program, hh.pc]

theorem moveOn_alike (i : Instruction) (next : Next) :
    Alike h (moveOn i next) (moveOn i next) := by
  cases next with
  | following => exact .bind (.modify fun m => by rw [hh.setPc, hh.pc]) fun _ => .pure _
  | halt => exact .bind (.modify (hh.setHalted true)) fun _ => .pure _
  | jump k target =>
    refine .bind (.modify (hh.setPc k)) fun _ => .get fun m => ?_
    rw [hh.program]
    cases (Device.program m)[k]? with
    | some j => exact .pure _
    | none => exact .throw _

theorem stepInPlace_alike : Alike h stepInPlace stepInPlace := by
  refine .get fun m => ?_
  rw [isDone_alike hh, hh.program, hh.pc]
  refine .ite (.pure none) ?_
  cases (Device.program m)[Device.pc m]? with
  | none => exact .throw _
  | some i =>
    exact .bind (execInPlace_alike hh i) fun next => .bind (moveOn_alike hh i next) fun a =>
      .bind (setWord_alike hh .ip _) fun _ => .bind (.modify hh.count) fun _ => .pure _

theorem seekInPlace_alike (a : Address) : Alike h (seekInPlace a) (seekInPlace a) := by
  refine .get fun m => ?_
  rw [hh.program]
  cases indexOf? (Device.program m) a with
  | none => exact .throw _
  | some k =>
    exact .bind (.modify (hh.setPc k)) fun _ => .bind (.modify (hh.setHalted false)) fun _ =>
      setWord_alike hh .ip _

theorem runAfterInPlace_alike (before : List Visit) (budget : Nat) :
    Alike h (runAfterInPlace before budget) (runAfterInPlace before budget) := by
  induction budget generalizing before with
  | zero =>
    refine .get fun m => ?_
    rw [isDone_alike hh, hh.halted]
    exact .pure _
  | succ budget ih =>
    refine .get fun m => ?_
    rw [isDone_alike hh, hh.halted]
    refine .ite (.pure _) (.bind (stepInPlace_alike hh) fun o => ?_)
    cases o with
    | none =>
      refine .get fun n => ?_
      rw [hh.halted]
      exact .pure _
    | some v => exact ih (v :: before)

theorem callInPlace_alike (c : Call) : Alike h (callInPlace c) (callInPlace c) := by
  cases c with
  | step => exact .bind (stepInPlace_alike hh) fun _ => .pure _
  | run budget => exact runAfterInPlace_alike hh [] budget
  | seek a => exact .bind (seekInPlace_alike hh a) fun _ => .pure _
  | runAt a budget =>
    exact .bind (seekInPlace_alike hh a) fun _ => runAfterInPlace_alike hh [] budget

/-- Calls have the same answers on both sides of the map, and the devices after them still belong
together. -/
theorem callsFrom_map (m : σ) (cs : List Call) :
    callsFrom (h m) cs = ((callsFrom m cs).1, h (callsFrom m cs).2) := by
  induction cs generalizing m with
  | nil => rfl
  | cons c cs ih =>
    rw [callsFrom, callsFrom, callInPlace_alike hh c m]
    cases (callInPlace c).run m with
    | ok answer next => simp [through, ih next]
    | error f next => simp [through, ih next]

end

end Machine

end Mini8086
