import Mathlib.Algebra.Order.Group.Defs
import Mathlib.Data.Int.Basic
import Mathlib.Logic.Relation
import Mini8086.Proofs.MultiWord
import Mini8086.Proofs.Sessions

/-!
# Branches after a comparison

`cmp` and `sub` leave flags that tell how two numbers compare, and a branch on them may come later,
after instructions that leave the flags alone.  The branches for numbers with sign ask the sign of
the difference together with overflow.  No operation ever sets overflow, so they answer right as
long as the difference is a number of the width, and wrong as soon as it is not.

* `Session.overflow_after`        overflow is clear in every session;
* `Machine.Rests.flags_eq`        instructions that leave the flags alone;
* `Condition.holds_after_sub`     what the branches for numbers with sign find in the flags;
* `signed_branches`               what they do.
-/

namespace Mini8086

/-! ## overflow -/

section
variable {n : Nat} {f : Flags} (hf : f.overflow = false)
include hf

theorem AluOp.overflow_eval (op : AluOp) (a b : BitVec n) : (op.eval f a b).2.overflow = false := by
  cases op with
  | and | xor => rfl
  | _ => exact hf

theorem UnaryOp.overflow_eval (op : UnaryOp) (v : BitVec n) :
    (op.eval f v).2.overflow = false := by
  cases op with
  | _ => exact hf

theorem Direction.overflow_eval (d : Direction) (v : BitVec n) :
    (d.eval f v).2.overflow = false := by
  cases d with
  | _ => exact hf

end

theorem State.flags_divide {s t : State} {a : Address} {r : Register}
    (h : s.divide a r = .ok t) : t.cpu.flags = s.cpu.flags := by
  cases r with
  | byte r | word r =>
    obtain ⟨p, -, rfl⟩ := map_eq_ok.mp h
    rfl

section
variable {code : List Instruction} {a : Address} {s t : State} {next : Next}

/-- whether the operation leaves all flags as they are -/
def Operation.keepsFlags : Operation → Bool
  | .move _ _ | .divide _ | .nothing | .halt | .jump _ _ | .loop _ => true
  | _ => false

theorem Operation.flags_exec {op : Operation} (hk : op.keepsFlags = true)
    (h : op.exec code a s = .ok (t, next)) : t.cpu.flags = s.cpu.flags := by
  cases op with
  | move dst src =>
    cases h
    cases dst <;> rfl
  | divide src =>
    obtain ⟨u, hu, hp⟩ := map_eq_ok.mp h
    cases hp
    exact State.flags_divide hu
  | nothing | halt =>
    cases h
    rfl
  | jump c target =>
    dsimp only [Operation.exec] at h
    split at h
    · obtain ⟨n, -, hp⟩ := map_eq_ok.mp h
      cases hp
      rfl
    · cases h
      rfl
  | loop target =>
    dsimp only [Operation.exec] at h
    split at h
    · cases h
      rfl
    · obtain ⟨n, -, hp⟩ := map_eq_ok.mp h
      cases hp
      rfl
  | alu | unary | multiply | shift | clearCarry => cases hk

/-- No operation sets overflow. -/
theorem Operation.overflow_exec {op : Operation} (hs : s.cpu.flags.overflow = false)
    (h : op.exec code a s = .ok (t, next)) : t.cpu.flags.overflow = false := by
  by_cases hk : op.keepsFlags = true
  · rw [Operation.flags_exec hk h]
    exact hs
  cases op with
  | alu op dst src =>
    dsimp only [Operation.exec] at h
    split at h
    · cases h
      exact AluOp.overflow_eval hs op _ _
    · cases h
      exact AluOp.overflow_eval hs op _ _
  | unary op dst =>
    cases h
    exact op.overflow_eval hs _
  | multiply src =>
    cases h
    cases src <;> exact hs
  | shift d dst =>
    cases h
    exact d.overflow_eval hs _
  | clearCarry =>
    cases h
    exact hs
  | move | divide | nothing | halt | jump | loop => exact absurd rfl hk

end

theorem Machine.overflow_step {m next : Machine} {v : Visit} (hm : m.cpu.flags.overflow = false)
    (h : m.step = .ok (some (v, next))) : next.cpu.flags.overflow = false := by
  obtain ⟨i, s, n, -, -, hx, -, rfl⟩ := step_eq_some.mp h
  obtain ⟨op, -, hx⟩ := Instruction.exec_eq_ok hx
  rw [advance_flags]
  exact Operation.overflow_exec hm hx

namespace Session

/-- Overflow is clear after any requests. -/
theorem overflow_after {s : Session} (h : s.machine.cpu.flags.overflow = false)
    (rs : List Request) : (rs.foldl after s).machine.cpu.flags.overflow = false := by
  induction rs generalizing s with
  | nil => exact h
  | cons r rs ih =>
    have hseek (m : Machine) (a : Address) (next : Machine) (hm : m.cpu.flags.overflow = false)
        (hs : m.seek a = .ok next) : next.cpu.flags.overflow = false := by
      obtain ⟨k, -, rfl⟩ := Machine.seek_eq_ok hs
      exact hm
    apply ih
    exact after_keeps (P := fun m => m.cpu.flags.overflow = false) (fun _ _ hm => hm)
      (fun _ _ _ => Machine.overflow_step) hseek (fun _ _ => rfl) (fun _ _ hm => hm) h r

end Session

/-! ## instructions that leave the flags alone -/

/-- the instructions that leave all flags as they are -/
def Mnemonic.keepsFlags : Mnemonic → Bool
  | .mov | .div | .nop | .hlt | .branch _ => true
  | _ => false

theorem Instruction.keepsFlags_operation? {i : Instruction} {op : Operation}
    (hk : i.mnemonic.keepsFlags = true) (h : i.operation? = some op) : op.keepsFlags = true := by
  unfold Instruction.operation? at h
  generalize i.mnemonic = m at hk h
  split at h
  · next d s _ =>
    cases hd : d.place? <;> cases hs : s.source? <;> rw [hd, hs] at h <;> cases h
    rfl
  · cases hk
  · cases hk
  · cases hk
  · cases h
    rfl
  · cases hk
  · cases hk
  · cases h
    rfl
  · cases h
    rfl
  · next b =>
    cases h
    cases b <;> rfl
  · cases h

namespace Machine

/-- The machine becomes `last` by instructions that leave all flags as they are. -/
def Rests : Machine → Machine → Prop :=
  Relation.ReflTransGen fun m next => ∃ i, Executes i m next ∧ i.mnemonic.keepsFlags = true

theorem Rests.flags_eq {m last : Machine} (h : Rests m last) : last.cpu.flags = m.cpu.flags := by
  induction h with
  | refl => rfl
  | tail _ hstep ih =>
    obtain ⟨i, hi, hk⟩ := hstep
    obtain ⟨s, n, hx, rfl⟩ := hi.exec
    obtain ⟨op, ho, hx⟩ := Instruction.exec_eq_ok hx
    rw [advance_flags, Operation.flags_exec (Instruction.keepsFlags_operation? hk ho) hx]
    exact ih

/-! ## comparing -/

/-- The machine executes `cmp` or `sub` on a register and a source. -/
inductive Compares (r : Register) (src : Source) (m next : Machine) : Prop
  | intro {i : Instruction} {o : Operand} (executes : Executes i m next)
      (mnemonic : i.mnemonic = .alu .cmp ∨ i.mnemonic = .alu .sub)
      (operands : i.operands = [.reg r, o]) (source : o.source? = some src)

/-- The flags are those of the difference, with the borrow as carry. -/
theorem Compares.flags_eq {r : Register} {src : Source} {m next : Machine}
    (h : Compares r src m next) :
    ∃ f : Flags, f.overflow = m.cpu.flags.overflow ∧
      f.carry = decide ((m.cpu.get r).toNat < (m.value r.width src).toNat) ∧
      next.cpu.flags = f.after (m.cpu.get r - m.value r.width src) := by
  obtain ⟨hi, hm, hops, hsrc⟩ := h
  rename_i i o
  obtain ⟨s, n, hx, rfl⟩ := hi.exec
  rw [advance_flags]
  have ho {op : AluOp} (hm : i.mnemonic = .alu op) : i.operation? = some (.alu op r src) := by
    unfold Instruction.operation?
    rw [hm, hops]
    exact congrArg (Option.map _) hsrc
  have hs : s.cpu.flags =
      (m.cpu.flags.afterCarry (subWith (m.cpu.get r) (m.value r.width src) false)).2 := by
    unfold Instruction.exec at hx
    rcases hm with hm | hm
    · rw [ho hm] at hx
      cases hx
      rfl
    · rw [ho hm] at hx
      cases hx
      rfl
  rw [hs]
  refine ⟨{ m.cpu.flags with
    carry := decide ((m.cpu.get r).toNat < (m.value r.width src).toNat) }, rfl, rfl, ?_⟩
  rw [Flags.afterCarry, subWith, Bool.toNat_false, BitVec.sub_zero]
  rfl

/-! ## branching -/

/-- The machine is at the branch `b`, which is instruction `i`. -/
structure AtBranch (i : Instruction) (b : Branch) (m : Machine) : Prop where
  halted : m.halted = false
  instruction : m.program[m.pc]? = some i
  mnemonic : i.mnemonic = .branch b

/-- the step of a machine at a branch that is taken or not -/
def branchStep (m : Machine) (i : Instruction) (taken : Bool) :
    Except Fault (Option (Visit × Machine)) :=
  (if taken then jumpTo m.program i.address i.target? else .ok .following).map fun next =>
    some (⟨i.address, i.line⟩, m.advance i m.toState next)

theorem AtBranch.step_eq {m : Machine} {i : Instruction} {b : Branch} {c : Condition}
    (h : AtBranch i b m) (hc : b.condition? = some c) :
    m.step = m.branchStep i (c.holds m.cpu.flags) := by
  have ho : i.operation? = some (.jump c i.target?) := by
    unfold Instruction.operation?
    rw [h.mnemonic]
    dsimp only [Branch.operation]
    rw [hc]
  rw [step_of_getElem? h.halted h.instruction, Instruction.exec, ho]
  dsimp only [Operation.exec, branchStep]
  cases c.holds m.cpu.flags with
  | true => cases jumpTo m.program i.address i.target? <;> rfl
  | false => rfl

end Machine

/-- Zero is set after a difference of equal numbers. -/
theorem Flags.zero_after_sub {n : Nat} (f : Flags) (a b : BitVec n) :
    (f.after (a - b)).zero = decide (a = b) := by
  show (a - b == 0) = _
  rw [Bool.beq_eq_decide_eq, decide_eq_decide]
  exact BitVec.sub_eq_iff_eq_add.trans (by simp)

/-! ## numbers with sign -/

/-- The number is one with sign of `n` bits. -/
def FitsSigned (n : Nat) (d : Int) : Prop := -2 ^ (n - 1) ≤ d ∧ d ≤ 2 ^ (n - 1) - 1

instance (n : Nat) (d : Int) : Decidable (FitsSigned n d) := inferInstanceAs (Decidable (_ ∧ _))

/-- A number that is at most once outside of the range is wrapped into it: it is then negative if it
was and was inside, or if it was not and was outside. -/
theorem bmod_neg_iff {m : Nat} {d : Int} (hlow : -(2 * m) < d) (hhigh : d < 2 * m) :
    d.bmod (2 * m) < 0 ↔ (d < 0 ↔ -m ≤ d ∧ d ≤ m - 1) := by
  have hself {e : Int} (hlow : -m ≤ e) (hhigh : e ≤ m - 1) : e.bmod (2 * m) = e := by
    apply Int.bmod_eq_of_le
    · push_cast
      omega
    · push_cast
      omega
  by_cases hneg : d < -m
  · rw [← Int.add_bmod_right, hself (by push_cast; omega) (by push_cast; omega)]
    push_cast
    omega
  by_cases hpos : m ≤ d
  · rw [← Int.sub_bmod_right, hself (by push_cast; omega) (by push_cast; omega)]
    push_cast
    omega
  · rw [hself (by omega) (by omega)]
    omega

/-- The sign of a difference is that of the comparison exactly if the difference fits. -/
theorem toInt_sub_neg_iff {n : Nat} (hn : 0 < n) (a b : BitVec n) :
    (a - b).toInt < 0 ↔ (a.toInt < b.toInt ↔ FitsSigned n (a.toInt - b.toInt)) := by
  obtain ⟨k, rfl⟩ : ∃ k, n = k + 1 := ⟨n - 1, by omega⟩
  have ha : -2 ^ k ≤ a.toInt := a.le_toInt
  have ha' : a.toInt < 2 ^ k := a.toInt_lt
  have hb : -2 ^ k ≤ b.toInt := b.le_toInt
  have hb' : b.toInt < 2 ^ k := b.toInt_lt
  have hcast : ((2 ^ k : Nat) : Int) = 2 ^ k := Nat.cast_pow 2 k
  rw [BitVec.toInt_sub, pow_succ', bmod_neg_iff (by omega) (by omega), hcast, sub_neg]
  rfl

theorem fitsSigned_zero (n : Nat) : FitsSigned n 0 := by
  have hpos : (0 : Int) < 2 ^ (n - 1) := by positivity
  unfold FitsSigned
  omega

/-- the comparison of numbers with sign that a branch stands for -/
def Branch.signedTest? : Branch → Option (Int → Int → Bool)
  | .jl => some fun a b => decide (a < b)
  | .jge | .jnl => some fun a b => decide (a ≥ b)
  | .jg => some fun a b => decide (a > b)
  | .jle => some fun a b => decide (a ≤ b)
  | _ => none

/-- With overflow clear, the flags of a difference give the right answer if it fits, and the
opposite one if not. -/
theorem Condition.holds_after_sub {n : Nat} (hn : 0 < n) (a b : BitVec n) {f : Flags}
    (hf : f.overflow = false) {br : Branch} {c : Condition} (hc : br.condition? = some c)
    {test : Int → Int → Bool} (ht : br.signedTest? = some test) :
    c.holds (f.after (a - b)) =
      if FitsSigned n (a.toInt - b.toInt) then test a.toInt b.toInt
      else !test a.toInt b.toInt := by
  have hover : (f.after (a - b)).overflow = false := hf
  have hzero : (f.after (a - b)).zero = decide (a.toInt = b.toInt) := by
    rw [Flags.zero_after_sub, decide_eq_decide, BitVec.toInt_inj]
  have hsign : (f.after (a - b)).sign =
      decide (a.toInt < b.toInt ↔ FitsSigned n (a.toInt - b.toInt)) := by
    show (a - b).msb = _
    rw [BitVec.msb_eq_toInt, decide_eq_decide]
    exact toInt_sub_neg_iff hn a b
  generalize f.after (a - b) = g at hover hzero hsign ⊢
  generalize a.toInt = x at hzero hsign ⊢
  generalize b.toInt = y at hzero hsign ⊢
  by_cases hfit : FitsSigned n (x - y)
  · rw [if_pos hfit]
    have hsign : g.sign = decide (x < y) := by simpa [hfit] using hsign
    cases br <;> cases ht <;> cases hc
    all_goals
      rw [Bool.eq_iff_iff]
      simp [Condition.holds, hover, hzero, hsign]
    all_goals omega
  · rw [if_neg hfit]
    -- a difference of zero would fit
    have hne : x ≠ y := by
      rintro rfl
      rw [Int.sub_self] at hfit
      exact hfit (fitsSigned_zero n)
    have hsign : g.sign = decide (y ≤ x) := by simpa [hfit] using hsign
    have hzero : g.zero = false := by simpa [hne] using hzero
    cases br <;> cases ht <;> cases hc
    all_goals
      rw [Bool.eq_iff_iff]
      simp [Condition.holds, hover, hzero, hsign]
    all_goals omega

/-- The branches for numbers with sign.  Overflow is clear after any requests to a new session.
From a state with overflow clear, after `cmp` or `sub` of a register and a source and then
instructions that leave the flags alone, such a branch is taken as the numbers compare if their
difference is a number of the width, and otherwise just when it should not be. -/
theorem signed_branches :
    (∀ rs : List Request, (rs.foldl Session.after {}).machine.cpu.flags.overflow = false) ∧
    ∀ (r : Register) (src : Source) (m next last : Machine) (i : Instruction) (br : Branch)
      (test : Int → Int → Bool), m.cpu.flags.overflow = false →
      Machine.Compares r src m next → Machine.Rests next last → last.AtBranch i br →
      br.signedTest? = some test →
      let a := (m.cpu.get r).toInt
      let b := (m.value r.width src).toInt
      (FitsSigned r.width.bits (a - b) → last.step = last.branchStep i (test a b)) ∧
      (¬ FitsSigned r.width.bits (a - b) → last.step = last.branchStep i (!test a b)) := by
  refine ⟨Session.overflow_after rfl, ?_⟩
  intro r src m next last i br test hm hcompares hrests hbranch ht a b
  obtain ⟨c, hc⟩ : ∃ c, br.condition? = some c := by
    cases br <;> cases ht <;> exact ⟨_, rfl⟩
  have hn : 0 < r.width.bits := by cases r with
    | word r | byte r => exact Nat.zero_lt_succ _
  obtain ⟨f, hf, -, hflags⟩ := hcompares.flags_eq
  have hholds : c.holds last.cpu.flags =
      if FitsSigned r.width.bits (a - b) then test a b else !test a b := by
    rw [hrests.flags_eq, hflags]
    exact Condition.holds_after_sub hn _ _ (hf.trans hm) hc ht
  rw [hbranch.step_eq hc, hholds]
  constructor
  · intro hfit
    rw [if_pos hfit]
  · intro hfit
    rw [if_neg hfit]

/-- a program that compares `AL` with one, waits, and goes back if it is less -/
def comparingProgram : List Instruction :=
  [{ opcode := [0x3c], length := 2, imm := some (.value 1), address := 0, mnemonic := .alu .cmp,
     operands := [.reg (.byte .al), .imm 1], line := "back: CMP AL,1".toList, lineNumber := 1 },
   { opcode := [0x90], length := 1, imm := none, address := 2, mnemonic := .nop, operands := [],
     line := "NOP".toList, lineNumber := 2 },
   { opcode := [0x7c], length := 2, imm := some (.value 0), address := 3, mnemonic := .branch .jl,
     operands := [.label "BACK".toList], line := "JL back".toList, lineNumber := 3 }]

/-- the machine after `k` steps, when it has started with `80` in `AL` -/
def comparingMachine (k : Nat) : Machine :=
  let start : Machine :=
    { program := comparingProgram, cpu := { registers := { ax := 0x80 } } }
  (start.run k).machine

/-- The byte `80` is less than one as a number with sign, but their difference is no such byte: the
program does not go back. -/
theorem signed_branches_of_comparing :
    ∃ i, comparingProgram[2]? = some i ∧ (-128 : Int) < 1 ∧ ¬ FitsSigned 8 (-128 - 1) ∧
      (comparingMachine 2).step = (comparingMachine 2).branchStep i false := by
  have hcompares : Machine.Compares (.byte .al) (.imm 1) (comparingMachine 0)
      (comparingMachine 1) :=
    ⟨⟨rfl, _, rfl⟩, .inl rfl, rfl, rfl⟩
  have hrests : Machine.Rests (comparingMachine 1) (comparingMachine 2) :=
    .single ⟨_, ⟨rfl, _, rfl⟩, rfl⟩
  have hfit : ¬ FitsSigned 8 (-128 - 1) := by decide
  obtain ⟨i, hi⟩ : ∃ i, comparingProgram[2]? = some i := ⟨_, rfl⟩
  have hbranch : (comparingMachine 2).AtBranch i .jl := ⟨rfl, hi, by cases hi; rfl⟩
  exact ⟨i, hi, by decide, hfit,
    (signed_branches.2 (.byte .al) (.imm 1) _ _ _ i .jl _ rfl hcompares hrests hbranch rfl).2 hfit⟩

end Mini8086
