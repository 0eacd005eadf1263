import Mathlib.Data.Nat.Digits.Defs
import Mathlib.Logic.Relation
import Mathlib.Tactic.LinearCombination
import Mini8086.Proofs.Footprint

/-!
# Numbers of many limbs

A number that does not fit into a register is worked on limb by limb, the lowest first, and the
carry flag takes what is left over from one limb to the next.

* `toNat_addWith`, `toNat_subWith`       one limb: the result and its carry lose nothing;
* `Machine.Idles.carry_eq`               instructions that may stand between two limbs;
* `Machine.Combines.eval`                the machine works on one limb;
* `Machine.Chain.numberOf_eq`            limb after limb, by induction on them;
* `multi_word_arithmetic`                sums and differences of whole numbers.
-/

namespace Mini8086

/-! ## sums and differences with carry -/

section
variable {n : Nat} (a b : BitVec n) (c : Bool)

theorem toNat_addWith :
    (addWith a b c).1.toNat + (addWith a b c).2.toNat * 2 ^ n = a.toNat + b.toNat + c.toNat := by
  have hlt : a.toNat + b.toNat + c.toNat < 2 * 2 ^ n := by
    have ha := a.isLt
    have hb := b.isLt
    have hc := c.toNat_le
    omega
  have hr : (addWith a b c).1.toNat = (a.toNat + b.toNat + c.toNat) % 2 ^ n := by
    rw [addWith, BitVec.toNat_add, BitVec.toNat_add, BitVec.toNat_ofNat, ← Nat.add_mod]
  have hd : (addWith a b c).2 = decide (2 ^ n ≤ a.toNat + b.toNat + c.toNat) := by
    rw [addWith, Nat.one_shiftLeft]
  rw [hr, hd]
  generalize a.toNat + b.toNat + c.toNat = s at hlt ⊢
  by_cases h : 2 ^ n ≤ s
  · rw [decide_eq_true h, Nat.mod_eq_sub_mod h, Nat.mod_eq_of_lt (by omega), Bool.toNat_true]
    omega
  · rw [decide_eq_false h, Nat.mod_eq_of_lt (by omega), Bool.toNat_false]
    omega

/-- A difference and its borrow are what gives the first number back when it is added to the
second. -/
theorem addWith_subWith : addWith (subWith a b c).1 b c = (a, (subWith a b c).2) := by
  have hback : (addWith (subWith a b c).1 b c).1 = a := by
    rw [addWith, subWith, BitVec.add_assoc, BitVec.add_comm b, ← BitVec.add_assoc,
      BitVec.sub_add_cancel, BitVec.sub_add_cancel]
  have hsum := toNat_addWith (subWith a b c).1 b c
  have hlt := (subWith a b c).1.isLt
  rw [hback] at hsum
  refine Prod.ext hback ?_
  show (addWith (subWith a b c).1 b c).2 = decide (a.toNat < b.toNat + c.toNat)
  cases hc : (addWith (subWith a b c).1 b c).2 with
  | true =>
    rw [hc, Bool.toNat_true] at hsum
    rw [eq_comm, decide_eq_true_iff]
    omega
  | false =>
    rw [hc, Bool.toNat_false] at hsum
    rw [eq_comm, decide_eq_false_iff_not]
    omega

theorem toNat_subWith :
    a.toNat + (subWith a b c).2.toNat * 2 ^ n = (subWith a b c).1.toNat + b.toNat + c.toNat := by
  have h := toNat_addWith (subWith a b c).1 b c
  rwa [addWith_subWith] at h

end

/-! ## registers after a write -/

namespace Registers

theorem half_withHalf_self (high : Bool) (w : Word) (b : Byte) :
    half high (withHalf high w b) = b := by
  cases high with
  | true =>
    show (b ++ w.setWidth 8).extractLsb' 8 8 = b
    exact BitVec.extractLsb'_append_eq_left
  | false =>
    show (w.extractLsb' 8 8 ++ b).setWidth 8 = b
    exact BitVec.setWidth_append_eq_right

@[simp] theorem get_set_self (s : Registers) (r : Register) (v : BitVec r.width.bits) :
    (s.set r v).get r = v := by
  cases r with
  | word r => exact (getWord_setWord s r r v).trans (if_pos rfl)
  | byte r =>
    show half r.isHigh ((s.setWord r.owner _).getWord r.owner) = v
    rw [getWord_setWord, if_pos rfl]
    exact half_withHalf_self r.isHigh (s.getWord r.owner) v

end Registers

/-! ## what a machine executes -/

/-- the instructions that leave carry as it is -/
def Mnemonic.keepsCarry : Mnemonic → Bool
  | .mov | .nop | .unary .inc | .unary .dec | .unary .not | .alu .or | .mul | .div
  | .branch _ => true
  | _ => false

/-- the number with these digits of a width, the lowest first -/
def numberOf (w : Width) (digits : List Nat) : Nat := Nat.ofDigits (2 ^ w.bits) digits

@[simp] theorem numberOf_cons (w : Width) (d : Nat) (digits : List Nat) :
    numberOf w (d :: digits) = d + 2 ^ w.bits * numberOf w digits :=
  Nat.ofDigits_cons

/-- One digit of each of two numbers, and that of their sum or difference. -/
structure Limb where
  left : Nat
  right : Nat
  result : Nat

namespace Machine

/-- The machine executes the instruction and becomes `next`. -/
structure Executes (i : Instruction) (m next : Machine) : Prop where
  instruction : m.program[m.pc]? = some i
  step : ∃ v, m.step = .ok (some (v, next))

/-- The machine becomes `last` by instructions that leave carry as it is. -/
def Idles : Machine → Machine → Prop :=
  Relation.ReflTransGen fun m next => ∃ i, Executes i m next ∧ i.mnemonic.keepsCarry = true

/-- The machine works on a limb: it executes the operation on a register of width `w` with the left
digit in it and on a source of the value of the right one, and the register holds the result. -/
inductive Combines (op : AluOp) (w : Width) (l : Limb) (m next : Machine) : Prop
  | intro {i : Instruction} {r : Register} {o : Operand} {src : Source}
      (executes : Executes i m next) (mnemonic : i.mnemonic = .alu op)
      (operands : i.operands = [.reg r, o]) (source : o.source? = some src) (width : r.width = w)
      (left : (m.cpu.get r).toNat = l.left) (right : (m.value r.width src).toNat = l.right)
      (result : (next.cpu.get r).toNat = l.result)

/-- The machine works on one limb after the other, and idles before, between and after them. -/
inductive Chain (op : AluOp) (w : Width) : List Limb → Machine → Machine → Prop
  | nil {m last : Machine} (h : Idles m last) : Chain op w [] m last
  | cons {l : Limb} {ls : List Limb} {m start next last : Machine} (h : Idles m start)
      (hl : Combines op w l start next) (hs : Chain op w ls next last) : Chain op w (l :: ls) m last

end Machine

theorem carry_not_mem_footprint {i : Instruction} (h : i.mnemonic.keepsCarry = true) (s : State) :
    Flag.carry ∉ (i.footprint s).flags := by
  have hresult : Flag.carry ∉ resultFlags := by decide
  unfold Instruction.footprint
  generalize i.mnemonic = m at h ⊢
  split
  case h_4 op r o _ _ =>
    cases op with
    | or => exact hresult
    | _ => cases h
  case h_5 op r _ =>
    cases op with
    | neg => cases h
    | _ => exact hresult
  case h_7 => exact hresult
  all_goals first | exact List.not_mem_nil | cases h

namespace Machine
variable {p : Program} {i : Instruction} {m next last : Machine}

theorem Executes.exec (h : Executes i m next) :
    ∃ s n, i.exec m.program m.toState = .ok (s, n) ∧ next = m.advance i s n := by
  obtain ⟨v, hv⟩ := h.step
  obtain ⟨j, s, n, -, hj, hx, -, hn⟩ := step_eq_some.mp hv
  rw [h.instruction] at hj
  cases hj
  exact ⟨s, n, hx, hn⟩

theorem Executes.program_eq (h : Executes i m next) : next.program = m.program :=
  have ⟨_, hv⟩ := h.step
  step_program hv

theorem Executes.assembled (hp : p.Assembled) (hm : m.program = p.instructions)
    (h : Executes i m next) : i.Assembled p.labels :=
  hp.instructions i (hm ▸ List.mem_of_getElem? h.instruction)

theorem Executes.carry_eq (hp : p.Assembled) (hm : m.program = p.instructions)
    (h : Executes i m next) (hk : i.mnemonic.keepsCarry = true) :
    next.cpu.flags.carry = m.cpu.flags.carry := by
  obtain ⟨s, n, hx, rfl⟩ := h.exec
  rw [advance_flags]
  exact ((h.assembled hp hm).sameOff hx).flags .carry (carry_not_mem_footprint hk _)

theorem Idles.carry_eq (hp : p.Assembled) (hm : m.program = p.instructions) (h : Idles m last) :
    last.program = p.instructions ∧ last.cpu.flags.carry = m.cpu.flags.carry := by
  induction h with
  | refl => exact ⟨hm, rfl⟩
  | tail _ hstep ih =>
    obtain ⟨hprogram, hcarry⟩ := ih
    obtain ⟨i, hx, hk⟩ := hstep
    exact ⟨hx.program_eq.trans hprogram, (hx.carry_eq hp hprogram hk).trans hcarry⟩

/-! ## one limb -/

section
variable {op : AluOp} {w : Width} {l : Limb} {ls : List Limb}

theorem Combines.program_eq (h : Combines op w l m next) : next.program = m.program := by
  obtain ⟨hx⟩ := h
  exact hx.program_eq

/-- The result and the carry are those of the operation on the two digits. -/
theorem Combines.eval (hp : p.Assembled) (hm : m.program = p.instructions) (hop : op ≠ .cmp)
    (h : Combines op w l m next) : ∃ a b : BitVec w.bits, a.toNat = l.left ∧ b.toNat = l.right ∧
      (op.eval m.cpu.flags a b).1.toNat = l.result ∧
      (op.eval m.cpu.flags a b).2.carry = next.cpu.flags.carry := by
  obtain ⟨hexec, hmn, hops, hsrc, rfl, hleft, hright, hresult⟩ := h
  rename_i i r o src
  obtain ⟨s, n, hx, rfl⟩ := hexec.exec
  have hip : r ≠ .word .ip :=
    ((hexec.assembled hp hm).written (.reg r) (hops ▸ List.mem_cons_self)).ne_ip
  have hoperation : i.operation? = some (.alu op r src) := by
    unfold Instruction.operation?
    rw [hmn, hops]
    exact congrArg (Option.map _) hsrc
  have hs : s = m.setResult r (op.eval m.cpu.flags (m.cpu.get r) (m.value r.width src)).1
      (op.eval m.cpu.flags (m.cpu.get r) (m.value r.width src)).2 := by
    unfold Instruction.exec at hx
    rw [hoperation] at hx
    dsimp only [Operation.exec] at hx
    rw [if_neg hop] at hx
    cases hx
    rfl
  refine ⟨_, _, hleft, hright, ?_, ?_⟩
  · rw [← hresult, advance_get _ _ _ _ hip, hs]
    exact congrArg BitVec.toNat (Registers.get_set_self _ r _).symm
  · rw [advance_flags, hs]
    rfl

theorem Combines.add_eq (hp : p.Assembled) (hm : m.program = p.instructions)
    (h : Combines .add w l m next) :
    l.result + next.cpu.flags.carry.toNat * 2 ^ w.bits = l.left + l.right + 0 := by
  obtain ⟨a, b, ha, hb, hr, hc⟩ := h.eval hp hm AluOp.noConfusion
  rw [← ha, ← hb, ← hr, ← hc]
  exact toNat_addWith a b false

theorem Combines.adc_eq (hp : p.Assembled) (hm : m.program = p.instructions)
    (h : Combines .adc w l m next) :
    l.result + next.cpu.flags.carry.toNat * 2 ^ w.bits =
      l.left + l.right + m.cpu.flags.carry.toNat := by
  obtain ⟨a, b, ha, hb, hr, hc⟩ := h.eval hp hm AluOp.noConfusion
  rw [← ha, ← hb, ← hr, ← hc]
  exact toNat_addWith a b m.cpu.flags.carry

theorem Combines.sub_eq (hp : p.Assembled) (hm : m.program = p.instructions)
    (h : Combines .sub w l m next) :
    l.left + next.cpu.flags.carry.toNat * 2 ^ w.bits = l.result + l.right + 0 := by
  obtain ⟨a, b, ha, hb, hr, hc⟩ := h.eval hp hm AluOp.noConfusion
  rw [← ha, ← hb, ← hr, ← hc]
  exact toNat_subWith a b false

theorem Combines.sbb_eq (hp : p.Assembled) (hm : m.program = p.instructions)
    (h : Combines .sbb w l m next) :
    l.left + next.cpu.flags.carry.toNat * 2 ^ w.bits =
      l.result + l.right + m.cpu.flags.carry.toNat := by
  obtain ⟨a, b, ha, hb, hr, hc⟩ := h.eval hp hm AluOp.noConfusion
  rw [← ha, ← hb, ← hr, ← hc]
  exact toNat_subWith a b m.cpu.flags.carry

/-! ## limb after limb -/

/-- A limb below others: `sum` is the sum of `part` and the right digits, with a carry that goes
from the lowest limb to those above it. -/
theorem numberOf_cons_of_carry {c c' c'' : Nat} {sum part : Limb → Nat}
    (hl : sum l + c' * 2 ^ w.bits = part l + l.right + c)
    (hs : numberOf w (ls.map sum) + c'' * (2 ^ w.bits) ^ ls.length =
      numberOf w (ls.map part) + numberOf w (ls.map Limb.right) + c') :
    numberOf w ((l :: ls).map sum) + c'' * (2 ^ w.bits) ^ (l :: ls).length =
      numberOf w ((l :: ls).map part) + numberOf w ((l :: ls).map Limb.right) + c := by
  rw [List.map_cons, List.map_cons, List.map_cons, numberOf_cons, numberOf_cons, numberOf_cons,
    List.length_cons, pow_succ]
  linear_combination hl + 2 ^ w.bits * hs

/-- What holds of each limb holds of the numbers. -/
theorem Chain.numberOf_eq {sum part : Limb → Nat} (hp : p.Assembled)
    (hop : ∀ {l m next}, m.program = p.instructions → Combines op w l m next →
      sum l + next.cpu.flags.carry.toNat * 2 ^ w.bits =
        part l + l.right + m.cpu.flags.carry.toNat)
    (hm : m.program = p.instructions) (h : Chain op w ls m last) :
    numberOf w (ls.map sum) + last.cpu.flags.carry.toNat * (2 ^ w.bits) ^ ls.length =
      numberOf w (ls.map part) + numberOf w (ls.map Limb.right) + m.cpu.flags.carry.toNat := by
  induction h with
  | nil h =>
    obtain ⟨-, hcarry⟩ := h.carry_eq hp hm
    rw [hcarry, List.length_nil, pow_zero, mul_one]
    rfl
  | @cons l ls m start next last h hl hs ih =>
    obtain ⟨hstart, hcarry⟩ := h.carry_eq hp hm
    rw [← hcarry]
    exact numberOf_cons_of_carry (hop hstart hl) (ih (hl.program_eq.trans hstart))

end

end Machine

/-- Sums and differences of numbers with any number of limbs.  When the lowest limbs are added and
then all limbs above them, each with the carry of the one below, the results and the last carry are
the sum of the numbers; when they are subtracted with their borrows, they are the difference.  The
instructions between two limbs may be any that leave carry as it is. -/
theorem multi_word_arithmetic {source : Text} {origin : Address} {p : Program}
    (hp : assemble source origin = .ok p) {m next last : Machine}
    (hm : m.program = p.instructions) {w : Width} {l : Limb} {ls : List Limb} :
    (Machine.Combines .add w l m next → Machine.Chain .adc w ls next last →
      numberOf w ((l :: ls).map Limb.result) +
          last.cpu.flags.carry.toNat * 2 ^ (w.bits * (l :: ls).length) =
        numberOf w ((l :: ls).map Limb.left) + numberOf w ((l :: ls).map Limb.right)) ∧
    (Machine.Combines .sub w l m next → Machine.Chain .sbb w ls next last →
      (numberOf w ((l :: ls).map Limb.result) : Int) -
          last.cpu.flags.carry.toNat * 2 ^ (w.bits * (l :: ls).length) =
        numberOf w ((l :: ls).map Limb.left) - numberOf w ((l :: ls).map Limb.right)) := by
  have hp := (assembled_of_assemble hp).2
  refine ⟨fun hl hs => ?_, fun hl hs => ?_⟩
  · have h := Machine.numberOf_cons_of_carry (hl.add_eq hp hm)
      (hs.numberOf_eq hp (fun hm h => h.adc_eq hp hm) (hl.program_eq.trans hm))
    rw [pow_mul]
    exact h
  · have h := Machine.numberOf_cons_of_carry (hl.sub_eq hp hm)
      (hs.numberOf_eq hp (fun hm h => h.sbb_eq hp hm) (hl.program_eq.trans hm))
    have hz := congrArg (Nat.cast : Nat → Int) h
    push_cast at hz
    rw [pow_mul]
    linear_combination -hz

/-- a source that adds `BX` to `AX` and takes it away again, each byte by byte -/
def carryingSource : Text := "ADD AL,BL\nINC CX\nADC AH,BH\nSUB AL,BL\nSBB AH,BH".toList

def carryingProgram : Program :=
  let pair (opcode : List Byte) (a : Address) (op : AluOp) (r q : ByteRegister) (line : String)
      (n : Nat) : Instruction :=
    { opcode := opcode, length := 2, imm := none, address := a, mnemonic := .alu op,
      operands := [.reg (.byte r), .reg (.byte q)], line := line.toList, lineNumber := n }
  let instructions : List Instruction := [
    pair [0x00, 0xd8] 0 .add .al .bl "ADD AL,BL" 1,
    { opcode := [0x41], length := 1, imm := none, address := 2, mnemonic := .unary .inc,
      operands := [.reg (.word .cx)], line := "INC CX".toList, lineNumber := 2 },
    pair [0x10, 0xc0] 3 .adc .ah .bh "ADC AH,BH" 3,
    pair [0x28, 0xd8] 5 .sub .al .bl "SUB AL,BL" 4,
    pair [0x18, 0xc0] 7 .sbb .ah .bh "SBB AH,BH" 5]
  { origin := 0
    instructions := instructions
    listing := instructions.map Instruction.listed
    labels := [] }

/-- the machine after `k` steps, when it has started with `01ff` in `AX` and `0101` in `BX` -/
def carryingMachine (k : Nat) : Machine :=
  let start : Machine :=
    { program := carryingProgram.instructions
      cpu := { registers := { ax := 0x1ff, bx := 0x101 } } }
  (start.run k).machine

theorem multi_word_arithmetic_of_carrying :
    assemble carryingSource 0 = .ok carryingProgram ∧
    Machine.Combines .add .byte ⟨0xff, 1, 0⟩ (carryingMachine 0) (carryingMachine 1) ∧
    Machine.Chain .adc .byte [⟨1, 1, 3⟩] (carryingMachine 1) (carryingMachine 3) ∧
    numberOf .byte [0, 3] + 0 * 2 ^ 16 = numberOf .byte [0xff, 1] + numberOf .byte [1, 1] ∧
    Machine.Combines .sub .byte ⟨0, 1, 0xff⟩ (carryingMachine 3) (carryingMachine 4) ∧
    Machine.Chain .sbb .byte [⟨3, 1, 1⟩] (carryingMachine 4) (carryingMachine 5) ∧
    (numberOf .byte [0xff, 1] : Int) - 0 * 2 ^ 16 =
      numberOf .byte [0, 3] - numberOf .byte [1, 1] := by
  have hp : assemble carryingSource 0 = .ok carryingProgram := by decide +kernel
  have hadd : Machine.Combines .add .byte ⟨0xff, 1, 0⟩ (carryingMachine 0) (carryingMachine 1) :=
    ⟨⟨rfl, _, rfl⟩, rfl, rfl, rfl, rfl, rfl, rfl, rfl⟩
  have hadc : Machine.Combines .adc .byte ⟨1, 1, 3⟩ (carryingMachine 2) (carryingMachine 3) :=
    ⟨⟨rfl, _, rfl⟩, rfl, rfl, rfl, rfl, rfl, rfl, rfl⟩
  have hsub : Machine.Combines .sub .byte ⟨0, 1, 0xff⟩ (carryingMachine 3) (carryingMachine 4) :=
    ⟨⟨rfl, _, rfl⟩, rfl, rfl, rfl, rfl, rfl, rfl, rfl⟩
  have hsbb : Machine.Combines .sbb .byte ⟨3, 1, 1⟩ (carryingMachine 4) (carryingMachine 5) :=
    ⟨⟨rfl, _, rfl⟩, rfl, rfl, rfl, rfl, rfl, rfl, rfl⟩
  have hinc : Machine.Idles (carryingMachine 1) (carryingMachine 2) :=
    .single ⟨_, ⟨rfl, _, rfl⟩, rfl⟩
  have hsum : Machine.Chain .adc .byte [⟨1, 1, 3⟩] (carryingMachine 1) (carryingMachine 3) :=
    .cons hinc hadc (.nil .refl)
  have hdifference : Machine.Chain .sbb .byte [⟨3, 1, 1⟩] (carryingMachine 4) (carryingMachine 5) :=
    .cons .refl hsbb (.nil .refl)
  exact ⟨hp, hadd, hsum, (multi_word_arithmetic hp rfl).1 hadd hsum, hsub, hdifference,
    (multi_word_arithmetic hp rfl).2 hsub hdifference⟩

end Mini8086
