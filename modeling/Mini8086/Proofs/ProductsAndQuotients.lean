import Mini8086.Proofs.ExactArithmetic
import Mini8086.Proofs.Faults

/-!
# Products and quotients

A product fills the register pair that a division takes its dividend from: `AX` for bytes, `DX` and
`AX` for words.  Neither loses anything, also where the register that is multiplied or divided by is
part of the pair.

* `State.dividend_multiply`    the whole product;
* `State.exists_divide_iff`    when a division succeeds;
* `State.dividend_of_divide`   what it leaves;
* `State.divide_multiply`      a division takes a multiplication back;
* `products_and_quotients`     the steps of a machine with an assembled program.
-/

namespace Mini8086

/-! ## numbers -/

/-- The halves of a double word. -/
theorem toNat_halves (p : BitVec 32) :
    (p.extractLsb' 16 16).toNat * 2 ^ 16 + (p.setWidth 16).toNat = p.toNat := by
  have hlt := p.isLt
  rw [BitVec.extractLsb'_toNat, BitVec.toNat_setWidth, Nat.shiftRight_eq_div_pow]
  omega

theorem quotient_eq_ok {n : Nat} {a : Address} {x : BitVec (n + n)} {d : BitVec n}
    {p : BitVec n × BitVec n} (h : quotient a x d = .ok p) :
    d.toNat ≠ 0 ∧ p.1.toNat = x.toNat / d.toNat ∧ p.2.toNat = x.toNat % d.toNat := by
  unfold quotient at h
  split at h
  · contradiction
  · next hd =>
    have hne : d.toNat ≠ 0 := fun hz => hd (BitVec.eq_of_toNat_eq hz)
    dsimp only at h
    split at h
    · contradiction
    · next hq =>
      cases h
      rw [Nat.one_shiftLeft, Nat.not_le] at hq
      have hr := Nat.lt_trans (Nat.mod_lt x.toNat (Nat.pos_of_ne_zero hne)) d.isLt
      exact ⟨hne, Nat.mod_eq_of_lt hq, Nat.mod_eq_of_lt hr⟩

namespace State

/-- what is multiplied by a register, and where the quotient goes: `AL` or `AX` -/
def accumulator (s : State) : Register → Nat
  | .byte _ => (s.cpu.registers.getByte .al).toNat
  | .word _ => (s.cpu.registers.getWord .ax).toNat

theorem accumulator_lt (s : State) (r : Register) : s.accumulator r < 2 ^ r.width.bits := by
  cases r with
  | byte r | word r => exact BitVec.isLt _

/-! ## products -/

/-- The whole product, with the flags that tell of it. -/
theorem dividend_multiply (s : State) (r : Register) :
    (s.multiply r).dividend r = s.accumulator r * s.divisor r ∧
      (s.multiply r).cpu.flags.Tell (2 * r.width.bits) ((s.multiply r).dividend r) := by
  cases r with
  | byte r =>
    have hp : (s.multiply (.byte r)).dividend (.byte r) =
        (product (s.cpu.registers.getByte .al) (s.cpu.registers.getByte r)).toNat := by
      show ((s.cpu.registers.setWord .ax _).getWord .ax).toNat = _
      simp
    rw [hp]
    exact ⟨toNat_product _ _, Flags.tell_after _ _⟩
  | word r =>
    have hp : (s.multiply (.word r)).dividend (.word r) =
        (product (s.cpu.registers.getWord .ax) (s.cpu.registers.getWord r)).toNat := by
      show (((s.cpu.registers.setWord .ax _).setWord .dx _).getWord .dx).toNat * 2 ^ 16 +
        (((s.cpu.registers.setWord .ax _).setWord .dx _).getWord .ax).toNat = _
      simpa using toNat_halves _
    rw [hp]
    exact ⟨toNat_product _ _, Flags.tell_after _ _⟩

theorem carry_multiply (s : State) (r : Register) :
    (s.multiply r).cpu.flags.carry = s.cpu.flags.carry := by
  cases r with
  | byte r | word r => rfl

/-! ## quotients -/

/-- A division leaves quotient and remainder. -/
theorem divide_eq_ok {s t : State} {a : Address} {r : Register} (h : s.divide a r = .ok t) :
    s.divisor r ≠ 0 ∧ t.accumulator r = s.dividend r / s.divisor r ∧
      t.upper r = s.dividend r % s.divisor r := by
  cases r with
  | byte r =>
    obtain ⟨p, hp, rfl⟩ := map_eq_ok.mp h
    obtain ⟨hne, hq, hr⟩ := quotient_eq_ok hp
    have hapart : (Register.byte .al).Apart (.byte .ah) := ByteRegister.noConfusion
    refine ⟨hne, Eq.trans ?_ hq, Eq.trans ?_ hr⟩
    · have hal := Registers.get_set_of_apart (s.cpu.registers.set (.byte .al) p.1) hapart p.2
      exact congrArg BitVec.toNat (hal.trans (Registers.get_set_self _ (.byte .al) p.1))
    · exact congrArg BitVec.toNat (Registers.get_set_self _ (.byte .ah) p.2)
  | word r =>
    obtain ⟨p, hp, rfl⟩ := map_eq_ok.mp h
    obtain ⟨hne, hq, hr⟩ := quotient_eq_ok hp
    rw [s.toNat_pair r] at hq hr
    have hapart : (Register.word .ax).Apart (.word .dx) := WordRegister.noConfusion
    refine ⟨hne, Eq.trans ?_ hq, Eq.trans ?_ hr⟩
    · have hax := Registers.get_set_of_apart (s.cpu.registers.set (.word .ax) p.1) hapart p.2
      exact congrArg BitVec.toNat (hax.trans (Registers.get_set_self _ (.word .ax) p.1))
    · exact congrArg BitVec.toNat (Registers.get_set_self _ (.word .dx) p.2)

/-- A division succeeds just when the upper half of the dividend is below the divisor. -/
theorem exists_divide_iff (s : State) (a : Address) (r : Register) :
    (∃ t, s.divide a r = .ok t) ↔ s.upper r < s.divisor r := by
  constructor
  · rintro ⟨t, ht⟩
    by_contra hle
    obtain ⟨hne, -, -⟩ := divide_eq_ok ht
    have hover : s.Overflows r := (s.overflows_iff r).mpr ⟨hne, Nat.le_of_not_lt hle⟩
    rw [divide_eq_error.mpr (.inr ⟨hover, rfl⟩)] at ht
    cases ht
  · intro hlt
    cases hx : s.divide a r with
    | ok t => exact ⟨t, rfl⟩
    | error f =>
      obtain ⟨hz, -⟩ | ⟨hover, -⟩ := divide_eq_error.mp hx
      · omega
      · obtain ⟨-, hle⟩ := (s.overflows_iff r).mp hover
        omega

/-- A division that succeeds loses nothing. -/
theorem dividend_of_divide {s t : State} {a : Address} {r : Register} (h : s.divide a r = .ok t) :
    s.dividend r = t.accumulator r * s.divisor r + t.upper r ∧ t.upper r < s.divisor r ∧
      t.accumulator r < 2 ^ r.width.bits := by
  obtain ⟨hne, hq, hr⟩ := divide_eq_ok h
  refine ⟨?_, ?_, t.accumulator_lt r⟩
  · rw [hq, hr, Nat.div_add_mod']
  · rw [hr]
    exact Nat.mod_lt _ (Nat.pos_of_ne_zero hne)

/-- A product is divided again into what was multiplied, and nothing remains. -/
theorem divide_multiply {s t : State} {a : Address} {r : Register}
    (hd : t.dividend r = s.accumulator r * s.divisor r) (hs : t.divisor r = s.divisor r)
    (hne : s.divisor r ≠ 0) :
    ∃ u, t.divide a r = .ok u ∧ u.accumulator r = s.accumulator r ∧ u.upper r = 0 := by
  -- so small a product has an upper half below the divisor, and the quotient fits
  have hupper : t.upper r < t.divisor r := by
    obtain ⟨lower, -, hlower⟩ := t.dividend_eq r
    rw [hs]
    apply Nat.lt_of_mul_lt_mul_right (a := 2 ^ r.width.bits)
    calc t.upper r * 2 ^ r.width.bits
        ≤ t.dividend r := hlower ▸ Nat.le_add_right _ _
      _ = s.accumulator r * s.divisor r := hd
      _ < s.divisor r * 2 ^ r.width.bits := by
        rw [Nat.mul_comm]
        exact Nat.mul_lt_mul_of_pos_left (s.accumulator_lt r) (Nat.pos_of_ne_zero hne)
  obtain ⟨u, hu⟩ := (t.exists_divide_iff a r).mpr hupper
  obtain ⟨-, hq, hr⟩ := divide_eq_ok hu
  refine ⟨u, hu, ?_, ?_⟩
  · rw [hq, hd, hs, Nat.mul_div_cancel _ (Nat.pos_of_ne_zero hne)]
  · rw [hr, hd, hs, Nat.mul_mod_left]

/-- States with the same registers, but for the instruction pointer, have the same numbers to
multiply and to divide. -/
theorem numbers_congr {s t : State} (h : ∀ q, q ≠ .word .ip → t.cpu.get q = s.cpu.get q)
    (r : Register) :
    t.accumulator r = s.accumulator r ∧ t.upper r = s.upper r ∧ t.dividend r = s.dividend r := by
  have hax : t.cpu.registers.getWord .ax = s.cpu.registers.getWord .ax := h (.word .ax) (by decide)
  have hdx : t.cpu.registers.getWord .dx = s.cpu.registers.getWord .dx := h (.word .dx) (by decide)
  cases r with
  | byte r =>
    refine ⟨?_, ?_, congrArg BitVec.toNat hax⟩
    · exact congrArg BitVec.toNat (h (.byte .al) (by decide))
    · exact congrArg BitVec.toNat (h (.byte .ah) (by decide))
  | word r =>
    refine ⟨congrArg BitVec.toNat hax, congrArg BitVec.toNat hdx, ?_⟩
    show (t.cpu.registers.getWord .dx).toNat * 2 ^ 16 + (t.cpu.registers.getWord .ax).toNat = _
    rw [hax, hdx]
    rfl

end State

/-! ## steps -/

theorem Instruction.Assembled.operation_of_mul {labels : List Label} {i : Instruction}
    (h : i.Assembled labels) (hm : i.mnemonic = .mul) :
    ∃ r, i.operands = [.reg r] ∧ i.operation? = some (.multiply r) := by
  obtain ⟨enc, he⟩ := h.exists_encodes
  unfold Instruction.operation?
  rw [hm] at he ⊢
  generalize i.operands = ops at he ⊢
  cases he with
  | multiply r => exact ⟨r, rfl, rfl⟩

namespace Machine
variable {m : Machine} {i : Instruction} {r : Register}

theorem numbers_advance (m : Machine) (i : Instruction) (s : State) (n : Next) (r : Register) :
    (m.advance i s n).accumulator r = s.accumulator r ∧ (m.advance i s n).upper r = s.upper r ∧
      (m.advance i s n).dividend r = s.dividend r :=
  State.numbers_congr (fun _ hq => m.advance_get i s n hq) r

theorem AtInstruction.step_of_multiply (h : m.AtInstruction i)
    (ho : i.operation? = some (.multiply r)) :
    m.step = .ok (some (⟨i.address, i.line⟩, m.advance i (m.multiply r) .following)) :=
  h.step_eq ho rfl

/-- A step that divides is a division. -/
theorem AtInstruction.step_of_divide (h : m.AtInstruction i)
    (ho : i.operation? = some (.divide r)) {v : Visit} {next : Machine} :
    m.step = .ok (some (v, next)) ↔ v = ⟨i.address, i.line⟩ ∧
      ∃ s, m.divide i.address r = .ok s ∧ next = m.advance i s .following := by
  rw [step_of_getElem? h.halted h.instruction, Instruction.exec, ho]
  dsimp only [Operation.exec]
  cases m.divide i.address r with
  | error f =>
    constructor
    · intro hx
      cases hx
    · rintro ⟨-, s, hs, -⟩
      cases hs
  | ok s =>
    constructor
    · intro hx
      cases hx
      exact ⟨rfl, s, rfl, rfl⟩
    · rintro ⟨rfl, s', hs, rfl⟩
      cases hs
      rfl

end Machine

/-- Products and quotients lose nothing, whatever registers and memory hold.  A step that multiplies
succeeds and leaves the whole product, of which the flags tell.  One that divides succeeds just when
the upper half of the dividend is below the divisor, and leaves quotient and remainder.  A division
by a register right after a multiplication by it succeeds and takes it back, if the register is not
zero and has no part in the product. -/
theorem products_and_quotients {source : Text} {origin : Address} {p : Program}
    (hp : assemble source origin = .ok p) {m : Machine} (hm : m.program = p.instructions)
    {i : Instruction} (hi : m.AtInstruction i) :
    (i.mnemonic = .mul → ∃ r v next, i.operands = [.reg r] ∧ m.step = .ok (some (v, next)) ∧
      next.dividend r = m.accumulator r * m.divisor r ∧
      next.cpu.flags.Tell (2 * r.width.bits) (next.dividend r) ∧
      next.cpu.flags.carry = m.cpu.flags.carry) ∧
    (i.mnemonic = .div → ∃ r, i.operands = [.reg r] ∧
      ((∃ v next, m.step = .ok (some (v, next))) ↔ m.upper r < m.divisor r) ∧
      ∀ v next, m.step = .ok (some (v, next)) →
        m.dividend r = next.accumulator r * m.divisor r + next.upper r ∧
        next.upper r < m.divisor r ∧ next.accumulator r < 2 ^ r.width.bits) ∧
    (∀ r j, i.mnemonic = .mul → i.operands = [.reg r] → m.program[m.pc + 1]? = some j →
      j.mnemonic = .div → j.operands = [.reg r] → m.divisor r ≠ 0 →
      (∀ q ∈ productRegisters r, r.Apart q) →
      ∃ v mid w last, m.step = .ok (some (v, mid)) ∧ mid.step = .ok (some (w, last)) ∧
        last.accumulator r = m.accumulator r ∧ last.upper r = 0) := by
  have hall : ∀ j ∈ p.instructions, j.Assembled p.labels := (assembled_of_assemble hp).2.instructions
  have ha := hall i (hm ▸ List.mem_of_getElem? hi.instruction)
  refine ⟨fun hmul => ?_, fun hdiv => ?_, fun r j hmul hops hj hdiv hjops hne hapart => ?_⟩
  · obtain ⟨r, hops, ho⟩ := ha.operation_of_mul hmul
    obtain ⟨hproduct, htell⟩ := m.dividend_multiply r
    refine ⟨r, _, _, hops, hi.step_of_multiply ho, ?_⟩
    rw [(m.numbers_advance i _ _ r).2.2, m.advance_flags]
    exact ⟨hproduct, htell, m.carry_multiply r⟩
  · obtain ⟨r, hops, ho⟩ := ha.operation_of_div hdiv
    refine ⟨r, hops, ?_, fun v next hstep => ?_⟩
    · rw [← m.exists_divide_iff i.address r]
      constructor
      · rintro ⟨v, next, hstep⟩
        obtain ⟨-, s, hs, -⟩ := (hi.step_of_divide ho).mp hstep
        exact ⟨s, hs⟩
      · rintro ⟨s, hs⟩
        exact ⟨_, _, (hi.step_of_divide ho).mpr ⟨rfl, s, hs, rfl⟩⟩
    · obtain ⟨-, s, hs, rfl⟩ := (hi.step_of_divide ho).mp hstep
      obtain ⟨hacc, hupper, -⟩ := m.numbers_advance i s .following r
      rw [hacc, hupper]
      exact State.dividend_of_divide hs
  · obtain ⟨r', hops', ho⟩ := ha.operation_of_mul hmul
    obtain ⟨s', hjops', ho'⟩ := (hall j (hm ▸ List.mem_of_getElem? hj)).operation_of_div hdiv
    rw [hops] at hops'
    rw [hjops] at hjops'
    cases hops'
    cases hjops'
    let mid := m.advance i (m.multiply r) .following
    have hmid : mid.AtInstruction j := ⟨hi.halted, hj⟩
    have hdividend : mid.dividend r = m.accumulator r * m.divisor r :=
      (m.numbers_advance i _ _ r).2.2.trans (m.dividend_multiply r).1
    have hdivisor : mid.divisor r = m.divisor r := by
      have hip := (ha.written (.reg r) (hops ▸ List.mem_cons_self)).ne_ip
      have hget := (m.advance_get i (m.multiply r) .following hip).trans
        ((m.sameOff_multiply r).registers r hapart)
      exact congrArg BitVec.toNat hget
    obtain ⟨t, ht, hacc, hupper⟩ :=
      State.divide_multiply (a := j.address) hdividend hdivisor hne
    obtain ⟨hacc', hupper', -⟩ := mid.numbers_advance j t .following r
    exact ⟨_, mid, _, _, hi.step_of_multiply ho,
      (hmid.step_of_divide ho').mpr ⟨rfl, t, ht, rfl⟩, hacc'.trans hacc, hupper'.trans hupper⟩

/-- a source that multiplies by a register and divides by it again -/
def restoringSource : Text := "MUL BL\nDIV BL".toList

def restoringProgram : Program :=
  let single (opcode : List Byte) (a : Address) (m : Mnemonic) (line : String) (n : Nat) :
      Instruction :=
    { opcode := opcode, length := 2, imm := none, address := a, mnemonic := m,
      operands := [.reg (.byte .bl)], line := line.toList, lineNumber := n }
  let instructions : List Instruction :=
    [single [0xf6, 0xe3] 0 .mul "MUL BL" 1, single [0xf6, 0xf3] 2 .div "DIV BL" 2]
  { origin := 0
    instructions := instructions
    listing := instructions.map Instruction.listed
    labels := [] }

/-- a machine whose product by `BL` does not fit into `AL` -/
def restoringMachine : Machine where
  program := restoringProgram.instructions
  cpu := { registers := { ax := 0x80, bx := 3 } }

/-- Two steps lead back to what was in `AL`. -/
theorem products_and_quotients_of_restoring :
    assemble restoringSource 0 = .ok restoringProgram ∧
    ∃ v mid w last, restoringMachine.step = .ok (some (v, mid)) ∧
      mid.step = .ok (some (w, last)) ∧ last.accumulator (.byte .bl) = 0x80 ∧
      last.upper (.byte .bl) = 0 := by
  have hp : assemble restoringSource 0 = .ok restoringProgram := by decide +kernel
  obtain ⟨i, hi⟩ : ∃ i, restoringMachine.AtInstruction i := ⟨_, rfl, rfl⟩
  have hapart : ∀ q ∈ productRegisters (.byte .bl), (Register.byte .bl).Apart q := by
    intro q hq
    rw [List.mem_singleton.mp hq]
    exact WordRegister.noConfusion
  refine ⟨hp, ?_⟩
  cases hi.instruction
  exact (products_and_quotients hp rfl hi).2.2 (.byte .bl) _ rfl rfl rfl rfl rfl (by decide) hapart

end Mini8086
