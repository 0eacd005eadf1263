import Mini8086.Proofs.MemoryHistory
import Mini8086.Proofs.MultiWord
import Mini8086.Proofs.WideArithmetic

/-!
# What arithmetic computes, as numbers

A sum or difference of numbers of `n` bits is told without loss by the `n` bits of the result and
the carry; a shift is too.  Counting and negating wrap around at `2 ^ n`.  In each case zero, sign
and parity tell of the result.

* `AluOp.exact_eval`, `UnaryOp.exact_eval`, `Direction.exact_eval`   the operations at any width;
* `State.toNat_value`    the number that a source stands for;
* `exact_arithmetic`     the steps of a machine with an assembled program, whatever the registers
                         and memory hold, also where the source overlaps the destination.
-/

namespace Mini8086

/-! ## flags -/

/-- The flags tell of a number of `n` bits whether it is zero, which is its highest bit, and whether
the ones among its low eight bits are even in number. -/
structure Flags.Tell (f : Flags) (n r : Nat) : Prop where
  zero : f.zero = true ↔ r = 0
  sign : f.sign = r.testBit (n - 1)
  parity : f.parity = true ↔ Even ((List.range 8).countP fun k => r.testBit k)

theorem Flags.tell_after {n : Nat} (f : Flags) (v : BitVec n) : (f.after v).Tell n v.toNat := by
  refine ⟨?_, v.msb_eq_getLsbD_last, ?_⟩
  · show (v == 0) = true ↔ _
    rw [beq_iff_eq, ← BitVec.toNat_inj]
    rfl
  · have hlow : (List.range 8).countP (fun k => (v.setWidth 8).getLsbD k) =
        (List.range 8).countP fun k => v.toNat.testBit k := by
      apply List.countP_congr
      intro k hk
      rw [BitVec.getLsbD_setWidth, decide_eq_true (List.mem_range.mp hk), Bool.true_and]
      rfl
    show ((List.range 8).countP (fun k => (v.setWidth 8).getLsbD k) % 2 == 0) = true ↔ _
    rw [beq_iff_eq, hlow, Nat.even_iff]

/-! ## operations -/

/-- What the operation makes of numbers `a` and `b` of `n` bits and a carry `c`: a number `r` of `n`
bits and a carry `c'`. -/
def AluOp.Exact (n a b : Nat) (c : Bool) : AluOp → Nat → Bool → Prop
  | .add, r, c' => r + c'.toNat * 2 ^ n = a + b
  | .adc, r, c' => r + c'.toNat * 2 ^ n = a + b + c.toNat
  | .sub, r, c' | .cmp, r, c' => (r : Int) - c'.toNat * 2 ^ n = a - b
  | .sbb, r, c' => (r : Int) - c'.toNat * 2 ^ n = a - b - c.toNat
  | .or, r, c' => r = a ||| b ∧ c' = c
  | .and, r, c' => r = a &&& b ∧ c' = false
  | .xor, r, c' => r = a ^^^ b ∧ c' = false

/-- What the operation makes of a number `a` of `n` bits and a carry `c`. -/
def UnaryOp.Exact (n a : Nat) (c : Bool) : UnaryOp → Nat → Bool → Prop
  | .inc, r, c' => r = (a + 1) % 2 ^ n ∧ c' = c
  | .dec, r, c' => (r : Int) = (a - 1) % 2 ^ n ∧ c' = c
  | .not, r, c' => r = 2 ^ n - 1 - a ∧ c' = c
  | .neg, r, c' => (r : Int) = -a % 2 ^ n ∧ (c' = true ↔ a ≠ 0)

/-- What a shift makes of a number `a` of `n` bits. -/
def Direction.Exact (n a : Nat) : Direction → Nat → Bool → Prop
  | .left, r, c' => r + c'.toNat * 2 ^ n = 2 * a
  | .right, r, c' => 2 * r + c'.toNat = a

section
variable {n : Nat} (f : Flags) (a b : BitVec n)

theorem toNat_subWith_int (c : Bool) : ((subWith a b c).1.toNat : Int) -
    (subWith a b c).2.toNat * 2 ^ n = a.toNat - b.toNat - c.toNat := by
  have h := congrArg (Nat.cast : Nat → Int) (toNat_subWith a b c)
  push_cast at h
  linear_combination -h

theorem AluOp.exact_eval (op : AluOp) :
    op.Exact n a.toNat b.toNat f.carry (op.eval f a b).1.toNat (op.eval f a b).2.carry ∧
      (op.eval f a b).2.Tell n (op.eval f a b).1.toNat := by
  cases op with
  | add => exact ⟨toNat_addWith a b false, Flags.tell_after _ _⟩
  | adc => exact ⟨toNat_addWith a b f.carry, Flags.tell_after _ _⟩
  | sub | cmp =>
    refine ⟨(toNat_subWith_int a b false).trans ?_, Flags.tell_after _ _⟩
    exact Int.sub_zero _
  | sbb => exact ⟨toNat_subWith_int a b f.carry, Flags.tell_after _ _⟩
  | or => exact ⟨⟨BitVec.toNat_or .., rfl⟩, Flags.tell_after _ _⟩
  | and => exact ⟨⟨BitVec.toNat_and .., rfl⟩, Flags.tell_after _ _⟩
  | xor => exact ⟨⟨BitVec.toNat_xor .., rfl⟩, Flags.tell_after _ _⟩

/-- A difference wraps around. -/
theorem toNat_sub_int : ((a - b).toNat : Int) = (a.toNat - b.toNat) % 2 ^ n := by
  have h := toNat_subWith_int a b false
  have hr : (subWith a b false).1 = a - b := BitVec.sub_zero _
  have hlt : ((a - b).toNat : Int) < 2 ^ n := by exact_mod_cast (a - b).isLt
  rw [hr, Bool.toNat_false, Nat.cast_zero, Int.sub_zero] at h
  rw [← h, Int.sub_mul_emod_self_right, Int.emod_eq_of_lt (Int.natCast_nonneg _) hlt]

theorem UnaryOp.exact_eval (hn : 0 < n) (op : UnaryOp) :
    op.Exact n a.toNat f.carry (op.eval f a).1.toNat (op.eval f a).2.carry ∧
      (op.eval f a).2.Tell n (op.eval f a).1.toNat := by
  have hone : (1 : BitVec n).toNat = 1 := Nat.mod_eq_of_lt (Nat.one_lt_two_pow hn.ne')
  cases op with
  | inc =>
    refine ⟨⟨?_, rfl⟩, Flags.tell_after _ _⟩
    show (a + 1).toNat = _
    rw [BitVec.toNat_add, hone]
  | dec =>
    refine ⟨⟨?_, rfl⟩, Flags.tell_after _ _⟩
    show ((a - 1).toNat : Int) = _
    rw [toNat_sub_int, hone, Nat.cast_one]
  | not => exact ⟨⟨BitVec.toNat_not, rfl⟩, Flags.tell_after _ _⟩
  | neg =>
    refine ⟨⟨?_, ?_⟩, Flags.tell_after _ _⟩
    · show ((-a).toNat : Int) = _
      rw [← BitVec.zero_sub, toNat_sub_int, BitVec.toNat_zero, Nat.cast_zero, Int.zero_sub]
    · show (a != 0) = true ↔ _
      rw [bne_iff_ne, ne_eq, ← BitVec.toNat_inj]
      rfl

theorem Direction.exact_eval (hn : 0 < n) (d : Direction) :
    d.Exact n a.toNat (d.eval f a).1.toNat (d.eval f a).2.carry ∧
      (d.eval f a).2.Tell n (d.eval f a).1.toNat := by
  cases d with
  | left =>
    refine ⟨?_, Flags.tell_after _ _⟩
    show (a <<< 1).toNat + a.msb.toNat * 2 ^ n = 2 * a.toNat
    have hlt := a.isLt
    rw [BitVec.toNat_shiftLeft, Nat.shiftLeft_eq, pow_one, BitVec.msb_eq_decide]
    generalize a.toNat = x at hlt ⊢
    obtain ⟨k, rfl⟩ : ∃ k, n = k + 1 := ⟨n - 1, by omega⟩
    rw [pow_succ] at hlt ⊢
    rw [Nat.add_sub_cancel]
    by_cases h : 2 ^ k ≤ x
    · rw [decide_eq_true h, Nat.mod_eq_sub_mod (by omega), Nat.mod_eq_of_lt (by omega),
        Bool.toNat_true]
      omega
    · rw [decide_eq_false h, Nat.mod_eq_of_lt (by omega), Bool.toNat_false]
      omega
  | right =>
    refine ⟨?_, Flags.tell_after _ _⟩
    show 2 * (a >>> 1).toNat + (a.toNat.testBit 0).toNat = a.toNat
    rw [BitVec.toNat_ushiftRight, Nat.shiftRight_one, Nat.testBit_zero]
    obtain h | h := Nat.mod_two_eq_zero_or_one a.toNat
    · rw [h]
      simp
      omega
    · rw [h]
      simp
      omega

end

/-! ## sources -/

/-- The number at an address is that of the bytes from there on, the lowest first. -/
theorem Memory.toNat_fetch (m : Memory) (a : Address) (w : Width) :
    (m.fetch a w).toNat =
      numberOf .byte ((List.range w.bytes).map fun k => (m.read (a + k)).toNat) := by
  have hnil : numberOf .byte [] = 0 := rfl
  cases w with
  | byte =>
    show (m.read a).toNat = numberOf .byte [(m.read a).toNat]
    rw [numberOf_cons, hnil]
    rfl
  | word =>
    show (m.readWord a).toNat = numberOf .byte [(m.read a).toNat, (m.read (a + 1)).toNat]
    rw [numberOf_cons, numberOf_cons, hnil, toNat_readWord]
    rfl
  | dword =>
    show (m.readWord (a + 2) ++ m.readWord a).toNat =
      numberOf .byte [(m.read a).toNat, (m.read (a + 1)).toNat, (m.read (a + 2)).toNat,
        (m.read (a + 2 + 1)).toNat]
    rw [toNat_append_eq, toNat_readWord, toNat_readWord]
    simp only [numberOf_cons, hnil, Width.bits]
    omega

/-- The number that an operand stands for at a width: that of a register, that of the bytes at a
pointer, the lowest first, or the low bits of a number. -/
def State.operandNumber (s : State) (w : Width) : Operand → Nat
  | .reg r => (s.cpu.get r).toNat
  | .indirect p =>
    numberOf .byte ((List.range w.bytes).map fun k => (s.memory.read (s.pointee p + k)).toNat)
  | .imm v => v.toNat % 2 ^ w.bits
  | .addr _ | .label _ => 0

theorem State.toNat_value (s : State) {w : Width} {o : Operand} {src : Source}
    (h : o.source? = some src) (hw : ∀ q, o = .reg q → q.width = w) :
    (s.value w src).toNat = s.operandNumber w o := by
  cases o with
  | reg q =>
    cases h
    obtain rfl := hw q rfl
    exact congrArg BitVec.toNat (BitVec.setWidth_eq _)
  | indirect p =>
    cases h
    exact s.memory.toNat_fetch _ w
  | imm v =>
    cases h
    exact BitVec.toNat_setWidth ..
  | addr a => cases h
  | label name => cases h

/-! ## assembled instructions -/

namespace Instruction.Assembled
variable {labels : List Label} {i : Instruction}

/-- The operation has a register and a source of the same width. -/
theorem operation_of_alu (h : i.Assembled labels) {op : AluOp} (hm : i.mnemonic = .alu op) :
    ∃ r o src, i.operands = [.reg r, o] ∧ o.source? = some src ∧
      (∀ q, o = .reg q → q.width = r.width) ∧ i.operation? = some (.alu op r src) := by
  obtain ⟨enc, he⟩ := h.exists_encodes
  unfold Instruction.operation?
  rw [hm] at he ⊢
  generalize i.operands = ops at he ⊢
  cases he with
  | aluShort op r v | aluNumber op r v =>
    exact ⟨r, .imm v, .imm v, rfl, rfl, fun _ => Operand.noConfusion, rfl⟩
  | aluMemory op r p =>
    exact ⟨r, .indirect p, .mem p, rfl, rfl, fun _ => Operand.noConfusion, rfl⟩
  | aluPair op r q hw =>
    refine ⟨r, .reg q, .reg q, rfl, rfl, fun q' hq => ?_, rfl⟩
    cases hq
    exact hw.symm

theorem operation_of_unary (h : i.Assembled labels) {op : UnaryOp} (hm : i.mnemonic = .unary op) :
    ∃ r, i.operands = [.reg r] ∧ i.operation? = some (.unary op r) := by
  obtain ⟨enc, he⟩ := h.exists_encodes
  unfold Instruction.operation?
  rw [hm] at he ⊢
  generalize i.operands = ops at he ⊢
  cases he with
  | countWord op r | countByte op r | complement op r => exact ⟨_, rfl, rfl⟩

theorem operation_of_shift (h : i.Assembled labels) {d : Direction} (hm : i.mnemonic = .shift d) :
    ∃ r, i.operands = [.reg r, .imm 1] ∧ i.operation? = some (.shift d r) := by
  obtain ⟨enc, he⟩ := h.exists_encodes
  unfold Instruction.operation?
  rw [hm] at he ⊢
  generalize i.operands = ops at he ⊢
  cases he with
  | shift d r => exact ⟨r, rfl, rfl⟩

end Instruction.Assembled

/-! ## steps -/

namespace Machine

/-- The machine is about to execute the instruction. -/
structure AtInstruction (i : Instruction) (m : Machine) : Prop where
  halted : m.halted = false
  instruction : m.program[m.pc]? = some i

/-- The machine has worked out a number `raw` of 32 bits and flags for the register `r`.  The result
is what `raw` is at the width of the register; it is as it should be, the flags tell of it, and the
register holds it, unless the operation does not store it. -/
structure Computed (m next : Machine) (r : Register) (stores : Bool) (raw : BitVec 32) (f : Flags)
    (exact : Nat → Bool → Prop) : Prop where
  flags : next.cpu.flags = f
  result : exact (raw.toNat % 2 ^ r.width.bits) f.carry
  tell : f.Tell r.width.bits (raw.toNat % 2 ^ r.width.bits)
  stored : (next.cpu.get r).toNat =
    if stores then raw.toNat % 2 ^ r.width.bits else (m.cpu.get r).toNat

variable {m : Machine} {i : Instruction} {op : Operation}

theorem AtInstruction.step_eq (h : m.AtInstruction i) (ho : i.operation? = some op) {s : State}
    {n : Next} (hx : op.exec m.program i.address m.toState = .ok (s, n)) :
    m.step = .ok (some (⟨i.address, i.line⟩, m.advance i s n)) := by
  rw [step_of_getElem? h.halted h.instruction, Instruction.exec, ho]
  dsimp only
  rw [hx]
  rfl

theorem computed_of_wide {r : Register} (hr : r ≠ .word .ip) {wide : BitVec 32 × Flags}
    {v : BitVec r.width.bits} {f : Flags} (hwide : cutResult r.width wide = (v, f))
    {exact : Nat → Bool → Prop} (he : exact v.toNat f.carry) (ht : f.Tell r.width.bits v.toNat)
    {stores : Bool} {s : State} (hs : s = if stores then m.setResult r v f else m.setFlags f) :
    m.Computed (m.advance i s .following) r stores wide.1 wide.2 exact := by
  obtain ⟨hv, rfl⟩ := Prod.mk.inj hwide
  have hcut : wide.1.toNat % 2 ^ r.width.bits = v.toNat := by
    rw [← hv, BitVec.toNat_setWidth]
  rw [← hcut] at he ht
  refine ⟨?_, he, ht, ?_⟩
  · rw [advance_flags, hs]
    cases stores <;> rfl
  · rw [advance_get _ _ _ _ hr, hs, hcut]
    cases stores with
    | true => exact congrArg BitVec.toNat (Registers.get_set_self _ r v)
    | false => rfl

end Machine

/-- What arithmetic and logic compute.  A machine with an assembled program that is about to execute
such an instruction makes a step, whatever its registers and memory hold.  The result at the width
of the destination is what the operation makes of the number in the destination, that of the source
and the carry: it is the low part of the number in 32 bits that the operation gives.  Zero, sign and
parity tell of the result, and the destination holds it, but for `cmp`, which stores nothing. -/
theorem exact_arithmetic {source : Text} {origin : Address} {p : Program}
    (hp : assemble source origin = .ok p) {m : Machine} (hm : m.program = p.instructions)
    {i : Instruction} (hi : m.AtInstruction i) :
    (∀ op, i.mnemonic = .alu op → ∃ r o v next, i.operands = [.reg r, o] ∧
      m.step = .ok (some (v, next)) ∧
      let a := m.cpu.get r
      let b := m.operandNumber r.width o
      let wide := op.evalWide m.cpu.flags r.width (a.setWidth 32) (BitVec.ofNat 32 b)
      m.Computed next r (op ≠ .cmp) wide.1 wide.2
        (op.Exact r.width.bits a.toNat b m.cpu.flags.carry)) ∧
    (∀ op, i.mnemonic = .unary op → ∃ r v next, i.operands = [.reg r] ∧
      m.step = .ok (some (v, next)) ∧
      let a := m.cpu.get r
      let wide := op.evalWide m.cpu.flags r.width (a.setWidth 32)
      m.Computed next r true wide.1 wide.2
        (op.Exact r.width.bits a.toNat m.cpu.flags.carry)) ∧
    (∀ d, i.mnemonic = .shift d → ∃ r v next, i.operands = [.reg r, .imm 1] ∧
      m.step = .ok (some (v, next)) ∧
      let a := m.cpu.get r
      let wide := d.evalWide m.cpu.flags r.width (a.setWidth 32)
      m.Computed next r true wide.1 wide.2 (d.Exact r.width.bits a.toNat)) := by
  have ha : i.Assembled p.labels := (assembled_of_assemble hp).2.instructions i
    (hm ▸ List.mem_of_getElem? hi.instruction)
  have hne {r : Register} (hr : .reg r ∈ i.operands) : r ≠ .word .ip := (ha.written _ hr).ne_ip
  refine ⟨fun op hop => ?_, fun op hop => ?_, fun d hd => ?_⟩
  · obtain ⟨r, o, src, hops, hsrc, hwidth, hoperation⟩ := ha.operation_of_alu hop
    have hr := hne (hops ▸ List.mem_cons_self)
    have hbits : r.width.bits ≤ 16 := by cases r with
      | word r => exact Nat.le_refl 16
      | byte r => exact Nat.le_add_left 8 8
    have hb := m.toNat_value hsrc hwidth
    obtain ⟨he, ht⟩ := op.exact_eval m.cpu.flags (m.cpu.get r) (m.value r.width src)
    have hwide := op.evalWide_eq (f := m.cpu.flags) hbits (m.cpu.get r) (m.value r.width src)
    rw [← BitVec.ofNat_toNat 32 (m.value r.width src), hb] at hwide
    rw [hb] at he
    refine ⟨r, o, _, _, hops, hi.step_eq hoperation rfl, Machine.computed_of_wide hr hwide he ht ?_⟩
    by_cases hcmp : op = .cmp <;> simp [hcmp]
  · obtain ⟨r, hops, hoperation⟩ := ha.operation_of_unary hop
    have hr := hne (hops ▸ List.mem_cons_self)
    obtain ⟨he, ht⟩ := op.exact_eval m.cpu.flags (m.cpu.get r) r.width.bits_pos
    exact ⟨r, _, _, hops, hi.step_eq hoperation rfl,
      Machine.computed_of_wide hr (op.evalWide_eq _) he ht rfl⟩
  · obtain ⟨r, hops, hoperation⟩ := ha.operation_of_shift hd
    have hr := hne (hops ▸ List.mem_cons_self)
    obtain ⟨he, ht⟩ := d.exact_eval m.cpu.flags (m.cpu.get r) r.width.bits_pos
    exact ⟨r, _, _, hops, hi.step_eq hoperation rfl,
      Machine.computed_of_wide hr (d.evalWide_eq _) he ht rfl⟩

/-- a source that takes a register and the carry away from the register -/
def borrowingSource : Text := "SBB AX,AX".toList

def borrowing : Instruction where
  opcode := [0x19, 0xc0]
  length := 2
  imm := none
  address := 0
  mnemonic := .alu .sbb
  operands := [.reg (.word .ax), .reg (.word .ax)]
  line := borrowingSource
  lineNumber := 1

def borrowingProgram : Program where
  origin := 0
  instructions := [borrowing]
  listing := [borrowing.listed]
  labels := []

/-- the machine with carry set -/
def borrowingMachine : Machine where
  program := borrowingProgram.instructions
  cpu := { registers := { ax := 0x1234 }, flags := { carry := true } }

/-- The register takes the carry on: all its bits are ones, and carry is set again. -/
theorem exact_arithmetic_of_borrowing :
    assemble borrowingSource 0 = .ok borrowingProgram ∧
    ∃ v next, borrowingMachine.step = .ok (some (v, next)) ∧
      (next.cpu.get (.word .ax)).toNat = 0xffff ∧ next.cpu.flags.carry = true ∧
      next.cpu.flags.sign = true := by
  have hp : assemble borrowingSource 0 = .ok borrowingProgram := by decide +kernel
  have hi : borrowingMachine.AtInstruction borrowing := ⟨rfl, rfl⟩
  obtain ⟨r, o, v, next, hops, hstep, h⟩ := (exact_arithmetic hp rfl hi).1 .sbb rfl
  cases hops
  have hresult : (_ : Int) - _ * 2 ^ 16 = 0x1234 - 0x1234 - 1 := h.result
  have hstored := h.stored.trans (if_pos rfl)
  rw [← hstored, ← h.flags] at hresult
  have htell := h.tell.sign
  rw [← hstored, ← h.flags] at htell
  have hlt := (next.cpu.get (.word .ax)).isLt
  have hcarry : next.cpu.flags.carry = true := by
    by_contra hno
    rw [Bool.eq_false_of_not_eq_true hno, Bool.toNat_false] at hresult
    omega
  rw [hcarry, Bool.toNat_true] at hresult
  have hall : (next.cpu.get (.word .ax)).toNat = 0xffff := by omega
  rw [hall] at htell
  exact ⟨hp, v, next, hstep, hall, hcarry, htell.trans (by decide)⟩

end Mini8086
