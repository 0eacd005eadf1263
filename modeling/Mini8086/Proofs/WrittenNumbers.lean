import Mini8086.Proofs.ExactArithmetic
import Mini8086.Proofs.Literals

/-!
# The number that is written, listed and executed

A literal for a register is cut to 16 bits when it is read, to the bytes of the register when the
instruction is written out, and to the bits of the register when it is executed.  Each of these
leaves the integer modulo `2 ^ w`, where `w` is the width of the register.

* `numberOf_numberBytes`   the bytes after an opcode, as one number;
* `State.wideValue_eq`     a source under a mask in 32 bits is the source at the width;
* `Carries.step_eq`        a step of a machine that executes the command of the line;
* `written_number`         the listing entry and the source of the instruction hold the same number.
-/

namespace Mini8086

/-! ## numbers cut to the width of a register -/

theorem toNat_ofInt_mod (r : Register) (z : Int) :
    (((BitVec.ofInt 16 z).toNat % 2 ^ r.width.bits : Nat) : Int) = z % 2 ^ r.width.bits := by
  rw [BitVec.toNat_ofInt]
  cases r with
  | byte r =>
    show (((z % (2 ^ 16 : Nat)).toNat % 2 ^ 8 : Nat) : Int) = z % 2 ^ 8
    omega
  | word r =>
    show (((z % (2 ^ 16 : Nat)).toNat % 2 ^ 16 : Nat) : Int) = z % 2 ^ 16
    omega

theorem setWidth_ofInt (r : Register) (z : Int) :
    (BitVec.ofInt 16 z).setWidth r.width.bits = BitVec.ofInt r.width.bits z := by
  apply BitVec.eq_of_toNat_eq
  rw [BitVec.toNat_setWidth, ← Int.natCast_inj, toNat_ofInt_mod, BitVec.toNat_ofInt,
    Int.toNat_of_nonneg]
  · push_cast
    rfl
  · exact Int.emod_nonneg _ (by positivity)

/-- The bytes after an opcode are the digits of the number, the lowest first. -/
theorem numberOf_numberBytes (r : Register) (v : Nat) :
    numberOf .byte ((Instruction.numberBytes v r.width.bytes).map BitVec.toNat) =
      v % 2 ^ r.width.bits := by
  have hnil : numberOf .byte [] = 0 := rfl
  cases r with
  | byte r =>
    show numberOf .byte [(BitVec.ofNat 8 v).toNat] = v % 2 ^ 8
    rw [numberOf_cons, hnil, BitVec.toNat_ofNat, Nat.mul_zero, Nat.add_zero]
  | word r =>
    show numberOf .byte [(BitVec.ofNat 8 v).toNat, (BitVec.ofNat 8 (v / 0x100)).toNat] = v % 2 ^ 16
    rw [numberOf_cons, numberOf_cons, hnil, BitVec.toNat_ofNat, BitVec.toNat_ofNat]
    show v % 2 ^ 8 + 2 ^ 8 * (v / 0x100 % 2 ^ 8 + 2 ^ 8 * 0) = v % 2 ^ 16
    omega

/-- the number in the last bytes of the entry, as many as the width has, the lowest first -/
def Entry.lastNumber (e : Entry) (w : Width) : Nat :=
  numberOf .byte ((e.bytes.drop (e.bytes.length - w.bytes)).map BitVec.toNat)

theorem Entry.lastNumber_of_bytes_eq {e : Entry} {opcode : List Byte} {r : Register} {v : Nat}
    (h : e.bytes = opcode ++ Instruction.numberBytes v r.width.bytes) :
    e.lastNumber r.width = v % 2 ^ r.width.bits := by
  have hdrop : e.bytes.length - r.width.bytes = opcode.length := by
    simp [h]
  rw [Entry.lastNumber, hdrop, h, List.drop_left, numberOf_numberBytes]

/-! ## the source of an operation -/

/-- a source in 32 bits, of which those under the mask of the width are left -/
def State.wideValue (s : State) (w : Width) : Source → BitVec 32
  | .reg r => (s.cpu.get r).setWidth 32 &&& w.wideMask
  | .mem p => (s.memory.fetch (s.pointee p) w).setWidth 32 &&& w.wideMask
  | .imm v => v.setWidth 32 &&& w.wideMask

theorem State.wideValue_eq (s : State) (w : Width) (src : Source) :
    s.wideValue w src = (s.value w src).setWidth 32 := by
  have hcut {n : Nat} (v : BitVec n) : (v.setWidth 32).setWidth w.bits = v.setWidth w.bits :=
    BitVec.setWidth_setWidth_of_le v w.bits_le
  cases src with
  | reg r => exact (w.and_wideMask _).trans (congrArg _ (hcut _))
  | mem p => exact (w.and_wideMask _).trans (congrArg _ (setWidth_wide _))
  | imm v => exact (w.and_wideMask _).trans (congrArg _ (hcut v))

theorem State.toNat_wideValue (s : State) (w : Width) (src : Source) :
    (s.wideValue w src).toNat = (s.value w src).toNat := by
  rw [s.wideValue_eq, toNat_wide]

/-- the operation of a command whose first operand is a register -/
def Mnemonic.operationOn? (r : Register) (src : Source) : Mnemonic → Option Operation
  | .mov => some (.move (.reg r) src)
  | .alu op => some (.alu op r src)
  | _ => none

/-- the state after the command has put the number `b` into the register, or combined it with what
is there -/
def State.withNumber (s : State) (r : Register) (b : BitVec r.width.bits) : Mnemonic → State
  | .mov => { s with cpu := s.cpu.set r b }
  | .alu op =>
    let (v, f) := op.eval s.cpu.flags (s.cpu.get r) b
    if op = .cmp then s.setFlags f else s.setResult r v f
  | _ => s

theorem exec_operationOn {m : Mnemonic} {r : Register} {src : Source} {op : Operation}
    (h : m.operationOn? r src = some op) (code : List Instruction) (a : Address) (s : State) :
    op.exec code a s = .ok (s.withNumber r (s.value r.width src) m, .following) := by
  cases m with
  | mov =>
    cases h
    show Except.ok (s.put r.width (s.value r.width src) (.reg r), Next.following) = _
    rw [State.put, BitVec.setWidth_eq]
    rfl
  | alu op =>
    cases h
    rfl
  | _ => cases h

/-! ## commands of a register and a literal -/

/-- The instruction `i` and its listing entry `e` hold the integer `z` modulo the width of the
register: it is in the last bytes of the entry, and it is the source of the operation in every
state, also when the source is taken from 32 bits under a mask.  Every machine that executes the
instruction goes on with this number. -/
structure HoldsNumber (m : Mnemonic) (r : Register) (z : Int) (i : Instruction) (e : Entry) :
    Prop where
  bytes_le : r.width.bytes ≤ e.bytes.length
  listed : (e.lastNumber r.width : Int) = z % 2 ^ r.width.bits
  source : ∃ op src, m.operationOn? r src = some op ∧ i.operation? = some op ∧ ∀ s : State,
    ((s.value r.width src).toNat : Int) = z % 2 ^ r.width.bits ∧
    ((s.wideValue r.width src).toNat : Int) = z % 2 ^ r.width.bits
  step : ∀ machine : Machine, machine.AtInstruction i →
    machine.step = .ok (some (⟨i.address, i.line⟩,
      machine.advance i (machine.withNumber r (BitVec.ofInt r.width.bits z) m) .following))

section
variable {line first t : Text} {m : Mnemonic} {r : Register} {n : Numeral}
  (hm : m.takesNumber = true) (hr : Register.ofText? first = some r)
  (hn : Numeral.read? t = some n) (hw : Writes line m first t)
  {labels : List Label} {i : Instruction} {k : Nat} (hc : Carries (line, k) i)
  (hi : i.Assembled labels)
include hm hr hn hw hc hi

theorem Carries.operation_literal :
    ∃ op, m.operationOn? r (.imm (BitVec.ofInt 16 n.toInt)) = some op ∧ i.operation? = some op := by
  obtain ⟨hmnemonic, hops, -⟩ := hc.literal hm hr hn hw hi
  unfold Instruction.operation?
  rw [hmnemonic, hops]
  cases m with
  | mov | alu op => exact ⟨_, rfl, rfl⟩
  | _ => cases hm

/-- A machine that executes the command works with the integer of the literal, at the width of the
register. -/
theorem Carries.step_eq {machine : Machine} (ha : machine.AtInstruction i) :
    machine.step = .ok (some (⟨i.address, i.line⟩,
      machine.advance i (machine.withNumber r (BitVec.ofInt r.width.bits n.toInt) m)
        .following)) := by
  obtain ⟨op, hop, hoperation⟩ := hc.operation_literal hm hr hn hw hi
  have hx := exec_operationOn hop machine.program i.address machine.toState
  have hvalue : machine.value r.width (.imm (BitVec.ofInt 16 n.toInt)) =
      BitVec.ofInt r.width.bits n.toInt := setWidth_ofInt r n.toInt
  rw [hvalue] at hx
  exact ha.step_eq hoperation hx

theorem Carries.holdsNumber : HoldsNumber m r n.toInt i i.listed := by
  obtain ⟨-, -, -, -, hbytes⟩ := hc.literal hm hr hn hw hi
  obtain ⟨op, hop, hoperation⟩ := hc.operation_literal hm hr hn hw hi
  have hvalue (s : State) : ((s.value r.width (.imm (BitVec.ofInt 16 n.toInt))).toNat : Int) =
      n.toInt % 2 ^ r.width.bits := by
    rw [State.value, BitVec.toNat_setWidth, toNat_ofInt_mod]
  refine ⟨?_, ?_, ⟨op, _, hop, hoperation, fun s => ⟨hvalue s, ?_⟩⟩,
    fun machine ha => hc.step_eq hm hr hn hw hi ha⟩
  · show r.width.bytes ≤ i.code.length
    simp [hbytes]
  · rw [Entry.lastNumber_of_bytes_eq hbytes, toNat_ofInt_mod]
  · rw [s.toNat_wideValue, hvalue]

end

/-- The number that is written for a register is the one that is listed and executed.  A line of an
assembled program that puts a literal into a register, or combines the register with one, has an
instruction, and this instruction and its listing entry hold the integer of the literal. -/
theorem written_number {source : Text} {origin : Address} {p : Program}
    (hp : assemble source origin = .ok p) {line : Text} {k : Nat}
    (hk : (line, k) ∈ numberedLines source) {m : Mnemonic} (hm : m.takesNumber = true)
    {first t : Text} (hw : Writes line m first t) {r : Register}
    (hr : Register.ofText? first = some r) {n : Numeral} (hn : Numeral.read? t = some n) :
    (∃ i ∈ p.instructions, Carries (line, k) i) ∧
    ∀ (idx : Nat) (i : Instruction) (e : Entry), p.instructions[idx]? = some i →
      p.listing[idx]? = some e → Carries (line, k) i →
      e.line = statementText line ∧ HoldsNumber m r n.toInt i e := by
  have hassembled := (assembled_of_assemble hp).2
  refine ⟨?_, fun idx i e hidx he hc => ⟨?_, ?_⟩⟩
  · have hcode : hasCommand (line, k) = true := decide_eq_true hw.commandText_ne_nil
    exact (laidOut_of_assemble hp).1.exists_instruction_of_line hk hcode
  · rw [hassembled.listing, List.getElem?_map, hidx] at he
    cases he
    exact hc.text
  · have hi := hassembled.instructions i (List.mem_of_getElem? hidx)
    rw [hassembled.listing, List.getElem?_map, hidx] at he
    cases he
    exact hc.holdsNumber hm hr hn hw hi

/-- a source with a negative number for a byte register, and one without a sign for the
accumulator -/
def signedSource : Text := "ADD bl,-0x01\ntop: Sub AX , 0x00fffe ; add two".toList

def signedProgram : Program where
  origin := 0x100
  instructions := [
    { opcode := [0x80, 0xc3], length := 3, imm := some (.value 0xffff), address := 0x100,
      mnemonic := .alu .add, operands := [.reg (.byte .bl), .imm 0xffff],
      line := "ADD bl,-0x01".toList, lineNumber := 1 },
    { opcode := [0x2d], length := 3, imm := some (.value 0xfffe), address := 0x103,
      mnemonic := .alu .sub, operands := [.reg (.word .ax), .imm 0xfffe],
      line := "top: Sub AX , 0x00fffe".toList, lineNumber := 2 }]
  listing := [⟨0x100, [0x80, 0xc3, 0xff], "ADD bl,-0x01".toList⟩,
    ⟨0x103, [0x2d, 0xfe, 0xff], "top: Sub AX , 0x00fffe".toList⟩]
  labels := [⟨"TOP".toList, 0x103, 2⟩]

theorem written_number_of_signed : assemble signedSource 0x100 = .ok signedProgram ∧
    (∀ i e, signedProgram.instructions[0]? = some i → signedProgram.listing[0]? = some e →
      HoldsNumber (.alu .add) (.byte .bl) (-1) i e) ∧
    ∀ i e, signedProgram.instructions[1]? = some i → signedProgram.listing[1]? = some e →
      HoldsNumber (.alu .sub) (.word .ax) 0xfffe i e := by
  have hp : assemble signedSource 0x100 = .ok signedProgram := by decide +kernel
  have hfirst : ("ADD bl,-0x01".toList, 1) ∈ numberedLines signedSource := by decide
  have hadd : Writes "ADD bl,-0x01".toList (.alu .add) "bl".toList "-0x01".toList :=
    ⟨by decide, by decide, by decide⟩
  have hbl : Register.ofText? "bl".toList = some (.byte .bl) := by decide
  have hminus : Numeral.read? "-0x01".toList = some ⟨true, 1⟩ := by decide
  have hsecond : ("top: Sub AX , 0x00fffe ; add two".toList, 2) ∈ numberedLines signedSource := by
    decide
  have hsub : Writes "top: Sub AX , 0x00fffe ; add two".toList (.alu .sub) "AX".toList
      "0x00fffe".toList := ⟨by decide, by decide, by decide⟩
  have hax : Register.ofText? "AX".toList = some (.word .ax) := by decide
  have hplain : Numeral.read? "0x00fffe".toList = some ⟨false, 0xfffe⟩ := by decide
  refine ⟨hp, fun i e hi he => ?_, fun i e hi he => ?_⟩
  · refine ((written_number hp hfirst rfl hadd hbl hminus).2 0 i e hi he ?_).2
    cases hi
    exact ⟨rfl, rfl, by decide +kernel⟩
  · refine ((written_number hp hsecond rfl hsub hax hplain).2 1 i e hi he ?_).2
    cases hi
    exact ⟨rfl, rfl, by decide +kernel⟩

end Mini8086
