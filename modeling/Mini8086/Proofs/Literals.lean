import Mini8086.Proofs.BranchTargets
import Mini8086.Proofs.Numerals

/-!
# Numbers written for byte registers

`mov` and the operations of the two-operand group put a number into a register.  The number is cut
to 16 bits before its width is compared with that of the register, so a byte register takes a
literal from `-80` to `FF`, and also one from `FF80` to `FFFF`, of which only the low byte is left.

* `Writes`              a line that is the command of two operands, each given as it is written;
* `byteRefusal`         why a literal that is not taken is none for a byte register;
* `assemble_byteLiteral`   what becomes of a line that writes a literal for a byte register.
-/

namespace Mini8086

/-! ## commands of a register and a number -/

/-- whether the operation may have a number as its second operand, for a register of any kind -/
def Mnemonic.takesNumber : Mnemonic → Bool
  | .mov | .alu _ => true
  | _ => false

section
variable {m : Mnemonic} (hm : m.takesNumber = true)
include hm

theorem isBranch_of_takesNumber : m.isBranch = false := by
  cases m with
  | branch b => cases hm
  | _ => rfl

theorem encode_number_of_fits {r : Register} {v : Word} (hv : r.width.fits v = true) :
    ∃ opcode, encode m [.reg r, .imm v] = .ok (.withNumber opcode v r.width) := by
  have hno : ¬ (!r.width.fits v) = true := by
    rw [hv]
    decide
  cases m with
  | mov => exact ⟨_, if_neg hno⟩
  | alu op =>
    by_cases ha : r.isAccumulator = true
    · exact ⟨_, (if_neg hno).trans (if_pos ha)⟩
    · exact ⟨_, (if_neg hno).trans (if_neg ha)⟩
  | _ => cases hm

theorem encode_number_of_not_fits {r : Register} {v : Word} (hv : r.width.fits v = false) :
    encode m [.reg r, .imm v] = .error (.immediateWidth v r.width) := by
  have hyes : (!r.width.fits v) = true := by
    rw [hv]
    rfl
  cases m with
  | mov | alu op => exact if_pos hyes
  | _ => cases hm

theorem encode_register_name (r : Register) (name : Text) :
    encode m [.reg r, .label name] = .error .unsupported := by
  cases m with
  | mov | alu op => rfl
  | _ => cases hm

end

/-- whether the integer is written into a byte register: it is a byte, with or without a sign, or it
has the 16 bits of a negative byte -/
def isTakenByte (z : Int) : Bool :=
  decide (-0x80 ≤ z ∧ z ≤ 0xff) || decide (0xff80 ≤ z ∧ z ≤ 0xffff)

theorem isTakenByte_iff {z : Int} :
    isTakenByte z = true ↔ (-0x80 ≤ z ∧ z ≤ 0xff) ∨ (0xff80 ≤ z ∧ z ≤ 0xffff) := by
  rw [isTakenByte, Bool.or_eq_true, decide_eq_true_iff, decide_eq_true_iff]

/-- The width of a byte is compared with the 16 bits of the integer. -/
theorem fits_byte_ofInt {z : Int} (hz : -0x8000 ≤ z ∧ z ≤ 0xffff) :
    Width.byte.fits (BitVec.ofInt 16 z) = isTakenByte z := by
  rw [Bool.eq_iff_iff, isTakenByte_iff]
  show (decide (_ < 1 <<< 8) || decide (0x10000 ≤ _ + 1 <<< 7)) = true ↔ _
  rw [Bool.or_eq_true, decide_eq_true_iff, decide_eq_true_iff, BitVec.toNat_ofInt]
  omega

theorem ofNat_toNat_ofInt (z : Int) :
    BitVec.ofNat 8 (BitVec.ofInt 16 z).toNat = BitVec.ofInt 8 z := by
  apply BitVec.eq_of_toNat_eq
  rw [BitVec.toNat_ofNat, BitVec.toNat_ofInt, BitVec.toNat_ofInt]
  omega

/-! ## lines of two operands -/

/-- The line is the command `m first,second`, with a label in front of it or without one; `first`
and `second` are as the line has them, without blanks. -/
structure Writes (line : Text) (m : Mnemonic) (first second : Text) : Prop where
  label : ∀ p, splitFirst? ':' (statementText line) = some p → isName (trim p.1) = true
  mnemonic : Mnemonic.ofText? (takeWord (commandText line)).1 = some m
  operands : operandText line = first ++ ',' :: second

theorem readOperands_pair {m : Mnemonic} {first second : Text} {o : Operand}
    (hm : m.isBranch = false) (hfirst : Operand.readData first = .ok o) (hne : first ≠ [])
    (hne' : second ≠ []) (hcomma : ',' ∉ first) (hcomma' : ',' ∉ second) :
    readOperands m (first ++ ',' :: second) =
      ((Operand.readData second).mapError StatementError.operand).map fun o' => [o, o'] := by
  have hpieces : pieces ',' (first ++ ',' :: second) = [first, second] := by
    rw [pieces_append, pieces_of_not_mem hcomma, pieces_of_not_mem hcomma']
    rfl
  have hread : ∀ list piece, piece ≠ [] → readOperand m list piece =
      (Operand.readData piece).mapError StatementError.operand := by
    intro list piece hp
    rw [readOperand, if_neg hp, hm]
    rfl
  rw [readOperands, if_neg (List.append_ne_nil_of_right_ne_nil _ (List.cons_ne_nil _ _)), hpieces,
    List.mapM_cons, List.mapM_cons, hread _ _ hne, hread _ _ hne', hfirst]
  cases Operand.readData second <;> rfl

theorem readUpperData_name :
    ∀ r ∈ Register.named, readUpperData r.name.toList = .ok (.reg r) := by decide +kernel

theorem readData_of_ofText? {t : Text} {r : Register} (h : Register.ofText? t = some r) :
    Operand.readData t = .ok (.reg r) := by
  obtain ⟨hr, hname⟩ := Register.ofText?_eq_some h
  rw [Operand.readData, ← hname]
  exact readUpperData_name r hr

theorem comma_not_mem_name : ∀ r ∈ Register.named, ',' ∉ r.name.toList := by decide +kernel

theorem comma_not_mem_of_ofText? {t : Text} {r : Register} (h : Register.ofText? t = some r) :
    ',' ∉ t := by
  obtain ⟨hr, hname⟩ := Register.ofText?_eq_some h
  intro hc
  apply comma_not_mem_name r hr
  rw [hname]
  exact List.mem_map.mpr ⟨',', hc, rfl⟩

section
variable {line first second : Text} {m : Mnemonic} (hw : Writes line m first second)
include hw

theorem Writes.commandText_ne_nil : commandText line ≠ [] := by
  intro h
  have hnone : Mnemonic.ofText? (takeWord []).1 = none := by decide
  have hsome := hw.mnemonic
  rw [h, hnone] at hsome
  cases hsome

/-- What the operands of the line are read as decides whether it is a statement. -/
theorem Writes.read_eq : Statement.read line =
    (readOperands m (first ++ ',' :: second)).map fun ops =>
      ⟨definedLabel? line, some ⟨m, ops⟩, statementText line⟩ := by
  have hcommand : Command.read? (commandText line) =
      (readOperands m (first ++ ',' :: second)).map fun ops => some ⟨m, ops⟩ := by
    rw [Command.read?, if_neg hw.commandText_ne_nil, Command.read]
    dsimp only
    rw [hw.mnemonic, ← hw.operands]
    dsimp only
    rw [operandText]
    cases readOperands m _ <;> rfl
  unfold Statement.read definedLabel?
  unfold commandText at hcommand
  dsimp only
  cases hs : splitFirst? ':' (statementText line) with
  | none =>
    rw [hs] at hcommand
    dsimp only at hcommand ⊢
    rw [hcommand]
    cases readOperands m _ <;> rfl
  | some p =>
    rw [hs] at hcommand
    dsimp only at hcommand ⊢
    rw [if_pos (hw.label p hs), hcommand]
    cases readOperands m _ <;> rfl

theorem Writes.layoutLine_of_readOperands_eq_error {a : Address} {n : Nat} {seen : List Label}
    {e : StatementError} (he : readOperands m (first ++ ',' :: second) = .error e) :
    layoutLine a n seen line = .error (.atLine n (.statement e)) := by
  unfold layoutLine
  rw [hw.read_eq, he]
  rfl

theorem Writes.layoutLine_of_encode_eq_error {a : Address} {n : Nat} {ops : List Operand}
    {e : EncodeError} (hops : readOperands m (first ++ ',' :: second) = .ok ops)
    (he : encode m ops = .error e) :
    layoutLine a n [] line = .error (.atLine n (e.inCommand ⟨m, ops⟩)) := by
  have hlabel : layoutLabel a n [] (definedLabel? line) = .ok _ :=
    layoutLabel_eq_ok.mpr ⟨fun _ _ => rfl, rfl⟩
  have hcommand : layoutCommand a n (statementText line) (some ⟨m, ops⟩) =
      .error (.atLine n (e.inCommand ⟨m, ops⟩)) := by
    unfold layoutCommand
    dsimp only
    rw [he]
  unfold layoutLine
  rw [hw.read_eq, hops]
  refine bind_eq_error.mpr (.inr ⟨_, rfl, bind_eq_error.mpr (.inr ⟨_, hlabel, ?_⟩)⟩)
  exact bind_eq_error.mpr (.inl hcommand)

theorem Writes.layoutLine_of_encode_eq_ok {a : Address} {n : Nat} {ops : List Operand}
    {enc : Encoding} (hops : readOperands m (first ++ ',' :: second) = .ok ops)
    (he : encode m ops = .ok enc) :
    ∃ labels, layoutLine a n [] line = .ok ⟨labels, [{ enc with
      address := a, mnemonic := m, operands := ops, line := statementText line,
      lineNumber := n }]⟩ := by
  refine ⟨_, layoutLine_eq_ok.mpr ⟨⟨definedLabel? line, some ⟨m, ops⟩, statementText line⟩, ?_,
    layoutLabel_eq_ok.mpr ⟨fun _ _ => rfl, rfl⟩, ?_⟩⟩
  · rw [hw.read_eq, hops]
    rfl
  · unfold layoutCommand
    dsimp only
    rw [he]

end

/-! ## a line by itself -/

theorem layout_of_line {line : Text} (h : '\n' ∉ line) (origin : Address) :
    layout line origin = layoutLine origin 1 [] line := by
  rw [layout, sourceLines, pieces_of_not_mem h, layoutLines]
  cases layoutLine origin 1 [] line with
  | error e => rfl
  | ok l =>
    show Except.ok (l.append .empty) = _
    rw [Layout.append, Layout.empty, List.append_nil, List.append_nil]

theorem assemble_of_layout_eq_error {source : Text} {origin : Address} {e : AssemblyError}
    (h : layout source origin = .error e) : assemble source origin = .error e := by
  rw [assemble, h]
  rfl

/-- A command that is no branch, laid out alone, is a program. -/
theorem exists_assemble_of_layout {source : Text} {origin : Address} {labels : List Label}
    {i : Instruction} (h : layout source origin = .ok ⟨labels, [i]⟩)
    (hm : i.mnemonic.isBranch = false) : ∃ p, assemble source origin = .ok p := by
  have hresolve : i.resolve labels = .ok i := by
    unfold Instruction.resolve
    split
    · exact if_neg (Bool.eq_false_iff.mp hm)
    · rfl
  have hreach : i.InReach := by
    intro d hd
    rw [Instruction.displacement?, target?_of_not_isBranch hm] at hd
    cases hd
  exact ⟨_, assemble_eq_ok_iff_inReach.mpr ⟨_, ⟨labels, [i]⟩, h,
    Layout.resolve_eq_ok.mpr ⟨rfl, .cons hresolve .nil⟩, List.forall_mem_singleton.mpr hreach, rfl⟩⟩

/-! ## literals for registers -/

section
variable {line first t : Text} {m : Mnemonic} {r : Register} {n : Numeral}
  (hm : m.takesNumber = true) (hr : Register.ofText? first = some r)
  (hn : Numeral.read? t = some n)
include hm hr hn

theorem readOperands_literal : readOperands m (first ++ ',' :: t) =
    ((readUpperData (upper t)).mapError StatementError.operand).map fun o => [.reg r, o] := by
  have hne : first ≠ [] := by
    rintro rfl
    have hnone : Register.ofText? [] = none := by decide
    rw [hnone] at hr
    cases hr
  have hne' : t ≠ [] := by
    rintro rfl
    cases hn
  have hcomma : ',' ∉ t := fun hc =>
    absurd (Numeral.isNumeralChar_of_read? hn ',' hc) (by decide)
  exact readOperands_pair (isBranch_of_takesNumber hm) (readData_of_ofText? hr) hne hne'
    (comma_not_mem_of_ofText? hr) hcomma

/-- Operands that have an encoding are the register and 16 bits of the literal, which fit the
register. -/
theorem readOperands_literal_encoded {ops : List Operand} {enc : Encoding}
    (hops : readOperands m (first ++ ',' :: t) = .ok ops) (henc : encode m ops = .ok enc) :
    ops = [.reg r, .imm (BitVec.ofInt 16 n.toInt)] ∧ (-0x8000 ≤ n.toInt ∧ n.toInt ≤ 0xffff) ∧
      r.width.fits (BitVec.ofInt 16 n.toInt) = true := by
  rw [readOperands_literal hm hr hn, map_eq_ok] at hops
  obtain ⟨o, ho, rfl⟩ := hops
  rw [mapError_eq_ok, readUpperData_of_read? ((Numeral.read?_upper t).trans hn)] at ho
  by_cases hword : -0x8000 ≤ n.toInt ∧ n.toInt ≤ 0xffff
  · rw [if_pos hword] at ho
    cases ho
    refine ⟨rfl, hword, ?_⟩
    cases hfits : r.width.fits (BitVec.ofInt 16 n.toInt) with
    | true => rfl
    | false =>
      rw [encode_number_of_not_fits hm hfits] at henc
      cases henc
  · -- what is too large for 16 bits can only be a name, and no command of the group takes one
    rw [if_neg hword] at ho
    split at ho
    · cases ho
    · split at ho
      · cases ho
        rw [encode_register_name hm] at henc
        cases henc
      · cases ho

/-- An instruction of a program that comes from the line has 16 bits of the literal as its second
operand, and ends in as many of its bytes as the register has. -/
theorem Carries.literal (hw : Writes line m first t) {labels : List Label} {i : Instruction}
    {k : Nat} (hc : Carries (line, k) i) (hi : i.Assembled labels) :
    i.mnemonic = m ∧ i.operands = [.reg r, .imm (BitVec.ofInt 16 n.toInt)] ∧
      (-0x8000 ≤ n.toInt ∧ n.toInt ≤ 0xffff) ∧
      r.width.fits (BitVec.ofInt 16 n.toInt) = true ∧
      i.code = i.opcode ++
        Instruction.numberBytes (BitVec.ofInt 16 n.toInt).toNat r.width.bytes := by
  obtain ⟨hmnemonic, hread⟩ := Command.read_eq_ok.mp hc.command
  obtain rfl : i.mnemonic = m := Option.some.inj (hmnemonic.symm.trans hw.mnemonic)
  have hops : readOperands i.mnemonic (first ++ ',' :: t) = .ok i.operands := by
    rw [← hw.operands]
    exact hread
  obtain ⟨imm, henc, hres⟩ := hi.encodes
  rw [← encode_eq_ok] at henc
  obtain ⟨hoperands, hword, hfits⟩ := readOperands_literal_encoded hm hr hn hops henc
  obtain ⟨opcode, he⟩ := encode_number_of_fits hm hfits
  rw [hoperands, he] at henc
  obtain ⟨hopcode, hlength, rfl⟩ := Encoding.mk.inj (Except.ok.inj henc)
  generalize hv : i.imm = after at hres
  cases hres
  have hl : i.length = i.opcode.length + r.width.bytes := by rw [← hlength, ← hopcode]
  rw [Instruction.code, emit?_number (isBranch_of_takesNumber hm) hv hl]
  exact ⟨rfl, hoperands, hword, hfits, rfl⟩

end

/-! ## literals for byte registers -/

/-- Why the literal `t`, in upper case, is not taken for a byte register. -/
def byteRefusal (m : Mnemonic) (r : ByteRegister) (t : Text) (z : Int) : LineError :=
  if -0x8000 ≤ z ∧ z ≤ 0xffff then .immediateWidth (BitVec.ofInt 16 z) .byte
  else if 0 ≤ z ∧ z ≤ 0xffffffff then .statement (.operand (.tooWide t))
  else if isName t then .unsupportedOperands m [.reg (.byte r), .label t]
  else .statement (.operand (.notData t))

section
variable {line first t : Text} {m : Mnemonic} {r : ByteRegister} {n : Numeral}
  (hm : m.takesNumber = true) (hr : Register.ofText? first = some (.byte r))
  (hn : Numeral.read? t = some n)
include hm hr hn

/-- A literal that is taken is read as a number and has an encoding. -/
theorem encode_of_taken (hz : isTakenByte n.toInt = true) :
    ∃ opcode, readOperands m (first ++ ',' :: t) =
        .ok [.reg (.byte r), .imm (BitVec.ofInt 16 n.toInt)] ∧
      encode m [.reg (.byte r), .imm (BitVec.ofInt 16 n.toInt)] =
        .ok (.withNumber opcode (BitVec.ofInt 16 n.toInt) .byte) := by
  have hword : -0x8000 ≤ n.toInt ∧ n.toInt ≤ 0xffff := by
    have h := isTakenByte_iff.mp hz
    omega
  have hfits : (Register.byte r).width.fits (BitVec.ofInt 16 n.toInt) = true :=
    (fits_byte_ofInt hword).trans hz
  obtain ⟨opcode, he⟩ := encode_number_of_fits hm hfits
  refine ⟨opcode, ?_, he⟩
  rw [readOperands_literal hm hr hn, readUpperData_of_read? ((Numeral.read?_upper t).trans hn),
    if_pos hword]
  rfl

/-- A literal that is not taken is no operand, or the operands have no encoding. -/
theorem refused_of_not_taken (hz : isTakenByte n.toInt = false) :
    (∃ e, readOperands m (first ++ ',' :: t) = .error e ∧
      byteRefusal m r (upper t) n.toInt = .statement e) ∨
    ∃ ops e, readOperands m (first ++ ',' :: t) = .ok ops ∧ encode m ops = .error e ∧
      byteRefusal m r (upper t) n.toInt = e.inCommand ⟨m, ops⟩ := by
  have hread := readOperands_literal hm hr hn
  rw [readUpperData_of_read? ((Numeral.read?_upper t).trans hn)] at hread
  unfold byteRefusal
  -- a literal without a 16-bit form is refused when it is read, unless it could be a name
  by_cases hword : -0x8000 ≤ n.toInt ∧ n.toInt ≤ 0xffff
  · have hfits : (Register.byte r).width.fits (BitVec.ofInt 16 n.toInt) = false :=
      (fits_byte_ofInt hword).trans hz
    rw [if_pos hword] at hread ⊢
    exact .inr ⟨_, _, hread, encode_number_of_not_fits hm hfits, rfl⟩
  · rw [if_neg hword] at hread ⊢
    by_cases hpos : 0 ≤ n.toInt ∧ n.toInt ≤ 0xffffffff
    · rw [if_pos hpos] at hread ⊢
      exact .inl ⟨_, hread, rfl⟩
    · rw [if_neg hpos] at hread ⊢
      by_cases hname : isName (upper t) = true
      · rw [if_pos hname] at hread ⊢
        exact .inr ⟨_, _, hread, encode_register_name hm _ _, rfl⟩
      · rw [if_neg hname] at hread ⊢
        exact .inl ⟨_, hread, rfl⟩

variable (hw : Writes line m first t)
include hw

/-- An instruction of a program that comes from the line has a literal that is taken, and ends in
its low byte. -/
theorem Carries.byteLiteral {labels : List Label} {i : Instruction} {k : Nat}
    (hc : Carries (line, k) i) (hi : i.Assembled labels) :
    isTakenByte n.toInt = true ∧ i.code = i.opcode ++ [BitVec.ofInt 8 n.toInt] := by
  obtain ⟨-, -, hword, hfits, hcode⟩ := hc.literal hm hr hn hw hi
  refine ⟨(fits_byte_ofInt hword).symm.trans hfits, hcode.trans ?_⟩
  show i.opcode ++ [_] = _
  rw [ofNat_toNat_ofInt]

end

/-- A line that writes a literal for a byte register is part of a program only if the literal is
taken, and its instruction then ends in the low byte of the literal.  By itself it assembles if the
literal is taken, and has an error that names the literal otherwise. -/
theorem assemble_byteLiteral {line first t : Text} {m : Mnemonic} {r : ByteRegister} {n : Numeral}
    (hm : m.takesNumber = true) (hw : Writes line m first t)
    (hr : Register.ofText? first = some (.byte r)) (hn : Numeral.read? t = some n)
    (hline : '\n' ∉ line) (origin : Address) :
    (∀ source p k, assemble source origin = .ok p → (line, k) ∈ numberedLines source →
      isTakenByte n.toInt = true ∧ ∃ i ∈ p.instructions, Carries (line, k) i ∧
        i.code = i.opcode ++ [BitVec.ofInt 8 n.toInt]) ∧
    (isTakenByte n.toInt = true → ∃ p, assemble line origin = .ok p) ∧
    (isTakenByte n.toInt = false →
      assemble line origin = .error (.atLine 1 (byteRefusal m r (upper t) n.toInt))) := by
  refine ⟨fun source p k hp hk => ?_, fun hz => ?_, fun hz => ?_⟩
  · have hcode : hasCommand (line, k) = true := decide_eq_true hw.commandText_ne_nil
    obtain ⟨i, hi, hc⟩ := (laidOut_of_assemble hp).1.exists_instruction_of_line hk hcode
    obtain ⟨hz, hbytes⟩ :=
      hc.byteLiteral hm hr hn hw ((assembled_of_assemble hp).2.instructions i hi)
    exact ⟨hz, i, hi, hc, hbytes⟩
  · obtain ⟨opcode, hread, he⟩ := encode_of_taken hm hr hn hz
    obtain ⟨labels, hl⟩ := hw.layoutLine_of_encode_eq_ok (a := origin) (n := 1) hread he
    rw [← layout_of_line hline] at hl
    exact exists_assemble_of_layout hl (isBranch_of_takesNumber hm)
  · apply assemble_of_layout_eq_error
    rw [layout_of_line hline]
    obtain ⟨e, hread, hrefusal⟩ | ⟨ops, e, hread, he, hrefusal⟩ :=
      refused_of_not_taken hm hr hn hz
    · rw [hrefusal]
      exact hw.layoutLine_of_readOperands_eq_error hread
    · rw [hrefusal]
      exact hw.layoutLine_of_encode_eq_error hread he

theorem writes_wide : Writes "mov al,ff80".toList .mov "al".toList "ff80".toList where
  label := by decide
  mnemonic := by decide
  operands := by decide

theorem writes_low : Writes "top: Cmp BH , -0x081 ; low".toList (.alu .cmp) "BH".toList
    "-0x081".toList where
  label := by decide
  mnemonic := by decide
  operands := by decide

/-- a literal that is taken with the 16 bits of a negative byte, and one that is not taken -/
theorem assemble_byteLiteral_of_wide_of_low :
    (∃ p, assemble "mov al,ff80".toList 0x1000 = .ok p) ∧
      assemble "top: Cmp BH , -0x081 ; low".toList 0x1000 =
        .error (.atLine 1 (.immediateWidth 0xff7f .byte)) :=
  have htaken := assemble_byteLiteral (r := .al) (n := ⟨false, 0xff80⟩) rfl writes_wide (by decide)
    (by decide) (by decide) 0x1000
  have hrefused := assemble_byteLiteral (r := .bh) (n := ⟨true, 0x81⟩) rfl writes_low (by decide)
    (by decide) (by decide) 0x1000
  ⟨htaken.2.1 (by decide), hrefused.2.2 (by decide)⟩

/-- `FF80` is greater than every number of eight bits, and `80` is written for it -/
theorem assemble_wide :
    (Numeral.read? "ff80".toList).map Numeral.toInt = some 0xff80 ∧
      (assemble "mov al,ff80".toList 0x1000).map Program.bytes = .ok [0xb0, 0x80] := by
  decide

end Mini8086
