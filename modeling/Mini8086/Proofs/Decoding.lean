import Mini8086.Proofs.Assembled
import Mini8086.Proofs.Plain

/-!
# Reading instructions back from their bytes

`decode a bytes` reads the instruction at address `a` from its bytes and whatever follows them: what
it says (`Plain`) and its length.  The opcode is one byte or two, and in these stand the operation,
the width and the registers (`Head.read`); a number or a displacement comes after it.

The forms between two registers do not say which registers are meant, and `decode` does not read
them (`isPair`).  It reads back everything else that is assembled:

* `Encodes.read`     the opcode of a command tells all of it but the number after it;
* `decode_code`      the bytes of an instruction tell what it says and how long it is;
* `sameAs_of_code_eq` so instructions laid out from one address with the same bytes are the same,
                     one by one, up to their spelling.
-/

namespace Mini8086

/-! ## fields of an opcode -/

/-- the three bits of a register that is encoded last -/
def lowField (b : Byte) : Nat := b.toNat % 8

/-- the three bits above the lowest three -/
def middleField (b : Byte) : Nat := b.toNat / 8 % 8

def widthField (b : Byte) : Width := if b.getLsbD 0 then .word else .byte

/-- the register of a width that has the number -/
def registerAt? (w : Width) (code : Nat) : Option Register :=
  Register.named.find? fun r => r.width == w && r.code.toNat == code

/-- the pointer of a second opcode byte with a memory operand -/
def pointerField (c : Byte) : WordRegister := if lowField c = 5 then .di else .si

/-! ## opcodes -/

/-- What an opcode of `n` bytes tells. -/
inductive Head where
  /-- all of the command -/
  | whole (m : Mnemonic) (ops : List Operand) (n : Nat)
  /-- a register, which a number of its width follows -/
  | number (m : Mnemonic) (r : Register) (n : Nat)
  /-- a branch, whose displacement follows -/
  | branch (b : Branch)
  deriving DecidableEq, Repr

/-- the branch that has the opcode, by its first name -/
def branchAt? (b : Byte) : Option Branch :=
  Branch.all.find? fun branch => branch.plain == branch && branch.opcode == b

/-- a command with the register of the second opcode byte as its first operand -/
def Head.single (m : Mnemonic) (ops : List Operand) (w : Width) (c : Byte) : Option Head :=
  (registerAt? w (lowField c)).map fun r => .whole m (.reg r :: ops) 2

/-- What the first opcode byte and, where it asks for one, the second tell. -/
def Head.read (b c : Byte) : Option Head :=
  let w := widthField b
  match b.toNat / 8 with
  -- 01000 and 01001: `inc` and `dec` of words
  | 8 => (registerAt? .word (lowField b)).map fun r => .whole (.unary .inc) [.reg r] 1
  | 9 => (registerAt? .word (lowField b)).map fun r => .whole (.unary .dec) [.reg r] 1
  -- 0111: conditional branches
  | 14 => (branchAt? b).map .branch
  | 15 => (branchAt? b).map .branch
  -- 10000: a number and a register
  | 16 => do
    let op ← AluOp.all[middleField c]?
    let r ← registerAt? w (lowField c)
    return .number (.alu op) r 2
  -- 10001: memory and a register
  | 17 => do
    let r ← registerAt? w (middleField c)
    let p := Operand.indirect (pointerField c)
    return .whole .mov (if b.getLsbD 1 then [.reg r, p] else [p, .reg r]) 2
  | 18 => some (.whole .nop [] 1)
  -- 10110 and 10111: a number to a register
  | 22 => (registerAt? .byte (lowField b)).map fun r => .number .mov r 1
  | 23 => (registerAt? .word (lowField b)).map fun r => .number .mov r 1
  -- 11010: shifts
  | 26 => Head.single (.shift (if middleField c = 4 then .left else .right)) [.imm 1] w c
  | 28 => (branchAt? b).map .branch
  | 29 => (branchAt? b).map .branch
  -- 11110: `hlt`, and one register
  | 30 =>
    match lowField b, middleField c with
    | 4, _ => some (.whole .hlt [] 1)
    | _, 2 => Head.single (.unary .not) [] w c
    | _, 3 => Head.single (.unary .neg) [] w c
    | _, 4 => Head.single .mul [] w c
    | _, _ => Head.single .div [] w c
  -- 11111: `clc`, and `inc` and `dec` of bytes
  | 31 =>
    match lowField b, middleField c with
    | 0, _ => some (.whole .clc [] 1)
    | _, 0 => Head.single (.unary .inc) [] .byte c
    | _, _ => Head.single (.unary .dec) [] .byte c
  -- 00: the operation stands in the first byte
  | k => do
    let op ← AluOp.all[k]?
    if b.getLsbD 2 then
      let r ← registerAt? w 0
      return .number (.alu op) r 1
    else
      let r ← registerAt? w (middleField c)
      return .whole (.alu op) [.reg r, .indirect (pointerField c)] 2

/-- what the opcode at the start of some bytes tells -/
def Head.ofBytes : List Byte → Option Head
  | [] => none
  | b :: bs => Head.read b (bs.headD 0)

/-! ## instructions -/

/-- the number of a width at the start of some bytes, low byte first -/
def numberAt (bs : List Byte) : Width → Word
  | .byte => (bs.headD 0).setWidth 16
  | _ => bs.tail.headD 0 ++ bs.headD 0

/-- What the instruction at an address says and how long it is, from its bytes and more. -/
def decode (a : Address) (bs : List Byte) : Option (Plain × Nat) :=
  (Head.ofBytes bs).map fun
    | .whole m ops n => (⟨m, ops, none⟩, n)
    | .number m r n =>
      (⟨m, [.reg r, .imm (numberAt (bs.drop n) r.width)], none⟩, n + r.width.bytes)
    | .branch b => (⟨.branch b, [], some ((a : Int) + 2 + (bs.tail.headD 0).toInt).toNat⟩, 2)

example : decode 0x100 [0x75, 0xfe] = some (⟨.branch .jnz, [], some 0x100⟩, 2) := by decide +kernel

/-! ## opcodes are read back -/

/-- What the head of an encoded command is. -/
inductive Head.Of : Head → Mnemonic → List Operand → Encoding → Prop
  | whole {m : Mnemonic} {ops : List Operand} {opcode : List Byte} (hm : m.isBranch = false)
      (hc : ops.map (Operand.cut (destinationWidth ops)) = ops) :
      Head.Of (.whole m ops opcode.length) m ops (.plain opcode)
  | number {m : Mnemonic} {r : Register} {v : Word} {opcode : List Byte} (hm : m.isBranch = false) :
      Head.Of (.number m r opcode.length) m [.reg r, .imm v] (.withNumber opcode v r.width)
  | branch {b : Branch} {ops : List Operand} {imm : Immediate} :
      Head.Of (.branch b.plain) (.branch b) ops ⟨[b.opcode], 2, some imm⟩

/-- whether a command is between two registers, so that its opcode does not say which -/
def isPair : List Operand → Bool
  | [.reg _, .reg _] => true
  | _ => false

theorem AluOp.mem_all (op : AluOp) : op ∈ AluOp.all := by cases op <;> decide
theorem UnaryOp.mem_all (op : UnaryOp) : op ∈ UnaryOp.all := by cases op <;> decide
theorem Direction.mem_all (d : Direction) : d ∈ Direction.all := by cases d <;> decide
theorem ByteRegister.mem_all (r : ByteRegister) : r ∈ ByteRegister.all := by cases r <;> decide

/-- the pointers that an operand can have -/
def pointers : List WordRegister := [.si, .di]

theorem mem_pointers {p : WordRegister} (h : (Operand.indirect p).Written) : p ∈ pointers := by
  obtain rfl | rfl := h <;> decide

section
open Register

theorem read_moveWord : ∀ r ∈ named, r.width = .word → ∀ c,
    Head.read (0xb8 ||| r.code) c = some (.number .mov r 1) := by
  intro r hr hw c
  cases r with
  | byte r => cases hw
  | word r =>
    cases r with
    | ip => exact absurd hr (by decide)
    | _ => rfl

theorem read_load : ∀ r ∈ named, ∀ p ∈ pointers,
    Head.read (0x8a ||| r.width.opcodeBit) (memoryByte r p) =
      some (.whole .mov [.reg r, .indirect p] 2) := by decide +kernel

theorem read_store : ∀ r ∈ named, ∀ p ∈ pointers,
    Head.read (0x88 ||| r.width.opcodeBit) (memoryByte r p) =
      some (.whole .mov [.indirect p, .reg r] 2) := by decide +kernel

theorem read_aluNumber : ∀ op ∈ AluOp.all, ∀ r ∈ named,
    Head.read (0x80 ||| r.width.opcodeBit) (registerByte op.ext r) =
      some (.number (.alu op) r 2) := by decide +kernel

theorem read_aluMemory : ∀ op ∈ AluOp.all, ∀ r ∈ named, ∀ p ∈ pointers,
    Head.read (op.base ||| 2 ||| r.width.opcodeBit) (memoryByte r p) =
      some (.whole (.alu op) [.reg r, .indirect p] 2) := by decide +kernel

theorem read_aluShort : ∀ op : AluOp, ∀ r ∈ named, r.isAccumulator = true → ∀ c,
    Head.read (op.base ||| 4 ||| r.width.opcodeBit) c = some (.number (.alu op) r 1) := by
  intro op r hr ha c
  rw [isAccumulator, Bool.or_eq_true, beq_iff_eq, beq_iff_eq] at ha
  obtain rfl | rfl := ha
  · cases op <;> rfl
  · cases op <;> rfl

theorem read_countWord : ∀ op : UnaryOp, op.counts = true → ∀ r, .word r ∈ named → ∀ c,
    Head.read (0x40 ||| op.ext <<< 3 ||| (Register.word r).code) c =
      some (.whole (.unary op) [.reg (.word r)] 1) := by
  intro op hc r hr c
  cases op with
  | inc | dec =>
    cases r with
    | ip => exact absurd hr (by decide)
    | _ => rfl
  | not | neg => cases hc

theorem read_countByte : ∀ op ∈ UnaryOp.all, op.counts = true → ∀ r ∈ ByteRegister.all,
    Head.read 0xfe (registerByte op.ext (.byte r)) =
      some (.whole (.unary op) [.reg (.byte r)] 2) := by decide +kernel

theorem read_complement : ∀ op ∈ UnaryOp.all, op.counts = false → ∀ r ∈ named,
    Head.read (0xf6 ||| r.width.opcodeBit) (registerByte op.ext r) =
      some (.whole (.unary op) [.reg r] 2) := by decide +kernel

theorem read_multiply : ∀ r ∈ named,
    Head.read (0xf6 ||| r.width.opcodeBit) (registerByte 4 r) =
      some (.whole .mul [.reg r] 2) := by decide +kernel

theorem read_divide : ∀ r ∈ named,
    Head.read (0xf6 ||| r.width.opcodeBit) (registerByte 6 r) =
      some (.whole .div [.reg r] 2) := by decide +kernel

theorem read_shift : ∀ d ∈ Direction.all, ∀ r ∈ named,
    Head.read (0xd0 ||| r.width.opcodeBit) (registerByte d.ext r) =
      some (.whole (.shift d) [.reg r, .imm 1] 2) := by decide +kernel

end

/-- An opcode tells all of its command but the number. -/
theorem Encodes.read {m : Mnemonic} {ops : List Operand} {enc : Encoding} (h : Encodes m ops enc)
    (hw : ∀ o ∈ ops, o.Written) (hp : isPair ops = false) :
    ∃ head, head.Of m ops enc ∧ ∀ tail, Head.ofBytes (enc.opcode ++ tail) = some head := by
  have hreg {r : Register} (hr : Operand.reg r ∈ ops) : r ∈ Register.named := hw _ hr
  have hptr {p : WordRegister} (ho : Operand.indirect p ∈ ops) : p ∈ pointers :=
    mem_pointers (hw _ ho)
  cases h with
  | moveByte r v hv => exact ⟨_, .number rfl, fun tail => by cases r <;> rfl⟩
  | moveWord r v =>
    exact ⟨_, .number (r := .word r) rfl, fun tail => read_moveWord _ (hreg (.head _)) rfl _⟩
  | load r p =>
    exact ⟨_, .whole rfl rfl, fun tail => read_load r (hreg (.head _)) p (hptr (.tail _ (.head _)))⟩
  | store p r =>
    exact ⟨_, .whole rfl rfl, fun tail => read_store r (hreg (.tail _ (.head _))) p (hptr (.head _))⟩
  | movePair r q => cases hp
  | aluShort op r v hv ha =>
    exact ⟨_, .number rfl, fun tail => read_aluShort op r (hreg (.head _)) ha _⟩
  | aluNumber op r v hv ha =>
    exact ⟨_, .number rfl, fun tail => read_aluNumber op op.mem_all r (hreg (.head _))⟩
  | aluMemory op r p hm =>
    exact ⟨_, .whole rfl rfl, fun tail =>
      read_aluMemory op op.mem_all r (hreg (.head _)) p (hptr (.tail _ (.head _)))⟩
  | aluPair op r q => cases hp
  | countWord op r hc =>
    exact ⟨_, .whole rfl rfl, fun tail => read_countWord op hc r (hreg (.head _)) _⟩
  | countByte op r hc =>
    exact ⟨_, .whole rfl rfl, fun tail => read_countByte op op.mem_all hc r r.mem_all⟩
  | complement op r hc =>
    exact ⟨_, .whole rfl rfl, fun tail => read_complement op op.mem_all hc r (hreg (.head _))⟩
  | multiply r => exact ⟨_, .whole rfl rfl, fun tail => read_multiply r (hreg (.head _))⟩
  | divide r => exact ⟨_, .whole rfl rfl, fun tail => read_divide r (hreg (.head _))⟩
  | shift d r =>
    exact ⟨_, .whole rfl (by cases r <;> rfl), fun tail =>
      read_shift d d.mem_all r (hreg (.head _))⟩
  | clearCarry => exact ⟨_, .whole rfl rfl, fun tail => rfl⟩
  | halt => exact ⟨_, .whole rfl rfl, fun tail => rfl⟩
  | nothing => exact ⟨_, .whole rfl rfl, fun tail => rfl⟩
  | branchName b name => exact ⟨_, .branch, fun tail => by cases b <;> rfl⟩
  | branchAddress b a => exact ⟨_, .branch, fun tail => by cases b <;> rfl⟩

/-! ## instructions are read back -/

theorem numberAt_numberBytes (v : Word) (r : Register) (tail : List Byte) :
    numberAt (Instruction.numberBytes v.toNat r.width.bytes ++ tail) r.width = cutTo r.width v := by
  cases r with
  | byte r =>
    show (BitVec.ofNat 8 v.toNat).setWidth 16 = (v.setWidth 8).setWidth 16
    rw [BitVec.ofNat_toNat]
  | word r =>
    show BitVec.ofNat 8 (v.toNat / 0x100) ++ BitVec.ofNat 8 v.toNat = (v.setWidth 16).setWidth 16
    apply BitVec.eq_of_toNat_eq
    have hv := v.isLt
    rw [toNat_append_eq, BitVec.toNat_ofNat, BitVec.toNat_ofNat, BitVec.setWidth_eq,
      BitVec.setWidth_eq]
    omega

/-- The bytes of an assembled instruction, and any bytes after them, tell what it says and how long
it is. -/
theorem decode_code {labels : List Label} {i : Instruction} (h : i.Assembled labels)
    (hr : i.InReach) (hp : isPair i.operands = false) (tail : List Byte) :
    decode i.address (i.code ++ tail) = some (i.plain, i.length) := by
  obtain ⟨imm, he, hres⟩ := h.encodes
  obtain ⟨head, hof, hread⟩ := he.read h.written hp
  change ∀ tail, Head.ofBytes (i.opcode ++ tail) = some head at hread
  unfold decode Instruction.code Instruction.plain
  generalize henc : (⟨i.opcode, i.length, imm⟩ : Encoding) = enc at hof
  generalize hm : i.mnemonic = m at hof
  generalize i.operands = ops at hof
  cases hof with
  | @whole m ops opcode hb hc =>
    obtain ⟨rfl, hl, rfl⟩ := Encoding.mk.inj henc
    generalize hi : i.imm = after at hres
    cases hres
    have ht := target?_of_not_isBranch (hm ▸ hb)
    rw [emit?_plain hi, Option.getD_some, hread, ht, hl, hb, if_neg Bool.false_ne_true, hc,
      Mnemonic.plain_of_not_isBranch hb]
    rfl
  | @number m r v opcode hb =>
    obtain ⟨rfl, hl, rfl⟩ := Encoding.mk.inj henc
    generalize hi : i.imm = after at hres
    cases hres
    have ht := target?_of_not_isBranch (hm ▸ hb)
    rw [emit?_number (hm ▸ hb) hi hl, Option.getD_some, List.append_assoc, hread, ht, hl, hb,
      if_neg Bool.false_ne_true, Mnemonic.plain_of_not_isBranch hb, Option.map_some]
    dsimp only
    rw [List.drop_left, numberAt_numberBytes]
    rfl
  | @branch b ops before =>
    obtain ⟨ho, hl, rfl⟩ := Encoding.mk.inj henc
    obtain ⟨t, hi⟩ := hres.value_of_some
    have hd := hr _ (displacement?_of_branch hm hi)
    rw [emit?_branch hm hi, Option.getD_some, List.append_assoc, hread, target?_of_branch hm hi, hl,
      ho, Option.map_some]
    have hn : i.nextAddress = i.address + 2 := by rw [Instruction.nextAddress, hl]
    have ht : ((i.address : Int) + 2 +
        (BitVec.ofInt 8 ((t : Int) - i.nextAddress)).toInt).toNat = t := by
      rw [toInt_ofInt_of_inReach hd, hn]
      omega
    exact congrArg (fun t => some ((⟨.branch b.plain, [], some t⟩ : Plain), 2)) ht

/-! ## programs are read back -/

/-- Two instructions at one address that say the same and have the same bytes. -/
structure Instruction.SameAs (i j : Instruction) : Prop where
  address : i.address = j.address
  length : i.length = j.length
  plain : i.plain = j.plain
  code : i.code = j.code

/-- an instruction that its bytes tell -/
structure Instruction.Readable (i : Instruction) : Prop where
  assembled : ∃ labels, i.Assembled labels
  inReach : i.InReach
  not_pair : isPair i.operands = false

theorem Instruction.Readable.code_ne_nil {i : Instruction} (h : i.Readable) : i.code ≠ [] := by
  obtain ⟨labels, ha⟩ := h.assembled
  have hl := ha.length_pos
  rw [← ha.emit?.2] at hl
  exact List.ne_nil_of_length_pos hl

theorem sameAs_of_code_append_eq {i j : Instruction} (hi : i.Readable) (hj : j.Readable)
    (ha : i.address = j.address) {rest rest' : List Byte}
    (h : i.code ++ rest = j.code ++ rest') : i.SameAs j ∧ rest = rest' := by
  obtain ⟨labels, hia⟩ := hi.assembled
  obtain ⟨labels', hja⟩ := hj.assembled
  have hd := decode_code hia hi.inReach hi.not_pair rest
  rw [h, ha, decode_code hja hj.inReach hj.not_pair rest'] at hd
  obtain ⟨hp, hl⟩ := Prod.mk.inj (Option.some.inj hd)
  have hlen : i.code.length = j.code.length := by
    rw [hia.emit?.2, hja.emit?.2, hl]
  obtain ⟨hc, hrest⟩ := List.append_inj h hlen
  exact ⟨⟨ha, hl.symm, hp.symm, hc⟩, hrest⟩

/-- Instructions laid out from one address with the same bytes are the same one by one. -/
theorem sameAs_of_code_eq {a : Address} {is js : List Instruction} (hi : Contiguous a is)
    (hj : Contiguous a js) (hri : ∀ i ∈ is, i.Readable) (hrj : ∀ j ∈ js, j.Readable)
    (h : is.flatMap Instruction.code = js.flatMap Instruction.code) :
    List.Forall₂ Instruction.SameAs is js := by
  induction is generalizing a js with
  | nil =>
    cases js with
    | nil => exact .nil
    | cons j js =>
      rw [List.flatMap_nil, List.flatMap_cons] at h
      exact absurd (List.append_eq_nil_iff.mp h.symm).1 (hrj j List.mem_cons_self).code_ne_nil
  | cons i is ih =>
    cases js with
    | nil =>
      rw [List.flatMap_nil, List.flatMap_cons] at h
      exact absurd (List.append_eq_nil_iff.mp h).1 (hri i List.mem_cons_self).code_ne_nil
    | cons j js =>
      rw [List.flatMap_cons, List.flatMap_cons] at h
      obtain ⟨hia, hi⟩ := hi
      obtain ⟨hja, hj⟩ := hj
      obtain ⟨hs, hrest⟩ := sameAs_of_code_append_eq (hri i List.mem_cons_self)
        (hrj j List.mem_cons_self) (hia.trans hja.symm) h
      rw [← hs.length] at hj
      exact .cons hs (ih hi hj (fun k hk => hri k (List.mem_cons_of_mem _ hk))
        (fun k hk => hrj k (List.mem_cons_of_mem _ hk)) hrest)

end Mini8086
