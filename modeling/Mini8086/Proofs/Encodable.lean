import Mathlib.Algebra.Order.Ring.Nat
import Mathlib.Data.List.Forall2
import Mini8086.Encoding

/-!
# Commands that have an encoding

`Encodes m ops enc` lists the operand shapes that `encode` accepts, each with its encoding, so that
a proof about encodings is one case for each shape:

* `encode_eq_ok`     `encode` gives exactly the encodings of `Encodes`;
* `Encodes.kind`     an encoding is its opcode alone, an opcode with a number of the width of the
                     first operand after it, or the opcode of a branch with its displacement;
* `Encodes.length_pos`, `Encodes.length_le`   an instruction has one to four bytes.

The first section says when a computation with errors succeeds, which error it has if not, and how a
change of its result goes through it (`mapBoth`).
-/

namespace Mini8086

/-! ## results without an error -/

section
variable {ε ε' α β : Type}

theorem bind_eq_ok {x : Except ε α} {f : α → Except ε β} {b : β} :
    x >>= f = .ok b ↔ ∃ a, x = .ok a ∧ f a = .ok b := by
  cases x <;> simp [bind, Except.bind]

theorem bind_eq_error {x : Except ε α} {f : α → Except ε β} {e : ε} :
    x >>= f = .error e ↔ x = .error e ∨ ∃ a, x = .ok a ∧ f a = .error e := by
  cases x <;> simp [bind, Except.bind]

theorem map_eq_ok {x : Except ε α} {f : α → β} {b : β} :
    x.map f = .ok b ↔ ∃ a, x = .ok a ∧ f a = b := by
  cases x <;> simp [Except.map]

theorem map_eq_error {x : Except ε α} {f : α → β} {e : ε} : x.map f = .error e ↔ x = .error e := by
  cases x <;> simp [Except.map]

theorem mapError_eq_ok {x : Except ε α} {f : ε → ε'} {a : α} :
    x.mapError f = .ok a ↔ x = .ok a := by
  cases x <;> simp [Except.mapError]

theorem mapError_map {x : Except ε α} {f : α → β} {e : ε → ε'} :
    (x.map f).mapError e = (x.mapError e).map f := by
  cases x <;> rfl

theorem mapError_bind {x : Except ε α} {f : α → Except ε β} {e : ε → ε'} :
    (x >>= f).mapError e = x.mapError e >>= fun a => (f a).mapError e := by
  cases x <;> rfl

theorem mapM_eq_ok {f : α → Except ε β} {l : List α} {r : List β} :
    l.mapM f = .ok r ↔ List.Forall₂ (fun a b => f a = .ok b) l r := by
  induction l generalizing r with
  | nil =>
    rw [List.mapM_nil, List.forall₂_nil_left_iff]
    exact ⟨fun h => (Except.ok.inj h).symm, fun h => h ▸ rfl⟩
  | cons a l ih =>
    rw [List.mapM_cons, List.forall₂_cons_left_iff]
    constructor
    · intro h
      obtain ⟨b, hb, h⟩ := bind_eq_ok.mp h
      obtain ⟨bs, hbs, h⟩ := bind_eq_ok.mp h
      exact ⟨b, bs, hb, ih.mp hbs, (Except.ok.inj h).symm⟩
    · rintro ⟨b, bs, hb, hbs, rfl⟩
      exact bind_eq_ok.mpr ⟨b, hb, bind_eq_ok.mpr ⟨bs, ih.mpr hbs, rfl⟩⟩

theorem mapM_mapError {l : List α} {f : α → Except ε β} {g : α → Except ε' β} {e : ε → ε'}
    (h : ∀ a ∈ l, g a = (f a).mapError e) : l.mapM g = (l.mapM f).mapError e := by
  induction l with
  | nil => rfl
  | cons a l ih =>
    rw [List.mapM_cons, List.mapM_cons, mapError_bind, h a List.mem_cons_self,
      ih fun b hb => h b (List.mem_cons_of_mem _ hb)]
    congr 1
    funext b
    rw [mapError_bind]
    rfl

theorem exists_mapM_eq_ok {f : α → Except ε β} {l : List α} (h : ∀ a ∈ l, ∃ b, f a = .ok b) :
    ∃ r, l.mapM f = .ok r := by
  induction l with
  | nil => exact ⟨[], rfl⟩
  | cons a l ih =>
    obtain ⟨b, hb⟩ := h a List.mem_cons_self
    obtain ⟨r, hr⟩ := ih fun c hc => h c (List.mem_cons_of_mem _ hc)
    exact ⟨b :: r, mapM_eq_ok.mpr (.cons hb (mapM_eq_ok.mp hr))⟩

theorem mapM_cons_eq_error {f : α → Except ε β} {a : α} {l : List α} {e : ε} :
    (a :: l).mapM f = .error e ↔
      f a = .error e ∨ (∃ b, f a = .ok b) ∧ l.mapM f = .error e := by
  rw [List.mapM_cons, bind_eq_error]
  refine or_congr_right ⟨?_, ?_⟩
  · rintro ⟨b, hb, h⟩
    obtain h | ⟨bs, -, h⟩ := bind_eq_error.mp h
    · exact ⟨⟨b, hb⟩, h⟩
    · cases h
  · rintro ⟨⟨b, hb⟩, h⟩
    exact ⟨b, hb, bind_eq_error.mpr (.inl h)⟩

/-- The error of a list is that of its first element that has one. -/
theorem mapM_eq_error {f : α → Except ε β} {l : List α} {e : ε} :
    l.mapM f = .error e ↔ ∃ upper a lower, l = upper ++ a :: lower ∧
      (∀ b ∈ upper, ∃ c, f b = .ok c) ∧ f a = .error e := by
  induction l with
  | nil =>
    refine ⟨(nomatch ·), ?_⟩
    rintro ⟨upper, a, lower, h, -⟩
    cases upper <;> cases h
  | cons a l ih =>
    rw [mapM_cons_eq_error, ih]
    constructor
    · rintro (ha | ⟨hok, upper, b, lower, rfl, hup, hb⟩)
      · exact ⟨[], a, l, rfl, fun b hb => absurd hb List.not_mem_nil, ha⟩
      · exact ⟨a :: upper, b, lower, rfl, List.forall_mem_cons.mpr ⟨hok, hup⟩, hb⟩
    · rintro ⟨upper, b, lower, hl, hup, hb⟩
      cases upper with
      | nil =>
        cases hl
        exact .inl hb
      | cons c upper =>
        cases hl
        obtain ⟨hok, hup⟩ := List.forall_mem_cons.mp hup
        exact .inr ⟨hok, upper, b, lower, rfl, hup, hb⟩

end

section
variable {ε ε' α α' β β' : Type} {e : ε → ε'}

/-- the result with its value and its error changed -/
def mapBoth (e : ε → ε') (f : α → β) (x : Except ε α) : Except ε' β := (x.map f).mapError e

theorem mapBoth_eq_ok {f : α → β} {x : Except ε α} {b : β} :
    mapBoth e f x = .ok b ↔ ∃ a, x = .ok a ∧ f a = b :=
  mapError_eq_ok.trans map_eq_ok

theorem mapBoth_eq_error {f : α → β} {x : Except ε α} {err : ε'} :
    mapBoth e f x = .error err ↔ ∃ u, x = .error u ∧ e u = err := by
  cases x <;> simp [mapBoth, Except.map, Except.mapError]

/-- Two computations one after the other are changed one after the other. -/
theorem mapBoth_bind {x : Except ε α} {f : α → α'} {g : β → β'} {u : α' → Except ε' β'}
    {w : α → Except ε β} (h : ∀ a, x = .ok a → u (f a) = mapBoth e g (w a)) :
    mapBoth e f x >>= u = mapBoth e g (x >>= w) := by
  cases x with
  | error err => rfl
  | ok a => exact h a rfl

theorem mapM_mapBoth {l : List α} {r : α → α'} {g : β → β'} {u : α' → Except ε' β'}
    {w : α → Except ε β} (h : ∀ a ∈ l, u (r a) = mapBoth e g (w a)) :
    (l.map r).mapM u = mapBoth e (List.map g) (l.mapM w) := by
  induction l with
  | nil => rfl
  | cons a l ih =>
    obtain ⟨ha, hl⟩ := List.forall_mem_cons.mp h
    rw [List.map_cons, List.mapM_cons, List.mapM_cons, ha, ih hl]
    exact mapBoth_bind fun b _ => mapBoth_bind fun bs _ => rfl

end

/-! ## the shapes -/

/-- the three bits of the operation in its second opcode byte -/
def UnaryOp.ext : UnaryOp → Byte
  | .inc => 0
  | .dec => 1
  | .not => 2
  | .neg => 3

/-- whether the operation counts, and so has short opcodes for words -/
def UnaryOp.counts : UnaryOp → Bool
  | .inc | .dec => true
  | .not | .neg => false

/-- The operands that each mnemonic takes, with the encoding of the command. -/
inductive Encodes : Mnemonic → List Operand → Encoding → Prop
  | moveByte (r : ByteRegister) (v : Word) (hv : Width.byte.fits v = true) :
      Encodes .mov [.reg (.byte r), .imm v] (.withNumber [0xb0 ||| (Register.byte r).code] v .byte)
  | moveWord (r : WordRegister) (v : Word) :
      Encodes .mov [.reg (.word r), .imm v] (.withNumber [0xb8 ||| (Register.word r).code] v .word)
  | load (r : Register) (p : WordRegister) :
      Encodes .mov [.reg r, .indirect p] (.plain [0x8a ||| r.width.opcodeBit, memoryByte r p])
  | store (p : WordRegister) (r : Register) :
      Encodes .mov [.indirect p, .reg r] (.plain [0x88 ||| r.width.opcodeBit, memoryByte r p])
  | movePair (r q : Register) (hw : r.width = q.width) :
      Encodes .mov [.reg r, .reg q] (.plain [0x88 ||| r.width.opcodeBit, 0xc0])
  | aluShort (op : AluOp) (r : Register) (v : Word) (hv : r.width.fits v = true)
      (ha : r.isAccumulator = true) :
      Encodes (.alu op) [.reg r, .imm v]
        (.withNumber [op.base ||| 4 ||| r.width.opcodeBit] v r.width)
  | aluNumber (op : AluOp) (r : Register) (v : Word) (hv : r.width.fits v = true)
      (ha : r.isAccumulator = false) :
      Encodes (.alu op) [.reg r, .imm v]
        (.withNumber [0x80 ||| r.width.opcodeBit, registerByte op.ext r] v r.width)
  | aluMemory (op : AluOp) (r : Register) (p : WordRegister) (hm : op.readsMemory = true) :
      Encodes (.alu op) [.reg r, .indirect p]
        (.plain [op.base ||| 2 ||| r.width.opcodeBit, memoryByte r p])
  | aluPair (op : AluOp) (r q : Register) (hw : r.width = q.width) :
      Encodes (.alu op) [.reg r, .reg q]
        (.plain [op.base ||| r.width.opcodeBit, op.registersByte])
  | countWord (op : UnaryOp) (r : WordRegister) (hc : op.counts = true) :
      Encodes (.unary op) [.reg (.word r)]
        (.plain [0x40 ||| op.ext <<< 3 ||| (Register.word r).code])
  | countByte (op : UnaryOp) (r : ByteRegister) (hc : op.counts = true) :
      Encodes (.unary op) [.reg (.byte r)] (.plain [0xfe, registerByte op.ext (.byte r)])
  | complement (op : UnaryOp) (r : Register) (hc : op.counts = false) :
      Encodes (.unary op) [.reg r] (.plain [0xf6 ||| r.width.opcodeBit, registerByte op.ext r])
  | multiply (r : Register) :
      Encodes .mul [.reg r] (.plain [0xf6 ||| r.width.opcodeBit, registerByte 4 r])
  | divide (r : Register) :
      Encodes .div [.reg r] (.plain [0xf6 ||| r.width.opcodeBit, registerByte 6 r])
  | shift (d : Direction) (r : Register) :
      Encodes (.shift d) [.reg r, .imm 1]
        (.plain [0xd0 ||| r.width.opcodeBit, registerByte d.ext r])
  | clearCarry : Encodes .clc [] (.plain [0xf8])
  | halt : Encodes .hlt [] (.plain [0xf4])
  | nothing : Encodes .nop [] (.plain [0x90])
  | branchName (b : Branch) (name : Text) :
      Encodes (.branch b) [.label name] ⟨[b.opcode], 2, some (.name name)⟩
  | branchAddress (b : Branch) (a : Address) :
      Encodes (.branch b) [.addr a] ⟨[b.opcode], 2, some (.value a)⟩

/-! ## encoding a command gives its shape -/

theorem encodeMove_eq_ok {ops : List Operand} {enc : Encoding} (h : encodeMove ops = .ok enc) :
    Encodes .mov ops enc := by
  unfold encodeMove at h
  split at h
  · next dst v =>
    split at h
    · contradiction
    · next hv =>
      rw [Bool.not_eq_true, Bool.not_eq_false'] at hv
      cases dst with
      | byte r =>
        cases h
        exact .moveByte r v hv
      | word r =>
        cases h
        exact .moveWord r v
  · cases h
    exact .load ..
  · cases h
    exact .store ..
  · split at h
    · next hw =>
      cases h
      exact .movePair _ _ hw
    · contradiction
  · contradiction

theorem AluOp.encode_eq_ok {op : AluOp} {ops : List Operand} {enc : Encoding}
    (h : op.encode ops = .ok enc) : Encodes (.alu op) ops enc := by
  unfold AluOp.encode at h
  split at h
  · split at h
    · contradiction
    · next hv =>
      rw [Bool.not_eq_true, Bool.not_eq_false'] at hv
      split at h
      · next ha =>
        cases h
        exact .aluShort op _ _ hv ha
      · next ha =>
        cases h
        exact .aluNumber op _ _ hv (Bool.eq_false_iff.mpr ha)
  · split at h
    · next hm =>
      cases h
      exact .aluMemory op _ _ hm
    · contradiction
  · split at h
    · next hw =>
      cases h
      exact .aluPair op _ _ hw
    · contradiction
  · contradiction

theorem encodeSingle_eq_ok {ext : Byte} {ops : List Operand} {enc : Encoding}
    (h : encodeSingle ext ops = .ok enc) :
    ∃ r, ops = [.reg r] ∧ enc = .plain [0xf6 ||| r.width.opcodeBit, registerByte ext r] := by
  unfold encodeSingle at h
  split at h
  · next r => exact ⟨r, rfl, (Except.ok.inj h).symm⟩
  · contradiction

theorem UnaryOp.encodeCount_eq_ok (op : UnaryOp) (hc : op.counts = true) {ops : List Operand}
    {enc : Encoding} (h : encodeCount op.ext ops = .ok enc) : Encodes (.unary op) ops enc := by
  unfold encodeCount at h
  split at h
  · cases h
    exact .countWord op _ hc
  · cases h
    exact .countByte op _ hc
  · contradiction

theorem UnaryOp.encode_eq_ok {op : UnaryOp} {ops : List Operand} {enc : Encoding}
    (h : op.encode ops = .ok enc) : Encodes (.unary op) ops enc := by
  cases op with
  | inc => exact UnaryOp.encodeCount_eq_ok .inc rfl h
  | dec => exact UnaryOp.encodeCount_eq_ok .dec rfl h
  | not =>
    obtain ⟨r, rfl, rfl⟩ := encodeSingle_eq_ok h
    exact .complement .not r rfl
  | neg =>
    obtain ⟨r, rfl, rfl⟩ := encodeSingle_eq_ok h
    exact .complement .neg r rfl

theorem Direction.encode_eq_ok {d : Direction} {ops : List Operand} {enc : Encoding}
    (h : d.encode ops = .ok enc) : Encodes (.shift d) ops enc := by
  unfold Direction.encode at h
  split at h
  · split at h
    · next hc =>
      subst hc
      cases h
      exact .shift d _
    · contradiction
  · contradiction

theorem Branch.encode_eq_ok {b : Branch} {ops : List Operand} {enc : Encoding}
    (h : b.encode ops = .ok enc) : Encodes (.branch b) ops enc := by
  unfold Branch.encode at h
  split at h
  · cases h
    exact .branchName b _
  · cases h
    exact .branchAddress b _
  · contradiction

theorem encodeBare_eq_ok {opcode : Byte} {ops : List Operand} {enc : Encoding}
    (h : encodeBare opcode ops = .ok enc) : ops = [] ∧ enc = .plain [opcode] := by
  unfold encodeBare at h
  split at h
  · exact ⟨rfl, (Except.ok.inj h).symm⟩
  · contradiction

theorem Encodes.of_encode {m : Mnemonic} {ops : List Operand} {enc : Encoding}
    (h : encode m ops = .ok enc) : Encodes m ops enc := by
  cases m with
  | mov => exact encodeMove_eq_ok h
  | alu op => exact op.encode_eq_ok h
  | unary op => exact op.encode_eq_ok h
  | mul =>
    obtain ⟨r, rfl, rfl⟩ := encodeSingle_eq_ok h
    exact .multiply r
  | div =>
    obtain ⟨r, rfl, rfl⟩ := encodeSingle_eq_ok h
    exact .divide r
  | shift d => exact d.encode_eq_ok h
  | clc =>
    obtain ⟨rfl, rfl⟩ := encodeBare_eq_ok h
    exact .clearCarry
  | hlt =>
    obtain ⟨rfl, rfl⟩ := encodeBare_eq_ok h
    exact .halt
  | nop =>
    obtain ⟨rfl, rfl⟩ := encodeBare_eq_ok h
    exact .nothing
  | branch b => exact b.encode_eq_ok h

/-- `encode` gives exactly the encodings of the listed shapes. -/
theorem encode_eq_ok {m : Mnemonic} {ops : List Operand} {enc : Encoding} :
    encode m ops = .ok enc ↔ Encodes m ops enc := by
  refine ⟨Encodes.of_encode, fun h => ?_⟩
  cases h with
  | moveByte r v hv => simp [encode, encodeMove, Register.width, hv]
  | moveWord r v => simp [encode, encodeMove, Register.width, Width.fits, Width.bits, v.isLt]
  | movePair r q hw => simp [encode, encodeMove, hw]
  | aluShort op r v hv ha => simp [encode, AluOp.encode, hv, ha]
  | aluNumber op r v hv ha => simp [encode, AluOp.encode, hv, ha]
  | aluMemory op r p hm => simp [encode, AluOp.encode, hm]
  | aluPair op r q hw => simp [encode, AluOp.encode, hw]
  | countWord op r hc =>
    cases op with
    | inc | dec => rfl
    | not | neg => contradiction
  | countByte op r hc =>
    cases op with
    | inc | dec => rfl
    | not | neg => contradiction
  | complement op r hc =>
    cases op with
    | inc | dec => contradiction
    | not | neg => rfl
  | _ => rfl

/-! ## lengths -/

/-- What follows the opcode of an encoding: nothing, a number, or the displacement of a branch. -/
inductive Encoding.Kind (m : Mnemonic) : Encoding → Prop
  | plain (opcode : List Byte) (hm : m.isBranch = false) : Kind m (.plain opcode)
  | number (opcode : List Byte) (v : Word) (r : Register) (hm : m.isBranch = false) :
      Kind m (.withNumber opcode v r.width)
  | branch (b : Branch) (imm : Immediate) (hm : m = .branch b) :
      Kind m ⟨[b.opcode], 2, some imm⟩

theorem Encodes.kind {m : Mnemonic} {ops : List Operand} {enc : Encoding} (h : Encodes m ops enc) :
    enc.Kind m := by
  cases h with
  | moveByte r v hv => exact .number _ v (.byte r) rfl
  | moveWord r v => exact .number _ v (.word r) rfl
  | aluShort op r v hv ha => exact .number _ v r rfl
  | aluNumber op r v hv ha => exact .number _ v r rfl
  | branchName b name => exact .branch b _ rfl
  | branchAddress b a => exact .branch b _ rfl
  | _ => exact .plain _ rfl

/-- an opcode has one or two bytes -/
theorem Encodes.opcode_length {m : Mnemonic} {ops : List Operand} {enc : Encoding}
    (h : Encodes m ops enc) : enc.opcode.length = 1 ∨ enc.opcode.length = 2 := by
  cases h <;> simp [Encoding.plain, Encoding.withNumber]

theorem Register.width_bytes (r : Register) : r.width.bytes = 1 ∨ r.width.bytes = 2 := by
  cases r with
  | word r => exact .inr rfl
  | byte r => exact .inl rfl

theorem Encodes.opcode_length_le {m : Mnemonic} {ops : List Operand} {enc : Encoding}
    (h : Encodes m ops enc) : enc.opcode.length ≤ enc.length := by
  cases h.kind with
  | plain opcode hm => exact Nat.le_refl _
  | number opcode v r hm => exact Nat.le_add_right _ _
  | branch b imm hm => exact Nat.le_succ 1

theorem Encodes.length_pos {m : Mnemonic} {ops : List Operand} {enc : Encoding}
    (h : Encodes m ops enc) : 1 ≤ enc.length := by
  have h1 := h.opcode_length
  have h2 := h.opcode_length_le
  omega

theorem Encodes.length_le {m : Mnemonic} {ops : List Operand} {enc : Encoding}
    (h : Encodes m ops enc) : enc.length ≤ 4 := by
  have h1 := h.opcode_length
  cases h.kind with
  | plain opcode hm =>
    change opcode.length = 1 ∨ opcode.length = 2 at h1
    show opcode.length ≤ 4
    omega
  | number opcode v r hm =>
    change opcode.length = 1 ∨ opcode.length = 2 at h1
    show opcode.length + r.width.bytes ≤ 4
    have h2 := r.width_bytes
    omega
  | branch b imm hm =>
    show 2 ≤ 4
    omega

end Mini8086
