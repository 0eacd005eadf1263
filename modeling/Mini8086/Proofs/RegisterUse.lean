import Mini8086.Proofs.Footprint

/-!
# Registers that are not used

`Operation.registers` lists the registers that an operation reads or writes.  Any other register may
as well be set before the operation as after it.  No assembled instruction uses `IP`, which is why
it does not matter to them where they are.

* `Operation.exec_setWord`            an operation that spares a register;
* `Instruction.Assembled.spares_ip`   every assembled instruction spares `IP`;
* `carryOut_setWord`                  instructions carried out one after the other.
-/

namespace Mini8086

/-! ## what is used -/

def Place.registers : Place → List Register
  | .reg r => [r]
  | .mem p => [.word p]

def Source.registers : Source → List Register
  | .reg r => [r]
  | .mem p => [.word p]
  | .imm _ => []

/-- the registers that an operation reads or writes -/
def Operation.registers : Operation → List Register
  | .move dst src => dst.registers ++ src.registers
  | .alu _ dst src => dst :: src.registers
  | .unary _ r | .shift _ r => [r]
  | .multiply r => r :: productRegisters r
  | .divide r => r :: .word .ax :: quotientRegisters r
  | .loop _ => [.word .cx]
  | .clearCarry | .nothing | .halt | .jump _ _ => []

/-- The operation uses no part of the word register. -/
def Operation.Spares (q : WordRegister) (op : Operation) : Prop :=
  ∀ r ∈ op.registers, r.Apart (.word q)

def Instruction.Spares (q : WordRegister) (i : Instruction) : Prop :=
  ∀ op, i.operation? = some op → op.Spares q

/-! ## setting a register that is not used -/

theorem Registers.setWord_comm (s : Registers) {r q : WordRegister} (h : r ≠ q) (v w : Word) :
    (s.setWord q v).setWord r w = (s.setWord r w).setWord q v := by
  cases r <;> cases q <;> first | rfl | exact absurd rfl h

@[simp] theorem Registers.setWord_setWord (s : Registers) (q : WordRegister) (v w : Word) :
    (s.setWord q v).setWord q w = s.setWord q w := by
  cases q <;> rfl

theorem Registers.set_setWord (s : Registers) {r : Register} {q : WordRegister}
    (h : r.Apart (.word q)) (v : Word) (x : BitVec r.width.bits) :
    (s.setWord q v).set r x = (s.set r x).setWord q v := by
  cases r with
  | word r => exact s.setWord_comm h v x
  | byte r =>
    -- the other half of the owner is written back
    show (s.setWord q v).setWord r.owner (withHalf _ ((s.setWord q v).getWord r.owner) _) = _
    rw [getWord_setWord, if_neg h]
    exact s.setWord_comm h v _

namespace State

def setWord (s : State) (q : WordRegister) (v : Word) : State :=
  { s with cpu := s.cpu.setWord q v }

section
variable (s : State) {r : Register} {q : WordRegister} (hr : r.Apart (.word q)) (v : Word)

theorem setWord_setWord (v w : Word) : (s.setWord q v).setWord q w = s.setWord q w := by
  simp [setWord, Cpu.setWord]

theorem setWord_comm {r q : WordRegister} (h : r ≠ q) (v w : Word) :
    (s.setWord q v).setWord r w = (s.setWord r w).setWord q v := by
  unfold setWord Cpu.setWord
  rw [Registers.setWord_comm _ h]

theorem getWord_setWord_of_ne {r q : WordRegister} (h : r ≠ q) :
    (s.setWord q v).cpu.registers.getWord r = s.cpu.registers.getWord r := by
  simp [setWord, Cpu.setWord, h]

@[simp] theorem getWord_setWord_self :
    (s.setWord q v).cpu.registers.getWord q = v := by
  simp [setWord, Cpu.setWord]

include hr

theorem get_setWord : (s.setWord q v).cpu.get r = s.cpu.get r :=
  s.cpu.registers.get_setWord_of_apart hr v

theorem set_setWord (x : BitVec r.width.bits) :
    { s.setWord q v with cpu := (s.setWord q v).cpu.set r x } =
      State.setWord { s with cpu := s.cpu.set r x } q v := by
  unfold setWord Cpu.setWord Cpu.set
  dsimp only
  rw [Registers.set_setWord _ hr]

theorem setResult_setWord (x : BitVec r.width.bits) (f : Flags) :
    (s.setWord q v).setResult r x f = (s.setResult r x f).setWord q v :=
  congrArg (State.setFlags · f) (s.set_setWord hr v x)

end

theorem value_setWord (s : State) {src : Source} {q : WordRegister}
    (h : ∀ r ∈ src.registers, r.Apart (.word q)) (v : Word) (w : Width) :
    (s.setWord q v).value w src = s.value w src := by
  cases src with
  | reg r => exact congrArg (BitVec.setWidth w.bits) (s.get_setWord (h r List.mem_cons_self) v)
  | mem p =>
    have hp : p ≠ q := h (.word p) List.mem_cons_self
    unfold value pointee
    dsimp only
    rw [getWord_setWord_of_ne s v hp]
    rfl
  | imm x => rfl

theorem put_setWord (s : State) {dst : Place} {q : WordRegister}
    (h : ∀ r ∈ dst.registers, r.Apart (.word q)) (v : Word) (w : Width) (x : BitVec w.bits) :
    (s.setWord q v).put w x dst = (s.put w x dst).setWord q v := by
  cases dst with
  | reg r => exact s.set_setWord (h r List.mem_cons_self) v _
  | mem p =>
    have hp : p ≠ q := h (.word p) List.mem_cons_self
    unfold put pointee
    dsimp only
    rw [getWord_setWord_of_ne s v hp]
    rfl

theorem multiply_setWord (s : State) {r : Register} {q : WordRegister}
    (h : ∀ p ∈ r :: productRegisters r, p.Apart (.word q)) (v : Word) :
    (s.setWord q v).multiply r = (s.multiply r).setWord q v := by
  cases r with
  | byte r =>
    have hr : (Register.byte r).Apart (.word q) := h _ List.mem_cons_self
    have hax : WordRegister.ax ≠ q := h (.word .ax) (.tail _ (.head _))
    have hm (t : State) : t.multiply (.byte r) =
        let p : Word := product (t.cpu.registers.getByte .al) (t.cpu.registers.getByte r)
        t.setResult (.word .ax) p (t.cpu.flags.after p) := rfl
    have hal : (s.setWord q v).cpu.registers.getByte .al = s.cpu.registers.getByte .al :=
      s.get_setWord (r := .byte .al) hax v
    have hb : (s.setWord q v).cpu.registers.getByte r = s.cpu.registers.getByte r :=
      s.get_setWord hr v
    rw [hm, hm, hal, hb]
    exact s.setResult_setWord (r := .word .ax) hax v _ _
  | word r =>
    have hr : (Register.word r).Apart (.word q) := h _ List.mem_cons_self
    have hdx : WordRegister.dx ≠ q := h (.word .dx) (.tail _ (.head _))
    have hax : WordRegister.ax ≠ q := h (.word .ax) (.tail _ (.tail _ (.head _)))
    have hm (t : State) : t.multiply (.word r) =
        let p : BitVec 32 := product (t.cpu.registers.getWord .ax) (t.cpu.registers.getWord r)
        (t.setWord .ax (p.setWidth 16)).setResult (.word .dx) (p.extractLsb' 16 16)
          (t.cpu.flags.after p) := rfl
    rw [hm, hm, s.getWord_setWord_of_ne v hax, s.getWord_setWord_of_ne v hr]
    dsimp only
    rw [s.setWord_comm hax]
    exact State.setResult_setWord _ (r := .word .dx) hdx v _ _

theorem divide_setWord (s : State) {r : Register} {q : WordRegister}
    (h : ∀ p ∈ r :: .word .ax :: quotientRegisters r, p.Apart (.word q)) (v : Word) (a : Address) :
    (s.setWord q v).divide a r = (s.divide a r).map fun t => t.setWord q v := by
  cases r with
  | byte r =>
    have hr : (Register.byte r).Apart (.word q) := h _ List.mem_cons_self
    have hax : WordRegister.ax ≠ q := h (.word .ax) (.tail _ (.head _))
    have hquotient : quotient a ((s.setWord q v).cpu.registers.getWord .ax)
        ((s.setWord q v).cpu.registers.getByte r) =
          quotient a (s.cpu.registers.getWord .ax) (s.cpu.registers.getByte r) :=
      congrArg₂ (quotient a) (s.get_setWord (r := .word .ax) hax v) (s.get_setWord hr v)
    unfold divide
    dsimp only
    rw [hquotient]
    cases quotient a (s.cpu.registers.getWord .ax) (s.cpu.registers.getByte r) with
    | error f => rfl
    | ok p =>
      have hal := s.set_setWord (r := .byte .al) hax v p.1
      have hah := State.set_setWord { s with cpu := s.cpu.set (.byte .al) p.1 }
        (r := .byte .ah) hax v p.2
      rw [← hal] at hah
      exact congrArg Except.ok hah
  | word r =>
    have hr : (Register.word r).Apart (.word q) := h _ List.mem_cons_self
    have hax : WordRegister.ax ≠ q := h (.word .ax) (.tail _ (.head _))
    have hdx : WordRegister.dx ≠ q := h (.word .dx) (.tail _ (.tail _ (.tail _ (.head _))))
    unfold divide
    dsimp only
    rw [s.getWord_setWord_of_ne v hdx, s.getWord_setWord_of_ne v hax,
      s.getWord_setWord_of_ne v hr]
    cases quotient a (s.cpu.registers.getWord .dx ++ s.cpu.registers.getWord .ax)
        (s.cpu.registers.getWord r) with
    | error f => rfl
    | ok p =>
      show Except.ok (((s.setWord q v).setWord .ax p.1).setWord .dx p.2) = _
      rw [s.setWord_comm hax, setWord_comm _ hdx]
      rfl

end State

/-- An operation that spares a register does the same whatever that holds, and leaves it alone. -/
theorem Operation.exec_setWord {op : Operation} {q : WordRegister} (h : op.Spares q)
    (code : List Instruction) (a : Address) (s : State) (v : Word) :
    op.exec code a (s.setWord q v) =
      (op.exec code a s).map fun r => (r.1.setWord q v, r.2) := by
  cases op with
  | move dst src =>
    obtain ⟨hd, hs⟩ := List.forall_mem_append.mp h
    dsimp only [exec]
    rw [s.value_setWord hs, s.put_setWord hd]
    rfl
  | alu op dst src =>
    obtain ⟨hd, hs⟩ := List.forall_mem_cons.mp h
    dsimp only [exec]
    rw [s.value_setWord hs, s.get_setWord hd, s.setResult_setWord hd]
    by_cases hop : op = .cmp
    · rw [if_pos hop, if_pos hop]
      rfl
    · rw [if_neg hop, if_neg hop]
      rfl
  | unary op r =>
    have hr := h r List.mem_cons_self
    dsimp only [exec]
    rw [s.get_setWord hr, s.setResult_setWord hr]
    rfl
  | multiply r =>
    dsimp only [exec]
    rw [s.multiply_setWord h]
    rfl
  | divide r =>
    dsimp only [exec]
    rw [s.divide_setWord h]
    cases s.divide a r <;> rfl
  | shift d r =>
    have hr := h r List.mem_cons_self
    dsimp only [exec]
    rw [s.get_setWord hr, s.setResult_setWord hr]
    rfl
  | clearCarry => rfl
  | nothing => rfl
  | halt => rfl
  | jump c target =>
    dsimp only [exec]
    show (if c.holds s.cpu.flags = true then _ else _) = _
    split
    · cases jumpTo code a target <;> rfl
    · rfl
  | loop target =>
    have hcx : WordRegister.cx ≠ q := h (.word .cx) List.mem_cons_self
    have hloop (t : State) : (loop target).exec code a t =
        let cx := t.cpu.registers.getWord .cx - 1
        if cx = 0 then .ok (t.setWord .cx cx, .following)
        else (jumpTo code a target).map fun next => (t.setWord .cx cx, next) := rfl
    rw [hloop, hloop, s.getWord_setWord_of_ne v hcx]
    dsimp only
    rw [s.setWord_comm hcx]
    split
    · rfl
    · cases jumpTo code a target <;> rfl

theorem Instruction.exec_setWord {i : Instruction} {q : WordRegister} (h : i.Spares q)
    (code : List Instruction) (s : State) (v : Word) :
    i.exec code (s.setWord q v) = (i.exec code s).map fun r => (r.1.setWord q v, r.2) := by
  unfold Instruction.exec
  split
  · next op ho => exact Operation.exec_setWord (h op ho) code i.address s v
  · rfl

/-- No assembled instruction uses `IP`. -/
theorem Instruction.Assembled.spares_ip {labels : List Label} {i : Instruction}
    (hi : i.Assembled labels) : i.Spares .ip := by
  intro op ho
  have hreg (r : Register) (hr : .reg r ∈ i.operands) : r.Apart (.word .ip) :=
    Register.apart_ip (hi.written _ hr).ne_ip
  have hmem (p : WordRegister) (hp : .indirect p ∈ i.operands) :
      (Register.word p).Apart (.word .ip) := by
    rcases hi.written _ hp with rfl | rfl
    · exact WordRegister.noConfusion
    · exact WordRegister.noConfusion
  obtain ⟨enc, he⟩ := hi.exists_encodes
  unfold Instruction.operation? at ho
  generalize i.mnemonic = m at he ho
  generalize i.operands = ops at he ho hreg hmem
  cases he with
  | branchName b name | branchAddress b a =>
    cases ho
    cases b with
    | loop => exact List.forall_mem_singleton.mpr WordRegister.noConfusion
    | _ => exact List.forall_mem_nil _
  | multiply r =>
    cases ho
    refine List.forall_mem_cons.mpr ⟨hreg r (.head _), ?_⟩
    cases r <;> simp [productRegisters, Register.Apart]
  | divide r =>
    cases ho
    refine List.forall_mem_cons.mpr ⟨hreg r (.head _), ?_⟩
    cases r <;> simp [quotientRegisters, Register.Apart, ByteRegister.owner]
  | _ =>
    cases ho
    simp_all [Operation.Spares, Operation.registers, Place.registers, Source.registers]

/-! ## instructions one after the other -/

/-- The state after the instructions, each carried out once and in order, wherever they lead to. -/
def carryOut (code : List Instruction) (s : State) (is : List Instruction) : Except Fault State :=
  is.foldlM (fun s i => (i.exec code s).map Prod.fst) s

section
variable {code : List Instruction} {s : State}

theorem carryOut_cons {i : Instruction} {is : List Instruction} {r : State × Next}
    (h : i.exec code s = .ok r) : carryOut code s (i :: is) = carryOut code r.1 is := by
  unfold carryOut
  rw [List.foldlM_cons, h]
  rfl

theorem carryOut_append {is js : List Instruction} {t : State} (h : carryOut code s is = .ok t) :
    carryOut code s (is ++ js) = carryOut code t js := by
  unfold carryOut at h ⊢
  rw [List.foldlM_append, h]
  rfl

/-- Instructions that spare a register do the same whatever it holds. -/
theorem carryOut_setWord {q : WordRegister} {is : List Instruction} (h : ∀ i ∈ is, i.Spares q)
    (code : List Instruction) (s : State) (v : Word) :
    carryOut code (s.setWord q v) is = (carryOut code s is).map fun t => t.setWord q v := by
  induction is generalizing s with
  | nil => rfl
  | cons i is ih =>
    obtain ⟨hi, his⟩ := List.forall_mem_cons.mp h
    have hx := Instruction.exec_setWord hi code s v
    cases hs : i.exec code s with
    | error f =>
      rw [hs] at hx
      unfold carryOut
      rw [List.foldlM_cons, List.foldlM_cons, hs, hx]
      rfl
    | ok r =>
      rw [hs] at hx
      rw [carryOut_cons hs, carryOut_cons hx, ih his]

end

end Mini8086
