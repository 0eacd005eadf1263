import Mini8086.Proofs.PackedMachines
import Mini8086.Proofs.SourceLines

/-!
# Footprints of instructions

`Instruction.footprint` lists what an instruction may change: registers, cells of memory and flags.
All else stays as it is, but for the instruction pointer and the place in the program.  The bits of
a register, of memory and of the word of flags that are outside the footprint are kept one by one:
a byte register in the footprint leaves the other half of its owner alone (`Register.Apart`), and a
flag in it leaves the other bits of the word alone, those too that belong to no flag.

* `State.SameOff`                    the states are the same outside a footprint; a write into the
                                     footprint keeps this, whatever is written;
* `Instruction.Assembled.sameOff`    an instruction that is carried out;
* `step_changesOnly`                 a step of a machine with an assembled program, and the word of
                                     flags after any calls.
-/

namespace Mini8086

/-! ## flags -/

/-- the flags that tell what a result is like -/
def resultFlags : List Flag := [.zero, .sign, .parity]

namespace Flags

section
variable {n : Nat} {f : Flags} {g : Flag}

theorem get_after (r : BitVec n) (hg : g ∉ resultFlags) : (f.after r).get g = f.get g := by
  cases g with
  | carry | overflow => rfl
  | zero | sign | parity => exact absurd (by decide) hg

theorem get_afterCarry (p : BitVec n × Bool) (hg : g ∉ Flag.carry :: resultFlags) :
    (f.afterCarry p).2.get g = f.get g := by
  obtain ⟨hc, hr⟩ := List.ne_and_not_mem_of_not_mem_cons hg
  refine (get_after p.1 hr).trans ?_
  cases g with
  | carry => exact absurd rfl hc
  | _ => rfl

end

end Flags

/-- the flags that the operation changes -/
def AluOp.flags : AluOp → List Flag
  | .add | .adc | .sub | .sbb | .cmp => .carry :: resultFlags
  | .or => resultFlags
  | .and | .xor => .carry :: .overflow :: resultFlags

def UnaryOp.flags : UnaryOp → List Flag
  | .inc | .dec | .not => resultFlags
  | .neg => .carry :: resultFlags

section
variable {n : Nat} {g : Flag}

theorem AluOp.get_eval (op : AluOp) (f : Flags) (a b : BitVec n) (hg : g ∉ op.flags) :
    (op.eval f a b).2.get g = f.get g := by
  have hlogical (r : BitVec n) (hg : g ∉ Flag.carry :: Flag.overflow :: resultFlags) :
      (f.logical.after r).get g = f.get g := by
    obtain ⟨hc, hg⟩ := List.ne_and_not_mem_of_not_mem_cons hg
    obtain ⟨ho, hr⟩ := List.ne_and_not_mem_of_not_mem_cons hg
    refine (Flags.get_after r hr).trans ?_
    cases g with
    | carry => exact absurd rfl hc
    | overflow => exact absurd rfl ho
    | _ => rfl
  cases op with
  | add | adc | sub | sbb | cmp => exact Flags.get_afterCarry _ hg
  | or => exact Flags.get_after _ hg
  | and | xor => exact hlogical _ hg

theorem UnaryOp.get_eval (op : UnaryOp) (f : Flags) (v : BitVec n) (hg : g ∉ op.flags) :
    (op.eval f v).2.get g = f.get g := by
  cases op with
  | inc | dec | not => exact Flags.get_after _ hg
  | neg => exact Flags.get_afterCarry _ hg

theorem Direction.get_eval (d : Direction) (f : Flags) (v : BitVec n)
    (hg : g ∉ Flag.carry :: resultFlags) : (d.eval f v).2.get g = f.get g := by
  cases d with
  | left | right => exact Flags.get_afterCarry _ hg

end

/-! ## registers -/

/-- The registers have no bit in common. -/
def Register.Apart : Register → Register → Prop
  | .word q, .word r => q ≠ r
  | .word q, .byte r => q ≠ r.owner
  | .byte q, .word r => q.owner ≠ r
  | .byte q, .byte r => q ≠ r

theorem Register.apart_ip {q : Register} (h : q ≠ .word .ip) : q.Apart (.word .ip) := by
  cases q with
  | word q => exact fun he => h (congrArg Register.word he)
  | byte q => exact q.owner_ne_ip

theorem ByteRegister.isHigh_eq_not {q r : ByteRegister} (h : q ≠ r) (ho : q.owner = r.owner) :
    q.isHigh = !r.isHigh := by
  cases q <;> cases r <;> first | rfl | exact absurd rfl h | cases ho

namespace Registers

/-- A half of a word is kept when the other one is replaced. -/
theorem half_withHalf (high : Bool) (w : Word) (b : Byte) :
    half (!high) (withHalf high w b) = half (!high) w := by
  cases high with
  | true =>
    show (b ++ w.setWidth 8).setWidth 8 = w.setWidth 8
    exact BitVec.setWidth_append_eq_right
  | false =>
    show (w.extractLsb' 8 8 ++ b).extractLsb' 8 8 = w.extractLsb' 8 8
    exact BitVec.extractLsb'_append_eq_left

theorem get_setWord_of_apart (s : Registers) {q : Register} {r : WordRegister}
    (h : q.Apart (.word r)) (v : Word) : (s.setWord r v).get q = s.get q := by
  cases q with
  | word q => exact (getWord_setWord s r q v).trans (if_neg h)
  | byte q =>
    show half q.isHigh ((s.setWord r v).getWord q.owner) = half q.isHigh (s.getWord q.owner)
    rw [getWord_setWord, if_neg h]

/-- What is written into a register is not seen in a register apart from it. -/
theorem get_set_of_apart (s : Registers) {q r : Register} (h : q.Apart r)
    (v : BitVec r.width.bits) : (s.set r v).get q = s.get q := by
  cases r with
  | word r => exact s.get_setWord_of_apart h v
  | byte r =>
    cases q with
    | word q => exact s.get_setWord_of_apart (q := .word q) h _
    | byte q =>
      by_cases ho : q.owner = r.owner
      · -- two halves of one word
        show half q.isHigh ((s.setWord r.owner _).getWord q.owner) =
          half q.isHigh (s.getWord q.owner)
        rw [getWord_setWord, if_pos ho, ByteRegister.isHigh_eq_not h ho, ho]
        exact half_withHalf r.isHigh (s.getWord r.owner) v
      · exact s.get_setWord_of_apart (q := .byte q) ho _

end Registers

/-! ## footprints -/

/-- What may change; all else stays as it is. -/
structure Footprint where
  registers : List Register := []
  cells : List Nat := []
  flags : List Flag := []
  deriving DecidableEq, Repr

/-- the cells of `n` bytes from an address on -/
def cellsFrom (a : Address) (n : Nat) : List Nat := (List.range n).map fun k => cell (a + k)

/-- where a product with the register goes -/
def productRegisters : Register → List Register
  | .byte _ => [.word .ax]
  | .word _ => [.word .dx, .word .ax]

/-- where quotient and remainder of a division by the register go -/
def quotientRegisters : Register → List Register
  | .byte _ => [.byte .al, .byte .ah]
  | .word _ => [.word .ax, .word .dx]

/-- What an instruction may change in a state besides the instruction pointer. -/
def Instruction.footprint (i : Instruction) (s : State) : Footprint :=
  match i.mnemonic, i.operands with
  | .mov, [.reg r, _] => { registers := [r] }
  | .mov, [.indirect p, .reg r] => { cells := cellsFrom (s.pointee p) r.width.bytes }
  | .alu .cmp, _ => { flags := AluOp.cmp.flags }
  | .alu op, [.reg r, _] => { registers := [r], flags := op.flags }
  | .unary op, [.reg r] => { registers := [r], flags := op.flags }
  | .shift _, [.reg r, _] => { registers := [r], flags := .carry :: resultFlags }
  | .mul, [.reg r] => { registers := productRegisters r, flags := resultFlags }
  | .div, [.reg r] => { registers := quotientRegisters r }
  | .clc, _ => { flags := [.carry] }
  | .branch .loop, _ => { registers := [.word .cx] }
  | _, _ => {}

/-- The states are the same outside the footprint. -/
structure State.SameOff (fp : Footprint) (s t : State) : Prop where
  registers : ∀ q : Register, (∀ r ∈ fp.registers, q.Apart r) → t.cpu.get q = s.cpu.get q
  cells : ∀ a, cell a ∉ fp.cells → t.memory.read a = s.memory.read a
  flags : ∀ g, g ∉ fp.flags → t.cpu.flags.get g = s.cpu.flags.get g

/-! ## writes -/

theorem mem_cellsFrom {a : Address} {n k : Nat} (hk : k < n) : cell (a + k) ∈ cellsFrom a n :=
  List.mem_map.mpr ⟨k, List.mem_range.mpr hk, rfl⟩

/-- A value is stored in the cells from its address on. -/
theorem Memory.read_store_of_not_mem {a b : Address} {w : Width} (h : cell b ∉ cellsFrom a w.bytes)
    (m : Memory) (v : BitVec w.bits) : (m.store a w v).read b = m.read b := by
  have hne {k : Nat} (hk : k < w.bytes) : cell (a + k) ≠ cell b := fun he =>
    h (he ▸ mem_cellsFrom hk)
  have hword {a : Address} (h0 : cell a ≠ cell b) (h1 : cell (a + 1) ≠ cell b) (m : Memory)
      (v : Word) : (m.writeWord a v).read b = m.read b := by
    rw [writeWord, read_write, if_neg h1, read_write, if_neg h0]
  cases w with
  | byte => exact (read_write m a b v).trans (if_neg (hne (k := 0) (by decide)))
  | word => exact hword (hne (k := 0) (by decide)) (hne (k := 1) (by decide)) m v
  | dword =>
    refine (hword (hne (k := 2) (by decide)) (hne (k := 3) (by decide)) _ _).trans ?_
    exact hword (hne (k := 0) (by decide)) (hne (k := 1) (by decide)) m _

namespace State
variable {fp : Footprint} {s t : State}

theorem SameOff.refl (fp : Footprint) (s : State) : s.SameOff fp s :=
  ⟨fun _ _ => rfl, fun _ _ => rfl, fun _ _ => rfl⟩

theorem SameOff.set (h : s.SameOff fp t) {r : Register} (hr : r ∈ fp.registers)
    (v : BitVec r.width.bits) : s.SameOff fp { t with cpu := t.cpu.set r v } := by
  refine ⟨fun q hq => ?_, h.cells, h.flags⟩
  exact (t.cpu.registers.get_set_of_apart (hq r hr) v).trans (h.registers q hq)

theorem SameOff.setFlags (h : s.SameOff fp t) {f : Flags}
    (hf : ∀ g, g ∉ fp.flags → f.get g = t.cpu.flags.get g) : s.SameOff fp (t.setFlags f) :=
  ⟨h.registers, h.cells, fun g hg => (hf g hg).trans (h.flags g hg)⟩

theorem SameOff.store (h : s.SameOff fp t) {a : Address} {w : Width}
    (ha : cellsFrom a w.bytes ⊆ fp.cells) (v : BitVec w.bits) :
    s.SameOff fp { t with memory := t.memory.store a w v } := by
  refine ⟨h.registers, fun b hb => ?_, h.flags⟩
  exact (Memory.read_store_of_not_mem (fun hm => hb (ha hm)) t.memory v).trans (h.cells b hb)

/-- A result with its flags written into the footprint. -/
theorem sameOff_setResult (s : State) (r : Register) (v : BitVec r.width.bits) {f : Flags}
    {fl : List Flag} (hf : ∀ g, g ∉ fl → f.get g = s.cpu.flags.get g) :
    s.SameOff { registers := [r], flags := fl } (s.setResult r v f) :=
  ((SameOff.refl _ s).set List.mem_cons_self v).setFlags hf

theorem sameOff_multiply (s : State) (src : Register) :
    s.SameOff { registers := productRegisters src, flags := resultFlags } (s.multiply src) := by
  cases src with
  | byte r =>
    have hax := (SameOff.refl { registers := [.word .ax], flags := resultFlags } s).set
      (r := .word .ax) (.head _) (product (s.cpu.registers.getByte .al) (s.cpu.registers.getByte r))
    exact hax.setFlags fun g hg => Flags.get_after _ hg
  | word r =>
    let p : BitVec 32 := product (s.cpu.registers.getWord .ax) (s.cpu.registers.getWord r)
    have hax := (SameOff.refl { registers := [.word .dx, .word .ax], flags := resultFlags } s).set
      (r := .word .ax) (.tail _ (.head _)) (p.setWidth 16)
    have hdx := hax.set (r := .word .dx) (.head _) (p.extractLsb' 16 16)
    exact hdx.setFlags fun g hg => Flags.get_after _ hg

theorem sameOff_divide {a : Address} {src : Register} (h : s.divide a src = .ok t) :
    s.SameOff { registers := quotientRegisters src } t := by
  cases src with
  | byte r =>
    obtain ⟨p, -, rfl⟩ := map_eq_ok.mp h
    have hal := (SameOff.refl { registers := [.byte .al, .byte .ah] } s).set (r := .byte .al)
      (.head _) p.1
    exact hal.set (r := .byte .ah) (.tail _ (.head _)) p.2
  | word r =>
    obtain ⟨p, -, rfl⟩ := map_eq_ok.mp h
    have hax := (SameOff.refl { registers := [.word .ax, .word .dx] } s).set (r := .word .ax)
      (.head _) p.1
    exact hax.set (r := .word .dx) (.tail _ (.head _)) p.2

end State

/-! ## instructions -/

section
variable {code : List Instruction} {a : Address} {s t : State} {next : Next}

/-- A branch leaves the state as it is; the counting loop counts down first. -/
theorem Branch.sameOff_exec {b : Branch} {target : Option Address}
    (h : (b.operation target).exec code a s = .ok (t, next)) :
    (b ≠ .loop → t = s) ∧
      (b = .loop → t = { s with cpu := s.cpu.setWord .cx (s.cpu.registers.getWord .cx - 1) }) := by
  unfold Branch.operation at h
  cases hc : b.condition? with
  | some c =>
    rw [hc] at h
    have hb : b ≠ .loop := by
      rintro rfl
      cases hc
    refine ⟨fun _ => ?_, fun he => absurd he hb⟩
    dsimp only [Operation.exec] at h
    split at h
    · obtain ⟨n, -, hp⟩ := map_eq_ok.mp h
      cases hp
      rfl
    · cases h
      rfl
  | none =>
    rw [hc] at h
    have hb : b = .loop := by
      cases b with
      | loop => rfl
      | _ => cases hc
    refine ⟨fun he => absurd hb he, fun _ => ?_⟩
    dsimp only [Operation.exec] at h
    split at h
    · cases h
      rfl
    · obtain ⟨n, -, hp⟩ := map_eq_ok.mp h
      cases hp
      rfl

/-- An instruction that is carried out changes nothing outside its footprint. -/
theorem Instruction.Assembled.sameOff {labels : List Label} {i : Instruction}
    (hi : i.Assembled labels) (h : i.exec code s = .ok (t, next)) :
    s.SameOff (i.footprint s) t := by
  obtain ⟨enc, he⟩ := hi.exists_encodes
  obtain ⟨op, ho, hx⟩ := Instruction.exec_eq_ok h
  unfold Instruction.operation? at ho
  unfold Instruction.footprint
  generalize i.mnemonic = m at he ho ⊢
  generalize i.operands = ops at he ho ⊢
  cases he with
  | moveByte r v | moveWord r v | load r p | movePair r q =>
    cases ho
    cases hx
    exact (State.SameOff.refl _ s).set (.head _) _
  | store p r =>
    cases ho
    cases hx
    exact (State.SameOff.refl _ s).store (List.Subset.refl _) _
  | aluShort op r v | aluNumber op r v | aluMemory op r p | aluPair op r q =>
    cases ho
    cases hx
    cases op with
    | cmp => exact (State.SameOff.refl _ s).setFlags fun g hg => AluOp.get_eval .cmp _ _ _ hg
    | _ => exact s.sameOff_setResult r _ fun g hg => AluOp.get_eval _ _ _ _ hg
  | countWord op r | countByte op r | complement op r =>
    cases ho
    cases hx
    exact s.sameOff_setResult _ _ fun g hg => op.get_eval _ _ hg
  | multiply r =>
    cases ho
    cases hx
    exact s.sameOff_multiply r
  | divide r =>
    cases ho
    obtain ⟨u, hu, hp⟩ := map_eq_ok.mp hx
    cases hp
    exact State.sameOff_divide hu
  | shift d r =>
    cases ho
    cases hx
    exact s.sameOff_setResult r _ fun g hg => d.get_eval _ _ hg
  | clearCarry =>
    cases ho
    cases hx
    refine (State.SameOff.refl _ s).setFlags fun g hg => ?_
    cases g with
    | carry => exact absurd (List.mem_singleton_self _) hg
    | _ => rfl
  | halt | nothing =>
    cases ho
    cases hx
    exact .refl _ s
  | branchName b name | branchAddress b c =>
    cases ho
    obtain ⟨hjump, hloop⟩ := Branch.sameOff_exec hx
    cases b with
    | loop =>
      rw [hloop rfl]
      exact (State.SameOff.refl _ s).set (r := .word .cx) (.head _) _
    | _ =>
      rw [hjump Branch.noConfusion]
      exact .refl _ s

theorem Instruction.operation?_of_alu {i : Instruction} {op : AluOp} {o : Operation}
    (hm : i.mnemonic = .alu op) (h : i.operation? = some o) : ∃ dst src, o = .alu op dst src := by
  unfold Instruction.operation? at h
  rw [hm] at h
  split at h
  case h_2 d src heq _ =>
    cases heq
    obtain ⟨source, -, rfl⟩ := Option.map_eq_some_iff.mp h
    exact ⟨d, source, rfl⟩
  all_goals contradiction

/-- `and` and `xor` clear carry and overflow. -/
theorem Instruction.exec_clears {i : Instruction} {op : AluOp} (hop : op = .and ∨ op = .xor)
    (hm : i.mnemonic = .alu op) (h : i.exec code s = .ok (t, next)) :
    t.cpu.flags.carry = false ∧ t.cpu.flags.overflow = false := by
  obtain ⟨o, ho, hx⟩ := Instruction.exec_eq_ok h
  obtain ⟨dst, src, rfl⟩ := Instruction.operation?_of_alu hm ho
  obtain rfl | rfl := hop
  · cases hx
    exact ⟨rfl, rfl⟩
  · cases hx
    exact ⟨rfl, rfl⟩

end

/-! ## steps -/

namespace Machine
variable (m : Machine) (i : Instruction) (s : State) (n : Next)

@[simp] theorem advance_executed : (m.advance i s n).executed = m.executed + 1 := by cases n <;> rfl

@[simp] theorem advance_memory : (m.advance i s n).memory = s.memory := by cases n <;> rfl

@[simp] theorem advance_flags : (m.advance i s n).cpu.flags = s.cpu.flags := by cases n <;> rfl

/-- Only the instruction pointer is set to where execution goes on. -/
theorem advance_get {q : Register} (hq : q ≠ .word .ip) :
    (m.advance i s n).cpu.get q = s.cpu.get q := by
  have hip (a : Address) : (s.cpu.pointTo a).get q = s.cpu.get q :=
    Registers.get_set_of_apart _ (Register.apart_ip hq) _
  cases n with
  | following | jump | halt => exact hip _

end Machine

namespace PackedMachine
variable {k next : PackedMachine}

/-- The machine `next` comes from `k` by instruction `i`.  The count of instructions has gone up by
one; besides this, the instruction pointer and the place in the program, the footprint of the
instruction is all that may have changed.  The word of flags is looked at bit by bit. -/
structure ChangesOnly (i : Instruction) (k next : PackedMachine) : Prop where
  program : next.program = k.program
  executed : next.executed = k.executed + 1
  registers : ∀ q : Register, q ≠ .word .ip →
    (∀ r ∈ (i.footprint k.unpacked.toState).registers, q.Apart r) →
      next.registers.get q = k.registers.get q
  cells : ∀ a, cell a ∉ (i.footprint k.unpacked.toState).cells →
    next.memory.read a = k.memory.read a
  flags : ∀ n, (∀ g ∈ (i.footprint k.unpacked.toState).flags, g.bit ≠ n) →
    next.status.word.getLsbD n = k.status.word.getLsbD n
  cleared : i.mnemonic = .alu .and ∨ i.mnemonic = .alu .xor →
    next.status.get .carry = false ∧ next.status.get .overflow = false

/-- A step changes nothing outside the footprint of its instruction. -/
theorem changesOnly_of_exec {labels : List Label} {i : Instruction} {s : State} {n : Next}
    (hi : i.Assembled labels) (h : i.exec k.program k.unpacked.toState = .ok (s, n)) :
    ChangesOnly i k ((k.unpacked.advance i s n).packed k.status.word) := by
  have hs := hi.sameOff h
  have hflags : ((k.unpacked.advance i s n).packed k.status.word).status =
      s.cpu.flags.inWord k.status.word :=
    congrArg (·.inWord k.status.word) (k.unpacked.advance_flags i s n)
  refine ⟨Machine.advance_program i s n, k.unpacked.advance_executed i s n, fun q hq hr => ?_,
    fun b hb => ?_, fun j hj => ?_, fun hm => ?_⟩
  · exact (k.unpacked.advance_get i s n hq).trans (hs.registers q hr)
  · exact (congrArg (·.read b) (k.unpacked.advance_memory i s n)).trans (hs.cells b hb)
  · rw [hflags]
    obtain ⟨g, rfl⟩ | hne := Flag.bit_or_ne j
    · rw [Flags.getLsbD_inWord_bit, hs.flags g fun hg => hj g hg rfl, ← Status.get_eq]
      exact k.status.get_flags g
    · exact Flags.getLsbD_inWord_of_ne _ _ hne
  · rw [hflags, Flags.get_inWord, Flags.get_inWord]
    exact hm.elim (Instruction.exec_clears (.inl rfl) · h) (Instruction.exec_clears (.inr rfl) · h)

/-- Calls set no bit of the word that belongs to no flag. -/
theorem isSet_callsFrom (h : Flags.isSet k.status.word = true) (cs : List Machine.Call) :
    Flags.isSet (Machine.callsFrom k cs).2.status.word = true := by
  rw [callsFrom_eq]
  exact (Flags.isSet_inWord _ _).trans h

end PackedMachine

/-- However the word of flags is written, no bit that belongs to no flag is set. -/
theorem Status.isSet_written {s : Status} (h : Flags.isSet s.word = true) :
    (∀ g v, Flags.isSet (s.set g v).word = true) ∧
      ∀ w t, s.setAll? w = some t ∨ s.clearAll? w = some t → Flags.isSet t.word = true := by
  obtain ⟨f, w, rfl⟩ : ∃ f w, s = Flags.inWord f w := ⟨_, _, s.inWord_flags.symm⟩
  rw [Flags.isSet_inWord] at h
  refine ⟨fun g v => ?_, fun b t ht => ?_⟩
  · rw [Flags.set_inWord, Flags.isSet_inWord, h]
  · rw [Flags.setAll?_inWord, Flags.clearAll?_inWord, Option.map_eq_some_iff, Option.map_eq_some_iff]
      at ht
    obtain ⟨f, -, rfl⟩ | ⟨f, -, rfl⟩ := ht
    · rw [Flags.isSet_inWord, h]
    · rw [Flags.isSet_inWord, h]

/-- Every instruction of an assembled program that is carried out, from whatever state and whatever
word of flags, changes its footprint and nothing else: `IP`, the place in the program and the count
of instructions apart.  It is carried out whenever the machine with the same flags carries it out.
Bits of the word that belong to no flag are never set, neither by calls nor by writing the word. -/
theorem step_changesOnly {source : Text} {origin : Address} {p : Program}
    (hp : assemble source origin = .ok p) :
    (∀ k : PackedMachine, k.program = p.instructions → ∀ v,
      (∀ next, Machine.stepInPlace.run k = .ok (some v) next →
        ∃ i ∈ p.instructions, k.program[k.pc]? = some i ∧ k.ChangesOnly i next) ∧
      ∀ m, k.unpacked.step = .ok (some (v, m)) →
        Machine.stepInPlace.run k = .ok (some v) (m.packed k.status.word)) ∧
    (∀ k : PackedMachine, Flags.isSet k.status.word = true →
      ∀ cs, Flags.isSet (Machine.callsFrom k cs).2.status.word = true) ∧
    ∀ s : Status, Flags.isSet s.word = true →
      (∀ g v, Flags.isSet (s.set g v).word = true) ∧
        ∀ w t, s.setAll? w = some t ∨ s.clearAll? w = some t → Flags.isSet t.word = true := by
  refine ⟨fun k hk v => ⟨fun next h => ?_, fun m h => ?_⟩, fun k h cs => k.isSet_callsFrom h cs,
    fun s => s.isSet_written⟩
  · obtain ⟨m, hstep, rfl⟩ := PackedMachine.stepInPlace_eq_some.mp h
    obtain ⟨i, s, n, -, hi, hx, -, rfl⟩ := Machine.step_eq_some.mp hstep
    have hmem : i ∈ p.instructions := hk ▸ List.mem_of_getElem? hi
    have ha := (assembled_of_assemble hp).2.instructions i hmem
    exact ⟨i, hmem, hi, PackedMachine.changesOnly_of_exec ha hx⟩
  · exact PackedMachine.stepInPlace_eq_some.mpr ⟨m, h, rfl⟩

/-- The first step of the counting program counts `AX` up.  The highest bit of the word of flags,
when it is one already, stays one; from power-on, no calls set it. -/
theorem step_changesOnly_of_counting : assemble countingSource 0x100 = .ok countingProgram ∧
    (∃ v next, Machine.stepInPlace.run ((Machine.load {} countingProgram).packed 0x8000) =
        .ok (some v) next ∧ next.registers.ax = 1 ∧ next.status.word.getLsbD 15 = true ∧
      ∃ i ∈ countingProgram.instructions, countingProgram.instructions[0]? = some i ∧
        PackedMachine.ChangesOnly i ((Machine.load {} countingProgram).packed 0x8000) next) ∧
    ∀ cs, Flags.isSet
      (Machine.callsFrom ((Machine.load {} countingProgram).packed 0) cs).2.status.word = true := by
  obtain ⟨hstep, hcalls, -⟩ := step_changesOnly assemble_countingSource
  obtain ⟨hchanges, hcarries⟩ := hstep ((Machine.load {} countingProgram).packed 0x8000) rfl _
  have hrun := hcarries _ rfl
  obtain ⟨i, hi, hat, hc⟩ := hchanges _ hrun
  have hbit := hc.flags 15 fun g _ => by cases g <;> decide
  exact ⟨assemble_countingSource, ⟨_, _, hrun, rfl, hbit, i, hi, hat, hc⟩, hcalls _ (by decide)⟩

end Mini8086
