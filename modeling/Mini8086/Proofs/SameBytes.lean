import Mini8086.Proofs.Decoding
import Mini8086.Proofs.Lockstep

/-!
# Programs with the same bytes

The bytes of a program decide what it does, unless it has a command between two registers: two
sources that are assembled to the same bytes at the same origin have the same instructions but for
their spelling (`Instruction.Matches`), and their programs behave alike.

* `Instruction.SameAs.matches`, `Instruction.SameAs.twin`   what instructions with the same bytes
                                                          have in common, and that they do the same;
* `alike_load`   loading programs of such instructions leaves machines alike.

The last theorem is both for assembled sources, with every call that may follow.
-/

namespace Mini8086

/-! ## instructions -/

/-- Operands that are the same, or numbers with the same bits up to a width. -/
inductive Operand.Alike (w : Width) : Operand → Operand → Prop
  | same (o : Operand) : Alike w o o
  | number {v u : Word} (h : v.toNat % 2 ^ w.bits = u.toNat % 2 ^ w.bits) :
      Alike w (.imm v) (.imm u)

/-- Instructions that differ in their spelling at most: in the name of a branch, in how its target
is written, and in bits of a number that are above its destination. -/
structure Instruction.Matches (i j : Instruction) : Prop where
  address : i.address = j.address
  length : i.length = j.length
  mnemonic : i.mnemonic.plain = j.mnemonic.plain
  operands : i.mnemonic.isBranch = false →
    List.Forall₂ (Operand.Alike (destinationWidth i.operands)) i.operands j.operands
  target : i.target? = j.target?

theorem Operand.Alike.of_eq {w : Width} {o q : Operand} (h : o = q) : o.Alike w q := h ▸ .same o

theorem Operand.alike_of_cut_eq {w : Width} {o q : Operand} (h : o.cut w = q.cut w) :
    o.Alike w q := by
  cases o with
  | imm v =>
    cases q with
    | imm u =>
      have hc : cutTo w v = cutTo w u := Operand.imm.inj h
      have hv := congrArg (fun x => (BitVec.setWidth w.bits x).toNat) hc
      rw [setWidth_cutTo, setWidth_cutTo, BitVec.toNat_setWidth, BitVec.toNat_setWidth] at hv
      exact .number hv
    | _ => cases h
  | _ =>
    cases q with
    | imm u => cases h
    | _ => exact .of_eq h

theorem destinationWidth_cut (w : Width) (ops : List Operand) :
    destinationWidth (ops.map (Operand.cut w)) = destinationWidth ops := by
  match ops with
  | [] => rfl
  | o :: _ => cases o <;> rfl

theorem Instruction.SameAs.matches {i j : Instruction} (h : i.SameAs j) : i.Matches j := by
  have hm : i.mnemonic.plain = j.mnemonic.plain := congrArg Plain.mnemonic h.plain
  refine ⟨h.address, h.length, hm, fun hb => ?_, congrArg Plain.target h.plain⟩
  have hb' : j.mnemonic.isBranch = false := by
    rw [← Mnemonic.isBranch_plain, ← hm, Mnemonic.isBranch_plain, hb]
  have ho := congrArg Plain.operands h.plain
  unfold Instruction.plain at ho
  dsimp only at ho
  rw [hb, hb', if_neg Bool.false_ne_true, if_neg Bool.false_ne_true] at ho
  have hw := congrArg destinationWidth ho
  rw [destinationWidth_cut, destinationWidth_cut] at hw
  rw [← hw, ← List.forall₂_eq_eq_eq, List.forall₂_map_left_iff, List.forall₂_map_right_iff] at ho
  exact ho.imp fun o q => Operand.alike_of_cut_eq

theorem Instruction.SameAs.twin {i j : Instruction} (h : i.SameAs j) : i.Twin j :=
  ⟨h.address, h.length, operation?_of_plain_eq h.plain⟩

/-! ## programs -/

theorem agreeOff_loadListing {D : Nat → Prop} {is js : List Instruction}
    (h : List.Forall₂ Instruction.SameAs is js) {m n : Memory} (hm : m.AgreeOff D n) :
    (Machine.loadListing m (is.map Instruction.listed)).AgreeOff D
      (Machine.loadListing n (js.map Instruction.listed)) := by
  induction h generalizing m n with
  | nil => exact hm
  | @cons i j is js hij _ ih =>
    have hhead := hm.load i.address i.code
    apply ih
    show (m.load i.address i.code).AgreeOff D (n.load j.address j.code)
    rw [← hij.address, ← hij.code]
    exact hhead

/-- Programs of the same instructions, loaded into machines that are alike but for their program and
their place in it, leave them alike. -/
theorem alike_load {p q : Program} (hp : p.Assembled) (hq : q.Assembled) (ho : p.origin = q.origin)
    (h : List.Forall₂ Instruction.SameAs p.instructions q.instructions) {D : Nat → Prop}
    {m n : Machine} (hs : m.toState.Alike D n.toState) :
    (m.load p).Alike D n.executed m.executed (n.load q) where
  state := by
    refine ⟨?_, ?_⟩
    · show m.cpu.pointTo p.origin = n.cpu.pointTo q.origin
      rw [ho, hs.cpu]
    · show (Machine.loadListing m.memory p.listing).AgreeOff D
        (Machine.loadListing n.memory q.listing)
      rw [hp.listing, hq.listing]
      exact agreeOff_loadListing h hs.memory
  program := h.imp fun _ _ hij => hij.twin
  pc := rfl
  halted := rfl
  executed := Nat.add_comm _ _

theorem Program.Assembled.readable {p : Program} (h : p.Assembled)
    (hp : ∀ i ∈ p.instructions, isPair i.operands = false) : ∀ i ∈ p.instructions, i.Readable :=
  fun i hi => ⟨⟨_, h.instructions i hi⟩, h.inReach i hi, hp i hi⟩

/-- Two sources that are assembled at one origin to the same bytes, without commands between two
registers, have the same instructions up to their spelling.  Loaded into machines with the same
processor and the same memory, they give the same answers to any calls, but for the source lines
told, and leave the same processor, memory, place and halt, with as many instructions executed. -/
theorem alike_of_bytes_eq {source source' : Text} {origin : Address} {p q : Program}
    (hp : assemble source origin = .ok p) (hq : assemble source' origin = .ok q)
    (hb : p.bytes = q.bytes) (hpp : ∀ i ∈ p.instructions, isPair i.operands = false)
    (hqp : ∀ i ∈ q.instructions, isPair i.operands = false) :
    List.Forall₂ Instruction.Matches p.instructions q.instructions ∧
      ∀ m n : Machine, m.cpu = n.cpu → (∀ a, m.memory.read a = n.memory.read a) →
        ∀ cs : List Machine.Call, ∃ answers m' answers' n',
          (m.load p).calls cs = (answers, m') ∧ (n.load q).calls cs = (answers', n') ∧
          answers.map (Except.map Machine.Answer.bare) =
            answers'.map (Except.map Machine.Answer.bare) ∧
          m'.cpu = n'.cpu ∧ (∀ a, m'.memory.read a = n'.memory.read a) ∧
          m'.pc = n'.pc ∧ m'.halted = n'.halted ∧
          m'.executed + n.executed = n'.executed + m.executed := by
  obtain ⟨hpo, hpa⟩ := assembled_of_assemble hp
  obtain ⟨hqo, hqa⟩ := assembled_of_assemble hq
  rw [hpa.bytes_eq, hqa.bytes_eq] at hb
  have hpc := hpa.contiguous
  have hqc := hqa.contiguous
  rw [hpo] at hpc
  rw [hqo] at hqc
  have hsame := sameAs_of_code_eq hpc hqc (hpa.readable hpp) (hqa.readable hqp) hb
  refine ⟨hsame.imp fun _ _ hij => hij.matches, fun m n hcpu hmem cs => ?_⟩
  have hstate : m.toState.Alike noCell n.toState := ⟨hcpu, fun a _ => hmem a⟩
  obtain ⟨hanswers, hlast⟩ :=
    Machine.calls_alike (alike_load hpa hqa (hpo.trans hqo.symm) hsame hstate) cs
  exact ⟨_, _, _, _, rfl, rfl, hanswers, hlast.state.cpu,
    fun a => hlast.state.memory a fun h => h, hlast.pc, hlast.halted, hlast.executed⟩

/-- one move of a number to `AL`, of which the byte `FF` is left -/
def moveProgram (line : Text) (v : Word) : Program where
  origin := 0
  instructions := [{
    opcode := [0xb0], length := 2, imm := some (.value v.toNat), address := 0, mnemonic := .mov,
    operands := [.reg (.byte .al), .imm v], line := line, lineNumber := 1 }]
  listing := [⟨0, [0xb0, 0xff], line⟩]
  labels := []

theorem alike_of_spellings :
    assemble "MOV AL,FF".toList 0 = .ok (moveProgram "MOV AL,FF".toList 0xff) ∧
    assemble "MOV AL,-1".toList 0 = .ok (moveProgram "MOV AL,-1".toList 0xffff) ∧
    ∀ cs, ∃ answers m answers' n,
      (Machine.load {} (moveProgram "MOV AL,FF".toList 0xff)).calls cs = (answers, m) ∧
      (Machine.load {} (moveProgram "MOV AL,-1".toList 0xffff)).calls cs = (answers', n) ∧
      answers.map (Except.map Machine.Answer.bare) =
        answers'.map (Except.map Machine.Answer.bare) ∧ m.cpu = n.cpu := by
  have hp : assemble "MOV AL,FF".toList 0 = .ok (moveProgram "MOV AL,FF".toList 0xff) := by
    decide +kernel
  have hq : assemble "MOV AL,-1".toList 0 = .ok (moveProgram "MOV AL,-1".toList 0xffff) := by
    decide +kernel
  obtain ⟨-, h⟩ := alike_of_bytes_eq hp hq (by decide) (by decide) (by decide)
  refine ⟨hp, hq, fun cs => ?_⟩
  obtain ⟨answers, m, answers', n, hm, hn, ha, hcpu, -⟩ := h {} {} rfl (fun _ => rfl) cs
  exact ⟨answers, m, answers', n, hm, hn, ha, hcpu⟩

end Mini8086
