import Mathlib.Data.List.Chain
import Mini8086.Proofs.BranchTargets
import Mini8086.Proofs.Faults

/-!
# Control flow in terms of the source

Execution goes from instruction to instruction by addresses, a source by lines and labels.  In an
assembled program no two instructions share an address, and the address of a label is that of the
first instruction on its line or below it, or the end of the program.

* `Contiguous.indexOf?_addressAt`   the instruction at an address that the layout has reached is the
                                  next one, and there is none at the end;
* `Takes.continuesAt`, `Takes.step_eq_error_iff`   a branch that is taken goes on with the
                                  instruction at its target, or fails if there is none;
* `indexOf?_label`                a label stands for the first instruction on its line or below;
* `Steps.isChain`                 what is executed next lies just behind the instruction before, or
                                  that is a branch to it.
-/

namespace Mini8086

/-! ## addresses of instructions -/

section
variable {a : Address} {is : List Instruction}

/-- With ascending addresses an address tells its instruction. -/
theorem indexOf?_eq_some_iff (h : is.Pairwise fun i j => i.address < j.address) {b : Address}
    {k : Nat} : indexOf? is b = some k ↔ ∃ i, is[k]? = some i ∧ i.address = b := by
  refine ⟨indexOf?_eq_some, ?_⟩
  rintro ⟨i, hi, rfl⟩
  rw [List.getElem?_eq_some_iff] at hi
  obtain ⟨hk, rfl⟩ := hi
  refine List.findIdx?_eq_some_iff_getElem.mpr ⟨hk, beq_self_eq_true _, fun j hj => ?_⟩
  rw [beq_iff_eq]
  exact Nat.ne_of_lt (List.pairwise_iff_getElem.mp h j k (Nat.lt_trans hj hk) hk hj)

theorem exists_indexOf?_iff {b : Address} :
    (∃ k, indexOf? is b = some k) ↔ ∃ i ∈ is, i.address = b := by
  constructor
  · rintro ⟨k, hk⟩
    obtain ⟨i, hi, ha⟩ := indexOf?_eq_some hk
    exact ⟨i, List.mem_of_getElem? hi, ha⟩
  · rintro ⟨i, hi, ha⟩
    cases hk : indexOf? is b with
    | some k => exact ⟨k, rfl⟩
    | none => exact absurd ha (indexOf?_eq_none.mp hk i hi)

variable (hc : Contiguous a is) (hl : ∀ i ∈ is, 1 ≤ i.length)
include hc hl

/-- every instruction starts before the end of the code -/
theorem Contiguous.address_lt {i : Instruction} (hi : i ∈ is) : i.address < a + codeLength is := by
  obtain ⟨k, hk⟩ := List.getElem?_of_mem hi
  calc i.address < i.nextAddress := Nat.lt_add_of_pos_right (hl i hi)
    _ = addressAt a is (k + 1) := hc.nextAddress_eq hk
    _ ≤ a + codeLength is := addressAt_le a is (k + 1)

theorem Contiguous.indexOf?_addressAt {k : Nat} (hk : k ≤ is.length) :
    indexOf? is (addressAt a is k) = if k < is.length then some k else none := by
  split
  · next hlt =>
    have hi := List.getElem?_eq_getElem hlt
    exact (indexOf?_eq_some_iff (hc.pairwise_lt hl)).mpr ⟨_, hi, hc.address_eq hi⟩
  · next hge =>
    rw [Nat.le_antisymm hk (Nat.le_of_not_lt hge), addressAt_length, indexOf?_eq_none]
    intro i hi
    exact Nat.ne_of_lt (hc.address_lt hl hi)

end

/-! ## jumps -/

/-- where an operation may jump to -/
def Operation.target? : Operation → Option Address
  | .jump _ target | .loop target => target
  | _ => none

theorem Branch.target?_operation (b : Branch) (target : Option Address) :
    (b.operation target).target? = target := by
  unfold Branch.operation
  cases b.condition? <;> rfl

theorem jumpTo_eq_jump {code : List Instruction} {a u : Address} {target : Option Address} {k : Nat}
    (h : jumpTo code a target = .ok (.jump k u)) : target = some u := by
  unfold jumpTo at h
  split at h
  · contradiction
  · split at h
    · cases h
      rfl
    · contradiction

theorem Operation.exec_jump {code : List Instruction} {a u : Address} {s t : State}
    {op : Operation} {k : Nat} (h : op.exec code a s = .ok (t, .jump k u)) :
    op.target? = some u := by
  cases op with
  | divide src =>
    obtain ⟨v, -, hv⟩ := map_eq_ok.mp h
    cases hv
  | jump c target =>
    dsimp only [Operation.exec] at h
    split at h
    · obtain ⟨next, hn, hp⟩ := map_eq_ok.mp h
      cases hp
      exact jumpTo_eq_jump hn
    · cases h
  | loop target =>
    dsimp only [Operation.exec] at h
    split at h
    · cases h
    · obtain ⟨next, hn, hp⟩ := map_eq_ok.mp h
      cases hp
      exact jumpTo_eq_jump hn
  | _ => cases h

/-- only the operation of a branch has a target, and it is that of the branch -/
theorem Instruction.target?_of_operation? {i : Instruction} {op : Operation} {u : Address}
    (h : i.operation? = some op) (hu : op.target? = some u) :
    i.mnemonic.isBranch = true ∧ i.target? = some u := by
  unfold Instruction.operation? at h
  split at h
  · next d s _ _ =>
    cases hd : d.place? <;> cases hs : s.source? <;> rw [hd, hs] at h <;> cases h
    cases hu
  · next op d s _ _ =>
    cases hs : s.source? <;> rw [hs] at h <;> cases h
    cases hu
  case h_10 b ops hm =>
    cases h
    rw [Branch.target?_operation] at hu
    rw [hm]
    exact ⟨rfl, hu⟩
  case h_11 => cases h
  all_goals
    -- these operations have no target
    cases h
    cases hu

/-- an instruction that jumps is a branch, and jumps to its target -/
theorem Instruction.exec_jump {i : Instruction} {code : List Instruction} {s t : State} {k : Nat}
    {u : Address} (h : i.exec code s = .ok (t, .jump k u)) :
    i.mnemonic.isBranch = true ∧ i.target? = some u := by
  obtain ⟨op, ho, hx⟩ := Instruction.exec_eq_ok h
  exact Instruction.target?_of_operation? ho (Operation.exec_jump hx)

/-- A branch that is taken jumps to the instruction at its target. -/
theorem Branch.exec_of_taken {b : Branch} {code : List Instruction} {a t : Address} {s : State}
    {k : Nat} (hb : b.Taken s) (hk : indexOf? code t = some k) :
    ∃ u, (b.operation (some t)).exec code a s = .ok (u, .jump k t) := by
  have hj : jumpTo code a (some t) = .ok (.jump k t) := by
    unfold jumpTo
    dsimp only
    rw [hk]
  unfold Branch.Taken at hb
  unfold Branch.operation
  cases hc : b.condition? with
  | some c =>
    rw [hc] at hb
    dsimp only [Operation.exec]
    rw [if_pos hb, hj]
    exact ⟨_, rfl⟩
  | none =>
    rw [hc] at hb
    dsimp only [Operation.exec]
    rw [if_neg hb, hj]
    exact ⟨_, rfl⟩

namespace Machine
variable {m : Machine} {i : Instruction} {b : Branch} {t : Address} {k : Nat}

/-- The machine is at the branch `b`, which is instruction `i`, and takes it. -/
structure Takes (m : Machine) (i : Instruction) (b : Branch) : Prop where
  halted : m.halted = false
  instruction : m.program[m.pc]? = some i
  mnemonic : i.mnemonic = .branch b
  taken : b.Taken m.toState

/-- The step executes instruction `i`, and the instruction at index `k` is the next one. -/
def ContinuesAt (m : Machine) (i : Instruction) (k : Nat) : Prop :=
  ∃ next, m.step = .ok (some (⟨i.address, i.line⟩, next)) ∧ next.pc = k ∧ next.halted = false

theorem Takes.step_eq (h : m.Takes i b) (ht : i.target? = some t) :
    m.step = ((b.operation (some t)).exec m.program i.address m.toState).map fun r =>
      some (⟨i.address, i.line⟩, m.advance i r.1 r.2) := by
  have ho : i.operation? = some (b.operation (some t)) := by
    unfold Instruction.operation?
    rw [h.mnemonic, ht]
  rw [step_of_getElem? h.halted h.instruction, Instruction.exec, ho]

theorem Takes.continuesAt (h : m.Takes i b) (ht : i.target? = some t)
    (hk : indexOf? m.program t = some k) : m.ContinuesAt i k := by
  obtain ⟨u, hu⟩ := Branch.exec_of_taken (a := i.address) h.taken hk
  rw [ContinuesAt, h.step_eq ht, hu]
  exact ⟨_, rfl, rfl, h.halted⟩

/-- A branch that is taken fails if there is no instruction at its target. -/
theorem Takes.step_eq_error_iff (h : m.Takes i b) (ht : i.target? = some t) {f : Fault} :
    m.step = .error f ↔ indexOf? m.program t = none ∧ f = .invalidTarget i.address t := by
  rw [h.step_eq ht, map_eq_error, Branch.exec_eq_error, indexOf?_eq_none]
  exact and_iff_right h.taken

/-- A branch that is taken goes on exactly if there is an instruction at its target. -/
theorem Takes.step_ok_iff (h : m.Takes i b) (ht : i.target? = some t) :
    (∃ r, m.step = .ok r) ↔ ∃ j ∈ m.program, j.address = t := by
  rw [← exists_indexOf?_iff]
  constructor
  · rintro ⟨r, hr⟩
    cases hk : indexOf? m.program t with
    | some k => exact ⟨k, rfl⟩
    | none =>
      have he := (h.step_eq_error_iff ht).mpr ⟨hk, rfl⟩
      rw [hr] at he
      cases he
  · rintro ⟨k, hk⟩
    obtain ⟨next, hs, -⟩ := h.continuesAt ht hk
    exact ⟨_, hs⟩

end Machine

/-! ## where the operands of branches lead -/

/-- how many lines before line `n` carry a command -/
def codeLinesBefore (source : Text) (n : Nat) : Nat := (codeLines source).countP fun q => q.2 < n

/-- The operand of a branch spells the address `a`: it is a number, or a name that the source does
not define and that is a number in hexadecimal digits. -/
inductive Operand.Spells (source : Text) : Operand → Address → Prop
  | number (a : Address) : Spells source (.addr a) a
  | name {name : Text} {v : Nat} (hn : name ∉ definedLabels source) (hv : readHex? name = some v) :
      Spells source (.label name) (v % 2 ^ 20)

section
variable {source : Text} {origin : Address} {p : Program} (h : assemble source origin = .ok p)
include h

theorem exists_leadsTo {i : Instruction} (hi : i ∈ p.instructions) {b : Branch}
    (hm : i.mnemonic = .branch b) : ∃ text o t, i.operands = [o] ∧ LeadsTo p.labels text o t ∧
      i.target? = some t := by
  obtain ⟨q, -, -, hq⟩ := (laidOut_of_assemble h).1.exists_line_of_instruction hi
  obtain ⟨o, t, ho, hl, ht⟩ := hq.leadsTo ((assembled_of_assemble h).2.instructions i hi) hm
  exact ⟨_, o, t, ho, hl, ht⟩

theorem target?_of_label {i : Instruction} (hi : i ∈ p.instructions) {b : Branch}
    (hm : i.mnemonic = .branch b) {name line : Text} {n : Nat} (ho : i.operands = [.label name])
    (hq : (line, n) ∈ numberedLines source) (hd : definedLabel? line = some name) :
    i.target? = some (origin + codeLength (before n p.instructions)) := by
  obtain ⟨hlaid, hn⟩ := laidOut_of_assemble h
  have hfound := (hlaid.findAddress_eq_some hn).mpr ⟨line, n, hq, hd, rfl⟩
  obtain ⟨text, o, t, ho', hl, ht⟩ := exists_leadsTo h hi hm
  rw [ho] at ho'
  cases ho'
  cases hl with
  | label _ hl =>
    rw [hl] at hfound
    rw [ht, ← hfound]
    rfl
  | numeralName _ hl =>
    rw [hl] at hfound
    cases hfound

theorem target?_of_spells {i : Instruction} (hi : i ∈ p.instructions) {b : Branch}
    (hm : i.mnemonic = .branch b) {o : Operand} {a : Address} (ho : i.operands = [o])
    (hs : o.Spells source a) : i.target? = some a := by
  obtain ⟨text, o', t, ho', hl, ht⟩ := exists_leadsTo h hi hm
  rw [ho] at ho'
  cases ho'
  cases hs with
  | number a =>
    cases hl
    exact ht
  | name hn hv =>
    rw [← (laidOut_of_assemble h).1.map_name] at hn
    cases hl with
    | label _ hl =>
      rw [findLabel?_eq_none.mpr hn] at hl
      cases hl
    | numeralName _ _ hw =>
      rw [hv] at hw
      cases hw
      exact ht

/-- The instructions before a line are as many as the lines before it that carry a command. -/
theorem length_before_eq (n : Nat) :
    (before n p.instructions).length = codeLinesBefore source n := by
  rw [(laidOut_of_assemble h).1.length_before n, codeLinesBefore, List.countP_eq_length_filter]
  rfl

theorem codeLinesBefore_le (n : Nat) : codeLinesBefore source n ≤ p.instructions.length := by
  rw [← length_before_eq h]
  exact List.length_filter_le ..

theorem codeLinesBefore_lt_iff (n : Nat) :
    codeLinesBefore source n < p.instructions.length ↔ ∃ q ∈ codeLines source, n ≤ q.2 := by
  have hlen : (codeLines source).length = p.instructions.length :=
    (laidOut_of_assemble h).1.instructions.length_eq
  have hall : codeLinesBefore source n = p.instructions.length ↔
      ∀ q ∈ codeLines source, q.2 < n := by
    rw [codeLinesBefore, ← hlen, List.countP_eq_length]
    exact forall₂_congr fun q _ => decide_eq_true_iff
  rw [Nat.lt_iff_le_and_ne, and_iff_right (codeLinesBefore_le h n), ne_eq, hall]
  push Not
  rfl

/-- below the last line that carries a command all instructions are before a line -/
theorem before_eq_all {n : Nat} (hn : ∀ q ∈ codeLines source, q.2 < n) :
    before n p.instructions = p.instructions := by
  apply before_eq_self
  intro i hi
  obtain ⟨q, hq, hcom, hqi⟩ := (laidOut_of_assemble h).1.exists_line_of_instruction hi
  rw [hqi.number]
  exact hn q (List.mem_filter.mpr ⟨hq, hcom⟩)

theorem lt_codeLinesBefore_iff {n k : Nat} {j : Instruction} (hj : p.instructions[k]? = some j) :
    k < codeLinesBefore source n ↔ j.lineNumber < n := by
  have hlaid := (laidOut_of_assemble h).1
  rw [← length_before_eq h]
  exact lt_length_before_iff (hlaid.pairwise_lineNumber (numberedLines_pairwise source)) hj

/-- The address of a label is that of the instruction after those before its line. -/
theorem indexOf?_label {n : Nat} (hn : ∃ q ∈ codeLines source, n ≤ q.2) :
    indexOf? p.instructions (origin + codeLength (before n p.instructions)) =
      some (codeLinesBefore source n) := by
  obtain ⟨hc, hpos⟩ := contiguous_of_assemble h
  have hlines := (laidOut_of_assemble h).1.pairwise_lineNumber (numberedLines_pairwise source)
  rw [before_eq_take hlines n, length_before_eq h]
  exact (hc.indexOf?_addressAt hpos (codeLinesBefore_le h n)).trans
    (if_pos ((codeLinesBefore_lt_iff h n).mpr hn))

/-- The address of a label with no instruction below is the end of the code. -/
theorem indexOf?_label_eq_none_iff {n : Nat} :
    indexOf? p.instructions (origin + codeLength (before n p.instructions)) = none ↔
      ∀ q ∈ codeLines source, q.2 < n := by
  constructor
  · intro hnone q hq
    by_contra hn
    rw [indexOf?_label h ⟨q, hq, Nat.le_of_not_lt hn⟩] at hnone
    cases hnone
  · intro hn
    obtain ⟨hc, hpos⟩ := contiguous_of_assemble h
    rw [before_eq_all h hn, indexOf?_eq_none]
    intro i hi
    exact Nat.ne_of_lt (hc.address_lt hpos hi)

end

/-! ## traces -/

/-- The instruction visited second lies just behind the one visited first, or that is a branch to
it. -/
def Consecutive (code : List Instruction) (v w : Visit) : Prop :=
  ∃ i ∈ code, ∃ j ∈ code, v = ⟨i.address, i.line⟩ ∧ w = ⟨j.address, j.line⟩ ∧
    (j.address = i.address + i.length ∨
      i.mnemonic.isBranch = true ∧ i.target? = some j.address)

namespace Machine
variable {m next last : Machine} {v w : Visit} {vs : List Visit} {origin : Address}

theorem consecutive_of_step (hc : Contiguous origin m.program)
    (h : m.step = .ok (some (v, next))) (h' : next.step = .ok (some (w, last))) :
    Consecutive m.program v w := by
  obtain ⟨i, s, n, -, hi, hx, rfl, rfl⟩ := step_eq_some.mp h
  obtain ⟨j, t, n', hh, hj, -, rfl, -⟩ := step_eq_some.mp h'
  rw [advance_program] at hj
  refine ⟨i, List.mem_of_getElem? hi, j, List.mem_of_getElem? hj, rfl, rfl, ?_⟩
  rcases Instruction.exec_next hx with rfl | ⟨rfl, -⟩ | ⟨k, target, rfl, hk⟩
  · left
    rw [hc.address_eq hj, ← Instruction.nextAddress, hc.nextAddress_eq hi]
    rfl
  · cases hh
  · right
    obtain ⟨l, hl, rfl⟩ := indexOf?_eq_some hk
    change m.program[k]? = some j at hj
    rw [hl] at hj
    cases hj
    exact Instruction.exec_jump hx

theorem Steps.isChain (hc : Contiguous origin m.program) (hs : Steps m vs last) :
    vs.IsChain (Consecutive m.program) := by
  induction hs with
  | none m => exact .nil
  | @more m next last v vs h hs ih =>
    rw [step_program h] at ih
    refine List.isChain_cons.mpr ⟨fun w hw => ?_, ih hc⟩
    cases hs with
    | none => cases hw
    | more h' _ =>
      cases hw
      exact consecutive_of_step hc h h'

/-- The trace of a run lists what is executed one after the other. -/
theorem run_isChain (hc : Contiguous origin m.program) (budget : Nat) :
    (m.run budget).trace.IsChain (Consecutive m.program) :=
  (run_spec m budget).2.1.isChain hc

theorem runAt_isChain (hc : Contiguous origin m.program) (a : Address) (budget : Nat) :
    (m.runAt a budget).trace.IsChain (Consecutive m.program) := by
  unfold runAt
  split
  · next start hs =>
    have hp := seek_program hs
    rw [← hp] at hc ⊢
    exact run_isChain hc budget
  · exact .nil

/-! ## programs -/

theorem exists_seek_iff {a : Address} :
    (∃ next, m.seek a = .ok next) ↔ ∃ j ∈ m.program, j.address = a := by
  rw [← exists_indexOf?_iff]
  unfold seek
  cases indexOf? m.program a with
  | some k => exact ⟨fun _ => ⟨k, rfl⟩, fun _ => ⟨_, rfl⟩⟩
  | none =>
    constructor
    · rintro ⟨next, hn⟩
      cases hn
    · rintro ⟨k, hk⟩
      cases hk

/-- what a step does after a seek -/
theorem step_of_seek {a : Address} (h : m.seek a = .ok next) :
    ∃ j, j.address = a ∧ m.program[next.pc]? = some j ∧ next.halted = false ∧
      next.step = (j.exec m.program next.toState).map fun r =>
        some (⟨j.address, j.line⟩, next.advance j r.1 r.2) := by
  obtain ⟨k, hk, rfl⟩ := seek_eq_ok h
  obtain ⟨j, hj, ha⟩ := indexOf?_eq_some hk
  exact ⟨j, ha, hj, rfl, step_of_getElem? rfl hj⟩

/-- Execution follows the source of an assembled program.  A branch to a label goes on with the
first instruction on the line of the label or below, and fails exactly if there is none; a branch to
a number, and a seek, goes on with the instruction at that address, and fails exactly if there is
none.  So in a trace every instruction but the first lies just behind the one before or is the
target of that branch. -/
theorem control_flow_of_source {source : Text} {origin : Address} {p : Program}
    (h : assemble source origin = .ok p) (hm : m.program = p.instructions) :
    (∀ i b, m.Takes i b →
      (∀ name line n, i.operands = [.label name] → (line, n) ∈ numberedLines source →
        definedLabel? line = some name →
        ((∃ q ∈ codeLines source, n ≤ q.2) → m.ContinuesAt i (codeLinesBefore source n)) ∧
        ∀ f, m.step = .error f ↔ (∀ q ∈ codeLines source, q.2 < n) ∧
          f = .invalidTarget i.address (origin + codeLength p.instructions)) ∧
      ∀ o a, i.operands = [o] → o.Spells source a →
        ((∃ r, m.step = .ok r) ↔ ∃ j ∈ p.instructions, j.address = a) ∧
        ∀ k j, p.instructions[k]? = some j → j.address = a → m.ContinuesAt i k) ∧
    (∀ n, codeLinesBefore source n = (before n p.instructions).length ∧
      ∀ k j, p.instructions[k]? = some j →
        (k < codeLinesBefore source n ↔ j.lineNumber < n)) ∧
    (∀ a, ((∃ next, m.seek a = .ok next) ↔ ∃ j ∈ p.instructions, j.address = a) ∧
      ∀ next, m.seek a = .ok next → ∃ j, j.address = a ∧
        p.instructions[next.pc]? = some j ∧ next.halted = false ∧
        next.step = (j.exec p.instructions next.toState).map fun r =>
          some (⟨j.address, j.line⟩, next.advance j r.1 r.2)) ∧
    (∀ budget, (m.run budget).trace.IsChain (Consecutive p.instructions)) ∧
    ∀ a budget, (m.runAt a budget).trace.IsChain (Consecutive p.instructions) := by
  obtain ⟨hc, hpos⟩ := contiguous_of_assemble h
  refine ⟨fun i b hb => ⟨fun name line n ho hq hd => ?_, fun o a ho hs => ?_⟩,
    fun n => ⟨(length_before_eq h n).symm, fun k j => lt_codeLinesBefore_iff h⟩,
    fun a => ?_, fun budget => ?_, fun a budget => ?_⟩
  · have hi : i ∈ p.instructions := hm ▸ List.mem_of_getElem? hb.instruction
    have ht := target?_of_label h hi hb.mnemonic ho hq hd
    refine ⟨fun hn => hb.continuesAt ht (by rw [hm, indexOf?_label h hn]), fun f => ?_⟩
    rw [hb.step_eq_error_iff ht, hm, indexOf?_label_eq_none_iff h]
    refine and_congr_right fun hn => ?_
    rw [before_eq_all h hn]
  · have hi : i ∈ p.instructions := hm ▸ List.mem_of_getElem? hb.instruction
    have ht := target?_of_spells h hi hb.mnemonic ho hs
    refine ⟨hm ▸ hb.step_ok_iff ht, fun k j hj hja => hb.continuesAt ht ?_⟩
    rw [hm]
    exact (indexOf?_eq_some_iff (hc.pairwise_lt hpos)).mpr ⟨j, hj, hja⟩
  · rw [← hm]
    exact ⟨exists_seek_iff, fun next => step_of_seek⟩
  · rw [← hm] at hc ⊢
    exact run_isChain hc budget
  · rw [← hm] at hc ⊢
    exact runAt_isChain hc a budget

/-- the counting program at its loop, with `CX` at two -/
def countingMachine : Machine :=
  { program := countingProgram.instructions, pc := 1, cpu := { registers := { cx := 2 } } }

/-- the loop goes on at its label, which no command is above -/
theorem countingMachine_continues : assemble countingSource 0x100 = .ok countingProgram ∧
    countingMachine.program = countingProgram.instructions ∧
    ∃ i, countingMachine.Takes i .loop ∧ countingMachine.ContinuesAt i 0 := by
  obtain ⟨i, hi⟩ : ∃ i, countingMachine.program[1]? = some i := ⟨_, rfl⟩
  have hb : countingMachine.Takes i .loop := by
    cases hi
    exact ⟨rfl, rfl, rfl, show (1 : Word) ≠ 0 by decide⟩
  have ho : i.operands = [.label "TOP".toList] := by
    cases hi
    rfl
  obtain ⟨hgo, -⟩ := ((control_flow_of_source assemble_countingSource rfl).1 i .loop hb).1
    "TOP".toList "top: INC AX ; once more".toList 2 ho (by decide) (by decide)
  exact ⟨assemble_countingSource, rfl, i, hb,
    hgo ⟨("  LOOP top".toList, 3), by decide, by decide⟩⟩

end Machine

end Mini8086
