import Mini8086.Proofs.Assembled
import Mini8086.Proofs.InPlaceAgrees

/-!
# Faults

`Instruction.Faults` says when an instruction of an assembled program fails, in terms of its
mnemonic, its operands and what the machine holds: a division by zero, a quotient that is too wide,
a branch that is taken to where no instruction is.

* `Instruction.Assembled.exec_eq_error`  it fails exactly then;
* `State.overflows_iff`                  a quotient is too wide if the upper half of the dividend is
                                         not below the divisor;
* `stepInPlace_eq_error`, `runInPlace_eq_error`  a failing step, even in place, leaves the machine
                                         as it was, and a failing run leaves it as the last
                                         successful step did.

The last theorem is all of this for a machine with an assembled program.
-/

namespace Mini8086

/-! ## divisions -/

namespace State

def divisor (s : State) (r : Register) : Nat := (s.cpu.get r).toNat

/-- what is divided by a register: `AX` by a byte register, `DX` and `AX` by a word register -/
def dividend (s : State) : Register → Nat
  | .byte _ => (s.cpu.registers.getWord .ax).toNat
  | .word _ => (s.cpu.registers.getWord .dx).toNat * 2 ^ 16 + (s.cpu.registers.getWord .ax).toNat

theorem toNat_pair (s : State) (r : WordRegister) :
    (s.cpu.registers.getWord .dx ++ s.cpu.registers.getWord .ax).toNat = s.dividend (.word r) := by
  rw [toNat_append_eq]
  rfl

/-- the upper half of the dividend: `AH` or `DX` -/
def upper (s : State) : Register → Nat
  | .byte _ => (s.cpu.registers.getByte .ah).toNat
  | .word _ => (s.cpu.registers.getWord .dx).toNat

/-- whether the quotient is too wide for the register that takes it -/
def Overflows (s : State) (r : Register) : Prop :=
  s.divisor r ≠ 0 ∧ 2 ^ r.width.bits ≤ s.dividend r / s.divisor r

theorem dividend_eq (s : State) (r : Register) :
    ∃ lower, lower < 2 ^ r.width.bits ∧ s.dividend r = s.upper r * 2 ^ r.width.bits + lower := by
  cases r with
  | byte r =>
    refine ⟨(s.cpu.registers.getWord .ax).toNat % 2 ^ 8, Nat.mod_lt _ (by decide), ?_⟩
    have hax := (s.cpu.registers.getWord .ax).isLt
    show (s.cpu.registers.getWord .ax).toNat =
      ((s.cpu.registers.getWord .ax).extractLsb' 8 8).toNat * 2 ^ 8 + _
    rw [BitVec.extractLsb'_toNat, Nat.shiftRight_eq_div_pow]
    omega
  | word r => exact ⟨(s.cpu.registers.getWord .ax).toNat, BitVec.isLt _, rfl⟩

theorem overflows_iff (s : State) (r : Register) :
    s.Overflows r ↔ s.divisor r ≠ 0 ∧ s.divisor r ≤ s.upper r := by
  obtain ⟨lower, hl, hd⟩ := s.dividend_eq r
  refine and_congr_right fun hz => ?_
  rw [Nat.le_div_iff_mul_le (Nat.pos_of_ne_zero hz), hd, Nat.mul_comm]
  constructor
  · intro h
    by_contra hu
    -- an upper half below the divisor leaves no room for the lower half
    have hm := Nat.mul_le_mul_right (2 ^ r.width.bits) (Nat.lt_of_not_le hu)
    rw [Nat.succ_mul] at hm
    omega
  · intro h
    exact Nat.le_add_right_of_le (Nat.mul_le_mul_right _ h)

end State

theorem quotient_eq_error {n : Nat} {a : Address} {x : BitVec (n + n)} {d : BitVec n} {f : Fault} :
    quotient a x d = .error f ↔ (d.toNat = 0 ∧ f = .divideByZero a) ∨
      (d.toNat ≠ 0 ∧ 2 ^ n ≤ x.toNat / d.toNat) ∧ f = .divideOverflow a (x.toNat / d.toNat) := by
  have hz : d.toNat = 0 ↔ d = 0 := by
    rw [← BitVec.toNat_inj]
    rfl
  unfold quotient
  rw [ne_eq, hz, Nat.one_shiftLeft]
  split
  · next h =>
    rw [Except.error.injEq]
    exact ⟨fun hf => .inl ⟨h, hf.symm⟩, fun hf => (hf.resolve_right fun hr => hr.1.1 h).2.symm⟩
  · next h =>
    dsimp only
    split
    · next hq =>
      rw [Except.error.injEq]
      exact ⟨fun hf => .inr ⟨⟨h, hq⟩, hf.symm⟩,
        fun hf => (hf.resolve_left fun hl => h hl.1).2.symm⟩
    · next hq =>
      refine ⟨(nomatch ·), ?_⟩
      rintro (hl | hr)
      · exact absurd hl.1 h
      · exact absurd hr.1.2 hq

theorem State.divide_eq_error {s : State} {a : Address} {r : Register} {f : Fault} :
    s.divide a r = .error f ↔ (s.divisor r = 0 ∧ f = .divideByZero a) ∨
      s.Overflows r ∧ f = .divideOverflow a (s.dividend r / s.divisor r) := by
  cases r with
  | byte r =>
    rw [State.divide, map_eq_error, quotient_eq_error]
    rfl
  | word r =>
    rw [State.divide, map_eq_error, quotient_eq_error, s.toNat_pair r]
    rfl

/-! ## branches -/

theorem jumpTo_eq_error {code : List Instruction} {a t : Address} {f : Fault} :
    jumpTo code a (some t) = .error f ↔ (∀ j ∈ code, j.address ≠ t) ∧ f = .invalidTarget a t := by
  rw [← indexOf?_eq_none]
  unfold jumpTo
  dsimp only
  cases indexOf? code t with
  | none =>
    dsimp only
    rw [Except.error.injEq]
    exact ⟨fun h => ⟨rfl, h.symm⟩, fun h => h.2.symm⟩
  | some k => exact ⟨(nomatch ·), fun h => nomatch h.1⟩

/-- whether a branch is taken, after the count if it counts -/
def Branch.Taken (b : Branch) (s : State) : Prop :=
  match b.condition? with
  | some c => c.holds s.cpu.flags = true
  | none => s.cpu.registers.getWord .cx - 1 ≠ 0

theorem Branch.exec_eq_error {b : Branch} {code : List Instruction} {a t : Address} {s : State}
    {f : Fault} : (b.operation (some t)).exec code a s = .error f ↔
      b.Taken s ∧ (∀ j ∈ code, j.address ≠ t) ∧ f = .invalidTarget a t := by
  unfold Branch.operation Branch.Taken
  cases b.condition? with
  | some c =>
    dsimp only [Operation.exec]
    split
    · next ht => rw [map_eq_error, jumpTo_eq_error, and_iff_right ht]
    · next ht => exact ⟨(nomatch ·), fun h => absurd h.1 ht⟩
  | none =>
    dsimp only [Operation.exec]
    split
    · next ht => exact ⟨(nomatch ·), fun h => absurd ht h.1⟩
    · next ht => rw [map_eq_error, jumpTo_eq_error, and_iff_right ht]

/-! ## assembled instructions -/

/-- The faults of an instruction of the program `code` in a state. -/
inductive Instruction.Faults (i : Instruction) (code : List Instruction) (s : State) : Fault → Prop
  | divideByZero (r : Register) (hm : i.mnemonic = .div) (ho : i.operands = [.reg r])
      (hz : s.divisor r = 0) : Faults i code s (.divideByZero i.address)
  | divideOverflow (r : Register) (hm : i.mnemonic = .div) (ho : i.operands = [.reg r])
      (hv : s.Overflows r) :
      Faults i code s (.divideOverflow i.address (s.dividend r / s.divisor r))
  | invalidTarget (b : Branch) (t : Address) (hm : i.mnemonic = .branch b) (hi : i.target? = some t)
      (ht : b.Taken s) (hn : ∀ j ∈ code, j.address ≠ t) :
      Faults i code s (.invalidTarget i.address t)

namespace Instruction.Assembled
variable {labels : List Label} {i : Instruction} {code : List Instruction} {s : State}

theorem operation_of_div (h : i.Assembled labels) (hm : i.mnemonic = .div) :
    ∃ r, i.operands = [.reg r] ∧ i.operation? = some (.divide r) := by
  obtain ⟨enc, he⟩ := h.exists_encodes
  unfold Instruction.operation?
  rw [hm] at he ⊢
  generalize i.operands = ops at he ⊢
  cases he with
  | divide r => exact ⟨r, rfl, rfl⟩

/-- an instruction that neither divides nor branches can always be carried out -/
theorem exec_ok (h : i.Assembled labels) (hd : i.mnemonic ≠ .div)
    (hb : i.mnemonic.isBranch = false) (code : List Instruction) (s : State) :
    ∃ r, i.exec code s = .ok r := by
  obtain ⟨enc, he⟩ := h.exists_encodes
  unfold Instruction.exec Instruction.operation?
  generalize i.mnemonic = m at he hd hb
  generalize i.operands = ops at he
  cases he with
  | divide r => exact absurd rfl hd
  | branchName b name => cases hb
  | branchAddress b a => cases hb
  | _ => exact ⟨_, rfl⟩

theorem exec_eq_error_of_div (h : i.Assembled labels) (hm : i.mnemonic = .div) {f : Fault} :
    i.exec code s = .error f ↔ i.Faults code s f := by
  obtain ⟨r, ho, hop⟩ := h.operation_of_div hm
  rw [Instruction.exec, hop]
  show ((s.divide i.address r).map _ = _) ↔ _
  rw [map_eq_error, State.divide_eq_error]
  constructor
  · rintro (⟨hz, rfl⟩ | ⟨hv, rfl⟩)
    · exact .divideByZero r hm ho hz
    · exact .divideOverflow r hm ho hv
  · intro hf
    cases hf with
    | divideByZero q _ hq hz =>
      rw [ho] at hq
      cases hq
      exact .inl ⟨hz, rfl⟩
    | divideOverflow q _ hq hv =>
      rw [ho] at hq
      cases hq
      exact .inr ⟨hv, rfl⟩
    | invalidTarget b t hb =>
      rw [hm] at hb
      cases hb

theorem exec_eq_error_of_branch (h : i.Assembled labels) {b : Branch} (hm : i.mnemonic = .branch b)
    {f : Fault} : i.exec code s = .error f ↔ i.Faults code s f := by
  obtain ⟨t, ht⟩ := h.target_of_branch hm
  have hop : i.operation? = some (b.operation (some t)) := by
    rw [Instruction.operation?, hm, ← ht]
  rw [Instruction.exec, hop]
  show (b.operation (some t)).exec code i.address s = _ ↔ _
  rw [Branch.exec_eq_error]
  constructor
  · rintro ⟨hb, hn, rfl⟩
    exact .invalidTarget b t hm ht hb hn
  · intro hf
    cases hf with
    | divideByZero r hd =>
      rw [hm] at hd
      cases hd
    | divideOverflow r hd =>
      rw [hm] at hd
      cases hd
    | invalidTarget c u hc hu hb hn =>
      rw [hm] at hc
      cases hc
      rw [ht] at hu
      cases hu
      exact ⟨hb, hn, rfl⟩

/-- An assembled instruction fails exactly with its faults. -/
theorem exec_eq_error (h : i.Assembled labels) {f : Fault} :
    i.exec code s = .error f ↔ i.Faults code s f := by
  by_cases hd : i.mnemonic = .div
  · exact h.exec_eq_error_of_div hd
  cases hb : i.mnemonic.isBranch with
  | true =>
    obtain ⟨b, hm⟩ : ∃ b, i.mnemonic = .branch b := by
      unfold Mnemonic.isBranch at hb
      split at hb
      · next b hm => exact ⟨b, hm⟩
      · contradiction
    exact h.exec_eq_error_of_branch hm
  | false =>
    obtain ⟨r, hr⟩ := h.exec_ok hd hb code s
    rw [hr]
    refine ⟨(nomatch ·), fun hf => ?_⟩
    cases hf with
    | divideByZero r hm => exact absurd hm hd
    | divideOverflow r hm => exact absurd hm hd
    | invalidTarget b t hm =>
      rw [hm] at hb
      cases hb

end Instruction.Assembled

/-! ## machines -/

namespace Machine
open InPlace
variable {m next : Machine} {f : Fault}

theorem stepInPlace_eq_error : stepInPlace.run m = .error f next ↔ m.step = .error f ∧ next = m := by
  rw [stepInPlace_eq]
  match m.step with
  | .ok none => exact ⟨(nomatch ·), fun h => nomatch h.1⟩
  | .ok (some (v, n)) => exact ⟨(nomatch ·), fun h => nomatch h.1⟩
  | .error g =>
    show EStateM.Result.error g m = _ ↔ _
    rw [EStateM.Result.error.injEq, Except.error.injEq]
    exact and_congr_right fun _ => eq_comm

theorem seekInPlace_eq_error {a : Address} (h : (seekInPlace a).run m = .error f next) :
    next = m := by
  rw [seekInPlace_eq] at h
  split at h
  · contradiction
  · cases h
    rfl

/-- A run that fails has made all the steps before the failing one, and nothing else. -/
theorem runInPlace_eq_error {budget : Nat} (h : (runInPlace budget).run m = .error f next) :
    ∃ vs, vs.length < budget ∧ Steps m vs next ∧ stepInPlace.run next = .error f next := by
  rw [runInPlace_eq, leave_eq_error, Run.answer_eq_error] at h
  obtain ⟨hstop, rfl⟩ := h
  obtain ⟨-, hs, hx⟩ := run_spec m budget
  rw [hstop] at hx
  exact ⟨_, hx.2, hs, stepInPlace_eq_error.mpr ⟨hx.1, rfl⟩⟩

theorem runAtInPlace_eq_error {a : Address} {budget : Nat}
    (h : (runAtInPlace a budget).run m = .error f next) :
    ((seekInPlace a).run m = .error f next ∧ next = m) ∨
      ∃ start, (seekInPlace a).run m = .ok () start ∧ (runInPlace budget).run start = .error f next := by
  unfold runAtInPlace at h
  rw [EStateM.run_bind] at h
  split at h
  · next u start hs => exact .inr ⟨start, hs, h⟩
  · next g n hs =>
    cases h
    exact .inl ⟨hs, seekInPlace_eq_error hs⟩

/-- With an assembled program, a step that is to be made fails exactly with the faults of the
instruction that is next, and leaves the machine as it was.  So does a failing seek.  A run that
fails leaves the machine as the steps before the failing one have. -/
theorem faults_exact_and_atomic {source : Text} {origin : Address} {p : Program}
    (h : assemble source origin = .ok p) {m : Machine} (hm : m.program = p.instructions) :
    (m.isDone = false → ∃ i, p.instructions[m.pc]? = some i ∧ ∀ f,
      (∃ next, stepInPlace.run m = .error f next) ↔ i.Faults p.instructions m.toState f) ∧
    (∀ r, m.toState.Overflows r ↔
      m.toState.divisor r ≠ 0 ∧ m.toState.divisor r ≤ m.toState.upper r) ∧
    (∀ f next, stepInPlace.run m = .error f next →
      next = m ∧ stepInPlace.run next = .error f next) ∧
    (∀ a f next, (seekInPlace a).run m = .error f next → next = m) ∧
    (∀ budget f next, (runInPlace budget).run m = .error f next →
      ∃ vs, vs.length < budget ∧ Steps m vs next ∧ stepInPlace.run next = .error f next) ∧
    ∀ a budget f next, (runAtInPlace a budget).run m = .error f next →
      ((seekInPlace a).run m = .error f next ∧ next = m) ∨
        ∃ start vs, (seekInPlace a).run m = .ok () start ∧ vs.length < budget ∧
          Steps start vs next ∧ stepInPlace.run next = .error f next := by
  refine ⟨fun hd => ?_, m.toState.overflows_iff, fun f next hs => ?_,
    fun a f next => seekInPlace_eq_error, fun budget f next => runInPlace_eq_error,
    fun a budget f next hr => ?_⟩
  · obtain ⟨hh, i, hi⟩ := exists_instruction hd
    have hi' := hm ▸ hi
    have ha := (assembled_of_assemble h).2.instructions i (List.mem_of_getElem? hi')
    refine ⟨i, hi', fun f => ?_⟩
    rw [← hm, ← ha.exec_eq_error]
    constructor
    · rintro ⟨next, hs⟩
      obtain ⟨j, -, hj, hx⟩ := step_eq_error.mp (stepInPlace_eq_error.mp hs).1
      rw [hi] at hj
      cases hj
      exact hx
    · intro hx
      exact ⟨m, stepInPlace_eq_error.mpr ⟨step_eq_error.mpr ⟨i, hh, hi, hx⟩, rfl⟩⟩
  · obtain rfl := (stepInPlace_eq_error.mp hs).2
    exact ⟨rfl, hs⟩
  · obtain hl | ⟨start, hs, hr⟩ := runAtInPlace_eq_error hr
    · exact .inl hl
    · obtain ⟨vs, hvs⟩ := runInPlace_eq_error hr
      exact .inr ⟨start, vs, hs, hvs⟩

/-- a program that divides by `BL` and does nothing else -/
def divideProgram : Program where
  origin := 0
  instructions := [{
    opcode := [0xf6, 0xf3], length := 2, imm := none, address := 0, mnemonic := .div,
    operands := [.reg (.byte .bl)], line := "DIV BL".toList, lineNumber := 1 }]
  listing := [⟨0, [0xf6, 0xf3], "DIV BL".toList⟩]
  labels := []

/-- at power-on `BL` is zero -/
theorem divideProgram_fails : assemble "DIV BL".toList 0 = .ok divideProgram ∧
    stepInPlace.run (load {} divideProgram) = .error (.divideByZero 0) (load {} divideProgram) := by
  have h : assemble "DIV BL".toList 0 = .ok divideProgram := rfl
  obtain ⟨hstep, -, hatomic, -⟩ := faults_exact_and_atomic h (m := load {} divideProgram) rfl
  obtain ⟨i, hi, hf⟩ := hstep rfl
  cases hi
  obtain ⟨next, hn⟩ := (hf (.divideByZero 0)).mpr (.divideByZero (.byte .bl) rfl rfl rfl)
  obtain ⟨rfl, -⟩ := hatomic _ _ hn
  exact ⟨h, hn⟩

end Machine

end Mini8086
