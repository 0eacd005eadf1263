import Mini8086.Proofs.ControlFlow
import Mini8086.Proofs.RegisterUse
import Mini8086.Proofs.Runs

/-!
# Loops that count

A `LOOP` at the end of a straight piece of code goes back to its start as many times as `CX` says.

* `Machine.Travels`            steps, and how often they do not go on with the instruction behind;
* `Machine.Ready.straight`     a straight piece of code is carried out from its start to its end;
* `Machine.Ready.rounds`       and so is the loop, round after round;
* `countdown_eq_carryOut`      code that has no use for `CX` does not notice the count;
* `Machine.loop_countsDown`    the whole loop, in an assembled program.
-/

namespace Mini8086

/-! ## pieces of code -/

/-- the instructions that always go on with the one behind and never fail -/
def Mnemonic.isStraight : Mnemonic → Bool
  | .div | .hlt | .branch _ => false
  | _ => true

/-- what a trace says about the instruction -/
def Instruction.visit (i : Instruction) : Visit := ⟨i.address, i.line⟩

/-- The instruction writes to no part of the register. -/
def Instruction.Leaves (q : Register) (i : Instruction) : Prop :=
  ∀ s, ∀ r ∈ (i.footprint s).registers, q.Apart r

theorem Instruction.Assembled.exec_straight {labels : List Label} {i : Instruction}
    (hi : i.Assembled labels) (hs : i.mnemonic.isStraight = true) (code : List Instruction)
    (s : State) : ∃ t, i.exec code s = .ok (t, .following) := by
  have hdiv : i.mnemonic ≠ .div := by
    rintro h
    rw [h] at hs
    cases hs
  have hbranch : i.mnemonic.isBranch = false := by
    cases hm : i.mnemonic with
    | branch b =>
      rw [hm] at hs
      cases hs
    | _ => rfl
  obtain ⟨⟨t, next⟩, hx⟩ := hi.exec_ok hdiv hbranch code s
  rcases Instruction.exec_next hx with rfl | ⟨-, hhlt⟩ | ⟨k, u, rfl, -⟩
  · exact ⟨t, hx⟩
  · rw [hhlt] at hs
    cases hs
  · rw [(Instruction.exec_jump hx).1] at hbranch
    cases hbranch

theorem carryOut_get {labels : List Label} {code is : List Instruction} {q : Register}
    (hi : ∀ i ∈ is, i.Assembled labels ∧ i.Leaves q) {s t : State}
    (h : carryOut code s is = .ok t) : t.cpu.get q = s.cpu.get q := by
  induction is generalizing s with
  | nil =>
    cases h
    rfl
  | cons i is ih =>
    obtain ⟨⟨ha, hq⟩, his⟩ := List.forall_mem_cons.mp hi
    cases hx : i.exec code s with
    | error f =>
      unfold carryOut at h
      rw [List.foldlM_cons, hx] at h
      cases h
    | ok r =>
      rw [carryOut_cons hx] at h
      exact (ih his h).trans ((ha.sameOff hx).registers q (hq s))

/-! ## counting down -/

/-- the state after `CX` has been counted down -/
def State.counted (s : State) : State := s.setWord .cx (s.cpu.registers.getWord .cx - 1)

/-- The code carried out `n` times, with `CX` counted down after each of them. -/
def countdown (code body : List Instruction) : Nat → State → Except Fault State
  | 0, s => .ok s
  | n + 1, s => (carryOut code s body).bind fun t => countdown code body n t.counted

/-- how often a loop goes round: `CX` is counted down before it is looked at -/
def rounds (cx : Word) : Nat := if cx = 0 then 2 ^ 16 else cx.toNat

theorem rounds_eq (cx : Word) : rounds cx = (cx - 1).toNat + 1 := by
  unfold rounds
  split
  · next h =>
    rw [h]
    rfl
  · next h =>
    have hpos : cx.toNat ≠ 0 := fun hz => h (BitVec.eq_of_toNat_eq hz)
    have hlt := cx.isLt
    rw [BitVec.toNat_sub]
    show cx.toNat = (2 ^ 16 - 1 + cx.toNat) % 2 ^ 16 + 1
    omega

theorem countdown_succ {code body : List Instruction} {s t : State}
    (h : carryOut code s body = .ok t) (n : Nat) :
    countdown code body (n + 1) s = countdown code body n t.counted := by
  rw [countdown, h]
  rfl

/-- The states are the same but for a word register. -/
def State.SameBut (q : WordRegister) (s t : State) : Prop := ∃ v, t = s.setWord q v

namespace State.SameBut
variable {q : WordRegister} {s t u : State}

theorem refl (q : WordRegister) (s : State) : s.SameBut q s := by
  refine ⟨s.cpu.registers.getWord q, ?_⟩
  cases q <;> rfl

theorem trans (h : s.SameBut q t) (h' : t.SameBut q u) : s.SameBut q u := by
  obtain ⟨v, rfl⟩ := h
  obtain ⟨w, rfl⟩ := h'
  exact ⟨w, s.setWord_setWord v w⟩

theorem exec {code : List Instruction} {i : Instruction} {s' : State} {next : Next}
    (h : s.SameBut q t) (hi : i.Spares q) (hx : i.exec code s = .ok (s', next)) :
    ∃ t', i.exec code t = .ok (t', next) ∧ s'.SameBut q t' := by
  obtain ⟨v, rfl⟩ := h
  rw [Instruction.exec_setWord hi, hx]
  exact ⟨_, rfl, v, rfl⟩

end State.SameBut

/-- Code that has no use for `CX` is carried out `n` times as if `CX` had not been counted down. -/
theorem countdown_eq_carryOut {code body : List Instruction} (hb : ∀ i ∈ body, i.Spares .cx)
    {n : Nat} {s t : State} (h : countdown code body n s = .ok t) :
    ∃ u, carryOut code s (List.replicate n body).flatten = .ok u ∧ u.SameBut .cx t := by
  induction n generalizing s with
  | zero =>
    cases h
    exact ⟨_, rfl, .refl .cx _⟩
  | succ n ih =>
    obtain ⟨s', hs, h⟩ := bind_eq_ok.mp h
    obtain ⟨u, hu, hut⟩ := ih h
    -- the other rounds start with `CX` counted down, which goes through them to their end
    have hall : ∀ i ∈ (List.replicate n body).flatten, i.Spares .cx := by
      intro i hi
      obtain ⟨is, his, hi⟩ := List.mem_flatten.mp hi
      exact hb i (List.eq_of_mem_replicate his ▸ hi)
    rw [State.counted, carryOut_setWord hall] at hu
    obtain ⟨w, hw, rfl⟩ := map_eq_ok.mp hu
    refine ⟨w, ?_, State.SameBut.trans ⟨_, rfl⟩ hut⟩
    rw [List.replicate_succ, List.flatten_cons, carryOut_append hs, hw]

/-! ## steps of a machine -/

namespace Machine
variable {m next last : Machine} {v : Visit} {vs us : List Visit} {j k : Nat}

/-- Successful steps with the instructions that they executed, and the number of those after which
execution has not gone on with the instruction behind. -/
inductive Travels : Machine → List Visit → Nat → Machine → Prop
  | none (m : Machine) : Travels m [] 0 m
  | on {m next last : Machine} {v : Visit} {vs : List Visit} {j : Nat}
      (h : m.step = .ok (some (v, next))) (hpc : next.pc = m.pc + 1)
      (hs : Travels next vs j last) : Travels m (v :: vs) j last
  | away {m next last : Machine} {v : Visit} {vs : List Visit} {j : Nat}
      (h : m.step = .ok (some (v, next))) (hpc : next.pc ≠ m.pc + 1)
      (hs : Travels next vs j last) : Travels m (v :: vs) (j + 1) last

theorem Travels.steps (h : Travels m vs j last) : Steps m vs last := by
  induction h with
  | none m => exact .none m
  | on h _ _ ih | away h _ _ ih => exact .more h ih

theorem Travels.append (h : Travels m vs j next) (h' : Travels next us k last) :
    Travels m (vs ++ us) (j + k) last := by
  induction h with
  | none m =>
    rw [Nat.zero_add]
    exact h'
  | on h hpc _ ih => exact .on h hpc (ih h')
  | away h hpc _ ih =>
    rw [Nat.add_right_comm]
    exact .away h hpc (ih h')

/-- The machine is about to execute the instruction at index `k`, in the state `s` but for `IP`. -/
structure Ready (code : List Instruction) (k : Nat) (s : State) (m : Machine) : Prop where
  program : m.program = code
  pc : m.pc = k
  halted : m.halted = false
  state : s.SameBut .ip m.toState

section
variable {labels : List Label} {code upper body lower : List Instruction} {i loop : Instruction}
  {s : State}

/-- An instruction that is carried out and does not halt. -/
theorem Ready.step (h : m.Ready code k s) (hi : code[k]? = some i) (hip : i.Spares .ip)
    {t : State} {n : Next} (hx : i.exec code s = .ok (t, n)) (hn : n ≠ .halt) :
    ∃ next l, m.step = .ok (some (i.visit, next)) ∧ next.Ready code l t ∧
      (n = .following → l = k + 1) ∧ ∀ index u, n = .jump index u → l = index := by
  obtain ⟨rfl, rfl, hh, hs⟩ := h
  obtain ⟨t', hx', ht⟩ := hs.exec hip hx
  have hstep : m.step = .ok (some (i.visit, m.advance i t' n)) := by
    rw [step_of_getElem? hh hi, hx']
    rfl
  cases n with
  | following =>
    exact ⟨_, _, hstep, ⟨rfl, rfl, hh, ht.trans ⟨_, rfl⟩⟩, fun _ => rfl, fun _ _ he => nomatch he⟩
  | jump index u =>
    refine ⟨_, _, hstep, ⟨rfl, rfl, hh, ht.trans ⟨_, rfl⟩⟩, (nomatch ·), fun _ _ he => ?_⟩
    cases he
    rfl
  | halt => exact absurd rfl hn

/-- A straight piece of code is carried out from its start to its end. -/
theorem Ready.straight (hcode : code = upper ++ body ++ lower)
    (hbody : ∀ i ∈ body, i.Assembled labels ∧ i.mnemonic.isStraight = true)
    (h : m.Ready code upper.length s) :
    ∃ t last, carryOut code s body = .ok t ∧ m.Travels (body.map Instruction.visit) 0 last ∧
      last.Ready code (upper.length + body.length) t := by
  induction body generalizing upper m s with
  | nil => exact ⟨s, m, rfl, .none m, h⟩
  | cons i body ih =>
    obtain ⟨⟨ha, hs⟩, hbody⟩ := List.forall_mem_cons.mp hbody
    obtain ⟨t, hx⟩ := ha.exec_straight hs code s
    have hi : code[upper.length]? = some i := by
      rw [hcode]
      simp
    obtain ⟨next, l, hstep, hnext, hl, -⟩ := h.step hi ha.spares_ip hx Next.noConfusion
    obtain rfl := hl rfl
    have hcode' : code = (upper ++ [i]) ++ body ++ lower := by
      rw [hcode]
      simp
    have hlen : (upper ++ [i]).length = upper.length + 1 := List.length_append
    obtain ⟨t', last, hout, htravels, hlast⟩ := ih hcode' hbody (hlen ▸ hnext)
    refine ⟨t', last, ?_, .on hstep ?_ htravels, ?_⟩
    · rw [carryOut_cons hx, hout]
    · rw [hnext.pc, h.pc]
    · rw [hlen] at hlast
      rw [List.length_cons, Nat.add_comm body.length, ← Nat.add_assoc]
      exact hlast

/-- The loop instruction counts down, and goes back unless the count is at an end. -/
theorem Ready.count (hloop : code[k]? = some loop) (hm : loop.mnemonic = .branch .loop)
    (ha : loop.Assembled labels) {u : Address} (hu : loop.target? = some u)
    (hj : indexOf? code u = some j) (h : m.Ready code k s) :
    ∃ next, m.step = .ok (some (loop.visit, next)) ∧
      next.Ready code (if s.counted.cpu.registers.getWord .cx = 0 then k + 1 else j) s.counted := by
  have ho : loop.operation? = some (.loop (some u)) := by
    unfold Instruction.operation?
    rw [hm, hu]
    rfl
  have hcx : s.counted.cpu.registers.getWord .cx = s.cpu.registers.getWord .cx - 1 :=
    s.getWord_setWord_self _
  rw [hcx]
  split
  · next hz =>
    have hx : loop.exec code s = .ok (s.counted, .following) := by
      rw [Instruction.exec, ho]
      exact if_pos hz
    obtain ⟨next, l, hstep, hnext, hl, -⟩ := h.step hloop ha.spares_ip hx Next.noConfusion
    exact ⟨next, hstep, hl rfl ▸ hnext⟩
  · next hz =>
    have hjump : jumpTo code loop.address (some u) = .ok (.jump j u) := by
      rw [jumpTo, hj]
    have hx : loop.exec code s = .ok (s.counted, .jump j u) := by
      rw [Instruction.exec, ho]
      refine (if_neg hz).trans ?_
      rw [hjump]
      rfl
    obtain ⟨next, l, hstep, hnext, -, hl⟩ := h.step hloop ha.spares_ip hx Next.noConfusion
    exact ⟨next, hstep, hl j u rfl ▸ hnext⟩

/-- The piece of code and the loop instruction behind it, which goes back to its start. -/
structure IsLoop (labels : List Label) (code upper body : List Instruction)
    (loop : Instruction) : Prop where
  layout : ∃ lower, code = upper ++ body ++ loop :: lower
  straight : ∀ i ∈ body, i.Assembled labels ∧ i.mnemonic.isStraight = true ∧ i.Leaves (.word .cx)
  assembled : loop.Assembled labels
  mnemonic : loop.mnemonic = .branch .loop
  target : ∃ u, loop.target? = some u ∧ indexOf? code u = some upper.length

/-- One round: the piece of code and the loop instruction. -/
theorem Ready.round (hl : IsLoop labels code upper body loop) (h : m.Ready code upper.length s) :
    ∃ t next, carryOut code s body = .ok t ∧
      t.cpu.registers.getWord .cx = s.cpu.registers.getWord .cx ∧
      (t.counted.cpu.registers.getWord .cx = 0 →
        m.Travels ((body ++ [loop]).map Instruction.visit) 0 next ∧
        next.Ready code (upper.length + body.length + 1) t.counted) ∧
      (t.counted.cpu.registers.getWord .cx ≠ 0 →
        m.Travels ((body ++ [loop]).map Instruction.visit) 1 next ∧
        next.Ready code upper.length t.counted) := by
  obtain ⟨lower, hcode⟩ := hl.layout
  obtain ⟨u, hu, hj⟩ := hl.target
  obtain ⟨t, mid, hout, htravels, hmid⟩ :=
    h.straight hcode fun i hi => ⟨(hl.straight i hi).1, (hl.straight i hi).2.1⟩
  have hloop : code[upper.length + body.length]? = some loop := by
    rw [hcode]
    simp
  obtain ⟨next, hstep, hnext⟩ := hmid.count hloop hl.mnemonic hl.assembled hu hj
  have hcx := carryOut_get (q := .word .cx)
    (fun i hi => ⟨(hl.straight i hi).1, (hl.straight i hi).2.2⟩) hout
  rw [List.map_append]
  refine ⟨t, next, hout, hcx, fun hz => ?_, fun hz => ?_⟩
  · rw [if_pos hz] at hnext
    have hpc : next.pc = mid.pc + 1 := by rw [hnext.pc, hmid.pc]
    exact ⟨htravels.append (.on hstep hpc (.none next)), hnext⟩
  · rw [if_neg hz] at hnext
    have hpc : next.pc ≠ mid.pc + 1 := by
      rw [hnext.pc, hmid.pc]
      omega
    exact ⟨htravels.append (.away hstep hpc (.none next)), hnext⟩

/-- Round after round, as many as `CX` says. -/
theorem Ready.rounds (hl : IsLoop labels code upper body loop) {n : Nat}
    (h : m.Ready code upper.length s) (hn : (s.cpu.registers.getWord .cx - 1).toNat = n) :
    ∃ t last, countdown code body (n + 1) s = .ok t ∧
      m.Travels (List.replicate (n + 1) ((body ++ [loop]).map Instruction.visit)).flatten n last ∧
      last.Ready code (upper.length + body.length + 1) t ∧
      t.cpu.registers.getWord .cx = 0 := by
  induction n generalizing m s with
  | zero =>
    obtain ⟨t, next, hout, hcx, hend, -⟩ := h.round hl
    have hz : t.counted.cpu.registers.getWord .cx = 0 := by
      rw [State.counted, State.getWord_setWord_self, hcx]
      exact BitVec.eq_of_toNat_eq hn
    obtain ⟨htravels, hnext⟩ := hend hz
    refine ⟨t.counted, next, countdown_succ hout 0, ?_, hnext, hz⟩
    rw [List.replicate_one, List.flatten_singleton]
    exact htravels
  | succ n ih =>
    obtain ⟨t, next, hout, hcx, -, hback⟩ := h.round hl
    have hcounted : (t.counted.cpu.registers.getWord .cx).toNat = n + 1 := by
      rw [State.counted, State.getWord_setWord_self, hcx]
      exact hn
    have hz : t.counted.cpu.registers.getWord .cx ≠ 0 := by
      intro hz
      rw [hz] at hcounted
      cases hcounted
    obtain ⟨htravels, hnext⟩ := hback hz
    -- one round less is left for the loop that starts over
    have hless : (t.counted.cpu.registers.getWord .cx - 1).toNat = n := by
      have hrounds := rounds_eq (t.counted.cpu.registers.getWord .cx)
      rw [Mini8086.rounds, if_neg hz] at hrounds
      omega
    obtain ⟨t', last, hdown, hrest, hlast, hcx'⟩ := ih hnext hless
    refine ⟨t', last, ?_, ?_, hlast, hcx'⟩
    · rw [countdown_succ hout, hdown]
    · have hall := htravels.append hrest
      rw [Nat.add_comm 1 n] at hall
      rw [List.replicate_succ, List.flatten_cons]
      exact hall

end

/-! ## the loop -/

/-- The machine at the start of a loop becomes `last` by `n` rounds. -/
structure CountsDown (body : List Instruction) (loop : Instruction) (n : Nat)
    (m last : Machine) : Prop where
  /-- the code is executed `n` times in order, and all rounds but the last go back -/
  travels : m.Travels (List.replicate n ((body ++ [loop]).map Instruction.visit)).flatten (n - 1)
    last
  executed : last.executed = m.executed + (body.length + 1) * n
  pc : last.pc = m.pc + body.length + 1
  halted : last.halted = false
  counter : last.cpu.registers.getWord .cx = 0
  /-- the state is that after the code with `CX` counted down -/
  state : ∃ t, countdown m.program body n m.toState = .ok t ∧ t.SameBut .ip last.toState
  /-- code that has no use for `CX` leaves what it leaves alone, but for `CX` -/
  alone : (∀ i ∈ body, i.Spares .cx) → ∃ t u,
    carryOut m.program m.toState (List.replicate n body).flatten = .ok t ∧
      t.SameBut .cx u ∧ u.SameBut .ip last.toState

/-- A loop in an assembled program, around a straight piece of code that does not write to `CX`. -/
theorem loop_countsDown {source : Text} {origin : Address} {p : Program}
    (hp : assemble source origin = .ok p) {upper body lower : List Instruction}
    {first loop : Instruction} (hcode : p.instructions = upper ++ body ++ loop :: lower)
    (hbody : ∀ i ∈ body, i.mnemonic.isStraight = true ∧ i.Leaves (.word .cx))
    (hloop : loop.mnemonic = .branch .loop)
    (hfirst : p.instructions[upper.length]? = some first)
    (htarget : loop.target? = some first.address) {m : Machine}
    (hm : m.program = p.instructions) (hh : m.halted = false) (hpc : m.pc = upper.length) :
    ∃ last, m.CountsDown body loop (rounds (m.cpu.registers.getWord .cx)) last := by
  obtain ⟨hc, hpos⟩ := contiguous_of_assemble hp
  have ha := (assembled_of_assemble hp).2.instructions
  have hindex : indexOf? p.instructions first.address = some upper.length :=
    (indexOf?_eq_some_iff (hc.pairwise_lt hpos)).mpr ⟨first, hfirst, rfl⟩
  have hmem : ∀ i ∈ body, i ∈ p.instructions := by
    intro i hi
    rw [hcode]
    simp [hi]
  have hlmem : loop ∈ p.instructions := by
    rw [hcode]
    simp
  have hl : IsLoop p.labels p.instructions upper body loop :=
    ⟨⟨lower, hcode⟩, fun i hi => ⟨ha i (hmem i hi), hbody i hi⟩, ha loop hlmem, hloop,
      first.address, htarget, hindex⟩
  obtain ⟨t, last, hdown, htravels, hlast, hcx⟩ :=
    Ready.rounds hl ⟨hm, hpc, hh, .refl .ip m.toState⟩ rfl
  rw [rounds_eq]
  refine ⟨last, htravels, ?_, ?_, hlast.halted, ?_, ⟨t, hm ▸ hdown, hlast.state⟩, fun hb => ?_⟩
  · rw [htravels.steps.executed_eq]
    simp [Nat.mul_comm]
  · rw [hlast.pc, hpc]
  · obtain ⟨v, hv⟩ := hlast.state
    rw [hv, State.getWord_setWord_of_ne _ _ WordRegister.noConfusion, hcx]
  · obtain ⟨u, hu, hut⟩ := countdown_eq_carryOut hb hdown
    exact ⟨u, t, hm ▸ hu, hut, hlast.state⟩

/-- With `CX` at zero the counting program goes round `2 ^ 16` times. -/
theorem loop_countsDown_of_zero : assemble countingSource 0x100 = .ok countingProgram ∧
    ∃ inc loop, countingProgram.instructions = [inc, loop] ∧
      ∃ last, ({ program := countingProgram.instructions } : Machine).CountsDown [inc] loop
        (2 ^ 16) last := by
  obtain ⟨inc, loop, hcode⟩ : ∃ inc loop, countingProgram.instructions = [] ++ [inc] ++ [loop] :=
    ⟨_, _, rfl⟩
  refine ⟨assemble_countingSource, inc, loop, hcode, ?_⟩
  have hbody : ∀ i ∈ [inc], i.mnemonic.isStraight = true ∧ i.Leaves (.word .cx) := by
    cases hcode
    refine List.forall_mem_singleton.mpr ⟨rfl, fun s => ?_⟩
    exact List.forall_mem_singleton.mpr WordRegister.noConfusion
  have hfirst : countingProgram.instructions[0]? = some inc := hcode ▸ rfl
  have hloop : loop.mnemonic = .branch .loop ∧ loop.target? = some inc.address := by
    cases hcode
    exact ⟨rfl, rfl⟩
  exact loop_countsDown assemble_countingSource hcode hbody hloop.1 hfirst hloop.2
    (m := { program := countingProgram.instructions }) rfl rfl rfl

/-- a loop that adds the count itself -/
def accumulatingSource : Text := "top: ADD AX,CX
LOOP top".toList

def accumulatingProgram : Program :=
  let instructions : List Instruction := [
    { opcode := [0x01, 0xd8], length := 2, imm := none, address := 0, mnemonic := .alu .add,
      operands := [.reg (.word .ax), .reg (.word .cx)], line := "top: ADD AX,CX".toList,
      lineNumber := 1 },
    { opcode := [0xe2], length := 2, imm := some (.value 0), address := 2,
      mnemonic := .branch .loop, operands := [.label "TOP".toList], line := "LOOP top".toList,
      lineNumber := 2 }]
  { origin := 0
    instructions := instructions
    listing := instructions.map Instruction.listed
    labels := [⟨"TOP".toList, 0, 1⟩] }

/-- the machine at the start of the loop, with two in `CX` -/
def accumulatingMachine : Machine :=
  { program := accumulatingProgram.instructions, cpu := { registers := { cx := 2 } } }

/-- Code that reads `CX` does notice the count: the loop adds two and one, where the addition
carried out twice alone adds two and two. -/
theorem loop_differs_from_alone :
    assemble accumulatingSource 0 = .ok accumulatingProgram ∧
    ∃ add loop, accumulatingProgram.instructions = [add, loop] ∧
      add.mnemonic.isStraight = true ∧ add.Leaves (.word .cx) ∧
      loop.mnemonic = .branch .loop ∧ loop.target? = some add.address ∧
      ¬ ∃ t u, carryOut accumulatingMachine.program accumulatingMachine.toState
          (List.replicate 2 [add]).flatten = .ok t ∧
        t.SameBut .cx u ∧ u.SameBut .ip (accumulatingMachine.run 4).machine.toState := by
  refine ⟨by decide +kernel, _, _, rfl, rfl, fun s => ?_, rfl, rfl, ?_⟩
  · exact List.forall_mem_singleton.mpr WordRegister.noConfusion
  · rintro ⟨t, u, ht, ⟨v, rfl⟩, ⟨w, hw⟩⟩
    have halone : t.cpu.registers.ax = 4 := by
      cases ht
      rfl
    have hloop : (accumulatingMachine.run 4).machine.cpu.registers.ax = 3 := rfl
    have hax : (accumulatingMachine.run 4).machine.cpu.registers.ax = t.cpu.registers.ax := by
      rw [hw]
      rfl
    rw [hloop, halone] at hax
    exact absurd hax (by decide)

end Machine

end Mini8086
