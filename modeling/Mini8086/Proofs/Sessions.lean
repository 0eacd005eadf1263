import Mini8086.Proofs.Assembled
import Mini8086.Proofs.Stepping
import Mini8086.Session

/-!
# What holds in every session

Where execution is, is kept twice: as the index of the next instruction, which decides what is
executed, and in the instruction pointer, which is only shown.  `Machine.Follows` says that the two
agree, by way of the addresses of the program: the instructions lie one behind the other, so that
the address behind one is that of the next.

* `Machine.Follows.step`, `Machine.Follows.run`, `Machine.Follows.seek`   what a machine does keeps
                                                                       them together;
* `Session.Sound.after`    so does every request, whether it fails or not.

Hence they agree after any requests, and without a program the machine is as at power-on.
-/

namespace Mini8086

/-! ## a machine with its program -/

namespace Machine

/-- the address that execution has reached in a program: behind a halt, else that of the next
instruction, or the end of the program -/
def reached (m : Machine) (p : Program) : Address :=
  addressAt p.origin p.instructions (if m.halted then m.pc + 1 else m.pc)

/-- The machine executes the program, and its instruction pointer is where its index is. -/
structure Follows (p : Program) (m : Machine) : Prop where
  program : m.program = p.instructions
  pc_le : m.pc ≤ p.instructions.length
  halt : m.halted = true → ∃ i, p.instructions[m.pc]? = some i ∧ i.mnemonic = .hlt
  pointer : m.cpu.registers.ip = BitVec.ofNat 16 (m.reached p)

theorem follows_load (m : Machine) (p : Program) : (m.load p).Follows p where
  program := rfl
  pc_le := Nat.zero_le _
  halt := fun h => nomatch h
  pointer := congrArg (BitVec.ofNat 16) (addressAt_zero ..).symm

variable {p : Program} {m : Machine}

/-- a machine that goes on at the first instruction with an address -/
theorem Follows.goTo (h : m.Follows p) (ha : p.Assembled) {k : Nat} {a : Address}
    (hk : indexOf? m.program a = some k) (s : State) (n : Nat) :
    Follows p ({ m with toState := s, pc := k, halted := false, executed := n }.pointTo a) := by
  obtain ⟨i, hi, rfl⟩ := indexOf?_eq_some hk
  rw [h.program] at hi
  refine ⟨h.program, Nat.le_of_lt (List.getElem?_eq_some_iff.mp hi).1, (nomatch ·), ?_⟩
  exact congrArg (BitVec.ofNat 16) (ha.contiguous.address_eq hi)

theorem Follows.step (ha : p.Assembled) (h : m.Follows p) {v : Visit} {next : Machine}
    (hs : m.step = .ok (some (v, next))) : next.Follows p := by
  obtain ⟨i, s, n, hh, hi, hx, -, rfl⟩ := step_eq_some.mp hs
  have hnext := Instruction.exec_next hx
  have hi' := h.program ▸ hi
  have hlt := (List.getElem?_eq_some_iff.mp hi').1
  have hbehind := ha.contiguous.nextAddress_eq hi'
  rcases hnext with rfl | ⟨rfl, hm⟩ | ⟨k, target, rfl, hk⟩
  · refine ⟨h.program, hlt, fun hh' => absurd hh' (hh ▸ Bool.false_ne_true), ?_⟩
    show BitVec.ofNat 16 i.nextAddress =
      BitVec.ofNat 16 (addressAt _ _ (if m.halted then m.pc + 1 + 1 else m.pc + 1))
    rw [hh, hbehind]
    rfl
  · refine ⟨h.program, h.pc_le, fun _ => ⟨i, hi', hm⟩, ?_⟩
    exact congrArg (BitVec.ofNat 16) hbehind
  · have hj := h.goTo ha hk s (m.executed + 1)
    rw [← hh] at hj
    exact hj

theorem Follows.seek (ha : p.Assembled) (h : m.Follows p) {a : Address} {next : Machine}
    (hs : m.seek a = .ok next) : next.Follows p := by
  obtain ⟨k, hk, rfl⟩ := seek_eq_ok hs
  exact h.goTo ha hk m.toState m.executed

theorem Follows.run (ha : p.Assembled) (h : m.Follows p) (a : Address) (budget : Nat) :
    (m.runAt a budget).machine.Follows p :=
  call_keeps (P := Follows p) (fun _ _ _ hm => hm.step ha) (fun _ _ _ hm => hm.seek ha) h
    (.runAt a budget)

/-- the machine of a session without a program -/
def AtPowerOn (m : Machine) : Prop := m = { memory := m.memory }

end Machine

/-! ## requests -/

/-- What may be asked of a session. -/
inductive Request where
  | assemble (source : Text) (origin : Address)
  | run (start : Option Address) (budget : Nat)
  | seek (a : Address)
  | step
  | reset
  | writeByte (a : Address) (b : Byte)
  | writeWord (a : Address) (w : Word)
  | writeBytes (a : Address) (bs : List Byte)
  | clearMemory
  deriving DecidableEq, Repr

namespace Session

/-- the session after a request; one that fails before it does anything leaves it as it was -/
def after (s : Session) : Request → Session
  | .assemble source origin =>
    match s.assemble source origin with
    | .ok t => t
    | .error _ => s
  | .run start budget =>
    match s.run start budget with
    | .ok r => { s with machine := r.machine }
    | .error _ => s
  | .seek a =>
    match s.seek a with
    | .ok t => t
    | .error _ => s
  | .step =>
    match s.step with
    | .ok (some (_, t)) => t
    | .ok none => s
    | .error _ => s
  | .reset => s.reset
  | .writeByte a b => s.mapMemory fun m => m.write a b
  | .writeWord a w => s.mapMemory fun m => m.writeWord a w
  | .writeBytes a bs => s.mapMemory fun m => m.load a bs
  | .clearMemory => s.mapMemory fun _ => .empty

/-- What loading, steps, seeks, resets and changes of memory keep, every request keeps. -/
theorem after_keeps {P : Machine → Prop} (hload : ∀ m p, P m → P (m.load p))
    (hstep : ∀ m v next, P m → m.step = .ok (some (v, next)) → P next)
    (hseek : ∀ m a next, P m → m.seek a = .ok next → P next) (hreset : ∀ m, P m → P m.reset)
    (hmemory : ∀ (m : Machine) mem, P m → P { m with memory := mem }) {s : Session}
    (h : P s.machine) (r : Request) : P (s.after r).machine := by
  unfold Session.after
  cases r with
  | assemble source origin =>
    dsimp only [Session.assemble]
    cases Mini8086.assemble source origin with
    | ok p => exact hload _ p h
    | error e => exact h
  | run start budget =>
    dsimp only [Session.run]
    cases s.program with
    | none => exact h
    | some p => exact Machine.call_keeps hstep hseek h (.runAt (start.getD p.origin) budget)
  | seek a =>
    dsimp only [Session.seek]
    cases s.program with
    | none => exact h
    | some p =>
      cases hs : s.machine.seek a with
      | ok m => exact hseek _ a m h hs
      | error f => exact h
  | step =>
    dsimp only [Session.step]
    cases s.program with
    | none => exact h
    | some p =>
      match hs : s.machine.step with
      | .ok none => exact h
      | .ok (some (v, m)) => exact hstep _ v m h hs
      | .error f => exact h
  | reset => exact hreset _ h
  | writeByte | writeWord | writeBytes | clearMemory => exact hmemory _ _ h

/-- What holds in every session. -/
def Sound (s : Session) : Prop :=
  match s.program with
  | none => s.machine.AtPowerOn
  | some p => p.Assembled ∧ s.machine.Follows p

section
variable {s : Session} {p : Program}

theorem Sound.follows (h : s.Sound) (hp : s.program = some p) :
    p.Assembled ∧ s.machine.Follows p := by
  rw [Sound, hp] at h
  exact h

theorem sound_of_follows (hp : s.program = some p) (ha : p.Assembled) {m : Machine}
    (hm : m.Follows p) : Sound { s with machine := m } := by
  rw [Sound, hp]
  exact ⟨ha, hm⟩

end

theorem Sound.mapMemory {s : Session} (h : s.Sound) (f : Memory → Memory) :
    (s.mapMemory f).Sound := by
  obtain ⟨m, o⟩ := s
  cases o with
  | none =>
    -- only the memory is not that of power-on
    exact congrArg (fun m : Machine => { m with memory := f m.memory }) h
  | some p => exact ⟨h.1, h.2.program, h.2.pc_le, h.2.halt, h.2.pointer⟩

theorem Sound.assemble {s t : Session} {source : Text} {origin : Address}
    (h : s.assemble source origin = .ok t) : t.Sound := by
  unfold Session.assemble at h
  split at h
  · next p hp =>
    cases h
    exact ⟨(assembled_of_assemble hp).2, s.machine.follows_load p⟩
  · contradiction

theorem Sound.run {s : Session} (h : s.Sound) {start : Option Address} {budget : Nat}
    {r : Machine.Run} (hr : s.run start budget = .ok r) :
    Sound { s with machine := r.machine } := by
  unfold Session.run at hr
  split at hr
  · contradiction
  · next p hp =>
    cases hr
    obtain ⟨ha, hf⟩ := h.follows hp
    exact sound_of_follows hp ha (hf.run ha _ _)

theorem Sound.seek {s t : Session} (h : s.Sound) {a : Address} (hs : s.seek a = .ok t) :
    t.Sound := by
  unfold Session.seek at hs
  split at hs
  · contradiction
  · next p hp =>
    obtain ⟨ha, hf⟩ := h.follows hp
    split at hs
    · next m hm =>
      cases hs
      exact sound_of_follows hp ha (hf.seek ha hm)
    · contradiction

theorem Sound.step {s t : Session} (h : s.Sound) {v : Visit} (hs : s.step = .ok (some (v, t))) :
    t.Sound := by
  unfold Session.step at hs
  split at hs
  · contradiction
  · next p hp =>
    obtain ⟨ha, hf⟩ := h.follows hp
    split at hs
    · cases hs
    · next w m hm =>
      cases hs
      exact sound_of_follows hp ha (hf.step ha hm)
    · contradiction

/-- Every request keeps a session sound, whether it fails or not. -/
theorem Sound.after {s : Session} (h : s.Sound) (r : Request) : (s.after r).Sound := by
  unfold Session.after
  cases r with
  | assemble source origin =>
    dsimp only
    split
    · next t ht => exact Sound.assemble ht
    · exact h
  | run start budget =>
    dsimp only
    split
    · next r hr => exact h.run hr
    · exact h
  | seek a =>
    dsimp only
    split
    · next t ht => exact h.seek ht
    · exact h
  | step =>
    dsimp only
    split
    · next v t ht => exact h.step ht
    · exact h
    · exact h
  | reset => exact rfl
  | writeByte | writeWord | writeBytes | clearMemory => exact h.mapMemory _

theorem Sound.requests {s : Session} (h : s.Sound) (rs : List Request) :
    (rs.foldl Session.after s).Sound := by
  induction rs generalizing s with
  | nil => exact h
  | cons r rs ih => exact ih (h.after r)

/-- After any requests to a new session: without a program the machine is as at power-on but for
its memory; with one, that is the program of the machine, whose index is in it or at its end, which
is halted only at an `hlt`, and whose instruction pointer is the address that the index stands
for, or the one behind the `hlt`. -/
theorem sound_of_requests (rs : List Request) {s : Session} (hs : rs.foldl after {} = s) :
    (s.program = none → s.machine.program = [] ∧ s.machine.pc = 0 ∧ s.machine.halted = false ∧
      s.machine.executed = 0 ∧ s.machine.cpu = {}) ∧
    ∀ p, s.program = some p →
      s.machine.program = p.instructions ∧ s.machine.pc ≤ p.instructions.length ∧
      (s.machine.halted = true → ∃ i, p.instructions[s.machine.pc]? = some i ∧
        i.mnemonic = .hlt ∧ s.machine.cpu.registers.ip = BitVec.ofNat 16 i.nextAddress) ∧
      (s.machine.halted = false →
        (∀ i, p.instructions[s.machine.pc]? = some i →
          s.machine.cpu.registers.ip = BitVec.ofNat 16 i.address) ∧
        (s.machine.pc = p.instructions.length →
          s.machine.cpu.registers.ip = BitVec.ofNat 16 (p.origin + p.bytes.length))) := by
  have h : s.Sound := hs ▸ Sound.requests (s := {}) rfl rs
  constructor
  · intro hp
    rw [Sound, hp] at h
    change s.machine = _ at h
    rw [h]
    exact ⟨rfl, rfl, rfl, rfl, rfl⟩
  · intro p hp
    obtain ⟨ha, hf⟩ := h.follows hp
    have hip := hf.pointer
    refine ⟨hf.program, hf.pc_le, fun hh => ?_, fun hh => ⟨fun i hi => ?_, fun hend => ?_⟩⟩
    · obtain ⟨i, hi, hm⟩ := hf.halt hh
      rw [Machine.reached, hh, if_pos rfl, ← ha.contiguous.nextAddress_eq hi] at hip
      exact ⟨i, hi, hm, hip⟩
    · rw [Machine.reached, hh, if_neg Bool.false_ne_true, ← ha.contiguous.address_eq hi] at hip
      exact hip
    · rw [Machine.reached, hh, if_neg Bool.false_ne_true, hend, addressAt_length,
        ← ha.length_bytes] at hip
      exact hip

/-- a program that halts at once, high up in memory -/
def haltProgram : Program where
  origin := 0x1ffff
  instructions := [{
    opcode := [0xf4], length := 1, imm := none, address := 0x1ffff, mnemonic := .hlt,
    operands := [], line := "HLT".toList, lineNumber := 1 }]
  listing := [⟨0x1ffff, [0xf4], "HLT".toList⟩]
  labels := []

/-- the address behind the `hlt` is `20000`, of which the pointer holds the low 16 bits -/
theorem sound_of_requests_of_halt :
    ∃ s, [Request.assemble "HLT".toList 0x1ffff, .run none 10].foldl after {} = s ∧
      s.program = some haltProgram ∧ s.machine.halted = true ∧
      s.machine.cpu.registers.ip = 0 := by
  refine ⟨_, rfl, rfl, rfl, ?_⟩
  obtain ⟨-, h⟩ := sound_of_requests [.assemble "HLT".toList 0x1ffff, .run none 10] rfl
  obtain ⟨-, -, hhalt, -⟩ := h haltProgram rfl
  obtain ⟨i, hi, -, hip⟩ := hhalt rfl
  cases hi
  exact hip

end Session

end Mini8086
