import Mini8086.Machine.Status
import Mini8086.Proofs.Devices
import Mini8086.Proofs.InPlaceAgrees

/-!
# Machines with a word of flags

A `PackedMachine` keeps its flags in one word (`Status`), of which nothing says that the other bits
are zero.  It is a device, so work in place is done on it as on a `Machine`.  `Machine.packed` puts
the flags of a machine into a word and keeps the other bits; every packed machine comes about in
this way, and it works as the machine does.

* `PackedMachine.stepInPlace_eq`, `PackedMachine.stepInPlace_eq_some`   a step of a packed machine;
* `PackedMachine.callsFrom_eq`                                          any calls.
-/

namespace Mini8086

structure PackedMachine where
  registers : Registers := {}
  status : Status := {}
  memory : Memory := .empty
  program : List Instruction := []
  pc : Nat := 0
  halted : Bool := false
  executed : Nat := 0

instance : Device PackedMachine where
  registers k := k.registers
  flags k := k.status.flags
  memory k := k.memory
  program k := k.program
  pc k := k.pc
  halted k := k.halted
  setRegisters r k := { k with registers := r }
  setFlag g v k := { k with status := k.status.set g v }
  setMemory mem k := { k with memory := mem }
  setPc j k := { k with pc := j }
  setHalted h k := { k with halted := h }
  count k := { k with executed := k.executed + 1 }

/-- the machine with its flags put into a word -/
def Machine.packed (w : Word) (m : Machine) : PackedMachine where
  registers := m.cpu.registers
  status := m.cpu.flags.inWord w
  memory := m.memory
  program := m.program
  pc := m.pc
  halted := m.halted
  executed := m.executed

theorem Machine.packed_hom (w : Word) : Device.Hom (Machine.packed w) where
  registers _ := rfl
  flags m := m.cpu.flags.flags_inWord w
  memory _ := rfl
  program _ := rfl
  pc _ := rfl
  halted _ := rfl
  setRegisters _ _ := rfl
  setFlag g v m := congrArg (fun s => { m.packed w with status := s })
    (m.cpu.flags.set_inWord w g v).symm
  setMemory _ _ := rfl
  setPc _ _ := rfl
  setHalted _ _ := rfl
  count _ := rfl

namespace PackedMachine
open InPlace Machine

/-- the machine with the flags that are in the word -/
def unpacked (k : PackedMachine) : Machine where
  cpu := ⟨k.registers, k.status.flags⟩
  memory := k.memory
  program := k.program
  pc := k.pc
  halted := k.halted
  executed := k.executed

@[simp] theorem packed_unpacked (k : PackedMachine) : k.unpacked.packed k.status.word = k := by
  simp [Machine.packed, unpacked, Status.inWord_flags]

@[simp] theorem unpacked_packed (w : Word) (m : Machine) : (m.packed w).unpacked = m := by
  simp [Machine.packed, unpacked]

/-- A step is that of the machine with the same flags, and keeps the other bits of the word. -/
theorem stepInPlace_eq (k : PackedMachine) : stepInPlace.run k =
    through (Machine.packed k.status.word) (settleStep k.unpacked k.unpacked.step) := by
  have h := stepInPlace_alike (packed_hom k.status.word) k.unpacked
  rw [packed_unpacked, Machine.stepInPlace_eq] at h
  exact h

theorem stepInPlace_eq_some {k next : PackedMachine} {v : Visit} :
    stepInPlace.run k = .ok (some v) next ↔
      ∃ m, k.unpacked.step = .ok (some (v, m)) ∧ next = m.packed k.status.word := by
  rw [stepInPlace_eq]
  constructor
  · intro h
    unfold settleStep through at h
    cases hs : k.unpacked.step with
    | error f =>
      rw [hs] at h
      cases h
    | ok o =>
      cases o with
      | none =>
        rw [hs] at h
        cases h
      | some p =>
        rw [hs] at h
        cases h
        exact ⟨p.2, rfl, rfl⟩
  · rintro ⟨m, hs, rfl⟩
    rw [hs]
    rfl

theorem callsFrom_eq (k : PackedMachine) (cs : List Call) : callsFrom k cs =
    ((k.unpacked.calls cs).1, (k.unpacked.calls cs).2.packed k.status.word) := by
  have h := callsFrom_map (packed_hom k.status.word) k.unpacked cs
  rw [packed_unpacked] at h
  rw [h, ← callsInPlace_eq]
  rfl

end PackedMachine

end Mini8086
