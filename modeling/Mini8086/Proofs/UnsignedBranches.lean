import Mini8086.Proofs.Comparisons
import Mini8086.Proofs.Faults

/-!
# Numbers without sign after a comparison

After `cmp` or `sub` carry tells whether the first number is below the second one, and zero whether
the two are equal.  The branches on carry and zero compare numbers without sign.  They need nothing
of overflow, and so they are always right, at both widths and for every source.

* `Condition.holds_unsigned`   what these branches find in the flags;
* `unsigned_branches`          what they do, and that they cover the order of numbers.
-/

namespace Mini8086

/-- the comparison of numbers without sign that a branch stands for -/
def Branch.unsignedTest? : Branch → Option (Nat → Nat → Bool)
  | .jb | .jc => some fun a b => decide (a < b)
  | .jnb | .jnc => some fun a b => decide (a ≥ b)
  | .ja => some fun a b => decide (a > b)
  | .jna => some fun a b => decide (a ≤ b)
  | .jz => some fun a b => decide (a = b)
  | .jnz => some fun a b => decide (a ≠ b)
  | _ => none

/-- The flags of a difference with its borrow give the right answer. -/
theorem Condition.holds_unsigned {n : Nat} {a b : BitVec n} {f : Flags}
    (hf : f.carry = decide (a.toNat < b.toNat)) {br : Branch} {c : Condition}
    (hc : br.condition? = some c) {test : Nat → Nat → Bool} (ht : br.unsignedTest? = some test) :
    c.holds (f.after (a - b)) = test a.toNat b.toNat := by
  have hcarry : (f.after (a - b)).carry = decide (a.toNat < b.toNat) := hf
  have hzero : (f.after (a - b)).zero = decide (a.toNat = b.toNat) := by
    rw [Flags.zero_after_sub, decide_eq_decide, BitVec.toNat_inj]
  generalize f.after (a - b) = g at hcarry hzero ⊢
  generalize a.toNat = x at hcarry hzero ⊢
  generalize b.toNat = y at hcarry hzero ⊢
  cases br <;> cases ht <;> cases hc
  all_goals
    rw [Bool.eq_iff_iff]
    simp [Condition.holds, hcarry, hzero]
  all_goals omega

/-- Of two numbers the first is below the second, equal to it or above it, and only one of these. -/
theorem existsUnique_unsignedTest (a b : Nat) :
    ∃! br, br ∈ [Branch.jb, .jz, .ja] ∧ ∃ test, br.unsignedTest? = some test ∧ test a b = true := by
  obtain ⟨br, hbr, test, ht, htrue⟩ : ∃ br ∈ [Branch.jb, .jz, .ja], ∃ test,
      br.unsignedTest? = some test ∧ test a b = true := by
    obtain h | h | h := lt_trichotomy a b
    · exact ⟨.jb, by decide, _, rfl, decide_eq_true h⟩
    · exact ⟨.jz, by decide, _, rfl, decide_eq_true h⟩
    · exact ⟨.ja, by decide, _, rfl, decide_eq_true h⟩
  refine ⟨br, ⟨hbr, test, ht, htrue⟩, ?_⟩
  rintro other ⟨hother, test', ht', htrue'⟩
  simp only [List.mem_cons, List.not_mem_nil, or_false] at hbr hother
  rcases hbr with rfl | rfl | rfl <;> rcases hother with rfl | rfl | rfl <;> cases ht <;> cases ht'
  -- the same branch twice, or two that ask for different orders
  all_goals first
    | rfl
    | rw [decide_eq_true_eq] at htrue htrue'
      omega

/-- The branches for numbers without sign.  After `cmp` or `sub` of a register and a source, and
then instructions that leave the flags alone, such a branch is taken just when the numbers compare
as it asks.  One of the branches for below, equal and above is taken, and only one. -/
theorem unsigned_branches {r : Register} {src : Source} {m next last : Machine}
    (hcompares : Machine.Compares r src m next) (hrests : Machine.Rests next last) :
    let a := (m.cpu.get r).toNat
    let b := (m.value r.width src).toNat
    (∀ (br : Branch) (test : Nat → Nat → Bool), br.unsignedTest? = some test →
      (br.Taken last.toState ↔ test a b = true) ∧
        ∀ i, last.AtBranch i br → last.step = last.branchStep i (test a b)) ∧
    ∃! br, br ∈ [Branch.jb, .jz, .ja] ∧ br.Taken last.toState := by
  intro a b
  obtain ⟨f, -, hcarry, hflags⟩ := hcompares.flags_eq
  have hholds {br : Branch} {c : Condition} {test : Nat → Nat → Bool}
      (hc : br.condition? = some c) (ht : br.unsignedTest? = some test) :
      c.holds last.cpu.flags = test a b := by
    rw [hrests.flags_eq, hflags]
    exact Condition.holds_unsigned hcarry hc ht
  have htests (br : Branch) (test : Nat → Nat → Bool) (ht : br.unsignedTest? = some test) :
      (br.Taken last.toState ↔ test a b = true) ∧
        ∀ i, last.AtBranch i br → last.step = last.branchStep i (test a b) := by
    obtain ⟨c, hc⟩ : ∃ c, br.condition? = some c := by
      cases br <;> cases ht <;> exact ⟨_, rfl⟩
    constructor
    · rw [← hholds hc ht, Branch.Taken, hc]
    · intro i hi
      rw [hi.step_eq hc, hholds hc ht]
  refine ⟨htests, ?_⟩
  have htaken (br : Branch) (hbr : br ∈ [Branch.jb, .jz, .ja]) :
      br.Taken last.toState ↔ ∃ test, br.unsignedTest? = some test ∧ test a b = true := by
    obtain ⟨test, ht⟩ : ∃ test, br.unsignedTest? = some test := by
      simp only [List.mem_cons, List.not_mem_nil, or_false] at hbr
      rcases hbr with rfl | rfl | rfl <;> exact ⟨_, rfl⟩
    rw [(htests br test ht).1, ht]
    simp
  refine (existsUnique_congr fun br => ?_).mpr (existsUnique_unsignedTest a b)
  exact and_congr_right (htaken br)

/-- a program that compares `AL` with `FF`, written as minus one, moves the number and counts, and
goes back if it is below -/
def belowProgram : List Instruction :=
  [{ opcode := [0x3c], length := 2, imm := some (.value 0xffff), address := 0,
     mnemonic := .alu .cmp, operands := [.reg (.byte .al), .imm 0xffff],
     line := "back: CMP AL,-1".toList, lineNumber := 1 },
   { opcode := [0x89, 0xc0], length := 2, imm := none, address := 2, mnemonic := .mov,
     operands := [.reg (.word .cx), .reg (.word .ax)], line := "MOV CX,AX".toList,
     lineNumber := 2 },
   { opcode := [0xe2], length := 2, imm := some (.value 6), address := 4,
     mnemonic := .branch .loop, operands := [.label "ON".toList], line := "LOOP on".toList,
     lineNumber := 3 },
   { opcode := [0x72], length := 2, imm := some (.value 0), address := 6, mnemonic := .branch .jb,
     operands := [.label "BACK".toList], line := "on: JB back".toList, lineNumber := 4 }]

/-- the machine after `k` steps, when it has started with `FE` in `AL` -/
def belowMachine (k : Nat) : Machine :=
  let start : Machine :=
    { program := belowProgram, cpu := { registers := { ax := 0xfe } } }
  (start.run k).machine

/-- `FE` is below `FF`: the program goes back, and a branch for equal or above would not be taken. -/
theorem unsigned_branches_of_below :
    (∃ i, belowProgram[3]? = some i ∧
      (belowMachine 3).step = (belowMachine 3).branchStep i true) ∧
    ¬ Branch.jz.Taken (belowMachine 3).toState ∧ ¬ Branch.ja.Taken (belowMachine 3).toState := by
  have hcompares : Machine.Compares (.byte .al) (.imm 0xffff) (belowMachine 0) (belowMachine 1) :=
    ⟨⟨rfl, _, rfl⟩, .inl rfl, rfl, rfl⟩
  have hmove : Machine.Rests (belowMachine 1) (belowMachine 2) := .single ⟨_, ⟨rfl, _, rfl⟩, rfl⟩
  have hrests : Machine.Rests (belowMachine 1) (belowMachine 3) :=
    .tail hmove ⟨_, ⟨rfl, _, rfl⟩, rfl⟩
  obtain ⟨i, hi⟩ : ∃ i, belowProgram[3]? = some i := ⟨_, rfl⟩
  have hbranch : (belowMachine 3).AtBranch i .jb := ⟨rfl, hi, by cases hi; rfl⟩
  have htests := (unsigned_branches hcompares hrests).1
  refine ⟨⟨i, hi, (htests .jb _ rfl).2 i hbranch⟩, fun ht => ?_, fun ht => ?_⟩
  · exact absurd ((htests .jz _ rfl).1.mp ht) (by decide)
  · exact absurd ((htests .ja _ rfl).1.mp ht) (by decide)

end Mini8086
