import Mini8086.Proofs.Assembled

/-!
# Assembling with every assumption checked

`assemble` counts addresses with natural numbers and takes it for granted that its stages fit
together.  `checkedAssemble` takes nothing for granted: addresses have 32 bits, and wherever a
stage relies on an earlier one it looks whether it may, and slips if not (`Slip`).

* `AddressesFit source origin`   the address reached stays below `2 ^ 32`, line after line;
* `checkedAssemble_eq`           then the checked assembler never slips: it answers what `assemble`
                                 answers, a program or an error of the source;
* `checkedEmit_eq`               in particular a resolved instruction always has bytes, as many as
                                 its length.
-/

namespace Mini8086

/-- What a stage of assembling takes for granted and finds not to hold. -/
inductive Slip where
  | addressOverflow
  | opcodeTooLong
  | nameLeft
  | wrongLength
  deriving DecidableEq, Repr

/-- Why the checked assembler gives no program: an error of the source, or a slip of its own. -/
inductive Failure where
  | error (e : AssemblyError)
  | slip (s : Slip)
  deriving DecidableEq, Repr

/-! ## the checked stages -/

/-- the sum of two addresses, if 32 bits hold it -/
def checkedAdd (a n : Nat) : Except Failure Address :=
  if a + n < 2 ^ 32 then .ok (a + n) else .error (.slip .addressOverflow)

/-- `layoutLines` with an address of 32 bits -/
def checkedLayoutLines (a : Address) (n : Nat) (seen : List Label) :
    List Text → Except Failure Layout
  | [] => .ok .empty
  | line :: lines => do
    let head ← (layoutLine a n seen line).mapError .error
    let next ← checkedAdd a head.size
    let tail ← checkedLayoutLines next (n + 1) (seen ++ head.labels) lines
    return head.append tail

/-- The bytes of an instruction, or nothing as long as its name is unresolved.  The number after an
opcode takes what the opcode leaves of the length. -/
def Instruction.checkedEmit (i : Instruction) : Except Failure (Option (List Byte)) :=
  match i.imm with
  | none => .ok (some i.opcode)
  | some (.name _) => .ok none
  | some (.value v) =>
    if i.mnemonic.isBranch then do
      let next ← checkedAdd i.address i.length
      return some (i.opcode ++ [BitVec.ofInt 8 ((v : Int) - next)])
    else if i.length < i.opcode.length then .error (.slip .opcodeTooLong)
    else .ok (some (i.opcode ++ Instruction.numberBytes v (i.length - i.opcode.length)))

def Instruction.checkedReach (i : Instruction) : Except Failure Unit :=
  match i.target? with
  | none => .ok ()
  | some t => do
    let next ← checkedAdd i.address i.length
    if inReach ((t : Int) - next) then return ()
    else throw (.error (.tooFar i.address t ((t : Int) - next)))

/-- The listing entry of an instruction, of which the bytes are counted.  Resolving leaves no name
behind, so an instruction that still has one is a slip. -/
def Instruction.checkedEntry (i : Instruction) : Except Failure Entry := do
  i.checkedReach
  match ← i.checkedEmit with
  | some bytes =>
    if bytes.length = i.length then return ⟨i.address, bytes, i.line⟩
    else throw (.slip .wrongLength)
  | none => throw (.slip .nameLeft)

def checkedAssemble (source : Text) (origin : Address) : Except Failure Program := do
  let draft ← checkedLayoutLines origin 1 [] (sourceLines source)
  let l ← draft.resolve.mapError .error
  let listing ← l.instructions.mapM Instruction.checkedEntry
  return ⟨origin, l.instructions, listing, l.labels⟩

/-! ## addresses that fit -/

/-- the address reached after any number of lines, as far as they can be laid out, has 32 bits -/
def AddressesFit (source : Text) (origin : Address) : Prop :=
  ∀ k draft, layoutLines origin 1 [] ((sourceLines source).take k) = .ok draft →
    origin + draft.size < 2 ^ 32

theorem layoutLines_take_size {a : Address} {n : Nat} {seen : List Label} {lines : List Text}
    {l d : Layout} (hl : layoutLines a n seen lines = .ok l) {k : Nat}
    (hd : layoutLines a n seen (lines.take k) = .ok d) : d.size ≤ l.size := by
  induction lines generalizing a n seen l d k with
  | nil =>
    rw [List.take_nil, hl] at hd
    exact Nat.le_of_eq (congrArg Layout.size (Except.ok.inj hd)).symm
  | cons line lines ih =>
    cases k with
    | zero =>
      cases hd
      exact Nat.zero_le _
    | succ k =>
      obtain ⟨head, tail, hh, ht, rfl⟩ := layoutLines_cons_eq_ok.mp hl
      rw [List.take_succ_cons] at hd
      obtain ⟨head', part, hh', hp, rfl⟩ := layoutLines_cons_eq_ok.mp hd
      rw [hh] at hh'
      cases hh'
      simpa using ih ht hp

/-- For a source that can be laid out, the address at its end decides. -/
theorem AddressesFit.of_layout {source : Text} {origin : Address} {l : Layout}
    (hl : layout source origin = .ok l) (h : origin + l.size < 2 ^ 32) :
    AddressesFit source origin :=
  fun _ _ hd => Nat.lt_of_le_of_lt (Nat.add_le_add_left (layoutLines_take_size hl hd) _) h

theorem AddressesFit.layout_lt {source : Text} {origin : Address} (h : AddressesFit source origin)
    {l : Layout} (hl : layout source origin = .ok l) : origin + l.size < 2 ^ 32 := by
  apply h (sourceLines source).length l
  rw [List.take_length]
  exact hl

/-! ## the checked stages never slip -/

theorem checkedAdd_eq {a n : Nat} (h : a + n < 2 ^ 32) : checkedAdd a n = .ok (a + n) := if_pos h

theorem checkedLayoutLines_eq {a : Address} {n : Nat} {seen : List Label} {lines : List Text}
    (h : ∀ k d, layoutLines a n seen (lines.take k) = .ok d → a + d.size < 2 ^ 32) :
    checkedLayoutLines a n seen lines = (layoutLines a n seen lines).mapError .error := by
  induction lines generalizing a n seen with
  | nil => rfl
  | cons line lines ih =>
    rw [checkedLayoutLines, layoutLines, mapError_bind]
    cases hh : layoutLine a n seen line with
    | error e => rfl
    | ok head =>
      -- the lines up to this one give the address reached, one line more each what follows
      have hone : a + head.size < 2 ^ 32 := by
        have h1 := h 1 (head.append .empty)
          (layoutLines_cons_eq_ok.mpr ⟨head, .empty, hh, rfl, rfl⟩)
        simpa using h1
      have htail : checkedLayoutLines (a + head.size) (n + 1) (seen ++ head.labels) lines =
          (layoutLines (a + head.size) (n + 1) (seen ++ head.labels) lines).mapError .error := by
        apply ih
        intro k d hd
        have hk := h (k + 1) (head.append d)
          (layoutLines_cons_eq_ok.mpr ⟨head, d, hh, hd, rfl⟩)
        simpa [Nat.add_assoc] using hk
      show (checkedAdd a head.size >>= fun next => _) = _
      rw [checkedAdd_eq hone]
      show (checkedLayoutLines (a + head.size) (n + 1) (seen ++ head.labels) lines >>= _) = _
      rw [htail]
      show _ = (layoutLines (a + head.size) (n + 1) (seen ++ head.labels) lines >>= _).mapError _
      rw [mapError_bind]
      rfl

/-- The bytes of a resolved instruction are all there, and nothing else is. -/
theorem checkedEmit_eq {labels : List Label} {i : Instruction} (h : i.Assembled labels)
    (hn : i.nextAddress < 2 ^ 32) : i.checkedEmit = .ok (some i.code) := by
  have he := h.emit?.1
  unfold Instruction.checkedEmit
  cases h.form with
  | plain hm hi hl =>
    rw [emit?_plain hi] at he
    rw [hi, ← he]
  | number v r hm hi hl =>
    rw [emit?_number hm hi hl] at he
    rw [hi, ← he]
    show (if i.mnemonic.isBranch then _ else if i.length < i.opcode.length then _ else _) = _
    rw [hm, if_neg Bool.false_ne_true, if_neg (by omega), hl, Nat.add_sub_cancel_left]
  | branch b t hm hi ho hl =>
    rw [emit?_branch hm hi] at he
    rw [hi, ← he]
    show (if i.mnemonic.isBranch then checkedAdd i.address i.length >>= _ else _) = _
    rw [checkedAdd_eq hn, hm]
    rfl

theorem checkedReach_eq {i : Instruction} (hn : i.nextAddress < 2 ^ 32) :
    i.checkedReach = i.checkReach.mapError .error := by
  unfold Instruction.checkedReach Instruction.checkReach Instruction.displacement?
  cases i.target? with
  | none => rfl
  | some t =>
    show (checkedAdd i.address i.length >>= _) =
      (if inReach ((t : Int) - i.nextAddress) then _ else _ : Except AssemblyError Unit).mapError _
    rw [checkedAdd_eq hn]
    show (if inReach ((t : Int) - i.nextAddress) then _ else _) = _
    split <;> rfl

theorem checkedEntry_eq {labels : List Label} {i : Instruction} (h : i.Assembled labels)
    (hn : i.nextAddress < 2 ^ 32) : i.checkedEntry = i.entry.mapError .error := by
  unfold Instruction.checkedEntry Instruction.entry
  rw [mapError_bind, checkedReach_eq hn, checkedEmit_eq h hn, h.emit?.1]
  congr 1
  funext u
  show (if i.code.length = i.length then _ else _) = _
  rw [if_pos h.emit?.2]
  rfl

/-- addresses that fit leave room for the end of every instruction -/
theorem AddressesFit.nextAddress_lt {source : Text} {origin : Address}
    (h : AddressesFit source origin) {draft l : Layout} (hd : layout source origin = .ok draft)
    (hl : draft.resolve = .ok l) {i : Instruction} (hi : i ∈ l.instructions) :
    i.nextAddress < 2 ^ 32 := by
  obtain ⟨hc, -⟩ := resolve_assembled hd hl
  have hend := h.layout_lt hd
  rw [Layout.size_eq, ← codeLength_resolve (layoutLines_drafted hd).2 (Layout.resolve_eq_ok.mp hl).2]
    at hend
  obtain ⟨k, hk⟩ := List.getElem?_of_mem hi
  rw [hc.nextAddress_eq hk]
  exact Nat.lt_of_le_of_lt (addressAt_le ..) hend

/-- Where addresses fit, assembling relies on nothing that does not hold: with every assumption
checked the answer is the same, a program or an error of the source. -/
theorem checkedAssemble_eq {source : Text} {origin : Address} (h : AddressesFit source origin) :
    checkedAssemble source origin = (assemble source origin).mapError .error := by
  unfold checkedAssemble assemble
  rw [checkedLayoutLines_eq h, mapError_bind]
  show (Except.mapError _ (layout source origin) >>= _) = _
  cases hd : layout source origin with
  | error e => rfl
  | ok draft =>
    show (draft.resolve.mapError _ >>= _) = Except.mapError _ (draft.resolve >>= _)
    rw [mapError_bind]
    cases hl : draft.resolve with
    | error e => rfl
    | ok l =>
      have hlist : l.instructions.mapM Instruction.checkedEntry = l.listing.mapError .error :=
        mapM_mapError fun i hi =>
          checkedEntry_eq ((resolve_assembled hd hl).2 i hi) (h.nextAddress_lt hd hl hi)
      show (l.instructions.mapM Instruction.checkedEntry >>= _) =
        Except.mapError _ (l.listing >>= _)
      rw [hlist, mapError_bind]
      rfl

end Mini8086
