import Mini8086.Assembly.Program
import Mini8086.Proofs.Encodable

/-!
# What an assembled program is

`assemble` puts a program together in three stages.  What they leave behind is one predicate,
`Program.Assembled`, so that later proofs never look into the stages again:

* the instructions follow one another from the origin without gaps (`Contiguous`);
* each carries the encoding of its command, with every name resolved (`Instruction.Assembled`);
* the listing holds the bytes of each instruction (`Instruction.listed`), `i.length` of them.

Main statement: `assembled_of_assemble`.  `addressAt a is k` is the address at index `k` of the
instructions `is` laid out from `a`, the end of the code included.
-/

namespace Mini8086

/-! ## operands in a text -/

/-- an operand that a program text can hold -/
def Operand.Written : Operand → Prop
  | .reg r => r ∈ Register.named
  | .indirect p => p = .si ∨ p = .di
  | .imm _ => True
  | .addr a => a < 2 ^ 20
  | .label name => isName name = true

theorem Operand.Written.ne_ip {r : Register} (h : (Operand.reg r).Written) : r ≠ .word .ip := by
  rintro rfl
  have hnot : Register.word .ip ∉ Register.named := by decide
  exact hnot h

theorem Operand.written_of_readUpperData {t : Text} {o : Operand} (h : readUpperData t = .ok o) :
    o.Written := by
  unfold readUpperData at h
  split at h
  · split at h
    · cases h
      exact .inl rfl
    · split at h
      · cases h
        exact .inr rfl
      · contradiction
  · split at h
    · next r hr =>
      cases h
      exact (Register.ofText?_eq_some hr).1
    · split at h
      · split at h
        · cases h
          exact trivial
        · contradiction
      · split at h
        · next hn =>
          cases h
          exact hn
        · contradiction

theorem Operand.written_of_readUpperTarget {t : Text} {o : Operand}
    (h : readUpperTarget t = .ok o) : o.Written := by
  unfold readUpperTarget at h
  split at h
  · next hn =>
    cases h
    exact hn
  · split at h
    · split at h
      · contradiction
      · cases h
        exact Nat.mod_lt _ (by decide)
    · contradiction

theorem Operand.written_of_readOperand {m : Mnemonic} {list piece : Text} {o : Operand}
    (h : readOperand m list piece = .ok o) : o.Written := by
  unfold readOperand at h
  split at h
  · contradiction
  · rw [mapError_eq_ok] at h
    split at h
    · exact Operand.written_of_readUpperTarget h
    · exact Operand.written_of_readUpperData h

theorem Operand.written_of_readOperands {m : Mnemonic} {list : Text} {ops : List Operand}
    (h : readOperands m list = .ok ops) : ∀ o ∈ ops, o.Written := by
  unfold readOperands at h
  split at h
  · cases h
    intro o ho
    cases ho
  · rw [mapM_eq_ok] at h
    intro o ho
    obtain ⟨k, hk, rfl⟩ := List.getElem_of_mem ho
    have hk' := h.length_eq ▸ hk
    exact Operand.written_of_readOperand (h.get hk' hk)

theorem Command.written_of_read {t : Text} {c : Command} (h : Command.read t = .ok c) :
    ∀ o ∈ c.operands, o.Written := by
  unfold Command.read at h
  dsimp only at h
  split at h
  · contradiction
  · obtain ⟨ops, hops, rfl⟩ := map_eq_ok.mp h
    exact Operand.written_of_readOperands hops

theorem Command.written_of_read? {t : Text} {c : Command} (h : Command.read? t = .ok (some c)) :
    ∀ o ∈ c.operands, o.Written := by
  unfold Command.read? at h
  split at h
  · cases h
  · obtain ⟨d, hd, hc⟩ := map_eq_ok.mp h
    cases hc
    exact Command.written_of_read hd

theorem Statement.written_of_read {line : Text} {s : Statement} (h : Statement.read line = .ok s)
    {c : Command} (hc : s.command = some c) : ∀ o ∈ c.operands, o.Written := by
  unfold Statement.read at h
  dsimp only at h
  split at h
  · obtain ⟨d, hd, rfl⟩ := map_eq_ok.mp h
    exact Command.written_of_read? (hd.trans (congrArg Except.ok hc))
  · split at h
    · obtain ⟨d, hd, rfl⟩ := map_eq_ok.mp h
      exact Command.written_of_read? (hd.trans (congrArg Except.ok hc))
    · contradiction

/-! ## instructions in a row -/

/-- the instructions lie one after the other from the address on -/
def Contiguous : Address → List Instruction → Prop
  | _, [] => True
  | a, i :: is => i.address = a ∧ Contiguous (a + i.length) is

theorem Layout.size_eq (l : Layout) : l.size = codeLength l.instructions := rfl

theorem Contiguous.append {a : Address} {is js : List Instruction} (hi : Contiguous a is)
    (hj : Contiguous (a + codeLength is) js) : Contiguous a (is ++ js) := by
  induction is generalizing a with
  | nil => exact hj
  | cons i is ih =>
    refine ⟨hi.1, ih hi.2 ?_⟩
    simpa [Nat.add_assoc] using hj

/-- the address at an index of the instructions laid out from `a` -/
def addressAt (a : Address) (is : List Instruction) (k : Nat) : Address :=
  a + codeLength (is.take k)

@[simp] theorem addressAt_zero (a : Address) (is : List Instruction) : addressAt a is 0 = a := rfl
@[simp] theorem addressAt_length (a : Address) (is : List Instruction) :
    addressAt a is is.length = a + codeLength is := by
  rw [addressAt, List.take_length]

theorem addressAt_succ {a : Address} {is : List Instruction} {k : Nat} {i : Instruction}
    (h : is[k]? = some i) : addressAt a is (k + 1) = addressAt a is k + i.length := by
  simp [addressAt, List.take_add_one, h, Nat.add_assoc]

theorem Contiguous.address_eq {a : Address} {is : List Instruction} (hc : Contiguous a is) {k : Nat}
    {i : Instruction} (h : is[k]? = some i) : i.address = addressAt a is k := by
  induction is generalizing a k with
  | nil => cases h
  | cons j is ih =>
    cases k with
    | zero =>
      cases h
      exact hc.1
    | succ k =>
      rw [List.getElem?_cons_succ] at h
      simp [ih hc.2 h, addressAt, Nat.add_assoc]

theorem Contiguous.nextAddress_eq {a : Address} {is : List Instruction} (hc : Contiguous a is)
    {k : Nat} {i : Instruction} (h : is[k]? = some i) : i.nextAddress = addressAt a is (k + 1) := by
  rw [Instruction.nextAddress, hc.address_eq h, addressAt_succ h]

theorem codeLength_take_le (is : List Instruction) (k : Nat) :
    codeLength (is.take k) ≤ codeLength is := by
  have h := codeLength_append (is.take k) (is.drop k)
  rw [List.take_append_drop] at h
  omega

theorem addressAt_le (a : Address) (is : List Instruction) (k : Nat) :
    addressAt a is k ≤ a + codeLength is :=
  Nat.add_le_add_left (codeLength_take_le is k) a

/-! ## before the names are resolved -/

/-- An instruction as the layout leaves it. -/
structure Instruction.Drafted (i : Instruction) : Prop where
  encodes : Encodes i.mnemonic i.operands i.toEncoding
  written : ∀ o ∈ i.operands, o.Written

theorem layoutCommand_eq_ok {a : Address} {n : Nat} {text : Text} {c : Option Command}
    {is : List Instruction} (h : layoutCommand a n text c = .ok is) :
    (c = none ∧ is = []) ∨ ∃ d enc, c = some d ∧ Encodes d.mnemonic d.operands enc ∧
      is = [{ enc with
        address := a, mnemonic := d.mnemonic, operands := d.operands, line := text,
        lineNumber := n }] := by
  unfold layoutCommand at h
  split at h
  · exact .inl ⟨rfl, (Except.ok.inj h).symm⟩
  · next d =>
    split at h
    · contradiction
    · next enc henc => exact .inr ⟨d, enc, rfl, encode_eq_ok.mp henc, (Except.ok.inj h).symm⟩

theorem layoutLine_eq_ok {a : Address} {n : Nat} {seen : List Label} {line : Text} {l : Layout} :
    layoutLine a n seen line = .ok l ↔ ∃ s, Statement.read line = .ok s ∧
      layoutLabel a n seen s.label = .ok l.labels ∧
      layoutCommand a n s.text s.command = .ok l.instructions := by
  unfold layoutLine
  rw [bind_eq_ok]
  constructor
  · rintro ⟨s, hs, h⟩
    obtain ⟨labels, hl, h⟩ := bind_eq_ok.mp h
    obtain ⟨instructions, hi, h⟩ := bind_eq_ok.mp h
    cases h
    exact ⟨s, mapError_eq_ok.mp hs, hl, hi⟩
  · rintro ⟨s, hs, hl, hi⟩
    refine ⟨s, mapError_eq_ok.mpr hs, ?_⟩
    rw [hl, hi]
    rfl

theorem layoutLines_cons_eq_ok {a : Address} {n : Nat} {seen : List Label} {line : Text}
    {lines : List Text} {l : Layout} :
    layoutLines a n seen (line :: lines) = .ok l ↔ ∃ head tail,
      layoutLine a n seen line = .ok head ∧
      layoutLines (a + head.size) (n + 1) (seen ++ head.labels) lines = .ok tail ∧
      head.append tail = l := by
  rw [layoutLines, bind_eq_ok]
  constructor
  · rintro ⟨head, hh, h⟩
    obtain ⟨tail, ht, h⟩ := bind_eq_ok.mp h
    exact ⟨head, tail, hh, ht, Except.ok.inj h⟩
  · rintro ⟨head, tail, hh, ht, rfl⟩
    exact ⟨head, hh, bind_eq_ok.mpr ⟨tail, ht, rfl⟩⟩

theorem layoutLine_drafted {a : Address} {n : Nat} {seen : List Label} {line : Text} {l : Layout}
    (h : layoutLine a n seen line = .ok l) :
    Contiguous a l.instructions ∧ ∀ i ∈ l.instructions, i.Drafted := by
  obtain ⟨s, hs, -, hi⟩ := layoutLine_eq_ok.mp h
  obtain ⟨-, hnil⟩ | ⟨d, enc, hd, henc, hone⟩ := layoutCommand_eq_ok hi
  · rw [hnil]
    exact ⟨trivial, fun i hi => absurd hi List.not_mem_nil⟩
  · rw [hone]
    refine ⟨⟨rfl, trivial⟩, fun i hi => ?_⟩
    rw [List.mem_singleton.mp hi]
    exact ⟨henc, Statement.written_of_read hs hd⟩

/-- A layout starts at its origin and has no gaps, and its instructions are encoded commands. -/
theorem layoutLines_drafted {a : Address} {n : Nat} {seen : List Label} {lines : List Text}
    {l : Layout} (h : layoutLines a n seen lines = .ok l) :
    Contiguous a l.instructions ∧ ∀ i ∈ l.instructions, i.Drafted := by
  induction lines generalizing a n seen l with
  | nil =>
    cases h
    exact ⟨trivial, fun i hi => absurd hi List.not_mem_nil⟩
  | cons line lines ih =>
    obtain ⟨head, tail, hh, ht, rfl⟩ := layoutLines_cons_eq_ok.mp h
    obtain ⟨hc, hd⟩ := layoutLine_drafted hh
    obtain ⟨hct, hdt⟩ := ih ht
    refine ⟨hc.append hct, fun i hi => ?_⟩
    rcases List.mem_append.mp hi with hi | hi
    · exact hd i hi
    · exact hdt i hi

/-! ## after the names are resolved -/

/-- What follows an opcode before and after the names are resolved. -/
inductive Resolves (labels : List Label) : Option Immediate → Option Immediate → Prop
  | none : Resolves labels none none
  | value (n : Nat) : Resolves labels (some (.value n)) (some (.value n))
  | name {name : Text} {t : Address} (h : targetOf? labels name = some t) :
      Resolves labels (some (.name name)) (some (.value t))

theorem Resolves.value_of_some {labels : List Label} {before : Immediate} {after : Option Immediate}
    (h : Resolves labels (some before) after) : ∃ n, after = some (.value n) := by
  cases h with
  | value n => exact ⟨n, rfl⟩
  | name ht => exact ⟨_, rfl⟩

/-- An instruction of an assembled program: the encoding of its command, but for the name that it
may have had. -/
structure Instruction.Assembled (labels : List Label) (i : Instruction) : Prop where
  encodes : ∃ imm, Encodes i.mnemonic i.operands ⟨i.opcode, i.length, imm⟩ ∧
    Resolves labels imm i.imm
  written : ∀ o ∈ i.operands, o.Written

theorem Instruction.Assembled.exists_encodes {labels : List Label} {i : Instruction}
    (h : i.Assembled labels) : ∃ enc, Encodes i.mnemonic i.operands enc :=
  have ⟨_, he, _⟩ := h.encodes
  ⟨_, he⟩

/-- an instruction with another number after its opcode -/
def Instruction.withImm (i : Instruction) (imm : Option Immediate) : Instruction :=
  { i with imm := imm }

theorem Instruction.resolve_eq_ok {labels : List Label} {i j : Instruction} (hi : i.Drafted)
    (h : i.resolve labels = .ok j) :
    ∃ imm, j = i.withImm imm ∧ Resolves labels i.imm imm := by
  unfold Instruction.resolve at h
  split at h
  · next name himm =>
    split at h
    · split at h
      · next t ht =>
        cases h
        exact ⟨_, rfl, himm ▸ .name ht⟩
      · contradiction
    · next hb =>
      -- only a branch is encoded with a name
      exfalso
      have hk := hi.encodes.kind
      generalize i.toEncoding = enc at hk himm
      cases hk with
      | plain opcode hm => cases himm
      | number opcode v r hm => cases himm
      | branch b imm hm => exact hb (hm ▸ rfl)
  · next hn =>
    cases h
    refine ⟨i.imm, rfl, ?_⟩
    cases himm : i.imm with
    | none => exact .none
    | some imm =>
      cases imm with
      | value n => exact .value n
      | name name => exact absurd himm (hn name)

theorem Instruction.assembled_of_resolve {labels : List Label} {i j : Instruction} (hi : i.Drafted)
    (h : i.resolve labels = .ok j) : j.Assembled labels := by
  obtain ⟨imm, rfl, hr⟩ := Instruction.resolve_eq_ok hi h
  exact ⟨⟨i.imm, hi.encodes, hr⟩, hi.written⟩

theorem Layout.resolve_eq_ok {draft l : Layout} :
    draft.resolve = .ok l ↔ l.labels = draft.labels ∧
      List.Forall₂ (fun i j => i.resolve draft.labels = .ok j) draft.instructions
        l.instructions := by
  unfold Layout.resolve
  rw [map_eq_ok]
  constructor
  · rintro ⟨is, his, rfl⟩
    exact ⟨rfl, mapM_eq_ok.mp his⟩
  · rintro ⟨hl, hi⟩
    exact ⟨l.instructions, mapM_eq_ok.mpr hi, hl ▸ rfl⟩

/-- Resolving names moves no instruction. -/
theorem Contiguous.resolve {labels : List Label} {a : Address} {is js : List Instruction}
    (hd : ∀ i ∈ is, i.Drafted) (h : List.Forall₂ (fun i j => i.resolve labels = .ok j) is js)
    (hc : Contiguous a is) : Contiguous a js := by
  induction h generalizing a with
  | nil => exact trivial
  | @cons i j is js hij _ ih =>
    obtain ⟨imm, rfl, -⟩ := Instruction.resolve_eq_ok (hd i List.mem_cons_self) hij
    exact ⟨hc.1, ih (fun i hi => hd i (List.mem_cons_of_mem _ hi)) hc.2⟩

theorem codeLength_resolve {labels : List Label} {is js : List Instruction}
    (hd : ∀ i ∈ is, i.Drafted) (h : List.Forall₂ (fun i j => i.resolve labels = .ok j) is js) :
    codeLength js = codeLength is := by
  induction h with
  | nil => rfl
  | @cons i j is js hij _ ih =>
    obtain ⟨imm, rfl, -⟩ := Instruction.resolve_eq_ok (hd i List.mem_cons_self) hij
    have hrest := ih fun i hi => hd i (List.mem_cons_of_mem _ hi)
    simp [hrest, Instruction.withImm]

/-- A resolved layout: without gaps, and every instruction an encoded command. -/
theorem resolve_assembled {source : Text} {origin : Address} {draft l : Layout}
    (hd : layout source origin = .ok draft) (hl : draft.resolve = .ok l) :
    Contiguous origin l.instructions ∧ ∀ i ∈ l.instructions, i.Assembled l.labels := by
  obtain ⟨hc, hdr⟩ := layoutLines_drafted hd
  obtain ⟨hlabels, hi⟩ := Layout.resolve_eq_ok.mp hl
  refine ⟨hc.resolve hdr hi, fun j hj => ?_⟩
  obtain ⟨k, hk, rfl⟩ := List.getElem_of_mem hj
  have hk' := hi.length_eq.symm ▸ hk
  rw [hlabels]
  exact Instruction.assembled_of_resolve (hdr _ (List.getElem_mem hk')) (hi.get hk' hk)

/-! ## bytes -/

/-- How the bytes of an assembled instruction go on after the opcode. -/
inductive Instruction.Form (i : Instruction) : Prop
  | plain (hm : i.mnemonic.isBranch = false) (hi : i.imm = none) (hl : i.length = i.opcode.length)
  | number (v : Word) (r : Register) (hm : i.mnemonic.isBranch = false)
      (hi : i.imm = some (.value v.toNat)) (hl : i.length = i.opcode.length + r.width.bytes)
  | branch (b : Branch) (t : Address) (hm : i.mnemonic = .branch b) (hi : i.imm = some (.value t))
      (ho : i.opcode = [b.opcode]) (hl : i.length = 2)

theorem Instruction.Assembled.form {labels : List Label} {i : Instruction}
    (h : i.Assembled labels) : i.Form := by
  obtain ⟨imm, he, hr⟩ := h.encodes
  have hk := he.kind
  generalize henc : (⟨i.opcode, i.length, imm⟩ : Encoding) = enc at hk
  cases hk with
  | plain opcode hm =>
    obtain ⟨ho, hl, rfl⟩ := Encoding.mk.inj henc
    generalize hi : i.imm = after at hr
    cases hr
    exact .plain hm hi (ho ▸ hl)
  | number opcode v r hm =>
    obtain ⟨ho, hl, rfl⟩ := Encoding.mk.inj henc
    generalize hi : i.imm = after at hr
    cases hr
    exact .number v r hm hi (ho ▸ hl)
  | branch b before hm =>
    obtain ⟨ho, hl, rfl⟩ := Encoding.mk.inj henc
    obtain ⟨t, hi⟩ := hr.value_of_some
    exact .branch b t hm hi ho hl

/-- the bytes of an instruction; none if it cannot be written as bytes -/
def Instruction.code (i : Instruction) : List Byte := i.emit?.getD []

theorem emit?_plain {i : Instruction} (hi : i.imm = none) : i.emit? = some i.opcode := by
  rw [Instruction.emit?, hi]

theorem target?_of_not_isBranch {i : Instruction} (hm : i.mnemonic.isBranch = false) :
    i.target? = none := by
  unfold Instruction.target?
  split
  · rw [hm]
    rfl
  · rfl

theorem target?_of_branch {i : Instruction} {b : Branch} {t : Address} (hm : i.mnemonic = .branch b)
    (hi : i.imm = some (.value t)) : i.target? = some t := by
  rw [Instruction.target?, hi, hm]
  rfl

theorem Instruction.Assembled.target_of_branch {labels : List Label} {i : Instruction} {b : Branch}
    (h : i.Assembled labels) (hm : i.mnemonic = .branch b) : ∃ t, i.target? = some t := by
  cases h.form with
  | plain hb | number _ _ hb =>
    rw [hm] at hb
    cases hb
  | branch _ t hm' hi => exact ⟨t, target?_of_branch hm' hi⟩

theorem displacement?_of_branch {i : Instruction} {b : Branch} {t : Address}
    (hm : i.mnemonic = .branch b) (hi : i.imm = some (.value t)) :
    i.displacement? = some ((t : Int) - i.nextAddress) := by
  rw [Instruction.displacement?, target?_of_branch hm hi]
  rfl

theorem emit?_number {i : Instruction} {v n : Nat} (hm : i.mnemonic.isBranch = false)
    (hi : i.imm = some (.value v)) (hl : i.length = i.opcode.length + n) :
    i.emit? = some (i.opcode ++ Instruction.numberBytes v n) := by
  have hd : i.displacement? = none := by
    rw [Instruction.displacement?, target?_of_not_isBranch hm]
    rfl
  rw [Instruction.emit?, hi, hd, hl]
  show (if i.opcode.length ≤ i.opcode.length + n then _ else none) = _
  rw [if_pos (Nat.le_add_right _ _), Nat.add_sub_cancel_left]

theorem emit?_branch {i : Instruction} {b : Branch} {t : Address} (hm : i.mnemonic = .branch b)
    (hi : i.imm = some (.value t)) :
    i.emit? = some (i.opcode ++ [BitVec.ofInt 8 ((t : Int) - i.nextAddress)]) := by
  rw [Instruction.emit?, hi, displacement?_of_branch hm hi]

@[simp] theorem length_numberBytes (v : Nat) (r : Register) :
    (Instruction.numberBytes v r.width.bytes).length = r.width.bytes := by
  cases r <;> rfl

/-- An assembled instruction has exactly as many bytes as it says. -/
theorem Instruction.Assembled.emit? {labels : List Label} {i : Instruction}
    (h : i.Assembled labels) : i.emit? = some i.code ∧ i.code.length = i.length := by
  suffices hs : ∃ bytes, i.emit? = some bytes ∧ bytes.length = i.length by
    obtain ⟨bytes, hb, hl⟩ := hs
    rw [Instruction.code, hb]
    exact ⟨rfl, hl⟩
  cases h.form with
  | plain hm hi hl => exact ⟨_, emit?_plain hi, hl.symm⟩
  | number v r hm hi hl =>
    refine ⟨_, emit?_number hm hi hl, ?_⟩
    rw [List.length_append, length_numberBytes, hl]
  | branch b t hm hi ho hl =>
    refine ⟨_, emit?_branch hm hi, ?_⟩
    rw [ho, hl]
    rfl

theorem Instruction.Assembled.length_pos {labels : List Label} {i : Instruction}
    (h : i.Assembled labels) : 1 ≤ i.length := by
  obtain ⟨imm, he, -⟩ := h.encodes
  exact he.length_pos

theorem Instruction.Assembled.length_le {labels : List Label} {i : Instruction}
    (h : i.Assembled labels) : i.length ≤ 4 := by
  obtain ⟨imm, he, -⟩ := h.encodes
  exact he.length_le

/-! ## the listing -/

/-- the listing entry of an instruction -/
def Instruction.listed (i : Instruction) : Entry := ⟨i.address, i.code, i.line⟩

/-- a displacement in reach is read back from its byte -/
theorem toInt_ofInt_of_inReach {d : Int} (h : inReach d = true) : (BitVec.ofInt 8 d).toInt = d := by
  rw [inReach, Bool.and_eq_true, decide_eq_true_iff, decide_eq_true_iff] at h
  rw [BitVec.toInt_ofInt, Int.bmod_def]
  omega

/-- whether the displacement of a branch fits in a signed byte -/
def Instruction.InReach (i : Instruction) : Prop := ∀ d, i.displacement? = some d → inReach d = true

theorem checkReach_eq_ok {i : Instruction} : i.checkReach = .ok () ↔ i.InReach := by
  unfold Instruction.checkReach Instruction.InReach Instruction.displacement?
  cases i.target? with
  | none => simp
  | some t => simp

theorem Instruction.Assembled.entry_eq_ok {labels : List Label} {i : Instruction} {e : Entry}
    (h : i.Assembled labels) : i.entry = .ok e ↔ i.InReach ∧ e = i.listed := by
  unfold Instruction.entry
  rw [bind_eq_ok, h.emit?.1]
  constructor
  · rintro ⟨u, hr, he⟩
    exact ⟨checkReach_eq_ok.mp hr, (Except.ok.inj he).symm⟩
  · rintro ⟨hr, rfl⟩
    exact ⟨(), checkReach_eq_ok.mpr hr, rfl⟩

theorem listing_eq_ok {labels : List Label} {is : List Instruction} {es : List Entry}
    (ha : ∀ i ∈ is, i.Assembled labels)
    (h : List.Forall₂ (fun i e => i.entry = .ok e) is es) :
    (∀ i ∈ is, i.InReach) ∧ es = is.map Instruction.listed := by
  induction h with
  | nil => exact ⟨fun i hi => absurd hi List.not_mem_nil, rfl⟩
  | @cons i e is es hie _ ih =>
    obtain ⟨hr, rfl⟩ := (ha i List.mem_cons_self).entry_eq_ok.mp hie
    obtain ⟨hrs, rfl⟩ := ih fun i hi => ha i (List.mem_cons_of_mem _ hi)
    exact ⟨List.forall_mem_cons.mpr ⟨hr, hrs⟩, rfl⟩

theorem listing_of_inReach {labels : List Label} {is : List Instruction}
    (ha : ∀ i ∈ is, i.Assembled labels) (hr : ∀ i ∈ is, i.InReach) :
    is.mapM Instruction.entry = .ok (is.map Instruction.listed) := by
  rw [mapM_eq_ok, List.forall₂_map_right_iff, List.forall₂_same]
  exact fun i hi => (ha i hi).entry_eq_ok.mpr ⟨hr i hi, rfl⟩

/-! ## programs -/

/-- What assembling leaves: encoded and resolved instructions in a row, every branch in reach, and
their bytes in the listing. -/
structure Program.Assembled (p : Program) : Prop where
  contiguous : Contiguous p.origin p.instructions
  instructions : ∀ i ∈ p.instructions, i.Assembled p.labels
  inReach : ∀ i ∈ p.instructions, i.InReach
  listing : p.listing = p.instructions.map Instruction.listed

theorem assemble_eq_ok {source : Text} {origin : Address} {p : Program} :
    assemble source origin = .ok p ↔ ∃ draft l listing, layout source origin = .ok draft ∧
      draft.resolve = .ok l ∧ l.listing = .ok listing ∧
      p = ⟨origin, l.instructions, listing, l.labels⟩ := by
  unfold assemble
  rw [bind_eq_ok]
  constructor
  · rintro ⟨draft, hd, h⟩
    obtain ⟨l, hl, h⟩ := bind_eq_ok.mp h
    obtain ⟨listing, hs, h⟩ := bind_eq_ok.mp h
    exact ⟨draft, l, listing, hd, hl, hs, (Except.ok.inj h).symm⟩
  · rintro ⟨draft, l, listing, hd, hl, hs, rfl⟩
    exact ⟨draft, hd, bind_eq_ok.mpr ⟨l, hl, bind_eq_ok.mpr ⟨listing, hs, rfl⟩⟩⟩

/-- the program of a resolved layout -/
def Layout.program (l : Layout) (origin : Address) : Program :=
  ⟨origin, l.instructions, l.instructions.map Instruction.listed, l.labels⟩

/-- A source assembles if it can be laid out, all names are resolved, and no branch is too far from
its target. -/
theorem assemble_eq_ok_iff_inReach {source : Text} {origin : Address} {p : Program} :
    assemble source origin = .ok p ↔ ∃ draft l, layout source origin = .ok draft ∧
      draft.resolve = .ok l ∧ (∀ i ∈ l.instructions, i.InReach) ∧ p = l.program origin := by
  rw [assemble_eq_ok]
  constructor
  · rintro ⟨draft, l, listing, hd, hl, hs, rfl⟩
    obtain ⟨hr, rfl⟩ := listing_eq_ok (resolve_assembled hd hl).2 (mapM_eq_ok.mp hs)
    exact ⟨draft, l, hd, hl, hr, rfl⟩
  · rintro ⟨draft, l, hd, hl, hr, rfl⟩
    exact ⟨draft, l, _, hd, hl, listing_of_inReach (resolve_assembled hd hl).2 hr, rfl⟩

theorem assembled_of_assemble {source : Text} {origin : Address} {p : Program}
    (h : assemble source origin = .ok p) : p.origin = origin ∧ p.Assembled := by
  obtain ⟨draft, l, listing, hd, hl, hs, rfl⟩ := assemble_eq_ok.mp h
  obtain ⟨hc, ha⟩ := resolve_assembled hd hl
  obtain ⟨hr, hlist⟩ := listing_eq_ok ha (mapM_eq_ok.mp hs)
  exact ⟨rfl, hc, ha, hr, hlist⟩

/-- The code of an assembled program starts at the origin, has no gaps and no empty instruction. -/
theorem contiguous_of_assemble {source : Text} {origin : Address} {p : Program}
    (h : assemble source origin = .ok p) :
    Contiguous origin p.instructions ∧ ∀ i ∈ p.instructions, 1 ≤ i.length := by
  obtain ⟨rfl, ha⟩ := assembled_of_assemble h
  exact ⟨ha.contiguous, fun i hi => (ha.instructions i hi).length_pos⟩

theorem Program.Assembled.bytes_eq {p : Program} (h : p.Assembled) :
    p.bytes = p.instructions.flatMap Instruction.code := by
  rw [Program.bytes, h.listing, List.flatMap_map]
  rfl

theorem length_flatMap_code {labels : List Label} {is : List Instruction}
    (h : ∀ i ∈ is, i.Assembled labels) : (is.flatMap Instruction.code).length = codeLength is := by
  induction is with
  | nil => rfl
  | cons i is ih =>
    have hi := (h i List.mem_cons_self).emit?.2
    have his := ih fun j hj => h j (List.mem_cons_of_mem _ hj)
    simp [hi, his]

theorem Program.Assembled.length_bytes {p : Program} (h : p.Assembled) :
    p.bytes.length = codeLength p.instructions := by
  rw [h.bytes_eq, length_flatMap_code h.instructions]

end Mini8086
