import Mini8086.Proofs.SourceLines

/-!
# Where branches lead

The operand of a branch is one piece of text (`operandText`).  A name stands for the label of that
name, wherever it is defined; a name that is no label, and any other text, stands for the number
that it spells, of which 20 bits count (`LeadsTo`).

* `Carries.leadsTo`      the target of a resolved branch is where the operand of its line leads;
* `branch_bytes`         its two bytes are the opcode and the distance from the next instruction;
* `exists_layout_of_linkable`   a source whose lines are encodable commands, whose labels are
                         defined once and whose names stand for something can be laid out;
* `assemble_eq_error`    such a source has one error left, the first branch that is too far from its
                         target.
-/

namespace Mini8086

/-! ## the operand of a branch -/

/-- the operands of the command of a line, without blanks -/
def operandText (line : Text) : Text := dropBlanks (takeWord (commandText line)).2

/-- Where a branch leads whose operand is the text `t`, in upper case: the operand that the text is
read as, and the address. -/
inductive LeadsTo (labels : List Label) (t : Text) : Operand → Address → Prop
  | label {l : Label} (hn : isName t = true) (hl : findLabel? labels t = some l) :
      LeadsTo labels t (.label t) l.address
  | numeralName {v : Nat} (hn : isName t = true) (hl : findLabel? labels t = none)
      (hv : readHex? t = some v) : LeadsTo labels t (.label t) (v % 2 ^ 20)
  | number {v : Nat} (hn : isName t = false) (hs : t.head? ≠ some '-') (hv : readHex? t = some v) :
      LeadsTo labels t (.addr (v % 2 ^ 20)) (v % 2 ^ 20)

theorem Command.read_eq_ok {t : Text} {c : Command} :
    Command.read t = .ok c ↔ Mnemonic.ofText? (takeWord t).1 = some c.mnemonic ∧
      readOperands c.mnemonic (dropBlanks (takeWord t).2) = .ok c.operands := by
  unfold Command.read
  dsimp only
  cases hm : Mnemonic.ofText? (takeWord t).1 with
  | none => exact ⟨(nomatch ·), fun h => nomatch h.1⟩
  | some m =>
    dsimp only
    rw [map_eq_ok, Option.some.injEq]
    constructor
    · rintro ⟨ops, hops, rfl⟩
      exact ⟨rfl, hops⟩
    · rintro ⟨rfl, hops⟩
      exact ⟨c.operands, hops, rfl⟩

/-- The only operand of a branch is the whole of its operand list. -/
theorem readTarget_of_readOperands {b : Branch} {list : Text} {o : Operand}
    (h : readOperands (.branch b) list = .ok [o]) : Operand.readTarget list = .ok o := by
  unfold readOperands at h
  split at h
  · cases h
  · rw [mapM_eq_ok] at h
    obtain ⟨piece, rest, hpiece, hrest, hp⟩ := List.forall₂_cons_right_iff.mp h
    rw [List.forall₂_nil_right_iff.mp hrest] at hp
    have hone : joined ',' (pieces ',' list) = list := joined_pieces ',' list
    rw [hp] at hone
    change piece = list at hone
    subst hone
    unfold readOperand at hpiece
    split at hpiece
    · contradiction
    · exact mapError_eq_ok.mp hpiece

theorem readUpperTarget_eq_ok {t : Text} {o : Operand} (h : readUpperTarget t = .ok o) :
    (isName t = true ∧ o = .label t) ∨ isName t = false ∧ t.head? ≠ some '-' ∧
      ∃ v, readHex? t = some v ∧ o = .addr (v % 2 ^ 20) := by
  unfold readUpperTarget at h
  split at h
  · next hn => exact .inl ⟨hn, (Except.ok.inj h).symm⟩
  · next hn =>
    split at h
    · next v hv =>
      split at h
      · contradiction
      · next hs => exact .inr ⟨Bool.eq_false_iff.mpr hn, hs, v, hv, (Except.ok.inj h).symm⟩
    · contradiction

theorem targetOf?_eq_some {labels : List Label} {name : Text} {t : Address}
    (h : targetOf? labels name = some t) :
    (∃ l, findLabel? labels name = some l ∧ t = l.address) ∨
      findLabel? labels name = none ∧ ∃ v, readHex? name = some v ∧ t = v % 2 ^ 20 := by
  unfold targetOf? at h
  cases hl : findLabel? labels name with
  | some l =>
    rw [hl] at h
    exact .inl ⟨l, rfl, (Option.some.inj h).symm⟩
  | none =>
    rw [hl] at h
    obtain ⟨v, hv, ht⟩ := Option.map_eq_some_iff.mp h
    exact .inr ⟨rfl, v, hv, ht.symm⟩

/-! ## resolved branches -/

section
variable {labels : List Label} {i : Instruction} {b : Branch} {t : Address} {q : Text × Nat}

/-- A resolved branch leads where the operand of its line does. -/
theorem Carries.leadsTo (hq : Carries q i) (h : i.Assembled labels) (hm : i.mnemonic = .branch b) :
    ∃ o t, i.operands = [o] ∧ LeadsTo labels (upper (operandText q.1)) o t ∧
      i.target? = some t := by
  obtain ⟨imm, he, hr⟩ := h.encodes
  have hread := (Command.read_eq_ok.mp hq.command).2
  rw [hm] at he hread
  generalize henc : (⟨i.opcode, i.length, imm⟩ : Encoding) = enc at he
  generalize hops : i.operands = ops at he hread
  cases he with
  | branchName _ name =>
    obtain ⟨-, -, rfl⟩ := Encoding.mk.inj henc
    obtain ⟨hn, hname⟩ | ⟨-, -, v, -, ho⟩ := readUpperTarget_eq_ok (readTarget_of_readOperands hread)
    · cases hname
      generalize hi : i.imm = after at hr
      cases hr with
      | name ht =>
        refine ⟨_, _, rfl, ?_, target?_of_branch hm hi⟩
        obtain ⟨l, hl, rfl⟩ | ⟨hl, v, hv, rfl⟩ := targetOf?_eq_some ht
        · exact .label hn hl
        · exact .numeralName hn hl hv
    · cases ho
  | branchAddress _ a =>
    obtain ⟨-, -, rfl⟩ := Encoding.mk.inj henc
    obtain ⟨-, ho⟩ | ⟨hn, hs, v, hv, ho⟩ := readUpperTarget_eq_ok (readTarget_of_readOperands hread)
    · cases ho
    · cases ho
      generalize hi : i.imm = after at hr
      cases hr
      exact ⟨_, _, rfl, .number hn hs hv, target?_of_branch hm hi⟩

theorem Instruction.Assembled.length_of_branch (h : i.Assembled labels)
    (ht : i.target? = some t) : i.length = 2 := by
  cases h.form with
  | plain hm | number _ _ hm =>
    rw [target?_of_not_isBranch hm] at ht
    cases ht
  | branch _ _ _ _ _ hl => exact hl

theorem displacement?_of_target? (h : i.Assembled labels) (ht : i.target? = some t) :
    i.displacement? = some ((t : Int) - (i.address + 2)) := by
  have hl : (i.nextAddress : Int) = i.address + 2 := by
    rw [Instruction.nextAddress, h.length_of_branch ht]
    rfl
  rw [Instruction.displacement?, ht, ← hl]
  rfl

/-- The bytes of a branch are its opcode and the distance of its target from the next instruction,
as a signed byte. -/
theorem branch_bytes (h : i.Assembled labels) (hr : i.InReach) (hm : i.mnemonic = .branch b)
    (ht : i.target? = some t) :
    ∃ d : Byte, i.emit? = some [b.opcode, d] ∧ (i.address : Int) + 2 + d.toInt = t := by
  have hd := displacement?_of_target? h ht
  have hbyte := toInt_ofInt_of_inReach (hr _ hd)
  cases h.form with
  | plain hb | number _ _ hb =>
    rw [hm] at hb
    cases hb
  | branch c u hc hi ho =>
    rw [hm] at hc
    cases hc
    rw [displacement?_of_branch hm hi] at hd
    refine ⟨BitVec.ofInt 8 ((t : Int) - (i.address + 2)), ?_, ?_⟩
    · rw [emit?_branch hm hi, ho, Option.some.inj hd]
      rfl
    · rw [hbyte]
      omega

end

/-! ## branches out of reach -/

/-- The branch is too far from its target `t`, with the displacement `d`. -/
def Instruction.OutOfReach (i : Instruction) (t : Address) (d : Int) : Prop :=
  i.target? = some t ∧ d = (t : Int) - (i.address + 2) ∧ (d < -128 ∨ 127 < d)

theorem inReach_eq_false {d : Int} : inReach d = false ↔ d < -128 ∨ 127 < d := by
  rw [inReach, Bool.and_eq_false_iff, decide_eq_false_iff_not, decide_eq_false_iff_not]
  omega

section
variable {labels : List Label} {i : Instruction}

theorem inReach_iff (h : i.Assembled labels) : i.InReach ↔ ∀ t d, ¬ i.OutOfReach t d := by
  constructor
  · rintro hr t d ⟨ht, rfl, hfar⟩
    have hin := hr _ (displacement?_of_target? h ht)
    rw [inReach_eq_false.mpr hfar] at hin
    cases hin
  · intro hno d hd
    cases ht : i.target? with
    | none =>
      rw [Instruction.displacement?, ht] at hd
      cases hd
    | some t =>
      rw [displacement?_of_target? h ht] at hd
      by_contra hout
      have hfar := inReach_eq_false.mp (Bool.eq_false_iff.mpr hout)
      exact hno t d ⟨ht, (Option.some.inj hd).symm, hfar⟩

theorem checkReach_eq_error (h : i.Assembled labels) {e : AssemblyError} :
    i.checkReach = .error e ↔ ∃ t d, i.OutOfReach t d ∧ e = .tooFar i.address t d := by
  unfold Instruction.checkReach
  cases ht : i.target? with
  | none =>
    refine ⟨(nomatch ·), ?_⟩
    rintro ⟨t, d, ⟨ht', -⟩, -⟩
    rw [ht] at ht'
    cases ht'
  | some t =>
    rw [displacement?_of_target? h ht]
    dsimp only
    split
    · next hin =>
      refine ⟨(nomatch ·), ?_⟩
      rintro ⟨u, d, ⟨hu, rfl, hfar⟩, -⟩
      rw [ht] at hu
      cases hu
      rw [inReach_eq_false.mpr hfar] at hin
      cases hin
    · next hout =>
      constructor
      · intro he
        refine ⟨t, _, ⟨ht, rfl, ?_⟩, (Except.error.inj he).symm⟩
        exact inReach_eq_false.mp (Bool.eq_false_iff.mpr hout)
      · rintro ⟨u, d, ⟨hu, rfl, -⟩, rfl⟩
        rw [ht] at hu
        cases hu
        rfl

theorem entry_eq_error (h : i.Assembled labels) {e : AssemblyError} :
    i.entry = .error e ↔ ∃ t d, i.OutOfReach t d ∧ e = .tooFar i.address t d := by
  rw [← checkReach_eq_error h]
  unfold Instruction.entry
  rw [bind_eq_error, h.emit?.1]
  constructor
  · rintro (he | ⟨u, -, he⟩)
    · exact he
    · cases he
  · exact .inl

end

/-! ## sources that can be laid out -/

/-- The line is a statement, and its command has an encoding. -/
def Encodable (line : Text) : Prop :=
  ∃ s, Statement.read line = .ok s ∧ ∀ c, s.command = some c →
    ∃ enc, encode c.mnemonic c.operands = .ok enc

/-- the names of the labels that a source defines -/
def definedLabels (source : Text) : List Text := (sourceLines source).filterMap definedLabel?

theorem LaidOut.map_name_of_lines {a : Address} {n : Nat} {lines : List Text} {l : Layout}
    (h : LaidOut a (lines.zipIdx n) l) :
    l.labels.map Label.name = lines.filterMap definedLabel? := by
  have hnames := congrArg (List.map Prod.fst) h.labels
  rw [List.map_map, List.map_filterMap] at hnames
  have hlines : (lines.zipIdx n).map Prod.fst = lines := List.zipIdx_map_fst ..
  rw [← hlines, List.filterMap_map]
  refine hnames.trans (congrArg (List.filterMap · _) (funext fun q => ?_))
  unfold labelOfLine?
  rw [Option.map_map]
  exact Option.map_id'

theorem LaidOut.map_name {a : Address} {source : Text} {l : Layout}
    (h : LaidOut a (numberedLines source) l) : l.labels.map Label.name = definedLabels source :=
  h.map_name_of_lines

/-- Every line of the source is an encodable statement, no label is defined twice, and every name
of a branch is a label or a number. -/
structure Linkable (source : Text) : Prop where
  lines : ∀ line ∈ sourceLines source, Encodable line
  labels : (definedLabels source).Nodup
  names : ∀ line ∈ sourceLines source, ∀ b name,
    Command.read (commandText line) = .ok ⟨.branch b, [.label name]⟩ →
      name ∈ definedLabels source ∨ ∃ v, readHex? name = some v

theorem layoutLine_of_encodable {a : Address} {n : Nat} {seen : List Label} {line : Text}
    (h : Encodable line) (hnew : ∀ name, definedLabel? line = some name →
      findLabel? seen name = none) :
    ∃ l, layoutLine a n seen line = .ok l ∧
      l.labels = ((definedLabel? line).map fun name => ⟨name, a, n⟩).toList := by
  obtain ⟨s, hs, henc⟩ := h
  obtain ⟨is, his⟩ : ∃ is, layoutCommand a n s.text s.command = .ok is := by
    unfold layoutCommand
    cases hc : s.command with
    | none => exact ⟨[], rfl⟩
    | some c =>
      obtain ⟨enc, he⟩ := henc c hc
      dsimp only
      rw [he]
      exact ⟨_, rfl⟩
  refine ⟨⟨((definedLabel? line).map fun name => ⟨name, a, n⟩).toList, is⟩,
    layoutLine_eq_ok.mpr ⟨s, hs, ?_, his⟩, rfl⟩
  rw [(Statement.read_eq_ok hs).1]
  exact layoutLabel_eq_ok.mpr ⟨hnew, rfl⟩

theorem layoutLines_of_encodable {a : Address} {n : Nat} {seen : List Label} {lines : List Text}
    (h : ∀ line ∈ lines, Encodable line)
    (hn : (seen.map Label.name ++ lines.filterMap definedLabel?).Nodup) :
    ∃ l, layoutLines a n seen lines = .ok l := by
  induction lines generalizing a n seen with
  | nil => exact ⟨.empty, rfl⟩
  | cons line lines ih =>
    have hnew : ∀ name, definedLabel? line = some name → findLabel? seen name = none := by
      intro name hname
      rw [List.filterMap_cons_some hname] at hn
      apply findLabel?_eq_none.mpr
      intro hs
      exact (List.disjoint_of_nodup_append hn) hs List.mem_cons_self
    obtain ⟨head, hh, hlabels⟩ :=
      layoutLine_of_encodable (a := a) (n := n) (h line List.mem_cons_self) hnew
    have hseen : ((seen ++ head.labels).map Label.name ++ lines.filterMap definedLabel?).Nodup := by
      rw [hlabels, List.map_append, List.append_assoc]
      cases hd : definedLabel? line with
      | none =>
        rw [List.filterMap_cons_none hd] at hn
        exact hn
      | some name =>
        rw [List.filterMap_cons_some hd] at hn
        exact hn
    obtain ⟨tail, ht⟩ := ih (a := a + head.size) (n := n + 1)
      (fun line hl => h line (List.mem_cons_of_mem _ hl)) hseen
    exact ⟨_, layoutLines_cons_eq_ok.mpr ⟨head, tail, hh, ht, rfl⟩⟩

/-- only a branch to a name is encoded with a name -/
theorem Instruction.Drafted.operands_of_name {i : Instruction} (h : i.Drafted) {name : Text}
    (hi : i.imm = some (.name name)) :
    ∃ b, i.mnemonic = .branch b ∧ i.operands = [.label name] := by
  have he := h.encodes
  generalize i.toEncoding = enc at he hi
  generalize i.mnemonic = m at he
  generalize i.operands = ops at he
  cases he with
  | branchName b other =>
    cases hi
    exact ⟨b, rfl, rfl⟩
  | _ => cases hi

theorem Instruction.Drafted.imm_of_name {i : Instruction} (h : i.Drafted) {b : Branch} {name : Text}
    (hm : i.mnemonic = .branch b) (hops : i.operands = [.label name]) :
    i.imm = some (.name name) := by
  have he := h.encodes
  rw [hm, hops] at he
  generalize i.toEncoding = enc at he ⊢
  cases he
  rfl

/-- a name that is a label of the source or a number stands for an address -/
theorem exists_targetOf? {a : Address} {source : Text} {l : Layout}
    (h : LaidOut a (numberedLines source) l) {name : Text}
    (hn : name ∈ definedLabels source ∨ ∃ v, readHex? name = some v) :
    ∃ t, targetOf? l.labels name = some t := by
  unfold targetOf?
  cases hf : findLabel? l.labels name with
  | some d => exact ⟨d.address, rfl⟩
  | none =>
    rw [findLabel?_eq_none, h.map_name] at hf
    obtain ⟨v, hv⟩ := hn.resolve_left hf
    rw [hv]
    exact ⟨v % 0x100000, rfl⟩

theorem exists_resolve_of_linkable {a : Address} {source : Text} (h : Linkable source) {l : Layout}
    (hl : LaidOut a (numberedLines source) l) {i : Instruction} (hi : i ∈ l.instructions)
    (hd : i.Drafted) : ∃ j, i.resolve l.labels = .ok j := by
  unfold Instruction.resolve
  split
  · next name hname =>
    obtain ⟨b, hm, hops⟩ := hd.operands_of_name hname
    obtain ⟨q, hq, -, hc⟩ := hl.exists_line_of_instruction hi
    have hread := hc.command
    rw [hm, hops] at hread
    have hline := h.names q.1 (List.fst_mem_of_mem_zipIdx hq) b name hread
    obtain ⟨t, ht⟩ := exists_targetOf? hl hline
    rw [hm, if_pos (show (Mnemonic.branch b).isBranch = true from rfl), ht]
    exact ⟨_, rfl⟩
  · exact ⟨i, rfl⟩

theorem exists_layout_of_linkable {source : Text} (h : Linkable source) (origin : Address) :
    ∃ draft l, layout source origin = .ok draft ∧ draft.resolve = .ok l := by
  obtain ⟨draft, hd⟩ : ∃ draft, layout source origin = .ok draft :=
    layoutLines_of_encodable h.lines h.labels
  have hdrafted := (layoutLines_drafted hd).2
  have hlaid := layoutLines_laidOut hd
  obtain ⟨is, his⟩ := exists_mapM_eq_ok fun i hi =>
    exists_resolve_of_linkable h hlaid hi (hdrafted i hi)
  refine ⟨draft, ⟨draft.labels, is⟩, hd, ?_⟩
  rw [Layout.resolve, his]
  rfl

/-! ## programs -/

/-- The instruction is what the numbered line says, in its encoding, and a branch leads where its
operand does. -/
structure Linked (labels : List Label) (q : Text × Nat) (i : Instruction) : Prop
    extends Carries q i where
  encoded : ∃ imm, encode i.mnemonic i.operands = .ok ⟨i.opcode, i.length, imm⟩
  target : ∀ b, i.mnemonic = .branch b → ∃ o t, i.operands = [o] ∧
    LeadsTo labels (upper (operandText q.1)) o t ∧ i.target? = some t

theorem forall₂_linked {labels : List Label} {ls : List (Text × Nat)} {is : List Instruction}
    (hc : List.Forall₂ Carries ls is) (ha : ∀ i ∈ is, i.Assembled labels) :
    List.Forall₂ (Linked labels) ls is := by
  induction hc with
  | nil => exact .nil
  | @cons q i ls is hq _ ih =>
    obtain ⟨hi, his⟩ := List.forall_mem_cons.mp ha
    obtain ⟨imm, he, -⟩ := hi.encodes
    exact .cons ⟨hq, ⟨imm, encode_eq_ok.mpr he⟩, fun b hm => hq.leadsTo hi hm⟩ (ih his)

section
variable {source : Text} {origin : Address} {draft l : Layout}

/-- Once the names are resolved, what is left is the listing. -/
theorem assemble_eq_map (hd : layout source origin = .ok draft) (hl : draft.resolve = .ok l) :
    assemble source origin = l.listing.map fun listing =>
      ⟨origin, l.instructions, listing, l.labels⟩ := by
  unfold assemble
  rw [hd]
  show (draft.resolve >>= fun l => l.listing >>= fun listing => pure _) = _
  rw [hl]
  show (l.listing >>= fun listing => pure _) = _
  cases l.listing with
  | error e => rfl
  | ok listing => rfl

theorem exists_entry_iff {labels : List Label} {i : Instruction} (h : i.Assembled labels) :
    (∃ e, i.entry = .ok e) ↔ ∀ t d, ¬ i.OutOfReach t d := by
  rw [← inReach_iff h]
  constructor
  · rintro ⟨e, he⟩
    exact (h.entry_eq_ok.mp he).1
  · intro hr
    exact ⟨i.listed, h.entry_eq_ok.mpr ⟨hr, rfl⟩⟩

/-- The error of a laid out source is its first branch out of reach. -/
theorem assemble_eq_error (hd : layout source origin = .ok draft) (hl : draft.resolve = .ok l)
    {e : AssemblyError} : assemble source origin = .error e ↔
      ∃ upper i lower t d, l.instructions = upper ++ i :: lower ∧
        (∀ j ∈ upper, ∀ t d, ¬ j.OutOfReach t d) ∧ i.OutOfReach t d ∧
        e = .tooFar i.address t d := by
  have ha := (resolve_assembled hd hl).2
  rw [assemble_eq_map hd hl, map_eq_error, Layout.listing, mapM_eq_error]
  constructor
  · rintro ⟨upper, i, lower, his, hup, hi⟩
    rw [his] at ha
    obtain ⟨t, d, hfar, he⟩ := (entry_eq_error (ha i (by simp))).mp hi
    refine ⟨upper, i, lower, t, d, his, fun j hj => ?_, hfar, he⟩
    exact (exists_entry_iff (ha j (List.mem_append_left _ hj))).mp (hup j hj)
  · rintro ⟨upper, i, lower, t, d, his, hup, hfar, he⟩
    rw [his] at ha
    refine ⟨upper, i, lower, his, fun j hj => ?_, ?_⟩
    · exact (exists_entry_iff (ha j (List.mem_append_left _ hj))).mpr (hup j hj)
    · exact (entry_eq_error (ha i (by simp))).mpr ⟨t, d, hfar, he⟩

/-- A laid out source is too far from a target exactly if one of its branches is. -/
theorem exists_tooFar_iff (hd : layout source origin = .ok draft) (hl : draft.resolve = .ok l) :
    (∃ a t d, assemble source origin = .error (.tooFar a t d)) ↔
      ∃ i ∈ l.instructions, ∃ t d, i.OutOfReach t d := by
  constructor
  · rintro ⟨a, t, d, he⟩
    obtain ⟨upper, i, lower, u, c, his, -, hfar, -⟩ := (assemble_eq_error hd hl).mp he
    exact ⟨i, by rw [his]; simp, u, c, hfar⟩
  · rintro ⟨i, hi, t, d, hfar⟩
    cases hp : assemble source origin with
    | error e =>
      obtain ⟨-, j, -, u, c, -, -, -, rfl⟩ := (assemble_eq_error hd hl).mp hp
      exact ⟨j.address, u, c, rfl⟩
    | ok p =>
      rw [assemble_eq_map hd hl, map_eq_ok] at hp
      obtain ⟨listing, hlist, -⟩ := hp
      have ha := (resolve_assembled hd hl).2
      have hr := (listing_eq_ok ha (mapM_eq_ok.mp hlist)).1 i hi
      exact absurd hfar ((inReach_iff (ha i hi)).mp hr t d)

end

/-- In an assembled program every branch leads where the operand of its line does, and its two bytes
are its opcode and the distance to its target, exactly.  A source that can be laid out has no other
error than its first branch that is more than 128 bytes before or 127 bytes after its target, and
has that error if there is such a branch. -/
theorem branches_resolved (source : Text) (origin : Address) :
    (∀ p, assemble source origin = .ok p →
      List.Forall₂ (Linked p.labels) (codeLines source) p.instructions ∧
      ∀ (k : Nat) (i : Instruction) (b : Branch), p.instructions[k]? = some i →
        i.mnemonic = .branch b →
        ∃ (t : Address) (e : Entry) (d : Byte), i.target? = some t ∧ p.listing[k]? = some e ∧
          e.bytes = [b.opcode, d] ∧ (i.address : Int) + 2 + d.toInt = t) ∧
    (Linkable source → ∃ l : Layout,
      LaidOut origin (numberedLines source) l ∧ (l.labels.map Label.name).Nodup ∧
      Contiguous origin l.instructions ∧
      List.Forall₂ (Linked l.labels) (codeLines source) l.instructions ∧
      (∀ e, assemble source origin = .error e ↔
        ∃ upper i lower t d, l.instructions = upper ++ i :: lower ∧
          (∀ j ∈ upper, ∀ t d, ¬ j.OutOfReach t d) ∧ i.OutOfReach t d ∧
          e = .tooFar i.address t d) ∧
      ((∃ a t d, assemble source origin = .error (.tooFar a t d)) ↔
        ∃ i ∈ l.instructions, ∃ t d, i.OutOfReach t d)) := by
  constructor
  · intro p hp
    have ha := (assembled_of_assemble hp).2
    have hlinked := forall₂_linked (laidOut_of_assemble hp).1.instructions ha.instructions
    refine ⟨hlinked, fun k i b hi hm => ?_⟩
    have hmem := List.mem_of_getElem? hi
    have hai := ha.instructions i hmem
    obtain ⟨t, ht⟩ := hai.target_of_branch hm
    obtain ⟨d, hbytes, hd⟩ := branch_bytes hai (ha.inReach i hmem) hm ht
    refine ⟨t, i.listed, d, ht, ?_, ?_, hd⟩
    · rw [ha.listing, List.getElem?_map, hi]
      rfl
    · show i.emit?.getD [] = _
      rw [hbytes]
      rfl
  · intro h
    obtain ⟨draft, l, hd, hl⟩ := exists_layout_of_linkable h origin
    obtain ⟨hlaid, hn⟩ := laidOut_of_resolve hd hl
    obtain ⟨hc, ha⟩ := resolve_assembled hd hl
    exact ⟨l, hlaid, hn, hc, forall₂_linked hlaid.instructions ha,
      fun e => assemble_eq_error hd hl, exists_tooFar_iff hd hl⟩

/-- a source whose only branch is too far from its target -/
def farSource : Text := "JMP 1000".toList

theorem linkable_farSource : Linkable farSource where
  lines := by
    intro line hl
    rw [show sourceLines farSource = [farSource] from rfl, List.mem_singleton] at hl
    subst hl
    refine ⟨⟨none, some ⟨.branch .jmp, [.addr 0x1000]⟩, farSource⟩, rfl, fun c hc => ?_⟩
    cases hc
    exact ⟨_, rfl⟩
  labels := List.nodup_nil
  names := by
    intro line hl b name hread
    rw [show sourceLines farSource = [farSource] from rfl, List.mem_singleton] at hl
    subst hl
    cases hread

/-- the loop of the counting program goes three bytes back, the jump of the other is refused -/
theorem branches_resolved_of_examples :
    (∃ (e : Entry) (d : Byte), countingProgram.listing[1]? = some e ∧
      e.bytes = [Branch.loop.opcode, d] ∧ (0x101 : Int) + 2 + d.toInt = 0x100) ∧
    ∃ l : Layout, ∃ i ∈ l.instructions, i.OutOfReach 0x1000 4094 := by
  constructor
  · obtain ⟨-, h⟩ := (branches_resolved countingSource 0x100).1 _ assemble_countingSource
    obtain ⟨t, e, d, ht, he, hbytes, hd⟩ := h 1 _ .loop rfl rfl
    cases ht
    exact ⟨e, d, he, hbytes, hd⟩
  · obtain ⟨l, -, -, -, -, h, -⟩ := (branches_resolved farSource 0).2 linkable_farSource
    obtain ⟨upper, i, lower, t, d, his, -, hfar, he⟩ :=
      (h (.tooFar 0 0x1000 4094)).mp (by decide +kernel)
    obtain ⟨-, rfl, rfl⟩ := AssemblyError.tooFar.inj he
    exact ⟨l, i, by rw [his]; simp, hfar⟩

end Mini8086
