import Mini8086.Proofs.Concatenation
import Mini8086.Proofs.ReadBack

/-!
# A program written out and assembled again

`canonicalSource labels p` writes a program out as a source: every instruction in normal form, below
a line for each of the labels at its address, and the labels at the end of the code last.  The
source is assembled to the same code with the same labels.  Operands are read back from their normal
forms, so that the target of a branch may have become a name.

* `Carries.legible`         the operands of an assembled program can be read back;
* `Instruction.restated`    the instruction as it comes back;
* `layoutLines_canonical`   the layout of the canonical lines;
* `resolves_of_restated`    what follows the opcodes is resolved to the same numbers;
* `assemble_canonical`      the program that the canonical source is assembled to.
-/

namespace Mini8086

/-! ## the canonical source -/

def labelsAt (labels : List Label) (a : Address) : List Label :=
  labels.filter fun d => d.address = a

def definitionLines (ds : List Label) : List Text := ds.map fun d => labelLine d.name

/-- the instructions in normal form, each below the labels at its address, and the labels at the
address behind them; without instructions this is `a` -/
def canonicalLines (labels : List Label) (a : Address) : List Instruction → List Text
  | [] => definitionLines (labelsAt labels a)
  | i :: is =>
    definitionLines (labelsAt labels i.address) ++ i.text :: canonicalLines labels i.nextAddress is

/-- a program as a source, with its labels in the order of the list -/
def canonicalSource (labels : List Label) (p : Program) : Text :=
  (canonicalLines labels p.origin p.instructions).flatMap fun line => line ++ ['\n']

/-- the instruction as it is read back from line `n` of a canonical source -/
def Instruction.restated (n : Nat) (i : Instruction) : Instruction :=
  { i with operands := i.operands.map Operand.readBack, line := i.text, lineNumber := n }

/-! ## programs that can be read back -/

/-- A label or a branch of a source has a name in upper case. -/
theorem Statement.isName_label {line : Text} {s : Statement} (hs : Statement.read line = .ok s)
    {name : Text} (hn : s.label = some name) : isName name = true ∧ upper name = name := by
  unfold Statement.read at hs
  dsimp only at hs
  split at hs
  · obtain ⟨c, -, rfl⟩ := map_eq_ok.mp hs
    cases hn
  · next before after _ =>
    split at hs
    · next hname =>
      obtain ⟨c, -, rfl⟩ := map_eq_ok.mp hs
      cases hn
      exact ⟨(isName_upper _).trans hname, upper_upper _⟩
    · cases hs

theorem isName_of_layoutLines {a : Address} {n : Nat} {seen : List Label} {lines : List Text}
    {l : Layout} (h : layoutLines a n seen lines = .ok l) :
    ∀ d ∈ l.labels, isName d.name = true ∧ upper d.name = d.name := by
  induction lines generalizing a n seen l with
  | nil =>
    cases h
    exact fun d hd => absurd hd List.not_mem_nil
  | cons line lines ih =>
    obtain ⟨head, tail, hh, ht, rfl⟩ := layoutLines_cons_eq_ok.mp h
    obtain ⟨s, hs, hl, -⟩ := layoutLine_eq_ok.mp hh
    intro d hd
    obtain hd | hd := List.mem_append.mp hd
    · rw [(layoutLabel_eq_ok.mp hl).2] at hd
      obtain ⟨name, hname, rfl⟩ := Option.map_eq_some_iff.mp (Option.mem_toList.mp hd)
      exact Statement.isName_label hs hname
    · exact ih ht d hd

theorem isName_of_assemble {source : Text} {origin : Address} {p : Program}
    (h : assemble source origin = .ok p) :
    ∀ d ∈ p.labels, isName d.name = true ∧ upper d.name = d.name := by
  obtain ⟨draft, l, hd, hl, -, rfl⟩ := assemble_eq_ok_iff_inReach.mp h
  have hlabels : l.labels = draft.labels := (Layout.resolve_eq_ok.mp hl).1
  show ∀ d ∈ l.labels, _
  rw [hlabels]
  exact isName_of_layoutLines hd

/-- The operands of an assembled program can be read back. -/
theorem Carries.legible {labels : List Label} {q : Text × Nat} {i : Instruction} (hq : Carries q i)
    (h : i.Assembled labels) : ∀ o ∈ i.operands, o.Legible i.mnemonic.isBranch := by
  have hw := h.written
  obtain ⟨enc, he⟩ := h.exists_encodes
  cases hm : i.mnemonic with
  | branch b =>
    obtain ⟨o, t, ho, hlead, -⟩ := hq.leadsTo h hm
    rw [ho]
    refine List.forall_mem_singleton.mpr ?_
    cases hlead with
    | label hn hl => exact .label hn (upper_upper _)
    | numeralName hn hl hv => exact .label hn (upper_upper _)
    | number hn hs hv => exact .addr (Nat.mod_lt _ (by decide))
  | _ =>
    -- no other command has an encoding with a name or an address
    rw [hm] at he
    intro o ho
    have hwo := hw o ho
    generalize i.operands = ops at he ho
    cases o with
    | reg r => exact .reg hwo
    | indirect p => exact .indirect hwo
    | imm v => exact .imm v
    | addr a => cases he <;> simp at ho
    | label name => cases he <;> simp at ho

/-! ## what follows the opcode -/

/-- The operands that are read back have the same encoding, but for a target that has become a name,
and it is resolved to the same number where that name is no label. -/
theorem resolves_of_restated {labels : List Label} {i : Instruction} (h : i.Assembled labels) :
    ∃ imm, encode i.mnemonic (i.operands.map Operand.readBack) = .ok ⟨i.opcode, i.length, imm⟩ ∧
      ∀ labels', (∀ name, targetOf? labels' name = targetOf? labels name) →
        (∀ a, .addr a ∈ i.operands → findLabel? labels' (hex a) = none) →
        Resolves labels' imm i.imm := by
  obtain ⟨imm, he, hr⟩ := h.encodes
  by_cases haddr : ∃ a, .addr a ∈ i.operands ∧ startsWithLetter (hex a) = true
  · obtain ⟨a, ha, hletter⟩ := haddr
    have hlt : a < 2 ^ 20 := h.written _ ha
    generalize henc : (⟨i.opcode, i.length, imm⟩ : Encoding) = enc at he
    generalize hops : i.operands = ops at he ha
    generalize hm : i.mnemonic = m at he
    cases he with
    | branchAddress b t =>
      obtain ⟨hopcode, hlength, rfl⟩ := Encoding.mk.inj henc
      obtain rfl : a = t := by simpa using ha
      have hback : Operand.readBack (.addr a) = .label (hex a) := if_pos hletter
      refine ⟨some (.name (hex a)), ?_, fun labels' _ hnew => ?_⟩
      · rw [List.map_singleton, hback, hopcode, hlength]
        rfl
      · have ht : targetOf? labels' (hex a) = some a := by
          rw [targetOf?, hnew a List.mem_cons_self, readHex?_hex (Nat.lt_trans hlt (by decide))]
          exact congrArg some (Nat.mod_eq_of_lt hlt)
        generalize i.imm = after at hr
        cases hr
        exact .name ht
    | _ => simp at ha
  · have hback : i.operands.map Operand.readBack = i.operands := by
      refine (List.map_congr_left fun o ho => ?_).trans (List.map_id _)
      cases o with
      | addr a => exact if_neg fun hletter => haddr ⟨a, ho, hletter⟩
      | _ => rfl
    refine ⟨imm, ?_, fun labels' hsame _ => hr.congr fun name _ => (hsame name).symm⟩
    rw [hback]
    exact encode_eq_ok.mpr he

/-! ## the layout of the canonical source -/

/-- the labels in the order of the canonical lines -/
def placed (labels : List Label) (a : Address) : List Instruction → List Label
  | [] => labelsAt labels a
  | i :: is => labelsAt labels i.address ++ placed labels i.nextAddress is

/-- a label without the number of its line -/
def Label.binding (d : Label) : Text × Address := (d.name, d.address)

/-- the instruction as the canonical lines leave it, before the names are resolved -/
def Redrafts (i j : Instruction) : Prop :=
  ∃ n imm, encode i.mnemonic (i.operands.map Operand.readBack) = .ok ⟨i.opcode, i.length, imm⟩ ∧
    j = (i.restated n).withImm imm

section
variable {a : Address} {n : Nat} {seen : List Label}

theorem layoutLine_labelLine {name : Text} (hn : isName name = true) (hu : upper name = name)
    (hnew : findLabel? seen name = none) :
    layoutLine a n seen (labelLine name) = .ok ⟨[⟨name, a, n⟩], []⟩ := by
  refine layoutLine_eq_ok.mpr ⟨_, Statement.read_labelLine hn hu, ?_, rfl⟩
  refine layoutLabel_eq_ok.mpr ⟨fun other ho => ?_, rfl⟩
  cases ho
  exact hnew

/-- the lines of labels define them all at one address -/
theorem layoutLines_definitionLines {ds : List Label}
    (hd : ∀ d ∈ ds, isName d.name = true ∧ upper d.name = d.name)
    (hnodup : (seen.map Label.name ++ ds.map Label.name).Nodup) :
    ∃ labels, layoutLines a n seen (definitionLines ds) = .ok ⟨labels, []⟩ ∧
      labels.map Label.binding = ds.map fun d => (d.name, a) := by
  induction ds generalizing n seen with
  | nil => exact ⟨[], rfl, rfl⟩
  | cons d ds ih =>
    obtain ⟨⟨hn, hu⟩, hds⟩ := List.forall_mem_cons.mp hd
    have hnew : findLabel? seen d.name = none :=
      findLabel?_eq_none.mpr fun hs => (List.disjoint_of_nodup_append hnodup) hs List.mem_cons_self
    have hrest : ((seen ++ [(⟨d.name, a, n⟩ : Label)]).map Label.name ++
        ds.map Label.name).Nodup := by
      rw [List.map_append, List.append_assoc]
      exact hnodup
    obtain ⟨labels, hl, hbindings⟩ := ih (n := n + 1) hds hrest
    refine ⟨⟨d.name, a, n⟩ :: labels, layoutLines_cons_eq_ok.mpr
      ⟨_, _, layoutLine_labelLine hn hu hnew, hl, rfl⟩, ?_⟩
    rw [List.map_cons, List.map_cons, hbindings]
    rfl

theorem layoutLine_text {i : Instruction} (ha : i.address = a)
    (hl : ∀ o ∈ i.operands, o.Legible i.mnemonic.isBranch) {imm : Option Immediate}
    (he : encode i.mnemonic (i.operands.map Operand.readBack) = .ok ⟨i.opcode, i.length, imm⟩) :
    layoutLine a n seen i.text = .ok ⟨[], [(i.restated n).withImm imm]⟩ := by
  refine layoutLine_eq_ok.mpr ⟨_, Statement.read_text hl, rfl, ?_⟩
  unfold layoutCommand
  dsimp only
  rw [he, ← ha]
  rfl

theorem map_binding_labelsAt (labels : List Label) (a : Address) :
    (labelsAt labels a).map (fun d => (d.name, a)) = (labelsAt labels a).map Label.binding := by
  refine List.map_congr_left fun d hd => ?_
  have hda : d.address = a := of_decide_eq_true (List.mem_filter.mp hd).2
  rw [Label.binding, hda]

/-- The canonical lines define every label at its address, and lay out the instructions again. -/
theorem layoutLines_canonical {labels : List Label} {is : List Instruction}
    (hlabels : ∀ d ∈ labels, isName d.name = true ∧ upper d.name = d.name)
    (hc : Contiguous a is) (hl : ∀ i ∈ is, ∀ o ∈ i.operands, o.Legible i.mnemonic.isBranch)
    (he : ∀ i ∈ is, ∃ imm, encode i.mnemonic (i.operands.map Operand.readBack) =
      .ok ⟨i.opcode, i.length, imm⟩)
    (hn : (seen.map Label.name ++ (placed labels a is).map Label.name).Nodup) :
    ∃ l, layoutLines a n seen (canonicalLines labels a is) = .ok l ∧
      List.Forall₂ Redrafts is l.instructions ∧
      l.labels.map Label.binding = (placed labels a is).map Label.binding := by
  have hat (b : Address) : ∀ d ∈ labelsAt labels b, isName d.name = true ∧ upper d.name = d.name :=
    fun d hd => hlabels d (List.mem_of_mem_filter hd)
  induction is generalizing a n seen with
  | nil =>
    obtain ⟨ds, hds, hbindings⟩ := layoutLines_definitionLines (a := a) (n := n) (hat a) hn
    exact ⟨_, hds, .nil, hbindings.trans (map_binding_labelsAt labels a)⟩
  | cons i is ih =>
    obtain ⟨hia, hc⟩ := hc
    obtain ⟨hli, hl⟩ := List.forall_mem_cons.mp hl
    obtain ⟨⟨imm, hei⟩, he⟩ := List.forall_mem_cons.mp he
    rw [placed, hia, List.map_append, ← List.append_assoc] at hn
    obtain ⟨ds, hds, hbindings⟩ :=
      layoutLines_definitionLines (a := a) (n := n) (hat a) (List.Nodup.of_append_left hn)
    rw [map_binding_labelsAt] at hbindings
    have hnames : ds.map Label.name = (labelsAt labels a).map Label.name := by
      have h := congrArg (List.map Prod.fst) hbindings
      rw [List.map_map, List.map_map] at h
      exact h
    have hnext : i.nextAddress = a + i.length := by rw [Instruction.nextAddress, hia]
    rw [← hnames, ← List.map_append, hnext] at hn
    obtain ⟨l, hlines, his, hlbindings⟩ :=
      ih (n := n + (definitionLines (labelsAt labels a)).length + 1) hc hl he hn
    refine ⟨(⟨ds, []⟩ : Layout).append
      ((⟨[], [(i.restated (n + (definitionLines (labelsAt labels a)).length)).withImm imm]⟩ :
        Layout).append l), ?_, ?_, ?_⟩
    · rw [canonicalLines, hia, hnext]
      refine layoutLines_append hds (layoutLines_cons_eq_ok.mpr
        ⟨_, l, layoutLine_text hia hli hei, ?_, rfl⟩)
      rw [List.append_nil]
      exact hlines
    · exact .cons ⟨_, imm, hei, rfl⟩ his
    · rw [placed, hia, hnext, List.map_append, ← hbindings, ← hlbindings, ← List.map_append]
      rfl

end

/-! ## every label has its place -/

/-- the addresses at which labels can stand -/
def stops (a : Address) : List Instruction → List Address
  | [] => [a]
  | i :: is => i.address :: stops i.nextAddress is

section
variable {a : Address} {is : List Instruction} {labels : List Label}

theorem placed_eq_flatMap (labels : List Label) (a : Address) (is : List Instruction) :
    placed labels a is = (stops a is).flatMap (labelsAt labels) := by
  induction is generalizing a with
  | nil => exact (List.flatMap_singleton ..).symm
  | cons i is ih => rw [placed, stops, List.flatMap_cons, ih]

theorem addressAt_mem_stops (hc : Contiguous a is) {k : Nat} (hk : k ≤ is.length) :
    addressAt a is k ∈ stops a is := by
  induction is generalizing a k with
  | nil =>
    rw [Nat.le_zero.mp hk]
    exact List.mem_cons_self
  | cons i is ih =>
    obtain ⟨rfl, hc⟩ := hc
    cases k with
    | zero => exact List.mem_cons_self
    | succ k =>
      rw [addressAt, List.take_succ_cons, codeLength_cons, ← Nat.add_assoc]
      exact List.mem_cons_of_mem _ (ih hc (Nat.le_of_succ_le_succ hk))

theorem le_of_mem_stops (hc : Contiguous a is) : ∀ b ∈ stops a is, a ≤ b := by
  induction is generalizing a with
  | nil => exact List.forall_mem_singleton.mpr (Nat.le_refl a)
  | cons i is ih =>
    obtain ⟨rfl, hc⟩ := hc
    exact List.forall_mem_cons.mpr
      ⟨Nat.le_refl _, fun b hb => Nat.le_trans (Nat.le_add_right _ _) (ih hc b hb)⟩

theorem stops_nodup (hc : Contiguous a is) (hpos : ∀ i ∈ is, 1 ≤ i.length) :
    (stops a is).Nodup := by
  induction is generalizing a with
  | nil => exact List.nodup_singleton a
  | cons i is ih =>
    obtain ⟨rfl, hc⟩ := hc
    obtain ⟨hi, his⟩ := List.forall_mem_cons.mp hpos
    refine List.nodup_cons.mpr ⟨fun hmem => ?_, ih hc his⟩
    exact absurd (le_of_mem_stops hc _ hmem) (Nat.not_le.mpr (Nat.lt_add_of_pos_right hi))

/-- Labels sorted by the stops that they stand at are the same labels. -/
theorem flatMap_labelsAt_perm {keys : List Address} (hk : keys.Nodup)
    (h : ∀ d ∈ labels, d.address ∈ keys) : (keys.flatMap (labelsAt labels)).Perm labels := by
  induction keys generalizing labels with
  | nil =>
    rw [List.eq_nil_iff_forall_not_mem.mpr fun d hd => List.not_mem_nil (h d hd)]
    exact .refl _
  | cons a keys ih =>
    obtain ⟨ha, hk⟩ := List.nodup_cons.mp hk
    have hrest : ∀ b ∈ keys, labelsAt labels b =
        labelsAt (labels.filter fun d => !decide (d.address = a)) b := by
      intro b hb
      rw [labelsAt, labelsAt, List.filter_filter]
      refine List.filter_congr fun d _ => ?_
      by_cases hd : d.address = b
      · have hne : d.address ≠ a := fun heq => ha (heq ▸ hd ▸ hb)
        rw [decide_eq_true hd, decide_eq_false hne]
        rfl
      · rw [decide_eq_false hd, Bool.false_and]
    rw [List.flatMap_cons, List.flatMap_congr hrest]
    refine .trans (.append_left _ (ih hk fun d hd => ?_)) (List.filter_append_perm _ labels)
    obtain ⟨hmem, hne⟩ := List.mem_filter.mp hd
    refine (List.mem_cons.mp (h d hmem)).resolve_left fun heq => ?_
    rw [decide_eq_true heq] at hne
    cases hne

/-- Every label of a program stands at an instruction or at the end of the code. -/
theorem LaidOut.address_mem_stops {source : Text} {l : Layout}
    (h : LaidOut a (numberedLines source) l) (hc : Contiguous a l.instructions) :
    ∀ d ∈ l.labels, d.address ∈ stops a l.instructions := by
  intro d hd
  rw [h.addresses d hd, before_eq_take (h.pairwise_lineNumber (numberedLines_pairwise source))]
  exact addressAt_mem_stops hc (List.length_filter_le _ _)

end

/-! ## the same labels -/

section
variable {xs ys : List Label} {name : Text}

theorem findAddress_eq_some_iff (hn : (xs.map Label.name).Nodup) {a : Address} :
    (findLabel? xs name).map Label.address = some a ↔ (name, a) ∈ xs.map Label.binding := by
  rw [Option.map_eq_some_iff, List.mem_map]
  refine exists_congr fun d => ?_
  rw [findLabel?_eq_some hn, and_assoc]
  exact and_congr_right fun _ => Prod.mk.injEq .. ▸ Iff.rfl

/-- Labels with the same names and addresses are found at the same addresses. -/
theorem findAddress_of_perm (hn : (xs.map Label.name).Nodup)
    (h : (xs.map Label.binding).Perm (ys.map Label.binding)) :
    (findLabel? xs name).map Label.address = (findLabel? ys name).map Label.address := by
  have hnames : (ys.map Label.name).Nodup := by
    have hp := h.map Prod.fst
    rw [List.map_map, List.map_map] at hp
    exact hp.nodup_iff.mp hn
  ext a
  rw [findAddress_eq_some_iff hn, findAddress_eq_some_iff hnames, h.mem_iff]

theorem targetOf?_eq_or (labels : List Label) (name : Text) :
    targetOf? labels name = ((findLabel? labels name).map Label.address).or
      ((readHex? name).map (· % 0x100000)) := by
  unfold targetOf?
  cases findLabel? labels name <;> rfl

end

/-! ## the program again -/

/-- Every instruction of the canonical layout is resolved to the one that it was written from. -/
theorem exists_resolve_restated {labels labels' : List Label} {is js : List Instruction}
    (h : List.Forall₂ Redrafts is js) (hd : ∀ j ∈ js, j.Drafted)
    (ha : ∀ i ∈ is, i.Assembled labels)
    (hsame : ∀ name, targetOf? labels' name = targetOf? labels name)
    (hnew : ∀ i ∈ is, ∀ a, .addr a ∈ i.operands → findLabel? labels' (hex a) = none) :
    ∃ ks, List.Forall₂ (fun i k => ∃ n, k = i.restated n) is ks ∧
      List.Forall₂ (fun j k => j.resolve labels' = .ok k) js ks := by
  induction h with
  | nil => exact ⟨[], .nil, .nil⟩
  | @cons i j is js hij _ ih =>
    obtain ⟨hdj, hd⟩ := List.forall_mem_cons.mp hd
    obtain ⟨hai, ha⟩ := List.forall_mem_cons.mp ha
    obtain ⟨hni, hnew⟩ := List.forall_mem_cons.mp hnew
    obtain ⟨ks, his, hjs⟩ := ih hd ha hnew
    obtain ⟨n, imm, he, rfl⟩ := hij
    obtain ⟨imm', he', hr⟩ := resolves_of_restated hai
    obtain ⟨-, -, rfl⟩ := Encoding.mk.inj (Except.ok.inj (he.symm.trans he'))
    exact ⟨i.restated n :: ks, .cons ⟨n, rfl⟩ his,
      .cons (resolve_of_resolves hdj (hr labels' hsame hni)) hjs⟩

theorem map_restated {α : Type} {f g : Instruction → α} (hf : ∀ i n, f (i.restated n) = g i)
    {is ks : List Instruction} (h : List.Forall₂ (fun i k => ∃ n, k = i.restated n) is ks) :
    ks.map f = is.map g := by
  induction h with
  | nil => rfl
  | @cons i k is ks hik _ ih =>
    obtain ⟨n, rfl⟩ := hik
    rw [List.map_cons, List.map_cons, hf, ih]

theorem newline_not_mem_canonicalLines {labels : List Label} {a : Address} {is : List Instruction}
    (hlabels : ∀ d ∈ labels, isName d.name = true)
    (hl : ∀ i ∈ is, ∀ o ∈ i.operands, o.Legible i.mnemonic.isBranch) :
    ∀ line ∈ canonicalLines labels a is, '\n' ∉ line := by
  have hat (b : Address) : ∀ line ∈ definitionLines (labelsAt labels b), '\n' ∉ line := by
    intro line hline hc
    obtain ⟨d, hd, rfl⟩ := List.mem_map.mp hline
    obtain hc | hc := List.mem_append.mp hc
    · have hname := isNameChar_of_mem_name (hlabels d (List.mem_of_mem_filter hd)) _ hc
      exact absurd hname (by decide)
    · exact absurd hc (by decide)
  induction is generalizing a with
  | nil => exact hat a
  | cons i is ih =>
    obtain ⟨hi, his⟩ := List.forall_mem_cons.mp hl
    intro line hline
    obtain hline | hline := List.mem_append.mp hline
    · exact hat _ line hline
    · obtain rfl | hline := List.mem_cons.mp hline
      · exact not_mem_text hi (by decide)
      · exact ih his line hline

theorem sourceLines_canonicalSource {labels : List Label} {p : Program}
    (hlabels : ∀ d ∈ labels, isName d.name = true)
    (hl : ∀ i ∈ p.instructions, ∀ o ∈ i.operands, o.Legible i.mnemonic.isBranch) :
    sourceLines (canonicalSource labels p) =
      canonicalLines labels p.origin p.instructions ++ [[]] :=
  pieces_flatMap (newline_not_mem_canonicalLines hlabels hl)

/-- the empty line at the end of a source adds nothing -/
theorem layoutLines_append_nil {a : Address} {n : Nat} {seen : List Label} {lines : List Text}
    {l : Layout} (h : layoutLines a n seen lines = .ok l) :
    layoutLines a n seen (lines ++ [[]]) = .ok l := by
  have hempty : layoutLines (a + l.size) (n + lines.length) (seen ++ l.labels) [[]] = .ok .empty :=
    rfl
  have hlast := layoutLines_append h hempty
  rw [Layout.append, Layout.empty, List.append_nil, List.append_nil] at hlast
  exact hlast

/-- An assembled program written out, with its labels in any order, assembles at the same origin.
The instructions that come back are those of the program, with operands read back from their normal
forms; the listing has the same addresses and bytes, and there are the same labels.  No label may be
spelled like the digits of an address that a branch has as its operand. -/
theorem assemble_canonical {source : Text} {origin : Address} {p : Program}
    (hp : assemble source origin = .ok p) {labels : List Label} (hl : labels.Perm p.labels)
    (hnew : ∀ i ∈ p.instructions, ∀ a, .addr a ∈ i.operands → ∀ d ∈ p.labels, d.name ≠ hex a) :
    ∃ q, assemble (canonicalSource labels p) origin = .ok q ∧
      List.Forall₂ (fun i j => ∃ n, j = i.restated n) p.instructions q.instructions ∧
      (q.listing.map fun e => (e.address, e.bytes)) =
        (p.listing.map fun e => (e.address, e.bytes)) ∧
      q.bytes = p.bytes ∧ (q.labels.map Label.binding).Perm (p.labels.map Label.binding) ∧
      ∀ name, (findLabel? q.labels name).map Label.address =
        (findLabel? p.labels name).map Label.address := by
  obtain ⟨rfl, hpa⟩ := assembled_of_assemble hp
  obtain ⟨hlaid, hnodup⟩ := laidOut_of_assemble hp
  have hpos := (contiguous_of_assemble hp).2
  have hnames : ∀ d ∈ labels, isName d.name = true ∧ upper d.name = d.name :=
    fun d hd => isName_of_assemble hp d (hl.mem_iff.mp hd)
  have hlegible : ∀ i ∈ p.instructions, ∀ o ∈ i.operands, o.Legible i.mnemonic.isBranch := by
    intro i hi
    obtain ⟨q, -, -, hq⟩ := hlaid.exists_line_of_instruction hi
    exact hq.legible (hpa.instructions i hi)
  -- the canonical lines define the labels of the program in another order
  have hplaced : (placed labels p.origin p.instructions).Perm p.labels := by
    rw [placed_eq_flatMap]
    exact (flatMap_labelsAt_perm (stops_nodup hpa.contiguous hpos) fun d hd =>
      hlaid.address_mem_stops hpa.contiguous d (hl.mem_iff.mp hd)).trans hl
  have hplacedNodup : (([] : List Label).map Label.name ++
      (placed labels p.origin p.instructions).map Label.name).Nodup :=
    (hplaced.map Label.name).nodup_iff.mpr hnodup
  obtain ⟨l, hlines, his, hbindings⟩ := layoutLines_canonical (n := 1) hnames hpa.contiguous
    hlegible (fun i hi =>
      have ⟨imm, he, _⟩ := resolves_of_restated (hpa.instructions i hi)
      ⟨imm, he⟩) hplacedNodup
  have hperm : (p.labels.map Label.binding).Perm (l.labels.map Label.binding) := by
    rw [hbindings]
    exact (hplaced.map Label.binding).symm
  have hfind (name : Text) : (findLabel? l.labels name).map Label.address =
      (findLabel? p.labels name).map Label.address := (findAddress_of_perm hnodup hperm).symm
  have hlayout : layout (canonicalSource labels p) p.origin = .ok l := by
    rw [layout, sourceLines_canonicalSource (fun d hd => (hnames d hd).1) hlegible]
    exact layoutLines_append_nil hlines
  have hsame (name : Text) : targetOf? l.labels name = targetOf? p.labels name := by
    rw [targetOf?_eq_or, targetOf?_eq_or, hfind]
  obtain ⟨ks, hks, hresolve⟩ := exists_resolve_restated his (layoutLines_drafted hlines).2
    hpa.instructions hsame fun i hi a ha => by
      have hnone : findLabel? p.labels (hex a) = none := by
        rw [findLabel?_eq_none, List.mem_map]
        rintro ⟨d, hd, hname⟩
        exact hnew i hi a ha d hd hname
      rw [← Option.map_eq_none_iff, hfind, hnone]
      rfl
  have hreach : ∀ k ∈ ks, k.InReach := by
    intro k hk
    obtain ⟨m, hm, rfl⟩ := List.getElem_of_mem hk
    have hm' := hks.length_eq.symm ▸ hm
    obtain ⟨n, hn⟩ := hks.get hm' hm
    rw [List.get_eq_getElem, List.get_eq_getElem] at hn
    rw [hn]
    have hreach : p.instructions[m].InReach := hpa.inReach _ (List.getElem_mem hm')
    exact hreach
  have hlisting : (ks.map Instruction.listed).map (fun e => (e.address, e.bytes)) =
      (p.listing.map fun e => (e.address, e.bytes)) := by
    rw [hpa.listing, List.map_map, List.map_map]
    exact map_restated (fun _ _ => rfl) hks
  refine ⟨(⟨l.labels, ks⟩ : Layout).program p.origin, assemble_eq_ok_iff_inReach.mpr
    ⟨l, ⟨l.labels, ks⟩, hlayout, Layout.resolve_eq_ok.mpr ⟨rfl, hresolve⟩, hreach, rfl⟩, hks,
    hlisting, ?_, hperm.symm, hfind⟩
  have hbytes := congrArg (fun entries => (entries.map Prod.snd).flatten) hlisting
  rw [List.map_map (l := ks.map Instruction.listed), List.map_map (l := p.listing)] at hbytes
  exact hbytes

/-- a source with a label at the end of the code and a jump to a number that starts with a letter -/
def numberSource : Text := "a: nop\nb: ; here\njmp 0a5\nc:".toList

def numberProgram : Program where
  origin := 0xa0
  instructions := [
    { opcode := [0x90], length := 1, imm := none, address := 0xa0, mnemonic := .nop,
      operands := [], line := "a: nop".toList, lineNumber := 1 },
    { opcode := [0xeb], length := 2, imm := some (.value 0xa5), address := 0xa1,
      mnemonic := .branch .jmp, operands := [.addr 0xa5], line := "jmp 0a5".toList,
      lineNumber := 3 }]
  listing := [⟨0xa0, [0x90], "a: nop".toList⟩, ⟨0xa1, [0xeb, 0x02], "jmp 0a5".toList⟩]
  labels := [⟨"A".toList, 0xa0, 1⟩, ⟨"B".toList, 0xa1, 2⟩, ⟨"C".toList, 0xa3, 4⟩]

/-- the number comes back as the name `A5` -/
theorem assemble_canonical_of_number :
    assemble numberSource 0xa0 = .ok numberProgram ∧
    canonicalSource numberProgram.labels numberProgram =
      "A:\nNOP\nB:\nJMP\tA5\nC:\n".toList ∧
    ∃ q, assemble "A:\nNOP\nB:\nJMP\tA5\nC:\n".toList 0xa0 = .ok q ∧
      q.bytes = [0x90, 0xeb, 0x02] ∧
      q.instructions.map (fun i => i.operands) = [[], [.label "A5".toList]] := by
  have hp : assemble numberSource 0xa0 = .ok numberProgram := by decide +kernel
  have hs : canonicalSource numberProgram.labels numberProgram =
      "A:\nNOP\nB:\nJMP\tA5\nC:\n".toList := by decide +kernel
  have hnew : ∀ i ∈ numberProgram.instructions, ∀ a, .addr a ∈ i.operands →
      ∀ d ∈ numberProgram.labels, d.name ≠ hex a := by
    intro i hi a ha
    have haddr : a = 0xa5 := by
      obtain rfl | hi := List.mem_cons.mp hi
      · cases ha
      · obtain rfl := List.mem_singleton.mp hi
        exact Operand.addr.inj (List.mem_singleton.mp ha)
    subst haddr
    decide +kernel
  obtain ⟨q, hq, hks, -, hbytes, -⟩ := assemble_canonical hp (.refl _) hnew
  rw [hs] at hq
  refine ⟨hp, hs, q, hq, hbytes, ?_⟩
  have hback := map_restated (f := fun i => i.operands)
    (g := fun i => i.operands.map Operand.readBack) (fun _ _ => rfl) hks
  rw [hback]
  decide +kernel

end Mini8086
