import Mathlib.Data.Nat.Digits.Defs
import Mini8086.CommandLine.Assembler
import Mini8086.Proofs.ReadBack

/-!
# The printed listing read back

A line of the listing is an address, two blanks, a column of twelve characters for the bytes, and
the source text.  The column is padded but never cut, so the line can be taken apart only because no
instruction has more than four bytes; and the source text may look like bytes itself, so it is the
place of the column and not its characters that tells where it ends.

* `readBytesText?_bytesText`   bytes in two digits each;
* `Entry.Parts.unique`         a line is taken apart in one way;
* `Entry.read?_text`           an entry is read back from its line;
* `printed_listing`            what the assembler prints for a program, with and without `--raw`.
-/

namespace Mini8086

/-! ## digits with zeros in front of them -/

@[simp] theorem hexValueFrom?_zeros (k : Nat) (t : Text) :
    hexValueFrom? 0 (List.replicate k '0' ++ t) = hexValueFrom? 0 t := by
  induction k with
  | zero => rfl
  | succ k ih =>
    simpa [List.replicate_succ, hexDigit?] using ih

@[simp] theorem hexValue?_hexPadded (w n : Nat) : hexValue? (hexPadded w n) = some n := by
  have hne : hexPadded w n ≠ [] := List.append_ne_nil_of_right_ne_nil _ (hex_ne_nil n)
  have hvalue := hexValue?_hex n
  rw [hexValue?, if_neg (hex_ne_nil n)] at hvalue
  rw [hexValue?, if_neg hne, hexPadded, List.leftpad, hexValueFrom?_zeros, hvalue]

theorem not_mem_hexPadded {c : Char} (hc : isHexDigit c = false) (w n : Nat) :
    c ∉ hexPadded w n := by
  intro h
  rw [isHexDigit_of_mem_hexPadded h] at hc
  cases hc

/-! ## bytes -/

@[simp] theorem length_byteText (b : Byte) : (byteText b).length = 2 := by
  have hlen : (hex b.toNat).length ≤ 2 := by
    rw [hex, upper, List.length_map]
    exact Nat.toDigits_length 16 b.toNat 2 (by decide) b.isLt
  rw [byteText, hexPadded, List.length_leftpad]
  exact Nat.max_eq_left hlen

/-- the byte that two digits spell -/
def readByteText? (t : Text) : Option Byte :=
  if t.length = 2 then (hexValue? t).map (BitVec.ofNat 8) else none

@[simp] theorem readByteText?_byteText (b : Byte) : readByteText? (byteText b) = some b := by
  rw [readByteText?, if_pos (length_byteText b), byteText, hexValue?_hexPadded]
  exact congrArg some (BitVec.ofNat_toNat 8 b)

/-- the parts of a text between its spaces that are not empty -/
def spacedParts (t : Text) : List Text := (pieces ' ' t).filter fun p => p ≠ []

/-- the bytes that a text spells, in two digits each and with spaces between them -/
def readBytesText? (t : Text) : Option (List Byte) := (spacedParts t).mapM readByteText?

theorem spacedParts_append (s t : Text) :
    spacedParts (s ++ ' ' :: t) = spacedParts s ++ spacedParts t := by
  rw [spacedParts, pieces_append, List.filter_append]
  rfl

/-- Spaces behind a text do not count. -/
theorem spacedParts_append_replicate (s : Text) (k : Nat) :
    spacedParts (s ++ List.replicate k ' ') = spacedParts s := by
  induction k with
  | zero => rw [List.replicate_zero, List.append_nil]
  | succ k ih =>
    rw [List.replicate_succ', ← List.append_assoc, spacedParts_append, ih]
    exact List.append_nil _

theorem spacedParts_bytesText (bs : List Byte) : spacedParts (bytesText bs) = bs.map byteText := by
  by_cases hbs : bs = []
  · subst hbs
    rfl
  have hne : bs.map byteText ≠ [] := fun h => hbs (List.map_eq_nil_iff.mp h)
  have hspace : ∀ p ∈ bs.map byteText, ' ' ∉ p := by
    intro p hp
    obtain ⟨b, -, rfl⟩ := List.mem_map.mp hp
    exact not_mem_hexPadded (by decide) 2 b.toNat
  rw [spacedParts, bytesText, pieces_joined hne hspace, List.filter_eq_self]
  intro p hp
  obtain ⟨b, -, rfl⟩ := List.mem_map.mp hp
  refine decide_eq_true fun hnil => ?_
  have hlen := length_byteText b
  rw [hnil] at hlen
  cases hlen

theorem mapM_readByteText? (bs : List Byte) : (bs.map byteText).mapM readByteText? = some bs := by
  induction bs with
  | nil => rfl
  | cons b bs ih =>
    simp [ih]

/-- Bytes are read back from their digits, also with spaces behind them. -/
theorem readBytesText?_rightpad (bs : List Byte) (w : Nat) :
    readBytesText? ((bytesText bs).rightpad w ' ') = some bs := by
  rw [readBytesText?, List.rightpad, spacedParts_append_replicate, spacedParts_bytesText,
    mapM_readByteText?]

@[simp] theorem readBytesText?_bytesText (bs : List Byte) :
    readBytesText? (bytesText bs) = some bs := by
  rw [readBytesText?, spacedParts_bytesText, mapM_readByteText?]

@[simp] theorem length_bytesText (bs : List Byte) : (bytesText bs).length = 3 * bs.length - 1 := by
  induction bs with
  | nil => rfl
  | cons b bs ih =>
    cases bs with
    | nil => exact length_byteText b
    | cons c bs =>
      have hjoin : bytesText (b :: c :: bs) = byteText b ++ ' ' :: bytesText (c :: bs) := rfl
      simp only [hjoin, List.length_append, length_byteText, List.length_cons, ih]
      omega

theorem mem_bytesText {bs : List Byte} {c : Char} (h : c ∈ bytesText bs) :
    c = ' ' ∨ isHexDigit c = true := by
  obtain rfl | ⟨p, hp, hc⟩ := mem_of_mem_joined h
  · exact .inl rfl
  · obtain ⟨b, -, rfl⟩ := List.mem_map.mp hp
    exact .inr (isHexDigit_of_mem_hexPadded hc)

/-! ## lines of the listing -/

/-- the bytes in the column of the line, which has twelve characters unless there are more than four
bytes -/
def Entry.column (e : Entry) : Text := (bytesText e.bytes).rightpad 12 ' '

theorem Entry.text_eq (e : Entry) :
    e.text = hexPadded 4 e.address ++ ' ' :: ' ' :: (e.column ++ e.line) := by
  rw [Entry.text, List.append_assoc, List.append_assoc]
  rfl

/-- the entry of a printed line: its address up to the first space, its bytes in the twelve
characters behind one more space, and its source text in what is left -/
def Entry.read? (t : Text) : Option Entry :=
  match splitFirst? ' ' t with
  | some (digits, ' ' :: t) =>
    (hexValue? digits).bind fun a => (readBytesText? (t.take 12)).map fun bs => ⟨a, bs, t.drop 12⟩
  | _ => none

/-- The line is an address without a space in it, two spaces, twelve characters, and the rest. -/
structure Entry.Parts (t digits column line : Text) : Prop where
  text : t = digits ++ ' ' :: ' ' :: (column ++ line)
  digits : ' ' ∉ digits
  column : column.length = 12

/-- A line is taken apart in one way. -/
theorem Entry.Parts.unique {t digits digits' column column' line line' : Text}
    (h : Entry.Parts t digits column line) (h' : Entry.Parts t digits' column' line') :
    digits = digits' ∧ column = column' ∧ line = line' := by
  have hs := splitFirst?_append h.digits (' ' :: (column ++ line))
  rw [← h.text, h'.text, splitFirst?_append h'.digits] at hs
  obtain ⟨hdigits, hrest⟩ := Prod.mk.inj (Option.some.inj hs)
  obtain ⟨hcolumn, hline⟩ :=
    List.append_inj (List.cons.inj hrest).2 (h'.column.trans h.column.symm)
  exact ⟨hdigits.symm, hcolumn.symm, hline.symm⟩

theorem Entry.read?_of_parts {t digits column line : Text} (h : Entry.Parts t digits column line) :
    Entry.read? t =
      (hexValue? digits).bind fun a => (readBytesText? column).map fun bs => ⟨a, bs, line⟩ := by
  have htake : (column ++ line).take 12 = column := List.take_left' h.column
  have hdrop : (column ++ line).drop 12 = line := List.drop_left' h.column
  rw [Entry.read?, h.text, splitFirst?_append h.digits]
  show ((hexValue? digits).bind fun a => (readBytesText? ((column ++ line).take 12)).map fun bs =>
    Entry.mk a bs ((column ++ line).drop 12)) = _
  rw [htake, hdrop]

section
variable {e f : Entry} (he : e.bytes.length ≤ 4)
include he

theorem Entry.parts : Entry.Parts e.text (hexPadded 4 e.address) e.column e.line where
  text := e.text_eq
  digits := not_mem_hexPadded (by decide) 4 e.address
  column := by
    rw [Entry.column, List.length_rightpad, length_bytesText]
    omega

theorem Entry.read?_text : Entry.read? e.text = some e := by
  rw [Entry.read?_of_parts (Entry.parts he), hexValue?_hexPadded, Entry.column,
    readBytesText?_rightpad]
  rfl

theorem Entry.text_inj (hf : f.bytes.length ≤ 4) (h : e.text = f.text) : e = f := by
  have hread := Entry.read?_text he
  rw [h, Entry.read?_text hf] at hread
  exact (Option.some.inj hread).symm

end

theorem Entry.feed_not_mem_text {e : Entry} (h : '\n' ∉ e.line) : '\n' ∉ e.text := by
  have hcolumn : '\n' ∉ e.column := by
    intro hc
    obtain hc | hc := List.mem_append.mp hc
    · obtain hc | hc := mem_bytesText hc
      · exact absurd hc (by decide)
      · exact absurd hc (by decide)
    · exact absurd (List.eq_of_mem_replicate hc) (by decide)
  rw [e.text_eq]
  simp only [List.mem_append, List.mem_cons, not_or]
  exact ⟨not_mem_hexPadded (by decide) 4 e.address, by decide, by decide, hcolumn, h⟩

/-! ## what is printed -/

/-- the lines of a printed text, of which each has its end -/
def printedLines (t : String) : List Text := (pieces '\n' t.toList).dropLast

theorem printedLines_linesText {lines : List Text} (h : ∀ l ∈ lines, '\n' ∉ l) :
    printedLines (linesText lines) = lines := by
  rw [printedLines, linesText, String.toList_ofList, pieces_flatMap h, List.dropLast_concat]

/-- the entries of a printed listing -/
def readListing? (t : String) : Option (List Entry) := (printedLines t).mapM Entry.read?

/-- the bytes of a text that is printed for them alone -/
def readRaw? (t : String) : Option (List Byte) :=
  match printedLines t with
  | [line] => readBytesText? line
  | _ => none

theorem readListing?_text {es : List Entry} (hlen : ∀ e ∈ es, e.bytes.length ≤ 4)
    (hline : ∀ e ∈ es, '\n' ∉ e.line) :
    readListing? (linesText (es.map Entry.text)) = some es := by
  have hlines : ∀ l ∈ es.map Entry.text, '\n' ∉ l := by
    intro l hl
    obtain ⟨e, he, rfl⟩ := List.mem_map.mp hl
    exact Entry.feed_not_mem_text (hline e he)
  rw [readListing?, printedLines_linesText hlines]
  clear hlines hline
  induction es with
  | nil => rfl
  | cons e es ih =>
    obtain ⟨he, hes⟩ := List.forall_mem_cons.mp hlen
    rw [List.map_cons, List.mapM_cons, Entry.read?_text he, ih hes]
    rfl

theorem readRaw?_bytesText (bs : List Byte) : readRaw? (linesText [bytesText bs]) = some bs := by
  have hfeed : '\n' ∉ bytesText bs := by
    intro hc
    obtain hc | hc := mem_bytesText hc
    · exact absurd hc (by decide)
    · exact absurd hc (by decide)
  rw [readRaw?, printedLines_linesText (List.forall_mem_singleton.mpr hfeed)]
  exact readBytesText?_bytesText bs

/-! ## programs -/

theorem feed_not_mem_statementText {line : Text} (h : '\n' ∉ line) : '\n' ∉ statementText line :=
  fun hc => h ((List.takeWhile_sublist _).subset (mem_of_mem_trimStart (mem_of_mem_trimEnd hc)))

theorem Program.Assembled.length_bytes_le {p : Program} (h : p.Assembled) :
    ∀ e ∈ p.listing, e.bytes.length ≤ 4 := by
  rw [h.listing]
  intro e he
  obtain ⟨i, hi, rfl⟩ := List.mem_map.mp he
  have ha := h.instructions i hi
  exact ha.emit?.2.le.trans ha.length_le

theorem feed_not_mem_line {source : Text} {origin : Address} {p : Program}
    (hp : assemble source origin = .ok p) : ∀ e ∈ p.listing, '\n' ∉ e.line := by
  rw [(assembled_of_assemble hp).2.listing]
  intro e he
  obtain ⟨i, hi, rfl⟩ := List.mem_map.mp he
  obtain ⟨q, hq, -, hc⟩ := (laidOut_of_assemble hp).1.exists_line_of_instruction hi
  have hline : q.1 ∈ sourceLines source := List.fst_mem_of_mem_zipIdx hq
  show '\n' ∉ i.line
  rw [hc.text]
  exact feed_not_mem_statementText (not_mem_of_mem_pieces hline)

/-- The line `t` can be read as the entry: it is the address in hexadecimal up to the first space,
two spaces, twelve characters that spell the bytes, and the source text; and whatever is taken for
these parts has these values. -/
structure Entry.PrintedAs (e : Entry) (t : Text) : Prop where
  parts : ∃ column, Entry.Parts t (hexPadded 4 e.address) column e.line
  unique : ∀ digits column line, Entry.Parts t digits column line →
    hexValue? digits = some e.address ∧ readBytesText? column = some e.bytes ∧ line = e.line
  read : Entry.read? t = some e

theorem Entry.printedAs_text {e : Entry} (he : e.bytes.length ≤ 4) : e.PrintedAs e.text where
  parts := ⟨_, Entry.parts he⟩
  unique := by
    intro digits column line h
    obtain ⟨rfl, rfl, rfl⟩ := (Entry.parts he).unique h
    exact ⟨hexValue?_hexPadded 4 e.address, readBytesText?_rightpad e.bytes 12, rfl⟩
  read := Entry.read?_text he

/-- The printed listing of an assembled program is read back.  Every line is taken apart in one way,
into the address, the bytes and the source text of its entry, and entries with equal lines are
equal, also those of two programs.  What the assembler prints for the source is the listing, or with
`--raw` the bytes; the entries are read from the first, and their bytes in order are those that are
read from the second, and those of the program. -/
theorem printed_listing {source : Text} {origin : Address} {p : Program}
    (hp : assemble source origin = .ok p) :
    (∀ e ∈ p.listing, e.PrintedAs e.text) ∧
    (∀ source' origin' q, assemble source' origin' = .ok q →
      ∀ e ∈ p.listing, ∀ f ∈ q.listing, e.text = f.text → e = f) ∧
    ∀ (order order' : List Label → List Label) (o raw : Assembler.Options),
      readHex? o.origin = some origin → readHex? raw.origin = some origin → o.raw = false →
      raw.raw = true →
      let plain := Assembler.outcomeOn order o (.ok source)
      let bare := Assembler.outcomeOn order' raw (.ok source)
      let printed := linesText plain.out
      let printedRaw := linesText bare.out
      plain.exit = 0 ∧ bare.exit = 0 ∧
      readListing? printed = some p.listing ∧
      (readListing? printed).map (fun es => es.flatMap fun e => e.bytes) = readRaw? printedRaw ∧
      readRaw? printedRaw = some p.bytes := by
  have hlen := (assembled_of_assemble hp).2.length_bytes_le
  refine ⟨fun e he => Entry.printedAs_text (hlen e he), ?_, ?_⟩
  · intro source' origin' q hq e he f hf
    exact Entry.text_inj (hlen e he) ((assembled_of_assemble hq).2.length_bytes_le f hf)
  · intro order order' o raw ho hraw hno hyes
    have houtcome (order) {o : Assembler.Options} (h : readHex? o.origin = some origin) :
        Assembler.outcomeOn order o (.ok source) = ⟨0, Assembler.output o p,
          if o.dumpLabels then labelLines (order p.labels) else []⟩ := by
      rw [Assembler.outcomeOn, h]
      dsimp only
      rw [hp]
    have hlisting : readListing? (linesText (Assembler.output o p)) = some p.listing := by
      rw [Assembler.output, if_neg (Bool.eq_false_iff.mp hno)]
      exact readListing?_text hlen (feed_not_mem_line hp)
    have hbytes : readRaw? (linesText (Assembler.output raw p)) = some p.bytes := by
      rw [Assembler.output, if_pos hyes]
      exact readRaw?_bytesText p.bytes
    rw [houtcome order ho, houtcome order' hraw]
    refine ⟨rfl, rfl, hlisting, ?_, hbytes⟩
    rw [hlisting, hbytes]
    rfl

/-- a source with a line that looks like bytes -/
def digitsSource : Text := "mov ax,1\nEB: JMP eb ; 90 90".toList

def digitsProgram : Program where
  origin := 0x1000
  instructions := [
    { opcode := [0xb8], length := 3, imm := some (.value 1), address := 0x1000, mnemonic := .mov,
      operands := [.reg (.word .ax), .imm 1], line := "mov ax,1".toList, lineNumber := 1 },
    { opcode := [0xeb], length := 2, imm := some (.value 0x1003), address := 0x1003,
      mnemonic := .branch .jmp, operands := [.label "EB".toList], line := "EB: JMP eb".toList,
      lineNumber := 2 }]
  listing := [⟨0x1000, [0xb8, 0x01, 0x00], "mov ax,1".toList⟩,
    ⟨0x1003, [0xeb, 0xfe], "EB: JMP eb".toList⟩]
  labels := [⟨"EB".toList, 0x1003, 2⟩]

example : (digitsProgram.listing.map Entry.text).map String.ofList =
    ["1000  B8 01 00    mov ax,1", "1003  EB FE       EB: JMP eb"] := by decide +kernel

theorem printed_listing_of_digits : assemble digitsSource 0x1000 = .ok digitsProgram ∧
    (∀ e ∈ digitsProgram.listing, e.PrintedAs e.text) ∧
    readRaw? (linesText (Assembler.outcomeOn id { raw := true } (.ok digitsSource)).out) =
      some [0xb8, 0x01, 0x00, 0xeb, 0xfe] := by
  have hp : assemble digitsSource 0x1000 = .ok digitsProgram := by decide +kernel
  obtain ⟨hprinted, -, hout⟩ := printed_listing hp
  have hraw := hout id id {} { raw := true } (by decide +kernel) (by decide +kernel) rfl rfl
  exact ⟨hp, hprinted, hraw.2.2.2.2⟩

end Mini8086
