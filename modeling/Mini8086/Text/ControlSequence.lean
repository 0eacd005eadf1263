import Mini8086.Text.Blank

/-!
# Control sequences of terminals

A text for a terminal may hold control sequences, which are not shown: an escape character and what
belongs to it.  `shown` is what is left of a text where there is no terminal that would obey them.

* An escape sequence ends with its first character from `0` to `~`, after any number of
  intermediate ones (blank to `/`).
* After `ESC [` stand parameters and intermediate characters (blank to `?`) up to a character from
  `@` to `~`.
* After `ESC ]`, `ESC P`, `ESC X`, `ESC ^` and `ESC _` stands a string, of which nothing is shown,
  line feeds included.

An escape character starts a new sequence wherever it stands, so that an unfinished one ends there.
Tabs and line ends inside of a sequence are shown, and suspend it: it goes on only after the next
control character.
-/

namespace Mini8086

/-! ## characters -/

/-- whether the character is shown outside of all sequences: the control characters of ASCII that
are no blanks are not -/
def isShown (c : Char) : Bool := (0x20 ≤ c.toNat && c.toNat ≠ 0x7f) || isAsciiBlank c

/-- the control characters that lay a text out: the blanks of ASCII without the space -/
def isLayout (c : Char) : Bool := isAsciiBlank c && c != ' '

/-- the control characters that break off every sequence -/
def isCancel (c : Char) : Bool := c == '\x18' || c == '\x1a'

def isIntermediate (c : Char) : Bool := 0x20 ≤ c.toNat && c.toNat ≤ 0x2f
def isParameter (c : Char) : Bool := 0x30 ≤ c.toNat && c.toNat ≤ 0x3f
def isFinal (c : Char) : Bool := 0x40 ≤ c.toNat && c.toNat ≤ 0x7e

/-- Whether the character ends a string.  A single byte does that, and it does so as well where it
is one of the bytes that a longer character is stored in. -/
def endsString (c : Char) : Bool := (String.utf8EncodeChar c).contains 0x9c

/-! ## places in a text -/

/-- The places in a short sequence. -/
inductive ShortSequence where
  /-- after the escape character -/
  | escape
  /-- after an intermediate character behind it -/
  | escapeIntermediate
  /-- after `ESC [` -/
  | control
  deriving DecidableEq, Repr

/-- The places in a string. -/
inductive StringPlace where
  /-- in a command to the system -/
  | command
  /-- at the head of a control string for a device -/
  | device
  /-- among the parameters of its head -/
  | deviceParameters
  /-- among the intermediate characters of its head -/
  | deviceIntermediate
  /-- in any other string, and in that of a device after its head -/
  | body
  deriving DecidableEq, Repr

/-- The places in a text. -/
inductive TextPlace where
  | text
  | sequence (s : ShortSequence)
  /-- in text inside of a sequence -/
  | suspended (s : ShortSequence)
  | string (s : StringPlace)
  deriving DecidableEq, Repr

/-! ## one character on -/

/-- the place after a character that neither lays text out nor starts or breaks off a sequence -/
def ShortSequence.after : ShortSequence → Char → TextPlace
  | .escape, c =>
    if isIntermediate c then .sequence .escapeIntermediate
    else if c = '[' then .sequence .control
    else if c = ']' then .string .command
    else if c = 'P' then .string .device
    else if c = 'X' || c = '^' || c = '_' then .string .body
    else if isParameter c || isFinal c then .text
    else .sequence .escape
  | .escapeIntermediate, c =>
    if isParameter c || isFinal c then .text else .sequence .escapeIntermediate
  | .control, c => if isFinal c then .text else .sequence .control

/-- the place after a character that neither starts nor breaks off a sequence -/
def StringPlace.after : StringPlace → Char → TextPlace
  | .command, c => if c = '\x07' then .text else .string .command
  | .device, c =>
    if isIntermediate c then .string .deviceIntermediate
    else if isParameter c then .string .deviceParameters
    else if isFinal c then .string .body
    else .string .device
  | .deviceParameters, c =>
    if isIntermediate c then .string .deviceIntermediate
    else if isFinal c || (isParameter c && '<' ≤ c) then .string .body
    else .string .deviceParameters
  | .deviceIntermediate, c =>
    if isParameter c || isFinal c then .string .body else .string .deviceIntermediate
  | .body, c => if endsString c then .text else .string .body

/-- the place after a character -/
def TextPlace.after (p : TextPlace) (c : Char) : TextPlace :=
  if c = '\x1b' then .sequence .escape
  else if isCancel c then .text
  else
    match p with
    | .text => .text
    | .sequence s => if isLayout c then .suspended s else s.after c
    | .suspended s =>
      if !isShown c then .sequence s
      else if c.toNat < 0x80 then .suspended s
      else .text
    | .string s => s.after c

/-- whether a character at the place is shown -/
def TextPlace.shows : TextPlace → Char → Bool
  | .text, c => isShown c
  | .sequence _, c => isLayout c
  | .suspended _, c => isShown c
  | .string _, _ => false

/-! ## texts -/

/-- what is shown of a text that starts at the place -/
def shownFrom (p : TextPlace) : Text → Text
  | [] => []
  | c :: t => if p.shows c then c :: shownFrom (p.after c) t else shownFrom (p.after c) t

/-- what is shown of a text where there is no terminal -/
def shown (t : Text) : Text := shownFrom .text t

example : shown "a\x1b[1;31mb\x1b(Bc\x1b]0;d\x07e".toList = "abce".toList := by decide
example : shown "a\x1b[3\n1mb".toList = "a\n1mb".toList := by decide

/-! ## highlighted parts -/

/-- the sequences that start a highlighted part and end it -/
def boldStart : Text := "\x1b[1m".toList
def boldEnd : Text := "\x1b[0m".toList

/-- a part of a text that a terminal highlights -/
def highlighted (t : Text) : Text := boldStart ++ t ++ boldEnd

end Mini8086
