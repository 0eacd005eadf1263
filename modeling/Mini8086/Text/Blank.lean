import Mini8086.Text.Basic

/-!
# Blanks

`isBlank` is the Unicode property of white space: 25 characters, among them the line feed, the
carriage return, the next-line control U+0085 and the fixed spaces U+2000 to U+200A, but neither
the zero-width space U+200B nor the byte order mark U+FEFF.  `trim` drops blanks at both ends,
`dropBlanks` drops them everywhere, and `takeWord` cuts a text before its first blank.
-/

namespace Mini8086

/-- white space: the characters that separate words and may be dropped at the ends of a text -/
def isBlank (c : Char) : Bool :=
  let n := c.toNat
  (0x09 ≤ n && n ≤ 0x0D) || n == 0x20 || n == 0x85 || n == 0xA0 || n == 0x1680 ||
    (0x2000 ≤ n && n ≤ 0x200A) || n == 0x2028 || n == 0x2029 || n == 0x202F || n == 0x205F ||
    n == 0x3000

example : isBlank '\u0085' = true ∧ isBlank '\u2028' = true ∧ isBlank '\u200b' = false := by decide

def trimStart (t : Text) : Text := t.dropWhile isBlank
def trimEnd (t : Text) : Text := (t.reverse.dropWhile isBlank).reverse
def trim (t : Text) : Text := trimEnd (trimStart t)

/-- the text without any of its blanks -/
def dropBlanks (t : Text) : Text := t.filter fun c => !isBlank c

@[simp] theorem dropBlanks_append (s t : Text) :
    dropBlanks (s ++ t) = dropBlanks s ++ dropBlanks t := by
  simp [dropBlanks]

theorem dropBlanks_cons_of_blank {c : Char} (h : isBlank c = true) (t : Text) :
    dropBlanks (c :: t) = dropBlanks t := by
  simp [dropBlanks, h]

theorem dropBlanks_eq_self {t : Text} (h : ∀ c ∈ t, isBlank c = false) : dropBlanks t = t :=
  List.filter_eq_self.mpr fun c hc => by rw [h c hc, Bool.not_false]

theorem trimStart_append_of_blank {s : Text} (h : ∀ c ∈ s, isBlank c = true) (t : Text) :
    trimStart (s ++ t) = trimStart t :=
  List.dropWhile_append_of_pos h

theorem trimStart_cons_of_blank {c : Char} (h : isBlank c = true) (t : Text) :
    trimStart (c :: t) = trimStart t :=
  List.dropWhile_cons_of_pos h

theorem trimStart_cons_of_not_blank {c : Char} (h : isBlank c = false) (t : Text) :
    trimStart (c :: t) = c :: t :=
  List.dropWhile_cons_of_neg (Bool.eq_false_iff.mp h)

theorem trimEnd_append_of_blank {t : Text} (s : Text) (h : ∀ c ∈ t, isBlank c = true) :
    trimEnd (s ++ t) = trimEnd s := by
  rw [trimEnd, List.reverse_append, List.dropWhile_append_of_pos, trimEnd]
  exact fun c hc => h c (List.mem_reverse.mp hc)

theorem trimEnd_append_of_not_blank {c : Char} (h : isBlank c = false) (s : Text) :
    trimEnd (s ++ [c]) = s ++ [c] := by
  rw [trimEnd, List.reverse_append, List.reverse_singleton, List.singleton_append,
    List.dropWhile_cons_of_neg (Bool.eq_false_iff.mp h), List.reverse_cons, List.reverse_reverse]

theorem mem_of_mem_trimStart {c : Char} {t : Text} (h : c ∈ trimStart t) : c ∈ t :=
  (List.dropWhile_sublist isBlank).subset h

theorem mem_of_mem_trimEnd {c : Char} {t : Text} (h : c ∈ trimEnd t) : c ∈ t :=
  List.mem_reverse.mp ((List.dropWhile_sublist isBlank).subset (List.mem_reverse.mp h))

/-- What is trimmed at the end is blank. -/
theorem exists_trimEnd_append (t : Text) :
    ∃ b, (∀ c ∈ b, isBlank c = true) ∧ t = trimEnd t ++ b := by
  refine ⟨(t.reverse.takeWhile isBlank).reverse, fun c hc => ?_, ?_⟩
  · exact List.all_eq_true.mp List.all_takeWhile c (List.mem_reverse.mp hc)
  · rw [trimEnd, ← List.reverse_append, List.takeWhile_append_dropWhile, List.reverse_reverse]

/-- A text that is left when its start is trimmed does not start with a blank. -/
theorem not_blank_of_trimStart {c : Char} {s t : Text} (h : trimStart t = c :: s) :
    isBlank c = false := by
  have hhead := List.head?_dropWhile_not isBlank t
  rw [show t.dropWhile isBlank = c :: s from h] at hhead
  exact hhead

/-- A text that is left when its end is trimmed does not end with a blank. -/
theorem not_blank_of_trimEnd {c : Char} {t : Text} (h : (trimEnd t).getLast? = some c) :
    isBlank c = false := by
  have hhead := List.head?_dropWhile_not isBlank t.reverse
  rw [trimEnd, List.getLast?_reverse] at h
  rw [h] at hhead
  exact hhead

theorem trimStart_trimStart (t : Text) : trimStart (trimStart t) = trimStart t := by
  cases h : trimStart t with
  | nil => rfl
  | cons c s => rw [trimStart_cons_of_not_blank (not_blank_of_trimStart h)]

theorem trimStart_append (s t : Text) :
    trimStart (s ++ t) = if trimStart s = [] then trimStart t else trimStart s ++ t := by
  rw [trimStart, trimStart, trimStart, List.dropWhile_append]
  cases List.dropWhile isBlank s <;> rfl

/-- Nothing is trimmed across a character that is not blank. -/
theorem trimStart_append_cons {c : Char} (h : isBlank c = false) (s t : Text) :
    trimStart (s ++ c :: t) = trimStart s ++ c :: t := by
  rw [trimStart_append, trimStart_cons_of_not_blank h]
  split
  · next hs => rw [hs, List.nil_append]
  · rfl

theorem trimEnd_append_cons {c : Char} (h : isBlank c = false) (s t : Text) :
    trimEnd (s ++ c :: t) = s ++ c :: trimEnd t := by
  show (trimStart (s ++ c :: t).reverse).reverse = s ++ c :: (trimStart t.reverse).reverse
  rw [List.reverse_append, List.reverse_cons, List.append_assoc, List.singleton_append,
    trimStart_append_cons h, List.reverse_append, List.reverse_cons, List.reverse_reverse,
    List.append_assoc, List.singleton_append]

/-- A text that neither starts nor ends with a blank has nothing to trim. -/
theorem trim_eq_self {t : Text} (hs : ∀ c, t.head? = some c → isBlank c = false)
    (he : ∀ c, t.getLast? = some c → isBlank c = false) : trim t = t := by
  cases t with
  | nil => rfl
  | cons c t =>
    rw [trim, trimStart_cons_of_not_blank (hs c rfl)]
    obtain ⟨s, d, hd⟩ := (List.eq_nil_or_concat (c :: t)).resolve_left (List.cons_ne_nil c t)
    rw [List.concat_eq_append] at hd
    rw [hd]
    refine trimEnd_append_of_not_blank (he d ?_) s
    rw [hd, List.getLast?_append, List.getLast?_singleton, Option.some_or]

/-- the five blanks of ASCII: space, tab, line feed, form feed and carriage return -/
def isAsciiBlank (c : Char) : Bool :=
  c == ' ' || c == '\t' || c == '\n' || c == '\x0c' || c == '\r'

theorem isBlank_of_isAsciiBlank {c : Char} (h : isAsciiBlank c = true) : isBlank c = true := by
  simp only [isAsciiBlank, Bool.or_eq_true, beq_iff_eq] at h
  rcases h with (((h | h) | h) | h) | h <;> subst h <;> decide

/-- the text before the first blank, and the rest from that blank on -/
def takeWord (t : Text) : Text × Text :=
  (t.takeWhile fun c => !isBlank c, t.dropWhile fun c => !isBlank c)

theorem takeWord_append (t : Text) : (takeWord t).1 ++ (takeWord t).2 = t := by
  simp [takeWord]

theorem not_blank_of_mem_takeWord {x : Text} {c : Char} (h : c ∈ (takeWord x).1) :
    isBlank c = false := by
  have hall : (takeWord x).1.all (fun c => !isBlank c) = true := List.all_takeWhile
  exact (Bool.not_eq_true' _).mp (List.all_eq_true.mp hall c h)

theorem head?_takeWord {x : Text} (h : (takeWord x).2 ≠ []) :
    (takeWord x).2.head?.any isBlank = true := by
  rw [List.head?_eq_some_head h]
  exact (Bool.not_eq_false' _).mp (List.head_dropWhile_not (fun c => !isBlank c) h)

/-- Blanks behind a text are behind its first word. -/
theorem takeWord_append_of_blank (t : Text) {b : Text} (h : ∀ c ∈ b, isBlank c = true) :
    takeWord (t ++ b) = ((takeWord t).1, (takeWord t).2 ++ b) := by
  induction t with
  | nil =>
    cases b with
    | nil => rfl
    | cons c b =>
      have hc := h c List.mem_cons_self
      simp only [takeWord, List.nil_append, List.takeWhile_cons, List.dropWhile_cons, hc,
        Bool.not_true, Bool.false_eq_true, if_false, List.takeWhile_nil, List.dropWhile_nil]
  | cons c t ih =>
    have ih := Prod.mk.inj ih
    cases hc : isBlank c with
    | true =>
      simp only [takeWord, List.cons_append, List.takeWhile_cons, List.dropWhile_cons, hc,
        Bool.not_true, Bool.false_eq_true, if_false]
    | false =>
      simp only [takeWord] at ih
      simp only [takeWord, List.cons_append, List.takeWhile_cons, List.dropWhile_cons, hc,
        Bool.not_false, if_true, ih]

/-- A word ends at the blank behind it, or with the text. -/
theorem takeWord_eq {w t : Text} (hw : ∀ c ∈ w, isBlank c = false)
    (ht : ∀ c, t.head? = some c → isBlank c = true) : takeWord (w ++ t) = (w, t) := by
  have hw' : ∀ c ∈ w, (!isBlank c) = true := fun c hc => by rw [hw c hc, Bool.not_false]
  rw [takeWord, List.takeWhile_append_of_pos hw', List.dropWhile_append_of_pos hw']
  cases t with
  | nil => rw [List.takeWhile_nil, List.append_nil, List.dropWhile_nil]
  | cons c t =>
    have hc : ¬ (!isBlank c) = true := by
      rw [ht c rfl]
      exact Bool.false_ne_true
    rw [List.takeWhile_cons_of_neg (p := fun c => !isBlank c) hc, List.append_nil,
      List.dropWhile_cons_of_neg (p := fun c => !isBlank c) hc]

end Mini8086
