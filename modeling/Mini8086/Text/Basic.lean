/-!
# Text as a list of characters

Readers and printers work on `Text`, the list of the characters of a text, so that each of them is
a recursion on a list.

* `upper`         the ASCII letters in upper case, every other character as it is;
* `splitFirst?`   the parts before and after the first character of a kind;
* `pieces`        the parts between the characters equal to a separator (one more than there are
                  separators);
* `joined`        pieces put back together;
* `endedLines`    the lines of a text of which each has its end.
-/

namespace Mini8086

abbrev Text := List Char

/-- the text with its ASCII letters in upper case -/
def upper (t : Text) : Text := t.map Char.toUpper

@[simp] theorem upper_nil : upper [] = [] := rfl
@[simp] theorem upper_cons (c : Char) (t : Text) : upper (c :: t) = c.toUpper :: upper t := rfl

/-- the text before and the text after the first `sep`, if there is one -/
def splitFirst? (sep : Char) : Text → Option (Text × Text)
  | [] => none
  | c :: t => if c = sep then some ([], t) else (splitFirst? sep t).map fun p => (c :: p.1, p.2)

@[simp] theorem splitFirst?_cons_self (sep : Char) (t : Text) :
    splitFirst? sep (sep :: t) = some ([], t) := by
  simp [splitFirst?]
theorem splitFirst?_cons_of_ne {c sep : Char} (h : c ≠ sep) (t : Text) :
    splitFirst? sep (c :: t) = (splitFirst? sep t).map fun p => (c :: p.1, p.2) := by
  simp [splitFirst?, h]

/-- The parts are those around the first separator. -/
theorem splitFirst?_eq_some {sep : Char} {t before after : Text} :
    splitFirst? sep t = some (before, after) ↔ sep ∉ before ∧ t = before ++ sep :: after := by
  induction t generalizing before with
  | nil =>
    refine ⟨(nomatch ·), fun h => ?_⟩
    cases before <;> cases h.2
  | cons c t ih =>
    by_cases hc : c = sep
    · subst hc
      rw [splitFirst?_cons_self, Option.some.injEq, Prod.mk.injEq]
      constructor
      · rintro ⟨rfl, rfl⟩
        exact ⟨List.not_mem_nil, rfl⟩
      · rintro ⟨hno, heq⟩
        cases before with
        | nil =>
          cases heq
          exact ⟨rfl, rfl⟩
        | cons d before =>
          cases heq
          exact absurd List.mem_cons_self hno
    · rw [splitFirst?_cons_of_ne hc, Option.map_eq_some_iff]
      constructor
      · rintro ⟨⟨b, a⟩, hs, heq⟩
        cases heq
        obtain ⟨hno, rfl⟩ := ih.mp hs
        refine ⟨fun h => ?_, rfl⟩
        obtain h | h := List.mem_cons.mp h
        · exact hc h.symm
        · exact hno h
      · rintro ⟨hno, heq⟩
        cases before with
        | nil =>
          cases heq
          exact absurd rfl hc
        | cons d before =>
          cases heq
          exact ⟨(before, after), ih.mpr ⟨fun h => hno (List.mem_cons_of_mem _ h), rfl⟩, rfl⟩

theorem splitFirst?_append {sep : Char} {before : Text} (h : sep ∉ before) (after : Text) :
    splitFirst? sep (before ++ sep :: after) = some (before, after) :=
  splitFirst?_eq_some.mpr ⟨h, rfl⟩

theorem splitFirst?_eq_none {sep : Char} {t : Text} : splitFirst? sep t = none ↔ sep ∉ t := by
  constructor
  · intro h hmem
    obtain ⟨before, after, rfl, hno⟩ := List.eq_append_cons_of_mem hmem
    rw [splitFirst?_append hno] at h
    cases h
  · intro h
    cases hs : splitFirst? sep t with
    | none => rfl
    | some p =>
      obtain ⟨-, rfl⟩ := splitFirst?_eq_some.mp hs
      exact absurd (List.mem_append_right _ List.mem_cons_self) h

/-- the parts of the text between its separators, in order -/
def pieces (sep : Char) : Text → List Text
  | [] => [[]]
  | c :: t =>
    if c = sep then [] :: pieces sep t
    else match pieces sep t with
      | [] => [[c]]
      | p :: ps => (c :: p) :: ps

@[simp] theorem pieces_nil (sep : Char) : pieces sep [] = [[]] := rfl
@[simp] theorem pieces_cons_self (sep : Char) (t : Text) :
    pieces sep (sep :: t) = [] :: pieces sep t := by
  simp [pieces]

theorem pieces_ne_nil (sep : Char) (t : Text) : pieces sep t ≠ [] := by
  cases t with
  | nil => simp [pieces]
  | cons c t =>
    simp only [pieces]
    split
    · simp
    · split <;> simp

/-- A text without the separator is one piece. -/
theorem pieces_of_not_mem {sep : Char} {t : Text} (h : sep ∉ t) : pieces sep t = [t] := by
  induction t with
  | nil => rfl
  | cons c t ih =>
    rw [List.mem_cons, not_or] at h
    simp only [pieces, if_neg (Ne.symm h.1), ih h.2]

/-- A separator between two texts separates the pieces of the one from those of the other. -/
@[simp] theorem pieces_append (sep : Char) (s t : Text) :
    pieces sep (s ++ sep :: t) = pieces sep s ++ pieces sep t := by
  induction s with
  | nil => exact pieces_cons_self sep t
  | cons c s ih =>
    rw [List.cons_append]
    by_cases h : c = sep
    · subst h
      simp [ih]
    · simp only [pieces, if_neg h, ih]
      cases hp : pieces sep s with
      | nil => exact absurd hp (pieces_ne_nil sep s)
      | cons p ps => rfl

/-- Texts that each end with a separator are pieces, with an empty one behind them. -/
theorem pieces_flatMap {sep : Char} {ts : List Text} (h : ∀ t ∈ ts, sep ∉ t) :
    pieces sep (ts.flatMap fun t => t ++ [sep]) = ts ++ [[]] := by
  induction ts with
  | nil => rfl
  | cons t ts ih =>
    obtain ⟨ht, hts⟩ := List.forall_mem_cons.mp h
    rw [List.flatMap_cons, List.append_assoc, List.singleton_append, pieces_append,
      pieces_of_not_mem ht, ih hts]
    rfl

/-- No separator is left in a piece. -/
theorem not_mem_of_mem_pieces {sep : Char} {t p : Text} (h : p ∈ pieces sep t) : sep ∉ p := by
  induction t generalizing p with
  | nil =>
    rw [pieces_nil, List.mem_singleton] at h
    exact h ▸ List.not_mem_nil
  | cons c t ih =>
    by_cases hc : c = sep
    · subst hc
      rw [pieces_cons_self] at h
      obtain rfl | h := List.mem_cons.mp h
      · exact List.not_mem_nil
      · exact ih h
    · cases hp : pieces sep t with
      | nil => exact absurd hp (pieces_ne_nil sep t)
      | cons q qs =>
        simp only [pieces, if_neg hc, hp] at h
        rw [hp] at ih
        obtain rfl | h := List.mem_cons.mp h
        · rw [List.mem_cons, not_or]
          exact ⟨Ne.symm hc, ih List.mem_cons_self⟩
        · exact ih (List.mem_cons_of_mem _ h)

/-- There is one piece more than there are separators. -/
theorem length_pieces (sep : Char) (t : Text) : (pieces sep t).length = t.count sep + 1 := by
  induction t with
  | nil => rfl
  | cons c t ih =>
    by_cases h : c = sep
    · subst h
      simp [ih]
    · rw [List.count_cons_of_ne h, ← ih]
      simp only [pieces, if_neg h]
      cases hp : pieces sep t with
      | nil => exact absurd hp (pieces_ne_nil sep t)
      | cons p ps => rfl

/-- the pieces one after the other, with `sep` between neighbours -/
def joined (sep : Char) : List Text → Text
  | [] => []
  | [p] => p
  | p :: q :: ps => p ++ sep :: joined sep (q :: ps)

/-- Cutting at the separators loses nothing: joining the pieces gives the text back. -/
@[simp] theorem joined_pieces (sep : Char) (t : Text) : joined sep (pieces sep t) = t := by
  induction t with
  | nil => rfl
  | cons c t ih =>
    by_cases h : c = sep
    · subst h
      rw [pieces_cons_self]
      cases hp : pieces c t with
      | nil => exact absurd hp (pieces_ne_nil c t)
      | cons p ps =>
        rw [hp] at ih
        simp [joined, ih]
    · simp only [pieces, h, if_false]
      cases hp : pieces sep t with
      | nil => exact absurd hp (pieces_ne_nil sep t)
      | cons p ps =>
        rw [hp] at ih
        cases ps with
        | nil => simpa [joined] using ih
        | cons q qs => simpa [joined] using ih

theorem mem_of_mem_joined {sep c : Char} {ps : List Text} (h : c ∈ joined sep ps) :
    c = sep ∨ ∃ p ∈ ps, c ∈ p := by
  match ps with
  | [] => cases h
  | [p] => exact .inr ⟨p, List.mem_cons_self, h⟩
  | p :: q :: ps =>
    rw [joined] at h
    obtain h | h := List.mem_append.mp h
    · exact .inr ⟨p, List.mem_cons_self, h⟩
    · obtain h | h := List.mem_cons.mp h
      · exact .inl h
      · obtain h | ⟨r, hr, hc⟩ := mem_of_mem_joined h
        · exact .inl h
        · exact .inr ⟨r, List.mem_cons_of_mem _ hr, hc⟩

/-- Pieces without the separator are found again when they are joined. -/
theorem pieces_joined {sep : Char} {ps : List Text} (hne : ps ≠ []) (h : ∀ p ∈ ps, sep ∉ p) :
    pieces sep (joined sep ps) = ps := by
  match ps with
  | [] => exact absurd rfl hne
  | [p] => exact pieces_of_not_mem (h p List.mem_cons_self)
  | p :: q :: ps =>
    obtain ⟨hp, hps⟩ := List.forall_mem_cons.mp h
    rw [joined, pieces_append, pieces_of_not_mem hp, pieces_joined (List.cons_ne_nil q ps) hps]
    rfl

/-! ## lines -/

/-- the line without the carriage return at its end, if it has one -/
def dropReturn (line : Text) : Text :=
  if line.getLast? = some '\r' then line.dropLast else line

/-- The lines that a line feed ends, or a carriage return and a line feed.  A carriage return that
stands alone is a character of its line. -/
def endedLines (t : Text) : List Text := (pieces '\n' t).dropLast.map dropReturn

example : endedLines "a\rb\r\nc\n".toList = ["a\rb".toList, "c".toList] := by decide

end Mini8086
