import Mini8086.CommandLine.Values
import Mini8086.Proofs.ReadBack

/-!
# The grammar of pokes

A poke is an address, a colon, and bytes in two characters each, between which blanks of ASCII do
not count.  The two characters are digits (`Pairs`), or a plus sign and a digit (`SignedPairs`), since
that is how a number of eight bits may be written; nothing else is taken for a byte.

* `readBytes_eq_ok`      the bytes of a poke, by their grammar;
* `readStoredBytes_eq`   cutting the text into pairs of characters comes to the same as cutting the
                         bytes in which it is stored, whatever characters it has;
* `poke_grammar`         whole pokes.
-/

namespace Mini8086

/-! ## pairs -/

/-- The text spells the bytes, each in two hexadecimal digits. -/
inductive Pairs : Text → List Byte → Prop
  | nil : Pairs [] []
  | cons {c d : Char} {x y : Nat} {t : Text} {bs : List Byte} (hc : hexDigit? c = some x)
      (hd : hexDigit? d = some y) (ht : Pairs t bs) :
      Pairs (c :: d :: t) (BitVec.ofNat 8 (16 * x + y) :: bs)

/-- The text spells the bytes, each in two hexadecimal digits or in a plus sign and one digit. -/
inductive SignedPairs : Text → List Byte → Prop
  | nil : SignedPairs [] []
  | digits {c d : Char} {x y : Nat} {t : Text} {bs : List Byte} (hc : hexDigit? c = some x)
      (hd : hexDigit? d = some y) (ht : SignedPairs t bs) :
      SignedPairs (c :: d :: t) (BitVec.ofNat 8 (16 * x + y) :: bs)
  | signed {d : Char} {y : Nat} {t : Text} {bs : List Byte} (hd : hexDigit? d = some y)
      (ht : SignedPairs t bs) : SignedPairs ('+' :: d :: t) (BitVec.ofNat 8 y :: bs)

theorem isHexDigit_of_hexDigit? {c : Char} {x : Nat} (h : hexDigit? c = some x) :
    isHexDigit c = true := by
  rw [isHexDigit, h]
  rfl

theorem ne_plus_of_isHexDigit {c : Char} (h : isHexDigit c = true) : c ≠ '+' := by
  rintro rfl
  exact absurd h (by decide)

section
variable {t : Text} {bs : List Byte}

/-- The pairs without a plus sign are those of digits. -/
theorem pairs_iff : Pairs t bs ↔ SignedPairs t bs ∧ '+' ∉ t := by
  constructor
  · intro h
    induction h with
    | nil => exact ⟨.nil, List.not_mem_nil⟩
    | cons hc hd _ ih =>
      refine ⟨.digits hc hd ih.1, ?_⟩
      rw [List.mem_cons, List.mem_cons, not_or, not_or]
      exact ⟨(ne_plus_of_isHexDigit (isHexDigit_of_hexDigit? hc)).symm,
        (ne_plus_of_isHexDigit (isHexDigit_of_hexDigit? hd)).symm, ih.2⟩
  · rintro ⟨h, hplus⟩
    induction h with
    | nil => exact .nil
    | digits hc hd _ ih =>
      rw [List.mem_cons, List.mem_cons, not_or, not_or] at hplus
      exact .cons hc hd (ih hplus.2.2)
    | signed => exact absurd List.mem_cons_self hplus

theorem pairsBytes?_eq_some : pairsBytes? t = some bs ↔ SignedPairs t bs := by
  constructor
  · intro h
    induction t using pairsBytes?.induct generalizing bs with
    | case1 =>
      cases h
      exact .nil
    | case2 c => cases h
    | case3 c d t ih =>
      obtain ⟨b, hb, h⟩ := Option.bind_eq_some_iff.mp h
      obtain ⟨bs, hbs, rfl⟩ := Option.map_eq_some_iff.mp h
      unfold pairByte? at hb
      split at hb
      · next hc =>
        obtain ⟨y, hy, rfl⟩ := Option.map_eq_some_iff.mp hb
        exact hc ▸ .signed hy (ih hbs)
      · obtain ⟨x, hx, hb⟩ := Option.bind_eq_some_iff.mp hb
        obtain ⟨y, hy, rfl⟩ := Option.map_eq_some_iff.mp hb
        exact .digits hx hy (ih hbs)
  · intro h
    induction h with
    | nil => rfl
    | digits hc hd _ ih =>
      rw [pairsBytes?, pairByte?, if_neg (ne_plus_of_isHexDigit (isHexDigit_of_hexDigit? hc)), hc,
        hd, ih]
      rfl
    | signed hd _ ih =>
      rw [pairsBytes?, pairByte?, if_pos rfl, hd, ih]
      rfl

theorem SignedPairs.length_eq (h : SignedPairs t bs) : t.length = 2 * bs.length := by
  induction h with
  | nil => rfl
  | digits _ _ _ ih | signed _ _ ih =>
    rw [List.length_cons, List.length_cons, List.length_cons, ih]
    omega

theorem SignedPairs.isHexDigit_or (h : SignedPairs t bs) :
    ∀ c ∈ t, isHexDigit c = true ∨ c = '+' := by
  induction h with
  | nil => exact List.forall_mem_nil _
  | digits hc hd _ ih =>
    exact List.forall_mem_cons.mpr ⟨.inl (isHexDigit_of_hexDigit? hc),
      List.forall_mem_cons.mpr ⟨.inl (isHexDigit_of_hexDigit? hd), ih⟩⟩
  | signed hd _ ih =>
    exact List.forall_mem_cons.mpr ⟨.inr rfl,
      List.forall_mem_cons.mpr ⟨.inl (isHexDigit_of_hexDigit? hd), ih⟩⟩

theorem toNat_lt_of_isHexDigit_or {c : Char} (h : isHexDigit c = true ∨ c = '+') :
    c.toNat < 128 := by
  obtain h | rfl := h
  · exact toNat_lt_of_isHexDigit h
  · decide

theorem SignedPairs.toNat_lt (h : SignedPairs t bs) : ∀ c ∈ t, c.toNat < 128 :=
  fun c hc => toNat_lt_of_isHexDigit_or (h.isHexDigit_or c hc)

end

/-! ## the bytes of a poke -/

/-- the text without blanks of ASCII -/
def dropAsciiBlanks (t : Text) : Text := t.filter fun c => !isAsciiBlank c

theorem utf8Size_of_ascii {c : Char} (h : c.toNat < 128) : c.utf8Size = 1 := by
  apply of_ascii h
  decide +kernel

theorem storedSize_of_ascii {t : Text} (h : ∀ c ∈ t, c.toNat < 128) : storedSize t = t.length := by
  induction t with
  | nil => rfl
  | cons c t ih =>
    obtain ⟨hc, ht⟩ := List.forall_mem_cons.mp h
    show c.utf8Size + storedSize t = t.length + 1
    rw [utf8Size_of_ascii hc, ih ht, Nat.add_comm]

/-- A text is read as bytes exactly if its characters but for the blanks are pairs, at least one. -/
theorem readBytes_eq_ok {t : Text} {bs : List Byte} :
    readBytes t = .ok bs ↔ bs ≠ [] ∧ SignedPairs (dropAsciiBlanks t) bs := by
  unfold readBytes
  dsimp only
  rw [← dropAsciiBlanks]
  generalize dropAsciiBlanks t = digits
  rw [← pairsBytes?_eq_some]
  constructor
  · intro h
    split at h
    · contradiction
    · next hc =>
      split at h
      · next cs hcs =>
        cases h
        refine ⟨?_, hcs⟩
        rintro rfl
        -- no bytes come from no digits
        have hlength := (pairsBytes?_eq_some.mp hcs).length_eq
        rw [List.eq_nil_of_length_eq_zero hlength] at hc
        exact hc rfl
      · contradiction
  · rintro ⟨hne, h⟩
    have hpairs := pairsBytes?_eq_some.mp h
    have hdigits : digits ≠ [] := by
      rintro rfl
      cases h
      exact hne rfl
    have heven : storedSize digits % 2 = 0 := by
      rw [storedSize_of_ascii hpairs.toNat_lt, hpairs.length_eq]
      omega
    rw [h]
    simp [hdigits, heven]

/-! ## the bytes in which a text is stored -/

/-- the bytes in which a text is stored -/
def stored (t : Text) : List UInt8 := t.flatMap String.utf8EncodeChar

/-- bytes two by two -/
def byTwos : List UInt8 → List (List UInt8)
  | [] => []
  | [a] => [[a]]
  | a :: b :: l => [a, b] :: byTwos l

/-- the text after an optional plus sign -/
def afterPlus : Text → Text
  | '+' :: t => t
  | t => t

/-- the number of eight bits that stored digits spell, after an optional plus sign -/
def storedNumber? (l : List UInt8) : Option Byte :=
  (hexValue? (afterPlus (l.map Char.ofUInt8))).bind fun n =>
    if n < 0x100 then some (BitVec.ofNat 8 n) else none

/-- the bytes of a poke, read from the bytes in which its text is stored -/
def readStoredBytes (t : Text) : Except ValueError (List Byte) :=
  let digits := (stored t).filter fun b => !isAsciiBlank (Char.ofUInt8 b)
  if digits = [] || digits.length % 2 ≠ 0 then .error (.digitCount t)
  else
    match (byTwos digits).mapM storedNumber? with
    | some bs => .ok bs
    | none => .error (.byte t)

theorem stored_cons (c : Char) (t : Text) :
    stored (c :: t) = String.utf8EncodeChar c ++ stored t := rfl

theorem utf8EncodeChar_of_ascii {c : Char} (h : c.toNat < 128) :
    (String.utf8EncodeChar c).map Char.ofUInt8 = [c] := by
  apply of_ascii h
  decide +kernel

/-- A character outside of ASCII is stored in bytes that are none of ASCII either. -/
theorem le_toNat_of_mem_utf8EncodeChar {c : Char} (h : 128 ≤ c.toNat) :
    ∀ b ∈ String.utf8EncodeChar c, 128 ≤ (Char.ofUInt8 b).toNat := by
  have hlow {n : Nat} (h1 : 128 ≤ n) (h2 : n < 256) :
      128 ≤ (Char.ofUInt8 (UInt8.ofNat n)).toNat := by
    show 128 ≤ (UInt8.ofNat n).toNat
    rw [UInt8.toNat_ofNat', Nat.mod_eq_of_lt h2]
    exact h1
  have hv : ¬ c.val.toNat ≤ 127 := Nat.not_le.mpr h
  unfold String.utf8EncodeChar
  dsimp only
  rw [if_neg hv]
  split_ifs
  all_goals
    simp only [List.forall_mem_cons, List.not_mem_nil, false_implies, implies_true, and_true]
    repeat' constructor
  all_goals exact hlow (by omega) (by omega)

theorem isAsciiBlank_of_le {c : Char} (h : 128 ≤ c.toNat) : isAsciiBlank c = false := by
  rw [Bool.eq_false_iff]
  intro hc
  simp only [isAsciiBlank, Bool.or_eq_true, beq_iff_eq] at hc
  rcases hc with (((rfl | rfl) | rfl) | rfl) | rfl <;> exact absurd h (by decide)

theorem filter_utf8EncodeChar (c : Char) :
    (String.utf8EncodeChar c).filter (fun b => !isAsciiBlank (Char.ofUInt8 b)) =
      if isAsciiBlank c then [] else String.utf8EncodeChar c := by
  by_cases hc : c.toNat < 128
  · apply of_ascii hc
    decide +kernel
  · have hle := Nat.le_of_not_lt hc
    rw [isAsciiBlank_of_le hle, if_neg Bool.false_ne_true]
    apply List.filter_eq_self.mpr
    intro b hb
    rw [isAsciiBlank_of_le (le_toNat_of_mem_utf8EncodeChar hle b hb)]
    rfl

/-- Dropping the blanks of a text drops the bytes in which they are stored, and no other byte. -/
theorem filter_stored (t : Text) :
    (stored t).filter (fun b => !isAsciiBlank (Char.ofUInt8 b)) = stored (dropAsciiBlanks t) := by
  induction t with
  | nil => rfl
  | cons c t ih =>
    unfold dropAsciiBlanks at ih ⊢
    rw [stored_cons, List.filter_append, ih, filter_utf8EncodeChar, List.filter_cons]
    cases isAsciiBlank c <;> rfl

@[simp] theorem length_stored (t : Text) : (stored t).length = storedSize t := by
  induction t with
  | nil => rfl
  | cons c t ih =>
    rw [stored_cons, List.length_append, String.length_utf8EncodeChar, ih]
    rfl

/-! ### pairs of bytes -/

theorem flatten_byTwos (l : List UInt8) : (byTwos l).flatten = l := by
  induction l using byTwos.induct with
  | case1 => rfl
  | case2 a => rfl
  | case3 a b l ih => rw [byTwos, List.flatten_cons, ih]; rfl

/-- A number is spelled in digits and plus signs only. -/
theorem isHexDigit_or_of_storedNumber? {l : List UInt8} {n : Byte} (h : storedNumber? l = some n) :
    ∀ c ∈ l.map Char.ofUInt8, isHexDigit c = true ∨ c = '+' := by
  unfold storedNumber? at h
  obtain ⟨v, hv, -⟩ := Option.bind_eq_some_iff.mp h
  generalize l.map Char.ofUInt8 = t at hv ⊢
  unfold afterPlus at hv
  split at hv
  · exact List.forall_mem_cons.mpr ⟨.inr rfl, fun c hc => .inl (isHexDigit_of_hexValue? hv c hc)⟩
  · exact fun c hc => .inl (isHexDigit_of_hexValue? hv c hc)

theorem hexDigit?_lt {c : Char} {x : Nat} (h : hexDigit? c = some x) : x < 16 := by
  have hc := toNat_lt_of_isHexDigit (isHexDigit_of_hexDigit? h)
  have hall : ∀ n < 128, ∀ x ∈ hexDigit? (Char.ofNat n), x < 16 := by decide +kernel
  rw [← Char.ofNat_toNat c] at h
  exact hall c.toNat hc x h

/-- Two bytes are the number that the characters are of which they have the numbers. -/
theorem storedNumber?_pair (a b : UInt8) :
    storedNumber? [a, b] = pairByte? (Char.ofUInt8 a) (Char.ofUInt8 b) := by
  show (hexValue? (afterPlus [Char.ofUInt8 a, Char.ofUInt8 b])).bind _ = _
  generalize Char.ofUInt8 a = c
  generalize Char.ofUInt8 b = d
  unfold pairByte?
  by_cases hc : c = '+'
  · subst hc
    show (hexValueFrom? 0 [d]).bind _ = _
    rw [if_pos rfl, hexValueFrom?_cons]
    cases hd : hexDigit? d with
    | none => rfl
    | some y =>
      have hy := hexDigit?_lt hd
      show (if 16 * 0 + y < 0x100 then some (BitVec.ofNat 8 (16 * 0 + y)) else none) = _
      rw [if_pos (by omega), Nat.mul_zero, Nat.zero_add]
      rfl
  · have hno : afterPlus [c, d] = [c, d] := by
      unfold afterPlus
      split
      · next heq => exact absurd (List.cons.inj heq).1 hc
      · rfl
    rw [if_neg hc, hno]
    show (hexValueFrom? 0 [c, d]).bind _ = _
    rw [hexValueFrom?_cons]
    cases hx : hexDigit? c with
    | none => rfl
    | some x =>
      show (hexValueFrom? (16 * 0 + x) [d]).bind _ = _
      rw [hexValueFrom?_cons]
      cases hd : hexDigit? d with
      | none => rfl
      | some y =>
        have hxlt := hexDigit?_lt hx
        have hy := hexDigit?_lt hd
        show (if 16 * (16 * 0 + x) + y < 0x100 then
          some (BitVec.ofNat 8 (16 * (16 * 0 + x) + y)) else none) = _
        rw [if_pos (by omega), Nat.mul_zero, Nat.zero_add]
        rfl

theorem exists_of_mapM_eq_some {α β : Type} {f : α → Option β} {l : List α} {r : List β}
    (h : l.mapM f = some r) : ∀ a ∈ l, ∃ b, f a = some b := by
  induction l generalizing r with
  | nil => exact List.forall_mem_nil _
  | cons a l ih =>
    rw [List.mapM_cons] at h
    obtain ⟨b, hb, h⟩ := Option.bind_eq_some_iff.mp h
    obtain ⟨bs, hbs, -⟩ := Option.bind_eq_some_iff.mp h
    exact List.forall_mem_cons.mpr ⟨⟨b, hb⟩, ih hbs⟩

/-- Where all characters are of ASCII, each is stored in one byte. -/
theorem mapM_byTwos_of_ascii {t : Text} (h : ∀ c ∈ t, c.toNat < 128) (heven : t.length % 2 = 0) :
    (byTwos (stored t)).mapM storedNumber? = pairsBytes? t := by
  induction t using pairsBytes?.induct with
  | case1 => rfl
  | case2 c => cases heven
  | case3 c d t ih =>
    obtain ⟨hc, h⟩ := List.forall_mem_cons.mp h
    obtain ⟨hd, ht⟩ := List.forall_mem_cons.mp h
    obtain ⟨a, ha, rfl⟩ := List.map_eq_singleton_iff.mp (utf8EncodeChar_of_ascii hc)
    obtain ⟨b, hb, rfl⟩ := List.map_eq_singleton_iff.mp (utf8EncodeChar_of_ascii hd)
    rw [List.length_cons, List.length_cons] at heven
    rw [stored_cons, stored_cons, ha, hb]
    show ([a, b] :: byTwos (stored t)).mapM storedNumber? = _
    rw [List.mapM_cons, storedNumber?_pair, ih ht (by omega), pairsBytes?]
    cases pairByte? (Char.ofUInt8 a) (Char.ofUInt8 b) with
    | none => rfl
    | some x => cases pairsBytes? t <;> rfl

/-- A character outside of ASCII spells no byte, and no pair of bytes with one of its own does. -/
theorem mapM_byTwos {t : Text} (heven : storedSize t % 2 = 0) :
    (byTwos (stored t)).mapM storedNumber? = pairsBytes? t := by
  by_cases h : ∀ c ∈ t, c.toNat < 128
  · rw [storedSize_of_ascii h] at heven
    exact mapM_byTwos_of_ascii h heven
  · obtain ⟨c, hc, hle⟩ : ∃ c ∈ t, 128 ≤ c.toNat := by
      by_contra hno
      refine h fun c hc => Nat.lt_of_not_le fun hle => hno ⟨c, hc, hle⟩
    have hchars : pairsBytes? t = none := by
      by_contra hsome
      obtain ⟨bs, hbs⟩ := Option.ne_none_iff_exists'.mp hsome
      exact h (pairsBytes?_eq_some.mp hbs).toNat_lt
    rw [hchars]
    by_contra hsome
    obtain ⟨bs, hbs⟩ := Option.ne_none_iff_exists'.mp hsome
    obtain ⟨b, hb⟩ := List.exists_mem_of_ne_nil _ (String.utf8EncodeChar_ne_nil (c := c))
    have hmem : b ∈ (byTwos (stored t)).flatten := by
      rw [flatten_byTwos]
      exact List.mem_flatMap.mpr ⟨c, hc, hb⟩
    obtain ⟨l, hl, hbl⟩ := List.mem_flatten.mp hmem
    obtain ⟨n, hn⟩ := exists_of_mapM_eq_some hbs l hl
    have hlt := toNat_lt_of_isHexDigit_or
      (isHexDigit_or_of_storedNumber? hn _ (List.mem_map_of_mem hbl))
    exact absurd (le_toNat_of_mem_utf8EncodeChar hle b hb) (Nat.not_le.mpr hlt)

theorem stored_eq_nil {t : Text} : stored t = [] ↔ t = [] := by
  cases t with
  | nil => exact ⟨fun _ => rfl, fun _ => rfl⟩
  | cons c t =>
    refine ⟨fun h => ?_, (nomatch ·)⟩
    exact absurd (List.append_eq_nil_iff.mp h).1 String.utf8EncodeChar_ne_nil

/-- It does not matter whether characters are put together in pairs or the bytes in which they are
stored. -/
theorem readStoredBytes_eq (t : Text) : readStoredBytes t = readBytes t := by
  unfold readStoredBytes readBytes
  dsimp only
  rw [filter_stored, length_stored, ← dropAsciiBlanks]
  generalize dropAsciiBlanks t = digits
  simp only [stored_eq_nil]
  by_cases heven : storedSize digits % 2 = 0
  · have hsame := mapM_byTwos heven
    generalize (byTwos (stored digits)).mapM storedNumber? = bytes at hsame ⊢
    subst hsame
    rfl
  · have hrefused : (digits = [] || storedSize digits % 2 ≠ 0) = true := by simp [heven]
    rw [if_pos hrefused, if_pos hrefused]

/-! ## whole pokes -/

/-- The text is an address in hexadecimal, a colon, and some bytes, which are spelled by what is
left of it without blanks of ASCII. -/
def Poke.SpelledBy (Spells : Text → List Byte → Prop) (t : Text) (p : Poke) : Prop :=
  ∃ addr rest, t = addr ++ ':' :: rest ∧ ':' ∉ addr ∧ readHex? addr = some p.address ∧
    p.bytes ≠ [] ∧ Spells (dropAsciiBlanks rest) p.bytes

/-- no plus sign and no colon stands in an address -/
theorem not_mem_of_readHex? {t : Text} {n : Nat} (h : readHex? t = some n) :
    '+' ∉ t ∧ ':' ∉ t := by
  obtain ⟨m, hm, -⟩ := Option.bind_eq_some_iff.mp h
  have hchars := Numeral.isNumeralChar_of_read? hm
  exact ⟨fun hmem => absurd (hchars '+' hmem) (by decide),
    fun hmem => absurd (hchars ':' hmem) (by decide)⟩

theorem readAddress_eq_ok {t : Text} {a : Address} :
    readAddress t = .ok a ↔ readHex? t = some a := by
  unfold readAddress
  cases readHex? t with
  | none => exact ⟨(nomatch ·), (nomatch ·)⟩
  | some b =>
    dsimp only
    rw [Except.ok.injEq, Option.some.injEq]

theorem Poke.read_eq_ok {t : Text} {p : Poke} :
    Poke.read t = .ok p ↔ p.SpelledBy SignedPairs t := by
  unfold Poke.read Poke.SpelledBy
  constructor
  · intro h
    split at h
    · contradiction
    · next addr rest hsplit =>
      obtain ⟨hcolon, rfl⟩ := splitFirst?_eq_some.mp hsplit
      obtain ⟨bs, hbs, h⟩ := bind_eq_ok.mp h
      obtain ⟨a, ha, h⟩ := bind_eq_ok.mp h
      cases h
      obtain ⟨hne, hpairs⟩ := readBytes_eq_ok.mp hbs
      exact ⟨addr, rest, rfl, hcolon, readAddress_eq_ok.mp ha, hne, hpairs⟩
  · rintro ⟨addr, rest, rfl, hcolon, ha, hne, hpairs⟩
    rw [splitFirst?_append hcolon]
    dsimp only
    rw [readBytes_eq_ok.mpr ⟨hne, hpairs⟩, readAddress_eq_ok.mpr ha]
    rfl

/-- A poke is spelled without a plus sign exactly if it is spelled in pairs of digits. -/
theorem Poke.spelledBy_pairs {t : Text} {p : Poke} :
    p.SpelledBy Pairs t ↔ p.SpelledBy SignedPairs t ∧ '+' ∉ t := by
  have hdrop (rest : Text) : '+' ∈ dropAsciiBlanks rest ↔ '+' ∈ rest := by
    unfold dropAsciiBlanks
    rw [List.mem_filter]
    exact and_iff_left (by decide)
  constructor
  · rintro ⟨addr, rest, rfl, hcolon, ha, hne, hpairs⟩
    obtain ⟨hsigned, hplus⟩ := pairs_iff.mp hpairs
    rw [hdrop] at hplus
    refine ⟨⟨addr, rest, rfl, hcolon, ha, hne, hsigned⟩, ?_⟩
    simp [(not_mem_of_readHex? ha).1, hplus]
  · rintro ⟨⟨addr, rest, rfl, hcolon, ha, hne, hsigned⟩, hplus⟩
    have hrest : '+' ∉ rest := fun h =>
      hplus (List.mem_append_right _ (List.mem_cons_of_mem _ h))
    refine ⟨addr, rest, rfl, hcolon, ha, hne, pairs_iff.mpr ⟨hsigned, ?_⟩⟩
    rwa [hdrop]

/-- A poke, read from the bytes in which the text after the colon is stored. -/
def Poke.readStored (t : Text) : Except ValueError Poke :=
  match splitFirst? ':' t with
  | none => .error (.noPoke t)
  | some (addr, bytes) => do
    let bs ← readStoredBytes bytes
    let a ← readAddress addr
    return ⟨a, bs⟩

theorem Poke.readStored_eq (t : Text) : Poke.readStored t = Poke.read t := by
  unfold Poke.readStored Poke.read
  cases splitFirst? ':' t with
  | none => rfl
  | some parts =>
    dsimp only
    rw [readStoredBytes_eq]

/-- The pokes that are accepted.  They split at the first colon into an address and a rest that,
without its blanks of ASCII, is a sequence of pairs, at least one; the bytes are those of the pairs
in order.  In a pair a plus sign may stand for the first digit; the pokes without a plus sign are
those whose pairs are of digits only.  It is the same to read the stored bytes two by two, whatever
characters a text has. -/
theorem poke_grammar (t : Text) (p : Poke) :
    (Poke.read t = .ok p ↔ p.SpelledBy SignedPairs t) ∧
    (Poke.read t = .ok p ∧ '+' ∉ t ↔ p.SpelledBy Pairs t) ∧
    Poke.readStored t = Poke.read t := by
  refine ⟨Poke.read_eq_ok, ?_, Poke.readStored_eq t⟩
  rw [Poke.read_eq_ok, Poke.spelledBy_pairs]

/-- A poke with a plus sign is accepted, and no bytes are spelled by it in pairs of digits. -/
theorem read_plus_poke :
    Poke.read "3000:+f".toList = .ok ⟨0x3000, [0x0f]⟩ ∧
    ¬ ∃ p, Poke.SpelledBy Pairs "3000:+f".toList p := by
  refine ⟨by rfl, fun ⟨p, h⟩ => ?_⟩
  exact (Poke.spelledBy_pairs.mp h).2 (by decide)

end Mini8086
