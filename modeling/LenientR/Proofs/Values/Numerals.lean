import LenientR.Proofs.Scanning.Spaced

/-!
# Numerals as written

`Numeral.Written` says what a numeral is made of. The scanner takes a written numeral off a text as
a whole (`Numeral.Written.read_chars`), so no two are written alike. Each is scanned as one number,
and every number token of every source is one.
-/

namespace LenientR

-- ---------------------------------------------------------------------------
-- The parts
-- ---------------------------------------------------------------------------

structure Exponent.Written (isMark : Char → Bool) (exponent : Exponent) : Prop where
  mark : isMark exponent.mark = true
  sign : ∀ sign ∈ exponent.sign, sign = '+' ∨ sign = '-'
  nonempty : exponent.digits ≠ []
  digits : ∀ c ∈ exponent.digits, c.isDigit = true

/-- A point may stand before all of the digits or behind them, but not alone. -/
inductive Significand.Written : Significand → Prop
  | decimal {whole : List Char} {fraction : Option (List Char)}
      (nonempty : whole ++ fraction.getD [] ≠ [])
      (digits : ∀ c ∈ whole ++ fraction.getD [], c.isDigit = true) :
      Written (.decimal whole fraction)
  | hexadecimal {mark : Char} {digits : List Char} (hm : mark = 'x' ∨ mark = 'X')
      (nonempty : digits ≠ []) (hd : ∀ c ∈ digits, isHexDigit c = true) :
      Written (.hexadecimal mark digits)

structure Numeral.Written (numeral : Numeral) : Prop where
  significand : numeral.significand.Written
  exponent : ∀ exponent ∈ numeral.exponent, exponent.Written numeral.significand.isExponentMark
  suffix : ∀ c ∈ numeral.suffix, c = 'L' ∨ c = 'i'

-- ---------------------------------------------------------------------------
-- Characters
-- ---------------------------------------------------------------------------

theorem ne_of_isDigit {c other : Char} (h : c.isDigit = true) (ho : other.isDigit = false) :
    c ≠ other := by
  rintro rfl
  exact Bool.false_ne_true (ho.symm.trans h)

theorem ne_of_isHexDigit {c other : Char} (h : isHexDigit c = true)
    (ho : isHexDigit other = false) : c ≠ other := by
  rintro rfl
  exact Bool.false_ne_true (ho.symm.trans h)

theorem Significand.isExponentMark_eq_false (significand : Significand) {c : Char}
    (h : c = 'L' ∨ c = 'i') : significand.isExponentMark c = false := by
  cases significand <;> rcases h with rfl | rfl <;> rfl

theorem Significand.eq_of_isExponentMark {significand : Significand} {c : Char}
    (h : significand.isExponentMark c = true) : c = 'e' ∨ c = 'E' ∨ c = 'p' ∨ c = 'P' := by
  cases significand with
  | decimal =>
    simp only [isExponentMark, Bool.or_eq_true, decide_eq_true_eq] at h
    exact h.imp_right .inl
  | hexadecimal =>
    simp only [isExponentMark, Bool.or_eq_true, decide_eq_true_eq] at h
    exact .inr (.inr h)

-- ---------------------------------------------------------------------------
-- Reading what is written
-- ---------------------------------------------------------------------------

section
variable {test : Char → Bool} {chars rest : List Char}

theorem takeWhile_append_stop (h : ∀ c ∈ chars, test c = true)
    (hs : ∀ c ∈ rest.head?, test c = false) : (chars ++ rest).takeWhile test = chars := by
  rw [List.takeWhile_append_of_pos h]
  cases rest with
  | nil => simp
  | cons c rest => simp [hs c rfl]

theorem dropWhile_append_stop (h : ∀ c ∈ chars, test c = true)
    (hs : ∀ c ∈ rest.head?, test c = false) : (chars ++ rest).dropWhile test = rest := by
  rw [List.dropWhile_append_of_pos h]
  cases rest with
  | nil => rfl
  | cons c rest => simp [hs c rfl]

theorem takeOne?_eq_none (hs : ∀ c ∈ rest.head?, test c = false) :
    takeOne? test rest = (none, rest) := by
  cases rest with
  | nil => rfl
  | cons c rest => simp [takeOne?, hs c rfl]

theorem takeOne?_toList_append {option : Option Char} (h : ∀ c ∈ option, test c = true)
    (hs : ∀ c ∈ rest.head?, test c = false) :
    takeOne? test (option.toList ++ rest) = (option, rest) := by
  cases option with
  | none => exact takeOne?_eq_none hs
  | some c => simp [takeOne?, h c rfl]

end

theorem Exponent.Written.read?_append {isMark : Char → Bool} {exponent : Exponent}
    (h : exponent.Written isMark) {rest : List Char} (hs : ∀ c ∈ rest.head?, c.isDigit = false) :
    read? isMark (exponent.chars ++ rest) = (some exponent, rest) := by
  obtain ⟨mark, sign, digits⟩ := exponent
  obtain ⟨hm, hsign, hne, hd⟩ := h
  dsimp only at hm hsign hne hd
  have hstop : ∀ c ∈ (digits ++ rest).head?, (c = '+' || c = '-') = false := by
    intro c hc
    obtain ⟨first, more, rfl⟩ := List.exists_cons_of_ne_nil hne
    obtain rfl := Option.some.inj hc
    have hdigit := hd first List.mem_cons_self
    simp [ne_of_isDigit hdigit (show '+'.isDigit = false from rfl),
      ne_of_isDigit hdigit (show '-'.isDigit = false from rfl)]
  have htake : takeOne? isMark (mark :: (sign.toList ++ (digits ++ rest))) =
      (some mark, sign.toList ++ (digits ++ rest)) := by simp [takeOne?, hm]
  have hsigned : takeOne? (fun c => c = '+' || c = '-') (sign.toList ++ (digits ++ rest)) =
      (sign, digits ++ rest) :=
    takeOne?_toList_append (fun c hc => by simpa using hsign c hc) hstop
  unfold read?
  rw [chars, List.cons_append, List.append_assoc, htake]
  dsimp only
  rw [hsigned, takeWhile_append_stop hd hs, dropWhile_append_stop hd hs]

theorem Exponent.read?_eq_none {isMark : Char → Bool} {rest : List Char}
    (hs : ∀ c ∈ rest.head?, isMark c = false) : read? isMark rest = (none, rest) := by
  unfold read?
  rw [takeOne?_eq_none hs]

theorem Significand.read_eq_readDecimal {chars : List Char}
    (h : ∀ c ∈ chars.tail.head?, c ≠ 'x' ∧ c ≠ 'X') : read chars = readDecimal chars := by
  unfold read
  split
  · rename_i zero mark rest
    obtain ⟨hx, hX⟩ := h mark rfl
    simp [hx, hX]
  · rfl

/-- What may follow a significand in a numeral. -/
def Significand.StopsAt (significand : Significand) (c : Char) : Prop :=
  significand.isExponentMark c = true ∨ c = 'L' ∨ c = 'i'

theorem Significand.readDecimal_append {whole : List Char} {fraction : Option (List Char)}
    {rest : List Char} (hd : ∀ c ∈ whole ++ fraction.getD [], c.isDigit = true)
    (hs : ∀ c ∈ rest.head?, c.isDigit = false ∧ c ≠ '.') :
    readDecimal ((decimal whole fraction).chars ++ rest) = (decimal whole fraction, rest) := by
  have hwhole : ∀ c ∈ whole, c.isDigit = true :=
    fun c hc => hd c (List.mem_append_left _ hc)
  have hdigit : ∀ c ∈ rest.head?, c.isDigit = false := fun c hc => (hs c hc).1
  unfold readDecimal
  cases fraction with
  | none =>
    have htake : takeOne? (· = '.') rest = (none, rest) :=
      takeOne?_eq_none fun c hc => decide_eq_false (hs c hc).2
    rw [chars, takeWhile_append_stop hwhole hdigit, dropWhile_append_stop hwhole hdigit,
      readFraction?, htake]
  | some fraction =>
    have hfraction : ∀ c ∈ fraction, c.isDigit = true :=
      fun c hc => hd c (List.mem_append_right _ hc)
    have hpoint : ∀ c ∈ ('.' :: (fraction ++ rest)).head?, c.isDigit = false := by
      rintro c hc
      obtain rfl := Option.some.inj hc
      rfl
    have htake : takeOne? (· = '.') ('.' :: (fraction ++ rest)) =
        (some '.', fraction ++ rest) := rfl
    rw [chars, List.append_assoc, List.cons_append, takeWhile_append_stop hwhole hpoint,
      dropWhile_append_stop hwhole hpoint, readFraction?, htake]
    dsimp only
    rw [takeWhile_append_stop hfraction hdigit, dropWhile_append_stop hfraction hdigit]

theorem Significand.mem_chars_decimal {whole : List Char} {fraction : Option (List Char)}
    (hd : ∀ c ∈ whole ++ fraction.getD [], c.isDigit = true) :
    ∀ c ∈ (decimal whole fraction).chars, c.isDigit = true ∨ c = '.' := by
  intro c hc
  cases fraction with
  | none => exact .inl (hd c (by simpa [chars] using hc))
  | some fraction =>
    simp only [chars, List.mem_append, List.mem_cons] at hc
    rcases hc with hc | rfl | hc
    · exact .inl (hd c (List.mem_append_left _ hc))
    · exact .inr rfl
    · exact .inl (hd c (List.mem_append_right _ hc))

theorem Significand.Written.chars_ne_nil {significand : Significand} (h : significand.Written) :
    significand.chars ≠ [] := by
  cases h with
  | @decimal whole fraction nonempty digits =>
    cases fraction with
    | none => simpa [chars] using nonempty
    | some fraction => simp [chars]
  | hexadecimal => simp [chars]

/-- No decimal numeral is mistaken for a hexadecimal one: a second character is one of it, or it is
what follows. -/
theorem Significand.ne_of_mem_tail_decimal {whole : List Char} {fraction : Option (List Char)}
    (h : (decimal whole fraction).Written) {rest : List Char}
    (hs : ∀ c ∈ rest.head?, c ≠ 'x' ∧ c ≠ 'X') :
    ∀ c ∈ ((decimal whole fraction).chars ++ rest).tail.head?, c ≠ 'x' ∧ c ≠ 'X' := by
  intro c hc
  obtain ⟨first, more, he⟩ := List.exists_cons_of_ne_nil h.chars_ne_nil
  rw [he, List.cons_append, List.tail_cons] at hc
  cases more with
  | nil => exact hs c hc
  | cons second more =>
    obtain rfl := Option.some.inj hc
    cases h with
    | decimal nonempty digits =>
      cases mem_chars_decimal digits second (by simp [he]) with
      | inl hd => exact ⟨ne_of_isDigit hd rfl, ne_of_isDigit hd rfl⟩
      | inr hp => exact hp ▸ by decide

theorem Significand.Written.read_append {significand : Significand} (h : significand.Written)
    {rest : List Char} (hs : ∀ c ∈ rest.head?, significand.StopsAt c) :
    read (significand.chars ++ rest) = (significand, rest) := by
  have hwritten := h
  cases h with
  | @decimal whole fraction nonempty digits =>
    have hstop : ∀ c ∈ rest.head?, c = 'e' ∨ c = 'E' ∨ c = 'L' ∨ c = 'i' := by
      intro c hc
      simpa [StopsAt, isExponentMark, or_assoc] using hs c hc
    have hmark : ∀ c ∈ rest.head?, c ≠ 'x' ∧ c ≠ 'X' := by
      intro c hc
      rcases hstop c hc with rfl | rfl | rfl | rfl <;> decide
    rw [read_eq_readDecimal (ne_of_mem_tail_decimal hwritten hmark)]
    refine readDecimal_append digits fun c hc => ?_
    rcases hstop c hc with rfl | rfl | rfl | rfl <;> decide
  | @hexadecimal mark digits hm nonempty hd =>
    have hstop : ∀ c ∈ rest.head?, isHexDigit c = false := by
      intro c hc
      have hc : c = 'p' ∨ c = 'P' ∨ c = 'L' ∨ c = 'i' := by
        simpa [StopsAt, isExponentMark, or_assoc] using hs c hc
      rcases hc with rfl | rfl | rfl | rfl <;> decide
    have hmark : (decide ('0' = '0') && (mark = 'x' || mark = 'X')) = true := by simpa using hm
    rw [chars, List.cons_append, List.cons_append, read, if_pos hmark,
      takeWhile_append_stop hd hstop, dropWhile_append_stop hd hstop]

/-- A written numeral is read as a whole, so no two are written alike. -/
theorem Numeral.Written.read_chars {numeral : Numeral} (h : numeral.Written) :
    read numeral.chars = (numeral, []) := by
  obtain ⟨significand, exponent, suffix⟩ := numeral
  obtain ⟨hsignificand, hexponent, hsuffix⟩ := h
  dsimp only at hsignificand hexponent hsuffix
  have hlast : ∀ c ∈ suffix.toList.head?, c = 'L' ∨ c = 'i' := by
    intro c hc
    exact hsuffix c (by simpa using hc)
  have hstop : ∀ c ∈ (exponent.toList.flatMap Exponent.chars ++ suffix.toList).head?,
      significand.StopsAt c := by
    intro c hc
    cases exponent with
    | none => exact .inr (hlast c hc)
    | some exponent =>
      obtain rfl := Option.some.inj hc
      exact .inl (hexponent exponent rfl).mark
  have hread := hsignificand.read_append hstop
  have hexp : Exponent.read? significand.isExponentMark
      (exponent.toList.flatMap Exponent.chars ++ suffix.toList) = (exponent, suffix.toList) := by
    cases exponent with
    | none =>
      exact Exponent.read?_eq_none fun c hc => significand.isExponentMark_eq_false (hlast c hc)
    | some exponent =>
      have hdigit : ∀ c ∈ suffix.toList.head?, c.isDigit = false := by
        intro c hc
        rcases hlast c hc with rfl | rfl <;> rfl
      rw [Option.toList_some, List.flatMap_singleton]
      exact (hexponent exponent rfl).read?_append hdigit
  have hend : takeOne? (fun c => c = 'L' || c = 'i') suffix.toList = (suffix, []) := by
    rw [← List.append_nil suffix.toList]
    exact takeOne?_toList_append (fun c hc => by simpa using hsuffix c hc) (by simp)
  unfold read chars
  dsimp only
  rw [List.append_assoc, hread, hexp, hend]

theorem Numeral.Written.eq_of_chars {numeral other : Numeral} (h : numeral.Written)
    (ho : other.Written) (he : other.chars = numeral.chars) : other = numeral := by
  have hread := ho.read_chars
  rw [he, h.read_chars] at hread
  exact (congrArg Prod.fst hread).symm

-- ---------------------------------------------------------------------------
-- What is read is written
-- ---------------------------------------------------------------------------

theorem Exponent.written_of_read? {isMark : Char → Bool} {chars rest : List Char}
    {exponent : Exponent} (h : read? isMark chars = (some exponent, rest))
    (hne : exponent.digits ≠ []) : exponent.Written isMark := by
  unfold read? at h
  split at h
  · cases h
  · rename_i mark rest hmark
    obtain rfl := Option.some.inj (congrArg Prod.fst h)
    refine ⟨test_of_takeOne? hmark, ?_, hne, List.all_eq_true.1 List.all_takeWhile⟩
    intro sign hs
    have hsigned := test_of_takeOne? (Prod.ext hs rfl : takeOne? _ rest = (some sign, _))
    simpa using hsigned

theorem Significand.isDigit_of_readFraction? {chars : List Char} :
    ∀ c ∈ (readFraction? chars).1.getD [], c.isDigit = true := by
  intro c hc
  unfold readFraction? at hc
  split at hc
  · cases hc
  · exact List.all_eq_true.1 List.all_takeWhile c hc

theorem Significand.written_readDecimal {c : Char} {rest : List Char}
    (h : startsNumeral c rest = true) : (readDecimal (c :: rest)).1.Written := by
  refine .decimal ?_ ?_
  · by_cases hd : c.isDigit = true
    · simp [hd]
    · simp only [startsNumeral, hd, Bool.false_or, Bool.and_eq_true, decide_eq_true_eq] at h
      obtain ⟨rfl, hdigit⟩ := h
      cases rest with
      | nil => cases hdigit
      | cons digit rest =>
        have hdigit : digit.isDigit = true := hdigit
        simp [readFraction?, takeOne?, hd, hdigit]
  · intro other hm
    cases List.mem_append.1 hm with
    | inl hw => exact List.all_eq_true.1 List.all_takeWhile other hw
    | inr hf => exact isDigit_of_readFraction? other hf

theorem Significand.written_read {c : Char} {rest : List Char} (h : startsNumeral c rest = true)
    (hc : ∀ mark, (read (c :: rest)).1 ≠ .hexadecimal mark []) :
    (read (c :: rest)).1.Written := by
  unfold read at hc ⊢
  split
  · rename_i zero mark after he
    obtain ⟨rfl, rfl⟩ := List.cons.inj he
    dsimp only at hc
    split
    · rename_i hm
      rw [if_pos hm] at hc
      refine .hexadecimal ?_ ?_ (List.all_eq_true.1 List.all_takeWhile)
      · simpa using (Bool.and_eq_true_iff.1 hm).2
      · intro hnil
        exact hc mark (by rw [hnil])
    · exact written_readDecimal h
  · exact written_readDecimal h

theorem Numeral.written_read {c : Char} {rest : List Char} (h : startsNumeral c rest = true)
    (hc : (read (c :: rest)).1.isComplete = true) : (read (c :: rest)).1.Written := by
  obtain ⟨hsignificand, hexponent⟩ := Bool.and_eq_true_iff.1 hc
  refine ⟨Significand.written_read h ?_, ?_, ?_⟩
  · intro mark hm
    have hm : (read (c :: rest)).1.significand = .hexadecimal mark [] := hm
    rw [hm] at hsignificand
    cases hsignificand
  · intro exponent he
    have hall := Option.all_eq_true _ _ |>.1 hexponent exponent he
    exact Exponent.written_of_read? (Prod.ext he rfl) (by simpa using hall)
  · intro suffix hs
    have htest := test_of_takeOne? (Prod.ext hs rfl : takeOne? _ _ = (some suffix, _))
    simpa using htest

-- ---------------------------------------------------------------------------
-- Scanning
-- ---------------------------------------------------------------------------

theorem lexeme_of_startsNumeral {c : Char} {rest : List Char} (h : startsNumeral c rest = true) :
    isBlank c = false ∧ lexeme c rest = .numeral (c :: rest) := by
  have hc : c.isDigit = true ∨ c = '.' := by
    simp only [startsNumeral, Bool.or_eq_true, Bool.and_eq_true, decide_eq_true_eq] at h
    exact h.imp_right And.left
  have hne (other : Char) (hd : other.isDigit = false) (hp : other ≠ '.') : c ≠ other := by
    rintro rfl
    cases hc with
    | inl hdigit => cases hd.symm.trans hdigit
    | inr hpoint => exact hp hpoint
  have hraw : rawOpening? c rest = none := by
    unfold rawOpening?
    simp [hne 'r' rfl (by decide), hne 'R' rfl (by decide)]
  constructor
  · simp [isBlank, hne ' ' rfl (by decide), hne '\r' rfl (by decide), hne '\t' rfl (by decide),
      hne '\x0c' rfl (by decide)]
  · rw [lexeme, hraw]
    simp [plainLexeme, h, hne '\n' rfl (by decide), hne '#' rfl (by decide),
      hne '\x22' rfl (by decide), hne '\x27' rfl (by decide), hne '\x60' rfl (by decide)]

theorem Significand.Written.startsNumeral {significand : Significand} (h : significand.Written)
    (after : List Char) :
    ∃ c rest, significand.chars ++ after = c :: rest ∧ LenientR.startsNumeral c rest = true := by
  cases h with
  | @decimal whole fraction nonempty digits =>
    cases whole with
    | cons c whole =>
      have hc : c.isDigit = true := digits c (by simp)
      cases fraction <;> exact ⟨c, _, rfl, by simp [LenientR.startsNumeral, hc]⟩
    | nil =>
      obtain ⟨first, more, hf⟩ := List.exists_cons_of_ne_nil nonempty
      have hfirst : first.isDigit = true := digits first (by rw [hf]; exact List.mem_cons_self)
      cases fraction with
      | none => cases hf
      | some fraction =>
        obtain rfl : fraction = first :: more := hf
        exact ⟨'.', first :: (more ++ after), rfl, by simp [LenientR.startsNumeral, hfirst]⟩
  | hexadecimal => exact ⟨'0', _, rfl, rfl⟩

theorem Numeral.Written.isComplete {numeral : Numeral} (h : numeral.Written) :
    numeral.isComplete = true := by
  obtain ⟨significand, exponent, suffix⟩ := numeral
  obtain ⟨hsignificand, hexponent, -⟩ := h
  refine Bool.and_eq_true_iff.2 ⟨?_, Option.all_eq_true _ _ |>.2 fun exponent he => ?_⟩
  · cases hsignificand with
    | decimal => rfl
    | hexadecimal hm nonempty hd => simpa using nonempty
  · simpa using (hexponent exponent he).nonempty

theorem Numeral.Written.isSpelled {numeral : Numeral} (h : numeral.Written) :
    Token.IsSpelled ⟨.number, 0, numeral.chars⟩ := by
  obtain ⟨c, rest, hc, hs⟩ := h.significand.startsNumeral
    (numeral.exponent.toList.flatMap Exponent.chars ++ numeral.suffix.toList)
  rw [← List.append_assoc] at hc
  obtain ⟨hb, hl⟩ := lexeme_of_startsNumeral hs
  refine Token.isSpelled_of_lexeme hc hb ?_
  have hc : numeral.chars = c :: rest := hc
  rw [hl, ← hc, Lexeme.numeral, h.read_chars]
  dsimp only
  rw [if_pos h.isComplete, hc, List.length_cons]

/-- Every number of every source is written as a numeral. -/
theorem Token.IsSpelled.numeral {token : Token} (h : token.IsSpelled) (hk : token.kind = .number) :
    ∃ numeral : Numeral, numeral.Written ∧ numeral.chars = token.chars := by
  obtain ⟨c, rest, hc, _, hl⟩ := h.lexeme
  rw [hk] at hl
  obtain ⟨hs, hnumeral⟩ := lexeme_of_kind_number (congrArg Lexeme.kind hl)
  have hnumeral := hnumeral.symm.trans hl
  have hcomplete : (Numeral.read (c :: rest)).1.isComplete = true := by
    have hkind := congrArg Lexeme.kind hnumeral
    simp only [Lexeme.numeral] at hkind
    split at hkind
    · assumption
    · cases hkind
  refine ⟨_, Numeral.written_read hs hcomplete, ?_⟩
  have hsplit := Numeral.chars_append_read (c :: rest)
  have hsize : (Numeral.read (c :: rest)).1.chars.length = (c :: rest).length :=
    congrArg Lexeme.size hnumeral
  have hleft : (Numeral.read (c :: rest)).2 = [] := by
    have hlength := congrArg List.length hsplit
    rw [List.length_append] at hlength
    exact List.length_eq_zero_iff.1 (by omega)
  rw [hleft, List.append_nil] at hsplit
  rw [hsplit, hc]

end LenientR
