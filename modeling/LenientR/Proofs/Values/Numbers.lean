import Mathlib.Data.List.Induction
import Mathlib.Data.Nat.Digits.Defs
import LenientR.Proofs.Values.Doubles
import LenientR.Proofs.Values.Literals
import LenientR.Proofs.Values.Numerals

/-!
# Numbers as read

`LiteralValue.ofText` reads a number with no regard to how it was scanned: it takes a suffix off the
end of the text and cuts the rest at the letter of an exponent and at the point. It reads every
number token and gives the value its numeral has. The only numbers without one are hexadecimal and
too large (`numbers_readable`).
-/

namespace LenientR

-- ---------------------------------------------------------------------------
-- Digits
-- ---------------------------------------------------------------------------

def denoted (base : Nat) (digits : List Char) : Nat :=
  Nat.ofDigits base (digits.reverse.map digitValue)

theorem digitsValue_eq_denoted (base : Nat) (digits : List Char) :
    digitsValue base digits = denoted base digits := by
  induction digits using List.reverseRecOn with
  | nil => rfl
  | append_singleton digits c ih =>
    have hlast : digitsValue base (digits ++ [c]) =
        digitsValue base digits * base + digitValue c := by
      simp [digitsValue]
    rw [hlast, ih, denoted, denoted, List.reverse_append, List.reverse_singleton,
      List.singleton_append, List.map_cons, Nat.ofDigits_cons, Nat.mul_comm, Nat.add_comm]

def Exponent.denoted (exponent : Exponent) : Int :=
  let magnitude := LenientR.denoted 10 exponent.digits
  if exponent.sign = some '-' then -magnitude else magnitude

theorem Exponent.value_eq_denoted (exponent : Exponent) : exponent.value = exponent.denoted := by
  rw [value, denoted, digitsValue_eq_denoted]

/-- A hexadecimal numeral that 64 bits, or whose exponent 32 bits with a sign, cannot hold. -/
def Numeral.TooLarge (numeral : Numeral) : Prop :=
  ∃ mark digits, numeral.significand = .hexadecimal mark digits ∧
    (2 ^ 64 ≤ denoted 16 digits ∨
      ∃ exponent ∈ numeral.exponent, exponent.denoted < -2 ^ 31 ∨ 2 ^ 31 ≤ exponent.denoted)

theorem fitsExponent_iff (exponent : Int) :
    fitsExponent exponent = true ↔ -2 ^ 31 ≤ exponent ∧ exponent < 2 ^ 31 := by
  simp only [fitsExponent, Bool.and_eq_true, decide_eq_true_eq]
  omega

namespace Numeral

theorem value?_decimal (whole : List Char) (fraction : Option (List Char))
    (exponent : Option Exponent) (suffix : Option Char) :
    value? ⟨.decimal whole fraction, exponent, suffix⟩ =
      some (.ofDecimal (denoted 10 (whole ++ fraction.getD []))
        ((exponent.map Exponent.denoted).getD 0 - (fraction.getD []).length)) := by
  rw [← digitsValue_eq_denoted, ← funext Exponent.value_eq_denoted]
  rfl

theorem value?_hexadecimal (mark : Char) (digits : List Char) (exponent : Option Exponent)
    (suffix : Option Char) :
    value? ⟨.hexadecimal mark digits, exponent, suffix⟩ =
      if denoted 16 digits < 2 ^ 64 ∧ -2 ^ 31 ≤ (exponent.map Exponent.denoted).getD 0 ∧
          (exponent.map Exponent.denoted).getD 0 < 2 ^ 31 then
        some ((Double.ofNat (denoted 16 digits)).mul
          (.powerOfTwo ((exponent.map Exponent.denoted).getD 0)))
      else none := by
  unfold value?
  dsimp only
  rw [digitsValue_eq_denoted, funext Exponent.value_eq_denoted, Nat.pow_eq]
  simp only [Bool.and_eq_true, decide_eq_true_eq, fitsExponent_iff]

end Numeral

-- ---------------------------------------------------------------------------
-- Texts of numbers
-- ---------------------------------------------------------------------------

def cutAt (test : Char → Bool) (text : List Char) : List Char × Option (List Char) :=
  (text.takeWhile fun c => !test c, (text.dropWhile fun c => !test c).tail?)

def natural? (isDigit : Char → Bool) (base : Nat) (text : List Char) : Option Nat :=
  if text ≠ [] ∧ text.all isDigit then some (denoted base text) else none

def integer? : List Char → Option Int
  | '-' :: text => (natural? Char.isDigit 10 text).map fun n => -n
  | '+' :: text => (natural? Char.isDigit 10 text).map fun n => n
  | text => (natural? Char.isDigit 10 text).map fun n => n

namespace Double

/-- A point is taken out of the digits, and counted in the exponent. -/
def ofDecimalText? (text : List Char) : Option Double := do
  let (mantissa, exponent) := cutAt (fun c => c = 'e' || c = 'E') text
  let (whole, fraction) := cutAt (· = '.') mantissa
  let digits ← natural? Char.isDigit 10 (whole ++ fraction.getD [])
  let scale ← exponent.elim (some 0) integer?
  some (ofDecimal digits (scale - (fraction.getD []).length))

/-- The whole number has 64 bits and the exponent 32 with a sign. -/
def ofHexadecimalText? (text : List Char) : Option Double := do
  let (digits, exponent) := cutAt (fun c => c = 'p' || c = 'P') text
  let whole ← natural? isHexDigit 16 digits
  let scale ← exponent.elim (some 0) integer?
  if whole < 2 ^ 64 ∧ -2 ^ 31 ≤ scale ∧ scale < 2 ^ 31 then
    some ((ofNat whole).mul (powerOfTwo scale))
  else none

def ofText? : List Char → Option Double
  | '0' :: 'x' :: text | '0' :: 'X' :: text => ofHexadecimalText? text
  | text => ofDecimalText? text

end Double

/-- The value of a number with this text; it is missing if none is read. -/
def LiteralValue.ofText (text : List Char) : LiteralValue :=
  match text.getLast? with
  | some 'L' => (Double.ofText? text.dropLast).elim .missing .ofMarkedInteger
  | some 'i' => (Double.ofText? text.dropLast).elim .missing .complex
  | _ => (Double.ofText? text).elim .missing .number

section
variable {test : Char → Bool} {before : List Char}

theorem cutAt_of_forall (h : ∀ c ∈ before, test c = false) :
    cutAt test before = (before, none) := by
  have hpass : ∀ c ∈ before, (!test c) = true := fun c hc => by simp [h c hc]
  unfold cutAt
  rw [← List.append_nil before, takeWhile_append_stop hpass (by simp),
    dropWhile_append_stop hpass (by simp)]
  simp

theorem cutAt_append {c : Char} (h : ∀ c ∈ before, test c = false) (hc : test c = true)
    (behind : List Char) : cutAt test (before ++ c :: behind) = (before, some behind) := by
  have hpass : ∀ c ∈ before, (!test c) = true := fun c hc => by simp [h c hc]
  have hstop : ∀ d ∈ (c :: behind).head?, (!test d) = false := by
    intro d hd
    obtain rfl := Option.some.inj hd
    simp [hc]
  unfold cutAt
  rw [takeWhile_append_stop hpass hstop, dropWhile_append_stop hpass hstop]
  rfl

end

theorem natural?_eq_some {isDigit : Char → Bool} {text : List Char} (base : Nat) (hne : text ≠ [])
    (hd : ∀ c ∈ text, isDigit c = true) : natural? isDigit base text = some (denoted base text) :=
  if_pos ⟨hne, List.all_eq_true.2 hd⟩

theorem Exponent.Written.integer?_eq_some {isMark : Char → Bool} {exponent : Exponent}
    (h : exponent.Written isMark) :
    integer? (exponent.sign.toList ++ exponent.digits) = some exponent.denoted := by
  obtain ⟨mark, sign, digits⟩ := exponent
  obtain ⟨-, hsign, hne, hd⟩ := h
  dsimp only at hsign hne hd
  have hvalue := natural?_eq_some 10 hne hd
  cases sign with
  | some c =>
    rcases hsign c rfl with rfl | rfl
    · simp [integer?, hvalue, denoted]
    · simp [integer?, hvalue, denoted]
  | none =>
    obtain ⟨first, more, rfl⟩ := List.exists_cons_of_ne_nil hne
    have hfirst : first.isDigit = true := hd first List.mem_cons_self
    have hminus : first ≠ '-' := ne_of_isDigit hfirst rfl
    have hplus : first ≠ '+' := ne_of_isDigit hfirst rfl
    rw [Option.toList_none, List.nil_append, integer?]
    · rw [hvalue]
      simp [denoted]
    · simpa using hminus
    · simpa using hplus

-- ---------------------------------------------------------------------------
-- Cutting numerals
-- ---------------------------------------------------------------------------

def Numeral.body (numeral : Numeral) : List Char :=
  numeral.significand.chars ++ numeral.exponent.toList.flatMap Exponent.chars

section
variable {exponent? : Option Exponent}

theorem cutAt_exponent {test : Char → Bool} {before : List Char}
    (h : ∀ c ∈ before, test c = false)
    (he : ∀ exponent ∈ exponent?, test exponent.mark = true) :
    cutAt test (before ++ exponent?.toList.flatMap Exponent.chars) =
      (before, exponent?.map fun exponent => exponent.sign.toList ++ exponent.digits) := by
  cases exponent? with
  | none => simpa using cutAt_of_forall h
  | some exponent =>
    rw [Option.toList_some, List.flatMap_singleton]
    exact cutAt_append h (he exponent rfl) _

theorem elim_integer? {isMark : Char → Bool}
    (h : ∀ exponent ∈ exponent?, exponent.Written isMark) :
    (exponent?.map fun exponent => exponent.sign.toList ++ exponent.digits).elim (some 0) integer? =
      some ((exponent?.map Exponent.denoted).getD 0) := by
  cases exponent? with
  | none => rfl
  | some exponent => exact (h exponent rfl).integer?_eq_some

theorem cutAt_point {whole : List Char} {fraction : Option (List Char)}
    (hd : ∀ c ∈ whole ++ fraction.getD [], c.isDigit = true) :
    cutAt (· = '.') (Significand.decimal whole fraction).chars = (whole, fraction) := by
  have hwhole : ∀ c ∈ whole, decide (c = '.') = false := fun c hc =>
    decide_eq_false (ne_of_isDigit (hd c (List.mem_append_left _ hc)) rfl)
  cases fraction with
  | none => exact cutAt_of_forall hwhole
  | some fraction => exact cutAt_append hwhole rfl fraction

theorem Double.ofDecimalText?_append {whole : List Char} {fraction : Option (List Char)}
    (h : (Significand.decimal whole fraction).Written)
    (he : ∀ exponent ∈ exponent?,
      exponent.Written (Significand.decimal whole fraction).isExponentMark) :
    ofDecimalText? ((Significand.decimal whole fraction).chars ++
        exponent?.toList.flatMap Exponent.chars) =
      some (ofDecimal (denoted 10 (whole ++ fraction.getD []))
        ((exponent?.map Exponent.denoted).getD 0 - (fraction.getD []).length)) := by
  cases h with
  | decimal nonempty digits =>
    have hmantissa : ∀ c ∈ (Significand.decimal whole fraction).chars,
        (c = 'e' || c = 'E') = false := by
      intro c hc
      cases Significand.mem_chars_decimal digits c hc with
      | inl hd =>
        simp [ne_of_isDigit hd (show 'e'.isDigit = false from rfl),
          ne_of_isDigit hd (show 'E'.isDigit = false from rfl)]
      | inr hp => exact hp ▸ rfl
    unfold ofDecimalText?
    rw [cutAt_exponent hmantissa fun exponent hm => (he exponent hm).mark]
    dsimp only
    rw [cutAt_point digits]
    dsimp only
    rw [natural?_eq_some 10 nonempty digits, elim_integer? he]
    rfl

theorem Double.ofHexadecimalText?_append {mark : Char} {digits : List Char}
    (h : (Significand.hexadecimal mark digits).Written)
    (he : ∀ exponent ∈ exponent?,
      exponent.Written (Significand.hexadecimal mark digits).isExponentMark) :
    ofHexadecimalText? (digits ++ exponent?.toList.flatMap Exponent.chars) =
      if denoted 16 digits < 2 ^ 64 ∧ -2 ^ 31 ≤ (exponent?.map Exponent.denoted).getD 0 ∧
          (exponent?.map Exponent.denoted).getD 0 < 2 ^ 31 then
        some ((ofNat (denoted 16 digits)).mul
          (powerOfTwo ((exponent?.map Exponent.denoted).getD 0)))
      else none := by
  cases h with
  | hexadecimal hm nonempty hd =>
    have hdigits : ∀ c ∈ digits, (c = 'p' || c = 'P') = false := by
      intro c hc
      simp [ne_of_isHexDigit (hd c hc) (show isHexDigit 'p' = false from rfl),
        ne_of_isHexDigit (hd c hc) (show isHexDigit 'P' = false from rfl)]
    unfold ofHexadecimalText?
    rw [cutAt_exponent hdigits fun exponent hm => (he exponent hm).mark]
    dsimp only
    rw [natural?_eq_some 16 nonempty hd, elim_integer? he]
    rfl

end

theorem Double.ofText?_eq_ofDecimalText? {text : List Char}
    (h : ∀ c ∈ text.tail.head?, c ≠ 'x' ∧ c ≠ 'X') : ofText? text = ofDecimalText? text := by
  unfold ofText?
  split
  · exact absurd rfl (h 'x' rfl).1
  · exact absurd rfl (h 'X' rfl).2
  · rfl

theorem Numeral.Written.ofText?_body {numeral : Numeral} (h : numeral.Written) :
    Double.ofText? numeral.body = numeral.value? := by
  obtain ⟨significand, exponent, suffix⟩ := numeral
  obtain ⟨hsignificand, hexponent, -⟩ := h
  dsimp only at hsignificand hexponent
  cases significand with
  | decimal whole fraction =>
    have hmark : ∀ c ∈ (exponent.toList.flatMap Exponent.chars).head?, c ≠ 'x' ∧ c ≠ 'X' := by
      intro c hc
      cases exponent with
      | none => cases hc
      | some exponent =>
        obtain rfl := Option.some.inj hc
        have hm := (hexponent exponent rfl).mark
        refine ⟨?_, ?_⟩ <;> intro he <;> cases he ▸ hm
    rw [value?_decimal, ← Double.ofDecimalText?_append hsignificand hexponent]
    exact Double.ofText?_eq_ofDecimalText? (Significand.ne_of_mem_tail_decimal hsignificand hmark)
  | hexadecimal mark digits =>
    rw [value?_hexadecimal, ← Double.ofHexadecimalText?_append hsignificand hexponent]
    cases hsignificand with
    | hexadecimal hm nonempty hd => rcases hm with rfl | rfl <;> rfl

theorem Significand.Written.ne_suffix {significand : Significand} (h : significand.Written) :
    ∀ c ∈ significand.chars, c ≠ 'L' ∧ c ≠ 'i' := by
  intro c hc
  cases h with
  | decimal nonempty digits =>
    cases mem_chars_decimal digits c hc with
    | inl hd => exact ⟨ne_of_isDigit hd rfl, ne_of_isDigit hd rfl⟩
    | inr hp => exact hp ▸ by decide
  | hexadecimal hm nonempty hd =>
    simp only [chars, List.mem_cons] at hc
    rcases hc with rfl | rfl | hc
    · decide
    · rcases hm with rfl | rfl <;> decide
    · exact ⟨ne_of_isHexDigit (hd c hc) rfl, ne_of_isHexDigit (hd c hc) rfl⟩

theorem Exponent.Written.ne_suffix {significand : Significand} {exponent : Exponent}
    (h : exponent.Written significand.isExponentMark) :
    ∀ c ∈ exponent.chars, c ≠ 'L' ∧ c ≠ 'i' := by
  intro c hc
  simp only [chars, List.mem_cons, List.mem_append, Option.mem_toList] at hc
  rcases hc with rfl | hc | hc
  · rcases Significand.eq_of_isExponentMark h.mark with he | he | he | he <;> rw [he] <;> decide
  · rcases h.sign c hc with rfl | rfl <;> decide
  · exact ⟨ne_of_isDigit (h.digits c hc) rfl, ne_of_isDigit (h.digits c hc) rfl⟩

theorem Numeral.Written.ne_suffix {numeral : Numeral} (h : numeral.Written) :
    ∀ c ∈ numeral.body, c ≠ 'L' ∧ c ≠ 'i' := by
  intro c hc
  cases List.mem_append.1 hc with
  | inl hs => exact h.significand.ne_suffix c hs
  | inr he =>
    obtain ⟨exponent, hm, hc⟩ := List.mem_flatMap.1 he
    exact (h.exponent exponent (Option.mem_toList.1 hm)).ne_suffix c hc

theorem Numeral.Written.getLast?_chars {numeral : Numeral} (h : numeral.Written) {c : Char}
    (hc : c = 'L' ∨ c = 'i') : numeral.chars.getLast? = some c ↔ numeral.suffix = some c := by
  have hchars : numeral.chars = numeral.body ++ numeral.suffix.toList := rfl
  rw [hchars]
  cases hs : numeral.suffix with
  | some suffix => simp
  | none =>
    rw [Option.toList_none, List.append_nil]
    refine ⟨fun hl => ?_, nofun⟩
    obtain ⟨hL, hi⟩ := h.ne_suffix c (List.mem_of_getLast? hl)
    exact absurd hc (not_or.2 ⟨hL, hi⟩)

theorem Numeral.Written.ofText_chars {numeral : Numeral} (h : numeral.Written) :
    LiteralValue.ofText numeral.chars = numeral.literalValue := by
  have hbody := h.ofText?_body
  have hL := h.getLast?_chars (.inl rfl)
  have hi := h.getLast?_chars (.inr rfl)
  have hchars : numeral.chars = numeral.body ++ numeral.suffix.toList := rfl
  have hsuffix := h.suffix
  unfold LiteralValue.ofText literalValue
  cases hs : numeral.suffix with
  | some suffix =>
    rw [hs, Option.toList_some] at hchars
    have hdrop : numeral.chars.dropLast = numeral.body := by
      rw [hchars, List.dropLast_concat]
    rcases hsuffix suffix hs with rfl | rfl
    · rw [hL.2 hs, hdrop, hbody]
      cases numeral.value? <;> rfl
    · rw [hi.2 hs, hdrop, hbody]
      cases numeral.value? <;> rfl
  | none =>
    rw [hs, Option.toList_none, List.append_nil] at hchars
    split
    · rename_i hl
      cases hs.symm.trans (hL.1 hl)
    · rename_i hl
      cases hs.symm.trans (hi.1 hl)
    · rw [hchars, hbody]
      cases numeral.value? <;> rfl

-- ---------------------------------------------------------------------------
-- Kinds of values
-- ---------------------------------------------------------------------------

theorem LiteralValue.ofMarkedInteger_cases (value : Double) :
    (∃ n, n < 2 ^ 31 ∧ ofMarkedInteger value = integer n) ∨
      ofMarkedInteger value = number value := by
  unfold ofMarkedInteger
  split
  · split
    · rename_i n _ hn
      exact .inl ⟨n, Nat.lt_succ_of_le hn, rfl⟩
    · exact .inr rfl
  · exact .inr rfl

theorem Exponent.not_fits_iff (exponent? : Option Exponent) :
    ¬ (-2 ^ 31 ≤ (exponent?.map denoted).getD 0 ∧ (exponent?.map denoted).getD 0 < 2 ^ 31) ↔
      ∃ exponent ∈ exponent?, exponent.denoted < -2 ^ 31 ∨ 2 ^ 31 ≤ exponent.denoted := by
  cases exponent? with
  | none => simp
  | some exponent =>
    simp only [Option.map_some, Option.getD_some, Option.mem_some_iff, exists_eq_left']
    omega

theorem Numeral.value?_eq_none_iff (numeral : Numeral) :
    numeral.value? = none ↔ numeral.TooLarge := by
  obtain ⟨significand, exponent, suffix⟩ := numeral
  cases significand with
  | decimal whole fraction =>
    rw [value?_decimal]
    exact ⟨nofun, fun ⟨_, _, h, _⟩ => by cases h⟩
  | hexadecimal mark digits =>
    have hlarge : TooLarge ⟨.hexadecimal mark digits, exponent, suffix⟩ ↔
        2 ^ 64 ≤ denoted 16 digits ∨
          ∃ other ∈ exponent, other.denoted < -2 ^ 31 ∨ 2 ^ 31 ≤ other.denoted := by
      constructor
      · rintro ⟨_, _, he, h⟩
        cases he
        exact h
      · intro h
        exact ⟨mark, digits, rfl, h⟩
    rw [value?_hexadecimal, hlarge, ← Exponent.not_fits_iff, ← Nat.not_lt, ← not_and_or]
    simp only [ite_eq_right_iff, reduceCtorEq, imp_false]

theorem Numeral.literalValue_eq_missing_iff (numeral : Numeral) :
    numeral.literalValue = .missing ↔ numeral.value? = none := by
  unfold literalValue
  cases numeral.value? with
  | none => exact ⟨fun _ => rfl, fun _ => rfl⟩
  | some value =>
    refine ⟨fun h => ?_, nofun⟩
    dsimp only at h
    split at h
    · cases LiteralValue.ofMarkedInteger_cases value with
      | inl hn =>
        obtain ⟨n, -, hn⟩ := hn
        cases hn.symm.trans h
      | inr hn => cases hn.symm.trans h
    · cases h
    · cases h

/-- How a number token is written, in one way only, and the kinds of value it may have for that. -/
structure Token.ReadableNumber (token : Token) (numeral : Numeral) : Prop where
  written : numeral.Written
  chars : numeral.chars = token.chars
  unique : ∀ other : Numeral, other.Written → other.chars = token.chars → other = numeral
  text : LiteralValue.ofText token.chars = token.literalValue
  missing : token.literalValue = .missing ↔ numeral.TooLarge
  complex : ¬ numeral.TooLarge → token.chars.getLast? = some 'i' →
    ∃ value, token.literalValue = .complex value
  marked : ¬ numeral.TooLarge → token.chars.getLast? = some 'L' →
    (∃ n, n < 2 ^ 31 ∧ token.literalValue = .integer n) ∨
      ∃ value, token.literalValue = .number value
  plain : ¬ numeral.TooLarge → token.chars.getLast? ≠ some 'i' → token.chars.getLast? ≠ some 'L' →
    ∃ value, token.literalValue = .number value

theorem Numeral.Written.readableNumber {numeral : Numeral} (h : numeral.Written) {token : Token}
    (hk : token.kind = .number) (hc : numeral.chars = token.chars) :
    token.ReadableNumber numeral := by
  have hvalue : token.literalValue = numeral.literalValue := by
    rw [Token.literalValue, hk, ← hc, h.read_chars]
  have hmissing := numeral.literalValue_eq_missing_iff.trans numeral.value?_eq_none_iff
  have hL := h.getLast?_chars (.inl rfl)
  have hi := h.getLast?_chars (.inr rfl)
  have hsome (hn : ¬ numeral.TooLarge) : ∃ value, numeral.value? = some value :=
    Option.ne_none_iff_exists'.1 (mt numeral.value?_eq_none_iff.1 hn)
  rw [hc] at hL hi
  refine ⟨h, hc, fun other ho he => h.eq_of_chars ho (he.trans hc.symm), ?_, ?_, ?_, ?_, ?_⟩
  · rw [hvalue, ← hc, h.ofText_chars]
  · rw [hvalue]
    exact hmissing
  · intro hn hl
    obtain ⟨value, hv⟩ := hsome hn
    rw [hvalue, Numeral.literalValue, hv, hi.1 hl]
    exact ⟨value, rfl⟩
  · intro hn hl
    obtain ⟨value, hv⟩ := hsome hn
    rw [hvalue, Numeral.literalValue, hv, hL.1 hl]
    exact (LiteralValue.ofMarkedInteger_cases value).imp_right fun h => ⟨value, h⟩
  · intro hn hni hnL
    obtain ⟨value, hv⟩ := hsome hn
    rw [hvalue, Numeral.literalValue, hv]
    cases hs : numeral.suffix with
    | none => exact ⟨value, rfl⟩
    | some c =>
      rcases h.suffix c hs with rfl | rfl
      · exact absurd (hL.2 hs) hnL
      · exact absurd (hi.2 hs) hni

/-- Digits marked with an `L` stand for an integer, as long as it fits 32 bits. -/
theorem readsAs_marked {digits : List Char} (hne : digits ≠ [])
    (hd : ∀ c ∈ digits, c.isDigit = true) :
    ReadsAs .number (digits ++ ['L'])
      (.ofMarkedInteger (.ofDecimal (denoted 10 digits) 0)) := by
  let numeral : Numeral := ⟨.decimal digits none, none, some 'L'⟩
  have hwritten : numeral.Written := by
    refine ⟨.decimal (by simpa using hne) (by simpa using hd), nofun, ?_⟩
    intro c hc
    exact .inl (Option.some.inj hc).symm
  have hchars : numeral.chars = digits ++ ['L'] := by
    simp [numeral, Numeral.chars, Significand.chars]
  have hvalue : Token.literalValue ⟨.number, 0, numeral.chars⟩ =
      .ofMarkedInteger (.ofDecimal (denoted 10 digits) 0) := by
    have hread : (Numeral.read numeral.chars).1 = numeral := by rw [hwritten.read_chars]
    show (Numeral.read numeral.chars).1.literalValue = _
    rw [hread, Numeral.literalValue, Numeral.value?_decimal]
    simp [numeral]
  rw [← hchars, ← hvalue]
  exact readsAs_of_isSpelled hwritten.isSpelled (.inr rfl)

theorem LiteralValue.ofMarkedInteger_ofDecimal (n : Nat) :
    (n < 2 ^ 31 → ofMarkedInteger (.ofDecimal n 0) = .integer n) ∧
      (2 ^ 31 ≤ n → ofMarkedInteger (.ofDecimal n 0) = .number (.ofDecimal n 0)) := by
  unfold ofMarkedInteger
  constructor
  · intro hn
    rw [Double.toNat?_ofDecimal (show n < 2 ^ 53 by omega)]
    exact if_pos (Nat.le_of_lt_succ hn)
  · intro hn
    cases hm : (Double.ofDecimal n 0).toNat? with
    | none => rfl
    | some m =>
      have hlog : 31 ≤ n.log2 := (Nat.le_log2 (by omega)).2 (by omega)
      have hle : 2 ^ 31 ≤ m := Nat.le_trans (Nat.pow_le_pow_right Nat.two_pos hlog)
        (Double.two_pow_log2_le_of_toNat? (by omega) hm)
      exact if_neg (by omega)

/-- Every number token is read: its value is missing only if it is hexadecimal and too large, and is
told by the suffix otherwise. Digits with an `L` are an integer up to the largest of 32 bits. -/
theorem numbers_readable :
    (∀ (source : String), ∀ token ∈ tokenise source, token.kind = .number →
      ∃ numeral, token.ReadableNumber numeral) ∧
    ∀ (digits : List Char), digits ≠ [] → digits.all Char.isDigit = true →
      ∃ value, ReadsAs .number (digits ++ ['L']) value ∧
        (denoted 10 digits < 2 ^ 31 → value = .integer (denoted 10 digits)) ∧
        (2 ^ 31 ≤ denoted 10 digits → value = .number (.ofDecimal (denoted 10 digits) 0)) := by
  constructor
  · intro source token hm hk
    have hspelled := isSpelled_of_mem_tokensFrom hm (by rw [hk]; decide)
    obtain ⟨numeral, hwritten, hc⟩ := hspelled.numeral hk
    exact ⟨numeral, hwritten.readableNumber hk hc⟩
  · intro digits hne hd
    have hread := readsAs_marked hne (List.all_eq_true.1 hd)
    exact ⟨_, hread, LiteralValue.ofMarkedInteger_ofDecimal (denoted 10 digits)⟩

theorem numbers_readable_limits :
    (⟨.number, 2, "0x1p2147483648".toList⟩ : Token) ∈ tokenise "( 0x1p2147483648 ]" ∧
      (∃ numeral, (⟨.number, 2, "0x1p2147483648".toList⟩ : Token).ReadableNumber numeral ∧
        numeral.TooLarge) ∧
      ReadsAs .number "0002147483647L".toList (.integer 2147483647) ∧
      ReadsAs .number "2147483648L".toList (.number (.ofDecimal 2147483648 0)) := by
  have hm : (⟨.number, 2, "0x1p2147483648".toList⟩ : Token) ∈ tokenise "( 0x1p2147483648 ]" := by
    decide +kernel
  obtain ⟨numeral, hread⟩ := numbers_readable.1 _ _ hm rfl
  obtain ⟨_, hlast, hinteger, -⟩ :=
    numbers_readable.2 "0002147483647".toList (by decide) (by decide)
  obtain ⟨_, hnext, -, hnumber⟩ :=
    numbers_readable.2 "2147483648".toList (by decide) (by decide)
  refine ⟨hm, ⟨numeral, hread, hread.missing.1 (by decide +kernel)⟩, ?_, ?_⟩
  · obtain rfl := hinteger (by decide +kernel)
    exact hlast
  · obtain rfl := hnumber (by decide +kernel)
    exact hnext

end LenientR
