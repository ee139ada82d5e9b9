/-!
# Numerals

The written form of a number: digits with an optional point, or hexadecimal digits after `0x`, then
an optional exponent and an optional suffix `L` or `i`. `read` takes the longest numeral off the
front of a text and never fails; `isComplete` says whether it has all the digits it asks for.
`chars_append_read`: nothing is lost in between.
-/

namespace LenientR

/-- An exponent as written; digits may be missing. -/
structure Exponent where
  /-- The letter it starts with, `e` or `p` in either case. -/
  mark : Char
  sign : Option Char
  digits : List Char
deriving DecidableEq

inductive Significand
  /-- The fraction is the part after the point; `1.` has an empty one. -/
  | decimal (whole : List Char) (fraction : Option (List Char))
  /-- Digits after `0x` or `0X`, whichever the mark says. -/
  | hexadecimal (mark : Char) (digits : List Char)
deriving DecidableEq

structure Numeral where
  significand : Significand
  exponent : Option Exponent
  suffix : Option Char
deriving DecidableEq

def isHexDigit (c : Char) : Bool :=
  c.isDigit || ('a' ≤ c && c ≤ 'f') || ('A' ≤ c && c ≤ 'F')

def takeOne? (test : Char → Bool) : List Char → Option Char × List Char
  | [] => (none, [])
  | c :: rest => if test c then (some c, rest) else (none, c :: rest)

theorem takeOne?_append (test : Char → Bool) (chars : List Char) :
    (takeOne? test chars).1.toList ++ (takeOne? test chars).2 = chars := by
  unfold takeOne?
  split
  · rfl
  · split <;> rfl

theorem test_of_takeOne? {test : Char → Bool} {chars rest : List Char} {c : Char}
    (h : takeOne? test chars = (some c, rest)) : test c = true := by
  unfold takeOne? at h
  split at h
  · simp at h
  · split at h
    · simp_all
    · simp at h

namespace Exponent

def chars (exponent : Exponent) : List Char :=
  exponent.mark :: (exponent.sign.toList ++ exponent.digits)

/-- An exponent starts wherever its mark does, digits or not. -/
def read? (isMark : Char → Bool) (chars : List Char) : Option Exponent × List Char :=
  match takeOne? isMark chars with
  | (none, rest) => (none, rest)
  | (some mark, rest) =>
    let signed := takeOne? (fun c => c = '+' || c = '-') rest
    (some ⟨mark, signed.1, signed.2.takeWhile Char.isDigit⟩, signed.2.dropWhile Char.isDigit)

theorem chars_append_read? (isMark : Char → Bool) (text : List Char) :
    ((read? isMark text).1.toList.flatMap chars) ++ (read? isMark text).2 = text := by
  have h := takeOne?_append isMark text
  unfold read?
  split
  · rename_i rest he
    simpa [he] using h
  · rename_i mark rest he
    rw [he] at h
    have hs := takeOne?_append (fun c => c = '+' || c = '-') rest
    simp only [Option.toList_some, List.flatMap_cons, List.flatMap_nil, List.append_nil, chars,
      List.cons_append, List.append_assoc, List.takeWhile_append_dropWhile, hs]
    exact h

end Exponent

namespace Significand

def chars : Significand → List Char
  | decimal whole none => whole
  | decimal whole (some fraction) => whole ++ '.' :: fraction
  | hexadecimal mark digits => '0' :: mark :: digits

def readFraction? (chars : List Char) : Option (List Char) × List Char :=
  match takeOne? (· = '.') chars with
  | (none, rest) => (none, rest)
  | (some _, rest) => (some (rest.takeWhile Char.isDigit), rest.dropWhile Char.isDigit)

def readDecimal (chars : List Char) : Significand × List Char :=
  let fraction := readFraction? (chars.dropWhile Char.isDigit)
  (decimal (chars.takeWhile Char.isDigit) fraction.1, fraction.2)

def read : List Char → Significand × List Char
  | zero :: mark :: rest =>
    if zero = '0' && (mark = 'x' || mark = 'X') then
      (hexadecimal mark (rest.takeWhile isHexDigit), rest.dropWhile isHexDigit)
    else readDecimal (zero :: mark :: rest)
  | chars => readDecimal chars

def isExponentMark : Significand → Char → Bool
  | decimal .., c => c = 'e' || c = 'E'
  | hexadecimal .., c => c = 'p' || c = 'P'

theorem chars_append_readDecimal (text : List Char) :
    (readDecimal text).1.chars ++ (readDecimal text).2 = text := by
  have h := takeOne?_append (· = '.') (text.dropWhile Char.isDigit)
  have hd := List.takeWhile_append_dropWhile (p := Char.isDigit) (l := text)
  unfold readDecimal readFraction?
  split
  · rename_i rest he
    rw [he] at h
    simp only [Option.toList_none, List.nil_append] at h
    simp only [chars]
    rw [h, hd]
  · rename_i point rest he
    have hp : point = '.' := of_decide_eq_true (test_of_takeOne? he)
    rw [he] at h
    simp only [Option.toList_some, List.cons_append, List.nil_append] at h
    simp only [chars, List.append_assoc, List.cons_append, List.takeWhile_append_dropWhile]
    rw [← hp, h, hd]

theorem chars_append_read (text : List Char) : (read text).1.chars ++ (read text).2 = text := by
  unfold read
  split
  · split
    · rename_i zero mark rest h
      simp only [Bool.and_eq_true, decide_eq_true_eq] at h
      simp [chars, h.1]
    · exact chars_append_readDecimal _
  · exact chars_append_readDecimal _

theorem chars_decimal_ne_nil {whole : List Char} (h : whole ≠ []) (fraction : Option (List Char)) :
    (decimal whole fraction).chars ≠ [] := by
  cases fraction <;> simp [chars, h]

theorem chars_readDecimal_ne_nil {c : Char} {rest : List Char}
    (h : c.isDigit = true ∨ c = '.') : (readDecimal (c :: rest)).1.chars ≠ [] := by
  by_cases hd : c.isDigit = true
  · exact chars_decimal_ne_nil (by simp [hd]) _
  · obtain rfl := h.resolve_left hd
    have hf : readFraction? (List.dropWhile Char.isDigit ('.' :: rest)) =
        (some (rest.takeWhile Char.isDigit), rest.dropWhile Char.isDigit) := by
      rw [List.dropWhile_cons_of_neg hd]
      rfl
    unfold readDecimal
    rw [hf]
    simp [chars]

theorem chars_read_ne_nil {c : Char} {rest : List Char} (h : c.isDigit = true ∨ c = '.') :
    (read (c :: rest)).1.chars ≠ [] := by
  unfold read
  split
  · rename_i zero mark after he
    obtain ⟨rfl, rfl⟩ := List.cons.inj he
    split
    · simp [chars]
    · exact chars_readDecimal_ne_nil h
  · exact chars_readDecimal_ne_nil h

end Significand

namespace Numeral

def chars (numeral : Numeral) : List Char :=
  numeral.significand.chars ++ numeral.exponent.toList.flatMap Exponent.chars ++
    numeral.suffix.toList

/-- The longest numeral at the front, and what follows it. -/
def read (chars : List Char) : Numeral × List Char :=
  let significand := Significand.read chars
  let exponent := Exponent.read? significand.1.isExponentMark significand.2
  let suffix := takeOne? (fun c => c = 'L' || c = 'i') exponent.2
  (⟨significand.1, exponent.1, suffix.1⟩, suffix.2)

def isComplete (numeral : Numeral) : Bool :=
  (match numeral.significand with
    | .decimal .. => true
    | .hexadecimal _ digits => !digits.isEmpty) &&
  numeral.exponent.all fun exponent => !exponent.digits.isEmpty

theorem chars_append_read (text : List Char) : (read text).1.chars ++ (read text).2 = text := by
  simp only [read, chars, List.append_assoc, takeOne?_append, Exponent.chars_append_read?,
    Significand.chars_append_read]

theorem length_chars_read_le (text : List Char) : (read text).1.chars.length ≤ text.length := by
  have h := congrArg List.length (chars_append_read text)
  simp only [List.length_append] at h
  omega

theorem chars_read_ne_nil {c : Char} {rest : List Char} (h : c.isDigit = true ∨ c = '.') :
    (read (c :: rest)).1.chars ≠ [] := by
  have hs : (Significand.read (c :: rest)).1.chars ≠ [] := Significand.chars_read_ne_nil h
  simp only [read, chars]
  simp [hs]

end Numeral

end LenientR
