import LenientR.Token.Basic
import LenientR.Token.Numeral
import LenientR.Token.Quoted
import LenientR.Token.Symbol
import LenientR.Token.Word

/-!
# Scanning

Cuts a text into tokens. `lexeme` says what the first characters are, for any first character that
is not blank: text that fits nothing is an `unknown` token of one character, an open quote an
`unterminatedString` that runs to the end. `tokensFrom_cons` is the equation to reason with; the
bound that `scan` counts down never cuts a text short (`scan_congr`).
-/

namespace LenientR

/-- The class of the next token, and how many characters it takes. -/
structure Lexeme where
  kind : Kind
  size : Nat
deriving DecidableEq

def isBlank (c : Char) : Bool := c = ' ' || c = '\r' || c = '\t' || c = '\x0c'

namespace Lexeme

def comment (rest : List Char) : Lexeme :=
  ⟨.comment, (rest.takeWhile (· ≠ '\n')).length + 1⟩

def quotation (kind : Kind) (quote : Char) (rest : List Char) : Lexeme :=
  match Quoted.closing? quote rest with
  | some size => ⟨kind, size + 1⟩
  | none => ⟨.unterminatedString, rest.length + 1⟩

def rawQuotation (opening : Quoted.RawOpening) (rest : List Char) : Lexeme :=
  match Quoted.through? opening.terminator (rest.drop opening.chars.length) with
  | some size => ⟨.string, opening.chars.length + size + 1⟩
  | none => ⟨.unterminatedString, rest.length + 1⟩

def numeral (chars : List Char) : Lexeme :=
  let numeral := (Numeral.read chars).1
  ⟨if numeral.isComplete then .number else .invalidNumber, numeral.chars.length⟩

def word (chars : List Char) : Lexeme :=
  let word := chars.takeWhile Word.isPart
  ⟨Word.kindOf word, word.length⟩

def special (rest : List Char) : Lexeme :=
  let inside := rest.takeWhile fun c => c ≠ '%' && c ≠ '\n'
  if rest[inside.length]? = some '%' then ⟨.special, inside.length + 2⟩ else ⟨.unknown, 1⟩

def symbol (chars : List Char) : Lexeme :=
  match Symbol.match? chars with
  | some (spelling, kind) => ⟨kind, spelling.length⟩
  | none => ⟨.unknown, 1⟩

end Lexeme

def rawOpening? (c : Char) (rest : List Char) : Option Quoted.RawOpening :=
  if c = 'r' || c = 'R' then Quoted.RawOpening.read? rest else none

def startsNumeral (c : Char) (rest : List Char) : Bool :=
  c.isDigit || (c = '.' && rest.head?.any Char.isDigit)

/-- The next token, raw quotations aside. Only a number may need a second character to tell. -/
def plainLexeme (c : Char) (rest : List Char) : Lexeme :=
  if c = '\n' then ⟨.endOfLine, 1⟩
  else if c = '#' then .comment rest
  else if c = '\x22' || c = '\x27' then .quotation .string c rest
  else if c = '\x60' then .quotation .identifier c rest
  else if startsNumeral c rest then .numeral (c :: rest)
  else if Word.isStart c then .word (c :: rest)
  else if c = '%' then .special rest
  else .symbol (c :: rest)

/-- The next token of a text that starts with a character that is not blank. -/
def lexeme (c : Char) (rest : List Char) : Lexeme :=
  match rawOpening? c rest with
  | some opening => .rawQuotation opening rest
  | none => plainLexeme c rest

def endToken (position : Nat) : Token := ⟨.endOfFile, position, []⟩

/-- The tokens of a text whose first character is at `position`, at most `bound` before the end. -/
def scan : Nat → Nat → List Char → List Token
  | 0, position, _ => [endToken position]
  | _ + 1, position, [] => [endToken position]
  | bound + 1, position, c :: rest =>
    if isBlank c then scan bound (position + c.utf8Size) rest
    else
      let found := lexeme c rest
      let chars := (c :: rest).take found.size
      ⟨found.kind, position, chars⟩ ::
        scan bound (position + Text.byteSize chars) ((c :: rest).drop found.size)

/-- The tokens of a text, comments and the end included, where the text starts at `position`. -/
def tokensFrom (position : Nat) (chars : List Char) : List Token :=
  scan chars.length position chars

def tokenise (source : String) : List Token := tokensFrom 0 source.toList

/-- A lexeme takes at least one character of a text and no more than there are. -/
def Lexeme.Fits (lexeme : Lexeme) (chars : List Char) : Prop :=
  0 < lexeme.size ∧ lexeme.size ≤ chars.length

namespace Lexeme

theorem comment_fits (c : Char) (rest : List Char) : (comment rest).Fits (c :: rest) := by
  have h := (List.takeWhile_prefix (fun x : Char => decide (x ≠ '\n')) (l := rest)).length_le
  exact ⟨Nat.succ_pos _, Nat.succ_le_succ h⟩

theorem quotation_fits (kind : Kind) (quote c : Char) (rest : List Char) :
    (quotation kind quote rest).Fits (c :: rest) := by
  unfold quotation
  split
  · rename_i size h
    exact ⟨Nat.succ_pos _, Nat.succ_le_succ (Quoted.closing?_le h).2⟩
  · exact ⟨Nat.succ_pos _, Nat.le_refl _⟩

theorem rawQuotation_fits {opening : Quoted.RawOpening} {rest : List Char}
    (h : Quoted.RawOpening.read? rest = some opening) (c : Char) :
    (rawQuotation opening rest).Fits (c :: rest) := by
  unfold rawQuotation
  split
  · rename_i size hs
    have hle := Quoted.through?_le hs
    have ho := (Quoted.RawOpening.chars_prefix_of_read? h).length_le
    rw [List.length_drop] at hle
    exact ⟨Nat.succ_pos _, by simp only [List.length_cons]; omega⟩
  · exact ⟨Nat.succ_pos _, Nat.le_refl _⟩

theorem numeral_fits {c : Char} {rest : List Char} (h : startsNumeral c rest = true) :
    (numeral (c :: rest)).Fits (c :: rest) := by
  have hc : c.isDigit = true ∨ c = '.' := by
    simp only [startsNumeral, Bool.or_eq_true, Bool.and_eq_true, decide_eq_true_eq] at h
    exact h.imp id And.left
  exact ⟨List.length_pos_iff.2 (Numeral.chars_read_ne_nil hc), Numeral.length_chars_read_le _⟩

theorem word_fits {c : Char} (h : Word.isStart c = true) (rest : List Char) :
    (word (c :: rest)).Fits (c :: rest) :=
  ⟨by simp [word, Word.isPart_of_isStart h], (List.takeWhile_prefix _).length_le⟩

theorem special_fits (c : Char) (rest : List Char) : (special rest).Fits (c :: rest) := by
  unfold special
  dsimp only
  split
  · rename_i h
    have := (List.getElem?_eq_some_iff.1 h).1
    exact ⟨Nat.succ_pos _, by simp only [List.length_cons]; omega⟩
  · exact ⟨Nat.one_pos, Nat.succ_pos _⟩

theorem symbol_fits (c : Char) (rest : List Char) : (symbol (c :: rest)).Fits (c :: rest) := by
  unfold symbol
  split
  · rename_i spelling kind h
    have hm := Symbol.match?_eq_some h
    exact ⟨List.length_pos_iff.2 hm.2.2, hm.2.1.length_le⟩
  · exact ⟨Nat.one_pos, Nat.succ_pos _⟩

end Lexeme

theorem plainLexeme_fits (c : Char) (rest : List Char) : (plainLexeme c rest).Fits (c :: rest) := by
  unfold plainLexeme
  split
  · exact ⟨Nat.one_pos, Nat.succ_pos _⟩
  split
  · exact Lexeme.comment_fits c rest
  split
  · exact Lexeme.quotation_fits _ _ c rest
  split
  · exact Lexeme.quotation_fits _ _ c rest
  split
  · rename_i h
    exact Lexeme.numeral_fits h
  split
  · rename_i h
    exact Lexeme.word_fits h rest
  split
  · exact Lexeme.special_fits c rest
  · exact Lexeme.symbol_fits c rest

theorem lexeme_fits (c : Char) (rest : List Char) : (lexeme c rest).Fits (c :: rest) := by
  unfold lexeme
  split
  · rename_i opening h
    unfold rawOpening? at h
    split at h
    · exact Lexeme.rawQuotation_fits h c
    · simp at h
  · exact plainLexeme_fits c rest

theorem scan_nil (bound position : Nat) : scan bound position [] = [endToken position] := by
  cases bound <;> rfl

theorem length_drop_lexeme_le (c : Char) (rest : List Char) :
    ((c :: rest).drop (lexeme c rest).size).length ≤ rest.length := by
  have := (lexeme_fits c rest).1
  simp only [List.length_drop, List.length_cons]
  omega

/-- Bounds beyond the length of the text make no difference. -/
theorem scan_congr {a b position : Nat} {chars : List Char} (ha : chars.length ≤ a)
    (hb : chars.length ≤ b) : scan a position chars = scan b position chars := by
  induction a generalizing b position chars with
  | zero =>
    obtain rfl := List.length_eq_zero_iff.1 (Nat.le_zero.1 ha)
    rw [scan_nil, scan_nil]
  | succ a ih =>
    cases chars with
    | nil => rw [scan_nil, scan_nil]
    | cons c rest =>
      cases b with
      | zero => simp at hb
      | succ b =>
        have hra : rest.length ≤ a := Nat.le_of_succ_le_succ ha
        have hrb : rest.length ≤ b := Nat.le_of_succ_le_succ hb
        have hd := length_drop_lexeme_le c rest
        simp only [scan]
        rw [ih hra hrb, ih (Nat.le_trans hd hra) (Nat.le_trans hd hrb)]

theorem tokensFrom_nil (position : Nat) : tokensFrom position [] = [endToken position] := rfl

theorem tokensFrom_blank {c : Char} (h : isBlank c = true) (position : Nat) (rest : List Char) :
    tokensFrom position (c :: rest) = tokensFrom (position + c.utf8Size) rest := by
  simp [tokensFrom, scan, h]

theorem tokensFrom_cons {c : Char} (h : isBlank c = false) (position : Nat) (rest : List Char) :
    tokensFrom position (c :: rest) =
      ⟨(lexeme c rest).kind, position, (c :: rest).take (lexeme c rest).size⟩ ::
        tokensFrom (position + Text.byteSize ((c :: rest).take (lexeme c rest).size))
          ((c :: rest).drop (lexeme c rest).size) := by
  have hd := length_drop_lexeme_le c rest
  simp only [tokensFrom, List.length_cons, scan, h, Bool.false_eq_true, if_false]
  rw [scan_congr hd (Nat.le_refl _)]

end LenientR
