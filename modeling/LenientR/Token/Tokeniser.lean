import LenientR.Token.Numeral
import LenientR.Token.Scan

/-!
# Reading tokens off the bytes of a source

A range of a source is cut into tokens in place: the bytes of the whole source are looked at one by
one, by their offsets, and none from `stop` on. Characters are decoded only for words and where a
byte is none of ASCII.

An answer is missing (`none`) where a read would be outside the source or a cut inside a character.
Every range between characters has one, and it is what `tokensFrom` says of the text of the range
alone (`Tokeniser.extents?_eq`).
-/

namespace LenientR

/-- The class of a token and which bytes of the source it takes. -/
structure Extent where
  kind : Kind
  start : Nat
  length : Nat
deriving DecidableEq

def Token.extent (token : Token) : Extent := ⟨token.kind, token.start, token.length⟩

namespace Byte

def isBlank (byte : UInt8) : Bool :=
  byte = ' '.toUInt8 || byte = '\r'.toUInt8 || byte = '\t'.toUInt8 || byte = '\x0c'.toUInt8

def isDigit (byte : UInt8) : Bool := '0'.toUInt8 ≤ byte && byte ≤ '9'.toUInt8

def isHexDigit (byte : UInt8) : Bool :=
  isDigit byte || ('a'.toUInt8 ≤ byte && byte ≤ 'f'.toUInt8) ||
    ('A'.toUInt8 ≤ byte && byte ≤ 'F'.toUInt8)

def isLetter (byte : UInt8) : Bool :=
  ('a'.toUInt8 ≤ byte && byte ≤ 'z'.toUInt8) || ('A'.toUInt8 ≤ byte && byte ≤ 'Z'.toUInt8)

def isQuote (byte : UInt8) : Bool := byte = '\x22'.toUInt8 || byte = '\x27'.toUInt8

end Byte

structure Tokeniser where
  source : String
  stop : Nat
  stop_le : stop ≤ source.utf8ByteSize

namespace Tokeniser

/-- The spellings of punctuation in the order they are tried. -/
def arms : List (String × Kind) := [
  ("(", .leftParen), (")", .rightParen), ("\x7b", .leftCurly), ("\x7d", .rightCurly),
  ("[[", .leftDoubleSquare), ("[", .leftSquare), ("]", .rightSquare), (",", .comma),
  (";", .semicolon), ("<<-", .leftSuperAssign), ("<-", .leftAssign), ("->>", .rightSuperAssign),
  ("->", .rightAssign), (":=", .colonEqual), (":::", .colonColonColon), ("::", .colonColon),
  ("$", .dollar), ("@", .atSign), ("&&", .andAnd), ("&", .and), ("||", .orOr), ("|>", .pipe),
  ("|", .or), ("+", .plus), ("-", .minus), ("**", .caret), ("*", .star), ("/", .slash),
  ("^", .caret), (":", .colon), ("~", .tilde), ("?", .question), ("\\", .backslash),
  ("!=", .bangEqual), ("==", .equalEqual), ("<=", .lessEqual), (">=", .greaterEqual),
  ("!", .bang), ("=", .equal), ("<", .less), (">", .greater)]

variable (t : Tokeniser)

-- ---------------------------------------------------------------------------
-- Looking at bytes
-- ---------------------------------------------------------------------------

/-- The byte at an offset. There is none from `stop` on, whatever the source goes on with. -/
def byte? (position : Nat) : Option UInt8 :=
  if h : position < t.stop then
    some (t.source.getUTF8Byte ⟨position⟩ (Nat.lt_of_lt_of_le h t.stop_le))
  else none

theorem lt_stop_of_byte? {t : Tokeniser} {position : Nat} {byte : UInt8}
    (h : t.byte? position = some byte) : position < t.stop := by
  unfold byte? at h
  split at h
  · assumption
  · simp at h

def has (position : Nat) (c : Char) : Bool := t.byte? position = some c.toUInt8

def hasAll : List UInt8 → Nat → Bool
  | [], _ => true
  | byte :: rest, position => t.byte? position = some byte && hasAll rest (position + 1)

def countWhile (position : Nat) (test : UInt8 → Bool) : Nat :=
  ((List.range' position (t.stop - position)).takeWhile fun i => (t.byte? i).any test).length

/-- The first character from an offset on, if there is any before `stop`. The text in between is cut
out first, which fails inside a character. -/
def character? (position : Nat) : Option (Option Char) :=
  if position < t.stop then
    ((t.source.toUTF8.extract position t.stop).utf8DecodeChar? 0).map some
  else some none

theorem lt_stop_of_character? {t : Tokeniser} {position : Nat} {c : Char}
    (h : t.character? position = some (some c)) : position < t.stop := by
  unfold character? at h
  split at h
  · assumption
  · simp at h

-- ---------------------------------------------------------------------------
-- One token
-- ---------------------------------------------------------------------------

def closing? (quote : UInt8) (position : Nat) : Option Nat :=
  match h : t.byte? position with
  | none => none
  | some byte =>
    if byte = '\\'.toUInt8 then closing? quote (position + 2)
    else if byte = quote then some position
    else closing? quote (position + 1)
termination_by t.stop - position
decreasing_by all_goals have := lt_stop_of_byte? h; omega

theorem closing?_none {t : Tokeniser} {position : Nat} (h : t.byte? position = none)
    (quote : UInt8) : t.closing? quote position = none := by
  rw [closing?]
  split <;> simp_all

theorem closing?_some {t : Tokeniser} {position : Nat} {byte : UInt8}
    (h : t.byte? position = some byte) (quote : UInt8) :
    t.closing? quote position =
      if byte = '\\'.toUInt8 then t.closing? quote (position + 2)
      else if byte = quote then some position
      else t.closing? quote (position + 1) := by
  rw [closing?]
  split <;> simp_all

def quotation (kind : Kind) (quote : UInt8) (start : Nat) : Kind × Nat :=
  match t.closing? quote (start + 1) with
  | some position => (kind, position - start + 1)
  | none => (.unterminatedString, t.stop - start)

def startsRaw (start : Nat) : Bool :=
  let bracket := start + 2 + t.countWhile (start + 2) (· = '-'.toUInt8)
  (t.byte? (start + 1)).any Byte.isQuote &&
    (t.has bracket '(' || t.has bracket '[' || t.has bracket '\x7b')

/-- A raw quotation; only called where `startsRaw`, as it reads the quote and the bracket there. -/
def rawQuotation? (start : Nat) : Option (Kind × Nat) := do
  let quote ← t.byte? (start + 1)
  let dashes := t.countWhile (start + 2) (· = '-'.toUInt8)
  let bracket := start + 2 + dashes
  let opening ← t.byte? bracket
  let closing :=
    if opening = '('.toUInt8 then ')'.toUInt8
    else if opening = '['.toUInt8 then ']'.toUInt8
    else '\x7d'.toUInt8
  let terminator := closing :: (List.replicate dashes '-'.toUInt8 ++ [quote])
  match (List.range' (bracket + 1) (t.stop - (bracket + 1))).find? (t.hasAll terminator) with
  | some position => some (.string, position + terminator.length - start)
  | none => some (.unterminatedString, t.stop - start)

def exponent (isMark : UInt8 → Bool) (position : Nat) : Nat × Bool :=
  if (t.byte? position).any isMark then
    let digits :=
      if t.has (position + 1) '+' || t.has (position + 1) '-' then position + 2 else position + 1
    let count := t.countWhile digits Byte.isDigit
    (digits + count, count ≠ 0)
  else (position, true)

def hexadecimal (start : Nat) : Nat × Bool :=
  let count := t.countWhile (start + 2) Byte.isHexDigit
  let exponent := t.exponent (fun byte => byte = 'p'.toUInt8 || byte = 'P'.toUInt8)
    (start + 2 + count)
  (exponent.1, count ≠ 0 && exponent.2)

def decimal (start : Nat) : Nat × Bool :=
  let point := start + t.countWhile start Byte.isDigit
  let mark := if t.has point '.' then point + 1 + t.countWhile (point + 1) Byte.isDigit else point
  t.exponent (fun byte => byte = 'e'.toUInt8 || byte = 'E'.toUInt8) mark

/-- Where a number ends without its suffix, and whether no digits are missing. -/
def digits (start : Nat) : Nat × Bool :=
  if t.has start '0' && (t.has (start + 1) 'x' || t.has (start + 1) 'X') then t.hexadecimal start
  else t.decimal start

def number (start : Nat) : Kind × Nat :=
  let digits := t.digits start
  let stop := if t.has digits.1 'L' || t.has digits.1 'i' then digits.1 + 1 else digits.1
  (if digits.2 then .number else .invalidNumber, stop - start)

def wordEnd? (position : Nat) : Option Nat :=
  match _h : t.character? position with
  | none => none
  | some none => some position
  | some (some c) =>
    if Word.isPart c then wordEnd? (position + c.utf8Size) else some position
termination_by t.stop - position
decreasing_by have := lt_stop_of_character? _h; have := c.utf8Size_pos; omega

theorem wordEnd?_none {t : Tokeniser} {position : Nat}
    (h : t.character? position = some none) : t.wordEnd? position = some position := by
  rw [wordEnd?]
  split <;> simp_all

theorem wordEnd?_some {t : Tokeniser} {position : Nat} {c : Char}
    (h : t.character? position = some (some c)) :
    t.wordEnd? position =
      if Word.isPart c then t.wordEnd? (position + c.utf8Size) else some position := by
  rw [wordEnd?]
  split <;> simp_all

def word? (start : Nat) : Option (Kind × Nat) := do
  let stop ← t.wordEnd? start
  let word ← Text.slice? t.source.toList start stop
  pure (Word.kindOf word, stop - start)

def special (start : Nat) : Kind × Nat :=
  let count := t.countWhile (start + 1) fun byte => byte ≠ '%'.toUInt8 && byte ≠ '\n'.toUInt8
  if t.has (start + 1 + count) '%' then (.special, count + 2) else (.unknown, 1)

def foreign? (start : Nat) : Option (Kind × Nat) :=
  match t.character? start with
  | none => none
  | some none => some (.unknown, 1)
  | some (some c) => if Alphabet.isAlphabetic c then t.word? start else some (.unknown, c.utf8Size)

/-- Punctuation, the first byte given, and what no other token starts with. -/
def symbol? (byte : UInt8) (start : Nat) : Option (Kind × Nat) :=
  match arms.find? fun arm => t.hasAll (arm.1.toList.map Char.toUInt8) start with
  | some arm => some (arm.2, arm.1.toList.length)
  | none =>
    if byte = '%'.toUInt8 then some (t.special start)
    else if 0x80 ≤ byte then t.foreign? start
    else some (.unknown, 1)

/-- The class and the length of the token that starts with a byte, which is no blank. -/
def token? (byte : UInt8) (start : Nat) : Option (Kind × Nat) :=
  if byte = '\n'.toUInt8 then some (.endOfLine, 1)
  else if byte = '#'.toUInt8 then some (.comment, t.countWhile start (· ≠ '\n'.toUInt8))
  else if (byte = 'r'.toUInt8 || byte = 'R'.toUInt8) && t.startsRaw start then
    t.rawQuotation? start
  else if Byte.isQuote byte then some (t.quotation .string byte start)
  else if byte = '\x60'.toUInt8 then some (t.quotation .identifier byte start)
  else if Byte.isDigit byte then some (t.number start)
  else if byte = '.'.toUInt8 && (t.byte? (start + 1)).any Byte.isDigit then
    some (t.number start)
  else if byte = '.'.toUInt8 || Byte.isLetter byte then t.word? start
  else t.symbol? byte start

-- ---------------------------------------------------------------------------
-- All tokens
-- ---------------------------------------------------------------------------

def next? (position : Nat) : Option Extent :=
  match h : t.byte? position with
  | none => some ⟨.endOfFile, position, 0⟩
  | some byte =>
    if Byte.isBlank byte then next? (position + 1)
    else (t.token? byte position).map fun found => ⟨found.1, position, found.2⟩
termination_by t.stop - position
decreasing_by have := lt_stop_of_byte? h; omega

theorem next?_none {t : Tokeniser} {position : Nat} (h : t.byte? position = none) :
    t.next? position = some ⟨.endOfFile, position, 0⟩ := by
  rw [next?]
  split <;> simp_all

theorem next?_some {t : Tokeniser} {position : Nat} {byte : UInt8}
    (h : t.byte? position = some byte) :
    t.next? position =
      if Byte.isBlank byte then t.next? (position + 1)
      else (t.token? byte position).map fun found => ⟨found.1, position, found.2⟩ := by
  rw [next?]
  split <;> simp_all

/-- The tokens from an offset on, up to the end of the file. There must not be more of them than the
bound says. -/
def extents? : Nat → Nat → Option (List Extent)
  | 0, _ => none
  | bound + 1, position => do
    let found ← t.next? position
    if found.kind = .endOfFile then pure [found]
    else (extents? bound (found.start + found.length)).map (found :: ·)

def cut? (extent : Extent) : Option Token :=
  (Text.slice? t.source.toList extent.start (extent.start + extent.length)).map
    (⟨extent.kind, extent.start, ·⟩)

/-- What there is of a range in a source. It has to be between characters. -/
def ofRange? (source : String) (range : Span) : Option Tokeniser :=
  let within := range.cut source.utf8ByteSize
  if String.Pos.Raw.isValid source ⟨within.start⟩ && String.Pos.Raw.isValid source ⟨within.stop⟩ then
    some ⟨source, within.stop, Nat.min_le_right _ _⟩
  else none

end Tokeniser

/-- The tokens of what there is of a range, comments and the end included, by their bytes; `none` if
it is not cut between characters. -/
def extentsOfRange? (source : String) (range : Span) : Option (List Extent) := do
  let within := range.cut source.utf8ByteSize
  let t ← Tokeniser.ofRange? source range
  t.extents? (within.stop - within.start + 1) within.start

def tokeniseRange? (source : String) (range : Span) : Option (List Token) := do
  let t ← Tokeniser.ofRange? source range
  let extents ← extentsOfRange? source range
  extents.mapM t.cut?

end LenientR
