/-!
# Kinds of token

`Kind` names every class of lexeme, the malformed ones included, so that scanning never fails.
`describe` is the text a kind has in messages and listings.
-/

namespace LenientR

inductive Kind
  -- brackets
  | leftParen | rightParen | leftCurly | rightCurly | leftSquare | leftDoubleSquare | rightSquare
  -- separators
  | comma | semicolon
  -- operators
  | minus | plus | slash | star
  /-- Written `^` or `**`. -/
  | caret
  /-- Any text between percent signs on one line. -/
  | special
  | pipe | colon | tilde | question | bang | and | andAnd | or | orOr
  /-- Short for the word `function`. -/
  | backslash
  -- assignment
  | leftAssign | leftSuperAssign | rightAssign | rightSuperAssign | colonEqual | equal
  -- access
  | dollar | atSign | colonColon | colonColonColon
  -- comparison
  | bangEqual | equalEqual | greater | greaterEqual | less | lessEqual
  -- values
  | identifier | number | string | ellipsis
  -- reserved words
  | ifWord | elseWord | repeatWord | whileWord | functionWord | forWord | inWord | nextWord
  | breakWord | trueWord | falseWord | nullWord | naWord | infWord | nanWord
  -- layout
  | comment | endOfLine | endOfFile
  -- malformed
  | unknown
  /-- A quote that is still open where the text ends. -/
  | unterminatedString
  /-- A number without the digits its exponent or hexadecimal mark asks for. -/
  | invalidNumber
deriving DecidableEq

namespace Kind

def isReservedWord : Kind → Bool
  | ifWord | elseWord | repeatWord | whileWord | functionWord | forWord | inWord | nextWord
  | breakWord | trueWord | falseWord | nullWord | naWord | infWord | nanWord => true
  | _ => false

/-- Listings leave the length of these kinds out. -/
def hasFixedLength : Kind → Bool
  | identifier | number | string | special | naWord | comment | unknown | unterminatedString
  | invalidNumber => false
  | _ => true

def opensBracket : Kind → Bool
  | leftParen | leftCurly | leftSquare | leftDoubleSquare => true
  | _ => false

def closesBracket : Kind → Bool
  | rightParen | rightCurly | rightSquare => true
  | _ => false

def describe : Kind → String
  | leftParen => "("
  | rightParen => ")"
  | leftCurly => "\x7b"
  | rightCurly => "\x7d"
  | leftSquare => "["
  | leftDoubleSquare => "[["
  | rightSquare => "]"
  | comma => ","
  | semicolon => ";"
  | minus => "-"
  | plus => "+"
  | slash => "/"
  | star => "*"
  | caret => "^"
  | special => "Special Operator"
  | pipe => "|>"
  | colon => ":"
  | tilde => "~"
  | question => "?"
  | bang => "!"
  | and => "&"
  | andAnd => "&&"
  | or => "|"
  | orOr => "||"
  | backslash => "\\"
  | leftAssign => "<-"
  | leftSuperAssign => "<<-"
  | rightAssign => "->"
  | rightSuperAssign => "->>"
  | colonEqual => ":="
  | equal => "="
  | dollar => "$"
  | atSign => "@"
  | colonColon => "::"
  | colonColonColon => ":::"
  | bangEqual => "!="
  | equalEqual => "=="
  | greater => ">"
  | greaterEqual => ">="
  | less => "<"
  | lessEqual => "<="
  | identifier => "Identifier"
  | number => "Number"
  | string => "String"
  | ellipsis => "..."
  | ifWord => "if"
  | elseWord => "else"
  | repeatWord => "repeat"
  | whileWord => "while"
  | functionWord => "function"
  | forWord => "for"
  | inWord => "in"
  | nextWord => "next"
  | breakWord => "break"
  | trueWord => "TRUE"
  | falseWord => "FALSE"
  | nullWord => "NULL"
  | naWord => "NA"
  | infWord => "Inf"
  | nanWord => "NaN"
  | comment => "Comment"
  | endOfLine => "New Line"
  | endOfFile => "End of File"
  | unknown => "Unknown Character"
  | unterminatedString => "Unterminated String"
  | invalidNumber => "Invalid Number"

end Kind

end LenientR
