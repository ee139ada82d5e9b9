import LenientR.Token.Kind

/-!
# Binding levels

How tightly operators bind, from the loosest level to the tightest. `Level.ofOperator?` is the table
for operators after an operand, `operandLevel` what their right operand has to bind by.
-/

namespace LenientR

inductive Level
  /-- `?` -/
  | help
  /-- `=` -/
  | equal
  /-- `<-`, `<<-` and `:=` -/
  | leftAssign
  /-- `->` and `->>` -/
  | rightAssign
  /-- `~` -/
  | tilde
  /-- `|` and `||` -/
  | or
  /-- `&` and `&&` -/
  | and
  /-- `!` -/
  | not
  /-- `==`, `!=`, `<`, `>`, `<=` and `>=` -/
  | comparison
  /-- `+` and `-` between two operands -/
  | term
  /-- `*` and `/` -/
  | factor
  /-- `%any%` and `|>` -/
  | special
  /-- `:` -/
  | range
  /-- `-` and `+` before an operand -/
  | sign
  /-- `^` -/
  | power
  /-- Calls, indexing, `$` and `@` -/
  | access
  /-- Literals and names -/
  | primary
deriving DecidableEq

namespace Level

def rank : Level → Nat
  | help => 0
  | equal => 1
  | leftAssign => 2
  | rightAssign => 3
  | tilde => 4
  | or => 5
  | and => 6
  | not => 7
  | comparison => 8
  | term => 9
  | factor => 10
  | special => 11
  | range => 12
  | sign => 13
  | power => 14
  | access => 15
  | primary => 16

instance : LE Level := ⟨fun a b => a.rank ≤ b.rank⟩

instance (a b : Level) : Decidable (a ≤ b) := inferInstanceAs (Decidable (a.rank ≤ b.rank))

def next : Level → Level
  | help => equal
  | equal => leftAssign
  | leftAssign => rightAssign
  | rightAssign => tilde
  | tilde => or
  | or => and
  | and => not
  | not => comparison
  | comparison => term
  | term => factor
  | factor => special
  | special => range
  | range => sign
  | sign => power
  | power => access
  | access => primary
  | primary => primary

/-- The level of a token that follows an operand and continues the expression. -/
def ofOperator? : Kind → Option Level
  | .question => some help
  | .equal => some equal
  | .leftAssign | .leftSuperAssign | .colonEqual => some leftAssign
  | .rightAssign | .rightSuperAssign => some rightAssign
  | .tilde => some tilde
  | .or | .orOr => some or
  | .and | .andAnd => some and
  | .bangEqual | .equalEqual | .greater | .greaterEqual | .less | .lessEqual => some comparison
  | .plus | .minus => some term
  | .star | .slash => some factor
  | .special | .pipe => some special
  | .colon => some range
  | .caret => some power
  | .leftParen | .leftSquare | .leftDoubleSquare | .dollar | .atSign => some access
  | _ => none

def admits (level : Level) (kind : Kind) : Bool :=
  (ofOperator? kind).any (level ≤ ·)

/-- The level of the operand of an operator before it; `none` for other tokens. -/
def ofSign? : Kind → Option Level
  | .minus | .plus => some sign
  | .bang => some not
  | .tilde => some tilde
  | .question => some help
  | _ => none

end Level

def Kind.isRightAssociative : Kind → Bool
  | .caret | .equal | .leftAssign | .leftSuperAssign | .colonEqual => true
  | _ => false

def Kind.isAssignment : Kind → Bool
  | .leftAssign | .leftSuperAssign | .rightAssign | .rightSuperAssign | .colonEqual | .equal => true
  | _ => false

/-- The right operand of a right associative operator may continue with the same level, that of any
other only with a tighter one. -/
def Level.operandLevel (level : Level) (kind : Kind) : Level :=
  if kind.isRightAssociative then level else level.next

/-- The tokens that end or separate expressions. Where one stands an expression is missing, and the
token is left to what encloses it. -/
def Kind.endsExpression : Kind → Bool
  | .rightParen | .rightCurly | .rightSquare | .comma | .semicolon | .endOfLine | .endOfFile
  | .elseWord | .inWord => true
  | _ => false

def Kind.endsStatement : Kind → Bool
  | .endOfLine | .semicolon | .endOfFile | .rightCurly | .rightParen | .rightSquare => true
  | _ => false

end LenientR
