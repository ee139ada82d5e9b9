import LenientR.Proofs.Grammar.Trace

/-!
# The grammar

What is read without a problem, stated over the tree: `Expr.Grown level m e` holds of the tokens
before and after `e` where reading at a level, in a mode, can have `e` in hand, and `Expr.Reads` where
it stops there. The tree is its own derivation, so each rule is one case of a recursion over it.
A gap in a tree has no rule.
-/

namespace LenientR

namespace Kind

def isName (kind : Kind) : Bool := kind = .identifier || kind = .string

def isPackageOperator (kind : Kind) : Bool := kind = .colonColon || kind = .colonColonColon

def isConstant : Kind → Bool
  | .number | .trueWord | .falseWord | .nullWord | .naWord | .infWord | .nanWord => true
  | _ => false

def isBinary (kind : Kind) : Bool :=
  !kind.isAssignment && (Level.ofOperator? kind).any (· ≠ .access)

def separates (kind : Kind) : Bool := kind = .endOfLine || kind = .semicolon

end Kind

/-- A kind of operator with an operand on each side, which binds by `found`, at least `level`. -/
def Level.joins (level found : Level) (kind : Kind) : Bool :=
  ofOperator? kind = some found && level ≤ found && found ≠ .access

theorem Level.help_le (level : Level) : help ≤ level := Nat.zero_le level.rank

namespace Trace

def unlessPackage (token : Token) : Trace :=
  check fun a => token.kind.isName = true → (headKind a).isPackageOperator = false

def atValue (m : Mode) : Trace :=
  check fun a => headKind a ≠ .ellipsis ∧
    ¬((headKind a).isName = true ∧ headKind (m.settle a.tail) = .equal)

def comma (terminator : Kind) (m : Mode) : Option Token → Trace
  | some token => token.taken (· = .comma) m
  | none => check fun a =>
    headKind a ≠ .comma ∧ Reading.endsItem terminator (headKind a) = true

/-- The end of a list of items, without an empty slot in front of it if those are parameters. -/
def listEnd (role : ListRole) (terminator : Kind) (slot : Reading.Slot) : Trace :=
  check fun a => headKind a = terminator ∧ ¬(role = .parameters ∧ slot = .comma)

def toElse (m : Mode) : Trace := ⟨fun a b => m.beforeElse a = b⟩

def separators : Trace := ⟨fun a b => a.dropWhile (·.kind.separates) = b⟩

theorem separators_mul (r : Trace) (a c : List Token) :
    (separators * r) a c ↔ r (a.dropWhile (·.kind.separates)) c := by
  simp [mul_apply, separators]

def statementEnd : Trace := check fun a => (headKind a).endsStatement = true

def lastStatement (m : Mode) : Trace :=
  check fun a => headKind a = .endOfFile ∨ headKind a = .rightCurly ∧ m.inBlock = true

end Trace

open Trace

mutual
/-- What stands between the tokens where an expression starts and those where it may go on. -/
def Expr.Grown (level : Level) (m : Mode) : Expr → Trace
  | .assignment left operator right => .any fun found =>
    left.Grown level m * operator.taken (fun kind => level.joins found kind && kind.isAssignment) m *
      lines * right.Grown (found.operandLevel operator.kind) m *
      stop (found.operandLevel operator.kind)
  | .binary left operator right => .any fun found =>
    left.Grown level m * operator.taken (fun kind => level.joins found kind && !kind.isAssignment) m *
      lines * right.Grown (found.operandLevel operator.kind) m *
      stop (found.operandLevel operator.kind)
  | .block opening body (some closing) =>
    opening.taken (· = .leftCurly) m * Expr.GrownAll .block body *
      closing.taken (· = .rightCurly) m
  | .call callee opening arguments (some closing) =>
    callee.Grown level m * opening.taken (fun kind => kind = .leftParen && level ≤ .access) m *
      lines * Item.GrownAll .arguments .rightParen m.bracketed .opening arguments *
      closing.taken (· = .rightParen) m
  | .control token => token.taken (fun kind => kind = .breakWord || kind = .nextWord) m
  | .forLoop keyword (some opening) (some loopVar) (some inWord) sequence (some closing) body =>
    keyword.taken (· = .forWord) m * opening.taken (· = .leftParen) m * lines *
      loopVar.taken (· = .identifier) m.bracketed * inWord.taken (· = .inWord) m.bracketed *
      sequence.Grown .help m.bracketed * stop .help * closing.taken (· = .rightParen) m * lines *
      body.Grown .help m * stop .help
  | .function keyword (some opening) parameters (some closing) (some body) =>
    keyword.taken (fun kind => kind = .functionWord || kind = .backslash) m *
      opening.taken (· = .leftParen) m * lines *
      Item.GrownAll .parameters .rightParen m.bracketed .opening parameters *
      closing.taken (· = .rightParen) m * check (fun _ => Reading.repeatedNames parameters [] = []) *
      lines * body.Grown .help m * stop .help
  | .group opening inner (some closing) =>
    opening.taken (· = .leftParen) m * lines * inner.Grown .help m.bracketed * stop .help *
      closing.taken (· = .rightParen) m
  | .conditional keyword (some opening) condition (some closing) consequent alternative =>
    keyword.taken (· = .ifWord) m * opening.taken (· = .leftParen) m * lines *
      condition.Grown .help m.bracketed * stop .help * closing.taken (· = .rightParen) m * lines *
      consequent.Grown .help m * stop .help * Expr.GrownElse m alternative
  | .index target opening arguments [closing] =>
    target.Grown level m * opening.taken (fun kind => kind = .leftSquare && level ≤ .access) m *
      lines * Item.GrownAll .arguments .rightSquare m.bracketed .opening arguments *
      closing.taken (· = .rightSquare) m
  | .index target opening arguments [first, second] =>
    target.Grown level m *
      opening.taken (fun kind => kind = .leftDoubleSquare && level ≤ .access) m *
      lines * Item.GrownAll .arguments .rightSquare m.bracketed .opening arguments *
      first.taken (· = .rightSquare) m * second.taken (· = .rightSquare) m
  | .literal token => token.taken (fun kind => kind.isConstant || kind = .string) m *
    unlessPackage token
  | .member target operator (some name) =>
    target.Grown level m *
      operator.taken (fun kind => (kind = .dollar || kind = .atSign) && level ≤ .access) m *
      name.taken Kind.isName m
  | .namespaced package operator (some name) =>
    package.taken Kind.isName m * operator.taken Kind.isPackageOperator m *
      name.taken Kind.isName m
  | .repeatLoop keyword body =>
    keyword.taken (· = .repeatWord) m * lines * body.Grown .help m * stop .help
  | .unary operator operand => .any fun found =>
    operator.taken (fun kind => Level.ofSign? kind = some found) m * lines *
      operand.Grown found m * stop found
  | .var token => token.taken (fun kind => kind = .identifier || kind = .ellipsis) m *
    unlessPackage token
  | .whileLoop keyword (some opening) condition (some closing) body =>
    keyword.taken (· = .whileWord) m * opening.taken (· = .leftParen) m * lines *
      condition.Grown .help m.bracketed * stop .help * closing.taken (· = .rightParen) m * lines *
      body.Grown .help m * stop .help
  | _ => never
def Expr.GrownAll (m : Mode) : List Expr → Trace
  | [] => separators * lastStatement m
  | e :: rest => separators * e.Grown .help m * stop .help * statementEnd * Expr.GrownAll m rest
/-- A value after an equals sign; without one the item ends. -/
def Expr.Grown? (terminator : Kind) (m : Mode) : Option Expr → Trace
  | some e => e.Grown .help m * stop .help
  | none => check fun a => Reading.endsItem terminator (headKind a) = true
/-- A second branch; without one no `else` follows. -/
def Expr.GrownElse (m : Mode) : Option (Token × Expr) → Trace
  | some (keyword, e) => toElse m * keyword.taken (· = .elseWord) m * lines * e.Grown .help m *
    stop .help
  | none => check fun a => headKind (m.beforeElse a) ≠ .elseWord
def Item.Grown (role : ListRole) (terminator : Kind) (m : Mode) : Item → Trace
  | .positional value _ =>
    check (fun _ => role = .arguments) * atValue m * value.Grown .help m * stop .help
  | .named name (some equals) value _ =>
    name.taken (fun kind => if role = .arguments then kind.isName else kind = .identifier) m *
      equals.taken (· = .equal) m * check (fun _ => role = .parameters → value.isSome = true) *
      Expr.Grown? terminator m value
  | .named name none none _ =>
    name.taken (fun kind => role = .parameters && kind = .identifier) m *
      check (fun a => headKind a ≠ .equal)
  | .ellipsis token _ => token.taken (· = .ellipsis) m
  | .missing _ => check fun a => role = .arguments ∧ headKind a = .comma
  | _ => never
def Item.GrownAll (role : ListRole) (terminator : Kind) (m : Mode) (slot : Reading.Slot) :
    List Item → Trace
  | [] => listEnd role terminator slot
  | item :: rest => item.Grown role terminator m * comma terminator m item.comma *
    Item.GrownAll role terminator m (.after item) rest
end

/-- What an expression that binds by at least a level is read from. -/
def Expr.Reads (level : Level) (m : Mode) (e : Expr) : Trace := e.Grown level m * stop level

-- ---------------------------------------------------------------------------
-- The rules for items, over the tokens they start at
-- ---------------------------------------------------------------------------

namespace Item

variable {role : ListRole} {terminator : Kind} {m : Mode} {comma : Option Token} {a b : List Token}

@[simp] theorem grown_positional {value : Expr} :
    (positional value comma).Grown role terminator m a b ↔
      role = .arguments ∧ (headKind a ≠ .ellipsis ∧
        ¬((headKind a).isName = true ∧ headKind (m.settle a.tail) = .equal)) ∧
      value.Reads .help m a b := by
  simp only [Item.Grown, mul_assoc, check_mul, atValue, Expr.Reads]

@[simp] theorem grown_named {name equals : Token} {value : Option Expr} :
    (named name (some equals) value comma).Grown role terminator m a b ↔
      (if role = .arguments then (headKind a).isName else headKind a = .identifier) = true ∧
      a.head? = some name ∧ headKind (m.settle a.tail) = .equal ∧
      (m.settle a.tail).head? = some equals ∧ (role = .parameters → value.isSome = true) ∧
      Expr.Grown? terminator m value (m.settle (m.settle a.tail).tail) b := by
  simp only [Item.Grown, mul_assoc, check_mul, Token.taken_mul, decide_eq_true_eq]

@[simp] theorem grown_named_none {name : Token} :
    (named name none none comma).Grown role terminator m a b ↔
      role = .parameters ∧ headKind a = .identifier ∧ a.head? = some name ∧
      headKind b ≠ .equal ∧ m.settle a.tail = b := by
  simp only [Item.Grown, Token.taken_mul, check_apply, Bool.and_eq_true, decide_eq_true_eq,
    and_assoc]
  constructor <;>
  · rintro ⟨hr, hk, hh, hn, hb⟩
    exact ⟨hr, hk, hh, hb ▸ hn, hb⟩

@[simp] theorem not_grown_named_none {name : Token} {value : Expr} :
    ¬(named name none (some value) comma).Grown role terminator m a b := id

@[simp] theorem grown_ellipsis {token : Token} :
    (ellipsis token comma).Grown role terminator m a b ↔
      headKind a = .ellipsis ∧ a.head? = some token ∧ m.settle a.tail = b := by
  simp only [Item.Grown, Token.taken_apply, decide_eq_true_eq]

@[simp] theorem grown_missing :
    (missing comma).Grown role terminator m a b ↔
      (role = .arguments ∧ headKind a = .comma) ∧ a = b :=
  check_apply _ a b

@[simp] theorem not_grown_unreadable {tokens : List Token} :
    ¬(unreadable tokens comma).Grown role terminator m a b := id

@[simp] theorem not_grown_stub : ¬stub.Grown role terminator m a b := id

end Item

@[simp] theorem Expr.grown?_some {terminator : Kind} {m : Mode} {e : Expr} {a b : List Token} :
    Expr.Grown? terminator m (some e) a b ↔ e.Reads .help m a b := Iff.rfl

@[simp] theorem Expr.grown?_none {terminator : Kind} {m : Mode} {a b : List Token} :
    Expr.Grown? terminator m none a b ↔
      Reading.endsItem terminator (headKind a) = true ∧ a = b :=
  check_apply _ a b

end LenientR
