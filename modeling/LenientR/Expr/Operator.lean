import LenientR.Expr.Basic

/-!
# Operators

What the operator tokens of assignments, binary and unary expressions mean. Each `ofKind` is total;
the kinds that never stand in such a place fall to its last case.
-/

namespace LenientR

inductive AssignmentOperator
  | left | leftSuper | right | rightSuper | equal | colonEqual
deriving DecidableEq

namespace AssignmentOperator

def ofKind : Kind → AssignmentOperator
  | .leftAssign => left
  | .leftSuperAssign => leftSuper
  | .rightAssign => right
  | .rightSuperAssign => rightSuper
  | .colonEqual => colonEqual
  | _ => equal

def isRightward : AssignmentOperator → Bool
  | right | rightSuper => true
  | _ => false

def symbol : AssignmentOperator → String
  | left => "<-"
  | leftSuper => "<<-"
  | right => "->"
  | rightSuper => "->>"
  | equal => "="
  | colonEqual => ":="

def target (operator : AssignmentOperator) (left right : Expr) : Expr :=
  if operator.isRightward then right else left

def value (operator : AssignmentOperator) (left right : Expr) : Expr :=
  if operator.isRightward then left else right

end AssignmentOperator

/-- The name an assignment to this target binds; only variables and strings name something. -/
def Expr.boundName? : Expr → Option String
  | .var token => some token.text
  | .literal token => if token.kind = .string then some token.text else none
  | _ => none

inductive BinaryOperator
  | add | subtract | multiply | divide | power | special | pipe | sequence | formula | help
  | notEqual | equal | greater | greaterEqual | less | lessEqual | and | andAnd | or | orOr
deriving DecidableEq

def BinaryOperator.ofKind : Kind → BinaryOperator
  | .plus => add
  | .minus => subtract
  | .star => multiply
  | .slash => divide
  | .caret => power
  | .special => special
  | .pipe => pipe
  | .colon => sequence
  | .tilde => formula
  | .question => help
  | .bangEqual => notEqual
  | .equalEqual => equal
  | .greater => greater
  | .greaterEqual => greaterEqual
  | .less => less
  | .lessEqual => lessEqual
  | .and => and
  | .andAnd => andAnd
  | .or => or
  | _ => orOr

inductive UnaryOperator
  | not | minus | plus | formula | help
deriving DecidableEq

namespace UnaryOperator

def ofKind : Kind → UnaryOperator
  | .minus => minus
  | .plus => plus
  | .tilde => formula
  | .question => help
  | _ => not

def symbol : UnaryOperator → String
  | not => "!"
  | minus => "-"
  | plus => "+"
  | formula => "~"
  | help => "?"

end UnaryOperator

end LenientR
