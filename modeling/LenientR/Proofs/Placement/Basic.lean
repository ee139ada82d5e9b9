import LenientR.Reading.State

/-!
# Trees at other places

`move place` gives every token of a tree another start and leaves kinds and characters as they are.
Two trees that are equal after moving all their tokens to one place have the same nodes, the same
structure and the same token texts (`unplaced`).
-/

namespace LenientR

def Token.move (place : Token → Nat) (token : Token) : Token := { token with start := place token }

@[simp] theorem Token.kind_move (place : Token → Nat) (token : Token) :
    (token.move place).kind = token.kind := rfl

@[simp] theorem Token.chars_move (place : Token → Nat) (token : Token) :
    (token.move place).chars = token.chars := rfl

mutual
def Expr.move (place : Token → Nat) : Expr → Expr
  | .assignment left operator right =>
    .assignment (left.move place) (operator.move place) (right.move place)
  | .binary left operator right =>
    .binary (left.move place) (operator.move place) (right.move place)
  | .block opening body closing =>
    .block (opening.move place) (Expr.moveAll place body) (closing.map (·.move place))
  | .call callee opening arguments closing =>
    .call (callee.move place) (opening.move place) (Item.moveAll place arguments)
      (closing.map (·.move place))
  | .control token => .control (token.move place)
  | .forLoop keyword opening loopVar inWord sequence closing body =>
    .forLoop (keyword.move place) (opening.map (·.move place)) (loopVar.map (·.move place))
      (inWord.map (·.move place)) (sequence.move place) (closing.map (·.move place))
      (body.move place)
  | .function keyword opening parameters closing body =>
    .function (keyword.move place) (opening.map (·.move place)) (Item.moveAll place parameters)
      (closing.map (·.move place)) (Expr.move? place body)
  | .group opening inner closing =>
    .group (opening.move place) (inner.move place) (closing.map (·.move place))
  | .conditional keyword opening condition closing consequent alternative =>
    .conditional (keyword.move place) (opening.map (·.move place)) (condition.move place)
      (closing.map (·.move place)) (consequent.move place) (Expr.moveElse place alternative)
  | .index target opening arguments closing =>
    .index (target.move place) (opening.move place) (Item.moveAll place arguments)
      (closing.map (·.move place))
  | .literal token => .literal (token.move place)
  | .member target operator name =>
    .member (target.move place) (operator.move place) (name.map (·.move place))
  | .namespaced package operator name =>
    .namespaced (package.move place) (operator.move place) (name.map (·.move place))
  | .repeatLoop keyword body => .repeatLoop (keyword.move place) (body.move place)
  | .unary operator operand => .unary (operator.move place) (operand.move place)
  | .var token => .var (token.move place)
  | .whileLoop keyword opening condition closing body =>
    .whileLoop (keyword.move place) (opening.map (·.move place)) (condition.move place)
      (closing.map (·.move place)) (body.move place)
  | .invalid token => .invalid (token.move place)
def Expr.moveAll (place : Token → Nat) : List Expr → List Expr
  | [] => []
  | e :: rest => e.move place :: Expr.moveAll place rest
def Expr.move? (place : Token → Nat) : Option Expr → Option Expr
  | none => none
  | some e => some (e.move place)
def Expr.moveElse (place : Token → Nat) : Option (Token × Expr) → Option (Token × Expr)
  | none => none
  | some (keyword, e) => some (keyword.move place, e.move place)
def Item.move (place : Token → Nat) : Item → Item
  | .positional value comma => .positional (value.move place) (comma.map (·.move place))
  | .named name equals value comma =>
    .named (name.move place) (equals.map (·.move place)) (Expr.move? place value)
      (comma.map (·.move place))
  | .ellipsis token comma => .ellipsis (token.move place) (comma.map (·.move place))
  | .missing comma => .missing (comma.map (·.move place))
  | .unreadable tokens comma =>
    .unreadable (tokens.map (·.move place)) (comma.map (·.move place))
  | .stub => .stub
def Item.moveAll (place : Token → Nat) : List Item → List Item
  | [] => []
  | item :: rest => item.move place :: Item.moveAll place rest
end

def Expr.unplaced (e : Expr) : Expr := e.move fun _ => 0

namespace Problem

def move (place : Token → Nat) : Problem → Problem
  | expected kind after received => expected kind (after.move place) (received.move place)
  | expectedExpression token => expectedExpression (token.move place)
  | expectedIdentifier token => expectedIdentifier (token.move place)
  | expectedParameter token => expectedParameter (token.move place)
  | unexpectedToken token => unexpectedToken (token.move place)
  | unmatchedClosing token => unmatchedClosing (token.move place)
  | missingClosing opening after => missingClosing (opening.move place) (after.move place)
  | unknownCharacter token => unknownCharacter (token.move place)
  | unterminatedString token => unterminatedString (token.move place)
  | invalidNumber token => invalidNumber (token.move place)
  | duplicateParameter token => duplicateParameter (token.move place)

end Problem

section
variable {place : Token → Nat}

theorem Expr.moveAll_eq_map (exprs : List Expr) :
    Expr.moveAll place exprs = exprs.map (Expr.move place) := by
  induction exprs with
  | nil => rfl
  | cons e rest ih => simp [Expr.moveAll, ih]

theorem Item.moveAll_eq_map (items : List Item) :
    Item.moveAll place items = items.map (Item.move place) := by
  induction items with
  | nil => rfl
  | cons item rest ih => simp [Item.moveAll, ih]

theorem Expr.move?_eq_map (e : Option Expr) : Expr.move? place e = e.map (Expr.move place) := by
  cases e <;> rfl

theorem Expr.moveElse_eq_map (alternative : Option (Token × Expr)) :
    Expr.moveElse place alternative =
      alternative.map (Prod.map (Token.move place) (Expr.move place)) := by
  cases alternative <;> rfl

@[simp] theorem Token.move_start (token : Token) : token.move Token.start = token := rfl

mutual
theorem Expr.move_start : (e : Expr) → e.move Token.start = e
  | .assignment left operator right | .binary left operator right => by
    simp [Expr.move, left.move_start, right.move_start]
  | .block _ body _ => by
    simp [Expr.move, Expr.moveAll_start body]
  | .call callee _ arguments _ => by
    simp [Expr.move, callee.move_start, Item.moveAll_start arguments]
  | .control _ | .literal _ | .var _ | .invalid _ => by simp [Expr.move]
  | .forLoop _ _ _ _ sequence _ body => by
    simp [Expr.move, sequence.move_start, body.move_start]
  | .function _ _ parameters _ body => by
    simp [Expr.move, Item.moveAll_start parameters, Expr.move?_start body]
  | .group _ inner _ => by
    simp [Expr.move, inner.move_start]
  | .conditional _ _ condition _ consequent alternative => by
    simp [Expr.move, condition.move_start, consequent.move_start,
      Expr.moveElse_start alternative]
  | .index target _ arguments _ => by
    simp [Expr.move, target.move_start, Item.moveAll_start arguments]
  | .member target _ _ => by
    simp [Expr.move, target.move_start]
  | .namespaced _ _ _ => by simp [Expr.move]
  | .repeatLoop _ body => by simp [Expr.move, body.move_start]
  | .unary _ operand => by simp [Expr.move, operand.move_start]
  | .whileLoop _ _ condition _ body => by
    simp [Expr.move, condition.move_start, body.move_start]
theorem Expr.moveAll_start : (exprs : List Expr) → Expr.moveAll Token.start exprs = exprs
  | [] => rfl
  | e :: rest => by simp [Expr.moveAll, e.move_start, Expr.moveAll_start rest]
theorem Expr.move?_start : (e : Option Expr) → Expr.move? Token.start e = e
  | none => rfl
  | some e => by simp [Expr.move?, e.move_start]
theorem Expr.moveElse_start :
    (alternative : Option (Token × Expr)) → Expr.moveElse Token.start alternative = alternative
  | none => rfl
  | some (keyword, e) => by simp [Expr.moveElse, e.move_start]
theorem Item.move_start : (item : Item) → item.move Token.start = item
  | .positional value _ => by simp [Item.move, value.move_start]
  | .named _ _ value _ => by
    simp [Item.move, Expr.move?_start value]
  | .ellipsis _ _ => by simp [Item.move]
  | .missing _ => by simp [Item.move]
  | .unreadable _ _ => by simp [Item.move]
  | .stub => rfl
theorem Item.moveAll_start : (items : List Item) → Item.moveAll Token.start items = items
  | [] => rfl
  | item :: rest => by simp [Item.moveAll, item.move_start, Item.moveAll_start rest]
end

theorem Problem.move_start (problem : Problem) : problem.move Token.start = problem := by
  cases problem <;> rfl

@[simp] theorem Item.comma_move (item : Item) :
    (item.move place).comma = item.comma.map (·.move place) := by
  cases item <;> simp [Item.move, Item.comma]

@[simp] theorem Item.withComma_move (item : Item) (comma : Token) :
    (item.withComma comma).move place = (item.move place).withComma (comma.move place) := by
  cases item <;> simp [Item.move, Item.withComma]

end

end LenientR
