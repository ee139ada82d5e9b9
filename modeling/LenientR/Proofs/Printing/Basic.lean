import LenientR.Outline.Basic
import LenientR.Proofs.Grammar.Basic

/-!
# Printing

`Expr.Complete` says which trees are printed: those without gaps whose operands, branches, bodies and
argument values need no brackets around them. They are printed as the tokens they hold, with
semicolons between statements (`Expr.printAll`).
-/

namespace LenientR

-- ---------------------------------------------------------------------------
-- What is printed
-- ---------------------------------------------------------------------------

/-- An expression that ends in a token of its own and starts with one, so that it can stand anywhere
without brackets: an atom, or brackets around anything. -/
def Expr.IsOperand : Expr → Prop
  | .literal _ | .var _ | .namespaced _ _ _ | .control _ | .group _ _ _ | .block _ _ _ => True
  | _ => False

/-- All further arguments are no value among others. -/
def Expr.IsEllipsis : Expr → Prop
  | .var token => token.kind = .ellipsis
  | _ => False

def parameterNames : List Item → List (List Char)
  | [] => []
  | .named name _ _ _ :: rest => name.chars :: parameterNames rest
  | _ :: rest => parameterNames rest

def CommasFit : List Item → Prop
  | [] => True
  | [item] => item.comma = none
  | item :: next :: rest =>
    (∃ comma, item.comma = some comma ∧ comma.kind = .comma) ∧ CommasFit (next :: rest)

mutual
/-- The tokens of the construct are all there and of the right kinds, those that stand without
brackets around them need none, and so on below. -/
def Expr.Complete : Expr → Prop
  | .assignment left operator right =>
    (left.IsOperand ∧ left.Complete) ∧ operator.kind.isAssignment = true ∧
      (right.IsOperand ∧ right.Complete)
  | .binary left operator right =>
    (left.IsOperand ∧ left.Complete) ∧ operator.kind.isBinary = true ∧
      (right.IsOperand ∧ right.Complete)
  | .block opening body (some closing) =>
    opening.kind = .leftCurly ∧ Expr.AllComplete body ∧ closing.kind = .rightCurly
  | .call callee opening arguments (some closing) =>
    (callee.IsOperand ∧ callee.Complete) ∧ opening.kind = .leftParen ∧
      (CommasFit arguments ∧ Item.AllComplete .arguments arguments) ∧ closing.kind = .rightParen
  | .control token => token.kind = .breakWord ∨ token.kind = .nextWord
  | .forLoop keyword (some opening) (some loopVar) (some inWord) sequence (some closing) body =>
    keyword.kind = .forWord ∧ opening.kind = .leftParen ∧ loopVar.kind = .identifier ∧
      inWord.kind = .inWord ∧ sequence.Complete ∧ closing.kind = .rightParen ∧
      (body.IsOperand ∧ body.Complete)
  | .function keyword (some opening) parameters (some closing) (some body) =>
    (keyword.kind = .functionWord ∨ keyword.kind = .backslash) ∧ opening.kind = .leftParen ∧
      (CommasFit parameters ∧ Item.AllComplete .parameters parameters ∧
        (parameterNames parameters).Nodup) ∧ closing.kind = .rightParen ∧
      (body.IsOperand ∧ body.Complete)
  | .group opening inner (some closing) =>
    opening.kind = .leftParen ∧ inner.Complete ∧ closing.kind = .rightParen
  | .conditional keyword (some opening) condition (some closing) consequent alternative =>
    keyword.kind = .ifWord ∧ opening.kind = .leftParen ∧ condition.Complete ∧
      closing.kind = .rightParen ∧ (consequent.IsOperand ∧ consequent.Complete) ∧
      Expr.CompleteElse alternative
  | .index target opening arguments [closing] =>
    (target.IsOperand ∧ target.Complete) ∧ opening.kind = .leftSquare ∧
      (CommasFit arguments ∧ Item.AllComplete .arguments arguments) ∧ closing.kind = .rightSquare
  | .index target opening arguments [first, second] =>
    (target.IsOperand ∧ target.Complete) ∧ opening.kind = .leftDoubleSquare ∧
      (CommasFit arguments ∧ Item.AllComplete .arguments arguments) ∧
      first.kind = .rightSquare ∧ second.kind = .rightSquare
  | .literal token => token.kind.isConstant = true ∨ token.kind = .string
  | .member target operator (some name) =>
    (target.IsOperand ∧ target.Complete) ∧ (operator.kind = .dollar ∨ operator.kind = .atSign) ∧
      name.kind.isName = true
  | .namespaced package operator (some name) =>
    package.kind.isName = true ∧ operator.kind.isPackageOperator = true ∧ name.kind.isName = true
  | .repeatLoop keyword body => keyword.kind = .repeatWord ∧ (body.IsOperand ∧ body.Complete)
  | .unary operator operand =>
    (Level.ofSign? operator.kind).isSome = true ∧ (operand.IsOperand ∧ operand.Complete)
  | .var token => token.kind = .identifier ∨ token.kind = .ellipsis
  | .whileLoop keyword (some opening) condition (some closing) body =>
    keyword.kind = .whileWord ∧ opening.kind = .leftParen ∧ condition.Complete ∧
      closing.kind = .rightParen ∧ (body.IsOperand ∧ body.Complete)
  | _ => False
def Expr.AllComplete : List Expr → Prop
  | [] => True
  | e :: rest => e.Complete ∧ Expr.AllComplete rest
def Expr.CompleteElse : Option (Token × Expr) → Prop
  | none => True
  | some (keyword, e) => keyword.kind = .elseWord ∧ (e.IsOperand ∧ e.Complete)
/-- The value of an argument stands without brackets; a default may be anything. -/
def Expr.Complete? (role : ListRole) : Option Expr → Prop
  | none => role = .arguments
  | some e => (role = .arguments → e.IsOperand) ∧ e.Complete
def Item.Complete (role : ListRole) : Item → Prop
  | .positional value _ =>
    role = .arguments ∧ (value.IsOperand ∧ value.Complete) ∧ ¬value.IsEllipsis
  | .named name (some equals) value _ =>
    (if role = .arguments then name.kind.isName = true else name.kind = .identifier) ∧
      equals.kind = .equal ∧ Expr.Complete? role value
  | .named name none none _ => role = .parameters ∧ name.kind = .identifier
  | .ellipsis token _ => token.kind = .ellipsis
  -- the last slot of a list has no comma, so it is never an empty one
  | .missing comma => role = .arguments ∧ comma.isSome = true
  | _ => False
def Item.AllComplete (role : ListRole) : List Item → Prop
  | [] => True
  | item :: rest => item.Complete role ∧ Item.AllComplete role rest
end

-- ---------------------------------------------------------------------------
-- How it is printed
-- ---------------------------------------------------------------------------

def Token.semicolon : Token := ⟨.semicolon, 0, [';']⟩

def Node.between : Node → List Token
  | .expr (.block _ _ _) => [.semicolon]
  | _ => []

def Part.startsWithNode : List Part → Bool
  | .child _ :: _ => true
  | _ => false

mutual
def Outline.print : Outline → List Token
  | .node label _ parts => Part.print label.between parts
def Part.print (between : List Token) : List Part → List Token
  | [] => []
  | .token token :: rest => token :: Part.print between rest
  | .child outline :: rest =>
    outline.print ++ (if Part.startsWithNode rest then between else []) ++ Part.print between rest
end

def Expr.printAll (es : List Expr) : List Token := Part.print [.semicolon] (Expr.outlines es)

end LenientR
