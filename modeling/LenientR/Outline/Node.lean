import LenientR.Expr.Operator

/-!
# Nodes

One view of everything that is a node of the tree: expressions, and the items of argument and
parameter lists. `kindName` is what a node is called in listings.
-/

namespace LenientR

inductive Node
  | expr (expr : Expr)
  | argument (item : Item)
  | parameter (item : Item)

def Expr.kindName : Expr → String
  | .assignment .. => "Assignment"
  | .binary .. => "Binary"
  | .block .. => "Block"
  | .call .. => "Call"
  | .control .. => "Control"
  | .forLoop .. => "For"
  | .function .. => "Function"
  | .group .. => "Group"
  | .conditional .. => "If"
  | .index .. => "Index"
  | .literal .. => "Literal"
  | .member .. => "Member"
  | .namespaced .. => "Namespace"
  | .repeatLoop .. => "Repeat"
  | .unary .. => "Unary"
  | .var .. => "Variable"
  | .whileLoop .. => "While"
  | .invalid .. => "Invalid"

def Item.kindName (role : ListRole) : Item → String
  | .positional .. => "ExpressionArgument"
  | .named .. => match role with
    | .arguments => "NamedArgument"
    | .parameters => "NamedParameter"
  | .ellipsis .. => "EllipsisArgument"
  | .missing .. => "MissingArgument"
  | .unreadable .. => "ErrorArgument"
  | .stub => "StubArgument"

namespace Node

def ofItem : ListRole → Item → Node
  | .arguments => argument
  | .parameters => parameter

def kindName : Node → String
  | expr e => e.kindName
  | argument item => item.kindName .arguments
  | parameter item => item.kindName .parameters

end Node

inductive NodeClass
  | expression
  | argument
  | parameter
  /-- The nodes of one kind; lists of both roles share some. -/
  | kind (name : String)
deriving DecidableEq

def NodeClass.ofName (name : String) : NodeClass :=
  if name = "Expression" then expression
  else if name = "Argument" then argument
  else if name = "Parameter" then parameter
  else kind name

def Node.isA : Node → NodeClass → Bool
  | .expr _, .expression | .argument _, .argument | .parameter _, .parameter => true
  | node, .kind name => node.kindName = name
  | _, _ => false

end LenientR
