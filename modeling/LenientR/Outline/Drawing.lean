import LenientR.Outline.Basic

/-!
# Drawing a tree

One line per node, behind lines that connect it to its parent. Top level nodes are all drawn as if
more followed.
-/

namespace LenientR

/-- The text an unreadable item has in the source, blanks and comments between its tokens included,
its comma not. -/
def unreadableText (source : List Char) (tokens : List Token) : String :=
  match Span.hull (tokens.map Token.span) with
  | some span => String.ofList ((Text.slice? source span.start span.stop).getD [])
  | none => ""

def nameText (name : Option Token) : String := (name.map Token.text).getD ""

namespace Expr

def drawingLabel (e : Expr) : String :=
  match e with
  | .assignment _ operator _ =>
    "Assignment (" ++ (AssignmentOperator.ofKind operator.kind).symbol ++ ")"
  | .binary _ operator _ => "Binary (" ++ operator.text ++ ")"
  | .block _ _ none => "Block (unclosed)"
  | .call _ _ _ none => "Call (unclosed)"
  | .control token => if token.kind = .breakWord then "Control (break)" else "Control (next)"
  | .function keyword .. =>
    if keyword.kind = .backslash then "Function (\\)" else "Function"
  | .index _ opening _ _ =>
    if opening.kind = .leftDoubleSquare then "Index ([[)" else "Index ([)"
  | .literal token => "Literal (" ++ token.text ++ ")"
  | .member _ operator name =>
    "Member (" ++ (if operator.kind = .atSign then "@" else "$") ++ nameText name ++ ")"
  | .namespaced package operator name =>
    "Namespace (" ++ package.text ++ (if operator.kind = .colonColonColon then ":::" else "::") ++
      nameText name ++ ")"
  | .unary operator _ => "Unary (" ++ (UnaryOperator.ofKind operator.kind).symbol ++ ")"
  | .var token => "Variable (" ++ token.text ++ ")"
  | e => e.kindName

end Expr

def Item.drawingLabel (source : List Char) (role : ListRole) (item : Item) : String :=
  match item with
  | .named name .. => item.kindName role ++ " (" ++ name.text ++ ")"
  | .ellipsis .. => item.kindName role ++ " (...)"
  | .unreadable tokens _ =>
    item.kindName role ++ " (" ++ unreadableText source tokens ++ ")"
  | item => item.kindName role

def Node.drawingLabel (source : List Char) : Node → String
  | .expr e => e.drawingLabel
  | .argument item => item.drawingLabel source .arguments
  | .parameter item => item.drawingLabel source .parameters

mutual
def Outline.drawnLines (source : List Char) (margin : String) (final : Bool) :
    Outline → List String
  | .node label _ parts =>
    (margin ++ (if final then "╰─ " else "├─ ") ++ label.drawingLabel source) ::
      Part.drawnLines source (margin ++ if final then "   " else "│  ") parts
def Part.drawnLines (source : List Char) (margin : String) : List Part → List String
  | [] => []
  | .token _ :: rest => Part.drawnLines source margin rest
  | .child outline :: rest =>
    outline.drawnLines source margin (!rest.any (·.outline?.isSome)) ++
      Part.drawnLines source margin rest
end

def drawForest (source : List Char) (forest : List Outline) : String :=
  String.join ((forest.flatMap (·.drawnLines source "" false)).map (· ++ "\n"))

end LenientR
