import LenientR.Outline.Node

/-!
# Outlines

The tree seen uniformly: every node with its parts, tokens and further nodes, in source order.
`Expr.outline` lists the parts of each construct once. What holds of nodes in general is stated over
outlines: spans are hulls of parts (`Outline.of`), the tokens of a node are those of its parts
(`Outline.tokens`).
-/

namespace LenientR

mutual
inductive Outline
  | node (label : Node) (span : Option Span) (parts : List Part)
inductive Part
  | token (token : Token)
  | child (outline : Outline)
end

namespace Outline

def label : Outline → Node
  | node label _ _ => label

def span : Outline → Option Span
  | node _ span _ => span

def parts : Outline → List Part
  | node _ _ parts => parts

end Outline

namespace Part

def span : Part → Option Span
  | token t => some t.span
  | child outline => outline.span

def outline? : Part → Option Outline
  | token _ => none
  | child outline => some outline

def ofToken? (found : Option Token) : List Part := found.toList.map token

end Part

namespace Outline

/-- The node of these parts; it covers exactly what they cover. -/
def of (label : Node) (parts : List Part) : Outline :=
  node label (Span.hull (parts.filterMap Part.span)) parts

def children (outline : Outline) : List Outline := outline.parts.filterMap Part.outline?

end Outline

mutual
def Expr.outline : Expr → Outline
  | .assignment left operator right =>
    .of (.expr (.assignment left operator right))
      [.child left.outline, .token operator, .child right.outline]
  | .binary left operator right =>
    .of (.expr (.binary left operator right))
      [.child left.outline, .token operator, .child right.outline]
  | .block opening body closing =>
    .of (.expr (.block opening body closing))
      (.token opening :: Expr.outlines body ++ Part.ofToken? closing)
  | .call callee opening arguments closing =>
    .of (.expr (.call callee opening arguments closing))
      (.child callee.outline :: .token opening :: Item.outlines .arguments arguments ++
        Part.ofToken? closing)
  | .control token => .of (.expr (.control token)) [.token token]
  | .forLoop keyword opening loopVar inWord sequence closing body =>
    .of (.expr (.forLoop keyword opening loopVar inWord sequence closing body))
      (.token keyword :: Part.ofToken? opening ++
        loopVar.toList.map (fun name => .child (.of (.expr (.var name)) [.token name])) ++
        Part.ofToken? inWord ++ .child sequence.outline :: Part.ofToken? closing ++
        [.child body.outline])
  | .function keyword opening parameters closing body =>
    .of (.expr (.function keyword opening parameters closing body))
      (.token keyword :: Part.ofToken? opening ++ Item.outlines .parameters parameters ++
        Part.ofToken? closing ++ Expr.outline? body)
  | .group opening inner closing =>
    .of (.expr (.group opening inner closing))
      (.token opening :: .child inner.outline :: Part.ofToken? closing)
  | .conditional keyword opening condition closing consequent alternative =>
    .of (.expr (.conditional keyword opening condition closing consequent alternative))
      (.token keyword :: Part.ofToken? opening ++ .child condition.outline ::
        Part.ofToken? closing ++ .child consequent.outline :: Expr.outlineElse alternative)
  | .index target opening arguments closing =>
    .of (.expr (.index target opening arguments closing))
      (.child target.outline :: .token opening :: Item.outlines .arguments arguments ++
        closing.map Part.token)
  | .literal token => .of (.expr (.literal token)) [.token token]
  | .member target operator name =>
    .of (.expr (.member target operator name))
      (.child target.outline :: .token operator :: Part.ofToken? name)
  | .namespaced package operator name =>
    .of (.expr (.namespaced package operator name))
      (.token package :: .token operator :: Part.ofToken? name)
  | .repeatLoop keyword body =>
    .of (.expr (.repeatLoop keyword body)) [.token keyword, .child body.outline]
  | .unary operator operand =>
    .of (.expr (.unary operator operand)) [.token operator, .child operand.outline]
  | .var token => .of (.expr (.var token)) [.token token]
  | .whileLoop keyword opening condition closing body =>
    .of (.expr (.whileLoop keyword opening condition closing body))
      (.token keyword :: Part.ofToken? opening ++ .child condition.outline ::
        Part.ofToken? closing ++ [.child body.outline])
  | .invalid token => .of (.expr (.invalid token)) [.token token]
def Expr.outlines : List Expr → List Part
  | [] => []
  | e :: rest => .child e.outline :: Expr.outlines rest
def Expr.outline? : Option Expr → List Part
  | none => []
  | some e => [.child e.outline]
def Expr.outlineElse : Option (Token × Expr) → List Part
  | none => []
  | some (keyword, e) => [.token keyword, .child e.outline]
def Item.outline (role : ListRole) : Item → Outline
  | .positional value comma =>
    .of (.ofItem role (.positional value comma)) (.child value.outline :: Part.ofToken? comma)
  | .named name equals value comma =>
    .of (.ofItem role (.named name equals value comma))
      (.token name :: Part.ofToken? equals ++ Expr.outline? value ++ Part.ofToken? comma)
  | .ellipsis token comma =>
    .of (.ofItem role (.ellipsis token comma)) (.token token :: Part.ofToken? comma)
  | .missing comma => .of (.ofItem role (.missing comma)) (Part.ofToken? comma)
  | .unreadable tokens comma =>
    .of (.ofItem role (.unreadable tokens comma)) (tokens.map Part.token ++ Part.ofToken? comma)
  | .stub => .of (.ofItem role .stub) []
def Item.outlines (role : ListRole) : List Item → List Part
  | [] => []
  | item :: rest => .child (item.outline role) :: Item.outlines role rest
end

mutual
def Outline.tokens : Outline → List Token
  | .node _ _ parts => Part.tokens parts
def Part.tokens : List Part → List Token
  | [] => []
  | .token token :: rest => token :: Part.tokens rest
  | .child outline :: rest => outline.tokens ++ Part.tokens rest
end

def Expr.span (e : Expr) : Option Span := e.outline.span

def Item.span (item : Item) : Option Span := (item.outline .arguments).span

def listSpan (opening : Token) (items : List Item) (closing : Option Token) : Option Span :=
  Span.hull (opening.span :: items.filterMap Item.span ++ closing.toList.map Token.span)

def signatureSpan (keyword : Token) (opening : Option Token) (parameters : List Item)
    (closing : Option Token) : Option Span :=
  Span.hull (keyword.span :: opening.toList.map Token.span ++ parameters.filterMap Item.span ++
    closing.toList.map Token.span)

end LenientR
