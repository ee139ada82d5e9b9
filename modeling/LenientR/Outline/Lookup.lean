import LenientR.Outline.Basic

/-!
# Finding nodes

Nodes do not know where they are. A `Located` node carries its address, the child numbers that lead
to it from the top; two located nodes of one tree are the same node if their addresses are equal.
`walk` lists all nodes, `pathAt` goes down to a position, `parent?` searches the walk.
-/

namespace LenientR

structure Located where
  /-- The number of the top level node, then of the child at each further level. -/
  address : List Nat
  outline : Outline

namespace Located

def node (found : Located) : Node := found.outline.label

def span (found : Located) : Option Span := found.outline.span

def children (found : Located) : List Located :=
  found.outline.children.mapIdx fun index child => ⟨found.address ++ [index], child⟩

def isSame (a b : Located) : Bool := a.address = b.address

def parentIn? (nodes : List Located) (found : Located) : Option Located :=
  nodes.find? fun candidate => candidate.children.any (·.isSame found)

def ancestorsIn (nodes : List Located) (found : Located) : Nat → List Located
  | 0 => [found]
  | bound + 1 =>
    found :: match found.parentIn? nodes with
      | none => []
      | some parent => parent.ancestorsIn nodes bound

end Located

mutual
def Outline.walk (address : List Nat) : Outline → List Located
  | .node label span parts => ⟨address, .node label span parts⟩ :: Part.walk address 0 parts
/-- The nodes among the parts of the node at `address`, counting its children from `index`. -/
def Part.walk (address : List Nat) (index : Nat) : List Part → List Located
  | [] => []
  | .token _ :: rest => Part.walk address index rest
  | .child outline :: rest =>
    outline.walk (address ++ [index]) ++ Part.walk address (index + 1) rest
end

/-- The end of a node counts as within it; a node without a place contains nothing. -/
def Outline.containsPosition (outline : Outline) (position : Nat) : Bool :=
  outline.span.any (·.containsPosition position)

mutual
def Outline.pathAt (position : Nat) (address : List Nat) : Outline → List Located
  | .node label span parts =>
    ⟨address, .node label span parts⟩ :: (Part.pathAt position address 0 parts).getD []
/-- The path that starts with the last of the nodes that contains the position. -/
def Part.pathAt (position : Nat) (address : List Nat) (index : Nat) :
    List Part → Option (List Located)
  | [] => none
  | .token _ :: rest => Part.pathAt position address index rest
  | .child outline :: rest =>
    match Part.pathAt position address (index + 1) rest with
    | some path => some path
    | none =>
      if outline.containsPosition position then
        some (outline.pathAt position (address ++ [index]))
      else none
end

mutual
def Outline.exprsPostorder : Outline → List Expr
  | .node (.expr e) _ parts => Part.exprsPostorder parts ++ [e]
  | .node (.argument _) _ parts => Part.exprsPostorder parts
  | .node (.parameter _) _ parts => Part.exprsPostorder parts
def Part.exprsPostorder : List Part → List Expr
  | [] => []
  | .token _ :: rest => Part.exprsPostorder rest
  | .child outline :: rest => outline.exprsPostorder ++ Part.exprsPostorder rest
end

abbrev Forest := List Outline

namespace Forest

def parts (forest : Forest) : List Part := forest.map .child

def walk (forest : Forest) : List Located := Part.walk [] 0 forest.parts

/-- The nodes that contain a position, from the outermost to the innermost. Where siblings both
contain it, the later one is taken. -/
def nodesAt (forest : Forest) (position : Nat) : List Located :=
  (Part.pathAt position [] 0 forest.parts).getD []

def nodeAt? (forest : Forest) (wanted : NodeClass) (position : Nat) : Option Located :=
  (forest.nodesAt position).reverse.find? (·.node.isA wanted)

def parent? (forest : Forest) (found : Located) : Option Located := found.parentIn? forest.walk

def ancestors (forest : Forest) (found : Located) : List Located :=
  found.ancestorsIn forest.walk found.address.length

end Forest

end LenientR
