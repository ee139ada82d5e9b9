import LenientR.Token.Basic

/-!
# Expressions

The tree a source text is read into. Every node holds all the tokens of its construct, as an
`Option` where reading goes on without the token, so that a tree without gaps can be written out
again. Newlines and the semicolons between statements are not part of the tree.
-/

namespace LenientR

mutual
inductive Expr
  /-- An assignment such as `x <- 1`, `1 -> x` or `x = 1`. -/
  | assignment (left : Expr) (operator : Token) (right : Expr)
  /-- An operation such as `1 + 2` or `a %in% b`. -/
  | binary (left : Expr) (operator : Token) (right : Expr)
  /-- Statements in curly brackets. -/
  | block (opening : Token) (body : List Expr) (closing : Option Token)
  /-- A function call such as `f(1, b = 2)`. -/
  | call (callee : Expr) (opening : Token) (arguments : List Item) (closing : Option Token)
  /-- The word `break` or `next`. -/
  | control (token : Token)
  /-- A loop such as `for (i in 1:10) print(i)`; the loop variable is missing if it was no name. -/
  | forLoop (keyword : Token) (opening loopVar inWord : Option Token) (sequence : Expr)
      (closing : Option Token) (body : Expr)
  /-- A definition such as `function(x, y = 2) x + y`; without a closed parameter list it has no
  body. -/
  | function (keyword : Token) (opening : Option Token) (parameters : List Item)
      (closing : Option Token) (body : Option Expr)
  /-- An expression in parentheses. -/
  | group (opening : Token) (inner : Expr) (closing : Option Token)
  /-- A choice such as `if (x) 1 else 2`. -/
  | conditional (keyword : Token) (opening : Option Token) (condition : Expr)
      (closing : Option Token) (consequent : Expr) (alternative : Option (Token × Expr))
  /-- Indexing such as `x[1, 2]` or `x[[1]]`. Of the two brackets that close `[[` the first may be
  there alone. -/
  | index (target : Expr) (opening : Token) (arguments : List Item) (closing : List Token)
  /-- A value or constant such as `1`, `"a"`, `TRUE` or `NULL`. -/
  | literal (token : Token)
  /-- A part of a value, `x$name` or `x@slot`. -/
  | member (target : Expr) (operator : Token) (name : Option Token)
  /-- A name from a package, `stats::median`. -/
  | namespaced (package operator : Token) (name : Option Token)
  /-- A loop such as `repeat f()`. -/
  | repeatLoop (keyword : Token) (body : Expr)
  /-- An operation on one value such as `-1`, `!x` or `~ y`. -/
  | unary (operator : Token) (operand : Expr)
  | var (token : Token)
  /-- A loop such as `while (x) f()`. -/
  | whileLoop (keyword : Token) (opening : Option Token) (condition : Expr)
      (closing : Option Token) (body : Expr)
  /-- Stands where an expression is missing or cannot be read. -/
  | invalid (token : Token)
/-- An item of a comma separated list: an argument of a call or index, or a parameter of a
function. Each kind but the stub may end in a comma. -/
inductive Item
  /-- A value alone; no parameter is one. -/
  | positional (value : Expr) (comma : Option Token)
  /-- A name, as an argument always with an equals sign after it. The value may be left out. -/
  | named (name : Token) (equals : Option Token) (value : Option Expr) (comma : Option Token)
  /-- All further arguments, `...`. -/
  | ellipsis (token : Token) (comma : Option Token)
  /-- An empty slot, such as the first one of `x[, 1]`. -/
  | missing (comma : Option Token)
  /-- Tokens that cannot be read as an item, kept as written, newlines included. -/
  | unreadable (tokens : List Token) (comma : Option Token)
  /-- The slot left open by a list that is never closed, as in `f(`. It has no place in the
  source. -/
  | stub
end

instance : Inhabited Expr := ⟨.invalid ⟨.unknown, 0, []⟩⟩

inductive ListRole
  | arguments
  | parameters
deriving DecidableEq

namespace Item

def comma : Item → Option Token
  | positional _ comma | named _ _ _ comma | ellipsis _ comma | missing comma
  | unreadable _ comma => comma
  | stub => none

def withComma (item : Item) (comma : Token) : Item :=
  match item with
  | positional value _ => positional value (some comma)
  | named name equals value _ => named name equals value (some comma)
  | ellipsis token _ => ellipsis token (some comma)
  | missing _ => missing (some comma)
  | unreadable tokens _ => unreadable tokens (some comma)
  | stub => stub

def isStub : Item → Bool
  | stub => true
  | _ => false

def value? : Item → Option Expr
  | positional value _ => some value
  | named _ _ value _ => value
  | _ => none

/-- The name of a named item; a parameter that takes all further arguments is named `...`. -/
def name? (role : ListRole) : Item → Option String
  | named name _ _ _ => some name.text
  | ellipsis _ _ => if role = .parameters then some "..." else none
  | _ => none

end Item

end LenientR
