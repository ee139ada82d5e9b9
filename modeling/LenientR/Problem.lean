import LenientR.Token.Basic

/-!
# Problems

What can be wrong with a source text. A problem is never fatal: reading always goes on and builds a
tree. Each problem is about one token (`token`) and says whether it is that token or something
missing after it (`place`).
-/

namespace LenientR

/-- Where a problem is, relative to its token. -/
inductive Place
  /-- The token itself. -/
  | onToken
  /-- Something is missing after it. -/
  | afterToken
deriving DecidableEq

inductive Problem
  /-- Another kind of token than the one that was due. -/
  | expected (kind : Kind) (after received : Token)
  | expectedExpression (token : Token)
  | expectedIdentifier (token : Token)
  /-- An empty slot in a parameter list. -/
  | expectedParameter (token : Token)
  /-- A token that does not fit where it is. -/
  | unexpectedToken (token : Token)
  /-- A closing bracket without an opening one. -/
  | unmatchedClosing (token : Token)
  /-- A bracket that is never closed, and the last token before where it should be. -/
  | missingClosing (opening after : Token)
  | unknownCharacter (token : Token)
  | unterminatedString (token : Token)
  | invalidNumber (token : Token)
  /-- A parameter name used before in the same function. -/
  | duplicateParameter (token : Token)
deriving DecidableEq

namespace Problem

def title : Problem → String
  | expected kind _ _ => "Expected " ++ kind.describe
  | expectedExpression _ => "Expected Expression"
  | expectedIdentifier _ => "Expected Identifier"
  | expectedParameter _ => "Expected Parameter"
  | unexpectedToken _ => "Unexpected Token"
  | unmatchedClosing _ => "Unmatched Closing Bracket"
  | missingClosing _ _ => "Missing Closing Bracket"
  | unknownCharacter _ => "Unknown Character"
  | unterminatedString _ => "Unterminated String"
  | invalidNumber _ => "Invalid Number"
  | duplicateParameter _ => "Duplicate Parameter"

def message : Problem → String
  | expected kind _ received =>
    "expected " ++ kind.describe ++ " but got " ++ received.kind.describe
  | expectedExpression token => "expected expression but got " ++ token.kind.describe
  | expectedIdentifier token => "expected identifier but got " ++ token.kind.describe
  | expectedParameter token => "expected parameter name but got " ++ token.kind.describe
  | unexpectedToken token => "unexpected " ++ token.kind.describe
  | unmatchedClosing token =>
    "found `" ++ token.kind.describe ++ "` without a matching opening bracket"
  | missingClosing opening _ => "`" ++ opening.kind.describe ++ "` was opened but never closed"
  | unknownCharacter _ => "got unknown character"
  | unterminatedString _ => "missing closing quote for string"
  | invalidNumber _ => "number is missing digits"
  | duplicateParameter _ => "parameter names must be unique within a function"

def fullMessage (problem : Problem) : String := problem.title ++ "\n" ++ problem.message

def hint : Problem → Option String
  | missingClosing opening _ =>
    let closing := match opening.kind with
      | .leftParen => ")"
      | .leftSquare => "]"
      | .leftDoubleSquare => "]]"
      | _ => "\x7d"
    some ("add a `" ++ closing ++ "` to close it")
  | duplicateParameter _ => some "rename one of the parameters"
  | _ => none

def token : Problem → Token
  | expected _ after _ => after
  | missingClosing _ after => after
  | expectedExpression token | expectedIdentifier token | expectedParameter token
  | unexpectedToken token | unmatchedClosing token | unknownCharacter token
  | unterminatedString token | invalidNumber token | duplicateParameter token => token

def place : Problem → Place
  | expected .. | missingClosing .. => .afterToken
  | _ => .onToken

/-- The token, or the zero width position after it where something is missing. -/
def span (problem : Problem) : Span :=
  match problem.place with
  | .onToken => problem.token.span
  | .afterToken => Span.point problem.token.stop

def insertByStart (problem : Problem) : List Problem → List Problem
  | [] => [problem]
  | first :: rest =>
    if problem.span.start < first.span.start then problem :: first :: rest
    else first :: insertByStart problem rest

def sortByStart (problems : List Problem) : List Problem :=
  problems.foldl (fun sorted problem => insertByStart problem sorted) []

/-- No problem starts before one that is ahead of it. -/
def OrderedByStart (problems : List Problem) : Prop :=
  problems.Pairwise fun a b => a.span.start ≤ b.span.start

theorem insertByStart_perm (problem : Problem) (problems : List Problem) :
    (insertByStart problem problems).Perm (problem :: problems) := by
  induction problems with
  | nil => exact .refl _
  | cons first rest ih =>
    unfold insertByStart
    split
    · exact .refl _
    · exact (ih.cons first).trans (.swap problem first rest)

theorem orderedByStart_insertByStart (problem : Problem) {problems : List Problem}
    (h : OrderedByStart problems) : OrderedByStart (insertByStart problem problems) := by
  induction problems with
  | nil => exact List.pairwise_singleton _ _
  | cons first rest ih =>
    have hc := List.pairwise_cons.1 h
    unfold insertByStart
    split
    · rename_i hlt
      refine List.pairwise_cons.2 ⟨fun other hm => ?_, h⟩
      rcases List.mem_cons.1 hm with rfl | hm
      · exact Nat.le_of_lt hlt
      · exact Nat.le_trans (Nat.le_of_lt hlt) (hc.1 other hm)
    · rename_i hge
      refine List.pairwise_cons.2 ⟨fun other hm => ?_, ih hc.2⟩
      rcases List.mem_cons.1 ((insertByStart_perm problem rest).mem_iff.1 hm) with rfl | hm
      · exact Nat.le_of_not_lt hge
      · exact hc.1 other hm

theorem foldl_insertByStart_perm (problems sorted : List Problem) :
    (problems.foldl (fun sorted problem => insertByStart problem sorted) sorted).Perm
      (sorted ++ problems) := by
  induction problems generalizing sorted with
  | nil => simp
  | cons problem rest ih =>
    exact (ih _).trans (((insertByStart_perm problem sorted).append_right rest).trans
      List.perm_middle.symm)

theorem sortByStart_perm (problems : List Problem) : (sortByStart problems).Perm problems :=
  foldl_insertByStart_perm problems []

theorem orderedByStart_foldl (problems : List Problem) {sorted : List Problem}
    (h : OrderedByStart sorted) :
    OrderedByStart
      (problems.foldl (fun sorted problem => insertByStart problem sorted) sorted) := by
  induction problems generalizing sorted with
  | nil => exact h
  | cons problem rest ih => exact ih (orderedByStart_insertByStart problem h)

theorem orderedByStart_sortByStart (problems : List Problem) :
    OrderedByStart (sortByStart problems) :=
  orderedByStart_foldl problems List.Pairwise.nil

end Problem

end LenientR
