import LenientR.Reading.Level
import LenientR.Reading.Recovery

/-!
# Reading lists of items

The comma separated lists of calls, indexing and function definitions. An item that fails is
skipped to the next comma or the end of the list and kept as the tokens it is written with, so
that the rest of the list is still read. Only a curly bracket that closes an enclosing block abandons
a whole list.
-/

namespace LenientR.Reading

abbrev ExprReader := Level → Action Expr

/-- What came before the place in a list where an item could start. -/
inductive Slot
  | opening
  | comma
  /-- An item without a comma. -/
  | item
deriving DecidableEq

def endsItem (terminator kind : Kind) : Bool :=
  kind = terminator || kind = .comma || kind = .rightCurly || kind = .endOfFile

def readValue (readExpr : ExprReader) (terminator : Kind) (ifAbsent : Action Unit) :
    Action (Option Expr) := do
  let kind ← look State.kind
  if endsItem terminator kind then do
    ifAbsent
    pure none
  else some <$> readExpr .help

def readArgument (readExpr : ExprReader) (terminator : Kind) : Action Item := do
  let kind ← look State.kind
  let next ← look State.nextKind
  if kind = .ellipsis then do
    let token ← advance
    pure (.ellipsis token none)
  else if kind = .comma then pure (.missing none)
  else if (kind = .identifier ∨ kind = .string) ∧ next = .equal then do
    let name ← advance
    let equals ← advance
    let value ← readValue readExpr terminator (pure ())
    pure (.named name (some equals) value none)
  else do
    let value ← readExpr .help
    pure (.positional value none)

def readDefault (readExpr : ExprReader) (terminator : Kind) :
    Option Token → Action (Option Expr)
  | none => pure none
  | some _ => readValue readExpr terminator (reportCurrent .expectedExpression)

def readParameter (readExpr : ExprReader) (terminator : Kind) : Action Item := do
  let kind ← look State.kind
  if kind = .ellipsis then do
    let token ← advance
    pure (.ellipsis token none)
  else if kind = .comma then do
    reportCurrent .expectedParameter
    pure (.missing none)
  else if kind = .identifier then do
    let name ← advance
    let equals ← accept .equal
    let value ← readDefault readExpr terminator equals
    pure (.named name equals value none)
  else do
    fail fun s => .expectedIdentifier s.current
    pure .stub

def readBareItem (readExpr : ExprReader) (terminator : Kind) : ListRole → Action Item
  | .arguments => readArgument readExpr terminator
  | .parameters => readParameter readExpr terminator

/-- Gives up on an item that has failed: the expressions completed within it are discarded, and
all tokens up to a comma or the end of the list make up the item. -/
def salvage (start : List Token) (completed : List Expr) (terminator : Kind) (item : Item) :
    Action Item where
  run s :=
    if s.recovering then
      let after := s.recover fun kind => kind = .comma || kind = terminator
      (.unreadable (tokensBetween start after.rest) none, { after with completed := completed })
    else (item, s)
  onward s := by
    split
    · exact (s.onward_recover _).trans (State.onward_completed _ _)
    · exact .refl s

def attachComma (item : Item) : Option Token → Item
  | none => item
  | some comma => item.withComma comma

def readItem (readExpr : ExprReader) (role : ListRole) (terminator : Kind) : Action Item := do
  let start ← look State.rest
  let completed ← look State.completed
  let read ← readBareItem readExpr terminator role
  unexpectedUnless (endsItem terminator)
  let item ← salvage start completed terminator read
  let comma ← accept .comma
  pure (attachComma item comma)

/-- A comma right before the end of a parameter list leaves a slot empty. -/
def reportEmptySlot (role : ListRole) (slot : Slot) : Action Unit :=
  if role = .parameters ∧ slot = .comma then reportCurrent .expectedParameter else pure ()

def Slot.after (item : Item) : Slot := if item.comma.isSome then .comma else .item

/-- The items from a slot on, up to the closing bracket, the end of the file or a curly bracket
that closes an enclosing block. At the end of the file an open slot holds a stub. The bound is on the
number of items. -/
def readItems (readExpr : ExprReader) (role : ListRole) (terminator : Kind) :
    Nat → Slot → Action (List Item)
  | 0, _ => pure []
  | bound + 1, slot => do
    let kind ← look State.kind
    if kind = terminator then do
      reportEmptySlot role slot
      pure []
    else if kind = .endOfFile then pure (if slot = .item then [] else [.stub])
    else if kind = .rightCurly then pure []
    else do
      let item ← readItem readExpr role terminator
      let others ← readItems readExpr role terminator bound (.after item)
      pure (item :: others)

/-- Closes a list, if its closing bracket is there. A list that is cut off by a curly bracket has no
items, and none of its expressions is kept. -/
def finishList (opening : Token) (terminator : Kind) (completed : List Expr)
    (items : List Item) : Action (List Item × Option Token) := do
  let kind ← look State.kind
  let closing ← takeClosing opening terminator
  if kind = .rightCurly then do
    discardTo completed
    pure ([], closing)
  else pure (items, closing)

/-- A list after its opening bracket, with the closing one if it is there. Newlines within the list
are skipped. -/
def readList (readExpr : ExprReader) (bound : Nat) (role : ListRole) (opening : Token)
    (terminator : Kind) : Action (List Item × Option Token) := do
  let completed ← look State.completed
  let items ← withNewlines true (readItems readExpr role terminator bound .opening)
  finishList opening terminator completed items

def repeatedNames : List Item → List Token → List Token
  | [], _ => []
  | .named name _ _ _ :: rest, seen =>
    if seen.any (·.chars = name.chars) then name :: repeatedNames rest seen
    else repeatedNames rest (name :: seen)
  | _ :: rest, seen => repeatedNames rest seen

theorem onward_reportAll (problem : Token → Problem) (tokens : List Token) (s : State) :
    s.Onward (tokens.foldl (fun s token => s.report (problem token)) s) := by
  induction tokens generalizing s with
  | nil => exact .refl s
  | cons token rest ih => exact (s.onward_report _).trans (ih _)

def reportRepeatedNames (parameters : List Item) : Action Unit :=
  update (fun s => (repeatedNames parameters []).foldl
    (fun s name => s.report (.duplicateParameter name)) s) (onward_reportAll _ _)

end LenientR.Reading
