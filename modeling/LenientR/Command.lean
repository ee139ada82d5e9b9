import LenientR.Document
import LenientR.Report.Frame
import LenientR.Report.Message

/-!
# Commands

What the command line does, as a function of the contents of the file it is given. Text is written
without colours.
-/

namespace LenientR

open Report (Message Frame displayName padNumber)

inductive Command
  /-- Reports the problems of a file. -/
  | check
  | listTokens
  | drawTree
  /-- Lists the nodes at a byte offset. -/
  | query (offset : Nat)
deriving DecidableEq

/-- What a command writes, and the code it exits with: 0 for success, 1 if there are problems, 2 if
it has nothing to work on. -/
structure Outcome where
  exitCode : Nat
  out : String
  err : String
deriving DecidableEq

namespace Command

def messageText (message : Message) : String := message.styled.plain ++ "\n"

/-- The text of a file; `none` is a file that cannot be read, and `-` names what comes from
outside. A file must not be empty. -/
def sourceOf (file : String) (contents : Option ByteArray) : Except Message String :=
  if file = "-" then
    match String.fromUTF8? (contents.getD ByteArray.empty) with
    | some source => .ok source
    | none => .error (.error "STDIN is not valid UTF-8")
  else
    match contents.bind String.fromUTF8? with
    | some source =>
      if source.isEmpty then .error (.warning ("Empty file `" ++ file ++ "`")) else .ok source
    | none => .error (.error ("File not found `" ++ file ++ "`"))

def problemReports (file : String) (document : Document) : String :=
  String.join (document.problems.map fun problem =>
    messageText (.ofProblem problem) ++
      (Frame.styled ⟨file, document.source.toList, problem.span⟩).plain ++ "\n")

def checkSource (file source : String) : Outcome :=
  let document := Document.parse source
  ⟨if document.isValid then 0 else 1, "", problemReports file document⟩

def tokenLine (token : Token) : String :=
  padNumber token.start ++ " │ " ++ token.kind.describe ++
    (if token.kind.hasFixedLength then "" else " (length: " ++ toString token.length ++ ")") ++
    "\n"

def listSourceTokens (file source : String) : Outcome :=
  ⟨0, "    ╭─[Tokens: " ++ displayName file ++ "]\n" ++
    String.join ((tokenise source).map tokenLine) ++ "────╯\n", ""⟩

def drawSource (file source : String) : Outcome :=
  let document := Document.parse source
  ⟨0, (if document.isValid then "" else "\n") ++
    "╭─[Abstract Syntax Tree: " ++ displayName file ++ "]\n" ++ document.draw ++ "╯\n",
    problemReports file document⟩

def placeText (name : String) (span : Span) : String :=
  name ++ " (" ++ toString span.start ++ ".." ++ toString span.stop ++ ")"

def foundAt (document : Document) (offset : Nat) : List String :=
  ((document.nodesAt offset).filterMap fun found =>
    found.span.map (placeText found.node.kindName)) ++
  ((document.comments.at? offset).map (placeText "Comment")).toList

def branches : List String → String
  | [] => "╰─ Nothing Found\n"
  | [last] => "╰─ " ++ last ++ "\n"
  | line :: rest => "├─ " ++ line ++ "\n" ++ branches rest

def querySource (offset : Nat) (file source : String) : Outcome :=
  let document := Document.parse source
  if document.range.stop < offset then
    ⟨1, "", messageText
      (.error ("Offset " ++ toString offset ++ " is past the end of the file"))⟩
  else
    ⟨0, "╭─[Query: " ++ displayName file ++ ":" ++ toString offset ++ "]\n" ++
      branches (foundAt document offset), ""⟩

def runOn : Command → String → String → Outcome
  | check => checkSource
  | listTokens => listSourceTokens
  | drawTree => drawSource
  | query offset => querySource offset

def run (command : Command) (file : String) (contents : Option ByteArray) : Outcome :=
  match sourceOf file contents with
  | .ok source => command.runOn file source
  | .error message => ⟨2, "", messageText message⟩

end Command

end LenientR
