import LenientR.Report.Highlight
import LenientR.Text.Line

/-!
# Code frames

The lines of a source that a span touches, numbered and highlighted, in a frame that names the
source and the first line. Any span has a frame: positions past the end are on the last line, and of
a reversed span the first line alone is shown.
-/

namespace LenientR.Report

/-- How the source is named; `-` stands for what comes from outside. -/
def displayName (file : String) : String := if file = "-" then "STDIN" else file

def padNumber (n : Nat) : String :=
  let digits := toString n
  String.ofList (List.replicate (3 - digits.length) ' ') ++ digits

structure Frame where
  title : String
  source : List Char
  span : Span

namespace Frame

def lines (frame : Frame) : Text.LineTable := .ofText frame.source

def firstLine (frame : Frame) : Nat := max (frame.lines.firstLine frame.span) 1

def lastLine (frame : Frame) : Nat := max (frame.lines.lastLine frame.span) frame.firstLine

/-- The text of a line with its newline; `none` for a line that does not exist or cannot be cut
out. -/
def lineText? (frame : Frame) (line : Nat) : Option (List Char) := do
  let span ← frame.lines.spanOf? line
  Text.slice? frame.source span.start span.stop

def margin (line : Nat) (text : List Char) : Styled :=
  [plainText (padNumber line ++ " "), ⟨[.dimmed], "│"⟩,
    plainText (if text.isEmpty then "" else " ")]

def lineEnd (text : List Char) : Styled :=
  [plainText (if text.getLast? = some '\n' then "" else "\n")]

def row? (frame : Frame) (line : Nat) : Option Styled := do
  let text ← frame.lineText? line
  let shown ← highlight? text
  pure (margin line text ++ shown ++ lineEnd text)

def header (frame : Frame) : Styled :=
  [plainText "    ", ⟨[.dimmed], "╭─["⟩, plainText (displayName frame.title), ⟨[.dimmed], ":"⟩,
    plainText (toString frame.firstLine), ⟨[.dimmed], "]"⟩, plainText "\n"]

def footer : Styled := [⟨[.dimmed], "────╯"⟩]

def lineNumbers (frame : Frame) : List Nat :=
  List.range' frame.firstLine (frame.lastLine + 1 - frame.firstLine)

def styled? (frame : Frame) : Option Styled := do
  let rows ← frame.lineNumbers.mapM frame.row?
  pure (frame.header ++ rows.flatten ++ footer)

/-- All lines shown exist and can be cut out, so nothing is ever left out. -/
def styled (frame : Frame) : Styled := frame.styled?.getD []

end Frame

end LenientR.Report
