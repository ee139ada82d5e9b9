import LenientR.Span
import LenientR.Text.Bisect
import LenientR.Text.Slice

/-!
# Lines

A line starts at offset 0 and after each newline, so a text with `m` newlines has `m + 1` lines,
the last of which may be empty. Lines are numbered from 1.
-/

namespace LenientR.Text

def lineStartsFrom (offset : Nat) : List Char → List Nat
  | [] => []
  | c :: rest =>
    if c = '\n' then (offset + c.utf8Size) :: lineStartsFrom (offset + c.utf8Size) rest
    else lineStartsFrom (offset + c.utf8Size) rest

structure LineTable where
  starts : List Nat
  size : Nat

namespace LineTable

def ofText (chars : List Char) : LineTable := ⟨0 :: lineStartsFrom 0 chars, byteSize chars⟩

/-- The number of the line a position is on. Positions past the end are on the last line. -/
def lineAt (table : LineTable) (position : Nat) : Nat :=
  match bisect table.starts position with
  | .found index => index + 1
  | .absent index => index

def firstLine (table : LineTable) (span : Span) : Nat := table.lineAt span.start

def lastLine (table : LineTable) (span : Span) : Nat := table.lineAt span.stop

/-- From the start of a line to the start of the next, its newline included; `none` if there is no
such line. -/
def spanOf? (table : LineTable) : Nat → Option Span
  | 0 => none
  | line + 1 => table.starts[line]?.map fun start => ⟨start, table.starts[line + 1]?.getD table.size⟩

end LineTable

end LenientR.Text
