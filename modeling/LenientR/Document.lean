import LenientR.Comment
import LenientR.Outline.Drawing
import LenientR.Outline.Lookup
import LenientR.Reading.Statement
import LenientR.Text.Line
import LenientR.Token.Tokeniser

/-!
# Documents

A source text, or a range of it, with the tree read from it. Every text can be read; only a range
that cuts a character in two has no document (`parseRange?`).
-/

namespace LenientR

structure Document where
  source : String
  /-- The part of the source that was read. -/
  range : Span
  /-- Without the comments; the last one is the end of the file. -/
  tokens : List Token
  comments : Comments
  /-- The statements at the top level. -/
  roots : List Expr
  /-- The expressions in the order they were completed, those discarded in recovery left out. -/
  expressions : List Expr
  /-- Ordered by where they start. -/
  problems : List Problem

namespace Document

def ofTokens (source : String) (range : Span) (all : List Token) : Document :=
  let tokens := all.filter (·.kind ≠ .comment)
  let found := Reading.readAll tokens
  { source := source
    range := range
    tokens := tokens
    comments := (all.filter (·.kind = .comment)).map Token.span
    roots := found.1
    expressions := found.2.completed.reverse
    problems := Problem.sortByStart found.2.problems.reverse }

def ofText (source : String) (range : Span) (text : List Char) : Document :=
  ofTokens source range (tokensFrom range.start text)

/-- Reads a range of a source, cut to what there is of it, in place. Positions are those of the
whole source. There is no answer if the range does not fall on character boundaries. -/
def parseRange? (source : String) (range : Span) : Option Document :=
  (tokeniseRange? source range).map (ofTokens source (range.cut source.utf8ByteSize))

def parse (source : String) : Document :=
  ofText source ⟨0, Text.byteSize source.toList⟩ source.toList

def isValid (document : Document) : Bool := document.problems.isEmpty

def forest (document : Document) : Forest := document.roots.map Expr.outline

def walk (document : Document) : List Located := document.forest.walk

def nodesAt (document : Document) (position : Nat) : List Located :=
  document.forest.nodesAt position

def lines (document : Document) : Text.LineTable := .ofText document.source.toList

def text? (document : Document) (span : Span) : Option String :=
  (Text.slice? document.source.toList span.start span.stop).map String.ofList

def draw (document : Document) : String := drawForest document.source.toList document.forest

/-- Replaces a range of the source and reads the whole again. -/
def edit? (document : Document) (range : Span) (insert : String) : Option Document :=
  let source := document.source.toList
  do
    let before ← Text.slice? source 0 range.start
    let _ ← Text.slice? source range.start range.stop
    let after ← Text.slice? source range.stop (Text.byteSize source)
    pure (parse (String.ofList (before ++ insert.toList ++ after)))

end Document

end LenientR
