/-!
# Styled text

Text for a terminal as segments with effects, so that it can be written with colours (`ansi`) or
without (`plain`), and what it says is the same either way.
-/

namespace LenientR.Report

/-- A display attribute: the code that turns it on, and the one written after the text. -/
structure Effect where
  on : Nat
  off : Nat
deriving DecidableEq

namespace Effect

def bold : Effect := ⟨1, 0⟩
def dimmed : Effect := ⟨2, 0⟩
def italic : Effect := ⟨3, 0⟩
def red : Effect := ⟨31, 39⟩
def yellow : Effect := ⟨33, 39⟩
def cyan : Effect := ⟨36, 39⟩

/-- A colour that is turned off together with everything else. -/
def token (color : Nat) : Effect := ⟨color, 0⟩

def code (number : Nat) : String := "\x1b[" ++ toString number ++ "m"

end Effect

structure Segment where
  /-- The outermost first. -/
  effects : List Effect
  text : String

abbrev Styled := List Segment

def plainText (text : String) : Segment := ⟨[], text⟩

def Segment.ansi (segment : Segment) : String :=
  segment.effects.foldr (fun effect inner => Effect.code effect.on ++ inner ++
    Effect.code effect.off) segment.text

namespace Styled

def ansi (styled : Styled) : String := String.join (styled.map Segment.ansi)

def plain (styled : Styled) : String := String.join (styled.map Segment.text)

end Styled

end LenientR.Report
