import LenientR.Text.Alphabet
import LenientR.Token.Kind

/-!
# Words

A word is a run of letters and digits of any script, points and underscores. It starts with a
letter or a point. Some words are reserved; every other one is an identifier.
-/

namespace LenientR.Word

def isStart (c : Char) : Bool := c = '.' || Alphabet.isAlphabetic c

def isPart (c : Char) : Bool := Alphabet.isAlphanumeric c || c = '.' || c = '_'

def reserved : List (String × Kind) := [
  ("if", .ifWord), ("else", .elseWord), ("repeat", .repeatWord), ("while", .whileWord),
  ("function", .functionWord), ("for", .forWord), ("in", .inWord), ("next", .nextWord),
  ("break", .breakWord), ("TRUE", .trueWord), ("FALSE", .falseWord), ("NULL", .nullWord),
  ("NA", .naWord), ("NA_integer_", .naWord), ("NA_real_", .naWord), ("NA_character_", .naWord),
  ("NA_complex_", .naWord), ("Inf", .infWord), ("NaN", .nanWord), ("...", .ellipsis)]

def kindOf (word : List Char) : Kind :=
  (reserved.lookup (String.ofList word)).getD .identifier

theorem isPart_of_isStart {c : Char} (h : isStart c = true) : isPart c = true := by
  simp only [isStart, isPart, Alphabet.isAlphanumeric, Bool.or_eq_true] at *
  rcases h with h | h
  · exact .inl (.inr h)
  · exact .inl (.inl (.inl h))

end LenientR.Word
