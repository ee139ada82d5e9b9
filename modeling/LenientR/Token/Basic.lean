import LenientR.Span
import LenientR.Text.Slice
import LenientR.Token.Kind

/-!
# Tokens

A token carries its own characters next to where it starts, so the tree built from tokens can be
read without the source.
-/

namespace LenientR

structure Token where
  kind : Kind
  /-- The byte offset of its first character in the whole source. -/
  start : Nat
  chars : List Char
deriving DecidableEq

namespace Token

def length (token : Token) : Nat := Text.byteSize token.chars

def stop (token : Token) : Nat := token.start + token.length

def span (token : Token) : Span := ⟨token.start, token.stop⟩

def text (token : Token) : String := String.ofList token.chars

end Token

end LenientR
