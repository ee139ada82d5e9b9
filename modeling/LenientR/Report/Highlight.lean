import LenientR.Report.Styled
import LenientR.Token.Scan

/-!
# Highlighting

Source text with a colour for each class of token. What is between tokens is written as spaces.
-/

namespace LenientR.Report

def tokenEffects (kind : Kind) : List Effect :=
  match kind with
  | .number | .trueWord | .falseWord | .nullWord | .naWord | .infWord | .nanWord => [.token 34]
  | .string | .unterminatedString => [.token 32]
  | .functionWord | .backslash => [.token 35]
  | .comment => [.dimmed]
  | kind => if kind.isReservedWord then [.token 36] else []

def spaces (count : Nat) : Segment := plainText (String.ofList (List.replicate count ' '))

/-- Tokens of a source in order, with the gaps before them; `last` is where the token before ended.
`none` if the source cannot be cut at a token. -/
def highlightTokens? (source : List Char) (last : Nat) : List Token → Option Styled
  | [] => some []
  | token :: rest => do
    let text ← Text.slice? source token.start token.stop
    let others ← highlightTokens? source token.stop rest
    pure (spaces (token.start - last) :: ⟨tokenEffects token.kind, String.ofList text⟩ :: others)

def highlight? (source : List Char) : Option Styled :=
  highlightTokens? source 0 (tokensFrom 0 source)

/-- A source can always be cut at its tokens, so nothing is ever left out. -/
def highlight (source : List Char) : Styled := (highlight? source).getD []

end LenientR.Report
