import LenientR.Expr.Literal
import LenientR.Proofs.Scanning.Respaced
import LenientR.Proofs.Valid.Sound

/-!
# Sources of one literal

A source that is one string or one number is read as a literal and nothing else.
-/

namespace LenientR

/-- A source of these characters is one token of a kind, read as a literal of this value. -/
structure ReadsAs (kind : Kind) (chars : List Char) (value : LiteralValue) : Prop where
  scanned : tokenise (String.ofList chars) =
    [⟨kind, 0, chars⟩, endToken (Text.byteSize chars)]
  valid : (Document.parse (String.ofList chars)).isValid = true
  read : (Document.parse (String.ofList chars)).roots = [.literal ⟨kind, 0, chars⟩]
  value : (⟨kind, 0, chars⟩ : Token).literalValue = value

theorem Document.tokens_parse_of_isSpelled {token : Token} (h : token.IsSpelled)
    (hk : token.kind ≠ .comment) :
    (parse (String.ofList token.chars)).tokens =
      [⟨token.kind, 0, token.chars⟩, endToken (Text.byteSize token.chars)] := by
  rw [parse, ofText, String.toList_ofList, show tokensFrom 0 token.chars = _ from h]
  simp [ofTokens, hk, endToken]

theorem readsAs_of_isSpelled {kind : Kind} {chars : List Char}
    (h : Token.IsSpelled ⟨kind, 0, chars⟩) (hk : kind = .string ∨ kind = .number) :
    ReadsAs kind chars (Token.literalValue ⟨kind, 0, chars⟩) := by
  have hcomment : kind ≠ .comment := by
    rcases hk with rfl | rfl <;> decide
  have htokens := Document.tokens_parse_of_isSpelled h hcomment
  have hall : (Reading.readAll (Document.parse (String.ofList chars)).tokens).1 =
      [.literal ⟨kind, 0, chars⟩] ∧
        (Reading.readAll (Document.parse (String.ofList chars)).tokens).2.problems = [] := by
    rw [htokens]
    rcases hk with rfl | rfl <;> exact ⟨rfl, rfl⟩
  exact {
    scanned := by rw [tokenise, String.toList_ofList]; exact h
    valid := Document.isValid_iff.2 hall.2
    read := hall.1
    value := rfl }

end LenientR
