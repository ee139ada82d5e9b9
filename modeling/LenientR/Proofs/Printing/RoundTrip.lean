import LenientR.Proofs.Placement.Reading
import LenientR.Proofs.Printing.Grammar
import LenientR.Proofs.Scanning.Spaced
import LenientR.Proofs.Valid.Sound

/-!
# Printing and reading

Complete statements that are printed with blanks between all tokens are read back without a problem,
up to the places of the tokens.
-/

namespace LenientR

open Trace

-- ---------------------------------------------------------------------------
-- The printed tokens
-- ---------------------------------------------------------------------------

theorem Node.eq_semicolon_of_mem_between {label : Node} :
    ∀ token ∈ label.between, token = .semicolon := by
  unfold between
  split <;> simp

mutual
/-- Nothing is printed but the tokens of the tree and semicolons. -/
theorem Outline.mem_print {token : Token} : (outline : Outline) → token ∈ outline.print →
    token ∈ outline.tokens ∨ token = .semicolon
  | .node _ _ parts => Part.mem_print Node.eq_semicolon_of_mem_between parts
theorem Part.mem_print {token : Token} {between : List Token}
    (hb : ∀ token ∈ between, token = .semicolon) : (parts : List Part) →
      token ∈ Part.print between parts → token ∈ Part.tokens parts ∨ token = .semicolon
  | [], h => absurd h (List.not_mem_nil)
  | .token own :: rest, h => by
    rw [Part.print] at h
    rcases List.mem_cons.1 h with rfl | h
    · exact .inl List.mem_cons_self
    · exact (Part.mem_print hb rest h).imp_left (List.mem_cons_of_mem own)
  | .child outline :: rest, h => by
    rw [Part.print] at h
    rw [Part.tokens]
    rcases List.mem_append.1 h with h | h
    · rcases List.mem_append.1 h with h | h
      · exact (outline.mem_print h).imp_left (List.mem_append_left _)
      · refine .inr (hb token ?_)
        split at h
        · exact h
        · exact absurd h List.not_mem_nil
    · exact (Part.mem_print hb rest h).imp_left (List.mem_append_right _)
end

theorem Token.isSpelled_semicolon : Token.semicolon.IsSpelled := by decide

/-- Complete statements are the tree that their printed tokens are read as. -/
theorem Expr.grownAll_printAll {es : List Expr} (h : Expr.AllComplete es) :
    Expr.GrownAll .top es (Expr.printAll es ++ [endToken 0]) [endToken 0] :=
  (Expr.grownAll_print es .top [endToken 0] h (.inl rfl)).1

theorem Expr.kind_of_mem_printAll {es : List Expr} (h : Expr.AllComplete es) :
    ∀ token ∈ Expr.printAll es,
      token.kind.isContent = true ∨ token.kind.separates = true := by
  have hlaid := Expr.laid_of_grownAll .top _ _ _ (Expr.grownAll_printAll h)
  have hyields := (Part.yields_laid (fun _ => id) (Expr.outlines es)).mul (yields_gap (fun _ => id))
  obtain ⟨own, ht, _, hc⟩ := hyields _ _ hlaid
  rwa [← List.append_cancel_right ht] at hc

-- ---------------------------------------------------------------------------
-- Reading them back
-- ---------------------------------------------------------------------------

theorem Document.tokens_parse_spaced {tokens : List Token} (h : ∀ token ∈ tokens, token.IsSpelled)
    (hk : ∀ token ∈ tokens, token.kind.isContent = true ∨ token.kind.separates = true) :
    (parse (String.ofList (spaced tokens))).tokens.map (·.move fun _ => 0) =
      (tokens ++ [endToken 0]).map (·.move fun _ => 0) := by
  have hends : ∀ token ∈ tokens, token.kind.endsAtBlank = true := fun token hm => by
    have hc := hk token hm
    revert hc
    cases token.kind <;> decide
  have hscan := tokensFrom_spaced (spaceable_of_endsAtBlank h hends) 0
  have hcode : ∀ token ∈ tokensFrom 0 (spaced tokens), token.kind ≠ .comment := fun token hm => by
    have hmoved := List.mem_map_of_mem (f := (·.move fun _ => 0)) hm
    rw [hscan] at hmoved
    obtain ⟨own, ho, he⟩ := List.mem_map.1 hmoved
    rw [← Token.kind_move (fun _ => 0) token, ← he, Token.kind_move]
    rcases List.mem_append.1 ho with ho | ho
    · exact fun hc => absurd (hends own ho) (by rw [hc]; decide)
    · rw [List.mem_singleton.1 ho]
      exact nofun
  change (((tokensFrom 0 (String.ofList (spaced tokens)).toList).filter
    (·.kind ≠ .comment)).map _) = _
  rw [String.toList_ofList, List.filter_eq_self.2 fun token hm => decide_eq_true (hcode token hm)]
  exact hscan

theorem Expr.endsOnce_printAll {es : List Expr} (h : Expr.AllComplete es) :
    EndsOnce (Expr.printAll es ++ [endToken 0]) := by
  refine ⟨_, _, rfl, rfl, fun token hm hk => ?_⟩
  have hc := Expr.kind_of_mem_printAll h token hm
  rw [hk] at hc
  exact absurd hc (by decide)

theorem Reading.readAll_of_map_move_eq {tokens others : List Token} (ht : EndsOnce tokens)
    (ho : EndsOnce others)
    (h : tokens.map (·.move fun _ => 0) = others.map (·.move fun _ => 0)) :
    (readAll tokens).1.map Expr.unplaced = (readAll others).1.map Expr.unplaced ∧
      ((readAll others).2.problems = [] → (readAll tokens).2.problems = []) := by
  have hmove {tokens : List Token} (h : EndsOnce tokens) :
      readAll (tokens.map (·.move fun _ => 0)) =
        ((readAll tokens).1.map Expr.unplaced, (readAll tokens).2.move (fun _ => 0) []) :=
    readAll_move h.ended_start
  have hmoved := (hmove ht).symm.trans ((congrArg readAll h).trans (hmove ho))
  obtain ⟨hroots, hstate⟩ := Prod.mk.inj hmoved
  refine ⟨hroots, fun hp => ?_⟩
  have hproblems := congrArg State.problems hstate
  simp only [State.move, hp, List.map_nil, List.map_eq_nil_iff] at hproblems
  exact hproblems

theorem Document.roots_ofText {source : String} {range : Span} {text : List Char} :
    (ofText source range text).roots =
      (Reading.readAll (ofText source range text).tokens).1 := rfl

/-- Printed statements are read back as they were. -/
theorem Document.roots_parse_printAll {es : List Expr} (h : Expr.AllComplete es)
    (hs : ∀ token ∈ Part.tokens (Expr.outlines es), token.IsSpelled) :
    (parse (String.ofList (spaced (Expr.printAll es)))).isValid = true ∧
      (parse (String.ofList (spaced (Expr.printAll es)))).roots.map Expr.unplaced =
        es.map Expr.unplaced := by
  have hspelled : ∀ token ∈ Expr.printAll es, token.IsSpelled := fun token hm =>
    (Part.mem_print (by simp) _ hm).elim (hs token) fun hm => hm ▸ Token.isSpelled_semicolon
  have htokens := tokens_parse_spaced hspelled (Expr.kind_of_mem_printAll h)
  have hprinted := Expr.endsOnce_printAll h
  obtain ⟨hproblems, hes, _⟩ := (Reading.readAll_iff hprinted _ _).2 (Expr.grownAll_printAll h)
  obtain ⟨hroots, hvalid⟩ :=
    Reading.readAll_of_map_move_eq (endsOnce_tokens _ _ _) hprinted htokens
  rw [hes] at hroots
  unfold parse
  refine ⟨isValid_iff.2 (hvalid hproblems), ?_⟩
  rw [roots_ofText]
  exact hroots

def Token.spelled (kind : Kind) (text : String) : Token := ⟨kind, 0, text.toList⟩

def Expr.callAndConditional : List Expr :=
  let name := fun text => Token.spelled .identifier text
  let comma := some (Token.spelled .comma ",")
  let opening := Token.spelled .leftParen "("
  let closing := Token.spelled .rightParen ")"
  [.call (.var (name "f")) opening
      [.positional (.group opening (.binary (.var (name "a")) (.spelled .plus "+")
        (.literal (.spelled .number "1"))) (some closing)) comma,
        .missing comma, .named (name "n") (some (.spelled .equal "=")) none comma,
        .ellipsis (.spelled .ellipsis "...") none] (some closing),
    .conditional (.spelled .ifWord "if") (some opening) (.unary (.spelled .bang "!")
        (.var (name "x"))) (some closing)
      (.block (.spelled .leftCurly "\x7b")
        [.assignment (.var (name "y")) (.spelled .leftAssign "<-") (.literal (.spelled .string "'s'")),
          .index (.var (name "y")) (.spelled .leftDoubleSquare "[[") []
            [.spelled .rightSquare "]", .spelled .rightSquare "]"]] (some (.spelled .rightCurly "\x7d")))
      (some (.spelled .elseWord "else", .block (.spelled .leftCurly "\x7b") []
        (some (.spelled .rightCurly "\x7d"))))]

theorem Document.roots_parse_callAndConditional :
    String.ofList (spaced (Expr.printAll Expr.callAndConditional)) =
        "f ( ( a + 1 ) , , n = , ... ) ; if ( ! x ) \x7b y <- 's' ; y [[ ] ] \x7d else \x7b \x7d" ∧
      (parse (String.ofList (spaced (Expr.printAll Expr.callAndConditional)))).roots.map
          Expr.unplaced = Expr.callAndConditional.map Expr.unplaced := by
  refine ⟨by decide +kernel, (roots_parse_printAll ?_ (by decide +kernel)).2⟩
  simp [Expr.callAndConditional, Token.spelled, Expr.AllComplete, Expr.Complete, Expr.CompleteElse,
    Expr.Complete?, Item.AllComplete, Item.Complete, CommasFit, Expr.IsOperand, Expr.IsEllipsis,
    Item.comma, Kind.isAssignment, Kind.isBinary, Kind.isConstant, Level.ofOperator?,
    Level.ofSign?, Kind.isName]

end LenientR
