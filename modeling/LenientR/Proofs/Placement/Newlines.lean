import LenientR.Proofs.Grammar.Newlines
import LenientR.Proofs.Placement.Shift
import LenientR.Proofs.Scanning.Lines

/-!
# Newlines put into a text

Within round and square brackets a newline can be put in front of any token of a text without
problems: the same is read, all that follows one byte further on (`Document.parse_insert_newline`).
-/

namespace LenientR

open Reading

def Token.placeAfter (position : Nat) (token : Token) : Nat :=
  if token.start < position then token.start else token.start + 1

theorem Expr.grownAll_move {tokens left : List Token} {es : List Expr} (h : EndsOnce tokens)
    (hg : Expr.GrownAll .top es tokens left) (place : Token → Nat) :
    Expr.GrownAll .top (es.map (Expr.move place)) (tokens.map (Token.move place))
      (left.map (Token.move place)) := by
  obtain ⟨hproblems, hroots, hleft⟩ := (readAll_iff h es left).2 hg
  have hmove : readAll (tokens.map (Token.move place)) =
      ((readAll tokens).1.map (Expr.move place), (readAll tokens).2.move place []) :=
    readAll_move h.ended_start
  have hmoved : EndsOnce (tokens.map (Token.move place)) := h.map fun _ => rfl
  refine (readAll_iff hmoved _ _).1 ?_
  rw [hmove, hroots]
  exact ⟨List.map_eq_nil_iff.2 hproblems, rfl, congrArg (List.map (Token.move place)) hleft⟩

theorem map_move_placeAfter {before after : List Token} {next : Token}
    (h : (before ++ next :: after).Pairwise (·.start < ·.start)) :
    (before ++ next :: after).map (Token.move (Token.placeAfter next.start)) =
      before ++ (next :: after).map (Token.shift 1) := by
  obtain ⟨_, hafter, hbefore⟩ := List.pairwise_append.1 h
  rw [List.map_append]
  congr 1
  · refine (List.map_congr_left fun token hm => ?_).trans (List.map_id' before)
    have hlt := hbefore token hm next List.mem_cons_self
    rw [Token.move, Token.placeAfter, if_pos hlt]
  · refine List.map_congr_left fun token hm => ?_
    have hle : ¬token.start < next.start := by
      rcases List.mem_cons.1 hm with rfl | hm
      · exact Nat.lt_irrefl _
      · exact Nat.not_lt.2 (Nat.le_of_lt ((List.pairwise_cons.1 hafter).1 token hm))
    rw [Token.move, Token.placeAfter, if_neg hle]
    rfl

theorem Document.not_unterminated_of_isValid {source : String}
    (hv : (parse source).isValid = true) :
    ∀ token ∈ tokenise source, token.kind ≠ .unterminatedString := by
  intro token hm he
  have hcode : token ∈ (parse source).tokens := by
    refine List.mem_filter.2 ⟨hm, ?_⟩
    rw [he]
    rfl
  have hwhole := isMalformed_of_isValid hv token hcode
  rw [he] at hwhole
  cases hwhole

theorem Document.tokens_insert_newline {front back : String} {before after : List Token}
    {next : Token} (hv : (parse (front ++ back)).isValid = true)
    (ht : (parse (front ++ back)).tokens = before ++ next :: after)
    (hn : next.start = Text.byteSize front.toList) :
    (parse (front ++ "\n" ++ back)).tokens =
      before ++ ⟨.endOfLine, next.start, ['\n']⟩ :: (next :: after).map (Token.shift 1) := by
  have hall : (tokenise (front ++ back)).filter (·.kind ≠ .comment) = before ++ next :: after := ht
  obtain ⟨first, rest, hsplit, hfirst, hrest⟩ := List.filter_eq_append_iff.1 hall
  obtain ⟨comments, others, rfl, hcomments, _, hothers⟩ := List.filter_eq_cons_iff.1 hrest
  rw [← List.append_assoc] at hsplit
  have hquoted : ∀ token ∈ first ++ comments, token.kind ≠ .unterminatedString :=
    fun token hm => not_unterminated_of_isValid hv token
      (hsplit.symm.subst (List.mem_append_left _ hm))
  rw [tokenise, String.toList_append] at hsplit
  obtain ⟨hback, hnew⟩ := tokensFrom_insert_newline hsplit (by rw [hn, Nat.zero_add]) hquoted
  have htokens : (parse (front ++ "\n" ++ back)).tokens =
      (tokensFrom 0 (front.toList ++ '\n' :: back.toList)).filter (·.kind ≠ .comment) := by
    have hchars : (front ++ "\n" ++ back).toList = front.toList ++ '\n' :: back.toList := by
      simp
    rw [← hchars]
    rfl
  have hshift : ((next :: others).map (Token.shift 1)).filter (·.kind ≠ .comment) =
      (next :: after).map (Token.shift 1) := by
    rw [List.filter_map, ← hrest, List.filter_append,
      List.filter_eq_nil_iff.2 hcomments, List.nil_append]
    rfl
  rw [htokens, hnew, tokensFrom_add, hback, List.filter_append, List.filter_append, hfirst,
    List.filter_eq_nil_iff.2 hcomments, List.append_nil, ← hshift]
  rfl

/-- Within round and square brackets newlines count for nothing: with one put in front of a token of
a text without problems the text still has none, and its tree is the same with all tokens from there
on one byte further on. -/
theorem Document.parse_insert_newline {front back : String} {before after : List Token}
    {next : Token} (hv : (parse (front ++ back)).isValid = true)
    (ht : (parse (front ++ back)).tokens = before ++ next :: after)
    (hn : next.start = Text.byteSize front.toList) (hi : ignoresLines before = true) :
    (parse (front ++ "\n" ++ back)).isValid = true ∧
      (parse (front ++ "\n" ++ back)).roots =
        (parse (front ++ back)).roots.map (Expr.move (Token.placeAfter next.start)) := by
  obtain ⟨last, _, hg⟩ := grown_of_isValid hv
  have hends : EndsOnce (parse (front ++ back)).tokens := endsOnce_tokens ..
  have horder : (parse (front ++ back)).tokens.Pairwise (·.start < ·.start) := pairwise_tokens ..
  have hmoved := Expr.grownAll_move hends hg (Token.placeAfter next.start)
  rw [ht] at horder
  change Expr.GrownAll .top _ ((parse (front ++ back)).tokens.map _) _ at hmoved
  rw [ht, map_move_placeAfter horder] at hmoved
  have hpadded : Padded [false] (before ++ (next :: after).map (Token.shift 1))
      (before ++ ⟨.endOfLine, next.start, ['\n']⟩ :: (next :: after).map (Token.shift 1)) :=
    padded_insert hi rfl _
  obtain ⟨left, hall, _⟩ := Expr.keeps_grownAll .top rfl [] _ _ _ hmoved _ (hpadded.aligned rfl)
  rw [← tokens_insert_newline hv ht hn] at hall
  obtain ⟨hproblems, hroots, _⟩ := (readAll_iff (endsOnce_tokens ..) _ _).2 hall
  exact ⟨isValid_iff.2 hproblems, hroots⟩

/-- In a call at the top level, where a newline ends a statement. -/
theorem Document.parse_insert_newline_call :
    (parse ("f(a," ++ "\n" ++ "b)")).isValid = true ∧
      (parse ("f(a," ++ "\n" ++ "b)")).roots =
        (parse ("f(a," ++ "b)")).roots.map (Expr.move (Token.placeAfter 4)) := by
  have ht : (parse ("f(a," ++ "b)")).tokens =
      [⟨.identifier, 0, ['f']⟩, ⟨.leftParen, 1, ['(']⟩, ⟨.identifier, 2, ['a']⟩,
        ⟨.comma, 3, [',']⟩] ++ ⟨.identifier, 4, ['b']⟩ ::
      [⟨.rightParen, 5, [')']⟩, ⟨.endOfFile, 6, []⟩] := by
    decide +kernel
  exact parse_insert_newline (by decide +kernel) ht (by decide +kernel) (by decide +kernel)

/-- Between the two brackets that close `[[` newlines count as they do outside. -/
example : (Document.parse "x[[1]]").isValid = true ∧
    (Document.parse "x[[1]\n]").isValid = false := by decide +kernel

end LenientR
