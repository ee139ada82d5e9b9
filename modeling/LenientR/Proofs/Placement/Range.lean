import LenientR.Proofs.Placement.Shift
import LenientR.Proofs.Reading.Ending
import LenientR.Proofs.Scanning.Tiles

/-!
# Ranges of a source

A range of a source is read as a text of its own, with all positions those of the source
(`Document.parseRange?_eq_shift`). What stands outside the range makes no difference.
-/

namespace LenientR

open Reading

/-- Of tokens that stand one after another only a single one has no room before its end. -/
theorem eq_singleton_of_span_eq_unset {tokens : List Token} (h : tokens.Pairwise Token.Before)
    {token : Token} (hm : token ∈ tokens) (hs : token.span = .unset) : tokens = [token] := by
  obtain ⟨before, after, rfl⟩ := List.append_of_mem hm
  obtain ⟨_, hafter, hbefore⟩ := List.pairwise_append.1 h
  have hstart : token.start = 0 := congrArg Span.start hs
  have hstop : token.stop = 0 := congrArg Span.stop hs
  have hb : before = [] := List.eq_nil_iff_forall_not_mem.2 fun other ho => by
    obtain ⟨hl, hle⟩ := hbefore other ho token List.mem_cons_self
    omega
  have ha : after = [] := List.eq_nil_iff_forall_not_mem.2 fun other ho => by
    obtain ⟨hl, _⟩ := (List.pairwise_cons.1 hafter).1 other ho
    omega
  rw [hb, ha, List.nil_append]

theorem Reading.readAll_singleton {last : Token} (h : last.kind = .endOfFile) :
    (readAll [last]).1 = [] := by
  have hk : (State.start [last]).skipSeparators.kind = .endOfFile := by
    simp [State.skipSeparators, State.start, separators, State.kind, State.current, h]
  have hlast : (State.start [last]).skipSeparators.atLastStatement = true := by
    simp [State.atLastStatement, hk]
  rcases readStatements_round (engages_readExprWithin 1) 0 (State.start [last]) with
    ⟨hrun, _⟩ | ⟨read, s, hs, hl, _⟩
  · exact congrArg Prod.fst hrun
  · -- nothing is left to go over but the end of the file
    have he : (State.start [last]).Ended := ⟨last, by simp [State.start], h⟩
    have := (hs.passes.ended he).length_pos
    simp only [State.start, List.length_singleton] at hl
    omega

/-- No token in a tree has the span that counts as none: only the end of an empty text has it. -/
theorem Document.span_ne_unset (source : String) (range : Span) (text : List Char) :
    ∀ token ∈ Part.tokens (ofText source range text).forest.parts, token.span ≠ .unset := by
  intro token hm hs
  have ht := (placed_parts source range text).subset hm
  have hone := eq_singleton_of_span_eq_unset (before_tokens source range text) ht hs
  obtain ⟨body, last, he, hk, _⟩ := endsOnce_tokens source range text
  have hlast : token = last := by
    rw [hone] at he
    have hend : [] ++ [token] = body ++ [last] := he
    exact List.singleton_inj.1 (List.append_inj' hend rfl).2
  have hroots : (ofText source range text).roots = [] := by
    change (readAll (ofText source range text).tokens).1 = []
    rw [hone]
    exact readAll_singleton (hlast ▸ hk)
  rw [forest, hroots] at hm
  exact absurd hm List.not_mem_nil

theorem Document.parts_shift (offset : Nat) (source : String) (range : Span) (text : List Char) :
    ((ofText source range text).shift offset).forest.parts =
      Part.shiftAll offset (ofText source range text).forest.parts := by
  have hmove : ((ofText source range text).shift offset).forest.parts =
      Part.moveAll (Token.onBy offset) (ofText source range text).forest.parts := by
    rw [parts_eq, parts_eq, ← Expr.outlines_move, Expr.moveAll_eq_map]
    rfl
  exact hmove.trans (Part.moveAll_onBy _ (placed_parts _ _ _).spanned (span_ne_unset _ _ _)).1

theorem Document.ofText_shift (source : String) (offset : Nat) (text : List Char) :
    ofText source ⟨offset, offset + Text.byteSize text⟩ text =
      { (parse (String.ofList text)).shift offset with source := source } := by
  let tokens := (tokensFrom 0 text).filter (·.kind ≠ .comment)
  have hall : tokensFrom offset text = (tokensFrom 0 text).map (Token.shift offset) := by
    rw [← tokensFrom_add, Nat.zero_add]
  have htokens : (tokensFrom offset text).filter (·.kind ≠ .comment) =
      tokens.map (Token.shift offset) := by
    rw [hall, List.filter_map]
    rfl
  have hcomments : ((tokensFrom offset text).filter (·.kind = .comment)).map Token.span =
      (((tokensFrom 0 text).filter (·.kind = .comment)).map Token.span).map
        (Span.shift offset) := by
    rw [hall, commentSpans_shift]
  have hread : readAll (tokens.map (Token.shift offset)) =
      ((readAll tokens).1.map (Expr.shift offset),
        (readAll tokens).2.move (Token.onBy offset) []) :=
    readAll_move (endsOnce_tokens source ⟨0, 0⟩ text).ended_start
  unfold parse ofText ofTokens shift
  simp only [String.toList_ofList, htokens, hcomments, hread, Span.shift, Nat.zero_add,
    Nat.add_comm offset, tokens]
  simp only [State.move, List.append_nil, ← List.map_reverse, ← Problem.sortByStart_shift]
  rfl

/-- A range that falls on character boundaries is read as its text would be on its own, further on
by as much as is before the range: the same tokens, comments, trees, expressions and problems, in
the same order, and the same nodes with the same spans. -/
theorem Document.parseRange?_eq_shift {source : String} {range : Span} {text : List Char}
    (h : Text.slice? source.toList range.start range.stop = some text) :
    ∃ document, parseRange? source range = some document ∧
      document = { (parse (String.ofList text)).shift range.start with source := source } ∧
      document.walk = (parse (String.ofList text)).walk.map (Located.shift range.start) := by
  obtain ⟨start, stop⟩ := range
  obtain ⟨before, after, hsource, hb, hs⟩ := Text.slice?_eq_some.1 h
  dsimp only at h hb hs ⊢
  subst hs
  have hle : start + Text.byteSize text ≤ Text.byteSize source.toList := by
    simp only [hsource, Text.byteSize_append]
    omega
  have hread : parseRange? source ⟨start, start + Text.byteSize text⟩ =
      some (ofText source ⟨start, start + Text.byteSize text⟩ text) := by
    rw [parseRange?_eq]
    simp only [Span.cut, Nat.min_eq_left hle, Nat.min_eq_left (Nat.le_add_right start _), h,
      Option.map_some]
  refine ⟨_, hread, ofText_shift source start text, ?_⟩
  have hforest : (ofText source ⟨start, start + Text.byteSize text⟩ text).forest =
      ((parse (String.ofList text)).shift start).forest := by
    rw [ofText_shift]
    rfl
  rw [walk, hforest, Forest.walk, parse, parts_shift, Part.walk_shift]
  rfl

theorem Document.parseRange?_unclosed :
    ∃ document, parseRange? "é; f(a b, 'c'" ⟨4, 10⟩ = some document ∧
      document = { (parse "f(a b,").shift 4 with source := "é; f(a b, 'c'" } ∧
      document.walk = (parse "f(a b,").walk.map (Located.shift 4) :=
  have hslice : Text.slice? "é; f(a b, 'c'".toList 4 10 = some "f(a b,".toList := by decide +kernel
  parseRange?_eq_shift hslice

end LenientR
