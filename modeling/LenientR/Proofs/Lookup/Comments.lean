import LenientR.Proofs.Scanning.Tiles
import Mathlib.Data.List.Nodup
import Mathlib.Data.List.Pairwise

/-!
# Looking up a comment

A comment goes on to the end of its line, and its end counts as within it. As the newline after it
belongs to no comment, no two comments have a position in common, not even where one ends
(`apart_comments`). So a position has at most one comment, the one that bisection on the ends finds
(`Document.commentsExact`).
-/

namespace LenientR

-- ---------------------------------------------------------------------------
-- Comments apart
-- ---------------------------------------------------------------------------

theorem drop_of_comment {c : Char} {rest : List Char} (h : (lexeme c rest).kind = .comment) :
    (c :: rest).drop (lexeme c rest).size = [] ∨
      ∃ more, (c :: rest).drop (lexeme c rest).size = '\n' :: more := by
  obtain rfl := eq_hash_of_lexeme_kind h
  rw [lexeme_hash, Lexeme.comment, List.drop_succ_cons]
  clear h
  induction rest with
  | nil => exact .inl rfl
  | cons c rest ih =>
    by_cases hc : c = '\n'
    · exact .inr ⟨rest, by simp [hc]⟩
    · simpa [hc] using ih

/-- A comment ends before the next one starts: there is a newline between them. -/
theorem apart_comments (position : Nat) (chars : List Char) :
    (tokensFrom position chars).Pairwise fun a b =>
      a.kind = .comment → b.kind = .comment → a.stop < b.start := by
  induction chars using scanning_induction generalizing position with
  | nil => exact List.pairwise_singleton _ _
  | blank c rest hb ih =>
    rw [tokensFrom_blank hb]
    exact ih _
  | token c rest hb ih =>
    rw [tokensFrom_cons hb]
    refine List.pairwise_cons.2 ⟨?_, ih _⟩
    intro b hm hk hbk
    cases drop_of_comment hk with
    | inl hnil =>
      rw [hnil, tokensFrom_nil, List.mem_singleton] at hm
      rw [hm] at hbk
      cases hbk
    | inr hline =>
      obtain ⟨more, hline⟩ := hline
      rw [hline, tokensFrom_cons rfl, lexeme_newline] at hm
      cases List.mem_cons.1 hm with
      | inl he =>
        rw [he] at hbk
        cases hbk
      | inr hm => exact (pairwise_scan _ _ _).1 b hm

namespace Comments

/-- Spans that have no position in common, ends included. -/
def Apart (comments : Comments) : Prop := comments.Pairwise fun a b => a.stop < b.start

variable {comments : Comments} {position : Nat} {span : Span}

theorem mem_of_at? (h : comments.at? position = some span) :
    span ∈ comments ∧ span.containsPosition position = true := by
  obtain ⟨hfind, hcontains⟩ := Option.filter_eq_some_iff.1 h
  exact ⟨List.mem_of_find?_eq_some hfind, hcontains⟩

theorem Apart.find?_eq_some (h : comments.Apart) (hm : span ∈ comments)
    (hc : span.containsPosition position = true) :
    comments.find? (position ≤ ·.stop) = some span := by
  obtain ⟨hstart, hstop⟩ := Span.containsPosition_iff.1 hc
  induction comments with
  | nil => cases hm
  | cons first rest ih =>
    obtain ⟨hfirst, hrest⟩ := List.pairwise_cons.1 h
    cases List.mem_cons.1 hm with
    | inl he =>
      subst he
      exact List.find?_cons_of_pos (by simpa using hstop)
    | inr hm =>
      have hlt := hfirst span hm
      rw [List.find?_cons_of_neg (by simp only [decide_eq_true_eq]; omega)]
      exact ih hrest hm

theorem Apart.at?_eq_some_iff (h : comments.Apart) :
    comments.at? position = some span ↔
      span ∈ comments ∧ span.containsPosition position = true := by
  constructor
  · exact mem_of_at?
  · rintro ⟨hm, hc⟩
    rw [at?, h.find?_eq_some hm hc]
    exact Option.filter_eq_some_iff.2 ⟨rfl, hc⟩

theorem Apart.unique {other : Span} (h : comments.Apart) (hm : span ∈ comments)
    (ho : other ∈ comments) (hc : span.containsPosition position = true)
    (hoc : other.containsPosition position = true) : span = other :=
  Option.some.inj ((h.find?_eq_some hm hc).symm.trans (h.find?_eq_some ho hoc))

/-- Where the comments that end before a position stop and the others start, and that it is there
that a comment is looked for. -/
theorem Apart.bisects (h : comments.Apart) (hle : ∀ span ∈ comments, span.start ≤ span.stop)
    (position : Nat) : ∃ number, (∀ span ∈ comments.take number, span.stop < position) ∧
      (∀ span ∈ comments.drop number, position ≤ span.stop) ∧
      comments.at? position = comments[number]?.filter (·.containsPosition position) := by
  induction comments with
  | nil => exact ⟨0, by simp, by simp, rfl⟩
  | cons first rest ih =>
    obtain ⟨hfirst, hrest⟩ := List.pairwise_cons.1 h
    obtain ⟨hfirstLe, hrestLe⟩ := List.forall_mem_cons.1 hle
    by_cases hstop : first.stop < position
    · obtain ⟨number, hbefore, hafter, hat⟩ := ih hrest hrestLe
      refine ⟨number + 1, ?_, hafter, ?_⟩
      · rw [List.take_succ_cons]
        exact List.forall_mem_cons.2 ⟨hstop, hbefore⟩
      · rw [at?, List.find?_cons_of_neg (by simpa using hstop)]
        exact hat
    · have hposition := Nat.le_of_not_lt hstop
      refine ⟨0, by simp, ?_, ?_⟩
      · rw [List.drop_zero]
        refine List.forall_mem_cons.2 ⟨hposition, ?_⟩
        intro span hm
        have := hfirst span hm
        have := hrestLe span hm
        omega
      · rw [at?, List.find?_cons_of_pos (by simpa using hposition)]
        rfl

end Comments

-- ---------------------------------------------------------------------------
-- Comments and the other tokens
-- ---------------------------------------------------------------------------

theorem merge_filter_not {α : Type} {le : α → α → Bool} (keeps : α → Bool) {list : List α}
    (h : list.Pairwise fun a b => le a b = true ∧ le b a = false) :
    (list.filter keeps).merge (list.filter fun a => !keeps a) le = list := by
  induction list with
  | nil => exact List.nil_merge _
  | cons a rest ih =>
    obtain ⟨hfirst, hrest⟩ := List.pairwise_cons.1 h
    have ih := ih hrest
    cases ha : keeps a with
    | true =>
      rw [List.filter_cons_of_pos ha, List.filter_cons_of_neg (by simp [ha])]
      cases hr : rest.filter fun a => !keeps a with
      | nil =>
        rw [hr, List.merge_right] at ih
        rw [List.merge_right, ih]
      | cons b others =>
        have hb : b ∈ rest := (List.mem_filter.1 (hr ▸ List.mem_cons_self)).1
        rw [hr] at ih
        rw [List.cons_merge_cons_pos _ _ _ (hfirst b hb).1, ih]
    | false =>
      rw [List.filter_cons_of_neg (by simp [ha]), List.filter_cons_of_pos (by simp [ha])]
      cases hl : rest.filter keeps with
      | nil =>
        rw [hl, List.nil_merge] at ih
        rw [List.nil_merge, ih]
      | cons b others =>
        have hb : b ∈ rest := (List.mem_filter.1 (hl ▸ List.mem_cons_self)).1
        rw [hl] at ih
        rw [List.cons_merge_cons_neg _ _ _ (by simp [(hfirst b hb).2]), ih]

def Token.placed (token : Token) : Kind × Span := (token.kind, token.span)

/-- The comments of a document are those among all tokens of its range, and the rest is what its
tokens are. -/
structure Document.CommentsExact (document : Document) (all : List Token) : Prop where
  found : ∀ position span, document.comments.at? position = some span ↔
    (∃ token ∈ all, token.kind = .comment ∧ token.span = span) ∧
      span.start ≤ position ∧ position ≤ span.stop
  unique : ∀ position, ∀ a ∈ all, ∀ b ∈ all, a.kind = .comment → b.kind = .comment →
    a.start ≤ position ∧ position ≤ a.stop → b.start ≤ position ∧ position ≤ b.stop → a = b
  contains : ∀ position, document.comments.contains position = true ↔
    ∃ token ∈ all, token.kind = .comment ∧ token.start ≤ position ∧ position ≤ token.stop
  /-- Bisection on the ends comes to the comment that is looked at. -/
  bisected : ∀ position, ∃ number,
    (∀ span ∈ document.comments.take number, span.stop < position) ∧
      (∀ span ∈ document.comments.drop number, position ≤ span.stop) ∧
      document.comments.at? position =
        document.comments[number]?.filter (·.containsPosition position)
  merged : (document.comments.map (Kind.comment, ·)).merge (document.tokens.map Token.placed)
    (fun a b => a.2.start ≤ b.2.start) = all.map Token.placed
  disjoint : ∀ span ∈ document.comments, ∀ token ∈ document.tokens,
    token.stop ≤ span.start ∨ span.stop ≤ token.start

theorem Token.placed_comment {token : Token} (h : token.kind = .comment) :
    token.placed = (Kind.comment, token.span) :=
  congrArg (·, token.span) h

section
variable (source : String) (range : Span) (text : List Char)

theorem Document.mem_comments {span : Span} : span ∈ (ofText source range text).comments ↔
    ∃ token ∈ tokensFrom range.start text, token.kind = .comment ∧ token.span = span := by
  simp [ofText, ofTokens, and_assoc]

theorem Document.apart_comments : (ofText source range text).comments.Apart := by
  have hapart := LenientR.apart_comments range.start text
  refine List.pairwise_map.2 ((hapart.filter _).imp_of_mem ?_)
  intro a b ha hb hab
  exact hab (of_decide_eq_true (List.mem_filter.1 ha).2)
    (of_decide_eq_true (List.mem_filter.1 hb).2)

theorem Document.merge_comments :
    ((ofText source range text).comments.map (Kind.comment, ·)).merge
      ((ofText source range text).tokens.map Token.placed) (fun a b => a.2.start ≤ b.2.start) =
        (tokensFrom range.start text).map Token.placed := by
  let isComment (token : Token) : Bool := token.kind = .comment
  let all := tokensFrom range.start text
  have hcomments : (ofText source range text).comments.map (Kind.comment, ·) =
      (all.filter isComment).map Token.placed := by
    rw [show (ofText source range text).comments = (all.filter isComment).map Token.span from rfl,
      List.map_map]
    refine List.map_congr_left ?_
    intro token hm
    exact (Token.placed_comment (of_decide_eq_true (List.mem_filter.1 hm).2)).symm
  have htokens : (ofText source range text).tokens = all.filter fun token => !isComment token := by
    simp [ofText, ofTokens, all, isComment]
  have hordered : all.Pairwise fun a b =>
      decide (a.start ≤ b.start) = true ∧ decide (b.start ≤ a.start) = false := by
    refine (pairwise_scan _ _ _).2.imp ?_
    intro a b hlt
    exact ⟨decide_eq_true (Nat.le_of_lt hlt), decide_eq_false (Nat.not_le_of_lt hlt)⟩
  rw [hcomments, htokens, ← List.map_merge (r := fun a b => decide (a.start ≤ b.start))
    fun _ _ _ _ => rfl, merge_filter_not isComment hordered]

theorem Document.commentsExact_ofText :
    (ofText source range text).CommentsExact (tokensFrom range.start text) := by
  have hbefore : (tokensFrom range.start text).Pairwise Token.Before := (before_scan _ _ _).2
  have hmem (span : Span) := @mem_comments source range text span
  have hapart := apart_comments source range text
  have hle : ∀ span ∈ (ofText source range text).comments, span.start ≤ span.stop := by
    intro span hm
    obtain ⟨token, _, _, rfl⟩ := (hmem span).1 hm
    exact Nat.le_add_right _ _
  have hfound (position : Nat) (span : Span) :
      (ofText source range text).comments.at? position = some span ↔
        (∃ token ∈ tokensFrom range.start text, token.kind = .comment ∧ token.span = span) ∧
          span.start ≤ position ∧ position ≤ span.stop := by
    rw [hapart.at?_eq_some_iff, hmem, Span.containsPosition_iff]
  exact {
    found := hfound
    unique := by
      intro position a ha b hb hak hbk hpa hpb
      have hspan : a.span = b.span := hapart.unique ((hmem _).2 ⟨a, ha, hak, rfl⟩)
        ((hmem _).2 ⟨b, hb, hbk, rfl⟩) (Span.containsPosition_iff.2 hpa)
        (Span.containsPosition_iff.2 hpb)
      -- tokens that start at the same place are the same
      have hnodup : ((tokensFrom range.start text).map Token.start).Nodup :=
        List.pairwise_map.2 ((pairwise_scan _ _ _).2.imp Nat.ne_of_lt)
      exact List.inj_on_of_nodup_map hnodup ha hb (congrArg Span.start hspan)
    contains := by
      intro position
      rw [Comments.contains, Option.isSome_iff_exists]
      constructor
      · rintro ⟨span, h⟩
        obtain ⟨⟨token, hm, hk, rfl⟩, hp⟩ := (hfound position span).1 h
        exact ⟨token, hm, hk, hp⟩
      · rintro ⟨token, hm, hk, hp⟩
        exact ⟨token.span, (hfound position _).2 ⟨⟨token, hm, hk, rfl⟩, hp⟩⟩
    bisected := hapart.bisects hle
    merged := merge_comments source range text
    disjoint := by
      intro span hs token ht
      obtain ⟨comment, hc, hk, rfl⟩ := (hmem span).1 hs
      obtain ⟨ht, hne⟩ := List.mem_filter.1 ht
      let apart (a b : Token) : Prop := b.stop ≤ a.start ∨ a.stop ≤ b.start
      have : Std.Symm apart := ⟨fun _ _ => Or.symm⟩
      have happart : (tokensFrom range.start text).Pairwise apart :=
        hbefore.imp fun hab => .inr hab.2
      refine happart.forall hc ht ?_
      rintro rfl
      exact of_decide_eq_true hne hk }

end

/-- A position is in a comment exactly where a comment of the range is, which is the only one
there, and the comments and the other tokens are together all there is in the range. -/
theorem Document.commentsExact {source : String} {range : Span}
    (hstart : Text.IsBoundary source.toList (range.cut (Text.byteSize source.toList)).start)
    (hstop : Text.IsBoundary source.toList (range.cut (Text.byteSize source.toList)).stop) :
    ∃ document all, parseRange? source range = some document ∧
      tokeniseRange? source range = some all ∧ document.CommentsExact all := by
  let within := range.cut (Text.byteSize source.toList)
  obtain ⟨text, htext⟩ := Text.exists_slice? hstart hstop (Nat.min_le_right _ _)
  refine ⟨ofText source within text, tokensFrom within.start text, ?_, ?_,
    commentsExact_ofText source within text⟩
  · rw [parseRange?_eq]
    exact congrArg (Option.map _) htext
  · rw [tokeniseRange?_eq]
    exact congrArg (Option.map _) htext

/-- Two comments on lines that follow each other, in a range that starts within the first one and
goes on past the end. -/
theorem Document.commentsExact_lines :
    Text.IsBoundary "x # é\n# b".toList 2 ∧ Text.IsBoundary "x # é\n# b".toList 10 ∧
      ∃ document all, parseRange? "x # é\n# b" ⟨2, 40⟩ = some document ∧
        tokeniseRange? "x # é\n# b" ⟨2, 40⟩ = some all ∧ document.CommentsExact all ∧
          document.comments = [⟨2, 6⟩, ⟨7, 10⟩] := by
  have hstart : Text.IsBoundary "x # é\n# b".toList 2 := ⟨"x ".toList, "# é\n# b".toList, rfl, rfl⟩
  have hstop : Text.IsBoundary "x # é\n# b".toList 10 := ⟨"x # é\n# b".toList, [], rfl, rfl⟩
  obtain ⟨document, all, hd, ha, hexact⟩ := @commentsExact _ ⟨2, 40⟩ hstart hstop
  refine ⟨hstart, hstop, document, all, hd, ha, hexact, ?_⟩
  have hcomments : (parseRange? "x # é\n# b" ⟨2, 40⟩).map comments = some [⟨2, 6⟩, ⟨7, 10⟩] := by
    rw [parseRange?_eq]
    decide +kernel
  rw [hd] at hcomments
  exact Option.some.inj hcomments

end LenientR
