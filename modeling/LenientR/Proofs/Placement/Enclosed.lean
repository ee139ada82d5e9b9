import LenientR.Proofs.Grammar.Modes
import LenientR.Proofs.Placement.Joined
import LenientR.Proofs.Placement.Newlines

/-!
# Texts within brackets

A text without problems can be put between brackets, the closing one on a line of its own: in curly
brackets it is read as the same statements, in round brackets a single one is read as the same
expression (`Document.parse_enclosed`).
-/

namespace LenientR

open Trace

structure Document.IsJust (document : Document) (e : Expr) : Prop where
  valid : document.isValid = true
  roots : document.roots = [e]

def Document.code (document : Document) : List Token :=
  document.tokens.filter (!·.kind.isLayout)

/-- No semicolon stands between or around the statements. -/
def Document.SemicolonsWithin (document : Document) : Prop :=
  ∀ token ∈ document.tokens, token.kind = .semicolon →
    ∃ e ∈ document.roots, ∃ span ∈ e.span, span.start ≤ token.start ∧ token.start < span.stop

-- ---------------------------------------------------------------------------
-- Tokens
-- ---------------------------------------------------------------------------

/-- What a text of some size is scanned to in front of any other. -/
structure Opens (front : String) (heads : List Token) (offset : Nat) : Prop where
  scanned : ∀ more, tokensFrom 0 (front.toList ++ more) = heads ++ tokensFrom offset more
  code : ∀ token ∈ heads, token.kind ≠ .comment

structure Closes (c : Char) (kind : Kind) : Prop where
  scanned : ∀ position, tokensFrom position [c] =
    [⟨kind, position, [c]⟩, endToken (position + 1)]
  code : kind ≠ .comment

theorem Document.tokens_enclosed {front source : String} {heads : List Token} {offset : Nat}
    {c : Char} {kind : Kind} (hf : Opens front heads offset) (hc : Closes c kind)
    (hv : (parse source).isValid = true) :
    let stop := Text.byteSize source.toList + offset
    ∃ body, (parse source).tokens.map (Token.shift offset) = body ++ [endToken stop] ∧
      (parse (front ++ source ++ String.ofList ['\n', c])).tokens = heads ++
        (body ++ [⟨.endOfLine, stop, ['\n']⟩, ⟨kind, stop + 1, [c]⟩, endToken (stop + 2)]) := by
  intro stop
  obtain ⟨own, hown⟩ := exists_tokensFrom offset source.toList
  have hstop : offset + Text.byteSize source.toList = stop := Nat.add_comm ..
  have hshift : tokensFrom offset source.toList = (tokenise source).map (Token.shift offset) := by
    rw [tokenise, ← tokensFrom_add, Nat.zero_add]
  have hbody : (parse source).tokens.map (Token.shift offset) =
      own.filter (·.kind ≠ .comment) ++ [endToken stop] := by
    have hend : [endToken stop].filter (·.kind ≠ .comment) = [endToken stop] := rfl
    rw [← hend, ← List.filter_append, ← hstop, ← hown, hshift, List.filter_map]
    rfl
  -- no string is open at the end of the text, so the newline after it is a token
  have hquoted : ∀ token ∈ own, token.kind ≠ .unterminatedString := by
    intro token hm
    have hall : token ∈ (tokenise source).map (Token.shift offset) := by
      rw [← hshift, hown]
      exact List.mem_append_left _ hm
    obtain ⟨found, hfound, rfl⟩ := List.mem_map.1 hall
    exact not_unterminated_of_isValid hv found hfound
  refine ⟨_, hbody, ?_⟩
  have hchars : (front ++ source ++ String.ofList ['\n', c]).toList =
      front.toList ++ (source.toList ++ '\n' :: [c]) := by
    simp
  have hall : tokenise (front ++ source ++ String.ofList ['\n', c]) = heads ++
      (own ++ [⟨.endOfLine, stop, ['\n']⟩, ⟨kind, stop + 1, [c]⟩, endToken (stop + 2)]) := by
    rw [tokenise, hchars, hf.scanned, tokensFrom_append_newline hown hquoted, hc.scanned, hstop]
  have hheads : heads.filter (·.kind ≠ .comment) = heads :=
    List.filter_eq_self.2 fun token hm => decide_eq_true (hf.code token hm)
  have htail : ([⟨.endOfLine, stop, ['\n']⟩, ⟨kind, stop + 1, [c]⟩, endToken (stop + 2)] :
      List Token).filter (·.kind ≠ .comment) = _ :=
    List.filter_eq_self.2 (by simp [endToken, hc.code])
  have htokens : (parse (front ++ source ++ String.ofList ['\n', c])).tokens =
      (tokenise (front ++ source ++ String.ofList ['\n', c])).filter (·.kind ≠ .comment) := rfl
  rw [htokens, hall, List.filter_append, List.filter_append, hheads, htail]

theorem Document.IsJust.covers {source : String} {e : Expr} (h : (parse source).IsJust e) :
    Covers (parse source).code e.span := by
  have hroots : (parse source).forest.parts = [.child e.outline] := by
    rw [parts_eq, h.roots]
    rfl
  have hm : e.outline ∈ (parse source).forest.parts.filterMap Part.outline? := by
    rw [hroots]
    exact List.mem_singleton_self _
  have htokens : e.outline.tokens = (parse source).code := by
    have hyield := tokens_parts_of_isValid h.valid
    change Part.tokens (parse source).forest.parts = _ at hyield
    rw [hroots, Part.tokens, Part.tokens, List.append_nil] at hyield
    exact hyield
  rw [← htokens]
  exact ((placed_of_isValid h.valid).child hm).covers fun _ _ => .inr

theorem Kind.isLayout_of_separates {kind : Kind} (h : kind.separates = true) :
    kind.isLayout = true := by
  cases kind <;> first | rfl | cases h

theorem filter_eq_nil_of_separates {tokens : List Token}
    (h : ∀ token ∈ tokens, token.kind.separates = true) :
    tokens.filter (!·.kind.isLayout) = [] :=
  List.filter_eq_nil_iff.2 fun token hm => by simp [Kind.isLayout_of_separates (h token hm)]

/-- Where the only statement of a text has all semicolons in it, only newlines are around it. -/
theorem Document.endOfLine_of_semicolonsWithin {source : String} {e : Expr}
    (h : (parse source).IsJust e) (hs : (parse source).SemicolonsWithin)
    {front own back : List Token} {last : Token}
    (ht : (parse source).tokens = front ++ (own ++ (back ++ [last])))
    (hsep : ∀ token ∈ front ++ back, token.kind.separates = true)
    (hl : last.kind = .endOfFile) : ∀ token ∈ front ++ back, token.kind = .endOfLine := by
  intro token hm
  rcases Bool.or_eq_true .. ▸ hsep token hm with hk | hk
  · exact of_decide_eq_true hk
  obtain ⟨hfront, hback⟩ := List.forall_mem_append.1 hsep
  have hlast : [last].filter (!·.kind.isLayout) = [] := by simp [hl, Kind.isLayout]
  have hall : token ∈ (parse source).tokens := by
    rw [ht]
    rcases List.mem_append.1 hm with hm | hm
    · exact List.mem_append_left _ hm
    · exact List.mem_append_right _ (List.mem_append_right _ (List.mem_append_left _ hm))
  obtain ⟨root, hroot, span, hspan, hstart, hstop⟩ := hs token hall (of_decide_eq_true hk)
  rw [h.roots] at hroot
  obtain rfl := List.mem_singleton.1 hroot
  -- the node starts and ends with tokens of its own
  have hcovers := h.covers
  rw [hspan, code, ht, List.filter_append, List.filter_append, List.filter_append,
    filter_eq_nil_of_separates hfront, filter_eq_nil_of_separates hback, hlast, List.nil_append,
    List.append_nil, List.append_nil] at hcovers
  obtain ⟨_, ⟨x, hx, hxs⟩, ⟨y, hy, hye⟩⟩ := hcovers
  have hx := (List.mem_filter.1 hx).1
  have hy := (List.mem_filter.1 hy).1
  have hbefore : (parse source).tokens.Pairwise Token.Before := before_tokens ..
  rw [ht] at hbefore
  obtain ⟨_, hrest, hfirst⟩ := List.pairwise_append.1 hbefore
  obtain ⟨_, _, hafter⟩ := List.pairwise_append.1 hrest
  rcases List.mem_append.1 hm with hm | hm
  · obtain ⟨_, hle⟩ := hfirst token hm x (List.mem_append_left _ hx)
    have := token.start_le_stop
    omega
  · obtain ⟨_, hle⟩ := hafter y hy token (List.mem_append_left _ hm)
    omega

-- ---------------------------------------------------------------------------
-- Trees
-- ---------------------------------------------------------------------------

theorem Document.grown_shift {source : String} (hv : (parse source).isValid = true) {offset : Nat}
    {body : List Token} {last : Token}
    (hb : (parse source).tokens.map (Token.shift offset) = body ++ [last]) :
    Expr.GrownAll .top ((parse source).roots.map (Expr.shift offset)) (body ++ [last]) [last] := by
  obtain ⟨final, _, hg⟩ := grown_of_isValid hv
  have hends : EndsOnce (parse source).tokens := endsOnce_tokens ..
  have hmoved := Expr.grownAll_move hends hg (Token.onBy offset)
  obtain ⟨own, hown, _⟩ := Expr.local_grownAll .top _ _ _ hmoved
  have hlast : [last] = [final.shift offset] := (List.append_inj' (hb.symm.trans hown) rfl).2
  change Expr.GrownAll .top _ ((parse source).tokens.map (Token.shift offset))
    [final.shift offset] at hmoved
  rwa [hb, ← hlast] at hmoved

theorem Document.isJust_of_grown {source : String} {e : Expr} {tokens : List Token} {last : Token}
    (ht : (parse source).tokens = tokens) (h : e.Grown .help .top tokens [last])
    (hk : last.kind = .endOfFile) : (parse source).IsJust e := by
  subst ht
  obtain ⟨hproblems, hroots, _⟩ :=
    (Reading.readAll_iff (endsOnce_tokens ..) _ _).2 (Expr.grownAll_of_grown h hk)
  exact ⟨isValid_iff.2 hproblems, hroots⟩

/-- Tokens that are read as an expression in any mode: `first` and `more`, with nothing but newlines
in `front` of them and at their `back`, where they are followed by `last`. -/
structure Expr.ReadAmid (e : Expr) (front : List Token) (first : Token) (more back : List Token)
    (last : Token) : Prop where
  before : ∀ token ∈ front, token.kind = .endOfLine
  behind : ∀ token ∈ back, token.kind = .endOfLine
  starts : first.kind.startsExpression = true
  grown : ∀ m c, Suits m (back ++ [last]) c → e.Grown .help m (first :: (more ++ c)) (m.settle c)

theorem Document.IsJust.exists_readAmid {source : String} {e : Expr} (h : (parse source).IsJust e)
    (hs : (parse source).SemicolonsWithin) {offset : Nat} {body : List Token} {last : Token}
    (hb : (parse source).tokens.map (Token.shift offset) = body ++ [last])
    (hk : last.kind = .endOfFile) : ∃ front first more back,
      body = front ++ first :: (more ++ back) ∧
        (e.shift offset).ReadAmid front first more back last := by
  have hg := grown_shift h.valid hb
  rw [h.roots] at hg
  obtain ⟨front, first, more, back, hbody, hsep, hstarts, _, hread⟩ := Expr.grownAll_singleton hg
  have hown : body = front ++ first :: (more ++ back) := by
    have hall : body ++ [last] = (front ++ first :: (more ++ back)) ++ [last] := by
      simpa using hbody
    exact List.append_cancel_right hall
  suffices hlines : ∀ token ∈ front ++ back, token.kind = .endOfLine by
    obtain ⟨hfront, hback⟩ := List.forall_mem_append.1 hlines
    exact ⟨front, first, more, back, hown, hfront, hback, hstarts, hread⟩
  -- the same tokens where they are in their own text
  rw [hown] at hb
  obtain ⟨own, final, ht, hown, hfinal⟩ := List.map_eq_append_iff.1 hb
  obtain ⟨before, rest, rfl, rfl, hrest⟩ := List.map_eq_append_iff.1 hown
  obtain ⟨start, rest, rfl, rfl, hinner⟩ := List.map_eq_cons_iff.1 hrest
  obtain ⟨others, after, rfl, rfl, rfl⟩ := List.map_eq_append_iff.1 hinner
  obtain ⟨final, rfl, rfl⟩ := List.map_eq_singleton_iff.1 hfinal
  have hkept : ∀ token ∈ before ++ after, token.kind = .endOfLine := by
    have hall : (parse source).tokens = before ++ ((start :: others) ++ (after ++ [final])) := by
      simpa using ht
    rw [← List.map_append] at hsep
    exact endOfLine_of_semicolonsWithin h hs hall (List.forall_mem_map.1 hsep) hk
  rw [← List.map_append]
  exact List.forall_mem_map.2 hkept

namespace Expr.ReadAmid

variable {e : Expr} {front more back : List Token} {first last line closing : Token}

theorem skipLines_eq (h : e.ReadAmid front first more back last) (rest : List Token) :
    skipLines (front ++ first :: (more ++ back) ++ rest) = first :: (more ++ (back ++ rest)) := by
  have hfirst : first.kind ≠ .endOfLine := fun he => by
    have hstarts := h.starts
    rw [he] at hstarts
    cases hstarts
  have hskip : skipLines (front ++ first :: (more ++ (back ++ rest))) =
      skipLines (first :: (more ++ (back ++ rest))) :=
    List.dropWhile_append_of_pos (by simpa using h.before)
  rw [List.append_assoc, List.cons_append, List.append_assoc, hskip]
  exact skipLines_of_ne hfirst

theorem grown_top (h : e.ReadAmid front first more back last) :
    e.Grown .help .top (first :: (more ++ (back ++ [last]))) (back ++ [last]) :=
  h.grown .top _ ⟨.inl rfl, id⟩

/-- Within brackets only the closing one is seen behind the expression, on a later line or not. -/
theorem settle_back (h : e.ReadAmid front first more back last) (hl : line.kind = .endOfLine)
    (hc : closing.kind = .rightParen) (after : List Token) :
    Mode.top.bracketed.settle (back ++ line :: closing :: after) = closing :: after := by
  have hback : skipLines (back ++ line :: closing :: after) =
      skipLines (line :: closing :: after) :=
    List.dropWhile_append_of_pos (by simpa using h.behind)
  have hline : skipLines (line :: closing :: after) = skipLines (closing :: after) :=
    List.dropWhile_cons_of_pos (decide_eq_true hl)
  exact hback.trans (hline.trans (skipLines_of_ne (by simp [hc])))

theorem grown_bracketed (h : e.ReadAmid front first more back last) (hl : line.kind = .endOfLine)
    (hc : closing.kind = .rightParen) (after : List Token) :
    e.Grown .help Mode.top.bracketed
      (skipLines (front ++ first :: (more ++ back) ++ line :: closing :: after))
      (closing :: after) := by
  have hsettle := h.settle_back hl hc after
  have hsuits : Suits Mode.top.bracketed (back ++ [last]) (back ++ line :: closing :: after) := by
    refine ⟨.inr ?_, fun helse => ?_⟩
    · rw [hsettle, headKind_cons, hc]
      rfl
    · rw [hsettle] at helse
      exact absurd (hc.symm.trans helse) nofun
  have hgrown := h.grown _ _ hsuits
  rwa [hsettle, ← h.skipLines_eq] at hgrown

end Expr.ReadAmid

theorem Expr.grown_block {es : List Expr} {body : List Token} {opening line closing last : Token}
    (h : Expr.GrownAll .top es (body ++ [last]) [last]) (ho : opening.kind = .leftCurly)
    (hl : line.kind = .endOfLine) (hc : closing.kind = .rightCurly) (after : List Token) :
    (Expr.block opening es (some closing)).Grown .help .top
      (opening :: (body ++ line :: closing :: after)) after := by
  obtain ⟨own, hown, hblock⟩ := Expr.grownAll_block hl hc after h
  obtain rfl := List.append_cancel_right hown
  simp only [Expr.Grown]
  exact ⟨closing :: after, ⟨_, ⟨decide_eq_true ho, _, rfl, rfl⟩, hblock⟩, decide_eq_true hc, _, rfl,
    rfl⟩

theorem Expr.grown_group {e : Expr} {inner : List Token} {opening closing : Token}
    {after : List Token} (h : e.Grown .help Mode.top.bracketed (skipLines inner) (closing :: after))
    (ho : opening.kind = .leftParen) (hc : closing.kind = .rightParen) :
    (Expr.group opening e (some closing)).Grown .help .top (opening :: inner) after := by
  have hstop : Level.help.admits (headKind (closing :: after)) = false := by
    rw [headKind_cons, hc]
    rfl
  simp only [Expr.Grown]
  exact ⟨closing :: after, ⟨_, ⟨_, ⟨_, ⟨decide_eq_true ho, _, rfl, rfl⟩, rfl⟩, h⟩, hstop, rfl⟩,
    decide_eq_true hc, _, rfl, rfl⟩

theorem opens_leftCurly : Opens "\x7b" [⟨.leftCurly, 0, ['\x7b']⟩] 1 := ⟨fun _ => rfl, by simp⟩

theorem opens_leftParen : Opens "(" [⟨.leftParen, 0, ['(']⟩] 1 := ⟨fun _ => rfl, by simp⟩

theorem closes_rightCurly : Closes '\x7d' .rightCurly := ⟨fun _ => rfl, nofun⟩

theorem closes_rightParen : Closes ')' .rightParen := ⟨fun _ => rfl, nofun⟩

section
variable {source : String}

theorem Document.isJust_block (hv : (parse source).isValid = true) :
    (parse ("\x7b" ++ source ++ "\n\x7d")).IsJust
      (.block ⟨.leftCurly, 0, ['\x7b']⟩ ((parse source).roots.map (Expr.shift 1))
        (some ⟨.rightCurly, Text.byteSize source.toList + 2, ['\x7d']⟩)) := by
  obtain ⟨body, hbody, htokens⟩ := tokens_enclosed opens_leftCurly closes_rightCurly hv
  exact isJust_of_grown htokens (Expr.grown_block (grown_shift hv hbody) rfl rfl rfl _) rfl

theorem Document.isJust_group {e : Expr} (h : (parse source).IsJust e)
    (hs : (parse source).SemicolonsWithin) :
    (parse ("(" ++ source ++ "\n)")).IsJust
      (.group ⟨.leftParen, 0, ['(']⟩ (e.shift 1)
        (some ⟨.rightParen, Text.byteSize source.toList + 2, [')']⟩)) := by
  obtain ⟨body, hbody, htokens⟩ := tokens_enclosed opens_leftParen closes_rightParen h.valid
  obtain ⟨front, first, more, back, rfl, hread⟩ := h.exists_readAmid hs hbody rfl
  exact isJust_of_grown htokens (Expr.grown_group (hread.grown_bracketed rfl rfl _) rfl rfl) rfl

/-- The nodes of a text further on, spans and all, are those of its trees further on. -/
theorem Document.outline_shift (offset : Nat) (source : String) :
    ((parse source).roots.map (Expr.shift offset)).map Expr.outline =
      (parse source).forest.map (Outline.shift offset) :=
  forest_shift offset source

theorem Expr.children_block (opening : Token) (es : List Expr) (closing : Token) :
    (Expr.block opening es (some closing)).outline.children = es.map Expr.outline := by
  have hes : (Expr.outlines es).filterMap Part.outline? = es.map Expr.outline := by
    induction es with
    | nil => rfl
    | cons e rest ih => exact congrArg (e.outline :: ·) ih
  rw [← hes, ← List.append_nil ((Expr.outlines es).filterMap Part.outline?)]
  exact List.filterMap_append

/-- A text without problems can be put between brackets, the closing one on a line of its own. In
curly brackets its statements are those of a block, and in round brackets a single statement, with
no semicolon after it, is that of a group: the nodes below are those of the text, one byte further
on. -/
theorem Document.parse_enclosed (source : String) (hv : (parse source).isValid = true) :
    let stop := Text.byteSize source.toList + 2
    let block : Expr := .block ⟨.leftCurly, 0, ['\x7b']⟩ ((parse source).roots.map (Expr.shift 1))
      (some ⟨.rightCurly, stop, ['\x7d']⟩)
    let group (e : Expr) : Expr :=
      .group ⟨.leftParen, 0, ['(']⟩ (e.shift 1) (some ⟨.rightParen, stop, [')']⟩)
    let below := (parse source).forest.map (Outline.shift 1)
    (parse ("\x7b" ++ source ++ "\n\x7d")).IsJust block ∧ block.outline.children = below ∧
      ∀ e, (parse source).roots = [e] → (parse source).SemicolonsWithin →
        (parse ("(" ++ source ++ "\n)")).IsJust (group e) ∧
          (group e).outline.children = below := by
  intro stop block group below
  refine ⟨isJust_block hv, ?_, fun e hroots hs => ⟨isJust_group ⟨hv, hroots⟩ hs, ?_⟩⟩
  · exact (Expr.children_block ..).trans (outline_shift 1 source)
  · have hbelow := outline_shift 1 source
    rw [hroots] at hbelow
    exact hbelow

theorem Document.parse_enclosed_comment :
    let source := "if (a) \x7bb; c\x7d else\nd # e"
    let stop := Text.byteSize source.toList + 2
    (parse source).isValid = true ∧ (parse source).SemicolonsWithin ∧
      ∃ e, (parse source).roots = [e] ∧
        (parse ("\x7b" ++ source ++ "\n\x7d")).IsJust
          (.block ⟨.leftCurly, 0, ['\x7b']⟩ [e.shift 1] (some ⟨.rightCurly, stop, ['\x7d']⟩)) ∧
        (parse ("(" ++ source ++ "\n)")).IsJust
          (.group ⟨.leftParen, 0, ['(']⟩ (e.shift 1) (some ⟨.rightParen, stop, [')']⟩)) := by
  intro source stop
  have hv : (parse source).isValid = true := by decide +kernel
  have hs : (parse source).SemicolonsWithin := by
    unfold SemicolonsWithin
    decide +kernel
  have hone : (parse source).roots.length = 1 := by decide +kernel
  obtain ⟨e, hroots⟩ := List.length_eq_one_iff.1 hone
  obtain ⟨hblock, _, hgroup⟩ := parse_enclosed source hv
  rw [hroots] at hblock
  exact ⟨hv, hs, e, hroots, hblock, (hgroup e hroots hs).1⟩

end

end LenientR
