import LenientR.Proofs.Grammar.Local
import LenientR.Proofs.Placement.Range
import LenientR.Proofs.Scanning.Lines

/-!
# Texts one after another

A text whose last line is ended can be followed by any other text: both are scanned as they would be
alone, the second one further on (`tokenise_append_of_line`). If the first text has no problems, both
are read as they would be alone, too (`Document.parse_append`). Nothing that is known at the end of
the first text, the token gone over last included, makes a difference to the second one.
-/

namespace LenientR

open Trace

namespace Reading

-- ---------------------------------------------------------------------------
-- What was gone over before
-- ---------------------------------------------------------------------------

namespace State

def since (previous : Option Token) (s : State) : State := { s with previous := previous }

theorem advance_since {s : State} (hl : s.kind ≠ .endOfLine) (hf : s.kind ≠ .endOfFile)
    (previous : Option Token) : (s.since previous).advance = s.advance := by
  cases hr : s.rest with
  | nil => exact absurd (kind_nil hr) hf
  | cons token rest =>
    rw [kind_cons hr] at hl hf
    simp [advance, since, hr, hl, hf]

theorem separators_since (previous : Option Token) (s : State) :
    ∃ before, (s.since previous).skipSeparators = s.skipSeparators.since before := by
  refine ⟨(separators previous s.rest).1, ?_⟩
  have hrest : (separators previous s.rest).2 = (separators s.previous s.rest).2 := by
    rw [separators_eq_dropWhile, separators_eq_dropWhile]
  simp only [skipSeparators, since, hrest]

end State

theorem State.recover_since {stops : Kind → Bool} {s : State} (hl : s.kind ≠ .endOfLine)
    (hf : s.kind ≠ .endOfFile) (hs : ¬(s.kind = .rightCurly ∨ stops s.kind = true))
    (previous : Option Token) : (s.since previous).recover stops = s.recover stops := by
  cases hr : s.rest with
  | nil => exact absurd (kind_nil hr) hf
  | cons token rest =>
    rw [kind_cons hr] at hl hf hs
    have hgo (before : Option Token) : seek stops 0 before (token :: rest) =
        seek stops (depthAfter 0 token.kind) (some token) rest := by
      have hstop : ¬(token.kind = .endOfFile ∨ 0 = 0 ∧
          (token.kind = .rightCurly ∨ stops token.kind = true)) :=
        fun h => h.elim hf fun h => hs h.2
      rw [seek, if_neg hstop, if_neg hl]
    simp only [recover, since, hr, hgo]

theorem readStatement_since {bound : Nat} {s : State} (hf : s.kind ≠ .endOfFile)
    (hc : s.kind ≠ .rightCurly) (hl : s.kind ≠ .endOfLine) (hs : s.kind ≠ .semicolon)
    (previous : Option Token) :
    (readStatement (readExprWithin bound)).run (s.since previous) =
      (readStatement (readExprWithin bound)).run s := by
  let stops (kind : Kind) : Bool := kind = .endOfLine || kind = .semicolon
  let finish (e : Expr) : Action Expr := do
    recoverIfNeeded stops
    endStatement
    pure e
  have habsent :
      (readAbsent >>= finish).run (s.since previous) = (readAbsent >>= finish).run s := by
    let failed := (readAbsent.run s).2
    have hfinish (t : State) : (readAbsent >>= finish).run t =
        ((readAbsent.run t).1, (endStatement.run ((readAbsent.run t).2.recover stops)).2) := rfl
    have hsince : (readAbsent.run (s.since previous)).2 = failed.since previous := rfl
    have hstop : ¬(failed.kind = .rightCurly ∨ stops failed.kind = true) := by
      rintro (h | h)
      · exact hc h
      · rcases Bool.or_eq_true .. ▸ h with h | h
        · exact hl (of_decide_eq_true h)
        · exact hs (of_decide_eq_true h)
    have hrecover : (failed.since previous).recover stops = failed.recover stops :=
      State.recover_since (s := failed) hl hf hstop previous
    rw [hfinish, hfinish, hsince, hrecover]
    rfl
  have hrun (t : State) : (readStatement (readExprWithin bound)).run t =
      (readExprWithin bound .help >>= finish).run t := rfl
  rw [hrun, hrun]
  cases bound with
  | zero => exact habsent
  | succ bound =>
    have hkind : (s.since previous).kind = s.kind := rfl
    simp only [readExprWithin, bind_assoc, run_look_bind, hkind]
    by_cases h : s.kind.endsExpression = true
    · simp only [if_pos h]
      exact habsent
    · simp only [if_neg h, bind_assoc]
      have hadvance : advance.run (s.since previous) = advance.run s :=
        congrArg (Prod.mk s.current) (s.advance_since hl hf previous)
      simp only [run_bind, hadvance]

theorem readStatements_since (bound count : Nat) (s : State) (previous : Option Token) :
    ((readStatements (readExprWithin bound) count).run (s.since previous)).1 =
        ((readStatements (readExprWithin bound) count).run s).1 ∧
      ((readStatements (readExprWithin bound) count).run (s.since previous)).2.problems =
        ((readStatements (readExprWithin bound) count).run s).2.problems := by
  cases count with
  | zero => exact ⟨rfl, rfl⟩
  | succ count =>
    obtain ⟨before, hskip⟩ := State.separators_since previous s
    obtain ⟨hl, hs⟩ := s.kind_skipSeparators
    rw [run_readStatements_succ, run_readStatements_succ, hskip]
    generalize s.skipSeparators = t at hl hs ⊢
    have hlast : (t.since before).atLastStatement = t.atLastStatement := rfl
    have hkind : (t.since before).kind = t.kind := rfl
    rw [hlast, hkind]
    by_cases h : t.atLastStatement = true
    · simp only [if_pos h]
      exact ⟨rfl, rfl⟩
    simp only [if_neg h]
    have hf : t.kind ≠ .endOfFile := fun he => h (by simp [State.atLastStatement, he])
    by_cases hc : t.kind.closesBracket = true
    · simp only [if_pos hc]
      have hadvance :=
        State.advance_since (s := t.report (.unmatchedClosing t.current)) hl hf before
      have hstep (u : State) : (do
          reportCurrent .unmatchedClosing
          let _ ← advance
          readStatements (readExprWithin bound) count : Action (List Expr)).run u =
          (readStatements (readExprWithin bound) count).run
            (u.report (.unmatchedClosing u.current)).advance := rfl
      have hreport : (t.since before).report (.unmatchedClosing (t.since before).current) =
          (t.report (.unmatchedClosing t.current)).since before := rfl
      rw [hstep, hstep, hreport, hadvance]
      exact ⟨rfl, rfl⟩
    · simp only [if_neg hc]
      have hcurly : t.kind ≠ .rightCurly := fun he => hc (by rw [he]; rfl)
      simp only [run_bind, readStatement_since hf hcurly hl hs before, and_self]

theorem readStatements_of_rest {tokens : List Token} (h : EndsOnce tokens) {s : State}
    (hs : s.Clean) (hm : s.mode = .top) (hr : s.rest = tokens) :
    let found := (readStatements (readExprWithin tokens.length) tokens.length).run s
    found.1 = (readAll tokens).1 ∧ found.2.problems = (readAll tokens).2.problems := by
  have hstart : s = ((State.start tokens).since s.previous).move Token.start s.completed := by
    obtain ⟨rest, previous, skips, depth, recovering, problems, completed⟩ := s
    obtain ⟨rfl, rfl⟩ := hs
    simp only [State.mode, Mode.top, Mode.mk.injEq, decide_eq_false_iff_not, Nat.not_lt,
      Nat.le_zero] at hm
    obtain ⟨rfl, rfl⟩ := hm
    obtain rfl := hr
    simp [State.move, State.since, State.start]
  have he : ((State.start tokens).since s.previous).Ended := h.ended_start
  have hreaders : ReadersCorrespond Token.start s.completed tokens.length
      (readExprWithin tokens.length) (readExprWithin tokens.length) :=
    corresponds_readExprWithin (Nat.le_refl _) (Nat.le_refl _)
  have hrun := corresponds_readStatements hreaders (engages_readExprWithin _) (Nat.le_refl _)
    (Nat.le_refl _) _ he (Nat.le_refl _)
  rw [← hstart] at hrun
  obtain ⟨hroots, hproblems⟩ :=
    readStatements_since tokens.length tokens.length (State.start tokens) s.previous
  rw [hrun]
  simp only [State.move, funext Expr.move_start, funext Problem.move_start, List.map_id']
  exact ⟨hroots, hproblems⟩

-- ---------------------------------------------------------------------------
-- Statements in front
-- ---------------------------------------------------------------------------

def separated (m : Mode) (e : Expr) : Trace :=
  Trace.separators * e.Grown .help m * stop .help * statementEnd

theorem firm_separated (m : Mode) (e : Expr) : (separated m e).Firm m :=
  ((local_separators.mul_firm (e.firm_grown .help m)).mul_stop .help).mul_check
    fun _ _ hb h => hb.head ▸ h

def EndsLine (tokens : List Token) : Prop :=
  ∃ before line, tokens = before ++ [line] ∧ line.kind = .endOfLine

theorem EndsLine.after {before after : List Token} {token : Token}
    (h : EndsLine (before ++ token :: after)) (hk : token.kind ≠ .endOfLine) : EndsLine after := by
  obtain ⟨front, line, he, hl⟩ := h
  rcases List.eq_nil_or_concat after with rfl | ⟨init, last, rfl⟩
  · obtain ⟨_, hlast⟩ := List.append_inj' he rfl
    rw [List.singleton_inj.1 hlast] at hk
    exact absurd hl hk
  · rw [List.concat_eq_append, ← List.cons_append, ← List.append_assoc] at he
    obtain ⟨_, hlast⟩ := List.append_inj' he rfl
    exact ⟨init, last, List.concat_eq_append, List.singleton_inj.1 hlast ▸ hl⟩

/-- Outside of everything only the kind of the next token is seen. -/
theorem EndsLine.alike {tokens : List Token} (h : EndsLine tokens) (a b : List Token) :
    Alike .top (tokens ++ a) (tokens ++ b) where
  head := by
    obtain ⟨before, line, rfl, _⟩ := h
    cases before <;> rfl
  lines h := absurd rfl h

/-- A statement leaves the end of its line to what comes after, whatever that is. -/
theorem separated_append {e : Expr} {rest : List Expr} {front : List Token} {last : Token}
    (hl : EndsLine front) (hg : Expr.GrownAll .top (e :: rest) (front ++ [last]) [last])
    (tokens : List Token) :
    ∃ after, EndsLine after ∧ after.length < front.length ∧
      separated .top e (front ++ tokens) (after ++ tokens) ∧
      Expr.GrownAll .top rest (after ++ [last]) [last] := by
  rw [Expr.GrownAll] at hg
  obtain ⟨c, he, hrest⟩ := hg
  obtain ⟨after, rfl, _⟩ := Expr.local_grownAll .top rest _ _ hrest
  obtain ⟨own, hown, hlocal⟩ := (firm_separated .top e).isLocal _ _ he
  rw [← List.append_assoc] at hown
  obtain rfl := List.append_cancel_right hown
  -- the statement ends in a token that ends no line, so the end of the line comes after it
  obtain ⟨before, token, left, hends, hk, hleft⟩ := (firm_separated .top e).ends _ _ he
  have hleft : left = after ++ [last] := hleft
  rw [hleft, ← List.cons_append, ← List.append_assoc] at hends
  have hfront := List.append_cancel_right hends
  have hafter : EndsLine after := (hfront ▸ hl).after hk
  refine ⟨after, hafter, ?_, ?_, hrest⟩
  · rw [hfront, List.length_append, List.length_cons]
    omega
  rw [List.append_assoc]
  exact hlocal _ (hafter.alike _ _)

theorem separators_append {gone : List Token} (h : ∀ token ∈ gone, token.kind.separates = true)
    (previous : Option Token) (more : List Token) :
    ∃ before, separators previous (gone ++ more) = separators before more := by
  induction gone generalizing previous with
  | nil => exact ⟨previous, rfl⟩
  | cons token gone ih =>
    obtain ⟨ht, hg⟩ := List.forall_mem_cons.1 h
    rw [List.cons_append, separators]
    split
    · exact ih hg previous
    split
    · exact ih hg (some token)
    · simp_all [Kind.separates]

theorem run_readStatements_of_separated {e : Expr} {s : State} {b : List Token}
    (h : separated .top e s.rest b) (readExpr : ExprReader) (count : Nat) :
    (readStatements readExpr (count + 1)).run s =
      ((skipSeparators >>= fun _ => readStatement readExpr) >>= fun e =>
        readStatements readExpr count >>= fun others => pure (e :: others)).run s := by
  have hstarts : s.skipSeparators.kind.startsExpression = true := by
    simp only [separated, mul_assoc, separators_mul] at h
    rw [← State.headKind_rest, State.skipSeparators, separators_eq_dropWhile]
    exact (e.startsWith_grown .help .top).mul _ _ _ h
  have hlast : ¬s.skipSeparators.atLastStatement = true := fun h => by
    simp only [State.atLastStatement, Bool.or_eq_true, Bool.and_eq_true, decide_eq_true_eq] at h
    rcases h with h | ⟨h, _⟩ <;> rw [h] at hstarts <;> cases hstarts
  have hcloses : ¬s.skipSeparators.kind.closesBracket = true := fun h => by
    rw [startsExpression_of_closesBracket h] at hstarts
    cases hstarts
  rw [run_readStatements_succ, if_neg hlast, if_neg hcloses]
  rfl

theorem readStatements_append {es : List Expr} {front tokens : List Token} {last : Token}
    (hl : EndsLine front) (hq : EndsOnce tokens)
    (hg : Expr.GrownAll .top es (front ++ [last]) [last]) {bound count : Nat} {s : State}
    (hs : s.Clean) (hm : s.mode = .top) (hr : s.rest = front ++ tokens)
    (hb : s.rest.length ≤ bound) (hc : s.rest.length ≤ count) :
    ∃ t : State, t.Clean ∧ t.mode = .top ∧ t.rest = tokens ∧
      (readStatements (readExprWithin bound) count).run s =
        let found := (readStatements (readExprWithin tokens.length) tokens.length).run t
        (es ++ found.1, found.2) := by
  have hends (t : State) (ht : tokens <:+ t.rest) : t.Ended := by
    obtain ⟨body, last, rfl, hk, _⟩ := hq
    exact ⟨last, ht.subset (by simp), hk⟩
  induction es generalizing front count s with
  | nil =>
    rw [Expr.GrownAll, separators_mul] at hg
    -- all tokens in front are separators, and more of them may follow
    obtain ⟨gone, hgone, hsep, _⟩ := (@dropWhile_kind_eq_iff Kind.separates rfl _ _).1 hg.2
    obtain rfl := List.append_cancel_right hgone
    obtain ⟨before, hbefore⟩ := separators_append hsep s.previous tokens
    let t : State := { s with rest := tokens, previous := before }
    have hskip : s.skipSeparators = t.skipSeparators := by
      simp only [State.skipSeparators, hr, hbefore, t]
    have ht : t.Ended := hends t (List.suffix_refl _)
    have hpos : 0 < tokens.length := ht.length_pos
    have hle : tokens.length ≤ s.rest.length := by simp [hr]
    obtain ⟨count, rfl⟩ : ∃ k, count = k + 1 := ⟨count - 1, by omega⟩
    have hrun : (readStatements (readExprWithin bound) (count + 1)).run s =
        (readStatements (readExprWithin bound) (count + 1)).run t := by
      rw [run_readStatements_succ, run_readStatements_succ, hskip]
    refine ⟨t, ⟨hs.problems, hs.recovering⟩, hm, rfl, hrun.trans ?_⟩
    exact readStatements_congr ht (hle.trans hb) (Nat.le_refl _) (hle.trans hc) (Nat.le_refl _)
  | cons e rest ih =>
    obtain ⟨after, hafter, hshort, he, hrest⟩ := separated_append hl hg tokens
    have hready : s.Ready bound .top :=
      { hs with
        mode := hm
        settled := fun h => absurd (congrArg Mode.skips hm) (by simp [State.mode, h, Mode.top])
        ended := hends s (hr ▸ List.suffix_append _ _)
        length_le := hb }
    have hstep : Obeys bound .top (skipSeparators >>= fun _ => readStatement (readExprWithin bound))
        (separated .top) :=
      (obeys_skipSeparators.seq (obeys_readStatement (readerObeys_readExprWithin bound))).congr
        fun e a b => by simp only [separated, Expr.Reads, mul_assoc]
    obtain ⟨hanswer, hclean, hleft⟩ := (hstep s hready e (after ++ tokens)).2 (hr ▸ he)
    have hnext := hready.run hclean
    have hlen := congrArg List.length hr
    have hlen' := congrArg List.length hleft
    simp only [List.length_append] at hlen hlen'
    obtain ⟨count, rfl⟩ : ∃ k, count = k + 1 := ⟨count - 1, by omega⟩
    obtain ⟨t, hclean', hmode', htokens, hothers⟩ :=
      ih hafter hrest hclean hnext.mode hleft (by omega) (by omega : _ ≤ count)
    refine ⟨t, hclean', hmode', htokens, ?_⟩
    rw [run_readStatements_of_separated (hr ▸ he), run_bind, hanswer, run_bind, hothers]
    rfl

/-- Statements without a problem, up to the end of a line, make no difference to what is read after
them. -/
theorem readAll_append {es : List Expr} {front tokens : List Token} {last : Token}
    (hl : EndsLine front) (hq : EndsOnce tokens)
    (hg : Expr.GrownAll .top es (front ++ [last]) [last]) :
    (readAll (front ++ tokens)).1 = es ++ (readAll tokens).1 ∧
      (readAll (front ++ tokens)).2.problems = (readAll tokens).2.problems := by
  obtain ⟨t, ht, hm, hr, hrun⟩ := readStatements_append (s := State.start (front ++ tokens)) hl hq
    hg ⟨rfl, rfl⟩ rfl rfl (Nat.le_refl _) (Nat.le_refl _)
  obtain ⟨hroots, hproblems⟩ := readStatements_of_rest hq ht hm hr
  have hread : readAll (front ++ tokens) = _ := hrun
  rw [hread]
  exact ⟨congrArg (es ++ ·) hroots, hproblems⟩

end Reading

-- ---------------------------------------------------------------------------
-- Documents
-- ---------------------------------------------------------------------------

def EndsInLine (source : String) : Prop :=
  ∃ body line last, tokenise source = body ++ [line, last] ∧ line.kind = .endOfLine

theorem Part.shiftAll_map_child (offset : Nat) (outlines : List Outline) :
    Part.shiftAll offset (outlines.map .child) =
      (outlines.map (Outline.shift offset)).map .child := by
  induction outlines with
  | nil => rfl
  | cons outline rest ih => simp only [List.map_cons, Part.shiftAll, ih]

theorem Document.forest_shift (offset : Nat) (source : String) :
    ((parse source).shift offset).forest = (parse source).forest.map (Outline.shift offset) := by
  have hparts := (parts_shift offset source ⟨0, Text.byteSize source.toList⟩ source.toList).trans
    (Part.shiftAll_map_child offset _)
  exact (List.map_inj_right fun _ _ => Part.child.inj).1 hparts

theorem tokenise_append {first : String} (hl : EndsInLine first) (second : String) :
    ∃ front last, tokenise first = front ++ [last] ∧
      Reading.EndsLine (front.filter (·.kind ≠ .comment)) ∧ last.kind = .endOfFile ∧
      tokenise (first ++ second) = front ++
        (tokenise second).map (Token.shift (Text.byteSize first.toList)) := by
  obtain ⟨body, line, last, htokens, hk⟩ := hl
  refine ⟨body ++ [line], last, by simpa using htokens, ?_, ?_, ?_⟩
  · exact ⟨body.filter (·.kind ≠ .comment), line, by simp [hk], hk⟩
  · obtain ⟨_, final, he, hfinal, _⟩ := endsOnce_scan first.toList.length 0 first.toList
    rw [show scan _ _ _ = body ++ [line, last] from htokens, List.append_cons] at he
    rwa [(List.append_inj' he rfl).2 |> List.singleton_inj.1]
  · have hmore := tokensFrom_append_of_line htokens hk second.toList
    rw [tokenise, String.toList_append, hmore, Nat.zero_add, tokenise, ← tokensFrom_add,
      Nat.zero_add, List.append_assoc]
    rfl

/-- No token reaches over a newline that is a token of its own: a source that ends in one and any
source after it, malformed or not, are scanned as they would be alone, the second one further on. -/
theorem tokenise_append_of_line {first : String} (hl : EndsInLine first) (second : String) :
    let offset := Text.byteSize first.toList
    ∃ body, tokenise first = body ++ [endToken offset] ∧
      tokenise (first ++ second) = body ++ (tokenise second).map (Token.shift offset) := by
  intro offset
  obtain ⟨front, last, hfirst, _, _, hboth⟩ := tokenise_append hl second
  obtain ⟨body, hbody⟩ := exists_tokensFrom 0 first.toList
  have hend : front ++ [last] = body ++ [endToken offset] := by
    rw [← hfirst, tokenise, hbody, Nat.zero_add]
  refine ⟨front, ?_, hboth⟩
  rw [hfirst, (List.append_inj' hend rfl).2]

theorem tokenise_append_openPercent : EndsInLine "a %in\n" ∧
    ∃ body, tokenise "a %in\n" = body ++ [endToken 6] ∧
      tokenise ("a %in\n" ++ "b% 'c") = body ++ (tokenise "b% 'c").map (Token.shift 6) :=
  have hline : EndsInLine "a %in\n" :=
    ⟨(tokenise "a %in\n").take 3, ⟨.endOfLine, 5, ['\n']⟩, endToken 6, by decide +kernel, rfl⟩
  ⟨hline, tokenise_append_of_line hline "b% 'c"⟩

/-- A text without problems whose last line is ended, and any text after it, are read as they would
be alone, one after the other: the top level nodes of both, the comments of both, and the problems of
the second one, as it has all of them. -/
theorem Document.parse_append {first : String} (hv : (parse first).isValid = true)
    (hl : EndsInLine first) (second : String) :
    let offset := Text.byteSize first.toList
    let after := (parse second).shift offset
    (parse (first ++ second)).roots = (parse first).roots ++ after.roots ∧
      (parse (first ++ second)).forest =
        (parse first).forest ++ (parse second).forest.map (Outline.shift offset) ∧
      (parse (first ++ second)).problems = after.problems ∧
      (parse (first ++ second)).comments = (parse first).comments ++ after.comments := by
  obtain ⟨front, last, hfirst, hline, hlast, hboth⟩ := tokenise_append hl second
  intro offset after
  let code (tokens : List Token) : List Token := tokens.filter (·.kind ≠ .comment)
  have hfile : code [last] = [last] := by simp [code, hlast]
  have hshift : code ((tokenise second).map (Token.shift offset)) =
      (parse second).tokens.map (Token.shift offset) := List.filter_map ..
  have htokens : (parse (first ++ second)).tokens =
      code front ++ (parse second).tokens.map (Token.shift offset) := by
    rw [← hshift, ← List.filter_append, ← hboth]
    rfl
  have hgrown : Expr.GrownAll .top (parse first).roots (code front ++ [last]) [last] := by
    obtain ⟨final, hk, hg⟩ := grown_of_isValid hv
    have htokens : (parse first).tokens = code front ++ [last] := by
      rw [← hfile, ← List.filter_append, ← hfirst]
      rfl
    change Expr.GrownAll .top (parse first).roots (parse first).tokens [final] at hg
    obtain ⟨own, hown, _⟩ := Expr.local_grownAll .top _ _ _ hg
    rw [htokens] at hg hown
    rwa [← List.singleton_inj.1 (List.append_inj' hown rfl).2] at hg
  have hends : EndsOnce (parse second).tokens := endsOnce_tokens ..
  have hmoved : EndsOnce ((parse second).tokens.map (Token.shift offset)) := hends.map fun _ => rfl
  have hmove : Reading.readAll ((parse second).tokens.map (Token.shift offset)) =
      ((parse second).roots.map (Expr.shift offset),
        (Reading.readAll (parse second).tokens).2.move (Token.onBy offset) []) :=
    Reading.readAll_move hends.ended_start
  obtain ⟨hroots, hproblems⟩ := Reading.readAll_append hline hmoved hgrown
  rw [← htokens, hmove] at hroots hproblems
  have hroots : (parse (first ++ second)).roots = (parse first).roots ++ after.roots := hroots
  have hafter : after.forest = (parse second).forest.map (Outline.shift offset) :=
    forest_shift offset second
  refine ⟨hroots, ?_, ?_, ?_⟩
  · rw [← hafter]
    exact (congrArg (List.map Expr.outline) hroots).trans (List.map_append ..)
  · have hsort : (parse (first ++ second)).problems =
        Problem.sortByStart (Reading.readAll (parse (first ++ second)).tokens).2.problems.reverse :=
      rfl
    rw [hsort, hproblems]
    simp only [Reading.State.move, ← List.map_reverse]
    exact Problem.sortByStart_shift _
  · have hcomments (source : String) : (parse source).comments =
        ((tokenise source).filter (·.kind = .comment)).map Token.span := rfl
    have hnone : [last].filter (·.kind = .comment) = [] := by simp [hlast]
    have hown : after.comments = (parse second).comments.map (Span.shift offset) := rfl
    rw [hown, hcomments, hcomments first, hcomments second, hboth, hfirst]
    simp only [List.filter_append, hnone, List.append_nil, List.map_append]
    exact congrArg _ (commentSpans_shift _)

theorem Document.parse_append_unclosed :
    let after := (parse "g(a b, 'c").shift 10
    (parse ("x <- f(1)\n" ++ "g(a b, 'c")).roots = (parse "x <- f(1)\n").roots ++ after.roots ∧
      (parse ("x <- f(1)\n" ++ "g(a b, 'c")).forest =
        (parse "x <- f(1)\n").forest ++ (parse "g(a b, 'c").forest.map (Outline.shift 10) ∧
      (parse ("x <- f(1)\n" ++ "g(a b, 'c")).problems = after.problems ∧
      (parse ("x <- f(1)\n" ++ "g(a b, 'c")).comments =
        (parse "x <- f(1)\n").comments ++ after.comments :=
  have hvalid : (parse "x <- f(1)\n").isValid = true := by decide +kernel
  have hline : EndsInLine "x <- f(1)\n" :=
    ⟨(tokenise "x <- f(1)\n").take 6, ⟨.endOfLine, 9, ['\n']⟩, endToken 10,
      by decide +kernel, rfl⟩
  parse_append hvalid hline "g(a b, 'c"

end LenientR
