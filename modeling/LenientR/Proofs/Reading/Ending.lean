import LenientR.Proofs.Placement.Reading
import LenientR.Proofs.Scanning.Kinds

/-!
# Reading reaches the end

Each round of a loop leaves the loop or goes over a token (`readStatements_round` and its like), so
bounds as large as the number of tokens left are never used up. The statements of a file end at the
end of the file, which is never gone over.
-/

namespace LenientR

theorem EndsOnce.ended_start {tokens : List Token} (h : EndsOnce tokens) :
    (Reading.State.start tokens).Ended := by
  obtain ⟨body, last, rfl, hk, _⟩ := h
  exact ⟨last, by simp [Reading.State.start], hk⟩

namespace Reading

namespace State

/-- The cursor is on one of the tokens, and the end of the file is not behind it. -/
def Within (tokens : List Token) (s : State) : Prop :=
  ∃ cursor < tokens.length, s.rest = tokens.drop cursor ∧
    ∀ token ∈ tokens.take cursor, token.kind ≠ .endOfFile

variable {tokens : List Token} {s : State}

theorem within_start (h : EndsOnce tokens) : (start tokens).Within tokens := by
  obtain ⟨body, last, rfl, _⟩ := h
  exact ⟨0, by simp, rfl, by simp⟩

theorem Within.ended (h : EndsOnce tokens) (hs : s.Within tokens) : s.Ended := by
  obtain ⟨body, last, rfl, hk, hn⟩ := h
  obtain ⟨cursor, hc, hr, _⟩ := hs
  refine ⟨last, ?_, hk⟩
  rw [List.length_append, List.length_singleton] at hc
  rw [hr, List.drop_append_of_le_length (Nat.le_of_lt_succ hc)]
  simp

theorem Within.run (h : EndsOnce tokens) (hs : s.Within tokens) (action : Action α) :
    (action.run s).2.Within tokens := by
  have hp := (action.onward s).passes
  have hpos := (hp.ended (hs.ended h)).length_pos
  obtain ⟨cursor, hc, hr, hn⟩ := hs
  obtain ⟨gone, hg, hne, _⟩ := hp
  have hd : tokens.drop cursor = gone ++ (action.run s).2.rest := hr ▸ hg
  have hl := congrArg List.length hd
  simp only [List.length_drop, List.length_append] at hl
  refine ⟨cursor + gone.length, by omega, ?_, fun token hm => ?_⟩
  · rw [← List.drop_drop, hd, List.drop_left]
  · rw [List.take_add, hd, List.take_left, List.mem_append] at hm
    exact hm.elim (hn token) (hne token)

theorem Within.rest_of_kind {body : List Token} {last : Token}
    (hs : s.Within (body ++ [last])) (hn : ∀ token ∈ body, token.kind ≠ .endOfFile)
    (hk : s.kind = .endOfFile) : s.rest = [last] := by
  obtain ⟨cursor, hc, hr, _⟩ := hs
  rw [List.length_append, List.length_singleton] at hc
  rw [List.drop_append_of_le_length (Nat.le_of_lt_succ hc)] at hr
  cases hb : body.drop cursor with
  | nil => rw [hr, hb, List.nil_append]
  | cons token rest =>
    rw [hb] at hr
    have hm : token ∈ body := List.mem_of_mem_drop (hb ▸ List.mem_cons_self)
    exact absurd ((kind_cons hr).symm.trans hk) (hn token hm)

end State

-- ---------------------------------------------------------------------------
-- Rounds
-- ---------------------------------------------------------------------------

/-- Skipping in recovery ends at a token or goes on with those after it. -/
theorem seek_round (stops : Kind → Bool) (depth : Nat) (previous : Option Token) (token : Token)
    (rest : List Token) :
    seek stops depth previous (token :: rest) = (previous, token :: rest) ∨
      ∃ depth' previous',
        seek stops depth previous (token :: rest) = seek stops depth' previous' rest := by
  rw [seek]
  split
  · exact .inl rfl
  · exact .inr ⟨_, _, rfl⟩

section
variable {readExpr : ExprReader} (hr : Engages readExpr)
include hr

/-- A round for statements ends them, or reads at most one more and goes over a token. -/
theorem readStatements_round (bound : Nat) (s : State) :
    (readStatements readExpr (bound + 1)).run s = ([], s.skipSeparators) ∧
        s.skipSeparators.atLastStatement = true ∨
      ∃ read s', s.Onward s' ∧ s'.rest.length < s.rest.length ∧
        (readStatements readExpr (bound + 1)).run s =
          (read ++ ((readStatements readExpr bound).run s').1,
            ((readStatements readExpr bound).run s').2) := by
  have ho := s.onward_skipSeparators
  have hl := ho.passes.length_le
  obtain ⟨hn, hm⟩ := s.kind_skipSeparators
  rw [run_readStatements_succ]
  generalize s.skipSeparators = t at ho hl hn hm ⊢
  by_cases hlast : t.atLastStatement = true
  · exact .inl ⟨by simp [hlast], hlast⟩
  have he : t.kind ≠ .endOfFile := fun h => hlast (by simp [State.atLastStatement, h])
  simp only [if_neg hlast]
  refine .inr ?_
  by_cases hc : t.kind.closesBracket = true
  · simp only [if_pos hc]
    refine ⟨[], _, ho.trans ((reportCurrent .unmatchedClosing >>= fun _ => advance).onward t), ?_,
      rfl⟩
    exact Nat.lt_of_lt_of_le (State.length_advance_lt (s := t.report _) he) hl
  · simp only [if_neg hc]
    have hcurly : t.kind ≠ .rightCurly := fun h => hc (by simp [h, Kind.closesBracket])
    exact ⟨[_], _, ho.trans ((readStatement readExpr).onward t),
      Nat.lt_of_lt_of_le (length_readStatement_lt hr he hcurly hn hm) hl, rfl⟩

theorem readItems_round (role : ListRole) (terminator : Kind) (bound : Nat) (slot : Slot)
    (s : State) :
    ((readItems readExpr role terminator (bound + 1) slot).run s).2.rest = s.rest ∧
        (s.kind = terminator ∨ s.kind = .endOfFile ∨ s.kind = .rightCurly) ∨
      ∃ item s', s.Onward s' ∧ s'.rest.length < s.rest.length ∧
        (readItems readExpr role terminator (bound + 1) slot).run s =
          (item :: ((readItems readExpr role terminator bound (.after item)).run s').1,
            ((readItems readExpr role terminator bound (.after item)).run s').2) := by
  simp only [readItems, run_look_bind]
  by_cases ht : s.kind = terminator
  · refine .inl ⟨?_, .inl ht⟩
    simp only [if_pos ht, run_bind, run_pure, reportEmptySlot]
    split <;> rfl
  by_cases he : s.kind = .endOfFile
  · exact .inl ⟨by simp only [if_neg ht, if_pos he, run_pure], .inr (.inl he)⟩
  by_cases hc : s.kind = .rightCurly
  · exact .inl ⟨by simp only [if_neg ht, if_neg he, if_pos hc, run_pure], .inr (.inr hc)⟩
  · simp only [if_neg ht, if_neg he, if_neg hc]
    exact .inr ⟨_, _, (readItem readExpr role terminator).onward s,
      length_readItem_lt hr ht he hc, rfl⟩

omit hr in
theorem readOperators_round (lists : Nat) (level : Level) (bound : Nat) (left : Expr) (s : State) :
    (readOperators readExpr lists level (bound + 1) left).run s = (left, s) ∨
      ∃ grown s', s.Onward s' ∧ s'.rest.length < s.rest.length ∧
        (readOperators readExpr lists level (bound + 1) left).run s =
          (readOperators readExpr lists level bound grown).run s' := by
  simp only [readOperators, run_look_bind]
  cases hf : Level.ofOperator? s.kind with
  | none => exact .inl rfl
  | some found =>
    dsimp only
    split
    · exact .inr ⟨_, _, (advance >>= readOperator readExpr lists found left).onward s,
        length_readOperator_lt hf _, rfl⟩
    · exact .inl rfl

theorem atLastStatement_readStatements (bound : Nat) {s : State} (he : s.Ended)
    (hl : s.rest.length ≤ bound) :
    ((readStatements readExpr bound).run s).2.atLastStatement = true := by
  induction bound generalizing s with
  | zero => exact absurd he.length_pos (by omega)
  | succ bound ih =>
    rcases readStatements_round hr bound s with ⟨hrun, hlast⟩ | ⟨_, s', ho, hlt, hrun⟩
    · exact hrun ▸ hlast
    · rw [hrun]
      exact ih (ho.passes.ended he) (by omega)

end

theorem rest_readAll {body : List Token} {last : Token} (hk : last.kind = .endOfFile)
    (hn : ∀ token ∈ body, token.kind ≠ .endOfFile) :
    (readAll (body ++ [last])).2.rest = [last] := by
  have ht : EndsOnce (body ++ [last]) := ⟨body, last, rfl, hk, hn⟩
  have hs := State.within_start ht
  have hlast := atLastStatement_readStatements (engages_readExprWithin (body ++ [last]).length)
    (body ++ [last]).length (hs.ended ht) (Nat.le_refl _)
  let reading := readStatements (readExprWithin (body ++ [last]).length) (body ++ [last]).length
  refine (hs.run ht reading).rest_of_kind hn ?_
  have hb : (reading.run (.start (body ++ [last]))).2.blockDepth = 0 :=
    (reading.onward (.start (body ++ [last]))).blockDepth
  simp only [State.atLastStatement, Bool.or_eq_true, Bool.and_eq_true, decide_eq_true_eq] at hlast
  rcases hlast with h | h
  · exact h
  · exact absurd h.2 (by rw [hb]; exact Nat.lt_irrefl 0)

-- ---------------------------------------------------------------------------
-- The whole reading
-- ---------------------------------------------------------------------------

/-- What it means that reading some tokens comes to an end, and at the end of them. States are
taken in any mode; `Within` is all that is asked of them. -/
structure ReachesEnd (tokens : List Token) : Prop where
  start : (State.start tokens).Within tokens
  step : ∀ {α : Type} (action : Action α) (s : State), s.Within tokens →
    (action.run s).2.Within tokens
  /-- Where tokens are skipped in recovery, each round goes over one. -/
  recovery : ∀ stops depth previous token rest,
    seek stops depth previous (token :: rest) = (previous, token :: rest) ∨
      ∃ depth' previous',
        seek stops depth previous (token :: rest) = seek stops depth' previous' rest
  statements : ∀ nesting bound s,
    (readStatements (readExprWithin nesting) (bound + 1)).run s = ([], s.skipSeparators) ∧
        s.skipSeparators.atLastStatement = true ∨
      ∃ read s', s.Onward s' ∧ s'.rest.length < s.rest.length ∧
        (readStatements (readExprWithin nesting) (bound + 1)).run s =
          (read ++ ((readStatements (readExprWithin nesting) bound).run s').1,
            ((readStatements (readExprWithin nesting) bound).run s').2)
  items : ∀ nesting role terminator bound slot s,
    let list := readItems (readExprWithin nesting) role terminator
    ((list (bound + 1) slot).run s).2.rest = s.rest ∧
        (s.kind = terminator ∨ s.kind = .endOfFile ∨ s.kind = .rightCurly) ∨
      ∃ item s', s.Onward s' ∧ s'.rest.length < s.rest.length ∧
        (list (bound + 1) slot).run s =
          (item :: ((list bound (.after item)).run s').1, ((list bound (.after item)).run s').2)
  operators : ∀ nesting lists level bound left s,
    let loop := readOperators (readExprWithin nesting) lists level
    (loop (bound + 1) left).run s = (left, s) ∨
      ∃ grown s', s.Onward s' ∧ s'.rest.length < s.rest.length ∧
        (loop (bound + 1) left).run s = (loop bound grown).run s'
  /-- An expression is read by the same reader that reads those within it: the bound on nesting
  only has to reach as far as the tokens left, and then cuts nothing short. -/
  nesting : ∀ bound level s, s.Within tokens → s.rest.length ≤ bound →
    (readExprWithin bound level).run s =
      (look State.kind >>= fun kind =>
        if kind.endsExpression then readAbsent
        else advance >>= readFrom (readExprWithin bound) bound level).run s
  /-- Nor do the bounds on the length of lists. -/
  lists : ∀ nesting nesting' bound bound' s, s.Within tokens →
    s.rest.length ≤ nesting → s.rest.length ≤ nesting' → s.rest.length ≤ bound →
    s.rest.length ≤ bound' →
    (readStatements (readExprWithin nesting) bound).run s =
        (readStatements (readExprWithin nesting') bound').run s ∧
      (∀ role terminator slot,
        (readItems (readExprWithin nesting) role terminator bound slot).run s =
          (readItems (readExprWithin nesting') role terminator bound' slot).run s) ∧
      ∀ level left,
        (readOperators (readExprWithin nesting) nesting level bound left).run s =
          (readOperators (readExprWithin nesting') nesting' level bound' left).run s
  finish : ∃ body last, tokens = body ++ [last] ∧ last.kind = .endOfFile ∧
    (readAll tokens).2.rest = [last] ∧ (readAll tokens).2.current = last

/-- Whatever the text, valid or not, reading it is a total function that ends on the end of the
file. -/
theorem reachesEnd_tokens (source : String) (range : Span) (text : List Char) :
    ReachesEnd (Document.ofText source range text).tokens := by
  have h := endsOnce_tokens source range text
  generalize (Document.ofText source range text).tokens = tokens at h
  exact {
    start := State.within_start h
    step := fun action s hs => hs.run h action
    recovery := seek_round
    statements := fun nesting => readStatements_round (engages_readExprWithin nesting)
    items := fun nesting => readItems_round (engages_readExprWithin nesting)
    operators := fun nesting => readOperators_round
    nesting := fun bound level s hs hl =>
      readExprWithin_congr (hs.ended h) hl (Nat.le_succ_of_le hl) level
    lists := fun nesting nesting' bound bound' s hs hn hn' hb hb' =>
      ⟨readStatements_congr (hs.ended h) hn hn' hb hb',
        readItems_congr (hs.ended h) hn hn' hb hb',
        readOperators_congr (hs.ended h) hn hn' hn hn' hb hb'⟩
    finish := by
      obtain ⟨body, last, rfl, hk, hn⟩ := h
      have hr := rest_readAll hk hn
      exact ⟨body, last, rfl, hk, hr, by simp [State.current, hr]⟩ }

end Reading

end LenientR
