import LenientR.Proofs.Grammar.Constructs

/-!
# Statements follow the grammar

Statements up to the end of a block or of the file, read by a reader of expressions that follows the
grammar.
-/

namespace LenientR.Reading

open Trace

variable {n : Nat} {m : Mode} {readExpr : ExprReader}

theorem separators_eq_dropWhile (previous : Option Token) (tokens : List Token) :
    (separators previous tokens).2 = tokens.dropWhile (·.kind.separates) := by
  induction tokens generalizing previous with
  | nil => rfl
  | cons token rest ih =>
    by_cases hl : token.kind = .endOfLine
    · simp [separators, Kind.separates, hl, ih]
    by_cases hs : token.kind = .semicolon
    · simp [separators, Kind.separates, hs, ih]
    · simp [separators, Kind.separates, hl, hs]

theorem obeys_skipSeparators : Obeys n m skipSeparators fun _ => Trace.separators := by
  intro s hs x b
  have hr : (skipSeparators.run s).2.rest = s.rest.dropWhile (·.kind.separates) :=
    separators_eq_dropWhile s.previous s.rest
  rw [Gives, hr]
  exact ⟨fun h => h.2.2, fun h => ⟨rfl, ⟨hs.problems, hs.recovering⟩, h⟩⟩

theorem obeys_endStatement : Obeys n m endStatement fun _ => statementEnd := by
  intro s hs x b
  by_cases h : s.kind.endsStatement = true
  · have hrun : (endStatement.run s).2 = s := if_pos h
    rw [Gives, hrun]
    exact ⟨fun hg => ⟨h, hg.2.2⟩, fun hg => ⟨rfl, hs.toClean, hg.2⟩⟩
  · have hrun : (endStatement.run s).2 = s.report (.unexpectedToken s.current) := if_neg h
    rw [Gives, hrun]
    exact ⟨fun hg => absurd hg.2.1 (not_clean_report s _), fun hg => absurd hg.1 h⟩

theorem obeys_readStatement (hr : ReaderObeys n readExpr) :
    Obeys n m (readStatement readExpr) fun e => e.Reads .help m * statementEnd := by
  refine Obeys.congr ((hr m .help).bind fun e => (obeys_recoverIfNeeded _).seq
    (obeys_endStatement.seq (obeys_pure e))) fun e a b => ?_
  simp only [one_mul, mul_given, mul_one, any_apply, given_apply, exists_eq_left']

theorem atLastStatement_iff {s : State} (hs : s.Ready n m) :
    s.atLastStatement = true ↔
      headKind s.rest = .endOfFile ∨ headKind s.rest = .rightCurly ∧ m.inBlock = true := by
  rw [s.headKind_rest, ← hs.inBlock_eq]
  simp [State.atLastStatement]

/-- What statements are read from once separators are skipped: nothing where they end, and one
statement before the others otherwise. -/
def statementsRule (m : Mode) : Rule (List Expr)
  | [] => lastStatement m
  | e :: rest => e.Reads .help m * statementEnd * Expr.GrownAll m rest

theorem grownAll_eq (m : Mode) (es : List Expr) :
    Expr.GrownAll m es = Trace.separators * statementsRule m es := by
  cases es <;> simp only [Expr.GrownAll, statementsRule, Expr.Reads, mul_assoc]

/-- No expression starts where statements end, nor with a closing bracket. -/
theorem not_statementsRule_cons {e : Expr} {rest : List Expr} {a b : List Token}
    (h : (headKind a).startsExpression = false) : ¬statementsRule m (e :: rest) a b := by
  intro hr
  simp only [statementsRule, mul_assoc] at hr
  have hs := (e.startsWith_reads .help m).mul _ a b hr
  exact absurd hs (by simp [h])

theorem startsExpression_of_closesBracket {kind : Kind} (h : kind.closesBracket = true) :
    kind.startsExpression = false := by
  cases kind <;> first | rfl | cases h

theorem obeys_readStatements (hr : ReaderObeys n readExpr) (he : Engages readExpr) {bound : Nat}
    (hb : n ≤ bound) : Obeys n m (readStatements readExpr bound) (Expr.GrownAll m) := by
  induction n generalizing bound with
  | zero => exact fun s hs => absurd hs.ended.length_pos (by have := hs.length_le; omega)
  | succ n ih =>
    obtain ⟨bound, rfl⟩ : ∃ k, bound = k + 1 := ⟨bound - 1, by omega⟩
    intro s hs
    refine ((obeys_skipSeparators s hs).bind (q := fun _ => statementsRule m) hs.toClean
      fun hc => ?_).congr fun es b => by simp only [any_apply, exists_const, grownAll_eq]
    have ht : s.skipSeparators.Ready (n + 1) m := hs.run hc
    obtain ⟨hnl, hsc⟩ := s.kind_skipSeparators
    change ObeysAt s.skipSeparators _ _
    generalize s.skipSeparators = t at ht hnl hsc ⊢
    by_cases hlast : t.atLastStatement = true
    · have hk := (atLastStatement_iff ht).1 hlast
      refine ((obeysAt_pure ht.toClean []).of_run
        (by simp only [run_look_bind, if_pos hlast])).congr fun es b => ?_
      cases es with
      | nil => exact ⟨fun h => ⟨hk, h.2⟩, fun h => ⟨rfl, h.2⟩⟩
      | cons e rest =>
        refine ⟨fun h => absurd h.1 (List.cons_ne_nil _ _),
          fun h => absurd h (not_statementsRule_cons ?_)⟩
        rcases hk with hk | ⟨hk, _⟩ <;> rw [hk] <;> rfl
    have hnil (b : List Token) : ¬statementsRule m [] t.rest b := fun h =>
      hlast ((atLastStatement_iff ht).2 h.1)
    by_cases hclose : t.kind.closesBracket = true
    · refine (((obeysAt_reportCurrent .unmatchedClosing).bind_never ht.toClean).of_run
        (by simp only [run_look_bind, if_neg hlast, if_pos hclose]; rfl)).congr fun es b =>
          ⟨fun h => h.elim, fun h => ?_⟩
      cases es with
      | nil => exact hnil b h
      | cons e rest =>
        exact not_statementsRule_cons (startsExpression_of_closesBracket hclose) h
    have hend : t.kind ≠ .endOfFile := fun h =>
      hlast ((atLastStatement_iff ht).2 (.inl h))
    have hcurly : t.kind ≠ .rightCurly := fun h => hclose (by rw [h]; rfl)
    have hlt := length_readStatement_lt he hend hcurly hnl hsc
    have hothers (e : Expr) : Obeys n m
        (readStatements readExpr bound >>= fun others => pure (e :: others)) fun es =>
          any fun others => Expr.GrownAll m others * given (es = e :: others) 1 :=
      (ih (hr.mono (Nat.le_succ n)) (Nat.le_of_succ_le_succ hb)).bind fun others =>
        obeys_pure (e :: others)
    have hmore : ObeysAt t (readStatement readExpr >>= fun e =>
          readStatements readExpr bound >>= fun others => pure (e :: others)) fun es =>
        any fun e => (e.Reads .help m * statementEnd) *
          any fun others => Expr.GrownAll m others * given (es = e :: others) 1 :=
      (obeys_readStatement hr t ht).bind ht.toClean fun hc =>
        hothers _ _ ((ht.run hc).mono (by have := ht.length_le; omega))
    refine (hmore.of_run (by simp only [run_look_bind, if_neg hlast, if_neg hclose])).congr
      fun es b => ?_
    simp only [mul_any, mul_given, mul_one, any_apply, given_apply]
    cases es with
    | nil =>
      refine ⟨?_, fun h => absurd h (hnil b)⟩
      rintro ⟨_, _, ⟨⟩, _⟩
    | cons e rest =>
      constructor
      · rintro ⟨_, _, ⟨⟩, h⟩
        exact h
      · exact fun h => ⟨e, rest, rfl, h⟩

end LenientR.Reading
