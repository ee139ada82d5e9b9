import LenientR.Proofs.Grammar.Items

/-!
# Constructs follow the grammar

The rule of each construct, from the token after the one that decides it, for a reader of
expressions that follows the grammar.
-/

namespace LenientR.Reading

open Trace

variable {n : Nat} {m : Mode} {readExpr : ExprReader}

theorem obeys_readAfterNewlines (hr : ReaderObeys n readExpr) (level : Level) :
    Obeys n m (readAfterNewlines readExpr level) fun e => lines * e.Reads level m :=
  obeys_dropNewlines.seq (hr m level)

/-- The tokens that nothing is skipped in front of when round brackets close. -/
def AtClosing (tokens : List Token) : Prop :=
  headKind tokens = .rightParen ∨ headKind tokens = .rightCurly ∨ headKind tokens = .endOfFile

theorem mul_check_atClosing (r : Trace) (closing : Token) :
    r * check AtClosing * closing.taken (· = .rightParen) m =
      r * closing.taken (· = .rightParen) m :=
  mul_check_mul_taken r fun _ h => .inl (of_decide_eq_true h)

theorem obeys_skipToClosing : Obeys n m skipToClosing fun _ => check AtClosing :=
  ((obeys_unexpectedUnless _).seq (obeys_recoverIfNeeded _)).congr fun _ a b => by
    simp [AtClosing, or_assoc]

theorem obeys_readToClosing {inner : Action α} {rule : Rule α} (h : Obeys n m.bracketed inner rule) :
    Obeys n m (readToClosing inner) fun x => lines * rule x * check AtClosing := by
  refine (obeys_bracketed (h.bind fun answer =>
    obeys_skipToClosing.seq (obeys_pure answer))).congr fun x a b => ?_
  simp only [mul_any, mul_given, mul_one, ← mul_assoc, any_apply, given_apply, exists_eq_left']

def bracketedRule (m : Mode) (rule : Rule α) : Rule (Option Token × α × Option Token) :=
  fun found => any fun opening => any fun closing =>
    given (found.1 = some opening ∧ found.2.2 = some closing)
      (opening.taken (· = .leftParen) m * lines * rule found.2.1 *
        closing.taken (· = .rightParen) m)

theorem obeys_readBracketed {inner : Action α} {rule : Rule α}
    (h : Obeys n m.bracketed inner rule) :
    Obeys n m (readBracketed inner) (bracketedRule m rule) := by
  unfold readBracketed
  refine Obeys.congr (Obeys.bind_required (obeys_acceptOr (by decide) _) fun token =>
    (obeys_readToClosing h).bind fun answer =>
      Obeys.bind_required (obeys_acceptOr (by decide) _) fun closing => obeys_pure _) ?_
  intro found a b
  simp only [bracketedRule, mul_any, mul_given, mul_one, ← mul_assoc, mul_check_atClosing, any_apply,
    given_apply]
  constructor
  · rintro ⟨opening, answer, closing, rfl, ht⟩
    exact ⟨opening, closing, ⟨rfl, rfl⟩, ht⟩
  · rintro ⟨opening, closing, ⟨ho, hc⟩, ht⟩
    exact ⟨opening, found.2.1, closing, by rw [← ho, ← hc], ht⟩

theorem obeys_readName : Obeys n m readName (requiredToken Kind.isName m) :=
  fun _ hs => obeysAt_requiredToken hs rfl (fun h => if_pos (by simpa [Kind.isName] using h))
    fun h => if_neg (by simpa [Kind.isName] using h)

-- ---------------------------------------------------------------------------
-- Constructs that a token starts
-- ---------------------------------------------------------------------------

theorem obeysAt_readNamespaced (package : Token) {s : State} (hs : s.Ready n m)
    (hk : s.kind.isPackageOperator = true) :
    ObeysAt s (readNamespaced package) fun e => any fun operator => any fun name =>
      given (e = .namespaced package operator (some name))
        (operator.taken Kind.isPackageOperator m * name.taken Kind.isName m) := by
  refine ObeysAt.congr (obeysAt_advance_bind hs rfl hk fun operator =>
    Obeys.bind_required obeys_readName fun name => obeys_complete _) fun e b => ?_
  simp only [mul_any, mul_given, mul_one, any_apply]

theorem obeys_readUnary (hr : ReaderObeys n readExpr) (operator : Token) (level : Level) :
    Obeys n m (readUnary readExpr operator level) fun e => any fun operand =>
      given (e = .unary operator operand) (lines * operand.Reads level m) :=
  (obeys_readAfterNewlines hr level).bind_complete _

theorem obeys_readGroupInner (hr : ReaderObeys n readExpr) :
    Obeys n m (readGroupInner readExpr) fun found => lines * match found with
      | none => check fun a => headKind a = .rightParen
      | some inner => inner.Reads .help m.bracketed * check AtClosing := by
  refine obeys_bracketed fun s hs => ?_
  by_cases h : s.kind = .rightParen
  · refine ((obeysAt_pure hs.toClean none).of_run (by simp only [run_look_bind, h, if_true])).congr
      fun found b => ?_
    cases found with
    | none => simp [s.headKind_rest, h]
    | some inner =>
      have hn : ¬inner.Reads .help m.bracketed s.rest b :=
        not_reads_of_endsItem (.inl rfl) (by simp [s.headKind_rest, h, endsItem])
      simp [hn]
  · refine ((((hr _ .help).bind fun inner => obeys_skipToClosing.seq
      (obeys_pure (some inner))) s hs).of_run (by
        simp only [run_look_bind, h, if_false])).congr fun found b => ?_
    cases found with
    | none => simp [s.headKind_rest, h]
    | some inner => simp

theorem obeys_readGroup (hr : ReaderObeys n readExpr) (opening : Token) :
    Obeys n m (readGroup readExpr opening) fun e => any fun inner => any fun closing =>
      given (e = .group opening inner (some closing))
        (lines * inner.Reads .help m.bracketed * closing.taken (· = .rightParen) m) := by
  have hrest (found : Option Expr) : Obeys n m
      (match found with
        | none => readEmptyGroup opening
        | some inner => takeClosing opening .rightParen >>= fun closing =>
          complete (.group opening inner closing))
      fun e => any fun inner => any fun closing =>
        given (found = some inner ∧ e = .group opening inner (some closing))
          (closing.taken (· = .rightParen) m) := by
    cases found with
    | none =>
      have hnever : Obeys n m (readEmptyGroup opening) fun _ => .never :=
        fun s _ => obeysAt_never fun h => List.cons_ne_nil _ _ h.problems
      exact hnever.congr fun e a b => by simp
    | some inner =>
      refine Obeys.congr (Obeys.bind_required (obeys_acceptOr (by decide) _) fun closing =>
        obeys_complete _) fun e a b => ?_
      simp only [mul_given, mul_one, any_apply, given_apply]
      constructor
      · rintro ⟨closing, he, ht⟩
        exact ⟨inner, closing, ⟨rfl, he⟩, ht⟩
      · rintro ⟨_, closing, ⟨⟨⟩, he⟩, ht⟩
        exact ⟨closing, he, ht⟩
  refine Obeys.congr ((obeys_readGroupInner hr).bind hrest) fun e a b => ?_
  simp only [mul_any, mul_given, any_apply, given_apply]
  constructor
  · rintro ⟨_, inner, closing, ⟨rfl, he⟩, ht⟩
    rw [← mul_assoc, mul_check_atClosing] at ht
    exact ⟨inner, closing, he, ht⟩
  · rintro ⟨inner, closing, he, ht⟩
    rw [← mul_check_atClosing, mul_assoc lines] at ht
    exact ⟨some inner, inner, closing, ⟨rfl, he⟩, ht⟩

theorem headKind_of_grownStatements {es : List Expr} {a b : List Token}
    (h : Expr.GrownAll m es a b) :
    headKind b = .endOfFile ∨ headKind b = .rightCurly ∧ m.inBlock = true := by
  induction es generalizing a with
  | nil =>
    rw [Expr.GrownAll] at h
    obtain ⟨_, _, hk, rfl⟩ := h
    exact hk
  | cons e rest ih =>
    rw [Expr.GrownAll] at h
    obtain ⟨_, _, hr⟩ := h
    exact ih hr

theorem obeys_readBlock {readStatements : Action (List Expr)}
    (h : Obeys n .block readStatements (Expr.GrownAll .block)) (opening : Token) :
    Obeys n m (readBlock readStatements opening) fun e => any fun body => any fun closing =>
      given (e = .block opening body (some closing))
        (Expr.GrownAll .block body * closing.taken (· = .rightCurly) m) := by
  refine Obeys.congr ((obeys_inBlock h ?_).bind fun body =>
    Obeys.bind_required (obeys_acceptOr (by decide) _) fun closing => obeys_complete _)
      fun e a b => ?_
  · intro body a b h
    rcases headKind_of_grownStatements h with h | h <;> simp [h]
  · simp only [mul_any, mul_given, mul_one, any_apply]

theorem obeys_readLoopVar :
    Obeys n m readLoopVar (requiredToken (· = .identifier) m) := by
  intro s hs
  by_cases h : s.kind = .identifier
  · have hrun : readLoopVar.run s =
        (advance >>= fun name => complete (.var name) >>= fun _ => pure (some name)).run s := by
      simp only [readLoopVar, run_look_bind, h, if_true]
    refine ((obeysAt_advance_bind (f := (· = .identifier)) hs rfl (decide_eq_true h) fun name =>
      (obeys_complete (.var name)).bind fun _ => obeys_pure (some name)).of_run hrun).congr
        fun found b => ?_
    simp only [requiredToken_iff, mul_any, mul_given, mul_one, any_apply, given_apply]
    constructor
    · rintro ⟨name, _, hf, rfl, ht⟩
      exact ⟨name, ht, hf⟩
    · rintro ⟨name, ht, hf⟩
      exact ⟨name, .var name, hf, rfl, ht⟩
  · have hrun : readLoopVar.run s =
        (reportCurrent .expectedIdentifier >>= fun _ => pure none).run s := by
      simp only [readLoopVar, run_look_bind, h, if_false]
    refine (((obeysAt_reportCurrent _).bind_never hs.toClean).of_run hrun).congr fun found b =>
      ⟨fun hf => hf.elim, fun hf => ?_⟩
    exact h (of_decide_eq_true (headKind_of_requiredToken hf))

theorem obeys_readLoopHead (hr : ReaderObeys n readExpr) :
    Obeys n m (readLoopHead readExpr) fun head => any fun loopVar => any fun inWord =>
      given (head.1 = some loopVar ∧ head.2.1 = some inWord)
        (loopVar.taken (· = .identifier) m * inWord.taken (· = .inWord) m *
          head.2.2.Reads .help m) := by
  refine Obeys.congr (Obeys.bind_required obeys_readLoopVar fun loopVar =>
    Obeys.bind_required (obeys_acceptOr (by decide) _) fun inWord =>
      (hr m .help).bind fun sequence => obeys_pure _) fun head a b => ?_
  simp only [mul_any, mul_given, mul_one, ← mul_assoc, any_apply, given_apply]
  constructor
  · rintro ⟨loopVar, inWord, sequence, rfl, ht⟩
    exact ⟨loopVar, inWord, ⟨rfl, rfl⟩, ht⟩
  · rintro ⟨loopVar, inWord, ⟨hv, hw⟩, ht⟩
    exact ⟨loopVar, inWord, head.2.2, by rw [← hv, ← hw], ht⟩

theorem obeys_readFor (hr : ReaderObeys n readExpr) (keyword : Token) :
    Obeys n m (readFor readExpr keyword) fun e => any fun opening => any fun loopVar =>
      any fun inWord => any fun sequence => any fun closing => any fun body =>
        given (e = .forLoop keyword (some opening) (some loopVar) (some inWord) sequence
            (some closing) body)
          (opening.taken (· = .leftParen) m * lines * loopVar.taken (· = .identifier) m.bracketed *
            inWord.taken (· = .inWord) m.bracketed * sequence.Reads .help m.bracketed *
            closing.taken (· = .rightParen) m * lines * body.Reads .help m) := by
  refine Obeys.congr ((obeys_readBracketed (obeys_readLoopHead hr)).bind fun head =>
    (obeys_readAfterNewlines hr .help).bind_complete fun body =>
      .forLoop keyword head.1 head.2.1.1 head.2.1.2.1 head.2.1.2.2 head.2.2 body) fun e a b => ?_
  simp only [bracketedRule, mul_any, any_mul, mul_given, given_mul, ← mul_assoc, any_apply,
    given_apply]
  constructor
  · rintro ⟨⟨_, ⟨_, _, sequence⟩, _⟩, body, rfl, opening, closing, ⟨rfl, rfl⟩, loopVar, inWord,
      ⟨rfl, rfl⟩, ht⟩
    exact ⟨opening, loopVar, inWord, sequence, closing, body, rfl, ht⟩
  · rintro ⟨opening, loopVar, inWord, sequence, closing, body, rfl, ht⟩
    exact ⟨(some opening, (some loopVar, some inWord, sequence), some closing), body, rfl, opening,
      closing, ⟨rfl, rfl⟩, loopVar, inWord, ⟨rfl, rfl⟩, ht⟩

theorem obeys_readFunctionBody (hr : ReaderObeys n readExpr) (closing : Option Token) :
    Obeys n m (readFunctionBody readExpr closing) fun body => match closing with
      | none => given (body = none) 1
      | some _ => any fun e => given (body = some e) (lines * e.Reads .help m) := by
  cases closing with
  | none => exact obeys_pure none
  | some _ => exact (obeys_readAfterNewlines hr .help).map some

theorem obeys_reportRepeatedNames (parameters : List Item) :
    Obeys n m (reportRepeatedNames parameters) fun _ =>
      check fun _ => repeatedNames parameters [] = [] := by
  intro s hs x b
  cases h : repeatedNames parameters [] with
  | nil =>
    have hrun : (reportRepeatedNames parameters).run s = ((), s) := by
      simp only [reportRepeatedNames, update, h, List.foldl_nil]
    rw [Gives, hrun]
    exact ⟨fun hg => ⟨rfl, hg.2.2⟩, fun hg => ⟨rfl, hs.toClean, hg.2⟩⟩
  | cons name names =>
    refine ⟨fun hg => ?_, fun hg => absurd hg.1 (List.cons_ne_nil _ _)⟩
    have hc := hg.2.1
    have hp := (onward_reportAll .duplicateParameter names
      (s.report (.duplicateParameter name))).problems
    have hrun : (reportRepeatedNames parameters).run s = ((), names.foldl
        (fun s name => s.report (.duplicateParameter name))
          (s.report (.duplicateParameter name))) := by
      simp only [reportRepeatedNames, update, h, List.foldl_cons]
    rw [hrun] at hc
    exact absurd (List.suffix_nil.1 (hc.problems ▸ hp)) (List.cons_ne_nil _ _)

theorem obeys_readFunction (hr : ReaderObeys n readExpr) (he : Engages readExpr) {bound : Nat}
    (hb : n ≤ bound) (keyword : Token) :
    Obeys n m (readFunction readExpr bound keyword) fun e => any fun opening =>
      any fun parameters => any fun closing => any fun body =>
        given (e = .function keyword (some opening) parameters (some closing) (some body))
          (opening.taken (· = .leftParen) m * lines *
            Item.GrownAll .parameters .rightParen m.bracketed .opening parameters *
            closing.taken (· = .rightParen) m *
            check (fun _ => repeatedNames parameters [] = []) * lines * body.Reads .help m) := by
  refine Obeys.congr (Obeys.bind_required (obeys_acceptOr (by decide) _) fun opening =>
    (obeys_readList hr he (.inl rfl) hb .parameters opening).bind fun list =>
      (obeys_reportRepeatedNames list.1).seq ((obeys_readFunctionBody hr list.2).bind_complete
        fun body => .function keyword (some opening) list.1 list.2 body)) fun e a b => ?_
  simp only [mul_any, any_mul, mul_given, given_mul, mul_one, ← mul_assoc, any_apply, given_apply]
  constructor
  · rintro ⟨opening, ⟨parameters, _⟩, body, he, closing, rfl, ht⟩
    simp only [mul_any, mul_given, ← mul_assoc] at ht
    obtain ⟨body, rfl, ht⟩ := ht
    exact ⟨opening, parameters, closing, body, he, ht⟩
  · rintro ⟨opening, parameters, closing, body, he, ht⟩
    refine ⟨opening, (parameters, some closing), some body, he, closing, rfl, ?_⟩
    simp only [mul_any, mul_given, ← mul_assoc]
    exact ⟨body, rfl, ht⟩

def elseRule (m : Mode) : Rule Bool
  | true => toElse m * check fun a => headKind a = .elseWord
  | false => check fun a => headKind (m.beforeElse a) ≠ .elseWord

theorem run_elseFollows {s : State} (hs : s.Ready n m) :
    elseFollows.run s = if headKind (m.beforeElse s.rest) = .elseWord then
      (true, { s with rest := m.beforeElse s.rest }) else (false, s) := by
  have hd := hs.inBlock_eq
  unfold Mode.beforeElse
  cases hb : m.inBlock with
  | false =>
    have hd : s.blockDepth = 0 := by simpa [hb] using hd
    simp only [elseFollows, if_pos hd, Bool.false_eq_true, if_false]
    rfl
  | true =>
    have hd : s.blockDepth ≠ 0 := by simpa [hb, Nat.pos_iff_ne_zero] using hd
    simp only [elseFollows, if_neg hd, if_true]
    by_cases hk : s.kind = .elseWord
    · have hl : skipLines s.rest = s.rest :=
        skipLines_of_ne (by rw [s.headKind_rest, hk]; decide)
      rw [if_pos hk, hl, s.headKind_rest, if_pos hk]
    · rw [if_neg hk]
      rfl

theorem obeys_elseFollows : Obeys n m elseFollows (elseRule m) := by
  intro s hs x b
  rw [Gives, run_elseFollows hs]
  by_cases h : headKind (m.beforeElse s.rest) = .elseWord
  · rw [if_pos h]
    cases x with
    | true =>
      refine Iff.trans ?_ (mul_check _ _ _ _).symm
      exact ⟨fun hg => ⟨hg.2.2, hg.2.2 ▸ h⟩, fun hg => ⟨rfl, ⟨hs.problems, hs.recovering⟩, hg.1⟩⟩
    | false => exact ⟨fun hg => absurd hg.1.symm Bool.false_ne_true, fun hg => absurd h hg.1⟩
  · rw [if_neg h]
    cases x with
    | true =>
      refine Iff.trans ?_ (mul_check _ _ _ _).symm
      exact ⟨fun hg => absurd hg.1 Bool.false_ne_true, fun hg => absurd (hg.1 ▸ hg.2) h⟩
    | false => exact ⟨fun hg => ⟨h, hg.2.2⟩, fun hg => ⟨rfl, hs.toClean, hg.2⟩⟩

def alternativeRule (m : Mode) : Bool → Rule (Option (Token × Expr))
  | false => fun alternative => given (alternative = none) 1
  | true => fun alternative => any fun keyword => any fun e => given (alternative = some (keyword, e))
    (keyword.taken (· = .elseWord) m * lines * e.Reads .help m)

theorem obeysAt_readAlternative (hr : ReaderObeys n readExpr) {s : State} (hs : s.Ready n m)
    {follows : Bool} (hk : follows = true → s.kind = .elseWord) :
    ObeysAt s (readAlternative readExpr follows) (alternativeRule m follows) := by
  cases follows with
  | false => exact obeysAt_pure hs.toClean none
  | true =>
    refine ObeysAt.congr (obeysAt_advance_bind (f := (· = .elseWord)) hs rfl
      (decide_eq_true (hk rfl)) fun keyword => (obeys_readAfterNewlines hr .help).bind fun e =>
        obeys_pure (some (keyword, e))) fun alternative b => ?_
    simp only [alternativeRule, mul_any, mul_given, mul_one, ← mul_assoc]

theorem obeys_else (hr : ReaderObeys n readExpr) :
    Obeys n m (elseFollows >>= readAlternative readExpr) (Expr.GrownElse m) := by
  intro s hs
  have hf := obeys_elseFollows s hs
  refine ObeysAt.congr (hf.bind hs.toClean fun hc => obeysAt_readAlternative hr (hs.run hc)
    fun h => ?_) fun alternative b => ?_
  · have hrule := (hf _ _).1 ⟨rfl, hc, rfl⟩
    rw [h] at hrule
    exact ((mul_check _ _ _ _).1 hrule).2
  · constructor
    · rintro ⟨_ | _, c, hfollows, ht⟩
      · obtain ⟨rfl, rfl⟩ := ht
        rw [Expr.GrownElse]
        exact hfollows
      · obtain ⟨keyword, e, rfl, ht⟩ := ht
        simp only [Expr.GrownElse, mul_assoc]
        exact ⟨c, ((mul_check _ _ _ _).1 hfollows).1, by simpa only [mul_assoc, Expr.Reads] using ht⟩
    · intro ht
      cases alternative with
      | none =>
        rw [Expr.GrownElse] at ht
        exact ⟨false, s.rest, ⟨ht.1, rfl⟩, rfl, ht.2⟩
      | some alternative =>
        obtain ⟨keyword, e⟩ := alternative
        simp only [Expr.GrownElse, mul_assoc] at ht
        obtain ⟨c, hc, ht⟩ := ht
        refine ⟨true, c, (mul_check _ _ _ _).2 ⟨hc, ?_⟩, keyword, e, rfl, by
          simpa only [mul_assoc, Expr.Reads] using ht⟩
        exact of_decide_eq_true (Token.taken_mul.1 ht).1

theorem obeys_readIf (hr : ReaderObeys n readExpr) (keyword : Token) :
    Obeys n m (readIf readExpr keyword) fun e => any fun opening => any fun condition =>
      any fun closing => any fun consequent => any fun alternative =>
        given (e = .conditional keyword (some opening) condition (some closing) consequent
            alternative)
          (opening.taken (· = .leftParen) m * lines * condition.Reads .help m.bracketed *
            closing.taken (· = .rightParen) m * lines * consequent.Reads .help m *
            Expr.GrownElse m alternative) := by
  refine Obeys.congr ((obeys_readBracketed (hr _ .help)).bind fun head =>
    (obeys_readAfterNewlines hr .help).bind fun consequent =>
      (obeys_else hr).bind_complete fun alternative =>
        .conditional keyword head.1 head.2.1 head.2.2 consequent alternative) fun e a b => ?_
  simp only [bracketedRule, mul_any, any_mul, mul_given, given_mul, ← mul_assoc, any_apply,
    given_apply]
  constructor
  · rintro ⟨⟨_, condition, _⟩, consequent, alternative, rfl, opening, closing, ⟨rfl, rfl⟩, ht⟩
    exact ⟨opening, condition, closing, consequent, alternative, rfl, ht⟩
  · rintro ⟨opening, condition, closing, consequent, alternative, rfl, ht⟩
    exact ⟨(some opening, condition, some closing), consequent, alternative, rfl, opening, closing,
      ⟨rfl, rfl⟩, ht⟩

theorem obeys_readWhile (hr : ReaderObeys n readExpr) (keyword : Token) :
    Obeys n m (readWhile readExpr keyword) fun e => any fun opening => any fun condition =>
      any fun closing => any fun body =>
        given (e = .whileLoop keyword (some opening) condition (some closing) body)
          (opening.taken (· = .leftParen) m * lines * condition.Reads .help m.bracketed *
            closing.taken (· = .rightParen) m * lines * body.Reads .help m) := by
  refine Obeys.congr ((obeys_readBracketed (hr _ .help)).bind fun head =>
    (obeys_readAfterNewlines hr .help).bind_complete fun body =>
      .whileLoop keyword head.1 head.2.1 head.2.2 body) fun e a b => ?_
  simp only [bracketedRule, mul_any, any_mul, mul_given, given_mul, ← mul_assoc, any_apply,
    given_apply]
  constructor
  · rintro ⟨⟨_, condition, _⟩, body, rfl, opening, closing, ⟨rfl, rfl⟩, ht⟩
    exact ⟨opening, condition, closing, body, rfl, ht⟩
  · rintro ⟨opening, condition, closing, body, rfl, ht⟩
    exact ⟨(some opening, condition, some closing), body, rfl, opening, closing, ⟨rfl, rfl⟩, ht⟩

theorem obeys_readRepeat (hr : ReaderObeys n readExpr) (keyword : Token) :
    Obeys n m (readRepeat readExpr keyword) fun e => any fun body =>
      given (e = .repeatLoop keyword body) (lines * body.Reads .help m) :=
  (obeys_readAfterNewlines hr .help).bind_complete _

-- ---------------------------------------------------------------------------
-- Constructs that follow an operand
-- ---------------------------------------------------------------------------

theorem obeys_readCall (hr : ReaderObeys n readExpr) (he : Engages readExpr) {bound : Nat}
    (hb : n ≤ bound) (callee : Expr) (opening : Token) :
    Obeys n m (readCall readExpr bound callee opening) fun e => any fun arguments =>
      any fun closing => given (e = .call callee opening arguments (some closing))
        (lines * Item.GrownAll .arguments .rightParen m.bracketed .opening arguments *
          closing.taken (· = .rightParen) m) := by
  refine Obeys.congr ((obeys_readList hr he (.inl rfl) hb .arguments opening).bind_complete
    fun list => .call callee opening list.1 list.2) fun e a b => ?_
  simp only [mul_given, mul_one, any_apply, given_apply]
  constructor
  · rintro ⟨⟨arguments, _⟩, he, closing, rfl, ht⟩
    exact ⟨arguments, closing, he, ht⟩
  · rintro ⟨arguments, closing, he, ht⟩
    exact ⟨(arguments, some closing), he, closing, rfl, ht⟩

def indexEnd (m : Mode) (opening : Token) : Option Token → Rule (List Token)
  | none => fun closing => given (closing = []) 1
  | some first => fun closing =>
    if opening.kind ≠ .leftDoubleSquare then given (closing = [first]) 1
    else any fun second => given (closing = [first, second]) (second.taken (· = .rightSquare) m)

theorem obeys_readIndexEnd (opening : Token) (first : Option Token) :
    Obeys n m (readIndexEnd opening first) (indexEnd m opening first) := by
  cases first with
  | none => exact obeys_pure []
  | some first =>
    unfold readIndexEnd indexEnd
    by_cases h : opening.kind ≠ .leftDoubleSquare
    · simp only [if_pos h]
      exact obeys_pure [first]
    · simp only [if_neg h]
      refine Obeys.congr (Obeys.bind_required (obeys_acceptOr (by decide) _) fun second =>
        obeys_pure _) fun closing a b => ?_
      simp only [mul_given, mul_one, Option.toList_some]

theorem obeys_readIndex (hr : ReaderObeys n readExpr) (he : Engages readExpr) {bound : Nat}
    (hb : n ≤ bound) (target : Expr) (opening : Token) :
    Obeys n m (readIndex readExpr bound target opening) fun e => any fun arguments =>
      any fun first => any fun closing => given (e = .index target opening arguments closing)
        (lines * Item.GrownAll .arguments .rightSquare m.bracketed .opening arguments *
          first.taken (· = .rightSquare) m * indexEnd m opening (some first) closing) := by
  refine Obeys.congr ((obeys_readList hr he (.inr rfl) hb .arguments opening).bind fun list =>
    (obeys_readIndexEnd opening list.2).bind_complete fun closing =>
      .index target opening list.1 closing) fun e a b => ?_
  simp only [mul_any, any_mul, mul_given, given_mul, mul_one, any_apply, given_apply]
  constructor
  · rintro ⟨⟨arguments, _⟩, closing, he, first, rfl, ht⟩
    exact ⟨arguments, first, closing, he, ht⟩
  · rintro ⟨arguments, first, closing, he, ht⟩
    exact ⟨(arguments, some first), closing, he, first, rfl, ht⟩

theorem obeys_readMember (target : Expr) (operator : Token) :
    Obeys n m (readMember target operator) fun e => any fun name =>
      given (e = .member target operator (some name)) (name.taken Kind.isName m) := by
  refine Obeys.congr (Obeys.bind_required obeys_readName fun name => obeys_complete _) fun e a b => ?_
  simp only [mul_given, mul_one]

theorem obeys_readOperation (hr : ReaderObeys n readExpr) (level : Level) (left : Expr)
    (operator : Token) :
    Obeys n m (readOperation readExpr level left operator) fun e => any fun right =>
      given (e = if operator.kind.isAssignment then .assignment left operator right
          else .binary left operator right)
        (lines * right.Reads (level.operandLevel operator.kind) m) :=
  (obeys_readAfterNewlines hr _).bind_complete _

end LenientR.Reading
