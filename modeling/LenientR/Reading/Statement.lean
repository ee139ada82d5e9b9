import LenientR.Reading.Construct

/-!
# Reading expressions and statements

Here the recursion is tied: `readExprWithin` hands itself to the constructs. The bound it counts
down is on how deep constructs nest and on how long lists get; as every construct starts with a token
of its own, the number of tokens left is always enough.
-/

namespace LenientR.Reading

def failAt (problem : Token → Problem) (token : Token) : Action Expr := do
  fail fun _ => problem token
  complete (.invalid token)

/-- There is no expression before the current token, which is left where it is. -/
def readAbsent : Action Expr := do
  let token ← look State.current
  failAt .expectedExpression token

/-- What is wrong with a token that is gone over as an expression and cannot start one. -/
def startProblem? : Kind → Option (Token → Problem)
  | .unknown => some .unknownCharacter
  | .unterminatedString => some .unterminatedString
  | .identifier | .number | .string | .ellipsis | .invalidNumber
  | .trueWord | .falseWord | .nullWord | .naWord | .infWord | .nanWord
  | .leftCurly | .leftParen | .functionWord | .backslash
  | .minus | .plus | .bang | .tilde | .question
  | .ifWord | .forWord | .whileWord | .repeatWord | .breakWord | .nextWord => none
  | _ => some .expectedExpression

def readNameOr (other : Token → Expr) (token : Token) : Action Expr := do
  let kind ← look State.kind
  if kind = .colonColon ∨ kind = .colonColonColon then readNamespaced token
  else complete (other token)

def readStart (readExpr : ExprReader) (readStatements : Action (List Expr)) (bound : Nat)
    (token : Token) : Action Expr :=
  match token.kind with
  | .identifier => readNameOr .var token
  | .string => readNameOr .literal token
  | .ellipsis => complete (.var token)
  | .invalidNumber => do
    report (.invalidNumber token)
    complete (.literal token)
  | .leftCurly => readBlock readStatements token
  | .leftParen => readGroup readExpr token
  | .functionWord | .backslash => readFunction readExpr bound token
  | .minus | .plus => readUnary readExpr token .sign
  | .bang => readUnary readExpr token .not
  | .tilde => readUnary readExpr token .tilde
  | .question => readUnary readExpr token .help
  | .ifWord => readIf readExpr token
  | .forWord => readFor readExpr token
  | .whileWord => readWhile readExpr token
  | .repeatWord => readRepeat readExpr token
  | .breakWord | .nextWord => complete (.control token)
  | _ => complete (.literal token)

def separators (previous : Option Token) : List Token → Option Token × List Token
  | [] => (previous, [])
  | token :: rest =>
    if token.kind = .endOfLine then separators previous rest
    else if token.kind = .semicolon then separators (some token) rest
    else (previous, token :: rest)

theorem separators_passes (previous : Option Token) (tokens : List Token) :
    ∃ gone, tokens = gone ++ (separators previous tokens).2 ∧
      (∀ token ∈ gone, token.kind = .endOfLine ∨ token.kind = .semicolon) ∧
      (separators previous tokens).1 = State.lastCounted previous gone ∧
      ∀ token ∈ (separators previous tokens).2.head?,
        token.kind ≠ .endOfLine ∧ token.kind ≠ .semicolon := by
  induction tokens generalizing previous with
  | nil => exact ⟨[], rfl, by simp, rfl, by simp [separators]⟩
  | cons token rest ih =>
    unfold separators
    split
    · rename_i hl
      obtain ⟨gone, hg, hk, hp, hn⟩ := ih previous
      exact ⟨token :: gone, congrArg (token :: ·) hg, List.forall_mem_cons.2 ⟨.inl hl, hk⟩,
        by simp [State.lastCounted, hl, hp], hn⟩
    split
    · rename_i hl hs
      obtain ⟨gone, hg, hk, hp, hn⟩ := ih (some token)
      exact ⟨token :: gone, congrArg (token :: ·) hg, List.forall_mem_cons.2 ⟨.inr hs, hk⟩,
        by simp [State.lastCounted, hl, hp], hn⟩
    · rename_i hl hs
      exact ⟨[], rfl, by simp, rfl, by simpa using ⟨hl, hs⟩⟩

def State.skipSeparators (s : State) : State :=
  let found := separators s.previous s.rest
  { s with previous := found.1, rest := found.2 }

theorem State.kind_skipSeparators (s : State) :
    s.skipSeparators.kind ≠ .endOfLine ∧ s.skipSeparators.kind ≠ .semicolon := by
  obtain ⟨_, _, _, _, hn⟩ := separators_passes s.previous s.rest
  cases hr : s.skipSeparators.rest with
  | nil => simp [kind_nil hr]
  | cons token rest =>
    rw [kind_cons hr]
    exact hn token (by simp [show (separators s.previous s.rest).2 = _ from hr])

theorem State.onward_skipSeparators (s : State) : s.Onward s.skipSeparators := by
  obtain ⟨gone, hg, hk, hp, _⟩ := separators_passes s.previous s.rest
  refine ⟨⟨gone, hg, fun token hm => ?_, hp⟩, rfl, rfl, fun _ _ => s.kind_skipSeparators.1,
    List.suffix_refl _, fun _ => id⟩
  rcases hk token hm with h | h <;> simp [h]

def skipSeparators : Action Unit := update State.skipSeparators State.onward_skipSeparators

def endStatement : Action Unit :=
  update (fun s => if s.kind.endsStatement then s else s.report (.unexpectedToken s.current))
    fun s => by
      split
      · exact .refl s
      · exact s.onward_report _

def readStatement (readExpr : ExprReader) : Action Expr := do
  let e ← readExpr .help
  recoverIfNeeded fun kind => kind = .endOfLine || kind = .semicolon
  endStatement
  pure e

def State.atLastStatement (s : State) : Bool :=
  s.kind = .endOfFile || (s.kind = .rightCurly && 0 < s.blockDepth)

/-- Statements up to the end of the block or of the file. Closing brackets that match nothing are
reported and gone over. The bound is on the number of statements and such brackets. -/
def readStatements (readExpr : ExprReader) : Nat → Action (List Expr)
  | 0 => pure []
  | bound + 1 => do
    skipSeparators
    let last ← look State.atLastStatement
    let kind ← look State.kind
    if last then pure []
    else if kind.closesBracket then do
      reportCurrent .unmatchedClosing
      let _ ← advance
      readStatements readExpr bound
    else do
      let e ← readStatement readExpr
      let others ← readStatements readExpr bound
      pure (e :: others)

def readFrom (readExpr : ExprReader) (bound : Nat) (level : Level) (token : Token) :
    Action Expr :=
  match startProblem? token.kind with
  | some problem => failAt problem token
  | none => do
    let first ← readStart readExpr (readStatements readExpr bound) bound token
    readOperators readExpr bound level bound first

def readExprWithin : Nat → ExprReader
  | 0, _ => readAbsent
  | bound + 1, level => do
    let kind ← look State.kind
    if kind.endsExpression then readAbsent
    else do
      let token ← advance
      readFrom (readExprWithin bound) bound level token

def readAll (tokens : List Token) : List Expr × State :=
  (readStatements (readExprWithin tokens.length) tokens.length).run (State.start tokens)

end LenientR.Reading
