import LenientR.Reading.Item

/-!
# Reading constructs

One action per construct, from the token after the one that decides it. The reader for the
expressions within is an argument, so that none of these actions is recursive.
-/

namespace LenientR.Reading

def readAfterNewlines (readExpr : ExprReader) (level : Level) : Action Expr := do
  dropNewlines
  readExpr level

def skipToClosing : Action Unit := do
  unexpectedUnless fun kind => kind = .rightParen || kind = .rightCurly || kind = .endOfFile
  recoverIfNeeded (· = .rightParen)

def readToClosing (inner : Action α) : Action α :=
  withNewlines true do
    let answer ← inner
    skipToClosing
    pure answer

def readBracketed (inner : Action α) : Action (Option Token × α × Option Token) := do
  let opening ← expect .leftParen
  match opening with
  | none => do
    let answer ← inner
    pure (none, answer, none)
  | some token => do
    let answer ← readToClosing inner
    let closing ← takeClosing token .rightParen
    pure (some token, answer, closing)

def readName : Action (Option Token) where
  run s :=
    if s.kind = .identifier ∨ s.kind = .string then (some s.current, s.advance)
    else (none, s.report (.expectedIdentifier s.current))
  onward s := by
    split
    · exact s.onward_advance
    · exact s.onward_report _

def readNamespaced (package : Token) : Action Expr := do
  let operator ← advance
  let name ← readName
  complete (.namespaced package operator name)

def readUnary (readExpr : ExprReader) (operator : Token) (level : Level) : Action Expr := do
  let operand ← readAfterNewlines readExpr level
  complete (.unary operator operand)

/-- Nothing in brackets; the closing one stands for the missing expression. -/
def readEmptyGroup (opening : Token) : Action Expr := do
  let closing ← advance
  let inner ← complete (.invalid closing)
  report (.expectedExpression closing)
  complete (.group opening inner (some closing))

def readGroupInner (readExpr : ExprReader) : Action (Option Expr) :=
  withNewlines true do
    let kind ← look State.kind
    if kind = .rightParen then pure none
    else do
      let inner ← readExpr .help
      skipToClosing
      pure (some inner)

def readGroup (readExpr : ExprReader) (opening : Token) : Action Expr := do
  let found ← readGroupInner readExpr
  match found with
  | none => readEmptyGroup opening
  | some inner => do
    let closing ← takeClosing opening .rightParen
    complete (.group opening inner closing)

def readBlock (readStatements : Action (List Expr)) (opening : Token) : Action Expr := do
  let body ← withNewlines false (inBlock readStatements)
  let closing ← takeClosing opening .rightCurly
  complete (.block opening body closing)

def readLoopVar : Action (Option Token) := do
  let kind ← look State.kind
  if kind = .identifier then do
    let name ← advance
    let _ ← complete (.var name)
    pure (some name)
  else do
    reportCurrent .expectedIdentifier
    pure none

def readLoopHead (readExpr : ExprReader) : Action (Option Token × Option Token × Expr) := do
  let loopVar ← readLoopVar
  let inWord ← expect .inWord
  let sequence ← readExpr .help
  pure (loopVar, inWord, sequence)

def readFor (readExpr : ExprReader) (keyword : Token) : Action Expr := do
  let (opening, (loopVar, inWord, sequence), closing) ← readBracketed (readLoopHead readExpr)
  let body ← readAfterNewlines readExpr .help
  complete (.forLoop keyword opening loopVar inWord sequence closing body)

/-- The body of a function; it is only read once the parameters are closed. -/
def readFunctionBody (readExpr : ExprReader) : Option Token → Action (Option Expr)
  | none => pure none
  | some _ => some <$> readAfterNewlines readExpr .help

def readFunction (readExpr : ExprReader) (bound : Nat) (keyword : Token) : Action Expr := do
  let opening ← expect .leftParen
  match opening with
  | none => complete (.function keyword none [] none none)
  | some token => do
    let (parameters, closing) ← readList readExpr bound .parameters token .rightParen
    reportRepeatedNames parameters
    let body ← readFunctionBody readExpr closing
    complete (.function keyword (some token) parameters closing body)

/-- Whether the next token is an `else`. Within a block it may be on a later line. -/
def elseFollows : Action Bool where
  run s :=
    if s.kind = .elseWord then (true, s)
    else if s.blockDepth = 0 then (false, s)
    else if s.dropNewlines.kind = .elseWord then (true, s.dropNewlines)
    else (false, s)
  onward s := by
    split
    · exact .refl s
    split
    · exact .refl s
    split
    · exact s.onward_dropNewlines
    · exact .refl s

def readAlternative (readExpr : ExprReader) : Bool → Action (Option (Token × Expr))
  | false => pure none
  | true => do
    let keyword ← advance
    let body ← readAfterNewlines readExpr .help
    pure (some (keyword, body))

def readIf (readExpr : ExprReader) (keyword : Token) : Action Expr := do
  let (opening, condition, closing) ← readBracketed (readExpr .help)
  let consequent ← readAfterNewlines readExpr .help
  let follows ← elseFollows
  let alternative ← readAlternative readExpr follows
  complete (.conditional keyword opening condition closing consequent alternative)

def readWhile (readExpr : ExprReader) (keyword : Token) : Action Expr := do
  let (opening, condition, closing) ← readBracketed (readExpr .help)
  let body ← readAfterNewlines readExpr .help
  complete (.whileLoop keyword opening condition closing body)

def readRepeat (readExpr : ExprReader) (keyword : Token) : Action Expr := do
  let body ← readAfterNewlines readExpr .help
  complete (.repeatLoop keyword body)

def readCall (readExpr : ExprReader) (bound : Nat) (callee : Expr) (opening : Token) :
    Action Expr := do
  let (arguments, closing) ← readList readExpr bound .arguments opening .rightParen
  complete (.call callee opening arguments closing)

def readIndexEnd (opening : Token) : Option Token → Action (List Token)
  | none => pure []
  | some closing =>
    if opening.kind ≠ .leftDoubleSquare then pure [closing]
    else do
      let second ← acceptOr .rightSquare fun s => .expected .rightSquare closing s.current
      pure (closing :: second.toList)

def readIndex (readExpr : ExprReader) (bound : Nat) (target : Expr) (opening : Token) :
    Action Expr := do
  let (arguments, first) ← readList readExpr bound .arguments opening .rightSquare
  let closing ← readIndexEnd opening first
  complete (.index target opening arguments closing)

def readMember (target : Expr) (operator : Token) : Action Expr := do
  let name ← readName
  complete (.member target operator name)

def readOperation (readExpr : ExprReader) (level : Level) (left : Expr) (operator : Token) :
    Action Expr := do
  let right ← readAfterNewlines readExpr (level.operandLevel operator.kind)
  complete (if operator.kind.isAssignment then .assignment left operator right
    else .binary left operator right)

def readOperator (readExpr : ExprReader) (bound : Nat) (level : Level) (left : Expr)
    (operator : Token) : Action Expr :=
  match operator.kind with
  | .leftParen => readCall readExpr bound left operator
  | .leftSquare | .leftDoubleSquare => readIndex readExpr bound left operator
  | .dollar | .atSign => readMember left operator
  | _ => readOperation readExpr level left operator

/-- Goes on as long as operators follow that bind by at least a level. The bound is on how many. -/
def readOperators (readExpr : ExprReader) (lists : Nat) (level : Level) :
    Nat → Expr → Action Expr
  | 0, left => pure left
  | bound + 1, left => do
    let kind ← look State.kind
    match Level.ofOperator? kind with
    | none => pure left
    | some found =>
      if level ≤ found then do
        let operator ← advance
        let grown ← readOperator readExpr lists found left operator
        readOperators readExpr lists level bound grown
      else pure left

end LenientR.Reading
