import LenientR.Proofs.Placement.State

/-!
# Reading at other places

Reading moved tokens gives the moved tree and the moved problems, whatever bounds the two readings
have, as long as they reach as far as the tokens left (`corresponds_readExprWithin`,
`corresponds_readStatements`). No decision of reading depends on where a token is.
-/

namespace LenientR.Reading

variable {place : Token → Nat} {base : List Expr} {m n : Nat} {readExpr readExpr' : ExprReader}

def ReadersCorrespond (place : Token → Nat) (base : List Expr) (n : Nat)
    (readExpr readExpr' : ExprReader) : Prop :=
  ∀ level, Corresponds place base n (Expr.move place) (readExpr level) (readExpr' level)

theorem ReadersCorrespond.mono (h : ReadersCorrespond place base n readExpr readExpr') (hm : m ≤ n) :
    ReadersCorrespond place base m readExpr readExpr' :=
  fun level => (h level).mono hm

-- ---------------------------------------------------------------------------
-- Recovery
-- ---------------------------------------------------------------------------

theorem seek_move (stops : Kind → Bool) (depth : Nat) (previous : Option Token)
    (tokens : List Token) :
    seek stops depth (previous.map (·.move place)) (tokens.map (·.move place)) =
      ((seek stops depth previous tokens).1.map (·.move place),
        (seek stops depth previous tokens).2.map (·.move place)) := by
  induction tokens generalizing depth previous with
  | nil => rfl
  | cons token rest ih =>
    rw [List.map_cons, seek, seek]
    by_cases hs : token.kind = .endOfFile ∨ depth = 0 ∧
        (token.kind = .rightCurly ∨ stops token.kind = true)
    · have hs' : (token.move place).kind = .endOfFile ∨ depth = 0 ∧
          ((token.move place).kind = .rightCurly ∨ stops (token.move place).kind = true) := hs
      rw [if_pos hs, if_pos hs']
      rfl
    · have hs' : ¬((token.move place).kind = .endOfFile ∨ depth = 0 ∧
          ((token.move place).kind = .rightCurly ∨ stops (token.move place).kind = true)) := hs
      rw [if_neg hs, if_neg hs', ← ih]
      by_cases hl : token.kind = .endOfLine
      · rw [if_pos hl, if_pos (show (token.move place).kind = .endOfLine from hl)]
        rfl
      · rw [if_neg hl, if_neg (show ¬(token.move place).kind = .endOfLine from hl)]
        rfl

theorem State.recover_move (stops : Kind → Bool) (s : State) :
    (s.move place base).recover stops = (s.recover stops).move place base := by
  rw [recover, recover, ← settle_move]
  simp only [move, seek_move]

theorem corresponds_recoverIfNeeded (stops : Kind → Bool) :
    Corresponds place base n id (recoverIfNeeded stops) (recoverIfNeeded stops) :=
  .update fun s _ => by
    rw [State.recover_move]
    exact (apply_ite (State.move place base) (s.recovering = true) _ _).symm

theorem corresponds_unexpectedUnless (fits : Kind → Bool) :
    Corresponds place base n id (unexpectedUnless fits) (unexpectedUnless fits) :=
  .update fun s he => by
    rw [State.kind_move, State.current_move he, State.recovering_move]
    split <;> rfl

theorem tokensBetween_move (start now : List Token) :
    tokensBetween (start.map (·.move place)) (now.map (·.move place)) =
      (tokensBetween start now).map (·.move place) := by
  simp only [tokensBetween, List.length_map, ← List.map_take, ← List.map_reverse,
    List.dropWhile_map, List.isEmpty_map]
  exact (apply_ite (List.map _) _ _ _).symm

theorem corresponds_salvage (start : List Token) (completed : List Expr) (terminator : Kind)
    (item : Item) :
    Corresponds place base n (Item.move place) (salvage start completed terminator item)
      (salvage (start.map (·.move place)) (completed.map (Expr.move place) ++ base) terminator
        (item.move place)) := by
  intro s _ _
  by_cases hf : s.recovering = true
  · have hf' : (s.move place base).recovering = true := hf
    simp only [salvage, hf, hf', if_true, State.recover_move]
    exact Prod.ext (congrArg (Item.unreadable · none) (tokensBetween_move _ _)) rfl
  · have hf' : ¬(s.move place base).recovering = true := hf
    simp only [salvage, if_neg hf, if_neg hf']

-- ---------------------------------------------------------------------------
-- Items
-- ---------------------------------------------------------------------------

theorem corresponds_readValue (hr : ReadersCorrespond place base n readExpr readExpr') (terminator : Kind)
    {ifAbsent ifAbsent' : Action Unit} (h : Corresponds place base n id ifAbsent ifAbsent') :
    Corresponds place base n (Option.map (Expr.move place)) (readValue readExpr terminator ifAbsent)
      (readValue readExpr' terminator ifAbsent') :=
  .bind look_kind fun _ => .ite (fun _ => .bind h fun _ => .pure rfl)
    fun _ => (hr .help).map fun _ => rfl

theorem corresponds_readArgument (hr : ReadersCorrespond place base n readExpr readExpr')
    (terminator : Kind) :
    Corresponds place base n (Item.move place) (readArgument readExpr terminator)
      (readArgument readExpr' terminator) := by
  refine .bind look_kind fun kind => .bind (.look (φ := id) fun s _ => s.nextKind_move) fun next => ?_
  refine .ite (fun _ => .bind corresponds_advance fun token => .pure rfl) fun _ => ?_
  refine .ite (fun _ => .pure rfl) fun _ => .ite (fun _ => ?_) fun _ => ?_
  · refine .bind corresponds_advance fun name => .bind corresponds_advance fun equals => ?_
    exact .bind (corresponds_readValue hr terminator (.pure rfl)) fun value => .pure (by
      simp [Item.move, Expr.move?_eq_map])
  · exact .bind (hr .help) fun value => .pure rfl

theorem corresponds_readDefault (hr : ReadersCorrespond place base n readExpr readExpr')
    (terminator : Kind) (equals : Option Token) :
    Corresponds place base n (Option.map (Expr.move place)) (readDefault readExpr terminator equals)
      (readDefault readExpr' terminator (equals.map (·.move place))) := by
  cases equals with
  | none => exact .pure rfl
  | some _ => exact corresponds_readValue hr terminator (corresponds_reportCurrent fun _ => rfl)

theorem corresponds_readParameter (hr : ReadersCorrespond place base n readExpr readExpr')
    (terminator : Kind) :
    Corresponds place base n (Item.move place) (readParameter readExpr terminator)
      (readParameter readExpr' terminator) := by
  refine .bind look_kind fun kind => ?_
  refine .ite (fun _ => .bind corresponds_advance fun token => .pure rfl) fun _ => ?_
  refine .ite (fun _ => .bind (corresponds_reportCurrent fun _ => rfl) fun _ => .pure rfl)
    fun _ => .ite (fun _ => ?_) fun _ => ?_
  · refine .bind corresponds_advance fun name => .bind (corresponds_accept .equal) fun equals => ?_
    exact .bind (corresponds_readDefault hr terminator equals) fun value => .pure (by
      simp [Item.move, Expr.move?_eq_map])
  · refine .bind (corresponds_fail fun s he => ?_) fun _ => .pure rfl
    rw [State.current_move he]
    rfl

theorem corresponds_readBareItem (hr : ReadersCorrespond place base n readExpr readExpr')
    (terminator : Kind) (role : ListRole) :
    Corresponds place base n (Item.move place) (readBareItem readExpr terminator role)
      (readBareItem readExpr' terminator role) := by
  cases role with
  | arguments => exact corresponds_readArgument hr terminator
  | parameters => exact corresponds_readParameter hr terminator

theorem corresponds_readItem (hr : ReadersCorrespond place base n readExpr readExpr') (role : ListRole)
    (terminator : Kind) :
    Corresponds place base n (Item.move place) (readItem readExpr role terminator)
      (readItem readExpr' role terminator) := by
  refine .bind (.look (φ := List.map (·.move place)) fun _ _ => rfl) fun start => ?_
  refine .bind look_completed fun completed => ?_
  refine .bind (corresponds_readBareItem hr terminator role) fun read => ?_
  refine .bind (corresponds_unexpectedUnless _) fun _ => ?_
  refine .bind (corresponds_salvage start completed terminator read) fun item => ?_
  refine .bind (corresponds_accept .comma) fun comma => .pure ?_
  cases comma <;> simp [attachComma]

theorem corresponds_reportEmptySlot (role : ListRole) (slot : Slot) :
    Corresponds place base n id (reportEmptySlot role slot) (reportEmptySlot role slot) :=
  .ite (fun _ => corresponds_reportCurrent fun _ => rfl) fun _ => .pure rfl

theorem Slot.after_move (item : Item) : Slot.after (item.move place) = Slot.after item := by
  simp [after]

/-- After a step that goes over a token, the rest has one token less to reach over. -/
theorem Corresponds.bind_lt {φ : α → α} {ψ : β → β} {a b : Action α} {f g : α → Action β}
    {s : State} (he : s.Ended) (hl : s.rest.length ≤ n + 1)
    (h : b.run (s.move place base) = (φ (a.run s).1, (a.run s).2.move place base))
    (hlt : (a.run s).2.rest.length < s.rest.length)
    (hn : ∀ x, Corresponds place base n ψ (f x) (g (φ x))) :
    (b >>= g).run (s.move place base) =
      (ψ ((a >>= f).run s).1, ((a >>= f).run s).2.move place base) := by
  have hr := hn (a.run s).1 (a.run s).2 ((a.onward s).passes.ended he) (by omega)
  simp only [run_bind, h, hr]

theorem corresponds_readItems (hr : ReadersCorrespond place base n readExpr readExpr')
    (he : Engages readExpr) (role : ListRole) (terminator : Kind) (slot : Slot) {a b : Nat}
    (ha : n ≤ a) (hb : n ≤ b) :
    Corresponds place base n (List.map (Item.move place)) (readItems readExpr role terminator a slot)
      (readItems readExpr' role terminator b slot) := by
  induction n generalizing a b slot with
  | zero => exact fun s hs hl => absurd hs.length_pos (by omega)
  | succ n ih =>
    obtain ⟨a, rfl⟩ : ∃ a', a = a' + 1 := ⟨a - 1, by omega⟩
    obtain ⟨b, rfl⟩ : ∃ b', b = b' + 1 := ⟨b - 1, by omega⟩
    intro s hs hl
    simp only [readItems, run_look_bind, State.kind_move]
    by_cases ht : s.kind = terminator
    · simp only [if_pos ht]
      exact (corresponds_reportEmptySlot role slot).bind
        (ψ := List.map (Item.move place)) (fun _ => .pure rfl) s hs hl
    by_cases hf : s.kind = .endOfFile
    · simp only [if_neg ht, if_pos hf]
      by_cases hslot : slot = .item <;> simp [hslot, Item.move]
    by_cases hc : s.kind = .rightCurly
    · simp only [if_neg ht, if_neg hf, if_pos hc]
      rfl
    simp only [if_neg ht, if_neg hf, if_neg hc]
    refine Corresponds.bind_lt hs hl (corresponds_readItem hr role terminator s hs hl)
      (length_readItem_lt he ht hf hc) fun item => ?_
    rw [Slot.after_move]
    exact .bind (ih (hr.mono (by omega)) _ (by omega) (by omega)) fun others => .pure rfl

theorem corresponds_finishList (opening : Token) (terminator : Kind) (completed : List Expr)
    (items : List Item) :
    Corresponds place base n (Prod.map (List.map (Item.move place)) (Option.map (Token.move place)))
      (finishList opening terminator completed items)
      (finishList (opening.move place) terminator (completed.map (Expr.move place) ++ base)
        (items.map (Item.move place))) := by
  refine .bind look_kind fun kind => .bind (corresponds_takeClosing opening terminator)
    fun closing => .ite (fun _ => ?_) fun _ => .pure rfl
  exact .bind (corresponds_discardTo completed) fun _ => .pure rfl

theorem corresponds_readList (hr : ReadersCorrespond place base n readExpr readExpr')
    (he : Engages readExpr) (role : ListRole) (opening : Token) (terminator : Kind) {a b : Nat}
    (ha : n ≤ a) (hb : n ≤ b) :
    Corresponds place base n (Prod.map (List.map (Item.move place)) (Option.map (Token.move place)))
      (readList readExpr a role opening terminator)
      (readList readExpr' b role (opening.move place) terminator) := by
  refine .bind look_completed fun completed => ?_
  refine .bind (corresponds_withNewlines true
    (corresponds_readItems hr he role terminator .opening ha hb)) fun items => ?_
  exact corresponds_finishList opening terminator completed items

theorem repeatedNames_move (parameters : List Item) (seen : List Token) :
    repeatedNames (parameters.map (Item.move place)) (seen.map (·.move place)) =
      (repeatedNames parameters seen).map (·.move place) := by
  induction parameters generalizing seen with
  | nil => rfl
  | cons parameter rest ih =>
    cases parameter with
    | named name equals value comma =>
      have ha : ((seen.map (·.move place)).any fun other => other.chars = (name.move place).chars) =
          seen.any (·.chars = name.chars) := by
        rw [List.any_map]
        rfl
      rw [List.map_cons, Item.move, repeatedNames, repeatedNames, ha]
      split
      · rw [ih, List.map_cons]
      · rw [← ih, List.map_cons]
    | _ => exact ih seen

theorem corresponds_reportRepeatedNames (parameters : List Item) :
    Corresponds place base n id (reportRepeatedNames parameters)
      (reportRepeatedNames (parameters.map (Item.move place))) := by
  intro s _ _
  have hf (names : List Token) (s : State) :
      (names.map (·.move place)).foldl (fun s name => s.report (.duplicateParameter name))
          (s.move place base) =
        (names.foldl (fun s name => s.report (.duplicateParameter name)) s).move place base := by
    induction names generalizing s with
    | nil => rfl
    | cons name rest ih => exact ih (s.report (.duplicateParameter name))
  have hn : repeatedNames (parameters.map (Item.move place)) [] =
      (repeatedNames parameters []).map (·.move place) := repeatedNames_move parameters []
  exact congrArg (Prod.mk ()) (by rw [hn]; exact hf _ s)

-- ---------------------------------------------------------------------------
-- Constructs
-- ---------------------------------------------------------------------------

theorem corresponds_readAfterNewlines (hr : ReadersCorrespond place base n readExpr readExpr')
    (level : Level) :
    Corresponds place base n (Expr.move place) (readAfterNewlines readExpr level)
      (readAfterNewlines readExpr' level) :=
  .bind corresponds_dropNewlines fun _ => hr level

theorem corresponds_skipToClosing : Corresponds place base n id skipToClosing skipToClosing :=
  .bind (corresponds_unexpectedUnless _) fun _ => corresponds_recoverIfNeeded _

theorem corresponds_readToClosing {φ : α → α} {a b : Action α} (h : Corresponds place base n φ a b) :
    Corresponds place base n φ (readToClosing a) (readToClosing b) :=
  corresponds_withNewlines true <|
    .bind h fun _ => .bind corresponds_skipToClosing fun _ => .pure rfl

theorem corresponds_readBracketed {φ : α → α} {a b : Action α} (h : Corresponds place base n φ a b) :
    Corresponds place base n
      (Prod.map (Option.map (Token.move place)) (Prod.map φ (Option.map (Token.move place))))
      (readBracketed a) (readBracketed b) := by
  refine .bind (corresponds_expect .leftParen) fun opening => ?_
  cases opening with
  | none => exact .bind h fun _ => .pure rfl
  | some token =>
    refine .bind (corresponds_readToClosing h) fun answer => ?_
    exact .bind (corresponds_takeClosing token .rightParen) fun _ => .pure rfl

theorem corresponds_readName :
    Corresponds place base n (Option.map (Token.move place)) readName readName := by
  intro s he _
  simp only [readName, State.kind_move, State.current_move he, State.advance_move]
  split <;> rfl

theorem corresponds_readNamespaced (package : Token) :
    Corresponds place base n (Expr.move place) (readNamespaced package)
      (readNamespaced (package.move place)) :=
  .bind corresponds_advance fun _ => .bind corresponds_readName fun _ => corresponds_complete rfl

theorem corresponds_readUnary (hr : ReadersCorrespond place base n readExpr readExpr')
    (operator : Token) (level : Level) :
    Corresponds place base n (Expr.move place) (readUnary readExpr operator level)
      (readUnary readExpr' (operator.move place) level) :=
  .bind (corresponds_readAfterNewlines hr level) fun _ => corresponds_complete rfl

theorem corresponds_readEmptyGroup (opening : Token) :
    Corresponds place base n (Expr.move place) (readEmptyGroup opening)
      (readEmptyGroup (opening.move place)) :=
  .bind corresponds_advance fun _ => .bind (corresponds_complete rfl) fun _ =>
    .bind (corresponds_report _) fun _ => corresponds_complete rfl

theorem corresponds_readGroup (hr : ReadersCorrespond place base n readExpr readExpr')
    (opening : Token) :
    Corresponds place base n (Expr.move place) (readGroup readExpr opening)
      (readGroup readExpr' (opening.move place)) := by
  have hi : Corresponds place base n (Option.map (Expr.move place)) (readGroupInner readExpr)
      (readGroupInner readExpr') :=
    corresponds_withNewlines true <| .bind look_kind fun _ => .ite (fun _ => .pure rfl) fun _ =>
      .bind (hr .help) fun _ => .bind corresponds_skipToClosing fun _ => .pure rfl
  refine .bind hi fun found => ?_
  cases found with
  | none => exact corresponds_readEmptyGroup opening
  | some inner =>
    exact .bind (corresponds_takeClosing opening .rightParen) fun _ => corresponds_complete rfl

theorem corresponds_readBlock {statements statements' : Action (List Expr)}
    (h : Corresponds place base n (List.map (Expr.move place)) statements statements')
    (opening : Token) :
    Corresponds place base n (Expr.move place) (readBlock statements opening)
      (readBlock statements' (opening.move place)) :=
  .bind (corresponds_withNewlines false (corresponds_inBlock h)) fun _ =>
    .bind (corresponds_takeClosing opening .rightCurly) fun _ =>
      corresponds_complete (by rw [Expr.move, Expr.moveAll_eq_map])

theorem corresponds_readLoopVar :
    Corresponds place base n (Option.map (Token.move place)) readLoopVar readLoopVar :=
  .bind look_kind fun _ => .ite
    (fun _ => .bind corresponds_advance fun _ => .bind (corresponds_complete rfl) fun _ => .pure rfl)
    fun _ => .bind (corresponds_reportCurrent fun _ => rfl) fun _ => .pure rfl

theorem corresponds_readLoopHead (hr : ReadersCorrespond place base n readExpr readExpr') :
    Corresponds place base n
      (Prod.map (Option.map (Token.move place))
        (Prod.map (Option.map (Token.move place)) (Expr.move place)))
      (readLoopHead readExpr) (readLoopHead readExpr') :=
  .bind corresponds_readLoopVar fun _ => .bind (corresponds_expect .inWord) fun _ =>
    .bind (hr .help) fun _ => .pure rfl

theorem corresponds_readFor (hr : ReadersCorrespond place base n readExpr readExpr') (keyword : Token) :
    Corresponds place base n (Expr.move place) (readFor readExpr keyword)
      (readFor readExpr' (keyword.move place)) :=
  .bind (corresponds_readBracketed (corresponds_readLoopHead hr)) fun _ =>
    .bind (corresponds_readAfterNewlines hr .help) fun _ => corresponds_complete rfl

theorem corresponds_readFunctionBody (hr : ReadersCorrespond place base n readExpr readExpr')
    (closing : Option Token) :
    Corresponds place base n (Option.map (Expr.move place)) (readFunctionBody readExpr closing)
      (readFunctionBody readExpr' (closing.map (·.move place))) := by
  cases closing with
  | none => exact .pure rfl
  | some _ => exact (corresponds_readAfterNewlines hr .help).map fun _ => rfl

theorem corresponds_readFunction (hr : ReadersCorrespond place base n readExpr readExpr')
    (he : Engages readExpr) {a b : Nat} (ha : n ≤ a) (hb : n ≤ b) (keyword : Token) :
    Corresponds place base n (Expr.move place) (readFunction readExpr a keyword)
      (readFunction readExpr' b (keyword.move place)) := by
  refine .bind (corresponds_expect .leftParen) fun opening => ?_
  cases opening with
  | none => exact corresponds_complete rfl
  | some token =>
    refine .bind (corresponds_readList hr he .parameters token .rightParen ha hb) fun found => ?_
    refine .bind (corresponds_reportRepeatedNames found.1) fun _ => ?_
    refine .bind (corresponds_readFunctionBody hr found.2) fun body => corresponds_complete ?_
    rw [Expr.move, Item.moveAll_eq_map, Expr.move?_eq_map]
    rfl

theorem corresponds_elseFollows : Corresponds place base n id elseFollows elseFollows := by
  intro s _ _
  simp only [elseFollows, State.kind_move, State.dropNewlines_move, State.blockDepth_move]
  split
  · rfl
  split
  · rfl
  split <;> rfl

theorem corresponds_readAlternative (hr : ReadersCorrespond place base n readExpr readExpr')
    (follows : Bool) :
    Corresponds place base n (Option.map (Prod.map (Token.move place) (Expr.move place)))
      (readAlternative readExpr follows) (readAlternative readExpr' follows) := by
  cases follows with
  | false => exact .pure rfl
  | true =>
    exact .bind corresponds_advance fun _ => .bind (corresponds_readAfterNewlines hr .help)
      fun _ => .pure rfl

theorem corresponds_readIf (hr : ReadersCorrespond place base n readExpr readExpr') (keyword : Token) :
    Corresponds place base n (Expr.move place) (readIf readExpr keyword)
      (readIf readExpr' (keyword.move place)) :=
  .bind (corresponds_readBracketed (hr .help)) fun _ =>
    .bind (corresponds_readAfterNewlines hr .help) fun _ =>
      .bind corresponds_elseFollows fun follows =>
        .bind (corresponds_readAlternative hr follows) fun _ =>
          corresponds_complete (by rw [Expr.move, Expr.moveElse_eq_map])

theorem corresponds_readWhile (hr : ReadersCorrespond place base n readExpr readExpr')
    (keyword : Token) :
    Corresponds place base n (Expr.move place) (readWhile readExpr keyword)
      (readWhile readExpr' (keyword.move place)) :=
  .bind (corresponds_readBracketed (hr .help)) fun _ =>
    .bind (corresponds_readAfterNewlines hr .help) fun _ => corresponds_complete rfl

theorem corresponds_readRepeat (hr : ReadersCorrespond place base n readExpr readExpr')
    (keyword : Token) :
    Corresponds place base n (Expr.move place) (readRepeat readExpr keyword)
      (readRepeat readExpr' (keyword.move place)) :=
  .bind (corresponds_readAfterNewlines hr .help) fun _ => corresponds_complete rfl

theorem corresponds_readCall (hr : ReadersCorrespond place base n readExpr readExpr')
    (he : Engages readExpr) {a b : Nat} (ha : n ≤ a) (hb : n ≤ b) (callee : Expr)
    (opening : Token) :
    Corresponds place base n (Expr.move place) (readCall readExpr a callee opening)
      (readCall readExpr' b (callee.move place) (opening.move place)) :=
  .bind (corresponds_readList hr he .arguments opening .rightParen ha hb) fun _ =>
    corresponds_complete (by rw [Expr.move, Item.moveAll_eq_map])

theorem corresponds_readIndexEnd (opening : Token) (closing : Option Token) :
    Corresponds place base n (List.map (Token.move place)) (readIndexEnd opening closing)
      (readIndexEnd (opening.move place) (closing.map (·.move place))) := by
  cases closing with
  | none => exact .pure rfl
  | some token =>
    refine .ite (fun _ => .pure rfl) fun _ => ?_
    refine .bind (corresponds_acceptOr .rightSquare fun s he => ?_) fun second => .pure ?_
    · rw [State.current_move he]
      rfl
    · cases second <;> rfl

theorem corresponds_readIndex (hr : ReadersCorrespond place base n readExpr readExpr')
    (he : Engages readExpr) {a b : Nat} (ha : n ≤ a) (hb : n ≤ b) (target : Expr)
    (opening : Token) :
    Corresponds place base n (Expr.move place) (readIndex readExpr a target opening)
      (readIndex readExpr' b (target.move place) (opening.move place)) :=
  .bind (corresponds_readList hr he .arguments opening .rightSquare ha hb) fun found =>
    .bind (corresponds_readIndexEnd opening found.2) fun _ =>
      corresponds_complete (by rw [Expr.move, Item.moveAll_eq_map])

theorem corresponds_readMember (target : Expr) (operator : Token) :
    Corresponds place base n (Expr.move place) (readMember target operator)
      (readMember (target.move place) (operator.move place)) :=
  .bind corresponds_readName fun _ => corresponds_complete rfl

theorem corresponds_readOperation (hr : ReadersCorrespond place base n readExpr readExpr')
    (level : Level) (left : Expr) (operator : Token) :
    Corresponds place base n (Expr.move place) (readOperation readExpr level left operator)
      (readOperation readExpr' level (left.move place) (operator.move place)) :=
  .bind (corresponds_readAfterNewlines hr _) fun _ =>
    corresponds_complete (by rw [Token.kind_move]; split <;> rfl)

theorem corresponds_readOperator (hr : ReadersCorrespond place base n readExpr readExpr')
    (he : Engages readExpr) {a b : Nat} (ha : n ≤ a) (hb : n ≤ b) (level : Level) (left : Expr)
    (operator : Token) :
    Corresponds place base n (Expr.move place) (readOperator readExpr a level left operator)
      (readOperator readExpr' b level (left.move place) (operator.move place)) := by
  unfold readOperator
  rw [Token.kind_move]
  split
  · exact corresponds_readCall hr he ha hb left operator
  · exact corresponds_readIndex hr he ha hb left operator
  · exact corresponds_readIndex hr he ha hb left operator
  · exact corresponds_readMember left operator
  · exact corresponds_readMember left operator
  · exact corresponds_readOperation hr level left operator

theorem corresponds_readOperators (hr : ReadersCorrespond place base n readExpr readExpr')
    (he : Engages readExpr) {lists lists' : Nat} (hl : n ≤ lists) (hl' : n ≤ lists')
    (level : Level) (left : Expr) {a b : Nat} (ha : n ≤ a) (hb : n ≤ b) :
    Corresponds place base n (Expr.move place) (readOperators readExpr lists level a left)
      (readOperators readExpr' lists' level b (left.move place)) := by
  induction n generalizing a b left with
  | zero => exact fun s hs hl => absurd hs.length_pos (by omega)
  | succ n ih =>
    obtain ⟨a, rfl⟩ : ∃ a', a = a' + 1 := ⟨a - 1, by omega⟩
    obtain ⟨b, rfl⟩ : ∃ b', b = b' + 1 := ⟨b - 1, by omega⟩
    intro s hs hlen
    simp only [readOperators, run_look_bind, State.kind_move]
    cases hf : Level.ofOperator? s.kind with
    | none => rfl
    | some found =>
      dsimp only
      split
      · refine Corresponds.bind_lt hs hlen (corresponds_advance (n := n + 1) s hs hlen) ?_
          fun operator => ?_
        · exact State.length_advance_lt fun h => by simp [h, Level.ofOperator?] at hf
        · exact .bind (corresponds_readOperator (hr.mono (by omega)) he (by omega) (by omega) found
            left operator) fun grown => ih (hr.mono (by omega)) (by omega) (by omega) grown
              (by omega) (by omega)
      · rfl

-- ---------------------------------------------------------------------------
-- Expressions and statements
-- ---------------------------------------------------------------------------

theorem corresponds_failAt {problem : Token → Problem}
    (h : ∀ token, problem (token.move place) = (problem token).move place) (token : Token) :
    Corresponds place base n (Expr.move place) (failAt problem token)
      (failAt problem (token.move place)) :=
  .bind (corresponds_fail fun _ _ => h token) fun _ => corresponds_complete rfl

theorem corresponds_readAbsent :
    Corresponds place base n (Expr.move place) readAbsent readAbsent :=
  .bind (.look fun _ h => State.current_move h) fun token => corresponds_failAt (fun _ => rfl) token

theorem startProblem?_move {kind : Kind} {problem : Token → Problem}
    (h : startProblem? kind = some problem) (token : Token) :
    problem (token.move place) = (problem token).move place := by
  unfold startProblem? at h
  split at h <;> simp only [Option.some.injEq, reduceCtorEq] at h <;> subst h <;> rfl

theorem corresponds_readNameOr {other : Token → Expr}
    (h : ∀ token, (other token).move place = other (token.move place)) (token : Token) :
    Corresponds place base n (Expr.move place) (readNameOr other token)
      (readNameOr other (token.move place)) :=
  .bind look_kind fun _ => .ite (fun _ => corresponds_readNamespaced token)
    fun _ => corresponds_complete (h token)

theorem corresponds_readStart (hr : ReadersCorrespond place base n readExpr readExpr')
    (he : Engages readExpr) {statements statements' : Action (List Expr)}
    (hs : Corresponds place base n (List.map (Expr.move place)) statements statements') {a b : Nat}
    (ha : n ≤ a) (hb : n ≤ b) (token : Token) :
    Corresponds place base n (Expr.move place) (readStart readExpr statements a token)
      (readStart readExpr' statements' b (token.move place)) := by
  unfold readStart
  rw [Token.kind_move]
  split
  · exact corresponds_readNameOr (fun _ => rfl) token
  · exact corresponds_readNameOr (fun _ => rfl) token
  · exact corresponds_complete rfl
  · exact .bind (corresponds_report _) fun _ => corresponds_complete rfl
  · exact corresponds_readBlock hs token
  · exact corresponds_readGroup hr token
  · exact corresponds_readFunction hr he ha hb token
  · exact corresponds_readFunction hr he ha hb token
  · exact corresponds_readUnary hr token .sign
  · exact corresponds_readUnary hr token .sign
  · exact corresponds_readUnary hr token .not
  · exact corresponds_readUnary hr token .tilde
  · exact corresponds_readUnary hr token .help
  · exact corresponds_readIf hr token
  · exact corresponds_readFor hr token
  · exact corresponds_readWhile hr token
  · exact corresponds_readRepeat hr token
  · exact corresponds_complete rfl
  · exact corresponds_complete rfl
  · exact corresponds_complete rfl

theorem separators_move (previous : Option Token) (tokens : List Token) :
    separators (previous.map (·.move place)) (tokens.map (·.move place)) =
      ((separators previous tokens).1.map (·.move place),
        (separators previous tokens).2.map (·.move place)) := by
  induction tokens generalizing previous with
  | nil => rfl
  | cons token rest ih =>
    rw [List.map_cons, separators, separators, Token.kind_move]
    split
    · exact ih previous
    split
    · exact ih (some token)
    · rfl

theorem State.skipSeparators_move (s : State) :
    (s.move place base).skipSeparators = s.skipSeparators.move place base := by
  simp only [skipSeparators, move, separators_move]

theorem corresponds_endStatement : Corresponds place base n id endStatement endStatement :=
  .update fun s he => by
    rw [State.kind_move, State.current_move he]
    split <;> rfl

theorem corresponds_readStatement (hr : ReadersCorrespond place base n readExpr readExpr') :
    Corresponds place base n (Expr.move place) (readStatement readExpr) (readStatement readExpr') :=
  .bind (hr .help) fun _ => .bind (corresponds_recoverIfNeeded _) fun _ =>
    .bind corresponds_endStatement fun _ => .pure rfl

theorem State.atLastStatement_move (s : State) :
    (s.move place base).atLastStatement = s.atLastStatement := by
  simp only [atLastStatement, kind_move]
  rfl

theorem corresponds_readStatements (hr : ReadersCorrespond place base n readExpr readExpr')
    (he : Engages readExpr) {a b : Nat} (ha : n ≤ a) (hb : n ≤ b) :
    Corresponds place base n (List.map (Expr.move place)) (readStatements readExpr a)
      (readStatements readExpr' b) := by
  induction n generalizing a b with
  | zero => exact fun s hs hl => absurd hs.length_pos (by omega)
  | succ n ih =>
    obtain ⟨a, rfl⟩ : ∃ a', a = a' + 1 := ⟨a - 1, by omega⟩
    obtain ⟨b, rfl⟩ : ∃ b', b = b' + 1 := ⟨b - 1, by omega⟩
    have hi := ih (hr.mono (by omega)) (a := a) (b := b) (by omega) (by omega)
    intro s hs hl
    obtain ⟨hn, hm⟩ := s.kind_skipSeparators
    replace hs := s.onward_skipSeparators.passes.ended hs
    replace hl := Nat.le_trans s.onward_skipSeparators.passes.length_le hl
    rw [run_readStatements_succ, run_readStatements_succ, State.skipSeparators_move]
    generalize s.skipSeparators = t at hn hm hs hl ⊢
    simp only [State.kind_move, State.atLastStatement_move]
    by_cases hlast : t.atLastStatement = true
    · simp only [if_pos hlast]
      rfl
    simp only [if_neg hlast]
    have hf : t.kind ≠ .endOfFile := fun h => hlast (by simp [State.atLastStatement, h])
    by_cases hc : t.kind.closesBracket = true
    · simp only [if_pos hc]
      have hp : Corresponds place base (n + 1) (Token.move place)
          (reportCurrent .unmatchedClosing >>= fun _ => advance)
          (reportCurrent .unmatchedClosing >>= fun _ => advance) :=
        .bind (corresponds_reportCurrent fun _ => rfl) fun _ => corresponds_advance
      exact Corresponds.bind_lt (a := reportCurrent .unmatchedClosing >>= fun _ => advance)
        (f := fun _ => readStatements readExpr a) (g := fun _ => readStatements readExpr' b)
        hs hl (hp t hs hl) (State.length_advance_lt hf) fun _ => hi
    · simp only [if_neg hc]
      have hcurly : t.kind ≠ .rightCurly := fun h => hc (by simp [h, Kind.closesBracket])
      exact Corresponds.bind_lt hs hl (corresponds_readStatement hr t hs hl)
        (length_readStatement_lt he hf hcurly hn hm) fun e => .bind hi fun _ => .pure rfl

theorem corresponds_readFrom (hr : ReadersCorrespond place base n readExpr readExpr')
    (he : Engages readExpr) {a b : Nat} (ha : n ≤ a) (hb : n ≤ b) (level : Level) (token : Token) :
    Corresponds place base n (Expr.move place) (readFrom readExpr a level token)
      (readFrom readExpr' b level (token.move place)) := by
  unfold readFrom
  rw [Token.kind_move]
  split
  · rename_i problem h
    exact corresponds_failAt (startProblem?_move h) token
  · exact .bind (corresponds_readStart hr he (corresponds_readStatements hr he ha hb) ha hb token)
      fun first => corresponds_readOperators hr he ha hb level first ha hb

/-- Bounds that reach as far as the tokens left give the same reading, on moved tokens too. -/
theorem corresponds_readExprWithin {a b : Nat} (ha : n ≤ a) (hb : n ≤ b) :
    ReadersCorrespond place base n (readExprWithin a) (readExprWithin b) := by
  induction n generalizing a b with
  | zero => exact fun level s hs hl => absurd hs.length_pos (by omega)
  | succ n ih =>
    obtain ⟨a, rfl⟩ : ∃ a', a = a' + 1 := ⟨a - 1, by omega⟩
    obtain ⟨b, rfl⟩ : ∃ b', b = b' + 1 := ⟨b - 1, by omega⟩
    intro level s hs hl
    simp only [readExprWithin, run_look_bind, State.kind_move]
    by_cases hk : s.kind.endsExpression = true
    · simp only [if_pos hk]
      exact corresponds_readAbsent s hs hl
    · simp only [if_neg hk]
      have hf : s.kind ≠ .endOfFile := fun h => hk (by simp [h, Kind.endsExpression])
      exact Corresponds.bind_lt hs hl (corresponds_advance (n := n + 1) s hs hl)
        (State.length_advance_lt hf) fun token => corresponds_readFrom (ih (by omega) (by omega))
          (engages_readExprWithin a) (by omega) (by omega) level token

theorem readAll_move {tokens : List Token} (h : (State.start tokens).Ended) :
    readAll (tokens.map (·.move place)) =
      ((readAll tokens).1.map (Expr.move place), (readAll tokens).2.move place []) := by
  have hl : tokens.length ≤ (tokens.map (·.move place)).length := by simp
  exact corresponds_readStatements (corresponds_readExprWithin (Nat.le_refl _) hl)
    (engages_readExprWithin _) (Nat.le_refl _) hl (State.start tokens) h (Nat.le_refl _)

-- ---------------------------------------------------------------------------
-- Bounds
-- ---------------------------------------------------------------------------

section
variable {a b : Nat} {s : State} (he : s.Ended) (ha : s.rest.length ≤ a) (hb : s.rest.length ≤ b)
include he ha hb

theorem readExprWithin_congr (level : Level) :
    (readExprWithin a level).run s = (readExprWithin b level).run s :=
  (corresponds_readExprWithin ha hb level).run_eq Expr.move_start he (Nat.le_refl _)

theorem readItems_congr {i j : Nat} (hi : s.rest.length ≤ i) (hj : s.rest.length ≤ j)
    (role : ListRole) (terminator : Kind) (slot : Slot) :
    (readItems (readExprWithin a) role terminator i slot).run s =
      (readItems (readExprWithin b) role terminator j slot).run s :=
  (corresponds_readItems (corresponds_readExprWithin ha hb) (engages_readExprWithin a) role
    terminator slot hi hj).run_eq (fun items => by simp [funext Item.move_start]) he (Nat.le_refl _)

theorem readOperators_congr {i j k l : Nat} (hi : s.rest.length ≤ i) (hj : s.rest.length ≤ j)
    (hk : s.rest.length ≤ k) (hl : s.rest.length ≤ l) (level : Level) (left : Expr) :
    (readOperators (readExprWithin a) i level k left).run s =
      (readOperators (readExprWithin b) j level l left).run s := by
  have hr : ReadersCorrespond Token.start [] s.rest.length (readExprWithin a) (readExprWithin b) :=
    corresponds_readExprWithin ha hb
  have h := corresponds_readOperators hr (engages_readExprWithin a) hi hj level left hk hl
  rw [Expr.move_start] at h
  exact h.run_eq Expr.move_start he (Nat.le_refl _)

theorem readStatements_congr {i j : Nat} (hi : s.rest.length ≤ i) (hj : s.rest.length ≤ j) :
    (readStatements (readExprWithin a) i).run s = (readStatements (readExprWithin b) j).run s :=
  (corresponds_readStatements (corresponds_readExprWithin ha hb) (engages_readExprWithin a) hi
    hj).run_eq (fun exprs => by simp [funext Expr.move_start]) he (Nat.le_refl _)

end

end LenientR.Reading
