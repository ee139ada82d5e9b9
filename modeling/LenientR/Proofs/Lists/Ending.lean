import LenientR.Proofs.Laying.Reading

/-!
# Where expressions end

An expression that does not fail ends in the last token gone over, unless the end of the file cuts
it off in brackets that are never closed (`Ends`). In round and curly brackets recovery skips
tokens without keeping them, so those may be followed by tokens that belong to no node.
-/

namespace LenientR

/-- Round or curly brackets that are never closed. What is skipped in them is not kept. -/
def Node.isOpenRegion : Node → Bool
  | .expr (.block _ _ none) | .expr (.group _ _ none) => true
  | _ => false

mutual
/-- The last of the nodes at the end of a node is in brackets that are never closed. -/
def Outline.trailsOff : Outline → Bool
  | .node label _ parts => label.isOpenRegion || Part.trailsOff parts
def Part.trailsOff : List Part → Bool
  | [] => false
  | .token _ :: rest => Part.trailsOff rest
  | .child outline :: rest => if rest.isEmpty then outline.trailsOff else Part.trailsOff rest
end

theorem Part.trailsOff_append (parts : List Part) {others : List Part}
    (h : Part.trailsOff others = true) : Part.trailsOff (parts ++ others) = true := by
  have hne : others ≠ [] := by
    rintro rfl
    cases h
  induction parts with
  | nil => exact h
  | cons part rest ih =>
    cases part with
    | token token => exact ih
    | child outline => simp [Part.trailsOff, hne, ih]

namespace Reading

/-- What the parts read so far end in. In front of a curly bracket the list that encloses them is
given up. -/
def Ends (parts : List Part) (s : State) : Prop :=
  s.recovering = true ∨ s.kind = .rightCurly ∨
    (s.kind = .endOfFile ∧ Part.trailsOff parts = true) ∨
      ∃ token, (Part.tokens parts).getLast? = some token ∧ s.previous = some token

namespace Ends

variable {parts : List Part} {s t : State}

theorem prepend (h : Ends parts s) (pre : List Part) : Ends (pre ++ parts) s := by
  refine h.imp_right (.imp_right (.imp ?_ ?_))
  · exact fun h => ⟨h.1, Part.trailsOff_append pre h.2⟩
  · rintro ⟨token, hl, hp⟩
    exact ⟨token, by simp [Part.tokens_append, hl], hp⟩

theorem node (h : Ends parts s) (label : Node) : Ends [.child (.of label parts)] s := by
  refine h.imp_right (.imp_right (.imp ?_ ?_))
  · exact fun h => ⟨h.1, by simp [Part.trailsOff, Outline.of, Outline.trailsOff, h.2]⟩
  · rintro ⟨token, hl, hp⟩
    exact ⟨token, by rw [Part.tokens_child_of, hl], hp⟩

theorem congr (h : Ends parts s) (hk : t.kind = s.kind) (hp : t.previous = s.previous)
    (hr : s.recovering = true → t.recovering = true) : Ends parts t :=
  h.imp hr (.imp hk.trans (.imp (.imp_left hk.trans)
    fun ⟨token, hl, hs⟩ => ⟨token, hl, hp.trans hs⟩))

theorem of_previous {token : Token} (h : s.previous = some token) : Ends [.token token] s :=
  .inr (.inr (.inr ⟨token, rfl, h⟩))

theorem complete (h : Ends parts s) {e : Expr}
    (ho : ∃ pre, e.outline = .of (.expr e) (pre ++ parts)) :
    Ends [.child ((complete e).run s).1.outline] ((complete e).run s).2 := by
  obtain ⟨pre, ho⟩ := ho
  have hn := (h.prepend pre).node (.expr e)
  rw [← ho] at hn
  exact hn

end Ends

variable {tokens : List Token} {m n : Nat} {P : State → Prop} {readExpr : ExprReader}

def EndsExpr (tokens : List Token) (n : Nat) (P : State → Prop) (action : Action Expr) : Prop :=
  Triple tokens n P action fun e => Ends [.child e.outline]

def ReaderEnds (tokens : List Token) (n : Nat) (readExpr : ExprReader) : Prop :=
  ∀ level, EndsExpr tokens n (fun _ => True) (readExpr level)

-- ---------------------------------------------------------------------------
-- Steps
-- ---------------------------------------------------------------------------

theorem EndsExpr.of_last {action : Action α} {next : α → Action Expr}
    (h : ∀ x, EndsExpr tokens n (fun _ => True) (next x)) :
    EndsExpr tokens n P (action >>= next) :=
  fun _ ha _ => h _ _ (ha.run action) trivial

theorem EndsExpr.bind_complete {action : Action Expr} (h : EndsExpr tokens n P action)
    {node : Expr → Expr}
    (ho : ∀ e, ∃ pre, (node e).outline = .of (.expr (node e)) (pre ++ [.child e.outline])) :
    EndsExpr tokens n P (action >>= fun e => Reading.complete (node e)) :=
  Triple.bind h fun e _ _ hs => hs.complete (ho e)

theorem acceptOr_run (kind : Kind) (problem : State → Problem) (s : State) :
    s.kind = kind ∧ (acceptOr kind problem).run s = (some s.current, s.advance) ∨
      s.kind ≠ kind ∧ (acceptOr kind problem).run s = (none, s.report (problem s)) := by
  by_cases h : s.kind = kind
  · exact .inl ⟨h, if_pos h⟩
  · exact .inr ⟨h, if_neg h⟩

theorem ends_acceptOr {parts : List Part} {kind : Kind} (problem : State → Problem)
    (he : kind ≠ .endOfFile) (hl : kind ≠ .endOfLine) :
    Triple tokens n (Ends parts) (acceptOr kind problem) fun found =>
      Ends (parts ++ Part.ofToken? found) := by
  intro s ha hs
  rcases acceptOr_run kind problem s with ⟨rfl, hrun⟩ | ⟨_, hrun⟩ <;> rw [hrun]
  · exact (Ends.of_previous (ha.previous_advance he hl)).prepend parts
  · rw [show Part.ofToken? none = [] from rfl, List.append_nil]
    exact hs.congr rfl rfl id

theorem ends_readName {parts : List Part} :
    Triple tokens n (Ends parts) readName fun found => Ends (parts ++ Part.ofToken? found) := by
  intro s ha hs
  by_cases hk : s.kind = .identifier ∨ s.kind = .string
  · rw [show readName.run s = (some s.current, s.advance) from if_pos hk]
    refine (Ends.of_previous (ha.previous_advance ?_ ?_)).prepend parts <;>
      rcases hk with hk | hk <;> simp [hk]
  · rw [show readName.run s = (none, s.report (.expectedIdentifier s.current)) from if_neg hk]
    rw [show Part.ofToken? none = [] from rfl, List.append_nil]
    exact hs.congr rfl rfl id

theorem seek_head (stops : Kind → Bool) (depth : Nat) (previous : Option Token)
    (tokens : List Token) : ∀ token ∈ (seek stops depth previous tokens).2.head?,
      token.kind = .endOfFile ∨ token.kind = .rightCurly ∨ stops token.kind = true := by
  induction tokens generalizing depth previous with
  | nil => simp [seek]
  | cons token rest ih =>
    rw [seek]
    split
    · rename_i hs
      intro found hm
      obtain rfl : token = found := by simpa using hm
      exact hs.imp_right And.right
    · exact ih _ _

theorem State.kind_recover {stops : Kind → Bool} (hl : stops .endOfLine = false) (s : State) :
    (s.recover stops).kind = .endOfFile ∨ (s.recover stops).kind = .rightCurly ∨
      stops (s.recover stops).kind = true := by
  let found := seek stops 0 s.previous s.rest
  let t : State := { s with previous := found.1, rest := found.2, recovering := false }
  have hk : t.kind = .endOfFile ∨ t.kind = .rightCurly ∨ stops t.kind = true := by
    cases hr : t.rest with
    | nil => exact .inl (kind_nil hr)
    | cons token rest =>
      rw [kind_cons hr]
      exact seek_head stops 0 s.previous s.rest token (by simp [show found.2 = _ from hr, found])
  have hn : t.kind ≠ .endOfLine := by
    intro h
    simp [h, hl] at hk
  rw [show s.recover stops = t.settle from rfl, settle_of_settled fun _ => hn]
  exact hk

theorem ends_advance : Triple tokens n (fun s => s.kind ≠ .endOfFile ∧ s.kind ≠ .endOfLine) advance
    fun token => Ends [.token token] :=
  fun _ ha hs => .of_previous (ha.previous_advance hs.1 hs.2)

/-- Without newlines in between, an action under another setting ends where it does by itself. -/
theorem withNewlines_run {skips : Bool} {action : Action α} {s : State}
    (hk : skips = true ∨
      (action.run { s with skipsNewlines := skips }.settle).2.kind ≠ .endOfLine) :
    (withNewlines skips action).run s =
      let found := action.run { s with skipsNewlines := skips }.settle
      (found.1, { found.2 with skipsNewlines := s.skipsNewlines }) := by
  let t := { s with skipsNewlines := skips }.settle
  have ho := action.onward t
  have hn : (action.run t).2.kind ≠ .endOfLine := by
    rcases hk with rfl | hk
    · refine ho.settled (State.settled_settle _) ?_
      rw [ho.skipsNewlines]
      exact (State.settle_frame _).1
    · exact hk
  exact congrArg (Prod.mk _) (State.settle_of_settled fun _ => hn)

theorem Triple.withNewlines {skips : Bool} {action : Action α} {R : State → Prop}
    {Q : α → State → Prop} (h : Triple tokens n R action Q)
    (hp : ∀ s, P s → R { s with skipsNewlines := skips }.settle)
    (hk : skips = true ∨ ∀ x s, Q x s → s.kind ≠ .endOfLine)
    (hq : ∀ x s skipped, Q x s → Q x { s with skipsNewlines := skipped }) :
    Triple tokens n P (Reading.withNewlines skips action) Q := by
  intro s ha hs
  have ht : s.Passes { s with skipsNewlines := skips }.settle :=
    .trans (t := { s with skipsNewlines := skips }) (.of_eq rfl rfl) (State.passes_settle _)
  have hrun := h _ (ha.onward ht) (hp s hs)
  rw [withNewlines_run (hk.imp_right fun hk => hk _ _ hrun)]
  exact hq _ _ _ hrun

theorem unexpectedUnless_fits (fits : Kind → Bool) (s : State) :
    ((unexpectedUnless fits).run s).2.recovering = true ∨
      fits ((unexpectedUnless fits).run s).2.kind = true := by
  simp only [unexpectedUnless, update]
  split
  · rename_i h
    exact (Bool.or_eq_true _ _).mp h
  · exact .inl rfl

theorem unexpectedUnless_eq {fits : Kind → Bool} {s : State}
    (h : ((unexpectedUnless fits).run s).2.recovering = false) :
    ((unexpectedUnless fits).run s).2 = s := by
  simp only [unexpectedUnless, update] at h ⊢
  split
  · rfl
  · rename_i hs
    rw [if_neg hs] at h
    cases h

-- ---------------------------------------------------------------------------
-- Constructs
-- ---------------------------------------------------------------------------

theorem ends_readAfterNewlines (hr : ReaderEnds tokens n readExpr) (level : Level) :
    EndsExpr tokens n P (readAfterNewlines readExpr level) :=
  .of_last fun _ => hr level

theorem ends_readNamespaced (package : Token) :
    EndsExpr tokens n (fun s => s.kind ≠ .endOfFile ∧ s.kind ≠ .endOfLine)
      (readNamespaced package) :=
  ends_advance.bind fun _ => ends_readName.bind fun _ _ _ hs =>
    hs.complete ⟨[.token package], rfl⟩

theorem ends_readUnary (hr : ReaderEnds tokens n readExpr) (operator : Token) (level : Level) :
    EndsExpr tokens n P (readUnary readExpr operator level) :=
  (ends_readAfterNewlines hr level).bind_complete fun _ => ⟨[.token operator], rfl⟩

theorem ends_readEmptyGroup (opening : Token) :
    EndsExpr tokens n (fun s => s.kind = .rightParen) (readEmptyGroup opening) := by
  intro s ha hs
  have hclosing := ends_advance s ha ⟨by simp [hs], by simp [hs]⟩
  let inner : Expr := .invalid s.current
  have ht : Ends [.token s.current] (State.report { s.advance with
      completed := inner :: s.advance.completed } (.expectedExpression s.current)) :=
    hclosing.congr rfl rfl id
  exact ht.complete (e := .group opening inner (some s.current))
    ⟨[.token opening, .child inner.outline], rfl⟩

/-- Where the closing round bracket is due there is one, or none before the brackets outside. -/
def ClosesOrCut (s : State) : Prop :=
  s.kind = .rightParen ∨ s.kind = .rightCurly ∨ s.kind = .endOfFile

theorem closesOrCut_skipToClosing :
    Triple tokens n P skipToClosing fun _ => ClosesOrCut := by
  let fits : Kind → Bool := fun kind => kind = .rightParen || kind = .rightCurly || kind = .endOfFile
  intro s _ _
  let t := ((unexpectedUnless fits).run s).2
  have ht : t.recovering = true ∨ fits t.kind = true := unexpectedUnless_fits fits s
  rw [show skipToClosing.run s = (recoverIfNeeded (· = .rightParen)).run t from rfl]
  by_cases hf : t.recovering = true
  · rw [show (recoverIfNeeded (· = .rightParen)).run t = ((), t.recover (· = .rightParen)) from
      congrArg (Prod.mk ()) (if_pos hf)]
    let stops : Kind → Bool := (· = .rightParen)
    have hl : stops .endOfLine = false := rfl
    rcases t.kind_recover hl with h | h | h
    · exact .inr (.inr h)
    · exact .inr (.inl h)
    · exact .inl (of_decide_eq_true h)
  · rw [show (recoverIfNeeded (· = .rightParen)).run t = ((), t) from
      congrArg (Prod.mk ()) (if_neg hf)]
    have h := ht.resolve_left hf
    simp only [fits, Bool.or_eq_true, decide_eq_true_eq, or_assoc] at h
    exact h

/-- Brackets end in the closing one; without it, at the end of the file, they trail off. -/
theorem Ends.closing {opening : Token} {kind : Kind} {s : State} (parts : List Part)
    (node : Option Token → Expr) (ha : s.Amid tokens n) (he : kind ≠ .endOfFile)
    (hl : kind ≠ .endOfLine) (hs : s.kind = kind ∨ s.kind = .rightCurly ∨ s.kind = .endOfFile)
    (ho : ∀ closing, (node closing).outline =
      .of (.expr (node closing)) (parts ++ Part.ofToken? closing))
    (hopen : (Node.expr (node none)).isOpenRegion = true) :
    let found := (takeClosing opening kind).run s
    let e := node found.1
    Ends [.child ((Reading.complete e).run found.2).1.outline] ((Reading.complete e).run found.2).2 := by
  rcases acceptOr_run kind (fun s => .missingClosing opening s.lastToken) s with
    ⟨hk, hrun⟩ | ⟨hk, hrun⟩
  · rw [show (takeClosing opening kind).run s = _ from hrun]
    exact (Ends.of_previous (ha.previous_advance (hk ▸ he) (hk ▸ hl))).complete ⟨parts, ho _⟩
  · rw [show (takeClosing opening kind).run s = _ from hrun]
    rcases hs.resolve_left hk with h | h
    · exact .inr (.inl h)
    · refine .inr (.inr (.inl ⟨h, ?_⟩))
      rw [show ((Reading.complete (node none)).run _).1 = node none from rfl, ho none]
      simp [Part.trailsOff, Outline.of, Outline.trailsOff, hopen]

theorem ends_readGroup (opening : Token) :
    EndsExpr tokens n P (readGroup readExpr opening) := by
  have hi : Triple tokens n P (readGroupInner readExpr) fun found s =>
      ClosesOrCut s ∧ (found = none → s.kind = .rightParen) := by
    refine Triple.withNewlines (R := fun _ => True) ?_ (fun _ _ => trivial) (.inl rfl)
      fun _ _ _ h => h
    refine .look_bind fun kind => .ite (fun hk => ?_) fun _ => ?_
    · refine .pure fun s hs => ?_
      have h : s.kind = .rightParen := hs.1.trans hk
      exact ⟨.inl h, fun _ => h⟩
    · exact Triple.bind (Q := fun _ _ => True) (fun _ _ _ => trivial) fun inner =>
        closesOrCut_skipToClosing.bind fun _ => .pure fun _ hs => ⟨hs, nofun⟩
  refine hi.bind fun found => ?_
  cases found with
  | none => exact (ends_readEmptyGroup opening).mono (fun _ h => h.2 rfl) fun _ _ => id
  | some inner =>
    intro s ha hs
    exact Ends.closing [.token opening, .child inner.outline] (.group opening inner) ha (by decide)
      (by decide) hs.1 (fun _ => rfl) rfl

theorem ends_readBlock {statements : Action (List Expr)}
    (h : Triple tokens n (fun s => 0 < s.blockDepth) statements fun _ s =>
      s.kind = .rightCurly ∨ s.kind = .endOfFile)
    (opening : Token) : EndsExpr tokens n P (readBlock statements opening) := by
  have hb : Triple tokens n (fun _ => True) (inBlock statements) fun _ s =>
      s.kind = .rightCurly ∨ s.kind = .endOfFile :=
    fun s ha _ => h { s with blockDepth := s.blockDepth + 1 } (ha.onward (.of_eq rfl rfl))
      (Nat.succ_pos _)
  have hw : Triple tokens n P (withNewlines false (inBlock statements)) fun _ s =>
      s.kind = .rightCurly ∨ s.kind = .endOfFile := by
    refine Triple.withNewlines hb (fun _ _ => trivial) (.inr fun _ s hs => ?_) fun _ _ _ h => h
    rcases hs with h | h <;> simp [h]
  refine hw.bind fun body s ha hs => ?_
  exact Ends.closing (.token opening :: Expr.outlines body) (.block opening body) ha (by decide)
    (by decide) (.inr hs) (fun _ => rfl) rfl

theorem ends_readFor (hr : ReaderEnds tokens n readExpr) (keyword : Token) :
    EndsExpr tokens n P (readFor readExpr keyword) :=
  .of_last fun _ => (ends_readAfterNewlines hr .help).bind_complete fun _ => ⟨_, rfl⟩

theorem ends_readWhile (hr : ReaderEnds tokens n readExpr) (keyword : Token) :
    EndsExpr tokens n P (readWhile readExpr keyword) :=
  .of_last fun _ => (ends_readAfterNewlines hr .help).bind_complete fun _ => ⟨_, rfl⟩

theorem ends_readRepeat (hr : ReaderEnds tokens n readExpr) (keyword : Token) :
    EndsExpr tokens n P (readRepeat readExpr keyword) :=
  (ends_readAfterNewlines hr .help).bind_complete fun _ => ⟨[.token keyword], rfl⟩

theorem ends_readMember (target : Expr) (operator : Token) :
    EndsExpr tokens n (Ends [.token operator]) (readMember target operator) :=
  ends_readName.bind fun _ _ _ hs => hs.complete ⟨[.child target.outline], rfl⟩

theorem ends_readOperation (hr : ReaderEnds tokens n readExpr) (level : Level) (left : Expr)
    (operator : Token) : EndsExpr tokens n P (readOperation readExpr level left operator) := by
  refine (ends_readAfterNewlines hr _).bind_complete fun right => ?_
  split <;> exact ⟨[.child left.outline, .token operator], rfl⟩

theorem ends_readAlternative (hr : ReaderEnds tokens n readExpr) {parts : List Part} :
    (follows : Bool) → Triple tokens n (fun s => follows = false → Ends parts s)
      (readAlternative readExpr follows) fun alternative =>
        Ends (parts ++ Expr.outlineElse alternative)
  | false => .pure fun s hs => by simpa [Expr.outlineElse] using hs rfl
  | true => Triple.bind (Q := fun _ _ => True) (fun _ _ _ => trivial) fun keyword =>
    Triple.bind (ends_readAfterNewlines hr .help) fun body => .pure fun s hs =>
      (hs.prepend [.token keyword]).prepend parts

theorem elseFollows_false {s : State} :
    (elseFollows.run s).1 = false → (elseFollows.run s).2 = s := by
  simp only [elseFollows]
  split
  · simp
  split
  · simp
  split
  · simp
  · simp

theorem ends_readIf (hr : ReaderEnds tokens n readExpr) (keyword : Token) :
    EndsExpr tokens n P (readIf readExpr keyword) := by
  refine .of_last fun head => Triple.bind (ends_readAfterNewlines hr .help) fun consequent => ?_
  refine Triple.bind (Q := fun follows s => follows = false → Ends [.child consequent.outline] s)
    (fun s _ hs hf => (elseFollows_false hf).symm ▸ hs) fun follows => ?_
  exact (ends_readAlternative hr follows).bind fun alternative _ _ hs => hs.complete ⟨_, rfl⟩

-- ---------------------------------------------------------------------------
-- Constructs with a list
-- ---------------------------------------------------------------------------

def ListsEnd (tokens : List Token) (n : Nat) (readExpr : ExprReader) (bound : Nat) : Prop :=
  ∀ role opening terminator, ClosesList terminator →
    Triple tokens n (fun s => s.previous = some opening)
      (readList readExpr bound role opening terminator) fun found =>
        Ends (.token opening :: (Item.outlines role found.1 ++ Part.ofToken? found.2))

variable {bound : Nat}

theorem ends_readFunctionBody (hr : ReaderEnds tokens n readExpr) {parts : List Part} :
    (closing : Option Token) → Triple tokens n (Ends parts) (readFunctionBody readExpr closing)
      fun body => Ends (parts ++ Expr.outline? body)
  | none => .pure fun s hs => by simpa [Expr.outline?] using hs
  | some _ => (ends_readAfterNewlines hr .help).map fun _ _ hs => hs.prepend parts

theorem Ends.reportRepeatedNames {parts : List Part} {s : State} (h : Ends parts s)
    (parameters : List Item) : Ends parts ((reportRepeatedNames parameters).run s).2 := by
  obtain ⟨problems, hrun⟩ := reportRepeatedNames_run parameters s
  rw [hrun]
  exact h.congr rfl rfl id

theorem ends_readFunction (hr : ReaderEnds tokens n readExpr)
    (hl : ListsEnd tokens n readExpr bound) (keyword : Token) :
    EndsExpr tokens n (fun s => s.previous = some keyword) (readFunction readExpr bound keyword) := by
  intro s ha hs
  rw [readFunction, run_bind]
  rcases acceptOr_run .leftParen (fun s => .expected .leftParen s.lastToken s.current) s with
    ⟨hk, hrun⟩ | ⟨_, hrun⟩ <;> rw [show (expect .leftParen).run s = _ from hrun]
  · have ho : s.advance.previous = some s.current :=
      ha.previous_advance (by simp [hk]) (by simp [hk])
    refine Triple.bind (R := fun (e : Expr) => Ends [.child e.outline])
      (hl .parameters s.current .rightParen (.inl rfl)) (fun found t ha ht => ?_)
      s.advance (ha.onward s.onward_advance.passes) ho
    have hbody := ends_readFunctionBody hr found.2 _ (ha.run _) (ht.reportRepeatedNames found.1)
    exact hbody.complete ⟨[.token keyword], by simp [Expr.outline, Part.ofToken?]⟩
  · exact (Ends.of_previous hs).complete ⟨[], rfl⟩

theorem ends_readCall (hl : ListsEnd tokens n readExpr bound) (callee : Expr) (opening : Token) :
    EndsExpr tokens n (fun s => s.previous = some opening)
      (readCall readExpr bound callee opening) :=
  (hl .arguments opening .rightParen (.inl rfl)).bind fun _ _ _ hs =>
    hs.complete ⟨[.child callee.outline], rfl⟩

theorem ends_readIndexEnd {parts : List Part} (opening : Token) :
    (first : Option Token) → Triple tokens n (Ends (parts ++ Part.ofToken? first))
      (readIndexEnd opening first) fun closing => Ends (parts ++ closing.map .token)
  | none => .pure fun _ hs => hs
  | some closing => by
    unfold readIndexEnd
    refine .ite (fun _ => .pure fun _ hs => hs) fun _ => ?_
    refine (ends_acceptOr _ (by decide) (by decide)).bind fun second => .pure fun _ hs => ?_
    simpa [Part.ofToken?] using hs

theorem ends_readIndex (hl : ListsEnd tokens n readExpr bound) (target : Expr) (opening : Token) :
    EndsExpr tokens n (fun s => s.previous = some opening)
      (readIndex readExpr bound target opening) := by
  refine (hl .arguments opening .rightSquare (.inr rfl)).bind fun found => ?_
  let parts := .token opening :: Item.outlines .arguments found.1
  have hend : Triple tokens n (Ends (parts ++ Part.ofToken? found.2))
      (readIndexEnd opening found.2) fun closing => Ends (parts ++ closing.map .token) :=
    ends_readIndexEnd opening found.2
  exact hend.bind fun closing _ _ hs => hs.complete ⟨[.child target.outline], rfl⟩

theorem ends_readOperator (hr : ReaderEnds tokens n readExpr)
    (hl : ListsEnd tokens n readExpr bound) (level : Level) (left : Expr) (operator : Token) :
    EndsExpr tokens n (fun s => s.previous = some operator)
      (readOperator readExpr bound level left operator) := by
  unfold readOperator
  split
  · exact ends_readCall hl left operator
  · exact ends_readIndex hl left operator
  · exact ends_readIndex hl left operator
  · exact (ends_readMember left operator).mono (fun _ h => .of_previous h) fun _ _ => id
  · exact (ends_readMember left operator).mono (fun _ h => .of_previous h) fun _ _ => id
  · exact ends_readOperation hr level left operator

theorem ends_readOperators (hr : ReaderEnds tokens n readExpr) {lists : Nat}
    (hl : ListsEnd tokens n readExpr lists) (level : Level) (bound : Nat) (left : Expr) :
    EndsExpr tokens n (Ends [.child left.outline]) (readOperators readExpr lists level bound left) := by
  induction bound generalizing left with
  | zero => exact .pure fun _ => id
  | succ bound ih =>
    refine Triple.look_bind fun kind => ?_
    split
    · exact fun s _ hs => hs.2
    rename_i found hfound
    refine .ite (fun _ => ?_) fun _ => fun s _ hs => hs.2
    refine Triple.bind (Q := fun operator s => s.previous = some operator) ?_ fun operator =>
      Triple.bind (ends_readOperator hr hl found left operator) ih
    rintro s ha ⟨rfl, hs⟩
    refine ha.previous_advance ?_ ?_ <;>
    · intro hk
      rw [hk] at hfound
      cases hfound

-- ---------------------------------------------------------------------------
-- Expressions
-- ---------------------------------------------------------------------------

theorem ends_failAt (problem : Token → Problem) (token : Token) :
    EndsExpr tokens n P (failAt problem token) :=
  fun _ _ _ => .inl rfl

theorem ends_readNameOr {other : Token → Expr} {token : Token}
    (h : (other token).outline = .of (.expr (other token)) [.token token]) :
    EndsExpr tokens n (fun s => s.previous = some token) (readNameOr other token) := by
  refine Triple.look_bind fun kind => .ite (fun hk => ?_) fun _ s _ hs => ?_
  · refine (ends_readNamespaced token).mono (fun s hs => ?_) fun _ _ => id
    rw [hs.1]
    rcases hk with rfl | rfl <;> decide
  · exact (Ends.of_previous hs.2).complete ⟨[], h⟩

theorem ends_readStart (hr : ReaderEnds tokens n readExpr)
    (hl : ListsEnd tokens n readExpr bound) {statements : Action (List Expr)}
    (hs : Triple tokens n (fun s => 0 < s.blockDepth) statements fun _ s =>
      s.kind = .rightCurly ∨ s.kind = .endOfFile)
    (token : Token) :
    EndsExpr tokens n (fun s => s.previous = some token)
      (readStart readExpr statements bound token) := by
  have hliteral {e : Expr} (h : e.outline = .of (.expr e) [.token token]) :
      EndsExpr tokens n (fun s => s.previous = some token) (Reading.complete e) :=
    fun _ _ hs => (Ends.of_previous hs).complete ⟨[], h⟩
  unfold readStart
  split
  · exact ends_readNameOr rfl
  · exact ends_readNameOr rfl
  · exact hliteral rfl
  · exact Triple.bind (Q := fun _ s => s.previous = some token) (fun _ _ hs => hs)
      fun _ => hliteral rfl
  · exact ends_readBlock hs token
  · exact ends_readGroup token
  · exact ends_readFunction hr hl token
  · exact ends_readFunction hr hl token
  · exact ends_readUnary hr token _
  · exact ends_readUnary hr token _
  · exact ends_readUnary hr token _
  · exact ends_readUnary hr token _
  · exact ends_readUnary hr token _
  · exact ends_readIf hr token
  · exact ends_readFor hr token
  · exact ends_readWhile hr token
  · exact ends_readRepeat hr token
  · exact hliteral rfl
  · exact hliteral rfl
  · exact hliteral rfl

theorem kind_readStatements (hr : Engages readExpr) (hn : n ≤ bound) :
    Triple tokens n (fun s => 0 < s.blockDepth) (readStatements readExpr bound) fun _ s =>
      s.kind = .rightCurly ∨ s.kind = .endOfFile := by
  intro s ha _
  have h := atLastStatement_readStatements hr bound ha.ended (Nat.le_trans ha.length_le hn)
  simp only [State.atLastStatement, Bool.or_eq_true, Bool.and_eq_true, decide_eq_true_eq] at h
  exact h.symm.imp_left And.left

theorem ends_readFrom (hr : ReaderEnds tokens n readExpr) (he : Engages readExpr)
    (hl : ListsEnd tokens n readExpr n) (level : Level) (token : Token) :
    EndsExpr tokens n (fun s => s.previous = some token) (readFrom readExpr n level token) := by
  unfold readFrom
  split
  · exact ends_failAt _ token
  · exact Triple.bind (ends_readStart hr hl (kind_readStatements he (Nat.le_refl n)) token)
      fun first => ends_readOperators hr hl level n first

end Reading

end LenientR
