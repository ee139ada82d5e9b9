import LenientR.Proofs.Laying.Basic
import LenientR.Proofs.Valid.Sound

/-!
# Reading lays out the tree

Each construct lays out the parts of its node and then the node (`Builds`), whatever fails on the
way. The lists are the only nodes something is asked of: where all of them fit
(`ListsFit`), so do those of the tree.
-/

namespace LenientR

namespace Reading

variable {fits : Token → List Item → Option Token → Prop} {tokens : List Token} {n : Nat}
  {pre : List Part} {readExpr : ExprReader} {bound : Nat}

def ListFits (fits : Token → List Item → Option Token → Prop) (e : Expr) : Prop :=
  ∀ opening items closing, e.list? = some (opening, items, closing) → fits opening items closing

theorem listFits_of_none {e : Expr} (h : e.list? = none) : ListFits fits e := by
  intro _ _ _ hs
  rw [h] at hs
  cases hs

theorem listFits_of_some {e : Expr} {opening : Token} {items : List Item}
    {closing : Option Token} (h : e.list? = some (opening, items, closing))
    (hf : fits opening items closing) : ListFits fits e := by
  intro _ _ _ hs
  rw [h] at hs
  cases hs
  exact hf

def ListsFit (fits : Token → List Item → Option Token → Prop) (tokens : List Token) (n : Nat)
    (readExpr : ExprReader) (bound : Nat) : Prop :=
  ∀ role opening terminator, ClosesList terminator →
    Triple tokens n (fun s => s.previous = some opening)
      (readList readExpr bound role opening terminator) fun found _ =>
        fits opening found.1 found.2

theorem listsFit_true : ListsFit (fun _ _ _ => True) tokens n readExpr bound :=
  fun _ _ _ _ _ _ _ => trivial

/-- The parts laid so far become those of the expression that the action ends in. -/
abbrev Builds (fits : Token → List Item → Option Token → Prop) (tokens : List Token) (n : Nat)
    (pre : List Part) (action : Action Expr) : Prop :=
  Lays (ListFits fits) tokens n pre action fun e => [.child e.outline]

def ReaderBuilds (fits : Token → List Item → Option Token → Prop) (tokens : List Token) (n : Nat)
    (readExpr : ExprReader) : Prop :=
  ∀ level, Builds fits tokens n [] (readExpr level)

theorem builds_complete {e : Expr} (hn : e.list? = none) (h : e.outline = .of (.expr e) pre) :
    Builds fits tokens n pre (complete e) :=
  lays_complete (listFits_of_none hn) h

-- ---------------------------------------------------------------------------
-- Items
-- ---------------------------------------------------------------------------

theorem lays_expr (hr : ReaderBuilds fits tokens n readExpr) (level : Level) :
    Lays (ListFits fits) tokens n pre (readExpr level) fun e => pre ++ [.child e.outline] :=
  (hr level).prepend

theorem lays_readValue (hr : ReaderBuilds fits tokens n readExpr) (terminator : Kind)
    {ifAbsent : Action Unit} (h : ∀ s, (ifAbsent.run s).2.completed = s.completed) :
    Lays (ListFits fits) tokens n pre (readValue readExpr terminator ifAbsent) fun value =>
      pre ++ Expr.outline? value :=
  .look_bind fun _ => .ite
    (fun _ => (Lays.quiet h).bind fun _ => .pure (List.append_nil pre).symm)
    fun _ => (lays_expr hr .help).map fun _ => rfl

def bareParts : Item → List Part
  | .positional value _ => [.child value.outline]
  | .named name equals value _ => .token name :: Part.ofToken? equals ++ Expr.outline? value
  | .ellipsis token _ => [.token token]
  | .missing _ | .stub => []
  | .unreadable tokens _ => tokens.map .token

def IsBare (item : Item) : Prop := item.comma = none ∧ item.isStub = false

theorem outline_attachComma (role : ListRole) {item : Item} (h : IsBare item)
    (comma : Option Token) :
    (attachComma item comma).outline role =
      .of (.ofItem role (attachComma item comma)) (bareParts item ++ Part.ofToken? comma) := by
  obtain ⟨hc, hs⟩ := h
  cases item with
  | stub => cases hs
  | positional _ | named _ _ _ | ellipsis _ | missing | unreadable _ =>
    cases hc
    cases comma <;> rfl

theorem lays_readArgument (hr : ReaderBuilds fits tokens n readExpr) (terminator : Kind) :
    Lays (ListFits fits) tokens n pre (readArgument readExpr terminator) fun item =>
      pre ++ bareParts item := by
  refine .look_bind fun kind => .look_bind fun next => ?_
  refine .ite (fun _ => lays_advance.bind fun token => .pure rfl) fun _ => ?_
  refine .ite (fun _ => .pure (List.append_nil pre).symm) fun _ => .ite (fun _ => ?_) fun _ => ?_
  · refine lays_advance.bind fun name => lays_advance.bind fun equals => ?_
    exact (lays_readValue hr terminator fun _ => rfl).bind fun value => .pure (by
      simp [bareParts, Part.ofToken?])
  · exact (lays_expr hr .help).bind fun value => .pure rfl

theorem lays_readDefault (hr : ReaderBuilds fits tokens n readExpr) (terminator : Kind) :
    (equals : Option Token) → Lays (ListFits fits) tokens n pre
      (readDefault readExpr terminator equals) fun value => pre ++ Expr.outline? value
  | none => .pure (List.append_nil pre).symm
  | some _ => lays_readValue hr terminator fun _ => rfl

theorem lays_readParameter (hr : ReaderBuilds fits tokens n readExpr) (terminator : Kind) :
    Lays (ListFits fits) tokens n pre (readParameter readExpr terminator) fun item =>
      pre ++ bareParts item := by
  refine .look_bind fun kind => .ite (fun _ => lays_advance.bind fun token => .pure rfl) fun _ => ?_
  refine .ite (fun _ => ?_) fun _ => .ite (fun _ => ?_) fun _ => ?_
  · exact (Lays.quiet fun _ => rfl).bind fun _ => .pure (List.append_nil pre).symm
  · refine lays_advance.bind fun name => (lays_accept .equal).bind fun equals => ?_
    exact (lays_readDefault hr terminator equals).bind fun value => .pure (by simp [bareParts])
  · exact (Lays.quiet fun _ => rfl).bind fun _ => .pure (List.append_nil pre).symm

theorem lays_readBareItem (hr : ReaderBuilds fits tokens n readExpr) (terminator : Kind) :
    (role : ListRole) → Lays (ListFits fits) tokens n pre (readBareItem readExpr terminator role)
      fun item => pre ++ bareParts item
  | .arguments => lays_readArgument hr terminator
  | .parameters => lays_readParameter hr terminator

theorem isBare_readBareItem (readExpr : ExprReader) (terminator : Kind) (role : ListRole)
    (s : State) :
    IsBare ((readBareItem readExpr terminator role).run s).1 ∨
      ((readBareItem readExpr terminator role).run s).2.recovering = true := by
  cases role with
  | arguments =>
    simp only [readBareItem, readArgument, run_look_bind]
    split
    · exact .inl ⟨rfl, rfl⟩
    split
    · exact .inl ⟨rfl, rfl⟩
    split <;> exact .inl ⟨rfl, rfl⟩
  | parameters =>
    simp only [readBareItem, readParameter, run_look_bind]
    split
    · exact .inl ⟨rfl, rfl⟩
    split
    · exact .inl ⟨rfl, rfl⟩
    split
    · exact .inl ⟨rfl, rfl⟩
    · exact .inr rfl

theorem laid_tokensBetween {s t : State} (ha : s.Amid tokens n) (hp : s.Passes t)
    (hc : t.completed = s.completed) :
    Laid holds s ((tokensBetween s.rest t.rest).map .token) t := by
  obtain ⟨gone, hg, _⟩ := id hp
  have hd : s.rest.take (s.rest.length - t.rest.length) = gone := by
    rw [hg, List.length_append, Nat.add_sub_cancel, List.take_left]
  simp only [tokensBetween, hd]
  split
  · obtain ⟨rest, hr⟩ := ha.rest_eq_cons
    rw [hr, List.take_succ_cons, List.take_zero]
    cases gone with
    | nil => exact (Laid.stay hr).append_skip hp hc
    | cons token gone =>
      refine .passed hg ?_ hc
      rw [hg, List.cons_append, List.cons.injEq] at hr
      rw [← hr.1]
      exact List.singleton_sublist.2 List.mem_cons_self
  · refine .passed hg ?_ hc
    rw [← List.reverse_sublist, List.reverse_reverse]
    exact List.dropWhile_sublist _

theorem completed_unexpectedUnless (fits : Kind → Bool) (s : State) :
    ((unexpectedUnless fits).run s).2.completed = s.completed := by
  simp only [unexpectedUnless, update]
  split <;> rfl

/-- Of an item that has failed the tokens are laid instead of what was read of it. -/
theorem laid_salvage {s t : State} {item : Item} (terminator : Kind) (ha : s.Amid tokens n)
    (hp : s.Passes t) (h : Laid holds s (bareParts item) t)
    (hi : IsBare item ∨ t.recovering = true) :
    let salvaged := (salvage s.rest s.completed terminator item).run t
    IsBare salvaged.1 ∧ Laid holds s (bareParts salvaged.1) salvaged.2 := by
  intro salvaged
  by_cases hf : t.recovering = true
  · have hs : salvaged = (.unreadable (tokensBetween s.rest (t.recover _).rest) none,
        { t.recover _ with completed := s.completed }) := if_pos hf
    have hq := hp.trans ((salvage s.rest s.completed terminator item).onward t).passes
    rw [show (salvage s.rest s.completed terminator item).run t = _ from hs] at hq
    rw [hs]
    exact ⟨⟨rfl, rfl⟩, laid_tokensBetween ha hq rfl⟩
  · have hs : salvaged = (item, t) := if_neg hf
    rw [hs]
    exact ⟨hi.resolve_right hf, h⟩

theorem lays_readItem (hr : ReaderBuilds fits tokens n readExpr) (role : ListRole)
    (terminator : Kind) :
    Lays (ListFits fits) tokens n pre (readItem readExpr role terminator) fun item =>
      pre ++ [.child (item.outline role)] := by
  refine .after fun s ha => ?_
  have hbare : Laid (ListFits fits) s ([] ++ bareParts _) _ :=
    lays_readBareItem hr terminator role s s ha (.refl s)
  have hi := isBare_readBareItem readExpr terminator role s
  have hp := ((readBareItem readExpr terminator role).onward s).passes
  have hrun : (readItem readExpr role terminator).run s =
      (let bare := (readBareItem readExpr terminator role).run s
       let checked := ((unexpectedUnless (endsItem terminator)).run bare.2).2
       let salvaged := (salvage s.rest s.completed terminator bare.1).run checked
       let comma := (accept .comma).run salvaged.2
       (attachComma salvaged.1 comma.1, comma.2)) := rfl
  rw [hrun]
  generalize (readBareItem readExpr terminator role).run s = bare at hbare hi hp ⊢
  dsimp only
  have hq := ((unexpectedUnless (endsItem terminator)).onward bare.2).passes
  have hc : ((unexpectedUnless (endsItem terminator)).run bare.2).2.completed =
      bare.2.completed := completed_unexpectedUnless _ _
  have hf := (unexpectedUnless_run (endsItem terminator) bare.2).2
  generalize ((unexpectedUnless (endsItem terminator)).run bare.2).2 = checked at hq hc hf ⊢
  obtain ⟨hbare, hlaid⟩ := laid_salvage terminator ha (hp.trans hq)
    (hbare.append_skip hq hc) (hi.imp_right hf)
  have hs := ((salvage s.rest s.completed terminator bare.1).onward checked).passes
  generalize (salvage s.rest s.completed terminator bare.1).run checked = salvaged
    at hbare hlaid hs ⊢
  have ha' : salvaged.2.Amid tokens n := ha.onward ((hp.trans hq).trans hs)
  have hcomma := lays_accept .comma s _ ha' hlaid
  exact .item (outline_attachComma role hbare _) hcomma

theorem finishList_cut (opening : Token) {terminator : Kind} (ht : terminator ≠ .rightCurly)
    (completed : List Expr) (items : List Item) {s : State} (hk : s.kind = .rightCurly) :
    (finishList opening terminator completed items).run s =
      (([], none), { s.report (.missingClosing opening s.lastToken) with completed := completed }) := by
  have hn : (takeClosing opening terminator).run s =
      (none, s.report (.missingClosing opening s.lastToken)) :=
    if_neg fun he => ht (he.symm.trans hk)
  rw [finishList, run_look_bind, run_bind, hn, if_pos hk]
  rfl

theorem finishList_run (opening : Token) (terminator : Kind) (completed : List Expr)
    (items : List Item) {s : State} (hk : s.kind ≠ .rightCurly) :
    (finishList opening terminator completed items).run s =
      ((items, ((takeClosing opening terminator).run s).1),
        ((takeClosing opening terminator).run s).2) := by
  rw [finishList, run_look_bind, run_bind, if_neg hk]
  rfl

theorem laid_finishList {s t : State} (ha : t.Amid tokens n) (role : ListRole) (opening : Token)
    {terminator : Kind} (ht : terminator ≠ .rightCurly) {items : List Item} (hp : s.Passes t)
    (h : Laid holds s (Item.outlines role items) t) :
    let found := (finishList opening terminator s.completed items).run t
    Laid holds s (Item.outlines role found.1.1 ++ Part.ofToken? found.1.2) found.2 := by
  by_cases hk : t.kind = .rightCurly
  · rw [finishList_cut opening ht s.completed items hk]
    exact .skip (hp.trans (.of_eq rfl rfl)) rfl
  · rw [finishList_run opening terminator s.completed items hk]
    exact lays_acceptOr terminator _ s t ha h

theorem lays_readItems (hr : ReaderBuilds fits tokens n readExpr) (role : ListRole)
    (terminator : Kind) (bound : Nat) (slot : Slot) :
    Lays (ListFits fits) tokens n pre (readItems readExpr role terminator bound slot) fun items =>
      pre ++ Item.outlines role items := by
  induction bound generalizing pre slot with
  | zero => exact .pure (List.append_nil pre).symm
  | succ bound ih =>
    have hnil : pre = pre ++ Item.outlines role [] := (List.append_nil pre).symm
    refine .look_bind fun kind => .ite (fun _ => ?_) fun _ => .ite (fun _ => ?_) fun _ =>
      .ite (fun _ => .pure hnil) fun _ => ?_
    · refine (Lays.quiet fun s => ?_).bind fun _ => .pure hnil
      unfold reportEmptySlot
      split <;> rfl
    · split
      · exact .pure hnil
      · refine .after fun s _ => ?_
        exact .item (Item.outline.eq_6 role) (.refl s)
    · refine (lays_readItem hr role terminator).bind fun item => ?_
      exact (ih _).bind fun others => .pure (by simp [Item.outlines])

theorem lays_readList (hr : ReaderBuilds fits tokens n readExpr) (role : ListRole)
    (opening : Token) {terminator : Kind} (ht : terminator ≠ .rightCurly) :
    Lays (ListFits fits) tokens n pre (readList readExpr bound role opening terminator)
      fun found => pre ++ (Item.outlines role found.1 ++ Part.ofToken? found.2) := by
  refine .after fun s ha => ?_
  let items := withNewlines true (readItems readExpr role terminator bound .opening)
  have hi : Laid (ListFits fits) s (Item.outlines role (items.run s).1) (items.run s).2 :=
    (show Lays _ tokens n [] items (Item.outlines role) from
      (lays_readItems hr role terminator bound .opening).withNewlines true) s s ha (.refl s)
  exact laid_finishList (ha.run items) role opening ht (items.onward s).passes hi

-- ---------------------------------------------------------------------------
-- Constructs
-- ---------------------------------------------------------------------------

theorem lays_readAfterNewlines (hr : ReaderBuilds fits tokens n readExpr) (level : Level) :
    Lays (ListFits fits) tokens n pre (readAfterNewlines readExpr level) fun e =>
      pre ++ [.child e.outline] :=
  (Lays.quiet fun _ => rfl).bind fun _ => lays_expr hr level

theorem lays_skipToClosing : Lays holds tokens n pre skipToClosing fun _ => pre :=
  (Lays.quiet (completed_unexpectedUnless _)).bind fun _ => .quiet fun s => by
    simp only [recoverIfNeeded, update]
    split
    · exact s.completed_recover _
    · rfl

theorem lays_readBracketed {inner : Action α} {post : α → List Part}
    (h : ∀ pre, Lays holds tokens n pre inner fun x => pre ++ post x) :
    Lays holds tokens n pre (readBracketed inner) fun found =>
      pre ++ Part.ofToken? found.1 ++ post found.2.1 ++ Part.ofToken? found.2.2 := by
  refine (lays_acceptOr .leftParen _).bind fun opening => ?_
  cases opening with
  | none => exact (h _).bind fun x => .pure (by simp [Part.ofToken?])
  | some token =>
    have hi : Lays holds tokens n (pre ++ Part.ofToken? (some token)) (readToClosing inner)
        fun x => pre ++ Part.ofToken? (some token) ++ post x :=
      .withNewlines true <| (h _).bind fun x => lays_skipToClosing.bind fun _ => .pure rfl
    exact hi.bind fun x => (lays_acceptOr .rightParen _).bind fun closing => .pure rfl

theorem lays_readName :
    Lays holds tokens n pre readName fun found => pre ++ Part.ofToken? found :=
  .after fun s ha => by
    simp only [readName]
    split
    · exact ha.laid_advance
    · exact .skip (.of_eq rfl rfl) rfl

theorem builds_readNamespaced (package : Token) :
    Builds fits tokens n [.token package] (readNamespaced package) :=
  lays_advance.bind fun _ => lays_readName.bind fun _ => builds_complete rfl rfl

theorem builds_readUnary (hr : ReaderBuilds fits tokens n readExpr) (operator : Token)
    (level : Level) : Builds fits tokens n [.token operator] (readUnary readExpr operator level) :=
  (lays_readAfterNewlines hr level).bind fun _ => builds_complete rfl rfl

theorem builds_readEmptyGroup (opening : Token) :
    Builds fits tokens n [.token opening] (readEmptyGroup opening) := by
  intro s₀ s ha hs
  obtain ⟨rest, hr⟩ := ha.rest_eq_cons
  let inner : Expr := .invalid s.current
  let t : State := { s with completed := inner :: s.advance.completed }
  have hinner : Laid (ListFits fits) s [.child inner.outline] t := by
    have hn : Laid (ListFits fits) s [.child inner.outline]
        { s with completed := inner :: s.completed } :=
      .expr (listFits_of_none rfl) rfl (.stay hr)
    rw [← s.completed_advance] at hn
    exact hn
  have hclosing : Laid (ListFits fits) t [.token s.current]
      { s.advance with completed := inner :: s.advance.completed } := by
    rw [← s.advance_completed]
    exact (ha.onward (t := t) (.of_eq rfl rfl)).laid_advance
  have hparts := (hs.append hinner).append (hclosing.append_skip (u :=
    State.report { s.advance with completed := inner :: s.advance.completed }
      (.expectedExpression s.current)) (.of_eq rfl rfl) rfl)
  exact .expr (e := .group opening inner (some s.current)) (listFits_of_none rfl) rfl hparts

theorem builds_readGroup (hr : ReaderBuilds fits tokens n readExpr) (opening : Token) :
    Builds fits tokens n [.token opening] (readGroup readExpr opening) := by
  have hi : Lays (ListFits fits) tokens n [.token opening] (readGroupInner readExpr) fun found =>
      .token opening :: Expr.outline? found :=
    .withNewlines true <| .look_bind fun kind => .ite (fun _ => .pure rfl) fun _ =>
      (lays_expr hr .help).bind fun _ => lays_skipToClosing.bind fun _ => .pure rfl
  refine hi.bind fun found => ?_
  cases found with
  | none => exact builds_readEmptyGroup opening
  | some inner => exact (lays_acceptOr .rightParen _).bind fun _ => builds_complete rfl rfl

theorem builds_readBlock {statements : Action (List Expr)}
    (h : ∀ pre, Lays (ListFits fits) tokens n pre statements fun body => pre ++ Expr.outlines body)
    (opening : Token) :
    Builds fits tokens n [.token opening] (readBlock statements opening) :=
  (Lays.withNewlines false (h _).inBlock).bind fun _ =>
    (lays_acceptOr .rightCurly _).bind fun _ => builds_complete rfl rfl

def loopVarParts (loopVar : Option Token) : List Part :=
  loopVar.toList.map fun name => .child (.of (.expr (.var name)) [.token name])

theorem lays_readLoopVar :
    Lays (ListFits fits) tokens n pre readLoopVar fun loopVar => pre ++ loopVarParts loopVar := by
  refine .look_bind fun kind => .ite (fun _ => ?_) fun _ => ?_
  · refine Lays.prepend (lays_advance.bind fun name => ?_)
    exact (lays_complete (listFits_of_none rfl) rfl).bind fun _ => .pure rfl
  · exact (Lays.quiet fun _ => rfl).bind fun _ => .pure (List.append_nil pre).symm

theorem lays_readLoopHead (hr : ReaderBuilds fits tokens n readExpr) :
    Lays (ListFits fits) tokens n pre (readLoopHead readExpr) fun found =>
      pre ++ (loopVarParts found.1 ++ Part.ofToken? found.2.1 ++ [.child found.2.2.outline]) :=
  lays_readLoopVar.bind fun _ => (lays_acceptOr .inWord _).bind fun _ =>
    (lays_expr hr .help).bind fun _ => .pure (by simp)

theorem builds_readFor (hr : ReaderBuilds fits tokens n readExpr) (keyword : Token) :
    Builds fits tokens n [.token keyword] (readFor readExpr keyword) :=
  (lays_readBracketed fun _ => lays_readLoopHead hr).bind fun _ =>
    (lays_readAfterNewlines hr .help).bind fun _ => builds_complete rfl (by
      simp [Expr.outline, loopVarParts])

theorem lays_readFunctionBody (hr : ReaderBuilds fits tokens n readExpr) :
    (closing : Option Token) → Lays (ListFits fits) tokens n pre (readFunctionBody readExpr closing)
      fun body => pre ++ Expr.outline? body
  | none => .pure (List.append_nil pre).symm
  | some _ => (lays_readAfterNewlines hr .help).map fun _ => rfl

theorem lays_readAlternative (hr : ReaderBuilds fits tokens n readExpr) :
    (follows : Bool) → Lays (ListFits fits) tokens n pre (readAlternative readExpr follows)
      fun alternative => pre ++ Expr.outlineElse alternative
  | false => .pure (List.append_nil pre).symm
  | true => lays_advance.bind fun _ => (lays_readAfterNewlines hr .help).bind fun _ =>
    .pure (by simp [Expr.outlineElse])

theorem completed_elseFollows (s : State) : (elseFollows.run s).2.completed = s.completed := by
  simp only [elseFollows]
  split
  · rfl
  split
  · rfl
  split <;> rfl

theorem builds_readIf (hr : ReaderBuilds fits tokens n readExpr) (keyword : Token) :
    Builds fits tokens n [.token keyword] (readIf readExpr keyword) :=
  (lays_readBracketed fun _ => lays_expr hr .help).bind fun _ =>
    (lays_readAfterNewlines hr .help).bind fun _ =>
      (Lays.quiet completed_elseFollows).bind fun follows =>
        (lays_readAlternative hr follows).bind fun _ => builds_complete rfl (by
          simp [Expr.outline])

theorem builds_readWhile (hr : ReaderBuilds fits tokens n readExpr) (keyword : Token) :
    Builds fits tokens n [.token keyword] (readWhile readExpr keyword) :=
  (lays_readBracketed fun _ => lays_expr hr .help).bind fun _ =>
    (lays_readAfterNewlines hr .help).bind fun _ => builds_complete rfl (by simp [Expr.outline])

theorem builds_readRepeat (hr : ReaderBuilds fits tokens n readExpr) (keyword : Token) :
    Builds fits tokens n [.token keyword] (readRepeat readExpr keyword) :=
  (lays_readAfterNewlines hr .help).bind fun _ => builds_complete rfl rfl

theorem builds_readMember (target : Expr) (operator : Token) :
    Builds fits tokens n [.child target.outline, .token operator] (readMember target operator) :=
  lays_readName.bind fun _ => builds_complete rfl rfl

theorem builds_readOperation (hr : ReaderBuilds fits tokens n readExpr) (level : Level)
    (left : Expr) (operator : Token) :
    Builds fits tokens n [.child left.outline, .token operator]
      (readOperation readExpr level left operator) := by
  refine (lays_readAfterNewlines hr _).bind fun right => ?_
  split <;> exact builds_complete rfl rfl

-- ---------------------------------------------------------------------------
-- Constructs with a list
-- ---------------------------------------------------------------------------

theorem triple_readList (hr : ReaderBuilds fits tokens n readExpr)
    (hl : ListsFit fits tokens n readExpr bound) (role : ListRole) (opening : Token)
    {terminator : Kind} (ht : ClosesList terminator) (s₀ : State) :
    Triple tokens n (fun s => Laid (ListFits fits) s₀ pre s ∧ s.previous = some opening)
      (readList readExpr bound role opening terminator) fun found s =>
        Laid (ListFits fits) s₀ (pre ++ (Item.outlines role found.1 ++ Part.ofToken? found.2)) s ∧
          fits opening found.1 found.2 := by
  intro s ha hs
  have hc : terminator ≠ .rightCurly := by
    rintro rfl
    cases ht <;> contradiction
  exact ⟨lays_readList hr role opening hc s₀ s ha hs.1, hl role opening terminator ht s ha hs.2⟩

/-- An opening bracket that has just been gone over, after the parts of a node. -/
abbrev OpenAfter (fits : Token → List Item → Option Token → Prop) (s₀ : State) (pre : List Part)
    (opening : Token) (s : State) : Prop :=
  Laid (ListFits fits) s₀ (pre ++ [.token opening]) s ∧ s.previous = some opening

theorem triple_readCall (hr : ReaderBuilds fits tokens n readExpr)
    (hl : ListsFit fits tokens n readExpr bound) (callee : Expr) (opening : Token) (s₀ : State) :
    Triple tokens n (OpenAfter fits s₀ [.child callee.outline] opening)
      (readCall readExpr bound callee opening) fun e =>
        Laid (ListFits fits) s₀ [.child e.outline] := by
  refine (triple_readList hr hl .arguments opening (.inl rfl) s₀).bind fun found s ha hs => ?_
  exact hs.1.complete (listFits_of_some rfl hs.2) rfl

theorem lays_readIndexEnd (opening : Token) :
    (first : Option Token) → Lays holds tokens n (pre ++ Part.ofToken? first)
      (readIndexEnd opening first) fun closing => pre ++ closing.map .token
  | none => .pure rfl
  | some closing => by
    unfold readIndexEnd
    refine .ite (fun _ => .pure rfl) fun _ => ?_
    exact (lays_acceptOr .rightSquare _).bind fun second => .pure (by
      simp [Part.ofToken?])

theorem head?_readIndexEnd (opening : Token) (first : Option Token) (s : State) :
    ((readIndexEnd opening first).run s).1.head? = first := by
  cases first with
  | none => rfl
  | some closing =>
    simp only [readIndexEnd]
    split <;> rfl

theorem triple_readIndex (hr : ReaderBuilds fits tokens n readExpr)
    (hl : ListsFit fits tokens n readExpr bound) (target : Expr) (opening : Token) (s₀ : State) :
    Triple tokens n (OpenAfter fits s₀ [.child target.outline] opening)
      (readIndex readExpr bound target opening) fun e =>
        Laid (ListFits fits) s₀ [.child e.outline] := by
  refine (triple_readList hr hl .arguments opening (.inr rfl) s₀).bind fun found s ha hs => ?_
  have hlist := hs.1
  rw [← List.append_assoc] at hlist
  have hend := lays_readIndexEnd opening found.2 s₀ s ha hlist
  refine hend.complete (listFits_of_some rfl ?_) (by simp [Expr.outline])
  rw [head?_readIndexEnd opening found.2 s]
  exact hs.2

theorem reportRepeatedNames_run (parameters : List Item) (s : State) :
    ∃ problems, ((reportRepeatedNames parameters).run s).2 = { s with problems := problems } := by
  have hf (names : List Token) (s : State) :
      ∃ problems, names.foldl (fun s name => s.report (.duplicateParameter name)) s =
        { s with problems := problems } := by
    induction names generalizing s with
    | nil => exact ⟨_, rfl⟩
    | cons name rest ih =>
      obtain ⟨problems, h⟩ := ih (s.report (.duplicateParameter name))
      exact ⟨problems, h⟩
  exact hf _ s

theorem builds_readFunction (hr : ReaderBuilds fits tokens n readExpr)
    (hl : ListsFit fits tokens n readExpr bound) (keyword : Token) :
    Builds fits tokens n [.token keyword] (readFunction readExpr bound keyword) := by
  intro s₀ s ha hs
  rw [readFunction, run_bind]
  by_cases hk : s.kind = .leftParen
  · have hopening : (expect .leftParen).run s = (some s.current, s.advance) := if_pos hk
    have ho : OpenAfter fits s₀ [.token keyword] s.current s.advance :=
      ⟨lays_advance s₀ s ha hs, ha.previous_advance (by simp [hk]) (by simp [hk])⟩
    rw [hopening]
    refine Triple.bind (R := fun (e : Expr) => Laid (ListFits fits) s₀ [.child e.outline])
      (triple_readList hr hl .parameters s.current (.inl rfl) s₀) (fun found t ha ht => ?_)
      s.advance (ha.onward s.onward_advance.passes) ho
    have hreport := Lays.quiet (fun t => by
      obtain ⟨_, h⟩ := reportRepeatedNames_run found.1 t
      rw [h]) s₀ t ha ht.1
    have hbody := lays_readFunctionBody hr found.2 s₀ _ (ha.run _) hreport
    exact hbody.complete (listFits_of_some rfl ht.2) (by simp [Expr.outline, Part.ofToken?])
  · have hopening : (expect .leftParen).run s =
        (none, s.report (.expected .leftParen s.lastToken s.current)) := if_neg hk
    rw [hopening]
    exact builds_complete rfl rfl s₀ _ (ha.onward (.of_eq rfl rfl))
      (hs.append_skip (.of_eq rfl rfl) rfl)

/-- What follows an operator, its token and the operand before it laid already. -/
theorem triple_readOperator (hr : ReaderBuilds fits tokens n readExpr)
    (hl : ListsFit fits tokens n readExpr bound) (level : Level) (left : Expr) (operator : Token)
    (s₀ : State) :
    Triple tokens n (OpenAfter fits s₀ [.child left.outline] operator)
      (readOperator readExpr bound level left operator) fun e =>
        Laid (ListFits fits) s₀ [.child e.outline] := by
  unfold readOperator
  split
  · exact triple_readCall hr hl left operator s₀
  · exact triple_readIndex hr hl left operator s₀
  · exact triple_readIndex hr hl left operator s₀
  · exact (builds_readMember left operator s₀).mono (fun _ h => h.1) fun _ _ => id
  · exact (builds_readMember left operator s₀).mono (fun _ h => h.1) fun _ _ => id
  · exact (builds_readOperation hr level left operator s₀).mono (fun _ h => h.1) fun _ _ => id

theorem builds_readOperators (hr : ReaderBuilds fits tokens n readExpr) {lists : Nat}
    (hl : ListsFit fits tokens n readExpr lists) (level : Level) (bound : Nat) (left : Expr) :
    Builds fits tokens n [.child left.outline] (readOperators readExpr lists level bound left) := by
  induction bound generalizing left with
  | zero => exact .pure rfl
  | succ bound ih =>
    intro s₀
    refine Triple.look_bind fun kind => ?_
    split
    · exact fun s _ hs => hs.2
    rename_i found hfound
    refine .ite (fun _ => ?_) fun _ => fun s _ hs => hs.2
    refine Triple.bind (Q := fun operator => OpenAfter fits s₀ [.child left.outline] operator) ?_
      fun operator => (triple_readOperator hr hl found left operator s₀).bind fun grown =>
        ih grown s₀
    rintro s ha ⟨rfl, hs⟩
    refine ⟨lays_advance s₀ s ha hs, ha.previous_advance ?_ ?_⟩ <;>
    · intro hk
      rw [hk] at hfound
      cases hfound

-- ---------------------------------------------------------------------------
-- Expressions and statements
-- ---------------------------------------------------------------------------

theorem lays_recoverIfNeeded (stops : Kind → Bool) :
    Lays holds tokens n pre (recoverIfNeeded stops) fun _ => pre :=
  .quiet fun s => by
    simp only [recoverIfNeeded, update]
    split
    · exact s.completed_recover stops
    · rfl

theorem lays_endStatement : Lays holds tokens n pre endStatement fun _ => pre :=
  .quiet fun s => by
    simp only [endStatement, update]
    split <;> rfl

theorem builds_failAt (problem : Token → Problem) (token : Token) :
    Builds fits tokens n [.token token] (failAt problem token) :=
  (Lays.quiet fun _ => rfl).bind fun _ => builds_complete rfl rfl

theorem builds_readAbsent : Builds fits tokens n [] readAbsent := by
  intro s₀ s ha hs
  obtain ⟨rest, hr⟩ := ha.rest_eq_cons
  exact builds_failAt .expectedExpression s.current s₀ s ha (hs.append (.stay hr))

theorem builds_readNameOr {other : Token → Expr} {token : Token} (hn : (other token).list? = none)
    (h : (other token).outline = .of (.expr (other token)) [.token token]) :
    Builds fits tokens n [.token token] (readNameOr other token) :=
  .look_bind fun _ => .ite (fun _ => builds_readNamespaced token) fun _ => builds_complete hn h

theorem builds_readStart (hr : ReaderBuilds fits tokens n readExpr)
    (hl : ListsFit fits tokens n readExpr bound) {statements : Action (List Expr)}
    (hs : ∀ pre, Lays (ListFits fits) tokens n pre statements fun body => pre ++ Expr.outlines body)
    (token : Token) :
    Builds fits tokens n [.token token] (readStart readExpr statements bound token) := by
  unfold readStart
  split
  · exact builds_readNameOr rfl rfl
  · exact builds_readNameOr rfl rfl
  · exact builds_complete rfl rfl
  · exact (Lays.quiet fun _ => rfl).bind fun _ => builds_complete rfl rfl
  · exact builds_readBlock hs token
  · exact builds_readGroup hr token
  · exact builds_readFunction hr hl token
  · exact builds_readFunction hr hl token
  · exact builds_readUnary hr token _
  · exact builds_readUnary hr token _
  · exact builds_readUnary hr token _
  · exact builds_readUnary hr token _
  · exact builds_readUnary hr token _
  · exact builds_readIf hr token
  · exact builds_readFor hr token
  · exact builds_readWhile hr token
  · exact builds_readRepeat hr token
  · exact builds_complete rfl rfl
  · exact builds_complete rfl rfl
  · exact builds_complete rfl rfl

theorem lays_readStatement (hr : ReaderBuilds fits tokens n readExpr) :
    Lays (ListFits fits) tokens n pre (readStatement readExpr) fun e => pre ++ [.child e.outline] :=
  (lays_expr hr .help).bind fun _ => (lays_recoverIfNeeded _).bind fun _ =>
    lays_endStatement.bind fun _ => .pure rfl

theorem lays_readStatements (hr : ReaderBuilds fits tokens n readExpr) (bound : Nat) :
    Lays (ListFits fits) tokens n pre (readStatements readExpr bound) fun body =>
      pre ++ Expr.outlines body := by
  induction bound generalizing pre with
  | zero => exact .pure (List.append_nil pre).symm
  | succ bound ih =>
    refine (Lays.quiet fun _ => rfl).bind fun _ => .look_bind fun last => .look_bind fun kind => ?_
    refine .ite (fun _ => .pure (List.append_nil pre).symm) fun _ => .ite (fun _ => ?_) fun _ => ?_
    · refine (Lays.quiet fun _ => rfl).bind fun _ => ?_
      exact (Lays.quiet State.completed_advance).bind fun _ => ih
    · exact (lays_readStatement hr).bind fun e => ih.bind fun others => .pure (by
        simp [Expr.outlines])

theorem builds_readFrom (hr : ReaderBuilds fits tokens n readExpr)
    (hl : ListsFit fits tokens n readExpr bound) (level : Level) (token : Token) :
    Builds fits tokens n [.token token] (readFrom readExpr bound level token) := by
  unfold readFrom
  split
  · exact builds_failAt _ token
  · exact (builds_readStart hr hl (fun _ => lays_readStatements hr bound) token).bind fun first =>
      builds_readOperators hr hl level bound first

theorem builds_readExprWithin
    (hl : ∀ bound, ListsFit fits tokens bound (readExprWithin bound) bound) (bound : Nat) :
    ReaderBuilds fits tokens bound (readExprWithin bound) := by
  induction bound with
  | zero => exact fun _ => builds_readAbsent
  | succ bound ih =>
    intro level s₀
    refine Triple.look_bind fun kind => .ite (fun _ => ?_) fun hk => ?_
    · exact (builds_readAbsent s₀).mono (fun _ h => h.2) fun _ _ => id
    refine Triple.bind_lt (Q := fun token => Laid (ListFits fits) s₀ [.token token]) ?_ ?_ ?_
    · exact fun s ha hs => lays_advance s₀ s ha hs.2
    · rintro s ⟨rfl, _⟩
      exact State.length_advance_lt fun he => hk (by simp [he, Kind.endsExpression])
    · exact fun token => builds_readFrom ih (hl bound) level token s₀

theorem laid_readAll (h : (State.start tokens).Ended)
    (hl : ∀ bound, ListsFit fits tokens bound (readExprWithin bound) bound) :
    Laid (ListFits fits) (.start tokens) (Expr.outlines (readAll tokens).1) (readAll tokens).2 :=
  lays_readStatements (builds_readExprWithin hl _) _ _ _ ⟨.of_eq rfl rfl, h, Nat.le_refl _⟩
    (.refl _)

end Reading

open Reading in
/-- The tree of a text, valid or not, is laid out from its start to its end. -/
theorem Document.laid_parts {fits : Token → List Item → Option Token → Prop} (source : String)
    (range : Span) (text : List Char)
    (hl : ∀ bound, ListsFit fits (ofText source range text).tokens bound (readExprWithin bound)
      bound) :
    Laid (ListFits fits) (.start (ofText source range text).tokens)
      (ofText source range text).forest.parts (readAll (ofText source range text).tokens).2 := by
  have he := endsOnce_tokens source range text
  rw [parts_eq]
  exact laid_readAll ((State.within_start he).ended he) hl

end LenientR
