import LenientR.Proofs.Lists.Blame

/-!
# Reading accounts for what fails

No construct fails without a problem, and where a list starts, what has failed before is behind its
opening bracket. So whatever is read, what is given up in a list is so for a problem
(`accounted_readAll`).
-/

namespace LenientR

namespace Reading

variable {tokens start : List Token} {n : Nat} {readExpr : ExprReader}

section
variable (ho : tokens.Pairwise (·.start < ·.start))
include ho

-- ---------------------------------------------------------------------------
-- Constructs
-- ---------------------------------------------------------------------------

theorem accounts_readAfterNewlines (hr : ReaderAccounts tokens n readExpr) (level : Level) :
    Accounts tokens n (readAfterNewlines readExpr level) :=
  (accounts_dropNewlines ho).bind fun _ => hr level

theorem accounts_skipToClosing : Accounts tokens n skipToClosing :=
  (accounts_unexpectedUnless _).bind fun _ => accounts_recoverIfNeeded ho _

theorem accounts_readBracketed {inner : Action α} (h : Accounts tokens n inner) :
    Accounts tokens n (readBracketed inner) := by
  refine (accounts_acceptOr ho .leftParen _).bind fun opening => ?_
  cases opening with
  | none => exact h.bind fun _ => .pure _
  | some token =>
    have hinner : Accounts tokens n (readToClosing inner) :=
      .withNewlines ho true (h.bind fun _ => (accounts_skipToClosing ho).bind fun _ => .pure _)
    exact hinner.bind fun _ => (accounts_acceptOr ho .rightParen _).bind fun _ => .pure _

theorem accounts_readNamespaced (package : Token) :
    Accounts tokens n (readNamespaced package) :=
  (accounts_advance ho).bind fun _ => (accounts_readName ho).bind fun _ => accounts_complete rfl

theorem accounts_readUnary (hr : ReaderAccounts tokens n readExpr) (operator : Token)
    (level : Level) : Accounts tokens n (readUnary readExpr operator level) :=
  (accounts_readAfterNewlines ho hr level).bind fun _ => accounts_complete rfl

theorem accounts_readGroup (hr : ReaderAccounts tokens n readExpr) (opening : Token) :
    Accounts tokens n (readGroup readExpr opening) := by
  have hinner : Accounts tokens n (readGroupInner readExpr) :=
    .withNewlines ho true (.look_bind fun _ => .ite (fun _ => .pure _) fun _ =>
      (hr .help).bind fun _ => (accounts_skipToClosing ho).bind fun _ => .pure _)
  refine hinner.bind fun found => ?_
  cases found with
  | none =>
    exact (accounts_advance ho).bind fun _ => (accounts_complete rfl).bind fun _ =>
      Accounts.bind (fun _ _ _ hs => hs.report _) fun _ => accounts_complete rfl
  | some inner => exact (accounts_acceptOr ho .rightParen _).bind fun _ => accounts_complete rfl

theorem accounts_readBlock {statements : Action (List Expr)} (h : Accounts tokens n statements)
    (opening : Token) : Accounts tokens n (readBlock statements opening) :=
  (Accounts.withNewlines ho false h.inBlock).bind fun _ =>
    (accounts_acceptOr ho .rightCurly _).bind fun _ => accounts_complete rfl

theorem accounts_readFor (hr : ReaderAccounts tokens n readExpr) (keyword : Token) :
    Accounts tokens n (readFor readExpr keyword) := by
  have hvar : Accounts tokens n readLoopVar :=
    .look_bind fun _ => .ite
      (fun _ => (accounts_advance ho).bind fun _ => (accounts_complete rfl).bind fun _ => .pure _)
      fun _ => (accounts_reportCurrent _).bind fun _ => .pure _
  have hhead : Accounts tokens n (readLoopHead readExpr) :=
    hvar.bind fun _ => (accounts_acceptOr ho .inWord _).bind fun _ =>
      (hr .help).bind fun _ => .pure _
  exact (accounts_readBracketed ho hhead).bind fun _ =>
    (accounts_readAfterNewlines ho hr .help).bind fun _ => accounts_complete rfl

theorem accounts_readIf (hr : ReaderAccounts tokens n readExpr) (keyword : Token) :
    Accounts tokens n (readIf readExpr keyword) := by
  have hbody := accounts_readAfterNewlines ho hr .help
  have hfollows : Accounts tokens n elseFollows := .quiet ho fun s => by
    simp only [elseFollows]
    split
    · exact ⟨id, rfl⟩
    split
    · exact ⟨id, rfl⟩
    split <;> exact ⟨id, rfl⟩
  refine (accounts_readBracketed ho (hr .help)).bind fun _ => hbody.bind fun _ =>
    hfollows.bind fun follows => ?_
  have halternative : Accounts tokens n (readAlternative readExpr follows) := by
    cases follows with
    | false => exact .pure _
    | true => exact (accounts_advance ho).bind fun _ => hbody.bind fun _ => .pure _
  exact halternative.bind fun _ => accounts_complete rfl

theorem accounts_readWhile (hr : ReaderAccounts tokens n readExpr) (keyword : Token) :
    Accounts tokens n (readWhile readExpr keyword) :=
  (accounts_readBracketed ho (hr .help)).bind fun _ =>
    (accounts_readAfterNewlines ho hr .help).bind fun _ => accounts_complete rfl

theorem accounts_readRepeat (hr : ReaderAccounts tokens n readExpr) (keyword : Token) :
    Accounts tokens n (readRepeat readExpr keyword) :=
  (accounts_readAfterNewlines ho hr .help).bind fun _ => accounts_complete rfl

theorem accounts_readMember (target : Expr) (operator : Token) :
    Accounts tokens n (readMember target operator) :=
  (accounts_readName ho).bind fun _ => accounts_complete rfl

theorem accounts_readOperation (hr : ReaderAccounts tokens n readExpr) (level : Level)
    (left : Expr) (operator : Token) :
    Accounts tokens n (readOperation readExpr level left operator) :=
  (accounts_readAfterNewlines ho hr _).bind fun _ => accounts_complete (by split <;> rfl)

theorem Accounted.opensAt_advance {s : State} (h : Accounted tokens start s)
    (ha : s.Amid tokens n) (hfile : s.kind ≠ .endOfFile) (hline : s.kind ≠ .endOfLine) :
    OpensAt tokens start s.current s.advance := by
  refine ⟨accounts_advance ho start s ha h, fun hf => ?_, ha.previous_advance hfile hline⟩
  obtain ⟨problem, hm, _, hl⟩ := h.failure (s.recovering_advance ▸ hf)
  exact ⟨problem, (advance.onward s).problems.subset hm, hl⟩

theorem accounts_reportRepeatedNames (parameters : List Item) :
    Accounts tokens n (reportRepeatedNames parameters) :=
  .quiet ho fun s => by
    obtain ⟨_, hrun⟩ := reportRepeatedNames_run parameters s
    rw [hrun]
    exact ⟨id, rfl⟩

theorem accounts_readFunctionBody (hr : ReaderAccounts tokens n readExpr) :
    (closing : Option Token) → Accounts tokens n (readFunctionBody readExpr closing)
  | none => .pure _
  | some _ => (accounts_readAfterNewlines ho hr .help).map

theorem accounts_readFunction (hr : ReaderAccounts tokens n readExpr) {bound : Nat}
    (hg : ListsGiveUp tokens n readExpr bound) (keyword : Token) :
    Accounts tokens n (readFunction readExpr bound keyword) := by
  intro start s ha hs
  rw [readFunction, run_bind]
  rcases acceptOr_run .leftParen (fun s => .expected .leftParen s.lastToken s.current) s with
    ⟨hk, hrun⟩ | ⟨_, hrun⟩ <;> rw [show (expect .leftParen).run s = _ from hrun]
  · refine Triple.bind (R := fun (_ : Expr) => Accounted tokens start)
      (listBlamed_readList ho hr bound hg .parameters s.current (.inl rfl)) (fun found => ?_)
      s.advance (ha.onward s.onward_advance.passes)
      (hs.opensAt_advance ho ha (by simp [hk]) (by simp [hk]))
    exact (accounts_reportRepeatedNames ho found.1).afterList.bind fun _ =>
      (accounts_readFunctionBody ho hr found.2).afterList.bind fun _ _ _ ht =>
        ht.1.complete (listFits_of_some rfl ht.2)
  · exact accounts_complete rfl start _ (ha.onward (.of_eq rfl rfl)) (hs.report _)

theorem accounts_readCall (hr : ReaderAccounts tokens n readExpr) {bound : Nat}
    (hg : ListsGiveUp tokens n readExpr bound) (callee : Expr) (opening : Token) :
    Triple tokens n (OpensAt tokens start opening) (readCall readExpr bound callee opening)
      fun _ => Accounted tokens start :=
  (listBlamed_readList ho hr bound hg .arguments opening (.inl rfl)).bind
    fun _ _ _ ht => ht.1.complete (listFits_of_some rfl ht.2)

theorem accounts_readIndexEnd (opening : Token) :
    (first : Option Token) → Accounts tokens n (readIndexEnd opening first)
  | none => .pure _
  | some _ => .ite (fun _ => .pure _) fun _ => (accounts_acceptOr ho _ _).bind fun _ => .pure _

theorem accounts_readIndex (hr : ReaderAccounts tokens n readExpr) {bound : Nat}
    (hg : ListsGiveUp tokens n readExpr bound) (target : Expr) (opening : Token) :
    Triple tokens n (OpensAt tokens start opening) (readIndex readExpr bound target opening)
      fun _ => Accounted tokens start := by
  refine (listBlamed_readList ho hr bound hg .arguments opening (.inr rfl)).bind
    fun found s ha hs => ?_
  have hend := (accounts_readIndexEnd ho opening found.2).afterList s ha hs
  refine hend.1.complete (listFits_of_some rfl ?_)
  rw [head?_readIndexEnd opening found.2 s]
  exact hend.2

theorem accounts_readOperator (hr : ReaderAccounts tokens n readExpr) {bound : Nat}
    (hg : ListsGiveUp tokens n readExpr bound) (level : Level) (left : Expr) (operator : Token) :
    Triple tokens n (OpensAt tokens start operator)
      (readOperator readExpr bound level left operator) fun _ => Accounted tokens start := by
  have hmember : Triple tokens n (OpensAt tokens start operator) (readMember left operator)
      fun _ => Accounted tokens start :=
    (accounts_readMember ho left operator start).mono (fun _ h => h.accounted) fun _ _ => id
  unfold readOperator
  split
  · exact accounts_readCall ho hr hg left operator
  · exact accounts_readIndex ho hr hg left operator
  · exact accounts_readIndex ho hr hg left operator
  · exact hmember
  · exact hmember
  · exact (accounts_readOperation ho hr level left operator start).mono (fun _ h => h.accounted)
      fun _ _ => id

theorem accounts_readOperators (hr : ReaderAccounts tokens n readExpr) {lists : Nat}
    (hg : ListsGiveUp tokens n readExpr lists) (level : Level) (bound : Nat) (left : Expr) :
    Accounts tokens n (readOperators readExpr lists level bound left) := by
  induction bound generalizing left with
  | zero => exact .pure _
  | succ bound ih =>
    intro start s ha hs
    rw [readOperators, run_look_bind]
    split
    · exact hs
    rename_i found hfound
    split
    · have hopens : OpensAt tokens start s.current s.advance := by
        apply hs.opensAt_advance ho ha <;>
        · intro hk
          rw [hk] at hfound
          cases hfound
      have hadvanced := ha.onward s.onward_advance.passes
      exact ih _ start _ (hadvanced.run _)
        (accounts_readOperator ho hr hg found left s.current s.advance hadvanced hopens)
    · exact hs

-- ---------------------------------------------------------------------------
-- Expressions and statements
-- ---------------------------------------------------------------------------

omit ho in
theorem accounts_readAbsent : Accounts tokens n readAbsent := by
  intro start s ha hs
  exact accounts_complete rfl start _ (ha.onward (.of_eq rfl rfl)) (hs.fail ha rfl)

omit ho in
/-- A failure is also accounted for at a token that is gone over already. -/
theorem accounts_failAt {problem : Token → Problem} {token : Token}
    (hp : (problem token).token = token) :
    Triple tokens n (fun s => Accounted tokens start s ∧ token ∈ start ∧
      token.start ≤ s.current.start) (failAt problem token) fun _ => Accounted tokens start := by
  refine Triple.bind (Q := fun _ => Accounted tokens start) ?_
    fun _ => accounts_complete rfl start
  rintro s ha ⟨hs, hm, hl⟩
  refine ⟨hs.suffix, fun _ => ⟨problem token, List.mem_cons_self, ?_⟩,
    fun e he => (hs.completed e he).mono (List.subset_cons_self _ _)⟩
  rw [hp]
  exact ⟨hm, hl⟩

omit ho in
theorem token_startProblem? {kind : Kind} {problem : Token → Problem}
    (h : startProblem? kind = some problem) (token : Token) : (problem token).token = token := by
  unfold startProblem? at h
  split at h <;> cases h <;> rfl

theorem accounts_readNameOr {other : Token → Expr} {token : Token}
    (h : (other token).list? = none) : Accounts tokens n (readNameOr other token) :=
  .look_bind fun _ => .ite (fun _ => accounts_readNamespaced ho token) fun _ => accounts_complete h

theorem accounts_readStart (hr : ReaderAccounts tokens n readExpr)
    {statements : Action (List Expr)} (hs : Accounts tokens n statements) {bound : Nat}
    (hg : ListsGiveUp tokens n readExpr bound) (token : Token) :
    Accounts tokens n (readStart readExpr statements bound token) := by
  unfold readStart
  split
  · exact accounts_readNameOr ho rfl
  · exact accounts_readNameOr ho rfl
  · exact accounts_complete rfl
  · exact Accounts.bind (fun _ _ _ hs => hs.report _) fun _ => accounts_complete rfl
  · exact accounts_readBlock ho hs token
  · exact accounts_readGroup ho hr token
  · exact accounts_readFunction ho hr hg token
  · exact accounts_readFunction ho hr hg token
  · exact accounts_readUnary ho hr token _
  · exact accounts_readUnary ho hr token _
  · exact accounts_readUnary ho hr token _
  · exact accounts_readUnary ho hr token _
  · exact accounts_readUnary ho hr token _
  · exact accounts_readIf ho hr token
  · exact accounts_readFor ho hr token
  · exact accounts_readWhile ho hr token
  · exact accounts_readRepeat ho hr token
  · exact accounts_complete rfl
  · exact accounts_complete rfl
  · exact accounts_complete rfl

omit ho in
theorem accounts_endStatement : Accounts tokens n endStatement := by
  intro start s ha hs
  simp only [endStatement, update]
  split
  · exact hs
  · exact hs.report _

theorem accounts_readStatement (hr : ReaderAccounts tokens n readExpr) :
    Accounts tokens n (readStatement readExpr) :=
  (hr .help).bind fun _ => (accounts_recoverIfNeeded ho _).bind fun _ =>
    accounts_endStatement.bind fun _ => .pure _

theorem accounts_readStatements (hr : ReaderAccounts tokens n readExpr) (bound : Nat) :
    Accounts tokens n (readStatements readExpr bound) := by
  induction bound with
  | zero => exact .pure _
  | succ bound ih =>
    refine (Accounts.quiet ho fun _ => ⟨id, rfl⟩).bind fun _ => .look_bind fun last =>
      .look_bind fun kind => .ite (fun _ => .pure _) fun _ => .ite (fun _ => ?_) fun _ => ?_
    · exact (accounts_reportCurrent _).bind fun _ => (accounts_advance ho).bind fun _ => ih
    · exact (accounts_readStatement ho hr).bind fun _ => ih.bind fun _ => .pure _

theorem accounts_readFrom (hr : ReaderAccounts tokens n readExpr) {bound : Nat}
    (hg : ListsGiveUp tokens n readExpr bound) (level : Level) (token : Token) :
    Triple tokens n (fun s => Accounted tokens start s ∧ token ∈ start ∧
      token.start ≤ s.current.start) (readFrom readExpr bound level token)
      fun _ => Accounted tokens start := by
  unfold readFrom
  split
  · rename_i problem hp
    exact accounts_failAt (token_startProblem? hp token)
  · refine Triple.mono (P := Accounted tokens start) ?_ (fun _ h => h.1) fun _ _ => id
    exact (accounts_readStart ho hr (accounts_readStatements ho hr bound) hg token).bind
      (fun first => accounts_readOperators ho hr hg level bound first) start

theorem accounts_readExprWithin (bound : Nat) :
    ReaderAccounts tokens bound (readExprWithin bound) := by
  induction bound with
  | zero => exact fun _ => accounts_readAbsent
  | succ bound ih =>
    intro level start
    refine Triple.look_bind fun kind => .ite (fun _ => ?_) fun hk => ?_
    · exact (accounts_readAbsent start).mono (fun _ h => h.2) fun _ _ => id
    refine Triple.bind_lt (Q := fun token s => Accounted tokens start s ∧ token ∈ start ∧
      token.start ≤ s.current.start) ?_ ?_ ?_
    · rintro s ha ⟨_, hs⟩
      obtain ⟨rest, hr⟩ := ha.rest_eq_cons
      refine ⟨accounts_advance ho start s ha hs, hs.suffix.subset ?_,
        ha.start_le ho s.onward_advance.passes⟩
      rw [hr]
      exact List.mem_cons_self
    · rintro s ⟨rfl, _⟩
      exact State.length_advance_lt fun he => hk (by simp [he, Kind.endsExpression])
    · exact fun token => accounts_readFrom ho ih (listsGiveUp_readExprWithin ho bound) level token

theorem accounted_readAll (h : (State.start tokens).Ended) :
    Accounted tokens tokens (readAll tokens).2 := by
  refine accounts_readStatements ho (accounts_readExprWithin ho _) _ tokens _
    ⟨.of_eq rfl rfl, h, Nat.le_refl _⟩ ⟨List.suffix_refl _, nofun, fun _ he => ?_⟩
  exact absurd he List.not_mem_nil

end

end Reading

-- ---------------------------------------------------------------------------
-- Documents
-- ---------------------------------------------------------------------------

mutual
theorem Outline.every_of_exprs {holds : Expr → Prop} : (outline : Outline) →
    (∀ e ∈ outline.exprsPostorder, holds e) →
      outline.Every fun node => ∀ e, node = .expr e → holds e
  | .node (.expr e) _ parts, h => by
    obtain ⟨hparts, he⟩ := List.forall_mem_append.1 h
    exact ⟨fun _ heq => Node.expr.inj heq ▸ List.forall_mem_singleton.1 he,
      Part.every_of_exprs parts hparts⟩
  | .node (.argument _) _ parts, h | .node (.parameter _) _ parts, h =>
    ⟨nofun, Part.every_of_exprs parts h⟩
theorem Part.every_of_exprs {holds : Expr → Prop} : (parts : List Part) →
    (∀ e ∈ Part.exprsPostorder parts, holds e) →
      Part.Every (fun node => ∀ e, node = .expr e → holds e) parts
  | [], _ => trivial
  | .token _ :: rest, h => Part.every_of_exprs rest h
  | .child outline :: rest, h => by
    obtain ⟨hfirst, hrest⟩ := List.forall_mem_append.1 h
    exact ⟨outline.every_of_exprs hfirst, Part.every_of_exprs rest hrest⟩
end

end LenientR
