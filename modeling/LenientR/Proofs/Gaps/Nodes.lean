import LenientR.Proofs.Gaps.Reading

/-!
# No silent repair

Every gap that the tree of a text shows is reported, at the token it is at
(`Document.gapsReported`). A parameter is reported with its function, the only node that has
parameters right below it.
-/

namespace LenientR

/-- Each gap of a node is reported, those of the nodes below aside. -/
def Node.Reported (tokens : List Token) (problems : List Problem) : Node → Prop
  | .expr e => e.Reported tokens problems
  | .argument _ => True
  | .parameter item => item.Reported tokens problems

section
variable {tokens : List Token} {problems : List Problem}

abbrev Node.ExprReported (tokens : List Token) (problems : List Problem) (node : Node) : Prop :=
  ∀ e, node = .expr e → e.Reported tokens problems

theorem Node.reported_ofItem {role : ListRole} {item : Item}
    (h : role = .parameters → item.Reported tokens problems) :
    (Node.ofItem role item).Reported tokens problems := by
  cases role with
  | arguments => trivial
  | parameters => exact h rfl

mutual
theorem Expr.every_reported : (e : Expr) →
    e.outline.Every (Node.ExprReported tokens problems) →
      e.outline.Every (Node.Reported tokens problems)
  | .assignment left operator right, h | .binary left operator right, h =>
    ⟨h.1 _ rfl, left.every_reported h.2.1, right.every_reported h.2.2.1, trivial⟩
  | .block opening body closing, h => by
    obtain ⟨hbody, _⟩ := Part.every_append.1 h.2
    exact ⟨h.1 _ rfl,
      Part.every_append.2 ⟨Expr.every_reportedAll body hbody, Part.every_ofToken? closing⟩⟩
  | .call callee opening arguments closing, h => by
    obtain ⟨hlist, _⟩ := Part.every_append.1 h.2.2
    exact ⟨h.1 _ rfl, callee.every_reported h.2.1, Part.every_append.2
      ⟨Item.every_reportedAll arguments nofun hlist, Part.every_ofToken? closing⟩⟩
  | .control _, h | .literal _, h | .var _, h | .invalid _, h => ⟨h.1 _ rfl, trivial⟩
  | .forLoop keyword opening loopVar inWord sequence closing body, h => by
    have hname : Part.Every (Node.Reported tokens problems) (loopVar.toList.map
        fun name => .child (.of (.expr (.var name)) [.token name])) := by
      cases loopVar
      · trivial
      · exact ⟨⟨trivial, trivial⟩, trivial⟩
    simp only [Expr.outline, Outline.of, Outline.Every, Part.Every, Part.every_append,
      Part.every_ofToken?, List.cons_append, and_true, true_and] at h ⊢
    exact ⟨h.1 _ rfl, ⟨hname, sequence.every_reported h.2.1.2⟩, body.every_reported h.2.2⟩
  | .function keyword opening parameters closing body, h => by
    have hitems := (h.1 _ rfl).2.1
    simp only [Expr.outline, Outline.of, Outline.Every, Part.Every, Part.every_append,
      Part.every_ofToken?, List.cons_append, and_true, true_and] at h ⊢
    exact ⟨h.1 _ rfl, Item.every_reportedAll parameters (fun _ => hitems) h.2.1,
      Expr.every_reported? body h.2.2⟩
  | .group opening inner closing, h =>
    ⟨h.1 _ rfl, inner.every_reported h.2.1, Part.every_ofToken? closing⟩
  | .conditional keyword opening condition closing consequent alternative, h => by
    simp only [Expr.outline, Outline.of, Outline.Every, Part.Every, Part.every_append,
      Part.every_ofToken?, List.cons_append, and_true, true_and] at h ⊢
    exact ⟨h.1 _ rfl, condition.every_reported h.2.1, consequent.every_reported h.2.2.1,
      Expr.every_reportedElse alternative h.2.2.2⟩
  | .index target opening arguments closing, h => by
    obtain ⟨hlist, _⟩ := Part.every_append.1 h.2.2
    exact ⟨h.1 _ rfl, target.every_reported h.2.1, Part.every_append.2
      ⟨Item.every_reportedAll arguments nofun hlist, Part.every_tokens closing⟩⟩
  | .member target operator name, h =>
    ⟨h.1 _ rfl, target.every_reported h.2.1, Part.every_ofToken? name⟩
  | .namespaced package operator name, h => ⟨h.1 _ rfl, Part.every_ofToken? name⟩
  | .repeatLoop keyword body, h => ⟨h.1 _ rfl, body.every_reported h.2.1, trivial⟩
  | .unary operator operand, h => ⟨h.1 _ rfl, operand.every_reported h.2.1, trivial⟩
  | .whileLoop keyword opening condition closing body, h => by
    simp only [Expr.outline, Outline.of, Outline.Every, Part.Every, Part.every_append,
      Part.every_ofToken?, List.cons_append, and_true, true_and] at h ⊢
    exact ⟨h.1 _ rfl, condition.every_reported h.2.1, body.every_reported h.2.2⟩
theorem Expr.every_reportedAll : (es : List Expr) →
    Part.Every (Node.ExprReported tokens problems) (Expr.outlines es) →
      Part.Every (Node.Reported tokens problems) (Expr.outlines es)
  | [], _ => trivial
  | e :: rest, h => ⟨e.every_reported h.1, Expr.every_reportedAll rest h.2⟩
theorem Expr.every_reported? : (e : Option Expr) →
    Part.Every (Node.ExprReported tokens problems) (Expr.outline? e) →
      Part.Every (Node.Reported tokens problems) (Expr.outline? e)
  | none, _ => trivial
  | some e, h => ⟨e.every_reported h.1, trivial⟩
theorem Expr.every_reportedElse : (alternative : Option (Token × Expr)) →
    Part.Every (Node.ExprReported tokens problems) (Expr.outlineElse alternative) →
      Part.Every (Node.Reported tokens problems) (Expr.outlineElse alternative)
  | none, _ => trivial
  | some (_, e), h => ⟨e.every_reported h.1, trivial⟩
theorem Item.every_reported {role : ListRole} : (item : Item) →
    (role = .parameters → item.Reported tokens problems) →
      (item.outline role).Every (Node.ExprReported tokens problems) →
        (item.outline role).Every (Node.Reported tokens problems)
  | .positional value comma, hi, h =>
    ⟨Node.reported_ofItem hi, value.every_reported h.2.1, Part.every_ofToken? comma⟩
  | .named name equals value comma, hi, h => by
    simp only [Item.outline, Outline.of, Outline.Every, Part.Every, Part.every_append,
      Part.every_ofToken?, List.cons_append, and_true, true_and] at h ⊢
    exact ⟨Node.reported_ofItem hi, Expr.every_reported? value h.2⟩
  | .ellipsis _ comma, hi, _ | .missing comma, hi, _ =>
    ⟨Node.reported_ofItem hi, Part.every_ofToken? comma⟩
  | .unreadable tokens comma, hi, _ =>
    ⟨Node.reported_ofItem hi,
      Part.every_append.2 ⟨Part.every_tokens tokens, Part.every_ofToken? comma⟩⟩
  | .stub, hi, _ => ⟨Node.reported_ofItem hi, trivial⟩
theorem Item.every_reportedAll {role : ListRole} : (items : List Item) →
    (role = .parameters → ∀ item ∈ items, item.Reported tokens problems) →
      Part.Every (Node.ExprReported tokens problems) (Item.outlines role items) →
        Part.Every (Node.Reported tokens problems) (Item.outlines role items)
  | [], _, _ => trivial
  | item :: rest, hi, h =>
    ⟨item.every_reported (fun hr => hi hr item List.mem_cons_self) h.1,
      Item.every_reportedAll rest (fun hr other hm => hi hr other (List.mem_cons_of_mem _ hm)) h.2⟩
end

end

/-- What a document reports of the gaps in its tree. -/
structure Document.GapsReported (document : Document) : Prop where
  nodes : ∀ found ∈ document.walk, found.node.Reported document.tokens document.problems
  /-- Where nothing is reported no node has a gap, and no token is one that cannot be read. -/
  whole : document.isValid = true → (∀ found ∈ document.walk, found.node.IsWhole) ∧
    ∀ token ∈ document.tokens, token.kind.isMalformed = false

open Reading in
/-- Whatever text is read, each gap that its tree shows is reported at the token it is at. -/
theorem Document.gapsReported (source : String) (range : Span) (text : List Char) :
    (ofText source range text).GapsReported := by
  let document := ofText source range text
  have hends := endsOnce_tokens source range text
  have hread : AllReported document.tokens (readAll document.tokens).2 :=
    allReported_readAll ((State.within_start hends).ended hends)
  have hproblems : (readAll document.tokens).2.problems ⊆ document.problems := fun _ hp =>
    (Problem.sortByStart_perm _).mem_iff.2 (List.mem_reverse.2 hp)
  have hexprs : ∀ e ∈ Part.exprsPostorder document.forest.parts,
      e.Reported document.tokens document.problems := by
    intro e he
    rw [← expressions_eq] at he
    exact (hread e (List.mem_reverse.1 he)).mono hproblems
  have hknown := Part.every_of_exprs _ hexprs
  rw [parts_eq] at hknown
  have hevery := Expr.every_reportedAll document.roots hknown
  rw [← parts_eq] at hevery
  exact {
    nodes := Part.every_walk [] 0 _ hevery
    whole := fun hv => ⟨fun found hm => (isGrown_of_isValid hv found hm).isWhole,
      isMalformed_of_isValid hv⟩ }

/-- The default, the bracket and the body are missing; the body is only due after the bracket. -/
example : (Document.parse "function(x = ").problems =
    [.missingClosing ⟨.leftParen, 8, ['(']⟩ ⟨.equal, 11, ['=']⟩,
      .expectedExpression ⟨.endOfFile, 13, []⟩] := by
  decide +kernel

end LenientR
