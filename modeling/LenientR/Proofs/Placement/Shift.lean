import LenientR.Document
import LenientR.Proofs.Laying.Spans
import LenientR.Proofs.Placement.Reading

/-!
# Texts further on

`shift offset` moves tokens, trees, problems and spans on by a number of bytes. Scanning and reading
commute with it. So does taking the span of a node, though a merge of spans takes `(0, 0)` for no
span at all: no token of a tree has that span (`Document.span_ne_unset`).
-/

namespace LenientR

def Token.onBy (offset : Nat) (token : Token) : Nat := token.start + offset

def Token.shift (offset : Nat) (token : Token) : Token := token.move (Token.onBy offset)

def Expr.shift (offset : Nat) (e : Expr) : Expr := e.move (Token.onBy offset)

def Problem.shift (offset : Nat) (problem : Problem) : Problem :=
  problem.move (Token.onBy offset)

def Span.shift (offset : Nat) (span : Span) : Span := ⟨span.start + offset, span.stop + offset⟩

def Node.move (place : Token → Nat) : Node → Node
  | .expr e => .expr (e.move place)
  | .argument item => .argument (item.move place)
  | .parameter item => .parameter (item.move place)

mutual
def Outline.shift (offset : Nat) : Outline → Outline
  | .node label span parts =>
    .node (label.move (Token.onBy offset)) (span.map (Span.shift offset))
      (Part.shiftAll offset parts)
def Part.shiftAll (offset : Nat) : List Part → List Part
  | [] => []
  | .token token :: rest => .token (token.shift offset) :: Part.shiftAll offset rest
  | .child outline :: rest => .child (outline.shift offset) :: Part.shiftAll offset rest
end

def Located.shift (offset : Nat) (found : Located) : Located :=
  ⟨found.address, found.outline.shift offset⟩

def Document.shift (offset : Nat) (document : Document) : Document where
  source := document.source
  range := document.range.shift offset
  tokens := document.tokens.map (Token.shift offset)
  comments := document.comments.map (Span.shift offset)
  roots := document.roots.map (Expr.shift offset)
  expressions := document.expressions.map (Expr.shift offset)
  problems := document.problems.map (Problem.shift offset)

section
variable {offset : Nat}

-- ---------------------------------------------------------------------------
-- Tokens and problems
-- ---------------------------------------------------------------------------

@[simp] theorem Token.kind_shift (token : Token) : (token.shift offset).kind = token.kind := rfl

@[simp] theorem Token.span_shift (token : Token) :
    (token.shift offset).span = token.span.shift offset := by
  simp only [shift, move, onBy, span, stop, length, Span.shift, Span.mk.injEq, true_and]
  omega

theorem scan_add (offset bound position : Nat) (chars : List Char) :
    scan bound (position + offset) chars =
      (scan bound position chars).map (Token.shift offset) := by
  induction bound generalizing position chars with
  | zero => rfl
  | succ bound ih =>
    cases chars with
    | nil => rfl
    | cons c rest =>
      simp only [scan]
      split
      · rw [Nat.add_right_comm, ih]
      · rw [List.map_cons, ← ih, Nat.add_right_comm]
        rfl

theorem tokensFrom_add (offset position : Nat) (chars : List Char) :
    tokensFrom (position + offset) chars =
      (tokensFrom position chars).map (Token.shift offset) :=
  scan_add offset chars.length position chars

theorem commentSpans_shift (tokens : List Token) :
    ((tokens.map (Token.shift offset)).filter (·.kind = .comment)).map Token.span =
      ((tokens.filter (·.kind = .comment)).map Token.span).map (Span.shift offset) := by
  rw [List.filter_map, List.map_map, List.map_map]
  exact List.map_congr_left fun token _ => token.span_shift

namespace Problem

theorem token_shift (problem : Problem) :
    (problem.shift offset).token = problem.token.shift offset := by
  cases problem <;> rfl

@[simp] theorem span_shift (problem : Problem) :
    (problem.shift offset).span = problem.span.shift offset := by
  have hplace : (problem.shift offset).place = problem.place := by cases problem <;> rfl
  unfold span
  rw [hplace, token_shift]
  cases problem.place with
  | onToken => exact Token.span_shift _
  | afterToken => exact congrArg (fun span : Span => Span.point span.stop) (Token.span_shift _)

theorem insertByStart_shift (problem : Problem) (problems : List Problem) :
    insertByStart (problem.shift offset) (problems.map (shift offset)) =
      (insertByStart problem problems).map (shift offset) := by
  induction problems with
  | nil => rfl
  | cons first rest ih =>
    simp only [List.map_cons, insertByStart, span_shift, Span.shift, ih,
      Nat.add_lt_add_iff_right]
    split <;> rfl

theorem sortByStart_shift (problems : List Problem) :
    sortByStart (problems.map (shift offset)) = (sortByStart problems).map (shift offset) := by
  have hfold (problems sorted : List Problem) :
      (problems.map (shift offset)).foldl (fun sorted problem => insertByStart problem sorted)
          (sorted.map (shift offset)) =
        (problems.foldl (fun sorted problem => insertByStart problem sorted) sorted).map
          (shift offset) := by
    induction problems generalizing sorted with
    | nil => rfl
    | cons problem rest ih =>
      rw [List.map_cons, List.foldl_cons, List.foldl_cons, insertByStart_shift, ih]
  exact hfold problems []

end Problem

-- ---------------------------------------------------------------------------
-- Spans
-- ---------------------------------------------------------------------------

namespace Span

theorem shift_ne_unset {a : Span} (h : a ≠ unset) : a.shift offset ≠ unset := by
  rw [Ne, eq_unset_iff] at h ⊢
  simp only [shift]
  omega

theorem merge_shift {a b : Span} (ha : a ≠ unset) (hb : b ≠ unset) :
    (a.shift offset).merge (b.shift offset) = (a.merge b).shift offset := by
  rw [merge_of_ne (shift_ne_unset ha) (shift_ne_unset hb), merge_of_ne ha hb]
  simp only [shift, Nat.add_min_add_right, Nat.add_max_add_right]

variable (offset) in
/-- Of spans that are set the hull is set, and it moves with them. -/
theorem hull_shift {spans : List Span} (h : ∀ span ∈ spans, span ≠ unset) :
    hull (spans.map (shift offset)) = (hull spans).map (shift offset) ∧
      ∀ span ∈ hull spans, span ≠ unset := by
  induction spans with
  | nil => exact ⟨rfl, nofun⟩
  | cons first rest ih =>
    obtain ⟨hf, hr⟩ := List.forall_mem_cons.1 h
    obtain ⟨hhull, hset⟩ := ih hr
    rw [List.map_cons, hull_cons, hull_cons, hhull]
    cases hrest : hull rest with
    | none => exact ⟨rfl, by simpa using hf⟩
    | some span =>
      have hs := hset span hrest
      exact ⟨congrArg some (merge_shift hf hs), by simpa using merge_ne_unset hf hs⟩

end Span

-- ---------------------------------------------------------------------------
-- Nodes
-- ---------------------------------------------------------------------------

end

section
variable {place : Token → Nat}

mutual
/-- The node of the moved tokens, which covers what they cover. -/
def Outline.move (place : Token → Nat) : Outline → Outline
  | .node label _ parts => .of (label.move place) (Part.moveAll place parts)
def Part.moveAll (place : Token → Nat) : List Part → List Part
  | [] => []
  | .token token :: rest => .token (token.move place) :: Part.moveAll place rest
  | .child outline :: rest => .child (outline.move place) :: Part.moveAll place rest
end

theorem Outline.move_of (label : Node) (parts : List Part) :
    (Outline.of label parts).move place = .of (label.move place) (Part.moveAll place parts) := by
  rw [Outline.of, Outline.move]

theorem Part.moveAll_append (parts others : List Part) :
    Part.moveAll place (parts ++ others) =
      Part.moveAll place parts ++ Part.moveAll place others := by
  induction parts with
  | nil => rfl
  | cons part rest ih => cases part <;> simp [Part.moveAll, ih]

theorem Part.moveAll_tokens (tokens : List Token) :
    Part.moveAll place (tokens.map .token) = (tokens.map (·.move place)).map .token := by
  induction tokens with
  | nil => rfl
  | cons token rest ih => simp [Part.moveAll, ih]

theorem Part.moveAll_ofToken? (found : Option Token) :
    Part.moveAll place (Part.ofToken? found) = Part.ofToken? (found.map (·.move place)) := by
  cases found <;> rfl

theorem Node.move_ofItem (role : ListRole) (item : Item) :
    (Node.ofItem role item).move place = .ofItem role (item.move place) := by
  cases role <;> rfl

mutual
theorem Expr.outline_move : (e : Expr) → (e.move place).outline = e.outline.move place
  | .assignment left operator right | .binary left operator right => by
    simp only [Expr.outline, Expr.move, Outline.move_of, Node.move, Part.moveAll,
      left.outline_move, right.outline_move]
  | .block opening body closing => by
    simp only [Expr.outline, Expr.move, Outline.move_of, Node.move, Part.moveAll,
      Part.moveAll_append, Part.moveAll_ofToken?, Expr.outlines_move body, List.cons_append]
  | .call callee opening arguments closing => by
    simp only [Expr.outline, Expr.move, Outline.move_of, Node.move, Part.moveAll,
      Part.moveAll_append, Part.moveAll_ofToken?, callee.outline_move,
      Item.outlines_move .arguments arguments, List.cons_append]
  | .control token | .literal token | .var token | .invalid token => by
    simp only [Expr.outline, Expr.move, Outline.move_of, Node.move, Part.moveAll]
  | .forLoop keyword opening loopVar inWord sequence closing body => by
    cases loopVar <;>
    simp only [Expr.outline, Expr.move, Outline.move_of, Node.move, Part.moveAll,
      Part.moveAll_append, Part.moveAll_ofToken?, sequence.outline_move, body.outline_move,
      Option.map_none, Option.map_some, Option.toList_none, Option.toList_some, List.map_nil,
      List.map_cons, List.cons_append]
  | .function keyword opening parameters closing body => by
    simp only [Expr.outline, Expr.move, Outline.move_of, Node.move, Part.moveAll,
      Part.moveAll_append, Part.moveAll_ofToken?, Item.outlines_move .parameters parameters,
      Expr.outline?_move body, List.cons_append]
  | .group opening inner closing => by
    simp only [Expr.outline, Expr.move, Outline.move_of, Node.move, Part.moveAll,
      Part.moveAll_ofToken?, inner.outline_move]
  | .conditional keyword opening condition closing consequent alternative => by
    simp only [Expr.outline, Expr.move, Outline.move_of, Node.move, Part.moveAll,
      Part.moveAll_append, Part.moveAll_ofToken?, condition.outline_move,
      consequent.outline_move, Expr.outlineElse_move alternative, List.cons_append]
  | .index target opening arguments closing => by
    simp only [Expr.outline, Expr.move, Outline.move_of, Node.move, Part.moveAll,
      Part.moveAll_append, Part.moveAll_tokens, target.outline_move,
      Item.outlines_move .arguments arguments, List.cons_append]
  | .member target operator name => by
    simp only [Expr.outline, Expr.move, Outline.move_of, Node.move, Part.moveAll,
      Part.moveAll_ofToken?, target.outline_move]
  | .namespaced package operator name => by
    simp only [Expr.outline, Expr.move, Outline.move_of, Node.move, Part.moveAll,
      Part.moveAll_ofToken?]
  | .repeatLoop keyword body => by
    simp only [Expr.outline, Expr.move, Outline.move_of, Node.move, Part.moveAll,
      body.outline_move]
  | .unary operator operand => by
    simp only [Expr.outline, Expr.move, Outline.move_of, Node.move, Part.moveAll,
      operand.outline_move]
  | .whileLoop keyword opening condition closing body => by
    simp only [Expr.outline, Expr.move, Outline.move_of, Node.move, Part.moveAll,
      Part.moveAll_append, Part.moveAll_ofToken?, condition.outline_move, body.outline_move,
      List.cons_append]
theorem Expr.outlines_move : (exprs : List Expr) →
    Expr.outlines (Expr.moveAll place exprs) = Part.moveAll place (Expr.outlines exprs)
  | [] => rfl
  | e :: rest => by
    simp only [Expr.outlines, Expr.moveAll, Part.moveAll, e.outline_move, Expr.outlines_move rest]
theorem Expr.outline?_move : (e : Option Expr) →
    Expr.outline? (Expr.move? place e) = Part.moveAll place (Expr.outline? e)
  | none => rfl
  | some e => by simp only [Expr.outline?, Expr.move?, Part.moveAll, e.outline_move]
theorem Expr.outlineElse_move : (alternative : Option (Token × Expr)) →
    Expr.outlineElse (Expr.moveElse place alternative) =
      Part.moveAll place (Expr.outlineElse alternative)
  | none => rfl
  | some (keyword, e) => by
    simp only [Expr.outlineElse, Expr.moveElse, Part.moveAll, e.outline_move]
theorem Item.outline_move (role : ListRole) :
    (item : Item) → (item.move place).outline role = (item.outline role).move place
  | .positional value comma => by
    simp only [Item.outline, Item.move, Outline.move_of, Node.move_ofItem, Part.moveAll,
      Part.moveAll_ofToken?, value.outline_move]
  | .named name equals value comma => by
    simp only [Item.outline, Item.move, Outline.move_of, Node.move_ofItem, Part.moveAll,
      Part.moveAll_append, Part.moveAll_ofToken?, Expr.outline?_move value, List.cons_append]
  | .ellipsis token comma => by
    simp only [Item.outline, Item.move, Outline.move_of, Node.move_ofItem, Part.moveAll,
      Part.moveAll_ofToken?]
  | .missing comma => by
    simp only [Item.outline, Item.move, Outline.move_of, Node.move_ofItem,
      Part.moveAll_ofToken?]
  | .unreadable tokens comma => by
    simp only [Item.outline, Item.move, Outline.move_of, Node.move_ofItem,
      Part.moveAll_append, Part.moveAll_tokens, Part.moveAll_ofToken?]
  | .stub => by
    simp only [Item.outline, Item.move, Outline.move_of, Node.move_ofItem, Part.moveAll]
theorem Item.outlines_move (role : ListRole) : (items : List Item) →
    Item.outlines role (Item.moveAll place items) = Part.moveAll place (Item.outlines role items)
  | [] => rfl
  | item :: rest => by
    simp only [Item.outlines, Item.moveAll, Part.moveAll, item.outline_move role,
      Item.outlines_move role rest]
end

end

section
variable {offset : Nat}

@[simp] theorem Part.spans_token (token : Token) (parts : List Part) :
    (Part.token token :: parts).filterMap Part.span =
      token.span :: parts.filterMap Part.span := rfl

@[simp] theorem Part.spans_child (outline : Outline) (parts : List Part) :
    (Part.child outline :: parts).filterMap Part.span =
      outline.span.toList ++ parts.filterMap Part.span := by
  cases h : outline.span with
  | none => exact List.filterMap_cons_none h
  | some span => exact List.filterMap_cons_some h

theorem Outline.span_shift (outline : Outline) :
    (outline.shift offset).span = outline.span.map (Span.shift offset) := by
  cases outline
  rfl

theorem Part.spans_shiftAll (parts : List Part) :
    (Part.shiftAll offset parts).filterMap Part.span =
      (parts.filterMap Part.span).map (Span.shift offset) := by
  induction parts with
  | nil => rfl
  | cons part rest ih =>
    cases part with
    | token token => simp only [Part.shiftAll, spans_token, Token.span_shift, ih, List.map_cons]
    | child outline =>
      simp only [Part.shiftAll, spans_child, Outline.span_shift, ih, List.map_append,
        Option.toList_map]

mutual
/-- Where no token stands in for a span that is not set, spans move with the tokens. -/
theorem Outline.move_onBy : (outline : Outline) → outline.Spanned →
    (∀ token ∈ outline.tokens, token.span ≠ .unset) →
      outline.move (Token.onBy offset) = outline.shift offset ∧
        ∀ span ∈ outline.span, span ≠ .unset
  | .node label span parts, h, ht => by
    obtain ⟨hspan, hs⟩ := h
    obtain ⟨hmove, hset⟩ := Part.moveAll_onBy parts hs ht
    obtain ⟨hhull, hne⟩ := Span.hull_shift offset hset
    rw [Outline.move, Outline.shift, Outline.of, hmove, Part.spans_shiftAll, hhull, hspan]
    exact ⟨rfl, hne⟩
theorem Part.moveAll_onBy : (parts : List Part) → Part.Spanned parts →
    (∀ token ∈ Part.tokens parts, token.span ≠ .unset) →
      Part.moveAll (Token.onBy offset) parts = Part.shiftAll offset parts ∧
        ∀ span ∈ parts.filterMap Part.span, span ≠ .unset
  | [], _, _ => ⟨rfl, nofun⟩
  | .token token :: rest, h, ht => by
    obtain ⟨hfirst, hrest⟩ := List.forall_mem_cons.1 ht
    obtain ⟨hmove, hset⟩ := Part.moveAll_onBy rest h hrest
    rw [Part.spans_token]
    exact ⟨congrArg (Part.token (token.shift offset) :: ·) hmove,
      List.forall_mem_cons.2 ⟨hfirst, hset⟩⟩
  | .child outline :: rest, h, ht => by
    obtain ⟨hinner, hrest⟩ := List.forall_mem_append.1 ht
    obtain ⟨hmove, hset⟩ := Part.moveAll_onBy rest h.2 hrest
    obtain ⟨hchild, hspan⟩ := outline.move_onBy h.1 hinner
    rw [Part.moveAll, Part.shiftAll, hmove, hchild, Part.spans_child]
    refine ⟨rfl, List.forall_mem_append.2 ⟨fun span hs => hspan span ?_, hset⟩⟩
    exact Option.mem_toList.1 hs
end

mutual
theorem Outline.walk_shift (address : List Nat) : (outline : Outline) →
    (outline.shift offset).walk address = (outline.walk address).map (Located.shift offset)
  | .node label span parts => by
    simp only [Outline.shift, Outline.walk, List.map_cons, Part.walk_shift address 0 parts,
      Located.shift]
theorem Part.walk_shift (address : List Nat) (index : Nat) : (parts : List Part) →
    Part.walk address index (Part.shiftAll offset parts) =
      (Part.walk address index parts).map (Located.shift offset)
  | [] => rfl
  | .token _ :: rest => by
    simp only [Part.shiftAll, Part.walk, Part.walk_shift address index rest]
  | .child outline :: rest => by
    simp only [Part.shiftAll, Part.walk, List.map_append, outline.walk_shift,
      Part.walk_shift address (index + 1) rest]
end

end

end LenientR
