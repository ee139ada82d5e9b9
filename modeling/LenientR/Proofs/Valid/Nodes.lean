import LenientR.Outline.Lookup
import LenientR.Proofs.Grammar.Basic

/-!
# The nodes of a tree that is read by the grammar

Every node of such a tree, and not only its top, is read by the grammar (`Node.IsGrown`). What is to
be shown of all nodes follows from the rule of a single construct.
-/

namespace LenientR

open Trace

-- ---------------------------------------------------------------------------
-- All nodes of a tree
-- ---------------------------------------------------------------------------

mutual
def Outline.Every (holds : Node → Prop) : Outline → Prop
  | .node label _ parts => holds label ∧ Part.Every holds parts
def Part.Every (holds : Node → Prop) : List Part → Prop
  | [] => True
  | .token _ :: rest => Part.Every holds rest
  | .child outline :: rest => outline.Every holds ∧ Part.Every holds rest
end

variable {holds : Node → Prop}

theorem Part.every_append {parts others : List Part} :
    Part.Every holds (parts ++ others) ↔ Part.Every holds parts ∧ Part.Every holds others := by
  induction parts with
  | nil => simp [Part.Every]
  | cons part rest ih => cases part <;> simp [Part.Every, ih, and_assoc]

theorem Part.every_tokens (tokens : List Token) : Part.Every holds (tokens.map .token) := by
  induction tokens with
  | nil => trivial
  | cons token rest ih => exact ih

theorem Part.every_ofToken? (found : Option Token) : Part.Every holds (Part.ofToken? found) :=
  Part.every_tokens found.toList

mutual
theorem Outline.every_walk (address : List Nat) : (outline : Outline) → outline.Every holds →
    ∀ found ∈ outline.walk address, holds found.node
  | .node label span parts, h => by
    rw [Outline.walk]
    exact List.forall_mem_cons.2 ⟨h.1, Part.every_walk address 0 parts h.2⟩
theorem Part.every_walk (address : List Nat) (index : Nat) : (parts : List Part) →
    Part.Every holds parts → ∀ found ∈ Part.walk address index parts, holds found.node
  | [], _ => by simp [Part.walk]
  | .token _ :: rest, h => by
    rw [Part.walk]
    exact Part.every_walk address index rest h
  | .child outline :: rest, h => by
    rw [Part.walk]
    exact List.forall_mem_append.2 ⟨outline.every_walk (address ++ [index]) h.1,
      Part.every_walk address (index + 1) rest h.2⟩
end

-- ---------------------------------------------------------------------------
-- Every node is grown
-- ---------------------------------------------------------------------------

def Trace.Occurs (r : Trace) : Prop := ∃ a b, r a b

namespace Trace

variable {r q : Trace}

theorem Occurs.left (h : (r * q).Occurs) : r.Occurs :=
  let ⟨a, _, b, hr, _⟩ := h
  ⟨a, b, hr⟩

theorem Occurs.right (h : (r * q).Occurs) : q.Occurs :=
  let ⟨_, c, b, _, hq⟩ := h
  ⟨b, c, hq⟩

theorem Occurs.exists {traces : ι → Trace} (h : (any traces).Occurs) : ∃ i, (traces i).Occurs :=
  let ⟨a, b, i, hi⟩ := h
  ⟨i, a, b, hi⟩

theorem not_occurs_never : ¬never.Occurs := fun ⟨_, _, h⟩ => h

theorem Occurs.fits {f : Kind → Bool} {m : Mode} {token : Token}
    (h : (token.taken f m).Occurs) : f token.kind = true :=
  let ⟨_, _, hf, _⟩ := h
  hf

end Trace

/-- A node that is read by the grammar, at some level and in some mode. -/
def Node.IsGrown : Node → Prop
  | .expr e => ∃ level m, (e.Grown level m).Occurs
  | .argument item => ∃ terminator m,
    (item.Grown .arguments terminator m * comma terminator m item.comma).Occurs
  | .parameter item => ∃ terminator m,
    (item.Grown .parameters terminator m * comma terminator m item.comma).Occurs

/-- A name alone, as that of a loop variable, is read as a variable. -/
theorem isGrown_var {name : Token} (h : name.kind = .identifier) :
    (Node.expr (.var name)).IsGrown := by
  refine ⟨.help, .top, [name], [], ?_⟩
  rw [Expr.Grown]
  exact Token.taken_mul.2 ⟨by simp [h], rfl, fun _ => rfl, rfl⟩

theorem isGrown_ofItem {role : ListRole} {terminator : Kind} {m : Mode} {item : Item}
    (h : (item.Grown role terminator m * comma terminator m item.comma).Occurs) :
    (Node.ofItem role item).IsGrown := by
  cases role <;> exact ⟨terminator, m, h⟩

mutual
theorem Expr.every_of_occurs {level : Level} {m : Mode} : (e : Expr) → (e.Grown level m).Occurs →
    e.outline.Every Node.IsGrown
  | .assignment left operator right, h | .binary left operator right, h => by
    refine ⟨⟨level, m, h⟩, ?_⟩
    simp only [Expr.Grown] at h
    obtain ⟨found, h⟩ := h.exists
    exact ⟨left.every_of_occurs h.left.left.left.left, right.every_of_occurs h.left.right, trivial⟩
  | .block opening body (some closing), h => by
    refine ⟨⟨level, m, h⟩, ?_⟩
    simp only [Expr.Grown] at h
    exact Part.every_append.2 ⟨Expr.every_of_occursAll body h.left.right, trivial⟩
  | .call callee opening arguments (some closing), h => by
    refine ⟨⟨level, m, h⟩, ?_⟩
    simp only [Expr.Grown] at h
    exact ⟨callee.every_of_occurs h.left.left.left.left,
      Part.every_append.2 ⟨Item.every_of_occursAll arguments h.left.right, trivial⟩⟩
  | .forLoop keyword (some opening) (some loopVar) (some inWord) sequence (some closing) body,
      h => by
    refine ⟨⟨level, m, h⟩, ?_⟩
    simp only [Expr.Grown] at h
    have hname := h.left.left.left.left.left.left.left.right.fits
    exact ⟨⟨isGrown_var (of_decide_eq_true hname), trivial⟩,
      sequence.every_of_occurs h.left.left.left.left.left.right,
      body.every_of_occurs h.left.right, trivial⟩
  | .function keyword (some opening) parameters (some closing) (some body), h => by
    refine ⟨⟨level, m, h⟩, ?_⟩
    simp only [Expr.Grown] at h
    refine Part.every_append.2 ⟨Part.every_append.2 ⟨?_, trivial⟩,
      body.every_of_occurs h.left.right, trivial⟩
    exact Item.every_of_occursAll parameters h.left.left.left.left.left.right
  | .group opening inner (some closing), h => by
    refine ⟨⟨level, m, h⟩, ?_⟩
    simp only [Expr.Grown] at h
    exact ⟨inner.every_of_occurs h.left.left.right, trivial⟩
  | .conditional keyword (some opening) condition (some closing) consequent alternative, h => by
    refine ⟨⟨level, m, h⟩, ?_⟩
    simp only [Expr.Grown] at h
    exact ⟨condition.every_of_occurs h.left.left.left.left.left.left.right,
      consequent.every_of_occurs h.left.left.right,
      Expr.every_of_occursElse alternative h.right⟩
  | .index target opening arguments [closing], h => by
    refine ⟨⟨level, m, h⟩, ?_⟩
    simp only [Expr.Grown] at h
    exact ⟨target.every_of_occurs h.left.left.left.left,
      Part.every_append.2 ⟨Item.every_of_occursAll arguments h.left.right, trivial⟩⟩
  | .index target opening arguments [first, second], h => by
    refine ⟨⟨level, m, h⟩, ?_⟩
    simp only [Expr.Grown] at h
    exact ⟨target.every_of_occurs h.left.left.left.left.left,
      Part.every_append.2 ⟨Item.every_of_occursAll arguments h.left.left.right, trivial⟩⟩
  | .member target operator (some name), h => by
    refine ⟨⟨level, m, h⟩, ?_⟩
    simp only [Expr.Grown] at h
    exact ⟨target.every_of_occurs h.left.left, trivial⟩
  | .repeatLoop keyword body, h => by
    refine ⟨⟨level, m, h⟩, ?_⟩
    simp only [Expr.Grown] at h
    exact ⟨body.every_of_occurs h.left.right, trivial⟩
  | .unary operator operand, h => by
    refine ⟨⟨level, m, h⟩, ?_⟩
    simp only [Expr.Grown] at h
    obtain ⟨found, h⟩ := h.exists
    exact ⟨operand.every_of_occurs h.left.right, trivial⟩
  | .whileLoop keyword (some opening) condition (some closing) body, h => by
    refine ⟨⟨level, m, h⟩, ?_⟩
    simp only [Expr.Grown] at h
    exact ⟨condition.every_of_occurs h.left.left.left.left.left.right,
      body.every_of_occurs h.left.right, trivial⟩
  | .control _, h | .literal _, h | .var _, h | .namespaced _ _ (some _), h =>
    ⟨⟨level, m, h⟩, trivial⟩
  | .block _ _ none, h | .call _ _ _ none, h | .function _ none _ _ _, h
  | .function _ _ _ none _, h | .function _ _ _ _ none, h | .group _ _ none, h
  | .conditional _ none _ _ _ _, h | .conditional _ _ _ none _ _, h | .index _ _ _ [], h
  | .index _ _ _ (_ :: _ :: _ :: _), h | .member _ _ none, h | .namespaced _ _ none, h
  | .whileLoop _ none _ _ _, h | .whileLoop _ _ _ none _, h | .forLoop _ none _ _ _ _ _, h
  | .forLoop _ _ none _ _ _ _, h | .forLoop _ _ _ none _ _ _, h | .forLoop _ _ _ _ _ none _, h
  | .invalid _, h => by
    simp only [Expr.Grown] at h
    exact (not_occurs_never h).elim
theorem Expr.every_of_occursAll {m : Mode} : (es : List Expr) → (Expr.GrownAll m es).Occurs →
    Part.Every Node.IsGrown (Expr.outlines es)
  | [], _ => trivial
  | e :: rest, h => by
    simp only [Expr.GrownAll] at h
    exact ⟨e.every_of_occurs h.left.left.left.right, Expr.every_of_occursAll rest h.right⟩
theorem Expr.every_of_occurs? {terminator : Kind} {m : Mode} : (value : Option Expr) →
    (Expr.Grown? terminator m value).Occurs → Part.Every Node.IsGrown (Expr.outline? value)
  | none, _ => trivial
  | some e, h => by
    simp only [Expr.Grown?] at h
    exact ⟨e.every_of_occurs h.left, trivial⟩
theorem Expr.every_of_occursElse {m : Mode} : (alternative : Option (Token × Expr)) →
    (Expr.GrownElse m alternative).Occurs → Part.Every Node.IsGrown (Expr.outlineElse alternative)
  | none, _ => trivial
  | some (_, e), h => by
    simp only [Expr.GrownElse] at h
    exact ⟨e.every_of_occurs h.left.right, trivial⟩
theorem Item.every_of_occurs {role : ListRole} {terminator : Kind} {m : Mode} : (item : Item) →
    (item.Grown role terminator m * Trace.comma terminator m item.comma).Occurs →
      (item.outline role).Every Node.IsGrown
  | .positional value comma, h => by
    refine ⟨isGrown_ofItem h, ?_⟩
    simp only [Item.Grown] at h
    exact ⟨value.every_of_occurs h.left.left.right, Part.every_ofToken? comma⟩
  | .named name (some equals) value comma, h => by
    refine ⟨isGrown_ofItem h, ?_⟩
    simp only [Item.Grown] at h
    exact Part.every_append.2 ⟨Expr.every_of_occurs? value h.left.right, Part.every_ofToken? comma⟩
  | .named name none none comma, h => ⟨isGrown_ofItem h, Part.every_ofToken? comma⟩
  | .ellipsis token comma, h => ⟨isGrown_ofItem h, Part.every_ofToken? comma⟩
  | .missing comma, h => ⟨isGrown_ofItem h, Part.every_ofToken? comma⟩
  | .named _ none (some _) _, h | .unreadable _ _, h | .stub, h => by
    simp only [Item.Grown] at h
    exact (not_occurs_never h.left).elim
theorem Item.every_of_occursAll {role : ListRole} {terminator : Kind} {m : Mode}
    {slot : Reading.Slot} : (items : List Item) →
      (Item.GrownAll role terminator m slot items).Occurs →
        Part.Every Node.IsGrown (Item.outlines role items)
  | [], _ => trivial
  | item :: rest, h => by
    simp only [Item.GrownAll] at h
    exact ⟨item.every_of_occurs h.left, Item.every_of_occursAll rest h.right⟩
end

-- ---------------------------------------------------------------------------
-- No node has a gap
-- ---------------------------------------------------------------------------

/-- No token of the construct is missing, and it is not one that stands for what cannot be read. -/
def Expr.IsWhole : Expr → Prop
  | .block _ _ closing | .call _ _ _ closing | .group _ _ closing => closing.isSome
  | .forLoop _ opening loopVar inWord _ closing _ =>
    opening.isSome ∧ loopVar.isSome ∧ inWord.isSome ∧ closing.isSome
  | .function _ opening _ closing body => opening.isSome ∧ closing.isSome ∧ body.isSome
  | .conditional _ opening _ closing _ _ | .whileLoop _ opening _ closing _ =>
    opening.isSome ∧ closing.isSome
  | .index _ opening _ closing =>
    closing.length = if opening.kind = .leftDoubleSquare then 2 else 1
  | .member _ _ name | .namespaced _ _ name => name.isSome
  | .invalid _ => False
  | .assignment _ _ _ | .binary _ _ _ | .control _ | .literal _ | .repeatLoop _ _ | .unary _ _
  | .var _ => True

/-- An item that fits its list, with all that its equals sign asks for. -/
def Item.IsWhole (role : ListRole) : Item → Prop
  | .positional _ _ | .missing _ => role = .arguments
  | .named _ equals value _ =>
    match role with
    | .arguments => equals.isSome
    | .parameters => equals.isSome = value.isSome
  | .ellipsis _ _ => True
  | .unreadable _ _ | .stub => False

def Node.IsWhole : Node → Prop
  | .expr e => e.IsWhole
  | .argument item => item.IsWhole .arguments
  | .parameter item => item.IsWhole .parameters

theorem Expr.isWhole_of_occurs {level : Level} {m : Mode} {e : Expr}
    (h : (e.Grown level m).Occurs) : e.IsWhole := by
  cases e with
  | block _ _ closing | call _ _ _ closing | group _ _ closing | member _ _ closing
  | namespaced _ _ closing =>
    cases closing with
    | none => exact (not_occurs_never h).elim
    | some _ => rfl
  | forLoop _ opening loopVar inWord _ closing _ =>
    cases opening <;> cases loopVar <;> cases inWord <;> cases closing <;>
      first | exact ⟨rfl, rfl, rfl, rfl⟩ | exact (not_occurs_never h).elim
  | function _ opening _ closing body =>
    cases opening <;> cases closing <;> cases body <;>
      first | exact ⟨rfl, rfl, rfl⟩ | exact (not_occurs_never h).elim
  | conditional _ opening _ closing _ _ | whileLoop _ opening _ closing _ =>
    cases opening <;> cases closing <;>
      first | exact ⟨rfl, rfl⟩ | exact (not_occurs_never h).elim
  | index _ opening _ closing =>
    rcases closing with _ | ⟨_, _ | ⟨_, _ | _⟩⟩
    · exact (not_occurs_never h).elim
    · simp only [Expr.Grown] at h
      have hk := h.left.left.left.right.fits
      simp only [Bool.and_eq_true, decide_eq_true_eq] at hk
      simp [Expr.IsWhole, hk.1]
    · simp only [Expr.Grown] at h
      have hk := h.left.left.left.left.right.fits
      simp only [Bool.and_eq_true, decide_eq_true_eq] at hk
      simp [Expr.IsWhole, hk.1]
    · exact (not_occurs_never h).elim
  | invalid _ => exact not_occurs_never h
  | assignment | binary | control | literal | repeatLoop | unary | var => trivial

theorem Item.isWhole_of_occurs {role : ListRole} {terminator : Kind} {m : Mode} {item : Item}
    (h : (item.Grown role terminator m).Occurs) : item.IsWhole role := by
  obtain ⟨a, b, h⟩ := h
  rcases item with ⟨value, comma⟩ | ⟨name, _ | equals, value, comma⟩ | ⟨token, comma⟩ | comma |
    ⟨tokens, comma⟩ | _
  · exact (Item.grown_positional.1 h).1
  · cases value with
    | none =>
      obtain ⟨rfl, _⟩ := Item.grown_named_none.1 h
      rfl
    | some _ => exact absurd h Item.not_grown_named_none
  · obtain ⟨_, _, _, _, hvalue, _⟩ := Item.grown_named.1 h
    cases role with
    | arguments => rfl
    | parameters => exact (hvalue rfl).symm
  · trivial
  · exact (Item.grown_missing.1 h).1.1
  · exact absurd h Item.not_grown_unreadable
  · exact absurd h Item.not_grown_stub

theorem Node.IsGrown.isWhole {node : Node} (h : node.IsGrown) : node.IsWhole := by
  cases node with
  | expr e =>
    obtain ⟨_, _, h⟩ := h
    exact e.isWhole_of_occurs h
  | argument item | parameter item =>
    obtain ⟨_, _, h⟩ := h
    exact item.isWhole_of_occurs h.left

end LenientR
