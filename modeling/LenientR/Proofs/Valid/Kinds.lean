import LenientR.Proofs.Grammar.Start
import LenientR.Proofs.Valid.Nodes

/-!
# The tokens of a construct

Where a tree is read by the grammar, each token of a node is of the kind that its place in the
construct asks for (`Node.HasKinds`): the keywords, brackets and commas as well as the names and
operators. Of the items of a list all but the last one end in a comma.
-/

namespace LenientR

open Trace

def Item.Separated (items : List Item) : Prop := ∀ item ∈ items.dropLast, item.comma.isSome

def Expr.HasKinds : Expr → Prop
  | .assignment _ operator _ => operator.kind.isAssignment
  | .binary _ operator _ => operator.kind.isBinary
  | .block opening _ closing =>
    opening.kind = .leftCurly ∧ ∀ token ∈ closing, token.kind = .rightCurly
  | .call _ opening arguments closing =>
    opening.kind = .leftParen ∧ Item.Separated arguments ∧
      ∀ token ∈ closing, token.kind = .rightParen
  | .control token => token.kind = .breakWord ∨ token.kind = .nextWord
  | .forLoop keyword opening loopVar inWord _ closing _ =>
    keyword.kind = .forWord ∧ (∀ token ∈ opening, token.kind = .leftParen) ∧
      (∀ token ∈ loopVar, token.kind = .identifier) ∧ (∀ token ∈ inWord, token.kind = .inWord) ∧
      ∀ token ∈ closing, token.kind = .rightParen
  | .function keyword opening parameters closing _ =>
    (keyword.kind = .functionWord ∨ keyword.kind = .backslash) ∧
      (∀ token ∈ opening, token.kind = .leftParen) ∧ Item.Separated parameters ∧
      ∀ token ∈ closing, token.kind = .rightParen
  | .group opening _ closing =>
    opening.kind = .leftParen ∧ ∀ token ∈ closing, token.kind = .rightParen
  | .conditional keyword opening _ closing _ alternative =>
    keyword.kind = .ifWord ∧ (∀ token ∈ opening, token.kind = .leftParen) ∧
      (∀ token ∈ closing, token.kind = .rightParen) ∧
      ∀ branch ∈ alternative, branch.1.kind = .elseWord
  | .index _ opening arguments closing =>
    (opening.kind = .leftSquare ∨ opening.kind = .leftDoubleSquare) ∧ Item.Separated arguments ∧
      ∀ token ∈ closing, token.kind = .rightSquare
  | .literal token => token.kind.isConstant ∨ token.kind = .string
  | .member _ operator name =>
    (operator.kind = .dollar ∨ operator.kind = .atSign) ∧ ∀ token ∈ name, token.kind.isName
  | .namespaced package operator name =>
    package.kind.isName ∧ operator.kind.isPackageOperator ∧ ∀ token ∈ name, token.kind.isName
  | .repeatLoop keyword _ => keyword.kind = .repeatWord
  | .unary operator _ => (Level.ofSign? operator.kind).isSome
  | .var token => token.kind = .identifier ∨ token.kind = .ellipsis
  | .whileLoop keyword opening _ closing _ =>
    keyword.kind = .whileWord ∧ (∀ token ∈ opening, token.kind = .leftParen) ∧
      ∀ token ∈ closing, token.kind = .rightParen
  | .invalid _ => False

def Item.HasKinds (role : ListRole) (item : Item) : Prop :=
  (∀ token ∈ item.comma, token.kind = .comma) ∧
    match item with
    | .positional _ _ | .missing _ => True
    | .named name equals _ _ =>
      (if role = .arguments then name.kind.isName = true else name.kind = .identifier) ∧
        ∀ token ∈ equals, token.kind = .equal
    | .ellipsis token _ => token.kind = .ellipsis
    | .unreadable _ _ | .stub => False

def Node.HasKinds : Node → Prop
  | .expr e => e.HasKinds
  | .argument item => item.HasKinds .arguments
  | .parameter item => item.HasKinds .parameters

theorem startsItem_of_endsItem {terminator kind : Kind} (ht : terminator.startsItem = false)
    (he : Reading.endsItem terminator kind = true) (hk : kind ≠ .comma) :
    kind.startsItem = false := by
  simp only [Reading.endsItem, Bool.or_eq_true, decide_eq_true_eq] at he
  rcases he with ((rfl | he) | rfl) | rfl
  · exact ht
  · exact absurd he hk
  · rfl
  · rfl

/-- A list goes on after an item only if the item ends in a comma. -/
theorem Item.separated_of_occurs {role : ListRole} {terminator : Kind} {m : Mode}
    (ht : terminator.startsItem = false) : (items : List Item) → {slot : Reading.Slot} →
      (Item.GrownAll role terminator m slot items).Occurs → Item.Separated items
  | [], _, _ | [_], _, _ => nofun
  | item :: next :: rest, _, h => by
    rw [Item.GrownAll] at h
    refine List.forall_mem_cons.2 ⟨?_, Item.separated_of_occurs ht (next :: rest) h.right⟩
    rw [Item.GrownAll] at h
    obtain ⟨_, _, a, ⟨_, _, hcomma⟩, _, ⟨_, hnext, _⟩, _⟩ := h
    cases hc : item.comma with
    | some _ => rfl
    | none =>
      rw [hc] at hcomma
      obtain ⟨⟨hne, hends⟩, rfl⟩ := hcomma
      have hstarts := next.startsWith_grown role terminator m _ _ hnext
      rw [startsItem_of_endsItem ht hends hne] at hstarts
      cases hstarts

theorem Trace.Occurs.kind_eq {kind : Kind} {m : Mode} {token : Token}
    (h : (token.taken (· = kind) m).Occurs) : token.kind = kind :=
  of_decide_eq_true h.fits

theorem Trace.Occurs.kinds_some {kind : Kind} {m : Mode} {token : Token}
    (h : (token.taken (· = kind) m).Occurs) : ∀ found ∈ some token, found.kind = kind :=
  fun _ hm => Option.some.inj hm ▸ h.kind_eq

section
variable {level : Level} {m : Mode}

theorem Expr.hasKinds_of_occurs {e : Expr} (h : (e.Grown level m).Occurs) : e.HasKinds := by
  match e with
  | .assignment _ _ _ =>
    rw [Expr.Grown] at h
    obtain ⟨_, h⟩ := h.exists
    exact (Bool.and_eq_true_iff.1 h.left.left.left.right.fits).2
  | .binary _ _ _ =>
    rw [Expr.Grown] at h
    obtain ⟨_, h⟩ := h.exists
    have hk := h.left.left.left.right.fits
    simp only [Level.joins, Bool.and_eq_true, decide_eq_true_eq] at hk
    simp [Expr.HasKinds, Kind.isBinary, hk.1.1.1, hk.1.2, hk.2]
  | .block _ _ (some _) =>
    rw [Expr.Grown] at h
    exact ⟨h.left.left.kind_eq, h.right.kinds_some⟩
  | .call _ _ arguments (some _) =>
    rw [Expr.Grown] at h
    have hk := h.left.left.left.right.fits
    simp only [Bool.and_eq_true, decide_eq_true_eq] at hk
    exact ⟨hk.1, Item.separated_of_occurs rfl arguments h.left.right, h.right.kinds_some⟩
  | .control _ =>
    rw [Expr.Grown] at h
    simpa [Expr.HasKinds] using h.fits
  | .forLoop _ (some _) (some _) (some _) _ (some _) _ =>
    rw [Expr.Grown] at h
    have hclosing := h.left.left.left
    have hin := hclosing.left.left.left
    exact ⟨hin.left.left.left.left.kind_eq, hin.left.left.left.right.kinds_some,
      hin.left.right.kinds_some, hin.right.kinds_some, hclosing.right.kinds_some⟩
  | .function _ (some _) parameters (some _) (some _) =>
    rw [Expr.Grown] at h
    have hclosing := h.left.left.left.left
    have hparameters := hclosing.left
    have hk := hparameters.left.left.left.fits
    simp only [Bool.or_eq_true, decide_eq_true_eq] at hk
    exact ⟨hk, hparameters.left.left.right.kinds_some,
      Item.separated_of_occurs rfl parameters hparameters.right, hclosing.right.kinds_some⟩
  | .group _ _ (some _) =>
    rw [Expr.Grown] at h
    exact ⟨h.left.left.left.left.kind_eq, h.right.kinds_some⟩
  | .conditional _ (some _) _ (some _) _ alternative =>
    rw [Expr.Grown] at h
    have hclosing := h.left.left.left.left
    have hopening := hclosing.left.left.left.left
    refine ⟨hopening.left.kind_eq, hopening.right.kinds_some, hclosing.right.kinds_some, ?_⟩
    rintro ⟨keyword, e⟩ hm
    obtain rfl := hm
    have helse := h.right
    rw [Expr.GrownElse] at helse
    exact helse.left.left.left.right.kind_eq
  | .index _ _ arguments [_] =>
    rw [Expr.Grown] at h
    have hk := h.left.left.left.right.fits
    simp only [Bool.and_eq_true, decide_eq_true_eq] at hk
    exact ⟨.inl hk.1, Item.separated_of_occurs rfl arguments h.left.right,
      List.forall_mem_singleton.2 h.right.kind_eq⟩
  | .index _ _ arguments [_, _] =>
    rw [Expr.Grown] at h
    have hk := h.left.left.left.left.right.fits
    simp only [Bool.and_eq_true, decide_eq_true_eq] at hk
    exact ⟨.inr hk.1, Item.separated_of_occurs rfl arguments h.left.left.right,
      List.forall_mem_cons.2 ⟨h.left.right.kind_eq, List.forall_mem_singleton.2 h.right.kind_eq⟩⟩
  | .literal _ =>
    rw [Expr.Grown] at h
    simpa [Expr.HasKinds] using h.left.fits
  | .member _ _ (some _) =>
    rw [Expr.Grown] at h
    have hk := h.left.right.fits
    simp only [Bool.and_eq_true, Bool.or_eq_true, decide_eq_true_eq] at hk
    exact ⟨hk.1, fun _ hm => Option.some.inj hm ▸ h.right.fits⟩
  | .namespaced _ _ (some _) =>
    rw [Expr.Grown] at h
    exact ⟨h.left.left.fits, h.left.right.fits, fun _ hm => Option.some.inj hm ▸ h.right.fits⟩
  | .repeatLoop _ _ =>
    rw [Expr.Grown] at h
    exact h.left.left.left.kind_eq
  | .unary _ _ =>
    rw [Expr.Grown] at h
    obtain ⟨_, h⟩ := h.exists
    exact Option.isSome_of_eq_some (of_decide_eq_true h.left.left.left.fits)
  | .var _ =>
    rw [Expr.Grown] at h
    simpa [Expr.HasKinds] using h.left.fits
  | .whileLoop _ (some _) _ (some _) _ =>
    rw [Expr.Grown] at h
    have hclosing := h.left.left.left
    have hopening := hclosing.left.left.left.left
    exact ⟨hopening.left.kind_eq, hopening.right.kinds_some, hclosing.right.kinds_some⟩
  | .block _ _ none | .call _ _ _ none | .function _ none _ _ _ | .function _ _ _ none _
  | .function _ _ _ _ none | .group _ _ none | .conditional _ none _ _ _ _
  | .conditional _ _ _ none _ _ | .index _ _ _ [] | .index _ _ _ (_ :: _ :: _ :: _)
  | .member _ _ none | .namespaced _ _ none | .whileLoop _ none _ _ _ | .whileLoop _ _ _ none _
  | .forLoop _ none _ _ _ _ _ | .forLoop _ _ none _ _ _ _ | .forLoop _ _ _ none _ _ _
  | .forLoop _ _ _ _ _ none _ | .invalid _ =>
    simp only [Expr.Grown] at h
    exact (not_occurs_never h).elim

theorem Item.hasKinds_of_occurs {role : ListRole} {terminator : Kind} {item : Item}
    (h : (item.Grown role terminator m * Trace.comma terminator m item.comma).Occurs) :
    item.HasKinds role := by
  constructor
  · intro token hm
    have hcomma := h.right
    rw [show item.comma = some token from hm] at hcomma
    exact hcomma.kind_eq
  have hitem := h.left
  match item with
  | .positional _ _ | .missing _ => trivial
  | .named _ (some _) _ _ =>
    rw [Item.Grown] at hitem
    have hname := hitem.left.left.left.fits
    refine ⟨?_, hitem.left.left.right.kinds_some⟩
    cases role <;> simpa using hname
  | .named _ none none _ =>
    rw [Item.Grown] at hitem
    have hname := hitem.left.fits
    simp only [Bool.and_eq_true, decide_eq_true_eq] at hname
    exact ⟨by simp [hname.1, hname.2], nofun⟩
  | .ellipsis _ _ =>
    rw [Item.Grown] at hitem
    exact hitem.kind_eq
  | .named _ none (some _) _ | .unreadable _ _ | .stub =>
    simp only [Item.Grown] at hitem
    exact (not_occurs_never hitem).elim

end

theorem Node.IsGrown.hasKinds {node : Node} (h : node.IsGrown) : node.HasKinds := by
  cases node with
  | expr _ =>
    obtain ⟨_, _, h⟩ := h
    exact Expr.hasKinds_of_occurs h
  | argument _ | parameter _ =>
    obtain ⟨_, _, h⟩ := h
    exact Item.hasKinds_of_occurs h

end LenientR
