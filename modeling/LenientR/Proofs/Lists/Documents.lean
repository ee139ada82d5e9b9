import LenientR.Proofs.Lists.Accounts

/-!
# The lists of a document

In the tree of any text, valid or not, the items of a list fill it, and a list of which nothing is
kept is closed at once or given up at a closing brace (`Document.listsTiled`). An item that is given
up is so for a problem (`Document.itemsBlamed`).
-/

namespace LenientR

def Node.list? : Node → Option (Token × List Item × Option Token)
  | .expr e => e.list?
  | _ => none

theorem Node.fits_of_list? {fits : Token → List Item → Option Token → Prop} {node : Node}
    (h : ∀ e, node = .expr e → Reading.ListFits fits e) {opening : Token} {items : List Item}
    {closing : Option Token} (hl : node.list? = some (opening, items, closing)) :
    fits opening items closing := by
  cases node with
  | expr e => exact h e rfl opening items closing hl
  | argument item | parameter item => cases hl

open Reading in
theorem Document.listBlamed (source : String) (range : Span) (text : List Char)
    {found : Located} (hm : found ∈ (ofText source range text).walk) {opening : Token}
    {items : List Item} {closing : Option Token}
    (hl : found.node.list? = some (opening, items, closing)) :
    ListBlamed (ofText source range text).tokens (ofText source range text).problems opening items
      closing := by
  let document := ofText source range text
  have hends := endsOnce_tokens source range text
  have hread := accounted_readAll (pairwise_tokens source range text)
    ((State.within_start hends).ended hends)
  have hexprs : ∀ e ∈ Part.exprsPostorder document.forest.parts,
      e.Blamed document.tokens (readAll document.tokens).2.problems := by
    intro e he
    rw [← expressions_eq] at he
    exact hread.completed e (List.mem_reverse.1 he)
  have hproblems : (readAll document.tokens).2.problems ⊆ document.problems := fun _ hp =>
    (Problem.sortByStart_perm _).mem_iff.2 (List.mem_reverse.2 hp)
  have hnode := Part.every_walk [] 0 _ (Part.every_of_exprs _ hexprs) found hm
  exact (Node.fits_of_list? hnode hl).mono hproblems

-- ---------------------------------------------------------------------------
-- Tiling
-- ---------------------------------------------------------------------------

/-- All lists of a tree are tiled, but for items that may be followed by more tokens up to the end
of the file. -/
structure Document.ListsTiled (document : Document) (mayTrail : Item → Bool) : Prop where
  tiled : ∀ found ∈ document.walk, ∀ opening items closing,
    found.node.list? = some (opening, items, closing) →
      ListTiled document.tokens mayTrail opening items closing
  /-- Nothing is kept of a list that is not closed only where it is given up at a closing brace. -/
  givenUp : ∀ found ∈ document.walk, ∀ opening, found.node.list? = some (opening, [], none) →
    ListGivenUp document.tokens document.problems opening

/-- Whatever text is read, valid or not, the items of a list fill it. Only brackets that are never
closed may end before the end of the file: what is skipped in them belongs to no node. -/
theorem Document.listsTiled (source : String) (range : Span) (text : List Char) :
    (ofText source range text).ListsTiled Item.trailsOff where
  tiled := by
    have ho := pairwise_tokens source range text
    have hlaid := laid_parts source range text (Reading.listsFit_readExprWithin ho)
    intro found hm opening items closing hl
    exact Node.fits_of_list? (Part.every_walk [] 0 _ hlaid.every found hm) hl
  givenUp _ hm _ hl := (listBlamed source range text hm hl).givenUp rfl rfl

/-- In this text `b` is skipped in round brackets that are never closed, so the last item ends before
the file does. -/
theorem Document.not_listsTiled_open_group :
    ¬(parse "f((a b").ListsTiled fun _ => false := by
  intro h
  have htiles : ((parse "f((a b").walk.all fun found => found.node.list?.all fun list =>
      list.2.1.isEmpty || Item.tile (parse "f((a b").tokens (fun _ => false) list.2.2 list.1
        list.2.1) = false := by
    decide +kernel
  refine Bool.eq_false_iff.1 htiles (List.all_eq_true.2 fun found hm => ?_)
  rw [Option.all_eq_true]
  rintro ⟨opening, items, closing⟩ hl
  rw [Bool.or_eq_true, List.isEmpty_iff, or_iff_not_imp_left]
  exact (h.tiled found hm opening items closing hl).tile

-- ---------------------------------------------------------------------------
-- Items that are given up
-- ---------------------------------------------------------------------------

def Document.ItemsBlamed (document : Document) : Prop :=
  ∀ found ∈ document.walk, ∀ opening items closing,
    found.node.list? = some (opening, items, closing) →
      LenientR.ItemsBlamed document.tokens document.problems opening items

/-- Whatever text is read, valid or not, each item that is given up is so for a problem of its own.
Only the first item of a list may be given up for a problem in front of the list. -/
theorem Document.itemsBlamed (source : String) (range : Span) (text : List Char) :
    (ofText source range text).ItemsBlamed :=
  fun _ hm _ _ _ hl => (listBlamed source range text hm hl).blamed

/-- Nothing is wrong with `a` here, but with the `*` in front of its list. -/
example :
    (Document.parse "-*(a, b)").problems = [.expectedExpression ⟨.star, 1, ['*']⟩] ∧
      (Document.parse "-*(a, b)").walk.map (·.node.kindName) =
        ["Call", "Unary", "Invalid", "ErrorArgument", "ExpressionArgument", "Variable"] := by
  decide +kernel

end LenientR
