import LenientR.Proofs.Laying.Stored
import Mathlib.Data.List.Chain

/-!
# Looking up a position

The path to a position goes down into the last child that contains it, and never back up. Nodes
contain the nodes below them, whatever text they were read from, so it leads to the last of all
nodes that contain the position (`Document.findsLast`). A stub has no place in the source and is
never come to.
-/

namespace LenientR

-- ---------------------------------------------------------------------------
-- Nodes that contain a position
-- ---------------------------------------------------------------------------

def Located.containing (position : Nat) (nodes : List Located) : List Located :=
  nodes.filter fun found => found.outline.containsPosition position

section
variable {position : Nat} {tokens : List Token}

theorem Located.containing_cons {found : Located}
    (h : found.outline.containsPosition position = true) (rest : List Located) :
    containing position (found :: rest) = found :: containing position rest :=
  List.filter_cons_of_pos h

theorem Located.containing_append (nodes others : List Located) :
    containing position (nodes ++ others) =
      containing position nodes ++ containing position others :=
  List.filter_append ..

theorem Located.containing_eq_nil {nodes : List Located} :
    containing position nodes = [] ↔
      ∀ found ∈ nodes, found.outline.containsPosition position = false := by
  simp [containing]

theorem Outline.containsPosition_iff {outline : Outline} :
    outline.containsPosition position = true ↔
      ∃ span, outline.span = some span ∧ span.start ≤ position ∧ position ≤ span.stop := by
  rw [containsPosition, Option.any_eq_true]
  exact exists_congr fun span => and_congr_right fun _ => Span.containsPosition_iff

theorem Outline.Placed.containsPosition_of_child {outline child : Outline}
    (h : outline.Placed tokens Token.NotAfter) (hm : child ∈ outline.children)
    (hc : child.containsPosition position = true) : outline.containsPosition position = true := by
  obtain ⟨span, hspan, hstart, hstop⟩ := containsPosition_iff.1 hc
  have hinner := (h.2.child hm).covers fun _ _ => id
  rw [hspan] at hinner
  have hsub : child.tokens ⊆ outline.tokens := by
    rw [← outline.tokens_parts]
    exact (Part.tokens_child_sublist hm).subset
  obtain ⟨outer, houter, hcontains⟩ := (h.covers fun _ _ => id).contains hinner hsub
  rw [Span.contains, Bool.and_eq_true, decide_eq_true_eq, decide_eq_true_eq] at hcontains
  exact containsPosition_iff.2
    ⟨outer, houter, hcontains.1.trans hstart, hstop.trans hcontains.2⟩

theorem Outline.Placed.containing_walk {outline : Outline}
    (h : outline.Placed tokens Token.NotAfter) (hc : outline.containsPosition position = false)
    (address : List Nat) : Located.containing position (outline.walk address) = [] := by
  let beside (outline : Outline) : Prop :=
    outline.Placed tokens Token.NotAfter ∧ outline.containsPosition position = false
  have hdown : ∀ outline, beside outline → ∀ child ∈ outline.children, beside child := by
    rintro outline ⟨hp, hc⟩ child hm
    refine ⟨hp.2.child hm, Bool.eq_false_iff.2 fun hchild => ?_⟩
    rw [hp.containsPosition_of_child hm hchild] at hc
    cases hc
  exact Located.containing_eq_nil.2 fun found hm =>
    (outline.forall_walk hdown address ⟨h, hc⟩ found hm).2

-- ---------------------------------------------------------------------------
-- Paths
-- ---------------------------------------------------------------------------

theorem Part.pathAt_eq_some {address : List Nat} {index : Nat} {parts : List Part}
    {path : List Located} (h : Part.pathAt position address index parts = some path) :
    ∃ (number : Nat) (child : Outline), (parts.filterMap Part.outline?)[number]? = some child ∧
      child.containsPosition position = true ∧
      path = child.pathAt position (address ++ [index + number]) := by
  induction parts generalizing index with
  | nil => cases h
  | cons part rest ih =>
    cases part with
    | token token => exact ih h
    | child outline =>
      rw [Part.pathAt] at h
      split at h
      · rename_i hrest
        obtain ⟨number, child, hn, hc, rfl⟩ := ih (hrest.trans h)
        exact ⟨number + 1, child, hn, hc, by rw [Nat.add_right_comm, Nat.add_assoc]⟩
      · split at h
        · rename_i hc
          exact ⟨0, outline, rfl, hc, (Option.some.inj h).symm⟩
        · cases h

theorem Part.pathAt_eq_none_iff {address : List Nat} {index : Nat} {parts : List Part} :
    Part.pathAt position address index parts = none ↔
      ∀ child ∈ parts.filterMap Part.outline?, child.containsPosition position = false := by
  induction parts generalizing index with
  | nil => simp [Part.pathAt]
  | cons part rest ih =>
    cases part with
    | token token => exact ih
    | child outline =>
      have hcons : (Part.child outline :: rest).filterMap Part.outline? =
          outline :: rest.filterMap Part.outline? := rfl
      rw [Part.pathAt, hcons, List.forall_mem_cons, ← @ih (index + 1)]
      cases Part.pathAt position address (index + 1) rest <;> simp

theorem Outline.exists_pathAt (position : Nat) (address : List Nat) (outline : Outline) :
    ∃ below, outline.pathAt position address = ⟨address, outline⟩ :: below := by
  cases outline
  exact ⟨_, rfl⟩

/-- A path stops at a node none of whose children contains the position, or else goes on from one
that does. -/
theorem Outline.pathAt_cases (position : Nat) (address : List Nat) (outline : Outline) :
    (outline.pathAt position address = [⟨address, outline⟩] ∧
        ∀ child ∈ outline.children, child.containsPosition position = false) ∨
      ∃ (number : Nat) (child : Outline), outline.children[number]? = some child ∧
        child.containsPosition position = true ∧ outline.pathAt position address =
          ⟨address, outline⟩ :: child.pathAt position (address ++ [number]) := by
  cases outline with
  | node label span parts =>
    rw [pathAt]
    cases hp : Part.pathAt position address 0 parts with
    | none => exact .inl ⟨rfl, Part.pathAt_eq_none_iff.1 hp⟩
    | some path =>
      obtain ⟨number, child, hn, hc, rfl⟩ := Part.pathAt_eq_some hp
      exact .inr ⟨number, child, hn, hc, by rw [Nat.zero_add]; rfl⟩

theorem Located.mem_mapIdx {address : List Nat} {outlines : List Outline} {number : Nat}
    {child : Outline} (h : outlines[number]? = some child) :
    ⟨address ++ [number], child⟩ ∈
      outlines.mapIdx fun index child => Located.mk (address ++ [index]) child := by
  obtain ⟨hlt, rfl⟩ := List.getElem?_eq_some_iff.1 h
  exact List.mem_mapIdx.2 ⟨number, hlt, rfl⟩

mutual
theorem Outline.induction_children {P : Outline → Prop}
    (h : ∀ outline, (∀ child ∈ outline.children, P child) → P outline) :
    (outline : Outline) → P outline
  | .node label span parts => h (.node label span parts) (Part.induction_children h parts)
theorem Part.induction_children {P : Outline → Prop}
    (h : ∀ outline, (∀ child ∈ outline.children, P child) → P outline) :
    (parts : List Part) → ∀ child ∈ parts.filterMap Part.outline?, P child
  | [] => by simp
  | .token _ :: rest => Part.induction_children h rest
  | .child outline :: rest =>
    List.forall_mem_cons.2 ⟨outline.induction_children h, Part.induction_children h rest⟩
end

theorem Outline.isChain_pathAt (position : Nat) (address : List Nat) (outline : Outline) :
    (outline.pathAt position address).IsChain fun parent child => child ∈ parent.children := by
  induction outline using Outline.induction_children generalizing address with
  | h outline ih =>
    rcases outline.pathAt_cases position address with ⟨hp, _⟩ | ⟨number, child, hn, _, hp⟩
    · rw [hp]
      exact .singleton _
    · rw [hp]
      refine .cons (ih child (List.mem_of_getElem? hn) _) fun next hnext => ?_
      obtain ⟨below, hbelow⟩ := child.exists_pathAt position (address ++ [number])
      rw [hbelow, List.head?_cons, Option.mem_some_iff] at hnext
      exact hnext ▸ Located.mem_mapIdx hn

theorem Outline.innermost_pathAt (position : Nat) (address : List Nat) (outline : Outline) :
    ∀ found ∈ (outline.pathAt position address).getLast?, ∀ child ∈ found.outline.children,
      child.containsPosition position = false := by
  induction outline using Outline.induction_children generalizing address with
  | h outline ih =>
    intro found hm
    rcases outline.pathAt_cases position address with ⟨hp, hnone⟩ | ⟨number, child, hn, _, hp⟩
    · rw [hp, List.getLast?_singleton, Option.mem_some_iff] at hm
      exact hm ▸ hnone
    · have hchild := ih child (List.mem_of_getElem? hn) (address ++ [number]) found
      obtain ⟨below, hbelow⟩ := child.exists_pathAt position (address ++ [number])
      rw [hp, hbelow, List.getLast?_cons_cons] at hm
      rw [hbelow] at hchild
      exact hchild hm

mutual
theorem Outline.pathAt_sublist (position : Nat) (address : List Nat) : (outline : Outline) →
    outline.containsPosition position = true → (outline.pathAt position address).Sublist
      (Located.containing position (outline.walk address))
  | .node label span parts, h => by
    rw [Outline.pathAt, Outline.walk, Located.containing_cons h]
    exact (Part.pathAt_sublist position address 0 parts).cons_cons _
theorem Part.pathAt_sublist (position : Nat) (address : List Nat) (index : Nat) :
    (parts : List Part) → ((Part.pathAt position address index parts).getD []).Sublist
      (Located.containing position (Part.walk address index parts))
  | [] => List.nil_sublist _
  | .token _ :: rest => Part.pathAt_sublist position address index rest
  | .child outline :: rest => by
    have hrest := Part.pathAt_sublist position address (index + 1) rest
    rw [Part.pathAt, Part.walk, Located.containing_append]
    cases hp : Part.pathAt position address (index + 1) rest with
    | some path =>
      rw [hp] at hrest
      exact hrest.trans (List.sublist_append_right _ _)
    | none =>
      dsimp only
      split
      · rename_i hc
        exact (outline.pathAt_sublist position (address ++ [index]) hc).trans
          (List.sublist_append_left _ _)
      · exact List.nil_sublist _
end

mutual
/-- As nodes contain the nodes below them, a path ends at the last that contains the position. -/
theorem Outline.getLast?_pathAt (position : Nat) (address : List Nat) : (outline : Outline) →
    outline.Placed tokens Token.NotAfter → outline.containsPosition position = true →
      (outline.pathAt position address).getLast? =
        (Located.containing position (outline.walk address)).getLast?
  | .node label span parts, h, hc => by
    have hbelow := Part.getLast?_pathAt position address 0 parts fun _ hm => h.2.child hm
    rw [Outline.pathAt, Outline.walk, Located.containing_cons hc, List.getLast?_cons,
      List.getLast?_cons, hbelow]
theorem Part.getLast?_pathAt (position : Nat) (address : List Nat) (index : Nat) :
    (parts : List Part) →
      (∀ child ∈ parts.filterMap Part.outline?, child.Placed tokens Token.NotAfter) →
        ((Part.pathAt position address index parts).getD []).getLast? =
          (Located.containing position (Part.walk address index parts)).getLast?
  | [], _ => rfl
  | .token _ :: rest, h => Part.getLast?_pathAt position address index rest h
  | .child outline :: rest, h => by
    obtain ⟨ho, hr⟩ := List.forall_mem_cons.1 h
    have hrest := Part.getLast?_pathAt position address (index + 1) rest hr
    rw [Part.walk, Located.containing_append, List.getLast?_append, ← hrest, Part.pathAt]
    cases hp : Part.pathAt position address (index + 1) rest with
    | some path =>
      -- a later sibling is gone into
      obtain ⟨number, child, _, _, rfl⟩ := Part.pathAt_eq_some hp
      obtain ⟨below, hbelow⟩ := child.exists_pathAt position (address ++ [index + 1 + number])
      simp [hbelow, List.getLast?_cons]
    | none =>
      dsimp only
      split
      · rename_i hc
        exact outline.getLast?_pathAt position (address ++ [index]) ho hc
      · rename_i hc
        rw [ho.containing_walk (Bool.eq_false_iff.2 hc)]
        rfl
end

end

-- ---------------------------------------------------------------------------
-- Documents
-- ---------------------------------------------------------------------------

def Forest.roots (forest : Forest) : List Located :=
  forest.mapIdx fun index outline => ⟨[index], outline⟩

/-- The way down to a node from the top level: each node is a child of the one before. -/
structure Forest.IsPath (forest : Forest) (path : List Located) : Prop where
  top : ∀ found ∈ path.head?, found ∈ forest.roots
  down : path.IsChain fun parent child => child ∈ parent.children

/-- The nodes at a position are those on the way to the last one that contains it. -/
structure Document.FindsLast (document : Document) (position : Nat) : Prop where
  path : document.forest.IsPath (document.nodesAt position)
  last : (document.nodesAt position).getLast? =
    (Located.containing position document.walk).getLast?
  within : (document.nodesAt position).Sublist (Located.containing position document.walk)
  innermost : ∀ found ∈ (document.nodesAt position).getLast?, ∀ child ∈ found.children,
    child.outline.containsPosition position = false
  empty : document.nodesAt position = [] ↔
    ∀ found ∈ document.walk, found.outline.containsPosition position = false
  stubs : ∀ found ∈ document.nodesAt position,
    found.node ≠ .argument .stub ∧ found.node ≠ .parameter .stub

theorem Outline.Own.ne_stub {outline : Outline} {position : Nat} (h : outline.Own)
    (hc : outline.containsPosition position = true) :
    outline.label ≠ .argument .stub ∧ outline.label ≠ .parameter .stub := by
  constructor <;>
  · intro hl
    rw [← h.eq, hl] at hc
    cases hc

open Reading in
theorem Document.own_parts (source : String) (range : Span) (text : List Char) :
    Part.Own (ofText source range text).forest.parts := by
  have hlaid := laid_parts source range text fun _ => listsFit_true
  exact hlaid.own

theorem Forest.nodesAt_cases (forest : Forest) (position : Nat) :
    forest.nodesAt position = [] ∨ ∃ (number : Nat) (root : Outline),
      forest[number]? = some root ∧ forest.nodesAt position = root.pathAt position [number] := by
  rw [nodesAt]
  cases hp : Part.pathAt position [] 0 forest.parts with
  | none => exact .inl rfl
  | some path =>
    obtain ⟨number, root, hn, _, rfl⟩ := Part.pathAt_eq_some hp
    rw [outlines_parts] at hn
    exact .inr ⟨number, root, hn, by rw [Nat.zero_add]; rfl⟩

theorem Forest.isPath_nodesAt (forest : Forest) (position : Nat) :
    forest.IsPath (forest.nodesAt position) := by
  rcases forest.nodesAt_cases position with hp | ⟨number, root, hn, hp⟩
  · rw [hp]
    exact ⟨by simp, .nil⟩
  · obtain ⟨below, hbelow⟩ := root.exists_pathAt position [number]
    rw [hp]
    refine ⟨fun found hm => ?_, root.isChain_pathAt position [number]⟩
    rw [hbelow, List.head?_cons, Option.mem_some_iff] at hm
    exact hm ▸ @Located.mem_mapIdx [] _ _ _ hn

theorem Forest.innermost_nodesAt (forest : Forest) (position : Nat) :
    ∀ found ∈ (forest.nodesAt position).getLast?, ∀ child ∈ found.outline.children,
      child.containsPosition position = false := by
  rcases forest.nodesAt_cases position with hp | ⟨number, root, _, hp⟩
  · simp [hp]
  · rw [hp]
    exact root.innermost_pathAt position [number]

/-- Whatever text is read, valid or not, and at whatever position, the path goes down to the last of
the nodes that contain the position, and is empty only if there are none. -/
theorem Document.findsLast (source : String) (range : Span) (text : List Char) (position : Nat) :
    (ofText source range text).FindsLast position := by
  let document := ofText source range text
  have hplaced : ∀ child ∈ document.forest.parts.filterMap Part.outline?,
      child.Placed document.tokens Token.NotAfter := fun _ hm =>
    (placed_parts source range text).child hm
  have hlast : (document.nodesAt position).getLast? =
      (Located.containing position document.walk).getLast? :=
    Part.getLast?_pathAt position [] 0 document.forest.parts hplaced
  have hwithin : (document.nodesAt position).Sublist (Located.containing position document.walk) :=
    Part.pathAt_sublist position [] 0 document.forest.parts
  exact {
    path := document.forest.isPath_nodesAt position
    last := hlast
    within := hwithin
    innermost := fun found hm child hc => by
      have hchild : child.outline ∈ found.outline.children := by
        rw [← found.outline_children]
        exact List.mem_map_of_mem hc
      exact document.forest.innermost_nodesAt position found hm _ hchild
    empty := by
      rw [← Located.containing_eq_nil, ← List.getLast?_eq_none_iff, hlast,
        List.getLast?_eq_none_iff]
    stubs := fun found hm => by
      obtain ⟨hwalk, hcontains⟩ := List.mem_filter.1 (hwithin.subset hm)
      exact (Forest.own_walk (own_parts source range text) found hwalk).ne_stub hcontains }

/-- The comma is an argument without a value, and it ends where `a` starts. -/
example : ((Document.parse "f(,a").nodesAt 3).map Located.address = [[0], [0, 2], [0, 2, 0]] := by
  decide +kernel

end LenientR
