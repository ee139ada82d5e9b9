import LenientR.Proofs.Laying.Arena
import LenientR.Proofs.Lookup.Position
import Mathlib.Data.List.Nodup
import Mathlib.Logic.Relation

/-!
# Parents

No node stores its parent: it is looked for in the walk, as the node that has this one among its
children. The walk visits each node once (`Forest.nodup_walk`), so it finds the only one, and
climbing from the last node at a position leads back over the path to it
(`Document.parentsInvert`).
-/

namespace LenientR

namespace Located

-- ---------------------------------------------------------------------------
-- The walk, node by node
-- ---------------------------------------------------------------------------

def walk (found : Located) : List Located := found.outline.walk found.address

def siblings (base : List Nat) (outlines : List Outline) : List Located :=
  outlines.mapIdx fun index outline => ⟨base ++ [index], outline⟩

def IsParent (parent child : Located) : Prop := child ∈ parent.children

theorem mem_siblings {base : List Nat} {outlines : List Outline} {found : Located}
    (h : found ∈ siblings base outlines) : ∃ index, found.address = base ++ [index] := by
  obtain ⟨index, _, rfl⟩ := List.mem_mapIdx.1 h
  exact ⟨index, rfl⟩

theorem induction_children {P : Located → Prop}
    (h : ∀ found, (∀ child ∈ found.children, P child) → P found) (found : Located) : P found := by
  obtain ⟨address, outline⟩ := found
  induction outline using Outline.induction_children generalizing address with
  | h outline ih =>
    apply h
    intro child hm
    obtain ⟨index, hlt, rfl⟩ := List.mem_mapIdx.1 hm
    exact ih _ (List.getElem_mem hlt) _

end Located

theorem Part.walk_eq (address : List Nat) (index : Nat) (parts : List Part) :
    Part.walk address index parts =
      ((parts.filterMap Part.outline?).mapIdx fun number child =>
        Located.mk (address ++ [index + number]) child).flatMap Located.walk := by
  induction parts generalizing index with
  | nil => rfl
  | cons part rest ih =>
    cases part with
    | token token => exact ih index
    | child outline =>
      have hcons : (Part.child outline :: rest).filterMap Part.outline? =
          outline :: rest.filterMap Part.outline? := rfl
      have hnumber (number : Nat) : index + 1 + number = index + (number + 1) := by omega
      rw [Part.walk, ih, hcons, List.mapIdx_cons, List.flatMap_cons]
      simp only [hnumber]
      rfl

namespace Located

theorem walk_eq (found : Located) : found.walk = found :: found.children.flatMap walk := by
  obtain ⟨address, label, span, parts⟩ := found
  have h := Part.walk_eq address 0 parts
  simp only [Nat.zero_add] at h
  rw [walk, Outline.walk, h]
  rfl

theorem mem_walk_self (found : Located) : found ∈ found.walk := by
  rw [walk_eq]
  exact List.mem_cons_self

theorem mem_walk_iff {found other : Located} :
    other ∈ found.walk ↔ Relation.ReflTransGen IsParent found other := by
  constructor
  · induction found using induction_children with
    | h found ih =>
      intro hm
      rw [walk_eq] at hm
      cases List.mem_cons.1 hm with
      | inl he => exact he ▸ .refl
      | inr hm =>
        obtain ⟨child, hc, hm⟩ := List.mem_flatMap.1 hm
        exact .head hc (ih child hc hm)
  · intro h
    induction h using Relation.ReflTransGen.head_induction_on with
    | refl => exact other.mem_walk_self
    | head hc _ ih =>
      rw [walk_eq]
      exact List.mem_cons_of_mem _ (List.mem_flatMap.2 ⟨_, hc, ih⟩)

theorem prefix_of_mem_walk {found other : Located} (h : other ∈ found.walk) :
    found.address <+: other.address := by
  induction mem_walk_iff.1 h with
  | refl => exact List.prefix_refl _
  | tail hup hc ih =>
    obtain ⟨index, he⟩ := mem_siblings hc
    rw [he]
    exact (ih (mem_walk_iff.2 hup)).trans (List.prefix_append _ _)

-- ---------------------------------------------------------------------------
-- Each node once
-- ---------------------------------------------------------------------------

/-- Walks of siblings have no node in common: their addresses differ where they have the numbers
of the siblings. -/
theorem nodup_flatMap_walk (base : List Nat) {outlines : List Outline}
    (h : ∀ found ∈ siblings base outlines, (found.walk.map address).Nodup) :
    (((siblings base outlines).flatMap walk).map address).Nodup := by
  rw [List.map_flatMap, List.nodup_flatMap]
  refine ⟨h, ?_⟩
  rw [List.pairwise_iff_getElem]
  intro i j hi hj hlt
  refine List.disjoint_left.2 fun address ha hb => ?_
  obtain ⟨a, hma, rfl⟩ := List.mem_map.1 ha
  obtain ⟨b, hmb, he⟩ := List.mem_map.1 hb
  have hpa := prefix_of_mem_walk hma
  have hpb := prefix_of_mem_walk hmb
  rw [he] at hpb
  simp only [siblings, List.getElem_mapIdx] at hpa hpb
  have hsame := (List.prefix_of_prefix_length_le hpa hpb (by simp)).eq_of_length (by simp)
  have : i = j := by simpa using hsame
  omega

theorem nodup_walk (found : Located) : (found.walk.map address).Nodup := by
  induction found using induction_children with
  | h found ih =>
    rw [walk_eq, List.map_cons, List.nodup_cons]
    refine ⟨?_, nodup_flatMap_walk _ ih⟩
    intro hm
    obtain ⟨other, hm, he⟩ := List.mem_map.1 hm
    obtain ⟨child, hc, hm⟩ := List.mem_flatMap.1 hm
    obtain ⟨index, hindex⟩ := mem_siblings hc
    have hle := (prefix_of_mem_walk hm).length_le
    rw [hindex, he, List.length_append, List.length_singleton] at hle
    omega

-- ---------------------------------------------------------------------------
-- Order
-- ---------------------------------------------------------------------------

theorem sublist_flatMap_walk (nodes : List Located) : nodes.Sublist (nodes.flatMap walk) := by
  induction nodes with
  | nil => exact List.nil_sublist _
  | cons found rest ih =>
    rw [List.flatMap_cons, walk_eq, List.cons_append]
    exact (ih.trans (List.sublist_append_right _ _)).cons_cons _

/-- Parents come before their children, and children in their order. -/
theorem sublist_walk (found : Located) : (found :: found.children).Sublist found.walk := by
  rw [walk_eq]
  exact (sublist_flatMap_walk _).cons_cons _

theorem walk_sublist_of_mem {found other : Located} (h : other ∈ found.walk) :
    other.walk.Sublist found.walk := by
  induction mem_walk_iff.1 h with
  | refl => exact .refl _
  | @tail parent child hup hc ih =>
    have hparent : child.walk.Sublist parent.walk := by
      rw [parent.walk_eq]
      exact (List.sublist_flatten_of_mem (List.mem_map_of_mem hc)).trans
        (List.sublist_cons_self _ _)
    exact hparent.trans (ih (mem_walk_iff.2 hup))

end Located

-- ---------------------------------------------------------------------------
-- The walk of a tree
-- ---------------------------------------------------------------------------

def Node.expr? : Node → Option Expr
  | expr e => some e
  | argument _ | parameter _ => none

def Located.expr? (found : Located) : Option Expr := found.node.expr?

mutual
/-- The nodes walked are the expressions stored, in another order, and the items between them. -/
theorem Outline.exprs_walk_perm (address : List Nat) : (outline : Outline) →
    ((outline.walk address).filterMap Located.expr?).Perm outline.exprsPostorder
  | .node (.expr e) _ parts =>
    ((Part.exprs_walk_perm address 0 parts).cons e).trans (List.perm_append_singleton e _).symm
  | .node (.argument _) _ parts | .node (.parameter _) _ parts =>
    Part.exprs_walk_perm address 0 parts
theorem Part.exprs_walk_perm (address : List Nat) (index : Nat) : (parts : List Part) →
    ((Part.walk address index parts).filterMap Located.expr?).Perm (Part.exprsPostorder parts)
  | [] => .refl _
  | .token _ :: rest => Part.exprs_walk_perm address index rest
  | .child outline :: rest => by
    rw [Part.walk, Part.exprsPostorder, List.filterMap_append]
    exact (outline.exprs_walk_perm (address ++ [index])).append
      (Part.exprs_walk_perm address (index + 1) rest)
end

namespace Forest

variable {forest : Forest} {found parent : Located}

theorem walk_eq (forest : Forest) : forest.walk = forest.roots.flatMap Located.walk := by
  have h := Part.walk_eq [] 0 forest.parts
  simp only [Nat.zero_add, outlines_parts] at h
  exact h

theorem mem_walk_iff : found ∈ forest.walk ↔
    ∃ root ∈ forest.roots, Relation.ReflTransGen Located.IsParent root found := by
  simp only [walk_eq, List.mem_flatMap, Located.mem_walk_iff]

theorem nodup_walk (forest : Forest) : (forest.walk.map Located.address).Nodup := by
  rw [walk_eq]
  exact Located.nodup_flatMap_walk [] fun root _ => root.nodup_walk

theorem roots_sublist_walk (forest : Forest) : forest.roots.Sublist forest.walk := by
  rw [walk_eq]
  exact Located.sublist_flatMap_walk _

theorem sublist_walk (h : found ∈ forest.walk) :
    (found :: found.children).Sublist forest.walk := by
  rw [walk_eq] at h ⊢
  obtain ⟨root, hr, hm⟩ := List.mem_flatMap.1 h
  exact (found.sublist_walk.trans (Located.walk_sublist_of_mem hm)).trans
    (List.sublist_flatten_of_mem (List.mem_map_of_mem hr))

theorem child_mem_walk (hp : parent ∈ forest.walk) (hc : found ∈ parent.children) :
    found ∈ forest.walk :=
  (sublist_walk hp).subset (List.mem_cons_of_mem _ hc)

-- ---------------------------------------------------------------------------
-- Parents
-- ---------------------------------------------------------------------------

theorem eq_of_address_eq {other : Located} (hf : found ∈ forest.walk) (ho : other ∈ forest.walk)
    (h : found.address = other.address) : found = other :=
  List.inj_on_of_nodup_map forest.nodup_walk hf ho h

theorem parent_unique {other : Located} (hp : parent ∈ forest.walk) (ho : other ∈ forest.walk)
    (hc : found ∈ parent.children) (hoc : found ∈ other.children) : parent = other := by
  obtain ⟨i, hi⟩ := Located.mem_siblings hc
  obtain ⟨j, hj⟩ := Located.mem_siblings hoc
  rw [hi] at hj
  exact eq_of_address_eq hp ho (List.append_inj_left' hj rfl)

theorem any_isSame_iff (hf : found ∈ forest.walk) (hp : parent ∈ forest.walk) :
    parent.children.any (·.isSame found) = true ↔ found ∈ parent.children := by
  rw [List.any_eq_true]
  constructor
  · rintro ⟨child, hc, hs⟩
    rw [← eq_of_address_eq (child_mem_walk hp hc) hf (of_decide_eq_true hs)]
    exact hc
  · intro hc
    exact ⟨found, hc, decide_eq_true rfl⟩

theorem parent?_eq_some_iff (hf : found ∈ forest.walk) :
    forest.parent? found = some parent ↔ parent ∈ forest.walk ∧ found ∈ parent.children := by
  have hsome {parent : Located} (h : forest.parent? found = some parent) :
      parent ∈ forest.walk ∧ found ∈ parent.children := by
    have hp := List.mem_of_find?_eq_some h
    have hsame := List.find?_some h
    exact ⟨hp, (any_isSame_iff hf hp).1 hsame⟩
  constructor
  · exact hsome
  · rintro ⟨hp, hc⟩
    cases h : forest.parent? found with
    | none =>
      have hnone := List.find?_eq_none.1 h parent hp
      exact absurd ((any_isSame_iff hf hp).2 hc) hnone
    | some other =>
      obtain ⟨ho, hoc⟩ := hsome h
      rw [parent_unique ho hp hoc hc]

theorem not_mem_roots_of_mem_children (hp : parent ∈ forest.walk) (hc : found ∈ parent.children) :
    found ∉ forest.roots := by
  intro hr
  obtain ⟨i, hi⟩ := @Located.mem_siblings [] _ _ hr
  obtain ⟨j, hj⟩ := Located.mem_siblings hc
  obtain ⟨root, hroot, hdown⟩ := mem_walk_iff.1 hp
  obtain ⟨k, hk⟩ := @Located.mem_siblings [] _ _ hroot
  have hle := (Located.prefix_of_mem_walk (Located.mem_walk_iff.2 hdown)).length_le
  have hlength := congrArg List.length (hi.symm.trans hj)
  simp only [hk, List.length_append, List.length_singleton, List.length_nil] at hle hlength
  omega

theorem mem_roots_or_exists_parent (hf : found ∈ forest.walk) :
    found ∈ forest.roots ∨ ∃ parent ∈ forest.walk, found ∈ parent.children := by
  obtain ⟨root, hr, hdown⟩ := mem_walk_iff.1 hf
  cases hdown with
  | refl => exact .inl hr
  | tail hup hc => exact .inr ⟨_, mem_walk_iff.2 ⟨root, hr, hup⟩, hc⟩

theorem parent?_eq_none_iff (hf : found ∈ forest.walk) :
    forest.parent? found = none ↔ found ∈ forest.roots := by
  constructor
  · intro h
    cases mem_roots_or_exists_parent hf with
    | inl hr => exact hr
    | inr hup =>
      obtain ⟨parent, hp⟩ := hup
      rw [(parent?_eq_some_iff hf).2 hp] at h
      cases h
  · intro hr
    rw [Option.eq_none_iff_forall_ne_some]
    intro parent hp
    obtain ⟨hp, hc⟩ := (parent?_eq_some_iff hf).1 hp
    exact not_mem_roots_of_mem_children hp hc hr

-- ---------------------------------------------------------------------------
-- Climbing
-- ---------------------------------------------------------------------------

/-- From a node to its parent, from there to the parent's parent, and so on until there is none. -/
inductive Climbs (forest : Forest) : Located → List Located → Prop
  | top {found : Located} (h : forest.parent? found = none) : Climbs forest found [found]
  | up {found parent : Located} {path : List Located} (h : forest.parent? found = some parent)
      (k : Climbs forest parent path) : Climbs forest found (found :: path)

theorem Climbs.unique {path other : List Located} (h : forest.Climbs found path)
    (k : forest.Climbs found other) : path = other := by
  induction h generalizing other with
  | top h =>
    cases k with
    | top => rfl
    | up hup _ =>
      rw [h] at hup
      cases hup
  | up h _ ih =>
    cases k with
    | top hnone =>
      rw [h] at hnone
      cases hnone
    | up hup k =>
      obtain rfl := Option.some.inj (h.symm.trans hup)
      rw [ih k]

theorem climbs_ancestorsIn (hf : found ∈ forest.walk) {bound : Nat}
    (h : found.address.length ≤ bound) :
    forest.Climbs found (found.ancestorsIn forest.walk bound) := by
  induction bound generalizing found with
  | zero =>
    obtain ⟨root, hr, hdown⟩ := mem_walk_iff.1 hf
    obtain ⟨k, hk⟩ := @Located.mem_siblings [] _ _ hr
    have hle := (Located.prefix_of_mem_walk (Located.mem_walk_iff.2 hdown)).length_le
    rw [hk, List.nil_append, List.length_singleton] at hle
    omega
  | succ bound ih =>
    rw [Located.ancestorsIn]
    cases hp : found.parentIn? forest.walk with
    | none => exact .top hp
    | some parent =>
      obtain ⟨hparent, hc⟩ := (parent?_eq_some_iff hf).1 hp
      obtain ⟨i, hi⟩ := Located.mem_siblings hc
      rw [hi, List.length_append, List.length_singleton] at h
      exact .up hp (ih hparent (Nat.le_of_succ_le_succ h))

theorem mem_walk_of_mem_nodesAt (forest : Forest) {position : Nat}
    (h : found ∈ forest.nodesAt position) : found ∈ forest.walk :=
  (List.mem_filter.1 ((Part.pathAt_sublist position [] 0 forest.parts).subset h)).1

/-- Climbing from the end of a path leads back over it. -/
theorem IsPath.climbs_reverse {path : List Located} {last : Located}
    (h : forest.IsPath (path ++ [last])) (hm : ∀ found ∈ path ++ [last], found ∈ forest.walk) :
    forest.Climbs last (last :: path.reverse) := by
  induction path using List.reverseRecOn generalizing last with
  | nil =>
    have hr := h.top last rfl
    exact .top ((parent?_eq_none_iff (hm last (by simp))).2 hr)
  | append_singleton front parent ih =>
    have hc : last ∈ parent.children := by
      have hchain := h.down
      rw [List.append_assoc] at hchain
      exact (List.isChain_append.1 hchain).2.1.rel
    have hfront : forest.IsPath (front ++ [parent]) := by
      refine ⟨fun found hf => h.top found ?_, (List.isChain_append.1 h.down).1⟩
      cases front with
      | nil => exact hf
      | cons first rest => exact hf
    have hp := hm parent (by simp)
    rw [List.reverse_append]
    exact .up ((parent?_eq_some_iff (hm last (by simp))).2 ⟨hp, hc⟩)
      (ih hfront fun found hf => hm found (List.mem_append_left _ hf))

end Forest

-- ---------------------------------------------------------------------------
-- Documents
-- ---------------------------------------------------------------------------

/-- What is found going up is what is found going down. -/
structure Document.ParentsInvert (document : Document) : Prop where
  visited : ∀ found, found ∈ document.walk ↔
    ∃ root ∈ document.forest.roots, Relation.ReflTransGen Located.IsParent root found
  once : (document.walk.map Located.address).Nodup
  /-- Every stored expression is visited, none of them twice, and nothing that was discarded. -/
  expressions : (document.walk.filterMap Located.expr?).Perm document.expressions
  rootsInOrder : document.forest.roots.Sublist document.walk
  /-- A parent comes before its children, and these in their order. -/
  inOrder : ∀ found ∈ document.walk, (found :: found.children).Sublist document.walk
  top : ∀ found ∈ document.walk,
    document.forest.parent? found = none ↔ found ∈ document.forest.roots
  below : ∀ found ∈ document.walk, found ∉ document.forest.roots →
    ∃! parent, parent ∈ document.walk ∧ found ∈ parent.children
  parent : ∀ found ∈ document.walk, ∀ parent, document.forest.parent? found = some parent ↔
    parent ∈ document.walk ∧ found ∈ parent.children
  climbs : ∀ position, ∀ last ∈ (document.nodesAt position).getLast?,
    document.forest.Climbs last (document.nodesAt position).reverse ∧
      document.forest.ancestors last = (document.nodesAt position).reverse

/-- Whatever text is read, valid or not, each node has one parent unless it is at the top, and
climbing from the last node at a position leads back over the path to it. -/
theorem Document.parentsInvert (source : String) (range : Span) (text : List Char) :
    (ofText source range text).ParentsInvert := by
  let document := ofText source range text
  have hexpressions : (document.walk.filterMap Located.expr?).Perm document.expressions := by
    rw [show document.expressions = _ from expressions_eq source range text]
    exact Part.exprs_walk_perm [] 0 document.forest.parts
  exact {
    visited := fun _ => Forest.mem_walk_iff
    once := document.forest.nodup_walk
    expressions := hexpressions
    rootsInOrder := document.forest.roots_sublist_walk
    inOrder := fun _ hf => Forest.sublist_walk hf
    top := fun _ hf => Forest.parent?_eq_none_iff hf
    below := fun found hf hr => by
      obtain ⟨parent, hp, hc⟩ := (Forest.mem_roots_or_exists_parent hf).resolve_left hr
      exact ⟨parent, ⟨hp, hc⟩, fun other ho => Forest.parent_unique ho.1 hp ho.2 hc⟩
    parent := fun _ hf _ => Forest.parent?_eq_some_iff hf
    climbs := fun position last hlast => by
      obtain ⟨path, hpath⟩ := List.getLast?_eq_some_iff.1 hlast
      have hmem : ∀ found ∈ document.nodesAt position, found ∈ document.walk := fun found hm =>
        document.forest.mem_walk_of_mem_nodesAt hm
      have hclimbs : document.forest.Climbs last (document.nodesAt position).reverse := by
        have hdown := document.forest.isPath_nodesAt position
        rw [show document.forest.nodesAt position = path ++ [last] from hpath] at hdown
        rw [hpath] at hmem ⊢
        rw [List.reverse_append]
        exact hdown.climbs_reverse hmem
      have hlastMem := hmem last (List.mem_of_getLast? hlast)
      exact ⟨hclimbs, (Forest.climbs_ancestorsIn hlastMem (Nat.le_refl _)).unique hclimbs⟩ }

end LenientR
