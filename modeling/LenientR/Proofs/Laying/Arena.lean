import LenientR.Proofs.Laying.Reading

/-!
# The list of all expressions

The expressions of a document are listed children first. Whatever was discarded while reading,
exactly those of the tree are listed (`Laid.completed_eq`), so the place of an expression in the
list stands for it: nodes refer to places before their own, and every place is referred to once
(`Document.ArenaIntact`).
-/

namespace LenientR

mutual
/-- The places by which a node is referred to from above, if the expressions at and below it are
listed from `next` on: its own place or, as items are not listed, those its value is referred to
by. -/
def Outline.references (next : Nat) : Outline → List Nat
  | .node (.expr _) _ parts => [next + (Part.exprsPostorder parts).length]
  | .node (.argument _) _ parts => Part.references next parts
  | .node (.parameter _) _ parts => Part.references next parts
def Part.references (next : Nat) : List Part → List Nat
  | [] => []
  | .token _ :: rest => Part.references next rest
  | .child outline :: rest =>
    outline.references next ++ Part.references (next + outline.exprsPostorder.length) rest
end

mutual
def Outline.ownExprs : Outline → List Expr
  | .node (.expr e) _ _ => [e]
  | .node (.argument _) _ parts => Part.ownExprs parts
  | .node (.parameter _) _ parts => Part.ownExprs parts
def Part.ownExprs : List Part → List Expr
  | [] => []
  | .token _ :: rest => Part.ownExprs rest
  | .child outline :: rest => outline.ownExprs ++ Part.ownExprs rest
end

structure Entry where
  expr : Expr
  references : List Nat

mutual
def Outline.entries (next : Nat) : Outline → List Entry
  | .node (.expr e) _ parts => Part.entries next parts ++ [⟨e, Part.references next parts⟩]
  | .node (.argument _) _ parts => Part.entries next parts
  | .node (.parameter _) _ parts => Part.entries next parts
def Part.entries (next : Nat) : List Part → List Entry
  | [] => []
  | .token _ :: rest => Part.entries next rest
  | .child outline :: rest =>
    outline.entries next ++ Part.entries (next + outline.exprsPostorder.length) rest
end

namespace Document

def arena (document : Document) : List Entry := Part.entries 0 document.forest.parts

def rootReferences (document : Document) : List Nat := Part.references 0 document.forest.parts

end Document

-- ---------------------------------------------------------------------------
-- Places
-- ---------------------------------------------------------------------------

theorem Part.exprsPostorder_append (parts others : List Part) :
    Part.exprsPostorder (parts ++ others) =
      Part.exprsPostorder parts ++ Part.exprsPostorder others := by
  induction parts with
  | nil => rfl
  | cons part rest ih => cases part <;> simp [Part.exprsPostorder, ih]

theorem Part.exprsPostorder_tokens (tokens : List Token) :
    Part.exprsPostorder (tokens.map .token) = [] := by
  induction tokens with
  | nil => rfl
  | cons token rest ih => exact ih

mutual
theorem Outline.expr_entries (next : Nat) : (outline : Outline) →
    (outline.entries next).map Entry.expr = outline.exprsPostorder
  | .node (.expr e) _ parts => by
    simp [Outline.entries, Outline.exprsPostorder, Part.expr_entries next parts]
  | .node (.argument _) _ parts | .node (.parameter _) _ parts => Part.expr_entries next parts
theorem Part.expr_entries (next : Nat) : (parts : List Part) →
    (Part.entries next parts).map Entry.expr = Part.exprsPostorder parts
  | [] => rfl
  | .token _ :: rest => Part.expr_entries next rest
  | .child outline :: rest => by
    simp [Part.entries, Part.exprsPostorder, outline.expr_entries next,
      Part.expr_entries (next + outline.exprsPostorder.length) rest]
end

theorem Part.length_entries (next : Nat) (parts : List Part) :
    (Part.entries next parts).length = (Part.exprsPostorder parts).length := by
  rw [← Part.expr_entries next parts, List.length_map]

theorem Outline.length_entries (next : Nat) (outline : Outline) :
    (outline.entries next).length = outline.exprsPostorder.length := by
  rw [← outline.expr_entries next, List.length_map]

mutual
/-- The places referred to from above, and those referred to from within, are all the places from
`next` on, each one once. -/
theorem Outline.references_perm (next : Nat) : (outline : Outline) →
    (outline.references next ++ (outline.entries next).flatMap Entry.references).Perm
      (List.range' next outline.exprsPostorder.length)
  | .node (.expr e) _ parts => by
    have h := List.perm_append_comm.trans (Part.references_perm next parts)
    rw [Outline.exprsPostorder, List.length_append, List.length_singleton, List.range'_1_concat,
      Outline.entries, List.flatMap_append, List.flatMap_singleton]
    exact List.perm_append_comm.trans (h.append_right _)
  | .node (.argument _) _ parts | .node (.parameter _) _ parts => Part.references_perm next parts
theorem Part.references_perm (next : Nat) : (parts : List Part) →
    (Part.references next parts ++ (Part.entries next parts).flatMap Entry.references).Perm
      (List.range' next (Part.exprsPostorder parts).length)
  | [] => .nil
  | .token _ :: rest => Part.references_perm next rest
  | .child outline :: rest => by
    have h := (outline.references_perm next).append
      (Part.references_perm (next + outline.exprsPostorder.length) rest)
    rw [List.range'_append_1] at h
    rw [Part.exprsPostorder, List.length_append, Part.references, Part.entries,
      List.flatMap_append]
    refine .trans ?_ h
    simp only [List.append_assoc]
    exact (List.perm_append_comm_assoc _ _ _).append_left _
end

theorem Part.lt_of_mem_references {next place : Nat} {parts : List Part}
    (h : place ∈ Part.references next parts) :
    place < next + (Part.exprsPostorder parts).length := by
  have hm := (Part.references_perm next parts).subset (List.mem_append_left _ h)
  exact (List.mem_range'_1.1 hm).2

mutual
theorem Outline.references_lt (next : Nat) : (outline : Outline) →
    ∀ place entry, (outline.entries next)[place]? = some entry →
      ∀ reference ∈ entry.references, reference < next + place
  | .node (.expr e) _ parts => by
    intro place entry he reference hm
    rw [Outline.entries, List.getElem?_append] at he
    split at he
    · exact Part.references_lt next parts place entry he reference hm
    · rename_i hp
      rw [Part.length_entries] at hp he
      rw [List.getElem?_singleton] at he
      split at he <;> cases he
      have := Part.lt_of_mem_references hm
      omega
  | .node (.argument _) _ parts | .node (.parameter _) _ parts => Part.references_lt next parts
theorem Part.references_lt (next : Nat) : (parts : List Part) →
    ∀ place entry, (Part.entries next parts)[place]? = some entry →
      ∀ reference ∈ entry.references, reference < next + place
  | [] => by simp [Part.entries]
  | .token _ :: rest => Part.references_lt next rest
  | .child outline :: rest => by
    intro place entry he reference hm
    rw [Part.entries, List.getElem?_append] at he
    split at he
    · exact outline.references_lt next place entry he reference hm
    · rename_i hp
      rw [Outline.length_entries] at hp he
      have := Part.references_lt (next + outline.exprsPostorder.length) rest _ entry he
        reference hm
      omega
end

-- ---------------------------------------------------------------------------
-- What the places hold
-- ---------------------------------------------------------------------------

mutual
theorem Outline.map_references (before after : List Expr) : (outline : Outline) →
    (outline.references before.length).map ((before ++ outline.exprsPostorder ++ after)[·]?) =
      outline.ownExprs.map some
  | .node (.expr e) _ parts => by
    simp [Outline.references, Outline.exprsPostorder, Outline.ownExprs]
  | .node (.argument _) _ parts | .node (.parameter _) _ parts =>
    Part.map_references before after parts
theorem Part.map_references (before after : List Expr) : (parts : List Part) →
    (Part.references before.length parts).map
        ((before ++ Part.exprsPostorder parts ++ after)[·]?) = (Part.ownExprs parts).map some
  | [] => rfl
  | .token _ :: rest => Part.map_references before after rest
  | .child outline :: rest => by
    have h := outline.map_references before (Part.exprsPostorder rest ++ after)
    have hr := Part.map_references (before ++ outline.exprsPostorder) after rest
    rw [List.length_append] at hr
    simp only [List.append_assoc] at h hr
    simp only [Part.references, Part.exprsPostorder, Part.ownExprs, List.map_append,
      List.append_assoc, h, hr]
end

theorem Part.entries_append (next : Nat) (parts others : List Part) :
    Part.entries next (parts ++ others) =
      Part.entries next parts ++
        Part.entries (next + (Part.exprsPostorder parts).length) others := by
  induction parts generalizing next with
  | nil => rfl
  | cons part rest ih =>
    cases part with
    | token token => exact ih next
    | child outline => simp [Part.entries, Part.exprsPostorder, ih, Nat.add_assoc]

theorem Part.entries_tokens (next : Nat) (tokens : List Token) :
    Part.entries next (tokens.map .token) = [] := by
  induction tokens with
  | nil => rfl
  | cons token rest ih => exact ih

theorem Part.entries_expr (next : Nat) (e : Expr) (parts : List Part) :
    Part.entries next [.child (.of (.expr e) parts)] =
        Part.entries next parts ++ [⟨e, Part.references next parts⟩] ∧
      Part.exprsPostorder [.child (.of (.expr e) parts)] = Part.exprsPostorder parts ++ [e] :=
  ⟨List.append_nil _, List.append_nil _⟩

theorem Part.entries_item (next : Nat) (role : ListRole) (item : Item) (parts : List Part) :
    Part.entries next [.child (.of (.ofItem role item) parts)] = Part.entries next parts ∧
      Part.exprsPostorder [.child (.of (.ofItem role item) parts)] =
        Part.exprsPostorder parts := by
  cases role <;> exact ⟨List.append_nil _, List.append_nil _⟩

namespace Reading

variable {holds : Expr → Prop} {s t : State} {parts : List Part}

theorem Laid.completed_eq (h : Laid holds s parts t) :
    t.completed = (Part.exprsPostorder parts).reverse ++ s.completed := by
  induction h with
  | passed _ _ hc => rw [hc, Part.exprsPostorder_tokens]; rfl
  | stay => rfl
  | append _ _ h k => simp [Part.exprsPostorder_append, h, k]
  | expr _ ho _ h => simp [ho, h, (Part.entries_expr 0 _ _).2]
  | item ho _ h => rw [h, ho, (Part.entries_item 0 _ _ _).2]

/-- Putting the list back that was kept at a checkpoint is cutting it to the length it had there. -/
theorem Laid.completed_discardTo (h : Laid holds s parts t) :
    ((discardTo s.completed).run t).2.completed.reverse =
      t.completed.reverse.take s.completed.length := by
  rw [h.completed_eq, List.reverse_append, List.reverse_reverse, ← List.length_reverse,
    List.take_left]
  rfl

theorem Laid.map_references (h : Laid holds s parts t) (before after : List Expr) :
    ∀ entry ∈ Part.entries before.length parts,
      entry.references.map ((before ++ Part.exprsPostorder parts ++ after)[·]?) =
        (Part.ownExprs entry.expr.outline.parts).map some := by
  induction h generalizing before after with
  | passed => simp [Part.entries_tokens]
  | stay => simp [Part.entries]
  | append _ _ h k =>
    rw [Part.entries_append, Part.exprsPostorder_append]
    refine List.forall_mem_append.2 ⟨?_, ?_⟩
    · simpa using h before (Part.exprsPostorder _ ++ after)
    · simpa using k (before ++ Part.exprsPostorder _) after
  | @expr s t parts e _ ho _ h =>
    rw [ho, (Part.entries_expr _ e parts).1, (Part.entries_expr 0 e parts).2, List.append_assoc,
      List.append_assoc, ← List.append_assoc]
    refine List.forall_mem_append.2 ⟨h before ([e] ++ after), List.forall_mem_singleton.2 ?_⟩
    rw [ho]
    exact Part.map_references before ([e] ++ after) parts
  | item ho _ h =>
    rw [ho, (Part.entries_item _ _ _ _).1, (Part.entries_item 0 _ _ _).2]
    exact h before after

theorem completed_discardTo_item {tokens : List Token} (bound : Nat) (role : ListRole)
    (terminator : Kind) {s : State} (ha : s.Amid tokens bound) :
    let read := (readBareItem (readExprWithin bound) terminator role).run s
    ((discardTo s.completed).run read.2).2.completed.reverse =
      read.2.completed.reverse.take s.completed.length :=
  (lays_readBareItem (builds_readExprWithin (fun _ => listsFit_true) bound) terminator role s s ha
    (.refl s)).completed_discardTo

theorem completed_discardTo_list {tokens : List Token} (bound : Nat) (role : ListRole)
    (terminator : Kind) {s : State} (ha : s.Amid tokens bound) :
    let read := (withNewlines true
      (readItems (readExprWithin bound) role terminator bound .opening)).run s
    ((discardTo s.completed).run read.2).2.completed.reverse =
      read.2.completed.reverse.take s.completed.length :=
  ((lays_readItems (builds_readExprWithin (fun _ => listsFit_true) bound) role terminator bound
    .opening).withNewlines true s s ha (.refl s)).completed_discardTo

end Reading

-- ---------------------------------------------------------------------------
-- Documents
-- ---------------------------------------------------------------------------

/-- What the list of all expressions is to the tree. -/
structure Document.ArenaIntact (document : Document) : Prop where
  /-- The expressions of the tree are listed, children first, and no others. -/
  listing : document.expressions = Part.exprsPostorder document.forest.parts
  stored : document.arena.map Entry.expr = document.expressions
  below : ∀ place (entry : Entry), document.arena[place]? = some entry →
    ∀ reference ∈ entry.references, reference < place
  entries : ∀ entry ∈ document.arena,
    entry.references.map (document.expressions[·]?) =
      (Part.ownExprs entry.expr.outline.parts).map some
  roots : document.rootReferences.map (document.expressions[·]?) = document.roots.map some
  /-- Every place is referred to once, by an expression, an item or the top level. -/
  once : (document.rootReferences ++ document.arena.flatMap Entry.references).Perm
    (List.range document.expressions.length)
  /-- Already while reading, an expression takes the places right after those taken before it,
  whatever was discarded in between. -/
  reading : ∀ bound level (s : Reading.State), s.Amid document.tokens bound →
    let found := (Reading.readExprWithin bound level).run s
    found.2.completed = found.1.outline.exprsPostorder.reverse ++ s.completed

theorem Part.ownExprs_outlines (es : List Expr) : Part.ownExprs (Expr.outlines es) = es := by
  induction es with
  | nil => rfl
  | cons e rest ih =>
    have he : e.outline.ownExprs = [e] := by cases e <;> rfl
    rw [Expr.outlines, Part.ownExprs, he, ih]
    rfl

open Reading in
theorem Document.expressions_eq (source : String) (range : Span) (text : List Char) :
    (ofText source range text).expressions =
      Part.exprsPostorder (ofText source range text).forest.parts := by
  have hlaid := laid_parts source range text fun _ => listsFit_true
  have h := congrArg List.reverse hlaid.completed_eq
  rw [List.reverse_append, List.reverse_reverse] at h
  exact h

open Reading in
/-- Whatever the text, valid or not, nothing discarded is left in the list of expressions, and
nothing that is in the tree is missing from it. -/
theorem Document.arenaIntact (source : String) (range : Span) (text : List Char) :
    (ofText source range text).ArenaIntact := by
  have hfits (bound : Nat) : ListsFit (fun _ _ _ => True) (ofText source range text).tokens bound
      (readExprWithin bound) bound := fun _ _ _ _ _ _ _ => trivial
  have hlaid := laid_parts source range text hfits
  have hlisting := expressions_eq source range text
  exact {
    listing := hlisting
    stored := (Part.expr_entries 0 _).trans hlisting.symm
    below := fun place entry he reference hm => by
      simpa using Part.references_lt 0 _ place entry he reference hm
    entries := by
      simpa [hlisting, arena] using hlaid.map_references [] []
    roots := by
      have h := Part.map_references [] [] (ofText source range text).forest.parts
      rw [parts_eq, Part.ownExprs_outlines] at h
      simpa [hlisting, rootReferences, parts_eq] using h
    once := by
      rw [hlisting, List.range_eq_range']
      exact Part.references_perm 0 _
    reading := fun bound level s ha => by
      have h := (builds_readExprWithin hfits bound level s s ha (.refl s)).completed_eq
      simpa [Part.exprsPostorder] using h }

/-- The first argument is given up, and the name in it with it. -/
example : (Document.parse "f(a b, c)").arena.map Entry.references = [[], [], [0, 1]] := by
  decide +kernel

end LenientR
