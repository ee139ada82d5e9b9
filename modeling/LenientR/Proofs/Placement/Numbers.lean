import LenientR.Proofs.Laying.Arena
import LenientR.Proofs.Placement.Shift
import LenientR.Proofs.Reading.Ending

/-!
# Texts with the same tokens

Blanks and comments between the tokens of a text make no difference, whatever is wrong with it. Where
two texts have the same tokens one by one, they have the same tree, stored in the same way, and the
same problems, if every token is known by its number (`Document.readsLike_of_tokens`). Only the order
of the problems may differ, as they are sorted by where they are.
-/

namespace LenientR

def Token.bare (token : Token) : Kind × List Char := (token.kind, token.chars)

def Entry.move (place : Token → Nat) (entry : Entry) : Entry :=
  ⟨entry.expr.move place, entry.references⟩

-- ---------------------------------------------------------------------------
-- The list of expressions of a moved tree
-- ---------------------------------------------------------------------------

section
variable {place : Token → Nat}

mutual
theorem Outline.length_exprsPostorder_move : (outline : Outline) →
    (outline.move place).exprsPostorder.length = outline.exprsPostorder.length
  | .node (.expr _) _ parts => by
    simp [Outline.move, Outline.of, Node.move, Outline.exprsPostorder,
      Part.length_exprsPostorder_moveAll parts]
  | .node (.argument _) _ parts | .node (.parameter _) _ parts =>
    Part.length_exprsPostorder_moveAll parts
theorem Part.length_exprsPostorder_moveAll : (parts : List Part) →
    (Part.exprsPostorder (Part.moveAll place parts)).length = (Part.exprsPostorder parts).length
  | [] => rfl
  | .token _ :: rest => Part.length_exprsPostorder_moveAll rest
  | .child outline :: rest => by
    simp [Part.moveAll, Part.exprsPostorder, outline.length_exprsPostorder_move,
      Part.length_exprsPostorder_moveAll rest]
end

mutual
theorem Outline.references_move (next : Nat) : (outline : Outline) →
    (outline.move place).references next = outline.references next
  | .node (.expr _) _ parts => by
    simp [Outline.move, Outline.of, Node.move, Outline.references,
      Part.length_exprsPostorder_moveAll parts]
  | .node (.argument _) _ parts | .node (.parameter _) _ parts => Part.references_moveAll next parts
theorem Part.references_moveAll (next : Nat) : (parts : List Part) →
    Part.references next (Part.moveAll place parts) = Part.references next parts
  | [] => rfl
  | .token _ :: rest => Part.references_moveAll next rest
  | .child outline :: rest => by
    simp [Part.moveAll, Part.references, outline.references_move next,
      outline.length_exprsPostorder_move, Part.references_moveAll _ rest]
end

mutual
theorem Outline.entries_move (next : Nat) : (outline : Outline) →
    (outline.move place).entries next = (outline.entries next).map (Entry.move place)
  | .node (.expr e) _ parts => by
    simp [Outline.move, Outline.of, Node.move, Outline.entries, Part.entries_moveAll next parts,
      Part.references_moveAll, Entry.move]
  | .node (.argument _) _ parts | .node (.parameter _) _ parts => Part.entries_moveAll next parts
theorem Part.entries_moveAll (next : Nat) : (parts : List Part) →
    Part.entries next (Part.moveAll place parts) =
      (Part.entries next parts).map (Entry.move place)
  | [] => rfl
  | .token _ :: rest => Part.entries_moveAll next rest
  | .child outline :: rest => by
    simp [Part.moveAll, Part.entries, outline.entries_move next,
      outline.length_exprsPostorder_move, Part.entries_moveAll _ rest]
end

theorem Document.moveAll_parts (document : Document) :
    Part.moveAll place document.forest.parts =
      Expr.outlines (document.roots.map (Expr.move place)) := by
  rw [document.parts_eq, ← Expr.moveAll_eq_map, Expr.outlines_move]

theorem Document.arena_move (document : Document) :
    document.arena.map (Entry.move place) =
      Part.entries 0 (Expr.outlines (document.roots.map (Expr.move place))) := by
  rw [arena, ← Part.entries_moveAll, moveAll_parts]

theorem Document.rootReferences_move (document : Document) :
    document.rootReferences =
      Part.references 0 (Expr.outlines (document.roots.map (Expr.move place))) := by
  rw [rootReferences, ← moveAll_parts, Part.references_moveAll]

end

-- ---------------------------------------------------------------------------
-- Documents
-- ---------------------------------------------------------------------------

namespace Document

def number (document : Document) (token : Token) : Nat := document.tokens.idxOf token

/-- Two documents have the same tree, the same stored expressions and, in some order, the same
problems, all of them in terms of the numbers of tokens. -/
structure ReadsLike (a b : Document) : Prop where
  roots : a.roots.map (Expr.move a.number) = b.roots.map (Expr.move b.number)
  expressions : a.expressions.map (Expr.move a.number) = b.expressions.map (Expr.move b.number)
  arena : a.arena.map (Entry.move a.number) = b.arena.map (Entry.move b.number)
  rootReferences : a.rootReferences = b.rootReferences
  problems : (a.problems.map (Problem.move a.number)).Perm (b.problems.map (Problem.move b.number))

theorem move_idxOf {tokens : List Token} (h : tokens.Pairwise (·.start < ·.start)) :
    tokens.map (Token.move tokens.idxOf) =
      (tokens.map Token.bare).mapIdx fun number bare => ⟨bare.1, number, bare.2⟩ := by
  have hd : tokens.Nodup := by
    apply h.imp
    rintro a _ hlt rfl
    exact Nat.lt_irrefl _ hlt
  apply List.ext_getElem
  · simp
  · intro number hl _
    rw [List.length_map] at hl
    have hn : tokens.idxOf tokens[number] = number := hd.idxOf_getElem number hl
    simp [Token.move, Token.bare, hn]

theorem readAll_numbered (source : String) (range : Span) (text : List Char) :
    let document := ofText source range text
    let found := Reading.readAll (document.tokens.map (Token.move document.number))
    document.roots.map (Expr.move document.number) = found.1 ∧
      document.expressions.map (Expr.move document.number) = found.2.completed.reverse ∧
      (document.problems.map (Problem.move document.number)).Perm found.2.problems := by
  intro document found
  let read := Reading.readAll document.tokens
  have hmove : found = (read.1.map (Expr.move document.number), read.2.move document.number []) :=
    Reading.readAll_move (endsOnce_tokens source range text).ended_start
  have hperm : document.problems.Perm read.2.problems :=
    (Problem.sortByStart_perm read.2.problems.reverse).trans (List.reverse_perm _)
  have hcompleted : found.2.completed = read.2.completed.map (Expr.move document.number) := by
    rw [hmove]
    exact List.append_nil _
  refine ⟨?_, ?_, ?_⟩
  · rw [hmove]
    rfl
  · rw [hcompleted, ← List.map_reverse]
    rfl
  · rw [hmove]
    exact hperm.map _

/-- What is read of a text hangs on the kinds and the characters of its tokens alone: blanks and
comments in between make no difference to the tree, to how it is stored or to what is wrong. -/
theorem readsLike_of_tokens (source other : String) (range range' : Span) (text text' : List Char)
    (h : (ofText source range text).tokens.map Token.bare =
      (ofText other range' text').tokens.map Token.bare) :
    (ofText source range text).ReadsLike (ofText other range' text') := by
  have hnumbered : (ofText source range text).tokens.map
        (Token.move (ofText source range text).number) =
      (ofText other range' text').tokens.map (Token.move (ofText other range' text').number) := by
    have ha := move_idxOf (pairwise_tokens source range text)
    have hb := move_idxOf (pairwise_tokens other range' text')
    rw [h] at ha
    exact ha.trans hb.symm
  obtain ⟨hroots, hexprs, hproblems⟩ := readAll_numbered source range text
  obtain ⟨hroots', hexprs', hproblems'⟩ := readAll_numbered other range' text'
  rw [hnumbered] at hroots hexprs hproblems
  have hsame := hroots.trans hroots'.symm
  exact {
    roots := hsame
    expressions := hexprs.trans hexprs'.symm
    arena := by rw [arena_move, hsame, ← arena_move]
    rootReferences := by
      rw [rootReferences_move, hsame, ← rootReferences_move]
    problems := hproblems.trans hproblems'.symm }

/-- In both texts the second argument is given up, and neither the quote nor the bracket is closed. -/
theorem readsLike_respaced :
    (parse "f(a, b c;\n 'd").tokens.map Token.bare =
        (parse "f ( a,b  c ; # x\r\n\t'd").tokens.map Token.bare ∧
      (parse "f(a, b c;\n 'd").ReadsLike (parse "f ( a,b  c ; # x\r\n\t'd") :=
  ⟨by decide +kernel, readsLike_of_tokens _ _ _ _ _ _ (by decide +kernel)⟩

end Document

end LenientR
