import LenientR.Proofs.Grammar.Expressions
import LenientR.Proofs.Valid.Kinds
import LenientR.Proofs.Valid.Layout

/-!
# Texts without problems

If no problem is found in a text, its tree is whole and holds all tokens of the text
(`Document.Faithful`).
-/

namespace LenientR

open Trace

/-- What the tree of a document without problems is to the tokens. -/
structure Document.Faithful (document : Document) : Prop where
  /-- From left to right, the tokens of the tree are all tokens but newlines, semicolons and the
  end of the file. -/
  yield : Part.tokens document.forest.parts = document.tokens.filter (!·.kind.isLayout)
  /-- No two tokens are the same, so none is in the tree twice. -/
  ordered : document.tokens.Pairwise (·.start < ·.start)
  /-- In between only newlines stand and, between the statements of a block or of the whole text,
  semicolons. What is left after all is the end of the file. -/
  layout : ∃ last, last.kind = .endOfFile ∧
    (Part.laid Kind.separates document.forest.parts * gap Kind.separates) document.tokens [last]
  /-- No node stands for something that cannot be read, and none lacks a token. -/
  nodes : ∀ found ∈ document.walk, found.node.IsWhole
  /-- Every token in the tree is of the kind its place in the construct asks for. -/
  kinds : ∀ found ∈ document.walk, found.node.HasKinds
  tokens : ∀ token ∈ document.tokens, token.kind.isMalformed = false

theorem Document.isValid_iff {source : String} {range : Span} {text : List Char} :
    (ofText source range text).isValid = true ↔
      (Reading.readAll (ofText source range text).tokens).2.problems = [] := by
  have hp := Problem.sortByStart_perm
    (Reading.readAll (ofText source range text).tokens).2.problems.reverse
  rw [isValid, List.isEmpty_iff]
  constructor
  · intro h
    exact List.reverse_eq_nil_iff.1 (List.perm_nil.1 (hp.symm.trans (.of_eq h)))
  · intro h
    rw [h] at hp
    exact (congrArg (fun problems => Problem.sortByStart problems.reverse) h).trans
      (List.perm_nil.1 hp)

theorem Document.grown_of_isValid {source : String} {range : Span} {text : List Char}
    (h : (ofText source range text).isValid = true) :
    ∃ last, last.kind = .endOfFile ∧
      Expr.GrownAll .top (ofText source range text).roots (ofText source range text).tokens
        [last] := by
  have hp := isValid_iff.1 h
  have hends := endsOnce_tokens source range text
  obtain ⟨body, last, he, hk, hn⟩ := id hends
  refine ⟨last, hk, (Reading.readAll_iff hends _ _).1 ⟨hp, rfl, ?_⟩⟩
  rw [he]
  exact Reading.rest_readAll hk hn

theorem Document.parts_eq (document : Document) :
    document.forest.parts = Expr.outlines document.roots := by
  simp only [forest, Forest.parts, List.map_map]
  induction document.roots with
  | nil => rfl
  | cons e rest ih => simpa [Expr.outlines] using ih

theorem Document.isGrown_of_isValid {source : String} {range : Span} {text : List Char}
    (h : (ofText source range text).isValid = true) :
    ∀ found ∈ (ofText source range text).walk, found.node.IsGrown := by
  obtain ⟨_, _, hg⟩ := grown_of_isValid h
  have hall := Expr.every_of_occursAll _ ⟨_, _, hg⟩
  rw [← parts_eq] at hall
  exact Part.every_walk [] 0 _ hall

theorem Kind.isContent_eq_of_yields {kind : Kind} (h : kind.isContent = true ∨ kind.separates = true) :
    kind.isContent = !kind.isLayout := by
  cases kind <;> first | rfl | exact absurd h (by decide)

theorem Kind.isMalformed_eq_of_yields {kind : Kind}
    (h : kind.isContent = true ∨ kind.separates = true) : kind.isMalformed = false := by
  cases kind <;> first | rfl | exact absurd h (by decide)

theorem Document.yields_of_isValid {source : String} {range : Span} {text : List Char}
    (h : (ofText source range text).isValid = true) :
    ∃ own last, (ofText source range text).tokens = own ++ [last] ∧ last.kind = .endOfFile ∧
      Part.tokens (ofText source range text).forest.parts = own.filter (·.kind.isContent) ∧
      ∀ token ∈ own, token.kind.isContent = true ∨ token.kind.separates = true := by
  obtain ⟨last, hk, hg⟩ := grown_of_isValid h
  have hlaid := Expr.laid_of_grownAll .top _ _ _ hg
  rw [← parts_eq] at hlaid
  obtain ⟨own, ht, hf, hc⟩ := ((Part.yields_laid (fun _ => id)
    (ofText source range text).forest.parts).mul (yields_gap (fun _ => id))) _ _ hlaid
  rw [List.append_nil] at hf
  exact ⟨own, last, ht, hk, hf.symm, hc⟩

/-- From left to right the tree holds all tokens but newlines, semicolons and the end of the file. -/
theorem Document.tokens_parts_of_isValid {source : String} {range : Span} {text : List Char}
    (h : (ofText source range text).isValid = true) :
    Part.tokens (ofText source range text).forest.parts =
      (ofText source range text).tokens.filter (!·.kind.isLayout) := by
  obtain ⟨own, last, ht, hk, hf, hc⟩ := yields_of_isValid h
  have hlast : [last].filter (!·.kind.isLayout) = [] := by simp [hk, Kind.isLayout]
  rw [hf, ht, List.filter_append, hlast, List.append_nil]
  exact List.filter_congr fun token hm => Kind.isContent_eq_of_yields (hc token hm)

theorem Document.isMalformed_of_isValid {source : String} {range : Span} {text : List Char}
    (h : (ofText source range text).isValid = true) :
    ∀ token ∈ (ofText source range text).tokens, token.kind.isMalformed = false := by
  obtain ⟨own, last, ht, hk, _, hc⟩ := yields_of_isValid h
  rw [ht]
  exact List.forall_mem_append.2 ⟨fun token hm => Kind.isMalformed_eq_of_yields (hc token hm),
    List.forall_mem_singleton.2 (by rw [hk]; rfl)⟩

/-- A text without problems is all in its tree, and the tree is whole. -/
theorem Document.faithful_of_isValid {source : String} {range : Span} {text : List Char}
    (h : (ofText source range text).isValid = true) : (ofText source range text).Faithful := by
  obtain ⟨last, hk, hg⟩ := grown_of_isValid h
  have hlaid := Expr.laid_of_grownAll .top _ _ _ hg
  rw [← parts_eq] at hlaid
  exact {
    yield := tokens_parts_of_isValid h
    ordered := pairwise_tokens source range text
    layout := ⟨last, hk, hlaid⟩
    nodes := fun found hm => (isGrown_of_isValid h found hm).isWhole
    kinds := fun found hm => (isGrown_of_isValid h found hm).hasKinds
    tokens := isMalformed_of_isValid h }

theorem Document.faithful_index_conditional :
    (parse "f(x[[1]], y = 2); if (a) b else -c ^ 2").isValid = true ∧
      (parse "f(x[[1]], y = 2); if (a) b else -c ^ 2").Faithful :=
  ⟨by decide +kernel, faithful_of_isValid (by decide +kernel)⟩

end LenientR
