import LenientR.Proofs.Scanning.Kinds

/-!
# Where tokens are

The tokens of a text stand one after another within it. All but the last one, the end of the file,
take some room.
-/

namespace LenientR

def Token.Before (a b : Token) : Prop := a.start < a.stop ∧ a.stop ≤ b.start

theorem before_scan (bound position : Nat) (chars : List Char) :
    (∀ token ∈ scan bound position chars,
        position ≤ token.start ∧ token.stop ≤ position + Text.byteSize chars) ∧
      (scan bound position chars).Pairwise Token.Before := by
  have hend (position : Nat) (chars : List Char) : position ≤ (endToken position).start ∧
      (endToken position).stop ≤ position + Text.byteSize chars :=
    ⟨Nat.le_refl _, Nat.le_add_right _ _⟩
  induction bound generalizing position chars with
  | zero => exact ⟨List.forall_mem_singleton.2 (hend _ _), List.pairwise_singleton _ _⟩
  | succ bound ih =>
    cases chars with
    | nil => exact ⟨List.forall_mem_singleton.2 (hend _ _), List.pairwise_singleton _ _⟩
    | cons c rest =>
      simp only [scan]
      split
      · obtain ⟨hle, hp⟩ := ih (position + c.utf8Size) rest
        refine ⟨fun token hm => ?_, hp⟩
        have := hle token hm
        rw [Text.byteSize_cons]
        omega
      · have hpos := byteSize_lexeme_pos c rest
        have hsize := congrArg Text.byteSize
          (List.take_append_drop (lexeme c rest).size (c :: rest))
        rw [Text.byteSize_append] at hsize
        obtain ⟨hle, hp⟩ := ih
          (position + Text.byteSize ((c :: rest).take (lexeme c rest).size))
          ((c :: rest).drop (lexeme c rest).size)
        refine ⟨List.forall_mem_cons.2 ⟨⟨Nat.le_refl _, ?_⟩, fun token hm => ?_⟩,
          List.pairwise_cons.2 ⟨fun token hm => ⟨?_, (hle token hm).1⟩, hp⟩⟩
        · rw [← hsize]
          exact Nat.add_le_add_left (Nat.le_add_right _ _) _
        · have := hle token hm
          omega
        · exact Nat.lt_add_of_pos_right hpos

theorem before_tokens (source : String) (range : Span) (text : List Char) :
    (Document.ofText source range text).tokens.Pairwise Token.Before :=
  (before_scan _ _ _).2.filter _

theorem within_tokens (source : String) (range : Span) (text : List Char) :
    ∀ token ∈ (Document.ofText source range text).tokens,
      range.start ≤ token.start ∧ token.stop ≤ range.start + Text.byteSize text :=
  fun token hm => (before_scan _ _ _).1 token (List.mem_filter.1 hm).1

end LenientR
