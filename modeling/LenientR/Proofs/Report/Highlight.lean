import LenientR.Proofs.Lines.Bytes
import LenientR.Proofs.Scanning.Tiles
import LenientR.Report.Highlight

/-!
# Highlighting keeps the text

Tokens tile a text, and what is between them is blank. So a token written as it stands and a space
for each byte in between give the text back, with spaces for the blanks outside of tokens
(`highlight_keepsText`).
-/

namespace LenientR

open Text (byteSize byteSize_nil byteSize_cons byteSize_append)

def Token.covers (token : Token) (offset : Nat) : Bool :=
  token.start ≤ offset && offset < token.stop

theorem Token.covers_iff {token : Token} {offset : Nat} :
    token.covers offset = true ↔ token.start ≤ offset ∧ offset < token.stop := by
  rw [covers, Bool.and_eq_true, decide_eq_true_eq, decide_eq_true_eq]

theorem Tiled.le_start {position : Nat} {text : List Char} {tokens : List Token}
    (h : Tiled position text tokens) : ∀ token ∈ tokens, position ≤ token.start := by
  induction h with
  | ending _ => exact List.forall_mem_singleton.2 (Nat.le_add_right _ _)
  | @token position blanks rest token tokens _ hs _ _ _ ih =>
    have hfirst : position ≤ token.start := by omega
    have hstop : token.start ≤ token.stop := Nat.le_add_right _ _
    exact List.forall_mem_cons.2 ⟨hfirst, fun other hm =>
      Nat.le_trans (Nat.le_trans hfirst hstop) (ih other hm)⟩

namespace Report

variable {tokens earlier : List Token} {token : Token} {offset position : Nat}
  {chars source : List Char}

-- ---------------------------------------------------------------------------
-- Blanks outside of tokens
-- ---------------------------------------------------------------------------

/-- The character at an offset, but a space for a blank outside of all tokens. -/
def spacedChar (tokens : List Token) (offset : Nat) (c : Char) : Char :=
  if c ∈ [' ', '\t', '\r', '\x0c'] ∧ tokens.any (·.covers offset) = false then ' ' else c

def spacedFrom (tokens : List Token) (offset : Nat) : List Char → List Char
  | [] => []
  | c :: rest => spacedChar tokens offset c :: spacedFrom tokens (offset + c.utf8Size) rest

theorem utf8Size_spacedChar (tokens : List Token) (offset : Nat) (c : Char) :
    (spacedChar tokens offset c).utf8Size = c.utf8Size := by
  unfold spacedChar
  split
  · rename_i h
    rw [utf8Size_of_isBlank (isBlank_iff.2 h.1)]
    rfl
  · rfl

theorem byteSize_spacedFrom (tokens : List Token) (offset : Nat) (chars : List Char) :
    byteSize (spacedFrom tokens offset chars) = byteSize chars := by
  induction chars generalizing offset with
  | nil => rfl
  | cons c rest ih => rw [spacedFrom, byteSize_cons, byteSize_cons, utf8Size_spacedChar, ih]

theorem spacedFrom_append (tokens : List Token) (offset : Nat) (chars more : List Char) :
    spacedFrom tokens offset (chars ++ more) =
      spacedFrom tokens offset chars ++ spacedFrom tokens (offset + byteSize chars) more := by
  induction chars generalizing offset with
  | nil => rfl
  | cons c rest ih =>
    rw [List.cons_append, spacedFrom, spacedFrom, ih, byteSize_cons, List.cons_append,
      Nat.add_assoc]

theorem spacedFrom_of_covered (hm : token ∈ tokens) (hs : token.start ≤ offset)
    (he : offset + byteSize chars ≤ token.stop) : spacedFrom tokens offset chars = chars := by
  induction chars generalizing offset with
  | nil => rfl
  | cons c rest ih =>
    have hc := c.utf8Size_pos
    rw [byteSize_cons] at he
    have hcovered : tokens.any (·.covers offset) = true :=
      List.any_eq_true.2 ⟨token, hm, Token.covers_iff.2 ⟨hs, by omega⟩⟩
    have hkept : spacedChar tokens offset c = c :=
      if_neg fun h => Bool.noConfusion (hcovered.symm.trans h.2)
    rw [spacedFrom, hkept, ih (by omega) (by omega)]

theorem spacedFrom_of_blank (hb : chars.all isBlank = true)
    (h : ∀ token ∈ tokens, token.stop ≤ offset ∨ offset + byteSize chars ≤ token.start) :
    spacedFrom tokens offset chars = List.replicate (byteSize chars) ' ' := by
  induction chars generalizing offset with
  | nil => rfl
  | cons c rest ih =>
    obtain ⟨hc, hrest⟩ := Bool.and_eq_true_iff.1 hb
    have hone := utf8Size_of_isBlank hc
    rw [byteSize_cons, hone] at h
    have huncovered : tokens.any (·.covers offset) = false := by
      refine List.any_eq_false.2 fun token hm hcovers => ?_
      have hspan := Token.covers_iff.1 hcovers
      have := h token hm
      omega
    have hspaced : spacedChar tokens offset c = ' ' := if_pos ⟨isBlank_iff.1 hc, huncovered⟩
    have hothers : ∀ token ∈ tokens,
        token.stop ≤ offset + 1 ∨ offset + 1 + byteSize rest ≤ token.start := by
      intro token hm
      have := h token hm
      omega
    rw [spacedFrom, hspaced, byteSize_cons, hone, ih hrest hothers, Nat.add_comm 1,
      List.replicate_succ]

-- ---------------------------------------------------------------------------
-- Tokens and the gaps between them
-- ---------------------------------------------------------------------------

def segments (last : Nat) : List Token → Styled
  | [] => []
  | token :: rest =>
    spaces (token.start - last) :: ⟨tokenEffects token.kind, token.text⟩ ::
      segments token.stop rest

theorem highlightTokens?_eq_some (last : Nat) (h : ∀ token ∈ tokens,
    Text.slice? source token.start token.stop = some token.chars) :
    highlightTokens? source last tokens = some (segments last tokens) := by
  induction tokens generalizing last with
  | nil => rfl
  | cons token rest ih =>
    obtain ⟨htoken, hrest⟩ := List.forall_mem_cons.1 h
    rw [highlightTokens?, htoken, ih token.stop hrest]
    rfl

/-- Every token is written once, after the gap in front of it. -/
theorem exists_gaps (last : Nat) (tokens : List Token) :
    ∃ widths : List Nat, widths.length = tokens.length ∧
      segments last tokens = (widths.zip tokens).flatMap fun (width, token) =>
        [spaces width, ⟨tokenEffects token.kind, token.text⟩] := by
  induction tokens generalizing last with
  | nil => exact ⟨[], rfl, rfl⟩
  | cons token rest ih =>
    obtain ⟨widths, hlength, hrest⟩ := ih token.stop
    exact ⟨(token.start - last) :: widths, congrArg (· + 1) hlength,
      congrArg (fun others => _ :: _ :: others) hrest⟩

theorem toList_plain (styled : Styled) :
    styled.plain.toList = styled.flatMap fun segment => segment.text.toList := by
  rw [Styled.plain, String.toList_join, List.flatMap_map]

theorem plain_append (styled more : Styled) :
    (styled ++ more).plain.toList = styled.plain.toList ++ more.plain.toList := by
  simp only [toList_plain, List.flatMap_append]

/-- What is written of the tokens of a text is the text. Of tokens before it nothing is seen. -/
theorem plain_segments (h : Tiled position chars tokens)
    (he : ∀ token ∈ earlier, token.stop ≤ position) :
    (segments position tokens).plain.toList = spacedFrom (earlier ++ tokens) position chars := by
  rw [toList_plain]
  induction h generalizing earlier with
  | @ending position blanks hb =>
    have houter : ∀ token ∈ earlier ++ [endToken (position + byteSize blanks)],
        token.stop ≤ position ∨ position + byteSize blanks ≤ token.start := by
      intro token hm
      rcases List.mem_append.1 hm with hm | hm
      · exact .inl (he token hm)
      · rw [List.mem_singleton.1 hm]
        exact .inr (Nat.le_refl _)
    rw [spacedFrom_of_blank hb houter]
    simp [segments, spaces, plainText, endToken, Token.text]
  | @token position blanks rest token tokens hb hs hc hk hr ih =>
    have hstop : token.stop = token.start + byteSize token.chars := rfl
    have houter : ∀ other ∈ earlier ++ token :: tokens,
        other.stop ≤ position ∨ position + byteSize blanks ≤ other.start := by
      intro other hm
      rcases List.mem_append.1 hm with hm | hm
      · exact .inl (he other hm)
      rcases List.mem_cons.1 hm with rfl | hm
      · exact .inr (Nat.le_of_eq hs.symm)
      · have := hr.le_start other hm
        exact .inr (by omega)
    have hearlier : ∀ other ∈ earlier ++ [token], other.stop ≤ token.stop := by
      intro other hm
      rcases List.mem_append.1 hm with hm | hm
      · have := he other hm
        omega
      · exact Nat.le_of_eq (congrArg Token.stop (List.mem_singleton.1 hm))
    have hmem : token ∈ earlier ++ token :: tokens := by simp
    have hgap : token.start - position = byteSize blanks := by omega
    have hrest := ih hearlier
    rw [List.append_assoc, List.singleton_append] at hrest
    rw [spacedFrom_append, spacedFrom_append, spacedFrom_of_blank hb houter, ← hs,
      spacedFrom_of_covered hmem (Nat.le_refl _) (Nat.le_of_eq hstop.symm), ← hstop, ← hrest]
    simp [segments, spaces, plainText, Token.text, hgap]

-- ---------------------------------------------------------------------------
-- Highlighting
-- ---------------------------------------------------------------------------

theorem highlight?_eq_some (chars : List Char) :
    highlight? chars = some (segments 0 (tokensFrom 0 chars)) := by
  have hsliced := (tiled_tokensFrom 0 chars).slice? byteSize_nil []
  rw [List.nil_append, List.append_nil] at hsliced
  exact highlightTokens?_eq_some 0 hsliced

theorem plain_highlighted (chars : List Char) :
    (segments 0 (tokensFrom 0 chars)).plain.toList = spacedFrom (tokensFrom 0 chars) 0 chars :=
  plain_segments (tiled_tokensFrom 0 chars) (List.forall_mem_nil _)

/-- What a source looks like highlighted, its colours left out in `plain`. -/
structure KeepsText (source : String) (shown : Styled) : Prop where
  /-- Blanks outside of tokens are spaces, and nothing else is changed. -/
  plain : shown.plain.toList = spacedFrom (tokenise source) 0 source.toList
  size : shown.plain.utf8ByteSize = source.utf8ByteSize
  /-- Every token is written once, with nothing but spaces in front of it. -/
  written : ∃ widths : List Nat, widths.length = (tokenise source).length ∧
    shown = (widths.zip (tokenise source)).flatMap fun (width, token) =>
      [spaces width, ⟨tokenEffects token.kind, token.text⟩]
  /-- Every token stands where it stood. -/
  placed : ∀ token ∈ tokenise source,
    Text.slice? shown.plain.toList token.start token.stop = some token.chars

/-- Whatever the source, highlighting it succeeds and keeps its text. -/
theorem highlight_keepsText (source : String) :
    highlight? source.toList = some (highlight source.toList) ∧
      KeepsText source (highlight source.toList) := by
  have hshown := highlight?_eq_some source.toList
  have hplain : (segments 0 (tokenise source)).plain.toList =
      spacedFrom (tokenise source) 0 source.toList := plain_highlighted source.toList
  have heq : highlight source.toList = segments 0 (tokenise source) := by
    rw [highlight, hshown, Option.getD_some]
    rfl
  refine ⟨heq ▸ hshown, ?_⟩
  rw [heq]
  exact {
    plain := hplain
    size := by rw [← Text.byteSize_toList, ← Text.byteSize_toList, hplain, byteSize_spacedFrom]
    written := exists_gaps 0 (tokenise source)
    placed := fun token hm => by
      have hsliced := (tiled_tokensFrom 0 source.toList).slice? byteSize_nil [] token hm
      rw [List.nil_append, List.append_nil] at hsliced
      obtain ⟨before, after, hsource, hbefore, hstop⟩ := Text.slice?_eq_some.1 hsliced
      have hkept : spacedFrom (tokenise source) (byteSize before) token.chars = token.chars :=
        spacedFrom_of_covered hm (Nat.le_of_eq hbefore.symm)
          (Nat.le_of_eq ((congrArg (· + _) hbefore).trans hstop))
      rw [hplain, hsource, spacedFrom_append, spacedFrom_append, Nat.zero_add, hkept]
      exact Text.slice?_eq_some.2 ⟨_, _, rfl, (byteSize_spacedFrom _ _ _).trans hbefore, hstop⟩ }

end Report

end LenientR
