import LenientR.Document

/-!
# Scanned tokens

What scanning a text can give: the end of the file is a token of its own at the end of every text,
and no lexeme is one. Each token starts after the one before it.
-/

namespace LenientR

theorem Symbol.kind_of_match? {chars spelling : List Char} {kind : Kind}
    (h : Symbol.match? chars = some (spelling, kind)) : kind ∈ Symbol.table.map Prod.snd :=
  List.mem_map.2 ⟨_, (Symbol.match?_eq_some h).1, rfl⟩

theorem Word.kindOf_mem (word : List Char) :
    Word.kindOf word = .identifier ∨ Word.kindOf word ∈ Word.reserved.map Prod.snd := by
  unfold Word.kindOf
  cases h : Word.reserved.lookup (String.ofList word) with
  | none => exact .inl rfl
  | some kind =>
    obtain ⟨before, after, he, _⟩ := List.lookup_eq_some_iff.1 h
    exact .inr (List.mem_map.2 ⟨(String.ofList word, kind), by simp [he], rfl⟩)

namespace Lexeme

theorem quotation_kind (kind : Kind) (quote : Char) (rest : List Char) :
    (quotation kind quote rest).kind = kind ∨
      (quotation kind quote rest).kind = .unterminatedString := by
  unfold quotation
  split
  · exact .inl rfl
  · exact .inr rfl

theorem rawQuotation_kind (opening : Quoted.RawOpening) (rest : List Char) :
    (rawQuotation opening rest).kind = .string ∨
      (rawQuotation opening rest).kind = .unterminatedString := by
  unfold rawQuotation
  split
  · exact .inl rfl
  · exact .inr rfl

theorem numeral_kind (chars : List Char) :
    (numeral chars).kind = .number ∨ (numeral chars).kind = .invalidNumber := by
  simp only [numeral]
  split
  · exact .inl rfl
  · exact .inr rfl

theorem special_kind (rest : List Char) :
    (special rest).kind = .special ∨ (special rest).kind = .unknown := by
  simp only [special]
  split
  · exact .inl rfl
  · exact .inr rfl

theorem symbol_kind (chars : List Char) :
    (symbol chars).kind = .unknown ∨ (symbol chars).kind ∈ Symbol.table.map Prod.snd := by
  unfold symbol
  split
  · rename_i h
    exact .inr (Symbol.kind_of_match? h)
  · exact .inl rfl

end Lexeme

/-- The first character of a lexeme of this kind, raw quotations aside; of most kinds it is not
told. No lexeme is the end of the file. -/
def Kind.BeginsWith (c : Char) : Kind → Prop
  | .endOfLine => c = '\n'
  | .comment => c = '#'
  | .unterminatedString => c = '\x22' ∨ c = '\x27' ∨ c = '\x60'
  | .endOfFile => False
  | _ => True

theorem plainLexeme_beginsWith (c : Char) (rest : List Char) :
    (plainLexeme c rest).kind.BeginsWith c := by
  unfold plainLexeme
  split
  · assumption
  split
  · assumption
  split
  · rename_i hq
    rcases Lexeme.quotation_kind .string c rest with h | h <;> rw [h]
    · trivial
    · have hq : c = '\x22' ∨ c = '\x27' := by simpa using hq
      exact hq.imp_right .inl
  split
  · rename_i hq
    rcases Lexeme.quotation_kind .identifier c rest with h | h <;> rw [h]
    · trivial
    · exact .inr (.inr hq)
  split
  · rcases Lexeme.numeral_kind (c :: rest) with h | h <;> rw [h] <;> trivial
  split
  · have hword : ∀ kind ∈ Word.reserved.map Prod.snd, kind.BeginsWith c := by
      simp [Word.reserved, Kind.BeginsWith]
    rcases Word.kindOf_mem ((c :: rest).takeWhile Word.isPart) with h | h
    · rw [show (Lexeme.word (c :: rest)).kind = .identifier from h]
      trivial
    · exact hword _ h
  split
  · rcases Lexeme.special_kind rest with h | h <;> rw [h] <;> trivial
  · have hsymbol : ∀ kind ∈ Symbol.table.map Prod.snd, kind.BeginsWith c := by
      simp [Symbol.table, Symbol.spellings, Kind.BeginsWith]
    rcases Lexeme.symbol_kind (c :: rest) with h | h
    · rw [h]
      trivial
    · exact hsymbol _ h

theorem plainLexeme_kind_ne {c : Char} (hc : c ≠ '\n') (rest : List Char) {kind : Kind}
    (hk : kind = .endOfLine ∨ kind = .endOfFile) : (plainLexeme c rest).kind ≠ kind := by
  intro h
  have hstart := plainLexeme_beginsWith c rest
  rw [h] at hstart
  rcases hk with rfl | rfl
  · exact hc hstart
  · exact hstart

def Kind.spellsValue : Kind → Bool
  | .string | .number => true
  | _ => false

/-- Raw quotations aside, what spells a value out is a plain quotation or a numeral. -/
theorem plainLexeme_of_spellsValue {c : Char} {rest : List Char}
    (h : (plainLexeme c rest).kind.spellsValue = true) :
    ((c = '\x22' ∨ c = '\x27') ∧ plainLexeme c rest = .quotation .string c rest) ∨
      (startsNumeral c rest = true ∧ plainLexeme c rest = .numeral (c :: rest)) := by
  unfold plainLexeme at h ⊢
  split at h
  · cases h
  rename_i hline
  split at h
  · cases h
  rename_i hhash
  rw [if_neg hline, if_neg hhash]
  split at h
  · rename_i hq
    rw [if_pos hq]
    exact .inl ⟨by simpa using hq, rfl⟩
  rename_i hq
  split at h
  · cases Lexeme.quotation_kind .identifier c rest with
    | inl hk => rw [hk] at h; cases h
    | inr hk => rw [hk] at h; cases h
  rename_i hback
  rw [if_neg hq, if_neg hback]
  split at h
  · rename_i hd
    rw [if_pos hd]
    exact .inr ⟨hd, rfl⟩
  split at h
  · have hword : ∀ kind ∈ Word.reserved.map Prod.snd, kind.spellsValue = false := by decide
    cases Word.kindOf_mem ((c :: rest).takeWhile Word.isPart) with
    | inl hk =>
      rw [show (Lexeme.word (c :: rest)).kind = .identifier from hk] at h
      cases h
    | inr hk => exact absurd h (Bool.eq_false_iff.1 (hword _ hk))
  split at h
  · cases Lexeme.special_kind rest with
    | inl hk => rw [hk] at h; cases h
    | inr hk => rw [hk] at h; cases h
  · have hsymbol : ∀ kind ∈ Symbol.table.map Prod.snd, kind.spellsValue = false := by decide
    cases Lexeme.symbol_kind (c :: rest) with
    | inl hk => rw [hk] at h; cases h
    | inr hk => exact absurd h (Bool.eq_false_iff.1 (hsymbol _ hk))

theorem lexeme_of_kind_string {c : Char} {rest : List Char} (h : (lexeme c rest).kind = .string) :
    (∃ opening, rawOpening? c rest = some opening ∧
        lexeme c rest = .rawQuotation opening rest) ∨
      ((c = '\x22' ∨ c = '\x27') ∧ lexeme c rest = .quotation .string c rest) := by
  unfold lexeme at h ⊢
  cases hraw : rawOpening? c rest with
  | some opening => exact .inl ⟨opening, rfl, rfl⟩
  | none =>
    rw [hraw] at h
    dsimp only at h ⊢
    cases plainLexeme_of_spellsValue (congrArg Kind.spellsValue h) with
    | inl hquotation => exact .inr hquotation
    | inr hnumeral =>
      rw [hnumeral.2] at h
      cases Lexeme.numeral_kind (c :: rest) with
      | inl hk => cases hk.symm.trans h
      | inr hk => cases hk.symm.trans h

theorem lexeme_of_kind_number {c : Char} {rest : List Char} (h : (lexeme c rest).kind = .number) :
    startsNumeral c rest = true ∧ lexeme c rest = .numeral (c :: rest) := by
  unfold lexeme at h ⊢
  cases hraw : rawOpening? c rest with
  | some opening =>
    rw [hraw] at h
    cases Lexeme.rawQuotation_kind opening rest with
    | inl hk => cases hk.symm.trans h
    | inr hk => cases hk.symm.trans h
  | none =>
    rw [hraw] at h
    dsimp only at h ⊢
    cases plainLexeme_of_spellsValue (congrArg Kind.spellsValue h) with
    | inl hquotation =>
      rw [hquotation.2] at h
      cases Lexeme.quotation_kind .string c rest with
      | inl hk => cases hk.symm.trans h
      | inr hk => cases hk.symm.trans h
    | inr hnumeral => exact hnumeral

theorem lexeme_newline (rest : List Char) : lexeme '\n' rest = ⟨.endOfLine, 1⟩ := rfl

theorem lexeme_kind_ne_of_ne {c : Char} (hc : c ≠ '\n') (rest : List Char) {kind : Kind}
    (hk : kind = .endOfLine ∨ kind = .endOfFile) : (lexeme c rest).kind ≠ kind := by
  unfold lexeme
  split
  · rename_i opening _
    rcases Lexeme.rawQuotation_kind opening rest with h | h <;> rw [h] <;>
      rcases hk with rfl | rfl <;> nofun
  · exact plainLexeme_kind_ne hc rest hk

theorem eq_newline_of_lexeme_kind {c : Char} {rest : List Char}
    (h : (lexeme c rest).kind = .endOfLine) : c = '\n' :=
  Decidable.byContradiction fun hc => lexeme_kind_ne_of_ne hc rest (.inl rfl) h

theorem eq_hash_of_lexeme_kind {c : Char} {rest : List Char}
    (h : (lexeme c rest).kind = .comment) : c = '#' := by
  unfold lexeme at h
  split at h
  · rename_i opening _
    cases Lexeme.rawQuotation_kind opening rest with
    | inl hk => cases hk.symm.trans h
    | inr hk => cases hk.symm.trans h
  · have hstart := plainLexeme_beginsWith c rest
    rwa [h] at hstart

theorem lexeme_hash (rest : List Char) : lexeme '#' rest = .comment rest := rfl

theorem lexeme_kind_ne (c : Char) (rest : List Char) : (lexeme c rest).kind ≠ .endOfFile := by
  by_cases hc : c = '\n'
  · subst hc
    nofun
  · exact lexeme_kind_ne_of_ne hc rest (.inr rfl)

theorem isBlank_iff {c : Char} : isBlank c = true ↔ c ∈ [' ', '\t', '\r', '\x0c'] := by
  simp only [isBlank, Bool.or_eq_true, decide_eq_true_eq, List.mem_cons, List.not_mem_nil,
    or_false]
  constructor
  · rintro (((h | h) | h) | h) <;> simp [h]
  · rintro (h | h | h | h) <;> simp [h]

theorem utf8Size_of_isBlank {c : Char} (h : isBlank c = true) : c.utf8Size = 1 := by
  simp only [isBlank_iff, List.mem_cons, List.not_mem_nil, or_false] at h
  rcases h with rfl | rfl | rfl | rfl <;> rfl

/-- A text is gone through as it is scanned: blank by blank and lexeme by lexeme. -/
theorem scanning_induction {motive : List Char → Prop} (nil : motive [])
    (blank : ∀ c rest, isBlank c = true → motive rest → motive (c :: rest))
    (token : ∀ c rest, isBlank c = false → motive ((c :: rest).drop (lexeme c rest).size) →
      motive (c :: rest)) : (chars : List Char) → motive chars
  | [] => nil
  | c :: rest => by
    cases hb : isBlank c with
    | true => exact blank c rest hb (scanning_induction nil blank token rest)
    | false => exact token c rest hb (scanning_induction nil blank token _)
termination_by chars => chars.length
decreasing_by
  · exact Nat.lt_succ_of_le (length_drop_lexeme_le c rest)
  · exact Nat.lt_succ_self _

def EndsOnce (tokens : List Token) : Prop :=
  ∃ body last, tokens = body ++ [last] ∧ last.kind = .endOfFile ∧
    ∀ token ∈ body, token.kind ≠ .endOfFile

theorem endsOnce_scan (bound position : Nat) (chars : List Char) :
    EndsOnce (scan bound position chars) := by
  induction bound generalizing position chars with
  | zero => exact ⟨[], endToken position, rfl, rfl, by simp⟩
  | succ bound ih =>
    cases chars with
    | nil => exact ⟨[], endToken position, rfl, rfl, by simp⟩
    | cons c rest =>
      simp only [scan]
      split
      · exact ih _ _
      · obtain ⟨body, last, he, hl, hn⟩ := ih
          (position + Text.byteSize ((c :: rest).take (lexeme c rest).size))
          ((c :: rest).drop (lexeme c rest).size)
        refine ⟨_ :: body, last, congrArg (_ :: ·) he, hl, List.forall_mem_cons.2 ⟨?_, hn⟩⟩
        exact lexeme_kind_ne c rest

theorem EndsOnce.filter {tokens : List Token} (h : EndsOnce tokens) {keeps : Token → Bool}
    (hk : ∀ token : Token, token.kind = .endOfFile → keeps token = true) :
    EndsOnce (tokens.filter keeps) := by
  obtain ⟨body, last, rfl, hl, hn⟩ := h
  refine ⟨body.filter keeps, last, by simp [hk last hl], hl, fun token hm => ?_⟩
  exact hn token (List.mem_filter.1 hm).1

theorem EndsOnce.map {tokens : List Token} (h : EndsOnce tokens) {f : Token → Token}
    (hf : ∀ token, (f token).kind = token.kind) : EndsOnce (tokens.map f) := by
  obtain ⟨body, last, rfl, hl, hn⟩ := h
  refine ⟨body.map f, f last, by simp, (hf last).trans hl, fun token hm => ?_⟩
  obtain ⟨other, ho, rfl⟩ := List.mem_map.1 hm
  exact (hf other).symm ▸ hn other ho

/-- The tokens of every document, comments left out, end in their only end of the file. -/
theorem endsOnce_tokens (source : String) (range : Span) (text : List Char) :
    EndsOnce (Document.ofText source range text).tokens :=
  (endsOnce_scan _ _ _).filter fun token h => by simp [h]

-- ---------------------------------------------------------------------------
-- Positions
-- ---------------------------------------------------------------------------

theorem byteSize_lexeme_pos (c : Char) (rest : List Char) :
    0 < Text.byteSize ((c :: rest).take (lexeme c rest).size) := by
  obtain ⟨size, hs⟩ := Nat.exists_eq_succ_of_ne_zero (Nat.ne_of_gt (lexeme_fits c rest).1)
  rw [hs, List.take_succ_cons, Text.byteSize_cons]
  exact Nat.lt_of_lt_of_le c.utf8Size_pos (Nat.le_add_right _ _)

theorem pairwise_scan (bound position : Nat) (chars : List Char) :
    (∀ token ∈ scan bound position chars, position ≤ token.start) ∧
      (scan bound position chars).Pairwise (·.start < ·.start) := by
  induction bound generalizing position chars with
  | zero => exact ⟨by simp [scan, endToken], List.pairwise_singleton _ _⟩
  | succ bound ih =>
    cases chars with
    | nil => exact ⟨by simp [scan, endToken], List.pairwise_singleton _ _⟩
    | cons c rest =>
      simp only [scan]
      split
      · obtain ⟨hle, hp⟩ := ih (position + c.utf8Size) rest
        exact ⟨fun token hm => Nat.le_trans (Nat.le_add_right _ _) (hle token hm), hp⟩
      · have hpos := byteSize_lexeme_pos c rest
        obtain ⟨hle, hp⟩ := ih
          (position + Text.byteSize ((c :: rest).take (lexeme c rest).size))
          ((c :: rest).drop (lexeme c rest).size)
        refine ⟨List.forall_mem_cons.2 ⟨Nat.le_refl _, fun token hm => ?_⟩,
          List.pairwise_cons.2 ⟨fun token hm => ?_, hp⟩⟩
        · exact Nat.le_trans (Nat.le_add_right _ _) (hle token hm)
        · exact Nat.lt_of_lt_of_le (Nat.lt_add_of_pos_right hpos) (hle token hm)

theorem pairwise_tokens (source : String) (range : Span) (text : List Char) :
    (Document.ofText source range text).tokens.Pairwise (·.start < ·.start) :=
  (pairwise_scan _ _ _).2.filter _

end LenientR
