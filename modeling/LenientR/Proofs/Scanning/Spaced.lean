import LenientR.Proofs.Placement.Basic
import LenientR.Proofs.Scanning.Breaks

/-!
# Tokens with blanks between them

Where a blank follows a token, what comes after the blank does not change how the token is scanned
(`lexeme_break`), but for a percent sign alone, which another one on the line closes. So tokens that
are each spelled as one token (`Token.IsSpelled`) and that end where a blank follows (`Spaceable`)
are scanned one by one from a text in which they stand with single blanks between them
(`tokensFrom_spaced`).
-/

namespace LenientR

-- ---------------------------------------------------------------------------
-- Spelled tokens
-- ---------------------------------------------------------------------------

/-- Scanned alone, the characters of the token are one token of its kind. -/
def Token.IsSpelled (token : Token) : Prop :=
  tokensFrom 0 token.chars =
    [⟨token.kind, 0, token.chars⟩, endToken (Text.byteSize token.chars)]

instance (token : Token) : Decidable token.IsSpelled := inferInstanceAs (Decidable (_ = _))

def spaced (tokens : List Token) : List Char :=
  List.intercalate [' '] (tokens.map Token.chars)

theorem spaced_singleton (token : Token) : spaced [token] = token.chars := by
  simp [spaced, List.intercalate]

theorem spaced_cons {rest : List Token} (h : rest ≠ []) (token : Token) :
    spaced (token :: rest) = token.chars ++ ' ' :: spaced rest := by
  cases rest with
  | nil => exact absurd rfl h
  | cons next rest => simp [spaced, List.intercalate]

theorem Token.IsSpelled.lexeme {token : Token} (h : token.IsSpelled) :
    ∃ c rest, token.chars = c :: rest ∧ isBlank c = false ∧
      lexeme c rest = ⟨token.kind, rest.length + 1⟩ := by
  unfold IsSpelled at h
  cases hc : token.chars with
  | nil =>
    rw [hc, tokensFrom_nil] at h
    exact absurd (congrArg List.length h) (by simp)
  | cons c rest =>
    rw [hc] at h
    cases hb : isBlank c with
    | true =>
      -- blanks are no part of a token, so the token would not start at the front
      rw [tokensFrom_blank hb] at h
      have hle := (pairwise_scan rest.length (0 + c.utf8Size) rest).1 _
        (show _ ∈ tokensFrom (0 + c.utf8Size) rest by rw [h]; exact List.mem_cons_self)
      have := c.utf8Size_pos
      simp only at hle
      omega
    | false =>
      rw [tokensFrom_cons hb] at h
      injection h with h _
      injection h with hk _ ht
      have hsize : (LenientR.lexeme c rest).size = rest.length + 1 := by
        have hl := congrArg List.length ht
        have hfits := (lexeme_fits c rest).2
        simp only [List.length_take, List.length_cons] at hl hfits
        omega
      exact ⟨c, rest, rfl, hb, by rw [← hk, ← hsize]⟩

theorem Token.isSpelled_of_lexeme {token : Token} {c : Char} {rest : List Char}
    (hc : token.chars = c :: rest) (hb : isBlank c = false)
    (hl : LenientR.lexeme c rest = ⟨token.kind, rest.length + 1⟩) : token.IsSpelled := by
  rw [IsSpelled, hc, tokensFrom_cons hb, hl]
  simp [tokensFrom_nil]

theorem tokensFrom_chars {token : Token} (h : token.IsSpelled) (position : Nat) :
    tokensFrom position token.chars =
      [⟨token.kind, position, token.chars⟩, endToken (position + Text.byteSize token.chars)] := by
  obtain ⟨c, chars, hc, hb, hl⟩ := h.lexeme
  rw [hc, tokensFrom_cons hb, hl]
  simp [tokensFrom_nil]

-- ---------------------------------------------------------------------------
-- Percent signs
-- ---------------------------------------------------------------------------

def LacksPercent (chars : List Char) : Prop := '%' ∉ chars.takeWhile (· ≠ '\n')

theorem lacksPercent_cons {c : Char} (hc : c ≠ '\n') {rest : List Char} :
    LacksPercent (c :: rest) ↔ c ≠ '%' ∧ LacksPercent rest := by
  simp [LacksPercent, hc, eq_comm]

theorem lacksPercent_append {front back : List Char} :
    LacksPercent (front ++ back) ↔ LacksPercent front ∧ ('\n' ∉ front → LacksPercent back) := by
  induction front with
  | nil => simp [LacksPercent]
  | cons c front ih =>
    by_cases hc : c = '\n'
    · simp [LacksPercent, hc]
    · rw [List.cons_append, lacksPercent_cons hc, lacksPercent_cons hc, ih, and_assoc]
      simp [Ne.symm hc]

theorem lexeme_percent (rest : List Char) : lexeme '%' rest = .special rest := rfl

/-- A percent sign is left alone where no other is on its line. -/
theorem Lexeme.special_eq_unknown_iff {rest : List Char} :
    (special rest).kind = .unknown ↔ LacksPercent rest := by
  have hclosed : rest[(rest.takeWhile fun c => c ≠ '%' && c ≠ '\n').length]? = some '%' ↔
      '%' ∈ rest.takeWhile (· ≠ '\n') := by
    induction rest with
    | nil => simp
    | cons c rest ih =>
      by_cases hp : c = '%'
      · simp [hp]
      by_cases hl : c = '\n'
      · simp [hl]
      · simpa [hp, hl, Ne.symm hp] using ih
  unfold special LacksPercent
  rw [← hclosed]
  dsimp only
  split <;> simp_all

theorem Lexeme.special_of_lacksPercent {rest : List Char} (h : LacksPercent rest) :
    special rest = ⟨.unknown, 1⟩ := by
  have hk := special_eq_unknown_iff.2 h
  unfold special at hk ⊢
  dsimp only at hk ⊢
  split at hk
  · cases hk
  · rename_i hn
    rw [if_neg hn]

-- ---------------------------------------------------------------------------
-- Blanks between tokens
-- ---------------------------------------------------------------------------

/-- A blank after the token, and this text after the blank, leave it as it is. -/
structure Token.EndsBefore (token : Token) (rest : List Char) : Prop where
  comment : token.kind ≠ .comment
  quotation : token.kind ≠ .unterminatedString
  percent : token.chars = ['%'] → LacksPercent rest

theorem tokensFrom_append_blank {token : Token} {rest : List Char} (h : token.IsSpelled)
    (he : token.EndsBefore rest) (position : Nat) :
    tokensFrom position (token.chars ++ ' ' :: rest) =
      ⟨token.kind, position, token.chars⟩ ::
        tokensFrom (position + Text.byteSize token.chars + ' '.utf8Size) rest := by
  obtain ⟨c, chars, hc, hb, hl⟩ := h.lexeme
  have hblank : LenientR.lexeme c (chars ++ ' ' :: rest) = ⟨token.kind, chars.length + 1⟩ := by
    by_cases hp : token.chars = ['%']
    · obtain ⟨rfl, rfl⟩ := List.cons.inj (hc.symm.trans hp)
      have hline : LacksPercent (' ' :: rest) :=
        (lacksPercent_cons (by decide)).2 ⟨by decide, he.percent hp⟩
      rw [← hl, lexeme_percent, lexeme_percent, List.nil_append,
        Lexeme.special_of_lacksPercent hline]
      rfl
    · have hends : (LenientR.lexeme c (chars ++ [])).EndsAtBlank c := by
        rw [List.append_nil, hl]
        refine ⟨he.comment, fun hpercent hu => hp ?_⟩
        -- what is not recognised is one character
        subst hpercent
        have hlacks : LacksPercent chars := by
          rw [← Lexeme.special_eq_unknown_iff, ← lexeme_percent, hl]
          exact hu
        rw [lexeme_percent, Lexeme.special_of_lacksPercent hlacks] at hl
        rw [hc, List.length_eq_zero_iff.1 (Nat.succ.inj (congrArg Lexeme.size hl)).symm]
      rw [← List.append_nil chars] at hl
      have hopen : (LenientR.lexeme c (chars ++ [])).kind = .unterminatedString →
          ([] : List Char) ≠ [] := fun hk => by
        rw [hl] at hk
        exact absurd hk he.quotation
      rw [lexeme_break (.inl rfl) (by rw [hl]; simp) hopen (.inr hends) rest, hl, List.append_nil]
  rw [hc, List.cons_append, tokensFrom_cons hb, hblank]
  have htake : (c :: (chars ++ ' ' :: rest)).take (chars.length + 1) = c :: chars := by simp
  have hdrop : (c :: (chars ++ ' ' :: rest)).drop (chars.length + 1) = ' ' :: rest := by simp
  rw [htake, hdrop, tokensFrom_blank rfl]

/-- Spelled tokens each of which ends where a blank and the ones after it follow. -/
def Spaceable : List Token → Prop
  | [] => True
  | token :: rest =>
    token.IsSpelled ∧ (rest ≠ [] → token.EndsBefore (spaced rest)) ∧ Spaceable rest

/-- Spaceable tokens are scanned, at whatever places, from a text in which they stand one after
another. -/
theorem tokensFrom_spaced {tokens : List Token} (h : Spaceable tokens) (position : Nat) :
    (tokensFrom position (spaced tokens)).map (·.move fun _ => 0) =
      (tokens ++ [endToken 0]).map (·.move fun _ => 0) := by
  induction tokens generalizing position with
  | nil => rfl
  | cons token rest ih =>
    obtain ⟨hspelled, hends, hrest⟩ := h
    by_cases hn : rest = []
    · rw [hn, spaced_singleton, tokensFrom_chars hspelled]
      rfl
    · rw [spaced_cons hn, tokensFrom_append_blank hspelled (hends hn), List.map_cons, ih hrest]
      rfl

/-- The kinds of lexemes that end by themselves, or where a blank follows. -/
def Kind.endsAtBlank (kind : Kind) : Bool :=
  kind ≠ .comment && kind ≠ .unknown && kind ≠ .unterminatedString

theorem spaceable_of_endsAtBlank {tokens : List Token} (h : ∀ token ∈ tokens, token.IsSpelled)
    (hk : ∀ token ∈ tokens, token.kind.endsAtBlank = true) : Spaceable tokens := by
  induction tokens with
  | nil => trivial
  | cons token rest ih =>
    obtain ⟨ht, hr⟩ := List.forall_mem_cons.1 h
    obtain ⟨hkt, hkr⟩ := List.forall_mem_cons.1 hk
    have hne (kind : Kind) (hn : kind.endsAtBlank = false) : token.kind ≠ kind := fun he => by
      rw [he, hn] at hkt
      cases hkt
    refine ⟨ht, fun _ => ⟨hne _ rfl, hne _ rfl, fun hp => ?_⟩, ih hr hkr⟩
    -- a percent sign alone is not recognised
    obtain ⟨c, chars, hc, _, hl⟩ := ht.lexeme
    obtain ⟨rfl, rfl⟩ := List.cons.inj (hc.symm.trans hp)
    exact absurd (congrArg Lexeme.kind hl).symm (hne _ rfl)

end LenientR
