import LenientR.Proofs.Scanning.Spaced

/-!
# Respacing a text

Every token of a text is spelled: its characters alone are scanned as that token, whatever stood
after them (`isSpelled_of_mem_tokensFrom`). So the tokens of any text, comments left out, are
scanned again from a text in which they stand with single blanks between them
(`tokenise_respaced`).
-/

namespace LenientR

-- ---------------------------------------------------------------------------
-- Lexemes alone
-- ---------------------------------------------------------------------------

section
variable {c : Char} {part more : List Char}

theorem rawOpening?_append {opening : Quoted.RawOpening} (h : rawOpening? c part = some opening)
    (more : List Char) : rawOpening? c (part ++ more) = some opening := by
  unfold rawOpening? at h ⊢
  split at h
  · rename_i hc
    obtain ⟨ho, hp⟩ := Quoted.RawOpening.read?_eq_some_iff.1 h
    rw [if_pos hc]
    exact Quoted.RawOpening.read?_eq_some_iff.2 ⟨ho, hp.trans (List.prefix_append part more)⟩
  · cases h

/-- What is left open at the end of a text is a quotation, raw or not. -/
theorem quotation_of_unterminated (hu : (lexeme c part).kind = .unterminatedString) :
    (∃ opening, rawOpening? c part = some opening) ∨
      ∃ kind, kind ≠ .unterminatedString ∧ ∀ rest, lexeme c rest = .quotation kind c rest := by
  cases hr : rawOpening? c part with
  | some opening => exact .inl ⟨opening, rfl⟩
  | none =>
    have hstart := plainLexeme_beginsWith c part
    rw [lexeme, hr] at hu
    rw [hu] at hstart
    right
    rcases hstart with rfl | rfl | rfl
    · exact ⟨.string, by decide, fun _ => rfl⟩
    · exact ⟨.string, by decide, fun _ => rfl⟩
    · exact ⟨.identifier, by decide, fun _ => rfl⟩

theorem drop_of_unterminated (hu : (lexeme c part).kind = .unterminatedString) :
    (c :: part).drop (lexeme c part).size = [] := by
  have hsize : (lexeme c part).size = part.length + 1 := by
    rcases quotation_of_unterminated hu with ⟨opening, hr⟩ | ⟨kind, hk, hq⟩
    · have hlexeme : lexeme c part = .rawQuotation opening part := by rw [lexeme, hr]
      rw [hlexeme] at hu ⊢
      unfold Lexeme.rawQuotation at hu ⊢
      split at hu
      · cases hu
      · rfl
    · rw [hq] at hu ⊢
      unfold Lexeme.quotation at hu ⊢
      split at hu
      · exact absurd hu hk
      · rfl
  rw [hsize, ← List.length_cons (a := c), List.drop_length]

theorem lexeme_append_of_unterminated (hm : more ≠ [])
    (hu : (lexeme c part).kind = .unterminatedString)
    (hs : (lexeme c (part ++ more)).size ≤ part.length + 1) :
    lexeme c (part ++ more) = lexeme c part := by
  rcases quotation_of_unterminated hu with ⟨opening, hr⟩ | ⟨kind, _, hq⟩
  · have hlexeme : lexeme c (part ++ more) = .rawQuotation opening (part ++ more) := by
      rw [lexeme, rawOpening?_append hr]
    rw [hlexeme] at hs ⊢
    have h := Lexeme.rawQuotation_of_le hs (fun _ => hm) []
    rw [lexeme, hr, ← h, List.append_nil]
  · rw [hq] at hs
    have h := Lexeme.quotation_of_le hs (fun _ => hm) []
    rw [hq, hq, ← h, List.append_nil]

theorem lexeme_cut (hs : (lexeme c (part ++ more)).size ≤ part.length + 1) :
    lexeme c part = lexeme c (part ++ more) := by
  cases more with
  | nil => rw [List.append_nil]
  | cons d more =>
    have hm : d :: more ≠ [] := List.cons_ne_nil d more
    by_cases hu : (lexeme c part).kind = .unterminatedString
    · exact (lexeme_append_of_unterminated hm hu hs).symm
    · -- both are the lexeme in front of a newline
      have hwhole : (lexeme c (part ++ [])).size ≤ part.length + 1 := by
        simpa using (lexeme_fits c part).2
      have hopen : (lexeme c (part ++ [])).kind = .unterminatedString → ([] : List Char) ≠ [] :=
        fun h => absurd (by rwa [List.append_nil] at h) hu
      have hpart := lexeme_break (.inr rfl) hwhole hopen (.inl rfl) []
      have hfront := lexeme_break (.inr rfl) hs (fun _ => hm) (.inl rfl) []
      rw [← hfront, hpart, List.append_nil]

end

theorem isSpelled_lexeme {c : Char} (hb : isBlank c = false) (rest : List Char) (position : Nat) :
    Token.IsSpelled ⟨(lexeme c rest).kind, position, (c :: rest).take (lexeme c rest).size⟩ := by
  obtain ⟨hpos, hle⟩ := lexeme_fits c rest
  obtain ⟨size, hs⟩ : ∃ size, (lexeme c rest).size = size + 1 :=
    Nat.exists_eq_add_one.2 hpos
  rw [hs, List.length_cons] at hle
  have hlen : (rest.take size).length = size := List.length_take_of_le (Nat.le_of_succ_le_succ hle)
  have hsize :
      (lexeme c (rest.take size ++ rest.drop size)).size ≤ (rest.take size).length + 1 := by
    rw [List.take_append_drop, hlen]
    exact Nat.le_of_eq hs
  refine Token.isSpelled_of_lexeme (by rw [hs, List.take_succ_cons]) hb ?_
  rw [lexeme_cut hsize, List.take_append_drop, hlen, ← hs]

theorem isSpelled_of_mem_tokensFrom {position : Nat} {chars : List Char} {token : Token}
    (hm : token ∈ tokensFrom position chars) (hk : token.kind ≠ .endOfFile) :
    token.IsSpelled := by
  induction chars using scanning_induction generalizing position with
  | nil =>
    rw [tokensFrom_nil, List.mem_singleton] at hm
    exact absurd (hm ▸ rfl) hk
  | blank c rest hb ih =>
    rw [tokensFrom_blank hb] at hm
    exact ih hm
  | token c rest hb ih =>
    rw [tokensFrom_cons hb] at hm
    rcases List.mem_cons.1 hm with rfl | hm
    · exact isSpelled_lexeme hb rest position
    · exact ih hm

-- ---------------------------------------------------------------------------
-- The code of a text
-- ---------------------------------------------------------------------------

def Token.isCode (token : Token) : Bool := token.kind ≠ .comment && token.kind ≠ .endOfFile

def codeFrom (position : Nat) (chars : List Char) : List Token :=
  (tokensFrom position chars).filter Token.isCode

theorem codeFrom_blank {c : Char} (hb : isBlank c = true) (position : Nat) (rest : List Char) :
    codeFrom position (c :: rest) = codeFrom (position + c.utf8Size) rest := by
  rw [codeFrom, tokensFrom_blank hb, codeFrom]

theorem codeFrom_cons {c : Char} (hb : isBlank c = false) (position : Nat) (rest : List Char) :
    let token : Token := ⟨(lexeme c rest).kind, position, (c :: rest).take (lexeme c rest).size⟩
    let after := codeFrom token.stop ((c :: rest).drop (lexeme c rest).size)
    codeFrom position (c :: rest) = if token.kind = .comment then after else token :: after := by
  intro token after
  have hend : token.kind ≠ .endOfFile := lexeme_kind_ne c rest
  have hcode : token.isCode = decide (token.kind ≠ .comment) := by simp [Token.isCode, hend]
  rw [codeFrom, tokensFrom_cons hb, List.filter_cons]
  change (if token.isCode = true then token :: after else after) = _
  rw [hcode]
  by_cases hk : token.kind = .comment <;> simp [hk]

theorem newline_notMem_of_comment {c : Char} {rest : List Char}
    (hk : (lexeme c rest).kind = .comment) : '\n' ∉ (c :: rest).take (lexeme c rest).size := by
  obtain rfl := eq_hash_of_lexeme_kind hk
  have hprefix := List.takeWhile_prefix (fun x : Char => decide (x ≠ '\n')) (l := rest)
  have htake : ('#' :: rest).take (lexeme '#' rest).size =
      '#' :: rest.takeWhile fun x => decide (x ≠ '\n') :=
    congrArg ('#' :: ·) (List.prefix_iff_eq_take.1 hprefix).symm
  rw [htake, List.mem_cons, not_or]
  refine ⟨by decide, fun hm => ?_⟩
  simpa using List.all_eq_true.1 List.all_takeWhile _ hm

/-- No other percent sign is on the line of one that is a token alone. -/
theorem lacksPercent_drop {c : Char} {rest : List Char}
    (h : (c :: rest).take (lexeme c rest).size = ['%']) :
    LacksPercent ((c :: rest).drop (lexeme c rest).size) := by
  obtain ⟨hpos, hle⟩ := lexeme_fits c rest
  have hlen := congrArg List.length h
  rw [List.length_take_of_le hle, List.length_singleton] at hlen
  rw [hlen, List.take_succ_cons] at h
  obtain ⟨rfl, _⟩ := List.cons.inj h
  rw [hlen, List.drop_succ_cons, List.drop_zero]
  rw [lexeme_percent] at hlen
  refine Lexeme.special_eq_unknown_iff.1 ?_
  unfold Lexeme.special at hlen ⊢
  dsimp only at hlen ⊢
  split at hlen
  · simp at hlen
  · rename_i hn
    rw [if_neg hn]

-- ---------------------------------------------------------------------------
-- Texts respaced
-- ---------------------------------------------------------------------------

/-- Without a percent sign on the first line of a text there is none on that of its code. -/
theorem lacksPercent_spaced {chars : List Char} (h : LacksPercent chars) (position : Nat) :
    LacksPercent (spaced (codeFrom position chars)) := by
  induction chars using scanning_induction generalizing position with
  | nil => exact h
  | blank c rest hb ih =>
    have hc : c ≠ '\n' := by
      rintro rfl
      cases hb
    rw [codeFrom_blank hb]
    exact ih ((lacksPercent_cons hc).1 h).2 _
  | token c rest hb ih =>
    rw [← List.take_append_drop (lexeme c rest).size (c :: rest)] at h
    obtain ⟨htoken, hafter⟩ := lacksPercent_append.1 h
    rw [codeFrom_cons hb]
    split
    · rename_i hk
      exact ih (hafter (newline_notMem_of_comment hk)) _
    · generalize hcode : codeFrom _ _ = code
      cases code with
      | nil =>
        rw [spaced_singleton]
        exact htoken
      | cons next after =>
        rw [spaced_cons (List.cons_ne_nil next after), ← hcode]
        refine lacksPercent_append.2 ⟨htoken, fun hline => ?_⟩
        exact (lacksPercent_cons (by decide)).2 ⟨by decide, ih (hafter hline) _⟩

theorem spaceable_codeFrom (position : Nat) (chars : List Char) :
    Spaceable (codeFrom position chars) := by
  induction chars using scanning_induction generalizing position with
  | nil => trivial
  | blank c rest hb ih =>
    rw [codeFrom_blank hb]
    exact ih _
  | token c rest hb ih =>
    rw [codeFrom_cons hb]
    split
    · exact ih _
    · rename_i hcomment
      refine ⟨isSpelled_lexeme hb rest position, fun hn => ?_, ih _⟩
      exact {
        comment := hcomment
        quotation := fun hk => hn (by rw [drop_of_unterminated hk]; rfl)
        percent := fun hp => lacksPercent_spaced (lacksPercent_drop hp) _ }

/-- Joined by single blanks, the tokens of a source other than its comments are scanned again: the
same kinds and the same texts in the same order, and the end of the file. -/
theorem tokenise_respaced (source : String) :
    let code := (tokenise source).filter Token.isCode
    (tokenise (String.ofList (spaced code))).map (fun token => (token.kind, token.text)) =
      code.map (fun token => (token.kind, token.text)) ++ [(.endOfFile, "")] := by
  intro code
  have hcode : Spaceable code := spaceable_codeFrom 0 source.toList
  have h := tokensFrom_spaced hcode 0
  have hspelling := congrArg (List.map fun token : Token => (token.kind, token.text)) h
  rw [List.map_map, List.map_map] at hspelling
  rw [tokenise, String.toList_ofList]
  simpa [Function.comp_def, Token.text, endToken] using hspelling

end LenientR
