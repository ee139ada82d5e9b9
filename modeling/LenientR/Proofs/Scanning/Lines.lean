import LenientR.Proofs.Scanning.Breaks
import LenientR.Proofs.Scanning.Tiles

/-!
# Lines of a text

A newline that is a token of its own parts a text: what stands before it is scanned as it would be
alone, and so is what stands after it (`tokensFrom_append_of_line`). One put in front of a token is
such a newline (`tokensFrom_insert_newline`).
-/

namespace LenientR

theorem newline_mem_of_tokensFrom {position : Nat} {chars : List Char} {token : Token}
    (hm : token ∈ tokensFrom position chars) (hk : token.kind = .endOfLine) : '\n' ∈ chars := by
  induction chars using scanning_induction generalizing position with
  | nil =>
    rw [tokensFrom_nil, List.mem_singleton] at hm
    rw [hm] at hk
    cases hk
  | blank c rest hb ih =>
    rw [tokensFrom_blank hb] at hm
    exact List.mem_cons_of_mem c (ih hm)
  | token c rest hb ih =>
    rw [tokensFrom_cons hb] at hm
    rcases List.mem_cons.1 hm with rfl | hm
    · rw [eq_newline_of_lexeme_kind hk]
      exact List.mem_cons_self
    · exact List.mem_of_mem_drop (ih hm)

theorem tokensFrom_ne_nil (position : Nat) (chars : List Char) :
    tokensFrom position chars ≠ [] := by
  obtain ⟨body, last, he, _⟩ := endsOnce_scan chars.length position chars
  rw [tokensFrom, he]
  exact List.append_ne_nil_of_right_ne_nil body (List.cons_ne_nil last [])

theorem tokensFrom_append_of_singleton {position : Nat} {chars : List Char} {last : Token}
    (h : tokensFrom position chars = [last]) (more : List Char) :
    tokensFrom position (chars ++ more) = tokensFrom (position + Text.byteSize chars) more := by
  induction chars using scanning_induction generalizing position with
  | nil => rfl
  | blank c rest hb ih =>
    rw [tokensFrom_blank hb] at h
    rw [List.cons_append, tokensFrom_blank hb, ih h, Text.byteSize_cons, Nat.add_assoc]
  | token c rest hb ih =>
    rw [tokensFrom_cons hb] at h
    exact absurd (List.cons.inj h).2 (tokensFrom_ne_nil _ _)

/-- A lexeme before a newline is the same whatever comes after that newline. -/
theorem lexeme_append_of_mem {c : Char} {rest : List Char}
    (h : '\n' ∈ (c :: rest).drop (lexeme c rest).size) (more : List Char) :
    lexeme c (rest ++ more) = lexeme c rest := by
  obtain ⟨between, after, hd⟩ := List.append_of_mem h
  obtain ⟨size, hs⟩ := Nat.exists_eq_succ_of_ne_zero (Nat.ne_of_gt (lexeme_fits c rest).1)
  rw [hs, List.drop_succ_cons] at hd
  have hrest : rest = (rest.take size ++ between) ++ '\n' :: after := by
    rw [List.append_assoc, ← hd, List.take_append_drop]
  have hsize : (lexeme c (rest.take size ++ between ++ '\n' :: after)).size ≤
      (rest.take size ++ between).length + 1 := by
    have hle := (lexeme_fits c rest).2
    rw [hs, List.length_cons] at hle
    rw [← hrest, hs, List.length_append, List.length_take_of_le (Nat.le_of_succ_le_succ hle)]
    omega
  have hsame := lexeme_break (.inr rfl) hsize (fun _ => List.cons_ne_nil _ _) (.inl rfl)
    (after ++ more)
  rwa [← List.cons_append, ← List.append_assoc, ← hrest] at hsame

theorem tokensFrom_cons_append {c : Char} (hb : isBlank c = false) {rest more : List Char}
    {found : Lexeme} (hl : lexeme c (rest ++ more) = found) (hs : found.size ≤ (c :: rest).length)
    (position : Nat) : tokensFrom position (c :: rest ++ more) =
      ⟨found.kind, position, (c :: rest).take found.size⟩ ::
        tokensFrom (position + Text.byteSize ((c :: rest).take found.size))
          ((c :: rest).drop found.size ++ more) := by
  rw [List.cons_append, tokensFrom_cons hb, hl, ← List.cons_append,
    List.take_append_of_le_length hs, List.drop_append_of_le_length hs]

/-- What follows the end of a line is scanned as a text of its own. -/
theorem tokensFrom_append_of_line {position : Nat} {chars : List Char} {body : List Token}
    {line last : Token} (h : tokensFrom position chars = body ++ [line, last])
    (hl : line.kind = .endOfLine) (more : List Char) :
    tokensFrom position (chars ++ more) =
      body ++ line :: tokensFrom (position + Text.byteSize chars) more := by
  induction chars using scanning_induction generalizing position body with
  | nil =>
    have := congrArg List.length h
    simp [tokensFrom_nil] at this
  | blank c rest hb ih =>
    rw [tokensFrom_blank hb] at h
    rw [List.cons_append, tokensFrom_blank hb, ih h, Text.byteSize_cons, Nat.add_assoc]
  | token c rest hb ih =>
    have hle := (lexeme_fits c rest).2
    have hsplit := congrArg Text.byteSize
      (List.take_append_drop (lexeme c rest).size (c :: rest))
    rw [Text.byteSize_append] at hsplit
    rw [tokensFrom_cons hb] at h
    cases body with
    | nil =>
      obtain ⟨rfl, hrest⟩ := List.cons.inj h
      have hlexeme : lexeme c (rest ++ more) = lexeme c rest := by
        rw [eq_newline_of_lexeme_kind hl, lexeme_newline, lexeme_newline]
      rw [tokensFrom_cons_append hb hlexeme hle, tokensFrom_append_of_singleton hrest,
        Nat.add_assoc, hsplit]
      rfl
    | cons token body =>
      obtain ⟨rfl, hrest⟩ := List.cons.inj h
      have hline : line ∈ body ++ [line, last] := List.mem_append_right body List.mem_cons_self
      have hmem := newline_mem_of_tokensFrom (hrest.symm.subst hline) hl
      rw [tokensFrom_cons_append hb (lexeme_append_of_mem hmem more) hle, ih hrest, Nat.add_assoc,
        hsplit]
      rfl

theorem size_le_of_byteSize_le {front back : List Char} {size : Nat}
    (hs : size ≤ (front ++ back).length)
    (hb : Text.byteSize ((front ++ back).take size) ≤ Text.byteSize front) :
    size ≤ front.length := by
  refine Nat.le_of_not_lt fun hlt => ?_
  rw [List.take_append, List.take_of_length_le (by omega), Text.byteSize_append] at hb
  have hnil := Text.byteSize_eq_zero.1 (Nat.eq_zero_of_le_zero (Nat.le_of_add_le_add_left hb))
  have hlen := congrArg List.length hnil
  rw [List.length_append] at hs
  rw [List.length_take, List.length_nil] at hlen
  omega

theorem eq_nil_of_start_eq {position : Nat} {chars : List Char} {before after : List Token}
    {next : Token} (h : tokensFrom position chars = before ++ next :: after)
    (hn : next.start = position) : before = [] :=
  List.eq_nil_iff_forall_not_mem.2 fun token hm => by
    obtain ⟨hle, hp⟩ := pairwise_scan chars.length position chars
    have hscan : scan chars.length position chars = before ++ next :: after := h
    rw [hscan] at hle hp
    have hlt := (List.pairwise_append.1 hp).2.2 token hm next List.mem_cons_self
    have := hle token (List.mem_append_left _ hm)
    omega

/-- A newline in front of a token is a token of its own, and the other tokens stay as they are. -/
theorem tokensFrom_insert_newline {position : Nat} {front back : List Char}
    {before after : List Token} {next : Token}
    (h : tokensFrom position (front ++ back) = before ++ next :: after)
    (hn : next.start = position + Text.byteSize front)
    (hk : ∀ token ∈ before, token.kind ≠ .unterminatedString) :
    tokensFrom next.start back = next :: after ∧
      tokensFrom position (front ++ '\n' :: back) =
        before ++ ⟨.endOfLine, next.start, ['\n']⟩ :: tokensFrom (next.start + 1) back := by
  induction hl : front.length using Nat.strongRecOn generalizing position front before with
  | ind n ih => cases front with
  | nil =>
    have hstart : next.start = position := hn
    obtain rfl := eq_nil_of_start_eq h hstart
    rw [hstart]
    exact ⟨h, tokensFrom_cons rfl position back⟩
  | cons c rest =>
    cases hb : isBlank c with
    | true =>
      rw [List.cons_append, tokensFrom_blank hb] at h ⊢
      refine ih rest.length (by simp [← hl]) h ?_ hk rfl
      rw [hn, Text.byteSize_cons, Nat.add_assoc]
    | false =>
      have hfits := lexeme_fits c (rest ++ back)
      have hcons := h
      rw [List.cons_append, tokensFrom_cons hb] at hcons
      cases before with
      | nil =>
        obtain ⟨rfl, _⟩ := List.cons.inj hcons
        have := c.utf8Size_pos
        rw [Text.byteSize_cons] at hn
        simp only at hn
        omega
      | cons token before =>
        obtain ⟨rfl, hrest⟩ := List.cons.inj hcons
        obtain ⟨hk, hkrest⟩ := List.forall_mem_cons.1 hk
        -- the lexeme ends before the newline, which is in front of a token after it
        have hnext : next ∈ before ++ next :: after := List.mem_append_right _ List.mem_cons_self
        have hle := (pairwise_scan _ _ _).1 next (hrest.symm.subst hnext)
        have hsize : (lexeme c (rest ++ back)).size ≤ (c :: rest).length :=
          size_le_of_byteSize_le hfits.2 (Nat.le_of_add_le_add_left (hn ▸ hle))
        have hsame : lexeme c (rest ++ '\n' :: back) = lexeme c (rest ++ back) :=
          lexeme_break (.inr rfl) hsize (fun he => absurd he hk) (.inl rfl) back
        have hparts := congrArg Text.byteSize
          (List.take_append_drop (lexeme c (rest ++ back)).size (c :: rest))
        rw [Text.byteSize_append] at hparts
        rw [tokensFrom_cons_append hb rfl hsize] at h
        obtain ⟨htoken, hrest⟩ := List.cons.inj h
        have hshort : ((c :: rest).drop (lexeme c (rest ++ back)).size).length < n := by
          have := hfits.1
          simp only [List.length_drop, List.length_cons] at hl ⊢
          omega
        obtain ⟨hback, hall⟩ := ih _ hshort hrest (by rw [hn, Nat.add_assoc, hparts]) hkrest rfl
        refine ⟨hback, ?_⟩
        rw [tokensFrom_cons_append hb hsame hsize, hall, htoken]
        rfl

theorem exists_tokensFrom (position : Nat) (chars : List Char) :
    ∃ body, tokensFrom position chars =
      body ++ [endToken (position + Text.byteSize chars)] := by
  obtain ⟨body, hbody, _⟩ := (tiled_tokensFrom position chars).ended
  exact ⟨body, hbody⟩

theorem tokensFrom_append_newline {position : Nat} {chars : List Char} {body : List Token}
    (h : tokensFrom position chars = body ++ [endToken (position + Text.byteSize chars)])
    (hk : ∀ token ∈ body, token.kind ≠ .unterminatedString) (more : List Char) :
    tokensFrom position (chars ++ '\n' :: more) =
      body ++ ⟨.endOfLine, position + Text.byteSize chars, ['\n']⟩ ::
        tokensFrom (position + Text.byteSize chars + 1) more := by
  have hline : tokensFrom position (chars ++ ['\n']) =
      body ++ [⟨.endOfLine, position + Text.byteSize chars, ['\n']⟩,
        endToken (position + Text.byteSize chars + 1)] := by
    have h : tokensFrom position (chars ++ []) =
        body ++ [endToken (position + Text.byteSize chars)] := by rwa [List.append_nil]
    exact (tokensFrom_insert_newline h rfl hk).2
  have hmore := tokensFrom_append_of_line hline rfl more
  rwa [List.append_assoc, Text.byteSize_append, ← Nat.add_assoc] at hmore

end LenientR
