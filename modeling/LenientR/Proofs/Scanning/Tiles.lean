import LenientR.Proofs.Scanning.Places
import LenientR.Proofs.Scanning.Tokeniser

/-!
# Tokens tile a text

Scanning lays a text out in tokens with nothing but blanks between them (`Tiled`). So the tokens of
a range of a source, comments and the end included, are cut out of it between characters, and what
they leave of the range is blank (`TokensTile`).
-/

namespace LenientR

namespace Text

def IsBoundary (chars : List Char) (offset : Nat) : Prop :=
  ∃ before after, chars = before ++ after ∧ byteSize before = offset

variable {chars text : List Char} {start stop : Nat}

theorem isBoundary_of_slice? (h : slice? chars start stop = some text) :
    IsBoundary chars start ∧ IsBoundary chars stop := by
  obtain ⟨before, after, rfl, hb, hs⟩ := slice?_eq_some.1 h
  refine ⟨⟨before, text ++ after, by simp, hb⟩, ⟨before ++ text, after, rfl, ?_⟩⟩
  rw [byteSize_append, hb, hs]

theorem prefix_of_byteSize_le {a b : List Char} (ha : a <+: chars) (hb : b <+: chars)
    (h : byteSize a ≤ byteSize b) : a <+: b := by
  rcases List.prefix_or_prefix_of_prefix ha hb with hp | ⟨more, rfl⟩
  · exact hp
  · rw [byteSize_append] at h
    obtain rfl : more = [] := byteSize_eq_zero.1 (by omega)
    simp

theorem exists_slice? (hs : IsBoundary chars start) (he : IsBoundary chars stop)
    (hle : start ≤ stop) : ∃ text, slice? chars start stop = some text := by
  obtain ⟨before, _, hb, rfl⟩ := hs
  obtain ⟨through, after, hthrough, rfl⟩ := he
  obtain ⟨text, rfl⟩ := prefix_of_byteSize_le ⟨_, hb.symm⟩ ⟨_, hthrough.symm⟩ hle
  exact ⟨text, slice?_eq_some.2 ⟨before, after, hthrough, rfl, (byteSize_append _ _).symm⟩⟩

end Text

-- ---------------------------------------------------------------------------
-- Tiles
-- ---------------------------------------------------------------------------

/-- A text that starts at a position, and its tokens: blanks, a token, blanks, a token, and so on up
to the end. -/
inductive Tiled : Nat → List Char → List Token → Prop
  | ending {position : Nat} {blanks : List Char} (hb : blanks.all isBlank = true) :
      Tiled position blanks [endToken (position + Text.byteSize blanks)]
  | token {position : Nat} {blanks rest : List Char} {token : Token} {tokens : List Token}
      (hb : blanks.all isBlank = true) (hs : token.start = position + Text.byteSize blanks)
      (hc : token.chars ≠ []) (hk : token.kind ≠ .endOfFile) (h : Tiled token.stop rest tokens) :
      Tiled position (blanks ++ (token.chars ++ rest)) (token :: tokens)

theorem Tiled.blank {position : Nat} {c : Char} {text : List Char} {tokens : List Token}
    (hc : isBlank c = true) (h : Tiled (position + c.utf8Size) text tokens) :
    Tiled position (c :: text) tokens := by
  cases h with
  | ending hb =>
    rw [Nat.add_assoc]
    exact .ending (by simp [hc, hb])
  | @token _ blanks rest token tokens hb hs hn hk h =>
    rw [Nat.add_assoc] at hs
    have hcons : (c :: blanks).all isBlank = true := by simp [hc, hb]
    exact .token hcons hs hn hk h

theorem tiled_tokensFrom (position : Nat) (chars : List Char) :
    Tiled position chars (tokensFrom position chars) := by
  induction chars using scanning_induction generalizing position with
  | nil => exact .ending rfl
  | blank c rest hb ih =>
    rw [tokensFrom_blank hb]
    exact (ih _).blank hb
  | token c rest hb ih =>
    let token : Token :=
      ⟨(lexeme c rest).kind, position, (c :: rest).take (lexeme c rest).size⟩
    have hc : token.chars ≠ [] := fun he => by
      have hpos := byteSize_lexeme_pos c rest
      rw [show (c :: rest).take (lexeme c rest).size = [] from he] at hpos
      exact Nat.lt_irrefl 0 hpos
    have h : Tiled position ([] ++ (token.chars ++ (c :: rest).drop (lexeme c rest).size))
        (token :: tokensFrom token.stop ((c :: rest).drop (lexeme c rest).size)) :=
      .token rfl rfl hc (lexeme_kind_ne c rest) (ih token.stop)
    rw [List.nil_append, List.take_append_drop] at h
    rwa [tokensFrom_cons hb]

def gaps (stop : Nat) : Nat → List Token → List Span
  | position, [] => [⟨position, stop⟩]
  | position, token :: rest => ⟨position, token.start⟩ :: gaps stop token.stop rest

namespace Tiled

variable {position : Nat} {text before : List Char} {tokens : List Token}

theorem length_le (h : Tiled position text tokens) : tokens.length ≤ Text.byteSize text + 1 := by
  induction h with
  | ending _ => exact Nat.le_add_left 1 _
  | token _ _ hc _ _ ih =>
    have := Nat.pos_of_ne_zero (mt Text.byteSize_eq_zero.1 hc)
    simp only [List.length_cons, Text.byteSize_append]
    omega

theorem one_le_length (h : Tiled position text tokens) :
    ∀ token ∈ tokens, token.kind ≠ .endOfFile → 1 ≤ token.length := by
  induction h with
  | ending _ => exact List.forall_mem_singleton.2 fun hk => absurd rfl hk
  | token _ _ hc _ _ ih =>
    exact List.forall_mem_cons.2 ⟨fun _ => Nat.pos_of_ne_zero (mt Text.byteSize_eq_zero.1 hc), ih⟩

theorem ended (h : Tiled position text tokens) :
    ∃ body, tokens = body ++ [endToken (position + Text.byteSize text)] ∧
      ∀ token ∈ body, token.kind ≠ .endOfFile := by
  induction h with
  | ending _ => exact ⟨[], rfl, by simp⟩
  | @token position blanks rest token tokens _ hs _ hk _ ih =>
    obtain ⟨body, he, hbody⟩ := ih
    refine ⟨token :: body, ?_, List.forall_mem_cons.2 ⟨hk, hbody⟩⟩
    have hstop : token.stop + Text.byteSize rest =
        position + Text.byteSize (blanks ++ (token.chars ++ rest)) := by
      simp only [Token.stop, Token.length, hs, Text.byteSize_append, Nat.add_assoc]
    rw [he, hstop]
    rfl

theorem slice? (h : Tiled position text tokens) (hp : Text.byteSize before = position)
    (after : List Char) : ∀ token ∈ tokens,
      Text.slice? (before ++ text ++ after) token.start token.stop = some token.chars := by
  induction h generalizing before with
  | @ending position blanks _ =>
    refine List.forall_mem_singleton.2 (Text.slice?_eq_some.2 ?_)
    refine ⟨before ++ blanks, after, by simp [endToken], ?_, rfl⟩
    rw [Text.byteSize_append, hp]
    rfl
  | @token position blanks rest token tokens _ hs _ _ _ ih =>
    have hstart : Text.byteSize (before ++ blanks) = token.start := by
      rw [Text.byteSize_append, hp, hs]
    have hstop : Text.byteSize (before ++ blanks ++ token.chars) = token.stop := by
      rw [Text.byteSize_append, hstart]
      rfl
    have hrest := ih hstop
    simp only [List.append_assoc] at hrest ⊢
    refine List.forall_mem_cons.2 ⟨Text.slice?_eq_some.2 ?_, hrest⟩
    exact ⟨before ++ blanks, rest ++ after, by simp, hstart, rfl⟩

theorem blank_of_mem_gaps (h : Tiled position text tokens) (hp : Text.byteSize before = position)
    (after : List Char) : ∀ gap ∈ gaps (position + Text.byteSize text) position tokens,
      ∃ blanks, Text.slice? (before ++ text ++ after) gap.start gap.stop = some blanks ∧
        blanks.all isBlank = true := by
  induction h generalizing before with
  | @ending position blanks hb =>
    refine List.forall_mem_cons.2 ⟨⟨blanks, Text.slice?_eq_some.2 ?_, hb⟩,
      List.forall_mem_singleton.2 ⟨[], Text.slice?_eq_some.2 ?_, rfl⟩⟩
    · exact ⟨before, after, rfl, hp, rfl⟩
    · exact ⟨before ++ blanks, after, by simp, by rw [Text.byteSize_append, hp]; rfl, rfl⟩
  | @token position blanks rest token tokens hb hs _ _ _ ih =>
    have hstop : Text.byteSize (before ++ blanks ++ token.chars) = token.stop := by
      rw [Text.byteSize_append, Text.byteSize_append, hp, ← hs]
      rfl
    have hend : position + Text.byteSize (blanks ++ (token.chars ++ rest)) =
        token.stop + Text.byteSize rest := by
      simp only [Token.stop, Token.length, hs, Text.byteSize_append, Nat.add_assoc]
    have hrest := ih hstop
    rw [hend]
    simp only [List.append_assoc] at hrest ⊢
    refine List.forall_mem_cons.2 ⟨⟨blanks, Text.slice?_eq_some.2 ?_, hb⟩, hrest⟩
    exact ⟨before, token.chars ++ (rest ++ after), by simp, hp, hs.symm⟩

end Tiled

-- ---------------------------------------------------------------------------
-- Ranges of a source
-- ---------------------------------------------------------------------------

/-- How the tokens of a range lie in the source. -/
structure TokensTile (source : List Char) (range : Span) (tokens : List Token) : Prop where
  finite : tokens.length ≤ range.stop - range.start + 1
  nonempty : ∀ token ∈ tokens, token.kind ≠ .endOfFile → 1 ≤ token.length
  increasing : tokens.Pairwise (·.start < ·.start)
  apart : tokens.Pairwise (·.stop ≤ ·.start)
  within : ∀ token ∈ tokens, range.start ≤ token.start ∧ token.stop ≤ range.stop
  boundaries : ∀ token ∈ tokens,
    Text.IsBoundary source token.start ∧ Text.IsBoundary source token.stop
  /-- The source can be cut at every token, and what is cut out is the text of the token. -/
  sliced : ∀ token ∈ tokens, Text.slice? source token.start token.stop = some token.chars
  blank : ∀ gap ∈ gaps range.stop range.start tokens, ∃ blanks,
    Text.slice? source gap.start gap.stop = some blanks ∧ blanks.all isBlank = true
  ended : ∃ body, tokens = body ++ [endToken range.stop] ∧
    ∀ token ∈ body, token.kind ≠ .endOfFile

theorem tokensTile_tokensFrom {source text : List Char} {range : Span}
    (h : Text.slice? source range.start range.stop = some text) :
    TokensTile source range (tokensFrom range.start text) := by
  obtain ⟨before, after, rfl, hb, hs⟩ := Text.slice?_eq_some.1 h
  have htiled := tiled_tokensFrom range.start text
  obtain ⟨hwithin, hbefore⟩ := before_scan text.length range.start text
  have hsliced := htiled.slice? hb after
  have hgaps := htiled.blank_of_mem_gaps hb after
  have hended := htiled.ended
  have hfinite := htiled.length_le
  rw [hs] at hwithin hgaps hended
  exact {
    finite := by omega
    nonempty := htiled.one_le_length
    increasing := hbefore.imp fun hab => Nat.lt_of_lt_of_le hab.1 hab.2
    apart := hbefore.imp And.right
    within := hwithin
    boundaries := fun token hm => Text.isBoundary_of_slice? (hsliced token hm)
    sliced := hsliced
    blank := hgaps
    ended := hended }

theorem Text.isValid_eq_true_iff {source : String} {offset : Nat} :
    String.Pos.Raw.isValid source ⟨offset⟩ = true ↔ IsBoundary source.toList offset := by
  rw [String.Pos.Raw.isValid_eq_true_iff, String.Pos.Raw.isValid_iff_exists_append]
  constructor
  · rintro ⟨before, after, rfl, he⟩
    refine ⟨before.toList, after.toList, String.toList_append, ?_⟩
    rw [byteSize_toList]
    exact (congrArg String.Pos.Raw.byteIdx he).symm
  · rintro ⟨before, after, he, rfl⟩
    refine ⟨String.ofList before, String.ofList after, ?_, ?_⟩
    · rw [← String.ofList_append, ← he, String.ofList_toList]
    · rw [String.Pos.Raw.ext_iff, String.byteIdx_rawEndPos, ← byteSize_toList,
        String.toList_ofList]

namespace Tokeniser

theorem mapM_cut? {t : Tokeniser} {tokens : List Token}
    (h : ∀ token ∈ tokens,
      Text.slice? t.source.toList token.start token.stop = some token.chars) :
    (tokens.map Token.extent).mapM t.cut? = some tokens := by
  induction tokens with
  | nil => rfl
  | cons token tokens ih =>
    obtain ⟨htoken, htokens⟩ := List.forall_mem_cons.1 h
    have hcut : t.cut? token.extent = some token := by
      rw [cut?]
      exact congrArg (Option.map _) htoken
    rw [List.map_cons, List.mapM_cons, hcut, ih htokens]
    rfl

/-- The bytes of a range that is cut between characters are read to the end, and every token can be
cut out of the source. -/
theorem ofRange?_reads {source : String} {range : Span} {text : List Char}
    (h : Text.slice? source.toList (range.cut source.utf8ByteSize).start
      (range.cut source.utf8ByteSize).stop = some text) :
    extentsOfRange? source range =
        some ((tokensFrom (range.cut source.utf8ByteSize).start text).map Token.extent) ∧
      tokeniseRange? source range =
        some (tokensFrom (range.cut source.utf8ByteSize).start text) := by
  obtain ⟨hstart, hstop⟩ := Text.isBoundary_of_slice? h
  let t : Tokeniser := ⟨source, (range.cut source.utf8ByteSize).stop, Nat.min_le_right _ _⟩
  have hrange : ofRange? source range = some t := by
    unfold ofRange?
    dsimp only
    rw [Text.isValid_eq_true_iff.2 hstart, Text.isValid_eq_true_iff.2 hstop]
    rfl
  have hahead : t.Ahead (range.cut source.utf8ByteSize).start text := h
  have hsize := hahead.stop_eq
  have hextents : extentsOfRange? source range =
      some ((tokensFrom (range.cut source.utf8ByteSize).start text).map Token.extent) := by
    rw [extentsOfRange?, hrange]
    exact hahead.extents?_eq (by change _ = (range.cut source.utf8ByteSize).stop at hsize; omega)
  refine ⟨hextents, ?_⟩
  rw [tokeniseRange?, hrange, hextents]
  obtain ⟨before, after, hsource, hb, _⟩ := Text.slice?_eq_some.1 h
  refine mapM_cut? fun token hm => ?_
  have := (tiled_tokensFrom _ text).slice? hb after token hm
  rwa [← hsource] at this

end Tokeniser

/-- Reading the bytes of a source in place gives the tokens of the text of the range, as if it stood
alone. -/
theorem tokeniseRange?_eq (source : String) (range : Span) :
    tokeniseRange? source range =
      (Text.slice? source.toList (range.cut (Text.byteSize source.toList)).start
        (range.cut (Text.byteSize source.toList)).stop).map
          (tokensFrom (range.cut (Text.byteSize source.toList)).start) := by
  rw [Text.byteSize_toList]
  cases h : Text.slice? source.toList (range.cut source.utf8ByteSize).start
    (range.cut source.utf8ByteSize).stop with
  | some text => exact (Tokeniser.ofRange?_reads h).2
  | none =>
    have hrange : Tokeniser.ofRange? source range = none := by
      refine if_neg fun hvalid => ?_
      obtain ⟨hstart, hstop⟩ := Bool.and_eq_true_iff.1 hvalid
      obtain ⟨text, htext⟩ := Text.exists_slice? (Text.isValid_eq_true_iff.1 hstart)
        (Text.isValid_eq_true_iff.1 hstop) (Nat.min_le_right _ _)
      exact nomatch h.symm.trans htext
    rw [tokeniseRange?, hrange]
    rfl

theorem Document.tokens_parseRange? (source : String) (range : Span) :
    (parseRange? source range).map Document.tokens =
      (tokeniseRange? source range).map (List.filter (·.kind ≠ .comment)) :=
  Option.map_map ..

/-- A range is read in place as its text is. -/
theorem Document.parseRange?_eq (source : String) (range : Span) :
    parseRange? source range =
      (Text.slice? source.toList (range.cut (Text.byteSize source.toList)).start
        (range.cut (Text.byteSize source.toList)).stop).map
          (ofText source (range.cut (Text.byteSize source.toList))) := by
  rw [parseRange?, tokeniseRange?_eq, Option.map_map, Text.byteSize_toList]
  rfl

theorem Document.parseRange?_whole (source : String) :
    parseRange? source ⟨0, source.utf8ByteSize⟩ = some (parse source) := by
  have hslice : Text.slice? source.toList 0 (Text.byteSize source.toList) = some source.toList :=
    Text.slice?_eq_some.2 ⟨[], [], by simp, rfl, Nat.zero_add _⟩
  rw [parseRange?_eq, ← Text.byteSize_toList]
  simp only [Span.cut, Nat.min_self, Nat.zero_min, hslice]
  rfl

/-- The tokens of a range that is cut between characters tile it: its bytes are read to the end, and
every token can be cut out of the source. -/
theorem tokensTile_tokeniseRange? {source : String} {range : Span}
    (hstart : Text.IsBoundary source.toList (range.cut (Text.byteSize source.toList)).start)
    (hstop : Text.IsBoundary source.toList (range.cut (Text.byteSize source.toList)).stop) :
    ∃ tokens, extentsOfRange? source range = some (tokens.map Token.extent) ∧
      tokeniseRange? source range = some tokens ∧
      TokensTile source.toList (range.cut (Text.byteSize source.toList)) tokens := by
  obtain ⟨text, htext⟩ := Text.exists_slice? hstart hstop (Nat.min_le_right _ _)
  have htiles := tokensTile_tokensFrom htext
  rw [Text.byteSize_toList] at htext
  obtain ⟨hextents, htokens⟩ := Tokeniser.ofRange?_reads htext
  rw [← Text.byteSize_toList] at hextents htokens
  exact ⟨_, hextents, htokens, htiles⟩

theorem tokensTile_openString :
    Text.IsBoundary "é <- '€\\".toList 2 ∧ Text.IsBoundary "é <- '€\\".toList 11 ∧
      ∃ tokens, extentsOfRange? "é <- '€\\" ⟨2, 40⟩ = some (tokens.map Token.extent) ∧
        tokeniseRange? "é <- '€\\" ⟨2, 40⟩ = some tokens ∧
        TokensTile "é <- '€\\".toList ⟨2, 11⟩ tokens := by
  have hstart : Text.IsBoundary "é <- '€\\".toList 2 := ⟨['é'], " <- '€\\".toList, rfl, rfl⟩
  have hstop : Text.IsBoundary "é <- '€\\".toList 11 := ⟨"é <- '€\\".toList, [], rfl, rfl⟩
  exact ⟨hstart, hstop, @tokensTile_tokeniseRange? _ ⟨2, 40⟩ hstart hstop⟩

end LenientR
