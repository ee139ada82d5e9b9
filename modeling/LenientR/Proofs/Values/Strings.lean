import LenientR.Proofs.Values.Literals

/-!
# Strings as written

`Delimits opening text closing` says how a string is written: a text between plain quotes that are
each escaped in it, or a raw text up to the first occurrence of what closes it. Whatever is written
so is scanned as one string with that text for its value, and every string of every source is
written so (`strings_written`). The scanner finds the end and `contents` takes the delimiters off;
neither knows of the other.
-/

namespace LenientR

namespace Quoted

-- ---------------------------------------------------------------------------
-- Plain quotations
-- ---------------------------------------------------------------------------

/-- No quote of the text closes it: each has a backslash to itself, and so has no other use. -/
inductive Escaped (quote : Char) : List Char → Prop
  | nil : Escaped quote []
  | pair (c : Char) {rest : List Char} (h : Escaped quote rest) : Escaped quote ('\\' :: c :: rest)
  | single {c : Char} {rest : List Char} (hb : c ≠ '\\') (hq : c ≠ quote)
      (h : Escaped quote rest) : Escaped quote (c :: rest)

def escape (quote : Char) (text : List Char) : List Char :=
  text.flatMap fun c => if c = '\\' ∨ c = quote then ['\\', c] else [c]

theorem escaped_escape (quote : Char) (text : List Char) : Escaped quote (escape quote text) := by
  induction text with
  | nil => exact .nil
  | cons c rest ih =>
    rw [escape, List.flatMap_cons]
    split
    · exact .pair c ih
    · rename_i h
      obtain ⟨hb, hq⟩ := not_or.1 h
      exact .single hb hq ih

section
variable {quote : Char} {chars text : List Char} {n : Nat}

theorem closing?_append (hq : quote ≠ '\\') (h : Escaped quote text) (more : List Char) :
    closing? quote (text ++ quote :: more) = some (text.length + 1) := by
  induction h with
  | nil =>
    rw [List.nil_append, closing?.eq_def]
    simp [hq]
  | pair c _ ih =>
    rw [List.cons_append, List.cons_append, closing?, if_pos rfl, ih]
    rfl
  | single hb hc _ ih =>
    rw [List.cons_append, closing?.eq_def]
    simp [hb, hc, ih]

theorem exists_escaped (h : closing? quote chars = some n) :
    ∃ text more, chars = text ++ quote :: more ∧ n = text.length + 1 ∧ Escaped quote text := by
  fun_induction closing? quote chars generalizing n with
  | case1 => cases h
  | case2 => cases h
  | case3 c after ih =>
    obtain ⟨k, hk, rfl⟩ := Option.map_eq_some_iff.1 h
    obtain ⟨text, more, rfl, rfl, he⟩ := ih hk
    exact ⟨'\\' :: c :: text, more, rfl, rfl, he.pair c⟩
  | case4 rest hb =>
    obtain rfl := Option.some.inj h
    exact ⟨[], rest, rfl, rfl, .nil⟩
  | case5 c rest hb hq ih =>
    obtain ⟨k, hk, rfl⟩ := Option.map_eq_some_iff.1 h
    obtain ⟨text, more, rfl, rfl, he⟩ := ih hk
    exact ⟨c :: text, more, rfl, rfl, he.single hb hq⟩

end

-- ---------------------------------------------------------------------------
-- Raw quotations
-- ---------------------------------------------------------------------------

section
variable {terminator text chars : List Char} {n : Nat}

theorem exists_through (ht : terminator ≠ []) (h : through? terminator chars = some n) :
    ∃ text more, chars = text ++ terminator ++ more ∧ n = text.length + terminator.length ∧
      ¬ terminator <:+: text := by
  fun_induction through? terminator chars generalizing n with
  | case1 => cases h
  | case2 c rest hp =>
    obtain rfl := Option.some.inj h
    obtain ⟨more, hmore⟩ := List.isPrefixOf_iff_prefix.1 hp
    exact ⟨[], more, hmore.symm, (Nat.zero_add _).symm, fun hn => ht (List.infix_nil.1 hn)⟩
  | case3 c rest hp ih =>
    obtain ⟨k, hk, rfl⟩ := Option.map_eq_some_iff.1 h
    obtain ⟨text, more, rfl, rfl, hn⟩ := ih hk
    refine ⟨c :: text, more, rfl, by rw [List.length_cons]; omega, ?_⟩
    intro hinfix
    cases List.infix_cons_iff.1 hinfix with
    | inl hfront =>
      have hlong : c :: text <+: c :: (text ++ terminator ++ more) := by simp
      exact hp (List.isPrefixOf_iff_prefix.2 (hfront.trans hlong))
    | inr hrest => exact hn hrest

/-- A terminator that starts with a character it has nowhere else is found right after a text it
does not occur in: no end of the text goes on into it. -/
theorem through?_append {first : Char} {tail : List Char} (hf : first ∉ tail)
    (h : ¬ first :: tail <:+: text) (more : List Char) :
    through? (first :: tail) (text ++ (first :: tail) ++ more) =
      some (text.length + (tail.length + 1)) := by
  induction text with
  | nil =>
    rw [List.nil_append, List.cons_append, through?, if_pos (by simp)]
    simp
  | cons c rest ih =>
    obtain ⟨hfront, hinfix⟩ := not_or.1 (mt List.infix_cons_iff.2 h)
    rw [List.cons_append, List.cons_append, through?, if_neg, ih hinfix]
    · simp only [Option.map_some, List.length_cons, Option.some.injEq]
      omega
    · -- one that starts here would have its first character again where the real one starts
      intro hp
      have hp := List.isPrefixOf_iff_prefix.1 hp
      have hwithin : c :: rest <+: c :: (rest ++ first :: tail ++ more) := by simp
      cases List.prefix_or_prefix_of_prefix hp hwithin with
      | inl hshort => exact hfront hshort
      | inr hlong =>
        obtain ⟨behind, hbehind⟩ := hlong
        cases behind with
        | nil =>
          rw [List.append_nil] at hbehind
          exact hfront (hbehind ▸ List.prefix_refl _)
        | cons d behind =>
          have hbehindPrefix :
              c :: rest ++ d :: behind <+: c :: rest ++ first :: (tail ++ more) := by
            rw [hbehind]
            simpa using hp
          have hd := (List.prefix_append_right_inj _).1 hbehindPrefix
          rw [← (List.cons_prefix_cons.1 hd).1, ← (List.cons.inj hbehind).2] at hf
          exact hf (by simp)

end

-- ---------------------------------------------------------------------------
-- Both
-- ---------------------------------------------------------------------------

/-- How a string is written: what it opens with, its text, and what closes it. -/
inductive Delimits : List Char → List Char → List Char → Prop
  | plain {quote : Char} {text : List Char} (hq : quote = '\x22' ∨ quote = '\x27')
      (h : Escaped quote text) : Delimits [quote] text [quote]
  | raw {letter : Char} {opening : RawOpening} {text : List Char}
      (hl : letter = 'r' ∨ letter = 'R') (ho : opening.Opens)
      (h : ¬ opening.terminator <:+: text) :
      Delimits (letter :: opening.chars) text opening.terminator

variable {opening : RawOpening}

theorem RawOpening.Opens.closingBracket_notMem (h : opening.Opens) :
    closingBracket opening.bracket ∉ List.replicate opening.dashes '-' ++ [opening.quote] := by
  obtain ⟨quote, dashes, bracket⟩ := opening
  obtain ⟨hq, hb⟩ := h
  dsimp only at hq hb ⊢
  rcases hb with rfl | rfl | rfl <;> rcases hq with rfl | rfl <;> simp [closingBracket]

theorem RawOpening.through?_terminator (ho : opening.Opens) {text : List Char}
    (h : ¬ opening.terminator <:+: text) (more : List Char) :
    through? opening.terminator (text ++ opening.terminator ++ more) =
      some (text.length + opening.terminator.length) := by
  rw [RawOpening.terminator] at h ⊢
  exact through?_append ho.closingBracket_notMem h more

/-- What is written is read off again: the two counts of what to take off are those of the
delimiters. -/
theorem contents_append {before text after : List Char} (h : Delimits before text after) :
    contents (before ++ text ++ after) = text := by
  have hcut (trimBefore trimAfter : Nat) (hb : trimBefore = before.length)
      (ha : trimAfter = after.length) :
      ((before ++ text ++ after).take ((before ++ text ++ after).length - trimAfter)).drop
        trimBefore = text := by
    subst hb ha
    have hlength : (before ++ text ++ after).length - after.length = (before ++ text).length := by
      rw [List.length_append, Nat.add_sub_cancel]
    rw [hlength, List.take_left' rfl, List.drop_left' rfl]
  cases h with
  | @plain quote text hq h =>
    have hopening : openingLength ([quote] ++ text ++ [quote]) = 1 := by
      rcases hq with rfl | rfl <;> rfl
    rw [contents, hopening]
    exact hcut 1 1 rfl rfl
  | @raw letter opening text hl ho h =>
    obtain ⟨quote, dashes, bracket⟩ := opening
    have hopening : openingLength
        (letter :: RawOpening.chars ⟨quote, dashes, bracket⟩ ++ text ++
          RawOpening.terminator ⟨quote, dashes, bracket⟩) = 3 + dashes := by
      have hne : bracket ≠ '-' := by
        rintro rfl
        simp [RawOpening.Opens] at ho
      have hletter : (letter = 'r' || letter = 'R') = true := by simpa using hl
      simp only [RawOpening.chars, List.cons_append, List.append_assoc, openingLength, hletter,
        if_true, List.drop_succ_cons, List.drop_zero, List.nil_append]
      rw [List.takeWhile_append_of_pos (by simp), List.takeWhile_cons_of_neg (by simpa using hne)]
      simp
    rw [contents, hopening, if_neg (by omega)]
    refine hcut _ _ ?_ ?_
    · simp [RawOpening.chars]
      omega
    · simp [RawOpening.terminator]
      omega

end Quoted

-- ---------------------------------------------------------------------------
-- Scanning
-- ---------------------------------------------------------------------------

section
variable {before text after : List Char}

open Quoted in
theorem lexeme_of_delimits (h : Delimits before text after) :
    ∃ c rest, before ++ text ++ after = c :: rest ∧ isBlank c = false ∧
      lexeme c rest = ⟨.string, rest.length + 1⟩ := by
  cases h with
  | @plain quote text hq h =>
    have hlexeme : lexeme quote (text ++ [quote]) =
        .quotation .string quote (text ++ [quote]) := by
      rcases hq with rfl | rfl <;> rfl
    have hblank : isBlank quote = false := by
      rcases hq with rfl | rfl <;> rfl
    have hslash : quote ≠ '\\' := by
      rcases hq with rfl | rfl <;> decide
    refine ⟨quote, text ++ [quote], rfl, hblank, ?_⟩
    rw [hlexeme, Lexeme.quotation, closing?_append hslash h]
    simp
  | @raw letter opening text hl ho h =>
    let rest := opening.chars ++ (text ++ opening.terminator)
    have hopening : rawOpening? letter rest = some opening := by
      rw [rawOpening?, if_pos (by simpa using hl)]
      exact RawOpening.read?_eq_some_iff.2 ⟨ho, List.prefix_append _ _⟩
    have hblank : isBlank letter = false := by
      rcases hl with rfl | rfl <;> rfl
    have hend := RawOpening.through?_terminator ho h []
    rw [List.append_nil] at hend
    refine ⟨letter, rest, by simp [rest], hblank, ?_⟩
    rw [lexeme, hopening]
    dsimp only
    rw [Lexeme.rawQuotation, List.drop_left' rfl, hend]
    simp [rest]

open Quoted in
theorem escaped_of_quotation {c : Char} {rest : List Char}
    (h : Lexeme.quotation .string c rest = ⟨.string, rest.length + 1⟩) :
    ∃ text, Escaped c text ∧ rest = text ++ [c] := by
  unfold Lexeme.quotation at h
  split at h
  · rename_i size hsize
    have hsize' := congrArg Lexeme.size h
    obtain ⟨text, more, rfl, rfl, he⟩ := exists_escaped hsize
    have hmore : more = [] := by
      simp only [List.length_append, List.length_cons] at hsize'
      exact List.length_eq_zero_iff.1 (by omega)
    exact ⟨text, he, by rw [hmore]⟩
  · cases h

open Quoted in
theorem not_infix_of_rawQuotation {opening : RawOpening} {rest : List Char}
    (h : Lexeme.rawQuotation opening (opening.chars ++ rest) =
      ⟨.string, (opening.chars ++ rest).length + 1⟩) :
    ∃ text, ¬ opening.terminator <:+: text ∧ rest = text ++ opening.terminator := by
  unfold Lexeme.rawQuotation at h
  rw [List.drop_left' rfl] at h
  split at h
  · rename_i size hsize
    have hsize' := congrArg Lexeme.size h
    obtain ⟨text, more, rfl, rfl, hn⟩ := exists_through (by simp [RawOpening.terminator]) hsize
    have hmore : more = [] := by
      simp only [List.length_append] at hsize'
      exact List.length_eq_zero_iff.1 (by omega)
    exact ⟨text, hn, by rw [hmore, List.append_nil]⟩
  · cases h

open Quoted in
/-- A lexeme that is a string, and all of the characters at hand, is written as one. -/
theorem delimits_of_lexeme {c : Char} {rest : List Char}
    (h : lexeme c rest = ⟨.string, rest.length + 1⟩) :
    ∃ before text after, Delimits before text after ∧ c :: rest = before ++ text ++ after := by
  cases lexeme_of_kind_string (congrArg Lexeme.kind h) with
  | inl hraw =>
    obtain ⟨opening, hopening, hraw⟩ := hraw
    unfold rawOpening? at hopening
    split at hopening
    · rename_i hl
      obtain ⟨ho, behind, rfl⟩ := RawOpening.read?_eq_some_iff.1 hopening
      obtain ⟨text, hn, rfl⟩ := not_infix_of_rawQuotation (hraw.symm.trans h)
      exact ⟨_, text, _, .raw (by simpa using hl) ho hn, by simp⟩
    · cases hopening
  | inr hplain =>
    obtain ⟨hq, hplain⟩ := hplain
    obtain ⟨text, he, rfl⟩ := escaped_of_quotation (hplain.symm.trans h)
    exact ⟨[c], text, [c], .plain hq he, rfl⟩

end

-- ---------------------------------------------------------------------------
-- Sources
-- ---------------------------------------------------------------------------

open Quoted in
theorem readsAs_of_delimits {before text after : List Char} (h : Delimits before text after) :
    ReadsAs .string (before ++ text ++ after) (.string (String.ofList text)) := by
  obtain ⟨c, rest, hc, hb, hl⟩ := lexeme_of_delimits h
  have hspelled : Token.IsSpelled ⟨.string, 0, before ++ text ++ after⟩ :=
    Token.isSpelled_of_lexeme hc hb hl
  have hvalue : Token.literalValue ⟨.string, 0, before ++ text ++ after⟩ =
      .string (String.ofList text) :=
    congrArg (fun text => LiteralValue.string (String.ofList text)) (contents_append h)
  rw [← hvalue]
  exact readsAs_of_isSpelled hspelled (.inl rfl)

/-- How a string token is written, and that its value is cut out between its delimiters. -/
structure Token.WrittenString (token : Token) (before text after : List Char) : Prop where
  delimits : Quoted.Delimits before text after
  chars : token.chars = before ++ text ++ after
  value : token.literalValue = .string (String.ofList text)
  /-- In bytes, as the delimiters are counted off the text of the token. -/
  sliced : Text.slice? token.chars (Text.byteSize before)
    (token.length - Text.byteSize after) = some text

open Quoted in
theorem Token.exists_writtenString {token : Token} (h : token.IsSpelled)
    (hk : token.kind = .string) :
    ∃ before text after, token.WrittenString before text after := by
  obtain ⟨c, rest, hc, _, hl⟩ := h.lexeme
  rw [hk] at hl
  obtain ⟨before, text, after, hd, he⟩ := delimits_of_lexeme hl
  refine ⟨before, text, after, hd, hc.trans he, ?_, ?_⟩
  · rw [literalValue, hk, hc, he]
    exact congrArg (fun text => LiteralValue.string (String.ofList text)) (contents_append hd)
  · refine Text.slice?_eq_some.2 ⟨before, after, hc.trans he, rfl, ?_⟩
    rw [length, hc, he, Text.byteSize_append, Nat.add_sub_cancel, Text.byteSize_append]

open Quoted in
/-- Raw text that does not contain what closes it, and any text with its quotes escaped, is read
back from between its delimiters, and so is the text of every string of every source. -/
theorem strings_written :
    (∀ (letter : Char) (opening : RawOpening) (text : List Char), letter = 'r' ∨ letter = 'R' →
      opening.Opens → ¬ opening.terminator <:+: text →
        ReadsAs .string (letter :: opening.chars ++ text ++ opening.terminator)
          (.string (String.ofList text))) ∧
    (∀ (quote : Char) (text : List Char), quote = '\x22' ∨ quote = '\x27' →
      ReadsAs .string ([quote] ++ escape quote text ++ [quote])
        (.string (String.ofList (escape quote text)))) ∧
    ∀ (source : String), ∀ token ∈ tokenise source, token.kind = .string →
      ∃ before text after, token.WrittenString before text after := by
  refine ⟨?_, ?_, ?_⟩
  · intro letter opening text hl ho hn
    exact readsAs_of_delimits (.raw hl ho hn)
  · intro quote text hq
    exact readsAs_of_delimits (.plain hq (escaped_escape quote text))
  · intro source token hm hk
    exact Token.exists_writtenString (isSpelled_of_mem_tokensFrom hm (by rw [hk]; decide)) hk

theorem strings_written_partly :
    ReadsAs .string "R'-[a]-]]-'".toList (.string "a]-]") ∧
      ReadsAs .string "\"\\\"\\\\é\"".toList (.string "\\\"\\\\é") ∧
        (⟨.string, 2, "'é\n'".toList⟩ : Token) ∈ tokenise "( 'é\n' ]" ∧
          ∃ before text after,
            (⟨.string, 2, "'é\n'".toList⟩ : Token).WrittenString before text after := by
  have hm : (⟨.string, 2, "'é\n'".toList⟩ : Token) ∈ tokenise "( 'é\n' ]" := by decide +kernel
  refine ⟨?_, ?_, hm, ?_⟩
  · exact strings_written.1 'R' ⟨'\x27', 1, '['⟩ "a]-]".toList (.inr rfl)
      ⟨.inr rfl, .inr (.inl rfl)⟩ (by decide)
  · exact strings_written.2.1 '\x22' "\"\\é".toList (.inl rfl)
  · exact strings_written.2.2 _ _ hm rfl

end LenientR
