import LenientR.Proofs.Scanning.Kinds
import Mathlib.Data.List.Nodup

/-!
# How kinds of fixed length are written

A token of a kind of fixed length is a symbol or a reserved word from the tables, a newline or the
end of the file (`mem_fixedSpellings`). All these kinds but one have a single spelling, so all their
tokens have the same text (`chars_eq_of_hasFixedLength`). The exception is `caret`, which is said to
have a fixed length and is written with one character or with two (`length_eq_or_carets`).
-/

namespace LenientR

def fixedSpellings : List (List Char × Kind) :=
  Symbol.table ++ Word.reserved.map (fun entry => (entry.1.toList, entry.2)) ++
    [(['\n'], .endOfLine), ([], .endOfFile)]

namespace Lexeme

/-- If its kind has a fixed length, a lexeme at the front of a text is written as the tables say. -/
def Spelled (lexeme : Lexeme) (chars : List Char) : Prop :=
  lexeme.kind.hasFixedLength = true → (chars.take lexeme.size, lexeme.kind) ∈ fixedSpellings

theorem spelled_of_kind {lexeme : Lexeme} (h : lexeme.kind.hasFixedLength = false)
    (chars : List Char) : lexeme.Spelled chars :=
  fun hf => absurd hf (Bool.eq_false_iff.1 h)

theorem quotation_spelled {kind : Kind} (h : kind.hasFixedLength = false) (quote : Char)
    (rest chars : List Char) : (quotation kind quote rest).Spelled chars := by
  rcases quotation_kind kind quote rest with hk | hk
  · exact spelled_of_kind (by rw [hk, h]) chars
  · exact spelled_of_kind (by rw [hk]; rfl) chars

theorem rawQuotation_spelled (opening : Quoted.RawOpening) (rest chars : List Char) :
    (rawQuotation opening rest).Spelled chars := by
  rcases rawQuotation_kind opening rest with hk | hk <;>
    exact spelled_of_kind (by rw [hk]; rfl) chars

theorem numeral_spelled (chars : List Char) : (numeral chars).Spelled chars := by
  rcases numeral_kind chars with hk | hk <;> exact spelled_of_kind (by rw [hk]; rfl) chars

theorem special_spelled (rest chars : List Char) : (special rest).Spelled chars := by
  rcases special_kind rest with hk | hk <;> exact spelled_of_kind (by rw [hk]; rfl) chars

theorem word_spelled (chars : List Char) : (word chars).Spelled chars := by
  intro hf
  have htake : chars.take (word chars).size = chars.takeWhile Word.isPart :=
    (List.prefix_iff_eq_take.1 (List.takeWhile_prefix _)).symm
  rw [htake]
  simp only [word, Word.kindOf] at hf ⊢
  cases hl : Word.reserved.lookup (String.ofList (chars.takeWhile Word.isPart)) with
  | none =>
    rw [hl] at hf
    cases hf
  | some kind =>
    obtain ⟨before, after, he, _⟩ := List.lookup_eq_some_iff.1 hl
    have hm : (String.ofList (chars.takeWhile Word.isPart), kind) ∈ Word.reserved := by simp [he]
    have hentry := List.mem_map_of_mem (f := fun entry => (entry.1.toList, entry.2)) hm
    rw [String.toList_ofList] at hentry
    exact List.mem_append_left _ (List.mem_append_right _ hentry)

theorem symbol_spelled (chars : List Char) : (symbol chars).Spelled chars := by
  unfold symbol
  split
  · rename_i spelling kind h
    obtain ⟨hm, hp, _⟩ := Symbol.match?_eq_some h
    intro _
    rw [← List.prefix_iff_eq_take.1 hp]
    exact List.mem_append_left _ (List.mem_append_left _ hm)
  · exact spelled_of_kind rfl chars

end Lexeme

theorem plainLexeme_spelled (c : Char) (rest : List Char) :
    (plainLexeme c rest).Spelled (c :: rest) := by
  unfold plainLexeme
  split
  · rename_i h
    subst h
    exact fun _ => List.mem_append_right _ List.mem_cons_self
  split
  · exact Lexeme.spelled_of_kind rfl _
  split
  · exact Lexeme.quotation_spelled rfl c rest _
  split
  · exact Lexeme.quotation_spelled rfl c rest _
  split
  · exact Lexeme.numeral_spelled _
  split
  · exact Lexeme.word_spelled _
  split
  · exact Lexeme.special_spelled rest _
  · exact Lexeme.symbol_spelled _

theorem lexeme_spelled (c : Char) (rest : List Char) : (lexeme c rest).Spelled (c :: rest) := by
  unfold lexeme
  split
  · exact Lexeme.rawQuotation_spelled _ rest _
  · exact plainLexeme_spelled c rest

variable {position other : Nat} {text more : List Char} {a b : Token}

theorem mem_fixedSpellings (h : a ∈ tokensFrom position text)
    (hf : a.kind.hasFixedLength = true) : (a.chars, a.kind) ∈ fixedSpellings := by
  induction text using scanning_induction generalizing position with
  | nil =>
    rw [tokensFrom_nil, List.mem_singleton] at h
    subst h
    exact List.mem_append_right _ (List.mem_cons_of_mem _ List.mem_cons_self)
  | blank c rest hb ih =>
    rw [tokensFrom_blank hb] at h
    exact ih h
  | token c rest hb ih =>
    rw [tokensFrom_cons hb] at h
    rcases List.mem_cons.1 h with rfl | h
    · exact lexeme_spelled c rest hf
    · exact ih h

/-- Of the kinds of fixed length only `caret` has a second spelling. -/
theorem nodup_kinds_fixedSpellings :
    ((fixedSpellings.filter fun entry => entry.2.hasFixedLength && entry.2 ≠ .caret).map
      Prod.snd).Nodup := by
  decide +kernel

/-- Two tokens of the same kind, if it has a fixed length and is not `caret`, have the same text,
whatever texts they are scanned from. -/
theorem chars_eq_of_hasFixedLength (ha : a ∈ tokensFrom position text)
    (hb : b ∈ tokensFrom other more) (hk : a.kind = b.kind) (hf : a.kind.hasFixedLength = true)
    (hc : a.kind ≠ .caret) : a.chars = b.chars := by
  let oneSpelling : List Char × Kind → Bool :=
    fun entry => entry.2.hasFixedLength && entry.2 ≠ .caret
  have hone : ∀ kind chars, kind = a.kind → oneSpelling (chars, kind) = true := by
    rintro _ _ rfl
    simp [oneSpelling, hf, hc]
  have hma : (a.chars, a.kind) ∈ fixedSpellings.filter oneSpelling :=
    List.mem_filter.2 ⟨mem_fixedSpellings ha hf, hone _ _ rfl⟩
  have hmb : (b.chars, b.kind) ∈ fixedSpellings.filter oneSpelling :=
    List.mem_filter.2 ⟨mem_fixedSpellings hb (hk ▸ hf), hone _ _ hk.symm⟩
  have he := List.inj_on_of_nodup_map nodup_kinds_fixedSpellings hma hmb hk
  exact congrArg Prod.fst he

theorem length_eq_of_hasFixedLength (ha : a ∈ tokensFrom position text)
    (hb : b ∈ tokensFrom other more) (hk : a.kind = b.kind) (hf : a.kind.hasFixedLength = true)
    (hc : a.kind ≠ .caret) : a.length = b.length :=
  congrArg Text.byteSize (chars_eq_of_hasFixedLength ha hb hk hf hc)

theorem caret_spellings (ha : a ∈ tokensFrom position text) (hk : a.kind = .caret) :
    a.chars = ['^'] ∨ a.chars = ['*', '*'] := by
  have hcaret : ∀ entry ∈ fixedSpellings, entry.2 = .caret →
      entry.1 = ['^'] ∨ entry.1 = ['*', '*'] := by
    decide +kernel
  exact hcaret _ (mem_fixedSpellings ha (by rw [hk]; rfl)) hk

/-- Two tokens of the same kind, if it has a fixed length, have the same length, unless they are the
two spellings of `caret`. -/
theorem length_eq_or_carets (ha : a ∈ tokensFrom position text) (hb : b ∈ tokensFrom other more)
    (hk : a.kind = b.kind) (hf : a.kind.hasFixedLength = true) :
    a.length = b.length ∨
      (a.kind = .caret ∧ (a.chars = ['^'] ∧ b.chars = ['*', '*'] ∨
        a.chars = ['*', '*'] ∧ b.chars = ['^'])) := by
  by_cases hc : a.kind = .caret
  · have hlength (chars : List Char) (hsame : a.chars = chars) (hsame' : b.chars = chars) :
        a.length = b.length := by
      rw [Token.length, Token.length, hsame, hsame']
    rcases caret_spellings ha hc with h | h <;>
      rcases caret_spellings hb (hk ▸ hc) with h' | h'
    · exact .inl (hlength _ h h')
    · exact .inr ⟨hc, .inl ⟨h, h'⟩⟩
    · exact .inr ⟨hc, .inr ⟨h, h'⟩⟩
    · exact .inl (hlength _ h h')
  · exact .inl (length_eq_of_hasFixedLength ha hb hk hf hc)

/-- Both spellings are scanned, so tokens of a kind that is said to have a fixed length may differ
in length. -/
theorem caret_lengths_differ :
    ∃ a ∈ tokensFrom 0 "^ **".toList, ∃ b ∈ tokensFrom 0 "^ **".toList,
      a.kind = b.kind ∧ a.kind.hasFixedLength = true ∧ a.length ≠ b.length ∧
        a.kind = .caret ∧ (a.chars = ['^'] ∧ b.chars = ['*', '*'] ∨
          a.chars = ['*', '*'] ∧ b.chars = ['^']) := by
  have ha : ⟨.caret, 0, ['^']⟩ ∈ tokensFrom 0 "^ **".toList := by decide +kernel
  have hb : ⟨.caret, 2, ['*', '*']⟩ ∈ tokensFrom 0 "^ **".toList := by decide +kernel
  have hlength : Token.length ⟨.caret, 0, ['^']⟩ ≠ Token.length ⟨.caret, 2, ['*', '*']⟩ := by
    decide
  exact ⟨_, ha, _, hb, rfl, rfl, hlength, (length_eq_or_carets ha hb rfl rfl).resolve_left hlength⟩

end LenientR
