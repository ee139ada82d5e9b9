import LenientR.Proofs.Scanning.Bytes
import LenientR.Proofs.Scanning.Kinds
import Mathlib.Data.List.Find

/-!
# Reading bytes and reading characters

Each part of the tokeniser finds in the bytes of a source what scanning finds in the text that is
ahead: the same class, and as many bytes as the characters of the lexeme take (`token?_eq`). So the
tokeniser never fails there, and its tokens are those of the text (`extents?_eq`).
-/

namespace LenientR

open Text

theorem take_length_takeWhile (test : Char → Bool) (text : List Char) :
    text.take (text.takeWhile test).length = text.takeWhile test :=
  (List.prefix_iff_eq_take.1 (List.takeWhile_prefix test)).symm

theorem drop_length_takeWhile (test : Char → Bool) (text : List Char) :
    text.drop (text.takeWhile test).length = text.dropWhile test := by
  have h : text.takeWhile test ++ text.drop (text.takeWhile test).length =
      text.takeWhile test ++ text.dropWhile test := by
    rw [List.takeWhile_append_dropWhile]
    conv_lhs => arg 1; rw [← take_length_takeWhile]
    exact List.take_append_drop ..
  exact List.append_cancel_left h

namespace Symbol

/-- No spelling stands in front of a longer one that starts with it. -/
def Graded (entries : List (List Char × Kind)) : Prop :=
  entries.Pairwise fun a b => ¬a.1 <+: b.1

variable {entries others : List (List Char × Kind)} {text : List Char} {a b : List Char × Kind}

/-- So a text starts with no longer spelling than the first one it starts with. -/
theorem Graded.longest (h : Graded entries) (hf : entries.find? (·.1.isPrefixOf text) = some a)
    (hb : b ∈ entries) (hp : b.1 <+: text) : a = b ∨ ¬a.1 <+: b.1 := by
  obtain ⟨_, before, after, rfl, hbefore⟩ := List.find?_eq_some_iff_append.1 hf
  rcases List.mem_append.1 hb with hb | hb
  · have hno := hbefore b hb
    rw [List.isPrefixOf_iff_prefix.2 hp] at hno
    simp at hno
  rcases List.mem_cons.1 hb with rfl | hb
  · exact .inl rfl
  · exact .inr ((List.pairwise_cons.1 (List.pairwise_append.1 h).2.1).1 b hb)

/-- Two tables of the same spellings, each of them graded. -/
structure Reordered (entries others : List (List Char × Kind)) : Prop where
  perm : entries.Perm others
  graded : Graded entries
  gradedOthers : Graded others

theorem Reordered.find?_congr (h : Reordered entries others) (text : List Char) :
    entries.find? (·.1.isPrefixOf text) = others.find? (·.1.isPrefixOf text) := by
  have hprefix {entries : List (List Char × Kind)} {a : List Char × Kind}
      (hf : entries.find? (·.1.isPrefixOf text) = some a) : a ∈ entries ∧ a.1 <+: text :=
    ⟨List.mem_of_find?_eq_some hf, List.isPrefixOf_iff_prefix.1 (by simpa using List.find?_some hf)⟩
  cases hf : entries.find? (·.1.isPrefixOf text) with
  | none =>
    have hnone := List.find?_eq_none.1 hf
    exact (List.find?_eq_none.2 fun entry hm => hnone entry (h.perm.mem_iff.2 hm)).symm
  | some a =>
    obtain ⟨hma, ha⟩ := hprefix hf
    cases hg : others.find? (·.1.isPrefixOf text) with
    | none =>
      exact absurd (List.isPrefixOf_iff_prefix.2 ha)
        (List.find?_eq_none.1 hg a (h.perm.mem_iff.1 hma))
    | some b =>
      obtain ⟨hmb, hb⟩ := hprefix hg
      rcases List.prefix_or_prefix_of_prefix ha hb with hab | hba
      · rw [(h.graded.longest hf (h.perm.mem_iff.2 hmb) hb).resolve_right (absurd hab)]
      · rw [(h.gradedOthers.longest hg (h.perm.mem_iff.1 hma) ha).resolve_right (absurd hba)]

theorem reordered_arms :
    Reordered (Tokeniser.arms.map fun arm => (arm.1.toList, arm.2)) table := by
  have h : (Tokeniser.arms.map fun arm => (arm.1.toList, arm.2)).Perm table ∧
      Graded (Tokeniser.arms.map fun arm => (arm.1.toList, arm.2)) ∧ Graded table := by
    unfold Graded
    decide +kernel
  exact ⟨h.1, h.2.1, h.2.2⟩

theorem ascii_table : ∀ entry ∈ table, ∀ c ∈ entry.1, c.toNat < 128 := by
  have hall : (table.all fun entry => entry.1.all (·.toNat < 128)) = true := by decide +kernel
  intro entry he c hc
  exact of_decide_eq_true (List.all_eq_true.1 (List.all_eq_true.1 hall entry he) c hc)

theorem ascii_arms {arm : String × Kind} (ha : arm ∈ Tokeniser.arms) :
    ∀ c ∈ arm.1.toList, c.toNat < 128 :=
  ascii_table _ (reordered_arms.perm.mem_iff.1 (List.mem_map_of_mem ha))

end Symbol

def Lexeme.measured (found : Lexeme) (text : List Char) : Kind × Nat :=
  (found.kind, byteSize (text.take found.size))

namespace Tokeniser.Ahead

variable {t : Tokeniser} {position : Nat} {text rest : List Char} {c : Char}

-- ---------------------------------------------------------------------------
-- Punctuation
-- ---------------------------------------------------------------------------

theorem find?_arms (h : t.Ahead position text) :
    (arms.find? fun arm => t.hasAll (arm.1.toList.map Char.toUInt8) position).map
      (fun arm => (arm.1.toList, arm.2)) = Symbol.match? text := by
  have hcongr : (arms.find? fun arm => t.hasAll (arm.1.toList.map Char.toUInt8) position) =
      arms.find? fun arm => arm.1.toList.isPrefixOf text :=
    List.find?_congr fun arm hm => h.hasAll_eq (Symbol.ascii_arms hm)
  rw [hcongr, Symbol.match?, ← Symbol.reordered_arms.find?_congr text, List.find?_map]
  rfl

-- ---------------------------------------------------------------------------
-- Quotations
-- ---------------------------------------------------------------------------

/-- Once inside a character outside of ASCII, the search goes on to the next one. -/
theorem closing?_inside {quote : Char} (h : t.Ahead position (c :: rest)) (hc : 128 ≤ c.toNat)
    (hq : quote.toNat < 128) {i : Nat} (hi : i ≤ c.utf8Size) :
    t.closing? quote.toUInt8 (position + i) = t.closing? quote.toUInt8 (position + c.utf8Size) := by
  obtain ⟨n, hn⟩ : ∃ n, i + n = c.utf8Size := ⟨c.utf8Size - i, by omega⟩
  induction n generalizing i with
  | zero => rw [← hn, Nat.add_zero]
  | succ n ih =>
    obtain ⟨byte, hm, hb⟩ := h.byte?_inside (i := i) (by omega)
    have hne {ascii : Char} (ha : ascii.toNat < 128) : byte ≠ ascii.toUInt8 := fun he => by
      rw [(byte_eq_iff hm ha).1 he] at hc
      omega
    rw [closing?_some hb, if_neg (hne (by decide)), if_neg (hne hq), ← ih (i := i + 1) (by omega)
      (by omega), Nat.add_assoc]

theorem closing?_tail {quote : Char} (h : t.Ahead position (c :: rest)) (hq : quote.toNat < 128) :
    t.closing? quote.toUInt8 (position + 1) = t.closing? quote.toUInt8 (position + c.utf8Size) := by
  by_cases hc : c.toNat < 128
  · rw [utf8Size_ascii hc]
  · exact h.closing?_inside (Nat.le_of_not_lt hc) hq c.utf8Size_pos

theorem closing?_eq {quote : Char} (h : t.Ahead position text) (hq : quote.toNat < 128) :
    (t.closing? quote.toUInt8 position).map (· + 1) =
      (Quoted.closing? quote text).map fun n => position + byteSize (text.take n) := by
  fun_induction Quoted.closing? quote text generalizing position with
  | case1 => rw [closing?_none h.byte?_nil]; rfl
  | case2 =>
    have hend : t.byte? (position + 2) = none := by rw [h.byte?]; rfl
    rw [closing?_some (h.byte?_ascii (by decide)), if_pos rfl, closing?_none hend]
    rfl
  | case3 d after ih =>
    have hd : t.Ahead (position + 1) (d :: after) := h.tail
    rw [closing?_some (h.byte?_ascii (by decide)), if_pos rfl, ← Nat.add_assoc position 1 1,
      hd.closing?_tail hq, ih hd.tail, Option.map_map]
    have hsize : '\\'.utf8Size = 1 := rfl
    congr
    funext n
    simp [hsize, Nat.add_assoc]
  | case4 rest hb =>
    obtain ⟨byte, hm, hbyte⟩ := h.byte?_cons
    rw [closing?_some hbyte, if_neg (mt (byte_eq_iff hm (by decide)).1 hb),
      if_pos ((byte_eq_iff hm hq).2 rfl)]
    simp [utf8Size_ascii hq]
  | case5 c rest hb hq' ih =>
    obtain ⟨byte, hm, hbyte⟩ := h.byte?_cons
    rw [closing?_some hbyte, if_neg (mt (byte_eq_iff hm (by decide)).1 hb),
      if_neg (mt (byte_eq_iff hm hq).1 hq'), h.closing?_tail hq, ih h.tail, Option.map_map]
    congr
    funext n
    simp [Nat.add_assoc]

theorem quotation_eq {kind : Kind} {quote : Char} (h : t.Ahead position (c :: rest))
    (hc : c.toNat < 128) (hq : quote.toNat < 128) :
    t.quotation kind quote.toUInt8 position =
      (Lexeme.quotation kind quote rest).measured (c :: rest) := by
  have hclosing := (h.tail_ascii hc).closing?_eq hq
  have hstop := h.stop_eq
  unfold quotation Lexeme.quotation
  cases hf : Quoted.closing? quote rest with
  | none =>
    rw [hf] at hclosing
    rw [Option.map_eq_none_iff.1 hclosing]
    simp only [Lexeme.measured, List.take_succ_cons, List.take_length]
    rw [← hstop, Nat.add_sub_cancel_left]
  | some size =>
    rw [hf, Option.map_some] at hclosing
    obtain ⟨found, hfound, hsize⟩ := Option.map_eq_some_iff.1 hclosing
    rw [hfound]
    simp only [Lexeme.measured, List.take_succ_cons, byteSize_cons, utf8Size_ascii hc]
    congr 1
    omega

-- ---------------------------------------------------------------------------
-- Raw quotations
-- ---------------------------------------------------------------------------

theorem dropWhile (h : t.Ahead position text) (test : Char → Bool) :
    t.Ahead (position + byteSize (text.takeWhile test)) (text.dropWhile test) :=
  append (text.takeWhile test) (by rwa [List.takeWhile_append_dropWhile])

theorem countWhile_dashes (h : t.Ahead position text) :
    t.countWhile position (· = '-'.toUInt8) = (text.takeWhile (· = '-')).length ∧
      t.Ahead (position + (text.takeWhile (· = '-')).length)
        (text.drop (text.takeWhile (· = '-')).length) := by
  have hsize : byteSize (text.takeWhile (· = '-')) = (text.takeWhile (· = '-')).length :=
    byteSize_ascii fun c hc => by
      rw [of_decide_eq_true (List.all_eq_true.1 List.all_takeWhile c hc)]
      decide
  rw [drop_length_takeWhile, ← hsize]
  exact ⟨h.countWhile_eq (reads_eq _ (by decide)), h.dropWhile _⟩

theorem ascii_of_quote {quote : Char} (h : (quote = '\x22' || quote = '\x27') = true) :
    quote.toNat < 128 := by
  rw [Bool.or_eq_true, decide_eq_true_eq, decide_eq_true_eq] at h
  rcases h with rfl | rfl <;> decide

theorem startsRaw_eq (h : t.Ahead position (c :: rest)) (hc : c.toNat < 128) :
    t.startsRaw position = (Quoted.RawOpening.read? rest).isSome := by
  have hquote := (h.tail_ascii hc).any_byte? reads_isQuote
  unfold startsRaw Quoted.RawOpening.read?
  rw [hquote]
  cases rest with
  | nil => rfl
  | cons quote after =>
    dsimp only [List.head?_cons, Option.any_some]
    split
    · rename_i hq
      have hafter : t.Ahead (position + 2) after :=
        (h.tail_ascii hc).tail_ascii (ascii_of_quote hq)
      obtain ⟨hcount, hbracket⟩ := hafter.countWhile_dashes
      rw [hcount, hq, Bool.true_and, hbracket.has_eq (by decide), hbracket.has_eq (by decide),
        hbracket.has_eq (by decide)]
      split
      · rename_i hd
        rw [hd]
        rfl
      · rename_i bracket tail hd
        rw [hd]
        dsimp only [List.head?_cons, Option.any_some]
        split <;> simp_all
    · simp_all

theorem rawOpening_bytes {opening : Quoted.RawOpening} (h : t.Ahead position (c :: rest))
    (hc : c.toNat < 128) (ho : Quoted.RawOpening.read? rest = some opening) :
    t.byte? (position + 1) = some opening.quote.toUInt8 ∧
      t.countWhile (position + 2) (· = '-'.toUInt8) = opening.dashes ∧
      t.byte? (position + 2 + opening.dashes) = some opening.bracket.toUInt8 ∧
      t.Ahead (position + 2 + opening.dashes + 1) (rest.drop opening.chars.length) ∧
      opening.quote.toNat < 128 ∧ opening.bracket ∈ ['(', '[', '\x7b'] := by
  have hrest := h.tail_ascii hc
  unfold Quoted.RawOpening.read? at ho
  split at ho
  · simp at ho
  rename_i quote after
  split at ho
  · rename_i hq
    dsimp only at ho
    split at ho
    · simp at ho
    rename_i bracket tail hd
    split at ho
    · rename_i hb
      obtain rfl := Option.some.inj ho
      have hafter : t.Ahead (position + 2) after := hrest.tail_ascii (ascii_of_quote hq)
      obtain ⟨hcount, hbracket⟩ := hafter.countWhile_dashes
      rw [hd] at hbracket
      have hm : bracket ∈ ['(', '[', '\x7b'] := by simpa [or_assoc] using hb
      have hb : bracket.toNat < 128 := by
        simp only [List.mem_cons, List.not_mem_nil, or_false] at hm
        rcases hm with rfl | rfl | rfl <;> decide
      refine ⟨hrest.byte?_ascii (ascii_of_quote hq), hcount, hbracket.byte?_ascii hb, ?_,
        ascii_of_quote hq, hm⟩
      have htail := hbracket.tail_ascii hb
      have hdrop : after.drop ((after.takeWhile (· = '-')).length + 1) = tail := by
        rw [← List.drop_drop, hd, List.drop_succ_cons, List.drop_zero]
      simpa [Quoted.RawOpening.chars, hdrop] using htail
    · simp at ho
  · simp at ho

theorem find?_hasAll {word : List Char} (h : t.Ahead position text)
    (hw : ∀ c ∈ word, c.toNat < 128) (hne : word ≠ []) :
    ((List.range' position (t.stop - position)).find? (t.hasAll (word.map Char.toUInt8))).map
        (· + word.length) =
      (Quoted.through? word text).map fun n => position + byteSize (text.take n) := by
  have hrange : t.stop - position = byteSize text := by have := h.stop_eq; omega
  rw [hrange]
  induction text generalizing position with
  | nil => rfl
  | cons c rest ih =>
    have htail := h.tail.stop_eq
    obtain ⟨n, hn⟩ := Nat.exists_eq_add_one_of_ne_zero (Nat.ne_of_gt c.utf8Size_pos)
    rw [Quoted.through?, byteSize_cons, ← List.range'_append_1, List.find?_append]
    split
    · rename_i hp
      obtain ⟨after, ha⟩ := List.isPrefixOf_iff_prefix.1 hp
      rw [hn, List.range'_succ, List.find?_cons_of_pos (by rw [h.hasAll_eq hw, hp]), ← ha]
      simp [byteSize_ascii hw]
    · rename_i hp
      have hnone : (List.range' position c.utf8Size).find? (t.hasAll (word.map Char.toUInt8)) =
          none := by
        obtain ⟨d, word, rfl⟩ := List.exists_cons_of_ne_nil hne
        refine List.find?_eq_none.2 fun i hi => ?_
        obtain ⟨hle, hlt⟩ := List.mem_range'_1.1 hi
        obtain ⟨byte, hm, hb⟩ := h.byte?_inside (i := i - position) (by omega)
        rw [Nat.add_sub_cancel' hle] at hb
        rcases byte_cases hm with ⟨hc, -⟩ | ⟨hc, hbyte⟩
        · rw [utf8Size_ascii hc] at hlt
          rwa [show i = position by omega, h.hasAll_eq hw]
        · have hd := (List.forall_mem_cons.1 hw).1
          have hne : byte ≠ d.toUInt8 := fun he => by
            rw [he, toNat_toUInt8 hd] at hbyte
            omega
          simp [hasAll, hb, hne]
      rw [hnone, Option.none_or, ih h.tail (by omega), Option.map_map]
      congr
      funext n
      simp [Nat.add_assoc]

theorem closingBracket_toUInt8 : ∀ bracket ∈ ['(', '[', '\x7b'],
    (if bracket.toUInt8 = '('.toUInt8 then ')'.toUInt8
      else if bracket.toUInt8 = '['.toUInt8 then ']'.toUInt8 else '\x7d'.toUInt8) =
        (Quoted.closingBracket bracket).toUInt8 ∧
      (Quoted.closingBracket bracket).toNat < 128 := by
  simp only [List.forall_mem_cons, List.not_mem_nil, false_imp_iff, implies_true]
  decide

theorem rawQuotation?_eq {opening : Quoted.RawOpening} (h : t.Ahead position (c :: rest))
    (hc : c.toNat < 128) (ho : Quoted.RawOpening.read? rest = some opening) :
    t.rawQuotation? position =
      some ((Lexeme.rawQuotation opening rest).measured (c :: rest)) := by
  obtain ⟨hquote, hdashes, hbracket, hinside, hq, hb⟩ := h.rawOpening_bytes hc ho
  obtain ⟨hclosing, hascii⟩ := closingBracket_toUInt8 opening.bracket hb
  have hterm : ∀ c ∈ opening.terminator, c.toNat < 128 := by
    intro d hd
    simp only [Quoted.RawOpening.terminator, List.mem_cons, List.mem_append, List.mem_replicate,
      List.not_mem_nil, or_false] at hd
    rcases hd with rfl | ⟨-, rfl⟩ | rfl
    · exact hascii
    · decide
    · exact hq
  have hbytes : opening.terminator.map Char.toUInt8 =
      (Quoted.closingBracket opening.bracket).toUInt8 ::
        (List.replicate opening.dashes '-'.toUInt8 ++ [opening.quote.toUInt8]) := by
    simp [Quoted.RawOpening.terminator]
  have hfind := hinside.find?_hasAll hterm (List.cons_ne_nil _ _)
  have hstop := h.stop_eq
  unfold rawQuotation? Lexeme.rawQuotation
  simp only [hquote, hdashes, hbracket, hclosing, Option.bind_eq_bind, Option.bind_some]
  rw [← hbytes, List.length_map]
  cases hf : Quoted.through? opening.terminator (rest.drop opening.chars.length) with
  | none =>
    rw [hf] at hfind
    rw [Option.map_eq_none_iff.1 hfind]
    simp only [Lexeme.measured, List.take_succ_cons, List.take_length]
    rw [← hstop, Nat.add_sub_cancel_left]
  | some size =>
    rw [hf, Option.map_some] at hfind
    obtain ⟨found, hfound, hsize⟩ := Option.map_eq_some_iff.1 hfind
    rw [hfound]
    simp only [Lexeme.measured, List.take_succ_cons, byteSize_cons, utf8Size_ascii hc]
    have hopening := congrArg byteSize (List.take_append_drop opening.chars.length rest)
    have hrest := (h.tail_ascii hc).stop_eq
    have hafter := hinside.stop_eq
    rw [byteSize_append] at hopening
    rw [hsize, List.take_add, byteSize_append]
    congr 2
    omega

-- ---------------------------------------------------------------------------
-- Numbers
-- ---------------------------------------------------------------------------

theorem takeOne? (test : Char → Bool) (h : t.Ahead position text)
    (ha : ∀ c, test c = true → c.toNat < 128) :
    t.Ahead (if text.head?.any test then position + 1 else position)
      (LenientR.takeOne? test text).2 := by
  cases text with
  | nil => exact h
  | cons c rest =>
    rw [LenientR.takeOne?, List.head?_cons, Option.any_some]
    split
    · exact h.tail_ascii (ha c ‹_›)
    · exact h

theorem ascii_of_eq {a b c : Char} (ha : a.toNat < 128) (hb : b.toNat < 128)
    (h : (c = a || c = b) = true) : c.toNat < 128 := by
  rw [Bool.or_eq_true, decide_eq_true_eq, decide_eq_true_eq] at h
  rcases h with rfl | rfl <;> assumption

theorem countWhile_ne_zero {byteTest : UInt8 → Bool} {test : Char → Bool}
    (h : t.Ahead position text) (ht : Reads byteTest test) :
    decide (t.countWhile position byteTest ≠ 0) = !(text.takeWhile test).isEmpty := by
  rw [h.countWhile_eq ht, Bool.eq_iff_iff, decide_eq_true_eq, ne_eq, byteSize_eq_zero]
  cases text.takeWhile test <;> simp

theorem skip {byteTest : UInt8 → Bool} {test : Char → Bool} (h : t.Ahead position text)
    (ht : Reads byteTest test) :
    t.Ahead (position + t.countWhile position byteTest) (text.dropWhile test) := by
  rw [h.countWhile_eq ht]
  exact h.dropWhile test

theorem exponent_eq {byteMark : UInt8 → Bool} {isMark : Char → Bool} (h : t.Ahead position text)
    (hm : Reads byteMark isMark) (ha : ∀ c, isMark c = true → c.toNat < 128) :
    t.Ahead (t.exponent byteMark position).1 (Exponent.read? isMark text).2 ∧
      (t.exponent byteMark position).2 =
        (Exponent.read? isMark text).1.all fun exponent => !exponent.digits.isEmpty := by
  unfold exponent Exponent.read?
  rw [h.any_byte? hm]
  cases text with
  | nil => exact ⟨h, rfl⟩
  | cons mark rest =>
    rw [LenientR.takeOne?, List.head?_cons, Option.any_some]
    by_cases hmark : isMark mark = true
    · have hrest := h.tail_ascii (ha mark hmark)
      have hsign := hrest.takeOne? (fun c => c = '+' || c = '-')
        fun c => ascii_of_eq (by decide) (by decide)
      rw [if_pos hmark, if_pos hmark]
      dsimp only
      rw [hrest.has_or_has (by decide) (by decide)]
      exact ⟨hsign.skip reads_isDigit, hsign.countWhile_ne_zero reads_isDigit⟩
    · rw [if_neg hmark, if_neg hmark]
      exact ⟨h, rfl⟩

theorem hexadecimal_eq {zero mark : Char} (h : t.Ahead position (zero :: mark :: rest))
    (hz : zero.toNat < 128) (hm : mark.toNat < 128) :
    t.Ahead (t.hexadecimal position).1 (Exponent.read? (fun c => c = 'p' || c = 'P')
        (rest.dropWhile isHexDigit)).2 ∧
      (t.hexadecimal position).2 = (!(rest.takeWhile isHexDigit).isEmpty &&
        (Exponent.read? (fun c => c = 'p' || c = 'P') (rest.dropWhile isHexDigit)).1.all
          fun exponent => !exponent.digits.isEmpty) := by
  have hrest : t.Ahead (position + 2) rest := (h.tail_ascii hz).tail_ascii hm
  obtain ⟨hexp, hcomplete⟩ := (hrest.skip reads_isHexDigit).exponent_eq
    ((reads_eq 'p' (by decide)).or (reads_eq 'P' (by decide)))
    fun c => ascii_of_eq (by decide) (by decide)
  refine ⟨hexp, ?_⟩
  unfold hexadecimal
  dsimp only
  rw [hrest.countWhile_ne_zero reads_isHexDigit, hcomplete]

theorem decimal_eq (h : t.Ahead position text) :
    t.Ahead (t.decimal position).1 (Exponent.read? (fun c => c = 'e' || c = 'E')
        (Significand.readDecimal text).2).2 ∧
      (t.decimal position).2 = (Exponent.read? (fun c => c = 'e' || c = 'E')
        (Significand.readDecimal text).2).1.all fun exponent => !exponent.digits.isEmpty := by
  have hpoint := h.skip reads_isDigit
  have hmark : t.Ahead
      (if t.has (position + t.countWhile position Byte.isDigit) '.' then
        position + t.countWhile position Byte.isDigit + 1 +
          t.countWhile (position + t.countWhile position Byte.isDigit + 1) Byte.isDigit
        else position + t.countWhile position Byte.isDigit)
      (Significand.readDecimal text).2 := by
    rw [hpoint.has_eq (by decide)]
    unfold Significand.readDecimal Significand.readFraction?
    cases hd : text.dropWhile Char.isDigit with
    | nil =>
      rw [hd] at hpoint
      exact hpoint
    | cons c rest =>
      rw [hd] at hpoint
      rw [LenientR.takeOne?, List.head?_cons, Option.any_some]
      split
      · rename_i hc
        have hc : c = '.' := of_decide_eq_true hc
        exact (hpoint.tail_ascii (hc ▸ by decide)).skip reads_isDigit
      · exact hpoint
  exact hmark.exponent_eq
    ((reads_eq 'e' (by decide)).or (reads_eq 'E' (by decide)))
    fun c => ascii_of_eq (by decide) (by decide)

theorem digits_eq (h : t.Ahead position text) :
    t.Ahead (t.digits position).1 (Exponent.read? (Significand.read text).1.isExponentMark
        (Significand.read text).2).2 ∧
      (t.digits position).2 = (Numeral.read text).1.isComplete := by
  have hdecimal (hs : Significand.read text = Significand.readDecimal text)
      (hx : (t.has position '0' && (t.has (position + 1) 'x' || t.has (position + 1) 'X')) = false) :
      t.Ahead (t.digits position).1 (Exponent.read? (Significand.read text).1.isExponentMark
        (Significand.read text).2).2 ∧
      (t.digits position).2 = (Numeral.read text).1.isComplete := by
    rw [digits, if_neg (by rw [hx]; exact Bool.false_ne_true), Numeral.read, hs]
    exact h.decimal_eq
  rw [h.has_eq (by decide)] at hdecimal
  rcases text with _ | ⟨zero, _ | ⟨mark, rest⟩⟩
  · exact hdecimal rfl rfl
  · refine hdecimal rfl ?_
    rw [List.head?_cons, Option.any_some]
    by_cases hz : zero = '0'
    · subst hz
      rw [(h.tail_ascii (by decide)).has_or_has (by decide) (by decide)]
      rfl
    · simp [hz]
  · by_cases hz : zero = '0'
    · subst hz
      have hmark := (h.tail_ascii (by decide)).has_or_has (a := 'x') (b := 'X') (by decide)
        (by decide)
      rw [List.head?_cons, Option.any_some] at hmark
      by_cases hx : (mark = 'x' || mark = 'X') = true
      · have hread : Significand.read ('0' :: mark :: rest) =
            (.hexadecimal mark (rest.takeWhile isHexDigit), rest.dropWhile isHexDigit) := by
          rw [Significand.read, hx]
          rfl
        rw [digits, if_pos (by rw [hmark, hx, h.has_eq (by decide)]; rfl), Numeral.read, hread]
        exact h.hexadecimal_eq (by decide) (ascii_of_eq (by decide) (by decide) hx)
      · refine hdecimal ?_ (by rw [hmark, Bool.not_eq_true] at *; simp [hx])
        rw [Significand.read, Bool.not_eq_true] at *
        simp [hx]
    · refine hdecimal ?_ (by simp [hz])
      rw [Significand.read]
      simp [hz]

theorem number_eq (h : t.Ahead position text) :
    t.number position = (Lexeme.numeral text).measured text := by
  obtain ⟨hdigits, hcomplete⟩ := h.digits_eq
  have hsuffix := hdigits.takeOne? (fun c => c = 'L' || c = 'i')
    fun c => ascii_of_eq (by decide) (by decide)
  rw [← hdigits.has_or_has (by decide) (by decide)] at hsuffix
  have htext := Numeral.chars_append_read text
  have hsize := congrArg byteSize htext
  have hstop := h.stop_eq
  have hstop' := hsuffix.stop_eq
  have htake : text.take (Numeral.read text).1.chars.length = (Numeral.read text).1.chars :=
    (List.prefix_iff_eq_take.1 ⟨_, htext⟩).symm
  unfold number Lexeme.numeral Lexeme.measured
  dsimp only
  rw [hcomplete, htake]
  congr 1
  rw [byteSize_append] at hsize
  have hlength : byteSize (Numeral.read text).2 = byteSize (LenientR.takeOne?
      (fun c => c = 'L' || c = 'i') (Exponent.read? (Significand.read text).1.isExponentMark
        (Significand.read text).2).2).2 := rfl
  omega

-- ---------------------------------------------------------------------------
-- Words and what is left
-- ---------------------------------------------------------------------------

theorem wordEnd?_eq (h : t.Ahead position text) :
    t.wordEnd? position = some (position + byteSize (text.takeWhile Word.isPart)) := by
  induction text generalizing position with
  | nil => rw [wordEnd?_none h.character?_nil]; rfl
  | cons c rest ih =>
    rw [wordEnd?_some h.character?_cons]
    split
    · rename_i hc
      rw [ih h.tail, List.takeWhile_cons_of_pos hc, byteSize_cons, Nat.add_assoc]
    · rename_i hc
      rw [List.takeWhile_cons_of_neg hc]
      rfl

theorem word?_eq (h : t.Ahead position text) :
    t.word? position = some ((Lexeme.word text).measured text) := by
  have hword := slice? (text.takeWhile Word.isPart)
    (by rwa [List.takeWhile_append_dropWhile])
  simp only [word?, h.wordEnd?_eq, hword, Option.bind_eq_bind, Option.bind_some, Option.pure_def,
    Lexeme.word, Lexeme.measured, take_length_takeWhile, Nat.add_sub_cancel_left]

theorem special_eq (h : t.Ahead position (c :: rest)) (hc : c.toNat < 128) :
    t.special position = (Lexeme.special rest).measured (c :: rest) := by
  have hrest := h.tail_ascii hc
  have hreads := (reads_ne '%' (by decide)).and (reads_ne '\n' (by decide))
  have hafter := hrest.skip hreads
  have hcount := hrest.countWhile_eq hreads
  have hunknown : Lexeme.measured ⟨.unknown, 1⟩ (c :: rest) = (.unknown, 1) := by
    simp [Lexeme.measured, utf8Size_ascii hc]
  unfold special Lexeme.special
  dsimp only
  rw [hafter.has_eq (by decide), hcount, ← List.head?_drop, drop_length_takeWhile]
  cases hd : rest.dropWhile fun c => c ≠ '%' && c ≠ '\n' with
  | nil => exact hunknown.symm
  | cons d after =>
    rw [List.head?_cons, Option.any_some]
    by_cases hp : d = '%'
    · have htake : rest.take ((rest.takeWhile fun c => c ≠ '%' && c ≠ '\n').length + 1) =
          (rest.takeWhile fun c => c ≠ '%' && c ≠ '\n') ++ [d] := by
        rw [List.take_add, take_length_takeWhile, drop_length_takeWhile, hd]
        rfl
      rw [if_pos (decide_eq_true hp), if_pos (congrArg some hp), Lexeme.measured,
        List.take_succ_cons, htake, byteSize_cons, byteSize_append, utf8Size_ascii hc, hp]
      congr 1
      rw [byteSize_cons, byteSize_nil, utf8Size_ascii (by decide)]
      omega
    · rw [if_neg (by simpa using hp), if_neg (by simpa using hp), hunknown]

theorem foreign?_eq (h : t.Ahead position (c :: rest)) :
    t.foreign? position =
      if Alphabet.isAlphabetic c then some ((Lexeme.word (c :: rest)).measured (c :: rest))
      else some (.unknown, c.utf8Size) := by
  unfold foreign?
  rw [h.character?_cons, h.word?_eq]

-- ---------------------------------------------------------------------------
-- Tokens
-- ---------------------------------------------------------------------------

theorem isLetter_toUInt8 {c : Char} (hc : c.toNat < 128) :
    Byte.isLetter c.toUInt8 = Alphabet.isAlphabetic c := by
  have hall : ∀ n < 128, Byte.isLetter (Char.ofNat n).toUInt8 =
      Alphabet.isAlphabetic (Char.ofNat n) := by
    decide +kernel
  have := hall c.toNat hc
  rwa [Char.ofNat_toNat] at this

theorem symbol_foreign (hc : 128 ≤ c.toNat) (rest : List Char) :
    Symbol.match? (c :: rest) = none := by
  refine Option.eq_none_iff_forall_ne_some.2 fun entry he => ?_
  obtain ⟨hm, hp, hne⟩ := Symbol.match?_eq_some he
  obtain ⟨d, spelling, hd⟩ := List.exists_cons_of_ne_nil hne
  rw [hd, List.cons_prefix_cons] at hp
  have hascii := Symbol.ascii_table entry hm d (hd ▸ List.mem_cons_self)
  rw [hp.1] at hascii
  omega

theorem symbol?_eq {byte : UInt8} (h : t.Ahead position (c :: rest))
    (hm : byte ∈ String.utf8EncodeChar c) (hstart : c.toNat < 128 → Word.isStart c = false) :
    t.symbol? byte position =
      some ((if Word.isStart c then .word (c :: rest) else if c = '%' then .special rest
        else .symbol (c :: rest) : Lexeme).measured (c :: rest)) := by
  have hfind := h.find?_arms
  have hpercent : byte = '%'.toUInt8 ↔ c = '%' := byte_eq_iff hm (by decide)
  unfold symbol? Lexeme.symbol
  rw [← hfind]
  cases harm : arms.find? fun arm => t.hasAll (arm.1.toList.map Char.toUInt8) position with
  | some arm =>
    rw [harm] at hfind
    have hmatch := Symbol.match?_eq_some hfind.symm
    have hascii := Symbol.ascii_arms (List.mem_of_find?_eq_some harm)
    have hc : c.toNat < 128 := by
      refine Nat.lt_of_not_le fun hc => ?_
      rw [symbol_foreign hc] at hfind
      simp at hfind
    have hp : c ≠ '%' := by
      rintro rfl
      rw [show Symbol.match? ('%' :: rest) = none from rfl] at hfind
      simp at hfind
    simp only [hstart hc, Bool.false_eq_true, if_false, if_neg hp, Option.map_some,
      Lexeme.measured, ← List.prefix_iff_eq_take.1 hmatch.2.1]
    rw [byteSize_ascii hascii]
  | none =>
    dsimp only [Option.map_none]
    rcases byte_cases hm with ⟨hc, rfl⟩ | ⟨hc, hb⟩
    · have hle : ¬(0x80 : UInt8) ≤ c.toUInt8 := by
        rw [UInt8.le_iff_toNat_le, toNat_toUInt8 hc]
        exact Nat.not_le_of_lt hc
      simp only [hstart hc, Bool.false_eq_true, if_false, if_neg hle]
      split
      · rw [if_pos (hpercent.1 ‹_›), h.special_eq hc]
      · rw [if_neg (mt hpercent.2 ‹_›)]
        simp [Lexeme.measured, utf8Size_ascii hc]
    · have hne (ascii : Char) (ha : ascii.toNat < 128) : c ≠ ascii := fun he => by
        rw [he] at hc
        omega
      have hword : Word.isStart c = Alphabet.isAlphabetic c := by
        simp [Word.isStart, hne '.' (by decide)]
      rw [if_neg (mt hpercent.1 (hne _ (by decide))), if_pos (show 0x80 ≤ byte from hb),
        h.foreign?_eq, if_neg (hne _ (by decide)), hword]
      split
      · rfl
      · simp [Lexeme.measured]

theorem comment_eq (h : t.Ahead position (c :: rest)) (hne : c ≠ '\n') :
    (Kind.comment, t.countWhile position fun byte => byte ≠ '\n'.toUInt8) =
      (Lexeme.comment rest).measured (c :: rest) := by
  have hpos := List.takeWhile_cons_of_pos (p := fun c : Char => c ≠ '\n') (l := rest)
    (decide_eq_true hne)
  rw [h.countWhile_eq (reads_ne _ (by decide)), hpos]
  simp only [Lexeme.comment, Lexeme.measured, List.take_succ_cons, take_length_takeWhile]

theorem startsRaw_byte {byte : UInt8} (h : t.Ahead position (c :: rest))
    (hm : byte ∈ String.utf8EncodeChar c) :
    ((byte = 'r'.toUInt8 || byte = 'R'.toUInt8) && t.startsRaw position) =
      (rawOpening? c rest).isSome := by
  have hmark : (byte = 'r'.toUInt8 || byte = 'R'.toUInt8) = (c = 'r' || c = 'R') :=
    (reads_eq 'r' (by decide)).or (reads_eq 'R' (by decide)) c byte hm
  rw [hmark, rawOpening?]
  split
  · rename_i hr
    rw [h.startsRaw_eq (ascii_of_eq (by decide) (by decide) hr), hr, Bool.true_and]
  · simp_all

theorem startsNumeral_byte {byte : UInt8} (h : t.Ahead position (c :: rest))
    (hm : byte ∈ String.utf8EncodeChar c) :
    (Byte.isDigit byte || byte = '.'.toUInt8 && (t.byte? (position + 1)).any Byte.isDigit) =
      startsNumeral c rest := by
  have hpoint : (byte = '.'.toUInt8 && (t.byte? (position + 1)).any Byte.isDigit) =
      (c = '.' && rest.head?.any Char.isDigit) := by
    rw [Bool.eq_iff_iff, Bool.and_eq_true, Bool.and_eq_true, decide_eq_true_eq,
      decide_eq_true_eq, byte_eq_iff hm (by decide)]
    refine and_congr_right fun hc => ?_
    rw [(h.tail_ascii (hc ▸ by decide)).any_byte? reads_isDigit]
  rw [reads_isDigit c byte hm, hpoint, startsNumeral]

/-- A word that starts with a letter outside of ASCII is left to `symbol?`. -/
theorem startsWord_byte {byte : UInt8} (hm : byte ∈ String.utf8EncodeChar c) :
    (byte = '.'.toUInt8 || Byte.isLetter byte) = (decide (c.toNat < 128) && Word.isStart c) := by
  rcases byte_cases hm with ⟨hc, rfl⟩ | ⟨hc, hb⟩
  · rw [isLetter_toUInt8 hc, Word.isStart, decide_eq_decide.2 (byte_eq_iff hm (by decide)),
      decide_eq_true hc, Bool.true_and]
  · have hle (ascii : Char) (ha : ascii.toNat < 128) : ¬byte ≤ ascii.toUInt8 := by
      rw [UInt8.le_iff_toNat_le, toNat_toUInt8 ha]
      omega
    have hdot : byte ≠ '.'.toUInt8 := fun he => hle '.' (by decide) (he ▸ UInt8.le_refl _)
    rw [decide_eq_false (Nat.not_lt_of_le hc)]
    simp [Byte.isLetter, hdot, hle 'z' (by decide), hle 'Z' (by decide)]

theorem token?_raw {byte : UInt8} {opening : Quoted.RawOpening} (h : t.Ahead position (c :: rest))
    (hm : byte ∈ String.utf8EncodeChar c) (ho : rawOpening? c rest = some opening) :
    t.token? byte position = some ((Lexeme.rawQuotation opening rest).measured (c :: rest)) := by
  have hraw := h.startsRaw_byte hm
  rw [ho, Option.isSome_some] at hraw
  obtain ⟨hr, hread⟩ := Option.ite_none_right_eq_some.1 ho
  have hline : byte ≠ '\n'.toUInt8 := by
    rw [Ne, byte_eq_iff hm (by decide)]
    rintro rfl
    simp at hr
  have hhash : byte ≠ '#'.toUInt8 := by
    rw [Ne, byte_eq_iff hm (by decide)]
    rintro rfl
    simp at hr
  rw [token?, if_neg hline, if_neg hhash, if_pos hraw,
    h.rawQuotation?_eq (ascii_of_eq (by decide) (by decide) hr) hread]

theorem token?_plain {byte : UInt8} (h : t.Ahead position (c :: rest))
    (hm : byte ∈ String.utf8EncodeChar c) (ho : rawOpening? c rest = none) :
    t.token? byte position = some ((plainLexeme c rest).measured (c :: rest)) := by
  have hbyte {ascii : Char} (ha : ascii.toNat < 128) : byte = ascii.toUInt8 ↔ c = ascii :=
    byte_eq_iff hm ha
  have hraw : ¬((byte = 'r'.toUInt8 || byte = 'R'.toUInt8) && t.startsRaw position) = true := by
    rw [h.startsRaw_byte hm, ho]
    exact Bool.false_ne_true
  rw [token?, plainLexeme, if_neg hraw]
  by_cases hline : c = '\n'
  · rw [if_pos ((hbyte (by decide)).2 hline), if_pos hline]
    simp [Lexeme.measured, utf8Size_ascii (c := c) (hline ▸ by decide)]
  rw [if_neg (mt (hbyte (by decide)).1 hline), if_neg hline]
  by_cases hhash : c = '#'
  · rw [if_pos ((hbyte (by decide)).2 hhash), if_pos hhash, h.comment_eq hline]
  rw [if_neg (mt (hbyte (by decide)).1 hhash), if_neg hhash, reads_isQuote c byte hm]
  by_cases hquote : (c = '\x22' || c = '\x27') = true
  · have hc := ascii_of_quote hquote
    obtain rfl : byte = c.toUInt8 := (byte_eq_iff hm hc).2 rfl
    rw [if_pos hquote, if_pos hquote, h.quotation_eq hc hc]
  rw [if_neg hquote, if_neg hquote]
  by_cases htick : c = '\x60'
  · subst htick
    obtain rfl : byte = '\x60'.toUInt8 := (hbyte (by decide)).2 rfl
    rw [if_pos rfl, if_pos rfl, h.quotation_eq (by decide) (by decide)]
  rw [if_neg (mt (hbyte (by decide)).1 htick), if_neg htick]
  have hnumeral := h.startsNumeral_byte hm
  by_cases hn : startsNumeral c rest = true
  · rw [if_pos hn, ← h.number_eq]
    rcases Bool.or_eq_true_iff.1 (hnumeral.trans hn) with hdigit | hpoint
    · rw [if_pos hdigit]
    · rw [if_pos hpoint, ite_self]
  obtain ⟨hdigit, hpoint⟩ := Bool.or_eq_false_iff.1 (hnumeral.trans (Bool.not_eq_true _ ▸ hn))
  rw [if_neg hn, if_neg (by simp [hdigit]), if_neg (by simp [hpoint]), startsWord_byte hm]
  by_cases hc : c.toNat < 128
  · rw [decide_eq_true hc, Bool.true_and]
    by_cases hs : Word.isStart c = true
    · rw [if_pos hs, if_pos hs, h.word?_eq]
    · rw [if_neg hs, h.symbol?_eq hm fun _ => Bool.not_eq_true _ ▸ hs]
  · rw [decide_eq_false hc, Bool.false_and, if_neg Bool.false_ne_true,
      h.symbol?_eq hm fun hlt => absurd hlt hc]

theorem token?_eq {byte : UInt8} (h : t.Ahead position (c :: rest))
    (hm : byte ∈ String.utf8EncodeChar c) :
    t.token? byte position = some ((lexeme c rest).measured (c :: rest)) := by
  unfold lexeme
  cases ho : rawOpening? c rest with
  | some opening => exact h.token?_raw hm ho
  | none => exact h.token?_plain hm ho

theorem next?_blank (h : t.Ahead position (c :: rest)) (hb : isBlank c = true) :
    t.next? position = t.next? (position + c.utf8Size) := by
  obtain ⟨byte, hm, hbyte⟩ := h.byte?_cons
  rw [next?_some hbyte, reads_isBlank c byte hm, if_pos hb, utf8Size_of_isBlank hb]

theorem next?_token (h : t.Ahead position (c :: rest)) (hb : isBlank c = false) :
    t.next? position = some ⟨(lexeme c rest).kind, position,
      byteSize ((c :: rest).take (lexeme c rest).size)⟩ := by
  obtain ⟨byte, hm, hbyte⟩ := h.byte?_cons
  rw [next?_some hbyte, reads_isBlank c byte hm, hb, h.token?_eq hm]
  rfl

/-- Any bound that leaves room for a token for each byte is enough. -/
theorem extents?_eq (h : t.Ahead position text) {bound : Nat} (hb : byteSize text < bound) :
    t.extents? bound position = some ((tokensFrom position text).map Token.extent) := by
  induction text using scanning_induction generalizing position bound with
  | nil =>
    obtain ⟨bound, rfl⟩ := Nat.exists_eq_add_one_of_ne_zero (Nat.ne_of_gt hb)
    simp [extents?, next?_none h.byte?_nil, tokensFrom_nil, endToken, Token.extent, Token.length]
  | blank c rest hc ih =>
    rw [byteSize_cons] at hb
    have htail : t.extents? bound _ = _ := ih h.tail (by omega)
    obtain ⟨bound, rfl⟩ := Nat.exists_eq_add_one_of_ne_zero (Nat.ne_zero_of_lt hb)
    rw [tokensFrom_blank hc, ← htail, extents?, h.next?_blank hc, extents?]
  | token c rest hc ih =>
    obtain ⟨bound, rfl⟩ := Nat.exists_eq_add_one_of_ne_zero (Nat.ne_zero_of_lt hb)
    have hsize := congrArg byteSize (List.take_append_drop (lexeme c rest).size (c :: rest))
    have hpos := byteSize_lexeme_pos c rest
    rw [byteSize_append] at hsize
    have hrest : t.Ahead (position + byteSize ((c :: rest).take (lexeme c rest).size))
        ((c :: rest).drop (lexeme c rest).size) :=
      append _ (by rwa [List.take_append_drop])
    rw [extents?, h.next?_token hc, tokensFrom_cons hc]
    simp only [Option.bind_eq_bind, Option.bind_some]
    rw [if_neg (lexeme_kind_ne c rest), ih hrest (by omega)]
    rfl

end Tokeniser.Ahead

end LenientR
