import LenientR.Proofs.Scanning.Kinds

/-!
# Breaks

Blanks and newlines break a text: apart from comments and quotations no lexeme goes over one. So the
first lexeme of a text that lies within a part of the text is the same if that part is cut off
there and a break follows, whatever is written after the break (`lexeme_break`).
-/

namespace LenientR

/-- A reader that stays within a part of a text reads the same there if a break follows. -/
def Steady (b : Char) (read : List Char → α × List Char) : Prop :=
  ∀ (part more left : List Char) (answer : α), read (part ++ more) = (answer, left ++ more) →
    ∀ rest, read (part ++ b :: rest) = (answer, left ++ b :: rest)

section
variable {b : Char} {p : Char → Bool}

theorem takeOne?_suffix (p : Char → Bool) (chars : List Char) : (takeOne? p chars).2 <:+ chars :=
  ⟨_, takeOne?_append p chars⟩

theorem steady_takeOne? (h : p b = false) : Steady b (takeOne? p) := by
  intro part more left answer hr rest
  cases part with
  | nil =>
    cases more with
    | nil =>
      obtain ⟨rfl, hl⟩ := Prod.mk.inj hr
      obtain rfl : left = [] := by simpa using hl.symm
      simp [takeOne?, h]
    | cons c more =>
      by_cases hc : p c = true
      · simp only [List.nil_append, takeOne?, hc, if_true, Prod.mk.injEq] at hr
        have := congrArg List.length hr.2
        simp only [List.length_append, List.length_cons] at this
        omega
      · simp only [List.nil_append, takeOne?, hc, Bool.false_eq_true, if_false, Prod.mk.injEq] at hr
        obtain ⟨rfl, hl⟩ := hr
        obtain rfl : left = [] := List.self_eq_append_left.1 hl
        simp [takeOne?, h]
  | cons c part =>
    by_cases hc : p c = true
    · simp only [List.cons_append, takeOne?, hc, if_true, Prod.mk.injEq] at hr ⊢
      obtain rfl := List.append_cancel_right hr.2
      exact ⟨hr.1, rfl⟩
    · simp only [List.cons_append, takeOne?, hc, Bool.false_eq_true, if_false,
        Prod.mk.injEq] at hr ⊢
      rw [← List.cons_append] at hr
      obtain rfl := List.append_cancel_right hr.2
      exact ⟨hr.1, rfl⟩

theorem takeWhile_break {part more : List Char} (h : p b = false)
    (hle : ((part ++ more).takeWhile p).length ≤ part.length) (rest : List Char) :
    (part ++ b :: rest).takeWhile p = (part ++ more).takeWhile p := by
  induction part with
  | nil =>
    rw [List.nil_append, List.length_nil] at hle
    rw [List.nil_append, List.nil_append, List.takeWhile_cons_of_neg (by simp [h])]
    exact (List.length_eq_zero_iff.1 (Nat.le_zero.1 hle)).symm
  | cons c part ih =>
    by_cases hc : p c = true
    · simp only [List.cons_append, List.takeWhile_cons_of_pos hc, List.length_cons] at hle ⊢
      rw [ih (Nat.le_of_succ_le_succ hle)]
    · simp only [List.cons_append, List.takeWhile_cons_of_neg hc]

theorem steady_span (h : p b = false) :
    Steady b fun chars => (chars.takeWhile p, chars.dropWhile p) := by
  intro part more left answer hr rest
  obtain ⟨rfl, hl⟩ := Prod.mk.inj hr
  have hsplit := List.takeWhile_append_dropWhile (p := p) (l := part ++ more)
  rw [hl, ← List.append_assoc] at hsplit
  have hpart := List.append_cancel_right hsplit
  have hle := congrArg List.length hpart
  rw [List.length_append] at hle
  have htake : (part ++ b :: rest).takeWhile p = (part ++ more).takeWhile p :=
    takeWhile_break h (by omega) rest
  have hb := List.takeWhile_append_dropWhile (p := p) (l := part ++ b :: rest)
  rw [htake] at hb
  refine Prod.ext htake (List.append_cancel_left (hb.trans ?_))
  rw [← List.append_assoc, hpart]

theorem steady_pure (answer : α) : Steady b fun chars => (answer, chars) := by
  intro part more left _ hr rest
  obtain ⟨rfl, hl⟩ := Prod.mk.inj hr
  rw [List.append_cancel_right hl]

theorem Steady.map {read : List Char → α × List Char} (h : Steady b read) (f : α → β) :
    Steady b fun chars => (f (read chars).1, (read chars).2) := by
  intro part more left answer hr rest
  obtain ⟨rfl, hl⟩ := Prod.mk.inj hr
  have hread : read (part ++ more) = ((read (part ++ more)).1, left ++ more) := Prod.ext rfl hl
  simp only [h part more left _ hread rest]

theorem Steady.bind {first : List Char → α × List Char} {next : α → List Char → β × List Char}
    (h : Steady b first) (hn : ∀ x, Steady b (next x))
    (hs : ∀ x chars, (next x chars).2 <:+ chars) :
    Steady b fun chars => next (first chars).1 (first chars).2 := by
  intro part more left answer hr rest
  dsimp only at hr
  -- the second reader leaves all of `more`, so the first one does too
  obtain ⟨gone, hg⟩ := hr ▸ hs (first (part ++ more)).1 (first (part ++ more)).2
  rw [← List.append_assoc] at hg
  have hfirst : first (part ++ more) = ((first (part ++ more)).1, (gone ++ left) ++ more) :=
    Prod.ext rfl hg.symm
  rw [← hg] at hr
  simp only [h part more (gone ++ left) _ hfirst rest, hn _ _ more left answer hr rest]

-- ---------------------------------------------------------------------------
-- Numerals
-- ---------------------------------------------------------------------------

/-- What ends a lexeme that is neither a comment nor a quotation. -/
def IsBreak (b : Char) : Prop := b = ' ' ∨ b = '\n'

variable (hb : IsBreak b)
include hb

theorem IsBreak.isDigit : b.isDigit = false := by
  rcases hb with rfl | rfl <;> rfl

theorem Exponent.steady_read? {isMark : Char → Bool} (h : isMark b = false) :
    Steady b (Exponent.read? isMark) := by
  have hsign : (b = '+' || b = '-') = false := by rcases hb with rfl | rfl <;> rfl
  let signed (mark : Char) (sign : Option Char) (chars : List Char) : Option Exponent × List Char :=
    (some ⟨mark, sign, chars.takeWhile Char.isDigit⟩, chars.dropWhile Char.isDigit)
  have hsigned (mark : Char) : Steady b fun chars =>
      signed mark (takeOne? (fun c => c = '+' || c = '-') chars).1
        (takeOne? (fun c => c = '+' || c = '-') chars).2 :=
    (steady_takeOne? hsign).bind
      (fun sign => (steady_span hb.isDigit).map fun digits => some (Exponent.mk mark sign digits))
      fun _ _ => List.dropWhile_suffix _
  let marked : Option Char → List Char → Option Exponent × List Char
    | none, chars => (none, chars)
    | some mark, chars => signed mark (takeOne? (fun c => c = '+' || c = '-') chars).1
        (takeOne? (fun c => c = '+' || c = '-') chars).2
  have heq : Exponent.read? isMark = fun chars =>
      marked (takeOne? isMark chars).1 (takeOne? isMark chars).2 := by
    funext chars
    unfold Exponent.read?
    rcases takeOne? isMark chars with ⟨_ | mark, rest⟩ <;> rfl
  rw [heq]
  refine (steady_takeOne? h).bind (fun mark => ?_) fun mark chars => ?_
  · cases mark with
    | none => exact steady_pure none
    | some mark => exact hsigned mark
  · cases mark with
    | none => exact List.suffix_refl _
    | some mark => exact (List.dropWhile_suffix _).trans (takeOne?_suffix _ _)

theorem Significand.steady_readDecimal : Steady b Significand.readDecimal := by
  have hpoint : (decide (b = '.')) = false := by rcases hb with rfl | rfl <;> rfl
  let fraction : Option Char → List Char → Option (List Char) × List Char
    | none, chars => (none, chars)
    | some _, chars => (some (chars.takeWhile Char.isDigit), chars.dropWhile Char.isDigit)
  have heq : Significand.readFraction? = fun chars =>
      fraction (takeOne? (· = '.') chars).1 (takeOne? (· = '.') chars).2 := by
    funext chars
    unfold Significand.readFraction?
    rcases takeOne? (· = '.') chars with ⟨_ | point, rest⟩ <;> rfl
  have hsuffix (point : Option Char) (chars : List Char) : (fraction point chars).2 <:+ chars := by
    cases point with
    | none => exact List.suffix_refl _
    | some _ => exact List.dropWhile_suffix _
  have hfraction : Steady b Significand.readFraction? := by
    rw [heq]
    refine (steady_takeOne? hpoint).bind (fun point => ?_) hsuffix
    cases point with
    | none => exact steady_pure none
    | some _ => exact (steady_span hb.isDigit).map some
  refine (steady_span hb.isDigit).bind
    (fun whole => hfraction.map (Significand.decimal whole)) fun whole chars => ?_
  rw [heq]
  exact (hsuffix _ _).trans (takeOne?_suffix _ _)

theorem Significand.steady_read : Steady b Significand.read := by
  have hd := Significand.steady_readDecimal hb
  intro part more left answer hr rest
  -- with the mark of hexadecimal digits outside of the part too much would be read
  have hshort (h : part.length < 2) :
      Significand.readDecimal (part ++ more) = (answer, left ++ more) := by
    cases hpm : part ++ more with
    | nil => rwa [hpm] at hr
    | cons zero after =>
      cases after with
      | nil => rwa [hpm] at hr
      | cons mark after =>
        rw [hpm, Significand.read] at hr
        split at hr
        · have hl := congrArg List.length (Prod.mk.inj hr).2
          have hle := (List.dropWhile_suffix (l := after) isHexDigit).length_le
          have hlen := congrArg List.length hpm
          simp only [List.length_append, List.length_cons] at hl hlen
          omega
        · exact hr
  cases part with
  | nil =>
    have hzero : (decide (b = '0')) = false := by rcases hb with rfl | rfl <;> rfl
    rw [← hd _ _ _ _ (hshort (by simp)) rest]
    cases rest with
    | nil => rfl
    | cons mark rest =>
      simp [Significand.read, hzero]
  | cons zero part =>
    cases part with
    | nil =>
      have hmark : (b = 'x' || b = 'X') = false := by rcases hb with rfl | rfl <;> rfl
      rw [← hd _ _ _ _ (hshort (by simp)) rest]
      simp [Significand.read, hmark]
    | cons mark part =>
      simp only [List.cons_append, Significand.read] at hr ⊢
      split at hr
      · rename_i h
        rw [if_pos h]
        have hhex : isHexDigit b = false := by rcases hb with rfl | rfl <;> rfl
        exact (steady_span hhex).map (Significand.hexadecimal mark) part more left answer hr rest
      · rename_i h
        rw [if_neg h]
        exact hd (zero :: mark :: part) more left answer hr rest

theorem Numeral.steady_read : Steady b Numeral.read := by
  have hmark (significand : Significand) : significand.isExponentMark b = false := by
    rcases hb with rfl | rfl <;> cases significand <;> rfl
  have hsuffix : (decide (b = 'L') || decide (b = 'i')) = false := by
    rcases hb with rfl | rfl <;> rfl
  have hexponent (significand : Significand) (chars : List Char) :
      (Exponent.read? significand.isExponentMark chars).2 <:+ chars :=
    ⟨_, Exponent.chars_append_read? _ chars⟩
  let suffixed (significand : Significand) (exponent : Option Exponent) (chars : List Char) :
      Numeral × List Char :=
    let suffix := takeOne? (fun c => c = 'L' || c = 'i') chars
    (⟨significand, exponent, suffix.1⟩, suffix.2)
  let continued (significand : Significand) (chars : List Char) : Numeral × List Char :=
    let exponent := Exponent.read? significand.isExponentMark chars
    suffixed significand exponent.1 exponent.2
  have hread : Steady b fun chars =>
      continued (Significand.read chars).1 (Significand.read chars).2 :=
    (Significand.steady_read hb).bind
      (fun significand => (Exponent.steady_read? hb (hmark significand)).bind
        (fun exponent => (steady_takeOne? hsuffix).map (Numeral.mk significand exponent))
        fun _ _ => takeOne?_suffix _ _)
      fun _ _ => (takeOne?_suffix _ _).trans (hexponent _ _)
  exact hread

theorem numeral_break {part more : List Char}
    (hs : (Lexeme.numeral (part ++ more)).size ≤ part.length) (rest : List Char) :
    Lexeme.numeral (part ++ b :: rest) = Lexeme.numeral (part ++ more) := by
  have hsplit := Numeral.chars_append_read (part ++ more)
  have hsuffix : more <:+ (Numeral.read (part ++ more)).2 := by
    refine List.suffix_of_suffix_length_le (List.suffix_append part more) ⟨_, hsplit⟩ ?_
    have hlen := congrArg List.length hsplit
    simp only [Lexeme.numeral, List.length_append] at hs hlen
    omega
  obtain ⟨left, hl⟩ := hsuffix
  have hread := Numeral.steady_read hb part more left _ (Prod.ext rfl hl.symm) rest
  simp only [Lexeme.numeral, hread]

-- ---------------------------------------------------------------------------
-- Symbols
-- ---------------------------------------------------------------------------

omit hb in
theorem prefix_break_iff {spelling part rest : List Char} (h : b ∉ spelling) :
    spelling <+: part ++ b :: rest ↔ spelling <+: part := by
  refine ⟨fun hp => ?_, fun hp => hp.trans (List.prefix_append _ _)⟩
  rcases Nat.le_total spelling.length part.length with hle | hle
  · exact List.prefix_of_prefix_length_le hp (List.prefix_append _ _) hle
  · -- otherwise the break would be a part of it
    rcases List.prefix_of_prefix_length_le (List.prefix_append part _) hp hle with ⟨more, rfl⟩
    obtain ⟨after, ha⟩ := hp
    rw [List.append_assoc] at ha
    cases more with
    | nil => simp
    | cons c more =>
      obtain ⟨rfl, _⟩ := List.cons.inj (List.append_cancel_left ha)
      exact absurd (List.mem_append_right part List.mem_cons_self) h

theorem Symbol.break_notMem {entry : List Char × Kind} (h : entry ∈ Symbol.table) :
    b ∉ entry.1 := by
  rcases hb with rfl | rfl <;> revert entry <;> decide

theorem symbol_break {part more : List Char}
    (hs : (Lexeme.symbol (part ++ more)).size ≤ part.length) (rest : List Char) :
    Lexeme.symbol (part ++ b :: rest) = Lexeme.symbol (part ++ more) := by
  have hfind : Symbol.match? (part ++ b :: rest) = Symbol.match? (part ++ more) := by
    have hmem : ∀ entry ∈ Symbol.table, b ∉ entry.1 := fun entry => Symbol.break_notMem hb
    have hfits : ∀ entry, Symbol.match? (part ++ more) = some entry →
        entry.1.length ≤ part.length := fun entry he => by
      rwa [Lexeme.symbol, he] at hs
    unfold Symbol.match? at hfits ⊢
    generalize Symbol.table = table at hmem hfits
    induction table with
    | nil => rfl
    | cons entry table ih =>
      obtain ⟨he, ht⟩ := List.forall_mem_cons.1 hmem
      have hsame : entry.1.isPrefixOf (part ++ b :: rest) = entry.1.isPrefixOf (part ++ more) := by
        rw [Bool.eq_iff_iff, List.isPrefixOf_iff_prefix, List.isPrefixOf_iff_prefix,
          prefix_break_iff he]
        refine ⟨fun h => h.trans (List.prefix_append _ _), fun h => ?_⟩
        have hle := hfits entry (List.find?_cons_of_pos (List.isPrefixOf_iff_prefix.2 h))
        exact List.prefix_of_prefix_length_le h (List.prefix_append _ _) hle
      simp only [List.find?_cons, hsame] at hfits ⊢
      split
      · rfl
      · rename_i hn
        simp only [hn] at hfits
        exact ih ht hfits
  rw [Lexeme.symbol, Lexeme.symbol, hfind]

end

-- ---------------------------------------------------------------------------
-- Quotations
-- ---------------------------------------------------------------------------

namespace Quoted

/-- A quotation that is closed within a part of a text is closed there whatever comes after. -/
theorem closing?_of_le {quote : Char} {part more : List Char} {n : Nat}
    (h : closing? quote (part ++ more) = some n) (hle : n ≤ part.length) (rest : List Char) :
    closing? quote (part ++ rest) = some n := by
  fun_induction closing? quote part generalizing n with
  | case1 =>
    have := (closing?_le h).1
    simp only [List.length_nil] at hle
    omega
  | case2 =>
    -- the backslash is the last character of the part, so the closing quote is past it
    cases more with
    | nil => cases h
    | cons d more =>
      obtain ⟨k, hk, rfl⟩ := Option.map_eq_some_iff.1 (show Option.map _ _ = _ from h)
      simp at hle
  | case3 c after ih =>
    obtain ⟨k, hk, rfl⟩ := Option.map_eq_some_iff.1 (show Option.map _ _ = _ from h)
    simp [closing?, ih hk (by simpa using hle)]
  | case4 after hb =>
    rw [List.cons_append] at h ⊢
    unfold closing? at h ⊢
    rwa [if_neg hb, if_pos rfl] at h ⊢
  | case5 c after hb hq ih =>
    rw [List.cons_append] at h ⊢
    unfold closing? at h ⊢
    rw [if_neg hb, if_neg hq] at h ⊢
    obtain ⟨k, hk, rfl⟩ := Option.map_eq_some_iff.1 h
    rw [ih hk (by simpa using hle)]
    rfl

theorem length_le_of_through? {terminator chars : List Char} {n : Nat}
    (h : through? terminator chars = some n) : terminator.length ≤ n := by
  fun_induction through? terminator chars generalizing n with
  | case1 => cases h
  | case2 => exact Nat.le_of_eq (Option.some.inj h)
  | case3 c rest _ ih =>
    obtain ⟨k, hk, rfl⟩ := Option.map_eq_some_iff.1 h
    exact Nat.le_succ_of_le (ih hk)

theorem isPrefixOf_append {terminator chars : List Char} (h : terminator.length ≤ chars.length)
    (more : List Char) : terminator.isPrefixOf (chars ++ more) = terminator.isPrefixOf chars := by
  rw [Bool.eq_iff_iff, List.isPrefixOf_iff_prefix, List.isPrefixOf_iff_prefix]
  exact ⟨fun hp => List.prefix_of_prefix_length_le hp (List.prefix_append chars more) h,
    fun hp => hp.trans (List.prefix_append chars more)⟩

theorem through?_of_le {terminator part more : List Char} (ht : terminator ≠ []) {n : Nat}
    (h : through? terminator (part ++ more) = some n) (hle : n ≤ part.length) (rest : List Char) :
    through? terminator (part ++ rest) = some n := by
  induction part generalizing n with
  | nil =>
    have hpos := List.length_pos_iff.2 ht
    have := length_le_of_through? h
    rw [List.length_nil] at hle
    omega
  | cons c part ih =>
    -- one that starts here would end before the one that is found, so within the part
    have hshort := Nat.le_trans (length_le_of_through? h) hle
    have hp := isPrefixOf_append hshort
    rw [List.cons_append] at h ⊢
    unfold through? at h ⊢
    rw [← List.cons_append, hp] at h ⊢
    split at h
    · rename_i hpos
      rwa [if_pos hpos]
    · rename_i hneg
      obtain ⟨k, hk, rfl⟩ := Option.map_eq_some_iff.1 h
      rw [if_neg hneg, ih hk (Nat.le_of_succ_le_succ hle)]
      rfl

namespace RawOpening

def Opens (opening : RawOpening) : Prop :=
  (opening.quote = '\x22' ∨ opening.quote = '\x27') ∧
    (opening.bracket = '(' ∨ opening.bracket = '[' ∨ opening.bracket = '\x7b')

theorem read?_eq_some_iff {chars : List Char} {opening : RawOpening} :
    read? chars = some opening ↔ opening.Opens ∧ opening.chars <+: chars := by
  constructor
  · intro h
    refine ⟨?_, chars_prefix_of_read? h⟩
    unfold read? at h
    split at h
    · cases h
    split at h
    · rename_i hq
      dsimp only at h
      split at h
      · cases h
      split at h
      · rename_i hb
        obtain rfl := Option.some.inj h
        simpa [Opens, or_assoc] using And.intro hq hb
      · cases h
    · cases h
  · rintro ⟨⟨hq, hb⟩, rest, rfl⟩
    obtain ⟨quote, dashes, bracket⟩ := opening
    have hne : bracket ≠ '-' := by
      rintro rfl
      simp at hb
    have htake : (List.replicate dashes '-' ++ bracket :: rest).takeWhile (· = '-') =
        List.replicate dashes '-' := by
      rw [List.takeWhile_append_of_pos (by simp), List.takeWhile_cons_of_neg (by simpa using hne),
        List.append_nil]
    simp only [chars, List.cons_append, List.append_assoc, List.nil_append, read?, htake,
      List.length_replicate, List.drop_left']
    rw [if_pos (by simpa using hq), if_pos (by simpa [or_assoc] using hb)]

theorem Opens.break_notMem {opening : RawOpening} (h : opening.Opens) {b : Char} (hb : IsBreak b) :
    b ∉ opening.chars := by
  obtain ⟨quote, dashes, bracket⟩ := opening
  obtain ⟨hq, hk⟩ := h
  rcases hb with rfl | rfl <;> rcases hq with rfl | rfl <;> rcases hk with rfl | rfl | rfl <;>
    simp [chars]

theorem read?_break {b : Char} (hb : IsBreak b) {part more : List Char}
    (h : ∀ opening, read? (part ++ more) = some opening → opening.chars.length ≤ part.length)
    (rest : List Char) : read? (part ++ b :: rest) = read? (part ++ more) := by
  refine Option.ext fun opening => ?_
  rw [read?_eq_some_iff, read?_eq_some_iff]
  refine and_congr_right fun ho => ?_
  rw [prefix_break_iff (ho.break_notMem hb)]
  refine ⟨fun hp => hp.trans (List.prefix_append _ _), fun hp => ?_⟩
  have hle := h opening (read?_eq_some_iff.2 ⟨ho, hp⟩)
  exact List.prefix_of_prefix_length_le hp (List.prefix_append _ _) hle

end RawOpening

end Quoted

-- ---------------------------------------------------------------------------
-- Lexemes
-- ---------------------------------------------------------------------------

namespace Lexeme

/-- A lexeme that starts with `c` is no comment, nor a percent sign that another one may still
close. -/
def EndsAtBlank (c : Char) (found : Lexeme) : Prop :=
  found.kind ≠ .comment ∧ (c = '%' → found.kind ≠ .unknown)

variable {part more : List Char}

theorem eq_nil_of_length_append_le (h : (part ++ more).length + 1 ≤ part.length + 1) :
    more = [] := by
  rw [List.length_append] at h
  exact List.length_eq_zero_iff.1 (by omega)

theorem quotation_of_le {kind : Kind} {quote : Char}
    (hs : (quotation kind quote (part ++ more)).size ≤ part.length + 1)
    (hk : (quotation kind quote (part ++ more)).kind = .unterminatedString → more ≠ [])
    (rest : List Char) :
    quotation kind quote (part ++ rest) = quotation kind quote (part ++ more) := by
  unfold quotation at hs hk ⊢
  cases hc : Quoted.closing? quote (part ++ more) with
  | none =>
    rw [hc] at hs hk
    exact absurd (eq_nil_of_length_append_le hs) (hk rfl)
  | some size =>
    rw [hc] at hs
    rw [Quoted.closing?_of_le hc (Nat.le_of_succ_le_succ hs)]

theorem rawQuotation_of_le {opening : Quoted.RawOpening}
    (hs : (rawQuotation opening (part ++ more)).size ≤ part.length + 1)
    (hk : (rawQuotation opening (part ++ more)).kind = .unterminatedString → more ≠ [])
    (rest : List Char) :
    rawQuotation opening (part ++ rest) = rawQuotation opening (part ++ more) := by
  unfold rawQuotation at hs hk ⊢
  cases hc : Quoted.through? opening.terminator ((part ++ more).drop opening.chars.length) with
  | none =>
    rw [hc] at hs hk
    exact absurd (eq_nil_of_length_append_le hs) (hk rfl)
  | some size =>
    rw [hc] at hs
    dsimp only at hs
    have hopening : opening.chars.length ≤ part.length := by omega
    rw [List.drop_append_of_le_length hopening] at hc ⊢
    have hle : size ≤ (part.drop opening.chars.length).length := by
      rw [List.length_drop]
      omega
    have hne : opening.terminator ≠ [] := List.cons_ne_nil _ _
    rw [Quoted.through?_of_le hne hc hle]

/-- A percent sign is either closed within a part of a text, or never before a newline. -/
theorem special_break {b : Char} (hs : (special (part ++ more)).size ≤ part.length + 1)
    (hk : b = '\n' ∨ (special (part ++ more)).kind ≠ .unknown) (rest : List Char) :
    special (part ++ b :: rest) = special (part ++ more) := by
  simp only [special, List.takeWhile_append] at hs hk ⊢
  by_cases hfull : (part.takeWhile fun c => c ≠ '%' && c ≠ '\n').length = part.length
  · simp only [if_pos hfull] at hs hk ⊢
    -- the sign that closes would be past the part
    have hopen : (part ++ more)[(part ++ more.takeWhile fun c => c ≠ '%' && c ≠ '\n').length]? ≠
        some '%' := by
      intro h
      rw [if_pos h] at hs
      simp only [List.length_append] at hs
      omega
    simp only [if_neg hopen, ne_eq, not_true_eq_false, or_false] at hk ⊢
    subst hk
    simp
  · have hlt := (List.takeWhile_prefix (fun c => c ≠ '%' && c ≠ '\n') (l := part)).length_le
    simp only [if_neg hfull]
    rw [List.getElem?_append_left (by omega), List.getElem?_append_left (by omega)]

theorem comment_newline (hs : (comment (part ++ more)).size ≤ part.length + 1) (rest : List Char) :
    comment (part ++ '\n' :: rest) = comment (part ++ more) := by
  have hp : decide ('\n' ≠ '\n') = false := rfl
  rw [comment, comment, takeWhile_break (p := fun c => decide (c ≠ '\n')) hp
    (Nat.le_of_succ_le_succ hs)]

theorem word_break {b : Char} (hb : IsBreak b) (hs : (word (part ++ more)).size ≤ part.length)
    (rest : List Char) : word (part ++ b :: rest) = word (part ++ more) := by
  have hpart : Word.isPart b = false := by rcases hb with rfl | rfl <;> decide +kernel
  simp only [word, takeWhile_break hpart hs]

end Lexeme

theorem two_le_size_numeral {d : Char} (hd : d.isDigit = true) (rest : List Char) :
    2 ≤ (Lexeme.numeral ('.' :: d :: rest)).size := by
  have hsignificand : 2 ≤ (Significand.read ('.' :: d :: rest)).1.chars.length := by
    simp [Significand.read, Significand.readDecimal, Significand.readFraction?, takeOne?, hd,
      Significand.chars]
  simp only [Lexeme.numeral, Numeral.read, Numeral.chars, List.length_append]
  omega

section
variable {b c : Char} (hb : IsBreak b) {part more : List Char}
include hb

theorem startsNumeral_break (hs : (plainLexeme c (part ++ more)).size ≤ part.length + 1)
    (rest : List Char) : startsNumeral c (part ++ b :: rest) = startsNumeral c (part ++ more) := by
  cases part with
  | cons d part => rfl
  | nil =>
    have hpoint : c = '.' → more.head?.any Char.isDigit = false := by
      rintro rfl
      refine Bool.eq_false_iff.2 fun h => ?_
      cases more with
      | nil => cases h
      | cons d more =>
        have hlexeme : plainLexeme '.' ([] ++ d :: more) = .numeral ('.' :: d :: more) := by
          simp [plainLexeme, startsNumeral, show d.isDigit = true from h]
        have := two_le_size_numeral h more
        rw [hlexeme, List.length_nil] at hs
        omega
    by_cases hc : c = '.' <;> simp [startsNumeral, hb.isDigit, hc, hpoint]

theorem plainLexeme_break (hs : (plainLexeme c (part ++ more)).size ≤ part.length + 1)
    (hk : (plainLexeme c (part ++ more)).kind = .unterminatedString → more ≠ [])
    (hends : b = '\n' ∨ (plainLexeme c (part ++ more)).EndsAtBlank c) (rest : List Char) :
    plainLexeme c (part ++ b :: rest) = plainLexeme c (part ++ more) := by
  have hnumeral := startsNumeral_break hb hs rest
  unfold plainLexeme at hs hk hends ⊢
  rw [hnumeral]
  by_cases hline : c = '\n'
  · simp only [if_pos hline]
  simp only [if_neg hline] at hs hk hends ⊢
  by_cases hcomment : c = '#'
  · simp only [if_pos hcomment] at hs hends ⊢
    obtain rfl := hends.resolve_right fun h => h.1 rfl
    exact Lexeme.comment_newline hs rest
  simp only [if_neg hcomment] at hs hk hends ⊢
  by_cases hquote : (decide (c = '\x22') || decide (c = '\x27')) = true
  · simp only [if_pos hquote] at hs hk ⊢
    exact Lexeme.quotation_of_le hs hk _
  simp only [if_neg hquote] at hs hk hends ⊢
  by_cases hname : c = '\x60'
  · simp only [if_pos hname] at hs hk ⊢
    exact Lexeme.quotation_of_le hs hk _
  simp only [if_neg hname] at hs hk hends ⊢
  by_cases hstart : startsNumeral c (part ++ more) = true
  · simp only [if_pos hstart] at hs ⊢
    rw [← List.cons_append] at hs ⊢
    exact numeral_break hb hs rest
  simp only [if_neg hstart] at hs hk hends ⊢
  by_cases hword : Word.isStart c = true
  · simp only [if_pos hword] at hs ⊢
    rw [← List.cons_append] at hs ⊢
    exact Lexeme.word_break hb hs rest
  simp only [if_neg hword] at hs hk hends ⊢
  by_cases hspecial : c = '%'
  · simp only [if_pos hspecial] at hs hends ⊢
    exact Lexeme.special_break hs (hends.imp_right fun h => h.2 hspecial) rest
  · simp only [if_neg hspecial] at hs ⊢
    rw [← List.cons_append] at hs ⊢
    exact symbol_break hb hs rest

/-- A lexeme within a part of a text is the same if a break follows the part. For a comment, and
for a percent sign alone, that is a newline; no open quotation is within a part of a text. -/
theorem lexeme_break (hs : (lexeme c (part ++ more)).size ≤ part.length + 1)
    (hk : (lexeme c (part ++ more)).kind = .unterminatedString → more ≠ [])
    (hends : b = '\n' ∨ (lexeme c (part ++ more)).EndsAtBlank c) (rest : List Char) :
    lexeme c (part ++ b :: rest) = lexeme c (part ++ more) := by
  have hraw : rawOpening? c (part ++ b :: rest) = rawOpening? c (part ++ more) := by
    unfold rawOpening?
    by_cases hc : (decide (c = 'r') || decide (c = 'R')) = true
    · simp only [if_pos hc]
      refine Quoted.RawOpening.read?_break hb (fun opening ho => ?_) rest
      have hlexeme : lexeme c (part ++ more) = .rawQuotation opening (part ++ more) := by
        simp [lexeme, rawOpening?, hc, ho]
      rw [hlexeme] at hs hk
      unfold Lexeme.rawQuotation at hs hk
      split at hs
      · dsimp only at hs
        omega
      · rename_i hn
        rw [hn] at hk
        exact absurd (Lexeme.eq_nil_of_length_append_le hs) (hk rfl)
    · simp only [if_neg hc]
  unfold lexeme at hs hk hends ⊢
  rw [hraw]
  cases hr : rawOpening? c (part ++ more) with
  | none =>
    rw [hr] at hs hk hends
    exact plainLexeme_break hb hs hk hends rest
  | some opening =>
    rw [hr] at hs hk
    exact Lexeme.rawQuotation_of_le hs hk _

end

end LenientR
