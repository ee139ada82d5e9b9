import LenientR.Proofs.Lines.Bytes
import LenientR.Token.Tokeniser

/-!
# What a tokeniser sees

The tokeniser looks at bytes by their offsets; `Ahead` says which characters they are. A byte below
128 is a character of ASCII, and one of any other character is above (`Reads`), so a test of bytes
that only tells characters of ASCII apart tells of the text what it tells of the bytes.
-/

namespace LenientR

open Text

/-- A test of bytes finds in the bytes of a character what another test finds in the character. -/
def Reads (byteTest : UInt8 → Bool) (test : Char → Bool) : Prop :=
  ∀ c, ∀ byte ∈ String.utf8EncodeChar c, byteTest byte = test c

theorem utf8EncodeChar_ascii {c : Char} (h : c.toNat < 128) :
    String.utf8EncodeChar c = [c.toUInt8] := by
  unfold String.utf8EncodeChar
  rw [if_pos (show c.val.toNat ≤ 0x7f from Nat.le_of_lt_succ h)]
  rfl

theorem utf8Size_ascii {c : Char} (h : c.toNat < 128) : c.utf8Size = 1 := by
  rw [← String.length_utf8EncodeChar, utf8EncodeChar_ascii h, List.length_singleton]

theorem toNat_toUInt8 {c : Char} (h : c.toNat < 128) : c.toUInt8.toNat = c.toNat := by
  change c.toNat % 256 = c.toNat
  omega

theorem byteSize_ascii {chars : List Char} (h : ∀ c ∈ chars, c.toNat < 128) :
    byteSize chars = chars.length := by
  induction chars with
  | nil => rfl
  | cons c rest ih =>
    obtain ⟨hc, hrest⟩ := List.forall_mem_cons.1 h
    rw [byteSize_cons, utf8Size_ascii hc, ih hrest, List.length_cons, Nat.add_comm]

/-- A byte of a character is the only one of it, or both are outside of ASCII. -/
theorem byte_cases {byte : UInt8} {c : Char} (h : byte ∈ String.utf8EncodeChar c) :
    (c.toNat < 128 ∧ byte = c.toUInt8) ∨ (128 ≤ c.toNat ∧ 128 ≤ byte.toNat) := by
  by_cases hc : c.toNat < 128
  · rw [utf8EncodeChar_ascii hc] at h
    exact .inl ⟨hc, List.mem_singleton.1 h⟩
  · have := toNat_of_mem_utf8EncodeChar h
    omega

theorem byte_eq_iff {byte : UInt8} {c ascii : Char} (h : byte ∈ String.utf8EncodeChar c)
    (ha : ascii.toNat < 128) : byte = ascii.toUInt8 ↔ c = ascii := by
  rw [← UInt8.toNat_inj, ← Char.toNat_inj, toNat_toUInt8 ha]
  rcases byte_cases h with ⟨hc, rfl⟩ | ⟨hc, hb⟩
  · rw [toNat_toUInt8 hc]
  · omega

theorem reads_eq (ascii : Char) (ha : ascii.toNat < 128) :
    Reads (· = ascii.toUInt8) (· = ascii) := fun _ _ h => decide_eq_decide.2 (byte_eq_iff h ha)

theorem Reads.or {p q : UInt8 → Bool} {p' q' : Char → Bool} (hp : Reads p p') (hq : Reads q q') :
    Reads (fun byte => p byte || q byte) (fun c => p' c || q' c) := fun c byte h => by
  simp only [hp c byte h, hq c byte h]

theorem reads_ne (ascii : Char) (ha : ascii.toNat < 128) :
    Reads (fun byte => byte ≠ ascii.toUInt8) (fun c => c ≠ ascii) := fun _ _ h =>
  decide_eq_decide.2 (not_congr (byte_eq_iff h ha))

theorem Reads.and {p q : UInt8 → Bool} {p' q' : Char → Bool} (hp : Reads p p') (hq : Reads q q') :
    Reads (fun byte => p byte && q byte) (fun c => p' c && q' c) := fun c byte h => by
  simp only [hp c byte h, hq c byte h]

theorem reads_between {low high : Char} (hl : low.toNat < 128) (hh : high.toNat < 128) :
    Reads (fun byte => low.toUInt8 ≤ byte && byte ≤ high.toUInt8)
      (fun c => decide (low ≤ c) && decide (c ≤ high)) := fun c byte h => by
  have hle (a b : Char) : a ≤ b ↔ a.toNat ≤ b.toNat := Iff.rfl
  rw [Bool.eq_iff_iff]
  simp only [Bool.and_eq_true, decide_eq_true_eq, UInt8.le_iff_toNat_le, toNat_toUInt8 hl,
    toNat_toUInt8 hh, hle]
  rcases byte_cases h with ⟨hc, rfl⟩ | ⟨hc, hb⟩
  · rw [toNat_toUInt8 hc]
  · omega

theorem reads_isDigit : Reads Byte.isDigit Char.isDigit := reads_between (by decide) (by decide)

theorem reads_isHexDigit : Reads Byte.isHexDigit isHexDigit :=
  (reads_isDigit.or (reads_between (by decide) (by decide))).or
    (reads_between (by decide) (by decide))

theorem reads_isBlank : Reads Byte.isBlank isBlank :=
  (((reads_eq _ (by decide)).or (reads_eq _ (by decide))).or (reads_eq _ (by decide))).or
    (reads_eq _ (by decide))

theorem reads_isQuote : Reads Byte.isQuote (fun c => c = '\x22' || c = '\x27') :=
  (reads_eq _ (by decide)).or (reads_eq _ (by decide))

namespace Tokeniser

variable {t : Tokeniser} {position : Nat} {text rest : List Char} {c : Char}

/-- The text from an offset up to where the tokeniser stops. -/
def Ahead (t : Tokeniser) (position : Nat) (text : List Char) : Prop :=
  slice? t.source.toList position t.stop = some text

theorem byte?_eq (position : Nat) :
    t.byte? position = if position < t.stop then (utf8Bytes t.source)[position]? else none := by
  unfold byte?
  split
  · rename_i h
    have hl : position < (utf8Bytes t.source).length := Nat.lt_of_lt_of_le h t.stop_le
    rw [List.getElem?_eq_getElem hl]
    rfl
  · rfl

namespace Ahead

theorem stop_eq (h : t.Ahead position text) : position + byteSize text = t.stop := by
  obtain ⟨_, _, _, _, hs⟩ := slice?_eq_some.1 h
  exact hs

theorem append (before : List Char) (h : t.Ahead position (before ++ text)) :
    t.Ahead (position + byteSize before) text := by
  obtain ⟨a, b, ha, hp, hs⟩ := slice?_eq_some.1 h
  refine slice?_eq_some.2 ⟨a ++ before, b, by simpa using ha, by rw [byteSize_append, hp], ?_⟩
  rw [← hs, byteSize_append, Nat.add_assoc]

theorem tail (h : t.Ahead position (c :: rest)) : t.Ahead (position + c.utf8Size) rest :=
  append [c] h

theorem tail_ascii (h : t.Ahead position (c :: rest)) (hc : c.toNat < 128) :
    t.Ahead (position + 1) rest := utf8Size_ascii hc ▸ h.tail

theorem slice? (before : List Char) (h : t.Ahead position (before ++ text)) :
    Text.slice? t.source.toList position (position + byteSize before) = some before := by
  obtain ⟨a, b, ha, hp, _⟩ := slice?_eq_some.1 h
  exact slice?_eq_some.2 ⟨a, text ++ b, by simpa using ha, hp, rfl⟩

/-- Only the bytes up to where it stops are seen. -/
theorem byte? (h : t.Ahead position text) (i : Nat) :
    t.byte? (position + i) = (text.flatMap String.utf8EncodeChar)[i]? := by
  obtain ⟨before, after, hsource, hb, hs⟩ := slice?_eq_some.1 h
  rw [byte?_eq, utf8Bytes_eq, hsource, List.flatMap_append, List.flatMap_append, ← hs]
  have hbefore := length_flatMap_utf8EncodeChar before
  have htext := length_flatMap_utf8EncodeChar text
  split
  · rw [List.append_assoc, List.getElem?_append_right (by omega),
      List.getElem?_append_left (by omega), hbefore, hb, Nat.add_sub_cancel_left]
  · rw [List.getElem?_eq_none (by omega)]

theorem byte?_nil (h : t.Ahead position []) : t.byte? position = none := h.byte? 0

theorem byte?_cons (h : t.Ahead position (c :: rest)) :
    ∃ byte ∈ String.utf8EncodeChar c, t.byte? position = some byte := by
  have hb := h.byte? 0
  obtain ⟨byte, bytes, he⟩ := List.exists_cons_of_ne_nil (String.utf8EncodeChar_ne_nil (c := c))
  rw [List.flatMap_cons, he] at hb
  exact ⟨byte, he ▸ List.mem_cons_self, hb⟩

theorem byte?_ascii (h : t.Ahead position (c :: rest)) (hc : c.toNat < 128) :
    t.byte? position = some c.toUInt8 := by
  obtain ⟨byte, hm, hb⟩ := h.byte?_cons
  rw [hb, (byte_eq_iff hm hc).2 rfl]

theorem byte?_inside (h : t.Ahead position (c :: rest)) {i : Nat} (hi : i < c.utf8Size) :
    ∃ byte ∈ String.utf8EncodeChar c, t.byte? (position + i) = some byte := by
  have hl : i < (String.utf8EncodeChar c).length := by rwa [String.length_utf8EncodeChar]
  refine ⟨_, List.getElem_mem hl, ?_⟩
  rw [h.byte?, List.flatMap_cons, List.getElem?_append_left hl, List.getElem?_eq_getElem hl]

theorem any_byte? {byteTest : UInt8 → Bool} {test : Char → Bool} (h : t.Ahead position text)
    (ht : Reads byteTest test) : (t.byte? position).any byteTest = text.head?.any test := by
  cases text with
  | nil => rw [h.byte?_nil]; rfl
  | cons c rest =>
    obtain ⟨byte, hm, hb⟩ := h.byte?_cons
    rw [hb]
    exact ht c byte hm

theorem has_eq {ascii : Char} (h : t.Ahead position text) (ha : ascii.toNat < 128) :
    t.has position ascii = text.head?.any (· = ascii) := by
  rw [← h.any_byte? (reads_eq _ ha), has]
  cases t.byte? position <;> simp

theorem has_or_has {a b : Char} (h : t.Ahead position text) (ha : a.toNat < 128)
    (hb : b.toNat < 128) :
    (t.has position a || t.has position b) = text.head?.any (fun c => c = a || c = b) := by
  rw [h.has_eq ha, h.has_eq hb]
  cases text <;> rfl

theorem hasAll_eq {word : List Char} (h : t.Ahead position text)
    (hw : ∀ c ∈ word, c.toNat < 128) :
    t.hasAll (word.map Char.toUInt8) position = word.isPrefixOf text := by
  induction word generalizing position text with
  | nil => rfl
  | cons d word ih =>
    obtain ⟨hd, hword⟩ := List.forall_mem_cons.1 hw
    rw [List.map_cons, hasAll]
    cases text with
    | nil => rw [h.byte?_nil]; rfl
    | cons c rest =>
      obtain ⟨byte, hm, hb⟩ := h.byte?_cons
      rw [hb, List.isPrefixOf]
      by_cases hc : c = d
      · subst hc
        rw [ih (h.tail_ascii hd) hword, (byte_eq_iff hm hd).2 rfl]
        simp
      · have hne := mt (byte_eq_iff hm hd).1 hc
        simp [hne, Ne.symm hc]

theorem countWhile_eq {byteTest : UInt8 → Bool} {test : Char → Bool} (h : t.Ahead position text)
    (ht : Reads byteTest test) :
    t.countWhile position byteTest = byteSize (text.takeWhile test) := by
  have hrange : t.stop - position = byteSize text := by have := h.stop_eq; omega
  unfold countWhile
  rw [hrange]
  induction text generalizing position with
  | nil => rfl
  | cons c rest ih =>
    rw [byteSize_cons, ← List.range'_append_1]
    have hbytes : ∀ i ∈ List.range' position c.utf8Size,
        ((t.byte? i).any byteTest) = test c := fun i hi => by
      obtain ⟨hle, hlt⟩ := List.mem_range'_1.1 hi
      obtain ⟨byte, hm, hb⟩ := h.byte?_inside (i := i - position) (by omega)
      rw [Nat.add_sub_cancel' hle] at hb
      rw [hb]
      exact ht c byte hm
    by_cases hc : test c = true
    · rw [List.takeWhile_append_of_pos fun i hi => by rw [hbytes i hi, hc], List.length_append,
        List.length_range', List.takeWhile_cons_of_pos hc, byteSize_cons, ih h.tail]
      have := h.tail.stop_eq
      omega
    · obtain ⟨n, hn⟩ := Nat.exists_eq_add_one_of_ne_zero (Nat.ne_of_gt c.utf8Size_pos)
      have hfirst := hbytes position (List.mem_range'_1.2 ⟨Nat.le_refl _, by omega⟩)
      rw [List.takeWhile_cons_of_neg hc, hn, List.range'_succ, List.cons_append,
        List.takeWhile_cons_of_neg (hfirst ▸ hc)]
      rfl

theorem character?_nil (h : t.Ahead position []) : t.character? position = some none := by
  have := h.stop_eq
  rw [byteSize_nil] at this
  rw [character?, if_neg (by omega)]

theorem extract_toUTF8 (h : t.Ahead position text) :
    t.source.toUTF8.extract position t.stop = text.utf8Encode := by
  obtain ⟨before, after, hsource, rfl, hs⟩ := slice?_eq_some.1 h
  have hsize (chars : List Char) : chars.utf8Encode.size = byteSize chars := by
    rw [List.utf8Encode, List.size_toByteArray, length_flatMap_utf8EncodeChar]
  have hfrom := ByteArray.extract_append_size_add' (b := (text ++ after).utf8Encode) (i := 0)
    (j := byteSize text) (hsize before).symm
  rw [Nat.add_zero] at hfrom
  rw [String.toUTF8_eq_toByteArray, ← String.utf8Encode_toList, hsource, ← hs, List.append_assoc,
    List.utf8Encode_append, hfrom, List.utf8Encode_append,
    ByteArray.extract_append_eq_left (hsize text).symm]

theorem character?_cons (h : t.Ahead position (c :: rest)) :
    t.character? position = some (some c) := by
  have hstop := h.stop_eq
  have hpos := c.utf8Size_pos
  rw [byteSize_cons] at hstop
  rw [character?, if_pos (by omega), h.extract_toUTF8, List.utf8DecodeChar?_utf8Encode_cons]
  rfl

end Ahead

end Tokeniser

end LenientR
