import LenientR.Document
import LenientR.Proofs.Lines.Bytes

/-!
# Looking up a line

A text is its lines one after the other, each with its newline (`Lined`), and the table has where
each of them starts. As these offsets increase, bisection finds how many of them are no greater than
a position, which is the number of the line that the position is on (`linesIndexed`).
-/

namespace LenientR.Text

-- ---------------------------------------------------------------------------
-- Bisection
-- ---------------------------------------------------------------------------

section
variable {numbers : List Nat} {wanted low high middle : Nat}

/-- The numbers in front of `low` are less than the one looked for, those from `high` on greater. -/
structure Encloses (numbers : List Nat) (wanted low high : Nat) : Prop where
  below : ∀ index (h : index < numbers.length), index < low → numbers[index] < wanted
  above : ∀ index (h : index < numbers.length), high ≤ index → wanted < numbers[index]

theorem getElem_le_of_increasing (hs : numbers.Pairwise (· < ·)) {index later : Nat}
    (hle : index ≤ later) (hl : later < numbers.length) : numbers[index] ≤ numbers[later] := by
  rcases Nat.lt_or_eq_of_le hle with hlt | rfl
  · exact Nat.le_of_lt (List.pairwise_iff_getElem.1 hs index later _ hl hlt)
  · exact Nat.le_refl _

theorem Encloses.rightOf (h : Encloses numbers wanted low high) (hs : numbers.Pairwise (· < ·))
    (hm : middle < numbers.length) (hlt : numbers[middle] < wanted) :
    Encloses numbers wanted (middle + 1) high where
  below _ _ hi :=
    Nat.lt_of_le_of_lt (getElem_le_of_increasing hs (Nat.le_of_lt_succ hi) hm) hlt
  above := h.above

theorem Encloses.leftOf (h : Encloses numbers wanted low high) (hs : numbers.Pairwise (· < ·))
    (hm : middle < numbers.length) (hlt : wanted < numbers[middle]) :
    Encloses numbers wanted low middle where
  below := h.below
  above _ hi hle := Nat.lt_of_lt_of_le hlt (getElem_le_of_increasing hs hle hi)

def Bisection.Answers (numbers : List Nat) (wanted : Nat) : Bisection → Prop
  | found index => ∃ h : index < numbers.length, numbers[index] = wanted
  | absent index => index ≤ numbers.length ∧ Encloses numbers wanted index index

theorem answers_bisectWithin (hs : numbers.Pairwise (· < ·)) (hle : high ≤ numbers.length)
    (h : Encloses numbers wanted low high) (hlow : low ≤ high) :
    (bisectWithin numbers wanted low high hle).Answers numbers wanted := by
  fun_induction bisectWithin numbers wanted low high hle with
  | case1 low high hle hlt middle hmiddle heq => exact ⟨hmiddle, heq⟩
  | case2 low high hle hlt middle hmiddle hne hless ih =>
    exact ih (h.rightOf hs hmiddle hless) (by omega)
  | case3 low high hle hlt middle hmiddle hne hless ih =>
    exact ih (h.leftOf hs hmiddle (by omega)) (by omega)
  | case4 low high hle hlt =>
    obtain rfl : low = high := by omega
    exact ⟨hle, h⟩

theorem answers_bisect (hs : numbers.Pairwise (· < ·)) (wanted : Nat) :
    (bisect numbers wanted).Answers numbers wanted :=
  answers_bisectWithin hs (Nat.le_refl _)
    ⟨fun _ _ h => absurd h (Nat.not_lt_zero _), fun _ h hle => absurd h (Nat.not_lt.2 hle)⟩
    (Nat.zero_le _)

end

namespace LineTable

variable {table : LineTable}

theorem lt_lineAt_iff (hs : table.starts.Pairwise (· < ·)) (position : Nat) {index : Nat}
    (hi : index < table.starts.length) :
    index < table.lineAt position ↔ table.starts[index] ≤ position := by
  have h := answers_bisect hs position
  unfold lineAt
  cases hfound : bisect table.starts position with
  | found found =>
    rw [hfound] at h
    obtain ⟨hf, rfl⟩ := h
    refine ⟨fun hlt => getElem_le_of_increasing hs (Nat.le_of_lt_succ hlt) hf, fun hle => ?_⟩
    refine Nat.lt_succ_of_le (Nat.le_of_not_lt fun hlt => ?_)
    exact Nat.not_le.2 (List.pairwise_iff_getElem.1 hs found index hf hi hlt) hle
  | absent found =>
    rw [hfound] at h
    refine ⟨fun hlt => Nat.le_of_lt (h.2.below index hi hlt), fun hle => ?_⟩
    exact Nat.lt_of_not_le fun hlt => Nat.not_le.2 (h.2.above index hi hlt) hle

theorem lineAt_le (hs : table.starts.Pairwise (· < ·)) (position : Nat) :
    table.lineAt position ≤ table.starts.length := by
  have h := answers_bisect hs position
  unfold lineAt
  cases hfound : bisect table.starts position with
  | found found =>
    rw [hfound] at h
    exact h.1
  | absent found =>
    rw [hfound] at h
    exact h.1

/-- Counting the lines that start no later finds the same line. -/
theorem lineAt_eq_countP (hs : table.starts.Pairwise (· < ·)) (position : Nat) :
    table.lineAt position = table.starts.countP (· ≤ position) := by
  have hle := lineAt_le hs position
  have htake : (table.starts.take (table.lineAt position)).countP (· ≤ position) =
      (table.starts.take (table.lineAt position)).length := by
    refine List.countP_eq_length.2 fun start hm => decide_eq_true ?_
    obtain ⟨index, hi, rfl⟩ := List.getElem_of_mem hm
    rw [List.length_take] at hi
    rw [List.getElem_take]
    exact (lt_lineAt_iff hs position _).1 (by omega)
  have hdrop : (table.starts.drop (table.lineAt position)).countP (· ≤ position) = 0 := by
    refine List.countP_eq_zero.2 fun start hm => ?_
    obtain ⟨index, hi, rfl⟩ := List.getElem_of_mem hm
    rw [List.length_drop] at hi
    rw [List.getElem_drop, decide_eq_true_eq, ← lt_lineAt_iff hs position (by omega)]
    omega
  calc table.lineAt position
    _ = (table.starts.take (table.lineAt position)).length := (List.length_take_of_le hle).symm
    _ = (table.starts.take (table.lineAt position)).countP (· ≤ position) +
        (table.starts.drop (table.lineAt position)).countP (· ≤ position) := by
      rw [htake, hdrop, Nat.add_zero]
    _ = table.starts.countP (· ≤ position) := by
      rw [← List.countP_append, List.take_append_drop]

end LineTable

-- ---------------------------------------------------------------------------
-- Newlines
-- ---------------------------------------------------------------------------

section
variable {text chars : List Char} {offset start : Nat}

theorem lineStartsFrom_append (h : '\n' ∉ text) (offset : Nat) (rest : List Char) :
    lineStartsFrom offset (text ++ rest) = lineStartsFrom (offset + byteSize text) rest := by
  induction text generalizing offset with
  | nil => rfl
  | cons c text ih =>
    obtain ⟨hc, htext⟩ := not_or.1 (mt List.mem_cons.2 h)
    rw [List.cons_append, lineStartsFrom, if_neg (Ne.symm hc), ih htext, byteSize_cons,
      Nat.add_assoc]

theorem lineStartsFrom_newline (offset : Nat) (rest : List Char) :
    lineStartsFrom offset ('\n' :: rest) = (offset + 1) :: lineStartsFrom (offset + 1) rest :=
  rfl

theorem lt_of_mem_lineStartsFrom (h : start ∈ lineStartsFrom offset chars) : offset < start := by
  induction chars generalizing offset with
  | nil => cases h
  | cons c rest ih =>
    have hc := c.utf8Size_pos
    rw [lineStartsFrom] at h
    split at h
    · rcases List.mem_cons.1 h with rfl | h
      · exact Nat.lt_add_of_pos_right hc
      · exact Nat.lt_trans (Nat.lt_add_of_pos_right hc) (ih h)
    · exact Nat.lt_trans (Nat.lt_add_of_pos_right hc) (ih h)

theorem increasing_lineStartsFrom (offset : Nat) (chars : List Char) :
    (lineStartsFrom offset chars).Pairwise (· < ·) := by
  induction chars generalizing offset with
  | nil => exact .nil
  | cons c rest ih =>
    rw [lineStartsFrom]
    split
    · exact List.pairwise_cons.2 ⟨fun _ => lt_of_mem_lineStartsFrom, ih _⟩
    · exact ih _

theorem increasing_starts (chars : List Char) :
    (LineTable.ofText chars).starts.Pairwise (· < ·) :=
  List.pairwise_cons.2 ⟨fun _ => lt_of_mem_lineStartsFrom, increasing_lineStartsFrom 0 chars⟩

theorem length_lineStartsFrom (offset : Nat) (chars : List Char) :
    (lineStartsFrom offset chars).length =
      (chars.flatMap String.utf8EncodeChar).count newlineByte := by
  induction chars generalizing offset with
  | nil => rfl
  | cons c rest ih =>
    rw [lineStartsFrom, List.flatMap_cons, List.count_append]
    split
    · rename_i hc
      rw [hc, utf8EncodeChar_newline, List.length_cons, ih, Nat.add_comm]
      rfl
    · rename_i hc
      rw [List.count_eq_zero.2 (newlineByte_not_mem hc), Nat.zero_add, ih]

/-- A line starts no later than a position if the newline before it is in front of the position. -/
theorem countP_lineStartsFrom (position offset : Nat) (chars : List Char) :
    (lineStartsFrom offset chars).countP (· ≤ position) =
      ((chars.flatMap String.utf8EncodeChar).take (position - offset)).count newlineByte := by
  induction chars generalizing offset with
  | nil => simp [lineStartsFrom]
  | cons c rest ih =>
    rw [lineStartsFrom, List.flatMap_cons, List.take_append, List.count_append,
      String.length_utf8EncodeChar, Nat.sub_sub, ← ih]
    split
    · rename_i hc
      have hone : c.utf8Size = 1 := by rw [hc]; rfl
      rw [List.countP_cons, Nat.add_comm, hc, utf8EncodeChar_newline, ← hc, hone]
      congr 1
      by_cases hle : offset + 1 ≤ position
      · rw [List.take_of_length_le (by simp only [List.length_singleton]; omega)]
        simp [hle]
      · simp [hle, show position - offset = 0 by omega]
    · rename_i hc
      have hnone : newlineByte ∉ (String.utf8EncodeChar c).take (position - offset) :=
        fun hm => newlineByte_not_mem hc (List.mem_of_mem_take hm)
      rw [List.count_eq_zero.2 hnone, Nat.zero_add]

end

theorem lineAt_ofText (source : String) (position : Nat) :
    (LineTable.ofText source.toList).lineAt position = 1 + newlinesBefore source position := by
  rw [LineTable.lineAt_eq_countP (increasing_starts _), newlinesBefore, utf8Bytes_eq]
  simp only [LineTable.ofText, List.countP_cons, countP_lineStartsFrom, Nat.sub_zero]
  simp [Nat.add_comm]

theorem length_starts_ofText (source : String) :
    (LineTable.ofText source.toList).starts.length = newlines source + 1 := by
  rw [newlines, utf8Bytes_eq, ← length_lineStartsFrom 0]
  rfl

-- ---------------------------------------------------------------------------
-- Lines
-- ---------------------------------------------------------------------------

/-- A text and its lines. Every line but the last ends in a newline, and has no other. -/
inductive Lined : List Char → List (List Char) → Prop
  | last {text : List Char} (h : '\n' ∉ text) : Lined text [text]
  | line {text rest : List Char} {lines : List (List Char)} (h : '\n' ∉ text)
      (hr : Lined rest lines) : Lined (text ++ '\n' :: rest) ((text ++ ['\n']) :: lines)

theorem exists_lined (chars : List Char) : ∃ lines, Lined chars lines := by
  induction chars with
  | nil => exact ⟨[[]], .last List.not_mem_nil⟩
  | cons c rest ih =>
    obtain ⟨lines, h⟩ := ih
    by_cases hc : c = '\n'
    · rw [hc, ← List.nil_append ('\n' :: rest)]
      exact ⟨_, .line List.not_mem_nil h⟩
    have hcons {text : List Char} (ht : '\n' ∉ text) : '\n' ∉ c :: text :=
      fun hm => (List.mem_cons.1 hm).elim (fun he => hc he.symm) ht
    cases h with
    | last h => exact ⟨_, .last (hcons h)⟩
    | line h hr =>
      rw [← List.cons_append]
      exact ⟨_, .line (hcons h) hr⟩

namespace Lined

variable {chars : List Char} {lines : List (List Char)}

theorem flatten (h : Lined chars lines) : lines.flatten = chars := by
  induction h with
  | last _ => exact List.append_nil _
  | line _ _ ih => rw [List.flatten_cons, ih, List.append_assoc, List.singleton_append]

theorem newline_not_mem_dropLast (h : Lined chars lines) :
    ∀ line ∈ lines, '\n' ∉ line.dropLast := by
  induction h with
  | last h => exact List.forall_mem_singleton.2 fun hm => h (List.dropLast_subset _ hm)
  | line h _ ih => exact List.forall_mem_cons.2 ⟨by rwa [List.dropLast_concat], ih⟩

theorem starts_eq (h : Lined chars lines) (offset : Nat) :
    offset :: lineStartsFrom offset chars =
      (List.range lines.length).map fun index => offset + byteSize (lines.take index).flatten := by
  induction h generalizing offset with
  | @last text h =>
    have hnone := lineStartsFrom_append h offset []
    rw [List.append_nil] at hnone
    rw [hnone]
    rfl
  | @line text rest lines h _ ih =>
    rw [lineStartsFrom_append h, lineStartsFrom_newline, ih, List.length_cons,
      List.range_succ_eq_map, List.map_cons, List.map_map]
    refine congrArg (offset :: ·) (List.map_congr_left fun index _ => ?_)
    have hone : byteSize ['\n'] = 1 := rfl
    simp only [Function.comp_apply, Nat.succ_eq_add_one, List.take_succ_cons, List.flatten_cons,
      byteSize_append, hone]
    omega

theorem length_starts (h : Lined chars lines) :
    (LineTable.ofText chars).starts.length = lines.length := by
  have hlength := congrArg List.length (h.starts_eq 0)
  rwa [List.length_map, List.length_range] at hlength

theorem getElem?_starts (h : Lined chars lines) {index : Nat} (hi : index < lines.length) :
    (LineTable.ofText chars).starts[index]? = some (byteSize (lines.take index).flatten) := by
  have hstart := congrArg (·[index]?) (h.starts_eq 0)
  simp only [List.getElem?_map, List.getElem?_range hi, Option.map_some, Nat.zero_add] at hstart
  exact hstart

theorem spanOf? (h : Lined chars lines) {index : Nat} (hi : index < lines.length) :
    (LineTable.ofText chars).spanOf? (index + 1) =
      some ⟨byteSize (lines.take index).flatten, byteSize (lines.take (index + 1)).flatten⟩ := by
  rw [LineTable.spanOf?, h.getElem?_starts hi]
  by_cases hnext : index + 1 < lines.length
  · rw [h.getElem?_starts hnext]
    rfl
  · have he : index + 1 = lines.length := by omega
    rw [List.getElem?_eq_none (by rw [h.length_starts]; omega), he, List.take_length, h.flatten]
    rfl

theorem slice? (h : Lined chars lines) {index : Nat} (hi : index < lines.length) :
    Text.slice? chars (byteSize (lines.take index).flatten)
      (byteSize (lines.take (index + 1)).flatten) = some lines[index] := by
  refine slice?_eq_some.2
    ⟨(lines.take index).flatten, (lines.drop (index + 1)).flatten, ?_, rfl, ?_⟩
  · calc chars
      _ = (lines.take index ++ lines[index] :: lines.drop (index + 1)).flatten := by
        rw [List.getElem_cons_drop, List.take_append_drop, h.flatten]
      _ = _ := by
        rw [List.flatten_append, List.flatten_cons, List.append_assoc]
  · rw [List.take_succ_eq_append_getElem hi, List.flatten_append, byteSize_append,
      List.flatten_singleton]

theorem of_spanOf? (h : Lined chars lines) {line : Nat} {span : Span}
    (hs : (LineTable.ofText chars).spanOf? line = some span) :
    ∃ index, line = index + 1 ∧ index < lines.length ∧ span =
      ⟨byteSize (lines.take index).flatten, byteSize (lines.take (index + 1)).flatten⟩ := by
  cases line with
  | zero => cases hs
  | succ index =>
    have hi : index < lines.length := by
      rw [← h.length_starts]
      rw [LineTable.spanOf?] at hs
      obtain ⟨start, hstart, _⟩ := Option.map_eq_some_iff.1 hs
      exact (List.getElem?_eq_some_iff.1 hstart).1
    exact ⟨index, rfl, hi, Option.some.inj (hs.symm.trans (h.spanOf? hi))⟩

/-- The lines up to the one a position is on are those that start no later. -/
theorem lt_lineAt_iff (h : Lined chars lines) (position : Nat) {index : Nat}
    (hi : index < lines.length) : index < (LineTable.ofText chars).lineAt position ↔
      byteSize (lines.take index).flatten ≤ position := by
  obtain ⟨hi', he⟩ := List.getElem?_eq_some_iff.1 (h.getElem?_starts hi)
  rw [← he]
  exact LineTable.lt_lineAt_iff (increasing_starts chars) position hi'

theorem lineAt_le (h : Lined chars lines) (position : Nat) :
    (LineTable.ofText chars).lineAt position ≤ lines.length :=
  h.length_starts ▸ LineTable.lineAt_le (increasing_starts chars) position

theorem lineAt_pos (h : Lined chars lines) (position : Nat) :
    0 < (LineTable.ofText chars).lineAt position := by
  have hfirst : 0 < lines.length := by
    rw [← h.length_starts]
    exact Nat.succ_pos _
  exact (h.lt_lineAt_iff position hfirst).2 (Nat.zero_le _)

theorem within (h : Lined chars lines) {position : Nat} (hp : position < byteSize chars) :
    ∃ span, (LineTable.ofText chars).spanOf? ((LineTable.ofText chars).lineAt position) =
      some span ∧ span.start ≤ position ∧ position < span.stop := by
  have hle := h.lineAt_le position
  obtain ⟨index, hindex⟩ := Nat.exists_eq_add_one.2 (h.lineAt_pos position)
  have hi : index < lines.length := by omega
  have hbelow : byteSize (lines.take index).flatten ≤ position :=
    (h.lt_lineAt_iff position hi).1 (by omega)
  refine ⟨_, (congrArg _ hindex).trans (h.spanOf? hi), hbelow, ?_⟩
  by_cases hnext : index + 1 < lines.length
  · refine Nat.lt_of_not_le fun hle' => ?_
    have hlater := (h.lt_lineAt_iff position hnext).2 hle'
    omega
  · have he : index + 1 = lines.length := by omega
    rwa [he, List.take_length, h.flatten]

end Lined

theorem spanOf?_eq_none_iff (source : String) (line : Nat) :
    (LineTable.ofText source.toList).spanOf? line = none ↔
      line = 0 ∨ newlines source + 1 < line := by
  cases line with
  | zero => simp [LineTable.spanOf?]
  | succ index =>
    rw [LineTable.spanOf?, Option.map_eq_none_iff, List.getElem?_eq_none_iff, length_starts_ofText]
    omega

-- ---------------------------------------------------------------------------
-- The table of a source
-- ---------------------------------------------------------------------------

/-- What a table says of the lines of a source. -/
structure LineTable.Indexes (table : LineTable) (source : String) : Prop where
  /-- Positions past the end are on the last line. -/
  firstLine : ∀ span, table.firstLine span =
    1 + newlinesBefore source (min span.start source.utf8ByteSize)
  lastLine : ∀ span, table.lastLine span =
    1 + newlinesBefore source (min span.stop source.utf8ByteSize)
  /-- There is one more line than there are newlines. -/
  none_iff : ∀ line, table.spanOf? line = none ↔ line = 0 ∨ newlines source + 1 < line
  start : ∃ stop, table.spanOf? 1 = some ⟨0, stop⟩
  stop : ∃ start, table.spanOf? (newlines source + 1) = some ⟨start, source.utf8ByteSize⟩
  consecutive : ∀ line span next, table.spanOf? line = some span →
    table.spanOf? (line + 1) = some next → span.stop = next.start
  /-- The lines can be cut out, make up the source, and have no newline except at their end. -/
  texts : ∃ texts : List (List Char), texts.length = newlines source + 1 ∧
    texts.flatten = source.toList ∧ ∀ index (h : index < texts.length),
      (∃ span, table.spanOf? (index + 1) = some span ∧
        Text.slice? source.toList span.start span.stop = some texts[index]) ∧
      '\n' ∉ texts[index].dropLast
  /-- A position is on the line it is in, newlines being in the line that they end. -/
  within : ∀ position < source.utf8ByteSize, ∃ span,
    table.spanOf? (table.firstLine (.point position)) = some span ∧
      span.start ≤ position ∧ position < span.stop

/-- The table of the lines of a source. -/
theorem linesIndexed (source : String) : (LineTable.ofText source.toList).Indexes source := by
  obtain ⟨lines, h⟩ := exists_lined source.toList
  have hlength : lines.length = newlines source + 1 :=
    h.length_starts.symm.trans (length_starts_ofText source)
  have hfirst : 0 < lines.length := by omega
  have hlast : newlines source < lines.length := by omega
  have hstop : byteSize (lines.take (newlines source + 1)).flatten = source.utf8ByteSize := by
    rw [← hlength, List.take_length, h.flatten, byteSize_toList]
  have hline (position : Nat) : (LineTable.ofText source.toList).lineAt position =
      1 + newlinesBefore source (min position source.utf8ByteSize) := by
    rw [newlinesBefore_min, lineAt_ofText]
  exact {
    firstLine := fun span => hline span.start
    lastLine := fun span => hline span.stop
    none_iff := spanOf?_eq_none_iff source
    start := ⟨_, h.spanOf? hfirst⟩
    stop := ⟨_, hstop ▸ h.spanOf? hlast⟩
    consecutive := fun line span next hspan hnext => by
      obtain ⟨index, rfl, _, rfl⟩ := h.of_spanOf? hspan
      obtain ⟨_, hi, _, rfl⟩ := h.of_spanOf? hnext
      rw [Nat.succ.inj hi]
    texts := ⟨lines, hlength, h.flatten, fun index hi =>
      ⟨⟨_, h.spanOf? hi, h.slice? hi⟩, h.newline_not_mem_dropLast _ (List.getElem_mem hi)⟩⟩
    within := fun position hp => h.within (byteSize_toList source ▸ hp) }

end LenientR.Text
