import LenientR.Proofs.Lines.Table
import LenientR.Proofs.Report.Highlight
import LenientR.Report.Frame
import Mathlib.Data.List.Forall2

/-!
# What a code frame shows

A position is always on a line that there is, so all lines from that of the start of a span to that
of its end can be cut out. A line has no newline but at its end, highlighting keeps it, and where it
has none the frame adds it, so each row is one line of what is shown (`showsLines`).
-/

namespace LenientR.Report

open Text (Lined LineTable)

theorem exists_mapM {α β : Type} {f : α → Option β} {R : α → β → Prop} {items : List α}
    (h : ∀ item ∈ items, ∃ result, f item = some result ∧ R item result) :
    ∃ results, items.mapM f = some results ∧ List.Forall₂ R items results := by
  induction items with
  | nil => exact ⟨[], rfl, .nil⟩
  | cons item items ih =>
    obtain ⟨hitem, hitems⟩ := List.forall_mem_cons.1 h
    obtain ⟨result, hresult, hr⟩ := hitem
    obtain ⟨results, hresults, hrs⟩ := ih hitems
    refine ⟨result :: results, ?_, .cons hr hrs⟩
    rw [List.mapM_cons, hresult, hresults]
    rfl

-- ---------------------------------------------------------------------------
-- Newlines
-- ---------------------------------------------------------------------------

def EndsInNewline (text : List Char) : Prop := ∃ body, text = body ++ ['\n'] ∧ '\n' ∉ body

theorem EndsInNewline.append_left {before text : List Char} (hb : '\n' ∉ before)
    (h : EndsInNewline text) : EndsInNewline (before ++ text) := by
  obtain ⟨body, rfl, hbody⟩ := h
  refine ⟨before ++ body, (List.append_assoc ..).symm, fun hm => ?_⟩
  exact (List.mem_append.1 hm).elim hb hbody

theorem newline_not_mem_of_last {text : List Char} (h : '\n' ∉ text.dropLast)
    (hlast : text.getLast? ≠ some '\n') : '\n' ∉ text := by
  intro hm
  have hne : text ≠ [] := List.ne_nil_of_mem hm
  rw [List.getLast?_eq_some_getLast hne] at hlast
  rw [← List.dropLast_concat_getLast hne, List.mem_append, List.mem_singleton] at hm
  exact hm.elim h fun he => hlast (congrArg some he.symm)

theorem newline_not_mem_spacedFrom {tokens : List Token} {chars : List Char} (h : '\n' ∉ chars)
    (offset : Nat) : '\n' ∉ spacedFrom tokens offset chars := by
  induction chars generalizing offset with
  | nil => exact List.not_mem_nil
  | cons c rest ih =>
    obtain ⟨hc, hrest⟩ := not_or.1 (mt List.mem_cons.2 h)
    refine fun hm => (List.mem_cons.1 hm).elim (fun he => ?_) (ih hrest _)
    rw [spacedChar] at he
    split at he
    · exact absurd he (by decide)
    · exact hc he

theorem spacedFrom_newline (tokens : List Token) (offset : Nat) :
    spacedFrom tokens offset ['\n'] = ['\n'] :=
  rfl

theorem isDigit_of_mem_repr {n : Nat} : ∀ c ∈ n.repr.toList, c.isDigit = true := by
  rw [Nat.toList_repr]
  exact fun c => Nat.isDigit_of_mem_toDigits (by decide) (by decide)

theorem toList_padNumber (number : Nat) : (padNumber number).toList =
    List.replicate (3 - number.repr.length) ' ' ++ number.repr.toList := by
  simp [padNumber]

theorem not_mem_padNumber {c : Char} (hd : c.isDigit = false) (hs : c ≠ ' ') (number : Nat) :
    c ∉ (padNumber number).toList := by
  rw [toList_padNumber, List.mem_append, List.mem_replicate]
  rintro (h | h)
  · exact hs h.2
  · exact absurd (isDigit_of_mem_repr c h) (Bool.eq_false_iff.1 hd)

theorem newline_not_mem_padNumber (number : Nat) : '\n' ∉ (padNumber number).toList :=
  not_mem_padNumber rfl (by decide) number

namespace Frame

theorem newline_not_mem_margin (line : Nat) (text : List Char) :
    '\n' ∉ (margin line text).plain.toList := by
  have hnumber := newline_not_mem_padNumber line
  rw [toList_plain]
  cases text <;> simp [margin, plainText, hnumber]

/-- A line that is shown ends in a newline: its own, or the one written after it. -/
theorem endsInNewline_highlighted {text : List Char} (h : '\n' ∉ text.dropLast) :
    EndsInNewline (spacedFrom (tokensFrom 0 text) 0 text ++ (lineEnd text).plain.toList) := by
  by_cases hlast : text.getLast? = some '\n'
  · have hnone : (lineEnd text).plain.toList = [] := by
      rw [lineEnd, if_pos hlast]
      rfl
    obtain ⟨body, rfl⟩ := List.getLast?_eq_some_iff.1 hlast
    rw [List.dropLast_concat] at h
    rw [hnone, List.append_nil, spacedFrom_append, spacedFrom_newline]
    exact ⟨_, rfl, newline_not_mem_spacedFrom h 0⟩
  · have hone : (lineEnd text).plain.toList = ['\n'] := by
      rw [lineEnd, if_neg hlast]
      rfl
    have htext : '\n' ∉ text := newline_not_mem_of_last h hlast
    rw [hone]
    exact ⟨_, rfl, newline_not_mem_spacedFrom htext 0⟩

-- ---------------------------------------------------------------------------
-- Rows
-- ---------------------------------------------------------------------------

variable {frame : Frame} {lines : List (List Char)}

/-- A row has the number of a line, its text as it looks highlighted, and one newline at the end. -/
def ShowsLine (lines : List (List Char)) (line : Nat) (row : Styled) : Prop :=
  ∃ text shown, lines[line - 1]? = some text ∧ highlight? text = some shown ∧
    row = margin line text ++ shown ++ lineEnd text ∧ EndsInNewline row.plain.toList

theorem lineText?_eq_some (h : Lined frame.source lines) {index : Nat} (hi : index < lines.length) :
    frame.lineText? (index + 1) = some lines[index] := by
  rw [lineText?, Frame.lines, h.spanOf? hi]
  exact h.slice? hi

theorem exists_row (h : Lined frame.source lines) {index : Nat} (hi : index < lines.length) :
    ∃ row, frame.row? (index + 1) = some row ∧ ShowsLine lines (index + 1) row := by
  have htext := lineText?_eq_some h hi
  have hshown := highlight?_eq_some lines[index]
  refine ⟨_, ?_, _, _, List.getElem?_eq_getElem hi, hshown, rfl, ?_⟩
  · rw [row?, htext]
    simp only [Option.bind_eq_bind, Option.bind_some, hshown, Option.pure_def]
  · rw [plain_append, plain_append, plain_highlighted, List.append_assoc]
    exact .append_left (newline_not_mem_margin _ _)
      (endsInNewline_highlighted (h.newline_not_mem_dropLast _ (List.getElem_mem hi)))

theorem firstLine_eq (frame : Frame) : frame.firstLine = frame.lines.firstLine frame.span := by
  obtain ⟨_, h⟩ := Text.exists_lined frame.source
  exact Nat.max_eq_left (h.lineAt_pos frame.span.start)

theorem lastLine_eq (frame : Frame) : frame.lastLine =
    max (frame.lines.firstLine frame.span) (frame.lines.lastLine frame.span) := by
  rw [lastLine, firstLine_eq, Nat.max_comm]

theorem exists_index (h : Lined frame.source lines) {line : Nat} (hm : line ∈ frame.lineNumbers) :
    ∃ index, line = index + 1 ∧ index < lines.length := by
  have hpos : 0 < frame.lines.firstLine frame.span := h.lineAt_pos frame.span.start
  have hfirst : frame.lines.firstLine frame.span ≤ lines.length := h.lineAt_le frame.span.start
  have hlast : frame.lines.lastLine frame.span ≤ lines.length := h.lineAt_le frame.span.stop
  rw [lineNumbers, lastLine_eq, firstLine_eq, List.mem_range'_1] at hm
  exact ⟨line - 1, by omega, by omega⟩

theorem plain_header (frame : Frame) : frame.header.plain = "    ╭─[" ++ displayName frame.title ++
    ":" ++ toString (frame.lines.firstLine frame.span) ++ "]\n" := by
  rw [← String.toList_inj, toList_plain, header, firstLine_eq]
  simp [plainText]

/-- Every span has a frame. It shows the lines from the one the span starts on to the one it ends
on, a row for each, and of a reversed span the first alone. -/
theorem showsLines (title source : String) (span : Span) :
    let frame : Frame := ⟨title, source.toList, span⟩
    let first := frame.lines.firstLine span
    let last := max first (frame.lines.lastLine span)
    frame.styled? = some frame.styled ∧
      frame.header.plain = "    ╭─[" ++ displayName title ++ ":" ++ toString first ++ "]\n" ∧
      ∃ lines rows, Lined source.toList lines ∧
        frame.styled = frame.header ++ rows.flatten ++ footer ∧
        List.Forall₂ (ShowsLine lines) (List.range' first (last + 1 - first)) rows := by
  intro frame first last
  obtain ⟨lines, h⟩ := Text.exists_lined frame.source
  have hnumbers : frame.lineNumbers = List.range' first (last + 1 - first) := by
    rw [lineNumbers, lastLine_eq, firstLine_eq]
  have hrow : ∀ line ∈ frame.lineNumbers,
      ∃ row, frame.row? line = some row ∧ ShowsLine lines line row := by
    intro line hm
    obtain ⟨index, rfl, hi⟩ := exists_index h hm
    exact exists_row h hi
  obtain ⟨rows, hrows, hshows⟩ := exists_mapM hrow
  have hstyled : frame.styled? = some (frame.header ++ rows.flatten ++ footer) := by
    rw [styled?, hrows]
    rfl
  have heq : frame.styled = frame.header ++ rows.flatten ++ footer := by
    rw [styled, hstyled, Option.getD_some]
  exact ⟨heq ▸ hstyled, frame.plain_header, lines, rows, h, heq, hnumbers ▸ hshows⟩

end Frame

end LenientR.Report
