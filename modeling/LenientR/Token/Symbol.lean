import LenientR.Token.Kind

/-!
# Symbols

The kinds with a fixed spelling of punctuation. Of the spellings that a text starts with the longest
one is taken: the table lists longer spellings before shorter ones.
-/

namespace LenientR.Symbol

def spellings : List (String × Kind) := [
  ("<<-", .leftSuperAssign), ("->>", .rightSuperAssign), (":::", .colonColonColon),
  ("<-", .leftAssign), ("->", .rightAssign), (":=", .colonEqual), ("::", .colonColon),
  ("&&", .andAnd), ("||", .orOr), ("|>", .pipe), ("**", .caret), ("!=", .bangEqual),
  ("==", .equalEqual), ("<=", .lessEqual), (">=", .greaterEqual), ("[[", .leftDoubleSquare),
  ("(", .leftParen), (")", .rightParen), ("\x7b", .leftCurly), ("\x7d", .rightCurly),
  ("[", .leftSquare), ("]", .rightSquare), (",", .comma), (";", .semicolon), ("$", .dollar),
  ("@", .atSign), ("&", .and), ("|", .or), ("+", .plus), ("-", .minus), ("*", .star),
  ("/", .slash), ("^", .caret), (":", .colon), ("~", .tilde), ("?", .question),
  ("\\", .backslash), ("!", .bang), ("=", .equal), ("<", .less), (">", .greater)]

def table : List (List Char × Kind) := spellings.map fun entry => (entry.1.toList, entry.2)

def match? (chars : List Char) : Option (List Char × Kind) :=
  table.find? fun entry => entry.1.isPrefixOf chars

theorem ne_nil_of_mem_table {entry : List Char × Kind} (h : entry ∈ table) : entry.1 ≠ [] := by
  revert entry
  decide

theorem match?_eq_some {chars spelling : List Char} {kind : Kind}
    (h : match? chars = some (spelling, kind)) :
    (spelling, kind) ∈ table ∧ spelling <+: chars ∧ spelling ≠ [] := by
  have hm := List.mem_of_find?_eq_some h
  have hp := List.find?_some h
  exact ⟨hm, List.isPrefixOf_iff_prefix.1 hp, ne_nil_of_mem_table hm⟩

end LenientR.Symbol
