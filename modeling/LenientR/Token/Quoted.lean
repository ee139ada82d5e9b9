/-!
# Quoted text

Two ways to quote. In a plain quotation a backslash takes the next character with it, so an escaped
quote does not close. A raw quotation `r"--(…)--"` has no escapes and ends at the first closing
bracket followed by as many dashes and the same quote as it opened with.

Lengths are in characters. `closing?` and `through?` find the end, `contents` takes the delimiters
off again.
-/

namespace LenientR.Quoted

/-- How many characters follow an opening quote, up to and including the closing one; `none` if it
is never closed. -/
def closing? (quote : Char) : List Char → Option Nat
  | [] => none
  | c :: rest =>
    if c = '\\' then
      match rest with
      | [] => none
      | _ :: after => (closing? quote after).map (· + 2)
    else if c = quote then some 1
    else (closing? quote rest).map (· + 1)

/-- The bracket that closes a raw quotation. Only called on the three opening brackets. -/
def closingBracket (opening : Char) : Char :=
  if opening = '(' then ')' else if opening = '[' then ']' else '\x7d'

/-- How a raw quotation opens, after its `r`: a quote, some dashes, an opening bracket. -/
structure RawOpening where
  quote : Char
  dashes : Nat
  bracket : Char
deriving DecidableEq

namespace RawOpening

def read? : List Char → Option RawOpening
  | [] => none
  | quote :: rest =>
    if quote = '\x22' || quote = '\x27' then
      let dashes := (rest.takeWhile (· = '-')).length
      match rest.drop dashes with
      | [] => none
      | bracket :: _ =>
        if bracket = '(' || bracket = '[' || bracket = '\x7b' then some ⟨quote, dashes, bracket⟩
        else none
    else none

def chars (opening : RawOpening) : List Char :=
  opening.quote :: (List.replicate opening.dashes '-' ++ [opening.bracket])

def terminator (opening : RawOpening) : List Char :=
  closingBracket opening.bracket :: (List.replicate opening.dashes '-' ++ [opening.quote])

theorem takeWhile_dash_eq (text : List Char) :
    text.takeWhile (· = '-') = List.replicate (text.takeWhile (· = '-')).length '-' :=
  List.eq_replicate_iff.2 ⟨rfl, fun c hc => by
    simpa using List.all_eq_true.1 (List.all_takeWhile (p := (· = '-')) (l := text)) c hc⟩

theorem chars_prefix_of_read? {rest : List Char} {opening : RawOpening}
    (h : read? rest = some opening) : opening.chars <+: rest := by
  unfold read? at h
  split at h
  · simp at h
  rename_i quote after
  split at h
  · dsimp only at h
    split at h
    · simp at h
    rename_i bracket tail hd
    split at h
    · obtain rfl := Option.some.inj h
      refine ⟨tail, ?_⟩
      have ht := List.prefix_iff_eq_take.1 (List.takeWhile_prefix (· = '-') (l := after))
      simp only [chars, List.cons_append, List.append_assoc, List.nil_append]
      rw [← takeWhile_dash_eq, ht, ← hd, List.take_append_drop]
    · simp at h
  · simp at h

end RawOpening

/-- How many characters there are up to the end of the first occurrence of `terminator`. -/
def through? (terminator : List Char) : List Char → Option Nat
  | [] => none
  | c :: rest =>
    if terminator.isPrefixOf (c :: rest) then some terminator.length
    else (through? terminator rest).map (· + 1)

/-- How many characters a delimiter takes at the start of a quotation. A raw one has its `r`, the
quote, the dashes and the bracket there, and all but the `r` at the end. -/
def openingLength : List Char → Nat
  | [] => 1
  | c :: rest =>
    if c = 'r' || c = 'R' then 3 + ((rest.drop 1).takeWhile (· = '-')).length else 1

/-- The text between the delimiters, escapes left as written. -/
def contents (chars : List Char) : List Char :=
  let opening := openingLength chars
  let closing := if opening = 1 then 1 else opening - 1
  (chars.take (chars.length - closing)).drop opening

theorem closing?_le {quote : Char} {chars : List Char} {n : Nat}
    (h : closing? quote chars = some n) : 0 < n ∧ n ≤ chars.length := by
  fun_induction closing? quote chars generalizing n with
  | case1 => simp at h
  | case2 => simp at h
  | case3 c after ih =>
    obtain ⟨m, hm, rfl⟩ := Option.map_eq_some_iff.1 h
    have := ih hm
    simp only [List.length_cons]
    omega
  | case4 => simp_all; omega
  | case5 c rest _ _ ih =>
    obtain ⟨m, hm, rfl⟩ := Option.map_eq_some_iff.1 h
    have := ih hm
    simp only [List.length_cons]
    omega

theorem through?_le {terminator chars : List Char} {n : Nat}
    (h : through? terminator chars = some n) : n ≤ chars.length := by
  fun_induction through? terminator chars generalizing n with
  | case1 => simp at h
  | case2 c rest hp =>
    obtain rfl := Option.some.inj h
    exact (List.isPrefixOf_iff_prefix.1 hp).length_le
  | case3 c rest _ ih =>
    obtain ⟨m, hm, rfl⟩ := Option.map_eq_some_iff.1 h
    have := ih hm
    simp only [List.length_cons]
    omega

end LenientR.Quoted
