/-!
# Byte offsets in a text

Texts are lists of characters and offsets count the bytes of their UTF-8 form. `splitBytes?` cuts a
text at an offset and fails inside a character or past the end; `slice?` cuts out a range.
-/

namespace LenientR.Text

def byteSize : List Char → Nat
  | [] => 0
  | c :: rest => c.utf8Size + byteSize rest

@[simp] theorem byteSize_nil : byteSize [] = 0 := rfl

@[simp] theorem byteSize_cons (c : Char) (chars : List Char) :
    byteSize (c :: chars) = c.utf8Size + byteSize chars := rfl

@[simp] theorem byteSize_append (a b : List Char) :
    byteSize (a ++ b) = byteSize a + byteSize b := by
  induction a with
  | nil => simp
  | cons c rest ih => simp [ih, Nat.add_assoc]

theorem byteSize_eq_zero {chars : List Char} : byteSize chars = 0 ↔ chars = [] := by
  cases chars with
  | nil => simp
  | cons c rest => have := c.utf8Size_pos; simp only [byteSize_cons]; constructor <;> grind

/-- The text before an offset and the text from it on; `none` off a character boundary. -/
def splitBytes? : List Char → Nat → Option (List Char × List Char)
  | chars, 0 => some ([], chars)
  | [], _ + 1 => none
  | c :: rest, n + 1 =>
    if c.utf8Size ≤ n + 1 then
      (splitBytes? rest (n + 1 - c.utf8Size)).map fun parts => (c :: parts.1, parts.2)
    else none

theorem splitBytes?_eq_some {chars a b : List Char} {n : Nat} :
    splitBytes? chars n = some (a, b) ↔ chars = a ++ b ∧ byteSize a = n := by
  induction chars generalizing n a b with
  | nil =>
    cases n with
    | zero => simp [splitBytes?]; grind [byteSize_eq_zero]
    | succ n => simp [splitBytes?]; rintro rfl rfl; simp
  | cons c rest ih =>
    have hc := c.utf8Size_pos
    cases n with
    | zero =>
      simp only [splitBytes?, Option.some.injEq, Prod.mk.injEq, byteSize_eq_zero]
      grind
    | succ n =>
      simp only [splitBytes?]
      split
      · rename_i hle
        simp only [Option.map_eq_some_iff, Prod.mk.injEq, Prod.exists, ih]
        constructor
        · rintro ⟨x, y, ⟨rfl, hx⟩, rfl, rfl⟩
          simp only [byteSize_cons, List.cons_append, true_and]
          omega
        · rintro ⟨h, hs⟩
          cases a with
          | nil => simp at hs
          | cons d a =>
            simp only [List.cons_append, List.cons.injEq, byteSize_cons] at h hs
            obtain ⟨rfl, rfl⟩ := h
            exact ⟨a, b, ⟨rfl, by omega⟩, rfl, rfl⟩
      · constructor
        · simp
        · rintro ⟨h, hs⟩
          cases a with
          | nil => simp at hs
          | cons d a =>
            simp only [List.cons_append, List.cons.injEq, byteSize_cons] at h hs
            obtain ⟨rfl, rfl⟩ := h
            omega

/-- The text from one offset up to another; `none` if the offsets are reversed, past the end or
inside a character. -/
def slice? (chars : List Char) (start stop : Nat) : Option (List Char) :=
  if start ≤ stop then do
    let after ← splitBytes? chars start
    let within ← splitBytes? after.2 (stop - start)
    pure within.1
  else none

theorem slice?_eq_some {chars text : List Char} {start stop : Nat} :
    slice? chars start stop = some text ↔
      ∃ before after, chars = before ++ text ++ after ∧
        byteSize before = start ∧ start + byteSize text = stop := by
  unfold slice?
  split
  · simp only [Option.bind_eq_bind, Option.bind_eq_some_iff, Option.pure_def, Option.some.injEq,
      Prod.exists, splitBytes?_eq_some]
    constructor
    · rintro ⟨before, _, ⟨rfl, hb⟩, within, after, ⟨rfl, hw⟩, rfl⟩
      exact ⟨before, after, by simp, hb, by omega⟩
    · rintro ⟨before, after, rfl, hb, hw⟩
      exact ⟨before, text ++ after, ⟨by simp, hb⟩, text, after, ⟨rfl, by omega⟩, rfl⟩
  · constructor
    · simp
    · rintro ⟨_, _, _, rfl, rfl⟩
      omega

end LenientR.Text
