import LenientR.Command
import LenientR.Proofs.Report.Frame
import LenientR.Proofs.Scanning.Spellings

/-!
# What a listing of tokens tells

A line of a listing can be read back: it gives the start and the kind of a token and, if the kind
has no fixed length, the length (`eq_of_tokenLine_eq`). As kinds of fixed length have one spelling
each, `caret` aside, a listing tells where every token ends but those (`listing_tells`).
-/

namespace LenientR

/-- What holds of every kind can be looked up kind by kind. -/
instance Kind.decidableForall {p : Kind → Prop} [DecidablePred p] :
    Decidable (∀ kind, p kind) :=
  decidable_of_iff (∀ i < 66, p (Kind.ofNat i))
    ⟨fun h kind => Kind.ofNat_ctorIdx kind ▸ h _ (by cases kind <;> decide), fun h _ _ => h _⟩

theorem Kind.describe_inj :
    ∀ kind other : Kind, kind.describe = other.describe → kind = other := by
  decide +kernel

-- ---------------------------------------------------------------------------
-- Numbers
-- ---------------------------------------------------------------------------

theorem repr_toList_inj {m n : Nat} (h : m.repr.toList = n.repr.toList) : m = n := by
  rw [Nat.toList_repr, Nat.toList_repr] at h
  have hread := congrArg (Nat.ofDigitChars 10 · 0) h
  simpa only [Nat.ofDigitChars_toDigits (by decide : 1 < 10) (by decide : 10 ≤ 10)] using hread

namespace Report

theorem padNumber_inj {m n : Nat} (h : (padNumber m).toList = (padNumber n).toList) : m = n := by
  have hdigits (n : Nat) : (padNumber n).toList.filter Char.isDigit = n.repr.toList := by
    rw [toList_padNumber, List.filter_append, List.filter_eq_self.2 isDigit_of_mem_repr,
      List.filter_eq_nil_iff.2 (by simp +decide), List.nil_append]
  refine repr_toList_inj ?_
  rw [← hdigits m, ← hdigits n, h]

/-- Equal texts are equal up to the first occurrence of a character, and from there on. -/
theorem eq_of_append_cons_eq {c : Char} {x y rest more : List Char} (hx : c ∉ x) (hy : c ∉ y)
    (h : x ++ c :: rest = y ++ c :: more) : x = y ∧ rest = more := by
  induction x generalizing y with
  | nil =>
    cases y with
    | nil => exact ⟨rfl, (List.cons.inj h).2⟩
    | cons d y => exact absurd (List.cons.inj h).1 (List.ne_of_not_mem_cons hy)
  | cons d x ih =>
    cases y with
    | nil => exact absurd (List.cons.inj h).1.symm (List.ne_of_not_mem_cons hx)
    | cons e y =>
      obtain ⟨rfl, htail⟩ := List.cons.inj h
      obtain ⟨rfl, hrest⟩ :=
        ih (List.not_mem_of_not_mem_cons hx) (List.not_mem_of_not_mem_cons hy) htail
      exact ⟨rfl, hrest⟩

theorem eq_of_flatten_eq {lines others : List (List Char)}
    (hl : ∀ line ∈ lines, EndsInNewline line) (ho : ∀ line ∈ others, EndsInNewline line)
    (h : lines.flatten = others.flatten) : lines = others := by
  induction lines generalizing others with
  | nil =>
    cases others with
    | nil => rfl
    | cons other others =>
      obtain ⟨body, rfl, _⟩ := ho other List.mem_cons_self
      simp at h
  | cons line lines ih =>
    obtain ⟨⟨body, rfl, hbody⟩, hlines⟩ := List.forall_mem_cons.1 hl
    cases others with
    | nil => simp at h
    | cons other others =>
      obtain ⟨⟨text, rfl, htext⟩, hothers⟩ := List.forall_mem_cons.1 ho
      simp only [List.flatten_cons, List.append_assoc, List.singleton_append] at h
      obtain ⟨rfl, hrest⟩ := eq_of_append_cons_eq hbody htext h
      rw [ih hlines hothers hrest]

end Report

-- ---------------------------------------------------------------------------
-- Lines
-- ---------------------------------------------------------------------------

namespace Command

open Report

variable {a b : Token}

def noted (kind : Kind) (length : Nat) : List Char :=
  kind.describe.toList ++
    if kind.hasFixedLength then [] else " (length: ".toList ++ (length.repr.toList ++ [')'])

theorem noted_of_length {kind : Kind} (h : kind.hasFixedLength = false) (length : Nat) :
    noted kind length = (kind.describe.toList ++ [' ']) ++
      '(' :: ("length: ".toList ++ (length.repr.toList ++ [')'])) := by
  simp [noted, h]

theorem toList_tokenLine (token : Token) : (tokenLine token).toList =
    ((padNumber token.start).toList ++ [' ']) ++
      '│' :: ' ' :: (noted token.kind token.length ++ ['\n']) := by
  unfold tokenLine noted
  split <;> simp

/-- A note with a length is longer than any without one. -/
theorem length_noted_le_iff (kind : Kind) (length : Nat) :
    (noted kind length).length ≤ 11 ↔ kind.hasFixedLength = true := by
  have hshort : ∀ kind : Kind, kind.hasFixedLength = true →
      kind.describe.toList.length ≤ 11 := by
    decide +kernel
  have hsome : ∀ kind : Kind, 0 < kind.describe.toList.length := by
    decide +kernel
  cases hf : kind.hasFixedLength with
  | true => simpa [noted, hf] using hshort kind hf
  | false =>
    have := hsome kind
    simp only [noted_of_length hf, List.length_append, List.length_cons, List.length_nil,
      Bool.false_eq_true, iff_false, show "length: ".toList.length = 8 from rfl]
    omega

theorem noted_inj {kind other : Kind} {length size : Nat}
    (h : noted kind length = noted other size) :
    kind = other ∧ (kind.hasFixedLength = false → length = size) := by
  have hfixed : kind.hasFixedLength = other.hasFixedLength := by
    rw [Bool.eq_iff_iff, ← length_noted_le_iff kind length, h, length_noted_le_iff]
  cases hf : kind.hasFixedLength with
  | true =>
    simp only [noted, hf, ← hfixed, if_true, List.append_nil] at h
    exact ⟨Kind.describe_inj _ _ (String.toList_inj.1 h), nofun⟩
  | false =>
    have hparen : ∀ kind : Kind, kind.hasFixedLength = false →
        '(' ∉ kind.describe.toList ++ [' '] := by
      decide +kernel
    have hother := hfixed.symm.trans hf
    rw [noted_of_length hf, noted_of_length hother] at h
    obtain ⟨hdescribe, hlength⟩ := eq_of_append_cons_eq (hparen _ hf) (hparen _ hother) h
    have hdigits := List.append_cancel_right (List.append_cancel_left hlength)
    exact ⟨Kind.describe_inj _ _ (String.toList_inj.1 (List.append_cancel_right hdescribe)),
      fun _ => repr_toList_inj hdigits⟩

theorem eq_of_tokenLine_eq (h : tokenLine a = tokenLine b) :
    a.start = b.start ∧ a.kind = b.kind ∧
      (a.kind.hasFixedLength = false → a.length = b.length) := by
  have hbar (n : Nat) : '│' ∉ (padNumber n).toList ++ [' '] := by
    simpa using not_mem_padNumber (c := '│') rfl (by decide) n
  have hlist := congrArg String.toList h
  rw [toList_tokenLine, toList_tokenLine] at hlist
  obtain ⟨hstart, hrest⟩ := eq_of_append_cons_eq (hbar _) (hbar _) hlist
  obtain ⟨hkind, hlength⟩ := noted_inj (List.append_cancel_right (List.cons.inj hrest).2)
  exact ⟨padNumber_inj (List.append_cancel_right hstart), hkind, hlength⟩

theorem endsInNewline_tokenLine (token : Token) : EndsInNewline (tokenLine token).toList := by
  have hdescribe : ∀ kind : Kind, '\n' ∉ kind.describe.toList := by
    decide +kernel
  have hnumber (n : Nat) : '\n' ∉ Nat.toDigits 10 n := fun hm =>
    absurd (isDigit_of_mem_repr _ (Nat.toList_repr ▸ hm)) (by decide)
  have hnoted : '\n' ∉ noted token.kind token.length := by
    unfold noted
    split <;> simp [hdescribe, hnumber]
  refine ⟨_, (toList_tokenLine token).trans (by
    rw [← List.cons_append, ← List.cons_append, ← List.append_assoc]), ?_⟩
  simp [newline_not_mem_padNumber, hnoted]

-- ---------------------------------------------------------------------------
-- Listings
-- ---------------------------------------------------------------------------

/-- Two texts with the same listing have tokens of the same kinds at the same places, and all of
them but carets end at the same places too. -/
theorem listing_tells {file source other : String}
    (h : (listSourceTokens file source).out = (listSourceTokens file other).out) :
    (tokenise source).length = (tokenise other).length ∧
      ∀ (index : Nat) (a b : Token), (tokenise source)[index]? = some a →
        (tokenise other)[index]? = some b →
        a.start = b.start ∧ a.kind = b.kind ∧ (a.kind ≠ .caret → a.stop = b.stop) := by
  have htext := congrArg String.toList h
  simp only [listSourceTokens, String.toList_append, String.toList_join, List.flatMap_map,
    List.append_cancel_left_eq, List.append_cancel_right_eq] at htext
  have hlines : (tokenise source).map (fun token => (tokenLine token).toList) =
      (tokenise other).map fun token => (tokenLine token).toList := by
    refine eq_of_flatten_eq ?_ ?_ (by simpa only [List.flatMap_def] using htext) <;>
      exact List.forall_mem_map.2 fun token _ => endsInNewline_tokenLine token
  refine ⟨by simpa using congrArg List.length hlines, fun index a b ha hb => ?_⟩
  have hline := congrArg (·[index]?) hlines
  simp only [List.getElem?_map, ha, hb, Option.map_some, Option.some.injEq] at hline
  obtain ⟨hstart, hkind, hlength⟩ := eq_of_tokenLine_eq (String.toList_inj.1 hline)
  refine ⟨hstart, hkind, fun hc => ?_⟩
  have hsame : a.length = b.length := by
    cases hf : a.kind.hasFixedLength with
    | true =>
      exact length_eq_of_hasFixedLength (List.mem_of_getElem? ha) (List.mem_of_getElem? hb) hkind
        hf hc
    | false => exact hlength hf
  rw [Token.stop, Token.stop, hstart, hsame]

/-- Where a caret ends is not told. -/
theorem listing_caret :
    (listSourceTokens "-" "x^ y").out = (listSourceTokens "-" "x**y").out ∧
      (tokenise "x^ y").length = (tokenise "x**y").length ∧
        (tokenise "x^ y").map Token.stop ≠ (tokenise "x**y").map Token.stop := by
  have h : (listSourceTokens "-" "x^ y").out = (listSourceTokens "-" "x**y").out := by
    decide +kernel
  exact ⟨h, (listing_tells h).1, by decide +kernel⟩

end Command

end LenientR
