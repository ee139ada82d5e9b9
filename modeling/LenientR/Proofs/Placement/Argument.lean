import LenientR.Proofs.Grammar.Names
import LenientR.Proofs.Placement.Enclosed

/-!
# Texts as arguments

A text that is a single expression can be put between the brackets of a call, where it is read as
one argument (`Document.parse_argument`). What sort of an argument it is shows in its first two
tokens: a name and an equals sign start a named one, and `...` is one of its own, so that a text
which starts with it and goes on is no argument (`Document.not_isValid_argument`).
-/

namespace LenientR

open Trace

/-- What a text, some bytes further on, is read as between the brackets of a call. -/
structure Item.IsArgumentFor (item : Item) (offset : Nat) (code : List Token) (e : Expr) :
    Prop where
  ellipsis : ∀ token, code = [token] → token.kind = .ellipsis →
    item = .ellipsis (token.shift offset) none
  named : ∀ name equals rest, code = name :: equals :: rest → name.kind.isName = true →
    equals.kind = .equal → ∃ value,
      item = .named (name.shift offset) (some (equals.shift offset)) (some value) none
  positional : headKind code ≠ .ellipsis →
    (∀ name equals rest, code = name :: equals :: rest → name.kind.isName = true →
      equals.kind ≠ .equal) → item = .positional (e.shift offset) none

namespace Item

variable {offset : Nat} {e : Expr}

theorem isArgumentFor_ellipsis {token : Token} (hk : token.kind = .ellipsis) :
    (ellipsis (token.shift offset) none).IsArgumentFor offset [token] e where
  ellipsis _ hcode _ := by rw [List.singleton_inj.1 hcode]
  named _ _ _ hcode := nomatch hcode
  positional hne := absurd hk hne

theorem isArgumentFor_named {name equals : Token} {value : Expr} (hn : name.kind.isName = true)
    (he : equals.kind = .equal) (rest : List Token) :
    (named (name.shift offset) (some (equals.shift offset)) (some value) none).IsArgumentFor offset
      (name :: equals :: rest) e where
  ellipsis _ hcode := nomatch hcode
  named := by
    rintro _ _ _ ⟨⟩ _ _
    exact ⟨value, rfl⟩
  positional _ hno := absurd he (hno name equals rest rfl hn)

theorem isArgumentFor_positional {start : Token} {others : List Token} (hs : start.kind ≠ .ellipsis)
    (hn : ¬(start.kind.isName = true ∧ headKind others = .equal)) :
    (positional (e.shift offset) none).IsArgumentFor offset (start :: others) e where
  ellipsis := by
    rintro _ ⟨⟩ hk
    exact absurd hk hs
  named := by
    rintro _ _ _ ⟨⟩ hname hk
    exact absurd ⟨hname, hk⟩ hn
  positional _ _ := rfl

end Item

theorem Expr.grown_call {item : Item} {inner : List Token} {callee opening closing : Token}
    {after : List Token} (h : item.Grown .arguments .rightParen Mode.top.bracketed
      (skipLines inner) (closing :: after)) (hcomma : item.comma = none)
    (hf : callee.kind = .identifier) (ho : opening.kind = .leftParen)
    (hc : closing.kind = .rightParen) :
    (Expr.call (.var callee) opening [item] (some closing)).Grown .help .top
      (callee :: opening :: inner) after := by
  have hname : (Expr.var callee).Grown .help .top (callee :: opening :: inner)
      (opening :: inner) := by
    rw [Expr.Grown]
    refine ⟨opening :: inner, ⟨by simp [hf], _, rfl, rfl⟩, fun _ => ?_, rfl⟩
    rw [headKind_cons, ho]
    rfl
  have hitems : Item.GrownAll .arguments .rightParen Mode.top.bracketed .opening [item]
      (skipLines inner) (closing :: after) := by
    simp only [Item.GrownAll, hcomma]
    have hends : Reading.endsItem .rightParen (headKind (closing :: after)) = true := by
      rw [headKind_cons, hc]
      rfl
    exact ⟨_, ⟨_, h, ⟨by simp [hc], hends⟩, rfl⟩, ⟨hc, by simp⟩, rfl⟩
  have hopens : (decide (opening.kind = .leftParen) && Level.help ≤ .access) = true := by
    rw [ho]
    rfl
  simp only [Expr.Grown]
  exact ⟨_, ⟨_, ⟨_, ⟨_, hname, hopens, _, rfl, rfl⟩, rfl⟩, hitems⟩, decide_eq_true hc, _, rfl, rfl⟩

theorem Kind.ne_endOfLine_of_isLayout {kind : Kind} (h : kind.isLayout = false) :
    kind ≠ .endOfLine := by
  rintro rfl
  cases h

theorem opens_call : Opens "f(" [⟨.identifier, 0, ['f']⟩, ⟨.leftParen, 1, ['(']⟩] 2 :=
  ⟨fun _ => rfl, by simp⟩

section
variable {source : String}

/-- Behind a name or `...` at its start an expression goes on with a token that is no layout and
ends no item. -/
theorem Expr.goesOn_of_name {e : Expr} {first next : Token} {more back : List Token}
    (h : e.Grown .help .top (first :: next :: (more ++ back)) back)
    (hk : first.kind.isName = true ∨ first.kind = .ellipsis) :
    next.kind.isLayout = false ∧ Reading.endsItem .rightParen next.kind = false := by
  have hlonger : Mode.top.settle (next :: (more ++ back)) ≠ back := fun he => by
    have hlength : (next :: (more ++ back)).length = back.length := congrArg List.length he
    rw [List.length_cons, List.length_append] at hlength
    omega
  have hnext := Expr.admits_of_name h hk hlonger
  change next.kind.isPackageOperator = true ∨ Level.help.admits next.kind = true at hnext
  generalize next.kind = kind at hnext
  cases kind <;> first | exact ⟨rfl, rfl⟩ | exact absurd hnext (by decide)

/-- The code of a text is what its expression is read from, newlines aside; behind a name or `...`
at its start the next token is the same in both. -/
theorem Expr.ReadAmid.exists_code {e : Expr} {offset : Nat} {front more back : List Token}
    {first last : Token} (h : e.ReadAmid front first more back last)
    (hb : (Document.parse source).tokens.map (Token.shift offset) =
      front ++ first :: (more ++ back) ++ [last]) (hk : last.kind = .endOfFile) :
    ∃ start others, (Document.parse source).code = start :: others ∧
      first = start.shift offset ∧ (start.kind.isName = true ∨ start.kind = .ellipsis →
        others = [] ∧ more = [] ∨ ∃ next rest more', others = next :: rest ∧
          more = next.shift offset :: more' ∧ next.kind.isLayout = false ∧
            Reading.endsItem .rightParen next.kind = false) := by
  have hnewlines {tokens : List Token} (h : ∀ token ∈ tokens, token.kind = .endOfLine) :
      tokens.filter (!·.kind.isLayout) = [] :=
    filter_eq_nil_of_separates fun token hm => by rw [h token hm]; rfl
  have hfirst : first.kind.isLayout = false := by
    have hstarts := h.starts
    generalize first.kind = kind at hstarts
    cases kind <;> first | rfl | cases hstarts
  have hlast : last.kind.isLayout = true := by
    rw [hk]
    rfl
  have hcode : (Document.parse source).code.map (Token.shift offset) =
      first :: more.filter (!·.kind.isLayout) := by
    have hmap : (Document.parse source).code.map (Token.shift offset) =
        ((Document.parse source).tokens.map (Token.shift offset)).filter (!·.kind.isLayout) := by
      rw [List.filter_map]
      rfl
    rw [hmap, hb]
    simp only [List.filter_append, List.filter_cons, hnewlines h.before, hnewlines h.behind, hfirst,
      hlast]
    simp
  obtain ⟨start, others, hstart, rfl, hothers⟩ := List.map_eq_cons_iff.1 hcode
  refine ⟨start, others, hstart, rfl, fun hname => ?_⟩
  cases more with
  | nil => exact .inl ⟨List.map_eq_nil_iff.1 hothers, rfl⟩
  | cons next more =>
    obtain ⟨hlayout, hends⟩ := Expr.goesOn_of_name h.grown_top hname
    rw [List.filter_cons_of_pos (by simp [hlayout])] at hothers
    obtain ⟨next, rest, rfl, rfl, _⟩ := List.map_eq_cons_iff.1 hothers
    exact .inr ⟨next, rest, more, rfl, rfl, hlayout, hends⟩

theorem Document.IsJust.exists_item {e : Expr} (h : (parse source).IsJust e)
    (hs : (parse source).SemicolonsWithin)
    (he : headKind (parse source).code = .ellipsis → (parse source).code.length = 1)
    {offset : Nat} {body : List Token} {last : Token}
    (hb : (parse source).tokens.map (Token.shift offset) = body ++ [last])
    (hk : last.kind = .endOfFile) (line closing : Token) (hl : line.kind = .endOfLine)
    (hc : closing.kind = .rightParen) (after : List Token) :
    ∃ item : Item, item.comma = none ∧ item.IsArgumentFor offset (parse source).code e ∧
      item.Grown .arguments .rightParen Mode.top.bracketed
        (skipLines (body ++ line :: closing :: after)) (closing :: after) := by
  obtain ⟨front, first, more, back, rfl, hread⟩ := h.exists_readAmid hs hb hk
  have hinner := hread.grown_bracketed hl hc after
  rw [hread.skipLines_eq] at hinner ⊢
  have hsettle := hread.settle_back hl hc after
  obtain ⟨start, others, hstart, rfl, hnext⟩ := hread.exists_code hb hk
  rw [hstart] at he ⊢
  have hends : Level.help.admits (headKind (closing :: after)) = false := by
    rw [headKind_cons, hc]
    rfl
  by_cases hellipsis : start.kind = .ellipsis
  · -- `...` is all of the code
    rcases hnext (.inr hellipsis) with ⟨rfl, rfl⟩ | ⟨next, rest, _, rfl, _⟩
    · exact ⟨.ellipsis (start.shift offset) none, rfl, Item.isArgumentFor_ellipsis hellipsis,
        Item.grown_ellipsis.2 ⟨hellipsis, rfl, hsettle⟩⟩
    · cases he hellipsis
  by_cases hnamed : start.kind.isName = true ∧ headKind others = .equal
  · obtain ⟨hname, hequal⟩ := hnamed
    rcases hnext (.inl hname) with ⟨rfl, _⟩ | ⟨next, rest, more, rfl, rfl, _⟩
    · cases hequal
    · obtain ⟨value, hvalue⟩ := Item.exists_grown_named rfl hinner hname hequal hends
      exact ⟨_, rfl, Item.isArgumentFor_named hname hequal rest, hvalue⟩
  · refine ⟨.positional (e.shift offset) none, rfl, Item.isArgumentFor_positional hellipsis hnamed,
      Item.grown_positional.2 ⟨rfl, ⟨hellipsis, fun ⟨hname, hequal⟩ => ?_⟩,
        (mul_check _ _ _ _).2 ⟨hinner, hends⟩⟩⟩
    rcases hnext (.inl hname) with ⟨_, rfl⟩ | ⟨next, rest, more, rfl, rfl, hlayout, _⟩
    · rw [List.tail_cons, List.nil_append, hsettle, headKind_cons, hc] at hequal
      cases hequal
    · have hline : (next.shift offset).kind ≠ .endOfLine := Kind.ne_endOfLine_of_isLayout hlayout
      rw [List.tail_cons, List.cons_append, Mode.headKind_settle _ hline] at hequal
      exact hnamed ⟨hname, hequal⟩

/-- A text without problems that is a single expression, with no semicolon after it, is read as one
argument between the brackets of a call, unless it starts with `...` and goes on. -/
theorem Document.parse_argument {e : Expr} (h : (parse source).IsJust e)
    (hs : (parse source).SemicolonsWithin)
    (he : headKind (parse source).code = .ellipsis → (parse source).code.length = 1) :
    ∃ item : Item, (parse ("f(" ++ source ++ "\n)")).IsJust
        (.call (.var ⟨.identifier, 0, ['f']⟩) ⟨.leftParen, 1, ['(']⟩ [item]
          (some ⟨.rightParen, Text.byteSize source.toList + 3, [')']⟩)) ∧
      item.IsArgumentFor 2 (parse source).code e ∧ (e.shift 2).outline = e.outline.shift 2 := by
  let stop := Text.byteSize source.toList + 2
  obtain ⟨body, hbody, htokens⟩ := tokens_enclosed opens_call closes_rightParen h.valid
  obtain ⟨item, hcomma, hargument, hgrown⟩ := h.exists_item hs he hbody rfl
    ⟨.endOfLine, stop, ['\n']⟩ ⟨.rightParen, stop + 1, [')']⟩ rfl rfl [endToken (stop + 2)]
  have houtline := outline_shift 2 source
  rw [forest, h.roots] at houtline
  exact ⟨item, isJust_of_grown htokens (Expr.grown_call hgrown hcomma rfl rfl rfl) rfl, hargument,
    (List.cons.inj houtline).1⟩

theorem Document.parse_argument_negation :
    let source := "-f(a,\n1)\n# b"
    let stop := Text.byteSize source.toList + 3
    (parse source).isValid = true ∧ (parse source).SemicolonsWithin ∧
      ∃ e, (parse source).roots = [e] ∧ (parse ("f(" ++ source ++ "\n)")).IsJust
        (.call (.var ⟨.identifier, 0, ['f']⟩) ⟨.leftParen, 1, ['(']⟩
          [.positional (e.shift 2) none] (some ⟨.rightParen, stop, [')']⟩)) := by
  intro source stop
  have hv : (parse source).isValid = true := by decide +kernel
  have hs : (parse source).SemicolonsWithin := by
    unfold SemicolonsWithin
    decide +kernel
  have hone : (parse source).roots.length = 1 := by decide +kernel
  obtain ⟨e, hroots⟩ := List.length_eq_one_iff.1 hone
  have hstart : headKind (parse source).code = .minus := by decide +kernel
  obtain ⟨item, hcall, hargument, _⟩ := parse_argument ⟨hv, hroots⟩ hs (by rw [hstart]; nofun)
  have hitem : item = .positional (e.shift 2) none := by
    refine hargument.positional (by rw [hstart]; nofun) fun name equals rest hcode hname => ?_
    rw [hcode, headKind_cons] at hstart
    rw [hstart] at hname
    cases hname
  exact ⟨hv, hs, e, hroots, hitem ▸ hcall⟩

/-- A text that starts with `...` and goes on is no argument. -/
theorem Document.not_isValid_argument {e : Expr} (h : (parse source).IsJust e)
    (hs : (parse source).SemicolonsWithin) (hk : headKind (parse source).code = .ellipsis)
    (hl : (parse source).code.length ≠ 1) :
    (parse ("f(" ++ source ++ "\n)")).isValid = false := by
  refine Bool.eq_false_iff.2 fun hv => ?_
  obtain ⟨body, hbody, htokens⟩ := tokens_enclosed opens_call closes_rightParen h.valid
  obtain ⟨front, first, more, back, rfl, hread⟩ := h.exists_readAmid hs hbody rfl
  obtain ⟨start, others, hstart, rfl, hnext⟩ := hread.exists_code hbody rfl
  rw [hstart] at hk hl
  obtain ⟨final, _, hg⟩ := grown_of_isValid hv
  change Expr.GrownAll .top _ (parse ("f(" ++ source ++ "\n)")).tokens _ at hg
  obtain ⟨items, left, hitems⟩ := Expr.exists_grownAll_arguments (htokens ▸ hg) rfl rfl
  have hitems := hread.skipLines_eq _ ▸ hitems
  have hends := Item.endsItem_of_grownAll hitems (show (start.shift 2).kind = .ellipsis from hk)
  rcases hnext (.inr hk) with ⟨rfl, _⟩ | ⟨next, rest, more, rfl, rfl, hlayout, hgoes⟩
  · exact hl rfl
  · have hline : (next.shift 2).kind ≠ .endOfLine := Kind.ne_endOfLine_of_isLayout hlayout
    rw [List.cons_append, Mode.headKind_settle _ hline] at hends
    exact absurd hends (by simp [hgoes])

/-- A sum that starts with `...` is no argument, though it is an expression. -/
theorem Document.not_isValid_argument_ellipsis :
    let source := "... + 1"
    (parse source).isValid = true ∧ (parse source).roots.length = 1 ∧
      (parse source).SemicolonsWithin ∧
      (parse source).code.map Token.kind = [.ellipsis, .plus, .number] ∧
      (parse ("f(" ++ source ++ "\n)")).isValid = false := by
  unfold SemicolonsWithin
  decide +kernel

end

end LenientR
