import LenientR.Proofs.Grammar.Items
import LenientR.Proofs.Printing.Basic

/-!
# What is printed is read by the grammar

Printed tokens are read as the tree they were printed from, whatever comes after them, as long as it
may follow (`Expr.MayPrecede`): an operand may stand in front of nearly everything, any other
expression only in front of what ends it.
-/

namespace LenientR

open Trace

-- ---------------------------------------------------------------------------
-- What may follow
-- ---------------------------------------------------------------------------

namespace Kind

/-- Goes on neither with a name nor with anything on the next line. -/
def followsOperand (kind : Kind) : Bool := kind ≠ .endOfLine && !kind.isPackageOperator

/-- Ends an expression, but is no `else` that could belong to it. -/
def followsExpression (kind : Kind) : Bool :=
  kind.endsExpression && kind ≠ .endOfLine && kind ≠ .elseWord

theorem followsOperand_of_followsExpression {kind : Kind} (h : kind.followsExpression = true) :
    kind.followsOperand = true := by
  cases kind <;> first | rfl | cases h

theorem not_admits_of_endsExpression {kind : Kind} (h : kind.endsExpression = true)
    (level : Level) : level.admits kind = false := by
  cases kind <;> first | rfl | cases h

end Kind

/-- Where an expression can be printed in front of a token of a kind and still be read by a level. -/
def Expr.MayPrecede (e : Expr) (level : Level) (kind : Kind) : Prop :=
  e.IsOperand ∧ kind.followsOperand = true ∨ level = .help ∧ kind.followsExpression = true

-- ---------------------------------------------------------------------------
-- Steps of the grammar where no newline follows
-- ---------------------------------------------------------------------------

section
variable {level : Level} {m : Mode} {token : Token} {f : Kind → Bool} {r : Trace}
  {a b : List Token}

theorem taken_cons (hf : f token.kind = true) (ha : headKind a ≠ .endOfLine) (h : r a b) :
    (token.taken f m * r) (token :: a) b :=
  Token.taken_mul.2 ⟨hf, rfl, (m.settle_of_ne ha).symm ▸ h⟩

theorem taken_singleton (hf : f token.kind = true) (ha : headKind a ≠ .endOfLine) :
    token.taken f m (token :: a) a :=
  Token.taken_apply.2 ⟨hf, rfl, m.settle_of_ne ha⟩

theorem lines_of_ne (ha : headKind a ≠ .endOfLine) (h : r a b) : (lines * r) a b :=
  (lines_mul r a b).2 ((skipLines_of_ne ha).symm ▸ h)

theorem headKind_ne_of_starts {kind : Kind} (h : kind.startsExpression = true) :
    kind ≠ .endOfLine := by
  rintro rfl
  cases h

theorem headKind_ne_of_grown {e : Expr} (h : e.Grown level m a b) : headKind a ≠ .endOfLine :=
  headKind_ne_of_starts (e.startsWith_grown level m a b h)

end

-- ---------------------------------------------------------------------------
-- Printed parts
-- ---------------------------------------------------------------------------

@[simp] theorem Node.between_ofItem (role : ListRole) (item : Item) :
    (Node.ofItem role item).between = [] := by
  cases role <;> rfl

theorem Part.print_append (parts others : List Part) :
    Part.print [] (parts ++ others) = Part.print [] parts ++ Part.print [] others := by
  induction parts with
  | nil => rfl
  | cons part rest ih => cases part <;> simp [Part.print, ih]

@[simp] theorem Part.ofToken?_none : Part.ofToken? none = [] := rfl

@[simp] theorem Part.ofToken?_some (token : Token) :
    Part.ofToken? (some token) = [.token token] := rfl

@[simp] theorem Part.print_ofToken? (between : List Token) (token : Option Token) :
    Part.print between (Part.ofToken? token) = token.toList := by
  cases token <;> rfl

theorem Part.print_outlines_append_token (between : List Token) (es : List Expr) (token : Token) :
    Part.print between (Expr.outlines es ++ [.token token]) =
      Part.print between (Expr.outlines es) ++ [token] := by
  induction es with
  | nil => rfl
  | cons e rest ih =>
    cases rest <;> simp_all [Expr.outlines, Part.print, Part.startsWithNode]

-- ---------------------------------------------------------------------------
-- Printed trees
-- ---------------------------------------------------------------------------

theorem Expr.MayPrecede.followsOperand {e : Expr} {level : Level} {kind : Kind}
    (h : e.MayPrecede level kind) : kind ≠ .endOfLine ∧ kind.isPackageOperator = false := by
  have hk : kind.followsOperand = true :=
    h.elim And.right fun h => Kind.followsOperand_of_followsExpression h.2
  simpa [Kind.followsOperand] using hk

theorem Expr.MayPrecede.followsExpression {e : Expr} {level : Level} {kind : Kind}
    (h : e.MayPrecede level kind) (he : ¬e.IsOperand) :
    level = .help ∧ kind.followsExpression = true :=
  h.resolve_left fun h => he h.1

theorem stop_of_ends {level : Level} {a : List Token} (h : (headKind a).endsExpression = true) :
    stop level a a :=
  ⟨Kind.not_admits_of_endsExpression h level, rfl⟩

theorem Kind.endsExpression_of_followsExpression {kind : Kind}
    (h : kind.followsExpression = true) : kind.endsExpression = true := by
  cases kind <;> first | rfl | cases h

theorem Kind.ne_of_followsExpression {kind : Kind} (h : kind.followsExpression = true) :
    kind ≠ .endOfLine := by
  rintro rfl
  cases h

theorem Kind.followsOperand_of_operator {kind : Kind} {found : Level}
    (h : Level.ofOperator? kind = some found) : kind.followsOperand = true := by
  cases kind <;> first | rfl | cases h

theorem Kind.exists_level_of_isAssignment {kind : Kind} (h : kind.isAssignment = true) :
    ∃ found, Level.ofOperator? kind = some found ∧ found ≠ .access := by
  cases kind <;> first | exact ⟨_, rfl, by decide⟩ | cases h

theorem Kind.exists_level_of_isBinary {kind : Kind} (h : kind.isBinary = true) :
    ∃ found, Level.ofOperator? kind = some found ∧ found ≠ .access ∧
      kind.isAssignment = false := by
  cases kind <;> first | exact ⟨_, rfl, by decide, rfl⟩ | cases h

theorem dropWhile_separates {a : List Token} (h : (headKind a).separates = false) :
    a.dropWhile (·.kind.separates) = a := by
  cases a with
  | nil => rfl
  | cons token rest =>
    rw [headKind_cons] at h
    rw [List.dropWhile_cons_of_neg (by simp [h])]

theorem grownAll_cons_separator {m : Mode} {es : List Expr} {token : Token} {a b : List Token}
    (h : token.kind.separates = true) :
    Expr.GrownAll m es (token :: a) b ↔ Expr.GrownAll m es a b := by
  have hs : (token :: a).dropWhile (·.kind.separates) = a.dropWhile (·.kind.separates) := by
    simp [h]
  cases es <;> simp only [Expr.GrownAll, mul_assoc, separators_mul, hs]

theorem headKind_of_grown {level : Level} {m : Mode} {e : Expr} {a b : List Token}
    (h : e.Grown level m a b) : (headKind a).separates = false := by
  have hs := e.startsWith_grown level m a b h
  revert hs
  cases headKind a <;> first | exact fun _ => rfl | exact fun hs => nomatch hs

theorem grownAll_nil {m : Mode} {a : List Token}
    (h : headKind a = .endOfFile ∨ headKind a = .rightCurly ∧ m.inBlock = true) :
    Expr.GrownAll m [] a a ∧ (headKind a).separates = false := by
  have hs : (headKind a).separates = false := by
    rcases h with h | ⟨h, _⟩ <;> rw [h] <;> rfl
  refine ⟨?_, hs⟩
  rw [Expr.GrownAll, separators_mul, dropWhile_separates hs]
  exact ⟨h, rfl⟩

theorem grownAll_cons {m : Mode} {e : Expr} {es : List Expr} {a b c : List Token}
    (h : e.Grown .help m a b) (he : (headKind b).endsExpression = true)
    (hs : (headKind b).endsStatement = true) (hes : Expr.GrownAll m es b c) :
    Expr.GrownAll m (e :: es) a c := by
  simp only [Expr.GrownAll, mul_assoc]
  rw [separators_mul, dropWhile_separates (headKind_of_grown h)]
  exact ⟨_, h, _, stop_of_ends he, _, ⟨hs, rfl⟩, hes⟩

theorem headKind_ne_of_not_separates {a : List Token} (h : (headKind a).separates = false) :
    headKind a ≠ .endOfLine := fun hk => by
  rw [hk] at h
  cases h

theorem headKind_ne_of_isName {token : Token} {rest : List Token}
    (h : token.kind.isName = true) : headKind (token :: rest) ≠ .endOfLine := fun hk => by
  rw [headKind_cons] at hk
  rw [hk] at h
  cases h

theorem headKind_ne_of_grownItems {role : ListRole} {terminator : Kind} {m : Mode}
    {slot : Reading.Slot} {items : List Item} {a b : List Token}
    (ht : Reading.ClosesList terminator)
    (h : Item.GrownAll role terminator m slot items a b) : headKind a ≠ .endOfLine := by
  rcases Reading.headKind_of_grownAll h with h | h
  · rw [h]
    rcases ht with rfl | rfl <;> decide
  · intro hk
    rw [hk] at h
    cases h

theorem repeatedNames_eq_nil_of_disjoint {parameters : List Item} {seen : List Token}
    (h : (parameterNames parameters).Nodup)
    (hs : ∀ name ∈ seen, name.chars ∉ parameterNames parameters) :
    Reading.repeatedNames parameters seen = [] := by
  induction parameters generalizing seen with
  | nil => rfl
  | cons parameter rest ih =>
    cases parameter with
    | named name equals value comma =>
      rw [parameterNames, List.nodup_cons] at h
      rw [parameterNames] at hs
      have hseen : seen.any (·.chars = name.chars) = false := by
        rw [List.any_eq_false]
        exact fun earlier he hn => hs earlier he (by simp_all)
      rw [Reading.repeatedNames, hseen, if_neg Bool.false_ne_true]
      refine ih h.2 fun earlier he => ?_
      rcases List.mem_cons.1 he with rfl | he
      · exact h.1
      · exact fun hn => hs earlier he (List.mem_cons_of_mem _ hn)
    | positional value comma => exact ih h hs
    | ellipsis token comma => exact ih h hs
    | missing comma => exact ih h hs
    | unreadable tokens comma => exact ih h hs
    | stub => exact ih h hs

theorem repeatedNames_eq_nil {parameters : List Item} (h : (parameterNames parameters).Nodup) :
    Reading.repeatedNames parameters [] = [] :=
  repeatedNames_eq_nil_of_disjoint h (by simp)

theorem Kind.followsExpression_of_itemEnd {terminator kind : Kind} {closed : Bool}
    (ht : Reading.ClosesList terminator) (h : kind = if closed then .comma else terminator) :
    kind.followsExpression = true := by
  rcases ht with rfl | rfl <;> cases closed <;> rw [h] <;> rfl

theorem endsItem_of_itemEnd {terminator kind : Kind} {closed : Bool}
    (h : kind = if closed then .comma else terminator) :
    Reading.endsItem terminator kind = true := by
  cases closed <;> rw [h] <;> simp [Reading.endsItem]

-- ---------------------------------------------------------------------------
-- What comes after a token on the same line
-- ---------------------------------------------------------------------------

section
variable {level : Level} {m inner : Mode} {token closing : Token} {e : Expr} {items : List Item}
  {role : ListRole} {terminator : Kind} {slot : Reading.Slot} {f : Kind → Bool} {r : Trace}
  {a b c : List Token}

theorem taken_grown (hf : f token.kind = true) (h : e.Grown level inner a b) (hr : r b c) :
    (token.taken f m * (lines * (e.Grown level inner * r))) (token :: a) c :=
  have hline := headKind_ne_of_grown h
  taken_cons hf hline (lines_of_ne hline ⟨b, h, hr⟩)

/-- The last expression of a construct, in front of what the construct is in front of. -/
theorem taken_last (hf : f token.kind = true) (h : e.Grown level inner a b)
    (hb : (headKind b).followsExpression = true) :
    (token.taken f m * (lines * (e.Grown level inner * stop level))) (token :: a) b :=
  taken_grown hf h (stop_of_ends (Kind.endsExpression_of_followsExpression hb))

theorem taken_enclosed (hf : f token.kind = true)
    (h : e.Grown .help inner a (closing :: b)) (hc : closing.kind = .rightParen)
    (hr : (closing.taken (· = .rightParen) m * r) (closing :: b) c) :
    (token.taken f m * (lines * (e.Grown .help inner * (stop .help *
      (closing.taken (· = .rightParen) m * r))))) (token :: a) c :=
  taken_grown hf h ⟨_, stop_of_ends (by rw [headKind_cons, hc]; rfl), hr⟩

theorem taken_items (hf : f token.kind = true) (ht : Reading.ClosesList terminator)
    (h : Item.GrownAll role terminator inner slot items a b) (hr : r b c) :
    (token.taken f m * (lines * (Item.GrownAll role terminator inner slot items * r)))
      (token :: a) c :=
  have hline := headKind_ne_of_grownItems ht h
  taken_cons hf hline (lines_of_ne hline ⟨b, h, hr⟩)

end

/-- An operand does not look like a named argument. -/
theorem Expr.atValue_print {e : Expr} {m : Mode} {rest : List Token} (ho : e.IsOperand)
    (h : e.Complete) (he : ¬e.IsEllipsis) (hr : (headKind rest).followsExpression = true) :
    headKind (e.outline.print ++ rest) ≠ .ellipsis ∧
      ¬((headKind (e.outline.print ++ rest)).isName = true ∧
        headKind (m.settle (e.outline.print ++ rest).tail) = .equal) := by
  -- either the first token is no name, or the second one is no equals sign
  have hfirst : ∀ {token : Token} {a : List Token}, token.kind ≠ .ellipsis →
      token.kind.isName = false → headKind (token :: a) ≠ .ellipsis ∧
        ¬((headKind (token :: a)).isName = true ∧ headKind (m.settle a) = .equal) :=
    fun hk hn => ⟨hk, fun h => Bool.false_ne_true (hn.symm.trans h.1)⟩
  have hsecond : ∀ {token : Token} {a : List Token}, token.kind ≠ .ellipsis →
      headKind a ≠ .endOfLine → headKind a ≠ .equal → headKind (token :: a) ≠ .ellipsis ∧
        ¬((headKind (token :: a)).isName = true ∧ headKind (m.settle a) = .equal) :=
    fun hk hl hn => ⟨hk, fun h => hn (Mode.settle_of_ne _ hl ▸ h.2)⟩
  have hline := Kind.ne_of_followsExpression hr
  have hequal : headKind rest ≠ .equal := fun hk => by
    rw [hk] at hr
    cases hr
  cases e with
  | literal token =>
    simp only [Expr.Complete] at h
    refine hsecond (fun hk => ?_) hline hequal
    rw [hk] at h
    exact h.elim nofun nofun
  | var token => exact hsecond he hline hequal
  | namespaced package operator name =>
    cases name with
    | none => exact h.elim
    | some name =>
      simp only [Expr.Complete] at h
      obtain ⟨hp, ho, _⟩ := h
      refine hsecond (fun hk => ?_) (fun hk => ?_) (fun hk => ?_)
      · rw [hk] at hp
        cases hp
      all_goals
        change operator.kind = _ at hk
        rw [hk] at ho
        cases ho
  | control token =>
    simp only [Expr.Complete] at h
    rcases h with h | h <;> exact hfirst (by simp [h]) (by rw [h]; rfl)
  | group opening inner closing =>
    cases closing with
    | none => exact h.elim
    | some closing =>
      simp only [Expr.Complete] at h
      exact hfirst (by simp [h.1]) (by rw [h.1]; rfl)
  | block opening body closing =>
    cases closing with
    | none => exact h.elim
    | some closing =>
      simp only [Expr.Complete] at h
      exact hfirst (by simp [h.1]) (by rw [h.1]; rfl)
  | _ => exact ho.elim

mutual
theorem Expr.grown_print : (e : Expr) → (level : Level) → (m : Mode) → (rest : List Token) →
    e.Complete → e.MayPrecede level (headKind rest) →
      e.Grown level m (e.outline.print ++ rest) rest
  | .assignment left operator right, level, m, rest, h, hp => by
    simp only [Expr.Complete] at h
    obtain ⟨⟨hlo, hl⟩, ho, hro, hr⟩ := h
    obtain ⟨rfl, hrest⟩ := hp.followsExpression id
    obtain ⟨found, hf, hne⟩ := Kind.exists_level_of_isAssignment ho
    have hright := right.grown_print (found.operandLevel operator.kind) m rest hr
      (.inl ⟨hro, Kind.followsOperand_of_followsExpression hrest⟩)
    have hleft := left.grown_print .help m (operator :: (right.outline.print ++ rest)) hl
      (.inl ⟨hlo, Kind.followsOperand_of_operator hf⟩)
    have hprint : (Expr.assignment left operator right).outline.print ++ rest =
        left.outline.print ++ operator :: (right.outline.print ++ rest) := by
      simp [Expr.outline, Outline.of, Outline.print, Part.print, Part.startsWithNode]
    rw [hprint]
    simp only [Expr.Grown, mul_assoc]
    exact ⟨found, _, hleft,
      taken_last (by simp [Level.joins, hf, hne, ho, Level.help_le]) hright hrest⟩
  | .binary left operator right, level, m, rest, h, hp => by
    simp only [Expr.Complete] at h
    obtain ⟨⟨hlo, hl⟩, ho, hro, hr⟩ := h
    obtain ⟨rfl, hrest⟩ := hp.followsExpression id
    obtain ⟨found, hf, hne, hassign⟩ := Kind.exists_level_of_isBinary ho
    have hright := right.grown_print (found.operandLevel operator.kind) m rest hr
      (.inl ⟨hro, Kind.followsOperand_of_followsExpression hrest⟩)
    have hleft := left.grown_print .help m (operator :: (right.outline.print ++ rest)) hl
      (.inl ⟨hlo, Kind.followsOperand_of_operator hf⟩)
    have hprint : (Expr.binary left operator right).outline.print ++ rest =
        left.outline.print ++ operator :: (right.outline.print ++ rest) := by
      simp [Expr.outline, Outline.of, Outline.print, Part.print, Part.startsWithNode]
    rw [hprint]
    simp only [Expr.Grown, mul_assoc]
    exact ⟨found, _, hleft,
      taken_last (by simp [Level.joins, hf, hne, hassign, Level.help_le]) hright hrest⟩
  | .block opening body (some closing), level, m, rest, h, hp => by
    obtain ⟨hline, _⟩ := hp.followsOperand
    simp only [Expr.Complete] at h
    obtain ⟨ho, hb, hc⟩ := h
    obtain ⟨hbody, hfirst⟩ := Expr.grownAll_print body .block (closing :: rest) hb (.inr ⟨hc, rfl⟩)
    have hprint : (Expr.block opening body (some closing)).outline.print ++ rest =
        opening :: (Expr.printAll body ++ closing :: rest) := by
      simp [Expr.outline, Outline.of, Outline.print, Part.ofToken?, Part.print, Node.between,
        Part.print_outlines_append_token, Expr.printAll]
    rw [hprint]
    simp only [Expr.Grown, mul_assoc]
    exact taken_cons (by simp [ho]) (headKind_ne_of_not_separates hfirst)
      ⟨_, hbody, taken_singleton (by simp [hc]) hline⟩
  | .call callee opening arguments (some closing), level, m, rest, h, hp => by
    simp only [Expr.Complete] at h
    obtain ⟨⟨hco, hc⟩, ho, ⟨hcommas, ha⟩, hclosing⟩ := h
    obtain ⟨rfl, hrest⟩ := hp.followsExpression id
    obtain ⟨hline, _⟩ := hp.followsOperand
    have harguments := Item.grownAll_print arguments .arguments .rightParen m.bracketed .opening
      (closing :: rest) (.inl rfl) ha hcommas hclosing (fun h => nomatch h.2)
    have hcallee := callee.grown_print .help m (opening ::
      (Part.print [] (Item.outlines .arguments arguments) ++ closing :: rest)) hc
      (.inl ⟨hco, by rw [headKind_cons, ho]; rfl⟩)
    have hprint : (Expr.call callee opening arguments (some closing)).outline.print ++ rest =
        callee.outline.print ++ opening ::
          (Part.print [] (Item.outlines .arguments arguments) ++ closing :: rest) := by
      simp [Expr.outline, Outline.of, Outline.print, Part.ofToken?, Part.print, Part.print_append,
        Node.between]
    rw [hprint]
    simp only [Expr.Grown, mul_assoc]
    exact ⟨_, hcallee, taken_items (by simp [ho, Level.help_le]) (.inl rfl) harguments
      (taken_singleton (by simp [hclosing]) hline)⟩
  | .control token, level, m, rest, h, hp => by
    obtain ⟨hline, _⟩ := hp.followsOperand
    simp only [Expr.Complete] at h
    simp only [Expr.Grown, Expr.outline, Outline.of, Outline.print, Part.print, List.cons_append,
      List.nil_append]
    exact taken_singleton (by simpa using h) hline
  | .forLoop keyword (some opening) (some loopVar) (some inWord) sequence (some closing) body,
      level, m, rest, h, hp => by
    simp only [Expr.Complete] at h
    obtain ⟨hk, ho, hv, hw, hs, hc, _, hb⟩ := h
    obtain ⟨rfl, hrest⟩ := hp.followsExpression id
    have hbody := body.grown_print .help m rest hb (.inr ⟨rfl, hrest⟩)
    have hsequence := sequence.grown_print .help m.bracketed
      (closing :: (body.outline.print ++ rest)) hs (.inr ⟨rfl, by rw [headKind_cons, hc]; rfl⟩)
    have hprint : (Expr.forLoop keyword (some opening) (some loopVar) (some inWord) sequence
          (some closing) body).outline.print ++ rest =
        keyword :: opening :: loopVar :: inWord ::
          (sequence.outline.print ++ closing :: (body.outline.print ++ rest)) := by
      simp [Expr.outline, Outline.of, Outline.print, Part.ofToken?, Part.print, Part.startsWithNode]
    rw [hprint]
    simp only [Expr.Grown, mul_assoc]
    exact taken_cons (by simp [hk]) (by simp [ho]) (taken_cons (by simp [ho]) (by simp [hv])
      (lines_of_ne (by simp [hv]) (taken_cons (by simp [hv]) (by simp [hw])
        (taken_cons (by simp [hw]) (headKind_ne_of_grown hsequence)
          ⟨_, hsequence, _, stop_of_ends (by rw [headKind_cons, hc]; rfl),
            taken_last (by simp [hc]) hbody hrest⟩))))
  | .function keyword (some opening) parameters (some closing) (some body), level, m, rest, h,
      hp => by
    simp only [Expr.Complete] at h
    obtain ⟨hk, ho, ⟨hcommas, hparams, hnames⟩, hc, _, hb⟩ := h
    obtain ⟨rfl, hrest⟩ := hp.followsExpression id
    have hbody := body.grown_print .help m rest hb (.inr ⟨rfl, hrest⟩)
    have hparameters := Item.grownAll_print parameters .parameters .rightParen m.bracketed .opening
      (closing :: (body.outline.print ++ rest)) (.inl rfl) hparams hcommas hc (fun h => nomatch h.2)
    have hprint : (Expr.function keyword (some opening) parameters (some closing)
          (some body)).outline.print ++ rest =
        keyword :: opening :: (Part.print [] (Item.outlines .parameters parameters) ++
          closing :: (body.outline.print ++ rest)) := by
      simp [Expr.outline, Expr.outline?, Outline.of, Outline.print, Part.ofToken?, Part.print,
        Part.print_append, Part.startsWithNode, Node.between]
    rw [hprint]
    simp only [Expr.Grown, mul_assoc]
    have hline := headKind_ne_of_grown hbody
    exact taken_cons (by simpa using hk) (by simp [ho]) (taken_items (by simp [ho]) (.inl rfl)
      hparameters (taken_cons (by simp [hc]) hline ⟨_, ⟨repeatedNames_eq_nil hnames, rfl⟩,
        lines_of_ne hline ⟨_, hbody, stop_of_ends
          (Kind.endsExpression_of_followsExpression hrest)⟩⟩))
  | .group opening inner (some closing), level, m, rest, h, hp => by
    obtain ⟨hline, _⟩ := hp.followsOperand
    simp only [Expr.Complete] at h
    obtain ⟨ho, hi, hc⟩ := h
    have hinner := inner.grown_print .help m.bracketed (closing :: rest) hi
      (.inr ⟨rfl, by rw [headKind_cons, hc]; rfl⟩)
    have hprint : (Expr.group opening inner (some closing)).outline.print ++ rest =
        opening :: (inner.outline.print ++ closing :: rest) := by
      simp [Expr.outline, Outline.of, Outline.print, Part.ofToken?, Part.print, Part.startsWithNode]
    rw [hprint]
    simp only [Expr.Grown, mul_assoc]
    exact taken_grown (by simp [ho]) hinner ⟨_, stop_of_ends (by rw [headKind_cons, hc]; rfl),
      taken_singleton (by simp [hc]) hline⟩
  | .conditional keyword (some opening) condition (some closing) consequent alternative, level, m,
      rest, h, hp => by
    simp only [Expr.Complete] at h
    obtain ⟨hk, ho, hcond, hc, ⟨hbo, hb⟩, ha⟩ := h
    obtain ⟨rfl, hrest⟩ := hp.followsExpression id
    obtain ⟨helse, hfollows, hends⟩ := Expr.grownElse_print alternative m rest ha hrest
    have hconsequent := consequent.grown_print .help m
      (Part.print [] (Expr.outlineElse alternative) ++ rest) hb (.inl ⟨hbo, hfollows⟩)
    have hcondition := condition.grown_print .help m.bracketed (closing ::
      (consequent.outline.print ++ (Part.print [] (Expr.outlineElse alternative) ++ rest))) hcond
      (.inr ⟨rfl, by rw [headKind_cons, hc]; rfl⟩)
    have hprint : (Expr.conditional keyword (some opening) condition (some closing) consequent
          alternative).outline.print ++ rest =
        keyword :: opening :: (condition.outline.print ++ closing :: (consequent.outline.print ++
          (Part.print [] (Expr.outlineElse alternative) ++ rest))) := by
      simp [Expr.outline, Outline.of, Outline.print, Part.ofToken?, Part.print, Node.between]
    rw [hprint]
    simp only [Expr.Grown, mul_assoc]
    exact taken_cons (by simp [hk]) (by simp [ho]) (taken_enclosed (by simp [ho]) hcondition hc
      (taken_grown (by simp [hc]) hconsequent ⟨_, stop_of_ends hends, helse⟩))
  | .index target opening arguments [closing], level, m, rest, h, hp => by
    simp only [Expr.Complete] at h
    obtain ⟨⟨hto, ht⟩, ho, ⟨hcommas, ha⟩, hclosing⟩ := h
    obtain ⟨rfl, hrest⟩ := hp.followsExpression id
    obtain ⟨hline, _⟩ := hp.followsOperand
    have harguments := Item.grownAll_print arguments .arguments .rightSquare m.bracketed .opening
      (closing :: rest) (.inr rfl) ha hcommas hclosing (fun h => nomatch h.2)
    have htarget := target.grown_print .help m (opening ::
      (Part.print [] (Item.outlines .arguments arguments) ++ closing :: rest)) ht
      (.inl ⟨hto, by rw [headKind_cons, ho]; rfl⟩)
    have hprint : (Expr.index target opening arguments [closing]).outline.print ++ rest =
        target.outline.print ++ opening ::
          (Part.print [] (Item.outlines .arguments arguments) ++ closing :: rest) := by
      simp [Expr.outline, Outline.of, Outline.print, Part.print, Part.print_append, Node.between]
    rw [hprint]
    simp only [Expr.Grown, mul_assoc]
    exact ⟨_, htarget, taken_items (by simp [ho, Level.help_le]) (.inr rfl) harguments
      (taken_singleton (by simp [hclosing]) hline)⟩
  | .index target opening arguments [first, second], level, m, rest, h, hp => by
    simp only [Expr.Complete] at h
    obtain ⟨⟨hto, ht⟩, ho, ⟨hcommas, ha⟩, hclosing, hsecond⟩ := h
    obtain ⟨rfl, hrest⟩ := hp.followsExpression id
    obtain ⟨hline, _⟩ := hp.followsOperand
    have harguments := Item.grownAll_print arguments .arguments .rightSquare m.bracketed .opening
      (first :: second :: rest) (.inr rfl) ha hcommas hclosing (fun h => nomatch h.2)
    have htarget := target.grown_print .help m (opening ::
      (Part.print [] (Item.outlines .arguments arguments) ++ first :: second :: rest)) ht
      (.inl ⟨hto, by rw [headKind_cons, ho]; rfl⟩)
    have hprint : (Expr.index target opening arguments [first, second]).outline.print ++ rest =
        target.outline.print ++ opening ::
          (Part.print [] (Item.outlines .arguments arguments) ++ first :: second :: rest) := by
      simp [Expr.outline, Outline.of, Outline.print, Part.print, Part.print_append, Node.between]
    rw [hprint]
    simp only [Expr.Grown, mul_assoc]
    exact ⟨_, htarget, taken_items (by simp [ho, Level.help_le]) (.inr rfl) harguments
      (taken_cons (by simp [hclosing]) (by simp [hsecond])
        (taken_singleton (by simp [hsecond]) hline))⟩
  | .literal token, level, m, rest, h, hp | .var token, level, m, rest, h, hp => by
    obtain ⟨hline, hpackage⟩ := hp.followsOperand
    simp only [Expr.Complete] at h
    simp only [Expr.Grown, Expr.outline, Outline.of, Outline.print, Part.print, List.cons_append,
      List.nil_append]
    exact taken_cons (by simpa using h) hline ⟨fun _ => hpackage, rfl⟩
  | .member target operator (some name), level, m, rest, h, hp => by
    simp only [Expr.Complete] at h
    obtain ⟨⟨hto, ht⟩, ho, hn⟩ := h
    obtain ⟨rfl, hrest⟩ := hp.followsExpression id
    obtain ⟨hline, _⟩ := hp.followsOperand
    have hop : Level.ofOperator? operator.kind = some .access := by
      rcases ho with ho | ho <;> rw [ho] <;> rfl
    have htarget := target.grown_print .help m (operator :: name :: rest) ht
      (.inl ⟨hto, Kind.followsOperand_of_operator hop⟩)
    have hprint : (Expr.member target operator (some name)).outline.print ++ rest =
        target.outline.print ++ operator :: name :: rest := by
      simp [Expr.outline, Outline.of, Outline.print, Part.ofToken?, Part.print, Part.startsWithNode]
    rw [hprint]
    simp only [Expr.Grown, mul_assoc]
    exact ⟨_, htarget, taken_cons (by simp [ho, Level.help_le]) (headKind_ne_of_isName hn)
      (taken_singleton hn hline)⟩
  | .namespaced package operator (some name), level, m, rest, h, hp => by
    obtain ⟨hline, _⟩ := hp.followsOperand
    simp only [Expr.Complete] at h
    obtain ⟨hpk, hop, hn⟩ := h
    have hprint : (Expr.namespaced package operator (some name)).outline.print ++ rest =
        package :: operator :: name :: rest := by
      simp [Expr.outline, Outline.of, Outline.print, Part.ofToken?, Part.print]
    rw [hprint]
    simp only [Expr.Grown, mul_assoc]
    exact taken_cons hpk (fun hk => by rw [headKind_cons] at hk; rw [hk] at hop; cases hop)
      (taken_cons hop (headKind_ne_of_isName hn) (taken_singleton hn hline))
  | .repeatLoop keyword body, level, m, rest, h, hp => by
    simp only [Expr.Complete] at h
    obtain ⟨hk, _, hb⟩ := h
    obtain ⟨rfl, hrest⟩ := hp.followsExpression id
    have hbody := body.grown_print .help m rest hb (.inr ⟨rfl, hrest⟩)
    have hprint : (Expr.repeatLoop keyword body).outline.print ++ rest =
        keyword :: (body.outline.print ++ rest) := by
      simp [Expr.outline, Outline.of, Outline.print, Part.print, Part.startsWithNode]
    rw [hprint]
    simp only [Expr.Grown, mul_assoc]
    exact taken_last (by simp [hk]) hbody hrest
  | .unary operator operand, level, m, rest, h, hp => by
    simp only [Expr.Complete] at h
    obtain ⟨hk, hoo, ho⟩ := h
    obtain ⟨rfl, hrest⟩ := hp.followsExpression id
    obtain ⟨found, hf⟩ := Option.isSome_iff_exists.1 hk
    have hoperand := operand.grown_print found m rest ho
      (.inl ⟨hoo, Kind.followsOperand_of_followsExpression hrest⟩)
    have hprint : (Expr.unary operator operand).outline.print ++ rest =
        operator :: (operand.outline.print ++ rest) := by
      simp [Expr.outline, Outline.of, Outline.print, Part.print, Part.startsWithNode]
    rw [hprint]
    simp only [Expr.Grown, mul_assoc]
    exact ⟨found, taken_last (by simp [hf]) hoperand hrest⟩
  | .whileLoop keyword (some opening) condition (some closing) body, level, m, rest, h, hp => by
    simp only [Expr.Complete] at h
    obtain ⟨hk, ho, hcond, hc, _, hb⟩ := h
    obtain ⟨rfl, hrest⟩ := hp.followsExpression id
    have hbody := body.grown_print .help m rest hb (.inr ⟨rfl, hrest⟩)
    have hcondition := condition.grown_print .help m.bracketed
      (closing :: (body.outline.print ++ rest)) hcond (.inr ⟨rfl, by rw [headKind_cons, hc]; rfl⟩)
    have hprint : (Expr.whileLoop keyword (some opening) condition (some closing)
          body).outline.print ++ rest =
        keyword :: opening ::
          (condition.outline.print ++ closing :: (body.outline.print ++ rest)) := by
      simp [Expr.outline, Outline.of, Outline.print, Part.ofToken?, Part.print, Part.startsWithNode]
    rw [hprint]
    simp only [Expr.Grown, mul_assoc]
    exact taken_cons (by simp [hk]) (by simp [ho])
      (taken_enclosed (by simp [ho]) hcondition hc (taken_last (by simp [hc]) hbody hrest))
  | .block _ _ none, _, _, _, h, _ | .call _ _ _ none, _, _, _, h, _
  | .function _ none _ _ _, _, _, _, h, _ | .function _ _ _ none _, _, _, _, h, _
  | .function _ _ _ _ none, _, _, _, h, _ | .group _ _ none, _, _, _, h, _
  | .conditional _ none _ _ _ _, _, _, _, h, _ | .conditional _ _ _ none _ _, _, _, _, h, _
  | .index _ _ _ [], _, _, _, h, _ | .index _ _ _ (_ :: _ :: _ :: _), _, _, _, h, _
  | .member _ _ none, _, _, _, h, _ | .namespaced _ _ none, _, _, _, h, _
  | .whileLoop _ none _ _ _, _, _, _, h, _ | .whileLoop _ _ _ none _, _, _, _, h, _
  | .forLoop _ none _ _ _ _ _, _, _, _, h, _ | .forLoop _ _ none _ _ _ _, _, _, _, h, _
  | .forLoop _ _ _ none _ _ _, _, _, _, h, _ | .forLoop _ _ _ _ _ none _, _, _, _, h, _
  | .invalid _, _, _, _, h, _ => by
    simp only [Expr.Complete] at h
/-- Statements with semicolons between them, up to the end of what they are in. -/
theorem Expr.grownAll_print : (es : List Expr) → (m : Mode) → (rest : List Token) →
    Expr.AllComplete es → (headKind rest = .endOfFile ∨ headKind rest = .rightCurly ∧ m.inBlock) →
      Expr.GrownAll m es (Expr.printAll es ++ rest) rest ∧
        (headKind (Expr.printAll es ++ rest)).separates = false
  | [], m, rest, _, hr => grownAll_nil hr
  | [e], m, rest, h, hr => by
    simp only [Expr.AllComplete] at h
    obtain ⟨hlast, hfirst⟩ := grownAll_nil hr
    have he := e.grown_print .help m rest h.1
      (.inr ⟨rfl, by rcases hr with hr | ⟨hr, _⟩ <;> rw [hr] <;> rfl⟩)
    have hprint : Expr.printAll [e] ++ rest = e.outline.print ++ rest := by
      simp [Expr.printAll, Expr.outlines, Part.print, Part.startsWithNode]
    rw [hprint]
    refine ⟨grownAll_cons he ?_ ?_ hlast, headKind_of_grown he⟩ <;>
      rcases hr with hr | ⟨hr, _⟩ <;> rw [hr] <;> rfl
  | e :: next :: others, m, rest, h, hr => by
    rw [Expr.AllComplete] at h
    obtain ⟨hothers, _⟩ := Expr.grownAll_print (next :: others) m rest h.2 hr
    have he := e.grown_print .help m
      (.semicolon :: (Expr.printAll (next :: others) ++ rest)) h.1 (.inr ⟨rfl, rfl⟩)
    have hprint : Expr.printAll (e :: next :: others) ++ rest =
        e.outline.print ++ .semicolon :: (Expr.printAll (next :: others) ++ rest) := by
      simp [Expr.printAll, Expr.outlines, Part.print, Part.startsWithNode]
    rw [hprint]
    exact ⟨grownAll_cons he rfl rfl ((grownAll_cons_separator rfl).2 hothers), headKind_of_grown he⟩
theorem Expr.grownElse_print : (alternative : Option (Token × Expr)) → (m : Mode) →
    (rest : List Token) → Expr.CompleteElse alternative →
      (headKind rest).followsExpression = true →
        Expr.GrownElse m alternative (Part.print [] (Expr.outlineElse alternative) ++ rest) rest ∧
          (headKind (Part.print [] (Expr.outlineElse alternative) ++ rest)).followsOperand = true ∧
          (headKind (Part.print [] (Expr.outlineElse alternative) ++ rest)).endsExpression = true
  | none, m, rest, _, hr => by
    refine ⟨⟨?_, rfl⟩, Kind.followsOperand_of_followsExpression hr,
      Kind.endsExpression_of_followsExpression hr⟩
    have hne : headKind rest ≠ .endOfLine ∧ headKind rest ≠ .elseWord := by
      simp only [Kind.followsExpression, Bool.and_eq_true, decide_eq_true_eq] at hr
      exact ⟨hr.1.2, hr.2⟩
    exact fun h => hne.2 ((congrArg headKind (m.beforeElse_of_ne hne.1)).symm.trans h)
  | some (word, e), m, rest, h, hr => by
    simp only [Expr.CompleteElse] at h
    obtain ⟨hw, _, h⟩ := h
    have he := e.grown_print .help m rest h (.inr ⟨rfl, hr⟩)
    have hprint : Part.print [] (Expr.outlineElse (some (word, e))) ++ rest =
        word :: (e.outline.print ++ rest) := by
      simp [Expr.outlineElse, Part.print]
    rw [hprint, headKind_cons, hw]
    refine ⟨?_, rfl, rfl⟩
    simp only [Expr.GrownElse, mul_assoc]
    exact ⟨_, m.beforeElse_of_ne (by simp [hw]), taken_last (by simp [hw]) he hr⟩
theorem Item.grown_print : (item : Item) → (role : ListRole) → (terminator : Kind) → (m : Mode) →
    (rest : List Token) → Reading.ClosesList terminator → item.Complete role →
      headKind (item.comma.toList ++ rest) = (if item.comma.isSome then .comma else terminator) →
        item.Grown role terminator m ((item.outline role).print ++ rest) (item.comma.toList ++ rest)
  | .positional value comma, role, terminator, m, rest, ht, h, hr => by
    have hrest := Kind.followsExpression_of_itemEnd ht hr
    simp only [Item.Complete] at h
    obtain ⟨rfl, ⟨hvo, hv⟩, hne⟩ := h
    have hvalue := value.grown_print .help m (comma.toList ++ rest) hv (.inr ⟨rfl, hrest⟩)
    have hprint : ((Item.positional value comma).outline .arguments).print ++ rest =
        value.outline.print ++ (comma.toList ++ rest) := by
      simp [Item.outline, Outline.of, Outline.print, Part.print, Node.between_ofItem]
    rw [hprint, Item.grown_positional]
    exact ⟨rfl, Expr.atValue_print hvo hv hne hrest, _, hvalue,
      stop_of_ends (Kind.endsExpression_of_followsExpression hrest)⟩
  | .named name (some equals) (some value) comma, role, terminator, m, rest, ht, h, hr => by
    have hrest := Kind.followsExpression_of_itemEnd ht hr
    simp only [Item.Complete, Expr.Complete?] at h
    obtain ⟨hn, he, _, hv⟩ := h
    have hvalue := value.grown_print .help m (comma.toList ++ rest) hv (.inr ⟨rfl, hrest⟩)
    have hprint : ((Item.named name (some equals) (some value) comma).outline role).print ++ rest =
        name :: equals :: (value.outline.print ++ (comma.toList ++ rest)) := by
      simp [Item.outline, Outline.of, Outline.print, Part.print, Part.ofToken?_some,
        Expr.outline?, Node.between_ofItem]
    rw [hprint]
    simp only [Item.Grown, Expr.Grown?, mul_assoc]
    refine taken_cons (by simpa using hn) (by simp [he]) (taken_cons (by simp [he])
      (headKind_ne_of_grown hvalue) ((check_mul _ _ _ _).2 ⟨fun _ => rfl, _, hvalue, stop_of_ends
        (Kind.endsExpression_of_followsExpression hrest)⟩))
  | .named name (some equals) none comma, role, terminator, m, rest, ht, h, hr => by
    have hrest := Kind.followsExpression_of_itemEnd ht hr
    simp only [Item.Complete, Expr.Complete?] at h
    obtain ⟨hn, he, rfl⟩ := h
    have hprint : ((Item.named name (some equals) none comma).outline .arguments).print ++ rest =
        name :: equals :: (comma.toList ++ rest) := by
      simp [Item.outline, Outline.of, Outline.print, Part.print, Part.ofToken?_some,
        Expr.outline?, Node.between_ofItem]
    rw [hprint]
    simp only [Item.Grown, Expr.Grown?, mul_assoc]
    exact taken_cons (by simpa using hn) (by simp [he]) (taken_cons (by simp [he])
      (Kind.ne_of_followsExpression hrest) ((check_mul _ _ _ _).2
        ⟨(fun hrole => nomatch hrole), endsItem_of_itemEnd hr, rfl⟩))
  | .named name none none comma, role, terminator, m, rest, ht, h, hr => by
    have hrest := Kind.followsExpression_of_itemEnd ht hr
    simp only [Item.Complete] at h
    obtain ⟨rfl, hn⟩ := h
    have hprint : ((Item.named name none none comma).outline .parameters).print ++ rest =
        name :: (comma.toList ++ rest) := by
      simp [Item.outline, Outline.of, Outline.print, Part.print, Part.ofToken?_none,
        Expr.outline?, Node.between_ofItem]
    rw [hprint]
    simp only [Item.Grown]
    refine taken_cons (by simp [hn]) (Kind.ne_of_followsExpression hrest) ⟨fun hk => ?_, rfl⟩
    rw [Item.comma, hk] at hrest
    cases hrest
  | .ellipsis token comma, role, terminator, m, rest, ht, h, hr => by
    have hrest := Kind.followsExpression_of_itemEnd ht hr
    simp only [Item.Complete] at h
    have hprint : ((Item.ellipsis token comma).outline role).print ++ rest =
        token :: (comma.toList ++ rest) := by
      simp [Item.outline, Outline.of, Outline.print, Part.print, Node.between_ofItem]
    rw [hprint]
    simp only [Item.Grown]
    exact taken_singleton (by simp [h]) (Kind.ne_of_followsExpression hrest)
  | .missing (some comma), role, terminator, m, rest, ht, h, hr => by
    simp only [Item.Complete] at h
    have hprint : ((Item.missing (some comma)).outline role).print ++ rest = comma :: rest := by
      simp [Item.outline, Outline.of, Outline.print, Part.print, Part.ofToken?_some]
    rw [hprint]
    exact ⟨⟨h.1, hr⟩, rfl⟩
  | .missing none, _, _, _, _, _, h, _ | .named _ none (some _) _, _, _, _, _, _, h, _
  | .unreadable _ _, _, _, _, _, _, h, _ | .stub, _, _, _, _, _, h, _ => by
    simp [Item.Complete] at h
theorem Item.grownAll_print : (items : List Item) → (role : ListRole) → (terminator : Kind) →
    (m : Mode) → (slot : Reading.Slot) → (rest : List Token) →
      Reading.ClosesList terminator → Item.AllComplete role items →
        CommasFit items → headKind rest = terminator → ¬(items = [] ∧ slot = .comma) →
          Item.GrownAll role terminator m slot items
            (Part.print [] (Item.outlines role items) ++ rest) rest
  | [], role, terminator, m, slot, rest, ht, _, _, hr, hslot => by
    rw [Item.GrownAll]
    exact ⟨⟨hr, fun h => hslot ⟨rfl, h.2⟩⟩, rfl⟩
  | [item], role, terminator, m, slot, rest, ht, h, hcommas, hr, _ => by
    simp only [CommasFit] at hcommas
    simp only [Item.AllComplete] at h
    have hitem := item.grown_print role terminator m rest ht h.1 (by simpa [hcommas] using hr)
    have hprint : Part.print [] (Item.outlines role [item]) ++ rest =
        (item.outline role).print ++ rest := by
      simp [Item.outlines, Part.print]
    rw [hcommas] at hitem
    rw [hprint]
    simp only [Item.GrownAll, mul_assoc, hcommas]
    refine ⟨_, hitem, _, ⟨⟨?_, ?_⟩, rfl⟩, ⟨hr, ?_⟩, rfl⟩
    · rcases ht with rfl | rfl <;> simp [hr]
    · simp [Reading.endsItem, hr]
    · simp [Reading.Slot.after, hcommas]
  | item :: next :: others, role, terminator, m, slot, rest, ht, h, hcommas, hr, _ => by
    rw [CommasFit] at hcommas
    rw [Item.AllComplete] at h
    obtain ⟨⟨comma, hc, hk⟩, hcommas⟩ := hcommas
    have hothers := Item.grownAll_print (next :: others) role terminator m (.after item) rest ht h.2
      hcommas hr (fun h => nomatch h.1)
    have hitem := item.grown_print role terminator m
      (Part.print [] (Item.outlines role (next :: others)) ++ rest) ht h.1 (by simp [hc, hk])
    have hprint : Part.print [] (Item.outlines role (item :: next :: others)) ++ rest =
        (item.outline role).print ++
          (Part.print [] (Item.outlines role (next :: others)) ++ rest) := by
      simp [Item.outlines, Part.print]
    rw [hc] at hitem
    rw [hprint]
    rw [Item.GrownAll, mul_assoc, hc]
    exact ⟨_, hitem, taken_cons (f := (· = .comma)) (decide_eq_true hk)
      (headKind_ne_of_grownItems ht hothers) hothers⟩
end

end LenientR
