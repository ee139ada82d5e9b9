import LenientR.Proofs.Grammar.Local

/-!
# The same tree in another mode

What is read outside of everything is read within brackets and blocks too (`Expr.carried_grown`):
there newlines can only be skipped, and none is needed. Only what comes after it has to suit the
mode, as it may be seen across newlines (`Suits`).
-/

namespace LenientR

-- ---------------------------------------------------------------------------
-- Where newlines are skipped, blocks make no difference
-- ---------------------------------------------------------------------------

section

open Trace

theorem Token.taken_ignoring (f : Kind → Bool) (token : Token) :
    token.taken f ⟨true, true⟩ = token.taken f ⟨true, false⟩ := rfl

theorem Trace.atValue_ignoring : atValue ⟨true, true⟩ = atValue ⟨true, false⟩ := rfl

theorem Trace.comma_ignoring (terminator : Kind) (found : Option Token) :
    comma terminator ⟨true, true⟩ found = comma terminator ⟨true, false⟩ found := by
  cases found <;> rfl

/-- After something that is read no newline is left, so none has to be looked past for an `else`. -/
theorem Trace.Firm.mul_congr {r q q' : Trace} (hr : r.Firm ⟨true, false⟩)
    (h : ∀ a b, headKind a ≠ .endOfLine → (q a b ↔ q' a b)) : r * q = r * q' := by
  have hleft {a b : List Token} (hab : r a b) : headKind b ≠ .endOfLine := by
    obtain ⟨_, _, rest, _, _, rfl⟩ := hr.ends a b hab
    exact Reading.State.kind_dropNewlines { Reading.State.start [] with rest := rest }
  apply Trace.ext
  intro a c
  constructor
  · rintro ⟨b, hab, hbc⟩
    exact ⟨b, hab, (h b c (hleft hab)).1 hbc⟩
  · rintro ⟨b, hab, hbc⟩
    exact ⟨b, hab, (h b c (hleft hab)).2 hbc⟩

mutual
/-- Where newlines are skipped anyway, being in a block makes no difference. -/
theorem Expr.grown_ignoring : (e : Expr) → (level : Level) →
    e.Grown level ⟨true, true⟩ = e.Grown level ⟨true, false⟩
  | .assignment left _ right, level | .binary left _ right, level => by
    simp only [Expr.Grown, left.grown_ignoring level, right.grown_ignoring, Token.taken_ignoring]
  | .block _ _ (some _), _ | .control _, _ | .literal _, _ | .namespaced _ _ (some _), _
  | .var _, _ => by
    simp only [Expr.Grown, Token.taken_ignoring]
  | .call callee _ arguments (some _), level => by
    simp only [Expr.Grown, Mode.bracketed, callee.grown_ignoring level, Token.taken_ignoring,
      Item.grownAll_ignoring arguments]
  | .forLoop _ (some _) (some _) (some _) sequence (some _) body, _ => by
    simp only [Expr.Grown, Mode.bracketed, sequence.grown_ignoring .help, body.grown_ignoring .help,
      Token.taken_ignoring]
  | .function _ (some _) parameters (some _) (some body), _ => by
    simp only [Expr.Grown, Mode.bracketed, Item.grownAll_ignoring parameters,
      body.grown_ignoring .help, Token.taken_ignoring]
  | .group _ inner (some _), _ => by
    simp only [Expr.Grown, Mode.bracketed, inner.grown_ignoring .help, Token.taken_ignoring]
  | .conditional keyword (some opening) condition (some closing) consequent alternative, _ => by
    simp only [Expr.Grown, Mode.bracketed, condition.grown_ignoring .help,
      consequent.grown_ignoring .help, Token.taken_ignoring]
    let m : Mode := ⟨true, false⟩
    have hcondition := (condition.firm_grown .help m).isLocal
    have hconsequent := consequent.firm_grown .help m
    have hhead : (keyword.taken (· = .ifWord) m * opening.taken (· = .leftParen) m *
        lines).Local m.bracketed := local_head keyword opening
    have hinner := (hhead.mul hcondition).mul (local_stop .help)
    exact Expr.grownElse_ignoring alternative ((hinner.mul_taken closing).mul_body hconsequent)
  | .index target _ arguments [_], level | .index target _ arguments [_, _], level => by
    simp only [Expr.Grown, Mode.bracketed, target.grown_ignoring level, Token.taken_ignoring,
      Item.grownAll_ignoring arguments]
  | .member target _ (some _), level => by
    simp only [Expr.Grown, target.grown_ignoring level, Token.taken_ignoring]
  | .repeatLoop _ body, _ => by
    simp only [Expr.Grown, body.grown_ignoring .help, Token.taken_ignoring]
  | .unary _ operand, _ => by
    simp only [Expr.Grown, operand.grown_ignoring, Token.taken_ignoring]
  | .whileLoop _ (some _) condition (some _) body, _ => by
    simp only [Expr.Grown, Mode.bracketed, condition.grown_ignoring .help,
      body.grown_ignoring .help, Token.taken_ignoring]
  | .block _ _ none, _ | .call _ _ _ none, _ | .function _ none _ _ _, _
  | .function _ _ _ none _, _ | .function _ _ _ _ none, _ | .group _ _ none, _
  | .conditional _ none _ _ _ _, _ | .conditional _ _ _ none _ _, _ | .index _ _ _ [], _
  | .index _ _ _ (_ :: _ :: _ :: _), _ | .member _ _ none, _ | .namespaced _ _ none, _
  | .whileLoop _ none _ _ _, _ | .whileLoop _ _ _ none _, _ | .forLoop _ none _ _ _ _ _, _
  | .forLoop _ _ none _ _ _ _, _ | .forLoop _ _ _ none _ _ _, _ | .forLoop _ _ _ _ _ none _, _
  | .invalid _, _ => by
    simp only [Expr.Grown]
theorem Expr.grown?_ignoring (terminator : Kind) : (value : Option Expr) →
    Expr.Grown? terminator ⟨true, true⟩ value = Expr.Grown? terminator ⟨true, false⟩ value
  | some e => by simp only [Expr.Grown?, e.grown_ignoring .help]
  | none => by simp only [Expr.Grown?]
theorem Expr.grownElse_ignoring {r : Trace} : (alternative : Option (Token × Expr)) →
    r.Firm ⟨true, false⟩ →
      r * Expr.GrownElse ⟨true, true⟩ alternative = r * Expr.GrownElse ⟨true, false⟩ alternative
  | some (keyword, e), hr => by
    simp only [Expr.GrownElse, e.grown_ignoring .help, Token.taken_ignoring, mul_assoc]
    refine hr.mul_congr fun a b ha => ?_
    have helse (m : Mode) (q : Trace) : (toElse m * q) a b ↔ q a b := by
      constructor
      · rintro ⟨_, rfl, h⟩
        rwa [m.beforeElse_of_ne ha] at h
      · exact fun h => ⟨a, m.beforeElse_of_ne ha, h⟩
    exact (helse _ _).trans (helse _ _).symm
  | none, hr => by
    simp only [Expr.GrownElse]
    refine hr.mul_congr fun a b ha => ?_
    simp only [check_apply, Mode.beforeElse_of_ne _ ha]
theorem Item.grown_ignoring (role : ListRole) (terminator : Kind) : (item : Item) →
    item.Grown role terminator ⟨true, true⟩ = item.Grown role terminator ⟨true, false⟩
  | .positional value _ => by
    simp only [Item.Grown, value.grown_ignoring .help, Trace.atValue_ignoring]
  | .named _ (some _) value _ => by
    simp only [Item.Grown, Token.taken_ignoring, Expr.grown?_ignoring terminator value]
  | .named _ none none _ | .ellipsis _ _ | .missing _ => by
    simp only [Item.Grown, Token.taken_ignoring]
  | .named _ none (some _) _ | .unreadable _ _ | .stub => by
    simp only [Item.Grown]
theorem Item.grownAll_ignoring : (items : List Item) → (role : ListRole) → (terminator : Kind) →
    (slot : Reading.Slot) → Item.GrownAll role terminator ⟨true, true⟩ slot items =
      Item.GrownAll role terminator ⟨true, false⟩ slot items
  | [], _, _, _ => by simp only [Item.GrownAll]
  | item :: rest, role, terminator, _ => by
    simp only [Item.GrownAll, item.grown_ignoring role terminator, Trace.comma_ignoring,
      Item.grownAll_ignoring rest]
end

end

-- ---------------------------------------------------------------------------
-- From outside into any mode
-- ---------------------------------------------------------------------------

/-- After something that is read outside of everything in front of `b`, tokens that may follow it in
a mode: those of the same kind or the end of a statement, with no `else` in sight. -/
structure Suits (m : Mode) (b c : List Token) : Prop where
  head : headKind (m.settle c) = headKind b ∨ (headKind (m.settle c)).endsStatement = true
  elseWord : headKind (m.beforeElse (m.settle c)) = .elseWord → headKind b = .elseWord

section
variable {m : Mode}

theorem Mode.headKind_settle (m : Mode) {token : Token} (h : token.kind ≠ .endOfLine)
    (rest : List Token) : headKind (m.settle (token :: rest)) = token.kind := by
  have hsettle : m.settle (token :: rest) = token :: rest := m.settle_of_ne h
  rw [hsettle, headKind_cons]

theorem Suits.cons {token : Token} (h : token.kind ≠ .endOfLine) (m : Mode) (b c : List Token) :
    Suits m (token :: b) (token :: c) := by
  have hsettle : m.settle (token :: c) = token :: c := m.settle_of_ne h
  refine ⟨.inl (by rw [hsettle]; rfl), fun helse => ?_⟩
  have helseWord : m.beforeElse (token :: c) = token :: c := m.beforeElse_of_ne h
  rwa [hsettle, helseWord] at helse

theorem Suits.admits {b c : List Token} (h : Suits m b c) {level : Level}
    (hb : level.admits (headKind b) = false) : level.admits (headKind (m.settle c)) = false := by
  rcases h.head with he | he
  · rwa [he]
  · generalize headKind (m.settle c) = kind at he
    cases kind <;> first | rfl | cases he

theorem Suits.isPackageOperator {b c : List Token} (h : Suits m b c)
    (hb : (headKind b).isPackageOperator = false) :
    (headKind (m.settle c)).isPackageOperator = false := by
  rcases h.head with he | he
  · rwa [he]
  · generalize headKind (m.settle c) = kind at he
    cases kind <;> first | rfl | cases he

end

namespace Trace

/-- What the first trace reads outside of everything, the second one reads in a mode, in front of
whatever suits the mode. -/
def Carried (m : Mode) (r r' : Trace) : Prop :=
  ∀ a b, r a b → ∃ first more, a = first :: (more ++ b) ∧ first.kind ≠ .endOfLine ∧
    ∀ c, Suits m b c → r' (first :: (more ++ c)) (m.settle c)

/-- What the first trace reads outside of everything, the second one reads in a mode, in front of
whatever there is. -/
def Freed (m : Mode) (r r' : Trace) : Prop :=
  ∀ a b, r a b → ∃ first more, a = first :: (more ++ b) ∧ first.kind ≠ .endOfLine ∧
    ∀ c, r' (first :: (more ++ c)) (m.settle c)

/-- What the first trace reads up to a place within brackets, the second one reads in front of
whatever looks alike from there. -/
def Entered (m' : Mode) (r r' : Trace) : Prop :=
  ∀ a b, r a b → ∃ first more, a = first :: (more ++ b) ∧ first.kind ≠ .endOfLine ∧
    ∀ c, Alike m' b c → r' (first :: (more ++ c)) c

variable {m m' : Mode} {r r' q q' : Trace} {f : Kind → Bool}

theorem Freed.carried (h : Freed m r r') : Carried m r r' := by
  intro a b hab
  obtain ⟨first, more, ha, hk, hread⟩ := h a b hab
  exact ⟨first, more, ha, hk, fun c _ => hread c⟩

theorem carried_never : Carried m never r' := fun _ _ h => h.elim

theorem carried_any {traces traces' : ι → Trace} (h : ∀ i, Carried m (traces i) (traces' i)) :
    Carried m (any traces) (any traces') := by
  rintro a b ⟨i, hi⟩
  obtain ⟨first, more, ha, hk, hread⟩ := h i a b hi
  exact ⟨first, more, ha, hk, fun c hc => ⟨i, hread c hc⟩⟩

theorem freed_taken (token : Token) (hf : f .endOfLine = false := by rfl) :
    Freed m (token.taken f .top) (token.taken f m) := by
  intro a b h
  have hk := kind_ne_of_taken hf h
  obtain ⟨hfits, rest, rfl, rfl⟩ := h
  exact ⟨token, [], rfl, hk, fun c => ⟨hfits, c, rfl, rfl⟩⟩

theorem Carried.mul_taken (hr : Carried m r r') (token : Token)
    (hf : f .endOfLine = false := by rfl) :
    Freed m (r * token.taken f .top) (r' * token.taken f m) := by
  rintro a b ⟨c, hac, hcb⟩
  obtain ⟨first, more, rfl, hk, hread⟩ := hr a c hac
  have htoken := kind_ne_of_taken hf hcb
  obtain ⟨hfits, rest, rfl, rfl⟩ := hcb
  refine ⟨first, more ++ [token], by simp [Mode.settle, Mode.top], hk, fun c => ?_⟩
  rw [List.append_assoc]
  have hsettle : m.settle (token :: c) = token :: c := m.settle_of_ne htoken
  have hleft := hread (token :: c) (.cons htoken m _ _)
  rw [hsettle] at hleft
  exact ⟨token :: c, hleft, hfits, c, rfl, rfl⟩

theorem Carried.mul_else (hr : Carried m r r') (token : Token)
    (hf : f .endOfLine = false := by rfl) :
    Freed m (r * toElse .top * token.taken f .top) (r' * toElse m * token.taken f m) := by
  have htop : toElse .top = 1 := rfl
  rw [htop, mul_one]
  intro a b h
  obtain ⟨c, hac, hcb⟩ := h
  obtain ⟨first, more, rfl, hk, hread⟩ := hr a c hac
  have htoken := kind_ne_of_taken hf hcb
  obtain ⟨hfits, rest, rfl, rfl⟩ := hcb
  refine ⟨first, more ++ [token], by simp [Mode.settle, Mode.top], hk, fun c => ?_⟩
  rw [List.append_assoc]
  have hsettle : m.settle (token :: c) = token :: c := m.settle_of_ne htoken
  have hleft := hread (token :: c) (.cons htoken m _ _)
  rw [hsettle] at hleft
  exact ⟨token :: c, ⟨token :: c, hleft, m.beforeElse_of_ne htoken⟩, hfits, c, rfl, rfl⟩

theorem Carried.mul_check (hr : Carried m r r') {holds holds' : List Token → Prop}
    (h : ∀ b c, Suits m b c → holds b → holds' (m.settle c)) :
    Carried m (r * check holds) (r' * check holds') := by
  intro a b hab
  obtain ⟨hab, hholds⟩ := (Trace.mul_check holds r a b).1 hab
  obtain ⟨first, more, ha, hk, hread⟩ := hr a b hab
  exact ⟨first, more, ha, hk, fun c hc =>
    (Trace.mul_check holds' r' _ _).2 ⟨hread c hc, h b c hc hholds⟩⟩

theorem Carried.mul_stop (hr : Carried m r r') (level : Level) :
    Carried m (r * stop level) (r' * stop level) :=
  hr.mul_check fun _ _ hc => hc.admits

theorem Freed.mul_check (hr : Freed m r r') {holds : Prop} :
    Freed m (r * check fun _ => holds) (r' * check fun _ => holds) := by
  intro a b hab
  obtain ⟨hab, hholds⟩ := (Trace.mul_check (fun _ => holds) r a b).1 hab
  obtain ⟨first, more, ha, hk, hread⟩ := hr a b hab
  exact ⟨first, more, ha, hk, fun c =>
    (Trace.mul_check (fun _ => holds) r' _ _).2 ⟨hread c, hholds⟩⟩

theorem Freed.mul_lines (hr : Freed m r r') : Entered m' (r * lines) (r' * lines) := by
  rintro a b ⟨c, hac, hcb⟩
  obtain ⟨first, more, rfl, hk, hread⟩ := hr a c hac
  obtain ⟨gone, rfl, hgone, hb⟩ := (@dropWhile_kind_eq_iff (· = .endOfLine) rfl c b).1 hcb
  refine ⟨first, more ++ gone, by simp, hk, fun c hc => ?_⟩
  rw [List.append_assoc]
  refine ⟨m.settle (gone ++ c), hread (gone ++ c), ?_⟩
  have hhead : headKind c ≠ .endOfLine := by
    rw [← hc.head]
    simpa using hb
  have hskip : skipLines (gone ++ c) = c :=
    (@dropWhile_kind_eq_iff (· = .endOfLine) rfl _ c).2 ⟨gone, rfl, hgone, by simpa using hhead⟩
  change skipLines (m.settle (gone ++ c)) = c
  unfold Mode.settle
  split
  · rw [hskip, skipLines_of_ne hhead]
  · exact hskip

theorem Entered.mul (hr : Entered m' r r') (hq : q.Local m') : Entered m' (r * q) (r' * q) := by
  rintro a b ⟨c, hac, hcb⟩
  obtain ⟨first, more, rfl, hk, hread⟩ := hr a c hac
  obtain ⟨own, rfl, hown⟩ := hq c b hcb
  refine ⟨first, more ++ own, by simp, hk, fun c hc => ?_⟩
  rw [List.append_assoc]
  exact ⟨own ++ c, hread _ (hc.append own), hown c hc⟩

theorem Entered.mul_taken (hr : Entered m' r r') (token : Token)
    (hf : f .endOfLine = false := by rfl) :
    Freed m (r * token.taken f .top) (r' * token.taken f m) := by
  rintro a b ⟨c, hac, hcb⟩
  obtain ⟨first, more, rfl, hk, hread⟩ := hr a c hac
  have htoken := kind_ne_of_taken hf hcb
  obtain ⟨hfits, rest, rfl, rfl⟩ := hcb
  refine ⟨first, more ++ [token], by simp [Mode.settle, Mode.top], hk, fun c => ?_⟩
  rw [List.append_assoc]
  exact ⟨token :: c, hread _ (.cons htoken m' _ _), hfits, c, rfl, rfl⟩

/-- Something that is read outside of everything, and in a mode, after newlines. -/
theorem Entered.mul_carried (hr : Entered m' r r') (hq : Carried m q q') :
    Carried m (r * q) (r' * q') := by
  rintro a b ⟨c, hac, hcb⟩
  obtain ⟨first, more, rfl, hk, hread⟩ := hr a c hac
  obtain ⟨next, rest, rfl, hnext, hrest⟩ := hq c b hcb
  refine ⟨first, more ++ next :: rest, by simp, hk, fun c hc => ?_⟩
  rw [List.append_assoc]
  exact ⟨next :: (rest ++ c), hread _ (.cons hnext m' _ _), hrest c hc⟩

theorem Freed.mul_block (hr : Freed m r r') (hq : q.Local m')
    (hskip : ∀ a b, q a b → q (skipLines a) b) : Entered m' (r * q) (r' * q) := by
  rintro a b ⟨c, hac, hcb⟩
  obtain ⟨first, more, rfl, hk, hread⟩ := hr a c hac
  obtain ⟨own, rfl, hown⟩ := hq c b hcb
  refine ⟨first, more ++ own, by simp, hk, fun c hc => ?_⟩
  rw [List.append_assoc]
  refine ⟨m.settle (own ++ c), hread _, ?_⟩
  unfold Mode.settle
  split
  · exact hskip _ _ (hown c hc)
  · exact hown c hc

theorem Freed.mul_operand (hr : Freed m r r') (hq : Carried m q q') (level : Level) :
    Carried m (r * lines * q * stop level) (r' * lines * q' * stop level) :=
  have hlines : Entered .top (r * lines) (r' * lines) := hr.mul_lines
  (hlines.mul_carried hq).mul_stop level

theorem Freed.mul_body (hr : Freed m r r') (hq : Carried m q q') :
    Carried m (r * lines * q * stop .help) (r' * lines * q' * stop .help) :=
  hr.mul_operand hq .help

end Trace

open Trace

theorem dropWhile_skipLines (tokens : List Token) :
    (skipLines tokens).dropWhile (·.kind.separates) = tokens.dropWhile (·.kind.separates) := by
  induction tokens with
  | nil => rfl
  | cons token rest ih =>
    by_cases hl : token.kind = .endOfLine
    · simpa [skipLines, Kind.separates, hl] using ih
    · rw [skipLines_of_ne (by simpa using hl)]

/-- Statements are read the same with newlines in front of them or without. -/
theorem Expr.grownAll_skipLines {m : Mode} {es : List Expr} {a b : List Token}
    (h : Expr.GrownAll m es a b) : Expr.GrownAll m es (skipLines a) b := by
  cases es <;> simp only [Expr.GrownAll, mul_assoc, separators_mul] at h ⊢ <;>
    rwa [dropWhile_skipLines]

theorem Token.taken_bracketed (m : Mode) (f : Kind → Bool) (token : Token) :
    token.taken f m.bracketed = token.taken f Mode.top.bracketed := rfl

theorem Expr.grown_bracketed (m : Mode) (e : Expr) (level : Level) :
    e.Grown level m.bracketed = e.Grown level Mode.top.bracketed := by
  unfold Mode.bracketed
  cases m.inBlock with
  | false => rfl
  | true => exact e.grown_ignoring level

theorem Item.grownAll_bracketed (m : Mode) (items : List Item) (role : ListRole)
    (terminator : Kind) : Item.GrownAll role terminator m.bracketed .opening items =
      Item.GrownAll role terminator Mode.top.bracketed .opening items := by
  unfold Mode.bracketed
  cases m.inBlock with
  | false => rfl
  | true => exact Item.grownAll_ignoring items role terminator .opening

section
variable (m : Mode)

theorem Trace.entered_head {f f' : Kind → Bool} (keyword opening : Token)
    (hf : f .endOfLine = false := by rfl) (hf' : f' .endOfLine = false := by rfl) :
    Entered Mode.top.bracketed (keyword.taken f .top * opening.taken f' .top * lines)
      (keyword.taken f m * opening.taken f' m * lines) :=
  ((freed_taken keyword hf).carried.mul_taken opening hf').mul_lines

theorem Trace.Entered.mul_inner {m' : Mode} {r r' : Trace} (hr : Entered m' r r') {e : Expr}
    (he : (e.Grown .help m').Local m') :
    Entered m' (r * e.Grown .help m' * stop .help) (r' * e.Grown .help m' * stop .help) :=
  (hr.mul he).mul (local_stop .help)

mutual
/-- An expression that is read outside of everything is read in any mode, in front of what suits
it. -/
theorem Expr.carried_grown (level : Level) :
    (e : Expr) → Carried m (e.Grown level .top) (e.Grown level m)
  | .assignment left operator right | .binary left operator right => by
    have hleft := left.carried_grown level
    simp only [Expr.Grown]
    refine carried_any fun found => ?_
    have hright := right.carried_grown (found.operandLevel operator.kind)
    exact (hleft.mul_taken operator).mul_operand hright _
  | .block opening body (some closing) => by
    have hbody := Expr.local_grownAll .block body
    simp only [Expr.Grown]
    exact (((freed_taken opening).mul_block hbody fun _ _ =>
      Expr.grownAll_skipLines).mul_taken closing).carried
  | .call callee opening arguments (some closing) => by
    have hcallee := callee.carried_grown level
    have hitems := Item.local_grownAll .arguments .rightParen Mode.top.bracketed .opening arguments
    simp only [Expr.Grown, Item.grownAll_bracketed m]
    exact (((hcallee.mul_taken opening).mul_lines.mul hitems).mul_taken closing).carried
  | .control token => by
    simp only [Expr.Grown]
    exact (freed_taken token).carried
  | .forLoop keyword (some opening) (some loopVar) (some inWord) sequence (some closing) body => by
    have hsequence := (sequence.firm_grown .help Mode.top.bracketed).isLocal
    have hbody := body.carried_grown .help
    simp only [Expr.Grown, Expr.grown_bracketed m, Token.taken_bracketed m]
    exact ((((entered_head m keyword opening).mul (local_taken loopVar)).mul
      (local_taken inWord)).mul_inner hsequence |>.mul_taken closing).mul_body hbody
  | .function keyword (some opening) parameters (some closing) (some body) => by
    have hitems := Item.local_grownAll .parameters .rightParen Mode.top.bracketed .opening
      parameters
    have hbody := body.carried_grown .help
    simp only [Expr.Grown, Item.grownAll_bracketed m]
    exact (((entered_head m keyword opening).mul hitems).mul_taken closing).mul_check.mul_body
      hbody
  | .group opening inner (some closing) => by
    have hinner := (inner.firm_grown .help Mode.top.bracketed).isLocal
    simp only [Expr.Grown, Expr.grown_bracketed m]
    exact ((freed_taken opening).mul_lines.mul_inner hinner |>.mul_taken closing).carried
  | .conditional keyword (some opening) condition (some closing) consequent alternative => by
    have hcondition := (condition.firm_grown .help Mode.top.bracketed).isLocal
    have hconsequent := consequent.carried_grown .help
    simp only [Expr.Grown, Expr.grown_bracketed m]
    exact Expr.carried_grownElse alternative
      (((entered_head m keyword opening).mul_inner hcondition |>.mul_taken closing).mul_body
        hconsequent)
  | .index target opening arguments [closing] => by
    have htarget := target.carried_grown level
    have hitems := Item.local_grownAll .arguments .rightSquare Mode.top.bracketed .opening arguments
    simp only [Expr.Grown, Item.grownAll_bracketed m]
    exact (((htarget.mul_taken opening).mul_lines.mul hitems).mul_taken closing).carried
  | .index target opening arguments [first, second] => by
    have htarget := target.carried_grown level
    have hitems := Item.local_grownAll .arguments .rightSquare Mode.top.bracketed .opening arguments
    simp only [Expr.Grown, Item.grownAll_bracketed m]
    exact ((((htarget.mul_taken opening).mul_lines.mul hitems).mul_taken first).carried.mul_taken
      second).carried
  | .literal token | .var token => by
    simp only [Expr.Grown]
    exact (freed_taken token).carried.mul_check fun _ _ hc h hn => hc.isPackageOperator (h hn)
  | .member target operator (some name) => by
    have htarget := target.carried_grown level
    simp only [Expr.Grown]
    exact ((htarget.mul_taken operator).carried.mul_taken name).carried
  | .namespaced package operator (some name) => by
    simp only [Expr.Grown]
    exact (((freed_taken package).carried.mul_taken operator).carried.mul_taken name).carried
  | .repeatLoop keyword body => by
    have hbody := body.carried_grown .help
    simp only [Expr.Grown]
    exact (freed_taken keyword).mul_body hbody
  | .unary operator operand => by
    simp only [Expr.Grown]
    refine carried_any fun found => ?_
    have hoperand := operand.carried_grown found
    exact (freed_taken operator).mul_operand hoperand found
  | .whileLoop keyword (some opening) condition (some closing) body => by
    have hcondition := (condition.firm_grown .help Mode.top.bracketed).isLocal
    have hbody := body.carried_grown .help
    simp only [Expr.Grown, Expr.grown_bracketed m]
    exact ((entered_head m keyword opening).mul_inner hcondition |>.mul_taken closing).mul_body
      hbody
  | .block _ _ none | .call _ _ _ none | .function _ none _ _ _ | .function _ _ _ none _
  | .function _ _ _ _ none | .group _ _ none | .conditional _ none _ _ _ _
  | .conditional _ _ _ none _ _ | .index _ _ _ [] | .index _ _ _ (_ :: _ :: _ :: _)
  | .member _ _ none | .namespaced _ _ none | .whileLoop _ none _ _ _ | .whileLoop _ _ _ none _
  | .forLoop _ none _ _ _ _ _ | .forLoop _ _ none _ _ _ _ | .forLoop _ _ _ none _ _ _
  | .forLoop _ _ _ _ _ none _ | .invalid _ => by
    simp only [Expr.Grown]
    exact carried_never
theorem Expr.carried_grownElse {r r' : Trace} : (alternative : Option (Token × Expr)) →
    Carried m r r' →
      Carried m (r * Expr.GrownElse .top alternative) (r' * Expr.GrownElse m alternative)
  | some (keyword, e), hr => by
    have he := e.carried_grown .help
    simp only [Expr.GrownElse, ← mul_assoc]
    exact (hr.mul_else keyword).mul_body he
  | none, hr => by
    simp only [Expr.GrownElse]
    exact hr.mul_check fun _ _ hc h helse => h (hc.elseWord helse)
end

end

-- ---------------------------------------------------------------------------
-- Statements
-- ---------------------------------------------------------------------------

theorem Expr.not_else_of_grownAll {m : Mode} {es : List Expr} {a b : List Token}
    (h : Expr.GrownAll m es a b) : headKind (skipLines a) ≠ .elseWord := by
  intro helse
  have hdrop : a.dropWhile (·.kind.separates) = skipLines a := by
    rw [← dropWhile_skipLines]
    cases hs : skipLines a with
    | nil => rfl
    | cons token rest =>
      rw [hs] at helse
      exact List.dropWhile_cons_of_neg (by simp [Kind.separates, show token.kind = _ from helse])
  cases es with
  | nil =>
    simp only [Expr.GrownAll, separators_mul, hdrop, lastStatement, check_apply, helse] at h
    simp at h
  | cons e rest =>
    simp only [Expr.GrownAll, mul_assoc, separators_mul, hdrop] at h
    have hstart := (e.startsWith_grown .help m).mul _ _ _ h
    rw [helse] at hstart
    cases hstart

theorem Expr.grownAll_cons {m : Mode} {e : Expr} {rest : List Expr} {a b : List Token} :
    Expr.GrownAll m (e :: rest) a b ↔ ∃ gone own c, a = gone ++ own ∧
      (∀ token ∈ gone, token.kind.separates = true) ∧ e.Grown .help m own c ∧
      Level.help.admits (headKind c) = false ∧ (headKind c).endsStatement = true ∧
      Expr.GrownAll m rest c b := by
  simp only [Expr.GrownAll, mul_assoc, separators_mul, stop, statementEnd]
  constructor
  · rintro ⟨c, he, hc⟩
    obtain ⟨hstop, hc⟩ := (Trace.check_mul _ _ _ _).1 hc
    obtain ⟨hend, hrest⟩ := (Trace.check_mul _ _ _ _).1 hc
    obtain ⟨gone, hgone, hsep, _⟩ := (@dropWhile_kind_eq_iff Kind.separates rfl a _).1 rfl
    exact ⟨gone, _, c, hgone, hsep, he, hstop, hend, hrest⟩
  · rintro ⟨gone, own, c, rfl, hsep, he, hstop, hend, hrest⟩
    have hstart : (headKind own).separates = false := by
      have h := e.startsWith_grown .help m own c he
      generalize headKind own = kind at h ⊢
      cases kind <;> first | rfl | cases h
    rw [(@dropWhile_kind_eq_iff Kind.separates rfl _ own).2 ⟨gone, rfl, hsep, hstart⟩]
    exact ⟨c, he, (Trace.check_mul _ _ _ _).2 ⟨hstop, (Trace.check_mul _ _ _ _).2 ⟨hend, hrest⟩⟩⟩

/-- Statements up to the end of the file are those of a block that ends on the next line. -/
theorem Expr.grownAll_block {line closing : Token} (hl : line.kind = .endOfLine)
    (hc : closing.kind = .rightCurly) (after : List Token) {es : List Expr} {a b : List Token}
    (h : Expr.GrownAll .top es a b) : ∃ own, a = own ++ b ∧
      Expr.GrownAll .block es (own ++ line :: closing :: after) (closing :: after) := by
  have hends : line.kind.endsStatement = true := by rw [hl]; rfl
  induction es generalizing a with
  | nil =>
    simp only [Expr.GrownAll, separators_mul, lastStatement, check_apply] at h ⊢
    obtain ⟨own, rfl, hsep, _⟩ := (@dropWhile_kind_eq_iff Kind.separates rfl _ _).1 h.2
    have hdrop : (own ++ line :: closing :: after).dropWhile (·.kind.separates) =
        closing :: after := by
      refine (@dropWhile_kind_eq_iff Kind.separates rfl _ _).2 ⟨own ++ [line], by simp, ?_, ?_⟩
      · exact List.forall_mem_append.2 ⟨hsep, by simp [Kind.separates, hl]⟩
      · simp [Kind.separates, hc]
    refine ⟨own, rfl, ?_⟩
    rw [hdrop]
    exact ⟨.inr ⟨hc, rfl⟩, rfl⟩
  | cons e rest ih =>
    obtain ⟨gone, own, c, rfl, hsep, he, hstop, hend, hrest⟩ := Expr.grownAll_cons.1 h
    obtain ⟨others, rfl, hothers⟩ := ih hrest
    obtain ⟨first, more, rfl, _, hread⟩ := e.carried_grown .block .help own (others ++ b) he
    -- what comes after the statement starts as before, or is the new line
    have hhead : headKind (others ++ line :: closing :: after) = headKind (others ++ b) ∨
        headKind (others ++ line :: closing :: after) = line.kind := by
      cases others with
      | nil => exact .inr rfl
      | cons token others => exact .inl rfl
    have hsuits : Suits .block (others ++ b) (others ++ line :: closing :: after) := {
      head := hhead.imp id fun hk => (congrArg Kind.endsStatement hk).trans hends
      elseWord := fun helse => absurd helse (Expr.not_else_of_grownAll hothers) }
    refine ⟨gone ++ first :: (more ++ others), by simp, Expr.grownAll_cons.2 ⟨gone, _, _, ?_, hsep,
      hread _ hsuits, hsuits.admits hstop, ?_, hothers⟩⟩
    · simp
    · rcases hhead with hk | hk
      · exact (congrArg Kind.endsStatement hk).trans hend
      · exact (congrArg Kind.endsStatement hk).trans hends

theorem Expr.grownAll_singleton {e : Expr} {a b : List Token}
    (h : Expr.GrownAll .top [e] a b) : ∃ front first more back,
      a = front ++ first :: (more ++ (back ++ b)) ∧
      (∀ token ∈ front ++ back, token.kind.separates = true) ∧
      first.kind.startsExpression = true ∧ headKind b = .endOfFile ∧
      ∀ m c, Suits m (back ++ b) c → e.Grown .help m (first :: (more ++ c)) (m.settle c) := by
  obtain ⟨front, own, c, rfl, hfront, he, _, _, hrest⟩ := Expr.grownAll_cons.1 h
  simp only [Expr.GrownAll, separators_mul, lastStatement, check_apply] at hrest
  obtain ⟨back, rfl, hback, _⟩ := (@dropWhile_kind_eq_iff Kind.separates rfl _ _).1 hrest.2
  obtain ⟨first, more, rfl, _, _⟩ := e.carried_grown .top .help own _ he
  refine ⟨front, first, more, back, rfl, List.forall_mem_append.2 ⟨hfront, hback⟩,
    e.startsWith_grown .help .top _ _ he, ?_, fun m c hc => ?_⟩
  · rcases hrest.1 with hk | ⟨_, hk⟩
    · rwa [hrest.2] at hk
    · cases hk
  · obtain ⟨first', more', heq, _, hread⟩ := e.carried_grown m .help _ _ he
    obtain ⟨rfl, hmore⟩ := List.cons.inj heq
    rw [List.append_cancel_right hmore]
    exact hread c hc

theorem Expr.grownAll_of_grown {e : Expr} {a : List Token} {last : Token}
    (h : e.Grown .help .top a [last]) (hk : last.kind = .endOfFile) :
    Expr.GrownAll .top [e] a [last] := by
  refine Expr.grownAll_cons.2 ⟨[], a, [last], rfl, by simp, h, ?_, ?_, ?_⟩
  · simp [hk, Level.admits, Level.ofOperator?]
  · simp [hk, Kind.endsStatement]
  · rw [Expr.GrownAll, separators_mul]
    simp [lastStatement, hk, Kind.separates]

end LenientR
