import LenientR.Proofs.Grammar.Items

/-!
# Newlines that count for nothing

Within round and square brackets newlines count for nothing: with more of them there the same is
read (`Expr.keeps_grown`). Where that is can be told from the brackets before a place alone
(`Kind.enclose`). Of the two brackets that close `[[` only the first one is within brackets: between
the two of them newlines count as they do outside.
-/

namespace LenientR

-- ---------------------------------------------------------------------------
-- Places within brackets
-- ---------------------------------------------------------------------------

/-- For each bracket that is still to be closed, the innermost one first, whether newlines count for
nothing in front of it; after a token, from those before it. -/
def Kind.enclose (outer : List Bool) : Kind → List Bool
  | .leftParen | .leftSquare => true :: outer
  | .leftDoubleSquare => true :: outer.headD false :: outer
  | .leftCurly => false :: outer
  | .rightParen | .rightSquare | .rightCurly => outer.tail
  | _ => outer

def ignoresLines (before : List Token) : Bool :=
  (before.foldl (fun outer token => token.kind.enclose outer) [false]).headD false

/-- Tokens with more newlines among them, all where they count for nothing. -/
inductive Padded : List Bool → List Token → List Token → Prop
  | nil (outer : List Bool) : Padded outer [] []
  | token {outer : List Bool} (token : Token) {a b : List Token}
      (h : Padded (token.kind.enclose outer) a b) : Padded outer (token :: a) (token :: b)
  | line {outer : List Bool} (line : Token) {a b : List Token} (hi : outer.headD false = true)
      (hl : line.kind = .endOfLine) (h : Padded outer a b) : Padded outer a (line :: b)

theorem Padded.refl (outer : List Bool) (tokens : List Token) : Padded outer tokens tokens := by
  induction tokens generalizing outer with
  | nil => exact .nil outer
  | cons token rest ih => exact .token token (ih _)

theorem padded_insert {outer : List Bool} {before : List Token} {line : Token}
    (hi : (before.foldl (fun outer token => token.kind.enclose outer) outer).headD false = true)
    (hl : line.kind = .endOfLine) (after : List Token) :
    Padded outer (before ++ after) (before ++ line :: after) := by
  induction before generalizing outer with
  | nil => exact .line line hi hl (.refl outer after)
  | cons token rest ih => exact .token token (ih hi)

structure Aligned (outer : List Bool) (a b : List Token) : Prop where
  padded : Padded outer a b
  head : a.head? = b.head?

namespace Aligned

variable {outer : List Bool} {a b : List Token}

theorem headKind (h : Aligned outer a b) : LenientR.headKind a = LenientR.headKind b := by
  simp only [LenientR.headKind, List.headD_eq_head?_getD, h.head]

theorem of_cons {token : Token} (h : Aligned outer (token :: a) b) (hk : token.kind ≠ .endOfLine) :
    ∃ rest, b = token :: rest ∧ Padded (token.kind.enclose outer) a rest := by
  obtain ⟨hp, hh⟩ := h
  cases hp with
  | token _ h => exact ⟨_, rfl, h⟩
  | line line _ hl _ =>
    rw [List.head?_cons, List.head?_cons, Option.some.injEq] at hh
    exact absurd (hh ▸ hl) hk

end Aligned

namespace Padded

variable {outer : List Bool} {a b : List Token}

theorem dropWhile (skips : Kind → Bool) (hl : skips .endOfLine = true)
    (hs : ∀ kind, skips kind = true → ∀ outer, kind.enclose outer = outer)
    (h : Padded outer a b) :
    Aligned outer (a.dropWhile (skips ·.kind)) (b.dropWhile (skips ·.kind)) := by
  induction h with
  | nil outer => exact ⟨.nil outer, rfl⟩
  | @token outer token a b h ih =>
    by_cases hk : skips token.kind = true
    · rw [hs _ hk] at ih
      simpa only [List.dropWhile_cons, hk, if_true] using ih
    · simp only [List.dropWhile_cons, hk, Bool.false_eq_true, if_false]
      exact ⟨.token token h, rfl⟩
  | line line _ hk _ ih => simpa only [List.dropWhile_cons, hk, hl, if_true] using ih

theorem skipLines (h : Padded outer a b) :
    Aligned outer (LenientR.skipLines a) (LenientR.skipLines b) :=
  h.dropWhile (· = .endOfLine) rfl fun _ hk _ => of_decide_eq_true hk ▸ rfl

theorem aligned (h : Padded outer a b) (hi : outer.headD false = false) : Aligned outer a b := by
  refine ⟨h, ?_⟩
  cases h with
  | nil => rfl
  | token => rfl
  | line _ ht => rw [hi] at ht; cases ht

theorem settle (h : Padded outer a b) (m : Mode) : Padded outer (m.settle a) (m.settle b) := by
  unfold Mode.settle
  split
  · exact h.skipLines.padded
  · exact h

theorem aligned_settle (h : Padded outer a b) {m : Mode}
    (hm : m.skips = true ∨ outer.headD false = false) :
    Aligned outer (m.settle a) (m.settle b) := by
  rcases hm with hs | hi
  · simpa only [Mode.settle, hs, if_true] using h.skipLines
  · exact (h.settle m).aligned hi

end Padded

theorem Aligned.beforeElse {outer : List Bool} {a b : List Token} (h : Aligned outer a b)
    (m : Mode) : Aligned outer (m.beforeElse a) (m.beforeElse b) := by
  unfold Mode.beforeElse
  split
  · exact h.padded.skipLines
  · exact h

-- ---------------------------------------------------------------------------
-- Traces
-- ---------------------------------------------------------------------------

/-- With more newlines that count for nothing the same is read, and what is left is the same but for
such newlines, at its start too. -/
def Trace.Opens (outer inner : List Bool) (t : Trace) : Prop :=
  ∀ a b, t a b → ∀ a', Aligned outer a a' → ∃ b', t a' b' ∧ Padded inner b b'

/-- With more newlines that count for nothing the same is read, and what is left is the same but for
such newlines further on. -/
def Trace.Keeps (outer inner : List Bool) (t : Trace) : Prop :=
  ∀ a b, t a b → ∀ a', Aligned outer a a' → ∃ b', t a' b' ∧ Aligned inner b b'

/-- At a place that is read in a mode, newlines count as they do in that mode. -/
theorem Mode.skips_or (m : Mode) (outer : List Bool) :
    m.skips = true ∨ (m.skips :: outer).headD false = false := by
  cases m.skips with
  | true => exact .inl rfl
  | false => exact .inr rfl

namespace Trace

variable {outer inner middle : List Bool} {m : Mode} {r q : Trace} {holds : List Token → Prop}
  {f : Kind → Bool}

theorem Keeps.mul (hr : r.Keeps outer middle) (hq : q.Keeps middle inner) :
    (r * q).Keeps outer inner := by
  rintro a b ⟨c, hac, hcb⟩ a' ha
  obtain ⟨c', hac', hc⟩ := hr a c hac a' ha
  obtain ⟨b', hcb', hb⟩ := hq c b hcb c' hc
  exact ⟨b', ⟨c', hac', hcb'⟩, hb⟩

theorem Keeps.mul_opens (hr : r.Keeps outer middle) (hq : q.Opens middle inner) :
    (r * q).Opens outer inner := by
  rintro a b ⟨c, hac, hcb⟩ a' ha
  obtain ⟨c', hac', hc⟩ := hr a c hac a' ha
  obtain ⟨b', hcb', hb⟩ := hq c b hcb c' hc
  exact ⟨b', ⟨c', hac', hcb'⟩, hb⟩

theorem Opens.mul_lines (hr : r.Opens outer inner) : (r * lines).Keeps outer inner := by
  rintro a b ⟨c, hac, rfl⟩ a' ha
  obtain ⟨c', hac', hc⟩ := hr a c hac a' ha
  exact ⟨skipLines c', ⟨c', hac', rfl⟩, hc.skipLines⟩

theorem keeps_never : never.Keeps outer inner := fun _ _ h => h.elim

theorem keeps_any {traces : ι → Trace} (h : ∀ i, (traces i).Keeps outer inner) :
    (any traces).Keeps outer inner := by
  rintro a b ⟨i, hi⟩ a' ha
  obtain ⟨b', hab, hb⟩ := h i a b hi a' ha
  exact ⟨b', ⟨i, hab⟩, hb⟩

theorem keeps_check (h : ∀ a a', Aligned outer a a' → holds a → holds a') :
    (check holds).Keeps outer outer := by
  rintro a b ⟨hab, rfl⟩ a' ha
  exact ⟨a', ⟨h a a' ha hab, rfl⟩, ha⟩

theorem keeps_stop (level : Level) : (stop level).Keeps outer outer :=
  keeps_check fun _ _ ha h => ha.headKind ▸ h

theorem keeps_lines : lines.Keeps outer outer := by
  rintro a b rfl a' ha
  exact ⟨skipLines a', rfl, ha.padded.skipLines⟩

theorem Keeps.mul_body (hr : r.Keeps outer middle) (hq : q.Keeps middle middle) :
    (r * lines * q * stop .help).Keeps outer middle :=
  ((hr.mul keeps_lines).mul hq).mul (keeps_stop .help)

theorem keeps_separators : separators.Keeps outer outer := by
  have hs : ∀ kind : Kind, kind.separates = true → ∀ outer, kind.enclose outer = outer := by
    intro kind h
    cases kind <;> first | exact fun _ => rfl | cases h
  rintro a b rfl a' ha
  exact ⟨_, rfl, ha.padded.dropWhile _ rfl hs⟩

theorem keeps_toElse : (toElse m).Keeps outer outer := by
  rintro a b rfl a' ha
  exact ⟨_, rfl, ha.beforeElse m⟩

theorem opens_taken (token : Token)
    (hf : ∀ kind, f kind = true → kind ≠ .endOfLine ∧ kind.enclose outer = inner) :
    (token.taken f m).Opens outer inner := by
  rintro a b ⟨hk, rest, rfl, rfl⟩ a' ha
  obtain ⟨hl, rfl⟩ := hf _ hk
  obtain ⟨rest', rfl, hrest⟩ := ha.of_cons hl
  exact ⟨m.settle rest', ⟨hk, rest', rfl, rfl⟩, hrest.settle m⟩

theorem keeps_taken (token : Token)
    (hf : ∀ kind, f kind = true → kind ≠ .endOfLine ∧ kind.enclose outer = inner)
    (hm : m.skips = true ∨ inner.headD false = false) : (token.taken f m).Keeps outer inner := by
  rintro a b ⟨hk, rest, rfl, rfl⟩ a' ha
  obtain ⟨hl, rfl⟩ := hf _ hk
  obtain ⟨rest', rfl, hrest⟩ := ha.of_cons hl
  exact ⟨m.settle rest', ⟨hk, rest', rfl, rfl⟩, hrest.aligned_settle hm⟩

end Trace

def Kind.isPlain (kind : Kind) : Bool :=
  !kind.opensBracket && !kind.closesBracket && kind ≠ .endOfLine

theorem Kind.enclose_of_isPlain {kind : Kind} (h : kind.isPlain = true) (outer : List Bool) :
    kind ≠ .endOfLine ∧ kind.enclose outer = outer := by
  constructor
  · rintro rfl
    cases h
  · cases kind <;> first | rfl | cases h

theorem Kind.enclose_of_closesBracket {kind : Kind} (h : kind.closesBracket = true)
    (outer : List Bool) : kind ≠ .endOfLine ∧ kind.enclose outer = outer.tail := by
  constructor
  · rintro rfl
    cases h
  · cases kind <;> first | rfl | cases h

theorem Kind.isPlain_of_joins {level found : Level} {kind : Kind}
    (h : level.joins found kind = true) : kind.isPlain = true := by
  simp only [Level.joins, Bool.and_eq_true, decide_eq_true_eq] at h
  obtain ⟨⟨ho, _⟩, hn⟩ := h
  cases kind <;> first | rfl | exact absurd (Option.some.inj ho).symm hn | cases ho

theorem Kind.isPlain_of_ofSign? {kind : Kind} {found : Level}
    (h : Level.ofSign? kind = some found) : kind.isPlain = true := by
  cases kind <;> first | rfl | cases h

namespace Trace

variable {f : Kind → Bool} (m : Mode) (outer : List Bool) (token : Token)

theorem keeps_plain
    (hf : ∀ kind, f kind = true → kind.isPlain = true := by
      intro kind h; cases kind <;> first | rfl | cases h) :
    (token.taken f m).Keeps (m.skips :: outer) (m.skips :: outer) :=
  keeps_taken token (fun kind h => kind.enclose_of_isPlain (hf kind h) _) (m.skips_or outer)

theorem opens_bracket
    (hf : ∀ kind, f kind = true → kind = .leftParen ∨ kind = .leftSquare := by
      intro kind h; cases kind <;> first | exact .inl rfl | exact .inr rfl | cases h) :
    (token.taken f m).Opens (m.skips :: outer) (m.bracketed.skips :: m.skips :: outer) :=
  opens_taken token fun kind h => by rcases hf kind h with rfl | rfl <;> exact ⟨nofun, rfl⟩

theorem keeps_head (opening : Token) {f' : Kind → Bool}
    (hf : ∀ kind, f kind = true → kind.isPlain = true := by
      intro kind h; cases kind <;> first | rfl | cases h)
    (hf' : ∀ kind, f' kind = true → kind = .leftParen ∨ kind = .leftSquare := by
      intro kind h; cases kind <;> first | exact .inl rfl | exact .inr rfl | cases h) :
    (token.taken f m * opening.taken f' m * lines).Keeps (m.skips :: outer)
      (m.bracketed.skips :: m.skips :: outer) :=
  ((keeps_plain m outer token hf).mul_opens (opens_bracket m outer opening hf')).mul_lines

/-- A bracket is closed, and newlines count as they do outside. -/
theorem keeps_closing {inner : Bool}
    (hf : ∀ kind, f kind = true → kind.closesBracket = true := by
      intro kind h; cases kind <;> first | rfl | cases h) :
    (token.taken f m).Keeps (inner :: m.skips :: outer) (m.skips :: outer) :=
  keeps_taken token (fun kind h => kind.enclose_of_closesBracket (hf kind h) _) (m.skips_or outer)

/-- Two brackets at once, the second of which is closed outside of what the first one encloses. -/
theorem opens_double
    (hf : ∀ kind, f kind = true → kind = .leftDoubleSquare := by
      intro kind h; cases kind <;> first | rfl | cases h) :
    (token.taken f m).Opens (m.skips :: outer)
      (m.bracketed.skips :: m.skips :: m.skips :: outer) :=
  opens_taken token fun kind h => by rw [hf kind h]; exact ⟨nofun, rfl⟩

theorem keeps_block :
    (token.taken (· = .leftCurly) m).Keeps (m.skips :: outer) (false :: m.skips :: outer) :=
  keeps_taken token (fun _ h => of_decide_eq_true h ▸ ⟨nofun, rfl⟩) (.inr rfl)

/-- A name is no bracket, so what comes after it is told from the same place. -/
theorem keeps_atValue : (atValue m).Keeps (m.skips :: outer) (m.skips :: outer) := by
  refine keeps_check fun a a' ha ⟨hellipsis, hnamed⟩ => ⟨ha.headKind ▸ hellipsis, ?_⟩
  rintro ⟨hname, hequal⟩
  cases a with
  | nil =>
    rw [← ha.headKind] at hname
    cases hname
  | cons token rest =>
    have hk : token.kind.isName = true := by rwa [← ha.headKind] at hname
    have hp : token.kind.isPlain = true := by
      generalize token.kind = kind at hk
      cases kind <;> first | rfl | cases hk
    obtain ⟨hl, he⟩ := token.kind.enclose_of_isPlain hp (m.skips :: outer)
    obtain ⟨rest', rfl, hrest⟩ := ha.of_cons hl
    rw [he] at hrest
    have hsame := (hrest.aligned_settle (m.skips_or outer)).headKind
    exact hnamed ⟨hk, hsame.trans hequal⟩

theorem keeps_comma (terminator : Kind) (comma : Option Token) :
    (Trace.comma terminator m comma).Keeps (m.skips :: outer) (m.skips :: outer) := by
  cases comma with
  | none => exact keeps_check fun _ _ ha h => ha.headKind ▸ h
  | some token =>
    rw [Trace.comma]
    exact keeps_plain m outer token

end Trace

open Trace

mutual
/-- With more newlines within round and square brackets the same expression is read. -/
theorem Expr.keeps_grown (level : Level) (m : Mode) (outer : List Bool) :
    (e : Expr) → (e.Grown level m).Keeps (m.skips :: outer) (m.skips :: outer)
  | .assignment left operator right | .binary left operator right => by
    have hleft := left.keeps_grown level m outer
    simp only [Expr.Grown]
    refine keeps_any fun found => ?_
    have hright := right.keeps_grown (found.operandLevel operator.kind) m outer
    refine (((hleft.mul (keeps_plain m outer operator fun kind h => ?_)).mul keeps_lines).mul
      hright).mul (keeps_stop _)
    exact Kind.isPlain_of_joins (Bool.and_eq_true_iff.1 h).1
  | .block opening body (some closing) => by
    have hbody := Expr.keeps_grownAll .block rfl (m.skips :: outer) body
    simp only [Expr.Grown]
    exact ((keeps_block m outer opening).mul hbody).mul (keeps_closing m outer closing)
  | .call callee opening arguments (some closing) => by
    have hcallee := callee.keeps_grown level m outer
    have hitems := Item.keeps_grownAll .arguments .rightParen m.bracketed (m.skips :: outer)
      .opening arguments
    simp only [Expr.Grown]
    exact (((hcallee.mul_opens (opens_bracket m outer opening)).mul_lines).mul hitems).mul
      (keeps_closing m outer closing)
  | .control token => by
    rw [Expr.Grown]
    exact keeps_plain m outer token
  | .forLoop keyword (some opening) (some loopVar) (some inWord) sequence (some closing) body => by
    have hsequence := sequence.keeps_grown .help m.bracketed (m.skips :: outer)
    have hbody := body.keeps_grown .help m outer
    simp only [Expr.Grown]
    exact ((((((keeps_head m outer keyword opening).mul
      (keeps_plain m.bracketed (m.skips :: outer) loopVar)).mul
      (keeps_plain m.bracketed (m.skips :: outer) inWord)).mul hsequence).mul
      (keeps_stop .help)).mul (keeps_closing m outer closing)).mul_body hbody
  | .function keyword (some opening) parameters (some closing) (some body) => by
    have hitems := Item.keeps_grownAll .parameters .rightParen m.bracketed (m.skips :: outer)
      .opening parameters
    have hbody := body.keeps_grown .help m outer
    simp only [Expr.Grown]
    exact ((((keeps_head m outer keyword opening).mul hitems).mul
      (keeps_closing m outer closing)).mul (keeps_check fun _ _ _ => id)).mul_body hbody
  | .group opening inner (some closing) => by
    have hinner := inner.keeps_grown .help m.bracketed (m.skips :: outer)
    simp only [Expr.Grown]
    exact (((opens_bracket m outer opening).mul_lines.mul hinner).mul (keeps_stop .help)).mul
      (keeps_closing m outer closing)
  | .conditional keyword (some opening) condition (some closing) consequent alternative => by
    have hcondition := condition.keeps_grown .help m.bracketed (m.skips :: outer)
    have hconsequent := consequent.keeps_grown .help m outer
    have halternative := Expr.keeps_grownElse m outer alternative
    simp only [Expr.Grown]
    exact (((((keeps_head m outer keyword opening).mul hcondition).mul (keeps_stop .help)).mul
      (keeps_closing m outer closing)).mul_body hconsequent).mul halternative
  | .index target opening arguments [closing] => by
    have htarget := target.keeps_grown level m outer
    have hitems := Item.keeps_grownAll .arguments .rightSquare m.bracketed (m.skips :: outer)
      .opening arguments
    simp only [Expr.Grown]
    exact (((htarget.mul_opens (opens_bracket m outer opening)).mul_lines).mul hitems).mul
      (keeps_closing m outer closing)
  | .index target opening arguments [first, second] => by
    have htarget := target.keeps_grown level m outer
    have hitems := Item.keeps_grownAll .arguments .rightSquare m.bracketed
      (m.skips :: m.skips :: outer) .opening arguments
    simp only [Expr.Grown]
    exact ((((htarget.mul_opens (opens_double m outer opening)).mul_lines).mul hitems).mul
      (keeps_closing m (m.skips :: outer) first)).mul (keeps_closing m outer second)
  | .literal token | .var token => by
    simp only [Expr.Grown]
    exact (keeps_plain m outer token).mul (keeps_check fun _ _ ha h => ha.headKind ▸ h)
  | .member target operator (some name) => by
    have htarget := target.keeps_grown level m outer
    simp only [Expr.Grown]
    exact (htarget.mul (keeps_plain m outer operator)).mul (keeps_plain m outer name)
  | .namespaced package operator (some name) => by
    simp only [Expr.Grown]
    exact ((keeps_plain m outer package).mul (keeps_plain m outer operator)).mul
      (keeps_plain m outer name)
  | .repeatLoop keyword body => by
    have hbody := body.keeps_grown .help m outer
    simp only [Expr.Grown]
    exact (keeps_plain m outer keyword).mul_body hbody
  | .unary operator operand => by
    simp only [Expr.Grown]
    refine keeps_any fun found => ?_
    have hoperand := operand.keeps_grown found m outer
    refine (((keeps_plain m outer operator fun kind h => ?_).mul keeps_lines).mul hoperand).mul
      (keeps_stop found)
    exact Kind.isPlain_of_ofSign? (of_decide_eq_true h)
  | .whileLoop keyword (some opening) condition (some closing) body => by
    have hcondition := condition.keeps_grown .help m.bracketed (m.skips :: outer)
    have hbody := body.keeps_grown .help m outer
    simp only [Expr.Grown]
    exact ((((keeps_head m outer keyword opening).mul hcondition).mul (keeps_stop .help)).mul
      (keeps_closing m outer closing)).mul_body hbody
  | .block _ _ none | .call _ _ _ none | .function _ none _ _ _ | .function _ _ _ none _
  | .function _ _ _ _ none | .group _ _ none | .conditional _ none _ _ _ _
  | .conditional _ _ _ none _ _ | .index _ _ _ [] | .index _ _ _ (_ :: _ :: _ :: _)
  | .member _ _ none | .namespaced _ _ none | .whileLoop _ none _ _ _ | .whileLoop _ _ _ none _
  | .forLoop _ none _ _ _ _ _ | .forLoop _ _ none _ _ _ _ | .forLoop _ _ _ none _ _ _
  | .forLoop _ _ _ _ _ none _ | .invalid _ => by
    simp only [Expr.Grown]
    exact keeps_never
theorem Expr.keeps_grownAll (m : Mode) (hm : m.skips = false) (outer : List Bool) :
    (es : List Expr) → (Expr.GrownAll m es).Keeps (false :: outer) (false :: outer)
  | [] => by
    simp only [Expr.GrownAll]
    exact keeps_separators.mul (keeps_check fun _ _ ha h => ha.headKind ▸ h)
  | e :: rest => by
    have he := e.keeps_grown .help m outer
    have hend : statementEnd.Keeps (false :: outer) (false :: outer) :=
      keeps_check fun _ _ ha h => ha.headKind ▸ h
    rw [hm] at he
    simp only [Expr.GrownAll]
    exact (((keeps_separators.mul he).mul (keeps_stop .help)).mul hend).mul
      (Expr.keeps_grownAll m hm outer rest)
theorem Expr.keeps_grown? (terminator : Kind) (m : Mode) (outer : List Bool) :
    (value : Option Expr) →
      (Expr.Grown? terminator m value).Keeps (m.skips :: outer) (m.skips :: outer)
  | some e => by
    simp only [Expr.Grown?]
    exact (e.keeps_grown .help m outer).mul (keeps_stop .help)
  | none => by
    simp only [Expr.Grown?]
    exact keeps_check fun _ _ ha h => ha.headKind ▸ h
theorem Expr.keeps_grownElse (m : Mode) (outer : List Bool) :
    (alternative : Option (Token × Expr)) →
      (Expr.GrownElse m alternative).Keeps (m.skips :: outer) (m.skips :: outer)
  | some (keyword, e) => by
    have he := e.keeps_grown .help m outer
    simp only [Expr.GrownElse]
    exact (((keeps_toElse.mul (keeps_plain m outer keyword)).mul keeps_lines).mul he).mul
      (keeps_stop .help)
  | none => by
    simp only [Expr.GrownElse]
    exact keeps_check fun _ _ ha h => (ha.beforeElse m).headKind ▸ h
theorem Item.keeps_grown (role : ListRole) (terminator : Kind) (m : Mode) (outer : List Bool) :
    (item : Item) →
      (item.Grown role terminator m).Keeps (m.skips :: outer) (m.skips :: outer)
  | .positional value _ => by
    have hvalue := value.keeps_grown .help m outer
    simp only [Item.Grown]
    exact (((keeps_check fun _ _ _ => id).mul (keeps_atValue m outer)).mul hvalue).mul
      (keeps_stop .help)
  | .named name (some equals) value _ => by
    have hvalue := Expr.keeps_grown? terminator m outer value
    simp only [Item.Grown]
    refine (((keeps_plain m outer name fun kind h => ?_).mul (keeps_plain m outer equals)).mul
      (keeps_check fun _ _ _ => id)).mul hvalue
    cases role <;> cases kind <;> first | rfl | cases h
  | .named name none none _ => by
    simp only [Item.Grown]
    refine (keeps_plain m outer name fun kind h => ?_).mul
      (keeps_check fun _ _ ha h => ha.headKind ▸ h)
    cases role <;> cases kind <;> first | rfl | cases h
  | .ellipsis token _ => by
    rw [Item.Grown]
    exact keeps_plain m outer token
  | .missing _ => by
    rw [Item.Grown]
    exact keeps_check fun _ _ ha h => ha.headKind ▸ h
  | .named _ none (some _) _ | .unreadable _ _ | .stub => by
    simp only [Item.Grown]
    exact keeps_never
theorem Item.keeps_grownAll (role : ListRole) (terminator : Kind) (m : Mode) (outer : List Bool)
    (slot : Reading.Slot) : (items : List Item) →
      (Item.GrownAll role terminator m slot items).Keeps (m.skips :: outer) (m.skips :: outer)
  | [] => by
    rw [Item.GrownAll]
    exact keeps_check fun _ _ ha h => ha.headKind ▸ h
  | item :: rest => by
    rw [Item.GrownAll]
    exact ((item.keeps_grown role terminator m outer).mul
      (keeps_comma m outer terminator item.comma)).mul
      (Item.keeps_grownAll role terminator m outer (.after item) rest)
end

end LenientR
