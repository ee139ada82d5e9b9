import LenientR.Proofs.Grammar.Expressions
import LenientR.Proofs.Grammar.Modes
import Mathlib.Data.List.DropRight

/-!
# Expressions that start with a name

Behind a name or `...` at the start of an expression stands an operator, or the expression ends
there (`Expr.exists_leads_of_name`). Where that operator is an equals sign, what comes after it is an
expression too (`Expr.exists_value`): only `?` binds more loosely, and it can take the value alone.
-/

namespace LenientR

open Trace Reading

section
variable {m : Mode} {level : Level} {left e : Expr} {a b : List Token}

theorem Token.taken_mul_mono {f g : Kind → Bool} {token : Token} {r : Trace}
    (hf : ∀ kind, f kind = true → g kind = true) (h : (token.taken f m * r) a b) :
    (token.taken g m * r) a b := by
  obtain ⟨hk, hh, hr⟩ := Token.taken_mul.1 h
  exact Token.taken_mul.2 ⟨hf _ hk, hh, hr⟩

namespace Expr

-- ---------------------------------------------------------------------------
-- Operators that bind loosely
-- ---------------------------------------------------------------------------

theorem extends_help (h : left.Extends level m e a b) : left.Extends .help m e a b := by
  have hjoins (found : Level) (fits : Kind → Bool) (kind : Kind)
      (hk : (level.joins found kind && fits kind) = true) :
      (Level.help.joins found kind && fits kind) = true := by
    simp only [Level.joins, Bool.and_eq_true, decide_eq_true_eq] at hk ⊢
    exact ⟨⟨⟨hk.1.1.1, found.help_le⟩, hk.1.2⟩, hk.2⟩
  have haccess (fits : Kind → Bool) (kind : Kind) (hk : (fits kind && level ≤ .access) = true) :
      (fits kind && Level.help ≤ .access) = true := by
    simp only [Bool.and_eq_true, decide_eq_true_eq] at hk ⊢
    exact ⟨hk.1, Level.help_le _⟩
  cases e with
  | assignment _ _ _ | binary _ _ _ =>
    simp only [Extends, mul_assoc] at h ⊢
    obtain ⟨hl, found, h⟩ := h
    exact ⟨hl, found, Token.taken_mul_mono (hjoins found _) h⟩
  | call _ _ _ closing =>
    cases closing with
    | none => exact h.elim
    | some closing =>
      simp only [Extends, mul_assoc] at h ⊢
      exact ⟨h.1, Token.taken_mul_mono (haccess (· = .leftParen)) h.2⟩
  | index _ _ _ closing =>
    rcases closing with _ | ⟨_, _ | ⟨_, _ | _⟩⟩
    · exact h.elim
    · simp only [Extends, mul_assoc] at h ⊢
      exact ⟨h.1, Token.taken_mul_mono (haccess (· = .leftSquare)) h.2⟩
    · simp only [Extends, mul_assoc] at h ⊢
      exact ⟨h.1, Token.taken_mul_mono (haccess (· = .leftDoubleSquare)) h.2⟩
    · exact h.elim
  | member _ _ name =>
    cases name with
    | none => exact h.elim
    | some name =>
      simp only [Extends] at h ⊢
      exact ⟨h.1, Token.taken_mul_mono (haccess fun kind => kind = .dollar || kind = .atSign) h.2⟩
  | _ => exact h.elim

theorem grown_help (h : e.Grown level m a b) : e.Grown .help m a b := by
  obtain ⟨first, c, hbase, hfirst, hleads⟩ := leads_of_grown e h
  obtain ⟨token, hstart⟩ := startRule_of_grown hbase hfirst
  have hhelp : first.leads .help m e c b :=
    Relation.ReflTransGen.mono (fun _ _ => extends_help) _ _ hleads
  exact grown_of_leads (grown_of_startRule .help hstart).2 hhelp

theorem exists_extends (other : Expr) (h : left.Extends level m e a b) :
    ∃ e', other.Extends level m e' a b := by
  cases e with
  | assignment _ operator right => exact ⟨.assignment other operator right, rfl, h.2⟩
  | binary _ operator right => exact ⟨.binary other operator right, rfl, h.2⟩
  | call _ opening arguments closing =>
    cases closing with
    | none => exact h.elim
    | some closing => exact ⟨.call other opening arguments (some closing), rfl, h.2⟩
  | index _ opening arguments closing =>
    rcases closing with _ | ⟨first, _ | ⟨second, _ | _⟩⟩
    · exact h.elim
    · exact ⟨.index other opening arguments [first], rfl, h.2⟩
    · exact ⟨.index other opening arguments [first, second], rfl, h.2⟩
    · exact h.elim
  | member _ operator name =>
    cases name with
    | none => exact h.elim
    | some name => exact ⟨.member other operator (some name), rfl, h.2⟩
  | _ => exact h.elim

theorem exists_leads (other : Expr) (h : left.leads level m e a b) :
    ∃ e', other.leads level m e' a b := by
  suffices ∀ q : Expr × List Token, Relation.ReflTransGen
      (fun p q : Expr × List Token => p.1.Extends level m q.1 p.2 q.2) (left, a) q →
        ∃ e', other.leads level m e' a q.2 from this (e, b) h
  intro q hl
  induction hl with
  | refl => exact ⟨other, leads_refl⟩
  | tail _ hx ih =>
    obtain ⟨between, hbetween⟩ := ih
    obtain ⟨e', he⟩ := exists_extends between hx
    exact ⟨e', .tail hbetween he⟩

-- ---------------------------------------------------------------------------
-- Behind a name
-- ---------------------------------------------------------------------------

/-- Behind a name or `...` an expression goes on with operators, unless the name is a package. -/
theorem exists_leads_of_name {first : Token} {tail : List Token}
    (h : e.Grown level m (first :: tail) b)
    (hk : first.kind.isName = true ∨ first.kind = .ellipsis) :
    (headKind (m.settle tail)).isPackageOperator = true ∨
      ∃ base : Expr, base.leads level m e (m.settle tail) b := by
  obtain ⟨base, c, hbase, hfirst, hleads⟩ := leads_of_grown e h
  obtain ⟨token, hstart⟩ := startRule_of_grown hbase hfirst
  obtain ⟨_, hhead, hrule⟩ := Token.taken_mul.1 hstart
  obtain rfl : first = token := Option.some.inj hhead
  have hname (other : Token → Expr) (hrule : nameRule m other first base (m.settle tail) c) :
      (headKind (m.settle tail)).isPackageOperator = true ∨
        ∃ base : Expr, base.leads level m e (m.settle tail) b := by
    rcases hrule with ⟨_, _, rfl⟩ | ⟨operator, name, _, htaken⟩
    · exact .inr ⟨base, hleads⟩
    · exact .inl (Token.taken_mul.1 htaken).1
  have hkind : first.kind = .identifier ∨ first.kind = .string ∨ first.kind = .ellipsis := by
    simpa [Kind.isName, or_assoc] using hk
  rcases hkind with hk | hk | hk <;> simp only [startRule, hk] at hrule
  · exact hname _ hrule
  · exact hname _ hrule
  · obtain ⟨_, rfl⟩ := hrule
    exact .inr ⟨base, hleads⟩

/-- Behind a name or `...` with which a longer expression starts there is an operator. -/
theorem admits_of_name {first : Token} {tail : List Token} (h : e.Grown level m (first :: tail) b)
    (hk : first.kind.isName = true ∨ first.kind = .ellipsis) (hb : m.settle tail ≠ b) :
    (headKind (m.settle tail)).isPackageOperator = true ∨
      level.admits (headKind (m.settle tail)) = true := by
  refine (exists_leads_of_name h hk).imp_right fun hfound => ?_
  obtain ⟨base, hleads⟩ := hfound
  rcases leads_iff.1 hleads with ⟨_, rfl⟩ | ⟨grown, c, hx, _⟩
  · exact absurd rfl hb
  · exact admits_of_extends hx

def growsBy (kind : Kind) : Expr → Bool
  | .assignment _ _ _ => kind.isAssignment
  | .binary _ _ _ => !kind.isAssignment && Level.ofOperator? kind ≠ some .access
  | .call _ _ _ _ => kind = .leftParen
  | .index _ _ _ _ => kind = .leftSquare || kind = .leftDoubleSquare
  | .member _ _ _ => kind = .dollar || kind = .atSign
  | _ => false

theorem growsBy_of_extends (h : left.Extends level m e a b) : e.growsBy (headKind a) = true := by
  cases e with
  | assignment _ _ _ =>
    simp only [Extends, mul_assoc] at h
    obtain ⟨_, found, htaken⟩ := h
    exact (Bool.and_eq_true_iff.1 (Token.taken_mul.1 htaken).1).2
  | binary _ _ _ =>
    simp only [Extends, mul_assoc] at h
    obtain ⟨_, found, htaken⟩ := h
    have hkind := (Token.taken_mul.1 htaken).1
    simp only [Level.joins, Bool.and_eq_true, decide_eq_true_eq] at hkind
    simp [growsBy, hkind.1.1.1, hkind.1.2, hkind.2]
  | call _ _ _ closing =>
    cases closing with
    | none => exact h.elim
    | some closing =>
      exact decide_eq_true (access_of_taken (by simpa only [mul_assoc] using h.2)).1
  | index _ _ _ closing =>
    rcases closing with _ | ⟨_, _ | ⟨_, _ | _⟩⟩
    · exact h.elim
    · simp [growsBy, (access_of_taken (by simpa only [mul_assoc] using h.2)).1]
    · simp [growsBy, (access_of_taken (by simpa only [mul_assoc] using h.2)).1]
    · exact h.elim
  | member _ _ name =>
    cases name with
    | none => exact h.elim
    | some name => exact (Bool.and_eq_true_iff.1 (Token.taken_mul.1 h.2).1).1
  | _ => exact h.elim

theorem exists_grown_of_equal {c : List Token} {grown : Expr}
    (h : left.Extends .help m grown a c) (hk : headKind a = .equal) :
    ∃ value : Expr, value.Grown .help m (skipLines (m.settle a.tail)) c := by
  cases grown with
  | assignment _ operator right =>
    simp only [Extends, mul_assoc, Expr.Reads] at h
    obtain ⟨_, found, htaken⟩ := h
    obtain ⟨_, _, hread⟩ := Token.taken_mul.1 htaken
    obtain ⟨c', hright, _, rfl⟩ := (lines_mul _ _ _).1 hread
    exact ⟨right, grown_help hright⟩
  | _ =>
    have hgrows := growsBy_of_extends h
    rw [hk] at hgrows
    cases hgrows

theorem exists_grownAll_of_leftParen (h : left.Extends level m e a b)
    (hk : headKind a = .leftParen) : ∃ items c,
      Item.GrownAll .arguments .rightParen m.bracketed .opening items
        (skipLines (m.settle a.tail)) c := by
  cases e with
  | call callee opening arguments closing =>
    cases closing with
    | none => exact h.elim
    | some closing =>
      simp only [Extends, mul_assoc] at h
      obtain ⟨_, _, hread⟩ := Token.taken_mul.1 h.2
      obtain ⟨c, hitems, _⟩ := (lines_mul _ _ _).1 hread
      exact ⟨arguments, c, hitems⟩
  | _ =>
    have hgrows := growsBy_of_extends h
    rw [hk] at hgrows
    cases hgrows

theorem exists_value {first : Token} {tail : List Token}
    (h : e.Grown .help m (first :: tail) b) (hk : first.kind.isName = true)
    (heq : headKind (m.settle tail) = .equal) (hb : headKind b ≠ .equal) :
    ∃ value : Expr, value.Grown .help m (skipLines (m.settle (m.settle tail).tail)) b := by
  rcases exists_leads_of_name h (.inl hk) with hpackage | ⟨base, hleads⟩
  · rw [heq] at hpackage
    cases hpackage
  rcases leads_iff.1 hleads with ⟨_, rfl⟩ | ⟨grown, c, hx, hmore⟩
  · exact absurd heq hb
  obtain ⟨right, hright⟩ := exists_grown_of_equal hx heq
  obtain ⟨value, hvalue⟩ := exists_leads right hmore
  exact ⟨value, grown_of_leads hright hvalue⟩

end Expr

/-- An expression that starts with a name and an equals sign is an argument with a name. -/
theorem Item.exists_grown_named {terminator : Kind} {name equals : Token} {tail : List Token}
    (hs : m.skips = true) (h : e.Grown .help m (name :: equals :: tail) b)
    (hn : name.kind.isName = true) (he : equals.kind = .equal)
    (hb : Level.help.admits (headKind b) = false) :
    ∃ value, (Item.named name (some equals) (some value) none).Grown .arguments terminator m
      (name :: equals :: tail) b := by
  have hnext : m.settle (equals :: tail) = equals :: tail := m.settle_of_ne (by simp [he])
  have hlines : skipLines (m.settle tail) = m.settle tail := by
    rw [Mode.settle, if_pos hs]
    exact List.dropWhile_idempotent ..
  have hend : headKind b ≠ .equal := fun hk => by
    rw [hk] at hb
    cases hb
  obtain ⟨value, hvalue⟩ := Expr.exists_value h hn (by rw [hnext]; exact he) hend
  rw [hnext, List.tail_cons, hlines] at hvalue
  refine ⟨value, Item.grown_named.2 ⟨hn, rfl, ?_, ?_, by simp, ?_⟩⟩
  · rw [List.tail_cons, hnext]
    exact he
  · rw [List.tail_cons, hnext]
    rfl
  · rw [List.tail_cons, hnext, List.tail_cons, Expr.grown?_some]
    exact (mul_check _ _ _ _).2 ⟨hvalue, hb⟩

theorem Item.eq_settle_of_grown {item : Item} {terminator : Kind} {m : Mode} {token : Token}
    {tail b : List Token} (h : item.Grown .arguments terminator m (token :: tail) b)
    (hk : token.kind = .ellipsis) : m.settle tail = b := by
  cases item with
  | positional value comma => exact absurd hk (grown_positional.1 h).2.1.1
  | named name equals value comma =>
    cases equals with
    | some equals =>
      have hname : token.kind.isName = true := (grown_named.1 h).1
      rw [hk] at hname
      cases hname
    | none =>
      cases value with
      | none => exact absurd (grown_named_none.1 h).1 (by simp)
      | some value => exact absurd h not_grown_named_none
  | ellipsis found comma => exact (grown_ellipsis.1 h).2.2
  | missing comma => exact absurd (hk.symm.trans (grown_missing.1 h).1.2) (by simp)
  | unreadable tokens comma => exact absurd h not_grown_unreadable
  | stub => exact absurd h not_grown_stub

theorem Item.endsItem_of_grownAll {items : List Item} {m : Mode} {token : Token}
    {tail b : List Token}
    (h : Item.GrownAll .arguments .rightParen m .opening items (token :: tail) b)
    (hk : token.kind = .ellipsis) :
    Reading.endsItem .rightParen (headKind (m.settle tail)) = true := by
  cases items with
  | nil =>
    simp only [Item.GrownAll] at h
    exact absurd (hk.symm.trans h.1.1) (by simp)
  | cons item items =>
    simp only [Item.GrownAll] at h
    obtain ⟨c, ⟨d, hitem, hcomma⟩, _⟩ := h
    obtain rfl := eq_settle_of_grown hitem hk
    cases hfound : item.comma with
    | none =>
      rw [hfound] at hcomma
      exact hcomma.1.2
    | some comma =>
      rw [hfound] at hcomma
      obtain ⟨hfits, rest, hrest, _⟩ := hcomma
      rw [hrest, headKind_cons, of_decide_eq_true hfits]
      rfl

/-- Statements that start with a name and a round bracket have a list of arguments behind them. -/
theorem Expr.exists_grownAll_arguments {es : List Expr} {callee opening : Token}
    {inner : List Token} (h : Expr.GrownAll .top es (callee :: opening :: inner) b)
    (hf : callee.kind = .identifier) (ho : opening.kind = .leftParen) :
    ∃ items c, Item.GrownAll .arguments .rightParen Mode.top.bracketed .opening items
      (skipLines inner) c := by
  have hfirst : callee.kind.separates = false := by
    rw [hf]
    rfl
  have hopening : headKind (Mode.top.settle (opening :: inner)) = .leftParen := ho
  cases es with
  | nil =>
    rw [Expr.GrownAll, separators_mul, List.dropWhile_cons_of_neg (by simp [hfirst])] at h
    rcases h.1 with hk | ⟨hk, _⟩ <;> exact absurd (hf.symm.trans hk) (by simp)
  | cons e rest =>
    obtain ⟨gone, own, c, hown, hgone, he, _, hend, _⟩ := Expr.grownAll_cons.1 h
    -- nothing separates the first statement from the start
    cases gone with
    | cons token gone =>
      obtain ⟨rfl, _⟩ := List.cons.inj hown
      exact absurd (hgone _ List.mem_cons_self) (by simp [hfirst])
    | nil =>
      obtain rfl := hown
      rcases exists_leads_of_name he (.inl (by simp [hf, Kind.isName])) with hk | ⟨base, hleads⟩
      · rw [hopening] at hk
        cases hk
      rcases leads_iff.1 hleads with ⟨_, rfl⟩ | ⟨grown, d, hx, _⟩
      · rw [hopening] at hend
        cases hend
      · exact exists_grownAll_of_leftParen hx ho

end

end LenientR
