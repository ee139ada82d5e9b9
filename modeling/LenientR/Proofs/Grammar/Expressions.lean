import LenientR.Proofs.Grammar.Operators
import LenientR.Proofs.Grammar.Statements
import LenientR.Proofs.Reading.Ending
import Mathlib.Logic.Relation

/-!
# Reading follows the grammar

An expression is what its first token starts (`startRule`), extended by one operator after another
(`Expr.leads`). With both, the reader of expressions gives exactly the answers of the grammar, and so
does the reading of a whole file (`readAll_iff`).
-/

namespace LenientR

open Trace

-- ---------------------------------------------------------------------------
-- One operator after another
-- ---------------------------------------------------------------------------

def Expr.leads (level : Level) (m : Mode) (left e : Expr) : Trace where
  Holds a b := Relation.ReflTransGen
    (fun p q : Expr × List Token => p.1.Extends level m q.1 p.2 q.2) (left, a) (e, b)

namespace Expr

variable {level : Level} {m : Mode} {left e : Expr} {a b : List Token}

/-- The part before the operator, if that is what the expression ends in. -/
def base? : Expr → Option Expr
  | .assignment left _ _ | .binary left _ _ | .call left _ _ _ | .index left _ _ _
  | .member left _ _ => some left
  | _ => none

theorem base?_of_extends (h : left.Extends level m e a b) : e.base? = some left := by
  cases e with
  | assignment left' _ _ | binary left' _ _ => exact congrArg some h.1
  | call _ _ _ closing => cases closing <;> first | exact congrArg some h.1 | exact h.elim
  | member _ _ name => cases name <;> first | exact congrArg some h.1 | exact h.elim
  | index _ _ _ closing =>
    rcases closing with _ | ⟨_, _ | ⟨_, _ | _⟩⟩ <;>
      first | exact congrArg some h.1 | exact h.elim
  | _ => exact h.elim

/-- An expression with an operator is grown from the part before it. -/
theorem grown_iff_extends (h : e.base? = some left) :
    e.Grown level m = left.Grown level m * left.Extends level m e := by
  cases e with
  | assignment _ _ _ | binary _ _ _ =>
    cases h
    simp only [Expr.Grown, Extends, given_true, mul_any, Reads, mul_assoc]
  | call _ _ _ closing | member _ _ closing =>
    cases h
    cases closing <;> simp only [Expr.Grown, Extends, given_true, mul_never, mul_assoc]
  | index _ _ _ closing =>
    cases h
    rcases closing with _ | ⟨_, _ | ⟨_, _ | _⟩⟩ <;>
      simp only [Expr.Grown, Extends, given_true, mul_never, mul_assoc]
  | _ => cases h

theorem leads_refl : left.leads level m left a a := .refl

theorem leads_head {grown : Expr} {c : List Token} (h : left.Extends level m grown a c)
    (hl : grown.leads level m e c b) : left.leads level m e a b :=
  .head (b := (grown, c)) h hl

theorem leads_iff : left.leads level m e a b ↔
    e = left ∧ a = b ∨
      (any fun grown : Expr => left.Extends level m grown * grown.leads level m e) a b := by
  constructor
  · intro h
    rcases Relation.ReflTransGen.cases_head h with h | ⟨⟨grown, c⟩, hx, hl⟩
    · cases h
      exact .inl ⟨rfl, rfl⟩
    · exact .inr ⟨grown, c, hx, hl⟩
  · rintro (⟨rfl, rfl⟩ | ⟨grown, c, hx, hl⟩)
    · exact leads_refl
    · exact leads_head hx hl

theorem leads_of_grown : (e : Expr) → {a b : List Token} → e.Grown level m a b →
    ∃ (first : Expr) (c : List Token), first.base? = none ∧ first.Grown level m a c ∧
      first.leads level m e c b
  | .assignment left _ _, _, _, h | .binary left _ _, _, _, h | .call left _ _ _, _, _, h
  | .index left _ _ _, _, _, h | .member left _ _, _, _, h => by
    rw [grown_iff_extends rfl] at h
    obtain ⟨c, hl, hx⟩ := h
    obtain ⟨first, d, hb, hg, hlead⟩ := leads_of_grown left hl
    exact ⟨first, d, hb, hg, .tail hlead hx⟩
  | .block _ _ _, _, b, h | .control _, _, b, h | .forLoop _ _ _ _ _ _ _, _, b, h
  | .function _ _ _ _ _, _, b, h | .group _ _ _, _, b, h | .conditional _ _ _ _ _ _, _, b, h
  | .literal _, _, b, h | .namespaced _ _ _, _, b, h | .repeatLoop _ _, _, b, h
  | .unary _ _, _, b, h | .var _, _, b, h | .whileLoop _ _ _ _ _, _, b, h
  | .invalid _, _, b, h => ⟨_, b, rfl, h, leads_refl⟩

theorem grown_of_leads {c : List Token} (hg : left.Grown level m a c)
    (hl : left.leads level m e c b) : e.Grown level m a b := by
  suffices ∀ q : Expr × List Token, Relation.ReflTransGen
      (fun p q : Expr × List Token => p.1.Extends level m q.1 p.2 q.2) (left, c) q →
        q.1.Grown level m a q.2 from this (e, b) hl
  intro q hl
  induction hl with
  | refl => exact hg
  | tail _ hx ih =>
    rw [grown_iff_extends (base?_of_extends hx)]
    exact ⟨_, ih, hx⟩

end Expr

namespace Reading

variable {n : Nat} {m : Mode} {readExpr : ExprReader}

/-- The loop goes on exactly as long as operators follow that bind tightly enough. -/
theorem obeysAt_readOperators (hr : ReaderObeys n readExpr) (he : Engages readExpr) {lists : Nat}
    (hl : n ≤ lists) (level : Level) (left : Expr) {bound : Nat} {s : State} (hs : s.Ready n m)
    (hb : s.rest.length ≤ bound) :
    ObeysAt s (readOperators readExpr lists level bound left) fun e =>
      left.leads level m e * stop level := by
  induction bound generalizing left s with
  | zero => exact absurd hs.ended.length_pos (by omega)
  | succ bound ih =>
    have hstop (h : level.admits s.kind = false) (e : Expr) (b : List Token) :
        given (e = left) 1 s.rest b ↔ (left.leads level m e * stop level) s.rest b := by
      rw [stop, mul_check, Expr.leads_iff]
      constructor
      · rintro ⟨rfl, rfl⟩
        exact ⟨.inl ⟨rfl, rfl⟩, h⟩
      · rintro ⟨⟨rfl, rfl⟩ | ⟨grown, c, hx, _⟩, _⟩
        · exact ⟨rfl, rfl⟩
        · exact absurd (admits_of_extends hx) (by simp [s.headKind_rest, h])
    cases hf : Level.ofOperator? s.kind with
    | none =>
      have hrun : (readOperators readExpr lists level (bound + 1) left).run s =
          (pure left : Action Expr).run s := by
        simp only [readOperators, run_look_bind, hf]
      exact ((obeysAt_pure hs.toClean left).of_run hrun).congr
        (hstop (by simp [Level.admits, hf]))
    | some found =>
      by_cases hle : level ≤ found
      · have hrun : (readOperators readExpr lists level (bound + 1) left).run s =
            (readExtension readExpr lists found left >>=
              readOperators readExpr lists level bound).run s := by
          simp only [readOperators, run_look_bind, hf, if_pos hle, bind_assoc]
        have hadmits : level.admits s.kind = true := by simp [Level.admits, hf, hle]
        have hlt : ((readExtension readExpr lists found left).run s).2.rest.length < s.rest.length :=
          length_readOperator_lt hf (readOperator readExpr lists found left)
        have hextension : ObeysAt s (readExtension readExpr lists found left)
            fun grown => left.Extends level m grown := obeysAt_extension hr he hl hs hf hle
        have hgrown := hextension.bind
          (q := fun grown e => grown.leads level m e * stop level) hs.toClean fun hc =>
            ih _ (hs.run hc) (by omega)
        refine (hgrown.of_run hrun).congr fun e b => ?_
        simp only [← mul_assoc, stop, any_apply, mul_check]
        rw [Expr.leads_iff]
        constructor
        · rintro ⟨grown, hx, hk⟩
          exact ⟨.inr ⟨grown, hx⟩, hk⟩
        · rintro ⟨⟨rfl, rfl⟩ | ⟨grown, hx⟩, hk⟩
          · exact absurd hk (by simp [s.headKind_rest, hadmits])
          · exact ⟨grown, hx, hk⟩
      · have hrun : (readOperators readExpr lists level (bound + 1) left).run s =
            (pure left : Action Expr).run s := by
          simp only [readOperators, run_look_bind, hf, if_neg hle]
        exact ((obeysAt_pure hs.toClean left).of_run hrun).congr
          (hstop (by simp [Level.admits, hf, hle]))

-- ---------------------------------------------------------------------------
-- What a first token starts
-- ---------------------------------------------------------------------------

def nameRule (m : Mode) (other : Token → Expr) (token : Token) : Rule Expr := fun e =>
  ⟨fun a b => e = other token ∧ (headKind a).isPackageOperator = false ∧ a = b ∨
    (any fun operator => any fun name => given (e = .namespaced token operator (some name))
      (operator.taken Kind.isPackageOperator m * name.taken Kind.isName m)) a b⟩

def startRule (m : Mode) (token : Token) : Rule Expr :=
  let unaryRule (level : Level) : Rule Expr := fun e => any fun operand =>
    given (e = .unary token operand) (lines * operand.Reads level m)
  match token.kind with
  | .identifier => nameRule m .var token
  | .string => nameRule m .literal token
  | .ellipsis => fun e => given (e = .var token) 1
  | .leftCurly => fun e => any fun body => any fun closing =>
    given (e = .block token body (some closing))
      (Expr.GrownAll .block body * closing.taken (· = .rightCurly) m)
  | .leftParen => fun e => any fun inner => any fun closing =>
    given (e = .group token inner (some closing))
      (lines * inner.Reads .help m.bracketed * closing.taken (· = .rightParen) m)
  | .functionWord | .backslash => fun e => any fun opening => any fun parameters =>
    any fun closing => any fun body =>
      given (e = .function token (some opening) parameters (some closing) (some body))
        (opening.taken (· = .leftParen) m * lines *
          Item.GrownAll .parameters .rightParen m.bracketed .opening parameters *
          closing.taken (· = .rightParen) m *
          check (fun _ => repeatedNames parameters [] = []) * lines * body.Reads .help m)
  | .minus | .plus => unaryRule .sign
  | .bang => unaryRule .not
  | .tilde => unaryRule .tilde
  | .question => unaryRule .help
  | .ifWord => fun e => any fun opening => any fun condition => any fun closing =>
    any fun consequent => any fun alternative =>
      given (e = .conditional token (some opening) condition (some closing) consequent alternative)
        (opening.taken (· = .leftParen) m * lines * condition.Reads .help m.bracketed *
          closing.taken (· = .rightParen) m * lines * consequent.Reads .help m *
          Expr.GrownElse m alternative)
  | .forWord => fun e => any fun opening => any fun loopVar => any fun inWord =>
    any fun sequence => any fun closing => any fun body =>
      given (e = .forLoop token (some opening) (some loopVar) (some inWord) sequence
          (some closing) body)
        (opening.taken (· = .leftParen) m * lines * loopVar.taken (· = .identifier) m.bracketed *
          inWord.taken (· = .inWord) m.bracketed * sequence.Reads .help m.bracketed *
          closing.taken (· = .rightParen) m * lines * body.Reads .help m)
  | .whileWord => fun e => any fun opening => any fun condition => any fun closing =>
    any fun body => given (e = .whileLoop token (some opening) condition (some closing) body)
      (opening.taken (· = .leftParen) m * lines * condition.Reads .help m.bracketed *
        closing.taken (· = .rightParen) m * lines * body.Reads .help m)
  | .repeatWord => fun e => any fun body =>
    given (e = .repeatLoop token body) (lines * body.Reads .help m)
  | .breakWord | .nextWord => fun e => given (e = .control token) 1
  | _ => fun e => given (e = .literal token) 1

theorem startRule_of_sign {token : Token} {found : Level}
    (h : Level.ofSign? token.kind = some found) :
    startRule m token = fun e => any fun operand =>
      given (e = .unary token operand) (lines * operand.Reads found m) := by
  unfold startRule
  cases hk : token.kind <;> rw [hk] at h <;> cases h <;> rfl

theorem startRule_of_constant {token : Token} (h : token.kind.isConstant = true) :
    startRule m token = fun e => given (e = .literal token) 1 := by
  unfold startRule
  cases hk : token.kind <;> rw [hk] at h <;> first | rfl | cases h

theorem obeys_readNameOr (other : Token → Expr) (token : Token) :
    Obeys n m (readNameOr other token) (nameRule m other token) := by
  intro s hs
  by_cases h : s.kind.isPackageOperator = true
  · have hc : s.kind = .colonColon ∨ s.kind = .colonColonColon := by
      simpa [Kind.isPackageOperator] using h
    refine ((obeysAt_readNamespaced token hs h).of_run
      (by simp only [readNameOr, run_look_bind, if_pos hc])).congr fun e b => ?_
    exact ⟨.inr, fun hr => hr.resolve_left fun hn => by simp [s.headKind_rest, h] at hn⟩
  · have hc : ¬(s.kind = .colonColon ∨ s.kind = .colonColonColon) := by
      simpa [Kind.isPackageOperator] using h
    refine ((obeys_complete (other token) s hs).of_run
      (by simp only [readNameOr, run_look_bind, if_neg hc])).congr fun e b => ?_
    constructor
    · rintro ⟨he, hb⟩
      exact .inl ⟨he, by simpa [s.headKind_rest] using h, hb⟩
    · rintro (⟨he, _, hb⟩ | ⟨_, _, _, ht⟩)
      · exact ⟨he, hb⟩
      · exact absurd (Token.taken_mul.1 ht).1 (by simpa [s.headKind_rest] using h)

theorem obeys_readStart (hr : ReaderObeys n readExpr) (he : Engages readExpr) {bound : Nat}
    (hb : n ≤ bound) {token : Token} (hk : token.kind.startsExpression = true) :
    Obeys n m (readStart readExpr (readStatements readExpr bound) bound token)
      (startRule m token) := by
  unfold readStart startRule
  cases h : token.kind with
  | identifier => exact obeys_readNameOr .var token
  | string => exact obeys_readNameOr .literal token
  | leftCurly => exact obeys_readBlock (obeys_readStatements hr he hb) token
  | leftParen => exact obeys_readGroup hr token
  | functionWord | backslash => exact obeys_readFunction hr he hb token
  | minus | plus => exact obeys_readUnary hr token .sign
  | bang => exact obeys_readUnary hr token .not
  | tilde => exact obeys_readUnary hr token .tilde
  | question => exact obeys_readUnary hr token .help
  | ifWord => exact obeys_readIf hr token
  | forWord => exact obeys_readFor hr token
  | whileWord => exact obeys_readWhile hr token
  | repeatWord => exact obeys_readRepeat hr token
  | ellipsis | breakWord | nextWord | number | trueWord | falseWord | nullWord | naWord | infWord
  | nanWord => exact obeys_complete _
  | _ =>
    rw [h] at hk
    cases hk

theorem grown_of_startRule (level : Level) {token : Token} {e : Expr} {a b : List Token}
    (h : (token.taken Kind.startsExpression m * startRule m token e) a b) :
    e.base? = none ∧ e.Grown level m a b := by
  obtain ⟨hs, hh, hr⟩ := Token.taken_mul.1 h
  rw [headKind_of_head? hh] at hs
  have htaken {f : Kind → Bool} {r : Trace} (hf : f token.kind = true)
      (hr : r (m.settle a.tail) b) : (token.taken f m * r) a b :=
    Token.taken_mul.2 ⟨(headKind_of_head? hh).symm ▸ hf, hh, hr⟩
  unfold startRule at hr
  cases hk : token.kind with
  | identifier | string =>
    rw [hk] at hr
    rcases hr with ⟨rfl, hp, rfl⟩ | ⟨operator, name, rfl, ht⟩
    · simp only [Expr.Grown]
      exact ⟨rfl, htaken (by simp [hk]) ⟨fun _ => hp, rfl⟩⟩
    · simp only [Expr.Grown, mul_assoc]
      exact ⟨rfl, htaken (by simp [hk, Kind.isName]) ht⟩
  | ellipsis =>
    rw [hk] at hr
    obtain ⟨rfl, rfl⟩ := hr
    simp only [Expr.Grown]
    exact ⟨rfl, htaken (by simp [hk]) ⟨by simp [hk, Kind.isName], rfl⟩⟩
  | leftCurly =>
    rw [hk] at hr
    obtain ⟨body, closing, rfl, ht⟩ := hr
    simp only [Expr.Grown, mul_assoc]
    exact ⟨rfl, htaken (by simp [hk]) ht⟩
  | leftParen =>
    rw [hk] at hr
    obtain ⟨inner, closing, rfl, ht⟩ := hr
    simp only [Expr.Grown, Expr.Reads, mul_assoc] at ht ⊢
    exact ⟨rfl, htaken (by simp [hk]) ht⟩
  | functionWord | backslash =>
    rw [hk] at hr
    obtain ⟨opening, parameters, closing, body, rfl, ht⟩ := hr
    simp only [Expr.Grown, Expr.Reads, mul_assoc] at ht ⊢
    exact ⟨rfl, htaken (by simp [hk]) ht⟩
  | minus | plus | bang | tilde | question =>
    rw [hk] at hr
    obtain ⟨operand, rfl, ht⟩ := hr
    simp only [Expr.Grown, Expr.Reads, mul_assoc] at ht ⊢
    exact ⟨rfl, _, htaken (decide_eq_true (by rw [hk]; rfl)) ht⟩
  | ifWord =>
    rw [hk] at hr
    obtain ⟨opening, condition, closing, consequent, alternative, rfl, ht⟩ := hr
    simp only [Expr.Grown, Expr.Reads, mul_assoc] at ht ⊢
    exact ⟨rfl, htaken (by simp [hk]) ht⟩
  | forWord =>
    rw [hk] at hr
    obtain ⟨opening, loopVar, inWord, sequence, closing, body, rfl, ht⟩ := hr
    simp only [Expr.Grown, Expr.Reads, mul_assoc] at ht ⊢
    exact ⟨rfl, htaken (by simp [hk]) ht⟩
  | whileWord =>
    rw [hk] at hr
    obtain ⟨opening, condition, closing, body, rfl, ht⟩ := hr
    simp only [Expr.Grown, Expr.Reads, mul_assoc] at ht ⊢
    exact ⟨rfl, htaken (by simp [hk]) ht⟩
  | repeatWord =>
    rw [hk] at hr
    obtain ⟨body, rfl, ht⟩ := hr
    simp only [Expr.Grown, Expr.Reads, mul_assoc] at ht ⊢
    exact ⟨rfl, htaken (by simp [hk]) ht⟩
  | breakWord | nextWord =>
    rw [hk] at hr
    obtain ⟨rfl, rfl⟩ := hr
    simp only [Expr.Grown]
    exact ⟨rfl, Token.taken_apply.2 ⟨by simp [headKind_of_head? hh, hk], hh, rfl⟩⟩
  | number | trueWord | falseWord | nullWord | naWord | infWord | nanWord =>
    rw [hk] at hr
    obtain ⟨rfl, rfl⟩ := hr
    simp only [Expr.Grown]
    exact ⟨rfl, htaken (by simp [hk, Kind.isConstant]) ⟨by simp [hk, Kind.isName], rfl⟩⟩
  | _ =>
    rw [hk] at hs
    cases hs

theorem startRule_of_grown {level : Level} {e : Expr} {a b : List Token} (h : e.base? = none)
    (hg : e.Grown level m a b) :
    (any fun token => token.taken Kind.startsExpression m * startRule m token e) a b := by
  have hstart {f : Kind → Bool} {r : Trace} {token : Token} (ht : (token.taken f m * r) a b)
      (hr : f token.kind = true → r (m.settle a.tail) b → startRule m token e (m.settle a.tail) b) :
      (any fun token => token.taken Kind.startsExpression m * startRule m token e) a b := by
    obtain ⟨hf, hh, ht⟩ := Token.taken_mul.1 ht
    refine ⟨token, Token.taken_mul.2 ⟨e.startsWith_grown level m a b hg, hh, hr ?_ ht⟩⟩
    rwa [headKind_of_head? hh] at hf
  cases e with
  | assignment | binary | call | index | member => cases h
  | block _ _ closing =>
    cases closing with
    | none => exact hg.elim
    | some closing =>
      simp only [Expr.Grown, mul_assoc] at hg
      refine hstart hg fun hk ht => ?_
      simp only [startRule, of_decide_eq_true hk]
      exact ⟨_, closing, rfl, ht⟩
  | group _ _ closing =>
    cases closing with
    | none => exact hg.elim
    | some closing =>
      simp only [Expr.Grown, mul_assoc] at hg
      refine hstart hg fun hk ht => ?_
      simp only [startRule, of_decide_eq_true hk, Expr.Reads, mul_assoc]
      exact ⟨_, closing, rfl, ht⟩
  | forLoop _ opening loopVar inWord _ closing _ =>
    cases opening with
    | none => exact hg.elim
    | some opening =>
    cases loopVar with
    | none => exact hg.elim
    | some loopVar =>
    cases inWord with
    | none => exact hg.elim
    | some inWord =>
    cases closing with
    | none => exact hg.elim
    | some closing =>
      simp only [Expr.Grown, mul_assoc] at hg
      refine hstart hg fun hk ht => ?_
      simp only [startRule, of_decide_eq_true hk, Expr.Reads, mul_assoc]
      exact ⟨opening, loopVar, inWord, _, closing, _, rfl, ht⟩
  | function _ opening _ closing body =>
    cases opening with
    | none => exact hg.elim
    | some opening =>
    cases closing with
    | none => exact hg.elim
    | some closing =>
    cases body with
    | none => exact hg.elim
    | some body =>
      simp only [Expr.Grown, mul_assoc] at hg
      refine hstart hg fun hk ht => ?_
      rcases Bool.or_eq_true .. ▸ hk with hk | hk <;>
        simp only [startRule, of_decide_eq_true hk, Expr.Reads, mul_assoc] <;>
        exact ⟨opening, _, closing, body, rfl, ht⟩
  | conditional _ opening _ closing _ _ =>
    cases opening with
    | none => exact hg.elim
    | some opening =>
    cases closing with
    | none => exact hg.elim
    | some closing =>
      simp only [Expr.Grown, mul_assoc] at hg
      refine hstart hg fun hk ht => ?_
      simp only [startRule, of_decide_eq_true hk, Expr.Reads, mul_assoc]
      exact ⟨opening, _, closing, _, _, rfl, ht⟩
  | whileLoop _ opening _ closing _ =>
    cases opening with
    | none => exact hg.elim
    | some opening =>
    cases closing with
    | none => exact hg.elim
    | some closing =>
      simp only [Expr.Grown, mul_assoc] at hg
      refine hstart hg fun hk ht => ?_
      simp only [startRule, of_decide_eq_true hk, Expr.Reads, mul_assoc]
      exact ⟨opening, _, closing, _, rfl, ht⟩
  | repeatLoop _ _ =>
    simp only [Expr.Grown, mul_assoc] at hg
    refine hstart hg fun hk ht => ?_
    simp only [startRule, of_decide_eq_true hk, Expr.Reads]
    exact ⟨_, rfl, ht⟩
  | unary operator operand =>
    simp only [Expr.Grown, mul_assoc] at hg
    obtain ⟨found, hg⟩ := hg
    refine hstart hg fun hk ht => ?_
    rw [startRule_of_sign (of_decide_eq_true hk)]
    exact ⟨operand, rfl, by simpa only [Expr.Reads] using ht⟩
  | namespaced package operator name =>
    cases name with
    | none => exact hg.elim
    | some name =>
      simp only [Expr.Grown, mul_assoc] at hg
      refine hstart hg fun hk ht => ?_
      rcases Bool.or_eq_true .. ▸ hk with hk | hk <;> simp only [startRule, of_decide_eq_true hk] <;>
        exact .inr ⟨operator, name, rfl, ht⟩
  | control token =>
    rw [Expr.Grown, ← mul_one (Token.taken _ m token)] at hg
    refine hstart hg fun hk ht => ?_
    rcases Bool.or_eq_true .. ▸ hk with hk | hk <;> simp only [startRule, of_decide_eq_true hk] <;>
      exact ⟨trivial, ht⟩
  | literal token =>
    rw [Expr.Grown] at hg
    refine hstart hg fun hk ht => ?_
    rcases Bool.or_eq_true .. ▸ hk with hk | hk
    · rw [startRule_of_constant hk]
      exact ⟨rfl, ht.2⟩
    · have hk := of_decide_eq_true hk
      simp only [startRule, hk]
      exact .inl ⟨rfl, ht.1 (by rw [hk]; rfl), ht.2⟩
  | var token =>
    rw [Expr.Grown] at hg
    refine hstart hg fun hk ht => ?_
    rcases Bool.or_eq_true .. ▸ hk with hk | hk <;> have hk := of_decide_eq_true hk
    · simp only [startRule, hk]
      exact .inl ⟨rfl, ht.1 (by rw [hk]; rfl), ht.2⟩
    · simp only [startRule, hk]
      exact ⟨trivial, ht.2⟩
  | invalid => exact hg.elim

-- ---------------------------------------------------------------------------
-- Whole expressions, and whole files
-- ---------------------------------------------------------------------------

theorem reads_iff_start {level : Level} {e : Expr} {a b : List Token} :
    (any fun token => token.taken Kind.startsExpression m * any fun first =>
      startRule m token first * (first.leads level m e * stop level)) a b ↔ e.Reads level m a b := by
  simp only [mul_any, ← mul_assoc, Expr.Reads, stop, any_apply, mul_check]
  constructor
  · rintro ⟨token, first, ⟨c, hf, hl⟩, hk⟩
    exact ⟨Expr.grown_of_leads (grown_of_startRule level hf).2 hl, hk⟩
  · rintro ⟨hg, hk⟩
    obtain ⟨first, c, hbase, hf, hl⟩ := Expr.leads_of_grown e hg
    obtain ⟨token, hf⟩ := startRule_of_grown hbase hf
    exact ⟨token, first, ⟨c, hf, hl⟩, hk⟩

theorem not_reads {level : Level} {e : Expr} {a b : List Token}
    (h : (headKind a).startsExpression = false) : ¬e.Reads level m a b := fun hr =>
  absurd (e.startsWith_reads level m a b hr) (by simp [h])

theorem obeysAt_failAt (problem : Token → Problem) (token : Token) {s : State} (hs : s.Clean) :
    ObeysAt s (failAt problem token) fun _ => .never :=
  (obeysAt_fail fun _ => problem token).bind_never hs

theorem obeysAt_readFrom_never {bound : Nat} {level : Level} {token : Token} {s : State}
    (hs : s.Clean) (he : token.kind.endsExpression = false)
    (hk : token.kind.startsExpression = false) :
    ObeysAt s (readFrom readExpr bound level token) fun _ => .never := by
  unfold readFrom
  cases h : startProblem? token.kind with
  | some problem => exact obeysAt_failAt problem token hs
  | none =>
    have hi : token.kind = .invalidNumber := by simpa [Kind.startsExpression, he, h] using hk
    refine ObeysAt.bind_never hs (obeysAt_never fun hc => ?_)
    simp only [readStart, hi] at hc
    exact List.cons_ne_nil _ _ hc.problems

theorem obeys_readFrom (hr : ReaderObeys n readExpr) (he : Engages readExpr) {bound : Nat}
    (hb : n ≤ bound) (level : Level) {token : Token} (hk : token.kind.startsExpression = true) :
    Obeys n m (readFrom readExpr bound level token) fun e => any fun first =>
      startRule m token first * (first.leads level m e * stop level) := by
  have hproblem : startProblem? token.kind = none := by
    simp only [Kind.startsExpression, Bool.and_eq_true, Option.isNone_iff_eq_none] at hk
    exact hk.1.2
  unfold readFrom
  rw [hproblem]
  exact (obeys_readStart hr he hb hk).bind fun first s hs =>
    obeysAt_readOperators hr he hb level first hs (Nat.le_trans hs.length_le hb)

theorem readerObeys_readExprWithin (bound : Nat) : ReaderObeys bound (readExprWithin bound) := by
  induction bound with
  | zero => exact fun _ _ s hs => absurd hs.ended.length_pos (by have := hs.length_le; omega)
  | succ bound ih =>
    intro m level s hs
    by_cases hends : s.kind.endsExpression = true
    · have hrun : (readExprWithin (bound + 1) level).run s =
          (failAt .expectedExpression s.current).run s := by
        simp only [readExprWithin, run_look_bind, if_pos hends]
        rfl
      refine ((obeysAt_failAt _ _ hs.toClean).of_run hrun).congr fun e b =>
        ⟨fun h => h.elim, not_reads (by simp [s.headKind_rest, Kind.startsExpression, hends])⟩
    have hrun : (readExprWithin (bound + 1) level).run s =
        (advance >>= readFrom (readExprWithin bound) bound level).run s := by
      simp only [readExprWithin, run_look_bind, if_neg hends]
    by_cases hk : s.kind.startsExpression = true
    · have hstarts : Kind.startsExpression .endOfFile = false := rfl
      refine ((obeysAt_advance_bind_lt hs hstarts hk fun token ht =>
        obeys_readFrom ih (engages_readExprWithin bound) (Nat.le_refl bound) level ht).of_run
          hrun).congr fun e b => reads_iff_start
    · have hk : s.kind.startsExpression = false := Bool.eq_false_iff.2 hk
      refine (ObeysAt.of_run (obeysAt_never fun hc => ?_) hrun).congr fun e b =>
        ⟨fun h => h.elim, not_reads (s.headKind_rest ▸ hk)⟩
      have hs' : s.advance.Clean := clean_advance hs.toClean
      exact (obeysAt_readFrom_never hs' (Bool.eq_false_iff.2 hends) hk _ _).1 ⟨rfl, hc, rfl⟩

/-- A file is read without a problem exactly if it is read by the grammar. -/
theorem readAll_iff {tokens : List Token} (h : EndsOnce tokens) (es : List Expr)
    (left : List Token) :
    (readAll tokens).2.problems = [] ∧ (readAll tokens).1 = es ∧ (readAll tokens).2.rest = left ↔
      Expr.GrownAll .top es tokens left := by
  let s := State.start tokens
  let reading := readStatements (readExprWithin tokens.length) tokens.length
  have hs : s.Ready tokens.length .top :=
    { problems := rfl
      recovering := rfl
      mode := rfl
      settled := fun h => nomatch h
      ended := (State.within_start h).ended h
      length_le := Nat.le_refl _ }
  have hr : Obeys tokens.length .top reading (Expr.GrownAll .top) :=
    obeys_readStatements (readerObeys_readExprWithin _) (engages_readExprWithin _) (Nat.le_refl _)
  refine Iff.trans ?_ (hr s hs es left)
  constructor
  · rintro ⟨hp, ha, hl⟩
    exact ⟨ha, ⟨hp, Bool.eq_false_iff.2 fun hf => nomatch (reading.onward s).recovering hp hf⟩, hl⟩
  · rintro ⟨ha, hc, hl⟩
    exact ⟨hc.problems, ha, hl⟩

end Reading

end LenientR
