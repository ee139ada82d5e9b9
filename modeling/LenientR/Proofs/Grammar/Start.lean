import LenientR.Proofs.Grammar.Basic

/-!
# First tokens

An expression starts with a token that can start one, and an item with one that cannot end a list.
-/

namespace LenientR

def Kind.startsExpression (kind : Kind) : Bool :=
  !kind.endsExpression && (Reading.startProblem? kind).isNone && kind ≠ .invalidNumber

def Trace.StartsWith (fits : Kind → Bool) (r : Trace) : Prop :=
  ∀ a b, r a b → fits (headKind a) = true

namespace Trace

variable {fits : Kind → Bool} {r : Trace}

theorem StartsWith.mul (h : r.StartsWith fits) (q : Trace) : (r * q).StartsWith fits :=
  fun a _ ⟨b, hr, _⟩ => h a b hr

theorem StartsWith.check_mul {holds : List Token → Prop} (h : r.StartsWith fits) :
    (check holds * r).StartsWith fits :=
  fun a b hr => h a b ((Trace.check_mul holds r a b).1 hr).2

theorem startsWith_never : never.StartsWith fits := fun _ _ h => h.elim

theorem startsWith_any {traces : ι → Trace} (h : ∀ i, (traces i).StartsWith fits) :
    (any traces).StartsWith fits :=
  fun a b ⟨i, hi⟩ => h i a b hi

theorem startsWith_taken {f : Kind → Bool} (h : ∀ kind, f kind = true → fits kind = true)
    (m : Mode) (token : Token) : (token.taken f m).StartsWith fits := by
  rintro a b ⟨hf, rest, rfl, _⟩
  exact h _ hf

end Trace

open Trace

theorem Level.startsExpression_of_ofSign? {kind : Kind} {found : Level}
    (h : ofSign? kind = some found) : kind.startsExpression = true := by
  cases kind <;> first | rfl | cases h

/-- Of an expression, however it goes on, the first token is one that can start it. -/
theorem Expr.startsWith_grown (level : Level) (m : Mode) :
    (e : Expr) → (e.Grown level m).StartsWith Kind.startsExpression
  | .assignment left _ _ | .binary left _ _ => by
    simp only [Expr.Grown, mul_assoc]
    exact startsWith_any fun _ => (left.startsWith_grown level m).mul _
  | .call left _ _ (some _) | .index left _ _ [_] | .index left _ _ [_, _]
  | .member left _ (some _) => by
    simp only [Expr.Grown, mul_assoc]
    exact (left.startsWith_grown level m).mul _
  | .block _ _ (some _) | .forLoop _ (some _) (some _) (some _) _ (some _) _
  | .function _ (some _) _ (some _) (some _) | .group _ _ (some _)
  | .conditional _ (some _) _ (some _) _ _ | .literal _ | .namespaced _ _ (some _)
  | .repeatLoop _ _ | .var _ | .whileLoop _ (some _) _ (some _) _ => by
    simp only [Expr.Grown, mul_assoc]
    refine (startsWith_taken (fun kind h => ?_) m _).mul _
    cases kind <;> first | rfl | cases h
  | .control _ => by
    rw [Expr.Grown]
    refine startsWith_taken (fun kind h => ?_) m _
    cases kind <;> first | rfl | cases h
  | .unary _ _ => by
    simp only [Expr.Grown, mul_assoc]
    refine startsWith_any fun _ => (startsWith_taken (fun kind h => ?_) m _).mul _
    exact Level.startsExpression_of_ofSign? (of_decide_eq_true h)
  | .block _ _ none | .call _ _ _ none | .function _ none _ _ _ | .function _ _ _ none _
  | .function _ _ _ _ none | .group _ _ none | .conditional _ none _ _ _ _
  | .conditional _ _ _ none _ _ | .index _ _ _ [] | .index _ _ _ (_ :: _ :: _ :: _)
  | .member _ _ none | .namespaced _ _ none | .whileLoop _ none _ _ _ | .whileLoop _ _ _ none _
  | .forLoop _ none _ _ _ _ _ | .forLoop _ _ none _ _ _ _ | .forLoop _ _ _ none _ _ _
  | .forLoop _ _ _ _ _ none _ | .invalid _ => by
    simp only [Expr.Grown]
    exact startsWith_never

theorem Expr.startsWith_reads (level : Level) (m : Mode) (e : Expr) :
    (e.Reads level m).StartsWith Kind.startsExpression :=
  (e.startsWith_grown level m).mul _

def Kind.startsItem (kind : Kind) : Bool := kind.startsExpression || kind = .comma

theorem Item.startsWith_grown (role : ListRole) (terminator : Kind) (m : Mode) :
    (item : Item) → (item.Grown role terminator m).StartsWith Kind.startsItem
  | .positional value _ => by
    simp only [Item.Grown, mul_assoc]
    refine .check_mul (.check_mul fun a b h => ?_)
    simp [Kind.startsItem, value.startsWith_reads .help m a b h]
  | .named _ (some _) _ _ | .named _ none none _ => by
    simp only [Item.Grown, mul_assoc]
    refine (startsWith_taken (fun kind h => ?_) m _).mul _
    cases role <;> cases kind <;> first | rfl | cases h
  | .ellipsis _ _ => by
    rw [Item.Grown]
    refine startsWith_taken (fun kind h => ?_) m _
    cases kind <;> first | rfl | cases h
  | .missing _ => by
    rw [Item.Grown]
    exact fun a b h => by simp [Kind.startsItem, h.1.2]
  | .named _ none (some _) _ | .unreadable _ _ | .stub => by
    simp only [Item.Grown]
    exact startsWith_never

end LenientR
