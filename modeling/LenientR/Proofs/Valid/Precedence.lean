import LenientR.Proofs.Valid.Sound

/-!
# Precedence

Of the trees that could be made of the same tokens, a text without problems gets the one in which
operators bind as the levels say (`Expr.Disambiguated`). What an operator has on its left ends where
the operator stands, so that nothing on the right edge of it could have gone on with the operator
(`Expr.EndsAt`).
-/

namespace LenientR

open Trace

-- ---------------------------------------------------------------------------
-- Levels in order
-- ---------------------------------------------------------------------------

namespace Level

theorem rank_injective : Function.Injective rank := by
  intro a b h
  cases a <;> cases b <;> first | rfl | cases h

theorem rank_next_le (level : Level) : level.next.rank ≤ level.rank + 1 := by
  cases level <;> decide

theorem rank_next_of_ofOperator? {kind : Kind} {level : Level} (h : ofOperator? kind = some level) :
    level.next.rank = level.rank + 1 := by
  cases level <;> first | rfl | (cases kind <;> cases h)

theorem rank_lt_of_not_admits {level found : Level} {kind : Kind}
    (hk : ofOperator? kind = some found) (h : level.admits kind = false) :
    found.rank < level.rank := by
  rw [admits, hk] at h
  exact Nat.lt_of_not_le (of_decide_eq_false h)

end Level

-- ---------------------------------------------------------------------------
-- The normal form
-- ---------------------------------------------------------------------------

namespace Expr

/-- An expression and what it ends in: its right or only operand, its body or its last branch, and
what that ends in. It stops where an expression ends in a token of its own. -/
def rightEdge : Expr → List Expr
  | .assignment left operator right => .assignment left operator right :: right.rightEdge
  | .binary left operator right => .binary left operator right :: right.rightEdge
  | .unary operator operand => .unary operator operand :: operand.rightEdge
  | .forLoop keyword opening loopVar inWord sequence closing body =>
    .forLoop keyword opening loopVar inWord sequence closing body :: body.rightEdge
  | .whileLoop keyword opening condition closing body =>
    .whileLoop keyword opening condition closing body :: body.rightEdge
  | .repeatLoop keyword body => .repeatLoop keyword body :: body.rightEdge
  | .function keyword opening parameters closing (some body) =>
    .function keyword opening parameters closing (some body) :: body.rightEdge
  | .conditional keyword opening condition closing consequent none =>
    .conditional keyword opening condition closing consequent none :: consequent.rightEdge
  | .conditional keyword opening condition closing consequent (some (word, alternative)) =>
    .conditional keyword opening condition closing consequent (some (word, alternative)) ::
      alternative.rightEdge
  | e => [e]

/-- On the right edge of what stands before an operator of some level: an operator here binds more
tightly, or as tightly and is left associative, and nothing here could have taken the operator in. -/
def FitsBefore (level : Level) : Expr → Prop
  | .assignment _ operator _ | .binary _ operator _ =>
    ∃ found, Level.ofOperator? operator.kind = some found ∧
      (level.rank < found.rank ∨ found = level ∧ operator.kind.isRightAssociative = false)
  | .unary operator _ =>
    ∃ found, Level.ofSign? operator.kind = some found ∧ level.rank < found.rank
  | .conditional _ _ _ _ _ _ | .forLoop _ _ _ _ _ _ _ | .whileLoop _ _ _ _ _ | .repeatLoop _ _
  | .function _ _ _ _ _ => False
  | _ => True

/-- Right after an operator of some level: an operator here binds more tightly, or as tightly after
one that is right associative. -/
def FitsAfter (level : Level) (kind : Kind) : Expr → Prop
  | .assignment _ operator _ | .binary _ operator _ =>
    ∃ found, Level.ofOperator? operator.kind = some found ∧
      (level.rank < found.rank ∨ found = level ∧ kind.isRightAssociative = true)
  | _ => True

/-- Right after a sign of some level: an operator here binds at least as tightly. -/
def FitsSign (level : Level) : Expr → Prop
  | .assignment _ operator _ | .binary _ operator _ =>
    ∃ found, Level.ofOperator? operator.kind = some found ∧ level.rank ≤ found.rank
  | _ => True

def LacksElse : Expr → Prop
  | .conditional _ _ _ _ _ none => True
  | _ => False

/-- Operands are what precedence and associativity make them, and an `else` belongs to the nearest
`if` before it. -/
def Disambiguated : Expr → Prop
  | .assignment left operator right | .binary left operator right =>
    ∃ level, Level.ofOperator? operator.kind = some level ∧
      right.FitsAfter level operator.kind ∧ ∀ x ∈ left.rightEdge, x.FitsBefore level
  | .call left operator _ _ | .index left operator _ _ | .member left operator _ =>
    ∃ level, Level.ofOperator? operator.kind = some level ∧
      ∀ x ∈ left.rightEdge, x.FitsBefore level
  | .unary operator operand =>
    ∃ level, Level.ofSign? operator.kind = some level ∧ operand.FitsSign level
  | .conditional _ _ _ _ consequent (some _) => ∀ x ∈ consequent.rightEdge, ¬x.LacksElse
  | _ => True

-- ---------------------------------------------------------------------------
-- Where a right edge ends
-- ---------------------------------------------------------------------------

def EndsAt (m : Mode) (rest : List Token) : Expr → Prop
  | .assignment _ operator _ | .binary _ operator _ =>
    ∃ found, Level.ofOperator? operator.kind = some found ∧
      (found.operandLevel operator.kind).admits (headKind rest) = false
  | .unary operator _ =>
    ∃ found, Level.ofSign? operator.kind = some found ∧ found.admits (headKind rest) = false
  | .forLoop _ _ _ _ _ _ _ | .whileLoop _ _ _ _ _ | .repeatLoop _ _ | .function _ _ _ _ _ =>
    Level.help.admits (headKind rest) = false
  | .conditional _ _ _ _ _ alternative =>
    Level.help.admits (headKind rest) = false ∧
      (alternative = none → headKind (m.beforeElse rest) ≠ .elseWord)
  | _ => True

theorem mul_stop {level level' : Level} {m : Mode} {r : Trace} {e : Expr} {a b : List Token}
    (h : (r * e.Grown level m * stop level') a b) :
    (∃ c, e.Grown level m c b) ∧ level'.admits (headKind b) = false := by
  obtain ⟨⟨c, _, hg⟩, hs⟩ := (mul_check _ _ _ _).1 h
  exact ⟨⟨c, hg⟩, hs⟩

theorem ofOperator?_of_joins {level found : Level} {kind : Kind}
    (h : level.joins found kind = true) : Level.ofOperator? kind = some found ∧ level ≤ found := by
  simp only [Level.joins, Bool.and_eq_true, decide_eq_true_eq] at h
  exact h.1

/-- Whatever is on the right edge has stopped in front of what follows. -/
theorem endsAt_of_grown {level : Level} {m : Mode} : (e : Expr) → {a b : List Token} →
    e.Grown level m a b → ∀ x ∈ e.rightEdge, x.EndsAt m b
  | .assignment left operator right, a, b, h | .binary left operator right, a, b, h => by
    simp only [Expr.Grown] at h
    obtain ⟨found, h⟩ := h
    have hf := (Occurs.fits (Occurs.right (Occurs.left (Occurs.left (Occurs.left ⟨a, b, h⟩)))))
    obtain ⟨⟨c, hg⟩, hs⟩ := mul_stop h
    rw [rightEdge]
    exact List.forall_mem_cons.2 ⟨⟨found, (ofOperator?_of_joins (Bool.and_eq_true .. ▸ hf).1).1, hs⟩,
      right.endsAt_of_grown hg⟩
  | .unary operator operand, a, b, h => by
    simp only [Expr.Grown] at h
    obtain ⟨found, h⟩ := h
    have hf := Occurs.fits (Occurs.left (Occurs.left (Occurs.left ⟨a, b, h⟩)))
    obtain ⟨⟨c, hg⟩, hs⟩ := mul_stop h
    rw [rightEdge]
    exact List.forall_mem_cons.2 ⟨⟨found, of_decide_eq_true hf, hs⟩, operand.endsAt_of_grown hg⟩
  | .forLoop _ (some _) (some _) (some _) _ (some _) body, _, _, h
  | .whileLoop _ (some _) _ (some _) body, _, _, h | .repeatLoop _ body, _, _, h
  | .function _ (some _) _ (some _) (some body), _, _, h => by
    simp only [Expr.Grown] at h
    obtain ⟨⟨c, hg⟩, hs⟩ := mul_stop h
    rw [rightEdge]
    exact List.forall_mem_cons.2 ⟨hs, body.endsAt_of_grown hg⟩
  | .conditional _ (some _) _ (some _) consequent none, _, b, h => by
    simp only [Expr.Grown, Expr.GrownElse] at h
    obtain ⟨d, h, he, rfl⟩ := h
    obtain ⟨⟨c, hg⟩, hs⟩ := mul_stop h
    rw [rightEdge]
    exact List.forall_mem_cons.2 ⟨⟨hs, fun _ => he⟩, consequent.endsAt_of_grown hg⟩
  | .conditional _ (some _) _ (some _) consequent (some (word, alternative)), _, _, h => by
    simp only [Expr.Grown, Expr.GrownElse] at h
    obtain ⟨d, _, h⟩ := h
    obtain ⟨⟨c, hg⟩, hs⟩ := mul_stop h
    rw [rightEdge]
    exact List.forall_mem_cons.2 ⟨⟨hs, fun hn => nomatch hn⟩, alternative.endsAt_of_grown hg⟩
  | .block _ _ _, _, _, _ | .call _ _ _ _, _, _, _ | .control _, _, _, _ | .group _ _ _, _, _, _
  | .index _ _ _ _, _, _, _ | .literal _, _, _, _ | .member _ _ _, _, _, _
  | .namespaced _ _ _, _, _, _ | .var _, _, _, _ =>
    List.forall_mem_singleton.2 trivial
  | .function _ none _ _ _, _, _, h | .function _ _ _ none _, _, _, h
  | .function _ _ _ _ none, _, _, h | .conditional _ none _ _ _ _, _, _, h
  | .conditional _ _ _ none _ _, _, _, h | .whileLoop _ none _ _ _, _, _, h
  | .whileLoop _ _ _ none _, _, _, h | .forLoop _ none _ _ _ _ _, _, _, h
  | .forLoop _ _ none _ _ _ _, _, _, h | .forLoop _ _ _ none _ _ _, _, _, h
  | .forLoop _ _ _ _ _ none _, _, _, h | .invalid _, _, _, h => by
    simp only [Expr.Grown] at h
    exact h.elim

-- ---------------------------------------------------------------------------
-- Every construct is in normal form
-- ---------------------------------------------------------------------------

theorem EndsAt.fitsBefore {m : Mode} {rest : List Token} {level : Level} {x : Expr}
    (h : x.EndsAt m rest) (hk : Level.ofOperator? (headKind rest) = some level) :
    x.FitsBefore level := by
  have hhelp (h : Level.help.admits (headKind rest) = false) : False :=
    absurd (Level.rank_lt_of_not_admits hk h) (Nat.not_lt_of_le (Level.help_le level))
  cases x with
  | assignment _ operator _ | binary _ operator _ =>
    obtain ⟨found, hf, hs⟩ := h
    have hlt := Level.rank_lt_of_not_admits hk hs
    refine ⟨found, hf, ?_⟩
    unfold Level.operandLevel at hlt
    split at hlt
    · exact .inl hlt
    · rename_i hr
      have hle := Nat.lt_of_lt_of_le hlt found.rank_next_le
      rcases Nat.lt_or_eq_of_le (Nat.le_of_lt_succ hle) with h | h
      · exact .inl h
      · exact .inr ⟨(Level.rank_injective h).symm, Bool.eq_false_iff.2 hr⟩
  | unary operator _ =>
    obtain ⟨found, hf, hs⟩ := h
    exact ⟨found, hf, Level.rank_lt_of_not_admits hk hs⟩
  | forLoop | whileLoop | repeatLoop | function => exact hhelp h
  | conditional => exact hhelp h.1
  | _ => trivial

theorem fitsSign_of_grown {level : Level} {m : Mode} {e : Expr} {a b : List Token}
    (h : e.Grown level m a b) : e.FitsSign level := by
  cases e with
  | assignment left operator right | binary left operator right =>
    simp only [Expr.Grown] at h
    obtain ⟨found, h⟩ := h
    have hf := Occurs.fits (Occurs.right (Occurs.left (Occurs.left (Occurs.left ⟨a, b, h⟩))))
    obtain ⟨hf, hle⟩ := ofOperator?_of_joins (Bool.and_eq_true .. ▸ hf).1
    exact ⟨found, hf, hle⟩
  | _ => trivial

theorem FitsSign.fitsAfter {level : Level} {kind : Kind} {e : Expr}
    (hk : Level.ofOperator? kind = some level) (h : e.FitsSign (level.operandLevel kind)) :
    e.FitsAfter level kind := by
  cases e with
  | assignment _ operator _ | binary _ operator _ =>
    obtain ⟨found, hf, hle⟩ := h
    refine ⟨found, hf, ?_⟩
    unfold Level.operandLevel at hle
    split at hle
    · rename_i hr
      rcases Nat.lt_or_eq_of_le hle with h | h
      · exact .inl h
      · exact .inr ⟨(Level.rank_injective h).symm, hr⟩
    · rw [Level.rank_next_of_ofOperator? hk] at hle
      exact .inl hle
  | _ => trivial

theorem fitsBefore_of_grown {level found : Level} {m : Mode} {left : Expr} {operator : Token}
    {f : Kind → Bool} {r : Trace} {a b : List Token}
    (h : (left.Grown level m * (operator.taken f m * r)) a b)
    (hf : Level.ofOperator? operator.kind = some found) :
    ∀ x ∈ left.rightEdge, x.FitsBefore found := by
  obtain ⟨c, hleft, ht⟩ := h
  have hk := headKind_of_head? (Token.taken_mul.1 ht).2.1
  exact fun x hx => (left.endsAt_of_grown hleft x hx).fitsBefore (hk ▸ hf)

theorem fitsBefore_of_access {level : Level} {m : Mode} {left : Expr} {operator : Token}
    {f : Kind → Bool} {r : Trace} {a b : List Token}
    (h : (left.Grown level m * (operator.taken f m * r)) a b)
    (hf : ∀ kind, f kind = true → Level.ofOperator? kind = some .access) :
    ∃ found, Level.ofOperator? operator.kind = some found ∧
      ∀ x ∈ left.rightEdge, x.FitsBefore found :=
  have hk := hf _ (Occurs.fits (Occurs.left (Occurs.right ⟨a, b, h⟩)))
  ⟨.access, hk, fitsBefore_of_grown h hk⟩

theorem fitsBefore_of_opening {level : Level} {m : Mode} {left : Expr} {operator : Token}
    {opens : Kind} {p : Bool} {r : Trace} {a b : List Token}
    (h : (left.Grown level m * (operator.taken (fun kind => kind = opens && p) m * r)) a b)
    (ho : Level.ofOperator? opens = some .access) :
    ∃ found, Level.ofOperator? operator.kind = some found ∧
      ∀ x ∈ left.rightEdge, x.FitsBefore found :=
  fitsBefore_of_access h fun kind hk => by
    have hkind : kind = opens := of_decide_eq_true (Bool.and_eq_true .. ▸ hk).1
    rwa [hkind]

/-- Between a condition and its second branch no `if` is left without one. -/
theorem not_lacksElse_of_grown {level : Level} {m : Mode} {consequent : Expr} {word : Token}
    {e : Expr} {a b c : List Token} (hg : consequent.Grown level m a b)
    (helse : Expr.GrownElse m (some (word, e)) b c) :
    ∀ x ∈ consequent.rightEdge, ¬x.LacksElse := by
  simp only [Expr.GrownElse, mul_assoc] at helse
  obtain ⟨_, rfl, ht⟩ := helse
  have hword := of_decide_eq_true (Token.taken_mul.1 ht).1
  intro x hx hlacks
  have hends := consequent.endsAt_of_grown hg x hx
  cases x with
  | conditional _ _ _ _ _ last =>
    cases last with
    | none => exact hends.2 rfl hword
    | some _ => exact hlacks
  | _ => exact hlacks

theorem disambiguated_of_grown {level : Level} {m : Mode} {e : Expr} {a b : List Token}
    (h : e.Grown level m a b) : e.Disambiguated := by
  cases e with
  | assignment left operator right | binary left operator right =>
    simp only [Expr.Grown] at h
    obtain ⟨found, h⟩ := h
    have hf := Occurs.fits (Occurs.right (Occurs.left (Occurs.left (Occurs.left ⟨a, b, h⟩))))
    have hf := (ofOperator?_of_joins (Bool.and_eq_true .. ▸ hf).1).1
    obtain ⟨⟨_, hright⟩, _⟩ := mul_stop h
    simp only [mul_assoc] at h
    exact ⟨found, hf, (fitsSign_of_grown hright).fitsAfter hf, fitsBefore_of_grown h hf⟩
  | call left operator _ closing =>
    cases closing with
    | none => exact h.elim
    | some closing =>
      simp only [Expr.Grown, mul_assoc] at h
      exact fitsBefore_of_opening h rfl
  | index left operator _ closing =>
    rcases closing with _ | ⟨_, _ | ⟨_, _ | _⟩⟩
    · exact h.elim
    · simp only [Expr.Grown, mul_assoc] at h
      exact fitsBefore_of_opening h rfl
    · simp only [Expr.Grown, mul_assoc] at h
      exact fitsBefore_of_opening h rfl
    · exact h.elim
  | member left operator name =>
    cases name with
    | none => exact h.elim
    | some name =>
      simp only [Expr.Grown, mul_assoc] at h
      refine fitsBefore_of_access h fun kind hk => ?_
      cases kind <;> first | rfl | cases hk
  | unary operator operand =>
    simp only [Expr.Grown] at h
    obtain ⟨found, h⟩ := h
    have hf := Occurs.fits (Occurs.left (Occurs.left (Occurs.left ⟨a, b, h⟩)))
    obtain ⟨⟨_, hoperand⟩, _⟩ := mul_stop h
    exact ⟨found, of_decide_eq_true hf, fitsSign_of_grown hoperand⟩
  | conditional _ opening _ closing consequent alternative =>
    cases opening with
    | none => exact h.elim
    | some _ =>
    cases closing with
    | none => exact h.elim
    | some _ =>
    cases alternative with
    | none => trivial
    | some alternative =>
      simp only [Expr.Grown] at h
      obtain ⟨c, h, helse⟩ := h
      obtain ⟨⟨_, hg⟩, _⟩ := mul_stop h
      exact not_lacksElse_of_grown hg helse
  | _ => trivial

end Expr

/-- Every expression of a text without problems is the one that precedence, associativity and the
nearest `if` ask for. -/
theorem Document.disambiguated_of_isValid {source : String} {range : Span} {text : List Char}
    (h : (ofText source range text).isValid = true) :
    ∀ found ∈ (ofText source range text).walk, ∀ e, found.node = .expr e → e.Disambiguated := by
  intro found hm e he
  have hgrown := isGrown_of_isValid h found hm
  rw [he] at hgrown
  obtain ⟨level, m, a, b, hg⟩ := hgrown
  exact Expr.disambiguated_of_grown hg

theorem Document.disambiguated_power_conditional :
    (parse "y <- x ^ !b * -c; if (a) if (b) c else d").isValid = true ∧
      ∀ found ∈ (parse "y <- x ^ !b * -c; if (a) if (b) c else d").walk, ∀ e,
        found.node = .expr e → e.Disambiguated :=
  ⟨by decide +kernel, disambiguated_of_isValid (by decide +kernel)⟩

end LenientR
