import LenientR.Proofs.Grammar.Constructs

/-!
# Operators follow the grammar

An expression in hand is extended by one operator at a time (`Expr.Extends`), as long as one follows
that binds by at least a level.
-/

namespace LenientR

open Trace

def Expr.Extends (level : Level) (m : Mode) (left : Expr) : Expr → Trace
  | .assignment left' operator right => given (left' = left) <| any fun found =>
    operator.taken (fun kind => level.joins found kind && kind.isAssignment) m * lines *
      right.Reads (found.operandLevel operator.kind) m
  | .binary left' operator right => given (left' = left) <| any fun found =>
    operator.taken (fun kind => level.joins found kind && !kind.isAssignment) m * lines *
      right.Reads (found.operandLevel operator.kind) m
  | .call callee opening arguments (some closing) => given (callee = left) <|
    opening.taken (fun kind => kind = .leftParen && level ≤ .access) m * lines *
      Item.GrownAll .arguments .rightParen m.bracketed .opening arguments *
      closing.taken (· = .rightParen) m
  | .index target opening arguments [closing] => given (target = left) <|
    opening.taken (fun kind => kind = .leftSquare && level ≤ .access) m * lines *
      Item.GrownAll .arguments .rightSquare m.bracketed .opening arguments *
      closing.taken (· = .rightSquare) m
  | .index target opening arguments [first, second] => given (target = left) <|
    opening.taken (fun kind => kind = .leftDoubleSquare && level ≤ .access) m * lines *
      Item.GrownAll .arguments .rightSquare m.bracketed .opening arguments *
      first.taken (· = .rightSquare) m * second.taken (· = .rightSquare) m
  | .member target operator (some name) => given (target = left) <|
    operator.taken (fun kind => (kind = .dollar || kind = .atSign) && level ≤ .access) m *
      name.taken Kind.isName m
  | _ => never

namespace Reading

variable {n : Nat} {m : Mode} {readExpr : ExprReader}

variable {level found : Level} {s : State} {left : Expr} {bound : Nat}

abbrev readExtension (readExpr : ExprReader) (bound : Nat) (found : Level) (left : Expr) :
    Action Expr :=
  advance >>= readOperator readExpr bound found left

section
variable (hr : ReaderObeys n readExpr) (he : Engages readExpr) (hb : n ≤ bound) (hs : s.Ready n m)
include hr he hb hs

theorem obeysAt_extension_call (h : s.kind = .leftParen) (hl : level ≤ .access) :
    ObeysAt s (readExtension readExpr bound found left) fun e => any fun opening =>
      any fun arguments => any fun closing => given (e = .call left opening arguments (some closing))
        (opening.taken (fun kind => kind = .leftParen && level ≤ .access) m * lines *
          Item.GrownAll .arguments .rightParen m.bracketed .opening arguments *
          closing.taken (· = .rightParen) m) := by
  have hread (token : Token)
      (h : (decide (token.kind = .leftParen) && decide (level ≤ .access)) = true) :
      readOperator readExpr bound found left token = readCall readExpr bound left token := by
    simp only [readOperator, of_decide_eq_true (Bool.and_eq_true .. ▸ h).1]
  refine (obeysAt_advance_bind_of (f := fun kind => kind = .leftParen && level ≤ .access) hs rfl
    (by simp [h, hl]) fun token h => hread token h ▸ obeys_readCall hr he hb left token).congr
      fun e b => ?_
  simp only [mul_any, mul_given, ← mul_assoc]

theorem obeysAt_extension_index {opens : Kind}
    (ho : opens = .leftSquare ∨ opens = .leftDoubleSquare) (h : s.kind = opens)
    (hl : level ≤ .access) :
    ObeysAt s (readExtension readExpr bound found left) fun e => any fun opening =>
      any fun arguments => any fun first => any fun closing =>
        given (e = .index left opening arguments closing)
          (opening.taken (fun kind => kind = opens && level ≤ .access) m * lines *
            Item.GrownAll .arguments .rightSquare m.bracketed .opening arguments *
            first.taken (· = .rightSquare) m * indexEnd m opening (some first) closing) := by
  have hread (token : Token) (h : (decide (token.kind = opens) && decide (level ≤ .access)) = true) :
      readOperator readExpr bound found left token = readIndex readExpr bound left token := by
    have hk := of_decide_eq_true (Bool.and_eq_true .. ▸ h).1
    rcases ho with rfl | rfl <;> simp only [readOperator, hk]
  refine (obeysAt_advance_bind_of (f := fun kind => kind = opens && level ≤ .access) hs
    (by rcases ho with rfl | rfl <;> rfl) (by simp [h, hl]) fun token h =>
      hread token h ▸ obeys_readIndex hr he hb left token).congr fun e b => ?_
  simp only [mul_any, mul_given, ← mul_assoc]

omit hr he hb in
theorem obeysAt_extension_member (h : s.kind = .dollar ∨ s.kind = .atSign) (hl : level ≤ .access) :
    ObeysAt s (readExtension readExpr bound found left) fun e => any fun operator => any fun name =>
      given (e = .member left operator (some name))
        (operator.taken (fun kind => (kind = .dollar || kind = .atSign) && level ≤ .access) m *
          name.taken Kind.isName m) := by
  have hread (token : Token) (h : ((decide (token.kind = .dollar) || decide (token.kind = .atSign)) &&
      decide (level ≤ .access)) = true) :
      readOperator readExpr bound found left token = readMember left token := by
    rcases Bool.or_eq_true .. ▸ (Bool.and_eq_true .. ▸ h).1 with h | h <;>
      simp only [readOperator, of_decide_eq_true h]
  refine (obeysAt_advance_bind_of
    (f := fun kind => (kind = .dollar || kind = .atSign) && level ≤ .access) hs rfl
    (by simpa [hl] using h) fun token h => hread token h ▸ obeys_readMember left token).congr
      fun e b => ?_
  simp only [mul_any, mul_given]

omit he hb in
theorem obeysAt_extension_operation (h : level.joins found s.kind = true) :
    ObeysAt s (readExtension readExpr bound found left) fun e => any fun operator =>
      any fun right => given (e = if operator.kind.isAssignment then .assignment left operator right
          else .binary left operator right)
        (operator.taken (level.joins found) m * lines *
          right.Reads (found.operandLevel operator.kind) m) := by
  have hread (token : Token) (h : level.joins found token.kind = true) :
      readOperator readExpr bound found left token = readOperation readExpr found left token := by
    unfold readOperator
    split
    all_goals first
      | rfl
      | (rename_i hk
         simp [hk, Level.joins, Level.ofOperator?] at h
         exact absurd h.1.1.symm h.2)
  refine (obeysAt_advance_bind_of hs rfl h fun token h =>
    hread token h ▸ obeys_readOperation hr found left token).congr fun e b => ?_
  simp only [mul_any, mul_given, ← mul_assoc]

end

/-- The operators that take no operand on their right, and how tightly they bind. -/
theorem access_or_joins (hf : Level.ofOperator? s.kind = some found) (hl : level ≤ found) :
    level ≤ .access ∧ (s.kind = .leftParen ∨ s.kind = .leftSquare ∨ s.kind = .leftDoubleSquare ∨
        s.kind = .dollar ∨ s.kind = .atSign) ∨
      level.joins found s.kind = true := by
  by_cases hacc : found = .access
  · subst hacc
    refine .inl ⟨hl, ?_⟩
    cases hk : s.kind <;> simp_all [Level.ofOperator?]
  · exact .inr (by simp [Level.joins, hf, hl, hacc])

theorem access_of_taken {kind : Kind} {opening : Token} {r : Trace} {a b : List Token}
    (h : (opening.taken (fun k => k = kind && level ≤ .access) m * r) a b) :
    headKind a = kind ∧ opening.kind = kind ∧ level ≤ .access := by
  obtain ⟨hk, hh, _⟩ := Token.taken_mul.1 h
  simp only [Bool.and_eq_true, decide_eq_true_eq] at hk
  exact ⟨hk.1, (headKind_of_head? hh).symm.trans hk.1, hk.2⟩

theorem admits_of_extends {grown : Expr} {a b : List Token}
    (h : left.Extends level m grown a b) : level.admits (headKind a) = true := by
  have hjoins {found : Level} (hj : level.joins found (headKind a) = true) :
      level.admits (headKind a) = true := by
    simp only [Level.joins, Bool.and_eq_true, decide_eq_true_eq] at hj
    simp [Level.admits, hj.1.1, hj.1.2]
  have haccess (hk : Level.ofOperator? (headKind a) = some .access) (hl : level ≤ .access) :
      level.admits (headKind a) = true := by
    simp [Level.admits, hk, hl]
  cases grown with
  | assignment left' operator right | binary left' operator right =>
    obtain ⟨_, found, ht⟩ := h
    simp only [mul_assoc] at ht
    exact hjoins (Bool.and_eq_true_iff.1 (Token.taken_mul.1 ht).1).1
  | call callee opening arguments closing =>
    cases closing with
    | none => exact h.elim
    | some closing =>
      obtain ⟨hk, _, hl⟩ := access_of_taken (by simpa only [mul_assoc] using h.2)
      exact haccess (by rw [hk]; rfl) hl
  | index target opening arguments closing =>
    rcases closing with _ | ⟨first, _ | ⟨second, _ | _⟩⟩
    · exact h.elim
    · obtain ⟨hk, _, hl⟩ := access_of_taken (by simpa only [mul_assoc] using h.2)
      exact haccess (by rw [hk]; rfl) hl
    · obtain ⟨hk, _, hl⟩ := access_of_taken (by simpa only [mul_assoc] using h.2)
      exact haccess (by rw [hk]; rfl) hl
    · exact h.elim
  | member target operator name =>
    cases name with
    | none => exact h.elim
    | some name =>
      have hk := (Token.taken_mul.1 h.2).1
      simp only [Bool.and_eq_true, Bool.or_eq_true, decide_eq_true_eq] at hk
      rcases hk with ⟨hk | hk, hl⟩ <;> exact haccess (by rw [hk]; rfl) hl
  | _ => exact h.elim

section
variable (hr : ReaderObeys n readExpr) (he : Engages readExpr) (hb : n ≤ bound) (hs : s.Ready n m)
include hr he hb hs

theorem extends_of_gives (hf : Level.ofOperator? s.kind = some found) (hl : level ≤ found)
    {e : Expr} {b : List Token} (h : Gives s (readExtension readExpr bound found left) e b) :
    left.Extends level m e s.rest b := by
  rcases access_or_joins hf hl with ⟨hl, hk | hk | hk | hk⟩ | hj
  · obtain ⟨opening, arguments, closing, rfl, ht⟩ :=
      (obeysAt_extension_call hr he hb hs hk hl e b).1 h
    exact ⟨rfl, ht⟩
  · obtain ⟨opening, arguments, first, closing, rfl, ht⟩ :=
      (obeysAt_extension_index hr he hb hs (.inl rfl) hk hl e b).1 h
    have ho : opening.kind = .leftSquare := by
      simp only [mul_assoc] at ht
      simpa [hl] using Token.fits_of_taken_mul ht
    simp only [indexEnd, ho, ne_eq, reduceCtorEq, not_false_eq_true, if_true, mul_given, mul_one,
      given_apply] at ht
    obtain ⟨rfl, ht⟩ := ht
    exact ⟨rfl, ht⟩
  · obtain ⟨opening, arguments, first, closing, rfl, ht⟩ :=
      (obeysAt_extension_index hr he hb hs (.inr rfl) hk hl e b).1 h
    have ho : opening.kind = .leftDoubleSquare := by
      simp only [mul_assoc] at ht
      simpa [hl] using Token.fits_of_taken_mul ht
    simp only [indexEnd, ho, ne_eq, not_true_eq_false, if_false, mul_any, mul_given, any_apply,
      given_apply] at ht
    obtain ⟨second, rfl, ht⟩ := ht
    exact ⟨rfl, ht⟩
  · obtain ⟨operator, name, rfl, ht⟩ := (obeysAt_extension_member hs hk hl e b).1 h
    exact ⟨rfl, ht⟩
  · obtain ⟨operator, right, rfl, ht⟩ := (obeysAt_extension_operation hr hs hj e b).1 h
    simp only [mul_assoc] at ht
    have ha : ∀ {p : Bool}, operator.kind.isAssignment = p →
        (operator.taken (fun kind => level.joins found kind && (kind.isAssignment == p)) m * lines *
          right.Reads (found.operandLevel operator.kind) m) s.rest b := by
      rintro _ rfl
      simp only [mul_assoc, Token.taken_mul] at ht ⊢
      refine ⟨?_, ht.2⟩
      rw [headKind_of_head? ht.2.1] at ht ⊢
      simpa using ht.1
    by_cases h : operator.kind.isAssignment = true
    · rw [if_pos h]
      exact ⟨rfl, found, by simpa using ha h⟩
    · rw [if_neg h]
      exact ⟨rfl, found, by simpa using ha (Bool.eq_false_iff.2 h)⟩

omit he hb in
theorem gives_of_extends_operation {operator right : _} (hf : Level.ofOperator? s.kind = some found)
    {p : Bool} {found' : Level} {b : List Token}
    (ht : (Token.taken (fun kind => level.joins found' kind && (kind.isAssignment == p)) m operator *
      lines * right.Reads (found'.operandLevel operator.kind) m) s.rest b) :
    operator.kind.isAssignment = p ∧ Gives s (readExtension readExpr bound found left)
      (if operator.kind.isAssignment then .assignment left operator right
        else .binary left operator right) b := by
  simp only [mul_assoc] at ht
  have hfits := Token.fits_of_taken_mul ht
  simp only [Bool.and_eq_true, beq_iff_eq] at hfits
  obtain ⟨hk, hh, ht⟩ := Token.taken_mul.1 ht
  have hkind : s.kind = operator.kind := headKind_of_head? hh
  have hfound : found' = found := by
    have hj := hfits.1
    simp only [Level.joins, Bool.and_eq_true, decide_eq_true_eq, ← hkind, hf] at hj
    exact (Option.some_inj.1 hj.1.1).symm
  subst hfound
  refine ⟨hfits.2, (obeysAt_extension_operation hr hs (hkind ▸ hfits.1) _ _).2
    ⟨operator, right, rfl, ?_⟩⟩
  simp only [mul_assoc]
  exact Token.taken_mul.2 ⟨by rw [headKind_of_head? hh]; exact hfits.1, hh, ht⟩

theorem gives_of_extends (hf : Level.ofOperator? s.kind = some found)
    {e : Expr} {b : List Token} (h : left.Extends level m e s.rest b) :
    Gives s (readExtension readExpr bound found left) e b := by
  cases e with
  | assignment left' operator right =>
    obtain ⟨rfl, found', ht⟩ := h
    obtain ⟨ha, hg⟩ := gives_of_extends_operation (p := true) hr hs hf (by simpa using ht)
    rwa [if_pos ha] at hg
  | binary left' operator right =>
    obtain ⟨rfl, found', ht⟩ := h
    obtain ⟨ha, hg⟩ := gives_of_extends_operation (p := false) hr hs hf (by simpa using ht)
    rwa [if_neg (by simp [ha])] at hg
  | call callee opening arguments closing =>
    cases closing with
    | none => exact h.elim
    | some closing =>
      obtain ⟨rfl, ht⟩ := h
      obtain ⟨hk, _, hl⟩ := access_of_taken (by simpa only [mul_assoc] using ht)
      exact (obeysAt_extension_call hr he hb hs hk hl _ _).2
        ⟨opening, arguments, closing, rfl, ht⟩
  | index target opening arguments closing =>
    rcases closing with _ | ⟨first, _ | ⟨second, _ | _⟩⟩
    · exact h.elim
    · obtain ⟨rfl, ht⟩ := h
      obtain ⟨hk, ho, hl⟩ := access_of_taken (by simpa only [mul_assoc] using ht)
      refine (obeysAt_extension_index hr he hb hs (.inl rfl) hk hl _ _).2
        ⟨opening, arguments, first, [first], rfl, ?_⟩
      simpa only [indexEnd, ho, ne_eq, reduceCtorEq, not_false_eq_true, if_true, mul_given, mul_one,
        given_apply, true_and] using ht
    · obtain ⟨rfl, ht⟩ := h
      obtain ⟨hk, ho, hl⟩ := access_of_taken (by simpa only [mul_assoc] using ht)
      refine (obeysAt_extension_index hr he hb hs (.inr rfl) hk hl _ _).2
        ⟨opening, arguments, first, [first, second], rfl, ?_⟩
      simp only [indexEnd, ho, ne_eq, not_true_eq_false, if_false, mul_any, mul_given, any_apply,
        given_apply]
      exact ⟨second, rfl, ht⟩
    · exact h.elim
  | member target operator name =>
    cases name with
    | none => exact h.elim
    | some name =>
      obtain ⟨rfl, ht⟩ := h
      have hk := (Token.taken_mul.1 ht).1
      simp only [Bool.and_eq_true, Bool.or_eq_true, decide_eq_true_eq] at hk
      exact (obeysAt_extension_member hs hk.1 hk.2 _ _).2 ⟨operator, name, rfl, ht⟩
  | _ => exact h.elim

theorem obeysAt_extension (hf : Level.ofOperator? s.kind = some found) (hl : level ≤ found) :
    ObeysAt s (readExtension readExpr bound found left) (left.Extends level m) :=
  fun _ _ => ⟨extends_of_gives hr he hb hs hf hl, gives_of_extends hr he hb hs hf⟩

end

end Reading

end LenientR
