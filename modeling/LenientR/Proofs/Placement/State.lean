import LenientR.Proofs.Placement.Basic
import LenientR.Proofs.Reading.Progress

/-!
# Steps of reading at other places

`Corresponds place base n φ a b`: wherever the end is ahead and at most `n` tokens are left, what `a` does
`b` does on the moved tokens, and its answer is moved by `φ`. It is proved of `a` and `b` with
different bounds, so it says both that places do not matter and that larger bounds do not either.
-/

namespace LenientR.Reading

namespace State

/-- The same state with all tokens moved, on top of what was completed before. -/
def move (place : Token → Nat) (base : List Expr) (s : State) : State where
  rest := s.rest.map (·.move place)
  previous := s.previous.map (·.move place)
  skipsNewlines := s.skipsNewlines
  blockDepth := s.blockDepth
  recovering := s.recovering
  problems := s.problems.map (·.move place)
  completed := s.completed.map (·.move place) ++ base

section
variable {place : Token → Nat} {base : List Expr} {s : State}

theorem current_move (h : s.Ended) : (s.move place base).current = s.current.move place := by
  cases hr : s.rest with
  | nil => exact absurd h.length_pos (by simp [hr])
  | cons token rest => simp [current, move, hr]

@[simp] theorem kind_move (s : State) : (s.move place base).kind = s.kind := by
  cases hr : s.rest <;> simp [kind, current, move, hr]

@[simp] theorem recovering_move (s : State) : (s.move place base).recovering = s.recovering := rfl

@[simp] theorem blockDepth_move (s : State) : (s.move place base).blockDepth = s.blockDepth := rfl

theorem lastToken_move (h : s.Ended) : (s.move place base).lastToken = s.lastToken.move place := by
  cases hp : s.previous with
  | none => simpa [lastToken, move, hp] using current_move h
  | some token => simp [lastToken, move, hp]

@[simp] theorem nextKind_move (s : State) : (s.move place base).nextKind = s.nextKind := by
  simp only [nextKind, move, ← List.map_drop, List.find?_map, Option.elim_map]
  rfl

theorem dropNewlines_move (s : State) :
    (s.move place base).dropNewlines = s.dropNewlines.move place base := by
  simp only [dropNewlines, move, List.dropWhile_map]
  rfl

theorem settle_move (s : State) : (s.move place base).settle = s.settle.move place base := by
  unfold settle
  by_cases h : s.skipsNewlines = true
  · rw [if_pos h, if_pos (show (s.move place base).skipsNewlines = true from h), dropNewlines_move]
  · rw [if_neg h, if_neg (show ¬(s.move place base).skipsNewlines = true from h)]

theorem advance_move (s : State) : (s.move place base).advance = s.advance.move place base := by
  cases hr : s.rest with
  | nil => simp [advance, move, hr]
  | cons token rest =>
    by_cases he : token.kind = .endOfFile
    · simp [advance, move, hr, he]
    · simp only [advance, hr, he, if_false, ← settle_move]
      simp only [move, hr, List.map_cons, Token.kind_move, he, if_false]
      split <;> rfl

end

end State

theorem State.move_start (s : State) : s.move Token.start [] = s := by
  simp only [move, Token.move_start, funext Problem.move_start, funext Expr.move_start,
    List.map_id', Option.map_id', List.append_nil]

/-- What `a` does, `b` does on the moved tokens, if at most `n` are left and the end is ahead. -/
def Corresponds (place : Token → Nat) (base : List Expr) (n : Nat) (φ : α → α) (a b : Action α) : Prop :=
  ∀ s, s.Ended → s.rest.length ≤ n →
    b.run (s.move place base) = (φ (a.run s).1, (a.run s).2.move place base)

section
variable {place : Token → Nat} {base : List Expr} {m n : Nat}

namespace Corresponds

theorem mono {φ : α → α} {a b : Action α} (h : Corresponds place base n φ a b) (hm : m ≤ n) :
    Corresponds place base m φ a b :=
  fun s he hl => h s he (Nat.le_trans hl hm)

theorem pure {φ : α → α} {x y : α} (h : φ x = y) :
    Corresponds place base n φ (pure x) (pure y) :=
  fun s _ _ => by simp [h]

theorem bind {φ : α → α} {ψ : β → β} {a b : Action α} {next next' : α → Action β}
    (h : Corresponds place base n φ a b) (hn : ∀ x, Corresponds place base n ψ (next x) (next' (φ x))) :
    Corresponds place base n ψ (a >>= next) (b >>= next') := by
  intro s he hl
  have hr := hn (a.run s).1 (a.run s).2 ((a.onward s).passes.ended he)
    (Nat.le_trans (length_run_le a s) hl)
  simp only [run_bind, h s he hl, hr]

theorem map {φ : α → α} {ψ : β → β} {f : α → β} {a b : Action α}
    (h : Corresponds place base n φ a b) (hf : ∀ x, f (φ x) = ψ (f x)) :
    Corresponds place base n ψ (f <$> a) (f <$> b) :=
  fun s he hl => by simp only [run_map, h s he hl, hf]

theorem ite {φ : α → α} {c : Prop} [Decidable c] {a b a' b' : Action α}
    (h : c → Corresponds place base n φ a b) (h' : ¬c → Corresponds place base n φ a' b') :
    Corresponds place base n φ (if c then a else a') (if c then b else b') := by
  split
  · rename_i hc
    exact h hc
  · rename_i hc
    exact h' hc

theorem look {φ : α → α} {view : State → α}
    (h : ∀ s, s.Ended → view (s.move place base) = φ (view s)) :
    Corresponds place base n φ (look view) (look view) :=
  fun s he _ => by simp [Reading.look, h s he]

theorem update {change : State → State} {onward : ∀ s : State, s.Onward (change s)}
    (h : ∀ s, s.Ended → change (s.move place base) = (change s).move place base) :
    Corresponds place base n id (update change onward) (update change onward) :=
  fun s he _ => by simp [Reading.update, h s he]

theorem run_eq {φ : α → α} {a b : Action α} (h : Corresponds Token.start [] n φ a b)
    (hφ : ∀ x, φ x = x) {s : State} (he : s.Ended) (hl : s.rest.length ≤ n) :
    a.run s = b.run s := by
  have hr := h s he hl
  rw [State.move_start, State.move_start, hφ] at hr
  exact hr.symm

end Corresponds

theorem look_kind : Corresponds place base n id (look State.kind) (look State.kind) :=
  .look fun s _ => s.kind_move

theorem look_completed :
    Corresponds place base n (fun completed => completed.map (Expr.move place) ++ base)
      (look State.completed) (look State.completed) :=
  .look fun _ _ => rfl

theorem corresponds_advance : Corresponds place base n (Token.move place) advance advance :=
  fun s he _ => by simp [advance, State.current_move he, State.advance_move]

theorem corresponds_accept (kind : Kind) :
    Corresponds place base n (Option.map (Token.move place)) (accept kind) (accept kind) := by
  intro s he _
  simp only [accept, State.kind_move, State.current_move he, State.advance_move]
  split <;> rfl

theorem State.report_move (s : State) (problem : Problem) :
    (s.move place base).report (problem.move place) = (s.report problem).move place base := rfl

theorem corresponds_acceptOr (kind : Kind) {problem problem' : State → Problem}
    (h : ∀ s, s.Ended → problem' (s.move place base) = (problem s).move place) :
    Corresponds place base n (Option.map (Token.move place)) (acceptOr kind problem)
      (acceptOr kind problem') := by
  intro s he _
  simp only [acceptOr, State.kind_move, State.current_move he, State.advance_move, h s he]
  split <;> rfl

theorem corresponds_report (problem : Problem) :
    Corresponds place base n id (report problem) (report (problem.move place)) :=
  fun _ _ _ => rfl

theorem corresponds_reportCurrent {problem : Token → Problem}
    (h : ∀ token, problem (token.move place) = (problem token).move place) :
    Corresponds place base n id (reportCurrent problem) (reportCurrent problem) :=
  .update fun s he => by rw [State.current_move he, h, State.report_move]

theorem corresponds_expect (kind : Kind) :
    Corresponds place base n (Option.map (Token.move place)) (expect kind) (expect kind) :=
  corresponds_acceptOr kind fun s he => by
    rw [State.lastToken_move he, State.current_move he]
    rfl

theorem corresponds_takeClosing (opening : Token) (closing : Kind) :
    Corresponds place base n (Option.map (Token.move place)) (takeClosing opening closing)
      (takeClosing (opening.move place) closing) :=
  corresponds_acceptOr closing fun s he => by
    rw [State.lastToken_move he]
    rfl

theorem corresponds_fail {problem problem' : State → Problem}
    (h : ∀ s, s.Ended → problem' (s.move place base) = (problem s).move place) :
    Corresponds place base n id (fail problem) (fail problem') := by
  intro s he _
  simp only [fail, update, h s he]
  rfl

theorem corresponds_complete {e e' : Expr} (h : e.move place = e') :
    Corresponds place base n (Expr.move place) (complete e) (complete e') := by
  subst h
  exact fun _ _ _ => rfl

theorem corresponds_discardTo (completed : List Expr) :
    Corresponds place base n id (discardTo completed) 
      (discardTo (completed.map (Expr.move place) ++ base)) :=
  fun _ _ _ => rfl

theorem corresponds_dropNewlines : Corresponds place base n id dropNewlines dropNewlines :=
  .update fun s _ => s.dropNewlines_move

theorem corresponds_withNewlines {φ : α → α} {a b : Action α} (skips : Bool)
    (h : Corresponds place base n φ a b) :
    Corresponds place base n φ (withNewlines skips a) (withNewlines skips b) := by
  intro s he hl
  have ht : s.Passes { s with skipsNewlines := skips }.settle :=
    .trans (t := { s with skipsNewlines := skips }) (.of_eq rfl rfl) (State.passes_settle _)
  have hr := h _ (ht.ended he) (Nat.le_trans ht.length_le hl)
  rw [← State.settle_move] at hr
  have hb : ∀ x, b.run ({ s with skipsNewlines := skips }.move place base).settle = x →
      (withNewlines skips b).run (s.move place base) =
        (x.1, { x.2 with skipsNewlines := s.skipsNewlines }.settle) := by
    rintro _ rfl
    rfl
  rw [hb _ hr]
  exact congrArg (Prod.mk _) (State.settle_move { (a.run _).2 with skipsNewlines := _ })

theorem corresponds_inBlock {φ : α → α} {a b : Action α} (h : Corresponds place base n φ a b) :
    Corresponds place base n φ (inBlock a) (inBlock b) := by
  intro s he hl
  have hr := h { s with blockDepth := s.blockDepth + 1 } he hl
  have hb : ∀ x, b.run ({ s with blockDepth := s.blockDepth + 1 }.move place base) = x →
      (inBlock b).run (s.move place base) =
        (x.1, { x.2 with blockDepth := x.2.blockDepth - 1 }) := by
    rintro _ rfl
    rfl
  exact hb _ hr

end

end LenientR.Reading
