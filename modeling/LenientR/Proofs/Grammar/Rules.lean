import LenientR.Proofs.Grammar.Basic
import LenientR.Proofs.Reading.Progress

/-!
# Steps of reading and their rules

A `Rule` says between which tokens an action gives which answer without a problem. An action obeys a
rule if it gives exactly the answers of the rule (`Obeys`), so each lemma about an action is both the
soundness and the completeness of its rule.
-/

namespace LenientR.Reading

abbrev Rule (α : Type) := α → Trace

namespace State

def mode (s : State) : Mode := ⟨s.skipsNewlines, 0 < s.blockDepth⟩

structure Clean (s : State) : Prop where
  problems : s.problems = []
  recovering : s.recovering = false

structure Ready (n : Nat) (m : Mode) (s : State) : Prop extends s.Clean where
  mode : s.mode = m
  settled : s.Settled
  ended : s.Ended
  length_le : s.rest.length ≤ n

theorem Clean.between {s t u : State} (hs : s.Clean) (hst : s.Onward t) (htu : t.Onward u)
    (hu : u.Clean) : t.Clean := by
  have hp : t.problems = [] := List.suffix_nil.1 (hu.problems ▸ htu.problems)
  refine ⟨hp, Bool.eq_false_iff.2 fun hr => ?_⟩
  exact absurd (hst.recovering (hp.trans hs.problems.symm) hr) (by simp [hs.recovering])

theorem mode_eq_of_onward {s t : State} (h : s.Onward t) : t.mode = s.mode := by
  simp [mode, h.skipsNewlines, h.blockDepth]

theorem Ready.onward {n : Nat} {m : Mode} {s t : State} (hs : s.Ready n m) (h : s.Onward t)
    (ht : t.Clean) : t.Ready n m where
  toClean := ht
  mode := (mode_eq_of_onward h).trans hs.mode
  settled := h.settled hs.settled
  ended := h.passes.ended hs.ended
  length_le := Nat.le_trans h.passes.length_le hs.length_le

theorem Ready.mono {k n : Nat} {m : Mode} {s : State} (hs : s.Ready n m)
    (h : s.rest.length ≤ k) : s.Ready k m :=
  { hs with length_le := h }

theorem Ready.skips_eq {n : Nat} {m : Mode} {s : State} (hs : s.Ready n m) :
    s.skipsNewlines = m.skips := by
  rw [← hs.mode]
  rfl

theorem Ready.inBlock_eq {n : Nat} {m : Mode} {s : State} (hs : s.Ready n m) :
    decide (0 < s.blockDepth) = m.inBlock := by
  rw [← hs.mode]
  rfl

theorem Ready.exists_cons {n : Nat} {m : Mode} {s : State} (hs : s.Ready n m) :
    ∃ token rest, s.rest = token :: rest := by
  have h := hs.ended.length_pos
  cases hr : s.rest with
  | nil => exact absurd h (by simp [hr])
  | cons token rest => exact ⟨token, rest, rfl⟩

end State

def Gives (s : State) (action : Action α) (answer : α) (left : List Token) : Prop :=
  (action.run s).1 = answer ∧ (action.run s).2.Clean ∧ (action.run s).2.rest = left

def ObeysTo (ends : List Token → Prop) (s : State) (action : Action α) (rule : Rule α) : Prop :=
  ∀ answer left, ends left → (Gives s action answer left ↔ rule answer s.rest left)

def ObeysAt (s : State) (action : Action α) (rule : Rule α) : Prop :=
  ∀ answer left, Gives s action answer left ↔ rule answer s.rest left

/-- In a mode, with at most `n` tokens left, an action gives the answers of a rule. -/
def Obeys (n : Nat) (m : Mode) (action : Action α) (rule : Rule α) : Prop :=
  ∀ s : State, s.Ready n m → ObeysAt s action rule

def ReaderObeys (n : Nat) (readExpr : ExprReader) : Prop :=
  ∀ m level, Obeys n m (readExpr level) (Expr.Reads level m)

section
variable {n k : Nat} {m : Mode} {s : State} {action : Action α} {rule : Rule α}

theorem Obeys.mono (h : Obeys n m action rule) (hk : k ≤ n) : Obeys k m action rule :=
  fun s hs => h s (hs.mono (Nat.le_trans hs.length_le hk))

theorem ReaderObeys.mono {readExpr : ExprReader} (h : ReaderObeys n readExpr) (hk : k ≤ n) :
    ReaderObeys k readExpr :=
  fun m level => (h m level).mono hk

theorem ObeysAt.congr {rule' : Rule α} (h : ObeysAt s action rule)
    (hr : ∀ answer left, rule answer s.rest left ↔ rule' answer s.rest left) :
    ObeysAt s action rule' :=
  fun answer left => (h answer left).trans (hr answer left)

theorem ObeysAt.of_run {action' : Action α} (h : ObeysAt s action' rule)
    (hr : action.run s = action'.run s) : ObeysAt s action rule := by
  simpa only [ObeysAt, Gives, hr] using h

theorem ObeysTo.congr {ends : List Token → Prop} {rule' : Rule α} (h : ObeysTo ends s action rule)
    (hr : ∀ answer left, ends left → (rule answer s.rest left ↔ rule' answer s.rest left)) :
    ObeysTo ends s action rule' :=
  fun answer left he => (h answer left he).trans (hr answer left he)

theorem ObeysTo.of_run {ends : List Token → Prop} {action' : Action α}
    (h : ObeysTo ends s action' rule) (hr : action.run s = action'.run s) :
    ObeysTo ends s action rule := by
  simpa only [ObeysTo, Gives, hr] using h

theorem Obeys.congr {rule' : Rule α} (h : Obeys n m action rule)
    (hr : ∀ answer a b, rule answer a b ↔ rule' answer a b) : Obeys n m action rule' :=
  fun s hs => (h s hs).congr fun answer left => hr answer s.rest left

theorem State.Ready.run (hs : s.Ready n m) (hc : (action.run s).2.Clean) :
    (action.run s).2.Ready n m :=
  hs.onward (action.onward s) hc

theorem ObeysTo.bind {ends ends' : List Token → Prop} {next : α → Action β}
    {rule' : α → Rule β} (hs : s.Clean) (h : ObeysTo ends s action rule)
    (hn : (action.run s).2.Clean →
      ObeysTo ends' (action.run s).2 (next (action.run s).1) (rule' (action.run s).1))
    (he : ∀ x y b c, ends' c → rule' x y b c → ends b) :
    ObeysTo ends' s (action >>= next) fun y => .any fun x => rule x * rule' x y := by
  intro y c hend
  constructor
  · rintro ⟨hy, hc, hr⟩
    have hmid : (action.run s).2.Clean :=
      hs.between (action.onward s) ((next _).onward _) hc
    have hq := (hn hmid y c hend).1 ⟨hy, hc, hr⟩
    exact ⟨_, _, (h _ _ (he _ _ _ _ hend hq)).1 ⟨rfl, hmid, rfl⟩, hq⟩
  · rintro ⟨x, b, hx, hy⟩
    obtain ⟨rfl, hmid, rfl⟩ := (h x b (he x y b c hend hy)).2 hx
    exact (hn hmid y c hend).2 hy

theorem obeysTo_true : ObeysTo (fun _ => True) s action rule ↔ ObeysAt s action rule :=
  ⟨fun h x b => h x b trivial, fun h x b _ => h x b⟩

theorem ObeysAt.to {ends : List Token → Prop} (h : ObeysAt s action rule) :
    ObeysTo ends s action rule :=
  fun x b _ => h x b

theorem ObeysAt.bind {next : α → Action β} {q : α → Rule β} (hs : s.Clean)
    (h : ObeysAt s action rule)
    (hn : (action.run s).2.Clean →
      ObeysAt (action.run s).2 (next (action.run s).1) (q (action.run s).1)) :
    ObeysAt s (action >>= next) fun y => .any fun x => rule x * q x y :=
  obeysTo_true.1 <| (obeysTo_true.2 h).bind hs (fun hc => (hn hc).to)
    fun _ _ _ _ _ _ => trivial

theorem Obeys.bind {next : α → Action β} {rule' : α → Rule β} (h : Obeys n m action rule)
    (hn : ∀ x, Obeys n m (next x) (rule' x)) :
    Obeys n m (action >>= next) fun y => .any fun x => rule x * rule' x y :=
  fun s hs => (h s hs).bind hs.toClean fun hc => hn _ _ (hs.run hc)

/-- An action whose answer does not matter, and another one after it. -/
theorem Obeys.seq {action : Action Unit} {trace : Trace} {next : Action β} {rule' : Rule β}
    (h : Obeys n m action fun _ => trace) (hn : Obeys n m next rule') :
    Obeys n m (action >>= fun _ => next) fun y => trace * rule' y :=
  (h.bind fun _ => hn).congr fun _ _ _ => ⟨fun ⟨_, h⟩ => h, fun h => ⟨(), h⟩⟩

theorem obeysAt_pure (hs : s.Clean) (x : α) :
    ObeysAt s (pure x) fun y => .given (y = x) 1 := by
  intro y b
  constructor
  · rintro ⟨rfl, _, rfl⟩
    exact ⟨rfl, rfl⟩
  · rintro ⟨rfl, rfl⟩
    exact ⟨rfl, hs, rfl⟩

theorem obeys_pure (x : α) : Obeys n m (pure x) fun y => .given (y = x) 1 :=
  fun _ hs => obeysAt_pure hs.toClean x

theorem obeys_complete (e : Expr) : Obeys n m (complete e) fun x => .given (x = e) 1 := by
  intro s hs x b
  constructor
  · rintro ⟨rfl, _, rfl⟩
    exact ⟨rfl, rfl⟩
  · rintro ⟨rfl, rfl⟩
    exact ⟨rfl, ⟨hs.problems, hs.recovering⟩, rfl⟩

theorem Obeys.bind_complete (h : Obeys n m action rule) (f : α → Expr) :
    Obeys n m (action >>= fun x => complete (f x)) fun e => .any fun x => .given (e = f x) (rule x) :=
  (h.bind fun x => obeys_complete (f x)).congr fun e a b => by simp

theorem Obeys.map (h : Obeys n m action rule) (f : α → β) :
    Obeys n m (f <$> action) fun y => .any fun x => .given (y = f x) (rule x) := by
  intro s hs y b
  constructor
  · rintro ⟨rfl, hc, rfl⟩
    exact ⟨_, rfl, (h s hs _ _).1 ⟨rfl, hc, rfl⟩⟩
  · rintro ⟨x, rfl, hx⟩
    obtain ⟨rfl, hc, rfl⟩ := (h s hs x b).2 hx
    exact ⟨rfl, hc, rfl⟩

theorem obeysAt_never (h : ¬(action.run s).2.Clean) : ObeysAt s action fun _ => .never :=
  fun _ _ => ⟨fun ⟨_, hc, _⟩ => h hc, fun hf => hf.elim⟩

theorem not_clean_report (s : State) (problem : Problem) : ¬(s.report problem).Clean :=
  fun h => List.cons_ne_nil _ _ h.problems

theorem obeysAt_reportCurrent (problem : Token → Problem) :
    ObeysAt s (reportCurrent problem) fun _ => .never :=
  obeysAt_never (not_clean_report s _)

theorem obeysAt_fail (problem : State → Problem) : ObeysAt s (fail problem) fun _ => .never :=
  obeysAt_never fun h => List.cons_ne_nil _ _ h.problems

theorem ObeysAt.bind_never {next : α → Action β} (hs : s.Clean)
    (h : ObeysAt s action fun _ => .never) : ObeysAt s (action >>= next) fun _ => .never := by
  refine obeysAt_never fun hc => ?_
  have hmid := hs.between (action.onward s) ((next _).onward _) hc
  exact (h _ _).1 ⟨rfl, hmid, rfl⟩

-- ---------------------------------------------------------------------------
-- Tokens
-- ---------------------------------------------------------------------------

theorem clean_advance (hs : s.Clean) : s.advance.Clean := by
  obtain ⟨hp, hr⟩ := hs
  unfold State.advance State.settle
  split
  · exact ⟨hp, hr⟩
  · dsimp only
    split
    · exact ⟨hp, hr⟩
    · split <;> exact ⟨hp, hr⟩

theorem rest_advance (hs : s.Ready n m) {token : Token} {rest : List Token}
    (hr : s.rest = token :: rest) (he : token.kind ≠ .endOfFile) :
    s.advance.rest = m.settle rest := by
  unfold State.advance State.settle
  rw [hr]
  simp only [he, if_false, hs.skips_eq, Mode.settle]
  split <;> rfl

theorem gives_advance (hs : s.Ready n m) {f : Kind → Bool} (hf : f .endOfFile = false)
    (hk : f s.kind = true) (token : Token) (left : List Token) :
    (s.current = token ∧ s.advance.Clean ∧ s.advance.rest = left) ↔
      token.taken f m s.rest left := by
  obtain ⟨t, rest, hr⟩ := hs.exists_cons
  have he : t.kind ≠ .endOfFile := fun h => by
    rw [State.kind_cons hr, h, hf] at hk
    cases hk
  rw [Token.taken_apply, rest_advance hs hr he, s.headKind_rest, hr]
  simp [hk, clean_advance hs.toClean, State.current, hr]

theorem obeysAt_advance (hs : s.Ready n m) {f : Kind → Bool} (hf : f .endOfFile = false)
    (hk : f s.kind = true) : ObeysAt s advance fun token => token.taken f m :=
  fun token left => gives_advance hs hf hk token left

/-- What comes after a token of a kind that is known to fit, with one token less left. -/
theorem obeysAt_advance_bind_lt (hs : s.Ready (n + 1) m) {f : Kind → Bool}
    (hf : f .endOfFile = false) (hk : f s.kind = true) {next : Token → Action β}
    {rule' : Token → Rule β}
    (hn : ∀ token : Token, f token.kind = true → Obeys n m (next token) (rule' token)) :
    ObeysAt s (advance >>= next) fun y => .any fun token => token.taken f m * rule' token y := by
  refine (obeysAt_advance hs hf hk).bind hs.toClean fun hc =>
    hn s.current hk _ ((hs.run hc).mono (Nat.le_of_lt_succ ?_))
  have hne : s.kind ≠ .endOfFile := fun h => by
    rw [h, hf] at hk
    cases hk
  exact Nat.lt_of_lt_of_le (State.length_advance_lt hne) hs.length_le

theorem obeysAt_advance_bind_of (hs : s.Ready n m) {f : Kind → Bool} (hf : f .endOfFile = false)
    (hk : f s.kind = true) {next : Token → Action β} {rule' : Token → Rule β}
    (hn : ∀ token : Token, f token.kind = true → Obeys n m (next token) (rule' token)) :
    ObeysAt s (advance >>= next) fun y => .any fun token => token.taken f m * rule' token y :=
  (obeysAt_advance hs hf hk).bind hs.toClean fun hc => hn s.current hk _ (hs.run hc)

theorem obeysAt_advance_bind (hs : s.Ready n m) {f : Kind → Bool} (hf : f .endOfFile = false)
    (hk : f s.kind = true) {next : Token → Action β} {rule' : Token → Rule β}
    (hn : ∀ token, Obeys n m (next token) (rule' token)) :
    ObeysAt s (advance >>= next) fun y => .any fun token => token.taken f m * rule' token y :=
  obeysAt_advance_bind_of hs hf hk fun token _ => hn token

def optionalToken (kind : Kind) (m : Mode) : Rule (Option Token)
  | some token => token.taken (· = kind) m
  | none => .check fun a => headKind a ≠ kind

theorem obeys_accept {kind : Kind} (hk : kind ≠ .endOfFile) :
    Obeys n m (accept kind) (optionalToken kind m) := by
  intro s hs answer left
  by_cases h : s.kind = kind
  · have hrun : (accept kind).run s = (some s.current, s.advance) := if_pos h
    rw [Gives, hrun]
    cases answer with
    | none => exact ⟨fun hg => (nomatch hg.1), fun hn => absurd h hn.1⟩
    | some token =>
      rw [Option.some_inj]
      exact gives_advance (f := (· = kind)) hs (decide_eq_false (Ne.symm hk)) (decide_eq_true h)
        token left
  · have hrun : (accept kind).run s = (none, s) := if_neg h
    rw [Gives, hrun]
    cases answer with
    | none => exact ⟨fun hg => ⟨h, hg.2.2⟩, fun hn => ⟨rfl, hs.toClean, hn.2⟩⟩
    | some token =>
      refine ⟨fun hg => (nomatch hg.1), fun ht => ?_⟩
      obtain ⟨hk, _⟩ := Token.taken_apply.1 (show token.taken (· = kind) m s.rest left from ht)
      exact absurd (of_decide_eq_true hk) h

def requiredToken (fits : Kind → Bool) (m : Mode) : Rule (Option Token)
  | some token => token.taken fits m
  | none => .never

theorem requiredToken_iff {f : Kind → Bool} {token : Option Token} {a b : List Token} :
    requiredToken f m token a b ↔ ∃ found, found.taken f m a b ∧ token = some found := by
  cases token with
  | none => exact ⟨fun h => h.elim, fun ⟨_, _, h⟩ => (nomatch h)⟩
  | some token => exact ⟨fun h => ⟨token, h, rfl⟩, fun ⟨_, h, hf⟩ => by cases hf; exact h⟩

theorem headKind_of_requiredToken {f : Kind → Bool} {token : Option Token} {a b : List Token}
    (h : requiredToken f m token a b) : f (headKind a) = true := by
  obtain ⟨found, hf, _⟩ := requiredToken_iff.1 h
  exact (Token.taken_apply.1 hf).1

theorem obeysAt_requiredToken (hs : s.Ready n m) {f : Kind → Bool} (hf : f .endOfFile = false)
    {action : Action (Option Token)} {problem : Problem}
    (hy : f s.kind = true → action.run s = (some s.current, s.advance))
    (hn : ¬f s.kind = true → action.run s = (none, s.report problem)) :
    ObeysAt s action (requiredToken f m) := by
  intro answer left
  by_cases h : f s.kind = true
  · rw [Gives, hy h]
    cases answer with
    | none => exact ⟨fun hg => (nomatch hg.1), fun ht => ht.elim⟩
    | some token =>
      rw [Option.some_inj]
      exact gives_advance hs hf h token left
  · rw [Gives, hn h]
    exact ⟨fun hg => absurd hg.2.1 (not_clean_report s _),
      fun ht => absurd (headKind_of_requiredToken ht) h⟩

theorem obeys_acceptOr {kind : Kind} (hk : kind ≠ .endOfFile) (problem : State → Problem) :
    Obeys n m (acceptOr kind problem) (requiredToken (· = kind) m) :=
  fun _ hs => obeysAt_requiredToken hs (decide_eq_false (Ne.symm hk))
    (fun h => if_pos (of_decide_eq_true h)) fun h => if_neg fun hk => h (decide_eq_true hk)

theorem Obeys.bind_required {f : Kind → Bool} {action : Action (Option Token)}
    {next : Option Token → Action β} {rule' : Token → Rule β}
    (h : Obeys n m action (requiredToken f m))
    (hn : ∀ token, Obeys n m (next (some token)) (rule' token)) :
    Obeys n m (action >>= next) fun y => .any fun token => token.taken f m * rule' token y := by
  intro s hs
  let rule'' : Option Token → Rule β
    | some token => rule' token
    | none => fun _ => .never
  refine ((h s hs).bind (q := rule'') hs.toClean fun hc => ?_).congr fun y c => ?_
  · obtain ⟨token, _, ht⟩ := requiredToken_iff.1 ((h s hs _ _).1 ⟨rfl, hc, rfl⟩)
    rw [ht]
    exact hn token _ (hs.run hc)
  · constructor
    · rintro ⟨x, b, hx, hy⟩
      obtain ⟨token, ht, rfl⟩ := requiredToken_iff.1 hx
      exact ⟨token, b, ht, hy⟩
    · rintro ⟨token, b, ht, hy⟩
      exact ⟨some token, b, ht, hy⟩

-- ---------------------------------------------------------------------------
-- Modes
-- ---------------------------------------------------------------------------

theorem obeys_dropNewlines : Obeys n m dropNewlines fun _ => .lines :=
  fun _ hs _ _ => ⟨fun ⟨_, _, hr⟩ => hr, fun h => ⟨rfl, ⟨hs.problems, hs.recovering⟩, h⟩⟩

theorem clean_settle_iff (t : State) : t.settle.Clean ↔ t.Clean := by
  obtain ⟨_, _, hp, hr⟩ := State.settle_frame t
  exact ⟨fun h => ⟨hp ▸ h.problems, hr ▸ h.recovering⟩,
    fun h => ⟨hp ▸ h.problems, hr ▸ h.recovering⟩⟩

theorem rest_settle_of_ne (h : headKind s.rest ≠ .endOfLine) : s.settle.rest = s.rest := by
  unfold State.settle
  split
  · exact skipLines_of_ne h
  · rfl

theorem ready_bracketed (hs : s.Ready n m) :
    { s with skipsNewlines := true }.settle.Ready n m.bracketed where
  toClean := (clean_settle_iff _).2 ⟨hs.problems, hs.recovering⟩
  mode := congrArg (Mode.mk true) hs.inBlock_eq
  settled := State.settled_settle _
  ended := (State.passes_dropNewlines s).ended hs.ended
  length_le := Nat.le_trans (State.passes_dropNewlines s).length_le hs.length_le

/-- Within brackets an action starts at the first token that is no newline. -/
theorem ObeysTo.bracketed {ends : List Token → Prop} (hs : s.Ready n m)
    (h : ∀ t : State, t.Ready n m.bracketed → ObeysTo ends t action rule) :
    ObeysTo ends s (withNewlines true action) fun x => .lines * rule x := by
  let inner := { s with skipsNewlines := true }.settle
  have hready : inner.Ready n m.bracketed := ready_bracketed hs
  intro x b hb
  have hi := h inner hready x b hb
  rw [show inner.rest = skipLines s.rest from rfl] at hi
  rw [Trace.lines_mul, ← hi]
  -- newlines are skipped when the action ends, so none is skipped on leaving the brackets
  have hk : headKind (action.run inner).2.rest ≠ .endOfLine := by
    have ho := action.onward inner
    exact ho.settled hready.settled (ho.skipsNewlines.trans hready.skips_eq)
  have hr : ({ (action.run inner).2 with skipsNewlines := s.skipsNewlines }).settle.rest =
      (action.run inner).2.rest := rest_settle_of_ne hk
  have hc : ({ (action.run inner).2 with skipsNewlines := s.skipsNewlines }).settle.Clean ↔
      (action.run inner).2.Clean :=
    (clean_settle_iff _).trans ⟨fun h => ⟨h.problems, h.recovering⟩,
      fun h => ⟨h.problems, h.recovering⟩⟩
  exact and_congr Iff.rfl (and_congr hc (by rw [← hr]; rfl))

theorem obeys_bracketed (h : Obeys n m.bracketed action rule) :
    Obeys n m (withNewlines true action) fun x => .lines * rule x :=
  fun _ hs => obeysTo_true.1 (.bracketed hs fun t ht => (h t ht).to)

/-- A block ends at a token that is no newline, so none is skipped on leaving it. -/
theorem obeys_inBlock (h : Obeys n .block action rule)
    (hn : ∀ x a b, rule x a b → headKind b ≠ .endOfLine) :
    Obeys n m (withNewlines false (inBlock action)) rule := by
  intro s hs x b
  let inner : State := { s with skipsNewlines := false, blockDepth := s.blockDepth + 1 }
  have hready : inner.Ready n .block :=
    { problems := hs.problems
      recovering := hs.recovering
      mode := by simp [State.mode, Mode.block, inner]
      settled := fun h => nomatch h
      ended := hs.ended
      length_le := hs.length_le }
  have hi := h inner hready
  let left : State := { (action.run inner).2 with
    skipsNewlines := s.skipsNewlines
    blockDepth := (action.run inner).2.blockDepth - 1 }
  have hrun : (withNewlines false (inBlock action)).run s =
      ((action.run inner).1, left.settle) := rfl
  have hc : left.settle.Clean ↔ (action.run inner).2.Clean :=
    (clean_settle_iff _).trans ⟨fun h => ⟨h.problems, h.recovering⟩,
      fun h => ⟨h.problems, h.recovering⟩⟩
  have hr (hk : headKind (action.run inner).2.rest ≠ .endOfLine) :
      left.settle.rest = (action.run inner).2.rest := rest_settle_of_ne hk
  rw [Gives, hrun, hc]
  constructor
  · rintro ⟨rfl, hclean, rfl⟩
    have hg := (hi _ _).1 ⟨rfl, hclean, rfl⟩
    rw [hr (hn _ _ _ hg)]
    exact hg
  · intro hx
    obtain ⟨rfl, hclean, rfl⟩ := (hi x b).2 hx
    exact ⟨rfl, hclean, hr (hn _ _ _ hx)⟩

-- ---------------------------------------------------------------------------
-- Recovery
-- ---------------------------------------------------------------------------

theorem obeys_recoverIfNeeded (stops : Kind → Bool) :
    Obeys n m (recoverIfNeeded stops) fun _ => 1 := by
  intro s hs x b
  have hrun : ((recoverIfNeeded stops).run s).2 = s := if_neg (by simp [hs.recovering])
  rw [Gives, hrun]
  exact ⟨fun h => h.2.2, fun h => ⟨rfl, hs.toClean, h⟩⟩

theorem obeys_unexpectedUnless (fits : Kind → Bool) :
    Obeys n m (unexpectedUnless fits) fun _ => .check fun a => fits (headKind a) = true := by
  intro s hs x b
  by_cases h : fits s.kind = true
  · have hrun : ((unexpectedUnless fits).run s).2 = s := if_pos (by simp [h])
    rw [Gives, hrun]
    exact ⟨fun hg => ⟨h, hg.2.2⟩, fun hg => ⟨rfl, hs.toClean, hg.2⟩⟩
  · have hrun : ((unexpectedUnless fits).run s).2 = s.fail (.unexpectedToken s.current) :=
      if_neg (by simp [h, hs.recovering])
    rw [Gives, hrun]
    exact ⟨fun hg => absurd hg.2.1.problems (List.cons_ne_nil _ _), fun hg => absurd hg.1 h⟩

end

end LenientR.Reading
