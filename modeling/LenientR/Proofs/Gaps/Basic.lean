import LenientR.Proofs.Lists.Accounts

/-!
# Gaps and their reports

A gap is a place of the tree where a token is missing, or a token that stands for what cannot be
read. To each kind of gap belongs a problem that names the token the gap is at: its own token, the
bracket that is not closed, or what stands right behind the token before it. `Expr.Reported` asks for
these problems; more problems never take them away.
-/

namespace LenientR

def Token.Precedes (tokens : List Token) (token next : Token) : Prop :=
  ∃ front lines back, tokens = front ++ token :: (lines ++ next :: back) ∧
    ∀ line ∈ lines, line.kind = .endOfLine

section
variable (tokens : List Token) (problems : List Problem)

def ClosingReported (opening : Token) (closing : Option Token) : Prop :=
  closing = none → ∃ after, .missingClosing opening after ∈ problems

def OpeningReported (keyword : Token) (opening : Option Token) : Prop :=
  opening = none → ∃ next, keyword.Precedes tokens next ∧
    .expected .leftParen keyword next ∈ problems

def NameReported (before : Token) (name : Option Token) : Prop :=
  name = none → ∃ next, before.Precedes tokens next ∧ .expectedIdentifier next ∈ problems

structure BracketsReported (keyword : Token) (opening closing : Option Token) : Prop where
  opened : OpeningReported tokens problems keyword opening
  closed : ∀ token ∈ opening, ClosingReported problems token closing

structure LoopHeadReported (before : Token) (loopVar inWord : Option Token) : Prop where
  named : NameReported tokens problems before loopVar
  word : inWord = none → ∃ next, (loopVar.getD before).Precedes tokens next ∧
    .expected .inWord (loopVar.getD before) next ∈ problems

def Item.Reported : Item → Prop
  | .named _ (some equals) none _ =>
    ∃ next, equals.Precedes tokens next ∧ .expectedExpression next ∈ problems
  | .missing comma => ∃ token ∈ comma, .expectedParameter token ∈ problems
  | _ => True

/-- Each gap of a node is reported, those of the nodes below aside. -/
def Expr.Reported : Expr → Prop
  | .block opening _ closing | .call _ opening _ closing | .group opening _ closing =>
    ClosingReported problems opening closing
  | .forLoop keyword opening loopVar inWord _ closing _ =>
    BracketsReported tokens problems keyword opening closing ∧
      LoopHeadReported tokens problems (opening.getD keyword) loopVar inWord
  | .function keyword opening parameters closing body =>
    BracketsReported tokens problems keyword opening closing ∧
      (∀ item ∈ parameters, item.Reported tokens problems) ∧ (body = none → closing = none)
  | .conditional keyword opening _ closing _ _ | .whileLoop keyword opening _ closing _ =>
    BracketsReported tokens problems keyword opening closing
  | .index _ opening _ closing =>
    ClosingReported problems opening closing.head? ∧
      ∀ first, opening.kind = .leftDoubleSquare → closing = [first] →
        ∃ next, .expected .rightSquare first next ∈ problems
  | .literal token => token.kind = .invalidNumber → .invalidNumber token ∈ problems
  | .member _ operator name | .namespaced _ operator name =>
    NameReported tokens problems operator name
  | .invalid token =>
    .expectedExpression token ∈ problems ∨ .unknownCharacter token ∈ problems ∨
      .unterminatedString token ∈ problems
  | .assignment _ _ _ | .binary _ _ _ | .control _ | .repeatLoop _ _ | .unary _ _ | .var _ => True

end

-- ---------------------------------------------------------------------------
-- What is there
-- ---------------------------------------------------------------------------

section
variable {tokens : List Token} {problems : List Problem} {token : Token}

theorem closingReported_some (closing : Token) : ClosingReported problems token (some closing) :=
  fun hn => absurd hn (Option.some_ne_none closing)

theorem openingReported_some (opening : Token) :
    OpeningReported tokens problems token (some opening) :=
  fun hn => absurd hn (Option.some_ne_none opening)

theorem nameReported_some (name : Token) : NameReported tokens problems token (some name) :=
  fun hn => absurd hn (Option.some_ne_none name)

end

-- ---------------------------------------------------------------------------
-- More problems
-- ---------------------------------------------------------------------------

section
variable {tokens : List Token} {problems more : List Problem} {token : Token}
  {opening closing name word : Option Token} (hm : problems ⊆ more)
include hm

theorem ClosingReported.mono (h : ClosingReported problems token closing) :
    ClosingReported more token closing :=
  fun hn => (h hn).imp fun _ hp => hm hp

theorem OpeningReported.mono (h : OpeningReported tokens problems token opening) :
    OpeningReported tokens more token opening :=
  fun hn => (h hn).imp fun _ hp => ⟨hp.1, hm hp.2⟩

theorem NameReported.mono (h : NameReported tokens problems token name) :
    NameReported tokens more token name :=
  fun hn => (h hn).imp fun _ hp => ⟨hp.1, hm hp.2⟩

theorem BracketsReported.mono (h : BracketsReported tokens problems token opening closing) :
    BracketsReported tokens more token opening closing :=
  ⟨h.opened.mono hm, fun token ht => (h.closed token ht).mono hm⟩

theorem LoopHeadReported.mono (h : LoopHeadReported tokens problems token name word) :
    LoopHeadReported tokens more token name word :=
  ⟨h.named.mono hm, fun hn => (h.word hn).imp fun _ hp => ⟨hp.1, hm hp.2⟩⟩

theorem Item.Reported.mono {item : Item} (h : item.Reported tokens problems) :
    item.Reported tokens more := by
  rcases item with _ | ⟨_, _ | equals, _ | value, _⟩ | _ | comma | _ | _
  case named.some.none => exact h.imp fun _ hp => ⟨hp.1, hm hp.2⟩
  case missing => exact h.imp fun _ hp => ⟨hp.1, hm hp.2⟩
  all_goals trivial

theorem Expr.Reported.mono {e : Expr} (h : e.Reported tokens problems) :
    e.Reported tokens more := by
  cases e with
  | block | call | group => exact ClosingReported.mono hm h
  | forLoop => exact ⟨h.1.mono hm, h.2.mono hm⟩
  | function => exact ⟨h.1.mono hm, fun item hi => (h.2.1 item hi).mono hm, h.2.2⟩
  | conditional | whileLoop => exact BracketsReported.mono hm h
  | index =>
    exact ⟨h.1.mono hm, fun first hk hc => (h.2 first hk hc).imp fun _ hp => hm hp⟩
  | literal => exact fun hk => hm (h hk)
  | member | namespaced => exact NameReported.mono hm h
  | invalid => exact h.imp (hm ·) (·.imp (hm ·) (hm ·))
  | assignment | binary | control | repeatLoop | unary | var => trivial

end

namespace Reading

variable {tokens : List Token} {n : Nat} {readExpr : ExprReader}

-- ---------------------------------------------------------------------------
-- What reading keeps
-- ---------------------------------------------------------------------------

theorem State.previous_settle (s : State) : s.settle.previous = s.previous := by
  unfold settle
  split <;> rfl

theorem State.Amid.precedes {s : State} {token : Token} (h : s.Amid tokens n)
    (hp : s.previous = some token) : token.Precedes tokens s.current := by
  obtain ⟨gone, hg, _, hl⟩ := h.passes
  obtain ⟨rest, hr⟩ := h.rest_eq_cons
  have hcounted : ∃ token ∈ gone, token.kind ≠ .endOfLine := by
    by_contra hn
    rw [State.lastCounted_newlines (by simpa using hn), hp] at hl
    cases hl
  obtain ⟨front, last, lines, rfl, _, hlines, hlast⟩ := State.exists_counted hcounted
  obtain rfl : last = token := Option.some.inj (((hlast _).symm.trans hl.symm).trans hp)
  refine ⟨front, lines, rest, ?_, hlines⟩
  rw [show tokens = _ from hg, hr, List.append_assoc, List.cons_append]

def AllReported (tokens : List Token) (s : State) : Prop :=
  ∀ e ∈ s.completed, e.Reported tokens s.problems

theorem AllReported.onward {s t : State} (h : AllReported tokens s) (hp : s.problems ⊆ t.problems)
    (hc : t.completed = s.completed) : AllReported tokens t := by
  intro e he
  rw [hc] at he
  exact (h e he).mono hp

theorem AllReported.settle {s : State} (h : AllReported tokens s) (skips : Bool) :
    AllReported tokens { s with skipsNewlines := skips }.settle := by
  refine h.onward ?_ (State.completed_settle _)
  rw [(State.settle_frame _).2.2.1]
  exact List.Subset.refl _

def Keeps (tokens : List Token) (n : Nat) (action : Action α) : Prop :=
  Triple tokens n (AllReported tokens) action fun _ => AllReported tokens

def ReaderKeeps (tokens : List Token) (n : Nat) (readExpr : ExprReader) : Prop :=
  ∀ level, Keeps tokens n (readExpr level)

/-- An action that, right after a token, finds something of which a fact is reported. -/
def Finds (tokens : List Token) (n : Nat) (before : Token) (action : Action α)
    (fact : α → List Problem → Prop) : Prop :=
  Triple tokens n (fun s => AllReported tokens s ∧ s.previous = some before) action
    fun x s => AllReported tokens s ∧ fact x s.problems

namespace Keeps

variable {action : Action α}

theorem quiet (h : ∀ s, (action.run s).2.completed = s.completed) : Keeps tokens n action :=
  fun s _ hs => hs.onward (action.onward s).problems.subset (h s)

theorem pure (x : α) : Keeps tokens n (pure x) := Triple.pure fun _ => id

theorem bind {next : α → Action β} (h : Keeps tokens n action) (hn : ∀ x, Keeps tokens n (next x)) :
    Keeps tokens n (action >>= next) :=
  Triple.bind h hn

theorem look_bind {view : State → β} {next : β → Action α} (h : ∀ x, Keeps tokens n (next x)) :
    Keeps tokens n (look view >>= next) :=
  Triple.look_bind fun x => (h x).mono (fun _ h => h.2) fun _ _ => id

theorem ite {c : Prop} [Decidable c] {a b : Action α} (h : c → Keeps tokens n a)
    (h' : ¬c → Keeps tokens n b) : Keeps tokens n (if c then a else b) :=
  Triple.ite h h'

theorem map {f : α → β} (h : Keeps tokens n action) : Keeps tokens n (f <$> action) :=
  Triple.map h fun _ _ => id

theorem inBlock (h : Keeps tokens n action) : Keeps tokens n (inBlock action) :=
  fun s ha => h { s with blockDepth := s.blockDepth + 1 } (ha.onward (.of_eq rfl rfl))

theorem carry (h : Keeps tokens n action) (fact : List Problem → Prop)
    (hf : ∀ {problems more}, problems ⊆ more → fact problems → fact more) :
    Triple tokens n (fun s => AllReported tokens s ∧ fact s.problems) action
      fun _ s => AllReported tokens s ∧ fact s.problems :=
  fun s ha hs => ⟨h s ha hs.1, hf (action.onward s).problems.subset hs.2⟩

theorem finds (h : Keeps tokens n action) {before : Token} {fact : α → List Problem → Prop}
    (hf : ∀ s, s.Amid tokens n → s.previous = some before →
      fact (action.run s).1 (action.run s).2.problems) : Finds tokens n before action fact :=
  fun s ha hs => ⟨h s ha hs.1, hf s ha hs.2⟩

theorem withNewlines_of {P : State → Prop} {Q : α → State → Prop} (skips : Bool)
    (hp : ∀ s, P s → P { s with skipsNewlines := skips }.settle)
    (hq : ∀ x s skips, Q x s → Q x { s with skipsNewlines := skips }.settle)
    (h : Triple tokens n P action Q) : Triple tokens n P (withNewlines skips action) Q := by
  intro s ha hs
  have hpasses : s.Passes { s with skipsNewlines := skips }.settle :=
    .trans (t := { s with skipsNewlines := skips }) (.of_eq rfl rfl) (State.passes_settle _)
  exact hq _ _ s.skipsNewlines (h _ (ha.onward hpasses) (hp s hs))

theorem withNewlines (skips : Bool) (h : Keeps tokens n action) :
    Keeps tokens n (withNewlines skips action) :=
  withNewlines_of skips (fun _ hs => hs.settle skips) (fun _ _ skips hs => hs.settle skips) h

end Keeps

theorem Finds.withNewlines {action : Action α} {before : Token} {fact : α → List Problem → Prop}
    (skips : Bool) (h : Finds tokens n before action fact) :
    Finds tokens n before (withNewlines skips action) fact := by
  refine Keeps.withNewlines_of skips ?_ ?_ h
  · intro s hs
    exact ⟨hs.1.settle skips, (State.previous_settle _).trans hs.2⟩
  · intro x s skips hs
    refine ⟨hs.1.settle skips, ?_⟩
    rw [(State.settle_frame _).2.2.1]
    exact hs.2

theorem AllReported.complete {s : State} {e : Expr} (h : AllReported tokens s)
    (he : e.Reported tokens s.problems) : AllReported tokens ((complete e).run s).2 :=
  List.forall_mem_cons.2 ⟨he, h⟩

theorem keeps_complete {e : Expr} (h : ∀ problems, e.Reported tokens problems) :
    Keeps tokens n (complete e) :=
  fun s _ hs => hs.complete (h s.problems)

theorem keeps_advance : Keeps tokens n advance := .quiet State.completed_advance

theorem keeps_acceptOr (kind : Kind) (problem : State → Problem) :
    Keeps tokens n (acceptOr kind problem) :=
  .quiet fun s => by
    rcases acceptOr_run kind problem s with ⟨_, hrun⟩ | ⟨_, hrun⟩ <;> rw [hrun]
    · exact s.completed_advance
    · rfl

theorem keeps_accept (kind : Kind) : Keeps tokens n (accept kind) :=
  .quiet fun s => by
    simp only [accept]
    split
    · exact s.completed_advance
    · rfl

theorem keeps_unexpectedUnless (fits : Kind → Bool) : Keeps tokens n (unexpectedUnless fits) :=
  .quiet fun s => by
    simp only [unexpectedUnless, update]
    split <;> rfl

theorem keeps_recoverIfNeeded (stops : Kind → Bool) : Keeps tokens n (recoverIfNeeded stops) :=
  .quiet fun s => by
    simp only [recoverIfNeeded, update]
    split
    · exact s.completed_recover stops
    · rfl

theorem keeps_skipToClosing : Keeps tokens n skipToClosing :=
  (keeps_unexpectedUnless _).bind fun _ => keeps_recoverIfNeeded _

theorem keeps_readAfterNewlines (hr : ReaderKeeps tokens n readExpr) (level : Level) :
    Keeps tokens n (readAfterNewlines readExpr level) :=
  (Keeps.quiet fun _ => rfl).bind fun _ => hr level

theorem closingReported_takeClosing (opening : Token) (closing : Kind) (s : State) :
    let found := (takeClosing opening closing).run s
    ClosingReported found.2.problems opening found.1 := by
  rcases acceptOr_run closing (fun s => .missingClosing opening s.lastToken) s with
    ⟨_, hrun⟩ | ⟨_, hrun⟩ <;> rw [show (takeClosing opening closing).run s = _ from hrun]
  · exact closingReported_some _
  · exact fun _ => ⟨_, List.mem_cons_self⟩

theorem keeps_closed {opening : Token} {closing : Kind} {e : Option Token → Expr}
    (he : ∀ problems found, ClosingReported problems opening found →
      (e found).Reported tokens problems) :
    Keeps tokens n (takeClosing opening closing >>= fun found => complete (e found)) := by
  refine Triple.bind
    (Q := fun found s => AllReported tokens s ∧ ClosingReported s.problems opening found) ?_ ?_
  · exact fun s ha hs => ⟨keeps_acceptOr _ _ s ha hs, closingReported_takeClosing opening closing s⟩
  · exact fun found s _ hs => hs.1.complete (he s.problems found hs.2)

theorem finds_readName (operator : Token) :
    Finds tokens n operator readName fun name problems =>
      NameReported tokens problems operator name := by
  rintro s ha ⟨hs, hp⟩
  simp only [readName]
  split
  · exact ⟨hs.onward s.onward_advance.problems.subset s.completed_advance, nameReported_some _⟩
  · refine ⟨hs.onward (List.subset_cons_self _ _) rfl, fun _ => ?_⟩
    exact ⟨s.current, ha.precedes hp, List.mem_cons_self⟩

end Reading

end LenientR
