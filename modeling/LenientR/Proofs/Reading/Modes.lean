import LenientR.Proofs.Reading.Restored

/-!
# The modes that constructs set and restore

Round and square brackets have newlines skipped within them, blocks have them count and are one more
block to be in. What a reader of expressions would do in other modes makes no difference to them
(`agree_readGroup`, `agree_readList`, `run_readBracketed_congr`, `agree_readBlock`). After them
reading is in the modes it was in before, and so it is after every other construct and after all
they are made of (`modes_restored`).
-/

namespace LenientR.Reading

variable {skips : Bool} {depth bound : Nat} {readExpr readExpr' : ExprReader} {s : State}

structure State.InMode (skips : Bool) (depth : Nat) (s : State) : Prop extends s.InOrder where
  skipsNewlines : s.skipsNewlines = skips
  blockDepth : s.blockDepth = depth

namespace State.InMode

theorem run (hs : s.InMode skips depth) (action : Action α) :
    (action.run s).2.InMode skips depth :=
  have hr := hs.toInOrder.restored_run action
  ⟨hr.toInOrder, hr.skipsNewlines.trans hs.skipsNewlines, hr.blockDepth.trans hs.blockDepth⟩

theorem settle (hs : s.InMode skips depth) (inside : Bool) :
    ({ s with skipsNewlines := inside } : State).settle.InMode inside depth := by
  obtain ⟨hskips, hdepth, _⟩ := State.settle_frame { s with skipsNewlines := inside }
  obtain ⟨gone, hgone, hn, _⟩ := State.passes_settle { s with skipsNewlines := inside }
  have hends : EndsOnce s.rest := hs.endsOnce
  exact ⟨⟨(hgone ▸ hends).of_append hn, State.settled_settle _⟩, hskips,
    hdepth.trans hs.blockDepth⟩

theorem inBlock (hs : s.InMode skips depth) :
    ({ s with blockDepth := s.blockDepth + 1 } : State).InMode skips (depth + 1) :=
  ⟨⟨hs.endsOnce, hs.settled⟩, hs.skipsNewlines, congrArg (· + 1) hs.blockDepth⟩

end State.InMode

def Agree (skips : Bool) (depth : Nat) (a b : Action α) : Prop :=
  ∀ s, s.InMode skips depth → a.run s = b.run s

def ReadersAgree (skips : Bool) (depth : Nat) (readExpr readExpr' : ExprReader) : Prop :=
  ∀ level, Agree skips depth (readExpr level) (readExpr' level)

namespace Agree

variable {a b : Action α}

theorem refl (a : Action α) : Agree skips depth a a := fun _ _ => rfl

theorem bind {next next' : α → Action β} (h : Agree skips depth a b)
    (hn : ∀ x, Agree skips depth (next x) (next' x)) :
    Agree skips depth (a >>= next) (b >>= next') := by
  intro s hs
  rw [run_bind, run_bind, ← h s hs]
  exact hn _ _ (hs.run a)

theorem after (a : Action α) {next next' : α → Action β}
    (hn : ∀ x, Agree skips depth (next x) (next' x)) :
    Agree skips depth (a >>= next) (a >>= next') :=
  (refl a).bind hn

theorem before (h : Agree skips depth a b) (next : α → Action β) :
    Agree skips depth (a >>= next) (b >>= next) :=
  h.bind fun x => refl (next x)

theorem map (h : Agree skips depth a b) (f : α → β) :
    Agree skips depth (f <$> a) (f <$> b) := by
  intro s hs
  rw [run_map, run_map, h s hs]

theorem ite {c : Prop} [Decidable c] {a' b' : Action α} (h : Agree skips depth a b)
    (h' : Agree skips depth a' b') :
    Agree skips depth (if c then a else a') (if c then b else b') := by
  split
  · exact h
  · exact h'

theorem withNewlines {inside : Bool} (h : Agree inside depth a b) :
    Agree skips depth (Reading.withNewlines inside a) (Reading.withNewlines inside b) := by
  intro s hs
  simp only [Reading.withNewlines, h _ (hs.settle inside)]

theorem inBlock (h : Agree skips (depth + 1) a b) :
    Agree skips depth (Reading.inBlock a) (Reading.inBlock b) := by
  intro s hs
  simp only [Reading.inBlock, h _ hs.inBlock]

end Agree

-- ---------------------------------------------------------------------------
-- Lists
-- ---------------------------------------------------------------------------

section
variable (hr : ReadersAgree skips depth readExpr readExpr')
include hr

theorem agree_readValue (terminator : Kind) (ifAbsent : Action Unit) :
    Agree skips depth (readValue readExpr terminator ifAbsent)
      (readValue readExpr' terminator ifAbsent) :=
  .after _ fun _ => .ite (.refl _) ((hr .help).map some)

theorem agree_readArgument (terminator : Kind) :
    Agree skips depth (readArgument readExpr terminator)
      (readArgument readExpr' terminator) := by
  refine .after _ fun _ => .after _ fun _ => .ite (.refl _) (.ite (.refl _) (.ite ?_ ?_))
  · refine .after _ fun name => .after _ fun equals => ?_
    exact (agree_readValue hr terminator (pure ())).before _
  · exact (hr .help).before _

theorem agree_readDefault (terminator : Kind) (equals : Option Token) :
    Agree skips depth (readDefault readExpr terminator equals)
      (readDefault readExpr' terminator equals) := by
  cases equals with
  | none => exact .refl _
  | some _ => exact agree_readValue hr terminator _

theorem agree_readParameter (terminator : Kind) :
    Agree skips depth (readParameter readExpr terminator)
      (readParameter readExpr' terminator) := by
  refine .after _ fun _ => .ite (.refl _) (.ite (.refl _) (.ite ?_ (.refl _)))
  refine .after _ fun name => .after _ fun equals => ?_
  exact (agree_readDefault hr terminator equals).before _

theorem agree_readItem (role : ListRole) (terminator : Kind) :
    Agree skips depth (readItem readExpr role terminator)
      (readItem readExpr' role terminator) := by
  refine .after _ fun _ => .after _ fun _ => .before ?_ _
  cases role with
  | arguments => exact agree_readArgument hr terminator
  | parameters => exact agree_readParameter hr terminator

theorem agree_readItems (role : ListRole) (terminator : Kind) (bound : Nat) (slot : Slot) :
    Agree skips depth (readItems readExpr role terminator bound slot)
      (readItems readExpr' role terminator bound slot) := by
  induction bound generalizing slot with
  | zero => exact .refl _
  | succ bound ih =>
    refine .after _ fun _ => .ite (.refl _) (.ite (.refl _) (.ite (.refl _) ?_))
    exact (agree_readItem hr role terminator).bind fun item => (ih (.after item)).before _

end

theorem agree_readList (hr : ReadersAgree true depth readExpr readExpr') (bound : Nat)
    (role : ListRole) (opening : Token) (terminator : Kind) :
    Agree skips depth (readList readExpr bound role opening terminator)
      (readList readExpr' bound role opening terminator) :=
  .after _ fun _ => .before (.withNewlines (agree_readItems hr role terminator bound .opening)) _

-- ---------------------------------------------------------------------------
-- Constructs
-- ---------------------------------------------------------------------------

theorem run_readBracketed_congr {a b : Action α} (h : Agree true depth a b)
    (hs : s.InMode skips depth) (hk : s.kind = .leftParen) :
    (readBracketed a).run s = (readBracketed b).run s := by
  have hopening : (expect .leftParen).run s = (some s.current, s.advance) := if_pos hk
  have hinner : Agree skips depth (readToClosing a) (readToClosing b) := .withNewlines (h.before _)
  simp only [readBracketed, run_bind, hopening]
  rw [hinner s.advance (hs.run advance)]

theorem agree_readGroup (hr : ReadersAgree true depth readExpr readExpr') (opening : Token) :
    Agree skips depth (readGroup readExpr opening) (readGroup readExpr' opening) :=
  .before (.withNewlines (.after _ fun _ => .ite (.refl _) ((hr .help).before _))) _

theorem agree_readBlock {a b : Action (List Expr)} (h : Agree false (depth + 1) a b)
    (opening : Token) : Agree skips depth (readBlock a opening) (readBlock b opening) :=
  .before (.withNewlines h.inBlock) _

-- ---------------------------------------------------------------------------
-- The whole reading
-- ---------------------------------------------------------------------------

namespace State

/-- Reading from a state restores the modes, whichever construct is read with a reader for the
expressions within; the bound is on the lengths of lists. -/
structure RestoredBy (s : State) (readExpr : ExprReader) (bound : Nat) : Prop where
  expression : ∀ level, s.Restored ((readExpr level).run s).2
  /-- It goes over a token, or fails where it is. -/
  engages : Engages readExpr
  /-- From the token that an expression starts with, or that cannot start one. -/
  first : ∀ level token, s.Restored ((readFrom readExpr bound level token).run s).2
  start : ∀ token,
    s.Restored ((readStart readExpr (readStatements readExpr bound) bound token).run s).2
  namespaced : ∀ package, s.Restored ((readNamespaced package).run s).2
  unary : ∀ operator level, s.Restored ((readUnary readExpr operator level).run s).2
  group : ∀ opening, s.Restored ((readGroup readExpr opening).run s).2
  block : ∀ opening, s.Restored ((readBlock (readStatements readExpr bound) opening).run s).2
  function : ∀ keyword, s.Restored ((readFunction readExpr bound keyword).run s).2
  conditional : ∀ keyword, s.Restored ((readIf readExpr keyword).run s).2
  forLoop : ∀ keyword, s.Restored ((readFor readExpr keyword).run s).2
  whileLoop : ∀ keyword, s.Restored ((readWhile readExpr keyword).run s).2
  repeatLoop : ∀ keyword, s.Restored ((readRepeat readExpr keyword).run s).2
  /-- From the token after an operator. -/
  operator : ∀ level left operator,
    s.Restored ((readOperator readExpr bound level left operator).run s).2
  call : ∀ callee opening, s.Restored ((readCall readExpr bound callee opening).run s).2
  index : ∀ target opening, s.Restored ((readIndex readExpr bound target opening).run s).2
  member : ∀ target operator, s.Restored ((readMember target operator).run s).2
  operation : ∀ level left operator,
    s.Restored ((readOperation readExpr level left operator).run s).2
  list : ∀ role opening terminator,
    s.Restored ((readList readExpr bound role opening terminator).run s).2

/-- The modes in which a reader is used for what is within a construct: what other readers do in
other modes makes no difference. -/
structure ModesWithin (s : State) (readExpr : ExprReader) (bound : Nat) : Prop where
  /-- Newlines are skipped in a group, -/
  group : ∀ other opening, ReadersAgree true s.blockDepth readExpr other →
    (readGroup readExpr opening).run s = (readGroup other opening).run s
  /-- in the brackets of a condition or of the head of a loop -/
  bracketed : ∀ {α : Type} (inner other : Action α), s.kind = .leftParen →
    Agree true s.blockDepth inner other →
    (readBracketed inner).run s = (readBracketed other).run s
  /-- and in a list. -/
  list : ∀ other role opening terminator, ReadersAgree true s.blockDepth readExpr other →
    (readList readExpr bound role opening terminator).run s =
      (readList other bound role opening terminator).run s
  /-- They count in a block, and one more block is open. -/
  block : ∀ inner other opening, Agree false (s.blockDepth + 1) inner other →
    (readBlock inner opening).run s = (readBlock other opening).run s

/-- A state after all statements of a file: no block is open, nothing is left to recover from, and
the end of the file, if there is one, is current. -/
structure Finished (tokens : List Token) (s : State) : Prop where
  blockDepth : s.blockDepth = 0
  recovering : s.recovering = false
  kind : EndsOnce tokens → s.kind = .endOfFile

theorem InOrder.restoredBy (hs : s.InOrder) (nesting bound : Nat) :
    s.RestoredBy (readExprWithin nesting) bound := by
  constructor
  case engages => exact engages_readExprWithin nesting
  all_goals intros; exact hs.restored_run _

theorem InOrder.modesWithin (hs : s.InOrder) (readExpr : ExprReader) (bound : Nat) :
    s.ModesWithin readExpr bound := by
  have hmode : s.InMode s.skipsNewlines s.blockDepth := ⟨hs, rfl, rfl⟩
  exact {
    group := fun other opening h => agree_readGroup h opening s hmode
    bracketed := fun inner other hk h => run_readBracketed_congr h hmode hk
    list := fun other role opening terminator h =>
      agree_readList h bound role opening terminator s hmode
    block := fun inner other opening h => agree_readBlock h opening s hmode }

end State

theorem finished_readAll (tokens : List Token) : (readAll tokens).2.Finished tokens where
  blockDepth := ((readStatements _ _).onward (State.start tokens)).blockDepth
  recovering := recovering_readStatements _ _ rfl
  kind := by
    rintro ⟨body, last, rfl, hk, hn⟩
    exact (State.kind_cons (rest_readAll hk hn)).trans hk

/-- Every construct sets the modes for what is within it and restores those of the state it starts
in, however deep constructs may nest and however long lists may get. After the statements of a file
no block is open and nothing is left to recover from. -/
theorem modes_restored (nesting bound : Nat) {s : State} (hs : s.InOrder) :
    s.RestoredBy (readExprWithin nesting) bound ∧ s.ModesWithin (readExprWithin nesting) bound ∧
      ∀ tokens, (readAll tokens).2.Finished tokens :=
  ⟨hs.restoredBy nesting bound, hs.modesWithin _ bound, finished_readAll⟩

/-- In a bracket within a block, after something has failed. A condition is closed late, and the
`else` after it is on a later line. -/
def State.withinBracket : State :=
  { State.start (tokenise "if (a[1,\n2] b\n) c\nelse [d) \x7d") with
    skipsNewlines := true, blockDepth := 1, recovering := true }

theorem modes_restored_withinBracket :
    State.withinBracket.InOrder ∧
      State.withinBracket.RestoredBy (readExprWithin 30) 30 ∧
      State.withinBracket.ModesWithin (readExprWithin 30) 30 ∧
      ∀ tokens, (readAll tokens).2.Finished tokens :=
  have hs : State.withinBracket.InOrder := ⟨endsOnce_scan _ _ _, fun _ => by decide +kernel⟩
  ⟨hs, modes_restored 30 30 hs⟩

end LenientR.Reading
