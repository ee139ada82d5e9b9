import LenientR.Proofs.Grammar.Rules
import LenientR.Proofs.Grammar.Start
import Mathlib.Tactic.Simproc.ExistsAndEq

/-!
# Lists of items follow the grammar

Items and lists of them, read by a reader of expressions that follows the grammar.
-/

namespace LenientR.Reading

open Trace

variable {n : Nat} {m : Mode} {readExpr : ExprReader} {terminator : Kind}

def ClosesList (kind : Kind) : Prop := kind = .rightParen ∨ kind = .rightSquare

theorem startsItem_eq_false_of_closesList (ht : ClosesList terminator) :
    terminator.startsItem = false := by
  rcases ht with rfl | rfl <;> rfl

theorem startsExpression_eq_false_of_endsItem (ht : ClosesList terminator) {kind : Kind}
    (h : endsItem terminator kind = true) : kind.startsExpression = false := by
  simp only [endsItem, Bool.or_eq_true, decide_eq_true_eq] at h
  rcases h with ((rfl | rfl) | rfl) | rfl
  · rcases ht with rfl | rfl <;> rfl
  all_goals rfl

theorem nextKind_eq {s : State} (hs : s.Ready n m) :
    s.nextKind = headKind (m.settle s.rest.tail) := by
  have hf : ∀ tokens : List Token,
      (tokens.find? fun token => !s.skipsNewlines || token.kind ≠ .endOfLine).elim .endOfFile
        Token.kind = headKind (m.settle tokens) := by
    intro tokens
    rw [Mode.settle, ← hs.skips_eq]
    cases s.skipsNewlines with
    | false => cases tokens <;> simp
    | true =>
      induction tokens with
      | nil => rfl
      | cons token rest ih =>
        by_cases h : token.kind = .endOfLine
        · simpa [h, skipLines] using ih
        · simp [h, skipLines]
  rw [State.nextKind, List.drop_one]
  exact hf s.rest.tail

theorem not_reads_of_endsItem (ht : ClosesList terminator) {level : Level} {e : Expr}
    {a b : List Token} (h : endsItem terminator (headKind a) = true) : ¬e.Reads level m a b := by
  intro he
  have hs := e.startsWith_reads level m a b he
  simp [startsExpression_eq_false_of_endsItem ht h] at hs

theorem obeysAt_readValue_present (hr : ReaderObeys n readExpr) (ifAbsent : Action Unit)
    {s : State} (hs : s.Ready n m) (h : endsItem terminator s.kind = false) :
    ObeysAt s (readValue readExpr terminator ifAbsent) fun value =>
      check (fun _ => value.isSome = true) * Expr.Grown? terminator m value := by
  have hrun : (readValue readExpr terminator ifAbsent).run s = (some <$> readExpr .help).run s := by
    simp only [readValue, run_look_bind, h, Bool.false_eq_true, if_false]
  refine ((((hr m .help).map some) s hs).of_run hrun).congr fun value b => ?_
  rw [check_mul]
  constructor
  · rintro ⟨e, rfl, he⟩
    exact ⟨rfl, he⟩
  · rintro ⟨hv, he⟩
    obtain ⟨e, rfl⟩ := Option.isSome_iff_exists.1 hv
    exact ⟨e, rfl, he⟩

theorem obeys_readValue (hr : ReaderObeys n readExpr) (ht : ClosesList terminator) :
    Obeys n m (readValue readExpr terminator (pure ())) (Expr.Grown? terminator m) := by
  intro s hs
  cases h : endsItem terminator s.kind with
  | false =>
    refine (obeysAt_readValue_present hr (pure ()) hs h).congr fun value b => ?_
    rw [check_mul]
    refine ⟨And.right, fun hv => ⟨?_, hv⟩⟩
    cases value with
    | none => exact absurd hv.1 (by simp [State.headKind_rest, h])
    | some e => rfl
  | true =>
    have hrun : (readValue readExpr terminator (pure ())).run s = (pure none : Action _).run s := by
      simp only [readValue, run_look_bind, h, if_true]
      rfl
    refine ((obeysAt_pure hs.toClean none).of_run hrun).congr fun value b => ?_
    cases value with
    | none => exact ⟨fun hv => ⟨h, hv.2⟩, fun hv => ⟨rfl, hv.2⟩⟩
    | some e => exact ⟨fun hv => (nomatch hv.1), fun hv => absurd hv (not_reads_of_endsItem ht h)⟩

/-- The default of a parameter has to be there. -/
theorem obeys_readValue_required (hr : ReaderObeys n readExpr) (ht : ClosesList terminator)
    (problem : Token → Problem) :
    Obeys n m (readValue readExpr terminator (reportCurrent problem)) fun value =>
      check (fun _ => value.isSome = true) * Expr.Grown? terminator m value := by
  intro s hs
  cases h : endsItem terminator s.kind with
  | false => exact obeysAt_readValue_present hr _ hs h
  | true =>
    have hrun : (readValue readExpr terminator (reportCurrent problem)).run s =
        (reportCurrent problem >>= fun _ => pure none).run s := by
      simp only [readValue, run_look_bind, h, if_true]
    refine (((obeysAt_reportCurrent problem).bind_never hs.toClean).of_run hrun).congr
      fun value b => ⟨fun hv => hv.elim, fun hv => ?_⟩
    obtain ⟨hsome, hv⟩ := (check_mul _ _ _ _).1 hv
    obtain ⟨e, rfl⟩ := Option.isSome_iff_exists.1 hsome
    exact not_reads_of_endsItem ht h hv

-- ---------------------------------------------------------------------------
-- Single items
-- ---------------------------------------------------------------------------

def bareItem (role : ListRole) (terminator : Kind) (m : Mode) : Rule Item := fun item =>
  check (fun _ => item.comma = none) * item.Grown role terminator m

theorem bareItem_apply {role : ListRole} {item : Item} {a b : List Token} :
    bareItem role terminator m item a b ↔ item.comma = none ∧ item.Grown role terminator m a b :=
  check_mul _ _ a b

theorem bareItem_ellipsis_iff {role : ListRole} {item : Item} {a b : List Token}
    (h : headKind a = .ellipsis) :
    (any fun token => token.taken (· = .ellipsis) m * given (item = .ellipsis token none) 1) a b ↔
      bareItem role terminator m item a b := by
  rw [bareItem_apply]
  rcases item with ⟨value, comma⟩ | ⟨name, _ | equals, _ | value, comma⟩ | ⟨token, comma⟩ | comma |
    ⟨tokens, comma⟩ | _ <;> simp [h, Item.comma, Kind.isName]

theorem obeysAt_readNamed (hr : ReaderObeys n readExpr) (ht : ClosesList terminator) {s : State}
    (hs : s.Ready n m) (hname : s.kind.isName = true) (hequal : s.nextKind = .equal) :
    ObeysAt s (advance >>= fun name => advance >>= fun equals =>
        readValue readExpr terminator (pure ()) >>= fun value =>
          pure (.named name (some equals) value none) : Action Item) fun item =>
      any fun name => name.taken Kind.isName m * any fun equals => equals.taken (· = .equal) m *
        any fun value => Expr.Grown? terminator m value *
          given (item = .named name (some equals) value none) 1 := by
  refine (obeysAt_advance hs rfl hname).bind hs.toClean fun hc => ?_
  have hk : (advance.run s).2.kind = .equal := by
    obtain ⟨token, rest, hrest⟩ := hs.exists_cons
    have he : token.kind ≠ .endOfFile := fun h => by
      rw [State.kind_cons hrest, h] at hname
      cases hname
    rw [← hequal, nextKind_eq hs, hrest]
    exact congrArg headKind (rest_advance hs hrest he)
  exact obeysAt_advance_bind (hs.run hc) rfl (decide_eq_true hk) fun equals =>
    (obeys_readValue hr ht).bind fun value => obeys_pure _

theorem obeys_readArgument (hr : ReaderObeys n readExpr) (ht : ClosesList terminator) :
    Obeys n m (readArgument readExpr terminator) (bareItem .arguments terminator m) := by
  intro s hs
  have hnext := nextKind_eq hs
  by_cases he : s.kind = .ellipsis
  · have hrun : (readArgument readExpr terminator).run s =
        (advance >>= fun token => pure (.ellipsis token none) : Action Item).run s := by
      simp only [readArgument, run_look_bind, he, if_true]
    exact ((obeysAt_advance_bind (f := (· = .ellipsis)) hs rfl (decide_eq_true he)
      fun token => obeys_pure (Item.ellipsis token none)).of_run hrun).congr
        fun item b => bareItem_ellipsis_iff he
  by_cases hm : s.kind = .comma
  · have hrun : (readArgument readExpr terminator).run s =
        (pure (.missing none) : Action Item).run s := by
      simp only [readArgument, run_look_bind, hm, if_true, reduceCtorEq, if_false]
    refine ((obeysAt_pure hs.toClean _).of_run hrun).congr fun item b => ?_
    rw [bareItem_apply]
    have hv : ∀ e : Expr, ¬e.Reads .help m s.rest b := fun e =>
      not_reads_of_endsItem ht (by simp [s.headKind_rest, hm, endsItem])
    rcases item with ⟨value, comma⟩ | ⟨name, _ | equals, _ | value, comma⟩ | ⟨token, comma⟩ | comma |
      ⟨tokens, comma⟩ | _ <;> simp [hm, s.headKind_rest, Item.comma, Kind.isName, hv]
  by_cases hn : (s.kind = .identifier ∨ s.kind = .string) ∧ s.nextKind = .equal
  · have hrun : (readArgument readExpr terminator).run s =
        (advance >>= fun name => advance >>= fun equals =>
          readValue readExpr terminator (pure ()) >>= fun value =>
            pure (.named name (some equals) value none) : Action Item).run s := by
      simp only [readArgument, run_look_bind, if_neg he, if_neg hm, if_pos hn]
    have hname : s.kind.isName = true := by simpa [Kind.isName] using hn.1
    refine ((obeysAt_readNamed hr ht hs hname hn.2).of_run hrun).congr fun item b => ?_
    rw [bareItem_apply]
    rw [hnext] at hn
    rcases item with ⟨value, comma⟩ | ⟨name, _ | equals, _ | value, comma⟩ | ⟨token, comma⟩ | comma |
      ⟨tokens, comma⟩ | _ <;>
        simp [he, hm, s.headKind_rest, Item.comma, hname, hn, -Expr.grown?_none, -Expr.grown?_some]
    all_goals grind
  · have hrun : (readArgument readExpr terminator).run s =
        (readExpr .help >>= fun value => pure (.positional value none) : Action Item).run s := by
      simp only [readArgument, run_look_bind, if_neg he, if_neg hm, if_neg hn]
    refine ((((hr m .help).bind fun value =>
      obeys_pure (Item.positional value none)) s hs).of_run hrun).congr fun item b => ?_
    rw [bareItem_apply]
    have hn' : s.kind.isName = true → headKind (m.settle s.rest.tail) ≠ .equal := fun h hk =>
      hn ⟨by simpa [Kind.isName] using h, hnext.trans hk⟩
    rcases item with ⟨value, comma⟩ | ⟨name, _ | equals, _ | value, comma⟩ | ⟨token, comma⟩ | comma |
      ⟨tokens, comma⟩ | _ <;> simp [he, hm, s.headKind_rest, Item.comma]
    all_goals grind

theorem obeys_readDefault (hr : ReaderObeys n readExpr) (ht : ClosesList terminator)
    (equals : Option Token) :
    Obeys n m (readDefault readExpr terminator equals) fun value =>
      match equals with
      | none => given (value = none) 1
      | some _ => check (fun _ => value.isSome = true) * Expr.Grown? terminator m value := by
  cases equals with
  | none => exact obeys_pure none
  | some _ => exact obeys_readValue_required hr ht _

theorem obeys_readParameter (hr : ReaderObeys n readExpr) (ht : ClosesList terminator) :
    Obeys n m (readParameter readExpr terminator) (bareItem .parameters terminator m) := by
  intro s hs
  by_cases he : s.kind = .ellipsis
  · have hrun : (readParameter readExpr terminator).run s =
        (advance >>= fun token => pure (.ellipsis token none) : Action Item).run s := by
      simp only [readParameter, run_look_bind, he, if_true]
    exact ((obeysAt_advance_bind (f := (· = .ellipsis)) hs rfl (decide_eq_true he)
      fun token => obeys_pure (Item.ellipsis token none)).of_run hrun).congr
        fun item b => bareItem_ellipsis_iff he
  by_cases hn : s.kind = .identifier
  · have hrun : (readParameter readExpr terminator).run s =
        (advance >>= fun name => accept .equal >>= fun equals =>
          readDefault readExpr terminator equals >>= fun value =>
            pure (.named name equals value none) : Action Item).run s := by
      simp only [readParameter, run_look_bind, hn, reduceCtorEq, if_false, if_true]
    refine ((obeysAt_advance_bind (f := (· = .identifier)) hs rfl (decide_eq_true hn)
      fun name => (obeys_accept (by decide)).bind fun equals =>
        (obeys_readDefault hr ht equals).bind fun value =>
          obeys_pure (Item.named name equals value none)).of_run hrun).congr fun item b => ?_
    rw [bareItem_apply]
    rcases item with ⟨value, comma⟩ | ⟨name, _ | equals, _ | value, comma⟩ | ⟨token, comma⟩ | comma |
      ⟨tokens, comma⟩ | _ <;>
        simp [hn, s.headKind_rest, Item.comma, optionalToken, Option.exists]
    all_goals grind
  · have hnone : ObeysAt s (readParameter readExpr terminator) fun _ => .never := by
      by_cases hm : s.kind = .comma
      · exact ((obeysAt_reportCurrent .expectedParameter).bind_never hs.toClean).of_run
          (by simp only [readParameter, run_look_bind, hm, reduceCtorEq, if_false, if_true]; rfl)
      · exact ((obeysAt_fail fun s => .expectedIdentifier s.current).bind_never hs.toClean).of_run
          (by simp only [readParameter, run_look_bind, he, hm, hn, if_false]; rfl)
    refine hnone.congr fun item b => ?_
    rw [bareItem_apply]
    rcases item with ⟨value, comma⟩ | ⟨name, _ | equals, _ | value, comma⟩ | ⟨token, comma⟩ | comma |
      ⟨tokens, comma⟩ | _ <;> simp [he, hn, s.headKind_rest, Item.comma]

theorem obeys_readBareItem (hr : ReaderObeys n readExpr) (ht : ClosesList terminator) :
    (role : ListRole) →
      Obeys n m (readBareItem readExpr terminator role) (bareItem role terminator m)
  | .arguments => obeys_readArgument hr ht
  | .parameters => obeys_readParameter hr ht

theorem obeys_salvage (start : List Token) (completed : List Expr) (terminator : Kind)
    (item : Item) :
    Obeys n m (salvage start completed terminator item) fun x => given (x = item) 1 :=
  fun s hs => (obeysAt_pure hs.toClean item).of_run (if_neg (by simp [hs.recovering]))

/-- The comma of an item makes no difference to what is read before it. -/
theorem grown_withComma {role : ListRole} {item : Item} {comma : Token} {a b : List Token} :
    (item.withComma comma).Grown role terminator m a b ↔ item.Grown role terminator m a b := by
  rcases item with ⟨value, comma⟩ | ⟨name, _ | equals, _ | value, comma⟩ | ⟨token, comma⟩ | comma |
    ⟨tokens, comma⟩ | _ <;> simp [Item.withComma]

def withoutComma : Item → Item
  | .positional value _ => .positional value none
  | .named name equals value _ => .named name equals value none
  | .ellipsis token _ => .ellipsis token none
  | .missing _ => .missing none
  | .unreadable tokens _ => .unreadable tokens none
  | .stub => .stub

theorem grown_withoutComma {role : ListRole} {item : Item} {a b : List Token} :
    (withoutComma item).Grown role terminator m a b ↔ item.Grown role terminator m a b := by
  rcases item with ⟨value, comma⟩ | ⟨name, _ | equals, _ | value, comma⟩ | ⟨token, comma⟩ | comma |
    ⟨tokens, comma⟩ | _ <;> simp [withoutComma]

/-- The items with a rule are those without a comma, and those with one attached to them. -/
theorem attachComma_iff {role : ListRole} {item : Item} {comma : Option Token}
    {a b : List Token} :
    (∃ bare, bareItem role terminator m bare a b ∧ item = attachComma bare comma) ↔
      item.comma = comma ∧ item.Grown role terminator m a b := by
  constructor
  · rintro ⟨bare, hb, rfl⟩
    obtain ⟨hc, hg⟩ := bareItem_apply.1 hb
    cases comma with
    | none => exact ⟨hc, hg⟩
    | some comma =>
      refine ⟨?_, grown_withComma.2 hg⟩
      cases bare with
      | stub => exact absurd hg (by simp)
      | _ => rfl
  · rintro ⟨rfl, hg⟩
    have hbare := bareItem_apply.2 ⟨by cases item <;> rfl, grown_withoutComma.2 hg⟩
    refine ⟨withoutComma item, hbare, ?_⟩
    rcases item with ⟨_, _ | _⟩ | ⟨_, _, _, _ | _⟩ | ⟨_, _ | _⟩ | ⟨_ | _⟩ | ⟨_, _ | _⟩ | _ <;> rfl

theorem obeys_readItem (hr : ReaderObeys n readExpr) (ht : ClosesList terminator)
    (role : ListRole) :
    Obeys n m (readItem readExpr role terminator) fun item =>
      item.Grown role terminator m * comma terminator m item.comma := by
  intro s hs
  have hitem := ((obeys_readBareItem hr ht role).bind fun read =>
    (obeys_unexpectedUnless (endsItem terminator)).seq
      ((obeys_salvage s.rest s.completed terminator read).bind fun item =>
        (obeys_accept (show Kind.comma ≠ .endOfFile by decide)).bind fun comma =>
          obeys_pure (attachComma item comma))) s hs
  refine (hitem.of_run rfl).congr fun item b => ?_
  constructor
  · rintro ⟨_, c, hb, _, ⟨he, rfl⟩, bare, _, ⟨rfl, rfl⟩, comma, _, hc, rfl, rfl⟩
    obtain ⟨hcomma, hg⟩ := attachComma_iff.1 ⟨bare, hb, rfl⟩
    refine ⟨c, hg, ?_⟩
    rw [hcomma]
    cases comma with
    | none => exact ⟨⟨hc.1, he⟩, hc.2⟩
    | some comma => exact hc
  · rintro ⟨c, hg, hc⟩
    obtain ⟨bare, hb, hi⟩ := attachComma_iff.2 ⟨rfl, hg⟩
    generalize item.comma = comma at hc hi
    have he : endsItem terminator (headKind c) = true := by
      cases comma with
      | none => exact hc.1.2
      | some comma =>
        obtain ⟨hk, _⟩ := Token.taken_apply.1 (show comma.taken (· = .comma) m c b from hc)
        simp [of_decide_eq_true hk, endsItem]
    refine ⟨bare, c, hb, c, ⟨he, rfl⟩, bare, c, ⟨rfl, rfl⟩, comma, b, ?_, hi, rfl⟩
    cases comma with
    | none => exact ⟨hc.1.1, hc.2⟩
    | some comma => exact hc

-- ---------------------------------------------------------------------------
-- Lists
-- ---------------------------------------------------------------------------

/-- Where items are left, the list ends or one of them starts. -/
theorem headKind_of_grownAll {role : ListRole} {slot : Slot} {items : List Item}
    {a b : List Token} (h : Item.GrownAll role terminator m slot items a b) :
    headKind a = terminator ∨ (headKind a).startsItem = true := by
  cases items with
  | nil =>
    rw [Item.GrownAll] at h
    exact .inl h.1.1
  | cons item rest =>
    simp only [Item.GrownAll, mul_assoc] at h
    exact .inr ((item.startsWith_grown role terminator m).mul _ a b h)

theorem obeysTo_cutOff {role : ListRole} {slot : Slot} {action : Action (List Item)} {s : State}
    (ht : s.kind ≠ terminator) (hi : s.kind.startsItem = false)
    (hr : (action.run s).2.rest = s.rest) :
    ObeysTo (headKind · = terminator) s action (Item.GrownAll role terminator m slot) := by
  intro items b hb
  constructor
  · rintro ⟨_, _, rfl⟩
    exact absurd (show headKind s.rest = terminator by rw [← hr]; exact hb) ht
  · intro h
    rcases headKind_of_grownAll h with h | h
    · exact absurd h ht
    · exact absurd h (by simp [s.headKind_rest, hi])

theorem obeysAt_listEnd (ht : ClosesList terminator) (role : ListRole) (slot : Slot) {s : State}
    (hs : s.Clean) (hterm : s.kind = terminator) :
    ObeysAt s (reportEmptySlot role slot >>= fun _ => pure [])
      (Item.GrownAll role terminator m slot) := by
  have hnone : ∀ item rest b, ¬Item.GrownAll role terminator m slot (item :: rest) s.rest b := by
    intro item rest b h
    simp only [Item.GrownAll, mul_assoc] at h
    have hi := (item.startsWith_grown role terminator m).mul _ _ _ h
    rw [s.headKind_rest, hterm, startsItem_eq_false_of_closesList ht] at hi
    cases hi
  by_cases hslot : role = .parameters ∧ slot = .comma
  · have hnever : ObeysAt s (reportEmptySlot role slot) fun _ => .never := by
      rw [reportEmptySlot, if_pos hslot]
      exact obeysAt_reportCurrent _
    refine (hnever.bind_never hs).congr fun items b => ?_
    cases items with
    | nil => simp [Item.GrownAll, listEnd, hslot]
    | cons item rest => simp [hnone]
  · have hpure : reportEmptySlot role slot = pure () := if_neg hslot
    rw [hpure]
    refine (obeysAt_pure hs []).congr fun items b => ?_
    cases items with
    | nil => simp [Item.GrownAll, listEnd, hslot, s.headKind_rest, hterm]
    | cons item rest => simp [hnone]

theorem obeysTo_readItems (hr : ReaderObeys n readExpr) (he : Engages readExpr)
    (ht : ClosesList terminator) (role : ListRole) (slot : Slot) {bound : Nat} (hb : n ≤ bound)
    {s : State} (hs : s.Ready n m) :
    ObeysTo (headKind · = terminator) s (readItems readExpr role terminator bound slot)
      (Item.GrownAll role terminator m slot) := by
  induction n generalizing bound slot s with
  | zero => exact absurd hs.ended.length_pos (by have := hs.length_le; omega)
  | succ n ih =>
    obtain ⟨bound, rfl⟩ : ∃ k, bound = k + 1 := ⟨bound - 1, by omega⟩
    by_cases hterm : s.kind = terminator
    · exact ((obeysAt_listEnd ht role slot hs.toClean hterm).of_run (by
        simp only [readItems, run_look_bind, if_pos hterm])).to
    by_cases hend : s.kind = .endOfFile
    · exact obeysTo_cutOff hterm (by rw [hend]; rfl) (by
        simp only [readItems, run_look_bind, if_neg hterm, if_pos hend, run_pure])
    by_cases hcurly : s.kind = .rightCurly
    · exact obeysTo_cutOff hterm (by rw [hcurly]; rfl) (by
        simp only [readItems, run_look_bind, if_neg hterm, if_neg hend, if_pos hcurly, run_pure])
    have hrun : (readItems readExpr role terminator (bound + 1) slot).run s =
        (readItem readExpr role terminator >>= fun item =>
          readItems readExpr role terminator bound (.after item) >>= fun others =>
            pure (item :: others)).run s := by
      simp only [readItems, run_look_bind, if_neg hterm, if_neg hend, if_neg hcurly]
    have hlt : ((readItem readExpr role terminator).run s).2.rest.length < s.rest.length :=
      length_readItem_lt he hterm hend hcurly
    have hitem := obeys_readItem hr ht role s hs
    have hlist : ObeysTo (headKind · = terminator) s (readItem readExpr role terminator >>=
        fun item => readItems readExpr role terminator bound (.after item) >>= fun others =>
          pure (item :: others)) fun items => any fun item =>
        (item.Grown role terminator m * comma terminator m item.comma) *
          any fun others => Item.GrownAll role terminator m (.after item) others *
            given (items = item :: others) 1 := by
      refine (obeysTo_true.2 hitem).bind hs.toClean (fun hc => ?_) fun _ _ _ _ _ _ => trivial
      have hready := (hs.run hc).mono (k := n) (by have := hs.length_le; omega)
      refine (ih (hr.mono (Nat.le_succ n)) (.after _) (by omega) hready).bind hready.toClean
        (fun hc => (obeysAt_pure hc _).to) fun _ _ _ _ hend hq => ?_
      exact hq.2 ▸ hend
    refine (hlist.of_run hrun).congr fun items b _ => ?_
    cases items with
    | nil =>
      rw [Item.GrownAll]
      exact ⟨fun ⟨_, _, _, _, _, _, h, _⟩ => (nomatch h), fun h => absurd h.1.1 hterm⟩
    | cons item rest =>
      rw [Item.GrownAll]
      constructor
      · rintro ⟨_, c, hi, _, _, ho, ⟨⟩, rfl⟩
        exact ⟨c, hi, ho⟩
      · rintro ⟨c, hi, ho⟩
        exact ⟨item, c, hi, rest, b, ho, rfl, rfl⟩

theorem obeys_readList (hr : ReaderObeys n readExpr) (he : Engages readExpr)
    (ht : ClosesList terminator) {bound : Nat} (hb : n ≤ bound) (role : ListRole)
    (opening : Token) :
    Obeys n m (readList readExpr bound role opening terminator) fun list => any fun closing =>
      lines * Item.GrownAll role terminator m.bracketed .opening list.1 *
        closing.taken (· = terminator) m * given (list.2 = some closing) 1 := by
  intro s hs
  have hitems : ObeysTo (headKind · = terminator) s
      (withNewlines true (readItems readExpr role terminator bound .opening)) fun items =>
      lines * Item.GrownAll role terminator m.bracketed .opening items :=
    .bracketed hs fun t ht' => obeysTo_readItems hr he ht role .opening hb ht'
  have hterm : terminator ≠ .endOfFile ∧ terminator ≠ .rightCurly := by
    rcases ht with rfl | rfl <;> decide
  have hfinish : ∀ items, Obeys n m (finishList opening terminator s.completed items) fun list =>
      any fun closing => requiredToken (· = terminator) m closing *
        given (list = (items, closing)) 1 := by
    intro items t ht'
    have hc := (obeys_acceptOr (n := n) (m := m) hterm.1
      fun s => .missingClosing opening s.lastToken).bind fun closing => obeys_pure (items, closing)
    by_cases hk : t.kind = .rightCurly
    · -- a list that is cut off by a curly bracket is not closed
      have hnever : ObeysAt t (takeClosing opening terminator) fun _ => .never := by
        refine obeysAt_never fun h => ?_
        have hrun : (takeClosing opening terminator).run t = _ :=
          if_neg (by rw [hk]; exact Ne.symm hterm.2)
        rw [hrun] at h
        exact not_clean_report t _ h
      refine ((hnever.bind_never ht'.toClean).of_run (by
        simp only [finishList, run_look_bind]; rfl)).congr fun list b => ?_
      refine ⟨fun h => h.elim, fun ⟨_, _, hcl, _⟩ => ?_⟩
      exact hterm.2 ((of_decide_eq_true (headKind_of_requiredToken hcl)).symm.trans hk)
    · exact (hc t ht').of_run (by simp only [finishList, run_look_bind, if_neg hk]; rfl)
  have hlist : ObeysAt s (withNewlines true (readItems readExpr role terminator bound .opening) >>=
      finishList opening terminator s.completed) fun list => any fun items =>
        (lines * Item.GrownAll role terminator m.bracketed .opening items) *
          any fun closing => requiredToken (· = terminator) m closing *
            given (list = (items, closing)) 1 := by
    refine obeysTo_true.1 (hitems.bind hs.toClean (fun hc => (hfinish _ _ (hs.run hc)).to) ?_)
    rintro items list b c - ⟨_, _, hcl, -⟩
    exact of_decide_eq_true (headKind_of_requiredToken hcl)
  refine (hlist.of_run rfl).congr fun list b => ?_
  constructor
  · rintro ⟨items, c, hi, closing, d, hcl, rfl, rfl⟩
    cases closing with
    | none => exact hcl.elim
    | some closing => exact ⟨closing, d, ⟨c, hi, hcl⟩, rfl, rfl⟩
  · rintro ⟨closing, d, ⟨c, hi, hcl⟩, hlist, rfl⟩
    exact ⟨list.1, c, hi, some closing, d, hcl, Prod.ext rfl hlist, rfl⟩

end LenientR.Reading
