import LenientR.Proofs.Lists.Tiling

/-!
# Reading items

An item starts with the token it is read from and ends in its comma or, as the last one, where the
list ends (`itemRead_readItem`). That holds of an item that is given up too: it reaches from its
first token to where recovery ends.
-/

namespace LenientR

theorem Reading.State.exists_counted {gone : List Token}
    (h : ∃ token ∈ gone, token.kind ≠ .endOfLine) :
    ∃ front last lines, gone = front ++ last :: lines ∧ last.kind ≠ .endOfLine ∧
      (∀ line ∈ lines, line.kind = .endOfLine) ∧
      ∀ previous, lastCounted previous gone = some last := by
  induction gone with
  | nil => simp at h
  | cons first gone ih =>
    by_cases hg : ∃ token ∈ gone, token.kind ≠ .endOfLine
    · obtain ⟨front, last, lines, rfl, hk, hl, hp⟩ := ih hg
      exact ⟨first :: front, last, lines, rfl, hk, hl, fun _ => hp _⟩
    · have hl : ∀ token ∈ gone, token.kind = .endOfLine := by simpa using hg
      have hf : first.kind ≠ .endOfLine := by
        obtain ⟨token, hm, hk⟩ := h
        rcases List.mem_cons.1 hm with rfl | hm
        · exact hk
        · exact absurd (hl token hm) hk
      refine ⟨[], first, gone, rfl, hf, hl, fun previous => ?_⟩
      rw [lastCounted, List.foldl_cons, if_neg hf]
      exact lastCounted_newlines hl _

theorem Token.next?_eq {gone rest : List Token} {token next : Token}
    (ho : (gone ++ next :: rest).Pairwise (·.start < ·.start))
    (hp : Reading.State.lastCounted none gone = some token) (hk : next.kind ≠ .endOfLine) :
    token.next? (gone ++ next :: rest) = some next := by
  have hcounted : ∃ token ∈ gone, token.kind ≠ .endOfLine := by
    by_contra h
    rw [Reading.State.lastCounted_newlines (by simpa using h)] at hp
    cases hp
  obtain ⟨front, last, lines, rfl, _, hl, hlast⟩ := Reading.State.exists_counted hcounted
  obtain rfl : last = token := Option.some.inj ((hlast none).symm.trans hp)
  obtain ⟨hgone, _, hacross⟩ := List.pairwise_append.1 ho
  obtain ⟨_, _, hfront⟩ := List.pairwise_append.1 hgone
  have hnext : last.start < next.start := hacross last (by simp) next (by simp)
  have hnone : ((front ++ last :: lines).filter (·.kind ≠ .endOfLine)).find?
      (last.start < ·.start) = none := by
    refine List.find?_eq_none.2 fun x hx => ?_
    obtain ⟨hm, hx⟩ := List.mem_filter.1 hx
    rw [decide_eq_true_eq, Nat.not_lt]
    rcases List.mem_append.1 hm with hm | hm
    · exact Nat.le_of_lt (hfront x hm last (by simp))
    rcases List.mem_cons.1 hm with rfl | hm
    · exact Nat.le_refl _
    · simp [hl x hm] at hx
  rw [Token.next?, List.filter_append, List.find?_append, hnone, Option.none_or,
    List.filter_cons_of_pos (by simpa using hk), List.find?_cons_of_pos (by simpa using hnext)]

namespace Reading

variable {tokens : List Token} {m n : Nat} {P : State → Prop} {readExpr : ExprReader}

def State.Skipping (s : State) : Prop := s.skipsNewlines = true ∧ s.kind ≠ .endOfLine

theorem State.Skipping.run {s : State} (h : s.Skipping) (action : Action α) :
    (action.run s).2.Skipping := by
  have ho := action.onward s
  have hs : (action.run s).2.skipsNewlines = true := ho.skipsNewlines.trans h.1
  exact ⟨hs, ho.settled (fun _ => h.2) hs⟩

theorem State.Amid.next? {s : State} (h : s.Amid tokens n)
    (ho : tokens.Pairwise (·.start < ·.start)) {token : Token} (hp : s.previous = some token)
    (hk : s.kind ≠ .endOfLine) : token.next? tokens = some s.current := by
  obtain ⟨gone, hg, _, hl⟩ := h.passes
  obtain ⟨rest, hr⟩ := h.rest_eq_cons
  rw [hr] at hg
  rw [show tokens = gone ++ s.current :: rest from hg] at ho ⊢
  exact Token.next?_eq ho (hl.symm.trans hp) hk

theorem State.Amid.start_le {s t : State} (ha : s.Amid tokens n)
    (ho : tokens.Pairwise (·.start < ·.start)) (hp : s.Passes t) :
    s.current.start ≤ t.current.start := by
  obtain ⟨rest, hr⟩ := ha.rest_eq_cons
  obtain ⟨rest', hr'⟩ := (ha.onward hp).rest_eq_cons
  obtain ⟨front, hf, _⟩ := ha.passes
  obtain ⟨gone, hg, _⟩ := hp
  cases gone with
  | nil =>
    have he : s.current = t.current := by
      rw [State.current, State.current, hg]
      rfl
    rw [he]
  | cons token gone =>
    have hs : s.current = token := by simp [State.current, hg]
    have hsorted : s.rest.Pairwise (·.start < ·.start) := by
      have hsuffix : s.rest <:+ tokens := ⟨front, hf.symm⟩
      exact ho.sublist hsuffix.sublist
    rw [hg, List.cons_append, hr'] at hsorted
    rw [hs]
    exact Nat.le_of_lt ((List.pairwise_cons.1 hsorted).1 t.current (by simp))

theorem State.Passes.exists_previous {s t : State} (h : s.Passes t) {token : Token}
    (hp : s.previous = some token) : ∃ last, t.previous = some last := by
  obtain ⟨gone, _, _, hl⟩ := h
  rw [hl]
  by_cases hg : ∃ token ∈ gone, token.kind ≠ .endOfLine
  · obtain ⟨_, last, _, _, _, _, hlast⟩ := State.exists_counted hg
    exact ⟨last, hlast _⟩
  · rw [State.lastCounted_newlines (by simpa using hg)]
    exact ⟨token, hp⟩

-- ---------------------------------------------------------------------------
-- First tokens
-- ---------------------------------------------------------------------------

def Starts (token : Token) (e : Expr) : Prop := e.outline.tokens.head? = some token

def ReaderStarts (readExpr : ExprReader) : Prop :=
  ∀ level s, Starts s.current ((readExpr level).run s).1

theorem starts_readGroup (opening : Token) (s : State) :
    Starts opening ((readGroup readExpr opening).run s).1 := by
  rw [readGroup, run_bind]
  cases ((readGroupInner readExpr).run s).1 <;> rfl

theorem starts_readFunction (bound : Nat) (keyword : Token) (s : State) :
    Starts keyword ((readFunction readExpr bound keyword).run s).1 := by
  rw [readFunction, run_bind]
  cases ((expect .leftParen).run s).1 <;> rfl

theorem starts_readNameOr {other : Token → Expr} {token : Token} (h : Starts token (other token))
    (s : State) : Starts token ((readNameOr other token).run s).1 := by
  rw [readNameOr, run_look_bind]
  split
  · rfl
  · exact h

theorem starts_readStart (statements : Action (List Expr)) (bound : Nat) (token : Token)
    (s : State) : Starts token ((readStart readExpr statements bound token).run s).1 := by
  unfold readStart
  split
  · exact starts_readNameOr (show Starts token (.var token) from rfl) s
  · exact starts_readNameOr (show Starts token (.literal token) from rfl) s
  · rfl
  · rfl
  · rfl
  · exact starts_readGroup token s
  · exact starts_readFunction bound token s
  · exact starts_readFunction bound token s
  all_goals rfl

theorem Starts.of_left {left e : Expr} {token : Token} (h : Starts token left)
    {rest : List Part} (ho : e.outline = .of (.expr e) (.child left.outline :: rest)) :
    Starts token e := by
  rw [Starts] at h ⊢
  rw [ho, Outline.of, Outline.tokens, Part.tokens, List.head?_append, h]
  rfl

theorem starts_readOperator {left : Expr} {token : Token} (h : Starts token left) (bound : Nat)
    (level : Level) (operator : Token) (s : State) :
    Starts token ((readOperator readExpr bound level left operator).run s).1 := by
  unfold readOperator
  split
  · exact h.of_left rfl
  · exact h.of_left rfl
  · exact h.of_left rfl
  · exact h.of_left rfl
  · exact h.of_left rfl
  · rw [readOperation, run_bind]
    split <;> exact h.of_left rfl

theorem starts_readOperators (lists : Nat) (level : Level) (bound : Nat) {left : Expr}
    {token : Token} (h : Starts token left) (s : State) :
    Starts token ((readOperators readExpr lists level bound left).run s).1 := by
  induction bound generalizing left s with
  | zero => exact h
  | succ bound ih =>
    rw [readOperators, run_look_bind]
    split
    · exact h
    split
    · exact ih (starts_readOperator h lists _ _ _) _
    · exact h

theorem starts_readExprWithin (bound : Nat) : ReaderStarts (readExprWithin bound) := by
  intro level s
  cases bound with
  | zero => rfl
  | succ bound =>
    rw [readExprWithin, run_look_bind]
    split
    · rfl
    rw [run_bind, readFrom]
    split
    · rfl
    · exact starts_readOperators _ _ _ (starts_readStart _ _ _ _) _

-- ---------------------------------------------------------------------------
-- Items
-- ---------------------------------------------------------------------------

/-- What is read of an item before its comma: it has failed, is empty in front of its comma, or
reaches from the first token to where reading is now. -/
def BareEnds (start : Token) (item : Item) (s : State) : Prop :=
  s.recovering = true ∨ (item = .missing none ∧ s.kind = .comma ∧ s.current = start) ∨
    (IsBare item ∧ (Part.tokens (bareParts item)).head? = some start ∧ Ends (bareParts item) s)

theorem ends_readValue (hr : ReaderEnds tokens n readExpr) (terminator : Kind)
    {ifAbsent : Action Unit} {parts : List Part}
    (h : Triple tokens n (Ends parts) ifAbsent fun _ => Ends parts) :
    Triple tokens n (Ends parts) (readValue readExpr terminator ifAbsent) fun value =>
      Ends (parts ++ Expr.outline? value) := by
  refine .look_bind fun kind => .ite (fun _ => ?_) fun _ => ?_
  · refine Triple.bind (h.mono (fun _ hs => hs.2) fun _ _ => id) fun _ => .pure fun s hs => ?_
    simpa [Expr.outline?] using hs
  · exact Triple.map ((hr .help).mono (fun _ _ => trivial) fun _ _ => id) fun e s hs =>
      hs.prepend parts

theorem ends_readDefault (hr : ReaderEnds tokens n readExpr) (terminator : Kind)
    {parts : List Part} : (equals : Option Token) →
      Triple tokens n (Ends parts) (readDefault readExpr terminator equals) fun value =>
        Ends (parts ++ Expr.outline? value)
  | none => .pure fun s hs => by simpa [Expr.outline?] using hs
  | some _ => ends_readValue hr terminator fun _ _ hs => hs.congr rfl rfl id

theorem ends_accept {parts : List Part} (kind : Kind) (he : kind ≠ .endOfFile)
    (hl : kind ≠ .endOfLine) :
    Triple tokens n (Ends parts) (accept kind) fun found =>
      Ends (parts ++ Part.ofToken? found) := by
  intro s ha hs
  by_cases hk : s.kind = kind
  · rw [show (accept kind).run s = (some s.current, s.advance) from if_pos hk]
    exact (Ends.of_previous (ha.previous_advance (hk ▸ he) (hk ▸ hl))).prepend parts
  · rw [show (accept kind).run s = (none, s) from if_neg hk]
    exact (List.append_nil parts).symm ▸ hs

theorem State.Skipping.kind_advance {s : State} (hs : s.Skipping) (he : s.kind ≠ .endOfFile) :
    s.advance.kind = s.nextKind := by
  have hdrop (rest : List Token) :
      ((rest.dropWhile (·.kind = .endOfLine)).headD ⟨.endOfFile, 0, []⟩).kind =
        (rest.find? (·.kind ≠ .endOfLine)).elim .endOfFile Token.kind := by
    induction rest with
    | nil => rfl
    | cons token rest ih =>
      by_cases h : token.kind = .endOfLine
      · simpa [h] using ih
      · simp [h]
  cases hr : s.rest with
  | nil => exact absurd (State.kind_nil hr) he
  | cons token rest =>
    rw [State.kind_cons hr] at he
    have hrest : s.advance.rest = rest.dropWhile (·.kind = .endOfLine) := by
      simp [State.advance, State.settle, State.dropNewlines, hr, he, hs.1]
    rw [State.kind, State.current, hrest, hdrop, State.nextKind, hr, hs.1]
    simp

theorem bareEnds_readArgument (hr : ReaderEnds tokens n readExpr) (hst : ReaderStarts readExpr)
    (terminator : Kind) (start : Token) :
    Triple tokens n (fun s => s.Skipping ∧ s.current = start) (readArgument readExpr terminator)
      (BareEnds start) := by
  rintro s ha ⟨hs, rfl⟩
  simp only [readArgument, run_look_bind]
  split
  · rename_i hk
    exact .inr (.inr ⟨⟨rfl, rfl⟩, rfl, .of_previous (ha.previous_advance (by simp [hk]) hs.2)⟩)
  split
  · rename_i hk
    exact .inr (.inl ⟨rfl, hk, rfl⟩)
  split
  · rename_i hk
    have he : s.kind ≠ .endOfFile := by rcases hk.1 with h | h <;> simp [h]
    have ha' := ha.onward s.onward_advance.passes
    have hequal : s.advance.kind = .equal := (hs.kind_advance he).trans hk.2
    have hprevious : Ends [.token s.advance.current] s.advance.advance :=
      .of_previous (ha'.previous_advance (by simp [hequal]) (by simp [hequal]))
    have habsent : Triple tokens n (Ends [.token s.advance.current]) (pure ())
        fun _ => Ends [.token s.advance.current] := .pure fun _ h => h
    have hvalue := ends_readValue hr terminator habsent _
      (ha'.onward s.advance.onward_advance.passes) hprevious
    exact .inr (.inr ⟨⟨rfl, rfl⟩, rfl, hvalue.prepend [.token s.current]⟩)
  · have hfirst := hst .help s
    rw [Starts] at hfirst
    exact .inr (.inr ⟨⟨rfl, rfl⟩, by simpa [bareParts, Part.tokens] using hfirst,
      hr .help s ha trivial⟩)

theorem bareEnds_readParameter (hr : ReaderEnds tokens n readExpr) (terminator : Kind)
    (start : Token) :
    Triple tokens n (fun s => s.Skipping ∧ s.current = start) (readParameter readExpr terminator)
      (BareEnds start) := by
  rintro s ha ⟨hs, rfl⟩
  simp only [readParameter, run_look_bind]
  split
  · rename_i hk
    exact .inr (.inr ⟨⟨rfl, rfl⟩, rfl, .of_previous (ha.previous_advance (by simp [hk]) hs.2)⟩)
  split
  · rename_i hk
    exact .inr (.inl ⟨rfl, hk, rfl⟩)
  split
  · rename_i hk
    have hname : Ends [.token s.current] s.advance :=
      .of_previous (ha.previous_advance (by simp [hk]) hs.2)
    have ha' := ha.onward s.onward_advance.passes
    have hequals := ends_accept .equal (by decide) (by decide) _ ha' hname
    exact .inr (.inr ⟨⟨rfl, rfl⟩, rfl,
      ends_readDefault hr terminator _ _ (ha'.run (accept .equal)) hequals⟩)
  · exact .inl rfl

theorem bareEnds_readBareItem (hr : ReaderEnds tokens n readExpr) (hst : ReaderStarts readExpr)
    (terminator : Kind) (start : Token) : (role : ListRole) →
      Triple tokens n (fun s => s.Skipping ∧ s.current = start)
        (readBareItem readExpr terminator role) (BareEnds start)
  | .arguments => bareEnds_readArgument hr hst terminator start
  | .parameters => bareEnds_readParameter hr terminator start

theorem tokensBetween_ends {s t : State} (hs : s.kind ≠ .endOfLine) (hp : s.Passes t)
    (hr : t.rest ≠ s.rest) :
    (tokensBetween s.rest t.rest).head? = some s.current ∧
      ∃ token, (tokensBetween s.rest t.rest).getLast? = some token ∧ t.previous = some token := by
  obtain ⟨gone, hg, _, hl⟩ := hp
  have hd : s.rest.take (s.rest.length - t.rest.length) = gone := by
    rw [hg, List.length_append, Nat.add_sub_cancel, List.take_left]
  cases gone with
  | nil => exact absurd hg.symm hr
  | cons first gone =>
    have hf : s.current = first := by simp [State.current, hg]
    rw [State.kind, hf] at hs
    obtain ⟨front, last, lines, hgone, hk, hlines, hlast⟩ :=
      State.exists_counted ⟨first, List.mem_cons_self, hs⟩
    have hkept : ((first :: gone).reverse.dropWhile (·.kind = .endOfLine)).reverse =
        front ++ [last] := by
      rw [hgone, List.reverse_append, List.reverse_cons, List.append_assoc,
        List.dropWhile_append_of_pos (by simpa using hlines)]
      simp [hk]
    have htokens : tokensBetween s.rest t.rest = front ++ [last] := by
      simp only [tokensBetween, hd, hkept]
      simp
    rw [htokens, hf]
    refine ⟨?_, last, by simp, hl.trans (hlast _)⟩
    cases front with
    | nil =>
      rw [List.nil_append, List.cons.injEq] at hgone
      simp [hgone.1]
    | cons token front =>
      rw [List.cons_append, List.cons.injEq] at hgone
      simp [hgone.1]

structure StartsItem (terminator : Kind) (start : Token) (s : State) : Prop where
  skipping : s.Skipping
  current : s.current = start
  not_terminator : s.kind ≠ terminator
  not_file : s.kind ≠ .endOfFile
  not_curly : s.kind ≠ .rightCurly

structure Salvaged (terminator : Kind) (start : Token) (item : Item) (s : State) : Prop where
  bare : IsBare item
  recovering : s.recovering = false
  kind : s.kind = .comma ∨ s.kind = terminator ∨ s.kind = .rightCurly ∨ s.kind = .endOfFile
  start : item = .missing none ∧ s.kind = .comma ∧ s.current = start ∨
    (Part.tokens (bareParts item)).head? = some start ∧
      (s.kind = .comma ∨ Ends (bareParts item) s)

theorem salvaged_of_not_recovering {terminator : Kind} {start : Token} {item : Item} {s : State}
    (hb : BareEnds start item s) (hs : s.recovering = false)
    (hk : endsItem terminator s.kind = true) : Salvaged terminator start item s := by
  simp only [endsItem, Bool.or_eq_true, decide_eq_true_eq] at hk
  have hkind : s.kind = .comma ∨ s.kind = terminator ∨ s.kind = .rightCurly ∨
      s.kind = .endOfFile := by
    rcases hk with ((h | h) | h) | h <;> simp [h]
  rcases hb with h | ⟨rfl, hc, hstart⟩ | ⟨hbare, hhead, hends⟩
  · simp [hs] at h
  · exact ⟨⟨rfl, rfl⟩, hs, hkind, .inl ⟨rfl, hc, hstart⟩⟩
  · exact ⟨hbare, hs, hkind, .inr ⟨hhead, .inr hends⟩⟩

/-- What is given up reaches from the first token to where recovery ends. -/
theorem salvaged_of_recover {terminator : Kind} (ht : ClosesList terminator) {s t : State}
    {start : Token} (ha : s.Amid tokens n) (hs : StartsItem terminator start s)
    (hp : s.Passes t) :
    let after := t.recover fun kind => kind = .comma || kind = terminator
    Salvaged terminator start (.unreadable (tokensBetween s.rest after.rest) none) after := by
  let stops : Kind → Bool := fun kind => kind = .comma || kind = terminator
  intro after
  have hk : after.kind = .comma ∨ after.kind = terminator ∨ after.kind = .rightCurly ∨
      after.kind = .endOfFile := by
    have hl : stops .endOfLine = false := by
      rcases ht with rfl | rfl <;> rfl
    rcases t.kind_recover hl with h | h | h
    · exact .inr (.inr (.inr h))
    · exact .inr (.inr (.inl h))
    · simp only [stops, Bool.or_eq_true, decide_eq_true_eq] at h
      exact h.imp_right .inl
  refine ⟨⟨rfl, rfl⟩, (State.settle_frame _).2.2.2, hk, .inr ?_⟩
  rw [bareParts, Part.tokens_map]
  by_cases hr : after.rest = s.rest
  · have hkind : after.kind = s.kind := State.kind_congr hr
    obtain ⟨rest, hrest⟩ := ha.rest_eq_cons
    refine ⟨?_, .inl (hk.resolve_right fun h => ?_)⟩
    · rw [hr, hrest]
      simp [tokensBetween, hs.current]
    · rw [hkind] at h
      exact h.elim hs.not_terminator fun h => h.elim hs.not_curly hs.not_file
  · obtain ⟨hhead, token, hlast, hprevious⟩ :=
      tokensBetween_ends hs.skipping.2 (hp.trans (t.onward_recover _).passes) hr
    refine ⟨hs.current ▸ hhead, .inr (.inr (.inr (.inr ⟨token, ?_, hprevious⟩)))⟩
    rw [Part.tokens_map]
    exact hlast

structure ItemRead (terminator : Kind) (start : Token) (item : Item) (s : State) : Prop where
  not_stub : item.isStub = false
  head : item.tokens.head? = some start
  ends : (∃ comma, item.comma = some comma ∧ item.tokens.getLast? = some comma ∧
      s.previous = some comma) ∨
    item.comma = none ∧ s.recovering = false ∧
      (s.kind = terminator ∨ s.kind = .rightCurly ∨ s.kind = .endOfFile) ∧ Ends item.parts s

theorem attachComma_of_isBare {item : Item} (h : IsBare item) (comma : Option Token) :
    (attachComma item comma).comma = comma ∧ (attachComma item comma).isStub = false := by
  cases comma with
  | none => exact h
  | some comma =>
    obtain ⟨_, hs⟩ := h
    cases item with
    | stub => cases hs
    | positional _ | named _ _ _ | ellipsis _ | missing | unreadable _ => exact ⟨rfl, rfl⟩

theorem Salvaged.itemRead {terminator : Kind} {start : Token} {item : Item} {s : State}
    (h : Salvaged terminator start item s) (ha : s.Amid tokens n) :
    ItemRead terminator start (attachComma item ((accept .comma).run s).1)
      ((accept .comma).run s).2 := by
  have hparts (comma : Option Token) :
      (attachComma item comma).parts = bareParts item ++ Part.ofToken? comma := by
    rw [Item.parts, outline_attachComma .arguments h.bare]
    rfl
  have hcomma := attachComma_of_isBare h.bare
  by_cases hk : s.kind = .comma
  · rw [show (accept .comma).run s = (some s.current, s.advance) from if_pos hk]
    refine ⟨(hcomma _).2, ?_, .inl ⟨s.current, (hcomma _).1, ?_, ha.previous_advance
      (by simp [hk]) (by simp [hk])⟩⟩ <;> rw [Item.tokens, hparts, Part.tokens_append]
    · rcases h.start with ⟨rfl, _, rfl⟩ | ⟨hhead, _⟩
      · rfl
      · rw [List.head?_append, hhead]
        rfl
    · simp [Part.ofToken?, Part.tokens]
  · rw [show (accept .comma).run s = (none, s) from if_neg hk]
    obtain ⟨hhead, hends⟩ := h.start.resolve_left fun hm => hk hm.2.1
    refine ⟨(hcomma _).2, ?_, .inr ⟨(hcomma _).1, h.recovering, ?_, ?_⟩⟩
    · rw [Item.tokens, hparts, Part.tokens_append, List.head?_append, hhead]
      rfl
    · exact h.kind.resolve_left hk
    · rw [hparts, show Part.ofToken? none = [] from rfl, List.append_nil]
      exact hends.resolve_left hk

theorem itemRead_readItem (hr : ReaderEnds tokens n readExpr) (hst : ReaderStarts readExpr)
    (role : ListRole) {terminator : Kind} (ht : ClosesList terminator) (start : Token) :
    Triple tokens n (StartsItem terminator start) (readItem readExpr role terminator)
      (ItemRead terminator start) := by
  intro s ha hs
  let read := (readBareItem readExpr terminator role).run s
  let checked := ((unexpectedUnless (endsItem terminator)).run read.2).2
  let salvaged := (salvage s.rest s.completed terminator read.1).run checked
  have hp : s.Passes checked := ((readBareItem readExpr terminator role).onward s).passes.trans
    ((unexpectedUnless (endsItem terminator)).onward read.2).passes
  suffices h : Salvaged terminator start salvaged.1 salvaged.2 from
    h.itemRead ((ha.onward hp).run (salvage s.rest s.completed terminator read.1))
  by_cases hf : checked.recovering = true
  · rw [show salvaged = _ from if_pos hf]
    have h := salvaged_of_recover ht ha hs hp
    exact ⟨h.bare, h.recovering, h.kind, h.start⟩
  · rw [show salvaged = (read.1, checked) from if_neg hf]
    rw [Bool.not_eq_true] at hf
    have hb : BareEnds start read.1 read.2 :=
      bareEnds_readBareItem hr hst terminator start role s ha ⟨hs.skipping, hs.current⟩
    have hchecked : checked = read.2 := unexpectedUnless_eq hf
    have hfits : checked.recovering = true ∨ endsItem terminator checked.kind = true :=
      unexpectedUnless_fits _ read.2
    exact salvaged_of_not_recovering (hchecked ▸ hb) hf (hfits.resolve_left (by simp [hf]))

end Reading

end LenientR
