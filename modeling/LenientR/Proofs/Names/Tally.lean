import LenientR.Proofs.Laying.Reading

/-!
# Names read and names reported

Each token is gone over once, so it names at most one parameter. `Tally` follows one token through
reading: how often it has named an item of the lists read so far, and how often it was reported as a
name used before. Both are told by the lists of parameters read on the way, those given up later
among them.
-/

namespace LenientR

def Item.nameToken? : Item → Option Token
  | named name _ _ _ => some name
  | ellipsis token _ => some token
  | _ => none

def timesNaming (name : Token) (items : List Item) : Nat :=
  (items.filterMap Item.nameToken?).count name

def Expr.parameters? : Expr → Option (List Item)
  | function _ _ parameters _ _ => some parameters
  | _ => none

theorem timesNaming_nil (name : Token) : timesNaming name [] = 0 := rfl

theorem timesNaming_append (name : Token) (items more : List Item) :
    timesNaming name (items ++ more) = timesNaming name items + timesNaming name more := by
  rw [timesNaming, List.filterMap_append, List.count_append]
  rfl

theorem timesNaming_cons (name : Token) (item : Item) (items : List Item) :
    timesNaming name (item :: items) = timesNaming name [item] + timesNaming name items :=
  timesNaming_append name [item] items

theorem Item.nameToken?_withComma (item : Item) (comma : Token) :
    (item.withComma comma).nameToken? = item.nameToken? := by
  cases item <;> rfl

namespace Reading

variable {name : Token} {n before between after : Nat} {s t u : State} {readExpr : ExprReader}
  {lists more : List (List Item)}

theorem count_repeatedNames_le (name : Token) (parameters : List Item) (seen : List Token) :
    (repeatedNames parameters seen).count name ≤ timesNaming name parameters := by
  induction parameters generalizing seen with
  | nil => exact Nat.le_refl _
  | cons parameter rest ih =>
    rw [timesNaming_cons]
    cases parameter with
    | named found equals value comma =>
      rw [repeatedNames]
      split
      · have hrest := ih seen
        have hone : timesNaming name [.named found equals value comma] = [found].count name := rfl
        rw [← List.singleton_append, List.count_append, hone]
        omega
      · have hrest := ih (found :: seen)
        omega
    | positional | ellipsis | missing | unreadable | stub =>
      exact Nat.le_trans (ih seen) (Nat.le_add_left _ _)

-- ---------------------------------------------------------------------------
-- Tallies
-- ---------------------------------------------------------------------------

def State.timesReported (name : Token) (s : State) : Nat :=
  s.problems.count (.duplicateParameter name)

/-- Some parameter lists are read from one state to another. Besides them there are items in no list
yet, of which the token names `before` in the first state and `after` in the second. -/
structure Tally (name : Token) (lists : List (List Item)) (before : Nat) (s t : State)
    (after : Nat) : Prop where
  reported : t.timesReported name =
    s.timesReported name + (lists.flatMap (repeatedNames · [])).count name
  /-- A token that names an item is gone over. -/
  named : timesNaming name lists.flatten + after + t.rest.count name ≤ before + s.rest.count name
  functions : ∀ e ∈ t.completed, e ∈ s.completed ∨
    ∀ parameters, e.parameters? = some parameters → parameters ∈ lists

/-- From one state to another, whatever lists are read. -/
def Tallied (name : Token) (before : Nat) (s t : State) (after : Nat) : Prop :=
  ∃ lists, Tally name lists before s t after

theorem Tally.trans (h : Tally name lists before s t between)
    (k : Tally name more between t u after) : Tally name (lists ++ more) before s u after where
  reported := by
    have hs := h.reported
    have ht := k.reported
    rw [List.flatMap_append, List.count_append]
    omega
  named := by
    have hs := h.named
    have ht := k.named
    rw [List.flatten_append, timesNaming_append]
    omega
  functions e he := by
    rcases k.functions e he with he | hm
    · exact (h.functions e he).imp_right fun hm parameters hp =>
        List.mem_append_left _ (hm parameters hp)
    · exact .inr fun parameters hp => List.mem_append_right _ (hm parameters hp)

theorem Tally.quiet (hp : s.Passes t) (hr : t.timesReported name = s.timesReported name)
    (hc : t.completed = s.completed) : Tally name [] n s t n where
  reported := hr
  named := by
    obtain ⟨gone, hg, _⟩ := hp
    rw [hg, List.count_append, List.flatten_nil, timesNaming_nil]
    omega
  functions _ he := .inl (hc ▸ he)

theorem Tally.besides (h : Tally name lists before s t after) (n : Nat) :
    Tally name lists (n + before) s t (n + after) where
  reported := h.reported
  named := by
    have := h.named
    omega
  functions := h.functions

theorem Tally.less (h : Tally name lists before s t between) (hle : after ≤ between) :
    Tally name lists before s t after where
  reported := h.reported
  named := Nat.le_trans (by omega) h.named
  functions := h.functions

theorem Tallied.trans (h : Tallied name before s t between)
    (k : Tallied name between t u after) : Tallied name before s u after := by
  obtain ⟨lists, h⟩ := h
  obtain ⟨more, k⟩ := k
  exact ⟨lists ++ more, h.trans k⟩

theorem Tallied.quiet (hp : s.Passes t) (hr : t.timesReported name = s.timesReported name)
    (hc : t.completed = s.completed) : Tallied name n s t n :=
  ⟨[], .quiet hp hr hc⟩

theorem Tallied.refl (s : State) : Tallied name n s s n := .quiet (.of_eq rfl rfl) rfl rfl

theorem Tallied.less (h : Tallied name before s t between) (hle : after ≤ between) :
    Tallied name before s t after := by
  obtain ⟨lists, h⟩ := h
  exact ⟨lists, h.less hle⟩

/-- What an action does to the tally of a name, given the items in no list yet before it and in its
answer. -/
def Tallies (name : Token) (before : Nat) (action : Action α) (after : α → Nat) : Prop :=
  ∀ s, Tallied name before s (action.run s).2 (after (action.run s).1)

def Balances (name : Token) (action : Action α) : Prop := Tallies name 0 action fun _ => 0

def ReaderBalances (name : Token) (readExpr : ExprReader) : Prop :=
  ∀ level, Balances name (readExpr level)

namespace Tallies

variable {action : Action α} {mid : α → Nat}

theorem bind {next : α → Action β} {post : β → Nat} (h : Tallies name before action mid)
    (hn : ∀ x, Tallies name (mid x) (next x) post) :
    Tallies name before (action >>= next) post :=
  fun s => (h s).trans (hn _ _)

theorem pure {x : α} (h : mid x = n) : Tallies name n (pure x) mid := fun s => by
  rw [run_pure, h]
  exact .refl s

theorem look_bind {view : State → β} {next : β → Action α}
    (h : ∀ x, Tallies name before (next x) mid) : Tallies name before (look view >>= next) mid :=
  fun s => h (view s) s

theorem ite {c : Prop} [Decidable c] {a b : Action α} (h : c → Tallies name before a mid)
    (h' : ¬c → Tallies name before b mid) :
    Tallies name before (if c then a else b) mid := by
  split
  · rename_i hc
    exact h hc
  · rename_i hc
    exact h' hc

theorem besides (h : Tallies name before action mid) (n : Nat) :
    Tallies name (n + before) action fun x => n + mid x := by
  intro s
  obtain ⟨lists, h⟩ := h s
  exact ⟨lists, h.besides n⟩

end Tallies

namespace Balances

variable {action : Action α}

theorem map {f : α → β} (h : Balances name action) : Balances name (f <$> action) := h

theorem keep (h : Balances name action) : Tallies name n action fun _ => n :=
  Tallies.besides h n

theorem quiet (h : ∀ s, (action.run s).2.timesReported name = s.timesReported name ∧
    (action.run s).2.completed = s.completed) : Balances name action :=
  fun s => .quiet (action.onward s).passes (h s).1 (h s).2

theorem inBlock (h : Balances name action) : Balances name (inBlock action) := by
  intro s
  have hbefore : Tallied name 0 s { s with blockDepth := s.blockDepth + 1 } 0 :=
    .quiet (.of_eq rfl rfl) rfl rfl
  exact (hbefore.trans (h _)).trans (.quiet (.of_eq rfl rfl) rfl rfl)

end Balances

-- ---------------------------------------------------------------------------
-- Steps
-- ---------------------------------------------------------------------------

theorem State.timesReported_settle (name : Token) (s : State) :
    s.settle.timesReported name = s.timesReported name :=
  congrArg (List.count (Problem.duplicateParameter name)) s.settle_frame.2.2.1

theorem State.timesReported_advance (name : Token) (s : State) :
    s.advance.timesReported name = s.timesReported name := by
  unfold advance
  split
  · rfl
  split
  · rfl
  · exact timesReported_settle name _

theorem State.timesReported_report {problem : Problem} (h : problem ≠ .duplicateParameter name)
    (s : State) : (s.report problem).timesReported name = s.timesReported name :=
  List.count_cons_of_ne h

theorem Tallied.settle (s : State) (skips : Bool) :
    Tallied name n s { s with skipsNewlines := skips }.settle n :=
  .quiet (.trans (t := { s with skipsNewlines := skips }) (.of_eq rfl rfl) (State.passes_settle _))
    (State.timesReported_settle name _) (State.completed_settle _)

theorem Tallies.withNewlines (skips : Bool) {action : Action α} {mid : α → Nat}
    (h : Tallies name before action mid) : Tallies name before (withNewlines skips action) mid :=
  fun s => ((Tallied.settle s skips).trans (h _)).trans (.settle _ s.skipsNewlines)

theorem balances_advance : Balances name advance :=
  .quiet fun s => ⟨s.timesReported_advance name, s.completed_advance⟩

theorem tallied_advance (hk : s.kind ≠ .endOfFile) :
    Tallied name 0 s s.advance ([s.current].count name) := by
  obtain ⟨gone, hg, _⟩ := s.onward_advance.passes
  refine ⟨[], s.timesReported_advance name, ?_, fun e he => .inl (s.completed_advance ▸ he)⟩
  cases hr : s.rest with
  | nil => exact absurd (State.kind_nil hr) hk
  | cons token rest =>
    have htoken : s.current = token := by simp [State.current, hr]
    have hsuffix : s.advance.rest <:+ rest := by
      let previous := if token.kind = .endOfLine then s.previous else some token
      obtain ⟨more, hm, _⟩ := State.passes_settle { s with rest := rest, previous := previous }
      rw [State.kind, htoken] at hk
      simp only [State.advance, hr, hk, if_false]
      exact ⟨more, hm.symm⟩
    have hle := hsuffix.sublist.count_le name
    have hcount : (token :: rest).count name = [token].count name + rest.count name := by
      rw [← List.count_append, List.singleton_append]
    rw [htoken, hcount, List.flatten_nil, timesNaming_nil]
    omega

theorem balances_accept (kind : Kind) : Balances name (accept kind) :=
  .quiet fun s => by
    simp only [accept]
    split
    · exact ⟨s.timesReported_advance name, s.completed_advance⟩
    · exact ⟨rfl, rfl⟩

theorem balances_acceptOr (kind : Kind) {problem : State → Problem}
    (h : ∀ s, problem s ≠ .duplicateParameter name) : Balances name (acceptOr kind problem) :=
  .quiet fun s => by
    simp only [acceptOr]
    split
    · exact ⟨s.timesReported_advance name, s.completed_advance⟩
    · exact ⟨State.timesReported_report (h s) s, rfl⟩

theorem balances_expect (kind : Kind) : Balances name (expect kind) :=
  balances_acceptOr kind fun _ => by simp

theorem balances_takeClosing (opening : Token) (closing : Kind) :
    Balances name (takeClosing opening closing) :=
  balances_acceptOr closing fun _ => by simp

theorem balances_report {problem : Problem} (h : problem ≠ .duplicateParameter name) :
    Balances name (report problem) :=
  .quiet fun s => ⟨s.timesReported_report h, rfl⟩

theorem balances_reportCurrent {problem : Token → Problem}
    (h : ∀ token, problem token ≠ .duplicateParameter name) :
    Balances name (reportCurrent problem) :=
  .quiet fun s => ⟨s.timesReported_report (h s.current), rfl⟩

theorem balances_fail {problem : State → Problem}
    (h : ∀ s, problem s ≠ .duplicateParameter name) : Balances name (fail problem) :=
  .quiet fun s => ⟨s.timesReported_report (h s), rfl⟩

theorem balances_complete {e : Expr} (h : e.parameters? = none) : Balances name (complete e) := by
  intro s
  refine ⟨[], rfl, by simp [complete, timesNaming], fun found hm => ?_⟩
  rcases List.mem_cons.1 hm with rfl | hm
  · exact .inr fun parameters hp => absurd (hp.symm.trans h) (Option.some_ne_none parameters)
  · exact .inl hm

theorem balances_dropNewlines : Balances name dropNewlines := .quiet fun _ => ⟨rfl, rfl⟩

theorem balances_recoverIfNeeded (stops : Kind → Bool) : Balances name (recoverIfNeeded stops) :=
  .quiet fun s => by
    simp only [recoverIfNeeded, update]
    split
    · exact ⟨State.timesReported_settle name _, s.completed_recover stops⟩
    · exact ⟨rfl, rfl⟩

theorem balances_unexpectedUnless (fits : Kind → Bool) : Balances name (unexpectedUnless fits) :=
  .quiet fun s => by
    simp only [unexpectedUnless, update]
    split
    · exact ⟨rfl, rfl⟩
    · exact ⟨s.timesReported_report (by simp), rfl⟩

theorem balances_readName : Balances name readName :=
  .quiet fun s => by
    simp only [readName]
    split
    · exact ⟨s.timesReported_advance name, s.completed_advance⟩
    · exact ⟨s.timesReported_report (by simp), rfl⟩

theorem balances_elseFollows : Balances name elseFollows :=
  .quiet fun s => by
    simp only [elseFollows]
    split
    · exact ⟨rfl, rfl⟩
    split
    · exact ⟨rfl, rfl⟩
    split <;> exact ⟨rfl, rfl⟩

theorem balances_endStatement : Balances name endStatement :=
  .quiet fun s => by
    simp only [endStatement, update]
    split
    · exact ⟨rfl, rfl⟩
    · exact ⟨s.timesReported_report (by simp), rfl⟩

-- ---------------------------------------------------------------------------
-- Items
-- ---------------------------------------------------------------------------

theorem balances_readValue (hr : ReaderBalances name readExpr) (terminator : Kind)
    {ifAbsent : Action Unit} (h : Balances name ifAbsent) :
    Balances name (readValue readExpr terminator ifAbsent) :=
  .look_bind fun _ => .ite (fun _ => h.bind fun _ => .pure rfl) fun _ => (hr .help).map

theorem balances_readDefault (hr : ReaderBalances name readExpr) (terminator : Kind) :
    (equals : Option Token) → Balances name (readDefault readExpr terminator equals)
  | none => .pure rfl
  | some _ => balances_readValue hr terminator (balances_reportCurrent fun _ => by simp)

theorem Tallies.advance_bind {next : Token → Action α} {mid : α → Nat}
    (hk : s.kind ≠ .endOfFile) (hn : ∀ token, Tallies name ([token].count name) (next token) mid) :
    Tallied name 0 s ((advance >>= next).run s).2 (mid ((advance >>= next).run s).1) :=
  (tallied_advance hk).trans (hn s.current s.advance)

theorem tallies_readArgument (hr : ReaderBalances name readExpr) (terminator : Kind) :
    Tallies name 0 (readArgument readExpr terminator) fun item => timesNaming name [item] := by
  intro s
  simp only [readArgument, run_look_bind]
  split
  · rename_i hk
    exact Tallies.advance_bind (by simp [hk]) fun _ => .pure rfl
  split
  · exact Tallies.pure rfl s
  split
  · rename_i hk
    have hfile : s.kind ≠ .endOfFile := by rcases hk.1 with h | h <;> simp [h]
    exact Tallies.advance_bind hfile fun _ => balances_advance.keep.bind fun _ =>
      (balances_readValue hr terminator (.pure rfl)).keep.bind fun _ => .pure rfl
  · exact (Tallies.bind (hr .help) fun _ => .pure rfl) s

theorem tallies_readParameter (hr : ReaderBalances name readExpr) (terminator : Kind) :
    Tallies name 0 (readParameter readExpr terminator) fun item => timesNaming name [item] := by
  intro s
  simp only [readParameter, run_look_bind]
  split
  · rename_i hk
    exact Tallies.advance_bind (by simp [hk]) fun _ => .pure rfl
  split
  · exact (Tallies.bind (balances_reportCurrent fun _ => by simp) fun _ => .pure rfl) s
  split
  · rename_i hk
    exact Tallies.advance_bind (by simp [hk]) fun _ => (balances_accept .equal).keep.bind fun _ =>
      (balances_readDefault hr terminator _).keep.bind fun _ => .pure rfl
  · exact (Tallies.bind (balances_fail fun _ => by simp) fun _ => .pure rfl) s

theorem tallies_readBareItem (hr : ReaderBalances name readExpr) (terminator : Kind) :
    (role : ListRole) →
      Tallies name 0 (readBareItem readExpr terminator role) fun item => timesNaming name [item]
  | .arguments => tallies_readArgument hr terminator
  | .parameters => tallies_readParameter hr terminator

/-- What is completed within an item that is given up is discarded; what was reported stays so. -/
theorem Tallied.salvage {item : Item} (terminator : Kind)
    (h : Tallied name 0 s t (timesNaming name [item])) :
    let salvaged := (salvage s.rest s.completed terminator item).run t
    Tallied name 0 s salvaged.2 (timesNaming name [salvaged.1]) := by
  intro salvaged
  by_cases hf : t.recovering = true
  · let stops (kind : Kind) : Bool := kind = .comma || kind = terminator
    have hrun : salvaged = (.unreadable (tokensBetween s.rest (t.recover stops).rest) none,
        { t.recover stops with completed := s.completed }) := if_pos hf
    have hrecover : Tallied name (timesNaming name [item]) t (t.recover stops)
        (timesNaming name [item]) :=
      .quiet (t.onward_recover stops).passes (State.timesReported_settle name _)
        (t.completed_recover stops)
    obtain ⟨lists, hlists⟩ := h.trans hrecover
    rw [hrun]
    exact ⟨lists, hlists.reported, (hlists.less (Nat.zero_le _)).named, fun _ he => .inl he⟩
  · have hrun : salvaged = (item, t) := if_neg hf
    rw [hrun]
    exact h

theorem timesNaming_attachComma (name : Token) (item : Item) (comma : Option Token) :
    timesNaming name [attachComma item comma] = timesNaming name [item] := by
  cases comma with
  | none => rfl
  | some comma =>
    rw [timesNaming, timesNaming, attachComma, List.filterMap_cons, List.filterMap_cons,
      Item.nameToken?_withComma]

theorem tallies_readItem (hr : ReaderBalances name readExpr) (role : ListRole)
    (terminator : Kind) :
    Tallies name 0 (readItem readExpr role terminator) fun item => timesNaming name [item] := by
  intro s
  have hbare := (tallies_readBareItem hr terminator role s).trans
    ((balances_unexpectedUnless (endsItem terminator)).keep _)
  have hitem := (hbare.salvage terminator).trans ((balances_accept .comma).keep _)
  rw [← timesNaming_attachComma] at hitem
  exact hitem

-- ---------------------------------------------------------------------------
-- Lists
-- ---------------------------------------------------------------------------

theorem tallies_readItems (hr : ReaderBalances name readExpr) (role : ListRole)
    (terminator : Kind) (bound : Nat) (slot : Slot) :
    Tallies name 0 (readItems readExpr role terminator bound slot) (timesNaming name) := by
  induction bound generalizing slot with
  | zero => exact .pure rfl
  | succ bound ih =>
    have hempty : Balances name (reportEmptySlot role slot) :=
      .ite (fun _ => balances_reportCurrent fun _ => by simp) fun _ => .pure rfl
    refine .look_bind fun _ => .ite (fun _ => hempty.keep.bind fun _ => .pure rfl) fun _ =>
      .ite (fun _ => .pure ?_) fun _ => .ite (fun _ => .pure rfl) fun _ => ?_
    · split <;> rfl
    · exact (tallies_readItem hr role terminator).bind fun item =>
        ((ih (.after item)).besides _).bind fun others => .pure (timesNaming_cons name item others)

/-- A list that is cut off has no items, and what was completed within it is discarded. -/
theorem tallies_readList (hr : ReaderBalances name readExpr) (bound : Nat) (role : ListRole)
    (opening : Token) (terminator : Kind) :
    Tallies name 0 (readList readExpr bound role opening terminator)
      fun found => timesNaming name found.1 := by
  intro s
  let items := readItems readExpr role terminator bound .opening
  let read := (withNewlines true items).run s
  have hread : Tallied name 0 s read.2 (timesNaming name read.1) :=
    (tallies_readItems hr role terminator bound .opening).withNewlines true s
  obtain ⟨lists, hclosed⟩ :=
    hread.trans ((balances_takeClosing opening terminator).keep read.2)
  rw [readList, run_look_bind, run_bind, finishList, run_look_bind, run_bind]
  split
  · exact ⟨lists, hclosed.reported, (hclosed.less (Nat.zero_le _)).named, fun _ he => .inl he⟩
  · exact ⟨lists, hclosed⟩

theorem timesReported_foldl (names : List Token) (s : State) :
    (names.foldl (fun s name => s.report (.duplicateParameter name)) s).timesReported name =
      s.timesReported name + names.count name := by
  induction names generalizing s with
  | nil => rfl
  | cons first rest ih =>
    have hfirst : (s.report (.duplicateParameter first)).timesReported name =
        s.timesReported name + [first].count name := by
      rw [State.timesReported, State.report, List.count_cons, List.count_singleton]
      simp only [beq_iff_eq, Problem.duplicateParameter.injEq]
      rfl
    rw [List.foldl_cons, ih, hfirst, Nat.add_assoc, ← List.count_append, List.singleton_append]

theorem tally_reportRepeatedNames (parameters : List Item) (s : State) :
    Tally name [parameters] (timesNaming name parameters) s
      ((reportRepeatedNames parameters).run s).2 0 := by
  obtain ⟨problems, hrun⟩ := reportRepeatedNames_run parameters s
  refine ⟨?_, ?_, fun e he => .inl ?_⟩
  · rw [List.flatMap_singleton]
    exact timesReported_foldl _ s
  · rw [hrun, List.flatten_singleton]
    exact Nat.le_refl _
  · rw [hrun] at he
    exact he

end Reading

end LenientR
