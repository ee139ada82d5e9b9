import LenientR.Proofs.Laying.Arena
import LenientR.Proofs.Lists.Reading

/-!
# What items are given up for

Reading fails only for a problem, and an item that is given up holds the token of that problem or
stands right in front of it. The first item of a list is the exception: where what stands before the
list has failed already, it is given up for that. A whole list is only given up at a closing brace.
-/

namespace LenientR

structure Problem.IsAbout (tokens own : List Token) (problem : Problem) : Prop where
  mem : problem.token ∈ tokens
  first : ∃ first, own.head? = some first ∧ first.start ≤ problem.token.start
  last : ∃ last next, own.getLast? = some last ∧ last.next? tokens = some next ∧
    problem.token.start ≤ next.start

/-- An item that is given up is so for a problem of its own. -/
def Item.Blamed (tokens : List Token) (problems : List Problem) (item : Item) : Prop :=
  ∀ own comma, item = .unreadable own comma → ∃ problem ∈ problems, problem.IsAbout tokens own

def Excused (problems : List Problem) (token : Token) : Prop :=
  ∃ problem ∈ problems, problem.token.start ≤ token.start

/-- The items of a list that are given up are so for a problem of their own; only the first one may
be for something in front of the list. -/
structure ItemsBlamed (tokens : List Token) (problems : List Problem) (opening : Token)
    (items : List Item) : Prop where
  first : ∀ item ∈ items.head?, item.Blamed tokens problems ∨ Excused problems opening
  others : ∀ item ∈ items.tail, item.Blamed tokens problems

/-- What the problems say of a list: what its items are given up for, and where the list itself is
if nothing of it is kept. -/
structure ListBlamed (tokens : List Token) (problems : List Problem) (opening : Token)
    (items : List Item) (closing : Option Token) : Prop where
  blamed : ItemsBlamed tokens problems opening items
  givenUp : items = [] → closing = none → ListGivenUp tokens problems opening

def Expr.Blamed (tokens : List Token) (problems : List Problem) : Expr → Prop :=
  Reading.ListFits (ListBlamed tokens problems)

section
variable {tokens : List Token} {problems more : List Problem}

theorem Item.Blamed.mono {item : Item} (h : item.Blamed tokens problems)
    (hm : problems ⊆ more) : item.Blamed tokens more := by
  intro own comma he
  obtain ⟨problem, hp, hb⟩ := h own comma he
  exact ⟨problem, hm hp, hb⟩

theorem Excused.mono {token : Token} (h : Excused problems token) (hm : problems ⊆ more) :
    Excused more token := by
  obtain ⟨problem, hp, hb⟩ := h
  exact ⟨problem, hm hp, hb⟩

theorem ItemsBlamed.mono {opening : Token} {items : List Item}
    (h : ItemsBlamed tokens problems opening items) (hm : problems ⊆ more) :
    ItemsBlamed tokens more opening items where
  first item hi := (h.first item hi).imp (·.mono hm) (·.mono hm)
  others item hi := (h.others item hi).mono hm

theorem ListBlamed.mono {opening : Token} {items : List Item} {closing : Option Token}
    (h : ListBlamed tokens problems opening items closing) (hm : problems ⊆ more) :
    ListBlamed tokens more opening items closing where
  blamed := h.blamed.mono hm
  givenUp hi hc := (h.givenUp hi hc).mono hm

theorem Expr.Blamed.mono {e : Expr} (h : e.Blamed tokens problems) (hm : problems ⊆ more) :
    e.Blamed tokens more :=
  fun opening items closing he => (h opening items closing he).mono hm

end

namespace Reading

variable {tokens start : List Token} {n bound : Nat} {readExpr : ExprReader}

/-- What has failed since `start` has done so for a problem, and the items given up so far are given
up for one. -/
structure Accounted (tokens start : List Token) (s : State) : Prop where
  suffix : s.rest <:+ start
  failure : s.recovering = true →
    ∃ problem ∈ s.problems, problem.token ∈ start ∧ problem.token.start ≤ s.current.start
  completed : ∀ e ∈ s.completed, e.Blamed tokens s.problems

/-- Right after the opening bracket of a list. What has failed already is no later than it. -/
structure OpensAt (tokens start : List Token) (opening : Token) (s : State) : Prop where
  accounted : Accounted tokens start s
  excused : s.recovering = true → Excused s.problems opening
  last : s.previous = some opening

/-- An action that leaves everything accounted for. -/
def Accounts (tokens : List Token) (n : Nat) (action : Action α) : Prop :=
  ∀ start, Triple tokens n (Accounted tokens start) action fun _ => Accounted tokens start

def ReaderAccounts (tokens : List Token) (n : Nat) (readExpr : ExprReader) : Prop :=
  ∀ level, Accounts tokens n (readExpr level)

/-- A list of which nothing is kept is closed, or given up at a closing brace. -/
def ListsGiveUp (tokens : List Token) (n : Nat) (readExpr : ExprReader) (bound : Nat) : Prop :=
  ∀ role opening terminator, ClosesList terminator →
    Triple tokens n (fun s => s.previous = some opening)
      (readList readExpr bound role opening terminator) fun found s =>
        found.1 = [] → found.2 = none → ListGivenUp tokens s.problems opening

theorem listsGiveUp_readExprWithin (ho : tokens.Pairwise (·.start < ·.start)) (bound : Nat) :
    ListsGiveUp tokens bound (readExprWithin bound) bound :=
  fun role opening _ ht =>
    (closed_readListWithin ho bound role opening ht).mono (fun _ => id) fun _ _ h => h.givenUp

section
variable (ho : tokens.Pairwise (·.start < ·.start))
include ho

theorem Accounted.onward {s t : State} (h : Accounted tokens start s) (ha : s.Amid tokens n)
    (hp : s.Passes t) (hq : s.problems ⊆ t.problems)
    (hr : t.recovering = true → s.recovering = true)
    (hc : ∀ e ∈ t.completed, e.Blamed tokens t.problems) : Accounted tokens start t where
  suffix := by
    obtain ⟨gone, hg, _⟩ := id hp
    have hsuffix : t.rest <:+ s.rest := ⟨gone, hg.symm⟩
    exact hsuffix.trans h.suffix
  failure hf := by
    obtain ⟨problem, hm, hs, hl⟩ := h.failure (hr hf)
    exact ⟨problem, hq hm, hs, Nat.le_trans hl (ha.start_le ho hp)⟩
  completed := hc

theorem Accounts.quiet {action : Action α}
    (h : ∀ s, ((action.run s).2.recovering = true → s.recovering = true) ∧
      (action.run s).2.completed = s.completed) : Accounts tokens n action := by
  intro start s ha hs
  have hon := action.onward s
  have hq := hon.problems.subset
  refine hs.onward ho ha hon.passes hq (h s).1 fun e he => ?_
  rw [(h s).2] at he
  exact (hs.completed e he).mono hq

end

namespace Accounts

variable {action : Action α}

theorem pure (x : α) : Accounts tokens n (pure x) := fun _ => .pure fun _ => id

theorem bind {next : α → Action β} (h : Accounts tokens n action)
    (hn : ∀ x, Accounts tokens n (next x)) : Accounts tokens n (action >>= next) :=
  fun start => (h start).bind fun x => hn x start

theorem look_bind {view : State → β} {next : β → Action α} (h : ∀ x, Accounts tokens n (next x)) :
    Accounts tokens n (look view >>= next) :=
  fun start => .look_bind fun x => (h x start).mono (fun _ h => h.2) fun _ _ => id

theorem ite {c : Prop} [Decidable c] {a b : Action α} (h : c → Accounts tokens n a)
    (h' : ¬c → Accounts tokens n b) : Accounts tokens n (if c then a else b) :=
  fun start => .ite (fun hc => h hc start) fun hc => h' hc start

theorem map {f : α → β} (h : Accounts tokens n action) : Accounts tokens n (f <$> action) :=
  fun start => (h start).map fun _ _ => id

theorem inBlock (h : Accounts tokens n action) : Accounts tokens n (inBlock action) := by
  intro start s ha hs
  have hi := h start { s with blockDepth := s.blockDepth + 1 } (ha.onward (.of_eq rfl rfl))
    ⟨hs.suffix, hs.failure, hs.completed⟩
  exact ⟨hi.suffix, hi.failure, hi.completed⟩

end Accounts

theorem Accounts.afterList {action : Action α} {opening : Token} {items : List Item}
    {closing : Option Token} (h : Accounts tokens n action) :
    Triple tokens n
      (fun s => Accounted tokens start s ∧ ListBlamed tokens s.problems opening items closing) action
      fun _ s => Accounted tokens start s ∧ ListBlamed tokens s.problems opening items closing :=
  fun s ha hs => ⟨h start s ha hs.1, hs.2.mono (action.onward s).problems.subset⟩

theorem Accounted.complete {s : State} {e : Expr} (h : Accounted tokens start s)
    (he : e.Blamed tokens s.problems) : Accounted tokens start ((complete e).run s).2 :=
  ⟨h.suffix, h.failure, List.forall_mem_cons.2 ⟨he, h.completed⟩⟩

theorem accounts_complete {e : Expr} (h : e.list? = none) : Accounts tokens n (complete e) :=
  fun _ _ _ hs => hs.complete (listFits_of_none h)

theorem Accounted.fail {s : State} {problem : Problem} (h : Accounted tokens start s)
    (ha : s.Amid tokens n) (hp : problem.token = s.current) :
    Accounted tokens start (s.fail problem) where
  suffix := h.suffix
  failure _ := by
    obtain ⟨rest, hr⟩ := ha.rest_eq_cons
    refine ⟨problem, List.mem_cons_self, ?_, hp ▸ Nat.le_refl _⟩
    rw [hp]
    exact h.suffix.subset (by rw [hr]; exact List.mem_cons_self)
  completed e he := (h.completed e he).mono (List.subset_cons_self _ _)

theorem accounts_fail {problem : State → Problem} (h : ∀ s, (problem s).token = s.current) :
    Accounts tokens n (fail problem) :=
  fun _ s ha hs => hs.fail ha (h s)

theorem Accounted.report {s : State} (h : Accounted tokens start s) (problem : Problem) :
    Accounted tokens start (s.report problem) where
  suffix := h.suffix
  failure hf := by
    obtain ⟨found, hm, hs, hl⟩ := h.failure hf
    exact ⟨found, List.mem_cons_of_mem _ hm, hs, hl⟩
  completed e he := (h.completed e he).mono (List.subset_cons_self _ _)

theorem accounts_reportCurrent (problem : Token → Problem) :
    Accounts tokens n (reportCurrent problem) :=
  fun _ _ _ hs => hs.report _

theorem accounts_unexpectedUnless (fits : Kind → Bool) :
    Accounts tokens n (unexpectedUnless fits) := by
  intro start s ha hs
  simp only [unexpectedUnless, update]
  split
  · exact hs
  · exact hs.fail ha rfl

section
variable (ho : tokens.Pairwise (·.start < ·.start))
include ho

theorem Accounted.settle {s : State} (h : Accounted tokens start s) (ha : s.Amid tokens n)
    (skips : Bool) : Accounted tokens start { s with skipsNewlines := skips }.settle := by
  let t : State := { s with skipsNewlines := skips }
  have hp : s.Passes t.settle := .trans (t := t) (.of_eq rfl rfl) (State.passes_settle _)
  obtain ⟨_, _, hproblems, hrecovering⟩ := t.settle_frame
  have hcompleted : t.settle.completed = s.completed := State.completed_settle t
  refine h.onward ho ha hp ?_ ?_ ?_
  · rw [hproblems]
    exact List.Subset.refl _
  · rw [hrecovering]
    exact id
  · rw [hproblems, hcompleted]
    exact h.completed

theorem Accounts.withNewlines (skips : Bool) {action : Action α} (h : Accounts tokens n action) :
    Accounts tokens n (withNewlines skips action) := by
  intro start s ha hs
  have hp : s.Passes { s with skipsNewlines := skips }.settle :=
    .trans (t := { s with skipsNewlines := skips }) (.of_eq rfl rfl) (State.passes_settle _)
  have hi := h start _ (ha.onward hp) (hs.settle ho ha skips)
  exact hi.settle ho ((ha.onward hp).run action) s.skipsNewlines

theorem accounts_advance : Accounts tokens n advance :=
  .quiet ho fun s => ⟨fun h => s.recovering_advance ▸ h, s.completed_advance⟩

theorem accounts_accept (kind : Kind) : Accounts tokens n (accept kind) := by
  intro start s ha hs
  simp only [accept]
  split
  · exact accounts_advance ho start s ha hs
  · exact hs

theorem accounts_acceptOr (kind : Kind) (problem : State → Problem) :
    Accounts tokens n (acceptOr kind problem) := by
  intro start s ha hs
  rcases acceptOr_run kind problem s with ⟨_, hrun⟩ | ⟨_, hrun⟩ <;> rw [hrun]
  · exact accounts_advance ho start s ha hs
  · exact hs.report _

theorem accounts_recoverIfNeeded (stops : Kind → Bool) :
    Accounts tokens n (recoverIfNeeded stops) :=
  .quiet ho fun s => by
    simp only [recoverIfNeeded, update]
    split
    · rename_i h
      exact ⟨fun _ => h, s.completed_recover stops⟩
    · exact ⟨id, rfl⟩

theorem accounts_dropNewlines : Accounts tokens n dropNewlines := .quiet ho fun _ => ⟨id, rfl⟩

theorem accounts_readName : Accounts tokens n readName := by
  intro start s ha hs
  simp only [readName]
  split
  · exact accounts_advance ho start s ha hs
  · exact hs.report _

-- ---------------------------------------------------------------------------
-- Items
-- ---------------------------------------------------------------------------

omit ho in
theorem accounts_readValue (hr : ReaderAccounts tokens n readExpr) (terminator : Kind)
    {ifAbsent : Action Unit} (h : Accounts tokens n ifAbsent) :
    Accounts tokens n (readValue readExpr terminator ifAbsent) :=
  .look_bind fun _ => .ite (fun _ => h.bind fun _ => .pure _) fun _ => (hr .help).map

theorem accounts_readArgument (hr : ReaderAccounts tokens n readExpr) (terminator : Kind) :
    Accounts tokens n (readArgument readExpr terminator) := by
  have hadvance := accounts_advance (n := n) ho
  refine .look_bind fun _ => .look_bind fun _ => .ite (fun _ => ?_) fun _ => .ite (fun _ => ?_)
    fun _ => .ite (fun _ => ?_) fun _ => ?_
  · exact hadvance.bind fun _ => .pure _
  · exact .pure _
  · exact hadvance.bind fun _ => hadvance.bind fun _ =>
      (accounts_readValue hr terminator (.pure _)).bind fun _ => .pure _
  · exact (hr .help).bind fun _ => .pure _

omit ho in
theorem accounts_readDefault (hr : ReaderAccounts tokens n readExpr) (terminator : Kind) :
    (equals : Option Token) → Accounts tokens n (readDefault readExpr terminator equals)
  | none => .pure _
  | some _ => accounts_readValue hr terminator (accounts_reportCurrent _)

theorem accounts_readParameter (hr : ReaderAccounts tokens n readExpr) (terminator : Kind) :
    Accounts tokens n (readParameter readExpr terminator) := by
  have hadvance := accounts_advance (n := n) ho
  refine .look_bind fun _ => .ite (fun _ => ?_) fun _ => .ite (fun _ => ?_) fun _ =>
    .ite (fun _ => ?_) fun _ => ?_
  · exact hadvance.bind fun _ => .pure _
  · exact (accounts_reportCurrent _).bind fun _ => .pure _
  · exact hadvance.bind fun _ => (accounts_accept ho .equal).bind fun _ =>
      (accounts_readDefault hr terminator _).bind fun _ => .pure _
  · exact (accounts_fail fun _ => rfl).bind fun _ => .pure _

theorem accounts_readBareItem (hr : ReaderAccounts tokens n readExpr) (terminator : Kind) :
    (role : ListRole) → Accounts tokens n (readBareItem readExpr terminator role)
  | .arguments => accounts_readArgument ho hr terminator
  | .parameters => accounts_readParameter ho hr terminator

/-- Without a failure before it, an item is given up for a problem of its own. -/
theorem isAbout_of_recover {terminator : Kind} (ht : ClosesList terminator) {s t : State}
    (ha : s.Amid tokens n) (hs : StartsItem terminator s.current s) (hc : s.kind ≠ .comma)
    (hp : s.Passes t) {problem : Problem} (hm : problem.token ∈ s.rest)
    (hl : problem.token.start ≤ t.current.start) :
    let after := t.recover fun kind => kind = .comma || kind = terminator
    problem.IsAbout tokens (tokensBetween s.rest after.rest) := by
  let stops : Kind → Bool := fun kind => kind = .comma || kind = terminator
  intro after
  have hrecover : t.Passes after := (t.onward_recover stops).passes
  have hk : after.kind ≠ .endOfLine := by
    have hstops : stops .endOfLine = false := by
      rcases ht with rfl | rfl <;> rfl
    intro he
    have hafter := t.kind_recover hstops
    rw [show (t.recover stops).kind = .endOfLine from he, hstops] at hafter
    rcases hafter with h | h | h <;> cases h
  have hgone : after.rest ≠ s.rest := by
    -- if nothing was gone over before recovery, recovery goes over the first token
    intro he
    have hle := hrecover.length_le
    rw [he] at hle
    have hsame : t.rest = s.rest := hp.lt_or_eq.resolve_left (Nat.not_lt.2 hle)
    have hkind : t.kind = s.kind := State.kind_congr hsame
    have hlt : after.rest.length < t.rest.length :=
      State.length_recover_lt (hkind ▸ hs.not_file) (hkind ▸ hs.not_curly)
        (by simp [hkind, hc, hs.not_terminator])
    rw [he, hsame] at hlt
    exact Nat.lt_irrefl _ hlt
  obtain ⟨hhead, last, hlast, hprevious⟩ :=
    tokensBetween_ends hs.skipping.2 (hp.trans hrecover) hgone
  obtain ⟨front, hfront, _⟩ := ha.passes
  obtain ⟨rest, hrest⟩ := ha.rest_eq_cons
  have hsuffix : s.rest <:+ tokens := ⟨front, hfront.symm⟩
  refine ⟨hsuffix.subset hm, ⟨s.current, hhead, ?_⟩, last, after.current, hlast, ?_, ?_⟩
  · have hsorted := ho.sublist hsuffix.sublist
    rw [hrest] at hsorted hm
    rcases List.mem_cons.1 hm with he | hm
    · rw [he]
    · exact Nat.le_of_lt ((List.pairwise_cons.1 hsorted).1 _ hm)
  · exact (ha.onward (hp.trans hrecover)).next? ho hprevious hk
  · exact Nat.le_trans hl ((ha.onward hp).start_le ho hrecover)

theorem accounted_salvage {s t : State} {item : Item} (terminator : Kind)
    (hs : Accounted tokens start s) (ha : t.Amid tokens n) (ht : Accounted tokens start t)
    (hq : s.problems ⊆ t.problems) :
    let salvaged := (salvage s.rest s.completed terminator item).run t
    Accounted tokens start salvaged.2 ∧ salvaged.2.recovering = false := by
  intro salvaged
  by_cases hf : t.recovering = true
  · let after := t.recover fun kind => kind = .comma || kind = terminator
    have hrecover : t.Onward after := t.onward_recover _
    have hrun : salvaged = (.unreadable (tokensBetween s.rest after.rest) none,
        { after with completed := s.completed }) := if_pos hf
    rw [hrun]
    refine ⟨ht.onward ho ha (hrecover.passes.trans (.of_eq rfl rfl)) hrecover.problems.subset
      (fun _ => hf) fun e he => ?_, State.recovering_recover _ _⟩
    exact (hs.completed e he).mono (List.Subset.trans hq hrecover.problems.subset)
  · have hrun : salvaged = (item, t) := if_neg hf
    rw [hrun]
    exact ⟨ht, Bool.eq_false_iff.2 hf⟩

theorem accounts_readItem (hr : ReaderAccounts tokens n readExpr) (role : ListRole)
    (terminator : Kind) :
    Triple tokens n (Accounted tokens start) (readItem readExpr role terminator) fun _ s =>
      Accounted tokens start s ∧ s.recovering = false := by
  intro s ha hs
  let check (item : Item) : Action Item :=
    unexpectedUnless (endsItem terminator) >>= fun _ => pure item
  let bare : Action Item := readBareItem readExpr terminator role >>= check
  have hbare : Accounted tokens start (bare.run s).2 :=
    (accounts_readBareItem ho hr terminator role).bind
      (fun _ => (accounts_unexpectedUnless (endsItem terminator)).bind fun _ => .pure _)
      start s ha hs
  let salvaged := (salvage s.rest s.completed terminator (bare.run s).1).run (bare.run s).2
  obtain ⟨hsalvaged, hclean⟩ : Accounted tokens start salvaged.2 ∧ salvaged.2.recovering = false :=
    accounted_salvage ho terminator hs (ha.run bare) hbare (bare.onward s).problems.subset
  exact ⟨accounts_accept ho .comma start salvaged.2 ((ha.run bare).run (salvage _ _ _ _)) hsalvaged,
    (State.recovering_accept .comma salvaged.2).trans hclean⟩

omit ho in
theorem readBareItem_ne_unreadable (readExpr : ExprReader) (terminator : Kind) (role : ListRole)
    (s : State) (own : List Token) (comma : Option Token) :
    ((readBareItem readExpr terminator role).run s).1 ≠ .unreadable own comma := by
  intro he
  cases role with
  | arguments =>
    simp only [readBareItem, readArgument, run_look_bind] at he
    split at he
    · cases he
    split at he
    · cases he
    split at he <;> cases he
  | parameters =>
    simp only [readBareItem, readParameter, run_look_bind] at he
    split at he
    · cases he
    split at he
    · cases he
    split at he <;> cases he

omit ho in
theorem recovering_readBareItem_comma (readExpr : ExprReader) (terminator : Kind) (role : ListRole)
    {s : State} (hk : s.kind = .comma) :
    ((readBareItem readExpr terminator role >>= fun _ =>
      unexpectedUnless (endsItem terminator)).run s).2.recovering = s.recovering := by
  have hread : ((readBareItem readExpr terminator role).run s).2.kind = .comma ∧
      ((readBareItem readExpr terminator role).run s).2.recovering = s.recovering := by
    cases role with
    | arguments =>
      simp only [readBareItem, readArgument, run_look_bind]
      rw [if_neg (by simp [hk]), if_pos hk]
      exact ⟨hk, rfl⟩
    | parameters =>
      simp only [readBareItem, readParameter, run_look_bind]
      rw [if_neg (by simp [hk]), if_pos hk]
      exact ⟨hk, rfl⟩
  simp only [run_bind, unexpectedUnless, update]
  rw [if_pos (by simp [endsItem, hread.1])]
  exact hread.2

omit ho in
theorem attachComma_eq_unreadable {item : Item} {comma found : Option Token} {own : List Token}
    (h : attachComma item comma = .unreadable own found) :
    ∃ before, item = .unreadable own before := by
  cases comma with
  | none => exact ⟨found, h⟩
  | some comma =>
    cases item with
    | unreadable tokens before =>
      obtain ⟨rfl, _⟩ := Item.unreadable.inj h
      exact ⟨before, rfl⟩
    | positional _ _ | named _ _ _ _ | ellipsis _ _ | missing _ | stub => cases h

/-- An item is given up for a problem of its own, if nothing has failed before it. -/
theorem blamed_readItem (hr : ReaderAccounts tokens n readExpr) (role : ListRole)
    {terminator : Kind} (ht : ClosesList terminator) :
    Triple tokens n (fun s => Accounted tokens start s ∧ StartsItem terminator s.current s ∧
      s.recovering = false) (readItem readExpr role terminator) fun item s =>
        item.Blamed tokens s.problems := by
  rintro s ha ⟨hs, hitem, hclean⟩
  let check : Action Unit := readBareItem readExpr terminator role >>= fun _ =>
    unexpectedUnless (endsItem terminator)
  let checked := (check.run s).2
  let read := ((readBareItem readExpr terminator role).run s).1
  let salvaged := (salvage s.rest s.completed terminator read).run checked
  let comma := (accept .comma).run salvaged.2
  -- what fails from here on does so for a problem with a token of the item
  have hown : Accounted tokens s.rest s :=
    ⟨List.suffix_refl _, fun hf => absurd (hclean.symm.trans hf) nofun, hs.completed⟩
  have hchecked : Accounted tokens s.rest checked :=
    (accounts_readBareItem ho hr terminator role).bind
      (fun _ => accounts_unexpectedUnless (endsItem terminator)) s.rest s ha hown
  intro own found he
  obtain ⟨before, he⟩ := attachComma_eq_unreadable (show attachComma salvaged.1 comma.1 = _ from he)
  by_cases hf : checked.recovering = true
  · have hcomma : s.kind ≠ .comma := by
      intro hk
      have hsame := recovering_readBareItem_comma readExpr terminator role hk
      rw [show checked.recovering = s.recovering from hsame, hclean] at hf
      cases hf
    obtain ⟨problem, hm, hstart, hle⟩ := hchecked.failure hf
    let after := checked.recover fun kind => kind = .comma || kind = terminator
    have hrun : salvaged = (.unreadable (tokensBetween s.rest after.rest) none,
        { after with completed := s.completed }) := if_pos hf
    rw [hrun] at he
    obtain ⟨rfl, _⟩ := Item.unreadable.inj he
    have hproblems : checked.problems ⊆ comma.2.problems :=
      (((salvage s.rest s.completed terminator read).onward checked).problems.trans
        ((accept .comma).onward salvaged.2).problems).subset
    exact ⟨problem, hproblems hm, isAbout_of_recover ho ht ha hitem hcomma
      (check.onward s).passes hstart hle⟩
  · have hrun : salvaged = (read, checked) := if_neg hf
    rw [hrun] at he
    exact absurd he (readBareItem_ne_unreadable readExpr terminator role s own before)

-- ---------------------------------------------------------------------------
-- Lists
-- ---------------------------------------------------------------------------

omit ho in
theorem readItems_run (readExpr : ExprReader) (role : ListRole) (terminator : Kind) (bound : Nat)
    (slot : Slot) (s : State) :
    let found := (readItems readExpr role terminator (bound + 1) slot).run s
    ((found.1 = [] ∨ found.1 = [.stub]) ∧ (found.2 = s ∨ ∃ problem, found.2 = s.report problem)) ∨
      (s.kind ≠ terminator ∧ s.kind ≠ .endOfFile ∧ s.kind ≠ .rightCurly) ∧
        let first := (readItem readExpr role terminator).run s
        let others := (readItems readExpr role terminator bound (.after first.1)).run first.2
        found = (first.1 :: others.1, others.2) := by
  rw [readItems, run_look_bind]
  split
  · rw [reportEmptySlot]
    split
    · exact .inl ⟨.inl rfl, .inr ⟨_, rfl⟩⟩
    · exact .inl ⟨.inl rfl, .inl rfl⟩
  split
  · split
    · exact .inl ⟨.inl rfl, .inl rfl⟩
    · exact .inl ⟨.inr rfl, .inl rfl⟩
  split
  · exact .inl ⟨.inl rfl, .inl rfl⟩
  · rename_i ht hf hc
    exact .inr ⟨⟨ht, hf, hc⟩, rfl⟩

omit ho in
theorem Item.blamed_stub {problems : List Problem} : Item.stub.Blamed tokens problems :=
  fun _ _ he => nomatch he

omit ho in
theorem Accounted.listEnd {s t : State} {items : List Item} (h : Accounted tokens start s)
    (hi : items = [] ∨ items = [.stub]) (ht : t = s ∨ ∃ problem, t = s.report problem) :
    Accounted tokens start t ∧ ∀ item ∈ items, item.Blamed tokens t.problems := by
  constructor
  · rcases ht with rfl | ⟨problem, rfl⟩
    · exact h
    · exact h.report problem
  · rcases hi with rfl | rfl
    · exact fun _ hm => absurd hm List.not_mem_nil
    · exact List.forall_mem_singleton.2 Item.blamed_stub

/-- After an item, and where nothing has failed before the list, items are given up for problems of
their own. -/
theorem blamed_readItems (hr : ReaderAccounts tokens n readExpr) (role : ListRole)
    {terminator : Kind} (ht : ClosesList terminator) (bound : Nat) (slot : Slot) :
    Triple tokens n (fun s => Accounted tokens start s ∧ s.Skipping ∧ s.recovering = false)
      (readItems readExpr role terminator bound slot) fun items s =>
        Accounted tokens start s ∧ ∀ item ∈ items, item.Blamed tokens s.problems := by
  induction bound generalizing slot with
  | zero => exact .pure fun s hs => ⟨hs.1, by simp⟩
  | succ bound ih =>
    rintro s ha ⟨hs, hskips, hclean⟩
    rcases readItems_run readExpr role terminator bound slot s with
      ⟨hitems, hstate⟩ | ⟨⟨hterminator, hfile, hcurly⟩, hrun⟩
    · exact hs.listEnd hitems hstate
    let first := (readItem readExpr role terminator).run s
    have hitem : StartsItem terminator s.current s := ⟨hskips, rfl, hterminator, hfile, hcurly⟩
    have hfirst := accounts_readItem ho hr role terminator s ha hs
    have hblamed : first.1.Blamed tokens first.2.problems :=
      blamed_readItem ho hr role ht s ha ⟨hs, hitem, hclean⟩
    obtain ⟨hothers, hall⟩ := ih (.after first.1) first.2 (ha.run _)
      ⟨hfirst.1, hskips.run _, hfirst.2⟩
    rw [hrun]
    refine ⟨hothers, List.forall_mem_cons.2 ⟨hblamed.mono ?_, hall⟩⟩
    exact ((readItems readExpr role terminator bound (.after first.1)).onward
      first.2).problems.subset

theorem itemsBlamed_readItems (hr : ReaderAccounts tokens n readExpr) (role : ListRole)
    {terminator : Kind} (ht : ClosesList terminator) (bound : Nat) (slot : Slot) (opening : Token) :
    Triple tokens n (fun s => Accounted tokens start s ∧ s.Skipping ∧
        (s.recovering = true → Excused s.problems opening))
      (readItems readExpr role terminator bound slot) fun items s =>
        Accounted tokens start s ∧ ItemsBlamed tokens s.problems opening items := by
  cases bound with
  | zero => exact .pure fun s hs => ⟨hs.1, by simp, by simp⟩
  | succ bound =>
    rintro s ha ⟨hs, hskips, hexcused⟩
    rcases readItems_run readExpr role terminator bound slot s with
      ⟨hitems, hstate⟩ | ⟨⟨hterminator, hfile, hcurly⟩, hrun⟩
    · obtain ⟨hend, hall⟩ := hs.listEnd hitems hstate
      exact ⟨hend, fun item hm => .inl (hall item (List.mem_of_mem_head? hm)),
        fun item hm => hall item (List.mem_of_mem_tail hm)⟩
    let first := (readItem readExpr role terminator).run s
    have hitem : StartsItem terminator s.current s := ⟨hskips, rfl, hterminator, hfile, hcurly⟩
    have hfirst := accounts_readItem ho hr role terminator s ha hs
    have hproblems : s.problems ⊆ first.2.problems :=
      ((readItem readExpr role terminator).onward s).problems.subset
    have hblamed : first.1.Blamed tokens first.2.problems ∨ Excused first.2.problems opening := by
      by_cases hf : s.recovering = true
      · exact .inr ((hexcused hf).mono hproblems)
      · exact .inl (blamed_readItem ho hr role ht s ha ⟨hs, hitem, Bool.eq_false_iff.2 hf⟩)
    obtain ⟨hothers, hall⟩ := blamed_readItems ho hr role ht bound (.after first.1) first.2
      (ha.run _) ⟨hfirst.1, hskips.run _, hfirst.2⟩
    have hmore := ((readItems readExpr role terminator bound (.after first.1)).onward
      first.2).problems.subset
    rw [hrun]
    refine ⟨hothers, ?_, hall⟩
    rintro item hm
    obtain rfl := Option.some.inj hm
    exact hblamed.imp (·.mono hmore) (·.mono hmore)

theorem listBlamed_readList (hr : ReaderAccounts tokens n readExpr) (bound : Nat)
    (hg : ListsGiveUp tokens n readExpr bound) (role : ListRole) (opening : Token)
    {terminator : Kind} (ht : ClosesList terminator) :
    Triple tokens n (OpensAt tokens start opening)
      (readList readExpr bound role opening terminator) fun found s =>
        Accounted tokens start s ∧ ListBlamed tokens s.problems opening found.1 found.2 := by
  intro s ha hs
  have hgivenUp := hg role opening terminator ht s ha hs.last
  let items := readItems readExpr role terminator bound .opening
  let read := (withNewlines true items).run s
  have hread : Accounted tokens start read.2 ∧
      ItemsBlamed tokens read.2.problems opening read.1 := by
    refine Triple.withNewlines (P := fun t => t = s)
      (itemsBlamed_readItems ho hr role ht bound .opening opening) ?_ (.inl rfl)
      (fun _ _ _ h => ⟨⟨h.1.suffix, h.1.failure, h.1.completed⟩, h.2⟩) s ha rfl
    rintro s rfl
    obtain ⟨hskips, _, hproblems, hrecovering⟩ :=
      State.settle_frame { s with skipsNewlines := true }
    refine ⟨hs.accounted.settle ho ha true, ⟨hskips, State.settled_settle _ hskips⟩, fun hf => ?_⟩
    rw [hproblems]
    exact hs.excused (hrecovering ▸ hf)
  have hclosed := accounts_acceptOr ho terminator (fun s => .missingClosing opening s.lastToken)
    start read.2 (ha.run (withNewlines true items)) hread.1
  have hmore := ((takeClosing opening terminator).onward read.2).problems
  rw [readList, run_look_bind, run_bind, finishList, run_look_bind, run_bind] at hgivenUp ⊢
  split at hgivenUp
  · rename_i hcurly
    have hproblems := ((withNewlines true items).onward s).problems.trans hmore
    rw [if_pos hcurly]
    exact ⟨⟨hclosed.suffix, hclosed.failure,
      fun e he => (hs.accounted.completed e he).mono hproblems.subset⟩,
      ⟨by simp, by simp⟩, hgivenUp⟩
  · rename_i hcurly
    rw [if_neg hcurly]
    exact ⟨hclosed, hread.2.mono hmore.subset, hgivenUp⟩

end

end Reading

end LenientR
