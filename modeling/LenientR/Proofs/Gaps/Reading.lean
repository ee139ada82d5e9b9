import LenientR.Proofs.Gaps.Basic

/-!
# Reading reports what it leaves open

Each construct reports the gaps of its node by the time the node is kept, and nothing is repaired in
silence: a text of which nothing is reported has a tree without gaps (`Document.gapsReported`).
-/

namespace LenientR

namespace Reading

variable {tokens : List Token} {n : Nat} {readExpr : ExprReader}

-- ---------------------------------------------------------------------------
-- Items
-- ---------------------------------------------------------------------------

theorem keeps_readValue (hr : ReaderKeeps tokens n readExpr) (terminator : Kind)
    {ifAbsent : Action Unit} (h : Keeps tokens n ifAbsent) :
    Keeps tokens n (readValue readExpr terminator ifAbsent) :=
  .look_bind fun _ => .ite (fun _ => h.bind fun _ => .pure _) fun _ => (hr .help).map

theorem keeps_readArgument (hr : ReaderKeeps tokens n readExpr) (terminator : Kind) :
    Keeps tokens n (readArgument readExpr terminator) := by
  refine .look_bind fun _ => .look_bind fun _ => .ite (fun _ => ?_) fun _ => .ite (fun _ => ?_)
    fun _ => .ite (fun _ => ?_) fun _ => ?_
  · exact keeps_advance.bind fun _ => .pure _
  · exact .pure _
  · exact keeps_advance.bind fun _ => keeps_advance.bind fun _ =>
      (keeps_readValue hr terminator (.pure _)).bind fun _ => .pure _
  · exact (hr .help).bind fun _ => .pure _

theorem finds_readDefault (hr : ReaderKeeps tokens n readExpr) (terminator : Kind)
    (name equals : Token) (comma : Option Token) :
    Finds tokens n equals (readDefault readExpr terminator (some equals)) fun value problems =>
      (Item.named name (some equals) value comma).Reported tokens problems := by
  refine Keeps.finds (keeps_readValue hr terminator (.quiet fun _ => rfl)) fun s ha hp => ?_
  simp only [readValue, run_look_bind]
  split
  · exact ⟨s.current, ha.precedes hp, List.mem_cons_self⟩
  · trivial

/-- What is read of a parameter before its comma: an empty slot in front of the comma that is
reported, or something the comma makes no difference to. -/
def BareReported (tokens : List Token) (item : Item) (s : State) : Prop :=
  item = .missing none ∧ s.kind = .comma ∧ .expectedParameter s.current ∈ s.problems ∨
    (∀ comma, item ≠ .missing comma) ∧ item.Reported tokens s.problems

theorem BareReported.onward {item : Item} {s t : State} (h : BareReported tokens item s)
    (hr : t.rest = s.rest) (hp : s.problems ⊆ t.problems) : BareReported tokens item t := by
  rcases h with ⟨hi, hk, hm⟩ | ⟨hi, h⟩
  · have hcurrent : t.current = s.current := by rw [State.current, State.current, hr]
    refine .inl ⟨hi, (State.kind_congr hr).trans hk, ?_⟩
    rw [hcurrent]
    exact hp hm
  · exact .inr ⟨hi, h.mono hp⟩

theorem reported_attachComma {item : Item} {problems : List Problem}
    (h : ∀ comma, item ≠ .missing comma) (hi : item.Reported tokens problems)
    (comma : Option Token) : (attachComma item comma).Reported tokens problems := by
  cases comma with
  | none => exact hi
  | some comma =>
    cases item with
    | missing found => exact absurd rfl (h found)
    | named name equals value _ => cases equals <;> cases value <;> exact hi
    | positional | ellipsis | unreadable | stub => trivial

theorem bareReported_readParameter (hr : ReaderKeeps tokens n readExpr) (terminator : Kind) :
    Triple tokens n (AllReported tokens) (readParameter readExpr terminator) fun item s =>
      AllReported tokens s ∧ BareReported tokens item s := by
  refine Triple.look_bind fun kind => .ite (fun _ => ?_) fun _ => .ite (fun hk => ?_) fun _ =>
    .ite (fun _ => ?_) fun _ => ?_
  · exact Triple.bind (keeps_advance.mono (fun _ h => h.2) fun _ _ => id) fun _ =>
      .pure fun _ hs => ⟨hs, .inr ⟨by simp, trivial⟩⟩
  · rintro s ha ⟨hkind, hs⟩
    exact ⟨hs.onward (List.subset_cons_self _ _) rfl,
      .inl ⟨rfl, hkind.trans hk, List.mem_cons_self⟩⟩
  · refine Triple.bind (keeps_advance.mono (fun _ h => h.2) fun _ _ => id) fun name => ?_
    intro s ha hs
    rw [run_bind]
    simp only [accept]
    split
    · rename_i hequal
      have hprevious := ha.previous_advance (by simp [hequal]) (by simp [hequal])
      have hfound := finds_readDefault hr terminator name s.current none s.advance
        (ha.onward s.onward_advance.passes) ⟨keeps_advance s ha hs, hprevious⟩
      exact ⟨hfound.1, .inr ⟨by simp, hfound.2⟩⟩
    · exact ⟨hs, .inr ⟨by simp, trivial⟩⟩
  · rintro s ha ⟨_, hs⟩
    exact ⟨hs.onward (List.subset_cons_self _ _) rfl, .inr ⟨by simp, trivial⟩⟩

theorem bareReported_readBareItem (hr : ReaderKeeps tokens n readExpr) (terminator : Kind)
    (role : ListRole) :
    Triple tokens n (AllReported tokens) (readBareItem readExpr terminator role) fun item s =>
      AllReported tokens s ∧ (role = .parameters → BareReported tokens item s) := by
  cases role with
  | arguments =>
    exact (keeps_readArgument hr terminator).mono (fun _ => id) fun _ _ h => ⟨h, by simp⟩
  | parameters =>
    exact (bareReported_readParameter hr terminator).mono (fun _ => id) fun _ _ h =>
      ⟨h.1, fun _ => h.2⟩

theorem unexpectedUnless_frame (fits : Kind → Bool) (s : State) :
    ((unexpectedUnless fits).run s).2.rest = s.rest := by
  simp only [unexpectedUnless, update]
  split <;> rfl

theorem reported_comma {item : Item} {s : State} (h : BareReported tokens item s) :
    let comma := (accept .comma).run s
    (attachComma item comma.1).Reported tokens comma.2.problems := by
  rcases h with ⟨rfl, hk, hm⟩ | ⟨hi, h⟩
  · rw [show (accept .comma).run s = (some s.current, s.advance) from if_pos hk]
    exact ⟨s.current, rfl, s.onward_advance.problems.subset hm⟩
  · exact reported_attachComma hi (h.mono ((accept .comma).onward s).problems.subset) _

/-- An item that is given up keeps nothing; any other has its gaps reported. -/
theorem reported_readItem (hr : ReaderKeeps tokens n readExpr) (role : ListRole)
    (terminator : Kind) :
    Triple tokens n (AllReported tokens) (readItem readExpr role terminator) fun item s =>
      AllReported tokens s ∧ (role = .parameters → item.Reported tokens s.problems) := by
  intro s ha hs
  let read := (readBareItem readExpr terminator role).run s
  let checked := ((unexpectedUnless (endsItem terminator)).run read.2).2
  let salvaged := (salvage s.rest s.completed terminator read.1).run checked
  let comma := (accept .comma).run salvaged.2
  obtain ⟨hread, hbare⟩ := bareReported_readBareItem hr terminator role s ha hs
  have honward := (unexpectedUnless (endsItem terminator)).onward read.2
  have hchecked : AllReported tokens checked :=
    keeps_unexpectedUnless _ _ (ha.run (readBareItem readExpr terminator role)) hread
  change AllReported tokens comma.2 ∧
    (role = .parameters → (attachComma salvaged.1 comma.1).Reported tokens comma.2.problems)
  have hkeep : AllReported tokens salvaged.2 → AllReported tokens comma.2 :=
    keeps_accept .comma salvaged.2
      (((ha.run (readBareItem readExpr terminator role)).run _).run (salvage _ _ _ _))
  by_cases hf : checked.recovering = true
  · let after := checked.recover fun kind => kind = .comma || kind = terminator
    have hrun : salvaged = (.unreadable (tokensBetween s.rest after.rest) none,
        { after with completed := s.completed }) := if_pos hf
    have hmore : s.problems ⊆ salvaged.2.problems := by
      rw [hrun]
      exact (((readBareItem readExpr terminator role).onward s).problems.trans
        (honward.problems.trans (checked.onward_recover _).problems)).subset
    refine ⟨hkeep (hs.onward hmore (by rw [hrun])), fun _ => ?_⟩
    refine reported_attachComma ?_ ?_ comma.1 <;> rw [hrun]
    · simp
    · trivial
  · have hrun : salvaged = (read.1, checked) := if_neg hf
    refine ⟨hkeep (hrun ▸ hchecked), fun hrole => reported_comma ?_⟩
    rw [hrun]
    exact (hbare hrole).onward (unexpectedUnless_frame _ _) honward.problems.subset

theorem reported_readItems (hr : ReaderKeeps tokens n readExpr) (role : ListRole)
    (terminator : Kind) (bound : Nat) (slot : Slot) :
    Triple tokens n (AllReported tokens) (readItems readExpr role terminator bound slot)
      fun items s => AllReported tokens s ∧
        (role = .parameters → ∀ item ∈ items, item.Reported tokens s.problems) := by
  induction bound generalizing slot with
  | zero => exact .pure fun _ hs => ⟨hs, fun _ => by simp⟩
  | succ bound ih =>
    intro s ha hs
    rcases readItems_run readExpr role terminator bound slot s with ⟨hitems, hstate⟩ | ⟨_, hrun⟩
    · constructor
      · rcases hstate with hs' | ⟨_, hs'⟩ <;> rw [hs']
        · exact hs
        · exact hs.onward (List.subset_cons_self _ _) rfl
      · intro _
        rcases hitems with hi | hi <;> rw [hi]
        · simp
        · exact List.forall_mem_singleton.2 trivial
    · let first := (readItem readExpr role terminator).run s
      obtain ⟨hfirst, hitem⟩ := reported_readItem hr role terminator s ha hs
      obtain ⟨hothers, hall⟩ := ih (.after first.1) first.2 (ha.run _) hfirst
      rw [hrun]
      refine ⟨hothers, fun hrole => List.forall_mem_cons.2 ⟨?_, hall hrole⟩⟩
      exact (hitem hrole).mono ((readItems readExpr role terminator bound
        (.after first.1)).onward first.2).problems.subset

theorem reported_readList (hr : ReaderKeeps tokens n readExpr) (bound : Nat) (role : ListRole)
    (opening : Token) (terminator : Kind) :
    Triple tokens n (AllReported tokens) (readList readExpr bound role opening terminator)
      fun found s => AllReported tokens s ∧ ClosingReported s.problems opening found.2 ∧
        (role = .parameters → ∀ item ∈ found.1, item.Reported tokens s.problems) := by
  intro s ha hs
  let items := withNewlines true (readItems readExpr role terminator bound .opening)
  let read := items.run s
  let closed := (takeClosing opening terminator).run read.2
  have hread : AllReported tokens read.2 ∧
      (role = .parameters → ∀ item ∈ read.1, item.Reported tokens read.2.problems) := by
    refine Keeps.withNewlines_of true (fun _ h => h.settle true) ?_
      (reported_readItems hr role terminator bound .opening) s ha hs
    intro x s skips h
    refine ⟨h.1.settle skips, ?_⟩
    rw [(State.settle_frame _).2.2.1]
    exact h.2
  have hclosed : AllReported tokens closed.2 := keeps_acceptOr _ _ read.2 (ha.run items) hread.1
  have hmore := ((takeClosing opening terminator).onward read.2).problems
  have hbracket := closingReported_takeClosing opening terminator read.2
  rw [readList, run_look_bind, run_bind, finishList, run_look_bind, run_bind]
  split
  · have hall : s.problems ⊆ closed.2.problems := ((items.onward s).problems.trans hmore).subset
    exact ⟨fun e he => (hs e he).mono hall, hbracket, fun _ => by simp⟩
  · exact ⟨hclosed, hbracket, fun hrole item hi => (hread.2 hrole item hi).mono hmore.subset⟩

-- ---------------------------------------------------------------------------
-- Constructs
-- ---------------------------------------------------------------------------

theorem keeps_readUnary (hr : ReaderKeeps tokens n readExpr) (operator : Token) (level : Level) :
    Keeps tokens n (readUnary readExpr operator level) :=
  (keeps_readAfterNewlines hr level).bind fun _ => keeps_complete fun _ => trivial

theorem keeps_readRepeat (hr : ReaderKeeps tokens n readExpr) (keyword : Token) :
    Keeps tokens n (readRepeat readExpr keyword) :=
  (keeps_readAfterNewlines hr .help).bind fun _ => keeps_complete fun _ => trivial

theorem keeps_readOperation (hr : ReaderKeeps tokens n readExpr) (level : Level) (left : Expr)
    (operator : Token) : Keeps tokens n (readOperation readExpr level left operator) :=
  (keeps_readAfterNewlines hr _).bind fun _ => keeps_complete fun _ => by split <;> trivial

theorem keeps_readBlock {statements : Action (List Expr)} (h : Keeps tokens n statements)
    (opening : Token) : Keeps tokens n (readBlock statements opening) :=
  (h.inBlock.withNewlines false).bind fun _ => keeps_closed fun _ _ => id

/-- The bracket right behind an empty group stands for what is missing in it. -/
theorem keeps_readEmptyGroup (opening : Token) : Keeps tokens n (readEmptyGroup opening) := by
  intro s ha hs
  refine AllReported.complete (fun e he => ?_) nofun
  rcases List.mem_cons.1 he with rfl | he
  · exact .inl List.mem_cons_self
  · exact (keeps_advance.bind (fun _ => .quiet fun _ => rfl) : Keeps tokens n
      (advance >>= fun closing => report (.expectedExpression closing))) s ha hs e he

theorem keeps_readGroup (hr : ReaderKeeps tokens n readExpr) (opening : Token) :
    Keeps tokens n (readGroup readExpr opening) := by
  have hinner : Keeps tokens n (readGroupInner readExpr) :=
    .withNewlines true (.look_bind fun _ => .ite (fun _ => .pure _) fun _ =>
      (hr .help).bind fun _ => keeps_skipToClosing.bind fun _ => .pure _)
  refine hinner.bind fun found => ?_
  cases found with
  | none => exact keeps_readEmptyGroup opening
  | some inner => exact keeps_closed fun _ _ => id

/-- What is read in the brackets of a keyword. Without an opening one the keyword itself is the
token in front of it. -/
theorem finds_readBracketed {inner : Action α} {fact : Token → α → List Problem → Prop}
    (hf : ∀ before x {problems more}, problems ⊆ more → fact before x problems →
      fact before x more)
    (hi : ∀ before, Finds tokens n before inner (fact before)) (keyword : Token) :
    Finds tokens n keyword (readBracketed inner) fun found problems =>
      BracketsReported tokens problems keyword found.1 found.2.2 ∧
        fact (found.1.getD keyword) found.2.1 problems := by
  rintro s ha ⟨hs, hp⟩
  rw [readBracketed, run_bind]
  rcases acceptOr_run .leftParen (fun s => .expected .leftParen s.lastToken s.current) s with
    ⟨hk, hrun⟩ | ⟨_, hrun⟩ <;> rw [show (expect .leftParen).run s = _ from hrun]
  · have hrest : Finds tokens n s.current (readToClosing inner) (fact s.current) := by
      refine Finds.withNewlines true (Triple.bind (hi s.current) fun x => ?_)
      exact Triple.bind (keeps_skipToClosing.carry (fact s.current x) (hf s.current x)) fun _ =>
        .pure fun _ => id
    have hread := hrest s.advance (ha.onward s.onward_advance.passes)
      ⟨keeps_advance s ha hs, ha.previous_advance (by simp [hk]) (by simp [hk])⟩
    let read := (readToClosing inner).run s.advance
    have hclosed := (keeps_acceptOr .rightParen
      (fun t => .missingClosing s.current t.lastToken)).carry (fact s.current read.1)
        (hf s.current read.1) read.2
          ((ha.onward s.onward_advance.passes).run (readToClosing inner)) hread
    refine ⟨hclosed.1, ⟨openingReported_some _, fun token ht => ?_⟩, hclosed.2⟩
    obtain rfl := Option.some.inj ht
    exact closingReported_takeClosing s.current .rightParen read.2
  · have hlast : s.lastToken = keyword := by simp [State.lastToken, hp]
    have hreported := hi keyword (s.report (.expected .leftParen s.lastToken s.current))
      (ha.onward (.of_eq rfl rfl)) ⟨hs.onward (List.subset_cons_self _ _) rfl, hp⟩
    refine ⟨hreported.1, ⟨fun _ => ⟨s.current, ha.precedes hp, ?_⟩, by simp⟩, hreported.2⟩
    exact (inner.onward _).problems.subset (by rw [hlast]; exact List.mem_cons_self)

theorem finds_condition (hr : ReaderKeeps tokens n readExpr) (keyword : Token) :
    Triple tokens n (fun s => AllReported tokens s ∧ s.previous = some keyword)
      (readBracketed (readExpr .help)) fun found s => AllReported tokens s ∧
        BracketsReported tokens s.problems keyword found.1 found.2.2 := by
  have hinner (before : Token) : Finds tokens n before (readExpr .help) fun _ _ => True :=
    (hr .help).finds fun _ _ _ => trivial
  exact (finds_readBracketed (fun _ _ _ _ _ => id) hinner keyword).mono (fun _ => id)
    fun _ _ h => ⟨h.1, h.2.1⟩

theorem reported_readIf (hr : ReaderKeeps tokens n readExpr) (keyword : Token) :
    Finds tokens n keyword (readIf readExpr keyword) fun _ _ => True := by
  have hbody := keeps_readAfterNewlines hr .help
  have hfollows : Keeps tokens n elseFollows := .quiet fun s => by
    simp only [elseFollows]
    split
    · rfl
    split
    · rfl
    split <;> rfl
  refine Triple.bind (finds_condition hr keyword) fun found => ?_
  let brackets (problems : List Problem) : Prop :=
    BracketsReported tokens problems keyword found.1 found.2.2
  refine Triple.bind (hbody.carry brackets BracketsReported.mono) fun _ =>
    Triple.bind (hfollows.carry brackets BracketsReported.mono) fun follows => ?_
  have halternative : Keeps tokens n (readAlternative readExpr follows) := by
    cases follows with
    | false => exact .pure _
    | true => exact keeps_advance.bind fun _ => hbody.bind fun _ => .pure _
  exact Triple.bind (halternative.carry brackets BracketsReported.mono) fun _ s _ hs =>
    ⟨hs.1.complete hs.2, trivial⟩

theorem reported_readWhile (hr : ReaderKeeps tokens n readExpr) (keyword : Token) :
    Finds tokens n keyword (readWhile readExpr keyword) fun _ _ => True := by
  refine Triple.bind (finds_condition hr keyword) fun found => ?_
  exact Triple.bind ((keeps_readAfterNewlines hr .help).carry
    (BracketsReported tokens · keyword found.1 found.2.2) BracketsReported.mono) fun _ s _ hs =>
      ⟨hs.1.complete hs.2, trivial⟩

/-- The name of a loop variable is taken, and is the last token gone over, or reported missing. -/
theorem reported_readLoopVar (before : Token) :
    Triple tokens n (fun s => AllReported tokens s ∧ s.previous = some before) readLoopVar
      fun loopVar s => (AllReported tokens s ∧ s.previous = some (loopVar.getD before)) ∧
        NameReported tokens s.problems before loopVar := by
  refine Triple.look_bind fun kind => .ite (fun hk => ?_) fun _ => ?_
  · rintro s ha ⟨hkind, hs, _⟩
    have hname := ha.previous_advance (by simp [hkind, hk]) (by simp [hkind, hk])
    exact ⟨⟨(keeps_advance s ha hs).complete trivial, hname⟩, nameReported_some _⟩
  · rintro s ha ⟨_, hs, hp⟩
    refine ⟨⟨hs.onward (List.subset_cons_self _ _) rfl, hp⟩, fun _ => ?_⟩
    exact ⟨s.current, ha.precedes hp, List.mem_cons_self⟩

theorem finds_readLoopHead (hr : ReaderKeeps tokens n readExpr) (before : Token) :
    Finds tokens n before (readLoopHead readExpr) fun head problems =>
      LoopHeadReported tokens problems before head.1 head.2.1 := by
  refine Triple.bind (reported_readLoopVar before) fun loopVar => ?_
  refine Triple.bind (Q := fun inWord s => AllReported tokens s ∧
    LoopHeadReported tokens s.problems before loopVar inWord) ?_ fun inWord => ?_
  · rintro s ha ⟨⟨hs, hp⟩, hname⟩
    have hlast : s.lastToken = loopVar.getD before := by simp [State.lastToken, hp]
    rcases acceptOr_run .inWord (fun s => .expected .inWord s.lastToken s.current) s with
      ⟨_, hrun⟩ | ⟨_, hrun⟩ <;> rw [show (expect .inWord).run s = _ from hrun]
    · exact ⟨keeps_advance s ha hs, hname.mono s.onward_advance.problems.subset, by simp⟩
    · have hmore : s.problems ⊆ (s.report (.expected .inWord s.lastToken s.current)).problems :=
        List.subset_cons_self _ _
      refine ⟨hs.onward hmore rfl, hname.mono hmore, fun _ => ?_⟩
      refine ⟨s.current, ha.precedes hp, ?_⟩
      rw [← hlast]
      exact List.mem_cons_self
  · exact Triple.bind ((hr .help).carry (LoopHeadReported tokens · before loopVar inWord)
      LoopHeadReported.mono) fun _ => .pure fun _ => id

theorem reported_readFor (hr : ReaderKeeps tokens n readExpr) (keyword : Token) :
    Finds tokens n keyword (readFor readExpr keyword) fun _ _ => True := by
  let head (before : Token) (found : Option Token × Option Token × Expr)
      (problems : List Problem) : Prop :=
    LoopHeadReported tokens problems before found.1 found.2.1
  have hhead : ∀ before, Finds tokens n before (readLoopHead readExpr) (head before) :=
    finds_readLoopHead hr
  have hmono (before : Token) (found : Option Token × Option Token × Expr)
      {problems more : List Problem} (hm : problems ⊆ more) (h : head before found problems) :
      head before found more :=
    LoopHeadReported.mono hm h
  refine Triple.bind (finds_readBracketed hmono hhead keyword) fun found => ?_
  let fact (problems : List Problem) : Prop :=
    BracketsReported tokens problems keyword found.1 found.2.2 ∧
      head (found.1.getD keyword) found.2.1 problems
  refine Triple.bind ((keeps_readAfterNewlines hr .help).carry fact ?_) fun _ s _ hs =>
    ⟨hs.1.complete hs.2, trivial⟩
  exact fun hm h => ⟨h.1.mono hm, hmono _ _ hm h.2⟩

theorem reported_readFunction (hr : ReaderKeeps tokens n readExpr) (bound : Nat)
    (keyword : Token) :
    Finds tokens n keyword (readFunction readExpr bound keyword) fun _ _ => True := by
  rintro s ha ⟨hs, hp⟩
  rw [readFunction, run_bind]
  rcases acceptOr_run .leftParen (fun s => .expected .leftParen s.lastToken s.current) s with
    ⟨_, hrun⟩ | ⟨_, hrun⟩ <;> rw [show (expect .leftParen).run s = _ from hrun]
  · let fact (parameters : List Item) (closing : Option Token) (problems : List Problem) : Prop :=
      ClosingReported problems s.current closing ∧
        ∀ item ∈ parameters, item.Reported tokens problems
    have hmono (parameters : List Item) (closing : Option Token) {problems more : List Problem}
        (hm : problems ⊆ more) (h : fact parameters closing problems) :
        fact parameters closing more :=
      ⟨h.1.mono hm, fun item hi => (h.2 item hi).mono hm⟩
    refine Triple.bind (R := fun (_ : Expr) t => AllReported tokens t ∧ True)
      (reported_readList hr bound .parameters s.current .rightParen) (fun found => ?_) s.advance
      (ha.onward s.onward_advance.passes) (keeps_advance s ha hs)
    have hnames : Keeps tokens n (reportRepeatedNames found.1) := .quiet fun t => by
      obtain ⟨_, hrun⟩ := reportRepeatedNames_run found.1 t
      rw [hrun]
    refine Triple.bind (Q := fun _ t => AllReported tokens t ∧ fact found.1 found.2 t.problems)
      ((hnames.carry (fact found.1 found.2) (hmono found.1 found.2)).mono
        (fun _ h => ⟨h.1, h.2.1, h.2.2 rfl⟩) fun _ _ => id) fun _ => ?_
    have hbody (closing : Option Token) :
        Triple tokens n (fun t => AllReported tokens t ∧ fact found.1 closing t.problems)
          (readFunctionBody readExpr closing) fun body t =>
            (AllReported tokens t ∧ fact found.1 closing t.problems) ∧
              (body = none → closing = none) := by
      cases closing with
      | none => exact .pure fun _ h => ⟨h, fun _ => rfl⟩
      | some closing =>
        exact Triple.map ((keeps_readAfterNewlines hr .help).carry (fact found.1 (some closing))
          (hmono found.1 (some closing))) fun _ _ h => ⟨h, by simp⟩
    refine Triple.bind (hbody found.2) fun body t _ ht => ⟨ht.1.1.complete ?_, trivial⟩
    refine ⟨⟨openingReported_some _, fun token hm => ?_⟩, ht.1.2.2, ht.2⟩
    obtain rfl := Option.some.inj hm
    exact ht.1.2.1
  · have hlast : s.lastToken = keyword := by simp [State.lastToken, hp]
    have hkept : AllReported tokens (s.report (.expected .leftParen s.lastToken s.current)) :=
      hs.onward (List.subset_cons_self _ _) rfl
    refine ⟨hkept.complete (e := .function keyword none [] none none) ?_, trivial⟩
    refine ⟨⟨fun _ => ⟨s.current, ha.precedes hp, ?_⟩, by simp⟩, by simp, fun _ => rfl⟩
    rw [hlast]
    exact List.mem_cons_self

theorem keeps_readCall (hr : ReaderKeeps tokens n readExpr) (bound : Nat) (callee : Expr)
    (opening : Token) : Keeps tokens n (readCall readExpr bound callee opening) :=
  Triple.bind (reported_readList hr bound .arguments opening .rightParen)
    fun _ _ _ hs => hs.1.complete hs.2.1

theorem reported_readIndexEnd (target : Expr) (opening : Token) (arguments : List Item)
    (first : Option Token) :
    Triple tokens n (fun s => AllReported tokens s ∧ ClosingReported s.problems opening first)
      (readIndexEnd opening first) fun closing s => AllReported tokens s ∧
        (Expr.index target opening arguments closing).Reported tokens s.problems := by
  cases first with
  | none => exact .pure fun s hs => ⟨hs.1, hs.2, by simp⟩
  | some first =>
    refine .ite (fun hk => ?_) fun _ => ?_
    · exact .pure fun s hs => ⟨hs.1, closingReported_some _, fun _ hdouble => absurd hdouble hk⟩
    · refine Triple.bind (Q := fun second s => AllReported tokens s ∧ (second = none →
        ∃ next, .expected .rightSquare first next ∈ s.problems)) ?_ fun second => ?_
      · rintro s ha ⟨hs, _⟩
        rcases acceptOr_run .rightSquare (fun s => .expected .rightSquare first s.current) s with
          ⟨_, hrun⟩ | ⟨_, hrun⟩ <;> rw [hrun]
        · exact ⟨keeps_advance s ha hs, by simp⟩
        · exact ⟨hs.onward (List.subset_cons_self _ _) rfl, fun _ => ⟨_, List.mem_cons_self⟩⟩
      · refine .pure fun s hs => ⟨hs.1, closingReported_some _, fun found _ he => ?_⟩
        cases second with
        | none =>
          obtain ⟨rfl, _⟩ := List.cons.inj he
          exact hs.2 rfl
        | some second => simp at he

theorem keeps_readIndex (hr : ReaderKeeps tokens n readExpr) (bound : Nat) (target : Expr)
    (opening : Token) : Keeps tokens n (readIndex readExpr bound target opening) :=
  Triple.bind (reported_readList hr bound .arguments opening .rightSquare) fun found =>
    Triple.bind ((reported_readIndexEnd target opening found.1 found.2).mono
      (fun _ h => ⟨h.1, h.2.1⟩) fun _ _ => id) fun _ _ _ hs => hs.1.complete hs.2

theorem reported_readOperator (hr : ReaderKeeps tokens n readExpr) (bound : Nat) (level : Level)
    (left : Expr) (operator : Token) :
    Finds tokens n operator (readOperator readExpr bound level left operator)
      fun _ _ => True := by
  have hmember : Finds tokens n operator (readMember left operator) fun _ _ => True :=
    Triple.bind (finds_readName operator) fun _ _ _ hs => ⟨hs.1.complete hs.2, trivial⟩
  have hkeeps {action : Action Expr} (h : Keeps tokens n action) :
      Finds tokens n operator action fun _ _ => True :=
    h.finds fun _ _ _ => trivial
  unfold readOperator
  split
  · exact hkeeps (keeps_readCall hr bound left operator)
  · exact hkeeps (keeps_readIndex hr bound left operator)
  · exact hkeeps (keeps_readIndex hr bound left operator)
  · exact hmember
  · exact hmember
  · exact hkeeps (keeps_readOperation hr level left operator)

theorem keeps_readOperators (hr : ReaderKeeps tokens n readExpr) (lists : Nat) (level : Level)
    (bound : Nat) (left : Expr) :
    Keeps tokens n (readOperators readExpr lists level bound left) := by
  induction bound generalizing left with
  | zero => exact .pure _
  | succ bound ih =>
    intro s ha hs
    rw [readOperators, run_look_bind]
    split
    · exact hs
    rename_i found hfound
    split
    · have hprevious : s.advance.previous = some s.current := by
        apply ha.previous_advance <;>
        · intro hk
          rw [hk] at hfound
          cases hfound
      have hread := reported_readOperator hr lists found left s.current s.advance
        (ha.onward s.onward_advance.passes) ⟨keeps_advance s ha hs, hprevious⟩
      exact ih _ _ ((ha.onward s.onward_advance.passes).run _) hread.1
    · exact hs

-- ---------------------------------------------------------------------------
-- Expressions and statements
-- ---------------------------------------------------------------------------

theorem keeps_readAbsent : Keeps tokens n readAbsent := by
  intro s ha hs
  exact AllReported.complete (hs.onward (List.subset_cons_self _ _) rfl) (.inl List.mem_cons_self)

theorem keeps_failAt {kind : Kind} {problem : Token → Problem} (token : Token)
    (hp : startProblem? kind = some problem) : Keeps tokens n (failAt problem token) := by
  intro s ha hs
  refine AllReported.complete (hs.onward (List.subset_cons_self _ _) rfl) ?_
  unfold startProblem? at hp
  split at hp <;> cases hp
  · exact .inr (.inl List.mem_cons_self)
  · exact .inr (.inr List.mem_cons_self)
  · exact .inl List.mem_cons_self

theorem reported_readNamespaced (package : Token) :
    Triple tokens n (fun s => AllReported tokens s ∧ s.kind ≠ .endOfFile ∧ s.kind ≠ .endOfLine)
      (readNamespaced package) fun _ => AllReported tokens := by
  rintro s ha ⟨hs, hfile, hline⟩
  have hname := finds_readName s.current s.advance (ha.onward s.onward_advance.passes)
    ⟨keeps_advance s ha hs, ha.previous_advance hfile hline⟩
  exact hname.1.complete hname.2

theorem keeps_readNameOr {other : Token → Expr} {token : Token}
    (h : ∀ problems, (other token).Reported tokens problems) :
    Keeps tokens n (readNameOr other token) := by
  refine Triple.look_bind fun kind => .ite (fun hk => ?_) fun _ => ?_
  · refine (reported_readNamespaced token).mono ?_ fun _ _ => id
    rintro s ⟨rfl, hs⟩
    refine ⟨hs, ?_, ?_⟩ <;> rcases hk with hk | hk <;> simp [hk]
  · exact (keeps_complete h).mono (fun _ h => h.2) fun _ _ => id

theorem reported_literal {token : Token} (h : token.kind ≠ .invalidNumber)
    (problems : List Problem) : (Expr.literal token).Reported tokens problems :=
  fun hk => absurd hk h

theorem reported_readStart (hr : ReaderKeeps tokens n readExpr)
    {statements : Action (List Expr)} (hs : Keeps tokens n statements) (bound : Nat)
    (token : Token) :
    Finds tokens n token (readStart readExpr statements bound token) fun _ _ => True := by
  have hkeeps {action : Action Expr} (h : Keeps tokens n action) :
      Finds tokens n token action fun _ _ => True :=
    h.finds fun _ _ _ => trivial
  unfold readStart
  split
  · exact hkeeps (keeps_readNameOr fun _ => trivial)
  · rename_i hk
    exact hkeeps (keeps_readNameOr (reported_literal (by simp [hk])))
  · exact hkeeps (keeps_complete fun _ => trivial)
  · rintro s ha ⟨hs, _⟩
    exact ⟨AllReported.complete (hs.onward (List.subset_cons_self _ _) rfl)
      fun _ => List.mem_cons_self, trivial⟩
  · exact hkeeps (keeps_readBlock hs token)
  · exact hkeeps (keeps_readGroup hr token)
  · exact reported_readFunction hr bound token
  · exact reported_readFunction hr bound token
  · exact hkeeps (keeps_readUnary hr token _)
  · exact hkeeps (keeps_readUnary hr token _)
  · exact hkeeps (keeps_readUnary hr token _)
  · exact hkeeps (keeps_readUnary hr token _)
  · exact hkeeps (keeps_readUnary hr token _)
  · exact reported_readIf hr token
  · exact reported_readFor hr token
  · exact reported_readWhile hr token
  · exact hkeeps (keeps_readRepeat hr token)
  · exact hkeeps (keeps_complete fun _ => trivial)
  · exact hkeeps (keeps_complete fun _ => trivial)
  · rename_i hk _ _ _ _ _ _ _ _ _ _ _ _ _ _ _
    exact hkeeps (keeps_complete (reported_literal hk))

theorem keeps_readStatements (hr : ReaderKeeps tokens n readExpr) (bound : Nat) :
    Keeps tokens n (readStatements readExpr bound) := by
  induction bound with
  | zero => exact .pure _
  | succ bound ih =>
    have hend : Keeps tokens n endStatement := .quiet fun s => by
      simp only [endStatement, update]
      split <;> rfl
    have hstatement : Keeps tokens n (readStatement readExpr) :=
      (hr .help).bind fun _ => (keeps_recoverIfNeeded _).bind fun _ => hend.bind fun _ => .pure _
    refine (Keeps.quiet fun _ => rfl).bind fun _ => .look_bind fun last =>
      .look_bind fun kind => .ite (fun _ => .pure _) fun _ => .ite (fun _ => ?_) fun _ => ?_
    · exact (Keeps.quiet fun _ => rfl).bind fun _ => keeps_advance.bind fun _ => ih
    · exact hstatement.bind fun _ => ih.bind fun _ => .pure _

theorem reported_readFrom (hr : ReaderKeeps tokens n readExpr) (bound : Nat) (level : Level)
    (token : Token) :
    Finds tokens n token (readFrom readExpr bound level token) fun _ _ => True := by
  unfold readFrom
  split
  · rename_i problem hp
    exact (keeps_failAt token hp).finds fun _ _ _ => trivial
  · refine Triple.bind (reported_readStart hr (keeps_readStatements hr bound) bound token)
      fun first => ?_
    exact (keeps_readOperators hr bound level bound first).carry (fun _ => True) fun _ => id

theorem readerKeeps_readExprWithin (bound : Nat) :
    ReaderKeeps tokens bound (readExprWithin bound) := by
  induction bound with
  | zero => exact fun _ => keeps_readAbsent
  | succ bound ih =>
    intro level s ha hs
    rw [readExprWithin, run_look_bind]
    split
    · exact keeps_readAbsent s ha hs
    · rename_i hk
      have hfile : s.kind ≠ .endOfFile := fun he => hk (by simp [he, Kind.endsExpression])
      have hline : s.kind ≠ .endOfLine := fun he => hk (by simp [he, Kind.endsExpression])
      have hadvanced : (advance.run s).2.Amid tokens bound :=
        ha.run_lt (State.length_advance_lt hfile)
      exact (reported_readFrom ih bound level s.current s.advance hadvanced
        ⟨keeps_advance s ha hs, ha.previous_advance hfile hline⟩).1

theorem allReported_readAll (h : (State.start tokens).Ended) :
    AllReported tokens (readAll tokens).2 :=
  keeps_readStatements (readerKeeps_readExprWithin _) _ _ ⟨.of_eq rfl rfl, h, Nat.le_refl _⟩
    fun _ he => absurd he List.not_mem_nil

end Reading

end LenientR
