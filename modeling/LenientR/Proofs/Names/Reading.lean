import LenientR.Proofs.Lists.Accounts
import LenientR.Proofs.Names.Tally
import LenientR.Proofs.Printing.Basic

/-!
# Repeated names are reported

The tally of every token is kept by all of reading. As a token is gone over once, what is reported
of it is what its own parameter list makes of it: a name that an earlier parameter has is reported
once, and nothing else is (`Document.repeatsReported`).
-/

namespace LenientR

namespace Reading

variable {name : Token} {readExpr : ExprReader}

-- ---------------------------------------------------------------------------
-- Constructs
-- ---------------------------------------------------------------------------

theorem balances_readAfterNewlines (hr : ReaderBalances name readExpr) (level : Level) :
    Balances name (readAfterNewlines readExpr level) :=
  balances_dropNewlines.bind fun _ => hr level

theorem balances_readFunctionBody (hr : ReaderBalances name readExpr) :
    (closing : Option Token) → Balances name (readFunctionBody readExpr closing)
  | none => .pure rfl
  | some _ => (balances_readAfterNewlines hr .help).map

theorem balances_readFunction (hr : ReaderBalances name readExpr) (bound : Nat) (keyword : Token) :
    Balances name (readFunction readExpr bound keyword) := by
  refine (balances_expect .leftParen).bind fun opening => ?_
  cases opening with
  | none =>
    exact fun s => ⟨[[]], rfl, by simp [complete, timesNaming], fun e he =>
      (List.mem_cons.1 he).elim (fun h => .inr fun _ hp => by subst h; cases hp; simp) .inl⟩
  | some opening =>
    intro s
    let list := (readList readExpr bound .parameters opening .rightParen).run s
    let reported := (reportRepeatedNames list.1.1).run list.2
    let body := (readFunctionBody readExpr list.1.2).run reported.2
    obtain ⟨within, hlist⟩ := tallies_readList hr bound .parameters opening .rightParen s
    obtain ⟨inBody, hbody⟩ := balances_readFunctionBody hr list.1.2 reported.2
    have hread := (hlist.trans (tally_reportRepeatedNames list.1.1 list.2)).trans hbody
    have hmem : list.1.1 ∈ within ++ [list.1.1] ++ inBody := by simp
    refine ⟨_, hread.reported, hread.named, fun e he => ?_⟩
    rcases List.mem_cons.1 he with rfl | he
    · exact .inr fun parameters hp => Option.some.inj hp ▸ hmem
    · exact hread.functions e he

theorem balances_skipToClosing : Balances name skipToClosing :=
  (balances_unexpectedUnless _).bind fun _ => balances_recoverIfNeeded _

theorem balances_readBracketed {inner : Action α} (h : Balances name inner) :
    Balances name (readBracketed inner) := by
  refine (balances_expect .leftParen).bind fun opening => ?_
  cases opening with
  | none => exact h.bind fun _ => .pure rfl
  | some token =>
    have hinner : Balances name (readToClosing inner) :=
      .withNewlines true (h.bind fun _ => balances_skipToClosing.bind fun _ => .pure rfl)
    exact hinner.bind fun _ => (balances_takeClosing token _).bind fun _ => .pure rfl

theorem balances_readNamespaced (package : Token) : Balances name (readNamespaced package) :=
  balances_advance.bind fun _ => balances_readName.bind fun _ => balances_complete rfl

theorem balances_readUnary (hr : ReaderBalances name readExpr) (operator : Token) (level : Level) :
    Balances name (readUnary readExpr operator level) :=
  (balances_readAfterNewlines hr level).bind fun _ => balances_complete rfl

theorem balances_readGroup (hr : ReaderBalances name readExpr) (opening : Token) :
    Balances name (readGroup readExpr opening) := by
  have hinner : Balances name (readGroupInner readExpr) :=
    .withNewlines true (.look_bind fun _ => .ite (fun _ => .pure rfl) fun _ =>
      (hr .help).bind fun _ => balances_skipToClosing.bind fun _ => .pure rfl)
  refine hinner.bind fun found => ?_
  cases found with
  | none =>
    exact balances_advance.bind fun _ => (balances_complete rfl).bind fun _ =>
      (balances_report (by simp)).bind fun _ => balances_complete rfl
  | some inner => exact (balances_takeClosing opening _).bind fun _ => balances_complete rfl

theorem balances_readBlock {statements : Action (List Expr)} (h : Balances name statements)
    (opening : Token) : Balances name (readBlock statements opening) :=
  (Tallies.withNewlines false h.inBlock).bind fun _ =>
    (balances_takeClosing opening _).bind fun _ => balances_complete rfl

theorem balances_readFor (hr : ReaderBalances name readExpr) (keyword : Token) :
    Balances name (readFor readExpr keyword) := by
  have hvar : Balances name readLoopVar :=
    .look_bind fun _ => .ite
      (fun _ => balances_advance.bind fun _ => (balances_complete rfl).bind fun _ => .pure rfl)
      fun _ => (balances_reportCurrent fun _ => by simp).bind fun _ => .pure rfl
  have hhead : Balances name (readLoopHead readExpr) :=
    hvar.bind fun _ => (balances_expect .inWord).bind fun _ => (hr .help).bind fun _ => .pure rfl
  exact (balances_readBracketed hhead).bind fun _ =>
    (balances_readAfterNewlines hr .help).bind fun _ => balances_complete rfl

theorem balances_readIf (hr : ReaderBalances name readExpr) (keyword : Token) :
    Balances name (readIf readExpr keyword) := by
  have hbody := balances_readAfterNewlines hr .help
  refine (balances_readBracketed (hr .help)).bind fun _ => hbody.bind fun _ =>
    balances_elseFollows.bind fun follows => ?_
  have halternative : Balances name (readAlternative readExpr follows) := by
    cases follows with
    | false => exact .pure rfl
    | true => exact balances_advance.bind fun _ => hbody.bind fun _ => .pure rfl
  exact halternative.bind fun _ => balances_complete rfl

theorem balances_readWhile (hr : ReaderBalances name readExpr) (keyword : Token) :
    Balances name (readWhile readExpr keyword) :=
  (balances_readBracketed (hr .help)).bind fun _ =>
    (balances_readAfterNewlines hr .help).bind fun _ => balances_complete rfl

theorem balances_readRepeat (hr : ReaderBalances name readExpr) (keyword : Token) :
    Balances name (readRepeat readExpr keyword) :=
  (balances_readAfterNewlines hr .help).bind fun _ => balances_complete rfl

theorem balances_readArguments (hr : ReaderBalances name readExpr) (bound : Nat) (opening : Token)
    (terminator : Kind) : Balances name (readList readExpr bound .arguments opening terminator) :=
  fun s => (tallies_readList hr bound .arguments opening terminator s).less (Nat.zero_le _)

theorem balances_readIndexEnd (opening : Token) :
    (first : Option Token) → Balances name (readIndexEnd opening first)
  | none => .pure rfl
  | some _ => .ite (fun _ => .pure rfl) fun _ =>
      (balances_acceptOr _ fun _ => by simp).bind fun _ => .pure rfl

theorem balances_readOperator (hr : ReaderBalances name readExpr) (bound : Nat) (level : Level)
    (left : Expr) (operator : Token) :
    Balances name (readOperator readExpr bound level left operator) := by
  have hindex : Balances name (readIndex readExpr bound left operator) :=
    (balances_readArguments hr bound operator _).bind fun found =>
      (balances_readIndexEnd operator found.2).bind fun _ => balances_complete rfl
  have hmember : Balances name (readMember left operator) :=
    balances_readName.bind fun _ => balances_complete rfl
  unfold readOperator
  split
  · exact (balances_readArguments hr bound operator _).bind fun _ => balances_complete rfl
  · exact hindex
  · exact hindex
  · exact hmember
  · exact hmember
  · exact (balances_readAfterNewlines hr _).bind fun _ => balances_complete (by split <;> rfl)

theorem balances_readOperators (hr : ReaderBalances name readExpr) (lists : Nat) (level : Level)
    (bound : Nat) (left : Expr) :
    Balances name (readOperators readExpr lists level bound left) := by
  induction bound generalizing left with
  | zero => exact .pure rfl
  | succ bound ih =>
    refine .look_bind fun kind => ?_
    split
    · exact .pure rfl
    rename_i found _
    exact .ite (fun _ => balances_advance.bind fun operator =>
      (balances_readOperator hr lists found left operator).bind fun grown => ih grown)
      fun _ => .pure rfl

-- ---------------------------------------------------------------------------
-- Expressions and statements
-- ---------------------------------------------------------------------------

theorem balances_failAt {problem : Token → Problem}
    (h : ∀ token, problem token ≠ .duplicateParameter name) (token : Token) :
    Balances name (failAt problem token) :=
  (balances_fail fun _ => h token).bind fun _ => balances_complete rfl

theorem balances_readAbsent : Balances name readAbsent :=
  .look_bind fun token => balances_failAt (fun _ => by simp) token

theorem startProblem?_ne {kind : Kind} {problem : Token → Problem}
    (h : startProblem? kind = some problem) (token : Token) :
    problem token ≠ .duplicateParameter name := by
  unfold startProblem? at h
  split at h <;> cases h <;> simp

theorem balances_readNameOr {other : Token → Expr} {token : Token}
    (h : (other token).parameters? = none) : Balances name (readNameOr other token) :=
  .look_bind fun _ => .ite (fun _ => balances_readNamespaced token) fun _ => balances_complete h

theorem balances_readStart (hr : ReaderBalances name readExpr) {statements : Action (List Expr)}
    (hs : Balances name statements) (bound : Nat) (token : Token) :
    Balances name (readStart readExpr statements bound token) := by
  unfold readStart
  split
  · exact balances_readNameOr rfl
  · exact balances_readNameOr rfl
  · exact balances_complete rfl
  · exact (balances_report (by simp)).bind fun _ => balances_complete rfl
  · exact balances_readBlock hs token
  · exact balances_readGroup hr token
  · exact balances_readFunction hr bound token
  · exact balances_readFunction hr bound token
  · exact balances_readUnary hr token _
  · exact balances_readUnary hr token _
  · exact balances_readUnary hr token _
  · exact balances_readUnary hr token _
  · exact balances_readUnary hr token _
  · exact balances_readIf hr token
  · exact balances_readFor hr token
  · exact balances_readWhile hr token
  · exact balances_readRepeat hr token
  · exact balances_complete rfl
  · exact balances_complete rfl
  · exact balances_complete rfl

theorem balances_readStatement (hr : ReaderBalances name readExpr) :
    Balances name (readStatement readExpr) :=
  (hr .help).bind fun _ => (balances_recoverIfNeeded _).bind fun _ =>
    balances_endStatement.bind fun _ => .pure rfl

theorem balances_readStatements (hr : ReaderBalances name readExpr) (bound : Nat) :
    Balances name (readStatements readExpr bound) := by
  induction bound with
  | zero => exact .pure rfl
  | succ bound ih =>
    refine (Balances.quiet fun _ => ⟨rfl, rfl⟩).bind fun _ => .look_bind fun last =>
      .look_bind fun kind => .ite (fun _ => .pure rfl) fun _ => .ite (fun _ => ?_) fun _ => ?_
    · exact (balances_reportCurrent fun _ => by simp).bind fun _ =>
        balances_advance.bind fun _ => ih
    · exact (balances_readStatement hr).bind fun _ => ih.bind fun _ => .pure rfl

theorem balances_readFrom (hr : ReaderBalances name readExpr) (bound : Nat) (level : Level)
    (token : Token) : Balances name (readFrom readExpr bound level token) := by
  unfold readFrom
  split
  · rename_i problem hp
    exact balances_failAt (startProblem?_ne hp) token
  · exact (balances_readStart hr (balances_readStatements hr bound) bound token).bind
      fun first => balances_readOperators hr bound level bound first

theorem balances_readExprWithin (bound : Nat) : ReaderBalances name (readExprWithin bound) := by
  induction bound with
  | zero => exact fun _ => balances_readAbsent
  | succ bound ih =>
    exact fun level => .look_bind fun _ => .ite (fun _ => balances_readAbsent) fun _ =>
      balances_advance.bind fun token => balances_readFrom ih bound level token

theorem tallied_readAll (name : Token) (tokens : List Token) :
    Tallied name 0 (State.start tokens) (readAll tokens).2 0 :=
  balances_readStatements (balances_readExprWithin _) _ _

-- ---------------------------------------------------------------------------
-- Repeated names
-- ---------------------------------------------------------------------------

variable {earlier later parameters : List Item} {seen : List Token}

theorem any_chars_iff {chars : List Char} :
    seen.any (·.chars = chars) = true ↔ chars ∈ seen.map Token.chars := by
  simp only [List.any_eq_true, decide_eq_true_eq, List.mem_map]

theorem exists_known (earlier : List Item) (seen : List Token) :
    ∃ known : List Token, (∀ later, repeatedNames (earlier ++ later) seen =
        repeatedNames earlier seen ++ repeatedNames later known) ∧
      ∀ chars, chars ∈ known.map Token.chars ↔
        chars ∈ seen.map Token.chars ∨ chars ∈ parameterNames earlier := by
  induction earlier generalizing seen with
  | nil => exact ⟨seen, fun _ => rfl, fun chars => by simp [parameterNames]⟩
  | cons item rest ih =>
    cases item with
    | named found equals value comma =>
      by_cases hs : seen.any (·.chars = found.chars) = true
      · obtain ⟨known, happend, hknown⟩ := ih seen
        refine ⟨known, fun later => ?_, fun chars => ?_⟩
        · rw [List.cons_append, repeatedNames, repeatedNames, if_pos hs, if_pos hs, happend,
            List.cons_append]
        · rw [hknown, parameterNames, List.mem_cons]
          refine ⟨.imp_right .inr, ?_⟩
          rintro (h | rfl | h)
          · exact .inl h
          · exact .inl (any_chars_iff.1 hs)
          · exact .inr h
      · obtain ⟨known, happend, hknown⟩ := ih (found :: seen)
        refine ⟨known, fun later => ?_, fun chars => ?_⟩
        · rw [List.cons_append, repeatedNames, repeatedNames, if_neg hs, if_neg hs, happend]
        · rw [hknown, List.map_cons, List.mem_cons, parameterNames, List.mem_cons, or_assoc,
            or_left_comm]
    | positional | ellipsis | missing | unreadable | stub => exact ih seen

theorem count_repeatedNames {equals comma : Option Token} {value : Option Expr}
    (he : timesNaming name earlier = 0) (hl : timesNaming name later = 0) :
    (repeatedNames (earlier ++ .named name equals value comma :: later) []).count name =
      if name.chars ∈ parameterNames earlier then 1 else 0 := by
  obtain ⟨known, happend, hknown⟩ := exists_known earlier []
  have hearlier := count_repeatedNames_le name earlier []
  have hlater (seen : List Token) := count_repeatedNames_le name later seen
  have hseen : known.any (·.chars = name.chars) = true ↔ name.chars ∈ parameterNames earlier := by
    rw [any_chars_iff, hknown]
    simp
  rw [happend, List.count_append, repeatedNames]
  by_cases h : name.chars ∈ parameterNames earlier
  · have := hlater known
    rw [if_pos (hseen.2 h), if_pos h, List.count_cons_self]
    omega
  · have := hlater (name :: known)
    rw [if_neg (mt hseen.1 h), if_neg h]
    omega

theorem count_repeatedNames_ellipsis {comma : Option Token} (he : timesNaming name earlier = 0)
    (hl : timesNaming name later = 0) :
    (repeatedNames (earlier ++ .ellipsis name comma :: later) []).count name = 0 := by
  obtain ⟨known, happend, _⟩ := exists_known earlier []
  have hearlier := count_repeatedNames_le name earlier []
  have hlater := count_repeatedNames_le name later known
  have hskip : repeatedNames (.ellipsis name comma :: later) known = repeatedNames later known :=
    rfl
  rw [happend, List.count_append, hskip]
  omega

theorem nodup_of_repeatedNames (h : repeatedNames parameters seen = []) :
    (parameterNames parameters).Nodup ∧
      ∀ token ∈ seen, token.chars ∉ parameterNames parameters := by
  induction parameters generalizing seen with
  | nil => exact ⟨List.nodup_nil, fun _ _ => List.not_mem_nil⟩
  | cons item rest ih =>
    cases item with
    | named found equals value comma =>
      rw [repeatedNames] at h
      split at h
      · cases h
      rename_i hs
      obtain ⟨hnodup, hfresh⟩ := ih h
      refine ⟨List.nodup_cons.2 ⟨hfresh found List.mem_cons_self, hnodup⟩, fun token hm hin => ?_⟩
      rcases List.mem_cons.1 hin with he | hin
      · exact hs (any_chars_iff.2 (he ▸ List.mem_map_of_mem hm))
      · exact hfresh token (List.mem_cons_of_mem _ hm) hin
    | positional | ellipsis | missing | unreadable | stub => exact ih h

-- ---------------------------------------------------------------------------
-- Lists that are read
-- ---------------------------------------------------------------------------

variable {tokens : List Token} {lists : List (List Item)} {t : State}

theorem count_flatMap_repeatedNames_le (name : Token) (lists : List (List Item)) :
    (lists.flatMap (repeatedNames · [])).count name ≤ timesNaming name lists.flatten := by
  induction lists with
  | nil => exact Nat.le_refl _
  | cons items rest ih =>
    rw [List.flatMap_cons, List.count_append, List.flatten_cons, timesNaming_append]
    exact Nat.add_le_add (count_repeatedNames_le name items []) ih

theorem Tally.le_timesReported (h : Tally name lists 0 (State.start tokens) t 0)
    (hm : parameters ∈ lists) :
    (repeatedNames parameters []).count name ≤ t.timesReported name := by
  obtain ⟨front, back, rfl⟩ := List.append_of_mem hm
  have hreported := h.reported
  simp only [List.flatMap_append, List.flatMap_cons, List.count_append] at hreported
  omega

/-- A token that names a parameter names no other, and is reported for the list of that parameter
alone. -/
theorem Tally.own {item : Item} (h : Tally name lists 0 (State.start tokens) t 0)
    (hone : tokens.count name ≤ 1) (hm : earlier ++ item :: later ∈ lists)
    (hi : timesNaming name [item] = 1) :
    timesNaming name earlier = 0 ∧ timesNaming name later = 0 ∧
      t.timesReported name = (repeatedNames (earlier ++ item :: later) []).count name := by
  obtain ⟨front, back, rfl⟩ := List.append_of_mem hm
  have hreported := h.reported
  have hnamed := h.named
  have hfront := count_flatMap_repeatedNames_le name front
  have hback := count_flatMap_repeatedNames_le name back
  have hstart : (State.start tokens).timesReported name = 0 := rfl
  have hrest : (State.start tokens).rest.count name ≤ 1 := hone
  have hitem := timesNaming_cons name item later
  simp only [List.flatMap_append, List.flatMap_cons, List.count_append] at hreported
  simp only [List.flatten_append, List.flatten_cons, timesNaming_append] at hnamed
  omega

end Reading

/-- What is reported of the names of a parameter list. -/
structure RepeatsReported (problems : List Problem) (parameters : List Item) : Prop where
  /-- A name is reported once if an earlier parameter has it, and not otherwise. -/
  named : ∀ earlier name equals value comma later,
    parameters = earlier ++ .named name equals value comma :: later →
      problems.count (.duplicateParameter name) =
        if name.chars ∈ parameterNames earlier then 1 else 0
  /-- However many there are, `...` is not reported. -/
  ellipsis : ∀ token comma, .ellipsis token comma ∈ parameters →
    .duplicateParameter token ∉ problems
  /-- Where nothing is reported, no two names are the same. -/
  nodup : (∀ name, .duplicateParameter name ∉ problems) → (parameterNames parameters).Nodup

namespace Reading

theorem repeatsReported_readAll {tokens : List Token} {e : Expr} {parameters : List Item}
    (ho : tokens.Pairwise (·.start < ·.start)) (he : e ∈ (readAll tokens).2.completed)
    (hp : e.parameters? = some parameters) :
    RepeatsReported (readAll tokens).2.problems parameters := by
  have hone (name : Token) : tokens.count name ≤ 1 := by
    refine List.nodup_iff_count.1 (ho.imp fun hlt => ?_) name
    rintro rfl
    exact Nat.lt_irrefl _ hlt
  have htally (name : Token) : ∃ lists, parameters ∈ lists ∧
      Tally name lists 0 (State.start tokens) (readAll tokens).2 0 := by
    obtain ⟨lists, h⟩ := tallied_readAll name tokens
    rcases h.functions e he with he | hm
    · exact absurd he List.not_mem_nil
    · exact ⟨lists, hm parameters hp, h⟩
  exact {
    named := by
      rintro earlier name equals value comma later rfl
      obtain ⟨lists, hm, h⟩ := htally name
      obtain ⟨hearlier, hlater, hreported⟩ :=
        h.own (hone name) hm (by simp [timesNaming, Item.nameToken?])
      exact hreported.trans (count_repeatedNames hearlier hlater)
    ellipsis := by
      intro name comma hm
      obtain ⟨earlier, later, rfl⟩ := List.append_of_mem hm
      obtain ⟨lists, hm, h⟩ := htally name
      obtain ⟨hearlier, hlater, hreported⟩ :=
        h.own (hone name) hm (by simp [timesNaming, Item.nameToken?])
      exact List.count_eq_zero.1
        (hreported.trans (count_repeatedNames_ellipsis hearlier hlater))
    nodup := by
      intro hnone
      have hrepeats : repeatedNames parameters [] = [] := by
        refine List.eq_nil_iff_forall_not_mem.2 fun name hrepeated => ?_
        obtain ⟨lists, hm, h⟩ := htally name
        have hle := h.le_timesReported hm
        have hzero : (readAll tokens).2.timesReported name = 0 := List.count_eq_zero.2 (hnone name)
        have hpos := List.count_pos_iff.2 hrepeated
        omega
      exact (nodup_of_repeatedNames hrepeats).1 }

end Reading

theorem RepeatsReported.perm {problems more : List Problem} {parameters : List Item}
    (h : RepeatsReported problems parameters) (hp : more.Perm problems) :
    RepeatsReported more parameters where
  named earlier name equals value comma later he :=
    (hp.count_eq _).trans (h.named earlier name equals value comma later he)
  ellipsis token comma hm hin := h.ellipsis token comma hm (hp.mem_iff.1 hin)
  nodup hnone := h.nodup fun name hin => hnone name (hp.mem_iff.2 hin)

def Document.RepeatsReported (document : Document) : Prop :=
  ∀ found ∈ document.walk, ∀ keyword opening parameters closing body,
    found.node = .expr (.function keyword opening parameters closing body) →
      LenientR.RepeatsReported document.problems parameters

open Reading in
/-- Whatever text is read, each name that an earlier parameter of its function has is reported once,
and no other is. Without a problem all names of a function are different, if not how often `...` is
among them. -/
theorem Document.repeatsReported (source : String) (range : Span) (text : List Char) :
    (ofText source range text).RepeatsReported := by
  let document := ofText source range text
  have hproblems : document.problems.Perm (readAll document.tokens).2.problems :=
    (Problem.sortByStart_perm _).trans (List.reverse_perm _)
  have hexprs : ∀ e ∈ Part.exprsPostorder document.forest.parts, ∀ parameters,
      e.parameters? = some parameters → LenientR.RepeatsReported document.problems parameters := by
    intro e he parameters hp
    rw [← expressions_eq] at he
    exact (repeatsReported_readAll (pairwise_tokens source range text) (List.mem_reverse.1 he)
      hp).perm hproblems
  intro found hm keyword opening parameters closing body hf
  exact Part.every_walk [] 0 _ (Part.every_of_exprs _ hexprs) found hm _ hf parameters rfl

/-- Only names are looked at, so `...` may be repeated. -/
example :
    (Document.parse "function(..., ...) 1").isValid = true ∧
      (Document.parse "function(a, a) 1").problems =
        [.duplicateParameter ⟨.identifier, 12, ['a']⟩] := by
  decide +kernel

end LenientR
