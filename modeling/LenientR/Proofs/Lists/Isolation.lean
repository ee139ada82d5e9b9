import LenientR.Document
import LenientR.Proofs.Grammar.Items
import LenientR.Proofs.Laying.Basic

/-!
# Items that are given up

Recovery goes over brackets with all they hold (`seek_nested`). An item that fails where none of its
brackets is open is therefore given up by itself, whatever commas its brackets hold
(`givenUp_readItem`). What cannot be a parameter fails in front of its first token
(`givenUp_parameter`). An argument whose first token starts no expression fails right after it
(`givenUp_argument`): recovery does not know of this token, so where it is a square bracket the
argument is cut at the first comma in the bracket.
-/

namespace LenientR

def Kind.closings : Kind → List Kind
  | .leftParen => [.rightParen]
  | .leftCurly => [.rightCurly]
  | .leftSquare => [.rightSquare]
  | .leftDoubleSquare => [.rightSquare, .rightSquare]
  | _ => []

/-- Tokens with properly nested brackets; outside of brackets none is of certain kinds. -/
inductive Nested : (Kind → Bool) → List Token → Prop
  | nil {outside : Kind → Bool} : Nested outside []
  | plain {outside : Kind → Bool} {token : Token} {rest : List Token}
      (he : token.kind ≠ .endOfFile) (ho : token.kind.opensBracket = false)
      (hc : token.kind.closesBracket = false) (hs : outside token.kind = false)
      (h : Nested outside rest) : Nested outside (token :: rest)
  | brackets {outside : Kind → Bool} {opening : Token} {inner closings rest : List Token}
      (ho : opening.kind.opensBracket = true)
      (hc : closings.map Token.kind = opening.kind.closings) (hi : Nested (fun _ => false) inner)
      (h : Nested outside rest) : Nested outside (opening :: (inner ++ (closings ++ rest)))

namespace Reading

variable {stops outside : Kind → Bool}

-- ---------------------------------------------------------------------------
-- Recovery
-- ---------------------------------------------------------------------------

theorem depthAfter_opening {kind : Kind} (h : kind.opensBracket = true) (depth : Nat) :
    depthAfter depth kind = depth + kind.closings.length := by
  cases kind <;> first | rfl | cases h

theorem depthAfter_plain {kind : Kind} (ho : kind.opensBracket = false)
    (hc : kind.closesBracket = false) (depth : Nat) : depthAfter depth kind = depth := by
  have hd : kind ≠ .leftDoubleSquare := by
    rintro rfl
    cases ho
  simp [depthAfter, hd, ho, hc]

theorem depthAfter_closing {kind : Kind} (h : kind.closesBracket = true) (depth : Nat) :
    depthAfter (depth + 1) kind = depth := by
  cases kind <;> first | rfl | cases h

theorem closesBracket_of_mem_closings {opening kind : Kind} (h : kind ∈ opening.closings) :
    kind.closesBracket = true := by
  cases opening <;> simp only [Kind.closings, List.mem_cons, List.not_mem_nil, or_false] at h
  all_goals
    first
    | (subst h; rfl)
    | (rcases h with rfl | rfl <;> rfl)

theorem seek_cons {depth : Nat} {token : Token} (he : token.kind ≠ .endOfFile)
    (hs : depth = 0 → token.kind ≠ .rightCurly ∧ stops token.kind = false)
    (previous : Option Token) (rest : List Token) :
    seek stops depth previous (token :: rest) =
      seek stops (depthAfter depth token.kind) (State.lastCounted previous [token]) rest := by
  rw [seek, if_neg]
  · rfl
  rintro (h | ⟨hd, h | h⟩)
  · exact he h
  · exact (hs hd).1 h
  · simp [(hs hd).2] at h

theorem seek_closings {closings : List Token}
    (h : ∀ token ∈ closings, token.kind.closesBracket = true) (depth : Nat)
    (previous : Option Token) (rest : List Token) :
    seek stops (depth + closings.length) previous (closings ++ rest) =
      seek stops depth (State.lastCounted previous closings) rest := by
  induction closings generalizing previous with
  | nil => rfl
  | cons token closings ih =>
    obtain ⟨ht, hc⟩ := List.forall_mem_cons.1 h
    have he : token.kind ≠ .endOfFile := by
      intro he
      simp [he, Kind.closesBracket] at ht
    rw [List.cons_append, List.length_cons, ← Nat.add_assoc,
      seek_cons he fun hd => absurd hd (Nat.succ_ne_zero _), depthAfter_closing ht, ih hc,
      ← State.lastCounted_append]
    rfl

/-- Recovery goes over nested brackets as a whole. -/
theorem seek_nested {tokens : List Token} (h : Nested outside tokens) (depth : Nat)
    (hs : depth = 0 → ∀ kind, stops kind = true →
      outside kind = true ∧ kind.opensBracket = false)
    (previous : Option Token) (rest : List Token) :
    seek stops depth previous (tokens ++ rest) =
      seek stops depth (State.lastCounted previous tokens) rest := by
  induction h generalizing depth previous rest with
  | nil => rfl
  | @plain outside token tokens he ho hc hk _ ih =>
    have hstep : depth = 0 → token.kind ≠ .rightCurly ∧ stops token.kind = false := by
      refine fun hd => ⟨fun hr => by simp [hr, Kind.closesBracket] at hc, ?_⟩
      rw [Bool.eq_false_iff]
      intro hstop
      simp [(hs hd _ hstop).1] at hk
    rw [List.cons_append, seek_cons he hstep, depthAfter_plain ho hc, ih depth hs,
      ← State.lastCounted_append]
    rfl
  | @brackets outside opening inner closings tokens ho hc _ _ ihInner ih =>
    have he : opening.kind ≠ .endOfFile := fun he => by simp [he, Kind.opensBracket] at ho
    have hstep : depth = 0 → opening.kind ≠ .rightCurly ∧ stops opening.kind = false := by
      refine fun hd => ⟨fun hr => by simp [hr, Kind.opensBracket] at ho, ?_⟩
      rw [Bool.eq_false_iff]
      intro hstop
      simp [(hs hd _ hstop).2] at ho
    have hlength : closings.length = opening.kind.closings.length := by
      rw [← hc, List.length_map]
    have hpos : 0 < closings.length := by
      rw [hlength]
      generalize opening.kind = kind at ho
      cases kind <;> first | exact Nat.succ_pos _ | cases ho
    have hclosings : ∀ token ∈ closings, token.kind.closesBracket = true := fun token hm =>
      closesBracket_of_mem_closings (hc ▸ List.mem_map_of_mem hm)
    rw [List.cons_append, seek_cons he hstep, depthAfter_opening ho, ← hlength]
    rw [List.append_assoc, List.append_assoc, ihInner _ (fun hd => by omega), seek_closings hclosings,
      ih depth hs]
    simp only [← State.lastCounted_append, List.append_assoc, List.cons_append, List.nil_append]

theorem State.recover_nested {s : State} {left rest : List Token} {next : Token}
    (hr : s.rest = left ++ next :: rest) (hn : Nested outside left)
    (hs : ∀ kind, stops kind = true → outside kind = true ∧ kind.opensBracket = false)
    (hnext : stops next.kind = true) (hl : next.kind ≠ .endOfLine) :
    s.recover stops =
      { s with previous := lastCounted s.previous left, rest := next :: rest, recovering := false } := by
  have hseek : seek stops 0 s.previous s.rest = (lastCounted s.previous left, next :: rest) := by
    rw [hr, seek_nested hn 0 fun _ => hs, seek, if_pos (.inr ⟨rfl, .inr hnext⟩)]
  simp only [recover, hseek]
  exact settle_of_settled fun _ => hl

-- ---------------------------------------------------------------------------
-- Items
-- ---------------------------------------------------------------------------

def stopsItem (terminator kind : Kind) : Bool := kind = .comma || kind = terminator

/-- An item is given up in front of a comma or the end of the list, and nothing but the item: reading
goes on from there as after any other one. -/
def GivenUp (s : State) (next : Token) (rest : List Token) (found : Item × State) : Prop :=
  ∃ t : State, t.rest = next :: rest ∧ t.recovering = false ∧ t.completed = s.completed ∧
    t.skipsNewlines = s.skipsNewlines ∧ t.blockDepth = s.blockDepth ∧
      found =
        if next.kind = .comma then (.unreadable (tokensBetween s.rest t.rest) (some next), t.advance)
        else (.unreadable (tokensBetween s.rest t.rest) none, t)

variable {readExpr : ExprReader} {role : ListRole} {terminator : Kind} {s : State}
  {left rest : List Token} {next : Token}

/-- An item that fails with no bracket open is given up up to the first comma outside of brackets. -/
theorem givenUp_readItem (ht : ClosesList terminator)
    (hread : ((readBareItem readExpr terminator role).run s).2.rest = left ++ next :: rest)
    (hfail : ((readBareItem readExpr terminator role).run s).2.recovering = true ∨
      endsItem terminator ((readBareItem readExpr terminator role).run s).2.kind = false)
    (hn : Nested (stopsItem terminator) left) (hnext : stopsItem terminator next.kind = true) :
    GivenUp s next rest ((readItem readExpr role terminator).run s) := by
  let read := (readBareItem readExpr terminator role).run s
  let checked := ((unexpectedUnless (endsItem terminator)).run read.2).2
  have hchecked : checked.recovering = true ∧ checked.rest = read.2.rest := by
    refine ⟨?_, (unexpectedUnless_run _ _).1⟩
    rcases hfail with h | h
    · exact (unexpectedUnless_run _ _).2 h
    · by_cases hr : read.2.recovering = true
      · exact (unexpectedUnless_run _ _).2 hr
      · simp only [checked, unexpectedUnless, update]
        rw [if_neg (by rw [h]; simpa using hr)]
        rfl
  have hstops (kind : Kind) : stopsItem terminator kind = true →
      stopsItem terminator kind = true ∧ kind.opensBracket = false := by
    refine fun h => ⟨h, ?_⟩
    simp only [stopsItem, Bool.or_eq_true, decide_eq_true_eq] at h
    rcases h with rfl | rfl
    · rfl
    · rcases ht with rfl | rfl <;> rfl
  have hl : next.kind ≠ .endOfLine := by
    intro h
    rcases ht with rfl | rfl <;> simp [stopsItem, h] at hnext
  have hrecover := State.recover_nested (hchecked.2.trans hread) hn hstops hnext hl
  let t : State := { checked.recover (stopsItem terminator) with completed := s.completed }
  have honward : s.Onward checked := ((readBareItem readExpr terminator role).onward s).trans
    ((unexpectedUnless (endsItem terminator)).onward read.2)
  have hsalvage : (salvage s.rest s.completed terminator read.1).run checked =
      (.unreadable (tokensBetween s.rest t.rest) none, t) := if_pos hchecked.1
  have hrest : t.rest = next :: rest := congrArg State.rest hrecover
  have hrun : (readItem readExpr role terminator).run s =
      (let salvaged := (salvage s.rest s.completed terminator read.1).run checked
       let comma := (accept .comma).run salvaged.2
       (attachComma salvaged.1 comma.1, comma.2)) := rfl
  rw [hsalvage] at hrun
  dsimp only at hrun
  refine ⟨t, hrest, congrArg State.recovering hrecover, rfl,
    (congrArg State.skipsNewlines hrecover).trans honward.skipsNewlines,
    (congrArg State.blockDepth hrecover).trans honward.blockDepth, ?_⟩
  have hcurrent : t.current = next := by simp [State.current, hrest]
  have hkind : t.kind = next.kind := State.kind_cons hrest
  rw [hrun]
  by_cases hk : next.kind = .comma
  · rw [if_pos hk, show (accept .comma).run t = (some t.current, t.advance) from
      if_pos (hkind.trans hk), hcurrent]
    rfl
  · rw [if_neg hk, show (accept .comma).run t = (none, t) from if_neg (hkind ▸ hk)]
    rfl

/-- What cannot be a parameter is given up as a whole, if its brackets are nested. -/
theorem givenUp_parameter (ht : ClosesList terminator)
    (hk : s.kind ≠ .ellipsis ∧ s.kind ≠ .comma ∧ s.kind ≠ .identifier)
    (hrest : s.rest = left ++ next :: rest) (hn : Nested (stopsItem terminator) left)
    (hnext : stopsItem terminator next.kind = true) :
    GivenUp s next rest ((readItem readExpr .parameters terminator).run s) := by
  have hrun : (readBareItem readExpr terminator .parameters).run s =
      (.stub, s.fail (.expectedIdentifier s.current)) := by
    simp only [readBareItem, readParameter, run_look_bind]
    rw [if_neg hk.1, if_neg hk.2.1, if_neg hk.2.2]
    rfl
  have hread := congrArg (fun found : Item × State => found.2.rest) hrun
  exact givenUp_readItem ht (hread.trans hrest) (.inl (hrun ▸ rfl)) hn hnext

/-- The comma in the square brackets does not end the parameter. -/
theorem givenUp_parameter_brackets :
    GivenUp (State.start (tokenise "[a, b], y)")) ⟨.comma, 6, [',']⟩
      [⟨.identifier, 8, ['y']⟩, ⟨.rightParen, 9, [')']⟩, ⟨.endOfFile, 10, []⟩]
      ((readItem (readExprWithin 1) .parameters .rightParen).run
        (State.start (tokenise "[a, b], y)"))) := by
  have hinner : Nested (fun _ => false)
      [⟨.identifier, 1, ['a']⟩, ⟨.comma, 2, [',']⟩, ⟨.identifier, 4, ['b']⟩] :=
    .plain nofun rfl rfl rfl (.plain nofun rfl rfl rfl (.plain nofun rfl rfl rfl .nil))
  have hn := @Nested.brackets (stopsItem .rightParen) ⟨.leftSquare, 0, ['[']⟩ _
    [⟨.rightSquare, 5, [']']⟩] [] rfl rfl hinner .nil
  exact givenUp_parameter (.inl rfl) (by decide +kernel) (by decide +kernel) hn rfl

/-- An argument whose first token starts no expression fails right after it, and is given up up to the
first comma outside of the brackets that follow. If the token itself is a square bracket, this comma
may be in it. -/
theorem givenUp_argument (ht : ClosesList terminator) (bound : Nat) {problem : Token → Problem}
    (hk : s.kind.endsExpression = false) (hp : startProblem? s.kind = some problem)
    (hrest : s.advance.rest = left ++ next :: rest) (hn : Nested (stopsItem terminator) left)
    (hnext : stopsItem terminator next.kind = true) :
    GivenUp s next rest
      ((readItem (readExprWithin (bound + 1)) .arguments terminator).run s) := by
  have hexpr : (readExprWithin (bound + 1) .help).run s =
      (failAt problem s.current).run s.advance := by
    rw [readExprWithin, run_look_bind, if_neg (by simp [hk]), run_bind, readFrom,
      show (advance.run s).1.kind = s.kind from rfl, hp]
    rfl
  have hrun : (readBareItem (readExprWithin (bound + 1)) terminator .arguments).run s =
      (.positional (.invalid s.current) none, { s.advance.fail (problem s.current) with
        completed := .invalid s.current :: s.advance.completed }) := by
    have hitem : s.kind ≠ .ellipsis ∧ s.kind ≠ .comma ∧
        ¬((s.kind = .identifier ∨ s.kind = .string) ∧ s.nextKind = .equal) := by
      refine ⟨fun h => ?_, fun h => ?_, fun h => ?_⟩
      · simp [h, startProblem?] at hp
      · simp [h, Kind.endsExpression] at hk
      · rcases h.1 with h | h <;> simp [h, startProblem?] at hp
    simp only [readBareItem, readArgument, run_look_bind]
    rw [if_neg hitem.1, if_neg hitem.2.1, if_neg hitem.2.2, run_bind, hexpr]
    rfl
  have hread := congrArg (fun found : Item × State => found.2.rest) hrun
  exact givenUp_readItem ht (hread.trans hrest) (.inl (hrun ▸ rfl)) hn hnext

/-- The same brackets end the argument at the comma in them. -/
theorem givenUp_argument_brackets :
    GivenUp (State.start (tokenise "[a, b], y)")) ⟨.comma, 2, [',']⟩
      [⟨.identifier, 4, ['b']⟩, ⟨.rightSquare, 5, [']']⟩, ⟨.comma, 6, [',']⟩,
        ⟨.identifier, 8, ['y']⟩, ⟨.rightParen, 9, [')']⟩, ⟨.endOfFile, 10, []⟩]
      ((readItem (readExprWithin 1) .arguments .rightParen).run
        (State.start (tokenise "[a, b], y)"))) := by
  have hn : Nested (stopsItem .rightParen) [⟨.identifier, 1, ['a']⟩] :=
    .plain nofun rfl rfl rfl .nil
  have hk : (State.start (tokenise "[a, b], y)")).kind = .leftSquare := by decide +kernel
  exact givenUp_argument (.inl rfl) 0 (hk ▸ rfl) (congrArg startProblem? hk) (by decide +kernel) hn
    rfl

-- The comma in the square brackets cuts the argument in two, but not the parameter.
example : ["f([a, b], y)", "function([a, b], y) y"].map (fun source =>
    (Document.parse source).roots.filterMap fun e => e.list?.map fun list => list.2.1.length) =
    [[3], [2]] := by
  decide +kernel

end Reading

end LenientR
