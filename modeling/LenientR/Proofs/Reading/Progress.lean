import LenientR.Reading.Statement

/-!
# Every loop of reading goes on

A reader of expressions either goes over a token or fails where it is (`Engages`). With such a
reader each round of a loop goes over at least one token: a statement with the recovery after it,
an item of a list with its comma, an operator with what it takes.
-/

namespace LenientR.Reading

namespace State

theorem kind_congr {s s' : State} (h : s'.rest = s.rest) : s'.kind = s.kind := by
  simp [kind, current, h]

def Ended (s : State) : Prop := ∃ token ∈ s.rest, token.kind = .endOfFile

theorem Passes.length_le {s s' : State} (h : s.Passes s') : s'.rest.length ≤ s.rest.length := by
  obtain ⟨gone, hg, _⟩ := h
  simp [hg]

theorem Passes.lt_or_eq {s s' : State} (h : s.Passes s') :
    s'.rest.length < s.rest.length ∨ s'.rest = s.rest := by
  obtain ⟨gone, hg, _⟩ := h
  cases gone with
  | nil => exact .inr hg.symm
  | cons token gone =>
    refine .inl ?_
    rw [hg, List.length_append, List.length_cons]
    omega

theorem Passes.ended {s s' : State} (h : s.Passes s') (he : s.Ended) : s'.Ended := by
  obtain ⟨gone, hg, hn, _⟩ := h
  obtain ⟨token, hm, hk⟩ := he
  rw [hg] at hm
  rcases List.mem_append.1 hm with hm | hm
  · exact absurd hk (hn token hm)
  · exact ⟨token, hm, hk⟩

theorem Ended.length_pos {s : State} (h : s.Ended) : 0 < s.rest.length := by
  obtain ⟨token, hm, _⟩ := h
  exact List.length_pos_of_mem hm

theorem length_advance_lt {s : State} (h : s.kind ≠ .endOfFile) :
    s.advance.rest.length < s.rest.length := by
  unfold advance
  split
  · rename_i hr
    exact absurd (kind_nil hr) h
  · rename_i token rest hr
    rw [kind_cons hr] at h
    simp only [h, if_false]
    exact Nat.lt_of_le_of_lt (passes_settle _).length_le (by simp [hr])

theorem length_recover_lt {stops : Kind → Bool} {s : State} (he : s.kind ≠ .endOfFile)
    (hc : s.kind ≠ .rightCurly) (hs : stops s.kind = false) :
    (s.recover stops).rest.length < s.rest.length := by
  cases hr : s.rest with
  | nil => exact absurd (kind_nil hr) he
  | cons token rest =>
    rw [kind_cons hr] at he hc hs
    have hl : (s.recover stops).rest.length ≤ (seek stops 0 s.previous s.rest).2.length :=
      (passes_settle _).length_le
    rw [hr, seek, if_neg (by simp [he, hc, hs])] at hl
    obtain ⟨gone, hg, _⟩ := seek_passes stops (depthAfter 0 token.kind)
      (if token.kind = .endOfLine then s.previous else some token) rest
    have := congrArg List.length hg
    simp only [List.length_append, List.length_cons] at this ⊢
    omega

theorem recovering_advance (s : State) : s.advance.recovering = s.recovering := by
  unfold advance
  split
  · rfl
  split
  · rfl
  · exact (settle_frame _).2.2.2

theorem recovering_accept (kind : Kind) (s : State) :
    ((accept kind).run s).2.recovering = s.recovering := by
  simp only [accept]
  split
  · exact s.recovering_advance
  · rfl

theorem recovering_recover (stops : Kind → Bool) (s : State) :
    (s.recover stops).recovering = false :=
  (settle_frame _).2.2.2

end State

theorem length_run_le (action : Action α) (s : State) :
    (action.run s).2.rest.length ≤ s.rest.length :=
  (action.onward s).passes.length_le

/-- An expression that fails without going over a token says so. -/
def Engages (readExpr : ExprReader) : Prop :=
  ∀ level s, ((readExpr level).run s).2.rest.length < s.rest.length ∨
    ((readExpr level).run s).2.rest = s.rest ∧ ((readExpr level).run s).2.recovering = true

theorem readAbsent_run (s : State) :
    (readAbsent.run s).2.rest = s.rest ∧ (readAbsent.run s).2.recovering = true :=
  ⟨rfl, rfl⟩

theorem engages_readExprWithin (bound : Nat) : Engages (readExprWithin bound) := by
  intro level s
  cases bound with
  | zero => exact .inr (readAbsent_run s)
  | succ bound =>
    simp only [readExprWithin, run_bind]
    by_cases h : s.kind.endsExpression = true
    · exact .inr (by simpa [look, h] using readAbsent_run s)
    · have hk : s.kind ≠ .endOfFile := fun he => h (by simp [he, Kind.endsExpression])
      refine .inl ?_
      simp only [look, h, if_false, run_bind, Bool.false_eq_true]
      exact Nat.lt_of_le_of_lt (length_run_le _ _) (State.length_advance_lt hk)

theorem length_run_bind_lt {action : Action α} {next : α → Action β} {s : State}
    (h : (action.run s).2.rest.length < s.rest.length) :
    ((action >>= next).run s).2.rest.length < s.rest.length :=
  Nat.lt_of_le_of_lt (length_run_le (next (action.run s).1) _) h

theorem length_advance_bind_lt {next : Token → Action β} {s : State} (h : s.kind ≠ .endOfFile) :
    ((advance >>= next).run s).2.rest.length < s.rest.length :=
  length_run_bind_lt (State.length_advance_lt h)

-- ---------------------------------------------------------------------------
-- Items
-- ---------------------------------------------------------------------------

/-- An item goes over a token, is an empty slot before a comma, or fails. -/
theorem readBareItem_run {readExpr : ExprReader} (hr : Engages readExpr) (terminator : Kind)
    (role : ListRole) (s : State) :
    let after := ((readBareItem readExpr terminator role).run s).2
    after.rest.length < s.rest.length ∨
      after.rest = s.rest ∧ (s.kind = .comma ∨ after.recovering = true) := by
  cases role with
  | arguments =>
    simp only [readBareItem, readArgument, look, run_bind]
    split
    · rename_i h
      exact .inl (length_advance_bind_lt (by simp [h]))
    split
    · rename_i h
      exact .inr ⟨rfl, .inl h⟩
    split
    · rename_i h
      refine .inl (length_advance_bind_lt ?_)
      rcases h.1 with hk | hk <;> simp [hk]
    · rcases hr .help s with h | ⟨h, hf⟩
      · exact .inl (length_run_bind_lt h)
      · exact .inr ⟨h, .inr hf⟩
  | parameters =>
    simp only [readBareItem, readParameter, look, run_bind]
    split
    · rename_i h
      exact .inl (length_advance_bind_lt (by simp [h]))
    split
    · rename_i h
      exact .inr ⟨rfl, .inl h⟩
    split
    · rename_i h
      exact .inl (length_advance_bind_lt (by simp [h]))
    · exact .inr ⟨rfl, .inr rfl⟩

theorem unexpectedUnless_run (fits : Kind → Bool) (s : State) :
    ((unexpectedUnless fits).run s).2.rest = s.rest ∧
      (s.recovering = true → ((unexpectedUnless fits).run s).2.recovering = true) := by
  simp only [unexpectedUnless, update]
  split
  · exact ⟨rfl, id⟩
  · exact ⟨rfl, fun _ => rfl⟩

theorem length_salvage_lt {start : List Token} {completed : List Expr} {terminator : Kind}
    {item : Item} {s : State} (hf : s.recovering = true) (he : s.kind ≠ .endOfFile)
    (hc : s.kind ≠ .rightCurly) (hm : s.kind ≠ .comma) (ht : s.kind ≠ terminator) :
    ((salvage start completed terminator item).run s).2.rest.length < s.rest.length := by
  simp only [salvage, hf, if_true]
  exact State.length_recover_lt he hc (by simp [hm, ht])

theorem length_readItem_lt {readExpr : ExprReader} (hr : Engages readExpr) {role : ListRole}
    {terminator : Kind} {s : State} (ht : s.kind ≠ terminator) (he : s.kind ≠ .endOfFile)
    (hc : s.kind ≠ .rightCurly) :
    ((readItem readExpr role terminator).run s).2.rest.length < s.rest.length := by
  simp only [readItem, look, run_bind]
  have hb := readBareItem_run hr terminator role s
  generalize (readBareItem readExpr terminator role).run s = bare at hb ⊢
  obtain ⟨hu, hf⟩ := unexpectedUnless_run (endsItem terminator) bare.2
  generalize ((unexpectedUnless (endsItem terminator)).run bare.2).2 = checked at hu hf ⊢
  have hks : checked.rest = s.rest → checked.kind = s.kind := State.kind_congr
  have hp := ((salvage s.rest s.completed terminator bare.1).onward checked).passes
  have hlt (h : checked.rest = s.rest) (hf : checked.recovering = true) (hm : s.kind ≠ .comma) :
      ((salvage s.rest s.completed terminator bare.1).run checked).2.rest.length <
        checked.rest.length :=
    length_salvage_lt hf (hks h ▸ he) (hks h ▸ hc) (hks h ▸ hm) (hks h ▸ ht)
  generalize (salvage s.rest s.completed terminator bare.1).run checked = salvaged at hp hlt ⊢
  have hl : ((accept .comma).run salvaged.2).2.rest.length ≤ salvaged.2.rest.length :=
    length_run_le _ _
  refine show ((accept .comma).run salvaged.2).2.rest.length < s.rest.length from ?_
  rcases hb with hb | ⟨hb, hk⟩
  · exact Nat.lt_of_le_of_lt hl (Nat.lt_of_le_of_lt hp.length_le (hu ▸ hb))
  -- no token so far: either the salvage goes over one, or the comma is there to be taken
  have hr := hu.trans hb
  rcases hp.lt_or_eq with hs | hs
  · exact Nat.lt_of_le_of_lt hl (hr ▸ hs)
  by_cases hm : s.kind = .comma
  · have hk' : salvaged.2.kind = .comma := (State.kind_congr (hs.trans hr)).trans hm
    simp only [accept, hk', if_true]
    rw [← hr, ← hs]
    exact State.length_advance_lt (by simp [hk'])
  · exact Nat.lt_of_le_of_lt hl (hr ▸ hlt hr (hf (hk.resolve_left hm)) hm)

-- ---------------------------------------------------------------------------
-- Operators and statements
-- ---------------------------------------------------------------------------

theorem length_readOperator_lt {s : State} {found : Level}
    (h : Level.ofOperator? s.kind = some found) (next : Token → Action α) :
    ((advance >>= next).run s).2.rest.length < s.rest.length :=
  length_advance_bind_lt fun he => by simp [he, Level.ofOperator?] at h

theorem run_readStatements_succ (readExpr : ExprReader) (count : Nat) (s : State) :
    (readStatements readExpr (count + 1)).run s =
      (if s.skipSeparators.atLastStatement then pure []
      else if s.skipSeparators.kind.closesBracket then do
        reportCurrent .unmatchedClosing
        let _ ← advance
        readStatements readExpr count
      else do
        let e ← readStatement readExpr
        let others ← readStatements readExpr count
        pure (e :: others) : Action (List Expr)).run s.skipSeparators := rfl

theorem length_recoverIfNeeded_lt {stops : Kind → Bool} {s : State} (hf : s.recovering = true)
    (he : s.kind ≠ .endOfFile) (hc : s.kind ≠ .rightCurly) (hs : stops s.kind = false) :
    ((recoverIfNeeded stops).run s).2.rest.length < s.rest.length := by
  simp only [recoverIfNeeded, update, hf, if_true]
  exact State.length_recover_lt he hc hs

theorem length_readStatement_lt {readExpr : ExprReader} (hr : Engages readExpr) {s : State}
    (he : s.kind ≠ .endOfFile) (hc : s.kind ≠ .rightCurly) (hl : s.kind ≠ .endOfLine)
    (hs : s.kind ≠ .semicolon) :
    ((readStatement readExpr).run s).2.rest.length < s.rest.length := by
  let stops : Kind → Bool := fun kind => kind = .endOfLine || kind = .semicolon
  let read := ((readExpr .help).run s).2
  refine Nat.lt_of_le_of_lt (m := ((recoverIfNeeded stops).run read).2.rest.length)
    (length_run_le endStatement _) ?_
  rcases hr .help s with h | ⟨h, hf⟩
  · exact Nat.lt_of_le_of_lt (length_run_le _ read) h
  · have hk : read.kind = s.kind := State.kind_congr h
    rw [← h]
    exact length_recoverIfNeeded_lt hf (hk ▸ he) (hk ▸ hc) (by simp [stops, hk, hl, hs])

end LenientR.Reading
