import LenientR.Proofs.Reading.Ending

/-!
# Reading goes back to its modes

Two modes say how tokens are read: whether newlines are skipped, as they are within round and
square brackets, and how many blocks are open. `withNewlines` and `inBlock` alone change them, and
an `Action` carries the proof that they are as before, on whichever way it ends: closed at once,
closed, never closed or cut off by a curly bracket. So whatever is read in a state in order
(`InOrder`) leaves the modes restored and the state in order (`restored_run`).

A failure outlives the construct it happens in, but not the statement (`recovering_readStatement`):
after the statements of a file nothing is left to recover from.
-/

namespace LenientR

theorem EndsOnce.of_append {gone rest : List Token} (h : EndsOnce (gone ++ rest))
    (hn : ∀ token ∈ gone, token.kind ≠ .endOfFile) : EndsOnce rest := by
  obtain ⟨body, last, he, hk, hbody⟩ := h
  rcases List.eq_nil_or_concat rest with rfl | ⟨front, final, rfl⟩
  · have hm : last ∈ gone := by
      rw [List.append_nil] at he
      simp [he]
    exact absurd hk (hn last hm)
  · rw [List.concat_eq_append, ← List.append_assoc] at he
    obtain ⟨rfl, hlast⟩ := List.append_inj' he rfl
    obtain rfl : final = last := List.singleton_inj.1 hlast
    exact ⟨front, final, List.concat_eq_append, hk,
      fun token hm => hbody token (List.mem_append_right _ hm)⟩

namespace Reading

namespace State

/-- A state that a construct may start in: the end of the file is ahead and the last token, and no
newline is current while newlines are skipped. -/
structure InOrder (s : State) : Prop where
  endsOnce : EndsOnce s.rest
  settled : s.Settled

/-- The second state is in the modes of the first one, at the same token or a later one, and in
order. -/
structure Restored (s s' : State) : Prop extends s'.InOrder where
  skipsNewlines : s'.skipsNewlines = s.skipsNewlines
  blockDepth : s'.blockDepth = s.blockDepth
  suffix : s'.rest <:+ s.rest

variable {s s' : State}

theorem Onward.restored (h : s.Onward s') (hs : s.InOrder) : s.Restored s' := by
  obtain ⟨gone, hgone, hn, _⟩ := h.passes
  exact {
    endsOnce := (hgone ▸ hs.endsOnce).of_append hn
    settled := h.settled hs.settled
    skipsNewlines := h.skipsNewlines
    blockDepth := h.blockDepth
    suffix := ⟨gone, hgone.symm⟩ }

theorem InOrder.restored_run (hs : s.InOrder) (action : Action α) : s.Restored (action.run s).2 :=
  (action.onward s).restored hs

end State

-- ---------------------------------------------------------------------------
-- Failures
-- ---------------------------------------------------------------------------

theorem recovering_recoverIfNeeded (stops : Kind → Bool) (s : State) :
    ((recoverIfNeeded stops).run s).2.recovering = false := by
  simp only [recoverIfNeeded, update]
  split
  · exact s.recovering_recover stops
  · rename_i h
    exact Bool.eq_false_iff.2 h

theorem recovering_endStatement (s : State) :
    (endStatement.run s).2.recovering = s.recovering := by
  simp only [endStatement, update]
  split <;> rfl

theorem recovering_readStatement (readExpr : ExprReader) (s : State) :
    ((readStatement readExpr).run s).2.recovering = false := by
  simp only [readStatement, run_bind, run_pure]
  rw [recovering_endStatement]
  exact recovering_recoverIfNeeded _ _

/-- Where nothing has failed in front of statements, nothing is left to recover from after them. -/
theorem recovering_readStatements (readExpr : ExprReader) (bound : Nat) {s : State}
    (h : s.recovering = false) : ((readStatements readExpr bound).run s).2.recovering = false := by
  induction bound generalizing s with
  | zero => exact h
  | succ bound ih =>
    have hskipped : s.skipSeparators.recovering = false := h
    rw [run_readStatements_succ]
    split
    · exact hskipped
    split
    · -- a closing bracket that matches nothing
      refine ih ?_
      exact (State.recovering_advance _).trans hskipped
    · exact ih (recovering_readStatement readExpr _)

end Reading

end LenientR
