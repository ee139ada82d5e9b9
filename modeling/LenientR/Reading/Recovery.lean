import LenientR.Reading.State

/-!
# Recovery

After a failure tokens are skipped up to one that reading can go on from. Brackets opened on the way
are skipped with what they hold; a closing curly bracket outside of them always ends the skipping,
as it belongs to an enclosing block.
-/

namespace LenientR.Reading

/-- How many closing brackets are due after a token. A double square bracket takes two. -/
def depthAfter (depth : Nat) (kind : Kind) : Nat :=
  if kind = .leftDoubleSquare then depth + 2
  else if kind.opensBracket then depth + 1
  else if kind.closesBracket then depth - 1
  else depth

/-- The last token skipped, newlines aside, and the tokens from the first one that stops. -/
def seek (stops : Kind → Bool) (depth : Nat) (previous : Option Token) :
    List Token → Option Token × List Token
  | [] => (previous, [])
  | token :: rest =>
    if token.kind = .endOfFile ∨ depth = 0 ∧ (token.kind = .rightCurly ∨ stops token.kind) then
      (previous, token :: rest)
    else
      seek stops (depthAfter depth token.kind)
        (if token.kind = .endOfLine then previous else some token) rest

theorem seek_passes (stops : Kind → Bool) (depth : Nat) (previous : Option Token)
    (tokens : List Token) :
    ∃ gone, tokens = gone ++ (seek stops depth previous tokens).2 ∧
      (∀ token ∈ gone, token.kind ≠ .endOfFile) ∧
      (seek stops depth previous tokens).1 = State.lastCounted previous gone := by
  induction tokens generalizing depth previous with
  | nil => exact ⟨[], rfl, by simp, rfl⟩
  | cons token rest ih =>
    unfold seek
    split
    · exact ⟨[], rfl, by simp, rfl⟩
    · rename_i hs
      obtain ⟨gone, hg, he, hp⟩ := ih (depthAfter depth token.kind)
        (if token.kind = .endOfLine then previous else some token)
      exact ⟨token :: gone, congrArg (token :: ·) hg,
        List.forall_mem_cons.2 ⟨fun h => hs (.inl h), he⟩, hp⟩

def State.recover (stops : Kind → Bool) (s : State) : State :=
  let found := seek stops 0 s.previous s.rest
  { s with previous := found.1, rest := found.2, recovering := false }.settle

theorem State.onward_recover (stops : Kind → Bool) (s : State) : s.Onward (s.recover stops) :=
  State.onward_settle (seek_passes stops 0 s.previous s.rest) rfl rfl (List.suffix_refl _)
    fun _ h => nomatch h

def recoverIfNeeded (stops : Kind → Bool) : Action Unit :=
  update (fun s => if s.recovering then s.recover stops else s) fun s => by
    split
    · exact s.onward_recover stops
    · exact .refl s

/-- Reports the current token as unexpected, unless reading has failed already or the token may
stand here, and fails. -/
def unexpectedUnless (fits : Kind → Bool) : Action Unit :=
  update (fun s => if s.recovering || fits s.kind then s else s.fail (.unexpectedToken s.current))
    fun s => by
      split
      · exact .refl s
      · exact s.onward_fail _

/-- The tokens from where an item starts up to where reading is now, without newlines at the end;
at least the first one. -/
def tokensBetween (start now : List Token) : List Token :=
  let gone := start.take (start.length - now.length)
  let tokens := (gone.reverse.dropWhile (·.kind = .endOfLine)).reverse
  if tokens.isEmpty then start.take 1 else tokens

end LenientR.Reading
