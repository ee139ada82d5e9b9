import LenientR.Expr.Basic
import LenientR.Problem

/-!
# The state of a reading

Reading goes over the tokens once, from left to right, and keeps what it has found: the problems
and the expressions completed so far. `Action` is a step of it. The only way back is to keep an
earlier `rest` and `previous`, which `elseFollows` does to look ahead.

An `Action` carries the proof that it is `Onward`: whatever is read, no token is skipped unseen, the
end of the file is never gone over, no problem is forgotten, nothing fails in silence, and both
modes are as before.
-/

namespace LenientR.Reading

structure State where
  /-- The tokens from the current one on. The last one is the end of the file. -/
  rest : List Token
  /-- The last token gone over, newlines aside. -/
  previous : Option Token
  /-- Newlines are skipped, as they are within round and square brackets. -/
  skipsNewlines : Bool
  /-- How many blocks are open. -/
  blockDepth : Nat
  /-- What is being read has failed, and tokens are to be skipped at the next chance. -/
  recovering : Bool
  /-- The latest first. -/
  problems : List Problem
  /-- The expressions completed and not discarded, the latest first. -/
  completed : List Expr

namespace State

def start (tokens : List Token) : State := ⟨tokens, none, false, 0, false, [], []⟩

/-- Past the last token there is nothing but the end. -/
def current (s : State) : Token := s.rest.headD ⟨.endOfFile, 0, []⟩

def kind (s : State) : Kind := s.current.kind

/-- The last token gone over, or the current one at the start. -/
def lastToken (s : State) : Token := s.previous.getD s.current

def nextKind (s : State) : Kind :=
  ((s.rest.drop 1).find? fun token => !s.skipsNewlines || token.kind ≠ .endOfLine).elim
    .endOfFile Token.kind

def dropNewlines (s : State) : State :=
  { s with rest := s.rest.dropWhile (·.kind = .endOfLine) }

def settle (s : State) : State := if s.skipsNewlines then s.dropNewlines else s

/-- Goes over the current token. The end of the file is never gone over. -/
def advance (s : State) : State :=
  match s.rest with
  | [] => s
  | token :: rest =>
    if token.kind = .endOfFile then s
    else
      let previous := if token.kind = .endOfLine then s.previous else some token
      { s with rest := rest, previous := previous }.settle

def report (s : State) (problem : Problem) : State :=
  { s with problems := problem :: s.problems }

def fail (s : State) (problem : Problem) : State := { s.report problem with recovering := true }

def Settled (s : State) : Prop := s.skipsNewlines = true → s.kind ≠ .endOfLine

def lastCounted (previous : Option Token) (gone : List Token) : Option Token :=
  gone.foldl (fun last token => if token.kind = .endOfLine then last else some token) previous

/-- The second state is further on in the same tokens, and knows which one it went over last. -/
def Passes (s s' : State) : Prop :=
  ∃ gone, s.rest = gone ++ s'.rest ∧ (∀ token ∈ gone, token.kind ≠ .endOfFile) ∧
    s'.previous = lastCounted s.previous gone

/-- All that a step of reading may do to a state. -/
structure Onward (s s' : State) : Prop where
  passes : s.Passes s'
  skipsNewlines : s'.skipsNewlines = s.skipsNewlines
  blockDepth : s'.blockDepth = s.blockDepth
  settled : s.Settled → s'.Settled
  problems : s.problems <:+ s'.problems
  /-- Nothing fails without a problem. -/
  recovering : s'.problems = s.problems → s'.recovering = true → s.recovering = true

theorem kind_nil {s : State} (h : s.rest = []) : s.kind = .endOfFile := by
  simp [kind, current, h]

theorem kind_cons {s : State} {token : Token} {rest : List Token} (h : s.rest = token :: rest) :
    s.kind = token.kind := by
  simp [kind, current, h]

theorem kind_dropNewlines (s : State) : s.dropNewlines.kind ≠ .endOfLine := by
  intro h
  cases hr : s.dropNewlines.rest with
  | nil =>
    rw [kind_nil hr] at h
    cases h
  | cons token rest =>
    have hd := List.head?_dropWhile_not (fun token : Token => decide (token.kind = .endOfLine))
      s.rest
    rw [show s.rest.dropWhile _ = token :: rest from hr] at hd
    rw [kind_cons hr] at h
    simp [h] at hd

theorem settled_settle (s : State) : s.settle.Settled := by
  intro h
  unfold settle at h ⊢
  split
  · exact kind_dropNewlines s
  · simp_all

theorem settle_of_settled {s : State} (h : s.Settled) : s.settle = s := by
  unfold settle
  split
  · rename_i hs
    have hd : s.rest.dropWhile (·.kind = .endOfLine) = s.rest := by
      cases hr : s.rest with
      | nil => rfl
      | cons token rest =>
        have hk := h hs
        rw [kind_cons hr] at hk
        simp [hk]
    rw [dropNewlines, hd]
  · rfl

theorem lastCounted_append (previous : Option Token) (a b : List Token) :
    lastCounted previous (a ++ b) = lastCounted (lastCounted previous a) b := by
  simp [lastCounted]

theorem lastCounted_newlines {gone : List Token} (h : ∀ token ∈ gone, token.kind = .endOfLine)
    (previous : Option Token) : lastCounted previous gone = previous := by
  induction gone with
  | nil => rfl
  | cons token rest ih =>
    obtain ⟨ht, hr⟩ := List.forall_mem_cons.1 h
    simp only [lastCounted, List.foldl_cons, ht, if_true]
    exact ih hr

theorem Passes.of_eq {s s' : State} (hr : s'.rest = s.rest) (hp : s'.previous = s.previous) :
    s.Passes s' :=
  ⟨[], by simp [hr], by simp, by simp [hp, lastCounted]⟩

theorem Passes.trans {s t u : State} (h : s.Passes t) (k : t.Passes u) : s.Passes u := by
  obtain ⟨a, ha, hea, hpa⟩ := h
  obtain ⟨b, hb, heb, hpb⟩ := k
  refine ⟨a ++ b, by rw [ha, hb, List.append_assoc], fun token hm => ?_, ?_⟩
  · exact (List.mem_append.1 hm).elim (hea token) (heb token)
  · rw [hpb, hpa, lastCounted_append]

theorem passes_dropNewlines (s : State) : s.Passes s.dropNewlines := by
  have hn : ∀ token ∈ s.rest.takeWhile (·.kind = .endOfLine), token.kind = .endOfLine :=
    fun token hm => of_decide_eq_true (List.all_eq_true.1 List.all_takeWhile token hm)
  refine ⟨s.rest.takeWhile (·.kind = .endOfLine), List.takeWhile_append_dropWhile.symm,
    fun token hm => ?_, (lastCounted_newlines hn s.previous).symm⟩
  rw [hn token hm]
  decide

theorem passes_settle (s : State) : s.Passes s.settle := by
  unfold settle
  split
  · exact passes_dropNewlines s
  · exact .of_eq rfl rfl

theorem Onward.refl (s : State) : s.Onward s :=
  ⟨.of_eq rfl rfl, rfl, rfl, id, List.suffix_refl _, fun _ h => h⟩

theorem Onward.trans {s t u : State} (h : s.Onward t) (k : t.Onward u) : s.Onward u where
  passes := h.passes.trans k.passes
  skipsNewlines := k.skipsNewlines.trans h.skipsNewlines
  blockDepth := k.blockDepth.trans h.blockDepth
  settled hs := k.settled (h.settled hs)
  problems := h.problems.trans k.problems
  recovering hp hr := by
    have ht : t.problems = s.problems :=
      (List.IsSuffix.eq_of_length_le h.problems (hp ▸ k.problems.length_le)).symm
    exact h.recovering ht (k.recovering (hp.trans ht.symm) hr)

theorem settle_frame (s : State) :
    s.settle.skipsNewlines = s.skipsNewlines ∧ s.settle.blockDepth = s.blockDepth ∧
      s.settle.problems = s.problems ∧ s.settle.recovering = s.recovering := by
  unfold settle
  split <;> exact ⟨rfl, rfl, rfl, rfl⟩

/-- Settling at the end, a state need not have been settled before. -/
theorem onward_settle {s t : State} (h : s.Passes t) (hs : t.skipsNewlines = s.skipsNewlines)
    (hb : t.blockDepth = s.blockDepth) (hp : s.problems <:+ t.problems)
    (hr : t.problems = s.problems → t.recovering = true → s.recovering = true) :
    s.Onward t.settle := by
  obtain ⟨hfs, hfb, hfp, hfr⟩ := settle_frame t
  exact ⟨h.trans (passes_settle t), hfs.trans hs, hfb.trans hb, fun _ => settled_settle t,
    hfp ▸ hp, fun he hf => hr (hfp ▸ he) (hfr ▸ hf)⟩

theorem onward_dropNewlines (s : State) : s.Onward s.dropNewlines where
  passes := passes_dropNewlines s
  skipsNewlines := rfl
  blockDepth := rfl
  settled _ _ := kind_dropNewlines s
  problems := List.suffix_refl _
  recovering _ := id

theorem onward_advance (s : State) : s.Onward s.advance := by
  unfold advance
  split
  · exact .refl s
  · rename_i token rest hr
    dsimp only
    split
    · exact .refl s
    · rename_i he
      exact onward_settle ⟨[token], hr, by simpa using he, rfl⟩ rfl rfl (List.suffix_refl _)
        fun _ => id

theorem onward_report (s : State) (problem : Problem) : s.Onward (s.report problem) where
  passes := .of_eq rfl rfl
  skipsNewlines := rfl
  blockDepth := rfl
  settled := id
  problems := List.suffix_cons _ _
  recovering h := absurd h (List.cons_ne_self _ _)

theorem onward_fail (s : State) (problem : Problem) : s.Onward (s.fail problem) :=
  { onward_report s problem with recovering := fun h => absurd h (List.cons_ne_self _ _) }

theorem onward_completed (s : State) (completed : List Expr) :
    s.Onward { s with completed := completed } :=
  ⟨.of_eq rfl rfl, rfl, rfl, id, List.suffix_refl _, fun _ => id⟩

end State

/-- A step of reading: an answer, and the state after it. -/
structure Action (α : Type) where
  run : State → α × State
  onward : ∀ s : State, s.Onward (run s).2

instance : Monad Action where
  pure a := ⟨fun s => (a, s), .refl⟩
  bind action next :=
    ⟨fun s => (next (action.run s).1).run (action.run s).2,
      fun s => (action.onward s).trans ((next (action.run s).1).onward _)⟩

@[simp] theorem run_pure (a : α) (s : State) : (pure a : Action α).run s = (a, s) := rfl

@[simp] theorem run_bind (action : Action α) (next : α → Action β) (s : State) :
    (action >>= next).run s = (next (action.run s).1).run (action.run s).2 := rfl

instance : LawfulMonad Action := LawfulMonad.mk' Action
  (fun _ => rfl) (fun _ _ => rfl) (fun _ _ _ => rfl)

@[simp] theorem run_map (f : α → β) (action : Action α) (s : State) :
    (f <$> action).run s = (f (action.run s).1, (action.run s).2) := rfl

def look (view : State → α) : Action α := ⟨fun s => (view s, s), .refl⟩

theorem run_look_bind (view : State → α) (next : α → Action β) (s : State) :
    (look view >>= next).run s = (next (view s)).run s := rfl

def update (change : State → State) (onward : ∀ s : State, s.Onward (change s)) : Action Unit :=
  ⟨fun s => ((), change s), onward⟩

def advance : Action Token := ⟨fun s => (s.current, s.advance), State.onward_advance⟩

def accept (kind : Kind) : Action (Option Token) where
  run s := if s.kind = kind then (some s.current, s.advance) else (none, s)
  onward s := by
    split
    · exact s.onward_advance
    · exact .refl s

def acceptOr (kind : Kind) (problem : State → Problem) : Action (Option Token) where
  run s := if s.kind = kind then (some s.current, s.advance) else (none, s.report (problem s))
  onward s := by
    split
    · exact s.onward_advance
    · exact s.onward_report _

def report (problem : Problem) : Action Unit := update (·.report problem) (·.onward_report problem)

def reportCurrent (problem : Token → Problem) : Action Unit :=
  update (fun s => s.report (problem s.current)) fun s => s.onward_report _

def expect (kind : Kind) : Action (Option Token) :=
  acceptOr kind fun s => .expected kind s.lastToken s.current

def takeClosing (opening : Token) (closing : Kind) : Action (Option Token) :=
  acceptOr closing fun s => .missingClosing opening s.lastToken

def fail (problem : State → Problem) : Action Unit :=
  update (fun s => s.fail (problem s)) fun s => s.onward_fail _

def complete (e : Expr) : Action Expr where
  run s := (e, { s with completed := e :: s.completed })
  onward s := s.onward_completed _

/-- Forgets the expressions completed since `completed` was kept. -/
def discardTo (completed : List Expr) : Action Unit :=
  update (fun s => { s with completed := completed }) fun s => s.onward_completed _

def dropNewlines : Action Unit := update State.dropNewlines State.onward_dropNewlines

/-- Skips newlines or not during an action, and goes back to the setting before. -/
def withNewlines (skips : Bool) (inner : Action α) : Action α where
  run s :=
    let found := inner.run { s with skipsNewlines := skips }.settle
    (found.1, { found.2 with skipsNewlines := s.skipsNewlines }.settle)
  onward s := by
    obtain ⟨_, hb, hp, hr⟩ := State.settle_frame { s with skipsNewlines := skips }
    have hi := inner.onward { s with skipsNewlines := skips }.settle
    have hm : s.Passes { s with skipsNewlines := skips }.settle :=
      .trans (t := { s with skipsNewlines := skips }) (.of_eq rfl rfl) (State.passes_settle _)
    have hg := hi.problems
    rw [hp] at hg
    exact State.onward_settle (hm.trans hi.passes) rfl (hi.blockDepth.trans hb) hg
      fun h hf => hr ▸ hi.recovering (h.trans hp.symm) hf

/-- Counts one more open block during an action. -/
def inBlock (inner : Action α) : Action α where
  run s :=
    let found := inner.run { s with blockDepth := s.blockDepth + 1 }
    (found.1, { found.2 with blockDepth := found.2.blockDepth - 1 })
  onward s := by
    have h := inner.onward { s with blockDepth := s.blockDepth + 1 }
    exact ⟨h.passes, h.skipsNewlines, by simp [h.blockDepth], h.settled, h.problems, h.recovering⟩

end LenientR.Reading
