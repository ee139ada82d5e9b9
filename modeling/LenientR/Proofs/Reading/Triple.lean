import LenientR.Proofs.Reading.Progress

/-!
# Triples

`Triple tokens n P action Q`: started amid `tokens` in a state with `P`, the action ends in a state
with `Q` for its answer. That the end of the file is still ahead, how many tokens may be left and
which one was gone over last belongs to every triple (`State.Amid`), as no action gives it up.
-/

namespace LenientR.Reading

/-- The tokens are gone over up to this state; at most `n` are left, the end of the file among
them. -/
structure State.Amid (tokens : List Token) (n : Nat) (s : State) : Prop where
  passes : (State.start tokens).Passes s
  ended : s.Ended
  length_le : s.rest.length ≤ n

variable {tokens : List Token} {n : Nat}

namespace State.Amid

variable {s t : State}

theorem onward (h : s.Amid tokens n) (hp : s.Passes t) : t.Amid tokens n :=
  ⟨h.passes.trans hp, hp.ended h.ended, Nat.le_trans hp.length_le h.length_le⟩

theorem run (h : s.Amid tokens n) (action : Action α) : (action.run s).2.Amid tokens n :=
  h.onward (action.onward s).passes

theorem rest_eq_cons (h : s.Amid tokens n) : ∃ rest, s.rest = s.current :: rest := by
  cases hr : s.rest with
  | nil => exact absurd h.ended.length_pos (by simp [hr])
  | cons token rest => exact ⟨rest, by simp [current, hr]⟩

theorem run_lt {action : Action α} (h : s.Amid tokens (n + 1))
    (hl : (action.run s).2.rest.length < s.rest.length) : (action.run s).2.Amid tokens n :=
  have hr := h.run action
  ⟨hr.passes, hr.ended, Nat.le_of_lt_succ (Nat.lt_of_lt_of_le hl h.length_le)⟩

/-- What is gone over is the last token gone over, unless it is a newline. -/
theorem previous_advance (h : s.Amid tokens n) (he : s.kind ≠ .endOfFile)
    (hl : s.kind ≠ .endOfLine) : s.advance.previous = some s.current := by
  obtain ⟨rest, hr⟩ := h.rest_eq_cons
  rw [State.kind] at he hl
  unfold advance
  rw [hr]
  simp only [he, hl, if_false]
  unfold settle
  split <;> rfl

end State.Amid

/-- Where an action starts in `P`, it ends in `Q`. -/
def Triple (tokens : List Token) (n : Nat) (P : State → Prop) (action : Action α)
    (Q : α → State → Prop) : Prop :=
  ∀ s, s.Amid tokens n → P s → Q (action.run s).1 (action.run s).2

namespace Triple

variable {P P' : State → Prop} {Q Q' : α → State → Prop} {R : β → State → Prop}
  {action : Action α}

theorem mono (h : Triple tokens n P action Q) (hp : ∀ s, P' s → P s)
    (hq : ∀ x s, Q x s → Q' x s) : Triple tokens n P' action Q' :=
  fun s ha hs => hq _ _ (h s ha (hp s hs))

theorem pure {x : α} (h : ∀ s, P s → Q x s) : Triple tokens n P (pure x) Q :=
  fun s _ => h s

theorem bind {next : α → Action β} (h : Triple tokens n P action Q)
    (hn : ∀ x, Triple tokens n (Q x) (next x) R) : Triple tokens n P (action >>= next) R :=
  fun s ha hs => hn _ _ (ha.run action) (h s ha hs)

theorem bind_lt {next : α → Action β} (h : Triple tokens (n + 1) P action Q)
    (hl : ∀ s, P s → (action.run s).2.rest.length < s.rest.length)
    (hn : ∀ x, Triple tokens n (Q x) (next x) R) : Triple tokens (n + 1) P (action >>= next) R :=
  fun s ha hs => hn _ _ (ha.run_lt (hl s hs)) (h s ha hs)

theorem map {f : α → β} (h : Triple tokens n P action Q) (hf : ∀ x s, Q x s → R (f x) s) :
    Triple tokens n P (f <$> action) R :=
  fun s ha hs => hf _ _ (h s ha hs)

theorem ite {c : Prop} [Decidable c] {a b : Action α} (h : c → Triple tokens n P a Q)
    (h' : ¬c → Triple tokens n P b Q) : Triple tokens n P (if c then a else b) Q := by
  split
  · rename_i hc
    exact h hc
  · rename_i hc
    exact h' hc

theorem look_bind {view : State → β} {next : β → Action α}
    (h : ∀ x, Triple tokens n (fun s => view s = x ∧ P s) (next x) Q) :
    Triple tokens n P (look view >>= next) Q :=
  fun s ha hs => h (view s) s ha ⟨rfl, hs⟩

end Triple

end LenientR.Reading
