import LenientR.Outline.Lookup
import LenientR.Proofs.Reading.Triple

/-!
# What reading lays out

`Laid holds s parts t`: from `s` to `t` reading went over tokens, and what it kept of them are
these parts of the tree. Of the tokens gone over any may be skipped, and a node may stand on the
current token without going over it. The expressions completed from `s` to `t` are those of the
parts, whatever was discarded on the way. All that holds of the tree of any text, valid or not,
follows from this relation by induction.
-/

namespace LenientR

/-- The list of a construct that has one: the opening bracket, the items, and the first of the
brackets that close it. -/
def Expr.list? : Expr → Option (Token × List Item × Option Token)
  | .call _ opening arguments closing => some (opening, arguments, closing)
  | .index _ opening arguments closing => some (opening, arguments, closing.head?)
  | .function _ (some opening) parameters closing _ => some (opening, parameters, closing)
  | _ => none

namespace Part

theorem tokens_append (parts others : List Part) :
    Part.tokens (parts ++ others) = Part.tokens parts ++ Part.tokens others := by
  induction parts with
  | nil => rfl
  | cons part rest ih => cases part <;> simp [Part.tokens, ih]

theorem tokens_map (tokens : List Token) : Part.tokens (tokens.map .token) = tokens := by
  induction tokens with
  | nil => rfl
  | cons token rest ih => exact congrArg (token :: ·) ih

theorem tokens_child_of (label : Node) (parts : List Part) :
    Part.tokens [.child (.of label parts)] = Part.tokens parts :=
  List.append_nil _

end Part

namespace Reading

variable {tokens : List Token} {n : Nat} {holds : Expr → Prop}

inductive Laid (holds : Expr → Prop) : State → List Part → State → Prop
  /-- Tokens gone over, of which some are kept. Nothing that was completed on the way is left. -/
  | passed {s t : State} {gone kept : List Token} (hr : s.rest = gone ++ t.rest)
      (hk : kept.Sublist gone) (hc : t.completed = s.completed) :
      Laid holds s (kept.map .token) t
  /-- The current token, left where it is. -/
  | stay {s : State} {token : Token} {rest : List Token} (hr : s.rest = token :: rest) :
      Laid holds s [.token token] s
  | append {s t u : State} {parts others : List Part} (h : Laid holds s parts t)
      (k : Laid holds t others u) : Laid holds s (parts ++ others) u
  /-- The parts of an expression become one part when it is completed. -/
  | expr {s t : State} {parts : List Part} {e : Expr} (hl : holds e)
      (ho : e.outline = .of (.expr e) parts) (h : Laid holds s parts t) :
      Laid holds s [.child e.outline] { t with completed := e :: t.completed }
  | item {s t : State} {parts : List Part} {role : ListRole} {item : Item}
      (ho : item.outline role = .of (.ofItem role item) parts) (h : Laid holds s parts t) :
      Laid holds s [.child (item.outline role)] t

namespace Laid

variable {s t u : State} {parts : List Part}

theorem skip (hp : s.Passes t) (hc : t.completed = s.completed) : Laid holds s [] t := by
  obtain ⟨gone, hg, _⟩ := hp
  exact .passed hg (List.nil_sublist gone) hc

theorem refl (s : State) : Laid holds s [] s := .skip (.of_eq rfl rfl) rfl

theorem complete {e : Expr} (h : Laid holds s parts t) (hl : holds e)
    (ho : e.outline = .of (.expr e) parts) :
    Laid holds s [.child ((complete e).run t).1.outline] ((complete e).run t).2 :=
  .expr hl ho h

theorem append_skip (h : Laid holds s parts t) (hp : t.Passes u)
    (hc : u.completed = t.completed) : Laid holds s parts u := by
  simpa using h.append (.skip hp hc)

end Laid

namespace State

@[simp] theorem completed_settle (s : State) : s.settle.completed = s.completed := by
  unfold settle
  split <;> rfl

@[simp] theorem completed_advance (s : State) : s.advance.completed = s.completed := by
  unfold advance
  split
  · rfl
  · dsimp only
    split
    · rfl
    · exact completed_settle _

theorem advance_completed (s : State) (completed : List Expr) :
    { s with completed := completed }.advance = { s.advance with completed := completed } := by
  unfold advance settle
  dsimp only
  split
  · rfl
  split
  · rfl
  split <;> rfl

@[simp] theorem completed_recover (stops : Kind → Bool) (s : State) :
    (s.recover stops).completed = s.completed :=
  completed_settle _

/-- Going over the current token, or staying on the end of the file, keeps it. -/
theorem Amid.laid_advance {s : State} (h : s.Amid tokens n) :
    Laid holds s [.token s.current] s.advance := by
  obtain ⟨rest, hr⟩ := h.rest_eq_cons
  obtain ⟨gone, hg, _⟩ := s.onward_advance.passes
  cases gone with
  | nil =>
    rw [show [Part.token s.current] = [Part.token s.current] ++ [] from rfl]
    exact .append (.stay hr) (.skip s.onward_advance.passes s.completed_advance)
  | cons token gone =>
    have ht : s.current = token := by simp [current, hg]
    have hk : [s.current].Sublist (token :: gone) := by
      rw [ht]
      exact List.singleton_sublist.2 List.mem_cons_self
    exact .passed hg hk s.completed_advance

end State

-- ---------------------------------------------------------------------------
-- Steps
-- ---------------------------------------------------------------------------

/-- An action that makes one row of parts into another, each laid from the same state on. -/
def Lays (holds : Expr → Prop) (tokens : List Token) (n : Nat) (pre : List Part)
    (action : Action α) (post : α → List Part) : Prop :=
  ∀ s, Triple tokens n (Laid holds s pre) action fun x => Laid holds s (post x)

namespace Lays

variable {pre : List Part} {action : Action α} {post mid : α → List Part}

theorem pure {x : α} (h : pre = post x) : Lays holds tokens n pre (pure x) post :=
  fun _ => .pure fun _ hs => h ▸ hs

theorem bind {next : α → Action β} {post : β → List Part}
    (h : Lays holds tokens n pre action mid)
    (hn : ∀ x, Lays holds tokens n (mid x) (next x) post) :
    Lays holds tokens n pre (action >>= next) post :=
  fun s => (h s).bind fun x => hn x s

theorem look_bind {view : State → β} {next : β → Action α}
    (h : ∀ x, Lays holds tokens n pre (next x) post) :
    Lays holds tokens n pre (look view >>= next) post :=
  fun s => .look_bind fun x => (h x s).mono (fun _ h => h.2) fun _ _ => id

theorem map {f : α → β} {post : β → List Part} (h : Lays holds tokens n pre action mid)
    (hf : ∀ x, mid x = post (f x)) : Lays holds tokens n pre (f <$> action) post :=
  fun s => (h s).map fun x _ hx => hf x ▸ hx

theorem ite {c : Prop} [Decidable c] {a b : Action α} (h : c → Lays holds tokens n pre a post)
    (h' : ¬c → Lays holds tokens n pre b post) :
    Lays holds tokens n pre (if c then a else b) post :=
  fun s => .ite (fun hc => h hc s) fun hc => h' hc s

theorem after (h : ∀ s, s.Amid tokens n →
    Laid holds s (post (action.run s).1) (action.run s).2) :
    Lays holds tokens n pre action fun x => pre ++ post x :=
  fun _ s ha hs => hs.append (h s ha)

theorem prepend (h : Lays holds tokens n [] action post) :
    Lays holds tokens n pre action fun x => pre ++ post x :=
  .after fun s ha => h s s ha (.refl s)

theorem quiet (h : ∀ s, (action.run s).2.completed = s.completed) :
    Lays holds tokens n pre action fun _ => pre :=
  fun _ s _ hs => hs.append_skip (action.onward s).passes (h s)

theorem withNewlines (skips : Bool) (h : Lays holds tokens n pre action post) :
    Lays holds tokens n pre (withNewlines skips action) post := by
  intro s₀ s ha hs
  have hp : s.Passes { s with skipsNewlines := skips }.settle :=
    .trans (t := { s with skipsNewlines := skips }) (.of_eq rfl rfl) (State.passes_settle _)
  have hi := h s₀ _ (ha.onward hp) (hs.append_skip hp (State.completed_settle _))
  exact hi.append_skip (.trans (t := { (action.run _).2 with skipsNewlines := s.skipsNewlines })
    (.of_eq rfl rfl) (State.passes_settle _)) (State.completed_settle _)

theorem inBlock (h : Lays holds tokens n pre action post) :
    Lays holds tokens n pre (inBlock action) post := by
  intro s₀ s ha hs
  have hp : s.Passes { s with blockDepth := s.blockDepth + 1 } := .of_eq rfl rfl
  have hi := h s₀ _ (ha.onward hp) (hs.append_skip hp rfl)
  exact hi.append_skip (.of_eq rfl rfl) rfl

end Lays

section
variable {pre : List Part}

theorem lays_advance : Lays holds tokens n pre advance fun token => pre ++ [.token token] :=
  .after fun _ ha => ha.laid_advance

theorem lays_acceptOr (kind : Kind) (problem : State → Problem) :
    Lays holds tokens n pre (acceptOr kind problem) fun found => pre ++ Part.ofToken? found :=
  .after fun s ha => by
    simp only [acceptOr]
    split
    · exact ha.laid_advance
    · exact .skip (.of_eq rfl rfl) rfl

theorem lays_accept (kind : Kind) :
    Lays holds tokens n pre (accept kind) fun found => pre ++ Part.ofToken? found :=
  .after fun s ha => by
    simp only [accept]
    split
    · exact ha.laid_advance
    · exact .refl s

theorem lays_complete {e : Expr} (hl : holds e) (h : e.outline = .of (.expr e) pre) :
    Lays holds tokens n pre (complete e) fun _ => [.child e.outline] :=
  fun _ _ _ hs => hs.complete hl h

end

end Reading

end LenientR
