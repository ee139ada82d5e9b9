import LenientR.Proofs.Lists.Ending

/-!
# Lists as tilings

The items of a list, each from its first token through its comma, stand side by side from the
opening bracket to the closing one or the end of the file (`ListTiled`). Only the last item may
lack a comma. A stub is there exactly where the end of the file comes right after an opening
bracket or a comma. A list of which nothing is kept is closed at once or given up at a closing brace
(`ListGivenUp`).
-/

namespace LenientR

def Token.next? (tokens : List Token) (token : Token) : Option Token :=
  (tokens.filter (·.kind ≠ .endOfLine)).find? (token.start < ·.start)

def endsAfter (tokens : List Token) (closing : Option Token) (token : Token) : Bool :=
  (token.next? tokens).any fun next =>
    match closing with
    | some bracket => next = bracket
    | none => next.kind = .endOfFile

namespace Item

def parts (item : Item) : List Part := (item.outline .arguments).parts

def tokens (item : Item) : List Token := Part.tokens item.parts

/-- The item ends in brackets that are never closed. -/
def trailsOff (item : Item) : Bool := Part.trailsOff item.parts

theorem outline_eq (role : ListRole) (item : Item) :
    item.outline role = .of (.ofItem role item) item.parts := by
  cases item <;> rfl

/-- Each item starts right after the bracket or comma in front of it. The last one ends where the
list does, unless it is one that may be followed by more tokens up to the end of the file. -/
def tile (tokens : List Token) (mayTrail : Item → Bool) (closing : Option Token) :
    Token → List Item → Bool
  | after, [] => closing.isSome && endsAfter tokens closing after
  | after, item :: rest =>
    if item.isStub then rest.isEmpty && closing.isNone && endsAfter tokens none after
    else
      !endsAfter tokens none after && after.next? tokens = item.tokens.head? &&
        match item.comma with
        | some comma => tile tokens mayTrail closing comma rest
        | none => rest.isEmpty && (item.tokens.getLast?.any (endsAfter tokens closing) ||
          closing.isNone && mayTrail item)

end Item

/-- How the items of a list stand between its brackets. -/
structure ListTiled (tokens : List Token) (mayTrail : Item → Bool) (opening : Token)
    (items : List Item) (closing : Option Token) : Prop where
  /-- If a list without items is closed at all, then at once. -/
  empty : items = [] → closing = none ∨ endsAfter tokens closing opening = true
  tile : items ≠ [] → Item.tile tokens mayTrail closing opening items = true
  commas : ∀ before item after, items = before ++ item :: after → after ≠ [] →
    item.comma.isSome = true
  stubLast : ∀ before after, items = before ++ .stub :: after → after = [] ∧ closing = none
  stub : Item.stub ∈ items ↔
    ∃ token ∈ opening :: items.filterMap Item.comma, endsAfter tokens none token = true

/-- A list is given up at a closing brace behind its opening bracket: the problem that names the
bracket names the token right in front of the brace. -/
def ListGivenUp (tokens : List Token) (problems : List Problem) (opening : Token) : Prop :=
  ∃ last brace, .missingClosing opening last ∈ problems ∧ last.next? tokens = some brace ∧
    brace.kind = .rightCurly ∧ opening.start < brace.start

theorem ListGivenUp.mono {tokens : List Token} {problems more : List Problem} {opening : Token}
    (h : ListGivenUp tokens problems opening) (hm : problems ⊆ more) :
    ListGivenUp tokens more opening := by
  obtain ⟨last, brace, hp, hb⟩ := h
  exact ⟨last, brace, hm hp, hb⟩

section
variable {tokens : List Token} {mayTrail : Item → Bool} {closing : Option Token}

theorem Item.isStub_iff {item : Item} : item.isStub = true ↔ item = .stub := by
  cases item <;> simp [isStub]

theorem Item.tile_cons {after : Token} {item : Item} {rest : List Item}
    (h : Item.tile tokens mayTrail closing after (item :: rest) = true) :
    item = .stub ∧ rest = [] ∧ closing = none ∧ endsAfter tokens none after = true ∨
      item ≠ .stub ∧ endsAfter tokens none after = false ∧
        ((∃ comma, item.comma = some comma ∧
            Item.tile tokens mayTrail closing comma rest = true) ∨
          item.comma = none ∧ rest = []) := by
  rw [Item.tile] at h
  by_cases hs : item.isStub = true
  · simp only [hs, if_true, Bool.and_eq_true, List.isEmpty_iff, Option.isNone_iff_eq_none] at h
    exact .inl ⟨Item.isStub_iff.1 hs, h.1.1, h.1.2, h.2⟩
  · rw [if_neg hs] at h
    simp only [Bool.and_eq_true, Bool.not_eq_true'] at h
    refine .inr ⟨fun he => hs (Item.isStub_iff.2 he), h.1.1, ?_⟩
    cases hc : item.comma with
    | some comma =>
      rw [hc] at h
      exact .inl ⟨comma, rfl, h.2⟩
    | none =>
      rw [hc] at h
      simp only [Bool.and_eq_true, List.isEmpty_iff] at h
      exact .inr ⟨rfl, h.2.1⟩

theorem Item.isSome_comma_of_tile {after : Token} {item : Item} {before others : List Item}
    (h : Item.tile tokens mayTrail closing after (before ++ item :: others) = true)
    (hn : others ≠ []) : item.comma.isSome = true := by
  induction before generalizing after with
  | nil =>
    rcases Item.tile_cons h with ⟨_, hr, _⟩ | ⟨_, _, ⟨comma, hc, _⟩ | ⟨_, hr⟩⟩
    · exact absurd hr hn
    · rw [hc]
      rfl
    · exact absurd hr hn
  | cons first before ih =>
    rcases Item.tile_cons h with ⟨_, hr, _⟩ | ⟨_, _, ⟨comma, _, ht⟩ | ⟨_, hr⟩⟩
    · simp at hr
    · exact ih ht
    · simp at hr

theorem Item.stub_last_of_tile {after : Token} {before others : List Item}
    (h : Item.tile tokens mayTrail closing after (before ++ .stub :: others) = true) :
    others = [] ∧ closing = none := by
  induction before generalizing after with
  | nil =>
    rcases Item.tile_cons h with ⟨_, hr, hc, _⟩ | ⟨hs, _⟩
    · exact ⟨hr, hc⟩
    · exact absurd rfl hs
  | cons first before ih =>
    rcases Item.tile_cons h with ⟨_, hr, _⟩ | ⟨_, _, ⟨comma, _, ht⟩ | ⟨_, hr⟩⟩
    · simp at hr
    · exact ih ht
    · simp at hr

theorem Item.stub_mem_iff_of_tile {after : Token} {items : List Item}
    (hk : ∀ bracket ∈ closing, bracket.kind ≠ .endOfFile)
    (h : Item.tile tokens mayTrail closing after items = true) :
    Item.stub ∈ items ↔
      ∃ token ∈ after :: items.filterMap Item.comma, endsAfter tokens none token = true := by
  induction items generalizing after with
  | nil =>
    rw [Item.tile, Bool.and_eq_true, Option.isSome_iff_exists] at h
    obtain ⟨⟨bracket, rfl⟩, h⟩ := h
    have hb := hk bracket rfl
    suffices endsAfter tokens none after = false by simp [this]
    unfold endsAfter at h ⊢
    cases hn : after.next? tokens <;> simp_all
  | cons item rest ih =>
    rcases Item.tile_cons h with ⟨rfl, _, _, he⟩ | ⟨hs, he, ⟨comma, hc, ht⟩ | ⟨hc, rfl⟩⟩
    · simp [he]
    · rw [List.filterMap_cons_some hc, List.mem_cons, ih ht]
      simp [he, Ne.symm hs]
    · simp [hc, he, Ne.symm hs]

theorem listTiled_of_tile {opening : Token} {items : List Item}
    (hk : ∀ bracket ∈ closing, bracket.kind ≠ .endOfFile)
    (h : Item.tile tokens mayTrail closing opening items = true) :
    ListTiled tokens mayTrail opening items closing where
  empty he := by
    subst he
    rw [Item.tile, Bool.and_eq_true] at h
    exact .inr h.2
  tile _ := h
  commas before item others he hn := Item.isSome_comma_of_tile (he ▸ h) hn
  stubLast before others he := Item.stub_last_of_tile (he ▸ h)
  stub := Item.stub_mem_iff_of_tile hk h

theorem listTiled_cut {opening : Token} (h : endsAfter tokens none opening = false) :
    ListTiled tokens mayTrail opening [] none where
  empty _ := .inl rfl
  tile h := absurd rfl h
  commas before item others he := by simp at he
  stubLast before others he := by simp at he
  stub := by simp [h]

end

end LenientR
