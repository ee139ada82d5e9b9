import LenientR.Proofs.Lists.Items

/-!
# Reading lists

A list goes from tile to tile, whatever is given up on the way (`tiles_readItems`), and if nothing
of it is kept, it is closed at once or given up at a closing brace (`Closed`). With the lists,
expressions end as they should (`ends_readExprWithin`).
-/

namespace LenientR

namespace Reading

variable {tokens : List Token} {n : Nat} {readExpr : ExprReader}

theorem Ends.of_comma {others : List Part} {comma : Token} {s : State}
    (h : Ends (.token comma :: others) s) (parts : List Part)
    (hc : (Part.tokens parts).getLast? = some comma) : Ends (parts ++ others) s := by
  refine h.imp_right (.imp_right (.imp ?_ ?_))
  · exact fun h => ⟨h.1, Part.trailsOff_append parts h.2⟩
  · rintro ⟨token, hl, hp⟩
    refine ⟨token, ?_, hp⟩
    rw [Part.tokens, List.getLast?_cons] at hl
    rw [Part.tokens_append, List.getLast?_append, hc, ← hl]
    cases (Part.tokens others).getLast? <;> rfl

def State.closing? (terminator : Kind) (s : State) : Option Token :=
  if s.kind = terminator then some s.current else none

/-- The items from a bracket or comma on, and the state at the end of the list. -/
def Tiles (tokens : List Token) (role : ListRole) (terminator : Kind) (after : Token)
    (items : List Item) (s : State) : Prop :=
  s.kind = .rightCurly ∨ (s.kind = terminator ∨ s.kind = .endOfFile) ∧
    Item.tile tokens Item.trailsOff (s.closing? terminator) after items = true ∧
      Ends (.token after :: Item.outlines role items) s

section
variable {role : ListRole} {terminator : Kind} {after : Token} {s : State}

theorem endsAfter_closing? (ho : tokens.Pairwise (·.start < ·.start)) (ha : s.Amid tokens n)
    (hp : s.previous = some after) (hs : s.kind ≠ .endOfLine)
    (hk : s.kind = terminator ∨ s.kind = .endOfFile) :
    endsAfter tokens (s.closing? terminator) after = true := by
  rw [endsAfter, ha.next? ho hp hs, State.closing?]
  by_cases h : s.kind = terminator
  · rw [if_pos h]
    simp
  · rw [if_neg h]
    exact decide_eq_true (hk.resolve_left h)

theorem endsAfter_none (ho : tokens.Pairwise (·.start < ·.start)) (ha : s.Amid tokens n)
    (hp : s.previous = some after) (hs : s.kind ≠ .endOfLine) :
    endsAfter tokens none after = decide (s.kind = .endOfFile) := by
  rw [endsAfter, ha.next? ho hp hs]
  rfl

theorem tiles_nil (ho : tokens.Pairwise (·.start < ·.start)) (ha : s.Amid tokens n)
    (hp : s.previous = some after) (hs : s.kind ≠ .endOfLine) (hk : s.kind = terminator) :
    Tiles tokens role terminator after [] s := by
  refine .inr ⟨.inl hk, ?_, .of_previous hp⟩
  rw [Item.tile, endsAfter_closing? ho ha hp hs (.inl hk)]
  simp [State.closing?, hk]

theorem closing?_endOfFile (ht : ClosesList terminator) (hk : s.kind = .endOfFile) :
    s.closing? terminator = none := by
  refine if_neg fun h => ?_
  rcases ht with rfl | rfl <;> simp [hk] at h

theorem tiles_stub (ht : ClosesList terminator) (ho : tokens.Pairwise (·.start < ·.start))
    (ha : s.Amid tokens n) (hp : s.previous = some after) (hk : s.kind = .endOfFile) :
    Tiles tokens role terminator after [.stub] s := by
  refine .inr ⟨.inr hk, ?_, .inr (.inr (.inr ⟨after, rfl, hp⟩))⟩
  rw [Item.tile, closing?_endOfFile ht hk, endsAfter_none ho ha hp (by simp [hk])]
  simp [Item.isStub, hk]

theorem readItems_item_run (readExpr : ExprReader) (role : ListRole) (bound : Nat)
    (hk : s.kind = terminator ∨ s.kind = .rightCurly ∨ s.kind = .endOfFile) :
    (readItems readExpr role terminator bound .item).run s = ([], s) := by
  cases bound with
  | zero => rfl
  | succ bound =>
    rw [readItems, run_look_bind]
    split
    · rw [reportEmptySlot, if_neg (by simp)]
      rfl
    · rename_i ht
      rcases hk.resolve_left ht with h | h <;> simp [h]

theorem tile_itemRead {item : Item} {t : State} (ho : tokens.Pairwise (·.start < ·.start))
    (ha : s.Amid tokens n) (hp : s.previous = some after) {start : Token}
    (hs : StartsItem terminator start s) (hi : ItemRead terminator start item t)
    (closing : Option Token) (others : List Item) :
    Item.tile tokens Item.trailsOff closing after (item :: others) =
      match item.comma with
      | some comma => Item.tile tokens Item.trailsOff closing comma others
      | none => others.isEmpty && (item.tokens.getLast?.any (endsAfter tokens closing) ||
        closing.isNone && item.trailsOff) := by
  rw [Item.tile, if_neg (by simp [hi.not_stub]), endsAfter_none ho ha hp hs.skipping.2,
    ha.next? ho hp hs.skipping.2, hi.head, hs.current, decide_eq_false hs.not_file,
    decide_eq_true rfl]
  rfl

theorem Tiles.cons {item : Item} {comma start : Token} {others : List Item} {t u : State}
    (ho : tokens.Pairwise (·.start < ·.start)) (ha : s.Amid tokens n)
    (hp : s.previous = some after) (hs : StartsItem terminator start s)
    (hi : ItemRead terminator start item t) (hc : item.comma = some comma)
    (hl : item.tokens.getLast? = some comma) (h : Tiles tokens role terminator comma others u) :
    Tiles tokens role terminator after (item :: others) u := by
  refine h.imp_right fun ⟨hk, htile, hends⟩ => ⟨hk, ?_, ?_⟩
  · rw [tile_itemRead ho ha hp hs hi, hc]
    exact htile
  · rw [Item.outlines]
    refine (hends.of_comma [.child (item.outline role)] ?_).prepend [.token after]
    rw [Item.outline_eq, Part.tokens_child_of]
    exact hl

theorem tiles_last {item : Item} {start : Token} {t : State} (ht : ClosesList terminator)
    (ho : tokens.Pairwise (·.start < ·.start)) (ha : s.Amid tokens n)
    (hp : s.previous = some after) (hs : StartsItem terminator start s)
    (hi : ItemRead terminator start item t) (ha' : t.Amid tokens n) (hl : t.kind ≠ .endOfLine)
    (hc : item.comma = none) (hf : t.recovering = false)
    (hk : t.kind = terminator ∨ t.kind = .rightCurly ∨ t.kind = .endOfFile)
    (hends : Ends item.parts t) : Tiles tokens role terminator after [item] t := by
  by_cases hcurly : t.kind = .rightCurly
  · exact .inl hcurly
  have hend : t.kind = terminator ∨ t.kind = .endOfFile := hk.imp_right (·.resolve_left hcurly)
  refine .inr ⟨hend, ?_, ?_⟩
  · rw [tile_itemRead ho ha hp hs hi, hc]
    rcases hends with h | h | ⟨hfile, h⟩ | ⟨token, hlast, hprevious⟩
    · simp [hf] at h
    · exact absurd h hcurly
    · simp [closing?_endOfFile ht hfile, Item.trailsOff, h]
    · rw [Item.tokens, hlast, Option.any_some, endsAfter_closing? ho ha' hprevious hl hend]
      rfl
  · rw [Item.outlines, Item.outline_eq]
    exact (hends.node _).prepend [.token after]

end

theorem tiles_readItems (hr : ReaderEnds tokens n readExpr) (hst : ReaderStarts readExpr)
    (he : Engages readExpr) (ho : tokens.Pairwise (·.start < ·.start)) (role : ListRole)
    {terminator : Kind} (ht : ClosesList terminator) (bound : Nat) {slot : Slot}
    (hslot : slot ≠ .item) {after : Token} {s : State} (ha : s.Amid tokens n)
    (hl : s.rest.length ≤ bound) (hs : s.Skipping) (hp : s.previous = some after) :
    let found := (readItems readExpr role terminator bound slot).run s
    Tiles tokens role terminator after found.1 found.2 := by
  -- `after` is the token gone over last: the next tile, if there is one, starts right after it
  induction bound generalizing slot after s with
  | zero => exact absurd ha.ended.length_pos (by omega)
  | succ bound ih =>
    rw [readItems, run_look_bind]
    split
    · rename_i hk
      rw [reportEmptySlot]
      split
      · exact tiles_nil (s := s.report _) ho (ha.onward (s.onward_report _).passes) hp hs.2 hk
      · exact tiles_nil ho ha hp hs.2 hk
    split
    · rename_i hk
      exact tiles_stub ht ho ha hp hk
    split
    · rename_i hk
      exact .inl hk
    rename_i hterminator hfile hcurly
    have hstart : StartsItem terminator s.current s := ⟨hs, rfl, hterminator, hfile, hcurly⟩
    have hi := itemRead_readItem hr hst role ht s.current s ha hstart
    have hlt : ((readItem readExpr role terminator).run s).2.rest.length < s.rest.length :=
      length_readItem_lt he hterminator hfile hcurly
    have hs' := hs.run (readItem readExpr role terminator)
    have ha' := ha.run (readItem readExpr role terminator)
    rw [run_bind]
    generalize (readItem readExpr role terminator).run s = read at hi hlt hs' ha' ⊢
    rcases hi.ends with ⟨comma, hc, hlast, hprevious⟩ | ⟨hc, hf, hk, hends⟩
    · have hafter : Slot.after read.1 ≠ .item := by simp [Slot.after, hc]
      exact Tiles.cons ho ha hp hstart hi hc hlast (ih hafter ha' (by omega) hs' hprevious)
    -- without a comma the list is over, as the item stops only where one may end
    · rw [show Slot.after read.1 = .item by simp [Slot.after, hc], run_bind,
        readItems_item_run readExpr role bound hk]
      exact tiles_last ht ho ha hp hstart hi ha' hs'.2 hc hf hk hends

theorem State.Passes.kind_endOfFile {s t : State} (h : s.Passes t) (hk : s.kind = .endOfFile) :
    t.kind = .endOfFile := by
  obtain ⟨gone, hg, he, _⟩ := h
  cases gone with
  | nil => exact (State.kind_congr hg.symm).trans hk
  | cons token gone =>
    rw [State.kind_cons hg] at hk
    exact absurd hk (he token List.mem_cons_self)

/-- A list with its closing bracket, from right after the opening one. -/
structure Closed (tokens : List Token) (role : ListRole) (opening : Token)
    (found : List Item × Option Token) (s : State) : Prop where
  tiled : ListTiled tokens Item.trailsOff opening found.1 found.2
  givenUp : found.1 = [] → found.2 = none → ListGivenUp tokens s.problems opening
  ends : Ends (.token opening :: (Item.outlines role found.1 ++ Part.ofToken? found.2)) s

theorem closed_finishList {role : ListRole} {opening : Token} {terminator : Kind}
    (ht : ClosesList terminator) (ho : tokens.Pairwise (·.start < ·.start))
    (completed : List Expr) {items : List Item} {s : State} (ha : s.Amid tokens n)
    (h : Tiles tokens role terminator opening items s)
    (hlast : ∃ last, s.previous = some last)
    (hcut : s.kind = .rightCurly →
      endsAfter tokens none opening = false ∧ opening.start < s.current.start) :
    let found := (finishList opening terminator completed items).run s
    Closed tokens role opening found.1 found.2 := by
  by_cases hcurly : s.kind = .rightCurly
  · have hne : terminator ≠ .rightCurly := by
      rintro rfl
      cases ht <;> contradiction
    obtain ⟨hfile, hstart⟩ := hcut hcurly
    obtain ⟨last, hlast⟩ := hlast
    have hreported : .missingClosing opening last ∈
        (s.report (.missingClosing opening s.lastToken)).problems := by
      rw [State.lastToken, hlast]
      exact List.mem_cons_self
    rw [finishList_cut opening hne completed items hcurly]
    exact {
      tiled := listTiled_cut hfile
      givenUp := fun _ _ =>
        ⟨last, s.current, hreported, ha.next? ho hlast (by simp [hcurly]), hcurly, hstart⟩
      ends := .inr (.inl hcurly) }
  obtain ⟨hend, htile, hends⟩ := h.resolve_left hcurly
  rw [finishList_run opening terminator completed items hcurly]
  rcases acceptOr_run terminator (fun s => .missingClosing opening s.lastToken) s with
    ⟨hk, hrun⟩ | ⟨hk, hrun⟩ <;> rw [show (takeClosing opening terminator).run s = _ from hrun]
  · rw [show s.closing? terminator = some s.current from if_pos hk] at htile
    have hkind : terminator ≠ .endOfFile ∧ terminator ≠ .endOfLine := by
      rcases ht with rfl | rfl <;> decide
    refine ⟨listTiled_of_tile (fun bracket hm he => ?_) htile, fun _ hnone => ?_, ?_⟩
    · obtain rfl := Option.some.inj hm
      exact hkind.1 (hk.symm.trans he)
    · cases hnone
    · have hprevious := ha.previous_advance (hk ▸ hkind.1) (hk ▸ hkind.2)
      exact (Ends.of_previous hprevious).prepend (.token opening :: Item.outlines role items)
  · rw [show s.closing? terminator = none from if_neg hk] at htile
    refine ⟨listTiled_of_tile (by simp) htile, ?_, ?_⟩
    · rintro rfl
      cases htile
    · rw [show Part.ofToken? none = [] from rfl, List.append_nil]
      exact hends.congr rfl rfl id

theorem closed_readList (hr : ReaderEnds tokens n readExpr) (hst : ReaderStarts readExpr)
    (he : Engages readExpr) (ho : tokens.Pairwise (·.start < ·.start)) (role : ListRole)
    (opening : Token) {terminator : Kind} (ht : ClosesList terminator) :
    Triple tokens n (fun s => s.previous = some opening)
      (readList readExpr n role opening terminator) (Closed tokens role opening) := by
  intro s ha hs
  let t := { s with skipsNewlines := true }.settle
  let read := (readItems readExpr role terminator n .opening).run t
  have hp : s.Passes t :=
    .trans (t := { s with skipsNewlines := true }) (.of_eq rfl rfl) (State.passes_settle _)
  have ha' : t.Amid tokens n := ha.onward hp
  have hskips : t.Skipping := by
    have hskips : t.skipsNewlines = true := (State.settle_frame _).1
    exact ⟨hskips, State.settled_settle _ hskips⟩
  have hprevious : t.previous = some opening := hs
  have htiles := tiles_readItems hr hst he ho role ht n
    (show Slot.opening ≠ .item by decide) ha' ha'.length_le hskips hprevious
  have hpasses : t.Passes read.2 :=
    ((readItems readExpr role terminator n .opening).onward t).passes
  rw [readList, run_look_bind, run_bind, withNewlines_run (.inl rfl)]
  refine closed_finishList (s := { read.2 with skipsNewlines := s.skipsNewlines }) ht ho _
    (ha'.onward (hpasses.trans (.of_eq rfl rfl))) ?_ (hpasses.exists_previous hprevious)
    fun hcurly => ⟨?_, ?_⟩
  · exact htiles.imp_right fun ⟨hk, htile, hends⟩ => ⟨hk, htile, hends.congr rfl rfl id⟩
  · rw [endsAfter_none ho ha' hprevious hskips.2, decide_eq_false_iff_not]
    intro hk
    -- a list that is cut off has not ended in the end of the file
    have hfile : read.2.kind = .endOfFile := hpasses.kind_endOfFile hk
    rw [show read.2.kind = .rightCurly from hcurly] at hfile
    cases hfile
  · have hstart : opening.start < t.current.start := by
      simpa using List.find?_some (ha'.next? ho hprevious hskips.2)
    exact Nat.lt_of_lt_of_le hstart (ha'.start_le ho hpasses)

theorem listsEnd_of_reader (hr : ReaderEnds tokens n readExpr) (hst : ReaderStarts readExpr)
    (he : Engages readExpr) (ho : tokens.Pairwise (·.start < ·.start)) :
    ListsEnd tokens n readExpr n :=
  fun role opening _ ht =>
    (closed_readList hr hst he ho role opening ht).mono (fun _ => id) fun _ _ h => h.ends

-- ---------------------------------------------------------------------------
-- Expressions
-- ---------------------------------------------------------------------------

theorem ends_readExprWithin (ho : tokens.Pairwise (·.start < ·.start)) (bound : Nat) :
    ReaderEnds tokens bound (readExprWithin bound) := by
  induction bound with
  | zero => exact fun _ _ _ _ => .inl rfl
  | succ bound ih =>
    intro level
    refine Triple.look_bind fun kind => .ite (fun _ _ _ _ => .inl rfl) fun hk => ?_
    have hadvance (s : State) (hs : s.kind = kind) : s.kind ≠ .endOfFile ∧ s.kind ≠ .endOfLine := by
      constructor <;>
      · intro h
        exact hk (by simp [← hs, h, Kind.endsExpression])
    refine Triple.bind_lt (Q := fun token s => s.previous = some token) ?_ ?_ ?_
    · exact fun s ha hs => ha.previous_advance (hadvance s hs.1).1 (hadvance s hs.1).2
    · exact fun s hs => State.length_advance_lt (hadvance s hs.1).1
    · have he := engages_readExprWithin bound
      exact fun token => ends_readFrom ih he
        (listsEnd_of_reader ih (starts_readExprWithin bound) he ho) level token

theorem closed_readListWithin (ho : tokens.Pairwise (·.start < ·.start)) (bound : Nat)
    (role : ListRole) (opening : Token) {terminator : Kind} (ht : ClosesList terminator) :
    Triple tokens bound (fun s => s.previous = some opening)
      (readList (readExprWithin bound) bound role opening terminator)
      (Closed tokens role opening) :=
  closed_readList (ends_readExprWithin ho bound) (starts_readExprWithin bound)
    (engages_readExprWithin bound) ho role opening ht

theorem listsFit_readExprWithin (ho : tokens.Pairwise (·.start < ·.start)) (bound : Nat) :
    ListsFit (ListTiled tokens Item.trailsOff) tokens bound (readExprWithin bound) bound :=
  fun role opening _ ht =>
    (closed_readListWithin ho bound role opening ht).mono (fun _ => id) fun _ _ h => h.tiled

theorem Laid.every {holds : Expr → Prop} {s t : State} {parts : List Part}
    (h : Laid holds s parts t) : Part.Every (fun node => ∀ e, node = .expr e → holds e) parts := by
  induction h with
  | passed _ _ _ => exact Part.every_tokens _
  | stay _ => trivial
  | append _ _ ih ih' => exact Part.every_append.2 ⟨ih, ih'⟩
  | expr hl ho _ ih =>
    rw [ho]
    exact ⟨⟨fun e he => Node.expr.inj he ▸ hl, ih⟩, trivial⟩
  | @item _ _ _ role _ ho _ ih =>
    rw [ho]
    refine ⟨⟨fun e he => ?_, ih⟩, trivial⟩
    cases role <;> cases he

end Reading

end LenientR
