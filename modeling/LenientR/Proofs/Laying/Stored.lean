import LenientR.Proofs.Laying.Spans

/-!
# Where the stored parts put a node

Not every token of a node is stored with it. The brackets of a condition, the keywords within a
construct, the first of two closing brackets and the tokens in the middle of an item that is given
up lie between parts that are stored, so the stored parts cover what all of them do
(`Document.span_eq_stored`).
-/

namespace LenientR

-- ---------------------------------------------------------------------------
-- Nodes and their outlines
-- ---------------------------------------------------------------------------

def Node.outline : Node → Outline
  | .expr e => e.outline
  | .argument item => item.outline .arguments
  | .parameter item => item.outline .parameters

theorem Node.outline_ofItem (role : ListRole) (item : Item) :
    (Node.ofItem role item).outline = item.outline role := by
  cases role <;> rfl

mutual
def Outline.Own : Outline → Prop
  | .node label span parts => label.outline = .node label span parts ∧ Part.Own parts
def Part.Own : List Part → Prop
  | [] => True
  | .token _ :: rest => Part.Own rest
  | .child outline :: rest => outline.Own ∧ Part.Own rest
end

theorem Outline.Own.eq {outline : Outline} (h : outline.Own) : outline.label.outline = outline := by
  cases outline
  exact h.1

theorem Part.own_tokens (tokens : List Token) : Part.Own (tokens.map .token) := by
  induction tokens with
  | nil => trivial
  | cons token rest ih => exact ih

theorem Part.own_append {parts others : List Part} (h : Part.Own parts) (k : Part.Own others) :
    Part.Own (parts ++ others) := by
  induction parts with
  | nil => exact k
  | cons part rest ih =>
    cases part with
    | token token => exact ih h
    | child outline => exact ⟨h.1, ih h.2⟩

theorem Part.own_child {parts : List Part} (h : Part.Own parts) :
    ∀ child ∈ parts.filterMap Part.outline?, child.Own := by
  induction parts with
  | nil => simp
  | cons part rest ih =>
    cases part with
    | token token => exact ih h
    | child outline => exact List.forall_mem_cons.2 ⟨h.1, ih h.2⟩

theorem Reading.Laid.own {holds : Expr → Prop} {s t : Reading.State} {parts : List Part}
    (h : Laid holds s parts t) : Part.Own parts := by
  induction h with
  | passed => exact Part.own_tokens _
  | stay => trivial
  | append _ _ h k => exact Part.own_append h k
  | expr _ ho _ h =>
    rw [ho]
    exact ⟨⟨ho, h⟩, trivial⟩
  | item ho _ h =>
    rw [ho]
    exact ⟨⟨(Node.outline_ofItem _ _).trans ho, h⟩, trivial⟩

theorem Forest.own_walk {forest : Forest} (h : Part.Own forest.parts) :
    ∀ found ∈ forest.walk, found.outline.Own := by
  refine Part.forall_walk (fun outline ho => ?_) [] 0 forest.parts (Part.own_child h)
  cases outline
  exact Part.own_child ho.2

-- ---------------------------------------------------------------------------
-- Stored parts
-- ---------------------------------------------------------------------------

/-- The parts of an expression that are stored, in the order in which their spans are merged. -/
def Expr.storedParts : Expr → List Part
  | .forLoop keyword _ loopVar _ sequence closing body =>
    .token keyword :: .child sequence.outline :: Part.ofToken? closing ++
      loopVar.toList.map (fun name => .child (.of (.expr (.var name)) [.token name])) ++
      [.child body.outline]
  | .conditional keyword _ condition _ consequent alternative =>
    .token keyword :: .child condition.outline :: .child consequent.outline ::
      Expr.outline? (alternative.map Prod.snd)
  | .index target opening arguments closing =>
    .child target.outline :: .token opening :: Item.outlines .arguments arguments ++
      Part.ofToken? closing.getLast?
  | .whileLoop keyword _ condition _ body =>
    [.token keyword, .child condition.outline, .child body.outline]
  | e => e.outline.parts

def Item.storedParts (role : ListRole) : Item → List Part
  | .unreadable tokens comma =>
    Part.ofToken? tokens.head? ++ Part.ofToken? tokens.getLast? ++ Part.ofToken? comma
  | item => (item.outline role).parts

def Node.storedParts : Node → List Part
  | .expr e => e.storedParts
  | .argument item => item.storedParts .arguments
  | .parameter item => item.storedParts .parameters

-- ---------------------------------------------------------------------------
-- Hulls of stored parts
-- ---------------------------------------------------------------------------

namespace Span

theorem merge_comm (a b : Span) : a.merge b = b.merge a := by
  by_cases ha : a = unset
  · rw [ha, unset_merge, merge_unset]
  by_cases hb : b = unset
  · rw [hb, unset_merge, merge_unset]
  · rw [merge_of_ne ha hb, merge_of_ne hb ha, Nat.min_comm, Nat.max_comm]

theorem merge_right_comm (a b c : Span) : (a.merge b).merge c = (a.merge c).merge b := by
  rw [merge_assoc, merge_comm b, merge_assoc]

theorem hull_eq_foldl (first : Span) (rest : List Span) :
    hull (first :: rest) = some ((first :: rest).foldl merge unset) := by
  rw [List.foldl_cons, unset_merge]
  rfl

theorem hull_perm {spans others : List Span} (h : spans.Perm others) : hull spans = hull others := by
  cases spans with
  | nil => rw [List.nil_perm.1 h]
  | cons first rest =>
    cases others with
    | nil => exact absurd h.symm (List.not_perm_nil_cons _ _)
    | cons other others =>
      rw [hull_eq_foldl, hull_eq_foldl]
      exact congrArg some (h.foldl_eq' (fun x _ y _ z => merge_right_comm z x y) unset)

end Span

/-- Tokens in order are covered from the start of the first to the end of the last. -/
theorem Covers.eq {tokens : List Token} {span : Option Span} (h : Covers tokens span)
    (ho : tokens.Pairwise Token.NotAfter) :
    span = tokens.head?.bind fun first => tokens.getLast?.map fun last =>
      ⟨first.start, last.stop⟩ := by
  cases span with
  | none =>
    rw [show tokens = [] from h]
    rfl
  | some span =>
    obtain ⟨hall, ⟨x, hx, hxs⟩, ⟨y, hy, hye⟩⟩ := h
    have hne := List.ne_nil_of_mem hx
    have hf := List.head?_eq_some_head hne
    have hl := List.getLast?_eq_some_getLast hne
    generalize tokens.head hne = first at hf
    generalize tokens.getLast hne = last at hl
    have hstart : first.start ≤ x.start := by
      obtain ⟨rest, rfl⟩ := List.head?_eq_some_iff.1 hf
      rcases List.mem_cons.1 hx with rfl | hx
      · exact Nat.le_refl _
      · exact ((List.pairwise_cons.1 ho).1 x hx).start_le
    have hstop : y.stop ≤ last.stop := by
      obtain ⟨front, rfl⟩ := List.getLast?_eq_some_iff.1 hl
      rcases List.mem_append.1 hy with hy | hy
      · exact ((List.pairwise_append.1 ho).2.2 y hy last (List.mem_singleton.2 rfl)).stop_le
      · rw [List.mem_singleton.1 hy]
    have hfirst := (hall first (List.mem_of_head? hf)).1
    have hlast := (hall last (List.mem_of_getLast? hl)).2
    have hspan : span = ⟨span.start, span.stop⟩ := rfl
    rw [hf, hl, Option.bind_some, Option.map_some, hspan, show span.start = first.start by omega,
      show span.stop = last.stop by omega]

namespace Part

/-- Parts in order with the same first and the same last token cover the same. -/
theorem hull_eq_of_ends {parts others : List Part} (hp : Part.Spanned parts)
    (hs : Part.Spanned others) (ho : (Part.tokens parts).Pairwise Token.NotAfter)
    (hto : (Part.tokens others).Pairwise Token.NotAfter)
    (hf : (Part.tokens others).head? = (Part.tokens parts).head?)
    (hl : (Part.tokens others).getLast? = (Part.tokens parts).getLast?) :
    Span.hull (others.filterMap Part.span) = Span.hull (parts.filterMap Part.span) := by
  rw [(Part.covers parts hp ho).eq ho, (Part.covers others hs hto).eq hto, hf, hl]

theorem spanned_sublist {parts others : List Part} (h : others.Sublist parts)
    (hp : Part.Spanned parts) : Part.Spanned others := by
  induction h with
  | slnil => trivial
  | cons part _ ih =>
    cases part with
    | token token => exact ih hp
    | child outline => exact ih hp.2
  | cons_cons part _ ih =>
    cases part with
    | token token => exact ih hp
    | child outline => exact ⟨hp.1, ih hp.2⟩

theorem tokens_sublist {parts others : List Part} (h : others.Sublist parts) :
    (Part.tokens others).Sublist (Part.tokens parts) := by
  induction h with
  | slnil => exact List.Sublist.slnil
  | cons part _ ih =>
    cases part with
    | token token => exact ih.cons token
    | child outline => exact ih.trans (List.sublist_append_right _ _)
  | cons_cons part _ ih =>
    cases part with
    | token token => exact ih.cons_cons token
    | child outline => exact (List.Sublist.refl _).append ih

/-- Parts in the middle may be left out. -/
theorem hull_eq_of_sublist {parts others : List Part} (h : others.Sublist parts)
    (hp : Part.Spanned parts) (ho : (Part.tokens parts).Pairwise Token.NotAfter)
    (hf : (Part.tokens others).head? = (Part.tokens parts).head?)
    (hl : (Part.tokens others).getLast? = (Part.tokens parts).getLast?) :
    Span.hull (others.filterMap Part.span) = Span.hull (parts.filterMap Part.span) :=
  hull_eq_of_ends hp (spanned_sublist h hp) ho (ho.sublist (tokens_sublist h)) hf hl

end Part

theorem Expr.tokens_outline_ne_nil (e : Expr) : e.outline.tokens ≠ [] := by
  cases e <;> simp [Expr.outline, Outline.of, Outline.tokens, Part.tokens, Part.tokens_append]

theorem Part.getLast?_tokens_child (parts : List Part) (e : Expr) :
    (Part.tokens (parts ++ [.child e.outline])).getLast? = e.outline.tokens.getLast? := by
  have hchild : Part.tokens [.child e.outline] = e.outline.tokens := List.append_nil _
  obtain ⟨last, hl⟩ := List.getLast?_isSome.2 e.tokens_outline_ne_nil |> Option.isSome_iff_exists.1
  rw [Part.tokens_append, hchild, List.getLast?_append, hl]
  rfl

-- ---------------------------------------------------------------------------
-- Nodes
-- ---------------------------------------------------------------------------

theorem Expr.outline?_sublist_outlineElse (alternative : Option (Token × Expr)) :
    (Expr.outline? (alternative.map Prod.snd)).Sublist (Expr.outlineElse alternative) := by
  cases alternative with
  | none => exact .slnil
  | some found => exact .cons _ (.refl _)

theorem Part.ofToken?_getLast?_sublist (tokens : List Token) :
    (Part.ofToken? tokens.getLast?).Sublist (tokens.map .token) := by
  refine List.Sublist.map _ ?_
  cases hl : tokens.getLast? with
  | none => exact List.nil_sublist _
  | some last => exact List.singleton_sublist.2 (List.mem_of_getLast? hl)

theorem Expr.hull_storedParts (e : Expr) (hp : Part.Spanned e.outline.parts)
    (ho : (Part.tokens e.outline.parts).Pairwise Token.NotAfter) :
    Span.hull (e.storedParts.filterMap Part.span) =
      Span.hull (e.outline.parts.filterMap Part.span) := by
  have hfirst (part : Part) (parts : List Part) : [part].Sublist (part :: parts) :=
    List.singleton_sublist.2 List.mem_cons_self
  cases e with
  | forLoop keyword opening loopVar inWord sequence closing body =>
    let declared := loopVar.toList.map fun name : Token =>
      Part.child (.of (.expr (.var name)) [.token name])
    let others := [Part.token keyword] ++ declared ++ .child sequence.outline ::
      Part.ofToken? closing ++ [.child body.outline]
    have hperm : (Expr.storedParts (.forLoop keyword opening loopVar inWord sequence closing
        body)).Perm others :=
      (List.Perm.cons _ List.perm_append_comm).append_right _
    have hhead : ([Part.token keyword] ++ declared).Sublist
        (.token keyword :: Part.ofToken? opening ++ declared ++ Part.ofToken? inWord) :=
      ((hfirst _ _).append (.refl declared)).trans (List.sublist_append_left _ _)
    rw [Span.hull_perm (hperm.filterMap _)]
    refine Part.hull_eq_of_sublist ((hhead.append (.refl _)).append (.refl _)) hp ho rfl ?_
    rw [Part.getLast?_tokens_child]
    exact (Part.getLast?_tokens_child _ body).symm
  | conditional keyword opening condition closing consequent alternative =>
    have hfront := (hfirst (.token keyword) (Part.ofToken? opening)).append
      (hfirst (.child condition.outline) (Part.ofToken? closing))
    refine Part.hull_eq_of_sublist (hfront.append (.cons_cons _
      (Expr.outline?_sublist_outlineElse alternative))) hp ho rfl ?_
    let front := Part.token keyword :: Part.ofToken? opening ++
      .child condition.outline :: Part.ofToken? closing
    rcases alternative with _ | ⟨token, alternative⟩
    · exact (Part.getLast?_tokens_child [.token keyword, .child condition.outline]
        consequent).trans (Part.getLast?_tokens_child front consequent).symm
    · have hall := Part.getLast?_tokens_child (front ++ [.child consequent.outline, .token token])
        alternative
      rw [List.append_assoc] at hall
      exact (Part.getLast?_tokens_child [.token keyword, .child condition.outline,
        .child consequent.outline] alternative).trans hall.symm
  | index target opening arguments closing =>
    refine Part.hull_eq_of_sublist ((List.Sublist.refl _).append
      (Part.ofToken?_getLast?_sublist closing)) hp ho ?_ ?_
    · simp [Expr.storedParts, Expr.outline, Outline.of, Outline.parts, Part.tokens]
    · simp only [Expr.storedParts, Expr.outline, Outline.of, Outline.parts, Part.tokens_append,
        Part.ofToken?, Part.tokens_map, List.getLast?_append]
      cases closing.getLast? <;> rfl
  | whileLoop keyword opening condition closing body =>
    have hfront := (hfirst (.token keyword) (Part.ofToken? opening)).append
      (hfirst (.child condition.outline) (Part.ofToken? closing))
    refine Part.hull_eq_of_sublist (hfront.append (.refl [Part.child body.outline])) hp ho rfl ?_
    exact (Part.getLast?_tokens_child [.token keyword, .child condition.outline] body).trans
      (Part.getLast?_tokens_child _ body).symm
  | assignment | binary | block | call | control | function | group | literal | member
  | namespaced | repeatLoop | unary | var | invalid => rfl

theorem Token.pairwise_ends {tokens others : List Token}
    (ho : (tokens ++ others).Pairwise Token.NotAfter) :
    (tokens.head?.toList ++ tokens.getLast?.toList ++ others).Pairwise Token.NotAfter := by
  obtain ⟨hi, hr, hc⟩ := List.pairwise_append.1 ho
  cases tokens with
  | nil => exact hr
  | cons first rest =>
    obtain ⟨last, hl⟩ := Option.isSome_iff_exists.1
      (List.getLast?_isSome.2 (List.cons_ne_nil first rest))
    have hm := List.mem_of_getLast? hl
    have hends : first.NotAfter last := by
      rcases List.mem_cons.1 hm with rfl | hm
      · exact .inl rfl
      · exact (List.pairwise_cons.1 hi).1 last hm
    rw [hl]
    refine List.pairwise_cons.2 ⟨?_, List.pairwise_cons.2 ⟨hc last hm, hr⟩⟩
    exact List.forall_mem_cons.2 ⟨hends, hc first List.mem_cons_self⟩

theorem Item.hull_storedParts (role : ListRole) (item : Item)
    (ho : (Part.tokens (item.outline role).parts).Pairwise Token.NotAfter) :
    Span.hull ((item.storedParts role).filterMap Part.span) =
      Span.hull ((item.outline role).parts.filterMap Part.span) := by
  cases item with
  | unreadable tokens comma =>
    let kept := tokens.head?.toList ++ tokens.getLast?.toList ++ comma.toList
    have hstored : (Item.unreadable tokens comma).storedParts role = kept.map .token := by
      simp [kept, Item.storedParts, Part.ofToken?]
    have hparts : ((Item.unreadable tokens comma).outline role).parts =
        (tokens ++ comma.toList).map .token :=
      List.map_append.symm
    rw [hparts, Part.tokens_map] at ho
    rw [hstored, hparts]
    apply Part.hull_eq_of_ends (Part.spanned_tokens _) (Part.spanned_tokens _) <;>
      rw [Part.tokens_map]
    · exact ho
    · exact Token.pairwise_ends ho
    · rw [Part.tokens_map]
      cases tokens <;> rfl
    · rw [Part.tokens_map]
      cases tokens with
      | nil => rfl
      | cons first rest => simp [kept, List.getLast?_append, List.getLast?_cons]
  | positional | named | ellipsis | missing | stub => rfl

-- ---------------------------------------------------------------------------
-- Documents
-- ---------------------------------------------------------------------------

theorem Node.hull_storedParts (node : Node) (hp : Part.Spanned node.outline.parts)
    (ho : (Part.tokens node.outline.parts).Pairwise Token.NotAfter) :
    Span.hull (node.storedParts.filterMap Part.span) =
      Span.hull (node.outline.parts.filterMap Part.span) := by
  cases node with
  | expr e => exact e.hull_storedParts hp ho
  | argument item => exact item.hull_storedParts .arguments ho
  | parameter item => exact item.hull_storedParts .parameters ho

/-- Whatever text is read, the tokens of a node that are not stored make no difference to where it
is. -/
theorem Document.span_eq_stored (source : String) (range : Span) (text : List Char) :
    ∀ found ∈ (ofText source range text).walk,
      found.span = Span.hull (found.node.storedParts.filterMap Part.span) := by
  intro found hm
  have hplaced := Forest.placed_walk (placed_parts source range text) found hm
  have hlaid := laid_parts source range text fun _ => Reading.listsFit_true
  have hown : found.node.outline = found.outline := (Forest.own_walk hlaid.own found hm).eq
  have hspan : found.outline.span = Span.hull (found.outline.parts.filterMap Part.span) := by
    obtain ⟨_, _, _, _⟩ := found
    exact hplaced.1.1
  rw [found.node.hull_storedParts (hown ▸ hplaced.2.spanned) (hown ▸ hplaced.2.ordered), hown]
  exact hspan

/-- The first of the two brackets that close an index is not stored. -/
theorem Document.span_index_stored :
    ∃ found ∈ (parse "x[[1]]").walk, found.node.kindName = "Index" ∧ found.span = some ⟨0, 6⟩ ∧
      found.span = Span.hull (found.node.storedParts.filterMap Part.span) := by
  have hany : ((parse "x[[1]]").walk.any fun found =>
      found.node.kindName = "Index" && found.span = some ⟨0, 6⟩) = true := by
    decide +kernel
  obtain ⟨found, hm, hfound⟩ := List.any_eq_true.1 hany
  rw [Bool.and_eq_true, decide_eq_true_eq, decide_eq_true_eq] at hfound
  exact ⟨found, hm, hfound.1, hfound.2, span_eq_stored _ _ _ found hm⟩

end LenientR
