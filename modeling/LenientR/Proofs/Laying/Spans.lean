import LenientR.Proofs.Laying.Reading
import LenientR.Proofs.Scanning.Tiles

/-!
# Where nodes are

A node covers what its parts cover. The tokens of a node stand in order, and where one of them
stands in for something missing it may come twice (`Token.NotAfter`), so the spans of nodes are
nested and in order as their tokens are (`Document.SpansNested`).
-/

namespace LenientR

def Token.NotAfter (a b : Token) : Prop := a = b ∨ a.Before b

theorem Token.start_le_stop (token : Token) : token.start ≤ token.stop :=
  Nat.le_add_right _ _

theorem Token.NotAfter.start_le {a b : Token} (h : a.NotAfter b) : a.start ≤ b.start := by
  rcases h with rfl | ⟨hl, hs⟩ <;> omega

theorem Token.NotAfter.stop_le {a b : Token} (h : a.NotAfter b) : a.stop ≤ b.stop := by
  have := b.start_le_stop
  rcases h with rfl | ⟨hl, hs⟩ <;> omega

-- ---------------------------------------------------------------------------
-- Hulls
-- ---------------------------------------------------------------------------

namespace Span

theorem eq_unset_iff {a : Span} : a = unset ↔ a.start = 0 ∧ a.stop = 0 := by
  cases a
  simp [unset]

theorem merge_of_ne {a b : Span} (ha : a ≠ unset) (hb : b ≠ unset) :
    a.merge b = ⟨min a.start b.start, max a.stop b.stop⟩ := by
  rw [merge, if_neg ha, if_neg hb]

theorem merge_ne_unset {a b : Span} (ha : a ≠ unset) (hb : b ≠ unset) : a.merge b ≠ unset := by
  rw [merge_of_ne ha hb]
  rw [Ne, eq_unset_iff] at ha hb ⊢
  dsimp only
  omega

theorem merge_assoc (a b c : Span) : (a.merge b).merge c = a.merge (b.merge c) := by
  by_cases ha : a = unset
  · rw [ha, unset_merge, unset_merge]
  by_cases hb : b = unset
  · rw [hb, merge_unset, unset_merge]
  by_cases hc : c = unset
  · rw [hc, merge_unset, merge_unset]
  · rw [merge_of_ne (merge_ne_unset ha hb) hc, merge_of_ne ha (merge_ne_unset hb hc),
      merge_of_ne ha hb, merge_of_ne hb hc, Nat.min_assoc, Nat.max_assoc]

theorem foldl_merge (a b : Span) (rest : List Span) :
    rest.foldl merge (a.merge b) = a.merge (rest.foldl merge b) := by
  induction rest generalizing b with
  | nil => rfl
  | cons c rest ih => rw [List.foldl_cons, List.foldl_cons, merge_assoc, ih]

theorem hull_cons (a : Span) (rest : List Span) :
    hull (a :: rest) = some ((hull rest).elim a a.merge) := by
  cases rest with
  | nil => rfl
  | cons b rest => exact congrArg some (foldl_merge a b rest)

end Span

/-- A span from the start of one of the tokens to the end of one, with all of them within; there is
none only of no tokens. -/
def Covers (tokens : List Token) : Option Span → Prop
  | none => tokens = []
  | some span =>
    (∀ token ∈ tokens, span.start ≤ token.start ∧ token.stop ≤ span.stop) ∧
      (∃ token ∈ tokens, token.start = span.start) ∧ ∃ token ∈ tokens, token.stop = span.stop

theorem covers_token (token : Token) : Covers [token] (some token.span) :=
  ⟨by simp [Token.span], ⟨token, by simp, rfl⟩, ⟨token, by simp, rfl⟩⟩

theorem Covers.le {tokens : List Token} {span : Span} (h : Covers tokens (some span)) :
    span.start ≤ span.stop := by
  obtain ⟨hall, ⟨token, hm, hs⟩, _⟩ := h
  have := (hall token hm).2
  have := token.start_le_stop
  omega

/-- A merge takes no notice of an unset span, yet over tokens in order it covers both. -/
theorem Covers.merge {first second : List Token} {a b : Span} (ha : Covers first (some a))
    (hb : Covers second (some b)) (ho : ∀ x ∈ first, ∀ y ∈ second, x.NotAfter y) :
    Covers (first ++ second) (some (a.merge b)) := by
  obtain ⟨hain, ⟨x, hx, hxs⟩, ⟨x', hx', hxe⟩⟩ := ha
  obtain ⟨hbin, ⟨y, hy, hys⟩, ⟨y', hy', hye⟩⟩ := hb
  have hs := (ho x hx y hy).start_le
  have he := (ho x' hx' y' hy').stop_le
  have hm : a.merge b = ⟨a.start, b.stop⟩ := by
    by_cases ha : a = .unset
    · -- a token that ends at 0 takes no room, and is the same as any token it is not after
      have hz : b.start = 0 := by
        obtain ⟨_, hae⟩ := Span.eq_unset_iff.1 ha
        have := x'.start_le_stop
        rcases ho x' hx' y hy with rfl | ⟨hl, _⟩ <;> omega
      rw [ha, Span.unset_merge, Span.unset, ← hz]
    by_cases hb : b = .unset
    · obtain ⟨_, hbe⟩ := Span.eq_unset_iff.1 hb
      have hz : a.stop = b.stop := by omega
      rw [hb, Span.merge_unset, ← hb, ← hz]
    · rw [Span.merge_of_ne ha hb, Nat.min_eq_left (by omega), Nat.max_eq_right (by omega)]
  rw [hm]
  refine ⟨List.forall_mem_append.2 ⟨fun z hz => ?_, fun z hz => ?_⟩,
    ⟨x, List.mem_append_left _ hx, hxs⟩, ⟨y', List.mem_append_right _ hy', hye⟩⟩
  · have hle := (ho z hz y' hy').stop_le
    exact ⟨(hain z hz).1, hye ▸ hle⟩
  · have hle := (ho x hx z hz).start_le
    exact ⟨hxs ▸ hle, (hbin z hz).2⟩

theorem Covers.merge? {first second : List Token} {a : Span} {b : Option Span}
    (ha : Covers first (some a)) (hb : Covers second b)
    (ho : ∀ x ∈ first, ∀ y ∈ second, x.NotAfter y) :
    Covers (first ++ second) (some (b.elim a a.merge)) := by
  cases b with
  | none =>
    rw [show second = [] from hb, List.append_nil]
    exact ha
  | some b => exact ha.merge hb ho

-- ---------------------------------------------------------------------------
-- Nodes
-- ---------------------------------------------------------------------------

mutual
def Outline.Spanned : Outline → Prop
  | .node _ span parts => span = Span.hull (parts.filterMap Part.span) ∧ Part.Spanned parts
def Part.Spanned : List Part → Prop
  | [] => True
  | .token _ :: rest => Part.Spanned rest
  | .child outline :: rest => outline.Spanned ∧ Part.Spanned rest
end

mutual
theorem Outline.covers : (outline : Outline) → outline.Spanned →
    outline.tokens.Pairwise Token.NotAfter → Covers outline.tokens outline.span
  | .node label span parts, h, ho => by
    rw [Outline.span, h.1]
    exact Part.covers parts h.2 ho
theorem Part.covers : (parts : List Part) → Part.Spanned parts →
    (Part.tokens parts).Pairwise Token.NotAfter →
      Covers (Part.tokens parts) (Span.hull (parts.filterMap Part.span))
  | [], _, _ => rfl
  | .token token :: rest, h, ho => by
    obtain ⟨hr, ho⟩ := List.pairwise_cons.1 ho
    rw [List.filterMap_cons_some (show (Part.token token).span = some token.span from rfl),
      Span.hull_cons]
    exact (covers_token token).merge? (Part.covers rest h ho) (by simpa using hr)
  | .child outline :: rest, h, ho => by
    obtain ⟨hi, ho, hr⟩ := List.pairwise_append.1 ho
    have hc := outline.covers h.1 hi
    have hrest := Part.covers rest h.2 ho
    cases hs : outline.span with
    | none =>
      rw [hs] at hc
      rw [Part.tokens, show outline.tokens = [] from hc,
        List.filterMap_cons_none (show (Part.child outline).span = none from hs)]
      exact hrest
    | some span =>
      rw [hs] at hc
      rw [List.filterMap_cons_some (show (Part.child outline).span = some span from hs),
        Span.hull_cons]
      exact hc.merge? hrest hr
end

theorem Part.spanned_append {parts others : List Part} (h : Part.Spanned parts)
    (k : Part.Spanned others) : Part.Spanned (parts ++ others) := by
  induction parts with
  | nil => exact k
  | cons part rest ih =>
    cases part with
    | token token => exact ih h
    | child outline => exact ⟨h.1, ih h.2⟩

theorem Part.spanned_tokens (tokens : List Token) : Part.Spanned (tokens.map .token) := by
  induction tokens with
  | nil => trivial
  | cons token rest ih => exact ih

-- ---------------------------------------------------------------------------
-- What is laid stands in order
-- ---------------------------------------------------------------------------

namespace Reading

variable {holds : Expr → Prop} {s t : State} {parts : List Part}

theorem Laid.spanned (h : Laid holds s parts t) : Part.Spanned parts := by
  induction h with
  | passed => exact Part.spanned_tokens _
  | stay => trivial
  | append _ _ h k => exact Part.spanned_append h k
  | expr _ ho _ h => exact ⟨ho ▸ ⟨rfl, h⟩, trivial⟩
  | item ho _ h => exact ⟨ho ▸ ⟨rfl, h⟩, trivial⟩

/-- The tokens of some parts stand in order, and none is after a token that is left. -/
structure InOrder (before : List Token) (kept after : List Token) : Prop where
  ordered : kept.Pairwise Token.NotAfter
  ahead : ∀ a ∈ kept, ∀ b ∈ after, a.NotAfter b
  subset : kept ⊆ before
  suffix : after <:+ before

theorem Laid.inOrder (h : Laid holds s parts t) (hs : s.rest.Pairwise Token.Before) :
    InOrder s.rest (Part.tokens parts) t.rest := by
  induction h with
  | @passed s t gone kept hr hk _ =>
    rw [hr] at hs
    obtain ⟨hg, _, hc⟩ := List.pairwise_append.1 hs
    rw [Part.tokens_map, hr]
    exact {
      ordered := (hg.sublist hk).imp .inr
      ahead := fun a ha b hb => .inr (hc a (hk.subset ha) b hb)
      subset := fun a ha => List.mem_append_left _ (hk.subset ha)
      suffix := List.suffix_append _ _ }
  | @stay s token rest hr =>
    rw [hr] at hs
    obtain ⟨hc, _⟩ := List.pairwise_cons.1 hs
    rw [hr]
    exact {
      ordered := List.pairwise_singleton _ _
      ahead := by
        rintro a ha b hb
        obtain rfl := List.mem_singleton.1 ha
        exact (List.mem_cons.1 hb).imp Eq.symm (hc b)
      subset := by simp [Part.tokens]
      suffix := List.suffix_refl _ }
  | append _ _ h k =>
    have h := h hs
    have k := k (hs.sublist h.suffix.sublist)
    rw [Part.tokens_append]
    exact {
      ordered := List.pairwise_append.2 ⟨h.ordered, k.ordered, fun a ha b hb =>
        h.ahead a ha b (k.subset hb)⟩
      ahead := fun a ha b hb => (List.mem_append.1 ha).elim
        (fun ha => h.ahead a ha b (k.suffix.subset hb)) fun ha => k.ahead a ha b hb
      subset := List.append_subset.2 ⟨h.subset, fun a ha => h.suffix.subset (k.subset ha)⟩
      suffix := k.suffix.trans h.suffix }
  | expr _ ho _ h =>
    rw [ho, Part.tokens_child_of]
    exact h hs
  | item ho _ h =>
    rw [ho, Part.tokens_child_of]
    exact h hs

end Reading

-- ---------------------------------------------------------------------------
-- All nodes of a tree
-- ---------------------------------------------------------------------------

mutual
/-- What a node hands down to its children holds of all nodes below it. -/
theorem Outline.forall_walk {P : Outline → Prop}
    (hc : ∀ outline, P outline → ∀ child ∈ outline.children, P child) (address : List Nat) :
    (outline : Outline) → P outline → ∀ found ∈ outline.walk address, P found.outline
  | .node label span parts, h => by
    rw [Outline.walk]
    exact List.forall_mem_cons.2 ⟨h, Part.forall_walk hc address 0 parts (hc _ h)⟩
theorem Part.forall_walk {P : Outline → Prop}
    (hc : ∀ outline, P outline → ∀ child ∈ outline.children, P child) (address : List Nat)
    (index : Nat) : (parts : List Part) → (∀ child ∈ parts.filterMap Part.outline?, P child) →
      ∀ found ∈ Part.walk address index parts, P found.outline
  | [], _ => by simp [Part.walk]
  | .token _ :: rest, h => by
    rw [Part.walk]
    exact Part.forall_walk hc address index rest h
  | .child outline :: rest, h => by
    obtain ⟨ho, hr⟩ := List.forall_mem_cons.1 h
    rw [Part.walk]
    exact List.forall_mem_append.2 ⟨outline.forall_walk hc (address ++ [index]) ho,
      Part.forall_walk hc address (index + 1) rest hr⟩
end

theorem Part.tokens_child_sublist {parts : List Part} {child : Outline}
    (h : child ∈ parts.filterMap Part.outline?) : child.tokens.Sublist (Part.tokens parts) := by
  induction parts with
  | nil => cases h
  | cons part rest ih =>
    cases part with
    | token token => exact (ih h).cons token
    | child outline =>
      rcases List.mem_cons.1 h with rfl | h
      · exact List.sublist_append_left _ _
      · exact (ih h).trans (List.sublist_append_right _ _)

theorem Part.pairwise_children {r : Token → Token → Prop} {parts : List Part}
    (h : (Part.tokens parts).Pairwise r) :
    (parts.filterMap Part.outline?).Pairwise fun a b =>
      ∀ x ∈ a.tokens, ∀ y ∈ b.tokens, r x y := by
  induction parts with
  | nil => exact .nil
  | cons part rest ih =>
    cases part with
    | token token => exact ih (List.pairwise_cons.1 h).2
    | child outline =>
      obtain ⟨_, hr, hc⟩ := List.pairwise_append.1 h
      refine List.pairwise_cons.2 ⟨fun child hm x hx y hy => ?_, ih hr⟩
      exact hc x hx y ((Part.tokens_child_sublist hm).subset hy)

theorem Part.spanned_child {parts : List Part} (h : Part.Spanned parts) :
    ∀ child ∈ parts.filterMap Part.outline?, child.Spanned := by
  induction parts with
  | nil => simp
  | cons part rest ih =>
    cases part with
    | token token => exact ih h
    | child outline => exact List.forall_mem_cons.2 ⟨h.1, ih h.2⟩

/-- Parts whose nodes cover what they hold, and whose tokens are in order and out of some. -/
structure Part.Placed (tokens : List Token) (r : Token → Token → Prop) (parts : List Part) :
    Prop where
  spanned : Part.Spanned parts
  ordered : (Part.tokens parts).Pairwise r
  subset : Part.tokens parts ⊆ tokens

def Outline.Placed (tokens : List Token) (r : Token → Token → Prop) (outline : Outline) : Prop :=
  outline.Spanned ∧ Part.Placed tokens r outline.parts

section
variable {tokens : List Token} {r : Token → Token → Prop} {parts : List Part} {outline : Outline}

theorem Outline.tokens_parts (outline : Outline) : Part.tokens outline.parts = outline.tokens := by
  cases outline
  rfl

theorem Part.Placed.child (h : Part.Placed tokens r parts)
    (hm : outline ∈ parts.filterMap Part.outline?) : outline.Placed tokens r := by
  have hs := Part.tokens_child_sublist hm
  have hspanned := Part.spanned_child h.spanned outline hm
  rw [← outline.tokens_parts] at hs
  refine ⟨hspanned, ?_, h.ordered.sublist hs, fun token ht => h.subset (hs.subset ht)⟩
  cases outline
  exact hspanned.2

theorem Outline.Placed.covers (h : outline.Placed tokens r) (hr : ∀ a b, r a b → a.NotAfter b) :
    Covers outline.tokens outline.span :=
  outline.covers h.1 (outline.tokens_parts ▸ h.2.ordered.imp (hr _ _))

theorem Part.Placed.pairwise_span (h : Part.Placed tokens r parts)
    (hr : ∀ a b, r a b → a.NotAfter b) {R : Span → Span → Prop}
    (hR : ∀ {first second : List Token} {a b : Span}, Covers first (some a) →
      Covers second (some b) → (∀ x ∈ first, ∀ y ∈ second, r x y) → R a b) :
    ((parts.filterMap Part.outline?).filterMap Outline.span).Pairwise R := by
  refine List.pairwise_filterMap.2 ((Part.pairwise_children h.ordered).imp_of_mem ?_)
  intro a b ha hb hab x hx y hy
  exact hR (hx ▸ (h.child ha).covers hr) (hy ▸ (h.child hb).covers hr) hab

theorem Forest.placed_walk {forest : Forest} (h : Part.Placed tokens r forest.parts) :
    ∀ found ∈ forest.walk, found.outline.Placed tokens r :=
  Part.forall_walk (fun _ h _ hm => h.2.child hm) [] 0 forest.parts fun _ hm => h.child hm

end

theorem Covers.within {tokens : List Token} {outer span : Span} (h : Covers tokens (some span))
    (ht : ∀ token ∈ tokens, outer.start ≤ token.start ∧ token.stop ≤ outer.stop) :
    outer.contains span = true := by
  obtain ⟨_, ⟨x, hx, hxs⟩, ⟨y, hy, hye⟩⟩ := h
  rw [Span.contains, Bool.and_eq_true, decide_eq_true_eq, decide_eq_true_eq, ← hxs, ← hye]
  exact ⟨(ht x hx).1, (ht y hy).2⟩

theorem Covers.contains {first second : List Token} {a : Option Span} {b : Span}
    (ha : Covers first a) (hb : Covers second (some b)) (hs : second ⊆ first) :
    ∃ outer, a = some outer ∧ outer.contains b = true := by
  cases a with
  | none =>
    obtain ⟨_, ⟨x, hx, _⟩, _⟩ := hb
    rw [show first = [] from ha] at hs
    exact absurd (hs hx) List.not_mem_nil
  | some outer => exact ⟨outer, rfl, hb.within fun token ht => ha.1 token (hs ht)⟩

theorem Covers.inOrder {first second : List Token} {a b : Span} (ha : Covers first (some a))
    (hb : Covers second (some b)) (ho : ∀ x ∈ first, ∀ y ∈ second, x.NotAfter y) :
    a.start ≤ b.start ∧ a.stop ≤ b.stop := by
  obtain ⟨hain, ⟨x, hx, hxs⟩, ⟨x', hx', hxe⟩⟩ := ha
  obtain ⟨hbin, ⟨y, hy, hys⟩, ⟨y', hy', hye⟩⟩ := hb
  rw [← hxs, ← hxe, ← hys, ← hye]
  exact ⟨(ho x hx y hy).start_le, (ho x' hx' y' hy').stop_le⟩

theorem Covers.apart {first second : List Token} {a b : Span} (ha : Covers first (some a))
    (hb : Covers second (some b)) (ho : ∀ x ∈ first, ∀ y ∈ second, x.Before y) :
    a.stop ≤ b.start := by
  obtain ⟨_, _, ⟨x, hx, hxe⟩⟩ := ha
  obtain ⟨_, ⟨y, hy, hys⟩, _⟩ := hb
  rw [← hxe, ← hys]
  exact (ho x hx y hy).2

-- ---------------------------------------------------------------------------
-- Documents
-- ---------------------------------------------------------------------------

def Span.InOrder (spans : List Span) : Prop :=
  spans.Pairwise fun a b => a.start ≤ b.start ∧ a.stop ≤ b.stop

def Span.Apart (spans : List Span) : Prop := spans.Pairwise fun a b => a.stop ≤ b.start

/-- How the spans of the nodes lie. Nodes without a place in the source are left out. -/
structure Document.SpansNested (document : Document) : Prop where
  within : ∀ found ∈ document.walk, ∀ span, found.span = some span →
    span.start ≤ span.stop ∧ document.range.contains span = true
  nested : ∀ found ∈ document.walk, ∀ child ∈ found.children, ∀ span, child.span = some span →
    ∃ outer, found.span = some outer ∧ outer.contains span = true
  ordered : ∀ found ∈ document.walk, Span.InOrder (found.children.filterMap Located.span)
  rootsOrdered : Span.InOrder (document.forest.filterMap Outline.span)
  /-- Where something is missing a token may belong to two siblings; in a valid text none does. -/
  apart : document.isValid = true →
    (∀ found ∈ document.walk, Span.Apart (found.children.filterMap Located.span)) ∧
      Span.Apart (document.forest.filterMap Outline.span)

theorem Located.outline_children (found : Located) :
    found.children.map Located.outline = found.outline.children :=
  List.ext_getElem? fun index => by simp [children, Function.comp_def]

theorem Located.span_children (found : Located) :
    found.children.filterMap Located.span = found.outline.children.filterMap Outline.span := by
  rw [← found.outline_children, List.filterMap_map]
  rfl

theorem Forest.outlines_parts (forest : Forest) :
    forest.parts.filterMap Part.outline? = forest := by
  simp [parts, Part.outline?, List.filterMap_map, Function.comp_def]

open Reading in
theorem Document.placed_parts (source : String) (range : Span) (text : List Char) :
    Part.Placed (ofText source range text).tokens Token.NotAfter
      (ofText source range text).forest.parts := by
  have hlaid := laid_parts source range text fun _ => listsFit_true
  have ho := hlaid.inOrder (before_tokens source range text)
  exact ⟨hlaid.spanned, ho.ordered, ho.subset⟩

theorem Document.placed_of_isValid {source : String} {range : Span} {text : List Char}
    (h : (ofText source range text).isValid = true) :
    Part.Placed (ofText source range text).tokens Token.Before
      (ofText source range text).forest.parts := by
  have hp := placed_parts source range text
  refine ⟨hp.spanned, ?_, hp.subset⟩
  rw [tokens_parts_of_isValid h]
  exact (before_tokens source range text).filter _

theorem Document.spansNested_ofText (source : String) {range : Span} {text : List Char}
    (hs : range.start + Text.byteSize text = range.stop) :
    (ofText source range text).SpansNested := by
  have hp := placed_parts source range text
  have hn (a b : Token) : a.NotAfter b → a.NotAfter b := id
  have hwalk := Forest.placed_walk hp
  refine {
    within := fun found hm span hspan => ?_
    nested := fun found hm child hc span hspan => ?_
    ordered := fun found hm => ?_
    rootsOrdered := ?_
    apart := fun hv => ?_ }
  · have hc := (hwalk found hm).covers hn
    rw [show found.outline.span = some span from hspan] at hc
    exact ⟨hc.le, hc.within fun token ht => hs ▸ within_tokens source range text token
      ((hwalk found hm).2.subset (found.outline.tokens_parts ▸ ht))⟩
  · have hm' : child.outline ∈ found.outline.children := by
      rw [← found.outline_children]
      exact List.mem_map_of_mem hc
    have hinner := ((hwalk found hm).2.child hm').covers hn
    rw [show child.outline.span = some span from hspan] at hinner
    refine ((hwalk found hm).covers hn).contains hinner ?_
    rw [← found.outline.tokens_parts]
    exact (Part.tokens_child_sublist hm').subset
  · rw [Located.span_children]
    exact (hwalk found hm).2.pairwise_span hn Covers.inOrder
  · have h := hp.pairwise_span hn (R := fun a b => a.start ≤ b.start ∧ a.stop ≤ b.stop)
      Covers.inOrder
    rw [Forest.outlines_parts] at h
    exact h
  · have hp := placed_of_isValid hv
    have hb (a b : Token) : a.Before b → a.NotAfter b := .inr
    constructor
    · intro found hm
      rw [Located.span_children]
      exact (Forest.placed_walk hp found hm).2.pairwise_span hb Covers.apart
    · have h := hp.pairwise_span hb (R := fun a b => a.stop ≤ b.start) Covers.apart
      rw [Forest.outlines_parts] at h
      exact h

/-- Whatever is read of a source, valid or not, its nodes lie within each other as in the tree, and
next to each other in order. -/
theorem Document.spansNested {source : String} {range : Span} {document : Document}
    (h : parseRange? source range = some document) : document.SpansNested := by
  simp only [parseRange?_eq, Option.map_eq_some_iff] at h
  obtain ⟨text, hslice, rfl⟩ := h
  obtain ⟨_, _, _, _, hsize⟩ := Text.slice?_eq_some.1 hslice
  exact spansNested_ofText source hsize

theorem Document.spansNested_unclosed :
    ∃ document, parseRange? "é; f((a b, [" ⟨4, 13⟩ = some document ∧ document.isValid = false ∧
      document.SpansNested := by
  have hread : (parseRange? "é; f((a b, [" ⟨4, 13⟩).map isValid = some false := by
    rw [parseRange?_eq]
    decide +kernel
  obtain ⟨document, hd, hv⟩ := Option.map_eq_some_iff.1 hread
  exact ⟨document, hd, hv, spansNested hd⟩

end LenientR
