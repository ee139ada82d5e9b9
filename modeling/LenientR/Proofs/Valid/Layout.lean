import LenientR.Outline.Basic
import LenientR.Proofs.Grammar.Start
import Mathlib.Algebra.Order.Monoid.Unbundled.Basic

/-!
# How a tree is laid out

The tokens of a tree that is read by the grammar stand in the text as they stand in the tree, with
nothing between them but newlines and, between the statements of a block, semicolons
(`Outline.laid`).
-/

namespace LenientR

namespace Kind

def isLayout (kind : Kind) : Bool := kind = .endOfLine || kind = .semicolon || kind = .endOfFile

def isMalformed (kind : Kind) : Bool :=
  kind = .unknown || kind = .unterminatedString || kind = .invalidNumber

def isContent (kind : Kind) : Bool := !kind.isLayout && !kind.isMalformed && kind ≠ .comment

end Kind

namespace Trace

/-- One trace says at least as much as another. -/
instance : PartialOrder Trace where
  le r q := ∀ a b, r a b → q a b
  le_refl _ _ _ := id
  le_trans _ _ _ h k a b hr := k a b (h a b hr)
  le_antisymm _ _ h k := ext fun a b => ⟨h a b, k a b⟩

instance : MulLeftMono Trace := ⟨fun _ _ _ h _ c ⟨b, hr, hq⟩ => ⟨b, hr, h b c hq⟩⟩

instance : MulRightMono Trace := ⟨fun _ _ _ h a _ ⟨b, hr, hq⟩ => ⟨b, h a b hr, hq⟩⟩

def gap (fits : Kind → Bool) : Trace :=
  ⟨fun a b => ∃ between, a = between ++ b ∧ ∀ token ∈ between, fits token.kind = true⟩

def only (token : Token) : Trace := ⟨fun a b => a = token :: b ∧ token.kind.isContent = true⟩

end Trace

open Trace

def Kind.isNewline (kind : Kind) : Bool := kind = .endOfLine

/-- What may stand between the parts of a node: newlines and, in a block, semicolons. -/
def Node.parting : Node → Kind → Bool
  | .expr (.block _ _ _) => Kind.separates
  | _ => Kind.isNewline

mutual
/-- What a node is written with, from its first token to its last one. -/
def Outline.laid : Outline → Trace
  | .node _ _ [] => 1
  | .node label _ (.token token :: rest) => only token * Part.laid label.parting rest
  | .node label _ (.child outline :: rest) => outline.laid * Part.laid label.parting rest
def Part.laid (fits : Kind → Bool) : List Part → Trace
  | [] => 1
  | .token token :: rest => gap fits * only token * Part.laid fits rest
  | .child outline :: rest => gap fits * outline.laid * Part.laid fits rest
end

-- ---------------------------------------------------------------------------
-- Gaps
-- ---------------------------------------------------------------------------

namespace Trace

abbrev newlines : Trace := gap Kind.isNewline

variable {fits : Kind → Bool} {r : Trace}

theorem never_le (r : Trace) : never ≤ r := fun _ _ h => h.elim

theorem any_le {traces : ι → Trace} (h : ∀ i, traces i ≤ r) : any traces ≤ r :=
  fun a b ⟨i, hi⟩ => h i a b hi

theorem check_le (holds : List Token → Prop) : check holds ≤ 1 := fun _ _ h => h.2

theorem stop_le (level : Level) : stop level ≤ 1 := check_le _

theorem one_le_gap (fits : Kind → Bool) : 1 ≤ gap fits :=
  fun _ _ h => ⟨[], h, by simp⟩

theorem gap_mono {fits' : Kind → Bool} (h : ∀ kind, fits kind = true → fits' kind = true) :
    gap fits ≤ gap fits' :=
  fun _ _ ⟨between, ha, hf⟩ => ⟨between, ha, fun token hm => h _ (hf token hm)⟩

@[simp] theorem gap_mul_gap (fits : Kind → Bool) : gap fits * gap fits = gap fits := by
  refine le_antisymm ?_ ?_
  · rintro a c ⟨_, ⟨first, rfl, hf⟩, second, rfl, hs⟩
    refine ⟨first ++ second, (List.append_assoc ..).symm, fun token hm => ?_⟩
    exact (List.mem_append.1 hm).elim (hf token) (hs token)
  · exact fun a b h => ⟨a, ⟨[], rfl, by simp⟩, h⟩

@[simp] theorem gap_mul_gap_mul (fits : Kind → Bool) (r : Trace) :
    gap fits * (gap fits * r) = gap fits * r := by
  rw [← mul_assoc, gap_mul_gap]

theorem lines_le : lines ≤ newlines := by
  rintro a b rfl
  refine ⟨a.takeWhile (·.kind = .endOfLine), List.takeWhile_append_dropWhile.symm,
    List.all_eq_true.1 List.all_takeWhile⟩

theorem toElse_le (m : Mode) : toElse m ≤ newlines := by
  rintro a b rfl
  unfold Mode.beforeElse
  split
  · exact lines_le _ _ rfl
  · exact one_le_gap _ _ _ rfl

theorem separators_le : separators ≤ gap Kind.separates := by
  rintro a b rfl
  refine ⟨a.takeWhile (·.kind.separates), List.takeWhile_append_dropWhile.symm,
    List.all_eq_true.1 List.all_takeWhile⟩

theorem newlines_le_separates : newlines ≤ gap Kind.separates :=
  gap_mono fun kind h => by simp [Kind.separates, of_decide_eq_true h]

theorem taken_le {f : Kind → Bool} (hf : ∀ kind, f kind = true → kind.isContent = true)
    (m : Mode) (token : Token) : token.taken f m ≤ only token * newlines := by
  rintro a b ⟨hk, rest, rfl, rfl⟩
  refine ⟨rest, ⟨rfl, hf _ hk⟩, ?_⟩
  unfold Mode.settle
  split
  · exact lines_le _ _ rfl
  · exact one_le_gap _ _ _ rfl

end Trace

theorem Part.laid_append (fits : Kind → Bool) (parts others : List Part) :
    Part.laid fits (parts ++ others) = Part.laid fits parts * Part.laid fits others := by
  induction parts with
  | nil => simp only [List.nil_append, Part.laid, one_mul]
  | cons part rest ih =>
    cases part <;> simp only [List.cons_append, Part.laid, ih, mul_assoc]

/-- A gap more in front of parts makes no difference, where one follows them. -/
theorem Part.gap_mul_laid_mul_gap (fits : Kind → Bool) (parts : List Part) :
    gap fits * (Part.laid fits parts * gap fits) = Part.laid fits parts * gap fits := by
  cases parts with
  | nil => simp only [Part.laid, one_mul, gap_mul_gap]
  | cons part rest => cases part <;> simp only [Part.laid, mul_assoc, gap_mul_gap_mul]

theorem Part.gap_mul_laid_mul_gap_mul (fits : Kind → Bool) (parts : List Part) (r : Trace) :
    gap fits * (Part.laid fits parts * (gap fits * r)) = Part.laid fits parts * (gap fits * r) := by
  have h := congrArg (· * r) (Part.gap_mul_laid_mul_gap fits parts)
  simpa only [mul_assoc] using h

-- ---------------------------------------------------------------------------
-- The tree that is read is laid out
-- ---------------------------------------------------------------------------

theorem Kind.isContent_of_joins {level found : Level} {kind : Kind}
    (h : level.joins found kind = true) : kind.isContent = true := by
  cases kind <;> first | rfl | cases h

theorem Kind.isContent_of_isName {kind : Kind} (h : kind.isName = true) :
    kind.isContent = true := by
  cases kind <;> first | rfl | cases h

namespace Trace

theorem taken_eq_le {kind : Kind} (h : kind.isContent = true) (m : Mode) (token : Token) :
    token.taken (· = kind) m ≤ only token * newlines :=
  taken_le (fun found hk => by rwa [of_decide_eq_true hk]) m token

theorem taken_eq_and_le {kind : Kind} (h : kind.isContent = true) (p : Bool) (m : Mode)
    (token : Token) : token.taken (fun found => found = kind && p) m ≤ only token * newlines :=
  taken_le (fun found hk => by
    have hf : found = kind := of_decide_eq_true (Bool.and_eq_true .. ▸ hk).1
    rwa [hf]) m token

theorem le_gap_mul (fits : Kind → Bool) (r : Trace) : r ≤ gap fits * r :=
  (one_mul r).symm.trans_le (mul_le_mul' (one_le_gap fits) le_rfl)

theorem comma_le (terminator : Kind) (m : Mode) (found : Option Token) :
    comma terminator m found ≤ Part.laid Kind.isNewline (Part.ofToken? found) * newlines := by
  cases found with
  | none =>
    simp only [Part.ofToken?, Option.toList_none, List.map_nil, Part.laid, one_mul]
    exact (check_le _).trans (one_le_gap _)
  | some token =>
    simp only [Part.ofToken?, Option.toList_some, List.map_cons, List.map_nil, Part.laid, mul_one,
      mul_assoc]
    exact (taken_eq_le rfl m token).trans (le_gap_mul _ _)

end Trace

@[simp] theorem Node.parting_ofItem (role : ListRole) (item : Item) :
    (Node.ofItem role item).parting = Kind.isNewline := by
  cases role <;> rfl

mutual
theorem Expr.laid_of_grown (level : Level) (m : Mode) :
    (e : Expr) → e.Grown level m ≤ e.outline.laid * newlines
  | .assignment left operator right | .binary left operator right => by
    simp only [Expr.Grown]
    refine any_le fun found => ?_
    calc
      _ ≤ left.outline.laid * newlines * (only operator * newlines) * newlines *
            (right.outline.laid * newlines) * 1 := by
          gcongr
          · exact left.laid_of_grown level m
          · exact taken_le
              (fun kind h => Kind.isContent_of_joins (Bool.and_eq_true .. ▸ h).1) m operator
          · exact lines_le
          · exact right.laid_of_grown _ m
          · exact stop_le _
      _ = _ := by
        simp only [Expr.outline, Outline.of, Outline.laid, Part.laid, Node.parting, mul_assoc,
          mul_one, gap_mul_gap_mul]
  | .block opening body (some closing) => by
    simp only [Expr.Grown]
    calc
      _ ≤ only opening * gap Kind.separates *
            (Part.laid Kind.separates (Expr.outlines body) * gap Kind.separates) *
            (only closing * newlines) := by
          gcongr
          · exact (taken_eq_le rfl m opening).trans (mul_le_mul' le_rfl newlines_le_separates)
          · exact Expr.laid_of_grownAll .block body
          · exact taken_eq_le rfl m closing
      _ = _ := by
        simp only [Expr.outline, Outline.of, List.cons_append, Outline.laid, Part.laid_append,
          Part.ofToken?, Option.toList_some, List.map_cons, List.map_nil, Part.laid, Node.parting,
          mul_one, mul_assoc, Part.gap_mul_laid_mul_gap_mul]
  | .call callee opening arguments (some closing) => by
    simp only [Expr.Grown]
    calc
      _ ≤ callee.outline.laid * newlines * (only opening * newlines) * newlines *
            (Part.laid Kind.isNewline (Item.outlines .arguments arguments) * newlines) *
            (only closing * newlines) := by
          gcongr
          · exact callee.laid_of_grown level m
          · exact taken_eq_and_le rfl _ m opening
          · exact lines_le
          · exact Item.laid_of_grownAll .arguments _ _ _ arguments
          · exact taken_eq_le rfl m closing
      _ = _ := by
        simp only [Expr.outline, Outline.of, List.cons_append, Outline.laid, Part.laid_append,
          Part.ofToken?, Option.toList_some, List.map_cons, List.map_nil, Part.laid, Node.parting,
          mul_one, mul_assoc, gap_mul_gap_mul, Part.gap_mul_laid_mul_gap_mul]
  | .control token => by
    simp only [Expr.Grown, Expr.outline, Outline.of, Outline.laid, Part.laid, mul_one]
    exact taken_le (fun kind h => by cases kind <;> first | rfl | cases h) m token
  | .forLoop keyword (some opening) (some loopVar) (some inWord) sequence (some closing) body => by
    simp only [Expr.Grown]
    calc
      _ ≤ only keyword * newlines * (only opening * newlines) * newlines *
            (only loopVar * newlines) * (only inWord * newlines) *
            (sequence.outline.laid * newlines) * 1 * (only closing * newlines) * newlines *
            (body.outline.laid * newlines) * 1 := by
          gcongr
          · exact taken_eq_le rfl m keyword
          · exact taken_eq_le rfl m opening
          · exact lines_le
          · exact taken_eq_le rfl _ loopVar
          · exact taken_eq_le rfl _ inWord
          · exact sequence.laid_of_grown .help _
          · exact stop_le _
          · exact taken_eq_le rfl m closing
          · exact lines_le
          · exact body.laid_of_grown .help m
          · exact stop_le _
      _ = _ := by
        simp only [Expr.outline, Outline.of, List.cons_append, List.nil_append, Outline.laid,
          Part.ofToken?, Option.toList_some, List.map_cons, List.map_nil, Part.laid, Node.parting,
          mul_one, mul_assoc, gap_mul_gap_mul]
  | .function keyword (some opening) parameters (some closing) (some body) => by
    simp only [Expr.Grown]
    calc
      _ ≤ only keyword * newlines * (only opening * newlines) * newlines *
            (Part.laid Kind.isNewline (Item.outlines .parameters parameters) * newlines) *
            (only closing * newlines) * 1 * newlines * (body.outline.laid * newlines) * 1 := by
          gcongr
          · exact taken_le (fun kind h => by cases kind <;> first | rfl | cases h) m keyword
          · exact taken_eq_le rfl m opening
          · exact lines_le
          · exact Item.laid_of_grownAll .parameters _ _ _ parameters
          · exact taken_eq_le rfl m closing
          · exact check_le _
          · exact lines_le
          · exact body.laid_of_grown .help m
          · exact stop_le _
      _ = _ := by
        simp only [Expr.outline, Expr.outline?, Outline.of, List.cons_append, List.nil_append,
          Outline.laid, Part.laid_append, Part.ofToken?, Option.toList_some, List.map_cons,
          List.map_nil, Part.laid, Node.parting, mul_one, mul_assoc, gap_mul_gap_mul,
          Part.gap_mul_laid_mul_gap_mul]
  | .group opening inner (some closing) => by
    simp only [Expr.Grown]
    calc
      _ ≤ only opening * newlines * newlines * (inner.outline.laid * newlines) * 1 *
            (only closing * newlines) := by
          gcongr
          · exact taken_eq_le rfl m opening
          · exact lines_le
          · exact inner.laid_of_grown .help _
          · exact stop_le _
          · exact taken_eq_le rfl m closing
      _ = _ := by
        simp only [Expr.outline, Outline.of, Outline.laid, Part.ofToken?, Option.toList_some,
          List.map_cons, List.map_nil, Part.laid, Node.parting, mul_one, mul_assoc,
          gap_mul_gap_mul]
  | .conditional keyword (some opening) condition (some closing) consequent alternative => by
    simp only [Expr.Grown]
    calc
      _ ≤ only keyword * newlines * (only opening * newlines) * newlines *
            (condition.outline.laid * newlines) * 1 * (only closing * newlines) * newlines *
            (consequent.outline.laid * newlines) * 1 *
            (Part.laid Kind.isNewline (Expr.outlineElse alternative) * newlines) := by
          gcongr
          · exact taken_eq_le rfl m keyword
          · exact taken_eq_le rfl m opening
          · exact lines_le
          · exact condition.laid_of_grown .help _
          · exact stop_le _
          · exact taken_eq_le rfl m closing
          · exact lines_le
          · exact consequent.laid_of_grown .help m
          · exact stop_le _
          · exact Expr.laid_of_grownElse m alternative
      _ = _ := by
        simp only [Expr.outline, Outline.of, List.cons_append, List.nil_append, Outline.laid,
          Part.ofToken?, Option.toList_some, List.map_cons, List.map_nil, Part.laid, Node.parting,
          mul_one, mul_assoc, gap_mul_gap_mul, Part.gap_mul_laid_mul_gap]
  | .index target opening arguments [closing] => by
    simp only [Expr.Grown]
    calc
      _ ≤ target.outline.laid * newlines * (only opening * newlines) * newlines *
            (Part.laid Kind.isNewline (Item.outlines .arguments arguments) * newlines) *
            (only closing * newlines) := by
          gcongr
          · exact target.laid_of_grown level m
          · exact taken_eq_and_le rfl _ m opening
          · exact lines_le
          · exact Item.laid_of_grownAll .arguments _ _ _ arguments
          · exact taken_eq_le rfl m closing
      _ = _ := by
        simp only [Expr.outline, Outline.of, List.cons_append, Outline.laid, Part.laid_append,
          List.map_cons, List.map_nil, Part.laid, Node.parting, mul_one, mul_assoc,
          gap_mul_gap_mul, Part.gap_mul_laid_mul_gap_mul]
  | .index target opening arguments [first, second] => by
    simp only [Expr.Grown]
    calc
      _ ≤ target.outline.laid * newlines * (only opening * newlines) * newlines *
            (Part.laid Kind.isNewline (Item.outlines .arguments arguments) * newlines) *
            (only first * newlines) * (only second * newlines) := by
          gcongr
          · exact target.laid_of_grown level m
          · exact taken_eq_and_le rfl _ m opening
          · exact lines_le
          · exact Item.laid_of_grownAll .arguments _ _ _ arguments
          · exact taken_eq_le rfl m first
          · exact taken_eq_le rfl m second
      _ = _ := by
        simp only [Expr.outline, Outline.of, List.cons_append, Outline.laid, Part.laid_append,
          List.map_cons, List.map_nil, Part.laid, Node.parting, mul_one, mul_assoc,
          gap_mul_gap_mul, Part.gap_mul_laid_mul_gap_mul]
  | .literal token | .var token => by
    simp only [Expr.Grown, Expr.outline, Outline.of, Outline.laid, Part.laid, mul_one]
    refine (mul_le_mul' (taken_le (fun kind h => ?_) m token) (check_le _)).trans_eq (mul_one _)
    cases kind <;> first | rfl | cases h
  | .member target operator (some name) => by
    simp only [Expr.Grown]
    calc
      _ ≤ target.outline.laid * newlines * (only operator * newlines) * (only name * newlines) := by
          gcongr
          · exact target.laid_of_grown level m
          · exact taken_le (fun kind h => by cases kind <;> first | rfl | cases h) m operator
          · exact taken_le (fun _ => Kind.isContent_of_isName) m name
      _ = _ := by
        simp only [Expr.outline, Outline.of, Outline.laid, Part.ofToken?, Option.toList_some,
          List.map_cons, List.map_nil, Part.laid, Node.parting, mul_one, mul_assoc]
  | .namespaced package operator (some name) => by
    simp only [Expr.Grown]
    calc
      _ ≤ only package * newlines * (only operator * newlines) * (only name * newlines) := by
          gcongr
          · exact taken_le (fun _ => Kind.isContent_of_isName) m package
          · exact taken_le (fun kind h => by cases kind <;> first | rfl | cases h) m operator
          · exact taken_le (fun _ => Kind.isContent_of_isName) m name
      _ = _ := by
        simp only [Expr.outline, Outline.of, Outline.laid, Part.ofToken?, Option.toList_some,
          List.map_cons, List.map_nil, Part.laid, Node.parting, mul_one, mul_assoc]
  | .repeatLoop keyword body => by
    simp only [Expr.Grown]
    calc
      _ ≤ only keyword * newlines * newlines * (body.outline.laid * newlines) * 1 := by
          gcongr
          · exact taken_eq_le rfl m keyword
          · exact lines_le
          · exact body.laid_of_grown .help m
          · exact stop_le _
      _ = _ := by
        simp only [Expr.outline, Outline.of, Outline.laid, Part.laid, Node.parting, mul_one,
          mul_assoc, gap_mul_gap_mul]
  | .unary operator operand => by
    simp only [Expr.Grown]
    refine any_le fun found => ?_
    calc
      _ ≤ only operator * newlines * newlines * (operand.outline.laid * newlines) * 1 := by
          gcongr
          · refine taken_le (fun kind h => ?_) m operator
            have hs := Level.startsExpression_of_ofSign? (of_decide_eq_true h)
            cases kind <;> first | rfl | cases hs
          · exact lines_le
          · exact operand.laid_of_grown found m
          · exact stop_le _
      _ = _ := by
        simp only [Expr.outline, Outline.of, Outline.laid, Part.laid, Node.parting, mul_one,
          mul_assoc, gap_mul_gap_mul]
  | .whileLoop keyword (some opening) condition (some closing) body => by
    simp only [Expr.Grown]
    calc
      _ ≤ only keyword * newlines * (only opening * newlines) * newlines *
            (condition.outline.laid * newlines) * 1 * (only closing * newlines) * newlines *
            (body.outline.laid * newlines) * 1 := by
          gcongr
          · exact taken_eq_le rfl m keyword
          · exact taken_eq_le rfl m opening
          · exact lines_le
          · exact condition.laid_of_grown .help _
          · exact stop_le _
          · exact taken_eq_le rfl m closing
          · exact lines_le
          · exact body.laid_of_grown .help m
          · exact stop_le _
      _ = _ := by
        simp only [Expr.outline, Outline.of, List.cons_append, List.nil_append, Outline.laid,
          Part.ofToken?, Option.toList_some, List.map_cons, List.map_nil, Part.laid, Node.parting,
          mul_one, mul_assoc, gap_mul_gap_mul]
  | .block _ _ none | .call _ _ _ none | .function _ none _ _ _ | .function _ _ _ none _
  | .function _ _ _ _ none | .group _ _ none | .conditional _ none _ _ _ _
  | .conditional _ _ _ none _ _ | .index _ _ _ [] | .index _ _ _ (_ :: _ :: _ :: _)
  | .member _ _ none | .namespaced _ _ none | .whileLoop _ none _ _ _ | .whileLoop _ _ _ none _
  | .forLoop _ none _ _ _ _ _ | .forLoop _ _ none _ _ _ _ | .forLoop _ _ _ none _ _ _
  | .forLoop _ _ _ _ _ none _ | .invalid _ => by
    simp only [Expr.Grown]
    exact never_le _
theorem Expr.laid_of_grownAll (m : Mode) : (es : List Expr) →
    Expr.GrownAll m es ≤ Part.laid Kind.separates (Expr.outlines es) * gap Kind.separates
  | [] => by
    simp only [Expr.GrownAll, Expr.outlines, Part.laid, one_mul]
    exact (mul_le_mul' separators_le (check_le _)).trans_eq (mul_one _)
  | e :: rest => by
    simp only [Expr.GrownAll, Expr.outlines, Part.laid]
    calc
      _ ≤ gap Kind.separates * (e.outline.laid * gap Kind.separates) * 1 * 1 *
            (Part.laid Kind.separates (Expr.outlines rest) * gap Kind.separates) := by
          gcongr
          · exact separators_le
          · exact (e.laid_of_grown .help m).trans (mul_le_mul' le_rfl newlines_le_separates)
          · exact stop_le _
          · exact check_le _
          · exact Expr.laid_of_grownAll m rest
      _ = _ := by simp only [mul_one, mul_assoc, Part.gap_mul_laid_mul_gap]
theorem Expr.laid_of_grown? (terminator : Kind) (m : Mode) : (value : Option Expr) →
    Expr.Grown? terminator m value ≤ Part.laid Kind.isNewline (Expr.outline? value) * newlines
  | none => by
    simp only [Expr.Grown?, Expr.outline?, Part.laid, one_mul]
    exact (check_le _).trans (one_le_gap _)
  | some e => by
    simp only [Expr.Grown?, Expr.outline?, Part.laid, mul_one, mul_assoc]
    exact ((mul_le_mul' (e.laid_of_grown .help m) (stop_le _)).trans_eq (mul_one _)).trans
      (le_gap_mul _ _)
theorem Expr.laid_of_grownElse (m : Mode) : (alternative : Option (Token × Expr)) →
    Expr.GrownElse m alternative ≤
      Part.laid Kind.isNewline (Expr.outlineElse alternative) * newlines
  | none => by
    simp only [Expr.GrownElse, Expr.outlineElse, Part.laid, one_mul]
    exact (check_le _).trans (one_le_gap _)
  | some (keyword, e) => by
    simp only [Expr.GrownElse, Expr.outlineElse]
    calc
      _ ≤ newlines * (only keyword * newlines) * newlines * (e.outline.laid * newlines) * 1 := by
          gcongr
          · exact toElse_le m
          · exact taken_eq_le rfl m keyword
          · exact lines_le
          · exact e.laid_of_grown .help m
          · exact stop_le _
      _ = _ := by simp only [Part.laid, mul_one, mul_assoc, gap_mul_gap_mul]
theorem Item.laid_of_grown (role : ListRole) (terminator : Kind) (m : Mode) : (item : Item) →
    item.Grown role terminator m * comma terminator m item.comma ≤
      (item.outline role).laid * newlines
  | .positional value found => by
    simp only [Item.Grown]
    calc
      _ ≤ 1 * 1 * (value.outline.laid * newlines) * 1 *
            (Part.laid Kind.isNewline (Part.ofToken? found) * newlines) := by
          gcongr
          · exact check_le _
          · exact check_le _
          · exact value.laid_of_grown .help m
          · exact stop_le _
          · exact comma_le _ _ _
      _ = _ := by
        simp only [Item.outline, Outline.of, Outline.laid, Node.parting_ofItem, one_mul, mul_one,
          mul_assoc, Part.gap_mul_laid_mul_gap]
  | .named name (some equals) value found => by
    simp only [Item.Grown]
    calc
      _ ≤ only name * newlines * (only equals * newlines) * 1 *
            (Part.laid Kind.isNewline (Expr.outline? value) * newlines) *
            (Part.laid Kind.isNewline (Part.ofToken? found) * newlines) := by
          gcongr
          · refine taken_le (fun kind h => ?_) m name
            cases role <;> cases kind <;> first | rfl | cases h
          · exact taken_eq_le rfl m equals
          · exact check_le _
          · exact Expr.laid_of_grown? terminator m value
          · exact comma_le _ _ _
      _ = _ := by
        simp only [Item.outline, Outline.of, List.cons_append, List.nil_append, Outline.laid,
          Part.laid_append, Part.ofToken?, Option.toList_some, List.map_cons, List.map_nil,
          Part.laid, Node.parting_ofItem, mul_one, mul_assoc, Part.gap_mul_laid_mul_gap]
  | .named name none none found => by
    simp only [Item.Grown]
    calc
      _ ≤ only name * newlines * 1 *
            (Part.laid Kind.isNewline (Part.ofToken? found) * newlines) := by
          gcongr
          · refine taken_le (fun kind h => ?_) m name
            cases role <;> cases kind <;> first | rfl | cases h
          · exact check_le _
          · exact comma_le _ _ _
      _ = _ := by
        simp only [Item.outline, Expr.outline?, Outline.of, Part.ofToken?, Option.toList_none,
          List.map_nil, List.append_nil, List.cons_append, List.nil_append, Outline.laid,
          Node.parting_ofItem, mul_one, mul_assoc, Part.gap_mul_laid_mul_gap]
  | .ellipsis token found => by
    simp only [Item.Grown]
    calc
      _ ≤ only token * newlines * (Part.laid Kind.isNewline (Part.ofToken? found) * newlines) := by
          gcongr
          · exact taken_eq_le rfl m token
          · exact comma_le _ _ _
      _ = _ := by
        simp only [Item.outline, Outline.of, Outline.laid, Node.parting_ofItem, mul_assoc,
          Part.gap_mul_laid_mul_gap]
  | .missing none => by
    simp only [Item.Grown, Item.outline, Outline.of, Part.ofToken?, Option.toList_none,
      List.map_nil, Outline.laid, one_mul]
    exact ((mul_le_mul' (check_le _) (check_le _)).trans_eq (mul_one _)).trans (one_le_gap _)
  | .missing (some token) => by
    simp only [Item.Grown, Item.outline, Outline.of, Part.ofToken?, Option.toList_some,
      List.map_cons, List.map_nil, Outline.laid, Part.laid, mul_one]
    exact (mul_le_mul' (check_le _) (taken_eq_le rfl m token)).trans_eq (one_mul _)
  | .named _ none (some _) _ | .unreadable _ _ | .stub => by
    simp only [Item.Grown]
    exact fun _ _ ⟨_, h, _⟩ => h.elim
theorem Item.laid_of_grownAll (role : ListRole) (terminator : Kind) (m : Mode)
    (slot : Reading.Slot) : (items : List Item) → Item.GrownAll role terminator m slot items ≤
      Part.laid Kind.isNewline (Item.outlines role items) * newlines
  | [] => by
    simp only [Item.GrownAll, Item.outlines, Part.laid, one_mul]
    exact (check_le _).trans (one_le_gap _)
  | item :: rest => by
    simp only [Item.GrownAll, Item.outlines, Part.laid]
    calc
      _ ≤ 1 * ((item.outline role).laid * newlines) *
            (Part.laid Kind.isNewline (Item.outlines role rest) * newlines) := by
          rw [one_mul]
          exact mul_le_mul' (item.laid_of_grown role terminator m)
            (Item.laid_of_grownAll role terminator m (.after item) rest)
      _ ≤ newlines * ((item.outline role).laid * newlines) *
            (Part.laid Kind.isNewline (Item.outlines role rest) * newlines) := by
          gcongr
          exact one_le_gap _
      _ = _ := by simp only [mul_assoc, Part.gap_mul_laid_mul_gap]
end

-- ---------------------------------------------------------------------------
-- What is laid out is in the tree
-- ---------------------------------------------------------------------------

/-- What is gone over are these tokens and separators between them. -/
def Trace.Yields (r : Trace) (tokens : List Token) : Prop :=
  ∀ a b, r a b → ∃ own, a = own ++ b ∧ own.filter (·.kind.isContent) = tokens ∧
    ∀ token ∈ own, token.kind.isContent = true ∨ token.kind.separates = true

namespace Trace

variable {fits : Kind → Bool}

theorem yields_one : (1 : Trace).Yields [] := fun _ _ h => ⟨[], h, rfl, by simp⟩

theorem yields_only (token : Token) : (only token).Yields [token] := by
  rintro a b ⟨rfl, h⟩
  exact ⟨[token], rfl, by simp [h], by simp [h]⟩

theorem Yields.mul {r q : Trace} {tokens others : List Token} (hr : r.Yields tokens)
    (hq : q.Yields others) : (r * q).Yields (tokens ++ others) := by
  rintro a c ⟨b, hab, hbc⟩
  obtain ⟨first, rfl, rfl, hf⟩ := hr a b hab
  obtain ⟨second, rfl, rfl, hs⟩ := hq b c hbc
  refine ⟨first ++ second, (List.append_assoc ..).symm, List.filter_append .., fun token hm => ?_⟩
  exact (List.mem_append.1 hm).elim (hf token) (hs token)

theorem yields_gap (hf : ∀ kind, fits kind = true → kind.separates = true) :
    (gap fits).Yields [] := by
  rintro a b ⟨between, rfl, h⟩
  refine ⟨between, rfl, List.filter_eq_nil_iff.2 fun token hm => ?_,
    fun token hm => .inr (hf _ (h token hm))⟩
  have hs := hf _ (h token hm)
  simp only [Kind.separates, Bool.or_eq_true, decide_eq_true_eq] at hs
  rcases hs with hs | hs <;> rw [hs] <;> decide

end Trace

theorem Node.separates_of_parting {label : Node} {kind : Kind} (h : label.parting kind = true) :
    kind.separates = true := by
  unfold Node.parting at h
  split at h
  · exact h
  · simp [Kind.separates, of_decide_eq_true h]

mutual
theorem Outline.yields_laid : (outline : Outline) → outline.laid.Yields outline.tokens
  | .node _ _ [] => yields_one
  | .node _ _ (.token token :: rest) =>
    (yields_only token).mul (Part.yields_laid (fun _ => Node.separates_of_parting) rest)
  | .node _ _ (.child outline :: rest) =>
    outline.yields_laid.mul (Part.yields_laid (fun _ => Node.separates_of_parting) rest)
theorem Part.yields_laid {fits : Kind → Bool}
    (hf : ∀ kind, fits kind = true → kind.separates = true) :
    (parts : List Part) → (Part.laid fits parts).Yields (Part.tokens parts)
  | [] => yields_one
  | .token token :: rest => ((yields_gap hf).mul (yields_only token)).mul (Part.yields_laid hf rest)
  | .child outline :: rest =>
    ((yields_gap hf).mul outline.yields_laid).mul (Part.yields_laid hf rest)
end

end LenientR
