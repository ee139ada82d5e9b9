import LenientR.Proofs.Grammar.Items

/-!
# How far the grammar looks

What a part of a text is read as depends on the tokens it takes and on the kind of the token after
them, newlines aside where those count for nothing. So the part is read the same with other tokens
after it that look alike (`Trace.Local`), and it ends in a token that counts (`Trace.Firm`).
-/

namespace LenientR

/-- In a mode, tokens cannot be told apart by what comes right in front of them. -/
structure Alike (m : Mode) (a b : List Token) : Prop where
  head : headKind a = headKind b
  lines : m ≠ .top → headKind (skipLines a) = headKind (skipLines b)

namespace Alike

variable {m : Mode} {a b : List Token}

theorem cons {token : Token} (h : token.kind ≠ .endOfLine) (m : Mode) (a b : List Token) :
    Alike m (token :: a) (token :: b) where
  head := rfl
  lines _ := by
    rw [skipLines_of_ne (headKind_cons token a ▸ h), skipLines_of_ne (headKind_cons token b ▸ h)]
    rfl

theorem append (h : Alike m a b) (front : List Token) : Alike m (front ++ a) (front ++ b) where
  head := by
    cases front with
    | nil => exact h.head
    | cons token rest => rfl
  lines hm := by
    induction front with
    | nil => exact h.lines hm
    | cons token rest ih =>
      by_cases hl : token.kind = .endOfLine
      · simpa [skipLines, hl] using ih
      · simp [skipLines, hl]

theorem settle (h : Alike m a b) : headKind (m.settle a) = headKind (m.settle b) := by
  unfold Mode.settle
  split
  · rename_i hs
    exact h.lines fun ht => by simp [ht, Mode.top] at hs
  · exact h.head

theorem beforeElse (h : Alike m a b) : headKind (m.beforeElse a) = headKind (m.beforeElse b) := by
  unfold Mode.beforeElse
  split
  · rename_i hs
    exact h.lines fun ht => by simp [ht, Mode.top] at hs
  · exact h.head

theorem of_ne_top (h : Alike m a b) (hm : m ≠ .top) (m' : Mode) : Alike m' a b :=
  ⟨h.head, fun _ => h.lines hm⟩

end Alike

theorem Mode.length_settle_le (m : Mode) (tokens : List Token) :
    (m.settle tokens).length ≤ tokens.length := by
  unfold settle
  split
  · exact (List.dropWhile_suffix _).length_le
  · exact Nat.le_refl _

theorem Mode.bracketed_ne_top (m : Mode) : m.bracketed ≠ .top := nofun

theorem Mode.block_ne_top : Mode.block ≠ .top := nofun

theorem dropWhile_kind_eq_iff {skips : Kind → Bool} (h : skips .endOfFile = false)
    {a b : List Token} : a.dropWhile (skips ·.kind) = b ↔
      ∃ gone, a = gone ++ b ∧ (∀ token ∈ gone, skips token.kind = true) ∧
        skips (headKind b) = false := by
  constructor
  · rintro rfl
    refine ⟨a.takeWhile (skips ·.kind), List.takeWhile_append_dropWhile.symm,
      fun token hm => List.all_eq_true.1 List.all_takeWhile token hm, ?_⟩
    have hd := List.head?_dropWhile_not (skips ·.kind) a
    cases ha : a.dropWhile (skips ·.kind) with
    | nil => exact h
    | cons token rest => simpa [ha] using hd
  · rintro ⟨gone, rfl, hg, hb⟩
    rw [List.dropWhile_append_of_pos hg]
    cases b with
    | nil => rfl
    | cons token rest => exact List.dropWhile_cons_of_neg (by simpa using hb)

/-- What is read stays as it is with other tokens after it that look alike. -/
def Trace.Local (m : Mode) (t : Trace) : Prop :=
  ∀ a b, t a b → ∃ own, a = own ++ b ∧ ∀ b', Alike m b b' → t (own ++ b') b'

/-- What is read is local, and ends in a token that is no newline and the newlines after it that
count for nothing. -/
structure Trace.Firm (m : Mode) (t : Trace) : Prop where
  isLocal : t.Local m
  ends : ∀ a b, t a b → ∃ own token rest, a = own ++ token :: rest ∧ token.kind ≠ .endOfLine ∧
    m.settle rest = b

namespace Trace

variable {m m' : Mode} {r q : Trace} {holds : List Token → Prop}

theorem Local.mul (hr : r.Local m) (hq : q.Local m) : (r * q).Local m := by
  rintro a b ⟨c, hac, hcb⟩
  obtain ⟨own, rfl, hown⟩ := hr a c hac
  obtain ⟨more, rfl, hmore⟩ := hq c b hcb
  refine ⟨own ++ more, (List.append_assoc ..).symm, fun b' hb => ?_⟩
  rw [List.append_assoc]
  exact ⟨more ++ b', hown _ (hb.append more), hmore b' hb⟩

theorem Local.widen (h : r.Local m) (hm : m' ≠ .top) : r.Local m' := by
  intro a b hab
  obtain ⟨own, ha, hown⟩ := h a b hab
  exact ⟨own, ha, fun b' hb => hown b' (hb.of_ne_top hm m)⟩

theorem local_never : never.Local m := fun _ _ h => h.elim

theorem local_any {traces : ι → Trace} (h : ∀ i, (traces i).Local m) : (any traces).Local m := by
  rintro a b ⟨i, hi⟩
  obtain ⟨own, ha, hown⟩ := h i a b hi
  exact ⟨own, ha, fun b' hb => ⟨i, hown b' hb⟩⟩

theorem local_check (h : ∀ a b, Alike m a b → holds a → holds b) : (check holds).Local m := by
  rintro a b ⟨ha, rfl⟩
  exact ⟨[], rfl, fun b' hb => ⟨h a b' hb ha, rfl⟩⟩

theorem local_dropWhile {skips : Kind → Bool} (h : skips .endOfFile = false) :
    (⟨fun a b => a.dropWhile (skips ·.kind) = b⟩ : Trace).Local m := by
  intro a b hab
  obtain ⟨gone, rfl, hg, hb⟩ := (dropWhile_kind_eq_iff h).1 hab
  exact ⟨gone, rfl, fun b' hb' => (dropWhile_kind_eq_iff h).2 ⟨gone, rfl, hg, hb'.head ▸ hb⟩⟩

theorem local_lines : lines.Local m := @local_dropWhile m (· = .endOfLine) rfl

theorem local_separators : separators.Local m := @local_dropWhile m Kind.separates rfl

theorem local_toElse : (toElse m).Local m := by
  intro a b h
  unfold toElse Mode.beforeElse at h ⊢
  split at h
  · obtain ⟨own, ha, hown⟩ := local_lines (m := m) a b h
    refine ⟨own, ha, fun b' hb => ?_⟩
    simp only [if_true, *]
    exact hown b' hb
  · exact ⟨[], h, fun b' _ => by simp [*]⟩

theorem local_stop (level : Level) : (stop level).Local m :=
  local_check fun _ _ hb h => hb.head ▸ h

theorem Firm.mul_check (hr : r.Firm m) (h : ∀ a b, Alike m a b → holds a → holds b) :
    (r * check holds).Firm m where
  isLocal := hr.isLocal.mul (local_check h)
  ends a b hab := hr.ends a b ((Trace.mul_check holds r a b).1 hab).1

theorem Firm.mul_stop (hr : r.Firm m) (level : Level) : (r * stop level).Firm m :=
  hr.mul_check fun _ _ hb h => hb.head ▸ h

theorem Local.mul_firm (hr : r.Local m) (hq : q.Firm m) : (r * q).Firm m where
  isLocal := hr.mul hq.isLocal
  ends := by
    rintro a b ⟨c, hac, hcb⟩
    obtain ⟨own, rfl, _⟩ := hr a c hac
    obtain ⟨more, token, rest, rfl, hk, hs⟩ := hq.ends c b hcb
    exact ⟨own ++ more, token, rest, (List.append_assoc ..).symm, hk, hs⟩

theorem Firm.mul_body (hr : r.Firm m) (hq : q.Firm m) : (r * lines * q * stop .help).Firm m :=
  ((hr.isLocal.mul local_lines).mul_firm hq).mul_stop .help

theorem firm_never : never.Firm m := ⟨local_never, fun _ _ h => h.elim⟩

theorem firm_any {traces : ι → Trace} (h : ∀ i, (traces i).Firm m) : (any traces).Firm m where
  isLocal := local_any fun i => (h i).isLocal
  ends := fun a b ⟨i, hi⟩ => (h i).ends a b hi

/-- A token is gone over whatever follows it, newlines that count for nothing included. -/
theorem exists_own_of_taken {f : Kind → Bool} {token : Token} {a b : List Token}
    (h : token.taken f m a b) : ∃ own, a = token :: (own ++ b) ∧
      ∀ b', Alike m b b' → token.taken f m (token :: (own ++ b')) b' := by
  obtain ⟨hk, rest, rfl, hb⟩ := h
  unfold Mode.settle at hb
  split at hb
  · obtain ⟨own, rfl, hown⟩ := local_lines (m := m) rest b hb
    refine ⟨own, rfl, fun b' hb' => ⟨hk, own ++ b', rfl, ?_⟩⟩
    simp only [Mode.settle, *, if_true]
    exact hown b' hb'
  · exact ⟨[], by simp [hb], fun b' _ => ⟨hk, b', rfl, by simp [Mode.settle, *]⟩⟩

theorem kind_ne_of_taken {f : Kind → Bool} (hf : f .endOfLine = false) {token : Token}
    {a b : List Token} (h : token.taken f m a b) : token.kind ≠ .endOfLine := by
  intro he
  obtain ⟨hk, rest, rfl, _⟩ := h
  rw [he, hf] at hk
  cases hk

theorem firm_taken {f : Kind → Bool} (token : Token) (hf : f .endOfLine = false := by rfl) :
    (token.taken f m).Firm m where
  isLocal a b h := by
    obtain ⟨own, rfl, hown⟩ := exists_own_of_taken h
    exact ⟨token :: own, rfl, hown⟩
  ends a b h := by
    obtain ⟨_, rest, rfl, hb⟩ := id h
    exact ⟨[], token, rest, rfl, kind_ne_of_taken hf h, hb⟩

theorem local_taken {f : Kind → Bool} (token : Token) (hf : f .endOfLine = false := by rfl) :
    (token.taken f m).Local m :=
  (firm_taken token hf).isLocal

/-- A keyword and the bracket after it, within which newlines count for nothing. -/
theorem local_head {f f' : Kind → Bool} (keyword opening : Token)
    (hf : f .endOfLine = false := by rfl) (hf' : f' .endOfLine = false := by rfl) :
    (keyword.taken f m * opening.taken f' m * lines).Local m.bracketed :=
  (((local_taken keyword hf).mul (local_taken opening hf')).widen m.bracketed_ne_top).mul local_lines

theorem Local.mul_taken (hr : r.Local m') {f : Kind → Bool} (token : Token)
    (hf : f .endOfLine = false := by rfl) : (r * token.taken f m).Firm m where
  isLocal := by
    rintro a b ⟨c, hac, hcb⟩
    obtain ⟨own, rfl, hown⟩ := hr a c hac
    obtain ⟨more, rfl, hmore⟩ := exists_own_of_taken hcb
    refine ⟨own ++ token :: more, by simp, fun b' hb => ?_⟩
    rw [List.append_assoc, List.cons_append]
    exact ⟨_, hown _ (.cons (kind_ne_of_taken hf hcb) m' _ _), hmore b' hb⟩
  ends := by
    rintro a b ⟨c, hac, hcb⟩
    obtain ⟨own, rfl, _⟩ := hr a c hac
    obtain ⟨more, closing, rest, rfl, hk, hs⟩ := (firm_taken token hf).ends c b hcb
    exact ⟨own ++ more, closing, rest, (List.append_assoc ..).symm, hk, hs⟩

end Trace

open Trace

/-- What an argument that is a value alone starts with is within the value or right after it. -/
theorem Trace.Firm.atValue_mul {m : Mode} {r : Trace} (hr : r.Firm m) :
    (atValue m * r).Local m := by
  intro a b h
  obtain ⟨⟨hellipsis, hnamed⟩, hab⟩ := (Trace.check_mul _ r a b).1 h
  obtain ⟨own, rfl, hown⟩ := hr.isLocal a b hab
  cases own with
  | nil =>
    -- at least one token is taken
    obtain ⟨front, last, rest, he, _, hb⟩ := hr.ends _ b hab
    have hlen := congrArg List.length he
    have hle := m.length_settle_le rest
    rw [hb] at hle
    simp only [List.nil_append, List.length_append, List.length_cons] at hlen
    omega
  | cons first own =>
    refine ⟨first :: own, rfl, fun b' hb' =>
      (Trace.check_mul _ r _ b').2 ⟨⟨hellipsis, ?_⟩, hown b' hb'⟩⟩
    have hsame := (hb'.append own).settle
    simp only [List.cons_append, headKind_cons, List.tail_cons] at hnamed ⊢
    rwa [← hsame]

theorem Trace.local_comma {m : Mode} (terminator : Kind) (comma : Option Token) :
    (Trace.comma terminator m comma).Local m := by
  cases comma with
  | none => exact local_check fun _ _ hb h => hb.head ▸ h
  | some token =>
    rw [Trace.comma]
    exact local_taken token

mutual
/-- An expression is local, and ends in a token that counts. -/
theorem Expr.firm_grown (level : Level) (m : Mode) : (e : Expr) → (e.Grown level m).Firm m
  | .assignment left operator right | .binary left operator right => by
    have hleft := (left.firm_grown level m).isLocal
    simp only [Expr.Grown]
    refine firm_any fun found => ?_
    have hright := right.firm_grown (found.operandLevel operator.kind) m
    exact (((hleft.mul (local_taken operator)).mul local_lines).mul_firm hright).mul_stop _
  | .block opening body (some closing) => by
    have hbody := Expr.local_grownAll .block body
    simp only [Expr.Grown]
    exact (((local_taken opening).widen Mode.block_ne_top).mul hbody).mul_taken closing
  | .call callee opening arguments (some closing) => by
    have hcallee := (callee.firm_grown level m).isLocal
    have hitems := Item.local_grownAll .arguments .rightParen m.bracketed .opening arguments
    simp only [Expr.Grown]
    exact ((((hcallee.mul (local_taken opening)).widen m.bracketed_ne_top).mul local_lines).mul
      hitems).mul_taken closing
  | .control token => by
    rw [Expr.Grown]
    exact firm_taken token
  | .forLoop keyword (some opening) (some loopVar) (some inWord) sequence (some closing) body => by
    have hsequence := (sequence.firm_grown .help m.bracketed).isLocal
    have hbody := body.firm_grown .help m
    simp only [Expr.Grown]
    refine (Local.mul_taken (?_ : Local m.bracketed _) closing).mul_body hbody
    exact ((((local_head keyword opening).mul (local_taken loopVar)).mul (local_taken inWord)).mul
      hsequence).mul (local_stop .help)
  | .function keyword (some opening) parameters (some closing) (some body) => by
    have hitems := Item.local_grownAll .parameters .rightParen m.bracketed .opening parameters
    have hbody := body.firm_grown .help m
    simp only [Expr.Grown]
    refine ((Local.mul_taken (?_ : Local m.bracketed _) closing).mul_check
      fun _ _ _ => id).mul_body hbody
    exact (local_head keyword opening).mul hitems
  | .group opening inner (some closing) => by
    have hinner := (inner.firm_grown .help m.bracketed).isLocal
    simp only [Expr.Grown]
    exact (((((local_taken opening).widen m.bracketed_ne_top).mul local_lines).mul hinner).mul
      (local_stop .help)).mul_taken closing
  | .conditional keyword (some opening) condition (some closing) consequent alternative => by
    have hcondition := (condition.firm_grown .help m.bracketed).isLocal
    have hconsequent := consequent.firm_grown .help m
    simp only [Expr.Grown]
    refine Expr.firm_grownElse m alternative
      ((Local.mul_taken (?_ : Local m.bracketed _) closing).mul_body hconsequent)
    exact ((local_head keyword opening).mul hcondition).mul (local_stop .help)
  | .index target opening arguments [closing] => by
    have htarget := (target.firm_grown level m).isLocal
    have hitems := Item.local_grownAll .arguments .rightSquare m.bracketed .opening arguments
    simp only [Expr.Grown]
    exact ((((htarget.mul (local_taken opening)).widen m.bracketed_ne_top).mul local_lines).mul
      hitems).mul_taken closing
  | .index target opening arguments [first, second] => by
    have htarget := (target.firm_grown level m).isLocal
    have hitems := Item.local_grownAll .arguments .rightSquare m.bracketed .opening arguments
    simp only [Expr.Grown]
    refine (Local.mul_taken (?_ : Local m.bracketed _) first).isLocal.mul_firm (firm_taken second)
    exact (((htarget.mul (local_taken opening)).widen m.bracketed_ne_top).mul
      local_lines).mul hitems
  | .literal token | .var token => by
    simp only [Expr.Grown]
    exact (firm_taken token).mul_check fun _ _ hb h => hb.head ▸ h
  | .member target operator (some name) => by
    have htarget := (target.firm_grown level m).isLocal
    simp only [Expr.Grown]
    exact (htarget.mul (local_taken operator)).mul_firm (firm_taken name)
  | .namespaced package operator (some name) => by
    simp only [Expr.Grown]
    exact ((local_taken package).mul (local_taken operator)).mul_firm (firm_taken name)
  | .repeatLoop keyword body => by
    have hbody := body.firm_grown .help m
    simp only [Expr.Grown]
    exact (firm_taken keyword).mul_body hbody
  | .unary operator operand => by
    simp only [Expr.Grown]
    refine firm_any fun found => ?_
    have hoperand := operand.firm_grown found m
    exact (((local_taken operator).mul local_lines).mul_firm hoperand).mul_stop found
  | .whileLoop keyword (some opening) condition (some closing) body => by
    have hcondition := (condition.firm_grown .help m.bracketed).isLocal
    have hbody := body.firm_grown .help m
    simp only [Expr.Grown]
    refine (Local.mul_taken (?_ : Local m.bracketed _) closing).mul_body hbody
    exact ((local_head keyword opening).mul hcondition).mul (local_stop .help)
  | .block _ _ none | .call _ _ _ none | .function _ none _ _ _ | .function _ _ _ none _
  | .function _ _ _ _ none | .group _ _ none | .conditional _ none _ _ _ _
  | .conditional _ _ _ none _ _ | .index _ _ _ [] | .index _ _ _ (_ :: _ :: _ :: _)
  | .member _ _ none | .namespaced _ _ none | .whileLoop _ none _ _ _ | .whileLoop _ _ _ none _
  | .forLoop _ none _ _ _ _ _ | .forLoop _ _ none _ _ _ _ | .forLoop _ _ _ none _ _ _
  | .forLoop _ _ _ _ _ none _ | .invalid _ => by
    simp only [Expr.Grown]
    exact firm_never
theorem Expr.local_grownAll (m : Mode) : (es : List Expr) → (Expr.GrownAll m es).Local m
  | [] => by
    simp only [Expr.GrownAll]
    exact local_separators.mul (local_check fun _ _ hb h => hb.head ▸ h)
  | e :: rest => by
    have he := (e.firm_grown .help m).isLocal
    have hend : statementEnd.Local m := local_check fun _ _ hb h => hb.head ▸ h
    simp only [Expr.GrownAll]
    exact (((local_separators.mul he).mul (local_stop .help)).mul hend).mul
      (Expr.local_grownAll m rest)
theorem Expr.local_grown? (terminator : Kind) (m : Mode) :
    (value : Option Expr) → (Expr.Grown? terminator m value).Local m
  | some e => by
    simp only [Expr.Grown?]
    exact ((e.firm_grown .help m).mul_stop .help).isLocal
  | none => by
    simp only [Expr.Grown?]
    exact local_check fun _ _ hb h => hb.head ▸ h
theorem Expr.firm_grownElse (m : Mode) {r : Trace} : (alternative : Option (Token × Expr)) →
    r.Firm m → (r * Expr.GrownElse m alternative).Firm m
  | some (keyword, e), hr => by
    simp only [Expr.GrownElse]
    exact hr.isLocal.mul_firm ((((local_toElse.mul (local_taken keyword)).mul
      local_lines).mul_firm (e.firm_grown .help m)).mul_stop .help)
  | none, hr => by
    simp only [Expr.GrownElse]
    exact hr.mul_check fun _ _ hb h => hb.beforeElse ▸ h
theorem Item.local_grown (role : ListRole) (terminator : Kind) (m : Mode) :
    (item : Item) → (item.Grown role terminator m).Local m
  | .positional value _ => by
    simp only [Item.Grown, mul_assoc]
    exact (local_check fun _ _ _ => id).mul
      ((value.firm_grown .help m).mul_stop .help).atValue_mul
  | .named name (some equals) value _ => by
    have hname : (if role = .arguments then Kind.isName .endOfLine
        else decide (Kind.endOfLine = .identifier)) = false := by split <;> rfl
    simp only [Item.Grown]
    exact (((local_taken name hname).mul (local_taken equals)).mul
      (local_check fun _ _ _ => id)).mul (Expr.local_grown? terminator m value)
  | .named name none none _ => by
    have hname : (decide (role = .parameters) && decide (Kind.endOfLine = .identifier)) = false :=
      Bool.and_false _
    simp only [Item.Grown]
    exact (local_taken name hname).mul (local_check fun _ _ hb h => hb.head ▸ h)
  | .ellipsis token _ => by
    rw [Item.Grown]
    exact local_taken token
  | .missing _ => by
    rw [Item.Grown]
    exact local_check fun _ _ hb h => hb.head ▸ h
  | .named _ none (some _) _ | .unreadable _ _ | .stub => by
    simp only [Item.Grown]
    exact local_never
theorem Item.local_grownAll (role : ListRole) (terminator : Kind) (m : Mode) (slot : Reading.Slot) :
    (items : List Item) → (Item.GrownAll role terminator m slot items).Local m
  | [] => by
    rw [Item.GrownAll]
    exact local_check fun _ _ hb h => hb.head ▸ h
  | item :: rest => by
    rw [Item.GrownAll]
    exact ((item.local_grown role terminator m).mul (local_comma terminator item.comma)).mul
      (Item.local_grownAll role terminator m (.after item) rest)
end

end LenientR
