import LenientR.Reading.Statement
import Mathlib.Algebra.Group.Defs

/-!
# Traces

A `Trace` relates the tokens left before a part of a text to those left after it. Traces follow one
another with `*`. The traces here are of single tokens, of the newlines that count for nothing in a
`Mode`, and of conditions on the tokens that come next.
-/

namespace LenientR

structure Trace where
  /-- What is left in the end is left of what was there in the beginning. -/
  Holds : List Token → List Token → Prop

instance : CoeFun Trace fun _ => List Token → List Token → Prop := ⟨Trace.Holds⟩

namespace Trace

@[ext] theorem ext {r q : Trace} (h : ∀ a b, r a b ↔ q a b) : r = q :=
  congrArg mk (funext fun a => funext fun b => propext (h a b))

/-- One trace, and another one from where it ends. The trace of nothing leaves all tokens there. -/
instance : Monoid Trace where
  mul r q := ⟨fun a c => ∃ b, r a b ∧ q b c⟩
  one := ⟨fun a b => a = b⟩
  mul_assoc r q p := ext fun a d =>
    ⟨fun ⟨c, ⟨b, hr, hq⟩, hp⟩ => ⟨b, hr, c, hq, hp⟩, fun ⟨b, hr, c, hq, hp⟩ => ⟨c, ⟨b, hr, hq⟩, hp⟩⟩
  one_mul r := ext fun a b => ⟨fun ⟨_, ha, hr⟩ => ha ▸ hr, fun hr => ⟨a, rfl, hr⟩⟩
  mul_one r := ext fun a b => ⟨fun ⟨_, hr, hb⟩ => hb ▸ hr, fun hr => ⟨b, hr, rfl⟩⟩

theorem mul_apply (r q : Trace) (a c : List Token) : (r * q) a c ↔ ∃ b, r a b ∧ q b c := Iff.rfl

@[simp] theorem one_apply (a b : List Token) : (1 : Trace) a b ↔ a = b := Iff.rfl

def never : Trace := ⟨fun _ _ => False⟩

@[simp] theorem never_apply (a b : List Token) : ¬never a b := id

@[simp] theorem mul_never (r : Trace) : r * never = never :=
  ext fun _ _ => ⟨fun ⟨_, _, h⟩ => h.elim, fun h => h.elim⟩

def any (traces : ι → Trace) : Trace := ⟨fun a b => ∃ i, traces i a b⟩

@[simp] theorem any_apply (traces : ι → Trace) (a b : List Token) :
    any traces a b ↔ ∃ i, traces i a b := Iff.rfl

theorem any_mul (traces : ι → Trace) (r : Trace) : any traces * r = any fun i => traces i * r :=
  ext fun _ _ => ⟨fun ⟨b, ⟨i, hi⟩, hr⟩ => ⟨i, b, hi, hr⟩, fun ⟨i, b, hi, hr⟩ => ⟨b, ⟨i, hi⟩, hr⟩⟩

theorem mul_any (r : Trace) (traces : ι → Trace) : r * any traces = any fun i => r * traces i :=
  ext fun _ _ => ⟨fun ⟨b, hr, i, hi⟩ => ⟨i, b, hr, hi⟩, fun ⟨i, b, hr, hi⟩ => ⟨b, hr, i, hi⟩⟩

/-- A trace under a condition that is not about tokens. -/
def given (p : Prop) (r : Trace) : Trace := ⟨fun a b => p ∧ r a b⟩

@[simp] theorem given_apply (p : Prop) (r : Trace) (a b : List Token) :
    given p r a b ↔ p ∧ r a b := Iff.rfl

@[simp] theorem given_true (r : Trace) : given True r = r :=
  ext fun a b => by simp only [given_apply, true_and]

@[simp] theorem given_mul (p : Prop) (r q : Trace) : given p r * q = given p (r * q) :=
  ext fun _ _ => ⟨fun ⟨b, ⟨hp, hr⟩, hq⟩ => ⟨hp, b, hr, hq⟩, fun ⟨hp, b, hr, hq⟩ => ⟨b, ⟨hp, hr⟩, hq⟩⟩

@[simp] theorem mul_given (p : Prop) (r q : Trace) : r * given p q = given p (r * q) :=
  ext fun _ _ => ⟨fun ⟨b, hr, hp, hq⟩ => ⟨hp, b, hr, hq⟩, fun ⟨hp, b, hr, hq⟩ => ⟨b, hr, hp, hq⟩⟩

def check (holds : List Token → Prop) : Trace := ⟨fun a b => holds a ∧ a = b⟩

@[simp] theorem check_apply (holds : List Token → Prop) (a b : List Token) :
    check holds a b ↔ holds a ∧ a = b := Iff.rfl

@[simp] theorem check_mul (holds : List Token → Prop) (r : Trace) (a c : List Token) :
    (check holds * r) a c ↔ holds a ∧ r a c := by
  constructor
  · rintro ⟨b, ⟨h, rfl⟩, hr⟩
    exact ⟨h, hr⟩
  · rintro ⟨h, hr⟩
    exact ⟨a, ⟨h, rfl⟩, hr⟩

@[simp] theorem mul_check (holds : List Token → Prop) (r : Trace) (a b : List Token) :
    (r * check holds) a b ↔ r a b ∧ holds b := by
  constructor
  · rintro ⟨c, hr, h, rfl⟩
    exact ⟨hr, h⟩
  · rintro ⟨hr, h⟩
    exact ⟨b, hr, h, rfl⟩

end Trace

def headKind (tokens : List Token) : Kind := (tokens.headD ⟨.endOfFile, 0, []⟩).kind

@[simp] theorem headKind_nil : headKind [] = .endOfFile := rfl

@[simp] theorem headKind_cons (token : Token) (rest : List Token) :
    headKind (token :: rest) = token.kind := rfl

theorem headKind_of_head? {token : Token} {tokens : List Token} (h : tokens.head? = some token) :
    headKind tokens = token.kind := by
  obtain ⟨rest, rfl⟩ := List.head?_eq_some_iff.1 h
  rfl

theorem Reading.State.headKind_rest (s : Reading.State) : headKind s.rest = s.kind := rfl

def skipLines (tokens : List Token) : List Token := tokens.dropWhile (·.kind = .endOfLine)

theorem skipLines_of_ne {tokens : List Token} (h : headKind tokens ≠ .endOfLine) :
    skipLines tokens = tokens := by
  cases tokens with
  | nil => rfl
  | cons token rest =>
    rw [headKind_cons] at h
    simp [skipLines, h]

def Trace.lines : Trace := ⟨fun a b => skipLines a = b⟩

@[simp] theorem Trace.lines_mul (r : Trace) (a c : List Token) :
    (lines * r) a c ↔ r (skipLines a) c := by
  simp [mul_apply, lines]

/-- How newlines and the word `else` are read at a place. -/
structure Mode where
  /-- Newlines count for nothing, as they do within round and square brackets. -/
  skips : Bool
  /-- The place is in a block, where `else` may be on a later line. -/
  inBlock : Bool
deriving DecidableEq

namespace Mode

def top : Mode := ⟨false, false⟩

def bracketed (m : Mode) : Mode := ⟨true, m.inBlock⟩

def block : Mode := ⟨false, true⟩

def settle (m : Mode) (tokens : List Token) : List Token :=
  if m.skips then skipLines tokens else tokens

/-- The tokens in front of which a branch ends, an `else` included that belongs to it. -/
def beforeElse (m : Mode) (tokens : List Token) : List Token :=
  if m.inBlock then skipLines tokens else tokens

variable (m : Mode) {tokens : List Token}

theorem settle_of_ne (h : headKind tokens ≠ .endOfLine) : m.settle tokens = tokens := by
  unfold settle
  split
  · exact skipLines_of_ne h
  · rfl

theorem beforeElse_of_ne (h : headKind tokens ≠ .endOfLine) : m.beforeElse tokens = tokens := by
  unfold beforeElse
  split
  · exact skipLines_of_ne h
  · rfl

end Mode

def Token.taken (fits : Kind → Bool) (m : Mode) (token : Token) : Trace where
  Holds a b := fits token.kind = true ∧ ∃ rest, a = token :: rest ∧ m.settle rest = b

section
variable {f : Kind → Bool} {m : Mode} {token : Token} {a b : List Token}

@[simp] theorem Token.taken_apply :
    token.taken f m a b ↔ f (headKind a) = true ∧ a.head? = some token ∧ m.settle a.tail = b := by
  constructor
  · rintro ⟨hf, rest, rfl, hb⟩
    exact ⟨hf, rfl, hb⟩
  · rintro ⟨hf, ha, hb⟩
    obtain ⟨rest, rfl⟩ := List.head?_eq_some_iff.1 ha
    exact ⟨hf, rest, rfl, hb⟩

@[simp] theorem Token.taken_mul {r : Trace} :
    (token.taken f m * r) a b ↔
      f (headKind a) = true ∧ a.head? = some token ∧ r (m.settle a.tail) b := by
  constructor
  · rintro ⟨c, hc, hr⟩
    obtain ⟨hf, ha, rfl⟩ := Token.taken_apply.1 hc
    exact ⟨hf, ha, hr⟩
  · rintro ⟨hf, ha, hr⟩
    exact ⟨_, Token.taken_apply.2 ⟨hf, ha, rfl⟩, hr⟩

theorem Token.fits_of_taken_mul {r : Trace} (h : (token.taken f m * r) a b) :
    f token.kind = true := by
  obtain ⟨hf, hh, _⟩ := Token.taken_mul.1 h
  rwa [headKind_of_head? hh] at hf

/-- What a token says itself need not be checked in front of it. -/
theorem Trace.mul_check_mul_taken (r : Trace) {holds : List Token → Prop}
    (h : ∀ a, f (headKind a) = true → holds a) :
    r * check holds * token.taken f m = r * token.taken f m := by
  rw [mul_assoc]
  refine congrArg (r * ·) (ext fun a c => (check_mul holds _ a c).trans ⟨And.right, fun ht => ?_⟩)
  exact ⟨h a (Token.taken_apply.1 ht).1, ht⟩

end

/-- An expression ends where no operator follows that binds by at least a level. -/
def Trace.stop (level : Level) : Trace := check fun a => level.admits (headKind a) = false

end LenientR
