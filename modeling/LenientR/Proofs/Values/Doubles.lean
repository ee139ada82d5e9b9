import LenientR.Number.Double
import Mathlib.Algebra.Group.Nat.Defs

/-!
# Whole numbers as doubles

A whole number below `2 ^ 53` is a double itself. Any other is infinite or rounded, but never to
less than its leading binary digit stands for. The exponents of the units are variables as long as
can be, so that no large power of two is ever worked out.
-/

namespace LenientR.Double

theorem div_le_divideToEven (dividend divisor : Nat) :
    dividend / divisor ≤ divideToEven dividend divisor := by
  unfold divideToEven
  dsimp only
  split
  · exact Nat.le_refl _
  · split
    · exact Nat.le_add_right _ _
    · exact Nat.le_succ _

theorem divideToEven_mul (quotient : Nat) {divisor : Nat} (h : 0 < divisor) :
    divideToEven (quotient * divisor) divisor = quotient := by
  unfold divideToEven
  simp [h]

-- ---------------------------------------------------------------------------
-- Fifty-three digits
-- ---------------------------------------------------------------------------

section
variable {n unit scale : Nat}

theorem log2_shiftLeft (h : n ≠ 0) (unit : Nat) : (n <<< unit).log2 = n.log2 + unit := by
  have hpos := Nat.two_pow_pos unit
  rw [Nat.shiftLeft_eq]
  refine (Nat.log2_eq_iff (Nat.mul_ne_zero h (Nat.ne_of_gt hpos))).2 ⟨?_, ?_⟩
  · rw [Nat.pow_add]
    exact Nat.mul_le_mul_right _ (Nat.log2_self_le h)
  · rw [Nat.add_right_comm, Nat.pow_add]
    exact Nat.mul_lt_mul_of_pos_right Nat.lt_log2_self hpos

theorem le_shiftLeft_div (h : n ≠ 0) (hs : n.log2 + unit = 52 + scale) :
    2 ^ 52 ≤ (n <<< unit) / (1 <<< scale) := by
  rw [Nat.shiftLeft_eq, Nat.shiftLeft_eq, Nat.one_mul,
    Nat.le_div_iff_mul_le (Nat.two_pow_pos _), ← Nat.pow_add, ← hs, Nat.pow_add]
  exact Nat.mul_le_mul_right _ (Nat.log2_self_le h)

theorem le_divideToEven_shiftLeft (h : n ≠ 0) (hs : n.log2 + unit = 52 + scale) :
    (2 ^ n.log2) <<< unit ≤ divideToEven (n <<< unit) (1 <<< scale) <<< scale := by
  have hlead : 2 ^ 52 ≤ divideToEven (n <<< unit) (1 <<< scale) :=
    Nat.le_trans (le_shiftLeft_div h hs) (div_le_divideToEven _ _)
  calc (2 ^ n.log2) <<< unit
    _ = 2 ^ 52 * 2 ^ scale := by rw [Nat.shiftLeft_eq, ← Nat.pow_add, hs, Nat.pow_add]
    _ ≤ divideToEven (n <<< unit) (1 <<< scale) * 2 ^ scale := Nat.mul_le_mul_right _ hlead
    _ = divideToEven (n <<< unit) (1 <<< scale) <<< scale := (Nat.shiftLeft_eq _ _).symm

/-- A number of at most 53 binary digits is not rounded. -/
theorem divideToEven_shiftLeft (hn : n.log2 < 53) (hs : n.log2 + unit = 52 + scale) :
    divideToEven (n <<< unit) (1 <<< scale) <<< scale = n <<< unit := by
  have hsplit : n <<< unit = n * 2 ^ (52 - n.log2) * 2 ^ scale := by
    rw [Nat.shiftLeft_eq, Nat.mul_assoc, ← Nat.pow_add]
    congr 2
    omega
  rw [hsplit, Nat.shiftLeft_eq 1, Nat.one_mul, divideToEven_mul _ (Nat.two_pow_pos _),
    Nat.shiftLeft_eq]

theorem scaleOf_shiftLeft (h : n ≠ 0) (hs : n.log2 + unit = 52 + scale) :
    scaleOf (n <<< unit) 1 = scale := by
  have hdoublings : (n <<< unit).log2 - Nat.log2 1 - 52 = scale := by
    rw [log2_shiftLeft h, hs, show Nat.log2 1 = 0 from rfl]
    omega
  unfold scaleOf
  rw [hdoublings, Nat.pow_eq]
  exact if_neg (Nat.not_lt.2 (le_shiftLeft_div h hs))

theorem shiftLeft_lt {bound limit : Nat} (h : n < 2 ^ bound) (hl : bound + unit ≤ limit) :
    n <<< unit < Nat.pow 2 limit := by
  rw [Nat.shiftLeft_eq, Nat.pow_eq]
  calc n * 2 ^ unit
    _ < 2 ^ bound * 2 ^ unit := Nat.mul_lt_mul_of_pos_right h (Nat.two_pow_pos _)
    _ = 2 ^ (bound + unit) := (Nat.pow_add _ _ _).symm
    _ ≤ 2 ^ limit := Nat.pow_le_pow_right Nat.two_pos hl

theorem le_of_shiftLeft_le {m : Nat} (h : n <<< unit ≤ m <<< unit) : n ≤ m := by
  rw [Nat.shiftLeft_eq, Nat.shiftLeft_eq] at h
  exact Nat.le_of_mul_le_mul_right h (Nat.two_pow_pos _)

theorem eq_shiftLeft_iff {units : Nat} :
    units = n <<< unit ↔ units % Nat.pow 2 unit = 0 ∧ units >>> unit = n := by
  rw [Nat.pow_eq, Nat.shiftLeft_eq, Nat.shiftRight_eq_div_pow]
  constructor
  · rintro rfl
    exact ⟨Nat.mul_mod_left _ _, Nat.mul_div_cancel _ (Nat.two_pow_pos _)⟩
  · rintro ⟨hm, rfl⟩
    exact (Nat.div_mul_cancel (Nat.dvd_of_mod_eq_zero hm)).symm

end

-- ---------------------------------------------------------------------------
-- Whole numbers
-- ---------------------------------------------------------------------------

section
variable {n m significand scale : Nat}

theorem toNat?_finite_eq_some_iff :
    (finite significand scale).toNat? = some n ↔ significand <<< scale = n <<< 1074 := by
  unfold toNat?
  dsimp only
  generalize 1074 = unit
  rw [eq_shiftLeft_iff, Option.ite_none_right_eq_some, Option.some.injEq]

theorem ofUnits_eq_finite (h : significand <<< scale = n <<< 1074) (hn : n < 2 ^ 53) :
    ofUnits significand scale = finite significand scale := by
  have hl : 53 + 1074 ≤ 2098 := by decide
  unfold ofUnits
  generalize 2098 = limit at hl
  rw [h]
  exact if_neg (Nat.not_le.2 (shiftLeft_lt hn hl))

theorem ofNat_eq_ofUnits (h : n ≠ 0) :
    ofNat n = ofUnits (divideToEven (n <<< 1074) (1 <<< (n.log2 + 1022))) (n.log2 + 1022) := by
  unfold ofNat ofRatio
  dsimp only
  rw [scaleOf_shiftLeft h (show n.log2 + 1074 = 52 + (n.log2 + 1022) by omega)]

theorem toNat?_ofNat (h : n ≠ 0) (hn : n < 2 ^ 53) : (ofNat n).toNat? = some n := by
  have hexact := divideToEven_shiftLeft ((Nat.log2_lt h).2 hn)
    (show n.log2 + 1074 = 52 + (n.log2 + 1022) by omega)
  rw [ofNat_eq_ofUnits h, ofUnits_eq_finite hexact hn]
  exact toNat?_finite_eq_some_iff.2 hexact

theorem two_pow_log2_le_toNat?_ofNat (h : n ≠ 0) (hm : (ofNat n).toNat? = some m) :
    2 ^ n.log2 ≤ m := by
  rw [ofNat_eq_ofUnits h] at hm
  unfold ofUnits at hm
  split at hm
  · cases hm
  · have hle := le_divideToEven_shiftLeft h
      (show n.log2 + 1074 = 52 + (n.log2 + 1022) by omega)
    rw [toNat?_finite_eq_some_iff.1 hm] at hle
    exact le_of_shiftLeft_le hle

theorem ofDecimal_zero (n : Nat) :
    ofDecimal n 0 = if n = 0 then finite 0 0 else if 1024 ≤ n.log2 then infinity else ofNat n := by
  show (if n = 0 then _ else if 1024 ≤ n.log2 + 3 * 0 then _ else ofRatio (n * Nat.pow 10 0) 1) = _
  rw [Nat.mul_zero, Nat.add_zero, show Nat.pow 10 0 = 1 from rfl, Nat.mul_one]
  rfl

/-- A whole number below `2 ^ 53` written in decimal digits is read exactly. -/
theorem toNat?_ofDecimal (h : n < 2 ^ 53) : (ofDecimal n 0).toNat? = some n := by
  rw [ofDecimal_zero]
  split
  · rename_i hz
    subst hz
    exact toNat?_finite_eq_some_iff.2 (by simp)
  · rename_i hz
    have hlog : n.log2 < 53 := (Nat.log2_lt hz).2 h
    rw [if_neg (by omega)]
    exact toNat?_ofNat hz h

/-- Where one is read as a whole number, that has no fewer binary digits. -/
theorem two_pow_log2_le_of_toNat? (hz : n ≠ 0) (h : (ofDecimal n 0).toNat? = some m) :
    2 ^ n.log2 ≤ m := by
  rw [ofDecimal_zero, if_neg hz] at h
  split at h
  · cases h
  · exact two_pow_log2_le_toNat?_ofNat hz h

end

end LenientR.Double
