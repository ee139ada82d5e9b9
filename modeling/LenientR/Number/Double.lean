/-!
# Doubles

Non-negative double precision numbers, computed exactly. A finite one is `significand` units of
`2 ^ (scale - 1074)`; below 2⁵² units only the smallest scale is used, so each number has one form
and `bits` reads it off. `ofRatio` rounds a quotient to the nearest double, halves to the even one.
-/

namespace LenientR

inductive Double
  | finite (significand scale : Nat)
  | infinity
  | nan
deriving DecidableEq

namespace Double

def divideToEven (dividend divisor : Nat) : Nat :=
  let quotient := dividend / divisor
  let twice := 2 * (dividend % divisor)
  if twice < divisor then quotient
  else if twice = divisor then quotient + quotient % 2
  else quotient + 1

/-- The least number of doublings of the unit at which a quotient has at most 53 binary digits,
given in units of `2 ^ -1074`. -/
def scaleOf (units divisor : Nat) : Nat :=
  let doublings := units.log2 - divisor.log2 - 52
  if units / (divisor <<< doublings) < Nat.pow 2 52 then doublings - 1 else doublings

def ofUnits (significand scale : Nat) : Double :=
  if Nat.pow 2 2098 ≤ significand <<< scale then infinity else finite significand scale

def ofRatio (dividend divisor : Nat) : Double :=
  let units := dividend <<< 1074
  let scale := scaleOf units divisor
  ofUnits (divideToEven units (divisor <<< scale)) scale

def ofNat (n : Nat) : Double := ofRatio n 1

/-- The double nearest to `digits * 10 ^ exponent`. The first two tests only keep the power small:
as `8 < 10`, those numbers are infinite or below half the smallest double anyway. -/
def ofDecimal (digits : Nat) (exponent : Int) : Double :=
  if digits = 0 then finite 0 0
  else match exponent with
    | .ofNat n =>
      if 1024 ≤ digits.log2 + 3 * n then infinity else ofRatio (digits * Nat.pow 10 n) 1
    | .negSucc n =>
      if digits.log2 + 1077 ≤ 3 * (n + 1) then finite 0 0 else ofRatio digits (Nat.pow 10 (n + 1))

/-- A power of two: infinite from `2 ^ 1024` on, and zero where its reciprocal is infinite. -/
def powerOfTwo : Int → Double
  | .ofNat n => if n < 1024 then ofNat (Nat.pow 2 n) else infinity
  | .negSucc n => if n + 1 < 1024 then ofRatio 1 (Nat.pow 2 (n + 1)) else finite 0 0

def mul : Double → Double → Double
  | nan, _ | _, nan => nan
  | infinity, finite significand _ | finite significand _, infinity =>
    if significand = 0 then nan else infinity
  | infinity, infinity => infinity
  | finite a scaleA, finite b scaleB =>
    ofRatio ((a * b) <<< (scaleA + scaleB)) (Nat.pow 2 2148)

def toNat? : Double → Option Nat
  | finite significand scale =>
    let units := significand <<< scale
    if units % Nat.pow 2 1074 = 0 then some (units >>> 1074) else none
  | _ => none

/-- The bits of the binary64 format, for numbers; a NaN has the bits of the quiet one. -/
def bits : Double → Nat
  | finite significand scale => scale <<< 52 + significand
  | infinity => 2047 <<< 52
  | nan => 4095 <<< 51

end Double

end LenientR
