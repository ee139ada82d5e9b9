/-!
# Bisection

Looks for a number in an increasing list by halving the range of indexes it can be at. The answer
is its index or, if it is not there, the index it would have.
-/

namespace LenientR.Text

inductive Bisection
  | found (index : Nat)
  /-- The number is not there; the numbers before the index are less, those from it on greater. -/
  | absent (index : Nat)
deriving DecidableEq

/-- Looks at the indexes from `low` up to `high`, which is left out. -/
def bisectWithin (numbers : List Nat) (wanted low high : Nat) (hle : high ≤ numbers.length) :
    Bisection :=
  if h : low < high then
    let middle := low + (high - low) / 2
    have hmiddle : middle < numbers.length := by omega
    if numbers[middle] = wanted then .found middle
    else if numbers[middle] < wanted then bisectWithin numbers wanted (middle + 1) high hle
    else bisectWithin numbers wanted low middle (Nat.le_of_lt hmiddle)
  else .absent low
termination_by high - low

/-- Only of use where the numbers increase. -/
def bisect (numbers : List Nat) (wanted : Nat) : Bisection :=
  bisectWithin numbers wanted 0 numbers.length (Nat.le_refl _)

end LenientR.Text
