import LenientR.Number.Double
import LenientR.Token.Basic
import LenientR.Token.Numeral
import LenientR.Token.Quoted

/-!
# Literal values

The value a literal token stands for. Decimal numerals are rounded correctly. A hexadecimal one is a
64 bit whole number times a power of two, so it has no value when its digits or its exponent are too
large for that.
-/

namespace LenientR

inductive LiteralValue
  | boolean (value : Bool)
  | number (value : Double)
  /-- A whole number marked with `L` that fits 32 bits. -/
  | integer (value : Nat)
  /-- The imaginary part of a number marked with `i`. -/
  | complex (value : Double)
  /-- The text between the delimiters, escapes left as written. -/
  | string (value : String)
  | null
  /-- A missing value, or a number that has none. -/
  | missing
deriving DecidableEq

def digitValue (c : Char) : Nat :=
  if c.isDigit then c.toNat - '0'.toNat
  else if 'a' ≤ c then c.toNat - 'a'.toNat + 10
  else c.toNat - 'A'.toNat + 10

def digitsValue (base : Nat) (digits : List Char) : Nat :=
  digits.foldl (fun value c => value * base + digitValue c) 0

def Exponent.value (exponent : Exponent) : Int :=
  let magnitude := digitsValue 10 exponent.digits
  if exponent.sign = some '-' then -magnitude else magnitude

/-- The exponents that fit a signed 32 bit word. -/
def fitsExponent (exponent : Int) : Bool := -2147483648 ≤ exponent && exponent ≤ 2147483647

def Numeral.value? (numeral : Numeral) : Option Double :=
  let exponent := (numeral.exponent.map Exponent.value).getD 0
  match numeral.significand with
  | .decimal whole fraction =>
    let digits := whole ++ fraction.getD []
    some (.ofDecimal (digitsValue 10 digits) (exponent - (fraction.getD []).length))
  | .hexadecimal _ digits =>
    let value := digitsValue 16 digits
    if value < Nat.pow 2 64 && fitsExponent exponent then
      some ((Double.ofNat value).mul (.powerOfTwo exponent))
    else none

/-- A number marked as an integer is one only if it is whole and at most `2 ^ 31 - 1`. -/
def LiteralValue.ofMarkedInteger (value : Double) : LiteralValue :=
  match value.toNat? with
  | some n => if n ≤ 2147483647 then integer n else number value
  | none => number value

def Numeral.literalValue (numeral : Numeral) : LiteralValue :=
  match numeral.value? with
  | none => .missing
  | some value =>
    match numeral.suffix with
    | some 'L' => .ofMarkedInteger value
    | some 'i' => .complex value
    | _ => .number value

def Token.literalValue (token : Token) : LiteralValue :=
  match token.kind with
  | .number => (Numeral.read token.chars).1.literalValue
  | .string => .string (String.ofList (Quoted.contents token.chars))
  | .trueWord => .boolean true
  | .falseWord => .boolean false
  | .infWord => .number .infinity
  | .nanWord => .number .nan
  | .nullWord => .null
  | _ => .missing

end LenientR
