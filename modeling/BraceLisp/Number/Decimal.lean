import BraceLisp.Number.Binary64

/-!
# Decimal literals

A decimal literal is a sign, a coefficient and a power of ten:
`[+-]? (D+ (. D*)? | . D+) ([eE] [+-]? D+)?` with `D` an ASCII digit. `Decimal.ofChars?` reads
exactly these texts, and `Decimal.toFloat` is the double nearest to the number that is denoted,
whatever the length of its digits or of its exponent.
-/

namespace BraceLisp

/-- The number `± coefficient * 10 ^ exponent`. -/
structure Decimal where
  negative : Bool
  coefficient : Nat
  exponent : Int
deriving DecidableEq, Repr

namespace Decimal

/-- Splits off an optional sign and says whether it is a minus. -/
def sign : List Char → Bool × List Char
  | '-' :: rest => (true, rest)
  | '+' :: rest => (false, rest)
  | rest => (false, rest)

/-- The digits behind a decimal point and what follows them; no point means no digits. -/
def fraction : List Char → List Char × List Char
  | '.' :: rest => (rest.takeWhile Char.isDigit, rest.dropWhile Char.isDigit)
  | rest => ([], rest)

/-- Reads all of the text as an optional exponent part. -/
def exponentPart? : List Char → Option Int
  | [] => some 0
  | e :: rest =>
    let (negative, digits) := sign rest
    if (e = 'e' ∨ e = 'E') ∧ digits ≠ [] ∧ digits.all Char.isDigit then
      let n := Nat.ofDigitChars 10 digits 0
      some (if negative then -(n : Int) else n)
    else none

/-- Reads all of the text as a decimal literal. -/
def ofChars? (text : List Char) : Option Decimal :=
  let (negative, unsigned) := sign text
  let whole := unsigned.takeWhile Char.isDigit
  let (places, rest) := fraction (unsigned.dropWhile Char.isDigit)
  if whole = [] ∧ places = [] then none
  else
    (exponentPart? rest).map fun e =>
      ⟨negative, Nat.ofDigitChars 10 (whole ++ places) 0, e - places.length⟩

/-- The magnitude bits of the double nearest to the literal's absolute value. A coefficient below
`2 ^ k` is below `10 ^ k`, so the two early exits answer for values of at least `10 ^ 310` and
below `10 ^ (-324)`, which round to infinity and to zero, and keep the powers of ten that are
computed no longer than the literal itself, give or take a few hundred digits. -/
def magnitude (d : Decimal) : Nat :=
  if d.coefficient = 0 then 0
  else if 310 ≤ d.exponent then Binary64.infinity
  else if d.exponent + (d.coefficient.log2 + 1) ≤ -324 then 0
  else
    match d.exponent with
    | .ofNat e => Binary64.nearest ((d.coefficient * Nat.pow 10 e) <<< 1074) 1
    | .negSucc e => Binary64.nearest (d.coefficient <<< 1074) (Nat.pow 10 (e + 1))

/-- The double nearest to the literal, ties going to the even double. -/
def toFloat (d : Decimal) : Float := Binary64.ofMagnitude d.negative d.magnitude

end Decimal

end BraceLisp
